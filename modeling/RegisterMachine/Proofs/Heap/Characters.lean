import RegisterMachine.Proofs.Heap.Iteration
import RegisterMachine.Proofs.Heap.Sequences
import RegisterMachine.Proofs.Heap.Splitting
import RegisterMachine.Proofs.Text.Occurrences

namespace RegisterMachine.Heap

open Text (OccursAt FirstAt)

variable {h s : Heap} {v w : Value} {text shown : String}

-- The characters of a text from one position up to another.
def between (text : String) (start stop : Nat) : String := String.ofList ((text.toList.take stop).drop start)

theorem between_whole (text : String) : between text 0 text.length = text := by
  rw [between,← String.length_toList,List.take_length,List.drop_zero,String.ofList_toList]

theorem between_backwards (backwards : stop ≤ start) : between text start stop = "" := by
  rw [between,List.drop_eq_nil_of_le ((List.length_take_le _ _).trans backwards),String.ofList_nil]

theorem between_front (front back : String) : between (front ++ back) 0 front.length = front := by
  rw [between,String.toList_append,← String.length_toList,List.take_left,List.drop_zero,String.ofList_toList]

theorem between_back (front back : String) : between (front ++ back) front.length (front ++ back).length = back := by
  rw [between,← String.length_toList (s := front ++ back),List.take_length,String.toList_append,← String.length_toList,List.drop_left,
    String.ofList_toList]

-- A string that something keeps, with its text.
structure Lasting (h : Heap) (v : Value) (text : String) : Prop where
  there : h.text? v = some text
  kept : ∀ r, v.handle? = some r → h.Survives r

theorem Lasting.later (lasting : h.Lasting v text) (spared : Spared h s) : s.Lasting v text :=
  ⟨(spared.text? lasting.kept).trans lasting.there,fun r handle => spared.extension.survives (lasting.kept r handle)⟩

theorem text?_live (found : h.text? v = some text) (handle : v.handle? = some r) : h.isLive r = true := by
  rcases text?_string found with ⟨t,rfl,_⟩ | ⟨q,rfl,there⟩
  · cases handle
  · cases handle
    rw [isLive,there]
    rfl

theorem root_lasting (root : h.IsRoot v) (found : h.text? v = some text) : h.Lasting v text :=
  ⟨found,fun _ handle => Or.inr (.root root handle (text?_live found handle))⟩

theorem protect_lasting (found : h.text? v = some text) : (h.protect v).Lasting v text :=
  root_lasting (.shadow List.mem_cons_self) found

theorem register_lasting (found : h.text? (h.registerValue i) = some text) : h.Lasting (h.registerValue i) text := by
  by_cases inside : i < h.registers.size
  · have there : h.registerValue i = h.registers[i].value := by
      rw [registerValue,Array.getD_eq_getD_getElem?,Array.getElem?_eq_getElem inside,Option.getD_some]
    rw [there] at found ⊢
    exact root_lasting (.register (Array.getElem_mem inside)) found
  · have outside : h.registerValue i = .null := by
      rw [registerValue,Array.getD_eq_getD_getElem?,Array.getElem?_eq_none (Nat.le_of_not_lt inside)]
      rfl
    rw [outside] at found
    cases found

-- An operation that gives a string with this text, unless a limit on bytes stops it. What is in use stays as it is.
def YieldsText (operation : HeapM Value) (h : Heap) (text : String) : Prop :=
  Yields h.config.maxBytes operation h fun w s => Frugal h s ∧ s.text? w = some text

theorem YieldsText.next {operation : HeapM Value} (yields : YieldsText operation s text) (frugal : Frugal h s) :
    Yields h.config.maxBytes operation s fun w t => Frugal s t ∧ t.text? w = some text := by
  rwa [YieldsText,frugal.steps.limit] at yields

theorem same_yieldsText (intact : h.Intact) (found : h.text? v = some text) : YieldsText (pure v) h text := .pure ⟨.refl intact,found⟩

theorem newString_yieldsText (text : String) (intact : h.Intact) : YieldsText (newString text) h text := newString_yields text intact

theorem stringConcat_yieldsText (intact : h.Intact) (left : h.text? v = some text) (right : h.text? w = some other) :
    YieldsText (stringConcat v w) h (text ++ other) := by
  refine .ok_bind (textOf_text left) (.ok_bind (textOf_text right) ?_)
  split
  · rename_i empty
    rw [String.isEmpty_iff.mp empty,String.append_empty]
    exact same_yieldsText intact left
  · split
    · rename_i empty
      rw [String.isEmpty_iff.mp empty,String.empty_append]
      exact same_yieldsText intact right
    · exact newString_yieldsText _ intact

theorem stringSubstring_yieldsText (intact : h.Intact) (found : h.text? v = some text) (start count : Int32) :
    YieldsText (stringSubstring v start count) h
      (between text (bound text.length start) (min (bound text.length start + count.toInt.toNat) text.length)) := by
  refine .ok_bind (textOf_text found) ?_
  simp only [clampIndex_bound]
  split
  · rename_i whole
    rw [whole.2,whole.1,between_whole]
    exact same_yieldsText intact found
  · rw [between,List.drop_take]
    exact newString_yieldsText _ intact

theorem bound_le (length : Nat) (index : Int32) : bound length index ≤ length := by
  unfold bound
  split <;> omega

theorem toInt_small (small : n < 0x80000000) : (Int32.ofNat n).toInt = n := Int32.toInt_ofNat_of_lt small

theorem bound_small (small : n < 0x80000000) (inside : n ≤ length) : bound length (Int32.ofNat n) = n := by
  rw [bound,toInt_small small,if_pos (Int.natCast_nonneg n),Int.toNat_natCast,Nat.min_eq_left inside]

theorem bound_first (length : Nat) : bound length 0 = 0 := by simp [bound]

theorem bound_last (small : length < 0x80000000) : bound length Int32.maxValue = length := by
  rw [bound,show Int32.maxValue.toInt = 0x7fffffff from rfl,if_pos (by decide)]
  omega

theorem stringSlice_yieldsText (intact : h.Intact) (found : h.text? v = some text) (short : text.length < 0x80000000) (start stop : Int32) :
    YieldsText (stringSlice v start stop) h (between text (bound text.length start) (bound text.length stop)) := by
  have first := bound_le text.length start
  have last := bound_le text.length stop
  refine .get_bind ?_
  simp only [clampIndex_bound,stringLength,found]
  split
  · rename_i backwards
    rw [between_backwards backwards]
    exact newString_yieldsText _ intact
  · have yields := stringSubstring_yieldsText intact found (Int32.ofNat (bound text.length start))
      (Int32.ofNat (bound text.length stop - bound text.length start))
    rw [bound_small (by omega) first,toInt_small (by omega),Int.toNat_natCast,Nat.add_sub_cancel' (by omega),Nat.min_eq_left last] at yields
    exact yields

theorem stringCharAt_denotes (found : h.text? v = some text) (within : InRange text.length index) :
    ∃ k c w, Denotes text.length index k ∧ text.toList[k]? = some c ∧ h.stringCharAt v index = .ok w ∧ h.text? w = some (String.singleton c) := by
  obtain ⟨k,denotes,resolved⟩ := resolve?_denotes within
  have inside : k < text.toList.length := by
    rw [String.length_toList]
    exact denotes.1
  obtain ⟨fits,single⟩ := shortText_singleton text.toList[k]
  refine ⟨k,text.toList[k],.short ⟨String.singleton text.toList[k],fits⟩,denotes,List.getElem?_eq_getElem inside,?_,rfl⟩
  simp only [stringCharAt,stringLength,found,resolved,expectText,bind,Except.bind,List.getElem?_eq_getElem inside,single]

theorem stringCharAt_outside (found : h.text? v = some text) (outside : ¬ InRange text.length index) :
    h.stringCharAt v index = .error (.indexOutOfRange index.toInt text.length) := by
  simp only [stringCharAt,stringLength,found,resolve?_outside outside]

theorem stringIndexOf?_text {pattern : Value} {searched : String} (found : h.text? v = some text) (sought : h.text? pattern = some searched)
    (start : Nat) : h.stringIndexOf? v pattern start = Text.indexOf? text searched start := by
  simp only [stringIndexOf?,found,sought,bind,Option.bind_some]

-- The characters on both sides of a stretch, put together. The head is protected while the tail is made, and both
-- while they are joined.
theorem aroundText_yieldsText {front middle back : String} (intact : h.Intact) (lasting : h.Lasting v (front ++ middle ++ back))
    (short : (front ++ middle ++ back).length < 0x80000000) :
    YieldsText (do
      let head ← stringSubstring v 0 (Int32.ofNat front.length)
      modify (·.protect head)
      let tail ← stringSlice v (Int32.ofNat (front.length + middle.length)) Int32.maxValue
      modify (·.protect tail)
      stringConcat head tail) h (front ++ back) := by
  have size : (front ++ middle ++ back).length = front.length + middle.length + back.length := by
    rw [String.length_append,String.length_append]
  have head := stringSubstring_yieldsText intact lasting.there 0 (Int32.ofNat front.length)
  rw [bound_first,toInt_small (by omega),Int.toNat_natCast,Nat.zero_add,Nat.min_eq_left (by omega),String.append_assoc,between_front] at head
  refine head.bind fun w s ⟨frugal,headed⟩ => .modify_bind ?_
  have first := frugal.trans (protect_frugal frugal.intact w)
  have tail := stringSlice_yieldsText first.intact (lasting.later first.toSpared).there short (Int32.ofNat (front.length + middle.length))
    Int32.maxValue
  have rest : between (front ++ middle ++ back) (front.length + middle.length) (front ++ middle ++ back).length = back := by
    rw [← String.length_append,between_back]
  rw [bound_small (by omega) (by omega),bound_last short,rest] at tail
  refine (tail.next first).bind fun x t ⟨frugal',tailed⟩ => .modify_bind ?_
  have second := frugal'.trans (protect_frugal frugal'.intact x)
  have headed' := ((protect_lasting headed).later second.toSpared).there
  have both := first.trans second
  exact ((stringConcat_yieldsText both.intact headed' tailed).next both).mono fun y u ⟨last,there⟩ => ⟨both.trans last,there⟩

theorem removeText_yieldsText {pattern : Value} {front searched back : String} (intact : h.Intact) (lasting : h.Lasting v (front ++ searched ++ back))
    (sought : h.text? pattern = some searched) (short : (front ++ searched ++ back).length < 0x80000000)
    (first : FirstAt (front ++ searched ++ back).toList searched.toList 0 front.length) :
    YieldsText (removeText v pattern) h (front ++ back) := by
  have place : h.stringIndexOf? v pattern 0 = some front.length := by
    rw [stringIndexOf?_text lasting.there sought]
    exact (Text.indexOf?_some (Nat.zero_le _)).mpr first
  have inside : h.pushScope.Lasting v (front ++ searched ++ back) :=
    ⟨lasting.there,fun r handle => (pushScope_extends h).survives (lasting.kept r handle)⟩
  have around := aroundText_yieldsText (pushScope_intact intact) inside short
  refine .get_bind ?_
  simp only [place,stringLength,sought,← Int32.ofNat_add]
  refine .inScope (around.mono ?_)
  rintro w s ⟨frugal,there⟩
  have closed : Frugal h s.popScope := ⟨frugal.toSpared.close,frugal.toConfined.close⟩
  rw [popScope_nested frugal.nested] at closed ⊢
  exact ⟨closed,there⟩

theorem removeText_missing {pattern : Value} (missing : h.stringIndexOf? v pattern 0 = none) : removeText v pattern h = .ok v h := by
  simp only [removeText,bind,EStateM.bind,get_ok,missing]
  rfl

-- The place that an insertion index denotes, in machine words.
def wordPlace (length : Nat) (index : Int32) : Int32 := if index < 0 then index + (Int32.ofNat length + 1) else index

theorem wordPlace_denotes (denotes : Denotes (length + 1) index k) : wordPlace length index = Int32.ofNat k := by
  obtain ⟨inside,front | back⟩ := denotes
  · rw [wordPlace,if_neg (by rw [Int32.lt_iff_toInt_lt,front]; exact Int.not_lt.mpr (Int.natCast_nonneg k))]
    refine Int32.toInt_inj.mp ?_
    rw [Int32.toInt_ofNat',← front]
    simp
  · rw [wordPlace,if_pos (by rw [Int32.lt_iff_toInt_lt,back]; change (k : Int) - (length + 1 : Nat) < 0; omega),
      show Int32.ofNat length + 1 = Int32.ofNat (length + 1) from (Int32.ofNat_add length 1).symm]
    refine Int32.toInt_inj.mp ?_
    rw [Int32.toInt_add,back,Int32.toInt_ofNat',Int32.toInt_ofNat']
    simp [Int32.size]

theorem insertText_yieldsText {index inserted : Value} (intact : h.Intact) (found : h.text? v = some text)
    (within : InRange (text.length + 1) index.asInt) :
    ∃ front back, text = front ++ back ∧ Denotes (text.length + 1) index.asInt front.length ∧
      YieldsText (insertText v index inserted) h (front ++ h.display inserted ++ back) := by
  obtain ⟨k,denotes,place⟩ : ∃ k : Nat, Denotes (text.length + 1) index.asInt k ∧
      (if index.asInt.toInt < 0 then index.asInt.toInt + text.length + 1 else index.asInt.toInt) = k := by
    obtain ⟨low,high⟩ := within
    simp only [Denotes]
    split
    · exact ⟨(index.asInt.toInt + text.length + 1).toNat,by omega,by omega⟩
    · exact ⟨index.asInt.toInt.toNat,by omega,by omega⟩
  have inside : k ≤ text.toList.length := by
    rw [String.length_toList]
    exact Nat.le_of_lt_succ denotes.1
  refine ⟨String.ofList (text.toList.take k),String.ofList (text.toList.drop k),?_,?_,?_⟩
  · rw [← String.ofList_append,List.take_append_drop,String.ofList_toList]
  · rwa [String.length_ofList,List.length_take_of_le inside]
  · refine .get_bind ?_
    simp only [stringLength,found,place,display_text found]
    rw [if_neg (by rw [String.length_toList] at inside; omega)]
    exact newString_yieldsText _ intact

theorem insertText_outside {index inserted : Value} (found : h.text? v = some text) (outside : ¬ InRange (text.length + 1) index.asInt) :
    insertText v index inserted h = .error (.indexOutOfRange index.asInt.toInt text.length) h := by
  simp only [InRange] at outside
  simp only [insertText,bind,EStateM.bind,get_ok,stringLength,found]
  rw [if_pos (by split <;> omega)]
  rfl

-- What is read of a string and cut out of it. The bytes of another string are found where its characters are.
structure ReadsByPosition (h : Heap) (v : Value) (text : String) : Prop where
  slice : ∀ start stop, YieldsText (stringSlice v start stop) h (between text (bound text.length start) (bound text.length stop))
  substring : ∀ start count, YieldsText (stringSubstring v start count) h
    (between text (bound text.length start) (min (bound text.length start + count.toInt.toNat) text.length))
  charAt : ∀ index, InRange text.length index →
    ∃ k c w, Denotes text.length index k ∧ text.toList[k]? = some c ∧ h.stringCharAt v index = .ok w ∧ h.text? w = some (String.singleton c)
  charOutside : ∀ index, ¬ InRange text.length index → h.stringCharAt v index = .error (.indexOutOfRange index.toInt text.length)
  found : ∀ pattern searched start p, h.text? pattern = some searched → start ≤ text.length →
    (h.stringIndexOf? v pattern start = some p ↔ FirstAt text.toList searched.toList start p)
  missing : ∀ pattern searched start, h.text? pattern = some searched → start ≤ text.length →
    (h.stringIndexOf? v pattern start = none ↔ ∀ p, start ≤ p → ¬ OccursAt text.toList searched.toList p)
  bytes : ∀ pattern searched start b, h.text? pattern = some searched → start ≤ text.length →
    (FirstAt (Text.bytes text) (Text.bytes searched) (Text.offset text.toList start) b ↔
      ∃ p, b = Text.offset text.toList p ∧ h.stringIndexOf? v pattern start = some p)

theorem readsByPosition {h : Heap} (intact : h.Intact) (textual : h.text? v = some text) (short : text.length < 0x80000000) :
    h.ReadsByPosition v text where
  slice := stringSlice_yieldsText intact textual short
  substring := stringSubstring_yieldsText intact textual
  charAt := fun _ => stringCharAt_denotes textual
  charOutside := fun _ => stringCharAt_outside textual
  found := by
    intro pattern searched start p sought inside
    rw [stringIndexOf?_text textual sought]
    exact Text.indexOf?_some inside
  missing := by
    intro pattern searched start sought inside
    rw [stringIndexOf?_text textual sought]
    exact Text.indexOf?_missing inside
  bytes := by
    intro pattern searched start b sought inside
    rw [stringIndexOf?_text textual sought,Text.bytes_eq,Text.bytes_eq]
    simp only [Text.indexOf?_some inside]
    exact Text.firstAt_encode (by rwa [String.length_toList])

end RegisterMachine.Heap
