import Std.Data.String.ToInt
import RegisterMachine.Heap.Rendering
import RegisterMachine.Proofs.Heap.Reachable
import RegisterMachine.Proofs.Map.Equality

namespace RegisterMachine

-- What a value says apart from the heap that holds it: nothing, a number, a text or a list.
inductive Datum where
  | null
  | int (i : Int32)
  | text (t : String)
  | list (items : List Datum)

namespace Datum

inductive Kind where
  | null | int | text | list

def kind : Datum → Kind
  | null => .null
  | int _ => .int
  | text _ => .text
  | list _ => .list

end Datum

namespace Heap

variable {h k : Heap} {v w : Value} {x y : Datum} {r r' s t : List Char}

-- A live value expresses a datum, with at most so many lists inside each other.
def Expresses (h : Heap) : Nat → Value → Datum → Prop
  | _,v,.null => v = .null
  | _,v,.int i => v = .int i
  | _,v,.text text => h.text? v = some text
  | 0,_,.list _ => False
  | levels + 1,v,.list data => ∃ items, h.items? v = some items ∧ List.Forall₂ (h.Expresses levels) items.toList data

theorem expresses_null : h.Expresses levels v .null ↔ v = .null := by cases levels <;> rfl

theorem expresses_int : h.Expresses levels v (.int i) ↔ v = .int i := by cases levels <;> rfl

theorem expresses_text : h.Expresses levels v (.text text) ↔ h.text? v = some text := by cases levels <;> rfl

theorem expresses_list : h.Expresses levels v (.list data) ↔ ∃ fewer items, levels = fewer + 1 ∧ h.items? v = some items ∧
    List.Forall₂ (h.Expresses fewer) items.toList data := by
  cases levels with
  | zero =>
      constructor
      · exact False.elim
      · rintro ⟨fewer,_,impossible,_⟩
        cases impossible
  | succ levels =>
      constructor
      · rintro ⟨items,listed,each⟩
        exact ⟨levels,items,rfl,listed,each⟩
      · rintro ⟨_,items,same,listed,each⟩
        cases same
        exact ⟨items,listed,each⟩

-- What can follow a literal.
def Delimited (rest : List Char) : Prop := ∀ c ∈ rest.head?, c = ',' ∨ c = ']'

theorem span_unique {kind : Char → Bool} (left : ∀ c ∈ s, kind c = true) (right : ∀ c ∈ t, kind c = true)
    (stop : ∀ c ∈ r.head?, kind c = false) (stop' : ∀ c ∈ r'.head?, kind c = false) (same : s ++ r = t ++ r') : s = t ∧ r = r' := by
  have none_of : ∀ rest : List Char, (∀ c ∈ rest.head?, kind c = false) → rest.takeWhile kind = [] := by
    intro rest stops
    cases rest with
    | nil => rfl
    | cons c rest => rw [List.takeWhile_cons,stops c rfl,if_neg Bool.false_ne_true]
  have first := congrArg (List.takeWhile kind) same
  rw [List.takeWhile_append_of_pos left,List.takeWhile_append_of_pos right,none_of r stop,none_of r' stop'] at first
  simp only [List.append_nil] at first
  subst first
  exact ⟨rfl,List.append_cancel_left same⟩

def isNumeral (c : Char) : Bool := c.isDigit || c == '-'

theorem int_numerals (i : Int) : (toString i).toList ≠ [] ∧ ∀ c ∈ (toString i).toList, isNumeral c = true := by
  have digits : ∀ n : Nat, n.repr.toList ≠ [] ∧ ∀ c ∈ n.repr.toList, isNumeral c = true := by
    intro n
    rw [Nat.repr_eq_ofList_toDigits,String.toList_ofList]
    refine ⟨Nat.toDigits_ne_nil,fun c member => ?_⟩
    rw [isNumeral,Nat.isDigit_of_mem_toDigits (by decide) (by decide) member,Bool.true_or]
  rw [Int.toString_eq_repr,Int.repr_eq_if]
  split
  · exact digits _
  · obtain ⟨nonempty,each⟩ := digits (-i).toNat
    rw [String.toList_append]
    refine ⟨List.append_ne_nil_of_right_ne_nil _ nonempty,fun c member => ?_⟩
    rcases List.mem_append.mp member with sign | member
    · rw [List.mem_singleton.mp sign]
      rfl
    · exact each c member

theorem Delimited.nil : Delimited [] := by
  intro c here
  cases here

theorem Delimited.numeral (ends : Delimited r) : ∀ c ∈ r.head?, isNumeral c = false := by
  intro c here
  rcases ends c here with rfl | rfl <;> rfl

theorem Delimited.quote (ends : Delimited r) : r.head? ≠ some '"' := fun here => by rcases ends _ here with other | other <;> cases other

-- A doubled quote never ends a string: the quote that ends it is followed by none.
theorem doubleQuotes_unique (ends : r.head? ≠ some '"') (ends' : r'.head? ≠ some '"')
    (same : doubleQuotes s ++ '"' :: r = doubleQuotes t ++ '"' :: r') : s = t ∧ r = r' := by
  have apart : ∀ (c : Char) (more rest rest' : List Char), rest.head? ≠ some '"' →
      '"' :: rest ≠ doubleQuotes (c :: more) ++ '"' :: rest' := by
    intro c more rest rest' ends clash
    rw [doubleQuotes] at clash
    split at clash
    · rw [List.cons_append,List.cons_append] at clash
      exact ends (congrArg List.head? (List.cons.inj clash).2)
    · rename_i other
      exact other (List.cons.inj clash).1.symm
  induction s generalizing t with
  | nil =>
      cases t with
      | nil => exact ⟨rfl,(List.cons.inj same).2⟩
      | cons c t => exact absurd same (apart c t r r' ends)
  | cons c s ih =>
      cases t with
      | nil => exact absurd same.symm (apart c s r' r ends')
      | cons d t =>
          simp only [doubleQuotes] at same
          split at same <;> split at same <;> rename_i first second
          · obtain ⟨rfl,rfl⟩ := ih (List.cons.inj (List.cons.inj same).2).2
            exact ⟨by rw [first,second],rfl⟩
          · exact absurd (List.cons.inj same).1.symm second
          · exact absurd (List.cons.inj same).1 first
          · obtain ⟨head,rest⟩ := List.cons.inj same
            obtain ⟨rfl,rfl⟩ := ih rest
            exact ⟨by rw [head],rfl⟩

-- The text of a literal.
def literalChars (h : Heap) (levels : Nat) (v : Value) : List Char := (h.render levels true v).toList

-- What follows an item of a list: the other items, the closing bracket and the rest.
def itemsAfter (items : List (List Char)) (rest : List Char) : List Char := items.flatMap (fun item => ',' :: ' ' :: item) ++ ']' :: rest

theorem itemsAfter_delimited (items : List (List Char)) (rest : List Char) : Delimited (itemsAfter items rest) := by
  intro c here
  cases items with
  | nil => exact Or.inr (Option.some.inj here).symm
  | cons => exact Or.inl (Option.some.inj here).symm

theorem itemsAfter_cons (item : List Char) (items : List (List Char)) (rest : List Char) :
    itemsAfter (item :: items) rest = [',',' '] ++ (item ++ itemsAfter items rest) := by
  simp only [itemsAfter,List.flatMap_cons,List.append_assoc,List.cons_append,List.nil_append]

theorem intercalate_items (item : List Char) (items : List (List Char)) (rest : List Char) :
    [',',' '].intercalate (item :: items) ++ ']' :: rest = item ++ itemsAfter items rest := by
  induction items generalizing item with
  | nil => rw [List.intercalate_singleton,itemsAfter,List.flatMap_nil,List.nil_append]
  | cons next items ih => rw [List.intercalate_cons_cons,List.append_assoc,List.append_assoc,ih,itemsAfter_cons]

theorem literalChars_null : h.literalChars levels .null = "null".toList := by cases levels <;> rfl

theorem literalChars_int : h.literalChars levels (.int i) = (toString i.toInt).toList := by cases levels <;> rfl

theorem literalChars_text (found : h.text? v = some text) : h.literalChars levels v = '"' :: doubleQuotes text.toList ++ ['"'] := by
  have shown : h.render levels true v = quoted text := by
    rcases text?_string found with ⟨t,rfl,rfl⟩ | ⟨q,rfl,_⟩
    · cases levels <;> rfl
    · cases levels <;> simp only [render,found,Option.getD_some,if_true]
  rw [literalChars,shown,quoted,String.toList_ofList]

theorem literalChars_list (listed : h.items? v = some items) : h.literalChars (levels + 1) v =
    '[' :: ([',',' '].intercalate (items.toList.map (h.literalChars levels)) ++ [']']) := by
  cases v with
  | list q =>
      simp only [literalChars,render,listed,Option.getD_some,Text.join,String.toList_append,String.toList_intercalate,List.map_map]
      rfl
  | null | int | double | short | str | map | funcRef => cases listed

-- The kind of literal that begins with a character.
def openedBy (c : Char) : Option Datum.Kind :=
  if isNumeral c then some .int else if c = 'n' then some .null else if c = '"' then some .text else if c = '[' then some .list else none

theorem Expresses.opens (expresses : h.Expresses levels v x) : ∃ c rest, h.literalChars levels v = c :: rest ∧ openedBy c = some x.kind := by
  cases x with
  | null =>
      cases expresses_null.mp expresses
      exact ⟨_,_,literalChars_null,rfl⟩
  | int i =>
      cases expresses_int.mp expresses
      obtain ⟨nonempty,each⟩ := int_numerals i.toInt
      obtain ⟨c,rest,begins⟩ := List.exists_cons_of_ne_nil nonempty
      exact ⟨c,rest,literalChars_int.trans begins,if_pos (each c (begins ▸ List.mem_cons_self))⟩
  | text text => exact ⟨_,_,literalChars_text (expresses_text.mp expresses),rfl⟩
  | list data =>
      obtain ⟨fewer,items,rfl,listed,_⟩ := expresses_list.mp expresses
      exact ⟨_,_,literalChars_list listed,rfl⟩

theorem Expresses.alike (left : h.Expresses levels v x) (right : k.Expresses levels w y)
    (same : h.literalChars levels v ++ r = k.literalChars levels w ++ r') : x.kind = y.kind := by
  obtain ⟨c,rest,begins,opens⟩ := left.opens
  obtain ⟨d,rest',begins',opens'⟩ := right.opens
  rw [begins,begins',List.cons_append,List.cons_append] at same
  rw [(List.cons.inj same).1] at opens
  exact Option.some.inj (opens.symm.trans opens')

theorem Expresses.unclosed (expresses : h.Expresses levels v x) : ']' :: r ≠ h.literalChars levels v ++ r' := by
  intro clash
  obtain ⟨c,rest,begins,opens⟩ := expresses.opens
  rw [begins,List.cons_append] at clash
  rw [← (List.cons.inj clash).1] at opens
  cases opens

-- The text of a literal tells where it ends and what was written.
def Tells (h k : Heap) (levels : Nat) : Prop := ∀ {v w x y r r'}, h.Expresses levels v x → k.Expresses levels w y →
  Delimited r → Delimited r' → h.literalChars levels v ++ r = k.literalChars levels w ++ r' → x = y ∧ r = r'

variable {vs ws : List Value} {data data' : List Datum}

theorem Tells.others (tells : Tells h k levels) (left : List.Forall₂ (h.Expresses levels) vs data)
    (right : List.Forall₂ (k.Expresses levels) ws data')
    (same : itemsAfter (vs.map (h.literalChars levels)) r = itemsAfter (ws.map (k.literalChars levels)) r') : data = data' ∧ r = r' := by
  induction left generalizing ws data' with
  | nil =>
      cases right with
      | nil => exact ⟨rfl,(List.cons.inj same).2⟩
      | cons => exact absurd (List.cons.inj same).1 (by decide)
  | cons first _ ih =>
      cases right with
      | nil => exact absurd (List.cons.inj same).1 (by decide)
      | cons first' others =>
          rw [List.map_cons,List.map_cons,itemsAfter_cons,itemsAfter_cons] at same
          obtain ⟨rfl,rest⟩ := tells first first' (itemsAfter_delimited _ _) (itemsAfter_delimited _ _) (List.append_cancel_left same)
          obtain ⟨rfl,rfl⟩ := ih others rest
          exact ⟨rfl,rfl⟩

theorem Tells.items (tells : Tells h k levels) (left : List.Forall₂ (h.Expresses levels) vs data)
    (right : List.Forall₂ (k.Expresses levels) ws data')
    (same : [',',' '].intercalate (vs.map (h.literalChars levels)) ++ ']' :: r =
      [',',' '].intercalate (ws.map (k.literalChars levels)) ++ ']' :: r') : data = data' ∧ r = r' := by
  cases left with
  | nil =>
      cases right with
      | nil => exact ⟨rfl,(List.cons.inj same).2⟩
      | cons first =>
          rw [List.map_cons,intercalate_items] at same
          exact absurd same first.unclosed
  | cons first others =>
      cases right with
      | nil =>
          rw [List.map_cons,intercalate_items] at same
          exact absurd same.symm first.unclosed
      | cons first' others' =>
          rw [List.map_cons,List.map_cons,intercalate_items,intercalate_items] at same
          obtain ⟨rfl,rest⟩ := tells first first' (itemsAfter_delimited _ _) (itemsAfter_delimited _ _) same
          obtain ⟨rfl,rfl⟩ := tells.others others others' rest
          exact ⟨rfl,rfl⟩

theorem tells (h k : Heap) (levels : Nat) : Tells h k levels := by
  induction levels using Nat.strongRecOn with | ind levels ih =>
  intro v w x y r r' left right ends ends' same
  have alike := left.alike right same
  cases x with
  | null =>
      cases y with
      | null =>
          cases expresses_null.mp left
          cases expresses_null.mp right
          rw [literalChars_null,literalChars_null] at same
          exact ⟨rfl,List.append_cancel_left same⟩
      | int | text | list => cases alike
  | int i =>
      cases y with
      | int j =>
          cases expresses_int.mp left
          cases expresses_int.mp right
          rw [literalChars_int,literalChars_int] at same
          obtain ⟨digits,rest⟩ := span_unique (int_numerals _).2 (int_numerals _).2 ends.numeral ends'.numeral same
          have numbers : i = j := Int32.toInt_inj.mp (Int.repr_inj.mp (String.toList_injective digits))
          exact ⟨by rw [numbers],rest⟩
      | null | text | list => cases alike
  | text t =>
      cases y with
      | text u =>
          rw [literalChars_text (expresses_text.mp left),literalChars_text (expresses_text.mp right)] at same
          simp only [List.cons_append,List.append_assoc] at same
          obtain ⟨letters,rest⟩ := doubleQuotes_unique ends.quote ends'.quote (List.cons.inj same).2
          exact ⟨by rw [String.toList_injective letters],rest⟩
      | null | int | list => cases alike
  | list data =>
      cases y with
      | list data' =>
          obtain ⟨fewer,items,rfl,listed,each⟩ := expresses_list.mp left
          obtain ⟨_,items',level,listed',each'⟩ := expresses_list.mp right
          cases level
          rw [literalChars_list listed,literalChars_list listed'] at same
          simp only [List.cons_append,List.append_assoc] at same
          obtain ⟨rfl,rest⟩ := Tells.items (ih fewer (Nat.lt_succ_self fewer)) each each' (List.cons.inj same).2
          exact ⟨rfl,rest⟩
      | null | int | text => cases alike

theorem items?_lists (listed : h.items? v = some items) : ∃ q, v = .list q := by
  cases v with
  | list q => exact ⟨q,rfl⟩
  | null | int | double | short | str | map | funcRef => cases listed

-- Two lists whose items are related to the same third ones are related item by item.
theorem pairwise_of {left : α → γ → Prop} {right : β → γ → Prop} {both : α → β → Prop} (first : List.Forall₂ left as cs)
    (second : List.Forall₂ right bs cs) (meet : ∀ a b c, left a c → right b c → both a b) : List.Forall₂ both as bs := by
  induction first generalizing bs with
  | nil =>
      cases second
      exact .nil
  | cons here _ ih =>
      cases second with
      | cons there others => exact .cons (meet _ _ _ here there) (ih others)

theorem Expresses.equalWithin {sameKey : Value → Value → Bool} (left : h.Expresses levels v x) (right : h.Expresses levels w x) :
    h.equalWithin sameKey levels v w = true := by
  induction levels using Nat.strongRecOn generalizing v w x with | ind levels ih =>
  cases x with
  | null =>
      cases expresses_null.mp left
      cases expresses_null.mp right
      rw [equalWithin_scalar rfl rfl]
      rfl
  | int i =>
      cases expresses_int.mp left
      cases expresses_int.mp right
      rw [equalWithin_scalar rfl rfl]
      exact beq_self_eq_true i
  | text t =>
      have found := expresses_text.mp left
      have found' := expresses_text.mp right
      have string := isString_text found'
      rw [equalWithin_scalar (by cases w <;> first | rfl | cases string) (by cases w <;> first | rfl | cases string)]
      exact (equal_texts found found').mpr rfl
  | list data =>
      obtain ⟨fewer,items,rfl,listed,each⟩ := expresses_list.mp left
      obtain ⟨_,items',level,listed',each'⟩ := expresses_list.mp right
      cases level
      obtain ⟨q,rfl⟩ := items?_lists listed
      obtain ⟨q',rfl⟩ := items?_lists listed'
      have size : items.size = items'.size := each.length_eq.trans each'.length_eq.symm
      have equal := allEqual_each.mpr (pairwise_of each each' fun _ _ _ first second => ih fewer (Nat.lt_succ_self fewer) first second)
      simp only [Heap.equalWithin,listed,listed',size,equal,beq_self_eq_true,Bool.and_self,Bool.or_true]

theorem literal_chars (h : Heap) (v : Value) : (h.literal v).toList = h.literalChars maxDepth v := rfl

theorem literal_tells (left : h.Expresses maxDepth v x) (right : k.Expresses maxDepth w y) (same : h.literal v = k.literal w) : x = y := by
  have texts := congrArg String.toList same
  rw [literal_chars,literal_chars,← List.append_nil (h.literalChars _ _),← List.append_nil (k.literalChars _ _)] at texts
  exact (tells h k maxDepth left right .nil .nil texts).1

theorem literal_unambiguous (left : h.Expresses maxDepth v x) (right : h.Expresses maxDepth w y) (same : h.literal v = h.literal w) :
    x = y ∧ h.equal v w = true := by
  have content := literal_tells left right same
  subst content
  exact ⟨rfl,left.equalWithin right⟩

-- Two lists of their own, each around another one, with a quote, a comma and a bracket in their strings.
theorem literal_unambiguous_lists : ∃ (h : Heap) (v w : Value) (x y : Datum), Reachable h ∧ v ≠ w ∧ h.Expresses maxDepth v x ∧
    h.Expresses maxDepth w y ∧
    h.literal v = "[[\"\"\"\", \", \"], \"]\", [], null, -5]" ∧ h.literal w = h.literal v ∧ x = y ∧ h.equal v w = true := by
  have inner := Reachable.call (.newListOf #[.short ⟨"\"",by decide⟩,.short ⟨", ",by decide⟩] 2) (.call (.newList 0) (.new {}))
  have inners := Reachable.call (.newListOf #[.short ⟨"\"",by decide⟩,.short ⟨", ",by decide⟩] 4) inner
  have outer := Reachable.call (.newListOf #[.list ⟨1,0⟩,.short ⟨"]",by decide⟩,.list ⟨0,0⟩,.null,.int (-5)] 5) inners
  have reachable := Reachable.call (.newListOf #[.list ⟨2,0⟩,.short ⟨"]",by decide⟩,.list ⟨0,0⟩,.null,.int (-5)] 5) outer
  generalize whole : Call.run _ _ = h at reachable
  have empty : h.items? (.list ⟨0,0⟩) = some #[] := by
    rw [← whole]
    decide +kernel
  have quote : h.items? (.list ⟨1,0⟩) = some #[.short ⟨"\"",by decide⟩,.short ⟨", ",by decide⟩] := by
    rw [← whole]
    decide +kernel
  have quote' : h.items? (.list ⟨2,0⟩) = some #[.short ⟨"\"",by decide⟩,.short ⟨", ",by decide⟩] := by
    rw [← whole]
    decide +kernel
  have here : h.items? (.list ⟨3,0⟩) = some #[.list ⟨1,0⟩,.short ⟨"]",by decide⟩,.list ⟨0,0⟩,.null,.int (-5)] := by
    rw [← whole]
    decide +kernel
  have there : h.items? (.list ⟨4,0⟩) = some #[.list ⟨2,0⟩,.short ⟨"]",by decide⟩,.list ⟨0,0⟩,.null,.int (-5)] := by
    rw [← whole]
    decide +kernel
  have strings : List.Forall₂ (h.Expresses 14) [.short ⟨"\"",by decide⟩,.short ⟨", ",by decide⟩] [.text "\"",.text ", "] :=
    .cons rfl (.cons rfl .nil)
  have others : List.Forall₂ (h.Expresses 15) [.short ⟨"]",by decide⟩,.list ⟨0,0⟩,.null,.int (-5)] [.text "]",.list [],.null,.int (-5)] :=
    .cons rfl (.cons ⟨_,empty,.nil⟩ (.cons rfl (.cons rfl .nil)))
  have left : h.Expresses maxDepth (.list ⟨3,0⟩) (.list [.list [.text "\"",.text ", "],.text "]",.list [],.null,.int (-5)]) :=
    ⟨_,here,.cons ⟨_,quote,strings⟩ others⟩
  have right : h.Expresses maxDepth (.list ⟨4,0⟩) (.list [.list [.text "\"",.text ", "],.text "]",.list [],.null,.int (-5)]) :=
    ⟨_,there,.cons ⟨_,quote',strings⟩ others⟩
  have shown : h.literal (.list ⟨3,0⟩) = "[[\"\"\"\", \", \"], \"]\", [], null, -5]" := by
    rw [← whole]
    decide +kernel
  have shown' : h.literal (.list ⟨4,0⟩) = "[[\"\"\"\", \", \"], \"]\", [], null, -5]" := by
    rw [← whole]
    decide +kernel
  have same := shown'.trans shown.symm
  exact ⟨h,_,_,_,_,reachable,by decide,left,right,shown,same,literal_unambiguous left right same.symm⟩

end Heap

end RegisterMachine
