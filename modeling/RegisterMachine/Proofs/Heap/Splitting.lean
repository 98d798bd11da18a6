import RegisterMachine.Machine.Intrinsics
import RegisterMachine.Proofs.Heap.Growth
import RegisterMachine.Proofs.Text.Pieces

namespace RegisterMachine.Heap

variable {h h₀ s : Heap} {v : Value}

-- An operation has a result, with what is known of it, unless a limit on bytes stops it.
def Yields (limit : Option Nat) (operation : HeapM α) (h : Heap) (post : α → Heap → Prop) : Prop :=
  match operation h with
  | .ok a s => post a s
  | .error e _ => limit ≠ none ∧ ∃ bytes, e = .outOfMemory bytes

-- A list of strings with these texts.
def ListsTexts (h : Heap) (v : Value) (texts : List String) : Prop :=
  ∃ items, h.items? v = some items ∧ items.toList.map h.text? = texts.map some

namespace Yields

variable {limit : Option Nat}

theorem pure {a : α} {post : α → Heap → Prop} (held : post a h) : Yields limit (Pure.pure a) h post := held

theorem bind {first : HeapM α} {rest : α → HeapM β} {middle : α → Heap → Prop} {post : β → Heap → Prop}
    (yields : Yields limit first h middle) (follows : ∀ a s, middle a s → Yields limit (rest a) s post) :
    Yields limit (first >>= rest) h post := by
  simp only [Yields,Bind.bind,EStateM.bind] at yields ⊢
  cases done : first h with
  | ok a s =>
      rw [done] at yields
      exact follows a s yields
  | error e s => simpa only [done] using yields

theorem ok_bind {first : HeapM α} {rest : α → HeapM β} {post : β → Heap → Prop} (done : first h = .ok a s)
    (follows : Yields limit (rest a) s post) : Yields limit (first >>= rest) h post := by
  simpa only [Yields,Bind.bind,EStateM.bind,done] using follows

theorem mono {operation : HeapM α} {post post' : α → Heap → Prop} (yields : Yields limit operation h post)
    (weaker : ∀ a s, post a s → post' a s) : Yields limit operation h post' := by
  unfold Yields at yields ⊢
  cases done : operation h with
  | ok a s =>
      simp only [done] at yields ⊢
      exact weaker a s yields
  | error e s => simpa only [done] using yields

theorem map {operation : HeapM α} {f : α → β} {post : β → Heap → Prop}
    (yields : Yields limit operation h fun a s => post (f a) s) : Yields limit (f <$> operation) h post := by
  simp only [Yields,Functor.map,EStateM.map] at yields ⊢
  cases done : operation h <;> simpa only [done] using yields

theorem ok {operation : HeapM α} {post : α → Heap → Prop} (yields : Yields none operation h post) : ∃ a s, operation h = .ok a s ∧ post a s := by
  unfold Yields at yields
  cases done : operation h with
  | ok a s =>
      rw [done] at yields
      exact ⟨a,s,rfl,yields⟩
  | error e s =>
      rw [done] at yields
      exact absurd rfl yields.1

theorem get_bind {rest : Heap → HeapM β} {post : β → Heap → Prop} (follows : Yields limit (rest h) h post) :
    Yields limit (MonadState.get >>= rest) h post := follows

theorem modify_bind {change : Heap → Heap} {rest : PUnit → HeapM β} {post : β → Heap → Prop}
    (follows : Yields limit (rest ⟨⟩) (change h) post) : Yields limit (modify change >>= rest) h post := follows

theorem inScope {operation : HeapM α} {post : α → Heap → Prop} (yields : Yields limit operation h.pushScope fun a s => post a s.popScope) :
    Yields limit (inScope operation) h post := by
  simp only [Yields,Heap.inScope] at yields ⊢
  cases done : operation h.pushScope <;> simpa only [done] using yields

end Yields

theorem allocate_yields {object : Object} (sane : object.Sane) (intact : h.Intact) :
    Yields h.config.maxBytes (allocate object) h fun r s => Frugal h s ∧ s.object? r = some object ∧ ¬ h.Survives r ∧ SameRoots h s := by
  have concludes := (allocate_spared sane intact).frugal (allocate_confines sane h)
  unfold Yields
  cases done : allocate object h with
  | ok r s => exact concludes.ok done
  | error e s =>
      obtain ⟨rfl,_,limit,bounded,_⟩ := allocate_error.mp done
      exact ⟨by rw [bounded]; exact Option.some_ne_none limit,_,rfl⟩

theorem newListOf_yields (items : Array Value) (capacity : Nat) (intact : h.Intact) :
    Yields h.config.maxBytes (newListOf items capacity) h fun v s => Frugal h s ∧
      ∃ r, v = .list r ∧ s.object? r = some (.list (.ofItems items capacity)) ∧ ¬ h.Survives r ∧ SameRoots h s :=
  .map ((allocate_yields (sane_list _) intact).mono fun r _ ⟨frugal,made⟩ => ⟨frugal,r,rfl,made⟩)

theorem newString_yields (text : String) (intact : h.Intact) :
    Yields h.config.maxBytes (newString text) h fun v s => Frugal h s ∧ s.text? v = some text := by
  have concludes := (newString_spares text h intact).frugal (newString_confines text h)
  unfold Yields
  rcases newString_text text intact with ⟨v,s,made,there⟩ | ⟨_,limit,s,bounded,_,refused⟩
  · rw [made]
    exact ⟨(concludes.ok made).1,there⟩
  · rw [refused]
    exact ⟨by rw [bounded]; exact Option.some_ne_none limit,_,rfl⟩

theorem Spared.text? {h' : Heap} (spared : Spared h h') (kept : ∀ r, v.handle? = some r → h.Survives r) : h'.text? v = h.text? v := by
  cases v with
  | str r => simp only [Heap.text?,spared.extension.objects r (kept r rfl)]
  | null | int | double | short | list | map | funcRef => rfl

theorem Spared.listed {list : ListObject} (spared : Spared h s) (held : .list r ∈ h.shadow) (present : h.object? r = some (.list list))
    (member : v ∈ list.items) (found : h.text? v = some text) : s.text? v = some text := by
  rw [spared.text? ?_]
  · exact found
  · intro q handle
    obtain ⟨q',rfl⟩ : ∃ q', v = .str q' := by
      cases v with
      | str q' => exact ⟨q',rfl⟩
      | short => cases handle
      | null | int | double | list | map | funcRef => cases found
    cases handle
    have root : h.Reached r := .root (.shadow held) rfl (by rw [isLive,present]; rfl)
    exact Or.inr (.refers root present (.item member) rfl (by rw [isLive,text?_str.mp found]; rfl))

theorem Touched.keeps_text {list : ListObject} {object : Object} (touched : Touched h s r object) (present : h.object? r = some (.list list))
    (found : h.text? v = some text) : s.text? v = some text := by
  rcases text?_string found with ⟨t,rfl,rfl⟩ | ⟨q,rfl,there⟩
  · rfl
  · have apart : q ≠ r := by
      rintro rfl
      cases present.symm.trans there
    exact text?_str.mpr ((touched.others q apart).trans there)

theorem map_text? {values : List Value} {texts : List String} (listed : values.map h.text? = texts.map some)
    (kept : ∀ v ∈ values, ∀ text, h.text? v = some text → s.text? v = some text) : values.map s.text? = texts.map some := by
  rw [← listed]
  refine List.map_congr_left fun v member => ?_
  have there : h.text? v ∈ texts.map some := listed ▸ List.mem_map_of_mem member
  obtain ⟨text,_,found⟩ := List.mem_map.mp there
  rw [kept v member text found.symm,← found]

-- A list, made and held since the start, that has the first pieces.
structure Filling (h₀ s : Heap) (r : Handle) (texts : List String) : Prop where
  spared : Spared h₀ s
  limit : s.config.maxBytes = h₀.config.maxBytes
  fresh : ¬ h₀.Survives r
  held : .list r ∈ s.shadow
  list : ∃ list, s.object? r = some (.list list) ∧ list.frozen = false ∧ list.items.toList.map s.text? = texts.map some

theorem Filling.later (filling : Filling h₀ s r texts) (frugal : Frugal s t) : Filling h₀ t r texts := by
  obtain ⟨list,present,open_,listed⟩ := filling.list
  refine ⟨filling.spared.trans frugal.toSpared,frugal.steps.limit.trans filling.limit,filling.fresh,
    frugal.extension.shadow filling.held,list,frugal.toSpared.held filling.held rfl present,open_,?_⟩
  exact map_text? listed fun v member text found => frugal.toSpared.listed filling.held present (Array.mem_toList_iff.mp member) found

theorem Filling.push (filling : Filling h₀ s r texts) (found : s.text? v = some text) :
    Yields h₀.config.maxBytes (listPush (.list r) v) s fun _ t => Filling h₀ t r (texts ++ [text]) := by
  obtain ⟨list,present,open_,listed⟩ := filling.list
  obtain ⟨t,pushed,touched,steps⟩ := updateList_result (·.push v) present open_
  rw [Yields,listPush,pushed]
  refine ⟨filling.spared.touch touched filling.fresh steps,steps.limit.trans filling.limit,filling.fresh,?_,_,touched.here,open_,?_⟩
  · rw [touched.roots.shadow]
    exact filling.held
  · have before := map_text? listed fun v _ text found => touched.keeps_text present found
    rw [ListObject.push,Array.toList_push,List.map_append,before,List.map_append]
    simp only [List.map_cons,List.map_nil,touched.keeps_text present found]

theorem pushStrings_yields (pieces : List String) (filling : Filling h₀ s r texts) :
    Yields h₀.config.maxBytes (pushStrings (.list r) pieces) s fun _ t => Filling h₀ t r (texts ++ pieces) := by
  induction pieces generalizing s texts with
  | nil =>
      rw [List.append_nil]
      exact .pure filling
  | cons piece rest ih =>
      have made := newString_yields piece filling.spared.intact
      rw [filling.limit] at made
      refine made.bind fun item t ⟨frugal,found⟩ => ?_
      refine ((filling.later frugal).push found).bind fun _ u pushed => ?_
      have filled := ih pushed
      rwa [List.append_assoc,List.singleton_append] at filled

theorem textOf_text (found : h.text? v = some text) : textOf v h = .ok text h := by simp only [textOf,reading,expectText,found]

theorem display_text (found : h.text? v = some text) : h.display v = text := by
  cases v with
  | short | str => simp only [display,maxDepth,render,found,Option.getD_some,Bool.false_eq_true,if_false]
  | null | int | double | list | map | funcRef => cases found

theorem stringSplit_yields {d : Value} {pattern : String} (intact : h.Intact) (textual : h.text? v = some text) (delimits : h.text? d = some pattern) :
    Yields h.config.maxBytes (stringSplit v d) h fun parts s => Spared h s ∧ s.config.maxBytes = h.config.maxBytes ∧
      ListsTexts s parts (Text.split text pattern) := by
  refine .ok_bind (textOf_text textual) (.ok_bind (textOf_text delimits) ?_)
  refine (newListOf_yields #[] _ intact).bind ?_
  rintro _ s ⟨frugal,r,rfl,present,fresh,roots⟩
  have opened := frugal.toSpared.pushScope roots.balanced
  have start : Filling h.pushScope (s.pushScope.protect (.list r)) r [] :=
    ⟨opened.trans (protect_spared opened.intact _),frugal.steps.limit,pushScope_fresh fresh,List.mem_cons_self,_,present,rfl,rfl⟩
  have filled : Yields h.config.maxBytes (inScope do modify (·.protect (.list r)); pushStrings (.list r) (Text.split text pattern)) s
      fun _ t => Spared h t ∧ t.config.maxBytes = h.config.maxBytes ∧ ListsTexts t (.list r) (Text.split text pattern) := by
    refine .inScope (.modify_bind ((pushStrings_yields _ start).mono fun _ t filling => ?_))
    obtain ⟨list,present,_,listed⟩ := filling.list
    refine ⟨filling.spared.close,(popScope_apart t).limit.trans filling.limit,list.items,?_⟩
    have there : t.items? (.list r) = some list.items := by simp only [items?,list?,present,Option.map_some]
    rw [popScope_nested filling.spared.nested]
    exact ⟨there,listed⟩
  exact filled.bind fun _ t done => .pure done

theorem ListsTexts.display {texts : List String} {items : Array Value} (listed : items.toList.map h.text? = texts.map some) :
    items.toList.map h.display = texts := by
  refine List.map_injective_iff.mpr (Option.some_injective _) ?_
  rw [← listed,List.map_map]
  refine List.map_congr_left fun v member => ?_
  have there : h.text? v ∈ texts.map some := listed ▸ List.mem_map_of_mem member
  obtain ⟨text,_,found⟩ := List.mem_map.mp there
  rw [Function.comp_apply,display_text found.symm,found]

theorem joinItems_yields {d : Value} {pattern : String} {texts : List String} (intact : h.Intact) (listed : ListsTexts h v texts)
    (delimits : h.text? d = some pattern) :
    Yields h.config.maxBytes (joinItems v d) h fun w s => s.text? w = some (Text.join pattern texts) := by
  obtain ⟨items,found,listed⟩ := listed
  have joins : joinItems v d h = newString (Text.join pattern texts) h := by
    simp only [joinItems,bind,EStateM.bind,get_ok,found,display_text delimits,ListsTexts.display listed]
  unfold Yields
  rw [joins]
  exact (newString_yields _ intact).mono fun w s made => made.2

theorem nowhere_iff {pattern : String} : (pattern.isEmpty || (Text.indexOf? text pattern 0).isNone) = true ↔
    pattern = "" ∨ ¬ Text.Contains text pattern := by
  rw [Bool.or_eq_true,String.isEmpty_iff,Option.isNone_iff_eq_none,Text.indexOf?_none]

theorem stringReplace_same {d new : Value} {pattern replacement : String} (textual : h.text? v = some text)
    (delimits : h.text? d = some pattern) (replaces : h.text? new = some replacement)
    (nowhere : pattern = "" ∨ ¬ Text.Contains text pattern) : stringReplace v d new h = .ok v h := by
  simp only [stringReplace,bind,EStateM.bind,textOf_text textual,textOf_text delimits,textOf_text replaces,if_pos (nowhere_iff.mpr nowhere)]
  rfl

theorem stringReplace_yields {d new : Value} {pattern replacement : String} (intact : h.Intact) (textual : h.text? v = some text)
    (delimits : h.text? d = some pattern) (replaces : h.text? new = some replacement) (nonempty : pattern ≠ "") :
    Yields h.config.maxBytes (stringReplace v d new) h fun w s =>
      s.text? w = some (Text.join replacement (Text.split text pattern)) := by
  refine .ok_bind (textOf_text textual) (.ok_bind (textOf_text delimits) (.ok_bind (textOf_text replaces) ?_))
  split
  · rename_i alone
    have absent := (nowhere_iff.mp alone).resolve_left nonempty
    refine .pure ?_
    rw [(Text.split_splitsInto text pattern).whole absent]
    exact textual
  · rw [← Text.replace_joins text replacement nonempty]
    exact (newString_yields _ intact).mono fun w s made => made.2

-- The pieces of a string, which do not contain the delimiter, are joined with it to the string again. Joined with
-- another text they are what replacing gives; where there is nothing to replace, that is the string itself. Strings
-- that are in use keep their texts meanwhile.
theorem split_join_replace {h : Heap} {v delimiter new : Value} {text pattern replacement : String} (intact : h.Intact)
    (textual : h.text? v = some text) (delimits : h.text? delimiter = some pattern) (replaces : h.text? new = some replacement) :
    Yields h.config.maxBytes (stringSplit v delimiter) h (fun parts s =>
      (∀ w, (∀ r, w.handle? = some r → h.Survives r) → s.text? w = h.text? w) ∧
      ∃ pieces, ListsTexts s parts pieces ∧ Text.SplitsInto text pattern pieces ∧
        (pattern ≠ "" → ∀ piece ∈ pieces, ¬ Text.Contains piece pattern) ∧
        (∀ d, s.text? d = some pattern → Yields h.config.maxBytes (joinItems parts d) s fun joined t => t.text? joined = some text) ∧
        (pattern ≠ "" → ∃ replaced,
          (∀ d, s.text? d = some replacement → Yields h.config.maxBytes (joinItems parts d) s fun joined t => t.text? joined = some replaced) ∧
          Yields h.config.maxBytes (stringReplace v delimiter new) h fun w t => t.text? w = some replaced)) ∧
      (pattern = "" ∨ ¬ Text.Contains text pattern → stringReplace v delimiter new h = .ok v h) := by
  refine ⟨(stringSplit_yields intact textual delimits).mono ?_,stringReplace_same textual delimits replaces⟩
  rintro parts s ⟨spared,same,listed⟩
  have splits := Text.split_splitsInto text pattern
  have joins : ∀ d between, s.text? d = some between → Yields h.config.maxBytes (joinItems parts d) s fun joined t =>
      t.text? joined = some (Text.join between (Text.split text pattern)) := by
    intro d between found
    rw [← same]
    exact joinItems_yields spared.intact listed found
  refine ⟨fun w kept => spared.text? kept,_,listed,splits,splits.apart,?_,fun nonempty => ⟨_,fun d => joins d replacement,?_⟩⟩
  · intro d found
    have back := joins d pattern found
    rwa [splits.joined] at back
  · exact stringReplace_yields intact textual delimits replaces nonempty

-- The delimiter is taken from the left: of five letters in a row, the last one belongs to a piece.
theorem split_join_replace_row : ∃ (h : Heap) (v : Value), h.text? v = some "aaaaañaab" ∧
    ∃ parts s, stringSplit v (.shortText "aa") h = .ok parts s ∧ ListsTexts s parts ["","","añ","b"] ∧
      (∃ joined t, joinItems parts (.shortText "aa") s = .ok joined t ∧ t.text? joined = some "aaaaañaab") ∧
      (∃ joined t w u, joinItems parts (.shortText "é") s = .ok joined t ∧ stringReplace v (.shortText "aa") (.shortText "é") h = .ok w u ∧
        t.text? joined = u.text? w) ∧
      stringReplace v (.shortText "ab!") (.shortText "é") h = .ok v h := by
  have intact := intern_intact "aaaaañaab" (new_intact {})
  have textual := intern_text "aaaaañaab" (new_intact {})
  have unlimited : ((Heap.new {}).intern "aaaaañaab").2.config.maxBytes = none := by rw [intern_config]; rfl
  generalize ((Heap.new {}).intern "aaaaañaab").1 = v at textual
  generalize ((Heap.new {}).intern "aaaaañaab").2 = h at intact textual unlimited
  have twice : ∀ s : Heap, s.text? (.shortText "aa") = some "aa" := fun _ => rfl
  have missing : ∀ s : Heap, s.text? (.shortText "ab!") = some "ab!" := fun _ => rfl
  have accent : ∀ s : Heap, s.text? (.shortText "é") = some "é" := fun _ => rfl
  obtain ⟨split,_⟩ := split_join_replace intact textual (twice h) (accent h)
  obtain ⟨_,same⟩ := split_join_replace intact textual (missing h) (accent h)
  rw [unlimited] at split
  obtain ⟨parts,s,parted,_,pieces,listed,splits,_,back,other⟩ := split.ok
  obtain ⟨joined,t,again,found⟩ := (back _ (twice s)).ok
  obtain ⟨replaced,joins,replaces⟩ := other (by decide)
  obtain ⟨joined',t',again',found'⟩ := (joins _ (accent s)).ok
  obtain ⟨w,u,exchanged,found''⟩ := replaces.ok
  have those : pieces = ["","","añ","b"] := (splits.unique (Text.split_splitsInto _ _)).trans (by decide +kernel)
  subst those
  have absent : ¬ Text.Contains "aaaaañaab" "ab!" := by
    unfold Text.Contains
    decide +kernel
  exact ⟨h,v,textual,parts,s,parted,listed,⟨joined,t,again,found⟩,⟨joined',t',w,u,again',exchanged,found'.trans found''.symm⟩,
    same (Or.inr absent)⟩

end RegisterMachine.Heap
