import RegisterMachine.Proofs.Heap.Framing
import RegisterMachine.Proofs.Heap.Limit
import RegisterMachine.Proofs.Map.Finite

namespace RegisterMachine

inductive Element where
  | item (v : Value)
  | character (c : Char)
  | entry (key value : Value)
deriving DecidableEq

namespace Heap

def elements (h : Heap) (v : Value) : List Element :=
  match v with
  | .list _ => ((h.items? v).getD #[]).toList.map .item
  | .short _ | .str _ => ((h.text? v).getD "").toList.map .character
  | .map _ => (h.mapEntries v).map fun entry => .entry entry.1 entry.2
  | .null | .int _ | .double _ | .funcRef _ => []

theorem mapCount_entries {h : Heap} (intact : h.Intact) (v : Value) : h.mapCount v = (h.mapEntries v).length := by
  unfold mapCount mapEntries
  cases found : h.table? v with
  | none => rfl
  | some table =>
      obtain ⟨r,_,present⟩ := table?_object.mp found
      have counted := (intact.table present).counted
      simp only [List.length_append,tableEntries,List.length_map,counted]
      exact Nat.add_comm _ _

theorem length?_elements {h : Heap} (intact : h.Intact) (v : Value) : (h.length? v).getD 0 = (h.elements v).length := by
  cases v with
  | null | int | double | funcRef => rfl
  | list r =>
      simp only [length?,elements,listCount,items?,List.length_map,Option.getD_some]
      cases h.list? (.list r) <;> simp
  | map r =>
      simp only [length?,elements,List.length_map,Option.getD_some]
      exact mapCount_entries intact _
  | short t => simp [length?,elements,stringLength,text?,String.length_toList]
  | str r =>
      simp only [length?,elements,stringLength,List.length_map,Option.getD_some]
      cases h.text? (.str r) <;> simp [String.length_toList]

-- A register that holds the value of a variable of a map.
def Backs (h : Heap) (v : Value) (i : Nat) : Prop :=
  ∃ table aliases name, h.table? v = some table ∧ table.aliases = some aliases ∧ (name,i) ∈ aliases.bindings ∧ (h.assigned? i).isSome = true

section

variable {h : Heap}

theorem not_backs (unassigned : h.assigned? i = none) : ¬ h.Backs v i := by
  rintro ⟨_,_,_,_,_,_,assigned⟩
  rw [unassigned] at assigned
  cases assigned

theorem registerValue_set (i : Nat) (w : Value) (j : Nat) :
    (h.setRegisterValue i w).registerValue j = if i = j ∧ j < h.registers.size then w else h.registerValue j := by
  simp only [registerValue,setRegisterValue,Array.getD_eq_getD_getElem?,Array.getElem?_modify]
  by_cases same : i = j
  · subst same
    simp only [if_true,true_and]
    by_cases inside : i < h.registers.size
    · simp [inside]
    · simp [inside]
  · simp [same]

theorem registerValue_inside {v : Value} (held : h.registerValue i = v) (some_ : v ≠ .null) : i < h.registers.size := by
  refine Nat.lt_of_not_le fun outside => ?_
  rw [registerValue,Array.getD_eq_getD_getElem?,Array.getElem?_eq_none outside] at held
  exact some_ held.symm

theorem assigned?_set (i : Nat) (w : Value) (j : Nat) :
    (h.setRegisterValue i w).assigned? j = if i = j then (h.assigned? j).map fun _ => w else h.assigned? j := by
  simp only [assigned?,setRegisterValue,Array.getElem?_modify]
  by_cases same : i = j
  · subst same
    simp only [if_true]
    cases h.registers[i]? with
    | none => rfl
    | some register =>
        simp only [Option.map_some]
        split <;> rfl
  · simp only [if_neg same]

theorem backs_set (i : Nat) (w : Value) : (h.setRegisterValue i w).Backs v j ↔ h.Backs v j := by
  have assigned : ((h.setRegisterValue i w).assigned? j).isSome = (h.assigned? j).isSome := by
    rw [assigned?_set]
    split
    · rw [Option.isSome_map]
    · rfl
  simp only [Backs,assigned]
  rfl

theorem aliasEntries_set {table : Table} (w : Value)
    (apart : ∀ aliases name, table.aliases = some aliases → (name,i) ∈ aliases.bindings → h.assigned? i = none) :
    (h.setRegisterValue i w).aliasEntries table = h.aliasEntries table := by
  unfold aliasEntries
  cases bound : table.aliases with
  | none => rfl
  | some aliases =>
      refine List.filterMap_congr fun binding member => ?_
      obtain ⟨name,j⟩ := binding
      simp only [assigned?_set]
      split
      · rename_i same
        subst same
        rw [apart aliases name bound (Array.mem_toList_iff.mp member),Option.map_none]
      · rfl

theorem elements_set (w : Value) (apart : ¬ h.Backs v i) : (h.setRegisterValue i w).elements v = h.elements v := by
  cases v with
  | null | int | double | funcRef | list | short | str => rfl
  | map r =>
      have tables : (h.setRegisterValue i w).table? (.map r) = h.table? (.map r) := rfl
      simp only [elements,mapEntries,tables]
      cases found : h.table? (.map r) with
      | none => rfl
      | some table =>
          have aliases := aliasEntries_set w fun aliases name bound member => Option.not_isSome_iff_eq_none.mp fun assigned =>
            apart ⟨table,aliases,name,found,bound,member,assigned⟩
          simp only [aliases]

theorem Spared.elements {h' : Heap} (spared : Spared h h') (kept : ∀ r, v.handle? = some r → h.Survives r) : h'.elements v = h.elements v := by
  have registers : ∀ i, h'.assigned? i = h.assigned? i := fun i => by rw [assigned?,assigned?,spared.extension.registers]
  cases v with
  | null | int | double | funcRef | short => rfl
  | str r | list r => simp only [Heap.elements,text?,items?,list?,spared.extension.objects r (kept r rfl)]
  | map r =>
      have tables : h'.table? (.map r) = h.table? (.map r) := by simp only [table?,spared.extension.objects r (kept r rfl)]
      simp only [Heap.elements,mapEntries,tables,aliasEntries,assignedAliases,registers]

theorem Spared.backs {h' : Heap} (spared : Spared h h') (kept : ∀ r, v.handle? = some r → h.Survives r) : h'.Backs v i ↔ h.Backs v i := by
  have registers : h'.assigned? i = h.assigned? i := by rw [assigned?,assigned?,spared.extension.registers]
  have tables : h'.table? v = h.table? v := by
    cases v with
    | map r => simp only [table?,spared.extension.objects r (kept r rfl)]
    | null | int | double | short | str | list | funcRef => rfl
  simp only [Backs,registers,tables]

end

def pairMap (key value : Value) : Key → Option Value :=
  Function.update (Function.update (fun _ => none) (.text "key") (some key)) (.text "value") (some value)

theorem Models.move {h h' : Heap} {table : Table} (models : Models h r table m) (objects : ∀ q, h'.object? q = h.object? q) :
    Models h' r table m :=
  ⟨⟨(objects r).trans models.object,models.valid,models.writable,models.lists.move (keyOf_objects objects)⟩,models.plain⟩

theorem Models.set {h : Heap} {table : Table} (models : Models h r table m) (known : h.keyOf key = some k) (value : Value) :
    ∃ h' table', Heap.mapSet (.map r) key value h = .ok () h' ∧ Models h' r table' (Function.update m k (some value)) := by
  obtain ⟨_,_,_,_,after⟩ := models.stored known value
  exact ⟨_,_,models.mapSet key value,after⟩

theorem newMap_error {h s : Heap} (failed : newMap capacity h = .error e s) : ∃ bytes, e = .outOfMemory bytes ∧ h.config.maxBytes ≠ none := by
  simp only [newMap,Functor.map,EStateM.map] at failed
  split at failed
  · cases failed
  · rename_i refused
    cases failed
    obtain ⟨rfl,_,limit,bounded,_⟩ := allocate_error.mp refused
    exact ⟨_,rfl,by simp [bounded]⟩

theorem pair_models {h : Heap} (key value : Value) (intact : h.Intact) :
    (∃ r s table, newFilled [(.shortText "key",key),(.shortText "value",value)] h = .ok (.map r) s ∧ Spared h s ∧ ¬ h.Survives r ∧
      Models s r table (pairMap key value)) ∨
    ∃ bytes s, newFilled [(.shortText "key",key),(.shortText "value",value)] h = .error (.outOfMemory bytes) s ∧ h.config.maxBytes ≠ none := by
  have spares := newFilled_spares [(.shortText "key",key),(.shortText "value",value)] h intact
  have opened := pushScope_intact intact
  cases made : newMap 2 h.pushScope with
  | error e s =>
      obtain ⟨bytes,rfl,limited⟩ := newMap_error made
      exact Or.inr ⟨bytes,s.popScope,by simp only [newFilled,inScope,bind,EStateM.bind,made],limited⟩
  | ok v s =>
      obtain ⟨_,q,rfl,_,fresh,_⟩ := (newMap_spared 2 opened).ok made
      obtain ⟨r,same,models⟩ := newMap_models opened made
      cases same
      have protected_ : Models (s.protect (.map q)) q (.withCapacity 2) fun _ => none := models.move fun _ => rfl
      have named : (s.protect (.map q)).keyOf (.shortText "key") = some (.text "key") := rfl
      obtain ⟨t,_,first,keyed⟩ := protected_.set named key
      have named' : t.keyOf (.shortText "value") = some (.text "value") := rfl
      obtain ⟨u,_,second,valued⟩ := keyed.set named' value
      have done : newFilled [(.shortText "key",key),(.shortText "value",value)] h = .ok (.map q) u.popScope := by
        simp only [newFilled,inScope,setAll,bind,EStateM.bind,made,modify_ok,first,second]
        rfl
      have released := valued.move fun q => object?_slots (popScope_apart u).slots q
      exact Or.inl ⟨q,u.popScope,_,done,(spares.ok done).1,(pushScope_extends h).fresh fresh,released⟩

-- What a loop gets of an element: an item as it is, a character as a string, an entry as a new map.
def Shows (h h' : Heap) : Element → Value → Prop
  | .item v, w => w = v
  | .character c, w => ∃ fits, w = .short ⟨String.singleton c,fits⟩
  | .entry key value, w => ∃ r table, w = .map r ∧ ¬ h.Survives r ∧ Models h' r table (pairMap key value)

theorem Shows.set {h h' : Heap} (shows : h.Shows h' e w) (i : Nat) (v : Value) : h.Shows (h'.setRegisterValue i v) e w := by
  cases e with
  | item | character => exact shows
  | entry key value =>
      obtain ⟨r,table,same,fresh,models⟩ := shows
      exact ⟨r,table,same,fresh,models.move fun _ => rfl⟩

theorem shortText_singleton (c : Char) : ∃ fits, Value.shortText (String.singleton c) = .short ⟨String.singleton c,fits⟩ := by
  have fits : (String.singleton c).utf8ByteSize ≤ 5 := by
    rw [String.utf8ByteSize_singleton]
    exact Nat.le_succ_of_le c.utf8Size_le_four
  exact ⟨fits,by simp only [Value.shortText,ShortText.ofString?,fits,dif_pos]⟩

variable {k : Nat}

theorem resolve?_inside {index : Int32} (at_ : index.toInt = k) (inside : k < length) : resolve? index length = some k := by
  have front : ¬ (k : Int) < 0 := by omega
  simp only [resolve?,at_,if_neg front]
  rw [if_pos (by omega),Int.toNat_natCast]

theorem listGet_element {h : Heap} {index : Int32} (there : (h.elements (.list r))[k]? = some e) (at_ : index.toInt = k) :
    ∃ v, h.listGet (.list r) index = .ok v ∧ h.Shows h e v := by
  cases found : h.items? (.list r) with
  | none => simp [elements,found] at there
  | some items =>
      simp only [elements,found,Option.getD_some,List.getElem?_map,Option.map_eq_some_iff] at there
      obtain ⟨v,there,rfl⟩ := there
      rw [Array.getElem?_toList] at there
      have inside : k < items.size := (Array.getElem?_eq_some_iff.mp there).1
      refine ⟨v,?_,rfl⟩
      simp only [listGet,expectItems,found,bind,Except.bind,resolve?_inside at_ inside,Option.bind_some,there]

theorem stringCharAt_element {h : Heap} {index : Int32} (string : v.isString = true) (there : (h.elements v)[k]? = some e)
    (at_ : index.toInt = k) : ∃ w, h.stringCharAt v index = .ok w ∧ h.Shows h e w := by
  have listed : h.elements v = ((h.text? v).getD "").toList.map .character := by
    cases v with
    | short | str => rfl
    | null | int | double | list | map | funcRef => cases string
  rw [listed] at there
  cases found : h.text? v with
  | none => simp [found] at there
  | some text =>
      simp only [found,Option.getD_some,List.getElem?_map,Option.map_eq_some_iff] at there
      obtain ⟨c,there,rfl⟩ := there
      have inside : k < text.length := by
        rw [← String.length_toList]
        exact (List.getElem?_eq_some_iff.mp there).1
      refine ⟨_,?_,shortText_singleton c⟩
      simp only [stringCharAt,stringLength,found,resolve?_inside at_ inside,expectText,bind,Except.bind,there]

theorem entryPair_element {h : Heap} {index : Int32} (intact : h.Intact) (there : (h.elements (.map r))[k]? = some e) (at_ : index.toInt = k) :
    (∃ w h', Machine.entryPair (.map r) index h = .ok w h' ∧ Spared h h' ∧ h.Shows h' e w) ∨
      ∃ bytes h', Machine.entryPair (.map r) index h = .error (.outOfMemory bytes) h' ∧ h.config.maxBytes ≠ none := by
  simp only [elements,List.getElem?_map,Option.map_eq_some_iff] at there
  obtain ⟨⟨key,value⟩,there,rfl⟩ := there
  have found : (if index.toInt < 0 then none else h.nthEntry? (.map r) index.toInt.toNat) = some (key,value) := by
    rw [if_neg (by omega),nthEntry?_entries,at_,Int.toNat_natCast,there]
  have filled : Machine.entryPair (.map r) index h = newFilled [(.shortText "key",key),(.shortText "value",value)] h := by
    rw [← pair_filled]
    simp only [Machine.entryPair,bind,EStateM.bind,get_ok,found]
  rw [filled]
  rcases pair_models key value intact with ⟨q,s,table,done,spared,fresh,models⟩ | failed
  · exact Or.inl ⟨_,s,done,spared,q,table,rfl,fresh,models⟩
  · exact Or.inr failed

end Heap

end RegisterMachine
