import RegisterMachine.Proofs.Heap.Freezing
import Mathlib.Data.List.InsertIdx

namespace RegisterMachine

variable {f g : Handle → Handle} {known : Handle → Prop}

namespace Value

def rename (f : Handle → Handle) : Value → Value
  | .str r => .str (f r)
  | .list r => .list (f r)
  | .map r => .map (f r)
  | .funcRef r => .funcRef (f r)
  | v => v

-- The handle of a value, if it has one, is among the known ones.
def Within (known : Handle → Prop) (v : Value) : Prop := ∀ r, v.handle? = some r → known r

theorem within_plain {v : Value} (plain : v.handle? = none) : v.Within known := by
  intro r handle
  rw [plain] at handle
  cases handle

theorem Within.mono {v : Value} (within : v.Within known) (wider : ∀ r, known r → more r) : v.Within more :=
  fun r handle => wider r (within r handle)

@[simp] theorem rename_list (r : Handle) : (list r).rename f = .list (f r) := rfl
@[simp] theorem rename_map (r : Handle) : (map r).rename f = .map (f r) := rfl

@[simp] theorem rename_isNull (v : Value) : (v.rename f).isNull = v.isNull := by cases v <;> rfl
@[simp] theorem rename_isNumber (v : Value) : (v.rename f).isNumber = v.isNumber := by cases v <;> rfl
@[simp] theorem rename_isString (v : Value) : (v.rename f).isString = v.isString := by cases v <;> rfl
@[simp] theorem rename_isMap (v : Value) : (v.rename f).isMap = v.isMap := by cases v <;> rfl
@[simp] theorem rename_kind (v : Value) : (v.rename f).kind = v.kind := by cases v <;> rfl
@[simp] theorem rename_kindName (v : Value) : (v.rename f).kindName = v.kindName := by cases v <;> rfl
@[simp] theorem rename_asDouble (v : Value) : (v.rename f).asDouble = v.asDouble := by cases v <;> rfl
@[simp] theorem rename_asInt (v : Value) : (v.rename f).asInt = v.asInt := by cases v <;> rfl
@[simp] theorem rename_handle (v : Value) : (v.rename f).handle? = v.handle?.map f := by cases v <;> rfl

theorem rename_plain {v : Value} (plain : v.handle? = none) : v.rename f = v := by
  cases v with
  | str | list | map | funcRef => cases plain
  | null | int | double | short => rfl

theorem rename_congr {v : Value} (same : ∀ r, v.handle? = some r → f r = g r) : v.rename f = v.rename g := by
  cases v with
  | str r | list r | map r | funcRef r => simp only [rename,same r rfl]
  | null | int | double | short => rfl

theorem rename_inj {v w : Value} (apart : ∀ r q, known r → known q → f r = f q → r = q) (left : v.Within known) (right : w.Within known) :
    v.rename f = w.rename f ↔ v = w := by
  constructor
  · intro same
    cases v <;> cases w <;> simp only [rename,str.injEq,list.injEq,map.injEq,funcRef.injEq,reduceCtorEq] at same ⊢ <;>
      first | exact apart _ _ (left _ rfl) (right _ rfl) same | exact same
  · rintro rfl
    rfl

theorem rename_beq {v w : Value} (apart : ∀ r q, known r → known q → f r = f q → r = q) (left : v.Within known) (right : w.Within known) :
    (v.rename f == w.rename f) = (v == w) := by
  rw [Bool.eq_iff_iff,beq_iff_eq,beq_iff_eq]
  exact rename_inj apart left right

end Value

def Entry.rename (f : Handle → Handle) (entry : Entry) : Entry :=
  { entry with key := entry.key.rename f,value := entry.value.rename f }

def Aliases.rename (f : Handle → Handle) (aliases : Aliases) : Aliases :=
  { aliases with bindings := aliases.bindings.map fun binding => (binding.1.rename f,binding.2) }

namespace Table

abbrev renameCells (f : Handle → Handle) (cells : Array (Option Entry)) : Array (Option Entry) := cells.map (Option.map (Entry.rename f))

def rename (f : Handle → Handle) (table : Table) : Table :=
  { table with cells := renameCells f table.cells,aliases := table.aliases.map (Aliases.rename f) }

@[simp] theorem rename_count (table : Table) : (table.rename f).count = table.count := rfl
@[simp] theorem rename_resizes (table : Table) : (table.rename f).resizes = table.resizes := rfl
@[simp] theorem rename_frozen (table : Table) : (table.rename f).frozen = table.frozen := rfl
@[simp] theorem rename_size (table : Table) : (table.rename f).cells.size = table.cells.size := Array.size_map
@[simp] theorem rename_aliases (table : Table) : (table.rename f).aliases = table.aliases.map (Aliases.rename f) := rfl

variable (f) in
theorem cellAt_rename (cells : Array (Option Entry)) (i : Nat) : cellAt (renameCells f cells) i = (cellAt cells i).map (Entry.rename f) := by
  simp only [cellAt,Array.getD_eq_getD_getElem?,Array.getElem?_map]
  cases cells[i]? <;> rfl

theorem freeCell_rename (cells : Array (Option Entry)) (steps i : Nat) : freeCell (renameCells f cells) steps i = freeCell cells steps i := by
  induction steps generalizing i with
  | zero => rfl
  | succ steps ih =>
      simp only [freeCell,cellAt_rename,next,Array.size_map]
      cases cellAt cells i with
      | none => rfl
      | some entry => exact ih _

theorem place_rename (cells : Array (Option Entry)) (entry : Entry) :
    place (renameCells f cells) (entry.rename f) = renameCells f (place cells entry) := by
  simp only [place,freeCell_rename,home,Array.size_map,Array.map_setIfInBounds]
  rfl

theorem entries_rename (table : Table) : (table.rename f).entries = table.entries.map (Entry.rename f) := by
  simp only [entries,rename,Array.toList_map]
  induction table.cells.toList with
  | nil => rfl
  | cons cell rest ih => cases cell <;> simpa using ih

theorem placeAll_rename (entries : List Entry) (cells : Array (Option Entry)) :
    (entries.map (Entry.rename f)).foldl place (renameCells f cells) = renameCells f (entries.foldl place cells) := by
  induction entries generalizing cells with
  | nil => rfl
  | cons entry rest ih => rw [List.map_cons,List.foldl_cons,place_rename,ih,List.foldl_cons]

theorem renameCells_blank (n : Nat) : renameCells f (Array.replicate n none) = Array.replicate n none := by
  simp

theorem grow_rename (table : Table) : (table.rename f).grow = table.grow.rename f := by
  have placed := placeAll_rename (f := f) table.entries (Array.replicate (table.cells.size * 2) none)
  rw [renameCells_blank] at placed
  simp only [grow,entries_rename]
  simp only [rename,Array.size_map,placed]

theorem insertNew_rename (table : Table) (entry : Entry) : (table.rename f).insertNew (entry.rename f) = (table.insertNew entry).rename f := by
  have full : (table.rename f).needsGrowth = table.needsGrowth := by simp only [needsGrowth,rename,Array.size_map]
  simp only [insertNew,full]
  split
  · rw [grow_rename]
    simp only [rename,place_rename]
  · simp only [rename,place_rename]

theorem setValue_rename (table : Table) (i : Nat) (value : Value) : (table.rename f).setValue i (value.rename f) = (table.setValue i value).rename f := by
  have cells : (renameCells f table.cells).modify i (·.map ({ · with value := value.rename f })) =
      renameCells f (table.cells.modify i (·.map ({ · with value }))) := by
    refine Array.ext_getElem? fun j => ?_
    simp only [Array.getElem?_modify,Array.getElem?_map]
    split
    · cases table.cells[j]? with
      | none => rfl
      | some cell => cases cell <;> rfl
    · rfl
  simp only [setValue,rename,cells]

theorem vacate_rename (cells : Array (Option Entry)) (i : Nat) :
    (renameCells f cells).setIfInBounds i none = renameCells f (cells.setIfInBounds i none) := by
  simp [Array.map_setIfInBounds]

theorem restore_rename (steps : Nat) (cells : Array (Option Entry)) (i : Nat) :
    restore steps (renameCells f cells) i = renameCells f (restore steps cells i) := by
  induction steps generalizing cells i with
  | zero => rfl
  | succ steps ih =>
      simp only [restore,cellAt_rename]
      cases cellAt cells i with
      | none => rfl
      | some entry =>
          simp only [Option.map_some,vacate_rename,place_rename,next,Array.size_map]
          exact ih _ _

theorem removeAt_rename (table : Table) (i : Nat) : (table.rename f).removeAt i = (table.removeAt i).rename f := by
  simp only [removeAt,rename,vacate_rename,restore_rename,next,Array.size_map]

theorem clear_rename (table : Table) : (table.rename f).clear = table.clear.rename f := by
  simp [clear,rename]

theorem withCapacity_rename (wanted : Nat) : (withCapacity wanted).rename f = withCapacity wanted := by
  simp [withCapacity,rename]

theorem find_rename {table : Table} {p q : Value → Bool} (agree : ∀ entry ∈ table.entries, q (entry.key.rename f) = p entry.key) (hash : UInt32) :
    (table.rename f).find? hash q = table.find? hash p := by
  have each : ∀ steps i, search (renameCells f table.cells) hash q steps i = search table.cells hash p steps i := by
    intro steps
    induction steps with
    | zero => exact fun _ => rfl
    | succ steps ih =>
        intro i
        simp only [search,cellAt_rename]
        cases here : cellAt table.cells i with
        | none => rfl
        | some entry =>
            have member : entry ∈ table.entries := mem_contents.mpr ⟨i,here⟩
            simp only [Option.map_some,agree entry member,ih,next,Array.size_map,Entry.rename]
  simp only [find?,rename,home,Array.size_map,each]

end Table

def ListObject.rename (f : Handle → Handle) (list : ListObject) : ListObject :=
  { list with items := list.items.map (Value.rename f) }

namespace ListObject

theorem push_rename (list : ListObject) (item : Value) : (list.rename f).push (item.rename f) = (list.push item).rename f := by
  simp [push,rename]

theorem insertAt_rename (list : ListObject) (i : Nat) (item : Value) : (list.rename f).insertAt i (item.rename f) = (list.insertAt i item).rename f := by
  have items : (list.items.map (Value.rename f)).insertIdxIfInBounds i (item.rename f) =
      (list.items.insertIdxIfInBounds i item).map (Value.rename f) := by
    unfold Array.insertIdxIfInBounds
    simp only [Array.size_map]
    split
    · refine Array.ext' ?_
      simp [List.map_insertIdx]
    · rfl
  simp only [insertAt,rename,items,Array.size_map]

theorem removeAt_rename (list : ListObject) (i : Nat) : (list.rename f).removeAt i = (list.removeAt i).rename f := by
  have items : (list.items.map (Value.rename f)).eraseIdxIfInBounds i = (list.items.eraseIdxIfInBounds i).map (Value.rename f) := by
    unfold Array.eraseIdxIfInBounds
    simp only [Array.size_map]
    split
    · refine Array.ext' ?_
      simp [List.eraseIdx_map]
    · rfl
  simp only [removeAt,rename,items]

end ListObject

def FuncRef.rename (f : Handle → Handle) (ref : FuncRef) : FuncRef := { ref with outer := ref.outer.rename f }

namespace Object

def rename (f : Handle → Handle) : Object → Object
  | .str text => .str text
  | .list l => .list (l.rename f)
  | .map table => .map (table.rename f)
  | .funcRef ref => .funcRef (ref.rename f)

theorem refers_rename {object : Object} : (object.rename f).Refers w ↔ ∃ v, object.Refers v ∧ v.rename f = w := by
  simp only [← mem_references]
  cases object with
  | str text => simp [rename,references]
  | list l => simp [rename,references,ListObject.rename]
  | funcRef ref => simp [rename,references,FuncRef.rename,eq_comm]
  | map table =>
      have aliased : ((table.rename f).aliases.elim [] fun a => a.bindings.toList.map Prod.fst) =
          (table.aliases.elim [] fun a => a.bindings.toList.map Prod.fst).map (Value.rename f) := by
        simp only [Table.rename]
        cases table.aliases with
        | none => rfl
        | some aliases => simp [Aliases.rename]
      have listed : ((table.rename f).entries.flatMap fun entry => [entry.key,entry.value]) =
          (table.entries.flatMap fun entry => [entry.key,entry.value]).map (Value.rename f) := by
        rw [Table.entries_rename,List.flatMap_map,List.map_flatMap]
        rfl
      simp only [rename,references,aliased,listed,← List.map_append,List.mem_map]

theorem rename_congr {object : Object} (same : ∀ v, object.Refers v → v.rename f = v.rename g) : object.rename f = object.rename g := by
  cases object with
  | str text => rfl
  | list l =>
      simp only [rename,ListObject.rename]
      rw [Array.map_congr_left fun v member => same v (.item member)]
  | funcRef ref =>
      simp only [rename,FuncRef.rename]
      rw [same _ .outer]
  | map table =>
      have cells : Table.renameCells f table.cells = Table.renameCells g table.cells := by
        refine Array.map_congr_left fun cell member => ?_
        cases cell with
        | none => rfl
        | some entry => simp only [Option.map_some,Entry.rename,same _ (.key member),same _ (.value member)]
      have aliases : table.aliases.map (Aliases.rename f) = table.aliases.map (Aliases.rename g) := by
        cases bound : table.aliases with
        | none => rfl
        | some aliases =>
            simp only [Option.map_some,Aliases.rename]
            rw [Array.map_congr_left fun binding member => by rw [same _ (.aliased bound member)]]
      simp only [rename,Table.rename,cells,aliases]

theorem freeze_rename (object : Object) : (Heap.freezeObject object).rename f = Heap.freezeObject (object.rename f) := by
  cases object <;> rfl

end Object

def Register.rename (f : Handle → Handle) (register : Register) : Register where
  value := register.value.rename f
  name := register.name.rename f

end RegisterMachine
