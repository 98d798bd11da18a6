import RegisterMachine.Proofs.Map.Honest

namespace RegisterMachine.Heap

-- A protected map and a second slot of which generation and object are given; all that lies in the heap is charged alike, and
-- as much as makes no collection double the threshold.
def loaded (table : Table) (object : Object) (turns : Nat) : Heap where
  config := { initialThreshold := 1632 }
  slots := #[{ object := some (.map table),generation := 0,charge := 408,immortal := false },
    { object := some object,generation := .ofNat turns,charge := 408,immortal := false }]
  marks := #[false,false]
  live := 2
  bytes := 816
  threshold := 1632
  history := Array.replicate turns ⟨408,1,408,1632⟩
  shadow := [.map ⟨0,0⟩]

def vacant (table : Table) (turns : Nat) : Heap :=
  { loaded table default turns with
    slots := #[{ object := some (.map table),generation := 0,charge := 408,immortal := false },
      { object := none,generation := .ofNat turns,charge := 0,immortal := false }]
    free := [1]
    live := 1
    bytes := 408 }

-- Each collection frees the second slot once more, and its generation advances.
theorem loaded_collect {table : Table} {object : Object} {turns : Nat}
    (apart : ∀ state, (Object.map table).references.foldl (Marking.markValue (loaded table object turns).slots) state = state) :
    Call.run (loaded table object turns) .collect = vacant table (turns + 1) := by
  have marked : (loaded table object turns).mark = { loaded table object turns with marks := #[true,false] } := by
    have begun := apart ⟨#[true,false],[]⟩
    simp only [loaded] at begun
    simp [mark,Marking.reached,Marking.markRoots,loaded,Marking.markValue,Marking.markHandle,Marking.holds,Value.handle?,
      Marking.trace,Marking.referencesOf,begun]
  have swept : ({ loaded table object turns with marks := #[true,false] } : Heap).sweep.2 = vacant table (turns + 1) := by
    simp [sweep,loaded,vacant,dies,List.range_succ,emptied,Array.replicate_succ]
  have enabled : ¬ (loaded table object turns).disabled > 0 := Nat.lt_irrefl 0
  rw [Call.run,collect,if_neg enabled,marked]
  exact swept

def page : String := String.ofList (List.replicate 320 'z')

-- What a map holds after its only key was bound while the key's object was gone.
def boundGone : Table := (Table.withCapacity 4).insertNew ⟨.str ⟨1,0⟩,.int 1,0⟩

theorem page_gone : [.newMap 4,.protect (.map ⟨0,0⟩),.newString page,.collect].foldl Call.run (new { initialThreshold := 1632 }) =
    vacant (.withCapacity 4) 1 := by
  have long : ShortText.ofString? page = none ∧ ¬ page.utf8ByteSize < internThreshold := by decide +kernel
  have charged : (Object.str page).charge = 408 := by decide +kernel
  have blank : [.newMap 4,.protect (.map ⟨0,0⟩)].foldl Call.run (new { initialThreshold := 1632 }) =
      { loaded (.withCapacity 4) default 0 with
        slots := #[{ object := some (.map (.withCapacity 4)),generation := 0,charge := 408,immortal := false }]
        marks := #[false]
        live := 1
        bytes := 408 } := rfl
  have made : Call.run ([.newMap 4,.protect (.map ⟨0,0⟩)].foldl Call.run (new { initialThreshold := 1632 })) (.newString page) =
      loaded (.withCapacity 4) (.str page) 0 := by
    rw [blank]
    simp only [Call.run,newString,long.1,if_neg long.2,after,Functor.map,EStateM.map,allocate,charged]
    rfl
  simp only [List.foldl_cons,List.foldl_nil] at made ⊢
  rw [made]
  exact loaded_collect fun state => rfl

theorem Honest.binds {h : Heap} (honest : Honest h) (there : h.isLive r = true) (map : Value) (i : Int32) :
    Honest (Call.run h (.mapSet map (.str r) (.int i))) := by
  refine .call _ honest fun v named q same => Or.inl ?_
  rw [List.mem_singleton.mp named] at same
  cases same
  exact there

theorem vacant_turn {turns : Nat} (turned : UInt32.ofNat turns ≠ 0) :
    [.newList 20,.collect].foldl Call.run (vacant boundGone turns) = vacant boundGone (turns + 1) := by
  have filled : Call.run (vacant boundGone turns) (.newList 20) = loaded boundGone (.list ⟨#[],20,false⟩) turns := rfl
  simp only [List.foldl_cons,List.foldl_nil,filled]
  refine loaded_collect fun state => ?_
  have references : (Object.map boundGone).references = [.str ⟨1,0⟩,.int 1] := by decide +kernel
  simp [references,Marking.markValue,Marking.markHandle,Marking.holds,Value.handle?,loaded,turned]

-- A host that uses no other handles than its own can lead the slot of the page to any generation, the first one included.
theorem vacant_honest {turns : Nat} (begun : 0 < turns) (round : turns ≤ 2 ^ 32) : Honest (vacant boundGone turns) := by
  induction turns with
  | zero => exact absurd begun (Nat.lt_irrefl 0)
  | succ turns ih =>
      by_cases first : turns = 0
      · subst first
        have unnamed : Honest (vacant (.withCapacity 4) 1) := by
          rw [← page_gone]
          exact .calls (.new _) (by decide)
        refine .call (.mapSet (.map ⟨0,0⟩) (.str ⟨1,0⟩) (.int 1)) unnamed fun v named r same => Or.inr ?_
        rw [List.mem_singleton.mp named] at same
        cases same
        exact show (0 : UInt32).toNat < (1 : UInt32).toNat by decide
      · have turned : UInt32.ofNat turns ≠ 0 := by
          intro zero
          have same := congrArg UInt32.toNat zero
          rw [UInt32.toNat_ofNat_of_lt' (by simpa [UInt32.size] using round)] at same
          exact first same
        rw [← vacant_turn turned]
        exact .calls (ih (by omega) (by omega)) (by decide)

end RegisterMachine.Heap
