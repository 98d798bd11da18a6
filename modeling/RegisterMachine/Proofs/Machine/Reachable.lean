import RegisterMachine.Proofs.Machine.Loading

namespace RegisterMachine.Machine

-- The machine that an operation leaves, however it ends.
def left : EStateM.Result Error Machine α → Machine
  | .ok _ m => m
  | .error _ m => m

theorem left_bind (first : MachineM α) (rest : α → MachineM β) (m : Machine) : left ((first >>= rest) m) = left (first m) ∨
    ∃ a, first m = .ok a (left (first m)) ∧ left ((first >>= rest) m) = left (rest a (left (first m))) := by
  simp only [bind,EStateM.bind]
  cases first m with
  | ok a s => exact Or.inr ⟨a,rfl,rfl⟩
  | error e s => exact Or.inl rfl

-- Builds a program on the machine's heap and loads it. What was interned before an error stays.
def load (m : Machine) (p : Program) (checked : Bool) : Machine :=
  match p.build checked m.heap with
  | .ok functions heap => left (reset functions { m with heap })
  | .error _ heap => { m with heap }

inductive Reachable : Machine → Prop where
  | new (config : MachineConfig) : Reachable (Machine.new config)
  | feed {m : Machine} (inputs : List String) : Reachable m → Reachable { m with inputs }
  | load {m : Machine} (p : Program) (checked : Bool) : Reachable m → Reachable (m.load p checked)
  | step : Reachable m → Reachable (left (step m))
  | run {m : Machine} (budget : Nat) : Reachable m → Reachable (m.run budget).2

-- The values that a machine holds: in registers, frames, the pending call and the result, as names
-- of aliases, and inside the objects behind these.
inductive Holds (m : Machine) : Value → Prop where
  | register {register : Register} : register ∈ m.heap.registers → Holds m register.value
  | name {register : Register} : register ∈ m.heap.registers → Holds m register.name
  | context {frame : Frame} {p : Pinned} : frame ∈ m.frames → p ∈ [frame.locals,frame.outer,frame.receiver,frame.parent] →
      Holds m p.value
  | receiver : m.pending = some (receiver,parent) → Holds m receiver
  | parent : m.pending = some (receiver,parent) → Holds m parent
  | result : Holds m m.result
  | aliased {table : Table} {aliases : Aliases} : m.heap.object? r = some (.map table) → table.aliases = some aliases →
      (key,i) ∈ aliases.bindings → Holds m key
  | inside {object : Object} : Holds m v → v.handle? = some r → m.heap.object? r = some object → object.Refers w → Holds m w

variable {m : Machine}

theorem Meets.left {operation : MachineM α} {post : α → Machine → Prop} (meets : Meets operation m Secure post) :
    (Machine.left (operation m)).Secure := by
  unfold Meets at meets
  cases result : operation m with
  | ok a m' =>
      rw [result] at meets
      exact meets.1
  | error e m' =>
      rw [result] at meets
      exact meets.2

theorem Secure.load (secure : m.Secure) (p : Program) (checked : Bool) : (m.load p checked).Secure := by
  have built := Program.build_builds p checked secure.safe
  unfold Program.Builds at built
  unfold Machine.load
  cases result : p.build checked m.heap with
  | ok functions h =>
      simp only [result] at built ⊢
      exact Meets.left (reset_meets (secure.onHeap built.1.safe built.1.steady) built.2)
  | error e h =>
      simp only [result] at built ⊢
      exact secure.onHeap built.safe built.steady

theorem Reachable.secure (reachable : m.Reachable) : m.Secure := by
  induction reachable with
  | new config => exact new_secure config
  | feed inputs _ ih => exact ih.same rfl rfl rfl rfl
  | load p checked _ ih => exact ih.load p checked
  | step _ ih => exact Meets.left (step_meets ih)
  | run budget _ ih => exact ih.run budget

theorem Secure.holds_sound (secure : m.Secure) (holds : m.Holds v) : m.heap.Sound v := by
  induction holds with
  | register member => exact secure.safe.rooted _ (.register member)
  | name member => exact secure.safe.rooted _ (.name member)
  | context member part => exact (secure.pinned_kept member part).1
  | receiver pending => exact (secure.pending_kept pending).1.1
  | parent pending => exact (secure.pending_kept pending).2.1
  | result => exact secure.safe.closed_sound.persistent _
  | aliased present aliases member => exact secure.safe.closed _ _ _ present (.aliased aliases member)
  | inside _ _ present refers => exact secure.safe.closed _ _ _ present refers

theorem reachable_live (reachable : m.Reachable) :
    (∀ v, m.Holds v → ∀ r, v.handle? = some r → m.heap.isLive r = true) ∧
      ∀ e m', step m = .error e m' → e ≠ .staleReference := by
  have secure := reachable.secure
  refine ⟨fun v holds r handle => (secure.holds_sound holds).live handle,fun e m' failed => ?_⟩
  have stepped := step_meets secure
  rw [Meets,failed] at stepped
  exact stepped.1

-- A list inside a list that only the outer one keeps when the map is allocated.
def nestedLists : Program where
  functions := [
    { name := "@main",registers := some 2,parameters := [],constants := []
      code := [.named "LIST_rA_iBC" [0,0],.named "LIST_rA_iBC" [1,0],.named "PUSH_rA_rB" [0,1],.named "LOADNULL_rA" [1],
        .named "MAP_rA_iBC" [1,0],.named "RETURN" []] }]

theorem reachable_live_nested :
    ∃ m : Machine, m.Reachable ∧ m.state = .returned ∧ m.heap.history.size = 1 ∧ m.Holds (.list ⟨51,0⟩) ∧
      m.heap.isLive ⟨51,0⟩ = true := by
  have reachable := Reachable.run 6 (.load nestedLists true (.new { stackSlots := 2,heap := { initialThreshold := 10400 } }))
  generalize whole : ((Machine.load _ nestedLists true).run 6).2 = m at reachable
  have facts : m.state = .returned ∧ m.heap.history.size = 1 ∧ m.result = .list ⟨50,0⟩ ∧
      m.heap.object? ⟨50,0⟩ = some (.list ⟨#[.list ⟨51,0⟩],4,false⟩) := by
    rw [← whole]
    decide +kernel
  obtain ⟨returned,collected,result,present⟩ := facts
  have outer : m.Holds (.list ⟨50,0⟩) := result ▸ .result
  have inner : m.Holds (.list ⟨51,0⟩) := .inside outer rfl present (.item (by simp))
  exact ⟨m,reachable,returned,collected,inner,(reachable_live reachable).1 _ inner _ rfl⟩

end RegisterMachine.Machine
