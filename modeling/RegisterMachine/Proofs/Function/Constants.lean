import RegisterMachine.Proofs.Program.Assembly

namespace RegisterMachine

inductive Wanted where
  | value (v : Value) | text (text : String)

-- Whether a constant is what was asked for: the very value, or a value of the text that is there to stay.
def Wanted.Met (h : Heap) (c : Value) : Wanted → Prop
  | value v => c = v
  | text t => h.Stands t c

-- A function in construction, the heap of its texts and the indices given out so far.
structure Draft where
  assembler : Assembler
  heap : Heap
  issued : List (Nat × Wanted)

-- What a host may ask of an assembler.
inductive Directive where
  | unchecked | parameter (name : String) (default : Value)
  | constant (v : Value) | textConstant (text : String)
  | emit (op : Opcode) (operands : List Int) | emitWord (word : Word)
  | patch (position : Nat) (op : Opcode) (operands : List Int) | reserve (count : Nat)

namespace Draft

def pool (d : Draft) : Array Value := d.assembler.function.constants

def answered (d : Draft) (wanted : Wanted) : Except EncodeError (Nat × Assembler) → Draft
  | .ok (i,a) => { d with assembler := a,issued := (i,wanted) :: d.issued }
  | .error _ => d

def obey (d : Draft) : Directive → Draft
  | .unchecked => { d with assembler.checked := false }
  | .parameter name default =>
    let (name,h) := d.heap.intern name
    { d with assembler := d.assembler.parameter name default,heap := h }
  | .constant v => d.answered (.value v) (d.assembler.constant v)
  | .textConstant text =>
    let (result,h) := d.assembler.textConstant d.heap text
    { d with heap := h }.answered (.text text) result
  | .emit op operands =>
    match d.assembler.emit op operands with
    | .ok (_,a) => { d with assembler := a }
    | .error _ => d
  | .emitWord word => { d with assembler := (d.assembler.emitWord word).2 }
  | .patch position op operands =>
    match d.assembler.patch position op operands with
    | .ok a => { d with assembler := a }
    | .error _ => d
  | .reserve count => { d with assembler := d.assembler.reserveRegisters count }

-- Drafts that directives lead to, with anything else done with the heap before and in between.
inductive Reached : Draft → Prop where
  | new (config : HeapConfig) (name : String) (checked : Bool) : Reached ⟨.new name checked,Heap.new config,[]⟩
  | heap : Reached d → Heap.Steps d.heap h → Reached { d with heap := h }
  | directive (directive : Directive) : Reached d → Reached (d.obey directive)

end Draft

-- What was asked for, as it stays true however the heap goes on.
def Wanted.Kept (h : Heap) (c : Value) : Wanted → Prop
  | value v => c = v
  | text t => h.Inscribed t c

theorem Wanted.Kept.later {wanted : Wanted} (kept : wanted.Kept h c) (steps : Heap.Steps h h') (intact : h.Intact) : wanted.Kept h' c := by
  cases wanted with
  | value v => exact kept
  | text t => exact Heap.Inscribed.later kept steps intact

theorem Wanted.Kept.met {wanted : Wanted} (kept : wanted.Kept h c) (intact : h.Intact) : wanted.Met h c := by
  cases wanted with
  | value v => exact kept
  | text t => exact Heap.Inscribed.stands kept intact

namespace Assembler

theorem constant_cases (a : Assembler) (v : Value) :
    (∃ i, a.constant v = .ok (i,a) ∧ a.function.constants[i]? = some v) ∨ (v ∉ a.function.constants ∧
      (a.function.constants.size < maxConstants ∧
          a.constant v = .ok (a.function.constants.size,{ a with function.constants := a.function.constants.push v }) ∨
        maxConstants ≤ a.function.constants.size ∧ a.constant v = .error (.constantPoolFull maxConstants))) := by
  cases found : a.function.constants.toList.findIdx? (· == v) with
  | some i =>
      obtain ⟨inside,same,_⟩ := List.findIdx?_eq_some_iff_getElem.mp found
      refine Or.inl ⟨i,by simp only [constant,found],?_⟩
      rw [← Array.getElem?_toList,List.getElem?_eq_getElem inside,eq_of_beq same]
  | none =>
      have absent : v ∉ a.function.constants := by
        intro member
        have other := List.findIdx?_eq_none_iff.mp found v (Array.mem_toList_iff.mpr member)
        rw [beq_self_eq_true] at other
        cases other
      refine Or.inr ⟨absent,?_⟩
      by_cases full : a.function.constants.size ≥ maxConstants
      · exact Or.inr ⟨full,by simp only [constant,found,if_pos full]⟩
      · exact Or.inl ⟨Nat.lt_of_not_le full,by simp only [constant,found,if_neg full]⟩

theorem emit_constants {a b : Assembler} (done : a.emit op operands = .ok (i,b)) : b.function.constants = a.function.constants := by
  unfold emit at done
  split at done
  · cases done
  · cases done
    have grown := congrArg Function.constants (reserveOperands_grows a.function op operands).1.same
    exact grown

theorem patch_constants {a b : Assembler} (done : a.patch position op operands = .ok b) : b.function.constants = a.function.constants := by
  unfold patch at done
  split at done
  · cases done
  · cases done
    rfl

end Assembler

namespace Draft

structure Pooled (d : Draft) : Prop where
  intact : d.heap.Intact
  few : d.pool.size ≤ Assembler.maxConstants
  apart : d.pool.toList.Nodup
  met : ∀ entry ∈ d.issued, ∃ c, d.pool[entry.1]? = some c ∧ entry.2.Kept d.heap c

theorem Pooled.heap {d : Draft} (pooled : d.Pooled) (steps : Heap.Steps d.heap h) : { d with heap := h }.Pooled := by
  refine ⟨steps.intact pooled.intact,pooled.few,pooled.apart,fun entry member => ?_⟩
  obtain ⟨c,there,kept⟩ := pooled.met entry member
  exact ⟨c,there,kept.later steps pooled.intact⟩

theorem Pooled.same {d : Draft} {a : Assembler} (pooled : d.Pooled) (same : a.function.constants = d.assembler.function.constants) :
    { d with assembler := a }.Pooled := by
  obtain ⟨intact,few,apart,met⟩ := pooled
  exact ⟨intact,by rw [pool,same]; exact few,by rw [pool,same]; exact apart,by rw [pool,same]; exact met⟩

theorem Pooled.answered {d : Draft} (pooled : d.Pooled) (v : Value) (wanted : Wanted) (kept : wanted.Kept d.heap v) :
    (d.answered wanted (d.assembler.constant v)).Pooled := by
  obtain ⟨intact,few,apart,met⟩ := pooled
  rcases d.assembler.constant_cases v with ⟨i,done,there⟩ | ⟨absent,⟨room,done⟩ | ⟨_,done⟩⟩
  · rw [done]
    refine ⟨intact,few,apart,fun entry member => ?_⟩
    rcases List.mem_cons.mp member with rfl | before
    · exact ⟨v,there,kept⟩
    · exact met entry before
  · rw [done]
    refine ⟨intact,?_,?_,fun entry member => ?_⟩
    · exact (Array.size_push _).trans_le room
    · change (d.pool.push v).toList.Nodup
      rw [Array.toList_push]
      exact apart.append (List.nodup_singleton v) (List.disjoint_singleton.mpr fun member => absent (Array.mem_toList_iff.mp member))
    · change ∃ c, (d.pool.push v)[entry.1]? = some c ∧ entry.2.Kept d.heap c
      rcases List.mem_cons.mp member with rfl | before
      · exact ⟨v,Array.getElem?_push_size,kept⟩
      · obtain ⟨c,there,stays⟩ := met entry before
        refine ⟨c,?_,stays⟩
        rw [Array.getElem?_push_lt (Array.getElem?_eq_some_iff.mp there).1,(Array.getElem?_eq_some_iff.mp there).2]
  · rw [done]
    exact ⟨intact,few,apart,met⟩

theorem Pooled.obey {d : Draft} (pooled : d.Pooled) (directive : Directive) : (d.obey directive).Pooled := by
  cases directive with
  | unchecked | emitWord | reserve => exact pooled.same rfl
  | parameter name default => exact (pooled.heap ((Heap.Call.intern name).steps d.heap)).same rfl
  | constant v => exact pooled.answered v (.value v) rfl
  | textConstant text =>
      have interned := pooled.heap ((Heap.Call.intern text).steps d.heap)
      exact interned.answered (d.heap.intern text).1 (.text text) (Heap.intern_inscribed text pooled.intact)
  | emit op operands =>
      simp only [Draft.obey]
      split
      · rename_i done
        exact pooled.same (Assembler.emit_constants done)
      · exact pooled
  | patch position op operands =>
      simp only [Draft.obey]
      split
      · rename_i done
        exact pooled.same (Assembler.patch_constants done)
      · exact pooled

theorem Reached.pooled {d : Draft} (reached : d.Reached) : d.Pooled := by
  induction reached with
  | new config name checked => exact ⟨Heap.new_intact config,Nat.zero_le _,List.nodup_nil,fun _ member => by cases member⟩
  | heap _ steps ih => exact ih.heap steps
  | directive directive _ ih => exact ih.obey directive

theorem Pooled.full {d : Draft} (pooled : d.Pooled) :
    d.assembler.constant v = .error e ↔ (v ∉ d.pool ∧ d.pool.size = 65536) ∧ e = .constantPoolFull 65536 := by
  constructor
  · intro refused
    rcases d.assembler.constant_cases v with ⟨i,done,_⟩ | ⟨absent,⟨_,done⟩ | ⟨full,done⟩⟩
    all_goals rw [done] at refused; cases refused
    exact ⟨⟨absent,Nat.le_antisymm pooled.few full⟩,rfl⟩
  · rintro ⟨⟨absent,full⟩,rfl⟩
    rcases d.assembler.constant_cases v with ⟨i,_,there⟩ | ⟨_,⟨room,_⟩ | ⟨_,done⟩⟩
    · exact absurd (Array.mem_of_getElem? there) absent
    · exact absurd full (Nat.ne_of_lt room)
    · exact done

theorem Reached.directives {d : Draft} (reached : d.Reached) (directives : List Directive) :
    (directives.foldl Draft.obey d).Reached := by
  induction directives generalizing d with
  | nil => exact reached
  | cons directive rest ih => exact ih (reached.directive directive)

-- Every index given out stands in the finished function for what it was asked for, and it fits 16 bits. No
-- constant is there twice, and a new one is refused exactly where the pool is full.
theorem constants_valid {d : Draft} (reached : d.Reached) :
    (∀ entry ∈ d.issued, (UInt16.ofNat entry.1).toNat = entry.1 ∧ ∃ c, d.pool[entry.1]? = some c ∧ entry.2.Met d.heap c) ∧
    d.pool.toList.Nodup ∧ d.pool.size ≤ 65536 ∧
    ∀ v, (∀ e, d.assembler.constant v = .error e ↔ (v ∉ d.pool ∧ d.pool.size = 65536) ∧ e = .constantPoolFull 65536) ∧
      (v ∉ d.pool ∧ d.pool.size = 65536 → d.obey (.constant v) = d) := by
  have pooled := reached.pooled
  refine ⟨fun entry member => ?_,pooled.apart,pooled.few,fun v => ⟨fun e => pooled.full,fun none => ?_⟩⟩
  · obtain ⟨c,there,kept⟩ := pooled.met entry member
    have inside := (Array.getElem?_eq_some_iff.mp there).1
    exact ⟨Nat.mod_eq_of_lt (Nat.lt_of_lt_of_le inside pooled.few),c,there,kept.met pooled.intact⟩
  · rw [obey,pooled.full.mpr ⟨none,rfl⟩]
    rfl

-- Numbers that are equal and not identical, a text asked for twice, and an instruction that is refused.
theorem constants_valid_apart :
    ∃ d : Draft, d.Reached ∧ d.issued.map Prod.fst = [2,1,4,3,2,1,0] ∧ d.pool.size = 5 ∧ d.pool.toList.Nodup ∧
      ∃ c, d.pool[2]? = some c ∧ d.heap.Stands "a longer text" c := by
  have reached := (Reached.new {} "f" true).directives [.constant (.int 1),.constant (.double ⟨0x3ff0000000000000⟩),
    .textConstant "a longer text",.emit .loadInt [300,0],.constant (.double ⟨0⟩),.constant (.double ⟨0x8000000000000000⟩),
    .constant (.double ⟨0x3ff0000000000000⟩),.textConstant "a longer text"]
  obtain ⟨valid,apart,_⟩ := constants_valid reached
  exact ⟨_,reached,by decide +kernel,by decide +kernel,apart,(valid (2,.text "a longer text") List.mem_cons_self).2⟩

end Draft

end RegisterMachine
