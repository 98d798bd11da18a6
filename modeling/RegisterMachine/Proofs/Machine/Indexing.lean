import RegisterMachine.Proofs.Heap.Iteration
import RegisterMachine.Proofs.Heap.Sequences
import RegisterMachine.Proofs.Machine.Inheritance

namespace RegisterMachine.Machine

variable {m : Machine} {h : Heap} {c i : Value}

end RegisterMachine.Machine
