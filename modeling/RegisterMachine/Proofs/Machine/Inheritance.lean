import RegisterMachine.Proofs.Map.Inheritance
import RegisterMachine.Proofs.Machine.Places
import RegisterMachine.Proofs.Machine.Reachable

namespace RegisterMachine.Machine

variable {m : Machine} {h : Heap} {v key u x : Value}

end RegisterMachine.Machine
