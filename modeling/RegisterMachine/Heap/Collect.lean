import RegisterMachine.Heap.Roots

namespace RegisterMachine

namespace Marking

structure State where
  marks : Array Bool
  work : List Handle

def holds (slots : Array Slot) (r : Handle) : Bool :=
  match slots[r.index]? with
  | some slot => slot.generation == r.generation && slot.object.isSome
  | none => false

-- A live slot is marked once, and its handle queued.
def markHandle (slots : Array Slot) (state : State) (r : Handle) : State :=
  if holds slots r && !state.marks.getD r.index true then
    { marks := state.marks.setIfInBounds r.index true, work := r :: state.work }
  else state

def markValue (slots : Array Slot) (state : State) (v : Value) : State :=
  match v.handle? with
  | some r => markHandle slots state r
  | none => state

def referencesOf (slots : Array Slot) (r : Handle) : List Value :=
  match slots[r.index]? with
  | some slot => slot.object.elim [] Object.references
  | none => []

-- Every traced handle was marked before, each slot once: as many steps as slots are enough.
def trace (slots : Array Slot) (references : Handle → List Value) : Nat → State → State
  | 0, state => state
  | steps + 1, { marks, work } =>
    match work with
    | [] => { marks, work := [] }
    | r :: work =>
      trace slots references steps ((references r).foldl (markValue slots) { marks, work })

def start (slots : Array Slot) : State :=
  { marks := Array.replicate slots.size false, work := [] }

def markHeld (slots : Array Slot) (values : α → List Value) (state : State) : Option α → State
  | some held => (values held).foldl (markValue slots) state
  | none => state

def markRoots (h : Heap) (state : State) : State :=
  let state := h.shadow.foldl (markValue h.slots) state
  let state := h.roots.foldl (markHeld h.slots fun v => [v]) state
  let state := h.registers.foldl
    (fun state register => markValue h.slots (markValue h.slots state register.value) register.name)
    state
  h.callbacks.foldl (markHeld h.slots id) state

def reached (h : Heap) : State :=
  trace h.slots (referencesOf h.slots) h.slots.size (markRoots h { marks := h.marks, work := h.work })

end Marking

namespace Heap

def mark (h : Heap) : Heap :=
  let { marks, work } := Marking.reached h
  { h with marks, work }

def dies (marks : Array Bool) (i : Nat) (slot : Slot) : Bool :=
  !marks.getD i false && !slot.immortal && slot.object.isSome

def emptied (slot : Slot) : Slot :=
  { slot with object := none, generation := slot.generation + 1, charge := 0 }

def saturate (n : Nat) : Nat := min n 0xffffffffffffffff

def sweep (h : Heap) : Collection × Heap :=
  let dying := (List.range h.slots.size).filter fun i => dies h.marks i (h.slots.getD i default)
  let freedBytes := dying.foldl (fun total i => total + (h.slots.getD i default).charge) 0
  let freedObjects := dying.length
  let bytes := h.bytes - freedBytes
  let threshold := if freedBytes < h.threshold / 4 then saturate (h.threshold * 2) else h.threshold
  let report := { freedBytes, freedObjects, remaining := bytes, threshold }
  (report,
    { h with
      slots := dying.foldl (fun slots i => slots.modify i emptied) h.slots
      marks := h.marks.map fun _ => false
      free := dying.reverse ++ h.free
      live := h.live - freedObjects
      bytes
      threshold
      history := h.history.push report })

-- A full collection and the bytes it freed; nothing happens while collection is disabled. When
-- little is freed the threshold doubles.
def collect (h : Heap) : Nat × Heap :=
  if h.disabled > 0 then (0, h)
  else
    let (report, h) := h.mark.sweep
    (report.freedBytes, h)

def disable (h : Heap) : Heap := { h with disabled := h.disabled + 1 }

def enable (h : Heap) : Heap := { h with disabled := h.disabled - 1 }

def isEnabled (h : Heap) : Bool := h.disabled == 0

end Heap

end RegisterMachine
