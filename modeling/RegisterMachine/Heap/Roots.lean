import RegisterMachine.Heap.Basic

namespace RegisterMachine.Heap

def protect (h : Heap) (v : Value) : Heap :=
  { h with shadow := v :: h.shadow }

-- The latest protected value, released; values from outside the current scope are kept.
def unprotect (h : Heap) : Option Value × Heap :=
  match h.shadow with
  | v :: rest =>
    if h.shadow.length > h.scopes.headD 0 then (some v, { h with shadow := rest }) else (none, h)
  | [] => (none, h)

def pushScope (h : Heap) : Heap :=
  { h with scopes := h.shadow.length :: h.scopes }

def popScope (h : Heap) : Heap :=
  match h.scopes with
  | start :: rest =>
    { h with scopes := rest, shadow := h.shadow.drop (h.shadow.length - start) }
  | [] => h

-- Runs an operation in a scope of its own, which closes however the operation ends.
def inScope (operation : HeapM α) : HeapM α := fun h =>
  match operation h.pushScope with
  | .ok result h => .ok result h.popScope
  | .error e h => .error e h.popScope

-- A new persistent root and its number, the last number given back first.
def addRoot (h : Heap) (v : Value) : Nat × Heap :=
  match h.freeRoots with
  | id :: rest => (id, { h with freeRoots := rest, roots := h.roots.setIfInBounds id (some v) })
  | [] => (h.roots.size, { h with roots := h.roots.push (some v) })

def setRoot (h : Heap) (id : Nat) (v : Value) : Heap :=
  { h with roots := h.roots.setIfInBounds id (some v) }

def root (h : Heap) (id : Nat) : Value := (h.roots.getD id none).getD .null

def removeRoot (h : Heap) (id : Nat) : Heap :=
  match h.roots.getD id none with
  | some _ => { h with roots := h.roots.setIfInBounds id none, freeRoots := id :: h.freeRoots }
  | none => h

def registerCallback (h : Heap) (marked : List Value) : Nat × Heap :=
  (h.callbacks.size, { h with callbacks := h.callbacks.push (some marked) })

def unregisterCallback (h : Heap) (id : Nat) : Bool × Heap :=
  match h.callbacks.getD id none with
  | some _ => (true, { h with callbacks := h.callbacks.setIfInBounds id none })
  | none => (false, h)

def rootCount (h : Heap) : Nat :=
  h.shadow.length + h.roots.countP Option.isSome + h.callbacks.countP Option.isSome

end RegisterMachine.Heap
