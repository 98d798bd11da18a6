import RegisterMachine.Heap.Collect

namespace RegisterMachine.Heap

def install (h : Heap) (object : Object) (charge : Nat) (immortal : Bool) : Handle × Heap :=
  match h.free with
  | i :: rest =>
    let generation := (h.slots.getD i default).generation
    (⟨i, generation⟩,
      { h with
        free := rest
        live := h.live + 1
        slots := h.slots.setIfInBounds i { object := some object, generation, charge, immortal } })
  | [] =>
    (⟨h.slots.size, 0⟩,
      { h with
        live := h.live + 1
        marks := h.marks.push false
        slots := h.slots.push { object := some object, generation := 0, charge, immortal } })

def collectIfDue (h : Heap) : Heap :=
  if h.disabled == 0 && (h.config.stress || h.bytes > h.threshold) then h.collect.2 else h

def exceedsLimit (h : Heap) (charge : Nat) : Bool :=
  match h.config.maxBytes with
  | some limit => h.bytes + charge > limit
  | none => false

def allocate (object : Object) : HeapM Handle := fun h =>
  let charge := object.charge
  let h := h.collectIfDue
  let h := if h.exceedsLimit charge then h.collect.2 else h
  if h.exceedsLimit charge then .error (.outOfMemory charge) h
  else
    let (r, h) := { h with bytes := h.bytes + charge }.install object charge false
    .ok r h

def internThreshold : Nat := 128

-- The one value of a text that is never freed, made on first use.
def intern (h : Heap) (text : String) : Value × Heap :=
  match ShortText.ofString? text with
  | some t => (.short t, h)
  | none =>
    match h.interned.get? text with
    | some r => (.str r, h)
    | none =>
      let (r, h) := h.install (.str text) 0 true
      (.str r, { h with interned := h.interned.insert text r })

def interning (text : String) : HeapM Value := fun h =>
  let (v, h) := h.intern text
  .ok v h

def newString (text : String) : HeapM Value :=
  match ShortText.ofString? text with
  | some t => pure (.short t)
  | none =>
    if text.utf8ByteSize < internThreshold then interning text
    else .str <$> allocate (.str text)

def newFuncRef (function : Nat) (outer : Value) : HeapM Value :=
  .funcRef <$> allocate (.funcRef ⟨function, outer⟩)

def newListOf (items : Array Value) (capacity : Nat) : HeapM Value :=
  .list <$> allocate (.list (.ofItems items capacity))

def listOfItems (items : Array Value) : HeapM Value :=
  newListOf items items.size

def newList (capacity : Nat) : HeapM Value :=
  newListOf #[] capacity

def newMap (capacity : Nat) : HeapM Value :=
  .map <$> allocate (.map (.withCapacity capacity))

-- A map as a host asks for it, with any number.
def newSizedMap (wanted : Nat) : HeapM Value :=
  .map <$> allocate (.map (.sized wanted))

structure Stats where
  bytes : Nat
  threshold : Nat
  collections : Nat
  liveObjects : Nat
  rootCount : Nat
  internedStrings : Nat
  enabled : Bool

def stats (h : Heap) : Stats where
  bytes := h.bytes
  threshold := h.threshold
  collections := h.history.size
  liveObjects := h.live
  rootCount := h.rootCount
  internedStrings := h.interned.size
  enabled := h.isEnabled

end RegisterMachine.Heap
