import RegisterMachine.Heap.Maps

namespace RegisterMachine.Heap

def aliasesFor (h : Heap) (first count : Nat) : Aliases :=
  (List.range' first (min (first + count) h.registers.size - first)).foldl
    (fun aliases register =>
      let name := h.registerName register
      if name.isNull then aliases else aliases.push name register)
    ⟨#[], 0⟩

def newAliasMap (first count : Nat) : HeapM Value := fun h =>
  let table := { Table.withCapacity 0 with aliases := some (h.aliasesFor first count) }
  (.map <$> allocate (.map table)) h

def isAliasMap (h : Heap) (v : Value) : Bool :=
  match h.table? v with
  | some table => table.aliases.isSome
  | none => false

-- Makes a name an alias of a register, unless it is one already or the map has no aliases.
def bindRegister (v name : Value) (register : Nat) : HeapM Unit := fun h =>
  match h.mapHandle v with
  | .error e => .error e h
  | .ok r =>
    if h.isAliasMap v && (h.aliasOf? v name).isNone then
      let h := h.modifyTable r fun t => { t with aliases := t.aliases.map (·.push name register) }
      .ok () (h.recharge r)
    else .ok () h

-- Copies the assigned aliases into the table. Afterwards the map no longer depends on the
-- registers.
def gather (v : Value) : HeapM Unit := fun h =>
  match h.mapHandle v with
  | .error e => .error e h
  | .ok r => match (h.table? v).bind Table.aliases with
    | none => .ok () h
    | some aliases =>
      let entries := h.assignedAliases aliases
      let h := h.modifyTable r ({ · with aliases := none })
      .ok () ((h.storeAll r entries).recharge r)

end RegisterMachine.Heap
