import RegisterMachine.Machine.Step

namespace RegisterMachine.Machine

-- Empty maps for the methods of each kind, protected as they are made.
def newTypeMaps : Nat → Array Value → HeapM (Array Value)
  | 0, maps => pure maps
  | count + 1, maps => do
    let map ← Heap.newMap 16
    modify (·.protect map)
    newTypeMaps count (maps.push map)

def fileMethod (maps : Array Value) (name f : Value) : List Kind → HeapM Unit
  | [] => pure ()
  | kind :: rest => do
    match (typeIndex? kind).bind (maps[·]?) with
    | some map => Heap.mapSet map name f
    | none => pure ()
    fileMethod maps name f rest

-- Appends an intrinsic to the function table and publishes it by name.
def installIntrinsic (table : Value) (maps : Array Value) (intrinsic : Intrinsic) :
    MachineM Unit := do
  let index := (← get).functions.size
  modify fun m =>
    let (f, heap) := Function.ofNative intrinsic.name intrinsic.parameters (.intrinsic intrinsic) m.heap
    { m with heap, functions := m.functions.push f }
  onHeap do
    let name ← Heap.interning intrinsic.name
    let f ← Heap.newFuncRef index .null
    Heap.mapSet table name f
    fileMethod maps name f intrinsic.methodOf

def installAll (table : Value) (maps : Array Value) : List Intrinsic → MachineM Unit
  | [] => pure ()
  | intrinsic :: rest => do
    installIntrinsic table maps intrinsic
    installAll table maps rest

def installIntrinsics : MachineM Unit := inScope do
  let (table, maps) ← onHeap do
    let table ← Heap.newMap 64
    modify (·.protect table)
    let maps ← newTypeMaps typeRootCount #[]
    pure (table, maps)
  installAll table maps Intrinsic.all
  modifyHeap fun h =>
    maps.toList.zipIdx.foldl (fun h (map, i) => h.setRoot (typeRoot i) map)
      (h.setRoot intrinsicsRoot table)

def unload (m : Machine) (functions : Array Function) : Machine :=
  let heap := m.frames.foldl (fun h frame => frame.release h) m.heap
  let m := { m with
    heap
    frames := #[]
    functions
    intrinsicBase := functions.size
    state := .idle
    fault := none }
  let m := m.setPending none
  { m with heap := m.heap.setRoot resultRoot .null }

def rejectLoad (e : Error) : MachineM α := fun m =>
  let m := m.addLog .error e.message
  .error e { m with errors := m.errors.push ("Runtime Error: " ++ e.message) }

def entryFunction : MachineM Nat := do
  let m ← get
  match m.functions.findIdx? (·.name == m.config.entry) with
  | none => rejectLoad .noEntryFunction
  | some entry =>
    match m.functions[entry]? with
    | some f =>
      if f.code.isEmpty && f.native.isNone then rejectLoad .emptyEntryFunction else pure entry
    | none => rejectLoad .noEntryFunction

def reset (functions : Array Function) : MachineM Unit := do
  modify (·.unload functions)
  let entry ← entryFunction
  installIntrinsics
  modify fun m =>
    { m with
      heap := (m.heap.resizeRegisters 0).resizeRegisters m.config.stackSlots
      pc := 0
      base := 0
      function := entry
      frames := m.frames.push { function := entry, base := 0 } }
  ensureWindow 0 ((← get).windowSize entry)
  modify fun m =>
    let name := m.functionName entry
    let count := m.functions.size
    { m with state := .running }.addLog .debug
      s!"VM reset: executing {name} out of {count} functions"

def registerFunction (m : Machine) (f : Function) : Nat × Machine :=
  (m.functions.size, { m with functions := m.functions.push f })

def execute : Nat → MachineM (Option Value)
  | 0 => pure none
  | budget + 1 => fun m =>
    if m.state ≠ .running then .ok none m
    else match step m with
      | .ok (.finished result) m => .ok (some result) m
      | .ok .next m => execute budget m
      | .error e m => .error e m

def unlimited : Nat := 0xffffffffffffffff

-- Runs within a budget and gives the result of the program, or null while there is none. A
-- machine that is not running stays as it is.
def run (m : Machine) (budget : Nat) : Value × Machine :=
  if !m.isRunning then (.null, m)
  else match execute budget { m with state := .running } with
    | .ok (some result) m =>
      (result, { m with state := .returned, heap := m.heap.setRoot resultRoot result })
    | .ok none m =>
      (.null, if m.state = .running then { m with state := .suspended } else m)
    | .error e m => (.null, m.raise e)

def result (m : Machine) : Value := m.heap.root resultRoot

-- Logs the error that stopped the program; false when there is none.
def reportFault (m : Machine) : Bool × Machine :=
  match m.fault with
  | some f =>
    let text := "Runtime Error: " ++ f.error.message ++ " [" ++ f.function ++ " line " ++
      toString f.pc ++ "]"
    (true, m.addLog .error text)
  | none => (false, m)

def callDepth (m : Machine) : Nat := m.frames.size - 1

def userFunctions (m : Machine) : Array Function := m.functions.take m.intrinsicBase

end RegisterMachine.Machine
