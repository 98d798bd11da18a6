import RegisterMachine.Text.Basic
import RegisterMachine.Text.Blank
import RegisterMachine.Text.Case
import RegisterMachine.Text.Search
import RegisterMachine.Number.Decimal
import RegisterMachine.Number.Reading
import RegisterMachine.Number.Shortest
import RegisterMachine.Value.Hash
import RegisterMachine.Heap.Allocate
import RegisterMachine.Heap.Equality
import RegisterMachine.Heap.Rendering
import RegisterMachine.Heap.AliasMaps
import RegisterMachine.Heap.Freezing
import RegisterMachine.Heap.Arithmetic
import RegisterMachine.Function.Assembler
import RegisterMachine.Json.Data
import RegisterMachine.Program.Build
import RegisterMachine.CommandLine
import RegisterMachine.Main
import RegisterMachine.Proofs.Table.Probing
import RegisterMachine.Proofs.Table.Removal
import RegisterMachine.Proofs.Table.Invariant
import RegisterMachine.Proofs.Heap.Steps
import RegisterMachine.Proofs.Heap.Operations
import RegisterMachine.Proofs.Heap.Marking
import RegisterMachine.Proofs.Heap.Collection
import RegisterMachine.Proofs.Heap.Invariant
import RegisterMachine.Proofs.Heap.Reachable
import RegisterMachine.Proofs.Heap.Objects
import RegisterMachine.Proofs.Number.Double
import RegisterMachine.Proofs.Map.Keys
import RegisterMachine.Proofs.Map.Rows
import RegisterMachine.Proofs.Map.Finite
import RegisterMachine.Proofs.Heap.Safety
import RegisterMachine.Proofs.Heap.Outcomes
import RegisterMachine.Proofs.Heap.Scopes
import RegisterMachine.Proofs.Heap.Reading
import RegisterMachine.Proofs.Heap.Editing
import RegisterMachine.Proofs.Heap.Building
import RegisterMachine.Proofs.Heap.Copying
import RegisterMachine.Proofs.Heap.Methods
import RegisterMachine.Proofs.Machine.Pins
import RegisterMachine.Proofs.Machine.Secure
import RegisterMachine.Proofs.Machine.Variables
import RegisterMachine.Proofs.Machine.Calls
import RegisterMachine.Proofs.Machine.Instructions
import RegisterMachine.Proofs.Program.Lasting
import RegisterMachine.Proofs.Machine.Loading
import RegisterMachine.Proofs.Machine.Reachable
import RegisterMachine.Proofs.Heap.Actions
import RegisterMachine.Proofs.Heap.Evolution
import RegisterMachine.Proofs.Heap.Receivers
import RegisterMachine.Proofs.Machine.Access
import RegisterMachine.Proofs.Machine.Capture
import RegisterMachine.Proofs.Map.AliasView
import RegisterMachine.Proofs.Heap.Canonical
import RegisterMachine.Proofs.Heap.Handles
import RegisterMachine.Proofs.Heap.Ledger
import RegisterMachine.Proofs.Map.Filing
import RegisterMachine.Proofs.Map.Equality
import RegisterMachine.Proofs.Map.Honest
import RegisterMachine.Proofs.Map.Gone
import RegisterMachine.Proofs.Heap.Freezing
import RegisterMachine.Proofs.Heap.Twins
import RegisterMachine.Proofs.Machine.Visibility
import RegisterMachine.Proofs.Heap.CopyLockstep
import RegisterMachine.Proofs.Machine.Listing
import RegisterMachine.Proofs.Function.Reservation
import RegisterMachine.Proofs.Program.Assembly
import RegisterMachine.Proofs.Heap.Scripts
import RegisterMachine.Proofs.Heap.Timing
import RegisterMachine.Proofs.Machine.Roots
import RegisterMachine.Proofs.Machine.RunStates
import RegisterMachine.Proofs.Heap.Limit
import RegisterMachine.Proofs.Heap.Growth
import RegisterMachine.Proofs.Heap.Shortage
import RegisterMachine.Proofs.Heap.Framing
import RegisterMachine.Proofs.Machine.Windows
import RegisterMachine.Proofs.Map.Histories
import RegisterMachine.Proofs.Machine.Places
import RegisterMachine.Proofs.Machine.Faults
import RegisterMachine.Proofs.Machine.Refusals
import RegisterMachine.Proofs.Machine.Blocks
import RegisterMachine.Proofs.Machine.Parameters
import RegisterMachine.Proofs.Machine.Functions
import RegisterMachine.Proofs.CommandLine.Faults
import RegisterMachine.Proofs.Heap.Sequences
import RegisterMachine.Proofs.Text.CodePoints
import RegisterMachine.Proofs.Heap.NaturalOrder
import RegisterMachine.Proofs.Heap.Sorting
import RegisterMachine.Proofs.Heap.Iteration
import RegisterMachine.Proofs.Machine.Loops
import RegisterMachine.Proofs.Map.Inheritance
import RegisterMachine.Proofs.Machine.Inheritance
import RegisterMachine.Proofs.Machine.Indexing
import RegisterMachine.Proofs.Text.Pieces
import RegisterMachine.Proofs.Heap.Splitting
import RegisterMachine.Proofs.Map.Undisturbed
import RegisterMachine.Proofs.Map.Taking
import RegisterMachine.Proofs.Map.Retrieval
import RegisterMachine.Proofs.Machine.Popping
import RegisterMachine.Proofs.Text.Occurrences
import RegisterMachine.Proofs.Heap.Characters
import RegisterMachine.Proofs.Machine.Characters
import RegisterMachine.Proofs.Heap.TextOrder
import RegisterMachine.Proofs.Heap.Literals
import RegisterMachine.Proofs.Machine.Comparisons
import RegisterMachine.Proofs.Heap.Tenancy
import RegisterMachine.Proofs.Heap.Brackets
import RegisterMachine.Proofs.Function.Constants
