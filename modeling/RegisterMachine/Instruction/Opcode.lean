import RegisterMachine.Text.Case

namespace RegisterMachine

inductive Relation where
  | lt | le | eq | ne
deriving DecidableEq, Repr

inductive Sides where
  | registers | immediateRight | immediateLeft
deriving DecidableEq, Repr

-- A comparison that the instruction set has; equality needs no immediate on the left.
inductive Comparison where
  | lt (sides : Sides)
  | le (sides : Sides)
  | eq (immediate : Bool)
  | ne (immediate : Bool)
deriving DecidableEq, Repr

namespace Comparison

def relation : Comparison → Relation
  | lt _ => .lt
  | le _ => .le
  | eq _ => .eq
  | ne _ => .ne

def sides : Comparison → Sides
  | lt sides | le sides => sides
  | eq immediate | ne immediate => if immediate then .immediateRight else .registers

def all : List Comparison :=
  [lt .registers, lt .immediateRight, lt .immediateLeft,
   le .registers, le .immediateRight, le .immediateLeft,
   eq false, eq true, ne false, ne true]

def name (c : Comparison) : String :=
  match c.relation with
  | .lt => "LT"
  | .le => "LE"
  | .eq => "EQ"
  | .ne => "NE"

end Comparison

inductive BinaryOperation where
  | add | sub | mult | div | mod | and | or
deriving DecidableEq, Repr

inductive Opcode where
  | noop
  | copy
  | loadInt
  | loadConstant
  | loadNull
  | loadVariable
  | loadCall
  | funcRef
  | assign
  | name
  | binary (operation : BinaryOperation)
  | not
  | list
  | map
  | push
  | index
  | setIndex
  | slice
  | locals
  | outer
  | globals
  | jump
  | test (comparison : Comparison)
  | branchTrue
  | branchFalse
  | branch (comparison : Comparison)
  | skip (comparison : Comparison)
  | next
  | argumentBlock
  | argument
  | argumentInt
  | callFunction
  | callNamed
  | call
  | new
  | isa
  | findMethod
  | setSelf
  | callIfRef
  | iterGet
  | ret
deriving DecidableEq, Repr

inductive Role where
  | register | immediate | constant
deriving DecidableEq, Repr

def Role.letter : Role → String
  | .register => "r"
  | .immediate => "i"
  | .constant => "k"

structure Field where
  role : Role
  width : Nat
deriving DecidableEq, Repr

inductive Shape where
  | none | a | abx | axc | abc | ax24
deriving DecidableEq, Repr

def Shape.name : Shape → String
  | .none => "None"
  | .a => "A"
  | .abx => "ABx"
  | .axc => "AxC"
  | .abc => "ABC"
  | .ax24 => "Ax24"

namespace BinaryOperation

def all : List BinaryOperation := [add, sub, mult, div, mod, and, or]

def name : BinaryOperation → String
  | add => "ADD"
  | sub => "SUB"
  | mult => "MULT"
  | div => "DIV"
  | mod => "MOD"
  | and => "AND"
  | or => "OR"

end BinaryOperation

namespace Opcode

def all : Array Opcode :=
  ([noop, copy, loadInt, loadConstant, loadNull, loadVariable, loadCall, funcRef, assign, name] ++
    BinaryOperation.all.map binary ++
    [not, list, map, push, index, setIndex, slice, locals, outer, globals, jump] ++
    Comparison.all.map test ++ [branchTrue, branchFalse] ++
    Comparison.all.map branch ++ Comparison.all.map skip ++
    [next, argumentBlock, argument, argumentInt, callFunction, callNamed, call, new, isa,
     findMethod, setSelf, callIfRef, iterGet, ret]).toArray

def ofByte? (byte : Nat) : Option Opcode := all[byte]?

def byte (op : Opcode) : Nat := all.toList.idxOf op

def label : Opcode → String
  | noop => "NOOP"
  | copy | loadInt | loadConstant => "LOAD"
  | loadNull => "LOADNULL"
  | loadVariable => "LOADV"
  | loadCall => "LOADC"
  | funcRef => "FUNCREF"
  | assign => "ASSIGN"
  | name => "NAME"
  | binary operation => operation.name
  | not => "NOT"
  | list => "LIST"
  | map => "MAP"
  | push => "PUSH"
  | index => "INDEX"
  | setIndex => "IDXSET"
  | slice => "SLICE"
  | locals => "LOCALS"
  | outer => "OUTER"
  | globals => "GLOBALS"
  | jump => "JUMP"
  | test comparison => comparison.name
  | branchTrue => "BRTRUE"
  | branchFalse => "BRFALSE"
  | branch comparison => "BR" ++ comparison.name
  | skip comparison => "IF" ++ comparison.name
  | next => "NEXT"
  | argumentBlock => "ARGBLK"
  | argument | argumentInt => "ARG"
  | callFunction => "CALLF"
  | callNamed => "CALLFN"
  | call => "CALL"
  | new => "NEW"
  | isa => "ISA"
  | findMethod => "METHFIND"
  | setSelf => "SETSELF"
  | callIfRef => "CALLIFREF"
  | iterGet => "ITERGET"
  | ret => "RETURN"

def reg (width : Nat) : Field := ⟨.register, width⟩
def imm (width : Nat) : Field := ⟨.immediate, width⟩
def const (width : Nat) : Field := ⟨.constant, width⟩

-- The compared values, in fields of eight bits.
def sideFields : Sides → List Field
  | .registers => [reg 8, reg 8]
  | .immediateRight => [reg 8, imm 8]
  | .immediateLeft => [imm 8, reg 8]

def wideSideFields : Sides → List Field
  | .registers => [reg 8, reg 8]
  | .immediateRight => [reg 8, imm 16]
  | .immediateLeft => [imm 16, reg 8]

def fields : Opcode → List Field
  | noop | ret => []
  | loadNull | locals | outer | globals | argument | setSelf | callIfRef => [reg 8]
  | copy | not | push | next | new => [reg 8, reg 8]
  | loadInt | list | map | branchTrue | branchFalse => [reg 8, imm 16]
  | loadConstant | name => [reg 8, const 16]
  | loadVariable | loadCall | assign => [reg 8, reg 8, const 8]
  | binary _ | index | setIndex | slice | call | isa | findMethod | iterGet =>
    [reg 8, reg 8, reg 8]
  | funcRef | callFunction => [imm 8, imm 16]
  | callNamed => [imm 8, const 16]
  | jump | argumentBlock | argumentInt => [imm 24]
  | test comparison => reg 8 :: sideFields comparison.sides
  | branch comparison => sideFields comparison.sides ++ [imm 8]
  | skip comparison => wideSideFields comparison.sides

def operandCount (op : Opcode) : Nat := op.fields.length

-- A field of eight bits takes one of the places A, B and C, a wider one several.
def suffixes : List Char → List Field → String
  | _, [] => ""
  | places, field :: rest =>
    let taken := field.width / 8
    "_" ++ field.role.letter ++ String.ofList (places.take taken) ++
      suffixes (places.drop taken) rest

def mnemonic (op : Opcode) : String := op.label ++ suffixes ['A', 'B', 'C'] op.fields

def ofMnemonic? (text : String) : Option Opcode :=
  all.toList.find? fun op => Text.equalIgnoringCase op.mnemonic text

def shape (op : Opcode) : Shape :=
  match op.fields with
  | [] => .none
  | [field] => if field.width = 24 then .ax24 else .a
  | [first, second] => if second.width = 16 then .abx else if first.width = 16 then .axc else .abc
  | _ => .abc

end Opcode

end RegisterMachine
