import RegisterMachine.Number.Double
import RegisterMachine.Text.Basic

namespace RegisterMachine.Hash

def basis : UInt32 := 0x811c9dc5
def prime : UInt32 := 0x01000193

def nonzero (hash : UInt32) : UInt32 := if hash = 0 then 1 else hash

def combine (running hash : UInt32) : UInt32 := (running ^^^ hash) * prime

def ofText (text : String) : UInt32 :=
  nonzero ((Text.bytes text).foldl (fun running byte => combine running byte.toUInt32) basis)

def mix (bits : UInt64) : UInt32 :=
  let x := bits ^^^ (bits >>> 33)
  let x := x * 0xff51afd7ed558ccd
  let x := x ^^^ (x >>> 33)
  let x := x * 0xc4ceb9fe1a85ec53
  let x := x ^^^ (x >>> 33)
  nonzero x.toUInt32

def ofDouble (d : Double) : UInt32 :=
  mix (if d.isZero then 0 else d.bits)

def ofNull : UInt32 := 0x2f6e756c

def ofFunction (index : Nat) : UInt32 :=
  mix (UInt64.ofNat index ||| 0xf00d00000000)

end RegisterMachine.Hash
