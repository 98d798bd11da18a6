namespace RegisterMachine

inductive Intrinsic where
  | print | input | val | str | len | remove | freeze | isFrozen | frozenCopy | push | pop | pull
  | insert | indexOf | hasIndex | indexes | values | sort | join | upper | lower | trim | split
  | replace | slice | number | string | list | map | funcRef
deriving DecidableEq, Repr

inductive HostFunction where
  -- Stops the machine with an error of its own and returns 1.
  | raise
  | fail
  | pair
deriving DecidableEq, Repr

inductive Native where
  | intrinsic (intrinsic : Intrinsic)
  | host (function : HostFunction)
deriving DecidableEq, Repr

end RegisterMachine
