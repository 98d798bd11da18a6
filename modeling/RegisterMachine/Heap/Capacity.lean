namespace RegisterMachine.Capacity

def grown (capacity needed : Nat) : Nat :=
  if needed ≤ capacity then capacity else max (max (2 * capacity) needed) 4

-- The room after `count` items were pushed one by one onto `length` others.
def afterPushes (capacity length : Nat) : Nat → Nat
  | 0 => capacity
  | count + 1 => afterPushes (grown capacity (length + 1)) (length + 1) count

end RegisterMachine.Capacity
