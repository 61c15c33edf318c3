/-!
# How control leaves a block
-/

namespace Rejoin

/-- Number of a block. -/
abbrev BlockId := Nat

/-- How control leaves a block, to targets of type `β`. -/
inductive Transfer (β : Type) where
  /-- A two-way branch, to the true target or to the false target. -/
  | branch (onTrue onFalse : β)
  /-- An unconditional transfer, explicit or by falling through. -/
  | jump (target : β)
  /-- Control leaves the function. -/
  | leave
deriving DecidableEq, Repr, Inhabited

/-- The targets of a transfer, the true target first. -/
def Transfer.targets {β : Type} : Transfer β → List β
  | branch onTrue onFalse => [onTrue, onFalse]
  | jump target => [target]
  | leave => []

end Rejoin
