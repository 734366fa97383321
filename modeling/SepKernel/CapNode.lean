import SepKernel.Kernel

/-!
# `inc/cap_node.h`

The doubly linked list of capabilities, as one hart runs its operations with no other hart in
between. Its loops wait for another hart to finish its own update; alone, each of them ends
in its first round or never.
-/

namespace SepKernel

variable (cfg : Config)

/-- A node is in a list as long as it has a predecessor. -/
def capNodeIsDeleted (cn : NodeRef) : KernelM Bool := return ((← get).nodes cn).prev.isNone

/-- The capability is read before the test, so that one of a node deleted in between is not used. -/
def capNodeGetCap (cn : NodeRef) : KernelM Cap := do
  let cap := ((← get).nodes cn).cap
  if ← capNodeIsDeleted cn then
    return nullCap
  return cap

/-- `do { next = node->next; } while (!compare_and_set(&next->prev, node, prev));` -/
def capNodeUnlinkNext (node prev : NodeRef) : Nat → KernelM NodeRef
  | 0 => throw .outOfFuel
  | fuel + 1 => do
    let next ← deref ((← get).nodes node).next
    if ← casPrev next (some node) (some prev) then
      return next
    capNodeUnlinkNext node prev fuel

/-- The predecessor is set to null first: from there on no other hart can use the node. Then the
    next node takes the predecessor over, and last the predecessor its successor. -/
def capNodeDelete2 (node prev : NodeRef) : KernelM Bool := do
  if !(← casPrev node (some prev) none) then
    return false
  let next ← capNodeUnlinkNext node prev cfg.loopFuel
  writeNext prev (some next)
  return true

/-- The `do`-`while` of `cap_node_delete`. -/
def capNodeDeleteLoop (node : NodeRef) : Nat → KernelM Bool
  | 0 => throw .outOfFuel
  | fuel + 1 => do
    match ((← get).nodes node).prev with
    | none => return false
    | some prev =>
      if ← capNodeDelete2 cfg node prev then
        return true
      capNodeDeleteLoop node fuel

/-- Deletes behind whatever precedes the node at the time. -/
def capNodeDelete (node : NodeRef) : KernelM Bool := capNodeDeleteLoop cfg node cfg.loopFuel

/-- The `while` of `cap_node_insert`. -/
def capNodeInsertLoop (node prev : NodeRef) : Nat → Option NodeRef → KernelM Bool
  | 0, _ => throw .outOfFuel
  | fuel + 1, next => do
    if ((← get).nodes prev).prev.isNone then
      return false
    writeNext node next
    if ← casPrev (← deref next) (some prev) (some node) then
      writeNext prev (some node)
      writePrev node (some prev)
      return true
    capNodeInsertLoop node prev fuel ((← get).nodes prev).next

/-- Puts the node behind `prev`, unless `prev` has been deleted. The capability is written either
    way. -/
def capNodeInsert (cap : Cap) (node prev : NodeRef) : KernelM Bool := do
  kassert ((← get).nodes node).prev.isNone
  writeCap node cap
  capNodeInsertLoop node prev cfg.loopFuel ((← get).nodes prev).next

/-- The event is for the history: from here on `dest_node` holds what `src_node` held. -/
def capNodeMove (cap : Cap) (srcNode destNode : NodeRef) : KernelM Bool := do
  if !(← capNodeInsert cfg cap destNode srcNode) then
    return false
  modify fun s => s.record (.moved srcNode destNode)
  capNodeDelete cfg srcNode

end SepKernel
