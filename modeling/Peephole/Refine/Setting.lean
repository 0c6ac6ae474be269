import Peephole.Options
import Peephole.Edit

/-!
# Settings of refinement

Refinement relies on the trees it is given. Under a strict setting a broken
invariant is a fault; otherwise it is reported, and the rule that saw it leaves
its input as it is.
-/

namespace Peephole

structure Setting extends Options where
  strict : Bool

/-- A pass gives the node in place of its input, and whether anything
changed. -/
abbrev Pass := NodeId → Edit (NodeId × Bool)

/-- A step fires, giving the node in place of its input, or leaves the tree as
it is. -/
abbrev Step := NodeId → Edit (Option NodeId)

namespace Edit

/-- Whether an invariant holds, for rules that go on only if it does. -/
def require (s : Setting) (holds : Bool) (v : Violation) : Edit Bool := do
  if holds then return true
  if s.strict then throw (.violation v)
  report (.skipped v)
  return false

end Edit

end Peephole
