import Peephole.Block
import Peephole.Build
import Peephole.DefUse
import Peephole.Document
import Peephole.Edit
import Peephole.Eval
import Peephole.Event
import Peephole.Fault
import Peephole.Handle
import Peephole.Location
import Peephole.Node
import Peephole.Op
import Peephole.Options
import Peephole.Print
import Peephole.Refine.Blocks
import Peephole.Refine.Coerce
import Peephole.Refine.Expr
import Peephole.Refine.Fold
import Peephole.Refine.Identity
import Peephole.Refine.Memory
import Peephole.Refine.Outcome
import Peephole.Refine.Ownership
import Peephole.Refine.Phi
import Peephole.Refine.Setting
import Peephole.Refine.Settle
import Peephole.Refine.Statement
import Peephole.Refine.Unary
import Peephole.Region
import Peephole.Release
import Peephole.Scalar
import Peephole.Ssa
import Peephole.Text.Decimal
import Peephole.Text.Printable
import Peephole.Text.Quoted
import Peephole.Tree
import Peephole.Ty
import Peephole.Validate
import Peephole.Value
import Peephole.Walk
import Peephole.Word
import Peephole.Proofs.Run
import Peephole.Proofs.Term
import Peephole.Proofs.Simplify
import Peephole.Proofs.Grove
import Peephole.Proofs.Quiet
import Peephole.Proofs.Shape
import Peephole.Proofs.Spelling
import Peephole.Proofs.Places
import Peephole.Proofs.Stands
import Peephole.Proofs.Moves
import Peephole.Proofs.Copies
import Peephole.Proofs.Binary
import Peephole.Proofs.Folding
import Peephole.Proofs.Identities
import Peephole.Proofs.Settling
import Peephole.Proofs.Passes
import Peephole.Proofs.Expressions
import Peephole.Proofs.Statements
import Peephole.Proofs.StoreLists
import Peephole.Proofs.Invariant
import Peephole.Proofs.Composition
import Peephole.Proofs.Steady
import Peephole.Proofs.Accesses
import Peephole.Proofs.Clones
import Peephole.Proofs.Justified
import Peephole.Proofs.Balance
import Peephole.Proofs.Coercions
import Peephole.Proofs.Convergence
import Peephole.Proofs.Custody
import Peephole.Proofs.Normalization
import Peephole.Proofs.Leniency
import Peephole.Proofs.Validity
import Peephole.Proofs.Idempotence
import Peephole.Proofs.Values
import Peephole.Proofs.Branching
import Peephole.Proofs.Merging
import Peephole.Proofs.SelfStores
import Peephole.Proofs.OperandOrder
import Peephole.Proofs.Dropping
import Peephole.Proofs.MatchingPhis
import Peephole.Proofs.UniformPhis
import Peephole.Proofs.Stages
import Peephole.Proofs.CapEvents
import Peephole.Proofs.NestedLists
import Peephole.Proofs.Mirrors
import Peephole.Proofs.Transfers
import Peephole.Proofs.Arithmetic
import Peephole.Proofs.Rosters
import Peephole.Proofs.Refolding
