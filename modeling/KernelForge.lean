import KernelForge.CommandLine.Run
import KernelForge.Main
import KernelForge.Proofs.Expr.Reach
import KernelForge.Proofs.Render.Expression
import KernelForge.Proofs.Session.Growth
import KernelForge.Render.Program
import KernelForge.Store.FileTree
import KernelForge.Proofs.Session.Copying
import KernelForge.Proofs.Session.StatementCopy
import KernelForge.Proofs.Session.Builds
import KernelForge.Proofs.Session.Operations
import KernelForge.Proofs.Session.Workspace
import KernelForge.Proofs.Session.Steps
import KernelForge.Proofs.Session.Soundness
import KernelForge.Proofs.Render.Mirror
import KernelForge.Proofs.Session.Resolution
import KernelForge.Proofs.Session.Import
import KernelForge.Proofs.Store.Index
import KernelForge.Proofs.Store.Paths
import KernelForge.Proofs.Store.Directory
import KernelForge.Proofs.Store.Names
import KernelForge.Proofs.Store.Programs
import KernelForge.Proofs.Store.Ledger
import KernelForge.Proofs.Store.SharedStore
import KernelForge.Proofs.Store.Sharing
import KernelForge.Proofs.Stmt.Outline
import KernelForge.Proofs.Render.Layout
import KernelForge.Proofs.Expr.Term
import KernelForge.Proofs.Render.Term
import KernelForge.Proofs.Session.TermCopy
import KernelForge.Proofs.Stmt.Tidy
import KernelForge.Proofs.Session.Tidiness
import KernelForge.Proofs.Session.TidyAnswers
import KernelForge.Proofs.Session.Kernels
import KernelForge.Proofs.Session.Agreement
import KernelForge.Proofs.Session.Meaning
import KernelForge.Proofs.Session.Builders
import KernelForge.Proofs.Session.Splitting
import KernelForge.Proofs.Render.Alike
import KernelForge.Proofs.Session.Interpretation
import KernelForge.Proofs.Text.Words
import KernelForge.Proofs.Render.Reading
import KernelForge.Proofs.Render.Bare
import KernelForge.Proofs.Render.Marks
import KernelForge.Proofs.Render.Blocks
import KernelForge.Proofs.Render.Independence
import KernelForge.Proofs.Render.Acceptance
import KernelForge.Proofs.Render.Diagnostics
import KernelForge.Proofs.Render.Frame
import KernelForge.Proofs.Session.Stability
import KernelForge.Proofs.Render.Limits
import KernelForge.Proofs.Render.Columns
import KernelForge.Proofs.Store.Texts
import KernelForge.Proofs.Store.Failures
import KernelForge.Proofs.Render.Defects
import KernelForge.Proofs.Session.Counting
import KernelForge.Proofs.Session.Intake
import KernelForge.Proofs.Session.Entries
import KernelForge.Proofs.Session.Interning
import KernelForge.Proofs.Session.Redeclaration
import KernelForge.Proofs.Render.Pieces
import KernelForge.Proofs.Text.Translation
import KernelForge.Proofs.Render.Comments
import KernelForge.Proofs.Text.Tokens
import KernelForge.Proofs.Render.Tokens
import KernelForge.Proofs.Store.Places
import KernelForge.Proofs.Store.Separation
import KernelForge.Proofs.Store.Outcomes
import KernelForge.Proofs.Store.Histories
import KernelForge.Proofs.Store.Purging
import KernelForge.Proofs.Decimal.Literals
import KernelForge.Proofs.Store.Encoding
import KernelForge.Proofs.Store.Overwriting
import KernelForge.Proofs.Store.Corruption
import KernelForge.Proofs.Render.Acts
import KernelForge.Proofs.Render.Depth
import KernelForge.Proofs.CommandLine.Groups
import KernelForge.Proofs.CommandLine.Parsing
import KernelForge.Proofs.Expr.Permanence
import KernelForge.Proofs.Expr.Worklist
import KernelForge.Proofs.Text.Hex
import KernelForge.Proofs.Store.Keys
