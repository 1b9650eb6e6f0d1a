import KernelForge.Stmt
/-!
# Render errors and diagnostics

A render error stops the rendering of a statement tree. A diagnostic reports a misuse of the
statement language in a tree that has a rendering all the same.
-/
namespace KernelForge

/-- Why a node that exists has no text in its place. -/
inductive Unhandled
  /-- A declaration of something other than a leaf. -/
  | targetNotVariable
  /-- A declaration of a leaf without a declaration text. -/
  | targetNotDeclarable
  /-- A call whose argument range lies outside the list storage. -/
  | argumentsNotStored
  deriving DecidableEq

def Unhandled.text : Unhandled → String
  | targetNotVariable => "only variables can be declared"
  | targetNotDeclarable => "a literal cannot be declared"
  | argumentsNotStored => "call arguments are not stored in this arena"

inductive RenderError
  | unknownNode (id : NodeId)
  | unhandledNode (id : NodeId) (reason : Unhandled)
  /-- A node names an operand that is not older than itself. -/
  | forwardReference (parent child : NodeId)
  /-- The first arm of an `if` chain has no condition. -/
  | missingCondition
  | nestingTooDeep (limit : Nat)
  deriving DecidableEq

def RenderError.message : RenderError → String
  | unknownNode id => "expression " ++ id.text ++ " does not exist in this kernel"
  | unhandledNode id reason => "unhandled node " ++ id.text ++ ": " ++ reason.text
  | forwardReference parent child =>
    "expression " ++ parent.text ++ " refers to later expression " ++ child.text ++
      " (cyclic tree?)"
  | missingCondition => "first arm of an if chain has no condition"
  | nestingTooDeep limit => "nesting exceeds the limit of " ++ toString limit ++ " levels"

inductive Diagnostic
  | emptyBody (construct : Construct)
  /-- An `if` chain without arms, for which nothing is written. -/
  | emptyIf
  /-- A switch with neither a case nor a default. -/
  | emptySwitch
  /-- An `else` that further arms follow. -/
  | misplacedElse (position : Nat)
  | multipleElse (count : Nat)
  deriving DecidableEq

def Diagnostic.message : Diagnostic → String
  | emptyBody c => "empty body in `" ++ c.name ++ "`"
  | emptyIf => "`if` without any branches was skipped"
  | emptySwitch => "`switch` without cases or default"
  | misplacedElse position =>
    "`else` at position " ++ toString position ++ " is not the last branch"
  | multipleElse count => "`if` chain has " ++ toString count ++ " `else` branches"

end KernelForge
