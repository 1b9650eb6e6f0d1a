import KernelForge.Expr.Node
/-!
# Statements

Statements own their bodies; only expressions live in the arena.
-/
namespace KernelForge

inductive HeaderPath
  | system (path : String)
  | localFile (path : String)
  deriving DecidableEq

def HeaderPath.text : HeaderPath → String
  | system path => "<" ++ path ++ ">"
  | localFile path => "\"" ++ path ++ "\""

mutual

inductive Stmt
  | expr (id : NodeId)
  | forLoop (init cond step : NodeId) (body : List Stmt)
  | whileLoop (cond : NodeId) (body : List Stmt)
  | ifChain (branches : List Branch)
  | switch (subject : NodeId) (cases : List SwitchCase) (default : Option (List Stmt))
  | function (signature : Signature) (params : List Slot) (body : List Stmt)
  | comment (text : String)
  | includeFile (path : HeaderPath)

/-- One arm of an `if` chain. An arm without a condition is the `else`. -/
inductive Branch
  | mk (cond : Option NodeId) (body : List Stmt)

inductive SwitchCase
  | mk (value : NodeId) (body : List Stmt)

end

def Branch.cond : Branch → Option NodeId
  | .mk cond _ => cond

def Branch.body : Branch → List Stmt
  | .mk _ body => body

def SwitchCase.value : SwitchCase → NodeId
  | .mk value _ => value

def SwitchCase.body : SwitchCase → List Stmt
  | .mk _ body => body

/-- The constructs of the statement language. `caseArm` and `defaultArm` are parts of a switch. -/
inductive Construct
  | expression
  | forLoop
  | whileLoop
  | ifChain
  | switch
  | function
  | comment
  | includeFile
  | caseArm
  | defaultArm
  deriving DecidableEq

def Construct.name : Construct → String
  | expression => "expression"
  | forLoop => "for"
  | whileLoop => "while"
  | ifChain => "if"
  | switch => "switch"
  | function => "function"
  | comment => "comment"
  | includeFile => "include"
  | caseArm => "case"
  | defaultArm => "default"

def Stmt.construct : Stmt → Construct
  | expr _ => .expression
  | forLoop .. => .forLoop
  | whileLoop .. => .whileLoop
  | ifChain _ => .ifChain
  | switch .. => .switch
  | function .. => .function
  | comment _ => .comment
  | includeFile _ => .includeFile

end KernelForge
