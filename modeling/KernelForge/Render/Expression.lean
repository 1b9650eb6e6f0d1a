import KernelForge.Expr.Arena
import KernelForge.Render.Error
/-!
# Expression text

Renders the expression below a node of an arena. An arena may hold anything, so every id is checked
before it is followed: it has to be older than the node that names it, and the walk goes no deeper
than a limit. The first check makes every walk end, the second one bounds its depth.
-/
namespace KernelForge

namespace Arena

/-- The node of an id that `parent` names, or of a root if there is no parent. -/
def follow (a : Arena) (parent : Option NodeId) (id : NodeId) : Except RenderError Node :=
  match parent with
  | some p =>
    if p.index ≤ id.index then .error (.forwardReference p id)
    else (a.get? id).elim (.error (.unknownNode id)) .ok
  | none => (a.get? id).elim (.error (.unknownNode id)) .ok

/-- The declaration of the variable that `target` holds. -/
def declarationText (a : Arena) (parent target : NodeId) : Except RenderError String :=
  match a.follow (some parent) target with
  | .error e => .error e
  | .ok node =>
    match node.content? with
    | none => .error (.unhandledNode target .targetNotVariable)
    | some v => v.declaration?.elim (.error (.unhandledNode target .targetNotDeclarable)) .ok

end Arena

/-- A minus in front of another minus keeps a blank, since `--` is an operator of its own. -/
def negated (operand : String) : String :=
  if operand.startsWith '-' then "- " ++ operand else "-" ++ operand

/-- The text of an operator over the text of its operand. -/
def UnaryOp.applied : UnaryOp → String → String
  | neg, operand => negated operand
  | not, operand => "!" ++ operand
  | paren, operand => "( " ++ operand ++ " )"

def callText (name : String) (args : List String) : String :=
  if args.isEmpty then name ++ "()" else name ++ "( " ++ " , ".intercalate args ++ " )"

namespace Arena

/-- Renders a node that may still have `levels` levels of nodes, its own included. `limit` is the
limit that an error reports. -/
def renderWithin (a : Arena) (limit : Nat) :
    Nat → Option NodeId → NodeId → Except RenderError String
  | 0, _, _ => .error (.nestingTooDeep limit)
  | levels + 1, parent, id => do
    let child := a.renderWithin limit levels (some id)
    match ← a.follow parent id with
    | .leaf v => return v.text
    | .declare target => a.declarationText id target
    | .assign target value =>
      let t ← child target
      let v ← child value
      return t ++ " = " ++ v
    | .index base index =>
      let b ← child base
      let i ← child index
      return b ++ " [ " ++ i ++ " ]"
    | .binary op left right =>
      let l ← child left
      let r ← child right
      return l ++ " " ++ op.symbol ++ " " ++ r
    | .unary op operand =>
      let o ← child operand
      return op.applied o
    | .call callee args =>
      match a.list? args with
      | none => throw (.unhandledNode id .argumentsNotStored)
      | some ids =>
        let texts ← ids.mapM child
        return callText callee.name texts

/-- The text of the expression below `root`. Nodes more than `limit` steps below it are an error. -/
def renderExpr (a : Arena) (root : NodeId) (limit : Nat) : Except RenderError String :=
  a.renderWithin limit (limit + 1) none root

end Arena

end KernelForge
