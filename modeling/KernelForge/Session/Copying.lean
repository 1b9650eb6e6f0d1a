import KernelForge.Session.Context
import KernelForge.Stmt
/-!
# Copying between contexts

An expression of one context can be used in another: its nodes are copied. Named variables are found
by name in the receiving context, so that a name stays one node there. Each node is copied once,
operands before the nodes that use them, in ascending order of their ids. A statement is copied with
one memory for all its expressions.
-/
namespace KernelForge

namespace Arena

/-- Marks the operands of every marked node below `bound`, from the highest id down, save those
that are `known`. Operands are older than their nodes, so one sweep marks all that is below. -/
def sweep (a : Arena) (known : NodeId → Bool) : Nat → Array Bool → Array Bool
  | 0, marks => marks
  | i + 1, marks =>
    if marks[i]?.getD false then
      let operands := ((a.get? ⟨i⟩).elim [] a.operands).filter fun id => !known id
      a.sweep known i (operands.foldl (fun m id => m.setIfInBounds id.index true) marks)
    else a.sweep known i marks

/-- The nodes at or below `root` that are not known, in ascending order. -/
def reachable (a : Arena) (known : NodeId → Bool) (root : NodeId) : List NodeId :=
  let bound := min (root.index + 1) a.size
  let marks := a.sweep known bound ((Array.replicate bound false).setIfInBounds root.index true)
  ((List.range bound).filter fun i => marks[i]?.getD false).map NodeId.mk

/-- Appends a list that is known to be short enough for a range. -/
def appendList (a : Arena) (ids : List NodeId) : ArgRange × Arena :=
  let range := if ids.isEmpty then .empty else ⟨a.arguments.size, ids.length⟩
  (range, { a with arguments := a.arguments ++ ids })

end Arena

/-- For each id of the source the id of its copy, once there is one. -/
abbrev Copies := Array (Option NodeId)

namespace Copies

/-- The copy of a node, if there is one. -/
def copy? (copies : Copies) (id : NodeId) : Option NodeId := (copies[id.index]?).join

/-- An id without a copy dangles, and so does its image. -/
def image (copies : Copies) (id : NodeId) : NodeId := (copies.copy? id).getD .invalid

/-- The node with every operand replaced by its copy. -/
def rename (copies : Copies) : Node → Node
  | .declare a => .declare (copies.image a)
  | .assign a b => .assign (copies.image a) (copies.image b)
  | .index a b => .index (copies.image a) (copies.image b)
  | .binary op a b => .binary op (copies.image a) (copies.image b)
  | .unary op a => .unary op (copies.image a)
  | node => node

/-- Copies a node whose operands have copies already. -/
def copyNode (copies : Copies) (source : Arena) (target : Context) : Node → NodeId × Context
  | .leaf v => target.receive v
  | .call callee args =>
    let ids := ((source.list? args).getD []).map copies.image
    let (range, arena) := target.arena.appendList ids
    { target with arena }.alloc (.call callee range)
  | node => target.alloc (copies.rename node)

end Copies

/-- The receiving context and the copies made so far. -/
structure Copying where
  target : Context
  copies : Copies

namespace Copying

def start (source : Arena) (target : Context) : Copying :=
  ⟨target, Array.replicate source.size none⟩

/-- Copies one node and remembers its copy. -/
def step (source : Arena) (m : Copying) (id : NodeId) : Copying :=
  match source.get? id, m with
  | none, m => m
  | some node, ⟨target, copies⟩ =>
    let (copy, target) := copies.copyNode source target node
    ⟨target, copies.setIfInBounds id.index (some copy)⟩

/-- The nodes at or below `root` without a copy, in ascending order. -/
def missing (source : Arena) (copies : Copies) (root : NodeId) : List NodeId :=
  if (copies.copy? root).isSome then []
  else source.reachable (fun id => (copies.copy? id).isSome) root

/-- Copies what is below `root` and has no copy yet. -/
def expr (source : Arena) (root : NodeId) : StateM Copying NodeId := fun m =>
  let m := (missing source m.copies root).foldl (step source) m
  (m.copies.image root, m)

mutual

/-- Copies a statement, its expressions in the order in which it names them. -/
def stmt (source : Arena) : Stmt → StateM Copying Stmt
  | .expr id => return .expr (← expr source id)
  | .forLoop init cond step body => do
    let init ← expr source init
    let cond ← expr source cond
    let step ← expr source step
    return .forLoop init cond step (← stmts source body)
  | .whileLoop cond body => do
    let cond ← expr source cond
    return .whileLoop cond (← stmts source body)
  | .ifChain arms => return .ifChain (← branches source arms)
  | .switch subject arms default => do
    let subject ← expr source subject
    let arms ← cases source arms
    match default with
    | none => return .switch subject arms none
    | some body => return .switch subject arms (some (← stmts source body))
  | .function signature params body =>
    return .function signature params (← stmts source body)
  | .comment text => return .comment text
  | .includeFile path => return .includeFile path

def stmts (source : Arena) : List Stmt → StateM Copying (List Stmt)
  | [] => return []
  | s :: rest => do
    let s ← stmt source s
    return s :: (← stmts source rest)

def branches (source : Arena) : List Branch → StateM Copying (List Branch)
  | [] => return []
  | ⟨none, body⟩ :: rest => do
    let body ← stmts source body
    return ⟨none, body⟩ :: (← branches source rest)
  | ⟨some cond, body⟩ :: rest => do
    let cond ← expr source cond
    let body ← stmts source body
    return ⟨some cond, body⟩ :: (← branches source rest)

def cases (source : Arena) : List SwitchCase → StateM Copying (List SwitchCase)
  | [] => return []
  | ⟨value, body⟩ :: rest => do
    let value ← expr source value
    let body ← stmts source body
    return ⟨value, body⟩ :: (← cases source rest)

end

end Copying

namespace Context

/-- Copies an expression of another context's arena. -/
def copyExpr (c : Context) (source : Arena) (root : NodeId) : NodeId × Context :=
  let (id, m) := Copying.expr source root (.start source c)
  (id, m.target)

/-- Copies a statement whose expressions live in another context's arena. -/
def copyStmt (c : Context) (source : Arena) (s : Stmt) : Stmt × Context :=
  let (s, m) := Copying.stmt source s (.start source c)
  (s, m.target)

end Context

end KernelForge
