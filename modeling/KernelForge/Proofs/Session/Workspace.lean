import KernelForge.Session.Control
import KernelForge.Session.Expression
import KernelForge.Session.Kernel

/-!
# Workspaces

A workspace is a session in use: the session and what the actions on it have answered so far. An
action names the answers of earlier actions by their positions and so cannot make up a handle or a
statement. An action that names what is not there, or an answer of another sort, is not performed.
-/
namespace KernelForge

/-- The operand of an action: the answer of an earlier one, or a constant. -/
inductive Argument
  | answer (label : Nat)
  | literal (value : Literal)

/-- A condition or a case value, and the labels of the statements that belong to it. -/
abbrev Arm := Argument × List Nat

inductive Action
  | intern (c : Nat) (name : String) (shape : Shape)
  | tryIntern (c : Nat) (name : String) (shape : Shape)
  | lookup (c : Nat) (name : String)
  | update (c a : Nat) (change : Variable → Variable)
  | literal (c : Nat) (value : Literal)
  | slot (c : Nat) (slot : Slot)
  | call (c : Nat) (callee : Signature) (args : List Argument)
  | declare (a : Nat)
  | unary (op : UnaryOp) (a : Nat)
  | binary (op : BinaryOp) (a : Nat) (b : Argument)
  | binaryLiteral (op : BinaryOp) (a : Literal) (b : Nat)
  | assign (a : Nat) (b : Argument)
  | index (a : Nat) (b : Argument)
  | exprStatement (a : Nat)
  | comment (text : String)
  | includeFile (path : HeaderPath)
  | forLoop (c : Nat) (init cond step : Argument) (body : List Nat)
  | whileLoop (c : Nat) (cond : Argument) (body : List Nat)
  | ifChain (c : Nat) (first : Arm) (others : List Arm) (otherwise : Option (List Nat))
  /-- A chain may also be built arm by arm, with other actions in between. -/
  | openChain (c : Nat) (first : Arm)
  | elseIf (chain : Nat) (arm : Arm)
  | closeChain (chain : Nat) (otherwise : Option (List Nat))
  | switch (c : Nat) (subject : Argument) (cases : List Arm) (default : Option (List Nat))
  /-- So may a switch. -/
  | openSwitch (c : Nat) (subject : Argument)
  | addCase (switch : Nat) (arm : Arm)
  | closeSwitch (switch : Nat) (default : Option (List Nat))
  | function (c : Nat) (signature : Signature) (params : List Slot) (body : List Nat)
  | kernel (c : Nat) (body : List Nat) (options : RenderOptions)

inductive Answer
  | handle (h : Handle)
  | statement (st : Statement)
  | chain (c : Nat) (arms : List Branch)
  | switch (c : Nat) (subject : NodeId) (cases : List SwitchCase)
  | refused (e : SymbolError)
  | tooMany (e : TooManyArguments)
  | kernel (r : Except RenderError Kernel)
  | nothing

structure Workspace where
  session : Session
  answers : List Answer

namespace Workspace

/-- A workspace with an empty context for each provenance. -/
def new (role : Role) (provenances : List String) : Workspace := ⟨.new role provenances, []⟩

/-! ## What labels stand for -/

def context? (w : Workspace) (c : Nat) : Option Nat :=
  if c < w.session.contexts.size then some c else none

def handle? (w : Workspace) (label : Nat) : Option Handle :=
  match w.answers[label]? with
  | some (.handle h) => some h
  | _ => none

def operand? (w : Workspace) : Argument → Option Operand
  | .answer label => (w.handle? label).map .handle
  | .literal v => some (.literal v)

/-- A handle can stand as a statement. -/
def statement? (w : Workspace) (label : Nat) : Option Statement :=
  match w.answers[label]? with
  | some (.statement st) => some st
  | some (.handle h) => some (Session.exprStatement h)
  | _ => none

def body? (w : Workspace) (labels : List Nat) : Option (List Statement) :=
  labels.mapM w.statement?

def arm? (w : Workspace) (arm : Arm) : Option (Operand × List Statement) := do
  return (← w.operand? arm.1, ← w.body? arm.2)

/-- The last arm of a chain or a switch, which there may not be. -/
def last? (w : Workspace) : Option (List Nat) → Option (Option (List Statement))
  | none => some none
  | some labels => (w.body? labels).map some

def chain? (w : Workspace) (label : Nat) : Option (Nat × List Branch) :=
  match w.answers[label]? with
  | some (.chain c arms) => some (c, arms)
  | _ => none

def switch? (w : Workspace) (label : Nat) : Option (Nat × NodeId × List SwitchCase) :=
  match w.answers[label]? with
  | some (.switch c subject cases) => some (c, subject, cases)
  | _ => none

/-! ## What actions do -/

def ofSymbol : Except SymbolError Handle → Answer
  | .ok h => .handle h
  | .error e => .refused e

def ofUpdate : Except SymbolError Unit → Answer
  | .ok () => .nothing
  | .error e => .refused e

def ofCall : Except TooManyArguments Handle → Answer
  | .ok h => .handle h
  | .error e => .tooMany e

def extendChain (c : Nat) (arms : List Branch) (arm : Operand × List Statement) : Build Answer := do
  return .chain c (arms ++ [← Session.branch c arm])

def finishChain (c : Nat) (arms : List Branch) : Option (List Statement) → Build Answer
  | none => return .statement ⟨some c, .ifChain arms⟩
  | some body => do
    return .statement ⟨some c, .ifChain (arms ++ [⟨none, ← Session.absorb c body⟩])⟩

def extendSwitch (c : Nat) (subject : NodeId) (cases : List SwitchCase)
    (arm : Operand × List Statement) : Build Answer := do
  return .switch c subject (cases ++ [← Session.switchCase c arm])

def finishSwitch (c : Nat) (subject : NodeId) (cases : List SwitchCase) :
    Option (List Statement) → Build Answer
  | none => return .statement ⟨some c, .switch subject cases none⟩
  | some body => do
    return .statement ⟨some c, .switch subject cases (some (← Session.absorb c body))⟩

/-- The build of an action, if all that it names is there. -/
def build? (w : Workspace) : Action → Option (Build Answer)
  | .intern c name shape => do
    let c ← w.context? c
    return .handle <$> Session.intern c name shape
  | .tryIntern c name shape => do
    let c ← w.context? c
    return ofSymbol <$> Session.tryIntern c name shape
  | .lookup c name => do
    let c ← w.context? c
    return pure ((w.session.lookup c name).elim .nothing .handle)
  | .update c a change => do
    let c ← w.context? c
    let a ← w.handle? a
    return ofUpdate <$> Session.modifyVariable c a change
  | .literal c value => do
    let c ← w.context? c
    return .handle <$> Session.literal c value
  | .slot c slot => do
    let c ← w.context? c
    return .handle <$> Session.slot c slot
  | .call c callee args => do
    let c ← w.context? c
    let args ← args.mapM w.operand?
    return ofCall <$> Session.call c callee args
  | .declare a => do
    let a ← w.handle? a
    return .handle <$> Session.declare a
  | .unary op a => do
    let a ← w.handle? a
    return .handle <$> Session.unary op a
  | .binary op a b => do
    let a ← w.handle? a
    let b ← w.operand? b
    return .handle <$> Session.binary op a b
  | .binaryLiteral op a b => do
    let b ← w.handle? b
    return .handle <$> Session.binaryLiteral op a b
  | .assign a b => do
    let a ← w.handle? a
    let b ← w.operand? b
    return .handle <$> Session.assign a b
  | .index a b => do
    let a ← w.handle? a
    let b ← w.operand? b
    return .handle <$> Session.index a b
  | .exprStatement a => do
    let a ← w.handle? a
    return pure (.statement (Session.exprStatement a))
  | .comment text => some (pure (.statement (Session.comment text)))
  | .includeFile (.system path) => some (pure (.statement (Session.includeSystem path)))
  | .includeFile (.localFile path) => some (pure (.statement (Session.includeLocal path)))
  | .forLoop c init cond step body => do
    let c ← w.context? c
    let init ← w.operand? init
    let cond ← w.operand? cond
    let step ← w.operand? step
    let body ← w.body? body
    return .statement <$> Session.forLoop c init cond step body
  | .whileLoop c cond body => do
    let c ← w.context? c
    let cond ← w.operand? cond
    let body ← w.body? body
    return .statement <$> Session.whileLoop c cond body
  | .ifChain c first others otherwise => do
    let c ← w.context? c
    let first ← w.arm? first
    let others ← others.mapM w.arm?
    let otherwise ← w.last? otherwise
    return .statement <$> Session.ifChain c first others otherwise
  | .openChain c first => do
    let c ← w.context? c
    let first ← w.arm? first
    return extendChain c [] first
  | .elseIf chain arm => do
    let (c, arms) ← w.chain? chain
    let arm ← w.arm? arm
    return extendChain c arms arm
  | .closeChain chain otherwise => do
    let (c, arms) ← w.chain? chain
    let otherwise ← w.last? otherwise
    return finishChain c arms otherwise
  | .switch c subject cases default => do
    let c ← w.context? c
    let subject ← w.operand? subject
    let cases ← cases.mapM w.arm?
    let default ← w.last? default
    return .statement <$> Session.switch c subject cases default
  | .openSwitch c subject => do
    let c ← w.context? c
    let subject ← w.operand? subject
    return (fun subject => .switch c subject []) <$> Session.attach c subject
  | .addCase switch arm => do
    let (c, subject, cases) ← w.switch? switch
    let arm ← w.arm? arm
    return extendSwitch c subject cases arm
  | .closeSwitch switch default => do
    let (c, subject, cases) ← w.switch? switch
    let default ← w.last? default
    return finishSwitch c subject cases default
  | .function c signature params body => do
    let c ← w.context? c
    let body ← w.body? body
    return .statement <$> Session.function c signature params body
  | .kernel c body options => do
    let c ← w.context? c
    let body ← w.body? body
    return .kernel <$> Session.kernel c body options

/-- Performs an action. Its answer is the last one from now on. -/
def step (w : Workspace) (action : Action) : Workspace :=
  match w.build? action with
  | none => { w with answers := w.answers ++ [.nothing] }
  | some build =>
    let (answer, session) := build w.session
    ⟨session, w.answers ++ [answer]⟩

def run (w : Workspace) (actions : List Action) : Workspace := actions.foldl step w

@[simp] theorem run_nil (w : Workspace) : w.run [] = w := rfl

@[simp] theorem run_cons (w : Workspace) (action : Action) (actions : List Action) :
    w.run (action :: actions) = (w.step action).run actions := rfl

theorem run_append (w : Workspace) (actions more : List Action) :
    w.run (actions ++ more) = (w.run actions).run more := List.foldl_append

end Workspace

end KernelForge
