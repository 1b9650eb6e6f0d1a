import KernelForge.Session.Basic
/-!
# Building statements

Each builder takes its operands into its context first and the statements of its bodies after them,
arm by arm. An `else` can only be the last arm of a chain.
-/
namespace KernelForge.Session

/-- An expression as a statement of its own context. -/
def exprStatement (a : Handle) : Statement := ⟨some a.context, .expr a.node⟩

def comment (text : String) : Statement := ⟨none, .comment text⟩

def includeSystem (path : String) : Statement := ⟨none, .includeFile (.system path)⟩

def includeLocal (path : String) : Statement := ⟨none, .includeFile (.localFile path)⟩

def forLoop (c : Nat) (init cond step : Operand) (body : List Statement) : Build Statement := do
  let init ← attach c init
  let cond ← attach c cond
  let step ← attach c step
  return ⟨some c, .forLoop init cond step (← absorb c body)⟩

def whileLoop (c : Nat) (cond : Operand) (body : List Statement) : Build Statement := do
  let cond ← attach c cond
  return ⟨some c, .whileLoop cond (← absorb c body)⟩

/-- An arm with a condition. -/
def branch (c : Nat) (arm : Operand × List Statement) : Build Branch := do
  let cond ← attach c arm.1
  return ⟨some cond, ← absorb c arm.2⟩

/-- A chain of a first arm, further arms with conditions, and possibly a last arm without one. -/
def ifChain (c : Nat) (first : Operand × List Statement) (others : List (Operand × List Statement))
    (otherwise : Option (List Statement)) : Build Statement := do
  let arms ← (first :: others).mapM (branch c)
  match otherwise with
  | none => return ⟨some c, .ifChain arms⟩
  | some body => return ⟨some c, .ifChain (arms ++ [⟨none, ← absorb c body⟩])⟩

def switchCase (c : Nat) (arm : Operand × List Statement) : Build SwitchCase := do
  let value ← attach c arm.1
  return ⟨value, ← absorb c arm.2⟩

def switch (c : Nat) (subject : Operand) (cases : List (Operand × List Statement))
    (default : Option (List Statement)) : Build Statement := do
  let subject ← attach c subject
  let cases ← cases.mapM (switchCase c)
  match default with
  | none => return ⟨some c, .switch subject cases none⟩
  | some body => return ⟨some c, .switch subject cases (some (← absorb c body))⟩

/-- The definition of a function whose parameters are the given slots. -/
def function (c : Nat) (signature : Signature) (params : List Slot) (body : List Statement) :
    Build Statement := do
  return ⟨some c, .function signature params (← absorb c body)⟩

def kernelMain (c : Nat) (body : List Statement) : Build Statement := function c .kernelMain [] body

end KernelForge.Session
