import KernelForge.Proofs.Stmt.Roots
import KernelForge.Render.Statement

/-!
# Outlines

An outline is a statement tree with something else in the places of its expressions: what they
render to, what they stand for, or nothing at all. A function is known by its header line. Statements
with one outline have the same blocks, and so the same depth and the same kinds of branches.
-/
namespace KernelForge

mutual

inductive Outline (α : Type)
  | expr (e : α)
  | forLoop (init cond step : α) (body : List (Outline α))
  | whileLoop (cond : α) (body : List (Outline α))
  | ifChain (arms : List (Outline.Arm α))
  | switch (subject : α) (cases : List (Outline.Case α)) (default : Option (List (Outline α)))
  | function (header : String) (body : List (Outline α))
  | comment (text : String)
  | includeFile (path : HeaderPath)

inductive Outline.Arm (α : Type)
  | mk (cond : Option α) (body : List (Outline α))

inductive Outline.Case (α : Type)
  | mk (value : α) (body : List (Outline α))

end

section

variable {α β : Type}

mutual

/-- The outline of a statement, given what stands for each expression. -/
def Stmt.outline (f : NodeId → α) : Stmt → Outline α
  | .expr id => .expr (f id)
  | .forLoop init cond step body =>
    .forLoop (f init) (f cond) (f step) (Stmt.outlineAll f body)
  | .whileLoop cond body => .whileLoop (f cond) (Stmt.outlineAll f body)
  | .ifChain arms => .ifChain (Branch.outlineAll f arms)
  | .switch subject cases none => .switch (f subject) (SwitchCase.outlineAll f cases) none
  | .switch subject cases (some body) =>
    .switch (f subject) (SwitchCase.outlineAll f cases) (some (Stmt.outlineAll f body))
  | .function signature params body =>
    .function (functionHeader signature params) (Stmt.outlineAll f body)
  | .comment text => .comment text
  | .includeFile path => .includeFile path

def Stmt.outlineAll (f : NodeId → α) : List Stmt → List (Outline α)
  | [] => []
  | s :: rest => s.outline f :: Stmt.outlineAll f rest

def Branch.outlineAll (f : NodeId → α) : List Branch → List (Outline.Arm α)
  | [] => []
  | ⟨cond, body⟩ :: rest => ⟨cond.map f, Stmt.outlineAll f body⟩ :: Branch.outlineAll f rest

def SwitchCase.outlineAll (f : NodeId → α) : List SwitchCase → List (Outline.Case α)
  | [] => []
  | ⟨value, body⟩ :: rest => ⟨f value, Stmt.outlineAll f body⟩ :: SwitchCase.outlineAll f rest

end

/-- A statement without its expressions. -/
def Stmt.skeleton (s : Stmt) : Outline Unit := s.outline fun _ => ()

namespace Outline

mutual

/-- The same outline with other expressions. -/
def map (f : α → β) : Outline α → Outline β
  | expr e => expr (f e)
  | forLoop init cond step body => forLoop (f init) (f cond) (f step) (mapAll f body)
  | whileLoop cond body => whileLoop (f cond) (mapAll f body)
  | ifChain arms => ifChain (Arm.mapAll f arms)
  | switch subject cases none => switch (f subject) (Case.mapAll f cases) none
  | switch subject cases (some body) =>
    switch (f subject) (Case.mapAll f cases) (some (mapAll f body))
  | function header body => function header (mapAll f body)
  | comment text => comment text
  | includeFile path => includeFile path

def mapAll (f : α → β) : List (Outline α) → List (Outline β)
  | [] => []
  | s :: rest => s.map f :: mapAll f rest

def Arm.mapAll (f : α → β) : List (Arm α) → List (Arm β)
  | [] => []
  | ⟨cond, body⟩ :: rest => ⟨cond.map f, Outline.mapAll f body⟩ :: Arm.mapAll f rest

def Case.mapAll (f : α → β) : List (Case α) → List (Case β)
  | [] => []
  | ⟨value, body⟩ :: rest => ⟨f value, Outline.mapAll f body⟩ :: Case.mapAll f rest

end

mutual

/-- The number of blocks around the innermost one. A switch is a block, and each of its arms is one
inside it. -/
def nesting : Outline α → Nat
  | forLoop _ _ _ body | whileLoop _ body | function _ body => nestingAll body + 1
  | ifChain arms => Arm.nestingAll arms
  | switch _ cases none => Case.nestingAll cases + 1
  | switch _ cases (some body) => max (Case.nestingAll cases) (nestingAll body + 1) + 1
  | expr _ | comment _ | includeFile _ => 0

def nestingAll : List (Outline α) → Nat
  | [] => 0
  | s :: rest => max s.nesting (nestingAll rest)

def Arm.nestingAll : List (Arm α) → Nat
  | [] => 0
  | ⟨_, body⟩ :: rest => max (Outline.nestingAll body + 1) (Arm.nestingAll rest)

def Case.nestingAll : List (Case α) → Nat
  | [] => 0
  | ⟨_, body⟩ :: rest => max (Outline.nestingAll body + 1) (Case.nestingAll rest)

end

def Arm.cond : Arm α → Option α
  | ⟨cond, _⟩ => cond

/-- The first arm of a chain, if there is one, has a condition. -/
def StartsConditional : List (Arm α) → Prop
  | [] => True
  | arm :: _ => arm.cond.isSome

mutual

/-- Every `if` chain inside starts with a condition. -/
def Headed : Outline α → Prop
  | forLoop _ _ _ body | whileLoop _ body | function _ body => HeadedAll body
  | ifChain arms => StartsConditional arms ∧ Arm.HeadedAll arms
  | switch _ cases none => Case.HeadedAll cases
  | switch _ cases (some body) => Case.HeadedAll cases ∧ HeadedAll body
  | expr _ | comment _ | includeFile _ => True

def HeadedAll : List (Outline α) → Prop
  | [] => True
  | s :: rest => s.Headed ∧ HeadedAll rest

def Arm.HeadedAll : List (Arm α) → Prop
  | [] => True
  | ⟨_, body⟩ :: rest => Outline.HeadedAll body ∧ Arm.HeadedAll rest

def Case.HeadedAll : List (Case α) → Prop
  | [] => True
  | ⟨_, body⟩ :: rest => Outline.HeadedAll body ∧ Case.HeadedAll rest

end

theorem nestingAll_le_iff {ss : List (Outline α)} {n : Nat} :
    nestingAll ss ≤ n ↔ ∀ s ∈ ss, s.nesting ≤ n := by
  induction ss with
  | nil => simp [nestingAll]
  | cons s rest ih => rw [nestingAll, Nat.max_le, ih, List.forall_mem_cons]

theorem headedAll_iff {ss : List (Outline α)} : HeadedAll ss ↔ ∀ s ∈ ss, s.Headed := by
  induction ss with
  | nil => simp [HeadedAll]
  | cons s rest ih => simp [HeadedAll, ih]

end Outline

/-! ## Outlines of statements -/

mutual

theorem Stmt.outline_mapRoots (f : NodeId → α) (g : NodeId → NodeId) :
    ∀ s : Stmt, (s.mapRoots g).outline f = s.outline fun id => f (g id)
  | .expr id => rfl
  | .forLoop init cond step body => by
    simp only [Stmt.mapRoots, Stmt.outline, Stmt.outlineAll_mapRootsAll f g body]
  | .whileLoop cond body => by
    simp only [Stmt.mapRoots, Stmt.outline, Stmt.outlineAll_mapRootsAll f g body]
  | .ifChain arms => by
    simp only [Stmt.mapRoots, Stmt.outline, Branch.outlineAll_mapRootsAll f g arms]
  | .switch subject cases none => by
    simp only [Stmt.mapRoots, Stmt.outline, SwitchCase.outlineAll_mapRootsAll f g cases]
  | .switch subject cases (some body) => by
    simp only [Stmt.mapRoots, Stmt.outline, SwitchCase.outlineAll_mapRootsAll f g cases,
      Stmt.outlineAll_mapRootsAll f g body]
  | .function signature params body => by
    simp only [Stmt.mapRoots, Stmt.outline, Stmt.outlineAll_mapRootsAll f g body]
  | .comment text => rfl
  | .includeFile path => rfl

theorem Stmt.outlineAll_mapRootsAll (f : NodeId → α) (g : NodeId → NodeId) :
    ∀ ss : List Stmt,
      Stmt.outlineAll f (Stmt.mapRootsAll g ss) = Stmt.outlineAll (fun id => f (g id)) ss
  | [] => rfl
  | s :: rest => by
    simp only [Stmt.mapRootsAll, Stmt.outlineAll, Stmt.outline_mapRoots f g s,
      Stmt.outlineAll_mapRootsAll f g rest]

theorem Branch.outlineAll_mapRootsAll (f : NodeId → α) (g : NodeId → NodeId) :
    ∀ arms : List Branch,
      Branch.outlineAll f (Branch.mapRootsAll g arms) = Branch.outlineAll (fun id => f (g id)) arms
  | [] => rfl
  | ⟨none, body⟩ :: rest => by
    simp only [Branch.mapRootsAll, Branch.outlineAll, Stmt.outlineAll_mapRootsAll f g body,
      Branch.outlineAll_mapRootsAll f g rest, Option.map_none]
  | ⟨some cond, body⟩ :: rest => by
    simp only [Branch.mapRootsAll, Branch.outlineAll, Stmt.outlineAll_mapRootsAll f g body,
      Branch.outlineAll_mapRootsAll f g rest, Option.map_some]

theorem SwitchCase.outlineAll_mapRootsAll (f : NodeId → α) (g : NodeId → NodeId) :
    ∀ cases : List SwitchCase,
      SwitchCase.outlineAll f (SwitchCase.mapRootsAll g cases) =
        SwitchCase.outlineAll (fun id => f (g id)) cases
  | [] => rfl
  | ⟨value, body⟩ :: rest => by
    simp only [SwitchCase.mapRootsAll, SwitchCase.outlineAll, Stmt.outlineAll_mapRootsAll f g body,
      SwitchCase.outlineAll_mapRootsAll f g rest]

end

@[simp] theorem Stmt.skeleton_mapRoots (g : NodeId → NodeId) (s : Stmt) :
    (s.mapRoots g).skeleton = s.skeleton :=
  Stmt.outline_mapRoots _ g s

mutual

/-- An outline depends on nothing but what stands for the expressions of the statement. -/
theorem Stmt.outline_congr {f g : NodeId → α} :
    ∀ s : Stmt, (∀ r ∈ s.roots, f r = g r) → s.outline f = s.outline g
  | .expr id, h => by simp only [Stmt.outline, h id (by simp [Stmt.roots])]
  | .forLoop init cond step body, h => by
    simp only [Stmt.roots, List.forall_mem_cons] at h
    simp only [Stmt.outline, h.1, h.2.1, h.2.2.1, Stmt.outlineAll_congr body h.2.2.2]
  | .whileLoop cond body, h => by
    simp only [Stmt.roots, List.forall_mem_cons] at h
    simp only [Stmt.outline, h.1, Stmt.outlineAll_congr body h.2]
  | .ifChain arms, h => by
    simp only [Stmt.outline, Branch.outlineAll_congr arms h]
  | .switch subject cases none, h => by
    simp only [Stmt.roots, List.forall_mem_cons] at h
    simp only [Stmt.outline, h.1, SwitchCase.outlineAll_congr cases h.2]
  | .switch subject cases (some body), h => by
    simp only [Stmt.roots, List.forall_mem_cons, List.forall_mem_append] at h
    simp only [Stmt.outline, h.1, SwitchCase.outlineAll_congr cases h.2.1,
      Stmt.outlineAll_congr body h.2.2]
  | .function signature params body, h => by
    simp only [Stmt.outline, Stmt.outlineAll_congr body h]
  | .comment text, _ => rfl
  | .includeFile path, _ => rfl

theorem Stmt.outlineAll_congr {f g : NodeId → α} :
    ∀ ss : List Stmt, (∀ r ∈ Stmt.rootsAll ss, f r = g r) →
      Stmt.outlineAll f ss = Stmt.outlineAll g ss
  | [], _ => rfl
  | s :: rest, h => by
    simp only [Stmt.rootsAll, List.forall_mem_append] at h
    simp only [Stmt.outlineAll, Stmt.outline_congr s h.1, Stmt.outlineAll_congr rest h.2]

theorem Branch.outlineAll_congr {f g : NodeId → α} :
    ∀ arms : List Branch, (∀ r ∈ Branch.rootsAll arms, f r = g r) →
      Branch.outlineAll f arms = Branch.outlineAll g arms
  | [], _ => rfl
  | ⟨none, body⟩ :: rest, h => by
    simp only [Branch.rootsAll, List.forall_mem_append] at h
    simp only [Branch.outlineAll, Option.map_none, Stmt.outlineAll_congr body h.1,
      Branch.outlineAll_congr rest h.2]
  | ⟨some cond, body⟩ :: rest, h => by
    simp only [Branch.rootsAll, List.forall_mem_cons, List.forall_mem_append] at h
    simp only [Branch.outlineAll, Option.map_some, h.1, Stmt.outlineAll_congr body h.2.1,
      Branch.outlineAll_congr rest h.2.2]

theorem SwitchCase.outlineAll_congr {f g : NodeId → α} :
    ∀ cases : List SwitchCase, (∀ r ∈ SwitchCase.rootsAll cases, f r = g r) →
      SwitchCase.outlineAll f cases = SwitchCase.outlineAll g cases
  | [], _ => rfl
  | ⟨value, body⟩ :: rest, h => by
    simp only [SwitchCase.rootsAll, List.forall_mem_cons, List.forall_mem_append] at h
    simp only [SwitchCase.outlineAll, h.1, Stmt.outlineAll_congr body h.2.1,
      SwitchCase.outlineAll_congr rest h.2.2]

end

mutual

theorem Stmt.map_outline (f : NodeId → α) (g : α → β) :
    ∀ s : Stmt, (s.outline f).map g = s.outline fun id => g (f id)
  | .expr id => rfl
  | .forLoop init cond step body => by
    simp only [Stmt.outline, Outline.map, Stmt.mapAll_outlineAll f g body]
  | .whileLoop cond body => by
    simp only [Stmt.outline, Outline.map, Stmt.mapAll_outlineAll f g body]
  | .ifChain arms => by
    simp only [Stmt.outline, Outline.map, Branch.mapAll_outlineAll f g arms]
  | .switch subject cases none => by
    simp only [Stmt.outline, Outline.map, SwitchCase.mapAll_outlineAll f g cases]
  | .switch subject cases (some body) => by
    simp only [Stmt.outline, Outline.map, SwitchCase.mapAll_outlineAll f g cases,
      Stmt.mapAll_outlineAll f g body]
  | .function signature params body => by
    simp only [Stmt.outline, Outline.map, Stmt.mapAll_outlineAll f g body]
  | .comment text => rfl
  | .includeFile path => rfl

theorem Stmt.mapAll_outlineAll (f : NodeId → α) (g : α → β) :
    ∀ ss : List Stmt,
      Outline.mapAll g (Stmt.outlineAll f ss) = Stmt.outlineAll (fun id => g (f id)) ss
  | [] => rfl
  | s :: rest => by
    simp only [Stmt.outlineAll, Outline.mapAll, Stmt.map_outline f g s,
      Stmt.mapAll_outlineAll f g rest]

theorem Branch.mapAll_outlineAll (f : NodeId → α) (g : α → β) :
    ∀ arms : List Branch,
      Outline.Arm.mapAll g (Branch.outlineAll f arms) = Branch.outlineAll (fun id => g (f id)) arms
  | [] => rfl
  | ⟨none, body⟩ :: rest | ⟨some _, body⟩ :: rest => by
    simp only [Branch.outlineAll, Outline.Arm.mapAll, Option.map_none, Option.map_some,
      Stmt.mapAll_outlineAll f g body, Branch.mapAll_outlineAll f g rest]

theorem SwitchCase.mapAll_outlineAll (f : NodeId → α) (g : α → β) :
    ∀ cases : List SwitchCase,
      Outline.Case.mapAll g (SwitchCase.outlineAll f cases) =
        SwitchCase.outlineAll (fun id => g (f id)) cases
  | [] => rfl
  | ⟨value, body⟩ :: rest => by
    simp only [SwitchCase.outlineAll, Outline.Case.mapAll, Stmt.mapAll_outlineAll f g body,
      SwitchCase.mapAll_outlineAll f g rest]

end

theorem Stmt.outlineAll_eq_map (f : NodeId → α) (ss : List Stmt) :
    Stmt.outlineAll f ss = ss.map (Stmt.outline f) := by
  induction ss with
  | nil => rfl
  | cons s rest ih => rw [Stmt.outlineAll, ih, List.map_cons]

theorem Branch.outlineAll_append (f : NodeId → α) (as bs : List Branch) :
    Branch.outlineAll f (as ++ bs) = Branch.outlineAll f as ++ Branch.outlineAll f bs := by
  induction as with
  | nil => rfl
  | cons a rest ih =>
    obtain ⟨_, body⟩ := a
    simp [Branch.outlineAll, ih]

theorem SwitchCase.outlineAll_append (f : NodeId → α) (as bs : List SwitchCase) :
    SwitchCase.outlineAll f (as ++ bs) =
      SwitchCase.outlineAll f as ++ SwitchCase.outlineAll f bs := by
  induction as with
  | nil => rfl
  | cons a rest ih =>
    obtain ⟨_, body⟩ := a
    simp [SwitchCase.outlineAll, ih]

end

end KernelForge
