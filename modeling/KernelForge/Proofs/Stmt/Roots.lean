import KernelForge.Stmt

/-!
# The expressions of a statement

A statement tree holds expressions only by their ids, so that a copy of a statement is the same tree
over other ids.
-/
namespace KernelForge

mutual

/-- The expressions of a statement, in the order in which it names them. -/
def Stmt.roots : Stmt → List NodeId
  | .expr id => [id]
  | .forLoop init cond step body => init :: cond :: step :: Stmt.rootsAll body
  | .whileLoop cond body => cond :: Stmt.rootsAll body
  | .ifChain arms => Branch.rootsAll arms
  | .switch subject cases none => subject :: SwitchCase.rootsAll cases
  | .switch subject cases (some body) =>
    subject :: (SwitchCase.rootsAll cases ++ Stmt.rootsAll body)
  | .function _ _ body => Stmt.rootsAll body
  | .comment _ => []
  | .includeFile _ => []

def Stmt.rootsAll : List Stmt → List NodeId
  | [] => []
  | s :: rest => s.roots ++ Stmt.rootsAll rest

def Branch.rootsAll : List Branch → List NodeId
  | [] => []
  | ⟨none, body⟩ :: rest => Stmt.rootsAll body ++ Branch.rootsAll rest
  | ⟨some cond, body⟩ :: rest => cond :: (Stmt.rootsAll body ++ Branch.rootsAll rest)

def SwitchCase.rootsAll : List SwitchCase → List NodeId
  | [] => []
  | ⟨value, body⟩ :: rest => value :: (Stmt.rootsAll body ++ SwitchCase.rootsAll rest)

end

mutual

/-- The same statement over other expressions. -/
def Stmt.mapRoots (f : NodeId → NodeId) : Stmt → Stmt
  | .expr id => .expr (f id)
  | .forLoop init cond step body =>
    .forLoop (f init) (f cond) (f step) (Stmt.mapRootsAll f body)
  | .whileLoop cond body => .whileLoop (f cond) (Stmt.mapRootsAll f body)
  | .ifChain arms => .ifChain (Branch.mapRootsAll f arms)
  | .switch subject cases none => .switch (f subject) (SwitchCase.mapRootsAll f cases) none
  | .switch subject cases (some body) =>
    .switch (f subject) (SwitchCase.mapRootsAll f cases) (some (Stmt.mapRootsAll f body))
  | .function signature params body => .function signature params (Stmt.mapRootsAll f body)
  | .comment text => .comment text
  | .includeFile path => .includeFile path

def Stmt.mapRootsAll (f : NodeId → NodeId) : List Stmt → List Stmt
  | [] => []
  | s :: rest => s.mapRoots f :: Stmt.mapRootsAll f rest

def Branch.mapRootsAll (f : NodeId → NodeId) : List Branch → List Branch
  | [] => []
  | ⟨none, body⟩ :: rest => ⟨none, Stmt.mapRootsAll f body⟩ :: Branch.mapRootsAll f rest
  | ⟨some cond, body⟩ :: rest =>
    ⟨some (f cond), Stmt.mapRootsAll f body⟩ :: Branch.mapRootsAll f rest

def SwitchCase.mapRootsAll (f : NodeId → NodeId) : List SwitchCase → List SwitchCase
  | [] => []
  | ⟨value, body⟩ :: rest => ⟨f value, Stmt.mapRootsAll f body⟩ :: SwitchCase.mapRootsAll f rest

end

mutual

theorem Stmt.roots_mapRoots (f : NodeId → NodeId) : ∀ s : Stmt, (s.mapRoots f).roots = s.roots.map f
  | .expr id => rfl
  | .forLoop init cond step body => by
    simp [Stmt.mapRoots, Stmt.roots, Stmt.rootsAll_mapRootsAll f body]
  | .whileLoop cond body => by simp [Stmt.mapRoots, Stmt.roots, Stmt.rootsAll_mapRootsAll f body]
  | .ifChain arms => by simp [Stmt.mapRoots, Stmt.roots, Branch.rootsAll_mapRootsAll f arms]
  | .switch subject arms none => by
    simp [Stmt.mapRoots, Stmt.roots, SwitchCase.rootsAll_mapRootsAll f arms]
  | .switch subject arms (some body) => by
    simp [Stmt.mapRoots, Stmt.roots, SwitchCase.rootsAll_mapRootsAll f arms,
      Stmt.rootsAll_mapRootsAll f body]
  | .function signature params body => by
    simp [Stmt.mapRoots, Stmt.roots, Stmt.rootsAll_mapRootsAll f body]
  | .comment text => rfl
  | .includeFile path => rfl

theorem Stmt.rootsAll_mapRootsAll (f : NodeId → NodeId) :
    ∀ ss : List Stmt, Stmt.rootsAll (Stmt.mapRootsAll f ss) = (Stmt.rootsAll ss).map f
  | [] => rfl
  | s :: rest => by
    simp [Stmt.mapRootsAll, Stmt.rootsAll, Stmt.roots_mapRoots f s,
      Stmt.rootsAll_mapRootsAll f rest]

theorem Branch.rootsAll_mapRootsAll (f : NodeId → NodeId) :
    ∀ arms : List Branch, Branch.rootsAll (Branch.mapRootsAll f arms) = (Branch.rootsAll arms).map f
  | [] => rfl
  | ⟨none, body⟩ :: rest => by
    simp [Branch.mapRootsAll, Branch.rootsAll, Stmt.rootsAll_mapRootsAll f body,
      Branch.rootsAll_mapRootsAll f rest]
  | ⟨some cond, body⟩ :: rest => by
    simp [Branch.mapRootsAll, Branch.rootsAll, Stmt.rootsAll_mapRootsAll f body,
      Branch.rootsAll_mapRootsAll f rest]

theorem SwitchCase.rootsAll_mapRootsAll (f : NodeId → NodeId) :
    ∀ arms : List SwitchCase,
      SwitchCase.rootsAll (SwitchCase.mapRootsAll f arms) = (SwitchCase.rootsAll arms).map f
  | [] => rfl
  | ⟨value, body⟩ :: rest => by
    simp [SwitchCase.mapRootsAll, SwitchCase.rootsAll, Stmt.rootsAll_mapRootsAll f body,
      SwitchCase.rootsAll_mapRootsAll f rest]

end

theorem Stmt.mem_rootsAll {ss : List Stmt} {r : NodeId} :
    r ∈ Stmt.rootsAll ss ↔ ∃ s ∈ ss, r ∈ s.roots := by
  induction ss with
  | nil => simp [Stmt.rootsAll]
  | cons s rest ih => simp [Stmt.rootsAll, ih]

theorem Branch.rootsAll_append (as bs : List Branch) :
    Branch.rootsAll (as ++ bs) = Branch.rootsAll as ++ Branch.rootsAll bs := by
  induction as with
  | nil => rfl
  | cons a rest ih =>
    obtain ⟨cond, body⟩ := a
    cases cond <;> simp [Branch.rootsAll, ih]

theorem SwitchCase.rootsAll_append (as bs : List SwitchCase) :
    SwitchCase.rootsAll (as ++ bs) = SwitchCase.rootsAll as ++ SwitchCase.rootsAll bs := by
  induction as with
  | nil => rfl
  | cons a rest ih =>
    obtain ⟨value, body⟩ := a
    simp [SwitchCase.rootsAll, ih]

end KernelForge
