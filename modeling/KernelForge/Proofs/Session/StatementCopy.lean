import KernelForge.Proofs.Session.Copying
import KernelForge.Proofs.State
import KernelForge.Proofs.Stmt.Roots

/-!
# Copies of statements

Copying a statement copies its expressions one after the other with one memory. The copy is the same
statement over the copies of its expressions.
-/
namespace KernelForge

namespace Copying

/-- Copies expressions one after the other. -/
def copyAll (source : Arena) (m : Copying) (roots : List NodeId) : Copying :=
  roots.foldl (fun m root => (expr source root m).2) m

@[simp] theorem copyAll_nil (source : Arena) (m : Copying) : copyAll source m [] = m := rfl

@[simp] theorem copyAll_cons (source : Arena) (m : Copying) (root : NodeId) (roots : List NodeId) :
    copyAll source m (root :: roots) = copyAll source (expr source root m).2 roots := rfl

@[simp] theorem copyAll_append (source : Arena) (m : Copying) (roots more : List NodeId) :
    copyAll source m (roots ++ more) = copyAll source (copyAll source m roots) more :=
  List.foldl_append

theorem copyAll_valid {source : Arena} (hs : source.Sound) {m : Copying} (hv : m.Valid source)
    {roots : List NodeId} (hroots : ∀ r ∈ roots, r.index < source.size) :
    (copyAll source m roots).Valid source ∧ m.Advances (copyAll source m roots) ∧
      ∀ r ∈ roots, ((copyAll source m roots).copies.copy? r).isSome := by
  induction roots generalizing m with
  | nil => exact ⟨hv, .refl m, by simp⟩
  | cons root rest ih =>
    obtain ⟨hv', hadv, hcopy⟩ := expr_valid hs hv (hroots root (by simp))
    obtain ⟨hv'', hadv', hall⟩ := ih hv' fun r hr => hroots r (by simp [hr])
    refine ⟨hv'', hadv.trans hadv', fun r hr => ?_⟩
    rcases List.mem_cons.mp hr with rfl | hr
    · exact hadv'.isSome (by simp [hcopy])
    · exact hall r hr

/-- What the copying of a single new node keeps, the copying of expressions keeps. -/
theorem copyAll_keeps {source : Arena} (hs : source.Sound) {P : Copying → Prop}
    (hstep : ∀ m id, m.Valid source → id.index < source.size → m.copies.copy? id = none → P m →
      P (step source m id)) {m : Copying} (hv : m.Valid source) {roots : List NodeId}
    (hroots : ∀ r ∈ roots, r.index < source.size) (hm : P m) : P (copyAll source m roots) := by
  induction roots generalizing m with
  | nil => exact hm
  | cons root rest ih =>
    have hroot := hroots root (by simp)
    obtain ⟨hv', -, -⟩ := expr_valid hs hv hroot
    apply ih hv' fun r hr => hroots r (by simp [hr])
    exact foldl_keeps hs hstep hv (copyable_missing hs hv hroot) hm

/-! ## What is copied for a statement -/

mutual

theorem stmt_snd (source : Arena) : ∀ (s : Stmt) (m : Copying),
    (stmt source s m).2 = copyAll source m s.roots
  | .expr id, m => rfl
  | .forLoop init cond step body, m => by
    simp only [Stmt.roots, copyAll_cons, ← stmts_snd source body]
    simp only [stmt, bind_apply, pure_apply]
  | .whileLoop cond body, m => by
    simp only [Stmt.roots, copyAll_cons, ← stmts_snd source body]
    simp only [stmt, bind_apply, pure_apply]
  | .ifChain arms, m => by
    simp only [Stmt.roots, ← branches_snd source arms]
    simp only [stmt, bind_apply, pure_apply]
  | .switch subject arms none, m => by
    simp only [Stmt.roots, copyAll_cons, ← cases_snd source arms]
    simp only [stmt, bind_apply, pure_apply]
  | .switch subject arms (some body), m => by
    simp only [Stmt.roots, copyAll_cons, copyAll_append, ← cases_snd source arms,
      ← stmts_snd source body]
    simp only [stmt, bind_apply, pure_apply]
  | .function signature params body, m => by
    simp only [Stmt.roots, ← stmts_snd source body]
    simp only [stmt, bind_apply, pure_apply]
  | .comment text, m => rfl
  | .includeFile path, m => rfl

theorem stmts_snd (source : Arena) : ∀ (ss : List Stmt) (m : Copying),
    (stmts source ss m).2 = copyAll source m (Stmt.rootsAll ss)
  | [], m => rfl
  | s :: rest, m => by
    simp only [Stmt.rootsAll, copyAll_append, ← stmt_snd source s, ← stmts_snd source rest]
    simp only [stmts, bind_apply, pure_apply]

theorem branches_snd (source : Arena) : ∀ (arms : List Branch) (m : Copying),
    (branches source arms m).2 = copyAll source m (Branch.rootsAll arms)
  | [], m => rfl
  | ⟨none, body⟩ :: rest, m => by
    simp only [Branch.rootsAll, copyAll_append, ← stmts_snd source body, ← branches_snd source rest]
    simp only [branches, bind_apply, pure_apply]
  | ⟨some cond, body⟩ :: rest, m => by
    simp only [Branch.rootsAll, copyAll_cons, copyAll_append, ← stmts_snd source body,
      ← branches_snd source rest]
    simp only [branches, bind_apply, pure_apply]

theorem cases_snd (source : Arena) : ∀ (arms : List SwitchCase) (m : Copying),
    (cases source arms m).2 = copyAll source m (SwitchCase.rootsAll arms)
  | [], m => rfl
  | ⟨value, body⟩ :: rest, m => by
    simp only [SwitchCase.rootsAll, copyAll_cons, copyAll_append, ← stmts_snd source body,
      ← cases_snd source rest]
    simp only [cases, bind_apply, pure_apply]

end

/-! ## What the copy is -/

/-- Every copy of `m` is in `copies`. -/
def Within (m : Copying) (copies : Copies) : Prop :=
  ∀ id copy, m.copies.copy? id = some copy → copies.copy? id = some copy

theorem Advances.within {m m' : Copying} (h : m.Advances m') {copies : Copies}
    (hw : m'.Within copies) : m.Within copies :=
  fun id copy hc => hw id copy (h.copies id copy hc)

section

variable {source : Arena} (hs : source.Sound) {copies : Copies}
include hs

/-- The first of several expressions: its copy, and the state in which the others follow. -/
theorem expr_first {m : Copying} (hv : m.Valid source) {root : NodeId} {rest : List NodeId}
    (hroots : ∀ r ∈ root :: rest, r.index < source.size)
    (hw : (copyAll source m (root :: rest)).Within copies) :
    (expr source root m).1 = copies.image root ∧ (expr source root m).2.Valid source ∧
      (∀ r ∈ rest, r.index < source.size) ∧
        (copyAll source (expr source root m).2 rest).Within copies := by
  obtain ⟨hv', -, hcopy⟩ := expr_valid hs hv (hroots root (by simp))
  have hrest : ∀ r ∈ rest, r.index < source.size := fun r hr => hroots r (by simp [hr])
  obtain ⟨-, hadv, -⟩ := copyAll_valid hs hv' hrest
  exact ⟨(Copies.image_of_copy? (hadv.within hw _ _ hcopy)).symm, hv', hrest, hw⟩

/-- The first part of several expressions, and the state in which the others follow. -/
theorem copyAll_first {m : Copying} (hv : m.Valid source) {roots more : List NodeId}
    (hroots : ∀ r ∈ roots ++ more, r.index < source.size)
    (hw : (copyAll source m (roots ++ more)).Within copies) :
    (∀ r ∈ roots, r.index < source.size) ∧ (copyAll source m roots).Within copies ∧
      (copyAll source m roots).Valid source ∧ (∀ r ∈ more, r.index < source.size) ∧
        (copyAll source (copyAll source m roots) more).Within copies := by
  have hfirst : ∀ r ∈ roots, r.index < source.size := fun r hr => hroots r (by simp [hr])
  have hrest : ∀ r ∈ more, r.index < source.size := fun r hr => hroots r (by simp [hr])
  obtain ⟨hv', -, -⟩ := copyAll_valid hs hv hfirst
  obtain ⟨-, hadv, -⟩ := copyAll_valid hs hv' hrest
  rw [copyAll_append] at hw
  exact ⟨hfirst, hadv.within hw, hv', hrest, hw⟩

mutual

theorem stmt_fst : ∀ (s : Stmt) (m : Copying), m.Valid source →
    (∀ r ∈ s.roots, r.index < source.size) → (copyAll source m s.roots).Within copies →
      (stmt source s m).1 = s.mapRoots copies.image
  | .expr id, m, hv, hr, hw => by
    simp only [Stmt.roots] at hr hw
    obtain ⟨hid, -⟩ := expr_first hs hv hr hw
    simp only [Stmt.mapRoots, ← hid]
    simp only [stmt, bind_apply, pure_apply]
  | .forLoop init cond step body, m, hv, hr, hw => by
    simp only [Stmt.roots] at hr hw
    obtain ⟨hinit, hv, hr, hw⟩ := expr_first hs hv hr hw
    obtain ⟨hcond, hv, hr, hw⟩ := expr_first hs hv hr hw
    obtain ⟨hstep, hv, hr, hw⟩ := expr_first hs hv hr hw
    simp only [Stmt.mapRoots, ← hinit, ← hcond, ← hstep, ← stmts_fst body _ hv hr hw]
    simp only [stmt, bind_apply, pure_apply]
  | .whileLoop cond body, m, hv, hr, hw => by
    simp only [Stmt.roots] at hr hw
    obtain ⟨hcond, hv, hr, hw⟩ := expr_first hs hv hr hw
    simp only [Stmt.mapRoots, ← hcond, ← stmts_fst body _ hv hr hw]
    simp only [stmt, bind_apply, pure_apply]
  | .ifChain arms, m, hv, hr, hw => by
    simp only [Stmt.roots] at hr hw
    simp only [Stmt.mapRoots, ← branches_fst arms _ hv hr hw]
    simp only [stmt, bind_apply, pure_apply]
  | .switch subject arms none, m, hv, hr, hw => by
    simp only [Stmt.roots] at hr hw
    obtain ⟨hsubject, hv, hr, hw⟩ := expr_first hs hv hr hw
    simp only [Stmt.mapRoots, ← hsubject, ← cases_fst arms _ hv hr hw]
    simp only [stmt, bind_apply, pure_apply]
  | .switch subject arms (some body), m, hv, hr, hw => by
    simp only [Stmt.roots] at hr hw
    obtain ⟨hsubject, hv, hr, hw⟩ := expr_first hs hv hr hw
    obtain ⟨hr₁, hw₁, hv₂, hr₂, hw₂⟩ := copyAll_first hs hv hr hw
    rw [← cases_snd] at hv₂ hw₂
    simp only [Stmt.mapRoots, ← hsubject, ← cases_fst arms _ hv hr₁ hw₁,
      ← stmts_fst body _ hv₂ hr₂ hw₂]
    simp only [stmt, bind_apply, pure_apply]
  | .function signature params body, m, hv, hr, hw => by
    simp only [Stmt.roots] at hr hw
    simp only [Stmt.mapRoots, ← stmts_fst body _ hv hr hw]
    simp only [stmt, bind_apply, pure_apply]
  | .comment text, m, _, _, _ => rfl
  | .includeFile path, m, _, _, _ => rfl

theorem stmts_fst : ∀ (ss : List Stmt) (m : Copying), m.Valid source →
    (∀ r ∈ Stmt.rootsAll ss, r.index < source.size) →
      (copyAll source m (Stmt.rootsAll ss)).Within copies →
        (stmts source ss m).1 = Stmt.mapRootsAll copies.image ss
  | [], m, _, _, _ => rfl
  | s :: rest, m, hv, hr, hw => by
    simp only [Stmt.rootsAll] at hr hw
    obtain ⟨hr₁, hw₁, hv₂, hr₂, hw₂⟩ := copyAll_first hs hv hr hw
    rw [← stmt_snd] at hv₂ hw₂
    simp only [Stmt.mapRootsAll, ← stmt_fst s _ hv hr₁ hw₁, ← stmts_fst rest _ hv₂ hr₂ hw₂]
    simp only [stmts, bind_apply, pure_apply]

theorem branches_fst : ∀ (arms : List Branch) (m : Copying), m.Valid source →
    (∀ r ∈ Branch.rootsAll arms, r.index < source.size) →
      (copyAll source m (Branch.rootsAll arms)).Within copies →
        (branches source arms m).1 = Branch.mapRootsAll copies.image arms
  | [], m, _, _, _ => rfl
  | ⟨none, body⟩ :: rest, m, hv, hr, hw => by
    simp only [Branch.rootsAll] at hr hw
    obtain ⟨hr₁, hw₁, hv₂, hr₂, hw₂⟩ := copyAll_first hs hv hr hw
    rw [← stmts_snd] at hv₂ hw₂
    simp only [Branch.mapRootsAll, ← stmts_fst body _ hv hr₁ hw₁,
      ← branches_fst rest _ hv₂ hr₂ hw₂]
    simp only [branches, bind_apply, pure_apply]
  | ⟨some cond, body⟩ :: rest, m, hv, hr, hw => by
    simp only [Branch.rootsAll] at hr hw
    obtain ⟨hcond, hv, hr, hw⟩ := expr_first hs hv hr hw
    obtain ⟨hr₁, hw₁, hv₂, hr₂, hw₂⟩ := copyAll_first hs hv hr hw
    rw [← stmts_snd] at hv₂ hw₂
    simp only [Branch.mapRootsAll, ← hcond, ← stmts_fst body _ hv hr₁ hw₁,
      ← branches_fst rest _ hv₂ hr₂ hw₂]
    simp only [branches, bind_apply, pure_apply]

theorem cases_fst : ∀ (arms : List SwitchCase) (m : Copying), m.Valid source →
    (∀ r ∈ SwitchCase.rootsAll arms, r.index < source.size) →
      (copyAll source m (SwitchCase.rootsAll arms)).Within copies →
        (cases source arms m).1 = SwitchCase.mapRootsAll copies.image arms
  | [], m, _, _, _ => rfl
  | ⟨value, body⟩ :: rest, m, hv, hr, hw => by
    simp only [SwitchCase.rootsAll] at hr hw
    obtain ⟨hvalue, hv, hr, hw⟩ := expr_first hs hv hr hw
    obtain ⟨hr₁, hw₁, hv₂, hr₂, hw₂⟩ := copyAll_first hs hv hr hw
    rw [← stmts_snd] at hv₂ hw₂
    simp only [SwitchCase.mapRootsAll, ← hvalue, ← stmts_fst body _ hv hr₁ hw₁,
      ← cases_fst rest _ hv₂ hr₂ hw₂]
    simp only [cases, bind_apply, pure_apply]

end

end

end Copying

namespace Context

/-- A finished copying of the nodes below some roots into a context. -/
structure Copied (source : Arena) (c : Context) (roots : List NodeId) (m : Copying) : Prop where
  finished : m = Copying.copyAll source (.start source c) roots
  valid : m.Valid source
  advances : (Copying.start source c).Advances m
  copied : ∀ r ∈ roots, (m.copies.copy? r).isSome

theorem copyExpr_copied {source : Arena} (hs : source.Sound) {c : Context} (hc : c.Sound)
    {root : NodeId} (hroot : root.index < source.size) :
    ∃ m : Copying, c.Copied source [root] m ∧
      c.copyExpr source root = (m.copies.image root, m.target) := by
  obtain ⟨hv, hadv, hcopy⟩ := Copying.expr_valid hs (Copying.valid_start source hc) hroot
  refine ⟨_, ⟨rfl, hv, hadv, ?_⟩, ?_⟩
  · intro r hr
    obtain rfl := List.mem_singleton.mp hr
    simp [hcopy]
  · rw [Copying.copyAll_cons, Copying.copyAll_nil, Copies.image_of_copy? hcopy]
    rfl

theorem copyStmt_copied {source : Arena} (hs : source.Sound) {c : Context} (hc : c.Sound)
    {s : Stmt} (hroots : ∀ r ∈ s.roots, r.index < source.size) :
    ∃ m : Copying, c.Copied source s.roots m ∧
      c.copyStmt source s = (s.mapRoots m.copies.image, m.target) := by
  have hv := Copying.valid_start source hc
  obtain ⟨hv', hadv, hcopied⟩ := Copying.copyAll_valid hs hv hroots
  refine ⟨_, ⟨rfl, hv', hadv, hcopied⟩, ?_⟩
  rw [← Copying.stmt_fst hs s _ hv hroots fun _ _ h => h, ← Copying.stmt_snd]
  rfl

theorem Copied.image_lt {source : Arena} {c : Context} {roots : List NodeId} {m : Copying}
    (h : c.Copied source roots m) (hroots : ∀ r ∈ roots, r.index < source.size) :
    ∀ r ∈ roots, (m.copies.image r).index < m.target.arena.size := by
  intro r hr
  obtain ⟨copy, hcopy⟩ := Option.isSome_iff_exists.mp (h.copied r hr)
  rw [Copies.image_of_copy? hcopy]
  exact h.valid.copy_lt hcopy (hroots r hr)

end Context

end KernelForge
