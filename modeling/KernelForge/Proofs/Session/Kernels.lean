import KernelForge.Proofs.Render.Acceptance
import KernelForge.Proofs.Session.TidyAnswers

/-!
# Which kernels can be rendered

A kernel is refused for a declaration of something that is no variable, or for nesting deeper than
the limit, be it of operands or of blocks. There is no other reason, whatever the statements were
put together from and in which contexts. A kernel that is not refused has nothing wrong with it but
bodies and switches that are empty.
-/
namespace KernelForge

namespace Arena

/-- Every declaration at or below the root is of a leaf that is no constant. -/
def DeclaresVariables (a : Arena) (root : NodeId) : Prop :=
  ∀ id target, a.Reaches root id → a.get? id = some (.declare target) →
    ∃ v, a.content? target = some v ∧ ∀ l, v ≠ .literal l

/-- No node that is met in the walk below the root is more than `limit` steps away from it. -/
def NestsWithin (a : Arena) (root : NodeId) (limit : Nat) : Prop :=
  ∀ n id, a.Met root n id → n ≤ limit

section

variable {a : Arena} (hs : a.Sound)
include hs

theorem Sound.term_eq_leaf_iff {id : NodeId} {v : Variable} (hid : id.index < a.size) :
    a.term id = .leaf v ↔ a.content? id = some v := by
  refine ⟨fun h => ?_, term_of_content?⟩
  obtain ⟨node, hnode⟩ := exists_get?_of_lt hid
  rw [hs.term_eq hnode] at h
  rw [content?, hnode]
  cases node <;> simp_all [Term.leaf, Node.label, Node.content?]

theorem Sound.everywhere_declarable_iff (hp : a.Proper) {root : NodeId}
    (hroot : root.index < a.size) :
    (a.term root).Everywhere Term.Declarable ↔ a.DeclaresVariables root := by
  rw [hs.everywhere_term_iff hroot]
  constructor
  · intro h id target hreach hnode
    obtain ⟨v, hv, hd⟩ := h id _ hreach hnode rfl
    have hterm : a.term target = .leaf v := by simpa [operands, Node.children] using hv
    have hlt := hs.older id _ target hnode (by simp [operands, Node.children])
    have hid := lt_of_get? hnode
    have hcontent := (hs.term_eq_leaf_iff (by omega)).mp hterm
    exact ⟨v, hcontent, (hp target v hcontent).declaration?_isSome_iff.mp hd⟩
  · intro h id node hreach hnode hlabel
    cases node with
    | declare target =>
      obtain ⟨v, hv, hl⟩ := h id target hreach hnode
      exact ⟨v, by simp [operands, Node.children, term_of_content? hv],
        (hp target v hv).declaration?_isSome_iff.mpr hl⟩
    | _ => simp [Node.label] at hlabel

theorem Sound.height_eq {id : NodeId} {node : Node} (hnode : a.get? id = some node) :
    (a.term id).height = Term.heightAll ((a.expanded node).map a.term) := by
  rw [hs.term_eq hnode]
  cases node <;> rfl

omit hs in
theorem nestsWithin_iff {root : NodeId} {node : Node} (hnode : a.get? root = some node)
    {limit : Nat} : a.NestsWithin root limit ↔
      ∀ o ∈ a.expanded node, 0 < limit ∧ a.NestsWithin o (limit - 1) := by
  constructor
  · intro h o ho
    have hmet : ∀ {n id}, a.Met o n id → n + 1 ≤ limit :=
      fun hm => h _ _ (met_succ_iff.mpr ⟨node, o, hnode, ho, hm⟩)
    refine ⟨hmet .root, fun n id hm => ?_⟩
    have := hmet hm
    omega
  · intro h n id hm
    cases n with
    | zero => exact Nat.zero_le _
    | succ n =>
      obtain ⟨node', o, hnode', ho, hm'⟩ := met_succ_iff.mp hm
      obtain rfl := Option.some.inj (hnode.symm.trans hnode')
      obtain ⟨hpos, hwithin⟩ := h o ho
      have := hwithin n id hm'
      omega

/-- The height of a term is the distance of the farthest node that the walk meets. -/
theorem Sound.height_le_iff {root : NodeId} (hroot : root.index < a.size) {limit : Nat} :
    (a.term root).height ≤ limit ↔ a.NestsWithin root limit := by
  induction limit using Nat.strongRecOn generalizing root with
  | ind limit ih =>
    obtain ⟨node, hnode⟩ := exists_get?_of_lt hroot
    rw [hs.height_eq hnode, Term.heightAll_le_iff, nestsWithin_iff hnode, List.forall_mem_map]
    refine forall₂_congr fun o ho => ?_
    have hlt := hs.older root node o hnode (mem_operands_of_mem_expanded ho)
    constructor
    · intro h
      exact ⟨by omega, (ih (limit - 1) (by omega) (by omega)).mp (by omega)⟩
    · rintro ⟨hpos, h⟩
      have := (ih (limit - 1) (by omega) (by omega)).mpr h
      omega

end

end Arena

/-- Two terms can be rendered under the same limits. -/
structure Term.Alike (t u : Term) : Prop where
  height : u.height = t.height
  declarable : u.Everywhere Declarable ↔ t.Everywhere Declarable

namespace Session

/-- The arena of a statement's expressions. -/
def arenaOf (s : Session) (st : Statement) : Arena :=
  st.origin.elim .empty fun c => (s.context c).arena

def terms (s : Session) (st : Statement) : List Term := st.stmt.roots.map (s.arenaOf st).term

/-- The statement has the blocks of another one, and expressions like that one's. -/
structure Resembles (c : Nat) (expected : List Term) (t : Session) (st : Statement) (stmt : Stmt) :
    Prop where
  sound : t.Sound
  holds : t.Holds c stmt.roots
  skeleton : stmt.skeleton = st.stmt.skeleton
  alike : List.Forall₂ Term.Alike expected (stmt.roots.map (t.context c).arena.term)

section

variable {s : Session} {c : Nat}

theorem Grows.term_eq (hs : s.Sound) {t : Session} (h : s.Grows t) {ids : List NodeId}
    (hids : s.Holds c ids) : ∀ id ∈ ids, (t.context c).arena.term id = (s.context c).arena.term id :=
  fun id hid => (h.context c).extends.arena.term_eq (hs c).arena ((h.sound hs) c).arena
    (hids.2 id hid)

theorem Resembles.mono {t u : Session} (h : t.Grows u) {expected : List Term} {st : Statement}
    {stmt : Stmt} (hr : Resembles c expected t st stmt) : Resembles c expected u st stmt := by
  refine ⟨h.sound hr.sound, hr.holds.mono h, hr.skeleton, ?_⟩
  rw [List.map_congr_left (h.term_eq hr.sound hr.holds)]
  exact hr.alike

/-- A statement that is taken in resembles what it was. -/
theorem adopt_resembles (hs : s.Sound) (hc : c < s.contexts.size) {st : Statement}
    (hst : s.HoldsStatement st) :
    s.Yields (adopt c st) fun t stmt => Resembles c (s.terms st) t st stmt := by
  have hown : ∀ ts : List Term, List.Forall₂ Term.Alike ts ts := by
    intro ts
    rw [List.forall₂_same]
    exact fun t _ => ⟨rfl, Iff.rfl⟩
  obtain ⟨origin, stmt⟩ := st
  cases origin with
  | none =>
    have hroots : stmt.roots = [] := hst
    exact .pure ⟨hs, ⟨hc, by simp [hroots]⟩, rfl, by simp [terms, hroots]⟩
  | some origin =>
    by_cases hne : origin = c
    · subst hne
      simp only [adopt, if_true]
      exact .pure ⟨hs, hst, rfl, hown _⟩
    · obtain ⟨hgrows, hholds⟩ := adopt_yields hs hc hst
      refine ⟨hgrows, ?_⟩
      obtain ⟨m, hm, heq⟩ := adopt_foreign hs hst hne
      rw [heq] at hgrows hholds ⊢
      refine ⟨hgrows.sound hs, hholds, Stmt.skeleton_mapRoots _ stmt, ?_⟩
      have htarget : m.target.Sound := by
        have := hgrows.sound hs c
        rwa [context_replace hc, if_pos rfl] at this
      rw [context_replace hc, if_pos rfl]
      simp only [Stmt.roots_mapRoots, List.map_map, terms, arenaOf, Option.elim]
      rw [List.forall₂_map_left_iff, List.forall₂_map_right_iff, List.forall₂_same]
      intro r hr
      have hterm := hm.term_image (hs origin).arena (hs c) (fun r hr => hst.2 r hr) hr
      simp only [Function.comp_apply, hterm]
      exact ⟨Term.height_substitute _ _, Term.declarable_substitute htarget.name?_meaning _⟩

theorem HoldsStatement.terms_eq (hs : s.Sound) {t : Session} (h : s.Grows t) {st : Statement}
    (hst : s.HoldsStatement st) : t.terms st = s.terms st := by
  obtain ⟨origin, stmt⟩ := st
  cases origin with
  | none =>
    have hroots : stmt.roots = [] := hst
    simp [terms, hroots]
  | some c => exact List.map_congr_left (h.term_eq hs hst)

theorem absorb_resembles (hs : s.Sound) (hc : c < s.contexts.size) {body : List Statement}
    (hbody : ∀ st ∈ body, s.HoldsStatement st) :
    s.Yields (absorb c body) fun t stmts =>
      List.Forall₂ (fun st stmt => Resembles c (s.terms st) t st stmt) body stmts := by
  refine Yields.forall₂_mapM (q := fun t st stmt => Resembles c (s.terms st) t st stmt)
    (fun t u st stmt htu h => h.mono htu) fun st hst t ht => ?_
  rw [← (hbody st hst).terms_eq hs ht]
  exact adopt_resembles (ht.sound hs) (ht.count ▸ hc) ((hbody st hst).mono ht)

end

end Session

/-- What holds of all members of one list holds of all members of another one, if it does so for each
pair. -/
theorem forall_mem_iff_of_forall₂ {α β : Type} {R : α → β → Prop} {p : α → Prop} {q : β → Prop}
    {xs : List α} {ys : List β} (h : List.Forall₂ R xs ys) (hpq : ∀ x y, R x y → (p x ↔ q y)) :
    (∀ x ∈ xs, p x) ↔ ∀ y ∈ ys, q y := by
  induction h with
  | nil => simp
  | cons hxy _ ih => simp [hpq _ _ hxy, ih]

namespace Session

section

variable {s : Session} {c : Nat} {limit : Nat}

/-- A statement that was taken in can be rendered when the original one could be. -/
theorem Resembles.exists_text_iff (hs : s.Sound) (hp : s.Proper) {t : Session} {st : Statement}
    {stmt : Stmt} (hst : s.HoldsStatement st) (h : Resembles c (s.terms st) t st stmt) :
    (∀ r ∈ stmt.roots, ∃ text, (t.context c).arena.renderExpr r limit = .ok text) ↔
      ∀ r ∈ st.stmt.roots, (s.arenaOf st).DeclaresVariables r ∧ (s.arenaOf st).NestsWithin r limit := by
  have hnew : ∀ r ∈ stmt.roots, ((∃ text, (t.context c).arena.renderExpr r limit = .ok text) ↔
      ((t.context c).arena.term r).Everywhere Term.Declarable ∧
        ((t.context c).arena.term r).height ≤ limit) :=
    fun r hr => (h.sound c).arena.exists_text_iff (h.holds.2 r hr)
  have hold : ∀ r ∈ st.stmt.roots,
      (((s.arenaOf st).term r).Everywhere Term.Declarable ∧ ((s.arenaOf st).term r).height ≤ limit ↔
        (s.arenaOf st).DeclaresVariables r ∧ (s.arenaOf st).NestsWithin r limit) := by
    obtain ⟨origin, original⟩ := st
    cases origin with
    | none =>
      have hroots : original.roots = [] := hst
      simp [hroots]
    | some origin =>
      intro r hr
      have hlt := hst.2 r hr
      exact and_congr ((hs origin).arena.everywhere_declarable_iff (hp origin) hlt)
        ((hs origin).arena.height_le_iff hlt)
  have halike := forall_mem_iff_of_forall₂ (p := fun t : Term => t.Everywhere Term.Declarable ∧
    t.height ≤ limit) (q := fun t : Term => t.Everywhere Term.Declarable ∧ t.height ≤ limit) h.alike
      fun t u htu => by rw [htu.height, htu.declarable]
  rw [forall₂_congr hnew, ← forall₂_congr hold]
  simpa [terms] using halike.symm

/-- What a rendering of statements that were taken in needs, said of the statements as they were. -/
theorem affords_of_resembles (hs : s.Sound) (hp : s.Proper) {t : Session} {body : List Statement}
    (hbody : ∀ st ∈ body, s.HoldsStatement st) (htidy : ∀ st ∈ body, st.stmt.skeleton.Tidy)
    {stmts : List Stmt}
    (h : List.Forall₂ (fun st stmt => Resembles c (s.terms st) t st stmt) body stmts) :
    (t.context c).arena.Affords limit 0 ((t.context c).arena.stmtsEmission limit stmts) ↔
      (∀ st ∈ body, ∀ r ∈ st.stmt.roots,
        (s.arenaOf st).DeclaresVariables r ∧ (s.arenaOf st).NestsWithin r limit) ∧
      ∀ st ∈ body, st.stmt.skeleton.nesting ≤ limit := by
  have htexts : (∀ r ∈ Stmt.rootsAll stmts, ∃ text,
      (t.context c).arena.renderExpr r limit = .ok text) ↔ ∀ st ∈ body, ∀ r ∈ st.stmt.roots,
        (s.arenaOf st).DeclaresVariables r ∧ (s.arenaOf st).NestsWithin r limit := by
    have hpairs : List.Forall₂ (fun st stmt => s.HoldsStatement st ∧
        Resembles c (s.terms st) t st stmt) body stmts := by
      rw [List.forall₂_and_left]
      exact ⟨hbody, h⟩
    have hall : (∀ st ∈ body, ∀ r ∈ st.stmt.roots,
        (s.arenaOf st).DeclaresVariables r ∧ (s.arenaOf st).NestsWithin r limit) ↔
        ∀ stmt ∈ stmts, ∀ r ∈ stmt.roots, ∃ text,
          (t.context c).arena.renderExpr r limit = .ok text :=
      forall_mem_iff_of_forall₂ hpairs fun _ _ hone => (hone.2.exists_text_iff hs hp hone.1).symm
    rw [hall]
    simp only [Stmt.mem_rootsAll, forall_exists_index, and_imp]
    exact ⟨fun hr stmt hstmt r hmem => hr r stmt hstmt hmem,
      fun hr r stmt hstmt hmem => hr stmt hstmt r hmem⟩
  have hnesting : (∀ st ∈ body, st.stmt.skeleton.nesting ≤ limit) ↔
      ∀ stmt ∈ stmts, stmt.skeleton.nesting ≤ limit :=
    forall_mem_iff_of_forall₂ h fun _ _ hone => by rw [hone.skeleton]
  have hheaded : ∀ stmt ∈ stmts, stmt.skeleton.Headed := by
    have hiff : (∀ st ∈ body, st.stmt.skeleton.Headed) ↔ ∀ stmt ∈ stmts, stmt.skeleton.Headed :=
      forall_mem_iff_of_forall₂ h fun _ _ hone => by rw [hone.skeleton]
    exact hiff.mp fun st hst => (htidy st hst).headed
  rw [Arena.affords_stmtsEmission, htexts, hnesting]
  exact ⟨fun h => ⟨h.1, h.2.2⟩, fun h => ⟨h.1, hheaded, h.2⟩⟩

/-- The kernel of some statements, in terms of the statements as they were. -/
theorem kernel_cases (hs : s.Sound) (hp : s.Proper) (hc : c < s.contexts.size)
    {body : List Statement} (hbody : ∀ st ∈ body, s.HoldsStatement st)
    (htidy : ∀ st ∈ body, st.stmt.skeleton.Tidy) (options : RenderOptions) :
    ((∃ k, (kernel c body options s).1 = .ok k) ↔
      (∀ st ∈ body, ∀ r ∈ st.stmt.roots, (s.arenaOf st).DeclaresVariables r ∧
        (s.arenaOf st).NestsWithin r options.maxDepth) ∧
      ∀ st ∈ body, st.stmt.skeleton.nesting ≤ options.maxDepth) ∧
    (∀ e, (kernel c body options s).1 = .error e → Term.Failure options.maxDepth e) ∧
    ∀ k, (kernel c body options s).1 = .ok k → ∀ d ∈ k.diagnostics, d.Empty := by
  obtain ⟨stmts, t, habsorb⟩ : ∃ stmts t, absorb c body s = (stmts, t) := ⟨_, _, rfl⟩
  have hresembles : List.Forall₂ (fun st stmt => Resembles c (s.terms st) t st stmt) body stmts := by
    have h := (absorb_resembles hs hc hbody).2
    rwa [habsorb] at h
  obtain ⟨ht, hholds⟩ : t.Sound ∧ t.Holds c (Stmt.rootsAll stmts) := by
    have h := absorb_yields hs hc hbody
    unfold Yields at h
    rw [habsorb] at h
    exact ⟨h.1.sound hs, h.2⟩
  have hkernel : (kernel c body options s).1 = ((t.context c).arena.render stmts options).map
      fun r => ⟨t.role, (t.context c).provenance, r.code, r.diagnostics⟩ := by
    simp only [kernel, bind_apply, habsorb]
    rfl
  have htidies : Outline.TidyAll (Stmt.outlineAll (fun _ => ()) stmts) := by
    rw [Outline.tidyAll_iff, Stmt.outlineAll_eq_map, List.forall_mem_map]
    refine (forall_mem_iff_of_forall₂ hresembles fun _ _ hone => ?_).mp htidy
    rw [← hone.skeleton]
    rfl
  rw [hkernel, ← affords_of_resembles hs hp hbody htidy hresembles]
  cases hrender : (t.context c).arena.render stmts options with
  | ok r =>
    obtain ⟨hafford, rfl⟩ := Arena.render_eq_ok_iff.mp hrender
    refine ⟨by simp [Except.map, hafford], by simp [Except.map], ?_⟩
    rintro k ⟨⟩
    exact Stmt.empty_of_mem_misusesAll stmts htidies
  | error e =>
    have hno : ¬ (t.context c).arena.Affords options.maxDepth 0
        ((t.context c).arena.stmtsEmission options.maxDepth stmts) := by
      intro hafford
      have hok := Arena.render_eq_ok_iff.mpr ⟨hafford, rfl⟩
      simp [hrender] at hok
    refine ⟨by simp [Except.map, hno], ?_, by simp [Except.map]⟩
    rintro e' ⟨⟩
    rcases Arena.faults_of_render hrender with ⟨r, hr, herror⟩ | ⟨hheaded, -⟩ | ⟨-, rfl⟩
    · exact (ht c).arena.failure_of_renderExpr (hholds.2 r hr) herror
    · exact absurd (Outline.headedAll_of_tidyAll htidies) hheaded
    · exact rfl

end

end Session

namespace Workspace

/-- After any actions, and whatever contexts its statements come from, a kernel can be rendered
exactly when its expressions declare variables only, no expression is nested deeper than the limit
and no block is. Otherwise the error is one of these three. A kernel that can be rendered has nothing
wrong with it but empty bodies and empty switches. -/
theorem run_kernel (role : Role) (provenances : List String) (actions : List Action) (c : Nat)
    (labels : List Nat) (body : List Statement) (options : RenderOptions) :
    let s := ((new role provenances).run actions).session
    c < s.contexts.size → ((new role provenances).run actions).body? labels = some body →
    ((∃ k, (Session.kernel c body options s).1 = .ok k) ↔
      (∀ st ∈ body, ∀ r ∈ st.stmt.roots, (s.arenaOf st).DeclaresVariables r) ∧
      (∀ st ∈ body, ∀ r ∈ st.stmt.roots, (s.arenaOf st).NestsWithin r options.maxDepth) ∧
      ∀ st ∈ body, st.stmt.skeleton.nesting ≤ options.maxDepth) ∧
    (∀ e, (Session.kernel c body options s).1 = .error e →
      (∃ id, e = .unhandledNode id .targetNotVariable ∨ e = .unhandledNode id .targetNotDeclarable) ∨
        e = .nestingTooDeep options.maxDepth) ∧
    ∀ k, (Session.kernel c body options s).1 = .ok k →
      ∀ d ∈ k.diagnostics, (∃ construct, d = .emptyBody construct) ∨ d = .emptySwitch := by
  intro s hc hbody
  have hw : ((new role provenances).run actions).Valid := run_valid (valid_new role provenances) actions
  have ht := run_tidy (tidy_new role provenances) actions
  obtain ⟨hok, herror, hdiagnostics⟩ := Session.kernel_cases hw.sound ht.proper hc
    (body?_holds hw hbody) (body?_tidy ht hbody) options
  refine ⟨?_, ?_, hdiagnostics⟩
  · refine hok.trans ?_
    simp only [forall_and, and_assoc]
    exact Iff.rfl
  · intro e he
    have hfailure := herror e he
    cases e with
    | unhandledNode id reason =>
      refine Or.inl ⟨id, ?_⟩
      rcases hfailure with rfl | rfl
      · exact Or.inl rfl
      · exact Or.inr rfl
    | nestingTooDeep limit => exact Or.inr (congrArg _ hfailure)
    | _ => exact hfailure.elim

/-- A loop whose body declares a variable of another context. -/
theorem run_kernel_loop :
    let w := (new .crisc ["a", "b"]).run
      [.intern 0 "x" (.scalar .i32), .declare 0, .whileLoop 1 (.answer 0) [1]]
    let body : List Statement := [⟨some 1, .whileLoop ⟨0⟩ [.expr ⟨1⟩]⟩]
    0 < w.session.contexts.size ∧ w.body? [2] = some body ∧
      ∀ st ∈ body, ∀ r ∈ st.stmt.roots, (w.session.arenaOf st).DeclaresVariables r := by
  intro w body
  refine ⟨by decide, rfl, ?_⟩
  have h := run_kernel .crisc ["a", "b"]
    [.intern 0 "x" (.scalar .i32), .declare 0, .whileLoop 1 (.answer 0) [1]] 0 [2] body {}
    (by decide) rfl
  exact (h.1.mp ⟨_, rfl⟩).1

end Workspace

end KernelForge
