import KernelForge.Proofs.Render.Layout

/-!
# Which statements can be rendered

A rendering is refused for an expression without a text, for an `if` chain that starts without a
condition, or for blocks that nest deeper than the limit, wherever in the tree that is. There is no
other reason.
-/
namespace KernelForge.Arena

theorem headed_stmtsEmission_iff (a : Arena) (limit : Nat) {stmts : List Stmt} :
    (a.stmtsEmission limit stmts).headed ↔ ∀ s ∈ stmts, s.skeleton.Headed := by
  rw [stmtsEmission_headed, Outline.headedAll_iff, Stmt.outlineAll_eq_map, List.forall_mem_map]
  rfl

theorem nesting_stmtsEmission_le_iff (a : Arena) (limit : Nat) {stmts : List Stmt} {n : Nat} :
    (a.stmtsEmission limit stmts).nesting ≤ n ↔ ∀ s ∈ stmts, s.skeleton.nesting ≤ n := by
  rw [stmtsEmission_nesting, Outline.nestingAll_le_iff, Stmt.outlineAll_eq_map,
    List.forall_mem_map]
  rfl

theorem affords_stmtsEmission {a : Arena} {limit : Nat} {stmts : List Stmt} :
    a.Affords limit 0 (a.stmtsEmission limit stmts) ↔
      (∀ id ∈ Stmt.rootsAll stmts, ∃ text, a.renderExpr id limit = .ok text) ∧
      (∀ s ∈ stmts, s.skeleton.Headed) ∧ ∀ s ∈ stmts, s.skeleton.nesting ≤ limit := by
  rw [← headed_stmtsEmission_iff a limit, ← nesting_stmtsEmission_le_iff a limit]
  constructor
  · rintro ⟨htexts, hheaded, hroom⟩
    exact ⟨htexts, hheaded, by omega⟩
  · rintro ⟨htexts, hheaded, hroom⟩
    exact ⟨htexts, hheaded, by omega⟩

theorem faults_stmtsEmission {a : Arena} {limit : Nat} {stmts : List Stmt} {e : RenderError}
    (h : a.Faults limit 0 (a.stmtsEmission limit stmts) e) :
    (∃ id ∈ Stmt.rootsAll stmts, a.renderExpr id limit = .error e) ∨
      ((∃ s ∈ stmts, ¬ s.skeleton.Headed) ∧ e = .missingCondition) ∨
      ((∃ s ∈ stmts, limit < s.skeleton.nesting) ∧ e = .nestingTooDeep limit) := by
  rcases h with htext | ⟨hheaded, rfl⟩ | ⟨hdeep, rfl⟩
  · exact Or.inl htext
  · rw [headed_stmtsEmission_iff] at hheaded
    exact Or.inr (Or.inl ⟨by simpa using hheaded, rfl⟩)
  · rw [Nat.zero_add, ← Nat.not_le, nesting_stmtsEmission_le_iff] at hdeep
    exact Or.inr (Or.inr ⟨by simpa using hdeep, rfl⟩)

/-- Statements are rendered if and only if each expression in them has a text within the limit, each
`if` chain in them starts with a condition, and their blocks nest no deeper than the limit. Any
other rendering is an error and nothing else, and the error names one of these failures. -/
theorem render_isOk_iff (a : Arena) (stmts : List Stmt) (options : RenderOptions) :
    ((∃ r, a.render stmts options = .ok r) ↔
      (∀ id ∈ Stmt.rootsAll stmts, ∃ text, a.renderExpr id options.maxDepth = .ok text) ∧
      (∀ s ∈ stmts, s.skeleton.Headed) ∧
      ∀ s ∈ stmts, s.skeleton.nesting ≤ options.maxDepth) ∧
    ∀ e, a.render stmts options = .error e →
      (∃ id ∈ Stmt.rootsAll stmts, a.renderExpr id options.maxDepth = .error e) ∨
      ((∃ s ∈ stmts, ¬ s.skeleton.Headed) ∧ e = .missingCondition) ∨
      ((∃ s ∈ stmts, options.maxDepth < s.skeleton.nesting) ∧
        e = .nestingTooDeep options.maxDepth) := by
  refine ⟨?_, fun e he => faults_stmtsEmission (faults_of_render he)⟩
  rw [← affords_stmtsEmission]
  constructor
  · rintro ⟨r, hr⟩
    exact (render_eq_ok_iff.mp hr).1
  · intro hafford
    exact ⟨_, render_eq_ok_iff.mpr ⟨hafford, rfl⟩⟩

end KernelForge.Arena
