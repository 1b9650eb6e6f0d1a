import KernelForge.Proofs.Expr.Term
import KernelForge.Proofs.Render.Mirror

/-!
# The text of a term

In a sound arena the outcome of rendering an expression is a function of its term: only the ids that
an error names depend on the arena. A rendering can then fail in two ways only. A declaration is of
something that cannot be declared, or the term is too high.
-/
namespace KernelForge

theorem outcome_eq_ok_iff {α : Type} {r : Except RenderError α} {x : α} :
    outcome r = .ok x ↔ r = .ok x := by
  cases r <;> simp

/-- The text of a node over the texts of its operands. -/
def Label.assemble : Label → List String → String
  | .leaf v, _ => v.text
  | .assign, [t, v] => t ++ " = " ++ v
  | .index, [b, i] => b ++ " [ " ++ i ++ " ]"
  | .binary op, [l, r] => l ++ " " ++ op.symbol ++ " " ++ r
  | .unary op, [o] => op.applied o
  | .call callee, texts => callText callee.name texts
  | _, _ => ""

namespace Term

/-- The text of a declaration, given the term of its target. -/
def declaration : List Term → Except RenderError String
  | [.node (.leaf v) []] =>
    v.declaration?.elim (.error (.unhandledNode .invalid .targetNotDeclarable)) .ok
  | _ => .error (.unhandledNode .invalid .targetNotVariable)

/-- Renders a term of at most `levels` levels, its own included. -/
def render (limit : Nat) : Nat → Term → Except RenderError String
  | 0, _ => .error (.nestingTooDeep limit)
  | _ + 1, .missing => .error (.unknownNode .invalid)
  | _ + 1, .node .declare operands => declaration operands
  | levels + 1, .node label operands => (operands.mapM (render limit levels)).map label.assemble

theorem render_node {limit levels : Nat} {label : Label} (h : label ≠ .declare)
    (operands : List Term) : render limit (levels + 1) (.node label operands) =
      (operands.mapM (render limit levels)).map label.assemble := by
  cases label <;> first | rfl | exact absurd rfl h

/-- A declaration of a leaf that has a declaration text. -/
def Declarable (label : Label) (operands : List Term) : Prop :=
  label = .declare → ∃ v, operands = [leaf v] ∧ v.declaration?.isSome

theorem exists_declaration_iff {operands : List Term} :
    (∃ text, declaration operands = .ok text) ↔ Declarable .declare operands := by
  unfold Declarable declaration
  split
  · rename_i v
    cases hd : v.declaration? <;> simp [leaf, hd]
  · rename_i hno
    simp only [reduceCtorEq, exists_false, forall_const, false_iff]
    rintro ⟨v, rfl, -⟩
    exact hno v rfl

/-- The two ways in which a rendering fails: a declaration of something that cannot be declared, and
nesting beyond the limit. -/
def Failure (limit : Nat) : RenderError → Prop
  | .unhandledNode _ reason => reason = .targetNotVariable ∨ reason = .targetNotDeclarable
  | .nestingTooDeep l => l = limit
  | _ => False

theorem failure_withoutIds {limit : Nat} {e : RenderError} :
    Failure limit e.withoutIds ↔ Failure limit e := by
  cases e <;> exact Iff.rfl

theorem failure_of_declaration {limit : Nat} {operands : List Term} {e : RenderError}
    (h : declaration operands = .error e) : Failure limit e := by
  unfold declaration at h
  split at h
  · rename_i v
    cases hd : v.declaration? with
    | none =>
      obtain rfl : RenderError.unhandledNode .invalid .targetNotDeclarable = e := by
        simpa [hd] using h
      exact Or.inr rfl
    | some text => simp [hd] at h
  · obtain rfl := Except.error.inj h
    exact Or.inl rfl

/-- A term in which nothing is missing is rendered exactly when all its declarations are of something
declarable and it is not too high. -/
theorem exists_render_iff {limit levels : Nat} {t : Term}
    (ht : t.Everywhere fun _ _ => True) :
    (∃ text, t.render limit levels = .ok text) ↔ t.Everywhere Declarable ∧ t.height < levels := by
  induction levels generalizing t with
  | zero => simp [render]
  | succ levels ih =>
    cases t with
    | missing => exact ht.elim
    | node label operands =>
      rw [everywhere_node] at ht ⊢
      by_cases hl : label = .declare
      · -- the target of a declaration is looked up and not rendered
        subst hl
        have hleaf : Declarable .declare operands → ∀ t ∈ operands, t.Everywhere Declarable := by
          intro h t hmem
          obtain ⟨v, rfl, -⟩ := h rfl
          obtain rfl := List.mem_singleton.mp hmem
          simp [leaf, Declarable]
        refine exists_declaration_iff.trans ⟨fun h => ⟨⟨h, hleaf h⟩, ?_⟩, fun h => h.1.1⟩
        simp [height]
      · have hheight : (node label operands).height < levels + 1 ↔
            ∀ t ∈ operands, t.height < levels := by
          rw [Nat.lt_succ_iff, ← heightAll_le_iff]
          cases label <;> first | rfl | exact absurd rfl hl
        have hops : (∃ texts, operands.mapM (render limit levels) = .ok texts) ↔
            ∀ t ∈ operands, t.Everywhere Declarable ∧ t.height < levels :=
          exists_mapM_iff.trans (forall₂_congr fun t hmem => ih (ht.2 t hmem))
        rw [render_node hl, hheight]
        constructor
        · rintro ⟨text, htext⟩
          cases hm : operands.mapM (render limit levels) with
          | error e => simp [hm, Except.map] at htext
          | ok texts =>
            have hall := hops.mp ⟨texts, hm⟩
            exact ⟨⟨fun h => absurd h hl, fun t h => (hall t h).1⟩, fun t h => (hall t h).2⟩
        · rintro ⟨⟨-, hdeclarable⟩, hlow⟩
          obtain ⟨texts, hm⟩ := hops.mpr fun t h => ⟨hdeclarable t h, hlow t h⟩
          exact ⟨_, by rw [hm]; rfl⟩

theorem failure_of_render {limit levels : Nat} {t : Term} (ht : t.Everywhere fun _ _ => True)
    {e : RenderError} (h : t.render limit levels = .error e) : Failure limit e := by
  induction levels generalizing t with
  | zero =>
    obtain rfl := Except.error.inj h
    rfl
  | succ levels ih =>
    cases t with
    | missing => exact ht.elim
    | node label operands =>
      rw [everywhere_node] at ht
      by_cases hl : label = .declare
      · subst hl
        exact failure_of_declaration h
      · rw [render_node hl] at h
        cases hm : operands.mapM (render limit levels) with
        | ok texts => simp [hm, Except.map] at h
        | error e' =>
          obtain rfl : e' = e := by simpa [hm, Except.map] using h
          obtain ⟨o, ho, herror⟩ := error_of_mapM hm
          exact ih (ht.2 o ho) herror

end Term

namespace Arena

theorem assemble_label {node : Node} (h : ∀ target, node ≠ .declare target) (a : Arena) :
    node.label.assemble = a.assemble node := by
  funext texts
  cases node with
  | declare target => exact absurd rfl (h target)
  | assign target value => rcases texts with _ | ⟨_, _ | ⟨_, _ | _⟩⟩ <;> rfl
  | index base i => rcases texts with _ | ⟨_, _ | ⟨_, _ | _⟩⟩ <;> rfl
  | binary op left right => rcases texts with _ | ⟨_, _ | ⟨_, _ | _⟩⟩ <;> rfl
  | unary op operand => rcases texts with _ | ⟨_, _ | _⟩ <;> rfl
  | _ => rfl

section

variable {a : Arena} (hs : a.Sound)
include hs

theorem Sound.declarationText_eq {id target : NodeId} (hlt : target.index < id.index)
    (htarget : target.index < a.size) :
    outcome (a.declarationText id target) = outcome (Term.declaration [a.term target]) := by
  obtain ⟨node, hnode⟩ := exists_get?_of_lt htarget
  have hfollow : a.follow (some id) target = .ok node :=
    follow_eq_ok_iff.mpr ⟨by rintro p ⟨⟩; exact hlt, hnode⟩
  rw [declarationText, hfollow, hs.term_eq hnode]
  cases node with
  | leaf v => cases hd : v.declaration? <;>
      simp [Term.declaration, Node.content?, Node.label, operands, Node.children, hd,
        RenderError.withoutIds]
  | _ => rfl

/-- What is rendered below a node is what its term renders to. -/
theorem Sound.renderWithin_eq {limit levels : Nat} {parent : Option NodeId} {id : NodeId}
    (hid : id.index < a.size) (older : ∀ p, parent = some p → id.index < p.index) :
    outcome (a.renderWithin limit levels parent id) =
      outcome ((a.term id).render limit levels) := by
  induction levels generalizing parent id with
  | zero => rfl
  | succ levels ih =>
    obtain ⟨node, hnode⟩ := exists_get?_of_lt hid
    rw [renderWithin_succ, follow_eq_ok_iff.mpr ⟨older, hnode⟩, hs.term_eq hnode]
    have holder : ∀ o ∈ a.operands node, o.index < id.index := fun o ho => hs.older id node o hnode ho
    have hops : outcome ((a.operands node).mapM (a.renderWithin limit levels (some id))) =
        outcome (((a.operands node).map a.term).mapM (Term.render limit levels)) := by
      refine (outcome_mapM fun o ho => ?_).symm
      have hlt := holder o ho
      exact (ih (by omega) (by rintro p ⟨⟩; exact hlt)).symm
    by_cases hdeclare : ∃ target, node = .declare target
    · obtain ⟨target, rfl⟩ := hdeclare
      have hlt := holder target (by simp [operands, Node.children])
      have htext := hs.declarationText_eq hlt (by omega)
      refine Eq.trans ?_ htext
      simp only [inspect, Except.bind]
      cases hd : a.declarationText id target with
      | error e => rfl
      | ok text =>
        have hcontent := (declarationText_eq_ok_iff.mp hd).2
        simp [Except.map, assemble, hcontent, pure, Except.pure]
    · have hdeclare : ∀ target, node ≠ .declare target := fun target h => hdeclare ⟨target, h⟩
      have hinspect : a.inspect id node = .ok (a.operands node) := by
        cases node with
        | declare target => exact absurd rfl (hdeclare target)
        | call callee args =>
          obtain ⟨ids, hids, -⟩ := hs.stored id callee args hnode
          simp [inspect, operands, hids]
        | _ => rfl
      have hlabel : node.label ≠ .declare := by
        cases node with
        | declare target => exact absurd rfl (hdeclare target)
        | _ => simp [Node.label]
      simp only [Except.bind, hinspect]
      rw [Term.render_node hlabel, outcome_map, outcome_map, assemble_label hdeclare a, hops]

theorem Sound.renderExpr_eq {root : NodeId} (hroot : root.index < a.size) (limit : Nat) :
    outcome (a.renderExpr root limit) = outcome ((a.term root).render limit (limit + 1)) :=
  hs.renderWithin_eq hroot (by simp)

theorem Sound.everywhere_term {root : NodeId} (hroot : root.index < a.size) :
    (a.term root).Everywhere fun _ _ => True :=
  (hs.everywhere_term_iff hroot).mpr fun _ _ _ _ => trivial

/-- An expression has a text exactly when its term declares what is declarable and is not too high. -/
theorem Sound.exists_text_iff {root : NodeId} (hroot : root.index < a.size) {limit : Nat} :
    (∃ text, a.renderExpr root limit = .ok text) ↔
      (a.term root).Everywhere Term.Declarable ∧ (a.term root).height ≤ limit := by
  have hrender : (∃ text, (a.term root).render limit (limit + 1) = .ok text) ↔
      (a.term root).Everywhere Term.Declarable ∧ (a.term root).height < limit + 1 :=
    Term.exists_render_iff (hs.everywhere_term hroot)
  rw [← Nat.lt_succ_iff, ← hrender]
  refine exists_congr fun text => ?_
  rw [← outcome_eq_ok_iff, hs.renderExpr_eq hroot, outcome_eq_ok_iff]

/-- An expression without a text fails in one of the two ways. -/
theorem Sound.failure_of_renderExpr {root : NodeId} (hroot : root.index < a.size) {limit : Nat}
    {e : RenderError} (h : a.renderExpr root limit = .error e) : Term.Failure limit e := by
  have houtcome := hs.renderExpr_eq hroot limit
  rw [h] at houtcome
  cases hrender : (a.term root).render limit (limit + 1) with
  | ok text => simp [hrender] at houtcome
  | error e' =>
    have hids : e.withoutIds = e'.withoutIds := by simpa [hrender] using houtcome
    have hfailure := Term.failure_of_render (hs.everywhere_term hroot) hrender
    rw [← Term.failure_withoutIds] at hfailure ⊢
    rwa [hids]

end

end Arena

end KernelForge
