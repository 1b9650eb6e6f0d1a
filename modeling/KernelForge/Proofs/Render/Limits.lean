import KernelForge.Proofs.Render.Frame
import KernelForge.Proofs.Render.Independence

/-!
# The depth limit

The limit does not take part in what is rendered. A rendering under a lower limit is cut off, or it
is the rendering under the higher one, text or error alike. Operands are older than what they belong
to, so a limit above the id of the root is never met, whatever the arena holds: the walk ends
without any limit, and the limits only cut it off.
-/
namespace KernelForge

/-! ## Cutting off -/

/-- The first outcome is the second one, unless the limit was met before. -/
def CutOff {α : Type} (limit : Nat) (x y : Except RenderError α) : Prop :=
  x = .error (.nestingTooDeep limit) ∨ x = y

namespace CutOff

variable {α β : Type} {limit : Nat}

theorem refl (x : Except RenderError α) : CutOff limit x x := Or.inr rfl

theorem bind {x y : Except RenderError α} {f g : α → Except RenderError β}
    (h : CutOff limit x y) (hf : ∀ v, CutOff limit (f v) (g v)) :
    CutOff limit (x.bind f) (y.bind g) := by
  rcases h with rfl | rfl
  · exact Or.inl rfl
  · cases x with
    | error e => exact refl _
    | ok v => exact hf v

theorem map {x y : Except RenderError α} (h : CutOff limit x y) (f : α → β) :
    CutOff limit (x.map f) (y.map f) := by
  rcases h with rfl | rfl
  · exact Or.inl rfl
  · exact refl _

theorem mapM {f g : α → Except RenderError β} (h : ∀ x, CutOff limit (f x) (g x)) (xs : List α) :
    CutOff limit (xs.mapM f) (xs.mapM g) := by
  induction xs with
  | nil => exact refl _
  | cons x rest ih =>
    rw [List.mapM_cons, List.mapM_cons]
    exact (h x).bind fun _ => ih.bind fun _ => refl _

end CutOff

/-- The outcome is not that a limit was met. -/
def Unlimited {α : Type} (x : Except RenderError α) : Prop :=
  ∀ limit, x ≠ .error (.nestingTooDeep limit)

namespace Unlimited

variable {α β : Type}

theorem ok (v : α) : Unlimited (.ok v) := by simp [Unlimited]

theorem bind {x : Except RenderError α} {f : α → Except RenderError β} (h : Unlimited x)
    (hf : ∀ v, Unlimited (f v)) : Unlimited (x.bind f) := by
  cases x with
  | error e => exact fun limit he => h limit (congrArg Except.error (Except.error.inj he))
  | ok v => exact hf v

theorem map {x : Except RenderError α} (h : Unlimited x) (f : α → β) : Unlimited (x.map f) := by
  cases x with
  | error e => exact fun limit he => h limit (congrArg Except.error (Except.error.inj he))
  | ok v => exact ok _

theorem mapM {f : α → Except RenderError β} (h : ∀ x, Unlimited (f x)) (xs : List α) :
    Unlimited (xs.mapM f) := by
  induction xs with
  | nil => exact ok _
  | cons x rest ih =>
    rw [List.mapM_cons]
    exact (h x).bind fun _ => ih.bind fun _ => ok _

end Unlimited

/-- The same writer under another limit. -/
def Writer.setMaxDepth (w : Writer) (limit : Nat) : Writer :=
  { w with options := w.options.setMaxDepth limit }

namespace Arena

/-! ## Expressions -/

/-- Fewer levels cut the same walk off earlier. -/
theorem renderWithin_cutOff (a : Arena) (limit limit' : Nat) {levels levels' : Nat}
    (hle : levels ≤ levels') (parent : Option NodeId) (id : NodeId) :
    CutOff limit (a.renderWithin limit levels parent id)
      (a.renderWithin limit' levels' parent id) := by
  induction levels generalizing levels' parent id with
  | zero => exact Or.inl (by rw [renderWithin])
  | succ levels ih =>
    obtain ⟨more, rfl⟩ : ∃ more, levels' = more + 1 := ⟨levels' - 1, by omega⟩
    have hops : ∀ o, CutOff limit (a.renderWithin limit levels (some id) o)
        (a.renderWithin limit' more (some id) o) := ih (by omega) (some id)
    rw [renderWithin_succ, renderWithin_succ]
    exact (CutOff.refl _).bind fun node => (CutOff.refl _).bind fun ids =>
      (CutOff.mapM hops ids).map _

theorem renderExpr_cutOff (a : Arena) {limit limit' : Nat} (hle : limit ≤ limit') (root : NodeId) :
    CutOff limit (a.renderExpr root limit) (a.renderExpr root limit') :=
  a.renderWithin_cutOff limit limit' (by omega) none root

/-- The text of the expression below an id, with no limit on the depth. The walk ends because each
operand is older than the node that it belongs to. -/
def renderUnlimited (a : Arena) (id : NodeId) : Except RenderError String :=
  (a.follow none id).bind fun node =>
    (a.inspect id node).bind fun ids =>
      (ids.mapM fun o =>
        if _ : o.index < id.index then a.renderUnlimited o
        else .error (.forwardReference id o)).map (a.assemble node)
termination_by id.index

theorem follow_older (a : Arena) {parent id : NodeId} (h : id.index < parent.index) :
    a.follow (some parent) id = a.follow none id := by
  simp [follow, Nat.not_le.mpr h]

/-- A walk that may go one level deeper than the id of its root is never cut off. -/
theorem renderWithin_eq_renderUnlimited (a : Arena) (limit : Nat) {levels : Nat} {id : NodeId}
    (hlevels : id.index + 2 ≤ levels) :
    a.renderWithin limit levels none id = a.renderUnlimited id := by
  induction levels generalizing id with
  | zero => omega
  | succ levels ih =>
    rw [renderWithin_succ, renderUnlimited]
    congr 1
    funext node
    congr 1
    funext ids
    congr 1
    refine mapM_congr fun o _ => ?_
    by_cases ho : o.index < id.index
    · rw [dif_pos ho, ← ih (by omega)]
      obtain ⟨below, rfl⟩ : ∃ below, levels = below + 1 := ⟨levels - 1, by omega⟩
      rw [renderWithin_succ, renderWithin_succ, a.follow_older ho]
    · -- the id of the operand is looked at first, and there is still a level for that
      obtain ⟨below, rfl⟩ : ∃ below, levels = below + 1 := ⟨levels - 1, by omega⟩
      rw [dif_neg ho, renderWithin_succ]
      simp [follow, Nat.not_lt.mp ho, Except.bind]

theorem follow_unlimited (a : Arena) (parent : Option NodeId) (id : NodeId) :
    Unlimited (a.follow parent id) := by
  have hget : Unlimited ((a.get? id).elim (.error (.unknownNode id)) .ok) := by
    cases a.get? id <;> simp [Unlimited]
  cases parent with
  | none => exact hget
  | some p =>
    by_cases hp : p.index ≤ id.index
    · simp [follow, hp, Unlimited]
    · simpa [follow, hp] using hget

theorem declarationText_unlimited (a : Arena) (parent target : NodeId) :
    Unlimited (a.declarationText parent target) := by
  have hbind : a.declarationText parent target =
      (a.follow (some parent) target).bind fun node =>
        node.content?.elim (.error (.unhandledNode target .targetNotVariable)) fun v =>
          v.declaration?.elim (.error (.unhandledNode target .targetNotDeclarable)) .ok := by
    unfold declarationText
    cases a.follow (some parent) target with
    | error e => rfl
    | ok node =>
      simp only [Except.bind]
      cases node.content? <;> rfl
  rw [hbind]
  refine (a.follow_unlimited _ _).bind fun node => ?_
  cases node.content? with
  | none => simp [Unlimited]
  | some v => cases hv : v.declaration? <;> simp [Unlimited, hv]

theorem inspect_unlimited (a : Arena) (id : NodeId) (node : Node) :
    Unlimited (a.inspect id node) := by
  cases node with
  | declare target => exact (a.declarationText_unlimited id target).map _
  | call callee args =>
    intro limit
    cases h : a.list? args <;> simp [inspect, h]
  | _ => exact Unlimited.ok _

/-- Without a limit there is none to exceed. -/
theorem renderUnlimited_unlimited (a : Arena) (id : NodeId) : Unlimited (a.renderUnlimited id) := by
  fun_induction a.renderUnlimited id with
  | case1 id ih =>
    refine (a.follow_unlimited none id).bind fun node =>
      (a.inspect_unlimited id node).bind fun ids =>
      (Unlimited.mapM (fun o => ?_) ids).map _
    split
    · rename_i ho
      exact ih o ho
    · simp [Unlimited]

/-! ## Statements -/

/-- Runs of one action by two writers that differ in the limit only. The first run is cut off, or
both do the same. -/
def CutRuns (limit limit' : Nat) (m : Emit Unit) : Prop :=
  ∀ w : Writer, w.options.maxDepth = limit →
    (∃ w', m w = (.error (.nestingTooDeep limit), w')) ∨
      m (w.setMaxDepth limit') = ((m w).1, (m w).2.setMaxDepth limit') ∧
        (m w).2.options.maxDepth = limit

/-- An action that does not ask for the limit. -/
theorem CutRuns.of_eq {limit limit' : Nat} {m : Emit Unit} {result : Except RenderError Unit}
    {f : Writer → Writer} (h : ∀ w, m w = (result, f w))
    (hf : ∀ w d, f (w.setMaxDepth d) = (f w).setMaxDepth d)
    (hkeeps : ∀ w, (f w).options.maxDepth = w.options.maxDepth) : CutRuns limit limit' m := by
  intro w hlimit
  exact Or.inr ⟨by rw [h, h, hf], by rw [h, hkeeps, hlimit]⟩

theorem CutRuns.bind {limit limit' : Nat} {m m' : Emit Unit} (h : CutRuns limit limit' m)
    (h' : CutRuns limit limit' m') : CutRuns limit limit' (m >>= fun _ => m') := by
  intro w hlimit
  rcases h w hlimit with ⟨w', hcut⟩ | ⟨hsame, hkept⟩
  · exact Or.inl ⟨w', by rw [emit_bind, hcut]⟩
  · rw [emit_bind, emit_bind, hsame]
    cases hm : m w with
    | mk result after =>
      rw [hm] at hkept
      cases result with
      | error e => exact Or.inr ⟨rfl, hkept⟩
      | ok u => exact h' after hkept

theorem CutRuns.nested {limit limit' : Nat} {m : Emit Unit} (hle : limit ≤ limit')
    (h : CutRuns limit limit' m) : CutRuns limit limit' (Emit.nested m) := by
  rintro w rfl
  by_cases hroom : w.depth < w.options.maxDepth
  · have henter : w.enter = .ok { w with depth := w.depth + 1, indent := w.indent + 1 } := by
      rw [Writer.enter, if_neg (Nat.not_le.mpr hroom)]
    have henter' : (w.setMaxDepth limit').enter =
        .ok (Writer.setMaxDepth { w with depth := w.depth + 1, indent := w.indent + 1 }
          limit') := by
      have hroom' : ¬ (w.setMaxDepth limit').options.maxDepth ≤ (w.setMaxDepth limit').depth :=
        Nat.not_le.mpr (Nat.lt_of_lt_of_le hroom hle)
      rw [Writer.enter, if_neg hroom']
      rfl
    rcases h { w with depth := w.depth + 1, indent := w.indent + 1 } rfl with
      ⟨w', hcut⟩ | ⟨hsame, hkept⟩
    · exact Or.inl ⟨w'.leave, by simp only [Emit.nested, henter, hcut]⟩
    · right
      simp only [Emit.nested, henter, henter', hsame]
      exact ⟨rfl, hkept⟩
  · exact Or.inl ⟨w, by
      simp only [Emit.nested, Writer.enter_eq_error_iff.mpr ⟨Nat.not_lt.mp hroom, rfl⟩]⟩

theorem CutRuns.exprText {a : Arena} {limit limit' : Nat} (hle : limit ≤ limit') {id : NodeId}
    {k : String → Emit Unit} (h : CutRuns limit limit' (k (a.textWithin a.size id))) :
    CutRuns limit limit' (a.exprText id >>= k) := by
  intro w hlimit
  have hrun : ∀ v : Writer, a.exprText id v = (a.renderExpr id v.options.maxDepth, v) :=
    fun _ => rfl
  have hmax : (w.setMaxDepth limit').options.maxDepth = limit' := rfl
  rw [emit_bind, emit_bind, hrun, hrun, hlimit, hmax]
  rcases a.renderExpr_cutOff hle id with hcut | hsame
  · exact Or.inl ⟨w, by rw [hcut]⟩
  · rw [← hsame]
    cases htext : a.renderExpr id limit with
    | error e => exact Or.inr ⟨rfl, hlimit⟩
    | ok text =>
      rw [textWithin_size htext] at h
      exact h w hlimit

theorem cutRuns_rules (a : Arena) {limit limit' : Nat} (hle : limit ≤ limit') :
    a.Rules a.size fun m _ => CutRuns limit limit' m where
  pure := .of_eq (f := id) (fun _ => rfl) (fun _ _ => rfl) fun _ => rfl
  line text := .of_eq (f := fun w => w.line text) (fun _ => rfl) (fun _ _ => rfl) fun _ => rfl
  report d := .of_eq (f := fun w => w.report d) (fun _ => rfl) (fun _ _ => rfl) fun _ => rfl
  bind := .bind
  nested := .nested hle
  exprText := .exprText hle
  missingCondition _ _ := .of_eq (f := id) (fun _ => rfl) (fun _ _ => rfl) fun _ => rfl

theorem render_cutOff (a : Arena) {limit limit' : Nat} (hle : limit ≤ limit') (stmts : List Stmt)
    (options : RenderOptions) :
    CutOff limit (a.render stmts (options.setMaxDepth limit))
      (a.render stmts (options.setMaxDepth limit')) := by
  have hruns := (a.cutRuns_rules hle).stmts stmts
  rcases hruns (Writer.new (options.setMaxDepth limit)) rfl with ⟨w', hcut⟩ | ⟨hsame, -⟩
  · exact Or.inl (by rw [render, hcut])
  · have hnew : (Writer.new (options.setMaxDepth limit)).setMaxDepth limit' =
        Writer.new (options.setMaxDepth limit') := rfl
    rw [hnew] at hsame
    right
    rw [render, render, hsame]
    cases a.writeAll stmts (Writer.new (options.setMaxDepth limit)) with
    | mk result after => cases result <;> rfl

/-- A limit only cuts renderings off. Under the lower of two limits an expression is refused for its
depth, or it gives the same text or the same error as under the higher one, whatever the arena
holds, and so do statements with their code and their diagnostics. No expression is refused for its
depth under a limit above its id: there it gives what the walk without a limit gives. -/
theorem limit_cuts_off (a : Arena) {low high : Nat} (hle : low ≤ high) :
    (∀ root, a.renderExpr root low = .error (.nestingTooDeep low) ∨
      a.renderExpr root low = a.renderExpr root high) ∧
    (∀ root limit, root.index < limit →
      a.renderExpr root limit = a.renderUnlimited root ∧
      ∀ reported, a.renderExpr root limit ≠ .error (.nestingTooDeep reported)) ∧
    ∀ (stmts : List Stmt) (options : RenderOptions),
      a.render stmts (options.setMaxDepth low) = .error (.nestingTooDeep low) ∨
      a.render stmts (options.setMaxDepth low) = a.render stmts (options.setMaxDepth high) := by
  refine ⟨a.renderExpr_cutOff hle, fun root limit hlimit => ?_, a.render_cutOff hle⟩
  have hwalk : a.renderExpr root limit = a.renderUnlimited root :=
    a.renderWithin_eq_renderUnlimited limit (by omega)
  exact ⟨hwalk, hwalk ▸ a.renderUnlimited_unlimited root⟩

/-- A sum of a variable behind a minus and the sum itself: under a limit of one the variable is too
deep, under a limit above the id of the sum and without a limit the sum is refused as its own
operand. -/
theorem limit_cuts_off_cycle :
    let a : Arena := ⟨#[.leaf (.scalar .u32 "x"), .unary .neg ⟨0⟩, .binary .add ⟨1⟩ ⟨2⟩], #[]⟩
    1 ≤ 3 ∧ 2 < 3 ∧
      a.renderExpr ⟨2⟩ 1 = .error (.nestingTooDeep 1) ∧
      a.renderUnlimited ⟨2⟩ = .error (.forwardReference ⟨2⟩ ⟨2⟩) ∧
      ∀ options : RenderOptions,
        a.render [.expr ⟨2⟩] (options.setMaxDepth 1) = .error (.nestingTooDeep 1) ∨
        a.render [.expr ⟨2⟩] (options.setMaxDepth 1) =
          a.render [.expr ⟨2⟩] (options.setMaxDepth 3) := by
  intro a
  obtain ⟨-, hwalk, hstmts⟩ := a.limit_cuts_off (show 1 ≤ 3 by decide)
  have hdeep : a.renderExpr ⟨2⟩ 3 = .error (.forwardReference ⟨2⟩ ⟨2⟩) := by rfl
  refine ⟨by decide, by decide, by rfl, ?_, hstmts [.expr ⟨2⟩]⟩
  rw [← (hwalk ⟨2⟩ 3 (by decide)).1, hdeep]

end Arena

end KernelForge
