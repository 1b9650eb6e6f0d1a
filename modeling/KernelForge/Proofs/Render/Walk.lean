import KernelForge.Proofs.Expr.Tree
import KernelForge.Render.Expression

/-!
# One step of the walk

`renderWithin` treats each kind of node in a branch of its own. Every branch looks at the node,
renders the operands from left to right and puts their texts together, and this is said here once
for all kinds of nodes.
-/
namespace KernelForge

theorem mapM_eq_ok_iff {ε α β : Type} {f : α → Except ε β} {xs : List α} {ys : List β} :
    xs.mapM f = .ok ys ↔ List.Forall₂ (fun x y => f x = .ok y) xs ys := by
  induction xs generalizing ys with
  | nil => cases ys <;> simp [pure, Except.pure]
  | cons x xs ih =>
    rw [List.mapM_cons]
    cases hx : f x with
    | error e =>
      refine iff_of_false (by simp [bind, Except.bind]) fun h => ?_
      cases h with
      | cons hy => simp [hx] at hy
    | ok y =>
      have hrest : ∀ zs, xs.mapM f = .ok zs ↔ List.Forall₂ (fun x y => f x = .ok y) xs zs :=
        fun zs => ih
      cases hxs : xs.mapM f with
      | error e =>
        refine iff_of_false (by simp [bind, Except.bind]) fun h => ?_
        cases h with
        | cons _ hzs => simp [hxs] at hrest; exact hrest _ hzs
      | ok zs =>
        constructor
        · intro h
          obtain rfl : y :: zs = ys := by simpa [bind, Except.bind, pure, Except.pure] using h
          exact .cons hx ((hrest zs).mp hxs)
        · intro h
          cases h with
          | cons hy hzs =>
            obtain rfl := Except.ok.inj (hx.symm.trans hy)
            obtain rfl := Except.ok.inj (hxs.symm.trans ((hrest _).mpr hzs))
            rfl

theorem exists_mapM_iff {ε α β : Type} {f : α → Except ε β} {xs : List α} :
    (∃ ys, xs.mapM f = .ok ys) ↔ ∀ x ∈ xs, ∃ y, f x = .ok y := by
  simp only [mapM_eq_ok_iff]
  induction xs with
  | nil => simp
  | cons x rest ih => simp [List.forall₂_cons_left_iff, ← ih]

/-- The first of several steps that fails gives the error. -/
theorem first_error_of_mapM {ε α β : Type} {f : α → Except ε β} {xs : List α} {e : ε}
    (h : xs.mapM f = .error e) :
    ∃ (i : Nat) (x : α), xs[i]? = some x ∧ f x = .error e ∧
      ∀ j < i, ∀ y, xs[j]? = some y → ∃ z, f y = .ok z := by
  induction xs with
  | nil => simp [pure, Except.pure] at h
  | cons x rest ih =>
    rw [List.mapM_cons] at h
    cases hx : f x with
    | error e' =>
      have heq : e' = e := by simpa [hx, bind, Except.bind] using h
      exact ⟨0, x, rfl, heq ▸ hx, fun j hj => absurd hj (Nat.not_lt_zero j)⟩
    | ok z =>
      have hrest : rest.mapM f = .error e := by
        cases hrest : rest.mapM f with
        | ok zs => simp [hx, hrest, bind, Except.bind, pure, Except.pure] at h
        | error e' => simpa [hx, hrest, bind, Except.bind] using h
      obtain ⟨i, y, hy, herror, hbefore⟩ := ih hrest
      refine ⟨i + 1, y, hy, herror, fun j hj w hw => ?_⟩
      cases j with
      | zero =>
        obtain rfl := Option.some.inj hw
        exact ⟨z, hx⟩
      | succ j => exact hbefore j (by omega) w hw

theorem error_of_mapM {ε α β : Type} {f : α → Except ε β} {xs : List α} {e : ε}
    (h : xs.mapM f = .error e) : ∃ x ∈ xs, f x = .error e := by
  obtain ⟨i, x, hx, herror, -⟩ := first_error_of_mapM h
  exact ⟨x, List.mem_of_getElem? hx, herror⟩

namespace Arena

/-- The operands to write out, once the node itself was found fit: a declaration needs a text and
the arguments of a call have to be stored. -/
def inspect (a : Arena) (id : NodeId) : Node → Except RenderError (List NodeId)
  | .declare target => (a.declarationText id target).map fun _ => []
  | .call _ args => (a.list? args).elim (.error (.unhandledNode id .argumentsNotStored)) .ok
  | node => .ok node.children

/-- The text of a node over the texts of its operands. -/
def assemble (a : Arena) : Node → List String → String
  | .leaf v, _ => v.text
  | .declare target, _ => ((a.content? target).bind Variable.declaration?).getD ""
  | .assign _ _, [t, v] => t ++ " = " ++ v
  | .index _ _, [b, i] => b ++ " [ " ++ i ++ " ]"
  | .binary op _ _, [l, r] => l ++ " " ++ op.symbol ++ " " ++ r
  | .unary op _, [o] => op.applied o
  | .call callee _, texts => callText callee.name texts
  | _, _ => ""

theorem follow_eq_ok_iff {a : Arena} {parent : Option NodeId} {id : NodeId} {node : Node} :
    a.follow parent id = .ok node ↔
      (∀ p, parent = some p → id.index < p.index) ∧ a.get? id = some node := by
  have hget : (a.get? id).elim (.error (RenderError.unknownNode id)) Except.ok = Except.ok node ↔
      a.get? id = some node := by
    cases a.get? id <;> simp
  cases parent with
  | none => simp [follow, hget]
  | some p =>
    by_cases hp : p.index ≤ id.index
    · simp [follow, hp, Nat.not_lt.mpr hp]
    · simp [follow, hp, hget, Nat.lt_of_not_le hp]

theorem declarationText_eq_ok_iff {a : Arena} {parent target : NodeId} {text : String} :
    a.declarationText parent target = .ok text ↔
      target.index < parent.index ∧
        (a.content? target).bind Variable.declaration? = some text := by
  unfold declarationText
  cases hf : a.follow (some parent) target with
  | error e =>
    have hno : ∀ node, ¬ (target.index < parent.index ∧ a.get? target = some node) := by
      intro node hn
      have hok : a.follow (some parent) target = .ok node :=
        follow_eq_ok_iff.mpr ⟨by simpa using hn.1, hn.2⟩
      simp [hf] at hok
    cases hv : a.content? target with
    | none => simp
    | some v => simpa using fun hlt => absurd ⟨hlt, content?_eq_some_iff.mp hv⟩ (hno (.leaf v))
  | ok node =>
    obtain ⟨hlt, hn⟩ := follow_eq_ok_iff.mp hf
    have hlt : target.index < parent.index := hlt parent rfl
    cases hv : node.content? with
    | none => simp [content?, hn, hv]
    | some v => cases hd : v.declaration? <;> simp [content?, hn, hv, hd, hlt]

theorem inspect_eq_ok_iff {a : Arena} {id : NodeId} {node : Node} {ids : List NodeId} :
    a.inspect id node = .ok ids ↔ a.Fit id node ∧ ids = a.expanded node := by
  cases node with
  | declare target =>
    cases hd : a.declarationText id target with
    | error e =>
      have hno : ¬ a.Fit id (.declare target) := by
        rintro ⟨hlt, v, hv, hs⟩
        obtain ⟨text, ht⟩ := Option.isSome_iff_exists.mp hs
        have hok : a.declarationText id target = .ok text :=
          declarationText_eq_ok_iff.mpr ⟨hlt, by simpa [hv] using ht⟩
        simp [hd] at hok
      simp [inspect, hd, hno, Except.map]
    | ok text =>
      obtain ⟨hlt, ht⟩ := declarationText_eq_ok_iff.mp hd
      obtain ⟨v, hv, hs⟩ := Option.bind_eq_some_iff.mp ht
      have hfit : a.Fit id (.declare target) := ⟨hlt, v, hv, by simp [hs]⟩
      simp [inspect, hd, hfit, Except.map, expanded, eq_comm]
  | call callee args =>
    cases hl : a.list? args <;> simp [inspect, Fit, expanded, operands, hl, eq_comm]
  | _ => simp [inspect, Fit, expanded, operands, eq_comm]

theorem renderWithin_succ (a : Arena) (limit levels : Nat) (parent : Option NodeId) (id : NodeId) :
    a.renderWithin limit (levels + 1) parent id =
      (a.follow parent id).bind fun node =>
        (a.inspect id node).bind fun ids =>
          (ids.mapM (a.renderWithin limit levels (some id))).map (a.assemble node) := by
  rw [renderWithin]
  cases hf : a.follow parent id with
  | error e => rfl
  | ok node =>
    cases node with
    | leaf v => rfl
    | declare target =>
      simp only [inspect, Except.bind, bind]
      cases hd : a.declarationText id target with
      | error e => rfl
      | ok text => simp [Except.map, assemble, (declarationText_eq_ok_iff.mp hd).2, pure, Except.pure]
    | assign target value =>
      simp only [inspect, Except.bind, bind, Node.children, List.mapM_cons, List.mapM_nil]
      cases a.renderWithin limit levels (some id) target with
      | error e => rfl
      | ok t => cases a.renderWithin limit levels (some id) value <;> rfl
    | index base index =>
      simp only [inspect, Except.bind, bind, Node.children, List.mapM_cons, List.mapM_nil]
      cases a.renderWithin limit levels (some id) base with
      | error e => rfl
      | ok b => cases a.renderWithin limit levels (some id) index <;> rfl
    | binary op left right =>
      simp only [inspect, Except.bind, bind, Node.children, List.mapM_cons, List.mapM_nil]
      cases a.renderWithin limit levels (some id) left with
      | error e => rfl
      | ok l => cases a.renderWithin limit levels (some id) right <;> rfl
    | unary op operand =>
      simp only [inspect, Except.bind, bind, Node.children, List.mapM_cons, List.mapM_nil]
      cases a.renderWithin limit levels (some id) operand <;> rfl
    | call callee args =>
      simp only [inspect, Except.bind, bind]
      cases a.list? args with
      | none => rfl
      | some ids =>
        simp only [Option.elim]
        cases ids.mapM (a.renderWithin limit levels (some id)) <;> rfl

/-- A walk succeeds when the id may be followed, its node is fit, and the walks of the operands
succeed. -/
theorem renderWithin_eq_ok_iff {a : Arena} {limit levels : Nat} {parent : Option NodeId}
    {id : NodeId} {text : String} :
    a.renderWithin limit (levels + 1) parent id = .ok text ↔
      (∀ p, parent = some p → id.index < p.index) ∧
        ∃ node, a.get? id = some node ∧ a.Fit id node ∧
          ∃ texts, List.Forall₂ (fun o t => a.renderWithin limit levels (some id) o = .ok t)
            (a.expanded node) texts ∧ a.assemble node texts = text := by
  rw [renderWithin_succ]
  constructor
  · intro h
    cases hf : a.follow parent id with
    | error e => simp [hf, Except.bind] at h
    | ok node =>
      obtain ⟨holder, hn⟩ := follow_eq_ok_iff.mp hf
      cases hi : a.inspect id node with
      | error e => simp [hf, hi, Except.bind] at h
      | ok ids =>
        obtain ⟨hfit, rfl⟩ := inspect_eq_ok_iff.mp hi
        cases ht : (a.expanded node).mapM (a.renderWithin limit levels (some id)) with
        | error e => simp [hf, hi, ht, Except.bind, Except.map] at h
        | ok texts =>
          refine ⟨holder, node, hn, hfit, texts, mapM_eq_ok_iff.mp ht, ?_⟩
          simpa [hf, hi, ht, Except.bind, Except.map] using h
  · rintro ⟨holder, node, hn, hfit, texts, ht, rfl⟩
    have hf := follow_eq_ok_iff.mpr ⟨holder, hn⟩
    have hi := inspect_eq_ok_iff.mpr ⟨hfit, rfl⟩
    simp [hf, hi, mapM_eq_ok_iff.mpr ht, Except.bind, Except.map]

end Arena

end KernelForge
