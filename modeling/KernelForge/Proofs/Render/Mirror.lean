import KernelForge.Proofs.Render.Walk

/-!
# Walks that mirror each other

Nodes of one arena may have images in another one, with the same leaves and with the images of their
operands. Walks below a node and below its image then have the same outcome. Only the ids that an
error names may differ.
-/
namespace KernelForge

/-- An error without the ids that it names. -/
def RenderError.withoutIds : RenderError → RenderError
  | unknownNode _ => .unknownNode .invalid
  | unhandledNode _ reason => .unhandledNode .invalid reason
  | forwardReference _ _ => .forwardReference .invalid .invalid
  | missingCondition => .missingCondition
  | nestingTooDeep limit => .nestingTooDeep limit

/-- The outcome of a rendering without the ids of its error. -/
def outcome {α : Type} (r : Except RenderError α) : Except RenderError α :=
  r.mapError RenderError.withoutIds

@[simp] theorem outcome_ok {α : Type} (x : α) : outcome (.ok x) = .ok x := rfl

@[simp] theorem outcome_error {α : Type} (e : RenderError) :
    outcome (.error e : Except RenderError α) = .error e.withoutIds := rfl

theorem outcome_map {α β : Type} (r : Except RenderError α) (f : α → β) :
    outcome (r.map f) = (outcome r).map f := by
  cases r <;> rfl

theorem outcome_bind {α β : Type} {r s : Except RenderError α} {f g : α → Except RenderError β}
    (h : outcome r = outcome s) (hf : ∀ x, s = .ok x → outcome (f x) = outcome (g x)) :
    outcome (r.bind f) = outcome (s.bind g) := by
  cases r with
  | error e =>
    cases s with
    | error e' => exact congrArg Except.error (Except.error.inj h)
    | ok y => cases h
  | ok x =>
    cases s with
    | error e' => cases h
    | ok y =>
      obtain rfl := Except.ok.inj h
      exact hf x rfl

theorem outcome_mapM {α β γ : Type} {f : β → Except RenderError γ} {g : α → Except RenderError γ}
    {image : α → β} {xs : List α} (h : ∀ x ∈ xs, outcome (f (image x)) = outcome (g x)) :
    outcome ((xs.map image).mapM f) = outcome (xs.mapM g) := by
  induction xs with
  | nil => rfl
  | cons x rest ih =>
    rw [List.map_cons, List.mapM_cons, List.mapM_cons]
    refine outcome_bind (h x (by simp)) fun y _ => ?_
    refine outcome_bind (ih fun z hz => h z (by simp [hz])) fun ys _ => rfl

namespace Arena

/-- A node and what it looks like in the other arena. -/
inductive Mirror (a b : Arena) (image : NodeId → NodeId) : Node → Node → Prop
  | leaf (v : Variable) : Mirror a b image (.leaf v) (.leaf v)
  | declare (target : NodeId) : Mirror a b image (.declare target) (.declare (image target))
  | assign (target value : NodeId) :
    Mirror a b image (.assign target value) (.assign (image target) (image value))
  | index (base i : NodeId) : Mirror a b image (.index base i) (.index (image base) (image i))
  | binary (op : BinaryOp) (left right : NodeId) :
    Mirror a b image (.binary op left right) (.binary op (image left) (image right))
  | unary (op : UnaryOp) (operand : NodeId) :
    Mirror a b image (.unary op operand) (.unary op (image operand))
  | call (callee : Signature) {range range' : ArgRange} {ids : List NodeId}
    (stored : a.list? range = some ids) (copied : b.list? range' = some (ids.map image)) :
    Mirror a b image (.call callee range) (.call callee range')

/-- The nodes in question have images, their operands are among them, and operands are older on both
sides. -/
structure Mirrored (a b : Arena) (image : NodeId → NodeId) (known : NodeId → Prop) : Prop where
  node : ∀ id, known id → ∃ node node', a.get? id = some node ∧ b.get? (image id) = some node' ∧
    Mirror a b image node node'
  operand : ∀ id node o, known id → a.get? id = some node → o ∈ a.operands node →
    known o ∧ o.index < id.index ∧ (image o).index < (image id).index

section

variable {a b : Arena} {image : NodeId → NodeId} {known : NodeId → Prop}
  (hm : Mirrored a b image known)
include hm

theorem Mirrored.content? {id : NodeId} (hid : known id) :
    b.content? (image id) = a.content? id := by
  obtain ⟨node, node', hnode, hnode', hmirror⟩ := hm.node id hid
  unfold Arena.content?
  rw [hnode, hnode']
  cases hmirror <;> rfl

theorem Mirrored.declarationText {id target : NodeId} (hid : known id)
    (hnode : a.get? id = some (.declare target)) :
    outcome (b.declarationText (image id) (image target)) =
      outcome (a.declarationText id target) := by
  obtain ⟨htarget, hlt, hlt'⟩ := hm.operand id _ target hid hnode (by simp [operands, Node.children])
  obtain ⟨node, node', hn, hn', -⟩ := hm.node target htarget
  have hf : a.follow (some id) target = .ok node :=
    follow_eq_ok_iff.mpr ⟨by rintro p ⟨⟩; exact hlt, hn⟩
  have hf' : b.follow (some (image id)) (image target) = .ok node' :=
    follow_eq_ok_iff.mpr ⟨by rintro p ⟨⟩; exact hlt', hn'⟩
  have hcontent : node'.content? = node.content? := by
    have := hm.content? htarget
    simpa [Arena.content?, hn, hn'] using this
  simp only [Arena.declarationText, hf, hf', hcontent]
  cases node.content? with
  | none => rfl
  | some v => cases hd : v.declaration? <;> simp [hd, RenderError.withoutIds]

theorem Mirrored.inspect {id : NodeId} {node node' : Node} (hid : known id)
    (hnode : a.get? id = some node) (hmirror : Mirror a b image node node') :
    outcome (b.inspect (image id) node') = outcome ((a.inspect id node).map (List.map image)) := by
  cases hmirror with
  | declare target =>
    simp only [Arena.inspect, outcome_map, hm.declarationText hid hnode]
    cases outcome (a.declarationText id target) <;> rfl
  | call callee stored copied => simp [Arena.inspect, stored, copied, Except.map]
  | _ => rfl

theorem Mirrored.assemble {id : NodeId} {node node' : Node} (hid : known id)
    (hnode : a.get? id = some node) (hmirror : Mirror a b image node node') (texts : List String) :
    b.assemble node' texts = a.assemble node texts := by
  cases hmirror with
  | declare target =>
    obtain ⟨htarget, -⟩ := hm.operand id _ target hid hnode (by simp [operands, Node.children])
    simp only [Arena.assemble, hm.content? htarget]
  | assign target value => rcases texts with _ | ⟨_, _ | ⟨_, _ | _⟩⟩ <;> rfl
  | index base i => rcases texts with _ | ⟨_, _ | ⟨_, _ | _⟩⟩ <;> rfl
  | binary op left right => rcases texts with _ | ⟨_, _ | ⟨_, _ | _⟩⟩ <;> rfl
  | unary op operand => rcases texts with _ | ⟨_, _ | _⟩ <;> rfl
  | _ => rfl

/-- The walks have the same outcome, level by level. -/
theorem Mirrored.renderWithin {limit levels : Nat} {parent parent' : Option NodeId} {id : NodeId}
    (hid : known id) (older : ∀ p, parent = some p → id.index < p.index)
    (older' : ∀ p, parent' = some p → (image id).index < p.index) :
    outcome (b.renderWithin limit levels parent' (image id)) =
      outcome (a.renderWithin limit levels parent id) := by
  induction levels generalizing parent parent' id with
  | zero => rfl
  | succ levels ih =>
    obtain ⟨node, node', hnode, hnode', hmirror⟩ := hm.node id hid
    rw [renderWithin_succ, renderWithin_succ, follow_eq_ok_iff.mpr ⟨older, hnode⟩,
      follow_eq_ok_iff.mpr ⟨older', hnode'⟩]
    have hinspect := hm.inspect hid hnode hmirror
    have hstep : ∀ ids, a.inspect id node = .ok ids →
        outcome (((ids.map image).mapM (b.renderWithin limit levels (some (image id)))).map
          (b.assemble node')) =
        outcome ((ids.mapM (a.renderWithin limit levels (some id))).map (a.assemble node)) := by
      intro ids hids
      obtain ⟨-, rfl⟩ := inspect_eq_ok_iff.mp hids
      rw [funext (hm.assemble hid hnode hmirror), outcome_map, outcome_map]
      refine congrArg _ (outcome_mapM fun o ho => ?_)
      have ho := mem_operands_of_mem_expanded ho
      obtain ⟨hknown, hlt, hlt'⟩ := hm.operand id node o hid hnode ho
      exact ih hknown (by rintro p ⟨⟩; exact hlt) (by rintro p ⟨⟩; exact hlt')
    simp only [Except.bind]
    cases hi : a.inspect id node with
    | error e =>
      rw [hi] at hinspect
      cases hi' : b.inspect (image id) node' with
      | error e' => simpa [hi', Except.map] using hinspect
      | ok ids => simp [hi', Except.map] at hinspect
    | ok ids =>
      rw [hi] at hinspect
      cases hi' : b.inspect (image id) node' with
      | error e' => simp [hi', Except.map] at hinspect
      | ok ids' =>
        obtain rfl : ids' = ids.map image := by simpa [hi', Except.map] using hinspect
        exact hstep ids hi

theorem Mirrored.renderExpr {id : NodeId} (hid : known id) (limit : Nat) :
    outcome (b.renderExpr (image id) limit) = outcome (a.renderExpr id limit) :=
  hm.renderWithin hid (by simp) (by simp)

end

end Arena

end KernelForge
