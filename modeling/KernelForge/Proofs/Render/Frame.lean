import KernelForge.Proofs.Expr.Reach
import KernelForge.Proofs.Render.Expression

/-!
# What a rendering depends on

An expression is rendered from the nodes at or below it and from nothing else. Where arenas differ in
the contents of leaves only, an expression has the same tree over other leaves, and its rendering
fails in the same way or is the text of that tree.
-/
namespace KernelForge

theorem mapM_congr {ε α β : Type} {f g : α → Except ε β} {xs : List α}
    (h : ∀ x ∈ xs, f x = g x) : xs.mapM f = xs.mapM g := by
  induction xs with
  | nil => rfl
  | cons x rest ih =>
    rw [List.mapM_cons, List.mapM_cons, h x (by simp), ih fun y hy => h y (by simp [hy])]

theorem mapM_eq_some_iff {α β : Type} {f : α → Option β} {xs : List α} {ys : List β} :
    xs.mapM f = some ys ↔ List.Forall₂ (fun x y => f x = some y) xs ys := by
  induction xs generalizing ys with
  | nil => cases ys <;> simp
  | cons x rest ih =>
    simp only [List.mapM_cons, Option.bind_eq_bind, Option.bind_eq_some_iff, Option.pure_def,
      Option.some.injEq, List.forall₂_cons_left_iff, ih]
    constructor
    · rintro ⟨y, hy, zs, hzs, rfl⟩
      exact ⟨y, zs, hy, hzs, rfl⟩
    · rintro ⟨y, zs, hy, hzs, rfl⟩
      exact ⟨y, hy, zs, hzs, rfl⟩

/-- Whether something succeeded, and with which error it failed if it did not. -/
def verdict {ε α : Type} (r : Except ε α) : Except ε Unit := r.map fun _ => ()

theorem verdict_map {ε α β : Type} (r : Except ε α) (f : α → β) : verdict (r.map f) = verdict r := by
  cases r <;> rfl

theorem verdict_eq_error_iff {ε α : Type} {r : Except ε α} {e : ε} :
    verdict r = .error e ↔ r = .error e := by
  cases r <;> simp [verdict, Except.map]

theorem verdict_bind {ε α β : Type} {r s : Except ε α} {f g : α → Except ε β}
    (h : verdict r = verdict s) (hf : ∀ x y, verdict (f x) = verdict (g y)) :
    verdict (r.bind f) = verdict (s.bind g) := by
  cases r with
  | error e =>
    have hs : s = .error e := verdict_eq_error_iff.mp h.symm
    rw [hs]
    rfl
  | ok x =>
    cases s with
    | error e => cases h
    | ok y => exact hf x y

theorem verdict_mapM {ε α β : Type} {f g : α → Except ε β} {xs : List α}
    (h : ∀ x ∈ xs, verdict (f x) = verdict (g x)) : verdict (xs.mapM f) = verdict (xs.mapM g) := by
  induction xs with
  | nil => rfl
  | cons x rest ih =>
    rw [List.mapM_cons, List.mapM_cons]
    refine verdict_bind (h x (by simp)) fun _ _ => ?_
    exact verdict_bind (ih fun y hy => h y (by simp [hy])) fun _ _ => rfl

namespace Arena

/-! ## Arenas with the same nodes below a root -/

/-- What is at or below the root is the same in the other arena. -/
structure Keeps (a b : Arena) (root : NodeId) : Prop where
  node : ∀ id, a.Reaches root id → b.get? id = a.get? id
  list : ∀ id callee range, a.Reaches root id → a.get? id = some (.call callee range) →
    b.list? range = a.list? range

section

variable {a b : Arena} {root : NodeId}

theorem Keeps.below (h : a.Keeps b root) {o : NodeId} (ho : a.Edge root o) : a.Keeps b o :=
  ⟨fun id hid => h.node id (.head ho hid),
    fun id callee range hid => h.list id callee range (.head ho hid)⟩

theorem Keeps.edge (h : a.Keeps b root) {id o : NodeId} (hid : a.Reaches root id)
    (ho : a.Edge id o) : b.Edge id o := by
  obtain ⟨node, hnode, ho⟩ := ho
  refine ⟨node, (h.node id hid).trans hnode, ?_⟩
  cases node with
  | call callee range => rwa [operands, h.list id callee range hid hnode]
  | _ => exact ho

theorem Keeps.reaches (h : a.Keeps b root) {id : NodeId} (hid : a.Reaches root id) :
    b.Reaches root id := by
  induction hid with
  | refl => exact .refl
  | tail hreach hedge ih => exact ih.tail (h.edge hreach hedge)

theorem Keeps.trans {c : Arena} (hab : a.Keeps b root) (hbc : b.Keeps c root) : a.Keeps c root := by
  refine ⟨fun id hid => ?_, fun id callee range hid hnode => ?_⟩
  · rw [hbc.node id (hab.reaches hid), hab.node id hid]
  · rw [hbc.list id callee range (hab.reaches hid) ((hab.node id hid).trans hnode),
      hab.list id callee range hid hnode]

theorem Keeps.refl (a : Arena) (root : NodeId) : a.Keeps a root :=
  ⟨fun _ _ => rfl, fun _ _ _ _ _ => rfl⟩

theorem Sound.keeps_of_extends (hs : a.Sound) (hroot : root.index < a.size) (h : a.Extends b) :
    a.Keeps b root := by
  constructor
  · intro id hid
    have hle := hs.reaches_le hid
    obtain ⟨node, hnode⟩ := exists_get?_of_lt (show id.index < a.size by omega)
    rw [hnode, h.node id node hnode]
  · intro id callee range _ hnode
    obtain ⟨ids, hids, -⟩ := hs.stored id callee range hnode
    rw [hids, h.list range ids hids]

/-- A root is not affected by what happens to a node that is neither the root nor below it. -/
theorem keeps_overwrite {id : NodeId} (h : ¬ a.Reaches root id) (node : Node) :
    a.Keeps (a.overwrite id node) root := by
  refine ⟨fun other hother => ?_, fun _ _ _ _ _ => rfl⟩
  rw [get?_overwrite, if_neg]
  intro heq
  obtain rfl := NodeId.eq_of_index_eq heq
  exact h hother

theorem Keeps.inspect_eq (h : a.Keeps b root) {node : Node} (hnode : a.get? root = some node) :
    b.inspect root node = a.inspect root node := by
  cases node with
  | declare target =>
    have htarget := h.node target (.single ⟨_, hnode, by simp [operands, Node.children]⟩)
    simp only [inspect, declarationText, follow, htarget]
  | call callee range => simp only [inspect, h.list root callee range .refl hnode]
  | _ => rfl

theorem Keeps.assemble_eq (h : a.Keeps b root) {node : Node} (hnode : a.get? root = some node) :
    b.assemble node = a.assemble node := by
  funext texts
  cases node with
  | declare target =>
    have htarget := h.node target (.single ⟨_, hnode, by simp [operands, Node.children]⟩)
    simp only [assemble, content?, htarget]
  | assign | index | binary => rcases texts with _ | ⟨_, _ | ⟨_, _ | _⟩⟩ <;> rfl
  | unary => rcases texts with _ | ⟨_, _ | _⟩ <;> rfl
  | _ => rfl

/-- The walks below the root are the same step by step, up to the ids that an error names. -/
theorem Keeps.renderWithin_eq (h : a.Keeps b root) (limit levels : Nat) (parent : Option NodeId) :
    b.renderWithin limit levels parent root = a.renderWithin limit levels parent root := by
  induction levels generalizing parent root with
  | zero => rfl
  | succ levels ih =>
    have hfollow : b.follow parent root = a.follow parent root := by
      simp only [follow, h.node root .refl]
    rw [renderWithin_succ, renderWithin_succ, hfollow]
    cases hf : a.follow parent root with
    | error e => rfl
    | ok node =>
      have hnode := (follow_eq_ok_iff.mp hf).2
      simp only [Except.bind, h.inspect_eq hnode, h.assemble_eq hnode]
      cases hi : a.inspect root node with
      | error e => rfl
      | ok ids =>
        obtain ⟨-, rfl⟩ := inspect_eq_ok_iff.mp hi
        refine congrArg (Except.map _) (mapM_congr fun o ho => ?_)
        exact ih (h.below ⟨node, hnode, mem_operands_of_mem_expanded ho⟩) (some root)

/-- An expression is rendered from what is at or below it. -/
theorem Keeps.renderExpr_eq (h : a.Keeps b root) (limit : Nat) :
    b.renderExpr root limit = a.renderExpr root limit :=
  h.renderWithin_eq limit (limit + 1) none

end

/-! ## Arenas that differ in what the leaves hold -/

/-- The tree of a node over the trees of its operands, if the leaves hold what `read` says. -/
def plant (a : Arena) (read : NodeId → Option Variable) (id : NodeId) :
    Node → List Tree → Option Tree
  | .leaf _, [] => (read id).map .leaf
  | .declare target, [] => (read target).map .declare
  | node, trees => a.graft node trees

/-- The tree of a node, if the leaves hold what `read` says. -/
def treeWith (a : Arena) (read : NodeId → Option Variable) (id : NodeId) : Option Tree := do
  let node ← a.get? id
  let trees ← (a.expanded node).mapM fun o =>
    if o.index < id.index then a.treeWith read o else none
  a.plant read id node trees
termination_by id.index

theorem treeWith_eq_some_iff {a : Arena} {read : NodeId → Option Variable} {id : NodeId}
    {tree : Tree} :
    a.treeWith read id = some tree ↔ ∃ node trees, a.get? id = some node ∧
      List.Forall₂ (fun o t => o.index < id.index ∧ a.treeWith read o = some t)
        (a.expanded node) trees ∧ a.plant read id node trees = some tree := by
  rw [treeWith]
  simp only [Option.bind_eq_bind, Option.bind_eq_some_iff, mapM_eq_some_iff, exists_and_left,
    Option.ite_none_right_eq_some]

/-- The other arena has other contents in some leaves. Which of the leaves can be declared is the
same. -/
structure Refills (a b : Arena) : Prop where
  node : ∀ id, b.get? id = a.get? id ∨ ∃ v w, a.get? id = some (.leaf v) ∧
    b.get? id = some (.leaf w) ∧ w.declaration?.isSome = v.declaration?.isSome
  list : ∀ range, b.list? range = a.list? range

theorem Refills.refl (a : Arena) : a.Refills a := ⟨fun _ => Or.inl rfl, fun _ => rfl⟩

theorem refills_overwrite {a : Arena} {id : NodeId} {v w : Variable} (hv : a.content? id = some v)
    (hw : w.declaration?.isSome = v.declaration?.isSome) :
    a.Refills (a.overwrite id (.leaf w)) := by
  refine ⟨fun other => ?_, fun _ => rfl⟩
  have hnode := content?_eq_some_iff.mp hv
  have hlt := lt_of_get? hnode
  rw [get?_overwrite]
  split_ifs with hid
  · obtain rfl := NodeId.eq_of_index_eq hid
    exact Or.inr ⟨v, w, hnode, rfl, hw⟩
  · exact Or.inl rfl

section

variable {a b : Arena} (h : a.Refills b)
include h

theorem Refills.expanded_eq (node : Node) : b.expanded node = a.expanded node := by
  cases node with
  | call callee range => simp only [expanded, operands, h.list]
  | _ => rfl

theorem Refills.verdict_declarationText (parent target : NodeId) :
    verdict (b.declarationText parent target) = verdict (a.declarationText parent target) := by
  rcases h.node target with hsame | ⟨v, w, hv, hw, hd⟩
  · simp only [declarationText, follow, hsame]
  · simp only [declarationText, follow, hv, hw]
    split_ifs
    · rfl
    · cases hd' : v.declaration? <;> cases hd'' : w.declaration? <;>
        simp_all [Node.content?, verdict, Except.map]

theorem Refills.inspect_eq (id : NodeId) (node : Node) : b.inspect id node = a.inspect id node := by
  cases node with
  | declare target =>
    have htext := h.verdict_declarationText id target
    simp only [inspect]
    cases ha : a.declarationText id target <;> cases hb : b.declarationText id target <;>
      simp_all [verdict, Except.map]
  | call callee range => simp only [inspect, h.list]
  | _ => rfl

/-- The walks meet the same nodes and fail at the same ones. Only the texts of leaves differ. -/
theorem Refills.verdict_renderWithin (limit levels : Nat) (parent : Option NodeId) (id : NodeId) :
    verdict (b.renderWithin limit levels parent id) =
      verdict (a.renderWithin limit levels parent id) := by
  induction levels generalizing parent id with
  | zero => rfl
  | succ levels ih =>
    rw [renderWithin_succ, renderWithin_succ]
    rcases h.node id with hsame | ⟨v, w, hv, hw, -⟩
    · have hfollow : b.follow parent id = a.follow parent id := by simp only [follow, hsame]
      rw [hfollow]
      cases a.follow parent id with
      | error e => rfl
      | ok node =>
        simp only [Except.bind, h.inspect_eq]
        cases a.inspect id node with
        | error e => rfl
        | ok ids =>
          simp only [verdict_map]
          exact verdict_mapM fun o _ => ih (some id) o
    · -- a leaf has a text whatever it holds
      cases parent with
      | none =>
        simp only [follow, hv, hw]
        rfl
      | some p =>
        by_cases hp : p.index ≤ id.index <;>
          simp only [follow, hv, hw, hp, if_true, if_false] <;> rfl

theorem Refills.plant_eq {id : NodeId} {node : Node} (hnode : b.get? id = some node)
    (trees : List Tree) : a.plant b.content? id node trees = b.graft node trees := by
  cases node with
  | leaf v =>
    cases trees with
    | nil => simp [plant, graft, content?_eq_some_iff.mpr hnode]
    | cons => rfl
  | declare target => cases trees <;> rfl
  | call callee range => simp only [plant, graft, h.list]
  | _ => rcases trees with _ | ⟨_, _ | ⟨_, _ | _⟩⟩ <;> rfl

/-- The trees of the other arena are those of this one over what the other one's leaves hold. -/
theorem Refills.treeWith_eq {id : NodeId} {limit : Nat} {tree : Tree}
    (hwf : b.WellFormed id limit) (htree : b.Unfolds id tree) :
    a.treeWith b.content? id = some tree := by
  induction limit using Nat.strongRecOn generalizing id tree with
  | ind limit ih =>
    obtain ⟨node, hnode, -, hops⟩ := wellFormed_iff.mp hwf
    obtain ⟨node', trees, hnode', htrees, hgraft⟩ := unfolds_iff.mp htree
    obtain rfl := Option.some.inj (hnode.symm.trans hnode')
    have hbelow : List.Forall₂ (fun o t => o.index < id.index ∧ a.treeWith b.content? o = some t)
        (b.expanded node) trees := by
      refine (List.forall₂_and_left _ _).mpr ⟨hops, htrees⟩ |>.imp ?_
      rintro o t ⟨⟨hlt, hpos, hwf⟩, ht⟩
      exact ⟨hlt, ih (limit - 1) (by omega) hwf ht⟩
    rcases h.node id with hsame | ⟨v, w, hv, hw, -⟩
    · rw [h.expanded_eq] at hbelow
      refine treeWith_eq_some_iff.mpr ⟨node, trees, hsame.symm.trans hnode, hbelow, ?_⟩
      rw [h.plant_eq hnode, hgraft]
    · obtain rfl := Option.some.inj (hnode.symm.trans hw)
      refine treeWith_eq_some_iff.mpr ⟨.leaf v, trees, hv, hbelow, ?_⟩
      cases htrees
      rw [← hgraft]
      simp [plant, graft, content?_eq_some_iff.mpr hw]

/-- A rendering fails in both arenas in the same way, or it gives the text of the tree of the
expression over what the leaves hold. -/
theorem Refills.renderExpr (root : NodeId) (limit : Nat) :
    (∀ e, b.renderExpr root limit = .error e ↔ a.renderExpr root limit = .error e) ∧
      ∀ text, a.renderExpr root limit = .ok text → ∃ tree tree',
        a.Unfolds root tree ∧ tree.text = text ∧ a.treeWith a.content? root = some tree ∧
        a.treeWith b.content? root = some tree' ∧ b.renderExpr root limit = .ok tree'.text := by
  have hverdict := h.verdict_renderWithin limit (limit + 1) none root
  have herror : ∀ e, b.renderExpr root limit = .error e ↔ a.renderExpr root limit = .error e := by
    intro e
    rw [Arena.renderExpr, ← verdict_eq_error_iff, hverdict, verdict_eq_error_iff]
    rfl
  refine ⟨herror, fun text htext => ?_⟩
  obtain ⟨-, -, hwf, tree, htree, rfl⟩ := renderWithin_eq_ok_iff_unfolds.mp htext
  cases hb : b.renderExpr root limit with
  | error e => simp [(herror e).mp hb] at htext
  | ok text' =>
    obtain ⟨-, -, hwf', tree', htree', rfl⟩ := renderWithin_eq_ok_iff_unfolds.mp hb
    exact ⟨tree, tree', htree, rfl, (Refills.refl a).treeWith_eq hwf htree,
      h.treeWith_eq hwf' htree', rfl⟩

end

end Arena

end KernelForge
