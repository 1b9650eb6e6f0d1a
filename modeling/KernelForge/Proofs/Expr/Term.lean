import KernelForge.Proofs.Expr.Reach

/-!
# Terms

What a node stands for: the node and its operands written out, the target of a declaration among
them, without any ids. In a sound arena every id has a term, which stays the same while the arena is
extended. What holds everywhere in a term holds of all nodes at or below its root.
-/
namespace KernelForge

/-- What a node is apart from its operands. -/
inductive Label
  | leaf (content : Variable)
  | declare
  | assign
  | index
  | binary (op : BinaryOp)
  | unary (op : UnaryOp)
  | call (callee : Signature)
  deriving DecidableEq

def Node.label : Node → Label
  | leaf v => .leaf v
  | declare _ => .declare
  | assign _ _ => .assign
  | index _ _ => .index
  | binary op _ _ => .binary op
  | unary op _ => .unary op
  | call callee _ => .call callee

inductive Term
  /-- Stands for an id that no node has, or that its node may not name. -/
  | missing
  | node (label : Label) (operands : List Term)

namespace Term

/-- A constant, a parameter or a variable. -/
def leaf (v : Variable) : Term := .node (.leaf v) []

mutual

/-- Nothing is missing, and `p` holds of every label and the operands that it stands over. -/
def Everywhere (p : Label → List Term → Prop) : Term → Prop
  | missing => False
  | node label operands => p label operands ∧ EverywhereAll p operands

def EverywhereAll (p : Label → List Term → Prop) : List Term → Prop
  | [] => True
  | t :: rest => t.Everywhere p ∧ EverywhereAll p rest

end

theorem everywhereAll_iff {p : Label → List Term → Prop} {ts : List Term} :
    EverywhereAll p ts ↔ ∀ t ∈ ts, t.Everywhere p := by
  induction ts with
  | nil => simp [EverywhereAll]
  | cons t rest ih => simp [EverywhereAll, ih]

@[simp] theorem everywhere_node {p : Label → List Term → Prop} {label : Label} {ts : List Term} :
    (node label ts).Everywhere p ↔ p label ts ∧ ∀ t ∈ ts, t.Everywhere p := by
  rw [Everywhere, everywhereAll_iff]

mutual

/-- The longest way down to a node that is written out. The target of a declaration is not. -/
def height : Term → Nat
  | missing | node .declare _ => 0
  | node _ operands => heightAll operands

def heightAll : List Term → Nat
  | [] => 0
  | t :: rest => max (t.height + 1) (heightAll rest)

end

theorem heightAll_le_iff {ts : List Term} {n : Nat} :
    heightAll ts ≤ n ↔ ∀ t ∈ ts, t.height < n := by
  induction ts with
  | nil => simp [heightAll]
  | cons t rest ih => rw [heightAll, Nat.max_le, ih, List.forall_mem_cons, Nat.add_one_le_iff]

/-- Terms are built up from their parts. -/
theorem induction {motive : Term → Prop} (missing : motive missing)
    (node : ∀ label ts, (∀ t ∈ ts, motive t) → motive (node label ts)) : ∀ t, motive t
  | .missing => missing
  | .node label ts => node label ts fun t _ => induction missing node t

theorem Everywhere.imp {p q : Label → List Term → Prop} (hpq : ∀ label ts, p label ts → q label ts)
    {t : Term} (h : t.Everywhere p) : t.Everywhere q := by
  induction t using Term.induction with
  | missing => exact h.elim
  | node label ts ih =>
    rw [everywhere_node] at h ⊢
    exact ⟨hpq _ _ h.1, fun u hu => ih u hu (h.2 u hu)⟩

end Term

namespace Arena

/-- The term of an id. -/
def term (a : Arena) (id : NodeId) : Term :=
  match a.get? id with
  | none => .missing
  | some node => .node node.label ((a.operands node).map fun o =>
      if o.index < id.index then a.term o else .missing)
termination_by id.index

/-- In a sound arena a node stands for its label over the terms of its operands. -/
theorem Sound.term_eq {a : Arena} (hs : a.Sound) {id : NodeId} {node : Node}
    (h : a.get? id = some node) : a.term id = .node node.label ((a.operands node).map a.term) := by
  rw [term, h]
  refine congrArg _ (List.map_congr_left fun o ho => ?_)
  rw [if_pos (hs.older id node o h ho)]

theorem term_of_content? {a : Arena} {id : NodeId} {v : Variable} (h : a.content? id = some v) :
    a.term id = .leaf v := by
  rw [term, content?_eq_some_iff.mp h]
  rfl

/-- Terms stay what they are while the arena is extended. -/
theorem Extends.term_eq {a b : Arena} (h : a.Extends b) (ha : a.Sound) (hb : b.Sound) {id : NodeId}
    (hid : id.index < a.size) : b.term id = a.term id := by
  induction hn : id.index using Nat.strongRecOn generalizing id with
  | ind n ih =>
    obtain ⟨node, hnode⟩ := exists_get?_of_lt hid
    rw [ha.term_eq hnode, hb.term_eq (h.node id node hnode), h.operands_eq ha hnode]
    refine congrArg _ (List.map_congr_left fun o ho => ?_)
    have hlt := ha.older id node o hnode ho
    exact ih o.index (by omega) (by omega) rfl

/-- What holds everywhere in the term of a root holds of the nodes at or below the root. -/
theorem Sound.everywhere_term_iff {a : Arena} (hs : a.Sound) {p : Label → List Term → Prop}
    {root : NodeId} (hroot : root.index < a.size) :
    (a.term root).Everywhere p ↔ ∀ id node, a.Reaches root id → a.get? id = some node →
      p node.label ((a.operands node).map a.term) := by
  induction hn : root.index using Nat.strongRecOn generalizing root with
  | ind n ih =>
    obtain ⟨node, hnode⟩ := exists_get?_of_lt hroot
    rw [hs.term_eq hnode, Term.everywhere_node]
    simp only [List.mem_map, forall_exists_index, and_imp, forall_apply_eq_imp_iff₂]
    have hops : ∀ o ∈ a.operands node, ((a.term o).Everywhere p ↔
        ∀ id node, a.Reaches o id → a.get? id = some node →
          p node.label ((a.operands node).map a.term)) := by
      intro o ho
      have hlt := hs.older root node o hnode ho
      exact ih o.index (by omega) (by omega) rfl
    constructor
    · rintro ⟨hp, hall⟩ id other hreach hother
      rcases Relation.ReflTransGen.cases_head hreach with rfl | ⟨o, ⟨node', hnode', ho⟩, hrest⟩
      · obtain rfl := Option.some.inj (hnode.symm.trans hother)
        exact hp
      · obtain rfl := Option.some.inj (hnode.symm.trans hnode')
        exact (hops o ho).mp (hall o ho) id other hrest hother
    · intro h
      refine ⟨h root node .refl hnode, fun o ho => (hops o ho).mpr fun id other hreach => ?_⟩
      exact h id other (.head ⟨node, hnode, ho⟩ hreach)

end Arena

end KernelForge
