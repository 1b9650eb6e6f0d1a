import KernelForge.Expr.Arena
import Mathlib.Data.List.Forall2

/-!
# Expression trees

The tree below a node of an arena, with every shared operand written out in each place where it
stands, and the text of a tree by recursion on the tree. An arena may hold anything: the walk below
a node need not end, so that a node need not have a tree. `WellFormed` says of the nodes that the
walk meets what makes it have one.
-/
namespace KernelForge

theorem NodeId.eq_of_index_eq {id other : NodeId} (h : id.index = other.index) : id = other := by
  cases id
  cases other
  exact congrArg NodeId.mk h

inductive Tree
  | leaf (content : Variable)
  /-- Declares a variable. It has no operand: the variable is looked up and not written out. -/
  | declare (content : Variable)
  | assign (target value : Tree)
  | index (base index : Tree)
  | binary (op : BinaryOp) (left right : Tree)
  | unary (op : UnaryOp) (operand : Tree)
  | call (callee : Signature) (args : List Tree)

namespace Tree

mutual

/-- The text of an expression. Parentheses stand only where the tree has them, and a minus keeps a
blank from an operand that begins with a minus itself. -/
def text : Tree → String
  | leaf v => v.text
  | declare v => v.declaration?.getD ""
  | assign target value => target.text ++ " = " ++ value.text
  | index base i => base.text ++ " [ " ++ i.text ++ " ]"
  | binary op left right => left.text ++ " " ++ op.symbol ++ " " ++ right.text
  | unary .neg operand =>
    if operand.text.toList.head? = some '-' then "- " ++ operand.text else "-" ++ operand.text
  | unary .not operand => "!" ++ operand.text
  | unary .paren operand => "( " ++ operand.text ++ " )"
  | call callee [] => callee.name ++ "()"
  | call callee (first :: rest) => callee.name ++ "( " ++ first.text ++ furtherText rest ++ " )"

/-- The arguments of a call behind the first one, with a comma before each. -/
def furtherText : List Tree → String
  | [] => ""
  | arg :: rest => " , " ++ arg.text ++ furtherText rest

end

end Tree

namespace Arena

/-- The operands that are written out below a node. The target of a declaration is only looked up. -/
def expanded (a : Arena) : Node → List NodeId
  | .declare _ => []
  | node => a.operands node

theorem mem_operands_of_mem_expanded {a : Arena} {node : Node} {o : NodeId}
    (h : o ∈ a.expanded node) : o ∈ a.operands node := by
  cases node with
  | declare target => simp [expanded] at h
  | _ => exact h

/-- What a node has to meet on its own before its operands are written out. -/
def Fit (a : Arena) (id : NodeId) : Node → Prop
  | .declare target => target.index < id.index ∧
      ∃ v, a.content? target = some v ∧ v.declaration?.isSome
  | .call _ args => (a.list? args).isSome
  | _ => True

/-- The tree of a node. -/
inductive Unfolds (a : Arena) : NodeId → Tree → Prop
  | leaf {id : NodeId} {v : Variable} (found : a.get? id = some (.leaf v)) : Unfolds a id (.leaf v)
  | declare {id target : NodeId} {v : Variable} (found : a.get? id = some (.declare target))
      (holds : a.get? target = some (.leaf v)) : Unfolds a id (.declare v)
  | assign {id target value : NodeId} {t v : Tree}
      (found : a.get? id = some (.assign target value))
      (left : Unfolds a target t) (right : Unfolds a value v) : Unfolds a id (.assign t v)
  | index {id base index : NodeId} {b i : Tree} (found : a.get? id = some (.index base index))
      (left : Unfolds a base b) (right : Unfolds a index i) : Unfolds a id (.index b i)
  | binary {id left right : NodeId} {op : BinaryOp} {l r : Tree}
      (found : a.get? id = some (.binary op left right))
      (left : Unfolds a left l) (right : Unfolds a right r) : Unfolds a id (.binary op l r)
  | unary {id operand : NodeId} {op : UnaryOp} {o : Tree}
      (found : a.get? id = some (.unary op operand)) (operand : Unfolds a operand o) :
      Unfolds a id (.unary op o)
  | call {id : NodeId} {callee : Signature} {range : ArgRange} {ids : List NodeId}
      {args : List Tree} (found : a.get? id = some (.call callee range))
      (stored : a.list? range = some ids) (each : List.Forall₂ (Unfolds a) ids args) :
      Unfolds a id (.call callee args)

/-- The nodes met in the walk below `root`, each with its distance from the root. A shared operand
is met once for every path to it. -/
inductive Met (a : Arena) (root : NodeId) : Nat → NodeId → Prop
  | root : Met a root 0 root
  | operand {n : Nat} {id o : NodeId} {node : Node} (met : Met a root n id)
      (found : a.get? id = some node) (operand : o ∈ a.expanded node) : Met a root (n + 1) o

/-- The walk below `root` ends, finds what it needs and stays within `limit` steps of the root. -/
structure WellFormed (a : Arena) (root : NodeId) (limit : Nat) : Prop where
  resolves : (a.get? root).isSome
  older : ∀ n id node o, a.Met root n id → a.get? id = some node → o ∈ a.expanded node →
    o.index < id.index
  shallow : ∀ n id, a.Met root n id → n ≤ limit
  declarable : ∀ n id target, a.Met root n id → a.get? id = some (.declare target) →
    target.index < id.index ∧ ∃ v, a.get? target = some (.leaf v) ∧ v.declaration?.isSome
  stored : ∀ n id callee range, a.Met root n id → a.get? id = some (.call callee range) →
    (a.list? range).isSome

theorem content?_eq_some_iff {a : Arena} {id : NodeId} {v : Variable} :
    a.content? id = some v ↔ a.get? id = some (.leaf v) := by
  unfold content?
  cases a.get? id with
  | none => simp
  | some node => cases node <;> simp [Node.content?]

/-! ## One node at a time -/

theorem met_succ_iff {a : Arena} {root id : NodeId} {n : Nat} :
    a.Met root (n + 1) id ↔
      ∃ node o, a.get? root = some node ∧ o ∈ a.expanded node ∧ a.Met o n id := by
  constructor
  · intro h
    induction n generalizing id with
    | zero =>
      cases h with
      | operand met found ho =>
        cases met
        exact ⟨_, _, found, ho, .root⟩
    | succ n ih =>
      cases h with
      | operand met found ho =>
        obtain ⟨node, o, hnode, hmem, hmet⟩ := ih met
        exact ⟨node, o, hnode, hmem, hmet.operand found ho⟩
  · rintro ⟨node, o, hnode, hmem, hmet⟩
    induction hmet with
    | root => exact Met.root.operand hnode hmem
    | operand _ found ho ih => exact ih.operand found ho

theorem get?_isSome_iff {a : Arena} {id : NodeId} : (a.get? id).isSome ↔ id.index < a.size := by
  simp [get?, size]

theorem lt_of_get? {a : Arena} {id : NodeId} {node : Node} (h : a.get? id = some node) :
    id.index < a.size :=
  get?_isSome_iff.mp (Option.isSome_iff_exists.mpr ⟨node, h⟩)

theorem exists_get?_of_lt {a : Arena} {id : NodeId} (h : id.index < a.size) :
    ∃ node, a.get? id = some node :=
  Option.isSome_iff_exists.mp (get?_isSome_iff.mpr h)

/-- A root is well formed when its node is fit and its operands are older and well formed for one
step less. -/
theorem wellFormed_iff {a : Arena} {root : NodeId} {limit : Nat} :
    a.WellFormed root limit ↔
      ∃ node, a.get? root = some node ∧ a.Fit root node ∧
        ∀ o ∈ a.expanded node, o.index < root.index ∧ 0 < limit ∧ a.WellFormed o (limit - 1) := by
  constructor
  · intro h
    obtain ⟨node, hnode⟩ := Option.isSome_iff_exists.mp h.resolves
    refine ⟨node, hnode, ?_, fun o ho => ?_⟩
    · cases node with
      | declare target =>
        obtain ⟨hlt, v, hv, hd⟩ := h.declarable 0 root target .root hnode
        exact ⟨hlt, v, content?_eq_some_iff.mpr hv, hd⟩
      | call callee args => exact h.stored 0 root callee args .root hnode
      | _ => trivial
    · have hlt := h.older 0 root node o .root hnode ho
      have hmet : ∀ {n id}, a.Met o n id → a.Met root (n + 1) id :=
        fun hm => met_succ_iff.mpr ⟨node, o, hnode, ho, hm⟩
      have hpos := h.shallow 1 o (hmet .root)
      refine ⟨hlt, hpos, ?_, ?_, ?_, ?_, ?_⟩
      · have hroot := get?_isSome_iff.mp h.resolves
        exact get?_isSome_iff.mpr (by omega)
      · exact fun n id node o hm => h.older (n + 1) id node o (hmet hm)
      · intro n id hm
        have := h.shallow (n + 1) id (hmet hm)
        omega
      · exact fun n id target hm => h.declarable (n + 1) id target (hmet hm)
      · exact fun n id callee range hm => h.stored (n + 1) id callee range (hmet hm)
  · rintro ⟨node, hnode, hfit, hops⟩
    -- what is met is the root, or is met below one of the operands
    have hsplit : ∀ {n id}, a.Met root n id →
        (n = 0 ∧ id = root) ∨ ∃ o m, o ∈ a.expanded node ∧ n = m + 1 ∧ a.Met o m id := by
      intro n id hm
      cases n with
      | zero =>
        cases hm
        exact Or.inl ⟨rfl, rfl⟩
      | succ m =>
        obtain ⟨node', o, hnode', ho, hm'⟩ := met_succ_iff.mp hm
        obtain rfl := Option.some.inj (hnode'.symm.trans hnode)
        exact Or.inr ⟨o, m, ho, rfl, hm'⟩
    refine ⟨by simp [hnode], ?_, ?_, ?_, ?_⟩
    · intro n id node' o hm hid ho
      rcases hsplit hm with ⟨rfl, rfl⟩ | ⟨p, m, hp, rfl, hm'⟩
      · obtain rfl := Option.some.inj (hid.symm.trans hnode)
        exact (hops o ho).1
      · exact (hops p hp).2.2.older m id node' o hm' hid ho
    · intro n id hm
      rcases hsplit hm with ⟨rfl, rfl⟩ | ⟨p, m, hp, rfl, hm'⟩
      · exact Nat.zero_le _
      · have hpos := (hops p hp).2.1
        have := (hops p hp).2.2.shallow m id hm'
        omega
    · intro n id target hm hid
      rcases hsplit hm with ⟨rfl, rfl⟩ | ⟨p, m, hp, rfl, hm'⟩
      · obtain rfl := Option.some.inj (hid.symm.trans hnode)
        obtain ⟨hlt, v, hv, hd⟩ := hfit
        exact ⟨hlt, v, content?_eq_some_iff.mp hv, hd⟩
      · exact (hops p hp).2.2.declarable m id target hm' hid
    · intro n id callee range hm hid
      rcases hsplit hm with ⟨rfl, rfl⟩ | ⟨p, m, hp, rfl, hm'⟩
      · obtain rfl := Option.some.inj (hid.symm.trans hnode)
        exact hfit
      · exact (hops p hp).2.2.stored m id callee range hm' hid

/-- Each step of the walk goes to a lower id, so that no node lies further from the root than ids
lie below that of the root. -/
theorem Met.add_index_le {a : Arena} {root id : NodeId} {limit n : Nat} (h : a.WellFormed root limit)
    (hm : a.Met root n id) : n + id.index ≤ root.index := by
  induction hm with
  | root => omega
  | operand met found ho ih =>
    have hlt := h.older _ _ _ _ met found ho
    omega

/-- A root that is well formed within some limit is so within every limit that is not below its id. -/
theorem WellFormed.of_index_le {a : Arena} {root : NodeId} {limit limit' : Nat}
    (h : a.WellFormed root limit) (hle : root.index ≤ limit') : a.WellFormed root limit' := by
  refine { h with shallow := fun n id hm => ?_ }
  have := hm.add_index_le h
  omega

/-- The tree of a node over the trees of its operands. -/
def graft (a : Arena) : Node → List Tree → Option Tree
  | .leaf v, [] => some (.leaf v)
  | .declare target, [] => (a.content? target).map .declare
  | .assign _ _, [t, v] => some (.assign t v)
  | .index _ _, [b, i] => some (.index b i)
  | .binary op _ _, [l, r] => some (.binary op l r)
  | .unary op _, [o] => some (.unary op o)
  | .call callee range, args => if (a.list? range).isSome then some (.call callee args) else none
  | _, _ => none

theorem unfolds_iff {a : Arena} {id : NodeId} {tree : Tree} :
    a.Unfolds id tree ↔
      ∃ node trees, a.get? id = some node ∧ List.Forall₂ a.Unfolds (a.expanded node) trees ∧
        a.graft node trees = some tree := by
  constructor
  · intro h
    cases h with
    | leaf found => exact ⟨_, [], found, .nil, rfl⟩
    | declare found holds =>
      exact ⟨_, [], found, .nil, by simp [graft, content?_eq_some_iff.mpr holds]⟩
    | assign found left right => exact ⟨_, _, found, .cons left (.cons right .nil), rfl⟩
    | index found left right => exact ⟨_, _, found, .cons left (.cons right .nil), rfl⟩
    | binary found left right => exact ⟨_, _, found, .cons left (.cons right .nil), rfl⟩
    | unary found operand => exact ⟨_, _, found, .cons operand .nil, rfl⟩
    | call found stored each =>
      exact ⟨_, _, found, by simpa [expanded, operands, stored] using each, by simp [graft, stored]⟩
  · rintro ⟨node, trees, hnode, htrees, hgraft⟩
    cases node with
    | leaf v =>
      cases htrees
      obtain rfl := Option.some.inj hgraft
      exact .leaf hnode
    | declare target =>
      cases htrees
      obtain ⟨v, hv, rfl⟩ := Option.map_eq_some_iff.mp hgraft
      exact .declare hnode (content?_eq_some_iff.mp hv)
    | assign target value =>
      obtain - | ⟨ht, - | ⟨hv, - | -⟩⟩ := htrees
      obtain rfl := Option.some.inj hgraft
      exact .assign hnode ht hv
    | index base index =>
      obtain - | ⟨hb, - | ⟨hi, - | -⟩⟩ := htrees
      obtain rfl := Option.some.inj hgraft
      exact .index hnode hb hi
    | binary op left right =>
      obtain - | ⟨hl, - | ⟨hr, - | -⟩⟩ := htrees
      obtain rfl := Option.some.inj hgraft
      exact .binary hnode hl hr
    | unary op operand =>
      obtain - | ⟨ho, - | -⟩ := htrees
      obtain rfl := Option.some.inj hgraft
      exact .unary hnode ho
    | call callee range =>
      cases hl : a.list? range with
      | none => simp [graft, hl] at hgraft
      | some ids =>
        obtain rfl : Tree.call callee trees = tree := by simpa [graft, hl] using hgraft
        exact .call hnode hl (by simpa [expanded, operands, hl] using htrees)

/-- A fit node has a tree over as many trees as it has operands. -/
theorem graft_isSome {a : Arena} {id : NodeId} {node : Node} {trees : List Tree}
    (hfit : a.Fit id node) (hlen : (a.expanded node).length = trees.length) :
    (a.graft node trees).isSome := by
  cases node with
  | declare target =>
    obtain rfl := List.length_eq_zero_iff.mp hlen.symm
    obtain ⟨-, v, hv, -⟩ := hfit
    simp [graft, hv]
  | call callee range =>
    have hs : (a.list? range).isSome := hfit
    simp [graft, hs]
  | leaf v =>
    obtain rfl := List.length_eq_zero_iff.mp hlen.symm
    rfl
  | unary op operand =>
    obtain ⟨o, rfl⟩ := List.length_eq_one_iff.mp hlen.symm
    rfl
  | _ =>
    obtain ⟨x, y, rfl⟩ := List.length_eq_two.mp hlen.symm
    rfl

end Arena

end KernelForge
