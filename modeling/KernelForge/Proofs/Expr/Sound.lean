import KernelForge.Proofs.Expr.Tree
import KernelForge.Session.Copying

/-!
# Sound arenas

An arena that is only built by allocation names older nodes only and stores the arguments of each of
its calls. Whatever is in it stays where it is while the arena is extended.
-/
namespace KernelForge

namespace Arena

/-- Every operand is an older node, and the arguments of every call are stored. -/
structure Sound (a : Arena) : Prop where
  older : ∀ id node o, a.get? id = some node → o ∈ a.operands node → o.index < id.index
  stored : ∀ id callee range, a.get? id = some (.call callee range) →
    ∃ ids, a.list? range = some ids ∧ ids.length ≤ maxArguments

/-- Every node and every stored list of `a` is in `b`, in its place. -/
structure Extends (a b : Arena) : Prop where
  node : ∀ id node, a.get? id = some node → b.get? id = some node
  list : ∀ range ids, a.list? range = some ids → b.list? range = some ids

theorem Extends.refl (a : Arena) : a.Extends a := ⟨fun _ _ h => h, fun _ _ h => h⟩

theorem Extends.trans {a b c : Arena} (hab : a.Extends b) (hbc : b.Extends c) : a.Extends c :=
  ⟨fun id node h => hbc.node id node (hab.node id node h),
    fun range ids h => hbc.list range ids (hab.list range ids h)⟩

theorem Extends.content? {a b : Arena} (h : a.Extends b) {id : NodeId} {v : Variable}
    (hv : a.content? id = some v) : b.content? id = some v :=
  content?_eq_some_iff.mpr (h.node id _ (content?_eq_some_iff.mp hv))

theorem Extends.size_le {a b : Arena} (h : a.Extends b) : a.size ≤ b.size := by
  by_contra hlt
  obtain ⟨node, hnode⟩ :=
    exists_get?_of_lt (show (⟨b.size⟩ : NodeId).index < a.size by simpa using hlt)
  have hb := lt_of_get? (h.node _ _ hnode)
  exact Nat.lt_irrefl _ hb

theorem Sound.operand_resolves {a : Arena} (hs : a.Sound) {id o : NodeId} {node : Node}
    (hnode : a.get? id = some node) (ho : o ∈ a.operands node) : (a.get? o).isSome := by
  have hlt := hs.older id node o hnode ho
  have hid := lt_of_get? hnode
  exact get?_isSome_iff.mpr (by omega)

theorem operands_call {a : Arena} {callee : Signature} {range : ArgRange} {ids : List NodeId}
    (h : a.list? range = some ids) : a.operands (.call callee range) = ids := by
  simp [operands, h]

theorem operands_eq_children {a : Arena} {node : Node}
    (h : ∀ callee range, node ≠ .call callee range) : a.operands node = node.children := by
  cases node with
  | call callee range => exact absurd rfl (h callee range)
  | _ => rfl

/-- The operands of a node of a sound arena stay the same when the arena is extended. -/
theorem Extends.operands_eq {a b : Arena} (h : a.Extends b) (hs : a.Sound) {id : NodeId}
    {node : Node} (hnode : a.get? id = some node) : b.operands node = a.operands node := by
  cases node with
  | call callee range =>
    obtain ⟨ids, hids, -⟩ := hs.stored id callee range hnode
    rw [operands_call hids, operands_call (h.list range ids hids)]
  | _ => rfl

/-! ## Lists -/

theorem list?_eq (a : Arena) (range : ArgRange) :
    a.list? range =
      if range.start + range.length ≤ a.arguments.toList.length then
        some ((a.arguments.toList.drop range.start).take range.length)
      else none := by
  simp [list?, List.extract_eq_take_drop]

/-- A list that is stored stays when more ids are put behind it. -/
theorem list?_append {a : Arena} {range : ArgRange} {ids : List NodeId} (more : List NodeId)
    (h : a.list? range = some ids) :
    ({ a with arguments := a.arguments ++ more } : Arena).list? range = some ids := by
  rw [list?_eq] at h ⊢
  split_ifs at h with hle
  have hle' : range.start + range.length ≤ (a.arguments ++ more).toList.length := by
    simp only [Array.toList_appendList, List.length_append]
    omega
  rw [if_pos hle', ← h, Array.toList_appendList, List.drop_append_of_le_length (by omega),
    List.take_append_of_le_length (by simp only [List.length_drop]; omega)]

theorem list?_appendList (a : Arena) (ids : List NodeId) :
    (a.appendList ids).2.list? (a.appendList ids).1 = some ids := by
  cases ids with
  | nil => simp [appendList, list?_eq, ArgRange.empty]
  | cons id rest =>
    rw [list?_eq]
    simp [appendList]

theorem extends_appendList (a : Arena) (ids : List NodeId) : a.Extends (a.appendList ids).2 :=
  ⟨fun _ _ h => h, fun _ _ h => list?_append ids h⟩

theorem extends_alloc (a : Arena) (node : Node) : a.Extends (a.alloc node).2 := by
  refine ⟨fun id n h => ?_, fun _ _ h => h⟩
  have hlt := lt_of_get? h
  rw [get?_alloc, if_neg (by omega), h]

theorem storeList_eq_appendList {a : Arena} {ids : List NodeId} (h : ids.length ≤ maxArguments) :
    a.storeList ids = (.ok (a.appendList ids).1, (a.appendList ids).2) := by
  unfold storeList appendList
  cases ids with
  | nil => rfl
  | cons id rest => simp_all

theorem storeList_eq_error {a : Arena} {ids : List NodeId} (h : maxArguments < ids.length) :
    a.storeList ids = (.error ⟨ids.length⟩, (a.appendList ids).2) := by
  have hne : ids.length ≠ 0 := by omega
  simp [storeList, appendList, hne, Nat.not_le.mpr h]

/-! ## What keeps an arena sound -/

theorem Sound.appendList {a : Arena} (hs : a.Sound) (ids : List NodeId) :
    (a.appendList ids).2.Sound := by
  have hext := a.extends_appendList ids
  constructor
  · intro id node o hnode ho
    rw [hext.operands_eq hs hnode] at ho
    exact hs.older id node o hnode ho
  · intro id callee range hnode
    obtain ⟨ids', hids, hlen⟩ := hs.stored id callee range hnode
    exact ⟨ids', hext.list range ids' hids, hlen⟩

theorem Sound.alloc {a : Arena} (hs : a.Sound) {node : Node}
    (older : ∀ o ∈ a.operands node, o.index < a.size)
    (stored : ∀ callee range, node = .call callee range →
      ∃ ids, a.list? range = some ids ∧ ids.length ≤ maxArguments) : (a.alloc node).2.Sound := by
  constructor
  · intro id n o hn ho
    rw [get?_alloc] at hn
    split_ifs at hn with hid
    · obtain rfl := Option.some.inj hn
      rw [hid]
      exact older o ho
    · exact hs.older id n o hn ho
  · intro id callee range hn
    rw [get?_alloc] at hn
    split_ifs at hn with hid
    · exact stored callee range (Option.some.inj hn)
    · exact hs.stored id callee range hn

theorem Sound.overwrite {a : Arena} (hs : a.Sound) (id : NodeId) (v : Variable) :
    (a.overwrite id (.leaf v)).Sound := by
  constructor
  · intro other node o hnode ho
    rw [get?_overwrite] at hnode
    split_ifs at hnode
    · obtain rfl := Option.some.inj hnode
      simp [operands, Node.children] at ho
    · exact hs.older other node o hnode ho
  · intro other callee range hnode
    rw [get?_overwrite] at hnode
    split_ifs at hnode
    · simp at hnode
    · exact hs.stored other callee range hnode

theorem content?_alloc (a : Arena) (node : Node) (id : NodeId) :
    (a.alloc node).2.content? id = if id.index = a.size then node.content? else a.content? id := by
  unfold content?
  rw [get?_alloc]
  split_ifs <;> rfl

theorem content?_size (a : Arena) : a.content? ⟨a.size⟩ = none := by
  simp [content?, get?, size]

theorem content?_overwrite {a : Arena} {id : NodeId} {v : Variable} (other : NodeId) (w : Variable)
    (h : a.content? id = some v) :
    (a.overwrite id (.leaf w)).content? other = if id = other then some w else a.content? other := by
  have hlt := lt_of_get? (content?_eq_some_iff.mp h)
  unfold content?
  rw [get?_overwrite]
  by_cases hid : id = other
  · subst hid
    simp [hlt, Node.content?]
  · have hne : id.index ≠ other.index := fun he => hid (NodeId.eq_of_index_eq he)
    simp [hid, hne]

end Arena

end KernelForge
