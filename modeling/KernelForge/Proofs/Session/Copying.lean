import KernelForge.Proofs.Expr.Reach
import KernelForge.Proofs.Session.Growth

/-!
# Copies

What is known of a copying in progress. Each copied node has a node of the receiving context that
stands for it, its operands are copied too, and a later step changes neither. A named variable is
stood for by whatever the receiving table has under its name.
-/
namespace KernelForge

namespace Copies

theorem copy?_set (copies : Copies) (id other copy : NodeId) (h : id.index < copies.size) :
    copy? (copies.setIfInBounds id.index (some copy)) other =
      if id = other then some copy else copies.copy? other := by
  unfold copy?
  rw [Array.getElem?_setIfInBounds]
  by_cases hid : id = other
  · subst hid
    simp [h]
  · have hne : id.index ≠ other.index := fun he => hid (NodeId.eq_of_index_eq he)
    simp [hid, hne]

theorem image_of_copy? {copies : Copies} {id copy : NodeId} (h : copies.copy? id = some copy) :
    copies.image id = copy := by
  simp [image, h]

theorem children_rename (copies : Copies) (node : Node) :
    (copies.rename node).children = node.children.map copies.image := by
  cases node <;> rfl

end Copies

namespace Copying

/-- The node `copy` of the target stands for a node of the source. -/
def Stands (source : Arena) (m : Copying) (copy : NodeId) : Node → Prop
  | .leaf v =>
    match v.name? with
    | none => m.target.arena.get? copy = some (.leaf v)
    | some name => m.target.lookup name = some copy
  | .call callee range => ∃ copied, m.target.arena.get? copy = some (.call callee copied) ∧
      m.target.arena.list? copied = some ((source.operands (.call callee range)).map m.copies.image)
  | node => m.target.arena.get? copy = some (m.copies.rename node)

theorem stands_unnamed {source : Arena} {m : Copying} {copy : NodeId} {v : Variable}
    (h : v.name? = none) :
    m.Stands source copy (.leaf v) ↔ m.target.arena.get? copy = some (.leaf v) := by
  simp [Stands, h]

theorem stands_named {source : Arena} {m : Copying} {copy : NodeId} {v : Variable} {name : String}
    (h : v.name? = some name) :
    m.Stands source copy (.leaf v) ↔ m.target.lookup name = some copy := by
  simp [Stands, h]

structure Valid (source : Arena) (m : Copying) : Prop where
  sound : m.target.Sound
  size : m.copies.size = source.size
  closed : ∀ id o, (m.copies.copy? id).isSome → source.Edge id o → (m.copies.copy? o).isSome
  stands : ∀ id copy node, m.copies.copy? id = some copy → source.get? id = some node →
    m.Stands source copy node

/-- Copies are only added, and the target only grows. -/
structure Advances (m m' : Copying) : Prop where
  target : m.target.Grows m'.target
  copies : ∀ id copy, m.copies.copy? id = some copy → m'.copies.copy? id = some copy

theorem Advances.refl (m : Copying) : m.Advances m := ⟨.refl _, fun _ _ h => h⟩

theorem Advances.trans {m m' m'' : Copying} (h : m.Advances m') (h' : m'.Advances m'') :
    m.Advances m'' :=
  ⟨h.target.trans h'.target, fun id copy hc => h'.copies id copy (h.copies id copy hc)⟩

theorem Advances.isSome {m m' : Copying} (h : m.Advances m') {id : NodeId}
    (hid : (m.copies.copy? id).isSome) : (m'.copies.copy? id).isSome := by
  obtain ⟨copy, hc⟩ := Option.isSome_iff_exists.mp hid
  simp [h.copies id copy hc]

theorem Advances.image_eq {m m' : Copying} (h : m.Advances m') {id : NodeId}
    (hid : (m.copies.copy? id).isSome) : m'.copies.image id = m.copies.image id := by
  obtain ⟨copy, hc⟩ := Option.isSome_iff_exists.mp hid
  rw [Copies.image_of_copy? hc, Copies.image_of_copy? (h.copies id copy hc)]

theorem Advances.rename_eq {m m' : Copying} (h : m.Advances m') (node : Node)
    (hops : ∀ o ∈ node.children, (m.copies.copy? o).isSome) :
    m'.copies.rename node = m.copies.rename node := by
  cases node <;> simp_all [Copies.rename, Node.children, h.image_eq]

theorem Stands.advance {source : Arena} {m m' : Copying} (h : m.Advances m') {copy : NodeId}
    {node : Node} (hops : ∀ o ∈ source.operands node, (m.copies.copy? o).isSome)
    (hst : m.Stands source copy node) : m'.Stands source copy node := by
  have hext := h.target.extends
  have hren := fun hc => h.rename_eq node hc
  cases node with
  | leaf v =>
    cases hn : v.name? with
    | none => exact (stands_unnamed hn).mpr (hext.arena.node _ _ ((stands_unnamed hn).mp hst))
    | some name => exact (stands_named hn).mpr (hext.symbol _ _ ((stands_named hn).mp hst))
  | call callee range =>
    obtain ⟨copied, hnode, hlist⟩ := hst
    refine ⟨copied, hext.arena.node _ _ hnode, ?_⟩
    have himg : (source.operands (.call callee range)).map m'.copies.image =
        (source.operands (.call callee range)).map m.copies.image :=
      List.map_congr_left fun o ho => h.image_eq (hops o ho)
    rw [himg]
    exact hext.arena.list _ _ hlist
  | _ =>
    have hst := hext.arena.node _ _ hst
    rw [← hren hops] at hst
    exact hst

theorem Stands.operands {source : Arena} {m : Copying} {copy o : NodeId} {node : Node}
    (hst : m.Stands source copy node) (ho : o ∈ source.operands node) :
    ∃ copied, m.target.arena.get? copy = some copied ∧
      m.copies.image o ∈ m.target.arena.operands copied := by
  have hplain : ∀ n, n = node → (∀ callee range, n ≠ .call callee range) →
      m.copies.image o ∈ m.target.arena.operands (m.copies.rename n) := by
    rintro n rfl hcall
    have hcall' : ∀ callee range, m.copies.rename n ≠ .call callee range := by
      cases n <;> simp_all [Copies.rename]
    rw [Arena.operands_eq_children hcall', Copies.children_rename]
    rw [Arena.operands_eq_children hcall] at ho
    exact List.mem_map_of_mem ho
  cases node with
  | leaf v => simp [Arena.operands, Node.children] at ho
  | call callee range =>
    obtain ⟨copied, hnode, hlist⟩ := hst
    exact ⟨_, hnode, by rw [Arena.operands_call hlist]; exact List.mem_map_of_mem ho⟩
  | _ => exact ⟨_, hst, hplain _ rfl (by simp)⟩

theorem Stands.lt {source : Arena} {m : Copying} (hs : m.target.Sound) {copy : NodeId}
    {node : Node} (hst : m.Stands source copy node) : copy.index < m.target.arena.size := by
  have hget : ∀ n, m.target.arena.get? copy = some n → copy.index < m.target.arena.size :=
    fun n hn => Arena.lt_of_get? hn
  cases node with
  | leaf v =>
    cases hn : v.name? with
    | none => exact hget _ ((stands_unnamed hn).mp hst)
    | some name => exact hs.lookup_lt ((stands_named hn).mp hst)
  | call callee range =>
    obtain ⟨copied, hnode, -⟩ := hst
    exact hget _ hnode
  | _ => exact hget _ hst

theorem Valid.lt_of_copy? {source : Arena} {m : Copying} (hv : m.Valid source) {id copy : NodeId}
    (h : m.copies.copy? id = some copy) : id.index < source.size := by
  rw [← hv.size]
  by_contra hge
  have hnone : m.copies[id.index]? = none := Array.getElem?_eq_none (by omega)
  simp [Copies.copy?, hnone] at h

theorem Valid.copy_lt {source : Arena} {m : Copying} (hv : m.Valid source) {id copy : NodeId}
    (h : m.copies.copy? id = some copy) (hid : id.index < source.size) :
    copy.index < m.target.arena.size := by
  obtain ⟨node, hnode⟩ := Arena.exists_get?_of_lt hid
  exact (hv.stands id copy node h hnode).lt hv.sound

theorem Valid.image_lt {source : Arena} (hs : source.Sound) {m : Copying} (hv : m.Valid source)
    {id : NodeId} {node : Node} (hnode : source.get? id = some node)
    (hops : ∀ o ∈ source.operands node, (m.copies.copy? o).isSome) :
    ∀ o ∈ (source.operands node).map m.copies.image, o.index < m.target.arena.size := by
  intro o ho
  obtain ⟨p, hp, rfl⟩ := List.mem_map.mp ho
  obtain ⟨copy, hc⟩ := Option.isSome_iff_exists.mp (hops p hp)
  rw [Copies.image_of_copy? hc]
  exact hv.copy_lt hc (Arena.get?_isSome_iff.mp (hs.operand_resolves hnode hp))

/-- One node is copied: the target grows by it and the copy stands for it. -/
theorem copyNode_stands {source : Arena} (hs : source.Sound) {m : Copying} (hv : m.Valid source)
    {id : NodeId} {node : Node} (hnode : source.get? id = some node)
    (hops : ∀ o ∈ source.operands node, (m.copies.copy? o).isSome) {copy : NodeId}
    {target : Context} (h : m.copies.copyNode source m.target node = (copy, target)) :
    m.target.Grows target ∧ (⟨target, m.copies⟩ : Copying).Stands source copy node := by
  have himages := hv.image_lt hs hnode hops
  -- a node that is neither a leaf nor a call is appended with its operands renamed
  have hplain : (∀ v, node ≠ .leaf v) → (∀ callee range, node ≠ .call callee range) →
      m.target.alloc (m.copies.rename node) = (copy, target) →
      m.target.Grows target ∧ target.arena.get? copy = some (m.copies.rename node) := by
    intro hleaf hcall halloc
    obtain ⟨rfl, rfl⟩ := Prod.mk.inj halloc.symm
    refine ⟨(Context.Growth.node _ ?_ ?_ ?_).grows, ?_⟩
    · cases node <;> simp_all [Copies.rename]
    · cases node <;> simp_all [Copies.rename]
    · rw [Copies.children_rename]
      rwa [Arena.operands_eq_children hcall] at himages
    · exact (Arena.get?_alloc ..).trans (if_pos rfl)
  cases node with
  | leaf v =>
    simp only [Copies.copyNode, Context.receive] at h
    cases hn : v.name? with
    | none =>
      obtain ⟨rfl, rfl⟩ := Prod.mk.inj ((by simpa only [hn] using h.symm) :
        (copy, target) = m.target.alloc (.leaf v))
      refine ⟨(Context.Growth.node _ (by simp) ?_ (by simp [Node.children])).grows, ?_⟩
      · rintro w ⟨⟩
        exact hn
      · exact (stands_unnamed hn).mpr ((Arena.get?_alloc ..).trans (if_pos rfl))
    | some name =>
      simp only [hn] at h
      cases hl : m.target.lookup name with
      | some found =>
        obtain ⟨rfl, rfl⟩ := Prod.mk.inj (by simpa only [hl] using h)
        exact ⟨.refl _, (stands_named hn).mpr hl⟩
      | none =>
        obtain ⟨rfl, rfl⟩ := Prod.mk.inj ((by simpa only [hl] using h.symm) :
          (copy, target) = m.target.enter name v)
        exact ⟨(Context.Growth.enter name v hn hl).grows,
          (stands_named hn).mpr ((Context.lookup_enter ..).trans (if_pos rfl))⟩
  | call callee range =>
    obtain ⟨ids, hids, hshort⟩ := hs.stored id callee range hnode
    rw [Arena.operands_call hids] at himages
    have h : m.target.allocCall callee (ids.map m.copies.image) = (copy, target) := by
      simpa only [Copies.copyNode, hids, Option.getD_some, Context.allocCall] using h
    obtain ⟨rfl, rfl⟩ := Prod.mk.inj h.symm
    refine ⟨(Context.Growth.call callee _ (by simpa using hshort) himages).grows, _,
      (Context.get?_allocCall ..).trans (if_pos rfl), ?_⟩
    rw [Arena.operands_call hids]
    exact Context.list?_allocCall ..
  | _ => exact hplain (by simp) (by simp) h

/-- One step copies a node whose operands are copied. -/
theorem step_valid {source : Arena} (hs : source.Sound) {m : Copying} (hv : m.Valid source)
    {id : NodeId} (hid : id.index < source.size) (hnew : m.copies.copy? id = none)
    (hops : ∀ o, source.Edge id o → (m.copies.copy? o).isSome) :
    (step source m id).Valid source ∧ m.Advances (step source m id) ∧
      ((step source m id).copies.copy? id).isSome := by
  obtain ⟨node, hnode⟩ := Arena.exists_get?_of_lt hid
  have hops' : ∀ o ∈ source.operands node, (m.copies.copy? o).isSome :=
    fun o ho => hops o ⟨node, hnode, ho⟩
  obtain ⟨copy, target, hcopy⟩ : ∃ copy target,
      m.copies.copyNode source m.target node = (copy, target) := ⟨_, _, rfl⟩
  obtain ⟨hgrows, hstands⟩ := copyNode_stands hs hv hnode hops' hcopy
  have hstep : step source m id = ⟨target, m.copies.setIfInBounds id.index (some copy)⟩ := by
    simp [Copying.step, hnode, hcopy]
  have hset := fun other => Copies.copy?_set m.copies id other copy (by rw [hv.size]; exact hid)
  have hadv : m.Advances (Copying.step source m id) := by
    rw [hstep]
    refine ⟨hgrows, fun other c hc => ?_⟩
    have hne : id ≠ other := by
      rintro rfl
      simp [hnew] at hc
    rw [hset, if_neg hne, hc]
  have hnow : (⟨target, m.copies⟩ : Copying).Advances (Copying.step source m id) := by
    have := hadv.copies
    rw [hstep] at this ⊢
    exact ⟨.refl _, this⟩
  refine ⟨⟨?_, ?_, ?_, ?_⟩, hadv, ?_⟩
  · rw [hstep]
    exact hgrows.sound hv.sound
  · rw [hstep]
    simpa using hv.size
  · intro i o hi hedge
    refine hadv.isSome ?_
    by_cases hne : id = i
    · subst hne
      exact hops o hedge
    · rw [hstep, hset, if_neg hne] at hi
      exact hv.closed i o hi hedge
  · intro i c n hc hn
    rw [hstep, hset] at hc
    split_ifs at hc with hne
    · subst hne
      obtain rfl := Option.some.inj hc
      obtain rfl := Option.some.inj (hnode.symm.trans hn)
      exact hstands.advance hnow hops'
    · refine (hv.stands i c n hc hn).advance hadv fun o ho => ?_
      exact hv.closed i o (by simp [hc]) ⟨n, hn, ho⟩
  · rw [hstep, hset, if_pos rfl]
    rfl

/-- Nodes in ascending order, none of them copied, whose operands are copied or among them. -/
structure Copyable (source : Arena) (m : Copying) (order : List NodeId) : Prop where
  ascending : order.Pairwise fun i j => i.index < j.index
  fresh : ∀ id ∈ order, id.index < source.size ∧ m.copies.copy? id = none
  operands : ∀ id ∈ order, ∀ o, source.Edge id o → (m.copies.copy? o).isSome ∨ o ∈ order

/-- The operands of the first node are copied, since those in the list come after it. -/
theorem Copyable.operands_first {source : Arena} (hs : source.Sound) {m : Copying} {id : NodeId}
    {rest : List NodeId} (h : m.Copyable source (id :: rest)) :
    ∀ o, source.Edge id o → (m.copies.copy? o).isSome := by
  intro o hedge
  have holder := hs.edge_lt hedge
  rcases h.operands id (by simp) o hedge with ho | ho
  · exact ho
  · rcases List.mem_cons.mp ho with rfl | ho
    · omega
    · have := (List.pairwise_cons.mp h.ascending).1 o ho
      omega

/-- When the first node is copied the others can be copied. -/
theorem Copyable.tail {source : Arena} (hs : source.Sound) {m : Copying} (hv : m.Valid source)
    {id : NodeId} {rest : List NodeId} (h : m.Copyable source (id :: rest)) :
    (step source m id).Copyable source rest := by
  obtain ⟨hlt, hasc⟩ := List.pairwise_cons.mp h.ascending
  obtain ⟨hid, hnone⟩ := h.fresh id (by simp)
  obtain ⟨-, hadv, hsome⟩ := step_valid hs hv hid hnone (h.operands_first hs)
  refine ⟨hasc, fun j hj => ?_, fun j hj o hedge => ?_⟩
  · obtain ⟨hsize, hjnone⟩ := h.fresh j (by simp [hj])
    have hne : id ≠ j := by
      rintro rfl
      exact Nat.lt_irrefl _ (hlt id hj)
    refine ⟨hsize, ?_⟩
    obtain ⟨node, hnode⟩ := Arena.exists_get?_of_lt hid
    simp only [Copying.step, hnode]
    rw [Copies.copy?_set _ _ _ _ (by rw [hv.size]; exact hid), if_neg hne, hjnone]
  · rcases h.operands j (by simp [hj]) o hedge with ho | ho
    · exact Or.inl (hadv.isSome ho)
    · rcases List.mem_cons.mp ho with rfl | ho
      · exact Or.inl hsome
      · exact Or.inr ho

/-- What can be copied is copied, one node after the other. -/
theorem foldl_valid {source : Arena} (hs : source.Sound) {m : Copying} (hv : m.Valid source)
    {order : List NodeId} (h : m.Copyable source order) :
    (order.foldl (Copying.step source) m).Valid source ∧
      m.Advances (order.foldl (Copying.step source) m) ∧
      ∀ id ∈ order, ((order.foldl (Copying.step source) m).copies.copy? id).isSome := by
  induction order generalizing m with
  | nil => exact ⟨hv, .refl m, by simp⟩
  | cons id rest ih =>
    obtain ⟨hid, hnone⟩ := h.fresh id (by simp)
    obtain ⟨hv', hadv, hsome⟩ := step_valid hs hv hid hnone (h.operands_first hs)
    obtain ⟨hv'', hadv', hall⟩ := ih hv' (h.tail hs hv)
    refine ⟨hv'', hadv.trans hadv', fun j hj => ?_⟩
    rcases List.mem_cons.mp hj with rfl | hj
    · exact hadv'.isSome hsome
    · exact hall j hj

/-- What the copying of a single new node keeps, the copying of several nodes keeps. -/
theorem foldl_keeps {source : Arena} (hs : source.Sound) {P : Copying → Prop}
    (hstep : ∀ m id, m.Valid source → id.index < source.size → m.copies.copy? id = none → P m →
      P (step source m id)) {m : Copying} (hv : m.Valid source) {order : List NodeId}
    (h : m.Copyable source order) (hm : P m) : P (order.foldl (Copying.step source) m) := by
  induction order generalizing m with
  | nil => exact hm
  | cons id rest ih =>
    obtain ⟨hid, hnone⟩ := h.fresh id (by simp)
    obtain ⟨hv', -, -⟩ := step_valid hs hv hid hnone (h.operands_first hs)
    exact ih hv' (h.tail hs hv) (hstep m id hv hid hnone hm)

/-- The nodes still to be copied for a root that has no copy yet. -/
theorem mem_missing {source : Arena} (hs : source.Sound) {m : Copying} (hv : m.Valid source)
    {root id : NodeId} (hroot : root.index < source.size) (hnone : m.copies.copy? root = none) :
    id ∈ missing source m.copies root ↔ source.Reaches root id ∧ m.copies.copy? id = none := by
  simp only [missing, hnone, Option.isSome_none, Bool.false_eq_true, if_false]
  rw [Arena.mem_reachable hs hroot, Arena.reachesNew_iff hv.closed (by simp [hnone])]
  simp

theorem pairwise_missing (source : Arena) (copies : Copies) (root : NodeId) :
    (missing source copies root).Pairwise fun i j => i.index < j.index := by
  unfold missing
  split_ifs
  · exact .nil
  · exact Arena.pairwise_reachable ..

/-- What is missing for a root can be copied. -/
theorem copyable_missing {source : Arena} (hs : source.Sound) {m : Copying} (hv : m.Valid source)
    {root : NodeId} (hroot : root.index < source.size) :
    m.Copyable source (missing source m.copies root) := by
  cases hc : m.copies.copy? root with
  | some copy =>
    have hmissing : missing source m.copies root = [] := by simp [missing, hc]
    rw [hmissing]
    exact ⟨.nil, by simp, by simp⟩
  | none =>
    have hmem : ∀ id, id ∈ missing source m.copies root ↔
        source.Reaches root id ∧ m.copies.copy? id = none := fun _ => mem_missing hs hv hroot hc
    refine ⟨pairwise_missing source m.copies root, fun id hid => ?_, fun id hid o hedge => ?_⟩
    · obtain ⟨hreach, hnone⟩ := (hmem id).mp hid
      have := hs.reaches_le hreach
      exact ⟨by omega, hnone⟩
    · obtain ⟨hreach, -⟩ := (hmem id).mp hid
      cases ho : m.copies.copy? o with
      | some copy => exact Or.inl rfl
      | none => exact Or.inr ((hmem o).mpr ⟨hreach.tail hedge, ho⟩)

/-- Copying an expression copies all that is below it, and answers with the copy of its root. -/
theorem expr_valid {source : Arena} (hs : source.Sound) {m : Copying} (hv : m.Valid source)
    {root : NodeId} (hroot : root.index < source.size) :
    (Copying.expr source root m).2.Valid source ∧ m.Advances (Copying.expr source root m).2 ∧
      (Copying.expr source root m).2.copies.copy? root = some (Copying.expr source root m).1 := by
  obtain ⟨hv', hadv, hall⟩ := foldl_valid hs hv (copyable_missing hs hv hroot)
  have hsome : ((Copying.expr source root m).2.copies.copy? root).isSome := by
    cases hc : m.copies.copy? root with
    | some copy => exact hadv.isSome (by simp [hc])
    | none => exact hall root ((mem_missing hs hv hroot hc).mpr ⟨.refl, hc⟩)
  obtain ⟨copy, hcopy⟩ := Option.isSome_iff_exists.mp hsome
  exact ⟨hv', hadv, by rw [hcopy, ← Copies.image_of_copy? hcopy]; rfl⟩

theorem copy?_start (source : Arena) (target : Context) (id : NodeId) :
    (start source target).copies.copy? id = none := by
  simp only [start, Copies.copy?, Array.getElem?_replicate]
  split_ifs <;> rfl

theorem valid_start (source : Arena) {target : Context} (ht : target.Sound) :
    (start source target).Valid source := by
  refine ⟨ht, by simp [start], ?_, ?_⟩
  · intro id o h
    simp [copy?_start] at h
  · intro id copy node h
    simp [copy?_start] at h

end Copying

end KernelForge
