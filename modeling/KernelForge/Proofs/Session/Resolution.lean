import KernelForge.Proofs.Render.Mirror
import KernelForge.Proofs.Session.StatementCopy

/-!
# What a name means after a copying

A copied variable becomes whatever the receiving table has under its name. That is what the table had
before, or else the variable of that name which was copied first.
-/
namespace KernelForge

/-! ## Other variables in the place of the named ones -/

/-- The variable that stands for the name of a variable. One without a name stands for itself. -/
def Variable.substitute (σ : String → Variable) (v : Variable) : Variable := v.name?.elim v σ

def Node.substitute (σ : String → Variable) : Node → Node
  | .leaf v => .leaf (v.substitute σ)
  | node => node

/-- The same nodes over other variables. -/
def Arena.substitute (a : Arena) (σ : String → Variable) : Arena :=
  { a with nodes := a.nodes.map (Node.substitute σ) }

theorem Arena.get?_substitute (a : Arena) (σ : String → Variable) (id : NodeId) :
    (a.substitute σ).get? id = (a.get? id).map (Node.substitute σ) :=
  Array.getElem?_map

theorem Arena.operands_substitute (a : Arena) (σ : String → Variable) (node : Node) :
    (a.substitute σ).operands (node.substitute σ) = a.operands node := by
  cases node <;> rfl

/-- The node below `root` is a variable of the given name. -/
structure Arena.Carries (a : Arena) (root id : NodeId) (name : String) (v : Variable) : Prop where
  reaches : a.Reaches root id
  content : a.content? id = some v
  named : v.name? = some name

namespace Context

/-- The variable that a name leads to. -/
def entered? (c : Context) (name : String) : Option Variable := (c.lookup name).bind c.arena.content?

/-- What names mean once the nodes below some roots are copied from `source` to `c`: the variables of
the table, or else those of the first root that has the name below it, and there of the least id. -/
structure Resolves (c : Context) (source : Arena) (roots : List NodeId)
    (σ : String → Variable) : Prop where
  entered : ∀ name v, c.entered? name = some v → σ name = v
  first : ∀ name before root after id v, c.lookup name = none → roots = before ++ root :: after →
    (∀ r ∈ before, ∀ i w, ¬ source.Carries r i name w) → source.Carries root id name v →
    (∀ i w, source.Carries root i name w → id.index ≤ i.index) → σ name = v

/-- Every name leads to a variable. -/
def Resolved (c : Context) : Prop :=
  ∀ name id, c.lookup name = some id → (c.arena.content? id).isSome

theorem Sound.resolved {c : Context} (hs : c.Sound) : c.Resolved := by
  intro name id hid
  obtain ⟨v, hv, -⟩ := hs.symbol name id hid
  simp [hv]

theorem Resolved.entered?_isSome {c : Context} (hr : c.Resolved) {name : String} {id : NodeId}
    (h : c.lookup name = some id) : (c.entered? name).isSome := by
  simpa [entered?, h] using hr name id h

theorem entered?_eq_none {c : Context} {name : String} (h : c.lookup name = none) :
    c.entered? name = none := by
  simp [entered?, h]

theorem Resolved.congr {c d : Context} (hr : c.Resolved)
    (hlookup : ∀ name, d.lookup name = c.lookup name)
    (hext : c.arena.Extends d.arena) : d.Resolved ∧ ∀ name, d.entered? name = c.entered? name := by
  have hcontent : ∀ name id, c.lookup name = some id →
      d.arena.content? id = c.arena.content? id := by
    intro name id hid
    obtain ⟨v, hv⟩ := Option.isSome_iff_exists.mp (hr name id hid)
    rw [hv, hext.content? hv]
  constructor
  · intro name id hid
    rw [hlookup] at hid
    rw [hcontent name id hid]
    exact hr name id hid
  · intro name
    unfold entered?
    rw [hlookup]
    cases hid : c.lookup name with
    | none => rfl
    | some id => exact hcontent name id hid

theorem Resolved.enter {c : Context} (hr : c.Resolved) {name : String} (v : Variable)
    (hfresh : c.lookup name = none) :
    (c.enter name v).2.Resolved ∧ ∀ other, (c.enter name v).2.entered? other =
      (c.entered? other).or (if name = other then some v else none) := by
  have hext : c.arena.Extends (c.enter name v).2.arena := c.arena.extends_alloc (.leaf v)
  have hnew : (c.enter name v).2.arena.content? ⟨c.arena.size⟩ = some v :=
    (c.arena.content?_alloc (.leaf v) _).trans (if_pos rfl)
  constructor
  · intro other id hid
    rw [lookup_enter] at hid
    split_ifs at hid
    · obtain rfl := Option.some.inj hid
      simp [hnew]
    · obtain ⟨w, hw⟩ := Option.isSome_iff_exists.mp (hr other id hid)
      simp [hext.content? hw]
  · intro other
    unfold entered?
    rw [lookup_enter]
    by_cases hname : name = other
    · subst hname
      simp [hfresh, hnew]
    · simp only [hname, if_false, Option.or_none]
      cases hid : c.lookup other with
      | none => rfl
      | some id =>
        obtain ⟨w, hw⟩ := Option.isSome_iff_exists.mp (hr other id hid)
        simp [hw, hext.content? hw]

end Context

/-! ## What a copying enters -/

/-- The variable of a node, if it has the given name. -/
def Arena.named? (a : Arena) (name : String) (id : NodeId) : Option Variable :=
  (a.content? id).filter fun v => v.name? = some name

theorem Arena.named?_eq_some_iff {a : Arena} {name : String} {id : NodeId} {v : Variable} :
    a.named? name id = some v ↔ a.content? id = some v ∧ v.name? = some name := by
  simp [named?, Option.filter_eq_some_iff]

theorem Arena.named?_leaf {a : Arena} {id : NodeId} {v : Variable} (h : a.get? id = some (.leaf v))
    (name : String) : a.named? name id = if v.name? = some name then some v else none := by
  simp [named?, Arena.content?_eq_some_iff.mpr h, Option.filter]

theorem Arena.named?_eq_none {a : Arena} {id : NodeId} (h : a.content? id = none) (name : String) :
    a.named? name id = none := by
  simp [named?, h]

namespace Copying

variable {source : Arena}

/-- Copying a node enters its name, if it has one that is new. -/
theorem step_entered? (source : Arena) {m : Copying} (hr : m.target.Resolved) (id : NodeId) :
    (step source m id).target.Resolved ∧ ∀ name, (step source m id).target.entered? name =
      (m.target.entered? name).or (source.named? name id) := by
  cases hnode : source.get? id with
  | none =>
    have hcontent : source.content? id = none := by simp [Arena.content?, hnode]
    simpa [step, hnode, Arena.named?_eq_none hcontent] using hr
  | some node =>
    have hstep : (step source m id).target = (m.copies.copyNode source m.target node).2 := by
      simp only [step, hnode]
    rw [hstep]
    -- what is appended to the arena alone changes no entry
    have hplain : ∀ d : Context, (m.copies.copyNode source m.target node).2 = d →
        (∀ name, d.lookup name = m.target.lookup name) → m.target.arena.Extends d.arena →
        (∀ name, source.named? name id = none) →
        (m.copies.copyNode source m.target node).2.Resolved ∧
          ∀ name, (m.copies.copyNode source m.target node).2.entered? name =
            (m.target.entered? name).or (source.named? name id) := by
      rintro d rfl hlookup hext hnone
      simpa [hnone] using hr.congr hlookup hext
    have hother : source.content? id = none → ∀ name, source.named? name id = none :=
      fun h name => Arena.named?_eq_none h name
    cases node with
    | leaf v =>
      have hnamed := Arena.named?_leaf hnode
      cases hn : v.name? with
      | none =>
        refine hplain (m.target.alloc (.leaf v)).2 ?_ (fun _ => rfl)
          (m.target.arena.extends_alloc (.leaf v)) (by simp [hnamed, hn])
        simp only [Copies.copyNode, Context.receive, hn]
      | some name =>
        simp only [Copies.copyNode, Context.receive, hn]
        cases hl : m.target.lookup name with
        | none => simpa [hnamed, hn] using hr.enter v hl
        | some found =>
          refine ⟨hr, fun other => ?_⟩
          by_cases hname : name = other
          · subst hname
            obtain ⟨w, hw⟩ := Option.isSome_iff_exists.mp (hr.entered?_isSome hl)
            simp [hw]
          · simp [hnamed, hn, hname]
    | call callee range =>
      exact hplain (m.target.allocCall callee _).2 rfl (fun _ => rfl)
        ((m.target.arena.extends_appendList _).trans (Arena.extends_alloc _ _))
        (hother (by simp [Arena.content?, hnode, Node.content?]))
    | _ =>
      exact hplain (m.target.alloc _).2 rfl (fun _ => rfl) (m.target.arena.extends_alloc _)
        (hother (by simp [Arena.content?, hnode, Node.content?]))

/-- Of several nodes, the first one of a name enters it. -/
theorem foldl_entered? {m : Copying} (hr : m.target.Resolved) (order : List NodeId) :
    (order.foldl (step source) m).target.Resolved ∧
      ∀ name, (order.foldl (step source) m).target.entered? name =
        (m.target.entered? name).or (order.findSome? (source.named? name)) := by
  induction order generalizing m with
  | nil => exact ⟨hr, by simp⟩
  | cons id rest ih =>
    obtain ⟨hr', hstep⟩ := step_entered? source hr id
    obtain ⟨hr'', hrest⟩ := ih hr'
    refine ⟨hr'', fun name => ?_⟩
    rw [List.foldl_cons, hrest, hstep, List.findSome?_cons, Option.or_assoc]
    cases source.named? name id <;> rfl

theorem foldl_copied {m : Copying} {order : List NodeId} {id : NodeId}
    (h : ((order.foldl (step source) m).copies.copy? id).isSome) :
    (m.copies.copy? id).isSome ∨ id ∈ order := by
  induction order generalizing m with
  | nil => exact Or.inl h
  | cons first rest ih =>
    rcases ih h with h | h
    · cases hnode : source.get? first with
      | none => exact Or.inl (by simpa [step, hnode] using h)
      | some node =>
        by_cases hid : first = id
        · exact Or.inr (by simp [hid])
        · left
          have hne : first.index ≠ id.index := fun he => hid (NodeId.eq_of_index_eq he)
          simpa [step, hnode, Copies.copy?, Array.getElem?_setIfInBounds, hne] using h
    · exact Or.inr (by simp [h])

end Copying

end KernelForge
