import KernelForge.Proofs.Expr.Sound
import Mathlib.Algebra.BigOperators.Group.List.Basic
import Mathlib.Algebra.Order.Ring.Nat

/-!
# Permanent ids and ranges

Whatever is done to an arena, the id of a node stays the number of the nodes before it, and the
range of a list stays that of its ids. A list that is too long leaves its ids in the list storage,
so that the lists behind it begin further on.
-/
namespace KernelForge.Arena

/-! ## Histories -/

/-- Something that is done to an arena. -/
inductive Action
  | alloc (node : Node)
  | storeList (ids : List NodeId)
  | overwrite (id : NodeId) (node : Node)

namespace Action

/-- The arena afterwards, also if a list was refused. -/
def apply (a : Arena) : Action → Arena
  | alloc node => (a.alloc node).2
  | storeList ids => (a.storeList ids).2
  | overwrite id node => a.overwrite id node

/-- The number of nodes that are added. -/
def nodes : Action → ℕ
  | alloc _ => 1
  | storeList _ | overwrite _ _ => 0

/-- The number of ids that are added to the list storage. -/
def entries : Action → ℕ
  | storeList ids => ids.length
  | alloc _ | overwrite _ _ => 0

/-- The node of an id afterwards, if it was `node` before. -/
def held (id : NodeId) (node : Node) : Action → Node
  | overwrite other new => if other = id then new else node
  | alloc _ | storeList _ => node

end Action

def run (a : Arena) (actions : List Action) : Arena := actions.foldl Action.apply a

/-- What the actions of a history add in all. -/
def total (added : Action → ℕ) (actions : List Action) : ℕ := (actions.map added).sum

/-- The number of nodes of a history. -/
def nodeCount (actions : List Action) : ℕ := total Action.nodes actions

/-- The number of list entries of a history, those of the refused lists included. -/
def entryCount (actions : List Action) : ℕ := total Action.entries actions

/-- The node of an id is the one that was put there last. -/
def heldAfter (id : NodeId) (node : Node) (actions : List Action) : Node :=
  actions.foldl (Action.held id) node

theorem total_split (added : Action → ℕ) (before : List Action) (action : Action)
    (later : List Action) : total added (before ++ action :: later) =
      total added before + (added action + total added later) := by
  rw [total, List.map_append, List.sum_append, List.map_cons, List.sum_cons]
  rfl

theorem run_append (a : Arena) (xs ys : List Action) : a.run (xs ++ ys) = (a.run xs).run ys :=
  List.foldl_append

/-! ## One action -/

variable {a : Arena}

theorem size_apply (a : Arena) (action : Action) :
    (action.apply a).size = a.size + action.nodes := by
  cases action with
  | alloc node => exact a.size_alloc node
  | storeList ids => rfl
  | overwrite id node => exact a.size_overwrite id node

theorem size_arguments_apply (a : Arena) (action : Action) :
    (action.apply a).arguments.size = a.arguments.size + action.entries := by
  cases action with
  | storeList ids =>
    change (a.arguments ++ ids).size = a.arguments.size + ids.length
    rw [← Array.length_toList, Array.toList_appendList, List.length_append, Array.length_toList]
  | alloc _ | overwrite _ _ => rfl

theorem list?_apply {range : ArgRange} {ids : List NodeId} (h : a.list? range = some ids)
    (action : Action) : (action.apply a).list? range = some ids := by
  cases action with
  | storeList more => exact list?_append more h
  | alloc _ | overwrite _ _ => exact h

theorem get?_apply {id : NodeId} {node : Node} (h : a.get? id = some node) (action : Action) :
    (action.apply a).get? id = some (action.held id node) := by
  have hlt := lt_of_get? h
  cases action with
  | alloc new =>
    rw [Action.apply, get?_alloc, if_neg (Nat.ne_of_lt hlt), h, Action.held]
  | storeList ids => exact h
  | overwrite other new =>
    rw [Action.apply, get?_overwrite, Action.held]
    by_cases hother : other = id
    · rw [if_pos (congrArg NodeId.index hother), if_pos (hother ▸ hlt), if_pos hother]
    · rw [if_neg fun heq => hother (NodeId.eq_of_index_eq heq), if_neg hother, h]

/-! ## Histories of any length -/

/-- What every action adds to adds up. -/
theorem measure_run (measure : Arena → ℕ) {added : Action → ℕ}
    (h : ∀ (a : Arena) (action : Action), measure (action.apply a) = measure a + added action)
    (actions : List Action) : measure (a.run actions) = measure a + total added actions := by
  induction actions generalizing a with
  | nil => rfl
  | cons action rest ih =>
    calc measure (a.run (action :: rest)) = measure (action.apply a) + total added rest := ih
      _ = measure a + total added (action :: rest) := by
        rw [h, total, total, List.map_cons, List.sum_cons, Nat.add_assoc]

theorem list?_run {range : ArgRange} {ids : List NodeId} (h : a.list? range = some ids)
    (actions : List Action) : (a.run actions).list? range = some ids := by
  induction actions generalizing a with
  | nil => exact h
  | cons action rest ih => exact ih (list?_apply h action)

theorem get?_run {id : NodeId} {node : Node} (h : a.get? id = some node) (actions : List Action) :
    (a.run actions).get? id = some (heldAfter id node actions) := by
  induction actions generalizing a node with
  | nil => exact h
  | cons action rest ih => exact ih (get?_apply h action)

/-! ## What is given out -/

/-- The arena of a history. -/
def ofActions (actions : List Action) : Arena := empty.run actions

theorem size_ofActions (actions : List Action) : (ofActions actions).size = nodeCount actions := by
  rw [ofActions, measure_run size size_apply]
  exact Nat.zero_add _

theorem size_arguments_ofActions (actions : List Action) :
    (ofActions actions).arguments.size = entryCount actions := by
  rw [ofActions, measure_run (fun a => a.arguments.size) size_arguments_apply]
  exact Nat.zero_add _

theorem alloc_ofActions (actions : List Action) (node : Node) :
    ((ofActions actions).alloc node).1 = ⟨nodeCount actions⟩ :=
  congrArg NodeId.mk (size_ofActions actions)

/-- The range of a list that is stored after some actions. -/
def rangeAfter (actions : List Action) (ids : List NodeId) : ArgRange :=
  if ids = [] then .empty else ⟨entryCount actions, ids.length⟩

theorem storeList_ofActions (actions : List Action) (ids : List NodeId) :
    ((ofActions actions).storeList ids).1 =
      if ids.length ≤ maxArguments then .ok (rangeAfter actions ids) else .error ⟨ids.length⟩ := by
  rw [rangeAfter, ← size_arguments_ofActions]
  split_ifs with hlength hnil
  · rw [hnil]
    rfl
  · rw [storeList_eq_appendList hlength]
    cases ids with
    | nil => exact absurd rfl hnil
    | cons id rest => rfl
  · rw [storeList_eq_error (Nat.not_le.mp hlength)]

theorem ofActions_append (before : List Action) (action : Action) (later : List Action) :
    ofActions (before ++ action :: later) = (action.apply (ofActions before)).run later := by
  rw [ofActions, run_append]
  rfl

/-- A node is found under its id for ever. -/
theorem get?_ofActions (before : List Action) (node : Node) (later : List Action) :
    (ofActions (before ++ .alloc node :: later)).get? ⟨nodeCount before⟩ =
      some (heldAfter ⟨nodeCount before⟩ node later) := by
  rw [ofActions_append]
  refine get?_run ?_ later
  rw [Action.apply, get?_alloc, if_pos (size_ofActions before).symm]

/-- A list is found under its range for ever. -/
theorem list?_ofActions (before : List Action) {ids : List NodeId}
    (hlength : ids.length ≤ maxArguments) (later : List Action) :
    (ofActions (before ++ .storeList ids :: later)).list? (rangeAfter before ids) = some ids := by
  have hstored := storeList_ofActions before ids
  have hlist := (ofActions before).list?_appendList ids
  rw [if_pos hlength, storeList_eq_appendList hlength] at hstored
  rw [Except.ok.inj hstored] at hlist
  rw [ofActions_append, Action.apply, storeList_eq_appendList hlength]
  exact list?_run hlist later

/-- The range of a list ends before whatever is stored later. -/
theorem rangeAfter_le (before : List Action) (ids : List NodeId) (later : List Action) :
    (rangeAfter before ids).start + (rangeAfter before ids).length ≤
      entryCount (before ++ .storeList ids :: later) := by
  have hcount : entryCount (before ++ .storeList ids :: later) =
      entryCount before + (ids.length + entryCount later) := total_split _ _ _ _
  rw [rangeAfter, hcount]
  split_ifs
  · exact Nat.zero_le _
  · exact Nat.add_le_add_left (Nat.le_add_right _ _) _

theorem length_rangeAfter (before : List Action) (ids : List NodeId) :
    (rangeAfter before ids).length = ids.length := by
  rw [rangeAfter]
  split_ifs with hnil
  · rw [hnil]
    rfl
  · rfl

/-! ## What stays as it is -/

/-- An arena becomes another one when a node is put under an id, if there is one. -/
structure Replaces (a b : Arena) (id : NodeId) (node : Node) : Prop where
  self : b.get? id = (a.get? id).map fun _ => node
  others : ∀ other, other ≠ id → b.get? other = a.get? other
  lists : ∀ range, b.list? range = a.list? range

theorem replaces_overwrite (a : Arena) (id : NodeId) (node : Node) :
    a.Replaces (a.overwrite id node) id node where
  self := by
    rw [get?_overwrite, if_pos rfl]
    split_ifs with hlt
    · obtain ⟨old, hold⟩ := exists_get?_of_lt hlt
      rw [hold, Option.map_some]
    · rw [Option.not_isSome_iff_eq_none.mp fun h => hlt (get?_isSome_iff.mp h), Option.map_none]
  others other hother := by
    rw [get?_overwrite, if_neg fun heq => hother (NodeId.eq_of_index_eq heq.symm)]
  lists _ := rfl

/-- What an arena gives out stays good, whatever is done to it. -/
structure Permanent (actions : List Action) : Prop where
  /-- Nothing is given back, not even the ids of a list that was refused. -/
  counts : (ofActions actions).size = nodeCount actions ∧
    (ofActions actions).arguments.size = entryCount actions
  /-- A node gets the number of the nodes before it, and what was put there last is found under
  it. -/
  node : ∀ before node later, actions = before ++ .alloc node :: later →
    ∃ id, ((ofActions before).alloc node).1 = id ∧ id.index = nodeCount before ∧ id ≠ .invalid ∧
      (ofActions actions).get? id = some (heldAfter id node later)
  /-- A list that is not too long gets a range of 32 and 16 bits, and is found unchanged under
  it. -/
  list : ∀ before ids later, actions = before ++ .storeList ids :: later →
    if ids.length ≤ 65535 then
      ∃ range, ((ofActions before).storeList ids).1 = .ok range ∧
        range.start < 2 ^ 32 ∧ range.length < 2 ^ 16 ∧ (ofActions actions).list? range = some ids
    else ((ofActions before).storeList ids).1 = .error ⟨ids.length⟩
  /-- A list lies behind all earlier ones. -/
  apart : ∀ before ids between ids' later range range',
    actions = before ++ .storeList ids :: (between ++ .storeList ids' :: later) → ids' ≠ [] →
    ((ofActions before).storeList ids).1 = .ok range →
    ((ofActions (before ++ .storeList ids :: between)).storeList ids').1 = .ok range' →
    range.start + range.length ≤ range'.start
  overwrite : ∀ before id node later, actions = before ++ .overwrite id node :: later →
    (ofActions before).Replaces (ofActions (before ++ [.overwrite id node])) id node

/-- In an arena whose ids and ranges fit into 32 bits they are good for ever. -/
theorem permanent_of_lt {actions : List Action} (hnodes : nodeCount actions < 2 ^ 32)
    (hentries : entryCount actions < 2 ^ 32) : Permanent actions where
  counts := ⟨size_ofActions actions, size_arguments_ofActions actions⟩
  node before node later heq := by
    subst heq
    refine ⟨_, alloc_ofActions before node, rfl, fun hinvalid => ?_,
      get?_ofActions before node later⟩
    have hindex : nodeCount before = 4294967295 := congrArg NodeId.index hinvalid
    have hcount : nodeCount (before ++ .alloc node :: later) =
        nodeCount before + (1 + nodeCount later) := total_split _ _ _ _
    omega
  list before ids later heq := by
    subst heq
    have hstored := storeList_ofActions before ids
    have hend := rangeAfter_le before ids later
    have hlength := length_rangeAfter before ids
    by_cases hshort : ids.length ≤ maxArguments
    · have hmax : maxArguments = 65535 := rfl
      rw [if_pos hshort] at hstored
      exact (if_pos hshort).mpr
        ⟨_, hstored, by omega, by omega, list?_ofActions before hshort later⟩
    · rw [if_neg hshort] at hstored
      exact (if_neg hshort).mpr hstored
  apart before ids between ids' later range range' heq hne hrange hrange' := by
    rw [storeList_ofActions] at hrange hrange'
    split_ifs at hrange hrange'
    obtain rfl := Except.ok.inj hrange
    obtain rfl := Except.ok.inj hrange'
    have hstart : (rangeAfter (before ++ .storeList ids :: between) ids').start =
        entryCount (before ++ .storeList ids :: between) := by rw [rangeAfter, if_neg hne]
    rw [hstart]
    exact rangeAfter_le before ids between
  overwrite before id node later heq := by
    rw [ofActions_append]
    exact replaces_overwrite _ id node

/-- A list that is refused between two others, and a node that is overwritten in the end. -/
def overlong : List Action :=
  [.alloc (.leaf (.scalar .u32 "x")), .storeList [⟨0⟩, ⟨0⟩], .storeList (.replicate 65536 ⟨0⟩),
    .storeList [⟨0⟩], .alloc (.unary .neg ⟨0⟩), .overwrite ⟨0⟩ (.leaf (.scalar .u32 "y"))]

theorem permanent_overlong :
    nodeCount overlong = 2 ∧ entryCount overlong = 65539 ∧ Permanent overlong := by
  have hnodes : nodeCount overlong = 2 := rfl
  have hentries : entryCount overlong = 65539 := by
    simp only [entryCount, total, overlong, List.map_cons, List.map_nil, List.sum_cons,
      List.sum_nil, Action.entries, List.length_replicate, List.length_cons, List.length_nil,
      Nat.reduceAdd]
  exact ⟨hnodes, hentries, permanent_of_lt (by omega) (by omega)⟩

end KernelForge.Arena
