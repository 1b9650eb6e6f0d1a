import KernelForge.Proofs.Render.Walk
import Mathlib.Data.List.Lex

/-!
# What an error points at

An error of a rendered expression points at a defect of the arena, in a place to which the walk comes
from the root. Places are told apart by the positions of the operands on the way to them. If there
are several defects, the error is that of the first place that has one, in the order of the walk:
what stands above comes before what stands below it, and operands come from left to right.
-/
namespace KernelForge

namespace Arena

/-! ## Places -/

/-- Where a path leads from an id: the node that names the id at the end of the path, and that id.
The path gives the positions of operands that are written out. -/
def placeAt? (a : Arena) : Option NodeId → NodeId → List Nat → Option (Option NodeId × NodeId)
  | parent, id, [] => some (parent, id)
  | _, id, i :: path => do
    let node ← a.get? id
    let o ← (a.expanded node)[i]?
    a.placeAt? (some id) o path

theorem placeAt?_cons {a : Arena} {parent : Option NodeId} {id : NodeId} {node : Node}
    (h : a.get? id = some node) (i : Nat) (path : List Nat) :
    a.placeAt? parent id (i :: path) =
      ((a.expanded node)[i]?).bind fun o => a.placeAt? (some id) o path := by
  simp [placeAt?, h]

theorem placeAt?_concat (a : Arena) (parent : Option NodeId) (id : NodeId) (path : List Nat)
    (i : Nat) :
    a.placeAt? parent id (path ++ [i]) =
      (a.placeAt? parent id path).bind fun place =>
        (a.get? place.2).bind fun node => ((a.expanded node)[i]?).map fun o => (some place.2, o) := by
  induction path generalizing parent id with
  | nil =>
    cases hnode : a.get? id with
    | none => simp [placeAt?, hnode]
    | some node =>
      rw [List.nil_append, placeAt?_cons hnode, placeAt?, Option.bind_some, hnode, Option.bind_some,
        Option.map_eq_bind]
      rfl
  | cons j path ih =>
    cases hnode : a.get? id with
    | none => simp [placeAt?, hnode]
    | some node =>
      rw [List.cons_append, placeAt?_cons hnode, placeAt?_cons hnode]
      cases (a.expanded node)[j]? with
      | none => rfl
      | some o => exact ih (some id) o

/-- The node that names an id of a path is there. -/
def Known (a : Arena) (parent : Option NodeId) : Prop := ∀ p, parent = some p → (a.get? p).isSome

theorem known_none (a : Arena) : a.Known none := by simp [Known]

theorem known_some {a : Arena} {id : NodeId} {node : Node} (h : a.get? id = some node) :
    a.Known (some id) := by
  simp [Known, h]

/-! ## Defects -/

/-- An id passes the tests that come before its node is looked at: it is not too deep, it is older
than the node that names it, and its node is there. -/
structure Passes (a : Arena) (limit depth : Nat) (parent : Option NodeId) (id : NodeId)
    (node : Node) : Prop where
  near : depth ≤ limit
  older : ∀ p, parent = some p → id.index < p.index
  found : a.get? id = some node

/-- What can be wrong in one place of the walk, and the error that says so. -/
inductive Defect (a : Arena) (limit depth : Nat) : Option NodeId → NodeId → RenderError → Prop
  | tooDeep {parent : Option NodeId} {id : NodeId} (deep : limit < depth) :
    Defect a limit depth parent id (.nestingTooDeep limit)
  | notOlder {parent id : NodeId} (near : depth ≤ limit) (later : parent.index ≤ id.index) :
    Defect a limit depth (some parent) id (.forwardReference parent id)
  | unknown {id : NodeId} (near : depth ≤ limit) (missing : a.get? id = none) :
    Defect a limit depth none id (.unknownNode id)
  | targetNotOlder {parent : Option NodeId} {id target : NodeId}
    (passes : a.Passes limit depth parent id (.declare target))
    (later : id.index ≤ target.index) : Defect a limit depth parent id (.forwardReference id target)
  | targetNotVariable {parent : Option NodeId} {id target : NodeId}
    (passes : a.Passes limit depth parent id (.declare target))
    (older : target.index < id.index) (empty : a.content? target = none) :
    Defect a limit depth parent id (.unhandledNode target .targetNotVariable)
  | targetNotDeclarable {parent : Option NodeId} {id target : NodeId} {v : Variable}
    (passes : a.Passes limit depth parent id (.declare target))
    (older : target.index < id.index) (holds : a.content? target = some v)
    (undeclared : v.declaration? = none) :
    Defect a limit depth parent id (.unhandledNode target .targetNotDeclarable)
  | argumentsNotStored {parent : Option NodeId} {id : NodeId} {callee : Signature}
    {range : ArgRange} (passes : a.Passes limit depth parent id (.call callee range))
    (missing : a.list? range = none) :
    Defect a limit depth parent id (.unhandledNode id .argumentsNotStored)

/-- There is a defect at the end of a path from an id that stands at the given depth. -/
def DefectAt (a : Arena) (limit depth : Nat) (parent : Option NodeId) (id : NodeId)
    (path : List Nat) (e : RenderError) : Prop :=
  ∃ p o, a.placeAt? parent id path = some (p, o) ∧ a.Defect limit (depth + path.length) p o e

/-- The error is that of the first place below the root that has a defect. Paths are in the order of
the walk, which is that of the dictionary. -/
def FirstDefect (a : Arena) (root : NodeId) (limit : Nat) (e : RenderError) : Prop :=
  ∃ path, a.DefectAt limit 0 none root path e ∧
    ∀ other e', a.DefectAt limit 0 none root other e' → ¬ List.Lex (· < ·) other path

section

variable {a : Arena} {limit depth : Nat} {parent : Option NodeId} {id : NodeId} {e : RenderError}

@[simp] theorem defectAt_nil :
    a.DefectAt limit depth parent id [] e ↔ a.Defect limit depth parent id e := by
  simp [DefectAt, placeAt?]

theorem defectAt_cons {node : Node} (h : a.get? id = some node) {i : Nat} {path : List Nat} :
    a.DefectAt limit depth parent id (i :: path) e ↔
      ∃ o, (a.expanded node)[i]? = some o ∧
        a.DefectAt limit (depth + 1) (some id) o path e := by
  have hdepth : depth + (path.length + 1) = depth + 1 + path.length := by omega
  simp only [DefectAt, placeAt?_cons h, List.length_cons, hdepth]
  cases (a.expanded node)[i]? <;> simp

/-! ## One visit -/

theorem follow_eq_error_iff (hp : a.Known parent) :
    a.follow parent id = .error e ↔
      (∃ p, parent = some p ∧ p.index ≤ id.index ∧ e = .forwardReference p id) ∨
        (parent = none ∧ a.get? id = none ∧ e = .unknownNode id) := by
  cases parent with
  | none => cases hid : a.get? id <;> simp [follow, hid, eq_comm]
  | some p =>
    by_cases hle : p.index ≤ id.index
    · simp [follow, hle, eq_comm]
    · -- ids are dense, so what is older than a node is there
      have hlt := get?_isSome_iff.mp (hp p rfl)
      obtain ⟨node, hnode⟩ := exists_get?_of_lt (show id.index < a.size by omega)
      simp [follow, hle, hnode]

theorem declarationText_eq_error_iff {target : NodeId} (hid : (a.get? id).isSome) :
    a.declarationText id target = .error e ↔
      (id.index ≤ target.index ∧ e = .forwardReference id target) ∨
      (target.index < id.index ∧ a.content? target = none ∧
        e = .unhandledNode target .targetNotVariable) ∨
      (target.index < id.index ∧ ∃ v, a.content? target = some v ∧ v.declaration? = none ∧
        e = .unhandledNode target .targetNotDeclarable) := by
  unfold declarationText
  by_cases hle : id.index ≤ target.index
  · simp [follow, hle, eq_comm, Nat.not_lt.mpr hle]
  · have hlt := get?_isSome_iff.mp hid
    have holder : target.index < id.index := by omega
    obtain ⟨node, hnode⟩ := exists_get?_of_lt (show target.index < a.size by omega)
    have hcontent : a.content? target = node.content? := by simp [content?, hnode]
    have hfollow : a.follow (some id) target = .ok node := by simp [follow, hle, hnode]
    rw [hfollow, hcontent]
    cases hv : node.content? with
    | none => simp [hv, hle, holder, eq_comm]
    | some v => cases hd : v.declaration? <;> simp [hv, hle, holder, hd, eq_comm]

theorem inspect_eq_error_iff {node : Node} (hid : a.get? id = some node) :
    a.inspect id node = .error e ↔
      (∃ target, node = .declare target ∧ a.declarationText id target = .error e) ∨
        ∃ callee range, node = .call callee range ∧ a.list? range = none ∧
          e = .unhandledNode id .argumentsNotStored := by
  cases node with
  | declare target => cases hd : a.declarationText id target <;> simp [inspect, hd, Except.map]
  | call callee range => cases hl : a.list? range <;> simp [inspect, hl, eq_comm]
  | _ => simp [inspect]

/-- Within the limit, a visit fails in its own place exactly with the defects of that place. -/
theorem visit_eq_error_iff (hp : a.Known parent) (near : depth ≤ limit) :
    (a.follow parent id).bind (a.inspect id) = .error e ↔ a.Defect limit depth parent id e := by
  constructor
  · intro h
    cases hf : a.follow parent id with
    | error e' =>
      obtain rfl : e' = e := by simpa [hf, Except.bind] using h
      rcases (follow_eq_error_iff hp).mp hf with ⟨p, rfl, hle, rfl⟩ | ⟨rfl, hnone, rfl⟩
      · exact .notOlder near hle
      · exact .unknown near hnone
    | ok node =>
      obtain ⟨holder, hnode⟩ := follow_eq_ok_iff.mp hf
      have hpasses : a.Passes limit depth parent id node := ⟨near, holder, hnode⟩
      rw [hf] at h
      rcases (inspect_eq_error_iff hnode).mp h with ⟨target, rfl, hd⟩ | ⟨callee, range, rfl, hl, rfl⟩
      · rcases (declarationText_eq_error_iff (by simp [hnode])).mp hd with
          ⟨hle, rfl⟩ | ⟨hlt, hv, rfl⟩ | ⟨hlt, v, hv, hnone, rfl⟩
        · exact .targetNotOlder hpasses hle
        · exact .targetNotVariable hpasses hlt hv
        · exact .targetNotDeclarable hpasses hlt hv hnone
      · exact .argumentsNotStored hpasses hl
  · have hpassed : ∀ node, a.Passes limit depth parent id node →
        (a.follow parent id).bind (a.inspect id) = a.inspect id node := by
      intro node hpasses
      rw [follow_eq_ok_iff.mpr ⟨hpasses.older, hpasses.found⟩]
      rfl
    have hdeclared : ∀ target, a.Passes limit depth parent id (.declare target) →
        a.declarationText id target = .error e → (a.follow parent id).bind (a.inspect id) = .error e := by
      intro target hpasses hd
      rw [hpassed _ hpasses]
      exact (inspect_eq_error_iff hpasses.found).mpr (.inl ⟨target, rfl, hd⟩)
    intro h
    cases h with
    | tooDeep deep => omega
    | notOlder _ later =>
      rw [(follow_eq_error_iff hp).mpr (.inl ⟨_, rfl, later, rfl⟩)]
      rfl
    | unknown _ missing =>
      rw [(follow_eq_error_iff hp).mpr (.inr ⟨rfl, missing, rfl⟩)]
      rfl
    | targetNotOlder passes later =>
      apply hdeclared _ passes
      exact (declarationText_eq_error_iff (by simp [passes.found])).mpr (.inl ⟨later, rfl⟩)
    | targetNotVariable passes older empty =>
      apply hdeclared _ passes
      exact (declarationText_eq_error_iff (by simp [passes.found])).mpr
        (.inr (.inl ⟨older, empty, rfl⟩))
    | targetNotDeclarable passes older holds undeclared =>
      apply hdeclared _ passes
      exact (declarationText_eq_error_iff (by simp [passes.found])).mpr
        (.inr (.inr ⟨older, _, holds, undeclared, rfl⟩))
    | argumentsNotStored passes missing =>
      rw [hpassed _ passes]
      exact (inspect_eq_error_iff passes.found).mpr (.inr ⟨_, _, rfl, missing, rfl⟩)

/-! ## The walk -/

/-- What a walk comes to: it succeeds if no place has a defect, and otherwise it fails with the first
one. -/
def Reports (a : Arena) (limit depth : Nat) (parent : Option NodeId) (id : NodeId) :
    Except RenderError String → Prop
  | .ok _ => ∀ path e, ¬ a.DefectAt limit depth parent id path e
  | .error e => ∃ path, a.DefectAt limit depth parent id path e ∧
      ∀ other e', a.DefectAt limit depth parent id other e' → ¬ List.Lex (· < ·) other path

/-- Nothing comes before the place in which a walk starts. -/
theorem reports_own (h : a.Defect limit depth parent id e) :
    a.Reports limit depth parent id (.error e) :=
  ⟨[], defectAt_nil.mpr h, fun _ _ _ => List.not_lex_nil⟩

/-- From a place without a defect the walk goes on to the operands, from left to right. -/
theorem reports_operands {node : Node} (hnode : a.get? id = some node)
    (hown : ∀ e, ¬ a.Defect limit depth parent id e) {f : NodeId → Except RenderError String}
    (hops : ∀ o, a.Reports limit (depth + 1) (some id) o (f o)) (join : List String → String) :
    a.Reports limit depth parent id (((a.expanded node).mapM f).map join) := by
  have hops_ok : ∀ o text, f o = .ok text →
      ∀ path e, ¬ a.DefectAt limit (depth + 1) (some id) o path e := by
    intro o text ho
    have h := hops o
    rwa [ho] at h
  cases hm : (a.expanded node).mapM f with
  | ok texts =>
    intro path e he
    cases path with
    | nil => exact hown e (defectAt_nil.mp he)
    | cons i path =>
      obtain ⟨o, ho, hrest⟩ := (defectAt_cons hnode).mp he
      obtain ⟨text, htext⟩ := exists_mapM_iff.mp ⟨texts, hm⟩ o (List.mem_of_getElem? ho)
      exact hops_ok o text htext path e hrest
  | error e =>
    obtain ⟨i, o, ho, herror, hbefore⟩ := first_error_of_mapM hm
    have hreport := hops o
    rw [herror] at hreport
    obtain ⟨path, hpath, hleast⟩ := hreport
    refine ⟨i :: path, (defectAt_cons hnode).mpr ⟨o, ho, hpath⟩, fun other e' he' hlex => ?_⟩
    cases other with
    | nil => exact hown e' (defectAt_nil.mp he')
    | cons j rest =>
      obtain ⟨u, hu, hrest⟩ := (defectAt_cons hnode).mp he'
      cases hlex with
      | rel hlt =>
        obtain ⟨text, htext⟩ := hbefore j hlt u hu
        exact hops_ok u text htext rest e' hrest
      | cons hlex =>
        obtain rfl := Option.some.inj (ho.symm.trans hu)
        exact hleast rest e' hrest hlex

theorem renderWithin_reports {levels : Nat} (hp : a.Known parent)
    (hlevels : depth + levels = limit + 1) :
    a.Reports limit depth parent id (a.renderWithin limit levels parent id) := by
  induction levels generalizing depth parent id with
  | zero =>
    rw [renderWithin]
    apply reports_own
    exact .tooDeep (by omega)
  | succ levels ih =>
    have hvisit : ∀ e, (a.follow parent id).bind (a.inspect id) = .error e ↔
        a.Defect limit depth parent id e := fun e => visit_eq_error_iff hp (by omega)
    rw [renderWithin_succ]
    cases hf : a.follow parent id with
    | error e =>
      apply reports_own
      exact (hvisit e).mp (by rw [hf]; rfl)
    | ok node =>
      have hnode := (follow_eq_ok_iff.mp hf).2
      simp only [Except.bind]
      cases hi : a.inspect id node with
      | error e =>
        apply reports_own
        exact (hvisit e).mp (by rw [hf]; exact hi)
      | ok ids =>
        obtain ⟨-, rfl⟩ := inspect_eq_ok_iff.mp hi
        apply reports_operands hnode
        · intro e he
          have hfails := (hvisit e).mpr he
          simp [hf, hi, Except.bind] at hfails
        · intro o
          exact ih (known_some hnode) (by omega)

/-- There is one error for a place. -/
theorem Defect.unique {e' : RenderError} (hp : a.Known parent)
    (h : a.Defect limit depth parent id e) (h' : a.Defect limit depth parent id e') : e = e' := by
  by_cases near : depth ≤ limit
  · have hvisit := (visit_eq_error_iff hp near).mpr h
    rw [(visit_eq_error_iff hp near).mpr h'] at hvisit
    exact (Except.error.inj hvisit).symm
  · have hdeep : ∀ e, a.Defect limit depth parent id e → e = .nestingTooDeep limit := by
      intro e h
      cases h with
      | tooDeep => rfl
      | notOlder near' | unknown near' => exact absurd near' near
      | targetNotOlder passes | targetNotVariable passes | targetNotDeclarable passes
      | argumentsNotStored passes => exact absurd passes.near near
    rw [hdeep e h, hdeep e' h']

end

/-! ## The way to a defect -/

/-- From the root to a node in so many steps, each from a node to an older operand that is written out
below it. -/
inductive Descends (a : Arena) (root : NodeId) : Nat → NodeId → Prop
  | root : Descends a root 0 root
  | operand {n : Nat} {id o : NodeId} {node : Node} (down : Descends a root n id)
    (found : a.get? id = some node) (operand : o ∈ a.expanded node) (older : o.index < id.index) :
    Descends a root (n + 1) o

/-- How the walk comes to a place: it starts there, or it goes one step on from a node to which it
has descended. -/
inductive Comes (a : Arena) (root : NodeId) : Nat → Option NodeId → NodeId → Prop
  | root : Comes a root 0 none root
  | operand {n : Nat} {id o : NodeId} {node : Node} (down : Descends a root n id)
    (found : a.get? id = some node) (operand : o ∈ a.expanded node) : Comes a root (n + 1) (some id) o

section

variable {a : Arena} {limit depth n : Nat} {root id o : NodeId} {parent p : Option NodeId}
  {path : List Nat} {e : RenderError}

theorem Comes.known (h : a.Comes root n parent id) : a.Known parent := by
  cases h with
  | root => exact a.known_none
  | operand _ found _ => exact known_some found

theorem Comes.descends (h : a.Comes root n parent id)
    (older : ∀ p, parent = some p → id.index < p.index) : a.Descends root n id := by
  cases h with
  | root => exact .root
  | operand down found operand => exact down.operand found operand (older _ rfl)

theorem known_of_placeAt? (hp : a.Known parent) (h : a.placeAt? parent id path = some (p, o)) :
    a.Known p := by
  induction path generalizing parent id with
  | nil =>
    obtain ⟨rfl, -⟩ := Prod.mk.inj (Option.some.inj h)
    exact hp
  | cons i path ih =>
    cases hnode : a.get? id with
    | none => simp [placeAt?, hnode] at h
    | some node =>
      rw [placeAt?_cons hnode] at h
      obtain ⟨u, -, hrest⟩ := Option.bind_eq_some_iff.mp h
      exact ih (known_some hnode) hrest

/-- A place without a defect is not too deep, and its id is older than the node that names it. -/
theorem clear_of_no_defect (h : ∀ e, ¬ a.Defect limit depth parent id e) :
    depth ≤ limit ∧ ∀ p, parent = some p → id.index < p.index := by
  have near : depth ≤ limit := by
    by_contra hdeep
    exact h _ (.tooDeep (by omega))
  refine ⟨near, ?_⟩
  rintro p rfl
  by_contra hlater
  exact h _ (.notOlder near (by omega))

/-- Along a path on which no place has a defect the walk descends. -/
theorem Descends.along (hd : a.Descends root n id)
    (h : a.placeAt? parent id path = some (p, o))
    (hclear : ∀ init e, init <+: path → ¬ a.DefectAt limit n parent id init e) :
    a.Descends root (n + path.length) o := by
  induction path generalizing n parent id with
  | nil =>
    obtain ⟨-, rfl⟩ := Prod.mk.inj (Option.some.inj h)
    exact hd
  | cons i path ih =>
    cases hnode : a.get? id with
    | none => simp [placeAt?, hnode] at h
    | some node =>
      rw [placeAt?_cons hnode] at h
      obtain ⟨u, hu, hrest⟩ := Option.bind_eq_some_iff.mp h
      have hclear' : ∀ init e, init <+: path → ¬ a.DefectAt limit (n + 1) (some id) u init e := by
        intro init e hinit he
        exact hclear (i :: init) e (List.prefix_cons_inj i |>.mpr hinit)
          ((defectAt_cons hnode).mpr ⟨u, hu, he⟩)
      have hnone : ∀ e, ¬ a.Defect limit (n + 1) (some id) u e := fun e he =>
        hclear' [] e List.nil_prefix (defectAt_nil.mpr he)
      have holder := (clear_of_no_defect hnone).2 id rfl
      have hdown := ih (hd.operand hnode (List.mem_of_getElem? hu) holder) hrest hclear'
      rw [List.length_cons]
      rwa [show n + (path.length + 1) = n + 1 + path.length by omega]

/-- The walk comes to the first defect from above, where there is none. -/
theorem FirstDefect.exists_comes (h : a.FirstDefect root limit e) :
    ∃ n parent id, a.Comes root n parent id ∧ n ≤ limit + 1 ∧ a.Defect limit n parent id e := by
  obtain ⟨path, ⟨parent, id, hplace, hdefect⟩, hleast⟩ := h
  rw [Nat.zero_add] at hdefect
  refine ⟨path.length, parent, id, ?_⟩
  rcases List.eq_nil_or_concat' path with rfl | ⟨init, i, rfl⟩
  · obtain ⟨rfl, rfl⟩ := Prod.mk.inj (Option.some.inj hplace)
    exact ⟨.root, Nat.zero_le _, hdefect⟩
  · have hclear : ∀ before e, before <+: init → ¬ a.DefectAt limit 0 none root before e := by
      intro before e hbefore he
      obtain ⟨rest, rfl⟩ := hbefore
      have hbelow : List.Lex (· < ·) [] (rest ++ [i]) := by cases rest <;> exact .nil
      have hlater := hbelow.append_left _ before
      rw [List.append_nil, ← List.append_assoc] at hlater
      exact hleast before e he hlater
    rw [placeAt?_concat] at hplace
    obtain ⟨⟨q, u⟩, hu, hplace⟩ := Option.bind_eq_some_iff.mp hplace
    obtain ⟨node, hnode, hplace⟩ := Option.bind_eq_some_iff.mp hplace
    obtain ⟨v, hv, heq⟩ := Option.map_eq_some_iff.mp hplace
    obtain ⟨rfl, rfl⟩ := Prod.mk.inj heq
    have hdown := Descends.root.along hu hclear
    have hnone : ∀ e, ¬ a.Defect limit init.length q u e := by
      intro e he
      exact hclear init e (List.prefix_refl init) ⟨q, u, hu, by rwa [Nat.zero_add]⟩
    have hnear := (clear_of_no_defect hnone).1
    rw [Nat.zero_add] at hdown
    rw [List.length_append, List.length_singleton] at hdefect ⊢
    exact ⟨.operand hdown hnode (List.mem_of_getElem? hv), by omega, hdefect⟩

end

/-- Rendering fails exactly with the first defect. -/
theorem renderExpr_eq_error_iff {a : Arena} {root : NodeId} {limit : Nat} {e : RenderError} :
    a.renderExpr root limit = .error e ↔ a.FirstDefect root limit e := by
  have hreport : a.Reports limit 0 none root (a.renderExpr root limit) :=
    renderWithin_reports a.known_none (Nat.zero_add _)
  constructor
  · intro h
    rwa [h] at hreport
  · rintro ⟨path, hpath, hleast⟩
    cases hr : a.renderExpr root limit with
    | ok text =>
      rw [hr] at hreport
      exact absurd hpath (hreport path e)
    | error e' =>
      rw [hr] at hreport
      obtain ⟨other, hother, hleast'⟩ := hreport
      obtain rfl : path = other :=
        Std.Trichotomous.trichotomous _ _ (hleast' path e hpath) (hleast other e' hother)
      obtain ⟨p, o, hplace, hdefect⟩ := hpath
      obtain ⟨p', o', hplace', hdefect'⟩ := hother
      obtain ⟨rfl, rfl⟩ := Prod.mk.inj (Option.some.inj (hplace.symm.trans hplace'))
      rw [hdefect.unique (known_of_placeAt? a.known_none hplace) hdefect']

/-- Of two defects the one on the left is reported. -/
example : Arena.renderExpr
    ⟨#[.leaf (.literal (.bool true)), .declare ⟨0⟩, .binary .add ⟨1⟩ ⟨5⟩], #[]⟩ ⟨2⟩ 1 =
      .error (.unhandledNode ⟨0⟩ .targetNotDeclarable) := rfl

/-- The error of a rendered expression is the first defect, in the order of the walk, and what it says
is so. Only the root can be unknown. A node that is said to name something that is not older is one
to which the walk descends within the limit, and it has such an operand. An unhandled node is the
target of a declaration to which the walk descends, and is no variable or has no declaration, or it is
a call to which the walk descends, and its arguments are not stored. Where the nesting is too deep the
walk descends for as many steps as the limit allows, and from there goes one step more. -/
theorem defect_of_renderExpr (a : Arena) (root : NodeId) (limit : Nat) :
    (∀ e, a.renderExpr root limit = .error e ↔ a.FirstDefect root limit e) ∧
    (∀ id, a.renderExpr root limit = .error (.unknownNode id) → id = root ∧ a.get? root = none) ∧
    (∀ parent child, a.renderExpr root limit = .error (.forwardReference parent child) →
      parent.index ≤ child.index ∧ ∃ n node, n ≤ limit ∧ a.Descends root n parent ∧
        a.get? parent = some node ∧ child ∈ a.operands node) ∧
    (∀ id reason, a.renderExpr root limit = .error (.unhandledNode id reason) →
      (∃ n declaration, n ≤ limit ∧ a.Descends root n declaration ∧
        a.get? declaration = some (.declare id) ∧ id.index < declaration.index ∧
        ((reason = .targetNotVariable ∧ a.content? id = none) ∨
          (reason = .targetNotDeclarable ∧
            ∃ v, a.content? id = some v ∧ v.declaration? = none))) ∨
      ∃ n callee range, n ≤ limit ∧ a.Descends root n id ∧
        a.get? id = some (.call callee range) ∧ a.list? range = none ∧
        reason = .argumentsNotStored) ∧
    (∀ l, a.renderExpr root limit = .error (.nestingTooDeep l) →
      l = limit ∧ ∃ id node o, a.Descends root limit id ∧ a.get? id = some node ∧
        o ∈ a.expanded node) ∧
    a.renderExpr root limit ≠ .error .missingCondition := by
  have hfirst : ∀ e, a.renderExpr root limit = .error e →
      ∃ n parent id, a.Comes root n parent id ∧ n ≤ limit + 1 ∧ a.Defect limit n parent id e :=
    fun e he => (renderExpr_eq_error_iff.mp he).exists_comes
  refine ⟨fun e => renderExpr_eq_error_iff, ?_, ?_, ?_, ?_, ?_⟩
  · intro id he
    obtain ⟨n, parent, id', hcomes, -, hdefect⟩ := hfirst _ he
    cases hdefect with
    | unknown near missing =>
      cases hcomes
      exact ⟨rfl, missing⟩
  · intro parent child he
    obtain ⟨n, p, id, hcomes, -, hdefect⟩ := hfirst _ he
    cases hdefect with
    | notOlder near later =>
      cases hcomes with
      | operand down found operand =>
        exact ⟨later, _, _, by omega, down, found, mem_operands_of_mem_expanded operand⟩
    | targetNotOlder passes later =>
      have hdown := hcomes.descends passes.older
      exact ⟨later, n, _, passes.near, hdown, passes.found, by simp [operands, Node.children]⟩
  · intro id reason he
    obtain ⟨n, p, u, hcomes, -, hdefect⟩ := hfirst _ he
    cases hdefect with
    | targetNotVariable passes older empty =>
      have hdown := hcomes.descends passes.older
      exact Or.inl ⟨n, u, passes.near, hdown, passes.found, older, Or.inl ⟨rfl, empty⟩⟩
    | targetNotDeclarable passes older holds undeclared =>
      have hdown := hcomes.descends passes.older
      exact Or.inl ⟨n, u, passes.near, hdown, passes.found, older,
        Or.inr ⟨rfl, _, holds, undeclared⟩⟩
    | argumentsNotStored passes missing =>
      have hdown := hcomes.descends passes.older
      exact Or.inr ⟨n, _, _, passes.near, hdown, passes.found, missing, rfl⟩
  · intro l he
    obtain ⟨n, p, u, hcomes, hle, hdefect⟩ := hfirst _ he
    cases hdefect with
    | tooDeep deep =>
      cases hcomes with
      | root => omega
      | @operand m id o node down found operand =>
        obtain rfl : m = limit := by omega
        exact ⟨rfl, id, node, u, down, found, operand⟩
  · intro he
    obtain ⟨n, p, u, -, -, hdefect⟩ := hfirst _ he
    cases hdefect

end Arena

end KernelForge
