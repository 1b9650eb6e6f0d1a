import KernelForge.Proofs.Expr.Sound
import Mathlib.Logic.Relation

/-!
# Growing contexts

All that a context takes in comes in one of four ways: a plain node, a call with its arguments, a
list that no call uses, or a variable under a new name. What these four keep, every operation keeps.
Only an update changes what is there.
-/
namespace KernelForge

namespace Context

/-- Stores the arguments of a call and appends the call. -/
def allocCall (c : Context) (callee : Signature) (ids : List NodeId) : NodeId × Context :=
  { c with arena := (c.arena.appendList ids).2 }.alloc (.call callee (c.arena.appendList ids).1)

/-- One step of growth. -/
inductive Growth (c : Context) : Context → Prop
  /-- A node of older operands that is neither a call nor a named variable. -/
  | node (node : Node) (plain : ∀ callee range, node ≠ .call callee range)
      (unnamed : ∀ v, node = .leaf v → v.name? = none)
      (older : ∀ o ∈ node.children, o.index < c.arena.size) : Growth c (c.alloc node).2
  | call (callee : Signature) (ids : List NodeId) (short : ids.length ≤ Arena.maxArguments)
      (older : ∀ o ∈ ids, o.index < c.arena.size) : Growth c (c.allocCall callee ids).2
  /-- A list that is too long for a call. -/
  | list (ids : List NodeId) : Growth c { c with arena := (c.arena.appendList ids).2 }
  | enter (name : String) (v : Variable) (named : v.name? = some name)
      (fresh : c.lookup name = none) : Growth c (c.enter name v).2

/-- Any number of steps of growth. -/
def Grows : Context → Context → Prop := Relation.ReflTransGen Growth

theorem Grows.refl (c : Context) : c.Grows c := Relation.ReflTransGen.refl

theorem Grows.trans {c d e : Context} (hcd : c.Grows d) (hde : d.Grows e) : c.Grows e :=
  Relation.ReflTransGen.trans hcd hde

theorem Growth.grows {c d : Context} (h : c.Growth d) : c.Grows d := Relation.ReflTransGen.single h

/-- Operands are older, the arguments of calls are stored, and the table leads each of its names to
a named variable of its own. -/
structure Sound (c : Context) : Prop where
  arena : c.arena.Sound
  symbol : ∀ name id, c.lookup name = some id →
    ∃ v, c.arena.content? id = some v ∧ v.name?.isSome
  injective : ∀ m n id, c.lookup m = some id → c.lookup n = some id → m = n

/-- All that is in `c` is in `d`, in its place. -/
structure Extends (c d : Context) : Prop where
  arena : c.arena.Extends d.arena
  symbol : ∀ name id, c.lookup name = some id → d.lookup name = some id

theorem Extends.refl (c : Context) : c.Extends c := ⟨.refl _, fun _ _ h => h⟩

theorem Extends.trans {c d e : Context} (hcd : c.Extends d) (hde : d.Extends e) : c.Extends e :=
  ⟨hcd.arena.trans hde.arena, fun name id h => hde.symbol name id (hcd.symbol name id h)⟩

/-- The names of the table are the names of the named variables, each at the node of its name. -/
def Tabled (c : Context) : Prop :=
  ∀ name id, c.lookup name = some id ↔ ∃ v, c.arena.content? id = some v ∧ v.name? = some name

@[simp] theorem lookup_alloc (c : Context) (node : Node) (name : String) :
    (c.alloc node).2.lookup name = c.lookup name := rfl

theorem lookup_enter (c : Context) (name other : String) (v : Variable) :
    (c.enter name v).2.lookup other =
      if name = other then some ⟨c.arena.size⟩ else c.lookup other :=
  Table.get?_insert ..

theorem get?_allocCall (c : Context) (callee : Signature) (ids : List NodeId) (id : NodeId) :
    (c.allocCall callee ids).2.arena.get? id =
      if id.index = c.arena.size then some (.call callee (c.arena.appendList ids).1)
      else c.arena.get? id :=
  Arena.get?_alloc ..

theorem get?_enter (c : Context) (name : String) (v : Variable) (id : NodeId) :
    (c.enter name v).2.arena.get? id =
      if id.index = c.arena.size then some (.leaf v) else c.arena.get? id :=
  Arena.get?_alloc ..

theorem list?_allocCall (c : Context) (callee : Signature) (ids : List NodeId) :
    (c.allocCall callee ids).2.arena.list? (c.arena.appendList ids).1 = some ids :=
  Arena.list?_appendList c.arena ids

theorem sound_new (provenance : String) : (Context.new provenance).Sound := by
  refine ⟨⟨?_, ?_⟩, ?_, ?_⟩ <;> simp [Context.new, Arena.empty, Arena.get?, lookup]

theorem tabled_new (provenance : String) : (Context.new provenance).Tabled := by
  simp [Tabled, Context.new, Arena.empty, Arena.content?, Arena.get?, lookup]

theorem Sound.lookup_lt {c : Context} (hs : c.Sound) {name : String} {id : NodeId}
    (h : c.lookup name = some id) : id.index < c.arena.size := by
  obtain ⟨v, hv, -⟩ := hs.symbol name id h
  exact Arena.lt_of_get? (Arena.content?_eq_some_iff.mp hv)

theorem Growth.extends {c d : Context} (h : c.Growth d) : c.Extends d := by
  cases h with
  | node node plain unnamed older => exact ⟨c.arena.extends_alloc node, fun _ _ h => h⟩
  | call callee ids short older =>
    exact ⟨(c.arena.extends_appendList ids).trans (Arena.extends_alloc _ _), fun _ _ h => h⟩
  | list ids => exact ⟨c.arena.extends_appendList ids, fun _ _ h => h⟩
  | enter name v named fresh =>
    refine ⟨c.arena.extends_alloc (.leaf v), fun other id h => ?_⟩
    have hne : name ≠ other := by
      rintro rfl
      simp [fresh] at h
    rw [lookup_enter, if_neg hne, h]

theorem Grows.extends {c d : Context} (h : c.Grows d) : c.Extends d := by
  induction h with
  | refl => exact .refl c
  | tail _ hstep ih => exact ih.trans hstep.extends

theorem Growth.sound {c d : Context} (h : c.Growth d) (hs : c.Sound) : d.Sound := by
  have hext := h.extends
  cases h with
  | node node plain unnamed older =>
    refine ⟨hs.arena.alloc ?_ fun callee range he => absurd he (plain callee range), ?_, hs.injective⟩
    · rwa [Arena.operands_eq_children plain]
    · intro name id hid
      obtain ⟨v, hv, hn⟩ := hs.symbol name id hid
      exact ⟨v, hext.arena.content? hv, hn⟩
  | call callee ids short older =>
    have hids := c.arena.list?_appendList ids
    refine ⟨(hs.arena.appendList ids).alloc ?_ ?_, ?_, hs.injective⟩
    · rw [Arena.operands_call hids]
      exact older
    · rintro callee' range ⟨⟩
      exact ⟨ids, hids, short⟩
    · intro name id hid
      obtain ⟨v, hv, hn⟩ := hs.symbol name id hid
      exact ⟨v, hext.arena.content? hv, hn⟩
  | list ids =>
    refine ⟨hs.arena.appendList ids, ?_, hs.injective⟩
    intro name id hid
    obtain ⟨v, hv, hn⟩ := hs.symbol name id hid
    exact ⟨v, hext.arena.content? hv, hn⟩
  | enter name v named fresh =>
    -- the new name has the new node, and every other name an older one
    have hsplit : ∀ other id, (c.enter name v).2.lookup other = some id →
        (other = name ∧ id.index = c.arena.size) ∨
          (c.lookup other = some id ∧ id.index < c.arena.size) := by
      intro other id hid
      rw [lookup_enter] at hid
      split_ifs at hid with hname
      · obtain rfl := Option.some.inj hid
        exact Or.inl ⟨hname.symm, rfl⟩
      · exact Or.inr ⟨hid, hs.lookup_lt hid⟩
    refine ⟨hs.arena.alloc (by simp [Arena.operands, Node.children]) (by simp), ?_, ?_⟩
    · intro other id hid
      rcases hsplit other id hid with ⟨-, hnew⟩ | ⟨hold, -⟩
      · refine ⟨v, Arena.content?_eq_some_iff.mpr ?_, by simp [named]⟩
        rw [get?_enter, if_pos hnew]
      · obtain ⟨w, hw, hn⟩ := hs.symbol other id hold
        exact ⟨w, hext.arena.content? hw, hn⟩
    · intro m n id hm hn
      rcases hsplit m id hm with ⟨rfl, hnew⟩ | ⟨hm, hlt⟩
      · rcases hsplit n id hn with ⟨rfl, -⟩ | ⟨-, hlt⟩
        · rfl
        · omega
      · rcases hsplit n id hn with ⟨-, hnew⟩ | ⟨hn, -⟩
        · omega
        · exact hs.injective m n id hm hn

theorem Grows.sound {c d : Context} (h : c.Grows d) (hs : c.Sound) : d.Sound := by
  induction h with
  | refl => exact hs
  | tail _ hstep ih => exact hstep.sound ih

/-- The table stays right as long as neither it nor the named variables change. -/
theorem Tabled.congr {c d : Context} (ht : c.Tabled)
    (hlookup : ∀ name, d.lookup name = c.lookup name)
    (hcontent : ∀ id v, v.name?.isSome →
      (d.arena.content? id = some v ↔ c.arena.content? id = some v)) :
    d.Tabled := by
  intro name id
  rw [hlookup, ht name id]
  refine exists_congr fun v => ?_
  constructor
  · rintro ⟨hv, hn⟩
    exact ⟨(hcontent id v (by simp [hn])).mpr hv, hn⟩
  · rintro ⟨hv, hn⟩
    exact ⟨(hcontent id v (by simp [hn])).mp hv, hn⟩

theorem content?_alloc_unnamed {a : Arena} {node : Node} {id : NodeId} {v : Variable}
    (unnamed : ∀ v, node = .leaf v → v.name? = none) (hv : v.name?.isSome) :
    (a.alloc node).2.content? id = some v ↔ a.content? id = some v := by
  rw [Arena.content?_alloc]
  split_ifs with hid
  · have hnode : node.content? ≠ some v := by
      intro h
      cases node with
      | leaf w =>
        obtain rfl := Option.some.inj h
        simp [unnamed w rfl] at hv
      | _ => simp [Node.content?] at h
    have hnew : a.content? id = none := by
      obtain rfl : id = ⟨a.size⟩ := NodeId.eq_of_index_eq hid
      exact a.content?_size
    simp [hnode, hnew]
  · rfl

theorem Growth.tabled {c d : Context} (h : c.Growth d) (hs : c.Sound) (ht : c.Tabled) :
    d.Tabled := by
  cases h with
  | node node plain unnamed older =>
    exact ht.congr (fun _ => rfl) fun id v hv => content?_alloc_unnamed unnamed hv
  | call callee ids short older =>
    refine ht.congr (fun _ => rfl) fun id v hv => ?_
    exact content?_alloc_unnamed (a := (c.arena.appendList ids).2) (by simp) hv
  | list ids => exact ht
  | enter name v named fresh =>
    intro other id
    have hcontent : (c.enter name v).2.arena.content? id =
        if id.index = c.arena.size then some v else c.arena.content? id :=
      Arena.content?_alloc c.arena (.leaf v) id
    rw [lookup_enter, hcontent]
    by_cases hid : id.index = c.arena.size
    · obtain rfl : id = ⟨c.arena.size⟩ := NodeId.eq_of_index_eq hid
      by_cases hname : name = other
      · simp [hname, named]
      · have hold : c.lookup other ≠ some ⟨c.arena.size⟩ := fun h =>
          Nat.lt_irrefl _ (hs.lookup_lt h)
        simp [hname, named, hold]
    · by_cases hname : name = other
      · subst hname
        have hne : (⟨c.arena.size⟩ : NodeId) ≠ id := fun h => hid (by rw [← h])
        have hnone : ∀ v, c.arena.content? id = some v → v.name? ≠ some name := by
          intro w hw hn
          have := (ht name id).mpr ⟨w, hw, hn⟩
          simp [fresh] at this
        simpa [hid, hne] using hnone
      · simp [hid, hname, ht other id]

theorem Grows.tabled {c d : Context} (h : c.Grows d) (hs : c.Sound) (ht : c.Tabled) : d.Tabled := by
  induction h with
  | refl => exact ht
  | tail hsteps hstep ih => exact hstep.tabled (Grows.sound hsteps hs) ih

/-! ## Updates -/

/-- An update puts a named variable in the place of a named variable. -/
theorem modifyVariable_eq_ok_iff {c d : Context} {id : NodeId} {f : Variable → Variable} :
    c.modifyVariable id f = .ok d ↔
      ∃ v, c.arena.content? id = some v ∧ v.name?.isSome ∧ (f v).name?.isSome ∧
        d = { c with arena := c.arena.overwrite id (.leaf (f v)) } := by
  unfold modifyVariable
  cases hv : c.arena.content? id with
  | none => simp
  | some v =>
    cases hn : v.name? with
    | none => simp [hn]
    | some name =>
      cases hm : (f v).name? with
      | none => simp [hn, hm]
      | some other =>
        simp only [Option.isNone_some, Bool.or_self, Bool.false_eq_true, if_false,
          Except.ok.injEq, Option.some.injEq, exists_eq_left', hn, hm, Option.isSome_some, true_and]
        exact eq_comm

/-- An update that does not put one named variable in the place of another is refused. -/
theorem modifyVariable_eq_error {c : Context} {id : NodeId} {change : Variable → Variable}
    (h : ¬ ∃ v, c.arena.content? id = some v ∧ v.name?.isSome ∧ (change v).name?.isSome) :
    c.modifyVariable id change = .error (.notAVariable id) := by
  unfold modifyVariable
  cases hv : c.arena.content? id with
  | none => rfl
  | some v =>
    have hunnamed : (v.name?.isNone || (change v).name?.isNone) = true := by
      by_contra hnamed
      exact h ⟨v, hv, by simpa [Option.isSome_iff_ne_none] using hnamed⟩
    simp only [hunnamed, if_true]

theorem Sound.update {c : Context} (hs : c.Sound) {id : NodeId} {v w : Variable}
    (hv : c.arena.content? id = some v) (hw : w.name?.isSome) :
    ({ c with arena := c.arena.overwrite id (.leaf w) } : Context).Sound := by
  refine ⟨hs.arena.overwrite id w, ?_, hs.injective⟩
  intro name other hother
  obtain ⟨u, hu, hn⟩ := hs.symbol name other hother
  by_cases hid : id = other
  · exact ⟨w, by rw [Arena.content?_overwrite other w hv, if_pos hid], hw⟩
  · exact ⟨u, by rw [Arena.content?_overwrite other w hv, if_neg hid, hu], hn⟩

theorem Tabled.update {c : Context} (ht : c.Tabled) {id : NodeId} {v w : Variable}
    (hv : c.arena.content? id = some v) (hw : w.name? = v.name?) :
    ({ c with arena := c.arena.overwrite id (.leaf w) } : Context).Tabled := by
  intro name other
  have hcontent := Arena.content?_overwrite other w hv
  refine (ht name other).trans ?_
  simp only [hcontent]
  by_cases hid : id = other
  · subst hid
    simp [hv, hw]
  · simp [hid]

end Context

end KernelForge
