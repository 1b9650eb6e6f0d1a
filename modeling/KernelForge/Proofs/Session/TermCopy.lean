import KernelForge.Proofs.Render.Term
import KernelForge.Proofs.Session.Import

/-!
# Terms of copies

A copied expression stands for the term of the original with each named variable replaced by what
its name means in the receiving context. Names mean named variables there, so that a copy has the
height of the original and can be rendered exactly when the original can.
-/
namespace KernelForge

def Label.substitute (σ : String → Variable) : Label → Label
  | .leaf v => .leaf (v.substitute σ)
  | label => label

namespace Term

mutual

/-- The same term over other variables. -/
def substitute (σ : String → Variable) : Term → Term
  | missing => missing
  | node label operands => node (label.substitute σ) (substituteAll σ operands)

def substituteAll (σ : String → Variable) : List Term → List Term
  | [] => []
  | t :: rest => t.substitute σ :: substituteAll σ rest

end

theorem substituteAll_eq_map (σ : String → Variable) (ts : List Term) :
    substituteAll σ ts = ts.map (substitute σ) := by
  induction ts with
  | nil => rfl
  | cons t rest ih => rw [substituteAll, ih, List.map_cons]

@[simp] theorem substitute_missing (σ : String → Variable) : substitute σ missing = missing := by
  rw [substitute]

@[simp] theorem substitute_node (σ : String → Variable) (label : Label) (ts : List Term) :
    substitute σ (node label ts) = node (label.substitute σ) (ts.map (substitute σ)) := by
  rw [substitute, substituteAll_eq_map]

theorem everywhere_substitute {σ : String → Variable} {p : Label → List Term → Prop} {t : Term} :
    (t.substitute σ).Everywhere p ↔
      t.Everywhere fun label ts => p (label.substitute σ) (ts.map (substitute σ)) := by
  induction t using Term.induction with
  | missing => rw [substitute_missing]; exact Iff.rfl
  | node label ts ih =>
    rw [substitute_node, everywhere_node, everywhere_node]
    simp only [List.mem_map, forall_exists_index, and_imp, forall_apply_eq_imp_iff₂]
    exact and_congr_right fun _ => forall₂_congr ih

theorem height_node {label : Label} (h : label ≠ .declare) (ts : List Term) :
    (node label ts).height = heightAll ts := by
  cases label <;> first | rfl | exact absurd rfl h

theorem height_substitute (σ : String → Variable) (t : Term) :
    (t.substitute σ).height = t.height := by
  induction t using Term.induction with
  | missing => rw [substitute_missing]
  | node label ts ih =>
    rw [substitute_node]
    by_cases hl : label = .declare
    · subst hl
      rfl
    · have hl' : label.substitute σ ≠ .declare := by cases label <;> simp_all [Label.substitute]
      rw [height_node hl, height_node hl']
      -- both sides have the same bounds
      refine Nat.le_antisymm (heightAll_le_iff.mpr fun u hu => ?_)
        (heightAll_le_iff.mpr fun u hu => ?_)
      · obtain ⟨v, hv, rfl⟩ := List.mem_map.mp hu
        rw [ih v hv]
        exact heightAll_le_iff.mp (Nat.le_refl _) v hv
      · rw [← ih u hu]
        exact heightAll_le_iff.mp (Nat.le_refl _) _ (List.mem_map_of_mem hu)

theorem substitute_eq_leaf_iff {σ : String → Variable} {t : Term} {w : Variable} :
    t.substitute σ = leaf w ↔ ∃ v, t = leaf v ∧ v.substitute σ = w := by
  cases t with
  | missing => simp [leaf]
  | node label ts =>
    cases label <;> simp [leaf, Label.substitute, and_comm]

end Term

theorem Variable.declaration?_isSome_of_name? {v : Variable} (h : v.name?.isSome) :
    v.declaration?.isSome := by
  cases v with
  | scalar | array => rfl
  | matrix k n dims => cases dims <;> rfl
  | pointer w | reference w =>
    have hw : w.name?.isSome := h
    simpa [declaration?] using hw
  | literal | slot => simp [name?] at h

/-- What is named stays declarable when names get other meanings. -/
theorem Variable.declaration?_substitute {σ : String → Variable} (hσ : ∀ n, (σ n).name?.isSome)
    (v : Variable) : (v.substitute σ).declaration?.isSome = v.declaration?.isSome := by
  cases hn : v.name? with
  | none => simp [substitute, hn]
  | some n =>
    simp [substitute, hn, declaration?_isSome_of_name? (hσ n),
      declaration?_isSome_of_name? (v := v) (by simp [hn])]

theorem Term.declarable_substitute {σ : String → Variable} (hσ : ∀ n, (σ n).name?.isSome)
    (t : Term) : (t.substitute σ).Everywhere Declarable ↔ t.Everywhere Declarable := by
  have hone : ∀ label ts, Declarable (label.substitute σ) (ts.map (substitute σ)) ↔
      Declarable label ts := by
    intro label ts
    have hlabel : label.substitute σ = .declare ↔ label = .declare := by
      cases label <;> simp [Label.substitute]
    refine imp_congr hlabel ?_
    rcases ts with _ | ⟨t, _ | ⟨u, rest⟩⟩
    · simp
    · simp only [List.map_cons, List.map_nil, List.cons.injEq, and_true, substitute_eq_leaf_iff]
      constructor
      · rintro ⟨w, ⟨v, rfl, rfl⟩, hw⟩
        exact ⟨v, rfl, by rwa [Variable.declaration?_substitute hσ] at hw⟩
      · rintro ⟨v, rfl, hv⟩
        exact ⟨_, ⟨v, rfl, rfl⟩, by rwa [Variable.declaration?_substitute hσ]⟩
    · simp
  rw [everywhere_substitute]
  exact ⟨fun h => h.imp fun label ts => (hone label ts).mp,
    fun h => h.imp fun label ts => (hone label ts).mpr⟩

namespace Arena

theorem term_substitute (a : Arena) (σ : String → Variable) (id : NodeId) :
    (a.substitute σ).term id = (a.term id).substitute σ := by
  induction hn : id.index using Nat.strongRecOn generalizing id with
  | ind n ih =>
    rw [term, term, get?_substitute]
    cases hnode : a.get? id with
    | none => simp
    | some node =>
      have hlabel : (node.substitute σ).label = node.label.substitute σ := by cases node <;> rfl
      simp only [Option.map_some, Term.substitute_node, hlabel, operands_substitute, List.map_map]
      refine congrArg _ (List.map_congr_left fun o _ => ?_)
      simp only [Function.comp_apply]
      split_ifs with hlt
      · exact ih o.index (by omega) o rfl
      · simp

/-- A node and its image stand for the same term. -/
theorem Mirrored.term_eq {a b : Arena} {image : NodeId → NodeId} {known : NodeId → Prop}
    (hm : Mirrored a b image known) {id : NodeId} (hid : known id) :
    b.term (image id) = a.term id := by
  induction hn : id.index using Nat.strongRecOn generalizing id with
  | ind n ih =>
    obtain ⟨node, node', hnode, hnode', hmirror⟩ := hm.node id hid
    have hlabel : node'.label = node.label := by cases hmirror <;> rfl
    have hoperands : b.operands node' = (a.operands node).map image := by
      cases hmirror with
      | call callee stored copied => simp [operands, stored, copied]
      | _ => rfl
    rw [term, term, hnode, hnode']
    simp only [hlabel, hoperands, List.map_map]
    refine congrArg _ (List.map_congr_left fun o ho => ?_)
    obtain ⟨hknown, hlt, hlt'⟩ := hm.operand id node o hid hnode ho
    simp only [Function.comp_apply, if_pos hlt, if_pos hlt']
    exact ih o.index (by omega) hknown rfl

end Arena

namespace Context

/-- What a name means in a context. A name that is not entered stands for any variable. -/
def meaning (c : Context) (name : String) : Variable := (c.entered? name).getD (.scalar .i8 name)

theorem Sound.name?_entered {c : Context} (hc : c.Sound) {name : String} {v : Variable}
    (h : c.entered? name = some v) : v.name?.isSome := by
  obtain ⟨id, hid, hv⟩ := Option.bind_eq_some_iff.mp h
  obtain ⟨w, hw, hn⟩ := hc.symbol name id hid
  obtain rfl := Option.some.inj (hv.symm.trans hw)
  exact hn

theorem Sound.name?_meaning {c : Context} (hc : c.Sound) (name : String) :
    (c.meaning name).name?.isSome := by
  unfold meaning
  cases h : c.entered? name with
  | none => rfl
  | some v => exact hc.name?_entered h

section

variable {source : Arena} (hs : source.Sound) {c : Context} (hc : c.Sound) {roots : List NodeId}
  (hroots : ∀ r ∈ roots, r.index < source.size) {m : Copying} (hm : c.Copied source roots m)
include hs hc hroots hm

theorem Copied.resolves_meaning : c.Resolves source roots m.target.meaning := by
  constructor
  · intro name v hv
    rw [meaning, hm.entered?_of_entered hc hv, Option.getD_some]
  · intro name before root after id v hfresh hsplit hbefore hid hleast
    rw [meaning, hm.entered?_of_first hs hc hroots hfresh hsplit hbefore hid hleast,
      Option.getD_some]

/-- A copy stands for the original over the variables that the names mean. -/
theorem Copied.term_image {root : NodeId} (hroot : root ∈ roots) :
    m.target.arena.term (m.copies.image root) = (source.term root).substitute m.target.meaning := by
  have hσ := hm.resolves_meaning hs hc hroots
  rw [(hm.mirrored hs hc hroots hσ).term_eq (hm.copied root hroot), Arena.term_substitute]

end

end Context

end KernelForge
