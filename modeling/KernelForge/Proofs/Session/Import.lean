import KernelForge.Proofs.Session.Resolution
import KernelForge.Proofs.Session.Soundness
import Mathlib.Data.Nat.Find

/-!
# Imports

What was built in one context can be used in another. Its names then mean what they mean there, and
nothing else changes: an imported expression renders as the original does with each named variable
replaced by the one that its name leads to.
-/
namespace KernelForge

namespace Copying

variable {source : Arena}

theorem copyAll_copied (hs : source.Sound) {m : Copying} (hv : m.Valid source)
    {roots : List NodeId} (hroots : ∀ r ∈ roots, r.index < source.size) {id : NodeId}
    (h : ((copyAll source m roots).copies.copy? id).isSome) :
    (m.copies.copy? id).isSome ∨ ∃ r ∈ roots, source.Reaches r id := by
  induction roots generalizing m with
  | nil => exact Or.inl h
  | cons root rest ih =>
    have hroot := hroots root (by simp)
    obtain ⟨hv', -, -⟩ := expr_valid hs hv hroot
    rcases ih hv' (fun r hr => hroots r (by simp [hr])) h with h | ⟨r, hr, hreach⟩
    · rcases foldl_copied h with h | hmem
      · exact Or.inl h
      · cases hc : m.copies.copy? root with
        | some copy => simp [missing, hc] at hmem
        | none => exact Or.inr ⟨root, by simp, ((mem_missing hs hv hroot hc).mp hmem).1⟩
    · exact Or.inr ⟨r, by simp [hr], hreach⟩

theorem expr_entered? (source : Arena) {m : Copying} (hr : m.target.Resolved) (root : NodeId) :
    (expr source root m).2.target.Resolved ∧ ∀ name,
      (expr source root m).2.target.entered? name = (m.target.entered? name).or
        ((missing source m.copies root).findSome? (source.named? name)) :=
  foldl_entered? hr _

theorem copyAll_entered? {m : Copying} (hr : m.target.Resolved) (roots : List NodeId) :
    (copyAll source m roots).target.Resolved ∧ ∀ name v, m.target.entered? name = some v →
      (copyAll source m roots).target.entered? name = some v := by
  induction roots generalizing m with
  | nil => exact ⟨hr, fun _ _ h => h⟩
  | cons root rest ih =>
    obtain ⟨hr', hexpr⟩ := expr_entered? source hr root
    obtain ⟨hr'', hrest⟩ := ih hr'
    refine ⟨hr'', fun name v hv => hrest name v ?_⟩
    rw [hexpr, hv, Option.some_or]

theorem copyAll_entered?_eq_none (hs : source.Sound) {m : Copying} (hv : m.Valid source)
    {roots : List NodeId} (hroots : ∀ r ∈ roots, r.index < source.size) {name : String}
    (hnone : m.target.entered? name = none)
    (hfree : ∀ r ∈ roots, ∀ i w, ¬ source.Carries r i name w) :
    (copyAll source m roots).target.entered? name = none := by
  induction roots generalizing m with
  | nil => exact hnone
  | cons root rest ih =>
    have hroot := hroots root (by simp)
    obtain ⟨hv', -, -⟩ := expr_valid hs hv hroot
    refine ih hv' (fun r hr => hroots r (by simp [hr])) ?_ fun r hr => hfree r (by simp [hr])
    obtain ⟨-, hexpr⟩ := expr_entered? source hv.sound.resolved root
    rw [hexpr, hnone, Option.none_or, List.findSome?_eq_none_iff]
    intro id hid
    cases hc : m.copies.copy? root with
    | some copy => simp [missing, hc] at hid
    | none =>
      obtain ⟨hreach, -⟩ := (mem_missing hs hv hroot hc).mp hid
      cases hn : source.named? name id with
      | none => rfl
      | some v =>
        obtain ⟨hcontent, hname⟩ := Arena.named?_eq_some_iff.mp hn
        exact absurd ⟨hreach, hcontent, hname⟩ (hfree root (by simp) id v)

/-- A new name is entered for the node of the least id among those below its first root. -/
theorem expr_entered?_eq_some (hs : source.Sound) {m : Copying} (hv : m.Valid source)
    {root : NodeId} (hroot : root.index < source.size) {name : String} {id : NodeId} {v : Variable}
    (hnone : m.target.entered? name = none) (hid : source.Carries root id name v)
    (hleast : ∀ i w, source.Carries root i name w → id.index ≤ i.index)
    (hnew : m.copies.copy? id = none) :
    (expr source root m).2.target.entered? name = some v := by
  obtain ⟨-, hexpr⟩ := expr_entered? source hv.sound.resolved root
  rw [hexpr, hnone, Option.none_or]
  have hc : m.copies.copy? root = none := by
    -- whatever is below a copied root is copied too
    by_contra hsome
    have hall : ∀ i, source.Reaches root i → (m.copies.copy? i).isSome := by
      intro i hi
      induction hi with
      | refl => exact Option.ne_none_iff_isSome.mp hsome
      | tail _ hedge ih => exact hv.closed _ _ ih hedge
    simpa [hnew] using hall id hid.reaches
  have hmem : id ∈ missing source m.copies root :=
    (mem_missing hs hv hroot hc).mpr ⟨hid.reaches, hnew⟩
  obtain ⟨before, after, hsplit⟩ := List.append_of_mem hmem
  have hasc := pairwise_missing source m.copies root
  rw [hsplit, List.pairwise_append] at hasc
  refine List.findSome?_eq_some_iff.mpr ⟨before, id, after, hsplit,
    Arena.named?_eq_some_iff.mpr ⟨hid.content, hid.named⟩, fun i hi => ?_⟩
  cases hn : source.named? name i with
  | none => rfl
  | some w =>
    obtain ⟨hcontent, hname⟩ := Arena.named?_eq_some_iff.mp hn
    have hi' : i ∈ missing source m.copies root := by simp [hsplit, hi]
    have hle := hleast i w ⟨((mem_missing hs hv hroot hc).mp hi').1, hcontent, hname⟩
    have hlt := hasc.2.2 i hi id (by simp)
    omega

end Copying

namespace Context

/-- The first of several roots below which a name is found, and the least id there. -/
theorem exists_first {source : Arena} {name : String} {roots : List NodeId}
    (h : ∃ r ∈ roots, ∃ i w, source.Carries r i name w) :
    ∃ before root after id v, roots = before ++ root :: after ∧
      (∀ r ∈ before, ∀ i w, ¬ source.Carries r i name w) ∧ source.Carries root id name v ∧
      ∀ i w, source.Carries root i name w → id.index ≤ i.index := by
  classical
  induction roots with
  | nil => simp at h
  | cons root rest ih =>
    by_cases hroot : ∃ k i w, source.Carries root i name w ∧ i.index = k
    · obtain ⟨i, w, hi, heq⟩ := Nat.find_spec hroot
      refine ⟨[], root, rest, i, w, rfl, by simp, hi, fun j u hj => ?_⟩
      rw [heq]
      exact Nat.find_min' hroot ⟨j, u, hj, rfl⟩
    · have hfree : ∀ i w, ¬ source.Carries root i name w :=
        fun i w hi => hroot ⟨_, i, w, hi, rfl⟩
      obtain ⟨r, hr, i, w, hi⟩ := h
      have hrest : ∃ r ∈ rest, ∃ i w, source.Carries r i name w := by
        rcases List.mem_cons.mp hr with rfl | hr
        · exact absurd hi (hfree i w)
        · exact ⟨r, hr, i, w, hi⟩
      obtain ⟨before, first, after, id, v, rfl, hbefore, hid, hleast⟩ := ih hrest
      refine ⟨root :: before, first, after, id, v, rfl, fun r hr => ?_, hid, hleast⟩
      rcases List.mem_cons.mp hr with rfl | hr
      · exact hfree
      · exact hbefore r hr

theorem Copied.entered?_of_entered {source : Arena} {c : Context} (hc : c.Sound)
    {roots : List NodeId} {m : Copying} (hm : c.Copied source roots m) {name : String}
    {v : Variable} (h : c.entered? name = some v) : m.target.entered? name = some v := by
  rw [hm.finished]
  exact (Copying.copyAll_entered? (m := .start source c) hc.resolved roots).2 name v h

section

variable {source : Arena} (hs : source.Sound) {c : Context} (hc : c.Sound) {roots : List NodeId}
  (hroots : ∀ r ∈ roots, r.index < source.size) {m : Copying} (hm : c.Copied source roots m)
include hs hc hroots hm

theorem Copied.entered?_of_first {name : String} (hfresh : c.lookup name = none)
    {before after : List NodeId} {root id : NodeId} {v : Variable}
    (hsplit : roots = before ++ root :: after)
    (hbefore : ∀ r ∈ before, ∀ i w, ¬ source.Carries r i name w)
    (hid : source.Carries root id name v)
    (hleast : ∀ i w, source.Carries root i name w → id.index ≤ i.index) :
    m.target.entered? name = some v := by
  have hv := Copying.valid_start source hc
  have hbefores : ∀ r ∈ before, r.index < source.size := fun r hr => hroots r (by simp [hsplit, hr])
  have hroot : root.index < source.size := hroots root (by simp [hsplit])
  obtain ⟨hv', -, -⟩ := Copying.copyAll_valid hs hv hbefores
  obtain ⟨hv'', -, -⟩ := Copying.expr_valid hs hv' hroot
  have hnone := Copying.copyAll_entered?_eq_none hs hv hbefores (entered?_eq_none hfresh) hbefore
  have hnew : (Copying.copyAll source (.start source c) before).copies.copy? id = none := by
    by_contra hsome
    rcases Copying.copyAll_copied hs hv hbefores (Option.ne_none_iff_isSome.mp hsome) with h | h
    · simp [Copying.copy?_start] at h
    · obtain ⟨r, hr, hreach⟩ := h
      exact hbefore r hr id v ⟨hreach, hid.content, hid.named⟩
  have hentry := Copying.expr_entered?_eq_some hs hv' hroot hnone hid hleast hnew
  rw [hm.finished, hsplit, Copying.copyAll_append, Copying.copyAll_cons]
  exact (Copying.copyAll_entered? hv''.sound.resolved after).2 name v hentry

/-- In the end the table has for every name below a root what the name is said to mean. -/
theorem Copied.entered?_eq {σ : String → Variable} (hσ : c.Resolves source roots σ) {name : String}
    (h : ∃ r ∈ roots, ∃ i w, source.Carries r i name w) :
    m.target.entered? name = some (σ name) := by
  cases hl : c.lookup name with
  | some id =>
    obtain ⟨v, hv⟩ := Option.isSome_iff_exists.mp (hc.resolved.entered?_isSome hl)
    rw [hσ.entered name v hv]
    exact hm.entered?_of_entered hc hv
  | none =>
    obtain ⟨before, root, after, id, v, hsplit, hbefore, hid, hleast⟩ := exists_first h
    rw [hσ.first name before root after id v hl hsplit hbefore hid hleast]
    exact hm.entered?_of_first hs hc hroots hl hsplit hbefore hid hleast

theorem Copied.exists_resolves : ∃ σ, c.Resolves source roots σ := by
  refine ⟨fun name => (m.target.entered? name).getD (.literal (.bool false)), ?_, ?_⟩
  · intro name v hv
    rw [hm.entered?_of_entered hc hv, Option.getD_some]
  · intro name before root after id v hfresh hsplit hbefore hid hleast
    rw [hm.entered?_of_first hs hc hroots hfresh hsplit hbefore hid hleast, Option.getD_some]

/-- What is copied mirrors the original over the variables that the names mean. -/
theorem Copied.mirrored {σ : String → Variable} (hσ : c.Resolves source roots σ) :
    (source.substitute σ).Mirrored m.target.arena m.copies.image
      fun id => (m.copies.copy? id).isSome := by
  have hreach : ∀ id, (m.copies.copy? id).isSome → ∃ r ∈ roots, source.Reaches r id := by
    intro id hid
    rw [hm.finished] at hid
    rcases Copying.copyAll_copied hs (Copying.valid_start source hc) hroots hid with h | h
    · simp [Copying.copy?_start] at h
    · exact h
  have hnode : ∀ id, (m.copies.copy? id).isSome → ∃ node, source.get? id = some node := by
    intro id hid
    obtain ⟨r, hr, hreach⟩ := hreach id hid
    have hle := hs.reaches_le hreach
    have hlt := hroots r hr
    exact Arena.exists_get?_of_lt (by omega)
  constructor
  · intro id hid
    obtain ⟨copy, hcopy⟩ := Option.isSome_iff_exists.mp hid
    obtain ⟨node, hn⟩ := hnode id hid
    have hst := hm.valid.stands id copy node hcopy hn
    rw [Copies.image_of_copy? hcopy]
    refine ⟨node.substitute σ, ?_⟩
    rw [Arena.get?_substitute, hn]
    cases node with
    | leaf v =>
      cases hname : v.name? with
      | none =>
        have hsubst : v.substitute σ = v := by simp [Variable.substitute, hname]
        refine ⟨_, rfl, (Copying.stands_unnamed hname).mp hst, ?_⟩
        simpa only [Node.substitute, hsubst] using Arena.Mirror.leaf v
      | some name =>
        have hsubst : v.substitute σ = σ name := by simp [Variable.substitute, hname]
        obtain ⟨r, hr, hreach⟩ := hreach id hid
        have hentry := hm.entered?_eq hs hc hroots hσ
          ⟨r, hr, id, v, hreach, Arena.content?_eq_some_iff.mpr hn, hname⟩
        rw [entered?, (Copying.stands_named hname).mp hst] at hentry
        refine ⟨_, rfl, Arena.content?_eq_some_iff.mp hentry, ?_⟩
        simpa only [Node.substitute, hsubst] using Arena.Mirror.leaf (σ name)
    | call callee range =>
      obtain ⟨ids, hids, -⟩ := hs.stored id callee range hn
      obtain ⟨copied, hget, hlist⟩ := hst
      rw [Arena.operands_call hids] at hlist
      exact ⟨_, rfl, hget, .call callee hids hlist⟩
    | declare target => exact ⟨_, rfl, hst, .declare target⟩
    | assign target value => exact ⟨_, rfl, hst, .assign target value⟩
    | index base i => exact ⟨_, rfl, hst, .index base i⟩
    | binary op left right => exact ⟨_, rfl, hst, .binary op left right⟩
    | unary op operand => exact ⟨_, rfl, hst, .unary op operand⟩
  · intro id node o hid hget ho
    obtain ⟨copy, hcopy⟩ := Option.isSome_iff_exists.mp hid
    obtain ⟨original, hn⟩ := hnode id hid
    rw [Arena.get?_substitute, hn] at hget
    obtain rfl := Option.some.inj hget
    rw [Arena.operands_substitute] at ho
    obtain ⟨copied, hcopied, himage⟩ := (hm.valid.stands id copy original hcopy hn).operands ho
    rw [Copies.image_of_copy? hcopy]
    exact ⟨hm.valid.closed id o hid ⟨original, hn, ho⟩, hs.older id original o hn ho,
      hm.valid.sound.arena.older copy copied _ hcopied himage⟩

end

end Context

/-- What it means that `t` is `s` after the expressions `roots` of the context `origin` were taken
into the context `c`, where their images are: no other context changed, all that was in `c` is still
in its place, the names have a meaning, and each image renders as the original does over the
variables that the names mean. -/
structure Session.Imports (s t : Session) (origin c : Nat) (roots : List NodeId)
    (image : NodeId → NodeId) : Prop where
  others : ∀ d, d ≠ c → t.context d = s.context d
  keeps : (s.context c).Extends (t.context c)
  meaning : ∃ σ, (s.context c).Resolves (s.context origin).arena roots σ
  renders : ∀ σ, (s.context c).Resolves (s.context origin).arena roots σ →
    ∀ root ∈ roots, ∀ limit,
      outcome ((t.context c).arena.renderExpr (image root) limit) =
        outcome (((s.context origin).arena.substitute σ).renderExpr root limit)

theorem Context.Copied.imports {s : Session} (hs : s.Sound) {c origin : Nat}
    (hc : c < s.contexts.size) {roots : List NodeId}
    (hroots : ∀ r ∈ roots, r.index < (s.context origin).arena.size) {m : Copying}
    (hm : (s.context c).Copied (s.context origin).arena roots m) :
    s.Imports (s.replace c m.target) origin c roots m.copies.image := by
  have hsource := (hs origin).arena
  constructor
  · intro d hd
    rw [Session.context_replace hc, if_neg hd.symm]
  · rw [Session.context_replace hc, if_pos rfl]
    exact hm.advances.target.extends
  · exact hm.exists_resolves hsource (hs c) hroots
  · intro σ hσ root hroot limit
    rw [Session.context_replace hc, if_pos rfl]
    exact (hm.mirrored hsource (hs c) hroots hσ).renderExpr (hm.copied root hroot) limit

namespace Workspace

/-- After any actions, also in the middle of a further one, a handle or a statement of one context
may be taken into another one. Handles become images of their nodes, and statements become the same
statements over images of their expressions. -/
theorem run_imports (role : Role) (provenances : List String) (actions : List Action) :
    let w := (new role provenances).run actions
    (∀ label h, w.handle? label = some h → ∀ s, w.session.Grows s →
      ∀ c, c < s.contexts.size → h.context ≠ c →
        s.Imports (Session.attach c (.handle h) s).2 h.context c [h.node]
          fun _ => (Session.attach c (.handle h) s).1) ∧
    ∀ label origin stmt, w.statement? label = some ⟨some origin, stmt⟩ →
      ∀ s, w.session.Grows s → ∀ c, c < s.contexts.size → origin ≠ c →
        ∃ image, (Session.adopt c ⟨some origin, stmt⟩ s).1 = stmt.mapRoots image ∧
          s.Imports (Session.adopt c ⟨some origin, stmt⟩ s).2 origin c stmt.roots image := by
  intro w
  have hw : w.Valid := run_valid (valid_new role provenances) actions
  constructor
  · intro label h hl s hgrows c hc hne
    have hs := hgrows.sound hw.sound
    have hh : s.HoldsOperand (.handle h) := (handle?_holds hw hl).mono hgrows
    obtain ⟨m, hm, heq⟩ := Session.attach_foreign hs hh hne
    have himports := hm.imports hs hc fun r hr => hh.2 r hr
    rw [heq]
    refine ⟨himports.others, himports.keeps, himports.meaning, fun σ hσ root hroot => ?_⟩
    obtain rfl := List.mem_singleton.mp hroot
    exact himports.renders σ hσ h.node (by simp)
  · intro label origin stmt hl s hgrows c hc hne
    have hs := hgrows.sound hw.sound
    have hst : s.HoldsStatement ⟨some origin, stmt⟩ := (statement?_holds hw hl).mono hgrows
    obtain ⟨m, hm, heq⟩ := Session.adopt_foreign hs hst hne
    rw [heq]
    exact ⟨m.copies.image, rfl, hm.imports hs hc fun r hr => hst.2 r hr⟩

end Workspace

end KernelForge
