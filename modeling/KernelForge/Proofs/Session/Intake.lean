import KernelForge.Proofs.Session.Counting
import KernelForge.Proofs.Session.Symbols

/-!
# What builds enter into tables

A name enters the table of a context when a variable is asked for under it there, or when something
of another context is taken in below which there is a variable so named. `Takes` says so of builds
that only take in, whatever they took in before, and `Gains` of any other build.
-/
namespace KernelForge

/-- Expressions of one context that are taken into another. -/
structure Intake where
  origin : Nat
  roots : List NodeId

def Operand.intake : Operand → List Intake
  | .handle h => [⟨h.context, [h.node]⟩]
  | .literal _ => []

def Statement.intake (st : Statement) : List Intake :=
  st.origin.elim [] fun origin => [⟨origin, st.stmt.roots⟩]

namespace Session

def bodyIntake (body : List Statement) : List Intake := body.flatMap Statement.intake

def armIntake (arm : Operand × List Statement) : List Intake := arm.1.intake ++ bodyIntake arm.2

/-- What the last arm of a chain or a switch takes in, if there is one. -/
def lastIntake (last : Option (List Statement)) : List Intake := last.elim [] bodyIntake

/-- Below what is taken into the context `c` there is a variable of the given name. What is in `c`
already is not taken in. -/
def Brings (s : Session) (c : Nat) (intake : List Intake) (name : String) : Prop :=
  ∃ i ∈ intake, i.origin ≠ c ∧ ∃ id, (s.context i.origin).arena.Below i.roots id ∧
    (s.context i.origin).arena.HasName id name

/-- The name is in the table of the context. -/
def Knows (s : Session) (c : Nat) (name : String) : Prop := ((s.context c).lookup name).isSome

/-- No context has changed but `c`, which has grown. -/
structure GrowsAt (s : Session) (c : Nat) (t : Session) : Prop where
  grows : s.Grows t
  others : ∀ d, d ≠ c → t.context d = s.context d

section

variable {s t : Session} {c : Nat} {name : String}

@[simp] theorem brings_nil : ¬ s.Brings c [] name := by simp [Brings]

@[simp] theorem brings_append {xs ys : List Intake} :
    s.Brings c (xs ++ ys) name ↔ s.Brings c xs name ∨ s.Brings c ys name := by
  simp [Brings, or_and_right, exists_or]

theorem brings_singleton {origin : Nat} {roots : List NodeId} :
    s.Brings c [⟨origin, roots⟩] name ↔ origin ≠ c ∧
      ∃ id, (s.context origin).arena.Below roots id ∧ (s.context origin).arena.HasName id name := by
  simp [Brings]

theorem GrowsAt.refl (s : Session) (c : Nat) : s.GrowsAt c s := ⟨.refl s, fun _ _ => rfl⟩

theorem GrowsAt.trans {u : Session} (hst : s.GrowsAt c t) (htu : t.GrowsAt c u) :
    s.GrowsAt c u :=
  ⟨hst.grows.trans htu.grows, fun d hd => (htu.others d hd).trans (hst.others d hd)⟩

end

/-! ## Taking in -/

/-- Run after any other takings in, the build lets `c` grow, changes no other context, and enters
the names that come with the intake. -/
def Takes {α : Type} (s : Session) (c : Nat) (m : Build α) (intake : List Intake) : Prop :=
  ∀ t, s.GrowsAt c t → t.GrowsAt c (m t).2 ∧
    ∀ name, (m t).2.Knows c name ↔ t.Knows c name ∨ s.Brings c intake name

section

variable {α β : Type} {s : Session} {c : Nat} {m : Build α} {xs ys : List Intake}

theorem Takes.pure (a : α) : s.Takes c (pure a) [] :=
  fun t _ => ⟨.refl t c, fun _ => by simp [pure_apply]⟩

theorem Takes.bind {f : α → Build β} (hm : s.Takes c m xs) (hf : ∀ a, s.Takes c (f a) ys) :
    s.Takes c (m >>= f) (xs ++ ys) := by
  intro t ht
  obtain ⟨htu, hfirst⟩ := hm t ht
  obtain ⟨huv, hrest⟩ := hf (m t).1 (m t).2 (ht.trans htu)
  refine ⟨htu.trans huv, fun name => ?_⟩
  rw [bind_apply, hrest, hfirst, brings_append, or_assoc]

theorem Takes.map {f : α → β} (hm : s.Takes c m xs) : s.Takes c (f <$> m) xs := hm

theorem Takes.bind_pure {f : α → β} (hm : s.Takes c m xs) :
    s.Takes c (m >>= fun a => Pure.pure (f a)) xs := hm

theorem Takes.mapM {f : α → Build β} {intake : α → List Intake} {as : List α}
    (h : ∀ a ∈ as, s.Takes c (f a) (intake a)) : s.Takes c (as.mapM f) (as.flatMap intake) := by
  induction as with
  | nil => exact .pure []
  | cons a rest ih =>
    rw [List.mapM_cons, List.flatMap_cons]
    apply (h a (by simp)).bind
    intro b
    exact (ih fun x hx => h x (by simp [hx])).bind_pure

theorem CopiesOnce.takes {t u : Session} (ht : s.GrowsAt c t) {origin : Nat}
    {roots : List NodeId} {image : NodeId → NodeId} (h : t.CopiesOnce u origin c roots image)
    (hgrows : t.Grows u) (hne : origin ≠ c) :
    t.GrowsAt c u ∧ ∀ name, u.Knows c name ↔ t.Knows c name ∨ s.Brings c [⟨origin, roots⟩] name := by
  refine ⟨⟨hgrows, h.others⟩, fun name => ?_⟩
  rw [brings_singleton, ← ht.others origin hne]
  simpa only [Knows, hne, ne_eq, not_false_eq_true, true_and] using h.entered name

/-- What is in the context already is not taken in. -/
theorem takes_own (roots : List NodeId) (a : α) : s.Takes c (Pure.pure a) [⟨c, roots⟩] := by
  intro t _
  exact ⟨.refl t c, fun name => by simp [pure_apply, brings_singleton]⟩

end

section

variable {s : Session} (hs : s.Sound) {c : Nat} (hc : c < s.contexts.size)
include hs hc

theorem attach_takes {o : Operand} (ho : s.HoldsOperand o) : s.Takes c (attach c o) o.intake := by
  cases o with
  | literal v =>
    intro t ht
    have hct : c < t.contexts.size := ht.grows.count ▸ hc
    obtain ⟨hgrows, -⟩ := attach_yields (ht.grows.sound hs) hct (o := .literal v) trivial
    have heq : (attach c (.literal v) t).2 = t.replace c ((t.context c).alloc (.leaf (.literal v))).2 := by
      simp only [attach, onContext_apply]
    refine ⟨⟨hgrows, fun d hd => ?_⟩, fun name => ?_⟩
    · rw [heq, context_replace hct, if_neg hd.symm]
    · simp [Knows, heq, context_replace hct, Operand.intake]
  | handle h =>
    by_cases hne : h.context = c
    · subst hne
      simp only [attach, if_true]
      exact takes_own _ h.node
    · intro t ht
      have hct : c < t.contexts.size := ht.grows.count ▸ hc
      have hst := ht.grows.sound hs
      obtain ⟨image, -, hcopies⟩ := attach_copiesOnce hst hct (ho.mono ht.grows) hne
      exact hcopies.takes ht (attach_yields hst hct (ho.mono ht.grows)).1 hne

theorem adopt_takes {st : Statement} (hst : s.HoldsStatement st) :
    s.Takes c (adopt c st) st.intake := by
  obtain ⟨origin, stmt⟩ := st
  cases origin with
  | none => exact .pure stmt
  | some origin =>
    by_cases hne : origin = c
    · subst hne
      simp only [adopt, if_true]
      exact takes_own _ stmt
    · intro t ht
      have hct : c < t.contexts.size := ht.grows.count ▸ hc
      have hts := ht.grows.sound hs
      obtain ⟨image, -, hcopies⟩ := adopt_copiesOnce hts hct (hst.mono ht.grows) hne
      exact hcopies.takes ht (adopt_yields hts hct (hst.mono ht.grows)).1 hne

theorem absorb_takes {body : List Statement} (hbody : ∀ st ∈ body, s.HoldsStatement st) :
    s.Takes c (absorb c body) (bodyIntake body) :=
  .mapM fun st hst => adopt_takes hs hc (hbody st hst)

/-! ## Statement builders -/

theorem forLoop_takes {init cond step : Operand} (hinit : s.HoldsOperand init)
    (hcond : s.HoldsOperand cond) (hstep : s.HoldsOperand step) {body : List Statement}
    (hbody : ∀ st ∈ body, s.HoldsStatement st) :
    s.Takes c (forLoop c init cond step body)
      (init.intake ++ (cond.intake ++ (step.intake ++ bodyIntake body))) := by
  apply (attach_takes hs hc hinit).bind
  intro i
  apply (attach_takes hs hc hcond).bind
  intro j
  apply (attach_takes hs hc hstep).bind
  intro k
  exact (absorb_takes hs hc hbody).bind_pure

theorem whileLoop_takes {cond : Operand} (hcond : s.HoldsOperand cond) {body : List Statement}
    (hbody : ∀ st ∈ body, s.HoldsStatement st) :
    s.Takes c (whileLoop c cond body) (armIntake (cond, body)) := by
  apply (attach_takes hs hc hcond).bind
  intro i
  exact (absorb_takes hs hc hbody).bind_pure

theorem branch_takes {arm : Operand × List Statement} (hcond : s.HoldsOperand arm.1)
    (hbody : ∀ st ∈ arm.2, s.HoldsStatement st) : s.Takes c (branch c arm) (armIntake arm) := by
  apply (attach_takes hs hc hcond).bind
  intro i
  exact (absorb_takes hs hc hbody).bind_pure

theorem switchCase_takes {arm : Operand × List Statement} (hvalue : s.HoldsOperand arm.1)
    (hbody : ∀ st ∈ arm.2, s.HoldsStatement st) :
    s.Takes c (switchCase c arm) (armIntake arm) := by
  apply (attach_takes hs hc hvalue).bind
  intro i
  exact (absorb_takes hs hc hbody).bind_pure

theorem ifChain_takes {first : Operand × List Statement}
    {others : List (Operand × List Statement)}
    (harms : ∀ arm ∈ first :: others, s.HoldsOperand arm.1 ∧ ∀ st ∈ arm.2, s.HoldsStatement st)
    {otherwise : Option (List Statement)}
    (hother : ∀ body, otherwise = some body → ∀ st ∈ body, s.HoldsStatement st) :
    s.Takes c (ifChain c first others otherwise)
      ((first :: others).flatMap armIntake ++ lastIntake otherwise) := by
  apply (Takes.mapM fun arm ha => branch_takes hs hc (harms arm ha).1 (harms arm ha).2).bind
  intro arms
  cases otherwise with
  | none => exact .pure _
  | some body => exact (absorb_takes hs hc (hother body rfl)).bind_pure

theorem switch_takes {subject : Operand} (hsubject : s.HoldsOperand subject)
    {cases : List (Operand × List Statement)}
    (harms : ∀ arm ∈ cases, s.HoldsOperand arm.1 ∧ ∀ st ∈ arm.2, s.HoldsStatement st)
    {default : Option (List Statement)}
    (hdefault : ∀ body, default = some body → ∀ st ∈ body, s.HoldsStatement st) :
    s.Takes c (switch c subject cases default)
      (subject.intake ++ (cases.flatMap armIntake ++ lastIntake default)) := by
  apply (attach_takes hs hc hsubject).bind
  intro id
  apply (Takes.mapM fun arm ha => switchCase_takes hs hc (harms arm ha).1 (harms arm ha).2).bind
  intro arms
  cases default with
  | none => exact .pure _
  | some body => exact (absorb_takes hs hc (hdefault body rfl)).bind_pure

theorem function_takes (signature : Signature) (params : List Slot) {body : List Statement}
    (hbody : ∀ st ∈ body, s.HoldsStatement st) :
    s.Takes c (function c signature params body) (bodyIntake body) :=
  (absorb_takes hs hc hbody).bind_pure

theorem kernel_takes {body : List Statement} (hbody : ∀ st ∈ body, s.HoldsStatement st)
    (options : RenderOptions) : s.Takes c (kernel c body options) (bodyIntake body) :=
  absorb_takes hs hc hbody

end

/-! ## Appending nodes -/

/-- Run in `s`, the build changes no context but `c`, the table of which gains the names `p`. -/
structure Gains {α : Type} (s : Session) (c : Nat) (m : Build α) (p : String → Prop) : Prop where
  count : (m s).2.contexts.size = s.contexts.size
  others : ∀ d, d ≠ c → (m s).2.context d = s.context d
  names : ∀ name, (m s).2.Knows c name ↔ s.Knows c name ∨ p name

section

variable {α β : Type} {s : Session} {c : Nat} {m : Build α} {intake : List Intake}

theorem Gains.map {p : String → Prop} (h : s.Gains c m p) (f : α → β) : s.Gains c (f <$> m) p :=
  ⟨h.count, h.others, h.names⟩

theorem Gains.bind_pure {p : String → Prop} (h : s.Gains c m p) (f : α → β) :
    s.Gains c (m >>= fun a => Pure.pure (f a)) p :=
  ⟨h.count, h.others, h.names⟩

theorem Takes.gains (h : s.Takes c m intake) : s.Gains c m (s.Brings c intake) := by
  obtain ⟨ht, hnames⟩ := h s (.refl s c)
  exact ⟨ht.grows.count, ht.others, hnames⟩

theorem gains_pure (a : α) : s.Gains c (Pure.pure a) fun _ => False :=
  ⟨rfl, fun _ _ => rfl, fun _ => by simp [pure_apply]⟩

theorem gains_onContext (hc : c < s.contexts.size) {f : Context → α × Context}
    {p : String → Prop} (hf : ∀ name, ((f (s.context c)).2.lookup name).isSome ↔
      ((s.context c).lookup name).isSome ∨ p name) : s.Gains c (onContext c f) p := by
  constructor
  · rw [onContext_apply, size_replace]
  · intro d hd
    rw [onContext_apply, context_replace hc, if_neg hd.symm]
  · intro name
    rw [onContext_apply, Knows, context_replace hc, if_pos rfl, hf]
    rfl

/-- What comes after another build and enters no names. -/
theorem Gains.bind {f : α → Build β} {p : String → Prop} (hm : s.Gains c m p)
    (hf : (m s).2.Gains c (f (m s).1) fun _ => False) : s.Gains c (m >>= f) p := by
  constructor
  · exact hf.count.trans hm.count
  · exact fun d hd => (hf.others d hd).trans (hm.others d hd)
  · intro name
    rw [bind_apply, hf.names, or_false, hm.names]

end

section

variable {s : Session} {c : Nat}

theorem alloc_gains (hc : c < s.contexts.size) (node : Node) :
    s.Gains c (alloc c node) fun _ => False :=
  (gains_onContext (f := fun ctx => ctx.alloc node) hc fun _ => by simp).bind_pure _

theorem intern_gains (hc : c < s.contexts.size) (name : String) (shape : Shape) :
    s.Gains c (intern c name shape) fun other => other = name :=
  (gains_onContext (f := fun ctx => ctx.intern name shape) hc fun other =>
    Context.isSome_lookup_intern _ name shape other).bind_pure _

theorem tryIntern_gains (hs : s.Sound) (hc : c < s.contexts.size) (name : String) (shape : Shape) :
    s.Gains c (tryIntern c name shape) fun other =>
      other = name ∧ ∃ h, (tryIntern c name shape s).1 = .ok h := by
  have hanswer : (tryIntern c name shape s).1 =
      ((s.context c).tryIntern name shape).1.map (Handle.mk c) := by
    simp only [tryIntern, bind_apply, pure_apply, onContext_apply]
  rw [hanswer]
  refine (gains_onContext (f := fun ctx => ctx.tryIntern name shape) hc fun other => ?_).bind_pure _
  rcases Context.tryIntern_cases (hs c) name shape with heq | ⟨id, v, hl, hv, hne, heq⟩
  · simp [heq, Context.isSome_lookup_intern, Except.map]
  · simp [heq, Except.map]

theorem attach_alloc_gains (hs : s.Sound) (hc : c < s.contexts.size) {b : Operand}
    (hb : s.HoldsOperand b) (node : NodeId → Node) :
    s.Gains c (attach c b >>= fun id => alloc c (node id)) (s.Brings c b.intake) := by
  have hattach := (attach_takes hs hc hb).gains
  apply hattach.bind
  apply alloc_gains
  rwa [hattach.count]

theorem binaryLiteral_gains (op : BinaryOp) (a : Literal) {b : Handle}
    (hc : b.context < s.contexts.size) :
    s.Gains b.context (binaryLiteral op a b) fun _ => False := by
  have hliteral := alloc_gains hc (.leaf (.literal a))
  apply hliteral.bind
  apply alloc_gains
  rwa [hliteral.count]

theorem call_gains (hs : s.Sound) (hc : c < s.contexts.size) (callee : Signature)
    {args : List Operand} (hargs : ∀ o ∈ args, s.HoldsOperand o) :
    s.Gains c (call c callee args) (s.Brings c (args.flatMap Operand.intake)) := by
  have hattach :=
    (Takes.mapM (f := attach c) fun o ho => attach_takes hs hc (hargs o ho)).gains
  apply hattach.bind
  obtain ⟨ids, t, heq⟩ : ∃ ids t, args.mapM (attach c) s = (ids, t) := ⟨_, _, rfl⟩
  have hcount := hattach.count
  rw [heq] at hcount ⊢
  have hct : c < t.contexts.size := hcount ▸ hc
  have hstore : t.Gains c (onContext c fun ctx =>
      ((ctx.arena.storeList ids).1, { ctx with arena := (ctx.arena.storeList ids).2 }))
      fun _ => False := gains_onContext hct fun _ => by simp [Context.lookup]
  apply hstore.bind
  split
  · exact gains_pure _
  · apply Gains.bind_pure
    apply alloc_gains
    rwa [hstore.count]

end

end Session

end KernelForge
