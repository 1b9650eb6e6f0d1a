import KernelForge.Proofs.Session.Agreement
import KernelForge.Proofs.Stmt.Outline

/-!
# What builds mean

In contexts that agree on names every operation answers with something that means what its operands
mean together: an expression stands for a term, a statement for an outline over terms. In which
contexts the operands were and in which one the operation took place is no part of that.
-/
namespace KernelForge

theorem Shape.agrees_named (name : String) (s : Shape) :
    (s.named name).agrees (s.named name) = true := by
  induction s with
  | pointer s ih | reference s ih => exact ih
  | _ => simp [named, Variable.agrees]

namespace Context

theorem Agrees.congr {p : Scope} {c d : Context} (ha : c.Agrees p) (hc : c.Sound)
    (hext : c.Extends d) (hlookup : ∀ name, d.lookup name = c.lookup name) : d.Agrees p := by
  intro name shape v hshape hv
  rw [(hc.resolved.congr hlookup hext.arena).2] at hv
  exact ha name shape v hshape hv

theorem Agrees.enter {p : Scope} {c : Context} (ha : c.Agrees p) (hc : c.Sound) {name : String}
    {shape : Shape} (hshape : p.shape? name = some shape) (hfresh : c.lookup name = none) :
    (c.enter name (shape.named name)).2.Agrees p := by
  intro other shape' v hshape' hv
  rw [(hc.resolved.enter _ hfresh).2] at hv
  cases hentry : c.entered? other with
  | some w =>
    rw [hentry, Option.some_or] at hv
    obtain rfl := Option.some.inj hv
    exact ha other shape' w hshape' hentry
  | none =>
    -- only the new name can have come in
    rw [hentry, Option.none_or] at hv
    split_ifs at hv with hname
    · subst hname
      obtain rfl := Option.some.inj hv
      rw [Option.some.inj (hshape.symm.trans hshape')]

theorem Agrees.intern {p : Scope} {c : Context} (ha : c.Agrees p) (hc : c.Sound) {name : String}
    {shape : Shape} (hshape : p.shape? name = some shape) :
    (c.intern name shape).2.Agrees p ∧
      (c.intern name shape).2.arena.content? (c.intern name shape).1 = some (shape.named name) := by
  unfold Context.intern
  cases hl : c.lookup name with
  | some id =>
    obtain ⟨v, hv, -⟩ := hc.symbol name id hl
    obtain rfl := ha name shape v hshape (by rw [entered?, hl, Option.bind_some, hv])
    exact ⟨ha, hv⟩
  | none =>
    refine ⟨ha.enter hc hshape hl, ?_⟩
    exact (c.arena.content?_alloc (.leaf (shape.named name)) _).trans (if_pos rfl)

/-- A request that repeats what the context has is granted. -/
theorem Agrees.tryIntern_eq {p : Scope} {c : Context} (ha : c.Agrees p) (hc : c.Sound)
    {name : String} {shape : Shape} (hshape : p.shape? name = some shape) :
    c.tryIntern name shape = (.ok (c.intern name shape).1, (c.intern name shape).2) := by
  obtain ⟨-, hcontent⟩ := ha.intern hc hshape
  unfold Context.tryIntern
  cases hl : c.lookup name with
  | none => simp only [Context.intern, hl]
  | some id =>
    simp only [Context.intern, hl] at hcontent ⊢
    simp only [hcontent, Shape.agrees_named, if_true]

end Context

namespace Session

/-- The term that an id of a context stands for. -/
def term (s : Session) (c : Nat) (id : NodeId) : Term := (s.context c).arena.term id

section

variable (p : Scope)

/-- Sound contexts that agree on the names of the program. -/
structure Ready (s : Session) : Prop where
  sound : s.Sound
  present : ∀ c, p.contexts c → c < s.contexts.size
  agrees : ∀ c, p.contexts c → (s.context c).Agrees p

/-- The nodes are there, in a context of the program, and only names of the program are below them. -/
structure Fits (s : Session) (c : Nat) (ids : List NodeId) : Prop where
  used : p.contexts c
  holds : s.Holds c ids
  within : ∀ id ∈ ids, (s.term c id).Within p

/-- What is read off the terms of some nodes. -/
structure Shows {β : Type} (s : Session) (c : Nat) (ids : List NodeId)
    (reading : (NodeId → Term) → β) (x : β) : Prop where
  fits : s.Fits p c ids
  reads : reading (s.term c) = x

def MeansExpr (s : Session) (c : Nat) (id : NodeId) : Term → Prop :=
  s.Shows p c [id] fun term => term id

def MeansExprs (s : Session) (c : Nat) (ids : List NodeId) : List Term → Prop :=
  s.Shows p c ids fun term => ids.map term

def MeansHandle (s : Session) (h : Handle) : Term → Prop := s.MeansExpr p h.context h.node

def MeansStmt (s : Session) (c : Nat) (stmt : Stmt) : Outline Term → Prop :=
  s.Shows p c stmt.roots fun term => stmt.outline term

def MeansStmts (s : Session) (c : Nat) (stmts : List Stmt) : List (Outline Term) → Prop :=
  s.Shows p c (Stmt.rootsAll stmts) fun term => Stmt.outlineAll term stmts

def MeansBranches (s : Session) (c : Nat) (arms : List Branch) : List (Outline.Arm Term) → Prop :=
  s.Shows p c (Branch.rootsAll arms) fun term => Branch.outlineAll term arms

def MeansCases (s : Session) (c : Nat) (cases : List SwitchCase) :
    List (Outline.Case Term) → Prop :=
  s.Shows p c (SwitchCase.rootsAll cases) fun term => SwitchCase.outlineAll term cases

def MeansOperand (s : Session) : Operand → Term → Prop
  | .handle h, t => s.MeansHandle p h t
  | .literal v, t => .leaf (.literal v) = t

def MeansStatement (s : Session) (st : Statement) (o : Outline Term) : Prop :=
  match st.origin with
  | none => st.stmt.roots = [] ∧ st.stmt.outline (fun _ => .missing) = o
  | some c => s.MeansStmt p c st.stmt o

def MeansBody (s : Session) : List Statement → List (Outline Term) → Prop :=
  List.Forall₂ (s.MeansStatement p)

/-- An arm of a chain or a switch: what is tested and what is done. -/
def MeansArm (s : Session) (arm : Operand × List Statement) (m : Term × List (Outline Term)) :
    Prop :=
  s.MeansOperand p arm.1 m.1 ∧ s.MeansBody p arm.2 m.2

/-- The build leaves the session ready and ends as it is said. -/
def Produces {α : Type} (s : Session) (m : Build α) (q : Session → α → Prop) : Prop :=
  s.Yields m fun t a => t.Ready p ∧ q t a

end

section

variable {p : Scope} {s t : Session} {c : Nat}

/-! ## Meanings stay -/

theorem Fits.term_eq (hs : s.Sound) (h : s.Grows t) {ids : List NodeId} (hids : s.Fits p c ids) :
    ∀ id ∈ ids, t.term c id = s.term c id := fun id hid =>
  (h.context c).extends.arena.term_eq (hs c).arena ((h.sound hs) c).arena (hids.holds.2 id hid)

theorem Fits.mono (hs : s.Sound) (h : s.Grows t) {ids : List NodeId} (hids : s.Fits p c ids) :
    t.Fits p c ids :=
  ⟨hids.used, hids.holds.mono h, fun id hid => hids.term_eq hs h id hid ▸ hids.within id hid⟩

theorem fits_nil (hs : s.Ready p) (hc : p.contexts c) : s.Fits p c [] :=
  ⟨hc, ⟨hs.present c hc, by simp⟩, by simp⟩

theorem fits_append {ids more : List NodeId} :
    s.Fits p c (ids ++ more) ↔ s.Fits p c ids ∧ s.Fits p c more := by
  constructor
  · rintro ⟨hused, hholds, hwithin⟩
    rw [holds_append] at hholds
    rw [List.forall_mem_append] at hwithin
    exact ⟨⟨hused, hholds.1, hwithin.1⟩, hused, hholds.2, hwithin.2⟩
  · rintro ⟨⟨hused, hholds, hwithin⟩, -, hholds', hwithin'⟩
    exact ⟨hused, holds_append.mpr ⟨hholds, hholds'⟩, List.forall_mem_append.mpr ⟨hwithin, hwithin'⟩⟩

/-- What depends on nothing but the terms of the nodes is read in a larger session, too. -/
theorem Shows.mono {β : Type} {ids : List NodeId} {reading : (NodeId → Term) → β} {x : β}
    (hs : s.Sound) (h : s.Grows t)
    (congr : ∀ f g : NodeId → Term, (∀ id ∈ ids, f id = g id) → reading f = reading g)
    (hx : s.Shows p c ids reading x) : t.Shows p c ids reading x :=
  ⟨hx.fits.mono hs h, (congr _ _ (hx.fits.term_eq hs h)).trans hx.reads⟩

theorem MeansExpr.mono (hs : s.Sound) (h : s.Grows t) {id : NodeId} {u : Term}
    (hu : s.MeansExpr p c id u) : t.MeansExpr p c id u :=
  Shows.mono hs h (fun _ _ hfg => hfg id (by simp)) hu

theorem MeansStmt.mono (hs : s.Sound) (h : s.Grows t) {stmt : Stmt} {o : Outline Term}
    (ho : s.MeansStmt p c stmt o) : t.MeansStmt p c stmt o :=
  Shows.mono hs h (fun _ _ => Stmt.outline_congr stmt) ho

theorem MeansBranches.mono (hs : s.Sound) (h : s.Grows t) {arms : List Branch}
    {os : List (Outline.Arm Term)} (hos : s.MeansBranches p c arms os) :
    t.MeansBranches p c arms os :=
  Shows.mono hs h (fun _ _ => Branch.outlineAll_congr arms) hos

theorem MeansCases.mono (hs : s.Sound) (h : s.Grows t) {cases : List SwitchCase}
    {os : List (Outline.Case Term)} (hos : s.MeansCases p c cases os) : t.MeansCases p c cases os :=
  Shows.mono hs h (fun _ _ => SwitchCase.outlineAll_congr cases) hos

theorem MeansOperand.mono (hs : s.Sound) (h : s.Grows t) {o : Operand} {u : Term}
    (hu : s.MeansOperand p o u) : t.MeansOperand p o u := by
  cases o with
  | handle a => exact MeansExpr.mono hs h hu
  | literal v => exact hu

theorem MeansStatement.mono (hs : s.Sound) (h : s.Grows t) {st : Statement} {o : Outline Term}
    (ho : s.MeansStatement p st o) : t.MeansStatement p st o := by
  obtain ⟨origin, stmt⟩ := st
  cases origin with
  | none => exact ho
  | some c => exact MeansStmt.mono hs h ho

theorem MeansBody.mono (hs : s.Sound) (h : s.Grows t) {body : List Statement}
    {os : List (Outline Term)} (hos : s.MeansBody p body os) : t.MeansBody p body os :=
  hos.imp fun _ _ ho => ho.mono hs h

theorem MeansArm.mono (hs : s.Sound) (h : s.Grows t) {arm : Operand × List Statement}
    {m : Term × List (Outline Term)} (hm : s.MeansArm p arm m) : t.MeansArm p arm m :=
  ⟨hm.1.mono hs h, hm.2.mono hs h⟩

/-! ## Meanings side by side -/

section

variable {β γ δ : Type}

theorem shows_const (hs : s.Ready p) (hc : p.contexts c) (x : β) :
    s.Shows p c [] (fun _ => x) x := ⟨fits_nil hs hc, rfl⟩

theorem Shows.map {ids : List NodeId} {f : (NodeId → Term) → β} {x : β} (h : s.Shows p c ids f x)
    (k : β → γ) : s.Shows p c ids (fun term => k (f term)) (k x) := ⟨h.fits, congrArg k h.reads⟩

theorem Shows.append {ids more : List NodeId} {f : (NodeId → Term) → β} {g : (NodeId → Term) → γ}
    {x : β} {y : γ} (h : s.Shows p c ids f x) (h' : s.Shows p c more g y) (k : β → γ → δ) :
    s.Shows p c (ids ++ more) (fun term => k (f term) (g term)) (k x y) :=
  ⟨fits_append.mpr ⟨h.fits, h'.fits⟩, congrArg₂ k h.reads h'.reads⟩

end

theorem meansExprs_of_forall₂ (hs : s.Ready p) (hc : p.contexts c) {ids : List NodeId}
    {us : List Term} (h : List.Forall₂ (s.MeansExpr p c) ids us) : s.MeansExprs p c ids us := by
  induction h with
  | nil => exact shows_const hs hc []
  | cons hid _ ih => exact hid.append ih List.cons

theorem meansStmts_of_forall₂ (hs : s.Ready p) (hc : p.contexts c) {stmts : List Stmt}
    {os : List (Outline Term)} (h : List.Forall₂ (s.MeansStmt p c) stmts os) :
    s.MeansStmts p c stmts os := by
  induction h with
  | nil => exact shows_const hs hc []
  | cons hstmt _ ih => exact hstmt.append ih List.cons

theorem meansBranches_nil (hs : s.Ready p) (hc : p.contexts c) : s.MeansBranches p c [] [] :=
  shows_const hs hc []

theorem meansCases_nil (hs : s.Ready p) (hc : p.contexts c) : s.MeansCases p c [] [] :=
  shows_const hs hc []

theorem MeansBranches.append {arms more : List Branch} {os os' : List (Outline.Arm Term)}
    (h : s.MeansBranches p c arms os) (h' : s.MeansBranches p c more os') :
    s.MeansBranches p c (arms ++ more) (os ++ os') := by
  have hboth := Shows.append h h' (· ++ ·)
  rw [← Branch.rootsAll_append] at hboth
  refine ⟨hboth.fits, ?_⟩
  rw [Branch.outlineAll_append]
  exact hboth.reads

theorem MeansCases.append {cases more : List SwitchCase} {os os' : List (Outline.Case Term)}
    (h : s.MeansCases p c cases os) (h' : s.MeansCases p c more os') :
    s.MeansCases p c (cases ++ more) (os ++ os') := by
  have hboth := Shows.append h h' (· ++ ·)
  rw [← SwitchCase.rootsAll_append] at hboth
  refine ⟨hboth.fits, ?_⟩
  rw [SwitchCase.outlineAll_append]
  exact hboth.reads

theorem meansBranches_of_forall₂ (hs : s.Ready p) (hc : p.contexts c) {arms : List Branch}
    {os : List (Outline.Arm Term)}
    (h : List.Forall₂ (fun arm o => s.MeansBranches p c [arm] [o]) arms os) :
    s.MeansBranches p c arms os := by
  induction h with
  | nil => exact meansBranches_nil hs hc
  | cons harm _ ih => exact harm.append ih

theorem meansCases_of_forall₂ (hs : s.Ready p) (hc : p.contexts c) {cases : List SwitchCase}
    {os : List (Outline.Case Term)}
    (h : List.Forall₂ (fun arm o => s.MeansCases p c [arm] [o]) cases os) :
    s.MeansCases p c cases os := by
  induction h with
  | nil => exact meansCases_nil hs hc
  | cons harm _ ih => exact harm.append ih

/-! ## Builds in sequence -/

section

variable {α β γ : Type}

theorem Produces.pure {q : Session → α → Prop} {a : α} (hs : s.Ready p) (h : q s a) :
    s.Produces p (pure a) q := Yields.pure ⟨hs, h⟩

theorem Produces.bind {m : Build α} {f : α → Build β} {q : Session → α → Prop}
    {r : Session → β → Prop} (hm : s.Produces p m q)
    (hf : ∀ t a, s.Grows t → t.Ready p → q t a → t.Produces p (f a) r) :
    s.Produces p (m >>= f) r :=
  Yields.bind hm fun t a hst h => hf t a hst h.1 h.2

theorem Produces.imp {m : Build α} {q r : Session → α → Prop} (hm : s.Produces p m q)
    (h : ∀ t a, q t a → r t a) : s.Produces p m r :=
  Yields.imp hm fun t a _ ha => ⟨ha.1, h t a ha.2⟩

theorem Produces.map {m : Build α} {f : α → β} {q : Session → β → Prop}
    (hm : s.Produces p m fun t a => q t (f a)) : s.Produces p (f <$> m) q := hm

/-- A list of builds, each beside what it starts from and what it is to mean. -/
theorem Produces.mapM {f : α → Build β} {q : Session → α → γ → Prop} {r : Session → β → γ → Prop}
    (hq : ∀ t u x y, t.Sound → t.Grows u → q t x y → q u x y)
    (hr : ∀ t u b y, t.Sound → t.Grows u → r t b y → r u b y)
    (hf : ∀ t x y, t.Ready p → q t x y → t.Produces p (f x) fun u b => r u b y)
    {xs : List α} {ys : List γ} (hs : s.Ready p) (h : List.Forall₂ (q s) xs ys) :
    s.Produces p (xs.mapM f) fun t bs => List.Forall₂ (r t) bs ys := by
  induction xs generalizing s ys with
  | nil =>
    cases h
    exact .pure hs .nil
  | cons x rest ih =>
    cases h with
    | cons hxy hrest =>
      rw [List.mapM_cons]
      refine (hf s x _ hs hxy).bind fun t b hst ht hb => ?_
      -- what is still to be built starts from a larger session
      refine (ih ht (hrest.imp fun x y => hq s t x y hs.sound hst)).bind
        fun u bs htu hu hbs => ?_
      exact .pure hu (.cons (hr t u b _ ht.sound htu hb) hbs)

theorem Ready.replace (hs : s.Ready p) (hc : c < s.contexts.size) {ctx : Context}
    (hgrows : (s.context c).Grows ctx) (hagrees : ctx.Agrees p) : (s.replace c ctx).Ready p := by
  have hg := grows_replace hc hgrows
  refine ⟨hg.sound hs.sound, fun d hd => hg.count ▸ hs.present d hd, fun d hd => ?_⟩
  rw [context_replace hc]
  split_ifs
  · exact hagrees
  · exact hs.agrees d hd

theorem produces_onContext (hs : s.Ready p) (hc : p.contexts c) {f : Context → α × Context}
    {q : Session → α → Prop} (hgrows : (s.context c).Grows (f (s.context c)).2)
    (hagrees : (f (s.context c)).2.Agrees p)
    (hpost : ∀ t : Session, s.Grows t → t.Ready p → t.context c = (f (s.context c)).2 →
      q t (f (s.context c)).1) : s.Produces p (onContext c f) q := by
  have hlt := hs.present c hc
  have hg := grows_replace hlt hgrows
  have hready := hs.replace hlt hgrows hagrees
  unfold Produces Yields
  rw [onContext_apply]
  exact ⟨hg, hready, hpost _ hg hready (by rw [context_replace hlt, if_pos rfl])⟩

end

end

end Session

end KernelForge
