import KernelForge.Proofs.Session.Builders
import KernelForge.Proofs.Session.Workspace

/-!
# What actions mean

An action has a meaning that its answer is to have, given the meanings of the answers so far. No
context occurs in it. In a workspace the contexts of which agree on names, every answer has the
meaning of its action, and an action is not performed exactly when it means nothing.
-/
namespace KernelForge

/-! ## Two computations side by side -/

theorem rel_bind {α β γ δ : Type} {r : α → β → Prop} {q : γ → δ → Prop} {x : Option α}
    {y : Option β} {f : α → Option γ} {g : β → Option δ} (h : Option.Rel r x y)
    (hf : ∀ a b, r a b → Option.Rel q (f a) (g b)) : Option.Rel q (x.bind f) (y.bind g) := by
  cases h with
  | none => exact .none
  | some hab => exact hf _ _ hab

theorem rel_map {α β γ δ : Type} {r : α → β → Prop} {q : γ → δ → Prop} {x : Option α}
    {y : Option β} {f : α → γ} {g : β → δ} (h : Option.Rel r x y)
    (hf : ∀ a b, r a b → q (f a) (g b)) : Option.Rel q (x.map f) (y.map g) := by
  cases h with
  | none => exact .none
  | some hab => exact .some (hf _ _ hab)

theorem rel_mapM {α β γ : Type} {r : β → γ → Prop} {f : α → Option β} {g : α → Option γ}
    (h : ∀ x, Option.Rel r (f x) (g x)) (xs : List α) :
    Option.Rel (List.Forall₂ r) (xs.mapM f) (xs.mapM g) := by
  induction xs with
  | nil => exact .some .nil
  | cons x rest ih =>
    rw [List.mapM_cons, List.mapM_cons]
    exact rel_bind (h x) fun a b hab => rel_bind ih fun as bs habs => .some (.cons hab habs)

theorem rel_getElem? {α β : Type} {r : α → β → Prop} {xs : List α} {ys : List β}
    (h : List.Forall₂ r xs ys) (i : Nat) : Option.Rel r xs[i]? ys[i]? := by
  induction h generalizing i with
  | nil => exact .none
  | cons hxy _ ih =>
    cases i with
    | zero => exact .some hxy
    | succ i => exact ih i

/-! ## Meanings -/

/-- What an answer means, wherever it is. -/
inductive Meaning
  | expr (u : Term)
  | statement (o : Outline Term)
  | chain (arms : List (Outline.Arm Term))
  | switch (subject : Term) (cases : List (Outline.Case Term))
  | tooMany (e : TooManyArguments)
  | kernel (body : List (Outline Term)) (options : RenderOptions)
  | nothing

namespace Meaning

section

variable (env : List Meaning)

def expr? (label : Nat) : Option Term :=
  match env[label]? with
  | some (.expr u) => some u
  | _ => none

def operand? : Argument → Option Term
  | .answer label => expr? env label
  | .literal v => some (.leaf (.literal v))

def statement? (label : Nat) : Option (Outline Term) :=
  match env[label]? with
  | some (.statement o) => some o
  | some (.expr u) => some (.expr u)
  | _ => none

def body? (labels : List Nat) : Option (List (Outline Term)) := labels.mapM (statement? env)

def arm? (arm : Arm) : Option (Term × List (Outline Term)) := do
  return (← operand? env arm.1, ← body? env arm.2)

def last? : Option (List Nat) → Option (Option (List (Outline Term)))
  | none => some none
  | some labels => (body? env labels).map some

def chain? (label : Nat) : Option (List (Outline.Arm Term)) :=
  match env[label]? with
  | some (.chain arms) => some arms
  | _ => none

def switch? (label : Nat) : Option (Term × List (Outline.Case Term)) :=
  match env[label]? with
  | some (.switch subject cases) => some (subject, cases)
  | _ => none

/-- What an action means, given what the answers so far mean. Lookups and updates are left out: they
depend on what their context holds. -/
def ofAction? : Action → Option Meaning
  | .intern _ name shape | .tryIntern _ name shape => some (.expr (.leaf (shape.named name)))
  | .lookup .. | .update .. => none
  | .literal _ v => some (.expr (.leaf (.literal v)))
  | .slot _ slot => some (.expr (.leaf (.slot slot)))
  | .call _ callee args => do
    let us ← args.mapM (operand? env)
    return if us.length ≤ Arena.maxArguments then .expr (.node (.call callee) us)
      else .tooMany ⟨us.length⟩
  | .declare a => do return .expr (.node .declare [← expr? env a])
  | .unary op a => do return .expr (.node (.unary op) [← expr? env a])
  | .binary op a b => do return .expr (.node (.binary op) [← expr? env a, ← operand? env b])
  | .binaryLiteral op a b => do
    return .expr (.node (.binary op) [.leaf (.literal a), ← expr? env b])
  | .assign a b => do return .expr (.node .assign [← expr? env a, ← operand? env b])
  | .index a b => do return .expr (.node .index [← expr? env a, ← operand? env b])
  | .exprStatement a => do return .statement (.expr (← expr? env a))
  | .comment text => some (.statement (.comment text))
  | .includeFile path => some (.statement (.includeFile path))
  | .forLoop _ init cond step body => do
    let init ← operand? env init
    let cond ← operand? env cond
    let step ← operand? env step
    return .statement (.forLoop init cond step (← body? env body))
  | .whileLoop _ cond body => do
    return .statement (.whileLoop (← operand? env cond) (← body? env body))
  | .ifChain _ first others otherwise => do
    let first ← arm? env first
    let others ← others.mapM (arm? env)
    return .statement (.ifChain ((first :: others).map Session.conditional ++
      Session.elseArm (← last? env otherwise)))
  | .openChain _ first => do return .chain [Session.conditional (← arm? env first)]
  | .elseIf label arm => do
    return .chain ((← chain? env label) ++ [Session.conditional (← arm? env arm)])
  | .closeChain label otherwise => do
    return .statement (.ifChain ((← chain? env label) ++ Session.elseArm (← last? env otherwise)))
  | .switch _ subject cases default => do
    let subject ← operand? env subject
    let cases ← cases.mapM (arm? env)
    return .statement (.switch subject (cases.map Session.caseOf) (← last? env default))
  | .openSwitch _ subject => do return .switch (← operand? env subject) []
  | .addCase label arm => do
    let (subject, cases) ← switch? env label
    return .switch subject (cases ++ [Session.caseOf (← arm? env arm)])
  | .closeSwitch label default => do
    let (subject, cases) ← switch? env label
    return .statement (.switch subject cases (← last? env default))
  | .function _ signature params body => do
    return .statement (.function (functionHeader signature params) (← body? env body))
  | .kernel _ body options => do return .kernel (← body? env body) options

/-- What the answer of an action means. -/
def ofAction (action : Action) : Meaning := (ofAction? env action).getD .nothing

end

/-- What the answers of a run mean. -/
def ofRun (env : List Meaning) (actions : List Action) : List Meaning :=
  actions.foldl (fun env action => env ++ [ofAction env action]) env

end Meaning

/-! ## Answers -/

namespace Session

/-- The answer has the meaning. -/
inductive Means (p : Scope) (s : Session) : Answer → Meaning → Prop
  | handle {a : Handle} {u : Term} (h : s.MeansHandle p a u) : Means p s (.handle a) (.expr u)
  | statement {st : Statement} {o : Outline Term} (h : s.MeansStatement p st o) :
    Means p s (.statement st) (.statement o)
  | chain {c : Nat} {arms : List Branch} {ms : List (Outline.Arm Term)}
    (h : s.MeansBranches p c arms ms) : Means p s (.chain c arms) (.chain ms)
  | switch {c : Nat} {subject : NodeId} {cases : List SwitchCase} {u : Term}
    {ms : List (Outline.Case Term)} (hu : s.MeansExpr p c subject u)
    (hms : s.MeansCases p c cases ms) : Means p s (.switch c subject cases) (.switch u ms)
  | tooMany (e : TooManyArguments) : Means p s (.tooMany e) (.tooMany e)
  | kernel {r : Except RenderError Kernel} {os : List (Outline Term)} {options : RenderOptions}
    (h : MeansKernel os options r) : Means p s (.kernel r) (.kernel os options)
  | nothing : Means p s .nothing .nothing

theorem Means.mono {p : Scope} {s t : Session} (hs : s.Sound) (h : s.Grows t) {answer : Answer}
    {m : Meaning} (hm : s.Means p answer m) : t.Means p answer m := by
  cases hm with
  | handle ha => exact .handle (MeansExpr.mono hs h ha)
  | statement ho => exact .statement (ho.mono hs h)
  | chain hms => exact .chain (hms.mono hs h)
  | switch hu hms => exact .switch (hu.mono hs h) (hms.mono hs h)
  | tooMany e => exact .tooMany e
  | kernel hr => exact .kernel hr
  | nothing => exact .nothing

end Session

namespace Action

/-- The context in which an action takes place, if its operands do not tell. -/
def home? : Action → Option Nat
  | .intern c _ _ | .tryIntern c _ _ | .lookup c _ | .update c _ _ | .literal c _ | .slot c _
  | .call c _ _ | .forLoop c _ _ _ _ | .whileLoop c _ _ | .ifChain c _ _ _ | .openChain c _
  | .switch c _ _ _ | .openSwitch c _ | .function c _ _ _ | .kernel c _ _ => some c
  | _ => none

/-- The name that an action instantiates, and the shape it asks for. -/
def instance? : Action → Option (String × Shape)
  | .intern _ name shape | .tryIntern _ name shape => some (name, shape)
  | _ => none

/-- Neither a lookup nor an update. -/
def builds : Action → Bool
  | .lookup .. | .update .. => false
  | _ => true

/-- The action builds something within a scope. -/
structure Within (p : Scope) (action : Action) : Prop where
  builds : action.builds
  home : ∀ c, action.home? = some c → p.contexts c
  named : ∀ name shape, action.instance? = some (name, shape) → p.shape? name = some shape

end Action

namespace Workspace

/-- The contexts are ready, and the answers have the meanings. -/
structure Means (p : Scope) (w : Workspace) (env : List Meaning) : Prop where
  ready : w.session.Ready p
  answers : List.Forall₂ (w.session.Means p) w.answers env

section

variable {p : Scope} {w : Workspace} {env : List Meaning}

theorem handle?_means (hw : w.Means p env) (label : Nat) :
    Option.Rel (w.session.MeansHandle p) (w.handle? label) (Meaning.expr? env label) := by
  have h := rel_getElem? hw.answers label
  unfold handle? Meaning.expr?
  generalize w.answers[label]? = x, env[label]? = y at h
  cases h with
  | none => exact .none
  | some h => cases h <;> first | exact .some ‹_› | exact .none

theorem operand?_means (hw : w.Means p env) (arg : Argument) :
    Option.Rel (w.session.MeansOperand p) (w.operand? arg) (Meaning.operand? env arg) := by
  cases arg with
  | literal v => exact .some rfl
  | answer label =>
    rw [Meaning.operand?, ← Option.map_id' (x := Meaning.expr? env label)]
    exact rel_map (handle?_means hw label) fun _ _ h => h

theorem statement?_means (hw : w.Means p env) (label : Nat) :
    Option.Rel (w.session.MeansStatement p) (w.statement? label)
      (Meaning.statement? env label) := by
  have h := rel_getElem? hw.answers label
  unfold statement? Meaning.statement?
  generalize w.answers[label]? = x, env[label]? = y at h
  cases h with
  | none => exact .none
  | some h =>
    cases h with
    | handle ha => exact .some (Session.meansStatement_expr ha)
    | statement ho => exact .some ho
    | _ => exact .none

theorem body?_means (hw : w.Means p env) (labels : List Nat) :
    Option.Rel (w.session.MeansBody p) (w.body? labels) (Meaning.body? env labels) :=
  rel_mapM (statement?_means hw) labels

theorem arm?_means (hw : w.Means p env) (arm : Arm) :
    Option.Rel (w.session.MeansArm p) (w.arm? arm) (Meaning.arm? env arm) :=
  rel_bind (operand?_means hw arm.1) fun _ _ hcond =>
    rel_bind (body?_means hw arm.2) fun _ _ hbody => .some ⟨hcond, hbody⟩

theorem last?_means (hw : w.Means p env) (last : Option (List Nat)) :
    Option.Rel (w.session.MeansLast p) (w.last? last) (Meaning.last? env last) := by
  cases last with
  | none => exact .some .none
  | some labels => exact rel_map (body?_means hw labels) fun _ _ hbody => .some hbody

/-- The chain of a label, in whichever context. -/
theorem chain?_means (hw : w.Means p env) (label : Nat) :
    Option.Rel (fun x ms => w.session.MeansBranches p x.1 x.2 ms) (w.chain? label)
      (Meaning.chain? env label) := by
  have h := rel_getElem? hw.answers label
  unfold chain? Meaning.chain?
  generalize w.answers[label]? = x, env[label]? = y at h
  cases h with
  | none => exact .none
  | some h => cases h <;> first | exact .some ‹_› | exact .none

theorem switch?_means (hw : w.Means p env) (label : Nat) :
    Option.Rel (fun x m => w.session.MeansExpr p x.1 x.2.1 m.1 ∧
      w.session.MeansCases p x.1 x.2.2 m.2) (w.switch? label) (Meaning.switch? env label) := by
  have h := rel_getElem? hw.answers label
  unfold switch? Meaning.switch?
  generalize w.answers[label]? = x, env[label]? = y at h
  cases h with
  | none => exact .none
  | some h => cases h <;> first | exact .some ⟨‹_›, ‹_›⟩ | exact .none

/-- The build ends in an answer that has the meaning. -/
def Answers (p : Scope) (s : Session) (build : Build Answer) (m : Meaning) : Prop :=
  s.Produces p build fun t answer => t.Means p answer m

theorem answers_handle {s : Session} {m : Build Handle} {u : Term}
    (h : s.Produces p m fun t a => t.MeansHandle p a u) :
    Answers p s (Answer.handle <$> m) (.expr u) :=
  (h.imp fun _ _ => .handle).map

theorem answers_statement {s : Session} {m : Build Statement} {o : Outline Term}
    (h : s.Produces p m fun t st => t.MeansStatement p st o) :
    Answers p s (Answer.statement <$> m) (.statement o) :=
  (h.imp fun _ _ => .statement).map

theorem extendChain_answers {s : Session} (hs : s.Ready p) {c : Nat} {arms : List Branch}
    {ms : List (Outline.Arm Term)} (harms : s.MeansBranches p c arms ms)
    {arm : Operand × List Statement} {m : Term × List (Outline Term)} (harm : s.MeansArm p arm m) :
    Answers p s (extendChain c arms arm) (.chain (ms ++ [Session.conditional m])) :=
  (Session.branch_produces hs harms.fits.used harm).bind fun _ _ hst ht hb =>
    .pure ht (.chain ((harms.mono hs.sound hst).append hb))

theorem finishChain_answers {s : Session} (hs : s.Ready p) {c : Nat} {arms : List Branch}
    {ms : List (Outline.Arm Term)} (harms : s.MeansBranches p c arms ms)
    {last : Option (List Statement)} {os : Option (List (Outline Term))}
    (hlast : s.MeansLast p last os) :
    Answers p s (finishChain c arms last) (.statement (.ifChain (ms ++ Session.elseArm os))) := by
  cases hlast with
  | none =>
    rw [Session.elseArm, List.append_nil]
    exact .pure hs (.statement (Session.Shows.map harms Outline.ifChain))
  | some hbody =>
    exact (Session.absorb_else_produces hs harms hbody).bind fun _ _ _ ht h =>
      .pure ht (.statement (Session.Shows.map h Outline.ifChain))

theorem extendSwitch_answers {s : Session} (hs : s.Ready p) {c : Nat} {subject : NodeId} {u : Term}
    (hsubject : s.MeansExpr p c subject u) {cases : List SwitchCase} {ms : List (Outline.Case Term)}
    (hcases : s.MeansCases p c cases ms) {arm : Operand × List Statement}
    {m : Term × List (Outline Term)} (harm : s.MeansArm p arm m) :
    Answers p s (extendSwitch c subject cases arm) (.switch u (ms ++ [Session.caseOf m])) :=
  (Session.switchCase_produces hs hcases.fits.used harm).bind fun _ _ hst ht hb =>
    .pure ht (.switch (hsubject.mono hs.sound hst) ((hcases.mono hs.sound hst).append hb))

theorem finishSwitch_answers {s : Session} (hs : s.Ready p) {c : Nat} {subject : NodeId} {u : Term}
    (hsubject : s.MeansExpr p c subject u) {cases : List SwitchCase} {ms : List (Outline.Case Term)}
    (hcases : s.MeansCases p c cases ms) {last : Option (List Statement)}
    {os : Option (List (Outline Term))} (hlast : s.MeansLast p last os) :
    Answers p s (finishSwitch c subject cases last) (.statement (.switch u ms os)) := by
  cases hlast with
  | none =>
    exact .pure hs (.statement (Session.Shows.append hsubject hcases
      fun u ms => Outline.switch u ms none))
  | some hbody =>
    exact (Session.absorb_default_produces hs hsubject hcases hbody).bind fun _ _ _ ht h =>
      .pure ht (.statement h)

/-! ## Actions -/

theorem rel_context? {α β : Type} {r : α → β → Prop} {f : Nat → Option α} {y : Option β} {c : Nat}
    (hs : w.session.Ready p) (hc : p.contexts c) (h : Option.Rel r (f c) y) :
    Option.Rel r ((w.context? c).bind f) y := by
  rwa [context?, if_pos (hs.present c hc), Option.bind_some]

/-- An action is performed exactly when it means something, and then its answer means that. -/
theorem build?_means (hw : w.Means p env) {action : Action} (ha : action.Within p) :
    Option.Rel (Answers p w.session) (w.build? action) (Meaning.ofAction? env action) := by
  have hs := hw.ready
  obtain ⟨hbuilds, hhome, hnamed⟩ := ha
  -- the labels stand for something on both sides or on none, and then the builder's lemma applies
  cases action with
  | lookup c name => cases hbuilds
  | update c a change => cases hbuilds
  | intern c name shape =>
    have hc := hhome c rfl
    refine rel_context? hs hc <| .some (answers_handle ?_)
    exact Session.intern_produces hs hc (hnamed name shape rfl)
  | tryIntern c name shape =>
    have hc := hhome c rfl
    refine rel_context? hs hc <| .some (Session.Produces.map ?_)
    refine (Session.tryIntern_produces hs hc (hnamed name shape rfl)).imp ?_
    rintro t _ ⟨h, rfl, hh⟩
    exact .handle hh
  | literal c v =>
    have hc := hhome c rfl
    exact rel_context? hs hc <| .some (answers_handle (Session.literal_produces hs hc v))
  | slot c slot =>
    have hc := hhome c rfl
    exact rel_context? hs hc <| .some (answers_handle (Session.slot_produces hs hc slot))
  | call c callee args =>
    have hc := hhome c rfl
    refine rel_context? hs hc <| rel_bind (rel_mapM (operand?_means hw) args) fun os us hos => ?_
    refine .some (Session.Produces.map ((Session.call_produces hs hc callee hos).imp ?_))
    rintro t (e | h) hr
    · obtain ⟨hlong, rfl⟩ := hr
      rw [if_neg (by omega)]
      exact .tooMany _
    · rw [if_pos hr.1]
      exact .handle hr.2
  | declare a =>
    exact rel_bind (handle?_means hw a) fun _ _ ha =>
      .some (answers_handle (Session.declare_produces hs ha))
  | unary op a =>
    exact rel_bind (handle?_means hw a) fun _ _ ha =>
      .some (answers_handle (Session.unary_produces hs op ha))
  | binary op a b =>
    exact rel_bind (handle?_means hw a) fun _ _ ha => rel_bind (operand?_means hw b) fun _ _ hb =>
      .some (answers_handle (Session.binary_produces hs op ha hb))
  | binaryLiteral op a b =>
    exact rel_bind (handle?_means hw b) fun _ _ hb =>
      .some (answers_handle (Session.binaryLiteral_produces hs op a hb))
  | assign a b =>
    exact rel_bind (handle?_means hw a) fun _ _ ha => rel_bind (operand?_means hw b) fun _ _ hb =>
      .some (answers_handle (Session.assign_produces hs ha hb))
  | index a b =>
    exact rel_bind (handle?_means hw a) fun _ _ ha => rel_bind (operand?_means hw b) fun _ _ hb =>
      .some (answers_handle (Session.index_produces hs ha hb))
  | exprStatement a =>
    exact rel_bind (handle?_means hw a) fun _ _ ha =>
      .some (.pure hs (.statement (Session.meansStatement_expr ha)))
  | comment text => exact .some (.pure hs (.statement (Session.meansStatement_comment text)))
  | includeFile path => cases path <;> exact .some (.pure hs (.statement ⟨rfl, rfl⟩))
  | forLoop c init cond step body =>
    have hc := hhome c rfl
    refine rel_context? hs hc <| rel_bind (operand?_means hw init) fun _ _ hinit => ?_
    refine rel_bind (operand?_means hw cond) fun _ _ hcond => ?_
    refine rel_bind (operand?_means hw step) fun _ _ hstep => ?_
    refine rel_bind (body?_means hw body) fun _ _ hbody => .some (answers_statement ?_)
    exact Session.forLoop_produces hs hc hinit hcond hstep hbody
  | whileLoop c cond body =>
    have hc := hhome c rfl
    refine rel_context? hs hc <| rel_bind (operand?_means hw cond) fun _ _ hcond => ?_
    refine rel_bind (body?_means hw body) fun _ _ hbody => .some (answers_statement ?_)
    exact Session.whileLoop_produces hs hc hcond hbody
  | ifChain c first others otherwise =>
    have hc := hhome c rfl
    refine rel_context? hs hc <| rel_bind (arm?_means hw first) fun _ _ hfirst => ?_
    refine rel_bind (rel_mapM (arm?_means hw) others) fun _ _ hothers => ?_
    refine rel_bind (last?_means hw otherwise) fun _ _ hlast => .some (answers_statement ?_)
    exact Session.ifChain_produces hs hc hfirst hothers hlast
  | openChain c first =>
    have hc := hhome c rfl
    refine rel_context? hs hc <| rel_bind (arm?_means hw first) fun _ _ hfirst => .some ?_
    exact extendChain_answers hs (Session.meansBranches_nil hs hc) hfirst
  | elseIf chain arm =>
    exact rel_bind (chain?_means hw chain) fun _ _ harms =>
      rel_bind (arm?_means hw arm) fun _ _ harm => .some (extendChain_answers hs harms harm)
  | closeChain chain otherwise =>
    exact rel_bind (chain?_means hw chain) fun _ _ harms =>
      rel_bind (last?_means hw otherwise) fun _ _ hlast =>
        .some (finishChain_answers hs harms hlast)
  | switch c subject cases default =>
    have hc := hhome c rfl
    refine rel_context? hs hc <| rel_bind (operand?_means hw subject) fun _ _ hsubject => ?_
    refine rel_bind (rel_mapM (arm?_means hw) cases) fun _ _ hcases => ?_
    refine rel_bind (last?_means hw default) fun _ _ hlast => .some (answers_statement ?_)
    exact Session.switch_produces hs hc hsubject hcases hlast
  | openSwitch c subject =>
    have hc := hhome c rfl
    refine rel_context? hs hc <| rel_bind (operand?_means hw subject) fun _ _ hsubject => .some ?_
    obtain ⟨hst, ht, hid⟩ := Session.attach_produces hs hc hsubject
    exact ⟨hst, ht, .switch hid (Session.meansCases_nil ht hc)⟩
  | addCase switch arm =>
    exact rel_bind (switch?_means hw switch) fun _ _ hcases =>
      rel_bind (arm?_means hw arm) fun _ _ harm =>
        .some (extendSwitch_answers hs hcases.1 hcases.2 harm)
  | closeSwitch switch default =>
    exact rel_bind (switch?_means hw switch) fun _ _ hcases =>
      rel_bind (last?_means hw default) fun _ _ hlast =>
        .some (finishSwitch_answers hs hcases.1 hcases.2 hlast)
  | function c signature params body =>
    have hc := hhome c rfl
    refine rel_context? hs hc <| rel_bind (body?_means hw body) fun _ _ hbody => .some ?_
    exact answers_statement (Session.function_produces hs hc signature params hbody)
  | kernel c body options =>
    have hc := hhome c rfl
    refine rel_context? hs hc <| rel_bind (body?_means hw body) fun _ _ hbody => .some ?_
    exact Session.Produces.map ((Session.kernel_produces hs hc hbody options).imp fun _ _ => .kernel)

theorem step_means (hw : w.Means p env) {action : Action} (ha : action.Within p) :
    (w.step action).Means p (env ++ [Meaning.ofAction env action]) := by
  have hbuild := build?_means hw ha
  unfold step Meaning.ofAction
  generalize w.build? action = x, Meaning.ofAction? env action = y at hbuild
  cases hbuild with
  | none => exact ⟨hw.ready, List.rel_append hw.answers (.cons .nothing .nil)⟩
  | some h =>
    obtain ⟨hgrows, hready, hanswer⟩ := h
    refine ⟨hready, List.rel_append (hw.answers.imp fun _ _ hm => ?_) (.cons hanswer .nil)⟩
    exact hm.mono hw.ready.sound hgrows

theorem run_means (hw : w.Means p env) {actions : List Action}
    (ha : ∀ action ∈ actions, action.Within p) :
    (w.run actions).Means p (Meaning.ofRun env actions) := by
  induction actions generalizing w env with
  | nil => exact hw
  | cons action rest ih =>
    exact ih (step_means hw (ha action (by simp))) fun other h => ha other (by simp [h])

end

end Workspace

end KernelForge
