import KernelForge.Proofs.Session.Intake
import KernelForge.Proofs.Session.Soundness

/-!
# The names of a table

A table lists the names that the actions so far have entered, and no others: the names under which
variables were asked for in its context, and those of the variables below what was taken in from
other contexts. An update never enters a name, nor does it remove one.
-/
namespace KernelForge.Workspace

variable {w : Workspace}

/-- The context into which an action takes expressions, and what it takes there. -/
def takes? (w : Workspace) : Action → Option (Nat × List Intake)
  | .call c _ args => do
    let c ← w.context? c
    let args ← args.mapM w.operand?
    return (c, args.flatMap Operand.intake)
  | .binary _ a b | .assign a b | .index a b => do
    let a ← w.handle? a
    let b ← w.operand? b
    return (a.context, b.intake)
  | .forLoop c init cond step body => do
    let c ← w.context? c
    let init ← w.operand? init
    let cond ← w.operand? cond
    let step ← w.operand? step
    let body ← w.body? body
    return (c, init.intake ++ (cond.intake ++ (step.intake ++ Session.bodyIntake body)))
  | .whileLoop c cond body => do
    let c ← w.context? c
    let cond ← w.operand? cond
    let body ← w.body? body
    return (c, Session.armIntake (cond, body))
  | .ifChain c first others otherwise => do
    let c ← w.context? c
    let first ← w.arm? first
    let others ← others.mapM w.arm?
    let otherwise ← w.last? otherwise
    return (c, (first :: others).flatMap Session.armIntake ++ Session.lastIntake otherwise)
  | .openChain c first => do
    let c ← w.context? c
    let first ← w.arm? first
    return (c, Session.armIntake first)
  | .elseIf chain arm => do
    let (c, _) ← w.chain? chain
    let arm ← w.arm? arm
    return (c, Session.armIntake arm)
  | .closeChain chain otherwise => do
    let (c, _) ← w.chain? chain
    let otherwise ← w.last? otherwise
    return (c, Session.lastIntake otherwise)
  | .switch c subject cases default => do
    let c ← w.context? c
    let subject ← w.operand? subject
    let cases ← cases.mapM w.arm?
    let default ← w.last? default
    return (c, subject.intake ++
      (cases.flatMap Session.armIntake ++ Session.lastIntake default))
  | .openSwitch c subject => do
    let c ← w.context? c
    let subject ← w.operand? subject
    return (c, subject.intake)
  | .addCase switch arm => do
    let (c, _) ← w.switch? switch
    let arm ← w.arm? arm
    return (c, Session.armIntake arm)
  | .closeSwitch switch default => do
    let (c, _) ← w.switch? switch
    let default ← w.last? default
    return (c, Session.lastIntake default)
  | .function c _ _ body | .kernel c body _ => do
    let c ← w.context? c
    let body ← w.body? body
    return (c, Session.bodyIntake body)
  | _ => none

/-- The action enters the name into the table of the context `c`, if it is not there yet. -/
inductive Enters (w : Workspace) (c : Nat) (name : String) : Action → Prop
  | intern (shape : Shape) (there : c < w.session.contexts.size) :
      Enters w c name (.intern c name shape)
  /-- A request that is refused enters nothing. -/
  | tryIntern (shape : Shape) (there : c < w.session.contexts.size) (h : Handle)
      (granted : (Session.tryIntern c name shape w.session).1 = .ok h) :
      Enters w c name (.tryIntern c name shape)
  | takes {action : Action} (intake : List Intake) (takes : w.takes? action = some (c, intake))
      (brings : w.session.Brings c intake name) : Enters w c name action

theorem context?_eq_some {c : Nat} (hc : c < w.session.contexts.size) : w.context? c = some c :=
  if_pos hc

/-- An action that is not performed takes nothing in. -/
theorem takes?_eq_none {action : Action} (h : w.build? action = none) :
    w.takes? action = none := by
  revert h
  cases action <;> simp [build?, takes?, Option.bind_eq_none_iff]

theorem Enters.performed {c : Nat} {name : String} {action : Action}
    (h : w.Enters c name action) : w.build? action ≠ none := by
  cases h with
  | intern shape there => simp [build?, context?_eq_some there]
  | tryIntern shape there => simp [build?, context?_eq_some there]
  | takes intake htakes =>
    intro hnone
    simp [takes?_eq_none hnone] at htakes

/-- An action that takes nothing in and does not ask for a variable enters nothing. -/
theorem not_enters {action : Action} (htakes : w.takes? action = none)
    (hasks : ∀ c name shape, action ≠ .intern c name shape ∧ action ≠ .tryIntern c name shape)
    (c : Nat) (name : String) : ¬ w.Enters c name action := by
  intro h
  cases h with
  | intern => exact (hasks _ _ _).1 rfl
  | tryIntern => exact (hasks _ _ _).2 rfl
  | takes intake hsome => simp [htakes] at hsome

/-! ## What an action enters -/

/-- One context gains by the build what the action is said to enter, and no other one gains. -/
def Accounts (w : Workspace) (action : Action) (build : Build Answer) : Prop :=
  ∃ d p, w.session.Gains d build p ∧ ∀ c name, w.Enters c name action ↔ c = d ∧ p name

section

variable {action : Action} {build : Build Answer}

theorem accounts_of_takes? {d : Nat} {intake : List Intake}
    (htakes : w.takes? action = some (d, intake))
    (hgains : w.session.Gains d build (w.session.Brings d intake)) : w.Accounts action build := by
  refine ⟨d, _, hgains, fun c name => ⟨fun h => ?_, ?_⟩⟩
  · cases h with
    | intern => simp [takes?] at htakes
    | tryIntern => simp [takes?] at htakes
    | takes other hother brings =>
      obtain ⟨rfl, rfl⟩ := Prod.mk.inj (Option.some.inj (hother.symm.trans htakes))
      exact ⟨rfl, brings⟩
  · rintro ⟨rfl, brings⟩
    exact .takes intake htakes brings

theorem accounts_of_none (htakes : w.takes? action = none)
    (hasks : ∀ c name shape, action ≠ .intern c name shape ∧ action ≠ .tryIntern c name shape)
    {d : Nat} (hgains : w.session.Gains d build fun _ => False) : w.Accounts action build :=
  ⟨d, _, hgains, fun c name => by simp [not_enters htakes hasks c name]⟩

end

section

variable {s : Session} (hs : s.Sound) {c : Nat} (hc : c < s.contexts.size)
include hs hc

theorem extendChain_takes (arms : List Branch) {arm : Operand × List Statement}
    (harm : s.HoldsOperand arm.1 ∧ ∀ st ∈ arm.2, s.HoldsStatement st) :
    s.Takes c (extendChain c arms arm) (Session.armIntake arm) :=
  (Session.branch_takes hs hc harm.1 harm.2).bind_pure

theorem finishChain_takes (arms : List Branch) {last : Option (List Statement)}
    (hlast : ∀ body, last = some body → ∀ st ∈ body, s.HoldsStatement st) :
    s.Takes c (finishChain c arms last) (Session.lastIntake last) := by
  cases last with
  | none => exact .pure _
  | some body => exact (Session.absorb_takes hs hc (hlast body rfl)).bind_pure

theorem extendSwitch_takes (subject : NodeId) (cases : List SwitchCase)
    {arm : Operand × List Statement}
    (harm : s.HoldsOperand arm.1 ∧ ∀ st ∈ arm.2, s.HoldsStatement st) :
    s.Takes c (extendSwitch c subject cases arm) (Session.armIntake arm) :=
  (Session.switchCase_takes hs hc harm.1 harm.2).bind_pure

theorem finishSwitch_takes (subject : NodeId) (cases : List SwitchCase)
    {last : Option (List Statement)}
    (hlast : ∀ body, last = some body → ∀ st ∈ body, s.HoldsStatement st) :
    s.Takes c (finishSwitch c subject cases last) (Session.lastIntake last) := by
  cases last with
  | none => exact .pure _
  | some body => exact (Session.absorb_takes hs hc (hlast body rfl)).bind_pure

end

theorem build?_accounts (hw : w.Valid) {action : Action}
    (hupdate : ∀ c a change, action ≠ .update c a change) {build : Build Answer}
    (hbuild : w.build? action = some build) : w.Accounts action build := by
  have hs := hw.sound
  cases action with
  | update c a change => exact absurd rfl (hupdate c a change)
  | comment text =>
    obtain rfl := Option.some.inj hbuild
    exact accounts_of_none rfl (by simp) (Session.gains_pure (c := 0) _)
  | includeFile path =>
    cases path <;>
    · obtain rfl := Option.some.inj hbuild
      exact accounts_of_none rfl (by simp) (Session.gains_pure (c := 0) _)
  | intern c name shape =>
    obtain ⟨hc, h⟩ := bind_context? hbuild
    obtain rfl := Option.some.inj h
    refine ⟨c, _, (Session.intern_gains hc name shape).map _, fun d other => ⟨fun h => ?_, ?_⟩⟩
    · cases h with
      | intern => exact ⟨rfl, rfl⟩
      | takes intake htakes => simp [takes?] at htakes
    · rintro ⟨rfl, rfl⟩
      exact .intern shape hc
  | tryIntern c name shape =>
    obtain ⟨hc, h⟩ := bind_context? hbuild
    obtain rfl := Option.some.inj h
    refine ⟨c, _, (Session.tryIntern_gains hs hc name shape).map _,
      fun d other => ⟨fun h => ?_, ?_⟩⟩
    · cases h with
      | tryIntern _ _ h granted => exact ⟨rfl, rfl, h, granted⟩
      | takes intake htakes => simp [takes?] at htakes
    · rintro ⟨rfl, rfl, h, granted⟩
      exact .tryIntern shape hc h granted
  | lookup c name =>
    obtain ⟨hc, h⟩ := bind_context? hbuild
    obtain rfl := Option.some.inj h
    exact accounts_of_none rfl (by simp) (Session.gains_pure (c := c) _)
  | literal c _ | slot c _ =>
    obtain ⟨hc, h⟩ := bind_context? hbuild
    obtain rfl := Option.some.inj h
    exact accounts_of_none rfl (by simp) ((Session.alloc_gains hc _).map _)
  | call c callee args =>
    obtain ⟨hc, h⟩ := bind_context? hbuild
    obtain ⟨args, hargs, h⟩ := Option.bind_eq_some_iff.mp h
    obtain rfl := Option.some.inj h
    exact accounts_of_takes? (by simp [takes?, context?_eq_some hc, hargs])
      ((Session.call_gains hs hc callee (operands_holds hw hargs)).map _)
  | declare a | unary _ a =>
    obtain ⟨a, ha, h⟩ := Option.bind_eq_some_iff.mp hbuild
    obtain rfl := Option.some.inj h
    exact accounts_of_none rfl (by simp)
      ((Session.alloc_gains (handle?_holds hw ha).1 _).map _)
  | binary _ a b | assign a b | index a b =>
    obtain ⟨a, ha, h⟩ := Option.bind_eq_some_iff.mp hbuild
    obtain ⟨b, hb, h⟩ := Option.bind_eq_some_iff.mp h
    obtain rfl := Option.some.inj h
    exact accounts_of_takes? (by simp [takes?, ha, hb]) ((Session.attach_alloc_gains hs
      (handle?_holds hw ha).1 (operand?_holds hw hb) _).map _)
  | binaryLiteral op a b =>
    obtain ⟨b, hb, h⟩ := Option.bind_eq_some_iff.mp hbuild
    obtain rfl := Option.some.inj h
    exact accounts_of_none rfl (by simp)
      ((Session.binaryLiteral_gains op a (handle?_holds hw hb).1).map _)
  | exprStatement a =>
    obtain ⟨a, ha, h⟩ := Option.bind_eq_some_iff.mp hbuild
    obtain rfl := Option.some.inj h
    exact accounts_of_none rfl (by simp) (Session.gains_pure (c := a.context) _)
  | forLoop c init cond step body =>
    obtain ⟨hc, h⟩ := bind_context? hbuild
    obtain ⟨init, hinit, h⟩ := Option.bind_eq_some_iff.mp h
    obtain ⟨cond, hcond, h⟩ := Option.bind_eq_some_iff.mp h
    obtain ⟨step, hstep, h⟩ := Option.bind_eq_some_iff.mp h
    obtain ⟨body, hbody, h⟩ := Option.bind_eq_some_iff.mp h
    obtain rfl := Option.some.inj h
    exact accounts_of_takes? (by simp [takes?, context?_eq_some hc, hinit, hcond, hstep, hbody])
      (Session.forLoop_takes hs hc (operand?_holds hw hinit) (operand?_holds hw hcond)
        (operand?_holds hw hstep) (body?_holds hw hbody)).map.gains
  | whileLoop c cond body =>
    obtain ⟨hc, h⟩ := bind_context? hbuild
    obtain ⟨cond, hcond, h⟩ := Option.bind_eq_some_iff.mp h
    obtain ⟨body, hbody, h⟩ := Option.bind_eq_some_iff.mp h
    obtain rfl := Option.some.inj h
    exact accounts_of_takes? (by simp [takes?, context?_eq_some hc, hcond, hbody])
      (Session.whileLoop_takes hs hc (operand?_holds hw hcond) (body?_holds hw hbody)).map.gains
  | ifChain c first others otherwise =>
    obtain ⟨hc, h⟩ := bind_context? hbuild
    obtain ⟨first, hfirst, h⟩ := Option.bind_eq_some_iff.mp h
    obtain ⟨others, hothers, h⟩ := Option.bind_eq_some_iff.mp h
    obtain ⟨last, hlast, h⟩ := Option.bind_eq_some_iff.mp h
    obtain rfl := Option.some.inj h
    refine accounts_of_takes? (by simp [takes?, context?_eq_some hc, hfirst, hothers, hlast])
      (Session.ifChain_takes hs hc ?_ (last?_holds hw hlast)).map.gains
    intro arm harm
    rcases List.mem_cons.mp harm with rfl | harm
    · exact arm?_holds hw hfirst
    · exact arms_holds hw hothers arm harm
  | openChain c first =>
    obtain ⟨hc, h⟩ := bind_context? hbuild
    obtain ⟨first, hfirst, h⟩ := Option.bind_eq_some_iff.mp h
    obtain rfl := Option.some.inj h
    exact accounts_of_takes? (by simp [takes?, context?_eq_some hc, hfirst])
      (extendChain_takes hs hc [] (arm?_holds hw hfirst)).gains
  | elseIf chain arm =>
    obtain ⟨⟨c, arms⟩, hchain, h⟩ := Option.bind_eq_some_iff.mp hbuild
    obtain ⟨arm, harm, h⟩ := Option.bind_eq_some_iff.mp h
    obtain rfl := Option.some.inj h
    exact accounts_of_takes? (by simp [takes?, hchain, harm])
      (extendChain_takes hs (chain?_holds hw hchain).1 arms (arm?_holds hw harm)).gains
  | closeChain chain otherwise =>
    obtain ⟨⟨c, arms⟩, hchain, h⟩ := Option.bind_eq_some_iff.mp hbuild
    obtain ⟨last, hlast, h⟩ := Option.bind_eq_some_iff.mp h
    obtain rfl := Option.some.inj h
    exact accounts_of_takes? (by simp [takes?, hchain, hlast])
      (finishChain_takes hs (chain?_holds hw hchain).1 arms (last?_holds hw hlast)).gains
  | switch c subject cases default =>
    obtain ⟨hc, h⟩ := bind_context? hbuild
    obtain ⟨subject, hsubject, h⟩ := Option.bind_eq_some_iff.mp h
    obtain ⟨cases, hcases, h⟩ := Option.bind_eq_some_iff.mp h
    obtain ⟨last, hlast, h⟩ := Option.bind_eq_some_iff.mp h
    obtain rfl := Option.some.inj h
    exact accounts_of_takes? (by simp [takes?, context?_eq_some hc, hsubject, hcases, hlast])
      (Session.switch_takes hs hc (operand?_holds hw hsubject) (arms_holds hw hcases)
        (last?_holds hw hlast)).map.gains
  | openSwitch c subject =>
    obtain ⟨hc, h⟩ := bind_context? hbuild
    obtain ⟨subject, hsubject, h⟩ := Option.bind_eq_some_iff.mp h
    obtain rfl := Option.some.inj h
    exact accounts_of_takes? (by simp [takes?, context?_eq_some hc, hsubject])
      (Session.attach_takes hs hc (operand?_holds hw hsubject)).map.gains
  | addCase switch arm =>
    obtain ⟨⟨c, subject, cases⟩, hswitch, h⟩ := Option.bind_eq_some_iff.mp hbuild
    obtain ⟨arm, harm, h⟩ := Option.bind_eq_some_iff.mp h
    obtain rfl := Option.some.inj h
    exact accounts_of_takes? (by simp [takes?, hswitch, harm])
      (extendSwitch_takes hs (switch?_holds hw hswitch).1 subject cases (arm?_holds hw harm)).gains
  | closeSwitch switch default =>
    obtain ⟨⟨c, subject, cases⟩, hswitch, h⟩ := Option.bind_eq_some_iff.mp hbuild
    obtain ⟨last, hlast, h⟩ := Option.bind_eq_some_iff.mp h
    obtain rfl := Option.some.inj h
    exact accounts_of_takes? (by simp [takes?, hswitch, hlast])
      (finishSwitch_takes hs (switch?_holds hw hswitch).1 subject cases
        (last?_holds hw hlast)).gains
  | function c signature params body =>
    obtain ⟨hc, h⟩ := bind_context? hbuild
    obtain ⟨body, hbody, h⟩ := Option.bind_eq_some_iff.mp h
    obtain rfl := Option.some.inj h
    exact accounts_of_takes? (by simp [takes?, context?_eq_some hc, hbody])
      (Session.function_takes hs hc signature params (body?_holds hw hbody)).map.gains
  | kernel c body options =>
    obtain ⟨hc, h⟩ := bind_context? hbuild
    obtain ⟨body, hbody, h⟩ := Option.bind_eq_some_iff.mp h
    obtain rfl := Option.some.inj h
    exact accounts_of_takes? (by simp [takes?, context?_eq_some hc, hbody])
      (Session.kernel_takes hs hc (body?_holds hw hbody) options).map.gains

/-- No update changes the table of a context. -/
theorem lookup_step_update (hw : w.Valid) (d a : Nat) (change : Variable → Variable) (c : Nat)
    (name : String) : ((w.step (.update d a change)).session.context c).lookup name =
      (w.session.context c).lookup name := by
  rcases w.step_update d a change with heq | ⟨h, hh, heq⟩
  · rw [heq]
  · rw [heq]
    by_cases hp : w.session.Permits d h change
    · obtain ⟨v, -, -, -, hrun⟩ := Session.modifyVariable_of_permits hp
      rw [hrun, Session.context_overwrite (handle?_holds hw hh)]
      split_ifs with hc
      · subst hc
        rfl
      · rfl
    · rw [Session.modifyVariable_of_not_permits hp]

/-- What an action adds to a table is what it enters. -/
theorem step_knows (hw : w.Valid) (action : Action) (c : Nat) (name : String) :
    (w.step action).session.Knows c name ↔
      w.session.Knows c name ∨ w.Enters c name action := by
  by_cases hupdate : ∃ c a change, action = .update c a change
  · obtain ⟨d, a, change, rfl⟩ := hupdate
    have hnone : ¬ w.Enters c name (.update d a change) := not_enters rfl (by simp) c name
    rw [Session.Knows, lookup_step_update hw, Session.Knows]
    simp [hnone]
  · push Not at hupdate
    cases hb : w.build? action with
    | none =>
      have hnone : ¬ w.Enters c name action := fun h => h.performed hb
      simp [step, hb, hnone]
    | some build =>
      obtain ⟨d, p, hgains, henters⟩ := build?_accounts hw hupdate hb
      have hsession : (w.step action).session = (build w.session).2 := by
        simp only [step, hb]
        rfl
      rw [hsession, henters]
      by_cases hd : c = d
      · subst hd
        simpa using hgains.names name
      · simp [Session.Knows, hgains.others c hd, hd]

/-- What actions add to a table is what they enter, each in the workspace that it finds. -/
theorem run_knows (hw : w.Valid) (actions : List Action) (c : Nat) (name : String) :
    (w.run actions).session.Knows c name ↔ w.session.Knows c name ∨
      ∃ before action after, actions = before ++ action :: after ∧
        (w.run before).Enters c name action := by
  induction actions generalizing w with
  | nil => simp
  | cons action rest ih =>
    rw [run_cons, ih (step_valid hw action), step_knows hw, or_assoc]
    refine or_congr_right ⟨?_, ?_⟩
    · rintro (henters | ⟨before, other, after, rfl, henters⟩)
      · exact ⟨[], action, rest, rfl, henters⟩
      · exact ⟨action :: before, other, after, rfl, henters⟩
    · rintro ⟨before, other, after, hsplit, henters⟩
      cases before with
      | nil =>
        obtain ⟨rfl, -⟩ := List.cons.inj hsplit
        exact Or.inl henters
      | cons first before =>
        obtain ⟨rfl, hrest⟩ := List.cons.inj hsplit
        exact Or.inr ⟨before, other, after, hrest, henters⟩

theorem not_knows_new (role : Role) (provenances : List String) (c : Nat) (name : String) :
    ¬ (new role provenances).session.Knows c name := by
  obtain ⟨provenance, heq⟩ := context_new role provenances c
  have hnone : (Context.new provenance).lookup name = none := rfl
  simp [Session.Knows, new, heq, hnone]

end KernelForge.Workspace
