import KernelForge.Proofs.Session.Tidiness

/-!
# Tidy answers

Statement builders put tidy statements together from tidy ones, arm by arm or all at once. So every
statement that a workspace ever answers with is tidy, and so is every chain and every switch that is
still open.
-/
namespace KernelForge

def Stmt.TidyAll (ss : List Stmt) : Prop := Outline.TidyAll (Stmt.outlineAll (fun _ => ()) ss)

/-- Arms with conditions and tidy bodies. -/
structure Branch.Tidy (arms : List Branch) : Prop where
  conditional : ∀ arm ∈ Branch.outlineAll (fun _ => ()) arms, arm.cond.isSome
  bodies : Outline.Arm.TidyAll (Branch.outlineAll (fun _ => ()) arms)

def SwitchCase.Tidy (cases : List SwitchCase) : Prop :=
  Outline.Case.TidyAll (SwitchCase.outlineAll (fun _ => ()) cases)

namespace Branch

theorem tidy_nil : Branch.Tidy [] := ⟨by simp [Branch.outlineAll], trivial⟩

theorem tidy_singleton (cond : NodeId) {body : List Stmt} (h : Stmt.TidyAll body) :
    Branch.Tidy [⟨some cond, body⟩] :=
  ⟨by simp [Branch.outlineAll, Outline.Arm.cond], h, trivial⟩

theorem Tidy.append {as bs : List Branch} (ha : Branch.Tidy as) (hb : Branch.Tidy bs) :
    Branch.Tidy (as ++ bs) := by
  constructor
  · rw [Branch.outlineAll_append, List.forall_mem_append]
    exact ⟨ha.conditional, hb.conditional⟩
  · rw [Branch.outlineAll_append, Outline.Arm.tidyAll_append]
    exact ⟨ha.bodies, hb.bodies⟩

theorem tidy_of_forall {arms : List Branch} (h : ∀ arm ∈ arms, Branch.Tidy [arm]) :
    Branch.Tidy arms := by
  induction arms with
  | nil => exact tidy_nil
  | cons arm rest ih => exact (h arm (by simp)).append (ih fun other ho => h other (by simp [ho]))

/-- A chain may end with its last arm that has a condition. -/
theorem Tidy.ifChain {arms : List Branch} (h : Branch.Tidy arms) (hne : arms ≠ []) :
    (Stmt.ifChain arms).skeleton.Tidy := by
  refine ⟨⟨Branch.outlineAll (fun _ => ()) arms, none, ?_, h.conditional, by simp⟩, h.bodies⟩
  obtain ⟨⟨cond, body⟩, rest, rfl⟩ := List.exists_cons_of_ne_nil hne
  simp [Branch.outlineAll]

/-- It may end with one more arm that has none. -/
theorem Tidy.ifChain_else {arms : List Branch} (h : Branch.Tidy arms) (hne : arms ≠ [])
    {body : List Stmt} (hbody : Stmt.TidyAll body) :
    (Stmt.ifChain (arms ++ [⟨none, body⟩])).skeleton.Tidy := by
  have hout : Branch.outlineAll (fun _ => ()) (arms ++ [⟨none, body⟩]) =
      Branch.outlineAll (fun _ => ()) arms ++ [⟨none, Stmt.outlineAll (fun _ => ()) body⟩] :=
    Branch.outlineAll_append ..
  refine ⟨⟨Branch.outlineAll (fun _ => ()) arms, some _, ?_, h.conditional, hout⟩, ?_⟩
  · obtain ⟨⟨cond, body⟩, rest, rfl⟩ := List.exists_cons_of_ne_nil hne
    simp [Branch.outlineAll]
  · rw [hout, Outline.Arm.tidyAll_append]
    exact ⟨h.bodies, hbody, trivial⟩

end Branch

namespace SwitchCase

theorem Tidy.append {as bs : List SwitchCase} (ha : SwitchCase.Tidy as) (hb : SwitchCase.Tidy bs) :
    SwitchCase.Tidy (as ++ bs) := by
  unfold SwitchCase.Tidy
  rw [SwitchCase.outlineAll_append, Outline.Case.tidyAll_append]
  exact ⟨ha, hb⟩

theorem tidy_of_forall {cases : List SwitchCase} (h : ∀ arm ∈ cases, SwitchCase.Tidy [arm]) :
    SwitchCase.Tidy cases := by
  induction cases with
  | nil => trivial
  | cons arm rest ih => exact (h arm (by simp)).append (ih fun other ho => h other (by simp [ho]))

end SwitchCase

namespace Session

/-! ## Statement builders -/

section

variable {c : Nat}

theorem branch_keeps {arm : Operand × List Statement} (h : ∀ st ∈ arm.2, st.stmt.skeleton.Tidy) :
    Keeps (branch c arm) fun b => Branch.Tidy [b] :=
  (attach_keeps arm.1).bind fun cond _ => (absorb_keeps h).bind fun _ hbody =>
    .pure (Branch.tidy_singleton cond hbody)

theorem switchCase_keeps {arm : Operand × List Statement}
    (h : ∀ st ∈ arm.2, st.stmt.skeleton.Tidy) :
    Keeps (switchCase c arm) fun b => SwitchCase.Tidy [b] :=
  (attach_keeps arm.1).bind fun _ _ => (absorb_keeps h).bind fun _ hbody => .pure ⟨hbody, trivial⟩

theorem forLoop_keeps (init cond step : Operand) {body : List Statement}
    (h : ∀ st ∈ body, st.stmt.skeleton.Tidy) :
    Keeps (forLoop c init cond step body) fun st => st.stmt.skeleton.Tidy :=
  (attach_keeps init).bind fun _ _ => (attach_keeps cond).bind fun _ _ =>
    (attach_keeps step).bind fun _ _ => (absorb_keeps h).bind fun _ hbody => .pure hbody

theorem whileLoop_keeps (cond : Operand) {body : List Statement}
    (h : ∀ st ∈ body, st.stmt.skeleton.Tidy) :
    Keeps (whileLoop c cond body) fun st => st.stmt.skeleton.Tidy :=
  (attach_keeps cond).bind fun _ _ => (absorb_keeps h).bind fun _ hbody => .pure hbody

theorem ifChain_keeps {first : Operand × List Statement}
    {others : List (Operand × List Statement)} {otherwise : Option (List Statement)}
    (harms : ∀ arm ∈ first :: others, ∀ st ∈ arm.2, st.stmt.skeleton.Tidy)
    (hother : ∀ body, otherwise = some body → ∀ st ∈ body, st.stmt.skeleton.Tidy) :
    Keeps (ifChain c first others otherwise) fun st => st.stmt.skeleton.Tidy := by
  have hbranches := Keeps.mapM fun arm ha => branch_keeps (c := c) (harms arm ha)
  refine hbranches.bind fun arms ⟨hlen, harms⟩ => ?_
  have htidy : Branch.Tidy arms := Branch.tidy_of_forall harms
  have hne : arms ≠ [] := by
    rintro rfl
    simp at hlen
  cases otherwise with
  | none => exact .pure (htidy.ifChain hne)
  | some body =>
    exact (absorb_keeps (hother body rfl)).bind fun _ h => .pure (htidy.ifChain_else hne h)

theorem switch_keeps (subject : Operand) {cases : List (Operand × List Statement)}
    {default : Option (List Statement)}
    (harms : ∀ arm ∈ cases, ∀ st ∈ arm.2, st.stmt.skeleton.Tidy)
    (hdefault : ∀ body, default = some body → ∀ st ∈ body, st.stmt.skeleton.Tidy) :
    Keeps (switch c subject cases default) fun st => st.stmt.skeleton.Tidy := by
  have hcases := Keeps.mapM fun arm ha => switchCase_keeps (c := c) (harms arm ha)
  refine (attach_keeps subject).bind fun _ _ => hcases.bind fun arms harms => ?_
  have htidy : SwitchCase.Tidy arms := SwitchCase.tidy_of_forall harms.2
  cases default with
  | none => exact .pure htidy
  | some body =>
    exact (absorb_keeps (hdefault body rfl)).bind fun _ hbody => .pure ⟨htidy, hbody⟩

theorem function_keeps (signature : Signature) (params : List Slot) {body : List Statement}
    (h : ∀ st ∈ body, st.stmt.skeleton.Tidy) :
    Keeps (function c signature params body) fun st => st.stmt.skeleton.Tidy :=
  (absorb_keeps h).bind fun _ hbody => .pure hbody

/-- An operator that takes in its right operand and appends a node that is no leaf. -/
theorem attach_alloc_keeps (b : Operand) {node : NodeId → Node}
    (leafless : ∀ id, (node id).content? = none) :
    Keeps (attach c b >>= fun id => alloc c (node id)) fun _ => True :=
  (attach_keeps b).bind fun id _ => alloc_keeps (by simp [leafless id])

theorem binaryLiteral_keeps (op : BinaryOp) (a : Literal) (b : Handle) :
    Keeps (binaryLiteral op a b) fun _ => True :=
  (alloc_keeps (by rintro v ⟨⟩; trivial)).bind fun _ _ => alloc_keeps (by simp [Node.content?])

theorem call_keeps (callee : Signature) (args : List Operand) :
    Keeps (call c callee args) fun _ => True := by
  refine (Keeps.mapM fun o _ => attach_keeps o).bind fun ids _ => ?_
  refine (Keeps.onContext (q := fun _ => True) fun ctx hctx => ⟨hctx, trivial⟩).bind fun range _ => ?_
  cases range with
  | error e => exact .pure trivial
  | ok range => exact (alloc_keeps (by simp [Node.content?])).bind fun _ _ => .pure trivial

end

end Session

/-! ## Workspaces -/

/-- Every statement in the answer is tidy, and so is what will become one. -/
def Answer.Tidy : Answer → Prop
  | .statement st => st.stmt.skeleton.Tidy
  | .chain _ arms => Branch.Tidy arms ∧ arms ≠ []
  | .switch _ _ cases => SwitchCase.Tidy cases
  | _ => True

namespace Workspace

structure Tidy (w : Workspace) : Prop where
  proper : w.session.Proper
  answers : ∀ answer ∈ w.answers, answer.Tidy

section

variable {w : Workspace} (hw : w.Tidy)
include hw

theorem statement?_tidy {label : Nat} {st : Statement} (h : w.statement? label = some st) :
    st.stmt.skeleton.Tidy := by
  unfold statement? at h
  split at h
  · rename_i a ha
    obtain rfl := Option.some.inj h
    exact hw.answers _ (List.mem_of_getElem? ha)
  · obtain rfl := Option.some.inj h
    trivial
  · simp at h

theorem body?_tidy {labels : List Nat} {body : List Statement} (h : w.body? labels = some body) :
    ∀ st ∈ body, st.stmt.skeleton.Tidy := by
  intro st hst
  obtain ⟨label, -, hl⟩ := exists_of_mem_mapM h hst
  exact statement?_tidy hw hl

theorem arm?_tidy {arm : Arm} {a : Operand × List Statement} (h : w.arm? arm = some a) :
    ∀ st ∈ a.2, st.stmt.skeleton.Tidy := by
  simp only [arm?, Option.bind_eq_bind, Option.bind_eq_some_iff, Option.pure_def,
    Option.some.injEq] at h
  obtain ⟨cond, -, body, hbody, rfl⟩ := h
  exact body?_tidy hw hbody

theorem arms_tidy {arms : List Arm} {as : List (Operand × List Statement)}
    (h : arms.mapM w.arm? = some as) : ∀ a ∈ as, ∀ st ∈ a.2, st.stmt.skeleton.Tidy := by
  intro a ha
  obtain ⟨arm, -, harm⟩ := exists_of_mem_mapM h ha
  exact arm?_tidy hw harm

theorem last?_tidy {labels : Option (List Nat)} {last : Option (List Statement)}
    (h : w.last? labels = some last) :
    ∀ body, last = some body → ∀ st ∈ body, st.stmt.skeleton.Tidy := by
  rintro body rfl
  cases labels with
  | none => simp [last?] at h
  | some labels =>
    obtain ⟨body', hb, heq⟩ := Option.map_eq_some_iff.mp h
    obtain rfl := Option.some.inj heq
    exact body?_tidy hw hb

theorem chain?_tidy {label c : Nat} {arms : List Branch} (h : w.chain? label = some (c, arms)) :
    Branch.Tidy arms ∧ arms ≠ [] := by
  unfold chain? at h
  split at h
  · rename_i c' arms' ha
    obtain ⟨rfl, rfl⟩ := Prod.mk.inj (Option.some.inj h)
    exact hw.answers _ (List.mem_of_getElem? ha)
  · simp at h

theorem switch?_tidy {label c : Nat} {subject : NodeId} {cases : List SwitchCase}
    (h : w.switch? label = some (c, subject, cases)) : SwitchCase.Tidy cases := by
  unfold switch? at h
  split at h
  · rename_i c' subject' cases' ha
    obtain ⟨rfl, hl⟩ := Prod.mk.inj (Option.some.inj h)
    obtain ⟨rfl, rfl⟩ := Prod.mk.inj hl
    exact hw.answers _ (List.mem_of_getElem? ha)
  · simp at h

end

open Session

theorem extendChain_keeps {c : Nat} {arms : List Branch} (harms : Branch.Tidy arms)
    {arm : Operand × List Statement} (harm : ∀ st ∈ arm.2, st.stmt.skeleton.Tidy) :
    Keeps (extendChain c arms arm) Answer.Tidy :=
  (branch_keeps harm).bind fun _ hb => .pure ⟨harms.append hb, by simp⟩

theorem finishChain_keeps {c : Nat} {arms : List Branch} (harms : Branch.Tidy arms ∧ arms ≠ [])
    {last : Option (List Statement)}
    (hlast : ∀ body, last = some body → ∀ st ∈ body, st.stmt.skeleton.Tidy) :
    Keeps (finishChain c arms last) Answer.Tidy := by
  cases last with
  | none => exact .pure (harms.1.ifChain harms.2)
  | some body =>
    exact (absorb_keeps (hlast body rfl)).bind fun _ hbody =>
      .pure (harms.1.ifChain_else harms.2 hbody)

theorem extendSwitch_keeps {c : Nat} {subject : NodeId} {cases : List SwitchCase}
    (hcases : SwitchCase.Tidy cases) {arm : Operand × List Statement}
    (harm : ∀ st ∈ arm.2, st.stmt.skeleton.Tidy) :
    Keeps (extendSwitch c subject cases arm) Answer.Tidy :=
  (switchCase_keeps harm).bind fun _ hb => .pure (hcases.append hb)

theorem finishSwitch_keeps {c : Nat} {subject : NodeId} {cases : List SwitchCase}
    (hcases : SwitchCase.Tidy cases) {last : Option (List Statement)}
    (hlast : ∀ body, last = some body → ∀ st ∈ body, st.stmt.skeleton.Tidy) :
    Keeps (finishSwitch c subject cases last) Answer.Tidy := by
  cases last with
  | none => exact .pure hcases
  | some body =>
    exact (absorb_keeps (hlast body rfl)).bind fun _ hbody => .pure ⟨hcases, hbody⟩

/-- Whatever is answered with by `f` is no statement. -/
theorem keeps_of_trivial {α : Type} {m : Build α} (h : Keeps m fun _ => True) {f : α → Answer}
    (hf : ∀ a, (f a).Tidy) : Keeps (f <$> m) Answer.Tidy :=
  fun s hs => ⟨(h s hs).1, hf _⟩

/-- Every action keeps the session proper and answers tidily. -/
theorem build?_keeps {w : Workspace} (hw : w.Tidy) {action : Action} {build : Build Answer}
    (hbuild : w.build? action = some build) : Keeps build Answer.Tidy := by
  cases action with
  | comment text =>
    obtain rfl := Option.some.inj hbuild
    exact .pure trivial
  | includeFile path =>
    cases path <;>
    · obtain rfl := Option.some.inj hbuild
      exact .pure trivial
  | intern c name shape =>
    obtain ⟨-, h⟩ := bind_context? hbuild
    obtain rfl := Option.some.inj h
    exact keeps_of_trivial (intern_keeps name shape) fun _ => trivial
  | tryIntern c name shape =>
    obtain ⟨-, h⟩ := bind_context? hbuild
    obtain rfl := Option.some.inj h
    exact keeps_of_trivial (tryIntern_keeps name shape) fun r => by cases r <;> trivial
  | lookup c name =>
    obtain ⟨-, h⟩ := bind_context? hbuild
    obtain rfl := Option.some.inj h
    exact .pure (by cases w.session.lookup c name <;> trivial)
  | update c a change =>
    obtain ⟨-, h⟩ := bind_context? hbuild
    obtain ⟨a, -, h⟩ := Option.bind_eq_some_iff.mp h
    obtain rfl := Option.some.inj h
    exact keeps_of_trivial (modifyVariable_keeps a change) fun r => by cases r <;> trivial
  | literal c value =>
    obtain ⟨-, h⟩ := bind_context? hbuild
    obtain rfl := Option.some.inj h
    exact keeps_of_trivial (alloc_keeps (by rintro v ⟨⟩; trivial)) fun _ => trivial
  | slot c slot =>
    obtain ⟨-, h⟩ := bind_context? hbuild
    obtain rfl := Option.some.inj h
    exact keeps_of_trivial (alloc_keeps (by rintro v ⟨⟩; trivial)) fun _ => trivial
  | call c callee args =>
    obtain ⟨-, h⟩ := bind_context? hbuild
    obtain ⟨args, -, h⟩ := Option.bind_eq_some_iff.mp h
    obtain rfl := Option.some.inj h
    exact keeps_of_trivial (call_keeps callee args) fun r => by cases r <;> trivial
  | declare a =>
    obtain ⟨a, -, h⟩ := Option.bind_eq_some_iff.mp hbuild
    obtain rfl := Option.some.inj h
    exact keeps_of_trivial (alloc_keeps (by simp [Node.content?])) fun _ => trivial
  | unary op a =>
    obtain ⟨a, -, h⟩ := Option.bind_eq_some_iff.mp hbuild
    obtain rfl := Option.some.inj h
    exact keeps_of_trivial (alloc_keeps (by simp [Node.content?])) fun _ => trivial
  | binary op a b =>
    obtain ⟨a, -, h⟩ := Option.bind_eq_some_iff.mp hbuild
    obtain ⟨b, -, h⟩ := Option.bind_eq_some_iff.mp h
    obtain rfl := Option.some.inj h
    exact keeps_of_trivial (attach_alloc_keeps b fun _ => rfl) fun _ => trivial
  | binaryLiteral op a b =>
    obtain ⟨b, -, h⟩ := Option.bind_eq_some_iff.mp hbuild
    obtain rfl := Option.some.inj h
    exact keeps_of_trivial (binaryLiteral_keeps op a b) fun _ => trivial
  | assign a b =>
    obtain ⟨a, -, h⟩ := Option.bind_eq_some_iff.mp hbuild
    obtain ⟨b, -, h⟩ := Option.bind_eq_some_iff.mp h
    obtain rfl := Option.some.inj h
    exact keeps_of_trivial (attach_alloc_keeps b fun _ => rfl) fun _ => trivial
  | index a b =>
    obtain ⟨a, -, h⟩ := Option.bind_eq_some_iff.mp hbuild
    obtain ⟨b, -, h⟩ := Option.bind_eq_some_iff.mp h
    obtain rfl := Option.some.inj h
    exact keeps_of_trivial (attach_alloc_keeps b fun _ => rfl) fun _ => trivial
  | exprStatement a =>
    obtain ⟨a, -, h⟩ := Option.bind_eq_some_iff.mp hbuild
    obtain rfl := Option.some.inj h
    exact .pure trivial
  | forLoop c init cond step body =>
    obtain ⟨-, h⟩ := bind_context? hbuild
    obtain ⟨init, -, h⟩ := Option.bind_eq_some_iff.mp h
    obtain ⟨cond, -, h⟩ := Option.bind_eq_some_iff.mp h
    obtain ⟨step, -, h⟩ := Option.bind_eq_some_iff.mp h
    obtain ⟨body, hbody, h⟩ := Option.bind_eq_some_iff.mp h
    obtain rfl := Option.some.inj h
    exact (forLoop_keeps init cond step (body?_tidy hw hbody)).map
  | whileLoop c cond body =>
    obtain ⟨-, h⟩ := bind_context? hbuild
    obtain ⟨cond, -, h⟩ := Option.bind_eq_some_iff.mp h
    obtain ⟨body, hbody, h⟩ := Option.bind_eq_some_iff.mp h
    obtain rfl := Option.some.inj h
    exact (whileLoop_keeps cond (body?_tidy hw hbody)).map
  | ifChain c first others otherwise =>
    obtain ⟨-, h⟩ := bind_context? hbuild
    obtain ⟨first, hfirst, h⟩ := Option.bind_eq_some_iff.mp h
    obtain ⟨others, hothers, h⟩ := Option.bind_eq_some_iff.mp h
    obtain ⟨last, hlast, h⟩ := Option.bind_eq_some_iff.mp h
    obtain rfl := Option.some.inj h
    refine (ifChain_keeps (fun arm harm => ?_) (last?_tidy hw hlast)).map
    rcases List.mem_cons.mp harm with rfl | harm
    · exact arm?_tidy hw hfirst
    · exact arms_tidy hw hothers arm harm
  | openChain c first =>
    obtain ⟨-, h⟩ := bind_context? hbuild
    obtain ⟨first, hfirst, h⟩ := Option.bind_eq_some_iff.mp h
    obtain rfl := Option.some.inj h
    exact extendChain_keeps Branch.tidy_nil (arm?_tidy hw hfirst)
  | elseIf chain arm =>
    obtain ⟨chain, hchain, h⟩ := Option.bind_eq_some_iff.mp hbuild
    obtain ⟨arm, harm, h⟩ := Option.bind_eq_some_iff.mp h
    obtain rfl := Option.some.inj h
    exact extendChain_keeps (chain?_tidy hw hchain).1 (arm?_tidy hw harm)
  | closeChain chain otherwise =>
    obtain ⟨chain, hchain, h⟩ := Option.bind_eq_some_iff.mp hbuild
    obtain ⟨last, hlast, h⟩ := Option.bind_eq_some_iff.mp h
    obtain rfl := Option.some.inj h
    exact finishChain_keeps (chain?_tidy hw hchain) (last?_tidy hw hlast)
  | switch c subject cases default =>
    obtain ⟨-, h⟩ := bind_context? hbuild
    obtain ⟨subject, -, h⟩ := Option.bind_eq_some_iff.mp h
    obtain ⟨cases, hcases, h⟩ := Option.bind_eq_some_iff.mp h
    obtain ⟨last, hlast, h⟩ := Option.bind_eq_some_iff.mp h
    obtain rfl := Option.some.inj h
    exact (switch_keeps subject (arms_tidy hw hcases) (last?_tidy hw hlast)).map
  | openSwitch c subject =>
    obtain ⟨-, h⟩ := bind_context? hbuild
    obtain ⟨subject, -, h⟩ := Option.bind_eq_some_iff.mp h
    obtain rfl := Option.some.inj h
    exact keeps_of_trivial (attach_keeps subject) fun _ => trivial
  | addCase switch arm =>
    obtain ⟨switch, hswitch, h⟩ := Option.bind_eq_some_iff.mp hbuild
    obtain ⟨arm, harm, h⟩ := Option.bind_eq_some_iff.mp h
    obtain rfl := Option.some.inj h
    exact extendSwitch_keeps (switch?_tidy hw hswitch) (arm?_tidy hw harm)
  | closeSwitch switch default =>
    obtain ⟨switch, hswitch, h⟩ := Option.bind_eq_some_iff.mp hbuild
    obtain ⟨last, hlast, h⟩ := Option.bind_eq_some_iff.mp h
    obtain rfl := Option.some.inj h
    exact finishSwitch_keeps (switch?_tidy hw hswitch) (last?_tidy hw hlast)
  | function c signature params body =>
    obtain ⟨-, h⟩ := bind_context? hbuild
    obtain ⟨body, hbody, h⟩ := Option.bind_eq_some_iff.mp h
    obtain rfl := Option.some.inj h
    exact (function_keeps signature params (body?_tidy hw hbody)).map
  | kernel c body options =>
    obtain ⟨-, h⟩ := bind_context? hbuild
    obtain ⟨body, hbody, h⟩ := Option.bind_eq_some_iff.mp h
    obtain rfl := Option.some.inj h
    refine keeps_of_trivial ((absorb_keeps (body?_tidy hw hbody)).bind fun stmts _ => ?_) fun _ => trivial
    exact fun s hs => ⟨hs, trivial⟩

theorem step_tidy {w : Workspace} (hw : w.Tidy) (action : Action) : (w.step action).Tidy := by
  -- the answer is added to tidy ones
  have hadd : ∀ {s : Session} {answer : Answer}, s.Proper → answer.Tidy →
      (⟨s, w.answers ++ [answer]⟩ : Workspace).Tidy := by
    intro s answer hs hanswer
    refine ⟨hs, fun other ho => ?_⟩
    rcases List.mem_append.mp ho with ho | ho
    · exact hw.answers other ho
    · exact List.mem_singleton.mp ho ▸ hanswer
  unfold step
  split
  · exact hadd hw.proper trivial
  · rename_i build hbuild
    obtain ⟨hproper, hanswer⟩ := build?_keeps hw hbuild w.session hw.proper
    exact hadd hproper hanswer

theorem run_tidy {w : Workspace} (hw : w.Tidy) (actions : List Action) : (w.run actions).Tidy := by
  induction actions generalizing w with
  | nil => exact hw
  | cons action rest ih => exact ih (step_tidy hw action)

theorem tidy_new (role : Role) (provenances : List String) : (new role provenances).Tidy := by
  refine ⟨fun c => ?_, by simp [new]⟩
  obtain ⟨provenance, heq⟩ := context_new role provenances c
  exact heq ▸ Context.proper_new provenance

end Workspace

end KernelForge
