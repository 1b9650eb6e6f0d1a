import KernelForge.Proofs.Session.Operations
import KernelForge.Proofs.Session.Workspace

/-!
# Steps of a workspace

A workspace is valid when its contexts are sound and all its answers are there. `step_cases` says
all that an action can do to a valid workspace: it lets the contexts grow, or it is an update that
puts one named variable in the place of another.
-/
namespace KernelForge

namespace Session

/-- What is in the answer is there. -/
def HoldsAnswer (s : Session) : Answer → Prop
  | .handle h => s.Holds h.context [h.node]
  | .statement st => s.HoldsStatement st
  | .chain c arms => s.Holds c (Branch.rootsAll arms)
  | .switch c subject cases => s.Holds c (subject :: SwitchCase.rootsAll cases)
  | _ => True

theorem HoldsAnswer.mono {s t : Session} (h : s.Grows t) {answer : Answer}
    (ha : s.HoldsAnswer answer) : t.HoldsAnswer answer := by
  cases answer with
  | handle a => exact Holds.mono h ha
  | statement st => exact HoldsStatement.mono h ha
  | chain c arms => exact Holds.mono h ha
  | switch c subject cases => exact Holds.mono h ha
  | _ => trivial

/-- Puts another variable in the place of the one behind a handle. -/
def overwrite (s : Session) (h : Handle) (v : Variable) : Session :=
  s.replace h.context { s.context h.context with
    arena := (s.context h.context).arena.overwrite h.node (.leaf v) }

end Session

namespace Workspace

structure Valid (w : Workspace) : Prop where
  sound : w.session.Sound
  holds : ∀ answer ∈ w.answers, w.session.HoldsAnswer answer

section

variable {w : Workspace}

theorem context?_lt {c d : Nat} (h : w.context? c = some d) :
    d = c ∧ c < w.session.contexts.size := by
  unfold context? at h
  split_ifs at h with hc
  exact ⟨(Option.some.inj h).symm, hc⟩

/-- What is built in a context is built in one that is there. -/
theorem bind_context? {α : Type} {c : Nat} {f : Nat → Option α} {a : α}
    (h : (w.context? c).bind f = some a) : c < w.session.contexts.size ∧ f c = some a := by
  obtain ⟨d, hd, ha⟩ := Option.bind_eq_some_iff.mp h
  obtain ⟨rfl, hc⟩ := context?_lt hd
  exact ⟨hc, ha⟩

theorem handle?_holds (hw : w.Valid) {label : Nat} {h : Handle} (hl : w.handle? label = some h) :
    w.session.Holds h.context [h.node] := by
  unfold handle? at hl
  split at hl
  · rename_i a ha
    obtain rfl := Option.some.inj hl
    exact hw.holds _ (List.mem_of_getElem? ha)
  · simp at hl

theorem operand?_holds (hw : w.Valid) {arg : Argument} {o : Operand}
    (ho : w.operand? arg = some o) : w.session.HoldsOperand o := by
  cases arg with
  | literal v =>
    obtain rfl := Option.some.inj ho
    trivial
  | answer label =>
    obtain ⟨h, hl, rfl⟩ := Option.map_eq_some_iff.mp ho
    exact handle?_holds hw hl

theorem statement?_holds (hw : w.Valid) {label : Nat} {st : Statement}
    (hl : w.statement? label = some st) : w.session.HoldsStatement st := by
  unfold statement? at hl
  split at hl
  · rename_i a ha
    obtain rfl := Option.some.inj hl
    exact hw.holds _ (List.mem_of_getElem? ha)
  · rename_i a ha
    obtain rfl := Option.some.inj hl
    exact hw.holds _ (List.mem_of_getElem? ha)
  · simp at hl

theorem exists_of_mem_mapM {α β : Type} {f : α → Option β} {xs : List α} {ys : List β}
    (h : xs.mapM f = some ys) {y : β} (hy : y ∈ ys) : ∃ x ∈ xs, f x = some y := by
  induction xs generalizing ys with
  | nil =>
    obtain rfl : [] = ys := by simpa using h
    simp at hy
  | cons x rest ih =>
    obtain ⟨z, hz, zs, hzs, rfl⟩ : ∃ z, f x = some z ∧ ∃ zs, rest.mapM f = some zs ∧ z :: zs = ys := by
      simpa [List.mapM_cons, Option.bind_eq_some_iff] using h
    rcases List.mem_cons.mp hy with rfl | hy
    · exact ⟨x, by simp, hz⟩
    · obtain ⟨x', hx', hfx⟩ := ih hzs hy
      exact ⟨x', by simp [hx'], hfx⟩

theorem body?_holds (hw : w.Valid) {labels : List Nat} {body : List Statement}
    (hb : w.body? labels = some body) : ∀ st ∈ body, w.session.HoldsStatement st := by
  intro st hst
  obtain ⟨label, -, hl⟩ := exists_of_mem_mapM hb hst
  exact statement?_holds hw hl

theorem operands_holds (hw : w.Valid) {args : List Argument} {operands : List Operand}
    (ha : args.mapM w.operand? = some operands) : ∀ o ∈ operands, w.session.HoldsOperand o := by
  intro o ho
  obtain ⟨arg, -, hl⟩ := exists_of_mem_mapM ha ho
  exact operand?_holds hw hl

theorem arm?_holds (hw : w.Valid) {arm : Arm} {a : Operand × List Statement}
    (ha : w.arm? arm = some a) :
    w.session.HoldsOperand a.1 ∧ ∀ st ∈ a.2, w.session.HoldsStatement st := by
  simp only [arm?, Option.bind_eq_bind, Option.bind_eq_some_iff, Option.pure_def,
    Option.some.injEq] at ha
  obtain ⟨cond, hcond, body, hbody, rfl⟩ := ha
  exact ⟨operand?_holds hw hcond, body?_holds hw hbody⟩

theorem arms_holds (hw : w.Valid) {arms : List Arm} {as : List (Operand × List Statement)}
    (ha : arms.mapM w.arm? = some as) :
    ∀ a ∈ as, w.session.HoldsOperand a.1 ∧ ∀ st ∈ a.2, w.session.HoldsStatement st := by
  intro a hmem
  obtain ⟨arm, -, hl⟩ := exists_of_mem_mapM ha hmem
  exact arm?_holds hw hl

theorem last?_holds (hw : w.Valid) {labels : Option (List Nat)} {last : Option (List Statement)}
    (hl : w.last? labels = some last) :
    ∀ body, last = some body → ∀ st ∈ body, w.session.HoldsStatement st := by
  rintro body rfl
  cases labels with
  | none => simp [last?] at hl
  | some labels =>
    obtain ⟨body', hb, heq⟩ := Option.map_eq_some_iff.mp hl
    obtain rfl := Option.some.inj heq
    exact body?_holds hw hb

theorem chain?_holds (hw : w.Valid) {label c : Nat} {arms : List Branch}
    (hl : w.chain? label = some (c, arms)) : w.session.Holds c (Branch.rootsAll arms) := by
  unfold chain? at hl
  split at hl
  · rename_i c' arms' ha
    obtain ⟨rfl, rfl⟩ := Prod.mk.inj (Option.some.inj hl)
    exact hw.holds _ (List.mem_of_getElem? ha)
  · simp at hl

theorem switch?_holds (hw : w.Valid) {label c : Nat} {subject : NodeId} {cases : List SwitchCase}
    (hl : w.switch? label = some (c, subject, cases)) :
    w.session.Holds c (subject :: SwitchCase.rootsAll cases) := by
  unfold switch? at hl
  split at hl
  · rename_i c' subject' cases' ha
    obtain ⟨rfl, h⟩ := Prod.mk.inj (Option.some.inj hl)
    obtain ⟨rfl, rfl⟩ := Prod.mk.inj h
    exact hw.holds _ (List.mem_of_getElem? ha)
  · simp at hl

/-! ## What an action does -/

theorem handle_yields {s : Session} {c : Nat} {m : Build Handle}
    (h : s.Yields m fun t a => a.context = c ∧ t.Holds c [a.node]) :
    s.Yields (Answer.handle <$> m) fun t answer => t.HoldsAnswer answer :=
  (h.imp fun t a _ ha => by obtain ⟨rfl, ha⟩ := ha; exact ha).map

theorem statement_yields {s : Session} {m : Build Statement}
    (h : s.Yields m fun t st => t.HoldsStatement st) :
    s.Yields (Answer.statement <$> m) fun t answer => t.HoldsAnswer answer := h

theorem extendChain_yields {s : Session} (hs : s.Sound) {c : Nat} {arms : List Branch}
    (harms : s.Holds c (Branch.rootsAll arms)) {arm : Operand × List Statement}
    (harm : s.HoldsOperand arm.1 ∧ ∀ st ∈ arm.2, s.HoldsStatement st) :
    s.Yields (extendChain c arms arm) fun t answer => t.HoldsAnswer answer := by
  refine (Session.branch_yields hs harms.1 harm.1 harm.2).bind fun t b hst hb => .pure ?_
  have hroots : t.Holds c (Branch.rootsAll (arms ++ [b])) := by
    rw [Branch.rootsAll_append, Session.holds_append]
    exact ⟨harms.mono hst, hb⟩
  exact hroots

theorem finishChain_yields {s : Session} (hs : s.Sound) {c : Nat} {arms : List Branch}
    (harms : s.Holds c (Branch.rootsAll arms)) {last : Option (List Statement)}
    (hlast : ∀ body, last = some body → ∀ st ∈ body, s.HoldsStatement st) :
    s.Yields (finishChain c arms last) fun t answer => t.HoldsAnswer answer := by
  cases last with
  | none => exact .pure harms
  | some body =>
    exact (Session.absorb_else_yields hs harms (hlast body rfl)).bind fun _ _ _ h => .pure h

theorem extendSwitch_yields {s : Session} (hs : s.Sound) {c : Nat} {subject : NodeId}
    {cases : List SwitchCase} (hcases : s.Holds c (subject :: SwitchCase.rootsAll cases))
    {arm : Operand × List Statement}
    (harm : s.HoldsOperand arm.1 ∧ ∀ st ∈ arm.2, s.HoldsStatement st) :
    s.Yields (extendSwitch c subject cases arm) fun t answer => t.HoldsAnswer answer := by
  refine (Session.switchCase_yields hs hcases.1 harm.1 harm.2).bind fun t b hst hb => .pure ?_
  have hroots : t.Holds c (subject :: SwitchCase.rootsAll (cases ++ [b])) := by
    rw [SwitchCase.rootsAll_append, ← List.cons_append, Session.holds_append]
    exact ⟨hcases.mono hst, hb⟩
  exact hroots

theorem finishSwitch_yields {s : Session} (hs : s.Sound) {c : Nat} {subject : NodeId}
    {cases : List SwitchCase} (hcases : s.Holds c (subject :: SwitchCase.rootsAll cases))
    {last : Option (List Statement)}
    (hlast : ∀ body, last = some body → ∀ st ∈ body, s.HoldsStatement st) :
    s.Yields (finishSwitch c subject cases last) fun t answer => t.HoldsAnswer answer := by
  cases last with
  | none => exact .pure hcases
  | some body =>
    exact (Session.absorb_default_yields hs hcases (hlast body rfl)).bind fun _ _ _ h => .pure h

/-- Every action but an update lets the contexts grow, and its answer is there. -/
theorem build?_yields (hw : w.Valid) {action : Action}
    (hupdate : ∀ c a change, action ≠ .update c a change) {build : Build Answer}
    (hbuild : w.build? action = some build) :
    w.session.Yields build fun t answer => t.HoldsAnswer answer := by
  have hs := hw.sound
  cases action with
  | update c a change => exact absurd rfl (hupdate c a change)
  | comment text =>
    obtain rfl := Option.some.inj hbuild
    exact .pure rfl
  | includeFile path =>
    cases path <;>
    · obtain rfl := Option.some.inj hbuild
      exact .pure rfl
  | intern c name shape =>
    obtain ⟨hc, h⟩ := bind_context? hbuild
    obtain rfl := Option.some.inj h
    exact handle_yields (Session.intern_yields hs hc name shape)
  | tryIntern c name shape =>
    obtain ⟨hc, h⟩ := bind_context? hbuild
    obtain rfl := Option.some.inj h
    refine Session.Yields.map ((Session.tryIntern_yields hs hc name shape).imp fun t r _ hr => ?_)
    cases r with
    | error e => trivial
    | ok a =>
      obtain ⟨rfl, ha⟩ := hr a rfl
      exact ha
  | lookup c name =>
    obtain ⟨hc, h⟩ := bind_context? hbuild
    obtain rfl := Option.some.inj h
    cases hl : w.session.lookup _ name with
    | none => exact .pure trivial
    | some a =>
      obtain ⟨rfl, ha⟩ := Session.lookup_holds hs hc hl
      exact .pure ha
  | literal c value =>
    obtain ⟨hc, h⟩ := bind_context? hbuild
    obtain rfl := Option.some.inj h
    exact handle_yields (Session.literal_yields hc value)
  | slot c slot =>
    obtain ⟨hc, h⟩ := bind_context? hbuild
    obtain rfl := Option.some.inj h
    exact handle_yields (Session.slot_yields hc slot)
  | call c callee args =>
    obtain ⟨hc, h⟩ := bind_context? hbuild
    obtain ⟨args, hargs, h⟩ := Option.bind_eq_some_iff.mp h
    obtain rfl := Option.some.inj h
    refine Session.Yields.map ((Session.call_yields hs hc callee (operands_holds hw hargs)).imp ?_)
    intro t r _ hr
    cases r with
    | error e => trivial
    | ok a =>
      obtain ⟨rfl, ha, -⟩ := hr.1 a rfl
      exact ha
  | declare a =>
    obtain ⟨a, ha, h⟩ := Option.bind_eq_some_iff.mp hbuild
    obtain rfl := Option.some.inj h
    exact handle_yields (Session.declare_yields (handle?_holds hw ha))
  | unary op a =>
    obtain ⟨a, ha, h⟩ := Option.bind_eq_some_iff.mp hbuild
    obtain rfl := Option.some.inj h
    exact handle_yields (Session.unary_yields op (handle?_holds hw ha))
  | binary op a b =>
    obtain ⟨a, ha, h⟩ := Option.bind_eq_some_iff.mp hbuild
    obtain ⟨b, hb, h⟩ := Option.bind_eq_some_iff.mp h
    obtain rfl := Option.some.inj h
    exact handle_yields (Session.binary_yields hs op (handle?_holds hw ha) (operand?_holds hw hb))
  | binaryLiteral op a b =>
    obtain ⟨b, hb, h⟩ := Option.bind_eq_some_iff.mp hbuild
    obtain rfl := Option.some.inj h
    exact handle_yields (Session.binaryLiteral_yields op a (handle?_holds hw hb))
  | assign a b =>
    obtain ⟨a, ha, h⟩ := Option.bind_eq_some_iff.mp hbuild
    obtain ⟨b, hb, h⟩ := Option.bind_eq_some_iff.mp h
    obtain rfl := Option.some.inj h
    exact handle_yields (Session.assign_yields hs (handle?_holds hw ha) (operand?_holds hw hb))
  | index a b =>
    obtain ⟨a, ha, h⟩ := Option.bind_eq_some_iff.mp hbuild
    obtain ⟨b, hb, h⟩ := Option.bind_eq_some_iff.mp h
    obtain rfl := Option.some.inj h
    exact handle_yields (Session.index_yields hs (handle?_holds hw ha) (operand?_holds hw hb))
  | exprStatement a =>
    obtain ⟨a, ha, h⟩ := Option.bind_eq_some_iff.mp hbuild
    obtain rfl := Option.some.inj h
    exact .pure (handle?_holds hw ha)
  | forLoop c init cond step body =>
    obtain ⟨hc, h⟩ := bind_context? hbuild
    obtain ⟨init, hinit, h⟩ := Option.bind_eq_some_iff.mp h
    obtain ⟨cond, hcond, h⟩ := Option.bind_eq_some_iff.mp h
    obtain ⟨step, hstep, h⟩ := Option.bind_eq_some_iff.mp h
    obtain ⟨body, hbody, h⟩ := Option.bind_eq_some_iff.mp h
    obtain rfl := Option.some.inj h
    exact statement_yields (Session.forLoop_yields hs hc (operand?_holds hw hinit)
      (operand?_holds hw hcond) (operand?_holds hw hstep) (body?_holds hw hbody))
  | whileLoop c cond body =>
    obtain ⟨hc, h⟩ := bind_context? hbuild
    obtain ⟨cond, hcond, h⟩ := Option.bind_eq_some_iff.mp h
    obtain ⟨body, hbody, h⟩ := Option.bind_eq_some_iff.mp h
    obtain rfl := Option.some.inj h
    exact statement_yields
      (Session.whileLoop_yields hs hc (operand?_holds hw hcond) (body?_holds hw hbody))
  | ifChain c first others otherwise =>
    obtain ⟨hc, h⟩ := bind_context? hbuild
    obtain ⟨first, hfirst, h⟩ := Option.bind_eq_some_iff.mp h
    obtain ⟨others, hothers, h⟩ := Option.bind_eq_some_iff.mp h
    obtain ⟨last, hlast, h⟩ := Option.bind_eq_some_iff.mp h
    obtain rfl := Option.some.inj h
    refine statement_yields (Session.ifChain_yields hs hc ?_ (last?_holds hw hlast))
    intro arm harm
    rcases List.mem_cons.mp harm with rfl | harm
    · exact arm?_holds hw hfirst
    · exact arms_holds hw hothers arm harm
  | openChain c first =>
    obtain ⟨hc, h⟩ := bind_context? hbuild
    obtain ⟨first, hfirst, h⟩ := Option.bind_eq_some_iff.mp h
    obtain rfl := Option.some.inj h
    exact extendChain_yields hs ⟨hc, by simp [Branch.rootsAll]⟩ (arm?_holds hw hfirst)
  | elseIf chain arm =>
    obtain ⟨chain, hchain, h⟩ := Option.bind_eq_some_iff.mp hbuild
    obtain ⟨arm, harm, h⟩ := Option.bind_eq_some_iff.mp h
    obtain rfl := Option.some.inj h
    exact extendChain_yields hs (chain?_holds hw hchain) (arm?_holds hw harm)
  | closeChain chain otherwise =>
    obtain ⟨chain, hchain, h⟩ := Option.bind_eq_some_iff.mp hbuild
    obtain ⟨last, hlast, h⟩ := Option.bind_eq_some_iff.mp h
    obtain rfl := Option.some.inj h
    exact finishChain_yields hs (chain?_holds hw hchain) (last?_holds hw hlast)
  | switch c subject cases default =>
    obtain ⟨hc, h⟩ := bind_context? hbuild
    obtain ⟨subject, hsubject, h⟩ := Option.bind_eq_some_iff.mp h
    obtain ⟨cases, hcases, h⟩ := Option.bind_eq_some_iff.mp h
    obtain ⟨last, hlast, h⟩ := Option.bind_eq_some_iff.mp h
    obtain rfl := Option.some.inj h
    exact statement_yields (Session.switch_yields hs hc (operand?_holds hw hsubject)
      (arms_holds hw hcases) (last?_holds hw hlast))
  | openSwitch c subject =>
    obtain ⟨hc, h⟩ := bind_context? hbuild
    obtain ⟨subject, hsubject, h⟩ := Option.bind_eq_some_iff.mp h
    obtain rfl := Option.some.inj h
    exact (Session.attach_yields hs hc (operand?_holds hw hsubject)).map
  | addCase switch arm =>
    obtain ⟨switch, hswitch, h⟩ := Option.bind_eq_some_iff.mp hbuild
    obtain ⟨arm, harm, h⟩ := Option.bind_eq_some_iff.mp h
    obtain rfl := Option.some.inj h
    exact extendSwitch_yields hs (switch?_holds hw hswitch) (arm?_holds hw harm)
  | closeSwitch switch default =>
    obtain ⟨switch, hswitch, h⟩ := Option.bind_eq_some_iff.mp hbuild
    obtain ⟨last, hlast, h⟩ := Option.bind_eq_some_iff.mp h
    obtain rfl := Option.some.inj h
    exact finishSwitch_yields hs (switch?_holds hw hswitch) (last?_holds hw hlast)
  | function c signature params body =>
    obtain ⟨hc, h⟩ := bind_context? hbuild
    obtain ⟨body, hbody, h⟩ := Option.bind_eq_some_iff.mp h
    obtain rfl := Option.some.inj h
    exact statement_yields
      (Session.function_yields hs hc signature params (body?_holds hw hbody))
  | kernel c body options =>
    obtain ⟨hc, h⟩ := bind_context? hbuild
    obtain ⟨body, hbody, h⟩ := Option.bind_eq_some_iff.mp h
    obtain rfl := Option.some.inj h
    refine Session.Yields.map ((Session.absorb_yields hs hc (body?_holds hw hbody)).bind ?_)
    exact fun t stmts _ _ => ⟨.refl t, trivial⟩

end

end Workspace

end KernelForge
