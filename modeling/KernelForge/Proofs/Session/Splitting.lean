import KernelForge.Proofs.Render.Alike
import KernelForge.Proofs.Session.Interpretation

/-!
# Splitting a program over contexts

In which context each step of a program takes place does not matter, as long as the program asks for
one shape under each name and the contexts have no other variables under these names. All answers are
then what they are when the whole program takes place in one new context, and the kernels are the
same.
-/
namespace KernelForge

/-- What an answer says to those who cannot look into contexts. -/
inductive Verdict
  | expr
  | statement
  | chain
  | switch
  | refused (e : SymbolError)
  | tooMany (e : TooManyArguments)
  /-- The text and the misuses of a kernel, or its error without the ids of the context. -/
  | kernel (r : Except RenderError Rendered)
  | nothing

def Answer.verdict : Answer → Verdict
  | .handle _ => .expr
  | .statement _ => .statement
  | .chain .. => .chain
  | .switch .. => .switch
  | .refused e => .refused e
  | .tooMany e => .tooMany e
  | .kernel r => .kernel (outcome (r.map fun k => ⟨k.source, k.diagnostics⟩))
  | .nothing => .nothing

namespace Session

/-- Kernels of one meaning are the same. -/
theorem MeansKernel.verdict_eq {os : List (Outline Term)} {options : RenderOptions}
    {r r' : Except RenderError Kernel} (h : MeansKernel os options r)
    (h' : MeansKernel os options r') : (Answer.kernel r).verdict = (Answer.kernel r').verdict := by
  obtain ⟨a, stmts, hmake, hmeans⟩ := h
  obtain ⟨b, stmts', hmake', hmeans'⟩ := h'
  refine congrArg Verdict.kernel ?_
  rw [hmake.rendered, hmake'.rendered]
  exact hmake.sound.outcome_render_congr hmake'.sound hmake.roots hmake'.roots
    (hmeans.trans hmeans'.symm) options

theorem Means.verdict_eq {p q : Scope} {s t : Session} {x y : Answer} {m : Meaning}
    (hx : s.Means p x m) (hy : t.Means q y m) : x.verdict = y.verdict := by
  cases hx with
  | kernel hr =>
    cases hy with
    | kernel hr' => exact hr.verdict_eq hr'
  | _ => cases hy; rfl

/-- Answers of the same meanings say the same. -/
theorem verdicts_eq {p q : Scope} {s t : Session} {xs ys : List Answer} {env : List Meaning}
    (hxs : List.Forall₂ (s.Means p) xs env) (hys : List.Forall₂ (t.Means q) ys env) :
    xs.map Answer.verdict = ys.map Answer.verdict := by
  induction hxs generalizing ys with
  | nil =>
    cases hys
    rfl
  | cons hx _ ih =>
    cases hys with
    | cons hy hys => rw [List.map_cons, List.map_cons, hx.verdict_eq hy, ih hys]

end Session

namespace Action

/-- The same action in another context. -/
def inContext (c : Nat) : Action → Action
  | .intern _ name shape => .intern c name shape
  | .tryIntern _ name shape => .tryIntern c name shape
  | .lookup _ name => .lookup c name
  | .update _ a change => .update c a change
  | .literal _ v => .literal c v
  | .slot _ s => .slot c s
  | .call _ callee args => .call c callee args
  | .forLoop _ init cond step body => .forLoop c init cond step body
  | .whileLoop _ cond body => .whileLoop c cond body
  | .ifChain _ first others otherwise => .ifChain c first others otherwise
  | .openChain _ first => .openChain c first
  | .switch _ subject cases default => .switch c subject cases default
  | .openSwitch _ subject => .openSwitch c subject
  | .function _ signature params body => .function c signature params body
  | .kernel _ body options => .kernel c body options
  | action => action

@[simp] theorem builds_inContext (c : Nat) (action : Action) :
    (action.inContext c).builds = action.builds := by cases action <;> rfl

@[simp] theorem instance?_inContext (c : Nat) (action : Action) :
    (action.inContext c).instance? = action.instance? := by cases action <;> rfl

theorem home?_inContext (c : Nat) (action : Action) :
    (action.inContext c).home? = action.home?.map fun _ => c := by cases action <;> rfl

end Action

/-- No meaning depends on contexts. -/
theorem Meaning.ofAction_inContext (env : List Meaning) (c : Nat) (action : Action) :
    ofAction env (action.inContext c) = ofAction env action := by cases action <;> rfl

theorem Meaning.ofRun_inContext (env : List Meaning) (c : Nat) (actions : List Action) :
    ofRun env (actions.map (Action.inContext c)) = ofRun env actions := by
  simp only [ofRun, List.foldl_map, ofAction_inContext]

namespace Workspace

/-- A program that can be performed in the contexts of a session. -/
structure Suits (s : Session) (program : List Action) : Prop where
  /-- The program looks up nothing and updates nothing. -/
  builds : ∀ action ∈ program, action.builds
  /-- Each name has one shape. -/
  shapes : ∀ x ∈ program.filterMap Action.instance?, ∀ y ∈ program.filterMap Action.instance?,
    x.1 = y.1 → x.2 = y.2
  /-- The contexts are there. -/
  contexts : ∀ c ∈ program.filterMap Action.home?, c < s.contexts.size
  /-- What the contexts have under the names of the program is what the program asks for. -/
  held : ∀ c ∈ program.filterMap Action.home?, ∀ x ∈ program.filterMap Action.instance?,
    ∀ v ∈ (s.context c).entered? x.1, v = x.2.named x.1

/-- The names of a program, and some contexts for it. -/
def scope (program : List Action) (contexts : Nat → Prop) : Scope where
  shape? name := ((program.filterMap Action.instance?).find? fun x => x.1 = name).map Prod.snd
  contexts := contexts

section

variable {s : Session} {program : List Action} {contexts : Nat → Prop}

theorem mem_of_shape? {name : String} {shape : Shape}
    (h : (scope program contexts).shape? name = some shape) :
    (name, shape) ∈ program.filterMap Action.instance? := by
  obtain ⟨x, hx, rfl⟩ := Option.map_eq_some_iff.mp h
  obtain rfl : x.1 = name := by simpa using List.find?_some hx
  exact List.mem_of_find?_eq_some hx

theorem Suits.shape?_eq (h : Suits s program) {name : String} {shape : Shape}
    (hmem : (name, shape) ∈ program.filterMap Action.instance?) :
    (scope program contexts).shape? name = some shape := by
  obtain ⟨shape', hshape'⟩ : ∃ shape', (scope program contexts).shape? name = some shape' := by
    rw [← Option.isSome_iff_exists, scope, Option.isSome_map, List.find?_isSome]
    exact ⟨_, hmem, by simp⟩
  have heq : shape' = shape := h.shapes _ (mem_of_shape? hshape') _ hmem rfl
  rw [hshape', heq]

/-- The actions of the program build within its scope, if the contexts are part of that. -/
theorem Suits.within (h : Suits s program) {action : Action} (hmem : action ∈ program)
    (hhome : ∀ c, action.home? = some c → contexts c) : action.Within (scope program contexts) where
  builds := h.builds action hmem
  home := hhome
  named _ _ hinstance := h.shape?_eq (List.mem_filterMap.mpr ⟨action, hmem, hinstance⟩)

/-- In one new context the actions build within the same names. -/
theorem Suits.within_inContext (h : Suits s program) (c : Nat) {action : Action}
    (hmem : action ∈ program.map (Action.inContext c)) :
    action.Within (scope program (· = c)) := by
  obtain ⟨original, horiginal, rfl⟩ := List.mem_map.mp hmem
  obtain ⟨hbuilds, -, hnamed⟩ := h.within horiginal fun _ _ => trivial
  refine ⟨by rwa [Action.builds_inContext], fun d hd => ?_, fun name shape hinstance => ?_⟩
  · rw [Action.home?_inContext] at hd
    obtain ⟨-, -, rfl⟩ := Option.map_eq_some_iff.mp hd
    rfl
  · rw [Action.instance?_inContext] at hinstance
    exact hnamed name shape hinstance

theorem Suits.ready (h : Suits s program) (hs : s.Sound) :
    s.Ready (scope program (· ∈ program.filterMap Action.home?)) where
  sound := hs
  present := h.contexts
  agrees c hc _ _ v hshape hv := h.held c hc _ (mem_of_shape? hshape) v hv

theorem Suits.run_means (h : Suits s program) (hs : s.Sound) :
    ((⟨s, []⟩ : Workspace).run program).Means
      (scope program (· ∈ program.filterMap Action.home?)) (Meaning.ofRun [] program) :=
  Workspace.run_means ⟨h.ready hs, .nil⟩ fun action hmem =>
    h.within hmem fun _ hc => List.mem_filterMap.mpr ⟨action, hmem, hc⟩

theorem ready_new (role : Role) (provenance : String) :
    (Session.new role [provenance]).Ready (scope program (· = 0)) where
  sound := (valid_new role [provenance]).sound
  present := by
    rintro c rfl
    exact Nat.zero_lt_one
  agrees := by
    rintro c rfl name shape v - hv
    cases hv

theorem Suits.run_inContext_means (h : Suits s program) (role : Role) (provenance : String) :
    ((new role [provenance]).run (program.map (Action.inContext 0))).Means
      (scope program (· = 0)) (Meaning.ofRun [] program) := by
  rw [← Meaning.ofRun_inContext [] 0 program]
  exact Workspace.run_means ⟨ready_new role provenance, .nil⟩ fun _ => h.within_inContext 0

end

/-- Splitting a program over contexts changes nothing. Wherever its actions take place, and whatever
the contexts held before, every action answers as it does when all of them take place in one new
context: what fails there fails here in the same way, and each kernel has the same text and the same
diagnostics, or an error that differs in ids only. -/
theorem run_split (role : Role) (provenances : List String) (before program : List Action)
    (provenance : String) :
    let s := ((new role provenances).run before).session
    Suits s program →
      ((⟨s, []⟩ : Workspace).run program).answers.map Answer.verdict =
        ((new role [provenance]).run (program.map (Action.inContext 0))).answers.map
          Answer.verdict := by
  intro s hsuits
  have hs : s.Sound := (run_valid (valid_new role provenances) before).sound
  exact Session.verdicts_eq (hsuits.run_means hs).answers
    (hsuits.run_inContext_means role provenance).answers

/-- A sum over two contexts, both of which held something before. -/
theorem run_split_sum :
    let s := ((new .crisc ["a", "b"]).run
      [.intern 1 "x" (.scalar .i32), .intern 0 "n" (.scalar .u8)]).session
    let program : List Action := [.intern 0 "x" (.scalar .i32), .tryIntern 1 "x" (.scalar .i32),
      .binary .add 0 (.answer 1), .assign 1 (.answer 2), .kernel 0 [3] {}]
    Suits s program ∧ ((⟨s, []⟩ : Workspace).run program).answers.map Answer.verdict =
      [.expr, .expr, .expr, .expr, .kernel (.ok ⟨"x = x + x;\n", []⟩)] := by
  intro s program
  have hsuits : Suits s program := ⟨by decide, by decide, by decide, by decide⟩
  exact ⟨hsuits, (run_split .crisc ["a", "b"] _ program "c" hsuits).trans rfl⟩

end Workspace

end KernelForge
