import KernelForge.Proofs.Stmt.Outline
import Mathlib.Tactic.Simps.Basic

/-!
# Layouts

What a rendering writes is a list of lines, each at a level of its own, and a list of diagnostics.
Both are functions of the statement alone. A rendering comes to them exactly when all expressions
have a text, every `if` chain starts with a condition, and the blocks fit into the limit. The lines
lie at their levels wherever the writer stands.
-/
namespace KernelForge

/-- A line without its margin. -/
structure Line where
  level : Nat
  text : String

namespace Line

/-- The same line one level further in. -/
def inner (l : Line) : Line := { l with level := l.level + 1 }

def written (width indent : Nat) (l : Line) : String :=
  Writer.spaces ((indent + l.level) * width) ++ l.text ++ "\n"

end Line

/-- The text of some lines, the outermost level of which is `indent`. -/
def layOut (width indent : Nat) (lines : List Line) : String :=
  String.join (lines.map (Line.written width indent))

@[simp] theorem layOut_nil (width indent : Nat) : layOut width indent [] = "" := rfl

theorem layOut_append (width indent : Nat) (ls ms : List Line) :
    layOut width indent (ls ++ ms) = layOut width indent ls ++ layOut width indent ms := by
  simp [layOut]

theorem layOut_inner (width indent : Nat) (ls : List Line) :
    layOut width indent (ls.map Line.inner) = layOut width (indent + 1) ls := by
  have hwritten : ∀ l : Line, l.inner.written width indent = l.written width (indent + 1) := by
    intro l
    have hlevel : indent + (l.level + 1) = indent + 1 + l.level := by omega
    simp only [Line.written, Line.inner, hlevel]
  simp only [layOut, List.map_map]
  exact congrArg String.join (List.map_congr_left fun l _ => hwritten l)

namespace Outline

/-! ## The lines of an outline -/

def forHeader (init cond step : String) : String :=
  "for ( " ++ init ++ " ; " ++ cond ++ " ; " ++ step ++ " ) \x7b"

def whileHeader (cond : String) : String := "while ( " ++ cond ++ " ) \x7b"

/-- The header of an arm. One behind the first closes the arm before it. -/
def armHeader : Bool → Option String → String
  | true, some cond => "if ( " ++ cond ++ " ) \x7b"
  | true, none => "\x7b"
  | false, some cond => "\x7d else if ( " ++ cond ++ " ) \x7b"
  | false, none => "\x7d else \x7b"

def switchHeader (subject : String) : String := "switch ( " ++ subject ++ " ) \x7b"

def caseHeader (value : String) : String := "case " ++ value ++ " : \x7b"

/-- A header, the lines of a block one level further in, and the line that closes the block. -/
def bracketed (header : String) (block : List Line) (footer : String) : List Line :=
  ⟨0, header⟩ :: (block.map Line.inner ++ [⟨0, footer⟩])

mutual

/-- The lines of a statement, the outermost of which are at level zero. -/
def lines : Outline String → List Line
  | expr text => [⟨0, text ++ ";"⟩]
  | comment text => (commentLines text).map (Line.mk 0)
  | includeFile path => [⟨0, "#include " ++ path.text⟩]
  | forLoop init cond step body => bracketed (forHeader init cond step) (linesAll body) "\x7d"
  | whileLoop cond body => bracketed (whileHeader cond) (linesAll body) "\x7d"
  | function header body => bracketed header (linesAll body) "\x7d"
  | ifChain [] => []
  | ifChain (arm :: rest) => Arm.linesAll true (arm :: rest) ++ [⟨0, "\x7d"⟩]
  | switch subject cases none => bracketed (switchHeader subject) (Case.linesAll cases) "\x7d"
  | switch subject cases (some body) =>
    bracketed (switchHeader subject)
      (Case.linesAll cases ++ bracketed "default: \x7b" (linesAll body) "\x7d break;") "\x7d"

def linesAll : List (Outline String) → List Line
  | [] => []
  | s :: rest => s.lines ++ linesAll rest

def Arm.linesAll : Bool → List (Arm String) → List Line
  | _, [] => []
  | first, ⟨cond, body⟩ :: rest =>
    ⟨0, armHeader first cond⟩ ::
      ((Outline.linesAll body).map Line.inner ++ Arm.linesAll false rest)

def Case.linesAll : List (Case String) → List Line
  | [] => []
  | ⟨value, body⟩ :: rest =>
    bracketed (caseHeader value) (Outline.linesAll body) "\x7d break;" ++ Case.linesAll rest

end

end Outline

/-! ## The misuses in a statement -/

def emptyBody (construct : Construct) (body : List Stmt) : List Diagnostic :=
  if body.isEmpty then [.emptyBody construct] else []

def emptySwitch (cases : List SwitchCase) (default : Option (List Stmt)) : List Diagnostic :=
  if cases.isEmpty && default.isNone then [.emptySwitch] else []

mutual

/-- What is wrong with a statement that is rendered all the same, in the order of the source. -/
def Stmt.misuses : Stmt → List Diagnostic
  | .expr _ | .comment _ | .includeFile _ => []
  | .forLoop _ _ _ body => emptyBody .forLoop body ++ Stmt.misusesAll body
  | .whileLoop _ body => emptyBody .whileLoop body ++ Stmt.misusesAll body
  | .function _ _ body => emptyBody .function body ++ Stmt.misusesAll body
  | .ifChain [] => [.emptyIf]
  | .ifChain (arm :: rest) =>
    elseDiagnostics ((arm :: rest).map Branch.cond) ++ Branch.misusesAll (arm :: rest)
  | .switch _ cases none => emptySwitch cases none ++ SwitchCase.misusesAll cases
  | .switch _ cases (some body) =>
    emptySwitch cases (some body) ++
      (SwitchCase.misusesAll cases ++ (emptyBody .defaultArm body ++ Stmt.misusesAll body))

def Stmt.misusesAll : List Stmt → List Diagnostic
  | [] => []
  | s :: rest => s.misuses ++ Stmt.misusesAll rest

def Branch.misusesAll : List Branch → List Diagnostic
  | [] => []
  | ⟨_, body⟩ :: rest => emptyBody .ifChain body ++ Stmt.misusesAll body ++ Branch.misusesAll rest

def SwitchCase.misusesAll : List SwitchCase → List Diagnostic
  | [] => []
  | ⟨_, body⟩ :: rest =>
    emptyBody .caseArm body ++ Stmt.misusesAll body ++ SwitchCase.misusesAll rest

end

/-! ## What an action on the writer comes to -/

/-- The writer behind some lines and diagnostics. -/
def Writer.after (w : Writer) (lines : List Line) (ds : List Diagnostic) : Writer :=
  { w with
    output := w.output ++ layOut w.options.indentWidth w.indent lines
    diagnostics := w.diagnostics ++ ds }

theorem Writer.after_nil (w : Writer) : w.after [] [] = w := by
  simp [Writer.after]

theorem Writer.after_after (w : Writer) (ls ms : List Line) (ds es : List Diagnostic) :
    (w.after ls ds).after ms es = w.after (ls ++ ms) (ds ++ es) := by
  simp [Writer.after, layOut_append, String.append_assoc]

theorem Writer.line_eq_after (w : Writer) (text : String) : w.line text = w.after [⟨0, text⟩] [] := by
  simp [Writer.line, Writer.after, layOut, Line.written, String.append_assoc]

/-- Lines written inside a block lie one level further in. -/
theorem Writer.leave_after {w inner : Writer} (h : w.enter = .ok inner) (ls : List Line)
    (ds : List Diagnostic) : (inner.after ls ds).leave = w.after (ls.map Line.inner) ds := by
  unfold Writer.enter at h
  split at h
  · simp at h
  · obtain rfl := Except.ok.inj h
    simp [Writer.after, Writer.leave, layOut_inner]

/-- What a part of a rendering writes and reports, and what it needs for that: the texts of some
expressions, that no chain starts without a condition, and room for blocks. -/
@[ext] structure Emission where
  lines : List Line := []
  misuses : List Diagnostic := []
  roots : List NodeId := []
  headed : Prop := True
  nesting : Nat := 0

namespace Emission

/-- One emission behind the other. -/
@[simps] def andThen (e e' : Emission) : Emission where
  lines := e.lines ++ e'.lines
  misuses := e.misuses ++ e'.misuses
  roots := e.roots ++ e'.roots
  headed := e.headed ∧ e'.headed
  nesting := max e.nesting e'.nesting

/-- An emission inside a block. -/
@[simps] def inside (e : Emission) : Emission :=
  { e with lines := e.lines.map Line.inner, nesting := e.nesting + 1 }

/-- An emission that needs the text of one more expression. -/
@[simps] def needing (id : NodeId) (e : Emission) : Emission := { e with roots := id :: e.roots }

@[simps] def ofLine (text : String) : Emission := { lines := [⟨0, text⟩] }

@[simps] def ofMisuses (ds : List Diagnostic) : Emission := { misuses := ds }

end Emission

namespace Arena

/-- The text of an expression, or none if it cannot be rendered. -/
def textWithin (a : Arena) (limit : Nat) (id : NodeId) : String :=
  ((a.renderExpr id limit).toOption).getD ""

theorem textWithin_of_ok {a : Arena} {limit : Nat} {id : NodeId} {text : String}
    (h : a.renderExpr id limit = .ok text) : a.textWithin limit id = text := by
  simp [textWithin, h, Except.toOption]

/-- An emission has what it needs when `depth` blocks are open. -/
structure Affords (a : Arena) (limit depth : Nat) (e : Emission) : Prop where
  texts : ∀ r ∈ e.roots, ∃ text, a.renderExpr r limit = .ok text
  headed : e.headed
  room : depth + e.nesting ≤ limit

/-- Why an emission fails when `depth` blocks are open. -/
def Faults (a : Arena) (limit depth : Nat) (e : Emission) (error : RenderError) : Prop :=
  (∃ r ∈ e.roots, a.renderExpr r limit = .error error) ∨
    (¬ e.headed ∧ error = .missingCondition) ∨
      (limit < depth + e.nesting ∧ error = .nestingTooDeep limit)

/-- The action comes to the emission, wherever the writer stands, if that has what it needs.
Otherwise it fails for one of the reasons there are. -/
def Emits (a : Arena) (limit : Nat) (m : Emit Unit) (e : Emission) : Prop :=
  ∀ w : Writer, w.options.maxDepth = limit → w.depth ≤ limit →
    (a.Affords limit w.depth e → m w = (.ok (), w.after e.lines e.misuses)) ∧
      (¬ a.Affords limit w.depth e → ∃ error w', m w = (.error error, w') ∧
        a.Faults limit w.depth e error)

theorem affords_andThen {a : Arena} {limit depth : Nat} {e e' : Emission} :
    a.Affords limit depth (e.andThen e') ↔
      a.Affords limit depth e ∧ a.Affords limit depth e' := by
  constructor
  · rintro ⟨htexts, ⟨hheaded, hheaded'⟩, hroom⟩
    simp only [Emission.andThen, List.forall_mem_append] at htexts hroom
    exact ⟨⟨htexts.1, hheaded, by omega⟩, ⟨htexts.2, hheaded', by omega⟩⟩
  · rintro ⟨⟨htexts, hheaded, hroom⟩, ⟨htexts', hheaded', hroom'⟩⟩
    refine ⟨?_, ⟨hheaded, hheaded'⟩, ?_⟩
    · simp only [Emission.andThen, List.forall_mem_append]
      exact ⟨htexts, htexts'⟩
    · simp only [Emission.andThen]
      omega

theorem affords_inside {a : Arena} {limit depth : Nat} {e : Emission} :
    a.Affords limit depth e.inside ↔ depth < limit ∧ a.Affords limit (depth + 1) e := by
  constructor
  · rintro ⟨htexts, hheaded, hroom⟩
    simp only [Emission.inside] at hroom
    exact ⟨by omega, htexts, hheaded, by omega⟩
  · rintro ⟨-, htexts, hheaded, hroom⟩
    exact ⟨htexts, hheaded, by simp only [Emission.inside]; omega⟩

theorem affords_needing {a : Arena} {limit depth : Nat} {id : NodeId} {e : Emission} :
    a.Affords limit depth (e.needing id) ↔
      (∃ text, a.renderExpr id limit = .ok text) ∧ a.Affords limit depth e := by
  constructor
  · rintro ⟨htexts, hheaded, hroom⟩
    simp only [Emission.needing, List.forall_mem_cons] at htexts
    exact ⟨htexts.1, htexts.2, hheaded, hroom⟩
  · rintro ⟨htext, htexts, hheaded, hroom⟩
    exact ⟨by simpa only [Emission.needing, List.forall_mem_cons] using ⟨htext, htexts⟩,
      hheaded, hroom⟩

theorem Faults.left {a : Arena} {limit depth : Nat} {e e' : Emission} {error : RenderError}
    (h : a.Faults limit depth e error) : a.Faults limit depth (e.andThen e') error := by
  rcases h with ⟨r, hr, herror⟩ | ⟨hheaded, herror⟩ | ⟨hdeep, herror⟩
  · exact Or.inl ⟨r, List.mem_append_left _ hr, herror⟩
  · exact Or.inr (Or.inl ⟨fun h => hheaded h.1, herror⟩)
  · exact Or.inr (Or.inr ⟨by simp only [Emission.andThen]; omega, herror⟩)

theorem Faults.right {a : Arena} {limit depth : Nat} {e e' : Emission} {error : RenderError}
    (h : a.Faults limit depth e' error) : a.Faults limit depth (e.andThen e') error := by
  rcases h with ⟨r, hr, herror⟩ | ⟨hheaded, herror⟩ | ⟨hdeep, herror⟩
  · exact Or.inl ⟨r, List.mem_append_right _ hr, herror⟩
  · exact Or.inr (Or.inl ⟨fun h => hheaded h.2, herror⟩)
  · exact Or.inr (Or.inr ⟨by simp only [Emission.andThen]; omega, herror⟩)

theorem Faults.inside {a : Arena} {limit depth : Nat} {e : Emission} {error : RenderError}
    (h : a.Faults limit (depth + 1) e error) : a.Faults limit depth e.inside error := by
  rcases h with htext | hheaded | ⟨hdeep, herror⟩
  · exact Or.inl htext
  · exact Or.inr (Or.inl hheaded)
  · exact Or.inr (Or.inr ⟨by simp only [Emission.inside]; omega, herror⟩)

theorem emit_bind {α β : Type} (x : Emit α) (f : α → Emit β) (w : Writer) :
    (x >>= f) w = match x w with
      | (.ok v, w') => f v w'
      | (.error error, w') => (.error error, w') := by
  cases h : x w with
  | mk result w' =>
    simp only [bind, ExceptT.bind, ExceptT.mk, StateT.bind, h]
    cases result <;> rfl

section

variable {a : Arena} {limit : Nat} {e e' : Emission} {m m' : Emit Unit}

theorem Emits.pure : a.Emits limit (Pure.pure ()) {} := by
  intro w _ hdepth
  refine ⟨fun _ => ?_, fun h => absurd ⟨by simp, trivial, by simpa using hdepth⟩ h⟩
  rw [Writer.after_nil]
  rfl

theorem Emits.line (text : String) : a.Emits limit (Emit.line text) (.ofLine text) := by
  intro w _ hdepth
  refine ⟨fun _ => ?_,
    fun h => absurd ⟨by simp [Emission.ofLine], trivial, by simpa [Emission.ofLine] using hdepth⟩ h⟩
  exact congrArg (Prod.mk _) (w.line_eq_after text)

theorem Emits.report (d : Diagnostic) : a.Emits limit (Emit.report d) (.ofMisuses [d]) := by
  intro w _ hdepth
  refine ⟨fun _ => ?_, fun h => absurd ⟨by simp [Emission.ofMisuses], trivial,
    by simpa [Emission.ofMisuses] using hdepth⟩ h⟩
  refine congrArg (Prod.mk _) ?_
  simp [Writer.report, Writer.after, Emission.ofMisuses]

theorem Emits.bind (h : a.Emits limit m e) (h' : a.Emits limit m' e') :
    a.Emits limit (m >>= fun _ => m') (e.andThen e') := by
  intro w hlimit hdepth
  obtain ⟨hok, hfail⟩ := h w hlimit hdepth
  obtain ⟨hok', hfail'⟩ := h' (w.after e.lines e.misuses) hlimit hdepth
  rw [affords_andThen, emit_bind]
  constructor
  · rintro ⟨hfirst, hsecond⟩
    rw [hok hfirst]
    exact (hok' hsecond).trans (by rw [Writer.after_after]; rfl)
  · intro hnot
    by_cases hfirst : a.Affords limit w.depth e
    · obtain ⟨error, w', hrun, hfault⟩ := hfail' fun hsecond => hnot ⟨hfirst, hsecond⟩
      exact ⟨error, w', by rw [hok hfirst]; exact hrun, hfault.right⟩
    · obtain ⟨error, w', hrun, hfault⟩ := hfail hfirst
      exact ⟨error, w', by rw [hrun], hfault.left⟩

theorem Emits.nested (h : a.Emits limit m e) : a.Emits limit (Emit.nested m) e.inside := by
  intro w hlimit hdepth
  rw [affords_inside]
  by_cases hroom : w.depth < limit
  · obtain ⟨inner, hinner⟩ : ∃ inner, w.enter = .ok inner := by
      simp [Writer.enter, hlimit, Nat.not_le.mpr hroom]
    have hset : inner = { w with depth := w.depth + 1, indent := w.indent + 1 } := by
      simpa [Writer.enter, hlimit, Nat.not_le.mpr hroom, eq_comm] using hinner
    obtain ⟨hok, hfail⟩ := h inner (by rw [hset]; exact hlimit) (by rw [hset]; exact hroom)
    have hinnerDepth : inner.depth = w.depth + 1 := by rw [hset]
    rw [hinnerDepth] at hok hfail
    constructor
    · rintro ⟨-, hafford⟩
      simp only [Emit.nested, hinner, hok hafford, Writer.leave_after hinner, Emission.inside]
    · intro hnot
      obtain ⟨error, w', hrun, hfault⟩ := hfail fun hafford => hnot ⟨hroom, hafford⟩
      exact ⟨error, w'.leave, by simp only [Emit.nested, hinner, hrun], hfault.inside⟩
  · refine ⟨fun hafford => absurd hafford.1 hroom, fun _ => ?_⟩
    refine ⟨.nestingTooDeep limit, w, ?_, Or.inr (Or.inr ⟨?_, rfl⟩)⟩
    · simp [Emit.nested, Writer.enter, hlimit, Nat.not_lt.mp hroom]
    · simp only [Emission.inside]
      omega

/-- An action that starts with the text of an expression. -/
theorem Emits.exprText {id : NodeId} {k : String → Emit Unit}
    (h : a.Emits limit (k (a.textWithin limit id)) e) :
    a.Emits limit (a.exprText id >>= k) (e.needing id) := by
  intro w hlimit hdepth
  obtain ⟨hok, hfail⟩ := h w hlimit hdepth
  rw [affords_needing, emit_bind]
  have hrun : a.exprText id w = (a.renderExpr id limit, w) := by
    rw [← hlimit]
    rfl
  rw [hrun]
  cases htext : a.renderExpr id limit with
  | error error =>
    refine ⟨by rintro ⟨⟨text, htext'⟩, -⟩; simp at htext', fun _ => ?_⟩
    exact ⟨error, w, rfl, Or.inl ⟨id, List.mem_cons_self, htext⟩⟩
  | ok text =>
    rw [textWithin_of_ok htext] at hok hfail
    refine ⟨fun hafford => hok hafford.2, fun hnot => ?_⟩
    obtain ⟨error, w', hrun, hfault⟩ := hfail fun hafford => hnot ⟨⟨text, rfl⟩, hafford⟩
    refine ⟨error, w', hrun, ?_⟩
    rcases hfault with ⟨r, hr, herror⟩ | hfault
    · exact Or.inl ⟨r, List.mem_cons_of_mem _ hr, herror⟩
    · exact Or.inr hfault

/-- An action that is refused for want of a condition. -/
theorem Emits.missingCondition (hheaded : ¬ e.headed) (k : String → Emit Unit) :
    a.Emits limit ((throw .missingCondition : Emit String) >>= k) e :=
  fun w _ _ => ⟨fun hafford => absurd hafford.headed hheaded,
    fun _ => ⟨.missingCondition, w, rfl, Or.inr (Or.inl ⟨hheaded, rfl⟩)⟩⟩

end

/-! ## What statements come to -/

section

variable (a : Arena) (limit : Nat)

@[simps] def stmtEmission (s : Stmt) : Emission where
  lines := (s.outline (a.textWithin limit)).lines
  misuses := s.misuses
  roots := s.roots
  headed := s.skeleton.Headed
  nesting := s.skeleton.nesting

@[simps] def stmtsEmission (ss : List Stmt) : Emission where
  lines := Outline.linesAll (Stmt.outlineAll (a.textWithin limit) ss)
  misuses := Stmt.misusesAll ss
  roots := Stmt.rootsAll ss
  headed := Outline.HeadedAll (Stmt.outlineAll (fun _ => ()) ss)
  nesting := Outline.nestingAll (Stmt.outlineAll (fun _ => ()) ss)

/-- The arms of a chain, all of them or those behind the first one. -/
@[simps] def branchesEmission (first : Bool) (arms : List Branch) : Emission where
  lines := Outline.Arm.linesAll first (Branch.outlineAll (a.textWithin limit) arms)
  misuses := Branch.misusesAll arms
  roots := Branch.rootsAll arms
  headed := (first = true → Outline.StartsConditional (Branch.outlineAll (fun _ => ()) arms)) ∧
    Outline.Arm.HeadedAll (Branch.outlineAll (fun _ => ()) arms)
  nesting := Outline.Arm.nestingAll (Branch.outlineAll (fun _ => ()) arms)

@[simps] def casesEmission (cases : List SwitchCase) : Emission where
  lines := Outline.Case.linesAll (SwitchCase.outlineAll (a.textWithin limit) cases)
  misuses := SwitchCase.misusesAll cases
  roots := SwitchCase.rootsAll cases
  headed := Outline.Case.HeadedAll (SwitchCase.outlineAll (fun _ => ()) cases)
  nesting := Outline.Case.nestingAll (SwitchCase.outlineAll (fun _ => ()) cases)

end

theorem branchHeader_bind (a : Arena) (first : Bool) (cond : NodeId) (k : String → Emit Unit) :
    (a.branchHeader first (some cond) >>= k) =
      a.exprText cond >>= fun text => k (Outline.armHeader first (some text)) := by
  cases first <;> simp [branchHeader, Outline.armHeader]

/-- What a property of actions has to meet to hold of every rendering: it holds of the single steps
and is kept when steps are put together. -/
structure Rules (a : Arena) (limit : Nat) (P : Emit Unit → Emission → Prop) : Prop where
  pure : P (Pure.pure ()) {}
  line : ∀ text, P (Emit.line text) (.ofLine text)
  report : ∀ d, P (Emit.report d) (.ofMisuses [d])
  bind : ∀ {m m' e e'}, P m e → P m' e' → P (m >>= fun _ => m') (e.andThen e')
  nested : ∀ {m e}, P m e → P (Emit.nested m) e.inside
  /-- An action that starts with the text of an expression. -/
  exprText : ∀ {id e} {k : String → Emit Unit}, P (k (a.textWithin limit id)) e →
    P (a.exprText id >>= k) (e.needing id)
  /-- An action that is refused for want of a condition. -/
  missingCondition : ∀ {e}, ¬ e.headed → ∀ k : String → Emit Unit,
    P ((throw .missingCondition : Emit String) >>= k) e

namespace Rules

section

variable {a : Arena} {limit : Nat} {P : Emit Unit → Emission → Prop} {m : Emit Unit} {e : Emission}

theorem congr (_ : a.Rules limit P) {e' : Emission} (h : P m e) (he : e = e') : P m e' := he ▸ h

variable (hP : a.Rules limit P)
include hP

/-- A diagnostic that is reported first, if there is cause for it. -/
theorem reportIf (h : P m e) (cause : Bool) (d : Diagnostic) :
    P (if cause then Emit.report d >>= fun _ => m else m)
      ((Emission.ofMisuses (if cause then [d] else [])).andThen e) := by
  cases cause with
  | false => exact hP.bind hP.pure h
  | true => exact hP.bind (hP.report d) h

theorem reportAll (ds : List Diagnostic) : P (Emit.reportAll ds) (.ofMisuses ds) := by
  induction ds with
  | nil => exact hP.pure
  | cons d rest ih =>
    exact hP.congr (hP.bind (hP.report d) ih)
      (by ext <;> simp [Emission.andThen, Emission.ofMisuses])

theorem lines (texts : List String) :
    P (texts.forM Emit.line) { lines := texts.map (Line.mk 0) } := by
  induction texts with
  | nil => exact hP.pure
  | cons text rest ih =>
    exact hP.congr (hP.bind (hP.line text) ih) (by ext <;> simp [Emission.andThen, Emission.ofLine])

/-- A body comes to what its statements come to, one level further in. -/
theorem block (h : P m e) (construct : Construct) (body : List Stmt) :
    P (writeBlock construct body m)
      ((Emission.ofMisuses (emptyBody construct body)).andThen e.inside) :=
  hP.reportIf (hP.nested h) body.isEmpty (.emptyBody construct)

attribute [local simp] Stmt.outline Stmt.outlineAll Branch.outlineAll SwitchCase.outlineAll
  Stmt.skeleton Stmt.roots Stmt.rootsAll Branch.rootsAll SwitchCase.rootsAll
  Stmt.misuses Stmt.misusesAll Branch.misusesAll SwitchCase.misusesAll emptySwitch
  Outline.lines Outline.linesAll Outline.Arm.linesAll Outline.Case.linesAll Outline.bracketed
  Outline.forHeader Outline.whileHeader Outline.armHeader Outline.switchHeader Outline.caseHeader
  Outline.Headed Outline.HeadedAll Outline.Arm.HeadedAll Outline.Case.HeadedAll
  Outline.StartsConditional Outline.Arm.cond Outline.nesting Outline.nestingAll Outline.Arm.nestingAll
  Outline.Case.nestingAll

mutual

/-- The property holds of every statement and its lines and misuses. -/
theorem stmt : ∀ s : Stmt, P (a.writeStmt s) (a.stmtEmission limit s)
  | .expr id => by
    refine hP.congr (hP.exprText (k := fun text => Emit.line (text ++ ";")) (hP.line _)) ?_
    ext1 <;> simp
  | .comment text => hP.congr (hP.lines _) (by ext1 <;> simp)
  | .includeFile path => hP.congr (hP.line _) (by ext1 <;> simp)
  | .forLoop init cond step body => by
    refine hP.congr (hP.exprText <| hP.exprText <| hP.exprText <| hP.bind (hP.line _) <|
      hP.bind (hP.block (stmts body) _ _) (hP.line _)) ?_
    ext1 <;> simp
  | .whileLoop cond body => by
    refine hP.congr (hP.exprText <| hP.bind (hP.line _) <|
      hP.bind (hP.block (stmts body) _ _) (hP.line _)) ?_
    ext1 <;> simp
  | .ifChain [] => hP.congr (hP.report _) (by ext1 <;> simp)
  | .ifChain (⟨cond, body⟩ :: rest) => by
    refine hP.congr (hP.bind (hP.reportAll _) <|
      hP.bind (branches true (⟨cond, body⟩ :: rest)) (hP.line _)) ?_
    ext1 <;> simp
  | .switch subject arms none => by
    refine hP.congr (hP.reportIf (hP.exprText <| hP.bind (hP.line _) <|
      hP.bind (hP.nested (hP.bind (cases arms) hP.pure)) (hP.line _)) _ _) ?_
    ext1 <;> simp
  | .switch subject arms (some body) => by
    refine hP.congr (hP.reportIf (hP.exprText <| hP.bind (hP.line _) <|
      hP.bind (hP.nested (hP.bind (cases arms) <| hP.bind (hP.line _) <|
        hP.bind (hP.block (stmts body) _ _) (hP.line _))) (hP.line _)) _ _) ?_
    ext1 <;> simp
  | .function signature params body => by
    refine hP.congr (hP.bind (hP.line _) <|
      hP.bind (hP.block (stmts body) _ _) (hP.line _)) ?_
    ext1 <;> simp

theorem stmts : ∀ ss : List Stmt, P (a.writeAll ss) (a.stmtsEmission limit ss)
  | [] => hP.congr hP.pure (by ext1 <;> simp)
  | s :: rest => hP.congr (hP.bind (stmt s) (stmts rest)) (by ext1 <;> simp)

theorem branches : ∀ (first : Bool) (arms : List Branch),
    P (a.writeBranches first arms) (a.branchesEmission limit first arms)
  | _, [] => hP.congr hP.pure (by ext1 <;> simp)
  | true, ⟨none, body⟩ :: rest => hP.missingCondition (by simp) _
  | false, ⟨none, body⟩ :: rest => by
    have h := hP.bind (hP.line (Outline.armHeader false none)) <|
      hP.bind (hP.block (stmts body) .ifChain body) (branches false rest)
    exact hP.congr h (by ext1 <;> simp)
  | first, ⟨some cond, body⟩ :: rest => by
    rw [writeBranches, branchHeader_bind]
    refine hP.congr (hP.exprText <| hP.bind (hP.line _) <|
      hP.bind (hP.block (stmts body) _ _) <| branches false rest) ?_
    ext1 <;> simp

theorem cases : ∀ arms : List SwitchCase,
    P (a.writeCases arms) (a.casesEmission limit arms)
  | [] => hP.congr hP.pure (by ext1 <;> simp)
  | ⟨value, body⟩ :: rest => by
    refine hP.congr (hP.exprText <| hP.bind (hP.line _) <|
      hP.bind (hP.block (stmts body) _ _) <| hP.bind (hP.line _) <|
        cases rest) ?_
    ext1 <;> simp

end

end

end Rules

theorem emits_rules (a : Arena) (limit : Nat) : a.Rules limit (a.Emits limit) where
  pure := .pure
  line := .line
  report := .report
  bind := .bind
  nested := .nested
  exprText := .exprText
  missingCondition := .missingCondition

/-- A rendering is refused for want of a text, a condition or room. Otherwise it gives the lines of
the statements and their misuses. -/
theorem render_eq (a : Arena) (stmts : List Stmt) (options : RenderOptions) :
    (a.Affords options.maxDepth 0 (a.stmtsEmission options.maxDepth stmts) →
      a.render stmts options = .ok ⟨layOut options.indentWidth 0
        (Outline.linesAll (Stmt.outlineAll (a.textWithin options.maxDepth) stmts)),
        Stmt.misusesAll stmts⟩) ∧
    (¬ a.Affords options.maxDepth 0 (a.stmtsEmission options.maxDepth stmts) →
      ∃ e, a.render stmts options = .error e ∧
        a.Faults options.maxDepth 0 (a.stmtsEmission options.maxDepth stmts) e) := by
  have hemits := (a.emits_rules options.maxDepth).stmts stmts
  obtain ⟨hok, hfail⟩ := hemits (Writer.new options) rfl (Nat.zero_le _)
  constructor
  · intro hafford
    rw [render, hok hafford]
    simp [Writer.after, Writer.new]
  · intro hnot
    obtain ⟨e, w, hrun, hfault⟩ := hfail hnot
    exact ⟨e, by rw [render, hrun], hfault⟩

theorem render_eq_ok_iff {a : Arena} {stmts : List Stmt} {options : RenderOptions} {r : Rendered} :
    a.render stmts options = .ok r ↔
      a.Affords options.maxDepth 0 (a.stmtsEmission options.maxDepth stmts) ∧
      r = ⟨layOut options.indentWidth 0
        (Outline.linesAll (Stmt.outlineAll (a.textWithin options.maxDepth) stmts)),
        Stmt.misusesAll stmts⟩ := by
  obtain ⟨hok, hfail⟩ := a.render_eq stmts options
  by_cases hafford : a.Affords options.maxDepth 0 (a.stmtsEmission options.maxDepth stmts)
  · simp [hok hafford, hafford, eq_comm]
  · obtain ⟨e, herror, -⟩ := hfail hafford
    simp [herror, hafford]

theorem faults_of_render {a : Arena} {stmts : List Stmt} {options : RenderOptions}
    {e : RenderError} (h : a.render stmts options = .error e) :
    a.Faults options.maxDepth 0 (a.stmtsEmission options.maxDepth stmts) e := by
  obtain ⟨hok, hfail⟩ := a.render_eq stmts options
  by_cases hafford : a.Affords options.maxDepth 0 (a.stmtsEmission options.maxDepth stmts)
  · simp [hok hafford] at h
  · obtain ⟨e', herror, hfault⟩ := hfail hafford
    obtain rfl := Except.error.inj (h.symm.trans herror)
    exact hfault

end Arena

end KernelForge
