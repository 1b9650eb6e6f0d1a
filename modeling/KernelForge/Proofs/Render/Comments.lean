import KernelForge.Proofs.Render.Acceptance
import KernelForge.Proofs.Render.Columns

/-!
# Comments are inert

A comment may be put anywhere into a statement tree. The kernel is rendered with it exactly when it is
rendered without it; the comment adds lines of its own, all of which start with two slashes, and
changes no other line. A compiler sees the same code, unless a comment ends in a backslash: then the
line behind the comment is joined with it.
-/
namespace KernelForge

open Text

/-! ## Places in a statement tree -/

/-- A statement with a body left out. -/
inductive Frame
  | forLoop (init cond step : NodeId)
  | whileLoop (cond : NodeId)
  | function (signature : Signature) (params : List Slot)
  | arm (before : List Branch) (cond : Option NodeId) (after : List Branch)
  | case (subject : NodeId) (before : List SwitchCase) (value : NodeId) (after : List SwitchCase)
    (default : Option (List Stmt))
  | defaultArm (subject : NodeId) (cases : List SwitchCase)

def Frame.fill : Frame → List Stmt → Stmt
  | forLoop init cond step, body => .forLoop init cond step body
  | whileLoop cond, body => .whileLoop cond body
  | function signature params, body => .function signature params body
  | arm before cond after, body => .ifChain (before ++ ⟨cond, body⟩ :: after)
  | case subject before value after default, body =>
    .switch subject (before ++ ⟨value, body⟩ :: after) default
  | defaultArm subject cases, body => .switch subject cases (some body)

/-- The levels by which a body stands further in than its statement. The arms of a switch are blocks
inside a block. -/
def Frame.level : Frame → Nat
  | case .. | defaultArm .. => 2
  | _ => 1

/-- A place for statements in a statement tree: the statements around it, from the outermost ones to
those next to it. -/
inductive Place
  | here
  | inside (before : List Stmt) (frame : Frame) (place : Place) (after : List Stmt)

/-- The statement tree with statements in the place. -/
def Place.fill : Place → List Stmt → List Stmt
  | here, stmts => stmts
  | inside before frame place after, stmts => before ++ frame.fill (place.fill stmts) :: after

def Place.level : Place → Nat
  | here => 0
  | inside _ frame place _ => place.level + frame.level

/-! ## What a body needs -/

/-- Statements that need the same to be rendered. -/
structure SameNeeds (ss ts : List Stmt) : Prop where
  roots : Stmt.rootsAll ss = Stmt.rootsAll ts
  headed : Outline.HeadedAll (Stmt.outlineAll (fun _ => ()) ss) ↔
    Outline.HeadedAll (Stmt.outlineAll (fun _ => ()) ts)
  nesting : Outline.nestingAll (Stmt.outlineAll (fun _ => ()) ss) =
    Outline.nestingAll (Stmt.outlineAll (fun _ => ()) ts)

theorem SameNeeds.cons {ss ts : List Stmt} (h : SameNeeds ss ts) (s : Stmt) :
    SameNeeds (s :: ss) (s :: ts) where
  roots := by simp only [Stmt.rootsAll, h.roots]
  headed := by simp only [Stmt.outlineAll, Outline.HeadedAll, h.headed]
  nesting := by simp only [Stmt.outlineAll, Outline.nestingAll, h.nesting]

theorem SameNeeds.append {ss ts : List Stmt} (h : SameNeeds ss ts) (before : List Stmt) :
    SameNeeds (before ++ ss) (before ++ ts) := by
  induction before with
  | nil => exact h
  | cons s before ih => exact ih.cons s

theorem SameNeeds.comment (text : String) (rest : List Stmt) :
    SameNeeds (.comment text :: rest) rest where
  roots := by simp [Stmt.rootsAll, Stmt.roots]
  headed := by simp [Stmt.outlineAll, Stmt.outline, Outline.HeadedAll, Outline.Headed]
  nesting := by simp [Stmt.outlineAll, Stmt.outline, Outline.nestingAll, Outline.nesting]

theorem startsConditional_arms (ss ts : List Stmt) (before : List Branch) (cond : Option NodeId)
    (after : List Branch) :
    Outline.StartsConditional (Branch.outlineAll (fun _ => ()) (before ++ ⟨cond, ss⟩ :: after)) ↔
      Outline.StartsConditional
        (Branch.outlineAll (fun _ => ()) (before ++ ⟨cond, ts⟩ :: after)) := by
  cases before with
  | nil => simp [Branch.outlineAll, Outline.StartsConditional, Outline.Arm.cond]
  | cons arm before =>
    obtain ⟨c, body⟩ := arm
    simp [Branch.outlineAll, Outline.StartsConditional, Outline.Arm.cond]

section

variable {ss ts : List Stmt} (h : SameNeeds ss ts)
include h

theorem SameNeeds.arms (before : List Branch) (cond : Option NodeId) (after : List Branch) :
    Branch.rootsAll (before ++ ⟨cond, ss⟩ :: after) =
      Branch.rootsAll (before ++ ⟨cond, ts⟩ :: after) ∧
    (Outline.Arm.HeadedAll (Branch.outlineAll (fun _ => ()) (before ++ ⟨cond, ss⟩ :: after)) ↔
      Outline.Arm.HeadedAll (Branch.outlineAll (fun _ => ()) (before ++ ⟨cond, ts⟩ :: after))) ∧
    Outline.Arm.nestingAll (Branch.outlineAll (fun _ => ()) (before ++ ⟨cond, ss⟩ :: after)) =
      Outline.Arm.nestingAll (Branch.outlineAll (fun _ => ()) (before ++ ⟨cond, ts⟩ :: after)) := by
  induction before with
  | nil =>
    cases cond <;>
      simp [Branch.rootsAll, Branch.outlineAll, Outline.Arm.HeadedAll, Outline.Arm.nestingAll,
        h.roots, h.headed, h.nesting]
  | cons arm before ih =>
    obtain ⟨c, body⟩ := arm
    obtain ⟨hroots, hheaded, hnesting⟩ := ih
    cases c <;>
      simp [Branch.rootsAll, Branch.outlineAll, Outline.Arm.HeadedAll, Outline.Arm.nestingAll,
        hroots, hheaded, hnesting]

theorem SameNeeds.cases (before : List SwitchCase) (value : NodeId) (after : List SwitchCase) :
    SwitchCase.rootsAll (before ++ ⟨value, ss⟩ :: after) =
      SwitchCase.rootsAll (before ++ ⟨value, ts⟩ :: after) ∧
    (Outline.Case.HeadedAll (SwitchCase.outlineAll (fun _ => ()) (before ++ ⟨value, ss⟩ :: after)) ↔
      Outline.Case.HeadedAll
        (SwitchCase.outlineAll (fun _ => ()) (before ++ ⟨value, ts⟩ :: after))) ∧
    Outline.Case.nestingAll (SwitchCase.outlineAll (fun _ => ()) (before ++ ⟨value, ss⟩ :: after)) =
      Outline.Case.nestingAll
        (SwitchCase.outlineAll (fun _ => ()) (before ++ ⟨value, ts⟩ :: after)) := by
  induction before with
  | nil =>
    simp [SwitchCase.rootsAll, SwitchCase.outlineAll, Outline.Case.HeadedAll,
      Outline.Case.nestingAll, h.roots, h.headed, h.nesting]
  | cons arm before ih =>
    obtain ⟨value', body⟩ := arm
    obtain ⟨hroots, hheaded, hnesting⟩ := ih
    simp [SwitchCase.rootsAll, SwitchCase.outlineAll, Outline.Case.HeadedAll,
      Outline.Case.nestingAll, hroots, hheaded, hnesting]

theorem SameNeeds.frame (frame : Frame) (after : List Stmt) :
    SameNeeds (frame.fill ss :: after) (frame.fill ts :: after) := by
  obtain ⟨hroots, hheaded, hnesting⟩ : (frame.fill ss).roots = (frame.fill ts).roots ∧
      (((frame.fill ss).outline fun _ => ()).Headed ↔
        ((frame.fill ts).outline fun _ => ()).Headed) ∧
      ((frame.fill ss).outline fun _ => ()).nesting =
        ((frame.fill ts).outline fun _ => ()).nesting := by
    cases frame with
    | arm before cond after =>
      have hstarts := startsConditional_arms ss ts before cond after
      obtain ⟨hroots, hheaded, hnesting⟩ := h.arms before cond after
      simp [Frame.fill, Stmt.roots, Stmt.outline, Outline.Headed, Outline.nesting,
        hroots, hheaded, hnesting, hstarts]
    | case subject before value after default =>
      obtain ⟨hroots, hheaded, hnesting⟩ := h.cases before value after
      cases default <;>
        simp [Frame.fill, Stmt.roots, Stmt.outline, Outline.Headed, Outline.nesting,
          hroots, hheaded, hnesting]
    | _ =>
      simp [Frame.fill, Stmt.roots, Stmt.outline, Outline.Headed, Outline.nesting,
        h.roots, h.headed, h.nesting]
  refine ⟨?_, ?_, ?_⟩
  · simp only [Stmt.rootsAll, hroots]
  · simpa only [Stmt.outlineAll, Outline.HeadedAll] using and_congr_left' hheaded
  · simpa only [Stmt.outlineAll, Outline.nestingAll] using
      congrArg (max · (Outline.nestingAll (Stmt.outlineAll (fun _ => ()) after))) hnesting

end

theorem SameNeeds.fill {ss ts : List Stmt} (h : SameNeeds ss ts) (place : Place) :
    SameNeeds (place.fill ss) (place.fill ts) := by
  induction place with
  | here => exact h
  | inside before frame place after ih => exact (ih.frame frame after).append before

theorem SameNeeds.affords_iff {ss ts : List Stmt} (h : SameNeeds ss ts) (a : Arena)
    (limit depth : Nat) :
    a.Affords limit depth (a.stmtsEmission limit ss) ↔
      a.Affords limit depth (a.stmtsEmission limit ts) := by
  constructor
  · rintro ⟨htexts, hheaded, hroom⟩
    simp only [Arena.stmtsEmission_roots, Arena.stmtsEmission_headed,
      Arena.stmtsEmission_nesting] at htexts hheaded hroom
    exact ⟨by simpa [← h.roots] using htexts, by simpa [← h.headed] using hheaded,
      by simpa [← h.nesting] using hroom⟩
  · rintro ⟨htexts, hheaded, hroom⟩
    simp only [Arena.stmtsEmission_roots, Arena.stmtsEmission_headed,
      Arena.stmtsEmission_nesting] at htexts hheaded hroom
    exact ⟨by simpa [h.roots] using htexts, by simpa [h.headed] using hheaded,
      by simpa [h.nesting] using hroom⟩

/-! ## The lines around a place -/

/-- The same line some levels further in. -/
def Line.deeper (levels : Nat) (l : Line) : Line := { l with level := l.level + levels }

theorem map_deeper_deeper (m n : Nat) (ls : List Line) :
    (ls.map (Line.deeper m)).map (Line.deeper n) = ls.map (Line.deeper (m + n)) := by
  simp [Line.deeper, Function.comp_def, Nat.add_assoc]

theorem map_deeper_zero (ls : List Line) : ls.map (Line.deeper 0) = ls := List.map_id ls

theorem map_inner_eq (ls : List Line) : ls.map Line.inner = ls.map (Line.deeper 1) := rfl

/-- A line that is not joined with the one behind it. -/
def Line.IsClosed (l : Line) : Prop :=
  ∃ c, (dropReturn l.text.toList.reverse).head? = some c ∧ c ≠ '\\'

/-- Lines behind which other lines are read on their own. -/
def EndsClosed (ls : List Line) : Prop := ∀ l, ls.getLast? = some l → l.IsClosed

theorem Line.isClosed_of_getLast? {l : Line} {c : Char} (h : l.text.toList.getLast? = some c)
    (hc : c ∉ ['\\', '\r']) : l.IsClosed := by
  simp only [List.mem_cons, List.not_mem_nil, or_false, not_or] at hc
  obtain ⟨init, hinit⟩ := List.getLast?_eq_some_iff.mp h
  refine ⟨c, ?_, hc.1⟩
  rw [hinit, List.reverse_append, List.reverse_singleton, List.singleton_append,
    dropReturn_cons hc.2]
  rfl

theorem endsClosed_nil : EndsClosed [] := by simp [EndsClosed]

theorem endsClosed_concat (ls : List Line) {l : Line} (h : l.IsClosed) : EndsClosed (ls ++ [l]) := by
  simpa [EndsClosed] using h

theorem EndsClosed.append {ls ms : List Line} (h : EndsClosed ls) (h' : EndsClosed ms) :
    EndsClosed (ls ++ ms) := by
  rcases List.eq_nil_or_concat' ms with rfl | ⟨init, l, rfl⟩
  · rwa [List.append_nil]
  · rw [← List.append_assoc]
    exact endsClosed_concat _ (h' l (by simp))

theorem EndsClosed.deeper {ls : List Line} (h : EndsClosed ls) (levels : Nat) :
    EndsClosed (ls.map (Line.deeper levels)) := by
  intro l hl
  rw [List.getLast?_map, Option.map_eq_some_iff] at hl
  obtain ⟨l', hl', rfl⟩ := hl
  exact h l' hl'

namespace Outline

theorem linesAll_append (ss ts : List (Outline String)) :
    linesAll (ss ++ ts) = linesAll ss ++ linesAll ts := by
  induction ss with
  | nil => simp [linesAll]
  | cons s rest ih => simp [linesAll, ih]

theorem linesAll_outlineAll_append (f : NodeId → String) (ss ts : List Stmt) :
    linesAll (Stmt.outlineAll f (ss ++ ts)) =
      linesAll (Stmt.outlineAll f ss) ++ linesAll (Stmt.outlineAll f ts) := by
  rw [Stmt.outlineAll_eq_map, List.map_append, linesAll_append, ← Stmt.outlineAll_eq_map,
    ← Stmt.outlineAll_eq_map]

theorem Arm.linesAll_append (first : Bool) (arms : List (Arm String)) (cond : Option String)
    (body : List (Outline String)) (rest : List (Arm String)) :
    Arm.linesAll first (arms ++ ⟨cond, body⟩ :: rest) =
      Arm.linesAll first arms ++ ⟨0, armHeader (first && arms.isEmpty) cond⟩ ::
        ((Outline.linesAll body).map Line.inner ++ Arm.linesAll false rest) := by
  induction arms generalizing first with
  | nil => simp [Arm.linesAll]
  | cons arm arms ih =>
    obtain ⟨c, b⟩ := arm
    simp [Arm.linesAll, ih]

theorem Case.linesAll_append (cases more : List (Case String)) :
    Case.linesAll (cases ++ more) = Case.linesAll cases ++ Case.linesAll more := by
  induction cases with
  | nil => simp [Case.linesAll]
  | cons case cases ih =>
    obtain ⟨value, body⟩ := case
    simp [Case.linesAll, ih]

end Outline

/-- The lines of a body stand among other lines, so many levels further in, in one and the same way
whatever the body. The line in front of the body is closed. -/
def Embeds (levels : Nat) (g : List Line → List Line) : Prop :=
  ∃ before header after, Line.IsClosed header ∧ ∀ body,
    g body = before ++ header :: (body.map (Line.deeper levels) ++ after)

namespace Embeds

variable {levels : Nat} {g : List Line → List Line}

theorem arm {header : String} (h : (Line.mk 0 header).IsClosed) (after : List Line) :
    Embeds 1 fun body => ⟨0, header⟩ :: (body.map Line.inner ++ after) :=
  ⟨[], ⟨0, header⟩, after, h, fun _ => rfl⟩

theorem prepend (h : Embeds levels g) (ls : List Line) : Embeds levels fun body => ls ++ g body := by
  obtain ⟨before, header, after, hheader, hg⟩ := h
  exact ⟨ls ++ before, header, after, hheader, fun body => by simp [hg]⟩

theorem append (h : Embeds levels g) (ls : List Line) : Embeds levels fun body => g body ++ ls := by
  obtain ⟨before, header, after, hheader, hg⟩ := h
  exact ⟨before, header, after ++ ls, hheader, fun body => by simp [hg]⟩

theorem inner (h : Embeds levels g) : Embeds (levels + 1) fun body => (g body).map Line.inner := by
  obtain ⟨before, header, after, hheader, hg⟩ := h
  refine ⟨before.map Line.inner, header.inner, after.map Line.inner, hheader, fun body => ?_⟩
  simp only [hg, List.map_append, List.map_cons, map_inner_eq (body.map _), map_deeper_deeper]

/-- A block around the lines. -/
theorem block (h : Embeds levels g) (header footer : String) :
    Embeds (levels + 1) fun body => Outline.bracketed header (g body) footer :=
  (h.inner.append [⟨0, footer⟩]).prepend [⟨0, header⟩]

end Embeds

theorem isClosed_of_bounds {text : String} {c : Char} (h : Columns.Bounds text c '\x7b') :
    (Line.mk 0 text).IsClosed :=
  Line.isClosed_of_getLast? h.last (by decide)

/-- The lines of a statement embed those of a body of it. -/
theorem Frame.embeds (f : NodeId → String) (frame : Frame) :
    ∃ g, Embeds frame.level g ∧ ∀ body, ((frame.fill body).outline f).lines =
      g (Outline.linesAll (Stmt.outlineAll f body)) := by
  cases frame with
  | forLoop init cond step =>
    exact ⟨_, .arm (isClosed_of_bounds (Columns.bounds_for (f init) (f cond) (f step))) _,
      fun body => rfl⟩
  | whileLoop cond =>
    exact ⟨_, .arm (isClosed_of_bounds (Columns.bounds_while (f cond))) _, fun body => rfl⟩
  | function signature params =>
    obtain ⟨c, hbounds, -⟩ := Columns.bounds_function signature params
    exact ⟨_, .arm (isClosed_of_bounds hbounds) _, fun body => rfl⟩
  | arm before cond after =>
    have hheader : ∀ first, (Line.mk 0 (Outline.armHeader first (cond.map f))).IsClosed := by
      intro first
      cases first with
      | true =>
        obtain ⟨c, hbounds, -⟩ := Columns.bounds_firstArm (cond.map f)
        exact isClosed_of_bounds hbounds
      | false => exact isClosed_of_bounds (Columns.bounds_nextArm (cond.map f))
    have hchain : ∀ arms : List (Outline.Arm String), arms ≠ [] → (Outline.ifChain arms).lines =
        Outline.Arm.linesAll true arms ++ [⟨0, "\x7d"⟩] := by
      intro arms h
      cases arms with
      | nil => exact absurd rfl h
      | cons arm arms => rfl
    have harm := Embeds.arm (hheader (true && (Branch.outlineAll f before).isEmpty))
      (Outline.Arm.linesAll false (Branch.outlineAll f after))
    refine ⟨_, (harm.prepend (Outline.Arm.linesAll true (Branch.outlineAll f before))).append
      [⟨0, "\x7d"⟩], fun body => ?_⟩
    rw [Frame.fill, Stmt.outline, hchain _ (by simp [Branch.outlineAll_append, Branch.outlineAll]),
      Branch.outlineAll_append, Branch.outlineAll, Outline.Arm.linesAll_append]
  | case subject before value after default =>
    have hcase := (Embeds.arm (isClosed_of_bounds (Columns.bounds_case (f value)))
      [⟨0, "\x7d break;"⟩]).append (Outline.Case.linesAll (SwitchCase.outlineAll f after))
    have hcases := hcase.prepend (Outline.Case.linesAll (SwitchCase.outlineAll f before))
    cases default with
    | none =>
      refine ⟨_, hcases.block (Outline.switchHeader (f subject)) "\x7d", fun body => ?_⟩
      rw [Frame.fill, Stmt.outline, Outline.lines, SwitchCase.outlineAll_append,
        Outline.Case.linesAll_append]
      rfl
    | some other =>
      have hboth := hcases.append
        (Outline.bracketed "default: \x7b" (Outline.linesAll (Stmt.outlineAll f other)) "\x7d break;")
      refine ⟨_, hboth.block (Outline.switchHeader (f subject)) "\x7d", fun body => ?_⟩
      rw [Frame.fill, Stmt.outline, Outline.lines, SwitchCase.outlineAll_append,
        Outline.Case.linesAll_append]
      rfl
  | defaultArm subject cases =>
    have hheader : (Line.mk 0 "default: \x7b").IsClosed :=
      Line.isClosed_of_getLast? (c := '\x7b') rfl (by decide)
    have hdefault := Embeds.arm hheader [⟨0, "\x7d break;"⟩]
    have hcases := hdefault.prepend (Outline.Case.linesAll (SwitchCase.outlineAll f cases))
    exact ⟨_, hcases.block (Outline.switchHeader (f subject)) "\x7d", fun body => rfl⟩

/-- The lines of a statement tree are those of the statements in a place and others around them. The
lines in front of the place end in a closed one. -/
theorem Place.exists_lines (f : NodeId → String) (place : Place) :
    ∃ front back, EndsClosed front ∧ ∀ stmts,
      Outline.linesAll (Stmt.outlineAll f (place.fill stmts)) =
        front ++ ((Outline.linesAll (Stmt.outlineAll f stmts)).map (Line.deeper place.level) ++
          back) := by
  induction place with
  | here => exact ⟨[], [], endsClosed_nil, fun stmts => by simp [Place.fill, Place.level, map_deeper_zero]⟩
  | inside before frame place after ih =>
    obtain ⟨front, back, hfront, hlines⟩ := ih
    obtain ⟨g, ⟨outer, header, behind, hheader, hg⟩, hframe⟩ := frame.embeds f
    refine ⟨Outline.linesAll (Stmt.outlineAll f before) ++ outer ++ [header] ++
      front.map (Line.deeper frame.level), back.map (Line.deeper frame.level) ++ behind ++
        Outline.linesAll (Stmt.outlineAll f after),
      (endsClosed_concat _ hheader).append (hfront.deeper frame.level), fun stmts => ?_⟩
    have hlist : Stmt.outlineAll f (before ++ frame.fill (place.fill stmts) :: after) =
        Stmt.outlineAll f before ++
          (frame.fill (place.fill stmts)).outline f :: Stmt.outlineAll f after := by
      simp [Stmt.outlineAll_eq_map]
    rw [Place.fill, hlist, Outline.linesAll_append, Outline.linesAll, hframe, hg, hlines,
      List.map_append, List.map_append, map_deeper_deeper, Place.level]
    simp only [List.append_assoc, List.cons_append, List.nil_append]

/-! ## Lines that are closed -/

/-- The last line of a comment ends in a backslash. A carriage return behind it belongs to the end of
the line. -/
def Spills (text : String) : Prop :=
  ∃ line, (lines text.toList).getLast? = some line ∧ (dropReturn line.reverse).head? = some '\\'

/-- A comment is closed unless it spills. -/
theorem endsClosed_comment {text : String} (h : ¬ Spills text) :
    EndsClosed ((commentLines text).map (Line.mk 0)) := by
  intro l hl
  rw [List.getLast?_map, Option.map_eq_some_iff] at hl
  obtain ⟨t, ht, rfl⟩ := hl
  unfold commentLines at ht
  split at ht
  · obtain rfl : "//" = t := by simpa using ht
    exact ⟨'/', rfl, by decide⟩
  · rw [List.getLast?_map, Option.map_eq_some_iff] at ht
    obtain ⟨line, hline, rfl⟩ := ht
    split
    · exact ⟨'/', rfl, by decide⟩
    · rename_i hne
      have hreverse : line.reverse ≠ [] := by simpa using hne
      have htext : (dropReturn ("// " ++ String.ofList line).toList.reverse) =
          dropReturn line.reverse ++ [' ', '/', '/'] := by
        rw [← dropReturn_append hreverse]
        simp
      cases hdrop : dropReturn line.reverse with
      | nil => exact ⟨' ', by simp only [htext, hdrop]; rfl, by decide⟩
      | cons c cs =>
        refine ⟨c, by simp only [htext, hdrop]; rfl, ?_⟩
        rintro rfl
        exact h ⟨line, hline, by rw [hdrop]; rfl⟩

/-- What is written behind a statement is not joined with it, unless it is a comment that spills. -/
theorem endsClosed_lines (f : NodeId → String) (s : Stmt)
    (h : ∀ text, s = .comment text → ¬ Spills text) : EndsClosed (s.outline f).lines := by
  have hblock : ∀ (header : String) (body : List Line) (footer : String) (c : Char),
      footer.toList.getLast? = some c → c ∉ ['\\', '\r'] →
      EndsClosed (Outline.bracketed header body footer) := by
    intro header body footer c hc hclosed
    exact endsClosed_concat (⟨0, header⟩ :: body.map Line.inner)
      (Line.isClosed_of_getLast? (l := ⟨0, footer⟩) hc hclosed)
  cases s with
  | expr id =>
    exact endsClosed_concat [] (Line.isClosed_of_getLast? (c := ';') (by simp) (by decide))
  | comment text => exact endsClosed_comment (h text rfl)
  | includeFile path =>
    refine endsClosed_concat [] ?_
    cases path with
    | system p =>
      exact Line.isClosed_of_getLast? (c := '>')
        (by simp [HeaderPath.text, List.getLast?_cons, List.getLast?_append]) (by decide)
    | localFile p =>
      exact Line.isClosed_of_getLast? (c := '"')
        (by simp [HeaderPath.text, List.getLast?_cons, List.getLast?_append]) (by decide)
  | ifChain arms =>
    cases arms with
    | nil => exact endsClosed_nil
    | cons arm rest =>
      obtain ⟨cond, body⟩ := arm
      exact endsClosed_concat _
        (Line.isClosed_of_getLast? (l := ⟨0, "\x7d"⟩) (c := '\x7d') rfl (by decide))
  | switch subject cases default =>
    cases default <;> exact hblock _ _ _ '\x7d' rfl (by decide)
  | _ => exact hblock _ _ _ '\x7d' rfl (by decide)

theorem endsClosed_linesAll (f : NodeId → String) (ss : List Stmt)
    (h : ∀ text, .comment text ∈ ss → ¬ Spills text) :
    EndsClosed (Outline.linesAll (Stmt.outlineAll f ss)) := by
  induction ss with
  | nil => exact endsClosed_nil
  | cons s rest ih =>
    have hrest := ih fun text hmem => h text (List.mem_cons_of_mem s hmem)
    refine EndsClosed.append (endsClosed_lines f s ?_) hrest
    rintro text rfl
    exact h text List.mem_cons_self

/-! ## The text around a place -/

theorem layOut_concat (width : Nat) (ls : List Line) (l : Line) :
    ∃ cs, (layOut width 0 (ls ++ [l])).toList = cs ++ l.text.toList ++ ['\n'] := by
  refine ⟨(layOut width 0 ls).toList ++ (Writer.spaces ((0 + l.level) * width)).toList, ?_⟩
  simp [layOut, Line.written]

theorem isClosed_layOut (width : Nat) {ls : List Line} (h : EndsClosed ls) :
    IsClosed (layOut width 0 ls).toList := by
  rcases List.eq_nil_or_concat' ls with rfl | ⟨init, l, rfl⟩
  · exact Or.inl rfl
  · obtain ⟨c, hc, hne⟩ := h l (by simp)
    obtain ⟨cs, hcs⟩ := layOut_concat width init l
    refine Or.inr ⟨cs ++ l.text.toList, hcs, ?_⟩
    have htext : l.text.toList.reverse ≠ [] := by
      intro hnil
      simp [hnil, dropReturn] at hc
    rw [List.reverse_append, dropReturn_append htext, List.head?_append, hc]
    simpa using hne

theorem lines_layOut_append (width : Nat) (ls ms : List Line) :
    lines (layOut width 0 (ls ++ ms)).toList =
      lines (layOut width 0 ls).toList ++ lines (layOut width 0 ms).toList := by
  rw [layOut_append, String.toList_append]
  rcases List.eq_nil_or_concat' ls with rfl | ⟨init, l, rfl⟩
  · rfl
  · obtain ⟨cs, hcs⟩ := layOut_concat width init l
    rw [hcs, List.append_assoc, List.singleton_append]
    exact linesFrom_line [] _ _

theorem commentLines_ne_nil (text : String) : commentLines text ≠ [] := by
  unfold commentLines
  split
  · simp
  · rename_i hne
    have hlines : ∀ cs current, cs ≠ [] ∨ current ≠ [] → linesFrom current cs ≠ [] := by
      intro cs
      induction cs with
      | nil => simp [linesFrom]
      | cons c cs ih =>
        intro current _
        rw [linesFrom]
        split
        · simp
        · exact ih _ (Or.inr (by simp))
    have hsome : lines text.toList ≠ [] := hlines text.toList [] (Or.inl (by simpa using hne))
    simpa using hsome

/-- The lines of a comment as they are read. -/
theorem lines_comment (width level : Nat) (text : String) :
    lines (layOut width 0 ((commentLines text).map (Line.mk level))).toList =
      (commentLines text).map fun t => Columns.shown width level ⟨0, t⟩ := by
  rw [Columns.lines_layOut]
  · simp [Columns.shown, Function.comp_def]
  · simpa using fun t ht => (Columns.commentLines_spec text t ht).1

theorem remark_of_mem_lines_comment {width level : Nat} {text : String} {line : List Char}
    (h : line ∈ lines (layOut width 0 ((commentLines text).map (Line.mk level))).toList) :
    ∃ behind, line = List.replicate (level * width) ' ' ++ '/' :: '/' :: behind := by
  rw [lines_comment, List.mem_map] at h
  obtain ⟨t, ht, rfl⟩ := h
  exact Columns.exists_shown width level (Columns.commentLines_spec text t ht).2

namespace Arena

/-- A tree with a comment in any place of it is rendered exactly when the tree without the comment is.
The comment adds at least one line, and each of its lines is the margin of the place and two slashes
with something behind them; all other lines are as they are without it. If neither the comment nor one
in front of it in the same block ends in a backslash, a compiler sees the same code. -/
theorem codeLines_fill_comment (a : Arena) (place : Place) (before rest : List Stmt) (text : String)
    (options : RenderOptions) :
    ((∃ r, a.render (place.fill (before ++ .comment text :: rest)) options = .ok r) ↔
      ∃ r, a.render (place.fill (before ++ rest)) options = .ok r) ∧
    ∀ r r', a.render (place.fill (before ++ rest)) options = .ok r →
      a.render (place.fill (before ++ .comment text :: rest)) options = .ok r' →
      (∃ front block back, lines r.code.toList = front ++ back ∧
        lines r'.code.toList = front ++ (block ++ back) ∧ block ≠ [] ∧
        ∀ line ∈ block, ∃ behind,
          line = List.replicate (place.level * options.indentWidth) ' ' ++ '/' :: '/' :: behind) ∧
      ((∀ other, .comment other ∈ before → ¬ Spills other) → ¬ Spills text →
        codeLines r'.code.toList = codeLines r.code.toList) := by
  have hneeds := ((SameNeeds.comment text rest).append before).fill place
  constructor
  · simp only [render_eq_ok_iff, exists_and_left, exists_eq, and_true]
    exact hneeds.affords_iff a _ _
  · intro r r' hr hr'
    obtain ⟨-, rfl⟩ := render_eq_ok_iff.mp hr
    obtain ⟨-, rfl⟩ := render_eq_ok_iff.mp hr'
    generalize a.textWithin options.maxDepth = f
    obtain ⟨outer, back, houter, hlines⟩ := place.exists_lines f
    -- what stands in front of the comment, the comment, and what stands behind it
    let front := outer ++ (Outline.linesAll (Stmt.outlineAll f before)).map (Line.deeper place.level)
    let block := (commentLines text).map (Line.mk place.level)
    let behind := (Outline.linesAll (Stmt.outlineAll f rest)).map (Line.deeper place.level) ++ back
    have hwithout : Outline.linesAll (Stmt.outlineAll f (place.fill (before ++ rest))) =
        front ++ behind := by
      rw [hlines, Outline.linesAll_outlineAll_append, List.map_append]
      simp only [front, behind, List.append_assoc]
    have hwith : Outline.linesAll (Stmt.outlineAll f (place.fill (before ++ .comment text :: rest))) =
        front ++ (block ++ behind) := by
      rw [hlines, Outline.linesAll_outlineAll_append, List.map_append, Stmt.outlineAll,
        Outline.linesAll, List.map_append]
      simp [Stmt.outline, Outline.lines, Line.deeper, Function.comp_def, front, block, behind]
    rw [hwithout, hwith]
    refine ⟨⟨_, lines (layOut options.indentWidth 0 block).toList, _, lines_layOut_append _ _ _,
      ?_, ?_, ?_⟩, fun hbefore htext => ?_⟩
    · rw [lines_layOut_append _ front, lines_layOut_append _ block]
    · simpa [block, lines_comment] using commentLines_ne_nil text
    · exact fun line hline => remark_of_mem_lines_comment hline
    · have hfront : IsClosed (layOut options.indentWidth 0 front).toList :=
        isClosed_layOut _ (houter.append ((endsClosed_linesAll f before hbefore).deeper _))
      have hblock : IsClosed (layOut options.indentWidth 0 block).toList := by
        have hends := (endsClosed_comment htext).deeper place.level
        rw [List.map_map] at hends
        refine isClosed_layOut _ ?_
        simpa [block, Line.deeper, Function.comp_def] using hends
      have hempty : codeLines (layOut options.indentWidth 0 block).toList = [] :=
        codeLines_eq_nil fun line hline => ⟨_, remark_of_mem_lines_comment hline⟩
      simp only [layOut_append, String.toList_append]
      rw [hfront.codeLines_append, hfront.codeLines_append, hblock.codeLines_append, hempty,
        List.nil_append]

/-- A loop in a function, and a place behind the comment in the body of the loop. -/
def loopPlace : Place :=
  .inside [] (.function ⟨"f", [], none⟩ []) (.inside [] (.whileLoop ⟨0⟩) .here [.expr ⟨0⟩]) []

theorem codeLines_fill_comment_loop :
    let a : Arena := ⟨#[.leaf (.scalar .u32 "x")], #[]⟩
    let before : List Stmt := [.comment "a\\\nb"]
    let text := "\x7d\\\r\nc\r"
    let r := a.render (loopPlace.fill (before ++ [.expr ⟨0⟩])) {}
    let r' := a.render (loopPlace.fill (before ++ .comment text :: [.expr ⟨0⟩])) {}
    ∃ s s', r = .ok s ∧ r' = .ok s' ∧ codeLines s'.code.toList = codeLines s.code.toList ∧
      (codeLines s.code.toList).map String.ofList =
        ["void f() \x7b", "    while ( x ) \x7b", "        x;", "    \x7d", "    x;", "\x7d"] := by
  intro a before text r r'
  have hbefore : ∀ other, .comment other ∈ before → ¬ Spills other := by
    intro other hother
    obtain rfl : other = "a\\\nb" := by simpa [before] using hother
    rintro ⟨line, hline, hend⟩
    rw [show (lines "a\\\nb".toList).getLast? = some ['b'] by decide] at hline
    obtain rfl := Option.some.inj hline
    exact absurd hend (by decide)
  have htext : ¬ Spills text := by
    rintro ⟨line, hline, hend⟩
    rw [show (lines text.toList).getLast? = some ['c', '\r'] by decide] at hline
    obtain rfl := Option.some.inj hline
    exact absurd hend (by decide)
  have hr : ∃ s, r = .ok s := ⟨_, rfl⟩
  obtain ⟨s, hs⟩ := hr
  obtain ⟨s', hs'⟩ := (codeLines_fill_comment a loopPlace before [.expr ⟨0⟩] text {}).1.mpr ⟨s, hs⟩
  refine ⟨s, s', hs, hs', ?_, ?_⟩
  · exact ((codeLines_fill_comment a loopPlace before [.expr ⟨0⟩] text {}).2 s s' hs hs').2 hbefore
      htext
  · obtain rfl := Except.ok.inj hs
    decide

/-- A comment that ends in a backslash makes a comment of the statement behind it. -/
theorem codeLines_of_spills :
    let a : Arena := ⟨#[.leaf (.scalar .u32 "x")], #[]⟩
    ∃ r r', a.render [.expr ⟨0⟩] {} = .ok r ∧ a.render [.comment "a\\", .expr ⟨0⟩] {} = .ok r' ∧
      codeLines r'.code.toList = [] ∧ codeLines r.code.toList = ["x;".toList] :=
  ⟨⟨"x;\n", []⟩, ⟨"// a\\\nx;\n", []⟩, rfl, rfl, by decide, by decide⟩

end Arena

end KernelForge
