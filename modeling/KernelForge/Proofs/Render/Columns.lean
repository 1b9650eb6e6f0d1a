import KernelForge.Proofs.Render.Leading
import KernelForge.Proofs.Render.Marks
import KernelForge.Proofs.Text.Translation

/-!
# Columns of headers and closing braces

A reader that keeps the columns of the headers that are still open finds each closing brace at the
column of the header that it closes, everything else further in than the header around it, and no
header open in the end. Outside all headers a line begins at the margin, unless it is an expression
that begins with a leaf without a text.
-/
namespace KernelForge

open Text

/-! ## The reader -/

namespace Columns

/-- The number of blanks that a line starts with. -/
def column (line : List Char) : Nat := (line.takeWhile (· = ' ')).length

/-- A line without its margin. -/
def unindented (line : List Char) : List Char := line.dropWhile (· = ' ')

def IsComment (line : List Char) : Prop := "//".toList <+: unindented line

/-- A line that begins with a brace closes the innermost header. -/
def Closes (line : List Char) : Prop := (unindented line).head? = some '\x7d'

/-- A line that ends in a brace is a header. -/
def Opens (line : List Char) : Prop := line.getLast? = some '\x7b'

instance (line : List Char) : Decidable (IsComment line) :=
  inferInstanceAs (Decidable (_ <+: _))

instance (line : List Char) : Decidable (Closes line) := inferInstanceAs (Decidable (_ = _))

instance (line : List Char) : Decidable (Opens line) := inferInstanceAs (Decidable (_ = _))

/-- The columns of the headers that a line stands in, innermost first, given those of the headers
that are open before it. -/
def around (stack : List Nat) (line : List Char) : List Nat :=
  if Closes line then stack.tail else stack

/-- The columns of the headers that are open behind a line. -/
def behind (stack : List Nat) (line : List Char) : List Nat :=
  if IsComment line then stack
  else if Opens line then column line :: around stack line
  else around stack line

def openHeaders (stack : List Nat) (lines : List (List Char)) : List Nat := lines.foldl behind stack

/-- What the column of a line is among the headers that are open before it. Outside all headers some
lines may be exempt. -/
structure Fits (exempt : List Char → Prop) (stack : List Nat) (line : List Char) : Prop where
  closes : Closes line → stack.head? = some (column line)
  deeper : ∀ c, (around stack line).head? = some c → c < column line
  margin : around stack line = [] → ¬ exempt line → column line = 0

/-- The lines fit one behind the other. Comments may stand anywhere. -/
def FitAll (exempt : List Char → Prop) : List Nat → List (List Char) → Prop
  | _, [] => True
  | stack, line :: rest =>
    (¬ IsComment line → Fits exempt stack line) ∧ FitAll exempt (behind stack line) rest

section

variable {exempt : List Char → Prop} {stack : List Nat}

theorem fitAll_append {lines more : List (List Char)} :
    FitAll exempt stack (lines ++ more) ↔
      FitAll exempt stack lines ∧ FitAll exempt (openHeaders stack lines) more := by
  induction lines generalizing stack with
  | nil => simp [FitAll, openHeaders]
  | cons line rest ih =>
    simp only [List.cons_append, FitAll, ih, openHeaders, List.foldl_cons, and_assoc]

theorem FitAll.fits {before after : List (List Char)} {line : List Char}
    (h : FitAll exempt stack (before ++ line :: after)) (hline : ¬ IsComment line) :
    Fits exempt (openHeaders stack before) line := (fitAll_append.mp h).2.1 hline

end

/-! ## Lines behind a margin -/

section

variable (k : Nat) (cs : List Char)

theorem column_replicate : column (List.replicate k ' ' ++ cs) = k + column cs := by
  rw [column, List.takeWhile_append_of_pos (by simp), List.length_append, List.length_replicate,
    column]

theorem unindented_replicate : unindented (List.replicate k ' ' ++ cs) = unindented cs :=
  List.dropWhile_append_of_pos (by simp)

theorem column_eq_zero {c : Char} (h : cs.head? = some c) (hc : c ≠ ' ') : column cs = 0 := by
  obtain ⟨rest, rfl⟩ := List.head?_eq_some_iff.mp h
  simp [column, hc]

theorem unindented_eq_self {c : Char} (h : cs.head? = some c) (hc : c ≠ ' ') :
    unindented cs = cs := by
  obtain ⟨rest, rfl⟩ := List.head?_eq_some_iff.mp h
  simp [unindented, hc]

end

/-- A line as it is read. A carriage return at its end counts as part of the line end. -/
def shown (width indent : Nat) (l : Line) : List Char :=
  (dropReturn (List.replicate ((indent + l.level) * width) ' ' ++ l.text.toList).reverse).reverse

section

variable (width indent : Nat)

theorem shown_inner (l : Line) : shown width indent l.inner = shown width (indent + 1) l := by
  have hlevel : indent + (l.level + 1) = indent + 1 + l.level := by omega
  simp only [shown, Line.inner, hlevel]

/-- The line stands as it was written if it ends in no carriage return. -/
theorem shown_eq {text : String} {c : Char} (hlast : text.toList.getLast? = some c)
    (hc : c ≠ '\r') :
    shown width indent ⟨0, text⟩ = List.replicate (indent * width) ' ' ++ text.toList := by
  obtain ⟨before, hbefore⟩ := List.getLast?_eq_some_iff.mp hlast
  rw [shown, hbefore, ← List.append_assoc, List.reverse_append]
  simp [dropReturn_cons hc]

/-- A line that starts with two slashes has them behind its margin. -/
theorem exists_shown {text : String} (h : "//".toList <+: text.toList) :
    ∃ kept, shown width indent ⟨0, text⟩ =
      List.replicate (indent * width) ' ' ++ ("//".toList ++ kept) := by
  obtain ⟨rest, hrest⟩ := h
  rcases List.eq_nil_or_concat rest with rfl | ⟨before, c, rfl⟩
  · exact ⟨[], by rw [shown_eq width indent (c := '/') (by simp [← hrest]) (by decide), ← hrest]⟩
  · by_cases hc : c = '\r'
    · subst hc
      refine ⟨before, ?_⟩
      simp [shown, ← hrest, dropReturn]
    · refine ⟨before ++ [c], ?_⟩
      rw [shown_eq width indent (c := c) (by simp [← hrest, List.getLast?_cons]) hc, ← hrest,
        List.concat_eq_append]

/-- A line that starts with two slashes does so wherever it stands. -/
theorem isComment_shown {text : String} (h : "//".toList <+: text.toList) :
    IsComment (shown width indent ⟨0, text⟩) := by
  obtain ⟨kept, hkept⟩ := exists_shown width indent h
  rw [IsComment, hkept, unindented_replicate]
  exact ⟨kept, rfl⟩

theorem linesFrom_append {cs : List Char} (h : '\n' ∉ cs) (current rest : List Char) :
    linesFrom current (cs ++ '\n' :: rest) =
      (dropReturn (cs.reverse ++ current)).reverse :: lines rest := by
  induction cs generalizing current with
  | nil => simp [linesFrom, lines]
  | cons c cs ih =>
    rw [List.mem_cons, not_or] at h
    rw [List.cons_append, linesFrom, if_neg (Ne.symm h.1), ih h.2]
    simp

/-- The lines that were written are the lines that are read. -/
theorem lines_layOut {ls : List Line} (h : ∀ l ∈ ls, '\n' ∉ l.text.toList) :
    lines (layOut width indent ls).toList = ls.map (shown width indent) := by
  induction ls with
  | nil => rfl
  | cons l rest ih =>
    rw [List.forall_mem_cons] at h
    have hline : '\n' ∉ List.replicate ((indent + l.level) * width) ' ' ++ l.text.toList := by
      rw [List.mem_append, not_or]
      exact ⟨fun hmem => absurd (List.eq_of_mem_replicate hmem) (by decide), h.1⟩
    have hsplit : (layOut width indent (l :: rest)).toList =
        (List.replicate ((indent + l.level) * width) ' ' ++ l.text.toList) ++
          '\n' :: (layOut width indent rest).toList := by
      simp [layOut, Line.written, Writer.spaces]
    rw [hsplit, lines, linesFrom_append hline, ih h.2, List.append_nil, List.map_cons, shown]

end

/-! ## Lines that leave the open headers as they were -/

/-- The writer stands at a level inside the innermost header, or at the margin outside of all. -/
def Inside (width indent : Nat) : List Nat → Prop
  | [] => indent = 0
  | column :: _ => column < indent * width

/-- Lines that fit, and which headers are open behind them. -/
structure Passes (exempt : List Char → Prop) (width indent : Nat) (stack stack' : List Nat)
    (ls : List Line) : Prop where
  fits : FitAll exempt stack (ls.map (shown width indent))
  leaves : openHeaders stack (ls.map (shown width indent)) = stack'

section

variable {exempt : List Char → Prop} {width indent : Nat} {stack stack' stack'' : List Nat}
  {ls ms : List Line}

theorem Passes.append (h : Passes exempt width indent stack stack' ls)
    (h' : Passes exempt width indent stack' stack'' ms) :
    Passes exempt width indent stack stack'' (ls ++ ms) := by
  obtain ⟨hfits, rfl⟩ := h
  obtain ⟨hfits', rfl⟩ := h'
  constructor
  · rw [List.map_append, fitAll_append]
    exact ⟨hfits, hfits'⟩
  · rw [List.map_append, openHeaders, List.foldl_append]
    rfl

theorem Passes.inner (h : Passes exempt width (indent + 1) stack stack' ls) :
    Passes exempt width indent stack stack' (ls.map Line.inner) := by
  have hshown : (ls.map Line.inner).map (shown width indent) =
      ls.map (shown width (indent + 1)) := by
    rw [List.map_map]
    exact List.map_congr_left fun l _ => shown_inner width indent l
  exact ⟨hshown ▸ h.fits, hshown ▸ h.leaves⟩

theorem passes_nil : Passes exempt width indent stack stack [] := ⟨trivial, rfl⟩

theorem passes_comment {text : String} (h : "//".toList <+: text.toList) :
    Passes exempt width indent stack stack [⟨0, text⟩] := by
  have hcomment := isComment_shown width indent h
  refine ⟨⟨fun hnot => absurd hcomment hnot, trivial⟩, ?_⟩
  simp [openHeaders, behind, hcomment]

/-- A line that neither opens nor closes a header. -/
theorem passes_plain (hinside : Inside width indent stack) {text : String} {c : Char}
    (hlast : text.toList.getLast? = some c) (hc : c ∉ ['\r', '\x7b'])
    (hcloses : ¬ Closes text.toList)
    (hmargin : stack = [] → column text.toList = 0 ∨ exempt text.toList) :
    Passes exempt width indent stack stack [⟨0, text⟩] := by
  simp only [List.mem_cons, List.not_mem_nil, or_false, not_or] at hc
  have hshown := shown_eq width indent hlast hc.1
  have hopens : ¬ Opens (shown width indent ⟨0, text⟩) := by
    simp [Opens, hshown, List.getLast?_append, hlast, hc.2]
  have hstays : ¬ Closes (shown width indent ⟨0, text⟩) := by
    rwa [hshown, Closes, unindented_replicate]
  have haround : around stack (shown width indent ⟨0, text⟩) = stack := if_neg hstays
  have hcolumn : column (shown width indent ⟨0, text⟩) = indent * width + column text.toList := by
    rw [hshown, column_replicate]
  refine ⟨⟨fun _ => ⟨fun h => absurd h hstays, fun d hd => ?_, fun hout hexempt => ?_⟩, trivial⟩,
    ?_⟩
  · rw [haround] at hd
    obtain ⟨rest, rfl⟩ := List.head?_eq_some_iff.mp hd
    rw [hcolumn]
    exact Nat.lt_of_lt_of_le hinside (Nat.le_add_right _ _)
  · rw [haround] at hout
    subst hout
    have hindent : indent = 0 := hinside
    rcases hmargin rfl with hzero | hown
    · rw [hcolumn, hindent, hzero, Nat.zero_mul]
    · rw [hshown, hindent, Nat.zero_mul, List.replicate_zero, List.nil_append] at hexempt
      exact absurd hown hexempt
  · simp [openHeaders, behind, hopens, haround]

/-- A line that begins and ends in given characters. -/
structure Bounds (text : String) (first last : Char) : Prop where
  head : text.toList.head? = some first
  last : text.toList.getLast? = some last

variable (exempt) in
/-- A header, the end of a block, or both in one line. All of them stand at the level of the writer
and outside the header that they close. -/
theorem passes_braces (hinside : Inside width indent stack) {text : String} {c d : Char}
    (h : Bounds text c d) (hc : c ∉ [' ', '/']) (hd : d ≠ '\r') :
    Passes exempt width indent (if c = '\x7d' then indent * width :: stack else stack)
      (if d = '\x7b' then indent * width :: stack else stack) [⟨0, text⟩] := by
  simp only [List.mem_cons, List.not_mem_nil, or_false, not_or] at hc
  have hshown := shown_eq width indent h.last hd
  have hbare : unindented (shown width indent ⟨0, text⟩) = text.toList := by
    rw [hshown, unindented_replicate, unindented_eq_self _ h.head hc.1]
  have hcolumn : column (shown width indent ⟨0, text⟩) = indent * width := by
    rw [hshown, column_replicate, column_eq_zero _ h.head hc.1, Nat.add_zero]
  have hcomment : ¬ IsComment (shown width indent ⟨0, text⟩) := by
    rw [IsComment, hbare]
    rintro ⟨rest, hrest⟩
    have hhead := h.head
    rw [← hrest] at hhead
    exact hc.2 (Option.some.inj hhead).symm
  have hcloses : Closes (shown width indent ⟨0, text⟩) ↔ c = '\x7d' := by
    rw [Closes, hbare, h.head, Option.some.injEq]
  have hopens : Opens (shown width indent ⟨0, text⟩) ↔ d = '\x7b' := by
    simp [Opens, hshown, List.getLast?_append, h.last]
  have haround : around (if c = '\x7d' then indent * width :: stack else stack)
      (shown width indent ⟨0, text⟩) = stack := by
    by_cases hbrace : c = '\x7d' <;> simp [around, hcloses, hbrace]
  refine ⟨⟨fun _ => ⟨fun h => ?_, fun e he => ?_, fun hout _ => ?_⟩, trivial⟩, ?_⟩
  · rw [if_pos (hcloses.mp h), hcolumn]
    rfl
  · rw [haround] at he
    obtain ⟨rest, rfl⟩ := List.head?_eq_some_iff.mp he
    rw [hcolumn]
    exact hinside
  · rw [haround] at hout
    subst hout
    rw [hcolumn, show indent = 0 from hinside, Nat.zero_mul]
  · simp [openHeaders, behind, hcomment, hopens, haround, hcolumn]

end

/-- Lines that stand on their own: the headers that they open they close again. `own` is what is
left to say about lines that stand outside of all headers. -/
structure Settled (exempt : List Char → Prop) (width : Nat) (own : Prop) (ls : List Line) :
    Prop where
  oneLine : ∀ l ∈ ls, '\n' ∉ l.text.toList
  passes : ∀ indent stack, Inside width indent stack → (stack = [] → own) →
    Passes exempt width indent stack stack ls

/-- Lines behind a header. They close it, and they close again what they open themselves. -/
structure Closing (exempt : List Char → Prop) (width : Nat) (ls : List Line) : Prop where
  oneLine : ∀ l ∈ ls, '\n' ∉ l.text.toList
  passes : ∀ indent stack, Inside width indent stack →
    Passes exempt width indent (indent * width :: stack) stack ls

section

variable {exempt : List Char → Prop} {width : Nat} {own own' : Prop} {ls ms : List Line}
  {text : String} {c d : Char}

theorem Settled.nil : Settled exempt width own [] := ⟨by simp, fun _ _ _ _ => passes_nil⟩

theorem Settled.append (h : Settled exempt width own ls) (h' : Settled exempt width own' ms) :
    Settled exempt width (own ∧ own') (ls ++ ms) where
  oneLine := List.forall_mem_append.mpr ⟨h.oneLine, h'.oneLine⟩
  passes indent stack hinside hown :=
    (h.passes indent stack hinside fun hout => (hown hout).1).append
      (h'.passes indent stack hinside fun hout => (hown hout).2)

theorem Settled.mono (h : Settled exempt width own ls) (himp : own' → own) :
    Settled exempt width own' ls where
  oneLine := h.oneLine
  passes indent stack hinside hown := h.passes indent stack hinside fun hout => himp (hown hout)

theorem Settled.comments {texts : List String} (hline : ∀ t ∈ texts, '\n' ∉ t.toList)
    (h : ∀ t ∈ texts, "//".toList <+: t.toList) :
    Settled exempt width own (texts.map (Line.mk 0)) := by
  refine ⟨by simpa using hline, fun indent stack _ _ => ?_⟩
  clear hline
  induction texts with
  | nil => exact passes_nil
  | cons t rest ih =>
    rw [List.forall_mem_cons] at h
    exact (passes_comment h.1).append (ih h.2)

theorem Settled.plain (hline : '\n' ∉ text.toList) (hlast : text.toList.getLast? = some c)
    (hc : c ∉ ['\r', '\x7b']) (hcloses : ¬ Closes text.toList) :
    Settled exempt width (column text.toList = 0 ∨ exempt text.toList) [⟨0, text⟩] :=
  ⟨by simpa using hline, fun _ _ hinside hown => passes_plain hinside hlast hc hcloses hown⟩

theorem Settled.header (h : Bounds text c '\x7b') (hline : '\n' ∉ text.toList)
    (hc : c ∉ [' ', '/', '\x7d']) (hclosing : Closing exempt width ls) :
    Settled exempt width own (⟨0, text⟩ :: ls) := by
  simp only [List.mem_cons, List.not_mem_nil, or_false, not_or] at hc
  refine ⟨List.forall_mem_cons.mpr ⟨hline, hclosing.oneLine⟩, fun indent stack hinside _ => ?_⟩
  have hheader := passes_braces exempt hinside h (by simp [hc]) (by decide)
  rw [if_neg hc.2.2, if_pos rfl] at hheader
  exact hheader.append (hclosing.passes indent stack hinside)

theorem Closing.footer (h : Bounds text '\x7d' d) (hline : '\n' ∉ text.toList)
    (hd : d ∉ ['\r', '\x7b']) : Closing exempt width [⟨0, text⟩] := by
  simp only [List.mem_cons, List.not_mem_nil, or_false, not_or] at hd
  refine ⟨by simpa using hline, fun indent stack hinside => ?_⟩
  have hfooter := passes_braces exempt hinside h (by decide) hd.1
  rwa [if_pos rfl, if_neg hd.2] at hfooter

/-- A line that closes a header and opens the next one. -/
theorem Closing.next (h : Bounds text '\x7d' '\x7b') (hline : '\n' ∉ text.toList)
    (hclosing : Closing exempt width ls) : Closing exempt width (⟨0, text⟩ :: ls) := by
  refine ⟨List.forall_mem_cons.mpr ⟨hline, hclosing.oneLine⟩, fun indent stack hinside => ?_⟩
  have hnext := passes_braces exempt hinside h (by decide) (by decide)
  rw [if_pos rfl, if_pos rfl] at hnext
  exact hnext.append (hclosing.passes indent stack hinside)

/-- A body stands further in than its header. -/
theorem Closing.body (hwidth : 1 ≤ width) (h : Settled exempt width own ls)
    (hclosing : Closing exempt width ms) : Closing exempt width (ls.map Line.inner ++ ms) := by
  refine ⟨List.forall_mem_append.mpr ⟨?_, hclosing.oneLine⟩, fun indent stack hinside => ?_⟩
  · exact List.forall_mem_map.mpr h.oneLine
  · have hdeeper : Inside width (indent + 1) (indent * width :: stack) := by
      simp only [Inside, Nat.add_mul]
      omega
    have hbody := h.passes (indent + 1) (indent * width :: stack) hdeeper (by simp)
    exact hbody.inner.append (hclosing.passes indent stack hinside)

theorem Settled.bracketed (hwidth : 1 ≤ width) {header footer : String}
    (hh : Bounds header c '\x7b') (hline : '\n' ∉ header.toList) (hc : c ∉ [' ', '/', '\x7d'])
    (hbody : Settled exempt width own' ls) (hfooter : Closing exempt width [⟨0, footer⟩]) :
    Settled exempt width own (Outline.bracketed header ls footer) :=
  .header hh hline hc (.body hwidth hbody hfooter)

end

/-! ## Statements -/

theorem newline_linesFrom {cs : List Char} {current : List Char} (h : '\n' ∉ current) :
    ∀ l ∈ linesFrom current cs, '\n' ∉ l := by
  have hdrop : ∀ cs : List Char, '\n' ∉ cs → '\n' ∉ (dropReturn cs).reverse := by
    intro cs hcs
    rw [List.mem_reverse]
    unfold dropReturn
    split
    · exact fun hmem => hcs (List.mem_cons_of_mem _ hmem)
    · exact hcs
  induction cs generalizing current with
  | nil =>
    rw [linesFrom]
    split
    · simp
    · simpa using h
  | cons c rest ih =>
    rw [linesFrom]
    split
    · rw [List.forall_mem_cons]
      exact ⟨hdrop _ h, ih List.not_mem_nil⟩
    · rename_i hc
      exact ih (by rw [List.mem_cons, not_or]; exact ⟨Ne.symm hc, h⟩)

theorem commentLines_spec (text : String) :
    ∀ t ∈ commentLines text, '\n' ∉ t.toList ∧ "//".toList <+: t.toList := by
  unfold commentLines
  split
  · simp
  · rw [List.forall_mem_map]
    intro l hl
    have hline := newline_linesFrom List.not_mem_nil l hl
    split
    · decide
    · refine ⟨by simpa using hline, ⟨' ' :: l, by simp⟩⟩

end Columns

mutual

/-- The functions that a statement defines have identifiers for names and the paths that it includes
stand on one line. -/
def Stmt.Proper : Stmt → Prop
  | .expr _ | .comment _ => True
  | .forLoop _ _ _ body | .whileLoop _ body => Stmt.ProperAll body
  | .ifChain arms => Branch.ProperAll arms
  | .switch _ cases none => SwitchCase.ProperAll cases
  | .switch _ cases (some body) => SwitchCase.ProperAll cases ∧ Stmt.ProperAll body
  | .function signature _ body => isIdentifier signature.name ∧ Stmt.ProperAll body
  | .includeFile path => '\n' ∉ path.text.toList

def Stmt.ProperAll : List Stmt → Prop
  | [] => True
  | s :: rest => s.Proper ∧ Stmt.ProperAll rest

def Branch.ProperAll : List Branch → Prop
  | [] => True
  | ⟨_, body⟩ :: rest => Stmt.ProperAll body ∧ Branch.ProperAll rest

def SwitchCase.ProperAll : List SwitchCase → Prop
  | [] => True
  | ⟨_, body⟩ :: rest => Stmt.ProperAll body ∧ SwitchCase.ProperAll rest

end

namespace Columns

section

variable {exempt : List Char → Prop} {width : Nat} {f : NodeId → String}

theorem settled_expr {text : String} (h : IsBare text) :
    Settled exempt width (IsFlush text ∨ exempt (text ++ ";").toList) [⟨0, text ++ ";"⟩] := by
  have hplain : Settled exempt width _ [⟨0, text ++ ";"⟩] :=
    .plain (c := ';') (by simpa using h.newline) (by simp) (by decide) ?_
  · refine hplain.mono (Or.imp_left fun hflush => ?_)
    obtain ⟨c, hc, hne⟩ := hflush.append ";"
    exact column_eq_zero _ hc hne
  · intro hcloses
    have hmem := (List.dropWhile_sublist _).mem (List.mem_of_head? hcloses)
    rw [String.toList_append, List.mem_append] at hmem
    rcases hmem with hmem | hmem
    · exact h _ hmem (by decide)
    · exact absurd hmem (by decide)

theorem settled_include {path : HeaderPath} (h : '\n' ∉ path.text.toList) {own : Prop} :
    Settled exempt width own [⟨0, "#include " ++ path.text⟩] := by
  have hlast : ∃ c, ("#include " ++ path.text).toList.getLast? = some c ∧ c ∉ ['\r', '\x7b'] := by
    cases path with
    | system p =>
      exact ⟨'>', by simp [HeaderPath.text, List.getLast?_cons, List.getLast?_append], by decide⟩
    | localFile p =>
      exact ⟨'"', by simp [HeaderPath.text, List.getLast?_cons, List.getLast?_append], by decide⟩
  obtain ⟨c, hlast, hc⟩ := hlast
  have hplain : Settled exempt width _ [⟨0, "#include " ++ path.text⟩] :=
    .plain (by simpa using h) hlast hc (by simp [Closes, unindented])
  exact hplain.mono fun _ => Or.inl (by simp [column])

theorem closing_brace : Closing exempt width [⟨0, "\x7d"⟩] :=
  .footer (d := '\x7d') ⟨rfl, rfl⟩ (by decide) (by decide)

theorem closing_break : Closing exempt width [⟨0, "\x7d break;"⟩] :=
  .footer (d := ';') ⟨rfl, rfl⟩ (by decide) (by decide)

section

attribute [local simp] List.getLast?_cons List.getLast?_append

theorem bounds_for (init cond step : String) :
    Bounds (Outline.forHeader init cond step) 'f' '\x7b' :=
  ⟨by simp [Outline.forHeader], by simp [Outline.forHeader]⟩

theorem bounds_while (cond : String) : Bounds (Outline.whileHeader cond) 'w' '\x7b' :=
  ⟨by simp [Outline.whileHeader], by simp [Outline.whileHeader]⟩

theorem bounds_switch (subject : String) : Bounds (Outline.switchHeader subject) 's' '\x7b' :=
  ⟨by simp [Outline.switchHeader], by simp [Outline.switchHeader]⟩

theorem bounds_case (value : String) : Bounds (Outline.caseHeader value) 'c' '\x7b' :=
  ⟨by simp [Outline.caseHeader], by simp [Outline.caseHeader]⟩

theorem bounds_firstArm (cond : Option String) :
    ∃ c, Bounds (Outline.armHeader true cond) c '\x7b' ∧ c ∉ [' ', '/', '\x7d'] := by
  cases cond with
  | none => exact ⟨'\x7b', ⟨rfl, rfl⟩, by decide⟩
  | some cond =>
    exact ⟨'i', ⟨by simp [Outline.armHeader], by simp [Outline.armHeader]⟩, by decide⟩

theorem bounds_nextArm (cond : Option String) :
    Bounds (Outline.armHeader false cond) '\x7d' '\x7b' := by
  cases cond with
  | none => exact ⟨rfl, rfl⟩
  | some cond => exact ⟨by simp [Outline.armHeader], by simp [Outline.armHeader]⟩

theorem bounds_function (signature : Signature) (params : List Slot) :
    ∃ c, Bounds (functionHeader signature params) c '\x7b' ∧ c ∉ [' ', '/', '\x7d'] := by
  obtain ⟨word, hword, rest, hheader⟩ := Mark.exists_typeWord signature params
  have hlast : (functionHeader signature params).toList.getLast? = some '\x7b' := by simp [hheader]
  rw [String.append_assoc] at hheader
  have hhead : ∀ c cs, word.toList = c :: cs →
      (functionHeader signature params).toList.head? = some c := by
    intro c cs h
    simp [hheader, h]
  simp only [Mark.typeWords, List.mem_cons, List.not_mem_nil, or_false] at hword
  rcases hword with rfl | rfl | rfl | rfl | rfl | rfl | rfl | rfl | rfl | rfl | rfl | rfl <;>
    exact ⟨_, ⟨hhead _ _ rfl, hlast⟩, by decide⟩

end

theorem newline_armHeader (first : Bool) {cond : Option String} (h : ∀ c ∈ cond, IsBare c) :
    '\n' ∉ (Outline.armHeader first cond).toList := by
  cases cond with
  | none => cases first <;> decide
  | some c => cases first <;> simp [Outline.armHeader, (h c rfl).newline]

theorem forall_roots_branch {cond : Option NodeId} {body : List Stmt} {rest : List Branch}
    (h : ∀ r ∈ Branch.rootsAll (⟨cond, body⟩ :: rest), IsBare (f r)) :
    (∀ c ∈ cond.map f, IsBare c) ∧ (∀ r ∈ Stmt.rootsAll body, IsBare (f r)) ∧
      ∀ r ∈ Branch.rootsAll rest, IsBare (f r) := by
  cases cond with
  | none =>
    simp only [Branch.rootsAll, List.forall_mem_append] at h
    exact ⟨by simp, h⟩
  | some c =>
    simp only [Branch.rootsAll, List.forall_mem_cons, List.forall_mem_append] at h
    exact ⟨by simpa using h.1, h.2⟩

mutual

/-- A statement leaves the open headers as they were. Where it is an expression, that has to begin
at the margin by itself. -/
theorem settled_stmt (hwidth : 1 ≤ width) : ∀ s : Stmt, s.Proper → (∀ r ∈ s.roots, IsBare (f r)) →
    Settled exempt width (∀ id, s = .expr id → IsFlush (f id) ∨ exempt (f id ++ ";").toList)
      (s.outline f).lines
  | .expr id, _, hbare => by
    simp only [Stmt.roots, List.forall_mem_singleton] at hbare
    rw [Stmt.outline, Outline.lines]
    exact (settled_expr hbare).mono fun h => h id rfl
  | .comment text, _, _ => by
    rw [Stmt.outline, Outline.lines]
    exact .comments (fun t ht => (commentLines_spec text t ht).1)
      fun t ht => (commentLines_spec text t ht).2
  | .includeFile path, h, _ => by
    rw [Stmt.Proper] at h
    rw [Stmt.outline, Outline.lines]
    exact settled_include h
  | .forLoop init cond step body, h, hbare => by
    simp only [Stmt.roots, List.forall_mem_cons] at hbare
    rw [Stmt.Proper] at h
    rw [Stmt.outline, Outline.lines]
    have hline : '\n' ∉ (Outline.forHeader (f init) (f cond) (f step)).toList := by
      simp [Outline.forHeader, hbare.1.newline, hbare.2.1.newline, hbare.2.2.1.newline]
    exact .bracketed hwidth (bounds_for _ _ _) hline (by decide)
      (settled_stmts hwidth body h hbare.2.2.2) closing_brace
  | .whileLoop cond body, h, hbare => by
    simp only [Stmt.roots, List.forall_mem_cons] at hbare
    rw [Stmt.Proper] at h
    rw [Stmt.outline, Outline.lines]
    have hline : '\n' ∉ (Outline.whileHeader (f cond)).toList := by
      simp [Outline.whileHeader, hbare.1.newline]
    exact .bracketed hwidth (bounds_while _) hline (by decide)
      (settled_stmts hwidth body h hbare.2) closing_brace
  | .function signature params body, h, hbare => by
    rw [Stmt.Proper] at h
    rw [Stmt.outline, Outline.lines]
    obtain ⟨c, hbounds, hc⟩ := bounds_function signature params
    exact .bracketed hwidth hbounds (Mark.newline_functionHeader h.1 params) hc
      (settled_stmts hwidth body h.2 hbare) closing_brace
  | .ifChain [], _, _ => .nil
  | .ifChain (⟨cond, body⟩ :: rest), h, hbare => by
    rw [Stmt.Proper, Branch.ProperAll] at h
    obtain ⟨hcond, hbody, hrest⟩ := forall_roots_branch hbare
    obtain ⟨c, hbounds, hc⟩ := bounds_firstArm (cond.map f)
    have hline := newline_armHeader true hcond
    have hclosing := Closing.body hwidth (settled_stmts hwidth body h.1 hbody)
      (closing_branches hwidth rest h.2 hrest)
    simpa [Stmt.outline, Branch.outlineAll, Outline.lines, Outline.Arm.linesAll] using
      Settled.header hbounds hline hc hclosing
  | .switch subject cases none, h, hbare => by
    simp only [Stmt.roots, List.forall_mem_cons] at hbare
    rw [Stmt.Proper] at h
    rw [Stmt.outline, Outline.lines]
    have hline : '\n' ∉ (Outline.switchHeader (f subject)).toList := by
      simp [Outline.switchHeader, hbare.1.newline]
    exact .bracketed hwidth (bounds_switch _) hline (by decide)
      (settled_cases hwidth cases h hbare.2) closing_brace
  | .switch subject cases (some body), h, hbare => by
    simp only [Stmt.roots, List.forall_mem_cons, List.forall_mem_append] at hbare
    rw [Stmt.Proper] at h
    rw [Stmt.outline, Outline.lines]
    have hline : '\n' ∉ (Outline.switchHeader (f subject)).toList := by
      simp [Outline.switchHeader, hbare.1.newline]
    have hdefault : Settled exempt width True
        (Outline.bracketed "default: \x7b" (Outline.linesAll (Stmt.outlineAll f body))
          "\x7d break;") :=
      .bracketed (c := 'd') hwidth ⟨rfl, rfl⟩ (by decide) (by decide)
        (settled_stmts hwidth body h.2 hbare.2.2) closing_break
    exact .bracketed hwidth (bounds_switch _) hline (by decide)
      ((settled_cases hwidth cases h.1 hbare.2.1).append hdefault) closing_brace

theorem settled_stmts (hwidth : 1 ≤ width) : ∀ ss : List Stmt, Stmt.ProperAll ss →
    (∀ r ∈ Stmt.rootsAll ss, IsBare (f r)) →
    Settled exempt width (∀ id, .expr id ∈ ss → IsFlush (f id) ∨ exempt (f id ++ ";").toList)
      (Outline.linesAll (Stmt.outlineAll f ss))
  | [], _, _ => .nil
  | s :: rest, h, hbare => by
    simp only [Stmt.rootsAll, List.forall_mem_append] at hbare
    rw [Stmt.ProperAll] at h
    rw [Stmt.outlineAll, Outline.linesAll]
    have hfirst : Settled exempt width _ _ := settled_stmt hwidth s h.1 hbare.1
    have hrest : Settled exempt width _ _ := settled_stmts hwidth rest h.2 hbare.2
    refine (hfirst.append hrest).mono fun hown =>
      ⟨?_, fun id hid => hown id (List.mem_cons_of_mem s hid)⟩
    rintro id rfl
    exact hown id List.mem_cons_self

/-- The arms behind the first one and the line that ends the chain. -/
theorem closing_branches (hwidth : 1 ≤ width) : ∀ arms : List Branch, Branch.ProperAll arms →
    (∀ r ∈ Branch.rootsAll arms, IsBare (f r)) →
    Closing exempt width (Outline.Arm.linesAll false (Branch.outlineAll f arms) ++ [⟨0, "\x7d"⟩])
  | [], _, _ => closing_brace
  | ⟨cond, body⟩ :: rest, h, hbare => by
    rw [Branch.ProperAll] at h
    obtain ⟨hcond, hbody, hrest⟩ := forall_roots_branch hbare
    have hline := newline_armHeader false hcond
    have hclosing := Closing.body hwidth (settled_stmts hwidth body h.1 hbody)
      (closing_branches hwidth rest h.2 hrest)
    simpa [Branch.outlineAll, Outline.Arm.linesAll] using
      Closing.next (bounds_nextArm (cond.map f)) hline hclosing

theorem settled_cases (hwidth : 1 ≤ width) : ∀ arms : List SwitchCase, SwitchCase.ProperAll arms →
    (∀ r ∈ SwitchCase.rootsAll arms, IsBare (f r)) →
    Settled exempt width True (Outline.Case.linesAll (SwitchCase.outlineAll f arms))
  | [], _, _ => .nil
  | ⟨value, body⟩ :: rest, h, hbare => by
    simp only [SwitchCase.rootsAll, List.forall_mem_cons, List.forall_mem_append] at hbare
    rw [SwitchCase.ProperAll] at h
    rw [SwitchCase.outlineAll, Outline.Case.linesAll]
    have hline : '\n' ∉ (Outline.caseHeader (f value)).toList := by
      simp [Outline.caseHeader, hbare.1.newline]
    have hcase : Settled exempt width True (Outline.bracketed (Outline.caseHeader (f value))
        (Outline.linesAll (Stmt.outlineAll f body)) "\x7d break;") :=
      .bracketed hwidth (bounds_case _) hline (by decide)
        (settled_stmts hwidth body h.1 hbare.2.1) closing_break
    exact (hcase.append (settled_cases hwidth rest h.2 hbare.2.2)).mono fun _ => ⟨trivial, trivial⟩

end

end

end Columns

namespace Arena

open Columns

variable {a : Arena} {stmts : List Stmt} {options : RenderOptions} {r : Rendered}

/-- The line of an expression that begins with a leaf without a text and is a statement of the
list. -/
def IsUnspelled (a : Arena) (stmts : List Stmt) (limit : Nat) (line : List Char) : Prop :=
  ∃ id text, .expr id ∈ stmts ∧ ¬ a.Spelled id ∧ a.renderExpr id limit = .ok text ∧
    line = (text ++ ";").toList

/-- The lines of a rendering fit one behind the other, and no header stays open. -/
theorem passes_render (hnamed : ∀ root ∈ Stmt.rootsAll stmts, a.Named root)
    (hproper : Stmt.ProperAll stmts) (hwidth : 1 ≤ options.indentWidth)
    (h : a.render stmts options = .ok r) :
    FitAll (a.IsUnspelled stmts options.maxDepth) [] (lines r.code.toList) ∧
      openHeaders [] (lines r.code.toList) = [] := by
  obtain ⟨hafford, rfl⟩ := render_eq_ok_iff.mp h
  have htext : ∀ root ∈ Stmt.rootsAll stmts, ∃ text, a.renderExpr root options.maxDepth = .ok text ∧
      a.textWithin options.maxDepth root = text := by
    intro root hroot
    obtain ⟨text, hok⟩ := hafford.texts root hroot
    exact ⟨text, hok, textWithin_of_ok hok⟩
  have hbare : ∀ root ∈ Stmt.rootsAll stmts, IsBare (a.textWithin options.maxDepth root) := by
    intro root hroot
    obtain ⟨text, hok, htext⟩ := htext root hroot
    exact htext ▸ (hnamed root hroot).isBare_text hok
  have hsettled : Settled (a.IsUnspelled stmts options.maxDepth) options.indentWidth _
      (Outline.linesAll (Stmt.outlineAll (a.textWithin options.maxDepth) stmts)) :=
    settled_stmts hwidth stmts hproper hbare
  have hpasses := hsettled.passes 0 [] rfl fun _ id hid => by
    have hroot : id ∈ Stmt.rootsAll stmts :=
      Stmt.mem_rootsAll.mpr ⟨.expr id, hid, by simp [Stmt.roots]⟩
    obtain ⟨text, hok, htext⟩ := htext id hroot
    rw [htext]
    by_cases hspelled : a.Spelled id
    · exact Or.inl ((hnamed id hroot).isFlush_text hspelled hok)
    · exact Or.inr ⟨id, text, hid, hspelled, hok, rfl⟩
  rw [lines_layOut _ _ hsettled.oneLine]
  exact ⟨hpasses.fits, hpasses.leaves⟩

/-- In every rendering a line that begins with a brace closes the header that was opened last and is
still open, at the column of that header. Every other line stands further in than the header around
it, headers among them. No header stays open. Outside of all headers a line begins at column zero,
unless it is an expression of the list that begins with a leaf without a text. -/
theorem fits_of_render (hnamed : ∀ root ∈ Stmt.rootsAll stmts, a.Named root)
    (hproper : Stmt.ProperAll stmts) (hwidth : 1 ≤ options.indentWidth)
    (h : a.render stmts options = .ok r) :
    (∀ before line after, lines r.code.toList = before ++ line :: after → ¬ IsComment line →
      Fits (a.IsUnspelled stmts options.maxDepth) (openHeaders [] before) line) ∧
    openHeaders [] (lines r.code.toList) = [] := by
  obtain ⟨hfits, hclosed⟩ := passes_render hnamed hproper hwidth h
  refine ⟨fun before line after hlines hcomment => ?_, hclosed⟩
  rw [hlines] at hfits
  exact hfits.fits hcomment

theorem named_of_nodes (hleaves : ∀ v, .leaf v ∈ a.nodes → v.IsNamed)
    (hcalls : ∀ callee range, .call callee range ∈ a.nodes → isIdentifier callee.name)
    (root : NodeId) : a.Named root where
  leaves _ v _ hv := hleaves v (Array.mem_of_getElem? (content?_eq_some_iff.mp hv))
  callees _ callee range _ hcall := hcalls callee range (Array.mem_of_getElem? hcall)

/-- An include, and a chain in a function with a comment in its second arm. -/
theorem fits_of_render_chain :
    let a : Arena := ⟨#[.leaf (.scalar .u32 "x")], #[]⟩
    let stmts : List Stmt := [.includeFile (.system "cstdint"),
      .function ⟨"f", [], none⟩ [] [.ifChain [⟨some ⟨0⟩, [.expr ⟨0⟩]⟩, ⟨none, [.comment "\x7d"]⟩]]]
    (∀ root ∈ Stmt.rootsAll stmts, a.Named root) ∧ Stmt.ProperAll stmts ∧
      1 ≤ ({} : RenderOptions).indentWidth ∧
      ∃ r, a.render stmts {} = .ok r ∧
        (∀ before line after, lines r.code.toList = before ++ line :: after → ¬ IsComment line →
          Fits (a.IsUnspelled stmts ({} : RenderOptions).maxDepth) (openHeaders [] before) line) ∧
        openHeaders [] (lines r.code.toList) = [] := by
  intro a stmts
  have hnamed : ∀ root ∈ Stmt.rootsAll stmts, a.Named root := fun root _ =>
    named_of_nodes (by simpa [a, Variable.IsNamed, Variable.name?] using by decide) (by simp [a])
      root
  have hproper : Stmt.ProperAll stmts := by
    simpa [stmts, Stmt.ProperAll, Stmt.Proper, Branch.ProperAll, HeaderPath.text] using by decide
  have hrender : ∃ r, a.render stmts {} = .ok r := ⟨_, rfl⟩
  obtain ⟨r, hr⟩ := hrender
  exact ⟨hnamed, hproper, by decide, r, hr, fits_of_render hnamed hproper (by decide) hr⟩

/-- A sum whose first operand is a pointer to a constant, which has no text, does not begin at the
margin, although everything that has a name has a proper one. -/
theorem margin_of_nameless :
    let a : Arena := ⟨#[.leaf (.pointer (.literal (.i32 7))), .leaf (.scalar .i32 "x"),
      .binary .add ⟨0⟩ ⟨1⟩], #[]⟩
    let stmts : List Stmt := [.expr ⟨2⟩]
    (∀ root ∈ Stmt.rootsAll stmts, a.Named root) ∧ Stmt.ProperAll stmts ∧
      1 ≤ ({} : RenderOptions).indentWidth ∧ ∃ r, a.render stmts {} = .ok r ∧
        ∃ before line after, lines r.code.toList = before ++ line :: after ∧ ¬ IsComment line ∧
          around (openHeaders [] before) line = [] ∧ column line ≠ 0 := by
  intro a stmts
  have hnamed : ∀ root ∈ Stmt.rootsAll stmts, a.Named root := fun root _ =>
    named_of_nodes (by simpa [a, Variable.IsNamed, Variable.name?] using by decide) (by simp [a])
      root
  have hproper : Stmt.ProperAll stmts := by simp [stmts, Stmt.ProperAll, Stmt.Proper]
  exact ⟨hnamed, hproper, by decide, ⟨" + x;\n", []⟩, rfl, [], " + x;".toList, [], rfl, by decide,
    rfl, by decide⟩

end Arena

end KernelForge
