import KernelForge.Proofs.Render.Marks

/-!
# Reading blocks back

The text of a kernel tells its statements: which constructs there are, how they are nested, which
arms have conditions, and what stands for each expression. A reader that knows the width of a level
and looks at one line at a time finds all of it again.
-/
namespace KernelForge

open Text

namespace Outline

mutual

/-- An outline that can be read back. Comments may contain anything and are left out. -/
def Legible : Outline String → Prop
  | expr text => IsBare text
  | forLoop init cond step body => IsBare init ∧ IsBare cond ∧ IsBare step ∧ LegibleAll body
  | whileLoop cond body => IsBare cond ∧ LegibleAll body
  | ifChain [] => False
  | ifChain (arm :: rest) => arm.cond.isSome ∧ Arm.LegibleAll (arm :: rest)
  | switch subject cases none => IsBare subject ∧ Case.LegibleAll cases
  | switch subject cases (some body) =>
    IsBare subject ∧ Case.LegibleAll cases ∧ LegibleAll body
  | function header body =>
    (∃ signature params, isIdentifier signature.name ∧ header = functionHeader signature params) ∧
      LegibleAll body
  | comment _ => False
  | includeFile path => '\n' ∉ path.text.toList

def LegibleAll : List (Outline String) → Prop
  | [] => True
  | s :: rest => s.Legible ∧ LegibleAll rest

def Arm.LegibleAll : List (Arm String) → Prop
  | [] => True
  | ⟨none, body⟩ :: rest => Outline.LegibleAll body ∧ Arm.LegibleAll rest
  | ⟨some cond, body⟩ :: rest => IsBare cond ∧ Outline.LegibleAll body ∧ Arm.LegibleAll rest

def Case.LegibleAll : List (Case String) → Prop
  | [] => True
  | ⟨value, body⟩ :: rest => IsBare value ∧ Outline.LegibleAll body ∧ Case.LegibleAll rest

end

end Outline

/-! ## The reader -/

/-- The characters of a line at a level. -/
def written (width level : Nat) (text : String) : List Char :=
  List.replicate (level * width) ' ' ++ (text.toList ++ ['\n'])

namespace Blocks

/-- The next line without its margin. -/
def line? (width level : Nat) (cs : List Char) : Option (Mark × List Char) :=
  match cs.dropWhile (· ≠ '\n') with
  | [] => none
  | _ :: rest => some (.ofLine ((cs.takeWhile (· ≠ '\n')).drop (level * width)), rest)

/-- Whether the next line ends the block it stands behind. -/
def ends (cs : List Char) : Bool :=
  match cs.dropWhile (· = ' ') with
  | [] => true
  | c :: _ => c = '\x7d'

mutual

def statement (width level : Nat) : Reader (Outline String)
  | 0, _ => none
  | n + 1, cs => do
    let (mark, cs) ← line? width level cs
    match mark with
    | .expr text => some (.expr text, cs)
    | .includeFile path => some (.includeFile path, cs)
    | .forLoop init cond step => do
      let (body, cs) ← block width level n cs
      some (.forLoop init cond step body, cs)
    | .whileLoop cond => do
      let (body, cs) ← block width level n cs
      some (.whileLoop cond body, cs)
    | .function header => do
      let (body, cs) ← block width level n cs
      some (.function header body, cs)
    | .firstArm cond => do
      let (body, cs) ← statements width (level + 1) n cs
      let (rest, cs) ← arms width level n cs
      some (.ifChain (⟨some cond, body⟩ :: rest), cs)
    | .switch subject => do
      let ((cases, default), cs) ← cases width (level + 1) n cs
      let (_, cs) ← line? width level cs
      some (.switch subject cases default, cs)
    | _ => none

/-- The statements of a block and the line that ends it. -/
def block (width level : Nat) : Reader (List (Outline String))
  | 0, _ => none
  | n + 1, cs => do
    let (body, cs) ← statements width (level + 1) n cs
    let (_, cs) ← line? width level cs
    some (body, cs)

def statements (width level : Nat) : Reader (List (Outline String))
  | 0, _ => none
  | n + 1, cs =>
    if ends cs then some ([], cs)
    else do
      let (s, cs) ← statement width level n cs
      let (rest, cs) ← statements width level n cs
      some (s :: rest, cs)

/-- The arms behind the first one and the line that ends the chain. -/
def arms (width level : Nat) : Reader (List (Outline.Arm String))
  | 0, _ => none
  | n + 1, cs => do
    let (mark, cs) ← line? width level cs
    match mark with
    | .nextArm cond => do
      let (body, cs) ← statements width (level + 1) n cs
      let (rest, cs) ← arms width level n cs
      some (⟨cond, body⟩ :: rest, cs)
    | _ => some ([], cs)

/-- The arms of a switch. The default, if there is one, is the last of them. -/
def cases (width level : Nat) :
    Reader (List (Outline.Case String) × Option (List (Outline String)))
  | 0, _ => none
  | n + 1, cs =>
    if ends cs then some (([], none), cs)
    else do
      let (mark, cs) ← line? width level cs
      let (body, cs) ← block width level n cs
      match mark with
      | .case value => do
        let ((rest, default), cs) ← cases width level n cs
        some ((⟨value, body⟩ :: rest, default), cs)
      | _ => some (([], some body), cs)

end

/-! ## What the reader finds -/

theorem line?_written (width level : Nat) {text : String} {mark : Mark} (h : '\n' ∉ text.toList)
    (hmark : .ofLine text.toList = mark) (rest : List Char) :
    line? width level (written width level text ++ rest) = some (mark, rest) := by
  subst hmark
  have hline : ∀ c ∈ List.replicate (level * width) ' ' ++ text.toList,
      decide (c ≠ '\n') = true := by
    intro c hc
    rw [decide_eq_true_eq]
    rintro rfl
    rcases List.mem_append.mp hc with hc | hc
    · exact absurd (List.eq_of_mem_replicate hc) (by decide)
    · exact h hc
  have hsplit : written width level text ++ rest =
      (List.replicate (level * width) ' ' ++ text.toList) ++ '\n' :: rest := by
    simp [written]
  rw [line?, hsplit, List.takeWhile_append_of_pos hline, List.dropWhile_append_of_pos hline]
  simp

theorem newline_endBlock : '\n' ∉ "\x7d".toList := by decide

theorem newline_endCase : '\n' ∉ "\x7d break;".toList := by decide

theorem head?_endCase : "\x7d break;".toList.head? = some '\x7d' := rfl

theorem ends_written {width level : Nat} {text : String} (h : text.toList.head? = some '\x7d')
    (rest : List Char) : ends (written width level text ++ rest) = true := by
  obtain ⟨cs, hcs⟩ := List.head?_eq_some_iff.mp h
  have hblank : ∀ c ∈ List.replicate (level * width) ' ', decide (c = ' ') = true := by
    intro c hc
    rw [List.eq_of_mem_replicate hc]
    rfl
  rw [ends, written, hcs, List.append_assoc, List.dropWhile_append_of_pos hblank]
  simp

/-- A line ends no block when something that is no blank comes before any closing brace. -/
theorem not_ends_written (width level : Nat) {text : String} {before behind : List Char} {c : Char}
    (htext : text.toList = before ++ c :: behind) (hbefore : '\x7d' ∉ before)
    (hc : c ≠ ' ' ∧ c ≠ '\x7d') (rest : List Char) :
    ends (written width level text ++ rest) = false := by
  have hmargin : '\x7d' ∉ List.replicate (level * width) ' ' ++ before := by
    rw [List.mem_append]
    rintro (h | h)
    · exact absurd (List.eq_of_mem_replicate h) (by decide)
    · exact hbefore h
  have hsplit : written width level text ++ rest =
      (List.replicate (level * width) ' ' ++ before) ++ c :: (behind ++ '\n' :: rest) := by
    simp [written, htext]
  rw [hsplit]
  generalize List.replicate (level * width) ' ' ++ before = cs at hmargin
  induction cs with
  | nil => simp [ends, hc.1, hc.2]
  | cons d cs ih =>
    rw [List.mem_cons, not_or] at hmargin
    by_cases hd : d = ' '
    · subst hd
      have := ih hmargin.2
      simpa [ends] using this
    · have hne : d ≠ '\x7d' := fun h => hmargin.1 h.symm
      simp [ends, hd, hne]

theorem not_ends_of_head (width level : Nat) {text : String} (c : Char)
    (h : text.toList.head? = some c) (hc : c ≠ ' ' ∧ c ≠ '\x7d') (rest : List Char) :
    ends (written width level text ++ rest) = false := by
  obtain ⟨cs, hcs⟩ := List.head?_eq_some_iff.mp h
  exact not_ends_written width level hcs List.not_mem_nil hc rest

section

variable {width level : Nat} {cs behind rest : List Char} {body : List (Outline String)}

theorem reads_expr {text : String} (h : IsBare text) :
    Reads (statement width level) (written width level (text ++ ";") ++ rest) (.expr text) rest :=
  reads_of_succ 0 fun n _ => by
    have hline : '\n' ∉ (text ++ ";").toList := by simpa using h.newline
    simp [statement, line?_written _ _ hline (Mark.ofLine_expr h)]

theorem reads_includeFile {path : HeaderPath} (h : '\n' ∉ path.text.toList) :
    Reads (statement width level) (written width level ("#include " ++ path.text) ++ rest)
      (.includeFile path) rest :=
  reads_of_succ 0 fun n _ => by
    have hline : '\n' ∉ ("#include " ++ path.text).toList := by simpa using h
    simp [statement, line?_written _ _ hline (Mark.ofLine_path path)]

/-- A block ends with any line that begins with a closing brace. -/
theorem reads_block {footer : String} (hfooter : '\n' ∉ footer.toList)
    (h : Reads (statements width (level + 1)) cs body (written width level footer ++ rest)) :
    Reads (block width level) cs body rest := by
  obtain ⟨m, hm⟩ := h
  exact reads_of_succ m fun n hn => by simp [block, hm n hn, line?_written _ _ hfooter rfl]

theorem reads_forLoop {init cond step : String} (hinit : IsBare init) (hcond : IsBare cond)
    (hstep : IsBare step) (h : Reads (block width level) cs body rest) :
    Reads (statement width level) (written width level (Outline.forHeader init cond step) ++ cs)
      (.forLoop init cond step body) rest := by
  have hline : '\n' ∉ (Outline.forHeader init cond step).toList := by
    simp [Outline.forHeader, hinit.newline, hcond.newline, hstep.newline]
  obtain ⟨m, hm⟩ := h
  exact reads_of_succ m fun n hn => by
    simp [statement, line?_written _ _ hline (Mark.ofLine_for hinit hcond step), hm n hn]

theorem reads_whileLoop {cond : String} (hcond : IsBare cond)
    (h : Reads (block width level) cs body rest) :
    Reads (statement width level) (written width level (Outline.whileHeader cond) ++ cs)
      (.whileLoop cond body) rest := by
  have hline : '\n' ∉ (Outline.whileHeader cond).toList := by
    simp [Outline.whileHeader, hcond.newline]
  obtain ⟨m, hm⟩ := h
  exact reads_of_succ m fun n hn => by
    simp [statement, line?_written _ _ hline (Mark.ofLine_while cond), hm n hn]

theorem reads_function {signature : Signature} (params : List Slot)
    (hname : isIdentifier signature.name) (h : Reads (block width level) cs body rest) :
    Reads (statement width level) (written width level (functionHeader signature params) ++ cs)
      (.function (functionHeader signature params) body) rest := by
  have hline := Mark.newline_functionHeader hname params
  obtain ⟨m, hm⟩ := h
  exact reads_of_succ m fun n hn => by
    simp [statement, line?_written _ _ hline (Mark.ofLine_function signature params), hm n hn]

theorem reads_ifChain {cond : String} {rests : List (Outline.Arm String)} (hcond : IsBare cond)
    (h : Reads (statements width (level + 1)) cs body behind)
    (h' : Reads (arms width level) behind rests rest) :
    Reads (statement width level)
      (written width level (Outline.armHeader true (some cond)) ++ cs)
      (.ifChain (⟨some cond, body⟩ :: rests)) rest := by
  have hline : '\n' ∉ (Outline.armHeader true (some cond)).toList := by
    simp [Outline.armHeader, hcond.newline]
  obtain ⟨m, hm⟩ := h
  obtain ⟨m', hm'⟩ := h'
  exact reads_of_succ (max m m') fun n hn => by
    simp [statement, line?_written _ _ hline (Mark.ofLine_firstArm cond), hm n (by omega),
      hm' n (by omega)]

theorem reads_arms_nil : Reads (arms width level) (written width level "\x7d" ++ rest) [] rest :=
  reads_of_succ 0 fun n _ => by
    simp [arms, line?_written _ _ newline_endBlock Mark.ofLine_endBlock]

theorem reads_arms_cons {cond : Option String} {rests : List (Outline.Arm String)}
    (hcond : ∀ c, cond = some c → IsBare c)
    (h : Reads (statements width (level + 1)) cs body behind)
    (h' : Reads (arms width level) behind rests rest) :
    Reads (arms width level) (written width level (Outline.armHeader false cond) ++ cs)
      (⟨cond, body⟩ :: rests) rest := by
  have hline : '\n' ∉ (Outline.armHeader false cond).toList := by
    cases cond with
    | none => decide
    | some c => simp [Outline.armHeader, (hcond c rfl).newline]
  obtain ⟨m, hm⟩ := h
  obtain ⟨m', hm'⟩ := h'
  exact reads_of_succ (max m m') fun n hn => by
    simp [arms, line?_written _ _ hline (Mark.ofLine_nextArm cond), hm n (by omega), hm' n (by omega)]

theorem reads_switch {subject : String} {arms : List (Outline.Case String)}
    {default : Option (List (Outline String))} (hsubject : IsBare subject)
    (h : Reads (cases width (level + 1)) cs (arms, default) (written width level "\x7d" ++ rest)) :
    Reads (statement width level) (written width level (Outline.switchHeader subject) ++ cs)
      (.switch subject arms default) rest := by
  have hline : '\n' ∉ (Outline.switchHeader subject).toList := by
    simp [Outline.switchHeader, hsubject.newline]
  obtain ⟨m, hm⟩ := h
  exact reads_of_succ m fun n hn => by
    simp [statement, line?_written _ _ hline (Mark.ofLine_switch subject), hm n hn,
      line?_written _ _ newline_endBlock Mark.ofLine_endBlock]

theorem reads_cases_nil (h : ends rest = true) :
    Reads (cases width level) rest ([], none) rest :=
  reads_of_succ 0 fun n _ => by simp [cases, h]

theorem reads_cases_cons {value : String} {arms : List (Outline.Case String)}
    {default : Option (List (Outline String))} (hvalue : IsBare value)
    (h : Reads (block width level) cs body behind)
    (h' : Reads (cases width level) behind (arms, default) rest) :
    Reads (cases width level) (written width level (Outline.caseHeader value) ++ cs)
      (⟨value, body⟩ :: arms, default) rest := by
  have hline : '\n' ∉ (Outline.caseHeader value).toList := by
    simp [Outline.caseHeader, hvalue.newline]
  have hopens := not_ends_of_head width level 'c'
    (show (Outline.caseHeader value).toList.head? = some 'c' by simp [Outline.caseHeader])
    (by decide) cs
  obtain ⟨m, hm⟩ := h
  obtain ⟨m', hm'⟩ := h'
  exact reads_of_succ (max m m') fun n hn => by
    simp [cases, hopens, line?_written _ _ hline (Mark.ofLine_case value), hm n (by omega),
      hm' n (by omega)]

theorem reads_default (h : Reads (block width level) cs body rest) :
    Reads (cases width level) (written width level "default: \x7b" ++ cs) ([], some body) rest := by
  have hopens := not_ends_of_head width level 'd'
    (show "default: \x7b".toList.head? = some 'd' from rfl) (by decide) cs
  have hline : '\n' ∉ "default: \x7b".toList := by decide
  obtain ⟨m, hm⟩ := h
  exact reads_of_succ m fun n hn => by
    simp [cases, hopens, line?_written _ _ hline Mark.ofLine_default, hm n hn]

theorem reads_statements_nil (h : ends rest = true) :
    Reads (statements width level) rest [] rest :=
  reads_of_succ 0 fun n _ => by simp [statements, h]

theorem reads_statements_cons {s : Outline String} {ss : List (Outline String)}
    (hopens : ends cs = false) (h : Reads (statement width level) cs s behind)
    (h' : Reads (statements width level) behind ss rest) :
    Reads (statements width level) cs (s :: ss) rest := by
  obtain ⟨m, hm⟩ := h
  obtain ⟨m', hm'⟩ := h'
  exact reads_of_succ (max m m') fun n hn => by
    simp [statements, hopens, hm n (by omega), hm' n (by omega)]

end

/-! ## Layouts -/

section

variable (width level : Nat)

theorem layOut_cons (text : String) (ls : List Line) :
    (layOut width level (⟨0, text⟩ :: ls)).toList =
      written width level text ++ (layOut width level ls).toList := by
  simp [layOut, Line.written, written, Writer.spaces]

theorem layOut_bracketed (header footer : String) (ls : List Line) :
    (layOut width level (Outline.bracketed header ls footer)).toList =
      written width level header ++
        ((layOut width (level + 1) ls).toList ++ written width level footer) := by
  rw [Outline.bracketed, layOut_cons, layOut_append, String.toList_append, layOut_inner,
    layOut_cons]
  simp

/-- The first line of a statement ends no block. -/
theorem not_ends_lines {s : Outline String} (h : s.Legible) (rest : List Char) :
    ends ((layOut width level s.lines).toList ++ rest) = false := by
  cases s with
  | expr text =>
    simp only [Outline.Legible] at h
    have hbrace : '\x7d' ∉ text.toList := fun hmem => h _ hmem (by decide)
    rw [Outline.lines, layOut_cons, List.append_assoc]
    have htext : (text ++ ";").toList = text.toList ++ ';' :: [] := by simp
    exact not_ends_written width level htext hbrace (by decide) _
  | comment text => simp [Outline.Legible] at h
  | includeFile path =>
    rw [Outline.lines, layOut_cons, List.append_assoc]
    exact not_ends_of_head width level '#' (by simp) (by decide) _
  | forLoop init cond step body =>
    rw [Outline.lines, layOut_bracketed, List.append_assoc]
    exact not_ends_of_head width level 'f' (by simp [Outline.forHeader]) (by decide) _
  | whileLoop cond body =>
    rw [Outline.lines, layOut_bracketed, List.append_assoc]
    exact not_ends_of_head width level 'w' (by simp [Outline.whileHeader]) (by decide) _
  | function header body =>
    simp only [Outline.Legible] at h
    obtain ⟨⟨signature, params, -, rfl⟩, -⟩ := h
    obtain ⟨c, hc, hne⟩ := Mark.head?_functionHeader signature params
    rw [Outline.lines, layOut_bracketed, List.append_assoc]
    exact not_ends_of_head width level c hc hne _
  | ifChain arms =>
    match arms, h with
    | ⟨some cond, body⟩ :: others, _ =>
      rw [Outline.lines, Outline.Arm.linesAll, List.cons_append, layOut_cons, List.append_assoc]
      exact not_ends_of_head width level 'i' (by simp [Outline.armHeader]) (by decide) _
    | ⟨none, body⟩ :: others, h => simp [Outline.Legible, Outline.Arm.cond] at h
    | [], h => simp [Outline.Legible] at h
  | switch subject arms default =>
    cases default with
    | none =>
      rw [Outline.lines, layOut_bracketed, List.append_assoc]
      exact not_ends_of_head width level 's' (by simp [Outline.switchHeader]) (by decide) _
    | some body =>
      rw [Outline.lines, layOut_bracketed, List.append_assoc]
      exact not_ends_of_head width level 's' (by simp [Outline.switchHeader]) (by decide) _

theorem layOut_inner_append (ls ms : List Line) :
    (layOut width level (ls.map Line.inner ++ ms)).toList =
      (layOut width (level + 1) ls).toList ++ (layOut width level ms).toList := by
  rw [layOut_append, String.toList_append, layOut_inner]

/-- What follows an arm, be it another arm or the end of the chain, ends the arm. -/
theorem ends_arms (others : List (Outline.Arm String)) (rest : List Char) :
    ends ((layOut width level (Outline.Arm.linesAll false others)).toList ++
      (written width level "\x7d" ++ rest)) = true := by
  match others with
  | [] =>
    simp only [Outline.Arm.linesAll, layOut_nil]
    exact ends_written rfl rest
  | ⟨none, body⟩ :: others =>
    rw [Outline.Arm.linesAll, layOut_cons, List.append_assoc]
    exact ends_written rfl _
  | ⟨some cond, body⟩ :: others =>
    rw [Outline.Arm.linesAll, layOut_cons, List.append_assoc]
    exact ends_written (by simp [Outline.armHeader]) _

end

section

variable {width : Nat}

/-- A body is read up to the line behind it. -/
theorem reads_body {body : List (Outline String)} {level : Nat}
    (h : ∀ rest, ends rest = true → Reads (statements width (level + 1))
      ((layOut width (level + 1) (Outline.linesAll body)).toList ++ rest) body rest)
    {footer : String} (hhead : footer.toList.head? = some '\x7d') (hline : '\n' ∉ footer.toList)
    (rest : List Char) :
    Reads (block width level) ((layOut width (level + 1) (Outline.linesAll body)).toList ++
      (written width level footer ++ rest)) body rest :=
  reads_block hline (h _ (ends_written hhead rest))

mutual

theorem reads_statement : ∀ s : Outline String, s.Legible → ∀ level rest,
    Reads (statement width level) ((layOut width level s.lines).toList ++ rest) s rest
  | .expr text, h, level, rest => by
    simp only [Outline.Legible] at h
    rw [Outline.lines, layOut_cons, layOut_nil]
    simpa using reads_expr h
  | .comment text, h, _, _ => by simp [Outline.Legible] at h
  | .includeFile path, h, level, rest => by
    simp only [Outline.Legible] at h
    rw [Outline.lines, layOut_cons, layOut_nil]
    simpa using reads_includeFile h
  | .forLoop init cond step body, h, level, rest => by
    simp only [Outline.Legible] at h
    rw [Outline.lines, layOut_bracketed, List.append_assoc, List.append_assoc]
    exact reads_forLoop h.1 h.2.1 h.2.2.1
      (reads_body (reads_statements body h.2.2.2 _) rfl newline_endBlock rest)
  | .whileLoop cond body, h, level, rest => by
    simp only [Outline.Legible] at h
    rw [Outline.lines, layOut_bracketed, List.append_assoc, List.append_assoc]
    exact reads_whileLoop h.1 (reads_body (reads_statements body h.2 _) rfl newline_endBlock rest)
  | .function header body, h, level, rest => by
    simp only [Outline.Legible] at h
    obtain ⟨⟨signature, params, hname, rfl⟩, h⟩ := h
    rw [Outline.lines, layOut_bracketed, List.append_assoc, List.append_assoc]
    exact reads_function params hname
      (reads_body (reads_statements body h _) rfl newline_endBlock rest)
  | .ifChain [], h, _, _ => by simp [Outline.Legible] at h
  | .ifChain (⟨none, body⟩ :: others), h, level, rest => by
    simp [Outline.Legible, Outline.Arm.cond] at h
  | .ifChain (⟨some cond, body⟩ :: others), h, level, rest => by
    simp only [Outline.Legible, Outline.Arm.LegibleAll] at h
    have hothers := reads_arms others h.2.2.2 level rest
    have hbody := reads_statements body h.2.2.1 (level + 1) _ (ends_arms width level others rest)
    rw [Outline.lines, Outline.Arm.linesAll, List.cons_append, layOut_cons, List.append_assoc,
      List.append_assoc (List.map _ _), layOut_inner_append, List.append_assoc, layOut_append,
      String.toList_append, layOut_cons, List.append_assoc, layOut_nil, List.append_assoc]
    exact reads_ifChain h.2.1 hbody hothers
  | .switch subject arms none, h, level, rest => by
    simp only [Outline.Legible] at h
    rw [Outline.lines, layOut_bracketed, List.append_assoc, List.append_assoc]
    exact reads_switch h.1
      (reads_cases arms h.2 _ _ _ _ (reads_cases_nil (ends_written rfl rest)))
  | .switch subject arms (some body), h, level, rest => by
    simp only [Outline.Legible] at h
    have hbody := reads_statements body h.2.2 (level + 1 + 1)
    have hdefault := reads_default
      (reads_body hbody head?_endCase newline_endCase (written width level "\x7d" ++ rest))
    rw [Outline.lines, layOut_bracketed, List.append_assoc, List.append_assoc, layOut_append,
      String.toList_append, layOut_bracketed, List.append_assoc, List.append_assoc,
      List.append_assoc]
    exact reads_switch h.1 (reads_cases arms h.2.1 _ _ _ _ hdefault)

theorem reads_statements : ∀ ss : List (Outline String), Outline.LegibleAll ss → ∀ level rest,
    ends rest = true →
    Reads (statements width level) ((layOut width level (Outline.linesAll ss)).toList ++ rest) ss rest
  | [], _, level, rest, hrest => by
    rw [Outline.linesAll, layOut_nil]
    exact reads_statements_nil hrest
  | s :: others, h, level, rest, hrest => by
    simp only [Outline.LegibleAll] at h
    rw [Outline.linesAll, layOut_append, String.toList_append, List.append_assoc]
    exact reads_statements_cons (not_ends_lines width level h.1 _) (reads_statement s h.1 level _)
      (reads_statements others h.2 level rest hrest)

theorem reads_arms : ∀ others : List (Outline.Arm String), Outline.Arm.LegibleAll others →
    ∀ level rest, Reads (arms width level)
      ((layOut width level (Outline.Arm.linesAll false others)).toList ++
        (written width level "\x7d" ++ rest)) others rest
  | [], _, level, rest => by
    rw [Outline.Arm.linesAll, layOut_nil]
    exact reads_arms_nil
  | ⟨none, body⟩ :: others, h, level, rest => by
    simp only [Outline.Arm.LegibleAll] at h
    have hothers := reads_arms others h.2 level rest
    have hbody := reads_statements body h.1 (level + 1) _ (ends_arms width level others rest)
    rw [Outline.Arm.linesAll, layOut_cons, layOut_inner_append, List.append_assoc,
      List.append_assoc]
    exact reads_arms_cons (by simp) hbody hothers
  | ⟨some cond, body⟩ :: others, h, level, rest => by
    simp only [Outline.Arm.LegibleAll] at h
    have hothers := reads_arms others h.2.2 level rest
    have hbody := reads_statements body h.2.1 (level + 1) _ (ends_arms width level others rest)
    rw [Outline.Arm.linesAll, layOut_cons, layOut_inner_append, List.append_assoc,
      List.append_assoc]
    exact reads_arms_cons (by simpa using h.1) hbody hothers

theorem reads_cases : ∀ others : List (Outline.Case String), Outline.Case.LegibleAll others →
    ∀ level behind default rest, Reads (cases width level) behind ([], default) rest →
    Reads (cases width level)
      ((layOut width level (Outline.Case.linesAll others)).toList ++ behind) (others, default) rest
  | [], _, level, behind, default, rest, hbehind => by
    rw [Outline.Case.linesAll, layOut_nil]
    exact hbehind
  | ⟨value, body⟩ :: others, h, level, behind, default, rest, hbehind => by
    simp only [Outline.Case.LegibleAll] at h
    have hothers := reads_cases others h.2.2 level behind default rest hbehind
    have hbody := reads_body (reads_statements body h.2.1 (level + 1)) head?_endCase newline_endCase
    rw [Outline.Case.linesAll, layOut_append, String.toList_append, layOut_bracketed,
      List.append_assoc, List.append_assoc, List.append_assoc]
    exact reads_cases_cons h.1 (hbody _) hothers

end

end

end Blocks

/-! ## Statements -/

mutual

/-- A statement whose text tells it: the functions that it defines have proper names, the paths that
it includes stand on one line, no chain is empty, and there are no comments. -/
def Stmt.Legible : Stmt → Prop
  | .expr _ => True
  | .forLoop _ _ _ body | .whileLoop _ body => Stmt.LegibleAll body
  | .ifChain arms => arms ≠ [] ∧ Branch.LegibleAll arms
  | .switch _ cases none => SwitchCase.LegibleAll cases
  | .switch _ cases (some body) => SwitchCase.LegibleAll cases ∧ Stmt.LegibleAll body
  | .function signature _ body => isIdentifier signature.name ∧ Stmt.LegibleAll body
  | .comment _ => False
  | .includeFile path => '\n' ∉ path.text.toList

def Stmt.LegibleAll : List Stmt → Prop
  | [] => True
  | s :: rest => s.Legible ∧ Stmt.LegibleAll rest

def Branch.LegibleAll : List Branch → Prop
  | [] => True
  | ⟨_, body⟩ :: rest => Stmt.LegibleAll body ∧ Branch.LegibleAll rest

def SwitchCase.LegibleAll : List SwitchCase → Prop
  | [] => True
  | ⟨_, body⟩ :: rest => Stmt.LegibleAll body ∧ SwitchCase.LegibleAll rest

end

section

variable {f : NodeId → String}

mutual

theorem Stmt.legible_outline : ∀ s : Stmt, s.Legible → (s.outline fun _ => ()).Headed →
    (∀ r ∈ s.roots, IsBare (f r)) → (s.outline f).Legible
  | .expr id, _, _, hbare => by simpa [Stmt.outline, Outline.Legible, Stmt.roots] using hbare
  | .comment text, h, _, _ => by simp [Stmt.Legible] at h
  | .includeFile path, h, _, _ => by simpa [Stmt.outline, Outline.Legible, Stmt.Legible] using h
  | .forLoop init cond step body, h, hheaded, hbare => by
    simp only [Stmt.roots, List.forall_mem_cons] at hbare
    simp only [Stmt.Legible] at h
    simp only [Stmt.outline, Outline.Headed] at hheaded
    simp only [Stmt.outline, Outline.Legible]
    exact ⟨hbare.1, hbare.2.1, hbare.2.2.1, Stmt.legible_outlineAll body h hheaded hbare.2.2.2⟩
  | .whileLoop cond body, h, hheaded, hbare => by
    simp only [Stmt.roots, List.forall_mem_cons] at hbare
    simp only [Stmt.Legible] at h
    simp only [Stmt.outline, Outline.Headed] at hheaded
    simp only [Stmt.outline, Outline.Legible]
    exact ⟨hbare.1, Stmt.legible_outlineAll body h hheaded hbare.2⟩
  | .function signature params body, h, hheaded, hbare => by
    simp only [Stmt.Legible] at h
    simp only [Stmt.outline, Outline.Headed] at hheaded
    simp only [Stmt.outline, Outline.Legible]
    exact ⟨⟨signature, params, h.1, rfl⟩, Stmt.legible_outlineAll body h.2 hheaded hbare⟩
  | .ifChain [], h, _, _ => by simp [Stmt.Legible] at h
  | .ifChain (⟨cond, body⟩ :: rest), h, hheaded, hbare => by
    simp only [Stmt.Legible] at h
    simp only [Stmt.outline, Branch.outlineAll, Outline.Headed, Outline.StartsConditional,
      Outline.Arm.cond, Option.isSome_map] at hheaded
    have harms := Branch.legible_outlineAll (⟨cond, body⟩ :: rest) h.2
      (by simpa only [Branch.outlineAll] using hheaded.2) hbare
    simp only [Stmt.outline, Branch.outlineAll, Outline.Legible, Outline.Arm.cond,
      Option.isSome_map]
    exact ⟨hheaded.1, by simpa only [Branch.outlineAll] using harms⟩
  | .switch subject cases none, h, hheaded, hbare => by
    simp only [Stmt.roots, List.forall_mem_cons] at hbare
    simp only [Stmt.Legible] at h
    simp only [Stmt.outline, Outline.Headed] at hheaded
    simp only [Stmt.outline, Outline.Legible]
    exact ⟨hbare.1, SwitchCase.legible_outlineAll cases h hheaded hbare.2⟩
  | .switch subject cases (some body), h, hheaded, hbare => by
    simp only [Stmt.roots, List.forall_mem_cons, List.forall_mem_append] at hbare
    simp only [Stmt.Legible] at h
    simp only [Stmt.outline, Outline.Headed] at hheaded
    simp only [Stmt.outline, Outline.Legible]
    exact ⟨hbare.1, SwitchCase.legible_outlineAll cases h.1 hheaded.1 hbare.2.1,
      Stmt.legible_outlineAll body h.2 hheaded.2 hbare.2.2⟩

theorem Stmt.legible_outlineAll : ∀ ss : List Stmt, Stmt.LegibleAll ss →
    Outline.HeadedAll (Stmt.outlineAll (fun _ => ()) ss) →
    (∀ r ∈ Stmt.rootsAll ss, IsBare (f r)) → Outline.LegibleAll (Stmt.outlineAll f ss)
  | [], _, _, _ => trivial
  | s :: rest, h, hheaded, hbare => by
    simp only [Stmt.rootsAll, List.forall_mem_append] at hbare
    simp only [Stmt.outlineAll, Outline.HeadedAll] at hheaded
    simp only [Stmt.LegibleAll] at h
    exact ⟨Stmt.legible_outline s h.1 hheaded.1 hbare.1,
      Stmt.legible_outlineAll rest h.2 hheaded.2 hbare.2⟩

theorem Branch.legible_outlineAll : ∀ arms : List Branch, Branch.LegibleAll arms →
    Outline.Arm.HeadedAll (Branch.outlineAll (fun _ => ()) arms) →
    (∀ r ∈ Branch.rootsAll arms, IsBare (f r)) → Outline.Arm.LegibleAll (Branch.outlineAll f arms)
  | [], _, _, _ => trivial
  | ⟨none, body⟩ :: rest, h, hheaded, hbare => by
    simp only [Branch.rootsAll, List.forall_mem_append] at hbare
    simp only [Branch.outlineAll, Outline.Arm.HeadedAll] at hheaded
    simp only [Branch.LegibleAll] at h
    exact ⟨Stmt.legible_outlineAll body h.1 hheaded.1 hbare.1,
      Branch.legible_outlineAll rest h.2 hheaded.2 hbare.2⟩
  | ⟨some cond, body⟩ :: rest, h, hheaded, hbare => by
    simp only [Branch.rootsAll, List.forall_mem_cons, List.forall_mem_append] at hbare
    simp only [Branch.outlineAll, Outline.Arm.HeadedAll] at hheaded
    simp only [Branch.LegibleAll] at h
    exact ⟨hbare.1, Stmt.legible_outlineAll body h.1 hheaded.1 hbare.2.1,
      Branch.legible_outlineAll rest h.2 hheaded.2 hbare.2.2⟩

theorem SwitchCase.legible_outlineAll : ∀ cases : List SwitchCase, SwitchCase.LegibleAll cases →
    Outline.Case.HeadedAll (SwitchCase.outlineAll (fun _ => ()) cases) →
    (∀ r ∈ SwitchCase.rootsAll cases, IsBare (f r)) →
    Outline.Case.LegibleAll (SwitchCase.outlineAll f cases)
  | [], _, _, _ => trivial
  | ⟨value, body⟩ :: rest, h, hheaded, hbare => by
    simp only [SwitchCase.rootsAll, List.forall_mem_cons, List.forall_mem_append] at hbare
    simp only [SwitchCase.outlineAll, Outline.Case.HeadedAll] at hheaded
    simp only [SwitchCase.LegibleAll] at h
    exact ⟨hbare.1, Stmt.legible_outlineAll body h.1 hheaded.1 hbare.2.1,
      SwitchCase.legible_outlineAll rest h.2 hheaded.2 hbare.2.2⟩

end

end

namespace Arena

variable {a : Arena} {stmts : List Stmt} {options : RenderOptions} {r : Rendered}

/-- The text of a rendering is read back as the outline of what was rendered. -/
theorem reads_render (hnamed : ∀ root ∈ Stmt.rootsAll stmts, a.Named root)
    (hlegible : Stmt.LegibleAll stmts) (h : a.render stmts options = .ok r) :
    Reads (Blocks.statements options.indentWidth 0) r.code.toList
      (Stmt.outlineAll (a.textWithin options.maxDepth) stmts) [] := by
  obtain ⟨hafford, rfl⟩ := render_eq_ok_iff.mp h
  have hbare : ∀ root ∈ Stmt.rootsAll stmts, IsBare (a.textWithin options.maxDepth root) := by
    intro root hroot
    obtain ⟨text, htext⟩ := hafford.texts root hroot
    rw [textWithin_of_ok htext]
    exact (hnamed root hroot).isBare_text htext
  have houtline := Stmt.legible_outlineAll stmts hlegible hafford.headed hbare
  have hread : Reads (Blocks.statements options.indentWidth 0) _ _ [] :=
    Blocks.reads_statements _ houtline 0 [] rfl
  rwa [List.append_nil] at hread

/-- The outcomes of the renderings of its expressions make up the outline of a kernel. -/
theorem outlineAll_renderExpr (h : a.render stmts options = .ok r) :
    Stmt.outlineAll (fun root => a.renderExpr root options.maxDepth) stmts =
      Outline.mapAll .ok (Stmt.outlineAll (a.textWithin options.maxDepth) stmts) := by
  obtain ⟨hafford, -⟩ := render_eq_ok_iff.mp h
  rw [Stmt.mapAll_outlineAll]
  refine Stmt.outlineAll_congr stmts fun root hroot => ?_
  obtain ⟨text, htext⟩ := hafford.texts root hroot
  rw [textWithin_of_ok htext, htext]

/-- Kernels with one text are equal up to the expressions behind their texts: they have the same
statements in the same blocks, the same conditions, cases and defaults in the same places, the same
headers of functions and the same includes, and the same text for each expression. -/
theorem outlineAll_eq_of_render {b : Arena} {stmts' : List Stmt} {r' : Rendered}
    (hnamed : ∀ root ∈ Stmt.rootsAll stmts, a.Named root) (hlegible : Stmt.LegibleAll stmts)
    (hnamed' : ∀ root ∈ Stmt.rootsAll stmts', b.Named root) (hlegible' : Stmt.LegibleAll stmts')
    (hrender : a.render stmts options = .ok r) (hrender' : b.render stmts' options = .ok r')
    (hcode : r.code = r'.code) :
    Stmt.outlineAll (fun root => a.renderExpr root options.maxDepth) stmts =
      Stmt.outlineAll (fun root => b.renderExpr root options.maxDepth) stmts' := by
  have hread := reads_render hnamed hlegible hrender
  have hread' := reads_render hnamed' hlegible' hrender'
  rw [hcode] at hread
  rw [outlineAll_renderExpr hrender, outlineAll_renderExpr hrender', hread.unique hread']

/-- A chain whose condition and body share a node, and one that has a node for each. -/
theorem outlineAll_eq_chain :
    let a : Arena := ⟨#[.leaf (.scalar .u32 "x")], #[]⟩
    let b : Arena := ⟨#[.leaf (.scalar .u32 "x"), .leaf (.pointer (.scalar .u8 "x"))], #[]⟩
    let stmts : List Stmt := [.ifChain [⟨some ⟨0⟩, [.expr ⟨0⟩]⟩, ⟨none, []⟩]]
    let stmts' : List Stmt := [.ifChain [⟨some ⟨1⟩, [.expr ⟨0⟩]⟩, ⟨none, []⟩]]
    (∀ root ∈ Stmt.rootsAll stmts, a.Named root) ∧ Stmt.LegibleAll stmts ∧
      (∀ root ∈ Stmt.rootsAll stmts', b.Named root) ∧ Stmt.LegibleAll stmts' ∧
      (∃ r r', a.render stmts {} = .ok r ∧ b.render stmts' {} = .ok r' ∧ r.code = r'.code) ∧
      Stmt.outlineAll (fun root => a.renderExpr root 4096) stmts =
        Stmt.outlineAll (fun root => b.renderExpr root 4096) stmts' := by
  intro a b stmts stmts'
  have hleaves : ∀ c : Arena, (∀ node ∈ c.nodes, ∃ v, node = .leaf v ∧ v.name? = some "x") →
      ∀ root, c.Named root := by
    intro c hc root
    refine ⟨fun id v _ hv n hn => ?_, fun id callee range _ hcall => ?_⟩
    · obtain ⟨w, hw, hx⟩ := hc _ (Array.mem_of_getElem? (content?_eq_some_iff.mp hv))
      obtain rfl := Node.leaf.inj hw
      obtain rfl := Option.some.inj (hx.symm.trans hn)
      decide
    · obtain ⟨w, hw, -⟩ := hc _ (Array.mem_of_getElem? hcall)
      cases hw
  have hnamed : ∀ root, a.Named root := hleaves a (by simp [a, Variable.name?])
  have hnamed' : ∀ root, b.Named root := hleaves b (by simp [b, Variable.name?])
  have hlegible : Stmt.LegibleAll stmts := by
    simp [stmts, Stmt.LegibleAll, Stmt.Legible, Branch.LegibleAll]
  have hlegible' : Stmt.LegibleAll stmts' := by
    simp [stmts', Stmt.LegibleAll, Stmt.Legible, Branch.LegibleAll]
  have hcode : ∃ r r', a.render stmts {} = .ok r ∧ b.render stmts' {} = .ok r' ∧ r.code = r'.code :=
    ⟨_, _, rfl, rfl, rfl⟩
  obtain ⟨r, r', hrender, hrender', heq⟩ := hcode
  exact ⟨fun root _ => hnamed root, hlegible, fun root _ => hnamed' root, hlegible',
    ⟨r, r', hrender, hrender', heq⟩,
    outlineAll_eq_of_render (fun root _ => hnamed root) hlegible (fun root _ => hnamed' root)
      hlegible' hrender hrender' heq⟩

end Arena

end KernelForge
