import KernelForge.Text.Lines
import Mathlib.Data.List.Basic

/-!
# The first steps of a compiler

Before a compiler sees a token it joins every line that ends in a backslash with the line behind it,
and it drops what follows two slashes. What is left of a text are its lines of code. Texts that end
in a line of their own can be read one by one.
-/
namespace KernelForge.Text

/-- The line ends in a backslash. -/
def IsContinued (line : List Char) : Prop := line.getLast? = some '\\'

instance (line : List Char) : Decidable (IsContinued line) := inferInstanceAs (Decidable (_ = _))

/-- Joins every line that ends in a backslash with the line behind it. `pending` is what stands
before the first line. -/
def spliced (pending : List Char) : List (List Char) → List (List Char)
  | [] => if pending.isEmpty then [] else [pending]
  | line :: rest =>
    if IsContinued line then spliced (pending ++ line.dropLast) rest
    else (pending ++ line) :: spliced [] rest

/-- A line up to its comment. Slashes between double quotes begin none. -/
def uncommented (quoted : Bool) : List Char → List Char
  | [] => []
  | [c] => [c]
  | c :: d :: rest =>
    if !quoted && c == '/' && d == '/' then []
    else c :: uncommented (if c = '"' then !quoted else quoted) (d :: rest)

/-- What a compiler sees of a text: its lines, joined and without comments, blank ones aside. -/
def codeLines (text : List Char) : List (List Char) :=
  ((spliced [] (lines text)).map (uncommented false)).filter fun line => !line.all Char.isWhitespace

/-! ## Texts one behind the other -/

theorem linesFrom_line (current cs rest : List Char) :
    linesFrom current (cs ++ '\n' :: rest) = linesFrom current (cs ++ ['\n']) ++ lines rest := by
  induction cs generalizing current with
  | nil => simp [linesFrom, lines]
  | cons c cs ih =>
    simp only [List.cons_append, linesFrom]
    split
    · rw [ih, List.cons_append]
    · exact ih _

theorem dropReturn_cons {c : Char} (hc : c ≠ '\r') (cs : List Char) :
    dropReturn (c :: cs) = c :: cs := by
  rw [dropReturn.eq_2]
  rintro _ h
  exact hc (List.cons.inj h).1

theorem dropReturn_append {cs : List Char} (h : cs ≠ []) (ds : List Char) :
    dropReturn (cs ++ ds) = dropReturn cs ++ ds := by
  obtain ⟨c, cs, rfl⟩ := List.exists_cons_of_ne_nil h
  by_cases hc : c = '\r'
  · subst hc
    rfl
  · simp only [List.cons_append, dropReturn_cons hc]

theorem dropReturn_mono {cs ds : List Char} (h : cs <+: ds) : dropReturn cs <+: dropReturn ds := by
  obtain ⟨rest, rfl⟩ := h
  by_cases hcs : cs = []
  · subst hcs
    exact List.nil_prefix
  · exact ⟨rest, (dropReturn_append hcs rest).symm⟩

/-- The last line of a text with a line feed at its end is an end of what stands before that. -/
theorem exists_last_linesFrom (current cs : List Char) :
    ∃ init last, linesFrom current (cs ++ ['\n']) = init ++ [last] ∧
      last.reverse <+: dropReturn (cs.reverse ++ current) := by
  induction cs generalizing current with
  | nil => exact ⟨[], (dropReturn current).reverse, by simp [linesFrom], by simp⟩
  | cons c cs ih =>
    by_cases hc : c = '\n'
    · obtain ⟨init, last, hlines, hlast⟩ := ih []
      refine ⟨(dropReturn current).reverse :: init, last, by simp [linesFrom, hc, hlines], ?_⟩
      refine hlast.trans (dropReturn_mono ?_)
      exact ⟨c :: current, by simp⟩
    · obtain ⟨init, last, hlines, hlast⟩ := ih (c :: current)
      exact ⟨init, last, by simp [linesFrom, hc, hlines], by simpa using hlast⟩

/-- A text that is empty or ends in a line that is not continued. -/
def IsClosed (text : List Char) : Prop :=
  text = [] ∨ ∃ cs, text = cs ++ ['\n'] ∧ (dropReturn cs.reverse).head? ≠ some '\\'

theorem spliced_append (pending : List Char) {init : List (List Char)} {last : List Char}
    (hlast : ¬ IsContinued last) (rest : List (List Char)) :
    spliced pending (init ++ last :: rest) = spliced pending (init ++ [last]) ++ spliced [] rest := by
  induction init generalizing pending with
  | nil => simp [spliced, hlast]
  | cons line init ih =>
    simp only [List.cons_append, spliced]
    split
    · exact ih _
    · rw [ih, List.cons_append]

theorem IsClosed.lines_append {text : List Char} (h : IsClosed text) (rest : List Char) :
    lines (text ++ rest) = lines text ++ lines rest := by
  rcases h with rfl | ⟨cs, rfl, -⟩
  · rfl
  · rw [List.append_assoc, List.singleton_append]
    exact linesFrom_line [] cs rest

theorem IsClosed.codeLines_append {text : List Char} (h : IsClosed text) (rest : List Char) :
    codeLines (text ++ rest) = codeLines text ++ codeLines rest := by
  have hspliced : spliced [] (lines (text ++ rest)) =
      spliced [] (lines text) ++ spliced [] (lines rest) := by
    rw [h.lines_append]
    rcases h with rfl | ⟨cs, rfl, hcs⟩
    · rfl
    · obtain ⟨init, last, hlines, hlast⟩ := exists_last_linesFrom [] cs
      have hcontinued : ¬ IsContinued last := by
        intro hend
        rw [List.append_nil] at hlast
        have hhead : last.reverse.head? = some '\\' := by rw [List.head?_reverse]; exact hend
        obtain ⟨more, hmore⟩ := hlast
        obtain ⟨others, hothers⟩ := List.head?_eq_some_iff.mp hhead
        exact hcs (by rw [← hmore, hothers]; rfl)
      rw [lines, hlines, List.append_assoc, List.singleton_append, spliced_append _ hcontinued]
  simp only [codeLines, hspliced, List.map_append, List.filter_append]

/-! ## Lines of comments -/

/-- A line that starts with two slashes behind its margin. -/
def IsRemark (line : List Char) : Prop :=
  ∃ k rest, line = List.replicate k ' ' ++ '/' :: '/' :: rest

theorem IsRemark.append {line : List Char} (h : IsRemark line) (more : List Char) :
    IsRemark (line ++ more) := by
  obtain ⟨k, rest, rfl⟩ := h
  exact ⟨k, rest ++ more, by simp⟩

/-- The backslash of a continued line stands behind its slashes. -/
theorem IsRemark.dropLast {line : List Char} (h : IsRemark line) (hend : IsContinued line) :
    IsRemark line.dropLast := by
  obtain ⟨k, rest, rfl⟩ := h
  rcases List.eq_nil_or_concat' rest with rfl | ⟨init, c, rfl⟩
  · simp [IsContinued, List.getLast?_append] at hend
  · refine ⟨k, init, ?_⟩
    have hsplit : List.replicate k ' ' ++ '/' :: '/' :: (init ++ [c]) =
        (List.replicate k ' ' ++ '/' :: '/' :: init) ++ [c] := by simp
    rw [hsplit, List.dropLast_concat]

theorem IsRemark.uncommented {line : List Char} (h : IsRemark line) :
    (uncommented false line).all Char.isWhitespace := by
  obtain ⟨k, rest, rfl⟩ := h
  induction k with
  | zero => simp [Text.uncommented]
  | succ k ih =>
    obtain ⟨d, more, hmore⟩ : ∃ d more, List.replicate k ' ' ++ '/' :: '/' :: rest = d :: more := by
      cases k <;> simp [List.replicate_succ]
    rw [hmore] at ih
    rw [List.replicate_succ, List.cons_append, hmore]
    simpa [Text.uncommented] using ih

theorem isRemark_spliced {pending : List Char} (hpending : pending = [] ∨ IsRemark pending)
    {ls : List (List Char)} (h : ∀ line ∈ ls, IsRemark line) :
    ∀ line ∈ spliced pending ls, IsRemark line := by
  have hjoin : ∀ {pending line : List Char}, pending = [] ∨ IsRemark pending → IsRemark line →
      IsRemark (pending ++ line) := by
    rintro pending line (rfl | hpending) hline
    · exact hline
    · exact hpending.append line
  induction ls generalizing pending with
  | nil =>
    rcases hpending with rfl | hpending
    · simp [spliced]
    · unfold spliced
      split
      · simp
      · simpa using hpending
  | cons line rest ih =>
    rw [List.forall_mem_cons] at h
    rw [spliced]
    split
    · rename_i hend
      exact ih (Or.inr (hjoin hpending (h.1.dropLast hend))) h.2
    · rw [List.forall_mem_cons]
      exact ⟨hjoin hpending h.1, ih (Or.inl rfl) h.2⟩

/-- Comments alone hold no code, however their lines are joined. -/
theorem codeLines_eq_nil {text : List Char} (h : ∀ line ∈ lines text, IsRemark line) :
    codeLines text = [] := by
  simp only [codeLines, List.filter_eq_nil_iff, List.forall_mem_map]
  intro line hline
  have hremark := isRemark_spliced (Or.inl rfl) h line hline
  simpa using hremark.uncommented

end KernelForge.Text
