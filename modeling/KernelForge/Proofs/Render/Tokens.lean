import KernelForge.Proofs.Render.Columns
import KernelForge.Proofs.Render.Reading
import KernelForge.Proofs.Text.Tokens

/-!
# The tokens of an expression

A tree has tokens of its own: its operators, brackets and commas, the names and keywords in it, its
numbers, and a minus for each negation and each negative constant. A compiler finds exactly these in
the text of the tree, since no two of them grow together where they touch.
-/
namespace KernelForge

open Text

/-! ## The tokens of a tree -/

/-- A token behind its sign. -/
def signed (negative : Bool) (t : Token) : List Token :=
  if negative then [.punctuator "-", t] else [t]

namespace Literal

def integerTokens (i : Int) : List Token := signed (i < 0) (.number (toString i.natAbs))

/-- The size of a finite float is one number, whatever its sign. -/
def floatTokens (f : Decimal.BinaryFormat) (bits : Nat) (suffix : String) : List Token :=
  let size (d : Decimal.Scaled) : Token :=
    .number (String.ofList (floatLayout.write false d) ++ suffix)
  match f.datum bits with
  | .nan => [.identifier "NAN"]
  | .infinite negative => signed negative (.identifier "INFINITY")
  | .finite negative 0 _ _ => signed negative (size ⟨0, 0⟩)
  | .finite negative significand exponent narrow =>
    signed negative (size (Decimal.Interval.around significand exponent narrow).shortest)

def tokens : Literal → List Token
  | bool v => [.identifier (if v then "true" else "false")]
  | i8 v => integerTokens v.toInt
  | i16 v => integerTokens v.toInt
  | i32 v => integerTokens v.toInt
  | i64 v => integerTokens v.toInt
  | u8 v => integerTokens v.toNat
  | u16 v | fp16a v | fp16b v => integerTokens v.toNat
  | u32 v => integerTokens v.toNat
  | u64 v => integerTokens v.toNat
  | fp32 b => floatTokens .single b.toNat "f"
  | fp64 b => floatTokens .double b.toNat ""

end Literal

namespace Variable

def tokens : Variable → List Token
  | literal l => l.tokens
  | slot s => [.identifier s.label]
  | v => (v.name?.map Token.identifier).toList

/-- A number in brackets for each dimension. -/
def bracketTokens (dims : List Nat) : List Token :=
  dims.flatMap fun d => [.punctuator "[", .number (toString d), .punctuator "]"]

def declarationTokens : Variable → List Token
  | scalar k n => [.identifier k.keyword, .identifier n]
  | array k n length => .identifier k.keyword :: .identifier n :: bracketTokens [length]
  | matrix k n dims => .identifier k.keyword :: .identifier n :: bracketTokens dims
  | pointer v | reference v =>
    (v.name?.map fun n =>
      [.identifier v.kind.keyword, .punctuator "*", .identifier n]).getD []
  | slot s =>
    .identifier s.kind.keyword :: .identifier s.label ::
      match s.form with
      | .scalar => []
      | .array => [.punctuator "[", .punctuator "]"]
      | .matrix => [.punctuator "[", .punctuator "]", .punctuator "[", .punctuator "]"]
  | literal _ => []

end Variable

namespace Tree

mutual

/-- The tokens of a tree in the order in which they are written. -/
def tokens : Tree → List Token
  | leaf v => v.tokens
  | declare v => v.declarationTokens
  | assign target value => target.tokens ++ .punctuator "=" :: value.tokens
  | index base i => base.tokens ++ .punctuator "[" :: (i.tokens ++ [.punctuator "]"])
  | binary op left right => left.tokens ++ .punctuator op.symbol :: right.tokens
  | unary .neg operand => .punctuator "-" :: operand.tokens
  | unary .not operand => .punctuator "!" :: operand.tokens
  | unary .paren operand => .punctuator "(" :: (operand.tokens ++ [.punctuator ")"])
  | call callee [] => [.identifier callee.name, .punctuator "(", .punctuator ")"]
  | call callee (first :: rest) =>
    .identifier callee.name :: .punctuator "(" ::
      (first.tokens ++ (furtherTokens rest ++ [.punctuator ")"]))

/-- The tokens of the arguments of a call behind the first one. -/
def furtherTokens : List Tree → List Token
  | [] => []
  | arg :: rest => .punctuator "," :: (arg.tokens ++ furtherTokens rest)

end

end Tree

/-! ## Words and operators -/

namespace Text.Yields

variable {cs : List Char} {ts : List Token}

/-- A name in front of a bracket or the end. -/
theorem identifier {s : String} (hs : isIdentifier s) (h : Yields cs ts)
    (hnext : ∀ d, cs.head? = some d → isNumberChar d = false) :
    Yields (s.toList ++ cs) (.identifier s :: ts) := by
  have hword := isWord_of_isIdentifier hs
  obtain ⟨c, rest, hsplit⟩ := List.exists_cons_of_ne_nil hword.nonempty
  exact .word (token?_of_isIdentifier hs) (by rw [hsplit]; rfl) (hword.chars c (by simp [hsplit])) h
    hnext

theorem name {s : String} (hs : isIdentifier s) : Yields s.toList [.identifier s] := by
  have h := identifier hs .nil (by simp)
  rwa [List.append_nil] at h

/-- A number in front of a bracket or the end. -/
theorem number {w : List Char} {c : Char} (hhead : w.head? = some c) (hc : c.isDigit)
    (hw : isNumber w) (h : Yields cs ts) (hnext : ∀ d, cs.head? = some d → isNumberChar d = false) :
    Yields (w ++ cs) (.number (String.ofList w) :: ts) := by
  refine .word (token?_of_isNumber (fun d hd => ?_) hw) hhead ?_ h hnext
  · obtain rfl := Option.some.inj (hhead.symm.trans hd)
    exact hc
  · simp [isWordChar, Char.isAlphanum, hc]

/-- A minus in front of an operand that does not make it longer. -/
theorem minus (h : Yields cs ts) (hnext : ∀ d, cs.head? = some d → d ∉ ['-', '=', '>']) :
    Yields ('-' :: cs) (.punctuator "-" :: ts) := by
  refine punctuator (p := "-") (c := '-') (by decide) (by decide) rfl (by decide) h fun d hd hmem => ?_
  rw [show extensions "-".toList = ['>', '-', '='] by decide] at hmem
  have := hnext d hd
  simp_all

theorem exclamation (h : Yields cs ts) (hnext : ∀ d, cs.head? = some d → d ≠ '=') :
    Yields ('!' :: cs) (.punctuator "!" :: ts) := by
  refine punctuator (p := "!") (c := '!') (by decide) (by decide) rfl (by decide) h fun d hd hmem => ?_
  rw [show extensions "!".toList = ['='] by decide] at hmem
  exact hnext d hd (List.mem_singleton.mp hmem)

/-- The punctuators that begin no other one. -/
theorem bracket {p : String} (hp : p ∈ ["(", ")", "[", "]", ","]) (h : Yields cs ts) :
    Yields (p.toList ++ cs) (.punctuator p :: ts) := by
  have hends : ∀ p ∈ ["(", ")", "[", "]", ","], extensions p.toList = [] := by decide
  have hnext : ∀ d, cs.head? = some d → d ∉ extensions p.toList := by simp [hends p hp]
  simp only [List.mem_cons, List.not_mem_nil, or_false] at hp
  rcases hp with rfl | rfl | rfl | rfl | rfl <;>
    exact punctuator (by decide) (by decide) rfl (by decide) h hnext

/-- An operator between blanks. -/
theorem operator {p : String}
    (hp : p ∈ punctuators.filter fun p => p ≠ "--" ∧ p.toList.head? ≠ some '.') :
    Yields p.toList [.punctuator p] := by
  rw [List.mem_filter, decide_eq_true_eq] at hp
  obtain ⟨hmem, hne, hdot⟩ := hp
  have hnonempty : ∀ p ∈ punctuators, p.toList.head?.isSome := by decide
  obtain ⟨c, hc⟩ := Option.isSome_iff_exists.mp (hnonempty p hmem)
  have h := punctuator hmem hne hc (by rintro rfl; exact hdot hc) .nil (by simp)
  rwa [List.append_nil] at h

end Text.Yields

theorem BinaryOp.yields_symbol (op : BinaryOp) : Yields op.symbol.toList [.punctuator op.symbol] :=
  .operator (by cases op <;> decide)

/-! ## Numbers -/

namespace Text

theorem numberTail_cons {c : Char} (hc : c.isDigit ∨ c = '.') (cs : List Char) :
    numberTail (c :: cs) = numberTail cs := by
  have hplain : (isWordChar c || c == '.') = true := by
    rcases hc with hc | rfl
    · simp [isWordChar, Char.isAlphanum, hc]
    · decide
  have hexponent : c ∉ ['e', 'E', 'p', 'P'] := by
    intro hmem
    simp only [List.mem_cons, List.not_mem_nil, or_false] at hmem
    rcases hmem with rfl | rfl | rfl | rfl <;> exact absurd hc (by decide)
  cases cs with
  | nil => simpa [numberTail] using hplain
  | cons d cs => simp only [numberTail, hexponent, false_and, if_false, hplain, Bool.true_and]

theorem numberTail_append {cs : List Char} (hcs : ∀ c ∈ cs, c.isDigit ∨ c = '.')
    (tail : List Char) : numberTail (cs ++ tail) = numberTail tail := by
  induction cs with
  | nil => rfl
  | cons c cs ih =>
    rw [List.forall_mem_cons] at hcs
    rw [List.cons_append, numberTail_cons hcs.1, ih hcs.2]

theorem isNumber_cons {c : Char} {cs : List Char} (hc : c.isDigit) (h : numberTail cs) :
    isNumber (c :: cs) := by
  rw [isNumber]
  · simp [hc, h]
  · rintro d ds rfl
    exact absurd hc (by decide)

end Text

namespace Decimal

/-- Digits and points that begin with a digit. -/
structure IsPositional (cs : List Char) : Prop where
  head : ∃ c, cs.head? = some c ∧ c.isDigit
  chars : ∀ c ∈ cs, c.isDigit ∨ c = '.'

theorem isDigit_of_mem_digitChars {n : Nat} {c : Char} (h : c ∈ digitChars n) : c.isDigit :=
  Nat.isDigit_of_mem_toDigits (by decide) (by decide) h

theorem isPositional_digitChars (n : Nat) : IsPositional (digitChars n) := by
  obtain ⟨c, cs, hsplit⟩ := List.exists_cons_of_ne_nil
    (show digitChars n ≠ [] from Nat.toDigits_ne_nil)
  exact ⟨⟨c, by rw [hsplit]; rfl, isDigit_of_mem_digitChars (n := n) (by simp [hsplit])⟩,
    fun d hd => Or.inl (isDigit_of_mem_digitChars hd)⟩

theorem IsPositional.isNumber {cs : List Char} (h : IsPositional cs) {tail : List Char}
    (htail : numberTail tail) : isNumber (cs ++ tail) := by
  obtain ⟨c, hhead, hc⟩ := h.head
  obtain ⟨rest, rfl⟩ := List.head?_eq_some_iff.mp hhead
  have hrest := h.chars
  rw [List.forall_mem_cons] at hrest
  exact isNumber_cons hc ((numberTail_append hrest.2 tail).trans htail)

theorem isNumber_digitChars (n : Nat) : isNumber (digitChars n) := by
  have h := (isPositional_digitChars n).isNumber (show numberTail [] from rfl)
  rwa [List.append_nil] at h

theorem toList_toString_int (i : Int) :
    (toString i).toList = (if i < 0 then ['-'] else []) ++ digitChars i.natAbs := by
  cases i with
  | ofNat n => simp [digitChars, toString, Int.repr, Nat.repr]
  | negSucc n => simp [digitChars, toString, Int.repr, Nat.repr, Int.negSucc_lt_zero]

theorem isPositional_positional {digits : List Char} (h : digits ≠ [])
    (hdigits : ∀ c ∈ digits, c.isDigit) (point : Int) :
    IsPositional (Layout.positional digits point) := by
  have hzeros : ∀ n, ∀ c ∈ List.replicate n '0', c.isDigit ∨ c = '.' := by
    intro n c hc
    obtain rfl := List.eq_of_mem_replicate hc
    exact Or.inl (by decide)
  have hchars : ∀ c ∈ digits, c.isDigit ∨ c = '.' := fun c hc => Or.inl (hdigits c hc)
  obtain ⟨c, rest, rfl⟩ := List.exists_cons_of_ne_nil h
  unfold Layout.positional
  split_ifs with hleft hright
  · refine ⟨⟨'0', rfl, by decide⟩, ?_⟩
    simp only [List.forall_mem_cons, List.forall_mem_append]
    exact ⟨Or.inl (by decide), by simp, hzeros _, List.forall_mem_cons.mp hchars⟩
  · refine ⟨⟨c, rfl, hdigits c (by simp)⟩, ?_⟩
    rw [List.forall_mem_append, List.forall_mem_append]
    exact ⟨⟨hchars, hzeros _⟩, by simp⟩
  · refine ⟨⟨c, ?_, hdigits c (by simp)⟩, ?_⟩
    · obtain ⟨k, hk⟩ : ∃ k, point.toNat = k + 1 := ⟨point.toNat - 1, by omega⟩
      simp [hk]
    · rw [List.forall_mem_append, List.forall_mem_cons]
      exact ⟨fun d hd => hchars d (List.mem_of_mem_take hd), Or.inr rfl,
        fun d hd => hchars d (List.mem_of_mem_drop hd)⟩

theorem numberTail_exponent (i : Int) (suffix : List Char) :
    numberTail ('e' :: ((toString i).toList ++ suffix)) = numberTail suffix := by
  have hdigits := isPositional_digitChars i.natAbs
  rw [toList_toString_int]
  split
  · have hsign : '-' ∈ ['+', '-'] ∧ 'e' ∈ ['e', 'E', 'p', 'P'] := by decide
    simp only [List.cons_append, List.nil_append, numberTail, hsign, and_self, if_true,
      numberTail_append hdigits.chars]
  · obtain ⟨c, hhead, hc⟩ := hdigits.head
    obtain ⟨rest, hrest⟩ := List.head?_eq_some_iff.mp hhead
    have hsign : c ∉ ['+', '-'] := by
      intro hmem
      simp only [List.mem_cons, List.not_mem_nil, or_false] at hmem
      rcases hmem with rfl | rfl <;> exact absurd hc (by decide)
    have hletter : (isWordChar 'e' || 'e' == '.') = true := by decide
    have htail := numberTail_append hdigits.chars suffix
    rw [hrest, List.cons_append] at htail
    simp only [List.nil_append, hrest, List.cons_append, numberTail, hsign, and_false, if_false,
      hletter, Bool.true_and, htail]

theorem Layout.write_sign (l : Layout) (negative : Bool) (d : Scaled) :
    l.write negative d = (if negative then ['-'] else []) ++ l.write false d := by
  unfold Layout.write
  by_cases hzero : d.digits = 0 <;> simp [hzero]

/-- The size of a float is a preprocessing number that begins with a digit. -/
theorem isNumber_write (l : Layout) (d : Scaled) {suffix : List Char} (hsuffix : numberTail suffix) :
    isNumber (l.write false d ++ suffix) ∧
      ∃ c, (l.write false d ++ suffix).head? = some c ∧ c.isDigit := by
  have hhead : ∀ {cs : List Char}, IsPositional cs →
      isNumber (cs ++ suffix) ∧ ∃ c, (cs ++ suffix).head? = some c ∧ c.isDigit := by
    intro cs h
    obtain ⟨c, hc, hdigit⟩ := h.head
    exact ⟨h.isNumber hsuffix, c, by simp [hc], hdigit⟩
  unfold Layout.write
  dsimp only
  by_cases hzero : d.digits = 0
  · rw [if_pos hzero]
    exact hhead ⟨⟨'0', rfl, by decide⟩, by simp⟩
  · rw [if_neg hzero]
    have hne : digitChars d.digits ≠ [] := Nat.toDigits_ne_nil
    have hdigits : ∀ c ∈ digitChars d.digits, c.isDigit := fun c => isDigit_of_mem_digitChars
    generalize digitChars d.digits = digits at hne hdigits
    simp only [Bool.false_eq_true, if_false, List.nil_append]
    split
    · exact hhead (isPositional_positional hne hdigits _)
    · unfold Layout.scientific
      split
      · exact absurd rfl hne
      · rename_i c _
        have hc := hdigits c (by simp)
        exact ⟨isNumber_cons hc ((numberTail_exponent _ suffix).trans hsuffix), c, rfl, hc⟩
      · rename_i c rest _ _
        rw [List.forall_mem_cons] at hdigits
        have htail : numberTail ('.' :: (rest ++ 'e' ::
            ((toString (d.place + (c :: rest).length - 1)).toList ++ suffix))) := by
          rw [numberTail_cons (Or.inr rfl),
            numberTail_append fun d hd => Or.inl (hdigits.2 d hd), numberTail_exponent]
          exact hsuffix
        refine ⟨?_, c, rfl, hdigits.1⟩
        simpa using isNumber_cons hdigits.1 htail

end Decimal

/-! ## Operands -/

/-- The text of an operand: the tokens it is cut into, and that no sign in front of it grows longer. -/
structure Written (cs : List Char) (ts : List Token) : Prop where
  yields : Yields cs ts
  head : ∀ c, cs.head? = some c → c ∉ ['=', '>']

section

variable {cs : List Char} {ts : List Token}

theorem written_nil : Written [] [] := ⟨.nil, by simp⟩

theorem written_of_wordChar (h : Yields cs ts) (hhead : ∃ c, cs.head? = some c ∧ isWordChar c) :
    Written cs ts := by
  refine ⟨h, fun c hc hmem => ?_⟩
  obtain ⟨d, hd, hword⟩ := hhead
  obtain rfl := Option.some.inj (hd.symm.trans hc)
  simp only [List.mem_cons, List.not_mem_nil, or_false] at hmem
  rcases hmem with rfl | rfl <;> exact absurd hword (by decide)

theorem wordChar_of_isIdentifier {s : String} (h : isIdentifier s) :
    ∃ c, s.toList.head? = some c ∧ isWordChar c := by
  have hword := isWord_of_isIdentifier h
  obtain ⟨c, rest, hsplit⟩ := List.exists_cons_of_ne_nil hword.nonempty
  exact ⟨c, by rw [hsplit]; rfl, hword.chars c (by simp [hsplit])⟩

theorem written_identifier {s : String} (h : isIdentifier s) : Written s.toList [.identifier s] :=
  written_of_wordChar (.name h) (wordChar_of_isIdentifier h)

/-- A constant with its sign. -/
theorem written_signed {t : Token} (negative : Bool) (h : Yields cs [t])
    (hhead : ∃ c, cs.head? = some c ∧ isWordChar c) :
    Written ((if negative then ['-'] else []) ++ cs) (signed negative t) := by
  cases negative with
  | false => exact written_of_wordChar h hhead
  | true =>
    refine ⟨h.minus fun c hc hmem => ?_, by simp⟩
    obtain ⟨d, hd, hword⟩ := hhead
    obtain rfl := Option.some.inj (hd.symm.trans hc)
    simp only [List.mem_cons, List.not_mem_nil, or_false] at hmem
    rcases hmem with rfl | rfl | rfl <;> exact absurd hword (by decide)

theorem isWordChar_of_isDigit {c : Char} (h : c.isDigit) : isWordChar c := by
  simp [isWordChar, Char.isAlphanum, h]

end

namespace Literal

theorem written_integer (i : Int) : Written (toString i).toList (integerTokens i) := by
  obtain ⟨c, hhead, hc⟩ := (Decimal.isPositional_digitChars i.natAbs).head
  have hyields := Yields.nil.number hhead hc (Decimal.isNumber_digitChars i.natAbs) (by simp)
  have hwritten := written_signed (decide (i < 0)) hyields
    ⟨c, by simp [hhead], isWordChar_of_isDigit hc⟩
  have htext : toString i.natAbs = String.ofList (Decimal.digitChars i.natAbs) := rfl
  rw [Decimal.toList_toString_int, integerTokens, htext]
  simpa using hwritten

theorem written_float (f : Decimal.BinaryFormat) (bits : Nat) {suffix : String}
    (hsuffix : numberTail suffix.toList) :
    Written (floatText f bits suffix).toList (floatTokens f bits suffix) := by
  have hname : ∀ (negative : Bool) {s : String}, isIdentifier s →
      Written ((if negative then ['-'] else []) ++ s.toList) (signed negative (.identifier s)) :=
    fun negative s hs => written_signed negative (.name hs) (wordChar_of_isIdentifier hs)
  have hsize : ∀ (negative : Bool) (d : Decimal.Scaled),
      Written (String.ofList (floatLayout.write negative d) ++ suffix).toList
        (signed negative (.number (String.ofList (floatLayout.write false d) ++ suffix))) := by
    intro negative d
    obtain ⟨hnumber, c, hhead, hc⟩ := Decimal.isNumber_write floatLayout d hsuffix
    have hyields := Yields.nil.number hhead hc hnumber (by simp)
    have hsign : (String.ofList (floatLayout.write negative d) ++ suffix).toList =
        (if negative then ['-'] else []) ++ (floatLayout.write false d ++ suffix.toList) := by
      rw [String.toList_append, String.toList_ofList, Decimal.Layout.write_sign, List.append_assoc]
    have hwritten := written_signed negative hyields
      ⟨c, by simpa using hhead, isWordChar_of_isDigit hc⟩
    rw [hsign]
    simpa using hwritten
  unfold floatText floatTokens
  cases f.datum bits with
  | nan => exact written_identifier (s := "NAN") (by decide)
  | infinite negative =>
    cases negative with
    | true =>
      have htext : "-INFINITY".toList = ['-'] ++ "INFINITY".toList := by decide
      have h := hname true (s := "INFINITY") (by decide)
      rw [if_pos rfl, ← htext] at h
      exact h
    | false => exact hname false (s := "INFINITY") (by decide)
  | finite negative significand exponent narrow =>
    cases significand with
    | zero => exact hsize negative ⟨0, 0⟩
    | succ n => exact hsize negative _

end Literal

theorem Literal.written (l : Literal) : Written l.text.toList l.tokens := by
  have hnat : ∀ n : Nat, Written (toString n).toList (integerTokens n) := fun n =>
    written_integer n
  cases l with
  | bool v =>
    cases v with
    | true => exact written_identifier (s := "true") (by decide)
    | false => exact written_identifier (s := "false") (by decide)
  | fp32 bits => exact written_float _ _ (by decide)
  | fp64 bits => exact written_float _ _ (by decide)
  | i8 v | i16 v | i32 v | i64 v => exact written_integer v.toInt
  | u8 v | u16 v | u32 v | u64 v => exact hnat v.toNat
  | fp16a bits | fp16b bits => exact hnat bits.toNat

/-! ## Variables -/

theorem Kind.isIdentifier_keyword (k : Kind) : isIdentifier k.keyword := by
  cases k <;> decide

theorem Slot.isIdentifier_label (s : Slot) : isIdentifier s.label := by
  have hfirst : ∃ c rest, s.label.toList = c :: rest ∧ c.isDigit = false := by
    simp only [label, String.toList_append]
    cases s.form <;> exact ⟨_, _, rfl, by decide⟩
  obtain ⟨c, rest, hsplit, hdigit⟩ := hfirst
  have hword := s.isWord_label.chars
  rw [hsplit] at hword
  simp only [isIdentifier, hsplit, hdigit, Bool.not_false, Bool.true_and]
  exact List.all_eq_true.mpr hword

namespace Variable

theorem IsNamed.written {v : Variable} (h : v.IsNamed) : Written v.text.toList v.tokens := by
  have hname : ∀ w : Variable, w.IsNamed →
      Written (w.name?.getD "").toList (w.name?.map Token.identifier).toList := by
    intro w hw
    cases hn : w.name? with
    | none => exact written_nil
    | some n => exact written_identifier (hw n hn)
  cases v with
  | literal l => exact l.written
  | slot s => exact written_identifier s.isIdentifier_label
  | _ => exact hname _ h

theorem yields_bracketed (dims : List Nat) : Yields (bracketed dims).toList (bracketTokens dims) := by
  induction dims with
  | nil => exact .nil
  | cons d dims ih =>
    obtain ⟨c, hhead, hc⟩ := (Decimal.isPositional_digitChars d).head
    have hright := ih.bracket (p := "]") (by decide)
    have hsize := hright.number hhead hc (Decimal.isNumber_digitChars d) fun d hd => by
      obtain rfl : ']' = d := Option.some.inj hd
      decide
    have hleft := hsize.bracket (p := "[") (by decide)
    have htext : (bracketed (d :: dims)).toList = "[".toList ++ (Decimal.digitChars d ++
        ("]".toList ++ (bracketed dims).toList)) := by
      simp [bracketed, Decimal.digitChars, Nat.repr]
    rw [htext]
    exact hleft

/-- A keyword and what stands behind it. -/
theorem written_keyword (k : Kind) {ds : List Char} {us : List Token} (h : Yields ds us) :
    Written (k.keyword.toList ++ ' ' :: ds) (.identifier k.keyword :: us) := by
  obtain ⟨c, hhead, hc⟩ := wordChar_of_isIdentifier k.isIdentifier_keyword
  exact written_of_wordChar ((Yields.name k.isIdentifier_keyword).blank h) ⟨c, by simp [hhead], hc⟩

theorem IsNamed.written_declaration {v : Variable} (h : v.IsNamed) :
    Written (v.declaration?.getD "").toList v.declarationTokens := by
  have hplain : ∀ (k : Kind) {n : String}, isIdentifier n →
      Written (k.keyword ++ " " ++ n).toList [.identifier k.keyword, .identifier n] := by
    intro k n hn
    simpa using written_keyword k (.name hn)
  have hsized : ∀ (k : Kind) {n : String} (dims : List Nat), isIdentifier n →
      Written (k.keyword ++ " " ++ n ++ " " ++ bracketed dims).toList
        (.identifier k.keyword :: .identifier n :: bracketTokens dims) := by
    intro k n dims hn
    simpa using written_keyword k ((Yields.name hn).blank (yields_bracketed dims))
  have hpointer : ∀ w : Variable, w.IsNamed →
      Written ((w.name?.map fun n => w.kind.keyword ++ " * " ++ n).getD "").toList
        ((w.name?.map fun n =>
          [.identifier w.kind.keyword, .punctuator "*", .identifier n]).getD []) := by
    intro w hw
    cases hn : w.name? with
    | none => exact written_nil
    | some n =>
      have hstar := (Yields.operator (p := "*") (by decide)).blank (.name (hw n hn))
      simpa using written_keyword w.kind hstar
  cases v with
  | scalar k n => exact hplain k (h n rfl)
  | array k n length => exact hsized k [length] (h n rfl)
  | matrix k n dims =>
    cases dims with
    | nil => exact hplain k (h n rfl)
    | cons d dims => exact hsized k (d :: dims) (h n rfl)
  | pointer w => exact hpointer w h
  | reference w => exact hpointer w h
  | literal l => exact written_nil
  | slot s =>
    have hlabel := Yields.name s.isIdentifier_label
    have hright := Yields.nil.bracket (p := "]") (by decide)
    have hpair := hright.bracket (p := "[") (by decide)
    cases hform : s.form with
    | scalar =>
      simpa [declaration?, Slot.parameter, declarationTokens, SlotForm.brackets, hform] using
        written_keyword s.kind hlabel
    | array =>
      simpa [declaration?, Slot.parameter, declarationTokens, SlotForm.brackets, hform] using
        written_keyword s.kind (hlabel.blank hpair)
    | matrix =>
      have htwo := (hpair.bracket (p := "]") (by decide)).bracket (p := "[") (by decide)
      simpa [declaration?, Slot.parameter, declarationTokens, SlotForm.brackets, hform] using
        written_keyword s.kind (hlabel.blank htwo)

end Variable

/-! ## Trees -/

theorem Tree.chars_neg_eq (t : Tree) : (unary .neg t).chars =
    if t.chars.head? = some '-' then '-' :: ' ' :: t.chars else '-' :: t.chars := by
  have htext : (unary .neg t).text =
      if t.chars.head? = some '-' then "- " ++ t.text else "-" ++ t.text := by
    rw [text]
    rfl
  rw [chars, htext]
  split <;> simp [chars]

theorem Written.blank {cs ds : List Char} {ts us : List Token} (h : Written cs ts)
    (h' : Yields ds us) : Written (cs ++ ' ' :: ds) (ts ++ us) := by
  refine ⟨h.yields.blank h', fun c hc => ?_⟩
  cases cs with
  | nil =>
    obtain rfl : ' ' = c := Option.some.inj hc
    decide
  | cons d cs => exact h.head c hc

namespace Arena

variable {a : Arena}

theorem Named.child {root o : NodeId} {node : Node} (h : a.Named root)
    (hnode : a.get? root = some node) (ho : o ∈ a.operands node) : a.Named o :=
  h.operand ⟨node, hnode, ho⟩

mutual

/-- The text of a tree is cut into the tokens of the tree. -/
theorem Unfolds.written : ∀ (t : Tree) {root : NodeId}, a.Unfolds root t → a.Named root →
    Written t.chars t.tokens
  | .leaf v, root, .leaf found, hnamed => by
    simpa [Tree.chars, Tree.text, Tree.tokens] using
      (hnamed.leaves root v .refl (content?_eq_some_iff.mpr found)).written
  | .declare v, root, .declare found holds, hnamed => by
    have hv := (hnamed.child found (by simp [operands, Node.children])).leaves _ v .refl
      (content?_eq_some_iff.mpr holds)
    simpa [Tree.chars, Tree.text, Tree.tokens] using hv.written_declaration
  | .assign t u, _, .assign found left right, hnamed => by
    have ht := Unfolds.written t left (hnamed.child found (by simp [operands, Node.children]))
    have hu := Unfolds.written u right (hnamed.child found (by simp [operands, Node.children]))
    rw [Tree.chars_assign, Tree.tokens]
    exact ht.blank ((Yields.operator (p := "=") (by decide)).blank hu.yields)
  | .index t u, _, .index found left right, hnamed => by
    have ht := Unfolds.written t left (hnamed.child found (by simp [operands, Node.children]))
    have hu := Unfolds.written u right (hnamed.child found (by simp [operands, Node.children]))
    rw [Tree.chars_index, Tree.tokens]
    exact ht.blank ((Yields.operator (p := "[") (by decide)).blank
      (hu.yields.blank (.operator (p := "]") (by decide))))
  | .binary op t u, _, .binary found left right, hnamed => by
    have ht := Unfolds.written t left (hnamed.child found (by simp [operands, Node.children]))
    have hu := Unfolds.written u right (hnamed.child found (by simp [operands, Node.children]))
    rw [Tree.chars_binary, Tree.tokens]
    exact ht.blank (op.yields_symbol.blank hu.yields)
  | .unary op t, _, .unary found operand, hnamed => by
    have ht := Unfolds.written t operand (hnamed.child found (by simp [operands, Node.children]))
    cases op with
    | neg =>
      rw [Tree.chars_neg_eq, Tree.tokens]
      split
      · exact ⟨(Yields.operator (p := "-") (by decide)).blank ht.yields, by simp⟩
      · rename_i hminus
        refine ⟨ht.yields.minus fun d hd hmem => ?_, by simp⟩
        rcases List.mem_cons.mp hmem with rfl | hmem
        · exact hminus hd
        · exact ht.head d hd hmem
    | not =>
      rw [Tree.chars_not, Tree.tokens]
      refine ⟨ht.yields.exclamation fun d hd => ?_, by simp⟩
      rintro rfl
      exact ht.head '=' hd (by decide)
    | paren =>
      rw [Tree.chars_paren, Tree.tokens]
      exact ⟨(Yields.operator (p := "(") (by decide)).blank
        (ht.yields.blank (.operator (p := ")") (by decide))), by simp⟩
  | .call callee [], root, @Unfolds.call _ _ _ range _ _ found _ _, hnamed => by
    have hname := hnamed.callees root callee range .refl found
    obtain ⟨c, hhead, hc⟩ := wordChar_of_isIdentifier hname
    have hpair := (Yields.nil.bracket (p := ")") (by decide)).bracket (p := "(") (by decide)
    rw [Tree.chars_call_nil, Tree.tokens]
    exact written_of_wordChar (hpair.identifier hname (by simp; decide)) ⟨c, by simp [hhead], hc⟩
  | .call callee (arg :: rest), root,
      @Unfolds.call _ _ _ range (o :: ids) _ found stored (.cons first others), hnamed => by
    have hname := hnamed.callees root callee range .refl found
    obtain ⟨c, hhead, hc⟩ := wordChar_of_isIdentifier hname
    have hchild : ∀ i ∈ o :: ids, a.Named i := fun i hi =>
      hnamed.child found (by simpa [operands, stored] using hi)
    rw [List.forall_mem_cons] at hchild
    have harg := Unfolds.written arg first hchild.1
    obtain ⟨ds, hds, hrest⟩ := written_further rest others hchild.2
    have hopen := (Yields.operator (p := "(") (by decide)).blank (harg.yields.blank hrest)
    rw [Tree.chars_call_cons, hds, Tree.tokens]
    exact written_of_wordChar (hopen.identifier hname (by simp; decide)) ⟨c, by simp [hhead], hc⟩

theorem written_further : ∀ (args : List Tree) {ids : List NodeId},
    List.Forall₂ a.Unfolds ids args → (∀ i ∈ ids, a.Named i) →
    ∃ ds, (Tree.furtherText args).toList ++ [' ', ')'] = ' ' :: ds ∧
      Yields ds (Tree.furtherTokens args ++ [.punctuator ")"])
  | [], _, _, _ => ⟨[')'], by simp [Tree.furtherText], .operator (p := ")") (by decide)⟩
  | arg :: rest, _, .cons first others, hnamed => by
    rw [List.forall_mem_cons] at hnamed
    have harg := Unfolds.written arg first hnamed.1
    obtain ⟨ds, hds, hrest⟩ := written_further rest others hnamed.2
    refine ⟨',' :: ' ' :: (arg.chars ++ ' ' :: ds), ?_, ?_⟩
    · rw [Tree.chars_further, ← hds]
      simp
    · have hcomma := (Yields.operator (p := ",") (by decide)).blank (harg.yields.blank hrest)
      simpa [Tree.furtherTokens] using hcomma

end

/-- A compiler cuts a rendered expression over proper names into the tokens of its tree, in order and
none of them grown together, and nowhere in the text do two minus signs stand side by side. -/
theorem tokens?_of_renderExpr {root : NodeId} {limit : Nat} {text : String} (hnamed : a.Named root)
    (h : a.renderExpr root limit = .ok text) :
    ∃ t, a.Unfolds root t ∧ tokens? text.toList = some t.tokens ∧ ¬ "--".toList <:+: text.toList := by
  obtain ⟨-, t, htree, rfl⟩ := (renderExpr_eq_ok_iff a root limit).2 text |>.mp h
  have hyields := (htree.written t hnamed).yields
  refine ⟨t, htree, hyields.tokens?_eq, fun hinfix => ?_⟩
  have hapart := hyields.apart.infix hinfix
  exact absurd hapart (by decide)

/-- A negation of a negation of the smallest integer of 32 bits, in brackets behind a difference that
begins with a negative constant, and an argument that is infinite. -/
theorem tokens?_of_renderExpr_signs :
    let a : Arena := ⟨#[.leaf (.literal (.i32 (-2147483648))), .unary .neg ⟨0⟩, .unary .neg ⟨1⟩,
      .leaf (.literal (.fp32 0xFF800000)), .call ⟨"f", [], none⟩ ⟨0, 1⟩, .binary .sub ⟨0⟩ ⟨4⟩,
      .index ⟨5⟩ ⟨2⟩], #[⟨3⟩]⟩
    ∃ text, a.renderExpr ⟨6⟩ 9 = .ok text ∧ ∃ t, a.Unfolds ⟨6⟩ t ∧
      tokens? text.toList = some t.tokens ∧ ¬ "--".toList <:+: text.toList := by
  intro a
  have hnamed : a.Named ⟨6⟩ := named_of_nodes (by simp [a, Variable.IsNamed, Variable.name?])
    (by simpa [a] using by decide) ⟨6⟩
  have hrender : a.renderExpr ⟨6⟩ 9 = .ok "-2147483648 - f( -INFINITY ) [ - - -2147483648 ]" := rfl
  exact ⟨_, hrender, tokens?_of_renderExpr hnamed hrender⟩

end Arena

end KernelForge
