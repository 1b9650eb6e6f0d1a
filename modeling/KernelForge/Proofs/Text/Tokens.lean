import KernelForge.Proofs.Text.Words
import Mathlib.Data.List.Chain

/-!
# Tokens

A compiler cuts a text into tokens from left to right and takes the longest one each time. Blanks
between tokens are dropped. A text yields the same tokens wherever a blank or nothing follows it, so
that texts can be cut piece by piece.
-/
namespace KernelForge.Text

/-! ## The tokens of C -/

inductive Token
  /-- A name or a keyword. -/
  | identifier (text : String)
  /-- A preprocessing number. -/
  | number (text : String)
  | punctuator (text : String)
  deriving DecidableEq

/-- The punctuators, and the two beginnings of a comment. -/
def punctuators : List String :=
  ["[", "]", "(", ")", "\x7b", "\x7d", ".", "->", "++", "--", "&", "*", "+", "-", "~", "!", "/", "%",
    "<<", ">>", "<", ">", "<=", ">=", "==", "!=", "^", "|", "&&", "||", "?", ":", ";", "...", "=",
    "*=", "/=", "%=", "+=", "-=", "<<=", ">>=", "&=", "^=", "|=", ",", "#", "##", "<:", ":>", "<%",
    "%>", "%:", "%:%:", "//", "/*"]

/-- What may follow the first digit of a number. A sign stands only behind the letter of an
exponent. -/
def numberTail : List Char → Bool
  | [] => true
  | [c] => isWordChar c || c == '.'
  | c :: d :: rest =>
    if c ∈ ['e', 'E', 'p', 'P'] ∧ d ∈ ['+', '-'] then numberTail rest
    else (isWordChar c || c == '.') && numberTail (d :: rest)

def isNumber : List Char → Bool
  | '.' :: d :: rest => d.isDigit && numberTail rest
  | d :: rest => d.isDigit && numberTail rest
  | [] => false

/-- The token that a text is. -/
def token? (cs : List Char) : Option Token :=
  let text := String.ofList cs
  if isIdentifier text then some (.identifier text)
  else if isNumber cs then some (.number text)
  else if text ∈ punctuators then some (.punctuator text)
  else none

/-- The longest token that a text begins with, among those of at most `n` characters, and what stands
behind it. -/
def munch? (cs : List Char) : Nat → Option (Token × List Char)
  | 0 => none
  | n + 1 =>
    match token? (cs.take (n + 1)) with
    | some t => some (t, cs.drop (n + 1))
    | none => munch? cs n

theorem length_of_munch? {cs rest : List Char} {n : Nat} {t : Token} (hcs : cs ≠ [])
    (h : munch? cs n = some (t, rest)) : rest.length < cs.length := by
  induction n with
  | zero => simp [munch?] at h
  | succ n ih =>
    rw [munch?] at h
    split at h
    · obtain ⟨-, rfl⟩ := Prod.mk.inj (Option.some.inj h)
      have hpos := List.length_pos_iff.mpr hcs
      rw [List.length_drop]
      omega
    · exact ih h

/-- Cuts a text into tokens. There are none if some place of the text begins no token. -/
def tokens? : List Char → Option (List Token)
  | [] => some []
  | c :: cs =>
    if c.isWhitespace then tokens? cs
    else
      match _h : munch? (c :: cs) (cs.length + 1) with
      | none => none
      | some (t, rest) => (tokens? rest).map (t :: ·)
  termination_by cs => cs.length
  decreasing_by
    · simp
    · exact length_of_munch? (by simp) _h

/-! ## The longest token -/

theorem munch?_eq_some {cs : List Char} {n : Nat} {t : Token} {rest : List Char} :
    munch? cs n = some (t, rest) ↔ ∃ m, m ≤ n ∧ 0 < m ∧ token? (cs.take m) = some t ∧
      cs.drop m = rest ∧ ∀ k, m < k → k ≤ n → token? (cs.take k) = none := by
  induction n with
  | zero =>
    simp only [munch?, reduceCtorEq, false_iff]
    rintro ⟨m, hm, hpos, -⟩
    omega
  | succ n ih =>
    rw [munch?]
    cases htoken : token? (cs.take (n + 1)) with
    | some u =>
      constructor
      · intro h
        obtain ⟨rfl, rfl⟩ := Prod.mk.inj (Option.some.inj h)
        exact ⟨n + 1, by omega, by omega, htoken, rfl, fun k _ _ => by omega⟩
      · rintro ⟨m, hm, -, ht, rfl, hnone⟩
        obtain rfl : m = n + 1 := by
          by_contra hne
          simp [hnone (n + 1) (by omega) (by omega)] at htoken
        simpa [htoken] using ht
    | none =>
      refine ih.trans ⟨?_, ?_⟩
      · rintro ⟨m, hm, hpos, ht, hdrop, hnone⟩
        refine ⟨m, by omega, hpos, ht, hdrop, fun k hk hle => ?_⟩
        rcases Nat.lt_or_ge n k with hlt | hge
        · obtain rfl : k = n + 1 := by omega
          exact htoken
        · exact hnone k hk hge
      · rintro ⟨m, hm, hpos, ht, hdrop, hnone⟩
        have hne : m ≠ n + 1 := by
          rintro rfl
          simp [htoken] at ht
        exact ⟨m, by omega, hpos, ht, hdrop, fun k hk hle => hnone k hk (by omega)⟩

/-- What is taken is a token that the text begins with, and no longer beginning is one. -/
theorem munch?_length_eq_some_iff {cs rest : List Char} {t : Token} :
    munch? cs cs.length = some (t, rest) ↔ ∃ w, w ≠ [] ∧ cs = w ++ rest ∧ token? w = some t ∧
      ∀ v, v <+: cs → w.length < v.length → token? v = none := by
  rw [munch?_eq_some]
  constructor
  · rintro ⟨m, hm, hpos, ht, rfl, hnone⟩
    have hlength : (cs.take m).length = m := by simp [hm]
    refine ⟨cs.take m, ?_, (cs.take_append_drop m).symm, ht, fun v hv hlt => ?_⟩
    · rw [← List.length_pos_iff]
      omega
    · rw [List.prefix_iff_eq_take.mp hv]
      exact hnone v.length (by omega) hv.length_le
  · rintro ⟨w, hw, rfl, ht, hnone⟩
    refine ⟨w.length, by simp, List.length_pos_iff.mpr hw, by simpa using ht, by simp,
      fun k hk hle => hnone _ (List.take_prefix k _) ?_⟩
    rw [List.length_take]
    omega

theorem token?_nil : token? [] = none := by decide

theorem tokens?_blank (cs : List Char) : tokens? (' ' :: cs) = tokens? cs := by
  rw [tokens?]
  rfl

/-- A token that nothing behind it makes longer is cut off. -/
theorem tokens?_append {w rest : List Char} {t : Token} (ht : token? w = some t)
    (hblank : ∀ c, w.head? = some c → ¬ c.isWhitespace)
    (hlongest : ∀ v, v <+: w ++ rest → w.length < v.length → token? v = none) :
    tokens? (w ++ rest) = (tokens? rest).map (t :: ·) := by
  cases w with
  | nil => simp [token?_nil] at ht
  | cons c w =>
    have hmunch : munch? (c :: (w ++ rest)) ((w ++ rest).length + 1) = some (t, rest) :=
      munch?_length_eq_some_iff.mpr ⟨c :: w, by simp, rfl, ht, hlongest⟩
    rw [List.cons_append, tokens?, if_neg (hblank c rfl)]
    split
    · rename_i h
      rw [hmunch] at h
      cases h
    · rename_i u behind h
      rw [hmunch] at h
      obtain ⟨rfl, rfl⟩ := Prod.mk.inj (Option.some.inj h)
      rfl

/-- A longer beginning holds the character that follows. -/
theorem exists_of_longer {v w rest : List Char} (h : v <+: w ++ rest) (hlt : w.length < v.length) :
    ∃ c more, rest.head? = some c ∧ v = w ++ c :: more := by
  obtain ⟨more, rfl⟩ : w <+: v := List.prefix_of_prefix_length_le (w.prefix_append rest) h
    (Nat.le_of_lt hlt)
  rw [List.prefix_append_right_inj] at h
  cases more with
  | nil => simp at hlt
  | cons c more =>
    obtain ⟨behind, rfl⟩ := h
    exact ⟨c, more, rfl, rfl⟩

/-! ## Words and numbers -/

/-- The characters of words and numbers. -/
def isNumberChar (c : Char) : Bool := isWordChar c || c ∈ ['.', '+', '-']

theorem numberChar_of_numberTail {cs : List Char} (h : numberTail cs) : ∀ c ∈ cs, isNumberChar c := by
  fun_induction numberTail cs with
  | case1 => simp
  | case2 c =>
    intro d hd
    obtain rfl := List.mem_singleton.mp hd
    simp only [Bool.or_eq_true, beq_iff_eq] at h
    rcases h with h | rfl
    · simp [isNumberChar, h]
    · decide
  | case3 c d rest hsign ih =>
    simp only [List.forall_mem_cons]
    refine ⟨?_, ?_, ih h⟩
    · obtain ⟨hc, -⟩ := hsign
      simp only [List.mem_cons, List.not_mem_nil, or_false] at hc
      rcases hc with rfl | rfl | rfl | rfl <;> decide
    · obtain ⟨-, hd⟩ := hsign
      simp only [List.mem_cons, List.not_mem_nil, or_false] at hd
      rcases hd with rfl | rfl <;> decide
  | case4 c d rest _ ih =>
    rw [List.forall_mem_cons]
    simp only [Bool.and_eq_true, Bool.or_eq_true, beq_iff_eq] at h
    refine ⟨?_, ih h.2⟩
    rcases h.1 with h | rfl
    · simp [isNumberChar, h]
    · decide

theorem numberChar_of_isNumber {cs : List Char} (h : isNumber cs) : ∀ c ∈ cs, isNumberChar c := by
  have hdigit : ∀ d : Char, d.isDigit → isNumberChar d := fun d hd => by
    simp [isNumberChar, isWordChar, Char.isAlphanum, hd]
  unfold isNumber at h
  split at h
  · simp only [Bool.and_eq_true] at h
    simp only [List.forall_mem_cons]
    exact ⟨by decide, hdigit _ h.1, numberChar_of_numberTail h.2⟩
  · simp only [Bool.and_eq_true] at h
    rw [List.forall_mem_cons]
    exact ⟨hdigit _ h.1, numberChar_of_numberTail h.2⟩
  · cases h

theorem not_wordChar_of_punctuator :
    ∀ p ∈ punctuators, ∀ c ∈ p.toList.head?, isWordChar c = false := by
  have hall : ∀ p ∈ punctuators, p.toList.head?.all fun c => !isWordChar c := by decide
  intro p hp c hc
  simpa [Option.mem_def.mp hc] using hall p hp

theorem token?_of_isIdentifier {s : String} (h : isIdentifier s) :
    token? s.toList = some (.identifier s) := by
  simp [token?, h]

theorem token?_of_isNumber {cs : List Char} (hdigit : ∀ c, cs.head? = some c → c.isDigit)
    (h : isNumber cs) : token? cs = some (.number (String.ofList cs)) := by
  have hident : isIdentifier (String.ofList cs) = false := by
    cases cs with
    | nil => cases h
    | cons c cs => simp [isIdentifier, hdigit c rfl]
  simp [token?, hident, h]

/-- A text that begins as words and numbers do and holds a character that they do not is no token. -/
theorem token?_eq_none {cs : List Char} {c d : Char} (hhead : cs.head? = some c)
    (hc : isWordChar c) (hmem : d ∈ cs) (hd : isNumberChar d = false) : token? cs = none := by
  have hident : isIdentifier (String.ofList cs) = false := by
    by_contra h
    have hword := (isWord_of_isIdentifier (by simpa using h)).chars d (by simpa using hmem)
    simp [isNumberChar, hword] at hd
  have hnumber : isNumber cs = false := by
    by_contra h
    simp [numberChar_of_isNumber (by simpa using h) d hmem] at hd
  have hpunctuator : String.ofList cs ∉ punctuators := by
    intro h
    have := not_wordChar_of_punctuator _ h c (by simpa using hhead)
    simp [hc] at this
  simp [token?, hident, hnumber, hpunctuator]

/-- A word or a number ends where something stands that neither contains. -/
theorem tokens?_word {w rest : List Char} {c : Char} {t : Token} (ht : token? w = some t)
    (hhead : w.head? = some c) (hc : isWordChar c)
    (hrest : ∀ d, rest.head? = some d → isNumberChar d = false) :
    tokens? (w ++ rest) = (tokens? rest).map (t :: ·) := by
  refine tokens?_append ht ?_ fun v hv hlt => ?_
  · intro d hd hblank
    obtain rfl := Option.some.inj (hhead.symm.trans hd)
    simp only [Char.isWhitespace, Bool.or_eq_true, decide_eq_true_eq] at hblank
    rcases hblank with ((rfl | rfl) | rfl) | rfl <;> exact absurd hc (by decide)
  · obtain ⟨d, more, hd, rfl⟩ := exists_of_longer hv hlt
    exact token?_eq_none (by simp [hhead]) hc (by simp) (hrest d hd)

/-! ## Punctuators -/

/-- The characters with which a longer punctuator goes on from a text. -/
def extensions (w : List Char) : List Char :=
  punctuators.filterMap fun p => if w <+: p.toList then p.toList[w.length]? else none

theorem token?_of_punctuator : ∀ p ∈ punctuators, token? p.toList = some (.punctuator p) := by
  decide

theorem not_blank_of_punctuator :
    ∀ p ∈ punctuators, ∀ c ∈ p.toList, c.isWhitespace = false := by
  have hall : ∀ p ∈ punctuators, p.toList.all fun c => !c.isWhitespace := by decide
  intro p hp c hc
  simpa using List.all_eq_true.mp (hall p hp) c hc

theorem blank_not_mem_extensions (w : List Char) : ' ' ∉ extensions w := by
  intro h
  obtain ⟨p, hp, hnext⟩ := List.mem_filterMap.mp h
  split at hnext
  · exact absurd (not_blank_of_punctuator p hp ' ' (List.mem_of_getElem? hnext)) (by decide)
  · cases hnext

/-- A punctuator ends where something stands with which no punctuator goes on. -/
theorem tokens?_punctuator {p : String} {rest : List Char} {c : Char} (hp : p ∈ punctuators)
    (hhead : p.toList.head? = some c) (hdot : c ≠ '.')
    (hrest : ∀ d, rest.head? = some d → d ∉ extensions p.toList) :
    tokens? (p.toList ++ rest) = (tokens? rest).map (.punctuator p :: ·) := by
  have hword : isWordChar c = false := not_wordChar_of_punctuator p hp c hhead
  refine tokens?_append (token?_of_punctuator p hp) ?_ fun v hv hlt => ?_
  · intro d hd hblank
    simp [not_blank_of_punctuator p hp d (List.mem_of_head? hd)] at hblank
  · obtain ⟨d, more, hd, rfl⟩ := exists_of_longer hv hlt
    obtain ⟨others, hothers⟩ := List.head?_eq_some_iff.mp hhead
    have hident : isIdentifier (String.ofList (p.toList ++ d :: more)) = false := by
      simp [isIdentifier, hothers, hword]
    have hnumber : isNumber (p.toList ++ d :: more) = false := by
      have hdigit : c.isDigit = false := by
        simp only [isWordChar, Char.isAlphanum, Bool.or_eq_false_iff] at hword
        exact hword.1.2
      rw [hothers, List.cons_append, isNumber]
      · simp [hdigit]
      · rintro e es rfl
        exact absurd rfl hdot
    have hpunctuator : String.ofList (p.toList ++ d :: more) ∉ punctuators := by
      intro hmem
      refine hrest d hd (List.mem_filterMap.mpr ⟨_, hmem, ?_⟩)
      simp
    simp only [token?, hident, hnumber, hpunctuator, Bool.false_eq_true, if_false]

/-! ## Texts that are cut piece by piece -/

/-- Two characters that are not both a minus. -/
def Apart (c d : Char) : Prop := ¬ (c = '-' ∧ d = '-')

instance (c d : Char) : Decidable (Apart c d) := inferInstanceAs (Decidable (¬ _))

theorem apart_of_ne_left {c : Char} (d : Char) (h : c ≠ '-') : Apart c d := fun hboth => h hboth.1

theorem apart_of_ne_right (c : Char) {d : Char} (h : d ≠ '-') : Apart c d := fun hboth => h hboth.2

/-- A text that is cut into these tokens wherever a blank or nothing follows it, and in which no two
minus signs stand side by side. -/
structure Yields (cs : List Char) (ts : List Token) : Prop where
  split : ∀ rest, (∀ c, rest.head? = some c → c = ' ') →
    tokens? (cs ++ rest) = (tokens? rest).map (ts ++ ·)
  apart : cs.IsChain Apart

theorem numberTail_head {c : Char} {cs : List Char} (h : numberTail (c :: cs)) : c ≠ '-' := by
  rintro rfl
  cases cs with
  | nil => simp [numberTail, isWordChar] at h
  | cons d cs => simp [numberTail, isWordChar] at h

theorem apart_of_numberTail {cs : List Char} (h : numberTail cs) : cs.IsChain Apart := by
  fun_induction numberTail cs with
  | case1 => exact .nil
  | case2 c => exact .singleton c
  | case3 c d rest hsign ih =>
    have hc : c ≠ '-' := by
      rintro rfl
      exact absurd hsign.1 (by decide)
    refine List.isChain_cons_cons.mpr ⟨apart_of_ne_left d hc, (ih h).cons fun e he => ?_⟩
    obtain ⟨more, rfl⟩ := List.head?_eq_some_iff.mp he
    exact apart_of_ne_right d (numberTail_head h)
  | case4 c d rest _ ih =>
    simp only [Bool.and_eq_true] at h
    exact List.isChain_cons_cons.mpr ⟨apart_of_ne_right c (numberTail_head h.2), ih h.2⟩

theorem apart_of_not_mem {cs : List Char} (h : '-' ∉ cs) : cs.IsChain Apart := by
  induction cs with
  | nil => exact .nil
  | cons c cs ih =>
    rw [List.mem_cons, not_or] at h
    exact (ih h.2).cons fun d _ => apart_of_ne_left d (Ne.symm h.1)

theorem apart_of_word {w : List Char} {c : Char} {t : Token} (ht : token? w = some t)
    (hhead : w.head? = some c) (hc : isWordChar c) : w.IsChain Apart := by
  unfold token? at ht
  dsimp only at ht
  split_ifs at ht with hident hnumber hpunctuator
  · refine apart_of_not_mem fun hmem => ?_
    exact absurd ((isWord_of_isIdentifier hident).chars '-' (by simpa using hmem)) (by decide)
  · obtain ⟨rest, rfl⟩ := List.head?_eq_some_iff.mp hhead
    rw [isNumber] at hnumber
    · simp only [Bool.and_eq_true] at hnumber
      refine (apart_of_numberTail hnumber.2).cons fun d _ => apart_of_ne_left d ?_
      rintro rfl
      exact absurd hc (by decide)
    · rintro e es rfl
      exact absurd hc (by decide)
  · have := not_wordChar_of_punctuator _ hpunctuator c (by simpa using hhead)
    simp [hc] at this

namespace Yields

variable {cs ds : List Char} {ts us : List Token}

theorem nil : Yields [] [] where
  split rest _ := by simp
  apart := .nil

/-- What is behind a blank is cut on its own. -/
theorem blank (h : Yields cs ts) (h' : Yields ds us) : Yields (cs ++ ' ' :: ds) (ts ++ us) where
  split rest hrest := by
    rw [List.append_assoc, List.cons_append, h.split _ (by simp), tokens?_blank,
      h'.split rest hrest, Option.map_map]
    simp only [Function.comp_def, List.append_assoc]
  apart := by
    refine h.apart.append (h'.apart.cons fun d _ => apart_of_ne_left d (by decide)) fun c _ d hd => ?_
    obtain rfl : ' ' = d := Option.some.inj hd
    exact apart_of_ne_right c (by decide)

/-- A word or a number in front of what cannot make it longer. -/
theorem word {w : List Char} {c : Char} {t : Token} (ht : token? w = some t)
    (hhead : w.head? = some c) (hc : isWordChar c) (h : Yields cs ts)
    (hnext : ∀ d, cs.head? = some d → isNumberChar d = false) : Yields (w ++ cs) (t :: ts) where
  split rest hrest := by
    have hbehind : ∀ d, (cs ++ rest).head? = some d → isNumberChar d = false := by
      intro d hd
      cases cs with
      | nil =>
        obtain rfl := hrest d hd
        decide
      | cons e cs => exact hnext d hd
    rw [List.append_assoc, tokens?_word ht hhead hc hbehind, h.split rest hrest, Option.map_map]
    simp only [Function.comp_def, List.cons_append]
  apart := by
    refine (apart_of_word ht hhead hc).append h.apart fun c _ d hd => apart_of_ne_right c ?_
    rintro rfl
    exact absurd (hnext '-' hd) (by decide)

theorem isChain_of_punctuator :
    ∀ p ∈ punctuators, p ≠ "--" → p.toList.IsChain Apart ∧
      (p.toList.getLast? = some '-' → '-' ∈ extensions p.toList) := by decide

/-- A punctuator in front of what cannot make it longer. -/
theorem punctuator {p : String} {c : Char} (hp : p ∈ punctuators) (hne : p ≠ "--")
    (hhead : p.toList.head? = some c) (hdot : c ≠ '.') (h : Yields cs ts)
    (hnext : ∀ d, cs.head? = some d → d ∉ extensions p.toList) :
    Yields (p.toList ++ cs) (.punctuator p :: ts) where
  split rest hrest := by
    have hbehind : ∀ d, (cs ++ rest).head? = some d → d ∉ extensions p.toList := by
      intro d hd
      cases cs with
      | nil =>
        obtain rfl := hrest d hd
        exact blank_not_mem_extensions _
      | cons e cs => exact hnext d hd
    rw [List.append_assoc, tokens?_punctuator hp hhead hdot hbehind, h.split rest hrest,
      Option.map_map]
    simp only [Function.comp_def, List.cons_append]
  apart := by
    obtain ⟨hchain, hlast⟩ := isChain_of_punctuator p hp hne
    refine hchain.append h.apart fun c hc d hd hboth => ?_
    obtain ⟨rfl, rfl⟩ := hboth
    exact hnext '-' hd (hlast hc)

theorem tokens?_eq (h : Yields cs ts) : tokens? cs = some ts := by
  have := h.split [] (by simp)
  simpa [tokens?] using this

end Yields

end KernelForge.Text
