import KernelForge.Variable
import Mathlib.Data.List.Basic

/-!
# Words and readers

Names, slot labels and numbers that are not negative are words: letters, digits and underscores
without anything between them. A reader finds in a text what was written there.
-/
namespace KernelForge

namespace Text

/-- A letter, a digit or an underscore. -/
def isWordChar (c : Char) : Bool := c.isAlphanum || c == '_'

structure IsWord (cs : List Char) : Prop where
  nonempty : cs ≠ []
  chars : ∀ c ∈ cs, isWordChar c

/-- A word that does not begin with a digit, as the names of C do. -/
def isIdentifier (s : String) : Bool :=
  match s.toList with
  | [] => false
  | c :: cs => !c.isDigit && (c :: cs).all isWordChar

theorem isWord_of_isIdentifier {s : String} (h : isIdentifier s) : IsWord s.toList := by
  unfold isIdentifier at h
  cases hs : s.toList with
  | nil => simp [hs] at h
  | cons c cs =>
    rw [hs] at h
    simp only [Bool.and_eq_true] at h
    exact ⟨List.cons_ne_nil c cs, List.all_eq_true.mp h.2⟩

theorem isWord_repr (n : Nat) : IsWord (toString n).toList := by
  have h : (toString n).toList = Nat.toDigits 10 n := by simp [Nat.repr]
  rw [h]
  refine ⟨Nat.toDigits_ne_nil, fun c hc => ?_⟩
  have hdigit := Nat.isDigit_of_mem_toDigits (by decide) (by decide) hc
  simp [isWordChar, Char.isAlphanum, hdigit]

/-- A text without the characters that end and nest statements: it stands on one line and opens and
closes no block. -/
def IsBare (s : String) : Prop := ∀ c ∈ s.toList, c ∉ [';', '\x7b', '\x7d', '#', '\n']

-- the search would also find an instance that goes through all characters there are
instance (s : String) : Decidable (IsBare s) := List.decidableBAll _ s.toList

@[simp] theorem isBare_append {s t : String} : IsBare (s ++ t) ↔ IsBare s ∧ IsBare t := by
  simp only [IsBare, String.toList_append, List.forall_mem_append]

theorem IsBare.newline {s : String} (h : IsBare s) : '\n' ∉ s.toList := fun hmem =>
  h _ hmem (by decide)

theorem isBare_join {ss : List String} (h : ∀ s ∈ ss, IsBare s) : IsBare (String.join ss) := by
  induction ss with
  | nil => decide
  | cons s rest ih =>
    rw [List.forall_mem_cons] at h
    rw [String.join_cons, isBare_append]
    exact ⟨h.1, ih h.2⟩

theorem isBare_intercalate {separator : String} (hsep : IsBare separator) {ss : List String}
    (h : ∀ s ∈ ss, IsBare s) : IsBare (separator.intercalate ss) := by
  induction ss with
  | nil =>
    rw [String.intercalate_nil]
    decide
  | cons s rest ih =>
    rw [List.forall_mem_cons] at h
    cases rest with
    | nil => simpa using h.1
    | cons t rest =>
      rw [String.intercalate_cons_cons, isBare_append, isBare_append]
      exact ⟨⟨h.1, hsep⟩, ih h.2⟩

theorem IsWord.isBare {s : String} (h : IsWord s.toList) : IsBare s := by
  intro c hc hpunctuation
  have hword := h.chars c hc
  simp only [List.mem_cons, List.not_mem_nil, or_false] at hpunctuation
  rcases hpunctuation with rfl | rfl | rfl | rfl | rfl <;> exact absurd hword (by decide)

theorem isBare_of_isIdentifier {s : String} (h : isIdentifier s) : IsBare s :=
  (isWord_of_isIdentifier h).isBare

theorem isBare_nat (n : Nat) : IsBare (toString n) := (isWord_repr n).isBare

theorem isBare_int (i : Int) : IsBare (toString i) := by
  cases i with
  | ofNat n => exact isBare_nat n
  | negSucc n =>
    have h : toString (Int.negSucc n) = "-" ++ toString (n + 1) := rfl
    rw [h, isBare_append]
    exact ⟨by decide, isBare_nat (n + 1)⟩

theorem IsWord.append {cs ds : List Char} (h : IsWord cs) (h' : ∀ c ∈ ds, isWordChar c) :
    IsWord (cs ++ ds) := by
  refine ⟨by simp [h.nonempty], fun c hc => ?_⟩
  rcases List.mem_append.mp hc with hc | hc
  · exact h.chars c hc
  · exact h' c hc

/-- A word ends where something stands that no word contains. -/
theorem IsWord.takeWhile_append {w behind : List Char} (hw : IsWord w)
    (hbehind : ∀ c, behind.head? = some c → ¬ isWordChar c) :
    (w ++ behind).takeWhile isWordChar = w := by
  rw [List.takeWhile_append_of_pos hw.chars]
  cases behind with
  | nil => simp
  | cons c behind => simp [hbehind c rfl]

theorem IsWord.append_inj {w v behind rest : List Char} (hw : IsWord w) (hv : IsWord v)
    (hbehind : ∀ c, behind.head? = some c → ¬ isWordChar c)
    (hrest : ∀ c, rest.head? = some c → ¬ isWordChar c) (h : w ++ behind = v ++ rest) :
    w = v ∧ behind = rest := by
  have hwords := congrArg (List.takeWhile isWordChar) h
  rw [hw.takeWhile_append hbehind, hv.takeWhile_append hrest] at hwords
  subst hwords
  exact ⟨rfl, List.append_cancel_left h⟩

/-! ## Readers -/

/-- A reader gives what it read and the characters behind it. The number bounds the depth of its
recursion. -/
abbrev Reader (α : Type) := Nat → List Char → Option (α × List Char)

/-- The reader finds a value, and more depth does not change it. -/
def Reads {α : Type} (p : Reader α) (cs : List Char) (x : α) (rest : List Char) : Prop :=
  ∃ m, ∀ n, m ≤ n → p n cs = some (x, rest)

theorem Reads.unique {α : Type} {p : Reader α} {cs rest rest' : List Char} {x y : α}
    (h : Reads p cs x rest) (h' : Reads p cs y rest') : x = y := by
  obtain ⟨m, hm⟩ := h
  obtain ⟨m', hm'⟩ := h'
  have hx := hm (max m m') (by omega)
  rw [hm' (max m m') (by omega)] at hx
  exact (Prod.mk.inj (Option.some.inj hx)).1.symm

theorem reads_of_succ {α : Type} {p : Reader α} {cs rest : List Char} {x : α} (m : Nat)
    (h : ∀ n, m ≤ n → p (n + 1) cs = some (x, rest)) : Reads p cs x rest := by
  refine ⟨m + 1, fun n hn => ?_⟩
  obtain ⟨n, rfl⟩ := Nat.exists_eq_add_of_lt hn
  exact h (m + n) (by omega)

end Text

open Text

theorem Kind.isWord_name (k : Kind) : IsWord k.name.toList := by
  cases k <;> exact isWord_of_isIdentifier (by decide)

theorem Slot.isWord_label (s : Slot) : IsWord s.label.toList := by
  have hletter : IsWord s.form.letter.toList := by
    cases s.form <;> exact isWord_of_isIdentifier (by decide)
  have hunderscore : ∀ c ∈ "_".toList, isWordChar c := List.all_eq_true.mp (by decide)
  have h := ((((hletter.append hunderscore).append s.kind.isWord_name.chars).append
    hunderscore).append (isWord_repr s.ordinal.val).chars)
  simpa [label] using h

namespace Literal

/-- The value of a constant of an integer kind. -/
def integer? : Literal → Option Int
  | i8 v => some v.toInt
  | i16 v => some v.toInt
  | i32 v => some v.toInt
  | i64 v => some v.toInt
  | u8 v => some v.toNat
  | u16 v => some v.toNat
  | u32 v => some v.toNat
  | u64 v => some v.toNat
  | _ => none

/-- An integer that is not negative. -/
def IsNatural (l : Literal) : Prop := ∃ n : Nat, l.integer? = some (n : Int)

theorem text_of_integer? {l : Literal} {i : Int} (h : l.integer? = some i) : l.text = toString i := by
  cases l <;> simp only [integer?, Option.some.injEq, reduceCtorEq] at h <;> subst h <;> rfl

theorem IsNatural.isWord {l : Literal} (h : l.IsNatural) : IsWord l.text.toList := by
  obtain ⟨n, hn⟩ := h
  rw [text_of_integer? hn]
  exact isWord_repr n

end Literal

namespace Variable

/-- A leaf that is one word: a variable with a proper name, a slot or an integer that is not
negative. -/
def IsPlain : Variable → Prop
  | literal l => l.IsNatural
  | slot _ => True
  | v => ∃ n, v.name? = some n ∧ isIdentifier n

theorem IsPlain.isWord {v : Variable} (h : v.IsPlain) : IsWord v.text.toList := by
  cases v with
  | literal l => exact Literal.IsNatural.isWord h
  | slot s => exact s.isWord_label
  | _ =>
    obtain ⟨n, hn, hident⟩ := h
    simp only [text, hn, Option.getD_some]
    exact isWord_of_isIdentifier hident

end Variable

end KernelForge
