import KernelForge.Proofs.Expr.Reach
import KernelForge.Proofs.Render.Walk
import KernelForge.Proofs.Text.Words

/-!
# What no expression text contains

Semicolons, braces, hashes and line ends belong to statements. When the names in an expression are
identifiers, no rendering of it has any of them, floats and declarations included.
-/
namespace KernelForge

open Text

theorem Kind.isBare_keyword (k : Kind) : IsBare k.keyword := by
  cases k <;> decide

theorem BinaryOp.isBare_symbol (op : BinaryOp) : IsBare op.symbol := by
  cases op <;> decide

theorem SlotForm.isBare_brackets (form : SlotForm) : IsBare form.brackets := by
  cases form <;> decide

theorem Slot.isBare_label (s : Slot) : IsBare s.label := s.isWord_label.isBare

theorem Slot.isBare_parameter (s : Slot) : IsBare s.parameter := by
  simp only [parameter, isBare_append]
  exact ⟨⟨⟨s.kind.isBare_keyword, by decide⟩, s.isBare_label⟩, s.form.isBare_brackets⟩

theorem Signature.isBare_resultText (s : Signature) : IsBare s.resultText := by
  unfold resultText
  cases s.result with
  | none => decide
  | some t =>
    obtain ⟨kind, form⟩ := t
    cases form with
    | scalar => exact kind.isBare_keyword
    | _ => exact isBare_append.mpr ⟨kind.isBare_keyword, by decide⟩

/-! ## Constants -/

namespace Decimal

/-- The characters of numbers. -/
def IsNumeric (cs : List Char) : Prop := ∀ c ∈ cs, c.isDigit ∨ c ∈ ['-', '.', 'e']

theorem isNumeric_digitChars (n : Nat) : IsNumeric (digitChars n) := fun _ hc =>
  Or.inl (Nat.isDigit_of_mem_toDigits (by decide) (by decide) hc)

theorem isNumeric_append {cs ds : List Char} (hc : IsNumeric cs) (hd : IsNumeric ds) :
    IsNumeric (cs ++ ds) := by
  intro c h
  rcases List.mem_append.mp h with h | h
  · exact hc c h
  · exact hd c h

theorem isNumeric_replicate (n : Nat) : IsNumeric (List.replicate n '0') := by
  intro c h
  obtain rfl := List.eq_of_mem_replicate h
  exact Or.inl (by decide)

theorem isNumeric_cons {c : Char} {cs : List Char} (hc : c.isDigit ∨ c ∈ ['-', '.', 'e'])
    (hcs : IsNumeric cs) : IsNumeric (c :: cs) :=
  List.forall_mem_cons.mpr ⟨hc, hcs⟩

theorem isNumeric_int (i : Int) : IsNumeric (toString i).toList := by
  cases i with
  | ofNat n =>
    have h : (toString (Int.ofNat n)).toList = digitChars n := by
      simp [digitChars, toString, Int.repr, Nat.repr]
    rw [h]
    exact isNumeric_digitChars n
  | negSucc n =>
    have h : (toString (Int.negSucc n)).toList = '-' :: digitChars (n + 1) := by
      simp [digitChars, toString, Int.repr, Nat.repr]
    rw [h]
    exact isNumeric_cons (by simp) (isNumeric_digitChars (n + 1))

theorem isNumeric_positional {digits : List Char} (h : IsNumeric digits) (point : Int) :
    IsNumeric (Layout.positional digits point) := by
  unfold Layout.positional
  split
  · exact isNumeric_cons (by decide) (isNumeric_cons (by decide)
      (isNumeric_append (isNumeric_replicate _) h))
  · split
    · exact isNumeric_append (isNumeric_append h (isNumeric_replicate _))
        (by simp [IsNumeric])
    · exact isNumeric_append (fun c hc => h c (List.mem_of_mem_take hc))
        (isNumeric_cons (by decide) fun c hc => h c (List.mem_of_mem_drop hc))

theorem isNumeric_scientific {digits : List Char} (h : IsNumeric digits) (point : Int) :
    IsNumeric (Layout.scientific digits point) := by
  have hexponent : IsNumeric ('e' :: (toString (point - 1)).toList) :=
    isNumeric_cons (by decide) (isNumeric_int _)
  unfold Layout.scientific
  split
  · exact hexponent
  · exact isNumeric_cons (h _ (by simp)) hexponent
  · rename_i d rest _
    refine isNumeric_cons (h d (by simp)) (isNumeric_cons (by decide) ?_)
    exact isNumeric_append (fun c hc => h c (List.mem_cons_of_mem d hc)) hexponent

theorem isNumeric_write (l : Layout) (negative : Bool) (d : Scaled) :
    IsNumeric (l.write negative d) := by
  have hsign : IsNumeric (if negative then ['-'] else []) := by
    cases negative <;> simp [IsNumeric]
  have hdigits := isNumeric_digitChars d.digits
  unfold Layout.write
  dsimp only
  by_cases hzero : d.digits = 0
  · rw [if_pos hzero]
    exact isNumeric_append hsign (by simp [IsNumeric])
  · rw [if_neg hzero]
    refine isNumeric_append hsign ?_
    split
    · exact isNumeric_positional hdigits _
    · exact isNumeric_scientific hdigits _

theorem isBare_of_isNumeric {cs : List Char} (h : IsNumeric cs) : IsBare (String.ofList cs) := by
  intro c hc hpunctuation
  rw [String.toList_ofList] at hc
  have hnumeric := h c hc
  simp only [List.mem_cons, List.not_mem_nil, or_false] at hpunctuation
  rcases hpunctuation with rfl | rfl | rfl | rfl | rfl <;> exact absurd hnumeric (by decide)

end Decimal

theorem Literal.isBare_floatText (f : Decimal.BinaryFormat) (bits : Nat) {suffix : String}
    (hsuffix : IsBare suffix) : IsBare (floatText f bits suffix) := by
  have hwrite : ∀ negative d, IsBare (String.ofList (floatLayout.write negative d) ++ suffix) :=
    fun negative d =>
      isBare_append.mpr ⟨Decimal.isBare_of_isNumeric (Decimal.isNumeric_write _ _ _), hsuffix⟩
  unfold floatText
  split
  · decide
  · decide
  · decide
  · exact hwrite _ _
  · exact hwrite _ _

theorem Literal.isBare_text (l : Literal) : IsBare l.text := by
  cases l with
  | bool v => cases v <;> decide
  | fp32 bits => exact isBare_floatText _ _ (by decide)
  | fp64 bits => exact isBare_floatText _ _ (by decide)
  | i8 v | i16 v | i32 v | i64 v => exact isBare_int _
  | _ => exact isBare_nat _

/-! ## Leaves and nodes -/

namespace Variable

variable {v : Variable}

/-- The name, if there is one, is an identifier. -/
def IsNamed (v : Variable) : Prop := ∀ n, v.name? = some n → isIdentifier n

theorem isBare_bracketed (dims : List Nat) : IsBare (bracketed dims) := by
  refine isBare_join fun s hs => ?_
  obtain ⟨d, -, rfl⟩ := List.mem_map.mp hs
  simp only [isBare_append]
  exact ⟨⟨by decide, isBare_nat d⟩, by decide⟩

theorem IsNamed.isBare_text (h : v.IsNamed) : IsBare v.text := by
  have hname : IsBare (v.name?.getD "") := by
    cases hn : v.name? with
    | none => decide
    | some n => exact isBare_of_isIdentifier (h n hn)
  cases v with
  | literal l => exact l.isBare_text
  | slot s => exact s.isBare_label
  | _ => exact hname

theorem IsNamed.isBare_declaration (h : v.IsNamed) {text : String}
    (htext : v.declaration? = some text) : IsBare text := by
  have hpointer : ∀ target : Variable, target.IsNamed →
      (target.name?.map fun n => target.kind.keyword ++ " * " ++ n) = some text → IsBare text := by
    intro target htarget hsome
    obtain ⟨n, hn, rfl⟩ := Option.map_eq_some_iff.mp hsome
    simp only [isBare_append]
    exact ⟨⟨target.kind.isBare_keyword, by decide⟩, isBare_of_isIdentifier (htarget n hn)⟩
  have hnamed : ∀ k n, isIdentifier n → IsBare (Kind.keyword k ++ " " ++ n) := by
    intro k n hn
    simp only [isBare_append]
    exact ⟨⟨k.isBare_keyword, by decide⟩, isBare_of_isIdentifier hn⟩
  cases v with
  | scalar k n =>
    obtain rfl := Option.some.inj htext
    exact hnamed k n (h n rfl)
  | array k n length =>
    obtain rfl := Option.some.inj htext
    rw [isBare_append, isBare_append]
    exact ⟨⟨hnamed k n (h n rfl), by decide⟩, isBare_bracketed _⟩
  | matrix k n dims =>
    cases dims with
    | nil =>
      obtain rfl := Option.some.inj htext
      exact hnamed k n (h n rfl)
    | cons d dims =>
      obtain rfl := Option.some.inj htext
      rw [isBare_append, isBare_append]
      exact ⟨⟨hnamed k n (h n rfl), by decide⟩, isBare_bracketed _⟩
  | pointer target => exact hpointer target h htext
  | reference target => exact hpointer target h htext
  | literal l => simp [declaration?] at htext
  | slot s =>
    obtain rfl := Option.some.inj htext
    exact s.isBare_parameter

end Variable

theorem UnaryOp.isBare_applied (op : UnaryOp) {operand : String} (h : IsBare operand) :
    IsBare (op.applied operand) := by
  cases op with
  | neg =>
    simp only [applied, negated]
    split
    · exact isBare_append.mpr ⟨by decide, h⟩
    · exact isBare_append.mpr ⟨by decide, h⟩
  | not => exact isBare_append.mpr ⟨by decide, h⟩
  | paren => exact isBare_append.mpr ⟨isBare_append.mpr ⟨by decide, h⟩, by decide⟩

theorem isBare_callText {name : String} (hname : isIdentifier name) {args : List String}
    (h : ∀ t ∈ args, IsBare t) : IsBare (callText name args) := by
  have hbare := isBare_of_isIdentifier hname
  unfold callText
  split
  · exact isBare_append.mpr ⟨hbare, by decide⟩
  · simp only [isBare_append]
    exact ⟨⟨⟨hbare, by decide⟩, isBare_intercalate (by decide) h⟩, by decide⟩

theorem exists_mem_of_forall₂ {α β : Type} {R : α → β → Prop} {xs : List α} {ys : List β}
    (h : List.Forall₂ R xs ys) : ∀ y ∈ ys, ∃ x ∈ xs, R x y := by
  induction h with
  | nil => simp
  | cons hxy _ ih =>
    rw [List.forall_mem_cons]
    refine ⟨⟨_, List.mem_cons_self, hxy⟩, fun y hy => ?_⟩
    obtain ⟨x, hx, hr⟩ := ih y hy
    exact ⟨x, List.mem_cons_of_mem _ hx, hr⟩

namespace Arena

variable {a : Arena}

/-- The variables and functions at or below the root have identifiers for names. -/
structure Named (a : Arena) (root : NodeId) : Prop where
  leaves : ∀ id v, a.Reaches root id → a.content? id = some v → v.IsNamed
  callees : ∀ id callee range, a.Reaches root id → a.get? id = some (.call callee range) →
    isIdentifier callee.name

theorem Named.operand {root o : NodeId} (h : a.Named root) (hedge : a.Edge root o) :
    a.Named o where
  leaves id v hreach := h.leaves id v (.head hedge hreach)
  callees id callee range hreach := h.callees id callee range (.head hedge hreach)

theorem Named.isBare_assemble {id : NodeId} {node : Node} (h : a.Named id)
    (hnode : a.get? id = some node) {texts : List String} (htexts : ∀ t ∈ texts, IsBare t) :
    IsBare (a.assemble node texts) := by
  unfold assemble
  split
  · rename_i v
    exact (h.leaves id v .refl (content?_eq_some_iff.mpr hnode)).isBare_text
  · rename_i target
    cases hd : (a.content? target).bind Variable.declaration? with
    | none =>
      rw [Option.getD_none]
      decide
    | some text =>
      obtain ⟨v, hv, htext⟩ := Option.bind_eq_some_iff.mp hd
      have hedge : a.Edge id target := ⟨_, hnode, by simp [operands, Node.children]⟩
      exact (h.leaves target v (.single hedge) hv).isBare_declaration htext
  · simp only [isBare_append]
    exact ⟨⟨htexts _ (by simp), by decide⟩, htexts _ (by simp)⟩
  · simp only [isBare_append]
    exact ⟨⟨⟨htexts _ (by simp), by decide⟩, htexts _ (by simp)⟩, by decide⟩
  · simp only [isBare_append]
    exact ⟨⟨⟨⟨htexts _ (by simp), by decide⟩, BinaryOp.isBare_symbol _⟩, by decide⟩,
      htexts _ (by simp)⟩
  · exact UnaryOp.isBare_applied _ (htexts _ (by simp))
  · exact isBare_callText (h.callees id _ _ .refl hnode) htexts
  · decide

/-- An expression over proper names renders to a text without punctuation of statements. -/
theorem Named.isBare_text {limit levels : Nat} {parent : Option NodeId} {id : NodeId}
    {text : String} (h : a.Named id) (hrender : a.renderWithin limit levels parent id = .ok text) :
    IsBare text := by
  induction levels generalizing parent id text with
  | zero => simp [renderWithin] at hrender
  | succ levels ih =>
    obtain ⟨-, node, hnode, -, texts, htexts, rfl⟩ := renderWithin_eq_ok_iff.mp hrender
    refine h.isBare_assemble hnode fun t ht => ?_
    obtain ⟨o, ho, hot⟩ := exists_mem_of_forall₂ htexts t ht
    have hedge : a.Edge id o := ⟨node, hnode, mem_operands_of_mem_expanded ho⟩
    exact ih (h.operand hedge) hot

end Arena

end KernelForge
