import KernelForge.Proofs.Render.Bare

/-!
# How the text of an expression begins

An expression begins with its leftmost leaf, with an operator or with the name of a function. So its
text begins with a blank only where that leaf has no text at all.
-/
namespace KernelForge

open Text

namespace Text

/-- The text begins with a character that is not a blank. -/
def IsFlush (s : String) : Prop := ∃ c, s.toList.head? = some c ∧ c ≠ ' '

theorem IsFlush.append {s : String} (h : IsFlush s) (t : String) : IsFlush (s ++ t) := by
  obtain ⟨c, hc, hne⟩ := h
  exact ⟨c, by simp [hc], hne⟩

theorem isFlush_of_blankless {s : String} (hblank : ' ' ∉ s.toList) (hne : s ≠ "") : IsFlush s := by
  cases hs : s.toList with
  | nil => exact absurd (String.toList_eq_nil_iff.mp hs) hne
  | cons c cs =>
    refine ⟨c, by rw [hs]; rfl, ?_⟩
    rintro rfl
    exact hblank (by simp [hs])

theorem IsWord.blankless {cs : List Char} (h : IsWord cs) : ' ' ∉ cs := fun hmem =>
  absurd (h.chars ' ' hmem) (by decide)

theorem isFlush_of_isIdentifier {s : String} (h : isIdentifier s) : IsFlush s := by
  have hword := isWord_of_isIdentifier h
  refine isFlush_of_blankless hword.blankless ?_
  rintro rfl
  exact hword.nonempty rfl

end Text

theorem Kind.isFlush_keyword (k : Kind) : IsFlush k.keyword := by
  cases k <;> exact ⟨_, rfl, by decide⟩

/-! ## Leaves -/

theorem Decimal.blankless_of_isNumeric {cs : List Char} (h : IsNumeric cs) : ' ' ∉ cs := fun hmem =>
  absurd (h ' ' hmem) (by decide)

theorem Literal.blankless_floatText (f : Decimal.BinaryFormat) (bits : Nat) {suffix : String}
    (hsuffix : ' ' ∉ suffix.toList) : ' ' ∉ (floatText f bits suffix).toList := by
  have hwrite : ∀ negative d,
      ' ' ∉ (String.ofList (floatLayout.write negative d) ++ suffix).toList := by
    intro negative d
    rw [String.toList_append, String.toList_ofList, List.mem_append, not_or]
    exact ⟨Decimal.blankless_of_isNumeric (Decimal.isNumeric_write _ _ _), hsuffix⟩
  unfold floatText
  split
  · decide
  · decide
  · decide
  · exact hwrite _ _
  · exact hwrite _ _

theorem Literal.blankless_text (l : Literal) : ' ' ∉ l.text.toList := by
  cases l with
  | bool v => cases v <;> decide
  | fp32 bits => exact blankless_floatText _ _ (by decide)
  | fp64 bits => exact blankless_floatText _ _ (by decide)
  | i8 v | i16 v | i32 v | i64 v => exact Decimal.blankless_of_isNumeric (Decimal.isNumeric_int _)
  | _ => exact (isWord_repr _).blankless

namespace Variable

variable {v : Variable}

theorem IsNamed.isFlush_text (h : v.IsNamed) (hne : v.text ≠ "") : IsFlush v.text := by
  have hname : ' ' ∉ (v.name?.getD "").toList := by
    cases hn : v.name? with
    | none => simp
    | some n => exact (isWord_of_isIdentifier (h n hn)).blankless
  refine isFlush_of_blankless ?_ hne
  cases v with
  | literal l => exact l.blankless_text
  | slot s => exact s.isWord_label.blankless
  | _ => exact hname

theorem isFlush_declaration {text : String} (h : v.declaration? = some text) : IsFlush text := by
  have hpointer : ∀ target : Variable,
      (target.name?.map fun n => target.kind.keyword ++ " * " ++ n) = some text → IsFlush text := by
    intro target hsome
    obtain ⟨n, -, rfl⟩ := Option.map_eq_some_iff.mp hsome
    exact (target.kind.isFlush_keyword.append _).append _
  cases v with
  | scalar k n =>
    obtain rfl := Option.some.inj h
    exact (k.isFlush_keyword.append _).append _
  | array k n length =>
    obtain rfl := Option.some.inj h
    exact (((k.isFlush_keyword.append _).append _).append _).append _
  | matrix k n dims =>
    cases dims with
    | nil =>
      obtain rfl := Option.some.inj h
      exact (k.isFlush_keyword.append _).append _
    | cons d dims =>
      obtain rfl := Option.some.inj h
      exact (((k.isFlush_keyword.append _).append _).append _).append _
  | pointer target => exact hpointer target h
  | reference target => exact hpointer target h
  | literal l => simp [declaration?] at h
  | slot s =>
    obtain rfl := Option.some.inj h
    exact ((s.kind.isFlush_keyword.append _).append _).append _

end Variable

/-! ## Nodes -/

theorem UnaryOp.isFlush_applied (op : UnaryOp) (operand : String) :
    IsFlush (op.applied operand) := by
  have hbefore : ∀ symbol : String, IsFlush symbol → IsFlush (symbol ++ operand) := fun _ h =>
    h.append operand
  cases op with
  | neg =>
    simp only [applied, negated]
    split
    · exact hbefore "- " ⟨_, rfl, by decide⟩
    · exact hbefore "-" ⟨_, rfl, by decide⟩
  | not => exact hbefore "!" ⟨_, rfl, by decide⟩
  | paren => exact (hbefore "( " ⟨_, rfl, by decide⟩).append _

theorem isFlush_callText {name : String} (h : isIdentifier name) (args : List String) :
    IsFlush (callText name args) := by
  have hname := isFlush_of_isIdentifier h
  unfold callText
  split
  · exact hname.append _
  · exact ((hname.append _).append _).append _

/-- The operand that the text of a node begins with, if it does not begin with text of its own. -/
def Node.leading? : Node → Option NodeId
  | .assign target _ => some target
  | .index base _ => some base
  | .binary _ left _ => some left
  | _ => none

namespace Arena

variable {a : Arena}

/-- From a root to the nodes whose text its own text begins with. -/
def Leads (a : Arena) : NodeId → NodeId → Prop :=
  Relation.ReflTransGen fun id o => ∃ node, a.get? id = some node ∧ node.leading? = some o

/-- The leaf that the text of the root begins with has a text, if it begins with a leaf. -/
def Spelled (a : Arena) (root : NodeId) : Prop :=
  ∀ id v, a.Leads root id → a.content? id = some v → v.text ≠ ""

theorem expanded_of_leading {node : Node} {o : NodeId} (h : node.leading? = some o) :
    ∃ rest, a.expanded node = o :: rest := by
  cases node with
  | assign target value =>
    obtain rfl := Option.some.inj h
    exact ⟨[value], rfl⟩
  | index base index =>
    obtain rfl := Option.some.inj h
    exact ⟨[index], rfl⟩
  | binary op left right =>
    obtain rfl := Option.some.inj h
    exact ⟨[right], rfl⟩
  | _ => cases h

theorem Named.isFlush_assemble {id : NodeId} {node : Node} (hnamed : a.Named id)
    (hspelled : a.Spelled id) (hnode : a.get? id = some node) (hfit : a.Fit id node)
    {texts : List String} (hlength : (a.expanded node).length = texts.length)
    (hleading : ∀ o, node.leading? = some o → ∀ t, texts.head? = some t → IsFlush t) :
    IsFlush (a.assemble node texts) := by
  cases node with
  | leaf v =>
    have hv : a.content? id = some v := content?_eq_some_iff.mpr hnode
    exact (hnamed.leaves id v .refl hv).isFlush_text (hspelled id v .refl hv)
  | declare target =>
    obtain ⟨-, v, hv, hdeclares⟩ := hfit
    obtain ⟨text, htext⟩ := Option.isSome_iff_exists.mp hdeclares
    have hassemble : a.assemble (.declare target) texts = text := by simp [assemble, hv, htext]
    rw [hassemble]
    exact Variable.isFlush_declaration htext
  | assign target value =>
    obtain ⟨t, u, rfl⟩ := List.length_eq_two.mp hlength.symm
    exact ((hleading target rfl t rfl).append _).append _
  | index base index =>
    obtain ⟨t, u, rfl⟩ := List.length_eq_two.mp hlength.symm
    exact (((hleading base rfl t rfl).append _).append _).append _
  | binary op left right =>
    obtain ⟨t, u, rfl⟩ := List.length_eq_two.mp hlength.symm
    exact ((((hleading left rfl t rfl).append _).append _).append _).append _
  | unary op operand =>
    obtain ⟨t, rfl⟩ := List.length_eq_one_iff.mp hlength.symm
    exact op.isFlush_applied t
  | call callee args => exact isFlush_callText (hnamed.callees id _ _ .refl hnode) texts

/-- An expression over proper names begins with no blank if the leaf that it begins with has a text,
or if it begins with no leaf. -/
theorem Named.isFlush_text {limit levels : Nat} {parent : Option NodeId} {id : NodeId}
    {text : String} (hnamed : a.Named id) (hspelled : a.Spelled id)
    (hrender : a.renderWithin limit levels parent id = .ok text) : IsFlush text := by
  induction levels generalizing parent id text with
  | zero => simp [renderWithin] at hrender
  | succ levels ih =>
    obtain ⟨-, node, hnode, hfit, texts, htexts, rfl⟩ := renderWithin_eq_ok_iff.mp hrender
    refine hnamed.isFlush_assemble hspelled hnode hfit htexts.length_eq fun o ho t ht => ?_
    obtain ⟨rest, hrest⟩ := expanded_of_leading (a := a) ho
    have hmem : o ∈ a.expanded node := by simp [hrest]
    have hedge : a.Edge id o := ⟨node, hnode, mem_operands_of_mem_expanded hmem⟩
    have hbelow : a.Spelled o := fun leaf v hleads =>
      hspelled leaf v (.head ⟨node, hnode, ho⟩ hleads)
    rw [hrest] at htexts
    cases htexts with
    | cons hot _ =>
      obtain rfl := Option.some.inj ht
      exact ih (hnamed.operand hedge) hbelow hot

end Arena

end KernelForge
