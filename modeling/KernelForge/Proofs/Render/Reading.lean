import KernelForge.Proofs.Render.Expression
import KernelForge.Proofs.Text.Words

/-!
# Reading expressions back

Operators come without parentheses of their own, so a text may belong to many trees. When every
operand is a leaf, a call or stands in parentheses, the text can be read back: a reader with one
character of lookahead finds every operator, every name and every leaf again.
-/
namespace KernelForge

/-- An expression up to what its text shows: a leaf is no more than its text. -/
inductive Spelling
  | leaf (text : String)
  | declare (text : String)
  | assign (target value : Spelling)
  | index (base index : Spelling)
  | binary (op : BinaryOp) (left right : Spelling)
  | unary (op : UnaryOp) (operand : Spelling)
  | call (name : String) (args : List Spelling)

namespace Tree

mutual

def spelling : Tree → Spelling
  | leaf v => .leaf v.text
  | declare v => .declare (v.declaration?.getD "")
  | assign target value => .assign target.spelling value.spelling
  | index base i => .index base.spelling i.spelling
  | binary op left right => .binary op left.spelling right.spelling
  | unary op operand => .unary op operand.spelling
  | call callee args => .call callee.name (spellings args)

def spellings : List Tree → List Spelling
  | [] => []
  | arg :: rest => arg.spelling :: spellings rest

end

/-- Leaves, calls and whatever stands in parentheses. -/
def IsAtom : Tree → Prop
  | leaf _ | call _ _ | unary .paren _ => True
  | _ => False

mutual

/-- Every operand of an operator is an atom, every leaf is one word, and the names of functions are
identifiers. What stands in brackets, in parentheses or between commas is free. -/
def Explicit : Tree → Prop
  | leaf v => v.IsPlain
  | declare _ => False
  | assign target value => target.IsAtom ∧ target.Explicit ∧ value.IsAtom ∧ value.Explicit
  | index base i => base.IsAtom ∧ base.Explicit ∧ i.Explicit
  | binary _ left right => left.IsAtom ∧ left.Explicit ∧ right.IsAtom ∧ right.Explicit
  | unary .paren operand => operand.Explicit
  | unary _ operand => operand.IsAtom ∧ operand.Explicit
  | call callee args => Text.isIdentifier callee.name ∧ ExplicitAll args

def ExplicitAll : List Tree → Prop
  | [] => True
  | arg :: rest => arg.Explicit ∧ ExplicitAll rest

end

end Tree

/-! ## The reader -/

namespace Reading

open Text

def operators : List BinaryOp :=
  [.add, .sub, .mul, .div, .mod, .lt, .le, .gt, .ge, .eq, .ne, .and, .or, .bitAnd, .bitOr, .bitXor]

/-- An operator and the blank behind it. -/
def operator? (cs : List Char) : Option (BinaryOp × List Char) :=
  operators.findSome? fun op =>
    let symbol := op.symbol.toList ++ [' ']
    if symbol.isPrefixOf cs then some (op, cs.drop symbol.length) else none

mutual

def atom : Reader Spelling
  | 0, _ => none
  | n + 1, '(' :: ' ' :: cs => do
    let (operand, cs) ← form n cs
    match cs with
    | ' ' :: ')' :: cs => some (.unary .paren operand, cs)
    | _ => none
  | n + 1, cs =>
    arguments (String.ofList (cs.takeWhile Text.isWordChar)) n (cs.dropWhile Text.isWordChar)

/-- What follows a word. Nothing follows when the word is a leaf. -/
def arguments (word : String) : Reader Spelling
  | 0, _ => none
  | _ + 1, '(' :: ')' :: cs => some (.call word [], cs)
  | n + 1, '(' :: ' ' :: cs => do
    let (first, cs) ← form n cs
    let (rest, cs) ← further n cs
    some (.call word (first :: rest), cs)
  | _ + 1, cs => some (.leaf word, cs)

def form : Reader Spelling
  | 0, _ => none
  | n + 1, '-' :: cs => do
    let (operand, cs) ← atom n cs
    some (.unary .neg operand, cs)
  | n + 1, '!' :: cs => do
    let (operand, cs) ← atom n cs
    some (.unary .not operand, cs)
  | n + 1, cs => do
    let (first, cs) ← atom n cs
    operation first n cs

/-- What follows the first operand. Nothing follows when the expression is an atom. -/
def operation (first : Spelling) : Reader Spelling
  | 0, _ => none
  | n + 1, ' ' :: '[' :: ' ' :: cs => do
    let (i, cs) ← form n cs
    match cs with
    | ' ' :: ']' :: cs => some (.index first i, cs)
    | _ => none
  | n + 1, ' ' :: '=' :: ' ' :: cs => do
    let (value, cs) ← atom n cs
    some (.assign first value, cs)
  | n + 1, ' ' :: cs =>
    match operator? cs with
    | some (op, cs) => do
      let (right, cs) ← atom n cs
      some (.binary op first right, cs)
    | none => some (first, ' ' :: cs)
  | _ + 1, cs => some (first, cs)

/-- The arguments behind the first one and the end of the call. -/
def further : Reader (List Spelling)
  | n + 1, ' ' :: ',' :: ' ' :: cs => do
    let (arg, cs) ← form n cs
    let (rest, cs) ← further n cs
    some (arg :: rest, cs)
  | _ + 1, ' ' :: ')' :: cs => some ([], cs)
  | _, _ => none

end

/-! ## What the reader finds -/

theorem operator?_symbol (op : BinaryOp) (cs : List Char) :
    operator? (op.symbol.toList ++ ' ' :: cs) = some (op, cs) := by
  cases op <;> rfl

/-- What may follow an atom. -/
def Breaks (rest : List Char) : Prop := ∀ c, rest.head? = some c → c = ' '

/-- What may follow an expression. -/
def Closes (rest : List Char) : Prop :=
  rest = [] ∨ ∃ c more, rest = ' ' :: c :: more ∧ c ∈ [')', ']', ',']

theorem Closes.breaks {rest : List Char} (h : Closes rest) : Breaks rest := by
  rcases h with rfl | ⟨c, more, rfl, -⟩ <;> simp [Breaks]

/-- A first character that begins neither a negation nor a number with a sign. -/
def Begins (cs : List Char) : Prop := ∃ c more, cs = c :: more ∧ c ≠ '-' ∧ c ≠ '!'

section

variable {cs rest : List Char} {x y : Spelling} {xs : List Spelling}

theorem reads_paren (h : Reads form cs x (' ' :: ')' :: rest)) :
    Reads atom ('(' :: ' ' :: cs) (.unary .paren x) rest := by
  obtain ⟨m, hm⟩ := h
  exact reads_of_succ m fun n hn => by simp [atom, hm n hn]

/-- A word is read to its end. -/
theorem reads_word {w behind : List Char} (hw : Text.IsWord w)
    (hbehind : ∀ c, behind.head? = some c → ¬ Text.isWordChar c)
    (h : Reads (arguments (String.ofList w)) behind x rest) : Reads atom (w ++ behind) x rest := by
  have htake : (w ++ behind).takeWhile Text.isWordChar = w := hw.takeWhile_append hbehind
  have hdrop : (w ++ behind).dropWhile Text.isWordChar = behind := by
    have hsplit := (w ++ behind).takeWhile_append_dropWhile (p := Text.isWordChar)
    rw [htake] at hsplit
    exact List.append_cancel_left hsplit
  obtain ⟨m, hm⟩ := h
  refine reads_of_succ m fun n hn => ?_
  rw [atom]
  · rw [htake, hdrop, hm n hn]
  · intro cs' heq
    obtain ⟨c, w', rfl⟩ := List.exists_cons_of_ne_nil hw.nonempty
    obtain rfl : c = '(' := (List.cons.inj heq).1
    exact absurd (hw.chars '(' (by simp)) (by decide)

theorem reads_leaf {w : List Char} (hw : Text.IsWord w) (hrest : Breaks rest) :
    Reads atom (w ++ rest) (.leaf (String.ofList w)) rest := by
  refine reads_word hw ?_ (reads_of_succ 0 fun n _ => ?_)
  · intro c hc
    obtain rfl := hrest c hc
    decide
  · rw [arguments]
    · rintro cs' rfl
      exact absurd (hrest '(' rfl) (by decide)
    · rintro cs' rfl
      exact absurd (hrest '(' rfl) (by decide)

theorem not_isWordChar_paren (c : Char) (h : ('(' :: cs).head? = some c) : ¬ Text.isWordChar c := by
  obtain rfl := Option.some.inj h
  decide

theorem reads_call_nil {w : List Char} (hw : Text.IsWord w) :
    Reads atom (w ++ '(' :: ')' :: rest) (.call (String.ofList w) []) rest :=
  reads_word hw not_isWordChar_paren (reads_of_succ 0 fun n _ => by rw [arguments])

theorem reads_call_cons {w behind : List Char} (hw : Text.IsWord w)
    (h : Reads form cs x behind) (h' : Reads further behind xs rest) :
    Reads atom (w ++ '(' :: ' ' :: cs) (.call (String.ofList w) (x :: xs)) rest := by
  obtain ⟨m, hm⟩ := h
  obtain ⟨m', hm'⟩ := h'
  refine reads_word hw not_isWordChar_paren (reads_of_succ (max m m') fun n hn => ?_)
  simp [arguments, hm n (by omega), hm' n (by omega)]

theorem reads_further_nil : Reads further (' ' :: ')' :: rest) [] rest :=
  reads_of_succ 0 fun n _ => by simp [further]

theorem reads_further_cons {behind : List Char} (h : Reads form cs x behind)
    (h' : Reads further behind xs rest) :
    Reads further (' ' :: ',' :: ' ' :: cs) (x :: xs) rest := by
  obtain ⟨m, hm⟩ := h
  obtain ⟨m', hm'⟩ := h'
  exact reads_of_succ (max m m') fun n hn => by simp [further, hm n (by omega), hm' n (by omega)]

theorem reads_neg (h : Reads atom cs x rest) : Reads form ('-' :: cs) (.unary .neg x) rest := by
  obtain ⟨m, hm⟩ := h
  exact reads_of_succ m fun n hn => by simp [form, hm n hn]

theorem reads_not (h : Reads atom cs x rest) : Reads form ('!' :: cs) (.unary .not x) rest := by
  obtain ⟨m, hm⟩ := h
  exact reads_of_succ m fun n hn => by simp [form, hm n hn]

theorem reads_form {behind : List Char} (hcs : Begins cs) (h : Reads atom cs x behind)
    (h' : Reads (operation x) behind y rest) : Reads form cs y rest := by
  obtain ⟨m, hm⟩ := h
  obtain ⟨m', hm'⟩ := h'
  obtain ⟨c, more, rfl, hneg, hnot⟩ := hcs
  refine reads_of_succ (max m m') fun n hn => ?_
  rw [form]
  · simp [hm n (by omega), hm' n (by omega)]
  · rintro cs' ⟨⟩
    exact hneg rfl
  · rintro cs' ⟨⟩
    exact hnot rfl

theorem reads_nothing (hrest : Closes rest) : Reads (operation x) rest x rest := by
  refine reads_of_succ 0 fun n _ => ?_
  rcases hrest with rfl | ⟨c, more, rfl, hc⟩
  · simp [operation]
  · simp only [List.mem_cons, List.not_mem_nil, or_false] at hc
    have hnone : operator? (c :: more) = none := by
      rcases hc with rfl | rfl | rfl <;> rfl
    rcases hc with rfl | rfl | rfl <;> simp [operation, hnone]

theorem reads_index (h : Reads form cs y (' ' :: ']' :: rest)) :
    Reads (operation x) (' ' :: '[' :: ' ' :: cs) (.index x y) rest := by
  obtain ⟨m, hm⟩ := h
  exact reads_of_succ m fun n hn => by simp [operation, hm n hn]

theorem reads_assign (h : Reads atom cs y rest) :
    Reads (operation x) (' ' :: '=' :: ' ' :: cs) (.assign x y) rest := by
  obtain ⟨m, hm⟩ := h
  exact reads_of_succ m fun n hn => by simp [operation, hm n hn]

theorem reads_binary (op : BinaryOp) (h : Reads atom cs y rest) :
    Reads (operation x) (' ' :: (op.symbol.toList ++ ' ' :: cs)) (.binary op x y) rest := by
  obtain ⟨m, hm⟩ := h
  refine reads_of_succ m fun n hn => ?_
  rw [operation, operator?_symbol]
  · simp [hm n hn]
  · intro cs'
    cases op <;> simp [BinaryOp.symbol]
  · intro cs'
    cases op <;> simp [BinaryOp.symbol]

end

end Reading

namespace Tree

open Reading Text

/-- The characters of the text. -/
def chars (t : Tree) : List Char := t.text.toList

section

variable (t u : Tree) (op : BinaryOp) (callee : Signature) (args : List Tree)

theorem chars_assign : (assign t u).chars = t.chars ++ ' ' :: '=' :: ' ' :: u.chars := by
  simp [chars, text]

theorem chars_index : (index t u).chars = t.chars ++ ' ' :: '[' :: ' ' :: (u.chars ++ [' ', ']']) := by
  simp [chars, text]

theorem chars_binary :
    (binary op t u).chars = t.chars ++ ' ' :: (op.symbol.toList ++ ' ' :: u.chars) := by
  simp [chars, text]

theorem chars_neg (h : Begins t.chars) : (unary .neg t).chars = '-' :: t.chars := by
  obtain ⟨c, more, hc, hneg, -⟩ := h
  have hhead : t.text.toList.head? ≠ some '-' := by
    rw [show t.text.toList = c :: more from hc]
    simpa using hneg
  simp [chars, text, hhead]

theorem chars_not : (unary .not t).chars = '!' :: t.chars := by simp [chars, text]

theorem chars_paren : (unary .paren t).chars = '(' :: ' ' :: (t.chars ++ [' ', ')']) := by
  simp [chars, text]

theorem chars_call_nil : (call callee []).chars = callee.name.toList ++ ['(', ')'] := by
  simp [chars, text]

theorem chars_call_cons : (call callee (t :: args)).chars =
    callee.name.toList ++ '(' :: ' ' :: (t.chars ++ ((furtherText args).toList ++ [' ', ')'])) := by
  simp [chars, text]

theorem chars_further : (furtherText (t :: args)).toList =
    ' ' :: ',' :: ' ' :: (t.chars ++ (furtherText args).toList) := by
  simp [chars, furtherText]

end

theorem begins_of_word {w : List Char} (hw : Text.IsWord w) (rest : List Char) :
    Begins (w ++ rest) := by
  obtain ⟨c, w, rfl⟩ := List.exists_cons_of_ne_nil hw.nonempty
  have hc := hw.chars c (by simp)
  refine ⟨c, w ++ rest, rfl, ?_, ?_⟩
  · rintro rfl
    exact absurd hc (by decide)
  · rintro rfl
    exact absurd hc (by decide)

/-- An atom begins with a word or with a parenthesis. -/
theorem begins_of_isAtom {t : Tree} (ha : t.IsAtom) (he : t.Explicit) (rest : List Char) :
    Begins (t.chars ++ rest) := by
  cases t with
  | leaf v =>
    simp only [Explicit] at he
    exact begins_of_word he.isWord rest
  | call callee args =>
    simp only [Explicit] at he
    have hname := Text.isWord_of_isIdentifier he.1
    cases args with
    | nil =>
      rw [chars_call_nil, List.append_assoc]
      exact begins_of_word hname _
    | cons first others =>
      rw [chars_call_cons, List.append_assoc]
      exact begins_of_word hname _
  | unary op operand =>
    cases op with
    | paren =>
      rw [chars_paren]
      exact ⟨'(', _, rfl, by decide, by decide⟩
    | _ => exact ha.elim
  | _ => exact ha.elim

theorem breaks_blank (cs : List Char) : Breaks (' ' :: cs) := fun _ hc => (Option.some.inj hc).symm

theorem closes_blank {c : Char} (hc : c ∈ [')', ']', ',']) (cs : List Char) :
    Closes (' ' :: c :: cs) := Or.inr ⟨c, cs, rfl, hc⟩

/-- What follows an argument of a call: a comma or the end of the call. -/
theorem closes_further (args : List Tree) (rest : List Char) :
    Closes ((furtherText args).toList ++ ' ' :: ')' :: rest) := by
  cases args with
  | nil => exact closes_blank (by decide) rest
  | cons arg args =>
    rw [chars_further]
    exact closes_blank (by decide) _

/-- The text of a tree is read to its end and no further. -/
structure IsRead (t : Tree) : Prop where
  atom : t.IsAtom → ∀ rest, Breaks rest → Reads atom (t.chars ++ rest) t.spelling rest
  form : ∀ rest, Closes rest → Reads form (t.chars ++ rest) t.spelling rest

theorem isRead_of_atom {t : Tree} (ha : t.IsAtom) (he : t.Explicit)
    (h : ∀ rest, Breaks rest → Reads Reading.atom (t.chars ++ rest) t.spelling rest) : t.IsRead where
  atom _ := h
  form rest hrest :=
    reads_form (begins_of_isAtom ha he rest) (h rest hrest.breaks) (reads_nothing hrest)

/-- An operation on an atom is read when what follows the atom is. -/
theorem IsRead.operation {first t : Tree} (hfirst : first.IsRead) (ha : first.IsAtom)
    (he : first.Explicit) {behind : List Char} (hchars : t.chars = first.chars ++ ' ' :: behind)
    (hatom : ¬ t.IsAtom) (h : ∀ rest, Closes rest →
      Reads (Reading.operation first.spelling) (' ' :: (behind ++ rest)) t.spelling rest) :
    t.IsRead where
  atom ht := absurd ht hatom
  form rest hrest := by
    have hread := hfirst.atom ha (' ' :: (behind ++ rest)) (breaks_blank _)
    rw [hchars, List.append_assoc]
    exact reads_form (begins_of_isAtom ha he _) hread (h rest hrest)

mutual

theorem isRead : ∀ t : Tree, t.Explicit → t.IsRead
  | leaf v, h => by
    refine isRead_of_atom trivial h fun rest hrest => ?_
    simp only [Explicit] at h
    have hread := reads_leaf h.isWord hrest
    rw [String.ofList_toList] at hread
    rwa [chars, text, spelling]
  | declare v, h => by simp [Explicit] at h
  | assign target value, h => by
    simp only [Explicit] at h
    obtain ⟨htarget, het, hvalue, hev⟩ := h
    refine (isRead target het).operation htarget het (chars_assign _ _) id fun rest hrest => ?_
    rw [spelling]
    exact reads_assign ((isRead value hev).atom hvalue rest hrest.breaks)
  | index base i, h => by
    simp only [Explicit] at h
    obtain ⟨hbase, heb, hei⟩ := h
    refine (isRead base heb).operation hbase heb (chars_index _ _) id fun rest _ => ?_
    have hread := (isRead i hei).form (' ' :: ']' :: rest) (closes_blank (by decide) rest)
    simpa [spelling] using reads_index hread
  | binary op left right, h => by
    simp only [Explicit] at h
    obtain ⟨hleft, hel, hright, her⟩ := h
    refine (isRead left hel).operation hleft hel (chars_binary _ _ _) id fun rest hrest => ?_
    have hread := (isRead right her).atom hright rest hrest.breaks
    simpa [spelling] using reads_binary op hread
  | unary .neg operand, h => by
    simp only [Explicit] at h
    refine ⟨fun ha => ha.elim, fun rest hrest => ?_⟩
    have hbegins := begins_of_isAtom h.1 h.2 []
    rw [List.append_nil] at hbegins
    rw [chars_neg _ hbegins, spelling]
    exact reads_neg ((isRead operand h.2).atom h.1 rest hrest.breaks)
  | unary .not operand, h => by
    simp only [Explicit] at h
    refine ⟨fun ha => ha.elim, fun rest hrest => ?_⟩
    rw [chars_not, spelling]
    exact reads_not ((isRead operand h.2).atom h.1 rest hrest.breaks)
  | unary .paren operand, h => by
    refine isRead_of_atom trivial h fun rest _ => ?_
    simp only [Explicit] at h
    have hread := (isRead operand h).form (' ' :: ')' :: rest) (closes_blank (by decide) rest)
    simpa [chars_paren, spelling] using reads_paren hread
  | call callee [], h => by
    refine isRead_of_atom trivial h fun rest _ => ?_
    simp only [Explicit] at h
    simpa [chars_call_nil, spelling, spellings] using
      reads_call_nil (Text.isWord_of_isIdentifier h.1)
  | call callee (first :: others), h => by
    refine isRead_of_atom trivial h fun rest _ => ?_
    simp only [Explicit, ExplicitAll] at h
    have hfirst := (isRead first h.2.1).form _ (closes_further others rest)
    have hothers := reads_further others h.2.2 rest
    simpa [chars_call_cons, spelling, spellings] using
      reads_call_cons (Text.isWord_of_isIdentifier h.1) hfirst hothers

theorem reads_further : ∀ args : List Tree, ExplicitAll args → ∀ rest,
    Reads further ((furtherText args).toList ++ ' ' :: ')' :: rest) (spellings args) rest
  | [], _, rest => by simpa [furtherText, spellings] using reads_further_nil
  | arg :: others, h, rest => by
    simp only [ExplicitAll] at h
    have harg := (isRead arg h.1).form _ (closes_further others rest)
    have hothers := reads_further others h.2 rest
    simpa [chars_further, spellings] using reads_further_cons harg hothers

end

end Tree

namespace Arena

theorem Unfolds.text_of_renderExpr {a : Arena} {root : NodeId} {limit : Nat} {t : Tree}
    {text : String} (ht : a.Unfolds root t) (h : a.renderExpr root limit = .ok text) :
    t.text = text := by
  obtain ⟨-, -, hwf, u, hu, htext⟩ := renderWithin_eq_ok_iff_unfolds.mp h
  rwa [hwf.existsUnique_tree.unique ht hu]

/-- Two explicit expressions with one text are equal, whatever arenas they are in: they have the same
operators in the same places and call the same functions with as many arguments, and each leaf has
the text of the other one's. -/
theorem spelling_eq_of_renderExpr {a b : Arena} {root root' : NodeId} {limit limit' : Nat}
    {t u : Tree} {text : String} (ht : a.Unfolds root t) (hu : b.Unfolds root' u)
    (het : t.Explicit) (heu : u.Explicit) (hrender : a.renderExpr root limit = .ok text)
    (hrender' : b.renderExpr root' limit' = .ok text) : t.spelling = u.spelling := by
  have hread := (t.isRead het).form [] (Or.inl rfl)
  have hread' := (u.isRead heu).form [] (Or.inl rfl)
  have hchars : t.chars = u.chars := by
    rw [Tree.chars, ht.text_of_renderExpr hrender, Tree.chars, hu.text_of_renderExpr hrender']
  rw [hchars] at hread
  exact hread.unique hread'

/-- The sum of two variables, and the sum of a variable and a slot that the variable is named after. -/
theorem spelling_eq_sum :
    let a : Arena := ⟨#[.leaf (.scalar .u32 "x"), .leaf (.scalar .u32 "s_u32_0"),
      .binary .add ⟨0⟩ ⟨1⟩], #[]⟩
    let b : Arena := ⟨#[.leaf (.slot ⟨.u32, .scalar, 0⟩), .leaf (.pointer (.scalar .u8 "x")),
      .binary .add ⟨1⟩ ⟨0⟩], #[]⟩
    let t := Tree.binary .add (.leaf (.scalar .u32 "x")) (.leaf (.scalar .u32 "s_u32_0"))
    let u := Tree.binary .add (.leaf (.pointer (.scalar .u8 "x")))
      (.leaf (.slot ⟨.u32, .scalar, 0⟩))
    a.Unfolds ⟨2⟩ t ∧ b.Unfolds ⟨2⟩ u ∧ t.Explicit ∧ u.Explicit ∧
      a.renderExpr ⟨2⟩ 1 = .ok "x + s_u32_0" ∧ b.renderExpr ⟨2⟩ 1 = .ok "x + s_u32_0" ∧
      t.spelling = u.spelling := by
  intro a b t u
  have ht : a.Unfolds ⟨2⟩ t := .binary rfl (.leaf rfl) (.leaf rfl)
  have hu : b.Unfolds ⟨2⟩ u := .binary rfl (.leaf rfl) (.leaf rfl)
  have het : t.Explicit :=
    ⟨trivial, ⟨"x", rfl, by decide⟩, trivial, ⟨"s_u32_0", rfl, by decide⟩⟩
  have heu : u.Explicit := ⟨trivial, ⟨"x", rfl, by decide⟩, trivial, trivial⟩
  have hrender : a.renderExpr ⟨2⟩ 1 = .ok "x + s_u32_0" := rfl
  have hrender' : b.renderExpr ⟨2⟩ 1 = .ok "x + s_u32_0" := rfl
  exact ⟨ht, hu, het, heu, hrender, hrender',
    spelling_eq_of_renderExpr ht hu het heu hrender hrender'⟩

end Arena

end KernelForge
