import KernelForge.Proofs.Render.Defects
import KernelForge.Proofs.Render.Expression
import KernelForge.Proofs.Render.Leading

/-!
# What the leaves of an expression contribute

The text of a tree is made of pieces: the texts of its leaves and declarations, and between them what
the operators write. Every leaf is one of the pieces, in order. Its piece is empty exactly where the
leaf is an indirection to something without a name; a declaration of such a leaf is refused instead.
-/
namespace KernelForge

open Text

namespace Variable

/-- An indirection to a constant or to a slot, in however many steps. -/
def IsHollow : Variable → Prop
  | pointer v | reference v => v.name? = none
  | _ => False

end Variable

theorem Decimal.Layout.write_ne_nil (l : Layout) (negative : Bool) (d : Scaled) :
    l.write negative d ≠ [] := by
  have hpositional : ∀ digits point, positional digits point ≠ [] := by
    intro digits point
    unfold positional
    split_ifs <;> simp
  have hscientific : ∀ digits point, scientific digits point ≠ [] := by
    intro digits point
    unfold scientific
    split <;> simp
  unfold write
  dsimp only
  split_ifs <;> simp [hpositional, hscientific]

theorem Literal.floatText_ne_empty (f : Decimal.BinaryFormat) (bits : Nat) (suffix : String) :
    floatText f bits suffix ≠ "" := by
  have hwrite : ∀ negative d, String.ofList (floatLayout.write negative d) ++ suffix ≠ "" := by
    intro negative d h
    have hempty := (String.append_eq_empty_iff.mp h).1
    exact floatLayout.write_ne_nil negative d (by simpa using hempty)
  unfold floatText
  split
  · decide
  · decide
  · decide
  · exact hwrite _ _
  · exact hwrite _ _

theorem Literal.text_ne_empty (l : Literal) : l.text ≠ "" := by
  have hnat : ∀ n : Nat, toString n ≠ "" := fun n h =>
    (isWord_repr n).nonempty (by simp [h])
  have hint : ∀ i : Int, toString i ≠ "" := by
    intro i
    cases i with
    | ofNat n => exact hnat n
    | negSucc n =>
      have h : toString (Int.negSucc n) = "-" ++ toString (n + 1) := rfl
      simp [h]
  cases l with
  | bool v => cases v <;> decide
  | fp32 bits => exact floatText_ne_empty _ _ _
  | fp64 bits => exact floatText_ne_empty _ _ _
  | i8 v | i16 v | i32 v | i64 v => exact hint _
  | _ => exact hnat _

namespace Variable

variable {v : Variable}

/-- A leaf whose name is not empty has no text exactly if it is an indirection without a name. -/
theorem text_eq_empty_iff (hname : v.name? ≠ some "") : v.text = "" ↔ v.IsHollow := by
  have hpointer : ∀ target : Variable, target.name? ≠ some "" →
      (target.name?.getD "" = "" ↔ target.name? = none) := by
    intro target h
    cases hn : target.name? with
    | none => simp
    | some n =>
      have hne : n ≠ "" := by
        rintro rfl
        exact h hn
      simp [hne]
  cases v with
  | literal l => simp [text, IsHollow, l.text_ne_empty]
  | slot s =>
    have hne : s.label ≠ "" := fun h => s.isWord_label.nonempty (by simp [h])
    simp [text, IsHollow, hne]
  | pointer target => exact hpointer target hname
  | reference target => exact hpointer target hname
  | _ =>
    simp only [name?, ne_eq, Option.some.injEq] at hname
    simp [text, IsHollow, name?, hname]

/-- Constants and indirections without a name are what cannot be declared. -/
theorem declaration?_eq_none_iff : v.declaration? = none ↔ v.IsHollow ∨ ∃ l, v = .literal l := by
  cases v with
  | matrix k n dims => cases dims <;> simp [declaration?, IsHollow]
  | _ => simp [declaration?, IsHollow]

theorem declaration_ne_empty {text : String} (h : v.declaration? = some text) : text ≠ "" := by
  rintro rfl
  obtain ⟨c, hc, -⟩ := isFlush_declaration h
  simp at hc

end Variable

/-! ## Pieces -/

/-- A piece of the text of an expression. -/
inductive Piece
  | leaf (content : Variable)
  | declaration (content : Variable)
  /-- What stands around the operands of a node: an operator, brackets, the name of a function. -/
  | mark (text : String)

namespace Piece

def text : Piece → String
  | leaf v => v.text
  | declaration v => v.declaration?.getD ""
  | mark s => s

def leaf? : Piece → Option Variable
  | leaf v => some v
  | _ => none

@[simp] theorem leaf?_leaf (v : Variable) : (leaf v).leaf? = some v := rfl

@[simp] theorem leaf?_declaration (v : Variable) : (declaration v).leaf? = none := rfl

@[simp] theorem leaf?_mark (s : String) : (mark s).leaf? = none := rfl

/-- The text of pieces that stand one behind the other. -/
def joined (pieces : List Piece) : String := String.join (pieces.map text)

@[simp] theorem joined_nil : joined [] = "" := rfl

@[simp] theorem joined_cons (p : Piece) (pieces : List Piece) :
    joined (p :: pieces) = p.text ++ joined pieces := by simp [joined]

@[simp] theorem joined_append (pieces more : List Piece) :
    joined (pieces ++ more) = joined pieces ++ joined more := by
  induction pieces with
  | nil => simp
  | cons p pieces ih => simp [ih, String.append_assoc]

end Piece

namespace Tree

mutual

/-- The leaves of a tree from left to right. -/
def leaves : Tree → List Variable
  | leaf v => [v]
  | declare _ => []
  | assign target value => target.leaves ++ value.leaves
  | index base i => base.leaves ++ i.leaves
  | binary _ left right => left.leaves ++ right.leaves
  | unary _ operand => operand.leaves
  | call _ args => leavesAll args

def leavesAll : List Tree → List Variable
  | [] => []
  | arg :: rest => arg.leaves ++ leavesAll rest

end

mutual

/-- The pieces of the text of a tree. -/
def pieces : Tree → List Piece
  | leaf v => [.leaf v]
  | declare v => [.declaration v]
  | assign target value => target.pieces ++ .mark " = " :: value.pieces
  | index base i => base.pieces ++ .mark " [ " :: (i.pieces ++ [.mark " ]"])
  | binary op left right => left.pieces ++ .mark (" " ++ op.symbol ++ " ") :: right.pieces
  | unary .neg operand =>
    .mark (if operand.text.toList.head? = some '-' then "- " else "-") :: operand.pieces
  | unary .not operand => .mark "!" :: operand.pieces
  | unary .paren operand => .mark "( " :: (operand.pieces ++ [.mark " )"])
  | call callee [] => [.mark (callee.name ++ "()")]
  | call callee (first :: rest) =>
    .mark (callee.name ++ "( ") :: (first.pieces ++ (furtherPieces rest ++ [.mark " )"]))

/-- The pieces of the arguments of a call behind the first one. -/
def furtherPieces : List Tree → List Piece
  | [] => []
  | arg :: rest => .mark " , " :: (arg.pieces ++ furtherPieces rest)

end

mutual

theorem joined_pieces : ∀ t : Tree, Piece.joined t.pieces = t.text
  | leaf v => by simp [pieces, text, Piece.text]
  | declare v => by simp [pieces, text, Piece.text]
  | assign target value => by
    simp [pieces, text, Piece.text, joined_pieces target, joined_pieces value, String.append_assoc]
  | index base i => by
    simp [pieces, text, Piece.text, joined_pieces base, joined_pieces i, String.append_assoc]
  | binary op left right => by
    simp [pieces, text, Piece.text, joined_pieces left, joined_pieces right, String.append_assoc]
  | unary .neg operand => by
    simp only [pieces, text, Piece.joined_cons, Piece.text, joined_pieces operand]
    split <;> rfl
  | unary .not operand => by simp [pieces, text, Piece.text, joined_pieces operand]
  | unary .paren operand => by
    simp [pieces, text, Piece.text, joined_pieces operand, String.append_assoc]
  | call callee [] => by simp [pieces, text, Piece.text]
  | call callee (first :: rest) => by
    simp [pieces, text, Piece.text, joined_pieces first, joined_furtherPieces rest,
      String.append_assoc]

theorem joined_furtherPieces : ∀ args : List Tree,
    Piece.joined (furtherPieces args) = furtherText args
  | [] => by simp [furtherPieces, furtherText]
  | arg :: rest => by
    simp [furtherPieces, furtherText, Piece.text, joined_pieces arg, joined_furtherPieces rest,
      String.append_assoc]

end

mutual

/-- The pieces that are leaves are the leaves of the tree, in order. -/
theorem leaf?_pieces : ∀ t : Tree, t.pieces.filterMap Piece.leaf? = t.leaves
  | leaf v => by simp [pieces, leaves]
  | declare v => by simp [pieces, leaves]
  | assign target value => by
    simp [pieces, leaves, List.filterMap_cons, leaf?_pieces target, leaf?_pieces value]
  | index base i => by
    simp [pieces, leaves, List.filterMap_cons, leaf?_pieces base, leaf?_pieces i]
  | binary op left right => by
    simp [pieces, leaves, List.filterMap_cons, leaf?_pieces left, leaf?_pieces right]
  | unary .neg operand => by simp [pieces, leaves, List.filterMap_cons, leaf?_pieces operand]
  | unary .not operand => by simp [pieces, leaves, List.filterMap_cons, leaf?_pieces operand]
  | unary .paren operand => by simp [pieces, leaves, List.filterMap_cons, leaf?_pieces operand]
  | call callee [] => by simp [pieces, leaves, leavesAll]
  | call callee (first :: rest) => by
    simp [pieces, leaves, leavesAll, List.filterMap_cons, leaf?_pieces first,
      leaf?_furtherPieces rest]

theorem leaf?_furtherPieces : ∀ args : List Tree,
    (furtherPieces args).filterMap Piece.leaf? = leavesAll args
  | [] => by simp [furtherPieces, leavesAll]
  | arg :: rest => by
    simp [furtherPieces, leavesAll, List.filterMap_cons, leaf?_pieces arg, leaf?_furtherPieces rest]

end

end Tree

/-! ## Where the pieces come from -/

namespace Arena

/-- The piece stands in the arena, below the root: a leaf, a declaration of a leaf, or a mark that is
not empty. -/
def Supplies (a : Arena) (root : NodeId) : Piece → Prop
  | .leaf v => ∃ n id, a.Met root n id ∧ a.content? id = some v
  | .declaration v => ∃ n id target, a.Met root n id ∧ a.get? id = some (.declare target) ∧
      a.content? target = some v
  | .mark s => s ≠ ""

variable {a : Arena} {root : NodeId}

/-- What is supplied below an operand is supplied below its node. -/
theorem Supplies.of_operand {node : Node} {o : NodeId} {p : Piece} (h : a.Supplies o p)
    (hnode : a.get? root = some node) (ho : o ∈ a.expanded node) : a.Supplies root p := by
  have hmet : ∀ {n id}, a.Met o n id → a.Met root (n + 1) id :=
    fun hm => met_succ_iff.mpr ⟨node, o, hnode, ho, hm⟩
  cases p with
  | leaf v =>
    obtain ⟨n, id, hm, hv⟩ := h
    exact ⟨n + 1, id, hmet hm, hv⟩
  | declaration v =>
    obtain ⟨n, id, target, hm, hid, hv⟩ := h
    exact ⟨n + 1, id, target, hmet hm, hid, hv⟩
  | mark s => exact h

theorem supplies_mark {s : String} (h : s.toList ≠ []) : a.Supplies root (.mark s) := fun hs =>
  h (by simp [hs])

mutual

/-- The pieces of the tree of a node are supplied below the node. -/
theorem Unfolds.supplies : ∀ (t : Tree) {root : NodeId}, a.Unfolds root t →
    ∀ p ∈ t.pieces, a.Supplies root p
  | .leaf v, root, .leaf found => by
    simp only [Tree.pieces, List.forall_mem_singleton]
    exact ⟨0, root, .root, content?_eq_some_iff.mpr found⟩
  | .declare v, root, .declare found holds => by
    simp only [Tree.pieces, List.forall_mem_singleton]
    exact ⟨0, root, _, .root, found, content?_eq_some_iff.mpr holds⟩
  | .assign t u, _, .assign found left right => by
    have ht := fun p hp => (Unfolds.supplies t left p hp).of_operand found
      (by simp [expanded, operands, Node.children])
    have hu := fun p hp => (Unfolds.supplies u right p hp).of_operand found
      (by simp [expanded, operands, Node.children])
    simp only [Tree.pieces, List.forall_mem_append, List.forall_mem_cons]
    exact ⟨ht, supplies_mark (by simp), hu⟩
  | .index t u, _, .index found left right => by
    have ht := fun p hp => (Unfolds.supplies t left p hp).of_operand found
      (by simp [expanded, operands, Node.children])
    have hu := fun p hp => (Unfolds.supplies u right p hp).of_operand found
      (by simp [expanded, operands, Node.children])
    simp only [Tree.pieces, List.forall_mem_append, List.forall_mem_cons]
    exact ⟨ht, supplies_mark (by simp), hu, supplies_mark (by simp), List.forall_mem_nil _⟩
  | .binary op t u, _, .binary found left right => by
    have ht := fun p hp => (Unfolds.supplies t left p hp).of_operand found
      (by simp [expanded, operands, Node.children])
    have hu := fun p hp => (Unfolds.supplies u right p hp).of_operand found
      (by simp [expanded, operands, Node.children])
    simp only [Tree.pieces, List.forall_mem_append, List.forall_mem_cons]
    exact ⟨ht, supplies_mark (by simp), hu⟩
  | .unary op t, _, .unary found operand => by
    have ht := fun p hp => (Unfolds.supplies t operand p hp).of_operand found
      (by simp [expanded, operands, Node.children])
    cases op with
    | neg =>
      simp only [Tree.pieces, List.forall_mem_cons]
      exact ⟨supplies_mark (by split <;> simp), ht⟩
    | not =>
      simp only [Tree.pieces, List.forall_mem_cons]
      exact ⟨supplies_mark (by simp), ht⟩
    | paren =>
      simp only [Tree.pieces, List.forall_mem_append, List.forall_mem_cons]
      exact ⟨supplies_mark (by simp), ht, supplies_mark (by simp), List.forall_mem_nil _⟩
  | .call callee [], _, .call _ _ _ => by
    simp only [Tree.pieces, List.forall_mem_singleton]
    exact supplies_mark (by simp)
  | .call callee (arg :: rest), root,
      @Unfolds.call _ _ _ _ (o :: ids) _ found stored (.cons first others) => by
    have harg := fun p hp => (Unfolds.supplies arg first p hp).of_operand found
      (by simp [expanded, operands, stored])
    have hrest := supplies_furtherPieces rest others root fun id hid p hp =>
      Supplies.of_operand hp found (by simp [expanded, operands, stored, hid])
    simp only [Tree.pieces, List.forall_mem_append, List.forall_mem_cons]
    exact ⟨supplies_mark (by simp), harg, hrest, supplies_mark (by simp), List.forall_mem_nil _⟩

/-- The pieces of arguments are supplied below any node below which those of each one are. -/
theorem supplies_furtherPieces : ∀ (args : List Tree) {ids : List NodeId},
    List.Forall₂ a.Unfolds ids args → ∀ root : NodeId,
    (∀ o ∈ ids, ∀ p, a.Supplies o p → a.Supplies root p) →
    ∀ p ∈ Tree.furtherPieces args, a.Supplies root p
  | [], _, _, _, _ => by simp [Tree.furtherPieces]
  | arg :: rest, _, .cons first others, root, h => by
    rw [List.forall_mem_cons] at h
    have harg := fun p hp => h.1 p (Unfolds.supplies arg first p hp)
    have hrest := supplies_furtherPieces rest others root h.2
    simp only [Tree.furtherPieces, List.forall_mem_append, List.forall_mem_cons]
    exact ⟨supplies_mark (by simp), harg, hrest⟩

end

/-- A rendered text is made of the pieces of the tree of its root, and every leaf of the tree is one of
them, in order. When no name is empty, the empty pieces are exactly the leaves that are indirections
to a constant or to a slot. Where such a leaf or a constant is to be declared, rendering fails, and
where nothing else is wrong below the root the error is that of an unhandled node which cannot be
declared. -/
theorem pieces_of_renderExpr {a : Arena} (root : NodeId) (limit : Nat)
    (hnames : ∀ id v, a.content? id = some v → v.name? ≠ some "") :
    (∀ text, a.renderExpr root limit = .ok text →
      ∃ t, a.Unfolds root t ∧ Piece.joined t.pieces = text ∧
        t.pieces.filterMap Piece.leaf? = t.leaves ∧
        ∀ p ∈ t.pieces, (p.text = "" ↔ ∃ v, p = .leaf v ∧ v.IsHollow)) ∧
    ∀ n id target v, a.Met root n id → a.get? id = some (.declare target) →
      a.content? target = some v → (v.IsHollow ∨ ∃ l, v = .literal l) →
      (∃ e, a.renderExpr root limit = .error e) ∧
      ((∀ path e, a.DefectAt limit 0 none root path e →
          ∃ u, e = .unhandledNode u .targetNotDeclarable) →
        ∃ u, a.renderExpr root limit = .error (.unhandledNode u .targetNotDeclarable)) := by
  constructor
  · intro text hrender
    obtain ⟨hwf, t, htree, rfl⟩ := (renderExpr_eq_ok_iff a root limit).2 text |>.mp hrender
    refine ⟨t, htree, t.joined_pieces, t.leaf?_pieces, fun p hp => ?_⟩
    have hsupplies := htree.supplies t p hp
    cases p with
    | leaf v =>
      obtain ⟨n, id, -, hv⟩ := hsupplies
      simpa [Piece.text] using Variable.text_eq_empty_iff (hnames id v hv)
    | declaration v =>
      obtain ⟨n, id, target, hm, hid, hv⟩ := hsupplies
      obtain ⟨-, w, hw, hdeclares⟩ := hwf.declarable n id target hm hid
      obtain rfl := Option.some.inj (hv.symm.trans (content?_eq_some_iff.mpr hw))
      obtain ⟨text, htext⟩ := Option.isSome_iff_exists.mp hdeclares
      simp [Piece.text, htext, Variable.declaration_ne_empty htext]
    | mark s =>
      have hne : s ≠ "" := hsupplies
      simp [Piece.text, hne]
  · intro n id target v hm hid hv hundeclared
    have herror : ∃ e, a.renderExpr root limit = .error e := by
      cases hr : a.renderExpr root limit with
      | error e => exact ⟨e, rfl⟩
      | ok text =>
        have hwf := ((renderExpr_eq_ok_iff a root limit).2 text |>.mp hr).1
        obtain ⟨-, w, hw, hdeclares⟩ := hwf.declarable n id target hm hid
        obtain rfl := Option.some.inj (hv.symm.trans (content?_eq_some_iff.mpr hw))
        simp [Variable.declaration?_eq_none_iff.mpr hundeclared] at hdeclares
    refine ⟨herror, fun honly => ?_⟩
    obtain ⟨e, he⟩ := herror
    obtain ⟨path, hdefect, -⟩ := renderExpr_eq_error_iff.mp he
    obtain ⟨u, rfl⟩ := honly path e hdefect
    exact ⟨u, he⟩

/-- An assignment of a pointer to a constant, and a declaration of that pointer. -/
def hollow : Arena :=
  ⟨#[.leaf (.scalar .i32 "x"), .leaf (.pointer (.literal (.i32 7))), .assign ⟨0⟩ ⟨1⟩,
    .declare ⟨1⟩], #[]⟩

theorem hollow_names (id : NodeId) (v : Variable) (h : hollow.content? id = some v) :
    v.name? ≠ some "" := by
  obtain ⟨i⟩ := id
  match i with
  | 0 =>
    obtain rfl : Variable.scalar .i32 "x" = v := Option.some.inj h
    decide
  | 1 =>
    obtain rfl : Variable.pointer (.literal (.i32 7)) = v := Option.some.inj h
    decide
  | 2 | 3 => simp [hollow, content?, get?, Node.content?] at h
  | i + 4 => simp [hollow, content?, get?] at h

theorem hollow_defect (path : List Nat) (e : RenderError) (h : hollow.DefectAt 1 0 none ⟨3⟩ path e) :
    ∃ u, e = .unhandledNode u .targetNotDeclarable := by
  have hnode : hollow.get? ⟨3⟩ = some (.declare ⟨1⟩) := rfl
  cases path with
  | cons i path =>
    obtain ⟨o, ho, -⟩ := (defectAt_cons hnode).mp h
    simp [expanded] at ho
  | nil =>
    have hfound : ∀ {target}, hollow.get? ⟨3⟩ = some (.declare target) → target = ⟨1⟩ := by
      intro target ht
      cases hnode.symm.trans ht
      rfl
    cases defectAt_nil.mp h with
    | tooDeep deep => simp at deep
    | unknown _ missing => cases missing
    | targetNotOlder passes later =>
      obtain rfl := hfound passes.found
      simp at later
    | targetNotVariable passes _ empty =>
      obtain rfl := hfound passes.found
      cases empty
    | targetNotDeclarable _ _ _ _ => exact ⟨_, rfl⟩
    | argumentsNotStored passes _ => cases passes.found

/-- The assignment is rendered, the declaration is refused. -/
theorem pieces_of_renderExpr_hollow :
    (∃ t, hollow.Unfolds ⟨2⟩ t ∧ Piece.joined t.pieces = "x = " ∧
      t.pieces.filterMap Piece.leaf? = t.leaves ∧
      ∀ p ∈ t.pieces, (p.text = "" ↔ ∃ v, p = .leaf v ∧ v.IsHollow)) ∧
    ∃ u, hollow.renderExpr ⟨3⟩ 1 = .error (.unhandledNode u .targetNotDeclarable) :=
  ⟨(pieces_of_renderExpr ⟨2⟩ 1 hollow_names).1 "x = " rfl,
    ((pieces_of_renderExpr ⟨3⟩ 1 hollow_names).2 0 ⟨3⟩ ⟨1⟩ (.pointer (.literal (.i32 7))) .root rfl
      rfl (Or.inl rfl)).2 hollow_defect⟩

/-- No name is empty, and still the right side of the assignment is written as nothing. -/
theorem leaf_of_hollow :
    (∀ id v, hollow.content? id = some v → v.name? ≠ some "") ∧
      hollow.renderExpr ⟨2⟩ 1 = .ok "x = " ∧
      ∃ t, hollow.Unfolds ⟨2⟩ t ∧ ∃ v ∈ t.leaves, v.text = "" :=
  ⟨hollow_names, rfl, .assign (.leaf (.scalar .i32 "x")) (.leaf (.pointer (.literal (.i32 7)))),
    .assign rfl (.leaf rfl) (.leaf rfl), .pointer (.literal (.i32 7)), by simp [Tree.leaves], rfl⟩

end Arena

end KernelForge
