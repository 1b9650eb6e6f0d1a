import KernelForge.Proofs.Render.Walk

/-!
# What an expression renders to

The renderer walks an arbitrary graph of nodes under a depth limit. It succeeds exactly on the
well-formed roots, and its text is then the text of the one tree of the root.
-/
namespace KernelForge

theorem negated_eq (operand : String) :
    negated operand =
      if operand.toList.head? = some '-' then "- " ++ operand else "-" ++ operand := by
  unfold negated
  simp only [String.startsWith_char_eq_head?, beq_iff_eq]

namespace Tree

theorem intercalate_text (first : Tree) (rest : List Tree) :
    " , ".intercalate ((first :: rest).map text) = first.text ++ furtherText rest := by
  induction rest generalizing first with
  | nil => simp [furtherText]
  | cons second rest ih =>
    rw [List.map_cons, List.map_cons, String.intercalate_cons_cons, ← List.map_cons, ih second,
      furtherText]
    simp only [String.append_assoc]

theorem callText_text (callee : Signature) (args : List Tree) :
    callText callee.name (args.map text) = (call callee args).text := by
  cases args with
  | nil => simp [callText, text]
  | cons first rest =>
    simp only [callText, List.map_cons, List.isEmpty_cons, Bool.false_eq_true, if_false, text]
    rw [← List.map_cons, intercalate_text]
    simp only [String.append_assoc]

end Tree

namespace Arena

theorem text_of_graft {a : Arena} {node : Node} {trees : List Tree} {tree : Tree}
    (h : a.graft node trees = some tree) : a.assemble node (trees.map Tree.text) = tree.text := by
  unfold graft at h
  split at h
  · obtain rfl := Option.some.inj h
    simp [assemble, Tree.text]
  · obtain ⟨v, hv, rfl⟩ := Option.map_eq_some_iff.mp h
    simp [assemble, hv, Tree.text]
  · obtain rfl := Option.some.inj h
    simp [assemble, Tree.text]
  · obtain rfl := Option.some.inj h
    simp [assemble, Tree.text]
  · obtain rfl := Option.some.inj h
    simp [assemble, Tree.text]
  · obtain rfl := Option.some.inj h
    rename_i op _ o
    cases op <;> simp [assemble, Tree.text, UnaryOp.applied, negated_eq]
  · split_ifs at h
    obtain rfl := Option.some.inj h
    exact Tree.callText_text _ _
  · simp at h

/-- A list whose members have related values under `f` has a list of those values. -/
theorem forall₂_exists_iff {α β γ : Type} {R : α → β → Prop} {f : β → γ} {xs : List α}
    {zs : List γ} :
    List.Forall₂ (fun x z => ∃ y, R x y ∧ f y = z) xs zs ↔
      ∃ ys, List.Forall₂ R xs ys ∧ ys.map f = zs := by
  constructor
  · intro h
    induction h with
    | nil => exact ⟨[], .nil, rfl⟩
    | cons hy _ ih =>
      obtain ⟨y, hr, rfl⟩ := hy
      obtain ⟨ys, hys, rfl⟩ := ih
      exact ⟨y :: ys, .cons hr hys, rfl⟩
  · rintro ⟨ys, h, rfl⟩
    rw [List.forall₂_map_right_iff]
    exact h.imp fun _ y hr => ⟨y, hr, rfl⟩

/-- Walks and trees succeed together, level by level. -/
theorem renderWithin_eq_ok_iff_unfolds {a : Arena} {limit levels : Nat} {parent : Option NodeId}
    {id : NodeId} {text : String} :
    a.renderWithin limit levels parent id = .ok text ↔
      (∀ p, parent = some p → id.index < p.index) ∧ 0 < levels ∧ a.WellFormed id (levels - 1) ∧
        ∃ tree, a.Unfolds id tree ∧ tree.text = text := by
  induction levels generalizing parent id text with
  | zero => simp [renderWithin]
  | succ levels ih =>
    -- an operand is older than its node, which is what its own walk checks
    have hops : ∀ node texts,
        List.Forall₂ (fun o t => a.renderWithin limit levels (some id) o = .ok t)
          (a.expanded node) texts ↔
        (∀ o ∈ a.expanded node, o.index < id.index ∧ 0 < levels ∧ a.WellFormed o (levels - 1)) ∧
          ∃ trees, List.Forall₂ a.Unfolds (a.expanded node) trees ∧ trees.map Tree.text = texts := by
      intro node texts
      rw [← forall₂_exists_iff, ← List.forall₂_and_left]
      refine ⟨fun h => h.imp fun o t ho => ?_, fun h => h.imp fun o t ho => ?_⟩
      · obtain ⟨holder, hpos, hwf, htree⟩ := ih.mp ho
        exact ⟨⟨holder id rfl, hpos, hwf⟩, htree⟩
      · obtain ⟨⟨holder, hpos, hwf⟩, htree⟩ := ho
        exact ih.mpr ⟨fun p hp => by obtain rfl := Option.some.inj hp; exact holder,
          hpos, hwf, htree⟩
    rw [renderWithin_eq_ok_iff, wellFormed_iff]
    constructor
    · rintro ⟨holder, node, hnode, hfit, texts, htexts, rfl⟩
      obtain ⟨hwf, trees, htrees, rfl⟩ := (hops node texts).mp htexts
      obtain ⟨tree, hgraft⟩ :=
        Option.isSome_iff_exists.mp (graft_isSome hfit htrees.length_eq)
      exact ⟨holder, levels.succ_pos, ⟨node, hnode, hfit, hwf⟩, tree,
        unfolds_iff.mpr ⟨node, trees, hnode, htrees, hgraft⟩, (text_of_graft hgraft).symm⟩
    · rintro ⟨holder, -, ⟨node, hnode, hfit, hwf⟩, tree, htree, rfl⟩
      obtain ⟨node', trees, hnode', htrees, hgraft⟩ := unfolds_iff.mp htree
      obtain rfl := Option.some.inj (hnode.symm.trans hnode')
      exact ⟨holder, node, hnode, hfit, trees.map Tree.text,
        (hops node _).mpr ⟨hwf, trees, htrees, rfl⟩, text_of_graft hgraft⟩

theorem existsUnique_forall₂ {α β : Type} {R : α → β → Prop} {xs : List α}
    (h : ∀ x ∈ xs, ∃! y, R x y) : ∃! ys, List.Forall₂ R xs ys := by
  induction xs with
  | nil => exact ⟨[], .nil, fun ys hys => by cases hys; rfl⟩
  | cons x xs ih =>
    obtain ⟨y, hy, huniq⟩ := h x (by simp)
    obtain ⟨ys, hys, hrest⟩ := ih fun z hz => h z (by simp [hz])
    refine ⟨y :: ys, .cons hy hys, fun zs hzs => ?_⟩
    cases hzs with
    | cons hz hzs => rw [huniq _ hz, hrest _ hzs]

/-- Below a well-formed root there is a tree, and no second one. -/
theorem WellFormed.existsUnique_tree {a : Arena} {root : NodeId} {limit : Nat}
    (h : a.WellFormed root limit) : ∃! tree, a.Unfolds root tree := by
  induction limit using Nat.strongRecOn generalizing root with
  | ind limit ih =>
    obtain ⟨node, hnode, hfit, hops⟩ := wellFormed_iff.mp h
    obtain ⟨trees, htrees, huniq⟩ : ∃! trees, List.Forall₂ a.Unfolds (a.expanded node) trees := by
      refine existsUnique_forall₂ fun o ho => ?_
      obtain ⟨-, hpos, hwf⟩ := hops o ho
      exact ih (limit - 1) (by omega) hwf
    obtain ⟨tree, hgraft⟩ := Option.isSome_iff_exists.mp (graft_isSome hfit htrees.length_eq)
    refine ⟨tree, unfolds_iff.mpr ⟨node, trees, hnode, htrees, hgraft⟩, fun other hother => ?_⟩
    obtain ⟨node', trees', hnode', htrees', hgraft'⟩ := unfolds_iff.mp hother
    obtain rfl := Option.some.inj (hnode.symm.trans hnode')
    obtain rfl := huniq trees' htrees'
    exact Option.some.inj (hgraft'.symm.trans hgraft)

/-- What is rendered within some limit is rendered within every limit that is not below the id of the
root. -/
theorem renderExpr_of_index_le {a : Arena} {root : NodeId} {limit limit' : Nat} {text : String}
    (h : a.renderExpr root limit = .ok text) (hle : root.index ≤ limit') :
    a.renderExpr root limit' = .ok text := by
  obtain ⟨hparent, -, hwf, htree⟩ := renderWithin_eq_ok_iff_unfolds.mp h
  exact renderWithin_eq_ok_iff_unfolds.mpr ⟨hparent, by omega, hwf.of_index_le hle, htree⟩

/-- Rendering succeeds exactly on the well-formed roots. Such a root has one tree, whose text is what
is rendered. -/
theorem renderExpr_eq_ok_iff (a : Arena) (root : NodeId) (limit : Nat) :
    (a.WellFormed root limit → ∃! tree, a.Unfolds root tree) ∧
      ∀ text, a.renderExpr root limit = .ok text ↔
        a.WellFormed root limit ∧ ∃ tree, a.Unfolds root tree ∧ tree.text = text := by
  refine ⟨WellFormed.existsUnique_tree, fun text => ?_⟩
  rw [renderExpr, renderWithin_eq_ok_iff_unfolds]
  simp

end Arena

end KernelForge
