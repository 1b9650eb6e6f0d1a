import KernelForge.Proofs.Render.Layout

/-!
# Tidy statements

A statement is tidy when every `if` chain inside has at least one arm and only its last arm lacks a
condition, and not as its only one. Nothing is wrong with a tidy statement except bodies and
switches that are empty.
-/
namespace KernelForge

namespace Outline

variable {α : Type}

/-- One or more arms with conditions, and perhaps one without behind them. -/
def Chained (arms : List (Arm α)) : Prop :=
  ∃ (chain : List (Arm α)) (last : Option (List (Outline α))), chain ≠ [] ∧
    (∀ arm ∈ chain, arm.cond.isSome) ∧ arms = chain ++ (last.map (Arm.mk none)).toList

mutual

/-- Every `if` chain inside is in order. -/
def Tidy : Outline α → Prop
  | forLoop _ _ _ body | whileLoop _ body | function _ body => TidyAll body
  | ifChain arms => Chained arms ∧ Arm.TidyAll arms
  | switch _ cases none => Case.TidyAll cases
  | switch _ cases (some body) => Case.TidyAll cases ∧ TidyAll body
  | expr _ | comment _ | includeFile _ => True

def TidyAll : List (Outline α) → Prop
  | [] => True
  | s :: rest => s.Tidy ∧ TidyAll rest

def Arm.TidyAll : List (Arm α) → Prop
  | [] => True
  | ⟨_, body⟩ :: rest => Outline.TidyAll body ∧ Arm.TidyAll rest

def Case.TidyAll : List (Case α) → Prop
  | [] => True
  | ⟨_, body⟩ :: rest => Outline.TidyAll body ∧ Case.TidyAll rest

end

theorem tidyAll_iff {ss : List (Outline α)} : TidyAll ss ↔ ∀ s ∈ ss, s.Tidy := by
  induction ss with
  | nil => simp [TidyAll]
  | cons s rest ih => simp [TidyAll, ih]

theorem Arm.tidyAll_append {as bs : List (Arm α)} :
    Arm.TidyAll (as ++ bs) ↔ Arm.TidyAll as ∧ Arm.TidyAll bs := by
  induction as with
  | nil => simp [Arm.TidyAll]
  | cons a rest ih =>
    obtain ⟨cond, body⟩ := a
    simp [Arm.TidyAll, ih, and_assoc]

theorem Case.tidyAll_append {as bs : List (Case α)} :
    Case.TidyAll (as ++ bs) ↔ Case.TidyAll as ∧ Case.TidyAll bs := by
  induction as with
  | nil => simp [Case.TidyAll]
  | cons a rest ih =>
    obtain ⟨value, body⟩ := a
    simp [Case.TidyAll, ih, and_assoc]

theorem Chained.ne_nil {arms : List (Arm α)} (h : Chained arms) : arms ≠ [] := by
  obtain ⟨chain, last, hne, -, rfl⟩ := h
  simp [hne]

theorem Chained.startsConditional {arms : List (Arm α)} (h : Chained arms) :
    StartsConditional arms := by
  obtain ⟨chain, last, hne, hchain, rfl⟩ := h
  cases chain with
  | nil => exact absurd rfl hne
  | cons arm rest => exact hchain arm (by simp)

/-- An arm that others follow has a condition. -/
theorem Chained.isSome_of_mem_dropLast {arms : List (Arm α)} (h : Chained arms) :
    ∀ arm ∈ arms.dropLast, arm.cond.isSome := by
  obtain ⟨chain, last, -, hchain, rfl⟩ := h
  intro arm harm
  cases last with
  | none => exact hchain arm ((List.dropLast_sublist _).subset (by simpa using harm))
  | some body => exact hchain arm (by simpa using harm)

mutual

theorem Tidy.headed : ∀ {s : Outline α}, s.Tidy → s.Headed
  | expr _, _ | comment _, _ | includeFile _, _ => by trivial
  | forLoop _ _ _ _, h | whileLoop _ _, h | function _ _, h => headedAll_of_tidyAll h
  | ifChain _, h => ⟨h.1.startsConditional, Arm.headedAll_of_tidyAll h.2⟩
  | switch _ _ none, h => Case.headedAll_of_tidyAll h
  | switch _ _ (some _), h => ⟨Case.headedAll_of_tidyAll h.1, headedAll_of_tidyAll h.2⟩

theorem headedAll_of_tidyAll : ∀ {ss : List (Outline α)}, TidyAll ss → HeadedAll ss
  | [], _ => trivial
  | _ :: _, h => ⟨h.1.headed, headedAll_of_tidyAll h.2⟩

theorem Arm.headedAll_of_tidyAll : ∀ {arms : List (Arm α)}, Arm.TidyAll arms → Arm.HeadedAll arms
  | [], _ => trivial
  | ⟨_, _⟩ :: _, h => ⟨Outline.headedAll_of_tidyAll h.1, Arm.headedAll_of_tidyAll h.2⟩

theorem Case.headedAll_of_tidyAll :
    ∀ {cases : List (Case α)}, Case.TidyAll cases → Case.HeadedAll cases
  | [], _ => trivial
  | ⟨_, _⟩ :: _, h => ⟨Outline.headedAll_of_tidyAll h.1, Case.headedAll_of_tidyAll h.2⟩

end

end Outline

/-! ## What is wrong with a tidy statement -/

/-- Nothing is wrong with the arms if only the last one may lack a condition. -/
theorem elseDiagnostics_eq_nil {conds : List (Option NodeId)}
    (h : ∀ c ∈ conds.dropLast, c.isSome) : elseDiagnostics conds = [] := by
  have hmisplaced : misplacedElse conds = [] := by
    simp only [misplacedElse, List.map_eq_nil_iff, List.filter_eq_nil_iff]
    rintro ⟨c, i⟩ hmem
    have hi : conds[i]? = some c := List.mem_zipIdx_iff_getElem?.mp hmem
    by_cases hlast : i + 1 = conds.length
    · simp [hlast]
    · -- the arm is not the last one
      have hlt := (List.getElem?_eq_some_iff.mp hi).1
      have hdrop : conds.dropLast[i]? = some c := by
        rw [List.getElem?_dropLast, if_pos (by omega), hi]
      have hsome := h c (List.mem_of_getElem? hdrop)
      simp [Option.isNone_eq_false_iff.mpr hsome]
  have hcount : conds.countP Option.isNone ≤ 1 := by
    rcases List.eq_nil_or_concat conds with rfl | ⟨init, last, rfl⟩
    · simp
    · have hinit : init.countP Option.isNone = 0 := by
        rw [List.countP_eq_zero]
        intro c hc
        have hsome := h c (by simpa using hc)
        simp [Option.isNone_eq_false_iff.mpr hsome]
      rw [List.concat_eq_append, List.countP_append, hinit, Nat.zero_add]
      exact List.countP_le_length
  simp [elseDiagnostics, hmisplaced, multipleElse, Nat.not_lt.mpr hcount]

/-- A body or a switch without contents. -/
def Diagnostic.Empty (d : Diagnostic) : Prop := (∃ c, d = .emptyBody c) ∨ d = .emptySwitch

theorem empty_of_mem_emptyBody {construct : Construct} {body : List Stmt} :
    ∀ d ∈ emptyBody construct body, d.Empty := by
  intro d hd
  unfold emptyBody at hd
  split at hd
  · exact Or.inl ⟨construct, List.mem_singleton.mp hd⟩
  · simp at hd

theorem empty_of_mem_emptySwitch {cases : List SwitchCase} {default : Option (List Stmt)} :
    ∀ d ∈ emptySwitch cases default, d.Empty := by
  intro d hd
  unfold emptySwitch at hd
  split at hd
  · exact Or.inr (List.mem_singleton.mp hd)
  · simp at hd

theorem Branch.isSome_cond_of_chained {arms : List Branch}
    (h : Outline.Chained (Branch.outlineAll (fun _ => ()) arms)) :
    ∀ c ∈ (arms.map Branch.cond).dropLast, c.isSome := by
  have houtline : ∀ arms : List Branch, (Branch.outlineAll (fun _ => ()) arms).map Outline.Arm.cond =
      (arms.map Branch.cond).map (Option.map fun _ => ()) := by
    intro arms
    induction arms with
    | nil => rfl
    | cons arm rest ih =>
      obtain ⟨cond, body⟩ := arm
      simp [Branch.outlineAll, Outline.Arm.cond, Branch.cond, ih]
  intro c hc
  have hmap : c.map (fun _ => ()) ∈
      ((Branch.outlineAll (fun _ => ()) arms).map Outline.Arm.cond).dropLast := by
    rw [houtline, ← List.map_dropLast]
    exact List.mem_map_of_mem hc
  rw [← List.map_dropLast] at hmap
  obtain ⟨arm, harm, heq⟩ := List.mem_map.mp hmap
  have := h.isSome_of_mem_dropLast arm harm
  rw [heq] at this
  simpa using this

mutual

theorem Stmt.empty_of_mem_misuses : ∀ s : Stmt, s.skeleton.Tidy → ∀ d ∈ s.misuses, d.Empty
  | .expr _, _ | .comment _, _ | .includeFile _, _ => by simp [Stmt.misuses]
  | .forLoop _ _ _ body, h | .whileLoop _ body, h | .function _ _ body, h => by
    rw [Stmt.misuses, List.forall_mem_append]
    exact ⟨empty_of_mem_emptyBody, Stmt.empty_of_mem_misusesAll body h⟩
  | .ifChain [], h => absurd rfl h.1.ne_nil
  | .ifChain (arm :: rest), h => by
    rw [Stmt.misuses, elseDiagnostics_eq_nil (Branch.isSome_cond_of_chained h.1), List.nil_append]
    exact Branch.empty_of_mem_misusesAll (arm :: rest) h.2
  | .switch _ cases none, h => by
    rw [Stmt.misuses, List.forall_mem_append]
    exact ⟨empty_of_mem_emptySwitch, SwitchCase.empty_of_mem_misusesAll cases h⟩
  | .switch _ cases (some body), h => by
    simp only [Stmt.misuses, List.forall_mem_append]
    exact ⟨empty_of_mem_emptySwitch, SwitchCase.empty_of_mem_misusesAll cases h.1,
      empty_of_mem_emptyBody, Stmt.empty_of_mem_misusesAll body h.2⟩

theorem Stmt.empty_of_mem_misusesAll : ∀ ss : List Stmt,
    Outline.TidyAll (Stmt.outlineAll (fun _ => ()) ss) → ∀ d ∈ Stmt.misusesAll ss, d.Empty
  | [], _ => by simp [Stmt.misusesAll]
  | s :: rest, h => by
    rw [Stmt.misusesAll, List.forall_mem_append]
    exact ⟨Stmt.empty_of_mem_misuses s h.1, Stmt.empty_of_mem_misusesAll rest h.2⟩

theorem Branch.empty_of_mem_misusesAll : ∀ arms : List Branch,
    Outline.Arm.TidyAll (Branch.outlineAll (fun _ => ()) arms) →
      ∀ d ∈ Branch.misusesAll arms, d.Empty
  | [], _ => by simp [Branch.misusesAll]
  | ⟨_, body⟩ :: rest, h => by
    simp only [Branch.misusesAll, List.forall_mem_append]
    exact ⟨⟨empty_of_mem_emptyBody, Stmt.empty_of_mem_misusesAll body h.1⟩,
      Branch.empty_of_mem_misusesAll rest h.2⟩

theorem SwitchCase.empty_of_mem_misusesAll : ∀ cases : List SwitchCase,
    Outline.Case.TidyAll (SwitchCase.outlineAll (fun _ => ()) cases) →
      ∀ d ∈ SwitchCase.misusesAll cases, d.Empty
  | [], _ => by simp [SwitchCase.misusesAll]
  | ⟨_, body⟩ :: rest, h => by
    simp only [SwitchCase.misusesAll, List.forall_mem_append]
    exact ⟨⟨empty_of_mem_emptyBody, Stmt.empty_of_mem_misusesAll body h.1⟩,
      SwitchCase.empty_of_mem_misusesAll rest h.2⟩

end

end KernelForge
