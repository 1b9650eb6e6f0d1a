import KernelForge.Proofs.Render.Layout

/-!
# The diagnostics of a rendering

Something can be missing or misplaced in a body, in a chain of arms or in a switch. These places of a
statement have an order, and what is wrong with a place can be told from the place alone. A rendering
reports what is wrong with each of its places, one behind the other.
-/
namespace KernelForge

/-- A place of a statement tree in which something can be missing or misplaced. -/
inductive Site
  | body (construct : Construct) (stmts : List Stmt)
  /-- The conditions of the arms of an `if` chain. -/
  | chain (conds : List (Option NodeId))
  | switch (cases : List SwitchCase) (default : Option (List Stmt))

mutual

/-- The places of a statement in the order of the source. Each comes before those inside it. -/
def Stmt.sites : Stmt → List Site
  | .expr _ | .comment _ | .includeFile _ => []
  | .forLoop _ _ _ body => .body .forLoop body :: Stmt.sitesAll body
  | .whileLoop _ body => .body .whileLoop body :: Stmt.sitesAll body
  | .function _ _ body => .body .function body :: Stmt.sitesAll body
  | .ifChain arms => .chain (arms.map Branch.cond) :: Branch.sitesAll arms
  | .switch _ cases none => .switch cases none :: SwitchCase.sitesAll cases
  | .switch _ cases (some body) =>
    .switch cases (some body) ::
      (SwitchCase.sitesAll cases ++ .body .defaultArm body :: Stmt.sitesAll body)

def Stmt.sitesAll : List Stmt → List Site
  | [] => []
  | s :: rest => s.sites ++ Stmt.sitesAll rest

def Branch.sitesAll : List Branch → List Site
  | [] => []
  | ⟨_, body⟩ :: rest => .body .ifChain body :: (Stmt.sitesAll body ++ Branch.sitesAll rest)

def SwitchCase.sitesAll : List SwitchCase → List Site
  | [] => []
  | ⟨_, body⟩ :: rest => .body .caseArm body :: (Stmt.sitesAll body ++ SwitchCase.sitesAll rest)

end

/-- The positions of the arms without a condition, in increasing order. -/
def elsePositions (conds : List (Option NodeId)) : List Nat :=
  (List.range conds.length).filter fun p => conds[p]? = some none

namespace Site

/-- What is wrong with a place. -/
def misuses : Site → List Diagnostic
  | body construct [] => [.emptyBody construct]
  | body _ (_ :: _) => []
  | chain [] => [.emptyIf]
  | chain (cond :: rest) =>
    let positions := elsePositions (cond :: rest)
    (positions.filter fun p => p + 1 ≠ (cond :: rest).length).map .misplacedElse ++
      if 1 < positions.length then [.multipleElse positions.length] else []
  | switch [] none => [.emptySwitch]
  | switch _ _ => []

/-- A body has a statement. A chain has an arm, and at most one arm without a condition, which is the
last. A switch has a case or a default. -/
def InOrder : Site → Prop
  | body _ stmts => stmts ≠ []
  | chain conds =>
    conds ≠ [] ∧ (elsePositions conds).length ≤ 1 ∧ ∀ p ∈ elsePositions conds, p + 1 = conds.length
  | switch cases default => cases ≠ [] ∨ default.isSome

theorem misuses_eq_nil_iff : ∀ site : Site, site.misuses = [] ↔ site.InOrder
  | body _ [] => by simp [misuses, InOrder]
  | body _ (_ :: _) => by simp [misuses, InOrder]
  | chain [] => by simp [misuses, InOrder]
  | chain (cond :: rest) => by simp [misuses, InOrder, and_comm]
  | switch [] none => by simp [misuses, InOrder]
  | switch [] (some _) => by simp [misuses, InOrder]
  | switch (_ :: _) _ => by simp [misuses, InOrder]

end Site

/-! ## The misuses of a chain -/

/-- The positions are those of the members of the chain that are no condition. -/
theorem elsePositions_eq (conds : List (Option NodeId)) :
    elsePositions conds = (conds.zipIdx.filter fun x => x.1.isNone).map Prod.snd := by
  have hfilter : conds.zipIdx.filter (fun x => x.1.isNone) =
      conds.zipIdx.filter ((fun p => decide (conds[p]? = some none)) ∘ Prod.snd) := by
    refine List.filter_congr ?_
    rintro ⟨cond, p⟩ hmem
    have hp : conds[p]? = some cond := List.mem_zipIdx_iff_getElem?.mp hmem
    cases cond <;> simp [hp]
  rw [hfilter, ← List.filter_map, List.zipIdx_map_snd, elsePositions, List.range_eq_range']

theorem length_elsePositions (conds : List (Option NodeId)) :
    (elsePositions conds).length = conds.countP Option.isNone := by
  have hcount := List.countP_map (p := Option.isNone) (f := Prod.fst) (l := conds.zipIdx)
  rw [List.zipIdx_map_fst] at hcount
  rw [elsePositions_eq, List.length_map, hcount, List.countP_eq_length_filter]
  rfl

/-- The first arm is at fault in a way of its own. Where it has a condition, the others are reported
by their positions. -/
theorem misplacedElse_eq {conds : List (Option NodeId)} (h : ∀ p ∈ elsePositions conds, p ≠ 0) :
    misplacedElse conds =
      ((elsePositions conds).filter fun p => p + 1 ≠ conds.length).map .misplacedElse := by
  have hmem : ∀ x ∈ conds.zipIdx.filter (fun x => x.1.isNone), x.2 ≠ 0 := by
    intro x hx
    refine h x.2 ?_
    rw [elsePositions_eq]
    exact List.mem_map_of_mem hx
  rw [elsePositions_eq, List.filter_map, List.filter_filter, List.map_map]
  refine congrArg _ (List.filter_congr ?_)
  rintro ⟨cond, p⟩ hx
  cases cond with
  | some cond => simp
  | none =>
    have hp : p ≠ 0 := hmem (none, p) (List.mem_filter.mpr ⟨hx, rfl⟩)
    rw [Bool.eq_iff_iff]
    simp [hp]

theorem elseDiagnostics_eq_misuses (cond : NodeId) (rest : List (Option NodeId)) :
    elseDiagnostics (some cond :: rest) = (Site.chain (some cond :: rest)).misuses := by
  have hfirst : ∀ p ∈ elsePositions (some cond :: rest), p ≠ 0 := by
    rintro p hp rfl
    simp [elsePositions] at hp
  rw [elseDiagnostics, misplacedElse_eq hfirst, multipleElse, ← length_elsePositions]
  rfl

/-! ## The misuses of a statement -/

theorem misuses_body (construct : Construct) (stmts : List Stmt) :
    (Site.body construct stmts).misuses = emptyBody construct stmts := by
  cases stmts <;> rfl

theorem misuses_switch (cases : List SwitchCase) (default : Option (List Stmt)) :
    (Site.switch cases default).misuses = emptySwitch cases default := by
  cases cases <;> cases default <;> rfl

attribute [local simp] Stmt.sites Stmt.sitesAll Branch.sitesAll SwitchCase.sitesAll Stmt.misuses
  Stmt.misusesAll Branch.misusesAll SwitchCase.misusesAll misuses_body misuses_switch

mutual

/-- What is wrong with a statement is what is wrong with its places, provided that its chains start
with conditions. -/
theorem Stmt.misuses_eq : ∀ s : Stmt, s.skeleton.Headed → s.misuses = s.sites.flatMap Site.misuses
  | .expr _, _ | .comment _, _ | .includeFile _, _ => by simp
  | .forLoop _ _ _ body, h | .whileLoop _ body, h | .function _ _ body, h => by
    simp [Stmt.misusesAll_eq body h]
  | .ifChain [], _ => by simp [Site.misuses]
  | .ifChain (⟨none, _⟩ :: _), h => by simp [Stmt.skeleton, Stmt.outline, Branch.outlineAll,
      Outline.Headed, Outline.StartsConditional, Outline.Arm.cond] at h
  | .ifChain (⟨some cond, body⟩ :: rest), h => by
    rw [Stmt.misuses, Branch.misusesAll_eq _ h.2, Stmt.sites, List.flatMap_cons]
    exact congrArg (· ++ _) (elseDiagnostics_eq_misuses cond (rest.map Branch.cond))
  | .switch _ cases none, h => by simp [SwitchCase.misusesAll_eq cases h]
  | .switch _ cases (some body), h => by
    simp [SwitchCase.misusesAll_eq cases h.1, Stmt.misusesAll_eq body h.2]

theorem Stmt.misusesAll_eq : ∀ ss : List Stmt,
    Outline.HeadedAll (Stmt.outlineAll (fun _ => ()) ss) →
      Stmt.misusesAll ss = (Stmt.sitesAll ss).flatMap Site.misuses
  | [], _ => by simp
  | s :: rest, h => by simp [Stmt.misuses_eq s h.1, Stmt.misusesAll_eq rest h.2]

theorem Branch.misusesAll_eq : ∀ arms : List Branch,
    Outline.Arm.HeadedAll (Branch.outlineAll (fun _ => ()) arms) →
      Branch.misusesAll arms = (Branch.sitesAll arms).flatMap Site.misuses
  | [], _ => by simp
  | ⟨_, body⟩ :: rest, h => by simp [Stmt.misusesAll_eq body h.1, Branch.misusesAll_eq rest h.2]

theorem SwitchCase.misusesAll_eq : ∀ cases : List SwitchCase,
    Outline.Case.HeadedAll (SwitchCase.outlineAll (fun _ => ()) cases) →
      SwitchCase.misusesAll cases = (SwitchCase.sitesAll cases).flatMap Site.misuses
  | [], _ => by simp
  | ⟨_, body⟩ :: rest, h => by simp [Stmt.misusesAll_eq body h.1, SwitchCase.misusesAll_eq rest h.2]

end

/-- A rendering reports what is wrong with the places of its statements, in the order of the source
and nothing else. So it reports nothing exactly when each place is in order. -/
theorem Arena.diagnostics_of_render {a : Arena} {stmts : List Stmt} {options : RenderOptions}
    {r : Rendered} (h : a.render stmts options = .ok r) :
    r.diagnostics = (Stmt.sitesAll stmts).flatMap Site.misuses ∧
      (r.diagnostics = [] ↔ ∀ site ∈ Stmt.sitesAll stmts, site.InOrder) := by
  obtain ⟨hafford, rfl⟩ := Arena.render_eq_ok_iff.mp h
  have hdiagnostics := Stmt.misusesAll_eq stmts hafford.headed
  refine ⟨hdiagnostics, ?_⟩
  rw [hdiagnostics, List.flatMap_eq_nil_iff]
  exact forall₂_congr fun site _ => site.misuses_eq_nil_iff

/-- An empty switch, and a switch whose default holds a chain with two arms without a condition. -/
theorem Arena.diagnostics_of_render_switch :
    let a : Arena := ⟨#[.leaf (.scalar .u32 "x")], #[]⟩
    let chain : Stmt := .ifChain [⟨some ⟨0⟩, []⟩, ⟨none, [.comment ""]⟩, ⟨none, []⟩]
    let stmts : List Stmt := [.switch ⟨0⟩ [] none, .switch ⟨0⟩ [] (some [chain])]
    ∃ r, a.render stmts {} = .ok r ∧
      r.diagnostics = (Stmt.sitesAll stmts).flatMap Site.misuses ∧
      r.diagnostics = [.emptySwitch, .misplacedElse 1, .multipleElse 2, .emptyBody .ifChain,
        .emptyBody .ifChain] := by
  intro a chain stmts
  obtain ⟨r, hr⟩ : ∃ r, a.render stmts {} = .ok r := ⟨_, rfl⟩
  have hdiagnostics := (diagnostics_of_render hr).1
  exact ⟨r, hr, hdiagnostics, hdiagnostics.trans (by decide)⟩

end KernelForge
