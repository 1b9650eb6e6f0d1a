import KernelForge.Proofs.Session.Meaning
import KernelForge.Session.Kernel

/-!
# What builders make of meanings

One lemma for each builder: given what its operands and its bodies mean, what its answer means.
Contexts occur in it only as the place where the answer is.
-/
namespace KernelForge

namespace Session

variable {p : Scope} {s t : Session} {c : Nat}

/-! ## Nodes -/

/-- A node means its label over what its operands mean. -/
theorem meansExpr_of_node (ht : t.Ready p) {id : NodeId} {node : Node} {us : List Term}
    (hnode : (t.context c).arena.get? id = some node)
    (hops : t.MeansExprs p c ((t.context c).arena.operands node) us)
    (hleaf : ∀ v, node = .leaf v → p.Admits v) : t.MeansExpr p c id (.node node.label us) := by
  have hterm : t.term c id = .node node.label us := by
    rw [← hops.reads]
    exact (ht.sound c).arena.term_eq hnode
  have hlt := Arena.lt_of_get? hnode
  refine ⟨⟨hops.fits.used, holds_singleton.mpr ⟨hops.fits.holds.1, hlt⟩, fun other hother => ?_⟩,
    hterm⟩
  obtain rfl := List.mem_singleton.mp hother
  rw [hterm, ← hops.reads]
  refine Term.everywhere_node.mpr ⟨fun v hv => hleaf v ?_, fun u hu => ?_⟩
  · cases node <;> simp_all [Node.label]
  · obtain ⟨o, ho, rfl⟩ := List.mem_map.mp hu
    exact hops.fits.within o ho

theorem produces_node (hs : s.Ready p) {node : Node} {us : List Term}
    (plain : ∀ callee range, node ≠ .call callee range)
    (unnamed : ∀ v, node = .leaf v → v.name? = none) (hops : s.MeansExprs p c node.children us) :
    s.Produces p (onContext c fun ctx => ctx.alloc node) fun t id =>
      t.MeansExpr p c id (.node node.label us) := by
  have hgrowth := Context.Growth.node node plain unnamed hops.fits.holds.2
  have hc := hops.fits.used
  have hagrees := (hs.agrees c hc).congr (hs.sound c) hgrowth.extends fun _ => rfl
  refine produces_onContext hs hc hgrowth.grows hagrees fun t hst ht heq => ?_
  refine meansExpr_of_node ht ?_ ?_ fun v hv => Scope.admits_of_unnamed (unnamed v hv)
  · rw [heq]
    exact (Arena.get?_alloc ..).trans (if_pos rfl)
  · rw [Arena.operands_eq_children plain]
    exact hops.mono hs.sound hst fun f g hfg => List.map_congr_left hfg

theorem alloc_produces (hs : s.Ready p) {node : Node} {us : List Term}
    (plain : ∀ callee range, node ≠ .call callee range)
    (unnamed : ∀ v, node = .leaf v → v.name? = none) (hops : s.MeansExprs p c node.children us) :
    s.Produces p (alloc c node) fun t h => t.MeansHandle p h (.node node.label us) :=
  (produces_node hs plain unnamed hops).bind fun _ _ _ ht hid => .pure ht hid

theorem literal_produces (hs : s.Ready p) (hc : p.contexts c) (v : Literal) :
    s.Produces p (literal c v) fun t h => t.MeansHandle p h (.leaf (.literal v)) :=
  alloc_produces hs (by simp) (by rintro w ⟨⟩; rfl) (shows_const hs hc [])

theorem slot_produces (hs : s.Ready p) (hc : p.contexts c) (slot : Slot) :
    s.Produces p (Session.slot c slot) fun t h => t.MeansHandle p h (.leaf (.slot slot)) :=
  alloc_produces hs (by simp) (by rintro w ⟨⟩; rfl) (shows_const hs hc [])

/-! ## Names -/

/-- The node of a name means the variable that the name should have. -/
theorem intern_produces (hs : s.Ready p) (hc : p.contexts c) {name : String} {shape : Shape}
    (hshape : p.shape? name = some shape) :
    s.Produces p (intern c name shape) fun t h =>
      t.MeansHandle p h (.leaf (shape.named name)) := by
  obtain ⟨hagrees, hcontent⟩ := (hs.agrees c hc).intern (hs.sound c) hshape
  have hgrows := ((s.context c).intern_grows name shape).1
  refine Produces.bind (q := fun t id => t.MeansExpr p c id (.leaf (shape.named name))) ?_
    fun t id _ ht hid => .pure ht hid
  refine produces_onContext hs hc hgrows hagrees fun t hst ht heq => ?_
  rw [← heq] at hcontent
  refine meansExpr_of_node ht (Arena.content?_eq_some_iff.mp hcontent) (shows_const ht hc []) ?_
  rintro v ⟨⟩ other hother
  obtain rfl := Option.some.inj ((Shape.name?_named name shape).symm.trans hother)
  exact ⟨shape, hshape, rfl⟩

/-- In contexts that agree a request is never refused. -/
theorem tryIntern_produces (hs : s.Ready p) (hc : p.contexts c) {name : String} {shape : Shape}
    (hshape : p.shape? name = some shape) :
    s.Produces p (tryIntern c name shape) fun t r =>
      ∃ h, r = .ok h ∧ t.MeansHandle p h (.leaf (shape.named name)) := by
  obtain ⟨hgrows, hready, hmeans⟩ := intern_produces hs hc hshape
  have heq := (hs.agrees c hc).tryIntern_eq (hs.sound c) hshape
  have hrun : tryIntern c name shape s =
      (.ok (intern c name shape s).1, (intern c name shape s).2) := by
    simp only [tryIntern, intern, bind_apply, pure_apply, onContext_apply, heq]
    rfl
  unfold Produces Yields
  rw [hrun]
  exact ⟨hgrows, hready, _, rfl, hmeans⟩

/-! ## What is taken in -/

/-- Copies mean what the originals mean. -/
theorem Fits.copied (hs : s.Ready p) (hc : p.contexts c) {origin : Nat} {roots : List NodeId}
    (hroots : s.Fits p origin roots) {m : Copying}
    (hm : (s.context c).Copied (s.context origin).arena roots m) :
    s.Grows (s.replace c m.target) ∧ (s.replace c m.target).Ready p ∧
      (s.replace c m.target).Fits p c (roots.map m.copies.image) ∧
      ∀ r ∈ roots, (s.replace c m.target).term c (m.copies.image r) = s.term origin r := by
  have hlt := hs.present c hc
  have hsource := (hs.sound origin).arena
  have hbelow := hroots.holds.2
  have hgrows := hm.advances.target
  have hagrees := hm.agrees hsource (hs.sound c) hbelow hroots.within (hs.agrees c hc)
  have hcontext : (s.replace c m.target).context c = m.target := by
    rw [context_replace hlt, if_pos rfl]
  have hterm : ∀ r ∈ roots,
      (s.replace c m.target).term c (m.copies.image r) = s.term origin r := by
    intro r hr
    unfold term
    rw [hcontext]
    exact hm.term_image_eq hsource (hs.sound c) hbelow hroots.within (hs.agrees c hc) hr
  refine ⟨grows_replace hlt hgrows, hs.replace hlt hgrows hagrees, ⟨hc, ?_, ?_⟩, hterm⟩
  · refine ⟨by simpa using hlt, fun id hid => ?_⟩
    obtain ⟨r, hr, rfl⟩ := List.mem_map.mp hid
    rw [hcontext]
    exact hm.image_lt hbelow r hr
  · intro id hid
    obtain ⟨r, hr, rfl⟩ := List.mem_map.mp hid
    rw [hterm r hr]
    exact hroots.within r hr

theorem attach_produces (hs : s.Ready p) (hc : p.contexts c) {o : Operand} {u : Term}
    (ho : s.MeansOperand p o u) : s.Produces p (attach c o) fun t id => t.MeansExpr p c id u := by
  cases o with
  | literal v =>
    obtain rfl : Term.leaf (.literal v) = u := ho
    exact produces_node hs (by simp) (by rintro w ⟨⟩; rfl) (shows_const hs hc [])
  | handle h =>
    by_cases hne : h.context = c
    · subst hne
      simp only [attach, if_true]
      exact .pure hs ho
    · -- the copy enters names of the program only, each with the variable that it should have
      obtain ⟨m, hm, heq⟩ := attach_foreign hs.sound ho.fits.holds hne
      obtain ⟨hgrows, hready, hfits, hterm⟩ := ho.fits.copied hs hc hm
      unfold Produces Yields
      rw [heq]
      exact ⟨hgrows, hready, hfits, (hterm h.node (by simp)).trans ho.reads⟩

theorem adopt_produces (hs : s.Ready p) (hc : p.contexts c) {st : Statement} {o : Outline Term}
    (ho : s.MeansStatement p st o) :
    s.Produces p (adopt c st) fun t stmt => t.MeansStmt p c stmt o := by
  obtain ⟨origin, stmt⟩ := st
  cases origin with
  | none =>
    obtain ⟨hroots, hreads⟩ := ho
    simp only at hroots hreads
    refine .pure hs ⟨hroots ▸ fits_nil hs hc, (Stmt.outline_congr stmt ?_).trans hreads⟩
    simp [hroots]
  | some origin =>
    by_cases hne : origin = c
    · subst hne
      simp only [adopt, if_true]
      exact .pure hs ho
    · obtain ⟨m, hm, heq⟩ := adopt_foreign hs.sound ho.fits.holds hne
      obtain ⟨hgrows, hready, hfits, hterm⟩ := ho.fits.copied hs hc hm
      unfold Produces Yields
      rw [heq]
      refine ⟨hgrows, hready, (Stmt.roots_mapRoots m.copies.image stmt).symm ▸ hfits, ?_⟩
      rw [Stmt.outline_mapRoots]
      exact (Stmt.outline_congr stmt hterm).trans ho.reads

theorem attachAll_produces (hs : s.Ready p) (hc : p.contexts c) {args : List Operand}
    {us : List Term} (hargs : List.Forall₂ (s.MeansOperand p) args us) :
    s.Produces p (args.mapM (attach c)) fun t ids => t.MeansExprs p c ids us := by
  have hall := Produces.mapM (f := attach c) (q := fun t => t.MeansOperand p)
    (r := fun t => t.MeansExpr p c) (fun t u _ _ ht htu h => h.mono ht htu)
    (fun t u _ _ ht htu h => h.mono ht htu) (fun t _ _ ht h => attach_produces ht hc h) hs hargs
  exact ⟨hall.1, hall.2.1, meansExprs_of_forall₂ hall.2.1 hc hall.2.2⟩

theorem absorb_produces (hs : s.Ready p) (hc : p.contexts c) {body : List Statement}
    {os : List (Outline Term)} (hbody : s.MeansBody p body os) :
    s.Produces p (absorb c body) fun t stmts => t.MeansStmts p c stmts os := by
  have hall := Produces.mapM (f := adopt c) (q := fun t => t.MeansStatement p)
    (r := fun t => t.MeansStmt p c) (fun t u _ _ ht htu h => h.mono ht htu)
    (fun t u _ _ ht htu h => h.mono ht htu) (fun t _ _ ht h => adopt_produces ht hc h) hs hbody
  exact ⟨hall.1, hall.2.1, meansStmts_of_forall₂ hall.2.1 hc hall.2.2⟩

/-! ## Calls and operators -/

/-- A call means its callee over its arguments, if they are few enough. -/
def MeansCall (p : Scope) (s : Session) (callee : Signature) (us : List Term) :
    Except TooManyArguments Handle → Prop
  | .ok h => us.length ≤ Arena.maxArguments ∧ s.MeansHandle p h (.node (.call callee) us)
  | .error e => Arena.maxArguments < us.length ∧ e = ⟨us.length⟩

theorem call_produces (hs : s.Ready p) (hc : p.contexts c) (callee : Signature)
    {args : List Operand} {us : List Term} (hargs : List.Forall₂ (s.MeansOperand p) args us) :
    s.Produces p (call c callee args) fun t r => t.MeansCall p callee us r := by
  obtain ⟨hst, ht, hids⟩ := attachAll_produces hs hc hargs
  obtain ⟨ids, t, heq⟩ : ∃ ids t, args.mapM (attach c) s = (ids, t) := ⟨_, _, rfl⟩
  rw [heq] at hst ht hids
  simp only at hst ht hids
  have hlen : us.length = ids.length := by rw [← hids.reads, List.length_map]
  have hlt := ht.present c hc
  unfold Produces Yields
  rw [call_apply (hs.present c hc) callee heq hst]
  split_ifs with hshort
  · obtain ⟨hgrows, range, hnode, hlist⟩ :=
      Context.allocCall_grows (c := t.context c) callee hshort hids.fits.holds.2
    have hagrees := (ht.agrees c hc).congr (ht.sound c) hgrows.extends fun _ => rfl
    have htu := grows_replace hlt hgrows
    have hu := ht.replace hlt hgrows hagrees
    refine ⟨hst.trans htu, hu, by omega, ?_⟩
    have hcontext : (t.replace c ((t.context c).allocCall callee ids).2).context c =
        ((t.context c).allocCall callee ids).2 := by rw [context_replace hlt, if_pos rfl]
    refine meansExpr_of_node hu (by rw [hcontext]; exact hnode) ?_ (by simp)
    rw [hcontext, Arena.operands_call hlist]
    exact hids.mono ht.sound htu fun f g hfg => List.map_congr_left hfg
  · -- the arguments stay stored, but no node names them
    have hgrowth := Context.Growth.list (c := t.context c) ids
    have hagrees := (ht.agrees c hc).congr (ht.sound c) hgrowth.extends fun _ => rfl
    refine ⟨hst.trans (grows_replace hlt hgrowth.grows), ht.replace hlt hgrowth.grows hagrees, ?_⟩
    exact ⟨by omega, by rw [hlen]⟩

theorem declare_produces (hs : s.Ready p) {a : Handle} {u : Term} (ha : s.MeansHandle p a u) :
    s.Produces p (declare a) fun t h => t.MeansHandle p h (.node .declare [u]) :=
  alloc_produces hs (by simp) (by simp) (ha.map fun u => [u])

theorem unary_produces (hs : s.Ready p) (op : UnaryOp) {a : Handle} {u : Term}
    (ha : s.MeansHandle p a u) :
    s.Produces p (unary op a) fun t h => t.MeansHandle p h (.node (.unary op) [u]) :=
  alloc_produces hs (by simp) (by simp) (ha.map fun u => [u])

/-- An operator that takes in its right operand and appends a node over both. -/
theorem attach_alloc_produces (hs : s.Ready p) {a : Handle} {u v : Term}
    (ha : s.MeansHandle p a u) {b : Operand} (hb : s.MeansOperand p b v) {node : NodeId → Node}
    {label : Label} (hlabel : ∀ id, (node id).label = label)
    (plain : ∀ id callee range, node id ≠ .call callee range) (leafless : ∀ id v, node id ≠ .leaf v)
    (children : ∀ id, (node id).children = [a.node, id]) :
    s.Produces p (attach a.context b >>= fun id => alloc a.context (node id)) fun t h =>
      t.MeansHandle p h (.node label [u, v]) := by
  refine (attach_produces hs ha.fits.used hb).bind fun t id hst ht hid => ?_
  have hboth : t.MeansExprs p a.context (node id).children [u, v] := by
    rw [children]
    exact Shows.append (MeansExpr.mono hs.sound hst ha) hid fun u v => [u, v]
  have hnode := alloc_produces ht (plain id) (fun w hw => absurd hw (leafless id w)) hboth
  rwa [hlabel] at hnode

theorem binary_produces (hs : s.Ready p) (op : BinaryOp) {a : Handle} {u v : Term}
    (ha : s.MeansHandle p a u) {b : Operand} (hb : s.MeansOperand p b v) :
    s.Produces p (binary op a b) fun t h => t.MeansHandle p h (.node (.binary op) [u, v]) :=
  attach_alloc_produces hs ha hb (fun _ => rfl) (by simp) (by simp) fun _ => rfl

theorem assign_produces (hs : s.Ready p) {a : Handle} {u v : Term} (ha : s.MeansHandle p a u)
    {b : Operand} (hb : s.MeansOperand p b v) :
    s.Produces p (assign a b) fun t h => t.MeansHandle p h (.node .assign [u, v]) :=
  attach_alloc_produces hs ha hb (fun _ => rfl) (by simp) (by simp) fun _ => rfl

theorem index_produces (hs : s.Ready p) {a : Handle} {u v : Term} (ha : s.MeansHandle p a u)
    {b : Operand} (hb : s.MeansOperand p b v) :
    s.Produces p (index a b) fun t h => t.MeansHandle p h (.node .index [u, v]) :=
  attach_alloc_produces hs ha hb (fun _ => rfl) (by simp) (by simp) fun _ => rfl

theorem binaryLiteral_produces (hs : s.Ready p) (op : BinaryOp) (a : Literal) {b : Handle}
    {v : Term} (hb : s.MeansHandle p b v) :
    s.Produces p (binaryLiteral op a b) fun t h =>
      t.MeansHandle p h (.node (.binary op) [.leaf (.literal a), v]) := by
  have hleft : s.Produces p (onContext b.context fun ctx => ctx.alloc (.leaf (.literal a)))
      fun t id => t.MeansExpr p b.context id (.leaf (.literal a)) :=
    produces_node hs (by simp) (by rintro w ⟨⟩; rfl) (shows_const hs hb.fits.used [])
  refine Produces.bind (q := fun t h => h.context = b.context ∧
    t.MeansExpr p b.context h.node (.leaf (.literal a))) ?_ fun t left hst ht hl => ?_
  · exact hleft.bind fun t id _ ht hid => .pure ht ⟨rfl, hid⟩
  · refine alloc_produces ht (by simp) (by simp) ?_
    exact Shows.append hl.2 (MeansExpr.mono hs.sound hst hb) fun u v => [u, v]

/-! ## Statements -/

/-- An arm that is taken under a condition. -/
def conditional (m : Term × List (Outline Term)) : Outline.Arm Term := ⟨some m.1, m.2⟩

/-- The arm without a condition at the end of a chain, which there may not be. -/
def elseArm : Option (List (Outline Term)) → List (Outline.Arm Term)
  | none => []
  | some os => [⟨none, os⟩]

def caseOf (m : Term × List (Outline Term)) : Outline.Case Term := ⟨m.1, m.2⟩

theorem meansStatement_comment (text : String) :
    s.MeansStatement p (comment text) (.comment text) := ⟨rfl, rfl⟩

theorem meansStatement_expr {a : Handle} {u : Term} (ha : s.MeansHandle p a u) :
    s.MeansStatement p (exprStatement a) (.expr u) := Shows.map ha Outline.expr

theorem forLoop_produces (hs : s.Ready p) (hc : p.contexts c) {init cond step : Operand}
    {i j k : Term} (hinit : s.MeansOperand p init i) (hcond : s.MeansOperand p cond j)
    (hstep : s.MeansOperand p step k) {body : List Statement} {os : List (Outline Term)}
    (hbody : s.MeansBody p body os) :
    s.Produces p (forLoop c init cond step body) fun t st =>
      t.MeansStatement p st (.forLoop i j k os) := by
  refine (attach_produces hs hc hinit).bind fun t a hst ht ha => ?_
  refine (attach_produces ht hc (hcond.mono hs.sound hst)).bind fun u b htu hu hb => ?_
  have hsu := hst.trans htu
  refine (attach_produces hu hc (hstep.mono hs.sound hsu)).bind fun v d huv hv hd => ?_
  have hsv := hsu.trans huv
  refine (absorb_produces hv hc (hbody.mono hs.sound hsv)).bind fun w stmts hvw hw hstmts => ?_
  have ha := MeansExpr.mono ht.sound (htu.trans (huv.trans hvw)) ha
  have hb := MeansExpr.mono hu.sound (huv.trans hvw) hb
  have hd := MeansExpr.mono hv.sound hvw hd
  have hheader := Shows.append ha (Shows.append hb hd Prod.mk) Prod.mk
  exact .pure hw (Shows.append hheader hstmts fun h os => Outline.forLoop h.1 h.2.1 h.2.2 os)

theorem whileLoop_produces (hs : s.Ready p) (hc : p.contexts c) {cond : Operand} {u : Term}
    (hcond : s.MeansOperand p cond u) {body : List Statement} {os : List (Outline Term)}
    (hbody : s.MeansBody p body os) :
    s.Produces p (whileLoop c cond body) fun t st => t.MeansStatement p st (.whileLoop u os) := by
  refine (attach_produces hs hc hcond).bind fun t a hst ht ha => ?_
  refine (absorb_produces ht hc (hbody.mono hs.sound hst)).bind fun v stmts htv hv hstmts => ?_
  have ha := MeansExpr.mono ht.sound htv ha
  exact .pure hv (Shows.append ha hstmts Outline.whileLoop)

theorem branch_produces (hs : s.Ready p) (hc : p.contexts c) {arm : Operand × List Statement}
    {m : Term × List (Outline Term)} (harm : s.MeansArm p arm m) :
    s.Produces p (branch c arm) fun t b => t.MeansBranches p c [b] [conditional m] := by
  refine (attach_produces hs hc harm.1).bind fun t a hst ht ha => ?_
  refine (absorb_produces ht hc (harm.2.mono hs.sound hst)).bind fun v stmts htv hv hstmts => ?_
  have ha := MeansExpr.mono ht.sound htv ha
  have hboth := Shows.append ha hstmts fun u os => [Outline.Arm.mk (some u) os]
  refine .pure hv ⟨?_, hboth.reads⟩
  simpa only [Branch.rootsAll, List.append_nil, List.singleton_append] using hboth.fits

theorem switchCase_produces (hs : s.Ready p) (hc : p.contexts c) {arm : Operand × List Statement}
    {m : Term × List (Outline Term)} (harm : s.MeansArm p arm m) :
    s.Produces p (switchCase c arm) fun t b => t.MeansCases p c [b] [caseOf m] := by
  refine (attach_produces hs hc harm.1).bind fun t a hst ht ha => ?_
  refine (absorb_produces ht hc (harm.2.mono hs.sound hst)).bind fun v stmts htv hv hstmts => ?_
  have ha := MeansExpr.mono ht.sound htv ha
  have hboth := Shows.append ha hstmts fun u os => [Outline.Case.mk u os]
  refine .pure hv ⟨?_, hboth.reads⟩
  simpa only [SwitchCase.rootsAll, List.append_nil, List.singleton_append] using hboth.fits

/-- The last arm of a chain or a switch, if there is one. -/
def MeansLast (p : Scope) (s : Session) :
    Option (List Statement) → Option (List (Outline Term)) → Prop := Option.Rel (s.MeansBody p)

theorem absorb_else_produces (hs : s.Ready p) {arms : List Branch} {ms : List (Outline.Arm Term)}
    (harms : s.MeansBranches p c arms ms) {body : List Statement} {os : List (Outline Term)}
    (hbody : s.MeansBody p body os) :
    s.Produces p (absorb c body) fun t stmts =>
      t.MeansBranches p c (arms ++ [⟨none, stmts⟩]) (ms ++ [⟨none, os⟩]) := by
  obtain ⟨hst, ht, hstmts⟩ := absorb_produces hs harms.fits.used hbody
  refine ⟨hst, ht, (harms.mono hs.sound hst).append ?_⟩
  have harm := Shows.map hstmts fun os => [Outline.Arm.mk none os]
  refine ⟨?_, harm.reads⟩
  simpa only [Branch.rootsAll, List.append_nil] using harm.fits

theorem ifChain_produces (hs : s.Ready p) (hc : p.contexts c) {first : Operand × List Statement}
    {others : List (Operand × List Statement)} {m : Term × List (Outline Term)}
    {ms : List (Term × List (Outline Term))} (hfirst : s.MeansArm p first m)
    (hothers : List.Forall₂ (s.MeansArm p) others ms) {otherwise : Option (List Statement)}
    {last : Option (List (Outline Term))} (hlast : s.MeansLast p otherwise last) :
    s.Produces p (ifChain c first others otherwise) fun t st =>
      t.MeansStatement p st (.ifChain ((m :: ms).map conditional ++ elseArm last)) := by
  have harms := Produces.mapM (f := branch c) (q := fun t => t.MeansArm p)
    (r := fun t b m => t.MeansBranches p c [b] [conditional m])
    (fun t u _ _ ht htu h => h.mono ht htu) (fun t u _ _ ht htu h => h.mono ht htu)
    (fun t _ _ ht h => branch_produces ht hc h) hs (.cons hfirst hothers)
  refine harms.bind fun t arms hst ht harms => ?_
  have harms := meansBranches_of_forall₂ ht hc (List.forall₂_map_right_iff.mpr harms)
  cases hlast with
  | none =>
    refine .pure ht ?_
    rw [elseArm, List.append_nil]
    exact Shows.map harms Outline.ifChain
  | some hbody =>
    refine (absorb_else_produces ht harms (hbody.mono hs.sound hst)).bind fun u stmts _ hu h => ?_
    exact .pure hu (Shows.map h Outline.ifChain)

theorem absorb_default_produces (hs : s.Ready p) {subject : NodeId} {u : Term}
    (hsubject : s.MeansExpr p c subject u) {cases : List SwitchCase}
    {ms : List (Outline.Case Term)} (hcases : s.MeansCases p c cases ms) {body : List Statement}
    {os : List (Outline Term)} (hbody : s.MeansBody p body os) :
    s.Produces p (absorb c body) fun t stmts =>
      t.MeansStmt p c (.switch subject cases (some stmts)) (.switch u ms (some os)) := by
  obtain ⟨hst, ht, hstmts⟩ := absorb_produces hs hsubject.fits.used hbody
  have harms := Shows.append (hcases.mono hs.sound hst) hstmts Prod.mk
  exact ⟨hst, ht, Shows.append (hsubject.mono hs.sound hst) harms
    fun u m => Outline.switch u m.1 (some m.2)⟩

theorem switch_produces (hs : s.Ready p) (hc : p.contexts c) {subject : Operand} {u : Term}
    (hsubject : s.MeansOperand p subject u) {cases : List (Operand × List Statement)}
    {ms : List (Term × List (Outline Term))} (hcases : List.Forall₂ (s.MeansArm p) cases ms)
    {default : Option (List Statement)} {last : Option (List (Outline Term))}
    (hlast : s.MeansLast p default last) :
    s.Produces p (switch c subject cases default) fun t st =>
      t.MeansStatement p st (.switch u (ms.map caseOf) last) := by
  refine (attach_produces hs hc hsubject).bind fun t a hst ht ha => ?_
  have harms := Produces.mapM (f := switchCase c) (q := fun t => t.MeansArm p)
    (r := fun t b m => t.MeansCases p c [b] [caseOf m])
    (fun t u _ _ ht htu h => h.mono ht htu) (fun t u _ _ ht htu h => h.mono ht htu)
    (fun t _ _ ht h => switchCase_produces ht hc h) ht
    (hcases.imp fun _ _ h => h.mono hs.sound hst)
  refine harms.bind fun v arms htv hv harms => ?_
  have harms := meansCases_of_forall₂ hv hc (List.forall₂_map_right_iff.mpr harms)
  have ha := MeansExpr.mono ht.sound htv ha
  cases hlast with
  | none => exact .pure hv (Shows.append ha harms fun u ms => Outline.switch u ms none)
  | some hbody =>
    have hbody := hbody.mono hs.sound (hst.trans htv)
    exact (absorb_default_produces hv ha harms hbody).bind fun _ _ _ hw h => .pure hw h

theorem function_produces (hs : s.Ready p) (hc : p.contexts c) (signature : Signature)
    (params : List Slot) {body : List Statement} {os : List (Outline Term)}
    (hbody : s.MeansBody p body os) :
    s.Produces p (function c signature params body) fun t st =>
      t.MeansStatement p st (.function (functionHeader signature params) os) :=
  (absorb_produces hs hc hbody).bind fun _ _ _ ht hstmts =>
    .pure ht (Shows.map hstmts (Outline.function _))

/-! ## Kernels -/

/-- The kernel is what the arena makes of the statements. -/
structure MakesKernel (a : Arena) (stmts : List Stmt) (options : RenderOptions)
    (r : Except RenderError Kernel) : Prop where
  sound : a.Sound
  roots : ∀ id ∈ Stmt.rootsAll stmts, id.index < a.size
  rendered : (r.map fun k => (⟨k.source, k.diagnostics⟩ : Rendered)) = a.render stmts options

/-- The kernel is made of statements that mean the outlines. -/
def MeansKernel (os : List (Outline Term)) (options : RenderOptions)
    (r : Except RenderError Kernel) : Prop :=
  ∃ a stmts, MakesKernel a stmts options r ∧ Stmt.outlineAll a.term stmts = os

theorem kernel_produces (hs : s.Ready p) (hc : p.contexts c) {body : List Statement}
    {os : List (Outline Term)} (hbody : s.MeansBody p body os) (options : RenderOptions) :
    s.Produces p (kernel c body options) fun _ r => MeansKernel os options r := by
  refine (absorb_produces hs hc hbody).bind fun t stmts _ ht hstmts => ⟨.refl t, ht, ?_⟩
  refine ⟨(t.context c).arena, stmts, ⟨(ht.sound c).arena, hstmts.fits.holds.2, ?_⟩, hstmts.reads⟩
  show Except.map _ (Except.map _ ((t.context c).arena.render stmts options)) = _
  cases (t.context c).arena.render stmts options <;> rfl

end Session

end KernelForge
