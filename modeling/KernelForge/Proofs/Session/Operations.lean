import KernelForge.Proofs.Session.Builds
import KernelForge.Session.Control
import KernelForge.Session.Expression

/-!
# What each operation does

One lemma for each operation: the contexts grow, and what the operation answers with is there.
-/
namespace KernelForge

/-- A node that calls `callee` with the arguments `ids`. -/
def Context.Calls (ctx : Context) (id : NodeId) (callee : Signature) (ids : List NodeId) : Prop :=
  ∃ range, ctx.arena.get? id = some (.call callee range) ∧ ctx.arena.list? range = some ids

theorem Context.Grows.calls {c d : Context} (h : c.Grows d) {id : NodeId} {callee : Signature}
    {ids : List NodeId} (hcalls : c.Calls id callee ids) : d.Calls id callee ids := by
  obtain ⟨range, hnode, hlist⟩ := hcalls
  exact ⟨range, h.extends.arena.node _ _ hnode, h.extends.arena.list _ _ hlist⟩

namespace Context

theorem alloc_lt (c : Context) (node : Node) :
    (c.alloc node).1.index < (c.alloc node).2.arena.size := by
  simp only [alloc, Arena.size_alloc]
  exact Nat.lt_succ_self _

theorem lookup_enter_self (c : Context) (name : String) (v : Variable) :
    (c.enter name v).2.lookup name = some (c.enter name v).1 :=
  (c.lookup_enter name name v).trans (if_pos rfl)

/-- A name leads to one node, whether it was there or is entered now. -/
theorem intern_grows (c : Context) (name : String) (shape : Shape) :
    c.Grows (c.intern name shape).2 ∧
      (c.intern name shape).2.lookup name = some (c.intern name shape).1 := by
  unfold intern
  cases h : c.lookup name with
  | some id => exact ⟨.refl c, h⟩
  | none =>
    exact ⟨(Growth.enter name _ (Shape.name?_named name shape) h).grows,
      c.lookup_enter_self name _⟩

theorem tryIntern_grows (c : Context) (name : String) (shape : Shape) :
    c.Grows (c.tryIntern name shape).2 ∧
      ∀ id, (c.tryIntern name shape).1 = .ok id →
        (c.tryIntern name shape).2.lookup name = some id := by
  unfold tryIntern
  cases h : c.lookup name with
  | none =>
    refine ⟨(Growth.enter name _ (Shape.name?_named name shape) h).grows, fun id hid => ?_⟩
    obtain rfl := Except.ok.inj hid
    exact c.lookup_enter_self name _
  | some found =>
    simp only
    split
    · exact ⟨.refl c, by simp⟩
    · split_ifs
      · exact ⟨.refl c, by rintro id ⟨⟩; exact h⟩
      · exact ⟨.refl c, by simp⟩

theorem allocCall_grows {c : Context} (callee : Signature) {ids : List NodeId}
    (short : ids.length ≤ Arena.maxArguments) (older : ∀ o ∈ ids, o.index < c.arena.size) :
    c.Grows (c.allocCall callee ids).2 ∧
      (c.allocCall callee ids).2.Calls (c.allocCall callee ids).1 callee ids :=
  ⟨(Growth.call callee ids short older).grows, _, (c.get?_allocCall callee ids _).trans (if_pos rfl),
    c.list?_allocCall callee ids⟩

theorem Calls.lt {c : Context} {id : NodeId} {callee : Signature} {ids : List NodeId}
    (h : c.Calls id callee ids) : id.index < c.arena.size := by
  obtain ⟨range, hnode, -⟩ := h
  exact Arena.lt_of_get? hnode

end Context

namespace Context

/-- All that is below a root is copied. -/
theorem Copied.reaches {source : Arena} {c : Context} {roots : List NodeId} {m : Copying}
    (h : c.Copied source roots m) {root id : NodeId} (hroot : root ∈ roots)
    (hid : source.Reaches root id) : (m.copies.copy? id).isSome := by
  induction hid with
  | refl => exact h.copied root hroot
  | tail _ hedge ih => exact h.valid.closed _ _ ih hedge

/-- The copy of a call has the copies of its arguments. -/
theorem Copied.calls {source c : Context} {roots : List NodeId} {m : Copying}
    (h : c.Copied source.arena roots m) {root id : NodeId} (hroot : root ∈ roots)
    (hid : source.arena.Reaches root id) {callee : Signature} {ids : List NodeId}
    (hcalls : source.Calls id callee ids) :
    m.target.Calls (m.copies.image id) callee (ids.map m.copies.image) := by
  obtain ⟨range, hnode, hlist⟩ := hcalls
  obtain ⟨copy, hcopy⟩ := Option.isSome_iff_exists.mp (h.reaches hroot hid)
  obtain ⟨copied, hnode', hlist'⟩ := h.valid.stands id copy _ hcopy hnode
  rw [Arena.operands_call hlist] at hlist'
  rw [Copies.image_of_copy? hcopy]
  exact ⟨copied, hnode', hlist'⟩

end Context

namespace Session

section

variable {s : Session} {c : Nat}

theorem holds_of_eq {t : Session} {ctx : Context} (hc : c < s.contexts.size) (hst : s.Grows t)
    (heq : t.context c = ctx) {id : NodeId} (hid : id.index < ctx.arena.size) : t.Holds c [id] :=
  holds_singleton.mpr ⟨hst.count ▸ hc, by rw [heq]; exact hid⟩

/-! ## Symbols and nodes -/

theorem intern_yields (hs : s.Sound) (hc : c < s.contexts.size) (name : String) (shape : Shape) :
    s.Yields (intern c name shape) fun t h => h.context = c ∧ t.Holds c [h.node] := by
  obtain ⟨hgrows, hlookup⟩ := (s.context c).intern_grows name shape
  have hlt := (hgrows.sound (hs c)).lookup_lt hlookup
  refine Yields.bind (p := fun t id => t.Holds c [id]) ?_ fun t id _ hid => .pure ⟨rfl, hid⟩
  exact yields_onContext hc hgrows fun t ht heq => holds_of_eq hc ht heq hlt

theorem tryIntern_yields (hs : s.Sound) (hc : c < s.contexts.size) (name : String)
    (shape : Shape) :
    s.Yields (tryIntern c name shape) fun t r =>
      ∀ h, r = .ok h → h.context = c ∧ t.Holds c [h.node] := by
  obtain ⟨hgrows, hlookup⟩ := (s.context c).tryIntern_grows name shape
  refine Yields.bind (p := fun t r => ∀ id, r = .ok id → t.Holds c [id]) ?_ fun t r _ hr => ?_
  · refine yields_onContext hc hgrows fun t ht heq id hid => ?_
    exact holds_of_eq hc ht heq ((hgrows.sound (hs c)).lookup_lt (hlookup id hid))
  · refine .pure fun h hh => ?_
    cases r with
    | error e => simp [Except.map] at hh
    | ok id =>
      obtain rfl := Except.ok.inj hh
      exact ⟨rfl, hr id rfl⟩

theorem lookup_holds (hs : s.Sound) (hc : c < s.contexts.size) {name : String} {h : Handle}
    (hl : s.lookup c name = some h) : h.context = c ∧ s.Holds c [h.node] := by
  obtain ⟨id, hid, rfl⟩ := Option.map_eq_some_iff.mp hl
  exact ⟨rfl, holds_singleton.mpr ⟨hc, (hs c).lookup_lt hid⟩⟩

theorem alloc_yields (hc : c < s.contexts.size) {node : Node}
    (plain : ∀ callee range, node ≠ .call callee range)
    (unnamed : ∀ v, node = .leaf v → v.name? = none) (older : s.Holds c node.children) :
    s.Yields (alloc c node) fun t h => h.context = c ∧ t.Holds c [h.node] := by
  refine Yields.bind (p := fun t id => t.Holds c [id]) ?_ fun t id _ hid => .pure ⟨rfl, hid⟩
  refine yields_onContext hc (Context.Growth.node node plain unnamed older.2).grows ?_
  exact fun t ht heq => holds_of_eq hc ht heq ((s.context c).alloc_lt node)

theorem literal_yields (hc : c < s.contexts.size) (v : Literal) :
    s.Yields (literal c v) fun t h => h.context = c ∧ t.Holds c [h.node] :=
  alloc_yields hc (by simp) (by rintro w ⟨⟩; rfl) ⟨hc, by simp [Node.children]⟩

theorem slot_yields (hc : c < s.contexts.size) (slot : Slot) :
    s.Yields (Session.slot c slot) fun t h => h.context = c ∧ t.Holds c [h.node] :=
  alloc_yields hc (by simp) (by rintro w ⟨⟩; rfl) ⟨hc, by simp [Node.children]⟩

/-! ## What is taken in -/

/-- Taking in a handle of another context copies what is below it. -/
theorem attach_foreign (hs : s.Sound) {h : Handle} (hh : s.HoldsOperand (.handle h))
    (hne : h.context ≠ c) :
    ∃ m : Copying, (s.context c).Copied (s.context h.context).arena [h.node] m ∧
      attach c (.handle h) s = (m.copies.image h.node, s.replace c m.target) := by
  obtain ⟨m, hm, heq⟩ :=
    Context.copyExpr_copied (hs h.context).arena (hs c) (holds_singleton.mp hh).2
  refine ⟨m, hm, ?_⟩
  simp only [attach, hne, if_false, bind_apply, get_apply]
  rw [onContext_apply, heq]

/-- Taking in a statement of another context copies what is below its expressions. -/
theorem adopt_foreign (hs : s.Sound) {origin : Nat} {stmt : Stmt}
    (hst : s.HoldsStatement ⟨some origin, stmt⟩) (hne : origin ≠ c) :
    ∃ m : Copying, (s.context c).Copied (s.context origin).arena stmt.roots m ∧
      adopt c ⟨some origin, stmt⟩ s = (stmt.mapRoots m.copies.image, s.replace c m.target) := by
  obtain ⟨m, hm, heq⟩ := Context.copyStmt_copied (hs origin).arena (hs c) hst.2
  refine ⟨m, hm, ?_⟩
  simp only [adopt, hne, if_false, bind_apply, get_apply]
  rw [onContext_apply, heq]

theorem attach_yields (hs : s.Sound) (hc : c < s.contexts.size) {o : Operand}
    (ho : s.HoldsOperand o) : s.Yields (attach c o) fun t id => t.Holds c [id] := by
  cases o with
  | literal v =>
    have hgrows := (Context.Growth.node (c := s.context c) (.leaf (.literal v)) (by simp)
      (by rintro w ⟨⟩; rfl) (by simp [Node.children])).grows
    simp only [attach]
    exact yields_onContext hc hgrows fun t ht heq => holds_of_eq hc ht heq (Context.alloc_lt _ _)
  | handle h =>
    by_cases hne : h.context = c
    · subst hne
      simp only [attach, if_true]
      exact .pure ho
    · obtain ⟨m, hm, heq⟩ := attach_foreign hs ho hne
      have hgrows := grows_replace hc hm.advances.target
      refine ⟨by rw [heq]; exact hgrows, ?_⟩
      rw [heq]
      refine holds_of_eq hc hgrows (by rw [context_replace hc, if_pos rfl]) ?_
      exact hm.image_lt (fun r hr => ho.2 r hr) _ (by simp)

theorem adopt_yields (hs : s.Sound) (hc : c < s.contexts.size) {st : Statement}
    (hst : s.HoldsStatement st) : s.Yields (adopt c st) fun t stmt => t.Holds c stmt.roots := by
  obtain ⟨origin, stmt⟩ := st
  cases origin with
  | none =>
    have hroots : stmt.roots = [] := hst
    exact .pure ⟨hc, by simp [hroots]⟩
  | some origin =>
    by_cases hne : origin = c
    · subst hne
      simp only [adopt, if_true]
      exact .pure hst
    · obtain ⟨m, hm, heq⟩ := adopt_foreign hs hst hne
      have hgrows := grows_replace hc hm.advances.target
      refine ⟨by rw [heq]; exact hgrows, ?_⟩
      rw [heq]
      refine ⟨hgrows.count ▸ hc, fun id hid => ?_⟩
      rw [Stmt.roots_mapRoots] at hid
      obtain ⟨r, hr, rfl⟩ := List.mem_map.mp hid
      rw [context_replace hc, if_pos rfl]
      exact hm.image_lt (fun r hr => hst.2 r hr) r hr

theorem attachAll_yields (hs : s.Sound) (hc : c < s.contexts.size) {args : List Operand}
    (hargs : ∀ o ∈ args, s.HoldsOperand o) :
    s.Yields (args.mapM (attach c)) fun t ids => ids.length = args.length ∧ t.Holds c ids := by
  have hall := Yields.mapM (s := s) (f := attach c) (q := fun t id => t.Holds c [id])
    (fun t u id htu h => h.mono htu) fun o ho t hst =>
      attach_yields (hst.sound hs) (hst.count ▸ hc) ((hargs o ho).mono hst)
  refine hall.imp fun t ids hst hids => ⟨hids.1, hst.count ▸ hc, fun id hid => ?_⟩
  exact (holds_singleton.mp (hids.2 id hid)).2

theorem absorb_yields (hs : s.Sound) (hc : c < s.contexts.size) {body : List Statement}
    (hbody : ∀ st ∈ body, s.HoldsStatement st) :
    s.Yields (absorb c body) fun t stmts => t.Holds c (Stmt.rootsAll stmts) := by
  have hall := Yields.mapM (s := s) (f := adopt c) (q := fun t stmt => t.Holds c stmt.roots)
    (fun t u stmt htu h => h.mono htu) fun st hst t ht =>
      adopt_yields (ht.sound hs) (ht.count ▸ hc) ((hbody st hst).mono ht)
  refine hall.imp fun t stmts ht hstmts => ?_
  have hroots : ∀ ss : List Stmt, (∀ stmt ∈ ss, t.Holds c stmt.roots) →
      t.Holds c (Stmt.rootsAll ss) := by
    intro ss hss
    induction ss with
    | nil => exact ⟨ht.count ▸ hc, by simp [Stmt.rootsAll]⟩
    | cons stmt rest ih =>
      rw [Stmt.rootsAll, holds_append]
      exact ⟨hss stmt (by simp), ih fun other h => hss other (by simp [h])⟩
  exact hroots stmts hstmts.2

/-! ## Calls -/

/-- A call takes in its arguments and then appends at most one node. -/
theorem call_apply (hc : c < s.contexts.size) (callee : Signature) {args : List Operand}
    {ids : List NodeId} {t : Session} (hargs : args.mapM (attach c) s = (ids, t))
    (hst : s.Grows t) :
    call c callee args s =
      if ids.length ≤ Arena.maxArguments then
        (.ok ⟨c, ((t.context c).allocCall callee ids).1⟩,
          t.replace c ((t.context c).allocCall callee ids).2)
      else
        (.error ⟨ids.length⟩,
          t.replace c { t.context c with arena := ((t.context c).arena.appendList ids).2 }) := by
  have hct : c < t.contexts.size := hst.count ▸ hc
  simp only [call, bind_apply, hargs, onContext_apply]
  split_ifs with hlen
  · rw [Arena.storeList_eq_appendList hlen]
    simp only [alloc, bind_apply, pure_apply, onContext_apply, context_replace hct, if_true,
      replace_replace]
    rfl
  · rw [Arena.storeList_eq_error (by omega)]
    rfl

theorem call_yields (hs : s.Sound) (hc : c < s.contexts.size) (callee : Signature)
    {args : List Operand} (hargs : ∀ o ∈ args, s.HoldsOperand o) :
    s.Yields (call c callee args) fun t r =>
      (∀ h, r = .ok h → h.context = c ∧ t.Holds c [h.node] ∧
        (t.context c).Calls h.node callee (args.mapM (attach c) s).1) ∧
      ∀ e, r = .error e → Arena.maxArguments < args.length ∧ e.count = args.length := by
  obtain ⟨hst, hlen, hids⟩ := attachAll_yields hs hc hargs
  obtain ⟨ids, t, heq⟩ : ∃ ids t, args.mapM (attach c) s = (ids, t) := ⟨_, _, rfl⟩
  rw [heq] at hst hlen hids
  have hct : c < t.contexts.size := hst.count ▸ hc
  unfold Yields
  rw [call_apply hc callee heq hst, heq]
  split_ifs with hshort
  · obtain ⟨hgrows, hcalls⟩ := Context.allocCall_grows callee hshort hids.2
    have htu := grows_replace hct hgrows
    have hctx : (t.replace c ((t.context c).allocCall callee ids).2).context c =
        ((t.context c).allocCall callee ids).2 := by rw [context_replace hct, if_pos rfl]
    refine ⟨hst.trans htu, ?_, by simp⟩
    rintro h ⟨⟩
    refine ⟨rfl, holds_of_eq hct htu hctx hcalls.lt, ?_⟩
    simpa only [hctx] using hcalls
  · refine ⟨hst.trans (grows_replace hct (Context.Growth.list ids).grows), by simp, ?_⟩
    rintro e ⟨⟩
    simp only at hlen ⊢
    exact ⟨by omega, hlen⟩

/-! ## Operators -/

theorem declare_yields {a : Handle} (ha : s.Holds a.context [a.node]) :
    s.Yields (declare a) fun t h => h.context = a.context ∧ t.Holds a.context [h.node] :=
  alloc_yields ha.1 (by simp) (by simp) ha

theorem unary_yields (op : UnaryOp) {a : Handle} (ha : s.Holds a.context [a.node]) :
    s.Yields (unary op a) fun t h => h.context = a.context ∧ t.Holds a.context [h.node] :=
  alloc_yields ha.1 (by simp) (by simp) ha

/-- An operator that takes in its right operand and appends a node over both. -/
theorem attach_alloc_yields (hs : s.Sound) {a : Handle} (ha : s.Holds a.context [a.node])
    {b : Operand} (hb : s.HoldsOperand b) {node : NodeId → Node}
    (plain : ∀ id callee range, node id ≠ .call callee range) (leafless : ∀ id v, node id ≠ .leaf v)
    (children : ∀ id, (node id).children = [a.node, id]) :
    s.Yields (attach a.context b >>= fun id => alloc a.context (node id)) fun t h =>
      h.context = a.context ∧ t.Holds a.context [h.node] := by
  refine (attach_yields hs ha.1 hb).bind fun t id hst hid => ?_
  refine alloc_yields (hst.count ▸ ha.1) (plain id) (fun v hv => absurd hv (leafless id v)) ?_
  rw [children, holds_cons]
  exact ⟨ha.mono hst, hid⟩

theorem binary_yields (hs : s.Sound) (op : BinaryOp) {a : Handle}
    (ha : s.Holds a.context [a.node]) {b : Operand} (hb : s.HoldsOperand b) :
    s.Yields (binary op a b) fun t h => h.context = a.context ∧ t.Holds a.context [h.node] :=
  attach_alloc_yields hs ha hb (by simp) (by simp) fun _ => rfl

theorem assign_yields (hs : s.Sound) {a : Handle} (ha : s.Holds a.context [a.node]) {b : Operand}
    (hb : s.HoldsOperand b) :
    s.Yields (assign a b) fun t h => h.context = a.context ∧ t.Holds a.context [h.node] :=
  attach_alloc_yields hs ha hb (by simp) (by simp) fun _ => rfl

theorem index_yields (hs : s.Sound) {a : Handle} (ha : s.Holds a.context [a.node]) {b : Operand}
    (hb : s.HoldsOperand b) :
    s.Yields (index a b) fun t h => h.context = a.context ∧ t.Holds a.context [h.node] :=
  attach_alloc_yields hs ha hb (by simp) (by simp) fun _ => rfl

theorem binaryLiteral_yields (op : BinaryOp) (a : Literal) {b : Handle}
    (hb : s.Holds b.context [b.node]) :
    s.Yields (binaryLiteral op a b) fun t h =>
      h.context = b.context ∧ t.Holds b.context [h.node] := by
  refine (literal_yields hb.1 a).bind fun t left hst hleft => ?_
  refine alloc_yields (hst.count ▸ hb.1) (by simp) (by simp) ?_
  rw [Node.children, holds_cons]
  exact ⟨hleft.2, hb.mono hst⟩

/-! ## Statements -/

theorem forLoop_yields (hs : s.Sound) (hc : c < s.contexts.size) {init cond step : Operand}
    (hinit : s.HoldsOperand init) (hcond : s.HoldsOperand cond) (hstep : s.HoldsOperand step)
    {body : List Statement} (hbody : ∀ st ∈ body, s.HoldsStatement st) :
    s.Yields (forLoop c init cond step body) fun t st => t.HoldsStatement st := by
  refine (attach_yields hs hc hinit).bind fun t i hst hi => ?_
  refine (attach_yields (hst.sound hs) (hst.count ▸ hc) (hcond.mono hst)).bind fun u j htu hj => ?_
  have hsu := hst.trans htu
  refine (attach_yields (hsu.sound hs) (hsu.count ▸ hc) (hstep.mono hsu)).bind fun v k huv hk => ?_
  have hsv := hsu.trans huv
  refine (absorb_yields (hsv.sound hs) (hsv.count ▸ hc) fun st h => (hbody st h).mono hsv).bind
    fun w stmts hvw hstmts => .pure ?_
  have hroots : w.Holds c (i :: j :: k :: Stmt.rootsAll stmts) := by
    refine holds_cons.mpr ⟨hi.mono (htu.trans (huv.trans hvw)), ?_⟩
    refine holds_cons.mpr ⟨hj.mono (huv.trans hvw), ?_⟩
    exact holds_cons.mpr ⟨hk.mono hvw, hstmts⟩
  exact hroots

theorem whileLoop_yields (hs : s.Sound) (hc : c < s.contexts.size) {cond : Operand}
    (hcond : s.HoldsOperand cond) {body : List Statement}
    (hbody : ∀ st ∈ body, s.HoldsStatement st) :
    s.Yields (whileLoop c cond body) fun t st => t.HoldsStatement st := by
  refine (attach_yields hs hc hcond).bind fun t i hst hi => ?_
  refine (absorb_yields (hst.sound hs) (hst.count ▸ hc) fun st h => (hbody st h).mono hst).bind
    fun u stmts htu hstmts => .pure ?_
  have hroots : u.Holds c (i :: Stmt.rootsAll stmts) :=
    holds_cons.mpr ⟨hi.mono htu, hstmts⟩
  exact hroots

theorem branch_yields (hs : s.Sound) (hc : c < s.contexts.size) {arm : Operand × List Statement}
    (hcond : s.HoldsOperand arm.1) (hbody : ∀ st ∈ arm.2, s.HoldsStatement st) :
    s.Yields (branch c arm) fun t b => t.Holds c (Branch.rootsAll [b]) := by
  refine (attach_yields hs hc hcond).bind fun t i hst hi => ?_
  refine (absorb_yields (hst.sound hs) (hst.count ▸ hc) fun st h => (hbody st h).mono hst).bind
    fun u stmts htu hstmts => .pure ?_
  simp only [Branch.rootsAll, List.append_nil]
  exact holds_cons.mpr ⟨hi.mono htu, hstmts⟩

theorem switchCase_yields (hs : s.Sound) (hc : c < s.contexts.size)
    {arm : Operand × List Statement} (hvalue : s.HoldsOperand arm.1)
    (hbody : ∀ st ∈ arm.2, s.HoldsStatement st) :
    s.Yields (switchCase c arm) fun t b => t.Holds c (SwitchCase.rootsAll [b]) := by
  refine (attach_yields hs hc hvalue).bind fun t i hst hi => ?_
  refine (absorb_yields (hst.sound hs) (hst.count ▸ hc) fun st h => (hbody st h).mono hst).bind
    fun u stmts htu hstmts => .pure ?_
  simp only [SwitchCase.rootsAll, List.append_nil]
  exact holds_cons.mpr ⟨hi.mono htu, hstmts⟩

theorem holds_branches {arms : List Branch} (hc : c < s.contexts.size)
    (h : ∀ b ∈ arms, s.Holds c (Branch.rootsAll [b])) : s.Holds c (Branch.rootsAll arms) := by
  induction arms with
  | nil => exact ⟨hc, by simp [Branch.rootsAll]⟩
  | cons b rest ih =>
    rw [← List.singleton_append, Branch.rootsAll_append, holds_append]
    exact ⟨h b (by simp), ih fun other ho => h other (by simp [ho])⟩

theorem holds_cases {arms : List SwitchCase} (hc : c < s.contexts.size)
    (h : ∀ b ∈ arms, s.Holds c (SwitchCase.rootsAll [b])) : s.Holds c (SwitchCase.rootsAll arms) := by
  induction arms with
  | nil => exact ⟨hc, by simp [SwitchCase.rootsAll]⟩
  | cons b rest ih =>
    rw [← List.singleton_append, SwitchCase.rootsAll_append, holds_append]
    exact ⟨h b (by simp), ih fun other ho => h other (by simp [ho])⟩

theorem absorb_else_yields (hs : s.Sound) {arms : List Branch}
    (harms : s.Holds c (Branch.rootsAll arms))
    {body : List Statement} (hbody : ∀ st ∈ body, s.HoldsStatement st) :
    s.Yields (absorb c body) fun t stmts =>
      t.Holds c (Branch.rootsAll (arms ++ [⟨none, stmts⟩])) := by
  refine (absorb_yields hs harms.1 hbody).imp fun t stmts hst hstmts => ?_
  rw [Branch.rootsAll_append, holds_append]
  exact ⟨harms.mono hst, by simpa [Branch.rootsAll] using hstmts⟩

theorem ifChain_yields (hs : s.Sound) (hc : c < s.contexts.size)
    {first : Operand × List Statement} {others : List (Operand × List Statement)}
    (harms : ∀ arm ∈ first :: others, s.HoldsOperand arm.1 ∧ ∀ st ∈ arm.2, s.HoldsStatement st)
    {otherwise : Option (List Statement)}
    (hother : ∀ body, otherwise = some body → ∀ st ∈ body, s.HoldsStatement st) :
    s.Yields (ifChain c first others otherwise) fun t st => t.HoldsStatement st := by
  have hbranches := Yields.mapM (s := s) (f := branch c)
    (q := fun t b => t.Holds c (Branch.rootsAll [b])) (fun t u b htu h => h.mono htu)
    fun arm ha t hst => branch_yields (hst.sound hs) (hst.count ▸ hc) ((harms arm ha).1.mono hst)
      fun st h => ((harms arm ha).2 st h).mono hst
  refine hbranches.bind fun t arms hst harms => ?_
  have harms := holds_branches (hst.count ▸ hc) harms.2
  cases otherwise with
  | none => exact .pure harms
  | some body =>
    exact (absorb_else_yields (hst.sound hs) harms fun st h => (hother body rfl st h).mono hst).bind
      fun _ _ _ h => .pure h

theorem absorb_default_yields (hs : s.Sound) {subject : NodeId} {cases : List SwitchCase}
    (hcases : s.Holds c (subject :: SwitchCase.rootsAll cases)) {body : List Statement}
    (hbody : ∀ st ∈ body, s.HoldsStatement st) :
    s.Yields (absorb c body) fun t stmts =>
      t.Holds c (subject :: (SwitchCase.rootsAll cases ++ Stmt.rootsAll stmts)) := by
  refine (absorb_yields hs hcases.1 hbody).imp fun t stmts hst hstmts => ?_
  rw [← List.cons_append, holds_append]
  exact ⟨hcases.mono hst, hstmts⟩

theorem switch_yields (hs : s.Sound) (hc : c < s.contexts.size) {subject : Operand}
    (hsubject : s.HoldsOperand subject) {cases : List (Operand × List Statement)}
    (harms : ∀ arm ∈ cases, s.HoldsOperand arm.1 ∧ ∀ st ∈ arm.2, s.HoldsStatement st)
    {default : Option (List Statement)}
    (hdefault : ∀ body, default = some body → ∀ st ∈ body, s.HoldsStatement st) :
    s.Yields (switch c subject cases default) fun t st => t.HoldsStatement st := by
  refine (attach_yields hs hc hsubject).bind fun t id hst hid => ?_
  have hct : c < t.contexts.size := hst.count ▸ hc
  have hcases := Yields.mapM (s := t) (f := switchCase c)
    (q := fun t b => t.Holds c (SwitchCase.rootsAll [b])) (fun t u b htu h => h.mono htu)
    fun arm ha u htu => switchCase_yields ((hst.trans htu).sound hs) (htu.count ▸ hct)
      ((harms arm ha).1.mono (hst.trans htu)) fun st h => ((harms arm ha).2 st h).mono (hst.trans htu)
  refine hcases.bind fun u arms htu harms => ?_
  have hsu := hst.trans htu
  have harms : u.Holds c (id :: SwitchCase.rootsAll arms) :=
    holds_cons.mpr ⟨hid.mono htu, holds_cases (hsu.count ▸ hc) harms.2⟩
  cases default with
  | none => exact .pure harms
  | some body =>
    exact (absorb_default_yields (hsu.sound hs) harms
      fun st h => (hdefault body rfl st h).mono hsu).bind fun _ _ _ h => .pure h

theorem function_yields (hs : s.Sound) (hc : c < s.contexts.size) (signature : Signature)
    (params : List Slot) {body : List Statement} (hbody : ∀ st ∈ body, s.HoldsStatement st) :
    s.Yields (function c signature params body) fun t st => t.HoldsStatement st :=
  (absorb_yields hs hc hbody).bind fun _ _ _ hstmts => .pure hstmts

end

end Session

end KernelForge
