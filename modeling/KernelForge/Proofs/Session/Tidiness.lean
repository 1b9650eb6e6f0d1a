import KernelForge.Proofs.Session.Soundness
import KernelForge.Proofs.Session.TermCopy
import KernelForge.Proofs.Stmt.Tidy

/-!
# Tidiness of sessions

Two things that every operation keeps, an update and a refused one among them. The leaves of a
context are constants, parameters and variables with names. And the statements that are answered are
tidy, whatever they were put together from.
-/
namespace KernelForge

/-- A constant, a parameter or a variable with a name. -/
def Variable.Proper : Variable → Prop
  | literal _ | slot _ => True
  | v => v.name?.isSome

theorem Variable.proper_of_name? {v : Variable} (h : v.name?.isSome) : v.Proper := by
  cases v <;> first | exact h | trivial

theorem Variable.Proper.declaration?_isSome_iff {v : Variable} (h : v.Proper) :
    v.declaration?.isSome ↔ ∀ l, v ≠ .literal l := by
  cases v with
  | literal l => simp [declaration?]
  | slot s => simp [declaration?]
  | _ => exact iff_of_true (declaration?_isSome_of_name? h) (by simp)

def Arena.Proper (a : Arena) : Prop := ∀ id v, a.content? id = some v → v.Proper

/-! ## Contexts -/

namespace Context

def Proper (c : Context) : Prop := c.arena.Proper

theorem proper_new (provenance : String) : (Context.new provenance).Proper := by
  simp [Proper, Arena.Proper, Context.new, Arena.empty, Arena.content?, Arena.get?]

theorem Proper.alloc {c : Context} (h : c.Proper) {node : Node}
    (hnode : ∀ v, node.content? = some v → v.Proper) : (c.alloc node).2.Proper := by
  intro id v hv
  have hv := (Arena.content?_alloc c.arena node id).symm.trans hv
  split_ifs at hv
  · exact hnode v hv
  · exact h id v hv

theorem Proper.enter {c : Context} (h : c.Proper) (name : String) {v : Variable}
    (hv : v.name?.isSome) : (c.enter name v).2.Proper :=
  have halloc : (c.alloc (.leaf v)).2.Proper :=
    h.alloc (by rintro w ⟨⟩; exact Variable.proper_of_name? hv)
  halloc

theorem Proper.intern {c : Context} (h : c.Proper) (name : String) (shape : Shape) :
    (c.intern name shape).2.Proper := by
  unfold Context.intern
  split
  · exact h
  · exact h.enter name (by simp [Shape.name?_named])

theorem Proper.tryIntern {c : Context} (h : c.Proper) (name : String) (shape : Shape) :
    (c.tryIntern name shape).2.Proper := by
  simp only [Context.tryIntern]
  split
  · exact h.enter name (by simp [Shape.name?_named])
  · split
    · exact h
    · split_ifs <;> exact h

theorem Proper.receive {c : Context} (h : c.Proper) {v : Variable} (hv : v.Proper) :
    (c.receive v).2.Proper := by
  unfold Context.receive
  split
  · exact h.alloc (by rintro w ⟨⟩; exact hv)
  · rename_i name hn
    split
    · exact h
    · exact h.enter name (by simp [hn])

theorem Proper.modifyVariable {c d : Context} (h : c.Proper) {id : NodeId}
    {change : Variable → Variable} (hd : c.modifyVariable id change = .ok d) : d.Proper := by
  obtain ⟨v, hv, -, hn, rfl⟩ := modifyVariable_eq_ok_iff.mp hd
  intro other w hw
  rw [Arena.content?_overwrite other _ hv] at hw
  split_ifs at hw
  · obtain rfl := Option.some.inj hw
    exact Variable.proper_of_name? hn
  · exact h other w hw

end Context

namespace Copying

section

variable {source : Arena} (hs : source.Proper)
include hs

theorem step_proper {m : Copying} (hm : m.target.Proper) (id : NodeId) :
    (step source m id).target.Proper := by
  unfold step
  cases hnode : source.get? id with
  | none => exact hm
  | some node =>
    -- what is no leaf is appended
    have hplain : ∀ n : Node, n.content? = none → (m.target.alloc n).2.Proper :=
      fun n hn => hm.alloc (by simp [hn])
    cases node with
    | leaf v => exact hm.receive (hs id v (by simp [Arena.content?, hnode, Node.content?]))
    | call callee range => exact hplain _ rfl
    | _ => exact hplain _ rfl

theorem copyAll_proper {m : Copying} (hm : m.target.Proper) (roots : List NodeId) :
    (copyAll source m roots).target.Proper := by
  have hfold : ∀ (order : List NodeId) (m : Copying), m.target.Proper →
      (order.foldl (step source) m).target.Proper := by
    intro order
    induction order with
    | nil => exact fun _ hm => hm
    | cons id rest ih => exact fun m hm => ih _ (step_proper hs hm id)
  induction roots generalizing m with
  | nil => exact hm
  | cons root rest ih => exact ih (hfold _ m hm)

end

mutual

/-- A copy has the blocks of the original. -/
theorem skeleton_stmt (source : Arena) : ∀ (s : Stmt) (m : Copying),
    (stmt source s m).1.skeleton = s.skeleton
  | .expr id, m | .comment text, m | .includeFile path, m => rfl
  | .forLoop init cond step body, m => by
    simp only [stmt, bind_apply, pure_apply, Stmt.skeleton, Stmt.outline,
      skeleton_stmts source body]
  | .whileLoop cond body, m => by
    simp only [stmt, bind_apply, pure_apply, Stmt.skeleton, Stmt.outline,
      skeleton_stmts source body]
  | .ifChain arms, m => by
    simp only [stmt, bind_apply, pure_apply, Stmt.skeleton, Stmt.outline,
      skeleton_branches source arms]
  | .switch subject arms none, m => by
    simp only [stmt, bind_apply, pure_apply, Stmt.skeleton, Stmt.outline,
      skeleton_cases source arms]
  | .switch subject arms (some body), m => by
    simp only [stmt, bind_apply, pure_apply, Stmt.skeleton, Stmt.outline,
      skeleton_cases source arms, skeleton_stmts source body]
  | .function signature params body, m => by
    simp only [stmt, bind_apply, pure_apply, Stmt.skeleton, Stmt.outline,
      skeleton_stmts source body]

theorem skeleton_stmts (source : Arena) : ∀ (ss : List Stmt) (m : Copying),
    Stmt.outlineAll (fun _ => ()) (stmts source ss m).1 = Stmt.outlineAll (fun _ => ()) ss
  | [], m => rfl
  | s :: rest, m => by
    have hs := skeleton_stmt source s m
    simp only [Stmt.skeleton] at hs
    simp only [stmts, bind_apply, pure_apply, Stmt.outlineAll, hs, skeleton_stmts source rest]

theorem skeleton_branches (source : Arena) : ∀ (arms : List Branch) (m : Copying),
    Branch.outlineAll (fun _ => ()) (branches source arms m).1 = Branch.outlineAll (fun _ => ()) arms
  | [], m => rfl
  | ⟨none, body⟩ :: rest, m | ⟨some cond, body⟩ :: rest, m => by
    simp only [branches, bind_apply, pure_apply, Branch.outlineAll, Option.map_some,
      Option.map_none, skeleton_stmts source body, skeleton_branches source rest]

theorem skeleton_cases (source : Arena) : ∀ (arms : List SwitchCase) (m : Copying),
    SwitchCase.outlineAll (fun _ => ()) (cases source arms m).1 =
      SwitchCase.outlineAll (fun _ => ()) arms
  | [], m => rfl
  | ⟨value, body⟩ :: rest, m => by
    simp only [cases, bind_apply, pure_apply, SwitchCase.outlineAll, skeleton_stmts source body,
      skeleton_cases source rest]

end

end Copying

/-! ## Builds -/

namespace Session

def Proper (s : Session) : Prop := ∀ c, (s.context c).Proper

/-- Whatever the session is, the build keeps it proper and its answer meets `q`. -/
def Keeps {α : Type} (m : Build α) (q : α → Prop) : Prop :=
  ∀ s : Session, s.Proper → (m s).2.Proper ∧ q (m s).1

section

variable {α β : Type} {m : Build α}

theorem Keeps.pure {q : α → Prop} {a : α} (h : q a) : Keeps (pure a) q := fun _ hs => ⟨hs, h⟩

theorem Keeps.bind {p : α → Prop} {q : β → Prop} {f : α → Build β} (hm : Keeps m p)
    (hf : ∀ a, p a → Keeps (f a) q) : Keeps (m >>= f) q := by
  intro s hs
  obtain ⟨hs', hp⟩ := hm s hs
  exact hf _ hp _ hs'

theorem Keeps.map {q : β → Prop} {f : α → β} (hm : Keeps m fun a => q (f a)) :
    Keeps (f <$> m) q := hm

theorem Keeps.get : Keeps (get : Build Session) Proper := fun _ hs => ⟨hs, hs⟩

theorem Keeps.mapM {q : β → Prop} {f : α → Build β} {xs : List α}
    (h : ∀ x ∈ xs, Keeps (f x) q) :
    Keeps (xs.mapM f) fun ys => ys.length = xs.length ∧ ∀ y ∈ ys, q y := by
  induction xs with
  | nil => exact .pure ⟨rfl, by simp⟩
  | cons x rest ih =>
    rw [List.mapM_cons]
    refine (h x (by simp)).bind fun y hy => (ih fun z hz => h z (by simp [hz])).bind fun ys hys => ?_
    exact .pure ⟨by simp [hys.1], by simpa using ⟨hy, hys.2⟩⟩

theorem Keeps.onContext {q : α → Prop} {c : Nat} {f : Context → α × Context}
    (h : ∀ ctx, ctx.Proper → (f ctx).2.Proper ∧ q (f ctx).1) : Keeps (onContext c f) q := by
  intro s hs
  obtain ⟨hctx, hq⟩ := h _ (hs c)
  rw [onContext_apply]
  refine ⟨fun d => ?_, hq⟩
  by_cases hc : c < s.contexts.size
  · rw [context_replace hc]
    split_ifs
    · exact hctx
    · exact hs d
  · have hsame : s.replace c (f (s.context c)).2 = s := by
      simp [replace, Array.setIfInBounds, hc]
    rw [hsame]
    exact hs d

end

section

variable {c : Nat}

theorem alloc_keeps {node : Node} (hnode : ∀ v, node.content? = some v → v.Proper) :
    Keeps (alloc c node) fun _ => True :=
  (Keeps.onContext (q := fun _ => True) fun _ hctx => ⟨hctx.alloc hnode, trivial⟩).bind
    fun _ _ => .pure trivial

theorem intern_keeps (name : String) (shape : Shape) : Keeps (intern c name shape) fun _ => True :=
  (Keeps.onContext (q := fun _ => True) fun _ hctx => ⟨hctx.intern name shape, trivial⟩).bind
    fun _ _ => .pure trivial

theorem tryIntern_keeps (name : String) (shape : Shape) :
    Keeps (tryIntern c name shape) fun _ => True :=
  (Keeps.onContext (q := fun _ => True) fun _ hctx => ⟨hctx.tryIntern name shape, trivial⟩).bind
    fun _ _ => .pure trivial

theorem modifyVariable_keeps (h : Handle) (change : Variable → Variable) :
    Keeps (modifyVariable c h change) fun _ => True := by
  unfold modifyVariable
  split_ifs
  · refine .onContext fun ctx hctx => ⟨?_, trivial⟩
    cases hm : ctx.modifyVariable h.node change with
    | error e => exact hctx
    | ok d => exact hctx.modifyVariable hm
  · exact .pure trivial

theorem attach_keeps (o : Operand) : Keeps (attach c o) fun _ => True := by
  cases o with
  | literal v =>
    exact .onContext fun ctx hctx => ⟨hctx.alloc (by rintro w ⟨⟩; trivial), trivial⟩
  | handle h =>
    simp only [attach]
    split_ifs
    · exact .pure trivial
    · refine Keeps.get.bind fun s hs => .onContext fun ctx hctx => ⟨?_, trivial⟩
      exact Copying.copyAll_proper (hs h.context) hctx [h.node]

theorem adopt_keeps {st : Statement} (h : st.stmt.skeleton.Tidy) :
    Keeps (adopt c st) fun s => s.skeleton.Tidy := by
  unfold adopt
  split
  · exact .pure h
  · rename_i origin _
    split_ifs
    · exact .pure h
    · refine Keeps.get.bind fun s hs => .onContext fun ctx hctx => ⟨?_, ?_⟩
      · have hcopied := Copying.copyAll_proper (hs origin) hctx st.stmt.roots
          (m := .start (s.context origin).arena ctx)
        rwa [← Copying.stmt_snd] at hcopied
      · exact (Copying.skeleton_stmt _ st.stmt _).symm ▸ h

theorem absorb_keeps {body : List Statement} (h : ∀ st ∈ body, st.stmt.skeleton.Tidy) :
    Keeps (absorb c body) fun ss => Outline.TidyAll (Stmt.outlineAll (fun _ => ()) ss) := by
  refine fun s hs => ?_
  obtain ⟨hs', -, hall⟩ := Keeps.mapM (fun st hst => adopt_keeps (c := c) (h st hst)) s hs
  refine ⟨hs', ?_⟩
  simp only [Stmt.outlineAll_eq_map, Outline.tidyAll_iff, List.forall_mem_map]
  exact hall

end

end Session

end KernelForge
