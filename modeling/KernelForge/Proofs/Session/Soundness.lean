import KernelForge.Proofs.Session.Steps

/-!
# Soundness of sessions

Whatever actions are performed on a session, and in whatever order, its contexts stay sound: nodes
name older nodes only, calls keep the arguments that they were given, and every name of a table
leads to a named variable that no other name leads to. As long as no update changes a name, a table
lists the named variables of its context exactly.
-/
namespace KernelForge

namespace Session

/-! ## Updates -/

section

variable {s : Session} {h : Handle} {v w : Variable}

theorem context_overwrite (hh : s.Holds h.context [h.node]) (d : Nat) :
    (s.overwrite h w).context d =
      if h.context = d then
        { s.context h.context with
          arena := (s.context h.context).arena.overwrite h.node (.leaf w) }
      else s.context d :=
  context_replace hh.1 _ d

theorem holds_overwrite (hh : s.Holds h.context [h.node]) {c : Nat} {ids : List NodeId} :
    (s.overwrite h w).Holds c ids ↔ s.Holds c ids := by
  have hsize : ((s.overwrite h w).context c).arena.size = (s.context c).arena.size := by
    rw [context_overwrite hh]
    split_ifs with hd
    · rw [hd]
      exact Arena.size_overwrite ..
    · rfl
  have hcount : (s.overwrite h w).contexts.size = s.contexts.size := size_replace ..
  simp only [Holds, hsize, hcount]

theorem holdsAnswer_overwrite (hh : s.Holds h.context [h.node]) {answer : Answer} :
    (s.overwrite h w).HoldsAnswer answer ↔ s.HoldsAnswer answer := by
  cases answer with
  | handle a => exact holds_overwrite hh
  | statement st =>
    obtain ⟨origin, stmt⟩ := st
    cases origin with
    | none => exact Iff.rfl
    | some c => exact holds_overwrite hh
  | chain c arms => exact holds_overwrite hh
  | switch c subject cases => exact holds_overwrite hh
  | _ => exact Iff.rfl

theorem Sound.overwrite (hs : s.Sound) (hh : s.Holds h.context [h.node])
    (hv : s.content? h = some v) (hw : w.name?.isSome) : (s.overwrite h w).Sound := by
  intro d
  rw [context_overwrite hh]
  split_ifs
  · exact (hs h.context).update hv hw
  · exact hs d

theorem calls_overwrite (hh : s.Holds h.context [h.node]) (hv : s.content? h = some v) {c : Nat}
    {id : NodeId} {callee : Signature} {ids : List NodeId}
    (hcalls : (s.context c).Calls id callee ids) :
    ((s.overwrite h w).context c).Calls id callee ids := by
  rw [context_overwrite hh]
  split_ifs with hd
  · subst hd
    obtain ⟨range, hnode, hlist⟩ := hcalls
    have hne : h.node.index ≠ id.index := by
      intro heq
      obtain rfl := NodeId.eq_of_index_eq heq
      have hleaf := Arena.content?_eq_some_iff.mp hv
      simp [hnode] at hleaf
    refine ⟨range, ?_, hlist⟩
    rw [Arena.get?_overwrite, if_neg hne]
    exact hnode
  · exact hcalls

theorem replace_context (s : Session) (c : Nat) : s.replace c (s.context c) = s := by
  have hsame : s.contexts.setIfInBounds c (s.context c) = s.contexts := by
    refine Array.ext (by simp) fun i hi _ => ?_
    rw [Array.getElem_setIfInBounds]
    split_ifs with hci
    · subst hci
      simp only [Array.size_setIfInBounds] at hi
      simp [context, hi]
    · rfl
  simp only [replace, hsame]

/-- An update has an effect if it is asked of the handle's own context and puts one named variable in
the place of another. -/
def Permits (s : Session) (c : Nat) (h : Handle) (change : Variable → Variable) : Prop :=
  h.context = c ∧ ∃ v, s.content? h = some v ∧ v.name?.isSome ∧ (change v).name?.isSome

/-- An update without effect is refused and leaves the session as it was. -/
theorem modifyVariable_of_not_permits {c : Nat} {change : Variable → Variable}
    (hp : ¬ s.Permits c h change) :
    modifyVariable c h change s =
      (.error (if h.context = c then .notAVariable h.node else .foreignHandle h.node), s) := by
  by_cases hc : h.context = c
  · subst hc
    have herror : (s.context h.context).modifyVariable h.node change = .error (.notAVariable h.node) :=
      Context.modifyVariable_eq_error fun hv => hp ⟨rfl, hv⟩
    simp only [modifyVariable, if_true, onContext_apply, herror, replace_context]
  · simp only [modifyVariable, hc, if_false]
    rfl

theorem modifyVariable_of_permits {c : Nat} {change : Variable → Variable}
    (hp : s.Permits c h change) :
    ∃ v, s.content? h = some v ∧ v.name?.isSome ∧ (change v).name?.isSome ∧
      modifyVariable c h change s = (.ok (), s.overwrite h (change v)) := by
  obtain ⟨rfl, v, hv, hn, hw⟩ := hp
  refine ⟨v, hv, hn, hw, ?_⟩
  have hok := Context.modifyVariable_eq_ok_iff.mpr ⟨v, hv, hn, hw, rfl⟩
  simp only [modifyVariable, if_true, onContext_apply, hok]
  rfl

theorem modifyVariable_eq_ok_iff {c : Nat} {change : Variable → Variable} :
    (modifyVariable c h change s).1 = .ok () ↔ s.Permits c h change := by
  by_cases hp : s.Permits c h change
  · obtain ⟨v, -, -, -, heq⟩ := modifyVariable_of_permits hp
    simp [heq, hp]
  · simp [modifyVariable_of_not_permits hp, hp]

end

end Session

/-- Below the roots, every call of the one context has an image that calls the same with the images
of the arguments. -/
def Session.CopiesCalls (s : Session) (origin : Nat) (roots : List NodeId)
    (image : NodeId → NodeId) (target : Context) : Prop :=
  ∀ root ∈ roots, ∀ id callee ids, (s.context origin).arena.Reaches root id →
    (s.context origin).Calls id callee ids → target.Calls (image id) callee (ids.map image)

namespace Workspace

variable {w : Workspace}

/-- An update names what is not there, or it is what the session makes of it. -/
theorem step_update (w : Workspace) (c a : Nat) (change : Variable → Variable) :
    w.step (.update c a change) = ⟨w.session, w.answers ++ [.nothing]⟩ ∨
    ∃ h, w.handle? a = some h ∧ w.step (.update c a change) =
      ⟨(Session.modifyVariable c h change w.session).2,
        w.answers ++ [ofUpdate (Session.modifyVariable c h change w.session).1]⟩ := by
  cases hb : w.build? (.update c a change) with
  | none => exact Or.inl (by simp only [step, hb])
  | some build =>
    obtain ⟨-, hbuild⟩ := bind_context? hb
    obtain ⟨h, hh, hbuild⟩ := Option.bind_eq_some_iff.mp hbuild
    obtain rfl := Option.some.inj hbuild
    refine Or.inr ⟨h, hh, ?_⟩
    simp only [step, hb]
    rfl

/-- Every action adds its answer. It lets the contexts grow, or it is an update that succeeds. -/
theorem step_cases (hw : w.Valid) (action : Action) :
    (∃ answer, (w.step action).answers = w.answers ++ [answer] ∧
      w.session.Grows (w.step action).session ∧
      (w.step action).session.HoldsAnswer answer) ∨
    ∃ c a change h v, action = .update c a change ∧ w.handle? a = some h ∧
      w.session.content? h = some v ∧ v.name?.isSome ∧ (change v).name?.isSome ∧
      w.step action = ⟨w.session.overwrite h (change v), w.answers ++ [.nothing]⟩ := by
  by_cases hupdate : ∃ c a change, action = .update c a change
  · obtain ⟨c, a, change, rfl⟩ := hupdate
    rcases w.step_update c a change with heq | ⟨h, hh, heq⟩
    · rw [heq]
      exact Or.inl ⟨.nothing, rfl, .refl _, trivial⟩
    · by_cases hp : w.session.Permits c h change
      · obtain ⟨v, hv, hn, hn', hrun⟩ := Session.modifyVariable_of_permits hp
        exact Or.inr ⟨c, a, change, h, v, rfl, hh, hv, hn, hn', by rw [heq, hrun]; rfl⟩
      · rw [heq, Session.modifyVariable_of_not_permits hp]
        exact Or.inl ⟨_, rfl, .refl _, trivial⟩
  · cases hb : w.build? action with
    | none =>
      refine Or.inl ⟨.nothing, ?_⟩
      simp only [step, hb]
      exact ⟨trivial, .refl _, trivial⟩
    | some build =>
      obtain ⟨hgrows, hanswer⟩ :=
        build?_yields hw (fun c a change he => hupdate ⟨c, a, change, he⟩) hb
      refine Or.inl ⟨(build w.session).1, ?_⟩
      simp only [step, hb]
      exact ⟨rfl, hgrows, hanswer⟩

theorem step_valid (hw : w.Valid) (action : Action) : (w.step action).Valid := by
  rcases step_cases hw action with
    ⟨answer, hanswers, hgrows, hanswer⟩ | ⟨c, a, change, h, v, -, hh, hv, -, hn, heq⟩
  · refine ⟨hgrows.sound hw.sound, fun other ho => ?_⟩
    rw [hanswers, List.mem_append, List.mem_singleton] at ho
    rcases ho with ho | rfl
    · exact (hw.holds other ho).mono hgrows
    · exact hanswer
  · have hh := handle?_holds hw hh
    rw [heq]
    refine ⟨hw.sound.overwrite hh hv hn, fun other ho => ?_⟩
    refine (Session.holdsAnswer_overwrite hh).mpr ?_
    rcases List.mem_append.mp ho with ho | ho
    · exact hw.holds other ho
    · obtain rfl := List.mem_singleton.mp ho
      trivial

theorem run_valid (hw : w.Valid) (actions : List Action) : (w.run actions).Valid := by
  induction actions generalizing w with
  | nil => exact hw
  | cons action rest ih => exact ih (step_valid hw action)

theorem context_new (role : Role) (provenances : List String) (c : Nat) :
    ∃ provenance, (Session.new role provenances).context c = .new provenance := by
  simp only [Session.context, Session.new, List.getElem?_toArray, List.getElem?_map]
  cases provenances[c]? with
  | none => exact ⟨"", rfl⟩
  | some provenance => exact ⟨provenance, rfl⟩

theorem valid_new (role : Role) (provenances : List String) : (new role provenances).Valid := by
  refine ⟨fun c => ?_, by simp [new]⟩
  obtain ⟨provenance, heq⟩ := context_new role provenances c
  exact heq ▸ Context.sound_new provenance

theorem step_calls (hw : w.Valid) (action : Action) {c : Nat} {id : NodeId} {callee : Signature}
    {ids : List NodeId} (hcalls : (w.session.context c).Calls id callee ids) :
    ((w.step action).session.context c).Calls id callee ids := by
  rcases step_cases hw action with ⟨-, -, hgrows, -⟩ | ⟨_, _, _, h, v, -, hh, hv, -, -, heq⟩
  · exact (hgrows.context c).calls hcalls
  · rw [heq]
    exact Session.calls_overwrite (handle?_holds hw hh) hv hcalls

theorem run_calls (hw : w.Valid) (actions : List Action) {c : Nat} {id : NodeId}
    {callee : Signature} {ids : List NodeId}
    (hcalls : (w.session.context c).Calls id callee ids) :
    ((w.run actions).session.context c).Calls id callee ids := by
  induction actions generalizing w with
  | nil => exact hcalls
  | cons action rest ih => exact ih (step_valid hw action) (step_calls hw action hcalls)

/-- The action is no update that changes the name of a variable. -/
def KeepsNames (w : Workspace) : Action → Prop
  | .update _ a change => ∀ h v m n, w.handle? a = some h → w.session.content? h = some v →
      v.name? = some m → (change v).name? = some n → m = n
  | _ => True

theorem step_tabled (hw : w.Valid) {action : Action} (hkeeps : w.KeepsNames action)
    (ht : ∀ c, (w.session.context c).Tabled) (c : Nat) :
    ((w.step action).session.context c).Tabled := by
  rcases step_cases hw action with
    ⟨-, -, hgrows, -⟩ | ⟨d, a, change, h, v, rfl, hh, hv, hn, hn', heq⟩
  · exact (hgrows.context c).tabled (hw.sound c) (ht c)
  · have hname : (change v).name? = v.name? := by
      obtain ⟨m, hm⟩ := Option.isSome_iff_exists.mp hn
      obtain ⟨n, hm'⟩ := Option.isSome_iff_exists.mp hn'
      rw [hm, hm', hkeeps h v m n hh hv hm hm']
    rw [heq, Session.context_overwrite (handle?_holds hw hh)]
    split_ifs
    · exact (ht h.context).update hv hname
    · exact ht c

theorem run_tabled (hw : w.Valid) {actions : List Action}
    (hkeeps : ∀ before action after, actions = before ++ action :: after →
      (w.run before).KeepsNames action)
    (ht : ∀ c, (w.session.context c).Tabled) (c : Nat) :
    ((w.run actions).session.context c).Tabled := by
  induction actions generalizing w with
  | nil => exact ht c
  | cons action rest ih =>
    refine ih (step_valid hw action) ?_ (step_tabled hw (hkeeps [] action rest rfl) ht)
    rintro before other after rfl
    exact hkeeps (action :: before) other after rfl

/-! ## Calls and their arguments -/

theorem answers_step (w : Workspace) (action : Action) :
    ∃ answer, (w.step action).answers = w.answers ++ [answer] := by
  unfold step
  split
  · exact ⟨_, rfl⟩
  · exact ⟨_, rfl⟩

theorem length_answers_run (w : Workspace) (actions : List Action) :
    (w.run actions).answers.length = w.answers.length + actions.length := by
  induction actions generalizing w with
  | nil => rfl
  | cons action rest ih =>
    obtain ⟨answer, hanswer⟩ := answers_step w action
    simp only [run_cons, ih, hanswer, List.length_append, List.length_cons, List.length_nil]
    omega

/-- What was answered once stays the answer. -/
theorem answers_run (w : Workspace) (actions : List Action) :
    ∃ more, (w.run actions).answers = w.answers ++ more := by
  induction actions generalizing w with
  | nil => exact ⟨[], (List.append_nil _).symm⟩
  | cons action rest ih =>
    obtain ⟨answer, hanswer⟩ := answers_step w action
    obtain ⟨more, hmore⟩ := ih (w.step action)
    exact ⟨answer :: more, by rw [run_cons, hmore, hanswer, List.append_assoc]; rfl⟩

/-- A call that succeeds has the arguments that were taken in for it. -/
theorem step_call (hw : w.Valid) {c : Nat} {callee : Signature} {args : List Argument}
    {operands : List Operand} (hargs : args.mapM w.operand? = some operands) {h : Handle}
    (hanswer : (w.step (.call c callee args)).answers[w.answers.length]? = some (.handle h)) :
    ((w.step (.call c callee args)).session.context c).Calls h.node callee
      (operands.mapM (Session.attach c) w.session).1 := by
  cases hc : w.context? c with
  | none =>
    have hb : w.build? (.call c callee args) = none := by simp [build?, hc]
    simp [step, hb] at hanswer
  | some d =>
    obtain ⟨rfl, hlt⟩ := context?_lt hc
    have hb : w.build? (.call d callee args) =
        some (ofCall <$> Session.call d callee operands) := by
      simp [build?, hc, hargs]
    have hstep : w.step (.call d callee args) =
        ⟨(Session.call d callee operands w.session).2,
          w.answers ++ [ofCall (Session.call d callee operands w.session).1]⟩ := by
      simp only [step, hb]
      rfl
    rw [hstep] at hanswer ⊢
    obtain ⟨-, hok, -⟩ := Session.call_yields hw.sound hlt callee (operands_holds hw hargs)
    have hofCall : ofCall (Session.call d callee operands w.session).1 = .handle h := by
      simpa using hanswer
    cases hr : (Session.call d callee operands w.session).1 with
    | error e => simp [hr, ofCall] at hofCall
    | ok a =>
      obtain rfl : a = h := by simpa [hr, ofCall] using hofCall
      exact (hok a hr).2.2

/-! ## All together -/

/-- After any actions, every node of every context names older nodes that are there, every argument
range is stored, the calls that were asked for have the arguments that were taken in for them, the
calls that were copied have the copies of their arguments, no call ever changes, and every name of
the table leads to a named variable of its own. If no update changed a name, the names of the table
are those of the named variables, each at its node. -/
theorem run_sound (role : Role) (provenances : List String) (actions : List Action) :
    let w := (new role provenances).run actions
    (∀ c id node o, (w.session.context c).arena.get? id = some node →
      o ∈ (w.session.context c).arena.operands node →
        o.index < id.index ∧ ((w.session.context c).arena.get? o).isSome) ∧
    (∀ c id callee range, (w.session.context c).arena.get? id = some (.call callee range) →
      ((w.session.context c).arena.list? range).isSome) ∧
    (∀ before c callee args after, actions = before ++ .call c callee args :: after →
      let v := (new role provenances).run before
      ∀ operands, args.mapM v.operand? = some operands →
        ∀ h, w.answers[before.length]? = some (.handle h) →
          (w.session.context c).Calls h.node callee
            (operands.mapM (Session.attach c) v.session).1) ∧
    (∀ s, w.session.Grows s → ∀ c h, c < s.contexts.size → s.HoldsOperand (.handle h) →
      h.context ≠ c → ∃ image : NodeId → NodeId,
        (Session.attach c (.handle h) s).1 = image h.node ∧
        s.CopiesCalls h.context [h.node] image ((Session.attach c (.handle h) s).2.context c)) ∧
    (∀ s, w.session.Grows s → ∀ c origin stmt, c < s.contexts.size →
      s.HoldsStatement ⟨some origin, stmt⟩ → origin ≠ c → ∃ image : NodeId → NodeId,
        (Session.adopt c ⟨some origin, stmt⟩ s).1 = stmt.mapRoots image ∧
        s.CopiesCalls origin stmt.roots image
          ((Session.adopt c ⟨some origin, stmt⟩ s).2.context c)) ∧
    (∀ more c id callee ids, (w.session.context c).Calls id callee ids →
      ((w.run more).session.context c).Calls id callee ids) ∧
    (∀ c name id, (w.session.context c).lookup name = some id →
      ∃ v, (w.session.context c).arena.content? id = some v ∧ v.name?.isSome) ∧
    (∀ c m n id, (w.session.context c).lookup m = some id →
      (w.session.context c).lookup n = some id → m = n) ∧
    ((∀ before action after, actions = before ++ action :: after →
        ((new role provenances).run before).KeepsNames action) →
      ∀ c name id, (w.session.context c).lookup name = some id ↔
        ∃ v, (w.session.context c).arena.content? id = some v ∧ v.name? = some name) := by
  intro w
  have hw : w.Valid := run_valid (valid_new role provenances) actions
  refine ⟨?_, ?_, ?_, ?_, ?_, ?_, ?_, ?_, ?_⟩
  · intro c id node o hnode ho
    have hs := (hw.sound c).arena
    exact ⟨hs.older id node o hnode ho, hs.operand_resolves hnode ho⟩
  · intro c id callee range hnode
    obtain ⟨ids, hids, -⟩ := (hw.sound c).arena.stored id callee range hnode
    simp [hids]
  · rintro before c callee args after rfl v operands hargs h hanswer
    have hv : v.Valid := run_valid (valid_new role provenances) before
    have hlen : v.answers.length = before.length := by
      simp [v, length_answers_run, new]
    have hrun : w = (v.step (.call c callee args)).run after := by
      simp only [w, v, run_append, run_cons]
    -- the answer is that of the call itself, since later actions only add answers
    obtain ⟨more, hmore⟩ := answers_run (v.step (.call c callee args)) after
    obtain ⟨answer, hstep⟩ := answers_step v (.call c callee args)
    rw [hrun, hmore, ← hlen, List.getElem?_append_left (by simp [hstep])] at hanswer
    rw [hrun]
    exact run_calls (step_valid hv _) after (step_call hv hargs hanswer)
  · intro s hgrows c h hc hh hne
    obtain ⟨m, hm, heq⟩ := Session.attach_foreign (hgrows.sound hw.sound) hh hne
    refine ⟨m.copies.image, by rw [heq], fun root hroot id callee ids hid hcalls => ?_⟩
    rw [heq, Session.context_replace hc, if_pos rfl]
    exact hm.calls hroot hid hcalls
  · intro s hgrows c origin stmt hc hst hne
    obtain ⟨m, hm, heq⟩ := Session.adopt_foreign (hgrows.sound hw.sound) hst hne
    refine ⟨m.copies.image, by rw [heq], fun root hroot id callee ids hid hcalls => ?_⟩
    rw [heq, Session.context_replace hc, if_pos rfl]
    exact hm.calls hroot hid hcalls
  · exact fun more c id callee ids hcalls => run_calls hw more hcalls
  · exact fun c => (hw.sound c).symbol
  · exact fun c => (hw.sound c).injective
  · intro hkeeps
    refine run_tabled (valid_new role provenances) hkeeps fun c => ?_
    obtain ⟨provenance, heq⟩ := context_new role provenances c
    exact heq ▸ Context.tabled_new provenance

end Workspace

end KernelForge
