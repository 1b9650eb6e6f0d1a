import KernelForge.Proofs.Render.Layout
import KernelForge.Proofs.Store.Sharing

/-!
# The texts behind the answers

A store answers for the hash of a text. As long as no kernel of another text and the same hash was
stored, it answers for the text itself: what it has was stored since the directory was cleared last,
and the file that it names holds the text. There are two texts of one hash, and the store answers
for one of them with the other.
-/
namespace KernelForge

open StoreConfig FileTree

namespace Shared

/-- The actions of a run, each with its answer. -/
def trace (dir : Path) : Shared → List Action → List (Action × Answer)
  | _, [] => []
  | w, action :: rest =>
    (action, (w.perform dir action).1) :: trace dir (w.perform dir action).2 rest

theorem trace_append (dir : Path) (w : Shared) (actions more : List Action) :
    trace dir w (actions ++ more) = trace dir w actions ++ trace dir (w.run dir actions) more := by
  induction actions generalizing w with
  | nil => rfl
  | cons action rest ih => simp only [List.cons_append, trace, ih]; rfl

theorem map_fst_trace (dir : Path) (w : Shared) (actions : List Action) :
    (trace dir w actions).map Prod.fst = actions := by
  induction actions generalizing w with
  | nil => rfl
  | cons action rest ih => rw [trace, List.map_cons, ih]

/-- The directory was cleared. -/
def IsClear : Action × Answer → Prop
  | (.ask _ .clear, .reply (.cleared (.ok ()))) => True
  | _ => False

/-- A kernel was stored and the directory has not been cleared since. -/
def StoredSince (k : Kernel) (events : List (Action × Answer)) : Prop :=
  ∃ before after i, events = before ++ (.ask i (.put k), .reply (.added (.ok true))) :: after ∧
    ∀ e ∈ after, ¬ IsClear e

theorem StoredSince.append {k : Kernel} {events : List (Action × Answer)} {e : Action × Answer}
    (h : StoredSince k events) (he : ¬ IsClear e) : StoredSince k (events ++ [e]) := by
  obtain ⟨before, after, i, rfl, hafter⟩ := h
  refine ⟨before, after ++ [e], i, by simp, fun e' he' => ?_⟩
  rcases List.mem_append.mp he' with he' | he'
  · exact hafter e' he'
  · exact List.mem_singleton.mp he' ▸ he

theorem StoredSince.mem {k : Kernel} {dir : Path} {w : Shared} {actions : List Action}
    (h : StoredSince k (trace dir w actions)) : ∃ i, .ask i (.put k) ∈ actions := by
  obtain ⟨before, after, i, htrace, -⟩ := h
  refine ⟨i, ?_⟩
  rw [← map_fst_trace dir w actions, htrace]
  simp

end Shared

namespace Ledger

open Shared

theorem Answers.replies {L : Ledger} {dir : Path} {i : ℕ} {r : Store.Request} {a : Shared.Answer}
    {y : Store.Reply} (h : L.Answers dir (.ask i r) a) (ha : a = .reply y) : L.Replies dir r y := by
  subst ha
  rw [Answers] at h
  split_ifs at h
  · obtain ⟨y', hreply, heq⟩ := h
    exact Shared.Answer.reply.inj heq ▸ hreply

/-- What is in the ledger behind an action was stored by it, or it was there and stayed. -/
theorem stored_after {L : Ledger} {dir : Path} {action : Shared.Action} {a : Shared.Answer}
    (hanswer : L.Answers dir action a) {h : ContentHash} {k : Kernel}
    (hstored : (L.after action).stored h = some k) :
    (∃ i, (action, a) = (.ask i (.put k), .reply (.added (.ok true)))) ∨
      (L.stored h = some k ∧ ¬ IsClear (action, a)) := by
  cases action with
  | openStore => exact Or.inr ⟨hstored, id⟩
  | ask i r =>
    by_cases hi : i < L.opened
    · rw [after, if_pos hi] at hstored
      rw [Answers, if_pos hi] at hanswer
      obtain ⟨y, hreply, rfl⟩ := hanswer
      cases r with
      | put k' =>
        by_cases hadds : L.Adds k'
        · rw [Ledger.serve, if_pos hadds, stored_add] at hstored
          split_ifs at hstored
          · obtain rfl := Option.some.inj hstored
            rw [Replies, if_neg hadds.1, hadds.2] at hreply
            exact Or.inl ⟨i, by rw [hreply]; rfl⟩
          · exact Or.inr ⟨hstored, id⟩
        · rw [Ledger.serve, if_neg hadds] at hstored
          exact Or.inr ⟨hstored, id⟩
      | clear => cases hstored
      | _ => exact Or.inr ⟨hstored, id⟩
    · rw [after, if_neg hi] at hstored
      rw [Answers, if_neg hi] at hanswer
      subst hanswer
      exact Or.inr ⟨hstored, by simp [IsClear]⟩

/-- A kernel in the ledger was stored and is there since. -/
theorem storedSince_of_stored {base : FileTree} {dir : Path} {place : List String}
    (hb : base.Ready dir place) (hdir : dir.utf8ByteSize + 1 + longestFile ≤ longestPath)
    {actions : List Shared.Action}
    (hwritable : ∀ i k, .ask i (.put k) ∈ actions → Index.Writable k.provenance)
    (hroom : ∀ before, before <+: actions → (run before).HasRoom) {h : ContentHash} {k : Kernel}
    (hstored : (run actions).stored h = some k) :
    StoredSince k (trace dir ⟨base, []⟩ actions) := by
  induction actions using List.reverseRecOn with
  | nil => cases hstored
  | append_singleton before action ih =>
    have hwritable' : ∀ i k, .ask i (.put k) ∈ before → Index.Writable k.provenance :=
      fun i k hmem => hwritable i k (List.mem_append_left _ hmem)
    have hroom' : ∀ start, start <+: before → (run start).HasRoom :=
      fun start hstart => hroom start (hstart.trans (List.prefix_append _ _))
    have hrun : run (before ++ [action]) = (run before).after action := by
      rw [run, List.foldl_append]
      rfl
    have hperformed := perform_performed hb hdir (run_kept hb hdir hwritable' hroom') action
      (fun i k heq => hwritable i k (by simp [heq])) (hrun ▸ hroom _ (List.prefix_refl _))
    rw [trace_append]
    rw [hrun] at hstored
    rcases stored_after hperformed.answer hstored with ⟨i, hnew⟩ | ⟨hold, hclear⟩
    · exact ⟨_, [], i, by rw [trace, trace, hnew], by simp⟩
    · exact (ih hwritable' hroom' hold).append hclear

end Ledger

/-! ## A store with one kernel -/

namespace FileTree

/-- A tree with one directory, which is empty. -/
def emptyDir : FileTree := ⟨Table.empty.insert ["c"] .directory⟩

theorem ready_emptyDir : emptyDir.Ready "c" ["c"] := by
  refine ⟨⟨Or.inr rfl, rfl⟩, fun p hp => ?_⟩
  simp [node?, emptyDir, Table.get?_insert, hp]

end FileTree

namespace Ledger

/-- Where all kernels that are put have one hash, other hashes stay free. -/
theorem hasRoom_of_hash {actions : List Shared.Action} {h : ContentHash}
    (hputs : ∀ i k, .ask i (.put k) ∈ actions → Store.hashOf k = h) :
    ∀ before, before <+: actions → (run before).HasRoom := by
  intro before hbefore
  refine ⟨⟨h.value + 1⟩, stored_run_eq_none fun i k hmem heq => ?_⟩
  have hvalue : h.value = h.value + 1 :=
    congrArg ContentHash.value ((hputs i k (hbefore.subset hmem)).symm.trans heq)
  simp at hvalue

end Ledger

namespace Shared

/-- A store is opened and a kernel is put into it. -/
def firstPut (k : Kernel) : List Action := [.openStore, .ask 0 (.put k)]

theorem eq_of_mem_firstPut {i : ℕ} {k k' : Kernel} (h : .ask i (.put k') ∈ firstPut k) :
    k' = k := by
  simp [firstPut] at h
  exact h.2

/-- A directory in which one kernel was put has that one. -/
theorem kept_firstPut {base : FileTree} {dir : Path} {place : List String}
    (hready : base.Ready dir place) (hdir : dir.utf8ByteSize + 1 + longestFile ≤ longestPath)
    {k : Kernel} (hwritable : Index.Writable k.provenance) (horigin : k.provenance ≠ "") :
    (Ledger.add ⟨1, fun _ => none⟩ k).Kept base dir place
      (Shared.run dir ⟨base, []⟩ (firstPut k)) := by
  have hrun : Ledger.run (firstPut k) = Ledger.add ⟨1, fun _ => none⟩ k := if_pos ⟨horigin, rfl⟩
  exact hrun ▸ Ledger.run_kept hready hdir (fun i k' hk => eq_of_mem_firstPut hk ▸ hwritable)
    (Ledger.hasRoom_of_hash fun i k' hk => by rw [eq_of_mem_firstPut hk])

/-- A store that has one kernel answers for every kernel of the same hash as for that one. -/
theorem answers_of_firstPut {base : FileTree} {dir : Path} {place : List String}
    (hready : base.Ready dir place) (hdir : dir.utf8ByteSize + 1 + longestFile ≤ longestPath)
    (first second : Kernel) (hwritable : Index.Writable first.provenance)
    (horigin : first.provenance ≠ "") (hsecond : Index.Writable second.provenance)
    (horigin' : second.provenance ≠ "")
    (hhash : Store.hashOf first = Store.hashOf second) :
    let w := Shared.run dir ⟨base, []⟩ (firstPut first)
    (w.perform dir (.ask 0 (.contains second))).1 = .reply (.present true) ∧
    (w.perform dir (.ask 0 (.put second))).1 = .reply (.added (.ok false)) ∧
    (w.perform dir (.ask 0 (.get second))).1 =
      .reply (.found (.ok (some (dir.join first.entry.file)))) ∧
    (w.perform dir (.ask 0 (.get second))).2.tree.read (dir.join first.entry.file) =
      .ok (Text.Utf8.bytes first.source) := by
  intro w
  have hkept := kept_firstPut hready hdir hwritable horigin
  obtain ⟨L, hL⟩ : ∃ L, L = Ledger.add ⟨1, fun _ => none⟩ first := ⟨_, rfl⟩
  rw [← hL] at hkept
  have hopened : 0 < L.opened := by rw [hL]; exact Nat.one_pos
  have hstored : L.stored (Store.hashOf second) = some first := by
    rw [hL, Ledger.stored_add, if_pos hhash.symm]
  have hroom : L.HasRoom := by
    have hrun : Ledger.run (firstPut first) = L := hL ▸ if_pos ⟨horigin, rfl⟩
    exact hrun ▸ Ledger.hasRoom_of_hash
      (fun i k hk => by rw [eq_of_mem_firstPut hk]) _ (List.prefix_refl _)
  have hasked : ∀ r, L.serve r = L → (∀ k, r = .put k → Index.Writable k.provenance) →
      L.Performed base dir place w.tree (.ask 0 r) (w.perform dir (.ask 0 r)) := by
    intro r hserve hput
    refine Ledger.perform_performed hready hdir hkept _ (fun j k heq => ?_) ?_
    · exact hput k (Action.ask.inj heq).2
    · rwa [Ledger.after, hserve, ite_self]
  have hanswer : ∀ {r a}, L.Answers dir (.ask 0 r) a → ∃ y, L.Replies dir r y ∧ a = .reply y := by
    intro r a h
    rwa [Ledger.Answers, if_pos hopened] at h
  have hget := hasked (.get second) rfl (by simp)
  refine ⟨?_, ?_, ?_, ?_⟩
  · obtain ⟨y, hreply, ha⟩ := hanswer (hasked (.contains second) rfl (by simp)).answer
    rw [Ledger.Replies, hstored] at hreply
    rw [ha, hreply]
    rfl
  · have hserve : L.serve (.put second) = L := if_neg fun hadds => by simp [hadds.2] at hstored
    obtain ⟨y, hreply, ha⟩ := hanswer (hasked (.put second) hserve
      (fun k hk => Store.Request.put.inj hk ▸ hsecond)).answer
    rw [Ledger.Replies, hstored, if_neg horigin'] at hreply
    rw [ha, hreply]
    rfl
  · obtain ⟨y, hreply, ha⟩ := hanswer hget.answer
    rw [Ledger.Replies, hstored, if_neg horigin'] at hreply
    rw [ha, hreply]
    rfl
  · obtain ⟨f, hf, hfills⟩ := hget.kept.files
    have hafter : L.after (.ask 0 (.get second)) = L := ite_self _
    rw [hafter] at hfills
    exact hf.read hready (first.isFile_entry.usable hdir) (hfills.text _ _ hstored)

end Shared

/-! ## Texts -/

/-- Stores that are opened on an empty directory and asked for anything in any order answer for the
text of a kernel, if all kernels that were stored under its hash have its text. What is present, and
what is not stored again, was stored since the directory was cleared last, with that very text. And
the file that is found holds the text of the kernel. The stores are told nothing but the directory,
so that the index and the kernel files have their default names. -/
theorem Shared.answers_for_text {base : FileTree} {dir : Path} {place : List String}
    (hready : base.Ready dir place) (hdir : dir.utf8ByteSize + 1 + longestFile ≤ longestPath)
    {actions : List Action} {i : ℕ} {k : Kernel}
    (hwritable : ∀ j k', .ask j (.put k') ∈ actions ++ [.ask i (.put k)] →
      Index.Writable k'.provenance)
    (hroom : ∀ before, before <+: actions ++ [.ask i (.put k)] →
      ∃ h, (Ledger.run before).stored h = none)
    (htext : ∀ j k', .ask j (.put k') ∈ actions → Store.hashOf k' = Store.hashOf k →
      k'.source = k.source) :
    let w := Shared.run dir ⟨base, []⟩ actions
    let events := Shared.trace dir ⟨base, []⟩ actions
    ((w.perform dir (.ask i (.contains k))).1 = .reply (.present true) →
      ∃ k', k'.source = k.source ∧ StoredSince k' events) ∧
    ((w.perform dir (.ask i (.put k))).1 = .reply (.added (.ok false)) →
      ∃ k', k'.source = k.source ∧ StoredSince k' events) ∧
    ∀ path, (w.perform dir (.ask i (.get k))).1 = .reply (.found (.ok (some path))) →
      (w.perform dir (.ask i (.get k))).2.tree.read path = .ok (Text.Utf8.bytes k.source) := by
  intro w events
  have hwritable' : ∀ j k', .ask j (.put k') ∈ actions → Index.Writable k'.provenance :=
    fun j k' hmem => hwritable j k' (List.mem_append_left _ hmem)
  have hroom' : ∀ before, before <+: actions → (Ledger.run before).HasRoom :=
    fun before hbefore => hroom before (hbefore.trans (List.prefix_append _ _))
  have hkept : (Ledger.run actions).Kept base dir place w :=
    Ledger.run_kept hready hdir hwritable' hroom'
  -- what the ledger has under the hash of the kernel has its text
  have hstored : ∀ k', (Ledger.run actions).stored (Store.hashOf k) = some k' →
      k'.source = k.source ∧ StoredSince k' events := by
    intro k' hk'
    have hsince := Ledger.storedSince_of_stored hready hdir hwritable' hroom' hk'
    obtain ⟨j, hmem⟩ := hsince.mem
    exact ⟨htext j k' hmem (hkept.valid.hash _ k' hk'), hsince⟩
  have hsome : ((Ledger.run actions).stored (Store.hashOf k)).isSome →
      ∃ k', k'.source = k.source ∧ StoredSince k' events := by
    intro h
    obtain ⟨k', hk'⟩ := Option.isSome_iff_exists.mp h
    exact ⟨k', hstored k' hk'⟩
  have hroomNow : (Ledger.run actions).HasRoom := hroom' actions (List.prefix_refl _)
  have hasked : ∀ r, (Ledger.run actions).serve r = Ledger.run actions → (∀ k', r ≠ .put k') →
      (Ledger.run actions).Performed base dir place w.tree (.ask i r)
        (w.perform dir (.ask i r)) := by
    intro r hserve hput
    refine Ledger.perform_performed hready hdir hkept _ (fun j k' heq => ?_) ?_
    · exact absurd (Action.ask.inj heq).2 (hput k')
    · rw [Ledger.after, hserve, ite_self]
      exact hroom' actions (List.prefix_refl _)
  refine ⟨fun hanswer => hsome ?_, fun hanswer => hsome ?_, fun path hanswer => ?_⟩
  · have hreply := (hasked (.contains k) rfl (by simp)).answer.replies hanswer
    exact (Store.Reply.present.inj hreply).symm
  · have hrun : Ledger.run (actions ++ [.ask i (.put k)]) =
        (Ledger.run actions).after (.ask i (.put k)) := by
      rw [Ledger.run, List.foldl_append]
      rfl
    have hreply := (Ledger.perform_performed hready hdir hkept (.ask i (.put k))
      (fun j k' heq => hwritable j k' (by simp [heq]))
      (hrun ▸ hroom _ (List.prefix_refl _))).answer.replies hanswer
    have hresult := Store.Reply.added.inj hreply
    split_ifs at hresult
    have hnone := Except.ok.inj hresult
    rw [← Option.not_isNone, ← hnone]
    rfl
  · have hperformed := hasked (.get k) rfl (by simp)
    have hreply := hperformed.answer.replies hanswer
    have hresult := Store.Reply.found.inj hreply
    split_ifs at hresult
    obtain ⟨k', hk', hpath⟩ := Option.map_eq_some_iff.mp (Except.ok.inj hresult).symm
    obtain ⟨f, hf, hL⟩ := hperformed.kept.files
    have hafter : (Ledger.run actions).after (.ask i (.get k)) = Ledger.run actions := ite_self _
    rw [hafter] at hL
    rw [← hpath, ← (hstored k' hk').1]
    exact hf.read hready (k'.isFile_entry.usable hdir) (hL.text _ k' hk')

/-- A text that one store has stored under another origin. -/
theorem Shared.answers_for_text_again :
    let first : Kernel := ⟨.brisc, "first.rs:1", "void f();", []⟩
    let again : Kernel := ⟨.crisc, "again.rs:2", "void f();", []⟩
    let w := Shared.run "c" ⟨FileTree.emptyDir, []⟩ (firstPut first)
    FileTree.emptyDir.Ready "c" ["c"] ∧
    (w.perform "c" (.ask 0 (.put again))).1 = .reply (.added (.ok false)) ∧
    (∃ k', k'.source = again.source ∧
      StoredSince k' (Shared.trace "c" ⟨FileTree.emptyDir, []⟩ (firstPut first))) ∧
    ∃ path, (w.perform "c" (.ask 0 (.get again))).1 = .reply (.found (.ok (some path))) ∧
      (w.perform "c" (.ask 0 (.get again))).2.tree.read path =
        .ok (Text.Utf8.bytes again.source) := by
  intro first again w
  have hmem : ∀ i k, .ask i (.put k) ∈ firstPut first ++ [.ask 0 (.put again)] →
      k = first ∨ k = again := by
    intro i k h
    simp [firstPut] at h
    tauto
  have hwritable : ∀ i k, .ask i (.put k) ∈ firstPut first ++ [.ask 0 (.put again)] →
      Index.Writable k.provenance := by
    intro i k h
    rcases hmem i k h with rfl | rfl <;> decide
  have hroom := Ledger.hasRoom_of_hash (h := Store.hashOf first) fun i k h => by
    rcases hmem i k h with rfl | rfl <;> rfl
  obtain ⟨-, hput, hget, -⟩ := answers_of_firstPut FileTree.ready_emptyDir (by decide) first again
    (by decide) (by decide) (by decide) (by decide) rfl
  obtain ⟨-, hsince, htext⟩ := Shared.answers_for_text FileTree.ready_emptyDir (by decide)
    hwritable hroom fun j k h _ => by rw [eq_of_mem_firstPut h]
  exact ⟨FileTree.ready_emptyDir, hput, hsince hput, _, hget, htext _ hget⟩

/-! ## Two texts of one hash -/

theorem Text.linesFrom_oneLine {cs : List Char} (h : '\n' ∉ cs) (current : List Char) :
    linesFrom current cs =
      if cs = [] ∧ current = [] then [] else [(cs.reverse ++ current).reverse] := by
  induction cs generalizing current with
  | nil => simp [linesFrom]
  | cons c rest ih =>
    rw [List.mem_cons, not_or] at h
    rw [linesFrom, if_neg (Ne.symm h.1), ih h.2]
    simp

theorem Arena.render_comment (a : Arena) {text : String} (hne : text ≠ "") (h : '\n' ∉ text.toList)
    (options : RenderOptions) :
    a.render [.comment text] options = .ok ⟨"// " ++ text ++ "\n", []⟩ := by
  have hlist : text.toList ≠ [] := fun hnil => hne (String.toList_eq_nil_iff.mp hnil)
  have hlines : commentLines text = ["// " ++ text] := by
    simp [commentLines, Text.lines, Text.linesFrom_oneLine h, hlist, hne]
  rw [render_eq_ok_iff]
  refine ⟨⟨?_, ?_, ?_⟩, ?_⟩
  · simp [Stmt.rootsAll, Stmt.roots]
  · simp [Stmt.outlineAll, Stmt.outline, Outline.HeadedAll, Outline.Headed]
  · simp [Stmt.outlineAll, Stmt.outline, Outline.nestingAll, Outline.nesting]
  · simp [Stmt.outlineAll, Stmt.outline, Outline.linesAll, Outline.lines, hlines, layOut,
      Line.written, Writer.spaces, Stmt.misusesAll, Stmt.misuses, String.join]

namespace Twins

/-- A comment. It has the same hash for the letters `a` and `b`. -/
def text (letter : String) : String :=
  "utydyuzvwfrbh - kernel tag : Zenqo7Dt reads " ++ letter ++ " in both tiles."

/-- The kernel of the comment. -/
def kernel (letter : String) : Kernel :=
  ⟨.brisc, letter ++ ".rs:1", "// " ++ text letter ++ "\n", []⟩

theorem toList_comment (before letter behind : String) :
    ("// " ++ (before ++ letter ++ behind) ++ "\n").toList =
      "// ".toList ++ (before.toList ++ letter.toList ++ behind.toList) ++ "\n".toList := by
  simp only [String.toList_append]

theorem hashOf_kernel : Store.hashOf (kernel "a") = Store.hashOf (kernel "b") := by
  have hhash : ∀ letter, Store.hashOf (kernel letter) = .ofBytes (Text.Utf8.encode
      ("// ".toList ++ ("utydyuzvwfrbh - kernel tag : Zenqo7Dt reads ".toList ++ letter.toList ++
        " in both tiles.".toList) ++ "\n".toList)) :=
    fun letter => congrArg (fun cs => ContentHash.ofBytes (Text.Utf8.encode cs))
      (toList_comment _ letter _)
  rw [hhash, hhash]
  simp only [String.reduceToList]
  decide +kernel

theorem source_ne : (kernel "a").source ≠ (kernel "b").source := by
  decide

end Twins

open Twins in
/-- Two comments have one hash. The store has the kernel of the first one, and it answers for that
of the second one, which was never stored, with the file of the first one. -/
theorem Shared.answers_for_other_text :
    let first := kernel "a"
    let second := kernel "b"
    let w := Shared.run "c" ⟨FileTree.emptyDir, []⟩ (firstPut first)
    (∀ letter ∈ ["a", "b"], Arena.empty.render [.comment (text letter)] {} =
      .ok ⟨(kernel letter).source, (kernel letter).diagnostics⟩) ∧
    (w.perform "c" (.ask 0 (.contains second))).1 = .reply (.present true) ∧
    (w.perform "c" (.ask 0 (.put second))).1 = .reply (.added (.ok false)) ∧
    (∃ path, (w.perform "c" (.ask 0 (.get second))).1 = .reply (.found (.ok (some path))) ∧
      (w.perform "c" (.ask 0 (.get second))).2.tree.read path =
        .ok (Text.Utf8.bytes first.source)) ∧
    first.source ≠ second.source ∧
    ¬ ∃ k, k.source = second.source ∧
      StoredSince k (Shared.trace "c" ⟨FileTree.emptyDir, []⟩ (firstPut first)) := by
  intro first second w
  obtain ⟨hcontains, hput, hget, hread⟩ := answers_of_firstPut FileTree.ready_emptyDir (by decide)
    first second (by decide) (by decide) (by decide) (by decide) hashOf_kernel
  refine ⟨?_, hcontains, hput, ⟨_, hget, hread⟩, source_ne, ?_⟩
  · intro letter hletter
    refine Arena.empty.render_comment ?_ ?_ {} <;>
    · simp only [List.mem_cons, List.not_mem_nil, or_false] at hletter
      rcases hletter with rfl | rfl <;> decide
  · rintro ⟨k, hsource, hsince⟩
    obtain ⟨i, hmem⟩ := hsince.mem
    rw [eq_of_mem_firstPut hmem] at hsource
    exact source_ne hsource

end KernelForge
