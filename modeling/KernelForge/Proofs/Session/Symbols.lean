import KernelForge.Proofs.Session.Growth

/-!
# Symbol tables

What it does to a context to ask for a variable by name. `intern` finds the node of a name or enters
it. `tryIntern` does the same or refuses, and then does nothing. The names of a table are listed in
ascending order.
-/
namespace KernelForge

namespace Table

variable {κ ν : Type} [DecidableEq κ]

theorem isSome_lookup_iff {k : κ} {pairs : List (κ × ν)} :
    (lookup k pairs).isSome ↔ k ∈ pairs.map Prod.fst := by
  induction pairs with
  | nil => simp [lookup]
  | cons p rest ih =>
    by_cases h : p.1 = k
    · simp [lookup, h]
    · simp only [lookup, h, if_false, ih, List.map_cons, List.mem_cons, Ne.symm h, false_or]

theorem isSome_get?_iff (t : Table κ ν) (k : κ) : (t.get? k).isSome ↔ k ∈ t.keys :=
  isSome_lookup_iff

end Table

/-! ## Storage with a name -/

namespace Variable

/-- A named variable is storage of some shape. -/
theorem exists_named {v : Variable} (h : v.name?.isSome) :
    ∃ (shape : Shape) (name : String), v = shape.named name := by
  induction v with
  | scalar k n => exact ⟨.scalar k, n, rfl⟩
  | array k n length => exact ⟨.array k length, n, rfl⟩
  | matrix k n dims => exact ⟨.matrix k dims, n, rfl⟩
  | pointer v ih =>
    obtain ⟨shape, name, rfl⟩ := ih h
    exact ⟨.pointer shape, name, rfl⟩
  | reference v ih =>
    obtain ⟨shape, name, rfl⟩ := ih h
    exact ⟨.reference shape, name, rfl⟩
  | literal | slot => simp [name?] at h

/-- Where there are no constants, to agree is to be equal. -/
theorem agrees_named_iff {v : Variable} {shape : Shape} {name : String} :
    v.agrees (shape.named name) ↔ v = shape.named name := by
  induction shape generalizing v with
  | pointer shape ih => cases v <;> simp [Shape.named, agrees, ih]
  | reference shape ih => cases v <;> simp [Shape.named, agrees, ih]
  | _ => cases v <;> simp [Shape.named, agrees]

end Variable

theorem Shape.named_inj {shape other : Shape} {m n : String} :
    shape.named m = other.named n ↔ shape = other ∧ m = n := by
  induction shape generalizing other with
  | pointer shape ih => cases other <;> simp [named, ih]
  | reference shape ih => cases other <;> simp [named, ih]
  | scalar => cases other <;> simp [named]
  | array => cases other <;> simp [named, and_comm, and_left_comm, and_assoc]
  | matrix => cases other <;> simp [named, and_comm, and_left_comm]

namespace Context

variable {c : Context} {name : String} {id : NodeId}

/-! ## Names -/

theorem mem_names : name ∈ c.names ↔ (c.lookup name).isSome := by
  rw [names, List.mem_mergeSort]
  exact (c.symbols.isSome_get?_iff name).symm

theorem length_names (c : Context) : c.names.length = c.symbols.size := by
  rw [names, List.length_mergeSort, Table.keys, List.length_map, Table.size]

theorem pairwise_names (c : Context) : c.names.Pairwise (· < ·) := by
  have hsorted : c.names.Pairwise fun a b => decide (a ≤ b) = true := by
    apply List.pairwise_mergeSort
    · intro a b d hab hbd
      simpa using String.le_trans (by simpa using hab) (by simpa using hbd)
    · intro a b
      simpa using String.le_total a b
  have hnodup : c.names.Nodup := (List.mergeSort_perm _ _).nodup_iff.mpr c.symbols.nodup
  apply (hsorted.and hnodup).imp
  rintro a b ⟨hle, hne⟩
  exact String.not_le.mp fun hge => hne (String.le_antisymm (by simpa using hle) hge)

/-! ## Asking for a variable -/

theorem intern_of_lookup (h : c.lookup name = some id) (shape : Shape) :
    c.intern name shape = (id, c) := by
  simp [intern, h]

theorem intern_of_new (h : c.lookup name = none) (shape : Shape) :
    c.intern name shape = c.enter name (shape.named name) := by
  simp [intern, h]

theorem isSome_lookup_intern (c : Context) (name : String) (shape : Shape) (other : String) :
    ((c.intern name shape).2.lookup other).isSome ↔ (c.lookup other).isSome ∨ other = name := by
  cases h : c.lookup name with
  | some id =>
    rw [intern_of_lookup h]
    refine ⟨Or.inl, ?_⟩
    rintro (hother | rfl)
    · exact hother
    · simp [h]
  | none =>
    rw [intern_of_new h, lookup_enter]
    by_cases hname : name = other
    · simp [hname]
    · simp [hname, Ne.symm hname]

/-- A name that the table has is granted to whoever asks for the variable that is stored, and refused
otherwise. -/
theorem tryIntern_of_lookup (h : c.lookup name = some id) {v : Variable}
    (hv : c.arena.content? id = some v) (shape : Shape) :
    c.tryIntern name shape = if v = shape.named name then (.ok id, c)
      else (.error (.shapeMismatch name v (shape.named name)), c) := by
  simp only [tryIntern, h, hv, Variable.agrees_named_iff]

/-- `tryIntern` answers as `intern` does, or it refuses a variable that differs from the one that
the name has, and nothing changes. -/
theorem tryIntern_cases (hc : c.Sound) (name : String) (shape : Shape) :
    c.tryIntern name shape = (.ok (c.intern name shape).1, (c.intern name shape).2) ∨
    ∃ id v, c.lookup name = some id ∧ c.arena.content? id = some v ∧ v ≠ shape.named name ∧
      c.tryIntern name shape = (.error (.shapeMismatch name v (shape.named name)), c) := by
  cases h : c.lookup name with
  | none => exact Or.inl (by simp [tryIntern, intern, h])
  | some id =>
    obtain ⟨v, hv, -⟩ := hc.symbol name id h
    rw [tryIntern_of_lookup h hv, intern_of_lookup h]
    split_ifs with heq
    · exact Or.inl rfl
    · exact Or.inr ⟨id, v, rfl, hv, heq, rfl⟩

end Context

end KernelForge
