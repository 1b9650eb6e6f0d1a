/-!
# Tables

Finite maps as lists of pairs with distinct keys, in the order in which the keys first came.
-/
namespace KernelForge

structure Table (κ ν : Type) where
  toList : List (κ × ν)
  nodup : (toList.map Prod.fst).Nodup

namespace Table

variable {κ ν : Type}

def empty : Table κ ν := ⟨[], List.nodup_nil⟩

def keys (t : Table κ ν) : List κ := t.toList.map Prod.fst

def values (t : Table κ ν) : List ν := t.toList.map Prod.snd

def size (t : Table κ ν) : Nat := t.toList.length

def isEmpty (t : Table κ ν) : Bool := t.toList.isEmpty

variable [DecidableEq κ]

/-- The value of a key in a list of pairs. -/
def lookup (k : κ) : List (κ × ν) → Option ν
  | [] => none
  | (l, v) :: rest => if l = k then some v else lookup k rest

def get? (t : Table κ ν) (k : κ) : Option ν := lookup k t.toList

def contains (t : Table κ ν) (k : κ) : Bool := (t.get? k).isSome

/-- Gives a key its value where it stands, or adds the pair at the end. -/
def put (k : κ) (v : ν) : List (κ × ν) → List (κ × ν)
  | [] => [(k, v)]
  | (l, w) :: rest => if l = k then (l, v) :: rest else (l, w) :: put k v rest

theorem mem_keys_put {k l : κ} {v : ν} {pairs : List (κ × ν)} :
    l ∈ (put k v pairs).map Prod.fst ↔ l = k ∨ l ∈ pairs.map Prod.fst := by
  induction pairs with
  | nil => simp [put]
  | cons p rest ih =>
    obtain ⟨m, w⟩ := p
    by_cases h : m = k
    · subst h
      simp [put]
    · simp only [put, h, if_false, List.map_cons, List.mem_cons, ih]
      exact or_left_comm

theorem nodup_put {k : κ} {v : ν} {pairs : List (κ × ν)} (h : (pairs.map Prod.fst).Nodup) :
    ((put k v pairs).map Prod.fst).Nodup := by
  induction pairs with
  | nil => simp [put]
  | cons p rest ih =>
    obtain ⟨m, w⟩ := p
    simp only [List.map_cons, List.nodup_cons] at h
    by_cases hm : m = k
    · rw [put, if_pos hm, List.map_cons, List.nodup_cons]
      exact h
    · simp only [put, hm, if_false, List.map_cons, List.nodup_cons]
      refine ⟨fun hmem => ?_, ih h.2⟩
      rcases mem_keys_put.mp hmem with h' | h'
      · exact hm h'
      · exact h.1 h'

def insert (t : Table κ ν) (k : κ) (v : ν) : Table κ ν := ⟨put k v t.toList, nodup_put t.nodup⟩

def erase (t : Table κ ν) (k : κ) : Table κ ν where
  toList := t.toList.filter fun p => p.1 ≠ k
  nodup := List.Sublist.nodup ((List.filter_sublist).map Prod.fst) t.nodup

/-- Later pairs replace earlier ones of the same key. -/
def ofList (pairs : List (κ × ν)) : Table κ ν := pairs.foldl (fun t p => t.insert p.1 p.2) empty

theorem lookup_put (k l : κ) (v : ν) (pairs : List (κ × ν)) :
    lookup l (put k v pairs) = if k = l then some v else lookup l pairs := by
  induction pairs with
  | nil => simp [put, lookup]
  | cons p rest ih =>
    obtain ⟨m, w⟩ := p
    by_cases h : m = k
    · subst h
      by_cases hl : m = l <;> simp [put, lookup, hl]
    · by_cases hl : m = l
      · subst hl
        simp [put, lookup, h, Ne.symm h]
      · simp [put, lookup, h, hl, ih]

theorem lookup_erase (k l : κ) (pairs : List (κ × ν)) :
    lookup l (pairs.filter fun p => p.1 ≠ k) = if k = l then none else lookup l pairs := by
  induction pairs with
  | nil => simp [lookup]
  | cons p rest ih =>
    obtain ⟨m, w⟩ := p
    by_cases h : m = k
    · subst h
      by_cases hl : m = l <;> simp_all [lookup]
    · by_cases hl : m = l
      · subst hl
        simp_all [lookup, Ne.symm h]
      · simp_all [lookup]

@[simp] theorem get?_empty (k : κ) : (empty : Table κ ν).get? k = none := rfl

theorem get?_insert (t : Table κ ν) (k l : κ) (v : ν) :
    (t.insert k v).get? l = if k = l then some v else t.get? l := lookup_put k l v t.toList

theorem get?_erase (t : Table κ ν) (k l : κ) :
    (t.erase k).get? l = if k = l then none else t.get? l := lookup_erase k l t.toList

end Table

end KernelForge
