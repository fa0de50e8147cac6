import Mathlib.Data.List.Basic
import Mathlib.Data.List.Nodup

/-! # Insertion-ordered dictionaries

    A dictionary that remembers the order in which its keys were inserted:
    overwriting a key keeps its place, a new key goes to the end.  The
    entries are a list without repeated keys, and the absence of repetitions
    is a field, so a dictionary with two entries for one key cannot be
    built.

    The list-level operations come first (a tree of named children uses them
    on its own child lists), then the bundled type and its lookup laws. -/

namespace InsertionDict

variable {κ α : Type} [DecidableEq κ]

/-- The value stored under `k` in an association list. -/
def assocGet : List (κ × α) → κ → Option α
  | [], _ => none
  | (k', v) :: rest, k => if k' = k then some v else assocGet rest k

/-- Overwrite `k` in place, or append it. -/
def assocSet : List (κ × α) → κ → α → List (κ × α)
  | [], k, v => [(k, v)]
  | (k', v') :: rest, k, v =>
      if k' = k then (k, v) :: rest else (k', v') :: assocSet rest k v

/-- Drop the entry of `k`. -/
def assocErase (l : List (κ × α)) (k : κ) : List (κ × α) :=
  l.filter fun e => e.1 ≠ k

@[simp] theorem assocGet_nil (k : κ) :
    assocGet ([] : List (κ × α)) k = none := rfl

theorem assocGet_cons (k' : κ) (v : α) (rest : List (κ × α)) (k : κ) :
    assocGet ((k', v) :: rest) k = if k' = k then some v else assocGet rest k :=
  rfl

theorem assocSet_cons (k' : κ) (v' : α) (rest : List (κ × α)) (k : κ) (v : α) :
    assocSet ((k', v') :: rest) k v
      = if k' = k then (k, v) :: rest else (k', v') :: assocSet rest k v := rfl

@[simp] theorem assocGet_assocSet_self (l : List (κ × α)) (k : κ) (v : α) :
    assocGet (assocSet l k v) k = some v := by
  induction l with
  | nil => simp [assocSet, assocGet_cons]
  | cons hd rest ih =>
      obtain ⟨k', v'⟩ := hd
      rw [assocSet_cons]
      by_cases hk : k' = k
      · rw [if_pos hk, assocGet_cons, if_pos rfl]
      · rw [if_neg hk, assocGet_cons, if_neg hk]
        exact ih

theorem assocGet_assocSet_ne (l : List (κ × α)) {k k₂ : κ} (v : α)
    (hne : k₂ ≠ k) : assocGet (assocSet l k v) k₂ = assocGet l k₂ := by
  induction l with
  | nil => simp [assocSet, assocGet_cons, hne.symm]
  | cons hd rest ih =>
      obtain ⟨k', v'⟩ := hd
      rw [assocSet_cons]
      by_cases hk : k' = k
      · subst hk
        rw [if_pos rfl, assocGet_cons, assocGet_cons, if_neg hne.symm,
          if_neg hne.symm]
      · rw [if_neg hk, assocGet_cons, assocGet_cons, ih]

theorem assocGet_eq_none {l : List (κ × α)} {k : κ}
    (h : k ∉ l.map Prod.fst) : assocGet l k = none := by
  induction l with
  | nil => rfl
  | cons hd rest ih =>
      obtain ⟨k', v⟩ := hd
      rw [List.map_cons, List.mem_cons, not_or] at h
      rw [assocGet_cons, if_neg (fun hk => h.1 hk.symm)]
      exact ih h.2

/-- Lookup through a filter that may look at both key and value. -/
theorem assocGet_filter {l : List (κ × α)} (p : κ × α → Bool)
    (hnd : (l.map Prod.fst).Nodup) (k : κ) :
    assocGet (l.filter p) k = (assocGet l k).filter fun v => p (k, v) := by
  induction l with
  | nil => rfl
  | cons hd rest ih =>
      obtain ⟨k', v⟩ := hd
      rw [List.map_cons, List.nodup_cons] at hnd
      have habs : k' = k → assocGet (rest.filter p) k = none := by
        intro hk
        rw [ih hnd.2, assocGet_eq_none (hk ▸ hnd.1)]
        rfl
      by_cases hk : k' = k
      · cases hp : p (k', v) with
        | true =>
            subst hk
            rw [List.filter_cons_of_pos hp, assocGet_cons, assocGet_cons,
              if_pos rfl, if_pos rfl, Option.filter_some, if_pos hp]
        | false =>
            have hrest := habs hk
            subst hk
            rw [List.filter_cons_of_neg (by simp [hp]), hrest, assocGet_cons,
              if_pos rfl, Option.filter_some, if_neg (by simp [hp])]
      · rw [assocGet_cons, if_neg hk]
        cases hp : p (k', v) with
        | true =>
            rw [List.filter_cons_of_pos hp, assocGet_cons, if_neg hk]
            exact ih hnd.2
        | false =>
            rw [List.filter_cons_of_neg (by simp [hp])]
            exact ih hnd.2

@[simp] theorem assocGet_assocErase_self (l : List (κ × α)) (k : κ) :
    assocGet (assocErase l k) k = none := by
  induction l with
  | nil => rfl
  | cons hd rest ih =>
      obtain ⟨k', v⟩ := hd
      by_cases hk : k' = k
      · rw [assocErase, List.filter_cons_of_neg (by simp [hk])]
        exact ih
      · rw [assocErase, List.filter_cons_of_pos (by simp [hk]), assocGet_cons,
          if_neg hk]
        exact ih

theorem assocGet_assocErase_ne (l : List (κ × α)) {k k₂ : κ} (hne : k₂ ≠ k) :
    assocGet (assocErase l k) k₂ = assocGet l k₂ := by
  induction l with
  | nil => rfl
  | cons hd rest ih =>
      obtain ⟨k', v⟩ := hd
      by_cases hk : k' = k
      · rw [assocErase, List.filter_cons_of_neg (by simp [hk]), assocGet_cons,
          if_neg (by rw [hk]; exact hne.symm)]
        exact ih
      · rw [assocErase, List.filter_cons_of_pos (by simp [hk]), assocGet_cons,
          assocGet_cons]
        rw [show assocGet (rest.filter fun e => decide (e.1 ≠ k)) k₂
          = assocGet rest k₂ from ih]

theorem assocGet_eq_some_mem {l : List (κ × α)} {k : κ} {v : α}
    (h : assocGet l k = some v) : (k, v) ∈ l := by
  induction l with
  | nil => exact nomatch h
  | cons hd rest ih =>
      obtain ⟨k', v'⟩ := hd
      rw [assocGet_cons] at h
      by_cases hk : k' = k
      · rw [if_pos hk] at h
        rw [← hk, Option.some.inj h]
        exact List.mem_cons_self
      · rw [if_neg hk] at h
        exact List.mem_cons_of_mem _ (ih h)

theorem assocGet_of_mem {l : List (κ × α)} (hnd : (l.map Prod.fst).Nodup)
    {k : κ} {v : α} (h : (k, v) ∈ l) : assocGet l k = some v := by
  induction l with
  | nil => exact nomatch h
  | cons hd rest ih =>
      obtain ⟨k', v'⟩ := hd
      rw [List.map_cons, List.nodup_cons] at hnd
      rw [assocGet_cons]
      rcases List.mem_cons.mp h with heq | hmem
      · rw [if_pos (congrArg Prod.fst heq).symm]
        exact congrArg some (congrArg Prod.snd heq).symm
      · rw [if_neg]
        · exact ih hnd.2 hmem
        · intro hk
          exact hnd.1 (hk ▸ List.mem_map.mpr ⟨(k, v), hmem, rfl⟩)

/-- A new key goes to the end. -/
theorem assocSet_new {l : List (κ × α)} {k : κ} (v : α) (h : assocGet l k = none) :
    assocSet l k v = l ++ [(k, v)] := by
  induction l with
  | nil => rfl
  | cons hd rest ih =>
      obtain ⟨k', v'⟩ := hd
      rw [assocGet_cons] at h
      by_cases hk : k' = k
      · rw [if_pos hk] at h
        cases h
      · rw [if_neg hk] at h
        rw [assocSet_cons, if_neg hk, ih h, List.cons_append]

/-- Setting a key adds at most that key, and never a second time. -/
theorem mem_keys_assocSet (l : List (κ × α)) (k : κ) (v : α) (k₂ : κ) :
    k₂ ∈ (assocSet l k v).map Prod.fst ↔ k₂ = k ∨ k₂ ∈ l.map Prod.fst := by
  induction l with
  | nil => simp [assocSet]
  | cons hd rest ih =>
      obtain ⟨k', v'⟩ := hd
      rw [assocSet_cons]
      by_cases hk : k' = k
      · rw [if_pos hk, List.map_cons, List.map_cons, List.mem_cons,
          List.mem_cons, hk]
        tauto
      · rw [if_neg hk, List.map_cons, List.map_cons, List.mem_cons,
          List.mem_cons, ih]
        tauto

theorem nodup_assocSet {l : List (κ × α)} (hnd : (l.map Prod.fst).Nodup)
    (k : κ) (v : α) : ((assocSet l k v).map Prod.fst).Nodup := by
  induction l with
  | nil => simp [assocSet]
  | cons hd rest ih =>
      obtain ⟨k', v'⟩ := hd
      rw [List.map_cons, List.nodup_cons] at hnd
      rw [assocSet_cons]
      by_cases hk : k' = k
      · rw [if_pos hk, List.map_cons, List.nodup_cons]
        exact ⟨hk ▸ hnd.1, hnd.2⟩
      · rw [if_neg hk, List.map_cons, List.nodup_cons]
        refine ⟨?_, ih hnd.2⟩
        intro hmem
        rcases (mem_keys_assocSet rest k v k').mp hmem with heq | hin
        · exact hk heq
        · exact hnd.1 hin

omit [DecidableEq κ] in
theorem nodup_filter_keys {l : List (κ × α)} (hnd : (l.map Prod.fst).Nodup)
    (p : κ × α → Bool) : ((l.filter p).map Prod.fst).Nodup :=
  hnd.sublist (List.filter_sublist.map Prod.fst)

/-- The members of a list after a key is set: the new entry, or an old one. -/
theorem mem_assocSet {l : List (κ × α)} {k : κ} {v : α} {e : κ × α}
    (h : e ∈ assocSet l k v) : e = (k, v) ∨ e ∈ l := by
  induction l with
  | nil => exact Or.inl (List.mem_singleton.mp h)
  | cons hd rest ih =>
      obtain ⟨k', v'⟩ := hd
      rw [assocSet_cons] at h
      by_cases hk : k' = k
      · rw [if_pos hk] at h
        rcases List.mem_cons.mp h with heq | hmem
        · exact Or.inl heq
        · exact Or.inr (List.mem_cons_of_mem _ hmem)
      · rw [if_neg hk] at h
        rcases List.mem_cons.mp h with heq | hmem
        · exact Or.inr (heq ▸ List.mem_cons_self)
        · rcases ih hmem with hnew | hold
          · exact Or.inl hnew
          · exact Or.inr (List.mem_cons_of_mem _ hold)

/-! ## The bundled type -/

/-- An insertion-ordered dictionary. -/
structure Dict (κ α : Type) where
  entries : List (κ × α)
  nodup : (entries.map Prod.fst).Nodup

namespace Dict

variable {d : Dict κ α} {k k₂ : κ} {v : α}

def empty : Dict κ α := ⟨[], List.nodup_nil⟩

def get? (d : Dict κ α) (k : κ) : Option α := assocGet d.entries k

def contains (d : Dict κ α) (k : κ) : Bool := (d.get? k).isSome

def insert (d : Dict κ α) (k : κ) (v : α) : Dict κ α :=
  ⟨assocSet d.entries k v, nodup_assocSet d.nodup k v⟩

def erase (d : Dict κ α) (k : κ) : Dict κ α :=
  ⟨assocErase d.entries k, nodup_filter_keys d.nodup _⟩

def filter (d : Dict κ α) (p : κ × α → Bool) : Dict κ α :=
  ⟨d.entries.filter p, nodup_filter_keys d.nodup p⟩

/-- Drop the entry inserted first. -/
def popFirst (d : Dict κ α) : Dict κ α :=
  ⟨d.entries.tail, by
    rw [List.map_tail]
    exact d.nodup.sublist (List.tail_sublist _)⟩

def isEmpty (d : Dict κ α) : Bool := d.entries.isEmpty

def size (d : Dict κ α) : Nat := d.entries.length

@[simp] theorem get?_insert_self (d : Dict κ α) (k : κ) (v : α) :
    (d.insert k v).get? k = some v := assocGet_assocSet_self d.entries k v

theorem get?_insert_ne (d : Dict κ α) (v : α) (hne : k₂ ≠ k) :
    (d.insert k v).get? k₂ = d.get? k₂ := assocGet_assocSet_ne d.entries v hne

theorem get?_insert (d : Dict κ α) (k k₂ : κ) (v : α) :
    (d.insert k v).get? k₂ = if k₂ = k then some v else d.get? k₂ := by
  by_cases hk : k₂ = k
  · rw [if_pos hk, hk, get?_insert_self]
  · rw [if_neg hk, get?_insert_ne d v hk]

/-- An entry after an insertion is the new one, or was there. -/
theorem get?_insert_eq_some {v' : α} (h : (d.insert k v).get? k₂ = some v') :
    (k₂ = k ∧ v' = v) ∨ d.get? k₂ = some v' := by
  rw [get?_insert] at h
  by_cases hk : k₂ = k
  · rw [if_pos hk] at h
    exact .inl ⟨hk, (Option.some.inj h).symm⟩
  · rw [if_neg hk] at h
    exact .inr h

@[simp] theorem get?_erase_self (d : Dict κ α) (k : κ) :
    (d.erase k).get? k = none := assocGet_assocErase_self d.entries k

theorem get?_erase_ne (d : Dict κ α) (hne : k₂ ≠ k) :
    (d.erase k).get? k₂ = d.get? k₂ := assocGet_assocErase_ne d.entries hne

theorem get?_erase (d : Dict κ α) (k k₂ : κ) :
    (d.erase k).get? k₂ = if k₂ = k then none else d.get? k₂ := by
  by_cases hk : k₂ = k
  · rw [if_pos hk, hk, get?_erase_self]
  · rw [if_neg hk, get?_erase_ne d hk]

theorem get?_erase_eq_some (h : (d.erase k).get? k₂ = some v) :
    k₂ ≠ k ∧ d.get? k₂ = some v := by
  rw [get?_erase] at h
  by_cases hk : k₂ = k
  · rw [if_pos hk] at h
    exact nomatch h
  · rw [if_neg hk] at h
    exact ⟨hk, h⟩

theorem get?_filter (d : Dict κ α) (p : κ × α → Bool) (k : κ) :
    (d.filter p).get? k = (d.get? k).filter fun v => p (k, v) :=
  assocGet_filter p d.nodup k

/-- An entry that survives a filter was there before and passes it. -/
theorem get?_filter_eq_some {p : κ × α → Bool}
    (h : (d.filter p).get? k = some v) : d.get? k = some v ∧ p (k, v) = true := by
  rw [get?_filter, Option.filter_eq_some_iff] at h
  exact h

theorem get?_eq_some_iff : d.get? k = some v ↔ (k, v) ∈ d.entries :=
  ⟨assocGet_eq_some_mem, assocGet_of_mem d.nodup⟩

@[simp] theorem contains_iff : d.contains k = true ↔ ∃ v, d.get? k = some v :=
  Option.isSome_iff_exists

theorem not_contains_iff : d.contains k = false ↔ d.get? k = none := by
  rw [contains, Option.isSome_eq_false_iff, Option.isNone_iff_eq_none]

omit [DecidableEq κ] in
theorem isEmpty_iff : d.isEmpty = true ↔ d.entries = [] := List.isEmpty_iff

theorem get?_of_isEmpty (h : d.isEmpty = true) (k : κ) : d.get? k = none := by
  rw [get?, isEmpty_iff.mp h, assocGet_nil]

theorem exists_of_not_isEmpty (h : ¬ d.isEmpty = true) : ∃ k v, d.get? k = some v := by
  rw [isEmpty_iff] at h
  obtain ⟨e, he⟩ := List.exists_mem_of_ne_nil d.entries h
  exact ⟨e.1, e.2, get?_eq_some_iff.mpr he⟩

omit [DecidableEq κ] in
/-- Two dictionaries with the same entries in the same order are one. -/
theorem ext {d' : Dict κ α} (h : d.entries = d'.entries) : d = d' := by
  cases d
  cases d'
  dsimp only at h
  subst h
  rfl

/-- A new entry comes last. -/
theorem entries_insert_new (v : α) (h : d.get? k = none) :
    (d.insert k v).entries = d.entries ++ [(k, v)] := assocSet_new v h

/-- Dropping the oldest entry removes entries, and adds or changes none. -/
theorem get?_popFirst_eq_some (h : d.popFirst.get? k = some v) :
    d.get? k = some v := by
  rw [get?_eq_some_iff] at h ⊢
  exact List.mem_of_mem_tail h

end Dict

end InsertionDict
