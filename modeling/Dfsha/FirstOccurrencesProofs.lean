import Mathlib.Data.List.Basic

/-! # First occurrences

    The elements of a list that are the first with their key, in order: what
    is left of a sequence of requests when the repeats of a request, which may
    differ from it in everything but the key, are taken out. -/

namespace FirstOccurrences

variable {α κ : Type} [DecidableEq κ] (key : α → κ)

/-- The elements whose key is neither in `seen` nor earlier in the list. -/
def firsts : List κ → List α → List α
  | _, [] => []
  | seen, x :: xs =>
      if key x ∈ seen then firsts seen xs else x :: firsts (key x :: seen) xs

variable {key}

theorem firsts_cons_seen {seen : List κ} {x : α} (h : key x ∈ seen) (xs : List α) :
    firsts key seen (x :: xs) = firsts key seen xs := by
  rw [firsts, if_pos h]

theorem firsts_cons_new {seen : List κ} {x : α} (h : key x ∉ seen) (xs : List α) :
    firsts key seen (x :: xs) = x :: firsts key (key x :: seen) xs := by
  rw [firsts, if_neg h]

/-- Only what has been seen counts, not the order or how often. -/
theorem firsts_congr {seen seen' : List κ} (h : ∀ k, k ∈ seen ↔ k ∈ seen')
    (xs : List α) : firsts key seen xs = firsts key seen' xs := by
  induction xs generalizing seen seen' with
  | nil => rfl
  | cons x xs ih =>
      by_cases hx : key x ∈ seen
      · rw [firsts_cons_seen hx, firsts_cons_seen ((h _).mp hx)]
        exact ih h
      · rw [firsts_cons_new hx, firsts_cons_new fun hx' => hx ((h _).mpr hx')]
        refine congrArg (x :: ·) (ih fun k => ?_)
        rw [List.mem_cons, List.mem_cons, h]

theorem firsts_append (seen : List κ) (xs ys : List α) :
    firsts key seen (xs ++ ys)
      = firsts key seen xs ++ firsts key (xs.map key ++ seen) ys := by
  induction xs generalizing seen with
  | nil => rfl
  | cons x xs ih =>
      rw [List.cons_append]
      by_cases hx : key x ∈ seen
      · rw [firsts_cons_seen hx, firsts_cons_seen hx, ih]
        refine congrArg (_ ++ ·) (firsts_congr (fun k => ?_) ys)
        rw [List.map_cons, List.cons_append, List.mem_cons, List.mem_append]
        constructor
        · exact .inr
        · rintro (rfl | h)
          · exact .inr hx
          · exact h
      · rw [firsts_cons_new hx, firsts_cons_new hx, ih, List.cons_append]
        refine congrArg (fun l => x :: (_ ++ l)) (firsts_congr (fun k => ?_) ys)
        rw [List.map_cons, List.cons_append, List.mem_append, List.mem_cons, List.mem_cons,
          List.mem_append]
        exact or_left_comm

theorem firsts_sublist (seen : List κ) (xs : List α) :
    List.Sublist (firsts key seen xs) xs := by
  induction xs generalizing seen with
  | nil => exact List.Sublist.slnil
  | cons x xs ih =>
      by_cases hx : key x ∈ seen
      · rw [firsts_cons_seen hx]
        exact (ih seen).cons x
      · rw [firsts_cons_new hx]
        exact (ih _).cons_cons x

theorem not_seen_of_mem {seen : List κ} {xs : List α} {x : α}
    (h : x ∈ firsts key seen xs) : key x ∉ seen := by
  induction xs generalizing seen with
  | nil => exact nomatch h
  | cons y ys ih =>
      by_cases hy : key y ∈ seen
      · rw [firsts_cons_seen hy] at h
        exact ih h
      · rw [firsts_cons_new hy, List.mem_cons] at h
        rcases h with rfl | h
        · exact hy
        · exact fun hx => ih h (List.mem_cons_of_mem _ hx)

/-- No two of them have the same key. -/
theorem nodup_firsts (seen : List κ) (xs : List α) :
    ((firsts key seen xs).map key).Nodup := by
  induction xs generalizing seen with
  | nil => exact List.nodup_nil
  | cons x xs ih =>
      by_cases hx : key x ∈ seen
      · rw [firsts_cons_seen hx]
        exact ih seen
      · rw [firsts_cons_new hx, List.map_cons, List.nodup_cons]
        refine ⟨fun hmem => ?_, ih _⟩
        obtain ⟨y, hy, heq⟩ := List.mem_map.mp hmem
        exact not_seen_of_mem hy (heq ▸ List.mem_cons_self)

/-- Every key has a first occurrence. -/
theorem exists_first {xs : List α} {k : κ} (h : k ∈ xs.map key) :
    ∃ a x b, xs = a ++ x :: b ∧ key x = k ∧ k ∉ a.map key := by
  induction xs with
  | nil => exact nomatch h
  | cons x xs ih =>
      by_cases hx : key x = k
      · exact ⟨[], x, xs, rfl, hx, List.not_mem_nil⟩
      · rw [List.map_cons, List.mem_cons] at h
        obtain ⟨a, y, b, rfl, hy, ha⟩ := ih (h.resolve_left fun hk => hx hk.symm)
        refine ⟨x :: a, y, b, rfl, hy, fun hmem => ?_⟩
        rcases List.mem_cons.mp hmem with hk | hmem
        · exact hx hk.symm
        · exact ha hmem

/-- The first occurrences around a first occurrence. -/
theorem firsts_split {a b : List α} {x : α} (h : key x ∉ a.map key) :
    firsts key [] (a ++ x :: b)
      = firsts key [] a ++ x :: firsts key (key x :: a.map key) b := by
  rw [firsts_append, List.append_nil, firsts_cons_new h]

theorem firsts_concat_new {a : List α} {x : α} (h : key x ∉ a.map key) :
    firsts key [] (a ++ [x]) = firsts key [] a ++ [x] := firsts_split h

theorem firsts_concat_seen {a : List α} {x : α} (h : key x ∈ a.map key) :
    firsts key [] (a ++ [x]) = firsts key [] a := by
  rw [firsts_append, List.append_nil, firsts_cons_seen h]
  exact List.append_nil _

end FirstOccurrences
