import Dfsha.StretchProofs

/-! # Edits of a file

    A file as the sequence of its contents, and the two things that a program
    with an open file does to it: put data at a position, growing the file if
    needed, and cut it at a position.

    Data put at a position in several turns, each where the one before ended,
    is there as if it had been put at once. -/

namespace FileEdits

open Stretch

variable {α : Type} [Inhabited α]

inductive Edit (α : Type) where
  | put (position : Nat) (data : List α)
  | cut (position : Nat)
deriving DecidableEq

/-- Exactly `n` elements: the beginning, or the whole and padding. -/
def resize (n : Nat) (xs : List α) : List α :=
  xs.take n ++ List.replicate (n - xs.length) default

def Edit.apply : Edit α → List α → List α
  | .put p data, xs => resize p xs ++ data ++ xs.drop (p + data.length)
  | .cut p, xs => resize p xs

def applyAll (es : List (Edit α)) (xs : List α) : List α :=
  es.foldl (fun xs e => e.apply xs) xs

/-- The edits that put the pieces one after the other, from a position on. -/
def putAll : Nat → List (List α) → List (Edit α)
  | _, [] => []
  | p, data :: rest => .put p data :: putAll (p + data.length) rest

section Lemmas

variable {p n : Nat} {xs : List α}

theorem resize_of_le (h : n ≤ xs.length) : resize n xs = xs.take n := by
  rw [resize, Nat.sub_eq_zero_of_le h, List.replicate_zero, List.append_nil]

theorem applyAll_append (es es' : List (Edit α)) (xs : List α) :
    applyAll (es ++ es') xs = applyAll es' (applyAll es xs) := List.foldl_append

theorem apply_put_of_le (h : p ≤ xs.length) (data : List α) :
    (Edit.put p data).apply xs = xs.take p ++ data ++ xs.drop (p + data.length) := by
  rw [Edit.apply, resize_of_le h]

/-- At the end of the file, data is appended. -/
theorem apply_put_end (data : List α) :
    (Edit.put xs.length data).apply xs = xs ++ data := by
  rw [apply_put_of_le (Nat.le_refl _), List.take_length,
    List.drop_of_length_le (Nat.le_add_right _ _), List.append_nil]

theorem apply_cut_append (ys : List α) : (Edit.cut xs.length).apply (xs ++ ys) = xs := by
  rw [Edit.apply, resize_of_le (List.length_append ▸ Nat.le_add_right _ _),
    List.take_left' rfl]

/-- **PIECES ONE AFTER THE OTHER** are put as if they were one. -/
theorem applyAll_putAll (pieces : List (List α)) (h : p ≤ xs.length) :
    applyAll (putAll p pieces) xs = (Edit.put p pieces.flatten).apply xs := by
  induction pieces generalizing p xs with
  | nil =>
      rw [List.flatten_nil, apply_put_of_le h, List.append_nil, List.length_nil,
        Nat.add_zero, List.take_append_drop]
      rfl
  | cons data rest ih =>
      have hput := apply_put_of_le h data
      have hlen : (xs.take p ++ data).length = p + data.length := by
        rw [List.length_append, List.length_take, Nat.min_eq_left h]
      have hle : p + data.length ≤ ((Edit.put p data).apply xs).length := by
        rw [hput, List.length_append, hlen]
        exact Nat.le_add_right _ _
      have hdrop : (xs.take p ++ data ++ xs.drop (p + data.length)).drop
          (p + data.length + rest.flatten.length)
            = xs.drop (p + (data.length + rest.flatten.length)) := by
        rw [← hlen, List.drop_length_add_append, hlen, List.drop_drop, Nat.add_assoc]
      show applyAll (putAll (p + data.length) rest) ((Edit.put p data).apply xs) = _
      rw [ih hle, apply_put_of_le hle, hput, List.take_left' hlen, hdrop,
        apply_put_of_le h, List.flatten_cons, List.length_append,
        List.append_assoc (xs.take p) data]

end Lemmas

end FileEdits
