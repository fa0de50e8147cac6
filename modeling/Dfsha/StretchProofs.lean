import Dfsha.BlockChunksProofs

/-! # Stretches of a sequence

    The stretch of a sequence between two positions, and its cut into pieces
    of a given size, which are not empty and whose concatenation is the
    stretch. -/

namespace Stretch

variable {α : Type}

/-- What lies between the positions `a` and `b`. -/
def stretch (xs : List α) (a b : Nat) : List α := (xs.take b).drop a

/-- The pieces of `step` elements that begin at `a`, `a + step`, and so on up
    to `b`, the last of them cut at `b`. -/
def pieces (xs : List α) (a b step : Nat) : List (List α) :=
  (List.range' a ((b - a + step - 1) / step) step).map fun start =>
    stretch xs start (min (start + step) b)

theorem stretch_eq (xs : List α) (a b : Nat) :
    stretch xs a b = (xs.drop a).take (b - a) := List.drop_take

theorem length_stretch {xs : List α} {a b : Nat} (hb : b ≤ xs.length) :
    (stretch xs a b).length = b - a := by
  rw [stretch, List.length_drop, List.length_take, Nat.min_eq_left hb]

theorem stretch_append (xs : List α) {a b c : Nat} (hab : a ≤ b) (hbc : b ≤ c) :
    stretch xs a b ++ stretch xs b c = stretch xs a c := by
  have hsum : c - a = (b - a) + (c - b) := by omega
  have hstart : b = a + (b - a) := by omega
  rw [stretch_eq, stretch_eq, stretch_eq, hsum, List.take_add, List.drop_drop, ← hstart]

theorem stretch_self (xs : List α) (a : Nat) : stretch xs a a = [] := by
  rw [stretch_eq, Nat.sub_self, List.take_zero]

/-- A stretch of a stretch. -/
theorem stretch_stretch (xs : List α) {a b i j : Nat} (hj : a + j ≤ b) :
    stretch (stretch xs a b) i j = stretch xs (a + i) (a + j) := by
  rw [stretch_eq, stretch_eq, stretch_eq, List.drop_take, List.take_take, List.drop_drop]
  congr 1
  omega

/-- A stretch of two sequences is one of each. -/
theorem stretch_append_lists (xs ys : List α) (a b : Nat) :
    stretch (xs ++ ys) a b
      = stretch xs a b ++ stretch ys (a - xs.length) (b - xs.length) := by
  rw [stretch, List.take_append, List.drop_append, List.length_take]
  by_cases hb : b ≤ xs.length
  · rw [Nat.sub_eq_zero_of_le hb, List.take_zero, List.drop_nil, stretch, stretch,
      List.take_zero, List.drop_nil]
  · rw [Nat.min_eq_right (by omega)]
    rfl

/-- A block of a sequence is a stretch of it. -/
theorem chunk_eq_stretch (B : Nat) (xs : List α) (i : Nat) :
    BlockChunks.chunk B xs i = stretch xs (i * B) ((i + 1) * B) := by
  rw [stretch_eq, Nat.succ_mul, Nat.add_sub_cancel_left]
  rfl

/-- **THE PIECES OF A STRETCH** make it up. -/
theorem flatten_pieces (xs : List α) {a b step : Nat} (hstep : 0 < step) (hab : a ≤ b) :
    (pieces xs a b step).flatten = stretch xs a b := by
  rw [pieces]
  generalize hn : (b - a + step - 1) / step = n
  induction n generalizing a with
  | zero =>
      rw [Nat.div_eq_zero_iff] at hn
      have heq : a = b := by omega
      rw [heq, stretch_self]
      rfl
  | succ n ih =>
      rw [List.range'_succ, List.map_cons, List.flatten_cons]
      by_cases hlast : b ≤ a + step
      · have hcount : n = 0 := by
          have hlt : b - a + step - 1 < 2 * step := by omega
          have := Nat.div_lt_of_lt_mul (by rwa [Nat.mul_comm] at hlt)
          omega
        rw [hcount, Nat.min_eq_right hlast]
        exact List.append_nil _
      · have hnext : (b - (a + step) + step - 1) / step = n := by
          have hdecompose : b - a + step - 1 = b - (a + step) + step - 1 + step := by omega
          rw [hdecompose, Nat.add_div_right _ hstep] at hn
          omega
        rw [ih (by omega) hnext, Nat.min_eq_left (by omega)]
        exact stretch_append xs (Nat.le_add_right _ _) (by omega)

/-- No piece is empty or too long. -/
theorem length_of_mem_pieces {xs : List α} {a b step : Nat} (hstep : 0 < step)
    (hb : b ≤ xs.length) {piece : List α} (h : piece ∈ pieces xs a b step) :
    0 < piece.length ∧ piece.length ≤ step := by
  obtain ⟨start, hmem, rfl⟩ := List.mem_map.mp h
  obtain ⟨i, hi, rfl⟩ := List.mem_range'.mp hmem
  rw [length_stretch (by omega)]
  have hlt : step * i < b - a := by
    have := (Nat.lt_div_iff_mul_lt hstep).mp hi
    rw [Nat.mul_comm]
    omega
  omega

end Stretch
