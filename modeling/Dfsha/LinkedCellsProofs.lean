import Mathlib.Algebra.BigOperators.Group.Finset.Piecewise
import Mathlib.Algebra.Order.BigOperators.Group.Finset
import Mathlib.Tactic.Ring

/-! # Cells in a row

    A row of cells numbered from 0, where every property speaks of one cell or
    of a cell and the next.  Changing one cell, or two that are next to each
    other, leaves the rest to be seen from the cells that changed.  The weight
    of a row is the sum of the weights of its first cells. -/

namespace LinkedCells

variable {H : Type} {I : Nat → H → Prop} {L : Nat → H → H → Prop} {cells : Nat → H}

/-- Every cell satisfies `I`, and every cell and the next satisfy `L`. -/
structure Linked (I : Nat → H → Prop) (L : Nat → H → H → Prop) (cells : Nat → H) :
    Prop where
  cell : ∀ i, I i (cells i)
  link : ∀ i, L i (cells i) (cells (i + 1))

/-- **CHANGING ONE CELL.** -/
theorem Linked.update {j : Nat} {c : H} (h : Linked I L cells) (hcell : I j c)
    (hnext : L j c (cells (j + 1))) (hprev : ∀ i, i + 1 = j → L i (cells i) c) :
    Linked I L (Function.update cells j c) := by
  refine ⟨fun i => ?_, fun i => ?_⟩
  · by_cases hi : i = j
    · rw [hi, Function.update_self]
      exact hcell
    · rw [Function.update_of_ne hi]
      exact h.cell i
  · by_cases hi : i = j
    · rw [hi, Function.update_self, Function.update_of_ne (by omega)]
      exact hnext
    · rw [Function.update_of_ne hi]
      by_cases hi' : i + 1 = j
      · rw [hi', Function.update_self]
        exact hprev i hi'
      · rw [Function.update_of_ne hi']
        exact h.link i

/-- **CHANGING A CELL AND THE NEXT.** -/
theorem Linked.update_pair {j : Nat} {c d : H} (h : Linked I L cells) (hcell : I j c)
    (hcell' : I (j + 1) d) (hlink : L j c d) (hprev : ∀ i, i + 1 = j → L i (cells i) c)
    (hnext : L (j + 1) d (cells (j + 2))) :
    Linked I L (Function.update (Function.update cells j c) (j + 1) d) := by
  refine ⟨fun i => ?_, fun i => ?_⟩
  · by_cases hi : i = j + 1
    · rw [hi, Function.update_self]
      exact hcell'
    · rw [Function.update_of_ne hi]
      by_cases hi' : i = j
      · rw [hi', Function.update_self]
        exact hcell
      · rw [Function.update_of_ne hi']
        exact h.cell i
  · by_cases hi : i = j + 1
    · rw [hi, Function.update_self, Function.update_of_ne (by omega),
        Function.update_of_ne (by omega)]
      exact hnext
    · rw [Function.update_of_ne hi]
      by_cases hi' : i = j
      · rw [hi', Function.update_self, Function.update_self]
        exact hlink
      · rw [Function.update_of_ne hi', Function.update_of_ne (by omega)]
        by_cases hi'' : i + 1 = j
        · rw [hi'', Function.update_self]
          exact hprev i hi''
        · rw [Function.update_of_ne hi'']
          exact h.link i

/-! ## Weights -/

/-- The weight of the first `n` cells. -/
def weight (w : Nat → H → Nat) (n : Nat) (cells : Nat → H) : Nat :=
  ∑ i ∈ Finset.range n, w i (cells i)

variable {w : Nat → H → Nat} {n j : Nat} {c d : H}

theorem weight_update (w : Nat → H → Nat) (cells : Nat → H) (c : H) (hj : j < n) :
    weight w n (Function.update cells j c) + w j (cells j)
      = weight w n cells + w j c := by
  have hmem : j ∈ Finset.range n := Finset.mem_range.mpr hj
  have hfun : (fun i => w i (Function.update cells j c i))
      = Function.update (fun i => w i (cells i)) j (w j c) := by
    funext i
    by_cases hi : i = j
    · rw [hi, Function.update_self, Function.update_self]
    · rw [Function.update_of_ne hi, Function.update_of_ne hi]
  rw [weight, hfun, Finset.sum_update_of_mem hmem, weight,
    ← Finset.sum_sdiff (Finset.singleton_subset_iff.mpr hmem), Finset.sum_singleton]
  ring

/-- A change that makes one cell lighter makes the row lighter. -/
theorem weight_update_lt (hj : j < n) (h : w j c < w j (cells j)) :
    weight w n (Function.update cells j c) < weight w n cells := by
  have := weight_update w cells c hj
  omega

/-- So does one that makes a cell and the next lighter, taken together. -/
theorem weight_update_pair_lt (hj : j + 1 < n)
    (h : w j c + w (j + 1) d < w j (cells j) + w (j + 1) (cells (j + 1))) :
    weight w n (Function.update (Function.update cells j c) (j + 1) d)
      < weight w n cells := by
  have h₁ := weight_update w cells c (show j < n by omega)
  have h₂ := weight_update w (Function.update cells j c) d hj
  rw [Function.update_of_ne (by omega : j + 1 ≠ j)] at h₂
  omega

end LinkedCells
