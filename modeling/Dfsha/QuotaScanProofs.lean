import Mathlib.Data.List.Forall2
import Mathlib.Algebra.BigOperators.Group.List.Basic
import Mathlib.Algebra.Order.BigOperators.Group.List
import Mathlib.Logic.Function.Iterate
import Mathlib.Tactic.Ring

/-! # Passes over a list of items, under a quota

    Each item goes through states of its own: an item that is tried either
    advances to the next state or stays.  A pass walks the list and tries the
    items in their order, and stops after a number of tries, whether they
    advance or not.  So the items that are tried for ever without advancing
    use up the quota of all the items behind them.

    This file says when repeated passes bring every item to its last state,
    and that they do so within a number of passes that is bounded by the
    ranks of the items. -/

namespace QuotaScan

variable {α : Type}

/-- What a pass does with an item: whether it tries it, and what it advances
    to.  Advancing lowers the rank, so every item has a last state. -/
structure Work (α : Type) where
  tries : α → Bool
  advance : α → Option α
  rank : α → Nat
  tries_of_advance : ∀ {x y : α}, advance x = some y → tries x = true
  rank_lt : ∀ {x y : α}, advance x = some y → rank y < rank x

namespace Work

variable (w : Work α)

/-- The item after a try. -/
def attempt (x : α) : α := (w.advance x).getD x

/-- One pass, with the tries that are left. -/
def pass : Nat → List α → List α
  | _, [] => []
  | 0, l => l
  | q + 1, x :: l => if w.tries x then w.attempt x :: pass q l else x :: pass (q + 1) l

/-- The last state of an item. -/
def settle (x : α) : α := w.attempt^[w.rank x] x

/-- The item is tried in its last state too, for ever. -/
def stuck (x : α) : Bool := w.tries (w.settle x)

/-- No item that still advances is behind so many stuck ones that they use up
    the quota. -/
def Reached (q : Nat) (l : List α) : Prop :=
  ∀ pre x post, l = pre ++ x :: post → w.advance x ≠ none → pre.countP w.stuck < q

variable {w}

theorem attempt_of_none {x : α} (h : w.advance x = none) : w.attempt x = x := by
  rw [attempt, h]
  rfl

theorem attempt_of_some {x y : α} (h : w.advance x = some y) : w.attempt x = y := by
  rw [attempt, h]
  rfl

/-! ## Last states -/

theorem iterate_attempt_of_none {x : α} (h : w.advance x = none) (n : Nat) :
    w.attempt^[n] x = x :=
  Function.iterate_fixed (attempt_of_none h) n

/-- As many tries as the rank bring an item to its last state. -/
theorem advance_iterate {x : α} {n : Nat} (h : w.rank x ≤ n) :
    w.advance (w.attempt^[n] x) = none := by
  induction n generalizing x with
  | zero =>
      cases hx : w.advance x with
      | none => exact hx
      | some y =>
          have hlt := w.rank_lt hx
          omega
  | succ n ih =>
      rw [Function.iterate_succ_apply]
      cases hx : w.advance x with
      | none =>
          rw [attempt_of_none hx, iterate_attempt_of_none hx]
          exact hx
      | some y =>
          have hlt := w.rank_lt hx
          rw [attempt_of_some hx]
          exact ih (by omega)

/-- The last state advances no more. -/
theorem advance_settle (x : α) : w.advance (w.settle x) = none := advance_iterate le_rfl

theorem settle_of_none {x : α} (h : w.advance x = none) : w.settle x = x :=
  iterate_attempt_of_none h _

/-- More tries than the rank make no difference. -/
theorem iterate_eq_settle {x : α} {n : Nat} (h : w.rank x ≤ n) :
    w.attempt^[n] x = w.settle x := by
  obtain ⟨k, rfl⟩ := Nat.exists_eq_add_of_le h
  rw [Nat.add_comm, Function.iterate_add_apply]
  exact iterate_attempt_of_none (advance_settle x) k

/-- An item that advances keeps its last state. -/
theorem settle_of_some {x y : α} (h : w.advance x = some y) : w.settle x = w.settle y := by
  have hlt := w.rank_lt h
  obtain ⟨n, hn⟩ : ∃ n, w.rank x = n + 1 := ⟨w.rank x - 1, by omega⟩
  rw [settle, hn, Function.iterate_succ_apply, attempt_of_some h]
  exact iterate_eq_settle (by omega)

theorem settle_attempt (x : α) : w.settle (w.attempt x) = w.settle x := by
  cases h : w.advance x with
  | none => rw [attempt_of_none h]
  | some y => rw [attempt_of_some h, settle_of_some h]

theorem rank_attempt_le (x : α) : w.rank (w.attempt x) ≤ w.rank x := by
  cases h : w.advance x with
  | none => rw [attempt_of_none h]
  | some y =>
      rw [attempt_of_some h]
      exact (w.rank_lt h).le

/-- A stuck item is tried in every state. -/
theorem tries_of_stuck {x : α} (h : w.stuck x = true) : w.tries x = true := by
  cases hx : w.advance x with
  | none => rwa [stuck, settle_of_none hx] at h
  | some y => exact w.tries_of_advance hx

/-! ## One pass -/

@[simp] theorem pass_nil (q : Nat) : w.pass q [] = [] := by
  cases q <;> rfl

@[simp] theorem pass_zero (l : List α) : w.pass 0 l = l := by
  cases l <;> rfl

theorem pass_tried {x : α} (h : w.tries x = true) (q : Nat) (l : List α) :
    w.pass (q + 1) (x :: l) = w.attempt x :: w.pass q l := if_pos h

theorem pass_passed {x : α} (h : w.tries x ≠ true) (q : Nat) (l : List α) :
    w.pass q (x :: l) = x :: w.pass q l := by
  cases q with
  | zero => rw [pass_zero, pass_zero]
  | succ q => exact if_neg h

/-- In a pass every item stays or is tried once. -/
theorem forall₂_pass (q : Nat) (l : List α) :
    List.Forall₂ (fun x y => y = x ∨ y = w.attempt x) l (w.pass q l) := by
  induction l generalizing q with
  | nil =>
      rw [pass_nil]
      exact .nil
  | cons x l ih =>
      by_cases hx : w.tries x = true
      · cases q with
        | zero =>
            rw [pass_zero]
            exact List.forall₂_same.mpr fun _ _ => .inl rfl
        | succ q =>
            rw [pass_tried hx]
            exact .cons (.inr rfl) (ih q)
      · rw [pass_passed hx]
        exact .cons (.inl rfl) (ih q)

/-- A pass keeps the last states. -/
theorem map_settle_pass (q : Nat) (l : List α) :
    (w.pass q l).map w.settle = l.map w.settle := by
  have h := forall₂_pass (w := w) q l
  generalize w.pass q l = l' at h ⊢
  induction h with
  | nil => rfl
  | cons hxy _ ih =>
      rw [List.map_cons, List.map_cons, ih]
      rcases hxy with rfl | rfl
      · rfl
      · rw [settle_attempt]

theorem countP_stuck (l : List α) : l.countP w.stuck = (l.map w.settle).countP w.tries :=
  List.countP_map.symm

/-- **STUCK ITEMS USE UP THE QUOTA**: what is behind them stays as it is. -/
theorem pass_append_of_stuck {q : Nat} {pre : List α} (h : q ≤ pre.countP w.stuck)
    (rest : List α) : w.pass q (pre ++ rest) = w.pass q pre ++ rest := by
  induction pre generalizing q with
  | nil =>
      obtain rfl : q = 0 := Nat.le_zero.mp h
      rw [List.nil_append, pass_zero, pass_zero]
      rfl
  | cons x pre ih =>
      rw [List.cons_append]
      by_cases hx : w.tries x = true
      · cases q with
        | zero =>
            rw [pass_zero, pass_zero]
            rfl
        | succ q =>
            have hcount : pre.countP w.stuck + 1 ≥ (x :: pre).countP w.stuck := by
              rw [List.countP_cons]
              split <;> omega
            rw [pass_tried hx, pass_tried hx, ih (by omega), List.cons_append]
      · have hfree : ¬ w.stuck x = true := fun hstuck => hx (tries_of_stuck hstuck)
        rw [List.countP_cons_of_neg hfree] at h
        rw [pass_passed hx, pass_passed hx, ih h, List.cons_append]

/-! ## The rank of a list -/

/-- The rank of a list is that of its items together. -/
def total (w : Work α) (l : List α) : Nat := (l.map w.rank).sum

@[simp] theorem total_cons (x : α) (l : List α) : w.total (x :: l) = w.rank x + w.total l :=
  rfl

theorem total_pass_le (q : Nat) (l : List α) : w.total (w.pass q l) ≤ w.total l := by
  have h := forall₂_pass (w := w) q l
  generalize w.pass q l = l' at h ⊢
  induction h with
  | nil => exact le_rfl
  | @cons x _ _ _ hxy _ ih =>
      have hle := rank_attempt_le (w := w) x
      rw [total_cons, total_cons]
      rcases hxy with rfl | rfl
      · omega
      · omega

/-- **A PASS MAKES PROGRESS**: if an item still advances and the quota reaches
    all items that do, the rank of the list goes down. -/
theorem total_pass_lt {q : Nat} {l : List α} (h : w.Reached q l)
    (hopen : ∃ x ∈ l, w.advance x ≠ none) : w.total (w.pass q l) < w.total l := by
  induction l generalizing q with
  | nil =>
      obtain ⟨x, hx, _⟩ := hopen
      exact absurd hx List.not_mem_nil
  | cons x l ih =>
      cases hx : w.advance x with
      | some y =>
          have hq : 0 < q := h [] x l rfl (by rw [hx]; exact Option.some_ne_none y)
          obtain ⟨q, rfl⟩ := Nat.exists_eq_add_of_lt hq
          have hlt := w.rank_lt hx
          have hle := total_pass_le (w := w) (0 + q) l
          rw [pass_tried (w.tries_of_advance hx), attempt_of_some hx, total_cons, total_cons]
          omega
      | none =>
          obtain ⟨z, hz, hadvance⟩ := hopen
          have hrest : z ∈ l := by
            rcases List.mem_cons.mp hz with rfl | hz
            · exact absurd hx hadvance
            · exact hz
          have hstuck : w.stuck x = w.tries x := by rw [stuck, settle_of_none hx]
          by_cases htries : w.tries x = true
          · -- the head uses one of the tries, and stays
            obtain ⟨pre, post, rfl⟩ := List.append_of_mem hrest
            have hq := h (x :: pre) z post rfl hadvance
            rw [List.countP_cons_of_pos (by rw [hstuck]; exact htries)] at hq
            obtain ⟨q, rfl⟩ : ∃ n, q = n + 1 := ⟨q - 1, by omega⟩
            have hreached : w.Reached q (pre ++ z :: post) := by
              intro pre' y post' heq hy
              have hy := h (x :: pre') y post' (by rw [heq]; rfl) hy
              rw [List.countP_cons_of_pos (by rw [hstuck]; exact htries)] at hy
              omega
            have hlt := ih hreached ⟨z, hrest, hadvance⟩
            rw [pass_tried htries, attempt_of_none hx, total_cons, total_cons]
            omega
          · have hreached : w.Reached q l := by
              intro pre' y post' heq hy
              have hy := h (x :: pre') y post' (by rw [heq]; rfl) hy
              rwa [List.countP_cons_of_neg (by rw [hstuck]; exact htries)] at hy
            have hlt := ih hreached ⟨z, hrest, hadvance⟩
            rw [pass_passed htries, total_cons, total_cons]
            omega

/-- An item that advances after a pass advanced before, and there are as many
    stuck items before it. -/
theorem exists_split_before {l l' : List α}
    (h : List.Forall₂ (fun x y => y = x ∨ y = w.attempt x) l l') {pre' post' : List α}
    {x' : α} (heq : l' = pre' ++ x' :: post') (hopen : w.advance x' ≠ none) :
    ∃ pre x post, l = pre ++ x :: post ∧ w.advance x ≠ none ∧
      pre.countP w.stuck = pre'.countP w.stuck := by
  induction h generalizing pre' with
  | nil => exact absurd heq.symm (List.append_ne_nil_of_right_ne_nil _ (List.cons_ne_nil _ _))
  | @cons x y l l' hxy _ ih =>
      have hstuck : w.stuck y = w.stuck x := by
        rcases hxy with rfl | rfl
        · rfl
        · rw [stuck, stuck, settle_attempt]
      cases pre' with
      | nil =>
          obtain ⟨rfl, rfl⟩ := List.cons.inj heq
          refine ⟨[], x, l, rfl, ?_, rfl⟩
          rcases hxy with rfl | rfl
          · exact hopen
          · intro hx
            rw [attempt_of_none hx] at hopen
            exact hopen hx
      | cons z pre' =>
          obtain ⟨rfl, hrest⟩ := List.cons.inj heq
          obtain ⟨pre, a, post, rfl, ha, hcount⟩ := ih hrest
          refine ⟨x :: pre, a, post, rfl, ha, ?_⟩
          rw [List.countP_cons, List.countP_cons, hcount, hstuck]

/-- What the quota reaches, it reaches after a pass. -/
theorem reached_pass {q : Nat} {l : List α} (h : w.Reached q l) :
    w.Reached q (w.pass q l) := by
  intro pre' x' post' heq hopen
  obtain ⟨pre, x, post, rfl, hx, hcount⟩ :=
    exists_split_before (forall₂_pass q l) heq hopen
  rw [← hcount]
  exact h pre x post rfl hx

/-! ## Repeated passes -/

theorem map_settle_iterate (q k : Nat) (l : List α) :
    ((w.pass q)^[k] l).map w.settle = l.map w.settle := by
  induction k generalizing l with
  | zero => rfl
  | succ k ih => rw [Function.iterate_succ_apply, ih, map_settle_pass]

/-- Some number of passes, not above the rank of the list, settles it. -/
theorem exists_settled {q : Nat} {l : List α} (h : w.Reached q l) :
    ∃ k ≤ w.total l, ∀ x ∈ (w.pass q)^[k] l, w.advance x = none := by
  induction hn : w.total l using Nat.strongRecOn generalizing l with
  | _ n ih =>
      by_cases hopen : ∃ x ∈ l, w.advance x ≠ none
      · have hlt := total_pass_lt h hopen
        obtain ⟨k, hk, hsettled⟩ := ih _ (by omega) (reached_pass h) rfl
        exact ⟨k + 1, by omega, hsettled⟩
      · exact ⟨0, Nat.zero_le _, fun x hx => not_not.mp fun hne => hopen ⟨x, hx, hne⟩⟩

/-- An item behind stuck ones that use up the quota never changes. -/
theorem mem_iterate_of_stuck {q : Nat} {pre post : List α} {x : α}
    (h : q ≤ pre.countP w.stuck) (k : Nat) : x ∈ (w.pass q)^[k] (pre ++ x :: post) := by
  induction k generalizing pre with
  | zero => exact List.mem_append_right _ List.mem_cons_self
  | succ k ih =>
      rw [Function.iterate_succ_apply, pass_append_of_stuck h]
      refine ih ?_
      rwa [countP_stuck, map_settle_pass, ← countP_stuck]

theorem total_le {r : Nat} {l : List α} (h : ∀ x ∈ l, w.rank x ≤ r) :
    w.total l ≤ l.length * r := by
  have hle := List.sum_le_card_nsmul (l.map w.rank) r fun n hn => by
    obtain ⟨x, hx, rfl⟩ := List.mem_map.mp hn
    exact h x hx
  rwa [List.length_map] at hle

/-- **WHEN REPEATED PASSES MAKE EVERY ITEM GOOD**, if only items that advance
    no more can be good: the last states are good, and no item that advances
    is behind stuck items that use up the quota. -/
theorem exists_all_good_iff {good : α → Prop} (hgood : ∀ x, good x → w.advance x = none)
    {r : Nat} {l : List α} (hr : ∀ x ∈ l, w.rank x ≤ r) (q : Nat) :
    (∃ k ≤ l.length * r, ∀ y ∈ (w.pass q)^[k] l, good y) ↔
      (∀ x ∈ l, good (w.settle x)) ∧ w.Reached q l := by
  constructor
  · rintro ⟨k, _, hall⟩
    constructor
    · intro x hx
      have hmem : w.settle x ∈ ((w.pass q)^[k] l).map w.settle := by
        rw [map_settle_iterate]
        exact List.mem_map_of_mem hx
      obtain ⟨y, hy, heq⟩ := List.mem_map.mp hmem
      rw [← heq, settle_of_none (hgood y (hall y hy))]
      exact hall y hy
    · intro pre x post heq hopen
      by_contra hle
      rw [heq] at hall
      exact hopen (hgood x (hall x (mem_iterate_of_stuck (not_lt.mp hle) k)))
  · rintro ⟨hlast, hreached⟩
    obtain ⟨k, hk, hsettled⟩ := exists_settled hreached
    refine ⟨k, hk.trans (total_le hr), ?_⟩
    intro y hy
    have hmem : w.settle y ∈ l.map w.settle := by
      rw [← map_settle_iterate q k]
      exact List.mem_map_of_mem hy
    obtain ⟨x, hx, heq⟩ := List.mem_map.mp hmem
    rw [settle_of_none (hsettled y hy)] at heq
    rw [← heq]
    exact hlast x hx

end Work

end QuotaScan
