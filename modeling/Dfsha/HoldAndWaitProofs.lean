import Mathlib.Algebra.BigOperators.Fin
import Mathlib.Algebra.Order.BigOperators.Group.Finset
import Mathlib.Data.Int.CardIntervalMod

/-! # Hold and wait along routes

    Every task has a route, a list of places, and takes one unit of each place
    in turn, keeping those it has.  A JAM is a choice of tasks and of how far
    each has come, in which every chosen task waits for a place all of whose
    units are taken.

    On windows of a ring the jams can be counted.  A place that is full makes
    the next one full: whoever holds the first either holds the next as well or
    waits for it.  So a jam fills the whole ring, and the tasks hold at most
    their routes without the last place.  Conversely tasks laid end to end
    around the ring, like a thread on a screw, fill it as soon as there are
    enough of them. -/

namespace HoldAndWait

variable {ι α : Type} [Fintype ι] [DecidableEq α]

/-- The units of a place that are taken, when the tasks have come so far. -/
def taken (route : ι → List α) (cut : ι → ℕ) (a : α) : ℕ :=
  ∑ i, ((route i).take (cut i)).count a

theorem taken_mono {route : ι → List α} {cut cut' : ι → ℕ} (h : ∀ i, cut i ≤ cut' i) (a : α) :
    taken route cut a ≤ taken route cut' a :=
  Finset.sum_le_sum fun i _ => (List.take_sublist_take_left (h i)).count_le a

/-- One task takes one more unit. -/
theorem taken_succ [DecidableEq ι] {route : ι → List α} {cut : ι → ℕ} {i : ι} {a : α}
    (ha : (route i)[cut i]? = some a) (b : α) :
    taken route (Function.update cut i (cut i + 1)) b =
      taken route cut b + if a = b then 1 else 0 := by
  unfold taken
  rw [← Finset.add_sum_erase _ _ (Finset.mem_univ i),
    ← Finset.add_sum_erase _ _ (Finset.mem_univ i)]
  have hothers : ∑ j ∈ Finset.univ.erase i,
      ((route j).take (Function.update cut i (cut i + 1) j)).count b =
      ∑ j ∈ Finset.univ.erase i, ((route j).take (cut j)).count b := by
    refine Finset.sum_congr rfl fun j hj => ?_
    rw [Function.update_of_ne (Finset.ne_of_mem_erase hj)]
  rw [hothers, Function.update_self, List.take_add_one, ha, List.count_append]
  have hone : (some a).toList.count b = if a = b then 1 else 0 := by
    rw [Option.toList_some, List.count_singleton]
    simp only [beq_iff_eq]
  omega

/-- The active tasks wait for places that are full; the others hold nothing. -/
structure Jam (units : ℕ) (route : ι → List α) (active : ι → Prop) (cut : ι → ℕ) : Prop where
  someone : ∃ i, active i
  waits : ∀ i, active i → ∃ a, (route i)[cut i]? = some a ∧ taken route cut a = units
  rest : ∀ i, ¬ active i → cut i = 0
  fits : ∀ a, taken route cut a ≤ units

/-- `len` places of a ring of `n`, one after the other. -/
def window (place : ℕ → α) (n len start : ℕ) : List α :=
  (List.range len).map fun j => place ((start + j) % n)

section Window

variable {place : ℕ → α} {n len start : ℕ}

omit [DecidableEq α] in
theorem window_mod : window place n len (start % n) = window place n len start := by
  unfold window
  refine List.map_congr_left fun j _ => ?_
  rw [Nat.mod_add_mod]

omit [DecidableEq α] in
theorem getElem?_window {j : ℕ} (hj : j < len) :
    (window place n len start)[j]? = some (place ((start + j) % n)) := by
  rw [window, List.getElem?_map, List.getElem?_range hj]
  rfl

omit [DecidableEq α] in
theorem length_window : (window place n len start).length = len := by
  rw [window, List.length_map, List.length_range]

/-- A place of the ring is taken as often as the window meets its position. -/
theorem count_window (hinj : Set.InjOn place {x | x < n}) {x c : ℕ} (hx : x < n)
    (hc : c ≤ len) : ((window place n len start).take c).count (place x) =
      Nat.count (fun j => (start + j) % n = x) c := by
  rw [window, ← List.map_take, List.take_range, Nat.min_eq_left hc, List.count_eq_countP,
    List.countP_map, Nat.count]
  refine List.countP_congr fun j _ => ?_
  have hpos : 0 < n := by omega
  simp only [Function.comp, beq_iff_eq, decide_eq_true_eq]
  exact hinj.eq_iff (Nat.mod_lt _ hpos) hx

end Window

/-! ## Counting on the ring -/

/-- The first numbers meet each position as often as they go around. -/
theorem count_mod_eq {n x : ℕ} (hx : x < n) (units : ℕ) :
    Nat.count (fun k => k % n = x) (units * n) = units := by
  have hpos : 0 < n := by omega
  have hiff : (fun k => k % n = x) = fun k => k ≡ x [MOD n] := by
    funext k
    rw [Nat.ModEq, Nat.mod_eq_of_lt hx]
  have hcount := Nat.count_modEq_card (units * n) hpos x
  rw [Nat.mul_div_cancel _ hpos, Nat.mul_mod_left, if_neg (Nat.not_lt_zero _)] at hcount
  simp only [hiff]
  exact hcount

/-- Every number meets one position. -/
theorem sum_count_mod {n : ℕ} (hpos : 0 < n) (start c : ℕ) :
    ∑ x ∈ Finset.range n, Nat.count (fun j => (start + j) % n = x) c = c := by
  induction c with
  | zero => exact Finset.sum_eq_zero fun _ _ => Nat.count_zero _
  | succ c ih =>
      simp only [Nat.count_succ]
      rw [Finset.sum_add_distrib, ih, Finset.sum_ite_eq,
        if_pos (Finset.mem_range.mpr (Nat.mod_lt _ hpos))]

/-- What meets a position meets the next one a step later. -/
theorem count_next_le {n start x : ℕ} (c : ℕ) :
    Nat.count (fun j => (start + j) % n = x) c ≤
      Nat.count (fun j => (start + j) % n = (x + 1) % n) (c + 1) := by
  rw [Nat.count_succ']
  refine le_trans (Nat.count_mono_left fun j _ hj => ?_) (Nat.le_add_right _ _)
  rw [← Nat.add_assoc, ← hj, Nat.mod_add_mod]

/-- Tasks laid end to end, up to a total. -/
theorem sum_count_laid {n x : ℕ} (m total tasks : ℕ) :
    ∑ i : Fin tasks, Nat.count (fun j => (i * m + j) % n = x) (min m (total - i * m)) =
      Nat.count (fun k => k % n = x) (min (tasks * m) total) := by
  induction tasks with
  | zero =>
      rw [Nat.zero_mul, Nat.zero_min]
      rfl
  | succ tasks ih =>
      rw [Fin.sum_univ_castSucc]
      simp only [Fin.val_castSucc, Fin.val_last]
      rw [ih, Nat.succ_mul]
      by_cases hle : tasks * m ≤ total
      · have hsplit : min (tasks * m + m) total = tasks * m + min m (total - tasks * m) := by
          omega
        rw [hsplit, Nat.count_add, Nat.min_eq_left hle]
      · have hnone : min m (total - tasks * m) = 0 := by omega
        have hall : min (tasks * m + m) total = min (tasks * m) total := by omega
        rw [hnone, hall, Nat.count_zero, Nat.add_zero]

/-! ## Jams of windows -/

section Ring

variable {place : ℕ → α} {n len units : ℕ} {start : ι → ℕ} {active : ι → Prop} {cut : ι → ℕ}

theorem taken_window (hinj : Set.InjOn place {x | x < n}) (hcut : ∀ i, cut i ≤ len) {x : ℕ}
    (hx : x < n) : taken (fun i => window place n len (start i)) cut (place x) =
      ∑ i, Nat.count (fun j => (start i + j) % n = x) (cut i) :=
  Finset.sum_congr rfl fun i _ => count_window hinj hx (hcut i)

/-- Nobody is at the end of its route. -/
theorem Jam.cut_lt (hlen : 0 < len)
    (hjam : Jam units (fun i => window place n len (start i)) active cut) (i : ι) :
    cut i < len := by
  by_cases hi : active i
  · obtain ⟨a, ha, _⟩ := hjam.waits i hi
    obtain ⟨hlt, _⟩ := List.getElem?_eq_some_iff.mp ha
    rwa [length_window] at hlt
  · rw [hjam.rest i hi]
    exact hlen

/-- A full place makes the next one full: those that hold it hold the next as
    well, or wait for it. -/
theorem Jam.next_full (hinj : Set.InjOn place {x | x < n}) (hlen : 0 < len)
    (hjam : Jam units (fun i => window place n len (start i)) active cut) {x : ℕ} (hx : x < n)
    (hfull : taken (fun i => window place n len (start i)) cut (place x) = units) :
    taken (fun i => window place n len (start i)) cut (place ((x + 1) % n)) = units := by
  have hcut : ∀ i, cut i ≤ len := fun i => (hjam.cut_lt hlen i).le
  by_cases hwait : ∃ i, active i ∧ (start i + cut i) % n = (x + 1) % n
  · obtain ⟨i, hi, hnext⟩ := hwait
    obtain ⟨a, ha, hfull'⟩ := hjam.waits i hi
    rw [getElem?_window (hjam.cut_lt hlen i), hnext] at ha
    rw [Option.some.inj ha]
    exact hfull'
  · refine le_antisymm (hjam.fits _) ?_
    rw [← hfull, taken_window hinj hcut hx,
      taken_window hinj hcut (Nat.mod_lt _ (by omega))]
    refine Finset.sum_le_sum fun i _ => ?_
    by_cases hi : active i
    · have hle := @count_next_le n (start i) x (cut i)
      rw [Nat.count_succ, if_neg fun h => hwait ⟨i, hi, h⟩] at hle
      exact hle
    · rw [hjam.rest i hi, Nat.count_zero, Nat.count_zero]

/-- **A JAM FILLS THE RING.** -/
theorem Jam.all_full (hinj : Set.InjOn place {x | x < n}) (hlen : 0 < len)
    (hjam : Jam units (fun i => window place n len (start i)) active cut) {x : ℕ} (hx : x < n) :
    taken (fun i => window place n len (start i)) cut (place x) = units := by
  have hpos : 0 < n := by omega
  obtain ⟨i, hi⟩ := hjam.someone
  obtain ⟨a, ha, hfull⟩ := hjam.waits i hi
  rw [getElem?_window (hjam.cut_lt hlen i)] at ha
  rw [← Option.some.inj ha] at hfull
  -- from that place on, one step at a time around the ring
  have hfrom : ∀ d, taken (fun i => window place n len (start i)) cut
      (place ((start i + cut i + d) % n)) = units := by
    intro d
    induction d with
    | zero => exact hfull
    | succ d ih =>
        have hnext := hjam.next_full hinj hlen (Nat.mod_lt _ hpos) ih
        rw [Nat.mod_add_mod] at hnext
        exact hnext
  have hback := hfrom (n - (start i + cut i) % n + x)
  have hx' : (start i + cut i + (n - (start i + cut i) % n + x)) % n = x := by
    have hlt := Nat.mod_lt (start i + cut i) hpos
    rw [← Nat.mod_add_mod, ← Nat.add_assoc, Nat.add_sub_cancel' hlt.le, Nat.add_mod_left,
      Nat.mod_eq_of_lt hx]
  rw [hx'] at hback
  exact hback

/-- A jam needs enough tasks. -/
theorem Jam.le_card (hinj : Set.InjOn place {x | x < n}) (hn : 0 < n) (hlen : 0 < len)
    (hjam : Jam units (fun i => window place n len (start i)) active cut) :
    units * n ≤ Fintype.card ι * (len - 1) := by
  have hcut : ∀ i, cut i ≤ len := fun i => (hjam.cut_lt hlen i).le
  calc units * n
      = ∑ x ∈ Finset.range n,
          taken (fun i => window place n len (start i)) cut (place x) := by
        rw [Finset.sum_congr rfl fun x hx => hjam.all_full hinj hlen (Finset.mem_range.mp hx),
          Finset.sum_const, Finset.card_range, smul_eq_mul, Nat.mul_comm]
    _ = ∑ x ∈ Finset.range n, ∑ i, Nat.count (fun j => (start i + j) % n = x) (cut i) :=
        Finset.sum_congr rfl fun x hx => taken_window hinj hcut (Finset.mem_range.mp hx)
    _ = ∑ i, cut i := by
        rw [Finset.sum_comm]
        exact Finset.sum_congr rfl fun i _ => sum_count_mod hn (start i) (cut i)
    _ ≤ ∑ _i : ι, (len - 1) :=
        Finset.sum_le_sum fun i _ => Nat.le_sub_one_of_lt (hjam.cut_lt hlen i)
    _ = Fintype.card ι * (len - 1) := by
        rw [Finset.sum_const, Finset.card_univ, smul_eq_mul]

end Ring

/-- **ENOUGH TASKS CAN JAM**, laid end to end around the ring. -/
theorem jam_of_le {place : ℕ → α} {n m units tasks : ℕ} (hinj : Set.InjOn place {x | x < n})
    (hn : 0 < n) (hunits : 0 < units) (hle : units * n ≤ tasks * m) :
    Jam units (fun i : Fin tasks => window place n (m + 1) (i * m)) (fun _ => True)
      (fun i => min m (units * n - i * m)) := by
  have hcut : ∀ i : Fin tasks, min m (units * n - i * m) ≤ m + 1 := fun i => by omega
  have hfull : ∀ x, x < n → taken (fun i : Fin tasks => window place n (m + 1) (i * m))
      (fun i => min m (units * n - i * m)) (place x) = units := by
    intro x hx
    rw [taken_window hinj hcut hx, sum_count_laid, Nat.min_eq_right hle, count_mod_eq hx]
  refine ⟨?_, ?_, fun i hi => absurd trivial hi, ?_⟩
  · have htasks : 0 < tasks := by
      by_contra hnone
      obtain rfl : tasks = 0 := by omega
      rw [Nat.zero_mul] at hle
      exact absurd hle (Nat.not_le.mpr (Nat.mul_pos hunits hn))
    exact ⟨⟨0, htasks⟩, trivial⟩
  · intro i _
    exact ⟨_, getElem?_window (by omega), hfull _ (Nat.mod_lt _ hn)⟩
  · intro a
    by_cases ha : ∃ x, x < n ∧ place x = a
    · obtain ⟨x, hx, rfl⟩ := ha
      exact (hfull x hx).le
    · refine le_trans (Finset.sum_eq_zero fun i _ => ?_).le (Nat.zero_le _)
      rw [List.count_eq_zero]
      intro hmem
      obtain ⟨j, _, hj⟩ := List.mem_map.mp (List.mem_of_mem_take hmem)
      exact ha ⟨_, Nat.mod_lt _ hn, hj⟩

end HoldAndWait
