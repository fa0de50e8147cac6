import Dfsha.FileEditsProofs
import Dfsha.ParallelJobsProofs

/-! # Regions of a file

    Several writers edit one file, each in a region of its own.  A region sees
    only the edits of its writer, in their order, whatever the others do in
    between; and a file that is made of regions is known if they are. -/

namespace FileRegions

open Stretch FileEdits ParallelJobs

variable {α : Type} [Inhabited α]

/-- An edit that puts data in the `size` elements from `start` on. -/
def Inside (start size : Nat) : Edit α → Prop
  | .put p data => start ≤ p ∧ p + data.length ≤ start + size
  | .cut _ => False

/-- An edit as a region that begins at `start` sees it. -/
def moved (start : Nat) : Edit α → Edit α
  | .put p data => .put (p - start) data
  | .cut p => .cut (p - start)

section OneEdit

variable {a n : Nat} {e : Edit α} {xs : List α}

theorem length_apply (h : Inside a n e) (hfile : a + n ≤ xs.length) :
    (e.apply xs).length = xs.length := by
  cases e with
  | cut p => exact h.elim
  | put p data =>
      obtain ⟨_, hend⟩ := h
      rw [apply_put_of_le (by omega), List.length_append, List.length_append,
        List.length_take, List.length_drop]
      omega

theorem getElem?_apply_put {p : Nat} {data : List α} (h : p + data.length ≤ xs.length)
    (k : Nat) : ((Edit.put p data).apply xs)[k]? =
      if k < p then xs[k]? else if k < p + data.length then data[k - p]? else xs[k]? := by
  have hlength : (xs.take p).length = p := by
    rw [List.length_take]
    omega
  rw [apply_put_of_le (by omega), List.append_assoc]
  by_cases hbefore : k < p
  · rw [if_pos hbefore, List.getElem?_append_left (by omega), List.getElem?_take,
      if_pos hbefore]
  · rw [if_neg hbefore, List.getElem?_append_right (by omega), hlength]
    by_cases hinside : k < p + data.length
    · rw [if_pos hinside, List.getElem?_append_left (by omega)]
    · rw [if_neg hinside, List.getElem?_append_right (by omega), List.getElem?_drop]
      congr 1
      omega

omit [Inhabited α] in
theorem getElem?_stretch (xs : List α) (a b k : Nat) :
    (stretch xs a b)[k]? = if a + k < b then xs[a + k]? else none := by
  rw [stretch, List.getElem?_drop, List.getElem?_take]

/-- An edit inside a region is one of the region. -/
theorem stretch_apply_inside (h : Inside a n e) (hfile : a + n ≤ xs.length) :
    stretch (e.apply xs) a (a + n) = (moved a e).apply (stretch xs a (a + n)) := by
  cases e with
  | cut p => exact h.elim
  | put p data =>
      obtain ⟨hstart, hend⟩ := h
      have hlocal : p - a + data.length ≤ (stretch xs a (a + n)).length := by
        rw [length_stretch hfile]
        omega
      refine List.ext_getElem? fun k => ?_
      show _ = ((Edit.put (p - a) data).apply _)[k]?
      have hbefore : k < p - a ↔ a + k < p := by omega
      have hinside : k < p - a + data.length ↔ a + k < p + data.length := by omega
      have hindex : k - (p - a) = a + k - p := by omega
      rw [getElem?_apply_put hlocal, getElem?_stretch, getElem?_stretch,
        getElem?_apply_put (by omega), hindex]
      simp only [hbefore, hinside]
      by_cases hk : a + k < a + n
      · rw [if_pos hk, if_pos hk]
      · have hafter : ¬ a + k < p + data.length := by omega
        have hbehind : ¬ a + k < p := by omega
        rw [if_neg hk, if_neg hk, if_neg hbehind, if_neg hafter]

/-- An edit inside another region is not seen. -/
theorem stretch_apply_apart {b m : Nat} (h : Inside b m e) (hfile : b + m ≤ xs.length)
    (hapart : b + m ≤ a ∨ a + n ≤ b) :
    stretch (e.apply xs) a (a + n) = stretch xs a (a + n) := by
  cases e with
  | cut p => exact h.elim
  | put p data =>
      obtain ⟨hstart, hend⟩ := h
      refine List.ext_getElem? fun k => ?_
      rw [getElem?_stretch, getElem?_stretch, getElem?_apply_put (by omega)]
      by_cases hk : a + k < a + n
      · rw [if_pos hk, if_pos hk]
        rcases hapart with hapart | hapart
        · rw [if_neg (by omega), if_neg (by omega)]
        · rw [if_pos (by omega)]
      · rw [if_neg hk, if_neg hk]

end OneEdit

section ManyEdits

variable (start size : Nat → Nat) {changes : List (Nat × Edit α)} {xs : List α}

/-- **A REGION SEES ONLY THE EDITS OF ITS WRITER.** -/
theorem stretch_applyAll (hinside : ∀ x ∈ changes, Inside (start x.1) (size x.1) x.2)
    (hfile : ∀ x ∈ changes, start x.1 + size x.1 ≤ xs.length) (i : Nat)
    (hi : start i + size i ≤ xs.length)
    (hapart : ∀ x ∈ changes, x.1 ≠ i →
      start x.1 + size x.1 ≤ start i ∨ start i + size i ≤ start x.1) :
    stretch (applyAll (changes.map Prod.snd) xs) (start i) (start i + size i)
      = applyAll ((own i changes).map (moved (start i)))
          (stretch xs (start i) (start i + size i)) := by
  induction changes generalizing xs with
  | nil => rfl
  | cons x rest ih =>
      have hx := hinside x List.mem_cons_self
      have hxfile := hfile x List.mem_cons_self
      have hlength := length_apply hx hxfile
      have hrest := @ih (x.2.apply xs)
        (fun y hy => hinside y (List.mem_cons_of_mem _ hy))
        (fun y hy => by
          rw [hlength]
          exact hfile y (List.mem_cons_of_mem _ hy))
        (by rwa [hlength]) fun y hy => hapart y (List.mem_cons_of_mem _ hy)
      show stretch (applyAll (rest.map Prod.snd) (x.2.apply xs)) _ _ = _
      rw [hrest]
      by_cases hxi : x.1 = i
      · rw [own_cons_self hxi, ← hxi, stretch_apply_inside hx hxfile]
        rfl
      · rw [own_cons_ne hxi, stretch_apply_apart hx hxfile (hapart x List.mem_cons_self hxi)]

/-- The length of the file does not change. -/
theorem length_applyAll (hinside : ∀ x ∈ changes, Inside (start x.1) (size x.1) x.2)
    (hfile : ∀ x ∈ changes, start x.1 + size x.1 ≤ xs.length) :
    (applyAll (changes.map Prod.snd) xs).length = xs.length := by
  induction changes generalizing xs with
  | nil => rfl
  | cons x rest ih =>
      have hlength := length_apply (hinside x List.mem_cons_self)
        (hfile x List.mem_cons_self)
      show (applyAll (rest.map Prod.snd) (x.2.apply xs)).length = _
      rw [ih (fun y hy => hinside y (List.mem_cons_of_mem _ hy)) fun y hy => by
        rw [hlength]
        exact hfile y (List.mem_cons_of_mem _ hy)]
      exact hlength

end ManyEdits

/-- Data that fills a region is all that is left in it. -/
theorem put_whole {xs data : List α} (h : data.length = xs.length) :
    (Edit.put 0 data).apply xs = data := by
  rw [apply_put_of_le (Nat.zero_le _), List.take_zero, List.nil_append, Nat.zero_add,
    List.drop_of_length_le h.ge, List.append_nil]

/-! ## A file of regions -/

/-- Where each of a list of regions begins, one after the other. -/
def starts : Nat → List Nat → List Nat
  | _, [] => []
  | p, n :: ns => p :: starts (p + n) ns

theorem getElem?_starts {ns : List Nat} {i : Nat} (p : Nat) (h : i < ns.length) :
    (starts p ns)[i]? = some (p + (ns.take i).sum) := by
  induction ns generalizing p i with
  | nil => exact absurd h (Nat.not_lt_zero _)
  | cons n ns ih =>
      cases i with
      | zero => rfl
      | succ i =>
          rw [starts, List.getElem?_cons_succ, ih _ (Nat.lt_of_succ_lt_succ h),
            List.take_succ_cons, List.sum_cons, Nat.add_assoc]

omit [Inhabited α] in
/-- A file whose regions have some contents has all of them, in order. -/
theorem stretch_eq_flatten {xs : List α} {pieces : List (List α)} {p : Nat}
    (h : ∀ i piece, pieces[i]? = some piece →
      stretch xs (p + ((pieces.take i).map List.length).sum)
        (p + ((pieces.take i).map List.length).sum + piece.length) = piece) :
    stretch xs p (p + (pieces.map List.length).sum) = pieces.flatten := by
  induction pieces generalizing p with
  | nil => exact stretch_self xs p
  | cons piece rest ih =>
      have hfirst := h 0 piece rfl
      have hrest := ih (p := p + piece.length) fun i other hother => by
        have hi := h (i + 1) other hother
        rwa [List.take_succ_cons, List.map_cons, List.sum_cons, ← Nat.add_assoc] at hi
      rw [List.flatten_cons, ← hrest, List.map_cons, List.sum_cons, ← Nat.add_assoc]
      rw [List.take_zero, List.map_nil, List.sum_nil, Nat.add_zero] at hfirst
      rw [← stretch_append xs (b := p + piece.length) (Nat.le_add_right _ _)
        (Nat.le_add_right _ _), hfirst]

/-- Where the piece `i` begins when they are one after the other. -/
def startOf (pieces : List (List α)) (i : Nat) : Nat := ((pieces.take i).map List.length).sum

omit [Inhabited α] in
/-- A piece ends before the later ones begin. -/
theorem startOf_add {pieces : List (List α)} {i j : Nat} {piece : List α}
    (h : pieces[i]? = some piece) (hj : i < j) :
    startOf pieces i + piece.length ≤ startOf pieces j := by
  obtain ⟨k, rfl⟩ := Nat.exists_eq_add_of_lt hj
  have hsplit : pieces.take (i + k + 1)
      = pieces.take i ++ piece :: (pieces.drop (i + 1)).take k := by
    rw [Nat.add_right_comm, List.take_add, List.take_add_one, h, List.append_assoc]
    rfl
  unfold startOf
  rw [hsplit, List.map_append, List.sum_append, List.map_cons, List.sum_cons]
  omega

omit [Inhabited α] in
/-- A piece ends with the whole at the latest. -/
theorem startOf_add_le {pieces : List (List α)} {i : Nat} {piece : List α}
    (h : pieces[i]? = some piece) :
    startOf pieces i + piece.length ≤ (pieces.map List.length).sum := by
  have hle := startOf_add h (List.getElem?_eq_some_iff.mp h).1
  unfold startOf at hle ⊢
  rwa [List.take_length] at hle

/-- **A FILE WHOSE REGIONS ARE FILLED**: each writer edits its own region and
    leaves a piece there, so the file is the pieces one after the other. -/
theorem applyAll_regions {pieces : List (List α)} {changes : List (Nat × Edit α)}
    {xs : List α} (hxs : xs.length = (pieces.map List.length).sum)
    (honly : ∀ x ∈ changes, x.1 < pieces.length)
    (hwriter : ∀ i piece, pieces[i]? = some piece →
      (∀ e ∈ own i changes, Inside (startOf pieces i) piece.length e) ∧
      ∀ region : List α, region.length = piece.length →
        applyAll ((own i changes).map (moved (startOf pieces i))) region = piece) :
    applyAll (changes.map Prod.snd) xs = pieces.flatten := by
  obtain ⟨size, hsize⟩ : ∃ size : Nat → Nat, ∀ i piece, pieces[i]? = some piece →
      size i = piece.length :=
    ⟨fun i => (pieces[i]?.getD []).length, fun i piece h => by
      show (pieces[i]?.getD []).length = _
      rw [h]
      rfl⟩
  have hpiece : ∀ x ∈ changes, ∃ piece, pieces[x.1]? = some piece ∧
      size x.1 = piece.length := by
    intro x hx
    have h := List.getElem?_eq_getElem (honly x hx)
    exact ⟨_, h, hsize _ _ h⟩
  have hinside : ∀ x ∈ changes, Inside (startOf pieces x.1) (size x.1) x.2 := by
    intro x hx
    obtain ⟨piece, hp, hn⟩ := hpiece x hx
    rw [hn]
    exact (hwriter _ _ hp).1 x.2 (mem_own.mpr hx)
  have hfile : ∀ x ∈ changes, startOf pieces x.1 + size x.1 ≤ xs.length := by
    intro x hx
    obtain ⟨piece, hp, hn⟩ := hpiece x hx
    rw [hn, hxs]
    exact startOf_add_le hp
  have hlength := length_applyAll (startOf pieces) size hinside hfile
  have hall : stretch (applyAll (changes.map Prod.snd) xs) 0
      (0 + (pieces.map List.length).sum) = pieces.flatten := by
    refine stretch_eq_flatten fun i piece hp => ?_
    have hi : startOf pieces i + size i ≤ xs.length := by
      rw [hsize i piece hp, hxs]
      exact startOf_add_le hp
    have hregion := stretch_applyAll (startOf pieces) size hinside hfile i hi
      fun x hx hne => by
        obtain ⟨other, hother, hn⟩ := hpiece x hx
        rw [hn, hsize i piece hp]
        rcases Nat.lt_or_gt_of_ne hne with hlt | hlt
        · exact .inl (startOf_add hother hlt)
        · exact .inr (startOf_add hp hlt)
    rw [hsize i piece hp] at hregion hi
    show stretch _ (0 + startOf pieces i) (0 + startOf pieces i + piece.length) = piece
    rw [Nat.zero_add, hregion]
    refine (hwriter i piece hp).2 _ ?_
    rw [length_stretch hi, Nat.add_sub_cancel_left]
  rwa [Nat.zero_add, ← hxs, ← hlength, stretch, List.take_length, List.drop_zero] at hall

end FileRegions
