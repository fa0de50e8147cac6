import Mathlib.Data.List.Basic
import Mathlib.Tactic.Ring

/-! # Sequences cut into blocks

    A sequence cut into blocks of `B` elements, all full but the last one:
    the block `i` is what lies between `i * B` and `(i + 1) * B`
    (`eq_chunks_of_filled`).  Writing over a part of the sequence, inside it or
    past its end but without a hole, changes the blocks it touches and no
    other (`replace_chunks`). -/

namespace BlockChunks

variable {α : Type}

/-- The block `i` of a sequence. -/
def chunk (B : Nat) (xs : List α) (i : Nat) : List α := (xs.drop (i * B)).take B

/-- `k` blocks in a row, from the block `a` on. -/
def chunks (B : Nat) (xs : List α) (a k : Nat) : List (List α) :=
  (List.range' a k).map (chunk B xs)

/-- Every length but the last is `B`, and the last is between 1 and `B`. -/
def Filled {R : Type} [LE R] [One R] (B : R) : List R → Prop
  | [] => True
  | [n] => 1 ≤ n ∧ n ≤ B
  | n :: m :: rest => n = B ∧ Filled B (m :: rest)

instance Filled.decidable {R : Type} [LE R] [One R] [DecidableEq R] [DecidableLE R]
    (B : R) : (ns : List R) → Decidable (Filled B ns)
  | [] => inferInstanceAs (Decidable True)
  | [n] => inferInstanceAs (Decidable (1 ≤ n ∧ n ≤ B))
  | n :: m :: rest =>
      have := Filled.decidable B (m :: rest)
      inferInstanceAs (Decidable (n = B ∧ Filled B (m :: rest)))

/-- Write `ys` over a sequence at an offset. -/
def overwrite (off : Nat) (ys xs : List α) : List α :=
  xs.take off ++ ys ++ xs.drop (off + ys.length)

variable {B : Nat} {xs ys : List α} {bs : List (List α)} {off a k i : Nat}

/-! ## Blocks of a sequence -/

theorem length_chunk (B : Nat) (xs : List α) (i : Nat) :
    (chunk B xs i).length = min B (xs.length - i * B) := by
  rw [chunk, List.length_take, List.length_drop]

theorem chunks_succ (B : Nat) (xs : List α) (a k : Nat) :
    chunks B xs a (k + 1) = chunk B xs a :: chunks B xs (a + 1) k := by
  rw [chunks, List.range'_succ, List.map_cons]
  rfl

theorem chunks_append (B : Nat) (xs : List α) (a j k : Nat) :
    chunks B xs a j ++ chunks B xs (a + j) k = chunks B xs a (j + k) := by
  rw [chunks, chunks, chunks, ← List.map_append, List.range'_append_1]

theorem length_chunks (B : Nat) (xs : List α) (a k : Nat) :
    (chunks B xs a k).length = k := by
  rw [chunks, List.length_map, List.length_range']

/-- Blocks in a row make up the stretch of the sequence that they cover. -/
theorem flatten_chunks (B : Nat) (xs : List α) (a k : Nat) :
    (chunks B xs a k).flatten = (xs.drop (a * B)).take (k * B) := by
  induction k generalizing a with
  | zero => simp [chunks]
  | succ k ih =>
      have hcut : (k + 1) * B = B + k * B := by rw [Nat.succ_mul, Nat.add_comm]
      have hnext : (a + 1) * B = a * B + B := Nat.succ_mul a B
      rw [chunks_succ, List.flatten_cons, ih, chunk, hcut, hnext, List.take_add,
        List.drop_drop]

/-- The block `i + 1` is the block `i` of what follows the first block. -/
theorem chunk_succ (B : Nat) (xs : List α) (i : Nat) :
    chunk B xs (i + 1) = chunk B (xs.drop B) i := by
  rw [chunk, chunk, List.drop_drop, Nat.succ_mul, Nat.add_comm]

theorem chunks_shift (B : Nat) (xs : List α) (a k : Nat) :
    chunks B xs (a + 1) k = chunks B (xs.drop B) a k := by
  induction k generalizing a with
  | zero => rfl
  | succ k ih => rw [chunks_succ, chunks_succ, chunk_succ, ih]

/-! ## Filled lists of blocks -/

/-- Lengths as integers. -/
theorem filled_natCast {ns : List Nat} :
    Filled (B : Int) (ns.map Nat.cast) ↔ Filled B ns := by
  induction ns with
  | nil => exact Iff.rfl
  | cons n rest ih =>
      cases rest with
      | nil =>
          show (1 : Int) ≤ n ∧ (n : Int) ≤ B ↔ 1 ≤ n ∧ n ≤ B
          omega
      | cons m rest =>
          show (n : Int) = B ∧ _ ↔ n = B ∧ _
          rw [Int.ofNat_inj]
          exact and_congr_right fun _ => ih

/-- **A FILLED LIST OF BLOCKS IS ITS OWN CUT.** -/
theorem eq_chunks_of_filled (h : Filled B (bs.map List.length)) :
    bs = chunks B bs.flatten 0 bs.length := by
  induction bs with
  | nil => rfl
  | cons b rest ih =>
      cases rest with
      | nil =>
          have hlen : b.length ≤ B := h.2
          rw [List.length_singleton, chunks_succ, List.flatten_singleton, chunk,
            Nat.zero_mul, List.drop_zero, List.take_of_length_le hlen]
          rfl
      | cons b' rest =>
          obtain ⟨hb, hrest⟩ := h
          have hrec := ih hrest
          rw [List.length_cons, chunks_succ, chunks_shift, chunk, Nat.zero_mul,
            List.drop_zero, List.flatten_cons, List.take_left' hb, List.drop_left' hb,
            ← hrec]

/-- The length of a filled list of blocks. -/
theorem length_of_filled (h : Filled B (bs.map List.length)) :
    bs.flatten.length ≤ bs.length * B ∧
      (bs ≠ [] → (bs.length - 1) * B < bs.flatten.length) := by
  induction bs with
  | nil => exact ⟨Nat.zero_le _, fun hne => absurd rfl hne⟩
  | cons b rest ih =>
      cases rest with
      | nil =>
          obtain ⟨hpos, hlen⟩ := h
          rw [List.flatten_singleton, List.length_singleton]
          exact ⟨by omega, fun _ => by omega⟩
      | cons b' rest =>
          obtain ⟨hb, hrest⟩ := h
          obtain ⟨hle, hlt⟩ := ih hrest
          have hlt' := hlt (List.cons_ne_nil _ _)
          rw [List.flatten_cons, List.length_append, hb, List.length_cons]
          refine ⟨?_, fun _ => ?_⟩
          · rw [Nat.succ_mul]
            omega
          · rw [Nat.add_sub_cancel]
            rw [List.length_cons, Nat.add_sub_cancel] at hlt'
            rw [List.length_cons, Nat.succ_mul]
            omega

/-- The block `i` of what a filled list holds is its element `i`, if it has
    one. -/
theorem chunk_flatten (h : Filled B (bs.map List.length)) (i : Nat) :
    chunk B bs.flatten i = bs[i]?.getD [] := by
  by_cases hi : i < bs.length
  · have hget := congrArg (fun l : List (List α) => l[i]?) (eq_chunks_of_filled h)
    rw [List.getElem?_eq_getElem hi, Option.getD_some]
    rw [List.getElem?_eq_getElem hi, chunks, List.getElem?_map,
      List.getElem?_range' hi] at hget
    rw [Nat.zero_add, Nat.one_mul] at hget
    exact (Option.some.inj hget).symm
  · have hle := (length_of_filled h).1
    have hmul : bs.length * B ≤ i * B := Nat.mul_le_mul_right B (by omega)
    rw [List.getElem?_eq_none (by omega), chunk, List.drop_of_length_le (by omega),
      List.take_nil]
    rfl

/-- The elements of a filled list, where they lie in a longer sequence. -/
theorem take_drop_flatten (h : Filled B (bs.map List.length)) (tail : List α)
    (hi : i < bs.length) :
    ((bs.flatten ++ tail).drop (i * B)).take bs[i].length = bs[i] := by
  have hchunk := chunk_flatten h i
  have hlen := length_chunk B bs.flatten i
  rw [List.getElem?_eq_getElem hi, Option.getD_some] at hchunk
  rw [hchunk] at hlen
  by_cases hempty : bs[i].length = 0
  · rw [hempty, List.take_zero, List.eq_nil_of_length_eq_zero hempty]
  · have htake : (bs.flatten.drop (i * B)).take bs[i].length = bs[i].take bs[i].length := by
      generalize bs[i].length = n at hlen ⊢
      rw [← hchunk, chunk, List.take_take, Nat.min_eq_left (by omega)]
    rw [List.drop_append_of_le_length (by omega),
      List.take_append_of_le_length (by rw [List.length_drop]; omega), htake,
      List.take_length]

/-- Blocks that all grow by the same amount. -/
theorem filled_add {ns : List Nat} (t : Nat) (h : Filled B ns) :
    Filled (B + t) (ns.map (· + t)) := by
  induction ns with
  | nil => exact trivial
  | cons n rest ih =>
      cases rest with
      | nil =>
          obtain ⟨hlow, hhigh⟩ := h
          exact ⟨Nat.le_add_right_of_le hlow, Nat.add_le_add_right hhigh t⟩
      | cons m rest =>
          obtain ⟨hn, hrest⟩ := h
          exact ⟨congrArg (· + t) hn, ih hrest⟩

/-- The cut of a sequence into as many blocks as it needs is filled. -/
theorem filled_chunks (hlow : k * B < xs.length) (hhigh : xs.length ≤ (k + 1) * B) :
    Filled B ((chunks B xs 0 (k + 1)).map List.length) := by
  induction k generalizing xs with
  | zero =>
      rw [chunks_succ, List.map_cons, length_chunk]
      show 1 ≤ _ ∧ _ ≤ B
      rw [Nat.zero_mul, Nat.sub_zero]
      omega
  | succ k ih =>
      rw [Nat.succ_mul] at hlow hhigh
      have hlen : (xs.drop B).length = xs.length - B := List.length_drop
      have hrec := @ih (xs.drop B) (by omega) (by omega)
      rw [chunks_succ, chunks_shift, List.map_cons, length_chunk, Nat.zero_mul,
        Nat.sub_zero]
      rw [chunks_succ, List.map_cons] at hrec ⊢
      exact ⟨by omega, hrec⟩

/-! ## Writing over a part -/

theorem length_overwrite (hoff : off ≤ xs.length) :
    (overwrite off ys xs).length = max xs.length (off + ys.length) := by
  rw [overwrite, List.length_append, List.length_append, List.length_take,
    List.length_drop]
  omega

theorem take_overwrite {n : Nat} (hn : n ≤ off) (hoff : off ≤ xs.length) :
    (overwrite off ys xs).take n = xs.take n := by
  have hlen : n ≤ (xs.take off).length := by
    rw [List.length_take]
    omega
  rw [overwrite, List.append_assoc, List.take_append_of_le_length hlen,
    List.take_take, Nat.min_eq_left hn]

theorem drop_overwrite {n : Nat} (hn : off + ys.length ≤ n) (hoff : off ≤ xs.length) :
    (overwrite off ys xs).drop n = xs.drop n := by
  have hlen : (xs.take off ++ ys).length = off + ys.length := by
    rw [List.length_append, List.length_take]
    omega
  obtain ⟨d, rfl⟩ := Nat.exists_eq_add_of_le hn
  rw [overwrite, ← hlen, ← List.drop_drop, List.drop_left, List.drop_drop]

/-- What lies at a position after the writing. -/
theorem getElem?_overwrite (hoff : off ≤ xs.length) (j : Nat) :
    (overwrite off ys xs)[j]? =
      if j < off then xs[j]?
      else if j < off + ys.length then ys[j - off]? else xs[j]? := by
  have hlen : (xs.take off).length = off := by
    rw [List.length_take]
    omega
  rw [overwrite, List.append_assoc]
  by_cases h₁ : j < off
  · rw [if_pos h₁, List.getElem?_append_left (by omega), List.getElem?_take_of_lt h₁]
  · rw [if_neg h₁, List.getElem?_append_right (by omega), hlen]
    by_cases h₂ : j < off + ys.length
    · rw [if_pos h₂, List.getElem?_append_left (by omega)]
    · rw [if_neg h₂, List.getElem?_append_right (by omega), List.getElem?_drop]
      congr 1
      omega

theorem getElem?_chunk (B : Nat) (xs : List α) (i j : Nat) :
    (chunk B xs i)[j]? = if j < B then xs[i * B + j]? else none := by
  rw [chunk, List.getElem?_take, List.getElem?_drop]

/-- A block before the writing is untouched. -/
theorem chunk_overwrite_before (hi : (i + 1) * B ≤ off) (hoff : off ≤ xs.length) :
    chunk B (overwrite off ys xs) i = chunk B xs i := by
  have hcut : ∀ zs : List α, chunk B zs i = (zs.take ((i + 1) * B)).drop (i * B) := by
    intro zs
    rw [chunk, List.drop_take, Nat.succ_mul, Nat.add_sub_cancel_left]
  rw [hcut, hcut, take_overwrite hi hoff]

/-- A block after the writing is untouched. -/
theorem chunk_overwrite_after (hi : off + ys.length ≤ i * B) (hoff : off ≤ xs.length) :
    chunk B (overwrite off ys xs) i = chunk B xs i := by
  rw [chunk, chunk, drop_overwrite hi hoff]

theorem chunks_congr {xs ys : List α} (h : ∀ i, a ≤ i → i < a + k →
    chunk B xs i = chunk B ys i) : chunks B xs a k = chunks B ys a k := by
  refine List.map_congr_left ?_
  intro i hi
  rw [List.mem_range'_1] at hi
  exact h i hi.1 hi.2

/-- **WRITING OVER A PART CHANGES THE BLOCKS IT TOUCHES**, from the one where
    it begins to the one where it ends, and what results is filled again. -/
theorem replace_chunks (h : Filled B (bs.map List.length)) (hB : 0 < B)
    (hoff : off ≤ bs.flatten.length) (hys : ys ≠ [])
    (ha : a = off / B) (hk : a + k = (off + ys.length - 1) / B + 1) :
    let new := bs.take a ++ chunks B (overwrite off ys bs.flatten) a k ++
      bs.drop (a + k)
    new.flatten = overwrite off ys bs.flatten ∧ Filled B (new.map List.length) := by
  intro new
  have hypos : 0 < ys.length := List.length_pos_iff.mpr hys
  obtain ⟨hle, hlt⟩ := length_of_filled h
  -- where the writing begins and ends, in blocks
  have hbegin : a * B ≤ off := ha ▸ Nat.div_mul_le_self off B
  have hend : off + ys.length ≤ (a + k) * B := by
    have := Nat.lt_div_mul_add hB (a := off + ys.length - 1)
    rw [hk, Nat.succ_mul]
    omega
  have hend' : (a + k - 1) * B < off + ys.length := by
    have := Nat.div_mul_le_self (off + ys.length - 1) B
    rw [hk, Nat.add_sub_cancel]
    omega
  have han : a ≤ bs.length := by
    have : a * B ≤ bs.length * B := by omega
    exact Nat.le_of_mul_le_mul_right this hB
  generalize hzs : overwrite off ys bs.flatten = zs
  have hzlen : zs.length = max bs.flatten.length (off + ys.length) :=
    hzs ▸ length_overwrite hoff
  -- the blocks on both sides are those of the new sequence
  have hbs := eq_chunks_of_filled h
  have hbefore : bs.take a = chunks B zs 0 a := by
    have htake : (chunks B bs.flatten 0 bs.length).take a = chunks B bs.flatten 0 a := by
      rw [← Nat.add_sub_of_le han, ← chunks_append,
        List.take_left' (length_chunks B bs.flatten 0 a)]
    refine ((congrArg (List.take a) hbs).trans htake).trans ?_
    refine chunks_congr fun i _ hi => ?_
    rw [← hzs]
    refine (chunk_overwrite_before ?_ hoff).symm
    have : (i + 1) * B ≤ a * B := Nat.mul_le_mul_right B (by omega)
    omega
  have hafter : bs.drop (a + k) = chunks B zs (a + k) (bs.length - (a + k)) := by
    by_cases hn : a + k ≤ bs.length
    · have hdrop : (chunks B bs.flatten 0 bs.length).drop (a + k)
          = chunks B bs.flatten (a + k) (bs.length - (a + k)) := by
        obtain ⟨d, hd⟩ := Nat.exists_eq_add_of_le hn
        rw [hd, Nat.add_sub_cancel_left, ← chunks_append, Nat.zero_add,
          List.drop_left' (length_chunks B bs.flatten 0 (a + k))]
      refine ((congrArg (List.drop (a + k)) hbs).trans hdrop).trans ?_
      refine chunks_congr fun i hi _ => ?_
      rw [← hzs]
      refine (chunk_overwrite_after ?_ hoff).symm
      have : (a + k) * B ≤ i * B := Nat.mul_le_mul_right B hi
      omega
    · rw [List.drop_of_length_le (by omega), Nat.sub_eq_zero_of_le (by omega)]
      rfl
  have hnew : new = chunks B zs 0 (a + k + (bs.length - (a + k))) := by
    show bs.take a ++ chunks B (overwrite off ys bs.flatten) a k ++ bs.drop (a + k) = _
    rw [hzs, hbefore, hafter, ← chunks_append, ← chunks_append, Nat.zero_add,
      Nat.zero_add]
  have hcount : zs.length ≤ (a + k + (bs.length - (a + k))) * B := by
    have h₁ : (a + k) * B ≤ (a + k + (bs.length - (a + k))) * B :=
      Nat.mul_le_mul_right B (by omega)
    have h₂ : bs.length * B ≤ (a + k + (bs.length - (a + k))) * B :=
      Nat.mul_le_mul_right B (by omega)
    omega
  refine ⟨?_, ?_⟩
  · rw [hnew, flatten_chunks, Nat.zero_mul, List.drop_zero,
      List.take_of_length_le hcount]
  · have hpos : 0 < a + k := hk ▸ Nat.succ_pos _
    obtain ⟨c, hc⟩ : ∃ c, a + k + (bs.length - (a + k)) = c + 1 :=
      Nat.exists_eq_succ_of_ne_zero (by omega)
    rw [hnew, hc]
    rw [hc] at hcount
    refine filled_chunks ?_ hcount
    by_cases hn : a + k < bs.length
    · have hne : bs ≠ [] := List.ne_nil_of_length_pos (by omega)
      have hcn : c = bs.length - 1 := by omega
      have := hlt hne
      rw [hcn, hzlen]
      exact lt_max_of_lt_left this
    · have hcn : c = a + k - 1 := by omega
      rw [hcn, hzlen]
      exact lt_max_of_lt_right hend'

/-! ## Lengths alone -/

variable {ns : List Nat}

/-- A list of lengths is filled if every length is right at its place. -/
theorem filled_iff {R : Type} [LE R] [One R] {B : R} {ns : List R} :
    Filled B ns ↔ ∀ (i : Nat) (n : R), ns[i]? = some n →
      if i + 1 < ns.length then n = B else 1 ≤ n ∧ n ≤ B := by
  induction ns with
  | nil => exact ⟨fun _ i n h => (nomatch h), fun _ => trivial⟩
  | cons m rest ih =>
      cases rest with
      | nil =>
          refine ⟨fun h i n hn => ?_, fun h => h 0 m rfl⟩
          cases i with
          | zero => obtain rfl := Option.some.inj hn; exact h
          | succ i => exact nomatch hn
      | cons m' rest =>
          show m = B ∧ Filled B (m' :: rest) ↔ _
          rw [ih]
          refine ⟨?_, fun h => ⟨?_, fun i n hn => ?_⟩⟩
          · rintro ⟨rfl, hrest⟩ i n hn
            cases i with
            | zero =>
                obtain rfl := Option.some.inj hn
                rw [if_pos (by simp)]
            | succ i =>
                have h := hrest i n hn
                simp only [List.length_cons, Nat.add_lt_add_iff_right] at h ⊢
                exact h
          · have h₀ := h 0 m rfl
            rw [if_pos (by simp)] at h₀
            exact h₀
          · have h' := h (i + 1) n hn
            simp only [List.length_cons, Nat.add_lt_add_iff_right] at h' ⊢
            exact h'

/-- Any filled list of lengths is the lengths of some blocks. -/
theorem exists_blocks (ns : List Nat) :
    ∃ bs : List (List Unit), bs.map List.length = ns ∧ bs.flatten.length = ns.sum := by
  refine ⟨ns.map fun n => List.replicate n (), ?_, ?_⟩
  · rw [List.map_map]
    exact (List.map_congr_left fun n _ => List.length_replicate).trans (List.map_id _)
  · rw [List.length_flatten, List.map_map]
    congr 1
    exact (List.map_congr_left fun n _ => List.length_replicate).trans (List.map_id _)

theorem sum_of_filled (h : Filled B ns) : ns.sum ≤ ns.length * B := by
  obtain ⟨bs, hbs, hsum⟩ := exists_blocks ns
  rw [← hbs] at h
  rw [← hsum, ← hbs, List.length_map]
  exact (length_of_filled h).1

/-- Filled integer lengths are natural numbers. -/
theorem exists_natCast_of_filled {zs : List Int} (h : Filled (B : Int) zs) :
    ∃ ns : List Nat, zs = ns.map Nat.cast := by
  refine ⟨zs.map Int.toNat, ?_⟩
  rw [List.map_map]
  refine ((List.map_congr_left fun z hz => ?_).trans (List.map_id zs)).symm
  obtain ⟨i, hi⟩ := List.getElem?_of_mem hz
  have hz' := filled_iff.mp h i z hi
  show ((z.toNat : Nat) : Int) = z
  by_cases hlast : i + 1 < zs.length
  · rw [if_pos hlast] at hz'
    omega
  · rw [if_neg hlast] at hz'
    omega

/-- Writing over a part, seen from the lengths of the blocks. -/
theorem filled_replace {len : Nat} (h : Filled B ns) (hB : 0 < B) (hoff : off ≤ ns.sum)
    (hlen : 0 < len) (ha : a = off / B) (hk : a + k = (off + len - 1) / B + 1) :
    Filled B (ns.take a ++ (List.range' a k).map (fun i =>
      min B (max ns.sum (off + len) - i * B)) ++ ns.drop (a + k)) := by
  obtain ⟨bs, hbs, hsum⟩ := exists_blocks ns
  rw [← hbs] at h
  rw [← hsum] at hoff ⊢
  have hys : (List.replicate len ()).length = len := List.length_replicate
  have hfilled := (replace_chunks h hB hoff (List.ne_nil_of_length_pos (hys ▸ hlen))
    ha (hys ▸ hk)).2
  rw [List.map_append, List.map_append, List.map_take, List.map_drop, hbs, chunks,
    List.map_map] at hfilled
  have hlengths : ∀ i, (List.length ∘ chunk B (overwrite off (List.replicate len ())
      bs.flatten)) i = min B (max bs.flatten.length (off + len) - i * B) := by
    intro i
    rw [Function.comp_apply, length_chunk, length_overwrite hoff, hys]
  rw [List.map_congr_left fun i _ => hlengths i] at hfilled
  exact hfilled

/-- **THE ELEMENT AT `o` LIES IN THE BLOCK `o / B`.** -/
theorem position_of_filled {o : Nat} (h : Filled B ns) (hB : 0 < B) (ho : o < ns.sum) :
    (ns.take (o / B)).sum ≤ o ∧ o < (ns.take (o / B + 1)).sum := by
  induction ns generalizing o with
  | nil => exact absurd ho (Nat.not_lt_zero o)
  | cons n rest ih =>
      by_cases hfirst : o < n
      · have hn : n ≤ B := by
          cases rest with
          | nil => exact h.2
          | cons m rest => exact h.1.le
        rw [Nat.div_eq_of_lt (by omega)]
        exact ⟨Nat.zero_le o, by simpa using hfirst⟩
      · cases rest with
        | nil =>
            rw [List.sum_singleton] at ho
            exact absurd ho hfirst
        | cons m rest =>
            obtain ⟨rfl, hrest⟩ := h
            rw [List.sum_cons] at ho
            obtain ⟨hlow, hhigh⟩ := ih hrest (o := o - n) (by omega)
            have hdiv : o / n = (o - n) / n + 1 := by
              rw [← Nat.add_div_right _ hB, Nat.sub_add_cancel (by omega)]
            rw [hdiv, List.take_succ_cons, List.take_succ_cons, List.sum_cons,
              List.sum_cons]
            omega

end BlockChunks
