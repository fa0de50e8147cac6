import Dfsha.ContainerProofs

/-! # Reading a range

    What `read_block` yields when each record it decrypts is the chunk of its
    index: after every turn of the loop, the stretch of the data from the
    offset to the end of the chunk (`Served`).  An error comes before anything
    else of its chunk is yielded. -/

namespace DfshaBlockRead

open RaisingAction BlockChunks Stretch DfshaBlockStore DfshaContainer

/-- What a request asks of a block: `data[offset:offset + length]`. -/
def asked (data : Bytes) (offset : Nat) : Option Nat → Bytes
  | none => data.drop offset
  | some n => (data.drop offset).take n

/-- The errors that a read may end with once the request is accepted. -/
def IsBadBlock : StoreError → Prop
  | .blockCorrupted _ => True
  | .blockNotFound _ => True
  | .valueError _ => False

/-- The metadata says what the data is. -/
structure Describes (m : Metadata) (data : Bytes) : Prop where
  size : m.logicalSize = data.length
  count : m.chunkCount = expectedChunks data.length
  limit : m.chunkCount ≤ maxChunks

section Record

variable (crypto : Crypto) (key : Bytes) (blockId : String) (m : Metadata) (fh : Bytes)
  (index : Nat)

/-- The bytes that are read for a chunk. -/
def recordAt : Bytes :=
  (fh.drop (headerSize + index * (chunkSizeBytes + tagSizeBytes))).take
    (m.plaintextSize index + tagSizeBytes)

/-- The decryption of these bytes. -/
def opened : Option Bytes :=
  crypto.decrypt key (nonceBytes m.pre index) (recordAt m fh index)
    (chunkAad blockId index (decide (index = m.chunkCount - 1)))

/-- The record can be read. -/
def Intact : Prop :=
  (recordAt m fh index).length = m.plaintextSize index + tagSizeBytes ∧
    ∃ p, opened crypto key blockId m fh index = some p ∧
      p.length = m.plaintextSize index

/-- What decrypts there is the chunk of the data. -/
def Genuine (data : Bytes) : Prop :=
  ∀ p, opened crypto key blockId m fh index = some p →
    p = chunk chunkSizeBytes data index

end Record

section Turn

variable {crypto : Crypto} {key : Bytes} {blockId : String} {m : Metadata} {fh : Bytes}
  {data : Bytes} {r : Range} {chunkSize index : Nat} {ys : List Bytes}

/-- The size of a chunk is what the metadata says. -/
theorem length_chunk_eq (h : Describes m data) (hindex : index < m.chunkCount) :
    (chunk chunkSizeBytes data index).length = m.plaintextSize index := by
  have hcount := h.count
  have hpos : 0 < data.length := by
    by_contra hzero
    rw [Nat.eq_zero_of_not_pos hzero, expectedChunks_zero] at hcount
    omega
  obtain ⟨hlow, hhigh, _⟩ := expectedChunks_bounds hpos
  rw [← hcount] at hlow hhigh
  rw [length_chunk, Metadata.plaintextSize, h.size]
  by_cases hlast : index < m.chunkCount - 1
  · have hmul := Nat.mul_le_mul_right chunkSizeBytes (Nat.succ_le_of_lt hlast)
    rw [Nat.succ_mul] at hmul
    rw [if_pos hlast]
    omega
  · have heq : index = m.chunkCount - 1 := by omega
    have hsucc : m.chunkCount * chunkSizeBytes
        = (m.chunkCount - 1) * chunkSizeBytes + chunkSizeBytes := by
      rw [← Nat.succ_mul]
      congr 1
      omega
    rw [if_neg hlast, heq, Nat.mul_comm chunkSizeBytes]
    omega

/-- A range inside the data. -/
structure Range.Within (r : Range) (data : Bytes) : Prop where
  some : r.offset < r.stop
  stop : r.stop ≤ data.length

theorem Range.lastIndex_le (r : Range) : r.lastIndex * chunkSizeBytes ≤ r.stop - 1 := by
  unfold Range.lastIndex
  exact Nat.div_mul_le_self _ _

theorem Range.lt_lastIndex (r : Range) :
    r.stop - 1 < (r.lastIndex + 1) * chunkSizeBytes := by
  unfold Range.lastIndex
  rw [Nat.succ_mul]
  exact Nat.lt_div_mul_add chunkSizeBytes_pos

theorem Range.firstIndex_le (r : Range) : r.firstIndex * chunkSizeBytes ≤ r.offset := by
  unfold Range.firstIndex
  exact Nat.div_mul_le_self _ _

theorem Range.lt_firstIndex (r : Range) :
    r.offset < (r.firstIndex + 1) * chunkSizeBytes := by
  unfold Range.firstIndex
  rw [Nat.succ_mul]
  exact Nat.lt_div_mul_add chunkSizeBytes_pos

theorem Range.firstIndex_le_lastIndex (hr : Range.Within r data) :
    r.firstIndex ≤ r.lastIndex := by
  unfold Range.firstIndex Range.lastIndex
  exact Nat.div_le_div_right (Nat.le_sub_one_of_lt hr.some)

/-- The range needs no chunk after the last one. -/
theorem lastIndex_lt (h : Describes m data) (hr : Range.Within r data) :
    r.lastIndex < m.chunkCount := by
  have hstop := hr.stop
  have hsome := hr.some
  obtain ⟨_, hhigh, _⟩ := expectedChunks_bounds (show 0 < data.length by omega)
  have hle := Range.lastIndex_le r
  rw [← h.count] at hhigh
  exact Nat.lt_of_mul_lt_mul_right (a := chunkSizeBytes) (by omega)

/-- What has been yielded before the chunk `upTo`: the range, up to there, in
    pieces of the size asked for. -/
structure Served (data : Bytes) (r : Range) (chunkSize upTo : Nat)
    (ys : List Bytes) : Prop where
  bytes : ys.flatten = stretch data r.offset (min r.stop (upTo * chunkSizeBytes))
  sized : ∀ piece ∈ ys, 0 < piece.length ∧ piece.length ≤ chunkSize

theorem served_start : Served data r chunkSize r.firstIndex [] := by
  refine ⟨?_, fun _ h => nomatch h⟩
  have hle := Range.firstIndex_le r
  rw [stretch_eq, Nat.sub_eq_zero_of_le (by omega), List.take_zero]
  rfl

/-- The pieces of a chunk that are yielded. -/
def piecesAt (data : Bytes) (m : Metadata) (r : Range) (chunkSize index : Nat) :
    List Bytes :=
  pieces (chunk chunkSizeBytes data index)
    (if index = r.firstIndex then r.offset - index * chunkSizeBytes else 0)
    (if index = r.lastIndex then r.stop - index * chunkSizeBytes
      else m.plaintextSize index)
    chunkSize

/-- Where the part of a block that belongs to a range begins and ends. -/
theorem turn_arithmetic {B offset stop first last index size : Nat}
    (hsome : offset < stop) (hstop : stop ≤ size)
    (hfirstLe : first * B ≤ offset) (hfirstLt : offset < (first + 1) * B)
    (hlastLe : last * B ≤ stop - 1) (hlastLt : stop - 1 < (last + 1) * B)
    (hfirst : first ≤ index) (hlast : index ≤ last) :
    let a := if index = first then offset - index * B else 0
    let b := if index = last then stop - index * B else min B (size - index * B)
    a ≤ b ∧ b ≤ min B (size - index * B) ∧ index * B + a = max offset (index * B) ∧
      index * B + b = min stop ((index + 1) * B) := by
  have hsucc : (index + 1) * B = index * B + B := Nat.succ_mul _ _
  have hbelow : index ≠ last → (index + 1) * B ≤ last * B := fun hne =>
    Nat.mul_le_mul_right _ (by omega)
  have habove : index ≠ first → (first + 1) * B ≤ index * B := fun hne =>
    Nat.mul_le_mul_right _ (by omega)
  dsimp only
  by_cases hisFirst : index = first
  · rw [if_pos hisFirst]
    rw [← hisFirst] at hfirstLe hfirstLt
    by_cases hisLast : index = last
    · rw [if_pos hisLast]
      rw [← hisLast] at hlastLe hlastLt
      omega
    · have := hbelow hisLast
      rw [if_neg hisLast]
      omega
  · have := habove hisFirst
    rw [if_neg hisFirst]
    by_cases hisLast : index = last
    · rw [if_pos hisLast]
      rw [← hisLast] at hlastLe hlastLt
      omega
    · have := hbelow hisLast
      rw [if_neg hisLast]
      omega

/-- Where the pieces of a chunk begin and end, in the data. -/
theorem turn_bounds (h : Describes m data) (hr : Range.Within r data)
    (hfirst : r.firstIndex ≤ index) (hlast : index ≤ r.lastIndex) :
    let a := if index = r.firstIndex then r.offset - index * chunkSizeBytes else 0
    let b := if index = r.lastIndex then r.stop - index * chunkSizeBytes
      else m.plaintextSize index
    a ≤ b ∧ b ≤ (chunk chunkSizeBytes data index).length ∧
      index * chunkSizeBytes + a = max r.offset (index * chunkSizeBytes) ∧
      index * chunkSizeBytes + b = min r.stop ((index + 1) * chunkSizeBytes) := by
  rw [← length_chunk_eq h (Nat.lt_of_le_of_lt hlast (lastIndex_lt h hr)), length_chunk]
  exact turn_arithmetic hr.some hr.stop (Range.firstIndex_le r) (Range.lt_firstIndex r)
    (Range.lastIndex_le r) (Range.lt_lastIndex r) hfirst hlast

theorem served_next (h : Describes m data) (hr : Range.Within r data)
    (hsize : 0 < chunkSize) (hfirst : r.firstIndex ≤ index) (hlast : index ≤ r.lastIndex)
    (hys : Served data r chunkSize index ys) :
    Served data r chunkSize (index + 1) (ys ++ piecesAt data m r chunkSize index) := by
  obtain ⟨hab, hlen, hstart, hend⟩ := turn_bounds h hr hfirst hlast
  constructor
  · have hle := hend.le.trans (Nat.min_le_right _ _)
    rw [List.flatten_append, hys.bytes, piecesAt, flatten_pieces _ hsize hab, chunk_eq_stretch,
      stretch_stretch _ hle, hstart, hend]
    by_cases hbefore : index * chunkSizeBytes ≤ r.offset
    · have hempty : stretch data r.offset (min r.stop (index * chunkSizeBytes)) = [] := by
        rw [stretch_eq, Nat.sub_eq_zero_of_le (by omega), List.take_zero]
      rw [hempty, Nat.max_eq_left hbefore, List.nil_append]
    · have hfull : index * chunkSizeBytes ≤ r.stop := by
        have := Nat.mul_le_mul_right chunkSizeBytes hlast
        have := Range.lastIndex_le r
        omega
      rw [Nat.max_eq_right (by omega), Nat.min_eq_right hfull]
      exact stretch_append data (by omega) (by omega)
  · intro piece hpiece
    rcases List.mem_append.mp hpiece with hold | hnew
    · exact hys.sized piece hold
    · exact length_of_mem_pieces hsize hlen hnew

theorem served_end {upTo : Nat} (hr : Range.Within r data) (hupTo : upTo = r.lastIndex + 1)
    (hys : Served data r chunkSize upTo ys) : ys.flatten = stretch data r.offset r.stop := by
  have hlt := Range.lt_lastIndex r
  have hsome := hr.some
  rw [hys.bytes, hupTo, Nat.min_eq_left (by omega)]

/-- What has been yielded is always a beginning of what is asked. -/
theorem Served.isPrefix {upTo : Nat} (hys : Served data r chunkSize upTo ys) :
    ys.flatten <+: stretch data r.offset r.stop := by
  rw [hys.bytes, stretch_eq, stretch_eq]
  exact List.take_prefix_take_left (by omega)

/-! ## The loop -/

/-- One turn: the pieces of the chunk, or an error and nothing. -/
theorem readChunk_spec (hindex : index < m.chunkCount) (hlimit : m.chunkCount ≤ maxChunks)
    (hsize : 0 < chunkSize) (hgenuine : Genuine crypto key blockId m fh index data) :
    wp (readChunk crypto key blockId m r chunkSize fh index) ys fun res ys' =>
      (res = .ok () ∧ ys' = ys ++ piecesAt data m r chunkSize index) ∨
      (∃ e, res = .error e ∧ IsBadBlock e ∧ ys' = ys ∧
        ¬Intact crypto key blockId m fh index) := by
  refine wp_raiseIf_cases (fun hlen => ?_) fun hlen => ?_
  · exact .inr ⟨_, rfl, trivial, rfl, fun hintact => hlen hintact.1⟩
  have hnonce : nonce m.pre index = .ok (nonceBytes m.pre index) := if_pos (by omega)
  refine wp_ofExcept_cases (fun n hn => ?_) fun e he => ?_
  case refine_2 =>
    rw [hnonce] at he
    exact nomatch he
  obtain rfl := Except.ok.inj (hnonce.symm.trans hn)
  cases hopened : opened crypto key blockId m fh index with
  | none =>
      refine wp_ofExcept_cases (fun p hp => ?_) fun e he => ?_
      · have hauth := congrArg (authentic blockId) hopened
        exact nomatch hauth.symm.trans hp
      · have hauth := congrArg (authentic blockId) hopened
        obtain rfl := Except.error.inj (hauth.symm.trans he)
        refine .inr ⟨_, rfl, trivial, rfl, fun hintact => ?_⟩
        obtain ⟨p, hp, _⟩ := hintact.2
        exact nomatch hopened.symm.trans hp
  | some p =>
      have hauth := congrArg (authentic blockId) hopened
      refine wp_ofExcept_cases (fun p' hp' => ?_) fun e he => nomatch hauth.symm.trans he
      obtain rfl := Except.ok.inj (hauth.symm.trans hp')
      refine wp_raiseIf_cases (fun hbad => ?_) fun hgood => ?_
      · refine .inr ⟨_, rfl, trivial, rfl, fun hintact => ?_⟩
        obtain ⟨p', hp', hlen'⟩ := hintact.2
        rw [← Option.some.inj (hopened.symm.trans hp')] at hlen'
        exact hbad hlen'
      · refine wp_raiseIf_passed (by omega) (.inl ⟨rfl, ?_⟩)
        rw [hgenuine p hopened]
        rfl

/-- How the loop ends: with the whole range, or at a record that cannot be
    read. -/
inductive LoopEnds (crypto : Crypto) (key : Bytes) (blockId : String) (m : Metadata)
    (fh data : Bytes) (r : Range) (chunkSize : Nat) :
    Except StoreError Unit → List Bytes → Prop
  | served {ys : List Bytes} (h : Served data r chunkSize (r.lastIndex + 1) ys) :
      LoopEnds crypto key blockId m fh data r chunkSize (.ok ()) ys
  | failed {e : StoreError} {ys : List Bytes} {upTo index : Nat} (hbad : IsBadBlock e)
      (h : Served data r chunkSize upTo ys) (hindex : index < m.chunkCount)
      (hrecord : ¬Intact crypto key blockId m fh index) :
      LoopEnds crypto key blockId m fh data r chunkSize (.error e) ys

theorem readChunks_spec {k : Nat} (h : Describes m data) (hr : Range.Within r data)
    (hsize : 0 < chunkSize)
    (hgenuine : ∀ index < m.chunkCount, Genuine crypto key blockId m fh index data)
    (hk : index + k = r.lastIndex + 1) (hfirst : r.firstIndex ≤ index)
    (hys : Served data r chunkSize index ys) :
    wp (readChunks crypto key blockId m r chunkSize fh (List.range' index k)) ys
      (LoopEnds crypto key blockId m fh data r chunkSize) := by
  induction k generalizing index ys with
  | zero =>
      rw [Nat.add_zero] at hk
      rw [hk] at hys
      exact .served hys
  | succ k ih =>
      rw [List.range'_succ]
      have hlast : index ≤ r.lastIndex := by omega
      have hindex := Nat.lt_of_le_of_lt hlast (lastIndex_lt h hr)
      refine wp_call (readChunk_spec hindex h.limit hsize (hgenuine index hindex)) ?_ ?_
      · rintro _ ys' (⟨_, rfl⟩ | ⟨_, hne, _⟩)
        · exact ih (by omega) (by omega) (served_next h hr hsize hfirst hlast hys)
        · exact nomatch hne
      · rintro _ ys' (⟨hne, _⟩ | ⟨e, he, hbad, rfl, hrecord⟩)
        · exact nomatch hne
        · rw [he]
          exact .failed hbad hys hindex hrecord

end Turn

/-! ## The request -/

section Request

variable {crypto : Crypto} {key : Bytes} {blockId : String} {m : Metadata} {found : Found}
  {data : Bytes} {chunkSize offset : Nat} {length : Option Nat}

/-- No record of the file is missing or broken. -/
def AllIntact (crypto : Crypto) (key : Bytes) (blockId : String) (m : Metadata)
    (found : Found) : Prop :=
  ∃ fh, found.records = some fh ∧
    ∀ index < m.chunkCount, Intact crypto key blockId m fh index

/-- Every record that decrypts is the chunk of the data. -/
def AllGenuine (crypto : Crypto) (key : Bytes) (blockId : String) (m : Metadata)
    (found : Found) (data : Bytes) : Prop :=
  ∀ fh, found.records = some fh →
    ∀ index < m.chunkCount, Genuine crypto key blockId m fh index data

/-- How an accepted request is answered: with all that is asked, or with a
    beginning of it and an error. -/
inductive Answered (data : Bytes) (offset : Nat) (length : Option Nat) (chunkSize : Nat)
    (intact : Prop) : Except StoreError Unit → List Bytes → Prop
  | whole {ys : List Bytes} (hbytes : ys.flatten = asked data offset length)
      (hsized : ∀ piece ∈ ys, 0 < piece.length ∧ piece.length ≤ chunkSize) :
      Answered data offset length chunkSize intact (.ok ()) ys
  | partly {e : StoreError} {ys : List Bytes} (hbad : IsBadBlock e)
      (hbytes : ys.flatten <+: asked data offset length)
      (hsized : ∀ piece ∈ ys, 0 < piece.length ∧ piece.length ≤ chunkSize)
      (hbroken : ¬intact) : Answered data offset length chunkSize intact (.error e) ys

/-- The end of the range that is asked. -/
def stopOf (data : Bytes) (offset : Nat) : Option Nat → Nat
  | none => data.length
  | some n => min data.length (offset + n)

theorem asked_eq_stretch (data : Bytes) (offset : Nat) (length : Option Nat) :
    asked data offset length = stretch data offset (stopOf data offset length) := by
  cases length with
  | none =>
      show data.drop offset = (data.take data.length).drop offset
      rw [List.take_length]
  | some n =>
      show (data.drop offset).take n = stretch data offset (min data.length (offset + n))
      rw [stretch_eq, List.take_eq_take_iff, List.length_drop]
      omega

/-- A request of nothing. -/
theorem asked_nothing (h : data.length ≤ offset ∨ length = some 0) :
    asked data offset length = [] := by
  rcases h with h | rfl
  · cases length with
    | none => exact List.drop_of_length_le h
    | some n =>
        show (data.drop offset).take n = []
        rw [List.drop_of_length_le h, List.take_nil]
  · exact List.take_zero (l := data.drop offset)

theorem within_of_asked (h : ¬(data.length ≤ offset ∨ length = some 0)) :
    Range.Within ⟨offset, stopOf data offset length⟩ data := by
  rw [not_or] at h
  cases length with
  | none => exact ⟨Nat.lt_of_not_le h.1, Nat.le_refl _⟩
  | some n =>
      have hn : n ≠ 0 := fun hn => h.2 (congrArg some hn)
      refine ⟨?_, Nat.min_le_left _ _⟩
      show offset < min data.length (offset + n)
      omega

/-- **WHAT IS SERVED** after the metadata. -/
theorem serve_spec (h : Describes m data) (hkey : key.length = 32) (hsize : 0 < chunkSize)
    (hgenuine : AllGenuine crypto key blockId m found data) :
    wp (serve crypto key blockId m found chunkSize offset (length.map Nat.cast)) []
      (Answered data offset length chunkSize
        (AllIntact crypto key blockId m found)) := by
  have hnothing : ((m.logicalSize : Int) ≤ offset ∨ (length.map Nat.cast : Option Int) = some 0)
      ↔ (data.length ≤ offset ∨ length = some 0) := by
    rw [h.size, Int.ofNat_le]
    refine or_congr_right ?_
    cases length with
    | none =>
        constructor
        · intro hnone
          cases hnone
        · intro hnone
          cases hnone
    | some n =>
        show some (n : Int) = some 0 ↔ some n = some 0
        rw [Option.some_inj, Option.some_inj, Int.natCast_eq_zero]
  by_cases hempty : data.length ≤ offset ∨ length = some 0
  · rw [serve, if_pos (hnothing.mpr hempty)]
    exact .whole (asked_nothing hempty).symm fun _ hpiece => absurd hpiece List.not_mem_nil
  · rw [serve, if_neg (mt hnothing.mp hempty), h.size]
    have hstop : ((length.map Nat.cast : Option Int).map fun n =>
        min data.length ((offset : Int) + n).toNat).getD data.length
          = stopOf data offset length := by
      cases length with
      | none => rfl
      | some n =>
          show min data.length ((offset : Int) + (n : Int)).toNat = _
          rw [← Int.natCast_add, Int.toNat_natCast]
          rfl
    rw [hstop, Int.toNat_natCast, validateKey, if_pos hkey]
    refine wp_bind ?_
    have hr := within_of_asked hempty
    have hasked := (asked_eq_stretch data offset length).symm
    cases hrecords : found.records with
    | none =>
        refine wp_bind ?_
        refine .partly trivial List.nil_prefix (fun _ hpiece => absurd hpiece List.not_mem_nil) ?_
        rintro ⟨fh, hfh, _⟩
        cases hrecords.symm.trans hfh
    | some fh =>
        have hk := Nat.add_sub_cancel' (Nat.le_succ_of_le (Range.firstIndex_le_lastIndex hr))
        refine wp_bind ?_
        show wp (readChunks crypto key blockId m _ chunkSize fh _) [] _
        refine wp_mono (readChunks_spec h hr hsize (hgenuine fh hrecords) hk (Nat.le_refl _)
          served_start) ?_
        rintro _ _ (@⟨_, hys⟩ | @⟨_, _, _, index, hbad, hys, hindex, hrecord⟩)
        · exact .whole (hasked ▸ served_end hr rfl hys) hys.sized
        · refine .partly hbad (hasked ▸ hys.isPrefix) hys.sized ?_
          rintro ⟨fh', hfh', hintact⟩
          obtain rfl := Option.some.inj (hrecords.symm.trans hfh')
          exact hrecord (hintact index hindex)

end Request

end DfshaBlockRead
