import Dfsha.RoundTripProofs
import Mathlib.Data.List.Nodup

/-! # The nonces of a container

    A container uses one nonce for each record and one for its metadata, all of
    them the prefix and a counter of four bytes.  The records count from 0, and
    the metadata has the last counter of all, so the two meet only if the
    records get there; `write_block` stops before.

    It stops at the number of chunks at which `_read_metadata` does, so what is
    published is accepted, and what would not be accepted is not published. -/

namespace DfshaNonceSpace

open RaisingAction DfshaBlockStore DfshaContainer DfshaRoundTrip

/-- What is at the place of the block after `write_block`. -/
def placed (before : Option Bytes) :
    Except StoreError (String × Nat) × Writer → Option Bytes
  | (.ok _, w) => some w.file
  | (.error _, _) => before

/-- The counters of a container with this many records. -/
def counters (records : Nat) : List Nat := List.range records ++ [maxChunks]

/-- The associated data of its encryptions: the indexes in order, and the mark of
    the last one. -/
def labels (blockId : String) (pre : NoncePrefix) (records : Nat) : List Bytes :=
  (List.range records).map (fun index =>
    chunkAad blockId index (decide (index + 1 = records))) ++
    [metadataAad blockId (packHeader pre)]

/-! ## Counters -/

theorem le_of_mem_counters {records i : Nat} (h : records ≤ maxChunks)
    (hi : i ∈ counters records) : i ≤ maxChunks := by
  rcases List.mem_append.mp hi with hi | hi
  · exact Nat.le_trans (Nat.le_of_lt (List.mem_range.mp hi)) h
  · exact Nat.le_of_eq (List.mem_singleton.mp hi)

/-- The metadata counts on where the records do not come. -/
theorem nodup_counters {records : Nat} (h : records ≤ maxChunks) : (counters records).Nodup := by
  rw [counters, List.nodup_append]
  refine ⟨List.nodup_range, List.nodup_singleton _, fun i hi j hj hij => ?_⟩
  have hlt := List.mem_range.mp hi
  rw [hij, List.mem_singleton.mp hj] at hlt
  omega

theorem nodup_nonces (pre : NoncePrefix) {records : Nat} (h : records ≤ maxChunks) :
    ((counters records).map (nonceBytes pre)).Nodup := by
  refine (nodup_counters h).map_on ?_
  intro i hi j hj hij
  exact (nonceBytes_inj (le_of_mem_counters h hi) (le_of_mem_counters h hj) hij).2

/-! ## What is encrypted -/

section Sealed

variable (crypto : Crypto) (blockId : String) (pre : NoncePrefix) (data : Bytes)

theorem nonces_sealedAll : (sealedAll crypto blockId pre data).map Sealed.nonce
    = (counters (expectedChunks data.length)).map (nonceBytes pre) := by
  rw [sealedAll, sealedChunks, counters, List.map_append, List.map_append, List.map_map]
  rfl

theorem aads_sealedAll : (sealedAll crypto blockId pre data).map Sealed.aad
    = labels blockId pre (expectedChunks data.length) := by
  rw [sealedAll, sealedChunks, labels, List.map_append, List.map_map]
  congr 1
  refine List.map_congr_left fun index hindex => ?_
  have hlt := List.mem_range.mp hindex
  have hlast : (index = expectedChunks data.length - 1)
      ↔ index + 1 = expectedChunks data.length := by omega
  show chunkAad blockId index (decide (index = expectedChunks data.length - 1)) = _
  rw [decide_eq_decide.mpr hlast]

end Sealed

/-- A container that keeps the nonces apart and is accepted. -/
structure Sound (crypto : Crypto) (key : Bytes) (blockId : String) (pre : NoncePrefix)
    (data : Bytes) (w : Writer) (records : Nat) : Prop where
  nonces : w.encrypted.map Sealed.nonce = (counters records).map (nonceBytes pre)
  distinct : (w.encrypted.map Sealed.nonce).Nodup
  fit : ∀ i ∈ counters records, i < 2 ^ 32 ∧ BigEndian.ofBytes (BigEndian.toBytes 4 i) = i
  labels : w.encrypted.map Sealed.aad = labels blockId pre records
  accepted : ∀ ys, readMetadata crypto key blockId (.still w.file) ys
    = (.ok ⟨pre, data.length, records, crypto.sha256 data⟩, ys)

theorem sound_container {crypto : Crypto} (hcrypto : Lawful crypto) {key : Bytes}
    {blockId : String} {pre : NoncePrefix} {data : Bytes} {w : Writer}
    (hfits : Fits key blockId data) (hencrypted : w.encrypted = sealedAll crypto blockId pre data)
    (hfile : w.file = container crypto key blockId pre data) :
    Sound crypto key blockId pre data w (expectedChunks data.length) := by
  have hlimit := (fits_bounds hfits).2
  have hnonces := nonces_sealedAll crypto blockId pre data
  refine ⟨?_, ?_, fun i hi => ?_, ?_, fun ys => ?_⟩
  · rw [hencrypted, hnonces]
  · rw [hencrypted, hnonces]
    exact nodup_nonces pre hlimit
  · have hlt := Nat.lt_of_le_of_lt (le_of_mem_counters hlimit hi) maxChunks_lt
    exact ⟨hlt, BigEndian.ofBytes_toBytes hlt⟩
  · rw [hencrypted, aads_sealedAll]
  · obtain ⟨hres, hys⟩ := @readMetadata_container _ _ _ pre _ hcrypto hfits ys
    rw [hfile]
    exact Prod.ext hres hys

/-- The reader stops at the limit. -/
theorem reader_limit {crypto : Crypto} {key : Bytes} {blockId : String} {pre : NoncePrefix}
    {fh checksum : Bytes} {size : Nat} (h : Framed crypto key blockId pre fh size checksum)
    (hkey : key.length = 32) (hbound : size < 256 ^ 8) (ys : List Bytes) :
    (∃ e, (readMetadata crypto key blockId (.still fh) ys).1 = .error e)
      ↔ maxChunks < expectedChunks size := by
  obtain ⟨_, hres⟩ := readMetadata_framed h hkey hbound ys
  by_cases hlimit : expectedChunks size ≤ maxChunks
  · rw [if_pos hlimit] at hres
    rw [hres]
    exact ⟨fun ⟨e, he⟩ => (by cases he), fun hlt => absurd hlimit (Nat.not_le.mpr hlt)⟩
  · rw [if_neg hlimit] at hres
    exact ⟨fun _ => Nat.not_le.mp hlimit, fun _ => ⟨_, hres⟩⟩

/-- The writer stops at the same one. -/
theorem writer_limit {crypto : Crypto} {key : Bytes} {blockId : String} {pre : NoncePrefix}
    (chunks : List Bytes) (hkey : key.length = 32) (hid : ValidBlockId blockId) :
    (∃ e, (writeBlock crypto key blockId pre chunks {}).1 = .error e)
      ↔ maxChunks < expectedChunks chunks.flatten.length := by
  have hwritten : Written crypto key blockId pre chunks.flatten
      (writeBlock crypto key blockId pre chunks {}).1
      (writeBlock crypto key blockId pre chunks {}).2 := writeBlock_spec chunks
  generalize (writeBlock crypto key blockId pre chunks {}).1 = res at hwritten ⊢
  cases hwritten with
  | done hfits =>
      have hlimit := (fits_bounds hfits).2
      exact ⟨fun ⟨e, he⟩ => (by cases he), fun hlt => absurd hlimit (Nat.not_le.mpr hlt)⟩
  | stopped hstop =>
      refine ⟨fun _ => Nat.not_le.mp fun hlimit => hstop.1 ⟨hkey, hid, ?_⟩, fun _ => ⟨_, rfl⟩⟩
      by_cases hempty : chunks.flatten.length = 0
      · rw [hempty]
        exact Nat.zero_le _
      · have hbounds := expectedChunks_bounds (Nat.pos_of_ne_zero hempty)
        exact Nat.le_trans hbounds.2.1 (Nat.mul_le_mul_right _ hlimit)

/-- **NONCES AND LIMITS**: `write_block` raises and publishes nothing, or its
    nonces are distinct and its container is accepted; and writer and reader
    stop at the same number of chunks. -/
theorem nonces_and_limits {crypto : Crypto} (hcrypto : Lawful crypto) (key : Bytes)
    (blockId : String) (pre : NoncePrefix) (chunks : List Bytes) (before : Option Bytes) :
    ((∃ e w, writeBlock crypto key blockId pre chunks {} = (.error e, w) ∧
        placed before (.error e, w) = before) ∨
      ∃ r w records, writeBlock crypto key blockId pre chunks {} = (.ok r, w) ∧
        placed before (.ok r, w) = some w.file ∧
        Sound crypto key blockId pre chunks.flatten w records) ∧
    (key.length = 32 → ValidBlockId blockId →
      ((∃ e, (writeBlock crypto key blockId pre chunks {}).1 = .error e) ↔
        maxChunks < expectedChunks chunks.flatten.length)) ∧
    ∀ fh size checksum ys, Framed crypto key blockId pre fh size checksum →
      key.length = 32 → size < 256 ^ 8 →
      ((∃ e, (readMetadata crypto key blockId (.still fh) ys).1 = .error e) ↔
        maxChunks < expectedChunks size) := by
  refine ⟨?_, fun hkey hid => writer_limit chunks hkey hid,
    fun fh size checksum ys h hkey hbound => reader_limit h hkey hbound ys⟩
  have hwritten : Written crypto key blockId pre chunks.flatten
      (writeBlock crypto key blockId pre chunks {}).1
      (writeBlock crypto key blockId pre chunks {}).2 := writeBlock_spec chunks
  generalize writeBlock crypto key blockId pre chunks {} = out at hwritten ⊢
  obtain ⟨res, w⟩ := out
  cases hwritten with
  | done hfits hencrypted hfile =>
      exact .inr ⟨_, w, _, rfl, rfl, sound_container hcrypto hfits hencrypted hfile⟩
  | stopped hstop => exact .inl ⟨_, w, rfl, rfl⟩

theorem nonces_and_limits_hola :
    ∃ r w records, writeBlock holaCrypto holaKey holaId holaPrefix [hola] {} = (.ok r, w) ∧
      Sound holaCrypto holaKey holaId holaPrefix hola w records := by
  obtain ⟨hwrite, hlimit, _⟩ :=
    nonces_and_limits lawful_holaCrypto holaKey holaId holaPrefix [hola] none
  have hflatten : [hola].flatten = hola := rfl
  rw [hflatten] at hwrite hlimit
  rcases hwrite with ⟨e, w, hraised, _⟩ | ⟨r, w, records, hres, _, hsound⟩
  · have hover := (hlimit (by decide) (by decide)).mp ⟨e, congrArg Prod.fst hraised⟩
    exact absurd hover (by decide)
  · exact ⟨r, w, records, hres, hsound⟩

end DfshaNonceSpace
