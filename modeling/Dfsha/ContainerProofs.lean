import Dfsha.BlockStoreProofs

/-! # The round trip of a block

    Whatever the pieces in which a block arrives, `write_block` cuts it at the
    multiples of 1 MiB and marks as last the chunk that is: it flushes a chunk
    only when more bytes follow it (`Flushed`).  So the file is determined by
    the data (`container`), and reading any range of it back gives that range,
    in pieces that are not empty and not longer than asked. -/

namespace DfshaContainer

open RaisingAction BlockChunks Stretch DfshaBlockStore

/-! ## The file of a block -/

section Format

variable (crypto : Crypto) (key : Bytes) (blockId : String) (pre : NoncePrefix)
  (data : Bytes)

def ciphertext (x : Sealed) : Bytes := crypto.encrypt key x.nonce x.plaintext x.aad

/-- How the chunk `index` of a block is encrypted. -/
def sealedChunk (isLast : Bool) (index : Nat) : Sealed :=
  ⟨nonceBytes pre index, chunk chunkSizeBytes data index, chunkAad blockId index isLast⟩

def sealedChunks : List Sealed :=
  (List.range (expectedChunks data.length)).map fun index =>
    sealedChunk blockId pre data (decide (index = expectedChunks data.length - 1)) index

def sealedMetadata : Sealed :=
  ⟨nonceBytes pre maxChunks,
    packMetadata data.length (expectedChunks data.length) (crypto.sha256 data),
    metadataAad blockId (packHeader pre)⟩

def sealedAll : List Sealed :=
  sealedChunks blockId pre data ++ [sealedMetadata crypto blockId pre data]

/-- The file of a block. -/
def container : Bytes :=
  packHeader pre ++ (sealedAll crypto blockId pre data).flatMap (ciphertext crypto key)

/-- The block can be stored. -/
def Fits : Prop :=
  key.length = 32 ∧ ValidBlockId blockId ∧ data.length ≤ maxChunks * chunkSizeBytes

end Format

/-! ## Sizes -/

theorem chunkSizeBytes_pos : 0 < chunkSizeBytes := by
  unfold chunkSizeBytes
  omega

theorem expectedChunks_zero : expectedChunks 0 = 0 := if_pos rfl

/-- The number of chunks is the one into which the size goes. -/
theorem expectedChunks_eq {size k : Nat} (hlow : k * chunkSizeBytes < size)
    (hhigh : size ≤ (k + 1) * chunkSizeBytes) : expectedChunks size = k + 1 := by
  rw [expectedChunks, if_neg (by omega)]
  congr 1
  refine Nat.div_eq_of_lt_le ?_ ?_
  · omega
  · omega

theorem expectedChunks_bounds {size : Nat} (h : 0 < size) :
    (expectedChunks size - 1) * chunkSizeBytes < size ∧
      size ≤ expectedChunks size * chunkSizeBytes ∧ 0 < expectedChunks size := by
  rw [expectedChunks, if_neg (by omega), Nat.add_sub_cancel]
  have hdiv := Nat.div_mul_le_self (size - 1) chunkSizeBytes
  have hlt := Nat.lt_div_mul_add (a := size - 1) chunkSizeBytes_pos
  refine ⟨by omega, ?_, Nat.succ_pos _⟩
  rw [Nat.succ_mul]
  omega

/-! ## Writing -/

section Write

variable {crypto : Crypto} {key : Bytes} {blockId : String} {pre : NoncePrefix}
  {data pending : Bytes} {w : Writer}

/-- Nothing is encrypted but chunks. -/
def OnlyChunks (blockId : String) (pre : NoncePrefix) (data : Bytes)
    (encrypted : List Sealed) : Prop :=
  ∀ x ∈ encrypted, ∃ isLast index, index < maxChunks ∧
    x = sealedChunk blockId pre data isLast index

/-- Between two chunks: what has been hashed is a beginning of the data, the
    full chunks before `pending` are in the file, and none of them is the last
    one. -/
structure Flushed (crypto : Crypto) (key : Bytes) (blockId : String) (pre : NoncePrefix)
    (data pending : Bytes) (w : Writer) : Prop where
  hashed : w.hashed <+: data
  size : w.bytesWritten = w.hashed.length
  file : w.file = packHeader pre ++ w.encrypted.flatMap (ciphertext crypto key)
  encrypted : w.encrypted
    = (List.range w.chunkCount).map (sealedChunk blockId pre data false)
  limit : w.chunkCount ≤ maxChunks
  remains : pending = w.hashed.drop (w.chunkCount * chunkSizeBytes)
  full : w.chunkCount * chunkSizeBytes ≤ w.hashed.length
  more : w.chunkCount ≠ 0 → pending ≠ []

/-- The block does not fit, and the writing has stopped before its end. -/
def Stopped (key : Bytes) (blockId : String) (pre : NoncePrefix) (data : Bytes)
    (w : Writer) : Prop :=
  ¬Fits key blockId data ∧ OnlyChunks blockId pre data w.encrypted

/-- The writing goes on as `P` says, or has stopped. -/
def Ends {α : Type} (key : Bytes) (blockId : String) (pre : NoncePrefix) (data : Bytes)
    (P : α → Writer → Prop) : Except StoreError α → Writer → Prop
  | .ok a, w => P a w
  | .error _, w => Stopped key blockId pre data w

theorem Flushed.onlyChunks (h : Flushed crypto key blockId pre data pending w) :
    OnlyChunks blockId pre data w.encrypted := by
  intro x hx
  rw [h.encrypted] at hx
  obtain ⟨index, hindex, rfl⟩ := List.mem_map.mp hx
  exact ⟨false, index, Nat.lt_of_lt_of_le (List.mem_range.mp hindex) h.limit, rfl⟩

theorem Flushed.length_pending (h : Flushed crypto key blockId pre data pending w) :
    w.hashed.length = w.chunkCount * chunkSizeBytes + pending.length := by
  have hfull := h.full
  rw [h.remains, List.length_drop]
  omega

/-- With bytes pending, a full count means that the block does not fit. -/
theorem Flushed.stopped (h : Flushed crypto key blockId pre data pending w)
    (hpending : pending ≠ []) (hcount : maxChunks ≤ w.chunkCount) :
    Stopped key blockId pre data w := by
  refine ⟨fun hfits => ?_, h.onlyChunks⟩
  have hlen := h.hashed.length_le
  have hpos := List.length_pos_iff.mpr hpending
  have hmul := Nat.mul_le_mul_right chunkSizeBytes hcount
  have hsize := hfits.2.2
  rw [h.length_pending] at hlen
  omega

/-- What is pending is the next chunk, as far as it has arrived. -/
theorem Flushed.take_pending (h : Flushed crypto key blockId pre data pending w)
    (hlen : chunkSizeBytes ≤ pending.length) :
    pending.take chunkSizeBytes = chunk chunkSizeBytes data w.chunkCount := by
  obtain ⟨rest, hrest⟩ := h.hashed
  have hhashed := h.length_pending
  rw [chunk, ← hrest, List.drop_append_of_le_length h.full, ← h.remains,
    List.take_append_of_le_length hlen]

/-- The state after a flush. -/
def flushed (crypto : Crypto) (key : Bytes) (x : Sealed) (w : Writer) : Writer :=
  { w with
    file := w.file ++ ciphertext crypto key x
    encrypted := w.encrypted ++ [x]
    chunkCount := w.chunkCount + 1 }

theorem wp_flush {plaintext : Bytes} {isLast : Bool}
    {Q : Except StoreError Unit → Writer → Prop}
    (full : maxChunks ≤ w.chunkCount → Q (.error tooManyChunks) w)
    (h : w.chunkCount < maxChunks → Q (.ok ()) (flushed crypto key
      ⟨nonceBytes pre w.chunkCount, plaintext, chunkAad blockId w.chunkCount isLast⟩ w)) :
    wp (flush crypto key blockId pre plaintext isLast) w Q := by
  refine wp_gets (wp_raiseIf_cases full fun hlt => ?_)
  have hlt' : w.chunkCount < maxChunks := by omega
  have hnonce : nonce pre w.chunkCount = .ok (nonceBytes pre w.chunkCount) :=
    if_pos (Nat.le_of_lt hlt')
  rw [hnonce]
  exact h hlt'

/-- A full chunk with more after it is flushed. -/
theorem flushed_next (h : Flushed crypto key blockId pre data pending w)
    (hlen : chunkSizeBytes < pending.length) :
    wp (flush crypto key blockId pre (pending.take chunkSizeBytes) false) w
      (Ends key blockId pre data fun _ w' => w'.hashed = w.hashed ∧
        Flushed crypto key blockId pre data (pending.drop chunkSizeBytes) w') := by
  have hne : pending ≠ [] := List.ne_nil_of_length_pos (by omega)
  refine wp_flush (h.stopped hne) fun hlt => ⟨rfl, ?_⟩
  have hhashed := h.length_pending
  have hmul : (w.chunkCount + 1) * chunkSizeBytes
      = w.chunkCount * chunkSizeBytes + chunkSizeBytes := Nat.succ_mul _ _
  refine ⟨h.hashed, h.size, ?_, ?_, hlt, ?_, ?_, fun _ => ?_⟩
  · show w.file ++ _ = _ ++ (w.encrypted ++ [_]).flatMap _
    rw [h.file, List.flatMap_append, List.flatMap_singleton, List.append_assoc]
  · show w.encrypted ++ [_] = (List.range (w.chunkCount + 1)).map _
    rw [List.range_succ, List.map_append, ← h.encrypted, List.map_singleton, sealedChunk,
      ← h.take_pending (Nat.le_of_lt hlen)]
  · show _ = w.hashed.drop ((w.chunkCount + 1) * chunkSizeBytes)
    rw [h.remains, List.drop_drop, hmul]
  · show (w.chunkCount + 1) * chunkSizeBytes ≤ w.hashed.length
    omega
  · exact List.ne_nil_of_length_pos (by rw [List.length_drop]; omega)

theorem drain_spec {turns : Nat} (h : Flushed crypto key blockId pre data pending w)
    (hturns : pending.length ≤ turns) :
    wp (drain crypto key blockId pre turns pending) w
      (Ends key blockId pre data fun rest w' => w'.hashed = w.hashed ∧
        rest.length ≤ chunkSizeBytes ∧
        Flushed crypto key blockId pre data rest w') := by
  induction turns generalizing pending w with
  | zero => exact ⟨rfl, by omega, h⟩
  | succ turns ih =>
      rw [drain]
      by_cases hlen : chunkSizeBytes < pending.length
      · rw [if_pos hlen]
        refine wp_call (flushed_next h hlen) ?_ fun _ _ hstop => hstop
        rintro _ w' ⟨hhashed, h'⟩
        have hpos := chunkSizeBytes_pos
        rw [← hhashed]
        exact ih h' (by rw [List.length_drop]; omega)
      · rw [if_neg hlen]
        exact ⟨rfl, by omega, h⟩

/-- Bytes that arrive are pending. -/
theorem flushed_received (incoming : Bytes)
    (h : Flushed crypto key blockId pre data pending w)
    (hdata : w.hashed ++ incoming <+: data) :
    Flushed crypto key blockId pre data (pending ++ incoming) { w with
      bytesWritten := w.bytesWritten + incoming.length
      hashed := w.hashed ++ incoming } := by
  refine ⟨hdata, ?_, h.file, h.encrypted, h.limit, ?_, ?_, fun hcount => ?_⟩
  · show w.bytesWritten + _ = (w.hashed ++ incoming).length
    rw [h.size, List.length_append]
  · show _ = (w.hashed ++ incoming).drop _
    rw [List.drop_append_of_le_length h.full, ← h.remains]
  · show _ ≤ (w.hashed ++ incoming).length
    rw [List.length_append]
    exact Nat.le_add_right_of_le h.full
  · exact List.append_ne_nil_of_left_ne_nil (h.more hcount) _

/-- Everything that arrives is flushed, but for at most one chunk. -/
theorem consume_spec {chunks : List Bytes}
    (h : Flushed crypto key blockId pre data pending w)
    (hpending : pending.length ≤ chunkSizeBytes)
    (hdata : w.hashed ++ chunks.flatten = data) :
    wp (consume crypto key blockId pre pending chunks) w
      (Ends key blockId pre data fun rest w' => w'.hashed = data ∧
        rest.length ≤ chunkSizeBytes ∧
        Flushed crypto key blockId pre data rest w') := by
  induction chunks generalizing pending w with
  | nil =>
      rw [List.flatten_nil, List.append_nil] at hdata
      exact ⟨hdata, hpending, h⟩
  | cons incoming chunks ih =>
      rw [List.flatten_cons, ← List.append_assoc] at hdata
      have harrived := flushed_received incoming h ⟨_, hdata⟩
      refine wp_modify (wp_call (drain_spec harrived (Nat.le_refl _)) ?_
        fun _ _ hstop => hstop)
      rintro rest w' ⟨hhashed, hlen, h'⟩
      exact ih h' hlen (by rw [hhashed]; exact hdata)

/-- What the file holds before the metadata: all the chunks. -/
structure Complete (crypto : Crypto) (key : Bytes) (blockId : String) (pre : NoncePrefix)
    (data : Bytes) (w : Writer) : Prop where
  hashed : w.hashed = data
  size : w.bytesWritten = data.length
  count : w.chunkCount = expectedChunks data.length
  file : w.file = packHeader pre ++ w.encrypted.flatMap (ciphertext crypto key)
  encrypted : w.encrypted = sealedChunks blockId pre data
  limit : w.chunkCount ≤ maxChunks

/-- Nothing is left: the block is empty. -/
theorem complete_of_empty (h : Flushed crypto key blockId pre data [] w)
    (hhashed : w.hashed = data) : Complete crypto key blockId pre data w := by
  have hcount : w.chunkCount = 0 := by
    by_contra hne
    exact h.more hne rfl
  have hlen := h.length_pending
  rw [hcount, Nat.zero_mul, List.length_nil] at hlen
  have hdata : data.length = 0 := by rw [← hhashed, hlen]
  refine ⟨hhashed, by rw [h.size, hhashed], ?_, h.file, ?_, h.limit⟩
  · rw [hcount, hdata, expectedChunks_zero]
  · rw [h.encrypted, hcount, sealedChunks, hdata, expectedChunks_zero]
    rfl

/-- What is left is the last chunk. -/
theorem complete_of_last (h : Flushed crypto key blockId pre data pending w)
    (hhashed : w.hashed = data) (hpending : pending ≠ [])
    (hlen : pending.length ≤ chunkSizeBytes) (hlimit : w.chunkCount < maxChunks) :
    Complete crypto key blockId pre data (flushed crypto key
      ⟨nonceBytes pre w.chunkCount, pending, chunkAad blockId w.chunkCount true⟩ w) := by
  have hpos := List.length_pos_iff.mpr hpending
  have hdata := h.length_pending
  rw [hhashed] at hdata
  have hcount : expectedChunks data.length = w.chunkCount + 1 := by
    refine expectedChunks_eq (by omega) ?_
    rw [Nat.succ_mul]
    omega
  have hlast : pending = chunk chunkSizeBytes data w.chunkCount := by
    rw [chunk, ← hhashed, ← h.remains, List.take_of_length_le hlen]
  refine ⟨hhashed, by rw [← hhashed]; exact h.size, hcount.symm, ?_, ?_, hlimit⟩
  · show w.file ++ _ = _ ++ (w.encrypted ++ [_]).flatMap _
    rw [h.file, List.flatMap_append, List.flatMap_singleton, List.append_assoc]
  · show w.encrypted ++ [_] = _
    rw [sealedChunks, hcount, List.range_succ, List.map_append, List.map_singleton,
      h.encrypted, Nat.add_sub_cancel, decide_eq_true rfl, sealedChunk, ← hlast]
    congr 1
    refine List.map_congr_left fun index hindex => ?_
    have hlt := List.mem_range.mp hindex
    rw [decide_eq_false (Nat.ne_of_lt hlt)]

/-- The last chunk is flushed. -/
theorem flushed_last (h : Flushed crypto key blockId pre data pending w)
    (hhashed : w.hashed = data) (hpending : pending ≠ [])
    (hlen : pending.length ≤ chunkSizeBytes) :
    wp (flush crypto key blockId pre pending true) w
      (Ends key blockId pre data fun _ w' => Complete crypto key blockId pre data w') :=
  wp_flush (h.stopped hpending) fun hlt => complete_of_last h hhashed hpending hlen hlt

/-- How a writing ends: with the container of the data in the file, if the
    block fits, and otherwise with an exception, before the metadata. -/
inductive Written (crypto : Crypto) (key : Bytes) (blockId : String) (pre : NoncePrefix)
    (data : Bytes) : Except StoreError (String × Nat) → Writer → Prop
  | done {w : Writer} (hfits : Fits key blockId data)
      (hencrypted : w.encrypted = sealedAll crypto blockId pre data)
      (hfile : w.file = container crypto key blockId pre data) :
      Written crypto key blockId pre data
        (.ok (hexDigest (crypto.sha256 data), data.length)) w
  | stopped {e : StoreError} {w : Writer} (h : Stopped key blockId pre data w) :
      Written crypto key blockId pre data (.error e) w

theorem Complete.fits (h : Complete crypto key blockId pre data w)
    (hkey : key.length = 32) (hid : ValidBlockId blockId) : Fits key blockId data := by
  refine ⟨hkey, hid, ?_⟩
  have hlimit := h.limit
  rw [h.count] at hlimit
  by_cases hempty : data.length = 0
  · omega
  · have hbounds := expectedChunks_bounds (Nat.pos_of_ne_zero hempty)
    exact Nat.le_trans hbounds.2.1 (Nat.mul_le_mul_right _ hlimit)

/-- The metadata is written when the chunks are complete. -/
theorem wp_metadata (h : Complete crypto key blockId pre data w)
    (hkey : key.length = 32) (hid : ValidBlockId blockId) :
    wp (do
      let w ← gets id
      let metadata := packMetadata w.bytesWritten w.chunkCount (crypto.sha256 w.hashed)
      let n ← ofExcept (nonce pre maxChunks)
      writeSealed crypto key ⟨n, metadata, metadataAad blockId (packHeader pre)⟩
      pure (hexDigest (crypto.sha256 w.hashed), w.bytesWritten))
      w (Written crypto key blockId pre data) := by
  refine wp_gets ?_
  have hnonce : nonce pre maxChunks = .ok (nonceBytes pre maxChunks) :=
    if_pos (Nat.le_refl _)
  dsimp only
  rw [hnonce]
  refine wp_bind (wp_modify ?_)
  show Written crypto key blockId pre data (.ok (hexDigest (crypto.sha256 w.hashed),
    w.bytesWritten)) _
  rw [id, h.hashed, h.size, h.count]
  refine .done (h.fits hkey hid) ?_ ?_
  · show w.encrypted ++ [_] = _
    rw [h.encrypted]
    rfl
  · show w.file ++ _ = _
    rw [h.file, h.encrypted, container, sealedAll, List.flatMap_append,
      List.flatMap_singleton, List.append_assoc]
    rfl

/-- **WHAT WRITING DOES**, whatever the pieces in which the data arrives. -/
theorem writeBlock_spec (chunks : List Bytes) :
    wp (writeBlock crypto key blockId pre chunks) {}
      (Written crypto key blockId pre chunks.flatten) := by
  have hrefuse : ∀ e, (key.length ≠ 32 ∨ ¬ValidBlockId blockId) →
      Written crypto key blockId pre chunks.flatten (.error e) ({} : Writer) := by
    intro e hbad
    refine .stopped ⟨fun hfits => ?_, fun _ hx => nomatch hx⟩
    rcases hbad with hbad | hbad
    · exact hbad hfits.1
    · exact hbad hfits.2.1
  by_cases hkey : key.length = 32
  case neg =>
    refine wp_ofExcept_cases (fun _ hok => ?_) fun e _ => hrefuse e (.inl hkey)
    rw [validateKey, if_neg hkey] at hok
    exact nomatch hok
  by_cases hid : ValidBlockId blockId
  case neg =>
    refine wp_ofExcept_cases (fun _ _ => ?_) fun e _ => hrefuse e (.inr hid)
    refine wp_ofExcept_cases (fun _ hok => ?_) fun e _ => hrefuse e (.inr hid)
    rw [validateBlockId, if_neg hid] at hok
    exact nomatch hok
  rw [writeBlock, validateKey, if_pos hkey, validateBlockId, if_pos hid]
  refine wp_bind (wp_bind (wp_modify ?_))
  have hstart : Flushed crypto key blockId pre chunks.flatten []
      { file := packHeader pre : Writer } :=
    ⟨List.nil_prefix, rfl, (List.append_nil _).symm, rfl, Nat.zero_le _,
      List.drop_nil.symm, (Nat.zero_mul _).le, fun h => absurd rfl h⟩
  refine wp_call (consume_spec hstart (Nat.zero_le _) rfl) ?_
    fun _ _ hstop => .stopped hstop
  rintro rest w ⟨hhashed, hlen, h⟩
  by_cases hrest : rest = []
  · rw [if_neg (not_not_intro hrest)]
    rw [hrest] at h
    exact wp_metadata (complete_of_empty h hhashed) hkey hid
  · rw [if_pos hrest]
    refine wp_call (flushed_last h hhashed hrest hlen) ?_ fun _ _ hstop => .stopped hstop
    exact fun _ w' hcomplete => wp_metadata hcomplete hkey hid

end Write

end DfshaContainer
