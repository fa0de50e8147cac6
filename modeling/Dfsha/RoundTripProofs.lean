import Dfsha.BlockReadProofs

/-! # The round trip of a block

    The container that `write_block` leaves is read back: the header and the
    metadata are found where they were put, the size agrees, and the record of
    every chunk lies where the reader computes it from the logical size. -/

namespace DfshaRoundTrip

open RaisingAction BlockChunks DfshaBlockStore DfshaContainer DfshaBlockRead

/-- What the documentation of the libraries says: decryption inverts
    encryption, a ciphertext is the plaintext and a tag, a digest has 32
    bytes. -/
structure Lawful (crypto : Crypto) : Prop where
  inverts : ∀ key nonce plaintext aad, crypto.decrypt key nonce
    (crypto.encrypt key nonce plaintext aad) aad = some plaintext
  tagged : ∀ key nonce plaintext aad,
    (crypto.encrypt key nonce plaintext aad).length = plaintext.length + tagSizeBytes
  digest : ∀ data, (crypto.sha256 data).length = 32

/-! ## Header and metadata -/

section Header

variable (pre : NoncePrefix)

theorem length_packHeader : (packHeader pre).length = headerSize := by
  rw [packHeader, List.length_append, pre.property]
  rfl

theorem take_packHeader : (packHeader pre).take 5 = magic := rfl

theorem version_packHeader : (packHeader pre).getD 5 0 = formatVersion := rfl

theorem drop_packHeader : (packHeader pre).drop 6 = pre.val := rfl

theorem prefixOf_packHeader (blockId : String) :
    prefixOf blockId (packHeader pre) = .ok pre := by
  rw [prefixOf, dif_pos (by rw [drop_packHeader]; exact pre.property)]
  rfl

end Header

theorem maxChunks_lt : maxChunks < 256 ^ 4 := by decide

/-- A nonce that fits says its prefix and its counter. -/
theorem nonceBytes_inj {pre pre' : NoncePrefix} {i j : Nat} (hi : i ≤ maxChunks)
    (hj : j ≤ maxChunks) (h : nonceBytes pre i = nonceBytes pre' j) :
    pre = pre' ∧ i = j := by
  obtain ⟨hpre, hcounter⟩ := List.append_inj h (by rw [pre.property, pre'.property])
  exact ⟨Subtype.ext hpre, BigEndian.toBytes_inj (Nat.lt_of_le_of_lt hi maxChunks_lt)
    (Nat.lt_of_le_of_lt hj maxChunks_lt) hcounter⟩

/-- What is unpacked is what was packed, if it fits in eight bytes. -/
theorem unpack_packMetadata {size count : Nat} (checksum : Bytes)
    (hsize : size < 256 ^ 8) (hcount : count < 256 ^ 8) :
    BigEndian.ofBytes ((packMetadata size count checksum).take 8) = size ∧
    BigEndian.ofBytes (((packMetadata size count checksum).drop 8).take 8) = count ∧
    (packMetadata size count checksum).drop 16 = checksum := by
  have hlen := BigEndian.length_toBytes 8
  rw [packMetadata, List.append_assoc, List.take_left' (hlen _), List.drop_left' (hlen _),
    List.take_left' (hlen _), BigEndian.ofBytes_toBytes hsize, BigEndian.ofBytes_toBytes hcount,
    ← List.append_assoc, List.drop_left' (by rw [List.length_append, hlen, hlen])]
  exact ⟨rfl, rfl, rfl⟩

theorem length_packMetadata {size count : Nat} {checksum : Bytes}
    (hchecksum : checksum.length = 32) :
    (packMetadata size count checksum).length = metadataSize := by
  rw [packMetadata, List.length_append, List.length_append, BigEndian.length_toBytes,
    BigEndian.length_toBytes, hchecksum]
  rfl

/-- The format bounds the size. -/
theorem fits_bounds {key : Bytes} {blockId : String} {data : Bytes}
    (h : Fits key blockId data) :
    data.length < 256 ^ 8 ∧ expectedChunks data.length ≤ maxChunks := by
  have hsize := h.2.2
  constructor
  · refine Nat.lt_of_le_of_lt hsize ?_
    decide
  · by_cases hempty : data.length = 0
    · rw [hempty, expectedChunks_zero]
      exact Nat.zero_le _
    · obtain ⟨hlow, _, _⟩ := expectedChunks_bounds (Nat.pos_of_ne_zero hempty)
      have hlt := Nat.lt_of_mul_lt_mul_right (Nat.lt_of_lt_of_le hlow hsize)
      omega

/-- A file with a header and a metadata record that are genuine, and of the size
    that goes with them. -/
structure Framed (crypto : Crypto) (key : Bytes) (blockId : String) (pre : NoncePrefix)
    (fh : Bytes) (size : Nat) (checksum : Bytes) : Prop where
  header : fh.take headerSize = packHeader pre
  record : crypto.decrypt key (nonceBytes pre maxChunks)
    (fh.drop (fh.length - metadataRecordSize)) (metadataAad blockId (packHeader pre))
      = some (packMetadata size (expectedChunks size) checksum)
  checksum : checksum.length = 32
  length : fh.length = expectedSize size (expectedChunks size)

theorem expectedChunks_le (size : Nat) : expectedChunks size ≤ size := by
  rw [expectedChunks]
  by_cases hempty : size = 0
  · rw [if_pos hempty]
    exact Nat.zero_le _
  · rw [if_neg hempty]
    have hle := Nat.div_le_self (size - 1) chunkSizeBytes
    omega

/-- **THE READER ACCEPTS A FRAMED FILE** up to the limit of the format. -/
theorem readMetadata_framed {crypto : Crypto} {key : Bytes} {blockId : String}
    {pre : NoncePrefix} {fh checksum : Bytes} {size : Nat}
    (h : Framed crypto key blockId pre fh size checksum) (hkey : key.length = 32)
    (hbound : size < 256 ^ 8) (ys : List Bytes) :
    wp (readMetadata crypto key blockId (.still fh)) ys fun res ys' => ys' = ys ∧
      res = if expectedChunks size ≤ maxChunks then
          .ok ⟨pre, size, expectedChunks size, checksum⟩
        else .error (containerError blockId "conteo de chunks fuera del formato") := by
  have hmin : headerSize + metadataRecordSize ≤ fh.length := by
    rw [h.length, expectedSize]
    omega
  obtain ⟨hsize, hchunks, hchecksum⟩ :=
    unpack_packMetadata checksum hbound (Nat.lt_of_le_of_lt (expectedChunks_le size) hbound)
  have hopened := h.record
  rw [← h.header] at hopened
  refine wp_ofExcept_ok rfl (wp_raiseIf_passed (Nat.not_lt.mpr hmin) ?_)
  refine wp_ofExcept_ok rfl ?_
  refine wp_ofExcept_ok (h.header ▸ prefixOf_packHeader pre blockId) ?_
  refine wp_raiseIf_passed (h.header ▸ not_not_intro (take_packHeader pre)) ?_
  refine wp_raiseIf_passed (h.header ▸ not_not_intro (version_packHeader pre)) ?_
  refine wp_raiseIf_passed (Nat.not_lt.mpr (Nat.le_trans (Nat.le_add_left _ _) hmin)) ?_
  refine wp_ofExcept_ok (if_pos hkey) (wp_ofExcept_ok (if_pos (Nat.le_refl _)) ?_)
  refine wp_ofExcept_ok (congrArg (authentic blockId) hopened) ?_
  refine wp_raiseIf_passed (not_not_intro (length_packMetadata h.checksum)) ?_
  refine wp_raiseIf_passed ?_ (wp_raiseIf_cases ?_ fun hlimit => wp_raiseIf_passed ?_ ?_)
  · rw [hsize, hchunks]
    exact not_not_intro rfl
  · rw [hchunks]
    intro hover
    exact ⟨rfl, (if_neg (Nat.not_le.mpr hover)).symm⟩
  · rw [hsize, hchunks]
    exact not_not_intro h.length
  · rw [hchunks] at hlimit
    rw [hsize, hchunks, hchecksum, if_pos (Nat.not_lt.mp hlimit)]
    exact ⟨rfl, rfl⟩

/-! ## The records -/

section Records

variable {crypto : Crypto} {key : Bytes} {blockId : String} {pre : NoncePrefix}
  {data : Bytes}

/-- The records of the chunks, in order. -/
def records (crypto : Crypto) (key : Bytes) (blockId : String) (pre : NoncePrefix)
    (data : Bytes) : List Bytes :=
  (sealedChunks blockId pre data).map (ciphertext crypto key)

theorem container_eq (crypto : Crypto) (key : Bytes) (blockId : String)
    (pre : NoncePrefix) (data : Bytes) :
    container crypto key blockId pre data = packHeader pre ++
      ((records crypto key blockId pre data).flatten
        ++ ciphertext crypto key (sealedMetadata crypto blockId pre data)) := by
  rw [container, sealedAll, List.flatMap_append, List.flatMap_singleton, List.flatMap_def,
    records]

theorem length_records :
    (records crypto key blockId pre data).length = expectedChunks data.length := by
  rw [records, List.length_map, sealedChunks, List.length_map, List.length_range]

theorem getElem_records {index : Nat}
    (h : index < (records crypto key blockId pre data).length) :
    (records crypto key blockId pre data)[index] = ciphertext crypto key
      (sealedChunk blockId pre data (decide (index = expectedChunks data.length - 1))
        index) := by
  simp only [records, sealedChunks, List.getElem_map, List.getElem_range]

/-- A record is a chunk and a tag. -/
theorem lengths_records (hcrypto : Lawful crypto) :
    (records crypto key blockId pre data).map List.length
      = ((chunks chunkSizeBytes data 0 (expectedChunks data.length)).map List.length).map
        (· + tagSizeBytes) := by
  rw [records, sealedChunks, chunks, List.range_eq_range', List.map_map, List.map_map,
    List.map_map, List.map_map]
  exact List.map_congr_left fun index _ => hcrypto.tagged _ _ _ _

theorem filled_records (hcrypto : Lawful crypto) :
    Filled (chunkSizeBytes + tagSizeBytes)
      ((records crypto key blockId pre data).map List.length) := by
  rw [lengths_records hcrypto]
  refine filled_add tagSizeBytes ?_
  by_cases hempty : data.length = 0
  · rw [hempty, expectedChunks_zero]
    exact trivial
  · obtain ⟨hlow, hhigh, hpos⟩ := expectedChunks_bounds (Nat.pos_of_ne_zero hempty)
    obtain ⟨k, hk⟩ := Nat.exists_eq_succ_of_ne_zero (Nat.ne_of_gt hpos)
    rw [hk] at hlow hhigh ⊢
    exact filled_chunks hlow hhigh

theorem flatten_chunks_data (data : Bytes) :
    (chunks chunkSizeBytes data 0 (expectedChunks data.length)).flatten = data := by
  rw [flatten_chunks, Nat.zero_mul, List.drop_zero]
  refine List.take_of_length_le ?_
  by_cases hempty : data.length = 0
  · rw [hempty]
    exact Nat.zero_le _
  · exact (expectedChunks_bounds (Nat.pos_of_ne_zero hempty)).2.1

/-- The records take the size of the data, and a tag for each. -/
theorem length_flatten_records (hcrypto : Lawful crypto) :
    (records crypto key blockId pre data).flatten.length
      = data.length + expectedChunks data.length * tagSizeBytes := by
  have hsum : ∀ ns : List Nat,
      (ns.map (· + tagSizeBytes)).sum = ns.sum + ns.length * tagSizeBytes := by
    intro ns
    induction ns with
    | nil => rfl
    | cons n rest ih =>
        rw [List.map_cons, List.sum_cons, ih, List.sum_cons, List.length_cons, Nat.succ_mul]
        omega
  rw [List.length_flatten, lengths_records hcrypto, hsum, ← List.length_flatten,
    flatten_chunks_data, List.length_map, length_chunks]

/-- The metadata of a block. -/
def metadataOf (crypto : Crypto) (pre : NoncePrefix) (data : Bytes) : Metadata :=
  ⟨pre, data.length, expectedChunks data.length, crypto.sha256 data⟩

theorem describes_metadataOf (crypto : Crypto) (pre : NoncePrefix)
    (hfits : Fits key blockId data) :
    Describes (metadataOf crypto pre data) data := ⟨rfl, rfl, (fits_bounds hfits).2⟩

/-- The size of the file is the one that the reader computes. -/
theorem length_container (hcrypto : Lawful crypto) :
    (container crypto key blockId pre data).length
      = expectedSize data.length (expectedChunks data.length) := by
  have hmetadata : (ciphertext crypto key (sealedMetadata crypto blockId pre data)).length
      = metadataRecordSize := by
    rw [ciphertext, hcrypto.tagged, sealedMetadata,
      length_packMetadata (hcrypto.digest data)]
    rfl
  rw [container_eq, List.length_append, List.length_append, length_packHeader,
    length_flatten_records hcrypto, hmetadata, expectedSize]
  by_cases hempty : data.length = 0
  · rw [hempty, expectedChunks_zero, if_pos rfl]
    rfl
  · obtain ⟨hlow, _, hpos⟩ := expectedChunks_bounds (Nat.pos_of_ne_zero hempty)
    obtain ⟨k, hk⟩ := Nat.exists_eq_succ_of_ne_zero (Nat.ne_of_gt hpos)
    rw [hk] at hlow ⊢
    rw [Nat.succ_eq_add_one, Nat.add_sub_cancel] at hlow ⊢
    rw [if_neg (Nat.succ_ne_zero k), if_neg (Nat.succ_ne_zero k), Nat.mul_add,
      Nat.mul_comm chunkSizeBytes, Nat.succ_mul]
    omega

/-- The record of a chunk is where the reader looks for it. -/
theorem recordAt_container (hcrypto : Lawful crypto) (hfits : Fits key blockId data)
    {index : Nat} (hindex : index < expectedChunks data.length) :
    recordAt (metadataOf crypto pre data) (container crypto key blockId pre data) index
      = ciphertext crypto key (sealedChunk blockId pre data
        (decide (index = expectedChunks data.length - 1)) index) := by
  have hi : index < (records crypto key blockId pre data).length := by
    rw [length_records]
    exact hindex
  have hrecord := take_drop_flatten (filled_records hcrypto)
    (ciphertext crypto key (sealedMetadata crypto blockId pre data)) hi
  have hlen : (records crypto key blockId pre data)[index].length
      = (metadataOf crypto pre data).plaintextSize index + tagSizeBytes := by
    rw [getElem_records, ciphertext, hcrypto.tagged,
      ← length_chunk_eq (describes_metadataOf crypto pre hfits) hindex]
    rfl
  rw [recordAt, container_eq, ← List.drop_drop, List.drop_left' (length_packHeader pre),
    ← hlen, hrecord, getElem_records]

theorem opened_container (hcrypto : Lawful crypto) (hfits : Fits key blockId data)
    {index : Nat} (hindex : index < expectedChunks data.length) :
    opened crypto key blockId (metadataOf crypto pre data)
      (container crypto key blockId pre data) index
        = some (chunk chunkSizeBytes data index) := by
  rw [opened, recordAt_container hcrypto hfits hindex]
  exact hcrypto.inverts _ _ _ _

theorem intact_container (hcrypto : Lawful crypto) (hfits : Fits key blockId data)
    {index : Nat} (hindex : index < expectedChunks data.length) :
    Intact crypto key blockId (metadataOf crypto pre data)
      (container crypto key blockId pre data) index := by
  have hlen := length_chunk_eq (describes_metadataOf crypto pre hfits) hindex
  refine ⟨?_, _, opened_container hcrypto hfits hindex, hlen⟩
  rw [recordAt_container hcrypto hfits hindex, ciphertext, hcrypto.tagged, ← hlen]
  rfl

/-- The file of a block is framed, whether it fits or not. -/
theorem framed_container (hcrypto : Lawful crypto) :
    Framed crypto key blockId pre (container crypto key blockId pre data) data.length
      (crypto.sha256 data) := by
  refine ⟨?_, ?_, hcrypto.digest data, length_container hcrypto⟩
  · rw [container_eq, List.take_left' (length_packHeader pre)]
  · have hrecord : (container crypto key blockId pre data).drop
        ((container crypto key blockId pre data).length - metadataRecordSize)
          = ciphertext crypto key (sealedMetadata crypto blockId pre data) := by
      rw [container_eq, ← List.append_assoc]
      refine List.drop_left' ?_
      rw [@List.length_append _ (_ ++ _), ciphertext, hcrypto.tagged, sealedMetadata,
        length_packMetadata (hcrypto.digest data)]
      exact (Nat.add_sub_cancel _ _).symm
    rw [hrecord]
    exact hcrypto.inverts _ _ _ _

/-- The metadata that is read is that of the block. -/
theorem readMetadata_container (hcrypto : Lawful crypto) (hfits : Fits key blockId data)
    (ys : List Bytes) :
    wp (readMetadata crypto key blockId (.still (container crypto key blockId pre data))) ys
      fun res ys' => res = .ok (metadataOf crypto pre data) ∧ ys' = ys := by
  obtain ⟨hbound, hlimit⟩ := fits_bounds hfits
  refine wp_mono (readMetadata_framed (framed_container hcrypto) hfits.1 hbound ys) ?_
  rintro res ys' ⟨hys, hres⟩
  rw [if_pos hlimit] at hres
  exact ⟨hres, hys⟩

/-- A block that nobody touches is read without errors. -/
theorem readBlock_container (pre : NoncePrefix) (hcrypto : Lawful crypto)
    (hfits : Fits key blockId data) {chunkSize : Nat} (hsize : 0 < chunkSize) (offset : Nat)
    (length : Option Nat) :
    wp (readBlock crypto key blockId (.still (container crypto key blockId pre data))
      chunkSize offset (length.map Nat.cast)) [] fun res ys => res = .ok () ∧
        ys.flatten = asked data offset length ∧
        ∀ piece ∈ ys, 0 < piece.length ∧ piece.length ≤ chunkSize := by
  refine wp_raiseIf_passed ?_ ?_
  · rintro (hneg | ⟨n, hn, hneg⟩)
    · omega
    · obtain ⟨n', _, rfl⟩ := Option.map_eq_some_iff.mp hn
      omega
  refine wp_ofExcept_ok (if_pos hfits.2.1) (wp_ofExcept_ok rfl ?_)
  refine wp_call (readMetadata_container hcrypto hfits []) ?_ fun _ _ h => nomatch h.1
  rintro _ _ ⟨hm, rfl⟩
  obtain rfl := Except.ok.inj hm
  have hgenuine : AllGenuine crypto key blockId (metadataOf crypto pre data)
      (.still (container crypto key blockId pre data)) data := by
    rintro fh hfh index hindex p hp
    obtain rfl := Option.some.inj hfh
    exact Option.some.inj (hp.symm.trans (opened_container hcrypto hfits hindex))
  refine wp_mono (serve_spec (describes_metadataOf crypto pre hfits) hfits.1 hsize hgenuine) ?_
  rintro _ _ (⟨hbytes, hsized⟩ | ⟨_, _, _, hbroken⟩)
  · exact ⟨rfl, hbytes, hsized⟩
  · exact absurd ⟨_, rfl, fun index hindex => intact_container hcrypto hfits hindex⟩ hbroken

/-- **THE ROUND TRIP**: a block that fits is stored, whatever the pieces in
    which it arrives, with the digest and the size of the whole; and any range
    of it is read back exactly, in pieces that are not empty and not longer
    than asked. -/
theorem round_trip (hcrypto : Lawful crypto) (chunks : List Bytes)
    (hfits : Fits key blockId chunks.flatten) {chunkSize : Nat} (hsize : 0 < chunkSize)
    (offset : Nat) (length : Option Nat) :
    (writeBlock crypto key blockId pre chunks {}).1
      = .ok (hexDigest (crypto.sha256 chunks.flatten), chunks.flatten.length) ∧
    ∃ pieces, readBlock crypto key blockId
        (.still (writeBlock crypto key blockId pre chunks {}).2.file)
        chunkSize offset (length.map Nat.cast) [] = (.ok (), pieces) ∧
      pieces.flatten = asked chunks.flatten offset length ∧
      ∀ piece ∈ pieces, 0 < piece.length ∧ piece.length ≤ chunkSize := by
  have hwritten : Written crypto key blockId pre chunks.flatten
      (writeBlock crypto key blockId pre chunks {}).1
      (writeBlock crypto key blockId pre chunks {}).2 := writeBlock_spec chunks
  generalize (writeBlock crypto key blockId pre chunks {}).1 = res at hwritten
  generalize (writeBlock crypto key blockId pre chunks {}).2 = w at hwritten ⊢
  cases hwritten with
  | stopped hstop => exact absurd hfits hstop.1
  | done _ _ hfile =>
      refine ⟨rfl, ?_⟩
      rw [hfile]
      obtain ⟨hres, hbytes, hsized⟩ := readBlock_container pre hcrypto hfits hsize offset length
      exact ⟨_, Prod.ext hres rfl, hbytes, hsized⟩

end Records

/-! ## The block of four bytes -/

def holaKey : Bytes := List.replicate 32 0

def holaId : String := "0123456789abcdef0123456789abcdef"

/-- Another block id. -/
def marId : String := "fedcba9876543210fedcba9876543210"

def holaPrefix : NoncePrefix := ⟨[1, 2, 3, 4, 5, 6, 7, 8], rfl⟩

def holaDigest : Bytes :=
  [178, 33, 217, 219, 176, 131, 167, 243, 52, 40, 215, 194, 163, 195, 25, 138, 233, 37, 97,
    77, 112, 33, 14, 40, 113, 108, 202, 167, 205, 77, 219, 121]

def holaChunk : Sealed := sealedChunk holaId holaPrefix hola true 0

def holaMetadata : Sealed :=
  ⟨nonceBytes holaPrefix maxChunks, packMetadata 4 1 holaDigest,
    metadataAad holaId (packHeader holaPrefix)⟩

/-- What AES-256-GCM makes of the two. -/
def holaChunkCiphertext : Bytes :=
  [129, 222, 71, 161, 200, 214, 76, 129, 3, 120, 99, 46, 173, 85, 156, 49, 38, 47, 180, 187]

def holaMetadataCiphertext : Bytes :=
  [0, 250, 186, 243, 131, 176, 24, 152, 109, 223, 93, 167, 91, 0, 184, 57, 236, 99, 97, 124,
    8, 10, 59, 249, 59, 89, 131, 21, 48, 223, 133, 45, 63, 141, 220, 49, 138, 203, 94, 119,
    188, 191, 237, 162, 166, 235, 170, 234, 1, 6, 71, 251, 17, 99, 139, 233, 83, 178, 75, 46,
    245, 247, 219, 157]

def nullTag : Bytes := List.replicate tagSizeBytes 0

/-- AES-GCM and SHA-256 on the block; elsewhere, a null tag and a null
    digest. -/
def holaCrypto : Crypto where
  encrypt key nonce plaintext aad :=
    if key = holaKey ∧ ⟨nonce, plaintext, aad⟩ = holaChunk then holaChunkCiphertext
    else if key = holaKey ∧ ⟨nonce, plaintext, aad⟩ = holaMetadata then
      holaMetadataCiphertext
    else plaintext ++ nullTag
  decrypt key nonce ciphertext aad :=
    if key = holaKey ∧ nonce = holaChunk.nonce ∧ aad = holaChunk.aad ∧
      ciphertext = holaChunkCiphertext then some holaChunk.plaintext
    else if key = holaKey ∧ nonce = holaMetadata.nonce ∧ aad = holaMetadata.aad ∧
      ciphertext = holaMetadataCiphertext then some holaMetadata.plaintext
    else if nullTag <:+ ciphertext then
      some (ciphertext.take (ciphertext.length - tagSizeBytes))
    else none
  sha256 data := if data = hola then holaDigest else List.replicate 32 0

/-- Decryption of what is encrypted, on the table and elsewhere. -/
theorem inverts_holaCrypto (key nonce plaintext aad : Bytes) :
    holaCrypto.decrypt key nonce (holaCrypto.encrypt key nonce plaintext aad) aad
      = some plaintext := by
  by_cases hchunk : key = holaKey ∧ ⟨nonce, plaintext, aad⟩ = holaChunk
  · have hencrypt : holaCrypto.encrypt key nonce plaintext aad = holaChunkCiphertext :=
      if_pos hchunk
    rw [hencrypt]
    obtain ⟨rfl, hargs⟩ := hchunk
    exact (if_pos ⟨rfl, congrArg Sealed.nonce hargs, congrArg Sealed.aad hargs, rfl⟩).trans
      (congrArg (fun x => some x.plaintext) hargs.symm)
  by_cases hmetadata : key = holaKey ∧ ⟨nonce, plaintext, aad⟩ = holaMetadata
  · have hencrypt : holaCrypto.encrypt key nonce plaintext aad = holaMetadataCiphertext :=
      (if_neg hchunk).trans (if_pos hmetadata)
    rw [hencrypt]
    obtain ⟨rfl, hargs⟩ := hmetadata
    have hnonce : nonce ≠ holaChunk.nonce := by
      rw [show nonce = holaMetadata.nonce from congrArg Sealed.nonce hargs]
      decide
    refine (if_neg fun h => hnonce h.2.1).trans ?_
    exact (if_pos ⟨rfl, congrArg Sealed.nonce hargs, congrArg Sealed.aad hargs, rfl⟩).trans
      (congrArg (fun x => some x.plaintext) hargs.symm)
  · have hencrypt : holaCrypto.encrypt key nonce plaintext aad = plaintext ++ nullTag :=
      (if_neg hchunk).trans (if_neg hmetadata)
    have hother : ∀ c : Bytes, ¬nullTag <:+ c → plaintext ++ nullTag ≠ c :=
      fun c hc heq => hc ⟨plaintext, heq⟩
    rw [hencrypt]
    refine (if_neg fun h => hother _ (by decide) h.2.2.2).trans ?_
    refine (if_neg fun h => hother _ (by decide) h.2.2.2).trans ?_
    refine (if_pos ⟨plaintext, rfl⟩).trans (congrArg some (List.take_left' ?_))
    rw [List.length_append]
    exact (Nat.add_sub_cancel _ _).symm

theorem tagged_holaCrypto (key nonce plaintext aad : Bytes) :
    (holaCrypto.encrypt key nonce plaintext aad).length
      = plaintext.length + tagSizeBytes := by
  by_cases hchunk : key = holaKey ∧ ⟨nonce, plaintext, aad⟩ = holaChunk
  · have hencrypt : holaCrypto.encrypt key nonce plaintext aad = holaChunkCiphertext :=
      if_pos hchunk
    have hplaintext : plaintext = holaChunk.plaintext := congrArg Sealed.plaintext hchunk.2
    rw [hencrypt, hplaintext]
    decide
  by_cases hmetadata : key = holaKey ∧ ⟨nonce, plaintext, aad⟩ = holaMetadata
  · have hencrypt : holaCrypto.encrypt key nonce plaintext aad = holaMetadataCiphertext :=
      (if_neg hchunk).trans (if_pos hmetadata)
    have hplaintext : plaintext = holaMetadata.plaintext :=
      congrArg Sealed.plaintext hmetadata.2
    rw [hencrypt, hplaintext]
    decide
  · have hencrypt : holaCrypto.encrypt key nonce plaintext aad = plaintext ++ nullTag :=
      (if_neg hchunk).trans (if_neg hmetadata)
    rw [hencrypt]
    exact List.length_append

theorem lawful_holaCrypto : Lawful holaCrypto := by
  refine ⟨inverts_holaCrypto, tagged_holaCrypto, fun data => ?_⟩
  show (if data = hola then holaDigest else List.replicate 32 0).length = 32
  by_cases hdata : data = hola
  · rw [if_pos hdata]
    rfl
  · rw [if_neg hdata]
    rfl

theorem round_trip_hola :
    (writeBlock holaCrypto holaKey holaId holaPrefix [[104, 111], [], [108, 97]] {}).1
      = .ok (hexDigest holaDigest, 4) ∧
    ∃ pieces, readBlock holaCrypto holaKey holaId
        (.still (writeBlock holaCrypto holaKey holaId holaPrefix
          [[104, 111], [], [108, 97]] {}).2.file) 2 1 none [] = (.ok (), pieces) ∧
      pieces.flatten = [111, 108, 97] ∧
      ∀ piece ∈ pieces, 0 < piece.length ∧ piece.length ≤ 2 :=
  round_trip lawful_holaCrypto [[104, 111], [], [108, 97]]
    ⟨by decide, by decide, by decide⟩ (by decide) 1 none

end DfshaRoundTrip
