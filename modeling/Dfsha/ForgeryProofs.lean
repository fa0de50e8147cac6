import Dfsha.RoundTripProofs
import Mathlib.Data.List.Nodup

/-! # What a forged file can yield

    Whoever writes on the disk may put anything at the path of a block: records
    dropped, reordered, taken from other blocks or from earlier versions of
    the same one, and another file every time that `read_block` looks.  With
    an ideal cipher nothing decrypts but what some call of `write_block`
    encrypted, under the same nonce and associated data.

    The metadata decide the call: their nonce and their associated data fix
    the prefix and the block id, and only a call that completes writes them.
    Its prefix and the index then fix every record, because no other call has
    the prefix and no other record of the call has the index.  So what is
    yielded is a beginning of the range asked, of ONE complete writing of the
    block. -/

namespace DfshaForgery

open RaisingAction BlockChunks DfshaBlockStore DfshaContainer DfshaBlockRead
  DfshaRoundTrip

/-! ## The calls and the ideal cipher -/

/-- A call of `write_block`, and how many encryptions it has made: all of
    them, or fewer if it was cut off. -/
structure Call where
  blockId : String
  pre : NoncePrefix
  chunks : List Bytes
  encryptions : Nat

section Call

variable (crypto : Crypto) (key : Bytes) (call : Call)

def Call.data : Bytes := call.chunks.flatten

/-- What the whole call would do. -/
def Call.run : Except StoreError (String × Nat) × Writer :=
  writeBlock crypto key call.blockId call.pre call.chunks {}

def Call.encrypted : List Sealed :=
  (call.run crypto key).2.encrypted.take call.encryptions

/-- The call has returned. -/
structure Call.Complete : Prop where
  returned : ∃ res, (call.run crypto key).1 = .ok res
  all : (call.run crypto key).2.encrypted.length ≤ call.encryptions

end Call

/-- Under the key of the node, what the calls encrypted decrypts, and nothing
    decrypts but what one of them encrypted with that nonce and those
    associated data. -/
structure Ideal (crypto : Crypto) (key : Bytes) (calls : List Call) : Prop where
  inverts : ∀ call ∈ calls, ∀ x ∈ call.encrypted crypto key,
    crypto.decrypt key x.nonce (ciphertext crypto key x) x.aad = some x.plaintext
  produced : ∀ nonce c aad p, crypto.decrypt key nonce c aad = some p →
    ∃ call ∈ calls, ∃ x ∈ call.encrypted crypto key,
      x.nonce = nonce ∧ x.aad = aad ∧ ciphertext crypto key x = c

section Sealed

variable {crypto : Crypto} {key : Bytes} {blockId : String} {calls : List Call}
  {call : Call}

theorem Ideal.encrypted (h : Ideal crypto key calls) {nonce c aad p : Bytes}
    (hp : crypto.decrypt key nonce c aad = some p) :
    ∃ call ∈ calls, (⟨nonce, p, aad⟩ : Sealed) ∈ call.encrypted crypto key := by
  obtain ⟨call, hcall, x, hx, rfl, rfl, rfl⟩ := h.produced nonce c aad p hp
  have hplaintext := Option.some.inj ((h.inverts call hcall x hx).symm.trans hp)
  exact ⟨call, hcall, hplaintext ▸ hx⟩

/-- A list is determined by the images of its elements, where the map is
    injective. -/
theorem map_inj_on {α β : Type} {f : α → β} {P : α → Prop}
    (hf : ∀ a b, P a → P b → f a = f b → a = b) {xs ys : List α}
    (hxs : ∀ x ∈ xs, P x) (hys : ∀ y ∈ ys, P y) (h : xs.map f = ys.map f) : xs = ys := by
  induction xs generalizing ys with
  | nil => exact (List.map_eq_nil_iff.mp h.symm).symm
  | cons x xs ih =>
      obtain ⟨y, ys', rfl, hy, hrest⟩ := List.map_eq_cons_iff.mp h.symm
      have hhead := hf x y (hxs x List.mem_cons_self) (hys y List.mem_cons_self) hy.symm
      have htail := ih (fun z hz => hxs z (List.mem_cons_of_mem _ hz))
        (fun z hz => hys z (List.mem_cons_of_mem _ hz)) hrest.symm
      rw [hhead, htail]

theorem encodeAscii_inj {id id' : String} (hid : ValidBlockId id) (hid' : ValidBlockId id')
    (h : encodeAscii id = encodeAscii id') : id = id' := by
  have hlt : ∀ c : Char, (('0' ≤ c ∧ c ≤ '9') ∨ ('a' ≤ c ∧ c ≤ 'f')) → c.toNat < 256 := by
    rintro c (⟨_, hle⟩ | ⟨_, hle⟩)
    · exact Nat.lt_of_le_of_lt (UInt32.le_iff_toNat_le.mp hle) (by decide)
    · exact Nat.lt_of_le_of_lt (UInt32.le_iff_toNat_le.mp hle) (by decide)
  refine String.toList_inj.mp (map_inj_on (fun c d hc hd heq => ?_) hid.2 hid'.2 h)
  have hnat := congrArg UInt8.toNat heq
  rw [UInt8.toNat_ofNat', UInt8.toNat_ofNat', Nat.mod_eq_of_lt (hlt c hc),
    Nat.mod_eq_of_lt (hlt d hd)] at hnat
  exact Char.ext (UInt32.toNat_inj.mp hnat)

/-- The associated data of the metadata fix the block. -/
theorem metadataAad_inj {id id' : String} {header header' : Bytes} (hid : ValidBlockId id)
    (hid' : ValidBlockId id') (h : metadataAad id header = metadataAad id' header') :
    id = id' := by
  have hlen : ∀ {id : String}, ValidBlockId id → (encodeAscii id).length = 32 :=
    fun hid => (List.length_map _).trans hid.1
  rw [metadataAad, metadataAad, List.append_assoc, List.append_assoc] at h
  exact encodeAscii_inj hid hid' (List.append_inj_left h ((hlen hid).trans (hlen hid').symm))

/-- What a call may have encrypted: chunks of its data, and the metadata if it
    is complete. -/
theorem mem_encrypted {x : Sealed} (h : x ∈ call.encrypted crypto key) :
    (∃ isLast index, index < maxChunks ∧
      x = sealedChunk call.blockId call.pre call.data isLast index) ∨
    (x = sealedMetadata crypto call.blockId call.pre call.data ∧
      call.Complete crypto key ∧ Fits key call.blockId call.data) := by
  have hwritten : Written crypto key call.blockId call.pre call.data
      (call.run crypto key).1 (call.run crypto key).2 := writeBlock_spec call.chunks
  unfold Call.encrypted at h
  have hmem := List.mem_of_mem_take h
  generalize hrun : call.run crypto key = run at hwritten h hmem
  obtain ⟨res, w⟩ := run
  cases hwritten with
  | stopped hstop =>
      obtain ⟨isLast, index, hindex, hx⟩ := hstop.2 x hmem
      exact .inl ⟨isLast, index, hindex, hx⟩
  | done hfits hencrypted hfile =>
      have hchunk : x ∈ sealedChunks call.blockId call.pre call.data →
          ∃ isLast index, index < maxChunks ∧
            x = sealedChunk call.blockId call.pre call.data isLast index := by
        intro hx
        obtain ⟨index, hindex, rfl⟩ := List.mem_map.mp hx
        exact ⟨_, index, Nat.lt_of_lt_of_le (List.mem_range.mp hindex) (fits_bounds hfits).2,
          rfl⟩
      dsimp only at h
      rw [hencrypted, sealedAll] at h
      by_cases hcut : call.encryptions
          ≤ (sealedChunks call.blockId call.pre call.data).length
      · rw [List.take_append_of_le_length hcut] at h
        exact .inl (hchunk (List.mem_of_mem_take h))
      · rcases List.mem_append.mp (List.mem_of_mem_take h) with hx | hx
        · exact .inl (hchunk hx)
        · refine .inr ⟨List.mem_singleton.mp hx, ⟨⟨_, by rw [hrun]⟩, ?_⟩, hfits⟩
          rw [hrun]
          show w.encrypted.length ≤ call.encryptions
          rw [hencrypted, sealedAll, List.length_append, List.length_singleton]
          omega

/-! ## The metadata -/

/-- What the checks of `_read_metadata` establish. -/
structure Authentic (crypto : Crypto) (key : Bytes) (blockId : String) (m : Metadata) :
    Prop where
  opened : ∃ c p, crypto.decrypt key (nonceBytes m.pre maxChunks) c
      (metadataAad blockId (packHeader m.pre)) = some p ∧
    m.logicalSize = BigEndian.ofBytes (p.take 8) ∧
    m.chunkCount = BigEndian.ofBytes ((p.drop 8).take 8)
  count : m.chunkCount = expectedChunks m.logicalSize
  limit : m.chunkCount ≤ maxChunks

/-- Metadata, or an error about the block. -/
def AuthenticOrBad (crypto : Crypto) (key : Bytes) (blockId : String) :
    Except StoreError Metadata → Prop
  | .ok m => Authentic crypto key blockId m
  | .error e => IsBadBlock e

/-- A header that passes the checks is the one of its prefix. -/
theorem eq_packHeader {header : Bytes} {pre : NoncePrefix}
    (hpre : prefixOf blockId header = .ok pre) (hmagic : header.take 5 = magic)
    (hversion : header.getD 5 0 = formatVersion) : header = packHeader pre := by
  rw [prefixOf] at hpre
  by_cases hlen : (header.drop 6).length = 8
  · rw [dif_pos hlen] at hpre
    obtain rfl := Except.ok.inj hpre
    rw [List.length_drop] at hlen
    have hfive : 5 < header.length := by omega
    have hget : header[5] = formatVersion := by
      rw [← hversion, List.getD_eq_getElem?_getD, List.getElem?_eq_getElem (by omega)]
      rfl
    rw [packHeader, ← hmagic, ← hget, List.append_assoc, List.singleton_append,
      ← List.drop_eq_getElem_cons, List.take_append_drop]
  · rw [dif_neg hlen] at hpre
    cases hpre

theorem openFile_error {file : Option Bytes} {e : StoreError}
    (h : openFile blockId file = .error e) : IsBadBlock e := by
  cases file with
  | none => exact Except.error.inj h ▸ trivial
  | some _ => exact nomatch h

theorem authentic_error {plaintext : Option Bytes} {e : StoreError}
    (h : authentic blockId plaintext = .error e) : IsBadBlock e := by
  cases plaintext with
  | none => exact Except.error.inj h ▸ trivial
  | some _ => exact nomatch h

theorem authentic_ok {plaintext : Option Bytes} {p : Bytes}
    (h : authentic blockId plaintext = .ok p) : plaintext = some p := by
  cases plaintext with
  | none => exact nomatch h
  | some _ => exact congrArg some (Except.ok.inj h)

theorem prefixOf_error {header : Bytes} {e : StoreError}
    (h : prefixOf blockId header = .error e) : IsBadBlock e := by
  rw [prefixOf] at h
  by_cases hlen : (header.drop 6).length = 8
  · rw [dif_pos hlen] at h
    cases h
  · rw [dif_neg hlen] at h
    exact Except.error.inj h ▸ trivial

/-- Whatever is on the disk, what `_read_metadata` returns is authentic. -/
theorem readMetadata_spec (hkey : key.length = 32) (found : Found) (ys : List Bytes) :
    wp (readMetadata crypto key blockId found) ys fun res ys' =>
      ys' = ys ∧ AuthenticOrBad crypto key blockId res := by
  refine wp_ofExcept_cases (fun onDisk _ => ?_) fun _ he => ⟨rfl, openFile_error he⟩
  refine wp_raiseIf_cases (fun _ => ⟨rfl, trivial⟩) fun _ => ?_
  refine wp_ofExcept_cases (fun fh _ => ?_) fun _ he => ⟨rfl, openFile_error he⟩
  refine wp_ofExcept_cases (fun pre hpre => ?_) fun _ he => ⟨rfl, prefixOf_error he⟩
  refine wp_raiseIf_cases (fun _ => ⟨rfl, trivial⟩) fun hmagic => ?_
  refine wp_raiseIf_cases (fun _ => ⟨rfl, trivial⟩) fun hversion => ?_
  have hheader := eq_packHeader hpre (Decidable.not_not.mp hmagic)
    (Decidable.not_not.mp hversion)
  refine wp_raiseIf_cases (fun _ => ⟨rfl, trivial⟩) fun _ => ?_
  refine wp_ofExcept_ok (if_pos hkey) (wp_ofExcept_ok (if_pos (Nat.le_refl _)) ?_)
  refine wp_ofExcept_cases (fun metadata hmetadata => ?_) fun _ he => ⟨rfl, authentic_error he⟩
  refine wp_raiseIf_cases (fun _ => ⟨rfl, trivial⟩) fun _ => ?_
  refine wp_raiseIf_cases (fun _ => ⟨rfl, trivial⟩) fun hcount => ?_
  refine wp_raiseIf_cases (fun _ => ⟨rfl, trivial⟩) fun hlimit => ?_
  refine wp_raiseIf_cases (fun _ => ⟨rfl, trivial⟩) fun _ => ?_
  rw [hheader] at hmetadata
  exact ⟨rfl, ⟨_, metadata, authentic_ok hmetadata, rfl, rfl⟩, Decidable.not_not.mp hcount,
    Nat.not_lt.mp hlimit⟩

/-- **THE METADATA DECIDE THE CALL**. -/
theorem exists_call {m : Metadata} (hideal : Ideal crypto key calls)
    (hid : ValidBlockId blockId) (h : Authentic crypto key blockId m) :
    ∃ call ∈ calls, call.blockId = blockId ∧ call.Complete crypto key ∧
      m.pre = call.pre ∧ Describes m call.data := by
  obtain ⟨c, p, hopened, hsize, hchunks⟩ := h.opened
  obtain ⟨call, hcall, hmem⟩ := hideal.encrypted hopened
  rcases mem_encrypted hmem with ⟨isLast, index, hindex, hx⟩ | ⟨hx, hcomplete, hfits⟩
  · have hnonce := congrArg Sealed.nonce hx
    obtain ⟨_, hcounter⟩ := nonceBytes_inj (Nat.le_refl _) (Nat.le_of_lt hindex) hnonce
    omega
  · have hnonce := congrArg Sealed.nonce hx
    obtain ⟨hpre, _⟩ := nonceBytes_inj (Nat.le_refl _) (Nat.le_refl _) hnonce
    have hblock := metadataAad_inj hid hfits.2.1 (congrArg Sealed.aad hx)
    obtain ⟨hbound, hlimit⟩ := fits_bounds hfits
    have hplaintext : p = packMetadata call.data.length (expectedChunks call.data.length)
        (crypto.sha256 call.data) := congrArg Sealed.plaintext hx
    obtain ⟨hunpacked, _, _⟩ := unpack_packMetadata (crypto.sha256 call.data)
      hbound (Nat.lt_of_le_of_lt hlimit (by decide))
    have hlogical : m.logicalSize = call.data.length := by rw [hsize, hplaintext, hunpacked]
    exact ⟨call, hcall, hblock.symm, hcomplete, hpre, hlogical,
      by rw [h.count, hlogical], h.limit⟩

/-- **THE RECORDS ARE OF THE SAME CALL**, each at its own index. -/
theorem genuine_of_ideal {m : Metadata} {fh : Bytes} {index : Nat}
    (hideal : Ideal crypto key calls) (hdistinct : (calls.map Call.pre).Nodup)
    (hcall : call ∈ calls) (hpre : m.pre = call.pre) (hdescribes : Describes m call.data)
    (hindex : index < m.chunkCount) : Genuine crypto key blockId m fh index call.data := by
  have hlimit := hdescribes.limit
  intro p hp
  obtain ⟨call', hcall', hmem⟩ := hideal.encrypted hp
  rcases mem_encrypted hmem with ⟨isLast, index', hindex', hx⟩ | ⟨hx, _, _⟩
  · obtain ⟨hpre', rfl⟩ := nonceBytes_inj (by omega) (Nat.le_of_lt hindex')
      (congrArg Sealed.nonce hx)
    have hsame : call' = call :=
      List.inj_on_of_nodup_map hdistinct hcall' hcall (hpre'.symm.trans hpre)
    rw [← hsame]
    exact congrArg Sealed.plaintext hx
  · obtain ⟨_, hcounter⟩ := nonceBytes_inj (by omega) (Nat.le_refl _)
      (congrArg Sealed.nonce hx)
    omega

/-! ## The request -/

/-- A range that no read accepts. -/
def InvalidRange (offset : Int) (length : Option Int) : Prop :=
  offset < 0 ∨ ∃ n ∈ length, n < 0

/-- What a read may do: refuse the range; or yield a beginning of what is asked
    of ONE complete writing of the block, all of it if there is no error; or
    raise before it yields anything. -/
inductive Sound (crypto : Crypto) (key : Bytes) (blockId : String) (calls : List Call)
    (offset : Int) (length : Option Int) : Except StoreError Unit → List Bytes → Prop
  | refused {e : StoreError} (h : InvalidRange offset length) :
      Sound crypto key blockId calls offset length (.error e) []
  | raised {e : StoreError} (hbad : IsBadBlock e) :
      Sound crypto key blockId calls offset length (.error e) []
  | yielded {call : Call} {res : Except StoreError Unit} {ys : List Bytes}
      (hcall : call ∈ calls) (hid : call.blockId = blockId)
      (hcomplete : call.Complete crypto key)
      (hbytes : ys.flatten <+: asked call.data offset.toNat (length.map Int.toNat))
      (hall : res = .ok () →
        ys.flatten = asked call.data offset.toNat (length.map Int.toNat))
      (hbad : ∀ e, res = .error e → IsBadBlock e) :
      Sound crypto key blockId calls offset length res ys

/-- A range that is accepted is one of natural numbers. -/
theorem exists_nat_range {offset : Int} {length : Option Int}
    (h : ¬InvalidRange offset length) :
    ∃ (n : Nat) (len : Option Nat), offset = n ∧ length = len.map Nat.cast := by
  rw [InvalidRange, not_or] at h
  obtain ⟨n, hn⟩ := Int.eq_ofNat_of_zero_le (Int.not_lt.mp h.1)
  cases length with
  | none => exact ⟨n, none, hn, rfl⟩
  | some k =>
      have hk : 0 ≤ k := Int.not_lt.mp fun hneg => h.2 ⟨k, rfl, hneg⟩
      exact ⟨n, some k.toNat, hn, congrArg some (Int.toNat_of_nonneg hk).symm⟩

theorem validate_error {e : StoreError} (h : validateBlockId blockId = .error e) :
    IsBadBlock e := by
  rw [validateBlockId] at h
  by_cases hid : ValidBlockId blockId
  · rw [if_pos hid] at h
    cases h
  · rw [if_neg hid] at h
    exact Except.error.inj h ▸ trivial

theorem valid_of_ok {u : Unit} (h : validateBlockId blockId = .ok u) :
    ValidBlockId blockId := by
  rw [validateBlockId] at h
  by_cases hid : ValidBlockId blockId
  · exact hid
  · rw [if_neg hid] at h
    cases h

/-- **NO FORGED BYTE IS YIELDED**, whatever is found at the path of the block
    each time that the read looks. -/
theorem reads_only_what_was_written (hideal : Ideal crypto key calls)
    (hdistinct : (calls.map Call.pre).Nodup) (hkey : key.length = 32)
    (found : Found) {chunkSize : Nat} (hsize : 0 < chunkSize)
    (offset : Int) (length : Option Int) :
    Sound crypto key blockId calls offset length
      (readBlock crypto key blockId found chunkSize offset length []).1
      (readBlock crypto key blockId found chunkSize offset length []).2 := by
  have hwp : wp (readBlock crypto key blockId found chunkSize offset length) []
      (Sound crypto key blockId calls offset length) := by
    refine wp_raiseIf_cases .refused fun hrange => ?_
    obtain ⟨n, len, rfl, rfl⟩ := exists_nat_range hrange
    refine wp_ofExcept_cases (fun _ hvalid => ?_) fun _ he => .raised (validate_error he)
    have hid := valid_of_ok hvalid
    refine wp_ofExcept_cases (fun _ _ => ?_) fun _ he => .raised (openFile_error he)
    refine wp_call (readMetadata_spec hkey found []) ?_ ?_
    · rintro m _ ⟨rfl, hauth⟩
      obtain ⟨call, hcall, hblock, hcomplete, hpre, hdescribes⟩ := exists_call hideal hid hauth
      refine wp_mono (serve_spec hdescribes hkey hsize fun fh _ index hindex =>
        genuine_of_ideal hideal hdistinct hcall hpre hdescribes hindex) ?_
      have hlen : (len.map Nat.cast : Option Int).map Int.toNat = len := by
        cases len with
        | none => rfl
        | some _ => rfl
      rintro _ ys (⟨hbytes, _⟩ | ⟨hbad, hbytes, _, _⟩)
      · refine .yielded hcall hblock hcomplete ?_ (fun _ => ?_) fun _ he => nomatch he
        · rw [hlen, hbytes]
          exact List.prefix_refl _
        · rw [hlen]
          exact hbytes
      · refine .yielded hcall hblock hcomplete ?_ (fun he => nomatch he) fun _ he => ?_
        · rw [hlen]
          exact hbytes
        · exact Except.error.inj he ▸ hbad
    · rintro e _ ⟨rfl, hbad⟩
      exact .raised hbad
  exact hwp

end Sealed

/-! ## A node with one block -/

def holaCall : Call := ⟨holaId, holaPrefix, [[104, 111], [], [108, 97]], 2⟩

/-- AES-GCM for a node that has encrypted that block and nothing else. -/
def holaVault : Crypto :=
  { holaCrypto with
    decrypt := fun key nonce c aad =>
      if key = holaKey ∧ nonce = holaChunk.nonce ∧ aad = holaChunk.aad ∧
        c = holaChunkCiphertext then some holaChunk.plaintext
      else if key = holaKey ∧ nonce = holaMetadata.nonce ∧ aad = holaMetadata.aad ∧
        c = holaMetadataCiphertext then some holaMetadata.plaintext
      else none }

theorem encrypted_holaCall :
    holaCall.encrypted holaVault holaKey = [holaChunk, holaMetadata] := by
  decide +kernel

theorem ideal_holaVault : Ideal holaVault holaKey [holaCall] := by
  constructor
  · intro call hcall x hx
    rw [List.mem_singleton.mp hcall, encrypted_holaCall] at hx
    rcases List.mem_pair.mp hx with rfl | rfl
    · decide +kernel
    · decide +kernel
  · intro nonce c aad p hp
    refine ⟨holaCall, List.mem_singleton.mpr rfl, ?_⟩
    rw [encrypted_holaCall]
    unfold holaVault at hp
    dsimp only at hp
    split at hp
    · next h =>
        obtain ⟨_, rfl, rfl, rfl⟩ := h
        exact ⟨holaChunk, List.mem_cons_self, rfl, rfl, by decide +kernel⟩
    split at hp
    · next h =>
        obtain ⟨_, rfl, rfl, rfl⟩ := h
        exact ⟨holaMetadata, List.mem_cons_of_mem _ List.mem_cons_self, rfl, rfl,
          by decide +kernel⟩
    · exact nomatch hp

/-- The metadata are the right ones, but by then the records have been
    replaced. -/
def holaSwapped : Found :=
  { Found.still (container holaVault holaKey holaId holaPrefix hola) with
    records := some (List.replicate 98 7) }

theorem reads_only_what_was_written_swapped :
    Sound holaVault holaKey holaId [holaCall] 1 none
      (readBlock holaVault holaKey holaId holaSwapped 2 1 none []).1
      (readBlock holaVault holaKey holaId holaSwapped 2 1 none []).2 :=
  reads_only_what_was_written ideal_holaVault (List.nodup_singleton _) (by decide)
    holaSwapped (by decide) 1 none

end DfshaForgery
