import Dfsha.FileRegionsProofs
import Dfsha.RangeReadProofs

/-! # Downloading a file

    A download takes a read lock, asks for the blocks of the file, and makes a
    temporary file of the size of all of them.  Several threads fetch the
    blocks, each into its region of that file: a replica that fails in the
    middle leaves bytes in the region, and the next replica begins at the start
    of the region again.  When all blocks are there the temporary file takes
    the place of the local one, in one step; if anything fails it is deleted.

    The threads are a pool of jobs whose changes are the edits of the temporary
    file.  When another transfer has failed a thread sees it between two
    chunks, at any of them. -/

namespace DfshaDownload

open RaisingAction FileEdits FileRegions ParallelJobs Stretch DfshaPath DfshaBlockStore
open DfshaContainer DfshaBlockRead DfshaRoundTrip DfshaBlockFailover DfshaRangeRead

/-! ## The client -/

/-- `_block_starts`. -/
def blockStarts : Int → List BlockLocation → List Int
  | _, [] => []
  | position, block :: rest => position :: blockStarts (position + block.sizeBytes) rest

def wrongSize (block : BlockLocation) (bytesWritten : Nat) : ClientError :=
  let size := block.sizeBytes
  .domain .blockCorruptedError
    s!"el bloque {block.blockId} llegó con {bytesWritten} bytes, se esperaban {size}"

/-- `fetch_block`, through a file of its own that is open at `start`. -/
def fetchBlock (network : Network) (block : BlockLocation) (start : Nat)
    (stopped : Nat → Nat → Bool) : Transfer Nat := do
  let bytesWritten ← readBlockWithFailover network
    (regionWriter start block.sizeBytes.toNat) stopped block 0 0
  raiseIf ((bytesWritten : Int) ≠ block.sizeBytes) (wrongSize block bytesWritten)
  pure bytesWritten

/-- What a thread may do with the item `i`. -/
def Fetches (networks : Nat → Network) (blocks : List BlockLocation) (i : Nat)
    (edits : List (Edit UInt8)) (result : Except ClientError Nat) : Prop :=
  ∃ block start stopped c, blocks[i]? = some block ∧ (blockStarts 0 blocks)[i]? = some start ∧
    fetchBlock (networks i) block start.toNat stopped ⟨start.toNat, []⟩ = (result, c) ∧
    c.edits = edits

/-- `_in_parallel(fetch_block, …)`. -/
def fetching (networks : Nat → Network) (parallelTransfers : Nat)
    (blocks : List BlockLocation) : Plan (Edit UInt8) ClientError Nat where
  count := blocks.length
  threads := parallelTransfers
  mayDo := Fetches networks blocks
  skipped := .cancelled

def totalSize (blocks : List BlockLocation) : Int := (blocks.map BlockLocation.sizeBytes).sum

/-- A file of zeros, which `truncate` has made. -/
def zeros (n : Nat) : Bytes := List.replicate n 0

/-- How the transfer of all blocks may end, and what the temporary file has
    then. -/
def Transferred (networks : Nat → Network) (parallelTransfers : Nat)
    (blocks : List BlockLocation) :
    Except ClientError (List Nat) → Bytes → Prop
  | .ok results, content => ∃ changes,
      Returns (fetching networks parallelTransfers blocks) changes results ∧
        content = applyAll (changes.map Prod.snd) (zeros (totalSize blocks).toNat)
  | .error e, content => ∃ changes,
      Raises (fetching networks parallelTransfers blocks) changes e ∧
        content = applyAll (changes.map Prod.snd) (zeros (totalSize blocks).toNat)

/-- What `download` may raise. -/
inductive Raised where
  | client (e : ClientError)
  | os (message : String)
deriving DecidableEq

abbrev LocalFiles := String → Option Bytes

/-- What the calls to the local file system end in. -/
structure LocalCalls where
  create : Except Raised Unit
  replace : Except Raised Unit

def tmpPathOf (localPath uuid : String) : String := localPath ++ ".part-" ++ uuid

/-- `except grpc.RpcError` and `except BaseException`: the temporary file is
    deleted. -/
def deletingOnError {α : Type} (tmpPath : String) (x : Action LocalFiles Raised α) :
    Action LocalFiles Raised α := fun files =>
  match x files with
  | (.error (.client (.rpc e)), files') =>
      (.error (.client (translate e)), Function.update files' tmpPath none)
  | (.error e, files') => (.error e, Function.update files' tmpPath none)
  | ended => ended

/-- `download`.  `transferred` is what the transfer of the blocks ends in, with
    the contents that it leaves; the release of the lock has no effect. -/
def download (calls : ControlCalls) (os : LocalCalls)
    (transferred : List BlockLocation → Except ClientError (List Nat) × Bytes)
    (localPath uuid : String) : Action LocalFiles Raised Nat := do
  let tmpPath := tmpPathOf localPath uuid
  ofExcept (calls.lock.mapError .client)
  deletingOnError tmpPath do
    let blocks ← ofExcept (calls.listBlocks.mapError .client)
    ofExcept os.create
    modify fun files => Function.update files tmpPath (some (zeros (totalSize blocks).toNat))
    modify fun files => Function.update files tmpPath (some (transferred blocks).2)
    let sizes ← ofExcept ((transferred blocks).1.mapError .client)
    ofExcept os.replace
    modify fun files =>
      Function.update (Function.update files localPath (files tmpPath)) tmpPath none
    pure sizes.sum

/-! ## Writing in a region -/

section Region

variable {start size : Nat} {c : Cursor}

/-- The cursor and all edits are in the region. -/
structure InRegion (start size : Nat) (c : Cursor) : Prop where
  low : start ≤ c.position
  high : c.position ≤ start + size
  edits : ∀ e ∈ c.edits, Inside start size e

theorem inRegion_put (h : InRegion start size c) {data : Bytes}
    (hroom : c.position + data.length ≤ start + size) : InRegion start size (c.put data) := by
  refine ⟨h.low.trans (Nat.le_add_right _ _), hroom, fun e he => ?_⟩
  rcases List.mem_append.mp he with he | he
  · exact h.edits e he
  · rw [List.mem_singleton.mp he]
    exact ⟨h.low, hroom⟩

/-- The chunks of a stream, whether they are all written or not. -/
theorem writeChunks_region (h : InRegion start size c) (stopped : Nat → Bool)
    (chunks : List Bytes) (i : Nat) :
    wp (writeChunks (regionWriter start size) stopped i chunks) c fun r c' =>
      InRegion start size c' ∧
      (r = .ok () → c'.edits = c.edits ++ putAll c.position chunks ∧
        c'.position = c.position + chunks.flatten.length) := by
  induction chunks generalizing c i with
  | nil => exact wp_ret ⟨h, fun _ => ⟨(List.append_nil _).symm, rfl⟩⟩
  | cons data rest ih =>
      refine wp_raiseIf (fun _ => ⟨h, fun hok => by cases hok⟩) fun _ => ?_
      have hwrite : wp ((regionWriter start size).write data) c fun r c' =>
          InRegion start size c' ∧ (r = .ok () → c' = c.put data) := by
        refine wp_gets (wp_raiseIf (fun _ => ⟨h, fun hok => by cases hok⟩) fun hroom => ?_)
        refine wp_modify_last ⟨inRegion_put h ?_, fun _ => rfl⟩
        have hlow := h.low
        simp only [id] at hroom
        omega
      refine wp_call hwrite ?_ fun _ _ herror => ⟨herror.1, fun hok => by cases hok⟩
      rintro _ c' ⟨hin, hput⟩
      obtain rfl := hput rfl
      refine wp_mono (ih hin (i + 1)) ?_
      rintro r c'' ⟨hin', hdone⟩
      refine ⟨hin', fun hok => ?_⟩
      obtain ⟨hedits, hposition⟩ := hdone hok
      rw [hedits, hposition]
      refine ⟨?_, ?_⟩
      · show (c.edits ++ [.put c.position data]) ++ putAll (c.position + data.length) rest = _
        rw [List.append_assoc]
        rfl
      · show c.position + data.length + rest.flatten.length = _
        rw [List.flatten_cons, List.length_append, Nat.add_assoc]

end Region

/-- A replica that answers without an error has sent the data. -/
def Faithful (network : Network) (request : ReadBlockRequest) (data : Bytes)
    (attempt : Nat) (addresses : List String) : Prop :=
  ∀ k a, addresses[k]? = some a → (network (attempt + k) a request).error = none →
    (network (attempt + k) a request).chunks.flatten = data

section Failover

variable {network : Network} {start size : Nat} {c : Cursor} {request : ReadBlockRequest}
  {data : Bytes}

/-- **FAILOVER IN A REGION**: the replicas that failed have left edits in the
    region, and the last edits are those of the one that has not. -/
theorem tryReplicas_region (stopped : Nat → Nat → Bool) {addresses : List String}
    {attempt : Nat} (hfaithful : Faithful network request data attempt addresses)
    (last : Option RpcError) (h : InRegion start size c) (hstart : c.position = start) :
    wp (tryReplicas network (regionWriter start size) stopped 0 request addresses attempt last)
      c fun r c' => InRegion start size c' ∧
        ∀ n, r = .ok n → ∃ before chunks, c'.edits = before ++ putAll start chunks ∧
          chunks.flatten = data ∧ n = data.length := by
  induction addresses generalizing attempt last c with
  | nil => exact ⟨h, fun n hn => by cases hn⟩
  | cons address rest ih =>
      have hhere := hfaithful 0 address rfl
      rw [Nat.add_zero] at hhere
      refine wp_call (writeChunks_region h (stopped attempt) _ 0) ?_
        fun _ _ herror => ⟨herror.1, fun n hn => by cases hn⟩
      rintro _ c' ⟨hin, hdone⟩
      obtain ⟨hedits, hposition⟩ := hdone rfl
      cases herror : (network attempt address request).error with
      | none =>
          refine wp_gets (wp_ret ⟨hin, ?_⟩)
          intro n hn
          have hdata := hhere herror
          refine ⟨c.edits, _, by rw [hedits, hstart], hdata, ?_⟩
          rw [← Except.ok.inj hn]
          show c'.position - start - 0 = data.length
          rw [hposition, hstart, hdata]
          omega
      | some e =>
          refine wp_modify ?_
          have hback : InRegion start size { c' with position := start + 0 } :=
            ⟨Nat.le_refl _, Nat.le_add_right _ _, hin.edits⟩
          by_cases hrecoverable : isRecoverableReadError e = true
          · rw [if_pos hrecoverable]
            refine ih ?_ (some e) hback rfl
            intro k a hk
            rw [Nat.add_right_comm]
            exact hfaithful (k + 1) a hk
          · rw [if_neg hrecoverable]
            exact ⟨hback, fun n hn => by cases hn⟩

/-- Pieces one after the other, as the region sees them. -/
theorem map_moved_putAll (start p : Nat) (pieces : List Bytes) :
    (putAll (start + p) pieces).map (moved start) = putAll p pieces := by
  induction pieces generalizing p with
  | nil => rfl
  | cons data rest ih =>
      rw [putAll, List.map_cons, Nat.add_assoc, ih, moved, Nat.add_sub_cancel_left]
      rfl

theorem inside_moved {e : Edit UInt8} (h : Inside start size e) :
    Inside 0 size (moved start e) := by
  cases e with
  | cut p => exact h
  | put p data =>
      obtain ⟨hlow, hhigh⟩ := h
      constructor
      · exact Nat.zero_le _
      · show p - start + data.length ≤ 0 + size
        omega

theorem length_applyAll_region {edits : List (Edit UInt8)}
    (h : ∀ e ∈ edits, Inside 0 size e) {region : Bytes} (hregion : region.length = size) :
    (applyAll edits region).length = size := by
  induction edits generalizing region with
  | nil => exact hregion
  | cons e rest ih =>
      refine ih (fun e' he' => h e' (List.mem_cons_of_mem _ he')) ?_
      rw [length_apply (h e List.mem_cons_self) (by omega), hregion]

/-- **A BLOCK THAT IS FETCHED FILLS ITS REGION**: what a thread has written is
    the data of the block, whatever was in the region. -/
theorem fetchBlock_spec {block : BlockLocation} (start : Nat) (stopped : Nat → Nat → Bool)
    (hfaithful : Faithful network ⟨block.blockId, 0, 0⟩ data 0 block.datanodeAddresses) :
    wp (fetchBlock network block start stopped) ⟨start, []⟩ fun r c' =>
      (∀ e ∈ c'.edits, Inside start block.sizeBytes.toNat e) ∧
      ∀ n, r = .ok n → n = data.length ∧ block.sizeBytes = data.length ∧
        ∀ region : Bytes, region.length = data.length →
          applyAll (c'.edits.map (moved start)) region = data := by
  have hempty : InRegion start block.sizeBytes.toNat ⟨start, []⟩ :=
    ⟨Nat.le_refl _, Nat.le_add_right _ _, fun e he => absurd he List.not_mem_nil⟩
  have hread : wp (readBlockWithFailover network (regionWriter start block.sizeBytes.toNat)
      stopped block 0 0) ⟨start, []⟩ fun r c' =>
        InRegion start block.sizeBytes.toNat c' ∧
        ∀ n, r = .ok n → ∃ before chunks, c'.edits = before ++ putAll start chunks ∧
          chunks.flatten = data ∧ n = data.length := by
    refine wp_gets ?_
    have htell : (regionWriter start block.sizeBytes.toNat).tell ⟨start, []⟩ = 0 :=
      Nat.sub_self start
    rw [htell]
    exact tryReplicas_region stopped hfaithful none hempty rfl
  refine wp_call hread ?_ fun _ _ herror => ⟨herror.1.edits, fun n hn => by cases hn⟩
  rintro n c' ⟨hin, hdone⟩
  obtain ⟨before, chunks, hedits, hchunks, rfl⟩ := hdone n rfl
  refine wp_raiseIf (fun _ => ⟨hin.edits, fun m hm => by cases hm⟩) fun hsize => ?_
  have hsize := not_not.mp hsize
  refine wp_ret ⟨hin.edits, fun m hm => ⟨(Except.ok.inj hm).symm, hsize.symm, ?_⟩⟩
  intro region hregion
  have hbefore : ∀ e ∈ before.map (moved start), Inside 0 data.length e := by
    intro e he
    obtain ⟨e₀, he₀, rfl⟩ := List.mem_map.mp he
    have hinside := inside_moved (hin.edits e₀ (hedits ▸ List.mem_append_left _ he₀))
    rwa [← hsize, Int.toNat_natCast] at hinside
  have hlength := length_applyAll_region hbefore hregion
  have hputs := map_moved_putAll start 0 chunks
  rw [Nat.add_zero] at hputs
  rw [hedits, List.map_append, hputs, applyAll_append, applyAll_putAll chunks (Nat.zero_le _),
    hchunks]
  exact put_whole hlength.symm

end Failover

/-! ## All blocks -/

section Blocks

variable {networks : Nat → Network} {parallelTransfers : Nat}
  {blocks : List (BlockLocation × Bytes)} {results : List Nat}
  {changes : List (Nat × Edit UInt8)}

/-- Every replica of every block that answers without an error sends the data
    of its block. -/
def AllFaithful (networks : Nat → Network) (blocks : List (BlockLocation × Bytes)) : Prop :=
  ∀ i block data, blocks[i]? = some (block, data) →
    Faithful (networks i) ⟨block.blockId, 0, 0⟩ data 0 block.datanodeAddresses

/-- What the thread of one block has done when all have returned. -/
theorem fetched_of_returns (hfaithful : AllFaithful networks blocks)
    (h : Returns (fetching networks parallelTransfers (blocks.map Prod.fst)) changes results)
    {i : Nat} {block : BlockLocation} {data : Bytes} (hi : blocks[i]? = some (block, data)) :
    ∃ start, (blockStarts 0 (blocks.map Prod.fst))[i]? = some start ∧
      results[i]? = some data.length ∧ block.sizeBytes = data.length ∧
      (∀ e ∈ own i changes, Inside start.toNat data.length e) ∧
      ∀ region : Bytes, region.length = data.length →
        applyAll ((own i changes).map (moved start.toNat)) region = data := by
  have hlength : i < results.length := by
    have hcount : results.length = (blocks.map Prod.fst).length := h.length
    rw [hcount, List.length_map]
    exact (List.getElem?_eq_some_iff.mp hi).1
  obtain ⟨r, hr⟩ : ∃ r, results[i]? = some r := ⟨_, List.getElem?_eq_getElem hlength⟩
  obtain ⟨block', start, stopped, c, hblock, hstart, hfetch, hedits⟩ := h.did hr
  rw [List.getElem?_map, hi] at hblock
  obtain rfl := Option.some.inj hblock
  have hspec := fetchBlock_spec start.toNat stopped (hfaithful i block data hi)
  unfold wp at hspec
  rw [hfetch] at hspec
  obtain ⟨hinside, hdone⟩ := hspec
  obtain ⟨rfl, hsize, hregion⟩ := hdone r rfl
  rw [hedits] at hinside hregion
  rw [hsize, Int.toNat_natCast] at hinside
  exact ⟨start, hstart, hr, hsize, hinside, hregion⟩

/-- Where the regions begin. -/
theorem blockStarts_eq (hsizes : ∀ b ∈ blocks, b.1.sizeBytes = b.2.length) (p : Nat) :
    blockStarts p (blocks.map Prod.fst)
      = (starts p (blocks.map fun b => b.2.length)).map Nat.cast := by
  induction blocks generalizing p with
  | nil => rfl
  | cons b rest ih =>
      have hrest := ih (fun b' hb' => hsizes b' (List.mem_cons_of_mem _ hb')) (p + b.2.length)
      rw [List.map_cons, blockStarts, hsizes b List.mem_cons_self, List.map_cons, starts,
        List.map_cons, ← hrest, Int.natCast_add]

theorem totalSize_eq (hsizes : ∀ b ∈ blocks, b.1.sizeBytes = b.2.length) :
    (totalSize (blocks.map Prod.fst)).toNat = (blocks.map fun b => b.2.length).sum := by
  suffices h : totalSize (blocks.map Prod.fst)
      = (((blocks.map fun b => b.2.length).sum : Nat) : Int) by
    rw [h, Int.toNat_natCast]
  unfold totalSize
  induction blocks with
  | nil => rfl
  | cons b rest ih =>
      rw [List.map_cons, List.map_cons, List.sum_cons,
        ih fun b' hb' => hsizes b' (List.mem_cons_of_mem _ hb'),
        hsizes b List.mem_cons_self, List.map_cons, List.sum_cons, Int.natCast_add]

theorem startOf_eq (blocks : List (BlockLocation × Bytes)) (i : Nat) :
    startOf (blocks.map Prod.snd) i = ((blocks.map fun b => b.2.length).take i).sum := by
  rw [startOf, ← List.map_take, ← List.map_take, List.map_map]
  rfl

/-- The sizes of all blocks, added up. -/
theorem sum_eq_length (hlength : results.length = blocks.length)
    (hresults : ∀ (i : Nat) (block : BlockLocation) (data : Bytes),
      blocks[i]? = some (block, data) → results[i]? = some data.length) :
    results.sum = (contentOf blocks).length := by
  have hmap : results = blocks.map fun b => b.2.length := by
    refine List.ext_getElem? fun i => ?_
    rw [List.getElem?_map]
    cases hi : blocks[i]? with
    | some b => exact hresults i b.1 b.2 hi
    | none =>
        rw [List.getElem?_eq_none_iff] at hi
        exact List.getElem?_eq_none_iff.mpr (hlength.trans_le hi)
  rw [hmap, contentOf, List.length_flatten, List.map_map]
  rfl

/-- The download returns the size of the file. -/
theorem transferred_length (hfaithful : AllFaithful networks blocks) {content : Bytes}
    (h : Transferred networks parallelTransfers (blocks.map Prod.fst) (.ok results) content) :
    results.sum = (contentOf blocks).length := by
  obtain ⟨changes, hreturns, _⟩ := h
  have hlength : results.length = (blocks.map Prod.fst).length := hreturns.length
  rw [List.length_map] at hlength
  refine sum_eq_length hlength fun i block data hi => ?_
  obtain ⟨_, _, hresult, _⟩ := fetched_of_returns hfaithful hreturns hi
  exact hresult

/-- **A DOWNLOAD THAT RETURNS HAS ALL BYTES**: if the threads have all returned,
    in whatever order they have written, the file is the blocks one after the
    other. -/
theorem transferred_content (hfaithful : AllFaithful networks blocks) {content : Bytes}
    (h : Transferred networks parallelTransfers (blocks.map Prod.fst) (.ok results) content) :
    content = contentOf blocks := by
  obtain ⟨changes, hreturns, rfl⟩ := h
  have hsizes : ∀ b ∈ blocks, b.1.sizeBytes = b.2.length := by
    intro b hb
    obtain ⟨i, hi⟩ := List.getElem?_of_mem hb
    obtain ⟨_, _, _, hsize, _⟩ := fetched_of_returns hfaithful hreturns hi
    exact hsize
  refine applyAll_regions ?_ ?_ ?_
  · rw [zeros, List.length_replicate, totalSize_eq hsizes, List.map_map]
    rfl
  · intro x hx
    have hlt : x.1 < (blocks.map Prod.fst).length := hreturns.only x hx
    rwa [List.length_map] at hlt ⊢
  · intro i piece hpiece
    rw [List.getElem?_map] at hpiece
    obtain ⟨⟨block, data⟩, hi, rfl⟩ := Option.map_eq_some_iff.mp hpiece
    obtain ⟨start, hstart, _, _, hinside, hregion⟩ := fetched_of_returns hfaithful hreturns hi
    have hlt : i < (blocks.map fun b => b.2.length).length := by
      rw [List.length_map]
      exact (List.getElem?_eq_some_iff.mp hi).1
    have hstarts := blockStarts_eq hsizes 0
    rw [Nat.cast_zero] at hstarts
    rw [hstarts, List.getElem?_map, getElem?_starts 0 hlt, Nat.zero_add, ← startOf_eq] at hstart
    obtain rfl := Option.some.inj hstart
    rw [Int.toNat_natCast] at hinside hregion
    exact ⟨hinside, hregion⟩

end Blocks

/-! ## The local file -/

section Local

variable {calls : ControlCalls} {os : LocalCalls}
  {transferred : List BlockLocation → Except ClientError (List Nat) × Bytes}
  {localPath uuid : String} {files : LocalFiles}

/-- The temporary file is another file. -/
theorem ne_tmpPathOf (localPath uuid : String) : localPath ≠ tmpPathOf localPath uuid := by
  intro heq
  have hlength := congrArg String.length heq
  rw [tmpPathOf, String.length_append, String.length_append] at hlength
  have hpart : ".part-".length = 6 := rfl
  omega

theorem wp_deletingOnError {α : Type} {tmpPath : String} {x : Action LocalFiles Raised α}
    {P Q : Except Raised α → LocalFiles → Prop} (h : wp x files P)
    (hok : ∀ a files', P (.ok a) files' → Q (.ok a) files')
    (herror : ∀ e e' files', P (.error e) files' →
      Q (.error e') (Function.update files' tmpPath none)) :
    wp (deletingOnError tmpPath x) files Q := by
  unfold wp at h
  show Q (deletingOnError tmpPath x files).1 (deletingOnError tmpPath x files).2
  unfold deletingOnError
  generalize x files = ended at h ⊢
  obtain ⟨r, files'⟩ := ended
  cases r with
  | ok a => exact hok a files' h
  | error e =>
      cases e with
      | os message => exact herror _ _ files' h
      | client e =>
          cases e with
          | rpc e => exact herror _ _ files' h
          | domain cls message => exact herror _ _ files' h
          | cancelled => exact herror _ _ files' h

/-- **WHAT A DOWNLOAD DOES TO THE LOCAL FILE**: it stays as it was if the
    download raises, and has what the transfer has written if it returns. -/
theorem download_spec (calls : ControlCalls) (os : LocalCalls)
    (transferred : List BlockLocation → Except ClientError (List Nat) × Bytes)
    (localPath uuid : String) (files : LocalFiles) :
    wp (download calls os transferred localPath uuid) files fun r files' =>
      (∀ e, r = .error e → files' localPath = files localPath) ∧
      ∀ n, r = .ok n → ∃ blocks sizes, calls.listBlocks = .ok blocks ∧
        (transferred blocks).1 = .ok sizes ∧ n = sizes.sum ∧
        files' localPath = some (transferred blocks).2 := by
  have hne := ne_tmpPathOf localPath uuid
  refine wp_ofExcept (fun e => ⟨fun _ _ => rfl, fun n hn => by cases hn⟩) fun _ _ => ?_
  refine wp_deletingOnError (P := fun r files' =>
    (∀ e, r = .error e → files' localPath = files localPath) ∧
    ∀ n, r = .ok n → ∃ blocks sizes, calls.listBlocks = .ok blocks ∧
      (transferred blocks).1 = .ok sizes ∧ n = sizes.sum ∧
      files' localPath = some (transferred blocks).2) ?_ (fun _ _ h => h) ?_
  · refine wp_ofExcept (fun e => ⟨fun _ _ => rfl, fun n hn => by cases hn⟩) fun blocks hlist => ?_
    refine wp_ofExcept (fun e => ⟨fun _ _ => rfl, fun n hn => by cases hn⟩) fun _ _ => ?_
    refine wp_modify (wp_modify ?_)
    refine wp_ofExcept (fun e => ⟨fun _ _ => ?_, fun n hn => by cases hn⟩) fun sizes hsizes => ?_
    · rw [Function.update_of_ne hne, Function.update_of_ne hne]
    refine wp_ofExcept (fun e => ⟨fun _ _ => ?_, fun n hn => by cases hn⟩) fun _ _ => ?_
    · rw [Function.update_of_ne hne, Function.update_of_ne hne]
    refine wp_modify (wp_ret ⟨fun e he => (by cases he), fun n hn => ?_⟩)
    refine ⟨blocks, sizes, mapError_eq_ok hlist, mapError_eq_ok hsizes,
      (Except.ok.inj hn).symm, ?_⟩
    rw [Function.update_of_ne hne, Function.update_self, Function.update_self]
  · rintro e e' files' ⟨hkept, _⟩
    refine ⟨fun _ _ => ?_, fun n hn => by cases hn⟩
    rw [Function.update_of_ne hne]
    exact hkept e rfl

end Local

end DfshaDownload
