import Dfsha.DownloadProofs
import Dfsha.PendingUploadProofs
import Dfsha.UploadSessionProofs
import Dfsha.WriteBlockProofs

/-! # Uploading a file

    An upload asks for block ids and replicas, as many as the size needs, sends
    each block to the first of its replicas, confirms it with the checksum that
    the replica answered, and at the end asks for the file to be published.
    Several threads do it, each block in one thread, in any order.

    A thread changes two things that all share: what has been written to a
    block, and the control tree.  The world is both; in between, other clients
    change the tree as well.  At the end every confirmed block has the size of
    its part of the file, and that part is what has been written to it. -/

namespace DfshaUpload

open RaisingAction FileRegions ParallelJobs Stretch TransitionSystem TransitionSystem.System
open DfshaPath DfshaControlTree DfshaMetadata DfshaControlTreeEffect DfshaWriteReservation
open DfshaPendingUpload DfshaUploadSession DfshaBlockLayout DfshaBlockFailover DfshaRangeRead
open DfshaDownload DfshaWriteBlock
open DfshaBlockStore (Bytes)

/-! ## The ControlNode -/

/-- The answer of `BeginUpload`.  `forClient` are the addresses as the client
    has to dial them. -/
def locations (forClient : List String → List String) (blockSize : Int) :
    Int → List (String × List String) → List BlockLocation
  | _, [] => []
  | remaining, (blockId, addresses) :: rest =>
      let thisBlockSize := min blockSize remaining
      ⟨blockId, forClient addresses, thisBlockSize⟩ ::
        locations forClient blockSize (remaining - thisBlockSize) rest

/-! ## The world -/

/-- The control tree, and what the DataNodes have been given for each block. -/
structure World where
  tree : ControlTree
  written : String → Option Bytes

/-- What a thread does to the world: the replicas of a block have stored it, or
    a mutation has been executed, with this outcome. -/
inductive Change where
  | stored (blockId : String) (data : Bytes)
  | executed (μ : Mutation) (r : Except PyError Ret)

def Change.Seen (w : World) : Change → Prop
  | .stored _ _ => True
  | .executed μ r => (exec μ w.tree).1 = r

def World.after (w : World) : Change → World
  | .stored blockId data => { w with written := Function.update w.written blockId (some data) }
  | .executed μ _ => { w with tree := (exec μ w.tree).2 }

/-- Who does something: the client itself, its thread `i`, or somebody else. -/
inductive Event where
  | main (e : Change)
  | thread (i : Nat) (e : Change)
  | others (μ : Mutation)

inductive Step (w : World) : Event → World → Prop
  | main {e : Change} (hseen : e.Seen w) : Step w (.main e) (w.after e)
  | thread {i : Nat} {e : Change} (hseen : e.Seen w) : Step w (.thread i e) (w.after e)
  | others (μ : Mutation) : Step w (.others μ) { w with tree := (exec μ w.tree).2 }

def world : System World Event where
  init := fun w => w.tree = ControlTree.empty ∧ ∀ b, w.written b = none
  step := Step

/-! ## The client -/

/-- `CHUNK_SIZE_BYTES`. -/
def chunkSizeBytes : Nat := 1024 * 1024

/-- `chunks` of `_write_block`, and whether another transfer has failed in the
    meantime.  There are no more chunks than bytes, so `fuel` is `remaining`. -/
def chunks (content : Bytes) (stopped : Nat → Bool) :
    Nat → Nat → Nat → Nat → List Bytes × Bool
  | 0, _, _, _ => ([], false)
  | fuel + 1, i, position, remaining =>
      if 0 < remaining then
        if stopped i then ([], true)
        else
          let data := stretch content position (position + min chunkSizeBytes remaining)
          if data = [] then ([], false)
          else
            let (rest, cut) := chunks content stopped fuel (i + 1) (position + data.length)
              (remaining - data.length)
            (data :: rest, cut)
      else ([], false)

/-- How a call to the ControlNode ends: with an answer, or without, whether the
    mutation has been executed or not. -/
inductive CallEnd where
  | answered (ret : Ret)
  | refused (e : PyError) (raised : ClientError)
  | unanswered (executed : Option (Except PyError Ret)) (raised : ClientError)

abbrev Sending (α : Type) : Type := Action (List Change) ClientError α

/-- `_call`, of a request that executes a mutation. -/
def call (ends : CallEnd) (μ : Mutation) : Sending Ret :=
  match ends with
  | .answered ret => do
      modify fun changes => changes ++ [.executed μ (.ok ret)]
      pure ret
  | .refused e raised => do
      modify fun changes => changes ++ [.executed μ (.error e)]
      raise raised
  | .unanswered executed raised => do
      modify fun changes => changes ++ (executed.map (Change.executed μ)).toList
      raise raised

/-- What happens around a thread. -/
structure Surroundings where
  stopped : Nat → Bool
  writeError : Option RpcError
  stoppedAfter : Bool
  confirm : CallEnd
  now : Time
  leaseS : Time

/-- An upload: the path, who asks for it, how many threads it may use, the size
    of the blocks and the checksum. -/
structure Options where
  path : String
  caller : Option Caller
  parallelTransfers : Nat
  blockSize : Nat
  blockSize_pos : 0 < blockSize
  digest : Bytes → String
  forClient : List String → List String

/-- When the stream is cut its call fails. -/
def streamCut : RpcError := ⟨.unknown, "Exception iterating requests!", []⟩

section Client

variable (o : Options) (content : Bytes)

/-- `_write_block`: a replica that answers has stored what it was sent. -/
def writeBlock (around : Surroundings) (block : BlockLocation) (start : Nat) :
    Sending Response := do
  let remaining := block.sizeBytes.toNat
  let (pieces, cut) := chunks content around.stopped remaining 0 start remaining
  raiseIf (cut = true) (.rpc streamCut)
  ofExcept (around.writeError.elim (.ok ()) fun e => .error (.rpc e))
  modify fun changes => changes ++ [.stored block.blockId pieces.flatten]
  pure ⟨o.digest pieces.flatten, pieces.flatten.length⟩

/-- `send_block`. -/
def sendBlock (around : Surroundings) (block : BlockLocation) (start : Nat) :
    Sending Nat := do
  let response ← writeBlock o content around block start
  raiseIf (around.stoppedAfter = true) .cancelled
  let _ ← call around.confirm (.confirmBlock o.path block.blockId response.checksum
    response.bytesWritten (some around.now) (some around.leaseS) o.caller)
  pure response.bytesWritten

/-- What a thread may do with the item `i`. -/
def Sends (blocks : List BlockLocation) (i : Nat) (changes : List Change)
    (result : Except ClientError Nat) : Prop :=
  ∃ block start around, blocks[i]? = some block ∧ (blockStarts 0 blocks)[i]? = some start ∧
    sendBlock o content around block start.toNat [] = (result, changes)

/-- `_in_parallel(send_block, …)`. -/
def sending (blocks : List BlockLocation) : Plan Change ClientError Nat where
  count := blocks.length
  threads := o.parallelTransfers
  mayDo := Sends o content blocks
  skipped := .cancelled

/-- A call of the client itself. -/
def Calls (μ : Mutation) (w : World) (r : Except ClientError Ret) (w' : World) : Prop :=
  ∃ ends changes, call ends μ [] = (r, changes) ∧ world.Path w (changes.map .main) w'

/-- What the threads have done, each change with its thread. -/
def ofThreads (events : List Event) : List (Nat × Change) :=
  events.filterMap fun
    | .thread i e => some (i, e)
    | _ => none

/-- While the threads run, nothing else is done by the client itself. -/
def Transfers (w : World) (events : List Event) (changes : List (Nat × Change))
    (w' : World) : Prop :=
  world.Path w events w' ∧ ofThreads events = changes ∧ ∀ e, .main e ∉ events

def sentTo (placements : List (String × List String)) : List BlockLocation :=
  locations o.forClient o.blockSize content.length placements

/-- What `BeginUpload` commits for the size of the file, with new block ids,
    each with replicas. -/
structure Proposed (placements : List (String × List String)) (now leaseS : Time)
    (μ : Mutation) : Prop where
  commit : mutationOf o.blockSize
    (.beginUpload o.path content.length placements now leaseS o.caller) = some μ
  nodup : (placements.map Prod.fst).Nodup
  replicas : ∀ placement ∈ placements, placement.2 ≠ []

/-- `except grpc.RpcError`. -/
def raisedAs : ClientError → ClientError
  | .rpc e => translate e
  | e => e

/-- `upload` of a file with these contents: how the world is when it returns or
    raises.  `events` is what happened while the blocks were sent. -/
inductive Upload : World → List Event → Except ClientError Nat → World → Prop
  /-- the file is empty, too few DataNodes are alive, the call is not accepted -/
  | refused {w : World} (e : ClientError) : Upload w [] (.error e) w
  | notBegun {w w' : World} {placements : List (String × List String)}
      {now leaseS : Time} {μ : Mutation} {e : ClientError}
      (hproposed : Proposed o content placements now leaseS μ)
      (hbegin : Calls μ w (.error e) w') :
      Upload w [] (.error e) w'
  | failed {w w₁ w₂ w' : World} {events : List Event} {changes : List (Nat × Change)}
      {placements stored : List (String × List String)} {stale : List BlockRecord}
      {now leaseS : Time} {μ : Mutation} {e : ClientError} {aborted : Except ClientError Ret}
      (hproposed : Proposed o content placements now leaseS μ)
      (hbegin : Calls μ w (.ok (.uploadBegun stored stale)) w₁)
      (hsend : Raises (sending o content (sentTo o content stored)) changes e)
      (hduring : Transfers w₁ events changes w₂)
      (habort : Calls (.abortUpload o.path o.caller) w₂ aborted w') :
      Upload w events (.error (raisedAs e)) w'
  | notCompleted {w w₁ w₂ w' : World} {events : List Event}
      {changes : List (Nat × Change)} {placements stored : List (String × List String)}
      {stale : List BlockRecord} {now leaseS : Time} {μ : Mutation} {results : List Nat}
      {e : ClientError} (hproposed : Proposed o content placements now leaseS μ)
      (hbegin : Calls μ w (.ok (.uploadBegun stored stale)) w₁)
      (hsend : Returns (sending o content (sentTo o content stored)) changes results)
      (hduring : Transfers w₁ events changes w₂)
      (hcomplete : Calls (.completeUpload o.path o.caller) w₂ (.error e) w') :
      Upload w events (.error e) w'
  | returned {w w₁ w₂ w' : World} {events : List Event} {changes : List (Nat × Change)}
      {placements stored : List (String × List String)} {stale : List BlockRecord}
      {now leaseS : Time} {μ : Mutation} {results : List Nat} {ret : Ret}
      (hproposed : Proposed o content placements now leaseS μ)
      (hbegin : Calls μ w (.ok (.uploadBegun stored stale)) w₁)
      (hsend : Returns (sending o content (sentTo o content stored)) changes results)
      (hduring : Transfers w₁ events changes w₂)
      (hcomplete : Calls (.completeUpload o.path o.caller) w₂ (.ok ret) w') :
      Upload w events (.ok results.sum) w'

end Client

/-! ## What is sent -/

section Sent

variable {α : Type}

/-- What is read ends where the file ends. -/
theorem stretch_length (xs : List α) (a n : Nat) :
    stretch xs a (a + (stretch xs a (a + n)).length) = stretch xs a (a + n) := by
  rw [stretch_eq, stretch_eq, List.take_eq_take_iff, List.length_take]
  omega

theorem length_stretch_le (xs : List α) (a n : Nat) :
    (stretch xs a (a + n)).length ≤ n := by
  rw [stretch_eq, List.length_take]
  omega

theorem stretch_of_nothing {xs : List α} {a n : Nat} (hn : 0 < n)
    (h : stretch xs a (a + n) = []) (m : Nat) : stretch xs a (a + m) = [] := by
  have hlength := congrArg List.length h
  rw [stretch_eq, List.length_take, List.length_drop, List.length_nil] at hlength
  rw [stretch_eq, List.drop_eq_nil_of_le (by omega), List.take_nil]

/-- **THE CHUNKS OF A BLOCK** are its part of the file, if they are not cut. -/
theorem flatten_chunks {content : Bytes} {stopped : Nat → Bool} {fuel i position remaining : Nat}
    {pieces : List Bytes} (hfuel : remaining ≤ fuel)
    (h : chunks content stopped fuel i position remaining = (pieces, false)) :
    pieces.flatten = stretch content position (position + remaining) := by
  induction fuel generalizing i position remaining pieces with
  | zero =>
      obtain rfl := Nat.le_zero.mp hfuel
      obtain ⟨rfl, _⟩ := Prod.mk.inj h
      exact (stretch_self content position).symm
  | succ fuel ih =>
      rw [chunks] at h
      by_cases hremaining : 0 < remaining
      · rw [if_pos hremaining] at h
        cases hstopped : stopped i with
        | true =>
            rw [hstopped, if_pos rfl] at h
            cases h
        | false =>
            rw [hstopped, if_neg Bool.false_ne_true] at h
            dsimp only at h
            have hwhole := stretch_length content position (min chunkSizeBytes remaining)
            have hle := length_stretch_le content position (min chunkSizeBytes remaining)
            have hnothing := @stretch_of_nothing _ content position
              (min chunkSizeBytes remaining) (by rw [chunkSizeBytes]; omega)
            generalize stretch content position (position + min chunkSizeBytes remaining)
              = data at h hwhole hle hnothing
            by_cases hdata : data = []
            · rw [if_pos hdata] at h
              obtain ⟨rfl, _⟩ := Prod.mk.inj h
              exact (hnothing hdata remaining).symm
            · rw [if_neg hdata] at h
              have hpos := List.length_pos_of_ne_nil hdata
              generalize hrest : chunks content stopped fuel (i + 1) (position + data.length)
                (remaining - data.length) = sent at h
              obtain ⟨rest, cut⟩ := sent
              obtain ⟨rfl, rfl⟩ := Prod.mk.inj h
              have hless : remaining - data.length ≤ fuel := by omega
              have hend : position + data.length + (remaining - data.length)
                  = position + remaining := by omega
              have hjoin := stretch_append content (Nat.le_add_right position data.length)
                (show position + data.length ≤ position + remaining by omega)
              rwa [hwhole, ← hend, ← ih hless hrest, hend] at hjoin
      · rw [if_neg hremaining] at h
        obtain ⟨rfl, _⟩ := Prod.mk.inj h
        obtain rfl := Nat.eq_zero_of_not_pos hremaining
        exact (stretch_self content position).symm

end Sent

section Thread

variable {o : Options} {content : Bytes}

theorem wp_call_answered {ends : CallEnd} {μ : Mutation} {changes : List Change} :
    wp (call ends μ) changes fun r changes' =>
      ∀ ret, r = .ok ret → changes' = changes ++ [.executed μ (.ok ret)] := by
  cases ends with
  | answered ret => exact wp_modify (wp_ret fun ret' h => by rw [Except.ok.inj h])
  | refused e raised => exact wp_modify fun ret h => by cases h
  | unanswered executed raised => exact wp_modify fun ret h => by cases h

/-- **WHAT A THREAD HAS DONE** when it returns: the replicas have its part of
    the file, and the block is confirmed with the size and checksum of that
    part. -/
theorem sendBlock_spec (around : Surroundings) (block : BlockLocation) (start : Nat) :
    wp (sendBlock o content around block start) [] fun r changes => ∀ n, r = .ok n →
      ∃ data ret, data = stretch content start (start + block.sizeBytes.toNat) ∧
        n = data.length ∧ changes = [.stored block.blockId data,
          .executed (.confirmBlock o.path block.blockId (o.digest data) data.length
            (some around.now) (some around.leaseS) o.caller) (.ok ret)] := by
  have hwrite : wp (writeBlock o content around block start) [] fun r changes =>
      ∀ response, r = .ok response →
        ∃ data, data = stretch content start (start + block.sizeBytes.toNat) ∧
          response = ⟨o.digest data, data.length⟩ ∧
          changes = [.stored block.blockId data] := by
    unfold writeBlock
    generalize hsent : chunks content around.stopped block.sizeBytes.toNat 0 start
      block.sizeBytes.toNat = sent
    obtain ⟨pieces, cut⟩ := sent
    dsimp only
    rw [hsent]
    refine wp_raiseIf (fun _ _ h => by cases h) fun hcut => ?_
    refine wp_ofExcept (fun _ _ h => by cases h) fun _ _ => ?_
    refine wp_modify (wp_ret fun response h => ?_)
    obtain rfl : cut = false := Bool.eq_false_iff.mpr hcut
    exact ⟨_, flatten_chunks (Nat.le_refl _) hsent, (Except.ok.inj h).symm, rfl⟩
  refine wp_call hwrite ?_ fun _ _ _ n h => by cases h
  intro response changes hresponse
  obtain ⟨data, hdata, rfl, rfl⟩ := hresponse response rfl
  refine wp_raiseIf (fun _ n h => by cases h) fun _ => ?_
  refine wp_call wp_call_answered ?_ fun _ _ _ n h => by cases h
  intro ret changes hchanges
  refine wp_ret fun n h => ⟨data, ret, hdata, (Except.ok.inj h).symm, hchanges ret rfl⟩

end Thread

/-! ## The parts of the file -/

/-- The blocks from `start` on, each with its part of the file. -/
def parted (content : Bytes) : Nat → List BlockLocation → List (BlockLocation × Bytes)
  | _, [] => []
  | start, block :: rest =>
      let stop := start + block.sizeBytes.toNat
      (block, stretch content start stop) :: parted content stop rest

section Parts

variable {content : Bytes} {blocks : List BlockLocation}

theorem map_fst_parted (content : Bytes) (start : Nat) (blocks : List BlockLocation) :
    (parted content start blocks).map Prod.fst = blocks := by
  induction blocks generalizing start with
  | nil => rfl
  | cons block rest ih => exact congrArg (block :: ·) (ih _)

theorem getElem?_parted {start i : Nat} {s : Int} {block : BlockLocation}
    (hsizes : ∀ b ∈ blocks, 0 ≤ b.sizeBytes) (hblock : blocks[i]? = some block)
    (hs : (blockStarts start blocks)[i]? = some s) :
    (parted content start blocks)[i]?
      = some (block, stretch content s.toNat (s.toNat + block.sizeBytes.toNat)) := by
  induction blocks generalizing start i with
  | nil => cases hblock
  | cons first rest ih =>
      cases i with
      | zero =>
          obtain rfl := Option.some.inj hblock
          obtain rfl := Option.some.inj hs
          rfl
      | succ i =>
          have hfirst := hsizes first List.mem_cons_self
          rw [blockStarts, List.getElem?_cons_succ] at hs
          have hnext : (start : Int) + first.sizeBytes
              = ((start + first.sizeBytes.toNat : Nat) : Int) := by omega
          rw [hnext] at hs
          exact ih (fun b hb => hsizes b (List.mem_cons_of_mem _ hb)) hblock hs

theorem totalSize_nonneg (hsizes : ∀ b ∈ blocks, 0 ≤ b.sizeBytes) : 0 ≤ totalSize blocks :=
  List.sum_nonneg fun n hn => by
    obtain ⟨b, hb, rfl⟩ := List.mem_map.mp hn
    exact hsizes b hb

theorem totalSize_cons (block : BlockLocation) (rest : List BlockLocation) :
    totalSize (block :: rest) = block.sizeBytes + totalSize rest := by
  rw [totalSize, List.map_cons, List.sum_cons]
  rfl

/-- The parts one after the other. -/
theorem contentOf_parted {start : Nat} (hsizes : ∀ b ∈ blocks, 0 ≤ b.sizeBytes) :
    contentOf (parted content start blocks)
      = stretch content start (start + (totalSize blocks).toNat) := by
  induction blocks generalizing start with
  | nil => exact (stretch_self content start).symm
  | cons block rest ih =>
      have hblock := hsizes block List.mem_cons_self
      have hrest := fun b hb => hsizes b (List.mem_cons_of_mem block hb)
      have hnonneg := totalSize_nonneg hrest
      have hend : start + (block.sizeBytes + totalSize rest).toNat
          = start + block.sizeBytes.toNat + (totalSize rest).toNat := by omega
      rw [totalSize_cons, hend, ← stretch_append content (Nat.le_add_right start _)
        (Nat.le_add_right (start + block.sizeBytes.toNat) _), ← ih hrest]
      rfl

end Parts

section Locations

variable {forClient : List String → List String} {B remaining : Int}
  {placements : List (String × List String)}

/-- There are enough blocks for the file. -/
theorem le_numBlocks {n : Int} {count : Nat} (hB : 0 < B) (h : numBlocks n B = .ok count) :
    n ≤ count * B := by
  have hle := Int.ediv_mul_le (-n) (Int.ne_of_gt hB)
  rw [numBlocks, if_neg (Int.ne_of_gt hB), Int.fdiv_eq_ediv_of_nonneg _ hB.le] at h
  have hcount : -(-n / B) ≤ (count : Int) := by
    rw [← Except.ok.inj h]
    exact Int.self_le_toNat _
  have hmul := Int.mul_le_mul_of_nonneg_right hcount hB.le
  rw [Int.neg_mul] at hmul
  omega

/-- **THE SIZES OF THE BLOCKS** are those of the file, if there are enough. -/
theorem totalSize_locations (hB : 0 < B) (hremaining : 0 ≤ remaining)
    (henough : remaining ≤ placements.length * B) :
    (∀ b ∈ locations forClient B remaining placements, 0 ≤ b.sizeBytes) ∧
      totalSize (locations forClient B remaining placements) = remaining := by
  induction placements generalizing remaining with
  | nil =>
      refine ⟨fun b hb => absurd hb List.not_mem_nil, ?_⟩
      rw [List.length_nil, Nat.cast_zero, Int.zero_mul] at henough
      exact Int.le_antisymm hremaining henough
  | cons placement rest ih =>
      have hrest : remaining - min B remaining ≤ rest.length * B := by
        rw [List.length_cons, Nat.cast_add, Nat.cast_one, Int.add_mul, Int.one_mul] at henough
        have hnonneg := Int.mul_nonneg (Int.natCast_nonneg rest.length) hB.le
        omega
      obtain ⟨hsizes, hsum⟩ := ih (by omega) hrest
      refine ⟨fun b hb => ?_, ?_⟩
      · rcases List.mem_cons.mp hb with rfl | hb
        · show 0 ≤ min B remaining
          omega
        · exact hsizes b hb
      · show totalSize (⟨placement.1, forClient placement.2, min B remaining⟩ ::
          locations forClient B (remaining - min B remaining) rest) = remaining
        rw [totalSize_cons, hsum]
        show min B remaining + (remaining - min B remaining) = remaining
        omega

theorem map_blockId_locations (forClient : List String → List String) (B remaining : Int)
    (placements : List (String × List String)) :
    (locations forClient B remaining placements).map BlockLocation.blockId
      = placements.map Prod.fst := by
  induction placements generalizing remaining with
  | nil => rfl
  | cons placement rest ih => exact congrArg (placement.1 :: ·) (ih _)

end Locations

section Proposed

variable {o : Options} {content : Bytes} {placements : List (String × List String)}
  {now leaseS : Time} {μ : Mutation}

/-- There are enough blocks, and their sizes are those of the file. -/
theorem Proposed.sizes (h : Proposed o content placements now leaseS μ) :
    (∀ b ∈ sentTo o content placements, 0 ≤ b.sizeBytes) ∧
      totalSize (sentTo o content placements) = content.length := by
  have hblockSize : (0 : Int) < o.blockSize := Int.natCast_pos.mpr o.blockSize_pos
  obtain ⟨_, hcount, _⟩ := mutationOf_beginUpload h.commit
  exact totalSize_locations hblockSize (Int.natCast_nonneg content.length)
    (le_numBlocks hblockSize hcount)

theorem Proposed.contentOf (h : Proposed o content placements now leaseS μ) :
    contentOf (parted content 0 (sentTo o content placements)) = content := by
  obtain ⟨hsizes, htotal⟩ := h.sizes
  rw [contentOf_parted hsizes, htotal, Int.toNat_natCast, Nat.zero_add, stretch, List.take_length,
    List.drop_zero]

theorem map_blockId_parted (o : Options) (content : Bytes)
    (placements : List (String × List String)) :
    (parted content 0 (sentTo o content placements)).map (fun x => x.1.blockId)
      = placements.map Prod.fst := by
  have hmap := map_blockId_locations o.forClient o.blockSize content.length placements
  rw [← map_fst_parted content 0 (locations _ _ _ _), List.map_map] at hmap
  exact hmap

theorem Proposed.nodup_parted (h : Proposed o content placements now leaseS μ) :
    ((parted content 0 (sentTo o content placements)).map fun x => x.1.blockId).Nodup := by
  rw [map_blockId_parted]
  exact h.nodup

end Proposed

end DfshaUpload
