import Dfsha.ListingProofs
import Dfsha.UploadedFileProofs

/-! # A file goes up and comes down again

    What a download leaves is what an upload read.  The upload cuts the file at
    the sizes that the ControlNode chose, the download adds up the sizes that
    were confirmed, and both get the same parts; each part is written by one
    thread into a region that no other thread touches, and a replica that fails
    leaves nothing behind in it. -/

namespace DfshaFileTransfer

open FileEdits RaisingAction TransitionSystem TransitionSystem.System
open DfshaPath DfshaControlTree DfshaMetadata DfshaListing DfshaWriteReservation
open DfshaBlockStore DfshaContainer DfshaBlockRead DfshaRoundTrip DfshaBlockFailover
open DfshaRangeRead DfshaDownload DfshaUpload DfshaUploadedFile

/-! ## What the download is told -/

/-- A block in the answer of `ListBlocks`. -/
def blockInfo (forClient : List String → List String) (b : BlockRecord) : BlockLocation :=
  ⟨b.blockId, forClient b.datanodeAddresses, b.sizeBytes⟩

/-- A call of `ListBlocks` that is answered, is answered from this tree. -/
def AnswersFrom (s : ControlTree) (path : String) (caller : Option Caller)
    (forClient : List String → List String)
    (answer : Except ClientError (List BlockLocation)) : Prop :=
  ∀ blocks, answer = .ok blocks → ∃ records, (listBlocks path caller s).1 = .ok records ∧
    blocks = records.map (blockInfo forClient)

/-- A replica that is asked for a block sends what was written to it, or fails in
    a way that another one may not.  `networks i` is what the thread of the
    block `i` meets. -/
def ReplicasHold (crypto : Crypto) (key : Bytes) (written : String → Option Bytes)
    (networks : Nat → Network) (blocks : List BlockLocation) : Prop :=
  ∀ i block data, blocks[i]? = some block → written block.blockId = some data →
    ∀ k a, block.datanodeAddresses[k]? = some a →
      (Fits key block.blockId data ∧
        Serves crypto key data (networks i k a) ⟨block.blockId, 0, 0⟩) ∨
      FailsRecoverably (networks i k a) ⟨block.blockId, 0, 0⟩

section Transfer

variable {crypto : Crypto} {key : Bytes} {networks : Nat → Network}
  {written : String → Option Bytes} {digest : Bytes → String} {f : FileNode}
  {parts : List (BlockLocation × Bytes)} {forClient : List String → List String}

/-- The blocks of a published file, each with its part. -/
def withParts (forClient : List String → List String) (records : List BlockRecord)
    (parts : List (BlockLocation × Bytes)) : List (BlockLocation × Bytes) :=
  (records.map (blockInfo forClient)).zip (parts.map Prod.snd)

theorem length_of_published (h : Published digest parts f) : f.blocks.length = parts.length := by
  have hlength := congrArg List.length h.content
  rwa [content, List.length_map, List.length_map] at hlength

theorem map_fst_withParts (h : Published digest parts f) :
    (withParts forClient f.blocks parts).map Prod.fst = f.blocks.map (blockInfo forClient) := by
  refine List.map_fst_zip ?_
  rw [List.length_map, List.length_map, length_of_published h]

theorem contentOf_withParts (h : Published digest parts f) :
    contentOf (withParts forClient f.blocks parts) = contentOf parts := by
  rw [contentOf, withParts, List.map_snd_zip]
  · rfl
  · rw [List.length_map, List.length_map, length_of_published h]

/-- A block of the file is the one of its part. -/
theorem blockId_of_withParts (h : Published digest parts f) {i : Nat} {block : BlockLocation}
    {data : Bytes} (hi : (withParts forClient f.blocks parts)[i]? = some (block, data)) :
    ∃ x ∈ parts, block.blockId = x.1.blockId ∧ data = x.2 := by
  obtain ⟨hblock, hdata⟩ := List.getElem?_zip_eq_some.mp hi
  rw [List.getElem?_map] at hblock hdata
  obtain ⟨b, hb, rfl⟩ := Option.map_eq_some_iff.mp hblock
  obtain ⟨x, hx, rfl⟩ := Option.map_eq_some_iff.mp hdata
  refine ⟨x, List.mem_of_getElem? hx, ?_, rfl⟩
  have hcontent := congrArg (fun l => l[i]?) h.content
  simp only [content, List.getElem?_map, hb, hx, Option.map_some] at hcontent
  exact congrArg Prod.fst (Option.some.inj hcontent)

/-- **THE REPLICAS SEND WHAT WAS WRITTEN.** -/
theorem allFaithful_of_replicas (hcrypto : Lawful crypto) (h : Published digest parts f)
    (hwritten : ∀ x ∈ parts, written x.1.blockId = some x.2)
    (hreplicas : ReplicasHold crypto key written networks (f.blocks.map (blockInfo forClient))) :
    AllFaithful networks (withParts forClient f.blocks parts) := by
  intro i block data hi k a ha hok
  obtain ⟨x, hx, hid, rfl⟩ := blockId_of_withParts h hi
  have hblock : (f.blocks.map (blockInfo forClient))[i]? = some block := by
    rw [← map_fst_withParts h, List.getElem?_map, hi]
    rfl
  rw [Nat.zero_add] at hok ⊢
  rcases hreplicas i block x.2 hblock (hid ▸ hwritten x hx) k a ha with ⟨hfits, hserves⟩ | hfails
  · obtain ⟨_, hdata⟩ := served_by hcrypto hfits 0 0 hserves
    exact hdata
  · obtain ⟨e, he, _⟩ := hfails
    rw [hok] at he
    cases he

end Transfer

/-! ## The round trip -/

/-- An upload has returned, and since then others have left the file.  `written`
    is what its blocks were given, and `s` is the tree now. -/
structure WentUp (o : Options) (content : Bytes) (written : String → Option Bytes)
    (s : ControlTree) : Prop where
  returned : ∃ w w' events n μs, Upload o content w events (.ok n) w' ∧
    (∀ μ, .others μ ∈ events → LeavesFile o.path μ) ∧
    controlTree.Path w'.tree μs s ∧ (∀ μ ∈ μs, LeavesFile o.path μ) ∧ w'.written = written

/-- What a download meets: the ControlNode answers from its tree, the replicas
    hold what was written, and the threads do what they may do. -/
structure ComesDown (s : ControlTree) (path : String) (caller : Option Caller)
    (forClient : List String → List String) (crypto : Crypto) (key : Bytes)
    (written : String → Option Bytes) (networks : Nat → Network) (parallelTransfers : Nat)
    (calls : ControlCalls)
    (transferred : List BlockLocation → Except ClientError (List Nat) × Bytes) : Prop where
  lawful : Lawful crypto
  answers : AnswersFrom s path caller forClient calls.listBlocks
  replicas : ∀ blocks, calls.listBlocks = .ok blocks →
    ReplicasHold crypto key written networks blocks
  threads : ∀ blocks, calls.listBlocks = .ok blocks →
    Transferred networks parallelTransfers blocks (transferred blocks).1 (transferred blocks).2

/-- Blocks of four bytes, two threads. -/
def holaUpload : Options where
  path := "/f"
  caller := none
  parallelTransfers := 2
  blockSize := 4
  blockSize_pos := Nat.succ_pos 3
  digest := fun _ => "sum"
  forClient := id

def holaPlacements : List (String × List String) :=
  [(holaId, ["n1", "n2"]), (marId, ["n2", "n1"])]

def holaBegin : Mutation :=
  .beginUpload "/f" holaPlacements (some 0) (some 60) (some 4) none

def holaConfirm (blockId : String) (size : Int) : Mutation :=
  .confirmBlock "/f" blockId "sum" size (some 1) (some 60) none

def holaComplete : Mutation := .completeUpload "/f" none

/-- What the threads of the blocks do: the last block goes up first. -/
def holaSent : List (Nat × Change) :=
  [(1, .stored marId mar), (0, .stored holaId hola),
    (1, .executed (holaConfirm marId 3) (.ok .none)),
    (0, .executed (holaConfirm holaId 4) (.ok .none))]

def holaEvents : List DfshaUpload.Event := holaSent.map fun x => .thread x.1 x.2

def holaStart : World := ⟨ControlTree.empty, fun _ => none⟩

def holaBegun : World :=
  holaStart.after (.executed holaBegin (.ok (.uploadBegun holaPlacements [])))

def holaSentWorld : World := holaSent.foldl (fun w x => w.after x.2) holaBegun

def holaWorld : World := holaSentWorld.after (.executed holaComplete (.ok .none))

theorem calls_of_answered {μ : Mutation} {w : World} {ret : Ret}
    (h : (exec μ w.tree).1 = .ok ret) : Calls μ w (.ok ret) (w.after (.executed μ (.ok ret))) :=
  ⟨.answered ret, [.executed μ (.ok ret)], rfl, .one (.main h)⟩

theorem upload_hola : Upload holaUpload (hola ++ mar) holaStart holaEvents (.ok 7) holaWorld := by
  have hproposed : Proposed holaUpload (hola ++ mar) holaPlacements 0 60 holaBegin := by
    refine ⟨by decide +kernel, by decide, fun placement h => ?_⟩
    rcases List.mem_pair.mp h with rfl | rfl
    · exact List.cons_ne_nil _ _
    · exact List.cons_ne_nil _ _
  have hbegin : Calls holaBegin holaStart (.ok (.uploadBegun holaPlacements [])) holaBegun :=
    calls_of_answered (by decide +kernel)
  have hsend : ParallelJobs.Returns (sending holaUpload (hola ++ mar) (sentTo holaUpload
      (hola ++ mar) holaPlacements)) holaSent [4, 3] := by
    refine ParallelJobs.returns_of_order (fun i => if i = 0 then 4 else 3) (Nat.le_refl 2)
      (fun i hi => ?_) (by decide)
    match i with
    | 0 => exact ⟨⟨holaId, ["n1", "n2"], 4⟩, 0,
        ⟨fun _ => false, none, false, .answered .none, 1, 60⟩, rfl, rfl, rfl⟩
    | 1 => exact ⟨⟨marId, ["n2", "n1"], 3⟩, 4,
        ⟨fun _ => false, none, false, .answered .none, 1, 60⟩, rfl, rfl, rfl⟩
    | i + 2 => exact absurd hi (Nat.not_lt.mpr (Nat.le_add_left 2 i))
  have hduring : Transfers holaBegun holaEvents holaSent holaSentWorld := by
    have hmar : (exec (holaConfirm marId 3) holaBegun.tree).1 = .ok .none := by decide +kernel
    have hhola : (exec (holaConfirm holaId 4)
        (exec (holaConfirm marId 3) holaBegun.tree).2).1 = .ok .none := by decide +kernel
    refine ⟨?_, rfl, fun e he => ?_⟩
    · exact .cons (.thread trivial) (.cons (.thread trivial)
        (.cons (.thread hmar) (.one (.thread hhola))))
    · simp [holaEvents] at he
  have hcomplete : Calls holaComplete holaSentWorld (.ok .none) holaWorld :=
    calls_of_answered (by decide +kernel)
  exact .returned hproposed hbegin hsend hduring hcomplete

/-- The edits of the threads as the blocks come down: the last block begins first,
    and each one has a replica that fails. -/
def holaEdits : List (Nat × Edit UInt8) :=
  [(1, .put 4 [7]), (0, .put 0 [9, 9]), (0, .put 0 hola), (1, .put 4 mar)]

/-- The transfer of one block of the two. -/
def holaFetched (block : BlockLocation) (start : Nat) : Except ClientError Nat × Cursor :=
  fetchBlock holaMarNetwork block start never ⟨start, []⟩

theorem fetched_hola : (holaFetched ⟨holaId, ["n1", "n2"], 4⟩ 0).1 = .ok 4 ∧
    (holaFetched ⟨holaId, ["n1", "n2"], 4⟩ 0).2.edits = [.put 0 [9, 9], .put 0 hola] := by
  decide +kernel

theorem fetched_mar : (holaFetched ⟨marId, ["n2", "n1"], 3⟩ 4).1 = .ok 3 ∧
    (holaFetched ⟨marId, ["n2", "n1"], 3⟩ 4).2.edits = [.put 4 [7], .put 4 mar] := by
  decide +kernel

def holaTransferred : List BlockLocation → Except ClientError (List Nat) × Bytes :=
  fun _ => (.ok [4, 3], applyAll (holaEdits.map Prod.snd) (zeros 7))

theorem comesDown_hola : ComesDown holaWorld.tree "/f" none id holaCrypto holaKey
    holaWorld.written (fun _ => holaMarNetwork) 2 holaMarCalls holaTransferred := by
  have hlist : ∀ blocks, holaMarCalls.listBlocks = .ok blocks →
      blocks = holaMarBlocks.map Prod.fst := fun blocks h => (Except.ok.inj h).symm
  refine ⟨lawful_holaCrypto, fun blocks h => ?_, fun blocks h => ?_, fun blocks h => ?_⟩
  · obtain rfl := hlist blocks h
    exact ⟨[⟨holaId, ["n1", "n2"], "sum", 4, true⟩, ⟨marId, ["n2", "n1"], "sum", 3, true⟩],
      by decide +kernel, rfl⟩
  · obtain rfl := hlist blocks h
    intro i block data hblock hwritten k a ha
    have hmem : (block, data) ∈ holaMarBlocks := by
      have hhola : holaWorld.written holaId = some hola := by decide +kernel
      have hmar : holaWorld.written marId = some mar := by decide +kernel
      rcases List.mem_pair.mp (List.mem_of_getElem? hblock) with rfl | rfl
      · obtain rfl := Option.some.inj (hhola.symm.trans hwritten)
        exact List.mem_cons_self
      · obtain rfl := Option.some.inj (hmar.symm.trans hwritten)
        exact List.mem_cons_of_mem _ List.mem_cons_self
    have hstored := (stored_holaMarBlocks hmem).1
    exact (hstored.replicas k a ha 0 0).imp_left fun hserves => ⟨hstored.fits, hserves⟩
  · obtain rfl := hlist blocks h
    refine ⟨holaEdits, ParallelJobs.returns_of_order (fun i => if i = 0 then 4 else 3)
      (Nat.le_refl 2) (fun i hi => ?_) (by decide), rfl⟩
    match i with
    | 0 =>
        obtain ⟨hok, hedits⟩ := fetched_hola
        exact ⟨⟨holaId, ["n1", "n2"], 4⟩, 0, never, _, rfl, rfl, Prod.ext hok rfl, hedits⟩
    | 1 =>
        obtain ⟨hok, hedits⟩ := fetched_mar
        exact ⟨⟨marId, ["n2", "n1"], 3⟩, 4, never, _, rfl, rfl, Prod.ext hok rfl, hedits⟩
    | i + 2 => exact absurd hi (Nat.not_lt.mpr (Nat.le_add_left 2 i))

end DfshaFileTransfer
