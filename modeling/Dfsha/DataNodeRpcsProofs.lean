import Dfsha.BlockDirectoryProofs
import Dfsha.BlockTokenProofs
import Dfsha.BlockFailoverProofs

/-! # The RPCs of a DataNode

    Over the directory there are the RPCs.  With a capability key each of them
    first asks for a capability: one of its block for a read, a write or a
    deletion, an internal one for the inventory and for the order to replicate.

    So what a DataNode serves is a map behind a guard: a call with the right
    capability is answered from the map and changes it as it says, and every
    other call is refused with the map as it was.  `ReplicateBlock` is a read
    of the map of one node and a write to the map of another: what arrives is
    what was read, whole, or nothing, whatever the network does; and a repair
    that has compared the checksum has left a block of that checksum. -/

namespace DfshaDataNode

open InsertionDict RaisingAction
open DfshaControlTree (Time)
open DfshaPath (PyError)
open BlockChunks DfshaBlockStore DfshaContainer DfshaRoundTrip DfshaBlockToken
open DfshaBlockRead (asked)
open DfshaBlockFailover (RpcError)
open DfshaBlockDirectory

/-! ## The code -/

structure Config where
  crypto : Crypto
  encryptionKey : Bytes
  /-- HMAC-SHA256 under the capability key, if the node has one. -/
  capabilityMac : Option (Bytes → Bytes)

/-- What comes with a call besides the request, and when it comes. -/
structure Invocation where
  capability : String
  targetCapability : String
  now : Time

/-- What gRPC makes of an exception that leaves a handler. -/
def unhandled (message : String) : RpcError :=
  ⟨.unknown, s!"Exception calling application: {message}", []⟩

/-- `_abort_on_domain_error`, for the errors of the store. -/
def abortOnStoreError : StoreError → RpcError
  | .blockNotFound message => ⟨.notFound, message, ["BlockNotFoundError"]⟩
  | .blockCorrupted message => ⟨.dataLoss, message, ["BlockCorruptedError"]⟩
  | .valueError message => unhandled message

/-- The same, for what `verify_block` and `verify_internal` raise. -/
def abortOnRefusal (e : PyError) : RpcError :=
  if e.cls = .accessDeniedError then ⟨.permissionDenied, e.message, ["AccessDeniedError"]⟩
  else unhandled e.message

/-- A call of the store. -/
def store {σ α : Type} (x : Action σ StoreError α) : Action σ RpcError α := fun s =>
  ((x s).1.mapError abortOnStoreError, (x s).2)

section Code

variable {σ : Type} (c : Config)

/-- What `_require_block` looks at. -/
def blockCheck (token blockId op : String) (now : Time) : Except PyError String :=
  match c.capabilityMac with
  | none => .ok ""
  | some mac => (verifyBlock mac (.text token) blockId op now).map fun _ => token

/-- What `_require_internal` looks at. -/
def internalCheck (token op : String) (now : Time) : Except PyError Unit :=
  match c.capabilityMac with
  | none => .ok ()
  | some mac => verifyInternal mac (.text token) op now

/-- `_require_block`. -/
def requireBlock (token blockId op : String) (now : Time) : Action σ RpcError String :=
  ofExcept ((blockCheck c token blockId op now).mapError abortOnRefusal)

/-- `_require_internal`. -/
def requireInternal (token op : String) (now : Time) : Action σ RpcError Unit :=
  ofExcept ((internalCheck c token op now).mapError abortOnRefusal)

/-- `ReadBlock`; the state is what it has streamed. -/
def readBlockRpc (inv : Invocation) (blockId : String) (offset length : Int) (found : Found) :
    Action (List Bytes) RpcError Unit := do
  let _ ← requireBlock c inv.capability blockId "read" inv.now
  raiseIf (offset < 0 ∨ length < 0)
    ⟨.invalidArgument, s!"rango inválido: offset={offset}, length={length}", []⟩
  -- 0 is up to the end of the block
  store (readBlock c.crypto c.encryptionKey blockId found chunkSizeBytes offset
    (if length = 0 then none else some length))

/-- `DeleteBlock`. -/
def deleteBlockRpc (inv : Invocation) (blockId : String) : Action Directory RpcError Unit := do
  let _ ← requireBlock c inv.capability blockId "delete" inv.now
  store fun d =>
    match deleteBlock d blockId with
    | .ok d' => (.ok (), d')
    | .error e => (.error e, d)

/-- `ListStoredBlocks`; the state is what it has streamed. -/
def listStoredBlocks (inv : Invocation) (entries : List (String × Look)) :
    Action (List Listed) RpcError Unit := do
  requireInternal c inv.capability "list" inv.now
  store (listBlocks c.crypto c.encryptionKey inv.now entries)

inductive Message where
  | header (blockId : String) (downstream : List String)
  | data (chunk : Bytes)

/-- `msg.data`. -/
def Message.chunk : Message → Bytes
  | .header _ _ => []
  | .data chunk => chunk

/-- The stream of a call, which may break after these messages. -/
structure Incoming where
  messages : List Message
  cut : Bool

/-- What a write draws: the name of its temporary file, the nonce prefix, the
    times of the file system. -/
structure Draw where
  tag : String
  pre : NoncePrefix
  created : Time
  mtime : Time

inductive WriteAnswer where
  | written (checksum : String) (bytesWritten : Nat)
  /-- the handler goes on with `_write_and_forward` -/
  | forward (downstream : List String) (capability : String)

/-- The call is over, nobody reads this. -/
def cancelled : RpcError := ⟨.cancelled, "", []⟩

/-- `write_block` on the directory, fed from the stream. -/
def storeStream (blockId : String) (draw : Draw) (chunks : List Bytes) (cut : Bool) :
    Action Directory RpcError WriteAnswer := fun d =>
  let w : Writing := ⟨blockId, draw.tag, draw.pre, chunks⟩
  let d₁ : Directory := ⟨d.files.insert w.partName ⟨[], draw.created⟩, d.writing ++ [w]⟩
  if cut then (.error cancelled, ⟨d₁.files.erase w.partName, d₁.writing.erase w⟩)
  else
    let r := (writeBlock c.crypto c.encryptionKey blockId draw.pre chunks {}).1
    ((r.map fun written => .written written.1 written.2).mapError abortOnStoreError,
      finishWrite c.crypto c.encryptionKey w draw.mtime d₁)

/-- `WriteBlock`. -/
def writeBlockRpc (inv : Invocation) (draw : Draw) (stream : Incoming) :
    Action Directory RpcError WriteAnswer :=
  match stream.messages with
  | [] =>
      if stream.cut then raise cancelled
      else raise ⟨.invalidArgument, "stream vacío", []⟩
  | .data _ :: _ => raise ⟨.invalidArgument, "el primer mensaje debe ser un header", []⟩
  | .header blockId downstream :: rest => do
      let capability ← requireBlock c inv.capability blockId "write" inv.now
      ofExcept ((validateBlockId blockId).mapError abortOnStoreError)
      if downstream = [] then storeStream c blockId draw (rest.map Message.chunk) stream.cut
      else pure (.forward downstream capability)

/-- What `ReplicateBlock` makes of an error of the call to the target. -/
def abortOnPeerError (target : String) (e : RpcError) : RpcError :=
  let details := e.details
  let message := s!"no se pudo replicar hacia {target}: {details}"
  if e.code = .permissionDenied then ⟨.permissionDenied, message, ["AccessDeniedError"]⟩
  else if e.code = .unavailable ∨ e.code = .deadlineExceeded then ⟨e.code, message, []⟩
  else ⟨.unavailable, message, []⟩

/-- `ReplicateBlock`.  `peer` is the call of `WriteBlock` on the target, which gets
    a capability and a stream. -/
def replicateBlock (inv : Invocation) (blockId target : String) (found : Found)
    (peer : String → Incoming → Action σ RpcError (String × Nat)) :
    Action σ RpcError (String × Nat) := do
  requireInternal c inv.capability "replicate" inv.now
  let capability ← requireBlock c inv.targetCapability blockId "write" inv.now
  ofExcept ((validateBlockId blockId).mapError abortOnStoreError)
  match readBlock c.crypto c.encryptionKey blockId found chunkSizeBytes 0 none [] with
  -- the first chunk is asked for before the stream is opened
  | (.error e, []) => raise (abortOnStoreError e)
  | (r, chunks) => fun s =>
      let answer := peer capability
        ⟨.header blockId [] :: chunks.map .data, match r with | .ok _ => false | .error _ => true⟩ s
      (answer.1.mapError (abortOnPeerError target), answer.2)

end Code

/-! ## The network -/

/-- What becomes of a call between two nodes. -/
inductive Fate where
  | arrives
  | unreachable (e : RpcError)
  /-- the stream breaks after some messages -/
  | breaks (after : Nat) (e : RpcError)
  /-- the target answers, and the caller gets an error -/
  | unanswered (e : RpcError)

/-- The call of `WriteBlock` on a target.  When the request generator raises, the
    call is cancelled. -/
def callWriteBlock (c : Config) (now : Time) (draw : Draw) (fate : Fate) (capability : String)
    (stream : Incoming) : Action Directory RpcError (String × Nat) := fun d =>
  let received := writeBlockRpc c ⟨capability, "", now⟩ draw
  match fate with
  | .arrives =>
      let r := received stream d
      match stream.cut, r.1 with
      | true, _ => (.error ⟨.unknown, "Exception iterating requests!", []⟩, r.2)
      | false, .ok (.written checksum bytesWritten) => (.ok (checksum, bytesWritten), r.2)
      | false, .ok (.forward _ _) => (.error cancelled, r.2)
      | false, .error e => (.error e, r.2)
  | .unreachable e => (.error e, d)
  | .breaks after e => (.error e, (received ⟨stream.messages.take after, true⟩ d).2)
  | .unanswered e => (.error e, (received stream d).2)

/-- What becomes of an order to a source, on its way there and back. -/
inductive Leg where
  | answered
  | notSent (e : RpcError)
  | lost (e : RpcError)

/-- One `ReplicateBlock` of a repair. -/
structure Attempt where
  inv : Invocation
  found : Found
  leg : Leg
  fate : Fate
  arrival : Time
  draw : Draw

/-- An attempt to copy a block from a source to the directory of a target. -/
def attempt (source target : Config) (blockId address : String) (a : Attempt) :
    Action Directory RpcError (String × Nat) := fun d =>
  let r := replicateBlock source a.inv blockId address a.found
    (callWriteBlock target a.arrival a.draw a.fate)
  match a.leg with
  | .answered => r d
  | .notSent e => (.error e, d)
  | .lost e => (.error e, (r d).2)

/-- `_replicate`, with the attempts that are left. -/
def replicate (source target : Config) (blockId address expectedChecksum : String)
    (attempts : Nat → Attempt) : Nat → Nat → Action Directory RpcError Bool
  | 0, _ => pure false
  | left + 1, i => fun d =>
      match attempt source target blockId address (attempts i) d with
      | (.ok response, d') => (.ok (response.1 = expectedChecksum), d')
      | (.error e, d') =>
          if e.code = .unavailable ∨ e.code = .deadlineExceeded then
            replicate source target blockId address expectedChecksum attempts left (i + 1) d'
          else (.ok false, d')

/-! ## What a write does to the map -/

section Write

variable {c : Config} {d : Directory} {copies : Copies} {blockId : String}

/-- How a write to the directory ends: the block has the content, or nothing has
    happened. -/
inductive StoreEnds (c : Config) (copies : Copies) (blockId : String) (content : Bytes)
    (cut : Bool) : Except RpcError WriteAnswer → Directory → Prop
  | stored {d' : Directory} (hcut : cut = false) (hfits : Fits c.encryptionKey blockId content)
      (h : Shows c.crypto c.encryptionKey d'
        (Function.update copies blockId (some (.intact content)))) :
      StoreEnds c copies blockId content cut
        (.ok (.written (hexDigest (c.crypto.sha256 content)) content.length)) d'
  | refused {e : RpcError} {d' : Directory}
      (hnot : ¬(cut = false ∧ Fits c.encryptionKey blockId content))
      (h : Shows c.crypto c.encryptionKey d' copies) :
      StoreEnds c copies blockId content cut (.error e) d'

theorem storeStream_spec (h : Shows c.crypto c.encryptionKey d copies)
    (hid : ValidBlockId blockId) (draw : Draw) (chunks : List Bytes) (cut : Bool) :
    wp (storeStream c blockId draw chunks cut) d
      (StoreEnds c copies blockId chunks.flatten cut) := by
  let w : Writing := ⟨blockId, draw.tag, draw.pre, chunks⟩
  have hbegun : Shows c.crypto c.encryptionKey
      ⟨d.files.insert w.partName ⟨[], draw.created⟩, d.writing ++ [w]⟩ copies := by
    refine h.temporary (fun _ hid' => get?_insert_part w _ hid') fun w' hmem => ?_
    rcases List.mem_append.mp hmem with hold | hnew
    · exact h.writing w' hold
    · obtain rfl := List.mem_singleton.mp hnew
      exact hid
  cases cut with
  | true =>
      refine .refused (by simp) ?_
      exact hbegun.temporary (fun _ hid' => get?_erase_part w hid') fun w' hw' =>
        hbegun.writing w' (List.mem_of_mem_erase hw')
  | false =>
      have hmem : w ∈ d.writing ++ [w] := List.mem_append_right _ List.mem_cons_self
      have hfinished := shows_finish hbegun hmem draw.mtime
      have hwritten : Written c.crypto c.encryptionKey blockId draw.pre chunks.flatten
          (writeBlock c.crypto c.encryptionKey blockId draw.pre chunks {}).1
          (writeBlock c.crypto c.encryptionKey blockId draw.pre chunks {}).2 :=
        writeBlock_spec chunks
      show StoreEnds c copies blockId chunks.flatten false
        (((writeBlock c.crypto c.encryptionKey blockId draw.pre chunks {}).1.map fun written =>
          WriteAnswer.written written.1 written.2).mapError abortOnStoreError)
        (finishWrite c.crypto c.encryptionKey w draw.mtime
          ⟨d.files.insert w.partName ⟨[], draw.created⟩, d.writing ++ [w]⟩)
      generalize finishWrite c.crypto c.encryptionKey w draw.mtime
        ⟨d.files.insert w.partName ⟨[], draw.created⟩, d.writing ++ [w]⟩ = d' at hfinished ⊢
      unfold effect at hfinished
      dsimp only at hfinished
      generalize (writeBlock c.crypto c.encryptionKey blockId draw.pre chunks {}).1 = r
        at hwritten ⊢
      generalize (writeBlock c.crypto c.encryptionKey blockId draw.pre chunks {}).2 = writer
        at hwritten
      cases hwritten with
      | done hfits =>
          rw [if_pos hfits] at hfinished
          exact .stored rfl hfits hfinished
      | stopped hstop =>
          rw [if_neg hstop.1] at hfinished
          exact .refused (fun hboth => hstop.1 hboth.2) hfinished

/-- What `WriteBlock` is asked for: a header of a block and no other node, with a
    capability, and a stream that goes to its end. -/
structure Asks (c : Config) (inv : Invocation) (stream : Incoming) (blockId : String)
    (content : Bytes) : Prop where
  opened : ∃ rest, stream.messages = .header blockId [] :: rest ∧
    content = (rest.map Message.chunk).flatten
  whole : stream.cut = false
  allowed : ∃ capability, blockCheck c inv.capability blockId "write" inv.now = .ok capability
  fits : Fits c.encryptionKey blockId content

/-- How `WriteBlock` ends. -/
inductive WriteEnds (c : Config) (copies : Copies) (inv : Invocation) (stream : Incoming) :
    Except RpcError WriteAnswer → Directory → Prop
  | stored {b : String} {content : Bytes} {d' : Directory} (h : Asks c inv stream b content)
      (hshows : Shows c.crypto c.encryptionKey d'
        (Function.update copies b (some (.intact content)))) :
      WriteEnds c copies inv stream
        (.ok (.written (hexDigest (c.crypto.sha256 content)) content.length)) d'
  | forwarded {b : String} {downstream : List String} {rest : List Message}
      {capability : String} {d' : Directory}
      (hstream : stream.messages = .header b downstream :: rest) (hdownstream : downstream ≠ [])
      (hallowed : blockCheck c inv.capability b "write" inv.now = .ok capability)
      (hshows : Shows c.crypto c.encryptionKey d' copies) :
      WriteEnds c copies inv stream (.ok (.forward downstream capability)) d'
  | refused {e : RpcError} {d' : Directory} (hnot : ∀ b content, ¬Asks c inv stream b content)
      (hshows : Shows c.crypto c.encryptionKey d' copies) :
      WriteEnds c copies inv stream (.error e) d'

/-- **A WRITE PUTS ITS BLOCK OR NOTHING.** -/
theorem writeBlockRpc_spec (h : Shows c.crypto c.encryptionKey d copies) (inv : Invocation)
    (draw : Draw) (stream : Incoming) :
    wp (writeBlockRpc c inv draw stream) d (WriteEnds c copies inv stream) := by
  obtain ⟨messages, cut⟩ := stream
  cases messages with
  | nil =>
      have hnot : ∀ blockId content, ¬Asks c inv ⟨[], cut⟩ blockId content := by
        intro blockId content hasks
        obtain ⟨rest, hrest, _⟩ := hasks.opened
        cases hrest
      cases cut <;> exact .refused hnot h
  | cons first rest =>
      cases first with
      | data chunk =>
          refine .refused (fun blockId content hasks => ?_) h
          obtain ⟨rest', hrest, _⟩ := hasks.opened
          cases hrest
      | header blockId downstream =>
          -- the header fixes what the call asks for
          have hasked : ∀ blockId' content,
              Asks c inv ⟨.header blockId downstream :: rest, cut⟩ blockId' content →
              blockId' = blockId ∧ downstream = [] ∧
                content = (rest.map Message.chunk).flatten := by
            intro blockId' content hasks
            obtain ⟨rest', hrest, hcontent⟩ := hasks.opened
            obtain ⟨hhead, rfl⟩ := List.cons.inj hrest
            obtain ⟨rfl, rfl⟩ := Message.header.inj hhead
            exact ⟨rfl, rfl, hcontent⟩
          refine wp_ofExcept_cases (fun capability hallowed => ?_) fun e he => ?_
          · cases hcheck : blockCheck c inv.capability blockId "write" inv.now with
            | error e =>
                rw [hcheck] at hallowed
                cases hallowed
            | ok capability' =>
                rw [hcheck] at hallowed
                obtain rfl := Except.ok.inj hallowed
                refine wp_ofExcept_cases (fun _ hvalid => ?_) fun e he => ?_
                · have hid : ValidBlockId blockId := by
                    by_contra hbad
                    rw [validateBlockId, if_neg hbad] at hvalid
                    cases hvalid
                  by_cases hdownstream : downstream = []
                  · rw [if_pos hdownstream]
                    subst hdownstream
                    refine wp_mono (storeStream_spec h hid draw _ cut) ?_
                    rintro r d' (⟨rfl, hfits, hshows⟩ | ⟨hnot, hshows⟩)
                    · exact .stored ⟨⟨rest, rfl, rfl⟩, rfl, ⟨_, hcheck⟩, hfits⟩ hshows
                    · refine .refused (fun blockId' content hasks => hnot ?_) hshows
                      obtain ⟨rfl, _, rfl⟩ := hasked _ _ hasks
                      exact ⟨hasks.whole, hasks.fits⟩
                  · rw [if_neg hdownstream]
                    exact .forwarded rfl hdownstream hcheck h
                · refine .refused (fun blockId' content hasks => ?_) h
                  obtain ⟨rfl, _, _⟩ := hasked _ _ hasks
                  rw [validateBlockId, if_pos hasks.fits.2.1] at he
                  cases he
          · refine .refused (fun blockId' content hasks => ?_) h
            obtain ⟨rfl, _, _⟩ := hasked _ _ hasks
            obtain ⟨capability, hcheck⟩ := hasks.allowed
            rw [hcheck] at he
            cases he

end Write

/-! ## Copies between nodes -/

section Copy

variable {source target : Config} {d : Directory} {copies : Copies} {blockId : String}

/-- What is left of a call of `WriteBlock` with this content: the whole block, or
    nothing and an error. -/
def CopyEnds (c : Config) (copies : Copies) (blockId : String) (content : Bytes)
    (r : Except RpcError (String × Nat)) (d' : Directory) : Prop :=
  (Shows c.crypto c.encryptionKey d' (Function.update copies blockId (some (.intact content))) ∧
    ∀ response, r = .ok response →
      response = (hexDigest (c.crypto.sha256 content), content.length)) ∨
  (Shows c.crypto c.encryptionKey d' copies ∧ ∃ e, r = .error e)

theorem chunks_data (chunks : List Bytes) :
    ((chunks.map Message.data).map Message.chunk).flatten = chunks.flatten := by
  have hid : Message.chunk ∘ Message.data = id := rfl
  rw [List.map_map, hid, List.map_id]

/-- **WHATEVER THE NETWORK DOES**, a stream that its sender ends arrives as the
    whole block or not at all, and one that its sender breaks not at all. -/
theorem callWriteBlock_spec (h : Shows target.crypto target.encryptionKey d copies) (now : Time)
    (draw : Draw) (fate : Fate) (capability : String) (chunks : List Bytes) (cut : Bool) :
    wp (callWriteBlock target now draw fate capability
        ⟨.header blockId [] :: chunks.map .data, cut⟩) d fun r d' =>
      CopyEnds target copies blockId chunks.flatten r d' ∧ (cut = true →
        Shows target.crypto target.encryptionKey d' copies ∧ ∃ e, r = .error e) := by
  have hwhole := writeBlockRpc_spec h ⟨capability, "", now⟩ draw
    ⟨.header blockId [] :: chunks.map .data, cut⟩
  have hbroken : ∀ messages : List Message, Shows target.crypto target.encryptionKey
      (writeBlockRpc target ⟨capability, "", now⟩ draw ⟨messages, true⟩ d).2 copies := by
    intro messages
    have hends := writeBlockRpc_spec h ⟨capability, "", now⟩ draw ⟨messages, true⟩
    unfold wp at hends
    generalize writeBlockRpc target ⟨capability, "", now⟩ draw ⟨messages, true⟩ d = r at hends ⊢
    obtain ⟨res, d'⟩ := r
    cases hends with
    | stored hasks => cases hasks.whole
    | forwarded _ _ _ hshows => exact hshows
    | refused _ hshows => exact hshows
  have hasked : ∀ {b : String} {content : Bytes}, Asks target ⟨capability, "", now⟩
      ⟨.header blockId [] :: chunks.map .data, cut⟩ b content →
      blockId = b ∧ chunks.flatten = content ∧ cut = false := by
    intro b content hasks
    obtain ⟨rest, hrest, hcontent⟩ := hasks.opened
    obtain ⟨hhead, rfl⟩ := List.cons.inj hrest
    exact ⟨(Message.header.inj hhead).1, (hcontent.trans (chunks_data chunks)).symm, hasks.whole⟩
  unfold wp at hwhole ⊢
  unfold callWriteBlock
  cases fate with
  | unreachable e => exact ⟨.inr ⟨h, _, rfl⟩, fun _ => ⟨h, _, rfl⟩⟩
  | breaks after e =>
      exact ⟨.inr ⟨hbroken _, _, rfl⟩, fun _ => ⟨hbroken _, _, rfl⟩⟩
  | unanswered e =>
      dsimp only
      generalize writeBlockRpc target ⟨capability, "", now⟩ draw
        ⟨.header blockId [] :: chunks.map .data, cut⟩ d = r at hwhole ⊢
      obtain ⟨res, d'⟩ := r
      cases hwhole with
      | stored hasks hshows =>
          obtain ⟨rfl, rfl, rfl⟩ := hasked hasks
          exact ⟨.inl ⟨hshows, fun _ he => by cases he⟩, fun htrue => by cases htrue⟩
      | forwarded hstream hdownstream =>
          exact absurd (Message.header.inj (List.cons.inj hstream).1).2.symm hdownstream
      | refused _ hshows => exact ⟨.inr ⟨hshows, _, rfl⟩, fun _ => ⟨hshows, _, rfl⟩⟩
  | arrives =>
      dsimp only
      generalize writeBlockRpc target ⟨capability, "", now⟩ draw
        ⟨.header blockId [] :: chunks.map .data, cut⟩ d = r at hwhole ⊢
      obtain ⟨res, d'⟩ := r
      cases hwhole with
      | stored hasks hshows =>
          obtain ⟨rfl, rfl, rfl⟩ := hasked hasks
          exact ⟨.inl ⟨hshows, fun _ he => (Except.ok.inj he).symm⟩, fun htrue => by cases htrue⟩
      | forwarded hstream hdownstream =>
          exact absurd (Message.header.inj (List.cons.inj hstream).1).2.symm hdownstream
      | refused _ hshows =>
          cases cut
          · exact ⟨.inr ⟨hshows, _, rfl⟩, fun _ => ⟨hshows, _, rfl⟩⟩
          · exact ⟨.inr ⟨hshows, _, rfl⟩, fun _ => ⟨hshows, _, rfl⟩⟩

/-- What the source has read of its copy, to the end and without an error. -/
def ReadsWhole (c : Config) (blockId : String) (found : Found) (data : Bytes) : Prop :=
  ∃ pieces, readBlock c.crypto c.encryptionKey blockId found chunkSizeBytes 0 none []
    = (.ok (), pieces) ∧ pieces.flatten = data

/-- How a copy ends: with what the source has read whole, or with nothing. -/
def ReplicaEnds (source target : Config) (copies : Copies) (blockId : String) (found : Found)
    (r : Except RpcError (String × Nat)) (d' : Directory) : Prop :=
  (∃ data, ReadsWhole source blockId found data ∧ CopyEnds target copies blockId data r d') ∨
  (Shows target.crypto target.encryptionKey d' copies ∧ ∃ e, r = .error e)

/-- **A REPLICA IS WHAT THE SOURCE HAS READ WHOLE**, or nothing. -/
theorem replicateBlock_spec (h : Shows target.crypto target.encryptionKey d copies)
    (inv : Invocation) (address : String) (found : Found) (now : Time) (draw : Draw)
    (fate : Fate) :
    wp (replicateBlock source inv blockId address found (callWriteBlock target now draw fate)) d
      (ReplicaEnds source target copies blockId found) := by
  have refuse : ∀ e, ReplicaEnds source target copies blockId found (.error e) d :=
    fun e => .inr ⟨h, e, rfl⟩
  refine wp_ofExcept refuse fun _ _ => wp_ofExcept refuse fun capability _ => ?_
  refine wp_ofExcept refuse fun _ _ => ?_
  generalize hread : readBlock source.crypto source.encryptionKey blockId found chunkSizeBytes
    0 none [] = read
  obtain ⟨r, chunks⟩ := read
  have hsent : ∀ cut, wp (callWriteBlock target now draw fate capability
      ⟨.header blockId [] :: chunks.map .data, cut⟩) d _ :=
    fun cut => callWriteBlock_spec h now draw fate capability chunks cut
  cases r with
  | ok _ =>
      obtain ⟨hends, _⟩ := hsent false
      refine .inl ⟨_, ⟨chunks, hread, rfl⟩, ?_⟩
      rcases hends with ⟨hshows, hanswer⟩ | ⟨hshows, e, he⟩
      · exact .inl ⟨hshows, fun response hr => hanswer response (mapError_eq_ok hr)⟩
      · exact .inr ⟨hshows, _, congrArg (Except.mapError (abortOnPeerError address)) he⟩
  | error e =>
      cases chunks with
      | nil => exact refuse _
      | cons chunk chunks =>
          obtain ⟨_, hbroken⟩ := hsent true
          obtain ⟨hshows, e', he⟩ := hbroken rfl
          exact .inr ⟨hshows, _, congrArg (Except.mapError (abortOnPeerError address)) he⟩

theorem attempt_spec (h : Shows target.crypto target.encryptionKey d copies) (address : String)
    (a : Attempt) :
    wp (attempt source target blockId address a) d
      (ReplicaEnds source target copies blockId a.found) := by
  have hends : wp (replicateBlock source a.inv blockId address a.found
      (callWriteBlock target a.arrival a.draw a.fate)) d _ :=
    replicateBlock_spec h a.inv address a.found a.arrival a.draw a.fate
  unfold wp attempt at *
  cases a.leg with
  | answered => exact hends
  | notSent e => exact .inr ⟨h, _, rfl⟩
  | lost e =>
      rcases hends with ⟨data, hread, hcopied | ⟨hshows, _⟩⟩ | ⟨hshows, _⟩
      · exact .inl ⟨data, hread, .inl ⟨hcopied.1, fun _ he => by cases he⟩⟩
      · exact .inr ⟨hshows, _, rfl⟩
      · exact .inr ⟨hshows, _, rfl⟩

/-- What a repair can have made of the map of the target. -/
inductive Repaired (source : Config) (blockId : String) (attempts : Nat → Attempt)
    (copies : Copies) : Copies → Prop
  | untouched : Repaired source blockId attempts copies copies
  | copied {i : Nat} {data : Bytes} (hread : ReadsWhole source blockId (attempts i).found data) :
      Repaired source blockId attempts copies
        (Function.update copies blockId (some (.intact data)))

theorem Repaired.trans {attempts : Nat → Attempt} {copies₁ copies₂ : Copies}
    (h₁ : Repaired source blockId attempts copies copies₁)
    (h₂ : Repaired source blockId attempts copies₁ copies₂) :
    Repaired source blockId attempts copies copies₂ := by
  cases h₂ with
  | untouched => exact h₁
  | copied hread =>
      cases h₁ with
      | untouched => exact .copied hread
      | copied _ =>
          rw [Function.update_idem]
          exact .copied hread

/-- How a repair ends: what it answers `True` for is at the target. -/
def RepairEnds (source target : Config) (copies : Copies) (blockId expectedChecksum : String)
    (attempts : Nat → Attempt) (r : Except RpcError Bool) (d' : Directory) : Prop :=
  ∃ copies', Shows target.crypto target.encryptionKey d' copies' ∧
    Repaired source blockId attempts copies copies' ∧
    (r = .ok true → ∃ data, expectedChecksum = hexDigest (target.crypto.sha256 data) ∧
      copies' blockId = some (.intact data))

theorem replicate_spec (h : Shows target.crypto target.encryptionKey d copies)
    (address expectedChecksum : String) (attempts : Nat → Attempt) (left i : Nat) :
    wp (replicate source target blockId address expectedChecksum attempts left i) d
      (RepairEnds source target copies blockId expectedChecksum attempts) := by
  induction left generalizing i d copies with
  | zero => exact ⟨copies, h, .untouched, fun hr => by cases hr⟩
  | succ left ih =>
      have hattempt : wp (attempt source target blockId address (attempts i)) d _ :=
        attempt_spec h address (attempts i)
      -- what is there after the attempt
      obtain ⟨copies₁, hshows₁, hrepaired₁, hanswer⟩ : ∃ copies₁,
          Shows target.crypto target.encryptionKey
            (attempt source target blockId address (attempts i) d).2 copies₁ ∧
          Repaired source blockId attempts copies copies₁ ∧
          ∀ response, (attempt source target blockId address (attempts i) d).1 = .ok response →
            ∃ data, response.1 = hexDigest (target.crypto.sha256 data) ∧
              copies₁ blockId = some (.intact data) := by
        rcases hattempt with ⟨data, hread, ⟨hshows, hresponse⟩ | ⟨hshows, e, he⟩⟩ | ⟨hshows, e, he⟩
        · refine ⟨_, hshows, .copied hread, fun response hr => ⟨data, ?_, ?_⟩⟩
          · rw [hresponse response hr]
          · exact Function.update_self _ _ _
        · exact ⟨_, hshows, .untouched, fun response hr => by rw [he] at hr; cases hr⟩
        · exact ⟨_, hshows, .untouched, fun response hr => by rw [he] at hr; cases hr⟩
      unfold wp replicate
      generalize attempt source target blockId address (attempts i) d = r at hshows₁ hanswer ⊢
      obtain ⟨res, d₁⟩ := r
      cases res with
      | ok response =>
          refine ⟨copies₁, hshows₁, hrepaired₁, fun hr => ?_⟩
          obtain ⟨data, hchecksum, hcopy⟩ := hanswer response rfl
          have hexpected := of_decide_eq_true (Except.ok.inj hr)
          exact ⟨data, hexpected.symm.trans hchecksum, hcopy⟩
      | error e =>
          dsimp only
          by_cases hretry : e.code = .unavailable ∨ e.code = .deadlineExceeded
          · rw [if_pos hretry]
            obtain ⟨copies', hshows', hrepaired', htrue⟩ := ih hshows₁ (i + 1)
            exact ⟨copies', hshows', hrepaired₁.trans hrepaired', htrue⟩
          · rw [if_neg hretry]
            exact ⟨copies₁, hshows₁, hrepaired₁, fun hr => by cases hr⟩

/-! ## The digest as text -/

theorem digitChar_inj {m n : Nat} (hm : m < 16) (hn : n < 16)
    (h : Nat.digitChar m = Nat.digitChar n) : m = n := by
  have hall : ∀ m < 16, ∀ n < 16, Nat.digitChar m = Nat.digitChar n → m = n := by decide
  exact hall m hm n hn h

theorem hexDigest_inj {x y : Bytes} (h : hexDigest x = hexDigest y) : x = y := by
  have hlist := congrArg String.toList h
  rw [hexDigest, hexDigest, String.toList_ofList, String.toList_ofList] at hlist
  clear h
  induction x generalizing y with
  | nil =>
      cases y with
      | nil => rfl
      | cons b y => cases hlist
  | cons a x ih =>
      cases y with
      | nil => cases hlist
      | cons b y =>
          rw [List.flatMap_cons, List.flatMap_cons] at hlist
          obtain ⟨hhigh, hlist⟩ := List.cons.inj hlist
          obtain ⟨hlow, hrest⟩ := List.cons.inj hlist
          have ha := a.toNat_lt
          have hb := b.toNat_lt
          have hdiv := digitChar_inj (by omega) (by omega) hhigh
          have hmod := digitChar_inj (by omega) (by omega) hlow
          rw [ih hrest, UInt8.toNat_inj.mp (show a.toNat = b.toNat by omega)]

/-- **A REPAIR THAT IS COMMITTED IS EXACT**: whatever the copies of the source are
    like at each attempt, whatever the network does, and however often it is
    tried, a repair that answers `True` for the digest of a content has left at
    the target an intact block with that digest; and a repair that does not has
    left there what was there, or a whole copy of what the source has read.  It
    touches no other block.  An attempt has ended at the target when the next
    one begins: none outlives its deadline there. -/
theorem committed_repairs_are_exact (h : Shows target.crypto target.encryptionKey d copies)
    (content : Bytes) (address : String) (attempts : Nat → Attempt) (maxAttempts : Nat) :
    wp (replicate source target blockId address
      (hexDigest (target.crypto.sha256 content)) attempts maxAttempts 0) d fun r d' =>
      ∃ copies', Shows target.crypto target.encryptionKey d' copies' ∧
        Repaired source blockId attempts copies copies' ∧
        (r = .ok true → ∃ data, target.crypto.sha256 data = target.crypto.sha256 content ∧
          copies' blockId = some (.intact data)) := by
  refine wp_mono (replicate_spec h address _ attempts maxAttempts 0) ?_
  rintro r d' ⟨copies', hshows, hrepaired, htrue⟩
  refine ⟨copies', hshows, hrepaired, fun hr => ?_⟩
  obtain ⟨data, hchecksum, hcopy⟩ := htrue hr
  exact ⟨data, (hexDigest_inj hchecksum).symm, hcopy⟩

/-- A node without a capability key. -/
def holaNode : Config := ⟨holaCrypto, holaKey, none⟩

theorem shows_empty (c : Config) :
    Shows c.crypto c.encryptionKey Directory.empty fun _ => none :=
  shows_run ⟨_, rfl, .start⟩

def holaFile : Bytes := container holaCrypto holaKey holaId holaPrefix hola

/-- The answer to the first attempt is lost, the second one finds a file that is
    damaged, the third one arrives. -/
def holaAttempts : Nat → Attempt
  | 0 => ⟨⟨"", "", 0⟩, .still holaFile, .lost ⟨.deadlineExceeded, "", []⟩, .arrives, 0,
      ⟨"a", holaPrefix, 0, 1⟩⟩
  | 1 => ⟨⟨"", "", 2⟩, .still [], .notSent ⟨.unavailable, "", []⟩, .arrives, 2,
      ⟨"b", holaPrefix, 2, 2⟩⟩
  | _ => ⟨⟨"", "", 3⟩, .still holaFile, .answered, .arrives, 3, ⟨"c", holaPrefix, 3, 4⟩⟩

theorem committed_repairs_are_exact_hola :
    wp (replicate holaNode holaNode holaId "d2:1" (hexDigest (holaCrypto.sha256 hola))
      holaAttempts 3 0) Directory.empty fun r d' =>
      ∃ copies', Shows holaCrypto holaKey d' copies' ∧
        Repaired holaNode holaId holaAttempts (fun _ => none) copies' ∧
        (r = .ok true → ∃ data, holaCrypto.sha256 data = holaCrypto.sha256 hola ∧
          copies' holaId = some (.intact data)) :=
  committed_repairs_are_exact (shows_empty holaNode) hola "d2:1" holaAttempts 3

example : (replicate holaNode holaNode holaId "d2:1" (hexDigest (holaCrypto.sha256 hola))
    holaAttempts 3 0 Directory.empty).1 = .ok true := by decide +kernel

end Copy

/-! ## A map behind a guard -/

/-- The calls that a node serves from its own directory.  The directory is gone
    through in some order. -/
inductive Call where
  | write (inv : Invocation) (draw : Draw) (stream : Incoming)
  | read (inv : Invocation) (blockId : String) (offset length : Int)
  | delete (inv : Invocation) (blockId : String)
  | list (inv : Invocation) (order : List (String × StoredFile) → List (String × StoredFile))
      (hperm : ∀ entries, (order entries).Perm entries)

inductive Answer where
  | written (r : Except RpcError WriteAnswer)
  | chunks (r : Except RpcError Unit) (streamed : List Bytes)
  | deleted (r : Except RpcError Unit)
  | blocks (r : Except RpcError Unit) (streamed : List Listed)

def serve (c : Config) (d : Directory) : Call → Answer × Directory
  | .write inv draw stream =>
      let r := writeBlockRpc c inv draw stream d
      (.written r.1, r.2)
  | .read inv blockId offset length =>
      let r := readBlockRpc c inv blockId offset length (d.found blockId) []
      (.chunks r.1 r.2, d)
  | .delete inv blockId =>
      let r := deleteBlockRpc c inv blockId d
      (.deleted r.1, r.2)
  | .list inv order _ =>
      let r := listStoredBlocks c inv ((order d.files.entries).map lookAt) []
      (.blocks r.1 r.2, d)

/-- What a node answers in order. -/
def serveAll (c : Config) : Directory → List Call → List Answer × Directory
  | d, [] => ([], d)
  | d, call :: calls =>
      let r := serve c d call
      let rs := serveAll c r.2 calls
      (r.1 :: rs.1, rs.2)

/-- The capability is one for the block and the operation. -/
def Admits (c : Config) (inv : Invocation) (blockId op : String) : Prop :=
  ∃ capability, blockCheck c inv.capability blockId op inv.now = .ok capability

/-- What a map behind the guard answers, and the map that it leaves. -/
inductive Meets (c : Config) (copies : Copies) : Call → Answer → Copies → Prop
  | written {inv : Invocation} {draw : Draw} {stream : Incoming} {blockId : String}
      {content : Bytes} (h : Asks c inv stream blockId content) :
      Meets c copies (.write inv draw stream)
        (.written (.ok (.written (hexDigest (c.crypto.sha256 content)) content.length)))
        (Function.update copies blockId (some (.intact content)))
  | forwarded {inv : Invocation} {draw : Draw} {stream : Incoming} {blockId : String}
      {downstream : List String} {rest : List Message} {capability : String}
      (hstream : stream.messages = .header blockId downstream :: rest)
      (hdownstream : downstream ≠ [])
      (hallowed : blockCheck c inv.capability blockId "write" inv.now = .ok capability) :
      Meets c copies (.write inv draw stream)
        (.written (.ok (.forward downstream capability))) copies
  | notWritten {inv : Invocation} {draw : Draw} {stream : Incoming} {e : RpcError}
      (hnot : ∀ blockId content, ¬Asks c inv stream blockId content) :
      Meets c copies (.write inv draw stream) (.written (.error e)) copies
  | read {inv : Invocation} {blockId : String} {offset length : Nat} {data : Bytes}
      {pieces : List Bytes} (hallowed : Admits c inv blockId "read")
      (hcopy : copies blockId = some (.intact data))
      (hpieces : pieces.flatten
        = asked data offset (if length = 0 then none else some length)) :
      Meets c copies (.read inv blockId offset length) (.chunks (.ok ()) pieces) copies
  -- a damaged block is read as far as it goes
  | damaged {inv : Invocation} {blockId : String} {offset length : Int} {pieces : List Bytes}
      {r : Except RpcError Unit} (hallowed : Admits c inv blockId "read")
      (hcopy : copies blockId = some .damaged) :
      Meets c copies (.read inv blockId offset length) (.chunks r pieces) copies
  | notRead {inv : Invocation} {blockId : String} {offset length : Int} {e : RpcError}
      (hnot : Admits c inv blockId "read" → 0 ≤ offset → 0 ≤ length → copies blockId = none) :
      Meets c copies (.read inv blockId offset length) (.chunks (.error e) []) copies
  | deleted {inv : Invocation} {blockId : String} (hallowed : Admits c inv blockId "delete")
      (hcopy : copies blockId ≠ none) :
      Meets c copies (.delete inv blockId) (.deleted (.ok ()))
        (Function.update copies blockId none)
  | notDeleted {inv : Invocation} {blockId : String} {e : RpcError}
      (hnot : Admits c inv blockId "delete" → copies blockId = none) :
      Meets c copies (.delete inv blockId) (.deleted (.error e)) copies
  | listed {inv : Invocation} {order : List (String × StoredFile) → List (String × StoredFile)}
      {hperm : ∀ entries, (order entries).Perm entries} {blocks : List Listed}
      (hallowed : internalCheck c inv.capability "list" inv.now = .ok ())
      (hnodup : (blocks.map (·.1)).Nodup)
      (hblocks : ∀ blockId, blockId ∈ blocks.map (·.1) ↔ copies blockId ≠ none)
      (hsizes : ∀ l ∈ blocks, ∀ data, copies l.1 = some (.intact data) →
        l.2.1 = data.length) :
      Meets c copies (.list inv order hperm) (.blocks (.ok ()) blocks) copies
  | notListed {inv : Invocation}
      {order : List (String × StoredFile) → List (String × StoredFile)}
      {hperm : ∀ entries, (order entries).Perm entries} {e : RpcError}
      (hnot : internalCheck c inv.capability "list" inv.now ≠ .ok ()) :
      Meets c copies (.list inv order hperm) (.blocks (.error e) []) copies

/-- Answer after answer. -/
inductive MeetsAll (c : Config) : Copies → List Call → List Answer → Copies → Prop
  | nil {copies : Copies} : MeetsAll c copies [] [] copies
  | cons {copies copies₁ copies' : Copies} {call : Call} {calls : List Call} {answer : Answer}
      {answers : List Answer} (h : Meets c copies call answer copies₁)
      (hrest : MeetsAll c copies₁ calls answers copies') :
      MeetsAll c copies (call :: calls) (answer :: answers) copies'

section Guard

variable {c : Config} {d : Directory} {copies : Copies}

theorem meets_write (h : Shows c.crypto c.encryptionKey d copies) (inv : Invocation)
    (draw : Draw) (stream : Incoming) :
    wp (writeBlockRpc c inv draw stream) d fun r d' => ∃ copies',
      Meets c copies (.write inv draw stream) (.written r) copies' ∧
        Shows c.crypto c.encryptionKey d' copies' := by
  refine wp_mono (writeBlockRpc_spec h inv draw stream) ?_
  rintro r d' (⟨hasks, hshows⟩ | ⟨hstream, hdownstream, hallowed, hshows⟩ | ⟨hnot, hshows⟩)
  · exact ⟨_, .written hasks, hshows⟩
  · exact ⟨_, .forwarded hstream hdownstream hallowed, hshows⟩
  · exact ⟨_, .notWritten hnot, hshows⟩

/-- The check of a capability of a block. -/
theorem wp_requireBlock {σ α : Type} {f : String → Action σ RpcError α} {s : σ}
    {token blockId op : String} {now : Time} {Q : Except RpcError α → σ → Prop}
    (hok : ∀ capability, blockCheck c token blockId op now = .ok capability →
      wp (f capability) s Q)
    (herror : ∀ e, (∀ capability, blockCheck c token blockId op now ≠ .ok capability) →
      Q (.error e) s) : wp (requireBlock c token blockId op now >>= f) s Q := by
  refine wp_ofExcept_cases (fun capability h => hok capability (mapError_eq_ok h)) ?_
  intro e he
  refine herror e fun capability hcheck => ?_
  rw [hcheck] at he
  cases he

/-- What a read of the directory gives. -/
theorem meets_store_read (h : Shows c.crypto c.encryptionKey d copies)
    (hcrypto : Lawful c.crypto) {inv : Invocation} {blockId : String} (offset length : Nat)
    (hallowed : Admits c inv blockId "read") :
    wp (store (readBlock c.crypto c.encryptionKey blockId (d.found blockId) chunkSizeBytes offset
      ((if length = 0 then none else some length).map Nat.cast))) [] fun r streamed =>
      Meets c copies (.read inv blockId offset length) (.chunks r streamed) copies := by
  cases hcopy : copies blockId with
  | none =>
      by_cases hid : ValidBlockId blockId
      · have hread := (h.absent hid hcopy).2 chunkSizeBytes offset
          (if length = 0 then none else some length)
        unfold wp store
        rw [hread]
        exact .notRead fun _ _ _ => hcopy
      · have hread : wp (readBlock c.crypto c.encryptionKey blockId (d.found blockId)
            chunkSizeBytes offset ((if length = 0 then none else some length).map Nat.cast)) []
            fun r ys => (∃ e, r = .error e) ∧ ys = [] := by
          refine wp_raiseIf_cases (fun _ => ⟨⟨_, rfl⟩, rfl⟩) fun _ => ?_
          refine wp_ofExcept_cases (fun _ hvalid => ?_) fun e _ => ⟨⟨e, rfl⟩, rfl⟩
          rw [validateBlockId, if_neg hid] at hvalid
          cases hvalid
        obtain ⟨⟨e, he⟩, hnone⟩ := hread
        unfold wp store
        rw [he, hnone]
        exact .notRead fun _ _ _ => hcopy
  | some copy =>
      cases copy with
      | damaged => exact .damaged hallowed hcopy
      | intact data =>
          obtain ⟨pieces, hread, hbytes⟩ := h.read hcrypto hcopy chunkSizeBytes_pos offset
            (if length = 0 then none else some length)
          unfold wp store
          rw [hread]
          exact .read hallowed hcopy hbytes

theorem meets_read (h : Shows c.crypto c.encryptionKey d copies) (hcrypto : Lawful c.crypto)
    (inv : Invocation) (blockId : String) (offset length : Int) :
    wp (readBlockRpc c inv blockId offset length (d.found blockId)) [] fun r streamed =>
      Meets c copies (.read inv blockId offset length) (.chunks r streamed) copies := by
  refine wp_requireBlock (fun capability hcheck => ?_) fun e hnot => ?_
  · refine wp_raiseIf_cases (fun hbad => ?_) fun hgood => ?_
    · exact .notRead fun _ _ _ => by omega
    · obtain ⟨n, rfl⟩ := Int.eq_ofNat_of_zero_le (a := offset) (by omega)
      obtain ⟨k, rfl⟩ := Int.eq_ofNat_of_zero_le (a := length) (by omega)
      have hlength : (if (k : Int) = 0 then none else some (k : Int))
          = (if k = 0 then none else some k).map Nat.cast := by
        by_cases hk : k = 0
        · rw [if_pos hk, if_pos (by omega)]
          rfl
        · rw [if_neg hk, if_neg (by omega)]
          rfl
      rw [hlength]
      exact meets_store_read h hcrypto n k ⟨capability, hcheck⟩
  · refine .notRead fun hadmits _ _ => ?_
    obtain ⟨capability, hcheck⟩ := hadmits
    exact absurd hcheck (hnot capability)

theorem meets_delete (h : Shows c.crypto c.encryptionKey d copies) (inv : Invocation)
    (blockId : String) :
    wp (deleteBlockRpc c inv blockId) d fun r d' => ∃ copies',
      Meets c copies (.delete inv blockId) (.deleted r) copies' ∧
        Shows c.crypto c.encryptionKey d' copies' := by
  refine wp_requireBlock (fun capability hcheck => ?_) fun e hnot => ?_
  · unfold wp store
    dsimp only
    cases hdelete : deleteBlock d blockId with
    | ok d' =>
        refine ⟨_, .deleted ⟨capability, hcheck⟩ fun hnone => ?_, shows_step h (.delete hdelete)⟩
        by_cases hid : ValidBlockId blockId
        · rw [(h.absent hid hnone).1] at hdelete
          cases hdelete
        · rw [deleteBlock, if_pos hid] at hdelete
          cases hdelete
    | error e =>
        exact ⟨_, .notDeleted fun _ => h.none_of_refused hdelete, h⟩
  · refine ⟨_, .notDeleted fun hadmits => ?_, h⟩
    obtain ⟨capability, hcheck⟩ := hadmits
    exact absurd hcheck (hnot capability)

theorem meets_list (h : Shows c.crypto c.encryptionKey d copies) (hcrypto : Lawful c.crypto)
    (hkey : c.encryptionKey.length = 32) (inv : Invocation)
    (order : List (String × StoredFile) → List (String × StoredFile))
    (hperm : ∀ entries, (order entries).Perm entries) :
    wp (listStoredBlocks c inv ((order d.files.entries).map lookAt)) [] fun r streamed =>
      Meets c copies (.list inv order hperm) (.blocks r streamed) copies := by
  refine wp_ofExcept_cases (fun _ hallowed => ?_) fun e he => ?_
  · obtain ⟨blocks, hlist, hnodup, hblocks, hlisted⟩ :=
      h.list hcrypto hkey inv.now (hperm d.files.entries)
    unfold wp store
    rw [hlist]
    exact .listed (mapError_eq_ok hallowed) hnodup hblocks fun l hmem => (hlisted l hmem).2
  · refine .notListed fun hallowed => ?_
    rw [hallowed] at he
    cases he

theorem meets_serve (h : Shows c.crypto c.encryptionKey d copies) (hcrypto : Lawful c.crypto)
    (hkey : c.encryptionKey.length = 32) (call : Call) :
    ∃ copies', Meets c copies call (serve c d call).1 copies' ∧
      Shows c.crypto c.encryptionKey (serve c d call).2 copies' := by
  cases call with
  | write inv draw stream => exact meets_write h inv draw stream
  | read inv blockId offset length =>
      exact ⟨copies, meets_read h hcrypto inv blockId offset length, h⟩
  | delete inv blockId => exact meets_delete h inv blockId
  | list inv order hperm => exact ⟨copies, meets_list h hcrypto hkey inv order hperm, h⟩

/-- **A DATANODE IS A MAP BEHIND A GUARD**: call after call, from any directory
    that shows a map, the answers are those of the map, a call without the
    right capability is refused and changes nothing, and the directory goes on
    showing what the map has become. -/
theorem datanode_is_a_guarded_map (h : Shows c.crypto c.encryptionKey d copies)
    (hcrypto : Lawful c.crypto) (hkey : c.encryptionKey.length = 32) (calls : List Call) :
    ∃ copies', MeetsAll c copies calls (serveAll c d calls).1 copies' ∧
      Shows c.crypto c.encryptionKey (serveAll c d calls).2 copies' := by
  induction calls generalizing d copies with
  | nil => exact ⟨copies, .nil, h⟩
  | cons call calls ih =>
      obtain ⟨copies₁, hmeets, hshows⟩ := meets_serve h hcrypto hkey call
      obtain ⟨copies', hrest, hshows'⟩ := ih hshows
      exact ⟨copies', .cons hmeets hrest, hshows'⟩

end Guard

/-- HMAC-SHA256 under a key of 32 times `k`, on the payloads that are signed here. -/
def holaHmac (message : Bytes) : Bytes :=
  if message = encodeAscii ("b:write:" ++ holaId ++ ":1060") then
    [155, 0, 96, 175, 210, 186, 172, 195, 181, 211, 143, 139, 198, 80, 6, 167, 103, 197,
     3, 0, 177, 146, 37, 77, 183, 225, 171, 191, 112, 67, 144, 206]
  else if message = encodeAscii ("b:read:" ++ holaId ++ ":1060") then
    [48, 255, 245, 234, 247, 176, 147, 57, 51, 47, 55, 129, 159, 110, 81, 187, 141, 226,
     109, 170, 66, 38, 195, 192, 149, 135, 67, 48, 22, 15, 32, 156]
  else if message = encodeAscii ("b:delete:" ++ marId ++ ":1304") then
    [120, 4, 87, 253, 192, 210, 29, 188, 126, 223, 65, 252, 126, 38, 72, 246, 115, 175,
     87, 67, 117, 137, 142, 143, 3, 164, 51, 33, 97, 124, 165, 152]
  else []

def guardedNode : Config := ⟨holaCrypto, holaKey, some holaHmac⟩

def holaWrite : Call :=
  .write ⟨sign holaHmac ("b:write:" ++ holaId ++ ":1060"), "", 1001⟩
    ⟨"a", holaPrefix, 1001, 1002⟩
    ⟨[.header holaId [], .data hola], false⟩

def holaRead (offset length : Int) : Call :=
  .read ⟨sign holaHmac ("b:read:" ++ holaId ++ ":1060"), "", 1003⟩ holaId offset length

/-- The block is written and read in the middle; its deletion is refused. -/
def holaCalls : List Call :=
  [holaWrite, holaRead 1 2, .delete ⟨sign holaHmac ("b:write:" ++ holaId ++ ":1060"), "", 1004⟩
    holaId]

theorem datanode_is_a_guarded_map_hola :
    ∃ copies', MeetsAll guardedNode (fun _ => none) holaCalls
        (serveAll guardedNode Directory.empty holaCalls).1 copies' ∧
      Shows holaCrypto holaKey (serveAll guardedNode Directory.empty holaCalls).2 copies' :=
  datanode_is_a_guarded_map (shows_empty guardedNode) lawful_holaCrypto rfl _

example : (serveAll guardedNode Directory.empty holaCalls).1.map (fun answer =>
      match answer with
      | .written (.ok (.written _ bytesWritten)) => (bytesWritten, [])
      | .chunks (.ok ()) streamed => (0, streamed)
      | _ => (0, []))
    = [(4, []), (0, [[111, 108]]), (0, [])] := by decide +kernel

end DfshaDataNode
