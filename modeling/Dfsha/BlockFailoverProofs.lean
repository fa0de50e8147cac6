import Dfsha.FileEditsProofs
import Dfsha.RoundTripProofs

/-! # Reading a block with failover

    The client asks the replicas of a block one after the other.  A replica
    may fail at any moment of its stream, when part of the block is already
    written: the client goes back to where the block began, discards what was
    written, and asks the next one if the failure is one that another replica
    may not have.

    What is written goes through a handle, which is a file or the region of a
    file that belongs to the block.  A handle moves a cursor and records the
    edits of the file. -/

namespace DfshaBlockFailover

open RaisingAction FileEdits DfshaPath DfshaBlockStore DfshaContainer DfshaBlockRead
open DfshaRoundTrip

/-! ## Errors of an RPC -/

/-- The status codes of gRPC. -/
inductive StatusCode where
  | ok | cancelled | unknown | invalidArgument | deadlineExceeded | notFound
  | alreadyExists | permissionDenied | resourceExhausted | failedPrecondition
  | aborted | outOfRange | unimplemented | internal | unavailable | dataLoss
  | unauthenticated
deriving DecidableEq

/-- An error of an RPC, with the `dfsha-error` entries of its metadata. -/
structure RpcError where
  code : StatusCode
  details : String
  domainErrors : List String
deriving DecidableEq

/-- The exceptions of the client. -/
inductive DomainError where
  | dfshaError | invalidPathError | pathNotFoundError | pathExistsError | notEmptyError
  | notAFileError | notADirectoryError | blockNotFoundError | blockCorruptedError
  | conflictError | accessDeniedError | authError
deriving DecidableEq

/-- `_ALLOWED_DOMAIN_ERROR_BY_NAME`. -/
def allowedDomainErrors : List (String × DomainError) :=
  [ ("InvalidPathError", .invalidPathError), ("PathNotFoundError", .pathNotFoundError)
  , ("PathExistsError", .pathExistsError), ("NotEmptyError", .notEmptyError)
  , ("NotAFileError", .notAFileError), ("NotADirectoryError", .notADirectoryError)
  , ("BlockNotFoundError", .blockNotFoundError)
  , ("BlockCorruptedError", .blockCorruptedError), ("ConflictError", .conflictError)
  , ("AccessDeniedError", .accessDeniedError), ("AuthError", .authError) ]

/-- `_metadata_error_type`. -/
def metadataErrorType (e : RpcError) : Option DomainError :=
  match e.domainErrors with
  | [name] => allowedDomainErrors.lookup name
  | _ => none

/-- `_STATUS_ERROR_MAP`, with its default. -/
def statusErrorType : StatusCode → DomainError
  | .notFound => .pathNotFoundError
  | .alreadyExists => .pathExistsError
  | .failedPrecondition => .notEmptyError
  | .permissionDenied => .invalidPathError
  | .invalidArgument => .notAFileError
  | .dataLoss => .blockCorruptedError
  | .aborted => .conflictError
  | .unauthenticated => .authError
  | _ => .dfshaError

/-- What a transfer ends with when it does not succeed. -/
inductive ClientError where
  | rpc (e : RpcError)
  | domain (cls : DomainError) (message : String)
  | cancelled
deriving DecidableEq

/-- `_translate`. -/
def translate (e : RpcError) : ClientError :=
  .domain ((metadataErrorType e).getD (statusErrorType e.code)) e.details

/-- `_is_recoverable_read_error`. -/
def isRecoverableReadError (e : RpcError) : Bool :=
  e.code = .unavailable ∨ e.code = .deadlineExceeded ∨ e.code = .dataLoss ∨
    e.code = .notFound ∧ metadataErrorType e = some .blockNotFoundError

/-! ## The DataNode -/

structure ReadBlockRequest where
  blockId : String
  offset : Int
  length : Int

/-- What arrives of a stream: data, and the error it ends with, if any. -/
structure Stream where
  chunks : List Bytes
  error : Option RpcError

/-- `_abort_on_domain_error`; an exception that is not a domain error ends the
    RPC with `UNKNOWN`. -/
def abortOnDomainError : StoreError → RpcError
  | .blockNotFound message => ⟨.notFound, message, ["BlockNotFoundError"]⟩
  | .blockCorrupted message => ⟨.dataLoss, message, ["BlockCorruptedError"]⟩
  | .valueError message =>
      ⟨.unknown, s!"Exception iterating responses: {message}", []⟩

/-- `DataNodeServicer.ReadBlock`, for a request whose capability was accepted. -/
def readBlockRpc (crypto : Crypto) (key : Bytes) (found : Found)
    (request : ReadBlockRequest) : Stream :=
  if request.offset < 0 ∨ request.length < 0 then
    let offset := request.offset
    let length := request.length
    ⟨[], some ⟨.invalidArgument, s!"rango inválido: offset={offset}, length={length}", []⟩⟩
  else
    -- 0 is to the end of the block
    let length := if request.length = 0 then none else some request.length
    match readBlock crypto key request.blockId found chunkSizeBytes request.offset length [] with
    | (.ok _, pieces) => ⟨pieces, none⟩
    | (.error e, pieces) => ⟨pieces, some (abortOnDomainError e)⟩

/-! ## The handle -/

/-- The position in a file that is open, and the edits made through it. -/
structure Cursor where
  position : Nat
  edits : List (Edit UInt8)

abbrev Transfer (α : Type) : Type := Action Cursor ClientError α

structure Handle where
  tell : Cursor → Nat
  seek : Nat → Cursor → Cursor
  truncate : Cursor → Cursor
  write : Bytes → Transfer Unit

/-- Data written where the cursor is. -/
def Cursor.put (data : Bytes) (c : Cursor) : Cursor where
  position := c.position + data.length
  edits := c.edits ++ [.put c.position data]

/-- A file that is open for this transfer alone. -/
def wholeFile : Handle where
  tell := Cursor.position
  seek := fun n c => { c with position := n }
  truncate := fun c => { c with edits := c.edits ++ [.cut c.position] }
  write := fun data => modify (Cursor.put data)

/-- `_RegionWriter`. -/
def regionWriter (start size : Nat) : Handle where
  tell := fun c => c.position - start
  seek := fun n c => { c with position := start + n }
  truncate := id
  write := fun data => do
    let c ← gets id
    raiseIf (size < c.position - start + data.length)
      (.domain .blockCorruptedError "una réplica envió más bytes que el tamaño del bloque")
    modify (Cursor.put data)

/-! ## The client -/

structure BlockLocation where
  blockId : String
  datanodeAddresses : List String
  sizeBytes : Int

/-- How the DataNodes answer: the attempt, the address, the request. -/
abbrev Network := Nat → String → ReadBlockRequest → Stream

section Client

variable (network : Network) (h : Handle) (stopped : Nat → Nat → Bool)

/-- `for chunk in call`.  `stopped i` says whether another transfer has failed
    by the time that the chunk `i` is here. -/
def writeChunks (stopped : Nat → Bool) : Nat → List Bytes → Transfer Unit
  | _, [] => pure ()
  | i, data :: rest => do
      raiseIf (stopped i) .cancelled
      h.write data
      writeChunks stopped (i + 1) rest

def noReplicas (blockId : String) : ClientError :=
  .domain .pathNotFoundError s!"el bloque {blockId} no tiene réplicas registradas"

/-- `for address in block.datanode_addresses`. -/
def tryReplicas (start : Nat) (request : ReadBlockRequest) :
    List String → Nat → Option RpcError → Transfer Nat
  | [], _, lastError => raise ((lastError.map .rpc).getD (noReplicas request.blockId))
  | address :: rest, attempt, _ => do
      let call := network attempt address request
      writeChunks h (stopped attempt) 0 call.chunks
      match call.error with
      | none => do
          let c ← gets h.tell
          pure (c - start)
      | some e => do
          modify fun c => h.truncate (h.seek start c)
          if isRecoverableReadError e then tryReplicas start request rest (attempt + 1) (some e)
          else raise (.rpc e)

/-- `_read_block_with_failover`. -/
def readBlockWithFailover (block : BlockLocation) (offset length : Int) : Transfer Nat := do
  let start ← gets h.tell
  tryReplicas network h stopped start ⟨block.blockId, offset, length⟩
    block.datanodeAddresses 0 none

end Client

/-- Nothing else can stop the transfer. -/
def never : Nat → Nat → Bool := fun _ _ => false

/-! ## What the replicas answer -/

/-- The replica has the block and answers the request from it. -/
def Serves (crypto : Crypto) (key data : Bytes) (answer : ReadBlockRequest → Stream)
    (request : ReadBlockRequest) : Prop :=
  ∃ pre, answer request
    = readBlockRpc crypto key (.still (container crypto key request.blockId pre data)) request

/-- The replica fails, at any moment of the stream, in a way that another one
    may not. -/
def FailsRecoverably (answer : ReadBlockRequest → Stream) (request : ReadBlockRequest) : Prop :=
  ∃ e, (answer request).error = some e ∧ isRecoverableReadError e

/-- Which replica a transfer gets its block from: the first that does not fail. -/
inductive Available (network : Network) (request : ReadBlockRequest) (data : Bytes) :
    Nat → List String → Prop
  | here {attempt : Nat} {address : String} {rest : List String}
      (hok : (network attempt address request).error = none)
      (hdata : (network attempt address request).chunks.flatten = data) :
      Available network request data attempt (address :: rest)
  | next {attempt : Nat} {address : String} {rest : List String} {e : RpcError}
      (hfail : (network attempt address request).error = some e)
      (hrecoverable : isRecoverableReadError e)
      (hrest : Available network request data (attempt + 1) rest) :
      Available network request data attempt (address :: rest)

section Answers

variable {crypto : Crypto} {key : Bytes} {blockId : String} {data : Bytes}

/-- A length of a request: 0 is to the end of the block. -/
def lengthAsked (length : Nat) : Option Nat := if length = 0 then none else some length

/-- **WHAT A REPLICA SERVES** of the block it stores. -/
theorem served_by {answer : ReadBlockRequest → Stream} (hcrypto : Lawful crypto)
    (hfits : Fits key blockId data) (offset length : Nat)
    (h : Serves crypto key data answer ⟨blockId, offset, length⟩) :
    (answer ⟨blockId, offset, length⟩).error = none ∧
    (answer ⟨blockId, offset, length⟩).chunks.flatten
      = asked data offset (lengthAsked length) := by
  obtain ⟨pre, hanswer⟩ := h
  have hread := readBlock_container pre hcrypto hfits chunkSizeBytes_pos offset
    (lengthAsked length)
  have hlength : (if (length : Int) = 0 then none else some (length : Int))
      = (lengthAsked length).map Nat.cast := by
    rw [lengthAsked]
    by_cases hzero : length = 0
    · rw [if_pos hzero, if_pos (by omega)]
      rfl
    · rw [if_neg hzero, if_neg (by omega)]
      rfl
  have hvalid : ¬((offset : Int) < 0 ∨ (length : Int) < 0) := by omega
  rw [hanswer, readBlockRpc, if_neg hvalid]
  unfold wp at hread
  dsimp only
  rw [hlength]
  generalize readBlock crypto key blockId _ chunkSizeBytes offset _ [] = ended at hread ⊢
  obtain ⟨r, pieces⟩ := ended
  obtain ⟨rfl, hpieces, _⟩ := hread
  exact ⟨rfl, hpieces⟩

/-- Each replica serves the request or fails, and one serves. -/
theorem available_of_replicas (hcrypto : Lawful crypto) (hfits : Fits key blockId data)
    (network : Network) {addresses : List String} (offset length attempt : Nat)
    (hall : ∀ k a, addresses[k]? = some a →
      Serves crypto key data (network (attempt + k) a) ⟨blockId, offset, length⟩ ∨
      FailsRecoverably (network (attempt + k) a) ⟨blockId, offset, length⟩)
    (hone : ∃ k a, addresses[k]? = some a ∧
      Serves crypto key data (network (attempt + k) a) ⟨blockId, offset, length⟩) :
    Available network ⟨blockId, offset, length⟩ (asked data offset (lengthAsked length))
      attempt addresses := by
  induction addresses generalizing attempt with
  | nil =>
      obtain ⟨k, a, hk, _⟩ := hone
      cases hk
  | cons address rest ih =>
      rcases hall 0 address rfl with hserves | hfails
      · obtain ⟨hok, hdata⟩ := served_by hcrypto hfits _ _ hserves
        exact .here hok hdata
      · by_cases hhere : Serves crypto key data (network attempt address)
            ⟨blockId, offset, length⟩
        · obtain ⟨hok, hdata⟩ := served_by hcrypto hfits _ _ hhere
          exact .here hok hdata
        · obtain ⟨e, hfail, hrecoverable⟩ := hfails
          refine .next hfail hrecoverable (ih (attempt + 1) ?_ ?_)
          · intro k a hk
            rw [Nat.add_right_comm]
            exact hall (k + 1) a hk
          · obtain ⟨k, a, hk, hserves⟩ := hone
            cases k with
            | zero =>
                obtain rfl := Option.some.inj hk
                exact absurd hserves hhere
            | succ k => exact ⟨k, a, hk, by rw [Nat.add_right_comm]; exact hserves⟩

end Answers

/-! ## Writing to a file of one's own -/

/-- The file has these contents and the cursor is at its end. -/
def AtEnd (file : Bytes) (c : Cursor) (content : Bytes) : Prop :=
  applyAll c.edits file = content ∧ c.position = content.length

section WholeFile

variable {file content : Bytes} {c : Cursor}

theorem atEnd_put (h : AtEnd file c content) (data : Bytes) :
    AtEnd file (c.put data) (content ++ data) := by
  obtain ⟨hcontent, hposition⟩ := h
  constructor
  · show applyAll (c.edits ++ [.put c.position data]) file = _
    rw [applyAll_append, hcontent, hposition]
    exact apply_put_end data
  · show c.position + data.length = _
    rw [hposition, List.length_append]

/-- What was written after the end of the block before is discarded. -/
theorem atEnd_truncate {written : Bytes} (h : AtEnd file c (content ++ written)) :
    AtEnd file (wholeFile.truncate (wholeFile.seek content.length c)) content := by
  refine ⟨?_, rfl⟩
  show applyAll (c.edits ++ [.cut content.length]) file = _
  rw [applyAll_append, h.1]
  exact apply_cut_append written

theorem writeChunks_wholeFile (h : AtEnd file c content) (chunks : List Bytes) (i : Nat) :
    wp (writeChunks wholeFile (fun _ => false) i chunks) c fun r c' =>
      r = .ok () ∧ AtEnd file c' (content ++ chunks.flatten) := by
  induction chunks generalizing c content i with
  | nil =>
      refine ⟨rfl, ?_⟩
      rw [List.flatten_nil, List.append_nil]
      exact h
  | cons data rest ih =>
      refine wp_raiseIf_passed Bool.false_ne_true (wp_modify ?_)
      rw [List.flatten_cons, ← List.append_assoc]
      exact ih (atEnd_put h data) (i + 1)

/-- **FAILOVER LEAVES ONE BLOCK**: what the replica that served has sent, and
    nothing of those that failed before. -/
theorem tryReplicas_available {network : Network} {request : ReadBlockRequest}
    {data : Bytes} {attempt : Nat} {addresses : List String}
    (havailable : Available network request data attempt addresses)
    (last : Option RpcError) (h : AtEnd file c content) :
    wp (tryReplicas network wholeFile never content.length request addresses attempt last) c
      fun r c' => r = .ok data.length ∧ AtEnd file c' (content ++ data) := by
  induction havailable generalizing c last with
  | @here attempt address rest hok hdata =>
      refine wp_call (writeChunks_wholeFile h _ 0) ?_ (fun _ _ hr => by cases hr.1)
      rintro _ c' ⟨_, hend⟩
      rw [hdata] at hend
      rw [hok]
      refine wp_gets (wp_ret ⟨congrArg Except.ok ?_, hend⟩)
      show c'.position - content.length = data.length
      rw [hend.2, List.length_append, Nat.add_sub_cancel_left]
  | @next attempt address rest e hfail hrecoverable _ ih =>
      refine wp_call (writeChunks_wholeFile h _ 0) ?_ (fun _ _ hr => by cases hr.1)
      rintro _ c' ⟨_, hend⟩
      rw [hfail]
      refine wp_modify ?_
      rw [if_pos hrecoverable]
      exact ih (some e) (atEnd_truncate hend)

/-- Where every replica fails, the transfer does. -/
theorem tryReplicas_failed {network : Network} {request : ReadBlockRequest} {start : Nat}
    {attempt : Nat} {addresses : List String} {last : Option RpcError}
    (hall : ∀ k a, addresses[k]? = some a →
      ∃ e, (network (attempt + k) a request).error = some e) :
    wp (tryReplicas network wholeFile never start request addresses attempt last) c
      fun r _ => ∃ e, r = .error e := by
  induction addresses generalizing attempt last c with
  | nil =>
      exact ⟨_, rfl⟩
  | cons address rest ih =>
      obtain ⟨e, hfail⟩ := hall 0 address rfl
      rw [Nat.add_zero] at hfail
      refine wp_call (P := fun _ _ => True) trivial ?_ (fun e' _ _ => ⟨e', rfl⟩)
      rintro _ c' _
      rw [hfail]
      refine wp_modify ?_
      by_cases hrecoverable : isRecoverableReadError e = true
      · rw [if_pos hrecoverable]
        refine ih fun k a hk => ?_
        rw [Nat.add_right_comm]
        exact hall (k + 1) a hk
      · rw [if_neg hrecoverable]
        exact ⟨_, rfl⟩

end WholeFile

end DfshaBlockFailover
