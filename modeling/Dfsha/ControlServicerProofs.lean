import Dfsha.BlockFailoverProofs
import Dfsha.BlockLayoutProofs
import Dfsha.PasswordChangeProofs

/-! # The RPCs of the control node

    A handler authenticates its caller, reads the tree behind a barrier or
    commits a mutation through the log, and turns the domain exceptions that
    it names into an abort.  An abort leaves the handler too, so it is an
    error of the computation like an exception; what no `except` clause names
    leaves the handler as it is, and gRPC ends the RPC with `UNKNOWN`.

    What happens outside of the handler is its `Context`: the configuration of
    the node, whose token it is, who is leader when, which commands of others
    are applied before its own, and the values that the leader draws. -/

namespace DfshaControlServicer

open InsertionDict RaisingAction DfshaPath DfshaControlTree DfshaReplicatedTree
open DfshaOperationKey DfshaBlockLayout
open DfshaBlockFailover (StatusCode RpcError DomainError)
open DfshaPasswordChange (Refusal verifiedUser hashPassword checkNewPassword)

/-! ## Domain exceptions and their status -/

/-- The class in `dfsha.common.exceptions`; none for an exception of the
    interpreter. -/
def domainError : ErrorClass → Option DomainError
  | .dfshaError => some .dfshaError
  | .invalidPathError => some .invalidPathError
  | .pathNotFoundError => some .pathNotFoundError
  | .pathExistsError => some .pathExistsError
  | .notEmptyError => some .notEmptyError
  | .notAFileError => some .notAFileError
  | .notADirectoryError => some .notADirectoryError
  | .conflictError => some .conflictError
  | .accessDeniedError => some .accessDeniedError
  | .zeroDivisionError | .indexError | .valueError | .typeError | .attributeError => none

/-- `type(exc).__name__`. -/
def className : DomainError → String
  | .dfshaError => "DFShaError"
  | .invalidPathError => "InvalidPathError"
  | .pathNotFoundError => "PathNotFoundError"
  | .pathExistsError => "PathExistsError"
  | .notEmptyError => "NotEmptyError"
  | .notAFileError => "NotAFileError"
  | .notADirectoryError => "NotADirectoryError"
  | .blockNotFoundError => "BlockNotFoundError"
  | .blockCorruptedError => "BlockCorruptedError"
  | .conflictError => "ConflictError"
  | .accessDeniedError => "AccessDeniedError"
  | .authError => "AuthError"

/-- `_ERROR_STATUS_MAP`. -/
def errorStatus : DomainError → Option StatusCode
  | .pathNotFoundError => some .notFound
  | .pathExistsError => some .alreadyExists
  | .notEmptyError => some .failedPrecondition
  | .invalidPathError => some .permissionDenied
  | .notAFileError => some .invalidArgument
  | .notADirectoryError => some .invalidArgument
  | .conflictError => some .aborted
  | .accessDeniedError => some .permissionDenied
  | .authError => some .unauthenticated
  | .dfshaError | .blockNotFoundError | .blockCorruptedError => none

/-- `_abort_on_domain_error`: the status and the one `dfsha-error` entry. -/
def abortOnDomainError (cls : DomainError) (message : String) : RpcError :=
  ⟨(errorStatus cls).getD .unknown, message, [className cls]⟩

/-! ## Handlers -/

/-- How a handler is left other than by returning. -/
inductive Exit where
  | aborted (e : RpcError)
  | raised (e : PyError)
deriving DecidableEq

/-- The replicated tree, the `DeleteBlock` calls sent, and the exceptions that
    the handler and the tree operations it performs have raised. -/
structure Serving where
  replicated : ReplicatedTree
  deletions : List (String × String)
  raised : List PyError

abbrev Handler (α : Type) : Type := Action Serving Exit α

/-- How a commit ends for the node that asks for it: its outcome arrives, the
    node is no longer leader, or nothing is known in time, and the command is
    applied meanwhile or not. -/
inductive Fate where
  | confirmed
  | unavailable
  | unknown (reason : String) (applied : Bool)
deriving DecidableEq

structure Context where
  -- the configuration of the node
  authentication : Bool
  blockSizeBytes : Int
  uploadLeaseS : Time
  lockLeaseS : Time
  datanodeAddresses : List String
  -- whose the one token of the call is, each time it is looked at, or why it is refused
  token : Except String Principal
  tokenAtCommit : Except String Principal
  samePrincipal : ∀ p p', token = .ok p → tokenAtCommit = .ok p' → p' = p
  peer : String
  -- leadership, and the commands of others applied before the own one
  leaderAtRead : Bool
  barrier : Bool
  leaderAtCommit : Bool
  others : List Command
  fate : Fate
  -- what the leader draws: `blocks n` is `n` block ids with their replicas
  now : Time
  lockId : String
  writeId : String
  blocks : Nat → Except String (List (String × List String))
  length_blocks : ∀ n proposed, blocks n = .ok proposed → proposed.length = n
  scrypt : String → List UInt8 → List UInt8
  salt : List UInt8
  -- what protobuf says of a field that is given a value of another type
  fieldError : String
  -- what `ListStoredBlocks` answers
  storedBlocks : Except String (List (String × Int))

def abort {α : Type} (e : RpcError) : Handler α := raise (.aborted e)

def abortIf (cond : Prop) [Decidable cond] (e : RpcError) : Handler Unit :=
  raiseIf cond (.aborted e)

/-- A `raise` of the handler itself. -/
def raiseError {α : Type} (e : PyError) : Handler α := do
  modify fun s => { s with raised := s.raised ++ [e] }
  raise (.raised e)

def raiseErrorIf (cond : Prop) [Decidable cond] (e : PyError) : Handler Unit :=
  if cond then raiseError e else pure ()

/-- A pure call. -/
def ofPure {α : Type} : Except PyError α → Handler α
  | .ok a => pure a
  | .error e => raiseError e

/-- What `except` makes of an exception that it catches. -/
def exitOf (e : PyError) : Exit :=
  match domainError e.cls with
  | some cls => .aborted (abortOnDomainError cls e.message)
  | none => .raised e

/-- What an `except` clause makes of the end of what it guards. -/
def handled {α : Type} (caught : List ErrorClass) : Except Exit α → Except Exit α
  | .error (.raised e) => .error (if e.cls ∈ caught then exitOf e else .raised e)
  | r => r

/-- `try: … except caught as exc: _abort_on_domain_error(context, exc)`. -/
def tryExcept {α : Type} (caught : List ErrorClass) (x : Handler α) : Handler α := fun s =>
  (handled caught (x s).1, (x s).2)

section Steps

variable (c : Context)

/-- `_authenticate`. -/
def authenticate (token : Except String Principal) : Handler (Option Principal) :=
  if c.authentication then
    match token with
    | .ok principal => pure (some principal)
    | .error message => abort (abortOnDomainError .authError message)
  else pure none

/-- `_caller`. -/
def callerOf (principal : Option Principal) : Option Caller :=
  principal.map fun p => ⟨p.username, p.groups, p.isAdmin⟩

def requireLeader (isLeader : Bool) : Handler Unit :=
  abortIf (isLeader = false) ⟨.unavailable, "este ControlNode no es el líder", []⟩

/-- `_read_barrier`. -/
def readBarrier : Handler Unit := do
  requireLeader c.leaderAtRead
  abortIf (c.barrier = false)
    ⟨.unavailable, "no se pudo confirmar el liderazgo para leer", []⟩

def getTree : Handler ControlTree := gets fun s => s.replicated.tree

/-- An operation of the tree that only reads. -/
def readTree {α : Type} (x : TreeM α) : Handler α := do
  let s ← getTree
  ofPure (x s).1

/-- The exception that a command raises inside `apply`, if it is executed. -/
def raisedBy (command : Command) (s : ReplicatedTree) : List PyError :=
  match s.appliedOps.get? command.opId, command.call with
  | none, .mutation μ =>
      match (exec μ s.tree).1 with
      | .error e => [e]
      | .ok _ => []
  | _, _ => []

def applyCommand (command : Command) : Handler Outcome := fun s =>
  (.ok (apply command s.replicated).1,
    { s with
      replicated := (apply command s.replicated).2
      raised := s.raised ++ raisedBy command s.replicated })

/-- The commands of others, up to the own one. -/
def applyOthers (s : Serving) : Serving :=
  { s with replicated := c.others.foldl (fun s command => (apply command s).2) s.replicated }

/-- A command whose outcome does not arrive. -/
def applyUnseen (command : Command) (applied : Bool) (s : Serving) : Serving :=
  if applied then { s with replicated := (apply command s.replicated).2 } else s

/-- `_commit_raw`: the outcome, or why there is none.  A command whose outcome
    is unknown may also be applied later, like one of others. -/
def commitRaw (command : Command) : Handler (Except String Outcome) := do
  modify (applyOthers c)
  match c.fate with
  | .confirmed => do
      let outcome ← applyCommand command
      pure (.ok outcome)
  | .unavailable => pure (.error "este ControlNode no es el líder")
  | .unknown reason applied => do
      modify (applyUnseen command applied)
      pure (.error reason)

/-- The end of `_commit`: the result, or the exception that the tree raised. -/
def resultOf : Except String Outcome → Handler Ret
  | .error reason => abort ⟨.unavailable,
      s!"no se pudo confirmar en el clúster ({reason}); reintentar con el mismo op_id", []⟩
  | .ok (.error cls message) => raise (.raised ⟨cls, message⟩)
  | .ok (.ok result) => pure result

/-- `_commit`. -/
def commit (opId : String) (μ : Mutation) : Handler Ret := do
  abortIf (opId = "") ⟨.invalidArgument, "falta op_id", []⟩
  requireLeader c.leaderAtCommit
  let principal ← authenticate c c.tokenAtCommit
  let outcome ← commitRaw c ⟨commitKey principal opId, .mutation μ⟩
  resultOf outcome

/-- What the interpreter says of a result that has another shape. -/
inductive ShapeError where
  | notIterable (type : String)
  | notUnpacked (type : String)
  | noAddresses (type : String)
  | arity (expected got : Nat)
  | field (message : String)

def ShapeError.toPyError : ShapeError → PyError
  | .notIterable type => ⟨.typeError, s!"{pyRepr type} object is not iterable"⟩
  | .notUnpacked type => ⟨.typeError, s!"cannot unpack non-iterable {type} object"⟩
  | .noAddresses type => ⟨.attributeError,
      pyRepr type ++ " object has no attribute 'datanode_addresses'"⟩
  | .arity expected got => ⟨.valueError,
      if got < expected then
        s!"not enough values to unpack (expected {expected}, got {got})"
      else s!"too many values to unpack (expected {expected})"⟩
  | .field message => ⟨.typeError, message⟩

/-- A result that the handler takes apart.  It may be that of another operation
    under a reused id; then what it does depends on the shape alone. -/
def unpack {α : Type} (view : Ret → Except ShapeError α) (result : Ret) : Handler α :=
  ofPure ((view result).mapError ShapeError.toPyError)

/-- `for block in result`, where `_delete_blocks` reads the addresses. -/
def blocksOf : Ret → Except ShapeError (List BlockRecord)
  | .removed blocks => .ok blocks
  | .writeAborted reserved => .ok reserved
  | .none => .error (.notIterable "NoneType")
  | .uploadBegun _ _ => .error (.noAddresses "list")
  | .writeCommitted _ _ => .error (.noAddresses "int")
  | .writeBegun _ _ _ _ => .error (.noAddresses "str")
  | .lockTaken lockId => if lockId = "" then .ok [] else .error (.noAddresses "str")

/-- `_, blocks = result`, where `_delete_blocks` goes through the second one: the
    blocks of an upload that was taken over, and those that a write replaced. -/
def secondOf : Ret → Except ShapeError (List BlockRecord)
  | .uploadBegun _ staleBlocks => .ok staleBlocks
  | .writeCommitted _ replaced => .ok replaced
  | .none => .error (.notUnpacked "NoneType")
  | .removed blocks | .writeAborted blocks =>
      .error (if blocks.length = 2 then .notIterable "BlockRecord" else .arity 2 blocks.length)
  | .writeBegun _ _ _ _ => .error (.arity 2 4)
  | .lockTaken lockId =>
      .error (if lockId.length = 2 then .noAddresses "str" else .arity 2 lockId.length)

/-- `for block_id, addresses in placements`, the first one of two. -/
def placementsOf : Ret → Except ShapeError (List (String × List String))
  | .uploadBegun placements _ => .ok placements
  | _ => .error (.notIterable "int")

/-- `version=version`, the first one of two. -/
def versionOf (fieldError : String) : Ret → Except ShapeError Int
  | .writeCommitted version _ => .ok version
  | _ => .error (.field fieldError)

/-- `lock_id=committed_lock_id`, where None leaves the field empty. -/
def lockIdOf (fieldError : String) : Ret → Except ShapeError String
  | .lockTaken lockId => .ok lockId
  | .none => .ok ""
  | _ => .error (.field fieldError)

/-- `write_id, base_version, block_size, slots = result`, and the slots have seven
    values each. -/
def writeOf : Ret → Except ShapeError (String × Int × Int × List SlotDescription)
  | .writeBegun writeId version blockSize slots => .ok (writeId, version, blockSize, slots)
  | .none => .error (.notUnpacked "NoneType")
  | .removed blocks | .writeAborted blocks =>
      .error (if blocks.length = 4 then .notIterable "BlockRecord" else .arity 4 blocks.length)
  | .uploadBegun _ _ | .writeCommitted _ _ => .error (.arity 4 2)
  | .lockTaken lockId =>
      .error (if lockId.length = 4 then .arity 7 1 else .arity 4 lockId.length)

/-- `_delete_blocks`: best effort, failures are ignored. -/
def deleteBlocks (blocks : List BlockRecord) : Handler Unit :=
  modify fun s => { s with
    deletions := s.deletions ++
      blocks.flatMap fun b => b.datanodeAddresses.map (Prod.mk b.blockId) }

/-- The block ids and replicas of a proposal; with too few DataNodes alive the
    RPC is aborted. -/
def proposeBlocks (n : Nat) : Handler (List (String × List String)) :=
  match c.blocks n with
  | .ok proposed => pure proposed
  | .error message => abort ⟨.unavailable, message, []⟩

/-- The session that an RPC about users needs. -/
def requireSession : Option Principal → Handler Principal
  | some principal => pure principal
  | none => abort ⟨.unimplemented, "este clúster no tiene autenticación: "
      ++ "los ControlNodes arrancaron sin --jwt-secret-file", []⟩

def checkPassword (password : String) : Handler Unit :=
  match checkNewPassword password with
  | .error (.domain e) => raiseError e
  | _ => pure ()

end Steps

/-! ## The RPCs -/

inductive Response where
  | done
  | entries (entries : List DirEntryData)
  | locations (blocks : List (String × List String × Int))
  | blocks (blocks : List BlockRecord)
  | lock (lockId : String) (leaseS : Time)
  | write (writeId : String) (baseVersion blockSize : Int) (leaseS : Time)
      (slots : List SlotDescription)
  | version (version : Int)
  | session (username : String) (groups : List String) (isAdmin : Bool)
  | inventory (blocks : List (String × Int))

/-- The requests of `ControlNodeService`. -/
inductive Request where
  | listDir (path : String)
  | makeDir (path opId : String)
  | removeDir (path opId : String)
  | remove (path opId : String)
  | beginUpload (path : String) (sizeBytes : Int) (opId : String)
  | confirmBlock (path blockId checksum : String) (sizeBytes : Int) (opId : String)
  | completeUpload (path opId : String)
  | abortUpload (path opId : String)
  | listBlocks (path : String)
  | lock (path mode opId : String)
  | renewLock (path lockId opId : String)
  | unlock (path lockId opId : String)
  | beginWrite (path : String) (offset length : Int) (lockId opId : String)
  | commitWrite (path writeId : String) (baseVersion : Int) (lockId : String)
      (slots : List (Int × String × String × Int)) (opId : String)
  | abortWrite (path writeId lockId opId : String)
  | login (username password : String)
  | createUser (username password : String) (groups : List String) (isAdmin : Bool)
      (opId : String)
  | changePassword (username currentPassword newPassword opId : String)
  | chmod (path : String) (mode : Int) (opId : String)
  | chown (path owner group opId : String)
  | dataNodeInventory (address : String)

section Handlers

variable (c : Context)

def serveListDir (path : String) : Handler Response := do
  let principal ← authenticate c c.token
  readBarrier c
  let entries ← tryExcept
    [.pathNotFoundError, .notADirectoryError, .invalidPathError, .accessDeniedError]
    (readTree (listDir path (callerOf principal)))
  pure (.entries entries)

def serveMakeDir (path opId : String) : Handler Response := do
  let principal ← authenticate c c.token
  let _ ← tryExcept
    [.pathExistsError, .pathNotFoundError, .notADirectoryError, .invalidPathError,
      .accessDeniedError]
    (commit c opId (.makeDir path (callerOf principal)))
  pure .done

def serveRemoveDir (path opId : String) : Handler Response := do
  let principal ← authenticate c c.token
  let _ ← tryExcept
    [.pathNotFoundError, .notADirectoryError, .notEmptyError, .invalidPathError,
      .accessDeniedError]
    (commit c opId (.removeDir path (callerOf principal)))
  pure .done

def serveRemove (path opId : String) : Handler Response := do
  let principal ← authenticate c c.token
  let result ← tryExcept
    [.pathNotFoundError, .notAFileError, .notADirectoryError, .invalidPathError,
      .conflictError, .accessDeniedError]
    (commit c opId (.removeFile path (some c.now) (callerOf principal)))
  let blocks ← unpack blocksOf result
  deleteBlocks blocks
  pure .done

/-- The sizes that `BeginUpload` gives to the placements. -/
def locate (blockSize : Int) : List (String × List String) → Int →
    List (String × List String × Int)
  | [], _ => []
  | (blockId, addresses) :: rest, remaining =>
      (blockId, addresses, min blockSize remaining) ::
        locate blockSize rest (remaining - min blockSize remaining)

def serveBeginUpload (path : String) (sizeBytes : Int) (opId : String) :
    Handler Response := do
  let principal ← authenticate c c.token
  abortIf (sizeBytes ≤ 0)
    (abortOnDomainError .invalidPathError "size_bytes debe ser mayor a 0")
  let count ← ofPure (numBlocks sizeBytes c.blockSizeBytes)
  let proposed ← proposeBlocks c count
  let result ← tryExcept
    [.pathExistsError, .notADirectoryError, .invalidPathError, .accessDeniedError]
    (commit c opId (.beginUpload path proposed (some c.now) (some c.uploadLeaseS)
      (some c.blockSizeBytes) (callerOf principal)))
  -- the answer is written from the outcome, which may be that of an earlier try
  let staleBlocks ← unpack secondOf result
  deleteBlocks staleBlocks
  let placements ← unpack placementsOf result
  pure (.locations (locate c.blockSizeBytes placements sizeBytes))

def serveConfirmBlock (path blockId checksum : String) (sizeBytes : Int) (opId : String) :
    Handler Response := do
  let principal ← authenticate c c.token
  let _ ← tryExcept [.pathNotFoundError, .invalidPathError, .accessDeniedError]
    (commit c opId (.confirmBlock path blockId checksum sizeBytes (some c.now)
      (some c.uploadLeaseS) (callerOf principal)))
  pure .done

def serveCompleteUpload (path opId : String) : Handler Response := do
  let principal ← authenticate c c.token
  let _ ← tryExcept [.pathNotFoundError, .invalidPathError, .accessDeniedError]
    (commit c opId (.completeUpload path (callerOf principal)))
  pure .done

def serveAbortUpload (path opId : String) : Handler Response := do
  let principal ← authenticate c c.token
  readBarrier c
  -- read before the commit; a path that cannot be read has no blocks
  let s ← getTree
  let _ ← tryExcept
    [.pathNotFoundError, .notADirectoryError, .invalidPathError, .accessDeniedError]
    (commit c opId (.abortUpload path (callerOf principal)))
  deleteBlocks (pendingBlocks s path)
  pure .done

def serveListBlocks (path : String) : Handler Response := do
  let principal ← authenticate c c.token
  readBarrier c
  let blocks ← tryExcept [.pathNotFoundError, .invalidPathError, .accessDeniedError]
    (readTree (listBlocks path (callerOf principal)))
  pure (.blocks blocks)

def serveLock (path mode opId : String) : Handler Response := do
  let principal ← authenticate c c.token
  -- the owner is the user; without authentication, the connection
  let owner := (principal.map Principal.username).getD c.peer
  let result ← tryExcept
    [.pathNotFoundError, .invalidPathError, .conflictError, .accessDeniedError]
    (commit c opId (.acquireLock path c.lockId owner mode c.now c.lockLeaseS
      (callerOf principal)))
  let lockId ← unpack (lockIdOf c.fieldError) result
  pure (.lock lockId c.lockLeaseS)

def serveRenewLock (path lockId opId : String) : Handler Response := do
  let _ ← authenticate c c.token
  let _ ← tryExcept [.pathNotFoundError, .invalidPathError, .conflictError]
    (commit c opId (.renewLock path lockId c.now c.lockLeaseS))
  pure .done

def serveUnlock (path lockId opId : String) : Handler Response := do
  let _ ← authenticate c c.token
  let _ ← tryExcept [.pathNotFoundError, .conflictError]
    (commit c opId (.releaseLock path lockId (some c.now)))
  pure .done

def serveBeginWrite (path : String) (offset length : Int) (lockId opId : String) :
    Handler Response := do
  let principal ← authenticate c c.token
  let caller := callerOf principal
  readBarrier c
  let (version, plan) ← tryExcept
    [.pathNotFoundError, .invalidPathError, .accessDeniedError] (do
      let (version, blockSize, sizes) ← readTree (writeLayout path c.blockSizeBytes caller)
      let plan ← ofPure (planWriteSlots sizes blockSize offset length)
      pure (version, plan))
  let proposed ← proposeBlocks c plan.length
  let result ← tryExcept
    [.pathNotFoundError, .invalidPathError, .conflictError, .accessDeniedError]
    (commit c opId (.beginWrite path c.writeId lockId version offset length
      ((plan.map Prod.fst).zip proposed) c.now c.uploadLeaseS c.blockSizeBytes caller))
  let (writeId, baseVersion, blockSize, slots) ← unpack writeOf result
  pure (.write writeId baseVersion blockSize c.uploadLeaseS slots)

def serveCommitWrite (path writeId : String) (baseVersion : Int) (lockId : String)
    (slots : List (Int × String × String × Int)) (opId : String) : Handler Response := do
  let principal ← authenticate c c.token
  let result ← tryExcept
    [.pathNotFoundError, .invalidPathError, .conflictError, .accessDeniedError]
    (commit c opId (.commitWrite path writeId lockId baseVersion slots c.now
      (callerOf principal)))
  let replaced ← unpack secondOf result
  deleteBlocks replaced
  let version ← unpack (versionOf c.fieldError) result
  pure (.version version)

def serveAbortWrite (path writeId lockId opId : String) : Handler Response := do
  let _ ← authenticate c c.token
  let result ← tryExcept [.pathNotFoundError, .invalidPathError, .conflictError]
    (commit c opId (.abortWrite path writeId lockId (some c.now)))
  let reserved ← unpack blocksOf result
  deleteBlocks reserved
  pure .done

/-- The one RPC without a token: it is the one that hands it out. -/
def serveLogin (username password : String) : Handler Response := do
  abortIf (c.authentication = false) ⟨.unimplemented, "este clúster no tiene autenticación: "
    ++ "los ControlNodes arrancaron sin --jwt-secret-file", []⟩
  readBarrier c
  let s ← getTree
  match verifiedUser c.scrypt s username password with
  | none => abort (abortOnDomainError .authError "usuario o contraseña incorrectos")
  | some user => pure (.session username user.groups user.isAdmin)

def maxUserGroups : Nat := 16

def serveCreateUser (username password : String) (groups : List String) (isAdmin : Bool)
    (opId : String) : Handler Response := do
  let session ← authenticate c c.token
  let principal ← requireSession session
  let _ ← tryExcept [.accessDeniedError, .invalidPathError, .pathExistsError] (do
    raiseErrorIf (principal.isAdmin = false)
      ⟨.accessDeniedError, "solo un admin puede crear usuarios"⟩
    checkPassword password
    raiseErrorIf (maxUserGroups < groups.length) ⟨.invalidPathError,
      s!"un usuario no puede tener más de {maxUserGroups} grupos"⟩
    let hashed := hashPassword c.scrypt password c.salt
    commit c opId (.createUser username hashed.1 hashed.2
      (if groups = [] then [username] else groups) isAdmin))
  pure .done

/-- Who may change a password: an admin, or the user with the current one. -/
def checkMayChange (principal : Principal) (target currentPassword : String) :
    Handler Unit :=
  if target ≠ principal.username then
    raiseErrorIf (principal.isAdmin = false)
      ⟨.accessDeniedError, "solo un admin puede cambiar la contraseña de otro usuario"⟩
  else do
    readBarrier c
    let s ← getTree
    raiseErrorIf ((verifiedUser c.scrypt s target currentPassword).isNone = true)
      ⟨.accessDeniedError, "contraseña actual incorrecta"⟩

def serveChangePassword (username currentPassword newPassword opId : String) :
    Handler Response := do
  let session ← authenticate c c.token
  let principal ← requireSession session
  let target := if username ≠ "" then username else principal.username
  let _ ← tryExcept [.accessDeniedError, .invalidPathError, .pathNotFoundError] (do
    checkMayChange c principal target currentPassword
    checkPassword newPassword
    let hashed := hashPassword c.scrypt newPassword c.salt
    commit c opId (.changePassword target hashed.1 hashed.2))
  pure .done

def serveChmod (path : String) (mode : Int) (opId : String) : Handler Response := do
  let principal ← authenticate c c.token
  let _ ← tryExcept [.pathNotFoundError, .invalidPathError, .accessDeniedError]
    (commit c opId (.chmod path mode (callerOf principal)))
  pure .done

def serveChown (path owner group opId : String) : Handler Response := do
  let principal ← authenticate c c.token
  let _ ← tryExcept [.pathNotFoundError, .invalidPathError, .accessDeniedError]
    (commit c opId (.chown path owner group (callerOf principal)))
  pure .done

def serveDataNodeInventory (address : String) : Handler Response := do
  let principal ← authenticate c c.token
  tryExcept [.accessDeniedError, .invalidPathError] (do
    raiseErrorIf (principal.any fun p => !p.isAdmin)
      ⟨.accessDeniedError, "solo un admin puede ver el inventario de un DataNode"⟩
    raiseErrorIf (address ∉ c.datanodeAddresses)
      ⟨.invalidPathError, s!"DataNode desconocido: {pyRepr address}"⟩)
  match c.storedBlocks with
  | .ok blocks => pure (.inventory blocks)
  | .error details => abort ⟨.unavailable, s!"no se pudo listar {address}: {details}", []⟩

def handler : Request → Handler Response
  | .listDir path => serveListDir c path
  | .makeDir path opId => serveMakeDir c path opId
  | .removeDir path opId => serveRemoveDir c path opId
  | .remove path opId => serveRemove c path opId
  | .beginUpload path sizeBytes opId => serveBeginUpload c path sizeBytes opId
  | .confirmBlock path blockId checksum sizeBytes opId =>
      serveConfirmBlock c path blockId checksum sizeBytes opId
  | .completeUpload path opId => serveCompleteUpload c path opId
  | .abortUpload path opId => serveAbortUpload c path opId
  | .listBlocks path => serveListBlocks c path
  | .lock path mode opId => serveLock c path mode opId
  | .renewLock path lockId opId => serveRenewLock c path lockId opId
  | .unlock path lockId opId => serveUnlock c path lockId opId
  | .beginWrite path offset length lockId opId => serveBeginWrite c path offset length lockId opId
  | .commitWrite path writeId baseVersion lockId slots opId =>
      serveCommitWrite c path writeId baseVersion lockId slots opId
  | .abortWrite path writeId lockId opId => serveAbortWrite c path writeId lockId opId
  | .login username password => serveLogin c username password
  | .createUser username password groups isAdmin opId =>
      serveCreateUser c username password groups isAdmin opId
  | .changePassword username currentPassword newPassword opId =>
      serveChangePassword c username currentPassword newPassword opId
  | .chmod path mode opId => serveChmod c path mode opId
  | .chown path owner group opId => serveChown c path owner group opId
  | .dataNodeInventory address => serveDataNodeInventory c address

/-- What gRPC makes of the end of a handler: an exception that leaves it ends
    the RPC with `UNKNOWN` and no trailing metadata. -/
def endingOf : Except Exit Response → Except RpcError Response
  | .ok response => .ok response
  | .error (.aborted e) => .error e
  | .error (.raised e) =>
      let message := e.message
      .error ⟨.unknown, s!"Exception calling application: {message}", []⟩

/-- How an RPC ends, and what it leaves. -/
def serve (request : Request) (s : ReplicatedTree) : Except RpcError Response × Serving :=
  let r := handler c request ⟨s, [], []⟩
  (endingOf r.1, r.2)

end Handlers

end DfshaControlServicer
