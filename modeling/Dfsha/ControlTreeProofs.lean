import Dfsha.NamedTreeProofs
import Dfsha.PathProofs
import Dfsha.RaisingActionProofs
import Mathlib.Algebra.BigOperators.Group.List.Basic
import Mathlib.Algebra.Order.Ring.Rat

/-! # The control tree

    The metadata of the file system as the control node keeps it: a tree of
    directories and files, the lock table, the reservations of the writes in
    progress and the users.  Eighteen mutations change it and nothing else
    does.

    A mutation is a computation in `TreeM`, which threads the tree through
    and KEEPS IT WHEN IT RAISES: the code mutates objects in place, so what
    was done before an exception stays done.  A reference to a node is the
    list of names that leads to it. -/

namespace DfshaControlTree

open InsertionDict NamedTree RaisingAction DfshaPath

/-! ## The data -/

/-- The leader's clock, in seconds. -/
abbrev Time := ℚ

def defaultOwner : String := "admin"
def dirMode : Nat := 0o755
def fileMode : Nat := 0o644
def rootMode : Nat := 0o777

/-- The permission bits asked for. -/
def R : Nat := 4
def W : Nat := 2

/-- Who calls, as it travels in the replicated command.  Where a caller is
    optional, none is a call without identity: nothing is checked. -/
structure Caller where
  username : String
  groups : List String
  isAdmin : Bool
deriving DecidableEq

structure BlockRecord where
  blockId : String
  datanodeAddresses : List String
  checksum : String := ""
  sizeBytes : Int := 0
  confirmed : Bool := false
deriving DecidableEq

/-- Owner, group and mode of a node, file or directory. -/
structure NodeAttrs where
  owner : String := defaultOwner
  group : String := defaultOwner
  mode : Nat
deriving DecidableEq

inductive FileState where
  | pending
  | committed
deriving DecidableEq

structure FileNode where
  state : FileState := .pending
  blocks : List BlockRecord := []
  leaseExpiresAt : Time := 0
  version : Int := 0
  blockSize : Int := 0
  attrs : NodeAttrs := { mode := fileMode }
deriving DecidableEq

structure WriteSlotRecord where
  index : Int
  newBlockId : String
  newAddresses : List String
  newSize : Int
deriving DecidableEq

/-- The list counts up by one from its first element. -/
def Consecutive : Int → List Int → Prop
  | _, [] => True
  | a, b :: l => b = a ∧ Consecutive (a + 1) l

/-- A copy-on-write in progress: its new blocks are not visible yet.  The
    slots it reserves are consecutive, because they come from a plan. -/
structure WriteReservation where
  writeId : String
  path : String
  baseVersion : Int
  lockId : String
  blockSize : Int
  slots : List WriteSlotRecord
  leaseExpiresAt : Time
  consecutive : ∃ first, Consecutive first (slots.map WriteSlotRecord.index)

inductive LockMode where
  | r
  | w
deriving DecidableEq

/-- The holders of a locked path: lock id to owner and expiry. -/
structure LockState where
  mode : LockMode
  holders : Dict String (String × Time)

structure UserRecord where
  passwordHash : List UInt8
  salt : List UInt8
  groups : List String
  isAdmin : Bool
deriving DecidableEq

structure ControlTree where
  root : Tree String NodeAttrs FileNode
  locks : Dict String LockState
  writes : Dict String WriteReservation
  users : Dict String UserRecord

def ControlTree.empty : ControlTree where
  root := Tree.leaf { mode := rootMode }
  locks := Dict.empty
  writes := Dict.empty
  users := Dict.empty

/-- A computation on the tree; the tree it leaves is kept when it raises. -/
abbrev TreeM (α : Type) : Type := Action ControlTree PyError α

/-! ## Write plans -/

/-- `range(first, last + 1)`. -/
def slotRange (first last : Int) : List Int :=
  (List.range (last + 1 - first).toNat).map fun k : Nat => first + k

/-- The index and new size of each block that a write of `length` bytes at
    `offset` touches. -/
def planWriteSlots (sizes : List Int) (blockSize offset length : Int) :
    Except PyError (List (Int × Int)) :=
  let size := sizes.sum
  if length ≤ 0 then
    .error ⟨.invalidPathError,
      s!"el largo a escribir debe ser mayor a 0, no {length}"⟩
  else if offset < 0 ∨ offset > size then
    .error ⟨.invalidPathError,
      s!"offset {offset} fuera del archivo ({size} bytes); no hay huecos"⟩
  else if blockSize = 0 then
    .error ⟨.zeroDivisionError, "integer division or modulo by zero"⟩
  else
    let newSize := max size (offset + length)
    let first := offset.fdiv blockSize
    let last := (offset + length - 1).fdiv blockSize
    .ok ((slotRange first last).map fun index =>
      (index, min blockSize (newSize - index * blockSize)))

/-- The recorded block size; a file older than the field takes the size of
    its first block when it has several, else the leader's default. -/
def blockSizeOf (node : FileNode) (default : Int) : Int :=
  if node.blockSize ≠ 0 then node.blockSize
  else match node.blocks with
    | first :: _ :: _ => first.sizeBytes
    | _ => default

def leaseExpired (node : FileNode) (now : Option Time) : Bool :=
  match now with
  | none => false
  | some now => 0 < node.leaseExpiresAt ∧ node.leaseExpiresAt ≤ now

/-! ## Permissions and names -/

/-- Exclusive classes, as in Unix: the owner uses only the owner's bits. -/
def allows (node : NodeAttrs) (caller : Option Caller) (want : Nat) : Bool :=
  match caller with
  | none => true
  | some caller =>
      if caller.isAdmin then true
      else
        let shift := if caller.username = node.owner then 6
          else if node.group ∈ caller.groups then 3 else 0
        (node.mode >>> shift) &&& want = want

def require (node : NodeAttrs) (caller : Option Caller) (want : Nat)
    (path : String) : TreeM Unit :=
  raiseIf (allows node caller want = false) ⟨.accessDeniedError,
    let letter := if want = R then "r" else "w"
    s!"permiso denegado: falta {letter} en {path}"⟩

def ownerOrAdmin (node : NodeAttrs) (caller : Option Caller) : Bool :=
  match caller with
  | none => true
  | some caller => caller.isAdmin || caller.username = node.owner

/-- Owner and group of a new node. -/
def ownership (caller : Option Caller) (mode : Nat) : NodeAttrs :=
  match caller with
  | none => { mode }
  | some caller =>
      { owner := caller.username
        group := caller.groups.headD caller.username
        mode }

/-- `[a-z_][a-z0-9_-]{0,31}`, the whole text. -/
def validName (value : String) : Bool :=
  let lower := fun c : Char => 'a' ≤ c ∧ c ≤ 'z' ∨ c = '_'
  match value.toList with
  | [] => false
  | c :: cs =>
      lower c && cs.length ≤ 31 &&
        cs.all fun c => lower c ∨ '0' ≤ c ∧ c ≤ '9' ∨ c = '-'

def validMode (mode : Int) : Bool := 0 ≤ mode ∧ mode ≤ 0o777

/-! ## Lookups -/

def getNode (parts : List String) : TreeM (Option (Entry NodeAttrs FileNode)) :=
  gets fun s => s.root.view parts

/-- The names of a virtual path and the committed file there. -/
def getCommittedFile (virtualPath : String) : TreeM (List String × FileNode) := do
  let ps ← ofExcept (parts virtualPath)
  match ← getNode ps with
  | some (.file node) => do
      raiseIf (node.state ≠ .committed)
        ⟨.pathNotFoundError, s!"no existe: {virtualPath}"⟩
      pure (ps, node)
  | _ => raise ⟨.pathNotFoundError, s!"no existe: {virtualPath}"⟩

def getPendingFile (virtualPath : String) : TreeM (List String × FileNode) := do
  let ps ← ofExcept (parts virtualPath)
  match ← getNode ps with
  | some (.file node) => do
      raiseIf (node.state ≠ .pending)
        ⟨.pathNotFoundError, s!"no hay una subida pendiente para: {virtualPath}"⟩
      pure (ps, node)
  | _ =>
      raise ⟨.pathNotFoundError, s!"no hay una subida pendiente para: {virtualPath}"⟩

/-- `parent.children[name] = node` for a file, `parent` and `name` being the
    two ends of the path. -/
def storeFile (ps : List String) (node : FileNode) : TreeM Unit :=
  modify fun s => { s with
    root := s.root.putFile ps.dropLast (ps.getLastD "") node }

def storeDir (ps : List String) (attrs : NodeAttrs) : TreeM Unit :=
  modify fun s => { s with
    root := s.root.putDir ps.dropLast (ps.getLastD "") attrs }

/-- `del parent.children[name]`. -/
def deleteChild (ps : List String) : TreeM Unit :=
  modify fun s => { s with
    root := s.root.remove ps.dropLast (ps.getLastD "") }

/-- The `w` that `_walk_to_parent` asks of the directory it stands in, when
    `asked`. -/
def requireAt (ps : List String) (caller : Option Caller) (asked : Prop)
    [Decidable asked] : TreeM Unit := do
  match ← getNode ps with
  | some (.dir current) =>
      if asked then require current caller W (pathKey ps) else pure ()
  | _ => pure ()

/-- The loop of `_walk_to_parent`: `done` are the names walked, the current
    directory is the one they lead to. -/
def walkLoop (ps : List String) (create : Bool) (caller : Option Caller) :
    List String → List String → Bool → TreeM Bool
  | _, [], created => pure created
  | done, part :: rest, created => do
      match ← getNode (done ++ [part]) with
      | none => do
          raiseIf (create = false)
            ⟨.pathNotFoundError, s!"no existe: {joinParts ps}"⟩
          -- the permission is asked of the last directory that existed
          requireAt done caller (created = false)
          storeDir (done ++ [part]) (ownership caller dirMode)
          walkLoop ps create caller (done ++ [part]) rest true
      | some (.file _) =>
          raise ⟨.notADirectoryError, s!"no es un directorio: {joinParts ps}"⟩
      | some (.dir _) => walkLoop ps create caller (done ++ [part]) rest created

/-- The data of the directory the names lead to. -/
def walkToParent (ps : List String) (create : Bool) (caller : Option Caller) :
    TreeM NodeAttrs := do
  let created ← walkLoop ps create caller [] ps false
  match ← getNode ps with
  | some (.dir current) => do
      requireAt ps caller (create = true ∧ created = false)
      pure current
  | _ => raise ⟨.notADirectoryError, s!"no es un directorio: {joinParts ps}"⟩

/-! ## The lock table and the reservations -/

/-- The holders still alive at `now`; none if nobody is. -/
def aliveHolders (now : Time) (state : LockState) : Option LockState :=
  let holders := state.holders.filter fun e => now < e.2.2
  if holders.isEmpty then none else some { state with holders }

/-- `_cleanup_expired_locks` on the lock table. -/
def cleanupLocks (locks : Dict String LockState) (key : String)
    (now : Option Time) : Dict String LockState :=
  match now, locks.get? key with
  | some now, some state =>
      match aliveHolders now state with
      | some alive => locks.insert key alive
      | none => locks.erase key
  | _, _ => locks

/-- `_cleanup_expired_writes` on the reservations. -/
def cleanupWrites (writes : Dict String WriteReservation) (now : Option Time) :
    Dict String WriteReservation :=
  match now with
  | none => writes
  | some now => writes.filter fun e => now < e.2.leaseExpiresAt

def cleanupExpiredLocks (key : String) (now : Option Time) : TreeM Unit :=
  modify fun s => { s with locks := cleanupLocks s.locks key now }

def cleanupExpiredWrites (now : Option Time) : TreeM Unit :=
  modify fun s => { s with writes := cleanupWrites s.writes now }

def getLock (key : String) : TreeM (Option LockState) :=
  gets fun s => s.locks.get? key

def getWrite (writeId : String) : TreeM (Option WriteReservation) :=
  gets fun s => s.writes.get? writeId

def setLock (key : String) (state : LockState) : TreeM Unit :=
  modify fun s => { s with locks := s.locks.insert key state }

def dropLock (key : String) : TreeM Unit :=
  modify fun s => { s with locks := s.locks.erase key }

def dropWrite (writeId : String) : TreeM Unit :=
  modify fun s => { s with writes := s.writes.erase writeId }

/-- Whether the exclusive lock on a path is held under `lockId`. -/
def holdsWriteLock (state : Option LockState) (lockId : String) : Bool :=
  match state with
  | none => false
  | some state => state.mode = .w && state.holders.contains lockId

def requireWriteLock (key lockId : String) (now : Time) : TreeM Unit := do
  cleanupExpiredLocks key (some now)
  let state ← getLock key
  raiseIf (holdsWriteLock state lockId = false) ⟨.conflictError,
    s!"hace falta el lock exclusivo vigente para escribir: {key}"⟩

/-! ## Directories and files -/

def makeDir (virtualPath : String) (caller : Option Caller) : TreeM Unit := do
  let ps ← ofExcept (parts virtualPath)
  raiseIf (ps = []) ⟨.pathExistsError, "la raíz ya existe"⟩
  let parent ← walkToParent ps.dropLast false none
  require parent caller W (pathKey ps.dropLast)
  let child ← getNode ps
  raiseIf (child ≠ none) ⟨.pathExistsError, s!"ya existe: {virtualPath}"⟩
  storeDir ps (ownership caller dirMode)

def removeDir (virtualPath : String) (caller : Option Caller) : TreeM Unit := do
  let ps ← ofExcept (parts virtualPath)
  raiseIf (ps = []) ⟨.invalidPathError, "no se puede borrar la raíz"⟩
  let parent ← walkToParent ps.dropLast false none
  require parent caller W (pathKey ps.dropLast)
  match ← getNode ps with
  | none => raise ⟨.pathNotFoundError, s!"no existe: {virtualPath}"⟩
  | some (.file _) =>
      raise ⟨.notADirectoryError, s!"no es un directorio: {virtualPath}"⟩
  | some (.dir _) => do
      let s ← gets id
      raiseIf (s.root.childrenAt ps ≠ [])
        ⟨.notEmptyError, s!"directorio no vacío: {virtualPath}"⟩
      deleteChild ps

/-- Returns the blocks the file had. -/
def removeFile (virtualPath : String) (now : Option Time)
    (caller : Option Caller) : TreeM (List BlockRecord) := do
  let ps ← ofExcept (parts virtualPath)
  raiseIf (ps = []) ⟨.invalidPathError, "no se puede borrar la raíz"⟩
  let parent ← walkToParent ps.dropLast false none
  require parent caller W (pathKey ps.dropLast)
  match ← getNode ps with
  | none => raise ⟨.pathNotFoundError, s!"no existe: {virtualPath}"⟩
  | some (.dir _) => raise ⟨.notAFileError, s!"no es un archivo: {virtualPath}"⟩
  | some (.file node) => do
      -- a pending upload is invisible
      raiseIf (node.state ≠ .committed)
        ⟨.pathNotFoundError, s!"no existe: {virtualPath}"⟩
      cleanupExpiredLocks (pathKey ps) now
      let state ← getLock (pathKey ps)
      raiseIf (state.isSome = true)
        ⟨.conflictError, s!"el archivo tiene locks vigentes: {virtualPath}"⟩
      deleteChild ps
      pure node.blocks

/-! ## Locks -/

def parseLockMode (mode : String) : Option LockMode :=
  if mode = "r" then some .r else if mode = "w" then some .w else none

def acquireLock (virtualPath lockId owner mode : String) (now leaseS : Time)
    (caller : Option Caller) : TreeM String := do
  let key ← ofExcept (canonicalPath virtualPath)
  match parseLockMode mode with
  | none => raise ⟨.invalidPathError, s!"modo de lock inválido: {pyRepr mode}"⟩
  | some mode => do
      raiseIf (leaseS ≤ 0) ⟨.invalidPathError, "lease_s debe ser mayor a 0"⟩
      let (_, node) ← getCommittedFile key
      require node.attrs caller (if mode = .r then R else W) key
      cleanupExpiredLocks key (some now)
      match ← getLock key with
      | some state => do
          raiseIf (state.mode ≠ .r ∨ mode ≠ .r)
            ⟨.conflictError, s!"lock en conflicto para: {virtualPath}"⟩
          raiseIf (state.holders.contains lockId = true)
            ⟨.conflictError, s!"lock_id ya existe para: {virtualPath}"⟩
          setLock key { state with
            holders := state.holders.insert lockId (owner, now + leaseS) }
          pure lockId
      | none => do
          setLock key { mode, holders := Dict.empty.insert lockId (owner, now + leaseS) }
          pure lockId

def renewLock (virtualPath lockId : String) (now leaseS : Time) : TreeM Unit := do
  let key ← ofExcept (canonicalPath virtualPath)
  raiseIf (leaseS ≤ 0) ⟨.invalidPathError, "lease_s debe ser mayor a 0"⟩
  let _ ← getCommittedFile key
  cleanupExpiredLocks key (some now)
  match ← getLock key with
  | none => raise ⟨.conflictError, s!"lock_id no vigente para: {virtualPath}"⟩
  | some state =>
      match state.holders.get? lockId with
      | none => raise ⟨.conflictError, s!"lock_id no vigente para: {virtualPath}"⟩
      | some (owner, _) =>
          setLock key { state with
            holders := state.holders.insert lockId (owner, now + leaseS) }

def releaseLock (virtualPath lockId : String) (now : Option Time) :
    TreeM Unit := do
  let key ← ofExcept (canonicalPath virtualPath)
  let _ ← getCommittedFile key
  cleanupExpiredLocks key now
  match ← getLock key with
  | none =>
      -- with the leader's time, a lease that has run out is tolerated
      raiseIf (now = none)
        ⟨.conflictError, s!"lock_id no pertenece a: {virtualPath}"⟩
  | some state => do
      raiseIf (state.holders.contains lockId = false)
        ⟨.conflictError, s!"lock_id no pertenece a: {virtualPath}"⟩
      let holders := state.holders.erase lockId
      if holders.isEmpty then dropLock key
      else setLock key { state with holders }

/-! ## Permissions -/

/-- Store new attributes on the node a path leads to. -/
def storeAttrs (ps : List String) (node : Entry NodeAttrs FileNode)
    (attrs : NodeAttrs) : TreeM Unit :=
  match node with
  | .dir _ => modify fun s => { s with root := s.root.setDir ps attrs }
  | .file f => storeFile ps { f with attrs }

def attrsOf : Entry NodeAttrs FileNode → NodeAttrs
  | .dir attrs => attrs
  | .file f => f.attrs

/-- A pending upload is invisible here too. -/
def getVisibleNode (virtualPath : String) :
    TreeM (List String × Entry NodeAttrs FileNode) := do
  let ps ← ofExcept (parts virtualPath)
  match ← getNode ps with
  | none => raise ⟨.pathNotFoundError, s!"no existe: {virtualPath}"⟩
  | some (.dir attrs) => pure (ps, .dir attrs)
  | some (.file node) => do
      raiseIf (node.state ≠ .committed)
        ⟨.pathNotFoundError, s!"no existe: {virtualPath}"⟩
      pure (ps, .file node)

def chmod (virtualPath : String) (mode : Int) (caller : Option Caller) :
    TreeM Unit := do
  let key ← ofExcept (canonicalPath virtualPath)
  let (ps, node) ← getVisibleNode key
  raiseIf (ownerOrAdmin (attrsOf node) caller = false) ⟨.accessDeniedError,
    s!"permiso denegado: solo el dueño o un admin cambia el modo de {key}"⟩
  raiseIf (validMode mode = false)
    ⟨.invalidPathError, s!"modo inválido: {mode}; va de 0 a 0o777"⟩
  storeAttrs ps node { attrsOf node with mode := mode.toNat }

/-- The checks of `chown` on who calls. -/
def chownDenied (attrs : NodeAttrs) (owner group key : String) :
    Option Caller → TreeM Unit
  | none => pure ()
  | some caller => do
      raiseIf (owner ≠ "" ∧ caller.isAdmin = false) ⟨.accessDeniedError,
        s!"permiso denegado: solo un admin cambia el dueño de {key}"⟩
      raiseIf (group ≠ "" ∧ caller.isAdmin = false ∧
          ¬(caller.username = attrs.owner ∧ group ∈ caller.groups))
        ⟨.accessDeniedError, s!"permiso denegado: para cambiar el grupo de {key} "
          ++ "hay que ser su dueño y pertenecer al grupo nuevo"⟩

/-- An empty owner or group is left as it is. -/
def chown (virtualPath owner group : String) (caller : Option Caller) :
    TreeM Unit := do
  let key ← ofExcept (canonicalPath virtualPath)
  let (ps, node) ← getVisibleNode key
  raiseIf (owner = "" ∧ group = "")
    ⟨.invalidPathError, "chown: falta el dueño o el grupo"⟩
  chownDenied (attrsOf node) owner group key caller
  let s ← gets id
  raiseIf (owner ≠ "" ∧ s.users.contains owner = false)
    ⟨.pathNotFoundError, s!"no existe el usuario: {owner}"⟩
  raiseIf (group ≠ "" ∧ validName group = false)
    ⟨.invalidPathError, s!"nombre de grupo inválido: {pyRepr group}"⟩
  let attrs := attrsOf node
  storeAttrs ps node { attrs with
    owner := if owner ≠ "" then owner else attrs.owner
    group := if group ≠ "" then group else attrs.group }

/-! ## Users -/

def setUser (username : String) (user : UserRecord) : TreeM Unit :=
  modify fun s => { s with users := s.users.insert username user }

def createUser (username : String) (passwordHash salt : List UInt8)
    (groups : List String) (isAdmin : Bool) : TreeM Unit := do
  raiseIf (validName username = false)
    ⟨.invalidPathError, s!"nombre de usuario inválido: {pyRepr username}"⟩
  match groups.filter fun group => !validName group with
  | group :: _ =>
      raise ⟨.invalidPathError, s!"nombre de grupo inválido: {pyRepr group}"⟩
  | [] => do
      let s ← gets id
      raiseIf (s.users.contains username = true)
        ⟨.pathExistsError, s!"el usuario ya existe: {username}"⟩
      setUser username { passwordHash, salt, groups, isAdmin }

def changePassword (username : String) (passwordHash salt : List UInt8) :
    TreeM Unit := do
  let s ← gets id
  match s.users.get? username with
  | none => raise ⟨.pathNotFoundError, s!"no existe el usuario: {username}"⟩
  | some user => setUser username { user with passwordHash, salt }

/-! ## Uploads -/

/-- The blocks of an abandoned upload whose name is taken over; an error if
    the name is not free for a new upload. -/
def replaceable (virtualPath : String) (now : Option Time) :
    Option (Entry NodeAttrs FileNode) → TreeM (List BlockRecord)
  | none => pure []
  | some (.file existing) =>
      if existing.state = .pending ∧ leaseExpired existing now = true then
        pure existing.blocks
      else raise ⟨.pathExistsError, s!"ya existe: {virtualPath}"⟩
  | some (.dir _) => raise ⟨.pathExistsError, s!"ya existe: {virtualPath}"⟩

/-- `now + lease_s`, when the command carries both and the lease is not 0. -/
def leaseEnd (now leaseS : Option Time) : Option Time :=
  match now, leaseS with
  | some now, some leaseS => if leaseS ≠ 0 then some (now + leaseS) else none
  | _, _ => none

/-- A block as `begin_upload` reserves it: nothing confirmed yet. -/
def reservedBlock (placement : String × List String) : BlockRecord :=
  { blockId := placement.1, datanodeAddresses := placement.2 }

/-- Returns the stored placements and the blocks of an expired pending upload
    that was replaced. -/
def beginUpload (virtualPath : String) (placements : List (String × List String))
    (now leaseS : Option Time) (blockSize : Option Int)
    (caller : Option Caller) :
    TreeM (List (String × List String) × List BlockRecord) := do
  let ps ← ofExcept (parts virtualPath)
  raiseIf (ps = []) ⟨.invalidPathError, "ruta de destino inválida"⟩
  let _ ← walkToParent ps.dropLast true caller
  let existing ← getNode ps
  let staleBlocks ← replaceable virtualPath now existing
  storeFile ps {
    state := .pending
    blocks := placements.map reservedBlock
    leaseExpiresAt := (leaseEnd now leaseS).getD 0
    blockSize := blockSize.getD 0
    attrs := ownership caller fileMode }
  pure (placements, staleBlocks)

/-- Only who began the upload, or an admin, goes on with it. -/
def requireUploadOwner (node : FileNode) (caller : Option Caller)
    (virtualPath : String) : TreeM Unit := do
  let key ← ofExcept (canonicalPath virtualPath)
  raiseIf (ownerOrAdmin node.attrs caller = false) ⟨.accessDeniedError,
    s!"permiso denegado: la subida de {key} es de otro usuario"⟩

/-- Change the first block that has the id; none if no block has it. -/
def updateBlock (blockId : String) (g : BlockRecord → BlockRecord) :
    List BlockRecord → Option (List BlockRecord)
  | [] => none
  | b :: bs =>
      if b.blockId = blockId then some (g b :: bs)
      else (updateBlock blockId g bs).map (b :: ·)

def confirmBlock (virtualPath blockId checksum : String) (sizeBytes : Int)
    (now leaseS : Option Time) (caller : Option Caller) : TreeM Unit := do
  let (ps, node) ← getPendingFile virtualPath
  requireUploadOwner node caller virtualPath
  match updateBlock blockId
      (fun b => { b with checksum, sizeBytes, confirmed := true }) node.blocks with
  | none => raise ⟨.pathNotFoundError,
      s!"bloque {blockId} no reservado para {virtualPath}"⟩
  | some blocks =>
      storeFile ps { node with
        blocks
        -- every confirmed block proves the client alive: the lease is renewed
        leaseExpiresAt := (leaseEnd now leaseS).getD node.leaseExpiresAt }

def completeUpload (virtualPath : String) (caller : Option Caller) :
    TreeM Unit := do
  let (ps, node) ← getPendingFile virtualPath
  requireUploadOwner node caller virtualPath
  let unconfirmed := (node.blocks.filter fun b => !b.confirmed).map
    BlockRecord.blockId
  raiseIf (unconfirmed ≠ [])
    ⟨.invalidPathError, s!"bloques sin confirmar: {pyReprList unconfirmed}"⟩
  storeFile ps { node with state := .committed }

def abortUpload (virtualPath : String) (caller : Option Caller) : TreeM Unit := do
  let ps ← ofExcept (parts virtualPath)
  raiseIf (ps = [])
    ⟨.invalidPathError, "no hay una subida pendiente para la raíz"⟩
  let _ ← walkToParent ps.dropLast false none
  match ← getNode ps with
  | some (.file node) => do
      raiseIf (node.state ≠ .pending)
        ⟨.pathNotFoundError, s!"no hay una subida pendiente para: {virtualPath}"⟩
      requireUploadOwner node caller virtualPath
      deleteChild ps
  | _ =>
      raise ⟨.pathNotFoundError, s!"no hay una subida pendiente para: {virtualPath}"⟩

/-! ## Copy-on-write -/

/-- One slot of a `begin_write` answer. -/
structure SlotDescription where
  index : Int
  oldBlockId : String
  oldSize : Int
  oldAddresses : List String
  newBlockId : String
  newAddresses : List String
  newSize : Int
deriving DecidableEq

/-- `l[index]`: a negative index counts from the end. -/
def pyIndex {α : Type} (l : List α) (index : Int) : Except PyError α :=
  let i := if 0 ≤ index then index else index + l.length
  match if 0 ≤ i then l[i.toNat]? else none with
  | some a => .ok a
  | none => .error ⟨.indexError, "list index out of range"⟩

def describeSlot (blocks : List BlockRecord) (slot : WriteSlotRecord) :
    Except PyError SlotDescription :=
  if slot.index < blocks.length then do
    let old ← pyIndex blocks slot.index
    Except.ok {
      index := slot.index, oldBlockId := old.blockId, oldSize := old.sizeBytes,
      oldAddresses := old.datanodeAddresses, newBlockId := slot.newBlockId,
      newAddresses := slot.newAddresses, newSize := slot.newSize }
  else Except.ok {
    index := slot.index, oldBlockId := "", oldSize := 0, oldAddresses := [],
    newBlockId := slot.newBlockId, newAddresses := slot.newAddresses,
    newSize := slot.newSize }

def describeSlots (blocks : List BlockRecord) :
    List WriteSlotRecord → Except PyError (List SlotDescription)
  | [] => .ok []
  | slot :: slots => do
      let d ← describeSlot blocks slot
      let ds ← describeSlots blocks slots
      Except.ok (d :: ds)

/-- The slots of a plan, filled with the proposed blocks. -/
def fillSlots : List (Int × Int) → List (Int × String × List String) →
    List WriteSlotRecord
  | (index, newSize) :: plan, (_, blockId, addresses) :: proposals =>
      ⟨index, blockId, addresses, newSize⟩ :: fillSlots plan proposals
  | _, _ => []

theorem consecutive_map_range (a : Int) (s n : Nat) :
    Consecutive (a + s) ((List.range' s n).map fun k : Nat => a + k) := by
  induction n generalizing s with
  | zero => exact trivial
  | succ n ih =>
      rw [List.range'_succ, List.map_cons]
      refine ⟨rfl, ?_⟩
      have h := ih (s + 1)
      rw [show a + ((s + 1 : Nat) : Int) = a + s + 1 by omega] at h
      exact h

theorem consecutive_slotRange (first last : Int) :
    Consecutive first (slotRange first last) := by
  have h := consecutive_map_range first 0 (last + 1 - first).toNat
  rw [Int.natCast_zero, Int.add_zero, ← List.range_eq_range'] at h
  exact h

/-- A plan has consecutive indexes. -/
theorem consecutive_plan {sizes : List Int} {blockSize offset length : Int}
    {plan : List (Int × Int)}
    (h : planWriteSlots sizes blockSize offset length = .ok plan) :
    ∃ first, Consecutive first (plan.map Prod.fst) := by
  rw [planWriteSlots] at h
  simp only at h
  by_cases h1 : length ≤ 0
  · rw [if_pos h1] at h; exact nomatch h
  by_cases h2 : offset < 0 ∨ offset > sizes.sum
  · rw [if_neg h1, if_pos h2] at h; exact nomatch h
  by_cases h3 : blockSize = 0
  · rw [if_neg h1, if_neg h2, if_pos h3] at h; exact nomatch h
  · rw [if_neg h1, if_neg h2, if_neg h3] at h
    have hplan := Except.ok.inj h
    refine ⟨offset.fdiv blockSize, ?_⟩
    rw [← hplan, List.map_map]
    have hid : (Prod.fst ∘ fun index : Int => (index, min blockSize
        (max sizes.sum (offset + length) - index * blockSize))) = id := rfl
    rw [hid, List.map_id]
    exact consecutive_slotRange _ _

theorem consecutive_fillSlots {first : Int} {plan : List (Int × Int)}
    (h : Consecutive first (plan.map Prod.fst))
    (proposals : List (Int × String × List String)) :
    Consecutive first ((fillSlots plan proposals).map WriteSlotRecord.index) := by
  induction plan generalizing first proposals with
  | nil => exact trivial
  | cons hd plan ih =>
      obtain ⟨index, newSize⟩ := hd
      cases proposals with
      | nil => exact trivial
      | cons p proposals =>
          obtain ⟨hi, hrest⟩ := h
          exact ⟨hi, ih hrest proposals⟩

/-- The reservation of a planned write. -/
def reserve (writeId path : String) (baseVersion : Int) (lockId : String)
    (blockSize : Int) (plan : List (Int × Int))
    (hplan : ∃ first, Consecutive first (plan.map Prod.fst))
    (proposals : List (Int × String × List String)) (leaseExpiresAt : Time) :
    WriteReservation where
  writeId := writeId
  path := path
  baseVersion := baseVersion
  lockId := lockId
  blockSize := blockSize
  slots := fillSlots plan proposals
  leaseExpiresAt := leaseExpiresAt
  consecutive := hplan.imp fun _ h => consecutive_fillSlots h proposals

/-- Reserves the new blocks of a write.  The leader proposed them; here the
    proposal is only checked against the file as it is now. -/
def beginWrite (virtualPath writeId lockId : String)
    (baseVersion offset length : Int)
    (proposals : List (Int × String × List String)) (now leaseS : Time)
    (defaultBlockSize : Int) (caller : Option Caller) :
    TreeM (String × Int × Int × List SlotDescription) := do
  let key ← ofExcept (canonicalPath virtualPath)
  let (_, node) ← getCommittedFile key
  require node.attrs caller W key
  requireWriteLock key lockId now
  cleanupExpiredWrites (some now)
  let reserved ← getWrite writeId
  raiseIf (reserved.isSome = true)
    ⟨.conflictError, s!"write_id repetido: {writeId}"⟩
  raiseIf (node.version ≠ baseVersion) ⟨.conflictError,
    let version := node.version
    s!"el archivo cambió (versión {version}, se esperaba {baseVersion}); reintentá"⟩
  let blockSize := blockSizeOf node defaultBlockSize
  match hplan : planWriteSlots (node.blocks.map BlockRecord.sizeBytes) blockSize
      offset length with
  | .error e => raise e
  | .ok plan => do
      raiseIf (plan.map Prod.fst ≠ proposals.map Prod.fst) ⟨.conflictError,
        "la propuesta de bloques no coincide con el archivo actual; reintentá"⟩
      let reservation := reserve writeId key node.version lockId blockSize plan
        (consecutive_plan hplan) proposals (now + leaseS)
      modify fun s => { s with writes := s.writes.insert writeId reservation }
      let described ← ofExcept (describeSlots node.blocks reservation.slots)
      pure (writeId, node.version, blockSize, described)

/-- `l[index] = a`, for an index that `pyIndex` accepts. -/
def pySet {α : Type} (l : List α) (index : Int) (a : α) : List α :=
  l.set (if 0 ≤ index then index else index + l.length).toNat a

/-- The loop of `commit_write`: put each new block in its slot, at the end
    when the slot is past the last block.  Returns the blocks as they are left
    and the replaced ones. -/
def publishSlots : List BlockRecord → List (WriteSlotRecord × String × Int) →
    List BlockRecord × Except PyError (List BlockRecord)
  | blocks, [] => (blocks, .ok [])
  | blocks, (slot, checksum, size) :: rest =>
      let newBlock : BlockRecord :=
        ⟨slot.newBlockId, slot.newAddresses, checksum, size, true⟩
      if slot.index < blocks.length then
        match pyIndex blocks slot.index with
        | .error e => (blocks, .error e)
        | .ok old =>
            let (blocks', replaced) :=
              publishSlots (pySet blocks slot.index newBlock) rest
            (blocks', replaced.map (old :: ·))
      else publishSlots (blocks ++ [newBlock]) rest

/-- The slots of a reservation with the checksum and size confirmed for each. -/
def confirmedSlots (r : WriteReservation)
    (confirmed : List (Int × String × String × Int)) :
    List (WriteSlotRecord × String × Int) :=
  r.slots.zip (confirmed.map fun c => c.2.2)

/-- Publishes the new blocks if the version is still the reserved one and the
    writer still holds the lock.  Returns the new version and the replaced
    blocks. -/
def commitWrite (virtualPath writeId lockId : String) (baseVersion : Int)
    (confirmed : List (Int × String × String × Int)) (now : Time)
    (caller : Option Caller) : TreeM (Int × List BlockRecord) := do
  let key ← ofExcept (canonicalPath virtualPath)
  let (ps, node) ← getCommittedFile key
  require node.attrs caller W key
  cleanupExpiredWrites (some now)
  match ← getWrite writeId with
  | none =>
      raise ⟨.conflictError, s!"no hay una reserva vigente {writeId} para {key}"⟩
  | some reservation => do
      raiseIf (reservation.path ≠ key)
        ⟨.conflictError, s!"no hay una reserva vigente {writeId} para {key}"⟩
      raiseIf (reservation.lockId ≠ lockId)
        ⟨.conflictError, s!"la reserva {writeId} es de otro lock"⟩
      requireWriteLock key lockId now
      raiseIf (baseVersion ≠ reservation.baseVersion ∨
          node.version ≠ reservation.baseVersion) ⟨.conflictError,
        let version := node.version
        s!"el archivo cambió (versión {version}); la escritura no se publica"⟩
      raiseIf (confirmed.map (fun c => (c.1, c.2.1, c.2.2.2)) ≠
          reservation.slots.map fun s => (s.index, s.newBlockId, s.newSize))
        ⟨.conflictError, "los bloques confirmados no coinciden con la reserva"⟩
      let published := publishSlots node.blocks
        (confirmedSlots reservation confirmed)
      storeFile ps { node with blocks := published.1 }
      let replaced ← ofExcept published.2
      storeFile ps { node with
        blocks := published.1
        version := node.version + 1
        blockSize := reservation.blockSize }
      dropWrite writeId
      pure (node.version + 1, replaced)

/-- The record of a reserved block that is thrown away. -/
def discardedBlock (slot : WriteSlotRecord) : BlockRecord :=
  { blockId := slot.newBlockId
    datanodeAddresses := slot.newAddresses
    sizeBytes := slot.newSize }

/-- Discards a reservation and returns its new blocks.  Aborting one that no
    longer exists is not an error and returns nothing. -/
def abortWrite (virtualPath writeId lockId : String) (now : Option Time) :
    TreeM (List BlockRecord) := do
  let key ← ofExcept (canonicalPath virtualPath)
  cleanupExpiredWrites now
  match ← getWrite writeId with
  | none => pure []
  | some reservation =>
      if reservation.path ≠ key then pure []
      else do
        raiseIf (reservation.lockId ≠ lockId)
          ⟨.conflictError, s!"la reserva {writeId} es de otro lock"⟩
        dropWrite writeId
        pure (reservation.slots.map discardedBlock)

/-- Replaces the replicas of a block if the expected ones are still there. -/
def updateBlockReplicas (virtualPath blockId : String)
    (expected new : List String) : TreeM Unit := do
  let (ps, node) ← getCommittedFile virtualPath
  match node.blocks.find? fun b => b.blockId = blockId with
  | none => raise ⟨.pathNotFoundError,
      s!"bloque {blockId} no existe en {virtualPath}"⟩
  | some block => do
      raiseIf (block.datanodeAddresses ≠ expected) ⟨.conflictError,
        s!"réplicas cambiaron para bloque {blockId}"⟩
      storeFile ps { node with
        blocks := (updateBlock blockId
          (fun b => { b with datanodeAddresses := new }) node.blocks).getD node.blocks }

/-! ## Reads -/

/-- Copies of the blocks of a pending upload, without their confirmation; none if
    there is no such upload. -/
def pendingBlocks (s : ControlTree) (virtualPath : String) : List BlockRecord :=
  match (getPendingFile virtualPath s).1 with
  | .ok (_, node) => node.blocks.map fun b => { b with confirmed := false }
  | .error _ => []

/-- What the metadata keeps in use at `now`: every block of every file, and
    the slots of the reservations still alive, with their addresses. -/
def referencedBlocks (s : ControlTree) (now : Time) :
    List (String × List String) :=
  s.root.files.flatMap (fun e =>
    e.2.blocks.map fun b => (b.blockId, b.datanodeAddresses)) ++
  (s.writes.entries.filter fun e => now < e.2.leaseExpiresAt).flatMap fun e =>
    e.2.slots.map fun slot => (slot.newBlockId, slot.newAddresses)

/-- One line of a listing. -/
structure DirEntryData where
  name : String
  isDir : Bool
  sizeBytes : Int
  owner : String
  group : String
  mode : Nat
deriving DecidableEq

/-- How a child is listed; a pending upload is not. -/
def listed : String × Entry NodeAttrs FileNode → Option DirEntryData
  | (name, .dir attrs) => some {
      name, isDir := true, sizeBytes := 0
      owner := attrs.owner, group := attrs.group, mode := attrs.mode }
  | (name, .file f) =>
      if f.state = .committed then some {
        name, isDir := false
        sizeBytes := (f.blocks.map BlockRecord.sizeBytes).sum
        owner := f.attrs.owner, group := f.attrs.group, mode := f.attrs.mode }
      else none

def listDir (virtualPath : String) (caller : Option Caller) :
    TreeM (List DirEntryData) := do
  let ps ← ofExcept (parts virtualPath)
  match ← getNode ps with
  | none => raise ⟨.pathNotFoundError, s!"no existe: {virtualPath}"⟩
  | some (.file _) =>
      raise ⟨.notADirectoryError, s!"no es un directorio: {virtualPath}"⟩
  | some (.dir attrs) => do
      require attrs caller R (pathKey ps)
      let s ← gets id
      let children := (s.root.childrenAt ps).mergeSort fun a b => decide (a.1 ≤ b.1)
      pure (children.filterMap listed)

def listBlocks (virtualPath : String) (caller : Option Caller) :
    TreeM (List BlockRecord) := do
  let (ps, node) ← getCommittedFile virtualPath
  require node.attrs caller R (pathKey ps)
  pure node.blocks

/-- The committed blocks with the path of their file. -/
def iterBlocks (s : ControlTree) : List (String × BlockRecord) :=
  s.root.files.flatMap fun e =>
    if e.2.state = .committed then e.2.blocks.map fun b => (pathKey e.1, b)
    else []

/-- Version, block size and block sizes of a committed file. -/
def writeLayout (virtualPath : String) (defaultBlockSize : Int)
    (caller : Option Caller) : TreeM (Int × Int × List Int) := do
  let (_, node) ← getCommittedFile virtualPath
  let key ← ofExcept (canonicalPath virtualPath)
  require node.attrs caller W key
  pure (node.version, blockSizeOf node defaultBlockSize,
    node.blocks.map BlockRecord.sizeBytes)

/-! ## The mutations as data -/

/-- The calls that can travel in the replicated log, with their arguments. -/
inductive Mutation where
  | makeDir (virtualPath : String) (caller : Option Caller)
  | removeDir (virtualPath : String) (caller : Option Caller)
  | removeFile (virtualPath : String) (now : Option Time) (caller : Option Caller)
  | beginUpload (virtualPath : String) (placements : List (String × List String))
      (now leaseS : Option Time) (blockSize : Option Int) (caller : Option Caller)
  | confirmBlock (virtualPath blockId checksum : String) (sizeBytes : Int)
      (now leaseS : Option Time) (caller : Option Caller)
  | completeUpload (virtualPath : String) (caller : Option Caller)
  | abortUpload (virtualPath : String) (caller : Option Caller)
  | acquireLock (virtualPath lockId owner mode : String) (now leaseS : Time)
      (caller : Option Caller)
  | renewLock (virtualPath lockId : String) (now leaseS : Time)
  | releaseLock (virtualPath lockId : String) (now : Option Time)
  | updateBlockReplicas (virtualPath blockId : String) (expected new : List String)
  | beginWrite (virtualPath writeId lockId : String)
      (baseVersion offset length : Int)
      (proposals : List (Int × String × List String)) (now leaseS : Time)
      (defaultBlockSize : Int) (caller : Option Caller)
  | commitWrite (virtualPath writeId lockId : String) (baseVersion : Int)
      (confirmed : List (Int × String × String × Int)) (now : Time)
      (caller : Option Caller)
  | abortWrite (virtualPath writeId lockId : String) (now : Option Time)
  | createUser (username : String) (passwordHash salt : List UInt8)
      (groups : List String) (isAdmin : Bool)
  | changePassword (username : String) (passwordHash salt : List UInt8)
  | chmod (virtualPath : String) (mode : Int) (caller : Option Caller)
  | chown (virtualPath owner group : String) (caller : Option Caller)
deriving DecidableEq

/-- What a mutation returns. -/
inductive Ret where
  | none
  | removed (blocks : List BlockRecord)
  | uploadBegun (placements : List (String × List String))
      (staleBlocks : List BlockRecord)
  | lockTaken (lockId : String)
  | writeBegun (writeId : String) (version blockSize : Int)
      (slots : List SlotDescription)
  | writeCommitted (version : Int) (replaced : List BlockRecord)
  | writeAborted (reserved : List BlockRecord)
deriving DecidableEq

/-- Run a mutation. -/
def exec : Mutation → TreeM Ret
  | .makeDir p c => do makeDir p c; pure .none
  | .removeDir p c => do removeDir p c; pure .none
  | .removeFile p now c => do
      let blocks ← removeFile p now c
      pure (.removed blocks)
  | .beginUpload p placements now leaseS blockSize c => do
      let (stored, stale) ← beginUpload p placements now leaseS blockSize c
      pure (.uploadBegun stored stale)
  | .confirmBlock p b sum size now leaseS c => do
      confirmBlock p b sum size now leaseS c
      pure .none
  | .completeUpload p c => do completeUpload p c; pure .none
  | .abortUpload p c => do abortUpload p c; pure .none
  | .acquireLock p l o m now leaseS c => do
      let lockId ← acquireLock p l o m now leaseS c
      pure (.lockTaken lockId)
  | .renewLock p l now leaseS => do renewLock p l now leaseS; pure .none
  | .releaseLock p l now => do releaseLock p l now; pure .none
  | .updateBlockReplicas p b expected new => do
      updateBlockReplicas p b expected new
      pure .none
  | .beginWrite p w l v offset length proposals now leaseS d c => do
      let (writeId, version, blockSize, slots) ←
        beginWrite p w l v offset length proposals now leaseS d c
      pure (.writeBegun writeId version blockSize slots)
  | .commitWrite p w l v confirmed now c => do
      let (version, replaced) ← commitWrite p w l v confirmed now c
      pure (.writeCommitted version replaced)
  | .abortWrite p w l now => do
      let reserved ← abortWrite p w l now
      pure (.writeAborted reserved)
  | .createUser u h s g a => do createUser u h s g a; pure .none
  | .changePassword u h s => do changePassword u h s; pure .none
  | .chmod p mode c => do chmod p mode c; pure .none
  | .chown p owner group c => do chown p owner group c; pure .none

end DfshaControlTree
