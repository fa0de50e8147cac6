import Dfsha.BigEndianProofs
import Dfsha.PathProofs
import Dfsha.RaisingActionProofs
import Dfsha.StretchProofs

/-! # The block store

    A DataNode keeps every block in a file of its own, encrypted.  The file is
    a header with a random nonce prefix, the records of the block in order,
    each the encryption of 1 MiB of it (the last one of what is left), and a
    record with the size, the number of chunks and the checksum.  The nonce of
    a record is the prefix and its index; the associated data bind it to the
    block id, to its index and to whether it is the last.

    AES-GCM and SHA-256 come from libraries: they are the parameter `Crypto`.
    A file operation finds the file or does not; other failures of the disk
    are left out. -/

namespace DfshaBlockStore

open RaisingAction Stretch DfshaPath

abbrev Bytes := List UInt8

/-- What the libraries give.  `decrypt` returns none for `InvalidTag`. -/
structure Crypto where
  encrypt (key nonce plaintext aad : Bytes) : Bytes
  decrypt (key nonce ciphertext aad : Bytes) : Option Bytes
  sha256 (data : Bytes) : Bytes

/-- `os.urandom(8)`. -/
abbrev NoncePrefix := { bytes : Bytes // bytes.length = 8 }

/-- What reading or writing a block raises. -/
inductive StoreError where
  | blockCorrupted (message : String)
  | blockNotFound (message : String)
  | valueError (message : String)
deriving DecidableEq

/-! ## The format -/

def magic : Bytes := [68, 70, 83, 69, 49]

def formatVersion : UInt8 := 1

def chunkSizeBytes : Nat := 1024 * 1024

def tagSizeBytes : Nat := 16

def headerSize : Nat := 5 + 1 + 8

def metadataSize : Nat := 8 + 8 + 32

def metadataRecordSize : Nat := metadataSize + tagSizeBytes

def maxChunks : Nat := 2 ^ 32 - 1

/-- What `_VALID_BLOCK_ID` matches. -/
def ValidBlockId (blockId : String) : Prop :=
  blockId.toList.length = 32 ∧
    ∀ c ∈ blockId.toList, ('0' ≤ c ∧ c ≤ '9') ∨ ('a' ≤ c ∧ c ≤ 'f')

instance (blockId : String) : Decidable (ValidBlockId blockId) :=
  have : Decidable (∀ c ∈ blockId.toList, ('0' ≤ c ∧ c ≤ '9') ∨ ('a' ≤ c ∧ c ≤ 'f')) :=
    List.decidableBAll _ _
  inferInstanceAs (Decidable (_ ∧ _))

/-- `block_id.encode("ascii")`. -/
def encodeAscii (blockId : String) : Bytes :=
  blockId.toList.map fun c => UInt8.ofNat c.toNat

def nonceBytes (pre : NoncePrefix) (counter : Nat) : Bytes :=
  pre.val ++ BigEndian.toBytes 4 counter

def tooManyChunks : StoreError :=
  .valueError "el bloque excede el máximo de chunks del formato DFSE1"

/-- `_nonce`. -/
def nonce (pre : NoncePrefix) (counter : Nat) : Except StoreError Bytes :=
  if counter ≤ maxChunks then .ok (nonceBytes pre counter) else .error tooManyChunks

def chunkAad (blockId : String) (index : Nat) (isLast : Bool) : Bytes :=
  encodeAscii blockId ++ BigEndian.toBytes 4 index ++ [if isLast then 1 else 0]

def metadataAad (blockId : String) (header : Bytes) : Bytes :=
  encodeAscii blockId ++ [109, 101, 116, 97, 100, 97, 116, 97] ++ header

/-- `_HEADER.pack`. -/
def packHeader (pre : NoncePrefix) : Bytes := magic ++ [formatVersion] ++ pre.val

/-- `_METADATA.pack`. -/
def packMetadata (logicalSize chunkCount : Nat) (checksum : Bytes) : Bytes :=
  BigEndian.toBytes 8 logicalSize ++ BigEndian.toBytes 8 chunkCount ++ checksum

def containerError (blockId detail : String) : StoreError :=
  .blockCorrupted s!"contenedor DFSE1 inválido para el bloque {blockId}: {detail}"

def noBlock (blockId : String) : StoreError :=
  .blockNotFound s!"no existe el bloque: {blockId}"

/-- `validate_block_id`, which every path goes through. -/
def validateBlockId (blockId : String) : Except StoreError Unit :=
  if ValidBlockId blockId then .ok ()
  else .error (.blockNotFound s!"block_id inválido: {pyRepr blockId}")

/-- `_validate_key`. -/
def validateKey (key : Bytes) : Except StoreError Unit :=
  if key.length = 32 then .ok ()
  else
    let size := key.length
    .error (.valueError s!"la llave AES-256-GCM debe tener 32 bytes, recibió {size}")

/-- How many chunks a block of a given size has. -/
def expectedChunks (logicalSize : Nat) : Nat :=
  if logicalSize = 0 then 0 else (logicalSize - 1) / chunkSizeBytes + 1

/-- The size of the file of a block. -/
def expectedSize (logicalSize chunkCount : Nat) : Nat :=
  let lastPlaintextSize :=
    if chunkCount = 0 then 0 else logicalSize - chunkSizeBytes * (chunkCount - 1)
  headerSize + (chunkCount - 1) * (chunkSizeBytes + tagSizeBytes)
    + (if chunkCount = 0 then 0 else lastPlaintextSize + tagSizeBytes)
    + metadataRecordSize

/-- `hexdigest`. -/
def hexDigest (digest : Bytes) : String :=
  String.ofList (digest.flatMap fun b =>
    [Nat.digitChar (b.toNat / 16), Nat.digitChar (b.toNat % 16)])

/-! ## Writing -/

/-- The arguments of an encryption. -/
structure Sealed where
  nonce : Bytes
  plaintext : Bytes
  aad : Bytes
deriving DecidableEq

/-- Where `write_block` is: what is in the temporary file and what it has
    counted and hashed.  `encrypted` only records the encryptions made. -/
structure Writer where
  file : Bytes := []
  bytesWritten : Nat := 0
  chunkCount : Nat := 0
  hashed : Bytes := []
  encrypted : List Sealed := []

section Write

variable (crypto : Crypto) (key : Bytes) (blockId : String) (pre : NoncePrefix)

/-- Encrypt and write to the file. -/
def writeSealed (x : Sealed) : Action Writer StoreError Unit :=
  modify fun w => { w with
    file := w.file ++ crypto.encrypt key x.nonce x.plaintext x.aad
    encrypted := w.encrypted ++ [x] }

def flush (plaintext : Bytes) (isLast : Bool) : Action Writer StoreError Unit := do
  let chunkCount ← gets Writer.chunkCount
  raiseIf (maxChunks ≤ chunkCount) tooManyChunks
  let n ← ofExcept (nonce pre chunkCount)
  writeSealed crypto key ⟨n, plaintext, chunkAad blockId chunkCount isLast⟩
  modify fun w => { w with chunkCount := w.chunkCount + 1 }

/-- `while len(pending) > _CHUNK_SIZE_BYTES`, which ends in at most as many
    turns as there are bytes; what is left. -/
def drain : Nat → Bytes → Action Writer StoreError Bytes
  | 0, pending => pure pending
  | turns + 1, pending =>
      if chunkSizeBytes < pending.length then do
        flush crypto key blockId pre (pending.take chunkSizeBytes) false
        drain turns (pending.drop chunkSizeBytes)
      else pure pending

/-- `for incoming in chunks`; what is pending at the end. -/
def consume : Bytes → List Bytes → Action Writer StoreError Bytes
  | pending, [] => pure pending
  | pending, incoming :: chunks => do
      modify fun w => { w with
        bytesWritten := w.bytesWritten + incoming.length
        hashed := w.hashed ++ incoming }
      let rest ← drain crypto key blockId pre (pending ++ incoming).length
        (pending ++ incoming)
      consume rest chunks

/-- `write_block`.  When it does not raise, what it has written to the file is
    moved to the place of the block in one step. -/
def writeBlock (chunks : List Bytes) : Action Writer StoreError (String × Nat) := do
  ofExcept (validateKey key)
  ofExcept (validateBlockId blockId)
  let header := packHeader pre
  modify fun w => { w with file := header }
  let pending ← consume crypto key blockId pre [] chunks
  if pending ≠ [] then flush crypto key blockId pre pending true else pure ()
  let w ← gets id
  let metadata := packMetadata w.bytesWritten w.chunkCount (crypto.sha256 w.hashed)
  let n ← ofExcept (nonce pre maxChunks)
  writeSealed crypto key ⟨n, metadata, metadataAad blockId header⟩
  pure (hexDigest (crypto.sha256 w.hashed), w.bytesWritten)

end Write

/-! ## Reading -/

/-- What is at the path each time that a read looks: the check that the block
    exists, the size, the metadata, the records.  In between another process
    may write, replace or remove the file. -/
structure Found where
  check : Option Bytes
  stat : Option Bytes
  metadata : Option Bytes
  records : Option Bytes

/-- A file that nobody touches. -/
def Found.still (file : Bytes) : Found := ⟨some file, some file, some file, some file⟩

structure Metadata where
  pre : NoncePrefix
  logicalSize : Nat
  chunkCount : Nat
  checksum : Bytes

/-- The actions of a read.  The state is what it has yielded. -/
abbrev Reading (α : Type) : Type := Action (List Bytes) StoreError α

/-- The file, or `FileNotFoundError`. -/
def openFile (blockId : String) : Option Bytes → Except StoreError Bytes
  | some file => .ok file
  | none => .error (noBlock blockId)

/-- Decryption, or `InvalidTag`. -/
def authentic (blockId : String) : Option Bytes → Except StoreError Bytes
  | some plaintext => .ok plaintext
  | none => .error (containerError blockId "tag inválido o llave incorrecta")

/-- The eight bytes of a header after the magic and the version. -/
def prefixOf (blockId : String) (header : Bytes) : Except StoreError NoncePrefix :=
  if h : (header.drop 6).length = 8 then .ok ⟨header.drop 6, h⟩
  else .error (containerError blockId "encabezado truncado")

section Read

variable (crypto : Crypto) (key : Bytes) (blockId : String)

/-- `_read_metadata`. -/
def readMetadata (found : Found) : Reading Metadata := do
  let onDisk ← ofExcept (openFile blockId found.stat)
  let sizeOnDisk := onDisk.length
  raiseIf (sizeOnDisk < headerSize + metadataRecordSize)
    (containerError blockId "truncado antes de metadata")
  let fh ← ofExcept (openFile blockId found.metadata)
  let header := fh.take headerSize
  let pre ← ofExcept (prefixOf blockId header)
  raiseIf (header.take 5 ≠ magic)
    (containerError blockId "magic ausente; no se admiten bloques legacy/plaintext")
  let version := header.getD 5 0
  raiseIf (version ≠ formatVersion)
    (containerError blockId s!"versión no soportada: {version}")
  -- a seek to before the beginning of the file
  raiseIf (fh.length < metadataRecordSize)
    (containerError blockId "[Errno 22] Invalid argument")
  let encryptedMetadata := fh.drop (fh.length - metadataRecordSize)
  ofExcept (validateKey key)
  let n ← ofExcept (nonce pre maxChunks)
  let metadata ← ofExcept (authentic blockId
    (crypto.decrypt key n encryptedMetadata (metadataAad blockId header)))
  raiseIf (metadata.length ≠ metadataSize)
    (containerError blockId "metadata con tamaño inválido")
  let logicalSize := BigEndian.ofBytes (metadata.take 8)
  let chunkCount := BigEndian.ofBytes ((metadata.drop 8).take 8)
  let checksum := metadata.drop 16
  raiseIf (chunkCount ≠ expectedChunks logicalSize)
    (containerError blockId "conteo de chunks no coincide con el tamaño lógico")
  raiseIf (maxChunks < chunkCount)
    (containerError blockId "conteo de chunks fuera del formato")
  raiseIf (sizeOnDisk ≠ expectedSize logicalSize chunkCount)
    (containerError blockId "framing truncado o con bytes extra")
  pure ⟨pre, logicalSize, chunkCount, checksum⟩

/-- The range of a request that a read serves. -/
structure Range where
  offset : Nat
  stop : Nat

def Range.firstIndex (r : Range) : Nat := r.offset / chunkSizeBytes

def Range.lastIndex (r : Range) : Nat := (r.stop - 1) / chunkSizeBytes

/-- The plaintext size of a chunk. -/
def Metadata.plaintextSize (m : Metadata) (index : Nat) : Nat :=
  if index < m.chunkCount - 1 then chunkSizeBytes
  else m.logicalSize - chunkSizeBytes * (m.chunkCount - 1)

/-- One turn of the loop of `read_block`. -/
def readChunk (m : Metadata) (r : Range) (chunkSize : Nat) (fh : Bytes) (index : Nat) :
    Reading Unit := do
  let plaintextSize := m.plaintextSize index
  let encryptedSize := plaintextSize + tagSizeBytes
  let encryptedOffset := headerSize + index * (chunkSizeBytes + tagSizeBytes)
  let encrypted := (fh.drop encryptedOffset).take encryptedSize
  raiseIf (encrypted.length ≠ encryptedSize) (containerError blockId "chunk truncado")
  let n ← ofExcept (nonce m.pre index)
  let plaintext ← ofExcept (authentic blockId (crypto.decrypt key n encrypted
    (chunkAad blockId index (decide (index = m.chunkCount - 1)))))
  raiseIf (plaintext.length ≠ plaintextSize)
    (containerError blockId "tamaño de chunk autenticado inválido")
  let startInChunk :=
    if index = r.firstIndex then r.offset - index * chunkSizeBytes else 0
  let endInChunk :=
    if index = r.lastIndex then r.stop - index * chunkSizeBytes else plaintextSize
  raiseIf (chunkSize = 0) (.valueError "range() arg 3 must not be zero")
  modify (· ++ pieces plaintext startInChunk endInChunk chunkSize)

def readChunks (m : Metadata) (r : Range) (chunkSize : Nat) (fh : Bytes) :
    List Nat → Reading Unit
  | [] => pure ()
  | index :: rest => do
      readChunk crypto key blockId m r chunkSize fh index
      readChunks m r chunkSize fh rest

/-- The rest of `read_block`, after the metadata. -/
def serve (m : Metadata) (found : Found) (chunkSize : Nat) (offset : Int)
    (length : Option Int) : Reading Unit :=
  if m.logicalSize ≤ offset ∨ length = some 0 then pure ()
  else do
    let stop := (length.map fun n => min m.logicalSize (offset + n).toNat).getD
      m.logicalSize
    let r : Range := ⟨offset.toNat, stop⟩
    ofExcept (validateKey key)
    let fh ← ofExcept (openFile blockId found.records)
    readChunks crypto key blockId m r chunkSize fh
      (List.range' r.firstIndex (r.lastIndex + 1 - r.firstIndex))

/-- `read_block`. -/
def readBlock (found : Found) (chunkSize : Nat) (offset : Int) (length : Option Int) :
    Reading Unit := do
  let asked := (length.map toString).getD "None"
  raiseIf (offset < 0 ∨ ∃ n ∈ length, n < 0)
    (.valueError s!"rango inválido: offset={offset}, length={asked}")
  ofExcept (validateBlockId blockId)
  let _ ← ofExcept (openFile blockId found.check)
  let m ← readMetadata crypto key blockId found
  serve crypto key blockId m found chunkSize offset length

end Read

/-- A block of four bytes. -/
def hola : Bytes := [104, 111, 108, 97]

end DfshaBlockStore
