import Dfsha.BlockFailoverProofs
import Dfsha.PathNamesProofs

/-! # The lock handles of a client

    A client keeps a handle for every lock that it takes.  A handle is lost when
    a renewal is answered with a conflict or an expired session, and closed when
    it is released; either way it leaves the table of held locks.  Reads and
    writes go through a handle, or look for one of the path in the table, or
    take a lock for themselves.

    What the client does is told by the calls it sends: a lock is held from the
    answer that grants it until `Unlock` is sent or a renewal is refused.  The
    flags of the handles say the same, and whatever is in the table is held.  A
    write asks the flags of its handle; a read through a handle does not, and
    that is the one operation that can start without a lock. -/

namespace DfshaLockHandles

open InsertionDict RaisingAction TransitionSystem TransitionSystem.System
open DfshaPath DfshaControlTree
open DfshaBlockFailover (DomainError)
open DfshaPathNames (canonicalLockPath)

/-! ## The client -/

/-- A domain exception at the client. -/
structure Failure where
  cls : DomainError
  message : String
deriving DecidableEq

/-- `LeaseLock`. -/
structure LeaseLock where
  path : String
  mode : LockMode
  lockId : String
  leaseS : Time
  lost : Bool := false
  released : Bool := false
deriving DecidableEq

instance : Inhabited LeaseLock := ⟨{ path := "/", mode := .r, lockId := "", leaseS := 0 }⟩

/-- What the client sends, and the answers that tell it what it holds. -/
inductive Event where
  -- `Lock` is answered with a lock
  | granted (lockId path : String) (mode : LockMode)
  | renewing (lockId : String)
  -- `RenewLock` is answered with a conflict or an expired session
  | lost (lockId : String)
  | unlocking (lockId : String)
  -- the first call of a read, `ListBlocks`, or of a write, `BeginWrite`
  | started (write : Bool) (path : String)
deriving DecidableEq

/-- A handle is a position in the list of all that were made; `heldLocks` is
    `_held_locks`. -/
structure Client where
  handles : List LeaseLock
  heldLocks : Dict String Nat
  trace : List Event

def Client.empty : Client := ⟨[], Dict.empty, []⟩

def Client.lease (s : Client) (h : Nat) : LeaseLock := s.handles.getD h default

/-- `locks()`, in the order in which they were taken. -/
def Client.locks (s : Client) : List Nat := s.heldLocks.entries.map Prod.snd

abbrev ClientM (α : Type) : Type := Action Client Failure α

def emit (e : Event) : ClientM Unit := modify fun s => { s with trace := s.trace ++ [e] }

def getLease (h : Nat) : ClientM LeaseLock := gets fun s => s.lease h

def setLease (h : Nat) (f : LeaseLock → LeaseLock) : ClientM Unit :=
  modify fun s => { s with handles := s.handles.modify h f }

/-- What the control node answers to an operation: to its `Lock`, to its
    `Unlock`, and to the calls of the read or write itself. -/
structure Answers where
  taken : Except Failure (String × Time)
  unlocked : Except Failure Unit
  rest : Except Failure Unit

/-- `lock`, which `open` calls as it is. -/
def lock (path mode : String) (answers : Answers) : ClientM Nat :=
  match parseLockMode mode with
  | none => raise ⟨.invalidPathError, s!"modo de lock inválido: {pyRepr mode}"⟩
  | some mode => do
      let canonicalPath := canonicalLockPath path
      let (lockId, leaseS) ← ofExcept answers.taken
      emit (.granted lockId canonicalPath mode)
      let s ← gets id
      modify fun s => { s with
        handles := s.handles ++ [{ path := canonicalPath, mode, lockId, leaseS }]
        heldLocks := s.heldLocks.insert lockId s.handles.length }
      pure s.handles.length

/-- `_forget_held_lock`. -/
def forgetHeldLock (h : Nat) (lost : Bool) : ClientM Unit := do
  setLease h fun held => { held with lost := held.lost || lost }
  modify fun s => { s with heldLocks := s.heldLocks.erase (s.lease h).lockId }

/-- `_renew_held_lock`. -/
def renewHeldLock (h : Nat) (answer : Except Failure Unit) : ClientM Unit := do
  let held ← getLease h
  if held.lost = true ∨ held.released = true then pure ()
  else do
    emit (.renewing held.lockId)
    match answer with
    | .ok () => pure ()
    | .error e =>
        if e.cls = .conflictError ∨ e.cls = .authError then do
          emit (.lost held.lockId)
          forgetHeldLock h true
          raise e
        else raise e

/-- The `try` of `_release_held_lock`, with a conflict already caught. -/
def callUnlock (h : Nat) (answer : Except Failure Unit) : ClientM (Except Failure Unit) := do
  let held ← getLease h
  if held.lost = true then pure (.ok ())
  else do
    emit (.unlocking held.lockId)
    match answer with
    | .ok () => pure (.ok ())
    | .error e =>
        if e.cls = .conflictError then do
          setLease h fun held => { held with lost := true }
          pure (.ok ())
        else pure (.error e)

/-- `_release_held_lock`. -/
def releaseHeldLock (h : Nat) (answer : Except Failure Unit) : ClientM Unit := do
  let held ← getLease h
  if held.released = true then pure ()
  else do
    let result ← callUnlock h answer
    -- the `finally`
    setLease h fun held => { held with released := true }
    forgetHeldLock h false
    ofExcept result

/-- `LeaseLock.renew`. -/
def renew (h : Nat) (answer : Except Failure Unit) : ClientM Unit := do
  let held ← getLease h
  if held.released = true then pure () else renewHeldLock h answer

/-- `LeaseLock.release`, which `close` calls as it is. -/
def release (h : Nat) (answer : Except Failure Unit) : ClientM Unit := do
  let held ← getLease h
  if held.released = true then pure () else releaseHeldLock h answer

/-- `try: … finally: try: … except DFShaError: pass`: the result is that of the
    body. -/
def tryFinally {α : Type} (x : ClientM α) (cleanup : ClientM Unit) : ClientM α := fun s =>
  ((x s).1, (cleanup (x s).2).2)

/-- The first handle in the table that has a property. -/
def Client.firstHeld (s : Client) (p : LeaseLock → Prop) [DecidablePred p] : Option Nat :=
  s.locks.find? fun h => p (s.lease h)

/-- A read from its first call on. -/
def startRead (path : String) (answers : Answers) : ClientM Unit := do
  emit (.started false path)
  ofExcept answers.rest

/-- `_read_range`, which `read` and `read_to_file` call without a handle. -/
def readRange (path : String) (offset : Int) (length : Option Int) (held : Option Nat)
    (answers : Answers) : ClientM Unit := do
  raiseIf (offset < 0 ∨ ∃ n ∈ length, n < 0) ⟨.invalidPathError,
    let shown := length.elim "None" fun n => s!"{n}"
    s!"rango inválido: offset={offset}, length={shown}"⟩
  let s ← gets id
  let canonicalPath := canonicalLockPath path
  match held.or (s.firstHeld fun l => l.path = canonicalPath ∧ l.lost = false) with
  | some _ => startRead path answers
  | none => do
      let own ← lock path "r" answers
      tryFinally (startRead path answers) (release own answers.unlocked)

/-- `LeaseLock.read`. -/
def handleRead (h : Nat) (offset : Int) (length : Option Int) (answers : Answers) :
    ClientM Unit := do
  let self ← getLease h
  readRange self.path offset length (some h) answers

/-- `_write_with_lock`, which `LeaseLock.write` calls as it is. -/
def writeWithLock (h : Nat) (answers : Answers) : ClientM Unit := do
  let held ← getLease h
  raiseIf (held.mode ≠ .w ∨ held.released = true ∨ held.lost = true) ⟨.conflictError,
    let path := held.path
    s!"hace falta un handle abierto en modo w para escribir en {path}"⟩
  emit (.started true held.path)
  ofExcept answers.rest

/-- `write`. -/
def write (path : String) (answers : Answers) : ClientM Unit := do
  let s ← gets id
  let canonicalPath := canonicalLockPath path
  match s.firstHeld fun l => l.path = canonicalPath ∧ l.mode = .w ∧ l.lost = false with
  | some h => writeWithLock h answers
  | none => do
      let own ← lock path "w" answers
      tryFinally (writeWithLock own answers) (release own answers.unlocked)

/-- `unlock`: the last handle of the path that is not closed. -/
def unlock (path : String) (answer : Except Failure Unit) : ClientM Unit := do
  let s ← gets id
  let canonicalPath := canonicalLockPath path
  match s.locks.reverse.find? fun h =>
      (s.lease h).path = canonicalPath ∧ (s.lease h).released = false with
  | some h => release h answer
  | none => raise ⟨.conflictError, s!"no hay lock propio para: {canonicalPath}"⟩

/-! ## Sequences of operations -/

inductive Operation where
  | lock (path mode : String) (answers : Answers)
  | handleRead (h : Nat) (offset : Int) (length : Option Int) (answers : Answers)
  | handleWrite (h : Nat) (answers : Answers)
  | read (path : String) (offset : Int) (length : Option Int) (answers : Answers)
  | write (path : String) (answers : Answers)
  | renew (h : Nat) (answers : Answers)
  | release (h : Nat) (answers : Answers)
  | unlock (path : String) (answers : Answers)

def perform : Operation → ClientM Unit
  | .lock path mode answers => do
      let _ ← lock path mode answers
      pure ()
  | .handleRead h offset length answers => handleRead h offset length answers
  | .handleWrite h answers => writeWithLock h answers
  | .read path offset length answers => readRange path offset length none answers
  | .write path answers => write path answers
  | .renew h answers => renew h answers.rest
  | .release h answers => release h answers.unlocked
  | .unlock path answers => unlock path answers.unlocked

/-- The handle of an operation on a handle. -/
def handleOf : Operation → Option Nat
  | .handleRead h _ _ _ | .handleWrite h _ | .renew h _ | .release h _ => some h
  | _ => none

def answersOf : Operation → Answers
  | .lock _ _ answers | .handleRead _ _ _ answers | .handleWrite _ answers
  | .read _ _ _ answers | .write _ answers | .renew _ answers | .release _ answers
  | .unlock _ answers => answers

/-- The operation is on a handle that was made, and the lock that the control
    node grants is a new one: it draws a new id for each. -/
def Possible (s : Client) (op : Operation) : Prop :=
  (∀ h ∈ handleOf op, h < s.handles.length) ∧
    ∀ a ∈ (answersOf op).taken.toOption, ∀ l ∈ s.handles, l.lockId ≠ a.1

instance (s : Client) (op : Operation) : Decidable (Possible s op) :=
  inferInstanceAs (Decidable (_ ∧ _))

def next (s : Client) (op : Operation) : Option Client :=
  if Possible s op then some (perform op s).2 else none

/-- The sequences of operations, one after the other; the renewer is one that
    calls `renew`. -/
def handles : System Client Operation := ofPartial Client.empty next

/-! ## The law -/

/-- The lock was given up, or is known to be lost. -/
def Gone (trace : List Event) (lockId : String) : Prop :=
  Event.unlocking lockId ∈ trace ∨ Event.lost lockId ∈ trace

/-- The client holds a lock on the path, an exclusive one for a write. -/
def Holds (trace : List Event) (write : Bool) (path : String) : Prop :=
  ∃ lockId mode, Event.granted lockId (canonicalLockPath path) mode ∈ trace ∧
    ¬ Gone trace lockId ∧ (write = true → mode = .w)

/-- The operation reads or writes. -/
def isAccess : Operation → Bool
  | .handleRead .. | .handleWrite .. | .read .. | .write .. => true
  | _ => false

/-- A read or write starts only under a lock, and an operation on a handle whose
    lock is gone sends nothing; if it reads or writes, it is refused. -/
structure Lawful (s : Client) (op : Operation) : Prop where
  locked : ∀ pre write path post,
    (perform op s).2.trace = s.trace ++ (pre ++ .started write path :: post) →
    Holds (s.trace ++ pre) write path
  refused : ∀ h l, handleOf op = some h → s.handles[h]? = some l → Gone s.trace l.lockId →
    (perform op s).2.trace = s.trace ∧
      (isAccess op = true → ∃ e, (perform op s).1 = .error e)

/-- A read of a valid range through a handle whose lock is gone. -/
def ReadsGone (s : Client) (op : Operation) : Prop :=
  ∃ h offset length answers l, op = .handleRead h offset length answers ∧
    s.handles[h]? = some l ∧ Gone s.trace l.lockId ∧ 0 ≤ offset ∧ ∀ n ∈ length, 0 ≤ n

/-- Something is true of every operation of a sequence, in the state before it. -/
def Along (P : Client → Operation → Prop) (ops : List Operation) : Prop :=
  ∀ pre op post s, ops = pre ++ op :: post → handles.Run pre s → Possible s op → P s op

/-! ## The flags say what is held -/

/-- The handle is still good: neither closed nor lost. -/
def LeaseLock.Open (l : LeaseLock) : Prop := l.lost = false ∧ l.released = false

structure HandlesInv (s : Client) : Prop where
  granted : ∀ {h : Nat} {l : LeaseLock}, s.handles[h]? = some l →
    .granted l.lockId l.path l.mode ∈ s.trace ∧ canonicalLockPath l.path = l.path
  flags : ∀ {h : Nat} {l : LeaseLock}, s.handles[h]? = some l →
    (l.Open ↔ ¬ Gone s.trace l.lockId)
  distinct : ∀ {h h' : Nat} {l l' : LeaseLock}, s.handles[h]? = some l →
    s.handles[h']? = some l' → l.lockId = l'.lockId → h = h'
  known : ∀ {id : String}, Gone s.trace id →
    ∃ (h : Nat) (l : LeaseLock), s.handles[h]? = some l ∧ l.lockId = id
  held : ∀ {id : String} {h : Nat}, s.heldLocks.get? id = some h →
    ∃ l : LeaseLock, s.handles[h]? = some l ∧ l.lockId = id ∧ l.Open

/-- Every read and write among the events starts under a lock, the events before
    it being known. -/
def Covered : List Event → List Event → Prop
  | _, [] => True
  | trace, e :: events =>
      (∀ write path, e = .started write path → Holds trace write path) ∧
        Covered (trace ++ [e]) events

theorem covered_append {trace events events' : List Event} (h : Covered trace events)
    (h' : Covered (trace ++ events) events') : Covered trace (events ++ events') := by
  induction events generalizing trace with
  | nil =>
      rw [List.append_nil] at h'
      exact h'
  | cons e events ih =>
      refine ⟨h.1, ih h.2 ?_⟩
      rw [List.append_assoc]
      exact h'

theorem holds_of_covered {trace pre post : List Event} {write : Bool} {path : String}
    (h : Covered trace (pre ++ .started write path :: post)) :
    Holds (trace ++ pre) write path := by
  induction pre generalizing trace with
  | nil =>
      rw [List.append_nil]
      exact h.1 write path rfl
  | cons e pre ih =>
      have hrest := ih h.2
      rw [List.append_assoc] at hrest
      exact hrest

/-- What the operations do to a client: the invariant is kept, and what they
    start is covered. -/
structure Moves (s s' : Client) : Prop where
  inv : HandlesInv s'
  events : ∃ events, s'.trace = s.trace ++ events ∧ Covered s.trace events

theorem Moves.refl {s : Client} (hinv : HandlesInv s) : Moves s s :=
  ⟨hinv, [], (List.append_nil _).symm, trivial⟩

theorem Moves.trans {s s₁ s₂ : Client} (h : Moves s s₁) (h' : Moves s₁ s₂) : Moves s s₂ := by
  obtain ⟨events, htrace, hcovered⟩ := h.events
  obtain ⟨events', htrace', hcovered'⟩ := h'.events
  refine ⟨h'.inv, events ++ events', ?_, ?_⟩
  · rw [htrace', htrace, List.append_assoc]
  · rw [htrace] at hcovered'
    exact covered_append hcovered hcovered'

/-- A canonical path is its own canonical path. -/
theorem canonicalLockPath_idem (p : String) :
    canonicalLockPath (canonicalLockPath p) = canonicalLockPath p := by
  have hwords : ∀ q : String, (splitSlash (stripSlash q.toList)).filter (· ≠ []) =
      words q.toList := fun q => words_stripSlash q.toList
  have hclean : ∀ w ∈ words p.toList, w ≠ [] ∧ '/' ∉ w := by
    intro w hw
    obtain ⟨hsplit, hne⟩ := List.mem_filter.mp hw
    exact ⟨of_decide_eq_true hne, slash_not_mem_splitSlash hsplit⟩
  have hback : words (canonicalLockPath p).toList = words p.toList := by
    rw [canonicalLockPath, String.toList_ofList, words_slash, hwords, words_joinSlash hclean]
  show String.ofList ('/' :: joinSlash ((splitSlash (stripSlash _)).filter (· ≠ []))) = _
  rw [hwords, hback, ← hwords p]
  rfl

section Moves

variable {s s' : Client} {h : Nat} {l : LeaseLock} {write : Bool} {path : String}

theorem lease_eq (hl : s.handles[h]? = some l) : s.lease h = l := by
  rw [Client.lease, List.getD_eq_getElem?_getD, hl, Option.getD_some]

theorem gone_concat {trace : List Event} {e : Event} {id : String}
    (hunlocking : e ≠ .unlocking id) (hlost : e ≠ .lost id) :
    Gone (trace ++ [e]) id ↔ Gone trace id := by
  simp only [Gone, List.mem_append, List.mem_singleton, hunlocking.symm, hlost.symm, or_false]

theorem gone_append {trace events : List Event} {id : String} :
    Gone (trace ++ events) id ↔ Gone trace id ∨ Gone events id := by
  simp only [Gone, List.mem_append]
  exact or_or_or_comm

/-- An open handle holds its lock. -/
theorem holds_of_open (hinv : HandlesInv s) (hl : s.handles[h]? = some l) (hopen : l.Open)
    (hpath : l.path = canonicalLockPath path) (hmode : write = true → l.mode = .w) :
    Holds s.trace write path := by
  refine ⟨l.lockId, l.mode, ?_, (hinv.flags hl).mp hopen, hmode⟩
  rw [← hpath]
  exact (hinv.granted hl).1

/-- A handle in the table is open. -/
theorem open_of_mem_locks (hinv : HandlesInv s) (hmem : h ∈ s.locks) :
    ∃ l, s.handles[h]? = some l ∧ l.Open := by
  obtain ⟨⟨id, h'⟩, hentry, rfl⟩ := List.mem_map.mp hmem
  obtain ⟨l, hl, _, hopen⟩ := hinv.held (Dict.get?_eq_some_iff.mpr hentry)
  exact ⟨l, hl, hopen⟩

/-- A call that changes no lock. -/
theorem inv_emit {e : Event} (hinv : HandlesInv s)
    (hgone : ∀ id, e ≠ .unlocking id ∧ e ≠ .lost id) :
    HandlesInv { s with trace := s.trace ++ [e] } := by
  have hiff : ∀ id, Gone (s.trace ++ [e]) id ↔ Gone s.trace id := fun id =>
    gone_concat (hgone id).1 (hgone id).2
  refine ⟨?_, ?_, hinv.distinct, ?_, hinv.held⟩
  · intro h l hl
    obtain ⟨hgranted, hcanonical⟩ := hinv.granted hl
    exact ⟨List.mem_append_left _ hgranted, hcanonical⟩
  · intro h l hl
    show _ ↔ ¬ Gone (s.trace ++ [e]) l.lockId
    rw [hiff]
    exact hinv.flags hl
  · intro id hid
    exact hinv.known ((hiff id).mp hid)

/-- A read or write that starts under a lock. -/
theorem moves_started (hinv : HandlesInv s) (hholds : Holds s.trace write path) :
    Moves s { s with trace := s.trace ++ [.started write path] } := by
  refine ⟨inv_emit hinv fun id => ⟨by simp, by simp⟩, [.started write path], rfl, ?_, trivial⟩
  intro _ _ he
  obtain ⟨rfl, rfl⟩ := Event.started.inj he
  exact hholds

/-- A renewal that changes nothing. -/
theorem moves_renewing (hinv : HandlesInv s) (id : String) :
    Moves s { s with trace := s.trace ++ [.renewing id] } := by
  refine ⟨inv_emit hinv fun id => ⟨by simp, by simp⟩, [.renewing id], rfl, ?_, trivial⟩
  intro _ _ he
  cases he

/-- The client with one more handle. -/
def Client.grant (s : Client) (l : LeaseLock) : Client where
  handles := s.handles ++ [l]
  heldLocks := s.heldLocks.insert l.lockId s.handles.length
  trace := s.trace ++ [.granted l.lockId l.path l.mode]

/-- A handle is one of the old ones, or the new one. -/
theorem getElem?_grant {l' : LeaseLock} (hl : (s.grant l).handles[h]? = some l') :
    s.handles[h]? = some l' ∨ h = s.handles.length ∧ l' = l := by
  rw [Client.grant, List.getElem?_append] at hl
  by_cases hlt : h < s.handles.length
  · rw [if_pos hlt] at hl
    exact .inl hl
  · rw [if_neg hlt, List.getElem?_singleton] at hl
    by_cases hzero : h - s.handles.length = 0
    · rw [if_pos hzero] at hl
      exact .inr ⟨by omega, (Option.some.inj hl).symm⟩
    · rw [if_neg hzero] at hl
      cases hl

theorem getElem?_grant_new : (s.grant l).handles[s.handles.length]? = some l :=
  List.getElem?_concat_length

theorem getElem?_grant_old {l' : LeaseLock} (hl : s.handles[h]? = some l') :
    (s.grant l).handles[h]? = some l' := by
  rw [Client.grant, List.getElem?_append_left (List.getElem?_eq_some_iff.mp hl).1]
  exact hl

theorem inv_grant (hinv : HandlesInv s) (hopen : l.Open) (hpath : canonicalLockPath l.path = l.path)
    (hfresh : ∀ l' ∈ s.handles, l'.lockId ≠ l.lockId) : HandlesInv (s.grant l) := by
  have hnone : ¬ Gone s.trace l.lockId := by
    intro hgone
    obtain ⟨h, l', hl', hid⟩ := hinv.known hgone
    exact hfresh l' (List.mem_of_getElem? hl') hid
  have hiff : ∀ id, Gone (s.grant l).trace id ↔ Gone s.trace id := fun id =>
    gone_concat (by simp) (by simp)
  refine ⟨?_, ?_, ?_, ?_, ?_⟩
  · intro h l' hl
    rcases getElem?_grant hl with hl | ⟨rfl, rfl⟩
    · obtain ⟨hgranted, hcanonical⟩ := hinv.granted hl
      exact ⟨List.mem_append_left _ hgranted, hcanonical⟩
    · exact ⟨List.mem_append_right _ (List.mem_singleton.mpr rfl), hpath⟩
  · intro h l' hl
    rw [hiff]
    rcases getElem?_grant hl with hl | ⟨rfl, rfl⟩
    · exact hinv.flags hl
    · exact iff_of_true hopen hnone
  · intro h h' l₁ l₂ hl₁ hl₂ hid
    rcases getElem?_grant hl₁ with hold₁ | ⟨rfl, rfl⟩ <;>
      rcases getElem?_grant hl₂ with hold₂ | ⟨rfl, rfl⟩
    · exact hinv.distinct hold₁ hold₂ hid
    · exact absurd hid (hfresh l₁ (List.mem_of_getElem? hold₁))
    · exact absurd hid.symm (hfresh l₂ (List.mem_of_getElem? hold₂))
    · rfl
  · intro id hgone
    obtain ⟨h, l', hl', hid⟩ := hinv.known ((hiff id).mp hgone)
    exact ⟨h, l', getElem?_grant_old hl', hid⟩
  · intro id h hget
    rcases Dict.get?_insert_eq_some hget with ⟨rfl, rfl⟩ | hget
    · exact ⟨l, getElem?_grant_new, rfl, hopen⟩
    · obtain ⟨l', hl', hid, hopen'⟩ := hinv.held hget
      exact ⟨l', getElem?_grant_old hl', hid, hopen'⟩

theorem moves_grant (hinv : HandlesInv s) (hopen : l.Open)
    (hpath : canonicalLockPath l.path = l.path)
    (hfresh : ∀ l' ∈ s.handles, l'.lockId ≠ l.lockId) : Moves s (s.grant l) := by
  refine ⟨inv_grant hinv hopen hpath hfresh, [.granted l.lockId l.path l.mode], rfl, ?_, trivial⟩
  intro _ _ he
  cases he

/-- The client with one handle less to use. -/
def Client.retire (s : Client) (h : Nat) (f : LeaseLock → LeaseLock) (events : List Event) :
    Client where
  handles := s.handles.modify h f
  heldLocks := s.heldLocks.erase (s.lease h).lockId
  trace := s.trace ++ events

/-- What is done to a handle that is closed or lost, and what is sent for it. -/
structure Retires (l : LeaseLock) (f : LeaseLock → LeaseLock) (events : List Event) : Prop where
  path : (f l).path = l.path
  mode : (f l).mode = l.mode
  lockId : (f l).lockId = l.lockId
  shut : ¬ (f l).Open
  own : ∀ e ∈ events, e = .renewing l.lockId ∨ e = .lost l.lockId ∨ e = .unlocking l.lockId
  told : l.Open → Gone events l.lockId

theorem Retires.gone_iff {f : LeaseLock → LeaseLock} {events : List Event} {id : String}
    (hf : Retires l f events) (hne : id ≠ l.lockId) :
    Gone (s.retire h f events).trace id ↔ Gone s.trace id := by
  have hnone : ¬ Gone events id := by
    rintro (hmem | hmem) <;> rcases hf.own _ hmem with he | he | he <;> cases he <;>
      exact hne rfl
  exact gone_append.trans (or_iff_left hnone)

/-- A handle is the one that is retired, or another. -/
theorem getElem?_retire {f : LeaseLock → LeaseLock} {events : List Event} {h' : Nat}
    {l' : LeaseLock} (hl : s.handles[h]? = some l)
    (hl' : (s.retire h f events).handles[h']? = some l') :
    h' = h ∧ l' = f l ∨ h' ≠ h ∧ s.handles[h']? = some l' := by
  by_cases hh : h' = h
  · subst hh
    rw [Client.retire, List.getElem?_modify_eq, hl] at hl'
    exact .inl ⟨rfl, (Option.some.inj hl').symm⟩
  · rw [Client.retire, List.getElem?_modify_ne _ _ (Ne.symm hh)] at hl'
    exact .inr ⟨hh, hl'⟩

theorem inv_retire {f : LeaseLock → LeaseLock} {events : List Event} (hinv : HandlesInv s)
    (hl : s.handles[h]? = some l) (hf : Retires l f events) :
    HandlesInv (s.retire h f events) := by
  have hgone : Gone (s.retire h f events).trace l.lockId := by
    refine gone_append.mpr ?_
    by_cases hopen : l.Open
    · exact .inr (hf.told hopen)
    · exact .inl (not_not.mp (mt (hinv.flags hl).mpr hopen))
  -- a handle stands where it stood, with the same lock
  have hback : ∀ (h' : Nat) (l' : LeaseLock), (s.retire h f events).handles[h']? = some l' →
      ∃ l₀ : LeaseLock, s.handles[h']? = some l₀ ∧ l'.path = l₀.path ∧ l'.mode = l₀.mode ∧
        l'.lockId = l₀.lockId := by
    intro h' l' hl'
    rcases getElem?_retire hl hl' with ⟨rfl, rfl⟩ | ⟨_, hl'⟩
    · exact ⟨l, hl, hf.path, hf.mode, hf.lockId⟩
    · exact ⟨l', hl', rfl, rfl, rfl⟩
  refine ⟨?_, ?_, ?_, ?_, ?_⟩
  · intro h' l' hl'
    obtain ⟨l₀, hl₀, hpath, hmode, hid⟩ := hback h' l' hl'
    rw [hpath, hmode, hid]
    obtain ⟨hgranted, hcanonical⟩ := hinv.granted hl₀
    exact ⟨List.mem_append_left _ hgranted, hcanonical⟩
  · intro h' l' hl'
    rcases getElem?_retire hl hl' with ⟨rfl, rfl⟩ | ⟨hne, hl'⟩
    · rw [hf.lockId]
      exact iff_of_false hf.shut (not_not.mpr hgone)
    · rw [hf.gone_iff fun hid => hne (hinv.distinct hl' hl hid)]
      exact hinv.flags hl'
  · intro h₁ h₂ l₁ l₂ hl₁ hl₂ hid
    obtain ⟨l₁', hl₁', _, _, hid₁⟩ := hback h₁ l₁ hl₁
    obtain ⟨l₂', hl₂', _, _, hid₂⟩ := hback h₂ l₂ hl₂
    exact hinv.distinct hl₁' hl₂' (hid₁ ▸ hid₂ ▸ hid)
  · intro id hid
    have hknown : ∃ (h' : Nat) (l₀ : LeaseLock), s.handles[h']? = some l₀ ∧ l₀.lockId = id := by
      by_cases hne : id = l.lockId
      · exact ⟨h, l, hl, hne.symm⟩
      · exact hinv.known ((hf.gone_iff hne).mp hid)
    obtain ⟨h', l₀, hl₀, rfl⟩ := hknown
    by_cases hh : h = h'
    · subst hh
      refine ⟨h, f l₀, ?_, ?_⟩
      · rw [Client.retire, List.getElem?_modify_eq, hl₀]
        rfl
      · obtain rfl := Option.some.inj (hl₀.symm.trans hl)
        exact hf.lockId
    · refine ⟨h', l₀, ?_, rfl⟩
      rw [Client.retire, List.getElem?_modify_ne _ _ hh]
      exact hl₀
  · intro id h' hget
    obtain ⟨hne, hget⟩ := Dict.get?_erase_eq_some hget
    rw [lease_eq hl] at hne
    obtain ⟨l', hl', hid, hopen⟩ := hinv.held hget
    refine ⟨l', ?_, hid, hopen⟩
    have hh : h ≠ h' := by
      rintro rfl
      rw [hl] at hl'
      obtain rfl := Option.some.inj hl'
      exact hne hid.symm
    rw [Client.retire, List.getElem?_modify_ne _ _ hh]
    exact hl'

theorem moves_retire {f : LeaseLock → LeaseLock} {events : List Event} (hinv : HandlesInv s)
    (hl : s.handles[h]? = some l) (hf : Retires l f events) :
    Moves s (s.retire h f events) := by
  refine ⟨inv_retire hinv hl hf, events, rfl, ?_⟩
  have hquiet : ∀ e ∈ events, ∀ write path, e ≠ .started write path := by
    intro e he write path
    rcases hf.own e he with rfl | rfl | rfl <;> simp
  clear hf
  generalize s.trace = trace
  induction events generalizing trace with
  | nil => trivial
  | cons e events ih =>
      refine ⟨fun write path he => absurd he (hquiet e List.mem_cons_self write path), ?_⟩
      exact ih (fun e he => hquiet e (List.mem_cons_of_mem _ he)) _

end Moves

/-! ## What each action does -/

section Actions

variable {s : Client} {h : Nat} {l : LeaseLock} {path : String}

/-- The answer grants a lock that no handle has. -/
def Fresh (s : Client) (answers : Answers) : Prop :=
  ∀ a ∈ answers.taken.toOption, ∀ l ∈ s.handles, l.lockId ≠ a.1

theorem wp_lock {mode : String} {answers : Answers} (hinv : HandlesInv s)
    (hfresh : Fresh s answers) :
    wp (lock path mode answers) s fun r s' => Moves s s' ∧ ∀ own, r = .ok own →
      ∃ l, s'.handles[own]? = some l ∧ l.path = canonicalLockPath path ∧ l.Open ∧
        parseLockMode mode = some l.mode := by
  unfold lock
  cases hmode : parseLockMode mode with
  | none => exact ⟨.refl hinv, fun _ h => by cases h⟩
  | some m =>
      refine wp_ofExcept_cases ?_ fun _ _ => ⟨.refl hinv, fun _ h => by cases h⟩
      rintro ⟨lockId, leaseS⟩ htaken
      refine wp_modify (wp_gets (wp_modify (wp_ret ⟨?_, ?_⟩)))
      · refine moves_grant (l := ⟨canonicalLockPath path, m, lockId, leaseS, false, false⟩) hinv
          ⟨rfl, rfl⟩ (canonicalLockPath_idem path) (hfresh (lockId, leaseS) ?_)
        rw [htaken]
        rfl
      · intro own hown
        obtain rfl := Except.ok.inj hown
        exact ⟨_, List.getElem?_concat_length, rfl, ⟨rfl, rfl⟩, rfl⟩

/-- A handle leaves the table, after what `g` did to it and the events for it. -/
theorem wp_forgetHeldLock {s₁ : Client} {lost : Bool} {g : LeaseLock → LeaseLock}
    {events : List Event} (hinv : HandlesInv s) (hl : s.handles[h]? = some l)
    (hhandles : s₁.handles = s.handles.modify h g) (hheld : s₁.heldLocks = s.heldLocks)
    (htrace : s₁.trace = s.trace ++ events)
    (hg : Retires l (fun held => { g held with lost := (g held).lost || lost }) events) :
    wp (forgetHeldLock h lost) s₁ fun r s' =>
      r = .ok () ∧ Moves s s' ∧ s'.trace = s.trace ++ events := by
  refine wp_modify (wp_modify_last ?_)
  have hlease : Client.lease { s₁ with handles := s₁.handles.modify h fun held =>
      { held with lost := held.lost || lost } } h = { g l with lost := (g l).lost || lost } := by
    refine lease_eq ?_
    show (s₁.handles.modify h _)[h]? = _
    rw [hhandles, List.getElem?_modify_eq, List.getElem?_modify_eq, hl]
    rfl
  have hid : (g l).lockId = l.lockId := hg.lockId
  rw [hlease]
  dsimp only
  rw [hid, hhandles, hheld, htrace, List.modify_modify_eq]
  have hmoves := moves_retire hinv hl hg
  rw [Client.retire, lease_eq hl] at hmoves
  exact ⟨rfl, hmoves, rfl⟩

/-- `renew` keeps the invariant, and sends nothing for a handle that is gone. -/
theorem wp_renew (hinv : HandlesInv s) (hl : s.handles[h]? = some l)
    (answer : Except Failure Unit) :
    wp (renew h answer) s fun _ s' => Moves s s' ∧ (¬ l.Open → s'.trace = s.trace) := by
  refine wp_gets ?_
  rw [lease_eq hl]
  by_cases hreleased : l.released = true
  · rw [if_pos hreleased]
    exact wp_ret ⟨.refl hinv, fun _ => rfl⟩
  rw [if_neg hreleased]
  refine wp_gets ?_
  rw [lease_eq hl]
  by_cases hlost : l.lost = true
  · rw [if_pos (.inl hlost)]
    exact wp_ret ⟨.refl hinv, fun _ => rfl⟩
  rw [if_neg (not_or.mpr ⟨hlost, hreleased⟩)]
  have hopen : l.Open :=
    ⟨Bool.eq_false_of_not_eq_true hlost, Bool.eq_false_of_not_eq_true hreleased⟩
  refine wp_modify ?_
  have hrenewing := moves_renewing hinv l.lockId
  cases answer with
  | ok _ => exact wp_ret ⟨hrenewing, fun hgone => absurd hopen hgone⟩
  | error e =>
      show wp (if _ then _ else _) _ _
      by_cases hcls : e.cls = .conflictError ∨ e.cls = .authError
      · rw [if_pos hcls]
        refine wp_modify ?_
        refine wp_call (wp_forgetHeldLock (g := id) hinv hl (List.modify_id ..).symm rfl
          (List.append_assoc s.trace [.renewing l.lockId] [.lost l.lockId]) ?_) ?_ ?_
        · refine ⟨rfl, rfl, rfl, ?_, ?_, ?_⟩
          · rintro ⟨hlost, _⟩
            exact absurd hlost (by simp)
          · intro e he
            rcases List.mem_pair.mp he with rfl | rfl
            · exact .inl rfl
            · exact .inr (.inl rfl)
          · intro _
            exact .inr (by simp)
        · rintro _ _ ⟨_, hmoves, _⟩
          exact ⟨hmoves, fun hgone => absurd hopen hgone⟩
        · rintro _ _ ⟨he, _⟩
          cases he
      · rw [if_neg hcls]
        exact ⟨hrenewing, fun hgone => absurd hopen hgone⟩

/-- The call of a release marks the handle at most as lost, and tells that the
    lock is given up unless it was lost. -/
theorem wp_callUnlock (hl : s.handles[h]? = some l) (answer : Except Failure Unit) :
    wp (callUnlock h answer) s fun r s' => ∃ result, r = .ok result ∧
      ∃ (g : LeaseLock → LeaseLock) (events : List Event),
        (g l).path = l.path ∧ (g l).mode = l.mode ∧ (g l).lockId = l.lockId ∧
        (events = [] ∧ l.lost = true ∨ events = [.unlocking l.lockId] ∧ l.lost = false) ∧
        s'.handles = s.handles.modify h g ∧ s'.heldLocks = s.heldLocks ∧
        s'.trace = s.trace ++ events := by
  refine wp_gets ?_
  rw [lease_eq hl]
  by_cases hlost : l.lost = true
  · rw [if_pos hlost]
    exact ⟨_, rfl, id, [], rfl, rfl, rfl, .inl ⟨rfl, hlost⟩, (List.modify_id ..).symm, rfl,
      (List.append_nil _).symm⟩
  rw [if_neg hlost]
  refine wp_modify ?_
  have hunlocking : [Event.unlocking l.lockId] = [] ∧ l.lost = true ∨
      [Event.unlocking l.lockId] = [.unlocking l.lockId] ∧ l.lost = false :=
    .inr ⟨rfl, Bool.eq_false_of_not_eq_true hlost⟩
  cases answer with
  | ok _ =>
      exact ⟨_, rfl, id, _, rfl, rfl, rfl, hunlocking, (List.modify_id ..).symm, rfl, rfl⟩
  | error e =>
      show wp (if _ then _ else _) _ _
      by_cases hcls : e.cls = .conflictError
      · rw [if_pos hcls]
        exact ⟨_, rfl, fun held => { held with lost := true }, _, rfl, rfl, rfl, hunlocking, rfl,
          rfl, rfl⟩
      · rw [if_neg hcls]
        exact ⟨_, rfl, id, _, rfl, rfl, rfl, hunlocking, (List.modify_id ..).symm, rfl, rfl⟩

theorem wp_releaseHeldLock (hinv : HandlesInv s) (hl : s.handles[h]? = some l)
    (answer : Except Failure Unit) :
    wp (releaseHeldLock h answer) s fun _ s' => Moves s s' ∧ (¬ l.Open → s'.trace = s.trace) := by
  refine wp_gets ?_
  rw [lease_eq hl]
  by_cases hreleased : l.released = true
  · rw [if_pos hreleased]
    exact wp_ret ⟨.refl hinv, fun _ => rfl⟩
  rw [if_neg hreleased]
  refine wp_call (wp_callUnlock hl answer) ?_ ?_
  · rintro result s₁ ⟨_, _, g, events, hpath, hmode, hid, hevents, hhandles, hheld, htrace⟩
    refine wp_modify ?_
    refine wp_call (wp_forgetHeldLock (g := fun held => { g held with released := true })
      hinv hl ?_ hheld htrace ?_) ?_ ?_
    · show s₁.handles.modify h _ = _
      rw [hhandles, List.modify_modify_eq]
      rfl
    · refine ⟨hpath, hmode, hid, ?_, ?_, ?_⟩
      · rintro ⟨_, hshut⟩
        cases hshut
      · intro e he
        rcases hevents with ⟨rfl, _⟩ | ⟨rfl, _⟩
        · cases he
        · exact .inr (.inr (List.mem_singleton.mp he))
      · intro hopen
        rcases hevents with ⟨_, hlost⟩ | ⟨rfl, _⟩
        · rw [hopen.1] at hlost
          cases hlost
        · exact .inl (List.mem_singleton.mpr rfl)
    · rintro _ s₂ ⟨_, hmoves, htrace₂⟩
      refine ⟨hmoves, fun hgone => ?_⟩
      rcases hevents with ⟨rfl, _⟩ | ⟨_, hlost⟩
      · exact htrace₂.trans (List.append_nil _)
      · exact absurd ⟨hlost, Bool.eq_false_of_not_eq_true hreleased⟩ hgone
    · rintro _ _ ⟨he, _⟩
      cases he
  · rintro _ _ ⟨_, he, _⟩
    cases he

/-- `release` keeps the invariant, and sends nothing for a handle that is gone. -/
theorem wp_release (hinv : HandlesInv s) (hl : s.handles[h]? = some l)
    (answer : Except Failure Unit) :
    wp (release h answer) s fun _ s' => Moves s s' ∧ (¬ l.Open → s'.trace = s.trace) := by
  refine wp_gets ?_
  by_cases hreleased : (s.lease h).released = true
  · rw [if_pos hreleased]
    exact wp_ret ⟨.refl hinv, fun _ => rfl⟩
  · rw [if_neg hreleased]
    exact wp_releaseHeldLock hinv hl answer

theorem wp_tryFinally {α : Type} {x : ClientM α} {cleanup : ClientM Unit}
    {P Q : Except Failure α → Client → Prop} (hx : wp x s P)
    (hcleanup : ∀ r s₁, P r s₁ → wp cleanup s₁ fun _ s₂ => Q r s₂) :
    wp (tryFinally x cleanup) s Q := hcleanup _ _ hx

/-- A read that starts under a lock. -/
theorem wp_startRead (hinv : HandlesInv s) (hholds : Holds s.trace false path)
    (answers : Answers) :
    wp (startRead path answers) s fun _ s' => Moves s s' ∧ s'.handles = s.handles :=
  wp_modify ⟨moves_started hinv hholds, rfl⟩

/-- `_write_with_lock` starts under the lock of the handle, or refuses and sends
    nothing. -/
theorem wp_writeWithLock (hinv : HandlesInv s) (hl : s.handles[h]? = some l)
    (answers : Answers) :
    wp (writeWithLock h answers) s fun r s' => Moves s s' ∧ s'.handles = s.handles ∧
      (¬ l.Open → s'.trace = s.trace ∧ ∃ e, r = .error e) := by
  refine wp_gets ?_
  rw [lease_eq hl]
  refine wp_raiseIf_cases ?_ ?_
  · intro _
    exact ⟨.refl hinv, rfl, fun _ => ⟨rfl, _, rfl⟩⟩
  · intro hpass
    simp only [not_or, Bool.not_eq_true, not_not] at hpass
    obtain ⟨hmode, hreleased, hlost⟩ := hpass
    refine wp_modify ⟨moves_started hinv ?_, rfl, fun hgone => absurd ⟨hlost, hreleased⟩ hgone⟩
    exact holds_of_open hinv hl ⟨hlost, hreleased⟩ (hinv.granted hl).2.symm fun _ => hmode

/-- The handle that a search of the table finds. -/
theorem firstHeld_eq_some {p : LeaseLock → Prop} [DecidablePred p] (hinv : HandlesInv s)
    (hfirst : s.firstHeld p = some h) : ∃ l, s.handles[h]? = some l ∧ l.Open ∧ p l := by
  obtain ⟨l, hl, hopen⟩ := open_of_mem_locks hinv (List.mem_of_find?_eq_some hfirst)
  refine ⟨l, hl, hopen, ?_⟩
  have hp := List.find?_some hfirst
  rw [lease_eq hl] at hp
  exact of_decide_eq_true hp

/-- A lock is taken for an access that starts under it, and released. -/
theorem wp_underOwnLock {mode : String} {answers : Answers} {body : Nat → ClientM Unit}
    (hinv : HandlesInv s) (hfresh : Fresh s answers)
    (hbody : ∀ s₁ own l, HandlesInv s₁ → s₁.handles[own]? = some l →
      l.path = canonicalLockPath path → l.Open →
      wp (body own) s₁ fun _ s₂ => Moves s₁ s₂ ∧ s₂.handles = s₁.handles) :
    wp (lock path mode answers >>= fun own =>
      tryFinally (body own) (release own answers.unlocked)) s fun _ s' => Moves s s' := by
  refine wp_call (wp_lock hinv hfresh) ?_ fun _ _ h => h.1
  rintro own s₁ ⟨hlock, hown⟩
  obtain ⟨l, hl, hpath, hopen, _⟩ := hown own rfl
  refine wp_tryFinally (hbody s₁ own l hlock.inv hl hpath hopen) ?_
  rintro _ s₂ ⟨haccess, hhandles⟩
  refine wp_mono (wp_release haccess.inv (hhandles ▸ hl) answers.unlocked) ?_
  rintro _ s₃ ⟨hrelease, _⟩
  exact (hlock.trans haccess).trans hrelease

/-- `_read_range` without a handle, as `read` and `read_to_file` call it. -/
theorem wp_readRange {offset : Int} {length : Option Int} {answers : Answers}
    (hinv : HandlesInv s) (hfresh : Fresh s answers) :
    wp (readRange path offset length none answers) s fun _ s' => Moves s s' := by
  refine wp_raiseIf (fun _ => .refl hinv) fun _ => wp_gets ?_
  dsimp only [id_eq, Option.none_or]
  cases hfirst : s.firstHeld fun l => l.path = canonicalLockPath path ∧ l.lost = false with
  | some h =>
      obtain ⟨l, hl, hopen, hpath, _⟩ := firstHeld_eq_some hinv hfirst
      have hholds : Holds s.trace false path := holds_of_open hinv hl hopen hpath (by simp)
      exact wp_mono (wp_startRead hinv hholds answers) fun _ _ h => h.1
  | none =>
      refine wp_underOwnLock hinv hfresh fun s₁ own l hinv₁ hl hpath hopen => ?_
      exact wp_startRead hinv₁ (holds_of_open hinv₁ hl hopen hpath (by simp)) answers

theorem wp_write {answers : Answers} (hinv : HandlesInv s) (hfresh : Fresh s answers) :
    wp (write path answers) s fun _ s' => Moves s s' := by
  refine wp_gets ?_
  dsimp only [id_eq]
  cases hfirst : s.firstHeld fun l =>
      l.path = canonicalLockPath path ∧ l.mode = .w ∧ l.lost = false with
  | some h =>
      obtain ⟨l, hl, _, _⟩ := firstHeld_eq_some hinv hfirst
      exact wp_mono (wp_writeWithLock hinv hl answers) fun _ _ h => h.1
  | none =>
      refine wp_underOwnLock hinv hfresh fun s₁ own l hinv₁ hl _ _ => ?_
      exact wp_mono (wp_writeWithLock hinv₁ hl answers) fun _ _ h => ⟨h.1, h.2.1⟩

theorem wp_unlock (hinv : HandlesInv s) (answer : Except Failure Unit) :
    wp (unlock path answer) s fun _ s' => Moves s s' := by
  refine wp_gets ?_
  dsimp only [id_eq]
  cases hfind : s.locks.reverse.find? fun h =>
      (s.lease h).path = canonicalLockPath path ∧ (s.lease h).released = false with
  | none => exact .refl hinv
  | some h =>
      have hmem := List.mem_reverse.mp (List.mem_of_find?_eq_some hfind)
      obtain ⟨l, hl, _⟩ := open_of_mem_locks hinv hmem
      exact wp_mono (wp_release hinv hl answer) fun _ _ h => h.1

/-- A read through a handle starts whatever the handle is. -/
theorem handleRead_eq {offset : Int} {length : Option Int} (hl : s.handles[h]? = some l)
    (hoffset : 0 ≤ offset) (hlength : ∀ n ∈ length, 0 ≤ n) (answers : Answers) :
    handleRead h offset length answers s =
      (answers.rest, { s with trace := s.trace ++ [.started false l.path] }) := by
  have hvalid : ¬ (offset < 0 ∨ ∃ n ∈ length, n < 0) := by
    rintro (hneg | ⟨n, hn, hneg⟩)
    · omega
    · have := hlength n hn
      omega
  have hstart : readRange (s.lease h).path offset length (some h) answers s =
      startRead (s.lease h).path answers s := by
    unfold readRange raiseIf
    rw [if_neg hvalid]
    rfl
  rw [lease_eq hl] at hstart
  exact (congrArg (fun held : LeaseLock =>
    readRange held.path offset length (some h) answers s) (lease_eq hl)).trans hstart

/-- A read of a range that is not valid. -/
theorem handleRead_refused {offset : Int} {length : Option Int}
    (hinvalid : ¬ (0 ≤ offset ∧ ∀ n ∈ length, 0 ≤ n)) (answers : Answers) :
    wp (handleRead h offset length answers) s fun r s' => s' = s ∧ ∃ e, r = .error e := by
  refine wp_gets (wp_raiseIf_cases (fun _ => ⟨rfl, _, rfl⟩) fun hvalid => ?_)
  rw [not_or, not_lt] at hvalid
  refine absurd ⟨hvalid.1, fun n hn => ?_⟩ hinvalid
  exact not_lt.mp fun hneg => hvalid.2 ⟨n, hn, hneg⟩

end Actions

/-! ## One operation -/

section Operations

variable {s : Client} {op : Operation}

/-- An operation on a handle that is gone sends nothing. -/
def Refused (s : Client) (op : Operation) (r : Except Failure Unit) (s' : Client) : Prop :=
  ∀ h l, handleOf op = some h → s.handles[h]? = some l → ¬ l.Open →
    s'.trace = s.trace ∧ (isAccess op = true → ∃ e, r = .error e)

theorem refused_of_none {r : Except Failure Unit} {s' : Client} (hnone : handleOf op = none) :
    Refused s op r s' := by
  intro h l hop
  rw [hnone] at hop
  cases hop

/-- What an operation on one handle says is said of the handle it is on. -/
theorem refused_of_lease {h : Nat} {l : LeaseLock} {r : Except Failure Unit} {s' : Client}
    (hop : handleOf op = some h) (hl : s.handles[h]? = some l)
    (hquiet : ¬ l.Open → s'.trace = s.trace ∧ (isAccess op = true → ∃ e, r = .error e)) :
    Refused s op r s' := by
  intro h' l' hop' hl' hgone
  obtain rfl := Option.some.inj (hop.symm.trans hop')
  obtain rfl := Option.some.inj (hl.symm.trans hl')
  exact hquiet hgone

/-- The handle of an operation was made. -/
theorem exists_lease {h : Nat} (hpossible : Possible s op) (hop : handleOf op = some h) :
    ∃ l, s.handles[h]? = some l :=
  ⟨_, List.getElem?_eq_getElem (hpossible.1 h hop)⟩

theorem handleRead_spec {h : Nat} {offset : Int} {length : Option Int} {answers : Answers}
    (hinv : HandlesInv s) (hpossible : Possible s (.handleRead h offset length answers)) :
    ReadsGone s (.handleRead h offset length answers) ∧
        HandlesInv (handleRead h offset length answers s).2 ∨
      wp (handleRead h offset length answers) s fun r s' =>
        Moves s s' ∧ Refused s (.handleRead h offset length answers) r s' := by
  obtain ⟨l, hl⟩ := exists_lease hpossible rfl
  by_cases hrange : 0 ≤ offset ∧ ∀ n ∈ length, 0 ≤ n
  · have hrun := handleRead_eq hl hrange.1 hrange.2 answers
    by_cases hopen : l.Open
    · refine .inr ?_
      unfold wp
      rw [hrun]
      refine ⟨moves_started hinv ?_, refused_of_lease rfl hl fun hgone => absurd hopen hgone⟩
      exact holds_of_open hinv hl hopen (hinv.granted hl).2.symm (by simp)
    · refine .inl ⟨⟨h, offset, length, answers, l, rfl, hl, ?_, hrange⟩, ?_⟩
      · exact not_not.mp (mt (hinv.flags hl).mpr hopen)
      · rw [hrun]
        exact inv_emit hinv fun id => ⟨by simp, by simp⟩
  · refine .inr (wp_mono (handleRead_refused hrange answers) ?_)
    rintro r s' ⟨rfl, herror⟩
    exact ⟨.refl hinv, refused_of_lease rfl hl fun _ => ⟨rfl, fun _ => herror⟩⟩

/-- **ONE OPERATION**: it reads through a handle that is gone, or it keeps the
    invariant, starts under a lock and refuses what is gone. -/
theorem operation_spec (hinv : HandlesInv s) (hpossible : Possible s op) :
    ReadsGone s op ∧ HandlesInv (perform op s).2 ∨
      wp (perform op) s fun r s' => Moves s s' ∧ Refused s op r s' := by
  cases op with
  | lock path mode answers =>
      refine .inr (wp_call (wp_lock hinv hpossible.2) ?_ ?_)
      · rintro _ s' ⟨hmoves, _⟩
        exact wp_ret ⟨hmoves, refused_of_none rfl⟩
      · rintro _ s' ⟨hmoves, _⟩
        exact ⟨hmoves, refused_of_none rfl⟩
  | handleRead h offset length answers => exact handleRead_spec hinv hpossible
  | handleWrite h answers =>
      obtain ⟨l, hl⟩ := exists_lease hpossible rfl
      refine .inr (wp_mono (wp_writeWithLock hinv hl answers) ?_)
      rintro r s' ⟨hmoves, _, hquiet⟩
      exact ⟨hmoves, refused_of_lease rfl hl fun hgone =>
        ⟨(hquiet hgone).1, fun _ => (hquiet hgone).2⟩⟩
  | read path offset length answers =>
      exact .inr (wp_mono (wp_readRange hinv hpossible.2) fun _ _ hmoves =>
        ⟨hmoves, refused_of_none rfl⟩)
  | write path answers =>
      exact .inr (wp_mono (wp_write hinv hpossible.2) fun _ _ hmoves =>
        ⟨hmoves, refused_of_none rfl⟩)
  | renew h answers =>
      obtain ⟨l, hl⟩ := exists_lease hpossible rfl
      refine .inr (wp_mono (wp_renew hinv hl answers.rest) ?_)
      rintro r s' ⟨hmoves, hquiet⟩
      exact ⟨hmoves, refused_of_lease rfl hl fun hgone => ⟨hquiet hgone, fun h => by cases h⟩⟩
  | release h answers =>
      obtain ⟨l, hl⟩ := exists_lease hpossible rfl
      refine .inr (wp_mono (wp_release hinv hl answers.unlocked) ?_)
      rintro r s' ⟨hmoves, hquiet⟩
      exact ⟨hmoves, refused_of_lease rfl hl fun hgone => ⟨hquiet hgone, fun h => by cases h⟩⟩
  | unlock path answers =>
      exact .inr (wp_mono (wp_unlock hinv answers.unlocked) fun _ _ hmoves =>
        ⟨hmoves, refused_of_none rfl⟩)

theorem lawful_of_not_readsGone (hinv : HandlesInv s) (hpossible : Possible s op)
    (hgood : ¬ ReadsGone s op) : Lawful s op := by
  obtain ⟨hmoves, hrefused⟩ := (operation_spec hinv hpossible).resolve_left fun h => hgood h.1
  constructor
  · intro pre write path post htrace
    obtain ⟨events, hevents, hcovered⟩ := hmoves.events
    obtain rfl := List.append_cancel_left (hevents.symm.trans htrace)
    exact holds_of_covered hcovered
  · intro h l hop hl hgone
    exact hrefused h l hop hl fun hopen => (hinv.flags hl).mp hopen hgone

/-- A read through a handle that is gone sends its first call. -/
theorem not_lawful_of_readsGone (hbad : ReadsGone s op) : ¬ Lawful s op := by
  obtain ⟨h, offset, length, answers, l, rfl, hl, hgone, hoffset, hlength⟩ := hbad
  intro hlawful
  have hquiet := (hlawful.refused h l rfl hl hgone).1
  rw [show perform (.handleRead h offset length answers) s = _ from
    handleRead_eq hl hoffset hlength answers] at hquiet
  exact List.cons_ne_nil _ _ (List.append_right_eq_self.mp hquiet)

theorem inv_perform (hinv : HandlesInv s) (hpossible : Possible s op) :
    HandlesInv (perform op s).2 := by
  rcases operation_spec hinv hpossible with ⟨_, hinv'⟩ | ⟨hmoves, _⟩
  · exact hinv'
  · exact hmoves.inv

end Operations

/-! ## All sequences -/

theorem inv_empty : HandlesInv Client.empty := by
  refine ⟨fun h => ?_, fun h => ?_, fun h => ?_, fun h => ?_, fun h => ?_⟩
  · cases h
  · cases h
  · cases h
  · rcases h with h | h <;> cases h
  · cases h

/-- The invariant along a sequence of operations. -/
theorem inv_of_run {ops : List Operation} {s : Client} (hrun : handles.Run ops s) :
    HandlesInv s := by
  refine hrun.invariant (I := fun _ s => HandlesInv s) ?_ ?_
  · rintro _ rfl
    exact inv_empty
  · intro _ s₁ op s₂ hinv hstep
    by_cases hpossible : Possible s₁ op
    · obtain rfl : (perform op s₁).2 = s₂ := Option.some.inj ((if_pos hpossible).symm.trans hstep)
      exact inv_perform hinv hpossible
    · cases (if_neg hpossible).symm.trans hstep

/-- **WHEN THE HANDLES ARE LAWFUL**: in a sequence of operations every read and
    write starts under a lock, and what is gone is refused, exactly when no read
    of a valid range goes through a handle that is gone. -/
theorem handles_are_lawful_iff (ops : List Operation) :
    Along Lawful ops ↔ Along (fun s op => ¬ ReadsGone s op) ops := by
  constructor
  · intro hlawful pre op post s hops hrun hpossible hbad
    exact not_lawful_of_readsGone hbad (hlawful pre op post s hops hrun hpossible)
  · intro hgood pre op post s hops hrun hpossible
    exact lawful_of_not_readsGone (inv_of_run hrun) hpossible
      (hgood pre op post s hops hrun hpossible)

/-- Everything is granted and nothing fails. -/
def granting (lockId : String) : Answers := ⟨.ok (lockId, 30), .ok (), .ok ()⟩

/-- A handle is closed and then read. -/
theorem closed_handle_is_read :
    ¬ Along Lawful [.lock "/f" "w" (granting "L1"), .release 0 (granting "L2"),
      .handleRead 0 0 none (granting "L3")] := by
  intro hlawful
  have hsteps : (steps next Client.empty [.lock "/f" "w" (granting "L1"),
      .release 0 (granting "L2")]).map (fun s => (s.handles, s.trace)) =
      some ([⟨"/f", .w, "L1", 30, false, true⟩],
        [.granted "L1" "/f" .w, .unlocking "L1"]) := by
    decide +kernel
  obtain ⟨s, hs, heq⟩ := Option.map_eq_some_iff.mp hsteps
  obtain ⟨hhandles, htrace⟩ := Prod.mk.inj heq
  have hgone : ReadsGone s (.handleRead 0 0 none (granting "L3")) := by
    refine ⟨0, 0, none, _, _, rfl, by rw [hhandles]; rfl, .inl ?_, le_refl 0, by simp⟩
    rw [htrace]
    exact List.mem_cons_of_mem _ (List.mem_singleton.mpr rfl)
  refine not_lawful_of_readsGone hgone (hlawful _ _ [] s rfl ⟨_, rfl, path_of_steps hs⟩ ?_)
  refine ⟨?_, ?_⟩
  · intro h hh
    obtain rfl : 0 = h := Option.some.inj hh
    rw [hhandles]
    exact Nat.one_pos
  · intro a ha l hl
    rw [hhandles, List.mem_singleton] at hl
    obtain rfl : ("L3", (30 : Time)) = a := Option.some.inj ha
    rw [hl]
    simp

end DfshaLockHandles
