import Dfsha.ControlTreeProofs
import Mathlib.Logic.Function.Basic

/-! # What a mutation does to the metadata

    The abstract side of the control tree.  `Metadata` forgets how the tree,
    the lock table and the reservations are stored and keeps what they say:
    which node is at a path, which lock is on a key, which reservation has an
    id, who the users are.

    `Effect` says once what each mutation can do to it: one rule for each way
    a mutation succeeds, with everything it checked, and one rule for all
    refusals.  Every invariant of the development is proved by cases on
    `Effect`, so the text of the mutations is read in one place only. -/

namespace DfshaMetadata

open InsertionDict NamedTree DfshaPath DfshaControlTree

/-- A node of the namespace, without what is below it. -/
abbrev NodeEntry := Entry NodeAttrs FileNode

structure Metadata where
  node : List String → Option NodeEntry
  lock : String → Option LockState
  write : String → Option WriteReservation
  user : String → Option UserRecord

/-- What a control tree says. -/
def metadata (s : ControlTree) : Metadata where
  node := s.root.view
  lock := s.locks.get?
  write := s.writes.get?
  user := s.users.get?

/-! ## Updates -/

namespace Metadata

variable (m : Metadata)

def setNode (ps : List String) (e : NodeEntry) : Metadata :=
  { m with node := Function.update m.node ps (some e) }

def setFile (ps : List String) (f : FileNode) : Metadata := m.setNode ps (.file f)

def dropNode (ps : List String) : Metadata :=
  { m with node := Function.update m.node ps none }

def setLock (key : String) (state : LockState) : Metadata :=
  { m with lock := Function.update m.lock key (some state) }

def dropLock (key : String) : Metadata :=
  { m with lock := Function.update m.lock key none }

def setWrite (writeId : String) (reservation : WriteReservation) : Metadata :=
  { m with write := Function.update m.write writeId (some reservation) }

def dropWrite (writeId : String) : Metadata :=
  { m with write := Function.update m.write writeId none }

def setUser (username : String) (user : UserRecord) : Metadata :=
  { m with user := Function.update m.user username (some user) }

/-- Forget the holders of a key that have expired. -/
def aliveLocks (key : String) (now : Option Time) : Metadata :=
  match now with
  | none => m
  | some now =>
      { m with lock := Function.update m.lock key ((m.lock key).bind (aliveHolders now)) }

/-- Forget the reservations that have expired. -/
def aliveWrites (now : Option Time) : Metadata :=
  match now with
  | none => m
  | some now =>
      { m with write := fun w => (m.write w).filter fun r => now < r.leaseExpiresAt }

/-- Create the directories that lead to a path and do not exist. -/
def makeParents (ps : List String) (attrs : NodeAttrs) : Metadata :=
  { m with node := fun q =>
      if q <+: ps ∧ m.node q = none then some (.dir attrs) else m.node q }

/-- The file at a path. -/
def file (ps : List String) : Option FileNode :=
  match m.node ps with
  | some (.file f) => some f
  | _ => none

/-- The deepest existing directory on the way to `ps` is writable. -/
def WritableAbove (ps : List String) (caller : Option Caller) : Prop :=
  ∃ q d, q <+: ps ∧ m.node q = some (.dir d) ∧
    (∀ k, q ++ [k] <+: ps → m.node (q ++ [k]) = none) ∧
    allows d caller W = true

variable {m}

theorem file_eq_some {ps : List String} {f : FileNode} :
    m.file ps = some f ↔ m.node ps = some (.file f) := by
  unfold file
  cases m.node ps with
  | none => simp
  | some e => cases e <;> simp

@[simp] theorem lock_setNode (ps : List String) (e : NodeEntry) :
    (m.setNode ps e).lock = m.lock := rfl

@[simp] theorem write_setNode (ps : List String) (e : NodeEntry) :
    (m.setNode ps e).write = m.write := rfl

@[simp] theorem lock_setFile (ps : List String) (f : FileNode) :
    (m.setFile ps f).lock = m.lock := rfl

@[simp] theorem write_setFile (ps : List String) (f : FileNode) :
    (m.setFile ps f).write = m.write := rfl

@[simp] theorem user_setFile (ps : List String) (f : FileNode) :
    (m.setFile ps f).user = m.user := rfl

@[simp] theorem lock_dropNode (ps : List String) : (m.dropNode ps).lock = m.lock := rfl

@[simp] theorem write_dropNode (ps : List String) : (m.dropNode ps).write = m.write := rfl

@[simp] theorem node_setLock (key : String) (st : LockState) :
    (m.setLock key st).node = m.node := rfl

@[simp] theorem write_setLock (key : String) (st : LockState) :
    (m.setLock key st).write = m.write := rfl

@[simp] theorem user_setLock (key : String) (st : LockState) :
    (m.setLock key st).user = m.user := rfl

@[simp] theorem node_dropLock (key : String) : (m.dropLock key).node = m.node := rfl

@[simp] theorem write_dropLock (key : String) : (m.dropLock key).write = m.write := rfl

@[simp] theorem node_setWrite (w : String) (r : WriteReservation) :
    (m.setWrite w r).node = m.node := rfl

@[simp] theorem lock_setWrite (w : String) (r : WriteReservation) :
    (m.setWrite w r).lock = m.lock := rfl

@[simp] theorem user_setWrite (w : String) (r : WriteReservation) :
    (m.setWrite w r).user = m.user := rfl

@[simp] theorem user_dropWrite (w : String) : (m.dropWrite w).user = m.user := rfl

@[simp] theorem node_dropWrite (w : String) : (m.dropWrite w).node = m.node := rfl

@[simp] theorem lock_dropWrite (w : String) : (m.dropWrite w).lock = m.lock := rfl

@[simp] theorem node_setUser (u : String) (r : UserRecord) :
    (m.setUser u r).node = m.node := rfl

@[simp] theorem lock_setUser (u : String) (r : UserRecord) :
    (m.setUser u r).lock = m.lock := rfl

@[simp] theorem write_setUser (u : String) (r : UserRecord) :
    (m.setUser u r).write = m.write := rfl

@[simp] theorem node_aliveLocks (key : String) (now : Option Time) :
    (m.aliveLocks key now).node = m.node := by cases now <;> rfl

@[simp] theorem write_aliveLocks (key : String) (now : Option Time) :
    (m.aliveLocks key now).write = m.write := by cases now <;> rfl

@[simp] theorem user_aliveLocks (key : String) (now : Option Time) :
    (m.aliveLocks key now).user = m.user := by cases now <;> rfl

@[simp] theorem node_aliveWrites (now : Option Time) :
    (m.aliveWrites now).node = m.node := by cases now <;> rfl

@[simp] theorem lock_aliveWrites (now : Option Time) :
    (m.aliveWrites now).lock = m.lock := by cases now <;> rfl

@[simp] theorem user_aliveWrites (now : Option Time) :
    (m.aliveWrites now).user = m.user := by cases now <;> rfl

@[simp] theorem lock_makeParents (ps : List String) (attrs : NodeAttrs) :
    (m.makeParents ps attrs).lock = m.lock := rfl

@[simp] theorem write_makeParents (ps : List String) (attrs : NodeAttrs) :
    (m.makeParents ps attrs).write = m.write := rfl

theorem node_setFile (ps : List String) (f : FileNode) (q : List String) :
    (m.setFile ps f).node q = if q = ps then some (.file f) else m.node q :=
  Function.update_apply m.node ps (some (.file f)) q

theorem node_setNode (ps : List String) (e : NodeEntry) (q : List String) :
    (m.setNode ps e).node q = if q = ps then some e else m.node q :=
  Function.update_apply m.node ps (some e) q

theorem node_dropNode (ps : List String) (q : List String) :
    (m.dropNode ps).node q = if q = ps then none else m.node q :=
  Function.update_apply m.node ps none q

theorem write_setWrite (w : String) (r : WriteReservation) (w' : String) :
    (m.setWrite w r).write w' = if w' = w then some r else m.write w' :=
  Function.update_apply m.write w (some r) w'

theorem write_dropWrite (w w' : String) :
    (m.dropWrite w).write w' = if w' = w then none else m.write w' :=
  Function.update_apply m.write w none w'

theorem lock_setLock (key : String) (st : LockState) (key' : String) :
    (m.setLock key st).lock key' = if key' = key then some st else m.lock key' :=
  Function.update_apply m.lock key (some st) key'

theorem lock_dropLock (key key' : String) :
    (m.dropLock key).lock key' = if key' = key then none else m.lock key' :=
  Function.update_apply m.lock key none key'

/-- An update of one place: what is there afterwards is new, or was there. -/
theorem update_eq_some {κ β : Type} [DecidableEq κ] {g : κ → Option β} {k k' : κ}
    {v : Option β} {b : β} (h : Function.update g k v k' = some b) :
    (k' = k ∧ v = some b) ∨ (k' ≠ k ∧ g k' = some b) := by
  rw [Function.update_apply] at h
  by_cases hk : k' = k
  · rw [if_pos hk] at h
    exact .inl ⟨hk, h⟩
  · rw [if_neg hk] at h
    exact .inr ⟨hk, h⟩

/-- New directories do not touch files. -/
theorem file_makeParents (ps : List String) (attrs : NodeAttrs) (q : List String) :
    (m.makeParents ps attrs).file q = m.file q := by
  have hnode : (m.makeParents ps attrs).node q
      = if q <+: ps ∧ m.node q = none then some (Entry.dir attrs) else m.node q := rfl
  unfold file
  rw [hnode]
  by_cases h : q <+: ps ∧ m.node q = none
  · rw [if_pos h, h.2]
  · rw [if_neg h]

theorem file_setFile (ps : List String) (f : FileNode) (q : List String) :
    (m.setFile ps f).file q = if q = ps then some f else m.file q := by
  unfold file
  rw [node_setFile]
  by_cases h : q = ps
  · rw [if_pos h, if_pos h]
  · rw [if_neg h, if_neg h]

theorem file_dropNode (ps : List String) (q : List String) :
    (m.dropNode ps).file q = if q = ps then none else m.file q := by
  unfold file
  rw [node_dropNode]
  by_cases h : q = ps
  · rw [if_pos h, if_pos h]
  · rw [if_neg h, if_neg h]

/-- Storing a directory where no file is does not touch files. -/
theorem file_setDir {ps : List String} (d : NodeAttrs) (h : m.file ps = none)
    (q : List String) : (m.setNode ps (.dir d)).file q = m.file q := by
  by_cases hq : q = ps
  · rw [hq, h]
    unfold file
    rw [node_setNode, if_pos rfl]
  · unfold file
    rw [node_setNode, if_neg hq]

theorem file_congr {m' : Metadata} (h : m'.node = m.node) (q : List String) :
    m'.file q = m.file q := by
  unfold file
  rw [h]

theorem file_of_dir {ps : List String} {d : NodeAttrs}
    (h : m.node ps = some (.dir d)) : m.file ps = none := by
  unfold file
  rw [h]

theorem file_of_none {ps : List String} (h : m.node ps = none) :
    m.file ps = none := by
  unfold file
  rw [h]

end Metadata

/-! ## Forgetting what has expired -/

/-- Nothing but holders and reservations has changed, some of these may be
    gone, and those had expired by `now`. -/
structure Pruned (now : Option Time) (m m' : Metadata) : Prop where
  node : m'.node = m.node
  user : m'.user = m.user
  lock : ∀ key st', m'.lock key = some st' →
    ∃ st, m.lock key = some st ∧ st'.mode = st.mode ∧
      ∀ l h, st'.holders.get? l = some h → st.holders.get? l = some h
  inhabited : ∀ key st', m'.lock key = some st' →
    m.lock key = some st' ∨ ∃ l h, st'.holders.get? l = some h
  lockAlive : ∀ key st l h, m.lock key = some st → st.holders.get? l = some h →
    (∀ t, now = some t → t < h.2) →
    ∃ st', m'.lock key = some st' ∧ st'.holders.get? l = some h
  write : ∀ w r, m'.write w = some r → m.write w = some r
  writeAlive : ∀ w r, m.write w = some r →
    (∀ t, now = some t → t < r.leaseExpiresAt) → m'.write w = some r

theorem Pruned.refl (now : Option Time) (m : Metadata) : Pruned now m m where
  node := rfl
  user := rfl
  lock := fun _ st' h => ⟨st', h, rfl, fun _ _ hh => hh⟩
  inhabited := fun _ _ h => .inl h
  lockAlive := fun _ st _ _ h hh _ => ⟨st, h, hh⟩
  write := fun _ _ h => h
  writeAlive := fun _ _ h _ => h

theorem Pruned.trans {now : Option Time} {m₁ m₂ m₃ : Metadata}
    (h₁ : Pruned now m₁ m₂) (h₂ : Pruned now m₂ m₃) : Pruned now m₁ m₃ where
  node := h₂.node.trans h₁.node
  user := h₂.user.trans h₁.user
  lock := by
    intro key st₃ h
    obtain ⟨st₂, hst₂, hm₂, hh₂⟩ := h₂.lock key st₃ h
    obtain ⟨st₁, hst₁, hm₁, hh₁⟩ := h₁.lock key st₂ hst₂
    exact ⟨st₁, hst₁, hm₂.trans hm₁, fun l h hl => hh₁ l h (hh₂ l h hl)⟩
  inhabited := by
    intro key st₃ h
    rcases h₂.inhabited key st₃ h with hold | hheld
    · exact h₁.inhabited key st₃ hold
    · exact .inr hheld
  lockAlive := by
    intro key st l h hst hl hnow
    obtain ⟨st₂, hst₂, hl₂⟩ := h₁.lockAlive key st l h hst hl hnow
    exact h₂.lockAlive key st₂ l h hst₂ hl₂ hnow
  write := fun w r h => h₁.write w r (h₂.write w r h)
  writeAlive := fun w r h hnow => h₂.writeAlive w r (h₁.writeAlive w r h hnow) hnow

/-- The holders left after the expired ones are gone. -/
theorem aliveHolders_eq_some {now : Time} {st st' : LockState}
    (h : aliveHolders now st = some st') :
    st' = { st with holders := st.holders.filter fun e => now < e.2.2 } := by
  unfold aliveHolders at h
  by_cases he : (st.holders.filter fun e => decide (now < e.2.2)).isEmpty = true
  · simp only [if_pos he] at h
    exact nomatch h
  · simp only [if_neg he] at h
    exact (Option.some.inj h).symm

theorem aliveHolders_of_alive {now : Time} {st : LockState} {l : String}
    {h : String × Time} (hl : st.holders.get? l = some h) (hlt : now < h.2) :
    ∃ st', aliveHolders now st = some st' ∧ st'.holders.get? l = some h := by
  have hget : (st.holders.filter fun e => decide (now < e.2.2)).get? l = some h := by
    rw [Dict.get?_filter, hl, Option.filter_some]
    exact if_pos (decide_eq_true hlt)
  refine ⟨{ st with holders := st.holders.filter fun e => decide (now < e.2.2) }, ?_, hget⟩
  unfold aliveHolders
  refine if_neg ?_
  intro he
  rw [Dict.get?_of_isEmpty he] at hget
  exact nomatch hget

/-- Somebody is left after the expired holders are gone. -/
theorem aliveHolders_inhabited {now : Time} {st st' : LockState}
    (h : aliveHolders now st = some st') : ∃ l holder, st'.holders.get? l = some holder := by
  unfold aliveHolders at h
  by_cases he : (st.holders.filter fun e => decide (now < e.2.2)).isEmpty = true
  · simp only [if_pos he] at h
    exact nomatch h
  · simp only [if_neg he] at h
    rw [← Option.some.inj h]
    exact Dict.exists_of_not_isEmpty he

theorem pruned_aliveLocks (m : Metadata) (key : String) (now : Option Time) :
    Pruned now m (m.aliveLocks key now) := by
  cases now with
  | none => exact Pruned.refl none m
  | some now =>
      refine ⟨rfl, rfl, ?_, ?_, ?_, fun _ _ h => h, fun _ _ h _ => h⟩
      · intro key' st' h
        by_cases hk : key' = key
        · subst hk
          have h' : (m.lock key').bind (aliveHolders now) = some st' := by
            rw [← h]
            exact (Function.update_self key' _ m.lock).symm
          obtain ⟨st, hst, hst'⟩ := Option.bind_eq_some_iff.mp h'
          refine ⟨st, hst, ?_, ?_⟩
          · rw [aliveHolders_eq_some hst']
          · intro l h hl
            rw [aliveHolders_eq_some hst'] at hl
            exact (Dict.get?_filter_eq_some hl).1
        · have h' : m.lock key' = some st' := by
            rw [← h]
            exact (Function.update_of_ne hk _ m.lock).symm
          exact ⟨st', h', rfl, fun _ _ hl => hl⟩
      · intro key' st' h
        rcases Metadata.update_eq_some h with ⟨_, hnew⟩ | ⟨_, hold⟩
        · obtain ⟨st, _, hst'⟩ := Option.bind_eq_some_iff.mp hnew
          exact .inr (aliveHolders_inhabited hst')
        · exact .inl hold
      · intro key' st l h hst hl hnow
        by_cases hk : key' = key
        · subst hk
          obtain ⟨st', hst', hl'⟩ := aliveHolders_of_alive hl (hnow now rfl)
          refine ⟨st', ?_, hl'⟩
          show Function.update m.lock key' _ key' = _
          rw [Function.update_self, hst]
          exact hst'
        · refine ⟨st, ?_, hl⟩
          show Function.update m.lock key _ key' = _
          rw [Function.update_of_ne hk]
          exact hst

theorem pruned_aliveWrites (m : Metadata) (now : Option Time) :
    Pruned now m (m.aliveWrites now) := by
  cases now with
  | none => exact Pruned.refl none m
  | some now =>
      refine ⟨rfl, rfl, fun _ st' h => ⟨st', h, rfl, fun _ _ hh => hh⟩,
        fun _ _ h => .inl h, fun _ st _ _ h hh _ => ⟨st, h, hh⟩, ?_, ?_⟩
      · intro w r h
        exact (Option.filter_eq_some_iff.mp h).1
      · intro w r h hnow
        exact Option.filter_eq_some_iff.mpr ⟨h, decide_eq_true (hnow now rfl)⟩

/-- The reservations still alive at `now`. -/
theorem write_aliveWrites_eq_some {m : Metadata} {now : Time} {w : String}
    {r : WriteReservation} (h : (m.aliveWrites (some now)).write w = some r) :
    m.write w = some r ∧ now < r.leaseExpiresAt := by
  obtain ⟨h₁, h₂⟩ := Option.filter_eq_some_iff.mp h
  exact ⟨h₁, of_decide_eq_true h₂⟩

/-! ## The rules -/

/-- The time a mutation carries. -/
def timeOf : Mutation → Option Time
  | .removeFile _ now _ => now
  | .acquireLock _ _ _ _ now _ _ => some now
  | .renewLock _ _ now _ => some now
  | .releaseLock _ _ now => now
  | .beginWrite _ _ _ _ _ _ _ now _ _ _ => some now
  | .commitWrite _ _ _ _ _ now _ => some now
  | .abortWrite _ _ _ now => now
  | _ => none

/-- The path a mutation names; the users have none. -/
def pathOf : Mutation → Option String
  | .makeDir p _ => some p
  | .removeDir p _ => some p
  | .removeFile p _ _ => some p
  | .beginUpload p _ _ _ _ _ => some p
  | .confirmBlock p _ _ _ _ _ _ => some p
  | .completeUpload p _ => some p
  | .abortUpload p _ => some p
  | .acquireLock p _ _ _ _ _ _ => some p
  | .renewLock p _ _ _ => some p
  | .releaseLock p _ _ => some p
  | .updateBlockReplicas p _ _ _ => some p
  | .beginWrite p _ _ _ _ _ _ _ _ _ _ => some p
  | .commitWrite p _ _ _ _ _ _ => some p
  | .abortWrite p _ _ _ => some p
  | .createUser _ _ _ _ _ => none
  | .changePassword _ _ _ => none
  | .chmod p _ _ => some p
  | .chown p _ _ _ => some p

theorem no_file_empty (ps : List String) (f : FileNode) :
    ControlTree.empty.root.view ps ≠ some (.file f) := by
  intro hfile
  cases ps with
  | nil => exact nomatch hfile
  | cons name rest => exact nomatch hfile

/-- Who a mutation says is calling; some mutations say nothing about it. -/
def callerOf : Mutation → Option (Option Caller)
  | .makeDir _ c => some c
  | .removeDir _ c => some c
  | .removeFile _ _ c => some c
  | .beginUpload _ _ _ _ _ c => some c
  | .confirmBlock _ _ _ _ _ _ c => some c
  | .completeUpload _ c => some c
  | .abortUpload _ c => some c
  | .acquireLock _ _ _ _ _ _ c => some c
  | .beginWrite _ _ _ _ _ _ _ _ _ _ c => some c
  | .commitWrite _ _ _ _ _ _ c => some c
  | .chmod _ _ c => some c
  | .chown _ _ _ c => some c
  | _ => none

/-- The file as `begin_upload` creates it. -/
def newUpload (placements : List (String × List String))
    (now leaseS : Option Time) (blockSize : Option Int) (caller : Option Caller) :
    FileNode where
  state := .pending
  blocks := placements.map reservedBlock
  leaseExpiresAt := (leaseEnd now leaseS).getD 0
  blockSize := blockSize.getD 0
  attrs := ownership caller fileMode

/-- The name is free for an upload; `stale` are the blocks it throws away. -/
def Free (entry : Option NodeEntry) (now : Option Time)
    (stale : List BlockRecord) : Prop :=
  entry = none ∧ stale = [] ∨
  ∃ f, entry = some (.file f) ∧ f.state = .pending ∧
    leaseExpired f now = true ∧ stale = f.blocks

/-- The state in which a write is checked: the expired holders of the path
    and the expired reservations are gone. -/
def Metadata.writeTable (m : Metadata) (key : String) (now : Time) : Metadata :=
  (m.aliveLocks key (some now)).aliveWrites (some now)

theorem pruned_writeTable (m : Metadata) (key : String) (now : Time) :
    Pruned (some now) m (m.writeTable key now) :=
  (pruned_aliveLocks m key (some now)).trans (pruned_aliveWrites _ _)

/-- What `begin_write` has checked when it stores its reservation. -/
structure Reserves (m : Metadata) (ps : List String) (f : FileNode)
    (writeId lockId : String) (baseVersion offset length : Int)
    (proposals : List (Int × String × List String)) (now leaseS : Time)
    (defaultBlockSize : Int) (caller : Option Caller) (r : WriteReservation) : Prop where
  hfile : m.node ps = some (.file f)
  hcommitted : f.state = .committed
  hallowed : allows f.attrs caller W = true
  hlocked : holdsWriteLock ((m.writeTable (pathKey ps) now).lock (pathKey ps)) lockId = true
  hfresh : (m.writeTable (pathKey ps) now).write writeId = none
  hversion : f.version = baseVersion
  hplan : ∃ plan,
    planWriteSlots (f.blocks.map BlockRecord.sizeBytes)
      (blockSizeOf f defaultBlockSize) offset length = .ok plan ∧
    plan.map Prod.fst = proposals.map Prod.fst ∧
    r.slots = fillSlots plan proposals
  hwrite : r.writeId = writeId
  hpath : r.path = pathKey ps
  hbase : r.baseVersion = f.version
  hlock : r.lockId = lockId
  hblockSize : r.blockSize = blockSizeOf f defaultBlockSize
  hlease : r.leaseExpiresAt = now + leaseS

/-- What `commit_write` has checked when it publishes. -/
structure Publishes (m : Metadata) (ps : List String) (f : FileNode)
    (writeId lockId : String) (baseVersion : Int)
    (confirmed : List (Int × String × String × Int)) (now : Time)
    (caller : Option Caller) (r : WriteReservation) : Prop where
  hfile : m.node ps = some (.file f)
  hcommitted : f.state = .committed
  hallowed : allows f.attrs caller W = true
  hreserved : m.write writeId = some r
  halive : now < r.leaseExpiresAt
  hpath : r.path = pathKey ps
  hlock : r.lockId = lockId
  hlocked : holdsWriteLock ((m.writeTable (pathKey ps) now).lock (pathKey ps)) lockId = true
  hbase : baseVersion = r.baseVersion
  hversion : f.version = r.baseVersion
  hslots : confirmed.map (fun c => (c.1, c.2.1, c.2.2.2)) =
    r.slots.map fun s => (s.index, s.newBlockId, s.newSize)

/-- The two mutations that change the attributes of a node. -/
inductive ChangesAttrs (m : Metadata) :
    Mutation → String → NodeAttrs → NodeAttrs → Prop
  | chmod {p : String} {mode : Int} {caller : Option Caller} {d : NodeAttrs}
      (howner : ownerOrAdmin d caller = true) (hmode : validMode mode = true) :
      ChangesAttrs m (.chmod p mode caller) p d { d with mode := mode.toNat }
  | chown {p owner group : String} {caller : Option Caller} {d : NodeAttrs}
      (hcaller : ∀ c, caller = some c → c.isAdmin = false →
        owner = "" ∧ c.username = d.owner ∧ group ∈ c.groups)
      (howner : owner ≠ "" → m.user owner ≠ none)
      (hgroup : group ≠ "" → validName group = true) :
      ChangesAttrs m (.chown p owner group caller) p d { d with
        owner := if owner ≠ "" then owner else d.owner
        group := if group ≠ "" then group else d.group }

/-- What a mutation does, and what it answers. -/
inductive Effect : Mutation → Metadata → Except PyError Ret → Metadata → Prop
  | makeDir {m : Metadata} {p : String} {caller : Option Caller}
      {ps : List String} {d : NodeAttrs}
      (hparts : parts p = .ok ps) (hne : ps ≠ [])
      (hparent : m.node ps.dropLast = some (.dir d))
      (hallowed : allows d caller W = true) (hfree : m.node ps = none) :
      Effect (.makeDir p caller) m (.ok .none)
        (m.setNode ps (.dir (ownership caller dirMode)))
  | removeDir {m : Metadata} {p : String} {caller : Option Caller}
      {ps : List String} {d d' : NodeAttrs}
      (hparts : parts p = .ok ps) (hne : ps ≠ [])
      (hparent : m.node ps.dropLast = some (.dir d))
      (hallowed : allows d caller W = true) (hdir : m.node ps = some (.dir d'))
      (hempty : ∀ k q, m.node (ps ++ k :: q) = none) :
      Effect (.removeDir p caller) m (.ok .none) (m.dropNode ps)
  | removeFile {m : Metadata} {p : String} {now : Option Time}
      {caller : Option Caller} {ps : List String} {d : NodeAttrs} {f : FileNode}
      (hparts : parts p = .ok ps) (hne : ps ≠ [])
      (hparent : m.node ps.dropLast = some (.dir d))
      (hallowed : allows d caller W = true) (hfile : m.node ps = some (.file f))
      (hcommitted : f.state = .committed)
      (hunlocked : (m.aliveLocks (pathKey ps) now).lock (pathKey ps) = none) :
      Effect (.removeFile p now caller) m (.ok (.removed f.blocks))
        ((m.aliveLocks (pathKey ps) now).dropNode ps)
  | beginUpload {m : Metadata} {p : String}
      {placements : List (String × List String)} {now leaseS : Option Time}
      {blockSize : Option Int} {caller : Option Caller} {ps : List String}
      {stale : List BlockRecord}
      (hparts : parts p = .ok ps) (hne : ps ≠ [])
      (hallowed : m.WritableAbove ps.dropLast caller)
      (hfree : Free (m.node ps) now stale) :
      Effect (.beginUpload p placements now leaseS blockSize caller) m
        (.ok (.uploadBegun placements stale))
        ((m.makeParents ps.dropLast (ownership caller dirMode)).setFile ps
          (newUpload placements now leaseS blockSize caller))
  | confirmBlock {m : Metadata} {p b sum : String} {size : Int}
      {now leaseS : Option Time} {caller : Option Caller} {ps : List String}
      {f : FileNode} {blocks : List BlockRecord}
      (hparts : parts p = .ok ps) (hfile : m.node ps = some (.file f))
      (hpending : f.state = .pending) (howner : ownerOrAdmin f.attrs caller = true)
      (hblocks : updateBlock b
        (fun b => { b with checksum := sum, sizeBytes := size, confirmed := true })
        f.blocks = some blocks) :
      Effect (.confirmBlock p b sum size now leaseS caller) m (.ok .none)
        (m.setFile ps { f with
          blocks
          leaseExpiresAt := (leaseEnd now leaseS).getD f.leaseExpiresAt })
  | completeUpload {m : Metadata} {p : String} {caller : Option Caller}
      {ps : List String} {f : FileNode}
      (hparts : parts p = .ok ps) (hfile : m.node ps = some (.file f))
      (hpending : f.state = .pending) (howner : ownerOrAdmin f.attrs caller = true)
      (hconfirmed : ∀ b ∈ f.blocks, b.confirmed = true) :
      Effect (.completeUpload p caller) m (.ok .none)
        (m.setFile ps { f with state := .committed })
  | abortUpload {m : Metadata} {p : String} {caller : Option Caller}
      {ps : List String} {f : FileNode}
      (hparts : parts p = .ok ps) (hne : ps ≠ [])
      (hfile : m.node ps = some (.file f))
      (hpending : f.state = .pending) (howner : ownerOrAdmin f.attrs caller = true) :
      Effect (.abortUpload p caller) m (.ok .none) (m.dropNode ps)
  | acquireLock {m : Metadata} {p l owner mode : String} {now leaseS : Time}
      {caller : Option Caller} {ps : List String} {f : FileNode} {md : LockMode}
      (hparts : parts p = .ok ps) (hmode : parseLockMode mode = some md)
      (hlease : 0 < leaseS) (hfile : m.node ps = some (.file f))
      (hcommitted : f.state = .committed)
      (hallowed : allows f.attrs caller (if md = .r then R else W) = true)
      (hfree : (m.aliveLocks (pathKey ps) (some now)).lock (pathKey ps) = none) :
      Effect (.acquireLock p l owner mode now leaseS caller) m (.ok (.lockTaken l))
        ((m.aliveLocks (pathKey ps) (some now)).setLock (pathKey ps)
          { mode := md, holders := Dict.empty.insert l (owner, now + leaseS) })
  | joinLock {m : Metadata} {p l owner mode : String} {now leaseS : Time}
      {caller : Option Caller} {ps : List String} {f : FileNode} {st : LockState}
      (hparts : parts p = .ok ps) (hmode : parseLockMode mode = some .r)
      (hlease : 0 < leaseS) (hfile : m.node ps = some (.file f))
      (hcommitted : f.state = .committed)
      (hallowed : allows f.attrs caller R = true)
      (hshared : (m.aliveLocks (pathKey ps) (some now)).lock (pathKey ps) = some st)
      (hread : st.mode = .r) (hnew : st.holders.get? l = none) :
      Effect (.acquireLock p l owner mode now leaseS caller) m (.ok (.lockTaken l))
        ((m.aliveLocks (pathKey ps) (some now)).setLock (pathKey ps)
          { st with holders := st.holders.insert l (owner, now + leaseS) })
  | renewLock {m : Metadata} {p l : String} {now leaseS : Time} {ps : List String}
      {f : FileNode} {st : LockState} {h : String × Time}
      (hparts : parts p = .ok ps) (hlease : 0 < leaseS)
      (hfile : m.node ps = some (.file f)) (hcommitted : f.state = .committed)
      (hlocked : (m.aliveLocks (pathKey ps) (some now)).lock (pathKey ps) = some st)
      (hheld : st.holders.get? l = some h) :
      Effect (.renewLock p l now leaseS) m (.ok .none)
        ((m.aliveLocks (pathKey ps) (some now)).setLock (pathKey ps)
          { st with holders := st.holders.insert l (h.1, now + leaseS) })
  | releaseLock {m : Metadata} {p l : String} {now : Option Time}
      {ps : List String} {f : FileNode} {st : LockState}
      (hparts : parts p = .ok ps) (hfile : m.node ps = some (.file f))
      (hcommitted : f.state = .committed)
      (hlocked : (m.aliveLocks (pathKey ps) now).lock (pathKey ps) = some st)
      (hheld : st.holders.contains l = true)
      (hmore : (st.holders.erase l).isEmpty = false) :
      Effect (.releaseLock p l now) m (.ok .none)
        ((m.aliveLocks (pathKey ps) now).setLock (pathKey ps)
          { st with holders := st.holders.erase l })
  | releaseLast {m : Metadata} {p l : String} {now : Option Time}
      {ps : List String} {f : FileNode} {st : LockState}
      (hparts : parts p = .ok ps) (hfile : m.node ps = some (.file f))
      (hcommitted : f.state = .committed)
      (hlocked : (m.aliveLocks (pathKey ps) now).lock (pathKey ps) = some st)
      (hheld : st.holders.contains l = true)
      (hlast : (st.holders.erase l).isEmpty = true) :
      Effect (.releaseLock p l now) m (.ok .none)
        ((m.aliveLocks (pathKey ps) now).dropLock (pathKey ps))
  | releaseGone {m : Metadata} {p l : String} {now : Time}
      {ps : List String} {f : FileNode}
      (hparts : parts p = .ok ps) (hfile : m.node ps = some (.file f))
      (hcommitted : f.state = .committed)
      (hgone : (m.aliveLocks (pathKey ps) (some now)).lock (pathKey ps) = none) :
      Effect (.releaseLock p l (some now)) m (.ok .none)
        (m.aliveLocks (pathKey ps) (some now))
  | updateBlockReplicas {m : Metadata} {p b : String} {expected new : List String}
      {ps : List String} {f : FileNode} {block : BlockRecord}
      {blocks : List BlockRecord}
      (hparts : parts p = .ok ps) (hfile : m.node ps = some (.file f))
      (hcommitted : f.state = .committed)
      (hfind : f.blocks.find? (fun b' => b'.blockId = b) = some block)
      (hexpected : block.datanodeAddresses = expected)
      (hblocks : updateBlock b (fun b => { b with datanodeAddresses := new })
        f.blocks = some blocks) :
      Effect (.updateBlockReplicas p b expected new) m (.ok .none)
        (m.setFile ps { f with blocks })
  | beginWrite {m : Metadata} {p w l : String} {version offset length : Int}
      {proposals : List (Int × String × List String)} {now leaseS : Time}
      {default : Int} {caller : Option Caller} {ps : List String} {f : FileNode}
      {r : WriteReservation} {described : List SlotDescription}
      (hparts : parts p = .ok ps)
      (hr : Reserves m ps f w l version offset length proposals now leaseS default
        caller r)
      (hdescribed : describeSlots f.blocks r.slots = .ok described) :
      Effect (.beginWrite p w l version offset length proposals now leaseS default
          caller) m
        (.ok (.writeBegun w f.version r.blockSize described))
        ((m.writeTable (pathKey ps) now).setWrite w r)
  -- the answer cannot be written, but the reservation is already stored
  | beginWriteLost {m : Metadata} {p w l : String} {version offset length : Int}
      {proposals : List (Int × String × List String)} {now leaseS : Time}
      {default : Int} {caller : Option Caller} {ps : List String} {f : FileNode}
      {r : WriteReservation} {e : PyError}
      (hparts : parts p = .ok ps)
      (hr : Reserves m ps f w l version offset length proposals now leaseS default
        caller r)
      (hdescribed : describeSlots f.blocks r.slots = .error e) :
      Effect (.beginWrite p w l version offset length proposals now leaseS default
          caller) m
        (.error e) ((m.writeTable (pathKey ps) now).setWrite w r)
  | commitWrite {m : Metadata} {p w l : String} {version : Int}
      {confirmed : List (Int × String × String × Int)} {now : Time}
      {caller : Option Caller} {ps : List String} {f : FileNode}
      {r : WriteReservation} {blocks replaced : List BlockRecord}
      (hparts : parts p = .ok ps)
      (hr : Publishes m ps f w l version confirmed now caller r)
      (hpublished : publishSlots f.blocks (confirmedSlots r confirmed)
        = (blocks, .ok replaced)) :
      Effect (.commitWrite p w l version confirmed now caller) m
        (.ok (.writeCommitted (f.version + 1) replaced))
        (((m.writeTable (pathKey ps) now).setFile ps { f with
          blocks
          version := f.version + 1
          blockSize := r.blockSize }).dropWrite w)
  | abortWrite {m : Metadata} {p w l : String} {now : Option Time}
      {ps : List String} {r : WriteReservation}
      (hparts : parts p = .ok ps)
      (hreserved : (m.aliveWrites now).write w = some r)
      (hpath : r.path = pathKey ps) (hlock : r.lockId = l) :
      Effect (.abortWrite p w l now) m
        (.ok (.writeAborted (r.slots.map discardedBlock)))
        ((m.aliveWrites now).dropWrite w)
  | abortGone {m : Metadata} {p w l : String} {now : Option Time}
      {ps : List String} (hparts : parts p = .ok ps)
      (hgone : ∀ r, (m.aliveWrites now).write w = some r → r.path ≠ pathKey ps) :
      Effect (.abortWrite p w l now) m (.ok (.writeAborted [])) (m.aliveWrites now)
  | createUser {m : Metadata} {username : String} {hash salt : List UInt8}
      {groups : List String} {isAdmin : Bool}
      (hname : validName username = true)
      (hgroups : ∀ g ∈ groups, validName g = true)
      (hnew : m.user username = none) :
      Effect (.createUser username hash salt groups isAdmin) m (.ok .none)
        (m.setUser username ⟨hash, salt, groups, isAdmin⟩)
  | changePassword {m : Metadata} {username : String} {hash salt : List UInt8}
      {user : UserRecord} (huser : m.user username = some user) :
      Effect (.changePassword username hash salt) m (.ok .none)
        (m.setUser username { user with passwordHash := hash, salt })
  | setAttrsDir {m : Metadata} {μ : Mutation} {p : String} {ps : List String}
      {d d' : NodeAttrs} (hparts : parts p = .ok ps)
      (hdir : m.node ps = some (.dir d)) (hμ : ChangesAttrs m μ p d d') :
      Effect μ m (.ok .none) (m.setNode ps (.dir d'))
  | setAttrsFile {m : Metadata} {μ : Mutation} {p : String} {ps : List String}
      {f : FileNode} {attrs : NodeAttrs} (hparts : parts p = .ok ps)
      (hfile : m.node ps = some (.file f)) (hcommitted : f.state = .committed)
      (hμ : ChangesAttrs m μ p f.attrs attrs) :
      Effect μ m (.ok .none) (m.setFile ps { f with attrs })
  | refused {m m' : Metadata} {μ : Mutation} {e : PyError}
      (hpruned : Pruned (timeOf μ) m m') : Effect μ m (.error e) m'

end DfshaMetadata
