import Dfsha.CopyOnWriteProofs
import Dfsha.ReplicatedTreeProofs

/-! # The layout of the blocks

    A write finds the byte at an offset by dividing by the block size, so it
    needs every block of a committed file but the last to be full.  An upload
    establishes this only if the sizes that the client confirms are the right
    ones: `confirm_block` stores whatever it is told, unlike `commit_write`,
    which compares the sizes with the reserved ones.

    In the runs where the confirmed sizes are right the layout holds in every
    state.  The write path needs the argument of the locks once more: a
    reservation whose lock is held was planned for the file as it is, or the
    file has a later version. -/

namespace DfshaBlockLayout

open InsertionDict NamedTree RaisingAction BlockChunks
open TransitionSystem TransitionSystem.System
open DfshaPath DfshaControlTree DfshaMetadata DfshaControlTreeEffect
open DfshaReplicatedTree DfshaWriteReservation DfshaCopyOnWrite

/-! ## What the handlers commit -/

/-- How many blocks `BeginUpload` proposes: the size divided by the block size,
    rounded up. -/
def numBlocks (sizeBytes blockSizeBytes : Int) : Except PyError Nat :=
  if blockSizeBytes = 0 then
    .error ⟨.zeroDivisionError, "integer division or modulo by zero"⟩
  else .ok (-(-sizeBytes).fdiv blockSizeBytes).toNat

/-- A request that ends in a commit, with the times and the ids that the
    leader draws for it.  What the others commit does not depend on the
    leader. -/
inductive Rpc where
  | beginUpload (path : String) (sizeBytes : Int)
      (proposed : List (String × List String)) (now uploadLeaseS : Time)
      (caller : Option Caller)
  | confirmBlock (path blockId checksum : String) (sizeBytes : Int)
      (now uploadLeaseS : Time) (caller : Option Caller)
  -- the version and the proposals come from a layout read before the commit
  | beginWrite (path writeId lockId : String) (version offset length : Int)
      (proposals : List (Int × String × List String)) (now uploadLeaseS : Time)
      (caller : Option Caller)
  | other (μ : Mutation)
deriving DecidableEq

/-- The mutation that the handler of a request commits, if it commits one. -/
def mutationOf (blockSizeBytes : Int) : Rpc → Option Mutation
  | .beginUpload path sizeBytes proposed now uploadLeaseS caller =>
      if sizeBytes ≤ 0 then none
      else match numBlocks sizeBytes blockSizeBytes with
        | .error _ => none
        | .ok n =>
            if proposed.length = n then
              some (.beginUpload path proposed (some now) (some uploadLeaseS)
                (some blockSizeBytes) caller)
            else none
  | .confirmBlock path blockId checksum sizeBytes now uploadLeaseS caller =>
      some (.confirmBlock path blockId checksum sizeBytes (some now)
        (some uploadLeaseS) caller)
  | .beginWrite path writeId lockId version offset length proposals now uploadLeaseS
      caller =>
      some (.beginWrite path writeId lockId version offset length proposals now
        uploadLeaseS blockSizeBytes caller)
  | .other (.beginUpload ..) => none
  | .other (.confirmBlock ..) => none
  | .other (.beginWrite ..) => none
  | .other μ => some μ

/-- A request at the leader that commits it: the block size that the leader is
    configured with, and the operation id. -/
structure Issue where
  blockSizeBytes : Int
  opId : String
  rpc : Rpc
deriving DecidableEq

def nextState (s : ReplicatedTree) (c : Issue) : Option ReplicatedTree :=
  (mutationOf c.blockSizeBytes c.rpc).map fun μ => (apply ⟨c.opId, .mutation μ⟩ s).2

/-- The runs of the control node: any requests, in any order, committed by any
    leaders. -/
def controlNodeRpcs : System ReplicatedTree Issue :=
  ofPartial ReplicatedTree.empty nextState

/-- The lock id that a request draws. -/
def drawnLocks (c : Issue) : List String :=
  match c.rpc with
  | .other μ => acquiredLocks μ
  | _ => []

/-! ## The reports of an honest client -/

/-- The size that the layout gives to the block `i` of `count`. -/
def SizeAt (B : Int) (count i : Nat) (size : Int) : Prop :=
  if i + 1 < count then size = B else 1 ≤ size ∧ size ≤ B

instance (B : Int) (count i : Nat) (size : Int) : Decidable (SizeAt B count i size) :=
  inferInstanceAs (Decidable (if i + 1 < count then size = B else 1 ≤ size ∧ size ≤ B))

/-- The block size, the number of blocks and the place of a block in the
    pending upload at a path. -/
def placeOf (s : ControlTree) (path blockId : String) : Option (Int × Nat × Nat) :=
  match (getPendingFile path s).1 with
  | .error _ => none
  | .ok (_, f) =>
      (f.blocks.findIdx? fun b => b.blockId = blockId).map fun i =>
        (f.blockSize, f.blocks.length, i)

/-- A `ConfirmBlock` reports the size that the layout gives to the block. -/
def ReportsSize (s : ControlTree) : Rpc → Prop
  | .confirmBlock path blockId _ sizeBytes _ _ _ =>
      ∀ place ∈ placeOf s path blockId,
        SizeAt place.1 place.2.1 place.2.2 sizeBytes
  | _ => True

instance (s : ControlTree) : (rpc : Rpc) → Decidable (ReportsSize s rpc)
  | .confirmBlock path blockId _ sizeBytes _ _ _ =>
      inferInstanceAs (Decidable (∀ place ∈ placeOf s path blockId,
        SizeAt place.1 place.2.1 place.2.2 sizeBytes))
  | .beginUpload .. => inferInstanceAs (Decidable True)
  | .beginWrite .. => inferInstanceAs (Decidable True)
  | .other _ => inferInstanceAs (Decidable True)

/-- The block size of the leader is not negative, and if the command is
    executed and confirms a block it reports the right size. -/
def Honest (s : ReplicatedTree) (c : Issue) : Prop :=
  0 ≤ c.blockSizeBytes ∧
    (s.appliedOps.get? c.opId = none → ReportsSize s.tree c.rpc)

instance (s : ReplicatedTree) (c : Issue) : Decidable (Honest s c) :=
  inferInstanceAs (Decidable (_ ∧ _))

theorem filled_iff_sizeAt {f : FileNode} {B : Int} :
    Filled B (blockSizes f) ↔ ∀ i b, f.blocks[i]? = some b →
      SizeAt B f.blocks.length i b.sizeBytes := by
  rw [filled_iff, blockSizes, List.length_map]
  constructor
  · intro h i b hb
    exact h i b.sizeBytes (by rw [List.getElem?_map, hb]; rfl)
  · intro h i n hn
    rw [List.getElem?_map] at hn
    obtain ⟨b, hb, rfl⟩ := Option.map_eq_some_iff.mp hn
    exact h i b hb

/-! ## Where a file comes from -/

/-- The five ways in which a file can be at a path after a step. -/
inductive FileCame (μ : Mutation) (m : Metadata) (ps : List String) (f' : FileNode) :
    Prop
  | kept (f : FileNode) (hfile : m.node ps = some (.file f)) (hsame : SameFile f f')
  | uploaded (p : String) (placements : List (String × List String))
      (now leaseS : Option Time) (blockSize : Option Int) (caller : Option Caller)
      (hμ : μ = .beginUpload p placements now leaseS blockSize caller)
      (hparts : parts p = .ok ps)
      (hnew : f' = newUpload placements now leaseS blockSize caller)
  | confirmed (f : FileNode) (p b sum : String) (size : Int) (now leaseS : Option Time)
      (caller : Option Caller)
      (hμ : μ = .confirmBlock p b sum size now leaseS caller)
      (hparts : parts p = .ok ps) (hfile : m.node ps = some (.file f))
      (hpending : f.state = .pending)
      (hstate : f'.state = .pending) (hblockSize : f'.blockSize = f.blockSize)
      (hblocks : updateBlock b
        (fun b => { b with checksum := sum, sizeBytes := size, confirmed := true })
        f.blocks = some f'.blocks)
  | completed (f : FileNode) (hfile : m.node ps = some (.file f))
      (hpending : f.state = .pending) (hconfirmed : ∀ b ∈ f.blocks, b.confirmed = true)
      (hnew : f' = { f with state := .committed })
  | published (f : FileNode) (p w l : String) (version : Int)
      (confirmed : List (Int × String × String × Int)) (now : Time)
      (caller : Option Caller) (res : WriteReservation)
      (blocks replaced : List BlockRecord) (hparts : parts p = .ok ps)
      (hr : Publishes m ps f w l version confirmed now caller res)
      (hpublished : publishSlots f.blocks (confirmedSlots res confirmed)
        = (blocks, .ok replaced))
      (hnew : f' = { f with
        blocks, version := f.version + 1, blockSize := res.blockSize })

section FileCame

variable {μ : Mutation} {r : Except PyError Ret} {m m' : Metadata}
  {ps ps' : List String} {f f' : FileNode}

theorem fileCame_untouched (hfile : m'.node ps = some (.file f'))
    (h : m'.node ps = m.node ps) : FileCame μ m ps f' :=
  .kept f' (h ▸ hfile) (.refl f')

/-- A file stored at some path is where it is, or was there before. -/
theorem fileCame_setFile (hfile : (m'.setFile ps' f).node ps = some (.file f'))
    (hnew : FileCame μ m ps' f)
    (hother : m'.node ps = some (.file f') → FileCame μ m ps f') :
    FileCame μ m ps f' := by
  rw [Metadata.node_setFile] at hfile
  by_cases hps : ps = ps'
  · rw [if_pos hps] at hfile
    rw [hps, ← Entry.file.inj (Option.some.inj hfile)]
    exact hnew
  · rw [if_neg hps] at hfile
    exact hother hfile

/-- A file at a path where a directory was stored, or nothing was left. -/
theorem fileCame_setNode {e : NodeEntry} (hdir : ∀ f, e ≠ .file f)
    (hfile : (m.setNode ps' e).node ps = some (.file f')) : FileCame μ m ps f' := by
  rw [Metadata.node_setNode] at hfile
  by_cases hps : ps = ps'
  · rw [if_pos hps] at hfile
    exact absurd (Option.some.inj hfile) (hdir f')
  · rw [if_neg hps] at hfile
    exact .kept f' hfile (.refl f')

theorem fileCame_dropNode (hfile : (m.dropNode ps').node ps = some (.file f')) :
    FileCame μ m ps f' := by
  rw [Metadata.node_dropNode] at hfile
  by_cases hps : ps = ps'
  · rw [if_pos hps] at hfile
    exact nomatch hfile
  · rw [if_neg hps] at hfile
    exact .kept f' hfile (.refl f')

/-- **WHERE A FILE COMES FROM.** -/
theorem fileCame_effect (he : Effect μ m r m') (hfile : m'.node ps = some (.file f')) :
    FileCame μ m ps f' := by
  cases he with
  | makeDir | setAttrsDir =>
      refine fileCame_setNode ?_ hfile
      intro f h
      exact nomatch h
  | removeDir | abortUpload => exact fileCame_dropNode hfile
  | removeFile =>
      rw [Metadata.node_dropNode, Metadata.node_aliveLocks, ← Metadata.node_dropNode]
        at hfile
      exact fileCame_dropNode hfile
  | @beginUpload _ p placements now leaseS blockSize caller ps' stale hparts hne hallowed
      hfree =>
      refine fileCame_setFile hfile
        (.uploaded p placements now leaseS blockSize caller rfl hparts rfl) fun hold => ?_
      by_cases hmade : ps <+: ps'.dropLast ∧ m.node ps = none
      · rw [show (m.makeParents ps'.dropLast (ownership caller dirMode)).node ps
          = some (.dir (ownership caller dirMode)) from if_pos hmade] at hold
        exact nomatch hold
      · rw [show (m.makeParents ps'.dropLast (ownership caller dirMode)).node ps
          = m.node ps from if_neg hmade] at hold
        exact .kept f' hold (.refl f')
  | @confirmBlock _ p b sum size now leaseS caller ps' f blocks hparts hfile' hpending
      howner hblocks =>
      exact fileCame_setFile hfile
        (.confirmed f p b sum size now leaseS caller rfl hparts hfile' hpending hpending
          rfl hblocks) fun hold => .kept f' hold (.refl f')
  | @completeUpload _ p caller ps' f hparts hfile' hpending howner hconfirmed =>
      exact fileCame_setFile hfile (.completed f hfile' hpending hconfirmed rfl)
        fun hold => .kept f' hold (.refl f')
  | acquireLock | joinLock | renewLock | releaseLock =>
      exact fileCame_untouched hfile
        (by rw [Metadata.node_setLock, Metadata.node_aliveLocks])
  | releaseLast =>
      exact fileCame_untouched hfile
        (by rw [Metadata.node_dropLock, Metadata.node_aliveLocks])
  | releaseGone => exact fileCame_untouched hfile (by rw [Metadata.node_aliveLocks])
  | @updateBlockReplicas _ p b expected new ps' f block blocks hparts hfile' hcommitted
      hfind hexpected hblocks =>
      exact fileCame_setFile hfile
        (.kept f hfile' ⟨rfl, content_updateReplicas hblocks, rfl, rfl⟩)
        fun hold => .kept f' hold (.refl f')
  | beginWrite | beginWriteLost =>
      exact fileCame_untouched hfile
        (by rw [Metadata.node_setWrite, (pruned_writeTable _ _ _).node])
  | @commitWrite _ p w l version confirmed now caller ps' f res blocks replaced hparts
      hr hpublished =>
      rw [Metadata.node_dropWrite] at hfile
      refine fileCame_setFile hfile (.published f p w l version confirmed now caller res
        blocks replaced hparts hr hpublished rfl) fun hold => ?_
      rw [(pruned_writeTable _ _ _).node] at hold
      exact .kept f' hold (.refl f')
  | abortWrite =>
      exact fileCame_untouched hfile
        (by rw [Metadata.node_dropWrite, Metadata.node_aliveWrites])
  | abortGone => exact fileCame_untouched hfile (by rw [Metadata.node_aliveWrites])
  | createUser | changePassword => exact fileCame_untouched hfile rfl
  | @setAttrsFile _ _ p ps' f attrs hparts hfile' hcommitted hμ =>
      exact fileCame_setFile hfile (.kept f hfile' ⟨rfl, rfl, rfl, rfl⟩)
        fun hold => .kept f' hold (.refl f')
  | refused hpruned => exact fileCame_untouched hfile (by rw [hpruned.node])

end FileCame

/-! ## The commit of a write keeps the layout -/

theorem map_snd_plannedSlots (B size off len : Nat) :
    (plannedSlots B size off len).map Prod.snd
      = ((List.range' (off / B) ((off + len - 1) / B + 1 - off / B)).map fun i =>
        min B (max size (off + len) - i * B)).map Nat.cast := by
  rw [plannedSlots, List.map_map, List.map_map]
  rfl

/-- **A PLANNED WRITE KEEPS THE LAYOUT**, seen from the recorded sizes. -/
theorem filled_publishSlots {blocks : List BlockRecord} {B offset length : Int}
    {records : List WriteSlotRecord} {qs : List (WriteSlotRecord × String × Int)}
    (hB : 0 < B) (h : Filled B (blocks.map BlockRecord.sizeBytes))
    (hplan : planWriteSlots (blocks.map BlockRecord.sizeBytes) B offset length
      = .ok (records.map fun s => (s.index, s.newSize)))
    (hfst : qs.map Prod.fst = records)
    (hsizes : qs.map (fun q => q.2.2) = records.map WriteSlotRecord.newSize) :
    Filled B ((publishSlots blocks qs).1.map BlockRecord.sizeBytes) := by
  obtain ⟨hlen, hoff, hinside⟩ := planWriteSlots_ok hplan
  obtain ⟨B, rfl⟩ := Int.eq_ofNat_of_zero_le hB.le
  obtain ⟨off, rfl⟩ := Int.eq_ofNat_of_zero_le hoff
  obtain ⟨len, rfl⟩ := Int.eq_ofNat_of_zero_le hlen.le
  obtain ⟨ns, hns⟩ := exists_natCast_of_filled h
  have hcount : blocks.length = ns.length := by
    rw [← List.length_map BlockRecord.sizeBytes, hns, List.length_map]
  rw [hns] at h hplan hinside
  rw [filled_natCast] at h
  have hsum : (ns.map Nat.cast).sum = (ns.sum : Int) :=
    (map_list_sum (Nat.castAddMonoidHom ℤ) ns).symm
  rw [hsum] at hinside
  rw [planWriteSlots_natCast (by omega) (by omega) (by omega)] at hplan
  have hrecords := (Except.ok.inj hplan).symm
  have hfirst : off / B ≤ blocks.length := by
    have hle := sum_of_filled h
    rw [← hcount] at hle
    refine Nat.div_le_of_le_mul ?_
    rw [Nat.mul_comm]
    omega
  obtain ⟨hspliced, hlast, _⟩ := publishSlots_planned (by omega) hfirst hrecords hfst
  have hnew : (qs.map publishedBlock).map BlockRecord.sizeBytes
      = ((List.range' (off / B) qs.length).map fun i =>
        min B (max ns.sum (off + len) - i * B)).map Nat.cast := by
    have hmap := congrArg (List.map Prod.snd) hrecords
    rw [List.map_map, map_snd_plannedSlots, ← Nat.eq_sub_of_add_eq' hlast] at hmap
    rw [List.map_map, ← hmap]
    exact hsizes
  rw [hspliced, List.map_append, List.map_append, List.map_take, List.map_drop, hnew, hns,
    ← List.map_take, ← List.map_drop, ← List.map_append, ← List.map_append, filled_natCast]
  exact filled_replace h (by omega) (by omega) (by omega) rfl hlast

/-! ## The invariant -/

/-- The blocks that have their size have the one the layout gives them: all of
    a committed file, the confirmed ones of a pending one. -/
structure LaidOut (f : FileNode) : Prop where
  pos : 0 < f.blockSize
  sizes : ∀ i b, f.blocks[i]? = some b → f.state = .committed ∨ b.confirmed = true →
    SizeAt f.blockSize f.blocks.length i b.sizeBytes

/-- The file is the one the reservation was planned for, or a later version. -/
structure PlannedOver (res : WriteReservation) (f : FileNode) : Prop where
  committed : f.state = .committed
  version : res.baseVersion ≤ f.version
  plan : f.version = res.baseVersion → res.blockSize = f.blockSize ∧
    ∃ offset length, planWriteSlots (blockSizes f) f.blockSize offset length
      = .ok (res.slots.map fun s => (s.index, s.newSize))

/-- `used` are the lock ids drawn so far.  A reservation whose lock is held is
    planned over the file at its path. -/
structure LayoutInv (used : List String) (m : Metadata) : Prop where
  files : ∀ ps f, m.node ps = some (.file f) → LaidOut f
  locks : ∀ key mode l, HeldIn m key mode l → l ∈ used
  writes : ∀ w res, m.write w = some res → res.lockId ∈ used ∧
    ∃ p ps, parts p = .ok ps ∧ res.path = pathKey ps ∧
      (HeldIn m (pathKey ps) .w res.lockId →
        ∃ f, m.node ps = some (.file f) ∧ PlannedOver res f)

section Invariant

variable {μ : Mutation} {r : Except PyError Ret} {m m' : Metadata}
  {ps : List String} {f f' : FileNode} {used : List String} {B : Int}

theorem getElem?_of_content (h : content f' = content f) {i : Nat} {b' : BlockRecord}
    (hb : f'.blocks[i]? = some b') : ∃ b, f.blocks[i]? = some b ∧
      b.sizeBytes = b'.sizeBytes ∧ b.confirmed = b'.confirmed := by
  have hget : (content f)[i]?
      = some (b'.blockId, b'.checksum, b'.sizeBytes, b'.confirmed) := by
    rw [← h, content, List.getElem?_map, hb]
    rfl
  rw [content, List.getElem?_map] at hget
  obtain ⟨b, hb', heq⟩ := Option.map_eq_some_iff.mp hget
  obtain ⟨_, heq⟩ := Prod.mk.inj heq
  obtain ⟨_, heq⟩ := Prod.mk.inj heq
  obtain ⟨hsize, hconfirmed⟩ := Prod.mk.inj heq
  exact ⟨b, hb', hsize, hconfirmed⟩

theorem length_of_content (h : content f' = content f) :
    f'.blocks.length = f.blocks.length := by
  have hlen := congrArg List.length h
  rw [content, content, List.length_map, List.length_map] at hlen
  exact hlen

theorem blockSizes_of_content (h : content f' = content f) :
    blockSizes f' = blockSizes f := by
  have hmap := congrArg (List.map fun c : String × String × Int × Bool => c.2.2.1) h
  rw [content, content, List.map_map, List.map_map] at hmap
  exact hmap

theorem laidOut_of_same (h : SameFile f f') (hf : LaidOut f) : LaidOut f' := by
  refine ⟨h.blockSize ▸ hf.pos, fun i b' hb' hor => ?_⟩
  obtain ⟨b, hb, hsize, hconfirmed⟩ := getElem?_of_content h.content hb'
  rw [h.blockSize, length_of_content h.content, ← hsize]
  refine hf.sizes i b hb ?_
  rw [h.state, ← hconfirmed] at hor
  exact hor

theorem plannedOver_of_same {res : WriteReservation} (h : SameFile f f')
    (hf : PlannedOver res f) : PlannedOver res f' := by
  refine ⟨h.state.trans hf.committed, h.version ▸ hf.version, fun hv => ?_⟩
  rw [h.version] at hv
  rw [h.blockSize, blockSizes_of_content h.content]
  exact hf.plan hv

theorem laidOut_filled (hf : LaidOut f) (hstate : f.state = .committed) :
    Filled f.blockSize (blockSizes f) :=
  filled_iff_sizeAt.mpr fun i b hb => hf.sizes i b hb (.inl hstate)

/-- What `updateBlock` changes is the first block with the id. -/
theorem updateBlock_eq_set {b : String} {g : BlockRecord → BlockRecord}
    {blocks blocks' : List BlockRecord} (h : updateBlock b g blocks = some blocks') :
    ∃ i x, blocks.findIdx? (fun b' => b'.blockId = b) = some i ∧
      blocks[i]? = some x ∧ blocks' = blocks.set i (g x) := by
  induction blocks generalizing blocks' with
  | nil => exact nomatch h
  | cons hd rest ih =>
      rw [updateBlock] at h
      rw [List.findIdx?_cons]
      by_cases hb : hd.blockId = b
      · rw [if_pos hb] at h
        rw [if_pos (decide_eq_true hb)]
        exact ⟨0, hd, rfl, rfl, (Option.some.inj h).symm⟩
      · rw [if_neg hb] at h
        rw [if_neg (by simpa using hb)]
        obtain ⟨rest', hrest, rfl⟩ := Option.map_eq_some_iff.mp h
        obtain ⟨i, x, hi, hx, hset⟩ := ih hrest
        exact ⟨i + 1, x, by rw [hi]; rfl, hx, by rw [hset]; rfl⟩

/-- An upload carries the block size of the leader, which is not 0. -/
theorem mutationOf_beginUpload {path : String} {sizeBytes : Int}
    {proposed : List (String × List String)} {now uploadLeaseS : Time}
    {caller : Option Caller}
    (h : mutationOf B (.beginUpload path sizeBytes proposed now uploadLeaseS caller)
      = some μ) :
    B ≠ 0 ∧ numBlocks sizeBytes B = .ok proposed.length ∧
      μ = .beginUpload path proposed (some now) (some uploadLeaseS) (some B) caller := by
  rw [mutationOf] at h
  by_cases hsize : sizeBytes ≤ 0
  · rw [if_pos hsize] at h
    exact nomatch h
  rw [if_neg hsize, numBlocks] at h
  by_cases hzero : B = 0
  · rw [if_pos hzero] at h
    exact nomatch h
  rw [if_neg hzero] at h
  by_cases hcount : proposed.length = (-(-sizeBytes).fdiv B).toNat
  · simp only [if_pos hcount] at h
    refine ⟨hzero, ?_, (Option.some.inj h).symm⟩
    rw [numBlocks, if_neg hzero, hcount]
  · simp only [if_neg hcount] at h
    exact nomatch h

/-- The file that an upload begins has none of its sizes yet. -/
theorem laidOut_newUpload {rpc : Rpc} {p : String}
    {placements : List (String × List String)} {now leaseS : Option Time}
    {blockSize : Option Int} {caller : Option Caller} (hB : 0 ≤ B)
    (hrpc : mutationOf B rpc = some (.beginUpload p placements now leaseS blockSize caller)) :
    LaidOut (newUpload placements now leaseS blockSize caller) := by
  obtain ⟨hne, rfl⟩ : B ≠ 0 ∧ blockSize = some B := by
    cases rpc with
    | beginUpload =>
        obtain ⟨hne, _, hμ⟩ := mutationOf_beginUpload hrpc
        exact ⟨hne, (Mutation.beginUpload.inj hμ).2.2.2.2.1⟩
    | confirmBlock | beginWrite => exact nomatch Option.some.inj hrpc
    | other μ =>
        cases μ with
        | beginUpload | confirmBlock | beginWrite => exact nomatch hrpc
        | _ => exact nomatch Option.some.inj hrpc
  refine ⟨show 0 < B by omega, fun i b hb hor => ?_⟩
  rcases hor with hstate | hconfirmed
  · exact nomatch hstate
  · obtain ⟨q, _, rfl⟩ := List.mem_map.mp (List.mem_of_getElem? hb)
    exact nomatch hconfirmed

theorem getPendingFile_eq {s : ControlTree} {p : String} (hparts : parts p = .ok ps)
    (hfile : s.root.view ps = some (.file f)) (hpending : f.state = .pending) :
    (getPendingFile p s).1 = .ok (ps, f) := by
  have hview : getNode ps s = (.ok (some (.file f)), s) := by
    rw [← hfile]
    rfl
  simp only [getPendingFile, bind, andThen, RaisingAction.ofExcept, hparts, hview,
    raiseIf, hpending, ne_eq, not_true_eq_false, if_false]
  rfl

theorem reported_of_confirmBlock {s : ControlTree} {rpc : Rpc} {p b sum : String}
    {size : Int} {now leaseS : Option Time} {caller : Option Caller} {i : Nat}
    (hrpc : mutationOf B rpc = some (.confirmBlock p b sum size now leaseS caller))
    (hreports : ReportsSize s rpc) (hparts : parts p = .ok ps)
    (hfile : s.root.view ps = some (.file f)) (hpending : f.state = .pending)
    (hi : f.blocks.findIdx? (fun b' => b'.blockId = b) = some i) :
    SizeAt f.blockSize f.blocks.length i size := by
  cases rpc with
  | confirmBlock path blockId checksum sizeBytes now' uploadLeaseS caller' =>
      obtain ⟨rfl, rfl, _, rfl, _⟩ :=
        Mutation.confirmBlock.inj (Option.some.inj hrpc)
      refine hreports (f.blockSize, f.blocks.length, i) ?_
      rw [placeOf, getPendingFile_eq hparts hfile hpending]
      exact Option.map_eq_some_iff.mpr ⟨i, hi, rfl⟩
  | beginUpload => exact nomatch (mutationOf_beginUpload hrpc).2.2
  | beginWrite => exact nomatch Option.some.inj hrpc
  | other μ =>
      cases μ with
      | beginUpload | confirmBlock | beginWrite => exact nomatch hrpc
      | _ => exact nomatch Option.some.inj hrpc

/-- **EVERY FILE THAT A STEP LEAVES IS LAID OUT.** -/
theorem laidOut_came {s : ControlTree} {rpc : Rpc} (h : LayoutInv used (metadata s)) (hB : 0 ≤ B)
    (hrpc : mutationOf B rpc = some μ) (hreports : ReportsSize s rpc)
    (hcame : FileCame μ (metadata s) ps f') : LaidOut f' := by
  cases hcame with
  | kept f hfile hsame => exact laidOut_of_same hsame (h.files ps f hfile)
  | uploaded p placements now leaseS blockSize caller hμ hparts hnew =>
      subst hμ hnew
      exact laidOut_newUpload hB hrpc
  | confirmed f p b sum size now leaseS caller hμ hparts hfile hpending hstate
      hblockSize hblocks =>
      subst hμ
      have hf := h.files ps f hfile
      obtain ⟨i, x, hi, hx, hset⟩ := updateBlock_eq_set hblocks
      have hreported := reported_of_confirmBlock hrpc hreports hparts hfile hpending hi
      have hlength : f'.blocks.length = f.blocks.length := by rw [hset, List.length_set]
      refine ⟨hblockSize ▸ hf.pos, fun j y hy hor => ?_⟩
      rw [hblockSize, hlength]
      rw [hset, List.getElem?_set] at hy
      by_cases hij : i = j
      · rw [if_pos hij] at hy
        subst hij
        rw [if_pos (List.getElem?_eq_some_iff.mp hx).1] at hy
        rw [← Option.some.inj hy]
        exact hreported
      · rw [if_neg hij] at hy
        refine hf.sizes j y hy ?_
        rw [hpending, ← hstate]
        exact hor
  | completed f hfile hpending hconfirmed hnew =>
      subst hnew
      have hf := h.files ps f hfile
      exact ⟨hf.pos, fun i b hb _ =>
        hf.sizes i b hb (.inr (hconfirmed b (List.mem_of_getElem? hb)))⟩
  | published f p w l version confirmed now caller res blocks replaced hparts hr
      hpublished hnew =>
      subst hnew
      have hf := h.files ps f hr.hfile
      obtain ⟨_, p', ps', hparts', hpath, hheld⟩ := h.writes w res hr.hreserved
      have hkey : pathKey ps' = pathKey ps := hpath.symm.trans hr.hpath
      obtain rfl := pathKey_inj (cleanName_of_parts hparts') (cleanName_of_parts hparts)
        hkey
      rw [hr.hlock] at hheld
      obtain ⟨f₁, hfile₁, hplanned⟩ := hheld (heldIn_writeTable hr.hlocked)
      obtain rfl : f = f₁ :=
        Entry.file.inj (Option.some.inj (hr.hfile.symm.trans hfile₁))
      obtain ⟨hblockSize, offset, length, hplan⟩ := hplanned.plan hr.hversion
      have hfilled := filled_publishSlots hf.pos (laidOut_filled hf hr.hcommitted) hplan
        (fst_confirmedSlots hr.hslots) (sizes_confirmedSlots hr.hslots)
      rw [hpublished, ← hblockSize] at hfilled
      refine ⟨hblockSize ▸ hf.pos, fun i b hb _ => ?_⟩
      exact (filled_iff_sizeAt (f := { f with
        blocks, version := f.version + 1, blockSize := res.blockSize })).mp hfilled i b hb

theorem eq_beginWrite_of_mem {w : String} (h : w ∈ begunWrites μ) :
    ∃ p l version offset length proposals now leaseS default caller,
      μ = .beginWrite p w l version offset length proposals now leaseS default caller := by
  cases μ with
  | beginWrite p w' l version offset length proposals now leaseS default caller =>
      obtain rfl := List.mem_singleton.mp h
      exact ⟨p, l, version, offset, length, proposals, now, leaseS, default, caller, rfl⟩
  | _ => exact absurd h List.not_mem_nil

/-- A reservation that has just begun is planned over its file. -/
theorem plannedOver_of_reserves {w l : String} {version offset length : Int}
    {proposals : List (Int × String × List String)} {now leaseS : Time}
    {default : Int} {caller : Option Caller} {res : WriteReservation} (hf : LaidOut f)
    (hr : Reserves m ps f w l version offset length proposals now leaseS default caller
      res) : PlannedOver res f := by
  have hblockSize : blockSizeOf f default = f.blockSize := by
    rw [blockSizeOf, if_pos hf.pos.ne']
  obtain ⟨plan, hplan, hproposed, hslots⟩ := hr.hplan
  refine ⟨hr.hcommitted, hr.hbase.le, fun _ => ⟨hr.hblockSize.trans hblockSize, offset,
    length, ?_⟩⟩
  rw [hslots, map_fillSlots hproposed, ← hblockSize]
  exact hplan

/-- What a step does to the file under a reservation whose lock stays held. -/
theorem plannedOver_step {res : WriteReservation} {mode : LockMode} {l : String}
    (he : Effect μ m r m') (hfile : m.node ps = some (.file f)) (hf : PlannedOver res f)
    (hheld : HeldIn m' (pathKey ps) mode l) :
    ∃ f', m'.node ps = some (.file f') ∧ PlannedOver res f' := by
  cases committedStep_effect he hfile hf.committed with
  | kept f' hfile' hsame hlease => exact ⟨f', hfile', plannedOver_of_same hsame hf⟩
  | published f' p w l version confirmed now caller replaced hμ hparts hr hfile' hstate
      hversion =>
      have hle := hf.version
      exact ⟨f', hfile', hstate, by omega, fun hv => by omega⟩
  | removed p now caller hμ hparts hnone hunlocked =>
      obtain ⟨st, holder, hst, _⟩ := hheld
      rw [hunlocked] at hst
      exact nomatch hst

/-- **THE INVARIANT IS KEPT** by every step that reports the right sizes. -/
theorem layoutInv_step {s : ControlTree} {rpc : Rpc} (h : LayoutInv used (metadata s)) (hB : 0 ≤ B)
    (hrpc : mutationOf B rpc = some μ) (hreports : ReportsSize s rpc)
    (he : Effect μ (metadata s) r m') (hnew : ∀ l ∈ acquiredLocks μ, l ∉ used) :
    LayoutInv (used ++ acquiredLocks μ) m' := by
  refine ⟨fun ps f hfile =>
    laidOut_came h hB hrpc hreports (fileCame_effect he hfile), ?_, ?_⟩
  · intro key mode l hl
    rw [List.mem_append]
    exact (heldIn_effect he hl).symm.imp_left (h.locks key mode l)
  · intro w res hw
    have hkept : (metadata s).write w = some res → res.lockId ∈ used ++ acquiredLocks μ ∧
        ∃ p ps, parts p = .ok ps ∧ res.path = pathKey ps ∧
          (HeldIn m' (pathKey ps) .w res.lockId →
            ∃ f, m'.node ps = some (.file f) ∧ PlannedOver res f) := by
      intro hold
      obtain ⟨hused, p, ps, hparts, hpath, hplanned⟩ := h.writes w res hold
      refine ⟨List.mem_append_left _ hused, p, ps, hparts, hpath, fun hheld => ?_⟩
      have hheld₀ := (heldIn_effect he hheld).resolve_left fun hacq =>
        hnew _ hacq hused
      obtain ⟨f, hfile, hf⟩ := hplanned hheld₀
      exact plannedOver_step he hfile hf hheld
    rcases reserved_effect he hw with hbegun | hold
    · obtain ⟨p, l, version, offset, length, proposals, now, leaseS, default, caller,
        rfl⟩ := eq_beginWrite_of_mem hbegun
      rcases effect_beginWrite he hw with hold | ⟨ps, f, hparts, hnode, hr⟩
      · exact hkept hold
      · have hlock := h.locks _ _ _ (heldIn_writeTable hr.hlocked)
        rw [← hr.hlock] at hlock
        refine ⟨List.mem_append_left _ hlock, p, ps, hparts, hr.hpath, fun _ => ?_⟩
        refine ⟨f, ?_, plannedOver_of_reserves (h.files ps f hr.hfile) hr⟩
        rw [hnode]
        exact hr.hfile
    · exact hkept hold

theorem LayoutInv.mono {used' : List String} (h : LayoutInv used m) :
    LayoutInv (used ++ used') m :=
  ⟨h.files, fun key mode l hl => List.mem_append_left _ (h.locks key mode l hl),
    fun w res hw => (h.writes w res hw).imp_left (List.mem_append_left _)⟩

end Invariant

/-! ## Runs -/

theorem layoutInv_empty : LayoutInv [] (metadata ControlTree.empty) := by
  refine ⟨?_, ?_, fun w res hw => nomatch hw⟩
  · exact fun ps f hfile => absurd hfile (no_file_empty ps f)
  · rintro key mode l ⟨st, holder, hst, _⟩
    exact nomatch hst

/-- The locks that a mutation acquires are those that its request draws. -/
theorem acquiredLocks_of_mutationOf {B : Int} {rpc : Rpc} {μ : Mutation} (opId : String)
    (h : mutationOf B rpc = some μ) : acquiredLocks μ = drawnLocks ⟨B, opId, rpc⟩ := by
  cases rpc with
  | beginUpload =>
      obtain ⟨_, _, rfl⟩ := mutationOf_beginUpload h
      rfl
  | confirmBlock | beginWrite => rw [← Option.some.inj h]; rfl
  | other μ' =>
      cases μ' with
      | beginUpload | confirmBlock | beginWrite => exact nomatch h
      | _ => rw [← Option.some.inj h]; rfl

/-- In the runs of honest reports the invariant holds. -/
theorem layoutInv_run {ls : List Issue} {s : ReplicatedTree}
    (hrun : (controlNodeRpcs.guarded Honest).Run ls s)
    (hlocks : (ls.flatMap drawnLocks).Nodup) :
    LayoutInv (ls.flatMap drawnLocks) (metadata s.tree) := by
  refine hrun.invariant (I := fun ls s => (ls.flatMap drawnLocks).Nodup →
    LayoutInv (ls.flatMap drawnLocks) (metadata s.tree)) ?_ ?_ hlocks
  · rintro s rfl _
    exact layoutInv_empty
  · rintro ls s c s' ih ⟨⟨hB, hreports⟩, hstep⟩ hnodup
    rw [List.flatMap_append, List.flatMap_singleton] at hnodup ⊢
    obtain ⟨hold, _, hnew⟩ := List.nodup_append.mp hnodup
    obtain ⟨μ, hμ, rfl⟩ := Option.map_eq_some_iff.mp hstep
    cases hop : s.appliedOps.get? c.opId with
    | some o =>
        rw [apply_cached hop]
        exact (ih hold).mono
    | none =>
        rw [apply_executed hop, ← acquiredLocks_of_mutationOf c.opId hμ]
        refine layoutInv_step (ih hold) hB hμ (hreports hop) (exec_effect μ s.tree) ?_
        intro l hl hused
        rw [acquiredLocks_of_mutationOf c.opId hμ] at hl
        exact hnew l hused l hl rfl

/-- The byte at an offset lies in the block that the division gives. -/
theorem position_of_layout {B : Int} {sizes : List Int} {o : Nat} (hB : 0 < B)
    (h : Filled B sizes) (ho : (o : Int) < sizes.sum) :
    (sizes.take (o / B.toNat)).sum ≤ o ∧ (o : Int) < (sizes.take (o / B.toNat + 1)).sum := by
  obtain ⟨B, rfl⟩ := Int.eq_ofNat_of_zero_le hB.le
  obtain ⟨ns, rfl⟩ := exists_natCast_of_filled h
  have hsum : ∀ ms : List Nat, (ms.map Nat.cast).sum = (ms.sum : Int) := fun ms =>
    (map_list_sum (Nat.castAddMonoidHom ℤ) ms).symm
  rw [hsum] at ho
  obtain ⟨hlow, hhigh⟩ := position_of_filled (filled_natCast.mp h) (by omega)
    (show o < ns.sum by omega)
  rw [← List.map_take, ← List.map_take, hsum, hsum, Int.toNat_natCast]
  omega

/-- **THE LAYOUT HOLDS IN EVERY STATE** that honest reports can reach: every
    committed file has all its blocks full but the last, so the byte at an
    offset lies in the block that the division by the block size gives. -/
theorem layout_of_honest_reports {ls : List Issue} {s : ReplicatedTree}
    {ps : List String} {f : FileNode}
    (hrun : (controlNodeRpcs.guarded Honest).Run ls s)
    (hlocks : (ls.flatMap drawnLocks).Nodup)
    (hfile : s.tree.root.view ps = some (.file f)) (hstate : f.state = .committed) :
    Layout f.blockSize f ∧ ∀ o : Nat, (o : Int) < (blockSizes f).sum →
      ((blockSizes f).take (o / f.blockSize.toNat)).sum ≤ o ∧
      (o : Int) < ((blockSizes f).take (o / f.blockSize.toNat + 1)).sum := by
  have hf := (layoutInv_run hrun hlocks).files ps f hfile
  have hfilled := laidOut_filled hf hstate
  exact ⟨⟨hf.pos, hfilled⟩, fun o ho => position_of_layout hf.pos hfilled ho⟩

/-- An upload of 13 bytes in two blocks of 10, with the sizes that the client
    reports. -/
def upload (size₀ size₁ : Int) : List Issue :=
  [⟨10, "u", .beginUpload "/f" 13 [("b0", ["n1"]), ("b1", ["n1"])] 0 60 none⟩,
   ⟨10, "c0", .confirmBlock "/f" "b0" "h0" size₀ 1 60 none⟩,
   ⟨10, "c1", .confirmBlock "/f" "b1" "h1" size₁ 2 60 none⟩,
   ⟨10, "e", .other (.completeUpload "/f" none)⟩]

/-- The file of the upload, but for its blocks. -/
def uploadedFile : FileNode where
  state := .committed
  leaseExpiresAt := 62
  blockSize := 10
  attrs := ownership none fileMode

/-- A write that makes the last block longer. -/
def extension : List Issue :=
  [⟨10, "l", .other (.acquireLock "/f" "L" "ana" "w" 3 60 none)⟩,
   ⟨10, "w", .beginWrite "/f" "w1" "L" 0 13 4 [(1, "b2", ["n1"])] 3 60 none⟩,
   ⟨10, "k", .other (.commitWrite "/f" "w1" "L" 0 [(1, "b2", "h2", 7)] 4 none)⟩]

/-- The last block may be short, and a write extends it. -/
theorem layout_of_honest_reports_extended :
    ∃ s f, (controlNodeRpcs.guarded Honest).Run (upload 10 3 ++ extension) s ∧
      s.tree.root.view ["f"] = some (.file f) ∧ blockSizes f = [10, 7] ∧
      Layout f.blockSize f := by
  have hend : (steps (guardedNext Honest nextState) ReplicatedTree.empty
      (upload 10 3 ++ extension)).map (fun s => s.tree.root.view ["f"])
        = some (some (.file {
          uploadedFile with
          blocks := [⟨"b0", ["n1"], "h0", 10, true⟩, ⟨"b2", ["n1"], "h2", 7, true⟩]
          version := 1 })) := by decide +kernel
  obtain ⟨s, hs, hfile⟩ := Option.map_eq_some_iff.mp hend
  have hrun : (controlNodeRpcs.guarded Honest).Run (upload 10 3 ++ extension) s :=
    run_guarded_of_steps hs
  exact ⟨s, _, hrun, hfile, rfl,
    (layout_of_honest_reports hrun (by decide) hfile rfl).1⟩

/-- **A SHORT BLOCK IS CONFIRMED AS IT IS REPORTED**, inside the file too. -/
theorem short_inner_block_breaks_layout :
    ¬ ∀ (ls : List Issue) (s : ReplicatedTree) (ps : List String) (f : FileNode),
      controlNodeRpcs.Run ls s → (ls.flatMap drawnLocks).Nodup →
      s.tree.root.view ps = some (.file f) → f.state = .committed →
      Layout f.blockSize f := by
  intro h
  have hend : (steps nextState ReplicatedTree.empty (upload 3 10)).map
      (fun s => s.tree.root.view ["f"])
        = some (some (.file {
          uploadedFile with
          blocks := [⟨"b0", ["n1"], "h0", 3, true⟩, ⟨"b1", ["n1"], "h1", 10, true⟩] })) := by
    decide +kernel
  obtain ⟨s, hs, hfile⟩ := Option.map_eq_some_iff.mp hend
  have hlayout := h (upload 3 10) s ["f"] _ (run_of_steps hs) (by decide) hfile rfl
  exact absurd hlayout.2.1 (by decide)

end DfshaBlockLayout
