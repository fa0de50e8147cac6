import Dfsha.OwnershipProofs
import Dfsha.ReplicatedTreeProofs

/-! # Every block has one owner

    A block id belongs to one file or to one write reservation, and once the
    replicated tree gives it up for deletion nobody holds it again.

    The physical deletions happen outside the state machine, from the lists
    that four mutations return and that the deduplication returns again to a
    retry.  What makes them safe is `Separate (held m)`: every id that occurs
    occurs once.  Only `begin_upload` and `begin_write` bring ids in, and
    `commit_write` hands the ids of a reservation over to its file. -/

namespace DfshaBlockOwnership

open InsertionDict NamedTree Ownership RaisingAction
open TransitionSystem TransitionSystem.System
open DfshaPath DfshaControlTree DfshaMetadata DfshaControlTreeEffect
open DfshaReplicatedTree

/-- Who can hold a block: the file at a path or a write reservation. -/
inductive Holder where
  | file (ps : List String)
  | write (writeId : String)
deriving DecidableEq

/-- The ids of the blocks of a file. -/
def fileIds (f : FileNode) : List String := f.blocks.map BlockRecord.blockId

/-- The ids of the new blocks of a reservation. -/
def slotIds (r : WriteReservation) : List String :=
  r.slots.map WriteSlotRecord.newBlockId

/-- The block ids that a holder has. -/
def held (m : Metadata) : Holder → List String
  | .file ps => ((m.file ps).map fileIds).getD []
  | .write w => ((m.write w).map slotIds).getD []

/-- The block ids that a mutation brings in. -/
def proposedIds : Mutation → List String
  | .beginUpload _ placements _ _ _ _ => placements.map Prod.fst
  | .beginWrite _ _ _ _ _ _ proposals _ _ _ _ => proposals.map fun p => p.2.1
  | _ => []

/-- The blocks that a result gives up for deletion. -/
def toDelete : Ret → List BlockRecord
  | .removed blocks => blocks
  | .uploadBegun _ staleBlocks => staleBlocks
  | .writeCommitted _ replaced => replaced
  | .writeAborted reserved => reserved
  | _ => []

/-! ## The holders after an update -/

section Updates

variable {m m' : Metadata} {ps : List String} {f : FileNode} {w : String}
  {r : WriteReservation}

theorem held_file (h : m.node ps = some (.file f)) :
    held m (.file ps) = fileIds f := by
  rw [held, Metadata.file_eq_some.mpr h]
  rfl

theorem held_write (h : m.write w = some r) : held m (.write w) = slotIds r := by
  rw [held, h]
  rfl

theorem held_congr (hfile : ∀ q, m'.file q = m.file q) (hwrite : m'.write = m.write) :
    held m' = held m := by
  funext i
  cases i with
  | file q => rw [held, held, hfile]
  | write w => rw [held, held, hwrite]

theorem held_setFile (m : Metadata) (ps : List String) (f : FileNode) :
    held (m.setFile ps f) = Function.update (held m) (.file ps) (fileIds f) := by
  funext i
  cases i with
  | file q =>
      rw [Function.update_apply, held, Metadata.file_setFile]
      by_cases hq : q = ps
      · rw [if_pos hq, if_pos (by rw [hq])]
        rfl
      · rw [if_neg hq, if_neg fun h => hq (Holder.file.inj h)]
        rfl
  | write w => exact (Function.update_of_ne (by simp) _ _).symm

theorem held_dropNode (m : Metadata) (ps : List String) :
    held (m.dropNode ps) = Function.update (held m) (.file ps) [] := by
  funext i
  cases i with
  | file q =>
      rw [Function.update_apply, held, Metadata.file_dropNode]
      by_cases hq : q = ps
      · rw [if_pos hq, if_pos (by rw [hq])]
        rfl
      · rw [if_neg hq, if_neg fun h => hq (Holder.file.inj h)]
        rfl
  | write w => exact (Function.update_of_ne (by simp) _ _).symm

theorem held_setWrite (m : Metadata) (w : String) (r : WriteReservation) :
    held (m.setWrite w r) = Function.update (held m) (.write w) (slotIds r) := by
  funext i
  cases i with
  | file q => exact (Function.update_of_ne (by simp) _ _).symm
  | write w' =>
      rw [Function.update_apply, held, Metadata.write_setWrite]
      by_cases hw : w' = w
      · rw [if_pos hw, if_pos (by rw [hw])]
        rfl
      · rw [if_neg hw, if_neg fun h => hw (Holder.write.inj h)]
        rfl

theorem held_dropWrite (m : Metadata) (w : String) :
    held (m.dropWrite w) = Function.update (held m) (.write w) [] := by
  funext i
  cases i with
  | file q => exact (Function.update_of_ne (by simp) _ _).symm
  | write w' =>
      rw [Function.update_apply, held, Metadata.write_dropWrite]
      by_cases hw : w' = w
      · rw [if_pos hw, if_pos (by rw [hw])]
        rfl
      · rw [if_neg hw, if_neg fun h => hw (Holder.write.inj h)]
        rfl

theorem held_aliveLocks (m : Metadata) (key : String) (now : Option Time) :
    held (m.aliveLocks key now) = held m :=
  held_congr (Metadata.file_congr (Metadata.node_aliveLocks key now))
    (Metadata.write_aliveLocks key now)

theorem held_setLock (m : Metadata) (key : String) (st : LockState) :
    held (m.setLock key st) = held m := rfl

theorem held_dropLock (m : Metadata) (key : String) :
    held (m.dropLock key) = held m := rfl

theorem held_setUser (m : Metadata) (u : String) (user : UserRecord) :
    held (m.setUser u user) = held m := rfl

theorem held_makeParents (m : Metadata) (ps : List String) (attrs : NodeAttrs) :
    held (m.makeParents ps attrs) = held m :=
  held_congr (Metadata.file_makeParents ps attrs) rfl

theorem held_setDir (d : NodeAttrs) (h : m.file ps = none) :
    held (m.setNode ps (.dir d)) = held m :=
  held_congr (Metadata.file_setDir d h) rfl

/-- Pruning forgets whole reservations and nothing else. -/
theorem held_pruned {now : Option Time} (h : Pruned now m m') (i : Holder) :
    (held m' i).Sublist (held m i) := by
  cases i with
  | file q =>
      rw [held, held, Metadata.file_congr h.node]
  | write w =>
      cases hw : m'.write w with
      | none =>
          rw [held, hw]
          exact List.nil_sublist _
      | some r => rw [held_write hw, held_write (h.write w r hw)]

end Updates

/-! ## Lists of blocks -/

theorem fileIds_newUpload (placements : List (String × List String))
    (now leaseS : Option Time) (blockSize : Option Int) (caller : Option Caller) :
    fileIds (newUpload placements now leaseS blockSize caller)
      = placements.map Prod.fst := by
  show (placements.map reservedBlock).map BlockRecord.blockId = _
  rw [List.map_map]
  rfl

/-- Changing a block in place keeps the ids. -/
theorem map_blockId_updateBlock {b : String} {g : BlockRecord → BlockRecord}
    {blocks blocks' : List BlockRecord} (h : updateBlock b g blocks = some blocks')
    (hg : ∀ b, (g b).blockId = b.blockId) :
    blocks'.map BlockRecord.blockId = blocks.map BlockRecord.blockId := by
  induction blocks generalizing blocks' with
  | nil => exact nomatch h
  | cons hd rest ih =>
      rw [updateBlock] at h
      by_cases hb : hd.blockId = b
      · rw [if_pos hb] at h
        rw [← Option.some.inj h, List.map_cons, List.map_cons, hg]
      · rw [if_neg hb] at h
        obtain ⟨rest', hrest, hcons⟩ := Option.map_eq_some_iff.mp h
        rw [← hcons, List.map_cons, List.map_cons, ih hrest]

/-- The slots of a plan take their ids from the proposals. -/
theorem slotIds_fillSlots (plan : List (Int × Int))
    (proposals : List (Int × String × List String)) :
    ((fillSlots plan proposals).map WriteSlotRecord.newBlockId).Sublist
      (proposals.map fun p => p.2.1) := by
  induction plan generalizing proposals with
  | nil => exact List.nil_sublist _
  | cons hd plan ih =>
      cases proposals with
      | nil => exact List.nil_sublist _
      | cons p proposals => exact (ih proposals).cons_cons _

/-- A Python index that is in range is a position of the list, and storing at
    the index stores at that position. -/
theorem pyIndex_position {γ : Type} {l : List γ} {i : Int} {a : γ}
    (h : pyIndex l i = .ok a) :
    ∃ n, l[n]? = some a ∧ ∀ b, pySet l i b = l.set n b := by
  refine ⟨(if 0 ≤ i then i else i + l.length).toNat, ?_, fun _ => rfl⟩
  unfold pyIndex at h
  dsimp only at h
  by_cases hi : 0 ≤ (if 0 ≤ i then i else i + (l.length : Int))
  · rw [if_pos hi] at h
    cases hl : l[(if 0 ≤ i then i else i + (l.length : Int)).toNat]? with
    | none => rw [hl] at h; exact nomatch h
    | some b => rw [hl] at h; rw [Except.ok.inj h]
  · rw [if_neg hi] at h
    exact nomatch h

/-- Replacing one element exchanges the new one for the old one. -/
theorem perm_set {γ : Type} {l : List γ} {n : Nat} {a b : γ}
    (h : l[n]? = some a) : (a :: l.set n b).Perm (b :: l) := by
  induction l generalizing n with
  | nil => exact nomatch h
  | cons hd tl ih =>
      cases n with
      | zero =>
          rw [List.getElem?_cons_zero] at h
          rw [Option.some.inj h]
          exact List.Perm.swap b a tl
      | succ n =>
          rw [List.getElem?_cons_succ] at h
          show (a :: hd :: tl.set n b).Perm (b :: hd :: tl)
          exact (List.Perm.swap hd a _).trans
            (((ih h).cons hd).trans (List.Perm.swap b hd tl))

/-- **A PUBLICATION LOSES AND INVENTS NOTHING**: what the file has afterwards,
    with what was replaced, is what it had, with the new blocks. -/
theorem publishSlots_perm {slots : List (WriteSlotRecord × String × Int)}
    {blocks blocks' replaced : List BlockRecord}
    (h : publishSlots blocks slots = (blocks', .ok replaced)) :
    (blocks'.map BlockRecord.blockId ++ replaced.map BlockRecord.blockId).Perm
      (blocks.map BlockRecord.blockId ++ slots.map fun s => s.1.newBlockId) := by
  induction slots generalizing blocks replaced with
  | nil =>
      have hblocks : blocks = blocks' := congrArg Prod.fst h
      have hreplaced : [] = replaced := Except.ok.inj (congrArg Prod.snd h)
      rw [← hblocks, ← hreplaced]
      exact List.Perm.refl _
  | cons hd rest ih =>
      obtain ⟨slot, checksum, size⟩ := hd
      rw [publishSlots] at h
      by_cases hlt : slot.index < blocks.length
      · rw [if_pos hlt] at h
        cases hidx : pyIndex blocks slot.index with
        | error e =>
            rw [hidx] at h
            cases congrArg Prod.snd h
        | ok old =>
            rw [hidx] at h
            obtain ⟨n, hn, hset⟩ := pyIndex_position hidx
            simp only [hset] at h
            obtain ⟨tail, htail, hcons⟩ := map_eq_ok (congrArg Prod.snd h)
            have hfst := congrArg Prod.fst h
            have hpub : publishSlots (blocks.set n _) rest = (blocks', .ok tail) :=
              Prod.ext hfst htail
            have hrec := ih hpub
            rw [List.map_set] at hrec
            have hold : (blocks.map BlockRecord.blockId)[n]? = some old.blockId := by
              rw [List.getElem?_map, hn]
              rfl
            -- the new id goes in for the old one, which is replaced
            rw [← hcons, List.map_cons, List.map_cons]
            exact (List.perm_middle.trans (hrec.cons _)).trans
              (((perm_set hold).append_right _).trans List.perm_middle.symm)
      · rw [if_neg hlt] at h
        have hrec := ih h
        rw [List.map_append, List.append_assoc] at hrec
        exact hrec

/-- The ids of a publication are those of the reservation. -/
theorem map_newBlockId_confirmedSlots {r : WriteReservation}
    {confirmed : List (Int × String × String × Int)}
    (h : confirmed.map (fun c => (c.1, c.2.1, c.2.2.2)) =
      r.slots.map fun s => (s.index, s.newBlockId, s.newSize)) :
    (confirmedSlots r confirmed).map (fun s => s.1.newBlockId) = slotIds r := by
  unfold slotIds
  rw [← fst_confirmedSlots h, List.map_map]
  rfl

/-! ## What one mutation does to the holders -/

/-- What a step owes to the ownership of blocks: ids stay separate; an id that
    is held afterwards was proposed, or the same holder had it, or a
    reservation handed it over; an id given up had a holder and has none. -/
structure OwnershipStep (proposed : List String) (m : Metadata)
    (discarded : List BlockRecord) (m' : Metadata) : Prop where
  separate : Separate (held m')
  source : ∀ i x, x ∈ held m' i →
    x ∈ proposed ∨ x ∈ held m i ∨ ∃ w, x ∈ held m (.write w)
  discarded : ∀ b ∈ discarded, (∃ i, b.blockId ∈ held m i) ∧
    ∀ i, b.blockId ∉ held m' i

section Steps

variable {m m' : Metadata} {proposed : List String}

/-- A step that only forgets, and gives nothing up. -/
theorem ownershipStep_forget (h : Separate (held m))
    (hs : ∀ i, (held m' i).Sublist (held m i)) :
    OwnershipStep proposed m [] m' where
  separate := h.mono hs
  source := fun i _ hx => .inr (.inl ((hs i).subset hx))
  discarded := fun _ hb => absurd hb List.not_mem_nil

theorem ownershipStep_same (h : Separate (held m)) (hs : held m' = held m) :
    OwnershipStep proposed m [] m' :=
  ownershipStep_forget h fun i => by rw [hs]

/-- A holder gives up what it has. -/
theorem ownershipStep_drop {m₁ : Metadata} (h : Separate (held m))
    (hs : ∀ i, (held m₁ i).Sublist (held m i)) {i : Holder}
    (hm' : held m' = Function.update (held m₁) i [])
    {discarded : List BlockRecord}
    (hd : ∀ b ∈ discarded, b.blockId ∈ held m₁ i) :
    OwnershipStep proposed m discarded m' where
  separate := by
    rw [hm']
    exact (h.mono hs).renew List.nodup_nil fun x hx => absurd hx List.not_mem_nil
  source := by
    intro j x hx
    rw [hm'] at hx
    rcases mem_update hx with ⟨_, hx⟩ | ⟨_, hx⟩
    · exact absurd hx List.not_mem_nil
    · exact .inr (.inl ((hs j).subset hx))
  discarded := by
    intro b hb
    refine ⟨⟨i, (hs i).subset (hd b hb)⟩, ?_⟩
    rw [hm']
    exact (h.mono hs).dropped (hd b hb)

/-- A holder gets new ids, and gives up what it had. -/
theorem ownershipStep_renew {m₁ : Metadata} (h : Separate (held m))
    (hs : ∀ i, (held m₁ i).Sublist (held m i)) {i : Holder} {ids : List String}
    (hm' : held m' = Function.update (held m₁) i ids)
    (hids : ids.Sublist proposed) (hnd : proposed.Nodup)
    (hfresh : ∀ x ∈ proposed, ∀ j, x ∉ held m j)
    {discarded : List BlockRecord}
    (hd : ∀ b ∈ discarded, b.blockId ∈ held m₁ i) :
    OwnershipStep proposed m discarded m' where
  separate := by
    rw [hm']
    refine (h.mono hs).renew (hnd.sublist hids) ?_
    intro x hx j hj
    exact hfresh x (hids.subset hx) j ((hs j).subset hj)
  source := by
    intro j x hx
    rw [hm'] at hx
    rcases mem_update hx with ⟨_, hx⟩ | ⟨_, hx⟩
    · exact .inl (hids.subset hx)
    · exact .inr (.inl ((hs j).subset hx))
  discarded := by
    intro b hb
    have hi := (hs i).subset (hd b hb)
    refine ⟨⟨i, hi⟩, ?_⟩
    intro j hj
    rw [hm'] at hj
    rcases mem_update hj with ⟨_, hj⟩ | ⟨hne, hj⟩
    · exact hfresh _ (hids.subset hj) i hi
    · exact hne (h.owner j i _ ((hs j).subset hj) hi)

end Steps

/-- A commit hands the ids of the reservation over to the file. -/
theorem ownershipStep_commit {m : Metadata} {proposed : List String}
    {ps : List String} {f f' : FileNode} {w l : String} {version : Int}
    {confirmed : List (Int × String × String × Int)} {now : Time}
    {caller : Option Caller} {r : WriteReservation} {replaced : List BlockRecord}
    (h : Separate (held m)) (hr : Publishes m ps f w l version confirmed now caller r)
    (hpublished : publishSlots f.blocks (confirmedSlots r confirmed)
      = (f'.blocks, .ok replaced)) :
    OwnershipStep proposed m replaced
      (((m.writeTable (pathKey ps) now).setFile ps f').dropWrite w) := by
  have hpruned := pruned_writeTable m (pathKey ps) now
  have hs := held_pruned hpruned
  have hfile : held (m.writeTable (pathKey ps) now) (.file ps) = fileIds f := by
    refine held_file ?_
    rw [hpruned.node]
    exact hr.hfile
  have hwrite : held (m.writeTable (pathKey ps) now) (.write w) = slotIds r := by
    refine held_write (hpruned.writeAlive w r hr.hreserved ?_)
    intro t ht
    rw [← Option.some.inj ht]
    exact hr.halive
  have hperm := publishSlots_perm hpublished
  rw [map_newBlockId_confirmedSlots hr.hslots, ← fileIds, ← hwrite] at hperm
  have hperm' : (fileIds f' ++ replaced.map BlockRecord.blockId).Perm
      (held (m.writeTable (pathKey ps) now) (.file ps) ++
        held (m.writeTable (pathKey ps) now) (.write w)) := by
    rw [hfile]
    exact hperm
  have hne : Holder.file ps ≠ Holder.write w := by simp
  have hm' : held (((m.writeTable (pathKey ps) now).setFile ps f').dropWrite w)
      = Function.update (Function.update (held (m.writeTable (pathKey ps) now))
          (.file ps) (fileIds f')) (.write w) [] := by
    rw [held_dropWrite, held_setFile]
  refine ⟨?_, ?_, ?_⟩
  · rw [hm']
    exact (h.mono hs).handOver hne hperm'
  · intro i x hx
    rw [hm'] at hx
    rcases mem_update hx with ⟨_, hnil⟩ | ⟨_, hx'⟩
    · exact absurd hnil List.not_mem_nil
    rcases mem_update hx' with ⟨rfl, hids⟩ | ⟨_, hold⟩
    · rcases List.mem_append.mp (hperm'.subset (List.mem_append_left _ hids)) with hy | hy
      · exact .inr (.inl ((hs _).subset hy))
      · exact .inr (.inr ⟨w, (hs _).subset hy⟩)
    · exact .inr (.inl ((hs i).subset hold))
  · intro b hb
    obtain ⟨hfrom, hgone⟩ := (h.mono hs).thrownAway hne hperm' (List.mem_map_of_mem hb)
    rw [hm']
    refine ⟨?_, hgone⟩
    rcases hfrom with hx | hx
    · exact ⟨_, (hs _).subset hx⟩
    · exact ⟨_, (hs _).subset hx⟩

/-- **EVERY MUTATION KEEPS THE OWNERSHIP OF BLOCKS.** -/
theorem ownershipStep_effect {μ : Mutation} {m m' : Metadata}
    {r : Except PyError Ret} (he : Effect μ m r m') (h : Separate (held m))
    (hnd : (proposedIds μ).Nodup) (hfresh : ∀ x ∈ proposedIds μ, ∀ i, x ∉ held m i) :
    OwnershipStep (proposedIds μ) m
      (match r with | .ok a => toDelete a | .error _ => []) m' := by
  cases he with
  | makeDir hparts hne hparent hallowed hfree =>
      exact ownershipStep_same h (held_setDir _ (Metadata.file_of_none hfree))
  | removeDir hparts hne hparent hallowed hdir hempty =>
      refine ownershipStep_drop h (fun i => List.Sublist.refl _) (held_dropNode _ _) ?_
      exact fun b hb => absurd hb List.not_mem_nil
  | removeFile hparts hne hparent hallowed hfile hcommitted hunlocked =>
      refine ownershipStep_drop h (fun i => ?_) (held_dropNode _ _) ?_
      · rw [held_aliveLocks]
      · intro b hb
        rw [held_aliveLocks, held_file hfile]
        exact List.mem_map_of_mem hb
  | beginUpload hparts hne hallowed hfree =>
      refine ownershipStep_renew h (fun i => ?_) (held_setFile _ _ _) ?_ hnd hfresh ?_
      · rw [held_makeParents]
      · rw [fileIds_newUpload]
        exact List.Sublist.refl _
      · intro b hb
        rw [held_makeParents]
        rcases hfree with ⟨_, rfl⟩ | ⟨f, hf, _, _, rfl⟩
        · exact absurd hb List.not_mem_nil
        · rw [held_file hf]
          exact List.mem_map_of_mem hb
  | confirmBlock hparts hfile hpending howner hblocks =>
      refine ownershipStep_same h ?_
      have hids := map_blockId_updateBlock hblocks fun _ => rfl
      rw [held_setFile, fileIds, hids, ← fileIds, ← held_file hfile,
        Function.update_eq_self]
  | completeUpload hparts hfile hpending howner hconfirmed =>
      refine ownershipStep_same h ?_
      rw [held_setFile]
      exact (congrArg _ (held_file hfile).symm).trans (Function.update_eq_self _ _)
  | abortUpload hparts hne hfile hpending howner =>
      refine ownershipStep_drop h (fun i => List.Sublist.refl _) (held_dropNode _ _) ?_
      exact fun b hb => absurd hb List.not_mem_nil
  | acquireLock | joinLock | renewLock | releaseLock | releaseLast =>
      refine ownershipStep_same h ?_
      first | rw [held_setLock, held_aliveLocks] | rw [held_dropLock, held_aliveLocks]
  | releaseGone => exact ownershipStep_same h (held_aliveLocks _ _ _)
  | updateBlockReplicas hparts hfile hcommitted hfind hexpected hblocks =>
      refine ownershipStep_same h ?_
      have hids := map_blockId_updateBlock hblocks fun _ => rfl
      rw [held_setFile, fileIds, hids, ← fileIds, ← held_file hfile,
        Function.update_eq_self]
  | beginWrite hparts hr hdescribed =>
      obtain ⟨plan, _, _, hslots⟩ := hr.hplan
      refine ownershipStep_renew h (held_pruned (pruned_writeTable _ _ _))
        (held_setWrite _ _ _) ?_ hnd hfresh (fun b hb => absurd hb List.not_mem_nil)
      rw [slotIds, hslots]
      exact slotIds_fillSlots _ _
  | beginWriteLost hparts hr hdescribed =>
      obtain ⟨plan, _, _, hslots⟩ := hr.hplan
      refine ownershipStep_renew h (held_pruned (pruned_writeTable _ _ _))
        (held_setWrite _ _ _) ?_ hnd hfresh (fun b hb => absurd hb List.not_mem_nil)
      rw [slotIds, hslots]
      exact slotIds_fillSlots _ _
  | commitWrite hparts hr hpublished =>
      exact ownershipStep_commit h hr hpublished
  | abortWrite hparts hreserved hpath hlock =>
      refine ownershipStep_drop h (held_pruned (pruned_aliveWrites _ _))
        (held_dropWrite _ _) ?_
      intro b hb
      obtain ⟨slot, hslot, rfl⟩ := List.mem_map.mp hb
      rw [held_write hreserved]
      exact List.mem_map_of_mem hslot
  | abortGone hparts hgone =>
      exact ownershipStep_forget h (held_pruned (pruned_aliveWrites _ _))
  | createUser => exact ownershipStep_same h (held_setUser _ _ _)
  | changePassword => exact ownershipStep_same h (held_setUser _ _ _)
  | setAttrsDir hparts hdir hμ =>
      exact ownershipStep_same h (held_setDir _ (Metadata.file_of_dir hdir))
  | setAttrsFile hparts hfile hcommitted hμ =>
      refine ownershipStep_same h ?_
      rw [held_setFile]
      exact (congrArg _ (held_file hfile).symm).trans (Function.update_eq_self _ _)
  | refused hpruned => exact ownershipStep_forget h (held_pruned hpruned)

/-! ## The blocks of a tree -/

/-- Every block id of the metadata: the blocks of all files and the slots of
    all write reservations. -/
def blockIds (s : ControlTree) : List String :=
  s.root.files.flatMap (fun e => fileIds e.2) ++
    s.writes.entries.flatMap fun e => slotIds e.2

theorem held_of_mem_files {s : ControlTree} {e : List String × FileNode}
    (he : e ∈ s.root.files) : fileIds e.2 = held (metadata s) (.file e.1) := by
  have hfile := (Tree.mem_files_iff s.root e.1 e.2).mp he
  exact (held_file (m := metadata s) (Tree.fileAt_eq_some.mp hfile)).symm

theorem held_of_mem_writes {s : ControlTree} {e : String × WriteReservation}
    (he : e ∈ s.writes.entries) : slotIds e.2 = held (metadata s) (.write e.1) :=
  (held_write (m := metadata s) (Dict.get?_eq_some_iff.mpr he)).symm

/-- A block id of the metadata is held, and the other way round. -/
theorem mem_blockIds {s : ControlTree} {x : String} :
    x ∈ blockIds s ↔ ∃ i, x ∈ held (metadata s) i := by
  unfold blockIds
  rw [List.mem_append, List.mem_flatMap, List.mem_flatMap]
  constructor
  · rintro (⟨e, he, hx⟩ | ⟨e, he, hx⟩)
    · exact ⟨_, held_of_mem_files he ▸ hx⟩
    · exact ⟨_, held_of_mem_writes he ▸ hx⟩
  · rintro ⟨i, hx⟩
    cases i with
    | file ps =>
        cases hf : (metadata s).file ps with
        | none => rw [held, hf] at hx; exact absurd hx List.not_mem_nil
        | some f =>
            have hnode := Metadata.file_eq_some.mp hf
            have hmem : (ps, f) ∈ s.root.files :=
              (Tree.mem_files_iff s.root ps f).mpr (Tree.fileAt_eq_some.mpr hnode)
            exact .inl ⟨(ps, f), hmem, held_file hnode ▸ hx⟩
    | write w =>
        cases hr : (metadata s).write w with
        | none => rw [held, hr] at hx; exact absurd hx List.not_mem_nil
        | some r =>
            exact .inr ⟨(w, r), Dict.get?_eq_some_iff.mp hr, held_write hr ▸ hx⟩

theorem nodup_blockIds {s : ControlTree} (h : Separate (held (metadata s))) :
    (blockIds s).Nodup := by
  refine List.nodup_append.mpr ⟨?_, ?_, ?_⟩
  · exact h.nodup_flatMap (Tree.nodup_files s.root)
      (fun _ _ hab => Holder.file.inj hab) fun e he => held_of_mem_files he
  · exact h.nodup_flatMap s.writes.nodup
      (fun _ _ hab => Holder.write.inj hab) fun e he => held_of_mem_writes he
  · intro x hx y hy hxy
    obtain ⟨e, he, hxe⟩ := List.mem_flatMap.mp hx
    obtain ⟨e', he', hye⟩ := List.mem_flatMap.mp hy
    rw [held_of_mem_files he] at hxe
    rw [held_of_mem_writes he', ← hxy] at hye
    exact nomatch h.owner _ _ x hxe hye

/-! ## Runs of the replicated tree -/

/-- The block ids that a command brings in. -/
def commandIds (c : Command) : List String :=
  match c.call with
  | .mutation μ => proposedIds μ
  | .unknown _ => []

/-- The blocks that an outcome gives up for deletion. -/
def outcomeBlocks : Outcome → List BlockRecord
  | .ok result => toDelete result
  | .error _ _ => []

/-- The id has been used and nobody holds it. -/
def Gone (used : List String) (m : Metadata) (x : String) : Prop :=
  x ∈ used ∧ ∀ i, x ∉ held m i

/-- The invariant: every id is held once and has been used, and what the
    remembered outcomes give up is gone. -/
structure Owned (used : List String) (s : ReplicatedTree) : Prop where
  separate : Separate (held (metadata s.tree))
  known : ∀ i x, x ∈ held (metadata s.tree) i → x ∈ used
  remembered : ∀ k o, s.appliedOps.get? k = some o →
    ∀ b ∈ outcomeBlocks o, Gone used (metadata s.tree) b.blockId

theorem owned_empty : Owned [] ReplicatedTree.empty := by
  have hnothing : held (metadata ControlTree.empty) = fun _ => [] := by
    funext i
    cases i with
    | file ps => cases ps <;> rfl
    | write w => rfl
  refine ⟨?_, ?_, ?_⟩
  · show Separate (held (metadata ControlTree.empty))
    rw [hnothing]
    exact separate_empty
  · intro i x hx
    have hx' : x ∈ held (metadata ControlTree.empty) i := hx
    rw [hnothing] at hx'
    exact hx'
  · intro k o hk
    exact nomatch hk

section Steps

variable {used : List String} {c : Command} {s : ReplicatedTree}

/-- The ownership step of a command that is executed or answered. -/
theorem ownershipStep_apply (h : Owned used s) (hnd : (commandIds c).Nodup)
    (hfresh : ∀ x ∈ commandIds c, x ∉ used) :
    OwnershipStep (commandIds c) (metadata s.tree) [] (metadata (apply c s).2.tree) ∧
    ∀ b ∈ outcomeBlocks (apply c s).1,
      Gone (used ++ commandIds c) (metadata (apply c s).2.tree) b.blockId := by
  have happlied := apply_applied c s
  revert happlied
  generalize (apply c s).1 = o
  generalize (apply c s).2 = s'
  intro happlied
  cases happlied with
  | cached hop =>
      refine ⟨ownershipStep_same h.separate rfl, ?_⟩
      intro b hb
      obtain ⟨hused, hgone⟩ := h.remembered _ _ hop b hb
      exact ⟨List.mem_append_left _ hused, hgone⟩
  | @executed μ r _ hnew hcall heffect hops =>
      have hids : commandIds c = proposedIds μ := by rw [commandIds, hcall]
      rw [hids] at hnd hfresh ⊢
      have hstep := ownershipStep_effect heffect h.separate hnd
        fun x hx i hi => hfresh x hx (h.known i x hi)
      refine ⟨⟨hstep.separate, hstep.source, fun _ hb => absurd hb List.not_mem_nil⟩, ?_⟩
      intro b hb
      cases r with
      | error e =>
          have hnil : outcomeBlocks (outcomeOf μ (.error e)) = [] := by
            rw [outcomeOf]
            cases e.cls.isDomain <;> rfl
          rw [hnil] at hb
          exact absurd hb List.not_mem_nil
      | ok a =>
          obtain ⟨⟨i, hi⟩, hgone⟩ := hstep.discarded b hb
          exact ⟨List.mem_append_left _ (h.known i _ hi), hgone⟩
  | rejected hnew htree hops =>
      refine ⟨ownershipStep_same h.separate (by rw [htree]), ?_⟩
      exact fun b hb => absurd hb List.not_mem_nil

/-- What is gone stays gone. -/
theorem gone_step {m m' : Metadata} {proposed : List String}
    {discarded : List BlockRecord} (hstep : OwnershipStep proposed m discarded m')
    (hfresh : ∀ x ∈ proposed, x ∉ used) {x : String} (h : Gone used m x) :
    Gone (used ++ proposed) m' x := by
  refine ⟨List.mem_append_left _ h.1, ?_⟩
  intro i hi
  rcases hstep.source i x hi with hnew | hold | ⟨w, hold⟩
  · exact hfresh x hnew h.1
  · exact h.2 i hold
  · exact h.2 _ hold

/-- **ONE COMMAND KEEPS THE OWNERSHIP OF BLOCKS.** -/
theorem owned_apply (h : Owned used s) (hnd : (commandIds c).Nodup)
    (hfresh : ∀ x ∈ commandIds c, x ∉ used) :
    Owned (used ++ commandIds c) (apply c s).2 := by
  obtain ⟨hstep, hout⟩ := ownershipStep_apply h hnd hfresh
  refine ⟨hstep.separate, ?_, ?_⟩
  · intro i x hx
    rcases hstep.source i x hx with hnew | hold | ⟨w, hold⟩
    · exact List.mem_append_right _ hnew
    · exact List.mem_append_left _ (h.known _ x hold)
    · exact List.mem_append_left _ (h.known _ x hold)
  · intro k o hk b hb
    have hold : s.appliedOps.get? k = some o →
        Gone (used ++ commandIds c) (metadata (apply c s).2.tree) b.blockId :=
      fun hk => gone_step hstep hfresh (h.remembered k o hk b hb)
    cases hop : s.appliedOps.get? c.opId with
    | some o' =>
        rw [apply_cached hop] at hk
        exact hold hk
    | none =>
        have hout' := hout b
        rw [apply_executed hop] at hk hout'
        dsimp only at hk
        rcases get?_remember hk with ⟨_, rfl⟩ | hk
        · have := hout' hb
          rw [apply_executed hop]
          exact this
        · exact hold hk

end Steps

/-- The ids proposed by the commands of a run are all different. -/
def FreshIds (cmds : List Command) : Prop := (cmds.flatMap commandIds).Nodup

instance (cmds : List Command) : Decidable (FreshIds cmds) :=
  inferInstanceAs (Decidable (List.Nodup _))

theorem freshIds_concat {cmds : List Command} {c : Command}
    (h : FreshIds (cmds ++ [c])) :
    FreshIds cmds ∧ (commandIds c).Nodup ∧
      ∀ x ∈ commandIds c, x ∉ cmds.flatMap commandIds := nodup_flatMap_concat h

theorem flatMap_concat (cmds : List Command) (c : Command) :
    (cmds ++ [c]).flatMap commandIds = cmds.flatMap commandIds ++ commandIds c := by
  rw [List.flatMap_append, List.flatMap_singleton]

/-- **IN EVERY REACHABLE STATE EVERY BLOCK HAS ONE OWNER.** -/
theorem owned_run {cmds : List Command} {s : ReplicatedTree}
    (h : replicated.Run cmds s) (hfresh : FreshIds cmds) :
    Owned (cmds.flatMap commandIds) s := by
  refine h.invariant (I := fun cmds s => FreshIds cmds →
    Owned (cmds.flatMap commandIds) s) ?_ ?_ hfresh
  · rintro s rfl _
    exact owned_empty
  · rintro cmds s c s' ih rfl hf
    obtain ⟨hf, hnd, hnew⟩ := freshIds_concat hf
    rw [flatMap_concat]
    exact owned_apply (ih hf) hnd hnew

/-- Along a path, what is gone stays gone. -/
theorem gone_path {pre post : List Command} {s s' : ReplicatedTree} {x : String}
    (hs : Owned (pre.flatMap commandIds) s) (h : replicated.Path s post s')
    (hfresh : FreshIds (pre ++ post))
    (hx : Gone (pre.flatMap commandIds) (metadata s.tree) x) :
    Owned ((pre ++ post).flatMap commandIds) s' ∧
      Gone ((pre ++ post).flatMap commandIds) (metadata s'.tree) x := by
  refine h.invariant (I := fun post s' => FreshIds (pre ++ post) →
    Owned ((pre ++ post).flatMap commandIds) s' ∧
      Gone ((pre ++ post).flatMap commandIds) (metadata s'.tree) x) ?_ ?_ hfresh
  · rw [List.append_nil]
    exact fun _ => ⟨hs, hx⟩
  · rintro post s c s' ih rfl hf
    rw [← List.append_assoc] at hf ⊢
    obtain ⟨hf, hnd, hnew⟩ := freshIds_concat hf
    obtain ⟨howned, hgone⟩ := ih hf
    rw [flatMap_concat]
    exact ⟨owned_apply howned hnd hnew,
      gone_step (ownershipStep_apply howned hnd hnew).1 hnew hgone⟩

/-- **EVERY BLOCK ID OCCURS ONCE, AND A BLOCK GIVEN UP FOR DELETION IS NEVER
    REFERENCED AGAIN**, whatever follows the answer that gave it up, and also
    when that answer is the remembered one. -/
theorem block_ids_unique_and_deleted_for_good {pre post : List Command} {c : Command}
    {s₁ s₂ : ReplicatedTree} (hrun : replicated.Run pre s₁)
    (hlater : replicated.Path (apply c s₁).2 post s₂)
    (hfresh : FreshIds (pre ++ c :: post)) :
    (blockIds s₁.tree).Nodup ∧ (blockIds s₂.tree).Nodup ∧
      ∀ b ∈ outcomeBlocks (apply c s₁).1, b.blockId ∉ blockIds s₂.tree := by
  have hfresh' : FreshIds ((pre ++ [c]) ++ post) := by
    rw [List.append_assoc]
    exact hfresh
  have hfreshc : FreshIds (pre ++ [c]) := by
    unfold FreshIds at hfresh' ⊢
    rw [List.flatMap_append] at hfresh'
    exact (List.nodup_append.mp hfresh').1
  obtain ⟨hfreshpre, hnd, hnew⟩ := freshIds_concat hfreshc
  have howned := owned_run hrun hfreshpre
  have howned' := owned_run (run_apply hrun c) hfreshc
  have howned₂ := owned_run ((run_apply hrun c).append hlater) hfresh'
  refine ⟨nodup_blockIds howned.separate, nodup_blockIds howned₂.separate, ?_⟩
  intro b hb hmem
  have hgone := (ownershipStep_apply howned hnd hnew).2 b hb
  rw [← flatMap_concat] at hgone
  obtain ⟨i, hi⟩ := mem_blockIds.mp hmem
  exact (gone_path howned' hlater hfresh' hgone).2.2 i hi

/-- One block uploaded to one path, under a lease of ten seconds. -/
def uploadCommand (opId block : String) (now : Time) : Command where
  opId := opId
  call := .mutation (.beginUpload "/f" [(block, ["n1"])] (some now) (some 10)
    (some 4) none)

/-- An upload has begun, and its client has disappeared. -/
def afterUpload : ReplicatedTree :=
  (apply (uploadCommand "op-1" "b1" 0) ReplicatedTree.empty).2

/-- The abandoned upload is taken over, and the take-over is asked for again. -/
theorem block_ids_unique_and_deleted_for_good_takeover :
    outcomeBlocks (apply (uploadCommand "op-2" "b2" 20) afterUpload).1
      = [⟨"b1", ["n1"], "", 0, false⟩] ∧
    (blockIds afterUpload.tree).Nodup ∧
    (blockIds (apply (uploadCommand "op-2" "b3" 30)
      (apply (uploadCommand "op-2" "b2" 20) afterUpload).2).2.tree).Nodup ∧
    ∀ b ∈ outcomeBlocks (apply (uploadCommand "op-2" "b2" 20) afterUpload).1,
      b.blockId ∉ blockIds (apply (uploadCommand "op-2" "b3" 30)
        (apply (uploadCommand "op-2" "b2" 20) afterUpload).2).2.tree :=
  ⟨by decide +kernel,
    block_ids_unique_and_deleted_for_good
      (run_apply ⟨_, rfl, .start⟩ (uploadCommand "op-1" "b1" 0))
      (Path.one (step_apply _ (uploadCommand "op-2" "b3" 30)))
      (by decide)⟩

end DfshaBlockOwnership
