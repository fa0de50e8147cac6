import Dfsha.BlockOwnershipProofs

/-! # What the collector may delete

    The garbage collector deletes the replica of a block at an address when
    `referenced_blocks` does not assign the block to the address.  It looks at
    one moment, and the deletion happens later.

    The snapshot is safe because it takes in more than what is in use: all
    pending uploads, whatever their lease, and every reservation that is alive
    at its time.  A completion can only use the first and a commit, which
    looks at the clock again, only the second.  So what is not assigned at `t`
    can come back through a new proposal or through the re-replicator, and in
    no other way. -/

namespace DfshaReferencedBlocks

open InsertionDict NamedTree TransitionSystem TransitionSystem.System
open DfshaPath DfshaControlTree DfshaMetadata DfshaControlTreeEffect
open DfshaReplicatedTree DfshaBlockOwnership

/-- `a in referenced.get(b, set())`. -/
def Assigns (referenced : List (String × List String)) (b a : String) : Prop :=
  ∃ e ∈ referenced, e.1 = b ∧ a ∈ e.2

instance (referenced : List (String × List String)) (b a : String) :
    Decidable (Assigns referenced b a) :=
  inferInstanceAs (Decidable (∃ e ∈ referenced, e.1 = b ∧ a ∈ e.2))

/-- Some record of these blocks gives the block to the address. -/
def BlocksAssign (blocks : List BlockRecord) (b a : String) : Prop :=
  ∃ block ∈ blocks, block.blockId = b ∧ a ∈ block.datanodeAddresses

/-- Some slot of the reservation gives the block to the address. -/
def SlotsAssign (r : WriteReservation) (b a : String) : Prop :=
  ∃ slot ∈ r.slots, slot.newBlockId = b ∧ a ∈ slot.newAddresses

/-- Some file, pending or committed, gives the block to the address. -/
def FileAssigns (m : Metadata) (b a : String) : Prop :=
  ∃ ps f, m.file ps = some f ∧ BlocksAssign f.blocks b a

/-- Some reservation that is alive at `t` gives the block to the address. -/
def WriteAssigns (t : Time) (m : Metadata) (b a : String) : Prop :=
  ∃ w r, m.write w = some r ∧ t < r.leaseExpiresAt ∧ SlotsAssign r b a

/-- What `referenced_blocks` assigns, read off the metadata. -/
theorem assigns_referencedBlocks {s : ControlTree} {t : Time} {b a : String} :
    Assigns (referencedBlocks s t) b a ↔
      FileAssigns (metadata s) b a ∨ WriteAssigns t (metadata s) b a := by
  constructor
  · rintro ⟨e, he, hid, ha⟩
    rcases List.mem_append.mp he with hfile | hwrite
    · obtain ⟨⟨ps, f⟩, hf, hb⟩ := List.mem_flatMap.mp hfile
      obtain ⟨block, hblock, rfl⟩ := List.mem_map.mp hb
      have hfile := Tree.fileAt_eq_some.mp ((Tree.mem_files_iff s.root ps f).mp hf)
      exact .inl ⟨ps, f, Metadata.file_eq_some.mpr hfile, block, hblock, hid, ha⟩
    · obtain ⟨⟨w, r⟩, hr, hb⟩ := List.mem_flatMap.mp hwrite
      obtain ⟨hmem, halive⟩ := List.mem_filter.mp hr
      obtain ⟨slot, hslot, rfl⟩ := List.mem_map.mp hb
      exact .inr ⟨w, r, Dict.get?_eq_some_iff.mpr hmem, of_decide_eq_true halive,
        slot, hslot, hid, ha⟩
  · rintro (⟨ps, f, hfile, block, hblock, hid, ha⟩ |
      ⟨w, r, hr, halive, slot, hslot, hid, ha⟩)
    · have hf : (ps, f) ∈ s.root.files :=
        (Tree.mem_files_iff s.root ps f).mpr
          (Tree.fileAt_eq_some.mpr (Metadata.file_eq_some.mp hfile))
      refine ⟨(block.blockId, block.datanodeAddresses), ?_, hid, ha⟩
      exact List.mem_append_left _
        (List.mem_flatMap.mpr ⟨_, hf, List.mem_map.mpr ⟨block, hblock, rfl⟩⟩)
    · have hmem : (w, r) ∈ s.writes.entries := Dict.get?_eq_some_iff.mp hr
      refine ⟨(slot.newBlockId, slot.newAddresses), ?_, hid, ha⟩
      exact List.mem_append_right _ (List.mem_flatMap.mpr
        ⟨_, List.mem_filter.mpr ⟨hmem, decide_eq_true halive⟩,
          List.mem_map.mpr ⟨slot, hslot, rfl⟩⟩)

/-! ## Where an assignment can come from -/

/-- `update_block_replicas` that puts the block at an address where the record
    it expects does not have it. -/
def Adds : Mutation → String → String → Prop
  | .updateBlockReplicas _ blockId expected new, b, a =>
      blockId = b ∧ a ∈ new ∧ a ∉ expected
  | _, _, _ => False

instance (μ : Mutation) (b a : String) : Decidable (Adds μ b a) := by
  cases μ <;> unfold Adds <;> infer_instance

/-- What `updateBlock` leaves is old, or an old record changed. -/
theorem mem_updateBlock {b : String} {g : BlockRecord → BlockRecord}
    {blocks blocks' : List BlockRecord} (h : updateBlock b g blocks = some blocks')
    {block' : BlockRecord} (hmem : block' ∈ blocks') :
    block' ∈ blocks ∨ ∃ block ∈ blocks, block.blockId = b ∧ block' = g block := by
  induction blocks generalizing blocks' with
  | nil => cases h
  | cons hd rest ih =>
      rw [updateBlock] at h
      by_cases hb : hd.blockId = b
      · rw [if_pos hb] at h
        rw [← Option.some.inj h] at hmem
        rcases List.mem_cons.mp hmem with rfl | hrest
        · exact .inr ⟨hd, List.mem_cons_self, hb, rfl⟩
        · exact .inl (List.mem_cons_of_mem _ hrest)
      · rw [if_neg hb] at h
        obtain ⟨rest', hrest', hcons⟩ := Option.map_eq_some_iff.mp h
        rw [← hcons] at hmem
        rcases List.mem_cons.mp hmem with rfl | hrest
        · exact .inl List.mem_cons_self
        · rcases ih hrest' hrest with hold | ⟨block, hblock, hid, hnew⟩
          · exact .inl (List.mem_cons_of_mem _ hold)
          · exact .inr ⟨block, List.mem_cons_of_mem _ hblock, hid, hnew⟩

/-- What a publication leaves is old, or one of the new blocks. -/
theorem mem_publishSlots {slots : List (WriteSlotRecord × String × Int)}
    {blocks : List BlockRecord} {block : BlockRecord}
    (h : block ∈ (publishSlots blocks slots).1) :
    block ∈ blocks ∨ ∃ q ∈ slots,
      block = ⟨q.1.newBlockId, q.1.newAddresses, q.2.1, q.2.2, true⟩ := by
  induction slots generalizing blocks with
  | nil => exact .inl h
  | cons q rest ih =>
      obtain ⟨slot, checksum, size⟩ := q
      have hrest : ∀ {blocks' : List BlockRecord},
          block ∈ (publishSlots blocks' rest).1 →
          (block ∈ blocks' → block ∈ blocks ∨
            block = ⟨slot.newBlockId, slot.newAddresses, checksum, size, true⟩) →
          block ∈ blocks ∨ ∃ q ∈ (slot, checksum, size) :: rest,
            block = ⟨q.1.newBlockId, q.1.newAddresses, q.2.1, q.2.2, true⟩ := by
        intro blocks' hmem hcases
        rcases ih hmem with hold | ⟨q, hq, hnew⟩
        · rcases hcases hold with hold | hnew
          · exact .inl hold
          · exact .inr ⟨_, List.mem_cons_self, hnew⟩
        · exact .inr ⟨q, List.mem_cons_of_mem _ hq, hnew⟩
      rw [publishSlots] at h
      by_cases hlt : slot.index < blocks.length
      · rw [if_pos hlt] at h
        cases hidx : pyIndex blocks slot.index with
        | error e =>
            rw [hidx] at h
            exact .inl h
        | ok old =>
            rw [hidx] at h
            exact hrest h fun hmem => List.mem_or_eq_of_mem_set hmem
      · rw [if_neg hlt] at h
        refine hrest h fun hmem => ?_
        rcases List.mem_append.mp hmem with hold | hnew
        · exact .inl hold
        · exact .inr (List.mem_singleton.mp hnew)

section Updates

variable {t : Time} {m m' : Metadata} {ps : List String} {b a : String}

theorem fileAssigns_congr (h : ∀ q, m'.file q = m.file q) (hf : FileAssigns m' b a) :
    FileAssigns m b a := by
  obtain ⟨q, f, hfile, hblocks⟩ := hf
  exact ⟨q, f, (h q).symm.trans hfile, hblocks⟩

theorem fileAssigns_setFile {f : FileNode} (h : FileAssigns (m.setFile ps f) b a) :
    BlocksAssign f.blocks b a ∨ FileAssigns m b a := by
  obtain ⟨q, f', hfile, hblocks⟩ := h
  rw [Metadata.file_setFile] at hfile
  by_cases hq : q = ps
  · rw [if_pos hq] at hfile
    obtain rfl := Option.some.inj hfile
    exact .inl hblocks
  · rw [if_neg hq] at hfile
    exact .inr ⟨q, f', hfile, hblocks⟩

theorem fileAssigns_dropNode (h : FileAssigns (m.dropNode ps) b a) :
    FileAssigns m b a := by
  obtain ⟨q, f, hfile, hblocks⟩ := h
  rw [Metadata.file_dropNode] at hfile
  by_cases hq : q = ps
  · rw [if_pos hq] at hfile
    cases hfile
  · rw [if_neg hq] at hfile
    exact ⟨q, f, hfile, hblocks⟩

theorem fileAssigns_pruned {now : Option Time} (hp : Pruned now m m')
    (h : FileAssigns m' b a) : FileAssigns m b a :=
  fileAssigns_congr (Metadata.file_congr hp.node) h

theorem writeAssigns_mono (hwrite : ∀ w r, m'.write w = some r → m.write w = some r)
    (h : WriteAssigns t m' b a) : WriteAssigns t m b a := by
  obtain ⟨w, r, hr, halive, hslots⟩ := h
  exact ⟨w, r, hwrite w r hr, halive, hslots⟩

theorem writeAssigns_dropWrite {w : String} (h : WriteAssigns t (m.dropWrite w) b a) :
    WriteAssigns t m b a := by
  refine writeAssigns_mono ?_ h
  intro w' r hr
  rcases Metadata.update_eq_some hr with ⟨_, hnone⟩ | ⟨_, hold⟩
  · cases hnone
  · exact hold

theorem writeAssigns_setWrite {w : String} {r : WriteReservation}
    (h : WriteAssigns t (m.setWrite w r) b a) :
    SlotsAssign r b a ∨ WriteAssigns t m b a := by
  obtain ⟨w', r', hr, halive, hslots⟩ := h
  rcases Metadata.update_eq_some hr with ⟨_, hnew⟩ | ⟨_, hold⟩
  · obtain rfl := Option.some.inj hnew
    exact .inl hslots
  · exact .inr ⟨w', r', hold, halive, hslots⟩

end Updates

/-- A reservation assigns only blocks that were proposed for it. -/
theorem mem_proposals_of_slotsAssign {r : WriteReservation} {plan : List (Int × Int)}
    {proposals : List (Int × String × List String)} {b a : String}
    (hslots : r.slots = fillSlots plan proposals) (h : SlotsAssign r b a) :
    b ∈ proposals.map fun p => p.2.1 := by
  obtain ⟨slot, hslot, rfl, _⟩ := h
  rw [hslots] at hslot
  exact (slotIds_fillSlots plan proposals).subset (List.mem_map_of_mem hslot)

/-- What a commit publishes was in the file or in its reservation. -/
theorem blocksAssign_published {f : FileNode} {r : WriteReservation}
    {confirmed : List (Int × String × String × Int)} {b a : String}
    (h : BlocksAssign (publishSlots f.blocks (confirmedSlots r confirmed)).1 b a) :
    BlocksAssign f.blocks b a ∨ SlotsAssign r b a := by
  obtain ⟨block, hblock, hid, ha⟩ := h
  rcases mem_publishSlots hblock with hold | ⟨q, hq, rfl⟩
  · exact .inl ⟨block, hold, hid, ha⟩
  · exact .inr ⟨q.1, (List.of_mem_zip hq).1, hid, ha⟩

/-- A commit that carries a time before `t`, of a write that has the block for
    the address. -/
def CommitsLate (t : Time) (m : Metadata) : Mutation → String → String → Prop
  | .commitWrite _ w _ _ _ now _, b, a => now < t ∧ ∃ r, m.write w = some r ∧ SlotsAssign r b a
  | _, _, _ => False

/-- **WHERE AN ASSIGNMENT CAN COME FROM.**  A block that is assigned was
    assigned before, or has just been proposed, or the re-replicator has just
    added the address, or the write that has it is committed late. -/
theorem assignment_origin {t : Time} {μ : Mutation} {m m' : Metadata}
    {r : Except PyError Ret} (he : Effect μ m r m') {b a : String}
    (h : FileAssigns m' b a ∨ WriteAssigns t m' b a) :
    b ∈ proposedIds μ ∨ Adds μ b a ∨ CommitsLate t m μ b a ∨
      FileAssigns m b a ∨ WriteAssigns t m b a := by
  have hold : ∀ {m₁ : Metadata}, FileAssigns m₁ b a ∨ WriteAssigns t m₁ b a →
      (∀ w r, m₁.write w = some r → m.write w = some r) →
      (FileAssigns m₁ b a → FileAssigns m b a) →
      b ∈ proposedIds μ ∨ Adds μ b a ∨ CommitsLate t m μ b a ∨
        FileAssigns m b a ∨ WriteAssigns t m b a := by
    intro m₁ h hwrite hfile
    exact .inr (.inr (.inr (h.imp hfile (writeAssigns_mono hwrite))))
  cases he with
  | makeDir hparts hne hparent hallowed hfree =>
      exact hold h (fun _ _ hr => hr) (fileAssigns_congr
        (Metadata.file_setDir _ (Metadata.file_of_none hfree)))
  | removeDir | abortUpload => exact hold h (fun _ _ hr => hr) fileAssigns_dropNode
  | removeFile =>
      refine hold h (fun w r hr => ?_) (fun hf => ?_)
      · rw [Metadata.write_dropNode, Metadata.write_aliveLocks] at hr
        exact hr
      · exact fileAssigns_pruned (pruned_aliveLocks _ _ _) (fileAssigns_dropNode hf)
  | beginUpload =>
      rcases h with hf | hw
      · rcases fileAssigns_setFile hf with ⟨block, hblock, hid, _⟩ | hf
        · obtain ⟨placement, hmem, rfl⟩ := List.mem_map.mp hblock
          exact .inl (List.mem_map.mpr ⟨placement, hmem, hid⟩)
        · exact .inr (.inr (.inr (.inl (fileAssigns_congr
            (Metadata.file_makeParents _ _) hf))))
      · exact .inr (.inr (.inr (.inr (writeAssigns_mono (fun _ _ hr => hr) hw))))
  | confirmBlock hparts hfile hpending howner hblocks =>
      refine hold h (fun _ _ hr => hr) (fun hf => ?_)
      rcases fileAssigns_setFile hf with ⟨block', hmem, hid, ha⟩ | hf
      · refine ⟨_, _, Metadata.file_eq_some.mpr hfile, ?_⟩
        rcases mem_updateBlock hblocks hmem with hkept | ⟨block, hchanged, _, rfl⟩
        · exact ⟨block', hkept, hid, ha⟩
        · exact ⟨block, hchanged, hid, ha⟩
      · exact hf
  | completeUpload hparts hfile =>
      refine hold h (fun _ _ hr => hr) (fun hf => ?_)
      rcases fileAssigns_setFile hf with hblocks | hf
      · exact ⟨_, _, Metadata.file_eq_some.mpr hfile, hblocks⟩
      · exact hf
  | acquireLock | joinLock | renewLock | releaseLock =>
      refine hold h (fun w r hr => ?_) (fun hf => ?_)
      · rw [Metadata.write_setLock, Metadata.write_aliveLocks] at hr
        exact hr
      · exact fileAssigns_congr
          (Metadata.file_congr (by rw [Metadata.node_setLock, Metadata.node_aliveLocks])) hf
  | releaseLast =>
      refine hold h (fun w r hr => ?_) (fun hf => ?_)
      · rw [Metadata.write_dropLock, Metadata.write_aliveLocks] at hr
        exact hr
      · exact fileAssigns_congr
          (Metadata.file_congr (by rw [Metadata.node_dropLock, Metadata.node_aliveLocks])) hf
  | releaseGone =>
      exact hold h (pruned_aliveLocks _ _ _).write (fileAssigns_pruned (pruned_aliveLocks _ _ _))
  | @updateBlockReplicas _ p b' expected new _ f block blocks hparts hfile hcommitted hfind
      hexpected hblocks =>
      by_cases hadds : Adds (.updateBlockReplicas p b' expected new) b a
      · exact .inr (.inl hadds)
      refine hold h (fun _ _ hr => hr) (fun hf => ?_)
      rcases fileAssigns_setFile hf with ⟨block', hmem, hid, ha⟩ | hf
      · refine ⟨_, _, Metadata.file_eq_some.mpr hfile, ?_⟩
        rcases mem_updateBlock hblocks hmem with hkept | ⟨block₀, hchanged, hid₀, rfl⟩
        · exact ⟨block', hkept, hid, ha⟩
        · -- the record that was found has the expected addresses
          have hb' : b' = b := hid₀.symm.trans hid
          have hexp : a ∈ expected := by
            by_contra hnot
            exact hadds ⟨hb', ha, hnot⟩
          have hfound : block.blockId = b' := by
            have hsome := List.find?_some hfind
            exact of_decide_eq_true hsome
          exact ⟨block, List.mem_of_find?_eq_some hfind, hfound.trans hb', hexpected ▸ hexp⟩
      · exact hf
  | beginWrite hparts hr | beginWriteLost hparts hr =>
      obtain ⟨plan, _, _, hslots⟩ := hr.hplan
      rcases h with hf | hw
      · exact .inr (.inr (.inr (.inl (fileAssigns_pruned (pruned_writeTable _ _ _)
          (fileAssigns_congr (Metadata.file_congr (Metadata.node_setWrite _ _)) hf)))))
      · rcases writeAssigns_setWrite hw with hnew | hw
        · exact .inl (mem_proposals_of_slotsAssign hslots hnew)
        · exact .inr (.inr (.inr (.inr (writeAssigns_mono (pruned_writeTable _ _ _).write hw))))
  | @commitWrite _ p w l version confirmed now caller ps f res blocks replaced hparts hr
      hpublished =>
      have hblocks : blocks = (publishSlots f.blocks (confirmedSlots res confirmed)).1 := by
        rw [hpublished]
      rcases h with hf | hw
      · rcases fileAssigns_setFile (fileAssigns_congr
          (Metadata.file_congr (Metadata.node_dropWrite _)) hf) with hnew | hf
        · rw [hblocks] at hnew
          rcases blocksAssign_published hnew with hold | hslots
          · exact .inr (.inr (.inr (.inl ⟨ps, f, Metadata.file_eq_some.mpr hr.hfile, hold⟩)))
          · by_cases hnow : t ≤ now
            -- the reservation was alive at the commit, so it was alive at `t`
            · exact .inr (.inr (.inr (.inr
                ⟨w, res, hr.hreserved, lt_of_le_of_lt hnow hr.halive, hslots⟩)))
            · exact .inr (.inr (.inl ⟨not_le.mp hnow, res, hr.hreserved, hslots⟩))
        · exact .inr (.inr (.inr (.inl (fileAssigns_pruned (pruned_writeTable _ _ _) hf))))
      · exact .inr (.inr (.inr (.inr (writeAssigns_mono (pruned_writeTable _ _ _).write
          (writeAssigns_dropWrite hw)))))
  | abortWrite =>
      rcases h with hf | hw
      · exact .inr (.inr (.inr (.inl (fileAssigns_pruned (pruned_aliveWrites _ _)
          (fileAssigns_congr (Metadata.file_congr (Metadata.node_dropWrite _)) hf)))))
      · exact .inr (.inr (.inr (.inr (writeAssigns_mono (pruned_aliveWrites _ _).write
          (writeAssigns_dropWrite hw)))))
  | abortGone =>
      exact hold h (pruned_aliveWrites _ _).write (fileAssigns_pruned (pruned_aliveWrites _ _))
  | createUser | changePassword =>
      exact hold h (fun _ _ hr => hr) (fileAssigns_congr fun _ => rfl)
  | setAttrsDir hparts hdir =>
      exact hold h (fun _ _ hr => hr) (fileAssigns_congr
        (Metadata.file_setDir _ (Metadata.file_of_dir hdir)))
  | setAttrsFile hparts hfile =>
      refine hold h (fun _ _ hr => hr) (fun hf => ?_)
      rcases fileAssigns_setFile hf with hblocks | hf
      · exact ⟨_, _, Metadata.file_eq_some.mpr hfile, hblocks⟩
      · exact hf
  | refused hpruned => exact hold h hpruned.write (fileAssigns_pruned hpruned)

/-! ## Later runs -/

/-- The command is executed, and proposes the block, or adds the address to it,
    or commits late the write that has both. -/
def Brings (t : Time) (b a : String) (s : ReplicatedTree) (c : Command) : Prop :=
  s.appliedOps.get? c.opId = none ∧ ∃ μ, c.call = .mutation μ ∧
    (b ∈ proposedIds μ ∨ Adds μ b a ∨ CommitsLate t (metadata s.tree) μ b a)

/-- A command that brings nothing assigns nothing. -/
theorem unassigned_of_not_brings {t : Time} {b a : String} {s : ReplicatedTree} {c : Command}
    (hc : ¬ Brings t b a s c) (h : ¬ Assigns (referencedBlocks s.tree t) b a) :
    ¬ Assigns (referencedBlocks (apply c s).2.tree t) b a := by
  have happlied := apply_applied c s
  revert happlied
  generalize (apply c s).1 = o
  generalize (apply c s).2 = s'
  intro happlied
  rw [assigns_referencedBlocks] at h ⊢
  intro hlater
  cases happlied with
  | cached => exact h hlater
  | executed hnew hcall heffect =>
      rcases assignment_origin heffect hlater with hp | ha | hlate | hold
      · exact hc ⟨hnew, _, hcall, .inl hp⟩
      · exact hc ⟨hnew, _, hcall, .inr (.inl ha)⟩
      · exact hc ⟨hnew, _, hcall, .inr (.inr hlate)⟩
      · exact h hold
  | rejected hnew htree =>
      rw [htree] at hlater
      exact h hlater

/-- A command that is not answered from memory carries a time that is not
    before `t`, does not propose the block and does not add the address to it. -/
def Harmless (t : Time) (b a : String) (s : ReplicatedTree) (c : Command) : Prop :=
  s.appliedOps.get? c.opId = none → ∀ μ, c.call = .mutation μ →
    (∀ now, timeOf μ = some now → t ≤ now) ∧ b ∉ proposedIds μ ∧ ¬ Adds μ b a

/-- A mutation at `t` or later is no late commit. -/
theorem not_brings_of_harmless {t : Time} {b a : String} {s : ReplicatedTree} {c : Command}
    (hc : Harmless t b a s c) : ¬ Brings t b a s c := by
  rintro ⟨hnew, μ, hcall, hbrings⟩
  obtain ⟨htime, hproposed, hadds⟩ := hc hnew μ hcall
  rcases hbrings with hp | ha | hlate
  · exact hproposed hp
  · exact hadds ha
  · cases μ with
    | commitWrite p w l version confirmed now caller =>
        exact absurd (htime now rfl) (not_le.mpr hlate.1)
    | _ => exact hlate

/-- One harmless command assigns nothing. -/
theorem unassigned_apply {t : Time} {b a : String} {s : ReplicatedTree} {c : Command}
    (hc : Harmless t b a s c) (h : ¬ Assigns (referencedBlocks s.tree t) b a) :
    ¬ Assigns (referencedBlocks (apply c s).2.tree t) b a :=
  unassigned_of_not_brings (not_brings_of_harmless hc) h

/-- A later snapshot has no more reservations than an earlier one. -/
theorem assigns_anti {s : ControlTree} {t t' : Time} {b a : String} (ht : t ≤ t')
    (h : Assigns (referencedBlocks s t') b a) : Assigns (referencedBlocks s t) b a := by
  rw [assigns_referencedBlocks] at h ⊢
  refine h.imp_right ?_
  rintro ⟨w, r, hr, halive, hslots⟩
  exact ⟨w, r, hr, lt_of_le_of_lt ht halive, hslots⟩

/-- **WHAT THE COLLECTOR SEES AS UNUSED STAYS UNUSED.**  From a state in which
    the snapshot at `t` does not assign the block to the address, and as long
    as the block is not proposed again and the address not added to it, no
    file assigns it, no reservation alive at `t` or later assigns it, and
    every later snapshot says so too. -/
theorem unused_stays_unused {t : Time} {b a : String} {cmds : List Command}
    {s s' : ReplicatedTree} (hunused : ¬ Assigns (referencedBlocks s.tree t) b a)
    (hlater : (replicated.guarded (Harmless t b a)).Path s cmds s') :
    (∀ ps f, s'.tree.root.view ps = some (.file f) → ¬ BlocksAssign f.blocks b a) ∧
    (∀ t' ≥ t, ∀ w r, s'.tree.writes.get? w = some r → t' < r.leaseExpiresAt →
      ¬ SlotsAssign r b a) ∧
    ∀ t' ≥ t, ¬ Assigns (referencedBlocks s'.tree t') b a := by
  have hkept : ¬ Assigns (referencedBlocks s'.tree t) b a := by
    refine hlater.keeps (I := fun s => ¬ Assigns (referencedBlocks s.tree t) b a) hunused ?_
    rintro s₁ c s₂ hs ⟨hc, rfl⟩
    exact unassigned_apply hc hs
  refine ⟨?_, ?_, ?_⟩
  · intro ps f hfile hblocks
    exact hkept (assigns_referencedBlocks.mpr
      (.inl ⟨ps, f, Metadata.file_eq_some.mpr hfile, hblocks⟩))
  · intro t' ht w r hr halive hslots
    exact hkept (assigns_referencedBlocks.mpr
      (.inr ⟨w, r, hr, lt_of_le_of_lt ht halive, hslots⟩))
  · exact fun t' ht h => hkept (assigns_anti ht h)

/-- A reservation of thirty seconds for the block `b2` at `n2`. -/
def reserveCommand : Command where
  opId := "op-w"
  call := .mutation (.beginWrite "/f" "w1" "l1" 0 0 4 [(0, "b2", ["n2"])] 2 30 4 none)

/-- A file of one block, locked, with a write of its block under way. -/
def afterReserve : ReplicatedTree :=
  [ ⟨"op-1", .mutation (.beginUpload "/f" [("b1", ["n1"])] (some 0) (some 10) (some 4) none)⟩
  , ⟨"op-2", .mutation (.confirmBlock "/f" "b1" "sum" 4 (some 0) (some 10) none)⟩
  , ⟨"op-3", .mutation (.completeUpload "/f" none)⟩
  , ⟨"op-4", .mutation (.acquireLock "/f" "l1" "ana" "w" 1 600 none)⟩
  , reserveCommand ].foldl (fun s c => (apply c s).2) ReplicatedTree.empty

/-- A commit that arrives at 40, when the reservation has expired. -/
def lateCommit : Command where
  opId := "op-c"
  call := .mutation (.commitWrite "/f" "w1" "l1" 0 [(0, "b2", "sum2", 4)] 40 none)

/-- The reservation has expired at 32.  The replay of `begin_write` is answered
    from memory and the late commit is refused. -/
theorem unused_stays_unused_expired :
    Assigns (referencedBlocks afterReserve.tree 31) "b2" "n2" ∧
    ¬ Assigns (referencedBlocks ([reserveCommand, lateCommit].foldl
      (fun s c => (apply c s).2) afterReserve).tree 50) "b2" "n2" := by
  refine ⟨by decide +kernel, ?_⟩
  have hunused : ¬ Assigns (referencedBlocks afterReserve.tree 32) "b2" "n2" := by
    decide +kernel
  have hremembered : afterReserve.appliedOps.contains "op-w" = true := by decide +kernel
  have hreplay : Harmless 32 "b2" "n2" afterReserve reserveCommand := by
    intro hnew
    rw [Dict.contains_iff] at hremembered
    obtain ⟨o, ho⟩ := hremembered
    rw [show reserveCommand.opId = "op-w" from rfl, ho] at hnew
    cases hnew
  have hcommit : ∀ s, Harmless 32 "b2" "n2" s lateCommit := by
    intro s _ μ hμ
    obtain rfl := Call.mutation.inj hμ
    exact ⟨fun now hnow => by rw [← Option.some.inj hnow]; decide +kernel,
      by decide, by decide⟩
  have hpath : (replicated.guarded (Harmless 32 "b2" "n2")).Path afterReserve
      [reserveCommand, lateCommit]
      (apply lateCommit (apply reserveCommand afterReserve).2).2 :=
    Path.cons (And.intro hreplay (step_apply _ _))
      (Path.one (And.intro (hcommit _) (step_apply _ _)))
  exact (unused_stays_unused hunused hpath).2.2 50 (by decide +kernel)

end DfshaReferencedBlocks
