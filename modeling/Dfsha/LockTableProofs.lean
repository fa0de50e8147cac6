import Dfsha.BlockLayoutProofs
import Dfsha.ListingProofs

/-! # The lock table

    The locks are kept in a dictionary beside the tree, under the canonical
    path of the file, and seven mutations create, prune or delete its entries
    with the clocks of different leaders.  In every reachable state they still
    agree with the tree: a locked path is that of a committed file, somebody
    holds the lock, and an exclusive lock has one holder.

    The same run argument shows that a committed file has confirmed blocks
    only, and that a reservation is stored under its own id. -/

namespace DfshaLockTable

open InsertionDict NamedTree TransitionSystem TransitionSystem.System
open DfshaPath DfshaControlTree DfshaMetadata DfshaWriteReservation DfshaBlockLayout
open DfshaListing

/-! ## Where a lock entry comes from -/

/-- A committed file is at the path that the key names. -/
def LocksFile (m : Metadata) (key : String) : Prop :=
  ∃ p ps f, parts p = .ok ps ∧ key = pathKey ps ∧ m.node ps = some (.file f) ∧
    f.state = .committed

/-- Somebody holds the lock. -/
def Held (st : LockState) : Prop := ∃ l h, st.holders.get? l = some h

/-- At most one holder. -/
def OneHolder (st : LockState) : Prop :=
  ∀ l l' h h', st.holders.get? l = some h → st.holders.get? l' = some h' → l = l'

/-- A lock entry after a step was there before, with those holders and perhaps
    more, or it has just been acquired, alone or by one more reader. -/
inductive LockCame (m : Metadata) (key : String) (st' : LockState) : Prop
  | kept (st : LockState) (hlock : m.lock key = some st) (hmode : st'.mode = st.mode)
      (hheld : Held st → Held st')
      (hsub : ∀ l h', st'.holders.get? l = some h' → ∃ h, st.holders.get? l = some h)
  | acquired (hfile : LocksFile m key) (hheld : Held st') (hone : OneHolder st')
  | joined (hfile : LocksFile m key) (hheld : Held st') (hmode : st'.mode = .r)

section LockCame

variable {μ : Mutation} {m m' : Metadata} {r : Except PyError Ret} {key key' : String}
  {st st' : LockState}

theorem lockCame_pruned {now : Option Time} (hp : Pruned now m m')
    (h : m'.lock key = some st') : LockCame m key st' := by
  obtain ⟨st, hst, hmode, hsub⟩ := hp.lock key st' h
  refine .kept st hst hmode ?_ fun l h' hh => ⟨h', hsub l h' hh⟩
  intro hheld
  rcases hp.inhabited key st' h with hold | hnew
  · rw [hst] at hold
    rw [← Option.some.inj hold]
    exact hheld
  · exact hnew

/-- An entry stored for one key is there, or the entry is one that was kept. -/
theorem lockCame_setLock (h : (m'.setLock key' st).lock key = some st')
    (hnew : LockCame m key' st) (hold : m'.lock key = some st' → LockCame m key st') :
    LockCame m key st' := by
  rcases Metadata.update_eq_some h with ⟨rfl, hst⟩ | ⟨_, hother⟩
  · rw [← Option.some.inj hst]
    exact hnew
  · exact hold hother

theorem holder_insert {l : String} {h : String × Time} :
    (st.holders.insert l h).get? l = some h := by
  rw [Dict.get?_insert, if_pos rfl]

/-- **WHERE A LOCK ENTRY COMES FROM.** -/
theorem lockCame_effect (he : Effect μ m r m') (h : m'.lock key = some st') :
    LockCame m key st' := by
  have halive : ∀ {key' now}, (m.aliveLocks key' now).lock key = some st' →
      LockCame m key st' := lockCame_pruned (pruned_aliveLocks _ _ _)
  cases he with
  | makeDir | removeDir | beginUpload | confirmBlock | completeUpload | abortUpload
  | updateBlockReplicas | createUser | changePassword | setAttrsDir | setAttrsFile =>
      exact lockCame_pruned (Pruned.refl none m) h
  | removeFile | releaseGone => exact halive h
  | @acquireLock _ p l owner mode now leaseS caller ps f md hparts hmode hlease hfile
      hcommitted hallowed hfree =>
      refine lockCame_setLock h (.acquired ⟨p, ps, f, hparts, rfl, hfile, hcommitted⟩
        ⟨l, _, by rw [Dict.get?_insert, if_pos rfl]⟩ ?_) halive
      intro l₁ l₂ h₁ h₂ hl₁ hl₂
      rcases Dict.get?_insert_eq_some hl₁ with ⟨rfl, _⟩ | hempty
      · rcases Dict.get?_insert_eq_some hl₂ with ⟨rfl, _⟩ | hempty
        · rfl
        · exact nomatch hempty
      · exact nomatch hempty
  | @joinLock _ p l owner mode now leaseS caller ps f st hparts hmode hlease hfile
      hcommitted hallowed hshared hread hnew =>
      exact lockCame_setLock h (.joined ⟨p, ps, f, hparts, rfl, hfile, hcommitted⟩
        ⟨l, _, holder_insert⟩ hread) halive
  | @renewLock _ p l now leaseS ps f st holder hparts hlease hfile hcommitted hlocked
      hheld =>
      obtain ⟨st₀, hst₀, hmode, hsub⟩ :=
        (pruned_aliveLocks m (pathKey ps) (some now)).lock _ _ hlocked
      refine lockCame_setLock h (.kept st₀ hst₀ hmode
        (fun _ => ⟨l, _, holder_insert⟩) fun l' h' hh => ?_) halive
      rcases Dict.get?_insert_eq_some hh with ⟨rfl, _⟩ | hother
      · exact ⟨holder, hsub _ _ hheld⟩
      · exact ⟨h', hsub _ _ hother⟩
  | @releaseLock _ p l now ps f st hparts hfile hcommitted hlocked hheld hmore =>
      obtain ⟨st₀, hst₀, hmode, hsub⟩ :=
        (pruned_aliveLocks m (pathKey ps) now).lock _ _ hlocked
      refine lockCame_setLock h (.kept st₀ hst₀ hmode ?_ fun l' h' hh => ?_) halive
      · intro _
        exact Dict.exists_of_not_isEmpty (Bool.not_eq_true _ ▸ hmore)
      · exact ⟨h', hsub _ _ (Dict.get?_erase_eq_some hh).2⟩
  | releaseLast =>
      rcases Metadata.update_eq_some h with ⟨_, hnone⟩ | ⟨_, hold⟩
      · exact nomatch hnone
      · exact halive hold
  | beginWrite | beginWriteLost | commitWrite =>
      exact lockCame_pruned (pruned_writeTable _ _ _) h
  | abortWrite | abortGone => exact lockCame_pruned (pruned_aliveWrites _ _) h
  | refused hpruned => exact lockCame_pruned hpruned h

end LockCame

/-! ## The invariant -/

/-- What the tables agree on. -/
structure TablesInv (m : Metadata) : Prop where
  locked : ∀ key st, m.lock key = some st → LocksFile m key
  held : ∀ key st, m.lock key = some st → Held st
  exclusive : ∀ key st, m.lock key = some st → st.mode = .w → OneHolder st
  confirmed : ∀ ps f, m.node ps = some (.file f) → f.state = .committed →
    ∀ b ∈ f.blocks, b.confirmed = true
  writes : ∀ w res, m.write w = some res → res.writeId = w

section Invariant

variable {μ : Mutation} {m m' : Metadata} {r : Except PyError Ret}

/-- The file under a lock that is still there is still a committed file. -/
theorem locksFile_step {key : String} {st' : LockState} (he : Effect μ m r m')
    (hfile : LocksFile m key) (hlock : m'.lock key = some st') : LocksFile m' key := by
  obtain ⟨p, ps, f, hparts, rfl, hnode, hstate⟩ := hfile
  cases committedStep_effect he hnode hstate with
  | kept f' hfile' hsame hlease =>
      exact ⟨p, ps, f', hparts, rfl, hfile', hsame.state.trans hstate⟩
  | published f' p' w l version confirmed now caller replaced hμ hparts' hr hfile'
      hstate' hversion => exact ⟨p, ps, f', hparts, rfl, hfile', hstate'⟩
  | removed p' now caller hμ hparts' hnone hunlocked =>
      rw [hunlocked] at hlock
      exact nomatch hlock

theorem confirmed_of_content {f f' : FileNode} (hsame : content f' = content f)
    (h : ∀ b ∈ f.blocks, b.confirmed = true) : ∀ b ∈ f'.blocks, b.confirmed = true := by
  intro b hb
  have hmem : (b.blockId, b.checksum, b.sizeBytes, b.confirmed) ∈ content f' :=
    List.mem_map.mpr ⟨b, hb, rfl⟩
  rw [hsame] at hmem
  obtain ⟨b', hb', heq⟩ := List.mem_map.mp hmem
  rw [← h b' hb']
  exact (congrArg (fun q => q.2.2.2) heq).symm

/-- What `commit_write` publishes is confirmed. -/
theorem confirmed_publishSlots {blocks : List BlockRecord}
    (qs : List (WriteSlotRecord × String × Int))
    (h : ∀ b ∈ blocks, b.confirmed = true) :
    ∀ b ∈ (publishSlots blocks qs).1, b.confirmed = true := by
  induction qs generalizing blocks with
  | nil => exact h
  | cons q qs ih =>
      obtain ⟨slot, checksum, size⟩ := q
      rw [publishSlots]
      by_cases hlt : slot.index < blocks.length
      · rw [if_pos hlt]
        cases pyIndex blocks slot.index with
        | error e => exact h
        | ok old =>
            refine ih fun b hb => ?_
            rcases List.mem_or_eq_of_mem_set hb with hold | rfl
            · exact h b hold
            · rfl
      · rw [if_neg hlt]
        refine ih fun b hb => ?_
        rcases List.mem_append.mp hb with hold | hnew
        · exact h b hold
        · rw [List.mem_singleton.mp hnew]

theorem confirmed_came {ps : List String} {f' : FileNode} (h : TablesInv m)
    (hcame : FileCame μ m ps f') (hstate : f'.state = .committed) :
    ∀ b ∈ f'.blocks, b.confirmed = true := by
  cases hcame with
  | kept f hfile hsame =>
      exact confirmed_of_content hsame.content
        (h.confirmed ps f hfile (hsame.state.symm.trans hstate))
  | uploaded p placements now leaseS blockSize caller hμ hparts hnew =>
      rw [hnew] at hstate
      exact nomatch hstate
  | confirmed f p b sum size now leaseS caller hμ hparts hfile hpending hstate' _ _ =>
      rw [hstate] at hstate'
      exact nomatch hstate'
  | completed f hfile hpending hconfirmed hnew =>
      rw [hnew]
      exact hconfirmed
  | published f p w l version confirmed now caller res blocks replaced hparts hr
      hpublished hnew =>
      have hblocks := confirmed_publishSlots (confirmedSlots res confirmed)
        (h.confirmed ps f hr.hfile hr.hcommitted)
      rw [hpublished] at hblocks
      rw [hnew]
      exact hblocks

/-- A reservation that has just begun is stored under its own id. -/
theorem writeId_step {w : String} {res : WriteReservation} (he : Effect μ m r m')
    (h : m'.write w = some res) : res.writeId = w ∨ m.write w = some res := by
  rcases reserved_effect he h with hbegun | hold
  · obtain ⟨p, l, version, offset, length, proposals, now, leaseS, default, caller,
      rfl⟩ := eq_beginWrite_of_mem hbegun
    rcases effect_beginWrite he h with hold | ⟨ps, f, hparts, hnode, hr⟩
    · exact .inr hold
    · exact .inl hr.hwrite
  · exact .inr hold

/-- **THE TABLES KEEP AGREEING.** -/
theorem tablesInv_step (h : TablesInv m) (he : Effect μ m r m') : TablesInv m' where
  locked := by
    intro key st' hlock
    refine locksFile_step he ?_ hlock
    cases lockCame_effect he hlock with
    | kept st hst hmode hheld hsub => exact h.locked key st hst
    | acquired hfile hheld hone => exact hfile
    | joined hfile hheld hmode => exact hfile
  held := by
    intro key st' hlock
    cases lockCame_effect he hlock with
    | kept st hst hmode hheld hsub => exact hheld (h.held key st hst)
    | acquired hfile hheld hone => exact hheld
    | joined hfile hheld hmode => exact hheld
  exclusive := by
    intro key st' hlock hw
    cases lockCame_effect he hlock with
    | kept st hst hmode hheld hsub =>
        intro l l' h₁ h₂ hl hl'
        obtain ⟨k₁, hk₁⟩ := hsub l h₁ hl
        obtain ⟨k₂, hk₂⟩ := hsub l' h₂ hl'
        exact h.exclusive key st hst (hmode.symm.trans hw) l l' k₁ k₂ hk₁ hk₂
    | acquired hfile hheld hone => exact hone
    | joined hfile hheld hmode =>
        rw [hw] at hmode
        exact nomatch hmode
  confirmed := fun ps f hfile hstate =>
    confirmed_came h (fileCame_effect he hfile) hstate
  writes := by
    intro w res hw
    rcases writeId_step he hw with hid | hold
    · exact hid
    · exact h.writes w res hold

theorem tablesInv_empty : TablesInv (metadata ControlTree.empty) := by
  refine ⟨?_, ?_, ?_, ?_, ?_⟩
  · intro key st h; exact nomatch h
  · intro key st h; exact nomatch h
  · intro key st h; exact nomatch h
  · exact fun ps f hfile => absurd hfile (no_file_empty ps f)
  · intro w res h; exact nomatch h

theorem tablesInv_run {μs : List Mutation} {s : ControlTree}
    (h : controlTree.Run μs s) : TablesInv (metadata s) := by
  refine h.invariant (I := fun _ s => TablesInv (metadata s)) ?_ ?_
  · rintro s rfl
    exact tablesInv_empty
  · intro _ s μ s' ih hstep
    exact tablesInv_step ih (step_effect hstep)

end Invariant

/-! ## What the tables say -/

/-- The lock table, the files and the reservations of a tree are sound. -/
structure SoundTables (s : ControlTree) : Prop where
  /-- a lock is on the canonical path of a committed file -/
  locked : ∀ key st, s.locks.get? key = some st → canonicalPath key = .ok key ∧
    ∃ ps f, parts key = .ok ps ∧ s.root.view ps = some (.file f) ∧ f.state = .committed
  mode : ∀ key st, s.locks.get? key = some st → st.mode = .r ∨ st.mode = .w
  held : ∀ key st, s.locks.get? key = some st → 1 ≤ st.holders.size
  exclusive : ∀ key st, s.locks.get? key = some st → st.mode = .w → st.holders.size = 1
  shared : ∀ key st l l' h h', s.locks.get? key = some st →
    st.holders.get? l = some h → st.holders.get? l' = some h' → l ≠ l' → st.mode = .r
  confirmed : ∀ ps f, s.root.view ps = some (.file f) → f.state = .committed →
    ∀ b ∈ f.blocks, b.confirmed = true
  reserved : ∀ w res, s.writes.get? w = some res → res.writeId = w ∧
    ∃ first, Consecutive first (res.slots.map WriteSlotRecord.index)
  /-- no listing shows a block that is not confirmed, or a file that has one -/
  listBlocks : ∀ p caller bs, (listBlocks p caller s).1 = .ok bs →
    ∀ b ∈ bs, b.confirmed = true
  listDir : ∀ p caller es, (listDir p caller s).1 = .ok es → ∀ e ∈ es, e.isDir = false →
    ∃ ps f, parts p = .ok ps ∧ s.root.view (ps ++ [e.name]) = some (.file f) ∧
      f.state = .committed ∧ ∀ b ∈ f.blocks, b.confirmed = true
  iterBlocks : ∀ e ∈ iterBlocks s, e.2.confirmed = true

/-- A dictionary with one key at most has one entry at most. -/
theorem size_le_one {st : LockState} (h : OneHolder st) : st.holders.size ≤ 1 := by
  have hnodup := st.holders.nodup
  by_contra hlt
  rw [Dict.size, not_le] at hlt
  obtain ⟨a, b, rest, heq⟩ : ∃ a b rest, st.holders.entries = a :: b :: rest := by
    match hentries : st.holders.entries with
    | [] => rw [hentries] at hlt; exact absurd hlt (by decide)
    | [a] => rw [hentries] at hlt; exact absurd hlt (lt_irrefl 1)
    | a :: b :: rest => exact ⟨a, b, rest, rfl⟩
  have ha : st.holders.get? a.1 = some a.2 :=
    Dict.get?_eq_some_iff.mpr (heq ▸ List.mem_cons_self)
  have hb : st.holders.get? b.1 = some b.2 :=
    Dict.get?_eq_some_iff.mpr (heq ▸ List.mem_cons_of_mem _ List.mem_cons_self)
  rw [heq, List.map_cons, List.map_cons, List.nodup_cons] at hnodup
  exact hnodup.1 (h a.1 b.1 a.2 b.2 ha hb ▸ List.mem_cons_self)

theorem one_le_size {st : LockState} (h : Held st) : 1 ≤ st.holders.size := by
  obtain ⟨l, holder, hl⟩ := h
  exact List.length_pos_of_mem (Dict.get?_eq_some_iff.mp hl)

/-- **THE TABLES ARE SOUND IN EVERY REACHABLE STATE.** -/
theorem sound_tables {μs : List Mutation} {s : ControlTree}
    (hrun : controlTree.Run μs s) : SoundTables s := by
  have h := tablesInv_run hrun
  refine ⟨?_, ?_, ?_, ?_, ?_, h.confirmed, ?_, ?_, ?_, ?_⟩
  · intro key st hlock
    obtain ⟨p, ps, f, hparts, rfl, hnode, hstate⟩ := h.locked key st hlock
    have hkey := parts_pathKey (cleanName_of_parts hparts)
    refine ⟨?_, ps, f, hkey, hnode, hstate⟩
    rw [canonicalPath, hkey]
    rfl
  · intro key st _
    cases st.mode with
    | r => exact .inl rfl
    | w => exact .inr rfl
  · intro key st hlock
    exact one_le_size (h.held key st hlock)
  · intro key st hlock hw
    exact le_antisymm (size_le_one (h.exclusive key st hlock hw))
      (one_le_size (h.held key st hlock))
  · intro key st l l' h₁ h₂ hlock hl hl' hne
    cases hmode : st.mode with
    | r => rfl
    | w => exact absurd (h.exclusive key st hlock hmode l l' h₁ h₂ hl hl') hne
  · intro w res hw
    exact ⟨h.writes w res hw, res.consecutive⟩
  · intro p caller bs hlist
    obtain ⟨ps, f, _, hfile, hstate, rfl⟩ := listBlocks_ok hlist
    exact h.confirmed ps f hfile hstate
  · intro p caller es hlist e he hdir
    obtain ⟨ps, attrs, hparts, _, hlines⟩ := listDir_ok hlist
    obtain ⟨name, child, hview, hlisted⟩ := (hlines e).mp he
    obtain ⟨f, rfl, hstate⟩ := listed_file hlisted hdir
    obtain rfl := name_listed hlisted
    exact ⟨ps, f, hparts, hview, hstate, h.confirmed _ f hview hstate⟩
  · rintro ⟨key, b⟩ he
    obtain ⟨ps, f, _, hfile, hstate, hb⟩ := mem_iterBlocks he
    exact h.confirmed ps f hfile hstate b hb

/-- The tables after an upload and an exclusive lock on the file. -/
theorem sound_tables_locked :
    SoundTables lockedState :=
  sound_tables ⟨_, rfl, path_foldl ControlTree.empty lockedFile⟩

end DfshaLockTable
