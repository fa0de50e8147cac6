import Dfsha.ControlTreeEffectProofs
import Dfsha.TransitionSystemProofs

/-! # Reservations, locks and versions

    A write that commits has been planned against the file as it is.

    `commit_write` compares an integer, and the version of a file starts again
    at 0 when its path is removed and uploaded again, so the comparison alone
    proves nothing.  What does is the lock: a lock id that is held at the
    commit was held ever since its reservation began (ids are not reused, so a
    lost lock does not come back), while it is held the file cannot be
    removed, and the only step that changes what the file has, a commit of
    another reservation, raises the version.  No step of the argument looks at
    the clock. -/

namespace DfshaWriteReservation

open InsertionDict NamedTree TransitionSystem TransitionSystem.System
open DfshaPath DfshaControlTree DfshaMetadata DfshaControlTreeEffect

/-- The runs of the control tree: any mutations, in any order. -/
def controlTree : System ControlTree Mutation :=
  ofFunction ControlTree.empty fun μ s => (exec μ s).2

/-- The lock id that a mutation asks for. -/
def acquiredLocks : Mutation → List String
  | .acquireLock _ l _ _ _ _ _ => [l]
  | _ => []

/-- The write id that a mutation reserves under. -/
def begunWrites : Mutation → List String
  | .beginWrite _ w _ _ _ _ _ _ _ _ _ => [w]
  | _ => []

/-! ## Locks and reservations do not come back -/

/-- `l` is among the holders of `key`, and the lock is in this mode. -/
def HeldIn (m : Metadata) (key : String) (mode : LockMode) (l : String) : Prop :=
  ∃ st h, m.lock key = some st ∧ st.mode = mode ∧ st.holders.get? l = some h

theorem heldIn_of_holdsWriteLock {m : Metadata} {key l : String}
    (h : holdsWriteLock (m.lock key) l = true) : HeldIn m key .w l := by
  cases hst : m.lock key with
  | none => rw [hst] at h; exact nomatch h
  | some st =>
      rw [hst, holdsWriteLock, Bool.and_eq_true, decide_eq_true_eq] at h
      obtain ⟨holder, hh⟩ := Dict.contains_iff.mp h.2
      exact ⟨st, holder, hst, h.1, hh⟩

theorem heldIn_pruned {now : Option Time} {m m' : Metadata} (hp : Pruned now m m')
    {key : String} {mode : LockMode} {l : String} (h : HeldIn m' key mode l) :
    HeldIn m key mode l := by
  obtain ⟨st', h', hst', hmode, hh'⟩ := h
  obtain ⟨st, hst, hmode', hsub⟩ := hp.lock key st' hst'
  exact ⟨st, h', hst, hmode'.symm.trans hmode, hsub l h' hh'⟩

theorem heldIn_congr {m m' : Metadata} (hlock : m'.lock = m.lock) {key : String}
    {mode : LockMode} {l : String} (h : HeldIn m' key mode l) : HeldIn m key mode l := by
  unfold HeldIn at h ⊢
  rw [hlock] at h
  exact h

/-- After a lock has been stored, a holder is in it or was there before. -/
theorem heldIn_setLock {m : Metadata} {key key' : String} {st' : LockState}
    {mode : LockMode} {l : String} (h : HeldIn (m.setLock key st') key' mode l) :
    (key' = key ∧ st'.mode = mode ∧ ∃ h, st'.holders.get? l = some h) ∨
      HeldIn m key' mode l := by
  obtain ⟨st, h, hst, hmode, hh⟩ := h
  rcases Metadata.update_eq_some hst with ⟨hk, hnew⟩ | ⟨_, hold⟩
  · obtain rfl := Option.some.inj hnew
    exact .inl ⟨hk, hmode, h, hh⟩
  · exact .inr ⟨st, h, hold, hmode, hh⟩

/-- **A LOCK THAT IS HELD WAS HELD BEFORE OR HAS JUST BEEN ACQUIRED.** -/
theorem heldIn_effect {μ : Mutation} {m m' : Metadata} {r : Except PyError Ret}
    (he : Effect μ m r m') {key : String} {mode : LockMode} {l : String}
    (h : HeldIn m' key mode l) : l ∈ acquiredLocks μ ∨ HeldIn m key mode l := by
  have hpruned : ∀ {key' now}, HeldIn (m.aliveLocks key' now) key mode l →
      HeldIn m key mode l := heldIn_pruned (pruned_aliveLocks _ _ _)
  cases he with
  | makeDir | removeDir | beginUpload | confirmBlock | completeUpload | abortUpload
  | updateBlockReplicas | createUser | changePassword | setAttrsDir | setAttrsFile =>
      exact .inr (heldIn_congr rfl h)
  | removeFile | releaseGone => exact .inr (hpruned h)
  | acquireLock hparts hmode hlease hfile hcommitted hallowed hfree =>
      rcases heldIn_setLock h with ⟨_, _, holder, hh⟩ | hold
      · rcases Dict.get?_insert_eq_some hh with ⟨hl, _⟩ | hempty
        · exact .inl (List.mem_singleton.mpr hl)
        · exact nomatch hempty
      · exact .inr (hpruned hold)
  | joinLock hparts hmode hlease hfile hcommitted hallowed hshared hread hnew =>
      rcases heldIn_setLock h with ⟨rfl, hm, holder, hh⟩ | hold
      · rcases Dict.get?_insert_eq_some hh with ⟨hl, _⟩ | hother
        · exact .inl (List.mem_singleton.mpr hl)
        · exact .inr (hpruned ⟨_, _, hshared, hm, hother⟩)
      · exact .inr (hpruned hold)
  | renewLock hparts hlease hfile hcommitted hlocked hheld =>
      rcases heldIn_setLock h with ⟨rfl, hm, holder, hh⟩ | hold
      · rcases Dict.get?_insert_eq_some hh with ⟨rfl, _⟩ | hother
        · exact .inr (hpruned ⟨_, _, hlocked, hm, hheld⟩)
        · exact .inr (hpruned ⟨_, _, hlocked, hm, hother⟩)
      · exact .inr (hpruned hold)
  | releaseLock hparts hfile hcommitted hlocked hheld hmore =>
      rcases heldIn_setLock h with ⟨rfl, hm, holder, hh⟩ | hold
      · exact .inr (hpruned ⟨_, _, hlocked, hm, (Dict.get?_erase_eq_some hh).2⟩)
      · exact .inr (hpruned hold)
  | releaseLast hparts hfile hcommitted hlocked hheld hlast =>
      obtain ⟨st, holder, hst, hm, hh⟩ := h
      rcases Metadata.update_eq_some hst with ⟨_, hnone⟩ | ⟨_, hold⟩
      · exact nomatch hnone
      · exact .inr (hpruned ⟨st, holder, hold, hm, hh⟩)
  | beginWrite | beginWriteLost | commitWrite =>
      exact .inr (heldIn_pruned (pruned_writeTable _ _ _) (heldIn_congr rfl h))
  | abortWrite | abortGone =>
      exact .inr (heldIn_pruned (pruned_aliveWrites _ _) (heldIn_congr rfl h))
  | refused hpruned => exact .inr (heldIn_pruned hpruned h)

/-- **A RESERVATION THAT IS STORED WAS THERE BEFORE OR HAS JUST BEGUN.** -/
theorem reserved_effect {μ : Mutation} {m m' : Metadata} {r : Except PyError Ret}
    (he : Effect μ m r m') {w : String} {res : WriteReservation}
    (h : m'.write w = some res) : w ∈ begunWrites μ ∨ m.write w = some res := by
  cases he with
  | makeDir | removeDir | beginUpload | confirmBlock | completeUpload | abortUpload
  | updateBlockReplicas | createUser | changePassword | setAttrsDir | setAttrsFile =>
      exact .inr h
  | removeFile | acquireLock | joinLock | renewLock | releaseLock | releaseLast
  | releaseGone =>
      simp only [Metadata.write_dropNode, Metadata.write_setLock,
        Metadata.write_dropLock, Metadata.write_aliveLocks] at h
      exact .inr h
  | beginWrite | beginWriteLost =>
      rcases Metadata.update_eq_some h with ⟨hw, _⟩ | ⟨_, hold⟩
      · exact .inl (List.mem_singleton.mpr hw)
      · exact .inr ((pruned_writeTable _ _ _).write w res hold)
  | commitWrite =>
      rcases Metadata.update_eq_some h with ⟨_, hnone⟩ | ⟨_, hold⟩
      · exact nomatch hnone
      · exact .inr ((pruned_writeTable _ _ _).write w res hold)
  | abortWrite =>
      rcases Metadata.update_eq_some h with ⟨_, hnone⟩ | ⟨_, hold⟩
      · exact nomatch hnone
      · exact .inr ((pruned_aliveWrites _ _).write w res hold)
  | abortGone => exact .inr ((pruned_aliveWrites _ _).write w res h)
  | refused hpruned => exact .inr (hpruned.write w res h)

/-! ## What a step can do to a committed file -/

/-- What a file has, up to the addresses of the replicas. -/
def content (f : FileNode) : List (String × String × Int × Bool) :=
  f.blocks.map fun b => (b.blockId, b.checksum, b.sizeBytes, b.confirmed)

theorem content_updateReplicas {b : String} {new : List String}
    {blocks blocks' : List BlockRecord}
    (h : updateBlock b (fun b => { b with datanodeAddresses := new }) blocks
      = some blocks') :
    (blocks'.map fun b => (b.blockId, b.checksum, b.sizeBytes, b.confirmed))
      = blocks.map fun b => (b.blockId, b.checksum, b.sizeBytes, b.confirmed) := by
  induction blocks generalizing blocks' with
  | nil => exact nomatch h
  | cons hd rest ih =>
      rw [updateBlock] at h
      by_cases hb : hd.blockId = b
      · rw [if_pos hb] at h
        rw [← Option.some.inj h]
        rfl
      · rw [if_neg hb] at h
        obtain ⟨rest', hrest, hcons⟩ := Option.map_eq_some_iff.mp h
        rw [← hcons, List.map_cons, List.map_cons, ih hrest]

/-- The file is still there, with the same blocks, version and block size. -/
structure SameFile (f f' : FileNode) : Prop where
  state : f'.state = f.state
  content : content f' = content f
  version : f'.version = f.version
  blockSize : f'.blockSize = f.blockSize

theorem SameFile.refl (f : FileNode) : SameFile f f := ⟨rfl, rfl, rfl, rfl⟩

theorem SameFile.blockIds {f f' : FileNode} (h : SameFile f f') :
    f'.blocks.map BlockRecord.blockId = f.blocks.map BlockRecord.blockId := by
  have hids := congrArg (List.map Prod.fst) h.content
  rw [DfshaWriteReservation.content, DfshaWriteReservation.content, List.map_map,
    List.map_map] at hids
  exact hids

theorem SameFile.trans {f₁ f₂ f₃ : FileNode} (h : SameFile f₁ f₂)
    (h' : SameFile f₂ f₃) : SameFile f₁ f₃ :=
  ⟨h'.state.trans h.state, h'.content.trans h.content, h'.version.trans h.version,
    h'.blockSize.trans h.blockSize⟩

/-- The three things that can happen to a committed file in one step. -/
inductive CommittedStep (μ : Mutation) (r : Except PyError Ret) (m' : Metadata)
    (ps : List String) (f : FileNode) : Prop
  | kept (f' : FileNode) (hfile : m'.node ps = some (.file f')) (hsame : SameFile f f')
      (hlease : f'.leaseExpiresAt = f.leaseExpiresAt)
  | published (f' : FileNode) (p w l : String) (version : Int)
      (confirmed : List (Int × String × String × Int)) (now : Time)
      (caller : Option Caller) (replaced : List BlockRecord)
      (hμ : μ = .commitWrite p w l version confirmed now caller)
      (hparts : parts p = .ok ps)
      (hr : r = .ok (.writeCommitted (f.version + 1) replaced))
      (hfile : m'.node ps = some (.file f')) (hstate : f'.state = .committed)
      (hversion : f'.version = f.version + 1)
  | removed (p : String) (now : Option Time) (caller : Option Caller)
      (hμ : μ = .removeFile p now caller) (hparts : parts p = .ok ps)
      (hfile : m'.node ps = none) (hunlocked : m'.lock (pathKey ps) = none)

section Committed

variable {μ : Mutation} {r : Except PyError Ret} {m m' : Metadata}
  {ps ps' : List String} {f f' : FileNode}

theorem committedStep_untouched (hfile : m.node ps = some (.file f))
    (h : m'.node ps = m.node ps) : CommittedStep μ r m' ps f :=
  .kept f (h.trans hfile) (.refl f) rfl

/-- A file stored at some path is another one, or has what the old one had. -/
theorem committedStep_setFile (hfile : m.node ps = some (.file f))
    (h : ps = ps' → SameFile f f' ∧ f'.leaseExpiresAt = f.leaseExpiresAt) :
    CommittedStep μ r (m.setFile ps' f') ps f := by
  by_cases hps : ps = ps'
  · refine .kept f' ?_ (h hps).1 (h hps).2
    rw [Metadata.node_setFile, if_pos hps]
  · refine committedStep_untouched hfile ?_
    rw [Metadata.node_setFile, if_neg hps]

/-- **WHAT A STEP CAN DO TO A COMMITTED FILE.** -/
theorem committedStep_effect (he : Effect μ m r m')
    (hfile : m.node ps = some (.file f)) (hstate : f.state = .committed) :
    CommittedStep μ r m' ps f := by
  cases he with
  | makeDir hparts hne hparent hallowed hfree =>
      refine committedStep_untouched hfile ?_
      rw [Metadata.node_setNode, if_neg]
      rintro rfl
      rw [hfile] at hfree
      exact nomatch hfree
  | removeDir hparts hne hparent hallowed hdir hempty =>
      refine committedStep_untouched hfile ?_
      rw [Metadata.node_dropNode, if_neg]
      rintro rfl
      rw [hfile] at hdir
      exact nomatch hdir
  | @removeFile _ p now caller ps' d f' hparts hne hparent hallowed hfile' hcommitted
      hunlocked =>
      by_cases hps : ps = ps'
      · obtain rfl := hps
        refine .removed p now caller rfl hparts ?_ ?_
        · rw [Metadata.node_dropNode, if_pos rfl]
        · rw [Metadata.lock_dropNode]
          exact hunlocked
      · refine committedStep_untouched hfile ?_
        rw [Metadata.node_dropNode, if_neg hps, Metadata.node_aliveLocks]
  | beginUpload hparts hne hallowed hfree =>
      refine committedStep_untouched hfile ?_
      rw [Metadata.node_setFile, if_neg]
      · show (if _ ∧ m.node ps = none then _ else m.node ps) = _
        rw [hfile]
        exact if_neg fun h => nomatch h.2
      · rintro rfl
        rcases hfree with ⟨hnone, _⟩ | ⟨f', hf', hpending, _⟩
        · rw [hfile] at hnone
          exact nomatch hnone
        · rw [hfile] at hf'
          rw [← Entry.file.inj (Option.some.inj hf'), hstate] at hpending
          exact nomatch hpending
  | confirmBlock hparts hfile' hpending howner hblocks =>
      refine committedStep_setFile hfile ?_
      rintro rfl
      rw [hfile] at hfile'
      rw [← Entry.file.inj (Option.some.inj hfile'), hstate] at hpending
      exact nomatch hpending
  | completeUpload hparts hfile' hpending howner hconfirmed =>
      refine committedStep_setFile hfile ?_
      rintro rfl
      rw [hfile] at hfile'
      rw [← Entry.file.inj (Option.some.inj hfile'), hstate] at hpending
      exact nomatch hpending
  | abortUpload hparts hne hfile' hpending howner =>
      refine committedStep_untouched hfile ?_
      rw [Metadata.node_dropNode, if_neg]
      rintro rfl
      rw [hfile] at hfile'
      rw [← Entry.file.inj (Option.some.inj hfile'), hstate] at hpending
      exact nomatch hpending
  | acquireLock | joinLock | renewLock | releaseLock =>
      refine committedStep_untouched hfile ?_
      rw [Metadata.node_setLock, Metadata.node_aliveLocks]
  | releaseLast =>
      refine committedStep_untouched hfile ?_
      rw [Metadata.node_dropLock, Metadata.node_aliveLocks]
  | releaseGone =>
      refine committedStep_untouched hfile ?_
      rw [Metadata.node_aliveLocks]
  | updateBlockReplicas hparts hfile' hcommitted hfind hexpected hblocks =>
      refine committedStep_setFile hfile ?_
      rintro rfl
      rw [hfile] at hfile'
      obtain rfl := Entry.file.inj (Option.some.inj hfile')
      exact ⟨⟨rfl, content_updateReplicas hblocks, rfl, rfl⟩, rfl⟩
  | beginWrite | beginWriteLost =>
      refine committedStep_untouched hfile ?_
      rw [Metadata.node_setWrite, (pruned_writeTable _ _ _).node]
  | @commitWrite _ p w l version confirmed now caller ps' f' res blocks replaced
      hparts hr hpublished =>
      by_cases hps : ps = ps'
      · obtain rfl := hps
        have hf' := hr.hfile
        rw [hfile] at hf'
        obtain rfl := Entry.file.inj (Option.some.inj hf')
        refine .published { f with
            blocks, version := f.version + 1, blockSize := res.blockSize }
          p w l version confirmed now caller replaced rfl hparts rfl ?_ hstate rfl
        rw [Metadata.node_dropWrite, Metadata.node_setFile, if_pos rfl]
      · refine committedStep_untouched hfile ?_
        rw [Metadata.node_dropWrite, Metadata.node_setFile, if_neg hps,
          (pruned_writeTable _ _ _).node]
  | abortWrite =>
      refine committedStep_untouched hfile ?_
      rw [Metadata.node_dropWrite, Metadata.node_aliveWrites]
  | abortGone =>
      refine committedStep_untouched hfile ?_
      rw [Metadata.node_aliveWrites]
  | createUser | changePassword => exact committedStep_untouched hfile rfl
  | setAttrsDir hparts hdir hμ =>
      refine committedStep_untouched hfile ?_
      rw [Metadata.node_setNode, if_neg]
      rintro rfl
      rw [hfile] at hdir
      exact nomatch hdir
  | setAttrsFile hparts hfile' hcommitted hμ =>
      refine committedStep_setFile hfile ?_
      rintro rfl
      rw [hfile] at hfile'
      obtain rfl := Entry.file.inj (Option.some.inj hfile')
      exact ⟨⟨rfl, rfl, rfl, rfl⟩, rfl⟩
  | refused hpruned =>
      refine committedStep_untouched hfile ?_
      rw [hpruned.node]

end Committed

/-! ## Runs -/

theorem step_effect {s s' : ControlTree} {μ : Mutation}
    (h : controlTree.step s μ s') :
    Effect μ (metadata s) (exec μ s).1 (metadata s') := by
  rw [show s' = (exec μ s).2 from h]
  exact exec_effect μ s

theorem step_exec (s : ControlTree) (μ : Mutation) :
    controlTree.step s μ (exec μ s).2 := rfl

/-- The holders and the reservations of a reachable state have been asked for
    in the run. -/
structure Known (μs : List Mutation) (s : ControlTree) : Prop where
  locks : ∀ key mode l, HeldIn (metadata s) key mode l → l ∈ μs.flatMap acquiredLocks
  writes : ∀ w res, (metadata s).write w = some res → w ∈ μs.flatMap begunWrites

theorem known_run {μs : List Mutation} {s : ControlTree}
    (h : controlTree.Run μs s) : Known μs s := by
  refine h.invariant ?_ ?_
  · rintro s rfl
    refine ⟨?_, fun w res hw => nomatch hw⟩
    rintro key mode l ⟨st, holder, hst, _⟩
    exact nomatch hst
  · intro μs s μ s' ih hstep
    have he := step_effect hstep
    refine ⟨?_, ?_⟩
    · intro key mode l hl
      rw [List.flatMap_append, List.flatMap_singleton, List.mem_append]
      rcases heldIn_effect he hl with hnew | hold
      · exact .inr hnew
      · exact .inl (ih.locks key mode l hold)
    · intro w res hw
      rw [List.flatMap_append, List.flatMap_singleton, List.mem_append]
      rcases reserved_effect he hw with hnew | hold
      · exact .inr hnew
      · exact .inl (ih.writes w res hold)

/-- A lock held at the end of a path that does not acquire it was held at its
    start. -/
theorem heldIn_path {μs : List Mutation} {s s' : ControlTree} {key l : String}
    {mode : LockMode} (h : controlTree.Path s μs s')
    (hnew : l ∉ μs.flatMap acquiredLocks) (hl : HeldIn (metadata s') key mode l) :
    HeldIn (metadata s) key mode l := by
  induction h with
  | start => exact hl
  | next hpath hstep ih =>
      rw [List.flatMap_append, List.flatMap_singleton, List.mem_append, not_or] at hnew
      rcases heldIn_effect (step_effect hstep) hl with habs | hold
      · exact absurd habs hnew.2
      · exact ih hnew.1 hold

theorem reserved_path {μs : List Mutation} {s s' : ControlTree} {w : String}
    {res : WriteReservation} (h : controlTree.Path s μs s')
    (hnew : w ∉ μs.flatMap begunWrites) (hw : (metadata s').write w = some res) :
    (metadata s).write w = some res := by
  induction h with
  | start => exact hw
  | next hpath hstep ih =>
      rw [List.flatMap_append, List.flatMap_singleton, List.mem_append, not_or] at hnew
      rcases reserved_effect (step_effect hstep) hw with habs | hold
      · exact absurd habs hnew.2
      · exact ih hnew.1 hold

/-- The committed file at `ps` is the same, or a newer version of it. -/
def Later (ps : List String) (f : FileNode) (m : Metadata) : Prop :=
  ∃ f', m.node ps = some (.file f') ∧ f'.state = .committed ∧
    (SameFile f f' ∨ f.version < f'.version)

theorem Later.version_le {ps : List String} {f f' : FileNode} {m : Metadata}
    (h : Later ps f m) (hf' : m.node ps = some (.file f')) :
    f.version ≤ f'.version := by
  obtain ⟨f'', hf'', _, hor⟩ := h
  rw [hf'] at hf''
  obtain rfl := Entry.file.inj (Option.some.inj hf'')
  rcases hor with hsame | hlt
  · exact hsame.version.ge
  · exact hlt.le

/-- A step after which the file is still there leaves it or a newer version. -/
theorem later_step {μ : Mutation} {r : Except PyError Ret} {m m' : Metadata}
    {ps : List String} {f₀ : FileNode} (he : Effect μ m r m')
    (h : Later ps f₀ m) (hthere : m'.node ps ≠ none) : Later ps f₀ m' := by
  obtain ⟨f, hfile, hstate, hor⟩ := h
  cases committedStep_effect he hfile hstate with
  | kept f' hfile' hsame hlease =>
      refine ⟨f', hfile', hsame.state.trans hstate, ?_⟩
      rcases hor with hsame₀ | hlt
      · exact .inl (hsame₀.trans hsame)
      · rw [hsame.version]
        exact .inr hlt
  | published f' p w l version confirmed now caller replaced hμ hparts hr hfile'
      hstate' hversion =>
      refine ⟨f', hfile', hstate', .inr ?_⟩
      rcases hor with hsame₀ | hlt
      · rw [hversion, hsame₀.version]
        exact Int.lt_add_one_iff.mpr le_rfl
      · rw [hversion]
        exact hlt.trans (Int.lt_add_one_iff.mpr le_rfl)
  | removed p now caller hμ hparts hnone hunlocked => exact absurd hnone hthere

/-- While a lock on its path is held a committed file cannot go away. -/
theorem later_path_locked {μs : List Mutation} {s s' : ControlTree} {l : String}
    {mode : LockMode} {ps : List String} {f : FileNode}
    (h : controlTree.Path s μs s') (hnew : l ∉ μs.flatMap acquiredLocks)
    (hl : HeldIn (metadata s') (pathKey ps) mode l)
    (hfile : (metadata s).node ps = some (.file f)) (hstate : f.state = .committed) :
    Later ps f (metadata s') := by
  induction h with
  | start => exact ⟨f, hfile, hstate, .inl (.refl f)⟩
  | next hpath hstep ih =>
      rw [List.flatMap_append, List.flatMap_singleton, List.mem_append, not_or] at hnew
      have he := step_effect hstep
      have hl₁ : HeldIn (metadata _) (pathKey ps) mode l :=
        (heldIn_effect he hl).resolve_left hnew.2
      have hlater := ih hnew.1 hl₁
      refine later_step he hlater ?_
      intro hnone
      obtain ⟨f₁, hfile₁, hstate₁, _⟩ := hlater
      cases committedStep_effect he hfile₁ hstate₁ with
      | kept f' hfile' hsame hlease => rw [hnone] at hfile'; exact nomatch hfile'
      | published f' p w l' version confirmed now caller replaced hμ hparts hr hfile'
          hstate' hversion => rw [hnone] at hfile'; exact nomatch hfile'
      | removed p now caller hμ hparts hfile' hunlocked =>
          obtain ⟨st, holder, hst, _⟩ := hl
          rw [hunlocked] at hst
          exact nomatch hst

/-- While something stays at a path, the version of its file never goes down. -/
theorem later_path_present {μs : List Mutation} {s s' : ControlTree}
    {ps : List String} {f : FileNode} (h : controlTree.Path s μs s')
    (hfile : (metadata s).node ps = some (.file f)) (hstate : f.state = .committed)
    (hthere : ∀ a b t, μs = a ++ b → controlTree.Path s a t →
      (metadata t).node ps ≠ none) : Later ps f (metadata s') := by
  induction h with
  | start => exact ⟨f, hfile, hstate, .inl (.refl f)⟩
  | @next ls s₁ s₂ μ hpath hstep ih =>
      refine later_step (step_effect hstep) (ih ?_) ?_
      · intro a b t hab ht
        exact hthere a (b ++ [μ]) t (by rw [hab, List.append_assoc]) ht
      · exact hthere (ls ++ [μ]) [] s₂ (List.append_nil _).symm (hpath.next hstep)

/-! ## The commit of a reservation -/

/-- What a commit that succeeds has checked and done. -/
theorem effect_commitWrite {p w l : String} {version : Int}
    {confirmed : List (Int × String × String × Int)} {now : Time}
    {caller : Option Caller} {m m' : Metadata} {a : Ret}
    (he : Effect (.commitWrite p w l version confirmed now caller) m (.ok a) m') :
    ∃ ps f res blocks replaced, parts p = .ok ps ∧
      Publishes m ps f w l version confirmed now caller res ∧
      publishSlots f.blocks (confirmedSlots res confirmed) = (blocks, .ok replaced) ∧
      a = .writeCommitted (f.version + 1) replaced ∧
      m'.node ps = some (.file { f with
        blocks, version := f.version + 1, blockSize := res.blockSize }) := by
  cases he with
  | @commitWrite _ _ _ _ _ _ _ _ ps f res blocks replaced hparts hr hpublished =>
      refine ⟨ps, f, res, blocks, replaced, hparts, hr, hpublished, rfl, ?_⟩
      rw [Metadata.node_dropWrite, Metadata.node_setFile, if_pos rfl]
  | setAttrsDir hparts hdir hμ => exact nomatch hμ
  | setAttrsFile hparts hfile hcommitted hμ => exact nomatch hμ

/-- A reservation under the id of a `begin_write` was there before, or all of
    its checks have passed. -/
theorem effect_beginWrite {p w l : String} {version offset length : Int}
    {proposals : List (Int × String × List String)} {now leaseS : Time}
    {default : Int} {caller : Option Caller} {m m' : Metadata}
    {r : Except PyError Ret} {res : WriteReservation}
    (he : Effect (.beginWrite p w l version offset length proposals now leaseS default
      caller) m r m') (hw : m'.write w = some res) :
    m.write w = some res ∨ ∃ ps f, parts p = .ok ps ∧ m'.node = m.node ∧
      Reserves m ps f w l version offset length proposals now leaseS default caller
        res := by
  cases he with
  | @beginWrite _ _ _ _ _ _ _ _ _ _ _ _ ps f r' described hparts hr hdescribed =>
      rw [Metadata.write_setWrite, if_pos rfl] at hw
      obtain rfl := Option.some.inj hw
      exact .inr ⟨ps, f, hparts, (pruned_writeTable m (pathKey ps) now).node, hr⟩
  | @beginWriteLost _ _ _ _ _ _ _ _ _ _ _ _ ps f r' e hparts hr hdescribed =>
      rw [Metadata.write_setWrite, if_pos rfl] at hw
      obtain rfl := Option.some.inj hw
      exact .inr ⟨ps, f, hparts, (pruned_writeTable m (pathKey ps) now).node, hr⟩
  | setAttrsDir hparts hdir hμ => exact nomatch hμ
  | setAttrsFile hparts hfile hcommitted hμ => exact nomatch hμ
  | refused hpruned => exact .inl (hpruned.write w res hw)

/-- The lock that a write requires is held, before anything expires. -/
theorem heldIn_writeTable {m : Metadata} {key l : String} {now : Time}
    (h : holdsWriteLock ((m.writeTable key now).lock key) l = true) :
    HeldIn m key .w l :=
  heldIn_pruned (pruned_writeTable m key now) (heldIn_of_holdsWriteLock h)

/-- The mutation is a commit of a write to `ps`, and it succeeds with this
    version. -/
def CommitsAt (ps : List String) (μ : Mutation) (version : Int)
    (r : Except PyError Ret) : Prop :=
  ∃ p w l base confirmed now caller replaced,
    μ = .commitWrite p w l base confirmed now caller ∧ parts p = .ok ps ∧
    r = .ok (.writeCommitted version replaced)

/-- A commit raises the version of its file by one. -/
theorem commitsAt_version {ps : List String} {μ : Mutation} {version : Int}
    {s : ControlTree} (h : CommitsAt ps μ version (exec μ s).1) :
    ∃ f f', (metadata s).node ps = some (.file f) ∧ f.state = .committed ∧
      version = f.version + 1 ∧
      (metadata (exec μ s).2).node ps = some (.file f') ∧ f'.version = version ∧
      f'.state = .committed := by
  obtain ⟨p, w, l, base, confirmed, now, caller, replaced, rfl, hps, hr⟩ := h
  have he := exec_effect (.commitWrite p w l base confirmed now caller) s
  rw [hr] at he
  obtain ⟨ps', f, res, blocks, replaced', hps', hpub, _, ha, hnode⟩ :=
    effect_commitWrite he
  obtain rfl := Except.ok.inj (hps.symm.trans hps')
  have hversion : version = f.version + 1 := (Ret.writeCommitted.inj ha).1
  exact ⟨f, _, hpub.hfile, hpub.hcommitted, hversion, hnode, hversion.symm,
    hpub.hcommitted⟩

/-- The reservation was planned for a write of `length` bytes at `offset` to a
    file with these blocks. -/
def PlannedFor (res : WriteReservation) (f : FileNode) (offset length : Int)
    (proposals : List (Int × String × List String)) : Prop :=
  res.baseVersion = f.version ∧ ∃ plan,
    planWriteSlots (f.blocks.map BlockRecord.sizeBytes) res.blockSize offset length
      = .ok plan ∧ res.slots = fillSlots plan proposals

/-- The parts of a list without repetitions have nothing in common. -/
theorem flatMap_split {α : Type} {g : Mutation → List α} {pre mid : List Mutation}
    {μ : Mutation} (h : ((pre ++ μ :: mid).flatMap g).Nodup) {x : α} :
    (x ∈ pre.flatMap g → x ∉ g μ ∧ x ∉ mid.flatMap g) ∧
      (x ∈ g μ → x ∉ mid.flatMap g) := by
  rw [List.flatMap_append, List.flatMap_cons] at h
  obtain ⟨_, h₂, h₃⟩ := List.nodup_append.mp h
  refine ⟨fun hx => ⟨?_, ?_⟩, fun hx hx' => ?_⟩
  · exact fun hx' => h₃ x hx x (List.mem_append_left _ hx') rfl
  · exact fun hx' => h₃ x hx x (List.mem_append_right _ hx') rfl
  · exact (List.nodup_append.mp h₂).2.2 x hx x hx' rfl

/-- From the begin that stores a reservation to the commit that publishes it
    the file at its path is the same. -/
theorem same_file_until_commit
    {pre mid : List Mutation} {s₀ s₂ : ControlTree} {p w l p' l' : String}
    {version offset length version' committed : Int}
    {proposals : List (Int × String × List String)} {now leaseS now' : Time}
    {default : Int} {caller caller' : Option Caller}
    {confirmed : List (Int × String × String × Int)} {res : WriteReservation}
    {replaced : List BlockRecord}
    (hpre : controlTree.Run pre s₀)
    (hbegin : (metadata (exec (.beginWrite p w l version offset length proposals now
      leaseS default caller) s₀).2).write w = some res)
    (hmid : controlTree.Path (exec (.beginWrite p w l version offset length proposals
      now leaseS default caller) s₀).2 mid s₂)
    (hcommit : (exec (.commitWrite p' w l' version' confirmed now' caller') s₂).1
      = .ok (.writeCommitted committed replaced))
    (hlocks : ((pre ++ .beginWrite p w l version offset length proposals now leaseS
      default caller :: mid).flatMap acquiredLocks).Nodup)
    (hwrites : ((pre ++ .beginWrite p w l version offset length proposals now leaseS
      default caller :: mid).flatMap begunWrites).Nodup) :
    ∃ ps f₀ f₂ blocks, parts p = .ok ps ∧ parts p' = .ok ps ∧
      Reserves (metadata s₀) ps f₀ w l version offset length proposals now leaseS
        default caller res ∧
      Publishes (metadata s₂) ps f₂ w l' version' confirmed now' caller' res ∧
      publishSlots f₂.blocks (confirmedSlots res confirmed) = (blocks, .ok replaced) ∧
      committed = f₂.version + 1 ∧
      (metadata (exec (.commitWrite p' w l' version' confirmed now' caller') s₂).2).node
        ps = some (.file { f₂ with
          blocks, version := f₂.version + 1, blockSize := res.blockSize }) ∧
      ∀ a b t, mid = a ++ b → controlTree.Path (exec (.beginWrite p w l version offset
          length proposals now leaseS default caller) s₀).2 a t →
        ∃ f, (metadata t).node ps = some (.file f) ∧ SameFile f₀ f := by
  generalize hs₁ : (exec (.beginWrite p w l version offset length proposals now leaseS
    default caller) s₀).2 = s₁ at hbegin hmid ⊢
  generalize hs₃ : (exec (.commitWrite p' w l' version' confirmed now' caller') s₂).2
    = s₃
  have hknown := known_run hpre
  -- what the begin has checked
  have hfresh : (metadata s₀).write w ≠ some res := by
    intro hw
    have := (flatMap_split hwrites).1 (hknown.writes w res hw)
    exact absurd (List.mem_singleton.mpr rfl) this.1
  have hebegin := exec_effect (.beginWrite p w l version offset length proposals now
    leaseS default caller) s₀
  rw [hs₁] at hebegin
  obtain ⟨ps, f₀, hps, hnode₁, hreserves⟩ :=
    (effect_beginWrite hebegin hbegin).resolve_left hfresh
  have hfile₁ : (metadata s₁).node ps = some (.file f₀) := by
    rw [hnode₁]
    exact hreserves.hfile
  -- what the commit has checked
  have hecommit := exec_effect (.commitWrite p' w l' version' confirmed now' caller') s₂
  rw [hcommit, hs₃] at hecommit
  obtain ⟨ps', f₂, res', blocks, replaced', hps', hpub, hblocks, ha, hnode₃⟩ :=
    effect_commitWrite hecommit
  have hw₂ := reserved_path hmid ((flatMap_split hwrites).2 (List.mem_singleton.mpr rfl))
    hpub.hreserved
  obtain rfl : res = res' := Option.some.inj (hbegin.symm.trans hw₂)
  have hkey : pathKey ps = pathKey ps' := hreserves.hpath.symm.trans hpub.hpath
  obtain rfl := pathKey_inj (cleanName_of_parts hps) (cleanName_of_parts hps') hkey
  obtain rfl : l = l' := hreserves.hlock.symm.trans hpub.hlock
  obtain ⟨hcommitted, rfl⟩ := Ret.writeCommitted.inj ha
  refine ⟨ps, f₀, f₂, blocks, hps, hps', hreserves, hpub, hblocks, hcommitted, hnode₃,
    ?_⟩
  -- the lock is held from one to the other
  have hnew : l ∉ mid.flatMap acquiredLocks :=
    ((flatMap_split hlocks).1 (hknown.locks _ _ _
      (heldIn_writeTable hreserves.hlocked))).2
  have hheld₂ := heldIn_writeTable hpub.hlocked
  rintro a b t rfl hat
  obtain ⟨t', hat', htb⟩ := hmid.split
  obtain rfl := path_unique hat hat'
  rw [List.flatMap_append, List.mem_append, not_or] at hnew
  have hheldt := heldIn_path htb hnew.2 hheld₂
  obtain ⟨f, hf, hstate, hor⟩ := later_path_locked hat hnew.1 hheldt hfile₁
    hreserves.hcommitted
  have hle := (later_path_locked htb hnew.2 hheld₂ hf hstate).version_le hpub.hfile
  refine ⟨f, hf, hor.resolve_right ?_⟩
  rw [hpub.hversion, hreserves.hbase] at hle
  exact not_lt.mpr hle

/-- **NO PUBLISHED WRITE IS LOST.**  When the commit of a reservation
    succeeds, the file is, up to the addresses of its replicas, the one the
    reservation was planned for, and it was so in every state since the
    reservation began: no other write to it committed and it was not removed.
    The version grows by one, and as long as the file stays every later commit
    has a later version. -/
theorem commit_publishes_over_the_planned_file
    {pre mid : List Mutation} {s₀ s₂ : ControlTree} {start finish : Mutation}
    {p w l p' l' : String} {version offset length version' committed : Int}
    {proposals : List (Int × String × List String)} {now leaseS now' : Time}
    {default : Int} {caller caller' : Option Caller}
    {confirmed : List (Int × String × String × Int)} {res : WriteReservation}
    {replaced : List BlockRecord}
    (hstart : start = .beginWrite p w l version offset length proposals now leaseS
      default caller)
    (hfinish : finish = .commitWrite p' w l' version' confirmed now' caller')
    (hpre : controlTree.Run pre s₀)
    (hbegin : (exec start s₀).2.writes.get? w = some res)
    (hmid : controlTree.Path (exec start s₀).2 mid s₂)
    (hcommit : (exec finish s₂).1 = .ok (.writeCommitted committed replaced))
    (hlocks : ((pre ++ start :: mid).flatMap acquiredLocks).Nodup)
    (hwrites : ((pre ++ start :: mid).flatMap begunWrites).Nodup) :
    ∃ ps f₀ f₂ f₃, parts p = .ok ps ∧ parts p' = .ok ps ∧
      s₀.root.view ps = some (.file f₀) ∧ f₀.state = .committed ∧
      PlannedFor res f₀ offset length proposals ∧
      s₂.root.view ps = some (.file f₂) ∧ SameFile f₀ f₂ ∧
      (∀ a b t, mid = a ++ b → controlTree.Path (exec start s₀).2 a t →
        ∃ f, t.root.view ps = some (.file f) ∧ SameFile f₀ f) ∧
      (∀ a μ b t v, mid = a ++ μ :: b → controlTree.Path (exec start s₀).2 a t →
        ¬ CommitsAt ps μ v (exec μ t).1) ∧
      (exec finish s₂).2.root.view ps = some (.file f₃) ∧
      committed = f₀.version + 1 ∧ f₃.version = f₀.version + 1 ∧
      ∀ more s₄ μ v, controlTree.Path (exec finish s₂).2 more s₄ →
        (∀ a b t, more = a ++ b → controlTree.Path (exec finish s₂).2 a t →
          t.root.view ps ≠ none) →
        CommitsAt ps μ v (exec μ s₄).1 → committed < v := by
  subst hstart hfinish
  obtain ⟨ps, f₀, f₂, blocks, hps, hps', hreserves, hpub, _, hcommitted₂, hnode₃, hsame⟩ :=
    same_file_until_commit hpre hbegin hmid hcommit hlocks hwrites
  obtain ⟨f₂', hf₂', hsame₂⟩ := hsame mid [] s₂ (List.append_nil _).symm hmid
  obtain rfl : f₂ = f₂' := Entry.file.inj (Option.some.inj (hpub.hfile.symm.trans hf₂'))
  have hcommitted : committed = f₀.version + 1 := by
    rw [hcommitted₂, hsame₂.version]
  refine ⟨ps, f₀, f₂, _, hps, hps', hreserves.hfile, hreserves.hcommitted, ?_,
    hpub.hfile, hsame₂, hsame, ?_, hnode₃, hcommitted, ?_, ?_⟩
  · obtain ⟨plan, hplan, _, hslots⟩ := hreserves.hplan
    rw [← hreserves.hblockSize] at hplan
    exact ⟨hreserves.hbase, plan, hplan, hslots⟩
  · rintro a μ b t v rfl hat hcommits
    obtain ⟨f, f', hf, _, hv, hf', hversion', _⟩ := commitsAt_version hcommits
    obtain ⟨ft, hft, hsamet⟩ := hsame a (μ :: b) t rfl hat
    obtain ⟨ft', hft', hsamet'⟩ := hsame (a ++ [μ]) b (exec μ t).2 (by simp)
      (hat.next (step_exec t μ))
    obtain rfl := Entry.file.inj (Option.some.inj (hf.symm.trans hft))
    obtain rfl := Entry.file.inj (Option.some.inj (hf'.symm.trans hft'))
    have h₁ := hsamet.version
    have h₂ := hsamet'.version
    omega
  · show f₂.version + 1 = f₀.version + 1
    rw [hsame₂.version]
  · intro more s₄ μ v hmore hthere hcommits
    obtain ⟨f₄, _, hf₄, _, hv, _⟩ := commitsAt_version hcommits
    have hle := (later_path_present hmore hnode₃ hpub.hcommitted hthere).version_le hf₄
    have hle' : f₂.version + 1 ≤ f₄.version := hle
    have h₂ := hsame₂.version
    omega

/-- A file of one full block, and the exclusive lock on it. -/
def lockedFile : List Mutation :=
  [.beginUpload "/f" [("b1", ["n1"])] none none (some 4) none,
   .confirmBlock "/f" "b1" "c1" 4 none none none,
   .completeUpload "/f" none,
   .acquireLock "/f" "L" "ana" "w" 0 60 none]

/-- A write of four bytes in the middle of the block. -/
def lockedWrite : Mutation :=
  .beginWrite "/f" "w1" "L" 0 2 4 [(0, "b2", ["n1"]), (1, "b3", ["n1"])] 1 60 4 none

def lockedState : ControlTree :=
  lockedFile.foldl (fun s μ => (exec μ s).2) ControlTree.empty

def lockedCommit : Mutation :=
  .commitWrite "/f" "w1" "L" 0 [(0, "b2", "c2", 4), (1, "b3", "c3", 2)] 2 none

/-- The replicas of the old block have moved in the meantime. -/
def movedState : ControlTree :=
  (exec (.updateBlockReplicas "/f" "b1" ["n1"] ["n2"])
    (exec lockedWrite lockedState).2).2

/-- The write commits although the replicas of the old block have moved. -/
theorem commit_publishes_over_the_planned_file_moved :
    ∃ f₀, lockedState.root.view ["f"] = some (.file f₀) ∧ (1 : Int) = f₀.version + 1 := by
  have hres : ((exec lockedWrite lockedState).2.writes.get? "w1").isSome = true := by
    decide +kernel
  obtain ⟨res, hbegin⟩ := Option.isSome_iff_exists.mp hres
  have hcommit : (exec lockedCommit movedState).1
      = .ok (.writeCommitted 1 [⟨"b1", ["n2"], "c1", 4, true⟩]) := by decide +kernel
  obtain ⟨ps, f₀, _, _, hps, _, hf₀, _, _, _, _, _, _, _, hversion, _⟩ :=
    commit_publishes_over_the_planned_file rfl rfl
      ⟨_, rfl, path_foldl ControlTree.empty lockedFile⟩ hbegin
      (Path.one (step_exec _ (.updateBlockReplicas "/f" "b1" ["n1"] ["n2"])))
      hcommit (by decide) (by decide)
  have hnames : parts "/f" = .ok ["f"] := by decide
  obtain rfl : ["f"] = ps := Except.ok.inj (hnames.symm.trans hps)
  exact ⟨f₀, hf₀, hversion⟩

end DfshaWriteReservation
