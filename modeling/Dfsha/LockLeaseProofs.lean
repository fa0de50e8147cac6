import Dfsha.LockTableProofs

/-! # The lease of a lock

    A reader lists the blocks of a file under a shared lock and reads them
    afterwards, so nobody may replace that version, remove the file or delete
    a directory above it while the lease runs.  Expiry is decided by the time
    that a command carries, and those times come from different leaders: what
    counts is that every one of them is before the expiry that the lock has
    when the command is applied.

    While the lock is held the file is there, and only one step changes what
    it has: a commit under that very lock, and an exclusive one. -/

namespace DfshaLockLease

open InsertionDict NamedTree TransitionSystem TransitionSystem.System
open DfshaPath DfshaControlTree DfshaMetadata DfshaWriteReservation DfshaBlockLayout
open DfshaLockTable

/-! ## A lock stays held -/

/-- `l` is held on a key in this mode, with some expiry. -/
def HeldUntil (m : Metadata) (key l : String) (mode : LockMode) (expiry : Time) : Prop :=
  ∃ st owner, m.lock key = some st ∧ st.mode = mode ∧
    st.holders.get? l = some (owner, expiry)

section Held

variable {μ : Mutation} {m m' : Metadata} {r : Except PyError Ret} {key key' l : String}
  {mode : LockMode} {expiry : Time}

theorem heldUntil_pruned {now : Option Time} (hp : Pruned now m m')
    (hheld : HeldUntil m key l mode expiry) (hnow : ∀ t, now = some t → t < expiry) :
    HeldUntil m' key l mode expiry := by
  obtain ⟨st, owner, hst, hmode, hl⟩ := hheld
  obtain ⟨st', hst', hl'⟩ := hp.lockAlive key st l (owner, expiry) hst hl hnow
  obtain ⟨st₀, hst₀, hmode', _⟩ := hp.lock key st' hst'
  rw [hst] at hst₀
  obtain rfl := Option.some.inj hst₀
  exact ⟨st', owner, hst', hmode'.trans hmode, hl'⟩

theorem heldUntil_congr (hlock : m'.lock = m.lock) (h : HeldUntil m key l mode expiry) :
    HeldUntil m' key l mode expiry := by
  unfold HeldUntil at h ⊢
  rw [hlock]
  exact h

/-- An entry stored for a key keeps the holders of the other keys. -/
theorem heldUntil_setLock {st' : LockState} (hheld : HeldUntil m key l mode expiry)
    (hnew : key = key' → st'.mode = mode ∧ ∃ owner expiry',
      st'.holders.get? l = some (owner, expiry')) :
    ∃ expiry', HeldUntil (m.setLock key' st') key l mode expiry' := by
  by_cases hk : key = key'
  · obtain ⟨hmode, owner, expiry', hl⟩ := hnew hk
    exact ⟨expiry', st', owner, by rw [Metadata.lock_setLock, if_pos hk], hmode, hl⟩
  · obtain ⟨st, owner, hst, hmode, hl⟩ := hheld
    exact ⟨expiry, st, owner, by rw [Metadata.lock_setLock, if_neg hk]; exact hst, hmode, hl⟩

/-- **A LOCK WHOSE LEASE RUNS STAYS HELD** through every step that does not
    release it; a renewal may move its expiry. -/
theorem heldUntil_effect (he : Effect μ m r m') (hheld : HeldUntil m key l mode expiry)
    (htime : ∀ t, timeOf μ = some t → t < expiry)
    (hkeep : ∀ p ps now, μ = .releaseLock p l now → parts p = .ok ps → pathKey ps ≠ key) :
    ∃ expiry', HeldUntil m' key l mode expiry' := by
  have halive : ∀ k {now}, timeOf μ = now →
      HeldUntil (m.aliveLocks k now) key l mode expiry := fun _ _ hnow =>
    heldUntil_pruned (pruned_aliveLocks _ _ _) hheld fun t ht => htime t (hnow.trans ht)
  cases he with
  | makeDir | removeDir | beginUpload | confirmBlock | completeUpload | abortUpload
  | updateBlockReplicas | createUser | changePassword | setAttrsDir | setAttrsFile =>
      exact ⟨expiry, heldUntil_congr rfl hheld⟩
  | removeFile | releaseGone => exact ⟨expiry, heldUntil_congr rfl (halive _ rfl)⟩
  | acquireLock hparts hmode hlease hfile hcommitted hallowed hfree =>
      refine heldUntil_setLock (halive _ rfl) ?_
      rintro rfl
      obtain ⟨st, owner, hst, _⟩ := halive _ rfl
      exact nomatch hfree.symm.trans hst
  | joinLock hparts hmode hlease hfile hcommitted hallowed hshared hread hnew =>
      refine heldUntil_setLock (halive _ rfl) ?_
      rintro rfl
      obtain ⟨st, owner, hst, hm, hl⟩ := halive _ rfl
      obtain rfl := Option.some.inj (hshared.symm.trans hst)
      refine ⟨hm, owner, expiry, ?_⟩
      rw [Dict.get?_insert_ne]
      · exact hl
      · rintro rfl
        rw [hnew] at hl
        exact nomatch hl
  | @renewLock _ p l' now leaseS ps f st h hparts hlease hfile hcommitted hlocked
      hheld' =>
      refine heldUntil_setLock (halive _ rfl) ?_
      rintro rfl
      obtain ⟨st, owner, hst, hm, hl⟩ := halive _ rfl
      obtain rfl := Option.some.inj (hlocked.symm.trans hst)
      refine ⟨hm, ?_⟩
      by_cases hk : l = l'
      · exact ⟨h.1, now + leaseS, by rw [Dict.get?_insert, if_pos hk]⟩
      · exact ⟨owner, expiry, by rw [Dict.get?_insert_ne _ _ hk]; exact hl⟩
  | @releaseLock _ p l' now ps f st hparts hfile hcommitted hlocked hheld' hmore =>
      refine heldUntil_setLock (halive _ rfl) ?_
      rintro rfl
      obtain ⟨st, owner, hst, hm, hl⟩ := halive _ rfl
      obtain rfl := Option.some.inj (hlocked.symm.trans hst)
      refine ⟨hm, owner, expiry, ?_⟩
      rw [Dict.get?_erase_ne]
      · exact hl
      · rintro rfl
        exact hkeep p ps now rfl hparts rfl
  | @releaseLast _ p l' now ps f st hparts hfile hcommitted hlocked hheld' hlast =>
      obtain ⟨st', owner, hst, hm, hl⟩ := halive (pathKey ps) rfl
      by_cases hk : key = pathKey ps
      · subst hk
        obtain rfl := Option.some.inj (hlocked.symm.trans hst)
        have hne : l ≠ l' := by
          rintro rfl
          exact hkeep p ps now rfl hparts rfl
        have hnone := Dict.get?_of_isEmpty hlast l
        rw [Dict.get?_erase_ne _ hne, hl] at hnone
        exact nomatch hnone
      · exact ⟨expiry, st', owner, by rw [Metadata.lock_dropLock, if_neg hk]; exact hst, hm,
          hl⟩
  | beginWrite | beginWriteLost | commitWrite =>
      exact ⟨expiry, heldUntil_congr (m := m.writeTable _ _) rfl
        (heldUntil_pruned (pruned_writeTable _ _ _) hheld htime)⟩
  | abortWrite | abortGone =>
      exact ⟨expiry, heldUntil_congr (m := m.aliveWrites _) rfl
        (heldUntil_pruned (pruned_aliveWrites _ _) hheld htime)⟩
  | refused hpruned => exact ⟨expiry, heldUntil_pruned hpruned hheld htime⟩

end Held

/-! ## The file under the lock -/

/-- The same version of the same file: only the addresses of its replicas and
    its owner, group and mode may differ. -/
def SameVersion (f f' : FileNode) : Prop :=
  f' = { f with blocks := f'.blocks, attrs := f'.attrs } ∧ content f' = content f

theorem sameVersion_of_same {f f' : FileNode} (h : SameFile f f')
    (hlease : f'.leaseExpiresAt = f.leaseExpiresAt) : SameVersion f f' := by
  refine ⟨?_, h.content⟩
  obtain ⟨hstate, _, hversion, hblockSize⟩ := h
  cases f
  cases f'
  dsimp only at hstate hversion hblockSize hlease
  rw [hstate, hversion, hblockSize, hlease]

theorem SameVersion.refl (f : FileNode) : SameVersion f f := ⟨rfl, rfl⟩

theorem SameVersion.trans {f₁ f₂ f₃ : FileNode} (h : SameVersion f₁ f₂)
    (h' : SameVersion f₂ f₃) : SameVersion f₁ f₃ := by
  refine ⟨?_, h'.2.trans h.2⟩
  rw [h'.1, h.1]

/-- The mutation is a commit of a write to `ps` that presents `l`. -/
def CommitsUnder (ps : List String) (l : String) (μ : Mutation) : Prop :=
  ∃ p w version confirmed now caller,
    μ = .commitWrite p w l version confirmed now caller ∧ parts p = .ok ps

section File

variable {μ : Mutation} {m m' : Metadata} {r : Except PyError Ret} {ps : List String}
  {f : FileNode} {l : String} {mode : LockMode} {expiry : Time}

/-- The lock that a commit presents is the only one on the path. -/
theorem commitsUnder_of_publishes {w l' : String} {version : Int}
    {confirmed : List (Int × String × String × Int)} {now : Time}
    {caller : Option Caller} {res : WriteReservation} (h : TablesInv m)
    (hheld : HeldUntil m (pathKey ps) l mode expiry)
    (hr : Publishes m ps f w l' version confirmed now caller res) : mode = .w ∧ l = l' := by
  obtain ⟨st, owner, hst, hmode, hl⟩ := hheld
  obtain ⟨st', h', hst', hw, hl'⟩ := heldIn_writeTable hr.hlocked
  rw [hst] at hst'
  obtain rfl := Option.some.inj hst'
  exact ⟨hmode.symm.trans hw, h.exclusive _ st hst hw l l' _ _ hl hl'⟩

/-- **ONE STEP UNDER A LOCK** leaves the version of the file as it is, or
    commits a write under that lock. -/
theorem lockedStep (h : TablesInv m) (he : Effect μ m r m')
    (hfile : m.node ps = some (.file f)) (hstate : f.state = .committed)
    (hheld : HeldUntil m (pathKey ps) l mode expiry)
    (hheld' : ∃ expiry', HeldUntil m' (pathKey ps) l mode expiry') :
    ∃ f', m'.node ps = some (.file f') ∧ f'.state = .committed ∧
      (SameVersion f f' ∨ mode = .w ∧ CommitsUnder ps l μ) := by
  cases committedStep_effect he hfile hstate with
  | kept f' hfile' hsame hlease =>
      exact ⟨f', hfile', hsame.state.trans hstate, .inl (sameVersion_of_same hsame hlease)⟩
  | published f' p w l' version confirmed now caller replaced hμ hparts hr hfile' hstate'
      hversion =>
      refine ⟨f', hfile', hstate', .inr ?_⟩
      subst hμ hr
      obtain ⟨ps', f₁, res, _, _, hparts', hpub, _⟩ := effect_commitWrite he
      obtain rfl := Except.ok.inj (hparts.symm.trans hparts')
      obtain ⟨hw, rfl⟩ := commitsUnder_of_publishes h hheld hpub
      exact ⟨hw, p, w, version, confirmed, now, caller, rfl, hparts⟩
  | removed p now caller hμ hparts hnone hunlocked =>
      obtain ⟨expiry', st, owner, hst, _⟩ := hheld'
      rw [hunlocked] at hst
      exact nomatch hst

end File

/-! ## Runs -/

/-- The command carries a time before the expiry that the lock has, if it
    carries one, and does not release the lock. -/
def WithinLease (key l : String) (s : ControlTree) (μ : Mutation) : Prop :=
  (∀ st owner expiry t, s.locks.get? key = some st →
    st.holders.get? l = some (owner, expiry) → timeOf μ = some t → t < expiry) ∧
  ∀ p now, μ = .releaseLock p l now → canonicalPath p ≠ .ok key

section Runs

variable {ps : List String} {l : String} {mode : LockMode} {s s' : ControlTree}
  {μs : List Mutation}

/-- What holds all along the lease. -/
structure Protected (ps : List String) (l : String) (mode : LockMode)
    (s : ControlTree) : Prop where
  tables : TablesInv (metadata s)
  held : ∃ expiry, HeldUntil (metadata s) (pathKey ps) l mode expiry
  file : ∃ f, s.root.view ps = some (.file f) ∧ f.state = .committed

theorem protected_step {μ : Mutation} (h : Protected ps l mode s)
    (hstep : (controlTree.guarded (WithinLease (pathKey ps) l)).step s μ s') :
    Protected ps l mode s' ∧ ∃ f f', s.root.view ps = some (.file f) ∧
      s'.root.view ps = some (.file f') ∧
      (SameVersion f f' ∨ mode = .w ∧ CommitsUnder ps l μ) := by
  obtain ⟨⟨htime, hkeep⟩, hnext⟩ := hstep
  obtain ⟨expiry, hheld⟩ := h.held
  obtain ⟨f, hfile, hstate⟩ := h.file
  have he := step_effect hnext
  have hheld' : ∃ expiry', HeldUntil (metadata s') (pathKey ps) l mode expiry' := by
    refine heldUntil_effect he hheld ?_ ?_
    · obtain ⟨st, owner, hst, _, hl⟩ := hheld
      exact fun t ht => htime st owner expiry t hst hl ht
    · intro p ps' now hμ hparts hkey
      refine hkeep p now hμ ?_
      rw [canonicalPath, hparts, ← hkey]
      rfl
  obtain ⟨f', hfile', hstate', hor⟩ := lockedStep h.tables he hfile hstate hheld hheld'
  exact ⟨⟨tablesInv_step h.tables he, hheld', f', hfile', hstate'⟩, f, f', hfile, hfile',
    hor⟩

theorem protected_path (h : Protected ps l mode s)
    (hpath : (controlTree.guarded (WithinLease (pathKey ps) l)).Path s μs s') :
    Protected ps l mode s' :=
  hpath.keeps h fun _ _ _ hprotected hstep => (protected_step hprotected hstep).1

/-- Without a commit under the lock the version stays the same. -/
theorem sameVersion_path {f : FileNode} (h : Protected ps l mode s)
    (hpath : (controlTree.guarded (WithinLease (pathKey ps) l)).Path s μs s')
    (hfile : s.root.view ps = some (.file f))
    (hnone : ∀ μ ∈ μs, ¬ (mode = .w ∧ CommitsUnder ps l μ)) :
    ∃ f', s'.root.view ps = some (.file f') ∧ SameVersion f f' := by
  induction hpath with
  | start => exact ⟨f, hfile, .refl f⟩
  | next hpre hstep ih =>
      obtain ⟨f₁, hfile₁, hsame⟩ := ih fun μ hμ => hnone μ (List.mem_append_left _ hμ)
      obtain ⟨_, f₁', f', hfile₁', hfile', hor⟩ :=
        protected_step (protected_path h hpre) hstep
      obtain rfl := Entry.file.inj (Option.some.inj (hfile₁.symm.trans hfile₁'))
      have hlast := hnone _ (List.mem_append_right _ (List.mem_singleton.mpr rfl))
      exact ⟨f', hfile', hsame.trans (hor.resolve_right hlast)⟩

end Runs

/-- **A LEASE KEEPS THE VERSION.**  From any reachable state in which `l` is
    held on a path, through any commands whose times are before the expiry it
    has and that do not release it, the path leads to a committed file; a step
    changes its version only if it commits a write under `l`, an exclusive
    lock, and without such a step the version at the end is the first one. -/
theorem lease_keeps_the_version {pre μs : List Mutation} {s s' : ControlTree}
    {p l owner : String} {ps : List String} {st : LockState} {expiry : Time}
    (hrun : controlTree.Run pre s) (hparts : parts p = .ok ps)
    (hlock : s.locks.get? (pathKey ps) = some st)
    (hheld : st.holders.get? l = some (owner, expiry))
    (hpath : (controlTree.guarded (WithinLease (pathKey ps) l)).Path s μs s') :
    ∃ f f', s.root.view ps = some (.file f) ∧ f.state = .committed ∧
      s'.root.view ps = some (.file f') ∧ f'.state = .committed ∧
      (∀ a μ b t t', μs = a ++ μ :: b →
        (controlTree.guarded (WithinLease (pathKey ps) l)).Path s a t →
        (controlTree.guarded (WithinLease (pathKey ps) l)).step t μ t' →
        ¬ (st.mode = .w ∧ CommitsUnder ps l μ) →
        ∃ g g', t.root.view ps = some (.file g) ∧ t'.root.view ps = some (.file g') ∧
          SameVersion g g') ∧
      ((∀ μ ∈ μs, ¬ (st.mode = .w ∧ CommitsUnder ps l μ)) → SameVersion f f') := by
  have htables := tablesInv_run hrun
  obtain ⟨p', ps', f, hparts', hkey, hfile, hstate⟩ := htables.locked _ st hlock
  obtain rfl := pathKey_inj (cleanName_of_parts hparts) (cleanName_of_parts hparts') hkey
  have h : Protected ps l st.mode s :=
    ⟨htables, ⟨expiry, st, owner, hlock, rfl, hheld⟩, f, hfile, hstate⟩
  obtain ⟨f', hfile', hstate'⟩ := (protected_path h hpath).file
  refine ⟨f, f', hfile, hstate, hfile', hstate', ?_, ?_⟩
  · rintro a μ b t t' rfl hat hstep hnone
    obtain ⟨_, g, g', hg, hg', hor⟩ := protected_step (protected_path h hat) hstep
    exact ⟨g, g', hg, hg', hor.resolve_right hnone⟩
  · intro hnone
    obtain ⟨f'', hf'', hsame⟩ := sameVersion_path h hpath hfile hnone
    obtain rfl := Entry.file.inj (Option.some.inj (hfile'.symm.trans hf''))
    exact hsame

/-- A file, and a shared lock on it until second 60. -/
def readFile : List Mutation :=
  [.beginUpload "/f" [("b1", ["n1"])] none none (some 4) none,
   .confirmBlock "/f" "b1" "c1" 4 none none none,
   .completeUpload "/f" none,
   .acquireLock "/f" "L" "ana" "r" 0 60 none]

def readState : ControlTree := readFile.foldl (fun s μ => (exec μ s).2) ControlTree.empty

/-- The removal of the file at second 59 leaves it to the reader. -/
theorem lease_keeps_the_version_removal :
    ∃ f f', readState.root.view ["f"] = some (.file f) ∧
      (exec (.removeFile "/f" (some 59) none) readState).2.root.view ["f"]
        = some (.file f') ∧ SameVersion f f' := by
  have hentry : (readState.locks.get? "/f").map (fun st => (st.mode, st.holders.get? "L"))
      = some (.r, some ("ana", 60)) := by decide +kernel
  obtain ⟨st, hlock, hst⟩ := Option.map_eq_some_iff.mp hentry
  obtain ⟨hmode, hheld⟩ := Prod.mk.inj hst
  have hwithin : WithinLease (pathKey ["f"]) "L" readState
      (.removeFile "/f" (some 59) none) := by
    refine ⟨?_, fun p now hμ => nomatch hμ⟩
    intro st' owner expiry t hst' hl ht
    obtain rfl := Option.some.inj (hlock.symm.trans hst')
    obtain ⟨_, rfl⟩ := Prod.mk.inj (Option.some.inj (hheld.symm.trans hl))
    obtain rfl := Option.some.inj ht
    decide +kernel
  obtain ⟨f, f', hfile, _, hfile', _, _, hsame⟩ := lease_keeps_the_version
    ⟨_, rfl, path_foldl ControlTree.empty readFile⟩ (show parts "/f" = .ok ["f"] by decide)
    hlock hheld (Path.one ⟨hwithin, step_exec readState _⟩)
  refine ⟨f, f', hfile, hfile', hsame fun μ _ hw => ?_⟩
  rw [hmode] at hw
  exact nomatch hw.1

end DfshaLockLease
