import Dfsha.ListingProofs
import Dfsha.WriteReservationProofs

/-! # A pending upload

    A slow client keeps the name it is uploading to.  Its pending file can be
    replaced only by an upload that carries a time at or after the end of its
    lease, and it can be confirmed, completed or aborted only by who began it,
    by an admin, or by a command without identity.  Everything else behaves as
    if nothing were there. -/

namespace DfshaPendingUpload

open InsertionDict NamedTree TransitionSystem TransitionSystem.System
open DfshaPath DfshaControlTree DfshaMetadata DfshaControlTreeEffect
open DfshaWriteReservation DfshaListing

/-! ## One step -/

/-- A command on the path comes from another user, who is not an admin, and a
    new upload to it carries a time before the end of the lease, if there is a
    lease. -/
structure Spares (ps : List String) (u : String) (f : FileNode) (μ : Mutation) : Prop where
  others : ∀ p caller, pathOf μ = some p → parts p = .ok ps → callerOf μ = some caller →
    ∃ c, caller = some c ∧ c.isAdmin = false ∧ c.username ≠ u
  lease : ∀ p placements now leaseS blockSize caller,
    μ = .beginUpload p placements (some now) leaseS blockSize caller → parts p = .ok ps →
    f.leaseExpiresAt ≤ 0 ∨ now < f.leaseExpiresAt

section Step

variable {μ : Mutation} {m m' : Metadata} {r : Except PyError Ret} {ps ps' : List String}
  {f f' : FileNode} {u : String}

theorem leaseExpired_false {now : Option Time}
    (h : ∀ t, now = some t → f.leaseExpiresAt ≤ 0 ∨ t < f.leaseExpiresAt) :
    leaseExpired f now = false := by
  cases now with
  | none => rfl
  | some t =>
      rw [leaseExpired, decide_eq_false_iff_not]
      rintro ⟨hpos, hle⟩
      rcases h t rfl with hnone | hlt
      · exact absurd hpos (not_lt.mpr hnone)
      · exact absurd hle (not_le.mpr hlt)

/-- Another user has no rights over the upload. -/
theorem not_owner {caller : Option Caller} (howner : f.attrs.owner = u)
    (h : ∃ c, caller = some c ∧ c.isAdmin = false ∧ c.username ≠ u) :
    ownerOrAdmin f.attrs caller ≠ true := by
  obtain ⟨c, rfl, hadmin, hne⟩ := h
  rw [ownerOrAdmin, hadmin, howner, Bool.false_or, ne_eq, decide_eq_true_eq]
  exact hne

theorem eq_of_node (h : m.node ps = some (.file f)) (h' : m.node ps = some (.file f')) :
    f = f' := Entry.file.inj (Option.some.inj (h.symm.trans h'))

/-- A pending file is not the committed one of the step. -/
theorem ne_of_committed (hfile : m.node ps = some (.file f)) (hpending : f.state = .pending)
    (hfile' : m.node ps' = some (.file f')) (hcommitted : f'.state = .committed) :
    ps ≠ ps' := by
  rintro rfl
  rw [eq_of_node hfile hfile', hcommitted] at hpending
  exact nomatch hpending

theorem ne_of_dir {d : NodeAttrs} (hfile : m.node ps = some (.file f))
    (hdir : m.node ps' = some (.dir d)) : ps ≠ ps' := by
  rintro rfl
  rw [hfile] at hdir
  exact nomatch hdir

/-- What a step can do to a pending file: nothing, or what its own upload asks
    for, or a new upload takes the name when the lease has run out. -/
inductive PendingStep (μ : Mutation) (r : Except PyError Ret) (m' : Metadata)
    (ps : List String) (f : FileNode) : Prop
  | kept (hfile' : m'.node ps = some (.file f))
  | confirmed (f' : FileNode) (p b sum : String) (size : Int) (now leaseS : Option Time)
      (caller : Option Caller) (hμ : μ = .confirmBlock p b sum size now leaseS caller)
      (hparts : parts p = .ok ps) (howner : ownerOrAdmin f.attrs caller = true)
      (hfile' : m'.node ps = some (.file f')) (hstate : f'.state = .pending)
      (hblocks : updateBlock b
        (fun b => { b with checksum := sum, sizeBytes := size, confirmed := true })
        f.blocks = some f'.blocks)
  | completed (p : String) (caller : Option Caller) (hμ : μ = .completeUpload p caller)
      (hr : r = .ok .none) (hparts : parts p = .ok ps)
      (howner : ownerOrAdmin f.attrs caller = true)
  | aborted (p : String) (caller : Option Caller) (hμ : μ = .abortUpload p caller)
      (hr : r = .ok .none) (hparts : parts p = .ok ps)
      (howner : ownerOrAdmin f.attrs caller = true)
  | replaced (p : String) (placements : List (String × List String))
      (now leaseS : Option Time) (blockSize : Option Int) (caller : Option Caller)
      (hμ : μ = .beginUpload p placements now leaseS blockSize caller)
      (hr : r = .ok (.uploadBegun placements f.blocks)) (hparts : parts p = .ok ps)
      (hexpired : leaseExpired f now = true)

/-- The step leaves the node as it is. -/
theorem pendingStep_other (hfile : m.node ps = some (.file f))
    (hnode : m'.node ps = m.node ps) : PendingStep μ r m' ps f := .kept (hnode.trans hfile)

/-- **A PENDING FILE IS TOUCHED BY UPLOADS ONLY.** -/
theorem pendingStep_effect (he : Effect μ m r m') (hfile : m.node ps = some (.file f))
    (hpending : f.state = .pending) : PendingStep μ r m' ps f := by
  cases he with
  | makeDir hparts hne hparent hallowed hfree =>
      refine pendingStep_other hfile ?_
      rw [Metadata.node_setNode, if_neg]
      rintro rfl
      rw [hfile] at hfree
      exact nomatch hfree
  | removeDir hparts hne hparent hallowed hdir hempty =>
      refine pendingStep_other hfile ?_
      rw [Metadata.node_dropNode, if_neg (ne_of_dir hfile hdir)]
  | removeFile hparts hne hparent hallowed hfile' hcommitted hunlocked =>
      refine pendingStep_other hfile ?_
      rw [Metadata.node_dropNode, if_neg (ne_of_committed hfile hpending hfile' hcommitted),
        Metadata.node_aliveLocks]
  | @beginUpload _ p placements now leaseS blockSize caller ps' stale hparts hne hallowed
      hfree =>
      by_cases hps : ps = ps'
      · subst hps
        rcases hfree with ⟨hnone, _⟩ | ⟨f', hf', _, hexpired, rfl⟩
        · rw [hfile] at hnone
          exact nomatch hnone
        · obtain rfl := eq_of_node hfile hf'
          exact .replaced p placements now leaseS blockSize caller rfl rfl hparts hexpired
      · refine .kept ?_
        rw [Metadata.node_setFile, if_neg hps]
        show (if _ ∧ m.node ps = none then _ else m.node ps) = _
        rw [hfile]
        exact if_neg fun h => nomatch h.2
  | @confirmBlock _ p b sum size now leaseS caller ps' f' blocks hparts hfile' hpending'
      howner' hblocks =>
      by_cases hps : ps = ps'
      · subst hps
        obtain rfl := eq_of_node hfile hfile'
        exact .confirmed { f with
            blocks
            leaseExpiresAt := (leaseEnd now leaseS).getD f.leaseExpiresAt }
          p b sum size now leaseS caller rfl hparts howner'
          ((Metadata.node_setFile _ _ _).trans (if_pos rfl)) hpending hblocks
      · refine pendingStep_other hfile ?_
        rw [Metadata.node_setFile, if_neg hps]
  | @completeUpload _ p caller ps' f' hparts hfile' hpending' howner' hconfirmed =>
      by_cases hps : ps = ps'
      · subst hps
        obtain rfl := eq_of_node hfile hfile'
        exact .completed p caller rfl rfl hparts howner'
      · refine pendingStep_other hfile ?_
        rw [Metadata.node_setFile, if_neg hps]
  | @abortUpload _ p caller ps' f' hparts hne hfile' hpending' howner' =>
      by_cases hps : ps = ps'
      · subst hps
        obtain rfl := eq_of_node hfile hfile'
        exact .aborted p caller rfl rfl hparts howner'
      · refine pendingStep_other hfile ?_
        rw [Metadata.node_dropNode, if_neg hps]
  | acquireLock | joinLock | renewLock | releaseLock =>
      refine pendingStep_other hfile ?_
      rw [Metadata.node_setLock, Metadata.node_aliveLocks]
  | releaseLast =>
      refine pendingStep_other hfile ?_
      rw [Metadata.node_dropLock, Metadata.node_aliveLocks]
  | releaseGone =>
      exact pendingStep_other hfile (congrFun (Metadata.node_aliveLocks _ _) ps)
  | updateBlockReplicas hparts hfile' hcommitted hfind hexpected hblocks =>
      refine pendingStep_other hfile ?_
      rw [Metadata.node_setFile, if_neg (ne_of_committed hfile hpending hfile' hcommitted)]
  | beginWrite | beginWriteLost =>
      refine pendingStep_other hfile ?_
      rw [Metadata.node_setWrite, (pruned_writeTable _ _ _).node]
  | commitWrite hparts hr hpublished =>
      refine pendingStep_other hfile ?_
      rw [Metadata.node_dropWrite, Metadata.node_setFile,
        if_neg (ne_of_committed hfile hpending hr.hfile hr.hcommitted),
        (pruned_writeTable _ _ _).node]
  | abortWrite =>
      refine pendingStep_other hfile ?_
      rw [Metadata.node_dropWrite, Metadata.node_aliveWrites]
  | abortGone =>
      refine pendingStep_other hfile ?_
      rw [Metadata.node_aliveWrites]
  | createUser | changePassword => exact .kept hfile
  | setAttrsDir hparts hdir hμ =>
      refine pendingStep_other hfile ?_
      rw [Metadata.node_setNode, if_neg (ne_of_dir hfile hdir)]
  | setAttrsFile hparts hfile' hcommitted hμ =>
      refine pendingStep_other hfile ?_
      rw [Metadata.node_setFile, if_neg (ne_of_committed hfile hpending hfile' hcommitted)]
  | refused hpruned => exact pendingStep_other hfile (congrFun hpruned.node ps)

/-- **A STEP OF THE OTHERS LEAVES A PENDING UPLOAD ALONE.** -/
theorem pending_effect (he : Effect μ m r m') (hfile : m.node ps = some (.file f))
    (hpending : f.state = .pending) (howner : f.attrs.owner = u) (hspares : Spares ps u f μ) :
    m'.node ps = some (.file f) := by
  cases pendingStep_effect he hfile hpending with
  | kept hfile' => exact hfile'
  | confirmed f' p b sum size now leaseS caller hμ hparts howner' =>
      subst hμ
      exact absurd howner' (not_owner howner (hspares.others p caller rfl hparts rfl))
  | completed p caller hμ hr hparts howner' =>
      subst hμ
      exact absurd howner' (not_owner howner (hspares.others p caller rfl hparts rfl))
  | aborted p caller hμ hr hparts howner' =>
      subst hμ
      exact absurd howner' (not_owner howner (hspares.others p caller rfl hparts rfl))
  | replaced p placements now leaseS blockSize caller hμ hr hparts hexpired =>
      have hlive : leaseExpired f now = false := by
        refine leaseExpired_false ?_
        rintro t rfl
        exact hspares.lease p placements t leaseS blockSize caller hμ hparts
      rw [hlive] at hexpired
      exact nomatch hexpired

end Step

/-! ## What sees committed files only -/

/-- The mutations that look for a committed file, or a directory. -/
def looksForCommitted : Mutation → Bool
  | .removeFile .. => true
  | .acquireLock .. => true
  | .renewLock .. => true
  | .releaseLock .. => true
  | .updateBlockReplicas .. => true
  | .beginWrite .. => true
  | .commitWrite .. => true
  | .chmod .. => true
  | .chown .. => true
  | _ => false

/-- What succeeds on a file has found it committed. -/
theorem committed_of_ok {μ : Mutation} {m m' : Metadata} {a : Ret} {p : String}
    {ps : List String} {f : FileNode} (he : Effect μ m (.ok a) m')
    (hμ : looksForCommitted μ = true) (hpath : pathOf μ = some p)
    (hparts : parts p = .ok ps) (hfile : m.node ps = some (.file f)) :
    f.state = .committed := by
  have found : ∀ {p' ps' f'}, pathOf μ = some p' → parts p' = .ok ps' →
      m.node ps' = some (.file f') → f'.state = .committed → f.state = .committed := by
    intro p' ps' f' hp' hps' hf' hstate
    obtain rfl := Option.some.inj (hpath.symm.trans hp')
    obtain rfl := Except.ok.inj (hparts.symm.trans hps')
    rw [eq_of_node hfile hf']
    exact hstate
  cases he with
  | makeDir | removeDir | beginUpload | confirmBlock | completeUpload | abortUpload
  | abortWrite | abortGone | createUser | changePassword => exact nomatch hμ
  | removeFile hparts' hne hparent hallowed hfile' hcommitted hunlocked =>
      exact found rfl hparts' hfile' hcommitted
  | acquireLock hparts' hmode hlease hfile' hcommitted hallowed hfree =>
      exact found rfl hparts' hfile' hcommitted
  | joinLock hparts' hmode hlease hfile' hcommitted hallowed hshared hread hnew =>
      exact found rfl hparts' hfile' hcommitted
  | renewLock hparts' hlease hfile' hcommitted hlocked hheld =>
      exact found rfl hparts' hfile' hcommitted
  | releaseLock hparts' hfile' hcommitted hlocked hheld hmore =>
      exact found rfl hparts' hfile' hcommitted
  | releaseLast hparts' hfile' hcommitted hlocked hheld hlast =>
      exact found rfl hparts' hfile' hcommitted
  | releaseGone hparts' hfile' hcommitted hgone =>
      exact found rfl hparts' hfile' hcommitted
  | updateBlockReplicas hparts' hfile' hcommitted hfind hexpected hblocks =>
      exact found rfl hparts' hfile' hcommitted
  | beginWrite hparts' hr hdescribed => exact found rfl hparts' hr.hfile hr.hcommitted
  | commitWrite hparts' hr hpublished => exact found rfl hparts' hr.hfile hr.hcommitted
  | setAttrsDir hparts' hdir hμ' =>
      cases hμ' with
      | chmod | chown =>
          obtain rfl := Option.some.inj hpath
          obtain rfl := Except.ok.inj (hparts.symm.trans hparts')
          exact absurd rfl (ne_of_dir hfile hdir)
  | setAttrsFile hparts' hfile' hcommitted hμ' =>
      cases hμ' with
      | chmod | chown => exact found rfl hparts' hfile' hcommitted

/-- Neither a listing nor a mutation that looks for a committed file finds one
    at the path. -/
structure Invisible (s : ControlTree) (ps : List String) : Prop where
  blocks : ∀ p caller bs, parts p = .ok ps → (listBlocks p caller s).1 ≠ .ok bs
  lines : ∀ p caller es, (listDir p caller s).1 = .ok es →
    parts p ≠ .ok ps ∧ (parts p = .ok ps.dropLast → ∀ e ∈ es, e.name ≠ ps.getLastD "")
  refused : ∀ μ p a, looksForCommitted μ = true → pathOf μ = some p → parts p = .ok ps →
    (exec μ s).1 ≠ .ok a

theorem invisible_of_pending {s : ControlTree} {ps : List String} {f : FileNode}
    (hfile : s.root.view ps = some (.file f)) (hpending : f.state = .pending) :
    Invisible s ps where
  blocks := by
    intro p caller bs hparts hok
    obtain ⟨ps', f', hparts', hfile', hstate, _⟩ := listBlocks_ok hok
    obtain rfl := Except.ok.inj (hparts.symm.trans hparts')
    exact ne_of_committed (m := metadata s) hfile hpending hfile' hstate rfl
  lines := by
    intro p caller es hok
    obtain ⟨ps', attrs, hparts', hdir, hlines⟩ := listDir_ok hok
    refine ⟨?_, ?_⟩
    · intro hparts
      obtain rfl := Except.ok.inj (hparts.symm.trans hparts')
      exact ne_of_dir (m := metadata s) hfile hdir rfl
    · intro hparts e he hname
      obtain rfl := Except.ok.inj (hparts.symm.trans hparts')
      obtain ⟨name, child, hview, hlisted⟩ := (hlines e).mp he
      have hne := ne_nil_of_file hfile
      rw [← name_listed hlisted, hname, dropLast_append_getLastD hne, hfile] at hview
      rw [← Option.some.inj hview, listed, hpending] at hlisted
      cases hlisted
  refused := by
    intro μ p a hμ hpath hparts hok
    have he := exec_effect μ s
    rw [hok] at he
    rw [committed_of_ok he hμ hpath hparts hfile] at hpending
    cases hpending

/-! ## Runs -/

/-- The command spares the pending upload that is at the path now. -/
def SparesUpload (ps : List String) (u : String) (s : ControlTree) (μ : Mutation) : Prop :=
  ∀ f, s.root.view ps = some (.file f) → Spares ps u f μ

/-- **A PENDING UPLOAD IS SAFE FROM THE OTHERS.**  Through every run in which
    the commands on its path come from other users and new uploads to it come
    before the end of its lease, the file stays as it is, the directories above
    it stay, and nobody sees it. -/
theorem pending_upload_is_safe {μs : List Mutation} {s s' : ControlTree}
    {u : String} {ps : List String} {f : FileNode}
    (hfile : s.root.view ps = some (.file f)) (hpending : f.state = .pending)
    (howner : f.attrs.owner = u)
    (hpath : (controlTree.guarded (SparesUpload ps u)).Path s μs s') :
    s'.root.view ps = some (.file f) ∧
      (∀ q k rest, ps = q ++ k :: rest → ∃ d, s'.root.view q = some (.dir d)) ∧
      Invisible s' ps := by
  have hkept : s'.root.view ps = some (.file f) := by
    refine hpath.keeps (I := fun s => s.root.view ps = some (.file f)) hfile ?_
    rintro s₁ μ s₂ hold ⟨hspares, hstep⟩
    exact pending_effect (step_effect hstep) hold hpending howner (hspares f hold)
  refine ⟨hkept, ?_, invisible_of_pending hkept hpending⟩
  rintro q k rest rfl
  exact Tree.view_ancestor hkept

/-- What an upload that begins leaves at its path. -/
theorem file_of_begun {s : ControlTree} {p : String} {ps : List String}
    {placements : List (String × List String)} {now leaseS : Option Time}
    {blockSize : Option Int} {caller : Option Caller} {a : Ret} (hparts : parts p = .ok ps)
    (hok : (exec (.beginUpload p placements now leaseS blockSize caller) s).1 = .ok a) :
    (exec (.beginUpload p placements now leaseS blockSize caller) s).2.root.view ps
      = some (.file (newUpload placements now leaseS blockSize caller)) := by
  have he := exec_effect (.beginUpload p placements now leaseS blockSize caller) s
  rw [hok] at he
  generalize hm : metadata (exec _ s).2 = m' at he
  suffices h : m'.node ps = some (.file (newUpload placements now leaseS blockSize caller)) by
    rw [← hm] at h
    exact h
  cases he with
  | beginUpload hparts' hne hallowed hfree =>
      obtain rfl := Except.ok.inj (hparts.symm.trans hparts')
      rw [Metadata.node_setFile, if_pos rfl]
  | setAttrsDir hparts' hdir hμ => exact nomatch hμ
  | setAttrsFile hparts' hfile' hcommitted hμ => exact nomatch hμ

def ana : Caller := ⟨"ana", ["lab"], false⟩

def beto : Caller := ⟨"beto", ["lab"], false⟩

/-- The upload of ana, with a lease until second 60. -/
def anaUploads : ControlTree :=
  (exec (.beginUpload "/f" [("b1", ["n1"])] (some 0) (some 60) (some 4) (some ana))
    ControlTree.empty).2

/-- Beto takes neither the name nor the upload at second 59. -/
theorem pending_upload_is_safe_59 : ∃ f s',
    (controlTree.guarded (SparesUpload ["f"] "ana")).Path anaUploads
      [.beginUpload "/f" [("b2", ["n1"])] (some 59) (some 60) (some 4) (some beto),
       .abortUpload "/f" (some beto)] s' ∧
    s'.root.view ["f"] = some (.file f) ∧ Invisible s' ["f"] := by
  have hfile : anaUploads.root.view ["f"] = some (.file (newUpload [("b1", ["n1"])]
      (some 0) (some 60) (some 4) (some ana))) := by decide +kernel
  have hfirst : SparesUpload ["f"] "ana" anaUploads (.beginUpload "/f" [("b2", ["n1"])]
      (some 59) (some 60) (some 4) (some beto)) := by
    intro f hf
    obtain rfl := Entry.file.inj (Option.some.inj (hfile.symm.trans hf))
    refine ⟨?_, ?_⟩
    · intro p caller _ _ hc
      exact ⟨beto, (Option.some.inj hc).symm, rfl, by decide⟩
    · intro p placements now leaseS blockSize caller hμ _
      obtain ⟨_, _, hnow, _⟩ := Mutation.beginUpload.inj hμ
      obtain rfl := Option.some.inj hnow
      exact .inr (by decide +kernel)
  have hsecond : ∀ s, SparesUpload ["f"] "ana" s (.abortUpload "/f" (some beto)) := by
    refine fun s f _ => ⟨?_, ?_⟩
    · intro p caller _ _ hc
      exact ⟨beto, (Option.some.inj hc).symm, rfl, by decide⟩
    · intro p placements now leaseS blockSize caller hμ
      exact nomatch hμ
  have hpath := Path.cons (S := controlTree.guarded (SparesUpload ["f"] "ana"))
    ⟨hfirst, step_exec anaUploads _⟩ (Path.one ⟨hsecond _, step_exec _ _⟩)
  obtain ⟨hkept, _, hinvisible⟩ := pending_upload_is_safe hfile rfl rfl hpath
  exact ⟨_, _, hpath, hkept, hinvisible⟩

end DfshaPendingUpload
