import Dfsha.PendingUploadProofs
import Dfsha.ReplicatedTreeProofs

/-! # What a user cannot touch

    A directory that a user does not own and may not write to keeps its
    entries whatever the user does: the user may take locks, upload through it
    into directories below that are open, change what the user owns there, but
    nothing directly in it appears, disappears, is replaced or is committed.

    The directory itself stays because it is not empty, and stays closed
    because only its owner or an admin changes its permissions. -/

namespace DfshaConfinement

open InsertionDict NamedTree TransitionSystem TransitionSystem.System
open DfshaPath DfshaControlTree DfshaMetadata DfshaControlTreeEffect
open DfshaReplicatedTree DfshaPendingUpload

/-! ## The entries of a directory -/

/-- The same entry before and after: of the same kind and owner, and the very
    same file as long as it is pending. -/
inductive SameEntry : Option NodeEntry → Option NodeEntry → Prop
  | absent : SameEntry none none
  | dir {d d' : NodeAttrs} (howner : d'.owner = d.owner) :
      SameEntry (some (.dir d)) (some (.dir d'))
  | file {f f' : FileNode} (hstate : f'.state = f.state)
      (howner : f'.attrs.owner = f.attrs.owner) (hpending : f.state = .pending → f' = f) :
      SameEntry (some (.file f)) (some (.file f'))

theorem sameEntry_refl : (e : Option NodeEntry) → SameEntry e e
  | none => .absent
  | some (.dir _) => .dir rfl
  | some (.file _) => .file rfl rfl fun _ => rfl

theorem SameEntry.trans {e₁ e₂ e₃ : Option NodeEntry} (h : SameEntry e₁ e₂)
    (h' : SameEntry e₂ e₃) : SameEntry e₁ e₃ := by
  cases h with
  | absent => exact h'
  | dir howner =>
      cases h' with
      | dir howner' => exact .dir (howner'.trans howner)
  | file hstate howner hpending =>
      cases h' with
      | file hstate' howner' hpending' =>
          refine .file (hstate'.trans hstate) (howner'.trans howner) fun hp => ?_
          rw [hpending' (hstate.trans hp), hpending hp]

theorem sameEntry_none {e : Option NodeEntry} (h : SameEntry e none) : e = none := by
  cases h with
  | absent => rfl

theorem sameEntry_file {e : Option NodeEntry} {f : FileNode}
    (h : SameEntry e (some (.file f))) (hpending : f.state = .pending) :
    e = some (.file f) := by
  cases h with
  | file hstate howner hsame => rw [hsame (hstate.symm.trans hpending)]

/-! ## One step -/

/-- The mutation is by this caller, if it says who is calling. -/
def IssuedBy (c : Caller) (μ : Mutation) : Prop :=
  ∀ caller, callerOf μ = some caller → caller = some c

/-- The directory is closed to the caller, and the caller has no upload in it. -/
structure Closed (c : Caller) (ps : List String) (d : NodeAttrs) (m : Metadata) : Prop where
  dir : m.node ps = some (.dir d)
  admin : c.isAdmin = false
  owner : c.username ≠ d.owner
  denied : allows d (some c) W = false
  inhabited : ∃ k, m.node (ps ++ [k]) ≠ none
  uploads : ∀ k f, m.node (ps ++ [k]) = some (.file f) → f.state = .pending →
    c.username ≠ f.attrs.owner

section Step

variable {s : ControlTree} {μ : Mutation} {r : Except PyError Ret} {m m' : Metadata}
  {c : Caller} {ps ps' : List String} {d : NodeAttrs}

/-- What a step leaves of the directory. -/
structure Untouched (ps : List String) (m m' : Metadata) : Prop where
  dir : m'.node ps = m.node ps
  entries : ∀ k, SameEntry (m.node (ps ++ [k])) (m'.node (ps ++ [k]))

theorem untouched_congr (h : m'.node = m.node) : Untouched ps m m' :=
  ⟨congrFun h ps, fun k => by rw [h]; exact sameEntry_refl _⟩

/-- A step that changes one node, which is not the directory. -/
theorem untouched_update {e : Option NodeEntry} (hnode : ∀ q,
      m'.node q = if q = ps' then e else m.node q)
    (hdir : ps ≠ ps') (hentry : ∀ k, ps ++ [k] = ps' → SameEntry (m.node ps') e) :
    Untouched ps m m' := by
  refine ⟨by rw [hnode, if_neg hdir], fun k => ?_⟩
  rw [hnode]
  by_cases hk : ps ++ [k] = ps'
  · rw [if_pos hk, hk]
    exact hentry k hk
  · rw [if_neg hk]
    exact sameEntry_refl _

/-- Who may write to the parent of an entry is not the caller. -/
theorem not_allowed {d' : NodeAttrs} {k : String} {caller : Option Caller}
    (h : Closed c ps d m) (hcaller : caller = some c)
    (hparent : m.node (ps ++ [k]).dropLast = some (.dir d')) :
    allows d' caller W ≠ true := by
  rw [List.dropLast_concat, h.dir] at hparent
  rw [← Entry.dir.inj (Option.some.inj hparent), hcaller, h.denied]
  exact Bool.false_ne_true

/-- The upload of another is not the caller's to go on with. -/
theorem not_uploader {k : String} {f : FileNode} {caller : Option Caller}
    (h : Closed c ps d m) (hcaller : caller = some c)
    (hfile : m.node (ps ++ [k]) = some (.file f)) (hpending : f.state = .pending) :
    ownerOrAdmin f.attrs caller ≠ true :=
  not_owner rfl ⟨c, hcaller, h.admin, h.uploads k f hfile hpending⟩

/-- The deepest directory on the way to a path is this one when what comes
    after it on the way is missing. -/
theorem allows_of_writable {qs : List String} {caller : Option Caller} {k : List String}
    (hdir : s.root.view ps = some (.dir d)) (hqs : ps ++ k = qs)
    (hmissing : ∀ j rest, k = j :: rest → s.root.view (ps ++ [j]) = none)
    (hw : (metadata s).WritableAbove qs caller) : allows d caller W = true := by
  obtain ⟨q, d', hq, hd', hdeepest, hallowed⟩ := hw
  subst hqs
  suffices heq : q = ps by
    subst heq
    rw [show (metadata s).node q = s.root.view q from rfl, hdir] at hd'
    rw [Entry.dir.inj (Option.some.inj hd')]
    exact hallowed
  rcases List.prefix_or_prefix_of_prefix hq (List.prefix_append ps k) with
    ⟨t, ht⟩ | ⟨t, ht⟩
  · -- above the directory everything exists
    cases t with
    | nil => rw [← ht, List.append_nil]
    | cons j t =>
        have hnone := hdeepest j ⟨t ++ k, by rw [← ht]; simp⟩
        have hexists : s.root.view (q ++ [j] ++ t) = some (.dir d) := by
          rw [← hdir, ← ht, List.append_assoc, List.singleton_append]
        rw [Tree.view_below_none hnone] at hexists
        exact nomatch hexists
  · cases t with
    | nil => rw [← ht, List.append_nil]
    | cons j t =>
        obtain ⟨t', ht'⟩ := hq
        have hk : k = j :: (t ++ t') := by
          rw [← ht, List.append_assoc] at ht'
          exact (List.append_cancel_left ht').symm
        have hnone := Tree.view_below_none (q := t) (hmissing j _ hk)
        rw [List.append_assoc, List.singleton_append, ht] at hnone
        rw [show (metadata s).node q = s.root.view q from rfl, hnone] at hd'
        exact nomatch hd'

/-- Only the owner or an admin changes attributes, and the owner stays. -/
theorem owner_changesAttrs {p : String} {a a' : NodeAttrs} (hμ : ChangesAttrs m μ p a a')
    (hissued : IssuedBy c μ) (hadmin : c.isAdmin = false) :
    c.username = a.owner ∧ a'.owner = a.owner := by
  cases hμ with
  | @chmod p mode caller d howner hmode =>
      obtain rfl := hissued caller rfl
      rw [ownerOrAdmin, hadmin, Bool.false_or, decide_eq_true_eq] at howner
      exact ⟨howner, rfl⟩
  | @chown p owner group caller d hcaller howner hgroup =>
      obtain rfl := hissued caller rfl
      obtain ⟨rfl, hname, _⟩ := hcaller c rfl hadmin
      refine ⟨hname, ?_⟩
      show (if "" ≠ "" then "" else a.owner) = a.owner
      rw [if_neg (not_not.mpr rfl)]

/-- **A STEP OF THE CALLER LEAVES A CLOSED DIRECTORY ALONE.** -/
theorem untouched_effect (he : Effect μ (metadata s) r m') (hissued : IssuedBy c μ)
    (h : Closed c ps d (metadata s)) : Untouched ps (metadata s) m' := by
  -- a file is not the directory, and one that stays committed is the same entry
  have committed : ∀ {ps' f f'}, (metadata s).node ps' = some (.file f) →
      f.state = .committed →
      (∀ q, m'.node q = if q = ps' then some (.file f') else (metadata s).node q) →
      f'.state = f.state → f'.attrs.owner = f.attrs.owner →
      Untouched ps (metadata s) m' := by
    intro ps' f f' hfile hstate hnode hsame howner
    refine untouched_update hnode (ne_of_dir hfile h.dir).symm fun k _ => ?_
    rw [hfile]
    exact .file hsame howner fun hpending => by
      rw [hstate] at hpending
      exact nomatch hpending
  cases he with
  | @makeDir _ p caller ps' d' hparts hne hparent hallowed hfree =>
      refine untouched_update (Metadata.node_setNode ps' _) ?_ ?_
      · rintro rfl
        rw [h.dir] at hfree
        exact nomatch hfree
      · rintro k rfl
        exact absurd hallowed (not_allowed h (hissued caller rfl) hparent)
  | @removeDir _ p caller ps' d₀ d₁ hparts hne hparent hallowed hdir hempty =>
      refine untouched_update (Metadata.node_dropNode ps') ?_ ?_
      · rintro rfl
        obtain ⟨k, hk⟩ := h.inhabited
        exact hk (hempty k [])
      · rintro k rfl
        exact absurd hallowed (not_allowed h (hissued caller rfl) hparent)
  | @removeFile _ p now caller ps' d' f hparts hne hparent hallowed hfile hcommitted
      hunlocked =>
      refine untouched_update (e := none) ?_ (ne_of_dir hfile h.dir).symm ?_
      · intro q
        rw [Metadata.node_dropNode, Metadata.node_aliveLocks]
      · rintro k rfl
        exact absurd hallowed (not_allowed h (hissued caller rfl) hparent)
  | @beginUpload _ p placements now leaseS blockSize caller ps' stale hparts hne hallowed
      hfree =>
      obtain rfl := hissued caller rfl
      have hdir : ps ≠ ps' := by
        rintro rfl
        rcases hfree with ⟨hnone, _⟩ | ⟨f, hf, _⟩
        · rw [h.dir] at hnone
          exact nomatch hnone
        · exact ne_of_dir hf h.dir rfl
      -- to write in the directory, or to make one in it, it must be writable
      have hclosed : ∀ k, ps ++ k = ps'.dropLast →
          (∀ j rest, k = j :: rest → s.root.view (ps ++ [j]) = none) → False := by
        intro k hk hmissing
        have := allows_of_writable h.dir hk hmissing hallowed
        rw [h.denied] at this
        exact Bool.false_ne_true this
      have hnode : ∀ q, ps = q ∨ (∃ k, ps ++ [k] = q) → q ≠ ps' →
          (((metadata s).makeParents ps'.dropLast (ownership (some c) dirMode)).setFile ps'
            (newUpload placements now leaseS blockSize (some c))).node q
            = (metadata s).node q := by
        intro q hq hne'
        rw [Metadata.node_setFile, if_neg hne']
        refine if_neg ?_
        rintro ⟨⟨rest, hrest⟩, hnone⟩
        rcases hq with rfl | ⟨k, rfl⟩
        · rw [h.dir] at hnone
          exact nomatch hnone
        · refine hclosed (k :: rest) (by rw [← hrest]; simp) ?_
          rintro j rest' heq
          rw [← (List.cons.inj heq).1]
          exact hnone
      refine ⟨hnode ps (.inl rfl) hdir, fun k => ?_⟩
      have hentry : ps ++ [k] ≠ ps' := by
        rintro rfl
        refine hclosed [] ?_ fun j rest hk => nomatch hk
        rw [List.append_nil, List.dropLast_concat]
      rw [hnode (ps ++ [k]) (.inr ⟨k, rfl⟩) hentry]
      exact sameEntry_refl _
  | @confirmBlock _ p b sum size now leaseS caller ps' f blocks hparts hfile hpending
      howner hblocks =>
      refine untouched_update (Metadata.node_setFile ps' _) (ne_of_dir hfile h.dir).symm ?_
      rintro k rfl
      exact absurd howner (not_uploader h (hissued caller rfl) hfile hpending)
  | @completeUpload _ p caller ps' f hparts hfile hpending howner hconfirmed =>
      refine untouched_update (Metadata.node_setFile ps' _) (ne_of_dir hfile h.dir).symm ?_
      rintro k rfl
      exact absurd howner (not_uploader h (hissued caller rfl) hfile hpending)
  | @abortUpload _ p caller ps' f hparts hne hfile hpending howner =>
      refine untouched_update (Metadata.node_dropNode ps') (ne_of_dir hfile h.dir).symm ?_
      rintro k rfl
      exact absurd howner (not_uploader h (hissued caller rfl) hfile hpending)
  | acquireLock | joinLock | renewLock | releaseLock =>
      exact untouched_congr (by rw [Metadata.node_setLock, Metadata.node_aliveLocks])
  | releaseLast =>
      exact untouched_congr (by rw [Metadata.node_dropLock, Metadata.node_aliveLocks])
  | releaseGone => exact untouched_congr (by rw [Metadata.node_aliveLocks])
  | @updateBlockReplicas _ p b expected new ps' f block blocks hparts hfile hcommitted hfind
      hexpected hblocks =>
      exact committed hfile hcommitted (Metadata.node_setFile ps' _) rfl rfl
  | beginWrite | beginWriteLost =>
      exact untouched_congr (by rw [Metadata.node_setWrite, (pruned_writeTable _ _ _).node])
  | @commitWrite _ p w l version confirmed now caller ps' f res blocks replaced hparts hr
      hpublished =>
      have hnode := Metadata.node_setFile (m := (metadata s).writeTable (pathKey ps') now) ps'
        { f with blocks, version := f.version + 1, blockSize := res.blockSize }
      rw [(pruned_writeTable _ _ _).node] at hnode
      exact committed hr.hfile hr.hcommitted hnode rfl rfl
  | abortWrite =>
      exact untouched_congr (by rw [Metadata.node_dropWrite, Metadata.node_aliveWrites])
  | abortGone => exact untouched_congr (by rw [Metadata.node_aliveWrites])
  | createUser | changePassword => exact untouched_congr rfl
  | @setAttrsDir _ _ p ps' a a' hparts hdir hμ =>
      obtain ⟨hname, howner⟩ := owner_changesAttrs hμ hissued h.admin
      refine untouched_update (Metadata.node_setNode ps' _) ?_ ?_
      · rintro rfl
        rw [h.dir] at hdir
        rw [← Entry.dir.inj (Option.some.inj hdir)] at hname
        exact h.owner hname
      · intro k _
        rw [hdir]
        exact .dir howner
  | @setAttrsFile _ _ p ps' f attrs hparts hfile hcommitted hμ =>
      exact committed hfile hcommitted (Metadata.node_setFile ps' _) rfl
        (owner_changesAttrs hμ hissued h.admin).2
  | refused hpruned => exact untouched_congr hpruned.node

/-- A directory left alone stays closed. -/
theorem closed_step (h : Closed c ps d m) (hstep : Untouched ps m m') : Closed c ps d m' where
  dir := hstep.dir.trans h.dir
  admin := h.admin
  owner := h.owner
  denied := h.denied
  inhabited := by
    obtain ⟨k, hk⟩ := h.inhabited
    refine ⟨k, fun hnone => hk ?_⟩
    have hentry := hstep.entries k
    rw [hnone] at hentry
    exact sameEntry_none hentry
  uploads := by
    intro k f hfile hpending
    have hentry := hstep.entries k
    rw [hfile] at hentry
    exact h.uploads k f (sameEntry_file hentry hpending) hpending

end Step

/-! ## Runs -/

/-- The command is by this caller. -/
def CommandBy (c : Caller) (_ : ReplicatedTree) (cmd : Command) : Prop :=
  ∀ μ, cmd.call = .mutation μ → IssuedBy c μ

theorem untouched_applied {s s' : ReplicatedTree} {cmd : Command} {o : Outcome}
    {c : Caller} {ps : List String} {d : NodeAttrs} (happlied : Applied cmd s o s')
    (hby : CommandBy c s cmd) (h : Closed c ps d (metadata s.tree)) :
    Untouched ps (metadata s.tree) (metadata s'.tree) := by
  cases happlied with
  | cached hop => exact untouched_congr rfl
  | executed hnew hcall heffect hops => exact untouched_effect heffect (hby _ hcall) h
  | rejected hnew htree hops => exact untouched_congr (by rw [htree])

/-- **A USER IS CONFINED.**  A directory that a user who is not an admin does
    not own and may not write to, not empty and without an upload of the user
    directly in it, stays at its path with its owner, group and mode, and
    keeps its entries, through every run of the user's commands. -/
theorem user_is_confined {cmds : List Command} {s s' : ReplicatedTree} {c : Caller}
    {ps : List String} {d : NodeAttrs} (hadmin : c.isAdmin = false)
    (hdir : s.tree.root.view ps = some (.dir d)) (howner : c.username ≠ d.owner)
    (hdenied : allows d (some c) W = false)
    (hinhabited : ∃ k, s.tree.root.view (ps ++ [k]) ≠ none)
    (huploads : ∀ k f, s.tree.root.view (ps ++ [k]) = some (.file f) →
      f.state = .pending → c.username ≠ f.attrs.owner)
    (hpath : (replicated.guarded (CommandBy c)).Path s cmds s') :
    s'.tree.root.view ps = some (.dir d) ∧
      ∀ k, SameEntry (s.tree.root.view (ps ++ [k])) (s'.tree.root.view (ps ++ [k])) := by
  have h : Closed c ps d (metadata s.tree) :=
    ⟨hdir, hadmin, howner, hdenied, hinhabited, huploads⟩
  suffices hrun : Closed c ps d (metadata s'.tree) ∧
      ∀ k, SameEntry (s.tree.root.view (ps ++ [k])) (s'.tree.root.view (ps ++ [k])) from
    ⟨hrun.1.dir, hrun.2⟩
  refine hpath.keeps (I := fun s' => Closed c ps d (metadata s'.tree) ∧
    ∀ k, SameEntry (s.tree.root.view (ps ++ [k])) (s'.tree.root.view (ps ++ [k])))
    ⟨h, fun k => sameEntry_refl _⟩ ?_
  rintro s₁ cmd s₂ ⟨hclosed, hsame⟩ ⟨hby, hstep⟩
  rw [show s₂ = (apply cmd s₁).2 from hstep]
  have huntouched := untouched_applied (apply_applied cmd s₁) hby hclosed
  exact ⟨closed_step hclosed huntouched, fun k => (hsame k).trans (huntouched.entries k)⟩

/-- Ana makes a directory with another one in it. -/
def anaDirs : ReplicatedTree :=
  (apply ⟨"ana:2", .mutation (.makeDir "/d/sub" (some ana))⟩
    (apply ⟨"ana:1", .mutation (.makeDir "/d" (some ana))⟩ ReplicatedTree.empty).2).2

/-- Beto uploads into the directory and empties it, as far as he can. -/
def betoTries : List Command :=
  [⟨"beto:1", .mutation (.beginUpload "/d/f" [("b1", ["n1"])] (some 0) (some 60) (some 4)
      (some beto))⟩,
   ⟨"beto:2", .mutation (.removeDir "/d/sub" (some beto))⟩]

theorem user_is_confined_beto :
    let s' := betoTries.foldl (fun s c => (apply c s).2) anaDirs
    s'.tree.root.view ["d"] = some (.dir ⟨"ana", "lab", dirMode⟩) ∧
      s'.tree.root.view ["d", "f"] = none := by
  have hchildren : anaDirs.tree.root.childrenAt ["d"]
      = [("sub", .dir ⟨"ana", "lab", dirMode⟩)] := by decide +kernel
  have hpath : (replicated.guarded (CommandBy beto)).Path anaDirs betoTries
      (betoTries.foldl (fun s c => (apply c s).2) anaDirs) := by
    have hby : ∀ cmd ∈ betoTries, ∀ s, CommandBy beto s cmd := by
      intro cmd hcmd s μ hμ caller hcaller
      rcases List.mem_cons.mp hcmd with rfl | hcmd
      · obtain rfl := Call.mutation.inj hμ
        exact (Option.some.inj hcaller).symm
      · obtain rfl := List.mem_singleton.mp hcmd
        obtain rfl := Call.mutation.inj hμ
        exact (Option.some.inj hcaller).symm
    exact Path.cons ⟨hby _ List.mem_cons_self _, step_apply _ _⟩
      (Path.one ⟨hby _ (List.mem_cons_of_mem _ List.mem_cons_self) _, step_apply _ _⟩)
  obtain ⟨hdir, hentries⟩ := user_is_confined (by decide)
    (show anaDirs.tree.root.view ["d"] = some (.dir ⟨"ana", "lab", dirMode⟩) by
      decide +kernel) (by decide) (by decide)
    ⟨"sub", by decide +kernel⟩ (by
      intro k f hfile
      rw [← Tree.mem_childrenAt, hchildren] at hfile
      exact nomatch (Prod.mk.inj (List.mem_singleton.mp hfile)).2) hpath
  refine ⟨hdir, ?_⟩
  have hentry := hentries "f"
  rw [show anaDirs.tree.root.view (["d"] ++ ["f"]) = none by decide +kernel] at hentry
  generalize (betoTries.foldl (fun s c => (apply c s).2) anaDirs).tree.root.view
    (["d"] ++ ["f"]) = e at hentry ⊢
  cases hentry with
  | absent => rfl

end DfshaConfinement
