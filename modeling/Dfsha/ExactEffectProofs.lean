import Dfsha.ControlTreeEffectProofs
import Dfsha.TransitionSystemProofs

/-! # The effects are exact

    `exec_effect` says that the control tree does nothing that the rules do
    not allow.  Here is the other half: it does everything they allow.  What a
    rule checks is all that the code checks, so a mutation that meets a rule
    succeeds, with the answer and the metadata of the rule.

    Together: the tree, seen through `metadata`, and the rules are the same
    transition system as far as successes go.  There is one exception, which
    `Asks` names: a `chown` that names neither owner nor group is refused
    before anything is looked at that the rules speak of. -/

namespace DfshaExactEffect

open InsertionDict NamedTree RaisingAction TransitionSystem DfshaPath DfshaControlTree
open DfshaMetadata DfshaControlTreeEffect

variable {α β : Type}

/-- A success with this result, in a tree that says `m'`. -/
def Yields (a : α) (m' : Metadata) : Except PyError α → ControlTree → Prop :=
  fun r s' => r = .ok a ∧ metadata s' = m'

/-- `chown` names an owner or a group. -/
def Asks : Mutation → Prop
  | .chown _ owner group _ => owner ≠ "" ∨ group ≠ ""
  | _ => True

/-! ## Checks that pass -/

section Passed

variable {s : ControlTree} {Q : Except PyError β → ControlTree → Prop}

theorem wp_require_passed {f : Unit → TreeM β} {node : NodeAttrs} {caller : Option Caller}
    {want : Nat} {path : String} (hallowed : allows node caller want = true)
    (h : wp (f ()) s Q) : wp (require node caller want path >>= f) s Q := by
  refine wp_raiseIf_passed ?_ h
  rw [hallowed]
  exact Bool.noConfusion

theorem wp_canonicalPath_passed {f : String → TreeM β} {p : String} {ps : List String}
    (hparts : parts p = .ok ps) (h : parts (pathKey ps) = .ok ps → wp (f (pathKey ps)) s Q) :
    wp (ofExcept (canonicalPath p) >>= f) s Q :=
  wp_ofExcept_ok (canonicalPath_of_parts hparts)
    (h (parts_pathKey (cleanName_of_parts hparts)))

theorem wp_committed_passed {f : List String × FileNode → TreeM β} {p : String}
    {ps : List String} {node : FileNode} (hparts : parts p = .ok ps)
    (hfile : s.root.view ps = some (.file node)) (hstate : node.state = .committed)
    (h : wp (f (ps, node)) s Q) : wp (getCommittedFile p >>= f) s Q := by
  refine wp_call (wp_getCommittedFile_ok hparts hfile hstate) ?_ ?_
  · rintro a s' ⟨ha, rfl⟩
    rw [Except.ok.inj ha]
    exact h
  · rintro e s' ⟨he, _⟩
    exact nomatch he

theorem wp_pending_passed {f : List String × FileNode → TreeM β} {p : String}
    {ps : List String} {node : FileNode} (hparts : parts p = .ok ps)
    (hfile : s.root.view ps = some (.file node)) (hstate : node.state = .pending)
    (h : wp (f (ps, node)) s Q) : wp (getPendingFile p >>= f) s Q := by
  refine wp_bind (wp_ofExcept_ok hparts (wp_gets ?_))
  rw [hfile]
  exact wp_raiseIf_passed (not_not.mpr hstate) (wp_ret h)

theorem wp_requireUploadOwner_passed {f : Unit → TreeM β} {node : FileNode}
    {caller : Option Caller} {p : String} {ps : List String} (hparts : parts p = .ok ps)
    (howner : ownerOrAdmin node.attrs caller = true) (h : wp (f ()) s Q) :
    wp (requireUploadOwner node caller p >>= f) s Q := by
  refine wp_bind (wp_canonicalPath_passed hparts fun _ => ?_)
  refine wp_raiseIf_last_passed ?_ h
  rw [howner]
  exact Bool.noConfusion

theorem requireAt_allowed {ps : List String} {caller : Option Caller} {asked : Prop}
    [Decidable asked] {d : NodeAttrs} (hd : s.root.view ps = some (.dir d))
    (hallowed : asked → allows d caller W = true) :
    wp (requireAt ps caller asked) s fun r s' => r = .ok () ∧ s' = s := by
  refine wp_gets ?_
  rw [hd]
  show wp (if asked then _ else pure ()) s _
  by_cases ha : asked
  · rw [if_pos ha]
    refine wp_raiseIf_last_passed ?_ ⟨rfl, rfl⟩
    rw [hallowed ha]
    exact Bool.noConfusion
  · rw [if_neg ha]
    exact wp_ret ⟨rfl, rfl⟩

theorem wp_walkToParent_passed {f : NodeAttrs → TreeM β} {ps : List String} {d : NodeAttrs}
    (hd : s.root.view ps = some (.dir d)) (h : wp (f d) s Q) :
    wp (walkToParent ps false none >>= f) s Q := by
  refine wp_call (walkToParent_passed hd) ?_ fun e s' hr => by cases hr.1
  rintro a s' ⟨ha, rfl⟩
  rw [Except.ok.inj ha]
  exact h

end Passed

/-! ## The way an upload makes -/

/-- On the way to `ps` there are directories and then nothing, and the last
    directory is writable. -/
structure Open (s : ControlTree) (ps : List String) (caller : Option Caller) : Prop where
  noFile : ∀ q f, q <+: ps → s.root.view q ≠ some (.file f)
  writable : ∀ q d, q <+: ps → s.root.view q = some (.dir d) →
    (∀ k, q ++ [k] <+: ps → s.root.view (q ++ [k]) = none) → allows d caller W = true

/-- Of two places on one way, one is above the other. -/
theorem below_of_prefixes {q top ps : List String} (hq : q <+: ps) (htop : top <+: ps) :
    q <+: top ∨ ∃ k rest, q = top ++ k :: rest := by
  rcases List.prefix_or_prefix_of_prefix hq htop with h | ⟨rest, rfl⟩
  · exact .inl h
  · cases rest with
    | nil => exact .inl (by rw [List.append_nil])
    | cons k rest => exact .inr ⟨k, rest, rfl⟩

theorem open_of_writableAbove {s : ControlTree} {ps : List String} {caller : Option Caller}
    (h : (metadata s).WritableAbove ps caller) : Open s ps caller := by
  obtain ⟨top, dtop, htop, hdir, hnone, hallowed⟩ := h
  -- below the last directory there is nothing on the way
  have hbelow : ∀ k rest, top ++ k :: rest <+: ps → s.root.view (top ++ k :: rest) = none := by
    intro k rest hpre
    have hfirst : top ++ [k] <+: ps := by
      refine List.IsPrefix.trans ⟨rest, ?_⟩ hpre
      rw [List.append_assoc]
      rfl
    have hsplit : top ++ k :: rest = top ++ [k] ++ rest := by
      rw [List.append_assoc]
      rfl
    rw [hsplit]
    exact Tree.view_below_none (hnone k hfirst)
  refine ⟨?_, ?_⟩
  · intro q f hq hfile
    rcases below_of_prefixes hq htop with ⟨rest, rfl⟩ | ⟨k, rest, rfl⟩
    · cases rest with
      | nil =>
          rw [List.append_nil] at hdir
          rw [show (metadata s).node q = s.root.view q from rfl, hfile] at hdir
          exact nomatch hdir
      | cons k rest =>
          obtain ⟨d, hd⟩ := Tree.view_ancestor hdir
          rw [hfile] at hd
          exact nomatch hd
    · rw [hbelow k rest hq] at hfile
      exact nomatch hfile
  · intro q d hq hd hstop
    rcases below_of_prefixes hq htop with ⟨rest, rfl⟩ | ⟨k, rest, rfl⟩
    · cases rest with
      | nil =>
          rw [List.append_nil] at hdir
          obtain rfl := Entry.dir.inj (Option.some.inj (hdir.symm.trans hd))
          exact hallowed
      | cons k rest =>
          have hnone' := hstop k (List.IsPrefix.trans ⟨rest, by simp⟩ htop)
          have hgone : s.root.view (q ++ [k] ++ rest) = none := Tree.view_below_none hnone'
          rw [List.append_assoc] at hgone
          exact nomatch hdir.symm.trans hgone
    · rw [hbelow k rest hq] at hd
      exact nomatch hd

/-- The loop of `_walk_to_parent` is not refused on an open way. -/
theorem walkLoop_open {s₀ : ControlTree} {caller : Option Caller} {done rest : List String}
    {created : Bool} {s : ControlTree} (hopen : Open s₀ (done ++ rest) caller)
    (h : Walked s₀ (done ++ rest) caller done created s) :
    wp (walkLoop (done ++ rest) true caller done rest created) s fun r _ =>
      ∃ created', r = .ok created' := by
  induction rest generalizing done created s with
  | nil => exact wp_ret ⟨created, rfl⟩
  | cons part rest ih =>
      have hassoc : done ++ part :: rest = done ++ [part] ++ rest := by simp
      have hpart : done ++ [part] <+: done ++ part :: rest := ⟨rest, hassoc.symm⟩
      have hdone : done <+: done ++ part :: rest := List.prefix_append _ _
      obtain ⟨d, hd⟩ := h.here
      refine wp_gets ?_
      cases hn : s.root.view (done ++ [part]) with
      | none =>
          have hallowed : created = false → allows d caller W = true := by
            intro hc
            obtain rfl := h.unchanged hc
            refine hopen.writable done d hdone hd ?_
            intro k hk
            have hkey : done ++ [k] = done ++ [part] := by
              refine List.IsPrefix.eq_of_length ?_ (by simp)
              exact List.prefix_of_prefix_length_le hk hpart (by simp)
            rw [hkey]
            exact hn
          refine wp_raiseIf_passed (by simp) ?_
          refine wp_call (requireAt_allowed hd hallowed) ?_ ?_
          · rintro u s' ⟨_, rfl⟩
            refine wp_modify ?_
            have hmade := walked_putDir h hd hn hallowed
            rw [hassoc] at hopen hmade ⊢
            exact ih hopen hmade
          · rintro e s' ⟨he, _⟩
            exact nomatch he
      | some entry =>
          cases hc : created with
          | true =>
              rw [(h.made hc).2.1 part []] at hn
              exact nomatch hn
          | false =>
              have hs := h.unchanged hc
              cases entry with
              | file f =>
                  rw [hs] at hn
                  exact absurd hn (hopen.noFile _ f hpart)
              | dir d' =>
                  rw [hassoc] at hopen ⊢
                  refine ih hopen ⟨⟨d', hn⟩, fun _ => hs, ?_⟩
                  exact fun hfalse => nomatch hfalse

/-- On an open way the walk makes what is missing. -/
theorem wp_walkToParent_open {f : NodeAttrs → TreeM β} {ps : List String}
    {caller : Option Caller} {s₀ : ControlTree} {Q : Except PyError β → ControlTree → Prop}
    (hopen : Open s₀ ps caller)
    (h : ∀ s d, metadata s = (metadata s₀).makeParents ps (ownership caller dirMode) →
      s.root.view ps = some (.dir d) → wp (f d) s Q) :
    wp (walkToParent ps true caller >>= f) s₀ Q := by
  have hstart : Walked s₀ ([] ++ ps) caller [] false s₀ :=
    ⟨s₀.root.view_root, fun _ => rfl, fun hfalse => nomatch hfalse⟩
  have hloop := wp_and (walkLoop_create s₀ caller [] ps false s₀ hstart)
    (walkLoop_open hopen hstart)
  refine wp_bind (wp_call hloop ?_ ?_)
  · rintro created s ⟨hw, _⟩
    rw [List.nil_append] at hw
    obtain ⟨d, hd⟩ := hw.here
    have hallowed : true = true ∧ created = false → allows d caller W = true := by
      rintro ⟨_, hc⟩
      obtain rfl := hw.unchanged hc
      refine hopen.writable ps d (List.prefix_refl _) hd ?_
      intro k hk
      have hlen := hk.length_le
      rw [List.length_append, List.length_singleton] at hlen
      omega
    have hmeta : metadata s = (metadata s₀).makeParents ps (ownership caller dirMode) := by
      cases hc : created with
      | true => exact (hw.made hc).1
      | false =>
          obtain rfl := hw.unchanged hc
          exact (makeParents_existing hd _).symm
    refine wp_gets ?_
    rw [hd]
    refine wp_call (requireAt_allowed hd hallowed) ?_ ?_
    · rintro u s' ⟨_, rfl⟩
      exact h s' d hmeta hd
    · rintro e s' ⟨he, _⟩
      exact nomatch he
  · rintro e s ⟨_, created, hok⟩
    exact nomatch hok

/-! ## The mutations -/

section Directories

variable {p : String} {ps : List String} {caller : Option Caller} {d d' : NodeAttrs}
  {s : ControlTree}

theorem makeDir_yields (hparts : parts p = .ok ps) (hne : ps ≠ [])
    (hparent : s.root.view ps.dropLast = some (.dir d)) (hallowed : allows d caller W = true)
    (hfree : s.root.view ps = none) :
    wp (makeDir p caller) s
      (Yields () ((metadata s).setNode ps (.dir (ownership caller dirMode)))) := by
  refine wp_ofExcept_ok hparts ?_
  refine wp_raiseIf_passed hne ?_
  refine wp_walkToParent_passed hparent ?_
  refine wp_require_passed hallowed ?_
  refine wp_gets (wp_raiseIf_passed (not_not.mpr hfree) ?_)
  exact wp_modify_last ⟨rfl, metadata_putDir hne hparent hfree _⟩

theorem childrenAt_eq_nil (hempty : ∀ k q, s.root.view (ps ++ k :: q) = none) :
    s.root.childrenAt ps = [] := by
  refine List.eq_nil_iff_forall_not_mem.mpr ?_
  rintro ⟨k, e⟩ hmem
  have hview := Tree.mem_childrenAt.mp hmem
  rw [hempty k []] at hview
  exact nomatch hview

theorem removeDir_yields (hparts : parts p = .ok ps) (hne : ps ≠ [])
    (hparent : s.root.view ps.dropLast = some (.dir d)) (hallowed : allows d caller W = true)
    (hdir : s.root.view ps = some (.dir d'))
    (hempty : ∀ k q, s.root.view (ps ++ k :: q) = none) :
    wp (removeDir p caller) s (Yields () ((metadata s).dropNode ps)) := by
  refine wp_ofExcept_ok hparts ?_
  refine wp_raiseIf_passed hne ?_
  refine wp_walkToParent_passed hparent ?_
  refine wp_require_passed hallowed ?_
  refine wp_gets ?_
  rw [hdir]
  refine wp_gets (wp_raiseIf_passed (not_not.mpr (childrenAt_eq_nil hempty)) ?_)
  exact wp_modify_last ⟨rfl, metadata_deleteDir hne hparent hempty⟩

theorem removeFile_yields {now : Option Time} {f : FileNode} (hparts : parts p = .ok ps)
    (hne : ps ≠ []) (hparent : s.root.view ps.dropLast = some (.dir d))
    (hallowed : allows d caller W = true) (hfile : s.root.view ps = some (.file f))
    (hcommitted : f.state = .committed)
    (hunlocked : ((metadata s).aliveLocks (pathKey ps) now).lock (pathKey ps) = none) :
    wp (removeFile p now caller) s
      (Yields f.blocks (((metadata s).aliveLocks (pathKey ps) now).dropNode ps)) := by
  refine wp_ofExcept_ok hparts ?_
  refine wp_raiseIf_passed hne ?_
  refine wp_walkToParent_passed hparent ?_
  refine wp_require_passed hallowed ?_
  refine wp_gets ?_
  rw [hfile]
  refine wp_raiseIf_passed (not_not.mpr hcommitted) ?_
  refine wp_cleanupLocks ?_
  intro s₁ hmeta hroot
  rw [← hmeta] at hunlocked
  have hfree : s₁.locks.get? (pathKey ps) = none := hunlocked
  refine wp_gets (wp_raiseIf_passed ?_ ?_)
  · rw [hfree]
    exact Bool.noConfusion
  refine wp_modify (wp_ret ⟨rfl, ?_⟩)
  rw [metadata_deleteFile (hroot ▸ hfile), hmeta]

end Directories

section Uploads

variable {p : String} {ps : List String} {caller : Option Caller} {f : FileNode}
  {s : ControlTree}

theorem beginUpload_yields {placements : List (String × List String)}
    {now leaseS : Option Time} {blockSize : Option Int} {stale : List BlockRecord}
    (hparts : parts p = .ok ps) (hne : ps ≠ [])
    (hallowed : (metadata s).WritableAbove ps.dropLast caller)
    (hfree : Free (s.root.view ps) now stale) :
    wp (beginUpload p placements now leaseS blockSize caller) s
      (Yields (placements, stale)
        (((metadata s).makeParents ps.dropLast (ownership caller dirMode)).setFile ps
          (newUpload placements now leaseS blockSize caller))) := by
  refine wp_ofExcept_ok hparts ?_
  refine wp_raiseIf_passed hne ?_
  refine wp_walkToParent_open (open_of_writableAbove hallowed) ?_
  intro s₁ d hmeta hd
  refine wp_gets ?_
  -- the name itself is not among the directories made
  have hname : s₁.root.view ps = s.root.view ps := by
    have hnode := congrFun (congrArg Metadata.node hmeta) ps
    refine hnode.trans (if_neg ?_)
    rintro ⟨hpre, _⟩
    have hlen := hpre.length_le
    rw [List.length_dropLast] at hlen
    have := List.length_pos_iff.mpr hne
    omega
  have hreplaceable : wp (replaceable p now (s.root.view ps)) s₁ fun r s' =>
      r = .ok stale ∧ s' = s₁ := by
    rcases hfree with ⟨hnone, rfl⟩ | ⟨f, hfile, hpending, hexpired, rfl⟩
    · rw [hnone]
      exact wp_ret ⟨rfl, rfl⟩
    · rw [hfile, replaceable, if_pos ⟨hpending, hexpired⟩]
      exact wp_ret ⟨rfl, rfl⟩
  have hnodir : ∀ d', s₁.root.view ps ≠ some (.dir d') := by
    intro d' hd'
    rw [hname] at hd'
    rcases hfree with ⟨hnone, _⟩ | ⟨f, hfile, _⟩
    · exact nomatch hnone.symm.trans hd'
    · exact nomatch hfile.symm.trans hd'
  rw [hname]
  refine wp_call hreplaceable ?_ ?_
  · rintro stale' s' ⟨hstale, rfl⟩
    obtain rfl := Except.ok.inj hstale
    refine wp_modify (wp_ret ⟨rfl, ?_⟩)
    rw [← hmeta]
    exact metadata_putFile hne hd hnodir _
  · rintro e s' ⟨he, _⟩
    exact nomatch he

theorem confirmBlock_yields {b sum : String} {size : Int} {now leaseS : Option Time}
    {blocks : List BlockRecord} (hparts : parts p = .ok ps)
    (hfile : s.root.view ps = some (.file f)) (hpending : f.state = .pending)
    (howner : ownerOrAdmin f.attrs caller = true)
    (hblocks : updateBlock b
      (fun b => { b with checksum := sum, sizeBytes := size, confirmed := true })
      f.blocks = some blocks) :
    wp (confirmBlock p b sum size now leaseS caller) s
      (Yields () ((metadata s).setFile ps { f with
        blocks
        leaseExpiresAt := (leaseEnd now leaseS).getD f.leaseExpiresAt })) := by
  refine wp_pending_passed hparts hfile hpending ?_
  refine wp_requireUploadOwner_passed hparts howner ?_
  rw [hblocks]
  exact wp_modify_last ⟨rfl, metadata_replaceFile hfile _⟩

theorem completeUpload_yields (hparts : parts p = .ok ps)
    (hfile : s.root.view ps = some (.file f)) (hpending : f.state = .pending)
    (howner : ownerOrAdmin f.attrs caller = true)
    (hconfirmed : ∀ b ∈ f.blocks, b.confirmed = true) :
    wp (completeUpload p caller) s
      (Yields () ((metadata s).setFile ps { f with state := .committed })) := by
  refine wp_pending_passed hparts hfile hpending ?_
  refine wp_requireUploadOwner_passed hparts howner ?_
  have hnone : f.blocks.filter (fun b => !b.confirmed) = [] := by
    refine List.filter_eq_nil_iff.mpr ?_
    intro b hb
    rw [hconfirmed b hb]
    exact Bool.noConfusion
  refine wp_raiseIf_passed ?_ ?_
  · rw [hnone]
    exact not_not.mpr rfl
  exact wp_modify_last ⟨rfl, metadata_replaceFile hfile _⟩

theorem abortUpload_yields (hparts : parts p = .ok ps) (hne : ps ≠ [])
    (hfile : s.root.view ps = some (.file f)) (hpending : f.state = .pending)
    (howner : ownerOrAdmin f.attrs caller = true) :
    wp (abortUpload p caller) s (Yields () ((metadata s).dropNode ps)) := by
  obtain ⟨d, hd⟩ := parent_of_view hne hfile
  refine wp_ofExcept_ok hparts ?_
  refine wp_raiseIf_passed hne ?_
  refine wp_walkToParent_passed hd ?_
  refine wp_gets ?_
  rw [hfile]
  refine wp_raiseIf_passed (not_not.mpr hpending) ?_
  refine wp_requireUploadOwner_passed hparts howner ?_
  exact wp_modify_last ⟨rfl, metadata_deleteFile hfile⟩

end Uploads

section Locks

variable {p l owner mode : String} {now leaseS : Time} {ps : List String}
  {caller : Option Caller} {f : FileNode} {md : LockMode} {st : LockState} {s : ControlTree}

/-- The lock that is read after `_cleanup_expired_locks`. -/
theorem locks_of_metadata {s₁ : ControlTree} {now : Option Time} {key : String}
    {entry : Option LockState} (hmeta : metadata s₁ = (metadata s).aliveLocks key now)
    (hlock : ((metadata s).aliveLocks key now).lock key = entry) :
    s₁.locks.get? key = entry := by
  rw [← hmeta] at hlock
  exact hlock

theorem acquireLock_yields (hparts : parts p = .ok ps) (hmode : parseLockMode mode = some md)
    (hlease : 0 < leaseS) (hfile : s.root.view ps = some (.file f))
    (hcommitted : f.state = .committed)
    (hallowed : allows f.attrs caller (if md = .r then R else W) = true)
    (hfree : ((metadata s).aliveLocks (pathKey ps) (some now)).lock (pathKey ps) = none) :
    wp (acquireLock p l owner mode now leaseS caller) s
      (Yields l (((metadata s).aliveLocks (pathKey ps) (some now)).setLock (pathKey ps)
        { mode := md, holders := Dict.empty.insert l (owner, now + leaseS) })) := by
  refine wp_canonicalPath_passed hparts fun hkey => ?_
  rw [hmode]
  refine wp_raiseIf_passed (not_le.mpr hlease) ?_
  refine wp_committed_passed hkey hfile hcommitted ?_
  refine wp_require_passed hallowed ?_
  refine wp_cleanupLocks ?_
  intro s₁ hmeta hroot
  refine wp_gets ?_
  rw [locks_of_metadata hmeta hfree]
  refine wp_modify (wp_ret ⟨rfl, ?_⟩)
  rw [metadata_setLock, hmeta]

theorem joinLock_yields (hparts : parts p = .ok ps) (hmode : parseLockMode mode = some .r)
    (hlease : 0 < leaseS) (hfile : s.root.view ps = some (.file f))
    (hcommitted : f.state = .committed) (hallowed : allows f.attrs caller R = true)
    (hshared : ((metadata s).aliveLocks (pathKey ps) (some now)).lock (pathKey ps) = some st)
    (hread : st.mode = .r) (hnew : st.holders.get? l = none) :
    wp (acquireLock p l owner mode now leaseS caller) s
      (Yields l (((metadata s).aliveLocks (pathKey ps) (some now)).setLock (pathKey ps)
        { st with holders := st.holders.insert l (owner, now + leaseS) })) := by
  refine wp_canonicalPath_passed hparts fun hkey => ?_
  rw [hmode]
  refine wp_raiseIf_passed (not_le.mpr hlease) ?_
  refine wp_committed_passed hkey hfile hcommitted ?_
  refine wp_require_passed hallowed ?_
  refine wp_cleanupLocks ?_
  intro s₁ hmeta hroot
  refine wp_gets ?_
  rw [locks_of_metadata hmeta hshared]
  refine wp_raiseIf_passed ?_ (wp_raiseIf_passed ?_ (wp_modify (wp_ret ⟨rfl, ?_⟩)))
  · rintro (hne | hne)
    · exact hne hread
    · exact hne rfl
  · rw [Dict.not_contains_iff.mpr hnew]
    exact Bool.noConfusion
  · rw [metadata_setLock, hmeta]

theorem renewLock_yields {h : String × Time} (hparts : parts p = .ok ps)
    (hlease : 0 < leaseS) (hfile : s.root.view ps = some (.file f))
    (hcommitted : f.state = .committed)
    (hlocked : ((metadata s).aliveLocks (pathKey ps) (some now)).lock (pathKey ps) = some st)
    (hheld : st.holders.get? l = some h) :
    wp (renewLock p l now leaseS) s
      (Yields () (((metadata s).aliveLocks (pathKey ps) (some now)).setLock (pathKey ps)
        { st with holders := st.holders.insert l (h.1, now + leaseS) })) := by
  refine wp_canonicalPath_passed hparts fun hkey => ?_
  refine wp_raiseIf_passed (not_le.mpr hlease) ?_
  refine wp_committed_passed hkey hfile hcommitted ?_
  refine wp_cleanupLocks ?_
  intro s₁ hmeta hroot
  refine wp_gets ?_
  rw [locks_of_metadata hmeta hlocked]
  dsimp only
  rw [hheld]
  refine wp_modify_last ⟨rfl, ?_⟩
  rw [metadata_setLock, hmeta]

/-- Both ways in which a holder leaves. -/
theorem releaseLock_yields {now : Option Time} (hparts : parts p = .ok ps)
    (hfile : s.root.view ps = some (.file f)) (hcommitted : f.state = .committed)
    (hlocked : ((metadata s).aliveLocks (pathKey ps) now).lock (pathKey ps) = some st)
    (hheld : st.holders.contains l = true) :
    wp (releaseLock p l now) s
      (Yields () (if (st.holders.erase l).isEmpty then
          ((metadata s).aliveLocks (pathKey ps) now).dropLock (pathKey ps)
        else ((metadata s).aliveLocks (pathKey ps) now).setLock (pathKey ps)
          { st with holders := st.holders.erase l })) := by
  refine wp_canonicalPath_passed hparts fun hkey => ?_
  refine wp_committed_passed hkey hfile hcommitted ?_
  refine wp_cleanupLocks ?_
  intro s₁ hmeta hroot
  refine wp_gets ?_
  rw [locks_of_metadata hmeta hlocked]
  refine wp_raiseIf_passed ?_ ?_
  · rw [hheld]
    exact Bool.noConfusion
  dsimp only
  cases hlast : (st.holders.erase l).isEmpty with
  | true =>
      refine wp_modify_last ⟨rfl, ?_⟩
      rw [metadata_dropLock, hmeta]
      rfl
  | false =>
      refine wp_modify_last ⟨rfl, ?_⟩
      rw [metadata_setLock, hmeta]
      rfl

theorem releaseLock_gone_yields (hparts : parts p = .ok ps)
    (hfile : s.root.view ps = some (.file f)) (hcommitted : f.state = .committed)
    (hgone : ((metadata s).aliveLocks (pathKey ps) (some now)).lock (pathKey ps) = none) :
    wp (releaseLock p l (some now)) s
      (Yields () ((metadata s).aliveLocks (pathKey ps) (some now))) := by
  refine wp_canonicalPath_passed hparts fun hkey => ?_
  refine wp_committed_passed hkey hfile hcommitted ?_
  refine wp_cleanupLocks ?_
  intro s₁ hmeta hroot
  refine wp_gets ?_
  rw [locks_of_metadata hmeta hgone]
  exact wp_raiseIf_last_passed (fun h => nomatch h) ⟨rfl, hmeta⟩

end Locks

section Attributes

variable {p : String} {ps : List String} {caller : Option Caller} {entry : NodeEntry}
  {s : ControlTree}

/-- What `_store_attrs` makes of a node. -/
def withAttrs (attrs : NodeAttrs) : NodeEntry → NodeEntry
  | .dir _ => .dir attrs
  | .file f => .file { f with attrs }

theorem wp_getVisibleNode_passed {f : List String × NodeEntry → TreeM β}
    {Q : Except PyError β → ControlTree → Prop} (hparts : parts p = .ok ps)
    (hn : s.root.view ps = some entry)
    (hcommitted : ∀ node, entry = .file node → node.state = .committed)
    (h : wp (f (ps, entry)) s Q) : wp (getVisibleNode p >>= f) s Q := by
  refine wp_bind (wp_ofExcept_ok hparts (wp_gets ?_))
  rw [hn]
  cases entry with
  | dir d => exact h
  | file node => exact wp_raiseIf_passed (not_not.mpr (hcommitted node rfl)) (wp_ret h)

theorem storeAttrs_yields (hn : s.root.view ps = some entry) (attrs : NodeAttrs) :
    wp (storeAttrs ps entry attrs) s
      (Yields () ((metadata s).setNode ps (withAttrs attrs entry))) := by
  cases entry with
  | dir d => exact wp_modify_last ⟨rfl, metadata_setDir hn attrs⟩
  | file node => exact wp_modify_last ⟨rfl, metadata_replaceFile hn _⟩

theorem chmod_yields {mode : Int} (hparts : parts p = .ok ps)
    (hn : s.root.view ps = some entry)
    (hcommitted : ∀ node, entry = .file node → node.state = .committed)
    (howner : ownerOrAdmin (attrsOf entry) caller = true) (hmode : validMode mode = true) :
    wp (chmod p mode caller) s (Yields () ((metadata s).setNode ps
      (withAttrs { attrsOf entry with mode := mode.toNat } entry))) := by
  refine wp_canonicalPath_passed hparts fun hkey => ?_
  refine wp_getVisibleNode_passed hkey hn hcommitted ?_
  refine wp_raiseIf_passed ?_ (wp_raiseIf_passed ?_ (storeAttrs_yields hn _))
  · rw [howner]
    exact Bool.noConfusion
  · rw [hmode]
    exact Bool.noConfusion

theorem wp_chownDenied_passed {f : Unit → TreeM β} {attrs : NodeAttrs}
    {owner group key : String} {Q : Except PyError β → ControlTree → Prop}
    (hcaller : ∀ c, caller = some c → c.isAdmin = false →
      owner = "" ∧ c.username = attrs.owner ∧ group ∈ c.groups)
    (h : wp (f ()) s Q) : wp (chownDenied attrs owner group key caller >>= f) s Q := by
  cases caller with
  | none => exact wp_bind (wp_ret h)
  | some c =>
      refine wp_bind (wp_raiseIf_passed ?_ (wp_raiseIf_last_passed ?_ h))
      · rintro ⟨hne, hadmin⟩
        exact hne (hcaller c rfl hadmin).1
      · rintro ⟨_, hadmin, hnot⟩
        exact hnot (hcaller c rfl hadmin).2

theorem chown_yields {owner group : String} (hparts : parts p = .ok ps)
    (hn : s.root.view ps = some entry)
    (hcommitted : ∀ node, entry = .file node → node.state = .committed)
    (hasks : owner ≠ "" ∨ group ≠ "")
    (hcaller : ∀ c, caller = some c → c.isAdmin = false →
      owner = "" ∧ c.username = (attrsOf entry).owner ∧ group ∈ c.groups)
    (howner : owner ≠ "" → s.users.get? owner ≠ none)
    (hgroup : group ≠ "" → validName group = true) :
    wp (chown p owner group caller) s (Yields () ((metadata s).setNode ps
      (withAttrs { attrsOf entry with
        owner := if owner ≠ "" then owner else (attrsOf entry).owner
        group := if group ≠ "" then group else (attrsOf entry).group } entry))) := by
  refine wp_canonicalPath_passed hparts fun hkey => ?_
  refine wp_getVisibleNode_passed hkey hn hcommitted ?_
  refine wp_raiseIf_passed ?_ ?_
  · rintro ⟨ho, hg⟩
    exact hasks.elim (fun h => h ho) fun h => h hg
  refine wp_chownDenied_passed hcaller ?_
  refine wp_gets (wp_raiseIf_passed ?_ ?_)
  · rintro ⟨hne, hmissing⟩
    exact howner hne (Dict.not_contains_iff.mp hmissing)
  refine wp_raiseIf_passed ?_ (storeAttrs_yields hn _)
  rintro ⟨hne, hinvalid⟩
  rw [hgroup hne] at hinvalid
  exact nomatch hinvalid

end Attributes

section Users

variable {username : String} {hash salt : List UInt8} {s : ControlTree}

theorem createUser_yields {groups : List String} {isAdmin : Bool}
    (hname : validName username = true) (hgroups : ∀ g ∈ groups, validName g = true)
    (hnew : s.users.get? username = none) :
    wp (createUser username hash salt groups isAdmin) s
      (Yields () ((metadata s).setUser username ⟨hash, salt, groups, isAdmin⟩)) := by
  refine wp_raiseIf_passed ?_ ?_
  · rw [hname]
    exact Bool.noConfusion
  have hnone : groups.filter (fun group => !validName group) = [] := by
    refine List.filter_eq_nil_iff.mpr ?_
    intro g hg
    rw [hgroups g hg]
    exact Bool.noConfusion
  rw [hnone]
  refine wp_gets (wp_raiseIf_passed ?_ (wp_modify_last ⟨rfl, metadata_setUser _ _ _⟩))
  dsimp only [id_eq]
  rw [Dict.not_contains_iff.mpr hnew]
  exact Bool.noConfusion

theorem changePassword_yields {user : UserRecord} (huser : s.users.get? username = some user) :
    wp (changePassword username hash salt) s
      (Yields () ((metadata s).setUser username { user with passwordHash := hash, salt })) := by
  refine wp_gets ?_
  dsimp only [id_eq]
  rw [huser]
  exact wp_modify_last ⟨rfl, metadata_setUser _ _ _⟩

end Users

section Writes

variable {p w l : String} {now : Time} {ps : List String} {caller : Option Caller}
  {f : FileNode} {r : WriteReservation} {s : ControlTree}

theorem wp_requireWriteLock_passed {f : Unit → TreeM β} {key : String}
    {Q : Except PyError β → ControlTree → Prop}
    (hheld : holdsWriteLock (((metadata s).aliveLocks key (some now)).lock key) l = true)
    (h : ∀ s₁, metadata s₁ = (metadata s).aliveLocks key (some now) →
      s₁.root = s.root → wp (f ()) s₁ Q) :
    wp (requireWriteLock key l now >>= f) s Q := by
  refine wp_bind (wp_cleanupLocks ?_)
  intro s₁ hmeta hroot
  rw [← hmeta] at hheld
  have hheld' : holdsWriteLock (s₁.locks.get? key) l = true := hheld
  refine wp_gets (wp_raiseIf_last_passed ?_ (h s₁ hmeta hroot))
  rw [hheld']
  exact Bool.noConfusion

/-- The reservation that is read after `_cleanup_expired_writes`. -/
theorem writes_of_metadata {s₁ : ControlTree} {m : Metadata} {entry : Option WriteReservation}
    (hmeta : metadata s₁ = m) (hwrite : m.write w = entry) : s₁.writes.get? w = entry := by
  rw [← hmeta] at hwrite
  exact hwrite

/-- The reservation that `begin_write` stores is the one of the rule. -/
theorem reservation_of_reserves {m : Metadata} {version offset length : Int}
    {proposals : List (Int × String × List String)} {leaseS : Time} {default : Int}
    {plan : List (Int × Int)}
    (hr : Reserves m ps f w l version offset length proposals now leaseS default caller r)
    (hplan : planWriteSlots (f.blocks.map BlockRecord.sizeBytes) (blockSizeOf f default)
      offset length = .ok plan) :
    plan.map Prod.fst = proposals.map Prod.fst ∧
    reserve w (pathKey ps) f.version l (blockSizeOf f default) plan
      (consecutive_plan hplan) proposals (now + leaseS) = r := by
  obtain ⟨plan', hplan', hindexes, hslots⟩ := hr.hplan
  obtain rfl := Except.ok.inj (hplan.symm.trans hplan')
  refine ⟨hindexes, ?_⟩
  have hwrite := hr.hwrite
  have hpath := hr.hpath
  have hbase := hr.hbase
  have hlock := hr.hlock
  have hblockSize := hr.hblockSize
  have hlease := hr.hlease
  clear hr
  unfold reserve
  cases r
  dsimp only at hslots hwrite hpath hbase hlock hblockSize hlease
  subst hslots hwrite hpath hbase hlock hblockSize hlease
  rfl

theorem beginWrite_yields {version offset length : Int}
    {proposals : List (Int × String × List String)} {leaseS : Time} {default : Int}
    {described : List SlotDescription} (hparts : parts p = .ok ps)
    (hr : Reserves (metadata s) ps f w l version offset length proposals now leaseS default
      caller r)
    (hdescribed : describeSlots f.blocks r.slots = .ok described) :
    wp (beginWrite p w l version offset length proposals now leaseS default caller) s
      (Yields (w, f.version, r.blockSize, described)
        (((metadata s).writeTable (pathKey ps) now).setWrite w r)) := by
  refine wp_canonicalPath_passed hparts fun hkey => ?_
  refine wp_committed_passed hkey hr.hfile hr.hcommitted ?_
  refine wp_require_passed hr.hallowed ?_
  refine wp_requireWriteLock_passed hr.hlocked ?_
  intro s₁ hmeta₁ hroot₁
  refine wp_cleanupWrites ?_
  intro s₂ hmeta hroot₂
  rw [hmeta₁] at hmeta
  refine wp_gets (wp_raiseIf_passed ?_ (wp_raiseIf_passed (not_not.mpr hr.hversion) ?_))
  · rw [writes_of_metadata hmeta hr.hfresh]
    exact Bool.noConfusion
  dsimp only
  split
  · next e hplan =>
      obtain ⟨plan, hplan', _⟩ := hr.hplan
      exact nomatch hplan.symm.trans hplan'
  · next plan hplan =>
      obtain ⟨hindexes, hreserve⟩ := reservation_of_reserves hr hplan
      refine wp_raiseIf_passed (not_not.mpr hindexes) ?_
      rw [hreserve]
      refine wp_modify (wp_ofExcept_ok hdescribed (wp_ret ⟨?_, ?_⟩))
      · rw [hr.hblockSize]
      · rw [metadata_setWrite, hmeta]
        rfl

theorem commitWrite_yields {version : Int} {confirmed : List (Int × String × String × Int)}
    {blocks replaced : List BlockRecord} (hparts : parts p = .ok ps)
    (hr : Publishes (metadata s) ps f w l version confirmed now caller r)
    (hpublished : publishSlots f.blocks (confirmedSlots r confirmed) = (blocks, .ok replaced)) :
    wp (commitWrite p w l version confirmed now caller) s
      (Yields (f.version + 1, replaced)
        ((((metadata s).writeTable (pathKey ps) now).setFile ps { f with
          blocks
          version := f.version + 1
          blockSize := r.blockSize }).dropWrite w)) := by
  refine wp_canonicalPath_passed hparts fun hkey => ?_
  refine wp_committed_passed hkey hr.hfile hr.hcommitted ?_
  refine wp_require_passed hr.hallowed ?_
  refine wp_cleanupWrites ?_
  intro s₁ hmeta₁ hroot₁
  have halive : ((metadata s).aliveWrites (some now)).write w = some r :=
    Option.filter_eq_some_iff.mpr ⟨hr.hreserved, decide_eq_true hr.halive⟩
  refine wp_gets ?_
  rw [writes_of_metadata hmeta₁ halive]
  refine wp_raiseIf_passed (not_not.mpr hr.hpath) ?_
  refine wp_raiseIf_passed (not_not.mpr hr.hlock) ?_
  refine wp_requireWriteLock_passed ?_ ?_
  · rw [hmeta₁, writeTable_comm]
    exact hr.hlocked
  intro s₂ hmeta hroot₂
  rw [hmeta₁, writeTable_comm] at hmeta
  have hfile : s₂.root.view ps = some (.file f) := by
    rw [hroot₂, hroot₁]
    exact hr.hfile
  refine wp_raiseIf_passed ?_ (wp_raiseIf_passed (not_not.mpr hr.hslots) ?_)
  · rintro (hne | hne)
    · exact hne hr.hbase
    · exact hne hr.hversion
  dsimp only
  rw [hpublished]
  refine wp_replaceFile hfile ?_
  intro s₃ hmeta₃ hfile₃
  refine wp_ofExcept_ok rfl (wp_replaceFile hfile₃ ?_)
  intro s₄ hmeta₄ _
  refine wp_modify (wp_ret ⟨rfl, ?_⟩)
  rw [metadata_dropWrite, hmeta₄, hmeta₃, setFile_setFile, hmeta]

theorem abortWrite_yields {now : Option Time} (hparts : parts p = .ok ps)
    (hreserved : ((metadata s).aliveWrites now).write w = some r)
    (hpath : r.path = pathKey ps) (hlock : r.lockId = l) :
    wp (abortWrite p w l now) s
      (Yields (r.slots.map discardedBlock) (((metadata s).aliveWrites now).dropWrite w)) := by
  refine wp_canonicalPath_passed hparts fun _ => ?_
  refine wp_cleanupWrites ?_
  intro s₁ hmeta hroot
  refine wp_gets ?_
  rw [writes_of_metadata hmeta hreserved]
  dsimp only
  rw [if_neg (not_not.mpr hpath)]
  refine wp_raiseIf_passed (not_not.mpr hlock) (wp_modify (wp_ret ⟨rfl, ?_⟩))
  rw [metadata_dropWrite, hmeta]

theorem abortWrite_gone_yields {now : Option Time} (hparts : parts p = .ok ps)
    (hgone : ∀ r, ((metadata s).aliveWrites now).write w = some r → r.path ≠ pathKey ps) :
    wp (abortWrite p w l now) s (Yields [] ((metadata s).aliveWrites now)) := by
  refine wp_canonicalPath_passed hparts fun _ => ?_
  refine wp_cleanupWrites ?_
  intro s₁ hmeta hroot
  refine wp_gets ?_
  cases hw : ((metadata s).aliveWrites now).write w with
  | none =>
      rw [writes_of_metadata hmeta hw]
      exact wp_ret ⟨rfl, hmeta⟩
  | some r =>
      rw [writes_of_metadata hmeta hw]
      dsimp only
      rw [if_pos (hgone r hw)]
      exact wp_ret ⟨rfl, hmeta⟩

theorem updateBlockReplicas_yields {b : String} {expected new : List String}
    {block : BlockRecord} {blocks : List BlockRecord} (hparts : parts p = .ok ps)
    (hfile : s.root.view ps = some (.file f)) (hcommitted : f.state = .committed)
    (hfind : f.blocks.find? (fun b' => b'.blockId = b) = some block)
    (hexpected : block.datanodeAddresses = expected)
    (hblocks : updateBlock b (fun b => { b with datanodeAddresses := new }) f.blocks
      = some blocks) :
    wp (updateBlockReplicas p b expected new) s
      (Yields () ((metadata s).setFile ps { f with blocks })) := by
  refine wp_committed_passed hparts hfile hcommitted ?_
  dsimp only
  rw [hfind]
  refine wp_raiseIf_passed (not_not.mpr hexpected) (wp_modify_last ⟨rfl, ?_⟩)
  rw [hblocks]
  exact metadata_replaceFile hfile _

end Writes

/-! ## The rules are complete -/

/-- A mutation whose result is written as `g` writes it. -/
theorem wp_yields {x : TreeM α} {g : α → Ret} {a : α} {m' : Metadata} {s : ControlTree}
    (h : wp x s (Yields a m')) : wp (x >>= fun a => pure (g a)) s (Yields (g a) m') := by
  refine wp_call h ?_ ?_
  · rintro a' s' ⟨ha, hmeta⟩
    rw [Except.ok.inj ha]
    exact wp_ret ⟨rfl, hmeta⟩
  · rintro e s' ⟨he, _⟩
    exact nomatch he

/-- **WHAT A RULE ALLOWS THE TREE DOES**, with the rule's answer. -/
theorem exec_complete {μ : Mutation} {s : ControlTree} {m m' : Metadata} {a : Ret}
    (hm : metadata s = m) (he : Effect μ m (.ok a) m') (hasks : Asks μ) :
    wp (exec μ) s (Yields a m') := by
  cases he with
  | makeDir hparts hne hparent hallowed hfree =>
      subst hm
      exact wp_yields (makeDir_yields hparts hne hparent hallowed hfree)
  | removeDir hparts hne hparent hallowed hdir hempty =>
      subst hm
      exact wp_yields (removeDir_yields hparts hne hparent hallowed hdir hempty)
  | removeFile hparts hne hparent hallowed hfile hcommitted hunlocked =>
      subst hm
      exact wp_yields
        (removeFile_yields hparts hne hparent hallowed hfile hcommitted hunlocked)
  | beginUpload hparts hne hallowed hfree =>
      subst hm
      exact wp_yields (g := fun a : List (String × List String) × List BlockRecord =>
        Ret.uploadBegun a.1 a.2) (beginUpload_yields hparts hne hallowed hfree)
  | confirmBlock hparts hfile hpending howner hblocks =>
      subst hm
      exact wp_yields (confirmBlock_yields hparts hfile hpending howner hblocks)
  | completeUpload hparts hfile hpending howner hconfirmed =>
      subst hm
      exact wp_yields (completeUpload_yields hparts hfile hpending howner hconfirmed)
  | abortUpload hparts hne hfile hpending howner =>
      subst hm
      exact wp_yields (abortUpload_yields hparts hne hfile hpending howner)
  | acquireLock hparts hmode hlease hfile hcommitted hallowed hfree =>
      subst hm
      exact wp_yields
        (acquireLock_yields hparts hmode hlease hfile hcommitted hallowed hfree)
  | joinLock hparts hmode hlease hfile hcommitted hallowed hshared hread hnew =>
      subst hm
      exact wp_yields
        (joinLock_yields hparts hmode hlease hfile hcommitted hallowed hshared hread hnew)
  | renewLock hparts hlease hfile hcommitted hlocked hheld =>
      subst hm
      exact wp_yields (renewLock_yields hparts hlease hfile hcommitted hlocked hheld)
  | releaseLock hparts hfile hcommitted hlocked hheld hmore =>
      subst hm
      have h := releaseLock_yields hparts hfile hcommitted hlocked hheld
      rw [hmore] at h
      exact wp_yields h
  | releaseLast hparts hfile hcommitted hlocked hheld hlast =>
      subst hm
      have h := releaseLock_yields hparts hfile hcommitted hlocked hheld
      rw [hlast] at h
      exact wp_yields h
  | releaseGone hparts hfile hcommitted hgone =>
      subst hm
      exact wp_yields (releaseLock_gone_yields hparts hfile hcommitted hgone)
  | updateBlockReplicas hparts hfile hcommitted hfind hexpected hblocks =>
      subst hm
      exact wp_yields
        (updateBlockReplicas_yields hparts hfile hcommitted hfind hexpected hblocks)
  | beginWrite hparts hr hdescribed =>
      subst hm
      exact wp_yields (g := fun a : String × Int × Int × List SlotDescription =>
        Ret.writeBegun a.1 a.2.1 a.2.2.1 a.2.2.2) (beginWrite_yields hparts hr hdescribed)
  | commitWrite hparts hr hpublished =>
      subst hm
      exact wp_yields (g := fun a : Int × List BlockRecord => Ret.writeCommitted a.1 a.2)
        (commitWrite_yields hparts hr hpublished)
  | abortWrite hparts hreserved hpath hlock =>
      subst hm
      exact wp_yields (abortWrite_yields hparts hreserved hpath hlock)
  | abortGone hparts hgone =>
      subst hm
      exact wp_yields (abortWrite_gone_yields hparts hgone)
  | createUser hname hgroups hnew =>
      subst hm
      exact wp_yields (createUser_yields hname hgroups hnew)
  | changePassword huser =>
      subst hm
      exact wp_yields (changePassword_yields huser)
  | setAttrsDir hparts hdir hμ =>
      subst hm
      cases hμ with
      | chmod howner hmode =>
          exact wp_yields
            (chmod_yields hparts hdir (fun _ h => nomatch h) howner hmode)
      | chown hcaller howner hgroup =>
          exact wp_yields
            (chown_yields hparts hdir (fun _ h => nomatch h) hasks hcaller howner hgroup)
  | @setAttrsFile _ _ p ps f attrs hparts hfile hcommitted hμ =>
      subst hm
      have hstate : ∀ node, (Entry.file f : NodeEntry) = .file node →
          node.state = .committed := by
        intro node h
        rw [← Entry.file.inj h]
        exact hcommitted
      cases hμ with
      | chmod howner hmode =>
          exact wp_yields (chmod_yields hparts hfile hstate howner hmode)
      | chown hcaller howner hgroup =>
          exact wp_yields
            (chown_yields hparts hfile hstate hasks hcaller howner hgroup)

/-- A `chown` that names nothing is refused. -/
theorem chown_refused {p : String} {caller : Option Caller} {s : ControlTree} :
    wp (chown p "" "" caller) s fun r _ => ∃ e, r = .error e := by
  refine wp_canonicalPath (fun e => ⟨e, rfl⟩) ?_
  intro ps _ _
  refine wp_getVisibleNode (fun e => ⟨e, rfl⟩) ?_
  intro ps' entry _ _ _
  refine wp_raiseIf (fun e => ⟨e, rfl⟩) ?_
  exact fun h => absurd ⟨rfl, rfl⟩ h

theorem asks_of_ok {μ : Mutation} {s s' : ControlTree} {a : Ret}
    (h : exec μ s = (.ok a, s')) : Asks μ := by
  cases μ with
  | chown p owner group caller =>
      by_contra hnot
      rw [Asks, not_or, not_not, not_not] at hnot
      obtain ⟨rfl, rfl⟩ := hnot
      have herror : wp (exec (.chown p "" "" caller)) s fun r _ => ∃ e, r = .error e :=
        wp_call chown_refused (fun _ _ ⟨_, he⟩ => nomatch he) fun e _ _ => ⟨e, rfl⟩
      obtain ⟨e, he⟩ := of_wp herror h
      exact nomatch he
  | makeDir | removeDir | removeFile | beginUpload | confirmBlock | completeUpload
  | abortUpload | acquireLock | renewLock | releaseLock | updateBlockReplicas | beginWrite
  | commitWrite | abortWrite | createUser | changePassword | chmod => exact trivial

/-! ## The two levels -/

/-- The tree, answering one call after the other. -/
def answering : System ControlTree (Mutation × Ret) where
  init := fun s => s = ControlTree.empty
  step := fun s call s' => exec call.1 s = (.ok call.2, s')

/-- The rules by themselves: no tree, no code, only what is said. -/
def rules : System Metadata (Mutation × Ret) where
  init := fun m => m = metadata ControlTree.empty
  step := fun m call m' => Asks call.1 ∧ Effect call.1 m (.ok call.2) m'

/-- A mutation succeeds exactly when a rule allows it. -/
theorem step_iff (s : ControlTree) (call : Mutation × Ret) (m' : Metadata) :
    (∃ s', answering.step s call s' ∧ metadata s' = m') ↔
      rules.step (metadata s) call m' := by
  constructor
  · rintro ⟨s', hexec, rfl⟩
    have he := exec_effect call.1 s
    rw [show exec call.1 s = (.ok call.2, s') from hexec] at he
    exact ⟨asks_of_ok hexec, he⟩
  · rintro ⟨hasks, he⟩
    obtain ⟨hok, hmeta⟩ := exec_complete rfl he hasks
    exact ⟨(exec call.1 s).2, Prod.ext hok rfl, hmeta⟩

/-- **THE RULES ARE EXACT.**  From any tree, a sequence of mutations with
    their answers is one that the code gives, in the end in a tree that says
    `m'`, if and only if the rules lead by it from what the tree says to `m'`.
    So each of the 18 mutations succeeds when and only when everything its
    rule checks holds, answers what the rule says, and changes nothing else;
    and trees that say the same answer the same, however they were built. -/
theorem calls_succeed_as_ruled (s : ControlTree) (calls : List (Mutation × Ret))
    (m' : Metadata) :
    (∃ s', answering.Path s calls s' ∧ metadata s' = m') ↔
      rules.Path (metadata s) calls m' :=
  System.Path.image_iff step_iff

end DfshaExactEffect
