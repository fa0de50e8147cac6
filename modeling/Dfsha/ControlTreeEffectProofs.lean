import Dfsha.MetadataProofs

/-! # The control tree refines its effects

    **`exec_effect`**: whatever a mutation does to the control tree, its
    result and the metadata before and after are related by `Effect`.  The
    proof follows the text of each mutation with the rules of `RaisingAction`:
    a refusal leaves the metadata as the last pruning left it, and a success
    meets one rule with everything that was checked on the way. -/

namespace DfshaControlTreeEffect

open InsertionDict NamedTree RaisingAction DfshaPath DfshaControlTree DfshaMetadata

variable {α β : Type}

/-! ## The primitives, seen from the metadata -/

theorem dropLast_append_getLastD {ps : List String} (h : ps ≠ []) :
    ps.dropLast ++ [ps.getLastD ""] = ps := by
  rw [List.getLastD_eq_getLast?, List.getLast?_eq_some_getLast h]
  exact List.dropLast_append_getLast h

theorem ne_nil_of_file {s : ControlTree} {ps : List String} {f : FileNode}
    (h : s.root.view ps = some (.file f)) : ps ≠ [] := by
  intro hnil
  obtain ⟨d, hd⟩ := s.root.view_root
  rw [hnil, hd] at h
  exact nomatch h

/-- A node that is not the root has a directory above it. -/
theorem parent_of_view {s : ControlTree} {ps : List String} {e : NodeEntry}
    (hne : ps ≠ []) (h : s.root.view ps = some e) :
    ∃ d, s.root.view ps.dropLast = some (.dir d) := by
  rw [← dropLast_append_getLastD hne] at h
  exact Tree.view_ancestor h

theorem metadata_putFile {s : ControlTree} {ps : List String} {d : NodeAttrs}
    (hne : ps ≠ []) (hparent : s.root.view ps.dropLast = some (.dir d))
    (hnodir : ∀ d', s.root.view ps ≠ some (.dir d')) (f : FileNode) :
    metadata { s with root := s.root.putFile ps.dropLast (ps.getLastD "") f }
      = (metadata s).setFile ps f := by
  have hps := dropLast_append_getLastD hne
  have hview : (s.root.putFile ps.dropLast (ps.getLastD "") f).view
      = Function.update s.root.view ps (some (.file f)) := by
    funext q
    rw [Tree.view_putFile f hparent (by rw [hps]; exact hnodir), hps,
      Function.update_apply]
  unfold metadata Metadata.setFile Metadata.setNode
  rw [hview]

theorem metadata_replaceFile {s : ControlTree} {ps : List String} {f : FileNode}
    (h : s.root.view ps = some (.file f)) (f' : FileNode) :
    metadata { s with root := s.root.putFile ps.dropLast (ps.getLastD "") f' }
      = (metadata s).setFile ps f' := by
  have hne := ne_nil_of_file h
  obtain ⟨d, hd⟩ := parent_of_view hne h
  refine metadata_putFile hne hd ?_ f'
  intro d' hd'
  rw [h] at hd'
  exact nomatch hd'

theorem metadata_putDir {s : ControlTree} {ps : List String} {d : NodeAttrs}
    (hne : ps ≠ []) (hparent : s.root.view ps.dropLast = some (.dir d))
    (hfree : s.root.view ps = none) (attrs : NodeAttrs) :
    metadata { s with root := s.root.putDir ps.dropLast (ps.getLastD "") attrs }
      = (metadata s).setNode ps (.dir attrs) := by
  have hps := dropLast_append_getLastD hne
  have hview : (s.root.putDir ps.dropLast (ps.getLastD "") attrs).view
      = Function.update s.root.view ps (some (.dir attrs)) := by
    funext q
    rw [Tree.view_putDir attrs hparent (by rw [hps]; exact hfree), hps,
      Function.update_apply]
  unfold metadata Metadata.setNode
  rw [hview]

theorem metadata_deleteFile {s : ControlTree} {ps : List String} {f : FileNode}
    (h : s.root.view ps = some (.file f)) :
    metadata { s with root := s.root.remove ps.dropLast (ps.getLastD "") }
      = (metadata s).dropNode ps := by
  have hps := dropLast_append_getLastD (ne_nil_of_file h)
  have hview : (s.root.remove ps.dropLast (ps.getLastD "")).view
      = Function.update s.root.view ps none := by
    funext q
    rw [Tree.view_remove_file (by rw [hps]; exact h), hps, Function.update_apply]
  unfold metadata Metadata.dropNode
  rw [hview]

theorem metadata_deleteDir {s : ControlTree} {ps : List String} {d : NodeAttrs}
    (hne : ps ≠ []) (hparent : s.root.view ps.dropLast = some (.dir d))
    (hempty : ∀ k q, s.root.view (ps ++ k :: q) = none) :
    metadata { s with root := s.root.remove ps.dropLast (ps.getLastD "") }
      = (metadata s).dropNode ps := by
  have hps := dropLast_append_getLastD hne
  have hview : (s.root.remove ps.dropLast (ps.getLastD "")).view
      = Function.update s.root.view ps none := by
    funext q
    rw [Tree.view_remove hparent, hps, Function.update_apply]
    by_cases hpre : ps <+: q
    · rw [if_pos hpre]
      obtain ⟨r, rfl⟩ := hpre
      cases r with
      | nil => rw [List.append_nil, if_pos rfl]
      | cons k r => rw [hempty k r, ite_self]
    · have hne' : q ≠ ps := by
        intro h
        exact hpre (by rw [h])
      rw [if_neg hpre, if_neg hne']
  unfold metadata Metadata.dropNode
  rw [hview]

theorem metadata_setDir {s : ControlTree} {ps : List String} {d : NodeAttrs}
    (h : s.root.view ps = some (.dir d)) (attrs : NodeAttrs) :
    metadata { s with root := s.root.setDir ps attrs }
      = (metadata s).setNode ps (.dir attrs) := by
  have hview : (s.root.setDir ps attrs).view
      = Function.update s.root.view ps (some (.dir attrs)) := by
    funext q
    rw [Tree.view_setDir attrs h, Function.update_apply]
  unfold metadata Metadata.setNode
  rw [hview]

theorem get?_cleanupLocks (locks : Dict String LockState) (key : String)
    (now : Time) (key' : String) :
    (cleanupLocks locks key (some now)).get? key'
      = if key' = key then (locks.get? key).bind (aliveHolders now)
        else locks.get? key' := by
  cases hst : locks.get? key with
  | none =>
      simp only [cleanupLocks, hst]
      by_cases hk : key' = key
      · rw [if_pos hk, hk]
        exact hst
      · rw [if_neg hk]
  | some st =>
      rw [Option.bind_some]
      cases ha : aliveHolders now st with
      | none =>
          simp only [cleanupLocks, hst, ha]
          rw [Dict.get?_erase]
      | some alive =>
          simp only [cleanupLocks, hst, ha]
          rw [Dict.get?_insert]

theorem metadata_cleanupLocks (s : ControlTree) (key : String)
    (now : Option Time) :
    metadata { s with locks := cleanupLocks s.locks key now }
      = (metadata s).aliveLocks key now := by
  cases now with
  | none => rfl
  | some now =>
      have hget : (cleanupLocks s.locks key (some now)).get?
          = Function.update s.locks.get? key
              ((s.locks.get? key).bind (aliveHolders now)) := by
        funext key'
        rw [get?_cleanupLocks, Function.update_apply]
      unfold metadata Metadata.aliveLocks
      rw [hget]

theorem metadata_cleanupWrites (s : ControlTree) (now : Option Time) :
    metadata { s with writes := cleanupWrites s.writes now }
      = (metadata s).aliveWrites now := by
  cases now with
  | none => rfl
  | some now =>
      have hget : (cleanupWrites s.writes (some now)).get?
          = fun w => (s.writes.get? w).filter fun r => now < r.leaseExpiresAt := by
        funext w
        exact Dict.get?_filter s.writes _ w
      unfold metadata Metadata.aliveWrites
      rw [hget]

theorem metadata_setLock (s : ControlTree) (key : String) (st : LockState) :
    metadata { s with locks := s.locks.insert key st }
      = (metadata s).setLock key st := by
  have hget : (s.locks.insert key st).get?
      = Function.update s.locks.get? key (some st) := by
    funext key'
    rw [Dict.get?_insert, Function.update_apply]
  unfold metadata Metadata.setLock
  rw [hget]

theorem metadata_dropLock (s : ControlTree) (key : String) :
    metadata { s with locks := s.locks.erase key } = (metadata s).dropLock key := by
  have hget : (s.locks.erase key).get? = Function.update s.locks.get? key none := by
    funext key'
    rw [Dict.get?_erase, Function.update_apply]
  unfold metadata Metadata.dropLock
  rw [hget]

theorem metadata_setWrite (s : ControlTree) (w : String) (r : WriteReservation) :
    metadata { s with writes := s.writes.insert w r }
      = (metadata s).setWrite w r := by
  have hget : (s.writes.insert w r).get?
      = Function.update s.writes.get? w (some r) := by
    funext w'
    rw [Dict.get?_insert, Function.update_apply]
  unfold metadata Metadata.setWrite
  rw [hget]

theorem metadata_dropWrite (s : ControlTree) (w : String) :
    metadata { s with writes := s.writes.erase w } = (metadata s).dropWrite w := by
  have hget : (s.writes.erase w).get? = Function.update s.writes.get? w none := by
    funext w'
    rw [Dict.get?_erase, Function.update_apply]
  unfold metadata Metadata.dropWrite
  rw [hget]

theorem metadata_setUser (s : ControlTree) (u : String) (r : UserRecord) :
    metadata { s with users := s.users.insert u r } = (metadata s).setUser u r := by
  have hget : (s.users.insert u r).get?
      = Function.update s.users.get? u (some r) := by
    funext u'
    rw [Dict.get?_insert, Function.update_apply]
  unfold metadata Metadata.setUser
  rw [hget]

/-! ## The shared parts of the mutations -/

section Rules

variable {f : α → TreeM β} {s : ControlTree} {Q : Except PyError β → ControlTree → Prop}

theorem wp_require {f : Unit → TreeM β} {node : NodeAttrs} {caller : Option Caller}
    {want : Nat} {path : String} (refuse : ∀ e, Q (.error e) s)
    (h : allows node caller want = true → wp (f ()) s Q) :
    wp (require node caller want path >>= f) s Q := by
  refine wp_raiseIf refuse fun hc => h ?_
  rw [← Bool.not_eq_false]
  exact hc

theorem wp_canonicalPath {f : String → TreeM β} {p : String}
    (refuse : ∀ e, Q (.error e) s)
    (h : ∀ ps, parts p = .ok ps → parts (pathKey ps) = .ok ps →
      wp (f (pathKey ps)) s Q) :
    wp (ofExcept (canonicalPath p) >>= f) s Q := by
  refine wp_ofExcept refuse ?_
  intro key hkey
  obtain ⟨ps, hps, rfl, hkey'⟩ := canonicalPath_ok hkey
  exact h ps hps hkey'

/-- A lookup that reads only, and finds a file in the given state. -/
def FoundFile (p : String) (state : FileState) (s : ControlTree) :
    Except PyError (List String × FileNode) → ControlTree → Prop :=
  fun r s' => s' = s ∧ ∀ a, r = .ok a → parts p = .ok a.1 ∧
    s.root.view a.1 = some (.file a.2) ∧ a.2.state = state

theorem foundFile_refused {p : String} {state : FileState} {s : ControlTree}
    (e : PyError) : FoundFile p state s (.error e) s :=
  ⟨rfl, fun _ h => nomatch h⟩

/-- A lookup that refuses what is not a file in the given state. -/
theorem found_of_lookup {p : String} {state : FileState}
    {k : List String → Option NodeEntry → TreeM (List String × FileNode)}
    (hnone : ∀ ps, ∃ e, k ps none = raise e) (hdir : ∀ ps d, ∃ e, k ps (some (.dir d)) = raise e)
    (hfile : ∀ ps node, ∃ e, k ps (some (.file node)) =
      raiseIf (node.state ≠ state) e >>= fun _ => pure (ps, node)) (s : ControlTree) :
    wp (ofExcept (parts p) >>= fun ps => getNode ps >>= k ps) s (FoundFile p state s) := by
  refine wp_ofExcept foundFile_refused ?_
  intro ps hps
  refine wp_gets ?_
  cases hn : s.root.view ps with
  | none =>
      obtain ⟨e, he⟩ := hnone ps
      rw [he]
      exact wp_raise foundFile_refused _
  | some entry =>
      cases entry with
      | dir d =>
          obtain ⟨e, he⟩ := hdir ps d
          rw [he]
          exact wp_raise foundFile_refused _
      | file node =>
          obtain ⟨e, he⟩ := hfile ps node
          rw [he]
          refine wp_raiseIf foundFile_refused ?_
          intro hc
          refine wp_ret ⟨rfl, ?_⟩
          rintro a ha
          obtain rfl := Except.ok.inj ha
          exact ⟨hps, hn, not_not.mp hc⟩

theorem getCommittedFile_found (p : String) (s : ControlTree) :
    wp (getCommittedFile p) s (FoundFile p .committed s) :=
  found_of_lookup (fun _ => ⟨_, rfl⟩) (fun _ _ => ⟨_, rfl⟩) (fun _ _ => ⟨_, rfl⟩) s

theorem getPendingFile_found (p : String) (s : ControlTree) :
    wp (getPendingFile p) s (FoundFile p .pending s) :=
  found_of_lookup (fun _ => ⟨_, rfl⟩) (fun _ _ => ⟨_, rfl⟩) (fun _ _ => ⟨_, rfl⟩) s

/-- The lookup of a file that is there. -/
theorem wp_getCommittedFile_ok {p : String} {ps : List String} {f : FileNode}
    (hparts : parts p = .ok ps) (hview : s.root.view ps = some (.file f))
    (hstate : f.state = .committed) :
    wp (getCommittedFile p) s fun r s' => r = .ok (ps, f) ∧ s' = s := by
  refine wp_ofExcept_ok hparts ?_
  refine wp_gets ?_
  rw [hview]
  exact wp_raiseIf_passed (not_not.mpr hstate) (wp_ret ⟨rfl, rfl⟩)

theorem wp_foundFile {x : TreeM (List String × FileNode)}
    {f : List String × FileNode → TreeM β} {p : String} {state : FileState}
    (hx : wp x s (FoundFile p state s)) (refuse : ∀ e, Q (.error e) s)
    (h : ∀ ps node, parts p = .ok ps → s.root.view ps = some (.file node) →
      node.state = state → wp (f (ps, node)) s Q) : wp (x >>= f) s Q := by
  refine wp_call hx ?_ ?_
  · rintro ⟨ps, node⟩ s' ⟨rfl, hfound⟩
    obtain ⟨hps, hn, hstate⟩ := hfound _ rfl
    exact h ps node hps hn hstate
  · rintro e s' ⟨rfl, _⟩
    exact refuse e

theorem wp_requireUploadOwner {f : Unit → TreeM β} {node : FileNode}
    {caller : Option Caller} {p : String} (refuse : ∀ e, Q (.error e) s)
    (h : ownerOrAdmin node.attrs caller = true → wp (f ()) s Q) :
    wp (requireUploadOwner node caller p >>= f) s Q := by
  refine wp_bind (wp_ofExcept refuse ?_)
  intro key _
  refine wp_raiseIf_last refuse fun hc => h ?_
  rw [← Bool.not_eq_false]
  exact hc

/-! ### Walking to a parent -/

theorem walkLoop_noCreate (ps done rest : List String) (caller : Option Caller)
    (created : Bool) (s : ControlTree) :
    wp (walkLoop ps false caller done rest created) s fun r s' =>
      s' = s ∧ (r = .ok created ∨ ∃ e, r = .error e) := by
  have refuse : ∀ (s : ControlTree) (e : PyError), s = s ∧
      ((.error e : Except PyError Bool) = .ok created ∨
        ∃ e', (.error e : Except PyError Bool) = .error e') :=
    fun _ e => ⟨rfl, .inr ⟨e, rfl⟩⟩
  induction rest generalizing done with
  | nil => exact wp_ret ⟨rfl, .inl rfl⟩
  | cons part rest ih =>
      refine wp_gets ?_
      cases hn : s.root.view (done ++ [part]) with
      | none =>
          refine wp_raiseIf (refuse s) ?_
          intro hc
          exact absurd rfl hc
      | some e =>
          cases e with
          | dir d => exact ih (done ++ [part])
          | file f => exact wp_raise (refuse s) _

/-- Without `create` the walk reads only, and ends in a directory. -/
theorem wp_walkToParent {f : NodeAttrs → TreeM β} {ps : List String}
    (refuse : ∀ e, Q (.error e) s)
    (h : ∀ d, s.root.view ps = some (.dir d) → wp (f d) s Q) :
    wp (walkToParent ps false none >>= f) s Q := by
  refine wp_bind (wp_call (walkLoop_noCreate ps [] ps none false s) ?_ ?_)
  · rintro created s' ⟨rfl, hcreated⟩
    refine wp_gets ?_
    cases hn : s'.root.view ps with
    | none => exact wp_raise refuse _
    | some e =>
        cases e with
        | file f => exact wp_raise refuse _
        | dir d =>
            refine wp_bind (wp_gets ?_)
            rw [hn]
            show wp (if false = true ∧ created = false then _ else pure ()) s' _
            rw [if_neg (by simp)]
            exact h d hn
  · rintro e s' ⟨rfl, _⟩
    exact refuse e

/-- The walk to a directory that is there. -/
theorem walkLoop_passed {done rest : List String} {d : NodeAttrs} (created : Bool)
    (h : s.root.view (done ++ rest) = some (.dir d)) (ps : List String)
    (caller : Option Caller) :
    wp (walkLoop ps false caller done rest created) s fun r s' => r = .ok created ∧ s' = s := by
  induction rest generalizing done with
  | nil => exact wp_ret ⟨rfl, rfl⟩
  | cons part rest ih =>
      have happend : done ++ part :: rest = (done ++ [part]) ++ rest := by
        rw [List.append_assoc]
        rfl
      obtain ⟨d', hd'⟩ : ∃ d', s.root.view (done ++ [part]) = some (.dir d') := by
        cases rest with
        | nil => exact ⟨d, h⟩
        | cons k rest =>
            rw [happend] at h
            exact Tree.view_ancestor h
      refine wp_gets ?_
      rw [hd']
      rw [happend] at h
      exact ih h

theorem walkToParent_passed {ps : List String} {d : NodeAttrs}
    (h : s.root.view ps = some (.dir d)) :
    wp (walkToParent ps false none) s fun r s' => r = .ok d ∧ s' = s := by
  refine wp_call (walkLoop_passed false (List.nil_append ps ▸ h) ps none) ?_ ?_
  · rintro _ _ ⟨hr, rfl⟩
    refine wp_gets ?_
    rw [h]
    refine wp_bind (wp_gets ?_)
    rw [h]
    show wp (if false = true ∧ _ = false then _ else pure ()) _ _
    rw [if_neg (by simp)]
    exact ⟨rfl, rfl⟩
  · rintro _ _ ⟨hr, _⟩
    cases hr

/-- After `_cleanup_expired_locks`. -/
theorem wp_cleanupLocks {f : Unit → TreeM β} {key : String} {now : Option Time}
    (h : ∀ s₁, metadata s₁ = (metadata s).aliveLocks key now →
      s₁.root = s.root → wp (f ()) s₁ Q) :
    wp (cleanupExpiredLocks key now >>= f) s Q :=
  wp_modify (h _ (metadata_cleanupLocks s key now) rfl)

/-- After `_cleanup_expired_writes`. -/
theorem wp_cleanupWrites {f : Unit → TreeM β} {now : Option Time}
    (h : ∀ s₁, metadata s₁ = (metadata s).aliveWrites now →
      s₁.root = s.root → wp (f ()) s₁ Q) :
    wp (cleanupExpiredWrites now >>= f) s Q :=
  wp_modify (h _ (metadata_cleanupWrites s now) rfl)

/-- After a file has been stored over a file. -/
theorem wp_replaceFile {f : Unit → TreeM β} {ps : List String} {node node' : FileNode}
    (hn : s.root.view ps = some (.file node))
    (h : ∀ s₁, metadata s₁ = (metadata s).setFile ps node' →
      s₁.root.view ps = some (.file node') → wp (f ()) s₁ Q) :
    wp (storeFile ps node' >>= f) s Q := by
  have hmeta := metadata_replaceFile hn node'
  refine wp_modify (h _ hmeta ?_)
  refine (congrFun (congrArg Metadata.node hmeta) ps).trans ?_
  rw [Metadata.node_setFile, if_pos rfl]

end Rules

/-! ### Creating the directories of an upload -/

/-- The loop of `_walk_to_parent` has come to `done`: it has created nothing
    yet, or it has and below `done` there is nothing. -/
structure Walked (s₀ : ControlTree) (ps : List String) (caller : Option Caller)
    (done : List String) (created : Bool) (s : ControlTree) : Prop where
  here : ∃ d, s.root.view done = some (.dir d)
  unchanged : created = false → s = s₀
  made : created = true →
    metadata s = (metadata s₀).makeParents done (ownership caller dirMode) ∧
    (∀ k q, s.root.view (done ++ k :: q) = none) ∧
    (metadata s₀).WritableAbove ps caller

theorem requireAt_spec {ps : List String} {caller : Option Caller} {asked : Prop}
    [Decidable asked] {s : ControlTree} {d : NodeAttrs}
    (hd : s.root.view ps = some (.dir d)) :
    wp (requireAt ps caller asked) s fun r s' =>
      s' = s ∧ (r = .ok () ∧ (asked → allows d caller W = true) ∨
        asked ∧ ∃ e, r = .error e) := by
  refine wp_gets ?_
  rw [hd]
  show wp (if asked then _ else pure ()) s _
  by_cases ha : asked
  · rw [if_pos ha]
    refine wp_raiseIf_last (fun e => ⟨rfl, .inr ⟨ha, e, rfl⟩⟩) ?_
    intro hc
    exact ⟨rfl, .inl ⟨rfl, fun _ => Bool.not_eq_false _ ▸ hc⟩⟩
  · rw [if_neg ha]
    exact wp_ret ⟨rfl, .inl ⟨rfl, fun h => absurd h ha⟩⟩

/-- One more directory made extends the directories made. -/
theorem makeParents_concat {m : Metadata} {done : List String} {part : String}
    {attrs : NodeAttrs}
    (hfree : (m.makeParents done attrs).node (done ++ [part]) = none) :
    (m.makeParents done attrs).setNode (done ++ [part]) (.dir attrs)
      = m.makeParents (done ++ [part]) attrs := by
  have hnone : m.node (done ++ [part]) = none := by
    by_contra hne
    have h : (if done ++ [part] <+: done ∧ m.node (done ++ [part]) = none
        then some (Entry.dir attrs) else m.node (done ++ [part])) = none := hfree
    rw [if_neg fun hc => hne hc.2] at h
    exact hne h
  have hnode : ((m.makeParents done attrs).setNode (done ++ [part]) (.dir attrs)).node
      = (m.makeParents (done ++ [part]) attrs).node := by
    funext q
    rw [Metadata.node_setNode]
    show _ = if q <+: done ++ [part] ∧ m.node q = none then _ else _
    by_cases hq : q = done ++ [part]
    · have hpre : q <+: done ++ [part] := by rw [hq]
      rw [if_pos hq, if_pos ⟨hpre, hq ▸ hnone⟩]
    · have hiff : q <+: done ++ [part] ↔ q <+: done := by
        rw [List.prefix_concat_iff]
        exact or_iff_right hq
      rw [if_neg hq]
      show (if q <+: done ∧ m.node q = none then _ else _) = _
      by_cases hpre : q <+: done ∧ m.node q = none
      · rw [if_pos hpre, if_pos ⟨hiff.mpr hpre.1, hpre.2⟩]
      · rw [if_neg hpre, if_neg fun hc => hpre ⟨hiff.mp hc.1, hc.2⟩]
  unfold Metadata.setNode at hnode ⊢
  unfold Metadata.makeParents at hnode ⊢
  rw [Metadata.mk.injEq]
  exact ⟨hnode, rfl, rfl, rfl⟩

/-- A path that exists needs no directory made. -/
theorem makeParents_existing {s : ControlTree} {ps : List String} {e : NodeEntry}
    (h : s.root.view ps = some e) (attrs : NodeAttrs) :
    (metadata s).makeParents ps attrs = metadata s := by
  have hnode : ((metadata s).makeParents ps attrs).node = s.root.view := by
    funext q
    show (if q <+: ps ∧ s.root.view q = none then _ else s.root.view q) = _
    rw [if_neg]
    rintro ⟨⟨r, rfl⟩, hn⟩
    rw [Tree.view_below_none hn] at h
    exact nomatch h
  unfold Metadata.makeParents at hnode ⊢
  unfold metadata at hnode ⊢
  rw [Metadata.mk.injEq]
  exact ⟨hnode, rfl, rfl, rfl⟩

/-- The step of the loop that makes a directory. -/
theorem walked_putDir {s₀ s : ControlTree} {done rest : List String}
    {part : String} {caller : Option Caller} {created : Bool} {d : NodeAttrs}
    (h : Walked s₀ (done ++ part :: rest) caller done created s)
    (hd : s.root.view done = some (.dir d))
    (hn : s.root.view (done ++ [part]) = none)
    (hallowed : created = false → allows d caller W = true) :
    Walked s₀ (done ++ part :: rest) caller (done ++ [part]) true
      { s with
        root := s.root.putDir (done ++ [part]).dropLast
          ((done ++ [part]).getLastD "") (ownership caller dirMode) } := by
  have hne : done ++ [part] ≠ [] := by simp
  have hparent : s.root.view (done ++ [part]).dropLast = some (.dir d) := by
    rw [List.dropLast_concat]
    exact hd
  have hmeta := metadata_putDir hne hparent hn (ownership caller dirMode)
  have hview : ∀ q, (s.root.putDir (done ++ [part]).dropLast
      ((done ++ [part]).getLastD "") (ownership caller dirMode)).view q
        = if q = done ++ [part] then some (.dir (ownership caller dirMode))
          else s.root.view q := by
    intro q
    exact (congrFun (congrArg Metadata.node hmeta) q).trans
      (Metadata.node_setNode _ _ q)
  refine ⟨⟨ownership caller dirMode, ?_⟩, (fun hfalse => nomatch hfalse),
    fun _ => ⟨?_, ?_, ?_⟩⟩
  · rw [hview, if_pos rfl]
  · rw [hmeta]
    cases hc : created with
    | true =>
        have hmade := (h.made hc).1
        rw [hmade]
        refine makeParents_concat ?_
        rw [← hmade]
        exact hn
    | false =>
        have hs := h.unchanged hc
        rw [← hs, ← makeParents_concat, makeParents_existing hd]
        rw [makeParents_existing hd]
        exact hn
  · intro k q
    rw [hview, if_neg (by simp)]
    exact Tree.view_below_none hn
  · cases hc : created with
    | true => exact (h.made hc).2.2
    | false =>
        rw [← h.unchanged hc]
        refine ⟨done, d, List.prefix_append _ _, hd, ?_, hallowed hc⟩
        intro k hk
        have hpart : k = part := by
          obtain ⟨r, hr⟩ := hk
          rw [List.append_assoc] at hr
          have := List.append_cancel_left hr
          exact (List.cons.inj this).1
        rw [hpart]
        exact hn

theorem walkLoop_create (s₀ : ControlTree) (caller : Option Caller)
    (done rest : List String) (created : Bool) (s : ControlTree)
    (h : Walked s₀ (done ++ rest) caller done created s) :
    wp (walkLoop (done ++ rest) true caller done rest created) s fun r s' =>
      match r with
      | .ok created' => Walked s₀ (done ++ rest) caller (done ++ rest) created' s'
      | .error _ => s' = s₀ := by
  induction rest generalizing done created s with
  | nil =>
      refine wp_ret ?_
      rw [List.append_nil] at h ⊢
      exact h
  | cons part rest ih =>
      have hassoc : done ++ part :: rest = done ++ [part] ++ rest := by simp
      obtain ⟨d, hd⟩ := h.here
      refine wp_gets ?_
      cases hn : s.root.view (done ++ [part]) with
      | none =>
          have hstored : ∀ hallowed : created = false → allows d caller W = true,
              Walked s₀ (done ++ part :: rest) caller (done ++ [part]) true
                { s with
                  root := s.root.putDir (done ++ [part]).dropLast
                    ((done ++ [part]).getLastD "") (ownership caller dirMode) } := by
            intro hallowed
            exact walked_putDir h hd hn hallowed
          refine wp_raiseIf_passed (by simp) ?_
          refine wp_call (requireAt_spec hd) ?_ ?_
          · rintro u s' ⟨rfl, ⟨_, hallowed⟩ | ⟨_, e, he⟩⟩
            · refine wp_modify ?_
              rw [hassoc] at hstored ⊢
              exact ih (done ++ [part]) true _ (hstored hallowed)
            · exact nomatch he
          · rintro e s' ⟨rfl, ⟨he, _⟩ | ⟨hasked, _⟩⟩
            · exact nomatch he
            · exact h.unchanged hasked
      | some entry =>
          cases hc : created with
          | true =>
              rw [(h.made hc).2.1 part []] at hn
              exact nomatch hn
          | false =>
              have hs := h.unchanged hc
              cases entry with
              | file f => exact wp_raise (fun _ => hs) _
              | dir d' =>
                  rw [hassoc]
                  refine ih (done ++ [part]) false s ⟨⟨d', hn⟩, fun _ => hs, ?_⟩
                  intro hfalse
                  exact nomatch hfalse

/-- With `create` the walk makes the directories that lead to `ps`; if it is
    refused, nothing has been made. -/
theorem wp_walkToParent_create {f : NodeAttrs → TreeM β} {ps : List String}
    {caller : Option Caller} {s₀ : ControlTree}
    {Q : Except PyError β → ControlTree → Prop}
    (refuse : ∀ e, Q (.error e) s₀)
    (h : ∀ s d, metadata s = (metadata s₀).makeParents ps (ownership caller dirMode) →
      s.root.view ps = some (.dir d) → (metadata s₀).WritableAbove ps caller →
      wp (f d) s Q) :
    wp (walkToParent ps true caller >>= f) s₀ Q := by
  have hstart : Walked s₀ ([] ++ ps) caller [] false s₀ :=
    ⟨s₀.root.view_root, fun _ => rfl, fun hfalse => nomatch hfalse⟩
  refine wp_bind (wp_call (walkLoop_create s₀ caller [] ps false s₀ hstart) ?_ ?_)
  · intro created s hw
    rw [List.nil_append] at hw
    obtain ⟨d, hd⟩ := hw.here
    refine wp_gets ?_
    rw [hd]
    refine wp_call (requireAt_spec hd) ?_ ?_
    · rintro u s' ⟨rfl, ⟨_, hallowed⟩ | ⟨_, e, he⟩⟩
      · cases hc : created with
        | true =>
            obtain ⟨hmeta, _, hwritable⟩ := hw.made hc
            exact h s' d hmeta hd hwritable
        | false =>
            obtain rfl := hw.unchanged hc
            refine h s' d (makeParents_existing hd _).symm hd ?_
            refine ⟨ps, d, List.prefix_refl _, hd, ?_, hallowed ⟨rfl, hc⟩⟩
            intro k hk
            have hlen := hk.length_le
            rw [List.length_append, List.length_singleton] at hlen
            omega
      · exact nomatch he
    · rintro e s' ⟨rfl, ⟨he, _⟩ | ⟨hasked, _⟩⟩
      · exact nomatch he
      · rw [hw.unchanged hasked.2]
        exact refuse e
  · rintro e s rfl
    exact refuse e

/-! ## The mutations -/

/-- The outcome and the state are an effect of the mutation, its result being
    written as `g` writes it. -/
def Does (μ : Mutation) (g : α → Ret) (m : Metadata) :
    Except PyError α → ControlTree → Prop :=
  fun r s' => Effect μ m (r.map g) (metadata s')

theorem does_refused {μ : Mutation} {g : α → Ret} {m : Metadata} {s : ControlTree}
    (h : Pruned (timeOf μ) m (metadata s)) (e : PyError) :
    Does μ g m (.error e) s := Effect.refused h

/-- A refusal that has changed nothing. -/
theorem does_unchanged {μ : Mutation} {g : α → Ret} {s : ControlTree}
    (e : PyError) : Does μ g (metadata s) (.error e) s :=
  does_refused (Pruned.refl _ _) e

theorem wp_makeDir (p : String) (caller : Option Caller) (s : ControlTree) :
    wp (makeDir p caller) s
      (Does (.makeDir p caller) (fun _ => .none) (metadata s)) := by
  refine wp_ofExcept does_unchanged ?_
  intro ps hps
  refine wp_raiseIf does_unchanged ?_
  intro hne
  refine wp_walkToParent does_unchanged ?_
  intro d hd
  refine wp_require does_unchanged ?_
  intro hallowed
  refine wp_gets (wp_raiseIf does_unchanged ?_)
  intro hchild
  have hfree : s.root.view ps = none := not_not.mp hchild
  refine wp_modify_last ?_
  show Effect _ _ _ _
  rw [metadata_putDir hne hd hfree]
  exact .makeDir hps hne hd hallowed hfree

theorem wp_removeDir (p : String) (caller : Option Caller) (s : ControlTree) :
    wp (removeDir p caller) s
      (Does (.removeDir p caller) (fun _ => .none) (metadata s)) := by
  refine wp_ofExcept does_unchanged ?_
  intro ps hps
  refine wp_raiseIf does_unchanged ?_
  intro hne
  refine wp_walkToParent does_unchanged ?_
  intro d hd
  refine wp_require does_unchanged ?_
  intro hallowed
  refine wp_gets ?_
  cases hn : s.root.view ps with
  | none => exact wp_raise does_unchanged _
  | some e =>
      cases e with
      | file f => exact wp_raise does_unchanged _
      | dir d' =>
          refine wp_gets (wp_raiseIf does_unchanged ?_)
          intro hchildren
          have hempty : ∀ k q, s.root.view (ps ++ k :: q) = none :=
            Tree.view_below_of_childless (not_not.mp hchildren)
          refine wp_modify_last ?_
          show Effect _ _ _ _
          rw [metadata_deleteDir hne hd hempty]
          exact .removeDir hps hne hd hallowed hn hempty

theorem wp_removeFile (p : String) (now : Option Time) (caller : Option Caller)
    (s : ControlTree) :
    wp (removeFile p now caller) s
      (Does (.removeFile p now caller) .removed (metadata s)) := by
  refine wp_ofExcept does_unchanged ?_
  intro ps hps
  refine wp_raiseIf does_unchanged ?_
  intro hne
  refine wp_walkToParent does_unchanged ?_
  intro d hd
  refine wp_require does_unchanged ?_
  intro hallowed
  refine wp_gets ?_
  cases hn : s.root.view ps with
  | none => exact wp_raise does_unchanged _
  | some e =>
      cases e with
      | dir d' => exact wp_raise does_unchanged _
      | file f =>
          refine wp_raiseIf does_unchanged ?_
          intro hcommitted
          refine wp_cleanupLocks ?_
          intro s₁ hmeta hroot
          have refuse : ∀ e, Does (.removeFile p now caller) Ret.removed (metadata s)
              (.error e) s₁ := by
            refine does_refused ?_
            rw [hmeta]
            exact pruned_aliveLocks _ _ _
          refine wp_gets (wp_raiseIf refuse ?_)
          intro hlocked
          refine wp_modify (wp_ret ?_)
          show Effect _ _ _ _
          rw [metadata_deleteFile (hroot ▸ hn), hmeta]
          refine .removeFile hps hne hd hallowed hn (not_not.mp hcommitted) ?_
          rw [← hmeta]
          show s₁.locks.get? (pathKey ps) = none
          simpa using hlocked

theorem wp_beginUpload (p : String) (placements : List (String × List String))
    (now leaseS : Option Time) (blockSize : Option Int) (caller : Option Caller)
    (s : ControlTree) :
    wp (beginUpload p placements now leaseS blockSize caller) s
      (Does (.beginUpload p placements now leaseS blockSize caller)
        (fun a => .uploadBegun a.1 a.2) (metadata s)) := by
  refine wp_ofExcept does_unchanged ?_
  intro ps hps
  refine wp_raiseIf does_unchanged ?_
  intro hne
  have hps' := dropLast_append_getLastD hne
  refine wp_walkToParent_create does_unchanged ?_
  intro s₁ d hmeta hd hwritable
  refine wp_gets ?_
  -- the name itself is not among the directories made
  have hname : s₁.root.view ps = s.root.view ps := by
    have hnode := congrFun (congrArg Metadata.node hmeta) ps
    refine hnode.trans (if_neg ?_)
    rintro ⟨hpre, _⟩
    have hlen := hpre.length_le
    rw [List.length_dropLast] at hlen
    have := List.length_pos_iff.mpr hne
    omega
  have hput : ∀ stale, Free (s.root.view ps) now stale →
      wp (storeFile ps (newUpload placements now leaseS blockSize caller) >>=
        fun _ => pure (placements, stale)) s₁
        (Does (.beginUpload p placements now leaseS blockSize caller)
          (fun a => .uploadBegun a.1 a.2) (metadata s)) := by
    intro stale hfree
    refine wp_modify (wp_ret ?_)
    show Effect _ _ _ _
    rw [metadata_putFile hne hd, hmeta]
    · exact .beginUpload hps hne hwritable hfree
    · intro d' hd'
      rw [hname] at hd'
      rcases hfree with ⟨hnone, _⟩ | ⟨f, hfile, _⟩
      · rw [hnone] at hd'
        exact nomatch hd'
      · rw [hfile] at hd'
        exact nomatch hd'
  -- when the name is taken every directory on the way existed
  have hsame : ∀ e, s.root.view ps = some e → metadata s₁ = metadata s := by
    intro e he
    obtain ⟨d', hd'⟩ := parent_of_view hne he
    rw [hmeta]
    exact makeParents_existing hd' _
  rw [hname]
  cases hn : s.root.view ps with
  | none => exact hput [] (.inl ⟨hn, rfl⟩)
  | some entry =>
      have refuse : ∀ e, Does (.beginUpload p placements now leaseS blockSize caller)
          (fun a : List (String × List String) × List BlockRecord =>
            Ret.uploadBegun a.1 a.2) (metadata s) (.error e) s₁ := by
        refine does_refused ?_
        rw [hsame entry hn]
        exact Pruned.refl _ _
      cases entry with
      | dir d' => exact wp_raise refuse _
      | file f =>
          refine wp_bind ?_
          show wp (if f.state = .pending ∧ leaseExpired f now = true
            then pure f.blocks else raise _) s₁ _
          by_cases hc : f.state = .pending ∧ leaseExpired f now = true
          · rw [if_pos hc]
            exact hput f.blocks (.inr ⟨f, hn, hc.1, hc.2, rfl⟩)
          · rw [if_neg hc]
            exact refuse _

theorem wp_confirmBlock (p b sum : String) (size : Int)
    (now leaseS : Option Time) (caller : Option Caller) (s : ControlTree) :
    wp (confirmBlock p b sum size now leaseS caller) s
      (Does (.confirmBlock p b sum size now leaseS caller) (fun _ => .none)
        (metadata s)) := by
  refine wp_foundFile (getPendingFile_found _ _) does_unchanged ?_
  intro ps f hps hn hpending
  refine wp_requireUploadOwner does_unchanged ?_
  intro howner
  cases hb : updateBlock b
      (fun b => { b with checksum := sum, sizeBytes := size, confirmed := true })
      f.blocks with
  | none => exact wp_raise does_unchanged _
  | some blocks =>
      refine wp_modify_last ?_
      show Effect _ _ _ _
      rw [metadata_replaceFile hn]
      exact .confirmBlock hps hn hpending howner hb

theorem wp_completeUpload (p : String) (caller : Option Caller) (s : ControlTree) :
    wp (completeUpload p caller) s
      (Does (.completeUpload p caller) (fun _ => .none) (metadata s)) := by
  refine wp_foundFile (getPendingFile_found _ _) does_unchanged ?_
  intro ps f hps hn hpending
  refine wp_requireUploadOwner does_unchanged ?_
  intro howner
  refine wp_raiseIf does_unchanged ?_
  intro hunconfirmed
  refine wp_modify_last ?_
  show Effect _ _ _ _
  rw [metadata_replaceFile hn]
  refine .completeUpload hps hn hpending howner ?_
  intro b hb
  have hnil := List.map_eq_nil_iff.mp (not_not.mp hunconfirmed)
  have := List.filter_eq_nil_iff.mp hnil b hb
  simpa using this

theorem wp_abortUpload (p : String) (caller : Option Caller) (s : ControlTree) :
    wp (abortUpload p caller) s
      (Does (.abortUpload p caller) (fun _ => .none) (metadata s)) := by
  refine wp_ofExcept does_unchanged ?_
  intro ps hps
  refine wp_raiseIf does_unchanged ?_
  intro hne
  refine wp_walkToParent does_unchanged ?_
  intro d hd
  refine wp_gets ?_
  cases hn : s.root.view ps with
  | none => exact wp_raise does_unchanged _
  | some e =>
      cases e with
      | dir d' => exact wp_raise does_unchanged _
      | file f =>
          refine wp_raiseIf does_unchanged ?_
          intro hpending
          refine wp_requireUploadOwner does_unchanged ?_
          intro howner
          refine wp_modify_last ?_
          show Effect _ _ _ _
          rw [metadata_deleteFile hn]
          exact .abortUpload hps hne hn (not_not.mp hpending) howner

/-! ### Locks -/

theorem wp_acquireLock (p l owner mode : String) (now leaseS : Time)
    (caller : Option Caller) (s : ControlTree) :
    wp (acquireLock p l owner mode now leaseS caller) s
      (Does (.acquireLock p l owner mode now leaseS caller) .lockTaken
        (metadata s)) := by
  refine wp_canonicalPath does_unchanged ?_
  intro ps hps hkey
  cases hmode : parseLockMode mode with
  | none => exact wp_raise does_unchanged _
  | some md =>
      refine wp_raiseIf does_unchanged ?_
      intro hlease
      refine wp_foundFile (getCommittedFile_found _ _) does_unchanged ?_
      intro ps' f hps' hn hcommitted
      obtain rfl : ps = ps' := Except.ok.inj (hkey.symm.trans hps')
      refine wp_require does_unchanged ?_
      intro hallowed
      refine wp_cleanupLocks ?_
      intro s₁ hmeta hroot
      have refuse : ∀ e, Does (.acquireLock p l owner mode now leaseS caller)
          Ret.lockTaken (metadata s) (.error e) s₁ := by
        refine does_refused ?_
        rw [hmeta]
        exact pruned_aliveLocks _ _ _
      refine wp_gets ?_
      have hlock : (metadata s₁).lock (pathKey ps) = s₁.locks.get? (pathKey ps) := rfl
      rw [hmeta] at hlock
      cases hst : s₁.locks.get? (pathKey ps) with
      | none =>
          refine wp_modify (wp_ret ?_)
          show Effect _ _ _ _
          rw [metadata_setLock, hmeta]
          exact .acquireLock hps hmode (not_le.mp hlease) hn hcommitted hallowed
            (hlock.trans hst)
      | some st =>
          refine wp_raiseIf refuse ?_
          intro hshared
          rw [not_or, not_not, not_not] at hshared
          refine wp_raiseIf refuse ?_
          intro hnew
          refine wp_modify (wp_ret ?_)
          show Effect _ _ _ _
          rw [metadata_setLock, hmeta]
          rw [hshared.2] at hmode hallowed
          exact .joinLock hps hmode (not_le.mp hlease) hn hcommitted hallowed
            (hlock.trans hst) hshared.1
            (Dict.not_contains_iff.mp (Bool.eq_false_iff.mpr hnew))

theorem wp_renewLock (p l : String) (now leaseS : Time) (s : ControlTree) :
    wp (renewLock p l now leaseS) s
      (Does (.renewLock p l now leaseS) (fun _ => .none) (metadata s)) := by
  refine wp_canonicalPath does_unchanged ?_
  intro ps hps hkey
  refine wp_raiseIf does_unchanged ?_
  intro hlease
  refine wp_foundFile (getCommittedFile_found _ _) does_unchanged ?_
  intro ps' f hps' hn hcommitted
  obtain rfl : ps = ps' := Except.ok.inj (hkey.symm.trans hps')
  refine wp_cleanupLocks ?_
  intro s₁ hmeta hroot
  have refuse : ∀ e, Does (.renewLock p l now leaseS) (fun _ : Unit => Ret.none)
      (metadata s) (.error e) s₁ := by
    refine does_refused ?_
    rw [hmeta]
    exact pruned_aliveLocks _ _ _
  refine wp_gets ?_
  have hlock : (metadata s₁).lock (pathKey ps) = s₁.locks.get? (pathKey ps) := rfl
  rw [hmeta] at hlock
  cases hst : s₁.locks.get? (pathKey ps) with
  | none => exact wp_raise refuse _
  | some st =>
      dsimp only
      cases hh : st.holders.get? l with
      | none => exact wp_raise refuse _
      | some h =>
          refine wp_modify_last ?_
          show Effect _ _ _ _
          rw [metadata_setLock, hmeta]
          exact .renewLock hps (not_le.mp hlease) hn hcommitted (hlock.trans hst) hh

theorem wp_releaseLock (p l : String) (now : Option Time) (s : ControlTree) :
    wp (releaseLock p l now) s
      (Does (.releaseLock p l now) (fun _ => .none) (metadata s)) := by
  refine wp_canonicalPath does_unchanged ?_
  intro ps hps hkey
  refine wp_foundFile (getCommittedFile_found _ _) does_unchanged ?_
  intro ps' f hps' hn hcommitted
  obtain rfl : ps = ps' := Except.ok.inj (hkey.symm.trans hps')
  refine wp_cleanupLocks ?_
  intro s₁ hmeta hroot
  have refuse : ∀ e, Does (.releaseLock p l now) (fun _ : Unit => Ret.none)
      (metadata s) (.error e) s₁ := by
    refine does_refused ?_
    rw [hmeta]
    exact pruned_aliveLocks _ _ _
  refine wp_gets ?_
  have hlock : (metadata s₁).lock (pathKey ps) = s₁.locks.get? (pathKey ps) := rfl
  rw [hmeta] at hlock
  cases hst : s₁.locks.get? (pathKey ps) with
  | none =>
      refine wp_raiseIf_last refuse ?_
      intro hnow
      show Effect _ _ _ _
      rw [hmeta]
      cases now with
      | none => exact absurd rfl hnow
      | some now => exact .releaseGone hps hn hcommitted (hlock.trans hst)
  | some st =>
      refine wp_raiseIf refuse ?_
      intro hheld
      have hheld' := Bool.eq_true_of_not_eq_false hheld
      dsimp only
      cases hlast : (st.holders.erase l).isEmpty with
      | true =>
          refine wp_modify_last ?_
          show Effect _ _ _ _
          rw [metadata_dropLock, hmeta]
          exact .releaseLast hps hn hcommitted (hlock.trans hst) hheld' hlast
      | false =>
          refine wp_modify_last ?_
          show Effect _ _ _ _
          rw [metadata_setLock, hmeta]
          exact .releaseLock hps hn hcommitted (hlock.trans hst) hheld' hlast

/-! ### Attributes and users -/

theorem wp_getVisibleNode {f : List String × NodeEntry → TreeM β} {p : String}
    {s : ControlTree} {Q : Except PyError β → ControlTree → Prop}
    (refuse : ∀ e, Q (.error e) s)
    (h : ∀ ps entry, parts p = .ok ps → s.root.view ps = some entry →
      (∀ node, entry = .file node → node.state = .committed) →
      wp (f (ps, entry)) s Q) :
    wp (getVisibleNode p >>= f) s Q := by
  refine wp_bind (wp_ofExcept refuse ?_)
  intro ps hps
  refine wp_gets ?_
  cases hn : s.root.view ps with
  | none => exact wp_raise refuse _
  | some e =>
      cases e with
      | dir d => exact h ps (.dir d) hps hn (fun _ hfile => nomatch hfile)
      | file node =>
          refine wp_raiseIf refuse ?_
          intro hc
          refine h ps (.file node) hps hn ?_
          intro node' hnode
          rw [← Entry.file.inj hnode]
          exact not_not.mp hc

/-- Storing new attributes is the effect of the mutation that computed them. -/
theorem wp_storeAttrs {μ : Mutation} {p : String} {ps : List String}
    {entry : NodeEntry} {attrs : NodeAttrs} {s : ControlTree}
    (hps : parts p = .ok ps) (hn : s.root.view ps = some entry)
    (hcommitted : ∀ node, entry = .file node → node.state = .committed)
    (hμ : ChangesAttrs (metadata s) μ p (attrsOf entry) attrs) :
    wp (storeAttrs ps entry attrs) s (Does μ (fun _ => .none) (metadata s)) := by
  cases entry with
  | dir d =>
      refine wp_modify_last ?_
      show Effect _ _ _ _
      rw [metadata_setDir hn]
      exact .setAttrsDir hps hn hμ
  | file node =>
      refine wp_modify_last ?_
      show Effect _ _ _ _
      rw [metadata_replaceFile hn]
      exact .setAttrsFile hps hn (hcommitted node rfl) hμ

theorem wp_chmod (p : String) (mode : Int) (caller : Option Caller)
    (s : ControlTree) :
    wp (chmod p mode caller) s
      (Does (.chmod p mode caller) (fun _ => .none) (metadata s)) := by
  refine wp_canonicalPath does_unchanged ?_
  intro ps hps hkey
  refine wp_getVisibleNode does_unchanged ?_
  intro ps' entry hps' hn hcommitted
  obtain rfl : ps = ps' := Except.ok.inj (hkey.symm.trans hps')
  refine wp_raiseIf does_unchanged ?_
  intro howner
  refine wp_raiseIf does_unchanged ?_
  intro hmode
  exact wp_storeAttrs hps hn hcommitted
    (.chmod (Bool.eq_true_of_not_eq_false howner) (Bool.eq_true_of_not_eq_false hmode))

theorem wp_chownDenied {f : Unit → TreeM β} {attrs : NodeAttrs}
    {owner group key : String} {caller : Option Caller} {s : ControlTree}
    {Q : Except PyError β → ControlTree → Prop}
    (hsome : ¬(owner = "" ∧ group = "")) (refuse : ∀ e, Q (.error e) s)
    (h : (∀ c, caller = some c → c.isAdmin = false →
        owner = "" ∧ c.username = attrs.owner ∧ group ∈ c.groups) →
      wp (f ()) s Q) :
    wp (chownDenied attrs owner group key caller >>= f) s Q := by
  cases caller with
  | none => exact wp_bind (wp_ret (h fun c hc => nomatch hc))
  | some c =>
      refine wp_bind (wp_raiseIf refuse ?_)
      intro howner
      refine wp_raiseIf_last refuse ?_
      intro hgroup
      refine h ?_
      intro c' hc' hadmin
      obtain rfl : c = c' := Option.some.inj hc'
      have hempty : owner = "" := by
        by_contra hne
        exact howner ⟨hne, hadmin⟩
      refine ⟨hempty, ?_⟩
      by_contra hnot
      exact hgroup ⟨fun hg => hsome ⟨hempty, hg⟩, hadmin, hnot⟩

theorem wp_chown (p owner group : String) (caller : Option Caller)
    (s : ControlTree) :
    wp (chown p owner group caller) s
      (Does (.chown p owner group caller) (fun _ => .none) (metadata s)) := by
  refine wp_canonicalPath does_unchanged ?_
  intro ps hps hkey
  refine wp_getVisibleNode does_unchanged ?_
  intro ps' entry hps' hn hcommitted
  obtain rfl : ps = ps' := Except.ok.inj (hkey.symm.trans hps')
  refine wp_raiseIf does_unchanged ?_
  intro hsome
  refine wp_chownDenied hsome does_unchanged ?_
  intro hcaller
  refine wp_gets (wp_raiseIf does_unchanged ?_)
  intro huser
  refine wp_raiseIf does_unchanged ?_
  intro hgroup
  refine wp_storeAttrs hps hn hcommitted (.chown hcaller ?_ ?_)
  · intro hne hnone
    exact huser ⟨hne, Dict.not_contains_iff.mpr hnone⟩
  · intro hne
    refine Bool.eq_true_of_not_eq_false ?_
    intro hinvalid
    exact hgroup ⟨hne, hinvalid⟩

theorem wp_createUser (username : String) (hash salt : List UInt8)
    (groups : List String) (isAdmin : Bool) (s : ControlTree) :
    wp (createUser username hash salt groups isAdmin) s
      (Does (.createUser username hash salt groups isAdmin) (fun _ => .none)
        (metadata s)) := by
  refine wp_raiseIf does_unchanged ?_
  intro hname
  cases hgroups : groups.filter fun group => !validName group with
  | cons g gs => exact wp_raise does_unchanged _
  | nil =>
      refine wp_gets (wp_raiseIf does_unchanged ?_)
      intro hnew
      refine wp_modify_last ?_
      show Effect _ _ _ _
      rw [metadata_setUser]
      refine .createUser (Bool.eq_true_of_not_eq_false hname) ?_ ?_
      · intro g hg
        have := List.filter_eq_nil_iff.mp hgroups g hg
        simpa using this
      · exact Dict.not_contains_iff.mp (Bool.eq_false_iff.mpr hnew)

theorem wp_changePassword (username : String) (hash salt : List UInt8)
    (s : ControlTree) :
    wp (changePassword username hash salt) s
      (Does (.changePassword username hash salt) (fun _ => .none) (metadata s)) := by
  refine wp_gets ?_
  dsimp only [id_eq]
  cases hu : s.users.get? username with
  | none => exact wp_raise does_unchanged _
  | some user =>
      refine wp_modify_last ?_
      show Effect _ _ _ _
      rw [metadata_setUser]
      exact .changePassword hu

/-! ### Copy-on-write -/

theorem length_pySet {γ : Type} (l : List γ) (i : Int) (a : γ) :
    (pySet l i a).length = l.length := List.length_set

theorem pyIndex_ok {γ : Type} {l : List γ} {i : Int} (hlow : 0 ≤ i + l.length)
    (hhigh : i < l.length) : ∃ a, pyIndex l i = .ok a := by
  unfold pyIndex
  dsimp only
  by_cases hi : 0 ≤ i
  · rw [if_pos hi, if_pos hi]
    have hlt : i.toNat < l.length := by omega
    rw [List.getElem?_eq_getElem hlt]
    exact ⟨_, rfl⟩
  · rw [if_neg hi, if_pos hlow]
    have hlt : (i + l.length).toNat < l.length := by omega
    rw [List.getElem?_eq_getElem hlt]
    exact ⟨_, rfl⟩

/-- From an index that the list has on, consecutive slots are all published. -/
theorem publishSlots_ok {slots : List (WriteSlotRecord × String × Int)}
    {first : Int} (hslots : Consecutive first (slots.map fun s => s.1.index))
    {blocks : List BlockRecord} (hlow : 0 ≤ first + blocks.length) :
    ∃ blocks' replaced, publishSlots blocks slots = (blocks', .ok replaced) := by
  induction slots generalizing first blocks with
  | nil => exact ⟨blocks, [], rfl⟩
  | cons hd rest ih =>
      obtain ⟨slot, checksum, size⟩ := hd
      obtain ⟨hfirst, hrest⟩ := hslots
      have hindex : slot.index = first := hfirst
      rw [publishSlots]
      by_cases hlt : slot.index < blocks.length
      · rw [if_pos hlt]
        obtain ⟨old, hold⟩ := pyIndex_ok (l := blocks) (i := slot.index)
          (by rw [hindex]; exact hlow) hlt
        rw [hold]
        have hlow' : 0 ≤ first + 1 + ((pySet blocks slot.index
            ⟨slot.newBlockId, slot.newAddresses, checksum, size, true⟩).length : Int) := by
          rw [length_pySet]
          omega
        obtain ⟨blocks', replaced, hrec⟩ := ih hrest hlow'
        exact ⟨blocks', old :: replaced, by simp only [hrec]; rfl⟩
      · rw [if_neg hlt]
        refine ih hrest ?_
        rw [List.length_append, List.length_singleton]
        omega

/-- A publication of consecutive slots that fails has replaced nothing. -/
theorem publishSlots_error {slots : List (WriteSlotRecord × String × Int)}
    {first : Int} (hslots : Consecutive first (slots.map fun s => s.1.index))
    {blocks blocks' : List BlockRecord} {e : PyError}
    (h : publishSlots blocks slots = (blocks', .error e)) : blocks' = blocks := by
  cases slots with
  | nil => exact nomatch congrArg Prod.snd h
  | cons hd rest =>
      by_cases hlow : 0 ≤ first + blocks.length
      · obtain ⟨_, _, hok⟩ := publishSlots_ok hslots hlow
        rw [hok] at h
        exact nomatch congrArg Prod.snd h
      · obtain ⟨slot, checksum, size⟩ := hd
        have hindex : slot.index = first := hslots.1
        have hidx : pyIndex blocks slot.index
            = .error ⟨.indexError, "list index out of range"⟩ := by
          unfold pyIndex
          dsimp only
          rw [if_neg (by omega : ¬ 0 ≤ slot.index),
            if_neg (by omega : ¬ 0 ≤ slot.index + (blocks.length : Int))]
        rw [publishSlots, if_pos (by omega), hidx] at h
        exact (congrArg Prod.fst h).symm

section Confirmed

variable {r : WriteReservation} {confirmed : List (Int × String × String × Int)}

/-- The slots that a commit publishes are the reserved ones. -/
theorem fst_confirmedSlots
    (h : confirmed.map (fun c => (c.1, c.2.1, c.2.2.2)) =
      r.slots.map fun s => (s.index, s.newBlockId, s.newSize)) :
    (confirmedSlots r confirmed).map Prod.fst = r.slots := by
  have hlen := congrArg List.length h
  rw [List.length_map, List.length_map] at hlen
  refine List.map_fst_zip ?_
  rw [List.length_map, hlen]

theorem consecutive_confirmedSlots
    (h : confirmed.map (fun c => (c.1, c.2.1, c.2.2.2)) =
      r.slots.map fun s => (s.index, s.newBlockId, s.newSize)) :
    ∃ first, Consecutive first ((confirmedSlots r confirmed).map fun s => s.1.index) := by
  obtain ⟨first, hfirst⟩ := r.consecutive
  refine ⟨first, ?_⟩
  rw [← fst_confirmedSlots h, List.map_map] at hfirst
  exact hfirst

/-- They have the planned sizes. -/
theorem sizes_confirmedSlots
    (h : confirmed.map (fun c => (c.1, c.2.1, c.2.2.2)) =
      r.slots.map fun s => (s.index, s.newBlockId, s.newSize)) :
    (confirmedSlots r confirmed).map (fun q => q.2.2)
      = r.slots.map WriteSlotRecord.newSize := by
  have hlen := congrArg List.length h
  rw [List.length_map, List.length_map] at hlen
  have hsnd : (confirmedSlots r confirmed).map Prod.snd = confirmed.map fun c => c.2.2 := by
    refine List.map_snd_zip ?_
    rw [List.length_map, hlen]
  have hsizes := congrArg (List.map fun c : Int × String × Int => c.2.2) h
  rw [List.map_map, List.map_map] at hsizes
  rw [show (confirmedSlots r confirmed).map (fun q => q.2.2)
    = ((confirmedSlots r confirmed).map Prod.snd).map Prod.snd by rw [List.map_map]; rfl,
    hsnd, List.map_map]
  exact hsizes

end Confirmed

theorem wp_requireWriteLock {f : Unit → TreeM β} {key lockId : String} {now : Time}
    {s : ControlTree} {Q : Except PyError β → ControlTree → Prop}
    (refuse : ∀ e s₁, metadata s₁ = (metadata s).aliveLocks key (some now) →
      Q (.error e) s₁)
    (h : ∀ s₁, metadata s₁ = (metadata s).aliveLocks key (some now) →
      s₁.root = s.root →
      holdsWriteLock (((metadata s).aliveLocks key (some now)).lock key) lockId = true →
      wp (f ()) s₁ Q) :
    wp (requireWriteLock key lockId now >>= f) s Q := by
  refine wp_bind (wp_cleanupLocks ?_)
  intro s₁ hmeta hroot
  refine wp_gets (wp_raiseIf_last (fun e => refuse e s₁ hmeta) ?_)
  intro hheld
  refine h s₁ hmeta hroot ?_
  rw [← hmeta]
  exact Bool.eq_true_of_not_eq_false hheld

theorem wp_beginWrite (p w l : String) (version offset length : Int)
    (proposals : List (Int × String × List String)) (now leaseS : Time)
    (default : Int) (caller : Option Caller) (s : ControlTree) :
    wp (beginWrite p w l version offset length proposals now leaseS default caller) s
      (Does (.beginWrite p w l version offset length proposals now leaseS default
        caller) (fun a => .writeBegun a.1 a.2.1 a.2.2.1 a.2.2.2) (metadata s)) := by
  refine wp_canonicalPath does_unchanged ?_
  intro ps hps hkey
  refine wp_foundFile (getCommittedFile_found _ _) does_unchanged ?_
  intro ps' f hps' hn hcommitted
  obtain rfl : ps = ps' := Except.ok.inj (hkey.symm.trans hps')
  refine wp_require does_unchanged ?_
  intro hallowed
  refine wp_requireWriteLock (fun e s₁ hmeta => does_refused ?_ e) ?_
  · rw [hmeta]
    exact pruned_aliveLocks _ _ _
  intro s₁ hmeta₁ hroot₁ hheld
  refine wp_cleanupWrites ?_
  intro s₂ hmeta hroot₂
  rw [hmeta₁] at hmeta
  have refuse : ∀ e, Does (.beginWrite p w l version offset length proposals now
      leaseS default caller) (fun a : String × Int × Int × List SlotDescription =>
        Ret.writeBegun a.1 a.2.1 a.2.2.1 a.2.2.2) (metadata s) (.error e) s₂ := by
    refine does_refused ?_
    rw [hmeta]
    exact pruned_writeTable _ _ _
  refine wp_gets (wp_raiseIf refuse ?_)
  intro hfresh
  refine wp_raiseIf refuse ?_
  intro hversion
  dsimp only
  split
  · exact wp_raise refuse _
  · next plan hplan =>
      refine wp_raiseIf refuse ?_
      intro hindexes
      refine wp_modify ?_
      have hr : Reserves (metadata s) ps f w l version offset length proposals now
          leaseS default caller
          (reserve w (pathKey ps) f.version l (blockSizeOf f default) plan
            (consecutive_plan hplan) proposals (now + leaseS)) := {
        hfile := hn
        hcommitted := hcommitted
        hallowed := hallowed
        hlocked := hheld
        hfresh := by
          unfold Metadata.writeTable
          rw [← hmeta]
          show s₂.writes.get? w = none
          simpa using hfresh
        hversion := not_not.mp hversion
        hplan := ⟨plan, hplan, not_not.mp hindexes, rfl⟩
        hwrite := rfl
        hpath := rfl
        hbase := rfl
        hlock := rfl
        hblockSize := rfl
        hlease := rfl }
      refine wp_ofExcept_cases ?_ ?_
      · intro described hd
        refine wp_ret ?_
        show Effect _ _ _ _
        rw [metadata_setWrite, hmeta]
        exact .beginWrite hps hr hd
      · intro e hd
        show Effect _ _ _ _
        rw [metadata_setWrite, hmeta]
        exact .beginWriteLost hps hr hd

theorem setFile_same {m : Metadata} {ps : List String} {f : FileNode}
    (h : m.node ps = some (.file f)) : m.setFile ps f = m := by
  unfold Metadata.setFile Metadata.setNode
  rw [← h, Function.update_eq_self]

theorem setFile_setFile (m : Metadata) (ps : List String) (f f' : FileNode) :
    (m.setFile ps f).setFile ps f' = m.setFile ps f' := by
  unfold Metadata.setFile Metadata.setNode
  rw [Function.update_idem]

theorem writeTable_comm (m : Metadata) (key : String) (now : Time) :
    (m.aliveWrites (some now)).aliveLocks key (some now) = m.writeTable key now := rfl

theorem wp_commitWrite (p w l : String) (version : Int)
    (confirmed : List (Int × String × String × Int)) (now : Time)
    (caller : Option Caller) (s : ControlTree) :
    wp (commitWrite p w l version confirmed now caller) s
      (Does (.commitWrite p w l version confirmed now caller)
        (fun a => .writeCommitted a.1 a.2) (metadata s)) := by
  refine wp_canonicalPath does_unchanged ?_
  intro ps hps hkey
  refine wp_foundFile (getCommittedFile_found _ _) does_unchanged ?_
  intro ps' f hps' hn hcommitted
  obtain rfl : ps = ps' := Except.ok.inj (hkey.symm.trans hps')
  refine wp_require does_unchanged ?_
  intro hallowed
  refine wp_cleanupWrites ?_
  intro s₁ hmeta₁ hroot₁
  have refuse₁ : ∀ e, Does (.commitWrite p w l version confirmed now caller)
      (fun a : Int × List BlockRecord => Ret.writeCommitted a.1 a.2) (metadata s)
      (.error e) s₁ := by
    refine does_refused ?_
    rw [hmeta₁]
    exact pruned_aliveWrites _ _
  refine wp_gets ?_
  cases hw : s₁.writes.get? w with
  | none => exact wp_raise refuse₁ _
  | some r =>
      have hwrite : ((metadata s).aliveWrites (some now)).write w = some r := by
        rw [← hmeta₁]
        exact hw
      have hreserved := write_aliveWrites_eq_some hwrite
      refine wp_raiseIf refuse₁ ?_
      intro hpath
      refine wp_raiseIf refuse₁ ?_
      intro hlock
      have pruned₂ : Pruned (some now) (metadata s)
          ((metadata s).writeTable (pathKey ps) now) := pruned_writeTable _ _ _
      refine wp_requireWriteLock (fun e s₂ hmeta => does_refused ?_ e) ?_
      · rw [hmeta, hmeta₁, writeTable_comm]
        exact pruned₂
      intro s₂ hmeta hroot₂ hheld
      rw [hmeta₁, writeTable_comm] at hmeta hheld
      have hn₂ : s₂.root.view ps = some (.file f) := by
        rw [hroot₂, hroot₁]
        exact hn
      have refuse₂ : ∀ e, Does (.commitWrite p w l version confirmed now caller)
          (fun a : Int × List BlockRecord => Ret.writeCommitted a.1 a.2) (metadata s)
          (.error e) s₂ := by
        refine does_refused ?_
        rw [hmeta]
        exact pruned₂
      refine wp_raiseIf refuse₂ ?_
      intro hversion
      rw [not_or, not_not, not_not] at hversion
      refine wp_raiseIf refuse₂ ?_
      intro hslots
      have hslots' := not_not.mp hslots
      obtain ⟨first, hfirst⟩ := consecutive_confirmedSlots hslots'
      refine wp_replaceFile hn₂ ?_
      intro s₃ hmeta₃ hn₃
      refine wp_ofExcept_cases ?_ ?_
      · intro replaced hreplaced
        refine wp_replaceFile hn₃ ?_
        intro s₄ hmeta₄ _
        refine wp_modify (wp_ret ?_)
        show Effect _ _ _ _
        rw [metadata_dropWrite, hmeta₄, hmeta₃, setFile_setFile, hmeta]
        refine .commitWrite hps ?_ (Prod.ext rfl hreplaced)
        exact {
          hfile := hn
          hcommitted := hcommitted
          hallowed := hallowed
          hreserved := hreserved.1
          halive := hreserved.2
          hpath := not_not.mp hpath
          hlock := not_not.mp hlock
          hlocked := hheld
          hbase := hversion.1
          hversion := hversion.2
          hslots := hslots' }
      · intro e he
        have hsame : (publishSlots f.blocks (confirmedSlots r confirmed)).1 = f.blocks :=
          publishSlots_error hfirst (Prod.ext rfl he)
        refine does_refused ?_ e
        rw [hmeta₃, hsame, setFile_same (m := metadata s₂) hn₂, hmeta]
        exact pruned₂

theorem wp_abortWrite (p w l : String) (now : Option Time) (s : ControlTree) :
    wp (abortWrite p w l now) s
      (Does (.abortWrite p w l now) .writeAborted (metadata s)) := by
  refine wp_canonicalPath does_unchanged ?_
  intro ps hps hkey
  refine wp_cleanupWrites ?_
  intro s₁ hmeta hroot
  refine wp_gets ?_
  have hwrite : ((metadata s).aliveWrites now).write w = s₁.writes.get? w := by
    rw [← hmeta]
    rfl
  cases hw : s₁.writes.get? w with
  | none =>
      refine wp_ret ?_
      show Effect _ _ _ _
      rw [hmeta]
      refine .abortGone hps ?_
      intro r hr
      rw [hwrite, hw] at hr
      exact nomatch hr
  | some r =>
      show wp (if r.path ≠ pathKey ps then pure [] else _) s₁ _
      by_cases hpath : r.path = pathKey ps
      · rw [if_neg (not_not.mpr hpath)]
        refine wp_raiseIf (does_refused ?_) ?_
        · rw [hmeta]
          exact pruned_aliveWrites _ _
        intro hlock
        refine wp_modify (wp_ret ?_)
        show Effect _ _ _ _
        rw [metadata_dropWrite, hmeta]
        exact .abortWrite hps (hwrite.trans hw) hpath (not_not.mp hlock)
      · rw [if_pos hpath]
        refine wp_ret ?_
        show Effect _ _ _ _
        rw [hmeta]
        refine .abortGone hps ?_
        intro r' hr'
        rw [hwrite, hw] at hr'
        rw [← Option.some.inj hr']
        exact hpath

theorem updateBlock_isSome {b : String} {g : BlockRecord → BlockRecord}
    {blocks : List BlockRecord} {block : BlockRecord}
    (h : blocks.find? (fun b' => b'.blockId = b) = some block) :
    ∃ blocks', updateBlock b g blocks = some blocks' := by
  induction blocks with
  | nil => exact nomatch h
  | cons hd rest ih =>
      rw [updateBlock]
      by_cases hb : hd.blockId = b
      · exact ⟨_, if_pos hb⟩
      · rw [List.find?_cons_of_neg (by simpa using hb)] at h
        obtain ⟨blocks', hrest⟩ := ih h
        rw [if_neg hb, hrest]
        exact ⟨_, rfl⟩

theorem wp_updateBlockReplicas (p b : String) (expected new : List String)
    (s : ControlTree) :
    wp (updateBlockReplicas p b expected new) s
      (Does (.updateBlockReplicas p b expected new) (fun _ => .none)
        (metadata s)) := by
  refine wp_foundFile (getCommittedFile_found _ _) does_unchanged ?_
  intro ps f hps hn hcommitted
  dsimp only
  cases hfind : f.blocks.find? fun b' => b'.blockId = b with
  | none => exact wp_raise does_unchanged _
  | some block =>
      refine wp_raiseIf does_unchanged ?_
      intro hexpected
      obtain ⟨blocks, hblocks⟩ := updateBlock_isSome
        (g := fun b => { b with datanodeAddresses := new }) hfind
      refine wp_modify_last ?_
      show Effect _ _ _ _
      rw [metadata_replaceFile hn, hblocks]
      exact .updateBlockReplicas hps hn hcommitted hfind (not_not.mp hexpected) hblocks

/-! ## The refinement -/

/-- A mutation whose result is written as `g` writes it. -/
theorem wp_written {μ : Mutation} {x : TreeM α} {g : α → Ret} {s : ControlTree}
    (h : wp x s (Does μ g (metadata s))) :
    wp (x >>= fun a => pure (g a)) s fun r s' =>
      Effect μ (metadata s) r (metadata s') :=
  wp_call h (fun _ _ hok => wp_ret hok) fun _ _ herror => herror

/-- **EVERY MUTATION HAS ONE OF ITS EFFECTS.** -/
theorem exec_effect (μ : Mutation) (s : ControlTree) :
    Effect μ (metadata s) (exec μ s).1 (metadata (exec μ s).2) := by
  suffices h : wp (exec μ) s fun r s' => Effect μ (metadata s) r (metadata s') from h
  cases μ with
  | makeDir p c => exact wp_written (wp_makeDir p c s)
  | removeDir p c => exact wp_written (wp_removeDir p c s)
  | removeFile p now c => exact wp_written (wp_removeFile p now c s)
  | beginUpload p placements now leaseS blockSize c =>
      exact wp_written (wp_beginUpload p placements now leaseS blockSize c s)
  | confirmBlock p b sum size now leaseS c =>
      exact wp_written (wp_confirmBlock p b sum size now leaseS c s)
  | completeUpload p c => exact wp_written (wp_completeUpload p c s)
  | abortUpload p c => exact wp_written (wp_abortUpload p c s)
  | acquireLock p l o m now leaseS c =>
      exact wp_written (wp_acquireLock p l o m now leaseS c s)
  | renewLock p l now leaseS => exact wp_written (wp_renewLock p l now leaseS s)
  | releaseLock p l now => exact wp_written (wp_releaseLock p l now s)
  | updateBlockReplicas p b expected new =>
      exact wp_written (wp_updateBlockReplicas p b expected new s)
  | beginWrite p w l v offset length proposals now leaseS d c =>
      exact wp_written
        (wp_beginWrite p w l v offset length proposals now leaseS d c s)
  | commitWrite p w l v confirmed now c =>
      exact wp_written (wp_commitWrite p w l v confirmed now c s)
  | abortWrite p w l now => exact wp_written (wp_abortWrite p w l now s)
  | createUser u h salt g a => exact wp_written (wp_createUser u h salt g a s)
  | changePassword u h salt => exact wp_written (wp_changePassword u h salt s)
  | chmod p mode c => exact wp_written (wp_chmod p mode c s)
  | chown p owner group c => exact wp_written (wp_chown p owner group c s)

end DfshaControlTreeEffect
