import Dfsha.BlockAccessProofs

/-! # Where a capability is taken to

    An answer names the replicas to which its capabilities may be presented,
    and `_delete_blocks` presents one itself to each replica of a block.  A
    capability is worth something to whoever it is presented to, so the
    addresses matter: they should be those of DataNodes.

    They come from what a leader drew for an upload or a write, or from a
    repair.  From there they go into the tree, from the tree into reservations
    and results, and the results are remembered.  Nothing on that way brings an
    address from outside: a client never writes one. -/

namespace DfshaConfinedAddresses

open InsertionDict RaisingAction TransitionSystem TransitionSystem.System
open DfshaPath DfshaControlTree DfshaMetadata DfshaControlTreeEffect DfshaReplicatedTree
open DfshaBlockOwnership (toDelete pyIndex_position)
open DfshaReplicaPlacement (broughtLists AllLists BlocksHave allLists_apply newAddresses_fillSlots)
open DfshaListing (listBlocks_ok)
open DfshaControlServicer DfshaRpcCommits DfshaRpcAnswers DfshaBlockAccess

/-- The addresses are all in `A`. -/
def Within (A : Set String) (addresses : List String) : Prop := ∀ a ∈ addresses, a ∈ A

section Results

variable {A : Set String} {μ : Mutation} {m m' : Metadata} {ret : Ret}

/-- What a result gives to delete, and what an answer to it signs, is for
    addresses in `A`. -/
structure InsideResult (A : Set String) (ret : Ret) : Prop where
  deleted : ∀ b ∈ toDelete ret, Within A b.datanodeAddresses
  granted : ∀ g ∈ handedBy ret, Within A g.addresses

theorem mem_of_pyIndex {α : Type} {l : List α} {index : Int} {a : α}
    (h : pyIndex l index = .ok a) : a ∈ l := by
  obtain ⟨n, hn, _⟩ := pyIndex_position h
  exact List.mem_of_getElem? hn

/-- What a publication replaces was there, or was published by it. -/
theorem replaced_publishSlots {P : List String → Prop}
    {slots : List (WriteSlotRecord × String × Int)} {blocks blocks' replaced : List BlockRecord}
    (h : publishSlots blocks slots = (blocks', .ok replaced)) (hblocks : BlocksHave P blocks)
    (hslots : ∀ q ∈ slots, P q.1.newAddresses) : BlocksHave P replaced := by
  induction slots generalizing blocks replaced with
  | nil =>
      obtain rfl : [] = replaced := Except.ok.inj (congrArg Prod.snd h)
      exact fun b hb => absurd hb List.not_mem_nil
  | cons q rest ih =>
      obtain ⟨slot, checksum, size⟩ := q
      have hrest : ∀ q ∈ rest, P q.1.newAddresses :=
        fun q hq => hslots q (List.mem_cons_of_mem _ hq)
      have hnew : P slot.newAddresses := hslots _ List.mem_cons_self
      rw [publishSlots] at h
      by_cases hlt : slot.index < blocks.length
      · rw [if_pos hlt] at h
        cases hindex : pyIndex blocks slot.index with
        | error e =>
            rw [hindex] at h
            cases congrArg Prod.snd h
        | ok old =>
            rw [hindex] at h
            obtain ⟨n, _, hset⟩ := pyIndex_position hindex
            simp only [hset] at h
            have hblocks' := congrArg Prod.fst h
            obtain ⟨tail, htail, hcons⟩ := map_eq_ok (congrArg Prod.snd h)
            have htailHave : BlocksHave P tail := by
              refine ih (Prod.ext hblocks' htail) (fun b hb => ?_) hrest
              rcases List.mem_or_eq_of_mem_set hb with hold | rfl
              · exact hblocks b hold
              · exact hnew
            intro b hb
            rw [← hcons] at hb
            rcases List.mem_cons.mp hb with rfl | hb
            · exact hblocks b (mem_of_pyIndex hindex)
            · exact htailHave b hb
      · rw [if_neg hlt] at h
        refine ih h (fun b hb => ?_) hrest
        rcases List.mem_append.mp hb with hold | hadded
        · exact hblocks b hold
        · rw [List.mem_singleton.mp hadded]
          exact hnew

/-- **A RESULT HAS THE ADDRESSES OF THE TREE**, or those that its mutation brought. -/
theorem inside_effect (he : Effect μ m (.ok ret) m') (h : AllLists (Within A) m)
    (hbrought : ∀ l ∈ broughtLists μ, Within A l) : InsideResult A ret := by
  have nothing : toDelete ret = [] → handedBy ret = [] → InsideResult A ret := by
    intro hdelete hhanded
    refine ⟨fun b hb => ?_, fun g hg => ?_⟩
    · rw [hdelete] at hb
      cases hb
    · rw [hhanded] at hg
      cases hg
  generalize hr : (Except.ok ret : Except PyError Ret) = r at he
  cases he with
  | removeFile hparts hne hparent hallowed hfile =>
      obtain rfl := Except.ok.inj hr
      refine ⟨h.blocks _ _ (Metadata.file_eq_some.mpr hfile), fun g hg => ?_⟩
      cases hg
  | beginUpload hparts hne hallowed hfree =>
      obtain rfl := Except.ok.inj hr
      refine ⟨?_, fun g hg => ?_⟩
      · rcases hfree with ⟨_, rfl⟩ | ⟨f, hfile, _, _, rfl⟩
        · exact fun b hb => absurd hb List.not_mem_nil
        · exact h.blocks _ _ (Metadata.file_eq_some.mpr hfile)
      · obtain ⟨b, hb, rfl⟩ := List.mem_map.mp hg
        exact hbrought _ (List.mem_map_of_mem hb)
  | beginWrite hparts hreserves hdescribed =>
      obtain rfl := Except.ok.inj hr
      refine ⟨fun b hb => absurd hb List.not_mem_nil, fun g hg => ?_⟩
      obtain ⟨slot, hslot, rfl | ⟨b, hindex, rfl⟩⟩ := describeSlots_grants hdescribed hg
      · obtain ⟨plan, _, _, hslots⟩ := hreserves.hplan
        rw [hslots] at hslot
        exact hbrought _ (newAddresses_fillSlots hslot)
      · exact h.blocks _ _ (Metadata.file_eq_some.mpr hreserves.hfile) b (mem_of_pyIndex hindex)
  | commitWrite hparts hpublishes hpublished =>
      obtain rfl := Except.ok.inj hr
      refine ⟨?_, fun g hg => absurd hg List.not_mem_nil⟩
      refine replaced_publishSlots hpublished
        (h.blocks _ _ (Metadata.file_eq_some.mpr hpublishes.hfile)) fun q hq => ?_
      exact h.slots _ _ hpublishes.hreserved _ (List.of_mem_zip hq).1
  | abortWrite hparts hreserved =>
      obtain rfl := Except.ok.inj hr
      refine ⟨fun b hb => ?_, fun g hg => absurd hg List.not_mem_nil⟩
      obtain ⟨slot, hslot, rfl⟩ := List.mem_map.mp hb
      exact (h.pruned (pruned_aliveWrites _ _)).slots _ _ hreserved slot hslot
  | beginWriteLost | refused => cases hr
  | makeDir | removeDir | confirmBlock | completeUpload | abortUpload | acquireLock | joinLock
  | renewLock | releaseLock | releaseLast | releaseGone | updateBlockReplicas | abortGone
  | createUser | changePassword | setAttrsDir | setAttrsFile =>
      obtain rfl := Except.ok.inj hr
      exact nothing rfl rfl

end Results

/-! ## What a command keeps -/

/-- Every address in the tree, and in what is remembered, is in `A`. -/
structure Inside (A : Set String) (s : ReplicatedTree) : Prop where
  tree : AllLists (Within A) (metadata s.tree)
  remembered : ∀ key ret, s.appliedOps.get? key = some (.ok ret) → InsideResult A ret

section Commands

variable {A : Set String} {s : ReplicatedTree} {c : Command}

theorem within_of_legit (h : Legit A c) {μ : Mutation} (hcall : c.call = .mutation μ) :
    ∀ l ∈ broughtLists μ, Within A l := by
  cases h with
  | rpc hpermitted hbrought =>
      obtain rfl := Call.mutation.inj hcall
      exact hbrought
  | admin =>
      obtain rfl := Call.mutation.inj hcall
      exact fun l hl => absurd hl List.not_mem_nil
  | repair hnew =>
      obtain rfl := Call.mutation.inj hcall
      intro l hl
      rw [List.mem_singleton.mp hl]
      exact hnew

theorem result_apply (h : Inside A s) (hlegit : Legit A c) {ret : Ret}
    (hret : (apply c s).1 = .ok ret) : InsideResult A ret := by
  have happlied := apply_applied c s
  rw [hret] at happlied
  generalize ho : Outcome.ok ret = o at happlied
  generalize (apply c s).2 = s' at happlied
  cases happlied with
  | cached hop =>
      rw [← ho] at hop
      exact h.remembered _ ret hop
  | executed hnew hcall heffect =>
      rw [outcomeOf_eq_ok ho.symm] at heffect
      exact inside_effect heffect h.tree (within_of_legit hlegit hcall)
  | rejected => cases ho

theorem inside_apply (h : Inside A s) (hlegit : Legit A c) : Inside A (apply c s).2 where
  tree := allLists_apply h.tree fun _ hcall => within_of_legit hlegit hcall
  remembered := by
    intro key ret hkey
    cases hop : s.appliedOps.get? c.opId with
    | some o =>
        rw [apply_cached hop] at hkey
        exact h.remembered key ret hkey
    | none =>
        have hout : (apply c s).1 = .ok ret → InsideResult A ret := result_apply h hlegit
        rw [apply_executed hop] at hkey hout
        dsimp only at hkey hout
        rcases get?_remember hkey with ⟨_, hnew⟩ | hold
        · exact hout hnew.symm
        · exact h.remembered key ret hold

theorem inside_foldl (h : Inside A s) {commands : List Command}
    (hlegit : ∀ c ∈ commands, Legit A c) :
    Inside A (commands.foldl (fun s c => (apply c s).2) s) := by
  induction commands generalizing s with
  | nil => exact h
  | cons c commands ih =>
      exact ih (inside_apply h (hlegit c List.mem_cons_self))
        fun c' hc' => hlegit c' (List.mem_cons_of_mem _ hc')

theorem inside_empty : Inside A ReplicatedTree.empty := by
  refine ⟨⟨fun ps f hfile => ?_, fun w r hw => ?_⟩, fun key ret hkey => ?_⟩
  · cases ps with
    | nil => cases hfile
    | cons name ps => cases hfile
  · cases hw
  · cases hkey

end Commands

/-! ## Runs -/

section Runs

variable {A : Set String} {ttlS : Time} {c : Context} {s : ReplicatedTree}

theorem inside_serve (h : Inside A s) (hserved : Served A c) (request : Request) :
    Inside A (serve c request s).2.replicated := by
  have hothers : Inside A (afterOthers c s) := inside_foldl h hserved.others
  rcases commits_own hserved.toAuthentic request ⟨s, [], []⟩ with
    hsame | hafter | ⟨command, hown, happly⟩
  · have heq : (serve c request s).2.replicated = s := hsame
    rwa [heq]
  · have heq : (serve c request s).2.replicated = afterOthers c s := hafter
    rwa [heq]
  · have heq : (serve c request s).2.replicated = (apply command (afterOthers c s)).2 := happly
    rw [heq]
    exact inside_apply hothers (hserved.legit hown)

theorem inside_run {events : List Event} {w : Clients} (hrun : (clients A ttlS).Run events w) :
    Inside A w.replicated := by
  refine hrun.invariant (I := fun _ w => Inside A w.replicated) ?_ ?_
  · rintro w rfl
    exact inside_empty
  · rintro _ w e w' hw hstep
    cases hstep with
    | rpc hserved => exact inside_serve hw hserved _
    | commit hlegit => exact inside_apply hw hlegit

theorem within_of_rests (h : Inside A s) (hserved : Served A c) {grants : List Grant}
    {s' : ReplicatedTree} (hrests : Rests c s grants s') : ∀ g ∈ grants, Within A g.addresses := by
  cases hrests with
  | nothing => exact fun g hg => absurd hg List.not_mem_nil
  | listed htoken hblocks =>
      obtain ⟨ps, f, _, hfile, _, rfl⟩ := listBlocks_ok hblocks
      intro g hg
      obtain ⟨b, hb, rfl⟩ := List.mem_map.mp hg
      have hnode : (metadata s.tree).node ps = some (.file f) := hfile
      exact h.tree.blocks ps f (Metadata.file_eq_some.mpr hnode) b hb
  | outcome hown hret =>
      exact (result_apply (inside_foldl h hserved.others) (hserved.legit hown) hret).granted

theorem within_of_discards (h : Inside A s) (hserved : Served A c)
    {sent : List (String × String)} {s' : ReplicatedTree} (hdiscards : Discards c s sent s') :
    ∀ d ∈ sent, d.2 ∈ A := by
  intro d hd
  cases hdiscards with
  | nothing => cases hd
  | outcome hown hret =>
      obtain ⟨b, hb, _, ha⟩ := mem_toSend hd
      exact (result_apply (inside_foldl h hserved.others) (hserved.legit hown) hret).deleted
        b hb _ ha
  | pending =>
      obtain ⟨b, hb, _, ha⟩ := mem_toSend hd
      obtain ⟨ps, f, old, hfile, _, hmem, rfl⟩ := mem_pendingBlocks hb
      have hnode : (metadata s.tree).node ps = some (.file f) := hfile
      exact h.tree.blocks ps f (Metadata.file_eq_some.mpr hnode) old hmem _ ha

end Runs

end DfshaConfinedAddresses
