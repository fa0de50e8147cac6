import Dfsha.BlockOwnershipProofs

/-! # The abort of an upload

    `AbortUpload` reads the blocks of the pending upload, commits
    `abort_upload`, and if the commit succeeds sends `DeleteBlock` for every
    block it READ.  Any number of these handlers run at once, and any other
    command may be committed between the read and the commit.

    When the commit is executed, the upload it removes holds every block of
    the path, so what was read belongs to nobody afterwards.  When it is
    answered from memory nothing is removed, and the blocks that were read may
    be those of another upload. -/

namespace DfshaAbortUpload

open InsertionDict NamedTree Ownership TransitionSystem TransitionSystem.System
open DfshaPath DfshaControlTree DfshaMetadata DfshaReplicatedTree DfshaBlockOwnership

/-- What a handler does next. -/
inductive AbortPhase where
  /-- it has read the blocks, and commits -/
  | committing (blocks : List BlockRecord)
  /-- the deletions it still has to send, each to one address -/
  | deleting (pending : List (String × String))

/-- An `AbortUpload` in progress.  The key is the op id with the caller's
    prefix, as `_commit` makes it. -/
structure AbortCall where
  path : String
  key : String
  caller : Option Caller
  phase : AbortPhase

structure ControlNode where
  replicated : ReplicatedTree
  aborts : Dict Nat AbortCall

def ControlNode.empty : ControlNode := ⟨ReplicatedTree.empty, Dict.empty⟩

/-- The steps: a commit of anybody else, and those of the handler `n`. -/
inductive Label where
  | commit (c : Command)
  | read (n : Nat) (path key : String) (caller : Option Caller)
  | commitAbort (n : Nat)
  -- the outcome of the commit is not known, or never asked for
  | giveUp (n : Nat)
  | send (n : Nat)

def abortCommand (call : AbortCall) : Command where
  opId := call.key
  call := .mutation (.abortUpload call.path call.caller)

/-- The calls of `_delete_blocks`: every replica of every block. -/
def deletions (blocks : List BlockRecord) : List (String × String) :=
  blocks.flatMap fun b => b.datanodeAddresses.map fun a => (b.blockId, a)

/-- What a handler does with the outcome of its commit. -/
def afterCommit (aborts : Dict Nat AbortCall) (n : Nat) (call : AbortCall)
    (blocks : List BlockRecord) : Outcome → Dict Nat AbortCall
  | .ok _ => aborts.insert n { call with phase := .deleting (deletions blocks) }
  | .error _ _ => aborts.erase n

def next (s : ControlNode) : Label → Option ControlNode
  | .commit c => some { s with replicated := (apply c s.replicated).2 }
  | .read n path key caller =>
      if (s.aborts.get? n).isSome then none
      else
        let blocks := pendingBlocks s.replicated.tree path
        some { s with aborts := s.aborts.insert n ⟨path, key, caller, .committing blocks⟩ }
  | .commitAbort n =>
      match s.aborts.get? n with
      | some ⟨path, key, caller, .committing blocks⟩ =>
          let call : AbortCall := ⟨path, key, caller, .committing blocks⟩
          let applied := apply (abortCommand call) s.replicated
          some ⟨applied.2, afterCommit s.aborts n call blocks applied.1⟩
      | _ => none
  | .giveUp n => some { s with aborts := s.aborts.erase n }
  | .send n =>
      match s.aborts.get? n with
      | some ⟨path, key, caller, .deleting (_ :: rest)⟩ =>
          some { s with aborts := s.aborts.insert n ⟨path, key, caller, .deleting rest⟩ }
      | _ => none

/-- The `DeleteBlock` that a step sends: block and address. -/
def sends (s : ControlNode) : Label → Option (String × String)
  | .send n =>
      match s.aborts.get? n with
      | some ⟨_, _, _, .deleting (d :: _)⟩ => some d
      | _ => none
  | _ => none

def controlNode : System ControlNode Label := ofPartial ControlNode.empty next

/-- The block ids that a step brings in. -/
def labelIds : Label → List String
  | .commit c => commandIds c
  | _ => []

/-- Block ids are proposed once. -/
def FreshRun (ls : List Label) : Prop := (ls.flatMap labelIds).Nodup

instance (ls : List Label) : Decidable (FreshRun ls) :=
  inferInstanceAs (Decidable (List.Nodup _))

/-! ## The runs that are safe -/

/-- The commit of an abort is executed, or was refused when it was executed,
    or the file at the path has none of the blocks that were read. -/
def CommitsOwnAbort (s : ControlNode) (call : AbortCall)
    (blocks : List BlockRecord) : Prop :=
  s.replicated.appliedOps.get? call.key = none ∨
  (∃ cls message, s.replicated.appliedOps.get? call.key = some (.error cls message)) ∨
  ∀ ps f, parts call.path = .ok ps →
    (metadata s.replicated.tree).node ps = some (.file f) →
    ∀ b ∈ blocks, b.blockId ∉ fileIds f

/-- Every commit of an abort is one that `CommitsOwnAbort` allows. -/
def Sound (s : ControlNode) : Label → Prop
  | .commitAbort n => ∀ call blocks, s.aborts.get? n = some call →
      call.phase = .committing blocks → CommitsOwnAbort s call blocks
  | _ => True

/-- What is known of a handler: the blocks it read are held by the file at its
    path or by nobody; the blocks it deletes are gone. -/
def CallInv (used : List String) (m : Metadata) (call : AbortCall) : Prop :=
  match call.phase with
  | .committing blocks => ∀ b ∈ blocks, b.blockId ∈ used ∧
      ∀ i, b.blockId ∈ held m i → ∃ ps, parts call.path = .ok ps ∧ i = .file ps
  | .deleting pending => ∀ d ∈ pending, Gone used m d.1

structure NodeInv (used : List String) (s : ControlNode) : Prop where
  owned : Owned used s.replicated
  calls : ∀ n call, s.aborts.get? n = some call →
    CallInv used (metadata s.replicated.tree) call

/-- What `pending_blocks` returns are the blocks of the file at the path. -/
theorem pendingBlocks_held {s : ControlTree} {path : String} {b : BlockRecord}
    (hb : b ∈ pendingBlocks s path) :
    ∃ ps, parts path = .ok ps ∧ b.blockId ∈ held (metadata s) (.file ps) := by
  rw [pendingBlocks] at hb
  have hfound := DfshaControlTreeEffect.getPendingFile_found path s
  unfold RaisingAction.wp at hfound
  cases hr : (getPendingFile path s).1 with
  | error e =>
      rw [hr] at hb
      exact absurd hb List.not_mem_nil
  | ok a =>
      rw [hr] at hb hfound
      obtain ⟨hps, hn, _⟩ := hfound.2 a rfl
      obtain ⟨old, hold, rfl⟩ := List.mem_map.mp hb
      refine ⟨a.1, hps, ?_⟩
      rw [held_file (m := metadata s) hn]
      exact List.mem_map.mpr ⟨old, hold, rfl⟩

/-! ## What a step keeps -/

/-- A committed command keeps what is known of the handlers. -/
theorem callInv_apply {used : List String} {s : ReplicatedTree} {c : Command}
    {call : AbortCall} (howned : Owned used s) (hnd : (commandIds c).Nodup)
    (hfresh : ∀ x ∈ commandIds c, x ∉ used)
    (h : CallInv used (metadata s.tree) call) :
    CallInv (used ++ commandIds c) (metadata (apply c s).2.tree) call := by
  have hstep := (ownershipStep_apply howned hnd hfresh).1
  unfold CallInv at h ⊢
  cases hphase : call.phase with
  | committing blocks =>
      rw [hphase] at h
      intro b hb
      obtain ⟨hused, hholder⟩ := h b hb
      refine ⟨List.mem_append_left _ hused, ?_⟩
      intro i hi
      rcases hstep.source i _ hi with hnew | hold | ⟨w, hold⟩
      · exact absurd hused (hfresh _ hnew)
      · exact hholder i hold
      · obtain ⟨ps, _, hi'⟩ := hholder _ hold
        exact nomatch hi'
  | deleting pending =>
      rw [hphase] at h
      exact fun d hd => gone_step hstep hfresh (h d hd)

/-- What an executed abort leaves at its path: nothing. -/
theorem effect_abortUpload {p : String} {caller : Option Caller} {m m' : Metadata}
    {a : Ret} (h : Effect (.abortUpload p caller) m (.ok a) m') :
    ∃ ps, parts p = .ok ps ∧ m' = m.dropNode ps := by
  cases h with
  | abortUpload hparts hne hfile hpending howner => exact ⟨_, hparts, rfl⟩
  | setAttrsDir hparts hdir hμ => exact nomatch hμ
  | setAttrsFile hparts hfile hcommitted hμ => exact nomatch hμ

/-- **THE COMMIT OF A SOUND ABORT LEAVES WHAT WAS READ TO NOBODY.** -/
theorem gone_commitAbort {used : List String} {s : ControlNode} {call : AbortCall}
    {blocks : List BlockRecord} {a : Ret}
    (hphase : call.phase = .committing blocks)
    (hcall : CallInv used (metadata s.replicated.tree) call)
    (hsound : CommitsOwnAbort s call blocks)
    (hok : (apply (abortCommand call) s.replicated).1 = .ok a) :
    ∀ b ∈ blocks, Gone used (metadata (apply (abortCommand call) s.replicated).2.tree)
      b.blockId := by
  unfold CallInv at hcall
  rw [hphase] at hcall
  intro b hb
  obtain ⟨hused, hholder⟩ := hcall b hb
  refine ⟨hused, ?_⟩
  have happlied := apply_applied (abortCommand call) s.replicated
  rw [hok] at happlied
  revert happlied
  generalize (apply (abortCommand call) s.replicated).2 = s'
  generalize hout : Outcome.ok a = out
  intro happlied
  cases happlied with
  | cached hop =>
      have hop' : s.replicated.appliedOps.get? call.key = some out := hop
      intro i hi
      obtain ⟨ps, hps, rfl⟩ := hholder i hi
      rcases hsound with hnone | ⟨cls, message, herror⟩ | hother
      · rw [hnone] at hop'
        cases hop'
      · rw [herror, ← hout] at hop'
        cases hop'
      · cases hf : (metadata s.replicated.tree).file ps with
        | none => rw [held, hf] at hi; exact absurd hi List.not_mem_nil
        | some f =>
            have hnode := Metadata.file_eq_some.mp hf
            rw [held_file hnode] at hi
            exact hother ps f hps hnode b hb hi
  | @executed μ r _ hnew hμ heffect hops =>
      have hμ' : Mutation.abortUpload call.path call.caller = μ := Call.mutation.inj hμ
      rw [outcomeOf_eq_ok hout.symm, ← hμ'] at heffect
      obtain ⟨ps, hps, hm'⟩ := effect_abortUpload heffect
      intro i hi
      rw [hm', held_dropNode] at hi
      rcases mem_update hi with ⟨_, hi⟩ | ⟨hne, hi⟩
      · exact absurd hi List.not_mem_nil
      · obtain ⟨ps', hps', rfl⟩ := hholder i hi
        obtain rfl := Except.ok.inj (hps.symm.trans hps')
        exact hne rfl
  | rejected hnew htree hops => cases hout

theorem calls_insert {used : List String} {m : Metadata} {aborts : Dict Nat AbortCall}
    {n : Nat} {call : AbortCall}
    (h : ∀ k c, aborts.get? k = some c → CallInv used m c)
    (hnew : CallInv used m call) :
    ∀ k c, (aborts.insert n call).get? k = some c → CallInv used m c := by
  intro k c hk
  rw [Dict.get?_insert] at hk
  by_cases hkn : k = n
  · rw [if_pos hkn] at hk
    rw [← Option.some.inj hk]
    exact hnew
  · rw [if_neg hkn] at hk
    exact h k c hk

theorem calls_erase {used : List String} {m : Metadata} {aborts : Dict Nat AbortCall}
    {n : Nat} (h : ∀ k c, aborts.get? k = some c → CallInv used m c) :
    ∀ k c, (aborts.erase n).get? k = some c → CallInv used m c := by
  intro k c hk
  rw [Dict.get?_erase] at hk
  by_cases hkn : k = n
  · rw [if_pos hkn] at hk
    exact nomatch hk
  · rw [if_neg hkn] at hk
    exact h k c hk

/-- One sound step keeps the invariant. -/
theorem nodeInv_next {used : List String} {s s' : ControlNode} {l : Label}
    (h : NodeInv used s) (hsound : Sound s l) (hnd : (labelIds l).Nodup)
    (hfresh : ∀ x ∈ labelIds l, x ∉ used) (hstep : next s l = some s') :
    NodeInv (used ++ labelIds l) s' := by
  cases l with
  | commit c =>
      obtain rfl := Option.some.inj hstep
      exact ⟨owned_apply h.owned hnd hfresh,
        fun n call hn => callInv_apply h.owned hnd hfresh (h.calls n call hn)⟩
  | read n path key caller =>
      rw [next] at hstep
      by_cases hn : (s.aborts.get? n).isSome = true
      · rw [if_pos hn] at hstep
        exact nomatch hstep
      · rw [if_neg hn] at hstep
        obtain rfl := Option.some.inj hstep
        show NodeInv (used ++ []) _
        rw [List.append_nil]
        refine ⟨h.owned, calls_insert h.calls ?_⟩
        intro b hb
        obtain ⟨ps, hps, hheld⟩ := pendingBlocks_held hb
        refine ⟨h.owned.known _ _ hheld, ?_⟩
        intro i hi
        exact ⟨ps, hps, h.owned.separate.owner i _ _ hi hheld⟩
  | commitAbort n =>
      rw [next] at hstep
      cases hn : s.aborts.get? n with
      | none => rw [hn] at hstep; exact nomatch hstep
      | some call =>
          obtain ⟨path, key, caller, phase⟩ := call
          cases phase with
          | deleting pending => rw [hn] at hstep; exact nomatch hstep
          | committing blocks =>
              rw [hn] at hstep
              obtain rfl := Option.some.inj hstep
              have hcall := h.calls n _ hn
              have hnone : ∀ x ∈ ([] : List String), x ∉ used :=
                fun x hx => absurd hx List.not_mem_nil
              have hnil : commandIds (abortCommand
                  ⟨path, key, caller, .committing blocks⟩) = [] := rfl
              have howned := owned_apply h.owned (hnil ▸ List.nodup_nil) (hnil ▸ hnone)
              rw [hnil, List.append_nil] at howned
              have hcalls : ∀ k c, s.aborts.get? k = some c → CallInv used
                  (metadata (apply (abortCommand ⟨path, key, caller, .committing blocks⟩)
                    s.replicated).2.tree) c := by
                intro k c hk
                have := callInv_apply h.owned (hnil ▸ List.nodup_nil) (hnil ▸ hnone)
                  (h.calls k c hk)
                rw [hnil, List.append_nil] at this
                exact this
              show NodeInv (used ++ []) _
              rw [List.append_nil]
              refine ⟨howned, ?_⟩
              dsimp only
              cases hout : (apply (abortCommand ⟨path, key, caller, .committing blocks⟩)
                  s.replicated).1 with
              | error cls message => exact calls_erase hcalls
              | ok a =>
                  refine calls_insert hcalls ?_
                  have hgone := gone_commitAbort rfl hcall (hsound _ blocks hn rfl) hout
                  intro d hd
                  obtain ⟨b, hb, hd⟩ := List.mem_flatMap.mp hd
                  obtain ⟨address, _, rfl⟩ := List.mem_map.mp hd
                  exact hgone b hb
  | giveUp n =>
      obtain rfl := Option.some.inj hstep
      show NodeInv (used ++ []) _
      rw [List.append_nil]
      exact ⟨h.owned, calls_erase h.calls⟩
  | send n =>
      rw [next] at hstep
      cases hn : s.aborts.get? n with
      | none => rw [hn] at hstep; exact nomatch hstep
      | some call =>
          obtain ⟨path, key, caller, phase⟩ := call
          cases phase with
          | committing blocks => rw [hn] at hstep; exact nomatch hstep
          | deleting pending =>
              cases pending with
              | nil => rw [hn] at hstep; exact nomatch hstep
              | cons d rest =>
                  rw [hn] at hstep
                  obtain rfl := Option.some.inj hstep
                  show NodeInv (used ++ []) _
                  rw [List.append_nil]
                  refine ⟨h.owned, calls_insert h.calls ?_⟩
                  intro d' hd'
                  exact h.calls n _ hn d' (List.mem_cons_of_mem _ hd')

theorem freshRun_concat {ls : List Label} {l : Label} (h : FreshRun (ls ++ [l])) :
    FreshRun ls ∧ (labelIds l).Nodup ∧ ∀ x ∈ labelIds l, x ∉ ls.flatMap labelIds := by
  unfold FreshRun at h ⊢
  rw [List.flatMap_append, List.flatMap_singleton] at h
  obtain ⟨h₁, h₂, h₃⟩ := List.nodup_append.mp h
  exact ⟨h₁, h₂, fun x hx hx' => h₃ x hx' x hx rfl⟩

/-- Every state of a sound run. -/
theorem nodeInv_run {ls : List Label} {s : ControlNode}
    (h : (controlNode.guarded Sound).Run ls s) (hfresh : FreshRun ls) :
    NodeInv (ls.flatMap labelIds) s := by
  refine h.invariant (I := fun ls s => FreshRun ls →
    NodeInv (ls.flatMap labelIds) s) ?_ ?_ hfresh
  · rintro s rfl _
    exact ⟨owned_empty, fun n call hn => nomatch hn⟩
  · rintro ls s l s' ih ⟨hsound, hstep⟩ hf
    obtain ⟨hf, hnd, hnew⟩ := freshRun_concat hf
    rw [List.flatMap_append, List.flatMap_singleton]
    exact nodeInv_next (ih hf) hsound hnd hnew hstep

/-- **A SOUND ABORT DELETES ONLY WHAT NOBODY REFERENCES**: in every run whose
    aborts commit soundly, a block for which `DeleteBlock` is sent belongs, at
    that moment, to no file and to no reservation. -/
theorem sound_abort_deletes_unreferenced {ls : List Label} {s : ControlNode}
    {l : Label} {block address : String}
    (hrun : (controlNode.guarded Sound).Run ls s) (hfresh : FreshRun ls)
    (hsend : sends s l = some (block, address)) :
    block ∉ blockIds s.replicated.tree := by
  have hinv := nodeInv_run hrun hfresh
  intro hmem
  obtain ⟨i, hi⟩ := mem_blockIds.mp hmem
  cases l with
  | send n =>
      rw [sends] at hsend
      cases hn : s.aborts.get? n with
      | none => rw [hn] at hsend; exact nomatch hsend
      | some call =>
          obtain ⟨path, key, caller, phase⟩ := call
          cases phase with
          | committing blocks => rw [hn] at hsend; exact nomatch hsend
          | deleting pending =>
              cases pending with
              | nil => rw [hn] at hsend; exact nomatch hsend
              | cons d rest =>
                  rw [hn] at hsend
                  have hgone := hinv.calls n _ hn d List.mem_cons_self
                  rw [Option.some.inj hsend] at hgone
                  exact hgone.2 i hi
  | commit c => exact nomatch hsend
  | read n path key caller => exact nomatch hsend
  | commitAbort n => exact nomatch hsend
  | giveUp n => exact nomatch hsend

/-- An upload whose abort has been committed. -/
def abortedUpload : List Label :=
  [.commit (uploadCommand "op-1" "b1" 0), .read 0 "/f" "abort-1" none, .commitAbort 0]

/-- The first abort of an upload commits soundly, and deletes its block. -/
theorem sound_abort_deletes_unreferenced_first :
    ∃ s, (controlNode.guarded Sound).Run abortedUpload s ∧
      sends s (.send 0) = some ("b1", "n1") ∧ "b1" ∉ blockIds s.replicated.tree := by
  let s₁ : ControlNode :=
    ⟨(apply (uploadCommand "op-1" "b1" 0) ReplicatedTree.empty).2, Dict.empty⟩
  let call : AbortCall :=
    ⟨"/f", "abort-1", none, .committing (pendingBlocks s₁.replicated.tree "/f")⟩
  let s₂ : ControlNode := ⟨s₁.replicated, Dict.empty.insert 0 call⟩
  let applied := apply (abortCommand call) s₂.replicated
  let s₃ : ControlNode := ⟨applied.2,
    afterCommit s₂.aborts 0 call (pendingBlocks s₁.replicated.tree "/f") applied.1⟩
  have hsound : Sound s₂ (.commitAbort 0) := by
    intro call' blocks hcall _
    obtain rfl := Option.some.inj (show some call = some call' from hcall)
    exact .inl (by decide +kernel)
  have h₁ : (controlNode.guarded Sound).step ControlNode.empty
      (.commit (uploadCommand "op-1" "b1" 0)) s₁ := ⟨trivial, rfl⟩
  have h₂ : (controlNode.guarded Sound).step s₁ (.read 0 "/f" "abort-1" none) s₂ :=
    ⟨trivial, rfl⟩
  have h₃ : (controlNode.guarded Sound).step s₂ (.commitAbort 0) s₃ := ⟨hsound, rfl⟩
  have hrun : (controlNode.guarded Sound).Run abortedUpload s₃ :=
    ⟨_, rfl, Path.cons h₁ (Path.cons h₂ (Path.one h₃))⟩
  have hsend : sends s₃ (.send 0) = some ("b1", "n1") := by decide +kernel
  exact ⟨s₃, hrun, hsend,
    sound_abort_deletes_unreferenced hrun (by decide) hsend⟩

/-- The abort arrives again after another upload of the path has begun. -/
def retriedAbort : List Label :=
  abortedUpload ++ [.send 0, .commit (uploadCommand "op-2" "b2" 1),
    .read 1 "/f" "abort-1" none, .commitAbort 1]

/-- **A RETRIED ABORT DELETES THE BLOCKS OF ANOTHER UPLOAD**: it is answered
    from memory and deletes what it has read, the block of the new upload. -/
theorem retried_abort_deletes_referenced :
    ¬ ∀ (ls : List Label) (s : ControlNode) (l : Label) (block address : String),
      controlNode.Run ls s → FreshRun ls → sends s l = some (block, address) →
      block ∉ blockIds s.replicated.tree := by
  intro h
  have hend : (steps next ControlNode.empty retriedAbort).map (fun s =>
      (sends s (.send 1), decide ("b2" ∈ blockIds s.replicated.tree)))
        = some (some ("b2", "n1"), true) := by decide +kernel
  obtain ⟨s, hs, hpair⟩ := Option.map_eq_some_iff.mp hend
  obtain ⟨hsend, hmem⟩ := Prod.mk.inj hpair
  exact h retriedAbort s (.send 1) "b2" "n1" (run_of_steps hs) (by decide) hsend
    (of_decide_eq_true hmem)

end DfshaAbortUpload
