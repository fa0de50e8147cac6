import Dfsha.BlockLayoutProofs
import Dfsha.BlockOwnershipProofs
import Dfsha.PendingUploadProofs

/-! # Who gets a write capability

    BeginUpload and BeginWrite answer with the blocks that the client may
    write, each with a capability that is signed when the answer is written.
    The answer is written from the outcome of the command, and the outcome of a
    retry is the remembered one: the blocks are those of the first execution,
    and the capabilities are new.

    A block that was reserved by an upload or a write is uncommitted as long as
    that upload or write is open.  So a capability that is signed in time names
    an uncommitted block, and once a block is part of a committed file no more
    of them are signed for it.  An answer that comes after the end of its
    upload signs capabilities to overwrite a committed file. -/

namespace DfshaWriteCapability

open InsertionDict NamedTree Ownership TransitionSystem TransitionSystem.System
open DfshaPath DfshaControlTree DfshaMetadata DfshaControlTreeEffect
open DfshaReplicatedTree DfshaBlockOwnership DfshaWriteReservation DfshaBlockLayout
open DfshaCopyOnWrite DfshaPendingUpload

/-! ## Capabilities -/

/-- What a write capability says: the block and the second when it expires. -/
structure WriteCapability where
  blockId : String
  exp : Int
deriving DecidableEq

/-- `issue_block`, for writing. -/
def issueBlock (blockId : String) (ttlS now : Time) : WriteCapability :=
  ⟨blockId, (now + ttlS).ceil⟩

/-- `verify_block` accepts the capability to write the block. -/
def WriteCapability.authorizes (c : WriteCapability) (blockId : String) (now : Time) : Prop :=
  c.blockId = blockId ∧ ¬ (c.exp : Time) ≤ now

/-! ## The control node -/

/-- An upload or a write that has begun and not ended, with the blocks that it
    reserved. -/
inductive Opened where
  | upload (ps : List String) (blockIds : List String)
  | write (key writeId : String) (leaseExpiresAt : Time) (blockIds : List String)
deriving DecidableEq

def Opened.blockIds : Opened → List String
  | .upload _ blockIds => blockIds
  | .write _ _ _ blockIds => blockIds

/-- The lease of the write has not run out; an upload stays open without. -/
def Opened.live (now : Time) : Opened → Bool
  | .upload _ _ => true
  | .write _ _ leaseExpiresAt _ => now < leaseExpiresAt

/-- The replicated tree, the blocks that each call has still to sign and the
    capabilities that have been signed.  The uploads and writes that are open
    are kept beside them; the node does not know them. -/
structure Node where
  replicated : ReplicatedTree
  toSign : Dict String (List String)
  issued : List WriteCapability
  opened : List Opened

def Node.empty : Node := ⟨ReplicatedTree.empty, Dict.empty, [], []⟩

def Node.waiting (s : Node) (call : String) : List String := (s.toSign.get? call).getD []

/-- A call commits its command, and later signs one block after the other. -/
inductive Event where
  | commit (call : String) (c : Issue)
  | sign (call : String) (ttlS now : Time)

/-- The blocks of an answer; an outcome of another kind is answered with an
    exception. -/
def blocksToSign : Rpc → Outcome → List String
  | .beginUpload .., .ok (.uploadBegun placements _) => placements.map Prod.fst
  | .beginWrite .., .ok (.writeBegun _ _ _ slots) => slots.map SlotDescription.newBlockId
  | _, _ => []

def isOk : Outcome → Bool
  | .ok _ => true
  | .error _ _ => false

/-- The path whose upload a mutation ends when it succeeds. -/
def endsUpload : Mutation → Option String
  | .beginUpload p _ _ _ _ _ => some p
  | .completeUpload p _ => some p
  | .abortUpload p _ => some p
  | _ => none

/-- The path and the id of the write that a mutation ends when it succeeds. -/
def endsWrite : Mutation → Option (String × String)
  | .commitWrite p w _ _ _ _ _ => some (p, w)
  | .abortWrite p w _ _ => some (p, w)
  | _ => none

/-- The command ends the upload or the write.  A write ends also with a command
    that carries a time at or after the end of its lease. -/
def ends (μ : Mutation) (o : Outcome) : Opened → Bool
  | .upload ps _ => isOk o && (endsUpload μ).any fun p => parts p = .ok ps
  | .write key w leaseExpiresAt _ =>
      (timeOf μ).any (leaseExpiresAt ≤ ·) || isOk o && (endsWrite μ).any fun q =>
        q.2 = w ∧ (parts q.1).map pathKey = .ok key

/-- What the command opens. -/
def opens : Mutation → Outcome → List Opened
  | .beginUpload p _ _ _ _ _, .ok (.uploadBegun placements _) =>
      match parts p with
      | .ok ps => [.upload ps (placements.map Prod.fst)]
      | .error _ => []
  | .beginWrite p w _ _ _ _ _ now leaseS _ _, .ok (.writeBegun _ _ _ slots) =>
      match parts p with
      | .ok ps => [.write (pathKey ps) w (now + leaseS)
          (slots.map SlotDescription.newBlockId)]
      | .error _ => []
  | _, _ => []

/-- The uploads and writes that are open after a command: one that is answered
    from memory changes nothing. -/
def openedAfter (s : Node) (opId : String) (μ : Mutation) (o : Outcome) : List Opened :=
  match s.replicated.appliedOps.get? opId with
  | some _ => s.opened
  | none => (s.opened.filter fun e => !ends μ o e) ++ opens μ o

def commit (s : Node) (call : String) (c : Issue) (μ : Mutation) : Node :=
  let r := apply ⟨c.opId, .mutation μ⟩ s.replicated
  { s with
    replicated := r.2
    toSign := s.toSign.insert call (blocksToSign c.rpc r.1)
    opened := openedAfter s c.opId μ r.1 }

def next (s : Node) : Event → Option Node
  | .commit call c => (mutationOf c.blockSizeBytes c.rpc).map (commit s call c)
  | .sign call ttlS now =>
      match s.waiting call with
      | [] => none
      | b :: rest => some { s with
          toSign := s.toSign.insert call rest
          issued := s.issued ++ [issueBlock b ttlS now] }

/-- The runs of the control node: calls that commit and sign in any order. -/
def controlNode : System Node Event := ofPartial Node.empty next

/-- The block ids that an event draws. -/
def drawnBlocks : Event → List String
  | .commit _ c => match mutationOf c.blockSizeBytes c.rpc with
      | some μ => proposedIds μ
      | none => []
  | .sign _ _ _ => []

/-- The block that is signed belongs to an upload or a write that is open. -/
def InTime (s : Node) : Event → Prop
  | .commit _ _ => True
  | .sign call _ now => ∀ b ∈ (s.waiting call).head?,
      ∃ e ∈ s.opened, b ∈ e.blockIds ∧ e.live now = true

instance (s : Node) : (e : Event) → Decidable (InTime s e)
  | .commit _ _ => inferInstanceAs (Decidable True)
  | .sign call _ now => inferInstanceAs (Decidable (∀ b ∈ (s.waiting call).head?,
      ∃ e ∈ s.opened, b ∈ e.blockIds ∧ e.live now = true))

/-- The block belongs to a pending upload or to a live reservation. -/
def Uncommitted (m : Metadata) (b : String) (now : Time) : Prop :=
  (∃ ps f, m.node ps = some (.file f) ∧ f.state = .pending ∧ b ∈ fileIds f) ∨
    ∃ w r, m.write w = some r ∧ now < r.leaseExpiresAt ∧ b ∈ slotIds r

/-- The block belongs to a committed file. -/
def Committed (m : Metadata) (b : String) : Prop :=
  ∃ ps f, m.node ps = some (.file f) ∧ f.state = .committed ∧ b ∈ fileIds f

/-! ## What is open is uncommitted -/

section Step

variable {μ : Mutation} {m m' : Metadata} {r : Except PyError Ret} {used : List String}
  {b : String}

/-- What an open upload or write has reserved is still there. -/
def Standing (m : Metadata) : Opened → Prop
  | .upload ps blockIds =>
      ∃ f, m.node ps = some (.file f) ∧ f.state = .pending ∧ fileIds f = blockIds
  | .write key w leaseExpiresAt blockIds =>
      ∃ res, m.write w = some res ∧ res.path = key ∧
        res.leaseExpiresAt = leaseExpiresAt ∧ slotIds res = blockIds

theorem uncommitted_of_standing {e : Opened} {now : Time} (h : Standing m e)
    (hb : b ∈ e.blockIds) (hlive : e.live now = true) : Uncommitted m b now := by
  cases e with
  | upload ps blockIds =>
      obtain ⟨f, hfile, hpending, rfl⟩ := h
      exact .inl ⟨ps, f, hfile, hpending, hb⟩
  | write key w leaseExpiresAt blockIds =>
      obtain ⟨res, hw, _, rfl, rfl⟩ := h
      exact .inr ⟨w, res, hw, of_decide_eq_true hlive, hb⟩

/-- A block has one holder, so it is not in a committed file as well. -/
theorem not_committed_of_uncommitted {now : Time} (hsep : Separate (held m))
    (h : Uncommitted m b now) : ¬ Committed m b := by
  rintro ⟨ps, f, hfile, hcommitted, hb⟩
  rw [← held_file hfile] at hb
  rcases h with ⟨ps', f', hfile', hpending, hb'⟩ | ⟨w, res, hw, _, hb'⟩
  · rw [← held_file hfile'] at hb'
    obtain rfl := Holder.file.inj (hsep.owner _ _ b hb hb')
    exact ne_of_committed hfile' hpending hfile hcommitted rfl
  · rw [← held_write hw] at hb'
    exact nomatch hsep.owner _ _ b hb hb'

/-- A reservation under a new id leaves the others. -/
theorem stays_beside_fresh {w w' : String} {res res' : WriteReservation}
    (hfresh : m.write w' = none) (hw : m.write w = some res) :
    (m.setWrite w' res').write w = some res := by
  rw [Metadata.write_setWrite, if_neg]
  · exact hw
  · rintro rfl
    exact nomatch hfresh.symm.trans hw

/-- **A RESERVATION STAYS** until its lease runs out or the write ends. -/
theorem reservation_stays {w : String} {res : WriteReservation} (he : Effect μ m r m')
    (hw : m.write w = some res) (htime : ∀ t, timeOf μ = some t → t < res.leaseExpiresAt) :
    m'.write w = some res ∨
      (∃ a, r = .ok a) ∧ ∃ p ps, endsWrite μ = some (p, w) ∧ parts p = .ok ps ∧
        res.path = pathKey ps := by
  have halive : ∀ {now m₁}, Pruned now m m₁ → now = timeOf μ → m₁.write w = some res :=
    fun hp hnow => hp.writeAlive w res hw fun t ht => htime t (hnow.symm.trans ht)
  cases he with
  | makeDir | removeDir | beginUpload | confirmBlock | completeUpload | abortUpload
  | updateBlockReplicas | createUser | changePassword | setAttrsDir | setAttrsFile =>
      exact .inl hw
  | removeFile | acquireLock | joinLock | renewLock | releaseLock | releaseLast
  | releaseGone =>
      simp only [Metadata.write_dropNode, Metadata.write_setLock,
        Metadata.write_dropLock, Metadata.write_aliveLocks]
      exact .inl hw
  | beginWrite hparts hr hdescribed =>
      exact .inl (stays_beside_fresh hr.hfresh (halive (pruned_writeTable _ _ _) rfl))
  | beginWriteLost hparts hr hdescribed =>
      exact .inl (stays_beside_fresh hr.hfresh (halive (pruned_writeTable _ _ _) rfl))
  | @commitWrite _ p w' l version confirmed now caller ps f res' blocks replaced hparts hr
      hpublished =>
      by_cases hid : w = w'
      · subst hid
        obtain rfl := Option.some.inj (hw.symm.trans hr.hreserved)
        exact .inr ⟨⟨_, rfl⟩, p, ps, rfl, hparts, hr.hpath⟩
      · have hstays := halive (pruned_writeTable m (pathKey ps) now) rfl
        rw [Metadata.write_dropWrite, if_neg hid]
        exact .inl hstays
  | @abortWrite _ p w' l now ps res' hparts hreserved hpath hlock =>
      have hstays := halive (pruned_aliveWrites _ now) rfl
      by_cases hid : w = w'
      · subst hid
        obtain rfl := Option.some.inj (hstays.symm.trans hreserved)
        exact .inr ⟨⟨_, rfl⟩, p, ps, rfl, hparts, hpath⟩
      · rw [Metadata.write_dropWrite, if_neg hid]
        exact .inl hstays
  | abortGone => exact .inl (halive (pruned_aliveWrites _ _) rfl)
  | refused hpruned => exact .inl (halive hpruned rfl)

theorem isOk_outcomeOf {a : Ret} : isOk (outcomeOf μ (.ok a)) = true := rfl

/-- **WHAT THE COMMAND DOES NOT END STAYS.** -/
theorem standing_stays {e : Opened} (he : Effect μ m r m') (h : Standing m e)
    (hends : ends μ (outcomeOf μ r) e = false) : Standing m' e := by
  cases e with
  | upload ps blockIds =>
      obtain ⟨f, hfile, hpending, hids⟩ := h
      have hended : ∀ {p a}, r = .ok a → endsUpload μ = some p → parts p ≠ .ok ps := by
        rintro p a rfl hμ hparts
        rw [ends, isOk_outcomeOf, hμ, Bool.true_and, Option.any_some,
          decide_eq_false_iff_not] at hends
        exact hends hparts
      cases pendingStep_effect he hfile hpending with
      | kept hfile' => exact ⟨f, hfile', hpending, hids⟩
      | confirmed f' p b sum size now leaseS caller hμ hparts howner hfile' hstate hblocks =>
          exact ⟨f', hfile', hstate,
            (map_blockId_updateBlock hblocks fun _ => rfl).trans hids⟩
      | completed p caller hμ hr hparts howner =>
          subst hμ
          exact absurd hparts (hended hr rfl)
      | aborted p caller hμ hr hparts howner =>
          subst hμ
          exact absurd hparts (hended hr rfl)
      | replaced p placements now leaseS blockSize caller hμ hr hparts hexpired =>
          subst hμ
          exact absurd hparts (hended hr rfl)
  | write key w leaseExpiresAt blockIds =>
      obtain ⟨res, hw, hpath, hlease, hids⟩ := h
      rw [ends, Bool.or_eq_false_iff] at hends
      obtain ⟨htime, hended⟩ := hends
      have hbefore : ∀ t, timeOf μ = some t → t < res.leaseExpiresAt := by
        intro t ht
        rw [ht, Option.any_some, decide_eq_false_iff_not, ← hlease] at htime
        exact not_le.mp htime
      rcases reservation_stays he hw hbefore with hw' | ⟨⟨a, rfl⟩, p, ps, hμ, hparts, hkey⟩
      · exact ⟨res, hw', hpath, hlease, hids⟩
      · rw [isOk_outcomeOf, hμ, Bool.true_and, Option.any_some,
          decide_eq_false_iff_not] at hended
        refine absurd ⟨rfl, ?_⟩ hended
        rw [hparts, ← hpath, hkey]
        rfl

theorem newBlockIds_described {blocks : List BlockRecord} {slots : List WriteSlotRecord}
    {described : List SlotDescription}
    (h : describeSlots blocks slots = .ok described) :
    described.map SlotDescription.newBlockId = slots.map WriteSlotRecord.newBlockId := by
  have hall := describeSlots_ok h
  clear h
  induction hall with
  | nil => rfl
  | cons hd _ ih => rw [List.map_cons, List.map_cons, hd.newBlockId, ih]

/-- What the command opens is there. -/
theorem standing_opens {e : Opened} (he : Effect μ m r m')
    (h : e ∈ opens μ (outcomeOf μ r)) : Standing m' e := by
  unfold opens at h
  split at h
  case h_3 => exact absurd h List.not_mem_nil
  next ho =>
    obtain rfl := outcomeOf_eq_ok ho
    cases he with
    | beginUpload hparts hne hallowed hfree =>
        rw [hparts] at h
        obtain rfl := List.mem_singleton.mp h
        exact ⟨_, (Metadata.node_setFile _ _ _).trans (if_pos rfl), rfl,
          fileIds_newUpload _ _ _ _ _⟩
  next ho =>
    obtain rfl := outcomeOf_eq_ok ho
    obtain ⟨_, ps, f, res, hparts, hr, hw, hdescribed, _⟩ := effect_beginWrite_ok he
    rw [hparts] at h
    obtain rfl := List.mem_singleton.mp h
    exact ⟨res, hw, hr.hpath, hr.hlease, (newBlockIds_described hdescribed).symm⟩

/-! ## A committed block is never reserved again -/

/-- The block has been used and is in no pending upload and no reservation. -/
structure Settled (used : List String) (m : Metadata) (b : String) : Prop where
  used : b ∈ used
  pending : ∀ ps f, m.node ps = some (.file f) → f.state = .pending → b ∉ fileIds f
  reserved : ∀ w, b ∉ held m (.write w)

theorem settled_of_committed (hsep : Separate (held m))
    (hused : ∀ i x, x ∈ held m i → x ∈ used) (h : Committed m b) : Settled used m b := by
  have hopen : ¬ Uncommitted m b 0 := fun hun =>
    not_committed_of_uncommitted hsep hun h
  obtain ⟨ps, f, hfile, hcommitted, hb⟩ := h
  rw [← held_file hfile] at hb
  refine ⟨hused _ b hb, fun ps' f' hfile' hpending hb' => ?_, fun w hb' => ?_⟩
  · exact hopen (.inl ⟨ps', f', hfile', hpending, hb'⟩)
  · exact nomatch hsep.owner _ _ b hb hb'

theorem Settled.not_standing {e : Opened} (h : Settled used m b) (he : Standing m e) :
    b ∉ e.blockIds := by
  intro hb
  cases e with
  | upload ps blockIds =>
      obtain ⟨f, hfile, hpending, rfl⟩ := he
      exact h.pending ps f hfile hpending hb
  | write key w leaseExpiresAt blockIds =>
      obtain ⟨res, hw, _, _, rfl⟩ := he
      exact h.reserved w (by rw [held_write hw]; exact hb)

/-- New uploads and new writes come with new blocks. -/
theorem settled_effect (he : Effect μ m r m') (h : Settled used m b)
    (hfresh : ∀ x ∈ proposedIds μ, x ∉ used) :
    Settled (used ++ proposedIds μ) m' b := by
  have hnew : b ∉ proposedIds μ := fun hb => hfresh b hb h.used
  refine ⟨List.mem_append_left _ h.used, fun ps f' hfile' hpending' hb => ?_, fun w hb => ?_⟩
  · cases fileCame_effect he hfile' with
    | kept f hfile hsame =>
        refine h.pending ps f hfile (hsame.state.symm.trans hpending') ?_
        rw [fileIds, ← hsame.blockIds]
        exact hb
    | uploaded p placements now leaseS blockSize caller hμ hparts hf' =>
        subst hμ hf'
        rw [fileIds_newUpload] at hb
        exact hnew hb
    | confirmed f p b' sum size now leaseS caller hμ hparts hfile hpending hstate hblockSize
        hblocks =>
        refine h.pending ps f hfile hpending ?_
        rw [fileIds, ← map_blockId_updateBlock hblocks fun _ => rfl]
        exact hb
    | completed f hfile hpending hconfirmed hf' =>
        rw [hf'] at hpending'
        cases hpending'
    | published f p w l version confirmed now caller res blocks replaced hparts hr
        hpublished hf' =>
        rw [hf'] at hpending'
        cases hr.hcommitted.symm.trans hpending'
  · cases hw : m'.write w with
    | none =>
        rw [held, hw] at hb
        exact absurd hb List.not_mem_nil
    | some res =>
        rw [held_write hw] at hb
        have hold : m.write w = some res → False := fun hw₀ =>
          h.reserved w (by rw [held_write hw₀]; exact hb)
        rcases reserved_effect he hw with hbegun | hw₀
        · obtain ⟨p, l, version, offset, length, proposals, now, leaseS, default, caller,
            rfl⟩ := eq_beginWrite_of_mem hbegun
          rcases effect_beginWrite he hw with hw₀ | ⟨ps, f, _, _, hr⟩
          · exact hold hw₀
          · obtain ⟨plan, _, _, hslots⟩ := hr.hplan
            rw [slotIds, hslots] at hb
            exact hnew ((slotIds_fillSlots plan proposals).subset hb)
        · exact hold hw₀

end Step

/-! ## Runs -/

section Runs

variable {s s' : Node} {used : List String} {call b : String} {c : Issue} {μ : Mutation}
  {ttlS now : Time}

/-- A command is answered from memory, or executed. -/
theorem commit_cases (s : Node) (call : String) (c : Issue) (μ : Mutation) :
    ((commit s call c μ).replicated = s.replicated ∧
      (commit s call c μ).opened = s.opened) ∨
    ∃ r, Effect μ (metadata s.replicated.tree) r
        (metadata (commit s call c μ).replicated.tree) ∧
      (commit s call c μ).opened =
        (s.opened.filter fun e => !ends μ (outcomeOf μ r) e) ++ opens μ (outcomeOf μ r) := by
  simp only [commit, openedAfter]
  cases hop : s.replicated.appliedOps.get? c.opId with
  | some o =>
      rw [apply_cached hop]
      exact .inl ⟨rfl, rfl⟩
  | none =>
      rw [apply_executed hop]
      exact .inr ⟨_, exec_effect μ s.replicated.tree, rfl⟩

/-- Every block has one holder, and what is open is there. -/
structure Kept (used : List String) (s : Node) : Prop where
  owned : Owned used s.replicated
  standing : ∀ e ∈ s.opened, Standing (metadata s.replicated.tree) e

theorem kept_commit (h : Kept used s) (hnd : (proposedIds μ).Nodup)
    (hfresh : ∀ x ∈ proposedIds μ, x ∉ used) :
    Kept (used ++ proposedIds μ) (commit s call c μ) := by
  refine ⟨owned_apply (c := ⟨c.opId, .mutation μ⟩) h.owned hnd hfresh, ?_⟩
  intro e he
  rcases commit_cases s call c μ with ⟨hsame, hopened⟩ | ⟨r, heffect, hopened⟩
  · rw [hopened] at he
    rw [hsame]
    exact h.standing e he
  · rw [hopened] at he
    rcases List.mem_append.mp he with hold | hnew
    · obtain ⟨hmem, hends⟩ := List.mem_filter.mp hold
      exact standing_stays heffect (h.standing e hmem) ((Bool.not_eq_true' _).mp hends)
    · exact standing_opens heffect hnew

theorem settled_commit (h : Settled used (metadata s.replicated.tree) b)
    (hfresh : ∀ x ∈ proposedIds μ, x ∉ used) :
    Settled (used ++ proposedIds μ) (metadata (commit s call c μ).replicated.tree) b := by
  rcases commit_cases s call c μ with ⟨hsame, _⟩ | ⟨r, heffect, _⟩
  · rw [hsame]
    exact ⟨List.mem_append_left _ h.used, h.pending, h.reserved⟩
  · exact settled_effect heffect h hfresh

/-- What a signature adds. -/
theorem next_sign (h : next s (.sign call ttlS now) = some s') :
    ∃ b rest, s.waiting call = b :: rest ∧ s'.replicated = s.replicated ∧
      s'.opened = s.opened ∧ s'.issued = s.issued ++ [issueBlock b ttlS now] := by
  rw [next] at h
  cases hw : s.waiting call with
  | nil => rw [hw] at h; exact nomatch h
  | cons b rest =>
      rw [hw] at h
      obtain rfl := Option.some.inj h
      exact ⟨b, rest, rfl, rfl, rfl, rfl⟩

theorem drawnBlocks_commit (hμ : mutationOf c.blockSizeBytes c.rpc = some μ) :
    drawnBlocks (.commit call c) = proposedIds μ := by
  rw [drawnBlocks, hμ]

/-- A signature in time is of a block of something open. -/
theorem standing_of_inTime {rest : List String} (h : Kept used s)
    (htime : InTime s (.sign call ttlS now)) (hw : s.waiting call = b :: rest) :
    ∃ e, Standing (metadata s.replicated.tree) e ∧ b ∈ e.blockIds ∧ e.live now = true := by
  obtain ⟨e, he, hb, hlive⟩ := htime b (by rw [hw]; rfl)
  exact ⟨e, h.standing e he, hb, hlive⟩

theorem kept_next {e : Event} (h : Kept used s) (hnd : (drawnBlocks e).Nodup)
    (hfresh : ∀ x ∈ drawnBlocks e, x ∉ used) (hnext : next s e = some s') :
    Kept (used ++ drawnBlocks e) s' := by
  cases e with
  | commit call c =>
      obtain ⟨μ, hμ, rfl⟩ := Option.map_eq_some_iff.mp hnext
      rw [drawnBlocks_commit hμ] at hnd hfresh ⊢
      exact kept_commit h hnd hfresh
  | sign call ttlS now =>
      obtain ⟨b, rest, _, hsame, hopened, _⟩ := next_sign hnext
      rw [drawnBlocks, List.append_nil]
      exact ⟨hsame ▸ h.owned, by rw [hsame, hopened]; exact h.standing⟩

theorem flatMap_drawnBlocks (es : List Event) (e : Event) :
    (es ++ [e]).flatMap drawnBlocks = es.flatMap drawnBlocks ++ drawnBlocks e := by
  rw [List.flatMap_append, List.flatMap_singleton]

/-- **IN EVERY RUN WHAT IS OPEN IS THERE.** -/
theorem kept_run {es : List Event} (hrun : controlNode.Run es s)
    (hfresh : (es.flatMap drawnBlocks).Nodup) : Kept (es.flatMap drawnBlocks) s := by
  refine hrun.invariant (I := fun es s => (es.flatMap drawnBlocks).Nodup →
    Kept (es.flatMap drawnBlocks) s) ?_ ?_ hfresh
  · rintro s rfl _
    exact ⟨owned_empty, fun e he => absurd he List.not_mem_nil⟩
  · rintro es s e s' ih hnext hf
    obtain ⟨hf, hnd, hnew⟩ := nodup_flatMap_concat hf
    rw [flatMap_drawnBlocks]
    exact kept_next (ih hf) hnd hnew hnext

/-- Nothing is signed in time for a block that is settled. -/
theorem issued_next {e : Event} (h : Kept used s)
    (hsettled : Settled used (metadata s.replicated.tree) b)
    (hfresh : ∀ x ∈ drawnBlocks e, x ∉ used) (htime : InTime s e)
    (hnext : next s e = some s') :
    Settled (used ++ drawnBlocks e) (metadata s'.replicated.tree) b ∧
      ∀ cap ∈ s'.issued, cap.blockId = b → cap ∈ s.issued := by
  cases e with
  | commit call c =>
      obtain ⟨μ, hμ, rfl⟩ := Option.map_eq_some_iff.mp hnext
      rw [drawnBlocks_commit hμ] at hfresh ⊢
      exact ⟨settled_commit hsettled hfresh, fun _ hcap _ => hcap⟩
  | sign call ttlS now =>
      obtain ⟨b', rest, hw, hsame, _, hissued⟩ := next_sign hnext
      rw [drawnBlocks, List.append_nil, hsame]
      refine ⟨hsettled, fun cap hcap hb => ?_⟩
      rw [hissued] at hcap
      rcases List.mem_append.mp hcap with hold | hnew
      · exact hold
      · -- the block that is signed is not settled
        obtain rfl := List.mem_singleton.mp hnew
        obtain rfl : b' = b := hb
        obtain ⟨e, he, hmem, _⟩ := standing_of_inTime h htime hw
        exact absurd hmem (hsettled.not_standing he)

/-- Along a path no capabilities are added for a block that is settled. -/
theorem issued_path {pre post : List Event} (h : Kept (pre.flatMap drawnBlocks) s)
    (hsettled : Settled (pre.flatMap drawnBlocks) (metadata s.replicated.tree) b)
    (hpath : (controlNode.guarded InTime).Path s post s')
    (hfresh : ((pre ++ post).flatMap drawnBlocks).Nodup) :
    ∀ cap ∈ s'.issued, cap.blockId = b → cap ∈ s.issued := by
  have hinv := hpath.invariant (I := fun post s' =>
    ((pre ++ post).flatMap drawnBlocks).Nodup →
      Kept ((pre ++ post).flatMap drawnBlocks) s' ∧
      Settled ((pre ++ post).flatMap drawnBlocks) (metadata s'.replicated.tree) b ∧
      ∀ cap ∈ s'.issued, cap.blockId = b → cap ∈ s.issued) ?_ ?_ hfresh
  · exact hinv.2.2
  · rw [List.append_nil]
    exact fun _ => ⟨h, hsettled, fun _ hcap _ => hcap⟩
  · rintro post s₁ e s₂ ih ⟨htime, hnext⟩ hf
    rw [← List.append_assoc] at hf ⊢
    obtain ⟨hf, hnd, hnew⟩ := nodup_flatMap_concat hf
    obtain ⟨hkept, hset, hissued⟩ := ih hf
    obtain ⟨hset', hissued'⟩ := issued_next hkept hset hnew htime hnext
    rw [flatMap_drawnBlocks]
    exact ⟨kept_next hkept hnd hnew hnext, hset', fun cap hcap hb =>
      hissued cap (hissued' cap hcap hb) hb⟩

end Runs

/-- **A CAPABILITY SIGNED IN TIME IS FOR AN UNCOMMITTED BLOCK**: in every run
    whose capabilities are signed while their upload or write is open, each one
    names a block of a pending upload or a live reservation and of no committed
    file; and whoever may write a block that was once committed shows a
    capability that had been issued by then and has not expired. -/
theorem write_capabilities_are_for_uncommitted_blocks {pre : List Event} {s : Node}
    (hrun : (controlNode.guarded InTime).Run pre s)
    (hfresh : (pre.flatMap drawnBlocks).Nodup) :
    (∀ call ttlS now s', (controlNode.guarded InTime).step s (.sign call ttlS now) s' →
      ∃ b, s'.issued = s.issued ++ [issueBlock b ttlS now] ∧
        Uncommitted (metadata s'.replicated.tree) b now ∧
        ¬ Committed (metadata s'.replicated.tree) b) ∧
    ∀ b post s' cap now, Committed (metadata s.replicated.tree) b →
      (controlNode.guarded InTime).Path s post s' →
      ((pre ++ post).flatMap drawnBlocks).Nodup → cap ∈ s'.issued →
      cap.authorizes b now → cap ∈ s.issued ∧ now < cap.exp := by
  have hkept := kept_run hrun.unguarded hfresh
  constructor
  · rintro call ttlS now s' ⟨htime, hnext⟩
    obtain ⟨b, rest, hw, hsame, _, hissued⟩ := next_sign hnext
    obtain ⟨e, he, hb, hlive⟩ := standing_of_inTime hkept htime hw
    have hun := uncommitted_of_standing he hb hlive
    rw [hsame]
    exact ⟨b, hissued, hun, not_committed_of_uncommitted hkept.owned.separate hun⟩
  · rintro b post s' cap now hcommitted hpath hfresh' hcap ⟨hb, hexp⟩
    have hsettled := settled_of_committed hkept.owned.separate hkept.owned.known hcommitted
    exact ⟨issued_path hkept hsettled hpath hfresh' cap hcap hb, not_le.mp hexp⟩

/-! ## A retry that comes too late -/

/-- The upload of one block, as often as it is asked for. -/
def beginF (call proposed : String) (now : Time) : Event :=
  .commit call ⟨4, "op-1", .beginUpload "/f" 4 [(proposed, ["n1"])] now 60 none⟩

theorem write_capabilities_are_for_uncommitted_blocks_f : ∃ s s',
    (controlNode.guarded InTime).Run [beginF "r1" "b1" 0] s ∧
    (controlNode.guarded InTime).step s (.sign "r1" 3600 1) s' ∧
    s'.issued = [⟨"b1", 3601⟩] ∧ Uncommitted (metadata s'.replicated.tree) "b1" 1 := by
  have hend : (steps (guardedNext InTime next) Node.empty [beginF "r1" "b1" 0]).map
      (fun s => (s.waiting "r1", s.issued, s.opened))
        = some (["b1"], [], [.upload ["f"] ["b1"]]) := by decide +kernel
  obtain ⟨s, hs, hend⟩ := Option.map_eq_some_iff.mp hend
  obtain ⟨hw, hend⟩ := Prod.mk.inj hend
  obtain ⟨hissued, hopened⟩ := Prod.mk.inj hend
  have hrun : (controlNode.guarded InTime).Run [beginF "r1" "b1" 0] s :=
    run_guarded_of_steps hs
  have hstep : (controlNode.guarded InTime).step s (.sign "r1" 3600 1) { s with
      toSign := s.toSign.insert "r1" []
      issued := s.issued ++ [issueBlock "b1" 3600 1] } := by
    constructor
    · show ∀ b ∈ (s.waiting "r1").head?, _
      rw [hw, hopened]
      decide
    · show next s _ = _
      rw [next, hw]
  obtain ⟨b, hadded, hun, _⟩ := (write_capabilities_are_for_uncommitted_blocks hrun
    (by decide)).1 _ _ _ _ hstep
  have hcap : issueBlock "b1" 3600 1 = issueBlock b 3600 1 :=
    List.singleton_inj.mp (List.append_cancel_left hadded)
  obtain rfl : "b1" = b := congrArg WriteCapability.blockId hcap
  refine ⟨s, _, hrun, hstep, ?_, hun⟩
  show s.issued ++ _ = _
  rw [hissued]
  decide +kernel

/-- The upload is completed, and its BeginUpload asked for again. -/
def lateRetry : List Event :=
  [beginF "r1" "b1" 0, .sign "r1" 3600 0,
    .commit "r2" ⟨4, "op-2", .confirmBlock "/f" "b1" "sum1" 4 1 60 none⟩,
    .commit "r3" ⟨4, "op-3", .other (.completeUpload "/f" none)⟩,
    beginF "r4" "b2" 50]

/-- **A LATE RETRY GETS A CAPABILITY FOR A COMMITTED FILE.** -/
theorem late_retry_signs_for_a_committed_file :
    ¬ ∀ (pre : List Event) (s s' : Node) (call : String) (ttlS now : Time),
      controlNode.Run pre s → (pre.flatMap drawnBlocks).Nodup →
      controlNode.step s (.sign call ttlS now) s' →
      ∃ b, s'.issued = s.issued ++ [issueBlock b ttlS now] ∧
        Uncommitted (metadata s'.replicated.tree) b now ∧
        ¬ Committed (metadata s'.replicated.tree) b := by
  intro h
  have hend : (steps next Node.empty lateRetry).map
      (fun s => (s.waiting "r4", s.replicated.tree.root.view ["f"]))
        = some (["b1"], some (.file {
          state := .committed
          blocks := [⟨"b1", ["n1"], "sum1", 4, true⟩]
          leaseExpiresAt := 61
          blockSize := 4
          attrs := ownership none fileMode })) := by decide +kernel
  obtain ⟨s, hs, hend⟩ := Option.map_eq_some_iff.mp hend
  obtain ⟨hw, hfile⟩ := Prod.mk.inj hend
  have hstep : next s (.sign "r4" 3600 51) = some { s with
      toSign := s.toSign.insert "r4" []
      issued := s.issued ++ [issueBlock "b1" 3600 51] } := by
    rw [next, hw]
  obtain ⟨b, hadded, _, hnot⟩ := h lateRetry s _ "r4" 3600 51 (run_of_steps hs) (by decide)
    hstep
  have hcap : issueBlock "b1" 3600 51 = issueBlock b 3600 51 :=
    List.singleton_inj.mp (List.append_cancel_left hadded)
  obtain rfl : "b1" = b := congrArg WriteCapability.blockId hcap
  exact hnot ⟨["f"], _, hfile, rfl, by decide⟩

end DfshaWriteCapability
