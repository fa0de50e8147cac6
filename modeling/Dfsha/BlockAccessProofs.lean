import Dfsha.CopyOnWriteProofs
import Dfsha.DataNodeRpcsProofs
import Dfsha.ReplicaPlacementProofs
import Dfsha.RpcAnswersProofs

/-! # Who reaches a block

    A DataNode knows no users: it asks for a capability of the block.  The
    control node hands them out in three answers, each to whoever the tree
    lets: `ListBlocks` to read the blocks of a file, `BeginUpload` to write new
    ones, `BeginWrite` to write new ones and to read those that they replace.
    The last two write their answer from the outcome of a command, and that of
    a repeated command is an old one, from a tree that is gone.

    The key of a command says whose it is, so the old command was one of the
    same user and was executed with its permissions.  So whoever gets past the
    guard of a DataNode, whenever and with whatever token, has a capability of
    somebody whom the tree let have it; and none of those is one to delete a
    block, to list them or to order a copy. -/

namespace DfshaBlockAccess

open InsertionDict RaisingAction TransitionSystem TransitionSystem.System
open DfshaPath DfshaControlTree DfshaMetadata DfshaControlTreeEffect DfshaReplicatedTree
open DfshaOperationKey (Principal InternalKey bootstrapAdminOpId commitKey commitKey_inj
  commitKey_ne_internal)
open DfshaBlockToken (Issue Unforged)
open DfshaReplicaPlacement (broughtLists)
open DfshaBlockFailover (RpcError)
open DfshaBlockStore (Bytes)
open DfshaRoundTrip (Lawful holaCrypto holaKey holaId)
open DfshaDataNode (holaHmac guardedNode holaWrite)
open DfshaBlockDirectory (Copies Directory Shows)
open DfshaControlServicer DfshaRpcCommits DfshaRpcAnswers

/-! ## What is handed out -/

/-- `_block_capability`, for each capability of a response in turn. -/
def capabilities (ttlS : Time) (clock : Nat → Time) (response : Response) : List Issue :=
  (signed response).zipIdx.map fun x => .block x.1.blockId x.1.op ttlS (clock x.2)

/-- What an RPC hands to who calls it. -/
def handedOut (ttlS : Time) (c : Context) (clock : Nat → Time) :
    Except RpcError Response → List (Principal × Issue)
  | .ok response =>
      match c.token with
      | .ok p => (capabilities ttlS clock response).map (Prod.mk p)
      | .error _ => []
  | .error _ => []

/-! ## The log -/

section Log

variable {log : List Command} {s : ReplicatedTree}

/-- When its turn in the log came, the command was executed in this state. -/
def ExecutedAt (log : List Command) (c : Command) (s : ReplicatedTree) : Prop :=
  ∃ pre post, log = pre ++ c :: post ∧ replicated.Run pre s ∧ s.appliedOps.get? c.opId = none

theorem ExecutedAt.append {c : Command} (h : ExecutedAt log c s) (more : List Command) :
    ExecutedAt (log ++ more) c s := by
  obtain ⟨pre, post, rfl, hrest⟩ := h
  exact ⟨pre, post ++ more, by simp, hrest⟩

theorem ExecutedAt.mem {c : Command} (h : ExecutedAt log c s) : c ∈ log := by
  obtain ⟨pre, post, rfl, _⟩ := h
  exact List.mem_append_right _ List.mem_cons_self

/-- What is remembered was executed. -/
theorem executed_of_remembered (hrun : replicated.Run log s) {key : String} {o : Outcome}
    (h : s.appliedOps.get? key = some o) : ∃ c s', ExecutedAt log c s' ∧ c.opId = key ∧
      o = (execCall c.call s'.tree).1 := by
  suffices hinv : replicated.Run log s ∧ ∀ key o, s.appliedOps.get? key = some o →
      ∃ c s', ExecutedAt log c s' ∧ c.opId = key ∧ o = (execCall c.call s'.tree).1 from
    hinv.2 key o h
  refine hrun.invariant (I := fun log s => replicated.Run log s ∧
    ∀ key o, s.appliedOps.get? key = some o →
      ∃ c s', ExecutedAt log c s' ∧ c.opId = key ∧ o = (execCall c.call s'.tree).1) ?_ ?_
  · rintro s rfl
    exact ⟨⟨_, rfl, .start⟩, fun key o h => by cases h⟩
  · rintro log s c s' ⟨hrun, hs⟩ hstep
    obtain rfl : s' = (apply c s).2 := hstep
    refine ⟨run_apply hrun c, fun key o hkey => ?_⟩
    have hold : s.appliedOps.get? key = some o → ∃ c' s', ExecutedAt (log ++ [c]) c' s' ∧
        c'.opId = key ∧ o = (execCall c'.call s'.tree).1 := by
      intro h
      obtain ⟨c', s', hexec, hrest⟩ := hs key o h
      exact ⟨c', s', hexec.append [c], hrest⟩
    cases hop : s.appliedOps.get? c.opId with
    | some o' =>
        rw [apply_cached hop] at hkey
        exact hold hkey
    | none =>
        rw [apply_executed hop] at hkey
        dsimp only at hkey
        rcases get?_remember hkey with ⟨rfl, rfl⟩ | h
        · exact ⟨c, s, ⟨log, [], rfl, hrun, hop⟩, rfl, rfl⟩
        · exact hold h

/-- A command that was executed with a result has had its effect. -/
theorem effect_of_executed {call : Call} {ret : Ret} {s : ControlTree}
    (h : Outcome.ok ret = (execCall call s).1) :
    ∃ μ m', call = .mutation μ ∧ Effect μ (metadata s) (.ok ret) m' := by
  cases call with
  | unknown method => cases h
  | mutation μ =>
      have heffect := exec_effect μ s
      rw [outcomeOf_eq_ok h.symm] at heffect
      exact ⟨μ, _, rfl, heffect⟩

/-- So has one whose result is remembered. -/
theorem effect_of_remembered (hrun : replicated.Run log s) {key : String} {ret : Ret}
    (h : s.appliedOps.get? key = some (.ok ret)) : ∃ μ s' m',
      ExecutedAt log ⟨key, .mutation μ⟩ s' ∧ Effect μ (metadata s'.tree) (.ok ret) m' := by
  obtain ⟨⟨_, call⟩, s', hexec, rfl, hout⟩ := executed_of_remembered hrun h
  obtain ⟨μ, m', rfl, heffect⟩ := effect_of_executed hout
  exact ⟨μ, s', m', hexec, heffect⟩

/-- **AN ANSWER COMES FROM AN EXECUTION** under the key of the command. -/
theorem executed_of_answer (hrun : replicated.Run log s) {c : Command} {ret : Ret}
    (h : (apply c s).1 = .ok ret) : ∃ μ s' m', ExecutedAt (log ++ [c]) ⟨c.opId, .mutation μ⟩ s' ∧
      Effect μ (metadata s'.tree) (.ok ret) m' := by
  cases hop : s.appliedOps.get? c.opId with
  | some o =>
      rw [apply_cached hop] at h
      obtain rfl : o = .ok ret := h
      obtain ⟨μ, s', m', hexec, heffect⟩ := effect_of_remembered hrun hop
      exact ⟨μ, s', m', hexec.append [c], heffect⟩
  | none =>
      rw [apply_executed hop] at h
      obtain ⟨μ, m', hcall, heffect⟩ := effect_of_executed h.symm
      have hc : c = ⟨c.opId, .mutation μ⟩ := by rw [← hcall]
      exact ⟨μ, s, m', ⟨log, [], by rw [← hc], hrun, hop⟩, heffect⟩

/-- The commands of a cluster with authentication: those of RPCs, the creation
    of the admin and the repairs.  The addresses that they bring are in `A`. -/
inductive Legit (A : Set String) : Command → Prop
  | rpc {p : Principal} {opId : String} {μ : Mutation} (hpermitted : Permitted p μ)
      (hbrought : ∀ l ∈ broughtLists μ, ∀ a ∈ l, a ∈ A) :
      Legit A ⟨commitKey (some p) opId, .mutation μ⟩
  | admin {key : InternalKey} {username : String} {passwordHash salt : List UInt8}
      {groups : List String} {isAdmin : Bool} :
      Legit A ⟨key.key, .mutation (.createUser username passwordHash salt groups isAdmin)⟩
  | repair {key : InternalKey} {path blockId : String} {expected new : List String}
      (hnew : ∀ a ∈ new, a ∈ A) :
      Legit A ⟨key.key, .mutation (.updateBlockReplicas path blockId expected new)⟩

variable {A : Set String}

/-- A command under the key of a user is one of that user. -/
theorem Legit.of_key {p : Principal} {opId : String} {μ : Mutation}
    (h : Legit A ⟨commitKey (some p) opId, .mutation μ⟩) :
    ∃ q : Principal, q.username = p.username ∧ commitKey (some p) opId = commitKey (some q) opId ∧
      Permitted q μ := by
  generalize hkey : commitKey (some p) opId = key at h
  cases h with
  | @rpc q opId' _ hpermitted =>
      obtain ⟨hname, rfl⟩ := commitKey_inj hkey
      exact ⟨q, hname.symm, rfl, hpermitted⟩
  | @admin k => exact absurd hkey (commitKey_ne_internal p opId k)
  | @repair k => exact absurd hkey (commitKey_ne_internal p opId k)

theorem run_foldl (hrun : replicated.Run log s) (commands : List Command) :
    replicated.Run (log ++ commands) (commands.foldl (fun s c => (apply c s).2) s) := by
  induction commands generalizing log s with
  | nil =>
      rw [List.append_nil]
      exact hrun
  | cons c commands ih =>
      rw [List.append_cons]
      exact ih (run_apply hrun c)

end Log

/-! ## What a capability rests on -/

/-- Why a principal may have a capability of a block.  The permissions are those
    of the tree that the answer, or the command, was executed in. -/
inductive Earned (log : List Command) (p : Principal) (blockId : String) : String → Prop
  -- it could read a committed file with the block
  | listed {pre post : List Command} {s : ReplicatedTree} {ps : List String} {f : FileNode}
      (hlog : log = pre ++ post) (hrun : replicated.Run pre s)
      (hfile : (metadata s.tree).node ps = some (.file f)) (hcommitted : f.state = .committed)
      (hallowed : allows f.attrs (sessionCaller p) R = true)
      (hblock : blockId ∈ f.blocks.map BlockRecord.blockId) : Earned log p blockId "read"
  -- it began an upload of the block, where it could write
  | begun {q : Principal} {opId path : String} {ps : List String}
      {placements : List (String × List String)} {now leaseS : Option Time}
      {blockSize : Option Int} {s : ReplicatedTree} (hname : q.username = p.username)
      (hexec : ExecutedAt log ⟨commitKey (some q) opId, .mutation
        (.beginUpload path placements now leaseS blockSize (sessionCaller q))⟩ s)
      (hparts : parts path = .ok ps)
      (hallowed : (metadata s.tree).WritableAbove ps.dropLast (sessionCaller q))
      (hblock : blockId ∈ placements.map Prod.fst) : Earned log p blockId "write"
  -- it began a write that puts the block, to a file that it could write and had locked
  | reserved {q : Principal} {opId path w l : String} {version offset length : Int}
      {proposals : List (Int × String × List String)} {now leaseS : Time} {default : Int}
      {ps : List String} {f : FileNode} {r : WriteReservation} {s : ReplicatedTree}
      (hname : q.username = p.username)
      (hexec : ExecutedAt log ⟨commitKey (some q) opId, .mutation
        (.beginWrite path w l version offset length proposals now leaseS default
          (sessionCaller q))⟩ s) (hparts : parts path = .ok ps)
      (hr : Reserves (metadata s.tree) ps f w l version offset length proposals now leaseS
        default (sessionCaller q) r)
      (hblock : blockId ∈ r.slots.map WriteSlotRecord.newBlockId) : Earned log p blockId "write"
  -- or that replaces it
  | replaced {q : Principal} {opId path w l : String} {version offset length : Int}
      {proposals : List (Int × String × List String)} {now leaseS : Time} {default : Int}
      {ps : List String} {f : FileNode} {r : WriteReservation} {s : ReplicatedTree}
      (hname : q.username = p.username)
      (hexec : ExecutedAt log ⟨commitKey (some q) opId, .mutation
        (.beginWrite path w l version offset length proposals now leaseS default
          (sessionCaller q))⟩ s) (hparts : parts path = .ok ps)
      (hr : Reserves (metadata s.tree) ps f w l version offset length proposals now leaseS
        default (sessionCaller q) r)
      (hblock : ∃ slot ∈ r.slots, ∃ b, pyIndex f.blocks slot.index = .ok b ∧
        b.blockId = blockId) : Earned log p blockId "read"

section Earned

variable {log : List Command} {p : Principal} {blockId op : String} {A : Set String}

theorem Earned.append (h : Earned log p blockId op) (more : List Command) :
    Earned (log ++ more) p blockId op := by
  cases h with
  | listed hlog hrun hfile hcommitted hallowed hblock =>
      refine .listed (hlog ▸ List.append_assoc _ _ more) hrun hfile hcommitted hallowed hblock
  | begun hname hexec hparts hallowed hblock =>
      exact .begun hname (hexec.append more) hparts hallowed hblock
  | reserved hname hexec hparts hr hblock =>
      exact .reserved hname (hexec.append more) hparts hr hblock
  | replaced hname hexec hparts hr hblock =>
      exact .replaced hname (hexec.append more) hparts hr hblock

/-- The blocks of a description are those of the slot. -/
theorem describeSlot_grants {blocks : List BlockRecord} {slot : WriteSlotRecord}
    {d : SlotDescription} (h : describeSlot blocks slot = .ok d) {x : Grant}
    (hx : x ∈ slotGrants d) : x = ⟨slot.newBlockId, "write", slot.newAddresses⟩ ∨
      ∃ b, pyIndex blocks slot.index = .ok b ∧ x = ⟨b.blockId, "read", b.datanodeAddresses⟩ := by
  unfold describeSlot at h
  by_cases hold : slot.index < blocks.length
  · rw [if_pos hold] at h
    cases hindex : pyIndex blocks slot.index with
    | error e =>
        rw [hindex] at h
        cases h
    | ok b =>
        rw [hindex] at h
        obtain rfl := Except.ok.inj h
        rcases List.mem_append.mp hx with hread | hwrite
        · by_cases hempty : b.blockId ≠ ""
          · rw [if_pos hempty] at hread
            exact .inr ⟨b, rfl, List.mem_singleton.mp hread⟩
          · rw [if_neg hempty] at hread
            cases hread
        · exact .inl (List.mem_singleton.mp hwrite)
  · rw [if_neg hold] at h
    obtain rfl := Except.ok.inj h
    exact .inl (List.mem_singleton.mp hx)

theorem describeSlots_grants {blocks : List BlockRecord} {slots : List WriteSlotRecord}
    {ds : List SlotDescription} (h : describeSlots blocks slots = .ok ds)
    {x : Grant} (hx : x ∈ ds.flatMap slotGrants) : ∃ slot ∈ slots,
      x = ⟨slot.newBlockId, "write", slot.newAddresses⟩ ∨
      ∃ b, pyIndex blocks slot.index = .ok b ∧ x = ⟨b.blockId, "read", b.datanodeAddresses⟩ := by
  induction slots generalizing ds with
  | nil =>
      obtain rfl := Except.ok.inj h
      cases hx
  | cons slot slots ih =>
      rw [describeSlots] at h
      cases hd : describeSlot blocks slot with
      | error e =>
          rw [hd] at h
          cases h
      | ok d =>
          cases hds : describeSlots blocks slots with
          | error e =>
              rw [hd, hds] at h
              cases h
          | ok ds' =>
              rw [hd, hds] at h
              obtain rfl := Except.ok.inj h
              rw [List.flatMap_cons] at hx
              rcases List.mem_append.mp hx with hhere | hthere
              · exact ⟨slot, List.mem_cons_self, describeSlot_grants hd hhere⟩
              · obtain ⟨slot', hmem, hslot⟩ := ih hds hthere
                exact ⟨slot', List.mem_cons_of_mem _ hmem, hslot⟩

/-- **WHAT THE LOG ANSWERS WAS EARNED** by the user under whose key it is. -/
theorem earned_of_answer {s : ReplicatedTree} (hrun : replicated.Run log s) {c : Command}
    (hlegit : ∀ c' ∈ log ++ [c], Legit A c') {opId : String}
    (hkey : c.opId = commitKey (some p) opId) {ret : Ret} (h : (apply c s).1 = .ok ret)
    {x : Grant} (hx : x ∈ handedBy ret) : Earned (log ++ [c]) p x.blockId x.op := by
  obtain ⟨μ, s', m', hexec, heffect⟩ := executed_of_answer hrun h
  rw [hkey] at hexec
  obtain ⟨q, hname, hkey', hpermitted⟩ := (hlegit _ hexec.mem).of_key
  rw [hkey'] at hexec
  generalize hr : (Except.ok ret : Except PyError Ret) = r at heffect
  cases heffect with
  | beginUpload hparts hne hallowed hfree =>
      obtain rfl := Except.ok.inj hr
      obtain rfl : _ = sessionCaller q := hpermitted _ rfl
      obtain ⟨b, hb, rfl⟩ := List.mem_map.mp hx
      exact .begun hname hexec hparts hallowed (List.mem_map_of_mem hb)
  | beginWrite hparts hr' hdescribed =>
      obtain rfl := Except.ok.inj hr
      obtain rfl : _ = sessionCaller q := hpermitted _ rfl
      obtain ⟨slot, hmem, rfl | ⟨b, hindex, rfl⟩⟩ := describeSlots_grants hdescribed hx
      · exact .reserved hname hexec hparts hr' (List.mem_map_of_mem hmem)
      · exact .replaced hname hexec hparts hr' ⟨slot, hmem, b, hindex, rfl⟩
  | beginWriteLost | refused => cases hr
  | makeDir | removeDir | removeFile | confirmBlock | completeUpload | abortUpload | acquireLock
  | joinLock | renewLock | releaseLock | releaseLast | releaseGone | updateBlockReplicas
  | commitWrite | abortWrite | abortGone | createUser | changePassword | setAttrsDir
  | setAttrsFile =>
      obtain rfl := Except.ok.inj hr
      cases hx

/-- What a listing shows was earned. -/
theorem earned_of_listing {s : ReplicatedTree} (hrun : replicated.Run log s) {path : String}
    {blocks : List BlockRecord} (h : (listBlocks path (sessionCaller p) s.tree).1 = .ok blocks)
    {b : BlockRecord} (hb : b ∈ blocks) : Earned log p b.blockId "read" := by
  have hwp : wp (listBlocks path (sessionCaller p)) s.tree fun r _ =>
      ∀ blocks, r = .ok blocks → b ∈ blocks → Earned log p b.blockId "read" := by
    have refuse : ∀ e : PyError, ∀ blocks : List BlockRecord, Except.error e = .ok blocks →
        b ∈ blocks → Earned log p b.blockId "read" := by
      intro e blocks he
      cases he
    refine wp_foundFile (getCommittedFile_found path s.tree) refuse ?_
    intro ps f hparts hfile hcommitted
    refine wp_require refuse fun hallowed => wp_ret ?_
    intro blocks hblocks hmem
    obtain rfl := Except.ok.inj hblocks
    exact .listed (List.append_nil log).symm hrun hfile hcommitted hallowed
      (List.mem_map_of_mem hmem)
  exact hwp blocks h hb

end Earned

/-! ## The calls of a cluster -/

/-- What a call of an RPC comes with: others commit what they may, and the
    replicas that are drawn are in `A`. -/
structure Served (A : Set String) (c : Context) : Prop extends Authentic c where
  others : ∀ command ∈ c.others, Legit A command
  drawn : ∀ n proposed, c.blocks n = .ok proposed → ∀ b ∈ proposed, ∀ a ∈ b.2, a ∈ A

theorem Served.legit {A : Set String} {c : Context} (h : Served A c) {command : Command}
    (hown : OwnCommand c command) : Legit A command := by
  obtain ⟨p, opId, μ, _, hpermitted, hdrawn, rfl⟩ := hown
  refine .rpc hpermitted fun l hl a ha => ?_
  cases μ with
  | beginUpload path placements now leaseS blockSize caller =>
      obtain ⟨n, hn⟩ := hdrawn
      obtain ⟨b, hb, rfl⟩ := List.mem_map.mp hl
      exact h.drawn n _ hn b hb a ha
  | beginWrite path w l' version offset length proposals now leaseS default caller =>
      obtain ⟨n, proposed, hn, hsub⟩ := hdrawn
      obtain ⟨b, hb, rfl⟩ := List.mem_map.mp hl
      exact h.drawn n proposed hn b.2 (hsub.subset (List.mem_map_of_mem hb)) a ha
  | updateBlockReplicas => exact hpermitted.elim
  | _ => cases hl

/-! ## The cluster and its clients -/

/-- The replicated tree, and the capabilities that answers have handed out to
    whom. -/
structure Clients where
  replicated : ReplicatedTree
  handed : List (Principal × Issue)

def Clients.empty : Clients := ⟨ReplicatedTree.empty, []⟩

/-- What the clients may present. -/
def Clients.issues (w : Clients) : Set Issue := {i | ∃ p, (p, i) ∈ w.handed}

inductive Event where
  | rpc (c : Context) (request : Request) (clock : Nat → Time)
  -- a command of the leader itself, or one whose RPC did not wait for it
  | commit (command : Command)

section System

variable (A : Set String) (ttlS : Time)

inductive Step : Clients → Event → Clients → Prop
  | rpc {w : Clients} {c : Context} {request : Request} {clock : Nat → Time}
      (h : Served A c) : Step w (.rpc c request clock)
        ⟨(serve c request w.replicated).2.replicated,
          w.handed ++ handedOut ttlS c clock (serve c request w.replicated).1⟩
  | commit {w : Clients} {command : Command} (h : Legit A command) :
      Step w (.commit command) { w with replicated := (apply command w.replicated).2 }

/-- The runs of a cluster with authentication and its clients. -/
def clients : System Clients Event where
  init := fun w => w = Clients.empty
  step := Step A ttlS

end System

section Runs

variable {A : Set String} {ttlS : Time}

theorem mem_handedOut {c : Context} {clock : Nat → Time} {r : Except RpcError Response}
    {p : Principal} {i : Issue} (h : (p, i) ∈ handedOut ttlS c clock r) :
    ∃ response x t, r = .ok response ∧ c.token = .ok p ∧ x ∈ signed response ∧
      i = .block x.blockId x.op ttlS t := by
  cases r with
  | error e => cases h
  | ok response =>
      unfold handedOut at h
      cases htoken : c.token with
      | error message =>
          rw [htoken] at h
          cases h
      | ok q =>
          rw [htoken] at h
          obtain ⟨issue, hissue, heq⟩ := List.mem_map.mp h
          obtain ⟨rfl, rfl⟩ := Prod.mk.inj heq
          obtain ⟨⟨x, k⟩, hx, rfl⟩ := List.mem_map.mp hissue
          exact ⟨response, x, clock k, rfl, rfl, List.fst_mem_of_mem_zipIdx hx, rfl⟩

/-- The part of the log that a call adds, and what its answer rests on. -/
theorem log_of_serve {log : List Command} {s : ReplicatedTree} {c : Context}
    (h : Served A c) (hrun : replicated.Run log s) (hlegit : ∀ c' ∈ log, Legit A c')
    (request : Request) :
    ∃ more, replicated.Run (log ++ more) (serve c request s).2.replicated ∧
      (∀ c' ∈ more, Legit A c') ∧
      ∀ response p, (serve c request s).1 = .ok response → c.token = .ok p →
        ∀ x ∈ signed response, Earned (log ++ more) p x.blockId x.op := by
  have hcommits := commits_own h.toAuthentic request ⟨s, [], []⟩
  have hrested := rested_handler h.toAuthentic request ⟨s, [], []⟩
  unfold serve
  unfold wp at hcommits hrested
  generalize handler c request ⟨s, [], []⟩ = r at hcommits hrested ⊢
  obtain ⟨result, s'⟩ := r
  dsimp only at hcommits hrested ⊢
  have hothers := run_foldl hrun c.others
  have hown : ∀ {command : Command}, Legit A command →
      ∀ c' ∈ c.others ++ [command], Legit A c' := by
    intro command hcommand c' hmem
    rcases List.mem_append.mp hmem with hother | hself
    · exact h.others c' hother
    · rw [List.mem_singleton.mp hself]
      exact hcommand
  by_cases hsigned : ∃ response, result = .ok response ∧ signed response ≠ []
  · obtain ⟨response, rfl, hne⟩ := hsigned
    have hrests := hrested response rfl
    have hanswer : ∀ response', endingOf (.ok response) = .ok response' →
        response' = response := fun _ heq => (Except.ok.inj heq).symm
    generalize hcaps : signed response = caps at hrests hne
    generalize s'.replicated = t at hrests ⊢
    cases hrests with
    | nothing => exact absurd rfl hne
    | @listed p path blocks htoken hblocks =>
        refine ⟨[], by rw [List.append_nil]; exact hrun, fun _ hmem => (by cases hmem), ?_⟩
        intro response' q hresponse hq x hx
        rw [hanswer _ hresponse, hcaps] at hx
        obtain rfl := Except.ok.inj (htoken.symm.trans hq)
        obtain ⟨b, hb, rfl⟩ := List.mem_map.mp hx
        exact (earned_of_listing hrun hblocks hb).append []
    | @outcome command ret hcommand hret =>
        have hlegit' := h.legit hcommand
        obtain ⟨p, opId, μ, htoken, _, _, rfl⟩ := hcommand
        refine ⟨c.others ++ [_], ?_, hown hlegit', ?_⟩
        · rw [← List.append_assoc]
          exact run_apply hothers _
        intro response' q hresponse hq x hx
        rw [hanswer _ hresponse, hcaps] at hx
        obtain rfl := Except.ok.inj (htoken.symm.trans hq)
        rw [← List.append_assoc]
        refine earned_of_answer (A := A) hothers (fun c' hmem => ?_) rfl hret hx
        rw [List.append_assoc] at hmem
        rcases List.mem_append.mp hmem with hold | hnew
        · exact hlegit c' hold
        · exact hown hlegit' c' hnew
  · have hnothing : ∀ (more : List Command) (response : Response) (p : Principal),
        endingOf result = .ok response → c.token = .ok p →
        ∀ x ∈ signed response, Earned (log ++ more) p x.blockId x.op := by
      intro more response p hresponse _ x hx
      refine absurd ⟨response, ?_, List.ne_nil_of_mem hx⟩ hsigned
      cases result with
      | ok response' => exact congrArg Except.ok (Except.ok.inj hresponse)
      | error e => cases e <;> cases hresponse
    rcases hcommits with hsame | hafter | ⟨command, hcommand, happly⟩
    · refine ⟨[], ?_, fun _ hmem => (by cases hmem), hnothing []⟩
      rw [List.append_nil, hsame]
      exact hrun
    · refine ⟨c.others, ?_, h.others, hnothing _⟩
      rw [hafter]
      exact hothers
    · refine ⟨c.others ++ [command], ?_, hown (h.legit hcommand), hnothing _⟩
      rw [happly, ← List.append_assoc]
      exact run_apply hothers command

/-- There is a log of legitimate commands that leads to the tree, and in which
    every capability that was handed out was earned. -/
def Backed (A : Set String) (ttlS : Time) (w : Clients) : Prop :=
  ∃ log, replicated.Run log w.replicated ∧ (∀ c ∈ log, Legit A c) ∧
    ∀ p i, (p, i) ∈ w.handed → ∃ blockId op t, i = .block blockId op ttlS t ∧
      Earned log p blockId op

theorem backed_step {w w' : Clients} {e : Event} (hw : Backed A ttlS w)
    (h : Step A ttlS w e w') : Backed A ttlS w' := by
  obtain ⟨log, hrun, hlegit, hearned⟩ := hw
  have hmore : ∀ {more : List Command}, (∀ c ∈ more, Legit A c) →
      ∀ c ∈ log ++ more, Legit A c := by
    intro more hnew c hmem
    rcases List.mem_append.mp hmem with hold | hmem
    · exact hlegit c hold
    · exact hnew c hmem
  have hkept : ∀ (more : List Command) p i, (p, i) ∈ w.handed →
      ∃ blockId op t, i = .block blockId op ttlS t ∧ Earned (log ++ more) p blockId op := by
    intro more p i hmem
    obtain ⟨blockId, op, t, hi, he⟩ := hearned p i hmem
    exact ⟨blockId, op, t, hi, he.append more⟩
  cases h with
  | rpc hserved =>
      obtain ⟨more, hrun', hnew, hanswer⟩ := log_of_serve hserved hrun hlegit _
      refine ⟨log ++ more, hrun', hmore hnew, fun p i hmem => ?_⟩
      rcases List.mem_append.mp hmem with hold | hfresh
      · exact hkept more p i hold
      · obtain ⟨response, x, t, hresponse, htoken, hx, rfl⟩ := mem_handedOut hfresh
        exact ⟨x.blockId, x.op, t, rfl, hanswer response p hresponse htoken x hx⟩
  | @commit command hcommand =>
      refine ⟨log ++ [command], run_apply hrun command, hmore fun c hmem => ?_, hkept [command]⟩
      rw [List.mem_singleton.mp hmem]
      exact hcommand

theorem backed_run {events : List Event} {w : Clients}
    (hrun : (clients A ttlS).Run events w) : Backed A ttlS w := by
  refine hrun.invariant (I := fun _ w => Backed A ttlS w) ?_ ?_
  · rintro w rfl
    exact ⟨[], ⟨_, rfl, .start⟩, fun _ hmem => (by cases hmem), fun _ _ hmem => (by cases hmem)⟩
  · exact fun _ w e w' hw h => backed_step hw h

/-! ## Past the guard of a DataNode -/

def invocation : DfshaDataNode.Call → DfshaDataNode.Invocation
  | .write inv _ _ => inv
  | .read inv _ _ _ => inv
  | .delete inv _ => inv
  | .list inv _ _ => inv

/-- The block and the operation that a call asks a capability for. -/
def asks : DfshaDataNode.Call → Option (String × String)
  | .write _ _ stream =>
      match stream.messages with
      | .header blockId _ :: _ => some (blockId, "write")
      | _ => none
  | .read _ blockId _ _ => some (blockId, "read")
  | .delete _ blockId => some (blockId, "delete")
  | .list _ _ _ => none

/-- An error, and nothing streamed. -/
inductive Refused : DfshaDataNode.Answer → Prop
  | written {e : RpcError} : Refused (.written (.error e))
  | chunks {e : RpcError} : Refused (.chunks (.error e) [])
  | deleted {e : RpcError} : Refused (.deleted (.error e))
  | blocks {e : RpcError} : Refused (.blocks (.error e) [])

/-- What is not refused has a capability. -/
theorem admitted_of_meets {node : DfshaDataNode.Config} {call : DfshaDataNode.Call}
    {answer : DfshaDataNode.Answer} {copies copies' : Copies}
    (h : DfshaDataNode.Meets node copies call answer copies') :
    (Refused answer ∧ copies' = copies) ∨
    (∃ blockId op, asks call = some (blockId, op) ∧
      DfshaDataNode.Admits node (invocation call) blockId op) ∨
    DfshaDataNode.internalCheck node (invocation call).capability "list" (invocation call).now
      = .ok () := by
  cases h with
  | written hasks =>
      obtain ⟨rest, hmessages, _⟩ := hasks.opened
      refine .inr (.inl ⟨_, "write", ?_, hasks.allowed⟩)
      rw [asks, hmessages]
  | forwarded hstream hdownstream hallowed =>
      refine .inr (.inl ⟨_, "write", ?_, _, hallowed⟩)
      rw [asks, hstream]
  | read hallowed | damaged hallowed => exact .inr (.inl ⟨_, "read", rfl, hallowed⟩)
  | deleted hallowed => exact .inr (.inl ⟨_, "delete", rfl, hallowed⟩)
  | listed hallowed => exact .inr (.inr hallowed)
  | notWritten => exact .inl ⟨.written, rfl⟩
  | notRead => exact .inl ⟨.chunks, rfl⟩
  | notDeleted => exact .inl ⟨.deleted, rfl⟩
  | notListed => exact .inl ⟨.blocks, rfl⟩

section Guard

variable {node : DfshaDataNode.Config} {hmacSha256 : Bytes → Bytes} {issues : Set Issue}

/-- The capability that lets a call past was issued, and is still good. -/
theorem issued_of_admitted {inv : DfshaDataNode.Invocation} {blockId op : String}
    (hmac : node.capabilityMac = some hmacSha256)
    (hunforged : Unforged hmacSha256 issues (.text inv.capability))
    (h : DfshaDataNode.Admits node inv blockId op) : ∃ ttl t,
      Issue.block blockId op ttl t ∈ issues ∧ inv.now < ((⌈t + ttl⌉ : Int) : Time) := by
  obtain ⟨capability, hcheck⟩ := h
  unfold DfshaDataNode.blockCheck at hcheck
  rw [hmac] at hcheck
  obtain ⟨_, hverify, _⟩ := map_eq_ok hcheck
  obtain ⟨ttl, t, _, hissue, _, _, _, halive⟩ :=
    (DfshaBlockToken.verifyBlock_ok_iff hunforged).mp hverify
  exact ⟨ttl, t, hissue, halive⟩

theorem issued_of_internal {token op : String} {now : Time}
    (hmac : node.capabilityMac = some hmacSha256)
    (hunforged : Unforged hmacSha256 issues (.text token))
    (h : DfshaDataNode.internalCheck node token op now = .ok ()) :
    ∃ ttl t, Issue.internal op ttl t ∈ issues := by
  unfold DfshaDataNode.internalCheck at h
  rw [hmac] at h
  obtain ⟨ttl, t, _, hissue, _⟩ := (DfshaBlockToken.verifyInternal_ok_iff hunforged).mp h
  exact ⟨ttl, t, hissue⟩

variable {w : Clients} {token : String} {now : Time}

/-- No client has an internal capability. -/
theorem not_internal (hw : Backed A ttlS w) (hmac : node.capabilityMac = some hmacSha256)
    (hunforged : Unforged hmacSha256 w.issues (.text token)) (op : String) :
    DfshaDataNode.internalCheck node token op now ≠ .ok () := by
  intro h
  obtain ⟨_, _, p, hp⟩ := issued_of_internal hmac hunforged h
  obtain ⟨log, _, _, hearned⟩ := hw
  obtain ⟨_, _, _, hi, _⟩ := hearned p _ hp
  cases hi

/-- A leader that places the one block of an upload. -/
def evaUploads : Context := { evaLeader with
  blocks := fun n =>
    if n = 1 then .ok [(holaId, ["d1:1"])]
    else .error "solo hay 0 DataNodes vivos; se requieren al menos 1"
  length_blocks := by
    intro n proposed h
    by_cases hn : n = 1
    · rw [if_pos hn] at h
      rw [← Except.ok.inj h, hn]
      rfl
    · rw [if_neg hn] at h
      cases h }

theorem served_evaUploads : Served {"d1:1"} evaUploads where
  authentication := rfl
  others command hmem := by cases hmem
  drawn n proposed h := by
    by_cases hn : n = 1
    · have hproposed : [(holaId, ["d1:1"])] = proposed := by
        rw [hn] at h
        exact Except.ok.inj h
      rw [← hproposed]
      simp
    · have hnone : evaUploads.blocks n = .error _ := if_neg hn
      rw [hnone] at h
      cases h

def evaRequest : Request := .beginUpload "/hola" 4 "op1"

def evaClients : Clients :=
  ⟨(serve evaUploads evaRequest ReplicatedTree.empty).2.replicated,
    [] ++ handedOut 60 evaUploads (fun _ => 1000)
      (serve evaUploads evaRequest ReplicatedTree.empty).1⟩

theorem run_evaClients : (clients {"d1:1"} 60).Run
    [.rpc evaUploads evaRequest fun _ => 1000] evaClients := by
  have hstart : (clients {"d1:1"} 60).Run [] Clients.empty := ⟨_, rfl, .start⟩
  exact hstart.next (.rpc served_evaUploads)

/-- The answer hands out the capability to write the block. -/
theorem handed_evaClients :
    (eva, Issue.block holaId "write" 60 1000) ∈ evaClients.handed := by
  have hsigned : ((serve evaUploads evaRequest ReplicatedTree.empty).1.toOption.map signed)
      = some [⟨holaId, "write", ["d1:1"]⟩] := by decide +kernel
  unfold evaClients
  cases hr : (serve evaUploads evaRequest ReplicatedTree.empty).1 with
  | error e =>
      rw [hr] at hsigned
      cases hsigned
  | ok response =>
      rw [hr] at hsigned
      have hcaps : signed response = [⟨holaId, "write", ["d1:1"]⟩] := Option.some.inj hsigned
      refine List.mem_append_right _ (List.mem_map_of_mem ?_)
      rw [capabilities, hcaps]
      exact List.mem_singleton.mpr rfl

/-- The client writes the block with what it was handed. -/
theorem unforged_evaWrite :
    Unforged holaHmac evaClients.issues (.text (invocation holaWrite).capability) := by
  intro payload hpayload
  refine ⟨_, ⟨eva, handed_evaClients⟩, ?_⟩
  rw [← DfshaBlockToken.sign_inj holaHmac (DfshaBlockToken.Token.text.inj hpayload)]
  decide +kernel

example : (match (DfshaDataNode.serve guardedNode Directory.empty holaWrite).1 with
    | .written (.ok (.written _ bytesWritten)) => bytesWritten
    | _ => 0) = 4 := by decide +kernel

end Guard

end Runs

end DfshaBlockAccess
