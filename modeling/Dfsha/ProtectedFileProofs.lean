import Dfsha.BlockAccessProofs
import Dfsha.ConfinementProofs

/-! # What others cannot do to a file

    The content of a file is in three places: its entry in the tree, the
    records of its blocks there, and the blocks at the DataNodes.  The first
    two are guarded by the permissions of the tree, the blocks by capabilities
    only, and the control node itself deletes blocks when a result of the log
    says so, which may be an old one that a client asks for again.

    A user who neither owns nor may write to a committed file and its
    directory leaves all three as they are, whatever RPCs it sends, again or
    for the first time, whatever of the DataNodes it calls with the
    capabilities that it is handed, and however late the deletions arrive. -/

namespace DfshaProtectedFile

open InsertionDict NamedTree RaisingAction TransitionSystem TransitionSystem.System
open DfshaPath DfshaControlTree DfshaMetadata DfshaControlTreeEffect DfshaReplicatedTree
open DfshaPendingUpload DfshaConfinement
open DfshaOperationKey (Principal commitKey commitKey_inj)
open DfshaBlockOwnership
open DfshaBlockToken (Issue Unforged)
open DfshaRoundTrip (Lawful holaKey holaId marId)
open DfshaDataNode (holaHmac guardedNode holaRead)
open DfshaBlockDirectory (Copies Directory Shows holaDirectory)
open DfshaBlockStore (Bytes hola)
open DfshaControlServicer DfshaRpcCommits DfshaRpcAnswers DfshaBlockAccess

/-! ## The entry of the file -/

/-- A user who neither owns nor may write to the file and its directory. -/
structure Stranger (d : NodeAttrs) (f : FileNode) (p : Principal) : Prop where
  admin : p.isAdmin = false
  owner : p.username ≠ f.attrs.owner
  ownerAbove : p.username ≠ d.owner
  denied : allows f.attrs (sessionCaller p) W = false
  deniedAbove : allows d (sessionCaller p) W = false

/-- The file is there, committed, and in this directory. -/
structure InPlace (ps : List String) (d : NodeAttrs) (f : FileNode) (m : Metadata) : Prop where
  file : m.node ps = some (.file f)
  committed : f.state = .committed
  above : m.node ps.dropLast = some (.dir d)

section Entry

variable {m m' : Metadata} {μ : Mutation} {r : Except PyError Ret} {p : Principal}
  {ps ps' : List String} {d : NodeAttrs} {f : FileNode}

theorem issuedBy_of_permitted (h : Permitted p μ) :
    IssuedBy ⟨p.username, p.groups, p.isAdmin⟩ μ := by
  intro caller hcaller
  cases μ with
  | createUser | changePassword => cases hcaller
  | updateBlockReplicas => exact h.elim
  | _ => exact h caller hcaller

theorem InPlace.exists_name (h : InPlace ps d f m) : ∃ k, ps = ps.dropLast ++ [k] := by
  have hne : ps ≠ [] := by
    rintro rfl
    exact ne_of_dir h.file h.above rfl
  exact ⟨ps.getLast hne, (List.dropLast_append_getLast hne).symm⟩

theorem inPlace_congr (h : InPlace ps d f m) (hnode : m'.node = m.node) : InPlace ps d f m' :=
  ⟨by rw [hnode]; exact h.file, h.committed, by rw [hnode]; exact h.above⟩

/-- A step that changes one node, which is neither of the two. -/
theorem inPlace_update {e : Option NodeEntry} (h : InPlace ps d f m)
    (hnode : ∀ q, m'.node q = if q = ps' then e else m.node q) (hfile : ps ≠ ps')
    (habove : ps.dropLast ≠ ps') : InPlace ps d f m' where
  file := by rw [hnode, if_neg hfile]; exact h.file
  committed := h.committed
  above := by rw [hnode, if_neg habove]; exact h.above

/-- **A STRANGER LEAVES THE ENTRY OF THE FILE ALONE.** -/
theorem inPlace_effect (h : InPlace ps d f m) (hp : Stranger d f p) (hpermitted : Permitted p μ)
    (he : Effect μ m r m') : InPlace ps d f m' := by
  have hissued := issuedBy_of_permitted hpermitted
  -- an upload that is under way is not the file, nor its directory
  have pending : ∀ {ps' f'} {e : Option NodeEntry}, m.node ps' = some (.file f') →
      f'.state = .pending → (∀ q, m'.node q = if q = ps' then e else m.node q) →
      InPlace ps d f m' := by
    intro ps' f' e hfile hpending hnode
    exact inPlace_update h hnode (ne_of_committed hfile hpending h.file h.committed).symm
      (ne_of_dir hfile h.above).symm
  cases he with
  | @makeDir _ path caller ps' d' hparts hne hparent hallowed hfree =>
      refine inPlace_update h (Metadata.node_setNode ps' _) ?_ ?_
      · rintro rfl
        rw [h.file] at hfree
        cases hfree
      · rintro rfl
        rw [h.above] at hfree
        cases hfree
  | @removeDir _ path caller ps' d₀ d₁ hparts hne hparent hallowed hdir hempty =>
      refine inPlace_update h (Metadata.node_dropNode ps') (ne_of_dir h.file hdir) ?_
      rintro rfl
      obtain ⟨k, hk⟩ := h.exists_name
      have hnone := hempty k []
      rw [← hk, h.file] at hnone
      cases hnone
  | @removeFile _ path now caller ps' d' f' hparts hne hparent hallowed hfile hcommitted
      hunlocked =>
      refine inPlace_update (e := none) h ?_ ?_ (ne_of_dir hfile h.above).symm
      · intro q
        rw [Metadata.node_dropNode, Metadata.node_aliveLocks]
      · rintro rfl
        obtain rfl := hissued caller rfl
        rw [h.above] at hparent
        obtain rfl := Entry.dir.inj (Option.some.inj hparent)
        exact Bool.false_ne_true (hp.deniedAbove.symm.trans hallowed)
  | @beginUpload _ path placements now leaseS blockSize caller ps' stale hparts hne hallowed
      hfree =>
      have hthere : ∀ q e, m.node q = some e → q ≠ ps' →
          ((m.makeParents ps'.dropLast (ownership caller dirMode)).setFile ps'
            (newUpload placements now leaseS blockSize caller)).node q = some e := by
        intro q e hq hne'
        rw [Metadata.node_setFile, if_neg hne', ← hq]
        refine if_neg ?_
        rintro ⟨_, hnone⟩
        rw [hq] at hnone
        cases hnone
      refine ⟨hthere ps _ h.file ?_, h.committed, hthere _ _ h.above ?_⟩
      · rintro rfl
        rcases hfree with ⟨hnone, _⟩ | ⟨f', hfile, hpending, _⟩
        · rw [h.file] at hnone
          cases hnone
        · exact ne_of_committed hfile hpending h.file h.committed rfl
      · rintro rfl
        rcases hfree with ⟨hnone, _⟩ | ⟨f', hfile, _⟩
        · rw [h.above] at hnone
          cases hnone
        · exact ne_of_dir hfile h.above rfl
  | @confirmBlock _ path b sum size now leaseS caller ps' f' blocks hparts hfile hpending howner
      hblocks => exact pending hfile hpending (Metadata.node_setFile ps' _)
  | @completeUpload _ path caller ps' f' hparts hfile hpending howner hconfirmed =>
      exact pending hfile hpending (Metadata.node_setFile ps' _)
  | @abortUpload _ path caller ps' f' hparts hne hfile hpending howner =>
      exact pending hfile hpending (Metadata.node_dropNode ps')
  | acquireLock | joinLock | renewLock | releaseLock =>
      exact inPlace_congr h (by rw [Metadata.node_setLock, Metadata.node_aliveLocks])
  | releaseLast => exact inPlace_congr h (by rw [Metadata.node_dropLock, Metadata.node_aliveLocks])
  | releaseGone => exact inPlace_congr h (by rw [Metadata.node_aliveLocks])
  | updateBlockReplicas => exact hpermitted.elim
  | beginWrite | beginWriteLost =>
      exact inPlace_congr h (by rw [Metadata.node_setWrite, (pruned_writeTable _ _ _).node])
  | @commitWrite _ path w l version confirmed now caller ps' f' res blocks replaced hparts hr
      hpublished =>
      have hnode := Metadata.node_setFile (m := m.writeTable (pathKey ps') now) ps'
        { f' with blocks, version := f'.version + 1, blockSize := res.blockSize }
      rw [(pruned_writeTable _ _ _).node] at hnode
      refine inPlace_update h hnode ?_ (ne_of_dir hr.hfile h.above).symm
      rintro rfl
      obtain rfl := hissued caller rfl
      obtain rfl := eq_of_node h.file hr.hfile
      exact Bool.false_ne_true (hp.denied.symm.trans hr.hallowed)
  | abortWrite =>
      exact inPlace_congr h (by rw [Metadata.node_dropWrite, Metadata.node_aliveWrites])
  | abortGone => exact inPlace_congr h (by rw [Metadata.node_aliveWrites])
  | createUser | changePassword => exact inPlace_congr h rfl
  | @setAttrsDir _ _ path ps' a a' hparts hdir hμ =>
      refine inPlace_update h (Metadata.node_setNode ps' _) (ne_of_dir h.file hdir) ?_
      rintro rfl
      obtain rfl := Entry.dir.inj (Option.some.inj (h.above.symm.trans hdir))
      exact hp.ownerAbove (owner_changesAttrs hμ hissued hp.admin).1
  | @setAttrsFile _ _ path ps' f' attrs hparts hfile hcommitted hμ =>
      refine inPlace_update h (Metadata.node_setFile ps' _) ?_ (ne_of_dir hfile h.above).symm
      rintro rfl
      obtain rfl := eq_of_node h.file hfile
      exact hp.owner (owner_changesAttrs hμ hissued hp.admin).1
  | refused hpruned => exact inPlace_congr h hpruned.node

end Entry

/-! ## Block ids that are new -/

/-- The block ids that the tree knows: those that somebody holds, and those that a
    remembered result gives up. -/
def knownIds (s : ReplicatedTree) : List String :=
  blockIds s.tree ++
    s.appliedOps.entries.flatMap fun e => (outcomeBlocks e.2).map BlockRecord.blockId

/-- Each command brings new ids, when its turn comes. -/
def BringsNew : ReplicatedTree → List Command → Prop
  | _, [] => True
  | s, c :: cs => (commandIds c).Nodup ∧ (∀ x ∈ commandIds c, x ∉ knownIds s) ∧
      BringsNew (apply c s).2 cs

section Known

variable {used : List String} {s : ReplicatedTree}

theorem known_of_held {i : Holder} {x : String} (h : x ∈ held (metadata s.tree) i) :
    x ∈ knownIds s := List.mem_append_left _ (mem_blockIds.mpr ⟨i, h⟩)

/-- Nothing else needs to be known. -/
theorem owned_knownIds (h : Owned used s) : Owned (knownIds s) s where
  separate := h.separate
  known _ _ hx := known_of_held hx
  remembered key o hkey b hb :=
    ⟨List.mem_append_right _ (List.mem_flatMap.mpr
      ⟨(key, o), Dict.get?_eq_some_iff.mp hkey, List.mem_map_of_mem hb⟩),
      (h.remembered key o hkey b hb).2⟩

end Known

/-! ## The commands of strangers -/

/-- The command of an RPC of one of these users. -/
def CommandOf (users : Set Principal) (command : Command) : Prop :=
  ∃ p ∈ users, ∃ opId μ, Permitted p μ ∧ command = ⟨commitKey (some p) opId, .mutation μ⟩

/-- A capability with which no block of the file is written or deleted. -/
def Harmless (f : FileNode) (blockId op : String) : Prop :=
  op = "read" ∨ op = "write" ∧ blockId ∉ fileIds f

/-- The file is in place, its blocks are its own, and no result that one of
    these users may ask for again hands out a capability to write them. -/
structure Guarded (users : Set Principal) (ps : List String) (d : NodeAttrs) (f : FileNode)
    (s : ReplicatedTree) : Prop where
  owned : Owned (knownIds s) s
  inPlace : InPlace ps d f (metadata s.tree)
  answers : ∀ p ∈ users, ∀ opId ret,
    s.appliedOps.get? (commitKey (some p) opId) = some (.ok ret) →
    ∀ g ∈ handedBy ret, Harmless f g.blockId g.op

section Commands

variable {users : Set Principal} {ps : List String} {d : NodeAttrs} {f : FileNode}
  {s : ReplicatedTree} {c : Command}

/-- A result hands out capabilities to read, and to write what it brought. -/
theorem grants_effect {μ : Mutation} {m m' : Metadata} {ret : Ret}
    (he : Effect μ m (.ok ret) m') {g : Grant} (hg : g ∈ handedBy ret) :
    g.op = "read" ∨ g.op = "write" ∧ g.blockId ∈ proposedIds μ := by
  generalize hr : (Except.ok ret : Except PyError Ret) = r at he
  cases he with
  | beginUpload =>
      obtain rfl := Except.ok.inj hr
      obtain ⟨b, hb, rfl⟩ := List.mem_map.mp hg
      exact .inr ⟨rfl, List.mem_map_of_mem hb⟩
  | beginWrite hparts hreserves hdescribed =>
      obtain rfl := Except.ok.inj hr
      obtain ⟨slot, hslot, rfl | ⟨b, _, rfl⟩⟩ := describeSlots_grants hdescribed hg
      · obtain ⟨plan, _, _, hslots⟩ := hreserves.hplan
        rw [hslots] at hslot
        exact .inr ⟨rfl, (slotIds_fillSlots _ _).subset (List.mem_map_of_mem hslot)⟩
      · exact .inl rfl
  | beginWriteLost | refused => cases hr
  | makeDir | removeDir | removeFile | confirmBlock | completeUpload | abortUpload | acquireLock
  | joinLock | renewLock | releaseLock | releaseLast | releaseGone | updateBlockReplicas
  | commitWrite | abortWrite | abortGone | createUser | changePassword | setAttrsDir
  | setAttrsFile =>
      obtain rfl := Except.ok.inj hr
      cases hg

theorem Guarded.owns (h : Guarded users ps d f s) :
    held (metadata s.tree) (.file ps) = fileIds f := held_file h.inPlace.file

theorem Guarded.known (h : Guarded users ps d f s) {x : String} (hx : x ∈ fileIds f) :
    x ∈ knownIds s := by
  rw [← h.owns] at hx
  exact known_of_held hx

theorem inPlace_apply (h : InPlace ps d f (metadata s.tree)) (hc : CommandOf users c)
    (hstrangers : ∀ p ∈ users, Stranger d f p) :
    InPlace ps d f (metadata (apply c s).2.tree) := by
  obtain ⟨p, hp, opId, μ, hpermitted, rfl⟩ := hc
  have happlied := apply_applied ⟨commitKey (some p) opId, .mutation μ⟩ s
  generalize (apply ⟨commitKey (some p) opId, .mutation μ⟩ s).1 = o at happlied
  generalize (apply ⟨commitKey (some p) opId, .mutation μ⟩ s).2 = s' at happlied ⊢
  cases happlied with
  | cached hop => exact h
  | executed hnew hcall heffect hops =>
      obtain rfl := Call.mutation.inj hcall
      exact inPlace_effect h (hstrangers p hp) hpermitted heffect
  | rejected hnew htree hops => exact inPlace_congr h (by rw [htree])

/-- What the command of a stranger answers, now or from memory, is harmless. -/
theorem harmless_apply (h : Guarded users ps d f s) (hc : CommandOf users c)
    (hnew : ∀ x ∈ commandIds c, x ∉ knownIds s) {ret : Ret} (hret : (apply c s).1 = .ok ret) :
    ∀ g ∈ handedBy ret, Harmless f g.blockId g.op := by
  obtain ⟨p, hp, opId, μ, _, rfl⟩ := hc
  have happlied := apply_applied ⟨commitKey (some p) opId, .mutation μ⟩ s
  rw [hret] at happlied
  generalize ho : Outcome.ok ret = o at happlied
  generalize (apply ⟨commitKey (some p) opId, .mutation μ⟩ s).2 = s' at happlied
  cases happlied with
  | cached hop =>
      rw [← ho] at hop
      exact h.answers p hp opId ret hop
  | executed _ hcall heffect =>
      rw [outcomeOf_eq_ok ho.symm] at heffect
      obtain rfl := Call.mutation.inj hcall
      intro g hg
      rcases grants_effect heffect hg with hread | ⟨hwrite, hbrought⟩
      · exact .inl hread
      · exact .inr ⟨hwrite, fun hx => hnew _ hbrought (h.known hx)⟩
  | rejected => cases ho

/-- No result gives up a block of the file. -/
theorem spared_apply (h : Guarded users ps d f s) (hc : CommandOf users c)
    (hstrangers : ∀ p ∈ users, Stranger d f p) (hnodup : (commandIds c).Nodup)
    (hnew : ∀ x ∈ commandIds c, x ∉ knownIds s) :
    ∀ b ∈ outcomeBlocks (apply c s).1, b.blockId ∉ fileIds f := by
  intro b hb hx
  obtain ⟨_, hgone⟩ := (ownershipStep_apply h.owned hnodup hnew).2 b hb
  refine hgone (.file ps) ?_
  rw [held_file (inPlace_apply h.inPlace hc hstrangers).file]
  exact hx

/-- **A COMMAND OF A STRANGER KEEPS THE FILE GUARDED.** -/
theorem guarded_apply (h : Guarded users ps d f s) (hc : CommandOf users c)
    (hstrangers : ∀ p ∈ users, Stranger d f p) (hnodup : (commandIds c).Nodup)
    (hnew : ∀ x ∈ commandIds c, x ∉ knownIds s) : Guarded users ps d f (apply c s).2 where
  owned := owned_knownIds (owned_apply h.owned hnodup hnew)
  inPlace := inPlace_apply h.inPlace hc hstrangers
  answers := by
    intro p hp opId ret hkey
    cases hop : s.appliedOps.get? c.opId with
    | some o =>
        rw [apply_cached hop] at hkey
        exact h.answers p hp opId ret hkey
    | none =>
        have hharmless : (apply c s).1 = .ok ret → ∀ g ∈ handedBy ret,
            Harmless f g.blockId g.op := harmless_apply h hc hnew
        rw [apply_executed hop] at hkey hharmless
        dsimp only at hkey hharmless
        rcases get?_remember hkey with ⟨_, hret⟩ | hold
        · exact hharmless hret.symm
        · exact h.answers p hp opId ret hold

theorem guarded_foldl (hstrangers : ∀ p ∈ users, Stranger d f p) {commands : List Command}
    (h : Guarded users ps d f s) (hcommands : ∀ c ∈ commands, CommandOf users c)
    (hnew : BringsNew s commands) :
    Guarded users ps d f (commands.foldl (fun s c => (apply c s).2) s) := by
  induction commands generalizing s with
  | nil => exact h
  | cons c commands ih =>
      obtain ⟨hnodup, hfresh, hrest⟩ := hnew
      exact ih (guarded_apply h (hcommands c List.mem_cons_self) hstrangers hnodup hfresh)
        (fun c' hc' => hcommands c' (List.mem_cons_of_mem _ hc')) hrest

end Commands

/-! ## The cluster -/

/-- The replicated tree, the capabilities that answers have handed out to whom,
    the deletions that control nodes have sent, by block and address, and the
    directories of the DataNodes. -/
structure World where
  replicated : ReplicatedTree
  handed : List (Principal × Issue)
  sent : List (String × String)
  directories : String → Directory

def World.empty : World := ⟨ReplicatedTree.empty, [], [], fun _ => Directory.empty⟩

/-- What some users may present. -/
def World.issues (w : World) (users : Set Principal) : Set Issue :=
  {i | ∃ p ∈ users, (p, i) ∈ w.handed}

/-- After something that happens at one DataNode. -/
def World.set (w : World) (address : String) (d : Directory) : World :=
  { w with directories := Function.update w.directories address d }

inductive Act where
  | rpc (c : Context) (request : Request) (clock : Nat → Time)
  | call (address : String) (call : DfshaDataNode.Call)
  -- `WriteBlock` with more replicas to forward to, as far as it is of this node
  | forward (address : String) (inv : DfshaDataNode.Invocation) (blockId : String)
  -- `ReplicateBlock`
  | order (address : String) (inv : DfshaDataNode.Invocation)
  -- a deletion of a control node arrives
  | deliver (address : String) (inv : DfshaDataNode.Invocation) (blockId : String)

/-- An RPC of one of these users, overtaken by RPCs of others of them; what is
    drawn for it is new. -/
structure CallOf (users : Set Principal) (s : ReplicatedTree) (c : Context) : Prop
    extends Authentic c where
  user : ∀ p, c.token = .ok p → p ∈ users
  others : ∀ command ∈ c.others, CommandOf users command
  othersNew : BringsNew s c.others
  drawn : ∀ n proposed, c.blocks n = .ok proposed → (proposed.map Prod.fst).Nodup ∧
    ∀ x ∈ proposed.map Prod.fst, x ∉ knownIds (afterOthers c s)

/-- The directory is the same but for one block, its temporary files included. -/
structure SameBut (blockId : String) (d d' : Directory) : Prop where
  files : ∀ x, DfshaBlockStore.ValidBlockId x → x ≠ blockId →
    d'.files.get? x = d.files.get? x
  writing : ∀ v ∈ d'.writing, DfshaBlockStore.ValidBlockId v.blockId

section System

variable (users : Set Principal) (node : String → DfshaDataNode.Config)
  (hmacSha256 : Bytes → Bytes) (ttlS : Time)

/-- The users call the control nodes, which sign block capabilities for `ttlS`, and the
    DataNodes, with tokens that they have been handed or have made up. -/
inductive Step : World → Act → World → Prop
  | rpc {w : World} {c : Context} {request : Request} {clock : Nat → Time}
      (h : CallOf users w.replicated c) : Step w (.rpc c request clock) { w with
        replicated := (serve c request w.replicated).2.replicated
        handed := w.handed ++ handedOut ttlS c clock (serve c request w.replicated).1
        sent := w.sent ++ (serve c request w.replicated).2.deletions }
  | call {w : World} {address : String} {call : DfshaDataNode.Call}
      (hunforged : Unforged hmacSha256 (w.issues users) (.text (invocation call).capability)) :
      Step w (.call address call) (w.set address
        (DfshaDataNode.serve (node address) (w.directories address) call).2)
  | forward {w : World} {address blockId : String} {inv : DfshaDataNode.Invocation}
      {d' : Directory}
      (hunforged : Unforged hmacSha256 (w.issues users) (.text inv.capability))
      (hadmits : DfshaDataNode.Admits (node address) inv blockId "write")
      (hsame : SameBut blockId (w.directories address) d') :
      Step w (.forward address inv blockId) (w.set address d')
  | order {w : World} {address : String} {inv : DfshaDataNode.Invocation}
      {directories : String → Directory}
      (hunforged : Unforged hmacSha256 (w.issues users) (.text inv.capability))
      (hadmits : DfshaDataNode.internalCheck (node address) inv.capability "replicate" inv.now
        = .ok ()) : Step w (.order address inv) { w with directories }
  | deliver {w : World} {address blockId : String} {inv : DfshaDataNode.Invocation}
      (hsent : (blockId, address) ∈ w.sent) :
      Step w (.deliver address inv blockId) (w.set address
        (DfshaDataNode.serve (node address) (w.directories address) (.delete inv blockId)).2)

/-- What these users can do with a cluster. -/
def actsOf : System World Act where
  init := fun w => w = World.empty
  step := Step users node hmacSha256 ttlS

end System

/-! ## A step -/

/-- A DataNode that checks capabilities. -/
structure Checks (hmacSha256 : Bytes → Bytes) (node : DfshaDataNode.Config) : Prop where
  mac : node.capabilityMac = some hmacSha256
  crypto : Lawful node.crypto
  key : node.encryptionKey.length = 32

/-- The file is guarded, nobody of these users has more than a harmless capability,
    no deletion of a block of the file is on its way, and its blocks are as
    they were. -/
structure Safe (users : Set Principal) (node : String → DfshaDataNode.Config) (ps : List String)
    (d : NodeAttrs) (f : FileNode) (copies : String → Copies) (w : World) : Prop where
  guarded : Guarded users ps d f w.replicated
  handed : ∀ p ∈ users, ∀ i, (p, i) ∈ w.handed →
    ∃ blockId op ttl t, i = .block blockId op ttl t ∧ Harmless f blockId op
  sent : ∀ x ∈ w.sent, x.1 ∉ fileIds f
  blocks : ∀ address, ∃ copies', Shows (node address).crypto (node address).encryptionKey
    (w.directories address) copies' ∧ ∀ x ∈ fileIds f, copies' x = copies address x

section Steps

variable {users : Set Principal} {node : String → DfshaDataNode.Config}
  {hmacSha256 : Bytes → Bytes} {ttlS : Time} {ps : List String} {d : NodeAttrs} {f : FileNode}
  {copies : String → Copies} {w w' : World} {c : Context}

/-- The one command of an RPC brings what is new. -/
theorem CallOf.command {s : ReplicatedTree} (h : CallOf users s c) {command : Command}
    (hown : OwnCommand c command) : CommandOf users command ∧ (commandIds command).Nodup ∧
      ∀ x ∈ commandIds command, x ∉ knownIds (afterOthers c s) := by
  obtain ⟨p, opId, μ, htoken, hpermitted, hdrawn, rfl⟩ := hown
  refine ⟨⟨p, h.user p htoken, opId, μ, hpermitted, rfl⟩, ?_⟩
  show (proposedIds μ).Nodup ∧ ∀ x ∈ proposedIds μ, x ∉ knownIds (afterOthers c s)
  cases μ with
  | beginUpload path placements now leaseS blockSize caller =>
      obtain ⟨n, hn⟩ := hdrawn
      exact h.drawn n _ hn
  | beginWrite path w l version offset length proposals now leaseS default caller =>
      obtain ⟨n, proposed, hn, hsub⟩ := hdrawn
      have hids : (proposals.map fun b => b.2.1).Sublist (proposed.map Prod.fst) := by
        have hmap := hsub.map Prod.fst
        rwa [List.map_map] at hmap
      obtain ⟨hnodup, hnew⟩ := h.drawn n proposed hn
      exact ⟨hnodup.sublist hids, fun x hx => hnew x (hids.subset hx)⟩
  | _ => exact ⟨List.nodup_nil, fun x hx => absurd hx List.not_mem_nil⟩

theorem guarded_others (hstrangers : ∀ p ∈ users, Stranger d f p) {s : ReplicatedTree}
    (h : Guarded users ps d f s) (hcall : CallOf users s c) :
    Guarded users ps d f (afterOthers c s) :=
  guarded_foldl hstrangers h hcall.others hcall.othersNew

theorem guarded_serve (hstrangers : ∀ p ∈ users, Stranger d f p) {s : ReplicatedTree}
    (h : Guarded users ps d f s) (hcall : CallOf users s c) (request : Request) :
    Guarded users ps d f (serve c request s).2.replicated := by
  have hothers := guarded_others hstrangers h hcall
  rcases commits_own hcall.toAuthentic request ⟨s, [], []⟩ with
    hsame | hafter | ⟨command, hown, happly⟩
  · have heq : (serve c request s).2.replicated = s := hsame
    rwa [heq]
  · have heq : (serve c request s).2.replicated = afterOthers c s := hafter
    rwa [heq]
  · have heq : (serve c request s).2.replicated = (apply command (afterOthers c s)).2 := happly
    obtain ⟨hcommand, hnodup, hnew⟩ := hcall.command hown
    rw [heq]
    exact guarded_apply hothers hcommand hstrangers hnodup hnew

/-- The capabilities of an answer to a stranger are harmless. -/
theorem harmless_rests (hstrangers : ∀ p ∈ users, Stranger d f p) {s s' : ReplicatedTree}
    (h : Guarded users ps d f s) (hcall : CallOf users s c) {grants : List Grant}
    (hrests : Rests c s grants s') : ∀ g ∈ grants, Harmless f g.blockId g.op := by
  cases hrests with
  | nothing => exact fun g hg => absurd hg List.not_mem_nil
  | listed =>
      intro g hg
      obtain ⟨b, _, rfl⟩ := List.mem_map.mp hg
      exact .inl rfl
  | outcome hown hret =>
      obtain ⟨hcommand, _, hnew⟩ := hcall.command hown
      exact harmless_apply (guarded_others hstrangers h hcall) hcommand hnew hret

/-- No RPC of a stranger sends a deletion of a block of the file. -/
theorem spared_discards (hstrangers : ∀ p ∈ users, Stranger d f p) {s s' : ReplicatedTree}
    (h : Guarded users ps d f s) (hcall : CallOf users s c) {sent : List (String × String)}
    (hdiscards : Discards c s sent s') : ∀ x ∈ sent, x.1 ∉ fileIds f := by
  intro x hx hmem
  cases hdiscards with
  | nothing => cases hx
  | outcome hown hret =>
      obtain ⟨b, hb, hid, _⟩ := mem_toSend hx
      obtain ⟨hcommand, hnodup, hnew⟩ := hcall.command hown
      have hspared := spared_apply (guarded_others hstrangers h hcall) hcommand hstrangers
        hnodup hnew
      rw [hret] at hspared
      rw [hid] at hmem
      exact hspared b hb hmem
  | pending =>
      -- a block of a pending upload is not one of a committed file
      obtain ⟨b, hb, hid, _⟩ := mem_toSend hx
      obtain ⟨ps', f', old, hfile, hpending, hblock, rfl⟩ := mem_pendingBlocks hb
      have hnode : (metadata s.tree).node ps' = some (.file f') := hfile
      have hheld : x.1 ∈ held (metadata s.tree) (.file ps') := by
        rw [held_file hnode, hid]
        exact List.mem_map.mpr ⟨old, hblock, rfl⟩
      rw [← h.owns] at hmem
      obtain rfl := Holder.file.inj (h.owned.separate.owner _ _ _ hheld hmem)
      exact ne_of_committed hnode hpending h.inPlace.file h.inPlace.committed rfl

/-- A call changes nothing but the block that it has a capability for. -/
theorem eq_or_admitted {c : DfshaDataNode.Config} {call : DfshaDataNode.Call}
    {answer : DfshaDataNode.Answer} {old new : Copies}
    (h : DfshaDataNode.Meets c old call answer new) (x : String) : new x = old x ∨
      ∃ op, op ≠ "read" ∧ asks call = some (x, op) ∧
        DfshaDataNode.Admits c (invocation call) x op := by
  cases h with
  | @written inv draw stream blockId content hasks =>
      obtain ⟨rest, hmessages, _⟩ := hasks.opened
      by_cases hx : x = blockId
      · refine .inr ⟨"write", by decide, ?_, ?_⟩
        · rw [asks, hmessages, hx]
        · rw [hx]
          exact hasks.allowed
      · exact .inl (Function.update_of_ne hx _ _)
  | @deleted inv blockId hallowed hcopy =>
      by_cases hx : x = blockId
      · rw [hx]
        exact .inr ⟨"delete", by decide, rfl, hallowed⟩
      · exact .inl (Function.update_of_ne hx _ _)
  | forwarded | notWritten | read | damaged | notRead | notDeleted | listed | notListed =>
      exact .inl rfl

/-- The other blocks of a directory are as they were. -/
theorem shows_sameBut {crypto : DfshaBlockStore.Crypto} {key : Bytes} {blockId : String}
    {old new : Directory} {shown : Copies} (h : Shows crypto key old shown)
    (hsame : SameBut blockId old new) : ∃ shown', Shows crypto key new shown' ∧
      ∀ x, x ≠ blockId → shown' x = shown x := by
  by_cases hid : DfshaBlockStore.ValidBlockId blockId
  · cases hfile : new.files.get? blockId with
    | none =>
        refine ⟨Function.update shown blockId none, h.update hid ?_ hsame.files hsame.writing,
          fun x hx => Function.update_of_ne hx _ _⟩
        rw [hfile]
        exact .absent
    | some file =>
        refine ⟨Function.update shown blockId (some .damaged),
          h.update hid ?_ hsame.files hsame.writing, fun x hx => Function.update_of_ne hx _ _⟩
        rw [hfile]
        exact .damaged
  · refine ⟨shown, h.temporary (fun x hx => ?_) hsame.writing, fun x _ => rfl⟩
    refine hsame.files x hx ?_
    rintro rfl
    exact hid hx

/-- These users have no capability to write or to delete a block of the file. -/
theorem Safe.not_admitted (h : Safe users node ps d f copies w) {address : String}
    (hnode : Checks hmacSha256 (node address)) {inv : DfshaDataNode.Invocation}
    (hunforged : Unforged hmacSha256 (w.issues users) (.text inv.capability)) {x op : String}
    (hx : x ∈ fileIds f) (hop : op ≠ "read") :
    ¬DfshaDataNode.Admits (node address) inv x op := by
  intro hadmits
  obtain ⟨ttl, t, ⟨p, hp, hissue⟩, _⟩ := issued_of_admitted hnode.mac hunforged hadmits
  obtain ⟨blockId, op', ttl', t', hi, hharmless⟩ := h.handed p hp _ hissue
  obtain ⟨rfl, rfl, _, _⟩ := Issue.block.inj hi
  rcases hharmless with hread | ⟨_, hout⟩
  · exact hop hread
  · exact hout hx

/-- Something at one DataNode leaves the blocks of the file there as they are. -/
theorem Safe.set (h : Safe users node ps d f copies w) {address : String} {new : Directory}
    (hnew : ∀ shown, Shows (node address).crypto (node address).encryptionKey
      (w.directories address) shown → ∃ shown', Shows (node address).crypto
      (node address).encryptionKey new shown' ∧ ∀ x ∈ fileIds f, shown' x = shown x) :
    Safe users node ps d f copies (w.set address new) where
  guarded := h.guarded
  handed := h.handed
  sent := h.sent
  blocks := by
    intro a
    obtain ⟨shown, hshows, hsame⟩ := h.blocks a
    rcases eq_or_ne a address with rfl | ha
    · obtain ⟨shown', hshows', hsame'⟩ := hnew shown hshows
      refine ⟨shown', ?_, fun x hx => (hsame' x hx).trans (hsame x hx)⟩
      show Shows _ _ (Function.update w.directories a new a) _
      rw [Function.update_self]
      exact hshows'
    · refine ⟨shown, ?_, hsame⟩
      show Shows _ _ (Function.update w.directories address new a) _
      rw [Function.update_of_ne ha]
      exact hshows

/-- **A STEP OF STRANGERS KEEPS THE FILE SAFE.** -/
theorem safe_step (hnodes : ∀ address, Checks hmacSha256 (node address))
    (hstrangers : ∀ p ∈ users, Stranger d f p) {act : Act}
    (h : Safe users node ps d f copies w) (hstep : Step users node hmacSha256 ttlS w act w') :
    Safe users node ps d f copies w' := by
  cases hstep with
  | @rpc c request clock hcall =>
      refine ⟨guarded_serve hstrangers h.guarded hcall request, ?_, ?_, h.blocks⟩
      · intro p hp i hi
        rcases List.mem_append.mp hi with hold | hfresh
        · exact h.handed p hp i hold
        · obtain ⟨response, g, t, hresponse, _, hg, rfl⟩ := mem_handedOut hfresh
          have hrests := rested_handler hcall.toAuthentic request ⟨w.replicated, [], []⟩
            response (ok_of_endingOf hresponse)
          exact ⟨g.blockId, g.op, ttlS, t, rfl,
            harmless_rests hstrangers h.guarded hcall hrests g hg⟩
      · intro x hx
        rcases List.mem_append.mp hx with hold | hfresh
        · exact h.sent x hold
        · obtain ⟨sent, hsent, hdiscards⟩ :=
            deletes_handler hcall.toAuthentic request ⟨w.replicated, [], []⟩
          have heq : (serve c request w.replicated).2.deletions = sent := hsent
          rw [heq] at hfresh
          exact spared_discards hstrangers h.guarded hcall hdiscards x hfresh
  | @call address call hunforged =>
      have hnode := hnodes address
      refine h.set fun shown hshows => ?_
      obtain ⟨shown', hmeets, hshows'⟩ :=
        DfshaDataNode.meets_serve hshows hnode.crypto hnode.key call
      refine ⟨shown', hshows', fun x hx => ?_⟩
      rcases eq_or_admitted hmeets x with hsame | ⟨op, hop, _, hadmits⟩
      · exact hsame
      · exact absurd hadmits (h.not_admitted hnode hunforged hx hop)
  | @forward address blockId inv new hunforged hadmits hsame =>
      refine h.set fun shown hshows => ?_
      obtain ⟨shown', hshows', hothers⟩ := shows_sameBut hshows hsame
      refine ⟨shown', hshows', fun x hx => hothers x ?_⟩
      rintro rfl
      exact h.not_admitted (hnodes address) hunforged hx (by decide) hadmits
  | @order address inv directories hunforged hadmits =>
      obtain ⟨ttl, t, p, hp, hissue⟩ := issued_of_internal (hnodes address).mac hunforged hadmits
      obtain ⟨_, _, _, _, hi, _⟩ := h.handed p hp _ hissue
      cases hi
  | @deliver address blockId inv hsent =>
      have hnode := hnodes address
      refine h.set fun shown hshows => ?_
      obtain ⟨shown', hmeets, hshows'⟩ :=
        DfshaDataNode.meets_serve hshows hnode.crypto hnode.key (.delete inv blockId)
      refine ⟨shown', hshows', fun x hx => ?_⟩
      rcases eq_or_admitted hmeets x with hsame | ⟨op, _, hasks, _⟩
      · exact hsame
      · obtain ⟨rfl, _⟩ := Prod.mk.inj (Option.some.inj hasks)
        exact absurd hx (h.sent _ hsent)

end Steps

/-! ## Runs -/

/-- A log has brought the cluster to where the file is in place.  Capabilities
    were handed out for what the log lets have, none of the blocks of the file
    was brought by a command of these users, and no deletion of one is on its
    way. -/
structure Established (users : Set Principal) (log : List Command) (ps : List String)
    (d : NodeAttrs) (f : FileNode) (w : World) : Prop where
  run : replicated.Run log w.replicated
  fresh : FreshIds log
  inPlace : InPlace ps d f (metadata w.replicated.tree)
  handed : ∀ p i, (p, i) ∈ w.handed →
    ∃ blockId op ttl t, i = .block blockId op ttl t ∧ Earned log p blockId op
  brought : ∀ p ∈ users, ∀ opId μ, ⟨commitKey (some p) opId, .mutation μ⟩ ∈ log →
    ∀ x ∈ proposedIds μ, x ∉ fileIds f
  sent : ∀ x ∈ w.sent, x.1 ∉ fileIds f

section Runs

variable {users : Set Principal} {node : String → DfshaDataNode.Config}
  {hmacSha256 : Bytes → Bytes} {ttlS : Time} {log : List Command} {ps : List String}
  {d : NodeAttrs} {f : FileNode} {copies : String → Copies} {w₀ w : World}

theorem commitKey_congr {p q : Principal} (h : q.username = p.username) (opId : String) :
    commitKey (some q) opId = commitKey (some p) opId := by
  show q.username ++ ":" ++ opId = p.username ++ ":" ++ opId
  rw [h]

/-- A capability to write was earned by bringing the block. -/
theorem brought_of_earned {p : Principal} {blockId op : String} (h : Earned log p blockId op) :
    op = "read" ∨ op = "write" ∧ ∃ opId μ, ⟨commitKey (some p) opId, .mutation μ⟩ ∈ log ∧
      blockId ∈ proposedIds μ := by
  cases h with
  | listed | replaced => exact .inl rfl
  | begun hname hexec hparts hallowed hblock =>
      have hmem := hexec.mem
      rw [commitKey_congr hname] at hmem
      exact .inr ⟨rfl, _, _, hmem, hblock⟩
  | reserved hname hexec hparts hr hblock =>
      have hmem := hexec.mem
      rw [commitKey_congr hname] at hmem
      obtain ⟨plan, _, _, hslots⟩ := hr.hplan
      rw [hslots] at hblock
      exact .inr ⟨rfl, _, _, hmem, (slotIds_fillSlots _ _).subset hblock⟩

theorem safe_start (h : Established users log ps d f w₀)
    (hshows : ∀ address, Shows (node address).crypto (node address).encryptionKey
      (w₀.directories address) (copies address)) : Safe users node ps d f copies w₀ where
  guarded :=
    { owned := owned_knownIds (owned_run h.run h.fresh)
      inPlace := h.inPlace
      answers := by
        intro p hp opId ret hkey g hg
        obtain ⟨μ, s', m', hexec, heffect⟩ := effect_of_remembered h.run hkey
        rcases grants_effect heffect hg with hread | ⟨hwrite, hbrought⟩
        · exact .inl hread
        · exact .inr ⟨hwrite, h.brought p hp opId μ hexec.mem _ hbrought⟩ }
  handed := by
    intro p hp i hi
    obtain ⟨blockId, op, ttl, t, rfl, hearned⟩ := h.handed p i hi
    refine ⟨blockId, op, ttl, t, rfl, ?_⟩
    rcases brought_of_earned hearned with hread | ⟨hwrite, opId, μ, hmem, hbrought⟩
    · exact .inl hread
    · exact .inr ⟨hwrite, h.brought p hp opId μ hmem _ hbrought⟩
  sent := h.sent
  blocks address := ⟨copies address, hshows address, fun _ _ => rfl⟩

theorem safe_path (hnodes : ∀ address, Checks hmacSha256 (node address))
    (hstrangers : ∀ p ∈ users, Stranger d f p) {acts : List Act}
    (h : Safe users node ps d f copies w₀)
    (hpath : (actsOf users node hmacSha256 ttlS).Path w₀ acts w) :
    Safe users node ps d f copies w :=
  hpath.keeps h fun _ _ _ hw hstep => safe_step hnodes hstrangers hw hstep

/-- What may be listed of a file in place. -/
theorem InPlace.listed {s : ControlTree} (h : InPlace ps d f (metadata s)) {path : String}
    {caller : Option Caller} (hparts : parts path = .ok ps)
    (hallowed : allows f.attrs caller R = true) :
    (listBlocks path caller s).1 = .ok f.blocks := by
  have hfile : wp (getCommittedFile path) s fun r s' => r = .ok (ps, f) ∧ s' = s :=
    wp_getCommittedFile_ok hparts h.file h.committed
  have hlisted : wp (listBlocks path caller) s fun r _ => r = .ok f.blocks := by
    refine wp_call hfile ?_ fun e s' ⟨he, _⟩ => by cases he
    rintro _ s' ⟨hok, rfl⟩
    obtain rfl := Except.ok.inj hok
    refine wp_raiseIf_passed ?_ (wp_ret rfl)
    rw [hallowed]
    exact Bool.noConfusion
  exact hlisted

/-- **STRANGERS DO A FILE NO HARM**: whatever users do who neither own nor may
    write to a committed file and its directory, and whenever the deletions
    arrive that control nodes send for them, the file stays as it is, with its
    owner and mode, and in its directory; who may read it lists the same
    blocks, and every replica that was whole is read as before. -/
theorem strangers_do_no_harm (hnodes : ∀ address, Checks hmacSha256 (node address))
    (hstart : Established users log ps d f w₀) (hstrangers : ∀ p ∈ users, Stranger d f p)
    (hshows : ∀ address, Shows (node address).crypto (node address).encryptionKey
      (w₀.directories address) (copies address)) {acts : List Act}
    (hpath : (actsOf users node hmacSha256 ttlS).Path w₀ acts w) :
    InPlace ps d f (metadata w.replicated.tree) ∧
    (∀ path caller, parts path = .ok ps → allows f.attrs caller R = true →
      (listBlocks path caller w.replicated.tree).1 = .ok f.blocks) ∧
    ∀ address, ∀ x ∈ fileIds f, ∀ data, copies address x = some (.intact data) →
      ∀ (offset : Nat) (length : Option Nat), ∃ pieces,
        DfshaBlockStore.readBlock (node address).crypto (node address).encryptionKey x
          ((w.directories address).found x) DfshaBlockStore.chunkSizeBytes offset
          (length.map Nat.cast) [] = (.ok (), pieces) ∧
        pieces.flatten = DfshaBlockRead.asked data offset length := by
  have hsafe := safe_path hnodes hstrangers (safe_start hstart hshows) hpath
  refine ⟨hsafe.guarded.inPlace, fun path caller hparts hallowed =>
    hsafe.guarded.inPlace.listed hparts hallowed, ?_⟩
  intro address x hx data hcopy offset length
  obtain ⟨shown, hshown, hsame⟩ := hsafe.blocks address
  rw [← hsame x hx] at hcopy
  exact hshown.read (hnodes address).crypto hcopy (by decide) offset length

end Runs

/-- Eva uploads a file into a directory of hers. -/
def evaLog : List Command :=
  [⟨"eva:1", .mutation (.beginUpload "/d/hola" [(holaId, ["d1:1"])] (some 0) (some 60) (some 4)
      (sessionCaller eva))⟩,
   ⟨"eva:2", .mutation (.confirmBlock "/d/hola" holaId "suma" 4 (some 1) (some 60)
      (sessionCaller eva))⟩,
   ⟨"eva:3", .mutation (.completeUpload "/d/hola" (sessionCaller eva))⟩]

def evaDir : NodeAttrs := ⟨"eva", "eva", dirMode⟩

def evaFile : FileNode where
  state := .committed
  blocks := [⟨holaId, ["d1:1"], "suma", 4, true⟩]
  leaseExpiresAt := 61
  blockSize := 4
  attrs := ⟨"eva", "eva", fileMode⟩

def evaWorld : World :=
  ⟨evaLog.foldl (fun s c => (apply c s).2) ReplicatedTree.empty, [], [], fun _ => holaDirectory⟩

def evaNodes (_ : String) : DfshaDataNode.Config := guardedNode

def evaCopies (_ : String) : Copies :=
  DfshaBlockDirectory.copiesAfter holaKey DfshaBlockDirectory.holaLabels

def dora : Principal := ⟨"dora", ["dora"], false, by decide⟩

theorem established_evaWorld :
    Established {dora} evaLog ["d", "hola"] evaDir evaFile evaWorld where
  run := run_foldl ⟨_, rfl, .start⟩ evaLog
  fresh := by decide
  inPlace :=
    { file := by
        show evaWorld.replicated.tree.root.view ["d", "hola"] = some (.file evaFile)
        decide +kernel
      committed := rfl
      above := by
        show evaWorld.replicated.tree.root.view ["d"] = some (.dir evaDir)
        decide +kernel }
  handed p i hi := absurd hi List.not_mem_nil
  brought := by
    intro p hp opId μ hmem
    obtain rfl := Set.mem_singleton_iff.mp hp
    have hkeys : ∀ c ∈ evaLog, ∃ opId, c.opId = commitKey (some eva) opId := by
      intro c hc
      rcases List.mem_cons.mp hc with rfl | hc
      · exact ⟨"1", rfl⟩
      rcases List.mem_cons.mp hc with rfl | hc
      · exact ⟨"2", rfl⟩
      rw [List.mem_singleton.mp hc]
      exact ⟨"3", rfl⟩
    obtain ⟨opId', hkey⟩ := hkeys _ hmem
    exact absurd (commitKey_inj hkey).1 (by decide)
  sent x hx := absurd hx List.not_mem_nil

/-- What an RPC that is answered at a time leaves. -/
def World.called (w : World) (c : Context) (request : Request) (now : Time) : World :=
  { w with
    replicated := (serve c request w.replicated).2.replicated
    handed := w.handed ++ handedOut 60 c (fun _ => now) (serve c request w.replicated).1
    sent := w.sent ++ (serve c request w.replicated).2.deletions }

def doraContext : Context := { evaLeader with
  token := .ok dora
  tokenAtCommit := .ok dora
  samePrincipal _ _ h h' := Except.ok.inj (h'.symm.trans h) }

/-- A leader that places the one block of an upload of hers. -/
def doraUploads : Context := { doraContext with
  blocks := fun n =>
    if n = 1 then .ok [(marId, ["d1:1"])]
    else .error "solo hay 0 DataNodes vivos; se requieren al menos 1"
  length_blocks := by
    intro n proposed h
    by_cases hn : n = 1
    · rw [if_pos hn] at h
      rw [← Except.ok.inj h, hn]
      rfl
    · rw [if_neg hn] at h
      cases h }

/-- Dora begins an upload and reads the block of the file, with what she is handed;
    she aborts the upload, the leader deletes its block, and she tries to
    remove the file. -/
def uploadBegun : World := evaWorld.called doraUploads (.beginUpload "/e/mar" 3 "1") 1000

def fileListed : World := uploadBegun.called doraContext (.listBlocks "/d/hola") 1000

def blockRead : World := fileListed.set "d1:1"
  (DfshaDataNode.serve guardedNode (fileListed.directories "d1:1") (holaRead 0 0)).2

def uploadAborted : World := blockRead.called doraContext (.abortUpload "/e/mar" "2") 1004

def deletion : DfshaDataNode.Invocation :=
  ⟨DfshaBlockToken.sign holaHmac ("b:delete:" ++ marId ++ ":1304"), "", 1005⟩

def blockDeleted : World := uploadAborted.set "d1:1"
  (DfshaDataNode.serve guardedNode (uploadAborted.directories "d1:1") (.delete deletion marId)).2

def removeTried : World := blockDeleted.called doraContext (.remove "/d/hola" "3") 1006

def doraActs : List Act :=
  [.rpc doraUploads (.beginUpload "/e/mar" 3 "1") fun _ => 1000,
   .rpc doraContext (.listBlocks "/d/hola") fun _ => 1000,
   .call "d1:1" (holaRead 0 0),
   .rpc doraContext (.abortUpload "/e/mar" "2") fun _ => 1004,
   .deliver "d1:1" deletion marId,
   .rpc doraContext (.remove "/d/hola" "3") fun _ => 1006]

theorem callOf_doraContext (s : ReplicatedTree) : CallOf {dora} s doraContext where
  authentication := rfl
  user p h := Set.mem_singleton_iff.mpr (Except.ok.inj h).symm
  others command hmem := absurd hmem List.not_mem_nil
  othersNew := trivial
  drawn n proposed h := by cases h

theorem callOf_doraUploads : CallOf {dora} evaWorld.replicated doraUploads where
  authentication := rfl
  user p h := Set.mem_singleton_iff.mpr (Except.ok.inj h).symm
  others command hmem := absurd hmem List.not_mem_nil
  othersNew := trivial
  drawn n proposed h := by
    by_cases hn : n = 1
    · have hproposed : [(marId, ["d1:1"])] = proposed := by
        rw [hn] at h
        exact Except.ok.inj h
      rw [← hproposed]
      decide +kernel
    · have hnone : doraUploads.blocks n = .error _ := if_neg hn
      rw [hnone] at h
      cases h

/-- The listing hands out the capability to read the block. -/
theorem handed_fileListed : (dora, Issue.block holaId "read" 60 1000) ∈ fileListed.handed := by
  have hsigned : ((serve doraContext (.listBlocks "/d/hola") uploadBegun.replicated).1.toOption.map
      signed) = some [⟨holaId, "read", ["d1:1"]⟩] := by decide +kernel
  unfold fileListed World.called
  cases hr : (serve doraContext (.listBlocks "/d/hola") uploadBegun.replicated).1 with
  | error e =>
      rw [hr] at hsigned
      cases hsigned
  | ok response =>
      rw [hr] at hsigned
      have hcaps : signed response = [⟨holaId, "read", ["d1:1"]⟩] := Option.some.inj hsigned
      refine List.mem_append_right _ (List.mem_map_of_mem ?_)
      rw [capabilities, hcaps]
      exact List.mem_singleton.mpr rfl

theorem path_removeTried :
    (actsOf {dora} evaNodes holaHmac 60).Path evaWorld doraActs removeTried := by
  have hbegun : (actsOf {dora} evaNodes holaHmac 60).Path evaWorld (doraActs.take 1) uploadBegun :=
    Path.one (.rpc callOf_doraUploads)
  have hlisted : (actsOf {dora} evaNodes holaHmac 60).Path evaWorld (doraActs.take 2) fileListed :=
    hbegun.next (.rpc (callOf_doraContext _))
  have hread : (actsOf {dora} evaNodes holaHmac 60).Path evaWorld (doraActs.take 3) blockRead := by
    refine hlisted.next (.call fun payload hpayload => ?_)
    refine ⟨_, ⟨dora, rfl, handed_fileListed⟩, ?_⟩
    rw [← DfshaBlockToken.sign_inj holaHmac (DfshaBlockToken.Token.text.inj hpayload)]
    decide +kernel
  have haborted : (actsOf {dora} evaNodes holaHmac 60).Path evaWorld (doraActs.take 4)
      uploadAborted := hread.next (.rpc (callOf_doraContext _))
  have hsent : uploadAborted.sent = [(marId, "d1:1")] := by decide +kernel
  have hdeleted : (actsOf {dora} evaNodes holaHmac 60).Path evaWorld (doraActs.take 5)
      blockDeleted := by
    refine haborted.next (.deliver ?_)
    rw [hsent]
    exact List.mem_singleton.mpr rfl
  exact hdeleted.next (.rpc (callOf_doraContext _))

theorem checks_evaNodes (address : String) : Checks holaHmac (evaNodes address) :=
  ⟨rfl, DfshaRoundTrip.lawful_holaCrypto, rfl⟩

theorem stranger_dora : ∀ p ∈ ({dora} : Set Principal), Stranger evaDir evaFile p := by
  rintro p rfl
  exact ⟨rfl, by decide, by decide, by decide, by decide⟩

theorem shows_evaWorld (address : String) :
    Shows (evaNodes address).crypto (evaNodes address).encryptionKey
      (evaWorld.directories address) (evaCopies address) :=
  DfshaBlockDirectory.shows_run DfshaBlockDirectory.run_hola

/-- The file is as before, and so is its block. -/
theorem strangers_do_no_harm_dora :
    InPlace ["d", "hola"] evaDir evaFile (metadata removeTried.replicated.tree) ∧
    (∀ path caller, parts path = .ok ["d", "hola"] → allows evaFile.attrs caller R = true →
      (listBlocks path caller removeTried.replicated.tree).1 = .ok evaFile.blocks) ∧
    ∀ address, ∀ x ∈ fileIds evaFile, ∀ data, evaCopies address x = some (.intact data) →
      ∀ (offset : Nat) (length : Option Nat), ∃ pieces,
        DfshaBlockStore.readBlock (evaNodes address).crypto (evaNodes address).encryptionKey x
          ((removeTried.directories address).found x) DfshaBlockStore.chunkSizeBytes offset
          (length.map Nat.cast) [] = (.ok (), pieces) ∧
        pieces.flatten = DfshaBlockRead.asked data offset length :=
  strangers_do_no_harm checks_evaNodes established_evaWorld stranger_dora shows_evaWorld
    path_removeTried

example : evaCopies "d1:1" holaId = some (.intact hola) := rfl

-- she does read it
example : (match (DfshaDataNode.serve guardedNode holaDirectory (holaRead 0 0)).1 with
    | .chunks (.ok ()) streamed => streamed
    | _ => []) = [hola] := by decide +kernel

end DfshaProtectedFile
