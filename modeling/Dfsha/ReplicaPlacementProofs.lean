import Dfsha.ReReplicatorProofs
import Dfsha.ReferencedBlocksProofs
import Dfsha.ListingProofs
import Mathlib.Data.List.GetD
import Mathlib.Data.List.Rotate
import Mathlib.Data.Finset.Card

/-! # Where the replicas of a block are put

    The leader proposes the addresses of a new block with `_pick_replicas`, a
    window of the live addresses that moves by one with each call.  Later the
    re-replicator rewrites them, from a picture of the tree and a list of live
    addresses that may both be old.

    A window of a list without repetitions has none, and a repair adds an
    address that the list does not have.  So the replicas of a block are on
    different DataNodes when the configuration names each DataNode once.  The
    check of the configuration does not ask for that: with a DataNode that is
    named twice there is a window with two copies on it, unless there is only
    one copy of everything. -/

namespace DfshaReplicaPlacement

open InsertionDict NamedTree TransitionSystem TransitionSystem.System
open DfshaPath DfshaControlTree DfshaMetadata DfshaControlTreeEffect
open DfshaReplicatedTree DfshaReferencedBlocks DfshaReReplicator

/-! ## The configuration -/

def validateDatanodeConfiguration (datanodeAddresses : List String)
    (replicationFactor minWriteReplicas : Int) : Except PyError Unit :=
  if datanodeAddresses = [] then
    .error ⟨.valueError, "hace falta al menos un DataNode"⟩
  else if replicationFactor < 1 then
    .error ⟨.valueError,
      s!"el factor de replicación debe ser >= 1, no {replicationFactor}"⟩
  else if ¬(1 ≤ minWriteReplicas ∧ minWriteReplicas ≤ replicationFactor) then
    .error ⟨.valueError, "min_write_replicas debe estar entre 1 y replication_factor " ++
      s!"({replicationFactor}), no {minWriteReplicas}"⟩
  else if (datanodeAddresses.length : Int) < minWriteReplicas then
    let count := datanodeAddresses.length
    .error ⟨.valueError, s!"se configuraron {count} DataNodes, " ++
      s!"menos que min_write_replicas={minWriteReplicas}"⟩
  else .ok ()

/-- A configuration with which a ControlNode starts. -/
structure Config where
  datanodeAddresses : List String
  replicationFactor : Nat
  minWriteReplicas : Nat
  accepted : validateDatanodeConfiguration datanodeAddresses replicationFactor
    minWriteReplicas = .ok ()

/-- What the check has checked. -/
theorem Config.bounds (c : Config) : 1 ≤ c.minWriteReplicas ∧
    c.minWriteReplicas ≤ c.replicationFactor ∧
    c.minWriteReplicas ≤ c.datanodeAddresses.length := by
  have h := c.accepted
  unfold validateDatanodeConfiguration at h
  by_cases hnone : c.datanodeAddresses = []
  · rw [if_pos hnone] at h
    cases h
  rw [if_neg hnone] at h
  by_cases hfactor : (c.replicationFactor : Int) < 1
  · rw [if_pos hfactor] at h
    cases h
  rw [if_neg hfactor] at h
  by_cases hmin : ¬(1 ≤ (c.minWriteReplicas : Int) ∧
      (c.minWriteReplicas : Int) ≤ c.replicationFactor)
  · rw [if_pos hmin] at h
    cases h
  rw [if_neg hmin] at h
  by_cases hcount : (c.datanodeAddresses.length : Int) < c.minWriteReplicas
  · rw [if_pos hcount] at h
    cases h
  omega

/-! ## The window -/

/-- The addresses that `_pick_replicas` returns. -/
def pickReplicas (alive : List String) (count start : Nat) : List String :=
  (List.range count).map fun i => alive.getD ((start + i) % alive.length) ""

theorem pickReplicas_eq {alive : List String} {count : Nat} (start : Nat)
    (h : count ≤ alive.length) :
    pickReplicas alive count start = (alive.rotate start).take count := by
  refine List.ext_getElem ?_ ?_
  · rw [pickReplicas, List.length_map, List.length_range, List.length_take,
      List.length_rotate, Nat.min_eq_left h]
  · intro i hi hi'
    rw [pickReplicas, List.length_map, List.length_range] at hi
    have hmod : (start + i) % alive.length < alive.length := Nat.mod_lt _ (by omega)
    rw [List.getElem_take, List.getElem_rotate]
    simp only [pickReplicas, List.getElem_map, List.getElem_range]
    rw [List.getD_eq_getElem _ _ hmod]
    congr 2
    exact Nat.add_comm _ _

theorem length_pickReplicas (alive : List String) (count start : Nat) :
    (pickReplicas alive count start).length = count := by
  rw [pickReplicas, List.length_map, List.length_range]

theorem mem_of_mem_pickReplicas {alive : List String} {count start : Nat} {a : String}
    (hcount : count ≤ alive.length) (h : a ∈ pickReplicas alive count start) : a ∈ alive := by
  rw [pickReplicas_eq start hcount] at h
  exact List.mem_rotate.mp (List.mem_of_mem_take h)

/-- A window of a list without repetitions has none. -/
theorem nodup_pickReplicas {alive : List String} {count : Nat} (start : Nat)
    (hcount : count ≤ alive.length) (h : alive.Nodup) :
    (pickReplicas alive count start).Nodup := by
  rw [pickReplicas_eq start hcount]
  exact (List.nodup_rotate.mpr h).sublist (List.take_sublist _ _)

/-! ## The lists of the metadata -/

/-- The lists that a mutation brings into the tree. -/
def broughtLists : Mutation → List (List String)
  | .beginUpload _ placements _ _ _ _ => placements.map Prod.snd
  | .beginWrite _ _ _ _ _ _ proposals _ _ _ _ => proposals.map fun p => p.2.2
  | .updateBlockReplicas _ _ _ new => [new]
  | _ => []

def BlocksHave (P : List String → Prop) (blocks : List BlockRecord) : Prop :=
  ∀ block ∈ blocks, P block.datanodeAddresses

/-- Every list of a block or of a reserved slot. -/
structure AllLists (P : List String → Prop) (m : Metadata) : Prop where
  blocks : ∀ ps f, m.file ps = some f → BlocksHave P f.blocks
  slots : ∀ w r, m.write w = some r → ∀ slot ∈ r.slots, P slot.newAddresses

section Updates

variable {P : List String → Prop} {m m' : Metadata} {ps : List String}

/-- Nothing new: the files and the reservations were there before. -/
theorem AllLists.mono (h : AllLists P m)
    (hfile : ∀ q f, m'.file q = some f → m.file q = some f)
    (hwrite : ∀ w r, m'.write w = some r → m.write w = some r) : AllLists P m' :=
  ⟨fun q f hq => h.blocks q f (hfile q f hq), fun w r hw => h.slots w r (hwrite w r hw)⟩

theorem AllLists.pruned {now : Option Time} (h : AllLists P m) (hp : Pruned now m m') :
    AllLists P m' :=
  h.mono (fun q _ hq => by rwa [Metadata.file_congr hp.node q] at hq) hp.write

theorem AllLists.congr (h : AllLists P m) (hfile : ∀ q, m'.file q = m.file q)
    (hwrite : m'.write = m.write) : AllLists P m' :=
  h.mono (fun q _ hq => by rwa [hfile q] at hq) (fun _ _ hw => by rwa [hwrite] at hw)

theorem AllLists.setFile {f : FileNode} (h : AllLists P m) (hf : BlocksHave P f.blocks) :
    AllLists P (m.setFile ps f) := by
  refine ⟨fun q f' hq => ?_, h.slots⟩
  rw [Metadata.file_setFile] at hq
  by_cases hqs : q = ps
  · rw [if_pos hqs] at hq
    rwa [← Option.some.inj hq]
  · rw [if_neg hqs] at hq
    exact h.blocks q f' hq

theorem AllLists.dropNode (h : AllLists P m) : AllLists P (m.dropNode ps) := by
  refine ⟨fun q f' hq => ?_, h.slots⟩
  rw [Metadata.file_dropNode] at hq
  by_cases hqs : q = ps
  · rw [if_pos hqs] at hq
    cases hq
  · rw [if_neg hqs] at hq
    exact h.blocks q f' hq

theorem AllLists.setWrite {w : String} {r : WriteReservation} (h : AllLists P m)
    (hr : ∀ slot ∈ r.slots, P slot.newAddresses) : AllLists P (m.setWrite w r) := by
  refine ⟨fun q f hq => h.blocks q f hq, fun w' r' hw => ?_⟩
  rcases Metadata.update_eq_some hw with ⟨_, hnew⟩ | ⟨_, hold⟩
  · rw [← Option.some.inj hnew]
    exact hr
  · exact h.slots w' r' hold

theorem AllLists.dropWrite {w : String} (h : AllLists P m) : AllLists P (m.dropWrite w) := by
  refine h.mono (fun _ _ hq => hq) fun w' r hw => ?_
  rcases Metadata.update_eq_some hw with ⟨_, hnone⟩ | ⟨_, hold⟩
  · cases hnone
  · exact hold

end Updates

/-- The slots of a reservation have the lists that were proposed. -/
theorem newAddresses_fillSlots {plan : List (Int × Int)}
    {proposals : List (Int × String × List String)} {slot : WriteSlotRecord}
    (h : slot ∈ fillSlots plan proposals) :
    slot.newAddresses ∈ proposals.map fun p => p.2.2 := by
  induction plan generalizing proposals with
  | nil => exact absurd h List.not_mem_nil
  | cons hd plan ih =>
      cases proposals with
      | nil => exact absurd h List.not_mem_nil
      | cons p rest =>
          rcases List.mem_cons.mp h with rfl | h
          · exact List.mem_cons_self
          · exact List.mem_cons_of_mem _ (ih h)

/-- **WHERE A LIST CAN COME FROM**: it was there before, or the mutation has
    brought it. -/
theorem allLists_effect {P : List String → Prop} {μ : Mutation} {m m' : Metadata}
    {r : Except PyError Ret} (he : Effect μ m r m') (h : AllLists P m)
    (hbrought : ∀ l ∈ broughtLists μ, P l) : AllLists P m' := by
  cases he with
  | makeDir hparts hne hparent hallowed hfree =>
      exact h.congr (Metadata.file_setDir _ (Metadata.file_of_none hfree)) rfl
  | removeDir | abortUpload => exact h.dropNode
  | removeFile => exact (h.pruned (pruned_aliveLocks _ _ _)).dropNode
  | beginUpload =>
      refine (h.congr (Metadata.file_makeParents _ _) rfl).setFile fun block hblock => ?_
      obtain ⟨placement, hmem, rfl⟩ := List.mem_map.mp hblock
      exact hbrought _ (List.mem_map_of_mem hmem)
  | confirmBlock hparts hfile hpending howner hblocks =>
      have hold := h.blocks _ _ (Metadata.file_eq_some.mpr hfile)
      refine h.setFile fun block' hmem => ?_
      rcases mem_updateBlock hblocks hmem with hkept | ⟨block, hchanged, _, rfl⟩
      · exact hold block' hkept
      · exact hold block hchanged
  | completeUpload hparts hfile =>
      have hold := h.blocks _ _ (Metadata.file_eq_some.mpr hfile)
      exact h.setFile hold
  | acquireLock | joinLock | renewLock | releaseLock =>
      exact (h.pruned (pruned_aliveLocks _ _ _)).congr (fun _ => rfl) rfl
  | releaseLast => exact (h.pruned (pruned_aliveLocks _ _ _)).congr (fun _ => rfl) rfl
  | releaseGone => exact h.pruned (pruned_aliveLocks _ _ _)
  | updateBlockReplicas hparts hfile hcommitted hfind hexpected hblocks =>
      have hold := h.blocks _ _ (Metadata.file_eq_some.mpr hfile)
      refine h.setFile fun block' hmem => ?_
      rcases mem_updateBlock hblocks hmem with hkept | ⟨block, _, _, rfl⟩
      · exact hold block' hkept
      · exact hbrought _ List.mem_cons_self
  | beginWrite hparts hr | beginWriteLost hparts hr =>
      obtain ⟨plan, _, _, hslots⟩ := hr.hplan
      refine (h.pruned (pruned_writeTable _ _ _)).setWrite fun slot hslot => ?_
      rw [hslots] at hslot
      exact hbrought _ (newAddresses_fillSlots hslot)
  | @commitWrite _ p w l version confirmed now caller ps f res blocks replaced hparts hr
      hpublished =>
      have hnew : blocks = (publishSlots f.blocks (confirmedSlots res confirmed)).1 := by
        rw [hpublished]
      refine ((h.pruned (pruned_writeTable _ _ _)).dropWrite).setFile fun block hblock => ?_
      change block ∈ blocks at hblock
      rw [hnew] at hblock
      rcases mem_publishSlots hblock with hold | ⟨q, hq, rfl⟩
      · exact h.blocks _ _ (Metadata.file_eq_some.mpr hr.hfile) block hold
      · exact h.slots _ _ hr.hreserved _ (List.of_mem_zip hq).1
  | abortWrite => exact (h.pruned (pruned_aliveWrites _ _)).dropWrite
  | abortGone => exact h.pruned (pruned_aliveWrites _ _)
  | createUser | changePassword => exact h.congr (fun _ => rfl) rfl
  | setAttrsDir hparts hdir =>
      exact h.congr (Metadata.file_setDir _ (Metadata.file_of_dir hdir)) rfl
  | setAttrsFile hparts hfile =>
      have hold := h.blocks _ _ (Metadata.file_eq_some.mpr hfile)
      exact h.setFile hold
  | refused hpruned => exact h.pruned hpruned

theorem allLists_apply {P : List String → Prop} {c : Command} {s : ReplicatedTree}
    (h : AllLists P (metadata s.tree))
    (hbrought : ∀ μ, c.call = .mutation μ → ∀ l ∈ broughtLists μ, P l) :
    AllLists P (metadata (apply c s).2.tree) := by
  have happlied := apply_applied c s
  revert happlied
  generalize (apply c s).1 = o
  generalize (apply c s).2 = s'
  intro happlied
  cases happlied with
  | cached => exact h
  | executed _ hcall heffect => exact allLists_effect heffect h (hbrought _ hcall)
  | rejected _ htree => rwa [htree]

/-! ## The system -/

/-- A call of `_pick_replicas`: the live addresses it has read, and its result. -/
structure Pick where
  alive : List String
  replicas : List String

/-- What was read stays usable: `read` are the lists of live addresses that
    calls of `_pick_replicas` and cycles have read, `snapshot` the blocks that
    cycles have.  `repairs` are the calls they have proposed. -/
structure State where
  alive : String → Bool
  nextOffset : Nat
  read : List (List String)
  picked : List Pick
  snapshot : List (String × BlockRecord)
  repairs : List Mutation
  tree : ReplicatedTree

inductive Event where
  | liveness (alive : String → Bool)
  | readAlive
  | pick (alive : List String)
  | takeSnapshot
  | repair (path : String) (block : BlockRecord) (alive : List String)
  | apply (c : Command)

def State.init : State where
  alive := fun _ => true
  nextOffset := 0
  read := []
  picked := []
  snapshot := []
  repairs := []
  tree := .empty

/-- A command of the cluster: `BeginUpload` and `BeginWrite` propose lists that
    `_pick_replicas` has returned, and replicas are rewritten by repairs. -/
def Proposed (s : State) (c : Command) : Prop :=
  match c.call with
  | .mutation (.updateBlockReplicas path blockId expected new) =>
      .updateBlockReplicas path blockId expected new ∈ s.repairs
  | .mutation μ => ∀ l ∈ broughtLists μ, l ∈ s.picked.map Pick.replicas
  | .unknown _ => True

instance (s : State) (c : Command) : Decidable (Proposed s c) := by
  unfold Proposed
  split <;> infer_instance

/-- The repair of a block, if `run_cycle` makes one. -/
def repairOf (replicationFactor : Nat) (path : String) (block : BlockRecord)
    (alive : List String) : Option Mutation :=
  let expected := block.datanodeAddresses
  let live := liveReplicas alive expected
  if replicationFactor ≤ live.length ∨ live = [] then none
  else (firstTarget alive expected).map fun target =>
    .updateBlockReplicas path block.blockId expected (live ++ [target])

def next (c : Config) (s : State) : Event → Option State
  | .liveness alive => some { s with alive }
  | .readAlive => some { s with read := c.datanodeAddresses.filter s.alive :: s.read }
  | .pick alive =>
      if alive ∈ s.read ∧ c.minWriteReplicas ≤ alive.length then
        let count := min c.replicationFactor alive.length
        some { s with
          nextOffset := (s.nextOffset + 1) % alive.length
          picked := ⟨alive, pickReplicas alive count s.nextOffset⟩ :: s.picked }
      else none
  | .takeSnapshot => some { s with snapshot := iterBlocks s.tree.tree ++ s.snapshot }
  | .repair path block alive =>
      if (path, block) ∈ s.snapshot ∧ alive ∈ s.read then
        (repairOf c.replicationFactor path block alive).map fun μ =>
          { s with repairs := μ :: s.repairs }
      else none
  | .apply cmd =>
      if Proposed s cmd then some { s with tree := (DfshaReplicatedTree.apply cmd s.tree).2 }
      else none

/-- The runs: any changes of liveness, calls, cycles and commands, in any order. -/
def cluster (c : Config) : System State Event := ofPartial State.init (next c)

/-- Each replica is on a DataNode of its own, and there is one. -/
def Distinct (l : List String) : Prop := l ≠ [] ∧ l.Nodup

/-- The replicas of every block and of every reserved slot are on different
    DataNodes, and every list that was picked is as long as the replication
    factor and the live DataNodes allow, with live DataNodes only. -/
structure Sound (c : Config) (s : State) : Prop where
  blocks : ∀ ps f, s.tree.tree.root.view ps = some (.file f) →
    ∀ block ∈ f.blocks, Distinct block.datanodeAddresses
  slots : ∀ w r, s.tree.tree.writes.get? w = some r →
    ∀ slot ∈ r.slots, Distinct slot.newAddresses
  picked : ∀ k ∈ s.picked,
    k.replicas.length = min c.replicationFactor k.alive.dedup.length ∧
    c.minWriteReplicas ≤ k.replicas.length ∧ ∀ a ∈ k.replicas, a ∈ k.alive

/-! ## Different DataNodes -/

/-- What holds as long as no list has a repetition. -/
structure Inv (c : Config) (s : State) : Prop where
  lists : AllLists Distinct (metadata s.tree.tree)
  read : ∀ alive ∈ s.read, c.replicationFactor = 1 ∨ alive.Nodup
  picked : ∀ k ∈ s.picked, Distinct k.replicas ∧
    k.replicas.length = min c.replicationFactor k.alive.dedup.length ∧
    c.minWriteReplicas ≤ k.replicas.length ∧ ∀ a ∈ k.replicas, a ∈ k.alive
  snapshot : ∀ e ∈ s.snapshot, Distinct e.2.datanodeAddresses
  repairs : ∀ μ ∈ s.repairs, ∀ l ∈ broughtLists μ, Distinct l

/-- A list that was picked, where one copy is enough or no DataNode is named
    twice. -/
theorem picked_distinct {c : Config} {alive : List String} (start : Nat)
    (h : c.replicationFactor = 1 ∨ alive.Nodup) (hmin : c.minWriteReplicas ≤ alive.length) :
    let l := pickReplicas alive (min c.replicationFactor alive.length) start
    Distinct l ∧ l.length = min c.replicationFactor alive.dedup.length ∧
      c.minWriteReplicas ≤ l.length ∧ ∀ a ∈ l, a ∈ alive := by
  obtain ⟨hpos, hle, _⟩ := c.bounds
  have hlen := length_pickReplicas alive (min c.replicationFactor alive.length) start
  have hne : pickReplicas alive (min c.replicationFactor alive.length) start ≠ [] := by
    rw [← List.length_pos_iff, hlen]
    omega
  refine ⟨⟨hne, ?_⟩, ?_, by rw [hlen]; omega,
    fun a ha => mem_of_mem_pickReplicas (Nat.min_le_right _ _) ha⟩
  · rcases h with hone | hnodup
    · obtain ⟨a, ha⟩ := List.length_eq_one_iff.mp (hlen.trans (by omega))
      rw [ha]
      exact List.nodup_singleton a
    · exact nodup_pickReplicas start (Nat.min_le_right _ _) hnodup
  · rw [hlen]
    rcases h with hone | hnodup
    · have hdedup : 0 < alive.dedup.length := by
        rw [List.length_pos_iff, Ne, List.dedup_eq_nil, ← Ne, ← List.length_pos_iff]
        omega
      rw [hone]
      omega
    · rw [List.dedup_eq_self.mpr hnodup]

/-- A repair keeps the replicas that are alive and adds a new one. -/
theorem distinct_repairOf {n : Nat} {path : String} {block : BlockRecord}
    {alive : List String} {μ : Mutation} (hblock : Distinct block.datanodeAddresses)
    (h : repairOf n path block alive = some μ) : ∀ l ∈ broughtLists μ, Distinct l := by
  rw [repairOf] at h
  by_cases hskip : n ≤ (liveReplicas alive block.datanodeAddresses).length ∨
      liveReplicas alive block.datanodeAddresses = []
  · rw [if_pos hskip] at h
    cases h
  rw [if_neg hskip] at h
  obtain ⟨target, htarget, rfl⟩ := Option.map_eq_some_iff.mp h
  intro l hl
  obtain rfl := List.mem_singleton.mp hl
  have hfresh := (firstTarget_eq_some htarget).2
  refine ⟨List.append_ne_nil_of_right_ne_nil _ (List.cons_ne_nil _ _), ?_⟩
  refine List.Nodup.append (hblock.2.filter _) (List.nodup_singleton _) ?_
  intro a ha ha'
  rw [List.mem_singleton.mp ha'] at ha
  exact hfresh (List.mem_of_mem_filter ha)

theorem inv_init (c : Config) : Inv c State.init where
  lists := ⟨fun ps f hf => absurd (Metadata.file_eq_some.mp hf) (no_file_empty ps f),
    fun _ _ hr => by cases hr⟩
  read := fun _ h => absurd h List.not_mem_nil
  picked := fun _ h => absurd h List.not_mem_nil
  snapshot := fun _ h => absurd h List.not_mem_nil
  repairs := fun _ h => absurd h List.not_mem_nil

theorem inv_next {c : Config} {s s' : State} {e : Event}
    (hc : c.replicationFactor = 1 ∨ c.datanodeAddresses.Nodup) (hs : Inv c s)
    (h : next c s e = some s') : Inv c s' := by
  cases e with
  | liveness alive =>
      obtain rfl := Option.some.inj h
      exact ⟨hs.lists, hs.read, hs.picked, hs.snapshot, hs.repairs⟩
  | readAlive =>
      obtain rfl := Option.some.inj h
      refine ⟨hs.lists, fun alive halive => ?_, hs.picked, hs.snapshot, hs.repairs⟩
      rcases List.mem_cons.mp halive with rfl | halive
      · exact hc.imp_right fun hnodup => hnodup.filter _
      · exact hs.read alive halive
  | pick alive =>
      rw [next] at h
      by_cases hok : alive ∈ s.read ∧ c.minWriteReplicas ≤ alive.length
      · rw [if_pos hok] at h
        obtain rfl := Option.some.inj h
        refine ⟨hs.lists, hs.read, fun k hk => ?_, hs.snapshot, hs.repairs⟩
        rcases List.mem_cons.mp hk with rfl | hk
        · exact picked_distinct s.nextOffset (hs.read alive hok.1) hok.2
        · exact hs.picked k hk
      · rw [if_neg hok] at h
        cases h
  | takeSnapshot =>
      obtain rfl := Option.some.inj h
      refine ⟨hs.lists, hs.read, hs.picked, fun e he => ?_, hs.repairs⟩
      rcases List.mem_append.mp he with hnew | hold
      · obtain ⟨ps, f, _, hfile, _, hblock⟩ := DfshaListing.mem_iterBlocks hnew
        exact hs.lists.blocks ps f (Metadata.file_eq_some.mpr hfile) e.2 hblock
      · exact hs.snapshot e hold
  | repair path block alive =>
      rw [next] at h
      by_cases hok : (path, block) ∈ s.snapshot ∧ alive ∈ s.read
      · rw [if_pos hok] at h
        obtain ⟨μ, hμ, rfl⟩ := Option.map_eq_some_iff.mp h
        refine ⟨hs.lists, hs.read, hs.picked, hs.snapshot, fun ν hν => ?_⟩
        rcases List.mem_cons.mp hν with rfl | hν
        · exact distinct_repairOf (hs.snapshot _ hok.1) hμ
        · exact hs.repairs ν hν
      · rw [if_neg hok] at h
        cases h
  | apply cmd =>
      rw [next] at h
      by_cases hok : Proposed s cmd
      · rw [if_pos hok] at h
        obtain rfl := Option.some.inj h
        refine ⟨allLists_apply hs.lists ?_, hs.read, hs.picked, hs.snapshot, hs.repairs⟩
        intro μ hμ l hl
        rw [Proposed, hμ] at hok
        have hpicked : ∀ l, l ∈ s.picked.map Pick.replicas → Distinct l := by
          intro l hl
          obtain ⟨k, hk, rfl⟩ := List.mem_map.mp hl
          exact (hs.picked k hk).1
        cases μ with
        | updateBlockReplicas => exact hs.repairs _ hok l hl
        | beginUpload => exact hpicked l (hok l hl)
        | beginWrite => exact hpicked l (hok l hl)
        | _ => exact absurd hl List.not_mem_nil
      · rw [if_neg hok] at h
        cases h

theorem sound_of_inv {c : Config} {s : State} (h : Inv c s) : Sound c s where
  blocks := fun ps f hf => h.lists.blocks ps f (Metadata.file_eq_some.mpr hf)
  slots := h.lists.slots
  picked := fun k hk => (h.picked k hk).2

/-! ## A DataNode that is named twice -/

/-- Fewer DataNodes than addresses among the live ones, and fewer than copies. -/
def Crowded (c : Config) (alive : List String) : Prop :=
  alive.dedup.length < c.replicationFactor ∧ alive.dedup.length < alive.length

/-- One more live DataNode is one more DataNode, and one more address at least. -/
theorem filter_insert {l : List String} {p : String → Bool} {b : String} (hb : b ∈ l)
    (hp : p b = false) :
    (l.filter fun a => p a || a == b).dedup.length = (l.filter p).dedup.length + 1 ∧
    (l.filter p).length < (l.filter fun a => p a || a == b).length := by
  constructor
  · rw [← List.card_toFinset, ← List.card_toFinset]
    have hinsert : (l.filter fun a => p a || a == b).toFinset
        = insert b (l.filter p).toFinset := by
      ext a
      simp only [List.mem_toFinset, List.mem_filter, Finset.mem_insert, Bool.or_eq_true,
        beq_iff_eq]
      constructor
      · rintro ⟨ha, hpa | rfl⟩
        · exact .inr ⟨ha, hpa⟩
        · exact .inl rfl
      · rintro (rfl | ⟨ha, hpa⟩)
        · exact ⟨hb, .inr rfl⟩
        · exact ⟨ha, .inl hpa⟩
    have hfresh : b ∉ (l.filter p).toFinset := by
      rw [List.mem_toFinset, List.mem_filter, hp]
      exact fun h => Bool.false_ne_true h.2
    rw [hinsert, Finset.card_insert_of_notMem hfresh]
  · rw [← List.countP_eq_length_filter, ← List.countP_eq_length_filter]
    obtain ⟨pre, post, rfl⟩ := List.append_of_mem hb
    rw [List.countP_append, List.countP_append, List.countP_cons, List.countP_cons, hp]
    have hmono : ∀ l : List String, l.countP p ≤ l.countP fun a => p a || a == b :=
      fun l => List.countP_mono_left fun a _ ha => by rw [ha]; rfl
    have hpre := hmono pre
    have hpost := hmono post
    simp only [Bool.false_eq_true, if_false, beq_self_eq_true, Bool.or_true, if_true]
    omega

/-- With a DataNode that is named twice, the live ones can be crowded. -/
theorem exists_crowded {c : Config} (hfactor : c.replicationFactor ≠ 1)
    (hdup : ¬c.datanodeAddresses.Nodup) :
    ∃ p, Crowded c (c.datanodeAddresses.filter p) ∧
      c.minWriteReplicas ≤ (c.datanodeAddresses.filter p).length := by
  obtain ⟨hpos, hle, hcount⟩ := c.bounds
  -- the live set grows, one DataNode at a time, until enough addresses are live
  suffices hgrow : ∀ (n : Nat) (p : String → Bool),
      c.datanodeAddresses.length - (c.datanodeAddresses.filter p).length = n →
      Crowded c (c.datanodeAddresses.filter p) →
      ∃ p, Crowded c (c.datanodeAddresses.filter p) ∧
        c.minWriteReplicas ≤ (c.datanodeAddresses.filter p).length by
    obtain ⟨a, htwice⟩ : ∃ a, 2 ≤ c.datanodeAddresses.count a := by
      by_contra hnone
      refine hdup (List.nodup_iff_count_le_one.mpr fun a => ?_)
      exact Nat.le_of_lt_succ (not_le.mp fun ha => hnone ⟨a, ha⟩)
    refine hgrow _ (fun b => b == a) rfl ?_
    have hone : (c.datanodeAddresses.filter fun b => b == a).dedup.length ≤ 1 := by
      rw [← List.card_toFinset, Finset.card_le_one]
      intro x hx y hy
      rw [List.mem_toFinset, List.mem_filter] at hx hy
      rw [eq_of_beq hx.2, eq_of_beq hy.2]
    rw [List.count_eq_countP, List.countP_eq_length_filter] at htwice
    exact ⟨by omega, by omega⟩
  intro n
  induction n using Nat.strong_induction_on with
  | _ n ih =>
      intro p hn hcrowded
      by_cases henough : c.minWriteReplicas ≤ (c.datanodeAddresses.filter p).length
      · exact ⟨p, hcrowded, henough⟩
      · obtain ⟨b, hb, hdead⟩ : ∃ b ∈ c.datanodeAddresses, p b = false := by
          by_contra hall
          have hfull : c.datanodeAddresses.filter p = c.datanodeAddresses := by
            rw [List.filter_eq_self]
            intro a ha
            cases hpa : p a with
            | true => rfl
            | false => exact absurd ⟨a, ha, hpa⟩ hall
          rw [hfull] at henough
          exact henough hcount
        obtain ⟨hnodes, haddresses⟩ := filter_insert hb hdead
        have hmost := List.length_filter_le (fun a => p a || a == b) c.datanodeAddresses
        have hfewer := hcrowded.2
        refine ih _ ?_ (fun a => p a || a == b) rfl ⟨?_, ?_⟩
        · omega
        · omega
        · omega

theorem step_pick {c : Config} {s : State} {alive : List String}
    (h : alive ∈ s.read ∧ c.minWriteReplicas ≤ alive.length) :
    (cluster c).step s (.pick alive) { s with
      nextOffset := (s.nextOffset + 1) % alive.length
      picked := ⟨alive, pickReplicas alive (min c.replicationFactor alive.length)
        s.nextOffset⟩ :: s.picked } := by
  show next c s (.pick alive) = _
  rw [next, if_pos h]

/-- A list is picked when exactly the DataNodes of `p` are live. -/
theorem exists_pick (c : Config) {p : String → Bool}
    (h : c.minWriteReplicas ≤ (c.datanodeAddresses.filter p).length) :
    ∃ es s k, (cluster c).Run es s ∧ k ∈ s.picked ∧ k.alive = c.datanodeAddresses.filter p ∧
      k.replicas = pickReplicas k.alive (min c.replicationFactor k.alive.length) 0 := by
  have hlive : (cluster c).Run [.liveness p] { State.init with alive := p } :=
    ⟨State.init, rfl, Path.one rfl⟩
  have hread : (cluster c).Run ([.liveness p] ++ [.readAlive])
      { State.init with alive := p, read := [c.datanodeAddresses.filter p] } :=
    hlive.next rfl
  exact ⟨_, _, _, hread.next (step_pick ⟨List.mem_singleton_self _, h⟩), List.mem_cons_self,
    rfl, rfl⟩

/-- **THE REPLICAS ARE ON DIFFERENT DATANODES** in every run, and every list
    that is picked has as many live DataNodes as it should, if and only if
    there is one copy of everything or no DataNode is named twice. -/
theorem sound_iff (c : Config) :
    (∀ es s, (cluster c).Run es s → Sound c s) ↔
      c.replicationFactor = 1 ∨ c.datanodeAddresses.Nodup := by
  constructor
  · intro hsound
    by_contra hnot
    rw [not_or] at hnot
    obtain ⟨p, ⟨hnodes, haddresses⟩, henough⟩ := exists_crowded hnot.1 hnot.2
    obtain ⟨es, s, k, hrun, hk, halive, hreplicas⟩ := exists_pick c henough
    have hpicked := ((hsound es s hrun).picked k hk).1
    rw [hreplicas, length_pickReplicas, halive] at hpicked
    omega
  · rintro hc es s ⟨s₀, rfl, hpath⟩
    exact sound_of_inv (hpath.keeps (inv_init c) fun _ _ _ hs hstep => inv_next hc hs hstep)

/-! ## Two names for one DataNode -/

def namedTwice : Config where
  datanodeAddresses := ["n1", "n1"]
  replicationFactor := 2
  minWriteReplicas := 2
  accepted := by decide

def uploadTwice : List Event :=
  [ .readAlive, .pick ["n1", "n1"]
  , .apply ⟨"op-1", .mutation (.beginUpload "/f" [("b1", ["n1", "n1"])]
      (some 0) (some 10) (some 4) none)⟩ ]

/-- The block of the upload has both its replicas on `n1`. -/
theorem both_copies_on_one_node :
    ∃ (s : State) (f : FileNode), (cluster namedTwice).Run uploadTwice s ∧
      s.tree.tree.root.view ["f"] = some (.file f) ∧
      f.blocks.map BlockRecord.datanodeAddresses = [["n1", "n1"]] ∧
      ¬Sound namedTwice s := by
  have hseen : (steps (next namedTwice) State.init uploadTwice).map
      (fun s => s.tree.tree.root.view ["f"]) =
        some (some (.file (newUpload [("b1", ["n1", "n1"])] (some 0) (some 10) (some 4)
          none))) := by
    decide +kernel
  obtain ⟨s, hs, hfile⟩ := Option.map_eq_some_iff.mp hseen
  refine ⟨s, _, run_of_steps hs, hfile, rfl, fun hsound => ?_⟩
  exact absurd (hsound.blocks _ _ hfile _ List.mem_cons_self).2 (by decide)

end DfshaReplicaPlacement
