import Dfsha.ReplicatedTreeProofs

/-! # The re-replicator and the DataNode monitor

    Two threads of a ControlNode over the replicated tree.  The monitor pings
    the DataNodes one by one and keeps, for each, whether it is eligible and
    since when it fails.  The re-replicator looks for blocks with too few live
    replicas, has a live replica copied to a new DataNode and proposes the new
    list, against the one it has seen.

    A cycle reads the tree once, then the live addresses once, and asks again
    how long each missing replica has been dead when it reaches the block.
    Copies take long, so every step here is one read or one call, and the
    monitor, the clock, and any command that Raft applies, come in between. -/

namespace DfshaReReplicator

open TransitionSystem DfshaPath DfshaControlTree DfshaReplicatedTree

/-! ## The monitor -/

/-- A probe with its result, as the monitor records it. -/
structure Probe where
  address : String
  answered : Bool
  time : Time
deriving DecidableEq

/-- What the constructors of the two threads accept. -/
structure Config where
  addresses : List String
  deadAfterS : Time
  replicationFactor : Nat
  delayS : Time
  maxPerCycle : Nat
  maxAttempts : Nat
  deadAfter_pos : 0 < deadAfterS
  factor_pos : 1 ≤ replicationFactor
  delay_nonneg : 0 ≤ delayS
  perCycle_pos : 1 ≤ maxPerCycle
  attempts_pos : 1 ≤ maxAttempts

/-- The state of `DataNodeMonitor`.  `failure` is a ping that failed, between
    the reading of the clock and the lock; `probes` are the probes recorded so
    far, the last one first, and no code reads them. -/
structure Monitor where
  clock : Time
  alive : String → Bool
  deadSince : String → Option Time
  failure : Option (String × Time)
  probes : List Probe

def Monitor.new : Monitor where
  clock := 0
  alive := fun _ => true
  deadSince := fun _ => none
  failure := none
  probes := []

inductive MonitorEvent where
  | tick (now : Time)
  | pingOk (address : String)
  | pingFailed (address : String)
  | recordFailure

/-- `_probe_once`, one address at a time, and the clock. -/
def Monitor.next (c : Config) (m : Monitor) : MonitorEvent → Option Monitor
  | .tick now => if m.clock ≤ now then some { m with clock := now } else none
  | .pingOk a =>
      if a ∈ c.addresses ∧ m.failure = none then
        some { m with
          alive := Function.update m.alive a true
          deadSince := Function.update m.deadSince a none
          probes := ⟨a, true, m.clock⟩ :: m.probes }
      else none
  | .pingFailed a =>
      if a ∈ c.addresses ∧ m.failure = none then
        some { m with failure := some (a, m.clock) }
      else none
  | .recordFailure =>
      match m.failure with
      | none => none
      | some (a, now) =>
          let since := (m.deadSince a).getD now
          some { m with
            alive := if c.deadAfterS ≤ now - since then Function.update m.alive a false
              else m.alive
            deadSince := Function.update m.deadSince a (some since)
            failure := none
            probes := ⟨a, false, now⟩ :: m.probes }

def Monitor.aliveAddresses (c : Config) (m : Monitor) : List String :=
  c.addresses.filter m.alive

/-! ## The cycle -/

/-- The replicas that are on a live DataNode. -/
def liveReplicas (alive expected : List String) : List String :=
  expected.filter (· ∈ alive)

/-- The first live DataNode that has no replica. -/
def firstTarget (alive expected : List String) : Option String :=
  alive.find? (· ∉ expected)

theorem firstTarget_eq_some {alive expected : List String} {target : String}
    (h : firstTarget alive expected = some target) : target ∈ alive ∧ target ∉ expected := by
  unfold firstTarget at h
  have hfresh := List.find?_some h
  exact ⟨List.mem_of_find?_eq_some h, of_decide_eq_true hfresh⟩

/-- An answer of `_dead_for`: what was read under the lock, the clock, and the
    probes recorded when the lock was held. -/
structure Check where
  address : String
  since : Option Time
  now : Time
  probes : List Probe
deriving DecidableEq

/-- A call of `update_block_replicas`, with the live addresses it was decided
    on, the probes recorded when these were read, and the delay checks made. -/
structure Repair where
  opId : String
  path : String
  blockId : String
  expected : List String
  new : List String
  alive : List String
  readAt : List Probe
  checks : List Check
deriving DecidableEq

def Repair.command (r : Repair) : Command where
  opId := r.opId
  call := .mutation (.updateBlockReplicas r.path r.blockId r.expected r.new)

/-- The local variables of `run_cycle`. -/
structure Scan where
  alive : List String
  readAt : List Probe
  rest : List (String × BlockRecord)
  completed : Nat
deriving DecidableEq

/-- The block the loop is at, with the delay checks made for it. -/
structure Item where
  path : String
  block : BlockRecord
  checks : List Check
deriving DecidableEq

def Item.expected (i : Item) : List String := i.block.datanodeAddresses

/-- Where `run_cycle` is. -/
inductive Phase where
  | idle
  | leading
  | snapshotted (snapshot : List (String × BlockRecord))
  | scanning (scan : Scan)
  | checking (scan : Scan) (item : Item) (todo : List String)
  | timing (scan : Scan) (item : Item) (address : String) (since : Time)
      (seen : List Probe) (todo : List String)
  | copying (scan : Scan) (item : Item) (target : String) (sources : List String)
  | committing (scan : Scan) (repair : Repair) (attempt : Nat)

inductive CycleEvent where
  | begin
  | takeSnapshot
  | readAlive
  | look (stopped : Bool)
  | readDeadSince
  | readClock
  | chooseTarget (leader : Bool)
  | copied (opId : String)
  | copyFailed
  | propose
  | finish

/-- The block is left alone or its missing replicas are looked at. -/
def lookAt (c : Config) (scan : Scan) (path : String) (block : BlockRecord) : Phase :=
  let expected := block.datanodeAddresses
  let live := liveReplicas scan.alive expected
  if c.replicationFactor ≤ live.length then .scanning scan
  else if live = [] then .scanning scan
  else .checking scan ⟨path, block, []⟩ (expected.filter (· ∉ scan.alive))

def repairOf (scan : Scan) (item : Item) (target opId : String) : Repair where
  opId := opId
  path := item.path
  blockId := item.block.blockId
  expected := item.expected
  new := liveReplicas scan.alive item.expected ++ [target]
  alive := scan.alive
  readAt := scan.readAt
  checks := item.checks

def Scan.count (scan : Scan) : Scan := { scan with completed := scan.completed + 1 }

/-- One step of `run_cycle`: a read of the tree or of the monitor, a call to a
    DataNode, or a proposal. -/
def cycleNext (c : Config) (m : Monitor) (tree : ControlTree) :
    Phase → CycleEvent → Option Phase
  | .idle, .begin => some .leading
  | .leading, .takeSnapshot => some (.snapshotted (iterBlocks tree))
  | .snapshotted snapshot, .readAlive =>
      some (.scanning ⟨m.aliveAddresses c, m.probes, snapshot, 0⟩)
  | .scanning scan, .look stopped =>
      if c.maxPerCycle ≤ scan.completed ∨ stopped then some .idle
      else match scan.rest with
        | [] => some .idle
        | (path, block) :: rest => some (lookAt c { scan with rest } path block)
  | .checking scan item (a :: todo), .readDeadSince =>
      match m.deadSince a with
      -- `None` counts as dead for ever
      | none => some (.checking scan
          { item with checks := ⟨a, none, m.clock, m.probes⟩ :: item.checks } todo)
      | some since => some (.timing scan item a since m.probes todo)
  | .timing scan item a since seen todo, .readClock =>
      if max 0 (m.clock - since) < c.delayS then some (.scanning scan)
      else some (.checking scan
        { item with checks := ⟨a, some since, m.clock, seen⟩ :: item.checks } todo)
  | .checking scan item [], .chooseTarget leader =>
      match firstTarget scan.alive item.expected with
      | none => some (.scanning scan)
      | some target =>
          if leader then
            some (.copying scan item target (liveReplicas scan.alive item.expected))
          else some .idle
  | .copying scan item target (_ :: _), .copied opId =>
      some (.committing scan (repairOf scan item target opId) 0)
  | .copying scan item target (_ :: sources), .copyFailed =>
      some (.copying scan item target sources)
  | .copying scan _ _ [], .finish => some (.scanning scan.count)
  | .committing scan repair attempt, .propose =>
      if attempt < c.maxAttempts then some (.committing scan repair (attempt + 1))
      else none
  | .committing scan _ (_ + 1), .finish => some (.scanning scan.count)
  | _, _ => none

/-- What a step proposes: the same operation at every attempt. -/
def proposals : Phase → CycleEvent → List Repair
  | .committing _ repair _, .propose => [repair]
  | _, _ => []

/-- The steps of `run_cycle`, one by one, with what each has checked. -/
inductive CycleStep (c : Config) (m : Monitor) (tree : ControlTree) :
    Phase → CycleEvent → Phase → Prop
  | begin : CycleStep c m tree .idle .begin .leading
  | takeSnapshot :
      CycleStep c m tree .leading .takeSnapshot (.snapshotted (iterBlocks tree))
  | readAlive {snapshot : List (String × BlockRecord)} :
      CycleStep c m tree (.snapshotted snapshot) .readAlive
        (.scanning ⟨m.aliveAddresses c, m.probes, snapshot, 0⟩)
  | ended {scan : Scan} {stopped : Bool} :
      CycleStep c m tree (.scanning scan) (.look stopped) .idle
  | skip {scan : Scan} {stopped : Bool} {e : String × BlockRecord}
      {rest : List (String × BlockRecord)}
      (hquota : scan.completed < c.maxPerCycle) (hrest : scan.rest = e :: rest)
      (hskip : c.replicationFactor ≤
          (liveReplicas scan.alive e.2.datanodeAddresses).length ∨
        liveReplicas scan.alive e.2.datanodeAddresses = []) :
      CycleStep c m tree (.scanning scan) (.look stopped) (.scanning { scan with rest })
  | check {scan : Scan} {stopped : Bool} {path : String} {block : BlockRecord}
      {rest : List (String × BlockRecord)}
      (hquota : scan.completed < c.maxPerCycle) (hrest : scan.rest = (path, block) :: rest)
      (hfew : (liveReplicas scan.alive block.datanodeAddresses).length
        < c.replicationFactor)
      (hlive : liveReplicas scan.alive block.datanodeAddresses ≠ []) :
      CycleStep c m tree (.scanning scan) (.look stopped)
        (.checking { scan with rest } ⟨path, block, []⟩
          (block.datanodeAddresses.filter (· ∉ scan.alive)))
  | readNone {scan : Scan} {item : Item} {a : String} {todo : List String}
      (hsince : m.deadSince a = none) :
      CycleStep c m tree (.checking scan item (a :: todo)) .readDeadSince
        (.checking scan { item with checks := ⟨a, none, m.clock, m.probes⟩ :: item.checks }
          todo)
  | readSince {scan : Scan} {item : Item} {a : String} {todo : List String} {since : Time}
      (hsince : m.deadSince a = some since) :
      CycleStep c m tree (.checking scan item (a :: todo)) .readDeadSince
        (.timing scan item a since m.probes todo)
  | young {scan : Scan} {item : Item} {a : String} {todo : List String} {since : Time}
      {seen : List Probe} (hyoung : max 0 (m.clock - since) < c.delayS) :
      CycleStep c m tree (.timing scan item a since seen todo) .readClock (.scanning scan)
  | old {scan : Scan} {item : Item} {a : String} {todo : List String} {since : Time}
      {seen : List Probe} (hold : c.delayS ≤ max 0 (m.clock - since)) :
      CycleStep c m tree (.timing scan item a since seen todo) .readClock
        (.checking scan { item with checks := ⟨a, some since, m.clock, seen⟩ :: item.checks }
          todo)
  | noTarget {scan : Scan} {item : Item} {leader : Bool}
      (hnone : firstTarget scan.alive item.expected = none) :
      CycleStep c m tree (.checking scan item []) (.chooseTarget leader) (.scanning scan)
  | deposed {scan : Scan} {item : Item} {target : String}
      (htarget : firstTarget scan.alive item.expected = some target) :
      CycleStep c m tree (.checking scan item []) (.chooseTarget false) .idle
  | chosen {scan : Scan} {item : Item} {target : String}
      (htarget : firstTarget scan.alive item.expected = some target) :
      CycleStep c m tree (.checking scan item []) (.chooseTarget true)
        (.copying scan item target (liveReplicas scan.alive item.expected))
  | copied {scan : Scan} {item : Item} {target source opId : String}
      {sources : List String} :
      CycleStep c m tree (.copying scan item target (source :: sources)) (.copied opId)
        (.committing scan (repairOf scan item target opId) 0)
  | copyFailed {scan : Scan} {item : Item} {target source : String}
      {sources : List String} :
      CycleStep c m tree (.copying scan item target (source :: sources)) .copyFailed
        (.copying scan item target sources)
  | gaveUp {scan : Scan} {item : Item} {target : String} :
      CycleStep c m tree (.copying scan item target []) .finish (.scanning scan.count)
  | propose {scan : Scan} {repair : Repair} {attempt : Nat}
      (hattempt : attempt < c.maxAttempts) :
      CycleStep c m tree (.committing scan repair attempt) .propose
        (.committing scan repair (attempt + 1))
  | finish {scan : Scan} {repair : Repair} {attempt : Nat} :
      CycleStep c m tree (.committing scan repair (attempt + 1)) .finish
        (.scanning scan.count)

/-- A step of the function is one of these. -/
theorem cycleStep_of_next {c : Config} {m : Monitor} {tree : ControlTree}
    {ph ph' : Phase} {e : CycleEvent} (h : cycleNext c m tree ph e = some ph') :
    CycleStep c m tree ph e ph' := by
  unfold cycleNext at h
  split at h
  · obtain rfl := Option.some.inj h
    exact .begin
  · obtain rfl := Option.some.inj h
    exact .takeSnapshot
  · obtain rfl := Option.some.inj h
    exact .readAlive
  · rename_i scan stopped
    by_cases hquota : c.maxPerCycle ≤ scan.completed ∨ stopped
    · rw [if_pos hquota] at h
      obtain rfl := Option.some.inj h
      exact .ended
    · rw [if_neg hquota] at h
      have hlt : scan.completed < c.maxPerCycle := not_le.mp fun hle => hquota (.inl hle)
      cases hrest : scan.rest with
      | nil =>
          rw [hrest] at h
          obtain rfl := Option.some.inj h
          exact .ended
      | cons e rest =>
          rw [hrest] at h
          obtain rfl := Option.some.inj h
          show CycleStep c m tree _ _ (lookAt c { scan with rest } e.1 e.2)
          unfold lookAt
          by_cases hfull : c.replicationFactor ≤
              (liveReplicas scan.alive e.2.datanodeAddresses).length
          · rw [if_pos hfull]
            exact .skip hlt hrest (.inl hfull)
          · rw [if_neg hfull]
            by_cases hlost : liveReplicas scan.alive e.2.datanodeAddresses = []
            · rw [if_pos hlost]
              exact .skip hlt hrest (.inr hlost)
            · rw [if_neg hlost]
              exact .check hlt hrest (not_le.mp hfull) hlost
  · rename_i scan item a todo
    cases hsince : m.deadSince a with
    | none =>
        rw [hsince] at h
        obtain rfl := Option.some.inj h
        exact .readNone hsince
    | some since =>
        rw [hsince] at h
        obtain rfl := Option.some.inj h
        exact .readSince hsince
  · rename_i scan item a since seen todo
    by_cases hyoung : max 0 (m.clock - since) < c.delayS
    · rw [if_pos hyoung] at h
      obtain rfl := Option.some.inj h
      exact .young hyoung
    · rw [if_neg hyoung] at h
      obtain rfl := Option.some.inj h
      exact .old (not_lt.mp hyoung)
  · rename_i scan item leader
    cases htarget : firstTarget scan.alive item.expected with
    | none =>
        rw [htarget] at h
        obtain rfl := Option.some.inj h
        exact .noTarget htarget
    | some target =>
        rw [htarget] at h
        cases leader with
        | false =>
            obtain rfl := Option.some.inj h
            exact .deposed htarget
        | true =>
            obtain rfl := Option.some.inj h
            exact .chosen htarget
  · obtain rfl := Option.some.inj h
    exact .copied
  · obtain rfl := Option.some.inj h
    exact .copyFailed
  · obtain rfl := Option.some.inj h
    exact .gaveUp
  · rename_i scan repair attempt
    by_cases hattempt : attempt < c.maxAttempts
    · rw [if_pos hattempt] at h
      obtain rfl := Option.some.inj h
      exact .propose hattempt
    · rw [if_neg hattempt] at h
      cases h
  · obtain rfl := Option.some.inj h
    exact .finish
  · cases h

/-! ## The system -/

/-- `submitted` are the proposals of the cycle so far: Raft may apply each of
    them at any later moment, more than once, or never. -/
structure State where
  monitor : Monitor
  tree : ReplicatedTree
  phase : Phase
  submitted : List Repair

inductive Event where
  | monitor (e : MonitorEvent)
  | cycle (e : CycleEvent)
  | apply (r : Repair)
  | command (c : Command)

def State.init : State where
  monitor := .new
  tree := .empty
  phase := .idle
  submitted := []

def next (c : Config) (s : State) : Event → Option State
  | .monitor e => (s.monitor.next c e).map fun m => { s with monitor := m }
  | .cycle e => (cycleNext c s.monitor s.tree.tree s.phase e).map fun ph =>
      { s with phase := ph, submitted := s.submitted ++ proposals s.phase e }
  | .apply r =>
      if r ∈ s.submitted then
        some { s with tree := (DfshaReplicatedTree.apply r.command s.tree).2 }
      else none
  | .command cmd => some { s with tree := (DfshaReplicatedTree.apply cmd s.tree).2 }

/-- The runs: the monitor, the cycle, its proposals, and any other command. -/
def reReplicator (c : Config) : System State Event := ofPartial State.init (next c)

end DfshaReReplicator
