import Dfsha.ReReplicatorProofs
import Dfsha.ReferencedBlocksProofs

/-! # The collector beside the re-replicator

    A cycle of the garbage collector decides from three pictures, taken one
    after the other: what the DataNodes store, which copy the re-replicator has
    in flight, and what the metadata assigns.  Then it deletes one copy at a
    time, and meanwhile the re-replicator and all commands go on.

    A copy that the cycle is going to delete is DOOMED.  When the pictures are
    taken no doomed copy is assigned or in flight, and later commands assign
    none, since what is unused stays unused.  But the re-replicator may choose
    for a copy just the node that still has an old one, after the pictures were
    taken: that doomed copy is in flight when it is deleted. -/

namespace DfshaGarbageCollector

open InsertionDict TransitionSystem TransitionSystem.System NamedTree
open DfshaPath DfshaControlTree DfshaMetadata DfshaControlTreeEffect
open DfshaReplicatedTree DfshaReferencedBlocks

/-! ## The code -/

/-- `in_flight_copies`.  The thread adds a pair before it copies and discards it
    after the commit, so the set has at most one. -/
def inFlightCopies : DfshaReReplicator.Phase → Option (String × String)
  | .copying _ item target _ => some (item.block.blockId, target)
  | .committing _ repair _ => repair.new.getLast?.map (Prod.mk repair.blockId)
  | _ => none

/-- The pair that a step of the re-replicator adds. -/
def marks : DfshaReReplicator.Phase → DfshaReReplicator.CycleEvent → Option (String × String)
  | .checking scan item [], .chooseTarget true =>
      (DfshaReReplicator.firstTarget scan.alive item.expected).map (Prod.mk item.block.blockId)
  | _, _ => none

/-- A block that a DataNode lists. -/
structure StoredBlock where
  blockId : String
  ageS : Time
deriving DecidableEq

/-- A copy that the last loop looks at. -/
structure Entry where
  address : String
  blockId : String
  ageS : Time
deriving DecidableEq

abbrev Stored : Type := Dict String (List StoredBlock)

/-- `stored`, in the order of the last loop. -/
def entries (stored : Stored) : List Entry :=
  stored.entries.flatMap fun e => e.2.map fun block => ⟨e.1, block.blockId, block.ageS⟩

/-- `in_flight` and `referenced`, and the time at which the second was taken. -/
structure Seen where
  inFlight : Option (String × String)
  referenced : List (String × List String)
  now : Time

def Seen.Protects (seen : Seen) (e : Entry) : Prop :=
  Assigns seen.referenced e.blockId e.address ∨ seen.inFlight = some (e.blockId, e.address)

instance (seen : Seen) (e : Entry) : Decidable (seen.Protects e) :=
  inferInstanceAs (Decidable (_ ∨ _))

/-- Where `run_cycle` is. -/
inductive Sweep where
  | idle
  | leading
  | listing (todo : List String) (stored : Stored)
  | barred (stored : Stored)
  | protecting (stored : Stored) (inFlight : Option (String × String))
  | deleting (todo : List Entry) (seen : Seen)
  -- `_is_leader_raw` has answered, and `DeleteBlock` goes out next
  | sending (e : Entry) (todo : List Entry) (seen : Seen)

inductive SweepEvent where
  | begin (leader : Bool)
  | readAlive
  -- `none` is a DataNode that does not answer
  | list (answer : Option (List StoredBlock))
  | readBarrier (passed : Bool)
  | readInFlight
  | readReferenced (now : Time)
  | look (leader : Bool)
  | send

/-- What the constructor accepts. -/
structure Config where
  graceS : Time
  grace_nonneg : 0 ≤ graceS

/-- One step of `run_cycle`: a read, or a call to a DataNode. -/
def sweepNext (g : Config) (c : DfshaReReplicator.Config) (s : DfshaReReplicator.State) :
    Sweep → SweepEvent → Option Sweep
  | .idle, .begin leader => some (if leader then .leading else .idle)
  | .leading, .readAlive => some (.listing (s.monitor.aliveAddresses c) Dict.empty)
  | .listing (a :: todo) stored, .list answer =>
      some (.listing todo (answer.elim stored (stored.insert a)))
  | .listing [] stored, .readBarrier passed => some (if passed then .barred stored else .idle)
  | .barred stored, .readInFlight => some (.protecting stored (inFlightCopies s.phase))
  | .protecting stored inFlight, .readReferenced now =>
      some (.deleting (entries stored) ⟨inFlight, referencedBlocks s.tree.tree now, now⟩)
  | .deleting [] _, .look _ => some .idle
  | .deleting (e :: todo) seen, .look leader =>
      if seen.Protects e ∨ e.ageS < g.graceS then some (.deleting todo seen)
      else if leader then some (.sending e todo seen)
      else some .idle
  | .sending _ todo seen, .send => some (.deleting todo seen)
  | _, _ => none

/-! ## One leader -/

/-- The re-replicator with its monitor and the tree, and the collector. -/
structure Leader where
  replicator : DfshaReReplicator.State
  sweep : Sweep

inductive Event where
  | replicator (e : DfshaReReplicator.Event)
  | sweep (e : SweepEvent)

def Leader.init : Leader := ⟨.init, .idle⟩

def next (g : Config) (c : DfshaReReplicator.Config) (s : Leader) : Event → Option Leader
  | .replicator e =>
      (DfshaReReplicator.next c s.replicator e).map fun r => { s with replicator := r }
  | .sweep e => (sweepNext g c s.replicator s.sweep e).map fun w => { s with sweep := w }

/-- The runs: both threads step by step, the monitor, and all commands. -/
def leader (g : Config) (c : DfshaReReplicator.Config) : System Leader Event :=
  ofPartial Leader.init (next g c)

/-- No copy about to be deleted is assigned to a committed file, or in flight. -/
def Innocent (s : Leader) : Prop :=
  ∀ e todo seen, s.sweep = .sending e todo seen →
    (∀ ps f, s.replicator.tree.tree.root.view ps = some (.file f) → f.state = .committed →
      ¬ BlocksAssign f.blocks e.blockId e.address) ∧
    inFlightCopies s.replicator.phase ≠ some (e.blockId, e.address)

/-! ## Doomed copies -/

/-- The copies that are neither protected nor young. -/
def Seen.doomed (g : Config) (seen : Seen) (todo : List Entry) : List Entry :=
  todo.filter fun e => ¬ (seen.Protects e ∨ e.ageS < g.graceS)

/-- The copies that the cycle is going to delete if it goes on. -/
def doomed (g : Config) : Sweep → List Entry
  | .deleting todo seen => seen.doomed g todo
  | .sending e todo seen => e :: seen.doomed g todo
  | _ => []

/-- The time of the metadata that the cycle has seen. -/
def Sweep.seenAt : Sweep → Time
  | .deleting _ seen => seen.now
  | .sending _ _ seen => seen.now
  | _ => 0

/-- The step brings no doomed copy into use: it does not mark one, its command
    does not bring one back, and the copy in flight when `referenced` is read
    will not be doomed. -/
def Careful (g : Config) (s : Leader) : Event → Prop
  | .replicator (.cycle e) =>
      ∀ x ∈ doomed g s.sweep, marks s.replicator.phase e ≠ some (x.blockId, x.address)
  | .replicator (.apply r) => ∀ x ∈ doomed g s.sweep,
      ¬ Brings s.sweep.seenAt x.blockId x.address s.replicator.tree r.command
  | .replicator (.command cmd) => ∀ x ∈ doomed g s.sweep,
      ¬ Brings s.sweep.seenAt x.blockId x.address s.replicator.tree cmd
  | .sweep (.readReferenced now) => ∀ stored inFlight, s.sweep = .protecting stored inFlight →
      ∀ x ∈ Seen.doomed g ⟨inFlight, referencedBlocks s.replicator.tree.tree now, now⟩
        (entries stored), inFlightCopies s.replicator.phase ≠ some (x.blockId, x.address)
  | _ => True

/-- No doomed copy is assigned, or in flight. -/
def SweepInv (g : Config) (s : Leader) : Prop :=
  ∀ x ∈ doomed g s.sweep,
    ¬ Assigns (referencedBlocks s.replicator.tree.tree s.sweep.seenAt) x.blockId x.address ∧
    inFlightCopies s.replicator.phase ≠ some (x.blockId, x.address)

section Steps

variable {g : Config} {c : DfshaReReplicator.Config} {s s' : Leader}

theorem mem_doomed {todo : List Entry} {seen : Seen} {x : Entry} :
    x ∈ seen.doomed g todo ↔ x ∈ todo ∧ ¬ (seen.Protects x ∨ x.ageS < g.graceS) := by
  rw [Seen.doomed, List.mem_filter, decide_eq_true_iff]

/-- A step of the re-replicator keeps the copy in flight, ends it, or marks one. -/
theorem inFlight_step {m : DfshaReReplicator.Monitor} {tree : ControlTree}
    {ph ph' : DfshaReReplicator.Phase} {e : DfshaReReplicator.CycleEvent}
    (h : DfshaReReplicator.CycleStep c m tree ph e ph') :
    inFlightCopies ph' = none ∨ inFlightCopies ph' = inFlightCopies ph ∨
      inFlightCopies ph' = marks ph e := by
  cases h with
  | @chosen scan item target htarget =>
      refine .inr (.inr ?_)
      show some _ = (DfshaReReplicator.firstTarget scan.alive item.expected).map _
      rw [htarget]
      rfl
  | copied =>
      refine .inr (.inl ?_)
      show (List.getLast? (_ ++ [_])).map _ = some _
      rw [List.getLast?_concat]
      rfl
  | copyFailed => exact .inr (.inl rfl)
  | propose => exact .inr (.inl rfl)
  | _ => exact .inl rfl

/-- A copy that a step marks is in flight after it. -/
theorem inFlight_of_marks {m : DfshaReReplicator.Monitor} {tree : ControlTree}
    {ph ph' : DfshaReReplicator.Phase} {e : DfshaReReplicator.CycleEvent} {p : String × String}
    (h : DfshaReReplicator.CycleStep c m tree ph e ph') (hmarks : marks ph e = some p) :
    inFlightCopies ph' = some p := by
  cases h with
  | @chosen scan item target htarget =>
      change (DfshaReReplicator.firstTarget scan.alive item.expected).map _ = _ at hmarks
      rw [htarget] at hmarks
      exact hmarks
  | @noTarget scan item leader hnone =>
      cases leader with
      | true =>
          change (DfshaReReplicator.firstTarget scan.alive item.expected).map _ = _ at hmarks
          rw [hnone] at hmarks
          cases hmarks
      | false => cases hmarks
  | _ => cases hmarks

/-- The steps of the last loop doom nothing new. -/
theorem doomed_shrinks {r : DfshaReReplicator.State} {w w' : Sweep} {e : SweepEvent}
    (h : sweepNext g c r w e = some w') (he : ∀ now, e ≠ .readReferenced now) {x : Entry}
    (hx : x ∈ doomed g w') : x ∈ doomed g w ∧ w'.seenAt = w.seenAt := by
  unfold sweepNext at h
  split at h
  · cases Option.some.inj h
    split at hx <;> cases hx
  · cases Option.some.inj h
    cases hx
  · cases Option.some.inj h
    cases hx
  · cases Option.some.inj h
    split at hx <;> cases hx
  · cases Option.some.inj h
    cases hx
  · exact absurd rfl (he _)
  · cases Option.some.inj h
    cases hx
  · rename_i e todo seen leading
    by_cases hkept : seen.Protects e ∨ e.ageS < g.graceS
    · rw [if_pos hkept] at h
      cases Option.some.inj h
      obtain ⟨hmem, hdoomed⟩ := mem_doomed.mp hx
      exact ⟨mem_doomed.mpr ⟨List.mem_cons_of_mem _ hmem, hdoomed⟩, rfl⟩
    · rw [if_neg hkept] at h
      cases leading with
      | true =>
          cases Option.some.inj h
          refine ⟨?_, rfl⟩
          rcases List.mem_cons.mp hx with rfl | hx
          · exact mem_doomed.mpr ⟨List.mem_cons_self, hkept⟩
          · obtain ⟨hmem, hdoomed⟩ := mem_doomed.mp hx
            exact mem_doomed.mpr ⟨List.mem_cons_of_mem _ hmem, hdoomed⟩
      | false =>
          cases Option.some.inj h
          cases hx
  · cases Option.some.inj h
    exact ⟨List.mem_cons_of_mem _ hx, rfl⟩
  · cases h

/-- When the pictures are taken no doomed copy is assigned. -/
theorem inv_readReferenced {now : Time} {w : Sweep}
    (h : sweepNext g c s.replicator s.sweep (.readReferenced now) = some w)
    (hcareful : Careful g s (.sweep (.readReferenced now))) :
    SweepInv g ⟨s.replicator, w⟩ := by
  cases hsweep : s.sweep with
  | protecting stored inFlight =>
      rw [hsweep] at h
      obtain rfl := Option.some.inj h
      intro x hx
      refine ⟨fun hassigned => ?_, hcareful stored inFlight hsweep x hx⟩
      exact (mem_doomed.mp hx).2 (.inl (.inl hassigned))
  | listing todo stored =>
      rw [hsweep] at h
      cases todo with
      | nil => cases h
      | cons _ _ => cases h
  | deleting todo seen =>
      rw [hsweep] at h
      cases todo with
      | nil => cases h
      | cons _ _ => cases h
  | _ =>
      rw [hsweep] at h
      cases h

/-- A step of the collector. -/
theorem inv_sweep {e : SweepEvent} {w : Sweep} (hinv : SweepInv g s)
    (h : sweepNext g c s.replicator s.sweep e = some w) (hcareful : Careful g s (.sweep e)) :
    SweepInv g ⟨s.replicator, w⟩ := by
  by_cases he : ∃ now, e = .readReferenced now
  · obtain ⟨now, rfl⟩ := he
    exact inv_readReferenced h hcareful
  · intro x hx
    obtain ⟨hold, hseen⟩ := doomed_shrinks h (fun now hnow => he ⟨now, hnow⟩) hx
    show ¬ Assigns (referencedBlocks _ w.seenAt) _ _ ∧ _
    rw [hseen]
    exact hinv x hold

/-- A step of the re-replicator, the monitor or a command. -/
theorem inv_replicator {e : DfshaReReplicator.Event} {r : DfshaReReplicator.State}
    (hinv : SweepInv g s) (h : DfshaReReplicator.next c s.replicator e = some r)
    (hcareful : Careful g s (.replicator e)) : SweepInv g ⟨r, s.sweep⟩ := by
  intro x hx
  obtain ⟨hunused, hfree⟩ := hinv x hx
  cases e with
  | monitor e =>
      obtain ⟨m, _, rfl⟩ := Option.map_eq_some_iff.mp h
      exact ⟨hunused, hfree⟩
  | cycle e =>
      obtain ⟨ph, hph, rfl⟩ := Option.map_eq_some_iff.mp h
      refine ⟨hunused, ?_⟩
      show inFlightCopies ph ≠ _
      rcases inFlight_step (DfshaReReplicator.cycleStep_of_next hph) with hnone | hsame | hmarked
      · rw [hnone]
        exact Option.some_ne_none _ |>.symm
      · rw [hsame]
        exact hfree
      · rw [hmarked]
        exact hcareful x hx
  | apply repair =>
      by_cases hsubmitted : repair ∈ s.replicator.submitted
      · obtain rfl := Option.some.inj ((if_pos hsubmitted).symm.trans h)
        exact ⟨unassigned_of_not_brings (hcareful x hx) hunused, hfree⟩
      · cases (if_neg hsubmitted).symm.trans h
  | command cmd =>
      obtain rfl := Option.some.inj h
      exact ⟨unassigned_of_not_brings (hcareful x hx) hunused, hfree⟩

/-- **ONE CAREFUL STEP KEEPS THE INVARIANT.** -/
theorem inv_step {e : Event} (hinv : SweepInv g s) (hcareful : Careful g s e)
    (hstep : (leader g c).step s e s') : SweepInv g s' := by
  cases e with
  | replicator e =>
      obtain ⟨r, hr, rfl⟩ := Option.map_eq_some_iff.mp hstep
      exact inv_replicator hinv hr hcareful
  | sweep e =>
      obtain ⟨w, hw, rfl⟩ := Option.map_eq_some_iff.mp hstep
      exact inv_sweep hinv hw hcareful

theorem inv_of_run {es : List Event} (hrun : ((leader g c).guarded (Careful g)).Run es s) :
    SweepInv g s := by
  refine hrun.invariant (I := fun _ s => SweepInv g s) ?_ ?_
  · rintro _ rfl x hx
    cases hx
  · intro _ s₁ e s₂ hinv hstep
    exact inv_step hinv hstep.1 hstep.2

theorem innocent_of_inv (hinv : SweepInv g s) : Innocent s := by
  intro e todo seen hsweep
  have hmem : e ∈ doomed g s.sweep := by
    rw [hsweep]
    exact List.mem_cons_self
  obtain ⟨hunused, hfree⟩ := hinv e hmem
  refine ⟨fun ps f hview _ hblocks => hunused ?_, hfree⟩
  exact assigns_referencedBlocks.mpr (.inl ⟨ps, f, Metadata.file_eq_some.mpr hview, hblocks⟩)

end Steps

/-! ## A doomed copy is deleted -/

section Doomed

variable {g : Config} {c : DfshaReReplicator.Config} {r : DfshaReReplicator.State}

theorem step_sweep {w w' : Sweep} {e : SweepEvent} (h : sweepNext g c r w e = some w') :
    (leader g c).step ⟨r, w⟩ (.sweep e) ⟨r, w'⟩ := by
  show (sweepNext g c r w e).map _ = _
  rw [h]
  rfl

/-- The loop reaches every doomed copy while nothing else moves. -/
theorem path_to_doomed {todo : List Entry} {seen : Seen} {x : Entry}
    (hx : x ∈ seen.doomed g todo) :
    ∃ es rest, (leader g c).Path ⟨r, .deleting todo seen⟩ es ⟨r, .sending x rest seen⟩ := by
  induction todo with
  | nil => cases hx
  | cons e todo ih =>
      obtain ⟨hmem, hdoomed⟩ := mem_doomed.mp hx
      by_cases hkept : seen.Protects e ∨ e.ageS < g.graceS
      · have hrest : x ∈ todo := by
          rcases List.mem_cons.mp hmem with rfl | hrest
          · exact absurd hkept hdoomed
          · exact hrest
        obtain ⟨es, rest, hpath⟩ := ih (mem_doomed.mpr ⟨hrest, hdoomed⟩)
        exact ⟨_, rest, Path.cons (step_sweep (e := .look true) (if_pos hkept)) hpath⟩
      · have hlook : (leader g c).step ⟨r, .deleting (e :: todo) seen⟩ (.sweep (.look true))
            ⟨r, .sending e todo seen⟩ := step_sweep (if_neg hkept)
        rcases List.mem_cons.mp hmem with rfl | hrest
        · exact ⟨_, todo, Path.one hlook⟩
        · obtain ⟨es, rest, hpath⟩ := ih (mem_doomed.mpr ⟨hrest, hdoomed⟩)
          have hsend : (leader g c).step ⟨r, .sending e todo seen⟩ (.sweep .send)
            ⟨r, .deleting todo seen⟩ := step_sweep rfl
          exact ⟨_, rest, Path.cons hlook (Path.cons hsend hpath)⟩

/-- From any state of the last loop. -/
theorem path_of_doomed {w : Sweep} {x : Entry} (hx : x ∈ doomed g w) :
    ∃ es rest seen, (leader g c).Path ⟨r, w⟩ es ⟨r, .sending x rest seen⟩ := by
  cases w with
  | deleting todo seen =>
      obtain ⟨es, rest, hpath⟩ := path_to_doomed (c := c) (r := r) hx
      exact ⟨es, rest, seen, hpath⟩
  | sending e todo seen =>
      rcases List.mem_cons.mp hx with rfl | hx
      · exact ⟨[], todo, seen, .start⟩
      · obtain ⟨es, rest, hpath⟩ := path_to_doomed (c := c) (r := r) hx
        exact ⟨_, rest, seen, Path.cons (step_sweep (e := .send) rfl) hpath⟩
  | _ => cases hx

/-- A doomed copy that is in flight can be deleted. -/
theorem guilty_of_inFlight {w : Sweep} {x : Entry} (hx : x ∈ doomed g w)
    (hinFlight : inFlightCopies r.phase = some (x.blockId, x.address)) :
    ∃ es s', (leader g c).Path ⟨r, w⟩ es s' ∧ ¬ Innocent s' := by
  obtain ⟨es, rest, seen, hpath⟩ := path_of_doomed (c := c) (r := r) hx
  exact ⟨es, _, hpath, fun hinnocent => (hinnocent x rest seen rfl).2 hinFlight⟩

end Doomed

/-- **WHAT THE COLLECTOR DELETES IS NOT IN USE** in any run of careful steps; and
    a step that marks a doomed copy can be followed by the deletion of the copy
    in flight. -/
theorem deletes_only_unused (g : Config) (c : DfshaReReplicator.Config) :
    (∀ es s, ((leader g c).guarded (Careful g)).Run es s → Innocent s) ∧
    ∀ s e s' x, (leader g c).step s (.replicator (.cycle e)) s' → x ∈ doomed g s.sweep →
      marks s.replicator.phase e = some (x.blockId, x.address) →
      ∃ es s'', (leader g c).Path s' es s'' ∧ ¬ Innocent s'' := by
  refine ⟨fun es s hrun => innocent_of_inv (inv_of_run hrun), ?_⟩
  intro s e s' x hstep hx hmarks
  obtain ⟨r, hr, rfl⟩ := Option.map_eq_some_iff.mp hstep
  obtain ⟨ph, hph, rfl⟩ := Option.map_eq_some_iff.mp hr
  exact guilty_of_inFlight hx
    (inFlight_of_marks (DfshaReReplicator.cycleStep_of_next hph) hmarks)

/-! ## A surplus copy on the node that is chosen -/

/-- Three DataNodes and two copies of each block; a missing one is replaced at once. -/
def threeNodes : DfshaReReplicator.Config where
  addresses := ["n1", "n2", "n3"]
  deadAfterS := 1
  replicationFactor := 2
  delayS := 0
  maxPerCycle := 1
  maxAttempts := 1
  deadAfter_pos := by decide +kernel
  factor_pos := Nat.two_pos
  delay_nonneg := by decide +kernel
  perCycle_pos := Nat.one_pos
  attempts_pos := Nat.one_pos

def defaultGrace : Config := ⟨1200, by decide +kernel⟩

/-- `/f` has its block at `n1` and `n2`.  The collector sees an old copy of it at
    `n3`; then `n2` fails, and the re-replicator chooses `n3`. -/
def surplusRun : List Event :=
  [ .replicator (.command ⟨"op-1", .mutation (.beginUpload "/f" [("b1", ["n1", "n2"])]
      (some 0) (some 10) (some 4) none)⟩)
  , .replicator (.command
      ⟨"op-2", .mutation (.confirmBlock "/f" "b1" "sum" 4 (some 0) (some 10) none)⟩)
  , .replicator (.command ⟨"op-3", .mutation (.completeUpload "/f" none)⟩)
  , .sweep (.begin true), .sweep .readAlive
  , .sweep (.list (some [⟨"b1", 5000⟩])), .sweep (.list (some [⟨"b1", 5000⟩]))
  , .sweep (.list (some [⟨"b1", 5000⟩])), .sweep (.readBarrier true)
  , .sweep .readInFlight, .sweep (.readReferenced 5)
  , .replicator (.monitor (.pingFailed "n2")), .replicator (.monitor .recordFailure)
  , .replicator (.monitor (.tick 1)), .replicator (.monitor (.pingFailed "n2"))
  , .replicator (.monitor .recordFailure)
  , .replicator (.cycle .begin), .replicator (.cycle .takeSnapshot)
  , .replicator (.cycle .readAlive), .replicator (.cycle (.look false))
  , .replicator (.cycle .readDeadSince), .replicator (.cycle .readClock)
  , .replicator (.cycle (.chooseTarget true)) ]

/-- The copy at `n3` is in flight, and doomed. -/
theorem copy_in_flight_is_deleted :
    ¬ ∀ es s, (leader defaultGrace threeNodes).Run es s → Innocent s := by
  intro hall
  have hseen : (steps (next defaultGrace threeNodes) Leader.init surplusRun).map
      (fun s => (doomed defaultGrace s.sweep, inFlightCopies s.replicator.phase)) =
      some ([⟨"n3", "b1", 5000⟩], some ("b1", "n3")) := by
    decide +kernel
  obtain ⟨s, hs, hview⟩ := Option.map_eq_some_iff.mp hseen
  obtain ⟨hdoomed, hinFlight⟩ := Prod.mk.inj hview
  have hmem : (⟨"n3", "b1", 5000⟩ : Entry) ∈ doomed defaultGrace s.sweep := by
    rw [hdoomed]
    exact List.mem_singleton.mpr rfl
  obtain ⟨es, s', hpath, hguilty⟩ := guilty_of_inFlight (c := threeNodes) hmem hinFlight
  have hrun : (leader defaultGrace threeNodes).Run surplusRun s := ⟨_, rfl, path_of_steps hs⟩
  exact hguilty (hall _ _ (hrun.append hpath))

end DfshaGarbageCollector
