import Dfsha.ReReplicatorProofs
import Dfsha.ReferencedBlocksProofs

/-! # What a repair drops

    A repair replaces the replicas of a block that are not on a live DataNode.
    A DataNode that has just fallen may be restarting, so the cycle asks how
    long each of them has been failing and leaves the block for later when
    that is less than the delay.

    The monitor answers `None` for an address it does not know, whose copies
    have to be replaced, and also for one that is alive again.  The live
    addresses are read once, before the copies, so an address that answers a
    ping between that reading and the question is taken for one that was
    removed long ago.  An address that answers no ping from that reading until
    the repair is applied was failing for the whole delay, and fails still. -/

namespace DfshaRepairDelay

open TransitionSystem TransitionSystem.System NamedTree
open DfshaPath DfshaControlTree DfshaMetadata DfshaControlTreeEffect
open DfshaReplicatedTree DfshaReReplicator

/-! ## What the probes say -/

/-- Since when `a` fails, after these probes. -/
def failingSince (a : String) : List Probe → Option Time
  | [] => none
  | p :: earlier =>
      if p.address = a then
        if p.answered then none else some ((failingSince a earlier).getD p.time)
      else failingSince a earlier

/-- How many of these probes `a` has answered. -/
def answers (a : String) (probes : List Probe) : Nat :=
  probes.countP fun p => p.address = a ∧ p.answered

/-- At `now`, `a` has been failing every ping for `d` or longer. -/
def FailingFor (a : String) (probes : List Probe) (now d : Time) : Prop :=
  ∃ first later earlier, probes = later ++ first :: earlier ∧
    first.address = a ∧ first.answered = false ∧ d ≤ now - first.time ∧
    ∀ p ∈ later, p.address = a → p.answered = false

/-- A time since when `a` fails is that of a failed probe, with no answer after it. -/
theorem exists_of_failingSince {a : String} {probes : List Probe} {t : Time}
    (h : failingSince a probes = some t) :
    ∃ first later earlier, probes = later ++ first :: earlier ∧
      first.address = a ∧ first.answered = false ∧ first.time = t ∧
      ∀ p ∈ later, p.address = a → p.answered = false := by
  induction probes with
  | nil => cases h
  | cons p earlier ih =>
      rw [failingSince] at h
      by_cases ha : p.address = a
      · rw [if_pos ha] at h
        cases hanswered : p.answered with
        | true =>
            rw [if_pos hanswered] at h
            cases h
        | false =>
            rw [if_neg (ne_true_of_eq_false hanswered)] at h
            have htime := Option.some.inj h
            cases hbefore : failingSince a earlier with
            | none =>
                rw [hbefore] at htime
                exact ⟨p, [], earlier, rfl, ha, hanswered, htime,
                  fun _ hmem => absurd hmem List.not_mem_nil⟩
            | some t' =>
                rw [hbefore] at htime
                obtain ⟨first, later, rest, hsplit, haddr, hfailed, hfirst, hlater⟩ :=
                  ih (hbefore.trans (congrArg some htime))
                refine ⟨first, p :: later, rest, ?_, haddr, hfailed, hfirst, ?_⟩
                · rw [hsplit, List.cons_append]
                · intro q hq hqa
                  rcases List.mem_cons.mp hq with rfl | hq
                  · exact hanswered
                  · exact hlater q hq hqa
      · rw [if_neg ha] at h
        obtain ⟨first, later, rest, hsplit, haddr, hfailed, hfirst, hlater⟩ := ih h
        refine ⟨first, p :: later, rest, ?_, haddr, hfailed, hfirst, ?_⟩
        · rw [hsplit, List.cons_append]
        · intro q hq hqa
          rcases List.mem_cons.mp hq with rfl | hq
          · exact absurd hqa ha
          · exact hlater q hq hqa

/-- Later probes have no fewer answers. -/
theorem answers_mono {a : String} {probes probes' : List Probe}
    (h : probes <:+ probes') : answers a probes ≤ answers a probes' :=
  h.sublist.countP_le

/-- Without an answer, what fails goes on failing since the same time. -/
theorem failingSince_of_silent {a : String} {probes probes' : List Probe} {t : Time}
    (hlater : probes <:+ probes') (hsilent : answers a probes' = answers a probes)
    (h : failingSince a probes = some t) : failingSince a probes' = some t := by
  obtain ⟨new, rfl⟩ := hlater
  induction new with
  | nil => exact h
  | cons p new ih =>
      have hle : answers a probes ≤ answers a (new ++ probes) :=
        answers_mono (List.suffix_append _ _)
      rw [List.cons_append, answers, List.countP_cons, ← answers] at hsilent
      have hrest := ih (by omega)
      rw [List.cons_append, failingSince]
      by_cases ha : p.address = a
      · rw [if_pos ha]
        cases hanswered : p.answered with
        | true =>
            rw [if_pos (decide_eq_true (And.intro ha hanswered))] at hsilent
            omega
        | false =>
            rw [if_neg (by decide), hrest]
            rfl
      · rw [if_neg ha]
        exact hrest

/-! ## What the monitor knows -/

/-- The state of the monitor is what its probes say. -/
structure Recorded (m : Monitor) : Prop where
  deadSince : ∀ a, m.deadSince a = failingSince a m.probes
  dead : ∀ a, m.alive a = false → m.deadSince a ≠ none
  times : ∀ p ∈ m.probes, p.time ≤ m.clock
  failure : ∀ a t, m.failure = some (a, t) → t ≤ m.clock

theorem recorded_new : Recorded Monitor.new where
  deadSince := fun _ => rfl
  dead := fun _ h => by cases h
  times := fun _ h => absurd h List.not_mem_nil
  failure := fun _ _ h => by cases h

/-- Recording a probe keeps what the others have said. -/
theorem deadSince_record {m : Monitor} (h : ∀ a, m.deadSince a = failingSince a m.probes)
    (p : Probe) (a : String) :
    Function.update m.deadSince p.address
        (if p.answered then none else some ((m.deadSince p.address).getD p.time)) a
      = failingSince a (p :: m.probes) := by
  rw [failingSince]
  by_cases ha : p.address = a
  · rw [if_pos ha, ← ha, Function.update_self, h]
  · rw [if_neg ha, Function.update_of_ne (Ne.symm ha), h]

theorem recorded_next {c : Config} {m m' : Monitor} {e : MonitorEvent}
    (hm : Recorded m) (h : m.next c e = some m') :
    Recorded m' ∧ m.probes <:+ m'.probes := by
  cases e with
  | tick now =>
      rw [Monitor.next] at h
      by_cases hnow : m.clock ≤ now
      · rw [if_pos hnow] at h
        obtain rfl := Option.some.inj h
        exact ⟨⟨hm.deadSince, hm.dead, fun p hp => (hm.times p hp).trans hnow,
          fun a t hf => (hm.failure a t hf).trans hnow⟩, List.suffix_rfl⟩
      · rw [if_neg hnow] at h
        cases h
  | pingOk a =>
      rw [Monitor.next] at h
      by_cases hidle : a ∈ c.addresses ∧ m.failure = none
      · rw [if_pos hidle] at h
        obtain rfl := Option.some.inj h
        refine ⟨⟨?_, ?_, ?_, hm.failure⟩, List.suffix_cons _ _⟩
        · exact fun b => deadSince_record hm.deadSince ⟨a, true, m.clock⟩ b
        · intro b hb
          change Function.update m.alive a true b = false at hb
          show Function.update m.deadSince a none b ≠ none
          by_cases hba : b = a
          · rw [hba, Function.update_self] at hb
            cases hb
          · rw [Function.update_of_ne hba] at hb ⊢
            exact hm.dead b hb
        · intro p hp
          rcases List.mem_cons.mp hp with rfl | hp
          · exact le_rfl
          · exact hm.times p hp
      · rw [if_neg hidle] at h
        cases h
  | pingFailed a =>
      rw [Monitor.next] at h
      by_cases hidle : a ∈ c.addresses ∧ m.failure = none
      · rw [if_pos hidle] at h
        obtain rfl := Option.some.inj h
        refine ⟨⟨hm.deadSince, hm.dead, hm.times, ?_⟩, List.suffix_rfl⟩
        intro b t hf
        obtain ⟨_, rfl⟩ := Prod.mk.inj (Option.some.inj hf)
        exact le_rfl
      · rw [if_neg hidle] at h
        cases h
  | recordFailure =>
      rw [Monitor.next] at h
      cases hfailure : m.failure with
      | none =>
          rw [hfailure] at h
          cases h
      | some e =>
          obtain ⟨a, now⟩ := e
          rw [hfailure] at h
          obtain rfl := Option.some.inj h
          refine ⟨⟨?_, ?_, ?_, fun _ _ hf => by cases hf⟩, List.suffix_cons _ _⟩
          · exact fun b => deadSince_record hm.deadSince ⟨a, false, now⟩ b
          · intro b hb
            show Function.update m.deadSince a _ b ≠ none
            by_cases hba : b = a
            · rw [hba, Function.update_self]
              exact Option.some_ne_none _
            · rw [Function.update_of_ne hba]
              refine hm.dead b ?_
              change (if _ then Function.update m.alive a false else m.alive) b = false at hb
              split at hb
              · rwa [Function.update_of_ne hba] at hb
              · exact hb
          · intro p hp
            rcases List.mem_cons.mp hp with rfl | hp
            · exact hm.failure a now hfailure
            · exact hm.times p hp

/-! ## What the cycle knows -/

/-- A delay check that did not stop the repair. -/
structure Passed (c : Config) (readAt probes : List Probe) (k : Check) : Prop where
  since : k.since = failingSince k.address k.probes
  delay : ∀ t, k.since = some t → c.delayS ≤ max 0 (k.now - t)
  times : ∀ p ∈ k.probes, p.time ≤ k.now
  later : readAt <:+ k.probes
  recorded : k.probes <:+ probes

/-- What a cycle with these live addresses and these checks relies on. -/
structure Watched (c : Config) (alive : List String) (readAt probes : List Probe)
    (checks : List Check) : Prop where
  recorded : readAt <:+ probes
  absent : ∀ a ∈ c.addresses, a ∉ alive → failingSince a readAt ≠ none
  passed : ∀ k ∈ checks, Passed c readAt probes k

/-- Every missing replica has been checked or is still to be. -/
def Covers (alive : List String) (item : Item) (todo : List String) : Prop :=
  ∀ a ∈ item.expected, a ∉ alive → a ∈ todo ∨ ∃ k ∈ item.checks, k.address = a

/-- A repair with all its checks made. -/
structure Decided (c : Config) (probes : List Probe) (r : Repair) : Prop where
  watched : Watched c r.alive r.readAt probes r.checks
  kept : ∀ a ∈ r.expected, a ∈ r.alive → a ∈ r.new
  checked : ∀ a ∈ r.expected, a ∉ r.alive → ∃ k ∈ r.checks, k.address = a

def PhaseInv (c : Config) (probes : List Probe) : Phase → Prop
  | .idle | .leading | .snapshotted _ => True
  | .scanning scan => Watched c scan.alive scan.readAt probes []
  | .checking scan item todo =>
      Watched c scan.alive scan.readAt probes item.checks ∧ Covers scan.alive item todo
  | .timing scan item a since seen todo =>
      Watched c scan.alive scan.readAt probes item.checks ∧
      Covers scan.alive item (a :: todo) ∧ some since = failingSince a seen ∧
      scan.readAt <:+ seen ∧ seen <:+ probes
  | .copying scan item _ _ =>
      Watched c scan.alive scan.readAt probes item.checks ∧ Covers scan.alive item []
  | .committing scan repair _ =>
      Watched c scan.alive scan.readAt probes [] ∧ Decided c probes repair

section Grow

variable {c : Config} {alive : List String} {readAt probes probes' : List Probe}
  {checks : List Check}

theorem Watched.mono (h : Watched c alive readAt probes checks) (hp : probes <:+ probes') :
    Watched c alive readAt probes' checks where
  recorded := h.recorded.trans hp
  absent := h.absent
  passed := by
    intro k hk
    have hpassed := h.passed k hk
    exact { hpassed with recorded := hpassed.recorded.trans hp }

/-- The next block starts without checks. -/
theorem Watched.forget (h : Watched c alive readAt probes checks) :
    Watched c alive readAt probes [] :=
  ⟨h.recorded, h.absent, fun _ hk => absurd hk List.not_mem_nil⟩

theorem Watched.add {k : Check} (h : Watched c alive readAt probes checks)
    (hk : Passed c readAt probes k) : Watched c alive readAt probes (k :: checks) := by
  refine ⟨h.recorded, h.absent, fun k' hk' => ?_⟩
  rcases List.mem_cons.mp hk' with rfl | hk'
  · exact hk
  · exact h.passed k' hk'

theorem Decided.mono {r : Repair} (h : Decided c probes r) (hp : probes <:+ probes') :
    Decided c probes' r :=
  ⟨h.watched.mono hp, h.kept, h.checked⟩

theorem PhaseInv.mono {ph : Phase} (h : PhaseInv c probes ph) (hp : probes <:+ probes') :
    PhaseInv c probes' ph := by
  cases ph with
  | idle | leading | snapshotted => trivial
  | scanning => exact Watched.mono h hp
  | checking => exact ⟨h.1.mono hp, h.2⟩
  | timing => exact ⟨h.1.mono hp, h.2.1, h.2.2.1, h.2.2.2.1, h.2.2.2.2.trans hp⟩
  | copying => exact ⟨h.1.mono hp, h.2⟩
  | committing => exact ⟨h.1.mono hp, h.2.mono hp⟩

theorem Covers.check {item : Item} {a : String} {todo : List String} {k : Check}
    (h : Covers alive item (a :: todo)) (hk : k.address = a) :
    Covers alive { item with checks := k :: item.checks } todo := by
  intro b hb habsent
  rcases h b hb habsent with hmem | ⟨k', hk', hb'⟩
  · rcases List.mem_cons.mp hmem with rfl | hmem
    · exact .inr ⟨k, List.mem_cons_self, hk⟩
    · exact .inl hmem
  · exact .inr ⟨k', List.mem_cons_of_mem _ hk', hb'⟩

end Grow

/-- A proposal has the checks of its block. -/
theorem decided_repairOf {c : Config} {probes : List Probe} {scan : Scan} {item : Item}
    {target opId : String} (h : Watched c scan.alive scan.readAt probes item.checks)
    (hcovers : Covers scan.alive item []) :
    Decided c probes (repairOf scan item target opId) where
  watched := h
  kept := fun _ ha halive => List.mem_append_left _
    (List.mem_filter.mpr ⟨ha, decide_eq_true halive⟩)
  checked := fun a ha halive =>
    (hcovers a ha halive).resolve_left List.not_mem_nil

/-- **ONE STEP OF THE CYCLE** keeps the checks it has made. -/
theorem phaseInv_step {c : Config} {m : Monitor} {tree : ControlTree} {ph ph' : Phase}
    {e : CycleEvent} (hm : Recorded m) (h : PhaseInv c m.probes ph)
    (hstep : CycleStep c m tree ph e ph') : PhaseInv c m.probes ph' := by
  cases hstep with
  | begin | takeSnapshot | ended | deposed => trivial
  | readAlive =>
      refine ⟨List.suffix_rfl, ?_, fun _ hk => absurd hk List.not_mem_nil⟩
      intro a ha halive
      rw [← hm.deadSince]
      refine hm.dead a ?_
      cases hval : m.alive a with
      | false => rfl
      | true => exact absurd (List.mem_filter.mpr ⟨ha, hval⟩) halive
  | skip => exact h
  | check =>
      refine ⟨h, fun a ha halive => .inl ?_⟩
      exact List.mem_filter.mpr ⟨ha, decide_eq_true halive⟩
  | readNone hsince =>
      refine ⟨h.1.add ⟨?_, ?_, hm.times, h.1.recorded, List.suffix_rfl⟩, h.2.check rfl⟩
      · rw [← hm.deadSince, hsince]
      · exact fun _ ht => by cases ht
  | readSince hsince =>
      refine ⟨h.1, h.2, ?_, h.1.recorded, List.suffix_rfl⟩
      rw [← hm.deadSince, hsince]
  | young => exact h.1.forget
  | old hold =>
      obtain ⟨hwatched, hcovers, hsince, hlater, hseen⟩ := h
      refine ⟨hwatched.add ⟨hsince, ?_, ?_, hlater, hseen⟩, hcovers.check rfl⟩
      · intro t ht
        rw [← Option.some.inj ht]
        exact hold
      · exact fun p hp => hm.times p (hseen.subset hp)
  | noTarget => exact h.1.forget
  | chosen => exact h
  | copied => exact ⟨h.1.forget, decided_repairOf h.1 h.2⟩
  | copyFailed => exact h
  | gaveUp => exact h.1.forget
  | propose => exact h
  | finish => exact h.1

/-! ## Runs -/

structure Inv (c : Config) (s : State) : Prop where
  monitor : Recorded s.monitor
  phase : PhaseInv c s.monitor.probes s.phase
  submitted : ∀ r ∈ s.submitted, Decided c s.monitor.probes r

theorem inv_init (c : Config) : Inv c State.init :=
  ⟨recorded_new, trivial, fun _ h => absurd h List.not_mem_nil⟩

/-- A proposal is the repair the cycle is committing. -/
theorem committing_of_proposed {ph : Phase} {e : CycleEvent} {r : Repair}
    (hr : r ∈ proposals ph e) : ∃ scan attempt, ph = .committing scan r attempt := by
  unfold proposals at hr
  split at hr
  · obtain rfl := List.mem_singleton.mp hr
    exact ⟨_, _, rfl⟩
  · exact absurd hr List.not_mem_nil

theorem decided_of_proposed {c : Config} {probes : List Probe} {ph : Phase} {e : CycleEvent}
    {r : Repair} (h : PhaseInv c probes ph) (hr : r ∈ proposals ph e) :
    Decided c probes r := by
  obtain ⟨scan, attempt, rfl⟩ := committing_of_proposed hr
  exact h.2

theorem inv_next {c : Config} {s s' : State} {e : Event} (hs : Inv c s)
    (h : next c s e = some s') : Inv c s' := by
  cases e with
  | monitor e =>
      obtain ⟨m, hm, rfl⟩ := Option.map_eq_some_iff.mp h
      obtain ⟨hrecorded, hp⟩ := recorded_next hs.monitor hm
      exact ⟨hrecorded, hs.phase.mono hp, fun r hr => (hs.submitted r hr).mono hp⟩
  | cycle e =>
      obtain ⟨ph, hph, rfl⟩ := Option.map_eq_some_iff.mp h
      refine ⟨hs.monitor, phaseInv_step hs.monitor hs.phase (cycleStep_of_next hph), ?_⟩
      intro r hr
      rcases List.mem_append.mp hr with hr | hr
      · exact hs.submitted r hr
      · exact decided_of_proposed hs.phase hr
  | apply r =>
      rw [next] at h
      by_cases hr : r ∈ s.submitted
      · rw [if_pos hr] at h
        obtain rfl := Option.some.inj h
        exact ⟨hs.monitor, hs.phase, hs.submitted⟩
      · rw [if_neg hr] at h
        cases h
  | command cmd =>
      obtain rfl := Option.some.inj h
      exact ⟨hs.monitor, hs.phase, hs.submitted⟩

theorem inv_run {c : Config} {es : List Event} {s : State} (h : (reReplicator c).Run es s) :
    Inv c s := by
  obtain ⟨s₀, rfl, hpath⟩ := h
  exact hpath.keeps (inv_init c) fun _ _ _ hs hstep => inv_next hs hstep

/-! ## What a repair takes out -/

/-- The replica list of a block of the file at `ps`. -/
def replicasOf (s : ControlTree) (ps : List String) (b : String) : Option (List String) :=
  match s.root.view ps with
  | some (.file f) =>
      (f.blocks.find? fun x => x.blockId = b).map BlockRecord.datanodeAddresses
  | _ => none

/-- The replica list of the block `b` has lost the address `a`. -/
def Drops (s s' : ControlTree) (b a : String) : Prop :=
  ∃ ps l l', replicasOf s ps b = some l ∧ replicasOf s' ps b = some l' ∧ a ∈ l ∧ a ∉ l'

theorem replicasOf_file {s : ControlTree} {ps : List String} {f : FileNode} (b : String)
    (h : s.root.view ps = some (.file f)) :
    replicasOf s ps b =
      (f.blocks.find? fun x => x.blockId = b).map BlockRecord.datanodeAddresses := by
  rw [replicasOf, h]

/-- At a path that has not changed, no list has lost an address. -/
theorem replicasOf_congr {s s' : ControlTree} {ps : List String} (b : String)
    (h : s'.root.view ps = s.root.view ps) : replicasOf s' ps b = replicasOf s ps b := by
  rw [replicasOf, replicasOf, h]

theorem not_drops_of_view {s s' : ControlTree} {b a : String}
    (h : s'.root.view = s.root.view) : ¬ Drops s s' b a := by
  rintro ⟨ps, l, l', hl, hl', ha, ha'⟩
  rw [replicasOf_congr b (congrFun h ps), hl] at hl'
  exact ha' (Option.some.inj hl' ▸ ha)

theorem find?_updateBlock {b : String} (b' : String) {g : BlockRecord → BlockRecord}
    {blocks blocks' : List BlockRecord} (hg : ∀ x, (g x).blockId = x.blockId)
    (h : updateBlock b g blocks = some blocks') :
    blocks'.find? (fun x => x.blockId = b') =
      (blocks.find? (fun x => x.blockId = b')).map fun x => if b' = b then g x else x := by
  induction blocks generalizing blocks' with
  | nil => cases h
  | cons x rest ih =>
      rw [updateBlock] at h
      by_cases hx : x.blockId = b
      · rw [if_pos hx] at h
        rw [← Option.some.inj h, List.find?_cons, List.find?_cons, hg]
        by_cases hb : x.blockId = b'
        · rw [decide_eq_true hb, Option.map_some, if_pos (hb.symm.trans hx)]
        · have hne : ¬ b' = b := fun heq => hb (hx.trans heq.symm)
          rw [decide_eq_false hb]
          simp only [if_neg hne, Option.map_id_fun', id_eq]
      · rw [if_neg hx] at h
        obtain ⟨rest', hrest, rfl⟩ := Option.map_eq_some_iff.mp h
        rw [List.find?_cons, List.find?_cons]
        by_cases hb : x.blockId = b'
        · rw [decide_eq_true hb, Option.map_some, if_neg fun h => hx (hb.trans h)]
        · rw [decide_eq_false hb]
          exact ih hrest

/-- **WHAT A REPAIR TAKES OUT** was in the list it expects and is not in the
    one it brings. -/
theorem expected_of_drops {s : ReplicatedTree} {r : Repair} {b a : String}
    (h : Drops s.tree (DfshaReplicatedTree.apply r.command s).2.tree b a) :
    b = r.blockId ∧ a ∈ r.expected ∧ a ∉ r.new := by
  have happlied := apply_applied r.command s
  revert h happlied
  generalize (DfshaReplicatedTree.apply r.command s).1 = o
  generalize (DfshaReplicatedTree.apply r.command s).2 = s'
  intro h happlied
  cases happlied with
  | cached => exact absurd h (not_drops_of_view rfl)
  | rejected hnew htree => exact absurd h (not_drops_of_view (by rw [htree]))
  | executed hnew hcall heffect =>
      obtain rfl := Call.mutation.inj hcall
      revert h
      generalize hm : metadata s.tree = m at heffect
      generalize hm' : metadata s'.tree = m' at heffect
      have hview : m.node = s.tree.root.view := by rw [← hm]; rfl
      have hview' : m'.node = s'.tree.root.view := by rw [← hm']; rfl
      cases heffect with
      | setAttrsDir _ _ hchange | setAttrsFile _ _ _ hchange => cases hchange
      | refused hpruned =>
          intro h
          exact absurd h (not_drops_of_view (by rw [← hview, ← hview', hpruned.node]))
      | @updateBlockReplicas _ _ _ _ _ ps f block blocks hparts hfile _ hfind hexpected
          hblocks =>
          rintro ⟨qs, l, l', hl, hl', ha, ha'⟩
          rw [hview] at hfile
          by_cases hq : qs = ps
          · have hfile' : s'.tree.root.view ps = some (.file { f with blocks }) := by
              rw [← hview']
              exact Function.update_self _ _ _
            rw [hq, replicasOf_file b hfile'] at hl'
            rw [hq] at hl
            have hafter := find?_updateBlock b (fun x => by rfl) hblocks
            rw [hafter] at hl'
            by_cases hb : b = r.blockId
            · rw [hb, replicasOf_file _ hfile, hfind] at hl
              rw [hb, hfind] at hl'
              simp only [Option.map_some, if_pos, Option.some.injEq] at hl hl'
              refine ⟨hb, ?_, ?_⟩
              · rwa [← hexpected, hl]
              · rwa [hl']
            · simp only [if_neg hb, Option.map_id_fun', id_eq] at hl'
              rw [replicasOf_file _ hfile, hl'] at hl
              exact absurd (Option.some.inj hl ▸ ha) ha'
          · have hsame : s'.tree.root.view qs = s.tree.root.view qs := by
              rw [← hview', ← hview]
              exact Function.update_of_ne hq _ _
            rw [replicasOf_congr b hsame, hl] at hl'
            exact absurd (Option.some.inj hl' ▸ ha) ha'

/-! ## Since the live addresses were read -/

/-- After an event `readAlive`, at which `readAt` were the probes, came `after`;
    and who has answered no ping in `after` has no more answers than then. -/
structure ReadSince (es : List Event) (probes readAt : List Probe) (after : List Event) :
    Prop where
  split : ∃ before, es = before ++ .cycle .readAlive :: after
  silent : ∀ a, .monitor (.pingOk a) ∉ after → answers a probes = answers a readAt

/-- The live addresses that the repair goes by were the last to be read before it
    was decided. -/
def Traced (es : List Event) (probes : List Probe) (r : Repair) : Prop :=
  ∃ deciding after,
    ReadSince es probes r.readAt (deciding ++ .cycle (.copied r.opId) :: after) ∧
      .cycle .readAlive ∉ deciding

/-- The variables of the loop, once it has begun. -/
def scanOf : Phase → Option Scan
  | .scanning scan | .checking scan _ _ | .timing scan _ _ _ _ _ | .copying scan _ _ _
  | .committing scan _ _ => some scan
  | .idle | .leading | .snapshotted _ => none

structure TraceInv (es : List Event) (s : State) : Prop where
  scan : ∀ scan, scanOf s.phase = some scan → ∃ after,
    ReadSince es s.monitor.probes scan.readAt after ∧ .cycle .readAlive ∉ after
  committing : ∀ scan r attempt, s.phase = .committing scan r attempt →
    Traced es s.monitor.probes r
  submitted : ∀ r ∈ s.submitted, Traced es s.monitor.probes r

section Trace

variable {c : Config} {es after : List Event} {probes probes' readAt : List Probe} {e : Event}
  {r : Repair} {s s' : State}

theorem ReadSince.next (h : ReadSince es probes readAt after)
    (hprobes : ∀ a, e ≠ .monitor (.pingOk a) → answers a probes' = answers a probes) :
    ReadSince (es ++ [e]) probes' readAt (after ++ [e]) := by
  obtain ⟨before, rfl⟩ := h.split
  refine ⟨⟨before, by rw [List.append_assoc, List.cons_append]⟩, fun a ha => ?_⟩
  rw [hprobes a fun he => ha (List.mem_append_right _ (List.mem_singleton.mpr he.symm))]
  exact h.silent a fun hmem => ha (List.mem_append_left _ hmem)

theorem Traced.next (h : Traced es probes r)
    (hprobes : ∀ a, e ≠ .monitor (.pingOk a) → answers a probes' = answers a probes) :
    Traced (es ++ [e]) probes' r := by
  obtain ⟨deciding, after, hread, hnone⟩ := h
  have hread' := hread.next hprobes
  rw [List.append_assoc, List.cons_append] at hread'
  exact ⟨deciding, after ++ [e], hread', hnone⟩

/-- **A PING THAT IS NOT ANSWERED IS NO ANSWER.** -/
theorem answers_next {m m' : Monitor} {e : MonitorEvent} (h : m.next c e = some m') {a : String}
    (he : e ≠ .pingOk a) : answers a m'.probes = answers a m.probes := by
  cases e with
  | tick now =>
      rw [Monitor.next] at h
      by_cases hnow : m.clock ≤ now
      · rw [if_pos hnow] at h
        rw [← Option.some.inj h]
      · rw [if_neg hnow] at h
        cases h
  | pingOk b =>
      rw [Monitor.next] at h
      by_cases hidle : b ∈ c.addresses ∧ m.failure = none
      · rw [if_pos hidle] at h
        rw [← Option.some.inj h]
        refine List.countP_cons_of_neg fun hanswered => he ?_
        exact congrArg MonitorEvent.pingOk (of_decide_eq_true hanswered).1
      · rw [if_neg hidle] at h
        cases h
  | pingFailed b =>
      rw [Monitor.next] at h
      by_cases hidle : b ∈ c.addresses ∧ m.failure = none
      · rw [if_pos hidle] at h
        rw [← Option.some.inj h]
      · rw [if_neg hidle] at h
        cases h
  | recordFailure =>
      rw [Monitor.next] at h
      cases hfailure : m.failure with
      | none =>
          rw [hfailure] at h
          cases h
      | some failed =>
          rw [hfailure] at h
          rw [← Option.some.inj h]
          exact List.countP_cons_of_neg fun hanswered => by simp at hanswered

/-- A step of the cycle reads the live addresses, or goes by those it has read. -/
theorem scanOf_step {m : Monitor} {tree : ControlTree} {ph ph' : Phase} {e : CycleEvent}
    (hstep : CycleStep c m tree ph e ph') {scan' : Scan} (hscan : scanOf ph' = some scan') :
    e = .readAlive ∧ scan'.readAt = m.probes ∨
      e ≠ .readAlive ∧ ∃ scan, scanOf ph = some scan ∧ scan'.readAt = scan.readAt := by
  cases hstep with
  | begin | takeSnapshot | ended | deposed => cases hscan
  | readAlive =>
      obtain rfl := Option.some.inj hscan
      exact .inl ⟨rfl, rfl⟩
  | skip | check | readNone | readSince | young | old | noTarget | chosen | copied
  | copyFailed | gaveUp | propose | finish =>
      obtain rfl := Option.some.inj hscan
      exact .inr ⟨nofun, _, rfl, rfl⟩

/-- A repair that is committed was being committed, or has just been decided. -/
theorem committing_step {m : Monitor} {tree : ControlTree} {ph : Phase} {e : CycleEvent}
    {scan : Scan} {attempt : Nat} (hstep : CycleStep c m tree ph e (.committing scan r attempt)) :
    (∃ attempt', ph = .committing scan r attempt') ∨
      e = .copied r.opId ∧ ∃ scan₀, scanOf ph = some scan₀ ∧ r.readAt = scan₀.readAt := by
  cases hstep with
  | copied => exact .inr ⟨rfl, _, rfl, rfl⟩
  | propose => exact .inl ⟨_, rfl⟩

theorem traceInv_step (hs : TraceInv es s) (h : DfshaReReplicator.next c s e = some s') :
    TraceInv (es ++ [e]) s' := by
  cases e with
  | monitor e =>
      obtain ⟨m, hm, rfl⟩ := Option.map_eq_some_iff.mp h
      have hprobes : ∀ a, Event.monitor e ≠ .monitor (.pingOk a) →
          answers a m.probes = answers a s.monitor.probes := fun a he =>
        answers_next hm fun heq => he (congrArg Event.monitor heq)
      refine ⟨fun scan hscan => ?_, fun scan r attempt hphase => ?_, fun r hr => ?_⟩
      · obtain ⟨after, hread, hnone⟩ := hs.scan scan hscan
        exact ⟨_, hread.next hprobes, by simpa using hnone⟩
      · exact (hs.committing scan r attempt hphase).next hprobes
      · exact (hs.submitted r hr).next hprobes
  | cycle e =>
      obtain ⟨ph, hph, rfl⟩ := Option.map_eq_some_iff.mp h
      have hstep := cycleStep_of_next hph
      have hprobes : ∀ a, Event.cycle e ≠ .monitor (.pingOk a) →
          answers a s.monitor.probes = answers a s.monitor.probes := fun _ _ => rfl
      refine ⟨fun scan' hscan => ?_, fun scan r attempt hphase => ?_, fun r hr => ?_⟩
      · rcases scanOf_step hstep hscan with ⟨rfl, hread⟩ | ⟨hne, scan, hscan₀, hread⟩
        · exact ⟨[], ⟨⟨es, rfl⟩, fun a _ => by rw [hread]⟩, List.not_mem_nil⟩
        · obtain ⟨after, hread₀, hnone⟩ := hs.scan scan hscan₀
          rw [← hread] at hread₀
          refine ⟨_, hread₀.next hprobes, fun hmem => ?_⟩
          rcases List.mem_append.mp hmem with hmem | hmem
          · exact hnone hmem
          · exact hne (Event.cycle.inj (List.mem_singleton.mp hmem)).symm
      · change ph = .committing scan r attempt at hphase
        rw [hphase] at hstep
        rcases committing_step hstep with ⟨attempt', hbefore⟩ | ⟨rfl, scan₀, hscan₀, hread⟩
        · exact (hs.committing scan r attempt' hbefore).next hprobes
        · obtain ⟨after, hread₀, hnone⟩ := hs.scan scan₀ hscan₀
          rw [← hread] at hread₀
          exact ⟨after, [], hread₀.next hprobes, hnone⟩
      · rcases List.mem_append.mp hr with hr | hr
        · exact (hs.submitted r hr).next hprobes
        · obtain ⟨scan, attempt, hphase⟩ := committing_of_proposed hr
          exact (hs.committing scan r attempt hphase).next hprobes
  | apply r =>
      rw [DfshaReReplicator.next] at h
      by_cases hr : r ∈ s.submitted
      · rw [if_pos hr] at h
        obtain rfl := Option.some.inj h
        refine ⟨fun scan hscan => ?_, fun scan r' attempt hphase => ?_, fun r' hr' => ?_⟩
        · obtain ⟨after, hread, hnone⟩ := hs.scan scan hscan
          exact ⟨_, hread.next fun _ _ => rfl, by simpa using hnone⟩
        · exact (hs.committing scan r' attempt hphase).next fun _ _ => rfl
        · exact (hs.submitted r' hr').next fun _ _ => rfl
      · rw [if_neg hr] at h
        cases h
  | command cmd =>
      obtain rfl := Option.some.inj h
      refine ⟨fun scan hscan => ?_, fun scan r attempt hphase => ?_, fun r hr => ?_⟩
      · obtain ⟨after, hread, hnone⟩ := hs.scan scan hscan
        exact ⟨_, hread.next fun _ _ => rfl, by simpa using hnone⟩
      · exact (hs.committing scan r attempt hphase).next fun _ _ => rfl
      · exact (hs.submitted r hr).next fun _ _ => rfl

theorem traceInv_run (h : (reReplicator c).Run es s) : TraceInv es s := by
  refine Run.invariant (I := TraceInv) h ?_ fun _ _ _ _ hs hstep => traceInv_step hs hstep
  rintro _ rfl
  exact ⟨fun _ hscan => (by cases hscan), fun _ _ _ hphase => (by cases hphase),
    fun _ hr => absurd hr List.not_mem_nil⟩

end Trace

/-- No ping of `a` has been answered since the cycle that decided the repair read
    the live addresses. -/
def NoAnswerSince (es : List Event) (r : Repair) (a : String) : Prop :=
  ∀ before deciding after,
    es = before ++ .cycle .readAlive :: deciding ++ .cycle (.copied r.opId) :: after →
    .cycle .readAlive ∉ deciding → .monitor (.pingOk a) ∉ deciding ++ after

/-- The delay check of the repair found the address unknown, or failing every
    ping for the whole delay; and now that the repair is applied it still
    fails. -/
def Justified (c : Config) (s : State) (r : Repair) (a : String) : Prop :=
  ∃ k ∈ r.checks, k.address = a ∧ (a ∉ c.addresses ∨
    FailingFor a k.probes k.now c.delayS ∧ FailingFor a s.monitor.probes k.now c.delayS)

/-- Who fails since the same time fails for as long. -/
theorem failingFor_of_failingSince {a : String} {probes : List Probe} {t now d : Time}
    (h : failingSince a probes = some t) (hd : d ≤ now - t) : FailingFor a probes now d := by
  obtain ⟨first, later, earlier, hsplit, haddr, hfailed, rfl, hlater⟩ :=
    exists_of_failingSince h
  exact ⟨first, later, earlier, hsplit, haddr, hfailed, hd, hlater⟩

/-- A check that was passed, by an address silent since the live ones were read. -/
theorem failingFor_of_passed {c : Config} {readAt probes : List Probe} {k : Check}
    (hk : Passed c readAt probes k) (hdead : failingSince k.address readAt ≠ none)
    (hsilent : answers k.address probes = answers k.address readAt) :
    FailingFor k.address k.probes k.now c.delayS ∧
      FailingFor k.address probes k.now c.delayS := by
  obtain ⟨t, ht⟩ := Option.ne_none_iff_exists'.mp hdead
  have hle₁ := answers_mono (a := k.address) hk.later
  have hle₂ := answers_mono (a := k.address) hk.recorded
  have hstill := failingSince_of_silent hk.later (by omega) ht
  have hnow := failingSince_of_silent hk.recorded (by omega) hstill
  obtain ⟨first, later, earlier, hsplit, _, _, hfirst, _⟩ := exists_of_failingSince hstill
  have hdelay := hk.delay t (hk.since.trans hstill)
  have htime : t ≤ k.now := by
    rw [← hfirst]
    refine hk.times first ?_
    rw [hsplit]
    exact List.mem_append_right _ List.mem_cons_self
  rw [max_eq_right (sub_nonneg.mpr htime)] at hdelay
  exact ⟨failingFor_of_failingSince hstill hdelay, failingFor_of_failingSince hnow hdelay⟩

/-- **NO RECOVERED NODE IS DROPPED** where it has answered no ping from the moment
    in which the cycle read the live addresses to the one in which the repair
    is applied: it was unknown to the monitor, or failing every ping for the
    whole delay, and it still is. -/
theorem dropped_was_dead {c : Config} {es : List Event} {s s' : State} {r : Repair}
    (h : (reReplicator c).Run es s) (hstep : (reReplicator c).step s (.apply r) s')
    {b a : String} (hdrops : Drops s.tree.tree s'.tree.tree b a)
    (hsilent : NoAnswerSince es r a) : b = r.blockId ∧ Justified c s r a := by
  change next c s (.apply r) = some s' at hstep
  rw [next] at hstep
  by_cases hr : r ∈ s.submitted
  · rw [if_pos hr] at hstep
    obtain rfl := Option.some.inj hstep
    obtain ⟨hb, hexpected, hnew⟩ := expected_of_drops hdrops
    obtain ⟨deciding, after, hread, hnone⟩ := (traceInv_run h).submitted r hr
    obtain ⟨before, hsplit⟩ := hread.split
    have hquiet := hsilent before deciding after
      (by rw [hsplit, List.append_assoc, List.cons_append]) hnone
    have hanswers := hread.silent a fun hmem => by
      rcases List.mem_append.mp hmem with hmem | hmem
      · exact hquiet (List.mem_append_left _ hmem)
      · exact hquiet (List.mem_append_right _ ((List.mem_cons.mp hmem).resolve_left nofun))
    have hdecided := (inv_run h).submitted r hr
    have habsent : a ∉ r.alive := fun halive => hnew (hdecided.kept a hexpected halive)
    obtain ⟨k, hk, rfl⟩ := hdecided.checked a hexpected habsent
    refine ⟨hb, k, hk, rfl, ?_⟩
    by_cases hknown : k.address ∈ c.addresses
    · exact .inr (failingFor_of_passed (hdecided.watched.passed k hk)
        (hdecided.watched.absent _ hknown habsent) hanswers)
    · exact .inl hknown
  · rw [if_neg hr] at hstep
    cases hstep

/-! ## Three DataNodes, a block at the first two -/

def threeNodes : Config where
  addresses := ["n1", "n2", "n3"]
  deadAfterS := 6
  replicationFactor := 2
  delayS := 30
  maxPerCycle := 4
  maxAttempts := 3
  deadAfter_pos := by decide +kernel
  factor_pos := by decide
  delay_nonneg := by decide +kernel
  perCycle_pos := by decide
  attempts_pos := by decide

/-- The file is uploaded; `n2` fails at 0 and at 6, when it stops being eligible. -/
def fallen : List Event :=
  [ .command ⟨"op-1", .mutation (.beginUpload "/f" [("b1", ["n1", "n2"])]
      (some 0) (some 10) (some 4) none)⟩
  , .command ⟨"op-2", .mutation (.confirmBlock "/f" "b1" "sum" 4 (some 0) (some 10) none)⟩
  , .command ⟨"op-3", .mutation (.completeUpload "/f" none)⟩
  , .monitor (.pingFailed "n2"), .monitor .recordFailure
  , .monitor (.tick 6), .monitor (.pingFailed "n2"), .monitor .recordFailure ]

/-- The cycle reaches the block and repairs it with `n3`. -/
def repairSteps : List Event :=
  [ .cycle (.look false), .cycle .readDeadSince, .cycle .readClock
  , .cycle (.chooseTarget true), .cycle (.copied "op-r"), .cycle .propose ]

/-- The cycle runs at 36. -/
def lateCycle : List Event :=
  fallen ++ [.monitor (.tick 36), .cycle .begin, .cycle .takeSnapshot, .cycle .readAlive]
    ++ repairSteps

def fallenProbes : List Probe := [⟨"n2", false, 6⟩, ⟨"n2", false, 0⟩]

def lateRepair : Repair where
  opId := "op-r"
  path := "/f"
  blockId := "b1"
  expected := ["n1", "n2"]
  new := ["n1", "n3"]
  alive := ["n1", "n3"]
  readAt := fallenProbes
  checks := [⟨"n2", some 0, 36, fallenProbes⟩]

/-- What the two runs below are looked at for. -/
def observed (r : Repair) (s : State) :
    List Repair × List Probe × Option (List String) × Option (List String) :=
  (s.submitted, s.monitor.probes, replicasOf s.tree.tree ["f"] "b1",
    replicasOf (DfshaReplicatedTree.apply r.command s.tree).2.tree ["f"] "b1")

theorem step_apply_of_submitted {c : Config} {s : State} {r : Repair}
    (h : r ∈ s.submitted) : (reReplicator c).step s (.apply r)
      { s with tree := (DfshaReplicatedTree.apply r.command s.tree).2 } := by
  show next c s (.apply r) = _
  rw [next, if_pos h]

/-- A node that has been failing for thirty-six seconds is dropped. -/
theorem dropped_was_dead_late :
    ∃ (es : List Event) (s s' : State),
      (reReplicator threeNodes).Run es s ∧
      (reReplicator threeNodes).step s (.apply lateRepair) s' ∧
      Drops s.tree.tree s'.tree.tree "b1" "n2" ∧ NoAnswerSince es lateRepair "n2" ∧
      Justified threeNodes s lateRepair "n2" := by
  have hseen : (steps (next threeNodes) State.init lateCycle).map (observed lateRepair) =
      some ([lateRepair], fallenProbes, some ["n1", "n2"], some ["n1", "n3"]) := by
    decide +kernel
  obtain ⟨s, hs, hview⟩ := Option.map_eq_some_iff.mp hseen
  obtain ⟨hsubmitted, hrest⟩ := Prod.mk.inj hview
  obtain ⟨_, hrest⟩ := Prod.mk.inj hrest
  obtain ⟨hbefore, hafter⟩ := Prod.mk.inj hrest
  have hrun : (reReplicator threeNodes).Run lateCycle s := run_of_steps hs
  have hstep := step_apply_of_submitted (c := threeNodes)
    (hsubmitted ▸ List.mem_singleton_self lateRepair : lateRepair ∈ s.submitted)
  have hsilent : NoAnswerSince lateCycle lateRepair "n2" := by
    intro before deciding after hsplit _ hmem
    -- it has answered no ping at all
    have hall : .monitor (.pingOk "n2") ∈ lateCycle := by
      rw [hsplit, List.append_assoc, List.cons_append]
      refine List.mem_append_right _ (List.mem_cons_of_mem _ ?_)
      rcases List.mem_append.mp hmem with hmem | hmem
      · exact List.mem_append_left _ hmem
      · exact List.mem_append_right _ (List.mem_cons_of_mem _ hmem)
    simp [lateCycle, fallen, repairSteps] at hall
  have hdrops : Drops s.tree.tree
      (DfshaReplicatedTree.apply lateRepair.command s.tree).2.tree "b1" "n2" :=
    ⟨["f"], _, _, hbefore, hafter, by decide, by decide⟩
  exact ⟨lateCycle, s, _, hrun, hstep, hdrops, hsilent,
    (dropped_was_dead hrun hstep hdrops hsilent).2⟩

/-- The cycle runs at 6, and `n2` answers a ping once the live addresses are read. -/
def overtakenCycle : List Event :=
  fallen ++ [.cycle .begin, .cycle .takeSnapshot, .cycle .readAlive,
    .monitor (.pingOk "n2"), .cycle (.look false), .cycle .readDeadSince,
    .cycle (.chooseTarget true), .cycle (.copied "op-r"), .cycle .propose]

def recoveredProbes : List Probe := ⟨"n2", true, 6⟩ :: fallenProbes

def overtakenRepair : Repair :=
  { lateRepair with checks := [⟨"n2", none, 6, recoveredProbes⟩] }

/-- What fails for a while has a time since when it fails. -/
theorem failingSince_ne_none {a : String} {probes : List Probe} {now d : Time}
    (h : FailingFor a probes now d) : failingSince a probes ≠ none := by
  obtain ⟨first, later, earlier, rfl, ha, hfailed, _, hlater⟩ := h
  induction later with
  | nil =>
      rw [List.nil_append, failingSince, if_pos ha, if_neg (ne_true_of_eq_false hfailed)]
      exact Option.some_ne_none _
  | cons p later ih =>
      rw [List.cons_append, failingSince]
      by_cases hp : p.address = a
      · rw [if_pos hp, if_neg (ne_true_of_eq_false (hlater p List.mem_cons_self hp))]
        exact Option.some_ne_none _
      · rw [if_neg hp]
        exact ih fun q hq => hlater q (List.mem_cons_of_mem _ hq)

/-- `n2` is alive again when its delay is checked, and is dropped. -/
theorem recovered_node_is_dropped :
    ∃ (es : List Event) (s s' : State), (reReplicator threeNodes).Run es s ∧
      (reReplicator threeNodes).step s (.apply overtakenRepair) s' ∧
      Drops s.tree.tree s'.tree.tree "b1" "n2" ∧
      (∀ k ∈ overtakenRepair.checks,
        "n2" ∈ threeNodes.addresses ∧ ¬ FailingFor "n2" k.probes k.now threeNodes.delayS) ∧
      ¬ Justified threeNodes s overtakenRepair "n2" := by
  have hseen :
      (steps (next threeNodes) State.init overtakenCycle).map (observed overtakenRepair) =
      some ([overtakenRepair], recoveredProbes, some ["n1", "n2"], some ["n1", "n3"]) := by
    decide +kernel
  obtain ⟨s, hs, hview⟩ := Option.map_eq_some_iff.mp hseen
  obtain ⟨hsubmitted, hrest⟩ := Prod.mk.inj hview
  obtain ⟨hprobes, hrest⟩ := Prod.mk.inj hrest
  obtain ⟨hbefore, hafter⟩ := Prod.mk.inj hrest
  have hstep := step_apply_of_submitted (c := threeNodes)
    (hsubmitted ▸ List.mem_singleton_self overtakenRepair : overtakenRepair ∈ s.submitted)
  have halive : ∀ k ∈ overtakenRepair.checks,
      "n2" ∈ threeNodes.addresses ∧
      ¬ FailingFor "n2" k.probes k.now threeNodes.delayS := by
    intro k hk
    obtain rfl := List.mem_singleton.mp hk
    exact ⟨by decide, fun hfailing =>
      failingSince_ne_none hfailing (by decide +kernel)⟩
  refine ⟨overtakenCycle, s, _, run_of_steps hs, hstep,
    ⟨["f"], _, _, hbefore, hafter, by decide, by decide⟩, halive, ?_⟩
  rintro ⟨k, hk, _, hunknown | ⟨hfailing, _⟩⟩
  · exact hunknown (halive k hk).1
  · exact (halive k hk).2 hfailing

end DfshaRepairDelay
