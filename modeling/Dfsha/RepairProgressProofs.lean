import Mathlib.Data.List.Flatten
import Dfsha.QuotaScanProofs
import Dfsha.BlockFailoverProofs
import Dfsha.BlockOwnershipProofs
import Dfsha.ListingProofs
import Dfsha.ReReplicatorProofs

/-! # What repeated re-replication cycles reach

    The re-replicator on its own: the live DataNodes do not change, a copy of
    a block from one DataNode to another gives the same result whenever it is
    tried, every dead replica is past the delay, the leader stays and no other
    mutation comes in.  Then a cycle is a function of the tree.

    A cycle tries a block with the first live DataNode that has no replica,
    and no other, and an attempt counts against the quota of the cycle also
    when it fails.  So a block stays under-replicated if that DataNode cannot
    be copied to, though another one could, and so does a block behind so many
    of these that they use up the quota. -/

namespace DfshaRepairProgress

open NamedTree RaisingAction TransitionSystem DfshaPath DfshaControlTree DfshaMetadata
open DfshaControlTreeEffect DfshaReplicatedTree Ownership DfshaBlockOwnership
open DfshaReReplicator DfshaBlockFailover

/-! ## The cycle as a function -/

/-- The result of `ReplicateBlock`. -/
inductive Reply where
  | checksum (checksum : String)
  | failed (code : StatusCode)
deriving DecidableEq

/-- What stays fixed: the live addresses, for how long the others are dead,
    the results of the copies by block, source and target, and the
    configuration. -/
structure Setting where
  alive : List String
  deadFor : String → Option Time
  replies : String → String → String → Reply
  replicationFactor : Nat
  maxPerCycle : Nat
  maxAttempts : Nat
  delayS : Time
  factor_pos : 1 ≤ replicationFactor
  perCycle_pos : 1 ≤ maxPerCycle
  attempts_pos : 1 ≤ maxAttempts
  past_delay : ∀ a, a ∉ alive → ∀ seconds, deadFor a = some seconds → delayS ≤ seconds

/-- `_replicate`, with the attempts that are left. -/
def replicate (reply : Reply) (expectedChecksum : String) : Nat → Bool
  | 0 => false
  | attempts + 1 =>
      match reply with
      | .checksum checksum => checksum = expectedChecksum
      | .failed code =>
          if code ≠ .unavailable ∧ code ≠ .deadlineExceeded then false
          else replicate reply expectedChecksum attempts

/-- `_commit_replicas`: the leader is stable, so the operation is applied. -/
def commitReplicas (path blockId : String) (expected new : List String)
    (tree : ControlTree) : ControlTree :=
  (exec (.updateBlockReplicas path blockId expected new) tree).2

namespace Setting

variable (e : Setting)

/-- Dead for less than the delay; `None` counts as dead for ever. -/
def recent (a : String) : Bool :=
  match e.deadFor a with
  | none => false
  | some seconds => seconds < e.delayS

/-- A missing replica has not been dead long enough. -/
def waits (expected : List String) : Bool :=
  expected.any fun a => a ∉ e.alive ∧ e.recent a

/-- Some source has the block copied to the target. -/
def takes (blockId expectedChecksum : String) (sources : List String) (target : String) :
    Bool :=
  sources.any fun source =>
    replicate (e.replies blockId source target) expectedChecksum e.maxAttempts

/-- The body of the `try`. -/
def repair (path : String) (block : BlockRecord) (live : List String) (target : String)
    (tree : ControlTree) : ControlTree :=
  if e.takes block.blockId block.checksum live target then
    commitReplicas path block.blockId block.datanodeAddresses (live ++ [target]) tree
  else tree

/-- The loop of `run_cycle`. -/
def scan : List (String × BlockRecord) → Nat → ControlTree → ControlTree
  | [], _, tree => tree
  | (path, block) :: rest, completed, tree =>
      if e.maxPerCycle ≤ completed then tree
      else
        let expected := block.datanodeAddresses
        let live := liveReplicas e.alive expected
        if e.replicationFactor ≤ live.length then scan rest completed tree
        else if live = [] then scan rest completed tree
        else if e.waits expected then scan rest completed tree
        else match firstTarget e.alive expected with
          | none => scan rest completed tree
          | some target => scan rest (completed + 1) (e.repair path block live target tree)

def runCycle (tree : ControlTree) : ControlTree := e.scan (iterBlocks tree) 0 tree

/-- The block has too few live replicas, one of them, and a live DataNode that
    is not in its list and that it is copied to with the right checksum. -/
def Repairable (block : BlockRecord) : Prop :=
  (liveReplicas e.alive block.datanodeAddresses).length < e.replicationFactor ∧
    ∃ source ∈ liveReplicas e.alive block.datanodeAddresses,
      ∃ target ∈ e.alive, target ∉ block.datanodeAddresses ∧
        e.replies block.blockId source target = .checksum block.checksum

/-! ## A block on its own -/

/-- Copy a block to the first live DataNode without a replica, again and
    again: the replicas when that fails for the first time, and the DataNode
    that refuses. -/
def refusal (blockId checksum : String) : Nat → List String → Option (List String × String)
  | 0, _ => none
  | missing + 1, replicas =>
      match firstTarget e.alive replicas with
      | none => none
      | some target =>
          if e.takes blockId checksum replicas target then
            refusal blockId checksum missing (replicas ++ [target])
          else some (replicas, target)

/-- The first refusal on the way to the replication factor. -/
def firstRefusal (block : BlockRecord) : Option (List String × String) :=
  let live := liveReplicas e.alive block.datanodeAddresses
  if live = [] then none
  else e.refusal block.blockId block.checksum (e.replicationFactor - live.length) live

/-- Where the block is refused for the first time, every other live DataNode
    without a replica refuses it as well. -/
def RefusedByAll (block : BlockRecord) : Prop :=
  ∀ replicas refusing, e.firstRefusal block = some (replicas, refusing) →
    ∀ target ∈ e.alive, target ∉ replicas →
      e.takes block.blockId block.checksum replicas target = false

/-- The block has too few live replicas, and its first copy is made. -/
def Begins (block : BlockRecord) : Prop :=
  (liveReplicas e.alive block.datanodeAddresses).length < e.replicationFactor ∧
    ∃ target, firstTarget e.alive block.datanodeAddresses = some target ∧
      e.takes block.blockId block.checksum
        (liveReplicas e.alive block.datanodeAddresses) target = true

end Setting

/-! ## Replies and replicas -/

/-- Trying again changes nothing: the reply is what counts. -/
theorem replicate_iff {reply : Reply} {checksum : String} {attempts : Nat}
    (h : 1 ≤ attempts) : replicate reply checksum attempts = true ↔ reply = .checksum checksum := by
  induction attempts with
  | zero => omega
  | succ n ih =>
      cases reply with
      | checksum c =>
          rw [replicate, decide_eq_true_eq]
          exact ⟨fun heq => heq ▸ rfl, Reply.checksum.inj⟩
      | failed code =>
          rw [replicate]
          by_cases hcode : code ≠ .unavailable ∧ code ≠ .deadlineExceeded
          · rw [if_pos hcode]
            exact iff_of_false Bool.false_ne_true fun heq => by cases heq
          · rw [if_neg hcode]
            cases n with
            | zero => exact iff_of_false Bool.false_ne_true fun heq => by cases heq
            | succ n => exact ih (by omega)

theorem takes_iff {e : Setting} {blockId checksum target : String} {sources : List String} :
    e.takes blockId checksum sources target = true ↔
      ∃ source ∈ sources, e.replies blockId source target = .checksum checksum := by
  rw [Setting.takes, List.any_eq_true]
  constructor
  · rintro ⟨source, hsource, h⟩
    exact ⟨source, hsource, (replicate_iff e.attempts_pos).mp h⟩
  · rintro ⟨source, hsource, h⟩
    exact ⟨source, hsource, (replicate_iff e.attempts_pos).mpr h⟩

theorem mem_liveReplicas {alive expected : List String} {a : String} :
    a ∈ liveReplicas alive expected ↔ a ∈ expected ∧ a ∈ alive := by
  rw [liveReplicas, List.mem_filter, decide_eq_true_eq]

/-- A list of live replicas with a live target is all live. -/
theorem liveReplicas_concat {alive expected : List String} {target : String}
    (h : target ∈ alive) :
    liveReplicas alive (liveReplicas alive expected ++ [target])
      = liveReplicas alive expected ++ [target] := by
  refine List.filter_eq_self.mpr fun a ha => decide_eq_true ?_
  rcases List.mem_append.mp ha with hlive | htarget
  · exact (mem_liveReplicas.mp hlive).2
  · rw [List.mem_singleton.mp htarget]
    exact h

/-- Dead replicas do not matter for the target. -/
theorem firstTarget_liveReplicas (alive expected : List String) :
    firstTarget alive (liveReplicas alive expected) = firstTarget alive expected := by
  rw [firstTarget, firstTarget, ← List.head?_filter, ← List.head?_filter]
  refine congrArg List.head? (List.filter_congr fun a ha => ?_)
  rw [decide_eq_decide, mem_liveReplicas]
  exact ⟨fun h hmem => h ⟨hmem, ha⟩, fun h hmem => h hmem.1⟩

theorem firstTarget_eq_none {alive expected : List String}
    (h : firstTarget alive expected = none) : ∀ a ∈ alive, a ∈ expected := by
  intro a ha
  have hnot := List.find?_eq_none.mp h a ha
  rwa [decide_eq_true_eq, not_not] at hnot

/-- Nothing waits for the delay. -/
theorem waits_eq_false (e : Setting) (expected : List String) : e.waits expected = false := by
  refine List.any_eq_false.mpr fun a _ => ?_
  rw [decide_eq_true_eq]
  rintro ⟨hdead, hyoung⟩
  rw [Setting.recent] at hyoung
  cases hfor : e.deadFor a with
  | none =>
      rw [hfor] at hyoung
      cases hyoung
  | some seconds =>
      rw [hfor] at hyoung
      exact not_lt.mpr (e.past_delay a hdead seconds hfor) (of_decide_eq_true hyoung)

/-! ## The list of blocks as a list of work -/

section Blocks

variable (e : Setting)

/-- The DataNode a cycle would try. -/
def nextTarget (block : BlockRecord) : Option String :=
  let live := liveReplicas e.alive block.datanodeAddresses
  if live.length < e.replicationFactor ∧ live ≠ [] then
    firstTarget e.alive block.datanodeAddresses
  else none

def withReplicas (block : BlockRecord) (replicas : List String) : BlockRecord :=
  { block with datanodeAddresses := replicas }

/-- The block after a copy that is made. -/
def repaired (block : BlockRecord) : Option BlockRecord :=
  let live := liveReplicas e.alive block.datanodeAddresses
  (nextTarget e block).bind fun target =>
    if e.takes block.blockId block.checksum live target then
      some (withReplicas block (live ++ [target]))
    else none

variable {e} {block : BlockRecord}

theorem nextTarget_eq_some {target : String} : nextTarget e block = some target ↔
    (liveReplicas e.alive block.datanodeAddresses).length < e.replicationFactor ∧
      liveReplicas e.alive block.datanodeAddresses ≠ [] ∧
      firstTarget e.alive block.datanodeAddresses = some target := by
  unfold nextTarget
  dsimp only
  by_cases hfew : (liveReplicas e.alive block.datanodeAddresses).length
      < e.replicationFactor ∧ liveReplicas e.alive block.datanodeAddresses ≠ []
  · rw [if_pos hfew]
    exact ⟨fun h => ⟨hfew.1, hfew.2, h⟩, fun h => h.2.2⟩
  · rw [if_neg hfew]
    exact iff_of_false (Option.some_ne_none target).symm fun h => hfew ⟨h.1, h.2.1⟩

theorem repaired_eq_some {block' : BlockRecord} : repaired e block = some block' ↔
    ∃ target, nextTarget e block = some target ∧
      e.takes block.blockId block.checksum
        (liveReplicas e.alive block.datanodeAddresses) target = true ∧
      withReplicas block (liveReplicas e.alive block.datanodeAddresses ++ [target])
        = block' := by
  unfold repaired
  rw [Option.bind_eq_some_iff]
  refine exists_congr fun target => and_congr_right fun _ => ?_
  by_cases htakes : e.takes block.blockId block.checksum
      (liveReplicas e.alive block.datanodeAddresses) target = true
  · rw [if_pos htakes]
    exact ⟨fun h => ⟨htakes, Option.some.inj h⟩, fun h => congrArg some h.2⟩
  · rw [if_neg htakes]
    exact iff_of_false (Option.some_ne_none block').symm fun h => htakes h.1

theorem liveReplicas_repaired {target : String} (h : nextTarget e block = some target) :
    liveReplicas e.alive
      (withReplicas block (liveReplicas e.alive block.datanodeAddresses ++ [target])
        ).datanodeAddresses
      = liveReplicas e.alive block.datanodeAddresses ++ [target] :=
  liveReplicas_concat (firstTarget_eq_some (nextTarget_eq_some.mp h).2.2).1

/-- How many live replicas are missing. -/
def missing (e : Setting) (block : BlockRecord) : Nat :=
  e.replicationFactor - (liveReplicas e.alive block.datanodeAddresses).length

/-- A copy that is made is one replica less to go. -/
theorem missing_repaired {target : String} (h : nextTarget e block = some target) :
    missing e block = missing e (withReplicas block
      (liveReplicas e.alive block.datanodeAddresses ++ [target])) + 1 := by
  have hfew := (nextTarget_eq_some.mp h).1
  rw [missing, missing, liveReplicas_repaired h, List.length_append, List.length_singleton]
  omega

variable (e) in
/-- What a cycle does with the blocks. -/
def blockWork : QuotaScan.Work (String × BlockRecord) where
  tries := fun x => (nextTarget e x.2).isSome
  advance := fun x => (repaired e x.2).map fun block => (x.1, block)
  rank := fun x => missing e x.2
  tries_of_advance := by
    intro x y h
    obtain ⟨block, hblock, _⟩ := Option.map_eq_some_iff.mp h
    obtain ⟨target, htarget, _⟩ := repaired_eq_some.mp hblock
    rw [htarget]
    rfl
  rank_lt := by
    intro x y h
    obtain ⟨block, hblock, rfl⟩ := Option.map_eq_some_iff.mp h
    obtain ⟨target, htarget, _, rfl⟩ := repaired_eq_some.mp hblock
    rw [missing_repaired htarget]
    exact Nat.lt_succ_self _

theorem rank_le (x : String × BlockRecord) : (blockWork e).rank x ≤ e.replicationFactor :=
  Nat.sub_le _ _

theorem advance_eq_none {x : String × BlockRecord} :
    (blockWork e).advance x = none ↔ repaired e x.2 = none := Option.map_eq_none_iff

/-- The blocks that advance are those whose first copy is made. -/
theorem advance_ne_none {x : String × BlockRecord} :
    (blockWork e).advance x ≠ none ↔ e.Begins x.2 := by
  rw [Ne, advance_eq_none, ← Ne, Option.ne_none_iff_exists']
  constructor
  · rintro ⟨block', h⟩
    obtain ⟨target, htarget, htakes, _⟩ := repaired_eq_some.mp h
    obtain ⟨hfew, _, hfirst⟩ := nextTarget_eq_some.mp htarget
    exact ⟨hfew, target, hfirst, htakes⟩
  · rintro ⟨hfew, target, hfirst, htakes⟩
    obtain ⟨source, hsource, _⟩ := takes_iff.mp htakes
    refine ⟨_, repaired_eq_some.mpr ⟨target, nextTarget_eq_some.mpr ⟨hfew, ?_, hfirst⟩,
      htakes, rfl⟩⟩
    exact List.ne_nil_of_mem hsource

/-- A block whose copy can be made to the first target is repairable. -/
theorem repairable_of_begins (h : e.Begins block) : e.Repairable block := by
  obtain ⟨hfew, target, hfirst, htakes⟩ := h
  obtain ⟨source, hsource, hreply⟩ := takes_iff.mp htakes
  obtain ⟨halive, hnew⟩ := firstTarget_eq_some hfirst
  exact ⟨hfew, source, hsource, target, halive, hnew, hreply⟩

/-! ## Where a block ends -/

/-- What the walk over the targets says of the last state of a block: without
    a refusal nothing is tried there, and with one the refusing DataNode is
    tried for ever. -/
def EndsAs (e : Setting) (blockId checksum : String) (last : BlockRecord) :
    Option (List String × String) → Prop
  | none => nextTarget e last = none
  | some (replicas, refusing) =>
      liveReplicas e.alive last.datanodeAddresses = replicas ∧
        nextTarget e last = some refusing ∧
        e.takes blockId checksum replicas refusing = false

/-- A block that is tried without success is refused at once. -/
theorem refusal_of_fails {target : String} (h : nextTarget e block = some target)
    (hfails : e.takes block.blockId block.checksum
      (liveReplicas e.alive block.datanodeAddresses) target = false) :
    e.refusal block.blockId block.checksum (missing e block)
        (liveReplicas e.alive block.datanodeAddresses)
      = some (liveReplicas e.alive block.datanodeAddresses, target) := by
  obtain ⟨hfew, _, hfirst⟩ := nextTarget_eq_some.mp h
  obtain ⟨n, hn⟩ : ∃ n, missing e block = n + 1 := ⟨missing e block - 1, by
    unfold missing
    omega⟩
  rw [hn, Setting.refusal, firstTarget_liveReplicas, hfirst]
  dsimp only
  rw [if_neg (by rw [hfails]; exact Bool.false_ne_true)]

theorem refusal_of_takes {target : String} (h : nextTarget e block = some target)
    (htakes : e.takes block.blockId block.checksum
      (liveReplicas e.alive block.datanodeAddresses) target = true) {n : Nat}
    (hn : missing e block = n + 1) :
    e.refusal block.blockId block.checksum (missing e block)
        (liveReplicas e.alive block.datanodeAddresses)
      = e.refusal block.blockId block.checksum n
          (liveReplicas e.alive block.datanodeAddresses ++ [target]) := by
  obtain ⟨_, _, hfirst⟩ := nextTarget_eq_some.mp h
  rw [hn, Setting.refusal, firstTarget_liveReplicas, hfirst]
  dsimp only
  rw [if_pos htakes]

/-- A block that is not tried has no refusal. -/
theorem refusal_of_untried (h : nextTarget e block = none)
    (hlive : liveReplicas e.alive block.datanodeAddresses ≠ []) :
    e.refusal block.blockId block.checksum (missing e block)
      (liveReplicas e.alive block.datanodeAddresses) = none := by
  cases hn : missing e block with
  | zero => rfl
  | succ n =>
      have hfew : (liveReplicas e.alive block.datanodeAddresses).length
          < e.replicationFactor := by
        unfold missing at hn
        omega
      have hfirst : firstTarget e.alive block.datanodeAddresses = none := by
        unfold nextTarget at h
        dsimp only at h
        rwa [if_pos ⟨hfew, hlive⟩] at h
      rw [Setting.refusal, firstTarget_liveReplicas, hfirst]

/-- **THE WALK OVER THE TARGETS FINDS THE LAST STATE OF A BLOCK.** -/
theorem endsAs_refusal (path : String)
    (hlive : liveReplicas e.alive block.datanodeAddresses ≠ []) :
    EndsAs e block.blockId block.checksum ((blockWork e).settle (path, block)).2
      (e.refusal block.blockId block.checksum (missing e block)
        (liveReplicas e.alive block.datanodeAddresses)) := by
  induction hn : missing e block generalizing block with
  | zero =>
      have hnone : nextTarget e block = none := by
        by_contra hne
        obtain ⟨target, htarget⟩ := Option.ne_none_iff_exists'.mp hne
        have hfew := (nextTarget_eq_some.mp htarget).1
        unfold missing at hn
        omega
      have hlast : (blockWork e).advance (path, block) = none := by
        rw [advance_eq_none]
        show repaired e block = none
        rw [repaired, hnone]
        rfl
      rw [QuotaScan.Work.settle_of_none hlast]
      exact hnone
  | succ n ih =>
      cases htarget : nextTarget e block with
      | none =>
          have hlast : (blockWork e).advance (path, block) = none := by
            rw [advance_eq_none]
            show repaired e block = none
            rw [repaired, htarget]
            rfl
          rw [← hn, refusal_of_untried htarget hlive, QuotaScan.Work.settle_of_none hlast]
          exact htarget
      | some target =>
          by_cases htakes : e.takes block.blockId block.checksum
              (liveReplicas e.alive block.datanodeAddresses) target = true
          · have hnext : (blockWork e).advance (path, block) = some (path,
                withReplicas block
                  (liveReplicas e.alive block.datanodeAddresses ++ [target])) := by
              show (repaired e block).map _ = _
              rw [repaired_eq_some.mpr ⟨target, htarget, htakes, rfl⟩]
              rfl
            have hless := missing_repaired htarget
            have hrec := @ih (withReplicas block
              (liveReplicas e.alive block.datanodeAddresses ++ [target]))
            rw [liveReplicas_repaired htarget] at hrec
            rw [← hn, refusal_of_takes htarget htakes hn,
              QuotaScan.Work.settle_of_some hnext]
            exact hrec (by simp) (by omega)
          · have hfails := Bool.eq_false_iff.mpr htakes
            have hlast : (blockWork e).advance (path, block) = none := by
              by_contra hne
              obtain ⟨_, target', hfirst, htakes'⟩ := advance_ne_none.mp hne
              obtain ⟨_, _, hfirst'⟩ := nextTarget_eq_some.mp htarget
              rw [hfirst] at hfirst'
              obtain rfl := Option.some.inj hfirst'
              exact htakes htakes'
            rw [← hn, refusal_of_fails htarget hfails, QuotaScan.Work.settle_of_none hlast]
            exact ⟨rfl, htarget, hfails⟩

/-- A block without a live replica is never tried. -/
theorem settle_of_lost (path : String)
    (hlost : liveReplicas e.alive block.datanodeAddresses = []) :
    nextTarget e block = none ∧ (blockWork e).settle (path, block) = (path, block) := by
  have hnone : nextTarget e block = none := by
    by_contra hne
    obtain ⟨target, htarget⟩ := Option.ne_none_iff_exists'.mp hne
    exact (nextTarget_eq_some.mp htarget).2.1 hlost
  refine ⟨hnone, QuotaScan.Work.settle_of_none (advance_eq_none.mpr ?_)⟩
  show repaired e block = none
  rw [repaired, hnone]
  rfl

theorem endsAs_firstRefusal (x : String × BlockRecord) :
    EndsAs e x.2.blockId x.2.checksum ((blockWork e).settle x).2 (e.firstRefusal x.2) := by
  unfold Setting.firstRefusal
  dsimp only
  by_cases hlost : liveReplicas e.alive x.2.datanodeAddresses = []
  · obtain ⟨hnone, hsettle⟩ := settle_of_lost x.1 hlost
    rw [if_pos hlost]
    show nextTarget e ((blockWork e).settle (x.1, x.2)).2 = none
    rw [hsettle]
    exact hnone
  · rw [if_neg hlost]
    exact endsAs_refusal x.1 hlost

/-- A copy keeps everything of a block but the replicas. -/
theorem settle_fields (x : String × BlockRecord) :
    ((blockWork e).settle x).2.blockId = x.2.blockId ∧
      ((blockWork e).settle x).2.checksum = x.2.checksum := by
  unfold QuotaScan.Work.settle
  generalize (blockWork e).rank x = n
  induction n generalizing x with
  | zero => exact ⟨rfl, rfl⟩
  | succ n ih =>
      rw [Function.iterate_succ_apply]
      have hrec := ih ((blockWork e).attempt x)
      cases hx : (blockWork e).advance x with
      | none => rwa [QuotaScan.Work.attempt_of_none hx] at hrec ⊢
      | some y =>
          obtain ⟨block', hblock, rfl⟩ := Option.map_eq_some_iff.mp hx
          obtain ⟨target, _, _, rfl⟩ := repaired_eq_some.mp hblock
          rw [QuotaScan.Work.attempt_of_some hx] at hrec ⊢
          exact hrec

/-- The blocks that are tried for ever are those with a refusal. -/
theorem stuck_eq (x : String × BlockRecord) :
    (blockWork e).stuck x = (e.firstRefusal x.2).isSome := by
  have h := endsAs_firstRefusal (e := e) x
  show (nextTarget e ((blockWork e).settle x).2).isSome = _
  cases hrefusal : e.firstRefusal x.2 with
  | none =>
      rw [hrefusal] at h
      rw [show nextTarget e _ = none from h]
      rfl
  | some refusal =>
      rw [hrefusal] at h
      rw [h.2.1]
      rfl

/-- A block ends well unless another DataNode would not have refused it. -/
theorem not_repairable_settle (x : String × BlockRecord) :
    ¬ e.Repairable ((blockWork e).settle x).2 ↔ e.RefusedByAll x.2 := by
  have h := endsAs_firstRefusal (e := e) x
  obtain ⟨hid, hsum⟩ := settle_fields (e := e) x
  cases hrefusal : e.firstRefusal x.2 with
  | none =>
      rw [hrefusal] at h
      refine iff_of_true ?_ fun replicas refusing heq => by
        rw [hrefusal] at heq
        cases heq
      rintro ⟨hfew, source, hsource, target, halive, hnew, _⟩
      have hfirst : firstTarget e.alive
          ((blockWork e).settle x).2.datanodeAddresses = none := by
        by_contra hne
        obtain ⟨target', htarget⟩ := Option.ne_none_iff_exists'.mp hne
        have hnext := nextTarget_eq_some.mpr ⟨hfew, List.ne_nil_of_mem hsource, htarget⟩
        rw [show nextTarget e _ = none from h] at hnext
        cases hnext
      exact hnew (firstTarget_eq_none hfirst target halive)
  | some refusal =>
      obtain ⟨replicas, refusing⟩ := refusal
      rw [hrefusal] at h
      obtain ⟨hlive, hnext, _⟩ := h
      have hfew := (nextTarget_eq_some.mp hnext).1
      constructor
      · intro hnot replicas' refusing' heq target halive hnew
        rw [hrefusal] at heq
        obtain ⟨rfl, rfl⟩ := Prod.mk.inj (Option.some.inj heq)
        refine Bool.eq_false_iff.mpr fun htakes => hnot ?_
        obtain ⟨source, hsource, hreply⟩ := takes_iff.mp htakes
        refine ⟨hfew, source, by rwa [hlive], target, halive, ?_, ?_⟩
        · intro hmem
          rw [← hlive] at hnew
          exact hnew (mem_liveReplicas.mpr ⟨hmem, halive⟩)
        · rwa [hid, hsum]
      · rintro hall ⟨_, source, hsource, target, halive, hnew, hreply⟩
        rw [hlive] at hsource
        rw [hid, hsum] at hreply
        have hrefuses := hall replicas refusing hrefusal target halive fun hmem => by
          rw [← hlive] at hmem
          exact hnew (mem_liveReplicas.mp hmem).1
        rw [takes_iff.mpr ⟨source, hsource, hreply⟩] at hrefuses
        cases hrefuses

end Blocks

/-! ## The tree under a repair -/

/-- Every path of a file is what its text means. -/
def CleanFiles (m : Metadata) : Prop :=
  ∀ ps f, m.file ps = some f → parts (pathKey ps) = .ok ps

theorem CleanFiles.mono {m m' : Metadata} (h : CleanFiles m)
    (hfile : ∀ q f, m'.file q = some f → ∃ f', m.file q = some f') : CleanFiles m' := by
  intro q f hq
  obtain ⟨f', hq'⟩ := hfile q f hq
  exact h q f' hq'

theorem CleanFiles.congr {m m' : Metadata} (h : CleanFiles m)
    (hfile : ∀ q, m'.file q = m.file q) : CleanFiles m' :=
  h.mono fun q f hq => ⟨f, by rwa [hfile q] at hq⟩

theorem CleanFiles.same {m m' : Metadata} (h : CleanFiles m) (hnode : m'.node = m.node) :
    CleanFiles m' := h.congr (Metadata.file_congr hnode)

theorem CleanFiles.pruned {m m' : Metadata} {now : Option Time} (h : CleanFiles m)
    (hp : Pruned now m m') : CleanFiles m' := h.same hp.node

theorem CleanFiles.setFile {m : Metadata} {p : String} {ps : List String} {f : FileNode}
    (h : CleanFiles m) (hparts : parts p = .ok ps) : CleanFiles (m.setFile ps f) := by
  intro q f' hq
  rw [Metadata.file_setFile] at hq
  by_cases hqs : q = ps
  · rw [hqs]
    exact parts_pathKey (cleanName_of_parts hparts)
  · rw [if_neg hqs] at hq
    exact h q f' hq

theorem CleanFiles.dropNode {m : Metadata} {ps : List String} (h : CleanFiles m) :
    CleanFiles (m.dropNode ps) := by
  refine h.mono fun q f hq => ?_
  rw [Metadata.file_dropNode] at hq
  by_cases hqs : q = ps
  · rw [if_pos hqs] at hq
    cases hq
  · rw [if_neg hqs] at hq
    exact ⟨f, hq⟩

theorem cleanFiles_empty : CleanFiles (metadata ControlTree.empty) := by
  intro ps f hfile
  have hnone : (metadata ControlTree.empty).file ps = none := by
    cases ps <;> rfl
  rw [hnone] at hfile
  cases hfile

/-- Files are stored at parsed paths only. -/
theorem cleanFiles_effect {μ : Mutation} {m m' : Metadata} {r : Except PyError Ret}
    (he : Effect μ m r m') (h : CleanFiles m) : CleanFiles m' := by
  cases he with
  | makeDir hparts hne hparent hallowed hfree =>
      exact h.congr (Metadata.file_setDir _ (Metadata.file_of_none hfree))
  | removeDir | abortUpload => exact h.dropNode
  | removeFile => exact (h.pruned (pruned_aliveLocks _ _ _)).dropNode
  | beginUpload hparts => exact (h.congr (Metadata.file_makeParents _ _)).setFile hparts
  | confirmBlock hparts | completeUpload hparts | updateBlockReplicas hparts
  | setAttrsFile hparts => exact h.setFile hparts
  | acquireLock | joinLock | renewLock | releaseGone | beginWrite | beginWriteLost
  | createUser | changePassword => exact h.same rfl
  | releaseLock | releaseLast => exact h.same (Metadata.node_aliveLocks _ _)
  | abortWrite | abortGone => exact h.same (Metadata.node_aliveWrites _)
  | @commitWrite _ _ w _ _ _ now _ ps _ _ _ _ hparts hr =>
      have hkept : CleanFiles ((m.writeTable (pathKey ps) now).dropWrite w) := h.same rfl
      exact hkept.setFile hparts
  | setAttrsDir hparts hdir =>
      exact h.congr (Metadata.file_setDir _ (Metadata.file_of_dir hdir))
  | refused hpruned => exact h.pruned hpruned

/-- What the cycle needs of a tree: a path finds its file, and an id its block. -/
structure Tidy (tree : ControlTree) : Prop where
  clean : CleanFiles (metadata tree)
  separate : Separate (held (metadata tree))

theorem cleanFiles_apply {c : Command} {s : ReplicatedTree}
    (h : CleanFiles (metadata s.tree)) : CleanFiles (metadata (apply c s).2.tree) := by
  have happlied := apply_applied c s
  revert happlied
  generalize (apply c s).1 = o
  generalize (apply c s).2 = s'
  intro happlied
  cases happlied with
  | cached => exact h
  | executed _ _ heffect => exact cleanFiles_effect heffect h
  | rejected _ htree => rwa [htree]

/-- **EVERY REACHABLE TREE IS TIDY**, if block ids are not reused. -/
theorem tidy_run {cmds : List Command} {s : ReplicatedTree} (hrun : replicated.Run cmds s)
    (hfresh : FreshIds cmds) : Tidy s.tree := by
  refine ⟨?_, (owned_run hrun hfresh).separate⟩
  refine hrun.invariant (I := fun _ s => CleanFiles (metadata s.tree)) ?_ ?_
  · rintro s rfl
    exact cleanFiles_empty
  · rintro _ s c s' ih rfl
    exact cleanFiles_apply ih

section Repairs

variable {tree : ControlTree}

theorem tidy_commitReplicas (h : Tidy tree) (path blockId : String)
    (expected new : List String) :
    Tidy (commitReplicas path blockId expected new tree) := by
  have heffect := exec_effect (.updateBlockReplicas path blockId expected new) tree
  refine ⟨cleanFiles_effect heffect h.clean, ?_⟩
  exact (ownershipStep_effect heffect h.separate List.nodup_nil
    fun x hx => absurd hx List.not_mem_nil).separate

/-- With ids that occur once, changing the first block with an id is changing
    every block that has it. -/
theorem updateBlock_eq_map {b : String} {g : BlockRecord → BlockRecord}
    {blocks : List BlockRecord} (hnd : (blocks.map BlockRecord.blockId).Nodup)
    (hmem : b ∈ blocks.map BlockRecord.blockId) :
    updateBlock b g blocks
      = some (blocks.map fun block => if block.blockId = b then g block else block) := by
  induction blocks with
  | nil => exact absurd hmem List.not_mem_nil
  | cons hd rest ih =>
      rw [List.map_cons, List.nodup_cons] at hnd
      rw [updateBlock, List.map_cons]
      by_cases hb : hd.blockId = b
      · have hrest : rest.map (fun block => if block.blockId = b then g block else block)
            = rest := by
          refine (List.map_congr_left fun block hblock => ?_).trans (List.map_id _)
          refine if_neg fun heq => hnd.1 ?_
          rw [hb, ← heq]
          exact List.mem_map_of_mem hblock
        rw [if_pos hb, if_pos hb, hrest]
      · rw [List.map_cons, List.mem_cons] at hmem
        rw [if_neg hb, if_neg hb,
          ih hnd.2 (hmem.resolve_left fun heq => hb heq.symm)]
        rfl

/-- With ids that occur once, a block is found by its id. -/
theorem find?_blockId {blocks : List BlockRecord}
    (hnd : (blocks.map BlockRecord.blockId).Nodup) {block : BlockRecord}
    (hmem : block ∈ blocks) :
    blocks.find? (fun b => b.blockId = block.blockId) = some block := by
  induction blocks with
  | nil => exact absurd hmem List.not_mem_nil
  | cons hd rest ih =>
      rw [List.map_cons, List.nodup_cons] at hnd
      rcases List.mem_cons.mp hmem with rfl | hmem
      · exact List.find?_cons_of_pos (by simp)
      · have hne : hd.blockId ≠ block.blockId := fun heq => by
          refine hnd.1 ?_
          rw [heq]
          exact List.mem_map_of_mem hmem
        rw [List.find?_cons_of_neg (by simpa using hne)]
        exact ih hnd.2 hmem

/-- A repair of a block that has not changed replaces its file. -/
theorem commitReplicas_eq {p : String} {ps : List String} {f : FileNode}
    {block : BlockRecord} {blocks : List BlockRecord} {new : List String}
    (hparts : parts p = .ok ps) (hview : tree.root.view ps = some (.file f))
    (hstate : f.state = .committed)
    (hfind : f.blocks.find? (fun b => b.blockId = block.blockId) = some block)
    (hblocks : updateBlock block.blockId (fun b => { b with datanodeAddresses := new })
      f.blocks = some blocks) :
    commitReplicas p block.blockId block.datanodeAddresses new tree
      = { tree with
          root := tree.root.putFile ps.dropLast (ps.getLastD "") { f with blocks } } := by
  suffices h : wp (exec (.updateBlockReplicas p block.blockId block.datanodeAddresses new))
      tree fun _ tree' => tree' = { tree with
        root := tree.root.putFile ps.dropLast (ps.getLastD "") { f with blocks } } from h
  refine wp_call (P := fun r tree' => (∃ u, r = .ok u) ∧ tree' = { tree with
      root := tree.root.putFile ps.dropLast (ps.getLastD "") { f with blocks } }) ?_
    (fun _ _ h => wp_ret h.2) fun _ _ h => h.2
  refine wp_call (wp_getCommittedFile_ok hparts hview hstate) ?_ fun _ _ h => by cases h.1
  rintro _ _ ⟨heq, rfl⟩
  obtain rfl := Except.ok.inj heq
  dsimp only
  rw [hfind]
  refine wp_raiseIf_passed (not_not.mpr rfl) ?_
  refine wp_modify_last ⟨⟨(), rfl⟩, ?_⟩
  rw [hblocks]
  rfl

/-- The list of blocks after a repair: every block that has the id, and there
    is one, has the new replicas. -/
theorem iterBlocks_commitReplicas (h : Tidy tree) {path : String} {block : BlockRecord}
    (hmem : (path, block) ∈ iterBlocks tree) (new : List String) :
    iterBlocks (commitReplicas path block.blockId block.datanodeAddresses new tree)
      = (iterBlocks tree).map fun x =>
          if x.2.blockId = block.blockId then (x.1, withReplicas x.2 new) else x := by
  obtain ⟨ps, f, rfl, hview, hstate, hblock⟩ := DfshaListing.mem_iterBlocks hmem
  have hheld : held (metadata tree) (.file ps) = fileIds f := held_file hview
  have hnd : (f.blocks.map BlockRecord.blockId).Nodup := by
    have hnodup := h.separate.nodup (.file ps)
    rwa [hheld] at hnodup
  have hid : block.blockId ∈ f.blocks.map BlockRecord.blockId := List.mem_map_of_mem hblock
  have hfind := find?_blockId hnd hblock
  rw [commitReplicas_eq (h.clean ps f (Metadata.file_eq_some.mpr hview)) hview hstate hfind
    (updateBlock_eq_map hnd hid)]
  have hne := ne_nil_of_file hview
  have hps := dropLast_append_getLastD hne
  unfold iterBlocks
  dsimp only
  rw [Tree.files_putFile (by rw [hps]; exact hview), hps, Node.replaceAt, List.flatMap_map,
    List.map_flatMap]
  refine List.flatMap_congr fun entry hentry => ?_
  have hentry' := Tree.fileAt_eq_some.mp ((Tree.mem_files_iff _ _ _).mp hentry)
  by_cases hentryPs : entry.1 = ps
  · have hfile : entry.2 = f := by
      rw [hentryPs, hview] at hentry'
      exact (Entry.file.inj (Option.some.inj hentry')).symm
    rw [if_pos hentryPs]
    dsimp only
    rw [hfile, if_pos hstate, if_pos hstate, List.map_map, List.map_map]
    refine List.map_congr_left fun b _ => ?_
    show (pathKey entry.1, if b.blockId = block.blockId then withReplicas b new else b)
      = if b.blockId = block.blockId then (pathKey entry.1, withReplicas b new)
        else (pathKey entry.1, b)
    by_cases hb : b.blockId = block.blockId
    · rw [if_pos hb, if_pos hb]
    · rw [if_neg hb, if_neg hb]
  · -- the id is in the other file
    rw [if_neg hentryPs]
    refine ((List.map_congr_left fun x hx => ?_).trans (List.map_id _)).symm
    refine if_neg fun heq => hentryPs ?_
    have hx' : x.2.blockId ∈ fileIds entry.2 := by
      by_cases hcommitted : entry.2.state = .committed
      · rw [if_pos hcommitted] at hx
        obtain ⟨b, hb, rfl⟩ := List.mem_map.mp hx
        exact List.mem_map_of_mem hb
      · rw [if_neg hcommitted] at hx
        exact absurd hx List.not_mem_nil
    rw [← held_file (m := metadata tree) hentry', heq] at hx'
    rw [← fileIds, ← hheld] at hid
    exact Holder.file.inj (h.separate.owner _ _ _ hx' hid)

end Repairs

/-! ## A cycle is a pass -/

/-- No id is in the list of blocks twice. -/
theorem nodup_iterBlocks {tree : ControlTree} (h : Tidy tree) :
    ((iterBlocks tree).map fun x => x.2.blockId).Nodup := by
  have hall := (List.nodup_append.mp (nodup_blockIds h.separate)).1
  refine hall.sublist ?_
  unfold iterBlocks
  rw [List.map_flatMap]
  refine List.Sublist.flatMap_right _ fun entry _ => ?_
  by_cases hcommitted : entry.2.state = .committed
  · rw [if_pos hcommitted, List.map_map]
    exact List.Sublist.refl _
  · rw [if_neg hcommitted]
    exact List.nil_sublist _

/-- A repair changes the block it is about and no other. -/
theorem iterBlocks_repaired {tree : ControlTree} (h : Tidy tree)
    {done rest : List (String × BlockRecord)} {path : String} {block : BlockRecord}
    (heq : iterBlocks tree = done ++ (path, block) :: rest) (new : List String) :
    iterBlocks (commitReplicas path block.blockId block.datanodeAddresses new tree)
      = done ++ (path, withReplicas block new) :: rest := by
  have hnd := nodup_iterBlocks h
  have hmem : (path, block) ∈ iterBlocks tree := by
    rw [heq]
    exact List.mem_append_right _ List.mem_cons_self
  rw [iterBlocks_commitReplicas h hmem, heq, List.map_append, List.map_cons, if_pos rfl]
  rw [heq, List.map_append, List.map_cons, List.nodup_append, List.nodup_cons] at hnd
  obtain ⟨_, ⟨hrest, _⟩, hdone⟩ := hnd
  have hkeep : ∀ l : List (String × BlockRecord), (∀ x ∈ l, x.2.blockId ≠ block.blockId) →
      l.map (fun x => if x.2.blockId = block.blockId then (x.1, withReplicas x.2 new) else x)
        = l := by
    intro l hl
    refine (List.map_congr_left fun x hx => ?_).trans (List.map_id _)
    exact if_neg (hl x hx)
  rw [hkeep done, hkeep rest]
  · intro x hx heq
    exact hrest (heq ▸ List.mem_map_of_mem hx)
  · intro x hx
    exact hdone _ (List.mem_map_of_mem hx) _ List.mem_cons_self

section Cycles

variable {e : Setting} {tree : ControlTree}

theorem scan_skip {path : String} {block : BlockRecord} (h : nextTarget e block = none)
    {completed : Nat} (hquota : completed < e.maxPerCycle)
    (rest : List (String × BlockRecord)) (tree : ControlTree) :
    e.scan ((path, block) :: rest) completed tree = e.scan rest completed tree := by
  rw [Setting.scan, if_neg (by omega)]
  dsimp only
  unfold nextTarget at h
  dsimp only at h
  by_cases hfull : e.replicationFactor ≤
      (liveReplicas e.alive block.datanodeAddresses).length
  · rw [if_pos hfull]
  · rw [if_neg hfull]
    by_cases hlost : liveReplicas e.alive block.datanodeAddresses = []
    · rw [if_pos hlost]
    · rw [if_pos ⟨not_le.mp hfull, hlost⟩] at h
      rw [if_neg hlost, waits_eq_false, h]
      rfl

theorem scan_try {path target : String} {block : BlockRecord}
    (h : nextTarget e block = some target) {completed : Nat}
    (hquota : completed < e.maxPerCycle) (rest : List (String × BlockRecord))
    (tree : ControlTree) :
    e.scan ((path, block) :: rest) completed tree
      = e.scan rest (completed + 1) (e.repair path block
          (liveReplicas e.alive block.datanodeAddresses) target tree) := by
  obtain ⟨hfew, hlive, hfirst⟩ := nextTarget_eq_some.mp h
  rw [Setting.scan, if_neg (by omega)]
  dsimp only
  rw [if_neg (by omega), if_neg hlive, waits_eq_false, hfirst]
  rfl

/-- A try makes of the block what an attempt makes of the item. -/
theorem iterBlocks_repair (h : Tidy tree) {done rest : List (String × BlockRecord)}
    {path target : String} {block : BlockRecord}
    (heq : iterBlocks tree = done ++ (path, block) :: rest)
    (htarget : nextTarget e block = some target) :
    let tree' := e.repair path block (liveReplicas e.alive block.datanodeAddresses) target tree
    Tidy tree' ∧ iterBlocks tree' = done ++ (blockWork e).attempt (path, block) :: rest := by
  unfold Setting.repair
  by_cases htakes : e.takes block.blockId block.checksum
      (liveReplicas e.alive block.datanodeAddresses) target = true
  · have hnext : (blockWork e).advance (path, block) = some (path, withReplicas block
        (liveReplicas e.alive block.datanodeAddresses ++ [target])) := by
      show (repaired e block).map _ = _
      rw [repaired_eq_some.mpr ⟨target, htarget, htakes, rfl⟩]
      rfl
    rw [if_pos htakes, QuotaScan.Work.attempt_of_some hnext]
    exact ⟨tidy_commitReplicas h _ _ _ _, iterBlocks_repaired h heq _⟩
  · have hlast : (blockWork e).advance (path, block) = none := by
      by_contra hne
      obtain ⟨_, target', hfirst, htakes'⟩ := advance_ne_none.mp hne
      rw [(nextTarget_eq_some.mp htarget).2.2] at hfirst
      obtain rfl := Option.some.inj hfirst
      exact htakes htakes'
    rw [if_neg htakes, QuotaScan.Work.attempt_of_none hlast]
    exact ⟨h, heq⟩

/-- **THE LOOP IS A PASS** over what is left of the snapshot. -/
theorem scan_pass (rest : List (String × BlockRecord)) (h : Tidy tree)
    {done : List (String × BlockRecord)} (heq : iterBlocks tree = done ++ rest)
    (completed : Nat) :
    Tidy (e.scan rest completed tree) ∧ iterBlocks (e.scan rest completed tree)
      = done ++ (blockWork e).pass (e.maxPerCycle - completed) rest := by
  induction rest generalizing done tree completed with
  | nil =>
      rw [QuotaScan.Work.pass_nil]
      exact ⟨h, heq⟩
  | cons x rest ih =>
      obtain ⟨path, block⟩ := x
      by_cases hquota : completed < e.maxPerCycle
      · cases htarget : nextTarget e block with
        | none =>
            have hpassed : (blockWork e).tries (path, block) ≠ true := by
              show (nextTarget e block).isSome ≠ true
              rw [htarget]
              exact Bool.false_ne_true
            rw [List.append_cons] at heq
            rw [scan_skip htarget hquota, QuotaScan.Work.pass_passed hpassed,
              List.append_cons]
            exact ih h heq completed
        | some target =>
            have htried : (blockWork e).tries (path, block) = true := by
              show (nextTarget e block).isSome = true
              rw [htarget]
              rfl
            obtain ⟨htidy, hlist⟩ := iterBlocks_repair h heq htarget
            obtain ⟨n, hn⟩ : ∃ n, e.maxPerCycle - completed = n + 1 :=
              ⟨e.maxPerCycle - completed - 1, by omega⟩
            have hleft : n = e.maxPerCycle - (completed + 1) := by omega
            rw [List.append_cons] at hlist
            rw [scan_try htarget hquota, hn, QuotaScan.Work.pass_tried htried,
              List.append_cons, hleft]
            exact ih htidy hlist (completed + 1)
      · rw [Setting.scan, if_pos (not_lt.mp hquota), Nat.sub_eq_zero_of_le (not_lt.mp hquota),
          QuotaScan.Work.pass_zero]
        exact ⟨h, heq⟩

theorem runCycle_pass (h : Tidy tree) : Tidy (e.runCycle tree) ∧
    iterBlocks (e.runCycle tree)
      = (blockWork e).pass e.maxPerCycle (iterBlocks tree) := by
  have hscan := scan_pass (e := e) (iterBlocks tree) h (List.nil_append _).symm 0
  exact hscan

theorem iterate_runCycle (h : Tidy tree) (k : Nat) :
    iterBlocks (e.runCycle^[k] tree)
      = ((blockWork e).pass e.maxPerCycle)^[k] (iterBlocks tree) := by
  induction k generalizing tree with
  | zero => rfl
  | succ k ih =>
      obtain ⟨htidy, hlist⟩ := runCycle_pass (e := e) h
      rw [Function.iterate_succ_apply, Function.iterate_succ_apply, ih htidy, hlist]

/-- What repeated cycles do to a tidy tree. -/
theorem exists_repaired_iff (h : Tidy tree) :
    (∃ k ≤ (iterBlocks tree).length * e.replicationFactor,
      ∀ x ∈ iterBlocks (e.runCycle^[k] tree), ¬ e.Repairable x.2) ↔
    (∀ x ∈ iterBlocks tree, e.RefusedByAll x.2) ∧
      ∀ pre x post, iterBlocks tree = pre ++ x :: post → e.Begins x.2 →
        pre.countP (fun y => (e.firstRefusal y.2).isSome) < e.maxPerCycle := by
  have hgood : ∀ x : String × BlockRecord, ¬ e.Repairable x.2 →
      (blockWork e).advance x = none := by
    intro x hx
    by_contra hne
    exact hx (repairable_of_begins (advance_ne_none.mp hne))
  have hiff := QuotaScan.Work.exists_all_good_iff hgood (l := iterBlocks tree)
    (fun x _ => rank_le x) e.maxPerCycle
  have hstuck : (blockWork e).stuck = fun y => (e.firstRefusal y.2).isSome := by
    funext y
    exact stuck_eq y
  simp only [← iterate_runCycle h, not_repairable_settle, QuotaScan.Work.Reached,
    advance_ne_none, hstuck] at hiff
  exact hiff

end Cycles

/-- **WHAT REPEATED CYCLES REACH**: from a reachable tree, within as many cycles
    as blocks times the replication factor, no block is left that could be
    repaired, if and only if a DataNode refuses a block only where all do, and
    no block that a copy could be made of is behind so many refused blocks that
    they use up the quota. -/
theorem repairs_everything_iff {cmds : List Command} {s : ReplicatedTree}
    (hrun : replicated.Run cmds s) (hfresh : FreshIds cmds) (e : Setting) :
    (∃ k ≤ (iterBlocks s.tree).length * e.replicationFactor,
      ∀ x ∈ iterBlocks (e.runCycle^[k] s.tree), ¬ e.Repairable x.2) ↔
    (∀ x ∈ iterBlocks s.tree, e.RefusedByAll x.2) ∧
      ∀ pre x post, iterBlocks s.tree = pre ++ x :: post → e.Begins x.2 →
        pre.countP (fun y => (e.firstRefusal y.2).isSome) < e.maxPerCycle :=
  exists_repaired_iff (tidy_run hrun hfresh)

/-! ## Blocks with one replica -/

def upload (opId : String) (call : Mutation) : Command := ⟨opId, .mutation call⟩

/-- A file of one block is uploaded, and one of its replicas is written. -/
def uploadOne : List Command :=
  [ upload "op-1" (.beginUpload "/f" [("b1", ["n1"])] (some 0) (some 10) (some 4) none)
  , upload "op-2" (.confirmBlock "/f" "b1" "sum" 4 (some 0) (some 10) none)
  , upload "op-3" (.completeUpload "/f" none) ]

def uploadedOne : ReplicatedTree :=
  uploadOne.foldl (fun s c => (apply c s).2) ReplicatedTree.empty

/-- Copies to `n2` fail unless the block is listed. -/
def threeNodes (accepted : List String) : Setting where
  alive := ["n1", "n2", "n3"]
  deadFor := fun _ => none
  replies := fun _ _ target =>
    if target ∈ accepted then .checksum "sum" else .failed .internal
  replicationFactor := 2
  maxPerCycle := 1
  maxAttempts := 2
  delayS := 30
  factor_pos := Nat.two_pos
  perCycle_pos := Nat.one_pos
  attempts_pos := Nat.two_pos
  past_delay := fun _ _ _ h => by cases h

theorem iterBlocks_uploadedOne :
    iterBlocks uploadedOne.tree = [("/f", ⟨"b1", ["n1"], "sum", 4, true⟩)] := by
  decide +kernel

theorem run_uploadOne : replicated.Run uploadOne uploadedOne :=
  ⟨_, rfl, path_foldl _ _⟩

/-- A file of three blocks, each with one replica. -/
def uploadThree : List Command :=
  [ upload "op-1" (.beginUpload "/f" [("b1", ["n1"]), ("b2", ["n2"]), ("b3", ["n1"])] (some 0)
      (some 10) (some 4) none)
  , upload "op-2" (.confirmBlock "/f" "b1" "sum" 4 (some 0) (some 10) none)
  , upload "op-3" (.confirmBlock "/f" "b2" "sum" 4 (some 0) (some 10) none)
  , upload "op-4" (.confirmBlock "/f" "b3" "sum" 2 (some 0) (some 10) none)
  , upload "op-5" (.completeUpload "/f" none) ]

def uploadedThree : ReplicatedTree :=
  uploadThree.foldl (fun s c => (apply c s).2) ReplicatedTree.empty

/-- The one copy of `b1` is corrupted, so that no DataNode takes it, and its attempts
    are half of the quota. -/
def corruptFirst : Setting := { threeNodes ["n1", "n2", "n3"] with
  replies := fun blockId _ _ =>
    if blockId = "b1" then .failed .notFound else .checksum "sum"
  replicationFactor := 3
  maxPerCycle := 2
  factor_pos := Nat.zero_lt_succ _
  perCycle_pos := Nat.zero_lt_succ _ }

theorem iterBlocks_uploadedThree : iterBlocks uploadedThree.tree =
    [("/f", ⟨"b1", ["n1"], "sum", 4, true⟩), ("/f", ⟨"b2", ["n2"], "sum", 4, true⟩),
      ("/f", ⟨"b3", ["n1"], "sum", 2, true⟩)] := by
  decide +kernel

theorem run_uploadThree : replicated.Run uploadThree uploadedThree :=
  ⟨_, rfl, path_foldl _ _⟩

/-- The two blocks behind it are repaired. -/
theorem repairs_everything_iff_three :
    ∃ k ≤ (iterBlocks uploadedThree.tree).length * 3,
      ∀ x ∈ iterBlocks (corruptFirst.runCycle^[k] uploadedThree.tree),
        ¬ corruptFirst.Repairable x.2 := by
  refine (repairs_everything_iff run_uploadThree (by decide) corruptFirst).mpr ⟨?_, ?_⟩
  · intro x hx replicas refusing hrefusal target htarget _
    have htakes : ∀ x ∈ iterBlocks uploadedThree.tree, corruptFirst.firstRefusal x.2 = none ∨
        x.2.blockId = "b1" := by
      rw [iterBlocks_uploadedThree]
      decide
    rcases htakes x hx with hnone | hfirst
    · rw [hnone] at hrefusal
      cases hrefusal
    · rw [hfirst]
      refine List.any_eq_false.mpr fun source _ => ?_
      exact Bool.false_ne_true
  · intro pre x post heq _
    calc pre.countP (fun y => (corruptFirst.firstRefusal y.2).isSome)
        ≤ (iterBlocks uploadedThree.tree).countP
            (fun y => (corruptFirst.firstRefusal y.2).isSome) := by
          rw [heq]
          exact (List.sublist_append_left _ _).countP_le
      _ = 1 := by
          rw [iterBlocks_uploadedThree]
          decide
      _ < 2 := by decide

/-- `n2` refuses the block, and `n3` is never tried. -/
theorem refusing_node_stops_the_repair :
    replicated.Run uploadOne uploadedOne ∧ FreshIds uploadOne ∧
      ¬ ∃ k ≤ (iterBlocks uploadedOne.tree).length * 2,
        ∀ x ∈ iterBlocks ((threeNodes ["n3"]).runCycle^[k] uploadedOne.tree),
          ¬ (threeNodes ["n3"]).Repairable x.2 := by
  refine ⟨run_uploadOne, by decide, fun hreached => ?_⟩
  have htidy := tidy_run run_uploadOne (by decide)
  have hall := ((exists_repaired_iff (e := threeNodes ["n3"]) htidy).mp hreached).1
  rw [iterBlocks_uploadedOne] at hall
  have hrefused := hall _ List.mem_cons_self ["n1"] "n2" (by decide) "n3" (by decide)
    (by decide)
  exact absurd hrefused (by decide)

end DfshaRepairProgress
