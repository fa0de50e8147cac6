import Dfsha.HoldAndWaitProofs
import Dfsha.ReplicaPlacementProofs

/-! # The workers that concurrent writes hold

    A DataNode serves with a fixed pool of workers.  A `WriteBlock` with nodes
    downstream keeps its worker until the next node answers, so a write holds a
    worker of every node that it has reached and waits for one of the next.

    The executor of its own that the forwarding has is never the obstacle: it
    is as large as the pool of the server, and a call that forwards holds a
    worker there.  The pools of the servers are.  Writes whose pipelines go
    around the cluster can fill all of them and wait for each other, as soon as
    there are enough writes for the pipelines without their last node to cover
    every worker of the cluster. -/

namespace DfshaWritePools

open HoldAndWait TransitionSystem TransitionSystem.System
open DfshaReplicaPlacement

/-! ## The code -/

/-- The executor of `serve`. -/
def serverWorkers : Nat := 10

/-- `_forward_pool`. -/
def forwardWorkers : Nat := 10

/-- How far a write has come along its pipeline. -/
inductive Stage where
  | idle
  -- `WriteBlock` of node `k` was called, and has no worker yet
  | calling (k : Nat)
  -- a worker of node `k` runs `WriteBlock`, and the call to the next is not made
  | serving (k : Nat)
  -- node `k` and all after it have answered
  | answering (k : Nat)

/-- The write has begun, and the client has no answer. -/
def Stage.Unfinished (t : Stage) : Prop := t ≠ .idle ∧ t ≠ .answering 0

/-- It holds a server worker of so many nodes of its pipeline, -/
def Stage.serverHops : Stage → Nat
  | .idle => 0
  | .calling k => k
  | .serving k => k + 1
  | .answering k => k

/-- and a worker of the forwarding executor of so many. -/
def Stage.forwardHops : Stage → Nat
  | .idle => 0
  | .calling k => k
  | .serving k => k
  | .answering k => k

variable {ι : Type} [Fintype ι] [DecidableEq ι]

/-- The writes, and the calls without a worker in the order in which they
    came: an executor takes them in this order. -/
structure Pools (ι : Type) where
  stage : ι → Stage
  waiting : List ι

def Pools.start : Pools ι := ⟨fun _ => .idle, []⟩

section Code

variable (pipeline : ι → List String)

def Pools.serverHeld (s : Pools ι) (a : String) : Nat :=
  taken pipeline (fun i => (s.stage i).serverHops) a

def Pools.forwardHeld (s : Pools ι) (a : String) : Nat :=
  taken pipeline (fun i => (s.stage i).forwardHops) a

/-- The node that a write has called, while it has no worker there. -/
def Pools.called (s : Pools ι) (i : ι) : Option String :=
  match s.stage i with
  | .calling k => (pipeline i)[k]?
  | _ => none

def Pools.set (s : Pools ι) (i : ι) (t : Stage) : Pools ι :=
  { s with stage := Function.update s.stage i t }

/-- `WriteBlock` of node `k` is called. -/
def Pools.call (s : Pools ι) (i : ι) (k : Nat) : Pools ι :=
  ⟨Function.update s.stage i (.calling k), s.waiting ++ [i]⟩

/-- A server worker takes the call. -/
def Pools.accept (s : Pools ι) (i : ι) (k : Nat) : Pools ι :=
  ⟨Function.update s.stage i (.serving k), s.waiting.erase i⟩

inductive Event (ι : Type) where
  | begin (i : ι)
  | accept (i : ι)
  | forward (i : ι)
  | finish (i : ι)
  | answer (i : ι)

inductive Step : Pools ι → Event ι → Pools ι → Prop
  -- the client calls the first node
  | begin {s : Pools ι} {i : ι} (hidle : s.stage i = .idle) :
      Step s (.begin i) (s.call i 0)
  | accept {s : Pools ι} {i : ι} {k : Nat} {a : String} (hcalling : s.stage i = .calling k)
      (hnode : (pipeline i)[k]? = some a) (hfree : s.serverHeld pipeline a < serverWorkers)
      (hfirst : s.waiting.find? (fun j => s.called pipeline j = some a) = some i) :
      Step s (.accept i) (s.accept i k)
  -- a worker of the forwarding executor calls the next node
  | forward {s : Pools ι} {i : ι} {k : Nat} {a : String} (hserving : s.stage i = .serving k)
      (hnode : (pipeline i)[k]? = some a) (hmore : k + 1 < (pipeline i).length)
      (hfree : s.forwardHeld pipeline a < forwardWorkers) :
      Step s (.forward i) (s.call i (k + 1))
  -- the last node answers
  | finish {s : Pools ι} {i : ι} {k : Nat} (hserving : s.stage i = .serving k)
      (hlast : k + 1 = (pipeline i).length) :
      Step s (.finish i) (s.set i (.answering k))
  -- the forwarding call of node `k` returns, and then `WriteBlock` of node `k`
  | answer {s : Pools ι} {i : ι} {k : Nat} (hanswering : s.stage i = .answering (k + 1)) :
      Step s (.answer i) (s.set i (.answering k))

/-- The writes of some pipelines, while no node fails. -/
def writes : System (Pools ι) (Event ι) := ⟨fun s => s = .start, Step pipeline⟩

/-- Every unfinished write waits for a worker of a node whose workers are all
    held by unfinished writes. -/
def CircularWait (s : Pools ι) : Prop :=
  (∃ i, (s.stage i).Unfinished) ∧ ∀ i, (s.stage i).Unfinished →
    ∃ k a, s.stage i = .calling k ∧ (pipeline i)[k]? = some a ∧
      s.serverHeld pipeline a = serverWorkers

/-- A write that has begun can go on. -/
def Advances (s : Pools ι) : Prop :=
  ∃ e s', (∀ i, e ≠ .begin i) ∧ Step pipeline s e s'

/-- No state that the writes reach is a circular waiting, and some write can go
    on as long as one is unfinished. -/
def NeverCircular : Prop :=
  ∀ es s, (writes pipeline).Run es s →
    ¬ CircularWait pipeline s ∧ ((∃ i, (s.stage i).Unfinished) → Advances pipeline s)

end Code

/-! ## The pipelines -/

/-- A cluster in which a write is accepted. -/
structure Cluster where
  config : Config
  live : String → Bool
  enough : config.minWriteReplicas ≤ (config.datanodeAddresses.filter live).length

namespace Cluster

variable (c : Cluster)

def alive : List String := c.config.datanodeAddresses.filter c.live

def count : Nat := min c.config.replicationFactor c.alive.length

/-- `_next_offset`, before a call of `_pick_replicas`. -/
def nextOffset : Nat → Nat
  | 0 => 0
  | call + 1 => (nextOffset call + 1) % c.alive.length

/-- `_pick_replicas`, at one of its calls. -/
def pick (call : Nat) : List String := pickReplicas c.alive c.count (c.nextOffset call)

/-- The pipelines of writes that got theirs at these calls. -/
def pipelines (calls : ι → Nat) (i : ι) : List String := c.pick (calls i)

end Cluster

/-! ## What holds in every run -/

section Invariant

variable {pipeline : ι → List String} {s s' : Pools ι} {e : Event ι}

structure PoolsInv (pipeline : ι → List String) (s : Pools ι) : Prop where
  within : ∀ {i : ι} {k : Nat}, s.stage i = .calling k ∨ s.stage i = .serving k →
    k < (pipeline i).length
  waiting : ∀ i : ι, i ∈ s.waiting ↔ ∃ k, s.stage i = .calling k
  nodup : s.waiting.Nodup
  capacity : ∀ a, s.serverHeld pipeline a ≤ serverWorkers

/-- A stage that holds no more than before keeps within the pools. -/
theorem serverHeld_update_le {s' : Pools ι} {i : ι} {t : Stage}
    (hstage : s'.stage = Function.update s.stage i t)
    (hle : t.serverHops ≤ (s.stage i).serverHops) (a : String) :
    s'.serverHeld pipeline a ≤ s.serverHeld pipeline a := by
  refine taken_mono (fun j => ?_) a
  rw [hstage]
  by_cases hj : j = i
  · subst hj
    rw [Function.update_self]
    exact hle
  · rw [Function.update_of_ne hj]

/-- The stages after one of them has changed. -/
theorem within_update (hinv : PoolsInv pipeline s) {i : ι} {t : Stage}
    (ht : ∀ k, t = .calling k ∨ t = .serving k → k < (pipeline i).length) {j : ι} {k : Nat}
    (hj : Function.update s.stage i t j = .calling k ∨
      Function.update s.stage i t j = .serving k) : k < (pipeline j).length := by
  by_cases hij : j = i
  · subst hij
    rw [Function.update_self] at hj
    exact ht k hj
  · rw [Function.update_of_ne hij] at hj
    exact hinv.within hj

omit [DecidableEq ι] in
theorem inv_start : PoolsInv pipeline (Pools.start : Pools ι) := by
  refine ⟨?_, ?_, List.nodup_nil, ?_⟩
  · rintro i k (h | h) <;> cases h
  · intro i
    refine iff_of_false (List.not_mem_nil) ?_
    rintro ⟨k, h⟩
    cases h
  · intro a
    refine le_trans (Finset.sum_eq_zero fun i _ => ?_).le (Nat.zero_le _)
    show ((pipeline i).take 0).count a = 0
    rw [List.take_zero, List.count_nil]

/-- A call to a node, with the workers of the nodes before it. -/
theorem inv_call (hinv : PoolsInv pipeline s) {i : ι} {k : Nat}
    (hnot : ∀ k', s.stage i ≠ .calling k') (hk : k < (pipeline i).length)
    (hhops : (s.stage i).serverHops = k) : PoolsInv pipeline (s.call i k) := by
  have hmem : i ∉ s.waiting := by
    intro hi
    obtain ⟨k', hk'⟩ := (hinv.waiting i).mp hi
    exact hnot k' hk'
  refine ⟨?_, ?_, ?_, ?_⟩
  · refine fun {j k'} hj => within_update hinv ?_ hj
    rintro k' (h | h)
    · obtain rfl := Stage.calling.inj h
      exact hk
    · cases h
  · intro j
    show j ∈ s.waiting ++ [i] ↔ ∃ k', Function.update s.stage i (.calling k) j = .calling k'
    rw [List.mem_append, List.mem_singleton]
    by_cases hj : j = i
    · subst hj
      rw [Function.update_self]
      exact iff_of_true (.inr rfl) ⟨k, rfl⟩
    · rw [Function.update_of_ne hj, or_iff_left hj]
      exact hinv.waiting j
  · exact hinv.nodup.append (List.nodup_singleton i) (List.disjoint_singleton.mpr hmem)
  · intro a
    exact (serverHeld_update_le (t := .calling k) rfl hhops.ge a).trans (hinv.capacity a)

theorem inv_accept (hinv : PoolsInv pipeline s) {i : ι} {k : Nat} {a : String}
    (hcalling : s.stage i = .calling k) (hnode : (pipeline i)[k]? = some a)
    (hfree : s.serverHeld pipeline a < serverWorkers) : PoolsInv pipeline (s.accept i k) := by
  refine ⟨?_, ?_, hinv.nodup.erase i, ?_⟩
  · refine fun {j k'} hj => within_update hinv ?_ hj
    rintro k' (h | h)
    · cases h
    · obtain rfl := Stage.serving.inj h
      exact hinv.within (.inl hcalling)
  · intro j
    show j ∈ s.waiting.erase i ↔ ∃ k', Function.update s.stage i (.serving k) j = .calling k'
    rw [hinv.nodup.mem_erase_iff]
    by_cases hj : j = i
    · subst hj
      rw [Function.update_self]
      refine iff_of_false (fun h => h.1 rfl) ?_
      rintro ⟨k', h⟩
      cases h
    · rw [Function.update_of_ne hj, and_iff_right hj]
      exact hinv.waiting j
  · intro b
    have hcut : (fun j => ((s.accept i k).stage j).serverHops) =
        Function.update (fun j => (s.stage j).serverHops) i ((s.stage i).serverHops + 1) := by
      funext j
      show (Function.update s.stage i (.serving k) j).serverHops = _
      by_cases hj : j = i
      · subst hj
        rw [Function.update_self, Function.update_self, hcalling]
        rfl
      · rw [Function.update_of_ne hj, Function.update_of_ne hj]
    have hcapacity := hinv.capacity b
    rw [Pools.serverHeld, hcut, taken_succ (a := a) (by rw [hcalling]; exact hnode)]
    by_cases hab : a = b
    · subst hab
      rw [if_pos rfl]
      exact hfree
    · rw [if_neg hab]
      exact hcapacity

/-- An answer gives a worker back. -/
theorem inv_answering (hinv : PoolsInv pipeline s) {i : ι} {k : Nat}
    (hnot : ∀ k', s.stage i ≠ .calling k') (hhops : k ≤ (s.stage i).serverHops) :
    PoolsInv pipeline (s.set i (.answering k)) := by
  refine ⟨?_, ?_, hinv.nodup, ?_⟩
  · refine fun {j k'} hj => within_update hinv ?_ hj
    rintro k' (h | h) <;> cases h
  · intro j
    show j ∈ s.waiting ↔ ∃ k', Function.update s.stage i (.answering k) j = .calling k'
    by_cases hj : j = i
    · subst hj
      rw [Function.update_self, hinv.waiting]
      refine iff_of_false ?_ ?_
      · rintro ⟨k', h⟩
        exact hnot k' h
      · rintro ⟨k', h⟩
        cases h
    · rw [Function.update_of_ne hj]
      exact hinv.waiting j
  · intro a
    exact (serverHeld_update_le (t := .answering k) rfl hhops a).trans (hinv.capacity a)

/-- **ONE STEP KEEPS THE INVARIANT.** -/
theorem inv_step (hne : ∀ i, pipeline i ≠ []) (hinv : PoolsInv pipeline s)
    (hstep : Step pipeline s e s') : PoolsInv pipeline s' := by
  cases hstep with
  | @begin i hidle =>
      refine inv_call hinv (fun k' h => ?_) (List.length_pos_iff.mpr (hne i)) (by rw [hidle]; rfl)
      rw [hidle] at h
      cases h
  | accept hcalling hnode hfree _ => exact inv_accept hinv hcalling hnode hfree
  | forward hserving _ hmore _ =>
      refine inv_call hinv (fun k' h => ?_) hmore (by rw [hserving]; rfl)
      rw [hserving] at h
      cases h
  | finish hserving _ =>
      refine inv_answering hinv (fun k' h => ?_) (by rw [hserving]; exact Nat.le_succ _)
      rw [hserving] at h
      cases h
  | answer hanswering =>
      refine inv_answering hinv (fun k' h => ?_) (by rw [hanswering]; exact Nat.le_succ _)
      rw [hanswering] at h
      cases h

theorem inv_of_run (hne : ∀ i, pipeline i ≠ []) {es : List (Event ι)}
    (hrun : (writes pipeline).Run es s) : PoolsInv pipeline s := by
  refine hrun.invariant (I := fun _ s => PoolsInv pipeline s) ?_ fun _ _ _ _ hinv hstep =>
    inv_step hne hinv hstep
  rintro _ rfl
  exact inv_start

/-- A call that runs on a node holds a server worker there, and none of the
    forwarding executor yet. -/
theorem forwardHeld_lt {i : ι} {k : Nat} {a : String} (hserving : s.stage i = .serving k)
    (hnode : (pipeline i)[k]? = some a) : s.forwardHeld pipeline a < s.serverHeld pipeline a := by
  have hmore : taken pipeline (Function.update (fun j => (s.stage j).forwardHops) i
      ((s.stage i).forwardHops + 1)) a ≤ s.serverHeld pipeline a := by
    refine taken_mono (fun j => ?_) a
    by_cases hj : j = i
    · subst hj
      rw [Function.update_self, hserving]
      rfl
    · rw [Function.update_of_ne hj]
      cases s.stage j with
      | serving k => exact Nat.le_succ k
      | _ => exact le_refl _
  rw [taken_succ (a := a) (by rw [hserving]; exact hnode), if_pos rfl] at hmore
  exact hmore

omit [Fintype ι] [DecidableEq ι] in
theorem called_eq_some {i : ι} {a : String} :
    s.called pipeline i = some a ↔ ∃ k, s.stage i = .calling k ∧ (pipeline i)[k]? = some a := by
  unfold Pools.called
  cases s.stage i with
  | calling k =>
      refine ⟨fun h => ⟨k, rfl, h⟩, ?_⟩
      rintro ⟨_, hk, h⟩
      obtain rfl := Stage.calling.inj hk
      exact h
  | _ => exact ⟨fun h => (by cases h), fun ⟨_, h, _⟩ => (by cases h)⟩

/-- A node with a free worker takes the first of the calls that wait for it. -/
theorem accept_of_free (hinv : PoolsInv pipeline s) {i : ι} {a : String}
    (hcalled : s.called pipeline i = some a) (hfree : s.serverHeld pipeline a < serverWorkers) :
    Advances pipeline s := by
  obtain ⟨k, hk, _⟩ := called_eq_some.mp hcalled
  have hsome : (s.waiting.find? fun j => s.called pipeline j = some a).isSome := by
    rw [List.find?_isSome]
    exact ⟨i, (hinv.waiting i).mpr ⟨k, hk⟩, decide_eq_true hcalled⟩
  obtain ⟨j, hfirst⟩ := Option.isSome_iff_exists.mp hsome
  have hj : s.called pipeline j = some a := by
    have hj := List.find?_some hfirst
    exact of_decide_eq_true hj
  obtain ⟨k', hcalling, hnode⟩ := called_eq_some.mp hj
  exact ⟨.accept j, _, by simp, .accept hcalling hnode hfree hfirst⟩

/-- **WITHOUT CIRCULAR WAITING A WRITE GOES ON.** -/
theorem advances_of_not_circular (hinv : PoolsInv pipeline s)
    (hsome : ∃ i, (s.stage i).Unfinished) (hnot : ¬ CircularWait pipeline s) :
    Advances pipeline s := by
  obtain ⟨i, hunfinished, hfree⟩ : ∃ i, (s.stage i).Unfinished ∧
      ¬ ∃ k a, s.stage i = .calling k ∧ (pipeline i)[k]? = some a ∧
        s.serverHeld pipeline a = serverWorkers := by
    by_contra hall
    push Not at hall
    exact hnot ⟨hsome, hall⟩
  cases hstage : s.stage i with
  | idle => exact absurd hstage hunfinished.1
  | calling k =>
      have hnode := List.getElem?_eq_getElem (hinv.within (.inl hstage))
      refine accept_of_free hinv (called_eq_some.mpr ⟨k, hstage, hnode⟩) ?_
      exact lt_of_le_of_ne (hinv.capacity _) fun h => hfree ⟨k, _, hstage, hnode, h⟩
  | serving k =>
      have hnode := List.getElem?_eq_getElem (hinv.within (.inr hstage))
      by_cases hmore : k + 1 < (pipeline i).length
      · refine ⟨.forward i, _, by simp, .forward hstage hnode hmore ?_⟩
        exact (forwardHeld_lt hstage hnode).trans_le (hinv.capacity _)
      · have hlast : k + 1 = (pipeline i).length := by
          have := hinv.within (.inr hstage)
          omega
        exact ⟨.finish i, _, by simp, .finish hstage hlast⟩
  | answering k =>
      cases k with
      | zero => exact absurd hstage hunfinished.2
      | succ k => exact ⟨.answer i, _, by simp, .answer hstage⟩

end Invariant

/-! ## Circular waiting is a jam -/

section Jams

variable {pipeline : ι → List String} {active : ι → Prop} {cut : ι → Nat}

omit [DecidableEq ι] in
theorem jam_of_circular {s : Pools ι} (hinv : PoolsInv pipeline s)
    (hcircular : CircularWait pipeline s) :
    Jam serverWorkers pipeline (fun i => (s.stage i).Unfinished)
      (fun i => (s.stage i).serverHops) := by
  refine ⟨hcircular.1, ?_, ?_, hinv.capacity⟩
  · intro i hi
    obtain ⟨k, a, hcalling, hnode, hfull⟩ := hcircular.2 i hi
    refine ⟨a, ?_, hfull⟩
    rw [hcalling]
    exact hnode
  · intro i hi
    unfold Stage.Unfinished at hi
    rw [not_and_or, not_not, not_not] at hi
    rcases hi with hidle | hdone
    · rw [hidle]
      rfl
    · rw [hdone]
      rfl

/-- The stage of a write that holds some workers and has called no further. -/
def held : Nat → Stage
  | 0 => .idle
  | k + 1 => .serving k

theorem serverHops_held (k : Nat) : (held k).serverHops = k := by
  cases k with
  | zero => rfl
  | succ k => rfl

/-- The writes as far as they are cut, without a call that waits. -/
def heldState (cut : ι → Nat) : Pools ι := ⟨fun i => held (cut i), []⟩

omit [DecidableEq ι] in
theorem serverHeld_heldState (a : String) :
    (heldState cut).serverHeld pipeline a = taken pipeline cut a := by
  unfold Pools.serverHeld heldState
  simp only [serverHops_held]

/-- A write calls the next node. -/
theorem step_call {s : Pools ι} {i : ι} {k : Nat} {a : String} (hstage : s.stage i = held k)
    (hnode : (pipeline i)[k]? = some a) (hcapacity : ∀ b, s.serverHeld pipeline b ≤ serverWorkers) :
    ∃ e, Step pipeline s e (s.call i k) := by
  cases k with
  | zero => exact ⟨_, .begin hstage⟩
  | succ k =>
      obtain ⟨hmore, _⟩ := List.getElem?_eq_some_iff.mp hnode
      have hbefore := List.getElem?_eq_getElem (Nat.lt_of_succ_lt hmore)
      exact ⟨_, .forward hstage hbefore hmore
        ((forwardHeld_lt hstage hbefore).trans_le (hcapacity _))⟩

/-- With no other call waiting, a free worker takes the call. -/
theorem path_held_succ {i : ι} {a : String} (hnode : (pipeline i)[cut i]? = some a)
    (hcapacity : ∀ b, taken pipeline cut b ≤ serverWorkers)
    (hfree : taken pipeline cut a < serverWorkers) :
    ∃ es, (writes pipeline).Path (heldState cut) es
      (heldState (Function.update cut i (cut i + 1))) := by
  have hstay : (fun j => (((heldState cut).call i (cut i)).stage j).serverHops) = cut := by
    funext j
    show (Function.update (fun j => held (cut j)) i (.calling (cut i)) j).serverHops = cut j
    by_cases hj : j = i
    · subst hj
      rw [Function.update_self]
      rfl
    · rw [Function.update_of_ne hj]
      exact serverHops_held (cut j)
  have hcalling : ((heldState cut).call i (cut i)).stage i = .calling (cut i) :=
    Function.update_self ..
  obtain ⟨e, hcall⟩ : ∃ e, Step pipeline (heldState cut) e ((heldState cut).call i (cut i)) := by
    refine step_call rfl hnode fun b => ?_
    rw [serverHeld_heldState]
    exact hcapacity b
  have haccept : Step pipeline ((heldState cut).call i (cut i)) (.accept i)
      (((heldState cut).call i (cut i)).accept i (cut i)) := by
    refine .accept hcalling hnode ?_ ?_
    · rw [Pools.serverHeld, hstay]
      exact hfree
    · have hcalled := called_eq_some.mpr ⟨cut i, hcalling, hnode⟩
      exact List.find?_cons_of_pos (decide_eq_true hcalled)
  have hend : ((heldState cut).call i (cut i)).accept i (cut i) =
      heldState (Function.update cut i (cut i + 1)) := by
    show (⟨_, [i].erase i⟩ : Pools ι) = ⟨_, []⟩
    rw [List.erase_cons_head]
    congr 1
    funext j
    show Function.update (Function.update (fun j => held (cut j)) i (.calling (cut i))) i
      (.serving (cut i)) j = held (Function.update cut i (cut i + 1) j)
    by_cases hj : j = i
    · subst hj
      rw [Function.update_self, Function.update_self]
      rfl
    · rw [Function.update_of_ne hj, Function.update_of_ne hj, Function.update_of_ne hj]
  rw [hend] at haccept
  exact ⟨_, (Path.one hcall).append (Path.one haccept)⟩

/-- Whatever fits in the pools can be held. -/
theorem path_heldState (hroute : ∀ i, cut i ≤ (pipeline i).length)
    (hcapacity : ∀ b, taken pipeline cut b ≤ serverWorkers) :
    ∃ es, (writes pipeline).Path .start es (heldState cut) := by
  -- one unit after the other, the total decreases
  induction hn : ∑ i, cut i generalizing cut with
  | zero =>
      have hzero : cut = fun _ => 0 := by
        funext i
        exact (Finset.sum_eq_zero_iff.mp hn) i (Finset.mem_univ i)
      subst hzero
      exact ⟨[], .start⟩
  | succ n ih =>
      obtain ⟨i, _, hi⟩ : ∃ i ∈ Finset.univ, cut i ≠ 0 := by
        refine Finset.exists_ne_zero_of_sum_ne_zero ?_
        rw [hn]
        exact Nat.succ_ne_zero n
      obtain ⟨k, hk⟩ := Nat.exists_eq_succ_of_ne_zero hi
      have hback : Function.update (Function.update cut i k) i
          (Function.update cut i k i + 1) = cut := by
        rw [Function.update_self, Function.update_idem, ← Nat.succ_eq_add_one, ← hk,
          Function.update_eq_self]
      have hlt : k < (pipeline i).length := by
        have := hroute i
        omega
      have hnode : (pipeline i)[Function.update cut i k i]? = some ((pipeline i)[k]) := by
        rw [Function.update_self]
        exact List.getElem?_eq_getElem hlt
      have htaken : ∀ b, taken pipeline (Function.update cut i k) b +
          (if (pipeline i)[k] = b then 1 else 0) = taken pipeline cut b := by
        intro b
        rw [← taken_succ hnode b, hback]
      have hroute' : ∀ j, Function.update cut i k j ≤ (pipeline j).length := by
        intro j
        by_cases hj : j = i
        · subst hj
          rw [Function.update_self]
          exact hlt.le
        · rw [Function.update_of_ne hj]
          exact hroute j
      have hcapacity' : ∀ b, taken pipeline (Function.update cut i k) b ≤ serverWorkers := by
        intro b
        have := htaken b
        have := hcapacity b
        omega
      have hfree : taken pipeline (Function.update cut i k) (pipeline i)[k] < serverWorkers := by
        have h := htaken (pipeline i)[k]
        rw [if_pos rfl] at h
        have := hcapacity (pipeline i)[k]
        omega
      have hsum' : ∑ j, Function.update cut i k j = n := by
        have hsum := Finset.add_sum_erase Finset.univ cut (Finset.mem_univ i)
        have hsum' := Finset.add_sum_erase Finset.univ (Function.update cut i k)
          (Finset.mem_univ i)
        have hothers : ∑ j ∈ Finset.univ.erase i, Function.update cut i k j =
            ∑ j ∈ Finset.univ.erase i, cut j :=
          Finset.sum_congr rfl fun j hj => Function.update_of_ne (Finset.ne_of_mem_erase hj) _ _
        rw [hothers, Function.update_self] at hsum'
        omega
      obtain ⟨es, hpath⟩ := ih hroute' hcapacity' hsum'
      obtain ⟨es', hstep⟩ := path_held_succ hnode hcapacity' hfree
      rw [hback] at hstep
      exact ⟨_, hpath.append hstep⟩

/-- The writes of a list have called the next node, and all wait. -/
def callState (cut : ι → Nat) (called : List ι) : Pools ι :=
  ⟨fun i => if i ∈ called then .calling (cut i) else held (cut i), called⟩

theorem serverHeld_callState (called : List ι) (a : String) :
    (callState cut called).serverHeld pipeline a = taken pipeline cut a := by
  unfold Pools.serverHeld callState
  congr 1
  funext i
  by_cases hi : i ∈ called
  · dsimp only
    rw [if_pos hi, Stage.serverHops]
  · dsimp only
    rw [if_neg hi]
    exact serverHops_held (cut i)

/-- The writes of a list make their calls one after the other. -/
theorem path_callState (hcapacity : ∀ b, taken pipeline cut b ≤ serverWorkers)
    (called : List ι) (hnodup : called.Nodup)
    (hnode : ∀ i ∈ called, ∃ a, (pipeline i)[cut i]? = some a) :
    ∃ es, (writes pipeline).Path (heldState cut) es (callState cut called) := by
  induction called using List.reverseRecOn with
  | nil =>
      have hnone : callState cut [] = heldState cut := rfl
      rw [hnone]
      exact ⟨[], .start⟩
  | append_singleton called i ih =>
      obtain ⟨hbefore, _, hdisjoint⟩ := List.nodup_append'.mp hnodup
      have hi : i ∉ called := List.disjoint_singleton.mp hdisjoint
      obtain ⟨es, hpath⟩ := ih hbefore fun j hj => hnode j (List.mem_append_left _ hj)
      obtain ⟨a, ha⟩ := hnode i (List.mem_append_right _ (List.mem_singleton.mpr rfl))
      obtain ⟨e, hcall⟩ := @step_call _ _ _ pipeline (callState cut called) i (cut i) a
        (if_neg hi) ha fun b => by
          rw [serverHeld_callState]
          exact hcapacity b
      have hnext : (callState cut called).call i (cut i) = callState cut (called ++ [i]) := by
        show (⟨_, _⟩ : Pools ι) = ⟨_, _⟩
        congr 1
        funext j
        show Function.update (fun j => if j ∈ called then .calling (cut j) else held (cut j)) i
          (.calling (cut i)) j = if j ∈ called ++ [i] then _ else _
        by_cases hj : j = i
        · subst hj
          rw [Function.update_self, if_pos (List.mem_append_right _ (List.mem_singleton.mpr rfl))]
        · rw [Function.update_of_ne hj]
          simp only [List.mem_append, List.mem_singleton, hj, or_false]
      rw [hnext] at hcall
      exact ⟨_, hpath.next hcall⟩

/-- **A JAM IS REACHED** by the writes, and it is a circular waiting. -/
theorem circular_of_jam (hjam : Jam serverWorkers pipeline active cut) :
    ∃ es s, (writes pipeline).Run es s ∧ CircularWait pipeline s := by
  classical
  have hnode : ∀ i, active i → ∃ a, (pipeline i)[cut i]? = some a := by
    intro i hi
    obtain ⟨a, ha, _⟩ := hjam.waits i hi
    exact ⟨a, ha⟩
  have hroute : ∀ i, cut i ≤ (pipeline i).length := by
    intro i
    by_cases hi : active i
    · obtain ⟨a, ha⟩ := hnode i hi
      exact (List.getElem?_eq_some_iff.mp ha).1.le
    · rw [hjam.rest i hi]
      exact Nat.zero_le _
  have hmem : ∀ i, i ∈ (Finset.univ.filter active).toList ↔ active i := by
    intro i
    rw [Finset.mem_toList, Finset.mem_filter, and_iff_right (Finset.mem_univ i)]
  obtain ⟨es, hheld⟩ := path_heldState hroute hjam.fits
  obtain ⟨es', hcalls⟩ := path_callState hjam.fits (Finset.univ.filter active).toList
    (Finset.nodup_toList _) fun i hi => hnode i ((hmem i).mp hi)
  refine ⟨_, _, ⟨.start, rfl, hheld.append hcalls⟩, ?_, ?_⟩
  · obtain ⟨i, hi⟩ := hjam.someone
    refine ⟨i, ?_⟩
    show Stage.Unfinished (if _ then _ else _)
    rw [if_pos ((hmem i).mpr hi)]
    exact ⟨by simp, by simp⟩
  · intro i hunfinished
    have hi : active i := by
      by_contra hi
      have hstage : (callState cut (Finset.univ.filter active).toList).stage i = .idle := by
        show (if _ then _ else _) = _
        rw [if_neg (mt (hmem i).mp hi), hjam.rest i hi]
        rfl
      exact hunfinished.1 hstage
    obtain ⟨a, ha, hfull⟩ := hjam.waits i hi
    refine ⟨cut i, a, if_pos ((hmem i).mpr hi), ha, ?_⟩
    rw [serverHeld_callState]
    exact hfull

/-- **WHEN WRITES NEVER WAIT IN A CIRCLE**: when they cannot jam. -/
theorem neverCircular_iff_jam (hne : ∀ i, pipeline i ≠ []) :
    NeverCircular pipeline ↔ ¬ ∃ active cut, Jam serverWorkers pipeline active cut := by
  constructor
  · rintro hnever ⟨active, cut, hjam⟩
    obtain ⟨es, s, hrun, hcircular⟩ := circular_of_jam hjam
    exact (hnever es s hrun).1 hcircular
  · intro hnone es s hrun
    have hinv := inv_of_run hne hrun
    have hnot : ¬ CircularWait pipeline s := fun hcircular =>
      hnone ⟨_, _, jam_of_circular hinv hcircular⟩
    exact ⟨hnot, fun hsome => advances_of_not_circular hinv hsome hnot⟩

end Jams

/-! ## The pipelines of a cluster -/

namespace Cluster

variable (c : Cluster)

theorem alive_pos : 0 < c.alive.length :=
  lt_of_lt_of_le c.config.bounds.1 c.enough

theorem count_pos : 0 < c.count := by
  obtain ⟨hmin, hfactor, _⟩ := c.config.bounds
  exact lt_min (lt_of_lt_of_le hmin hfactor) c.alive_pos

theorem nextOffset_eq (call : Nat) : c.nextOffset call = call % c.alive.length := by
  induction call with
  | zero => exact (Nat.zero_mod _).symm
  | succ call ih => rw [nextOffset, ih, Nat.mod_add_mod]

/-- The live DataNodes as a ring. -/
def place (x : Nat) : String := c.alive.getD x ""

theorem pick_eq (call : Nat) : c.pick call = window c.place c.alive.length c.count call := by
  rw [pick, nextOffset_eq]
  show window c.place c.alive.length c.count (call % c.alive.length) = _
  exact window_mod

omit [Fintype ι] [DecidableEq ι] in
theorem pipelines_ne_nil (calls : ι → Nat) (i : ι) : c.pipelines calls i ≠ [] := by
  rw [pipelines, pick_eq]
  refine List.ne_nil_of_length_pos ?_
  rw [length_window]
  exact c.count_pos

theorem place_injOn (hnodup : c.alive.Nodup) : Set.InjOn c.place {x | x < c.alive.length} := by
  intro x hx y hy h
  simp only [place, List.getD_eq_getElem _ _ hx, List.getD_eq_getElem _ _ hy] at h
  exact (hnodup.getElem_inj_iff).mp h

omit [DecidableEq ι] in
/-- Few writes cannot jam. -/
theorem not_jam_of_lt (hnodup : c.alive.Nodup)
    (hlt : Fintype.card ι * (c.count - 1) < serverWorkers * c.alive.length) (calls : ι → Nat) :
    ¬ ∃ active cut, Jam serverWorkers (c.pipelines calls) active cut := by
  rintro ⟨active, cut, hjam⟩
  have heq : c.pipelines calls = fun i => window c.place c.alive.length c.count (calls i) := by
    funext i
    exact c.pick_eq (calls i)
  rw [heq] at hjam
  exact absurd (hjam.le_card (c.place_injOn hnodup) c.alive_pos c.count_pos)
    (Nat.not_le.mpr hlt)

/-- Writes whose pipelines follow each other around the cluster can. -/
theorem jam_of_many (hnodup : c.alive.Nodup) {W : Nat}
    (hle : serverWorkers * c.alive.length ≤ W * (c.count - 1)) :
    ∃ active cut, Jam serverWorkers
      (c.pipelines fun i : Fin W => i * (c.count - 1)) active cut := by
  have heq : (c.pipelines fun i : Fin W => i * (c.count - 1)) =
      fun i : Fin W => window c.place c.alive.length (c.count - 1 + 1) (i * (c.count - 1)) := by
    funext i
    rw [Nat.sub_add_cancel c.count_pos]
    exact c.pick_eq _
  rw [heq]
  exact ⟨_, _, jam_of_le (c.place_injOn hnodup) c.alive_pos (by decide) hle⟩

end Cluster

/-- **WHEN CONCURRENT WRITES WAIT IN A CIRCLE.**  Writes with given pipelines
    never do exactly when the pipelines cannot jam; with no DataNode named twice
    some assignment to `W` writes does exactly when the pipelines without their
    last node cover the workers of the whole cluster. -/
theorem never_circular_iff (c : Cluster) :
    (∀ (W : Nat) (calls : Fin W → Nat), NeverCircular (c.pipelines calls) ↔
      ¬ ∃ active cut, Jam serverWorkers (c.pipelines calls) active cut) ∧
    (c.alive.Nodup → ∀ W : Nat,
      (∀ calls : Fin W → Nat, calls.Injective → NeverCircular (c.pipelines calls)) ↔
        W * (c.count - 1) < serverWorkers * c.alive.length) := by
  have hfirst : ∀ (W : Nat) (calls : Fin W → Nat), NeverCircular (c.pipelines calls) ↔
      ¬ ∃ active cut, Jam serverWorkers (c.pipelines calls) active cut := fun W calls =>
    neverCircular_iff_jam (c.pipelines_ne_nil calls)
  refine ⟨hfirst, fun hnodup W => ⟨fun hnever => ?_, fun hlt calls _ => ?_⟩⟩
  · by_contra hmany
    have hle := Nat.not_lt.mp hmany
    have hpos : 0 < c.count - 1 := by
      have hworkers : 0 < serverWorkers * c.alive.length := Nat.mul_pos (by decide) c.alive_pos
      exact Nat.pos_of_mul_pos_left (hworkers.trans_le hle)
    have hinj : (fun i : Fin W => i.val * (c.count - 1)).Injective := fun i j h =>
      Fin.ext (Nat.eq_of_mul_eq_mul_right hpos h)
    exact (hfirst W _).mp (hnever _ hinj) (c.jam_of_many hnodup hle)
  · refine (hfirst W calls).mpr (c.not_jam_of_lt hnodup ?_ calls)
    rw [Fintype.card_fin]
    exact hlt

/-- Three DataNodes, all live, and three copies of each block. -/
def threeNodes : Cluster where
  config :=
    { datanodeAddresses := ["d1:50061", "d2:50061", "d3:50061"]
      replicationFactor := 3
      minWriteReplicas := 2
      accepted := by decide }
  live := fun _ => true
  enough := by decide

/-- Fifteen writes, each two nodes further than the one before it. -/
theorem fifteen_writes_wait_in_a_circle :
    ¬ NeverCircular (threeNodes.pipelines fun i : Fin 15 => i * 2) := by
  rw [neverCircular_iff_jam (threeNodes.pipelines_ne_nil _), not_not]
  exact threeNodes.jam_of_many (by decide) (by decide)

end DfshaWritePools
