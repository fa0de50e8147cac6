import Mathlib.Data.List.Count
import Mathlib.Logic.Function.Basic
import Dfsha.TransitionSystemProofs

/-! # Jobs that run side by side

    A pool runs jobs on a bounded number of threads.  The jobs change something
    that they share, one change at a time and mixed in any order, and each ends
    with a result or an error.  The first error stops the jobs that have not
    begun, and it is the error of the whole; without an error the whole has the
    results of all jobs.

    What a job may do is a relation, since it may depend on what the job sees
    while the others run.  If there was no error then every job has done, in
    order and to its end, something that it may do. -/

namespace ParallelJobs

open TransitionSystem

variable {α ε ρ : Type}

/-- A job, with the changes it has still to make. -/
inductive Job (α ε ρ : Type) where
  | queued
  | running (todo : List α) (result : Except ε ρ)
  | finished (result : Except ε ρ)

/-- The jobs: what each may do, and the error of those that are not begun. -/
structure Plan (α ε ρ : Type) where
  count : Nat
  threads : Nat
  mayDo : Nat → List α → Except ε ρ → Prop
  skipped : ε

/-- `changes` are those made so far, each with the job that made it. -/
structure Pool (α ε ρ : Type) where
  jobs : Nat → Job α ε ρ
  changes : List (Nat × α)
  firstError : Option ε

def Job.isRunning : Job α ε ρ → Bool
  | .running _ _ => true
  | _ => false

namespace Pool

def initial : Pool α ε ρ := ⟨fun _ => .queued, [], none⟩

def setJob (s : Pool α ε ρ) (i : Nat) (job : Job α ε ρ) : Pool α ε ρ :=
  { s with jobs := Function.update s.jobs i job }

theorem jobs_setJob (s : Pool α ε ρ) (i : Nat) (job : Job α ε ρ) (j : Nat) :
    (s.setJob i job).jobs j = if j = i then job else s.jobs j :=
  Function.update_apply s.jobs i job j

/-- How many of the first `count` jobs are running. -/
def running (s : Pool α ε ρ) (count : Nat) : Nat :=
  (List.range count).countP fun i => (s.jobs i).isRunning

end Pool

inductive Event where
  | start (i : Nat)
  | change (i : Nat)
  | finish (i : Nat)

inductive Step (p : Plan α ε ρ) (s : Pool α ε ρ) : Event → Pool α ε ρ → Prop
  | start {i : Nat} {todo : List α} {result : Except ε ρ} (hi : i < p.count)
      (hqueued : s.jobs i = .queued) (hroom : s.running p.count < p.threads)
      (hquiet : s.firstError = none) (hmay : p.mayDo i todo result) :
      Step p s (.start i) (s.setJob i (.running todo result))
  -- another job has failed
  | skip {i : Nat} {e : ε} (hi : i < p.count) (hqueued : s.jobs i = .queued)
      (hroom : s.running p.count < p.threads) (hstopped : s.firstError = some e) :
      Step p s (.start i) (s.setJob i (.finished (.error p.skipped)))
  | change {i : Nat} {a : α} {todo : List α} {result : Except ε ρ}
      (hrunning : s.jobs i = .running (a :: todo) result) :
      Step p s (.change i)
        { s.setJob i (.running todo result) with changes := s.changes ++ [(i, a)] }
  | finish {i : Nat} {r : ρ} (hrunning : s.jobs i = .running [] (.ok r)) :
      Step p s (.finish i) (s.setJob i (.finished (.ok r)))
  | fail {i : Nat} {e : ε} (hrunning : s.jobs i = .running [] (.error e)) :
      Step p s (.finish i)
        { s.setJob i (.finished (.error e)) with firstError := some (s.firstError.getD e) }

def pool (p : Plan α ε ρ) : System (Pool α ε ρ) Event where
  init := fun s => s = .initial
  step := fun s l s' => Step p s l s'

/-- The changes of one job, in order. -/
def own (i : Nat) (changes : List (Nat × α)) : List α :=
  (changes.filter fun x => x.1 = i).map Prod.snd

/-- The jobs have all ended, without an error. -/
def Returns (p : Plan α ε ρ) (changes : List (Nat × α)) (results : List ρ) : Prop :=
  ∃ es s, (pool p).Run es s ∧ s.firstError = none ∧ s.changes = changes ∧
    results.length = p.count ∧
    ∀ i r, results[i]? = some r → s.jobs i = .finished (.ok r)

/-- The jobs have all ended, and one has failed first. -/
def Raises (p : Plan α ε ρ) (changes : List (Nat × α)) (e : ε) : Prop :=
  ∃ es s, (pool p).Run es s ∧ s.firstError = some e ∧ s.changes = changes ∧
    ∀ i, i < p.count → ∃ result, s.jobs i = .finished result

/-! ## The changes of one job -/

theorem own_append (i : Nat) (l l' : List (Nat × α)) : own i (l ++ l') = own i l ++ own i l' := by
  rw [own, List.filter_append, List.map_append]
  rfl

theorem own_cons_self {i : Nat} {x : Nat × α} (h : x.1 = i) (l : List (Nat × α)) :
    own i (x :: l) = x.2 :: own i l := by
  rw [own, List.filter_cons_of_pos (by simpa using h)]
  rfl

theorem own_cons_ne {i : Nat} {x : Nat × α} (h : x.1 ≠ i) (l : List (Nat × α)) :
    own i (x :: l) = own i l := by
  rw [own, List.filter_cons_of_neg (by simpa using h)]
  rfl

theorem own_concat_self (i : Nat) (l : List (Nat × α)) (a : α) :
    own i (l ++ [(i, a)]) = own i l ++ [a] := by
  rw [own_append, own_cons_self (show (i, a).1 = i from rfl)]
  rfl

theorem own_concat_ne {i j : Nat} (hne : j ≠ i) (l : List (Nat × α)) (a : α) :
    own i (l ++ [(j, a)]) = own i l := by
  rw [own_append, own_cons_ne (show (j, a).1 ≠ i from hne)]
  exact List.append_nil _

theorem mem_own {i : Nat} {l : List (Nat × α)} {a : α} : a ∈ own i l ↔ (i, a) ∈ l := by
  rw [own, List.mem_map]
  constructor
  · rintro ⟨⟨j, b⟩, hmem, rfl⟩
    obtain ⟨hl, hj⟩ := List.mem_filter.mp hmem
    obtain rfl := of_decide_eq_true hj
    exact hl
  · intro h
    exact ⟨(i, a), List.mem_filter.mpr ⟨h, decide_eq_true rfl⟩, rfl⟩

/-! ## The invariant -/

/-- What a job has done, `mine`, is the beginning of something it may do. -/
def JobInv (p : Plan α ε ρ) (i : Nat) (mine : List α) (firstError : Option ε) :
    Job α ε ρ → Prop
  | .queued => mine = []
  | .running todo result => i < p.count ∧ p.mayDo i (mine ++ todo) result
  | .finished (.ok r) => p.mayDo i mine (.ok r)
  | .finished (.error _) => firstError ≠ none

structure PoolInv (p : Plan α ε ρ) (s : Pool α ε ρ) : Prop where
  job : ∀ i, JobInv p i (own i s.changes) s.firstError (s.jobs i)
  only : ∀ x ∈ s.changes, x.1 < p.count

section Invariant

variable {p : Plan α ε ρ} {s s' : Pool α ε ρ} {l : Event}

/-- An error that is raised does not disturb the jobs. -/
theorem JobInv.raised {i : Nat} {mine : List α} {firstError : Option ε} {job : Job α ε ρ}
    (h : JobInv p i mine firstError job) (e : ε) : JobInv p i mine (some e) job := by
  cases job with
  | queued => exact h
  | running todo result => exact h
  | finished result =>
      cases result with
      | ok r => exact h
      | error e' => exact Option.some_ne_none e

/-- A step that changes one job and no more. -/
theorem jobInv_setJob (h : PoolInv p s) {i : Nat} {job : Job α ε ρ}
    (hjob : JobInv p i (own i s.changes) s.firstError job) (j : Nat) :
    JobInv p j (own j s.changes) s.firstError ((s.setJob i job).jobs j) := by
  rw [Pool.jobs_setJob]
  by_cases hj : j = i
  · rw [if_pos hj, hj]
    exact hjob
  · rw [if_neg hj]
    exact h.job j

theorem poolInv_step (h : PoolInv p s) (hstep : Step p s l s') : PoolInv p s' := by
  cases hstep with
  | @start i todo result hi hqueued _ _ hmay =>
      have hmine : own i s.changes = [] := by
        have hjob := h.job i
        rwa [hqueued] at hjob
      refine ⟨jobInv_setJob h ⟨hi, ?_⟩, h.only⟩
      rwa [hmine]
  | skip hi _ _ hstopped =>
      refine ⟨jobInv_setJob h ?_, h.only⟩
      show s.firstError ≠ none
      rw [hstopped]
      exact Option.some_ne_none _
  | @change i a todo result hrunning =>
      have hjob := h.job i
      rw [hrunning] at hjob
      refine ⟨fun j => ?_, fun x hx => ?_⟩
      · show JobInv p j (own j (s.changes ++ [(i, a)])) s.firstError
          ((s.setJob i (.running todo result)).jobs j)
        rw [Pool.jobs_setJob]
        by_cases hj : j = i
        · rw [if_pos hj, hj, own_concat_self]
          refine ⟨hjob.1, ?_⟩
          rw [List.append_assoc]
          exact hjob.2
        · rw [if_neg hj, own_concat_ne (Ne.symm hj)]
          exact h.job j
      · rcases List.mem_append.mp hx with hx | hx
        · exact h.only x hx
        · rw [List.mem_singleton.mp hx]
          exact hjob.1
  | @finish i r hrunning =>
      have hjob := h.job i
      rw [hrunning] at hjob
      refine ⟨jobInv_setJob h ?_, h.only⟩
      have hdone := hjob.2
      rwa [List.append_nil] at hdone
  | @fail i e hrunning =>
      refine ⟨fun j => ?_, h.only⟩
      show JobInv p j (own j s.changes) (some (s.firstError.getD e))
        ((s.setJob i (.finished (.error e))).jobs j)
      rw [Pool.jobs_setJob]
      by_cases hj : j = i
      · rw [if_pos hj]
        exact Option.some_ne_none _
      · rw [if_neg hj]
        exact (h.job j).raised _

theorem poolInv_initial : PoolInv p Pool.initial :=
  ⟨fun _ => rfl, fun _ hx => absurd hx List.not_mem_nil⟩

theorem poolInv_run {es : List Event} (hrun : (pool p).Run es s) : PoolInv p s := by
  refine hrun.invariant (I := fun _ s => PoolInv p s) ?_ ?_
  · rintro s rfl
    exact poolInv_initial
  · exact fun _ _ _ _ h hstep => poolInv_step h hstep

end Invariant

section Outcome

variable {p : Plan α ε ρ} {changes : List (Nat × α)} {results : List ρ}

/-- **WITHOUT AN ERROR EVERY JOB HAS DONE ITS WORK**, however the changes are
    mixed. -/
theorem Returns.did (h : Returns p changes results) {i : Nat} {r : ρ}
    (hr : results[i]? = some r) : p.mayDo i (own i changes) (.ok r) := by
  obtain ⟨es, s, hrun, _, rfl, _, hfinished⟩ := h
  have hjob := (poolInv_run hrun).job i
  rwa [hfinished i r hr] at hjob

/-- Nobody else has made a change. -/
theorem Returns.only (h : Returns p changes results) : ∀ x ∈ changes, x.1 < p.count := by
  obtain ⟨es, s, hrun, _, rfl, _⟩ := h
  exact (poolInv_run hrun).only

theorem Returns.length (h : Returns p changes results) : results.length = p.count := by
  obtain ⟨_, _, _, _, _, hlength, _⟩ := h
  exact hlength

end Outcome

/-! ## Every order of the changes -/

section Order

variable {p : Plan α ε ρ} {result : Nat → ρ}

/-- As long as a job is queued there is a thread for it. -/
theorem running_lt_count {s : Pool α ε ρ} {i : Nat} (hi : i < p.count)
    (hqueued : s.jobs i = .queued) : s.running p.count < p.count := by
  have hidle : (s.jobs i).isRunning = false := by
    rw [hqueued]
    rfl
  have hlt : (List.range p.count).countP (fun i => (s.jobs i).isRunning)
      < (List.range p.count).length :=
    List.countP_lt_length_iff.mpr ⟨i, List.mem_range.mpr hi, hidle⟩
  rwa [List.length_range] at hlt

/-- The first `k` jobs are begun. -/
theorem path_begun (hthreads : p.count ≤ p.threads) {todo : Nat → List α}
    (hmay : ∀ i < p.count, p.mayDo i (todo i) (.ok (result i))) {k : Nat} (hk : k ≤ p.count) :
    ∃ es s, (pool p).Path .initial es s ∧ s.firstError = none ∧ s.changes = [] ∧
      ∀ i, s.jobs i = if i < k then .running (todo i) (.ok (result i)) else .queued := by
  induction k with
  | zero => exact ⟨[], _, .start, rfl, rfl, fun i => rfl⟩
  | succ k ih =>
      obtain ⟨es, s, hpath, herror, hchanges, hjobs⟩ := ih (by omega)
      have hqueued : s.jobs k = .queued := (hjobs k).trans (if_neg (Nat.lt_irrefl k))
      have hroom := Nat.lt_of_lt_of_le (running_lt_count hk hqueued) hthreads
      refine ⟨_, _, hpath.next (.start hk hqueued hroom herror (hmay k hk)), herror, hchanges,
        fun i => ?_⟩
      rw [Pool.jobs_setJob]
      by_cases hi : i = k
      · rw [if_pos hi, if_pos (by omega), hi]
      · rw [if_neg hi, hjobs i]
        by_cases hlt : i < k
        · rw [if_pos hlt, if_pos (by omega)]
        · rw [if_neg hlt, if_neg (by omega)]

/-- The jobs make their changes in the order of the list. -/
theorem path_changed {rest : List (Nat × α)} {s : Pool α ε ρ}
    (honly : ∀ x ∈ rest, x.1 < p.count)
    (hjobs : ∀ i < p.count, s.jobs i = .running (own i rest) (.ok (result i))) :
    ∃ es s', (pool p).Path s es s' ∧ s'.firstError = s.firstError ∧
      s'.changes = s.changes ++ rest ∧
      ∀ i < p.count, s'.jobs i = .running [] (.ok (result i)) := by
  induction rest generalizing s with
  | nil => exact ⟨[], s, .start, rfl, (List.append_nil _).symm, hjobs⟩
  | cons x rest ih =>
      obtain ⟨i, a⟩ := x
      have hrunning := hjobs i (honly _ List.mem_cons_self)
      rw [own_cons_self (show (i, a).1 = i from rfl)] at hrunning
      have hstep := Step.change (p := p) hrunning
      have hjobs' : ∀ j < p.count, (s.setJob i (.running (own i rest) (.ok (result i)))).jobs j
          = .running (own j rest) (.ok (result j)) := by
        intro j hj
        rw [Pool.jobs_setJob]
        by_cases hji : j = i
        · rw [if_pos hji, hji]
        · rw [if_neg hji, hjobs j hj, own_cons_ne (show (i, a).1 ≠ j from Ne.symm hji)]
      obtain ⟨es, s', hpath, herror, hchanges, hdone⟩ := ih
        (s := { s.setJob i (.running (own i rest) (.ok (result i))) with
          changes := s.changes ++ [(i, a)] })
        (fun y hy => honly y (List.mem_cons_of_mem _ hy)) hjobs'
      refine ⟨_, s', .cons hstep hpath, herror, ?_, hdone⟩
      rw [hchanges, List.append_assoc]
      rfl

/-- The first `k` jobs are finished. -/
theorem path_finished {s : Pool α ε ρ}
    (hjobs : ∀ i < p.count, s.jobs i = .running [] (.ok (result i))) {k : Nat}
    (hk : k ≤ p.count) :
    ∃ es s', (pool p).Path s es s' ∧ s'.firstError = s.firstError ∧ s'.changes = s.changes ∧
      ∀ i, s'.jobs i = if i < k then .finished (.ok (result i)) else s.jobs i := by
  induction k with
  | zero => exact ⟨[], s, .start, rfl, rfl, fun i => rfl⟩
  | succ k ih =>
      obtain ⟨es, s', hpath, herror, hchanges, hdone⟩ := ih (by omega)
      have hrunning : s'.jobs k = .running [] (.ok (result k)) := by
        rw [hdone k, if_neg (Nat.lt_irrefl k), hjobs k hk]
      refine ⟨_, _, hpath.next (.finish hrunning), herror, hchanges, fun i => ?_⟩
      rw [Pool.jobs_setJob]
      by_cases hi : i = k
      · rw [if_pos hi, if_pos (by omega), hi]
      · rw [if_neg hi, hdone i]
        by_cases hlt : i < k
        · rw [if_pos hlt, if_pos (by omega)]
        · rw [if_neg hlt, if_neg (by omega)]

/-- **EVERY ORDER HAPPENS**: where there are threads for all, the changes that
    each job may make can be mixed in any way. -/
theorem returns_of_order (result : Nat → ρ) {changes : List (Nat × α)}
    (hthreads : p.count ≤ p.threads)
    (hmay : ∀ i < p.count, p.mayDo i (own i changes) (.ok (result i)))
    (honly : ∀ x ∈ changes, x.1 < p.count) :
    Returns p changes ((List.range p.count).map result) := by
  obtain ⟨es₁, s₁, hpath₁, herror₁, hchanges₁, hjobs₁⟩ :=
    path_begun hthreads hmay (Nat.le_refl _)
  obtain ⟨es₂, s₂, hpath₂, herror₂, hchanges₂, hjobs₂⟩ := path_changed (p := p) (s := s₁) honly
    fun i hi => (hjobs₁ i).trans (if_pos hi)
  obtain ⟨es₃, s₃, hpath₃, herror₃, hchanges₃, hjobs₃⟩ := path_finished hjobs₂ (Nat.le_refl _)
  refine ⟨_, s₃, ⟨_, rfl, (hpath₁.append hpath₂).append hpath₃⟩,
    herror₃.trans (herror₂.trans herror₁), ?_, ?_, fun i r hr => ?_⟩
  · rw [hchanges₃, hchanges₂, hchanges₁, List.nil_append]
  · rw [List.length_map, List.length_range]
  · rw [List.getElem?_map] at hr
    obtain ⟨j, hj, rfl⟩ := Option.map_eq_some_iff.mp hr
    obtain ⟨hlt, rfl⟩ := List.getElem?_eq_some_iff.mp hj
    rw [List.length_range] at hlt
    rw [List.getElem_range, hjobs₃, if_pos hlt]

end Order

end ParallelJobs
