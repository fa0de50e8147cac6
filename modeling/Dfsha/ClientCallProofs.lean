import Dfsha.BlockFailoverProofs
import Dfsha.ControlTreeProofs
import Mathlib.Algebra.Order.Field.Rat
import Mathlib.Tactic.Linarith
import Mathlib.Tactic.NormNum
import Mathlib.Tactic.Ring

/-! # Following the leader

    `_call` sends one request to node after node, from the one that answered
    last, until one answers or refuses it.  A node that cannot serve now is
    passed over; when a round has asked every node, the client waits and asks
    them again, unless its budget of time is used up.

    The wait is cut at the end of the budget, so the last round begins within
    it.  The exponent of the wait grows with each round, and at the 1025th wait
    the power of two no longer fits a float: the call ends with that error if
    its budget, seventeen minutes at least, has not ended it before.

    Where a round begins is an index that all threads of the client share and
    move; as long as it stays, the tries go around the nodes in order. -/

namespace DfshaClientCall

open DfshaControlTree (Time)
open DfshaBlockFailover (StatusCode ClientError translate)

abbrev RpcError : Type := DfshaBlockFailover.RpcError

/-! ## The code -/

/-- What `__init__` accepts. -/
structure Client where
  controlAddresses : List String
  rpcTimeoutS : Time
  failoverBudgetS : Time
  hasNode : controlAddresses ≠ []
  timeoutPos : 0 < rpcTimeoutS
  budgetPos : 0 < failoverBudgetS

/-- How long each try takes and how it ends, the `_leader_index` it reads, which
    other threads may move between two tries, and the jitter of each wait. -/
structure Network (c : Client) (α : Type) where
  tries : Nat → Time × Except RpcError α
  leaderIndex : Nat → Nat
  jitter : Nat → ℚ
  inTime : ∀ k, 0 ≤ (tries k).1 ∧ (tries k).1 ≤ c.rpcTimeoutS
  jitterRange : ∀ k, 1 / 2 ≤ jitter k ∧ jitter k ≤ 3 / 2

/-- `_RETRYABLE_CODES`. -/
def retryable (e : RpcError) : Bool := e.code = .unavailable || e.code = .deadlineExceeded

def retryBackoffS : Time := 1 / 5

def maxRetryBackoffS : Time := 2

/-- The first power of two that is too large for a float. -/
def floatOverflow : Nat := 1024

/-- `_retry_delay`; none is the `OverflowError` of `_RETRY_BACKOFF_S * (2**attempt)`. -/
def retryDelay (attempt : Nat) (jitter : ℚ) : Option Time :=
  if floatOverflow ≤ attempt then none
  else some (min (retryBackoffS * 2 ^ attempt) maxRetryBackoffS * jitter)

/-- The nodes asked so far with what they said, `last_error`, and the time since
    the call began. -/
structure Progress (α : Type) where
  asked : List (Nat × Except RpcError α)
  lastError : Option RpcError
  elapsed : Time

def Progress.start (α : Type) : Progress α := ⟨[], none, 0⟩

inductive Ending (α : Type) where
  | returned (leaderIndex : Nat) (response : α)
  | raised (e : ClientError)
  | overflowed

section Code

variable {α : Type} (c : Client) (w : Network c α)

def Client.total : Nat := c.controlAddresses.length

/-- `for offset in range(total)`. -/
def askNodes : List Nat → Progress α → Progress α × Option (Ending α)
  | [], p => (p, none)
  | offset :: offsets, p =>
      let index := (w.leaderIndex p.asked.length + offset) % c.total
      let answer := w.tries p.asked.length
      let asked := p.asked ++ [(index, answer.2)]
      match answer.2 with
      | .ok response =>
          (⟨asked, p.lastError, p.elapsed + answer.1⟩, some (.returned index response))
      | .error e =>
          if retryable e = false then
            (⟨asked, p.lastError, p.elapsed + answer.1⟩, some (.raised (translate e)))
          else askNodes offsets ⟨asked, some e, p.elapsed + answer.1⟩

/-- The wait after a round. -/
def wait (attempt : Nat) (elapsed : Time) : Option Time :=
  (retryDelay attempt (w.jitter attempt)).map fun delay =>
    min delay (max 0 (c.failoverBudgetS - elapsed))

/-- `while True`, as many rounds of it as there is fuel for. -/
def callLoop : Nat → Nat → Progress α → Option (Progress α × Ending α)
  | 0, _, _ => none
  | fuel + 1, attempt, p =>
      match askNodes c w (List.range c.total) p with
      | (p, some ending) => some (p, ending)
      | (p, none) =>
          if c.failoverBudgetS ≤ p.elapsed then
            p.lastError.map fun e => (p, .raised (translate e))
          else
            match wait c w attempt p.elapsed with
            | none => some (p, .overflowed)
            | some t => callLoop fuel (attempt + 1) { p with elapsed := p.elapsed + t }

/-- `_call`. -/
def call (fuel : Nat) : Option (Progress α × Ending α) := callLoop c w fuel 0 (Progress.start α)

end Code

/-! ## One round -/

section Round

variable {α : Type} {c : Client} {w : Network c α} {p : Progress α}

theorem total_pos (c : Client) : 0 < c.total := List.length_pos_of_ne_nil c.hasNode

/-- The try was passed over. -/
def Passed (t : Nat × Except RpcError α) : Prop := ∃ e, t.2 = .error e ∧ retryable e = true

/-- The tries go around the nodes, from where the index stands. -/
def InTurn (c : Client) (w : Network c α) (asked : List (Nat × Except RpcError α)) : Prop :=
  ∀ k t, asked[k]? = some t → t = ((w.leaderIndex k + k) % c.total, (w.tries k).2)

/-- All nodes asked so far were passed over, the last one with `last_error`. -/
structure Going (c : Client) (w : Network c α) (p : Progress α) : Prop where
  inTurn : InTurn c w p.asked
  passed : ∀ t ∈ p.asked, Passed t
  lastError : ∀ t, p.asked.getLast? = some t → ∃ e, p.lastError = some e ∧ t.2 = .error e

theorem inTurn_concat {asked : List (Nat × Except RpcError α)} {t : Nat × Except RpcError α}
    (h : InTurn c w asked)
    (ht : t = ((w.leaderIndex asked.length + asked.length) % c.total,
      (w.tries asked.length).2)) :
    InTurn c w (asked ++ [t]) := by
  intro k t' hk
  rcases Nat.lt_trichotomy k asked.length with hlt | rfl | hgt
  · rw [List.getElem?_append_left hlt] at hk
    exact h k t' hk
  · rw [List.getElem?_concat_length] at hk
    rw [← Option.some.inj hk]
    exact ht
  · rw [List.getElem?_eq_none] at hk
    · cases hk
    · rw [List.length_append, List.length_singleton]
      omega

/-- The end of a call: a response of the last try, or the translation of its
    error, when all before it were passed over; or the waits have overflowed
    after 1025 rounds, with more than seventeen minutes of budget. -/
inductive Ends (c : Client) : Progress α → Ending α → Prop
  | returned {p : Progress α} {before : List (Nat × Except RpcError α)} {index : Nat} {a : α}
      (hasked : p.asked = before ++ [(index, .ok a)]) (hbefore : ∀ t ∈ before, Passed t) :
      Ends c p (.returned index a)
  | refused {p : Progress α} {before : List (Nat × Except RpcError α)} {index : Nat}
      {e : RpcError} (hasked : p.asked = before ++ [(index, .error e)])
      (hbefore : ∀ t ∈ before, Passed t) (he : retryable e = false) :
      Ends c p (.raised (translate e))
  | exhausted {p : Progress α} {before : List (Nat × Except RpcError α)} {index : Nat}
      {e : RpcError} (hasked : p.asked = before ++ [(index, .error e)])
      (hpassed : ∀ t ∈ p.asked, Passed t) (hround : c.total ∣ p.asked.length)
      (hlate : c.failoverBudgetS ≤ p.elapsed) : Ends c p (.raised (translate e))
  | overflowed {p : Progress α} (hpassed : ∀ t ∈ p.asked, Passed t)
      (hrounds : p.asked.length = (floatOverflow + 1) * c.total)
      (hbudget : 1020 < c.failoverBudgetS) : Ends c p .overflowed

/-- **A ROUND** from some offset on: it goes on around the nodes and takes no
    more than a timeout for each; it passes over all of them, or one ends it. -/
theorem askNodes_spec (offset n : Nat) (p : Progress α) (hgoing : Going c w p)
    (hoffset : p.asked.length % c.total = offset % c.total) :
    ∀ p' ending, askNodes c w (List.range' offset n) p = (p', ending) →
      InTurn c w p'.asked ∧ p.elapsed ≤ p'.elapsed ∧
      p'.elapsed ≤ p.elapsed + n * c.rpcTimeoutS ∧
      p'.asked.length ≤ p.asked.length + n ∧
      (ending = none → Going c w p' ∧ p'.asked.length = p.asked.length + n) ∧
      ∀ e, ending = some e → Ends c p' e := by
  induction n generalizing offset p with
  | zero =>
      rintro p' ending h
      cases h
      refine ⟨hgoing.inTurn, le_refl _, ?_, Nat.le_refl _, fun _ => ⟨hgoing, rfl⟩, ?_⟩
      · rw [Nat.cast_zero, zero_mul, add_zero]
      · exact fun e he => by cases he
  | succ n ih =>
      intro p' ending h
      rw [List.range'_succ, askNodes] at h
      obtain ⟨hpos, hmax⟩ := w.inTime p.asked.length
      have hindex : (w.leaderIndex p.asked.length + offset) % c.total
          = (w.leaderIndex p.asked.length + p.asked.length) % c.total := by
        rw [Nat.add_mod, ← hoffset, ← Nat.add_mod]
      have hturn : InTurn c w (p.asked ++
          [((w.leaderIndex p.asked.length + offset) % c.total, (w.tries p.asked.length).2)]) :=
        inTurn_concat hgoing.inTurn (by rw [hindex])
      have hone : p.elapsed + (w.tries p.asked.length).1 ≤
          p.elapsed + ((n + 1 : Nat) : ℚ) * c.rpcTimeoutS := by
        have hn : (0 : ℚ) ≤ n * c.rpcTimeoutS :=
          mul_nonneg (Nat.cast_nonneg n) c.timeoutPos.le
        push_cast
        linarith
      have hlength : ∀ t : Nat × Except RpcError α,
          (p.asked ++ [t]).length = p.asked.length + 1 := fun t => List.length_append
      cases hanswer : (w.tries p.asked.length).2 with
      | ok a =>
          rw [hanswer] at h hturn
          cases h
          refine ⟨hturn, by dsimp only; linarith, hone, ?_, fun hnone => (by cases hnone), ?_⟩
          · rw [hlength]
            omega
          · rintro e he
            obtain rfl := Option.some.inj he
            exact .returned rfl hgoing.passed
      | error err =>
          rw [hanswer] at h hturn
          dsimp only at h
          by_cases hretry : retryable err = false
          · rw [if_pos hretry] at h
            cases h
            refine ⟨hturn, by dsimp only; linarith, hone, ?_, fun hnone => (by cases hnone), ?_⟩
            · rw [hlength]
              omega
            · rintro e he
              obtain rfl := Option.some.inj he
              exact .refused rfl hgoing.passed hretry
          · rw [if_neg hretry] at h
            have hgoing' : Going c w ⟨p.asked ++
                [((w.leaderIndex p.asked.length + offset) % c.total, Except.error err)],
                some err, p.elapsed + (w.tries p.asked.length).1⟩ := by
              refine ⟨hturn, ?_, ?_⟩
              · intro t ht
                rcases List.mem_append.mp ht with ht | ht
                · exact hgoing.passed t ht
                · obtain rfl := List.mem_singleton.mp ht
                  exact ⟨err, rfl, (Bool.not_eq_false _).mp hretry⟩
              · intro t ht
                rw [List.getLast?_concat] at ht
                rw [← Option.some.inj ht]
                exact ⟨err, rfl, rfl⟩
            obtain ⟨hturn', hle, hlate, hlen, hnone, hends⟩ := ih (offset + 1) _ hgoing' (by
              rw [hlength, Nat.add_mod, hoffset, ← Nat.add_mod]) p' ending h
            rw [hlength] at hlen hnone
            refine ⟨hturn', ?_, ?_, by omega, fun he => ?_, hends⟩
            · dsimp only at hle
              linarith
            · dsimp only at hlate
              push_cast
              linarith
            · obtain ⟨hgoing'', heq⟩ := hnone he
              exact ⟨hgoing'', by omega⟩

end Round

/-! ## Whole calls -/

section Call

variable {α : Type} {c : Client} {w : Network c α} {p : Progress α}

/-- From the fifth wait on the backoff is at its most. -/
theorem retryDelay_eq_some (w : Network c α) {attempt : Nat} {delay : Time}
    (h : retryDelay attempt (w.jitter attempt) = some delay) :
    attempt < floatOverflow ∧ 0 ≤ delay ∧ (4 ≤ attempt → 1 ≤ delay) := by
  have hjitter := (w.jitterRange attempt).1
  by_cases hover : floatOverflow ≤ attempt
  · rw [retryDelay, if_pos hover] at h
    cases h
  · rw [retryDelay, if_neg hover] at h
    obtain rfl := Option.some.inj h
    refine ⟨not_le.mp hover, ?_, fun hfifth => ?_⟩
    · refine mul_nonneg (le_min ?_ ?_) (by linarith)
      · exact mul_nonneg (by norm_num [retryBackoffS]) (pow_nonneg (by norm_num) _)
      · norm_num [maxRetryBackoffS]
    · have hpow : (2 : ℚ) ^ 4 ≤ 2 ^ attempt := pow_le_pow_right₀ (by norm_num) hfifth
      have hmin : min (retryBackoffS * 2 ^ attempt) maxRetryBackoffS = 2 := by
        refine min_eq_right ?_
        unfold retryBackoffS maxRetryBackoffS
        linarith
      rw [hmin]
      linarith

theorem wait_eq_none {attempt : Nat} {elapsed : Time} (h : wait c w attempt elapsed = none) :
    floatOverflow ≤ attempt := by
  have hdelay := Option.map_eq_none_iff.mp h
  by_contra hfits
  rw [retryDelay, if_neg hfits] at hdelay
  cases hdelay

/-- A wait does not overrun the budget; it uses it up, or is not cut. -/
theorem wait_eq_some {attempt : Nat} {elapsed t : Time} (h : wait c w attempt elapsed = some t)
    (hmore : elapsed < c.failoverBudgetS) :
    attempt < floatOverflow ∧ 0 ≤ t ∧ elapsed + t ≤ c.failoverBudgetS ∧
      (elapsed + t = c.failoverBudgetS ∨ (4 ≤ attempt → 1 ≤ t)) := by
  obtain ⟨delay, hdelay, rfl⟩ := Option.map_eq_some_iff.mp h
  obtain ⟨hfits, hnonneg, hfifth⟩ := retryDelay_eq_some w hdelay
  rw [max_eq_right (by linarith)]
  rcases le_total delay (c.failoverBudgetS - elapsed) with hle | hle
  · rw [min_eq_left hle]
    exact ⟨hfits, hnonneg, by linarith, .inr hfifth⟩
  · rw [min_eq_right hle]
    exact ⟨hfits, by linarith, by linarith, .inl (by ring)⟩

/-- What a round begins with: all were passed over, in whole rounds, and the
    budget is not overrun; it is used up, or the waits from the fifth on have
    taken a second each. -/
structure Begins (c : Client) (w : Network c α) (attempt : Nat) (p : Progress α) : Prop
    extends Going c w p where
  rounds : p.asked.length = attempt * c.total
  fits : attempt ≤ floatOverflow
  budget : p.elapsed ≤ c.failoverBudgetS
  slept : p.elapsed = c.failoverBudgetS ∨ ((attempt - 4 : Nat) : ℚ) ≤ p.elapsed

/-- What a call ends with. -/
structure Ended (c : Client) (w : Network c α) (p : Progress α) (ending : Ending α) :
    Prop where
  inTurn : InTurn c w p.asked
  elapsed : p.elapsed ≤ c.failoverBudgetS + c.total * c.rpcTimeoutS
  ends : Ends c p ending

/-- The budget of a call that waits for the 1025th time. -/
theorem budget_of_overflow {attempt : Nat} (h : Begins c w attempt p)
    (hover : floatOverflow ≤ attempt) (hmore : p.elapsed < c.failoverBudgetS) :
    attempt = floatOverflow ∧ 1020 ≤ p.elapsed := by
  have heq : attempt = floatOverflow := Nat.le_antisymm h.fits hover
  refine ⟨heq, ?_⟩
  rcases h.slept with hused | hslept
  · linarith
  · rw [heq] at hslept
    calc (1020 : ℚ) = ((floatOverflow - 4 : Nat) : ℚ) := by norm_num [floatOverflow]
      _ ≤ p.elapsed := hslept

/-- The next round begins after the wait. -/
theorem begins_succ {attempt : Nat} {p' : Progress α} {t : Time} (h : Begins c w attempt p)
    (hgoing : Going c w p') (hrounds : p'.asked.length = p.asked.length + c.total)
    (hle : p.elapsed ≤ p'.elapsed) (hmore : p'.elapsed < c.failoverBudgetS)
    (hwait : wait c w attempt p'.elapsed = some t) :
    Begins c w (attempt + 1) { p' with elapsed := p'.elapsed + t } := by
  obtain ⟨hfits, hnonneg, hcut, hlong⟩ := wait_eq_some hwait hmore
  refine ⟨⟨hgoing.inTurn, hgoing.passed, hgoing.lastError⟩, ?_, hfits, hcut, ?_⟩
  · show p'.asked.length = (attempt + 1) * c.total
    rw [hrounds, h.rounds, Nat.succ_mul]
  · refine hlong.imp id fun hlong => ?_
    show ((attempt + 1 - 4 : Nat) : ℚ) ≤ p'.elapsed + t
    rcases h.slept with hused | hslept
    · linarith
    · by_cases hfifth : 4 ≤ attempt
      · have hone := hlong hfifth
        rw [Nat.sub_add_comm hfifth, Nat.cast_add, Nat.cast_one]
        linarith
      · have hpos : (0 : ℚ) ≤ ((attempt - 4 : Nat) : ℚ) := Nat.cast_nonneg _
        rw [show attempt + 1 - 4 = 0 by omega, Nat.cast_zero]
        linarith

/-- **A TURN OF THE LOOP**: it ends the call, or the next round begins. -/
theorem callLoop_turn (fuel attempt : Nat) (h : Begins c w attempt p) :
    (∃ p' ending, callLoop c w (fuel + 1) attempt p = some (p', ending) ∧ Ended c w p' ending) ∨
    ∃ p', callLoop c w (fuel + 1) attempt p = callLoop c w fuel (attempt + 1) p' ∧
      Begins c w (attempt + 1) p' := by
  obtain ⟨⟨p', ending⟩, hask⟩ : ∃ r, askNodes c w (List.range c.total) p = r := ⟨_, rfl⟩
  have hbudget := h.budget
  have hoffset : p.asked.length % c.total = 0 % c.total := by
    rw [h.rounds, Nat.mul_mod_left, Nat.zero_mod]
  obtain ⟨hturn, hle, hlate, _, hnone, hends⟩ :=
    askNodes_spec 0 c.total p h.toGoing hoffset p' ending (List.range_eq_range' ▸ hask)
  rw [callLoop, hask]
  cases ending with
  | some e => exact .inl ⟨p', e, rfl, hturn, by linarith, hends e rfl⟩
  | none =>
      obtain ⟨hgoing, hlength⟩ := hnone rfl
      dsimp only
      by_cases hover : c.failoverBudgetS ≤ p'.elapsed
      · rw [if_pos hover]
        -- the round is not empty, so there is a last error
        have hpos := total_pos c
        have hne : p'.asked ≠ [] := List.ne_nil_of_length_pos (by omega)
        obtain ⟨before, ⟨index, r⟩, hbefore⟩ : ∃ before t, p'.asked = before ++ [t] :=
          ⟨_, _, (List.dropLast_append_getLast hne).symm⟩
        obtain ⟨e, hlastError, hr⟩ := hgoing.lastError (index, r)
          (by rw [hbefore, List.getLast?_concat])
        obtain rfl : r = .error e := hr
        rw [hlastError]
        refine .inl ⟨p', _, rfl, hturn, by linarith, .exhausted hbefore hgoing.passed ?_ hover⟩
        rw [hlength, h.rounds]
        exact Nat.dvd_add (Nat.dvd_mul_left _ _) (Nat.dvd_refl _)
      · rw [if_neg hover]
        have hmore := not_le.mp hover
        cases hwait : wait c w attempt p'.elapsed with
        | some t => exact .inr ⟨_, rfl, begins_succ h hgoing hlength hle hmore hwait⟩
        | none =>
            obtain ⟨rfl, hslept⟩ := budget_of_overflow h (wait_eq_none hwait) (by linarith)
            refine .inl ⟨p', .overflowed, rfl, hturn, by linarith,
              .overflowed hgoing.passed ?_ (by linarith)⟩
            rw [hlength, h.rounds, Nat.succ_mul]

/-- The waits that do not overflow bound the rounds. -/
theorem callLoop_ends (fuel attempt : Nat) (p : Progress α) (h : Begins c w attempt p)
    (hfuel : floatOverflow < attempt + fuel) :
    ∃ p' ending, callLoop c w fuel attempt p = some (p', ending) ∧ Ended c w p' ending := by
  induction fuel generalizing attempt p with
  | zero =>
      have hfits := h.fits
      omega
  | succ fuel ih =>
      rcases callLoop_turn fuel attempt h with hended | ⟨p', heq, hbegins⟩
      · exact hended
      · rw [heq]
        exact ih (attempt + 1) p' hbegins (by omega)

theorem begins_start (c : Client) (w : Network c α) : Begins c w 0 (Progress.start α) where
  inTurn k t hk := by cases hk
  passed t ht := absurd ht List.not_mem_nil
  lastError t ht := by cases ht
  rounds := (Nat.zero_mul _).symm
  fits := Nat.zero_le _
  budget := c.budgetPos.le
  slept := .inr (le_of_eq Nat.cast_zero)

/-- Only the last try is not passed over. -/
theorem passed_of_ends {ending : Ending α} (h : Ends c p ending) {k : Nat}
    {t : Nat × Except RpcError α} (hk : p.asked[k]? = some t) (hlt : k + 1 < p.asked.length) :
    Passed t := by
  have hbefore : ∀ {before : List (Nat × Except RpcError α)} {last : Nat × Except RpcError α},
      p.asked = before ++ [last] → (∀ t ∈ before, Passed t) → Passed t := by
    intro before last hasked hpassed
    rw [hasked, List.length_append, List.length_singleton] at hlt
    rw [hasked, List.getElem?_append_left (by omega)] at hk
    exact hpassed t (List.mem_of_getElem? hk)
  cases h with
  | returned hasked hpassed => exact hbefore hasked hpassed
  | refused hasked hpassed _ => exact hbefore hasked hpassed
  | exhausted _ hpassed _ _ => exact hpassed t (List.mem_of_getElem? hk)
  | overflowed hpassed _ _ => exact hpassed t (List.mem_of_getElem? hk)

/-- Each node has its turn in a round. -/
theorem exists_turn (c : Client) (first : Nat) {leader : Nat} (hleader : leader < c.total) :
    ∃ k < c.total, (first + k) % c.total = leader := by
  have hmod := Nat.mod_lt first (total_pos c)
  refine ⟨(leader + (c.total - first % c.total)) % c.total, Nat.mod_lt _ (total_pos c), ?_⟩
  rw [Nat.add_mod, Nat.mod_mod, ← Nat.add_mod, ← Nat.mod_add_mod]
  have heq : first % c.total + (leader + (c.total - first % c.total)) = leader + c.total := by
    omega
  rw [heq, Nat.add_mod_right, Nat.mod_eq_of_lt hleader]

/-- **A CALL ENDS IN TIME**: within its budget and a round of timeouts, whatever
    the nodes and the other threads do.  It has passed over all tries but the
    last; it returns the response of that one, or raises its error, which is no
    reason to ask another node unless the budget is used up and the last round
    was whole; or, with more than seventeen minutes of budget, the wait has
    overflowed.  If the index stays through the first round and one of the nodes
    answers or refuses what reaches it, no node is asked twice. -/
theorem call_ends (c : Client) (w : Network c α) :
    ∃ p ending, call c w (floatOverflow + 1) = some (p, ending) ∧
      InTurn c w p.asked ∧ p.elapsed ≤ c.failoverBudgetS + c.total * c.rpcTimeoutS ∧
      Ends c p ending ∧ ∀ leader < c.total,
        (∀ k < c.total, w.leaderIndex k = w.leaderIndex 0) →
        (∀ k < c.total, ∀ e, (w.leaderIndex 0 + k) % c.total = leader →
          (w.tries k).2 = .error e → retryable e = false) → p.asked.length ≤ c.total := by
  obtain ⟨p, ending, hcall, hturn, helapsed, hends⟩ :=
    callLoop_ends (floatOverflow + 1) 0 _ (begins_start c w) (by omega)
  refine ⟨p, ending, hcall, hturn, helapsed, hends, fun leader hleader hstays hanswers => ?_⟩
  by_contra hlong
  obtain ⟨k, hk, hnode⟩ := exists_turn c (w.leaderIndex 0) hleader
  have hget := List.getElem?_eq_getElem (l := p.asked) (i := k) (by omega)
  obtain ⟨e, herror, hretry⟩ := passed_of_ends hends hget (by omega)
  rw [hturn k _ hget] at herror
  rw [hanswers k hk e hnode herror] at hretry
  cases hretry

end Call

end DfshaClientCall
