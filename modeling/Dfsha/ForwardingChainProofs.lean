import Dfsha.WriteBlockProofs

/-! # How the hops are linked

    Each hop knows its own address and the addresses after it; a hop is touched
    by its own acts and by the thread of the hop before it.  So what is known
    of the chain is known of every hop, and of every hop and the next. -/

namespace DfshaForwardingChain

open LinkedCells TransitionSystem TransitionSystem.System DfshaWriteBlock
open DfshaBlockStore (Bytes)

/-! ## A hop and its neighbours -/

/-- What a hop knows of the chain and of its copy, by where its handler is. -/
def PhaseInv (digest : Bytes → String) (chain : List String) (i : Nat) (h : Hop) : Prop :=
  match h.phase with
  | .idle => h.forwarder = .absent
  | .waiting => h.forwarder = .absent ∧
      ∀ d rest, h.rx = .header d :: rest → d = chain.drop (i + 1)
  | .awaiting r => h.downstream = chain.drop (i + 1) ∧ r.checksum = digest h.got.flatten
  | .done (some r) => h.downstream = chain.drop (i + 1) ∧
      r.checksum = digest h.got.flatten ∧ (h.downstream = [] ∨
        ∃ answer, h.forwarder = .answered (some answer) ∧ answer.checksum = r.checksum)
  | .done none => True
  | _ => h.downstream = chain.drop (i + 1)

structure HopInv (digest : Bytes → String) (chain : List String) (i : Nat) (h : Hop) :
    Prop where
  address : h.phase ≠ .idle → chain[i]? = some h.address
  submitted : h.forwarder = .submitted → h.downstream = chain.drop (i + 1)
  phase : PhaseInv digest chain i h

/-- No stream to the next hop has been opened. -/
def NotStarted (f : Forwarder) : Prop := f = .absent ∨ f = .submitted ∨ f = .cancelled

/-- The next hop moves only when the thread of this one runs; and what this one
    has been answered is what the next one has answered. -/
structure LinkInv (h h' : Hop) : Prop where
  idle : NotStarted h.forwarder → h'.phase = .idle
  answered : ∀ answer, h.forwarder = .answered (some answer) → h'.phase = .done (some answer)

/-- The hops as they are linked. -/
abbrev Chained (digest : Bytes → String) (chain : List String) (hops : Nat → Hop) : Prop :=
  Linked (HopInv digest chain) (fun _ => LinkInv) hops

section Act

variable {digest : Bytes → String} {chain : List String} {i : Nat} {h h' next : Hop} {a : Act}

/-- A change of the stream that brings no header. -/
theorem phaseInv_stream (hinv : PhaseInv digest chain i h) (rx : List Message)
    (rxEnd : StreamEnd)
    (hheader : ∀ d rest, rx = .header d :: rest → ∃ rest', h.rx = .header d :: rest') :
    PhaseInv digest chain i { h with rx, rxEnd } := by
  unfold PhaseInv at hinv ⊢
  cases hphase : h.phase with
  | waiting =>
      rw [hphase] at hinv
      refine ⟨hinv.1, fun d rest hrx => ?_⟩
      obtain ⟨rest', hrx'⟩ := hheader d rest hrx
      exact hinv.2 d rest' hrx'
  | done answer =>
      rw [hphase] at hinv
      cases answer with
      | none => trivial
      | some r => exact hinv
  | idle | creating | reading | putting | writing | closing | finalizing | awaiting =>
      rw [hphase] at hinv
      exact hinv

/-- A change of the thread, where there is one that has not been answered. -/
theorem phaseInv_forwarder (hinv : PhaseInv digest chain i h) (forwarder : Forwarder)
    (habsent : h.forwarder ≠ .absent) (hopen : ∀ answer, h.forwarder ≠ .answered answer) :
    PhaseInv digest chain i { h with forwarder } := by
  unfold PhaseInv at hinv ⊢
  cases hphase : h.phase with
  | idle =>
      rw [hphase] at hinv
      exact absurd hinv habsent
  | waiting =>
      rw [hphase] at hinv
      exact absurd hinv.1 habsent
  | done answer =>
      rw [hphase] at hinv
      cases answer with
      | none => trivial
      | some r =>
          refine ⟨hinv.1, hinv.2.1, hinv.2.2.imp_right ?_⟩
          rintro ⟨answer, hanswered, _⟩
          exact absurd hanswered (hopen _)
  | creating | reading | putting | writing | closing | finalizing | awaiting =>
      rw [hphase] at hinv
      exact hinv

/-- **AN ACT KEEPS WHAT THE HOP KNOWS.** -/
theorem phaseInv_acts (hinv : PhaseInv digest chain i h) (hacts : Acts digest h a h') :
    PhaseInv digest chain i h' := by
  cases hacts with
  | @accept downstream rest hphase hrx =>
      rw [PhaseInv, hphase] at hinv
      exact hinv.2 downstream rest hrx
  | refuse | receiveBrokenLast | closeRaised | fail | reject | crash | collectFailed
  | unlinkFails =>
      trivial
  | create hphase | receive hphase | receiveLast hphase | receiveEnd hphase
  | receiveEndLast hphase | receiveBroken hphase | put hphase | write hphase | close hphase
  | failForwarding hphase =>
      rw [PhaseInv, hphase] at hinv
      exact hinv
  | publish hphase hforward =>
      rw [PhaseInv, hphase] at hinv
      exact ⟨hinv, rfl⟩
  | publishLast hphase hlast =>
      rw [PhaseInv, hphase] at hinv
      exact ⟨hinv, rfl, .inl hlast⟩
  | collect hphase hforwarder hsame =>
      rw [PhaseInv, hphase] at hinv
      exact ⟨hinv.1, hinv.2, .inr ⟨_, hforwarder, hsame⟩⟩
  | cut hphase hend => exact phaseInv_stream hinv [] .broken fun d rest hrx => nomatch hrx
  | lose hforwarder =>
      refine phaseInv_forwarder hinv (.answered none) ?_ ?_
      · rcases hforwarder with h' | h' | h'
        · simp [h']
        · simp [h']
        · simp [h']
      · rcases hforwarder with h' | h' | h'
        · simp [h']
        · simp [h']
        · simp [h']
  | stop hforwarder =>
      exact phaseInv_forwarder hinv .cancelled (by simp [hforwarder]) (by simp [hforwarder])

theorem ne_idle_of_acts (hinv : PhaseInv digest chain i h) (hacts : Acts digest h a h') :
    h.phase ≠ .idle := by
  intro hidle
  cases hacts with
  | lose hforwarder =>
      rw [PhaseInv, hidle] at hinv
      rw [hinv] at hforwarder
      rcases hforwarder with hf | hf | hf
      · exact nomatch hf
      · exact nomatch hf
      · exact nomatch hf
  | stop hforwarder =>
      rw [PhaseInv, hidle] at hinv
      cases hinv.symm.trans hforwarder
  | cut hphase | crash hphase => exact hphase hidle
  | fail hphase =>
      rw [hidle] at hphase
      rcases hphase with hphase | hphase | ⟨hphase, _⟩
      · exact nomatch hphase
      · exact nomatch hphase
      · exact nomatch hphase
  | accept hphase | refuse hphase | create hphase | receive hphase | receiveLast hphase
  | receiveEnd hphase | receiveEndLast hphase | receiveBroken hphase
  | receiveBrokenLast hphase | put hphase | write hphase | close hphase | closeRaised hphase
  | publish hphase | publishLast hphase | collect hphase | collectFailed hphase
  | unlinkFails hphase | failForwarding hphase | reject hphase =>
      exact nomatch hidle.symm.trans hphase

theorem hopInv_acts (hinv : HopInv digest chain i h) (hacts : Acts digest h a h') :
    HopInv digest chain i h' := by
  refine ⟨fun hidle => ?_, fun hsubmitted => ?_, phaseInv_acts hinv.phase hacts⟩
  · rw [hacts.address]
    refine hinv.address fun hidle' => ?_
    rcases hacts.phase with hsame | ⟨hwork, _⟩
    · exact hidle (hsame.trans hidle')
    · exact hwork hidle'
  · cases hacts with
    | accept hphase hrx =>
        have hwaiting := hinv.phase
        rw [PhaseInv, hphase] at hwaiting
        exact hwaiting.2 _ _ hrx
    | closeRaised | fail | failForwarding =>
        exact absurd hsubmitted Forwarder.cancel_ne_submitted
    | crash => exact absurd hsubmitted Forwarder.crash_ne_submitted
    | lose | stop => cases hsubmitted
    | refuse | create | receive | receiveLast | receiveEnd | receiveEndLast | receiveBroken
    | receiveBrokenLast | put | write | close | publish | publishLast | collect
    | collectFailed | unlinkFails | cut | reject =>
        exact hinv.submitted hsubmitted

theorem notStarted_cancel {f : Forwarder} (h : NotStarted f.cancel) : NotStarted f := by
  cases f with
  | submitted => exact .inr (.inl rfl)
  | absent | running | drained | answered | cancelled => exact h

theorem notStarted_crash {f : Forwarder} (h : NotStarted f.crash) : NotStarted f := by
  cases f with
  | submitted => exact .inr (.inl rfl)
  | running | drained =>
      rcases h with h | h | h
      · exact nomatch h
      · exact nomatch h
      · exact nomatch h
  | absent | answered | cancelled => exact h

theorem cancel_eq_answered {f : Forwarder} {answer : Option Response}
    (h : f.cancel = .answered answer) : f = .answered answer := by
  cases f with
  | submitted => exact nomatch h
  | absent | running | drained | answered | cancelled => exact h

theorem crash_eq_answered {f : Forwarder} {r : Response}
    (h : f.crash = .answered (some r)) : f = .answered (some r) := by
  cases f with
  | submitted | running | drained => exact nomatch h
  | absent | answered | cancelled => exact h

/-- An act at the near end of a link. -/
theorem linkInv_near (hinv : HopInv digest chain i h) (hlink : LinkInv h next)
    (hacts : Acts digest h a h') : LinkInv h' next := by
  rcases hacts.forwarder with hf | hf | hf | ⟨_, hf, _⟩ | ⟨_, hphase, hf⟩
  · exact ⟨fun hc => hlink.idle (hf ▸ hc), fun r hc => hlink.answered r (hf ▸ hc)⟩
  · exact ⟨fun hc => hlink.idle (notStarted_cancel (hf ▸ hc)),
      fun r hc => hlink.answered r (cancel_eq_answered (hf ▸ hc))⟩
  · exact ⟨fun hc => hlink.idle (notStarted_crash (hf ▸ hc)),
      fun r hc => hlink.answered r (crash_eq_answered (hf ▸ hc))⟩
  · constructor
    · intro hc
      rw [hf] at hc
      rcases hc with hc | hc | hc
      · exact nomatch hc
      · exact nomatch hc
      · exact nomatch hc
    · intro r hc
      exact nomatch hf.symm.trans hc
  · -- the header has been read, and the thread has not started
    have hwaiting := hinv.phase
    rw [PhaseInv, hphase] at hwaiting
    refine ⟨fun _ => hlink.idle (.inl hwaiting.1), fun r hc => ?_⟩
    rw [hf] at hc
    by_cases hlast : h'.downstream = []
    · rw [if_pos hlast] at hc
      exact nomatch hc
    · rw [if_neg hlast] at hc
      exact nomatch hc

/-- An act at the far end of a link. -/
theorem linkInv_far (hlink : LinkInv next h) (hacts : Acts digest h a h') :
    LinkInv next h' := by
  rcases hacts.phase with hsame | ⟨hidle, hdone⟩
  · exact ⟨fun hc => hsame.trans (hlink.idle hc), fun r hc => hsame.trans (hlink.answered r hc)⟩
  · exact ⟨fun hc => absurd (hlink.idle hc) hidle,
      fun r hc => absurd (hlink.answered r hc) (hdone _)⟩

/-- What arrives on the stream of a hop changes nothing else. -/
theorem hopInv_deliver (hinv : HopInv digest chain i h) (item : Option Bytes) :
    HopInv digest chain i (deliver h item) := by
  cases item with
  | none =>
      rw [deliver]
      by_cases hlive : h.rxEnd = .live
      · rw [if_pos hlive]
        exact ⟨hinv.address, hinv.submitted,
          phaseInv_stream hinv.phase h.rx .finished fun d rest hrx => ⟨rest, hrx⟩⟩
      · rw [if_neg hlive]
        exact hinv
  | some chunk =>
      rw [deliver]
      by_cases hlive : h.rxEnd = .live
      · rw [if_pos hlive]
        refine ⟨hinv.address, hinv.submitted,
          phaseInv_stream hinv.phase (h.rx ++ [.data chunk]) h.rxEnd fun d rest hrx => ?_⟩
        cases hrx' : h.rx with
        | nil =>
            rw [hrx', List.nil_append] at hrx
            cases hrx
        | cons message rest' =>
            rw [hrx', List.cons_append] at hrx
            exact ⟨rest', by rw [(List.cons.inj hrx).1]⟩
      · rw [if_neg hlive]
        exact hinv

/-- A link sees of its far end only the phase, and of its near end only the
    thread. -/
theorem linkInv_congr {near far near' far' : Hop} (hlink : LinkInv near far)
    (hforwarder : near'.forwarder = near.forwarder) (hphase : far'.phase = far.phase) :
    LinkInv near' far' :=
  ⟨fun hc => hphase.trans (hlink.idle (hforwarder ▸ hc)),
    fun r hc => hphase.trans (hlink.answered r (hforwarder ▸ hc))⟩

end Act

/-! ## The chain -/

section Chain

variable {digest : Bytes → String} {chain : List String} {s s' : Pipeline} {l : Label}

theorem hopInv_opened {i : Nat} : HopInv digest chain i (opened (chain.drop i)) := by
  cases hdrop : chain.drop i with
  | nil => exact ⟨fun hidle => absurd rfl hidle, nofun, rfl⟩
  | cons address downstream =>
      refine ⟨fun _ => ?_, nofun, rfl, fun d rest hrx => ?_⟩
      · rw [← List.head?_drop, hdrop]
        rfl
      · rw [← Message.header.inj (List.cons.inj hrx).1, ← List.drop_drop, hdrop]
        rfl

theorem linked_start {i : Nat} (hinv : Chained digest chain s.hops)
    (hforwarder : (s.hops i).forwarder = .submitted) :
    Chained digest chain (s.setPair i { s.hops i with forwarder := .running }
      (opened (s.hops i).downstream)).hops := by
  have hcell := hinv.cell i
  have hidle := (hinv.link i).idle (.inr (.inl hforwarder))
  have habsent := (hinv.cell (i + 1)).phase
  rw [PhaseInv, hidle] at habsent
  have hidle' := (hinv.link (i + 1)).idle (.inl habsent)
  rw [hcell.submitted hforwarder]
  refine hinv.update_pair ⟨hcell.address, nofun, ?_⟩ hopInv_opened ?_ ?_ ?_
  · exact phaseInv_forwarder hcell.phase .running (by simp [hforwarder])
      (by simp [hforwarder])
  · refine ⟨fun hc => ?_, nofun⟩
    rcases hc with hc | hc | hc
    · exact nomatch hc
    · exact nomatch hc
    · exact nomatch hc
  · intro j hj
    subst hj
    exact linkInv_congr (hinv.link j) rfl rfl
  · cases hdrop : chain.drop (i + 1) with
    | nil => exact ⟨fun _ => hidle', nofun⟩
    | cons address downstream => exact ⟨fun _ => hidle', nofun⟩

theorem linked_take {i : Nat} {item : Option Bytes} {rest : List (Option Bytes)}
    {forwarder : Forwarder} (hinv : Chained digest chain s.hops)
    (hforwarder : (s.hops i).forwarder = .running)
    (hafter : forwarder = .running ∨ forwarder = .drained) :
    Chained digest chain (s.setPair i { s.hops i with queue := rest, forwarder }
      (deliver (s.hops (i + 1)) item)).hops := by
  have hcell := hinv.cell i
  obtain ⟨rx, rxEnd, hdeliver⟩ := deliver_frame (s.hops (i + 1)) item
  have hstarted : ¬ NotStarted forwarder := by
    rintro (hc | hc | hc)
    · rcases hafter with h | h
      · exact nomatch hc.symm.trans h
      · exact nomatch hc.symm.trans h
    · rcases hafter with h | h
      · exact nomatch hc.symm.trans h
      · exact nomatch hc.symm.trans h
    · rcases hafter with h | h
      · exact nomatch hc.symm.trans h
      · exact nomatch hc.symm.trans h
  refine hinv.update_pair ⟨hcell.address, ?_, ?_⟩
    (hopInv_deliver (hinv.cell (i + 1)) item) ?_ ?_ ?_
  · intro hc
    exact absurd (.inr (.inl hc)) hstarted
  · exact phaseInv_forwarder hcell.phase forwarder (by simp [hforwarder])
      (by simp [hforwarder])
  · refine ⟨fun hc => absurd hc hstarted, fun r hc => ?_⟩
    rcases hafter with h | h
    · exact nomatch hc.symm.trans h
    · exact nomatch hc.symm.trans h
  · intro j hj
    subst hj
    exact linkInv_congr (hinv.link j) rfl rfl
  · exact linkInv_congr (hinv.link (i + 1)) (by rw [hdeliver]) rfl

theorem linked_answer {i : Nat} {answer : Option Response} (hinv : Chained digest chain s.hops)
    (hforwarder : (s.hops i).forwarder = .running ∨ (s.hops i).forwarder = .drained)
    (hdone : (s.hops (i + 1)).phase = .done answer) :
    Chained digest chain (s.setHop i { s.hops i with forwarder := .answered answer }).hops := by
  have hcell := hinv.cell i
  refine hinv.update ⟨hcell.address, nofun, ?_⟩ ?_ ?_
  · rcases hforwarder with h | h
    · exact phaseInv_forwarder hcell.phase (.answered answer) (by simp [h]) (by simp [h])
    · exact phaseInv_forwarder hcell.phase (.answered answer) (by simp [h]) (by simp [h])
  · refine ⟨fun hc => ?_, fun r hc => ?_⟩
    · rcases hc with hc | hc | hc
      · exact nomatch hc
      · exact nomatch hc
      · exact nomatch hc
    · rw [hdone, Forwarder.answered.inj hc]
  · intro j hj
    subst hj
    exact linkInv_congr (hinv.link j) rfl rfl

theorem linked_reset {i : Nat} (hinv : Chained digest chain s.hops) :
    Chained digest chain (s.setHop i { s.hops i with rx := [], rxEnd := .broken }).hops := by
  have hcell := hinv.cell i
  refine hinv.update ⟨hcell.address, hcell.submitted, ?_⟩ ?_ ?_
  · exact phaseInv_stream hcell.phase [] .broken fun d rest hrx => nomatch hrx
  · exact linkInv_congr (hinv.link i) rfl rfl
  · intro j hj
    subst hj
    exact linkInv_congr (hinv.link j) rfl rfl

/-- **A STEP KEEPS THE HOPS LINKED.** -/
theorem linked_step (hinv : Chained digest chain s.hops) (hstep : Steps digest s l s') :
    Chained digest chain s'.hops := by
  cases hstep with
  | @acts i a h hacts =>
      refine hinv.update (hopInv_acts (hinv.cell i) hacts)
        (linkInv_near (hinv.cell i) (hinv.link i) hacts) fun j hj => ?_
      subst hj
      exact linkInv_far (hinv.link j) hacts
  | start hforwarder => exact linked_start hinv hforwarder
  | takeData hforwarder => exact linked_take hinv hforwarder (.inl rfl)
  | takeEnd hforwarder => exact linked_take hinv hforwarder (.inr rfl)
  | answer hforwarder hdone => exact linked_answer hinv hforwarder hdone
  | reset => exact linked_reset hinv

theorem hopInv_idle {i : Nat} : HopInv digest chain i {} :=
  ⟨fun hidle => absurd rfl hidle, nofun, rfl⟩

theorem hopInv_head {chunks : List Bytes} : HopInv digest chain 0 (head chain chunks) := by
  cases chain with
  | nil => exact hopInv_idle
  | cons address downstream =>
      refine ⟨fun _ => rfl, nofun, rfl, fun d rest hrx => ?_⟩
      exact (Message.header.inj (List.cons.inj hrx).1).symm

theorem linked_initial {chunks : List Bytes}
    (hinit : s.hops = Function.update (fun _ => {}) 0 (head chain chunks)) :
    Chained digest chain s.hops := by
  have hidle : Chained digest chain fun _ => {} :=
    ⟨fun _ => hopInv_idle, fun _ => ⟨fun _ => rfl, nofun⟩⟩
  rw [hinit]
  refine hidle.update hopInv_head ⟨fun _ => rfl, ?_⟩ fun i hi => nomatch hi
  cases chain with
  | nil => exact nofun
  | cons address downstream => exact nofun

end Chain

end DfshaForwardingChain
