import Dfsha.ForwardingChainProofs

/-! # Room in the queue

    How many chunks a hop has got, how many wait in its queue and how many have
    arrived at the next hop.  A block of three chunks never fills a queue: the
    three and the sentinel are its four places.  And a thread that runs sees the
    sentinel in the end. -/

namespace DfshaQueueRoom

open LinkedCells TransitionSystem TransitionSystem.System DfshaWriteBlock DfshaForwardingChain
open DfshaBlockStore (Bytes)

/-- No disk of a node that forwards raises before the first chunk is asked for:
    `tee` has not started there, and its sentinel never comes. -/
def AfterTee (s : Pipeline) : Label → Prop
  | .acts i .fail => (s.hops i).phase = .creating → (s.hops i).downstream = []
  | _ => True

/-- The calls of a chain in which every `tee` starts. -/
def calls (digest : Bytes → String) (chain : List String) (chunks : List Bytes) :
    System Pipeline Label := (pipeline digest chain chunks).guarded AfterTee

/-- `tee` waits for room. -/
def Putting : Phase → Prop
  | .putting _ | .closing _ => True
  | _ => False

/-! ## How many chunks there are -/

/-- How many chunks have arrived, as long as the handler reads them. -/
def arrived (h : Hop) : Nat :=
  match h.phase with
  -- the header is still there
  | .waiting => h.rx.length - 1
  | .creating | .reading | .writing => h.got.length + h.rx.length
  | .putting _ => h.got.length + h.rx.length + 1
  | .closing _ => h.got.length
  | _ => 0

def queuedChunks (h : Hop) : Nat := (h.queue.filter Option.isSome).length

def PhaseInv (h : Hop) : Prop :=
  match h.phase with
  | .waiting => h.got = [] ∧ (h.rx = [] → h.rxEnd ≠ .live)
  | .creating | .reading | .writing | .finalizing => h.downstream = [] ∨ h.forwarder ≠ .absent
  | .putting _ | .closing _ | .awaiting _ => h.downstream ≠ [] ∧ h.forwarder ≠ .absent
  | _ => True

structure HopInv (k i : Nat) (h : Hop) : Prop where
  phase : PhaseInv h
  got : h.got.length ≤ k
  arrived : arrived h ≤ k
  queued : queuedChunks h ≤ h.got.length
  sentinel : none ∈ h.queue → h.phase.Ended
  ended : h.phase.Ended → h.forwarder = .submitted ∨ h.forwarder = .running → none ∈ h.queue
  forwarding : h.forwarder = .submitted ∨ h.forwarder = .running → h.downstream ≠ []
  head : i = 0 → h.phase ≠ .idle → h.rxEnd ≠ .live

structure LinkInv (h h' : Hop) : Prop where
  started : h.forwarder = .running ∨ h.forwarder = .drained → h'.phase ≠ .idle
  drained : h.forwarder = .drained → h'.rxEnd ≠ .live
  sent : h.forwarder = .running → h'.rxEnd = .live →
    arrived h' + queuedChunks h ≤ h.got.length

section Act

variable {digest : Bytes → String} {k i : Nat} {h h' : Hop} {a : Act}

theorem arrived_stream {rxEnd : StreamEnd} :
    arrived { h with rx := [], rxEnd } ≤ arrived h := by
  unfold arrived
  cases hphase : h.phase with
  | waiting => exact Nat.zero_le _
  | creating | reading | writing => exact Nat.le_add_right _ _
  | putting => exact Nat.succ_le_succ (Nat.le_add_right _ _)
  | closing => exact Nat.le_refl _
  | idle | finalizing | awaiting | done => exact Nat.le_refl _

/-- No act makes more chunks. -/
theorem arrived_acts (hinv : PhaseInv h) (hacts : Acts digest h a h') :
    arrived h' ≤ arrived h := by
  cases hacts with
  | accept hphase hrx =>
      rw [PhaseInv, hphase] at hinv
      simp [arrived, hphase, hrx, hinv.1]
  | receive hphase hrx => simp [arrived, hphase, hrx, Nat.add_assoc]
  | receiveLast hphase hrx =>
      simp only [arrived, hphase, hrx, List.length_append, List.length_cons, List.length_nil]
      omega
  | put hphase =>
      simp only [arrived, hphase, List.length_append, List.length_cons, List.length_nil]
      omega
  | receiveEnd hphase | receiveBroken hphase | failForwarding hphase =>
      simp [arrived, hphase]
  | create hphase | write hphase => simp [arrived, hphase]
  | cut => exact arrived_stream
  | lose | stop => exact Nat.le_refl _
  | refuse | receiveEndLast | receiveBrokenLast | close | closeRaised | publish
  | publishLast | collect | collectFailed | unlinkFails | fail | reject | crash =>
      exact Nat.zero_le _

/-- What a hop gets it puts in the queue, and nothing else. -/
theorem queued_acts (hacts : Acts digest h a h') :
    queuedChunks h' + h.got.length ≤ queuedChunks h + h'.got.length := by
  cases hacts with
  | put hphase => simp [queuedChunks]; omega
  | receiveLast => simp [queuedChunks]
  | close | closeRaised => simp [queuedChunks]
  | accept | refuse | create | receive | receiveEnd | receiveEndLast | receiveBroken
  | receiveBrokenLast | write | publish | publishLast | collect | collectFailed
  | unlinkFails | cut | fail | failForwarding | reject | lose | stop | crash =>
      exact Nat.le_refl _

/-- A copy grows by what has arrived. -/
theorem got_acts (hacts : Acts digest h a h') (hgot : h.got.length ≤ k)
    (harrived : arrived h ≤ k) : h'.got.length ≤ k := by
  cases hacts with
  | receiveLast hphase hrx =>
      simp only [arrived, hphase, hrx, List.length_cons] at harrived
      simp only [List.length_append, List.length_cons, List.length_nil]
      omega
  | put hphase =>
      simp only [arrived, hphase] at harrived
      simp only [List.length_append, List.length_cons, List.length_nil]
      omega
  | accept | refuse | create | receive | receiveEnd | receiveEndLast | receiveBroken
  | receiveBrokenLast | write | close | closeRaised | publish | publishLast | collect
  | collectFailed | unlinkFails | cut | fail | failForwarding | reject | lose | stop | crash =>
      exact hgot

theorem cancel_ne_absent {f : Forwarder} (h : f ≠ .absent) : f.cancel ≠ .absent := by
  cases f with
  | absent => exact absurd rfl h
  | submitted => exact nofun
  | running | drained | answered | cancelled => exact nofun

/-- A change of the queue and of the thread, where there is one. -/
theorem phaseInv_forwarder (hinv : PhaseInv h) (queue : List (Option Bytes))
    {forwarder : Forwarder} (hforwarder : forwarder ≠ .absent) :
    PhaseInv { h with queue, forwarder } := by
  unfold PhaseInv at hinv ⊢
  cases hphase : h.phase with
  | waiting | idle | done =>
      rw [hphase] at hinv
      exact hinv
  | creating | reading | writing | finalizing => exact .inr hforwarder
  | putting | closing | awaiting =>
      rw [hphase] at hinv
      exact ⟨hinv.1, hforwarder⟩

theorem phaseInv_acts (hinv : PhaseInv h) (hacts : Acts digest h a h') : PhaseInv h' := by
  cases hacts with
  | @accept downstream rest hphase hrx =>
      show downstream = [] ∨ (if downstream = [] then Forwarder.absent else .submitted) ≠ .absent
      by_cases hlast : downstream = []
      · exact .inl hlast
      · rw [if_neg hlast]
        exact .inr nofun
  | create hphase | receiveLast hphase | write hphase =>
      rw [PhaseInv, hphase] at hinv
      exact hinv
  | receive hphase hrx hforward | receiveEnd hphase hrx hend hforward
  | receiveBroken hphase hrx hend hforward | publish hphase hforward =>
      rw [PhaseInv, hphase] at hinv
      exact ⟨hforward, hinv.resolve_left hforward⟩
  | receiveEndLast hphase hrx hend hlast => exact .inl hlast
  | put hphase | close hphase =>
      rw [PhaseInv, hphase] at hinv
      exact .inr hinv.2
  | failForwarding hphase hforward =>
      rw [PhaseInv, hphase] at hinv
      exact ⟨hforward, cancel_ne_absent (hinv.resolve_left hforward)⟩
  | cut =>
      unfold PhaseInv at hinv ⊢
      cases hphase : h.phase with
      | waiting =>
          rw [hphase] at hinv
          exact ⟨hinv.1, fun _ => nofun⟩
      | idle | creating | reading | putting | writing | closing | finalizing | awaiting | done =>
          rw [hphase] at hinv
          exact hinv
  | lose | stop => exact phaseInv_forwarder hinv _ nofun
  | refuse | receiveBrokenLast | closeRaised | publishLast | collect | collectFailed
  | unlinkFails | fail | reject | crash =>
      trivial

theorem sentinel_acts (hinv : none ∈ h.queue → h.phase.Ended) (hacts : Acts digest h a h')
    (hnone : none ∈ h'.queue) : h'.phase.Ended := by
  cases hacts with
  | put hphase =>
      rcases List.mem_append.mp hnone with hn | hn
      · have hended := hinv hn
        rw [hphase] at hended
        exact hended.elim
      · cases List.mem_singleton.mp hn
  | cut | lose | stop => exact hinv hnone
  | accept hphase | create hphase | receive hphase | receiveLast hphase | receiveEnd hphase
  | receiveBroken hphase | write hphase | failForwarding hphase =>
      have hended := hinv hnone
      rw [hphase] at hended
      exact hended.elim
  | refuse | receiveEndLast | receiveBrokenLast | close | closeRaised | publish
  | publishLast | collect | collectFailed | unlinkFails | fail | reject | crash =>
      trivial

/-- **A THREAD THAT RUNS WILL SEE THE SENTINEL**, unless `tee` has not started. -/
theorem ended_acts (hinv : HopInv k i h) (habsent : h.phase = .waiting → h.forwarder = .absent)
    (hguard : a = .fail → h.phase = .creating → h.downstream = []) (hacts : Acts digest h a h')
    (hended : h'.phase.Ended) (hopen : h'.forwarder = .submitted ∨ h'.forwarder = .running) :
    none ∈ h'.queue := by
  cases hacts with
  | refuse hphase | reject hphase =>
      have habsent' := habsent hphase
      rcases hopen with hf | hf
      · cases habsent'.symm.trans hf
      · cases habsent'.symm.trans hf
  | receiveEndLast hphase hrx hend hlast | receiveBrokenLast hphase hrx hend hlast =>
      exact absurd hlast (hinv.forwarding hopen)
  | close | closeRaised => exact List.mem_append_right _ (List.mem_singleton.mpr rfl)
  | publish hphase | publishLast hphase | collect hphase | collectFailed hphase
  | unlinkFails hphase =>
      exact hinv.ended (by rw [hphase]; trivial) hopen
  | fail hphase =>
      have hrunning := Forwarder.eq_running_of_cancel
        (hopen.resolve_left Forwarder.cancel_ne_submitted)
      rcases hphase with hphase | hphase | ⟨_, hlast⟩
      · exact absurd (hguard rfl hphase) (hinv.forwarding (.inr hrunning))
      · exact hinv.ended (by rw [hphase]; trivial) (.inr hrunning)
      · exact absurd hlast (hinv.forwarding (.inr hrunning))
  | crash =>
      rcases hopen with hf | hf
      · exact absurd hf Forwarder.crash_ne_submitted
      · exact absurd hf Forwarder.crash_ne_running
  | cut => exact hinv.ended hended hopen
  | lose | stop =>
      rcases hopen with hf | hf
      · cases hf
      · cases hf
  | accept | create | receive | receiveLast | receiveEnd | receiveBroken | put | write
  | failForwarding =>
      exact hended.elim

theorem hopInv_acts (hinv : HopInv k i h) (habsent : h.phase = .waiting → h.forwarder = .absent)
    (hguard : a = .fail → h.phase = .creating → h.downstream = []) (hacts : Acts digest h a h') :
    HopInv k i h' where
  phase := phaseInv_acts hinv.phase hacts
  got := got_acts hacts hinv.got hinv.arrived
  arrived := (arrived_acts hinv.phase hacts).trans hinv.arrived
  queued := by
    have hkept := queued_acts hacts
    have hqueued := hinv.queued
    omega
  sentinel := sentinel_acts hinv.sentinel hacts
  ended := ended_acts hinv habsent hguard hacts
  forwarding := by
    have hne : h.forwarder ≠ .absent → h.phase ≠ .waiting := fun hf hphase => hf (habsent hphase)
    rintro (hf | hf)
    · rcases hacts.submitted hf with hf' | ⟨_, hforward⟩
      · rw [hacts.downstream (hne (by simp [hf']))]
        exact hinv.forwarding (.inl hf')
      · exact hforward
    · have hf' := hacts.running hf
      rw [hacts.downstream (hne (by simp [hf']))]
      exact hinv.forwarding (.inr hf')
  head := by
    intro hi hphase
    have hidle : h.phase ≠ .idle := by
      rcases hacts.phase with hsame | ⟨hidle, _⟩
      · rwa [hsame] at hphase
      · exact hidle
    rcases hacts.rxEnd with hsame | hbroken
    · rw [hsame]
      exact hinv.head hi hidle
    · rw [hbroken]
      exact nofun

theorem linkInv_near {next : Hop} (hlink : LinkInv h next) (hacts : Acts digest h a h') :
    LinkInv h' next where
  started := by
    rintro (hf | hf)
    · exact hlink.started (.inl (hacts.running hf))
    · exact hlink.started (.inr (hacts.drained hf))
  drained hf := hlink.drained (hacts.drained hf)
  sent hf hlive := by
    have hsent := hlink.sent (hacts.running hf) hlive
    have hkept := queued_acts hacts
    omega

theorem linkInv_far {near : Hop} (hinv : PhaseInv h) (hlink : LinkInv near h)
    (hacts : Acts digest h a h') : LinkInv near h' where
  started hf := hacts.ne_idle (hlink.started hf)
  drained hf := by
    rcases hacts.rxEnd with hsame | hbroken
    · rw [hsame]
      exact hlink.drained hf
    · rw [hbroken]
      exact nofun
  sent hf hlive := by
    have harrived := arrived_acts hinv hacts
    rcases hacts.rxEnd with hsame | hbroken
    · have hsent := hlink.sent hf (hsame.symm.trans hlive)
      omega
    · cases hbroken.symm.trans hlive

end Act

/-! ## The chain -/

section Chain

variable {digest : Bytes → String} {chain : List String} {chunks : List Bytes} {k : Nat}
  {s s' : Pipeline} {l : Label}

/-- The chunks of the whole chain. -/
structure ChainInv (digest : Bytes → String) (chain : List String) (k : Nat) (s : Pipeline) :
    Prop where
  chained : Chained digest chain s.hops
  counted : Linked (HopInv k) (fun _ => LinkInv) s.hops

theorem ChainInv.absent (hinv : ChainInv digest chain k s) {i : Nat}
    (hphase : (s.hops i).phase = .waiting) : (s.hops i).forwarder = .absent := by
  have hchained := (hinv.chained.cell i).phase
  rw [DfshaForwardingChain.PhaseInv, hphase] at hchained
  exact hchained.1

/-- A hop with a thread has been called. -/
theorem ChainInv.ne_idle (hinv : ChainInv digest chain k s) {i : Nat}
    (hforwarder : (s.hops i).forwarder ≠ .absent) : (s.hops i).phase ≠ .idle := by
  intro hidle
  have hphase := (hinv.chained.cell i).phase
  rw [DfshaForwardingChain.PhaseInv, hidle] at hphase
  exact hforwarder hphase

theorem ChainInv.lt_length (hinv : ChainInv digest chain k s) {i : Nat}
    (hphase : (s.hops i).phase ≠ .idle) : i < chain.length :=
  (List.getElem?_eq_some_iff.mp ((hinv.chained.cell i).address hphase)).1

theorem arrived_deliver {h : Hop} (hinv : PhaseInv h) (item : Option Bytes) :
    arrived (deliver h item) ≤ arrived h + item.toList.length := by
  cases item with
  | none =>
      rw [deliver]
      by_cases hlive : h.rxEnd = .live
      · rw [if_pos hlive]
        exact Nat.le_refl _
      · rw [if_neg hlive]
        exact Nat.le_refl _
  | some chunk =>
      rw [deliver]
      by_cases hlive : h.rxEnd = .live
      · rw [if_pos hlive]
        unfold arrived
        unfold PhaseInv at hinv
        cases hphase : h.phase with
        | waiting =>
            -- the header, at least, is there
            rw [hphase] at hinv
            have hpos := List.length_pos_iff.mpr fun hrx => hinv.2 hrx hlive
            simp only [List.length_append, List.length_singleton, Option.toList_some]
            omega
        | creating | reading | writing => simp [Nat.add_assoc]
        | putting =>
            simp only [List.length_append, List.length_singleton, Option.toList_some]
            omega
        | idle | closing | finalizing | awaiting | done => exact Nat.le_add_right _ _
      · rw [if_neg hlive]
        exact Nat.le_add_right _ _

theorem phaseInv_deliver {h : Hop} (hinv : PhaseInv h) (item : Option Bytes) :
    PhaseInv (deliver h item) := by
  have hstream : ∀ rx rxEnd, (rx = [] → rxEnd ≠ .live) → PhaseInv { h with rx, rxEnd } := by
    intro rx rxEnd hrx
    unfold PhaseInv at hinv ⊢
    cases hphase : h.phase with
    | waiting =>
        rw [hphase] at hinv
        exact ⟨hinv.1, hrx⟩
    | idle | creating | reading | putting | writing | closing | finalizing | awaiting | done =>
        rw [hphase] at hinv
        exact hinv
  cases item with
  | none =>
      rw [deliver]
      by_cases hlive : h.rxEnd = .live
      · rw [if_pos hlive]
        exact hstream _ _ fun _ => by decide
      · rw [if_neg hlive]
        exact hinv
  | some chunk =>
      rw [deliver]
      by_cases hlive : h.rxEnd = .live
      · rw [if_pos hlive]
        exact hstream _ _ fun hrx => absurd hrx (by simp)
      · rw [if_neg hlive]
        exact hinv

theorem hopInv_deliver {i : Nat} {h : Hop} {item : Option Bytes} (hinv : HopInv k (i + 1) h)
    (hroom : arrived (deliver h item) ≤ k) : HopInv k (i + 1) (deliver h item) := by
  have hphase := phaseInv_deliver hinv.phase item
  obtain ⟨rx, rxEnd, hdeliver⟩ := deliver_frame h item
  rw [hdeliver] at hphase hroom ⊢
  exact ⟨hphase, hinv.got, hroom, hinv.queued, hinv.sentinel, hinv.ended, hinv.forwarding,
    fun hi => nomatch hi⟩

theorem counted_acts {i : Nat} {a : Act} {h : Hop} (hinv : ChainInv digest chain k s)
    (hguard : AfterTee s (.acts i a)) (hacts : Acts digest (s.hops i) a h) :
    Linked (HopInv k) (fun _ => LinkInv) (Function.update s.hops i h) := by
  have hguard' : a = .fail → (s.hops i).phase = .creating → (s.hops i).downstream = [] := by
    rintro rfl
    exact hguard
  refine hinv.counted.update (hopInv_acts (hinv.counted.cell i) hinv.absent hguard' hacts)
    (linkInv_near (hinv.counted.link i) hacts) fun j hj => ?_
  subst hj
  exact linkInv_far (hinv.counted.cell (j + 1)).phase (hinv.counted.link j) hacts

theorem linkInv_congr {h h' g g' : Hop} (hlink : LinkInv h h')
    (hforwarder : g.forwarder = h.forwarder) (hgot : g.got = h.got) (hqueue : g.queue = h.queue)
    (hphase : g'.phase = h'.phase) (hrxEnd : g'.rxEnd = h'.rxEnd)
    (harrived : arrived g' ≤ arrived h') : LinkInv g g' where
  started hf := by
    rw [hphase]
    exact hlink.started (hforwarder ▸ hf)
  drained hf := by
    rw [hrxEnd]
    exact hlink.drained (hforwarder ▸ hf)
  sent hf hlive := by
    have hsent := hlink.sent (hforwarder ▸ hf) (hrxEnd ▸ hlive)
    rw [queuedChunks, hqueue, hgot]
    exact (Nat.add_le_add_right harrived _).trans hsent

/-- A hop whose thread has changed, and a queue that got shorter. -/
theorem hopInv_forwarder {i : Nat} {h : Hop} (hinv : HopInv k i h) {queue : List (Option Bytes)}
    {forwarder : Forwarder} (hforwarder : forwarder ≠ .absent)
    (hqueue : queue.Sublist h.queue)
    (hended : h.phase.Ended → forwarder = .submitted ∨ forwarder = .running → none ∈ queue)
    (hforward : forwarder = .submitted ∨ forwarder = .running → h.downstream ≠ []) :
    HopInv k i { h with queue, forwarder } :=
  ⟨phaseInv_forwarder hinv.phase queue hforwarder, hinv.got, hinv.arrived,
    ((hqueue.filter _).length_le).trans hinv.queued,
    fun hnone => hinv.sentinel (hqueue.subset hnone), hended, hforward, hinv.head⟩

theorem hopInv_opened {i : Nat} (downstream : List String) :
    HopInv k (i + 1) (opened downstream) := by
  cases downstream with
  | nil =>
      exact ⟨trivial, Nat.zero_le _, Nat.zero_le _, Nat.le_refl _, nofun, nofun, by simp [opened],
        fun hi => nomatch hi⟩
  | cons address downstream =>
      exact ⟨⟨rfl, nofun⟩, Nat.zero_le _, Nat.zero_le _, Nat.le_refl _, nofun, nofun,
        by simp [opened], fun hi => nomatch hi⟩

theorem arrived_opened (downstream : List String) : arrived (opened downstream) = 0 := by
  cases downstream with
  | nil => rfl
  | cons address downstream => rfl

theorem counted_start {i : Nat} (hinv : ChainInv digest chain k s)
    (hforwarder : (s.hops i).forwarder = .submitted) :
    Linked (HopInv k) (fun _ => LinkInv) (Function.update (Function.update s.hops i
      { s.hops i with forwarder := .running }) (i + 1) (opened (s.hops i).downstream)) := by
  have hcell := hinv.counted.cell i
  have hforward := hcell.forwarding (.inl hforwarder)
  refine hinv.counted.update_pair ?_ (hopInv_opened _) ?_ ?_ ?_
  · exact hopInv_forwarder hcell nofun (List.Sublist.refl _)
      (fun hended _ => hcell.ended hended (.inl hforwarder)) fun _ => hforward
  · refine ⟨fun _ => ?_, nofun, fun _ _ => ?_⟩
    · cases hdownstream : (s.hops i).downstream with
      | nil => exact absurd hdownstream hforward
      | cons address downstream => exact nofun
    · rw [arrived_opened, Nat.zero_add]
      exact hcell.queued
  · intro j hj
    subst hj
    exact linkInv_congr (hinv.counted.link j) rfl rfl rfl rfl rfl (Nat.le_refl _)
  · cases (s.hops i).downstream with
    | nil => exact ⟨by simp [opened], nofun, nofun⟩
    | cons address downstream => exact ⟨by simp [opened], nofun, nofun⟩

theorem counted_takeData {i : Nat} {chunk : Bytes} {rest : List (Option Bytes)}
    (hinv : ChainInv digest chain k s) (hforwarder : (s.hops i).forwarder = .running)
    (hqueue : (s.hops i).queue = some chunk :: rest) :
    Linked (HopInv k) (fun _ => LinkInv) (Function.update (Function.update s.hops i
      { s.hops i with queue := rest, forwarder := .running }) (i + 1)
        (deliver (s.hops (i + 1)) (some chunk))) := by
  have hcell := hinv.counted.cell i
  have hlink := hinv.counted.link i
  have hcell' := hinv.counted.cell (i + 1)
  obtain ⟨rx, rxEnd, hdeliver⟩ := deliver_frame (s.hops (i + 1)) (some chunk)
  have harrived := arrived_deliver hcell'.phase (some chunk)
  have hsent : (s.hops (i + 1)).rxEnd = .live →
      arrived (deliver (s.hops (i + 1)) (some chunk)) + (rest.filter Option.isSome).length
        ≤ (s.hops i).got.length := by
    intro hlive
    have hsent := hlink.sent hforwarder hlive
    rw [queuedChunks, hqueue, List.filter_cons_of_pos rfl, List.length_cons] at hsent
    rw [Option.toList_some, List.length_singleton] at harrived
    omega
  refine hinv.counted.update_pair ?_ (hopInv_deliver hcell' ?_) ⟨fun _ => ?_, nofun, fun _ h => ?_⟩
    ?_ ?_
  · refine hopInv_forwarder hcell nofun (hqueue ▸ List.sublist_cons_self _ _) ?_
      fun _ => hcell.forwarding (.inr hforwarder)
    intro hended _
    have hnone := hcell.ended hended (.inr hforwarder)
    rw [hqueue] at hnone
    exact (List.mem_cons.mp hnone).resolve_left nofun
  · by_cases hlive : (s.hops (i + 1)).rxEnd = .live
    · have hgot := hcell.got
      have hsent' := hsent hlive
      omega
    · rw [deliver, if_neg hlive]
      exact hcell'.arrived
  · rw [hdeliver]
    exact hlink.started (.inl hforwarder)
  · refine hsent ?_
    rw [deliver] at h
    by_cases hlive : (s.hops (i + 1)).rxEnd = .live
    · exact hlive
    · rwa [if_neg hlive] at h
  · intro j hj
    subst hj
    exact linkInv_congr (hinv.counted.link j) rfl rfl rfl rfl rfl (Nat.le_refl _)
  · rw [hdeliver]
    exact linkInv_congr (hinv.counted.link (i + 1)) rfl rfl rfl rfl rfl (Nat.le_refl _)

theorem counted_takeEnd {i : Nat} {rest : List (Option Bytes)}
    (hinv : ChainInv digest chain k s) (hforwarder : (s.hops i).forwarder = .running)
    (hqueue : (s.hops i).queue = none :: rest) :
    Linked (HopInv k) (fun _ => LinkInv) (Function.update (Function.update s.hops i
      { s.hops i with queue := rest, forwarder := .drained }) (i + 1)
        (deliver (s.hops (i + 1)) none)) := by
  have hcell := hinv.counted.cell i
  have hcell' := hinv.counted.cell (i + 1)
  obtain ⟨rx, rxEnd, hdeliver⟩ := deliver_frame (s.hops (i + 1)) none
  refine hinv.counted.update_pair ?_ (hopInv_deliver hcell' ?_) ⟨fun _ => ?_, fun _ => ?_,
    by simp⟩ ?_ ?_
  · exact hopInv_forwarder hcell (by simp) (hqueue ▸ List.sublist_cons_self _ _) (by simp) (by simp)
  · exact (arrived_deliver hcell'.phase none).trans hcell'.arrived
  · rw [hdeliver]
    exact (hinv.counted.link i).started (.inl hforwarder)
  · rw [deliver]
    by_cases hlive : (s.hops (i + 1)).rxEnd = .live
    · rw [if_pos hlive]
      show StreamEnd.finished ≠ .live
      decide
    · rw [if_neg hlive]
      exact hlive
  · intro j hj
    subst hj
    exact linkInv_congr (hinv.counted.link j) rfl rfl rfl rfl rfl (Nat.le_refl _)
  · rw [hdeliver]
    exact linkInv_congr (hinv.counted.link (i + 1)) rfl rfl rfl rfl rfl (Nat.le_refl _)

/-- **A STEP KEEPS THE COUNT.** -/
theorem chainInv_step (hinv : ChainInv digest chain k s) (hguard : AfterTee s l)
    (hstep : Steps digest s l s') : ChainInv digest chain k s' := by
  refine ⟨linked_step hinv.chained hstep, ?_⟩
  cases hstep with
  | acts hacts => exact counted_acts hinv hguard hacts
  | start hforwarder => exact counted_start hinv hforwarder
  | takeData hforwarder hqueue => exact counted_takeData hinv hforwarder hqueue
  | takeEnd hforwarder hqueue => exact counted_takeEnd hinv hforwarder hqueue
  | @answer i answer hforwarder hdone =>
      have hcell := hinv.counted.cell i
      refine hinv.counted.update ?_ ⟨by simp, nofun, nofun⟩ fun j hj => ?_
      · exact hopInv_forwarder hcell nofun (List.Sublist.refl _) (by simp) (by simp)
      · subst hj
        exact linkInv_congr (hinv.counted.link j) rfl rfl rfl rfl rfl (Nat.le_refl _)
  | @reset i answer hforwarder hphase hend =>
      -- as if the stream were cut
      exact counted_acts (a := .cut) hinv trivial (.cut hphase (by simp [hend]))

theorem hopInv_idle {i : Nat} : HopInv k i {} :=
  ⟨trivial, Nat.zero_le _, Nat.zero_le _, Nat.le_refl _, nofun, nofun, by simp,
    fun _ hidle => absurd rfl hidle⟩

theorem hopInv_head : HopInv chunks.length 0 (head chain chunks) := by
  cases chain with
  | nil => exact hopInv_idle
  | cons address downstream =>
      refine ⟨⟨rfl, nofun⟩, Nat.zero_le _, ?_, Nat.le_refl _, nofun, nofun, by simp [head],
        fun _ _ => nofun⟩
      simp [arrived, head]

theorem chainInv_initial
    (hinit : s.hops = Function.update (fun _ => {}) 0 (head chain chunks)) :
    ChainInv digest chain chunks.length s := by
  refine ⟨linked_initial hinit, ?_⟩
  have hidle : Linked (HopInv chunks.length) (fun _ => LinkInv) fun _ => {} :=
    ⟨fun _ => hopInv_idle, fun _ => ⟨by simp, nofun, nofun⟩⟩
  rw [hinit]
  refine hidle.update hopInv_head ?_ fun i hi => nomatch hi
  cases chain with
  | nil => exact ⟨by simp [head], nofun, nofun⟩
  | cons address downstream => exact ⟨by simp [head], nofun, nofun⟩

theorem chainInv_path {ls : List Label} (hinv : ChainInv digest chain k s)
    (hpath : (calls digest chain chunks).Path s ls s') : ChainInv digest chain k s' :=
  hpath.keeps hinv fun _ _ _ hinv hstep => chainInv_step hinv hstep.1 (steps_of_next hstep.2)

/-- **IN EVERY RUN THE CHUNKS ARE COUNTED.** -/
theorem chainInv_run {ls : List Label} (hrun : (calls digest chain chunks).Run ls s) :
    ChainInv digest chain chunks.length s := by
  obtain ⟨s₀, hinit, hpath⟩ := hrun
  exact chainInv_path (chainInv_initial hinit) hpath

/-! ## Room -/

/-- There is room for what `tee` puts. -/
def Room (h : Hop) : Prop := Putting h.phase → h.queue.length < queueDepthChunks

/-- **THREE CHUNKS AND THE SENTINEL FIT IN THE QUEUE**, and the last node has no
    queue. -/
theorem room_of_few (hinv : ChainInv digest chain k s) (hfew : chain.length ≤ 1 ∨ k ≤ 3)
    (i : Nat) : Room (s.hops i) := by
  intro hputting
  have hcell := hinv.counted.cell i
  have hnone : none ∉ (s.hops i).queue := by
    intro hnone
    have hended := hcell.sentinel hnone
    cases hphase : (s.hops i).phase with
    | putting | closing =>
        rw [hphase] at hended
        exact hended
    | idle | waiting | creating | reading | writing | finalizing | awaiting | done =>
        rw [hphase] at hputting
        exact hputting
  have hforward : (s.hops i).downstream ≠ [] ∧ (s.hops i).downstream = chain.drop (i + 1) := by
    have hphaseInv := hcell.phase
    have hchained := (hinv.chained.cell i).phase
    cases hphase : (s.hops i).phase with
    | putting | closing =>
        rw [PhaseInv, hphase] at hphaseInv
        rw [DfshaForwardingChain.PhaseInv, hphase] at hchained
        exact ⟨hphaseInv.1, hchained⟩
    | idle | waiting | creating | reading | writing | finalizing | awaiting | done =>
        rw [hphase] at hputting
        exact hputting.elim
  have hlong : i + 1 < chain.length := by
    refine Nat.lt_of_not_le fun hshort => hforward.1 ?_
    rw [hforward.2, List.drop_eq_nil_iff]
    exact hshort
  have hlength : (s.hops i).queue.length = queuedChunks (s.hops i) := by
    rw [queuedChunks, List.filter_eq_self.mpr]
    intro item hitem
    cases item with
    | none => exact absurd hitem hnone
    | some chunk => rfl
  have hgot := hcell.got
  have hqueued := hcell.queued
  rw [queueDepthChunks]
  omega

end Chain

end DfshaQueueRoom
