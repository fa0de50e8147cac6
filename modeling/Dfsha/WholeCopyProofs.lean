import Dfsha.WriteBlockProofs

/-! # Only whole copies

    A hop publishes what it has got when its stream ends.  The stream of the
    first node ends with the block; the stream of every other node ends when
    the forwarding thread of the node before it takes the sentinel, and `tee`
    puts the sentinel at the end of its stream and also as an exception passes.
    So no copy is truncated as long as no hop that forwards is interrupted, by
    the end of its stream or by its disk, before it has taken the last byte.

    The bytes are followed through the chain: what a hop has got is what its
    thread has sent and what waits in its queue. -/

namespace DfshaWholeCopy

open LinkedCells TransitionSystem TransitionSystem.System DfshaWriteBlock
open DfshaBlockStore (Bytes hola)

/-! ## The bytes of a hop -/

/-- The chunk that waits for room in the queue. -/
def inHand : Phase → Bytes
  | .putting chunk => chunk
  | _ => []

/-- All that has arrived. -/
def received (h : Hop) : Bytes :=
  h.got.flatten ++ inHand h.phase ++ (h.rx.map Message.chunk).flatten

/-- What the handler has taken from its stream. -/
def taken (h : Hop) : Bytes := h.got.flatten ++ inHand h.phase

/-- What waits to be forwarded. -/
def queued (h : Hop) : Bytes := (h.queue.filterMap id).flatten

/-- The thread has not ended, and has not taken the sentinel. -/
def Sends (f : Forwarder) : Prop := f = .submitted ∨ f = .running

/-- `tee` has not come to its end. -/
def Teeing : Phase → Prop
  | .creating | .reading | .putting _ | .writing => True
  | _ => False

/-- The hop forwards what it takes. -/
structure Forwards (h : Hop) : Prop where
  downstream : h.downstream ≠ []
  teeing : Teeing h.phase
  sends : Sends h.forwarder

/-- What interrupts a hop that forwards comes after the last byte: its stream
    breaks, or its disk raises while the thread runs, when it has taken the
    whole block. -/
def BreaksLate (content : Bytes) (h : Hop) : Act → Prop
  | .cut => Forwards h → taken h = content
  | .fail => h.phase = .writing → h.forwarder = .running → taken h = content
  | _ => True

/-- `tee` puts the sentinel as an exception passes, or has put it. -/
def Raised (h : Hop) : Prop := h.phase = .closing true ∨ h.phase = .done none ∧ none ∈ h.queue

/-- What has been got, by where the handler is. -/
def PhaseInv (content : Bytes) (h : Hop) : Prop :=
  match h.phase with
  | .idle | .waiting => h.got = [] ∧ h.queue = [] ∧ h.forwarder = .absent
  | .closing false | .finalizing | .awaiting _ | .done (some _) => h.got.flatten = content
  | _ => True

structure HopInv (content : Bytes) (h : Hop) : Prop where
  phase : PhaseInv content h
  forwarding : h.forwarder = .submitted ∨ h.forwarder = .running → h.downstream ≠ []
  submitted : h.forwarder = .submitted → h.got.flatten = queued h
  sentinel : none ∈ h.queue → h.phase.Ended ∧ ∃ data, h.queue = data ++ [none] ∧ none ∉ data
  finished : h.rxEnd = .finished → h.phase ≠ .done none → received h = content
  emptied : h.rxEnd = .broken → h.rx = []
  broken : h.rxEnd = .broken → Forwards h → taken h = content
  raised : Raised h → Sends h.forwarder → h.got.flatten = content
  published : ∀ copy, h.published = some copy → copy = content

/-- As long as the stream is open, nothing is lost between a hop and the next. -/
def LinkInv (h h' : Hop) : Prop :=
  h.forwarder = .running → h'.rxEnd = .live → h'.phase ≠ .done none →
    h.got.flatten = received h' ++ queued h

/-! ## Acts -/

section Act

variable {digest : Bytes → String} {content : Bytes} {h h' : Hop} {a : Act}

/-- **NOTHING THAT HAS ARRIVED IS LOST**, unless the handler raises or the stream
    breaks. -/
theorem received_acts (hacts : Acts digest h a h') (hdone : h'.phase ≠ .done none)
    (hend : h'.rxEnd ≠ .broken) : received h' = received h := by
  cases hacts with
  | accept hphase hrx => simp [received, inHand, hphase, hrx, Message.chunk]
  | receive hphase hrx => simp [received, inHand, hphase, hrx]
  | receiveLast hphase hrx => simp [received, inHand, hphase, hrx]
  | put hphase => simp [received, inHand, hphase]
  | cut => exact absurd rfl hend
  | refuse | receiveBrokenLast | closeRaised | collectFailed | unlinkFails | fail | reject
  | crash =>
      exact absurd rfl hdone
  | create hphase | receiveEnd hphase | receiveEndLast hphase | receiveBroken hphase
  | write hphase | close hphase | publish hphase | publishLast hphase | collect hphase
  | failForwarding hphase =>
      simp [received, inHand, hphase]
  | lose | stop => rfl

/-- What a hop gets it puts in the queue. -/
theorem queued_acts (hacts : Acts digest h a h') (hforward : h.downstream ≠ [])
    (hphase : h.phase ≠ .waiting) (sent : Bytes) (hsent : h.got.flatten = sent ++ queued h) :
    h'.got.flatten = sent ++ queued h' := by
  cases hacts with
  | @put chunk => simp [queued, hsent]
  | receiveLast hphase hrx hlast => exact absurd hlast hforward
  | accept hphase' => exact absurd hphase' hphase
  | close | closeRaised => simpa [queued] using hsent
  | refuse | create | receive | receiveEnd | receiveEndLast | receiveBroken
  | receiveBrokenLast | write | publish | publishLast | collect | collectFailed
  | unlinkFails | cut | fail | failForwarding | reject | lose | stop | crash =>
      exact hsent

/-- A change of the thread and of the queue, where there is one. -/
theorem phaseInv_forwarder (hinv : PhaseInv content h) (queue : List (Option Bytes))
    (forwarder : Forwarder) (habsent : h.forwarder ≠ .absent) :
    PhaseInv content { h with queue, forwarder } := by
  unfold PhaseInv at hinv ⊢
  cases hphase : h.phase with
  | idle | waiting =>
      rw [hphase] at hinv
      exact absurd hinv.2.2 habsent
  | closing raised =>
      rw [hphase] at hinv
      cases raised with
      | _ => exact hinv
  | done answer =>
      rw [hphase] at hinv
      cases answer with
      | _ => exact hinv
  | creating | reading | putting | writing | finalizing | awaiting =>
      rw [hphase] at hinv
      exact hinv

theorem phaseInv_acts (hinv : HopInv content h) (hacts : Acts digest h a h') :
    PhaseInv content h' := by
  have hphaseInv := hinv.phase
  cases hacts with
  | receiveEnd hphase hrx hend hforward =>
      have hall := hinv.finished hend (by simp [hphase])
      have hgot : h.got.flatten = content := by simpa [received, inHand, hphase, hrx] using hall
      exact hgot
  | receiveEndLast hphase hrx hend hlast =>
      have hall := hinv.finished hend (by simp [hphase])
      have hgot : h.got.flatten = content := by simpa [received, inHand, hphase, hrx] using hall
      exact hgot
  | close hphase | publish hphase | publishLast hphase | collect hphase =>
      rw [PhaseInv, hphase] at hphaseInv
      exact hphaseInv
  | cut => exact hphaseInv
  | lose hforwarder =>
      exact phaseInv_forwarder hphaseInv _ _ (by rintro hf; simp [hf] at hforwarder)
  | stop hforwarder => exact phaseInv_forwarder hphaseInv _ _ (by simp [hforwarder])
  | accept | refuse | create | receive | receiveLast | receiveBroken | receiveBrokenLast
  | put | write | closeRaised | collectFailed | unlinkFails | fail | failForwarding | reject
  | crash =>
      trivial

theorem sentinel_acts (hinv : HopInv content h) (hacts : Acts digest h a h')
    (hnone : none ∈ h'.queue) :
    h'.phase.Ended ∧ ∃ data, h'.queue = data ++ [none] ∧ none ∉ data := by
  have hopen : ¬ h.phase.Ended → none ∉ h.queue := fun hc hn => hc (hinv.sentinel hn).1
  cases hacts with
  | close hphase | closeRaised hphase =>
      exact ⟨trivial, h.queue, rfl, hopen (by rw [hphase]; exact id)⟩
  | put hphase =>
      rcases List.mem_append.mp hnone with hn | hn
      · exact absurd hn (hopen (by rw [hphase]; exact id))
      · cases List.mem_singleton.mp hn
  | cut | lose | stop => exact hinv.sentinel hnone
  | refuse | receiveBrokenLast | publish | publishLast | collect | collectFailed
  | unlinkFails | fail | reject | crash | receiveEndLast =>
      exact ⟨trivial, (hinv.sentinel hnone).2⟩
  | accept hphase | create hphase | receive hphase | receiveLast hphase | receiveEnd hphase
  | receiveBroken hphase | write hphase | failForwarding hphase =>
      exact absurd hnone (hopen (by rw [hphase]; exact id))

theorem published_acts (hinv : HopInv content h) (hacts : Acts digest h a h') (copy : Bytes)
    (hcopy : h'.published = some copy) : copy = content := by
  have hphaseInv := hinv.phase
  cases hacts with
  | publish hphase | publishLast hphase =>
      rw [PhaseInv, hphase] at hphaseInv
      exact (Option.some.inj hcopy).symm.trans hphaseInv
  | accept | refuse | create | receive | receiveLast | receiveEnd | receiveEndLast
  | receiveBroken | receiveBrokenLast | put | write | close | closeRaised | collect
  | collectFailed | unlinkFails | cut | fail | failForwarding | reject | lose | stop | crash =>
      exact hinv.published copy hcopy

theorem HopInv.ne_waiting (hinv : HopInv content h) (hforwarder : h.forwarder ≠ .absent) :
    h.phase ≠ .waiting := by
  intro hphase
  have hphaseInv := hinv.phase
  rw [PhaseInv, hphase] at hphaseInv
  exact hforwarder hphaseInv.2.2

theorem sends_of_cancel {f : Forwarder} (hsends : Sends f.cancel) : f = .running :=
  Forwarder.eq_running_of_cancel (hsends.resolve_left Forwarder.cancel_ne_submitted)

theorem not_sends_crash {f : Forwarder} : ¬ Sends f.crash := by
  rintro (hf | hf)
  · exact Forwarder.crash_ne_submitted hf
  · exact Forwarder.crash_ne_running hf

theorem emptied_acts (hinv : HopInv content h) (hacts : Acts digest h a h')
    (hend : h'.rxEnd = .broken) : h'.rx = [] := by
  cases hacts with
  | cut => rfl
  | accept hphase hrx | receive hphase hrx | receiveLast hphase hrx =>
      cases hrx.symm.trans (hinv.emptied hend)
  | refuse | create | receiveEnd | receiveEndLast | receiveBroken | receiveBrokenLast | put
  | write | close | closeRaised | publish | publishLast | collect | collectFailed
  | unlinkFails | fail | failForwarding | reject | lose | stop | crash =>
      exact hinv.emptied hend

/-- After its stream has broken a hop takes nothing more. -/
theorem broken_acts (hinv : HopInv content h) (hlate : BreaksLate content h a)
    (hacts : Acts digest h a h') (hend : h'.rxEnd = .broken) (hforwards : Forwards h') :
    taken h' = content := by
  have hteeing := hforwards.teeing
  cases hacts with
  | cut => exact hlate ⟨hforwards.downstream, hteeing, hforwards.sends⟩
  | accept hphase hrx | receive hphase hrx | receiveLast hphase hrx =>
      cases hrx.symm.trans (hinv.emptied hend)
  | create hphase | write hphase | put hphase =>
      have hwhole := hinv.broken hend
        ⟨hforwards.downstream, by rw [hphase]; trivial, hforwards.sends⟩
      simpa [taken, inHand, hphase] using hwhole
  | lose | stop =>
      rcases hforwards.sends with hf | hf
      · cases hf
      · cases hf
  | refuse | receiveEnd | receiveEndLast | receiveBroken | receiveBrokenLast | close
  | closeRaised | publish | publishLast | collect | collectFailed | unlinkFails | fail
  | failForwarding | reject | crash =>
      exact hteeing.elim

/-- **A HOP THAT PUTS THE SENTINEL AS IT RAISES HAS GOT THE WHOLE BLOCK.** -/
theorem raised_acts (hinv : HopInv content h) (hlate : BreaksLate content h a)
    (hacts : Acts digest h a h') (hraised : Raised h') (hsends : Sends h'.forwarder) :
    h'.got.flatten = content := by
  have hphaseInv := hinv.phase
  -- the sentinel is not there before the end of the loop
  have hopen : ¬ h.phase.Ended → none ∉ h.queue := fun hc hn => hc (hinv.sentinel hn).1
  cases hacts with
  | receiveBroken hphase hrx hend hforward =>
      have hwhole := hinv.broken hend ⟨hforward, by rw [hphase]; trivial, hsends⟩
      simpa [taken, inHand, hphase] using hwhole
  | failForwarding hphase =>
      have hwhole := hlate hphase (sends_of_cancel hsends)
      simpa [taken, inHand, hphase] using hwhole
  | closeRaised hphase => exact hinv.raised (.inl hphase) (.inr (sends_of_cancel hsends))
  | collectFailed hphase | unlinkFails hphase =>
      rw [PhaseInv, hphase] at hphaseInv
      exact hphaseInv
  | fail hphase =>
      rcases hphase with hphase | hphase | ⟨hphase, _⟩
      · obtain ⟨_, hnone⟩ := hraised.resolve_left nofun
        exact absurd hnone (hopen (by rw [hphase]; exact id))
      · rw [PhaseInv, hphase] at hphaseInv
        exact hphaseInv
      · obtain ⟨_, hnone⟩ := hraised.resolve_left nofun
        exact absurd hnone (hopen (by rw [hphase]; exact id))
  | crash => exact absurd hsends not_sends_crash
  | refuse hphase | receiveBrokenLast hphase | reject hphase =>
      obtain ⟨_, hnone⟩ := hraised.resolve_left nofun
      exact absurd hnone (hopen (by rw [hphase]; exact id))
  | cut => exact hinv.raised hraised hsends
  | lose | stop =>
      rcases hsends with hf | hf
      · cases hf
      · cases hf
  | accept | create | receive | receiveLast | receiveEnd | receiveEndLast | put | write
  | close | publish | publishLast | collect =>
      rcases hraised with hc | ⟨hc, _⟩
      · cases hc
      · cases hc

theorem hopInv_acts (hinv : HopInv content h) (hlate : BreaksLate content h a)
    (hacts : Acts digest h a h') : HopInv content h' := by
  refine ⟨phaseInv_acts hinv hacts, ?_, ?_, sentinel_acts hinv hacts, ?_,
    emptied_acts hinv hacts, broken_acts hinv hlate hacts, raised_acts hinv hlate hacts,
    published_acts hinv hacts⟩
  · rintro (hf | hf)
    · rcases hacts.submitted hf with hf' | ⟨_, hforward⟩
      · rw [hacts.downstream (hinv.ne_waiting (by simp [hf']))]
        exact hinv.forwarding (.inl hf')
      · exact hforward
    · have hf' := hacts.running hf
      rw [hacts.downstream (hinv.ne_waiting (by simp [hf']))]
      exact hinv.forwarding (.inr hf')
  · intro hf
    by_cases hphase : h.phase = .waiting
    · have hphaseInv := hinv.phase
      rw [PhaseInv, hphase] at hphaseInv
      obtain ⟨hgot, hqueue⟩ := hacts.waiting hphase
      simp [queued, hgot, hqueue, hphaseInv.1, hphaseInv.2.1]
    · obtain hf' := (hacts.submitted hf).resolve_right fun h => hphase h.1
      exact queued_acts hacts (hinv.forwarding (.inl hf')) hphase []
        (hinv.submitted hf')
  · intro hend hdone
    rw [received_acts hacts hdone (by simp [hend])]
    refine hinv.finished ?_ fun hdone' => ?_
    · rcases hacts.rxEnd with hsame | hbroken
      · exact hsame.symm.trans hend
      · cases hbroken.symm.trans hend
    · rcases hacts.phase with hsame | ⟨_, hopen⟩
      · exact hdone (hsame.trans hdone')
      · exact hopen none hdone'

/-- An act at the near end of a link. -/
theorem linkInv_near {next : Hop} (hinv : HopInv content h) (hlink : LinkInv h next)
    (hacts : Acts digest h a h') : LinkInv h' next := by
  intro hrunning hlive hdone
  have hrunning' := hacts.running hrunning
  exact queued_acts hacts (hinv.forwarding (.inr hrunning'))
    (hinv.ne_waiting (by simp [hrunning'])) _ (hlink hrunning' hlive hdone)

/-- An act at the far end of a link. -/
theorem linkInv_far {near : Hop} (hlink : LinkInv near h) (hacts : Acts digest h a h') :
    LinkInv near h' := by
  intro hrunning hlive hdone
  rw [received_acts hacts hdone (by simp [hlive])]
  refine hlink hrunning ?_ fun hdone' => ?_
  · rcases hacts.rxEnd with hsame | hbroken
    · exact hsame.symm.trans hlive
    · cases hbroken.symm.trans hlive
  · rcases hacts.phase with hsame | ⟨_, hopen⟩
    · exact hdone (hsame.trans hdone')
    · exact hopen none hdone'

end Act

/-! ## The chain -/

/-- **NO HOP THAT FORWARDS IS INTERRUPTED BEFORE THE LAST BYTE**, as the stream
    comes from the client or from the thread of the hop before. -/
def LateBreaks (chunks : List Bytes) (s : Pipeline) : Label → Prop
  | .acts i a => BreaksLate chunks.flatten (s.hops i) a
  | .reset i => BreaksLate chunks.flatten (s.hops (i + 1)) .cut
  | _ => True

section Chain

variable {digest : Bytes → String} {chain : List String} {chunks : List Bytes}
  {content : Bytes} {s s' : Pipeline} {l : Label}

/-- The bytes of the whole chain. -/
def ChainInv (content : Bytes) (s : Pipeline) : Prop :=
  Linked (fun _ => HopInv content) (fun _ => LinkInv) s.hops

theorem chainInv_acts {i : Nat} {a : Act} {h : Hop} (hinv : ChainInv content s)
    (hlate : BreaksLate content (s.hops i) a) (hacts : Acts digest (s.hops i) a h) :
    ChainInv content { s.setHop i h with store := storeAfter (s.hops i) s.store a } := by
  refine hinv.update (hopInv_acts (hinv.cell i) hlate hacts)
    (linkInv_near (hinv.cell i) (hinv.link i) hacts) fun j hj => ?_
  subst hj
  exact linkInv_far (hinv.link j) hacts

/-- The sentinel stays the last of the queue. -/
theorem sentinel_take {h : Hop} (hinv : HopInv content h) {item : Option Bytes}
    {rest : List (Option Bytes)} (hqueue : h.queue = item :: rest) (hrest : none ∈ rest) :
    none ∈ h.queue ∧ ∃ data, rest = data ++ [none] ∧ none ∉ data := by
  have hnone' : none ∈ h.queue := by simp [hqueue, hrest]
  obtain ⟨_, data, hdata, hnone⟩ := hinv.sentinel hnone'
  refine ⟨hnone', ?_⟩
  cases data with
  | nil =>
      rw [hqueue, List.nil_append] at hdata
      rw [(List.cons.inj hdata).2] at hrest
      cases hrest
  | cons item' data =>
      rw [hqueue, List.cons_append] at hdata
      exact ⟨data, (List.cons.inj hdata).2, fun hmem => hnone (List.mem_cons_of_mem _ hmem)⟩

/-- A change of the thread, which had not ended, and a queue from which it may
    have taken. -/
theorem hopInv_thread {h : Hop} (hinv : HopInv content h) {queue : List (Option Bytes)}
    {forwarder : Forwarder} (habsent : h.forwarder ≠ .absent)
    (hsends : Sends forwarder → forwarder = .running ∧ Sends h.forwarder)
    (hqueue : none ∈ queue → none ∈ h.queue ∧ ∃ data, queue = data ++ [none] ∧ none ∉ data) :
    HopInv content { h with queue, forwarder } where
  phase := phaseInv_forwarder hinv.phase queue forwarder habsent
  forwarding hf := hinv.forwarding (hsends hf).2
  submitted hf := by
    have hrunning := (hsends (.inl hf)).1
    cases hf.symm.trans hrunning
  sentinel hnone := ⟨(hinv.sentinel (hqueue hnone).1).1, (hqueue hnone).2⟩
  finished := hinv.finished
  emptied := hinv.emptied
  broken hend hforwards := hinv.broken hend
    ⟨hforwards.downstream, hforwards.teeing, (hsends hforwards.sends).2⟩
  raised hraised hf := by
    refine hinv.raised (hraised.imp_right fun hdone => ?_) (hsends hf).2
    exact ⟨hdone.1, (hqueue hdone.2).1⟩
  published := hinv.published

theorem hopInv_opened {downstream : List String} : HopInv content (opened downstream) := by
  cases downstream with
  | nil =>
      exact ⟨⟨rfl, rfl, rfl⟩, by simp [opened], nofun, nofun, nofun, nofun, nofun,
        by simp [opened, Raised], nofun⟩
  | cons address downstream =>
      exact ⟨⟨rfl, rfl, rfl⟩, by simp [opened], nofun, nofun, nofun, nofun, nofun,
        by simp [opened, Raised], nofun⟩

theorem received_opened (downstream : List String) : received (opened downstream) = [] := by
  cases downstream with
  | nil => rfl
  | cons address downstream => rfl

theorem chainInv_start {i : Nat} (hinv : ChainInv content s)
    (hforwarder : (s.hops i).forwarder = .submitted) :
    ChainInv content (s.setPair i { s.hops i with forwarder := .running }
      (opened (s.hops i).downstream)) := by
  have hcell := hinv.cell i
  refine hinv.update_pair ?_ hopInv_opened ?_ ?_ ?_
  · exact hopInv_thread hcell (by simp [hforwarder]) (fun _ => ⟨rfl, .inl hforwarder⟩)
      fun hnone => ⟨hnone, (hcell.sentinel hnone).2⟩
  · intro _ _ _
    rw [received_opened]
    exact hcell.submitted hforwarder
  · intro j hj
    subst hj
    exact hinv.link j
  · intro hrunning
    cases hdownstream : (s.hops i).downstream with
    | nil => simp [hdownstream, opened] at hrunning
    | cons address downstream => simp [hdownstream, opened] at hrunning

/-- A chunk arrives. -/
theorem hopInv_deliverData {h : Hop} (hinv : HopInv content h) (chunk : Bytes) :
    HopInv content (deliver h (some chunk)) := by
  rw [deliver]
  by_cases hlive : h.rxEnd = .live
  · rw [if_pos hlive]
    exact ⟨hinv.phase, hinv.forwarding, hinv.submitted, hinv.sentinel,
      fun hend => (by cases hlive.symm.trans hend),
      fun hend => (by cases hlive.symm.trans hend),
      fun hend => (by cases hlive.symm.trans hend), hinv.raised, hinv.published⟩
  · rw [if_neg hlive]
    exact hinv

/-- The stream ends. -/
theorem hopInv_deliverEnd {h : Hop} (hinv : HopInv content h)
    (hall : h.rxEnd = .live → h.phase ≠ .done none → received h = content) :
    HopInv content (deliver h none) := by
  rw [deliver]
  by_cases hlive : h.rxEnd = .live
  · rw [if_pos hlive]
    exact ⟨hinv.phase, hinv.forwarding, hinv.submitted, hinv.sentinel,
      fun _ => hall hlive, (fun hend => by cases hend), (fun hend => by cases hend),
      hinv.raised, hinv.published⟩
  · rw [if_neg hlive]
    exact hinv

/-- A chunk goes from the queue to the next hop. -/
theorem linkInv_takeData {h h' : Hop} (hlink : LinkInv h h') {chunk : Bytes}
    {rest : List (Option Bytes)} (hforwarder : h.forwarder = .running)
    (hqueue : h.queue = some chunk :: rest) :
    LinkInv { h with queue := rest, forwarder := .running } (deliver h' (some chunk)) := by
  intro _ hlive hdone
  rw [deliver] at hlive hdone ⊢
  by_cases hlive' : h'.rxEnd = .live
  · rw [if_pos hlive'] at hdone ⊢
    have hqueued : queued h = chunk ++ (rest.filterMap id).flatten := by
      rw [queued, hqueue]
      rfl
    have hsent := hlink hforwarder hlive' hdone
    rw [hqueued, ← List.append_assoc] at hsent
    rw [hsent]
    simp [queued, received, Message.chunk]
  · rw [if_neg hlive'] at hlive
    exact absurd hlive hlive'

/-- **THE SENTINEL IS THE END OF ALL THAT A HOP HAS GOT.** -/
theorem received_of_takeEnd {h h' : Hop} (hinv : HopInv content h) (hlink : LinkInv h h')
    {rest : List (Option Bytes)} (hforwarder : h.forwarder = .running)
    (hqueue : h.queue = none :: rest) (hlive : h'.rxEnd = .live)
    (hdone : h'.phase ≠ .done none) : received h' = h.got.flatten := by
  obtain ⟨_, data, hdata, hnone⟩ := hinv.sentinel (by simp [hqueue])
  have hsent := hlink hforwarder hlive hdone
  cases data with
  | nil =>
      have hqueued : queued h = [] := by
        rw [queued, hdata]
        rfl
      rw [hqueued, List.append_nil] at hsent
      exact hsent.symm
  | cons item data =>
      rw [hqueue, List.cons_append] at hdata
      rw [← (List.cons.inj hdata).1] at hnone
      exact absurd List.mem_cons_self hnone

theorem chainInv_takeData {i : Nat} {chunk : Bytes} {rest : List (Option Bytes)}
    (hinv : ChainInv content s) (hforwarder : (s.hops i).forwarder = .running)
    (hqueue : (s.hops i).queue = some chunk :: rest) :
    ChainInv content (s.setPair i { s.hops i with queue := rest, forwarder := .running }
      (deliver (s.hops (i + 1)) (some chunk))) := by
  have hcell := hinv.cell i
  refine hinv.update_pair ?_ (hopInv_deliverData (hinv.cell (i + 1)) chunk)
    (linkInv_takeData (hinv.link i) hforwarder hqueue) ?_ ?_
  · exact hopInv_thread hcell (by simp [hforwarder]) (fun _ => ⟨rfl, .inr hforwarder⟩)
      (sentinel_take hcell hqueue)
  · intro j hj
    subst hj
    exact hinv.link j
  · obtain ⟨rx, rxEnd, hdeliver⟩ := deliver_frame (s.hops (i + 1)) (some chunk)
    rw [hdeliver]
    exact hinv.link (i + 1)

/-- What the hop got whose sentinel is taken is the block. -/
theorem got_of_takeEnd {h : Hop} (hinv : HopInv content h) {rest : List (Option Bytes)}
    (hforwarder : h.forwarder = .running) (hqueue : h.queue = none :: rest) :
    h.got.flatten = content := by
  have hphaseInv := hinv.phase
  have hnone : none ∈ h.queue := by simp [hqueue]
  have hended := (hinv.sentinel hnone).1
  cases hphase : h.phase with
  | finalizing | awaiting =>
      rw [PhaseInv, hphase] at hphaseInv
      exact hphaseInv
  | done answer =>
      rw [PhaseInv, hphase] at hphaseInv
      cases answer with
      | none => exact hinv.raised (.inr ⟨hphase, hnone⟩) (.inr hforwarder)
      | some r => exact hphaseInv
  | idle | waiting | creating | reading | putting | writing | closing =>
      rw [hphase] at hended
      exact hended.elim

theorem chainInv_takeEnd {i : Nat} {rest : List (Option Bytes)} (hinv : ChainInv content s)
    (hforwarder : (s.hops i).forwarder = .running) (hqueue : (s.hops i).queue = none :: rest) :
    ChainInv content (s.setPair i { s.hops i with queue := rest, forwarder := .drained }
      (deliver (s.hops (i + 1)) none)) := by
  have hcell := hinv.cell i
  have hall : (s.hops (i + 1)).rxEnd = .live → (s.hops (i + 1)).phase ≠ .done none →
      received (s.hops (i + 1)) = content := fun hlive hdone =>
    (received_of_takeEnd hcell (hinv.link i) hforwarder hqueue hlive hdone).trans
      (got_of_takeEnd hcell hforwarder hqueue)
  refine hinv.update_pair ?_ (hopInv_deliverEnd (hinv.cell (i + 1)) hall) nofun ?_ ?_
  · exact hopInv_thread hcell (by simp [hforwarder]) (by simp [Sends])
      (sentinel_take hcell hqueue)
  · intro j hj
    subst hj
    exact hinv.link j
  · obtain ⟨rx, rxEnd, hdeliver⟩ := deliver_frame (s.hops (i + 1)) none
    rw [hdeliver]
    exact hinv.link (i + 1)

theorem chainInv_answer {i : Nat} {answer : Option Response} (hinv : ChainInv content s)
    (hforwarder : (s.hops i).forwarder = .running ∨ (s.hops i).forwarder = .drained) :
    ChainInv content (s.setHop i { s.hops i with forwarder := .answered answer }) := by
  have hcell := hinv.cell i
  refine hinv.update ?_ nofun ?_
  · exact hopInv_thread hcell (by rintro hf; simp [hf] at hforwarder) (by simp [Sends])
      fun hnone => ⟨hnone, (hcell.sentinel hnone).2⟩
  · intro j hj
    subst hj
    exact hinv.link j

/-- **A STEP THAT BREAKS NO STREAM TOO EARLY KEEPS EVERY COPY WHOLE.** -/
theorem chainInv_step (hinv : ChainInv chunks.flatten s) (hguard : LateBreaks chunks s l)
    (hstep : Steps digest s l s') : ChainInv chunks.flatten s' := by
  cases hstep with
  | acts hacts => exact chainInv_acts hinv hguard hacts
  | start hforwarder => exact chainInv_start hinv hforwarder
  | takeData hforwarder hqueue => exact chainInv_takeData hinv hforwarder hqueue
  | takeEnd hforwarder hqueue => exact chainInv_takeEnd hinv hforwarder hqueue
  | answer hforwarder => exact chainInv_answer hinv hforwarder
  | @reset i answer hforwarder hphase hend =>
      -- as if the stream were cut
      have hcut : Acts digest (s.hops (i + 1)) .cut _ := .cut hphase (by simp [hend])
      exact chainInv_acts (a := .cut) hinv hguard hcut

theorem hopInv_idle : HopInv content {} :=
  ⟨⟨rfl, rfl, rfl⟩, by simp, nofun, nofun, nofun, nofun, nofun, by simp [Raised], nofun⟩

theorem hopInv_head : HopInv chunks.flatten (head chain chunks) := by
  cases chain with
  | nil => exact hopInv_idle
  | cons address downstream =>
      refine ⟨⟨rfl, rfl, rfl⟩, by simp [head], nofun, nofun, fun _ _ => ?_, nofun, nofun,
        by simp [head, Raised], nofun⟩
      have hsame : (Message.chunk ∘ Message.data) = id := rfl
      simp [received, head, inHand, Message.chunk, hsame]

theorem chainInv_initial
    (hinit : s.hops = Function.update (fun _ => {}) 0 (head chain chunks)) :
    ChainInv chunks.flatten s := by
  have hidle : Linked (fun _ => HopInv chunks.flatten) (fun _ => LinkInv) fun _ => {} :=
    ⟨fun _ => hopInv_idle, fun _ => nofun⟩
  rw [ChainInv, hinit]
  refine hidle.update hopInv_head ?_ fun i hi => nomatch hi
  cases chain with
  | nil => exact nofun
  | cons address downstream => exact nofun

/-- **IN EVERY RUN THAT BREAKS NO STREAM TOO EARLY, NO COPY IS TRUNCATED.** -/
theorem chainInv_run {ls : List Label}
    (hrun : ((pipeline digest chain chunks).guarded (LateBreaks chunks)).Run ls s) :
    ChainInv chunks.flatten s := by
  obtain ⟨s₀, hinit, hpath⟩ := hrun
  exact hpath.keeps (chainInv_initial hinit) fun _ _ _ hinv hstep =>
    chainInv_step hinv hstep.1 (steps_of_next hstep.2)

end Chain

/-- **WHOLE COPIES.**  In every run in which no hop that forwards is interrupted
    before the last byte, what any hop publishes is the whole block, and the
    whole block has arrived wherever a stream has ended normally. -/
theorem published_copies_are_whole (digest : Bytes → String) (chain : List String)
    (chunks : List Bytes) (ls : List Label) (s : Pipeline)
    (hrun : ((pipeline digest chain chunks).guarded (LateBreaks chunks)).Run ls s) :
    (∀ i copy, (s.hops i).published = some copy → copy = chunks.flatten) ∧
      ∀ i, (s.hops i).rxEnd = .finished → (s.hops i).phase ≠ .done none →
        received (s.hops i) = chunks.flatten := by
  have hinv := chainInv_run hrun
  exact ⟨fun i => (hinv.cell i).published, fun i => (hinv.cell i).finished⟩

instance : (f : Forwarder) → Decidable (Sends f) :=
  fun f => inferInstanceAs (Decidable (f = .submitted ∨ f = .running))

instance : (p : Phase) → Decidable (Teeing p)
  | .creating | .reading | .putting _ | .writing => isTrue trivial
  | .idle | .waiting | .closing _ | .finalizing | .awaiting _ | .done _ => isFalse id

instance (h : Hop) : Decidable (Forwards h) :=
  decidable_of_iff (h.downstream ≠ [] ∧ Teeing h.phase ∧ Sends h.forwarder)
    ⟨fun hf => ⟨hf.1, hf.2.1, hf.2.2⟩, fun hf => ⟨hf.downstream, hf.teeing, hf.sends⟩⟩

instance (content : Bytes) (h : Hop) : (a : Act) → Decidable (BreaksLate content h a)
  | .cut => inferInstanceAs (Decidable (Forwards h → taken h = content))
  | .fail => inferInstanceAs (Decidable (h.phase = .writing → h.forwarder = .running →
      taken h = content))
  | .accept | .create | .receive | .put | .write | .close | .publish | .collect
  | .unlinkFails | .reject | .lose | .stop | .crash => isTrue trivial

instance (chunks : List Bytes) (s : Pipeline) : (l : Label) → Decidable (LateBreaks chunks s l)
  | .acts i a => inferInstanceAs (Decidable (BreaksLate chunks.flatten (s.hops i) a))
  | .reset i => inferInstanceAs (Decidable (BreaksLate chunks.flatten (s.hops (i + 1)) .cut))
  | .start _ | .take _ | .answer _ => isTrue trivial

/-- The client dies after the last byte, and then the disk of the first node
    raises. -/
def brokenAtTheEnd : List Label :=
  [.acts 0 .accept, .acts 0 .create, .acts 0 .receive, .acts 0 .put, .start 0, .take 0,
    .acts 0 .write, .acts 0 .receive, .acts 0 .cut, .acts 0 .put, .acts 0 .fail,
    .acts 0 .close, .take 0, .take 0, .acts 1 .accept, .acts 1 .create, .acts 1 .receive,
    .acts 1 .write, .acts 1 .receive, .acts 1 .write, .acts 1 .receive, .acts 1 .publish]

theorem published_copies_are_whole_hola :
    ∃ s, ((pipeline holaSha256 ["n1", "n2"] [hola, hola]).guarded
      (LateBreaks [hola, hola])).Run brokenAtTheEnd s ∧ (s.hops 0).phase = .done none ∧
      ∃ copy, (s.hops 1).published = some copy ∧ copy = hola ++ hola := by
  let init : Pipeline :=
    ⟨Function.update (fun _ => {}) 0 (head ["n1", "n2"] [hola, hola]), fun _ => none⟩
  have hseen : (steps (guardedNext (LateBreaks [hola, hola]) (next holaSha256)) init
      brokenAtTheEnd).map (fun s => ((s.hops 0).phase, (s.hops 1).published.isSome))
      = some (.done none, true) := by decide +kernel
  cases hs : steps (guardedNext (LateBreaks [hola, hola]) (next holaSha256)) init
      brokenAtTheEnd with
  | none =>
      rw [hs] at hseen
      cases hseen
  | some s =>
      rw [hs] at hseen
      obtain ⟨hphase, hsome⟩ := Prod.mk.inj (Option.some.inj hseen)
      obtain ⟨copy, hcopy⟩ := Option.isSome_iff_exists.mp hsome
      have hrun : ((pipeline holaSha256 ["n1", "n2"] [hola, hola]).guarded
          (LateBreaks [hola, hola])).Run brokenAtTheEnd s :=
        ⟨init, rfl, Path.mono (S := (ofPartial init (next holaSha256)).guarded _)
          (path_guarded_of_steps hs) fun _ _ _ hstep => hstep⟩
      obtain ⟨hwhole, _⟩ := published_copies_are_whole holaSha256 ["n1", "n2"] [hola, hola]
        brokenAtTheEnd s hrun
      exact ⟨s, hrun, hphase, copy, hcopy, hwhole 1 copy hcopy⟩

/-- The client dies after four bytes of eight, and the thread that forwards them
    is running. -/
def cutInTheMiddle : List Label :=
  [.acts 0 .accept, .acts 0 .create, .acts 0 .receive, .acts 0 .put, .start 0, .take 0,
    .acts 0 .cut, .acts 0 .write, .acts 0 .receive, .acts 0 .close, .take 0, .acts 1 .accept,
    .acts 1 .create, .acts 1 .receive, .acts 1 .write, .acts 1 .receive, .acts 1 .publish]

/-- **BUT A CUT STREAM MAY END NORMALLY.** -/
theorem cut_stream_is_published :
    ¬ ∀ (digest : Bytes → String) (chain : List String) (chunks : List Bytes)
        (ls : List Label) (s : Pipeline), (pipeline digest chain chunks).Run ls s →
      ∀ i copy, (s.hops i).published = some copy → copy = chunks.flatten := by
  intro h
  let init : Pipeline :=
    ⟨Function.update (fun _ => {}) 0 (head ["n1", "n2"] [hola, hola]), fun _ => none⟩
  have hseen : (steps (next holaSha256) init cutInTheMiddle).map
      (fun s => (s.hops 1).published) = some (some hola) := by decide +kernel
  cases hs : steps (next holaSha256) init cutInTheMiddle with
  | none =>
      rw [hs] at hseen
      cases hseen
  | some s =>
      rw [hs] at hseen
      have hrun : (pipeline holaSha256 ["n1", "n2"] [hola, hola]).Run cutInTheMiddle s :=
        ⟨init, rfl, Path.mono (S := ofPartial init (next holaSha256)) (path_of_steps hs)
          fun _ _ _ hstep => hstep⟩
      exact absurd (h _ _ _ _ s hrun 1 hola (Option.some.inj hseen)) (by decide)

end DfshaWholeCopy
