import Dfsha.QueueRoomProofs

/-! # Whether a handler gets stuck

    A handler waits for three things: for a message of its stream, for room in
    its queue, and for the answer of the next node.  The first and the last
    come as long as the others move, and as long as every `tee` has started:
    the disk of a node that forwards may raise before, and the thread already
    submitted then waits for a sentinel that nobody puts.  Room comes only from
    the forwarding thread: if its RPC has ended nobody takes from the queue any
    more, and the handler waits for ever as soon as there are more chunks than
    places.

    So a chain of one node never gets stuck; and where every `tee` starts, the
    blocks of three chunks or less are exactly those that no early end of an RPC
    can stop. -/

namespace DfshaHandlerProgress

open LinkedCells TransitionSystem TransitionSystem.System DfshaWriteBlock DfshaForwardingChain
  DfshaQueueRoom
open DfshaBlockStore (Bytes hola)

/-! ## What is to be shown -/

/-- The labels that are failures. -/
def Fails : Label → Prop
  | .acts _ .cut | .acts _ .fail | .acts _ .unlinkFails | .acts _ .reject | .acts _ .lose
  | .acts _ .stop | .acts _ .crash => True
  | _ => False

/-- The handler has been called, and has not returned or raised. -/
def Unfinished (h : Hop) : Prop := h.phase ≠ .idle ∧ ∀ answer, h.phase ≠ .done answer

/-- `tee` waits for room in a queue from which nobody will take again. -/
def Blocked (h : Hop) : Prop :=
  Putting h.phase ∧ queueDepthChunks ≤ h.queue.length ∧
    h.forwarder ≠ .submitted ∧ h.forwarder ≠ .running

/-- In no reachable state is `tee` blocked; and from every reachable state every
    handler gets to its end, without any failure. -/
def NeverStuck (S : System Pipeline Label) : Prop :=
  ∀ ls s, S.Run ls s →
    (∀ i, ¬ Blocked (s.hops i)) ∧
      ∀ i, Unfinished (s.hops i) → ∃ ls' s', (∀ l ∈ ls', ¬ Fails l) ∧
        S.Path s ls' s' ∧ ∃ answer, (s'.hops i).phase = .done answer

section Chain

variable {digest : Bytes → String} {chain : List String} {chunks : List Bytes} {k : Nat}
  {s s' : Pipeline} {l : Label}

/-! ## Somebody can move -/

/-- A step that is no failure can be taken. -/
def Enabled (digest : Bytes → String) (s : Pipeline) : Prop :=
  ∃ l s', ¬ Fails l ∧ next digest s l = some s'

/-- The handler can move by itself. -/
def Moves (digest : Bytes → String) (h : Hop) : Prop :=
  ∃ a h', (∀ i, ¬ Fails (.acts i a)) ∧ act digest h a = some h'

/-- It waits for a message. -/
def Reading (h : Hop) : Prop := h.phase = .reading ∧ h.rx = [] ∧ h.rxEnd = .live

/-- It waits for the answer of the next node. -/
def Awaiting (h : Hop) : Prop :=
  ∃ written, h.phase = .awaiting written ∧
    (h.forwarder = .submitted ∨ h.forwarder = .running ∨ h.forwarder = .drained)

theorem accept_of_waiting {h : Hop} (hphase : h.phase = .waiting)
    (hrx : h.rx = [] → h.rxEnd ≠ .live) : ∃ h', accept h = some h' := by
  rw [accept, if_pos hphase]
  cases hmessages : h.rx with
  | nil => exact ⟨_, if_neg (hrx hmessages)⟩
  | cons message rest =>
      cases message with
      | header downstream => exact ⟨_, rfl⟩
      | data chunk => exact ⟨_, rfl⟩

theorem receive_of_reading {h : Hop} (hphase : h.phase = .reading)
    (hrx : h.rx = [] → h.rxEnd ≠ .live) : ∃ h', receive h = some h' := by
  rw [receive, if_pos hphase]
  cases hmessages : h.rx with
  | nil =>
      cases hend : h.rxEnd with
      | live => exact absurd hend (hrx hmessages)
      | finished => exact ⟨_, rfl⟩
      | broken => exact ⟨_, rfl⟩
  | cons message rest =>
      by_cases hlast : h.downstream = []
      · exact ⟨_, if_pos hlast⟩
      · exact ⟨_, if_neg hlast⟩

/-- **A HANDLER THAT IS NOT FINISHED MOVES, OR WAITS FOR ANOTHER HOP.** -/
theorem moves_or_waits {h : Hop} (hinv : PhaseInv h) (hroom : Room h) (hopen : Unfinished h) :
    Moves digest h ∨ Reading h ∨ Awaiting h := by
  rw [DfshaQueueRoom.PhaseInv] at hinv
  rw [Room] at hroom
  cases hphase : h.phase with
  | idle => exact absurd hphase hopen.1
  | done answer => exact absurd hphase (hopen.2 answer)
  | waiting =>
      rw [hphase] at hinv
      obtain ⟨h', hact⟩ := accept_of_waiting hphase hinv.2
      exact .inl ⟨.accept, h', fun _ => id, hact⟩
  | creating => exact .inl ⟨.create, _, fun _ => id, if_pos hphase⟩
  | writing => exact .inl ⟨.write, _, fun _ => id, if_pos hphase⟩
  | finalizing => exact .inl ⟨.publish, _, fun _ => id, if_pos hphase⟩
  | putting chunk =>
      rw [hphase] at hroom
      refine .inl ⟨.put, ?_⟩
      rw [act, put, hphase]
      exact ⟨_, fun _ => id, if_pos (hroom trivial)⟩
  | closing raised =>
      rw [hphase] at hroom
      refine .inl ⟨.close, ?_⟩
      rw [act, close, hphase]
      exact ⟨_, fun _ => id, if_pos (hroom trivial)⟩
  | reading =>
      by_cases hwait : h.rx = [] ∧ h.rxEnd = .live
      · exact .inr (.inl ⟨hphase, hwait⟩)
      · obtain ⟨h', hact⟩ := receive_of_reading hphase fun hrx hlive => hwait ⟨hrx, hlive⟩
        exact .inl ⟨.receive, h', fun _ => id, hact⟩
  | awaiting written =>
      rw [hphase] at hinv
      cases hforwarder : h.forwarder with
      | absent => exact absurd hforwarder hinv.2
      | submitted => exact .inr (.inr ⟨written, hphase, .inl hforwarder⟩)
      | running => exact .inr (.inr ⟨written, hphase, .inr (.inl hforwarder)⟩)
      | drained => exact .inr (.inr ⟨written, hphase, .inr (.inr hforwarder)⟩)
      | answered answer =>
          refine .inl ⟨.collect, ?_⟩
          cases answer with
          | none => exact ⟨_, fun _ => id, by rw [act, collect, hphase, hforwarder]⟩
          | some answer => exact ⟨_, fun _ => id, by rw [act, collect, hphase, hforwarder]⟩
      | cancelled =>
          exact .inl ⟨.collect, _, fun _ => id, by rw [act, collect, hphase, hforwarder]⟩

theorem enabled_of_moves {i : Nat} (hmoves : Moves digest (s.hops i)) : Enabled digest s := by
  obtain ⟨a, h', hfails, hact⟩ := hmoves
  exact ⟨.acts i a, _, hfails i, by rw [next, hact]; rfl⟩

theorem enabled_take {i : Nat} (hforwarder : (s.hops i).forwarder = .running)
    (hqueue : (s.hops i).queue ≠ []) : Enabled digest s := by
  obtain ⟨item, rest, hitems⟩ := List.exists_cons_of_ne_nil hqueue
  exact ⟨.take i, _, id, by dsimp only [next]; rw [hforwarder, hitems]⟩

/-- **WHO WAITS FOR A MESSAGE WAITS FOR A HOP THAT MOVES**, since the client has
    sent everything: by induction from the first hop. -/
theorem enabled_of_reading (hinv : ChainInv digest chain k s) (hroom : ∀ i, Room (s.hops i))
    (i : Nat) (hreading : Reading (s.hops i)) : Enabled digest s := by
  induction i with
  | zero =>
      obtain ⟨hphase, _, hlive⟩ := hreading
      exact absurd hlive ((hinv.counted.cell 0).head rfl (by simp [hphase]))
  | succ i ih =>
      obtain ⟨hphase, hrx, hlive⟩ := hreading
      have hlink := hinv.counted.link i
      have hchained := hinv.chained.link i
      cases hforwarder : (s.hops i).forwarder with
      | absent =>
          exact absurd (hchained.idle (.inl hforwarder)) (by simp [hphase])
      | submitted =>
          exact absurd (hchained.idle (.inr (.inl hforwarder))) (by simp [hphase])
      | cancelled =>
          exact absurd (hchained.idle (.inr (.inr hforwarder))) (by simp [hphase])
      | drained => exact absurd hlive (hlink.drained hforwarder)
      | answered answer =>
          refine ⟨.reset i, ?_⟩
          dsimp only [next]
          rw [hforwarder]
          exact ⟨_, id, if_pos ⟨by simp [hphase], hlive⟩⟩
      | running =>
          by_cases hqueue : (s.hops i).queue = []
          · have hcell := hinv.counted.cell i
            have hended : ¬ (s.hops i).phase.Ended := by
              intro hended
              have hnone := hcell.ended hended (.inr hforwarder)
              rw [hqueue] at hnone
              cases hnone
            have hopen : Unfinished (s.hops i) := by
              refine ⟨hinv.ne_idle (by simp [hforwarder]), fun answer hdone => hended ?_⟩
              rw [hdone]
              trivial
            rcases moves_or_waits hcell.phase (hroom i) hopen with hmoves | hreading | hawaiting
            · exact enabled_of_moves hmoves
            · exact ih hreading
            · obtain ⟨written, hphase, _⟩ := hawaiting
              rw [hphase] at hended
              exact absurd trivial hended
          · exact enabled_take hforwarder hqueue

/-- **WHO WAITS FOR AN ANSWER WAITS FOR A HOP THAT MOVES**: by induction from the
    end of the chain. -/
theorem enabled_of_awaiting (hinv : ChainInv digest chain k s) (hroom : ∀ i, Room (s.hops i))
    (n i : Nat) (hn : chain.length ≤ i + n) (hawaiting : Awaiting (s.hops i)) :
    Enabled digest s := by
  induction n generalizing i with
  | zero =>
      obtain ⟨written, hphase, _⟩ := hawaiting
      have haddress := (hinv.chained.cell i).address (by simp [hphase])
      rw [List.getElem?_eq_none (by omega)] at haddress
      cases haddress
  | succ n ih =>
      obtain ⟨written, hphase, hforwarder⟩ := hawaiting
      have hcell := hinv.counted.cell i
      have hlink := hinv.counted.link i
      rcases hforwarder with hforwarder | hforwarder | hforwarder
      · exact ⟨.start i, _, id, if_pos hforwarder⟩
      · have hnone := hcell.ended (by rw [hphase]; trivial) (.inr hforwarder)
        exact enabled_take hforwarder (List.ne_nil_of_mem hnone)
      · have hidle := hlink.started (.inr hforwarder)
        by_cases hdone : ∃ answer, (s.hops (i + 1)).phase = .done answer
        · obtain ⟨answer, hdone⟩ := hdone
          refine ⟨.answer i, ?_⟩
          dsimp only [next]
          rw [hforwarder, hdone]
          exact ⟨_, id, rfl⟩
        · have hopen : Unfinished (s.hops (i + 1)) :=
            ⟨hidle, fun answer hd => hdone ⟨answer, hd⟩⟩
          rcases moves_or_waits (hinv.counted.cell (i + 1)).phase (hroom (i + 1)) hopen with
            hmoves | hreading | hawaiting
          · exact enabled_of_moves hmoves
          · exact absurd hreading.2.2 (hlink.drained hforwarder)
          · exact ih (i + 1) (by omega) hawaiting

/-- **AS LONG AS A HANDLER IS NOT FINISHED, SOMEBODY MOVES.** -/
theorem enabled_of_unfinished (hinv : ChainInv digest chain k s)
    (hroom : ∀ i, Room (s.hops i)) {i : Nat} (hopen : Unfinished (s.hops i)) :
    Enabled digest s := by
  rcases moves_or_waits (hinv.counted.cell i).phase (hroom i) hopen with
    hmoves | hreading | hawaiting
  · exact enabled_of_moves hmoves
  · exact enabled_of_reading hinv hroom i hreading
  · exact enabled_of_awaiting hinv hroom chain.length i (Nat.le_add_left _ _) hawaiting

/-! ## Nobody moves for ever -/

/-- What is left to do in a phase, for a hop with `m` hops from itself to the end
    of a chain of `n`. -/
def phaseWeight (n m : Nat) : Phase → Nat
  | .idle => 6 * n + 20
  | .waiting => 9
  | .creating => 8
  | .reading => 7
  | .putting _ => 6 * m + 6
  | .writing => 8
  | .closing _ => 5
  | .finalizing => 3
  | .awaiting _ => 2
  | .done _ => 0

def itemWeight (m : Nat) : Option Bytes → Nat
  | some _ => 6 * m - 3
  | none => 1

def threadWeight : Forwarder → Nat
  | .submitted => 4
  | .running => 2
  | .drained => 1
  | _ => 0

def endWeight : StreamEnd → Nat
  | .live => 1
  | _ => 0

/-- A message costs more than all that becomes of it in the hops after. -/
def hopWeight (n m : Nat) (h : Hop) : Nat :=
  phaseWeight n m h.phase + 6 * m * h.rx.length + (h.queue.map (itemWeight m)).sum
    + threadWeight h.forwarder + endWeight h.rxEnd

theorem threadWeight_cancel (f : Forwarder) : threadWeight f.cancel ≤ threadWeight f := by
  cases f with
  | submitted => exact Nat.zero_le _
  | absent | running | drained | answered | cancelled => exact Nat.le_refl _

/-- **EVERY ACT LEAVES LESS TO DO.** -/
theorem weight_acts {h h' : Hop} {a : Act} {i n m : Nat} (hm : 0 < m)
    (hfails : ¬ Fails (.acts i a)) (habsent : h.phase = .waiting → h.forwarder = .absent)
    (hacts : Acts digest h a h') : hopWeight n m h' < hopWeight n m h := by
  cases hacts with
  | @accept downstream rest hphase hrx =>
      have hthread : threadWeight (if downstream = [] then .absent else .submitted) ≤ 4 := by
        by_cases hlast : downstream = []
        · rw [if_pos hlast]
          exact Nat.zero_le _
        · rw [if_neg hlast]
          exact Nat.le_refl _
      simp only [hopWeight, hphase, hrx, phaseWeight, List.length_cons, Nat.mul_succ,
        habsent hphase]
      omega
  | refuse hphase | create hphase | write hphase | receiveEnd hphase | receiveEndLast hphase
  | receiveBroken hphase | receiveBrokenLast hphase | publish hphase | publishLast hphase
  | collect hphase | collectFailed hphase =>
      simp only [hopWeight, hphase, phaseWeight]
      omega
  | receive hphase hrx | receiveLast hphase hrx =>
      simp only [hopWeight, hphase, hrx, phaseWeight, List.length_cons, Nat.mul_succ]
      omega
  | put hphase =>
      simp only [hopWeight, hphase, phaseWeight, List.map_append, List.sum_append, List.map_cons,
        List.map_nil, List.sum_cons, List.sum_nil, itemWeight]
      omega
  | close hphase =>
      simp only [hopWeight, hphase, phaseWeight, List.map_append, List.sum_append, List.map_cons,
        List.map_nil, List.sum_cons, List.sum_nil, itemWeight]
      omega
  | closeRaised hphase =>
      have hthread := threadWeight_cancel h.forwarder
      simp only [hopWeight, hphase, phaseWeight, List.map_append, List.sum_append, List.map_cons,
        List.map_nil, List.sum_cons, List.sum_nil, itemWeight]
      omega
  | cut | fail | failForwarding | unlinkFails | reject | lose | stop | crash =>
      exact absurd trivial hfails

/-- A chunk that has arrived costs less than one that waits in the queue. -/
theorem weight_deliver (n m : Nat) (h : Hop) (item : Option Bytes) :
    hopWeight n m (deliver h item) ≤ hopWeight n m h + 6 * m * item.toList.length := by
  cases item with
  | none =>
      rw [deliver]
      by_cases hlive : h.rxEnd = .live
      · rw [if_pos hlive]
        simp only [hopWeight, endWeight]
        omega
      · rw [if_neg hlive]
        exact Nat.le_add_right _ _
  | some chunk =>
      rw [deliver]
      by_cases hlive : h.rxEnd = .live
      · rw [if_pos hlive]
        simp only [hopWeight, List.length_append, List.length_singleton, Nat.mul_add,
          Option.toList_some]
        omega
      · rw [if_neg hlive]
        exact Nat.le_add_right _ _

theorem weight_opened (n m : Nat) (downstream : List String) (hforward : downstream ≠ []) :
    hopWeight n m (opened downstream) = 6 * m + 10 := by
  cases downstream with
  | nil => exact absurd rfl hforward
  | cons address downstream =>
      simp only [hopWeight, opened, phaseWeight, threadWeight, endWeight, List.map_nil,
        List.sum_nil, List.length_cons, List.length_nil]
      omega

/-- What is left to do in the whole chain. -/
def leftToDo (chain : List String) (s : Pipeline) : Nat :=
  weight (fun i => hopWeight chain.length (chain.length - i)) chain.length s.hops

/-- **EVERY STEP LEAVES LESS TO DO.** -/
theorem leftToDo_step (hinv : ChainInv digest chain k s) (hfails : ¬ Fails l)
    (hstep : Steps digest s l s') : leftToDo chain s' < leftToDo chain s := by
  cases hstep with
  | @acts i a h hacts =>
      have hi := hinv.lt_length (ne_idle_of_acts (hinv.chained.cell i).phase hacts)
      exact weight_update_lt hi (weight_acts (by omega) hfails hinv.absent hacts)
  | @start i hforwarder =>
      have hforward := (hinv.counted.cell i).forwarding (.inl hforwarder)
      have hi : i + 1 < chain.length := by
        refine Nat.lt_of_not_le fun hshort => hforward ?_
        rw [(hinv.chained.cell i).submitted hforwarder, List.drop_eq_nil_iff]
        exact hshort
      refine weight_update_pair_lt hi ?_
      rw [weight_opened _ _ _ hforward]
      simp only [hopWeight, (hinv.chained.link i).idle (.inr (.inl hforwarder)), hforwarder,
        phaseWeight, threadWeight]
      omega
  | @takeData i chunk rest hforwarder hqueue =>
      have hi := hinv.lt_length ((hinv.counted.link i).started (.inl hforwarder))
      refine weight_update_pair_lt hi ?_
      have hdeliver := weight_deliver chain.length (chain.length - (i + 1)) (s.hops (i + 1))
        (some chunk)
      rw [Option.toList_some, List.length_singleton] at hdeliver
      have hnear : hopWeight chain.length (chain.length - i)
          { s.hops i with queue := rest, forwarder := .running }
            + (6 * (chain.length - i) - 3)
          = hopWeight chain.length (chain.length - i) (s.hops i) := by
        simp only [hopWeight, hqueue, hforwarder, List.map_cons, List.sum_cons, itemWeight]
        omega
      omega
  | @takeEnd i rest hforwarder hqueue =>
      have hi := hinv.lt_length ((hinv.counted.link i).started (.inl hforwarder))
      refine weight_update_pair_lt hi ?_
      have hdeliver := weight_deliver chain.length (chain.length - (i + 1)) (s.hops (i + 1)) none
      rw [Option.toList_none, List.length_nil, Nat.mul_zero] at hdeliver
      have hnear : hopWeight chain.length (chain.length - i)
          { s.hops i with queue := rest, forwarder := .drained }
          < hopWeight chain.length (chain.length - i) (s.hops i) := by
        simp only [hopWeight, hqueue, hforwarder, List.map_cons, List.sum_cons, itemWeight,
          threadWeight]
        omega
      omega
  | @answer i answer hforwarder hdone =>
      have hthread : 0 < threadWeight (s.hops i).forwarder := by
        rcases hforwarder with hf | hf
        · rw [hf]
          exact Nat.two_pos
        · rw [hf]
          exact Nat.one_pos
      have hi := hinv.lt_length (hinv.ne_idle (i := i) (by rintro hf; simp [hf] at hforwarder))
      refine weight_update_lt hi ?_
      simp only [hopWeight, threadWeight] at hthread ⊢
      omega
  | @reset i answer hforwarder hphase hend =>
      refine weight_update_lt (hinv.lt_length hphase) ?_
      simp only [hopWeight, hend, endWeight, List.length_nil]
      omega

theorem ne_idle_step (hinv : ChainInv digest chain k s) (hstep : Steps digest s l s') {i : Nat}
    (hphase : (s.hops i).phase ≠ .idle) : (s'.hops i).phase ≠ .idle := by
  have hset : ∀ {hops : Nat → Hop} {j : Nat} {h : Hop}, (hops i).phase ≠ .idle →
      (j = i → h.phase ≠ .idle) → (Function.update hops j h i).phase ≠ .idle := by
    intro hops j h hphase hset
    by_cases hj : i = j
    · rw [hj, Function.update_self]
      exact hset hj.symm
    · rw [Function.update_of_ne hj]
      exact hphase
  cases hstep with
  | acts hacts => exact hset hphase fun hj => hacts.ne_idle (hj ▸ hphase)
  | @start j hforwarder =>
      refine hset (hset hphase fun hj => hj ▸ hphase) fun hj => ?_
      have hidle := (hinv.chained.link j).idle (.inr (.inl hforwarder))
      rw [hj] at hidle
      exact absurd hidle hphase
  | @takeData j chunk =>
      obtain ⟨rx, rxEnd, hdeliver⟩ := deliver_frame (s.hops (j + 1)) (some chunk)
      rw [hdeliver]
      exact hset (hset hphase fun hj => hj ▸ hphase) fun hj => hj ▸ hphase
  | @takeEnd j =>
      obtain ⟨rx, rxEnd, hdeliver⟩ := deliver_frame (s.hops (j + 1)) none
      rw [hdeliver]
      exact hset (hset hphase fun hj => hj ▸ hphase) fun hj => hj ▸ hphase
  | answer => exact hset hphase fun hj => hj ▸ hphase
  | reset => exact hset hphase fun hj => hj ▸ hphase

theorem afterTee_of_ne_fail {i : Nat} {a : Act} (hne : a ≠ .fail) : AfterTee s (.acts i a) := by
  cases a with
  | fail => exact absurd rfl hne
  | accept | create | receive | put | write | close | publish | collect | cut | unlinkFails
  | reject | lose | stop | crash =>
      trivial

theorem afterTee_of_not_fails (hfails : ¬ Fails l) : AfterTee s l := by
  cases l with
  | acts i a =>
      refine afterTee_of_ne_fail ?_
      rintro rfl
      exact hfails trivial
  | start | take | answer | reset => trivial

/-- **EVERY HANDLER GETS TO ITS END**: by induction on what is left to do. -/
theorem finishes (hfew : chain.length ≤ 1 ∨ chunks.length ≤ 3)
    (hinv : ChainInv digest chain chunks.length s) (i : Nat)
    (hphase : (s.hops i).phase ≠ .idle) :
    ∃ ls s', (∀ l ∈ ls, ¬ Fails l) ∧ (calls digest chain chunks).Path s ls s' ∧
      ∃ answer, (s'.hops i).phase = .done answer := by
  induction hn : leftToDo chain s using Nat.strong_induction_on generalizing s with
  | _ n ih =>
      by_cases hdone : ∃ answer, (s.hops i).phase = .done answer
      · exact ⟨[], s, nofun, .start, hdone⟩
      · have hopen : Unfinished (s.hops i) := ⟨hphase, fun answer hd => hdone ⟨answer, hd⟩⟩
        obtain ⟨l, s₁, hfails, hnext⟩ :=
          enabled_of_unfinished hinv (room_of_few hinv hfew) hopen
        have hstep := steps_of_next hnext
        have hguard := afterTee_of_not_fails (s := s) hfails
        have hless := leftToDo_step hinv hfails hstep
        obtain ⟨ls, s', hls, hpath, hdone'⟩ := ih _ (hn ▸ hless)
          (chainInv_step hinv hguard hstep) (ne_idle_step hinv hstep hphase) rfl
        exact ⟨l :: ls, s', List.forall_mem_cons.mpr ⟨hfails, hls⟩,
          Path.cons ⟨hguard, hnext⟩ hpath, hdone'⟩

theorem not_blocked {h : Hop} (hroom : Room h) : ¬ Blocked h := by
  rintro ⟨hputting, hfull, _⟩
  exact absurd (hroom hputting) (Nat.not_lt_of_le hfull)

theorem neverStuck_of_few (hfew : chain.length ≤ 1 ∨ chunks.length ≤ 3) :
    NeverStuck (calls digest chain chunks) := by
  intro ls s hrun
  have hinv := chainInv_run hrun
  exact ⟨fun i => not_blocked (room_of_few hinv hfew i), fun i hopen =>
    finishes hfew hinv i hopen.1⟩

/-- In a chain of one node nobody forwards, so there is no `tee` to start. -/
theorem neverStuck_of_short (hshort : chain.length ≤ 1) :
    NeverStuck (pipeline digest chain chunks) := by
  intro ls s hrun
  have hcalls : (calls digest chain chunks).Run ls s := by
    refine hrun.guard (I := fun s => Chained digest chain s.hops)
      (fun _ hinit => linked_initial hinit)
      (fun _ _ _ hinv hstep => linked_step hinv (steps_of_next hstep)) ?_
    intro s₁ l s₂ hinv _
    cases l with
    | acts i a =>
        by_cases hfail : a = .fail
        · subst hfail
          intro hphase
          have hchained := (hinv.cell i).phase
          rw [DfshaForwardingChain.PhaseInv, hphase] at hchained
          rw [hchained, List.drop_eq_nil_iff]
          omega
        · exact afterTee_of_ne_fail hfail
    | start | take | answer | reset => trivial
  obtain ⟨hfree, hends⟩ := neverStuck_of_few (.inl hshort) ls s hcalls
  refine ⟨hfree, fun i hopen => ?_⟩
  obtain ⟨ls', s', hls', hpath, hdone⟩ := hends i hopen
  exact ⟨ls', s', hls', hpath.unguarded, hdone⟩

end Chain

/-! ## The blocks that block -/

/-- Take the acts of a list. -/
def acting (digest : Bytes → String) : Hop → List Act → Option Hop :=
  steps (act digest)

/-- The acts of the first hop, as steps of the chain. -/
theorem path_of_acting {digest : Bytes → String} {chain : List String} {chunks : List Bytes}
    {s : Pipeline} {h h' : Hop} {as : List Act} (hhop : s.hops 0 = h) (hguard : .fail ∉ as)
    (hacting : acting digest h as = some h') :
    ∃ s', (calls digest chain chunks).Path s (as.map (.acts 0)) s' ∧ s'.hops 0 = h' := by
  induction as generalizing s h with
  | nil => exact ⟨s, .start, hhop.trans (Option.some.inj hacting)⟩
  | cons a as ih =>
      subst hhop
      obtain ⟨h₁, hact, hacting'⟩ := Option.bind_eq_some_iff.mp hacting
      have hne : a ≠ .fail := fun hc => hguard (List.mem_cons.mpr (.inl hc.symm))
      let s₁ : Pipeline := { s.setHop 0 h₁ with store := storeAfter (s.hops 0) s.store a }
      have hstep : (calls digest chain chunks).step s (.acts 0 a) s₁ := by
        refine ⟨afterTee_of_ne_fail hne, ?_⟩
        show (act digest (s.hops 0) a).map _ = some s₁
        rw [hact]
        rfl
      have hhop : s₁.hops 0 = h₁ := by
        show Function.update s.hops 0 h₁ 0 = h₁
        rw [Function.update_self]
      obtain ⟨s', hpath, hhop'⟩ := ih hhop (fun hc => hguard (List.mem_cons_of_mem _ hc)) hacting'
      exact ⟨s', Path.cons hstep hpath, hhop'⟩

/-- The connection to the next node is refused before the first chunk, and four
    chunks fill the queue. -/
def refused : List Act :=
  [.accept, .create, .lose, .receive, .put, .write, .receive, .put, .write, .receive, .put,
    .write, .receive, .put, .write, .receive]

theorem blocked_of_many {digest : Bytes → String} {a b : String} {downstream : List String}
    {c₁ c₂ c₃ c₄ : Bytes} {rest : List Bytes} :
    ∃ h, acting digest (head (a :: b :: downstream) (c₁ :: c₂ :: c₃ :: c₄ :: rest)) refused
      = some h ∧ Blocked h := by
  cases rest with
  | nil => exact ⟨_, rfl, trivial, Nat.le_refl _, nofun, nofun⟩
  | cons c₅ rest => exact ⟨_, rfl, trivial, Nat.le_refl _, nofun, nofun⟩

/-- **MORE CHUNKS THAN PLACES**, and a connection that is refused. -/
theorem blocked_run (digest : Bytes → String) (a b : String) (downstream : List String)
    (c₁ c₂ c₃ c₄ : Bytes) (rest : List Bytes) :
    ∃ ls s, (calls digest (a :: b :: downstream) (c₁ :: c₂ :: c₃ :: c₄ :: rest)).Run ls s ∧
      Blocked (s.hops 0) := by
  let chunks := c₁ :: c₂ :: c₃ :: c₄ :: rest
  let hops : Nat → Hop := Function.update (fun _ => {}) 0 (head (a :: b :: downstream) chunks)
  let s₀ : Pipeline := ⟨hops, fun _ => none⟩
  have hhead : hops 0 = head (a :: b :: downstream) chunks := Function.update_self _ _ _
  obtain ⟨h, hacting, hblocked⟩ := blocked_of_many
  obtain ⟨s, hpath, hhop⟩ := path_of_acting (s := s₀) hhead (by decide) hacting
  exact ⟨_, s, ⟨s₀, rfl, hpath⟩, hhop ▸ hblocked⟩

theorem not_neverStuck_of_blocked {S : System Pipeline Label} {ls : List Label} {s : Pipeline}
    {i : Nat} (hrun : S.Run ls s) (hblocked : Blocked (s.hops i)) : ¬ NeverStuck S :=
  fun hnever => (hnever ls s hrun).1 i hblocked

/-! ## A `tee` that has not started -/

/-- The disk of the first node has raised before its `tee` started: its thread
    waits at an empty queue, and the second node for a message. -/
structure Abandoned (s : Pipeline) : Prop where
  done : (s.hops 0).phase = .done none
  running : (s.hops 0).forwarder = .running
  queue : (s.hops 0).queue = []
  reading : Reading (s.hops 1)

/-- Who has ended and has no queue can only lose its thread. -/
theorem not_acts_of_done {digest : Bytes → String} {h h' : Hop} {a : Act} {i : Nat}
    {answer : Option Response} (hdone : h.phase = .done answer) (hfails : ¬ Fails (.acts i a)) :
    ¬ Acts digest h a h' := by
  intro hacts
  cases hacts with
  | cut | fail | failForwarding | unlinkFails | reject | lose | stop | crash =>
      exact hfails trivial
  | accept hphase | refuse hphase | create hphase | receive hphase | receiveLast hphase
  | receiveEnd hphase | receiveEndLast hphase | receiveBroken hphase
  | receiveBrokenLast hphase | put hphase | write hphase | close hphase | closeRaised hphase
  | publish hphase | publishLast hphase | collect hphase | collectFailed hphase =>
      cases hdone.symm.trans hphase

/-- Who waits for a message does nothing by himself. -/
theorem not_acts_of_reading {digest : Bytes → String} {h h' : Hop} {a : Act} {i : Nat}
    (hreading : Reading h) (hfails : ¬ Fails (.acts i a)) : ¬ Acts digest h a h' := by
  obtain ⟨hreads, hempty, hlive⟩ := hreading
  intro hacts
  cases hacts with
  | cut | fail | failForwarding | unlinkFails | reject | lose | stop | crash =>
      exact hfails trivial
  | receive _ hrx | receiveLast _ hrx => cases hempty.symm.trans hrx
  | receiveEnd _ _ hend | receiveEndLast _ _ hend | receiveBroken _ _ hend
  | receiveBrokenLast _ _ hend => cases hlive.symm.trans hend
  | accept hphase | refuse hphase | create hphase | put hphase | write hphase | close hphase
  | closeRaised hphase | publish hphase | publishLast hphase | collect hphase
  | collectFailed hphase => cases hreads.symm.trans hphase

/-- **NOBODY HELPS THEM**: no step that is no failure changes it. -/
theorem abandoned_step {digest : Bytes → String} {s s' : Pipeline} {l : Label}
    (hinv : Abandoned s) (hfails : ¬ Fails l) (hstep : Steps digest s l s') : Abandoned s' := by
  have hreads := hinv.reading.1
  cases hstep with
  | @acts i a h hacts =>
      match i with
      | 0 => exact absurd hacts (not_acts_of_done hinv.done hfails)
      | 1 => exact absurd hacts (not_acts_of_reading hinv.reading hfails)
      | j + 2 => exact ⟨hinv.done, hinv.running, hinv.queue, hinv.reading⟩
  | @start i hforwarder =>
      match i with
      | 0 => cases hinv.running.symm.trans hforwarder
      | 1 => exact ⟨hinv.done, hinv.running, hinv.queue, hinv.reading⟩
      | j + 2 => exact ⟨hinv.done, hinv.running, hinv.queue, hinv.reading⟩
  | @takeData i chunk rest _ hqueue =>
      match i with
      | 0 => cases hinv.queue.symm.trans hqueue
      | 1 => exact ⟨hinv.done, hinv.running, hinv.queue, hinv.reading⟩
      | j + 2 => exact ⟨hinv.done, hinv.running, hinv.queue, hinv.reading⟩
  | @takeEnd i rest _ hqueue =>
      match i with
      | 0 => cases hinv.queue.symm.trans hqueue
      | 1 => exact ⟨hinv.done, hinv.running, hinv.queue, hinv.reading⟩
      | j + 2 => exact ⟨hinv.done, hinv.running, hinv.queue, hinv.reading⟩
  | @answer i answer _ hdone =>
      match i with
      | 0 => cases hreads.symm.trans hdone
      | 1 => exact ⟨hinv.done, hinv.running, hinv.queue, hinv.reading⟩
      | j + 2 => exact ⟨hinv.done, hinv.running, hinv.queue, hinv.reading⟩
  | @reset i answer hforwarder =>
      match i with
      | 0 => cases hinv.running.symm.trans hforwarder
      | j + 1 => exact ⟨hinv.done, hinv.running, hinv.queue, hinv.reading⟩

/-- The first node takes the header and submits its thread, which opens the
    stream to the second; then its disk raises. -/
def abandons : List Label :=
  [.acts 0 .accept, .start 0, .acts 0 .fail, .acts 1 .accept, .acts 1 .create]

theorem not_neverStuck_of_long (digest : Bytes → String) (a b : String)
    (downstream : List String) (chunks : List Bytes) :
    ¬ NeverStuck (pipeline digest (a :: b :: downstream) chunks) := by
  intro hnever
  let hops : Nat → Hop := Function.update (fun _ => {}) 0 (head (a :: b :: downstream) chunks)
  let s₀ : Pipeline := ⟨hops, fun _ => none⟩
  obtain ⟨s, hsteps, habandoned⟩ : ∃ s, steps (DfshaWriteBlock.next digest) s₀ abandons = some s
      ∧ Abandoned s := ⟨_, rfl, rfl, rfl, rfl, rfl, rfl, rfl⟩
  have hpath : (ofPartial s₀ (DfshaWriteBlock.next digest)).Path s₀ abandons s :=
    path_of_steps hsteps
  have hrun : (pipeline digest (a :: b :: downstream) chunks).Run abandons s :=
    ⟨s₀, rfl, hpath.mono fun _ _ _ => id⟩
  have hopen : Unfinished (s.hops 1) := by
    refine ⟨?_, fun answer => ?_⟩
    · rw [habandoned.reading.1]
      exact nofun
    · rw [habandoned.reading.1]
      exact nofun
  obtain ⟨ls, s', hfails, hpath, answer, hdone⟩ := (hnever _ s hrun).2 1 hopen
  have hkept : Abandoned s' := by
    refine (hpath.of_labels (C := fun _ l => ¬ Fails l) fun l hl _ => hfails l hl).keeps
      habandoned fun _ _ _ hinv hstep => abandoned_step hinv hstep.1 (steps_of_next hstep.2)
  cases hkept.reading.1.symm.trans hdone

/-- **EXACTLY THE CHAINS OF ONE NODE ARE SAFE**; and where every `tee` starts,
    exactly these and the blocks of three chunks or less. -/
theorem never_stuck_iff (digest : Bytes → String) (chain : List String) (chunks : List Bytes) :
    (NeverStuck (pipeline digest chain chunks) ↔ chain.length ≤ 1) ∧
      (NeverStuck (calls digest chain chunks) ↔ chain.length ≤ 1 ∨ chunks.length ≤ 3) := by
  refine ⟨⟨fun hnever => ?_, neverStuck_of_short⟩, fun hnever => ?_, neverStuck_of_few⟩
  · match chain with
    | [] => exact Nat.zero_le _
    | [_] => exact Nat.le_refl _
    | a :: b :: downstream =>
        exact absurd hnever (not_neverStuck_of_long digest a b downstream chunks)
  · match chain, chunks with
    | [], _ => exact .inl (Nat.zero_le _)
    | [_], _ => exact .inl (Nat.le_refl _)
    | _ :: _ :: _, [] | _ :: _ :: _, [_] | _ :: _ :: _, [_, _] | _ :: _ :: _, [_, _, _] =>
        exact .inr (by simp)
    | a :: b :: downstream, c₁ :: c₂ :: c₃ :: c₄ :: rest =>
        obtain ⟨ls, s, hrun, hblocked⟩ := blocked_run digest a b downstream c₁ c₂ c₃ c₄ rest
        exact absurd hnever (not_neverStuck_of_blocked hrun hblocked)

/-- **A REFUSED CONNECTION BLOCKS A BLOCK OF FOUR CHUNKS**, though every `tee`
    starts. -/
theorem refused_connection_blocks :
    ¬ (∀ (digest : Bytes → String) (chain : List String) (chunks : List Bytes),
        NeverStuck (pipeline digest chain chunks)) ∧
      ¬ NeverStuck (calls holaSha256 ["n1", "n2"] [hola, hola, hola, hola]) := by
  obtain ⟨ls, s, hrun, hblocked⟩ := blocked_run holaSha256 "n1" "n2" [] hola hola hola hola []
  refine ⟨fun hnever => ?_, not_neverStuck_of_blocked hrun hblocked⟩
  exact not_neverStuck_of_blocked hrun.unguarded hblocked
    (hnever holaSha256 ["n1", "n2"] [hola, hola, hola, hola])

end DfshaHandlerProgress
