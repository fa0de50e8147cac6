import Dfsha.ReplicaAgreementProofs

/-! # What a failed write leaves

    A node publishes its copy of a block before the next node has answered, and
    throws away what it stores under the id when the answer is bad.  What is
    thrown away is then its new copy, so a node that held the block before
    holds nothing after; a copy that is not thrown away stays (`unlink` raises,
    or the forwarding is cancelled as the node stops), so a node that held
    nothing holds it after; and where the call comes back to the node further
    down the chain, the copy of the inner call survives the failure of the
    outer.

    These are the only three ways.  A call with nobody downstream publishes at
    its end; and where every copy is thrown away, a node that held nothing and
    is visited once is left with nothing.  All three ways are runs in which
    every hop hands the whole block on (`relay`). -/

namespace DfshaFailedWrite

open LinkedCells TransitionSystem TransitionSystem.System DfshaWriteBlock DfshaForwardingChain
open DfshaBlockStore (Bytes hola)

/-- The call has been sent, and nothing has happened yet. -/
def called (chain : List String) (chunks : List Bytes) (held : String → Option Bytes) :
    Pipeline :=
  ⟨Function.update (fun _ => {}) 0 (head chain chunks), held⟩

/-- The process of the first node does not die. -/
def Lives (_ : Pipeline) (l : Label) : Prop := l ≠ .acts 0 .crash

/-- Nor does its `_discard_local` raise, nor is the node stopped, so that a
    forwarding is cancelled and nothing is thrown away. -/
def Unlinks (s : Pipeline) (l : Label) : Prop :=
  Lives s l ∧ l ≠ .acts 0 .unlinkFails ∧ l ≠ .acts 0 .stop

/-- A `WriteBlock` that fails at the first node leaves there what it held, in
    every run whose steps meet a condition. -/
def FailureKeepsCopy (C : Pipeline → Label → Prop) (digest : Bytes → String) (address : String)
    (downstream : List String) (chunks : List Bytes) (held : String → Option Bytes) : Prop :=
  ∀ ls s, ((pipeline digest (address :: downstream) chunks).guarded C).Path
      (called (address :: downstream) chunks held) ls s →
    (s.hops 0).phase = .done none → s.store address = held address

/-! ## A node that held nothing, or hands nothing on -/

/-- The handler is on its way out with an exception. -/
def Raised : Phase → Prop
  | .closing true | .done none => True
  | _ => False

/-- The handler has not published, or has ended with an exception. -/
def Unpublished : Phase → Prop
  | .awaiting _ | .done (some _) => False
  | _ => True

/-- What the hop of a call knows of its copy: until it is published, the node
    has what it had. -/
structure Untouched (old : Option Bytes) (h : Hop) (copy : Option Bytes) : Prop where
  cancelled : h.downstream ≠ [] → h.forwarder = .cancelled → Raised h.phase
  awaiting : ∀ written, h.phase = .awaiting written → old = none ∧ h.downstream ≠ []
  copy : Unpublished h.phase → copy = old

section Keeps

variable {digest : Bytes → String} {address : String} {downstream : List String}
  {chunks : List Bytes} {held : String → Option Bytes} {s s' : Pipeline} {h h' : Hop}
  {old copy : Option Bytes}

/-- A call that fails when it has waited for the next node throws the copy away. -/
theorem discards_of_collect (hcollect : collect h = some h') (hdone : h'.phase = .done none) :
    discards h = true ∨ h.forwarder = .cancelled := by
  rw [collect] at hcollect
  split at hcollect
  next written answer hphase hforwarder =>
    by_cases hsame : answer.checksum = written.checksum
    · rw [if_pos hsame] at hcollect
      rw [← Option.some.inj hcollect] at hdone
      cases hdone
    · refine .inl ?_
      simp only [discards, hphase, hforwarder]
      exact decide_eq_true hsame
  next hphase hforwarder =>
    refine .inl ?_
    simp only [discards, hphase, hforwarder]
  next hforwarder => exact .inr hforwarder
  next => cases hcollect

theorem untouched_of_forwarder (hold : Untouched old h copy) {forwarder : Forwarder}
    (hforwarder : forwarder ≠ .cancelled) (queue : List (Option Bytes)) :
    Untouched old { h with forwarder, queue } copy :=
  ⟨fun _ hc => absurd hc hforwarder, hold.awaiting, hold.copy⟩

/-- An act that neither publishes nor raises. -/
theorem untouched_of_quiet (hold : Untouched old h copy) (hphase : Unpublished h.phase)
    (hraised : ¬ Raised h.phase) (hforwarder : h'.forwarder = h.forwarder)
    (hdown : h'.downstream = h.downstream) (hwait : ∀ written, h'.phase ≠ .awaiting written) :
    Untouched old h' copy := by
  refine ⟨fun hforward hc => ?_, fun written hp => ?_, fun _ => hold.copy hphase⟩
  · rw [hdown] at hforward
    exact absurd (hold.cancelled hforward (hforwarder.symm.trans hc)) hraised
  · exact absurd hp (hwait written)

/-- An act that raises before the copy is published. -/
theorem untouched_of_raised (hold : Untouched old h copy) (hphase : Unpublished h.phase)
    (hraised : Raised h'.phase) : Untouched old h' copy := by
  refine ⟨fun _ _ => hraised, fun written hp => ?_, fun _ => hold.copy hphase⟩
  rw [hp] at hraised
  exact hraised.elim

/-- **AN ACT OF THE CALL KEEPS WHAT WAS HELD**, unless it answers. -/
theorem untouched_acts {store : String → Option Bytes} {a : Act}
    (hold : Untouched old h (store h.address)) (hact : act digest h a = some h')
    (hlives : a ≠ .crash)
    (hunlinks : h.downstream ≠ [] → ∀ written, h.phase = .awaiting written → a ≠ .unlinkFails)
    (hstays : h.downstream ≠ [] → h.forwarder = .submitted → a ≠ .stop)
    (hnone : h.phase = .finalizing → h.downstream ≠ [] → old = none) :
    Untouched old h' (storeAfter h store a h.address) := by
  have hacts := acts_of_act hact
  cases hacts with
  | accept hphase hrx =>
      refine ⟨fun _ hc => ?_, fun written hp => ?_, fun _ => hold.copy ?_⟩
      · dsimp only at hc
        split at hc
        · cases hc
        · cases hc
      · cases hp
      · rw [hphase]; trivial
  | create hphase | receive hphase | receiveLast hphase | receiveEnd hphase
  | receiveEndLast hphase | receiveBroken hphase | put hphase | write hphase | close hphase =>
      refine untouched_of_quiet hold ?_ ?_ rfl rfl nofun
      · rw [hphase]; trivial
      · rw [hphase]; exact id
  | refuse hphase | receiveBrokenLast hphase | closeRaised hphase | failForwarding hphase
  | reject hphase =>
      refine untouched_of_raised hold ?_ trivial
      rw [hphase]; trivial
  | fail hphase =>
      refine untouched_of_raised hold ?_ trivial
      rcases hphase with hphase | hphase | ⟨hphase, _⟩
      · rw [hphase]; trivial
      · rw [hphase]; trivial
      · rw [hphase]; trivial
  | publish hphase hforward =>
      refine ⟨fun _ hc => ?_, fun _ _ => ⟨hnone hphase hforward, hforward⟩, fun hp => hp.elim⟩
      have hraised := hold.cancelled hforward hc
      rw [hphase] at hraised
      exact hraised.elim
  | publishLast hphase hlast =>
      exact ⟨fun hforward => absurd hlast hforward, nofun, fun hp => hp.elim⟩
  | collect hphase hforwarder =>
      refine ⟨fun _ hc => ?_, nofun, fun hp => hp.elim⟩
      cases hforwarder.symm.trans hc
  | collectFailed hphase =>
      refine ⟨fun _ _ => trivial, nofun, fun _ => ?_⟩
      obtain ⟨hold', hforward⟩ := hold.awaiting _ hphase
      rw [hold']
      rcases discards_of_collect hact rfl with hdiscards | hc
      · show (if discards h then Function.update store h.address none else store) h.address = _
        rw [if_pos hdiscards, Function.update_self]
      · -- a thread is cancelled only by a handler that raises
        have hraised := hold.cancelled hforward hc
        rw [hphase] at hraised
        exact hraised.elim
  | unlinkFails hphase => exact absurd rfl (hunlinks (hold.awaiting _ hphase).2 _ hphase)
  | stop hforwarder =>
      exact ⟨fun hforward => absurd rfl (hstays hforward hforwarder), hold.awaiting, hold.copy⟩
  | cut => exact ⟨hold.cancelled, hold.awaiting, hold.copy⟩
  | lose => exact ⟨fun _ => nofun, hold.awaiting, hold.copy⟩
  | crash => exact absurd rfl hlives

/-- What is known of the first hop, and still is when it is not the hop that changes. -/
theorem first_setHop {P : Hop → Prop} {i : Nat} (hfirst : P (s.hops 0)) (hnew : i = 0 → P h) :
    P ((s.setHop i h).hops 0) := by
  show P (Function.update s.hops i h 0)
  by_cases hi : i = 0
  · subst hi
    rw [Function.update_self]
    exact hnew rfl
  · rw [Function.update_of_ne (Ne.symm hi)]
    exact hfirst

theorem first_setPair {P : Hop → Prop} {i : Nat} (hfirst : P (s.hops 0)) (hnew : i = 0 → P h) :
    P ((s.setPair i h h').hops 0) :=
  first_setHop (first_setHop hfirst hnew) fun hi => absurd hi (Nat.succ_ne_zero i)

/-- The first hop, by the copy that the first node has. -/
structure First (address : String) (old : Option Bytes) (copy : Option Bytes) (h : Hop) :
    Prop where
  address : h.address = address
  untouched : Untouched old h copy

/-- The invariant of a call whose chain does not come back to the node. -/
structure KeptInv (digest : Bytes → String) (address : String) (downstream : List String)
    (held : String → Option Bytes) (s : Pipeline) : Prop where
  linked : Chained digest (address :: downstream) s.hops
  first : First address (held address) (s.store address) (s.hops 0)

/-- Nobody else writes at the first node. -/
theorem KeptInv.storeAfter_other (hinv : KeptInv digest address downstream held s)
    (honce : address ∉ downstream) {i : Nat} (hi : i ≠ 0) {a : Act}
    (hacts : Acts digest (s.hops i) a h) : storeAfter (s.hops i) s.store a address
      = s.store address := by
  refine DfshaReplicaAgreement.storeAfter_of_ne fun hsame => honce ?_
  have hidle := ne_idle_of_acts (hinv.linked.cell i).phase hacts
  have haddress := (hinv.linked.cell i).address hidle
  obtain ⟨i, rfl⟩ := Nat.exists_eq_succ_of_ne_zero hi
  rw [List.getElem?_cons_succ, ← hsame] at haddress
  exact List.mem_of_getElem? haddress

theorem first_forwarder {forwarder : Forwarder} (hfirst : First address old copy h)
    (hforwarder : forwarder ≠ .cancelled) (queue : List (Option Bytes)) :
    First address old copy { h with forwarder, queue } :=
  ⟨hfirst.address, untouched_of_forwarder hfirst.untouched hforwarder queue⟩

/-- **THE FIRST NODE KEEPS WHAT IT HELD**, step by step. -/
theorem keptInv_step {l : Label} (hinv : KeptInv digest address downstream held s)
    (honce : address ∉ downstream) (hnone : downstream ≠ [] → held address = none)
    (hlives : Lives s l) (hunlinks : downstream ≠ [] → Unlinks s l)
    (hnext : next digest s l = some s') :
    KeptInv digest address downstream held s' := by
  have hsteps := steps_of_next hnext
  refine ⟨linked_step hinv.linked hsteps, ?_⟩
  cases hsteps with
  | @acts i a h hacts =>
      by_cases hi : i = 0
      · subst hi
        obtain ⟨h', hact, hs⟩ := Option.map_eq_some_iff.mp hnext
        have hh : h' = h := by
          have hhops := congrArg (fun s => s.hops 0) hs
          simpa [Pipeline.setHop] using hhops
        rw [hh] at hact
        have haddress := hinv.first.address
        have hold := hinv.first.untouched
        rw [← haddress] at hold
        have hnew := untouched_acts hold hact (fun hc => hlives (hc ▸ rfl))
          (fun hforward written hphase hc => ?_) (fun hforward hforwarder hc => ?_)
          fun hphase hforward => ?_
        · show First address (held address) (storeAfter (s.hops 0) s.store a address)
            (Function.update s.hops 0 h 0)
          rw [Function.update_self]
          rw [haddress] at hnew
          exact ⟨hacts.address.trans haddress, hnew⟩
        · have hinvPhase := (hinv.linked.cell 0).phase
          rw [PhaseInv, hphase] at hinvPhase
          have hdown : (s.hops 0).downstream = downstream := hinvPhase.1
          rw [hdown] at hforward
          exact (hunlinks hforward).2.1 (by rw [hc])
        · have hdown : (s.hops 0).downstream = downstream :=
            (hinv.linked.cell 0).submitted hforwarder
          rw [hdown] at hforward
          exact (hunlinks hforward).2.2 (by rw [hc])
        · have hinvPhase := (hinv.linked.cell 0).phase
          rw [PhaseInv, hphase] at hinvPhase
          have hdown : (s.hops 0).downstream = downstream := hinvPhase
          rw [hdown] at hforward
          rw [haddress]
          exact hnone hforward
      · show First address (held address) (storeAfter (s.hops i) s.store a address) _
        rw [hinv.storeAfter_other honce hi hacts]
        exact first_setHop hinv.first fun h0 => absurd h0 hi
  | start =>
      refine first_setPair hinv.first fun hi => ?_
      subst hi
      exact first_forwarder hinv.first (by simp) _
  | takeData =>
      refine first_setPair hinv.first fun hi => ?_
      subst hi
      exact first_forwarder hinv.first (by simp) _
  | takeEnd =>
      refine first_setPair hinv.first fun hi => ?_
      subst hi
      exact first_forwarder hinv.first (by simp) _
  | answer =>
      refine first_setHop hinv.first fun hi => ?_
      subst hi
      exact first_forwarder hinv.first (by simp) _
  | reset => exact first_setHop hinv.first fun hi => absurd hi (Nat.succ_ne_zero _)

theorem failureKeepsCopy {C : Pipeline → Label → Prop} (honce : address ∉ downstream)
    (hnone : downstream ≠ [] → held address = none) (hlives : ∀ s l, C s l → Lives s l)
    (hunlinks : downstream ≠ [] → ∀ s l, C s l → Unlinks s l) :
    FailureKeepsCopy C digest address downstream chunks held := by
  intro ls s hpath hdone
  have hinv : KeptInv digest address downstream held s := by
    refine hpath.keeps (I := KeptInv digest address downstream held) ?_ fun _ _ _ hinv hstep =>
      keptInv_step hinv honce hnone (hlives _ _ hstep.1) (fun h => hunlinks h _ _ hstep.1) hstep.2
    refine ⟨linked_initial rfl, rfl, ?_⟩
    exact ⟨fun _ => nofun, nofun, fun _ => rfl⟩
  refine hinv.first.untouched.copy ?_
  rw [hdone]
  trivial

end Keeps

/-! ## A hop hands the whole block on -/

/-- A hop that has read some of its chunks and forwarded them. -/
def handing (address : String) (downstream : List String) (got rest : List Bytes) : Hop :=
  { address, downstream, phase := .reading, rx := rest.map .data, rxEnd := .finished, got,
    forwarder := .running }

/-- The next hop, which has read nothing yet. -/
def handed (downstream : List String) (got : List Bytes) : Hop :=
  match downstream with
  | [] => {}
  | address :: rest => { address, phase := .waiting, rx := .header rest :: got.map .data }

/-- A hop that has read and forwarded everything. -/
def handedOn (address : String) (downstream : List String) (chunks : List Bytes) : Hop :=
  { address, downstream, phase := .finalizing, rxEnd := .finished, got := chunks,
    forwarder := .drained }

/-- A hop with nobody after it that has read some of its chunks. -/
def taking (address : String) (got rest : List Bytes) : Hop :=
  { address, phase := .reading, rx := rest.map .data, rxEnd := .finished, got }

section Relay

variable {digest : Bytes → String} {chain : List String} {chunks : List Bytes}
  {address : String} {downstream : List String} {s : Pipeline} {h h' next' : Hop} {k : Nat}

@[simp] theorem hops_setPair : (s.setPair k h h').hops k = h := by
  show Function.update (Function.update s.hops k h) (k + 1) h' k = h
  rw [Function.update_of_ne (Nat.ne_of_lt (Nat.lt_succ_self k)), Function.update_self]

@[simp] theorem hops_setPair_succ : (s.setPair k h h').hops (k + 1) = h' :=
  Function.update_self _ _ _

@[simp] theorem setHop_setPair {g : Hop} :
    (s.setPair k h h').setHop k g = s.setPair k g h' := by
  have hne : k ≠ k + 1 := Nat.ne_of_lt (Nat.lt_succ_self k)
  simp [Pipeline.setPair, Pipeline.setHop, Function.update_comm hne]

@[simp] theorem setPair_setPair {g g' : Hop} :
    (s.setPair k h h').setPair k g g' = s.setPair k g g' := by
  rw [Pipeline.setPair, setHop_setPair]
  simp [Pipeline.setPair, Pipeline.setHop]

theorem setPair_self (hhop : s.hops k = h) : s.setPair k h (s.hops (k + 1)) = s := by
  rw [← hhop, Pipeline.setPair, Pipeline.setHop, Pipeline.setHop]
  simp

theorem next_acts_store {a : Act} (hact : act digest h a = some h') :
    next digest (s.setPair k h next') (.acts k a)
      = some (({ s with store := storeAfter h s.store a } : Pipeline).setPair k h' next') := by
  dsimp only [next]
  rw [hops_setPair, hact, Option.map_some, setHop_setPair]
  rfl

/-- An act of a hop that leaves the store alone. -/
theorem next_acts {a : Act} (hact : act digest h a = some h')
    (hquiet : a ≠ .publish ∧ a ≠ .collect) :
    next digest (s.setPair k h next') (.acts k a) = some (s.setPair k h' next') := by
  have hstore : storeAfter h s.store a = s.store := by
    cases a with
    | publish => exact absurd rfl hquiet.1
    | collect => exact absurd rfl hquiet.2
    | accept | create | receive | put | write | close | cut | fail | unlinkFails | reject | lose
    | stop | crash => rfl
  rw [next_acts_store hact, hstore]

/-- The thread opens the stream to the next hop. -/
theorem next_start (hforwarder : h.forwarder = .submitted) :
    next digest (s.setPair k h h') (.start k)
      = some (s.setPair k { h with forwarder := .running } (opened h.downstream)) := by
  dsimp only [next]
  rw [hops_setPair, if_pos hforwarder, setPair_setPair]

/-- The thread takes an item of the queue. -/
theorem next_take {item : Option Bytes} {rest : List (Option Bytes)}
    (hforwarder : h.forwarder = .running) (hqueue : h.queue = item :: rest) :
    next digest (s.setPair k h h') (.take k)
      = some (s.setPair k { h with
          queue := rest, forwarder := if item = none then .drained else .running }
          (deliver h' item)) := by
  dsimp only [next]
  rw [hops_setPair, hops_setPair_succ, hforwarder, hqueue]
  dsimp only
  rw [setPair_setPair]

/-- A step of the pipeline at which the first node neither dies nor keeps a copy
    that it should throw away. -/
theorem unlinks_step {s' : Pipeline} {l : Label} (hnext : next digest s l = some s')
    (hunlinks : l ≠ .acts 0 .crash ∧ l ≠ .acts 0 .unlinkFails ∧ l ≠ .acts 0 .stop) :
    ((pipeline digest chain chunks).guarded Unlinks).step s l s' := ⟨hunlinks, hnext⟩

/-- One chunk is read, queued, forwarded and written. -/
theorem hand_chunk {d : String} {ds : List String} {got rest : List Bytes} {chunk : Bytes} :
    ((pipeline digest chain chunks).guarded Unlinks).Path
      (s.setPair k (handing address (d :: ds) got (chunk :: rest)) (handed (d :: ds) got))
      [.acts k .receive, .acts k .put, .take k, .acts k .write]
      (s.setPair k (handing address (d :: ds) (got ++ [chunk]) rest)
        (handed (d :: ds) (got ++ [chunk]))) := by
  have hreceive : act digest (handing address (d :: ds) got (chunk :: rest)) .receive
      = some { handing address (d :: ds) got rest with phase := .putting chunk } := rfl
  have hput : act digest { handing address (d :: ds) got rest with phase := .putting chunk } .put
      = some { handing address (d :: ds) (got ++ [chunk]) rest with
          phase := .writing, queue := [some chunk] } := rfl
  have hwrite : act digest { handing address (d :: ds) (got ++ [chunk]) rest with
      phase := .writing } .write = some (handing address (d :: ds) (got ++ [chunk]) rest) := rfl
  have hdeliver : deliver (handed (d :: ds) got) (some chunk)
      = handed (d :: ds) (got ++ [chunk]) := by
    simp [deliver, handed]
  have htake := @next_take digest s { handing address (d :: ds) (got ++ [chunk]) rest with
    phase := .writing, queue := [some chunk] } (handed (d :: ds) got) k _ _ rfl rfl
  rw [hdeliver] at htake
  refine .cons (unlinks_step (next_acts hreceive (by decide)) (by simp)) ?_
  refine .cons (unlinks_step (next_acts hput (by decide)) (by simp)) ?_
  refine .cons (unlinks_step htake (by simp)) ?_
  exact .one (unlinks_step (next_acts hwrite (by decide)) (by simp))

/-- The block is handed on, chunk by chunk. -/
theorem hand_chunks {d : String} {ds : List String} (got rest : List Bytes) :
    ∃ ls, ((pipeline digest chain chunks).guarded Unlinks).Path
      (s.setPair k (handing address (d :: ds) got rest) (handed (d :: ds) got)) ls
      (s.setPair k (handing address (d :: ds) (got ++ rest) [])
        (handed (d :: ds) (got ++ rest))) := by
  induction rest generalizing got with
  | nil =>
      rw [List.append_nil]
      exact ⟨[], .start⟩
  | cons chunk rest ih =>
      obtain ⟨ls, hpath⟩ := ih (got ++ [chunk])
      rw [List.append_assoc] at hpath
      exact ⟨_, hand_chunk.append hpath⟩

/-- **A HOP HANDS THE WHOLE BLOCK ON**: it has read everything, and the next hop
    is where it was before it began. -/
theorem relay {d : String} {ds : List String} {block : List Bytes}
    (hhop : s.hops k = head (address :: d :: ds) block) :
    ∃ ls, ((pipeline digest chain chunks).guarded Unlinks).Path s ls
      (s.setPair k (handedOn address (d :: ds) block) (head (d :: ds) block)) := by
  obtain ⟨ls, hchunks⟩ := @hand_chunks digest chain chunks address s k d ds [] block
  rw [List.nil_append] at hchunks
  let start : Hop := { handing address (d :: ds) [] block with
    phase := .creating, forwarder := .submitted }
  let ready : Hop := { handing address (d :: ds) [] block with forwarder := .submitted }
  let ended : Hop := { handing address (d :: ds) block [] with phase := .closing false }
  let closed : Hop := { handing address (d :: ds) block [] with
    phase := .finalizing, queue := [none] }
  have haccept : act digest (head (address :: d :: ds) block) .accept = some start := rfl
  have hcreate : act digest start .create = some ready := rfl
  have hend : act digest (handing address (d :: ds) block []) .receive = some ended := rfl
  have hclose : act digest ended .close = some closed := rfl
  have hdeliver : deliver (handed (d :: ds) block) none = head (d :: ds) block := rfl
  have htake := @next_take digest s closed (handed (d :: ds) block) k _ _ rfl rfl
  rw [hdeliver] at htake
  have hpath : ((pipeline digest chain chunks).guarded Unlinks).Path
      (s.setPair k (head (address :: d :: ds) block) (s.hops (k + 1)))
      (.acts k .accept :: .acts k .create :: .start k ::
        (ls ++ [.acts k .receive, .acts k .close, .take k]))
      (s.setPair k (handedOn address (d :: ds) block) (head (d :: ds) block)) := by
    refine .cons (unlinks_step (next_acts haccept (by decide)) (by simp)) ?_
    refine .cons (unlinks_step (next_acts hcreate (by decide)) (by simp)) ?_
    refine .cons (unlinks_step (next_start rfl) (by simp)) ?_
    refine hchunks.append ?_
    refine .cons (unlinks_step (next_acts hend (by decide)) (by simp)) ?_
    refine .cons (unlinks_step (next_acts hclose (by decide)) (by simp)) ?_
    exact .one (unlinks_step htake (by simp))
  rw [setPair_self hhop] at hpath
  exact ⟨_, hpath⟩

/-- The last hop reads everything. -/
theorem take_chunks (got rest : List Bytes) :
    ∃ ls, ((pipeline digest chain chunks).guarded Unlinks).Path
      (s.setPair k (taking address got rest) next') ls
      (s.setPair k (taking address (got ++ rest) []) next') := by
  induction rest generalizing got with
  | nil =>
      rw [List.append_nil]
      exact ⟨[], .start⟩
  | cons chunk rest ih =>
      obtain ⟨ls, hpath⟩ := ih (got ++ [chunk])
      rw [List.append_assoc] at hpath
      let written : Hop := { taking address (got ++ [chunk]) rest with phase := .writing }
      have hreceive : act digest (taking address got (chunk :: rest)) .receive = some written := rfl
      have hwrite : act digest written .write = some (taking address (got ++ [chunk]) rest) := rfl
      refine ⟨.acts k .receive :: .acts k .write :: ls, ?_⟩
      refine .cons (unlinks_step (next_acts hreceive (by decide)) (by simp)) ?_
      exact .cons (unlinks_step (next_acts hwrite (by decide)) (by simp)) hpath

/-- The last hop is ready to publish. -/
theorem take_all {block : List Bytes} (hhop : s.hops k = head [address] block) :
    ∃ ls, ((pipeline digest chain chunks).guarded Unlinks).Path s ls
      (s.setPair k { taking address block [] with phase := .finalizing } (s.hops (k + 1))) := by
  obtain ⟨ls, hchunks⟩ := @take_chunks digest chain chunks address s (s.hops (k + 1)) k [] block
  let start : Hop := { taking address [] block with phase := .creating }
  have haccept : act digest (head [address] block) .accept = some start := rfl
  have hcreate : act digest start .create = some (taking address [] block) := rfl
  have hend : act digest (taking address block []) .receive
    = some { taking address block [] with phase := .finalizing } := rfl
  rw [List.nil_append] at hchunks
  have hpath : ((pipeline digest chain chunks).guarded Unlinks).Path
      (s.setPair k (head [address] block) (s.hops (k + 1)))
      (.acts k .accept :: .acts k .create :: (ls ++ [.acts k .receive]))
      (s.setPair k { taking address block [] with phase := .finalizing } (s.hops (k + 1))) := by
    refine .cons (unlinks_step (next_acts haccept (by decide)) (by simp)) ?_
    refine .cons (unlinks_step (next_acts hcreate (by decide)) (by simp)) ?_
    refine hchunks.append ?_
    exact .one (unlinks_step (next_acts hend (by decide)) (by simp))
  rw [setPair_self hhop] at hpath
  exact ⟨_, hpath⟩

theorem first_setPair_succ : (s.setPair (k + 1) h h').hops 0 = s.hops 0 :=
  @first_setPair s h h' (· = s.hops 0) (k + 1) rfl fun hk => absurd hk (Nat.succ_ne_zero k)

/-- A call that is not the first can end with its copy published, and leave the
    hops before it alone. -/
theorem publishes {block : List Bytes} {rest : List String}
    (hhop : s.hops (k + 1) = head (address :: rest) block) :
    ∃ ls s', ((pipeline digest chain chunks).guarded Unlinks).Path s ls s' ∧
      s'.store address = some block.flatten ∧ s'.hops 0 = s.hops 0 := by
  let written : Response := ⟨digest block.flatten, block.flatten.length⟩
  cases rest with
  | nil =>
      obtain ⟨ls, hpath⟩ := take_all hhop
      have hpublish : act digest { taking address block [] with phase := .finalizing } .publish
        = some { taking address block [] with
            phase := .done (some written), published := some block.flatten } := rfl
      refine ⟨_, _, hpath.next (unlinks_step (next_acts_store hpublish) (by simp)), ?_,
        first_setPair_succ⟩
      exact Function.update_self _ _ _
  | cons d ds =>
      obtain ⟨ls, hpath⟩ := relay hhop
      have hpublish : act digest (handedOn address (d :: ds) block) .publish
        = some { handedOn address (d :: ds) block with
            phase := .awaiting written, published := some block.flatten } := rfl
      refine ⟨_, _, hpath.next (unlinks_step (next_acts_store hpublish) (by simp)), ?_,
        first_setPair_succ⟩
      exact Function.update_self _ _ _

/-- The block reaches every hop, while the first one waits to publish. -/
theorem exists_relayed (held : String → Option Bytes) {i : Nat} (hi : i < downstream.length) :
    ∃ ls s, ((pipeline digest chain chunks).guarded Unlinks).Path
        (called (address :: downstream) chunks held) ls s ∧
      s.hops 0 = handedOn address downstream chunks ∧
      s.hops (i + 1) = head (downstream.drop i) chunks := by
  induction i with
  | zero =>
      cases downstream with
      | nil => exact absurd hi (Nat.not_lt_zero _)
      | cons d ds =>
          have hhop : (called (address :: d :: ds) chunks held).hops 0
            = head (address :: d :: ds) chunks := by
            simp [called]
          obtain ⟨ls, hpath⟩ := relay hhop
          exact ⟨ls, _, hpath, hops_setPair, hops_setPair_succ⟩
  | succ i ih =>
      obtain ⟨ls, s, hpath, hfirst, hhop⟩ := ih (Nat.lt_of_succ_lt hi)
      rw [List.drop_eq_getElem_cons (Nat.lt_of_succ_lt hi), List.drop_eq_getElem_cons hi] at hhop
      obtain ⟨ls', hrelay⟩ := relay hhop
      refine ⟨_, _, hpath.append hrelay, ?_, ?_⟩
      · exact first_setPair_succ.trans hfirst
      · rw [List.drop_eq_getElem_cons hi]
        exact hops_setPair_succ

/-! ## The three ways to lose what was held -/

/-- The first hop has published its copy, and the answer of the next is lost. -/
def waits (digest : Bytes → String) (address : String) (downstream : List String)
    (chunks : List Bytes) : Hop :=
  { handedOn address downstream chunks with
    phase := .awaiting ⟨digest chunks.flatten, chunks.flatten.length⟩
    forwarder := .answered none
    published := some chunks.flatten }

theorem exists_waits (held : String → Option Bytes) (hforward : downstream ≠ []) :
    ∃ ls s, ((pipeline digest chain chunks).guarded Unlinks).Path
        (called (address :: downstream) chunks held) ls s ∧
      s.hops 0 = waits digest address downstream chunks ∧
      s.store address = some chunks.flatten := by
  obtain ⟨ls, s, hpath, hfirst, _⟩ :=
    @exists_relayed digest chain chunks address downstream held 0 (List.length_pos_iff.mpr hforward)
  let lost : Hop := { handedOn address downstream chunks with forwarder := .answered none }
  have hlose : act digest (handedOn address downstream chunks) .lose = some lost := rfl
  have hpublish : act digest lost .publish = some (waits digest address downstream chunks) := by
    simp [act, publish, lost, handedOn, hforward, waits]
  rw [← setPair_self hfirst] at hpath
  refine ⟨_, _, (hpath.next (unlinks_step (next_acts hlose (by decide)) (by simp))).next
    (unlinks_step (next_acts_store hpublish) (by simp)), hops_setPair, ?_⟩
  exact Function.update_self _ _ _

/-- The node throws its new copy away: nothing is left. -/
theorem exists_discarded (held : String → Option Bytes) (hforward : downstream ≠ []) :
    ∃ ls s, ((pipeline digest chain chunks).guarded Unlinks).Path
        (called (address :: downstream) chunks held) ls s ∧
      (s.hops 0).phase = .done none ∧ s.store address = none := by
  obtain ⟨ls, s, hpath, hfirst, _⟩ := @exists_waits digest chain chunks address downstream held
    hforward
  have hcollect : act digest (waits digest address downstream chunks) .collect
    = some { waits digest address downstream chunks with phase := .done none } := rfl
  rw [← setPair_self hfirst] at hpath
  refine ⟨_, _, hpath.next (unlinks_step (next_acts_store hcollect) (by simp)), ?_, ?_⟩
  · rw [hops_setPair]
  · exact Function.update_self _ _ _

/-- It cannot throw it away: the new copy is left. -/
theorem exists_kept (held : String → Option Bytes) (hforward : downstream ≠ []) :
    ∃ ls s, ((pipeline digest chain chunks).guarded Lives).Path
        (called (address :: downstream) chunks held) ls s ∧
      (s.hops 0).phase = .done none ∧ s.store address = some chunks.flatten := by
  obtain ⟨ls, s, hpath, hfirst, hstore⟩ := @exists_waits digest chain chunks address downstream
    held hforward
  have hfails : act digest (waits digest address downstream chunks) .unlinkFails
    = some { waits digest address downstream chunks with phase := .done none } := rfl
  have hlives := hpath.mono (T := (pipeline digest chain chunks).guarded Lives)
    fun _ _ _ hstep => ⟨hstep.1.1, hstep.2⟩
  rw [← setPair_self hfirst] at hlives
  refine ⟨_, _, hlives.next ⟨by simp [Lives], next_acts_store hfails⟩, ?_, hstore⟩
  rw [hops_setPair]

/-- The chain comes back to the node: its inner call publishes, and the outer one
    fails before it does. -/
theorem exists_inner_copy (held : String → Option Bytes) (hself : address ∈ downstream) :
    ∃ ls s, ((pipeline digest chain chunks).guarded Unlinks).Path
        (called (address :: downstream) chunks held) ls s ∧
      (s.hops 0).phase = .done none ∧ s.store address = some chunks.flatten := by
  obtain ⟨i, hi, rfl⟩ := List.mem_iff_getElem.mp hself
  obtain ⟨ls, s, hpath, hfirst, hhop⟩ :=
    @exists_relayed digest chain chunks downstream[i] downstream held i hi
  rw [List.drop_eq_getElem_cons hi] at hhop
  obtain ⟨ls', s', hinner, hstore, hsame⟩ :=
    @publishes digest chain chunks downstream[i] s i chunks _ hhop
  have hfail : act digest (handedOn downstream[i] downstream chunks) .fail
    = some { handedOn downstream[i] downstream chunks with phase := .done none } := rfl
  have hpath' := hpath.append hinner
  rw [← setPair_self (hsame.trans hfirst)] at hpath'
  refine ⟨_, _, hpath'.next (unlinks_step (next_acts hfail (by decide)) (by simp)), ?_, hstore⟩
  rw [hops_setPair]

end Relay

/-- As long as every copy is thrown away, a failed write leaves what the node
    held exactly when the call goes no further, or the node held nothing and the
    chain does not come back to it. -/
theorem keeps_copy_of_unlinks_iff (digest : Bytes → String) (address : String)
    (downstream : List String) (chunks : List Bytes) (held : String → Option Bytes) :
    FailureKeepsCopy Unlinks digest address downstream chunks held ↔
      downstream = [] ∨ (held address = none ∧ address ∉ downstream) := by
  constructor
  · intro hkeeps
    by_cases hlast : downstream = []
    · exact .inl hlast
    · obtain ⟨ls, s, hpath, hdone, hstore⟩ := exists_discarded held hlast
      have hnone : held address = none := (hkeeps ls s hpath hdone).symm.trans hstore
      refine .inr ⟨hnone, fun hself => ?_⟩
      obtain ⟨ls', s', hpath', hdone', hstore'⟩ := exists_inner_copy held hself
      have hheld := hkeeps ls' s' hpath' hdone'
      rw [hstore', hnone] at hheld
      cases hheld
  · rintro (rfl | ⟨hnone, honce⟩)
    · exact failureKeepsCopy List.not_mem_nil (fun h => absurd rfl h) (fun _ _ h => h.1)
        fun _ _ _ h => h
    · exact failureKeepsCopy honce (fun _ => hnone) (fun _ _ h => h.1) fun _ _ _ h => h

/-- **WHAT A FAILED WRITE LEAVES**: it leaves what the node held exactly when the
    call goes no further; and, where every copy is thrown away, also when the
    node held nothing and the chain does not come back to it. -/
theorem failure_keeps_copy_iff (digest : Bytes → String) (address : String)
    (downstream : List String) (chunks : List Bytes) (held : String → Option Bytes) :
    (FailureKeepsCopy Lives digest address downstream chunks held ↔ downstream = []) ∧
    (FailureKeepsCopy Unlinks digest address downstream chunks held ↔
      downstream = [] ∨ (held address = none ∧ address ∉ downstream)) := by
  refine ⟨⟨fun hkeeps => ?_, ?_⟩, keeps_copy_of_unlinks_iff digest address downstream chunks held⟩
  · by_contra hforward
    obtain ⟨ls, s, hpath, hdone, hstore⟩ :=
      @exists_discarded digest (address :: downstream) chunks address downstream held hforward
    have hnone := hkeeps ls s (hpath.mono fun _ _ _ hstep => ⟨hstep.1.1, hstep.2⟩) hdone
    obtain ⟨ls', s', hpath', hdone', hstore'⟩ := exists_kept held hforward
    have hsome := hkeeps ls' s' hpath' hdone'
    rw [hstore', ← hnone, hstore] at hsome
    cases hsome
  · rintro rfl
    exact failureKeepsCopy List.not_mem_nil (fun h => absurd rfl h) (fun _ _ h => h)
      fun h => absurd rfl h

/-! ## A copy is lost -/

/-- The first node has published when the answer of the second is lost. -/
def lostAnswer : List Label :=
  [.acts 0 .accept, .acts 0 .create, .start 0, .acts 0 .receive, .acts 0 .put, .take 0,
    .acts 0 .write, .acts 0 .receive, .acts 0 .close, .take 0, .acts 0 .publish, .acts 0 .lose,
    .acts 0 .collect]

/-- The first node holds an older copy. -/
def olderCopy (node : String) : Option Bytes := if node = "n1" then some [118, 49] else none

theorem failed_write_removes_the_old_copy :
    ¬ FailureKeepsCopy Unlinks holaSha256 "n1" ["n2"] [hola] olderCopy := by
  intro hkeeps
  have hphase : (steps (next holaSha256) (called ["n1", "n2"] [hola] olderCopy) lostAnswer).map
      (fun s => (s.hops 0).phase) = some (.done none) := by decide +kernel
  have hstore : (steps (next holaSha256) (called ["n1", "n2"] [hola] olderCopy) lostAnswer).map
      (fun s => s.store "n1") = some none := by decide +kernel
  obtain ⟨s, hs, hdone⟩ := Option.map_eq_some_iff.mp hphase
  rw [hs] at hstore
  have hnone : s.store "n1" = none := Option.some.inj hstore
  have hpath : ((pipeline holaSha256 ["n1", "n2"] [hola]).guarded Unlinks).Path
      (called ["n1", "n2"] [hola] olderCopy) lostAnswer s := by
    refine Path.of_labels (Path.mono (S := ofPartial (called ["n1", "n2"] [hola] olderCopy)
      (next holaSha256)) (path_of_steps hs) fun _ _ _ hstep => hstep) ?_
    have hguard : ∀ l ∈ lostAnswer,
        l ≠ .acts 0 .crash ∧ l ≠ .acts 0 .unlinkFails ∧ l ≠ .acts 0 .stop := by decide
    exact fun l hl _ => hguard l hl
  have hheld := hkeeps lostAnswer s hpath hdone
  rw [hnone] at hheld
  cases hheld

end DfshaFailedWrite
