import Dfsha.ForwardingChainProofs

/-! # A success speaks for the whole chain

    A hop that answers has compared its checksum with the one that the next hop
    answered, and the next hop has done the same.  So if no two contents have
    the same checksum, the success of the first node means that every node of
    the chain stores what the first one received.

    Each hop knows its own address and the addresses after it; a hop is touched
    by its own acts and by the thread of the hop before it, and the store at
    its address by itself alone. -/

namespace DfshaReplicaAgreement

open TransitionSystem TransitionSystem.System DfshaWriteBlock DfshaForwardingChain
open DfshaBlockStore (Bytes hola)

/-- The hop has published its copy, and answers this. -/
def Answers (h : Hop) (r : Response) : Prop :=
  h.phase = .awaiting r ∨ h.phase = .done (some r)

/-- What the hop answers for is stored at its address. -/
def Stored (store : String → Option Bytes) (h : Hop) : Prop :=
  ∀ r, Answers h r → store h.address = some h.got.flatten

/-- The whole chain: the hops as they are linked, and what they have stored. -/
structure ChainInv (digest : Bytes → String) (chain : List String) (s : Pipeline) : Prop where
  linked : Chained digest chain s.hops
  stored : ∀ i, Stored s.store (s.hops i)

section Act

variable {digest : Bytes → String} {chain : List String} {h h' : Hop} {a : Act}

/-- Where the phase, the address and the copy are the same, so is what is
    answered for. -/
theorem stored_congr {store : String → Option Bytes} (hstored : Stored store h)
    (hphase : h'.phase = h.phase) (haddress : h'.address = h.address)
    (hgot : h'.got = h.got) : Stored store h' := by
  intro r hr
  rw [Answers, hphase] at hr
  rw [haddress, hgot]
  exact hstored r hr

theorem stored_update {store : String → Option Bytes} {hops : Nat → Hop}
    (hstored : ∀ j, Stored store (hops j)) (h' : Stored store h) (j : Nat) :
    Stored store (Function.update hops i h j) :=
  (Function.forall_update_iff hops fun _ => Stored store).mpr ⟨h', fun j _ => hstored j⟩ j

theorem stored_opened {store : String → Option Bytes} : Stored store (opened chain) := by
  intro r hr
  cases chain with
  | nil =>
      rcases hr with hr | hr
      · cases hr
      · cases hr
  | cons address downstream =>
      rcases hr with hr | hr
      · cases hr
      · cases hr

theorem storeAfter_of_ne {store : String → Option Bytes} {x : String} (hx : x ≠ h.address) :
    storeAfter h store a x = store x := by
  unfold storeAfter
  split
  · exact Function.update_of_ne hx _ _
  · split
    · exact Function.update_of_ne hx _ _
    · rfl
  · rfl

/-- **AN ACT LEAVES WHAT THE HOP ANSWERS STORED.** -/
theorem stored_acts {store : String → Option Bytes} (hstored : Stored store h)
    (hacts : Acts digest h a h') : Stored (storeAfter h store a) h' := by
  intro r hr
  cases hacts with
  | publish hphase => exact Function.update_self _ _ _
  | publishLast hphase => exact Function.update_self _ _ _
  | @collect written answer hphase hforwarder hsame =>
      have hkeep : discards h = false := by simp [discards, hphase, hforwarder, hsame]
      rw [storeAfter, hkeep]
      exact hstored written (.inl hphase)
  | cut | lose | stop => exact hstored r hr
  | refuse | receiveBrokenLast | closeRaised | collectFailed | unlinkFails | fail | reject
  | crash =>
      rcases hr with hr | hr
      · cases hr
      · cases hr
  | accept | create | receive | receiveLast | receiveEnd | receiveEndLast | receiveBroken
  | put | write | close | failForwarding =>
      rcases hr with hr | hr
      · cases hr
      · cases hr

end Act

/-! ## The chain -/

section Chain

variable {digest : Bytes → String} {chain : List String} {s s' : Pipeline} {l : Label}

theorem Answers.ne_idle {h : Hop} {r : Response} (hr : Answers h r) : h.phase ≠ .idle := by
  intro hidle
  rcases hr with hr | hr
  · exact nomatch hidle.symm.trans hr
  · exact nomatch hidle.symm.trans hr

/-- Two hops at work have different addresses. -/
theorem ChainInv.address_ne (hinv : ChainInv digest chain s) (hnodup : chain.Nodup) {i j : Nat}
    (hi : (s.hops i).phase ≠ .idle) (hj : (s.hops j).phase ≠ .idle) (hij : i ≠ j) :
    (s.hops i).address ≠ (s.hops j).address := by
  intro hsame
  have haddress := (hinv.linked.cell i).address hi
  obtain ⟨hlength, _⟩ := List.getElem?_eq_some_iff.mp haddress
  rw [hsame, ← (hinv.linked.cell j).address hj] at haddress
  exact hij ((List.getElem?_inj hlength hnodup).mp haddress)

theorem stored_step (hnodup : chain.Nodup) (hinv : ChainInv digest chain s)
    (hstep : Steps digest s l s') : ∀ j, Stored s'.store (s'.hops j) := by
  cases hstep with
  | @acts i a h hacts =>
      refine (Function.forall_update_iff _ fun _ => Stored _).mpr
        ⟨stored_acts (hinv.stored i) hacts, fun j hj r hr => ?_⟩
      -- nobody else writes at the address of another hop
      have hi := ne_idle_of_acts (hinv.linked.cell i).phase hacts
      exact (storeAfter_of_ne (hinv.address_ne hnodup hr.ne_idle hi hj)).trans
        (hinv.stored j r hr)
  | @start i =>
      exact stored_update (stored_update hinv.stored (stored_congr (hinv.stored i) rfl rfl rfl))
        stored_opened
  | @takeData i chunk =>
      obtain ⟨rx, rxEnd, hdeliver⟩ := deliver_frame (s.hops (i + 1)) (some chunk)
      rw [hdeliver]
      exact stored_update (stored_update hinv.stored (stored_congr (hinv.stored i) rfl rfl rfl))
        (stored_congr (hinv.stored (i + 1)) rfl rfl rfl)
  | @takeEnd i =>
      obtain ⟨rx, rxEnd, hdeliver⟩ := deliver_frame (s.hops (i + 1)) none
      rw [hdeliver]
      exact stored_update (stored_update hinv.stored (stored_congr (hinv.stored i) rfl rfl rfl))
        (stored_congr (hinv.stored (i + 1)) rfl rfl rfl)
  | @answer i | @reset i =>
      exact stored_update hinv.stored (stored_congr (hinv.stored _) rfl rfl rfl)

theorem chainInv_initial {chunks : List Bytes}
    (hinit : s.hops = Function.update (fun _ => {}) 0 (head chain chunks)) :
    ChainInv digest chain s := by
  have hnone : ∀ h : Hop, h.phase = .idle ∨ h.phase = .waiting → Stored s.store h := by
    intro h hphase r hr
    rcases hphase with hphase | hphase
    · exact absurd hphase hr.ne_idle
    · rcases hr with hr | hr
      · cases hphase.symm.trans hr
      · cases hphase.symm.trans hr
  refine ⟨linked_initial hinit, ?_⟩
  rw [hinit]
  refine stored_update (fun _ => hnone _ (.inl rfl)) (hnone _ ?_)
  cases chain with
  | nil => exact .inl rfl
  | cons address downstream => exact .inr rfl

/-- **IN EVERY RUN WHAT IS ANSWERED FOR IS STORED.** -/
theorem chainInv_run {chunks : List Bytes} {ls : List Label} (hnodup : chain.Nodup)
    (hrun : (pipeline digest chain chunks).Run ls s) : ChainInv digest chain s := by
  obtain ⟨s₀, hinit, hpath⟩ := hrun
  exact hpath.keeps (chainInv_initial hinit) fun _ _ _ hinv hstep =>
    ⟨linked_step hinv.linked (steps_of_next hstep),
      stored_step hnodup hinv (steps_of_next hstep)⟩

/-! ## The answer of the first node -/

/-- A hop that has answered speaks for the next one. -/
theorem ChainInv.answers_next (hinv : ChainInv digest chain s) {i : Nat} {r : Response}
    (hdone : (s.hops i).phase = .done (some r)) (hi : i + 1 < chain.length) :
    ∃ answer, (s.hops (i + 1)).phase = .done (some answer) ∧
      answer.checksum = r.checksum := by
  have hphase := (hinv.linked.cell i).phase
  rw [PhaseInv, hdone] at hphase
  obtain ⟨hdownstream, _, hlast | ⟨answer, hanswered, hsame⟩⟩ := hphase
  · rw [hdownstream, List.drop_eq_nil_iff] at hlast
    omega
  · exact ⟨answer, (hinv.linked.link i).answered answer hanswered, hsame⟩

/-- So the first one speaks for all. -/
theorem ChainInv.answers_all (hinv : ChainInv digest chain s) {r : Response}
    (hdone : (s.hops 0).phase = .done (some r)) (i : Nat) (hi : i < chain.length) :
    ∃ answer, (s.hops i).phase = .done (some answer) ∧ answer.checksum = r.checksum := by
  induction i with
  | zero => exact ⟨r, hdone, rfl⟩
  | succ i ih =>
      obtain ⟨answer, hdone', hsame⟩ := ih (by omega)
      obtain ⟨answer', hdone'', hsame'⟩ := hinv.answers_next hdone' hi
      exact ⟨answer', hdone'', hsame'.trans hsame⟩

/-- What a hop that has answered stores, and its checksum. -/
theorem ChainInv.stored_of_done (hinv : ChainInv digest chain s) {i : Nat} {r : Response}
    (hdone : (s.hops i).phase = .done (some r)) :
    s.store (s.hops i).address = some (s.hops i).got.flatten ∧
      r.checksum = digest (s.hops i).got.flatten := by
  have hphase := (hinv.linked.cell i).phase
  rw [PhaseInv, hdone] at hphase
  exact ⟨hinv.stored i r (.inr hdone), hphase.2.1⟩

end Chain

theorem ofUInt8_injective : Function.Injective Char.ofUInt8 := by
  intro a b h
  have hval : a.toUInt32.toNat = b.toUInt32.toNat := congrArg (fun c => c.val.toNat) h
  rw [UInt8.toNat_toUInt32, UInt8.toNat_toUInt32] at hval
  exact UInt8.toNat_inj.mp hval

theorem holaSha256_injective : Function.Injective holaSha256 := by
  have hdash : ∀ content : Bytes,
      holaChecksum ≠ String.ofList ('-' :: content.map Char.ofUInt8) := by
    intro content h
    have hhead := congrArg (fun x => x.toList.head?) h
    simp only [String.toList_ofList, List.head?_cons] at hhead
    exact absurd hhead (by decide)
  intro a b h
  rw [holaSha256, holaSha256] at h
  by_cases ha : a = hola
  · by_cases hb : b = hola
    · rw [ha, hb]
    · rw [if_pos ha, if_neg hb] at h
      exact absurd h (hdash b)
  · by_cases hb : b = hola
    · rw [if_neg ha, if_pos hb] at h
      exact absurd h.symm (hdash a)
    · rw [if_neg ha, if_neg hb] at h
      exact List.map_injective_iff.mpr ofUInt8_injective
        (List.cons.inj (String.ofList_injective h)).2

/-- Two nodes, and nothing goes wrong. -/
def twoNodes : List Label :=
  [.acts 0 .accept, .acts 0 .create, .acts 0 .receive, .acts 0 .put, .start 0, .take 0,
    .acts 1 .accept, .acts 1 .create, .acts 1 .receive, .acts 0 .write, .acts 1 .write,
    .acts 0 .receive, .acts 0 .close, .take 0, .acts 1 .receive, .acts 1 .publish, .answer 0,
    .acts 0 .publish, .acts 0 .collect]

end DfshaReplicaAgreement
