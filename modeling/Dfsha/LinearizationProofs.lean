import Mathlib.Data.List.Nodup

/-! # Linearizable histories

    Clients call a shared object; a call is invoked, and perhaps answered.  A
    history linearizes if there is one order of calls, the answered ones and
    some of the others, in which the object used by one client alone gives the
    same answers, and in which no call comes before one that was answered
    before it was invoked.

    The object here is a service over a log.  What changes the object is an
    entry of the log, what only reads it looks at a prefix of the log, and
    every event of the history is stamped with the length of the log at that
    time.  `weave` puts the reads between the entries, and `Placed` says when
    this order linearizes the history: a call takes its place in the log
    between its two stamps. -/

namespace Linearization

variable {σ ι Op Res Req : Type}

/-! ## Histories -/

/-- An object for one client: what an operation answers, and what it leaves. -/
structure Object (σ Op Res : Type) where
  start : σ
  step : Op → σ → Res × σ

inductive Event (ι Req Res : Type) where
  | invoke (call : ι) (req : Req)
  | respond (call : ι) (res : Res)

/-- A call that took effect: as which operation, and with which answer. -/
structure Entry (ι Op Res : Type) where
  call : ι
  op : Op
  res : Res

/-- The state after some calls. -/
def Object.run (O : Object σ Op Res) (s : σ) (es : List (Entry ι Op Res)) : σ :=
  es.foldl (fun s e => (O.step e.op s).2) s

/-- The calls in this order have these answers. -/
def Legal (O : Object σ Op Res) : σ → List (Entry ι Op Res) → Prop
  | _, [] => True
  | s, e :: es => e.res = (O.step e.op s).1 ∧ Legal O (O.step e.op s).2 es

/-- When `c` was answered, `d` had not been invoked. -/
def AnsweredBefore (h : List (Event ι Req Res)) (c d : ι) : Prop :=
  ∃ before after, h = before ++ after ∧ (∃ r, .respond c r ∈ before) ∧
    ∀ req, .invoke d req ∉ before

/-- The order linearizes the history.  A request can be served by one of
    several operations, as `Realizes` says. -/
structure Linearizes (O : Object σ Op Res) (Realizes : Req → Op → Prop)
    (h : List (Event ι Req Res)) (order : List (Entry ι Op Res)) : Prop where
  once : (order.map Entry.call).Nodup
  legal : Legal O O.start order
  invoked : ∀ e ∈ order, ∃ req, .invoke e.call req ∈ h ∧ Realizes req e.op
  answered : ∀ c r, .respond c r ∈ h → ∃ op, ⟨c, op, r⟩ ∈ order
  realTime : order.Pairwise fun a b => ¬ AnsweredBefore h b.call a.call

section Legal

variable {O : Object σ Op Res} {s : σ}

theorem run_append (xs ys : List (Entry ι Op Res)) :
    O.run s (xs ++ ys) = O.run (O.run s xs) ys := List.foldl_append

theorem legal_append {xs ys : List (Entry ι Op Res)} :
    Legal O s (xs ++ ys) ↔ Legal O s xs ∧ Legal O (O.run s xs) ys := by
  induction xs generalizing s with
  | nil => exact ⟨fun h => ⟨trivial, h⟩, fun h => h.2⟩
  | cons e es ih =>
      rw [List.cons_append, Legal, Legal, ih, and_assoc]
      rfl

/-- The call reads: in this state it has its answer, and leaves the state. -/
def ReadsAt (O : Object σ Op Res) (s : σ) (e : Entry ι Op Res) : Prop :=
  O.step e.op s = (e.res, s)

theorem legal_reads {es : List (Entry ι Op Res)} (h : ∀ e ∈ es, ReadsAt O s e) :
    Legal O s es ∧ O.run s es = s := by
  induction es with
  | nil => exact ⟨trivial, rfl⟩
  | cons e es ih =>
      have he : O.step e.op s = (e.res, s) := h e List.mem_cons_self
      obtain ⟨hlegal, hrun⟩ := ih fun e' h' => h e' (List.mem_cons_of_mem _ h')
      refine ⟨⟨by rw [he], ?_⟩, ?_⟩
      · rw [he]
        exact hlegal
      · show O.run (O.step e.op s).2 es = s
        rw [he]
        exact hrun

end Legal

/-! ## Reads between the entries of a log -/

/-- The entries of the log, from position `n` on, with the reads of each prefix
    before the entry that ends it. -/
def weave {α : Type} (reads : Nat → List α) : Nat → List α → List α
  | n, [] => reads n
  | n, e :: es => reads n ++ e :: weave reads (n + 1) es

section Weave

variable {α : Type} {reads : Nat → List α} {n : Nat} {es : List α}

theorem mem_weave {x : α} :
    x ∈ weave reads n es ↔ x ∈ es ∨ ∃ k, k ≤ es.length ∧ x ∈ reads (n + k) := by
  induction es generalizing n with
  | nil =>
      rw [weave]
      constructor
      · exact fun h => .inr ⟨0, Nat.le_refl _, h⟩
      · rintro (h | ⟨k, hk, h⟩)
        · exact absurd h List.not_mem_nil
        · obtain rfl : k = 0 := Nat.le_zero.mp hk
          exact h
  | cons e es ih =>
      rw [weave, List.mem_append, List.mem_cons, List.mem_cons, ih]
      constructor
      · rintro (h | rfl | h | ⟨k, hk, h⟩)
        · exact .inr ⟨0, Nat.zero_le _, h⟩
        · exact .inl (.inl rfl)
        · exact .inl (.inr h)
        · refine .inr ⟨k + 1, Nat.succ_le_succ hk, ?_⟩
          rwa [Nat.add_comm k 1, ← Nat.add_assoc]
      · rintro ((rfl | h) | ⟨k, hk, h⟩)
        · exact .inr (.inl rfl)
        · exact .inr (.inr (.inl h))
        · cases k with
          | zero => exact .inl h
          | succ k =>
              refine .inr (.inr (.inr ⟨k, Nat.le_of_succ_le_succ hk, ?_⟩))
              rwa [Nat.add_assoc, Nat.add_comm 1 k]

/-- **WHAT HOLDS BETWEEN ANY TWO ELEMENTS OF A WEAVE**: between two entries,
    two reads, and an entry and a read on the right side of it. -/
theorem pairwise_weave {R : α → α → Prop} (hentries : es.Pairwise R)
    (hreads : ∀ k, (reads k).Pairwise R)
    (hrr : ∀ i j a b, i < j → a ∈ reads i → b ∈ reads j → R a b)
    (hre : ∀ k j a b, k ≤ n + j → a ∈ reads k → es[j]? = some b → R a b)
    (her : ∀ j k a b, n + j < k → es[j]? = some a → b ∈ reads k → R a b) :
    (weave reads n es).Pairwise R := by
  induction es generalizing n with
  | nil => exact hreads n
  | cons e es ih =>
      rw [List.pairwise_cons] at hentries
      have hrest : (weave reads (n + 1) es).Pairwise R := by
        refine ih hentries.2 ?_ ?_
        · exact fun k j a b hk ha hb => hre k (j + 1) a b (by omega) ha hb
        · exact fun j k a b hk ha hb => her (j + 1) k a b (by omega) ha hb
      rw [weave, List.pairwise_append, List.pairwise_cons]
      refine ⟨hreads n, ⟨?_, hrest⟩, ?_⟩
      · intro b hb
        rcases mem_weave.mp hb with hb | ⟨k, _, hb⟩
        · exact hentries.1 b hb
        · exact her 0 _ e b (by omega) rfl hb
      · intro a ha b hb
        rcases List.mem_cons.mp hb with rfl | hb
        · exact hre n 0 a b (by omega) ha rfl
        · rcases mem_weave.mp hb with hb | ⟨k, _, hb⟩
          · obtain ⟨j, hj⟩ := List.mem_iff_getElem?.mp hb
            exact hre n (j + 1) a b (by omega) ha hj
          · exact hrr n _ a b (by omega) ha hb

end Weave

/-- The reads of one prefix. -/
def readsOf {α : Type} (rs : List (Nat × α)) (k : Nat) : List α :=
  (rs.filter fun r => r.1 = k).map Prod.snd

theorem mem_readsOf {α : Type} {rs : List (Nat × α)} {k : Nat} {x : α} :
    x ∈ readsOf rs k ↔ (k, x) ∈ rs := by
  unfold readsOf
  rw [List.mem_map]
  constructor
  · rintro ⟨⟨k', x'⟩, hmem, rfl⟩
    rw [List.mem_filter, decide_eq_true_eq] at hmem
    obtain ⟨hmem, rfl⟩ := hmem
    exact hmem
  · exact fun h => ⟨_, List.mem_filter.mpr ⟨h, decide_eq_true rfl⟩, rfl⟩

theorem pairwise_readsOf {α : Type} {R : α → α → Prop} {rs : List (Nat × α)}
    (h : rs.Pairwise fun a b => R a.2 b.2) (k : Nat) : (readsOf rs k).Pairwise R :=
  List.pairwise_map.mpr (h.filter _)

theorem legal_weave {O : Object σ Op Res} {reads : Nat → List (Entry ι Op Res)} {n : Nat}
    {es : List (Entry ι Op Res)} {s : σ} (hlegal : Legal O s es)
    (hreads : ∀ k, k ≤ es.length → ∀ e ∈ reads (n + k), ReadsAt O (O.run s (es.take k)) e) :
    Legal O s (weave reads n es) := by
  induction es generalizing n s with
  | nil => exact (legal_reads (hreads 0 (Nat.le_refl _))).1
  | cons e es ih =>
      obtain ⟨hhere, hsame⟩ := legal_reads (hreads 0 (Nat.zero_le _))
      rw [weave, legal_append]
      refine ⟨hhere, ?_⟩
      have hstay : O.run s (reads n) = s := hsame
      rw [hstay]
      refine ⟨hlegal.1, ih hlegal.2 fun k hk e' he' => ?_⟩
      refine hreads (k + 1) (Nat.succ_le_succ hk) e' ?_
      rwa [Nat.add_comm k 1, ← Nat.add_assoc]

/-! ## Histories with stamps -/

/-- The log `es` and the reads `rs` of its prefixes are what happened in a
    history with stamps: each call has one place, between its stamps. -/
structure Placed (O : Object σ Op Res) (Realizes : Req → Op → Prop)
    (h : List (Event ι Req Res × Nat)) (es : List (Entry ι Op Res))
    (rs : List (Nat × Entry ι Op Res)) : Prop where
  sorted : h.Pairwise fun a b => a.2 ≤ b.2
  legal : Legal O O.start es
  reads : ∀ k e, (k, e) ∈ rs → k ≤ es.length ∧ ReadsAt O (O.run O.start (es.take k)) e
  entriesOnce : (es.map Entry.call).Nodup
  readsOnce : (rs.map fun r => r.2.call).Nodup
  apart : ∀ e ∈ es, ∀ r ∈ rs, e.call ≠ r.2.call
  invokedEntry : ∀ i e, es[i]? = some e →
    ∃ req t, (.invoke e.call req, t) ∈ h ∧ Realizes req e.op ∧ t ≤ i
  invokedRead : ∀ k e, (k, e) ∈ rs →
    ∃ req t, (.invoke e.call req, t) ∈ h ∧ Realizes req e.op ∧ t ≤ k
  answered : ∀ c r t, (.respond c r, t) ∈ h →
    (∃ i op, es[i]? = some ⟨c, op, r⟩ ∧ i < t) ∨ ∃ k op, (k, ⟨c, op, r⟩) ∈ rs ∧ k ≤ t
  inTurn : rs.Pairwise fun a b => ¬ AnsweredBefore (h.map Prod.fst) b.2.call a.2.call

section Placed

variable {O : Object σ Op Res} {Realizes : Req → Op → Prop}
  {h : List (Event ι Req Res × Nat)} {es : List (Entry ι Op Res)}
  {rs : List (Nat × Entry ι Op Res)} {c d : ι}

/-- What was answered first was stamped first. -/
theorem stamps_answeredBefore (hsorted : h.Pairwise fun a b => a.2 ≤ b.2)
    (hbefore : AnsweredBefore (h.map Prod.fst) c d) {req : Req} {t' : Nat}
    (hinvoked : (.invoke d req, t') ∈ h) : ∃ r t, (.respond c r, t) ∈ h ∧ t ≤ t' := by
  obtain ⟨before, after, hsplit, ⟨r, hr⟩, hnot⟩ := hbefore
  obtain ⟨h₁, h₂, rfl, rfl, rfl⟩ := List.map_eq_append_iff.mp hsplit
  obtain ⟨⟨_, t⟩, hmem, rfl⟩ := List.mem_map.mp hr
  refine ⟨r, t, List.mem_append_left _ hmem, ?_⟩
  rcases List.mem_append.mp hinvoked with h' | h'
  · exact absurd (List.mem_map_of_mem h') (hnot req)
  · exact (List.pairwise_append.mp hsorted).2.2 _ hmem _ h'

/-- The place of a call: the entry of a position, or a read of a prefix. -/
inductive PlacedAt (es : List (Entry ι Op Res)) (rs : List (Nat × Entry ι Op Res)) (c : ι) :
    Nat → Nat → Prop
  | entry {i : Nat} {e : Entry ι Op Res} (h : es[i]? = some e) (hc : e.call = c) :
      PlacedAt es rs c i (i + 1)
  | read {k : Nat} {e : Entry ι Op Res} (h : (k, e) ∈ rs) (hc : e.call = c) :
      PlacedAt es rs c k k

theorem entry_unique {es : List (Entry ι Op Res)} (hnodup : (es.map Entry.call).Nodup)
    {i j : Nat} {a b : Entry ι Op Res} (ha : es[i]? = some a) (hb : es[j]? = some b)
    (hcall : a.call = b.call) : i = j := by
  obtain ⟨hi, rfl⟩ := List.getElem?_eq_some_iff.mp ha
  obtain ⟨hj, rfl⟩ := List.getElem?_eq_some_iff.mp hb
  have hi' : i < (es.map Entry.call).length := by rwa [List.length_map]
  have hj' : j < (es.map Entry.call).length := by rwa [List.length_map]
  have hget : (es.map Entry.call)[i] = (es.map Entry.call)[j] := by
    rw [List.getElem_map, List.getElem_map]
    exact hcall
  exact hnodup.getElem_inj_iff.mp hget

theorem read_unique {rs : List (Nat × Entry ι Op Res)}
    (hnodup : (rs.map fun r => r.2.call).Nodup) {a b : Nat × Entry ι Op Res} (ha : a ∈ rs)
    (hb : b ∈ rs) (hcall : a.2.call = b.2.call) : a = b :=
  List.inj_on_of_nodup_map hnodup ha hb hcall

/-- A call that is answered before another ends before that one begins. -/
theorem Placed.ends_before (hp : Placed O Realizes h es rs) {b b' a a' : Nat}
    (hc : PlacedAt es rs c b b') (hd : PlacedAt es rs d a a')
    (hbefore : AnsweredBefore (h.map Prod.fst) c d) : b' ≤ a := by
  obtain ⟨req, t', hinvoked, ht'⟩ : ∃ req t', (.invoke d req, t') ∈ h ∧ t' ≤ a := by
    cases hd with
    | entry hd hcall =>
        obtain ⟨req, t', hmem, _, ht'⟩ := hp.invokedEntry _ _ hd
        exact ⟨req, t', hcall ▸ hmem, ht'⟩
    | read hd hcall =>
        obtain ⟨req, t', hmem, _, ht'⟩ := hp.invokedRead _ _ hd
        exact ⟨req, t', hcall ▸ hmem, ht'⟩
  obtain ⟨r, t, hmem, htt'⟩ := stamps_answeredBefore hp.sorted hbefore hinvoked
  have ht : b' ≤ t := by
    rcases hp.answered c r t hmem with ⟨i, op, hi, hlt⟩ | ⟨k, op, hk, hle⟩
    · cases hc with
      | entry hc hcall =>
          rw [entry_unique hp.entriesOnce hc hi hcall]
          exact hlt
      | read hc hcall =>
          exact absurd hcall.symm (hp.apart _ (List.mem_of_getElem? hi) _ hc)
    · cases hc with
      | entry hc hcall =>
          exact absurd hcall (hp.apart _ (List.mem_of_getElem? hc) _ hk)
      | read hc hcall =>
          have heq := read_unique hp.readsOnce hc hk hcall
          rw [(Prod.mk.inj heq).1]
          exact hle
  omega

/-- **A HISTORY WITH ITS PLACES IN A LOG LINEARIZES.** -/
theorem Placed.linearizes (hp : Placed O Realizes h es rs) :
    Linearizes O Realizes (h.map Prod.fst) (weave (readsOf rs) 0 es) where
  once := by
    refine List.pairwise_map.mpr (pairwise_weave (List.pairwise_map.mp hp.entriesOnce)
      (pairwise_readsOf (List.pairwise_map.mp hp.readsOnce)) ?_ ?_ ?_)
    · intro i j a b hij ha hb hcall
      have heq := read_unique hp.readsOnce (mem_readsOf.mp ha) (mem_readsOf.mp hb) hcall
      have := (Prod.mk.inj heq).1
      omega
    · exact fun k j a b _ ha hb hcall =>
        hp.apart b (List.mem_of_getElem? hb) _ (mem_readsOf.mp ha) hcall.symm
    · exact fun j k a b _ ha hb hcall =>
        hp.apart a (List.mem_of_getElem? ha) _ (mem_readsOf.mp hb) hcall
  legal := by
    refine legal_weave hp.legal fun k hk e he => ?_
    rw [Nat.zero_add] at he
    exact (hp.reads k e (mem_readsOf.mp he)).2
  invoked := by
    intro e he
    rcases mem_weave.mp he with he | ⟨k, _, he⟩
    · obtain ⟨i, hi⟩ := List.mem_iff_getElem?.mp he
      obtain ⟨req, t, hmem, hreq, _⟩ := hp.invokedEntry i e hi
      exact ⟨req, List.mem_map_of_mem hmem, hreq⟩
    · obtain ⟨req, t, hmem, hreq, _⟩ := hp.invokedRead _ e (mem_readsOf.mp he)
      exact ⟨req, List.mem_map_of_mem hmem, hreq⟩
  answered := by
    intro c r hmem
    obtain ⟨⟨_, t⟩, hmem, rfl⟩ := List.mem_map.mp hmem
    rcases hp.answered c r t hmem with ⟨i, op, hi, _⟩ | ⟨k, op, hk, _⟩
    · exact ⟨op, mem_weave.mpr (.inl (List.mem_of_getElem? hi))⟩
    · refine ⟨op, mem_weave.mpr (.inr ⟨k, (hp.reads k _ hk).1, ?_⟩)⟩
      rw [Nat.zero_add]
      exact mem_readsOf.mpr hk
  realTime := by
    refine pairwise_weave ?_ (pairwise_readsOf hp.inTurn) ?_ ?_ ?_
    · rw [List.pairwise_iff_getElem]
      intro i j hi hj hij hbefore
      have := hp.ends_before (.entry (List.getElem?_eq_getElem hj) rfl)
        (.entry (List.getElem?_eq_getElem hi) rfl) hbefore
      omega
    · intro i j a b hij ha hb hbefore
      have := hp.ends_before (.read (mem_readsOf.mp hb) rfl) (.read (mem_readsOf.mp ha) rfl)
        hbefore
      omega
    · intro k j a b hkj ha hb hbefore
      have := hp.ends_before (.entry hb rfl) (.read (mem_readsOf.mp ha) rfl) hbefore
      omega
    · intro j k a b hjk ha hb hbefore
      have := hp.ends_before (.read (mem_readsOf.mp hb) rfl) (.entry ha rfl) hbefore
      omega

/-! ## How a history goes on -/

/-- Later events do not come before a call that has been invoked. -/
theorem answeredBefore_concat {h : List (Event ι Req Res)} {x : Event ι Req Res} {req : Req}
    (hd : .invoke d req ∈ h) (hbefore : AnsweredBefore (h ++ [x]) c d) :
    AnsweredBefore h c d := by
  obtain ⟨before, after, hsplit, hc, hnot⟩ := hbefore
  rcases List.eq_nil_or_concat after with rfl | ⟨init, y, rfl⟩
  · rw [List.append_nil] at hsplit
    exact absurd (hsplit ▸ List.mem_append_left _ hd) (hnot req)
  · rw [List.concat_eq_append, ← List.append_assoc] at hsplit
    exact ⟨before, init, (List.append_inj' hsplit rfl).1, hc, hnot⟩

/-- An event happens; an answer is one that the call has at its place. -/
theorem Placed.event (hp : Placed O Realizes h es rs) {x : Event ι Req Res × Nat}
    (ht : ∀ y ∈ h, y.2 ≤ x.2) (hanswer : ∀ c r, x.1 = .respond c r →
      (∃ i op, es[i]? = some ⟨c, op, r⟩ ∧ i < x.2) ∨
        ∃ k op, (k, ⟨c, op, r⟩) ∈ rs ∧ k ≤ x.2) :
    Placed O Realizes (h ++ [x]) es rs where
  sorted := by
    rw [List.pairwise_append]
    refine ⟨hp.sorted, List.pairwise_singleton _ _, fun y hy z hz => ?_⟩
    obtain rfl := List.mem_singleton.mp hz
    exact ht y hy
  legal := hp.legal
  reads := hp.reads
  entriesOnce := hp.entriesOnce
  readsOnce := hp.readsOnce
  apart := hp.apart
  invokedEntry i e he := by
    obtain ⟨req, t, hmem, hreq⟩ := hp.invokedEntry i e he
    exact ⟨req, t, List.mem_append_left _ hmem, hreq⟩
  invokedRead k e he := by
    obtain ⟨req, t, hmem, hreq⟩ := hp.invokedRead k e he
    exact ⟨req, t, List.mem_append_left _ hmem, hreq⟩
  answered c r t hmem := by
    rcases List.mem_append.mp hmem with hmem | hmem
    · exact hp.answered c r t hmem
    · obtain rfl := List.mem_singleton.mp hmem
      exact hanswer c r rfl
  inTurn := by
    refine hp.inTurn.imp_of_mem fun {a b} ha _ hab hbefore => hab ?_
    obtain ⟨req, t, hmem, _, _⟩ := hp.invokedRead a.1 a.2 ha
    rw [List.map_append] at hbefore
    exact answeredBefore_concat (List.mem_map_of_mem hmem) hbefore

/-- The log grows by the entry of a call that has no place yet. -/
theorem Placed.entry (hp : Placed O Realizes h es rs) {e : Entry ι Op Res} {req : Req} {t : Nat}
    (hres : e.res = (O.step e.op (O.run O.start es)).1) (hnew : e.call ∉ es.map Entry.call)
    (hreads : ∀ r ∈ rs, e.call ≠ r.2.call) (hinvoked : (.invoke e.call req, t) ∈ h)
    (hreq : Realizes req e.op) (ht : t ≤ es.length) :
    Placed O Realizes h (es ++ [e]) rs where
  sorted := hp.sorted
  legal := legal_append.mpr ⟨hp.legal, hres, trivial⟩
  reads k e' he' := by
    obtain ⟨hk, hreads⟩ := hp.reads k e' he'
    rw [List.length_append, List.take_append_of_le_length hk]
    exact ⟨Nat.le_add_right_of_le hk, hreads⟩
  entriesOnce := by
    rw [List.map_append, List.nodup_append]
    refine ⟨hp.entriesOnce, List.nodup_singleton _, fun a ha b hb hab => ?_⟩
    obtain rfl := List.mem_singleton.mp hb
    exact hnew (hab ▸ ha)
  readsOnce := hp.readsOnce
  apart e' he' r hr := by
    rcases List.mem_append.mp he' with he' | he'
    · exact hp.apart e' he' r hr
    · obtain rfl := List.mem_singleton.mp he'
      exact hreads r hr
  invokedEntry i e' he' := by
    rcases Nat.lt_trichotomy i es.length with hi | rfl | hi
    · rw [List.getElem?_append_left hi] at he'
      exact hp.invokedEntry i e' he'
    · rw [List.getElem?_concat_length] at he'
      obtain rfl := Option.some.inj he'
      exact ⟨req, t, hinvoked, hreq, ht⟩
    · rw [List.getElem?_eq_none (by rw [List.length_append, List.length_singleton]; omega)] at he'
      cases he'
  invokedRead := hp.invokedRead
  answered c' r t' hmem := by
    rcases hp.answered c' r t' hmem with ⟨i, op, hi, hlt⟩ | hread
    · refine .inl ⟨i, op, ?_, hlt⟩
      rw [List.getElem?_append_left (List.getElem?_eq_some_iff.mp hi).1]
      exact hi
    · exact .inr hread
  inTurn := hp.inTurn

/-- A call that has not been answered reads a prefix that is not older than its
    invocation. -/
theorem Placed.read (hp : Placed O Realizes h es rs) {k t : Nat} {e : Entry ι Op Res}
    {req : Req} (hk : k ≤ es.length) (hreads : ReadsAt O (O.run O.start (es.take k)) e)
    (hinvoked : (.invoke e.call req, t) ∈ h) (hreq : Realizes req e.op) (ht : t ≤ k)
    (hentries : ∀ e' ∈ es, e'.call ≠ e.call) (hnew : ∀ r ∈ rs, r.2.call ≠ e.call)
    (hopen : ∀ r, .respond e.call r ∉ h.map Prod.fst) :
    Placed O Realizes h es (rs ++ [(k, e)]) where
  sorted := hp.sorted
  legal := hp.legal
  reads k' e' he' := by
    rcases List.mem_append.mp he' with he' | he'
    · exact hp.reads k' e' he'
    · cases List.mem_singleton.mp he'
      exact ⟨hk, hreads⟩
  entriesOnce := hp.entriesOnce
  readsOnce := by
    rw [List.map_append, List.nodup_append]
    refine ⟨hp.readsOnce, List.nodup_singleton _, fun a ha b hb hab => ?_⟩
    obtain rfl := List.mem_singleton.mp hb
    obtain ⟨r, hr, rfl⟩ := List.mem_map.mp ha
    exact hnew r hr hab
  apart e' he' r hr := by
    rcases List.mem_append.mp hr with hr | hr
    · exact hp.apart e' he' r hr
    · obtain rfl := List.mem_singleton.mp hr
      exact hentries e' he'
  invokedEntry := hp.invokedEntry
  invokedRead k' e' he' := by
    rcases List.mem_append.mp he' with he' | he'
    · exact hp.invokedRead k' e' he'
    · cases List.mem_singleton.mp he'
      exact ⟨req, t, hinvoked, hreq, ht⟩
  answered c r t' hmem := by
    rcases hp.answered c r t' hmem with hentry | ⟨k', op, hread, hle⟩
    · exact .inl hentry
    · exact .inr ⟨k', op, List.mem_append_left _ hread, hle⟩
  inTurn := by
    rw [List.pairwise_append]
    refine ⟨hp.inTurn, List.pairwise_singleton _ _, fun a _ b hb hbefore => ?_⟩
    obtain rfl := List.mem_singleton.mp hb
    obtain ⟨before, after, hsplit, ⟨r, hr⟩, _⟩ := hbefore
    exact hopen r (hsplit ▸ List.mem_append_left _ hr)

end Placed

end Linearization
