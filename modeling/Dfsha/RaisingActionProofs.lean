import Mathlib.Data.List.Basic

/-! # Actions that raise and keep their state

    Imperative code with exceptions, over a state that is mutated in place:
    an action takes a state, and ends with a result or an error AND with the
    state it leaves, in both cases.  What was done before an exception stays
    done.

    `wp x s Q` says that the action ends, from `s`, in an outcome and a state
    that satisfy `Q`.  There is one rule for each way to begin an action; most
    take the fact that `Q` holds of a refusal at the current state, so a proof
    follows the text of the action and treats its refusals once.

    `Raises P x` says that every error that `x` raises, from any state,
    satisfies `P`.  It says nothing about results, so it composes without
    them: one rule for each constructor. -/

namespace RaisingAction

variable {σ ε α β : Type}

/-- An action on a state `σ` that may raise an `ε`. -/
def Action (σ ε α : Type) : Type := σ → Except ε α × σ

def ret (a : α) : Action σ ε α := fun s => (.ok a, s)

def andThen (x : Action σ ε α) (f : α → Action σ ε β) : Action σ ε β := fun s =>
  match x s with
  | (.ok a, s') => f a s'
  | (.error e, s') => (.error e, s')

instance : Monad (Action σ ε) where
  pure := ret
  bind := andThen

def raise (e : ε) : Action σ ε α := fun s => (.error e, s)

def raiseIf (c : Prop) [Decidable c] (e : ε) : Action σ ε Unit :=
  if c then raise e else ret ()

def ofExcept (x : Except ε α) : Action σ ε α := fun s => (x, s)

theorem mapError_eq_ok {ε' : Type} {r : Except ε α} {g : ε → ε'} {a : α}
    (h : r.mapError g = .ok a) : r = .ok a := by
  cases r with
  | ok b => exact congrArg Except.ok (Except.ok.inj h)
  | error e => cases h

def gets (g : σ → α) : Action σ ε α := fun s => (.ok (g s), s)

def modify (g : σ → σ) : Action σ ε Unit := fun s => (.ok (), g s)

/-- The action ends in an outcome and a state that satisfy `Q`. -/
def wp (x : Action σ ε α) (s : σ) (Q : Except ε α → σ → Prop) : Prop :=
  Q (x s).1 (x s).2

/-- The postcondition of an action that `f` follows. -/
def followed (f : α → Action σ ε β) (Q : Except ε β → σ → Prop) :
    Except ε α → σ → Prop
  | .ok a, s => wp (f a) s Q
  | .error e, s => Q (.error e) s

section Rules

variable {x : Action σ ε α} {f : α → Action σ ε β} {s : σ}
  {Q : Except ε β → σ → Prop}

theorem wp_bind (h : wp x s (followed f Q)) : wp (x >>= f) s Q := by
  show Q (andThen x f s).1 (andThen x f s).2
  unfold wp at h
  unfold andThen
  cases hx : x s with
  | mk r s' =>
      rw [hx] at h
      cases r with
      | ok a => exact h
      | error e => exact h

/-- An action that satisfies a postcondition satisfies every weaker one. -/
theorem wp_mono {P P' : Except ε α → σ → Prop} (h : wp x s P)
    (hP : ∀ r s', P r s' → P' r s') : wp x s P' := hP _ _ h

theorem wp_and {P P' : Except ε α → σ → Prop} (h : wp x s P) (h' : wp x s P') :
    wp x s fun r s' => P r s' ∧ P' r s' := ⟨h, h'⟩

/-- A call whose postcondition is known. -/
theorem wp_call {P : Except ε α → σ → Prop} (hx : wp x s P)
    (hok : ∀ a s', P (.ok a) s' → wp (f a) s' Q)
    (herror : ∀ e s', P (.error e) s' → Q (.error e) s') :
    wp (x >>= f) s Q := by
  refine wp_bind (wp_mono hx ?_)
  intro r s' hr
  cases r with
  | ok a => exact hok a s' hr
  | error e => exact herror e s' hr

theorem wp_ret {P : Except ε α → σ → Prop} {a : α} (h : P (.ok a) s) :
    wp (pure a) s P := h

theorem wp_raise {P : Except ε α → σ → Prop} (refuse : ∀ e, P (.error e) s)
    (e : ε) : wp (raise e) s P := refuse e

theorem wp_raiseIf {c : Prop} [Decidable c] {e : ε} {f : Unit → Action σ ε β}
    (refuse : ∀ e, Q (.error e) s) (h : ¬c → wp (f ()) s Q) :
    wp (raiseIf c e >>= f) s Q := by
  refine wp_bind ?_
  unfold raiseIf
  by_cases hc : c
  · rw [if_pos hc]
    exact refuse e
  · rw [if_neg hc]
    exact h hc

/-- A check whose failure is not a mere refusal. -/
theorem wp_raiseIf_cases {c : Prop} [Decidable c] {e : ε}
    {f : Unit → Action σ ε β} (refuse : c → Q (.error e) s)
    (h : ¬c → wp (f ()) s Q) : wp (raiseIf c e >>= f) s Q := by
  refine wp_bind ?_
  unfold raiseIf
  by_cases hc : c
  · rw [if_pos hc]
    exact refuse hc
  · rw [if_neg hc]
    exact h hc

/-- A check that is known to pass. -/
theorem wp_raiseIf_passed {c : Prop} [Decidable c] {e : ε}
    {f : Unit → Action σ ε β} (hc : ¬c) (h : wp (f ()) s Q) :
    wp (raiseIf c e >>= f) s Q := by
  refine wp_bind ?_
  unfold raiseIf
  rw [if_neg hc]
  exact h

/-- A check with nothing after it. -/
theorem wp_raiseIf_last {c : Prop} [Decidable c] {e : ε}
    {P : Except ε Unit → σ → Prop}
    (refuse : ∀ e, P (.error e) s) (h : ¬c → P (.ok ()) s) :
    wp (raiseIf c e) s P := by
  unfold raiseIf
  by_cases hc : c
  · rw [if_pos hc]
    exact refuse e
  · rw [if_neg hc]
    exact h hc

theorem wp_raiseIf_last_passed {c : Prop} [Decidable c] {e : ε}
    {P : Except ε Unit → σ → Prop} (hc : ¬c) (h : P (.ok ()) s) :
    wp (raiseIf c e) s P := by
  unfold raiseIf
  rw [if_neg hc]
  exact h

/-- The result of a pure call, when its failure is not a mere refusal. -/
theorem wp_ofExcept_cases {y : Except ε α} (hok : ∀ a, y = .ok a → wp (f a) s Q)
    (herror : ∀ e, y = .error e → Q (.error e) s) :
    wp (ofExcept y >>= f) s Q := by
  refine wp_bind ?_
  show followed f Q y s
  cases y with
  | ok a => exact hok a rfl
  | error e => exact herror e rfl

/-- A pure call whose result is known. -/
theorem wp_ofExcept_ok {y : Except ε α} {a : α} (hy : y = .ok a)
    (h : wp (f a) s Q) : wp (ofExcept y >>= f) s Q := by
  rw [hy]
  exact wp_bind h

theorem wp_ofExcept {y : Except ε α} (refuse : ∀ e, Q (.error e) s)
    (h : ∀ a, y = .ok a → wp (f a) s Q) : wp (ofExcept y >>= f) s Q :=
  wp_ofExcept_cases h fun e _ => refuse e

theorem wp_gets {g : σ → α} (h : wp (f (g s)) s Q) : wp (gets g >>= f) s Q :=
  wp_bind h

theorem wp_modify {g : σ → σ} {f : Unit → Action σ ε β}
    (h : wp (f ()) (g s) Q) : wp (modify g >>= f) s Q := wp_bind h

theorem wp_modify_last {g : σ → σ} {P : Except ε Unit → σ → Prop}
    (h : P (.ok ()) (g s)) : wp (modify g) s P := h

/-- A result that is the image of another. -/
theorem map_eq_ok {g : α → β} {y : Except ε α} {b : β} (h : y.map g = .ok b) :
    ∃ a, y = .ok a ∧ g a = b := by
  cases y with
  | error e => exact nomatch h
  | ok a => exact ⟨a, rfl, Except.ok.inj h⟩

/-- What an action ends in, when it is known to satisfy a postcondition. -/
theorem of_wp {P : Except ε α → σ → Prop} {r : Except ε α} {s' : σ}
    (h : wp x s P) (hx : x s = (r, s')) : P r s' := by
  unfold wp at h
  rw [hx] at h
  exact h

end Rules

/-! ## Which errors an action raises -/

/-- Every error that the action raises satisfies `P`, from any state. -/
def Raises (P : ε → Prop) (x : Action σ ε α) : Prop :=
  ∀ s, wp x s fun r _ => ∀ e, r = .error e → P e

section Raises

variable {P P' : ε → Prop} {x : Action σ ε α} {f : α → Action σ ε β}

theorem Raises.mono (h : Raises P x) (hP : ∀ e, P e → P' e) : Raises P' x := fun s =>
  wp_mono (h s) fun _ _ hr e he => hP e (hr e he)

theorem Raises.bind (hx : Raises P x) (hf : ∀ a, Raises P (f a)) : Raises P (x >>= f) := fun s =>
  wp_call (hx s) (fun a s' _ => hf a s') fun e _ hr e' he' => by
    obtain rfl := Except.error.inj he'
    exact hr e rfl

/-- An action that does not raise. -/
theorem raises_of_ok (h : ∀ s, ∃ a, (x s).1 = .ok a) : Raises P x := by
  intro s e he
  obtain ⟨a, ha⟩ := h s
  rw [ha] at he
  cases he

theorem raises_pure (a : α) : Raises P (pure a : Action σ ε α) :=
  raises_of_ok fun _ => ⟨a, rfl⟩

theorem raises_gets (g : σ → α) : Raises P (gets g : Action σ ε α) :=
  raises_of_ok fun s => ⟨g s, rfl⟩

theorem raises_modify (g : σ → σ) : Raises P (modify g : Action σ ε Unit) :=
  raises_of_ok fun _ => ⟨(), rfl⟩

theorem raises_raise {e : ε} (he : P e) : Raises P (raise e : Action σ ε α) := by
  intro s e' he'
  obtain rfl := Except.error.inj he'
  exact he

theorem raises_raiseIf {c : Prop} [Decidable c] {e : ε} (he : P e) :
    Raises P (raiseIf c e : Action σ ε Unit) := by
  unfold raiseIf
  by_cases hc : c
  · rw [if_pos hc]
    exact raises_raise he
  · rw [if_neg hc]
    exact raises_pure ()

theorem raises_ofExcept {y : Except ε α} (hy : ∀ e, y = .error e → P e)
    (hf : ∀ a, y = .ok a → Raises P (f a)) : Raises P (ofExcept y >>= f) := fun s =>
  wp_ofExcept_cases (fun a ha => hf a ha s) fun e he e' he' => by
    obtain rfl := Except.error.inj he'
    exact hy e he

end Raises

end RaisingAction
