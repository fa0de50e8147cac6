import Mathlib.Data.List.Induction

/-! # Labelled transition systems

    Systems that move from state to state by labelled steps, and the two ways
    a fact about one step becomes a fact about whole runs: an invariant that
    may speak of the labels seen so far, and the restriction of a system to
    the steps that meet a condition. -/

namespace TransitionSystem

variable {σ ℓ : Type}

structure System (σ ℓ : Type) where
  init : σ → Prop
  step : σ → ℓ → σ → Prop

/-- The system of a total step function, started in one state. -/
def ofFunction (init : σ) (next : ℓ → σ → σ) : System σ ℓ where
  init := fun s => s = init
  step := fun s l s' => s' = next l s

/-- The system of a step function that is not always enabled. -/
def ofPartial (init : σ) (next : σ → ℓ → Option σ) : System σ ℓ where
  init := fun s => s = init
  step := fun s l s' => next s l = some s'

/-- Take the steps of a list, as long as they are enabled. -/
def steps (next : σ → ℓ → Option σ) : σ → List ℓ → Option σ
  | s, [] => some s
  | s, l :: ls => (next s l).bind fun s' => steps next s' ls

namespace System

variable (S : System σ ℓ)

/-- From one state to another by the labels of a list, in order. -/
inductive Path (s : σ) : List ℓ → σ → Prop
  | start : Path s [] s
  | next {ls : List ℓ} {s₁ s₂ : σ} {l : ℓ} :
      Path s ls s₁ → S.step s₁ l s₂ → Path s (ls ++ [l]) s₂

/-- A path from an initial state. -/
def Run (ls : List ℓ) (s : σ) : Prop := ∃ s₀, S.init s₀ ∧ S.Path s₀ ls s

/-- The steps that meet a condition. -/
def guarded (C : σ → ℓ → Prop) : System σ ℓ where
  init := S.init
  step := fun s l s' => C s l ∧ S.step s l s'

variable {S}

theorem Path.one {s s' : σ} {l : ℓ} (h : S.step s l s') : S.Path s [l] s' :=
  Path.start.next h

theorem Path.append {s s₁ s₂ : σ} {ls ls' : List ℓ} (h : S.Path s ls s₁)
    (h' : S.Path s₁ ls' s₂) : S.Path s (ls ++ ls') s₂ := by
  induction h' with
  | start => rw [List.append_nil]; exact h
  | next _ hstep ih =>
      rw [← List.append_assoc]
      exact .next ih hstep

theorem Path.cons {s s₁ s₂ : σ} {l : ℓ} {ls : List ℓ} (h : S.step s l s₁)
    (h' : S.Path s₁ ls s₂) : S.Path s (l :: ls) s₂ := (Path.one h).append h'

theorem Path.of_nil {s s' : σ} (h : S.Path s [] s') : s' = s := by
  generalize hls : ([] : List ℓ) = ls at h
  cases h with
  | start => rfl
  | next _ _ => exact absurd hls.symm (List.append_ne_nil_of_right_ne_nil _ (List.cons_ne_nil _ _))

theorem Path.of_concat {s s' : σ} {l : ℓ} {ls : List ℓ}
    (h : S.Path s (ls ++ [l]) s') : ∃ s₁, S.Path s ls s₁ ∧ S.step s₁ l s' := by
  generalize hls : ls ++ [l] = ls' at h
  cases h with
  | start => exact absurd hls (List.append_ne_nil_of_right_ne_nil _ (List.cons_ne_nil _ _))
  | next hpath hstep =>
      obtain ⟨rfl, hl⟩ := List.append_inj' hls rfl
      obtain rfl := List.singleton_inj.mp hl
      exact ⟨_, hpath, hstep⟩

/-- A path along an append goes through a state in the middle. -/
theorem Path.split {s s' : σ} {ls ls' : List ℓ} (h : S.Path s (ls ++ ls') s') :
    ∃ s₁, S.Path s ls s₁ ∧ S.Path s₁ ls' s' := by
  induction ls' using List.reverseRecOn generalizing s' with
  | nil =>
      rw [List.append_nil] at h
      exact ⟨s', h, .start⟩
  | append_singleton ls' l ih =>
      rw [← List.append_assoc] at h
      obtain ⟨s₂, hpath, hstep⟩ := h.of_concat
      obtain ⟨s₁, h₁, h₂⟩ := ih hpath
      exact ⟨s₁, h₁, h₂.next hstep⟩

theorem Path.of_cons {s s' : σ} {l : ℓ} {ls : List ℓ}
    (h : S.Path s (l :: ls) s') : ∃ s₁, S.step s l s₁ ∧ S.Path s₁ ls s' := by
  rw [← List.singleton_append] at h
  obtain ⟨s₁, h₁, h₂⟩ := h.split
  rw [← List.nil_append [l]] at h₁
  obtain ⟨s₂, h₃, hstep⟩ := h₁.of_concat
  rw [h₃.of_nil] at hstep
  exact ⟨s₁, hstep, h₂⟩

/-- **THE INVARIANT RULE ALONG A PATH**, with the labels seen so far. -/
theorem Path.invariant {I : List ℓ → σ → Prop} {s s' : σ} {ls : List ℓ}
    (h : S.Path s ls s') (hstart : I [] s)
    (hstep : ∀ ls s₁ l s₂, I ls s₁ → S.step s₁ l s₂ → I (ls ++ [l]) s₂) :
    I ls s' := by
  induction h with
  | start => exact hstart
  | next _ hs ih => exact hstep _ _ _ _ ih hs

/-- A guarded path is a path. -/
theorem Path.unguarded {C : σ → ℓ → Prop} {s s' : σ} {ls : List ℓ}
    (h : (S.guarded C).Path s ls s') : S.Path s ls s' := by
  induction h with
  | start => exact .start
  | next _ hstep ih => exact .next ih hstep.2

/-- A path of a system with the same steps, or more. -/
theorem Path.mono {T : System σ ℓ} {s s' : σ} {ls : List ℓ} (h : S.Path s ls s')
    (hstep : ∀ s l s', S.step s l s' → T.step s l s') : T.Path s ls s' := by
  induction h with
  | start => exact .start
  | next _ hs ih => exact .next ih (hstep _ _ _ hs)

/-- A function of the state whose image moves exactly as another system does:
    it moves so along whole paths. -/
theorem Path.image_iff {τ : Type} {T : System τ ℓ} {g : σ → τ}
    (h : ∀ s l t, (∃ s', S.step s l s' ∧ g s' = t) ↔ T.step (g s) l t) {s : σ} {ls : List ℓ}
    {t : τ} : (∃ s', S.Path s ls s' ∧ g s' = t) ↔ T.Path (g s) ls t := by
  constructor
  · rintro ⟨s', hpath, rfl⟩
    induction hpath with
    | start => exact .start
    | next _ hstep ih => exact .next ih ((h _ _ _).mp ⟨_, hstep, rfl⟩)
  · intro hpath
    induction hpath with
    | start => exact ⟨s, .start, rfl⟩
    | next _ hstep ih =>
        obtain ⟨s₁, hpath₁, rfl⟩ := ih
        obtain ⟨s₂, hstep₂, rfl⟩ := (h _ _ _).mpr hstep
        exact ⟨s₂, hpath₁.next hstep₂, rfl⟩

/-- A path whose labels meet a condition in every state. -/
theorem Path.of_labels {C : σ → ℓ → Prop} {s s' : σ} {ls : List ℓ} (h : S.Path s ls s')
    (hC : ∀ l ∈ ls, ∀ s, C s l) : (S.guarded C).Path s ls s' := by
  induction h with
  | start => exact .start
  | next _ hstep ih =>
      refine .next (ih fun l hl => hC l (List.mem_append_left _ hl)) ⟨?_, hstep⟩
      exact hC _ (List.mem_append_right _ (List.mem_singleton.mpr rfl)) _

theorem Run.unguarded {C : σ → ℓ → Prop} {s : σ} {ls : List ℓ}
    (h : (S.guarded C).Run ls s) : S.Run ls s := by
  obtain ⟨s₀, hinit, hpath⟩ := h
  exact ⟨s₀, hinit, hpath.unguarded⟩

/-- The invariant rule for an invariant of the state alone. -/
theorem Path.keeps {I : σ → Prop} {s s' : σ} {ls : List ℓ} (h : S.Path s ls s')
    (hstart : I s) (hstep : ∀ s₁ l s₂, I s₁ → S.step s₁ l s₂ → I s₂) : I s' :=
  h.invariant (I := fun _ s => I s) hstart fun _ s₁ l s₂ => hstep s₁ l s₂

/-- A run in which an invariant answers for the condition is a guarded run. -/
theorem Run.guard {C : σ → ℓ → Prop} {I : σ → Prop} {s : σ} {ls : List ℓ} (h : S.Run ls s)
    (hinit : ∀ s, S.init s → I s) (hkeeps : ∀ s₁ l s₂, I s₁ → S.step s₁ l s₂ → I s₂)
    (hC : ∀ s₁ l s₂, I s₁ → S.step s₁ l s₂ → C s₁ l) : (S.guarded C).Run ls s := by
  obtain ⟨s₀, h₀, hpath⟩ := h
  refine ⟨s₀, h₀, ?_⟩
  induction hpath with
  | start => exact .start
  | next hpath hstep ih =>
      exact ih.next ⟨hC _ _ _ (hpath.keeps (hinit s₀ h₀) hkeeps) hstep, hstep⟩

theorem Run.next {s s' : σ} {l : ℓ} {ls : List ℓ} (h : S.Run ls s)
    (hstep : S.step s l s') : S.Run (ls ++ [l]) s' := by
  obtain ⟨s₀, hinit, hpath⟩ := h
  exact ⟨s₀, hinit, hpath.next hstep⟩

theorem Run.append {s s' : σ} {ls ls' : List ℓ} (h : S.Run ls s)
    (h' : S.Path s ls' s') : S.Run (ls ++ ls') s' := by
  obtain ⟨s₀, hinit, hpath⟩ := h
  exact ⟨s₀, hinit, hpath.append h'⟩

/-- **THE INVARIANT RULE FOR RUNS**, with the labels seen so far. -/
theorem Run.invariant {I : List ℓ → σ → Prop} {s : σ} {ls : List ℓ}
    (h : S.Run ls s) (hinit : ∀ s, S.init s → I [] s)
    (hstep : ∀ ls s₁ l s₂, I ls s₁ → S.step s₁ l s₂ → I (ls ++ [l]) s₂) :
    I ls s := by
  obtain ⟨s₀, h₀, hpath⟩ := h
  exact hpath.invariant (hinit s₀ h₀) hstep

end System

/-- Every list of labels is a path of a step function. -/
theorem path_foldl {init : σ} {next : ℓ → σ → σ} (s : σ) (ls : List ℓ) :
    (ofFunction init next).Path s ls (ls.foldl (fun s l => next l s) s) := by
  induction ls generalizing s with
  | nil => exact .start
  | cons l ls ih => exact System.Path.cons rfl (ih (next l s))

/-- A step function leads to one state. -/
theorem path_unique {init : σ} {next : ℓ → σ → σ} {s s₁ s₂ : σ} {ls : List ℓ}
    (h₁ : (ofFunction init next).Path s ls s₁)
    (h₂ : (ofFunction init next).Path s ls s₂) : s₁ = s₂ := by
  induction h₁ generalizing s₂ with
  | start => exact h₂.of_nil.symm
  | next _ hstep ih =>
      obtain ⟨s₃, hpath, hstep'⟩ := h₂.of_concat
      rw [← ih hpath] at hstep'
      exact Eq.trans hstep (Eq.symm hstep')

/-- Steps that can be computed are a path. -/
theorem path_of_steps {init : σ} {next : σ → ℓ → Option σ} {s s' : σ} {ls : List ℓ}
    (h : steps next s ls = some s') : (ofPartial init next).Path s ls s' := by
  induction ls generalizing s with
  | nil => rw [← Option.some.inj h]; exact .start
  | cons l ls ih =>
      obtain ⟨s₁, hstep, hrest⟩ := Option.bind_eq_some_iff.mp h
      exact System.Path.cons hstep (ih hrest)

/-- A step function with the condition checked at every step. -/
def guardedNext (C : σ → ℓ → Prop) [∀ s l, Decidable (C s l)]
    (next : σ → ℓ → Option σ) (s : σ) (l : ℓ) : Option σ :=
  if C s l then next s l else none

/-- Guarded steps that can be computed are a path of the guarded system. -/
theorem path_guarded_of_steps {C : σ → ℓ → Prop} [∀ s l, Decidable (C s l)]
    {init : σ} {next : σ → ℓ → Option σ} {s s' : σ} {ls : List ℓ}
    (h : steps (guardedNext C next) s ls = some s') :
    ((ofPartial init next).guarded C).Path s ls s' := by
  induction ls generalizing s with
  | nil => rw [← Option.some.inj h]; exact .start
  | cons l ls ih =>
      obtain ⟨s₁, hstep, hrest⟩ := Option.bind_eq_some_iff.mp h
      rw [guardedNext] at hstep
      by_cases hc : C s l
      · rw [if_pos hc] at hstep
        exact System.Path.cons ⟨hc, hstep⟩ (ih hrest)
      · rw [if_neg hc] at hstep
        exact nomatch hstep

theorem run_guarded_of_steps {C : σ → ℓ → Prop} [∀ s l, Decidable (C s l)]
    {init : σ} {next : σ → ℓ → Option σ} {s : σ} {ls : List ℓ}
    (h : steps (guardedNext C next) init ls = some s) :
    ((ofPartial init next).guarded C).Run ls s :=
  ⟨init, rfl, path_guarded_of_steps h⟩

theorem run_of_steps {init : σ} {next : σ → ℓ → Option σ} {s : σ} {ls : List ℓ}
    (h : steps next init ls = some s) : (ofPartial init next).Run ls s :=
  ⟨init, rfl, path_of_steps h⟩

end TransitionSystem
