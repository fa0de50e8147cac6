import Mathlib.Data.List.Basic
import Mathlib.Data.List.DropRight

/-! # Sequences with a delimiter

    Two ways to take a sequence apart at a delimiter: at the first one, when
    what comes before has none, and at the last one, when what comes after has
    none.  In both cases the parts are determined by the whole.

    Around a part there may be padding, which `trim` takes away: a sequence is
    its padding and a part without any (`exists_pad`), and that part is what is
    left of it (`trim_pad`). -/

namespace Delimited

variable {α : Type} {x : α}

/-- **SPLITTING AT THE FIRST DELIMITER** is unambiguous. -/
theorem append_cons_inj {xs ys as bs : List α} (hx : x ∉ xs) (hy : x ∉ ys)
    (h : xs ++ x :: as = ys ++ x :: bs) : xs = ys ∧ as = bs := by
  induction xs generalizing ys with
  | nil =>
      cases ys with
      | nil => exact ⟨rfl, (List.cons.inj h).2⟩
      | cons y ys =>
          obtain ⟨hxy, _⟩ := List.cons.inj h
          exact absurd (hxy ▸ List.mem_cons_self) hy
  | cons z xs ih =>
      cases ys with
      | nil =>
          obtain ⟨hzx, _⟩ := List.cons.inj h
          exact absurd (hzx ▸ List.mem_cons_self) hx
      | cons y ys =>
          obtain ⟨hzy, hrest⟩ := List.cons.inj h
          obtain ⟨hxs, has⟩ := ih (fun hm => hx (List.mem_cons_of_mem _ hm))
            (fun hm => hy (List.mem_cons_of_mem _ hm)) hrest
          exact ⟨by rw [hzy, hxs], has⟩

variable [DecidableEq α]

/-- What is before and after the last occurrence of `x`. -/
def splitLast (x : α) : List α → Option (List α × List α)
  | [] => none
  | a :: as =>
      match splitLast x as with
      | some (before, after) => some (a :: before, after)
      | none => if a = x then some ([], as) else none

theorem splitLast_eq_none {l : List α} : splitLast x l = none ↔ x ∉ l := by
  induction l with
  | nil => exact ⟨fun _ => List.not_mem_nil, fun _ => rfl⟩
  | cons a as ih =>
      rw [splitLast]
      cases hs : splitLast x as with
      | some p =>
          have hmem : x ∈ as := by
            by_contra hnot
            rw [ih.mpr hnot] at hs
            cases hs
          exact ⟨fun h => absurd h (by simp),
            fun h => absurd (List.mem_cons_of_mem a hmem) h⟩
      | none =>
          have hnot := ih.mp hs
          by_cases ha : a = x
          · rw [if_pos ha]
            refine ⟨fun h => absurd h (by simp), fun h => absurd ?_ h⟩
            rw [ha]
            exact List.mem_cons_self
          · rw [if_neg ha]
            refine ⟨fun _ hmem => ?_, fun _ => rfl⟩
            rcases List.mem_cons.mp hmem with rfl | hrest
            · exact ha rfl
            · exact hnot hrest

/-- **SPLITTING AT THE LAST DELIMITER**: the two parts, and nothing else, with
    no delimiter in the second. -/
theorem splitLast_eq_some {l before after : List α} :
    splitLast x l = some (before, after) ↔ l = before ++ x :: after ∧ x ∉ after := by
  induction l generalizing before after with
  | nil => exact ⟨fun h => absurd h (by simp [splitLast]), fun h => absurd h.1 (by simp)⟩
  | cons a as ih =>
      rw [splitLast]
      cases hs : splitLast x as with
      | some p =>
          obtain ⟨b, c⟩ := p
          obtain ⟨has, hc⟩ := ih.mp hs
          constructor
          · intro h
            obtain ⟨rfl, rfl⟩ := Prod.mk.inj (Option.some.inj h)
            exact ⟨by rw [has, List.cons_append], hc⟩
          · rintro ⟨hl, hnot⟩
            cases before with
            | nil =>
                obtain ⟨_, hrest⟩ := List.cons.inj hl
                refine absurd ?_ hnot
                rw [← hrest, has]
                exact List.mem_append_right _ List.mem_cons_self
            | cons b' before =>
                obtain ⟨rfl, hrest⟩ := List.cons.inj hl
                obtain ⟨rfl, rfl⟩ :=
                  Prod.mk.inj (Option.some.inj (hs.symm.trans (ih.mpr ⟨hrest, hnot⟩)))
                rfl
      | none =>
          have hnone := splitLast_eq_none.mp hs
          constructor
          · intro h
            by_cases ha : a = x
            · rw [if_pos ha] at h
              obtain ⟨rfl, rfl⟩ := Prod.mk.inj (Option.some.inj h)
              exact ⟨by rw [ha, List.nil_append], hnone⟩
            · rw [if_neg ha] at h
              cases h
          · rintro ⟨hl, hnot⟩
            cases before with
            | nil =>
                obtain ⟨rfl, rfl⟩ := List.cons.inj hl
                exact if_pos rfl
            | cons b' before =>
                obtain ⟨_, hrest⟩ := List.cons.inj hl
                refine absurd ?_ hnone
                rw [hrest]
                exact List.mem_append_right _ List.mem_cons_self

/-- What is split at every `x` has no `x` left. -/
theorem not_mem_of_mem_splitOn {l part : List α} (h : part ∈ l.splitOn x) : x ∉ part := by
  induction l generalizing part with
  | nil =>
      rw [List.mem_singleton.mp h]
      exact List.not_mem_nil
  | cons a l ih =>
      rw [List.splitOn_cons_eq_if_modifyHead] at h
      by_cases ha : a = x
      · rw [if_pos (beq_iff_eq.mpr ha)] at h
        rcases List.mem_cons.mp h with rfl | h
        · exact List.not_mem_nil
        · exact ih h
      · rw [if_neg (fun hax => ha (beq_iff_eq.mp hax))] at h
        cases hs : l.splitOn x with
        | nil => exact absurd hs (List.splitOn_ne_nil x l)
        | cons first parts =>
            rw [hs] at h ih
            rcases List.mem_cons.mp h with rfl | h
            · rw [List.mem_cons, not_or]
              exact ⟨fun hxa => ha hxa.symm, ih List.mem_cons_self⟩
            · exact ih (List.mem_cons_of_mem _ h)

/-! ## Padding -/

section Trim

omit [DecidableEq α]

variable (p : α → Bool)

/-- Take the padding away at both ends. -/
def trim (l : List α) : List α := (l.dropWhile p).rdropWhile p

/-- Padding and nothing else. -/
def Blank (l : List α) : Prop := ∀ a ∈ l, p a = true

/-- No padding at either end. -/
def Bare (l : List α) : Prop := l.dropWhile p = l ∧ l.rdropWhile p = l

variable {p} {l pad pad' : List α}

theorem Blank.append (h : Blank p pad) (h' : Blank p pad') : Blank p (pad ++ pad') := by
  intro a ha
  rcases List.mem_append.mp ha with ha | ha
  · exact h a ha
  · exact h' a ha

theorem rdropWhile_append_blank (hpad : Blank p pad) :
    (l ++ pad).rdropWhile p = l.rdropWhile p := by
  have hblank : ∀ a ∈ pad.reverse, p a = true := fun a ha => hpad a (List.mem_reverse.mp ha)
  rw [List.rdropWhile, List.reverse_append, List.dropWhile_append_of_pos hblank, List.rdropWhile]

/-- A part that begins with no padding goes on beginning with none. -/
theorem dropWhile_append_bare (hl : l.dropWhile p = l) (hne : l ≠ []) :
    (l ++ pad).dropWhile p = l ++ pad := by
  cases l with
  | nil => exact absurd rfl hne
  | cons a l =>
      have ha : ¬ p a = true := by
        intro ha
        rw [List.dropWhile_cons_of_pos ha] at hl
        have hlen := (List.dropWhile_sublist p (l := l)).length_le
        rw [hl, List.length_cons] at hlen
        omega
      exact List.dropWhile_cons_of_neg ha

theorem trim_blank (hpad : Blank p pad) : trim p pad = [] := by
  rw [trim, List.dropWhile_eq_nil_iff.mpr hpad, List.rdropWhile_nil]

/-- **TRIMMING WHAT IS PADDED** gives the part. -/
theorem trim_pad (hpad : Blank p pad) (hpad' : Blank p pad') (hl : Bare p l) :
    trim p (pad ++ l ++ pad') = l := by
  by_cases hne : l = []
  · subst hne
    rw [List.append_nil]
    exact trim_blank (hpad.append hpad')
  · rw [trim, List.append_assoc, List.dropWhile_append_of_pos hpad,
      dropWhile_append_bare hl.1 hne, rdropWhile_append_blank hpad', hl.2]

/-- What is left is without padding. -/
theorem bare_trim (l : List α) : Bare p (trim p l) := by
  refine ⟨?_, List.rdropWhile_idempotent p _⟩
  rw [List.dropWhile_eq_self_iff]
  intro hpos
  have hne : l.dropWhile p ≠ [] := by
    intro hnil
    rw [trim, hnil, List.rdropWhile_nil] at hpos
    exact Nat.lt_irrefl 0 hpos
  have hhead : (trim p l)[0] = (l.dropWhile p).head hne := by
    rw [List.head_eq_getElem]
    exact (List.rdropWhile_prefix p (l.dropWhile p)).getElem hpos
  rw [hhead]
  rw [List.head_dropWhile_not p hne]
  exact Bool.false_ne_true

/-- **A SEQUENCE IS A PART AND ITS PADDING.** -/
theorem exists_pad (p : α → Bool) (l : List α) :
    ∃ pad pad', Blank p pad ∧ Blank p pad' ∧ l = pad ++ trim p l ++ pad' := by
  refine ⟨l.takeWhile p, (l.dropWhile p).rtakeWhile p, ?_, ?_, ?_⟩
  · exact fun a ha => List.mem_takeWhile_imp ha
  · exact fun a ha => List.mem_rtakeWhile_imp ha
  · rw [trim, List.append_assoc, List.rdropWhile_append_rtakeWhile,
      List.takeWhile_append_dropWhile]

end Trim

end Delimited
