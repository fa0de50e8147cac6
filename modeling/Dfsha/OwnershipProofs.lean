import Mathlib.Data.List.Basic
import Mathlib.Data.List.Nodup
import Mathlib.Data.List.Perm.Basic
import Mathlib.Logic.Function.Basic

/-! # Things with one owner

    A family of lists in which everything occurs at most once: each list is
    without repetitions and no two lists share an element.  `Separate` is kept
    by the four moves that a program makes on such a family: forget, bring in
    something new, hand over from one list to another and throw the rest
    away. -/

namespace Ownership

variable {ι κ α β : Type}

/-- Every element occurs once in one list. -/
structure Separate (F : ι → List α) : Prop where
  nodup : ∀ i, (F i).Nodup
  owner : ∀ i j x, x ∈ F i → x ∈ F j → i = j

theorem separate_empty : Separate (fun _ : ι => ([] : List α)) where
  nodup := fun _ => List.nodup_nil
  owner := fun _ _ _ h => absurd h List.not_mem_nil

/-- Forgetting elements keeps a family separate. -/
theorem Separate.mono {F G : ι → List α} (h : Separate F)
    (hs : ∀ i, (G i).Sublist (F i)) : Separate G where
  nodup := fun i => (h.nodup i).sublist (hs i)
  owner := fun i j x hi hj => h.owner i j x ((hs i).subset hi) ((hs j).subset hj)

variable [DecidableEq ι]

theorem mem_update {F : ι → List α} {i j : ι} {l : List α} {x : α}
    (h : x ∈ Function.update F i l j) : (j = i ∧ x ∈ l) ∨ (j ≠ i ∧ x ∈ F j) := by
  by_cases hj : j = i
  · subst hj
    rw [Function.update_self] at h
    exact .inl ⟨rfl, h⟩
  · rw [Function.update_of_ne hj] at h
    exact .inr ⟨hj, h⟩

/-- An owner whose list is replaced by new elements. -/
theorem Separate.renew {F : ι → List α} (h : Separate F) {i : ι} {l : List α}
    (hnd : l.Nodup) (hnew : ∀ x ∈ l, ∀ j, x ∉ F j) :
    Separate (Function.update F i l) where
  nodup := by
    intro j
    by_cases hj : j = i
    · subst hj
      rw [Function.update_self]
      exact hnd
    · rw [Function.update_of_ne hj]
      exact h.nodup j
  owner := by
    intro j k x hxj hxk
    rcases mem_update hxj with ⟨rfl, hj⟩ | ⟨_, hj⟩
    · rcases mem_update hxk with ⟨rfl, _⟩ | ⟨_, hk⟩
      · rfl
      · exact absurd hk (hnew x hj k)
    · rcases mem_update hxk with ⟨rfl, hk⟩ | ⟨_, hk⟩
      · exact absurd hj (hnew x hk j)
      · exact h.owner j k x hj hk

/-- What an owner gives up is nowhere. -/
theorem Separate.dropped {F : ι → List α} (h : Separate F) {i : ι} {x : α}
    (hx : x ∈ F i) (j : ι) : x ∉ Function.update F i [] j := by
  intro hj
  rcases mem_update hj with ⟨_, hj⟩ | ⟨hne, hj⟩
  · exact absurd hj List.not_mem_nil
  · exact hne (h.owner j i x hj hx)

section HandOver

variable {F : ι → List α} {i j : ι} {l rest : List α}

/-- `j` hands its elements to `i`, which keeps `l` of them and its own and
    throws `rest` away. -/
theorem Separate.handOver (h : Separate F) (hij : i ≠ j)
    (hperm : (l ++ rest).Perm (F i ++ F j)) :
    Separate (Function.update (Function.update F i l) j []) := by
  have hboth : (F i ++ F j).Nodup := by
    refine List.nodup_append.mpr ⟨h.nodup i, h.nodup j, ?_⟩
    intro x hx y hy hxy
    exact hij (h.owner i j x hx (hxy ▸ hy))
  have hl : l.Nodup := ((hperm.nodup_iff).mpr hboth).sublist (List.sublist_append_left _ _)
  have hmem : ∀ x, x ∈ l → x ∈ F i ∨ x ∈ F j := fun x hx =>
    List.mem_append.mp (hperm.subset (List.mem_append_left _ hx))
  refine ⟨?_, ?_⟩
  · intro k
    by_cases hk : k = j
    · subst hk
      rw [Function.update_self]
      exact List.nodup_nil
    · rw [Function.update_of_ne hk]
      by_cases hk' : k = i
      · subst hk'
        rw [Function.update_self]
        exact hl
      · rw [Function.update_of_ne hk']
        exact h.nodup k
  · intro a b x hxa hxb
    rcases mem_update hxa with ⟨_, hxa⟩ | ⟨haj, hxa⟩
    · exact absurd hxa List.not_mem_nil
    rcases mem_update hxb with ⟨_, hxb⟩ | ⟨hbj, hxb⟩
    · exact absurd hxb List.not_mem_nil
    rcases mem_update hxa with ⟨rfl, hla⟩ | ⟨_, hla⟩
    · rcases mem_update hxb with ⟨rfl, _⟩ | ⟨_, hlb⟩
      · rfl
      · rcases hmem x hla with hx | hx
        · exact h.owner _ _ x hx hlb
        · exact absurd (h.owner _ _ x hlb hx) hbj
    · rcases mem_update hxb with ⟨rfl, hlb⟩ | ⟨_, hlb⟩
      · rcases hmem x hlb with hx | hx
        · exact h.owner _ _ x hla hx
        · exact absurd (h.owner _ _ x hla hx) haj
      · exact h.owner _ _ x hla hlb

/-- What is thrown away in a hand-over had an owner and has none any more. -/
theorem Separate.thrownAway (h : Separate F) (hij : i ≠ j)
    (hperm : (l ++ rest).Perm (F i ++ F j)) {x : α} (hx : x ∈ rest) :
    (x ∈ F i ∨ x ∈ F j) ∧
      ∀ k, x ∉ Function.update (Function.update F i l) j [] k := by
  have hboth : (F i ++ F j).Nodup := by
    refine List.nodup_append.mpr ⟨h.nodup i, h.nodup j, ?_⟩
    intro y hy z hz hyz
    exact hij (h.owner i j y hy (hyz ▸ hz))
  have hl := List.nodup_append.mp ((hperm.nodup_iff).mpr hboth)
  have hfrom : x ∈ F i ∨ x ∈ F j :=
    List.mem_append.mp (hperm.subset (List.mem_append_right _ hx))
  refine ⟨hfrom, ?_⟩
  intro k hk
  rcases mem_update hk with ⟨_, hk⟩ | ⟨hkj, hk⟩
  · exact absurd hk List.not_mem_nil
  rcases mem_update hk with ⟨_, hk⟩ | ⟨hki, hk⟩
  · exact hl.2.2 x hk x hx rfl
  · rcases hfrom with hfrom | hfrom
    · exact hki (h.owner _ _ x hk hfrom)
    · exact hkj (h.owner _ _ x hk hfrom)

end HandOver

omit [DecidableEq ι] in
/-- A list of entries with different keys lists every element once when each
    entry lists what the owner named by its key has. -/
theorem Separate.nodup_flatMap {F : ι → List α} (h : Separate F)
    {entries : List (κ × β)} (hkeys : (entries.map Prod.fst).Nodup)
    {name : κ → ι} (hname : Function.Injective name) {held : κ × β → List α}
    (hheld : ∀ e ∈ entries, held e = F (name e.1)) :
    (entries.flatMap held).Nodup := by
  rw [List.nodup_flatMap]
  refine ⟨fun e he => (hheld e he).symm ▸ h.nodup _, ?_⟩
  have hpair : entries.Pairwise fun a b => a.1 ≠ b.1 :=
    List.pairwise_map.mp hkeys
  refine List.Pairwise.imp_of_mem ?_ hpair
  intro a b ha hb hne
  show List.Disjoint (held a) (held b)
  rw [hheld a ha, hheld b hb]
  intro x hxa hxb
  exact hne (hname (h.owner _ _ x hxa hxb))

/-- What the last step of a run brings in is new. -/
theorem nodup_flatMap_concat {f : κ → List α} {ks : List κ} {k : κ}
    (h : ((ks ++ [k]).flatMap f).Nodup) :
    (ks.flatMap f).Nodup ∧ (f k).Nodup ∧ ∀ x ∈ f k, x ∉ ks.flatMap f := by
  rw [List.flatMap_append, List.flatMap_singleton] at h
  obtain ⟨h₁, h₂, h₃⟩ := List.nodup_append.mp h
  exact ⟨h₁, h₂, fun x hx hx' => h₃ x hx' x hx rfl⟩

end Ownership
