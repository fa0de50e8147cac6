import Dfsha.InsertionDictProofs
import Mathlib.Data.List.Infix
import Mathlib.Data.List.Perm.Basic
import Mathlib.Tactic.Tauto

/-! # Trees of named children

    A directory tree in the abstract: inner nodes carry data and an
    insertion-ordered list of named children, leaves carry a payload.  A
    path is a list of names from the root.

    The nested tree is what a program builds and walks; what it MEANS is its
    view, the partial function from paths to the data of the node there.
    Every operation below is given its effect on the view, so a client
    reasons about paths and never unfolds the nesting again.  `Tree` bundles
    a root that is a directory with the uniqueness of names under every
    directory, both kept by construction. -/

namespace NamedTree

open InsertionDict

variable {κ δ φ : Type} [DecidableEq κ]

/-- A node: a directory with named children, or a file. -/
inductive Node (κ δ φ : Type) where
  | dir (d : δ) (children : List (κ × Node κ δ φ))
  | file (f : φ)

/-- What a node says about itself, its children left out. -/
inductive Entry (δ φ : Type) where
  | dir (d : δ)
  | file (f : φ)
deriving DecidableEq

namespace Node

def label : Node κ δ φ → Entry δ φ
  | .dir d _ => .dir d
  | .file f => .file f

def children : Node κ δ φ → List (κ × Node κ δ φ)
  | .dir _ cs => cs
  | .file _ => []

/-- The node at a path. -/
def get? : Node κ δ φ → List κ → Option (Node κ δ φ)
  | n, [] => some n
  | .file _, _ :: _ => none
  | .dir _ cs, k :: ks =>
      match assocGet cs k with
      | none => none
      | some c => c.get? ks

/-- The data of the node at a path. -/
def view (n : Node κ δ φ) (p : List κ) : Option (Entry δ φ) :=
  (n.get? p).map label

/-- Rewrite the children of the directory at a path. -/
def modifyChildren : Node κ δ φ → List κ →
    (List (κ × Node κ δ φ) → List (κ × Node κ δ φ)) → Node κ δ φ
  | .file f, _, _ => .file f
  | .dir d cs, [], g => .dir d (g cs)
  | .dir d cs, k :: ks, g =>
      match assocGet cs k with
      | none => .dir d cs
      | some c => .dir d (assocSet cs k (c.modifyChildren ks g))

/-- Store a child under a name, replacing the one that had it. -/
def putChild (n : Node κ δ φ) (p : List κ) (k : κ) (m : Node κ δ φ) :
    Node κ δ φ :=
  n.modifyChildren p fun cs => assocSet cs k m

/-- Delete the child of a name. -/
def dropChild (n : Node κ δ φ) (p : List κ) (k : κ) : Node κ δ φ :=
  n.modifyChildren p fun cs => assocErase cs k

/-- Replace the data of the directory at a path, keeping its children. -/
def setData : Node κ δ φ → List κ → δ → Node κ δ φ
  | .file f, _, _ => .file f
  | .dir _ cs, [], d => .dir d cs
  | .dir d₀ cs, k :: ks, d =>
      match assocGet cs k with
      | none => .dir d₀ cs
      | some c => .dir d₀ (assocSet cs k (c.setData ks d))

mutual
/-- All files with their paths, in the order of a depth-first walk. -/
def files : Node κ δ φ → List (List κ × φ)
  | .file f => [([], f)]
  | .dir _ cs => filesIn cs
def filesIn : List (κ × Node κ δ φ) → List (List κ × φ)
  | [] => []
  | (k, n) :: rest =>
      (files n).map (fun e => (k :: e.1, e.2)) ++ filesIn rest
end

mutual
/-- No directory has two children of one name. -/
def Unique : Node κ δ φ → Prop
  | .file _ => True
  | .dir _ cs => (cs.map Prod.fst).Nodup ∧ UniqueIn cs
def UniqueIn : List (κ × Node κ δ φ) → Prop
  | [] => True
  | (_, n) :: rest => Unique n ∧ UniqueIn rest
end

/-! ## The view of a node -/

@[simp] theorem view_nil (n : Node κ δ φ) : n.view [] = some n.label := by
  cases n <;> rfl

@[simp] theorem view_file_cons (f : φ) (k : κ) (ks : List κ) :
    (Node.file f : Node κ δ φ).view (k :: ks) = none := rfl

theorem view_dir_cons (d : δ) (cs : List (κ × Node κ δ φ)) (k : κ)
    (ks : List κ) :
    (Node.dir d cs).view (k :: ks) = (assocGet cs k).bind fun c => c.view ks := by
  show ((Node.dir d cs).get? (k :: ks)).map label = _
  rw [get?]
  cases assocGet cs k with
  | none => rfl
  | some c => rfl

/-- A node whose own data is a directory is one. -/
theorem eq_dir_of_view_nil {n : Node κ δ φ} {d : δ}
    (h : n.view [] = some (.dir d)) : ∃ cs, n = .dir d cs := by
  cases n with
  | file f => exact nomatch h
  | dir d' cs =>
      rw [view_nil] at h
      have hd : d' = d := by simpa [label] using h
      exact ⟨cs, by rw [hd]⟩

/-- What is below a path is a view of the node there. -/
theorem view_append (n : Node κ δ φ) (p q : List κ) :
    n.view (p ++ q) = (n.get? p).bind fun m => m.view q := by
  induction p generalizing n with
  | nil => cases n <;> rfl
  | cons k ks ih =>
      cases n with
      | file f => rfl
      | dir d cs =>
          rw [List.cons_append, view_dir_cons, get?]
          cases assocGet cs k with
          | none => rfl
          | some c => exact ih c

/-- Every proper ancestor of an existing node is a directory. -/
theorem view_ancestor {n : Node κ δ φ} {p : List κ} {k : κ} {q : List κ}
    {e : Entry δ φ} (h : n.view (p ++ k :: q) = some e) :
    ∃ d, n.view p = some (.dir d) := by
  rw [view_append] at h
  cases hp : n.get? p with
  | none => rw [hp] at h; exact nomatch h
  | some m =>
      rw [hp] at h
      cases m with
      | file f => exact nomatch h
      | dir d cs => exact ⟨d, by rw [view, hp]; rfl⟩

/-- A directory at the head of a path leads to the child that has the rest. -/
theorem view_cons_eq_some {d : δ} {cs : List (κ × Node κ δ φ)} {k : κ}
    {ks : List κ} {e : Entry δ φ}
    (h : (Node.dir d cs).view (k :: ks) = some e) :
    ∃ c, assocGet cs k = some c ∧ c.view ks = some e := by
  rw [view_dir_cons] at h
  cases hc : assocGet cs k with
  | none => rw [hc] at h; exact nomatch h
  | some c => rw [hc] at h; exact ⟨c, rfl, h⟩

theorem view_putChild {n : Node κ δ φ} {p : List κ} {d : δ} (k : κ)
    (m : Node κ δ φ) (h : n.view p = some (.dir d)) (q : List κ) :
    (n.putChild p k m).view q
      = if p ++ [k] <+: q then m.view (q.drop (p.length + 1)) else n.view q := by
  induction p generalizing n q with
  | nil =>
      obtain ⟨cs, rfl⟩ := eq_dir_of_view_nil h
      show (Node.dir d (assocSet cs k m)).view q = _
      cases q with
      | nil => rfl
      | cons k' q =>
          rw [view_dir_cons, view_dir_cons]
          by_cases hk : k' = k
          · subst hk
            simp
          · rw [assocGet_assocSet_ne cs m hk, if_neg]
            intro hpre
            rw [List.nil_append, List.cons_prefix_cons] at hpre
            exact hk hpre.1.symm
  | cons k₀ p ih =>
      cases n with
      | file f => cases h
      | dir d₀ cs =>
          obtain ⟨c, hc, hcp⟩ := view_cons_eq_some h
          have hput : (Node.dir d₀ cs).putChild (k₀ :: p) k m
              = .dir d₀ (assocSet cs k₀ (c.putChild p k m)) := by
            rw [putChild, modifyChildren, hc]
            rfl
          rw [hput]
          cases q with
          | nil => rfl
          | cons k' q =>
              rw [view_dir_cons, view_dir_cons]
              by_cases hk : k' = k₀
              · subst hk
                rw [assocGet_assocSet_self, hc]
                simp only [Option.bind_some, List.cons_append,
                  List.cons_prefix_cons, true_and, List.length_cons,
                  List.drop_succ_cons]
                exact ih hcp q
              · rw [assocGet_assocSet_ne cs _ hk, if_neg]
                intro hpre
                rw [List.cons_append, List.cons_prefix_cons] at hpre
                exact hk hpre.1.symm

theorem view_dropChild {n : Node κ δ φ} {p : List κ} {d : δ} (k : κ)
    (h : n.view p = some (.dir d)) (q : List κ) :
    (n.dropChild p k).view q = if p ++ [k] <+: q then none else n.view q := by
  induction p generalizing n q with
  | nil =>
      obtain ⟨cs, rfl⟩ := eq_dir_of_view_nil h
      show (Node.dir d (assocErase cs k)).view q = _
      cases q with
      | nil => rfl
      | cons k' q =>
          rw [view_dir_cons, view_dir_cons]
          by_cases hk : k' = k
          · subst hk
            simp
          · rw [assocGet_assocErase_ne cs hk, if_neg]
            intro hpre
            rw [List.nil_append, List.cons_prefix_cons] at hpre
            exact hk hpre.1.symm
  | cons k₀ p ih =>
      cases n with
      | file f => cases h
      | dir d₀ cs =>
          obtain ⟨c, hc, hcp⟩ := view_cons_eq_some h
          have hdrop : (Node.dir d₀ cs).dropChild (k₀ :: p) k
              = .dir d₀ (assocSet cs k₀ (c.dropChild p k)) := by
            rw [dropChild, modifyChildren, hc]
            rfl
          rw [hdrop]
          cases q with
          | nil => rfl
          | cons k' q =>
              rw [view_dir_cons, view_dir_cons]
              by_cases hk : k' = k₀
              · subst hk
                rw [assocGet_assocSet_self, hc]
                simp only [Option.bind_some, List.cons_append,
                  List.cons_prefix_cons, true_and]
                exact ih hcp q
              · rw [assocGet_assocSet_ne cs _ hk, if_neg]
                intro hpre
                rw [List.cons_append, List.cons_prefix_cons] at hpre
                exact hk hpre.1.symm

theorem view_setData {n : Node κ δ φ} {p : List κ} {d₁ : δ} (d : δ)
    (h : n.view p = some (.dir d₁)) (q : List κ) :
    (n.setData p d).view q = if q = p then some (.dir d) else n.view q := by
  induction p generalizing n q with
  | nil =>
      obtain ⟨cs, rfl⟩ := eq_dir_of_view_nil h
      cases q with
      | nil => rfl
      | cons k' q => rfl
  | cons k₀ p ih =>
      cases n with
      | file f => exact nomatch h
      | dir d₀ cs =>
          obtain ⟨c, hc, hcp⟩ := view_cons_eq_some h
          have hset : (Node.dir d₀ cs).setData (k₀ :: p) d
              = .dir d₀ (assocSet cs k₀ (c.setData p d)) := by
            rw [setData, hc]
          rw [hset]
          cases q with
          | nil => rfl
          | cons k' q =>
              rw [view_dir_cons, view_dir_cons]
              by_cases hk : k' = k₀
              · subst hk
                rw [assocGet_assocSet_self, hc]
                simp only [Option.bind_some, List.cons.injEq, true_and]
                exact ih hcp q
              · rw [assocGet_assocSet_ne cs _ hk, if_neg]
                intro heq
                exact hk (List.cons.inj heq).1

/-! ## Unique names -/

omit [DecidableEq κ] in
theorem uniqueIn_iff {cs : List (κ × Node κ δ φ)} :
    UniqueIn cs ↔ ∀ e ∈ cs, e.2.Unique := by
  induction cs with
  | nil => simp [UniqueIn]
  | cons hd rest ih =>
      obtain ⟨k, n⟩ := hd
      simp [UniqueIn, ih]

theorem uniqueIn_assocSet {cs : List (κ × Node κ δ φ)} {k : κ}
    {m : Node κ δ φ} (hcs : UniqueIn cs) (hm : m.Unique) :
    UniqueIn (assocSet cs k m) := by
  rw [uniqueIn_iff] at hcs ⊢
  intro e he
  rcases mem_assocSet he with hnew | hold
  · rw [hnew]
    exact hm
  · exact hcs e hold

theorem unique_modifyChildren {n : Node κ δ φ} {p : List κ}
    {g : List (κ × Node κ δ φ) → List (κ × Node κ δ φ)}
    (hg : ∀ cs, (cs.map Prod.fst).Nodup → UniqueIn cs →
      ((g cs).map Prod.fst).Nodup ∧ UniqueIn (g cs))
    (hn : n.Unique) : (n.modifyChildren p g).Unique := by
  induction p generalizing n with
  | nil =>
      cases n with
      | file f => exact hn
      | dir d cs =>
          obtain ⟨hnd, hin⟩ := hn
          exact hg cs hnd hin
  | cons k ks ih =>
      cases n with
      | file f => exact hn
      | dir d cs =>
          rw [modifyChildren]
          cases hc : assocGet cs k with
          | none => exact hn
          | some c =>
              obtain ⟨hnd, hin⟩ := hn
              have hcu : c.Unique :=
                uniqueIn_iff.mp hin (k, c) (assocGet_eq_some_mem hc)
              exact ⟨nodup_assocSet hnd k _, uniqueIn_assocSet hin (ih hcu)⟩

theorem unique_putChild {n m : Node κ δ φ} (p : List κ) (k : κ)
    (hn : n.Unique) (hm : m.Unique) : (n.putChild p k m).Unique :=
  unique_modifyChildren
    (fun _ hnd hin => ⟨nodup_assocSet hnd k m, uniqueIn_assocSet hin hm⟩) hn

theorem unique_dropChild {n : Node κ δ φ} (p : List κ) (k : κ)
    (hn : n.Unique) : (n.dropChild p k).Unique :=
  unique_modifyChildren
    (fun _ hnd hin => ⟨nodup_filter_keys hnd _, uniqueIn_iff.mpr fun e he =>
      uniqueIn_iff.mp hin e (List.mem_of_mem_filter he)⟩) hn

theorem unique_setData {n : Node κ δ φ} (p : List κ) (d : δ)
    (hn : n.Unique) : (n.setData p d).Unique := by
  induction p generalizing n with
  | nil =>
      cases n with
      | file f => exact hn
      | dir d₀ cs => exact hn
  | cons k ks ih =>
      cases n with
      | file f => exact hn
      | dir d₀ cs =>
          rw [setData]
          cases hc : assocGet cs k with
          | none => exact hn
          | some c =>
              obtain ⟨hnd, hin⟩ := hn
              have hcu : c.Unique :=
                uniqueIn_iff.mp hin (k, c) (assocGet_eq_some_mem hc)
              exact ⟨nodup_assocSet hnd k _, uniqueIn_assocSet hin (ih hcu)⟩

theorem label_modifyChildren (n : Node κ δ φ) (p : List κ)
    (g : List (κ × Node κ δ φ) → List (κ × Node κ δ φ)) :
    (n.modifyChildren p g).label = n.label := by
  cases n with
  | file f => cases p <;> rfl
  | dir d cs =>
      cases p with
      | nil => rfl
      | cons k ks =>
          rw [modifyChildren]
          cases assocGet cs k <;> rfl

theorem unique_get? {n m : Node κ δ φ} {p : List κ} (hn : n.Unique)
    (h : n.get? p = some m) : m.Unique := by
  induction p generalizing n with
  | nil =>
      rw [show n.get? [] = some n by cases n <;> rfl] at h
      rw [← Option.some.inj h]
      exact hn
  | cons k ks ih =>
      cases n with
      | file f => exact nomatch h
      | dir d cs =>
          rw [get?] at h
          cases hc : assocGet cs k with
          | none => rw [hc] at h; exact nomatch h
          | some c =>
              rw [hc] at h
              exact ih (uniqueIn_iff.mp hn.2 (k, c) (assocGet_eq_some_mem hc)) h

/-! ## The walk over all files -/

mutual
theorem mem_files_iff (n : Node κ δ φ) (hn : n.Unique) (q : List κ) (f : φ) :
    (q, f) ∈ n.files ↔ n.view q = some (.file f) := by
  cases n with
  | file f' =>
      cases q with
      | nil =>
          rw [files, List.mem_singleton, view_nil, label]
          constructor
          · intro h
            rw [(Prod.mk.inj h).2]
          · intro h
            have hf : f' = f := by simpa using h
            rw [hf]
      | cons k q => simp [files]
  | dir d cs =>
      rw [files, mem_filesIn_iff cs hn.2 q f]
      cases q with
      | nil => simp [label]
      | cons k q =>
          rw [view_dir_cons]
          constructor
          · rintro ⟨k', q', c, hq, hc, hv⟩
            obtain ⟨rfl, rfl⟩ := List.cons.inj hq
            rw [assocGet_of_mem hn.1 hc]
            exact hv
          · intro h
            cases hc : assocGet cs k with
            | none => rw [hc] at h; exact nomatch h
            | some c =>
                rw [hc] at h
                exact ⟨k, q, c, rfl, assocGet_eq_some_mem hc, h⟩
theorem mem_filesIn_iff (cs : List (κ × Node κ δ φ)) (hcs : UniqueIn cs)
    (q : List κ) (f : φ) :
    (q, f) ∈ filesIn cs ↔
      ∃ k q' c, q = k :: q' ∧ (k, c) ∈ cs ∧ c.view q' = some (.file f) := by
  cases cs with
  | nil => simp [filesIn]
  | cons hd rest =>
      obtain ⟨k, n⟩ := hd
      rw [filesIn, List.mem_append, mem_filesIn_iff rest hcs.2 q f]
      constructor
      · rintro (hmem | ⟨k', q', c, hq, hc, hv⟩)
        · obtain ⟨e, he, heq⟩ := List.mem_map.mp hmem
          have hq : k :: e.1 = q := congrArg Prod.fst heq
          have hf : e.2 = f := congrArg Prod.snd heq
          refine ⟨k, e.1, n, hq.symm, List.mem_cons_self, ?_⟩
          rw [← hf]
          exact (mem_files_iff n hcs.1 e.1 e.2).mp he
        · exact ⟨k', q', c, hq, List.mem_cons_of_mem _ hc, hv⟩
      · rintro ⟨k', q', c, hq, hc, hv⟩
        rcases List.mem_cons.mp hc with heq | hmem
        · obtain ⟨rfl, rfl⟩ := Prod.mk.inj heq
          refine Or.inl (List.mem_map.mpr ⟨(q', f), ?_, by rw [hq]⟩)
          exact (mem_files_iff c hcs.1 q' f).mpr hv
        · exact Or.inr ⟨k', q', c, hq, hmem, hv⟩
end

set_option linter.unusedSectionVars false in
mutual
/-- The walk visits no path twice. -/
theorem nodup_files (n : Node κ δ φ) (hn : n.Unique) :
    (n.files.map Prod.fst).Nodup := by
  cases n with
  | file f => simp [files]
  | dir d cs =>
      rw [files]
      exact nodup_filesIn cs hn.1 hn.2
theorem nodup_filesIn (cs : List (κ × Node κ δ φ))
    (hnd : (cs.map Prod.fst).Nodup) (hcs : UniqueIn cs) :
    ((filesIn cs).map Prod.fst).Nodup := by
  cases cs with
  | nil => simp [filesIn]
  | cons hd rest =>
      obtain ⟨k, n⟩ := hd
      rw [List.map_cons, List.nodup_cons] at hnd
      rw [filesIn, List.map_append, List.nodup_append]
      refine ⟨?_, nodup_filesIn rest hnd.2 hcs.2, ?_⟩
      · have hmap : ((n.files.map fun e => (k :: e.1, e.2)).map Prod.fst)
            = (n.files.map Prod.fst).map fun q => k :: q := by
          rw [List.map_map, List.map_map]
          rfl
        rw [hmap]
        exact (nodup_files n hcs.1).map fun _ _ h => (List.cons.inj h).2
      · -- a path of the first child starts with its name, which no other has
        intro q hq q₂ hq₂ heq
        obtain ⟨e, he, rfl⟩ := List.mem_map.mp hq
        obtain ⟨e₀, -, rfl⟩ := List.mem_map.mp he
        obtain ⟨⟨q₃, f⟩, he₂, rfl⟩ := List.mem_map.mp hq₂
        obtain ⟨k', q', c, hq', hc, -⟩ := (mem_filesIn_iff rest hcs.2 q₃ f).mp he₂
        have hk : k = k' := (List.cons.inj (heq.trans hq')).1
        exact hnd.1 (List.mem_map.mpr ⟨(k', c), hc, hk.symm⟩)
end

/-! ## The walk after a file is replaced -/

/-- Change what a list of files with their paths says of one path. -/
def replaceAt (p : List κ) (f : φ) (l : List (List κ × φ)) : List (List κ × φ) :=
  l.map fun e => if e.1 = p then (e.1, f) else e

/-- The files below one name, when those of another are replaced. -/
theorem replaceAt_below_ne {k k' : κ} (hne : k' ≠ k) (p : List κ) (f : φ)
    (l : List (List κ × φ)) :
    replaceAt (k :: p) f (l.map fun e => (k' :: e.1, e.2))
      = l.map fun e => (k' :: e.1, e.2) := by
  rw [replaceAt, List.map_map]
  refine List.map_congr_left fun e _ => ?_
  exact if_neg fun h => hne (List.cons.inj h).1

theorem replaceAt_below (k : κ) (p : List κ) (f : φ) (l : List (List κ × φ)) :
    replaceAt (k :: p) f (l.map fun e => (k :: e.1, e.2))
      = (replaceAt p f l).map fun e => (k :: e.1, e.2) := by
  rw [replaceAt, replaceAt, List.map_map, List.map_map]
  refine List.map_congr_left fun e _ => ?_
  show (if k :: e.1 = k :: p then (k :: e.1, f) else (k :: e.1, e.2)) = _
  by_cases he : e.1 = p
  · rw [if_pos (by rw [he]), Function.comp_apply, if_pos he]
  · rw [if_neg fun h => he (List.cons.inj h).2, Function.comp_apply, if_neg he]

/-- No file of a directory is below a name it does not have. -/
theorem replaceAt_filesIn_of_notMem {cs : List (κ × Node κ δ φ)} {k : κ}
    (h : k ∉ cs.map Prod.fst) (p : List κ) (f : φ) :
    replaceAt (k :: p) f (filesIn cs) = filesIn cs := by
  induction cs with
  | nil => rfl
  | cons hd rest ih =>
      obtain ⟨k', n⟩ := hd
      rw [List.map_cons, List.mem_cons, not_or] at h
      rw [filesIn, replaceAt, List.map_append]
      show replaceAt _ _ _ ++ replaceAt _ _ _ = _
      rw [replaceAt_below_ne (Ne.symm h.1), ih h.2]

theorem filesIn_assocSet {cs : List (κ × Node κ δ φ)} (hcs : (cs.map Prod.fst).Nodup)
    {k : κ} {c c' : Node κ δ φ} (hk : assocGet cs k = some c) {p : List κ} {f : φ}
    (hc : files c' = replaceAt p f (files c)) :
    filesIn (assocSet cs k c') = replaceAt (k :: p) f (filesIn cs) := by
  induction cs with
  | nil => cases hk
  | cons hd rest ih =>
      obtain ⟨k', n⟩ := hd
      rw [List.map_cons, List.nodup_cons] at hcs
      rw [assocGet_cons] at hk
      rw [assocSet_cons]
      by_cases hkk : k' = k
      · obtain rfl := hkk
        rw [if_pos rfl] at hk
        obtain rfl := Option.some.inj hk
        rw [if_pos rfl, filesIn, filesIn, replaceAt, List.map_append]
        show _ = replaceAt _ _ _ ++ replaceAt _ _ _
        rw [replaceAt_below, hc, replaceAt_filesIn_of_notMem hcs.1]
      · rw [if_neg hkk] at hk ⊢
        rw [filesIn, filesIn, replaceAt, List.map_append]
        show _ = replaceAt _ _ _ ++ replaceAt _ _ _
        rw [replaceAt_below_ne hkk, ih hcs.2 hk]

/-- Storing a file where there is one keeps the order of the walk. -/
theorem files_putChild {n : Node κ δ φ} (hn : n.Unique) {p : List κ} {k : κ} {f₀ : φ}
    (h : n.view (p ++ [k]) = some (.file f₀)) (f : φ) :
    (n.putChild p k (.file f)).files = replaceAt (p ++ [k]) f n.files := by
  induction p generalizing n with
  | nil =>
      cases n with
      | file f' => cases h
      | dir d cs =>
          rw [List.nil_append, view_dir_cons] at h
          obtain ⟨c, hc, hv⟩ := Option.bind_eq_some_iff.mp h
          rw [view_nil] at hv
          cases c with
          | dir d' cs' => cases hv
          | file f' =>
              refine filesIn_assocSet hn.1 hc ?_
              show [([], f)] = [if ([] : List κ) = [] then ([], f) else ([], f')]
              rw [if_pos rfl]
  | cons k' p ih =>
      cases n with
      | file f' => cases h
      | dir d cs =>
          rw [List.cons_append, view_dir_cons] at h
          obtain ⟨c, hc, hv⟩ := Option.bind_eq_some_iff.mp h
          have hrec := ih (uniqueIn_iff.mp hn.2 _ (assocGet_eq_some_mem hc)) hv
          rw [putChild, modifyChildren, hc]
          exact filesIn_assocSet hn.1 hc hrec

end Node

/-! ## The bundled tree -/

/-- A tree whose root is a directory and whose names are unique. -/
structure Tree (κ δ φ : Type) where
  root : Node κ δ φ
  rootDir : ∃ d, root.label = .dir d
  unique : root.Unique

namespace Tree

/-- A root without children. -/
def leaf (d : δ) : Tree κ δ φ := ⟨.dir d [], ⟨d, rfl⟩, List.nodup_nil, trivial⟩

def view (t : Tree κ δ φ) (p : List κ) : Option (Entry δ φ) := t.root.view p

/-- The file at a path, if a file is there. -/
def fileAt (t : Tree κ δ φ) (p : List κ) : Option φ :=
  match t.view p with
  | some (.file f) => some f
  | _ => none

/-- The names under the directory at a path with what is stored there. -/
def childrenAt (t : Tree κ δ φ) (p : List κ) : List (κ × Entry δ φ) :=
  match t.root.get? p with
  | some n => n.children.map fun e => (e.1, e.2.label)
  | none => []

def files (t : Tree κ δ φ) : List (List κ × φ) := t.root.files

def putChild (t : Tree κ δ φ) (p : List κ) (k : κ) (m : Node κ δ φ)
    (hm : m.Unique) : Tree κ δ φ :=
  ⟨t.root.putChild p k m,
    by rw [Node.putChild, Node.label_modifyChildren]; exact t.rootDir,
    Node.unique_putChild p k t.unique hm⟩

/-- Store a file under a name of the directory at `p`. -/
def putFile (t : Tree κ δ φ) (p : List κ) (k : κ) (f : φ) : Tree κ δ φ :=
  t.putChild p k (.file f) trivial

/-- Store an empty directory under a name of the directory at `p`. -/
def putDir (t : Tree κ δ φ) (p : List κ) (k : κ) (d : δ) : Tree κ δ φ :=
  t.putChild p k (.dir d []) ⟨List.nodup_nil, trivial⟩

/-- Delete a name of the directory at `p`. -/
def remove (t : Tree κ δ φ) (p : List κ) (k : κ) : Tree κ δ φ :=
  ⟨t.root.dropChild p k,
    by rw [Node.dropChild, Node.label_modifyChildren]; exact t.rootDir,
    Node.unique_dropChild p k t.unique⟩

/-- Replace the data of the directory at `p`. -/
def setDir (t : Tree κ δ φ) (p : List κ) (d : δ) : Tree κ δ φ :=
  ⟨t.root.setData p d, by
      cases hr : t.root with
      | file f =>
          obtain ⟨d', hd⟩ := t.rootDir
          rw [hr] at hd
          exact nomatch hd
      | dir d₀ cs =>
          cases p with
          | nil => exact ⟨d, rfl⟩
          | cons k ks =>
              refine ⟨d₀, ?_⟩
              rw [Node.setData]
              cases assocGet cs k <;> rfl,
    Node.unique_setData p d t.unique⟩

theorem view_root (t : Tree κ δ φ) : ∃ d, t.view [] = some (.dir d) := by
  obtain ⟨d, hd⟩ := t.rootDir
  exact ⟨d, by rw [view, Node.view_nil, hd]⟩

theorem fileAt_eq_some {t : Tree κ δ φ} {p : List κ} {f : φ} :
    t.fileAt p = some f ↔ t.view p = some (.file f) := by
  unfold fileAt
  cases t.view p with
  | none => simp
  | some e => cases e <;> simp

/-- Every proper ancestor of an existing node is a directory. -/
theorem view_ancestor {t : Tree κ δ φ} {p : List κ} {k : κ} {q : List κ}
    {e : Entry δ φ} (h : t.view (p ++ k :: q) = some e) :
    ∃ d, t.view p = some (.dir d) := Node.view_ancestor h

/-- Nothing is below a path that holds nothing. -/
theorem view_below_none {t : Tree κ δ φ} {p q : List κ}
    (h : t.view p = none) : t.view (p ++ q) = none := by
  cases q with
  | nil => rw [List.append_nil]; exact h
  | cons k q =>
      cases hv : t.view (p ++ k :: q) with
      | none => rfl
      | some e =>
          obtain ⟨d, hd⟩ := view_ancestor hv
          rw [h] at hd
          exact nomatch hd

/-- Nothing is below a file. -/
theorem view_below_file {t : Tree κ δ φ} {p : List κ} {f : φ} {k : κ}
    {q : List κ} (h : t.view p = some (.file f)) : t.view (p ++ k :: q) = none := by
  cases hv : t.view (p ++ k :: q) with
  | none => rfl
  | some e =>
      obtain ⟨d, hd⟩ := view_ancestor hv
      rw [h] at hd
      exact nomatch hd

/-- Storing a leaf where no directory is changes that path only. -/
theorem view_putChild_leaf {t : Tree κ δ φ} {p : List κ} {k : κ}
    {m : Node κ δ φ} (hm : m.Unique) {d : δ} (hp : t.view p = some (.dir d))
    (hk : ∀ d', t.view (p ++ [k]) ≠ some (.dir d'))
    (hleaf : ∀ k' q, m.view (k' :: q) = none) (q : List κ) :
    (t.putChild p k m hm).view q
      = if q = p ++ [k] then some m.label else t.view q := by
  have hview := Node.view_putChild k m hp q
  rw [view, putChild, hview]
  by_cases hpre : p ++ [k] <+: q
  · obtain ⟨r, rfl⟩ := hpre
    rw [if_pos ⟨r, rfl⟩]
    have hlen : (p ++ [k]).length = p.length + 1 := by simp
    rw [← hlen, List.drop_left]
    cases r with
    | nil => rw [List.append_nil, if_pos rfl, Node.view_nil]
    | cons k' r =>
        rw [if_neg (by intro h; simpa using congrArg List.length h), hleaf]
        cases hv : t.view (p ++ [k] ++ k' :: r) with
        | none => rfl
        | some e =>
            obtain ⟨d', hd'⟩ := view_ancestor hv
            exact absurd hd' (hk d')
  · have hne : q ≠ p ++ [k] := by
      intro h
      exact hpre (h ▸ List.prefix_refl _)
    rw [if_neg hpre, if_neg hne]
    rfl

theorem view_putFile {t : Tree κ δ φ} {p : List κ} {k : κ} (f : φ) {d : δ}
    (hp : t.view p = some (.dir d))
    (hk : ∀ d', t.view (p ++ [k]) ≠ some (.dir d')) (q : List κ) :
    (t.putFile p k f).view q
      = if q = p ++ [k] then some (.file f) else t.view q :=
  view_putChild_leaf (m := .file f) trivial hp hk (fun _ _ => rfl) q

theorem view_putDir {t : Tree κ δ φ} {p : List κ} {k : κ} (d : δ) {d₀ : δ}
    (hp : t.view p = some (.dir d₀)) (hk : t.view (p ++ [k]) = none)
    (q : List κ) :
    (t.putDir p k d).view q
      = if q = p ++ [k] then some (.dir d) else t.view q :=
  view_putChild_leaf _ hp (fun d' h => by rw [hk] at h; exact nomatch h)
    (fun k' q => by rw [Node.view_dir_cons]; rfl) q

/-- Deleting a name removes the node there and all below it. -/
theorem view_remove {t : Tree κ δ φ} {p : List κ} {k : κ} {d : δ}
    (hp : t.view p = some (.dir d)) (q : List κ) :
    (t.remove p k).view q = if p ++ [k] <+: q then none else t.view q :=
  Node.view_dropChild k hp q

/-- Deleting a file removes that path only. -/
theorem view_remove_file {t : Tree κ δ φ} {p : List κ} {k : κ} {f : φ}
    (hf : t.view (p ++ [k]) = some (.file f)) (q : List κ) :
    (t.remove p k).view q = if q = p ++ [k] then none else t.view q := by
  obtain ⟨d, hp⟩ := view_ancestor hf
  rw [view_remove hp]
  by_cases hq : q = p ++ [k]
  · rw [if_pos hq, if_pos (hq ▸ List.prefix_refl _)]
  · rw [if_neg hq]
    by_cases hpre : p ++ [k] <+: q
    · obtain ⟨r, rfl⟩ := hpre
      rw [if_pos ⟨r, rfl⟩]
      cases r with
      | nil => exact absurd (List.append_nil _) hq
      | cons k' r => exact (view_below_file hf).symm
    · rw [if_neg hpre]

theorem view_setDir {t : Tree κ δ φ} {p : List κ} {d₁ : δ} (d : δ)
    (hp : t.view p = some (.dir d₁)) (q : List κ) :
    (t.setDir p d).view q = if q = p then some (.dir d) else t.view q :=
  Node.view_setData d hp q

theorem mem_files_iff (t : Tree κ δ φ) (q : List κ) (f : φ) :
    (q, f) ∈ t.files ↔ t.fileAt q = some f := by
  rw [fileAt_eq_some]
  exact Node.mem_files_iff t.root t.unique q f

theorem nodup_files (t : Tree κ δ φ) : (t.files.map Prod.fst).Nodup :=
  Node.nodup_files t.root t.unique

/-- Replacing a file keeps its place in the walk. -/
theorem files_putFile {t : Tree κ δ φ} {p : List κ} {k : κ} {f₀ : φ}
    (h : t.view (p ++ [k]) = some (.file f₀)) (f : φ) :
    (t.putFile p k f).files = Node.replaceAt (p ++ [k]) f t.files :=
  Node.files_putChild t.unique h f

/-- The listed children are what is one name below. -/
theorem mem_childrenAt {t : Tree κ δ φ} {p : List κ} {k : κ} {e : Entry δ φ} :
    (k, e) ∈ t.childrenAt p ↔ t.view (p ++ [k]) = some e := by
  rw [view, Node.view_append, childrenAt]
  cases hg : t.root.get? p with
  | none => simp
  | some n =>
      cases n with
      | file f => simp [Node.children]
      | dir d cs =>
          have hn := Node.unique_get? t.unique hg
          rw [Option.bind_some, Node.view_dir_cons]
          show (k, e) ∈ cs.map _ ↔ _
          rw [List.mem_map]
          constructor
          · rintro ⟨⟨k', c⟩, hc, heq⟩
            obtain ⟨rfl, rfl⟩ := Prod.mk.inj heq
            rw [assocGet_of_mem hn.1 hc]
            exact Node.view_nil c
          · intro h
            obtain ⟨c, hc, hv⟩ := Option.bind_eq_some_iff.mp h
            rw [Node.view_nil] at hv
            exact ⟨(k, c), assocGet_eq_some_mem hc, by rw [Option.some.inj hv]⟩

/-- A directory without listed children has nothing below it. -/
theorem view_below_of_childless {t : Tree κ δ φ} {p : List κ}
    (hc : t.childrenAt p = []) (k : κ) (q : List κ) : t.view (p ++ k :: q) = none := by
  rw [view, Node.view_append]
  rw [childrenAt] at hc
  cases hg : t.root.get? p with
  | none => rfl
  | some n =>
      rw [hg] at hc
      cases n with
      | file f => rfl
      | dir d' cs =>
          have hnil : cs = [] := by simpa [Node.children] using hc
          rw [hnil]
          exact Node.view_dir_cons d' [] k q

end Tree

end NamedTree
