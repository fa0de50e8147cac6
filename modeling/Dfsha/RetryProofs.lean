import Dfsha.FirstOccurrencesProofs
import Dfsha.ReplicatedTreeProofs

/-! # Retries

    A client that has no answer sends its command again under the same
    operation id, to a new leader if need be, which proposes other block ids
    and reads another clock.  The replicated tree answers the repeat with the
    outcome of the first execution as long as it remembers it, and it
    remembers the last `MAX_APPLIED_OPS` operations, in the order in which
    they were first applied.

    So the runs in which every repeat comes in time are the runs without
    repeats: each operation is executed once, and every repeat gets the answer
    of its first occurrence. -/

namespace DfshaRetry

open InsertionDict FirstOccurrences TransitionSystem TransitionSystem.System
open DfshaControlTree DfshaReplicatedTree

/-! ## Without repeats -/

/-- The tree after the commands are executed, each of them once. -/
def treeAfter (tree : ControlTree) (cmds : List Command) : ControlTree :=
  cmds.foldl (fun tree c => (execCall c.call tree).2) tree

/-- The outcome of every command when all of them are executed in order. -/
def outcomes : ControlTree → List Command → List (String × Outcome)
  | _, [] => []
  | tree, c :: cs =>
      (c.opId, (execCall c.call tree).1) :: outcomes (execCall c.call tree).2 cs

theorem outcomes_append (tree : ControlTree) (xs ys : List Command) :
    outcomes tree (xs ++ ys) = outcomes tree xs ++ outcomes (treeAfter tree xs) ys := by
  induction xs generalizing tree with
  | nil => rfl
  | cons c cs ih =>
      rw [List.cons_append, outcomes, outcomes, ih]
      rfl

theorem treeAfter_append (tree : ControlTree) (xs ys : List Command) :
    treeAfter tree (xs ++ ys) = treeAfter (treeAfter tree xs) ys := List.foldl_append

theorem map_fst_outcomes (tree : ControlTree) (cmds : List Command) :
    (outcomes tree cmds).map Prod.fst = cmds.map Command.opId := by
  induction cmds generalizing tree with
  | nil => rfl
  | cons c cs ih => rw [outcomes, List.map_cons, List.map_cons, ih]

/-- The commands that are the first with their operation id. -/
def firstApplied (cmds : List Command) : List Command := firsts Command.opId [] cmds

/-- What the first occurrences alone are answered. -/
def history (cmds : List Command) : List (String × Outcome) :=
  outcomes ControlTree.empty (firstApplied cmds)

/-! ## What is remembered -/

/-- Dropping the oldest entry again and again. -/
theorem entries_popFirst {κ α : Type} [DecidableEq κ] (n : Nat) (d : Dict κ α) :
    (Dict.popFirst^[n] d).entries = d.entries.drop n := by
  induction n generalizing d with
  | zero => rfl
  | succ n ih =>
      rw [Function.iterate_succ_apply, ih]
      show d.entries.tail.drop n = _
      rw [List.drop_tail]

theorem entries_remember_new {ops : Dict String Outcome} {opId : String} (o : Outcome)
    (h : ops.get? opId = none) : (remember ops opId o).entries
      = (ops.entries ++ [(opId, o)]).drop (ops.entries.length + 1 - maxAppliedOps) := by
  rw [remember, entries_popFirst, Dict.entries_insert_new o h, Dict.size,
    Dict.entries_insert_new o h, List.length_append, List.length_singleton]

/-- The last `N` of a list, when it grows by one. -/
theorem drop_concat {α : Type} {N : Nat} (hN : 0 < N) (l : List α) (x : α) :
    (l.drop (l.length - N) ++ [x]).drop ((l.drop (l.length - N)).length + 1 - N)
      = (l ++ [x]).drop ((l ++ [x]).length - N) := by
  have hlen : (l.drop (l.length - N)).length = l.length - (l.length - N) :=
    List.length_drop
  rw [List.length_append, List.length_singleton, hlen]
  by_cases hlt : l.length < N
  · have hold : l.length - N = 0 := by omega
    have hnew : l.length + 1 - N = 0 := by omega
    rw [hold, Nat.sub_zero, hnew]
    rfl
  · have hold : l.length - (l.length - N) + 1 - N = 1 := by omega
    have hnew : l.length + 1 - N = (l.length - N) + 1 := by omega
    rw [hold, hnew, ← List.drop_drop, List.drop_append_of_le_length (Nat.sub_le _ _)]

/-- An element with fewer than `N` after it is one of the last `N`. -/
theorem mem_drop_of_lt {α : Type} {N : Nat} {xs ys : List α} {y : α}
    (h : ys.length < N) : y ∈ (xs ++ y :: ys).drop ((xs ++ y :: ys).length - N) := by
  have hle : (xs ++ y :: ys).length - N ≤ xs.length := by
    rw [List.length_append, List.length_cons]
    omega
  rw [List.drop_append_of_le_length hle]
  exact List.mem_append_right _ List.mem_cons_self

/-- The tree is that of the first occurrences, and their last outcomes are
    remembered. -/
structure Remembers (cmds : List Command) (s : ReplicatedTree) : Prop where
  tree : s.tree = treeAfter ControlTree.empty (firstApplied cmds)
  ops : s.appliedOps.entries
    = (history cmds).drop ((history cmds).length - maxAppliedOps)

section Step

variable {cmds : List Command} {s : ReplicatedTree} {c : Command}

theorem maxAppliedOps_pos : 0 < maxAppliedOps := by
  unfold maxAppliedOps
  omega

/-- A command that has not come before is executed. -/
theorem remembers_new (h : Remembers cmds s) (hnew : c.opId ∉ cmds.map Command.opId) :
    Remembers (cmds ++ [c]) (apply c s).2 ∧
      (c.opId, (apply c s).1) ∈ history (cmds ++ [c]) := by
  have hfirsts : firstApplied (cmds ++ [c]) = firstApplied cmds ++ [c] :=
    firsts_concat_new hnew
  have hhistory : history (cmds ++ [c])
      = history cmds ++ [(c.opId, (execCall c.call s.tree).1)] := by
    rw [history, hfirsts, outcomes_append, ← h.tree]
    rfl
  have hops : s.appliedOps.get? c.opId = none := by
    cases hop : s.appliedOps.get? c.opId with
    | none => rfl
    | some o =>
        have hmem := Dict.get?_eq_some_iff.mp hop
        rw [h.ops] at hmem
        have hid : c.opId ∈ (history cmds).map Prod.fst :=
          List.mem_map_of_mem (List.mem_of_mem_drop hmem)
        rw [history, map_fst_outcomes] at hid
        exact absurd (((firsts_sublist [] cmds).map Command.opId).subset hid) hnew
  rw [apply_executed hops]
  refine ⟨⟨?_, ?_⟩, ?_⟩
  · rw [hfirsts, treeAfter_append, ← h.tree]
    rfl
  · dsimp only
    rw [entries_remember_new _ hops, h.ops, hhistory]
    exact drop_concat maxAppliedOps_pos _ _
  · rw [hhistory]
    exact List.mem_append_right _ (List.mem_singleton.mpr rfl)

/-- A repeat in time is answered from memory. -/
theorem remembers_repeat {a b : List Command} {c₀ : Command} (h : Remembers cmds s)
    (hcmds : cmds = a ++ c₀ :: b) (hid : c₀.opId = c.opId)
    (hfirst : c.opId ∉ a.map Command.opId)
    (htime : (firsts Command.opId (c₀.opId :: a.map Command.opId) b).length
      < maxAppliedOps) :
    Remembers (cmds ++ [c]) (apply c s).2 ∧
      (c.opId, (apply c s).1) ∈ history (cmds ++ [c]) := by
  have hseen : c.opId ∈ cmds.map Command.opId := by
    rw [hcmds, ← hid]
    exact List.mem_map_of_mem (List.mem_append_right _ List.mem_cons_self)
  have hfirsts : firstApplied (cmds ++ [c]) = firstApplied cmds := firsts_concat_seen hseen
  have hsplit : firstApplied cmds = firstApplied a
      ++ c₀ :: firsts Command.opId (c₀.opId :: a.map Command.opId) b := by
    rw [hcmds]
    exact firsts_split (hid ▸ hfirst)
  -- fewer operations than the limit have been applied after the first one
  obtain ⟨o, hmem⟩ : ∃ o, (c.opId, o) ∈ s.appliedOps.entries := by
    refine ⟨(execCall c₀.call (treeAfter ControlTree.empty (firstApplied a))).1, ?_⟩
    rw [h.ops, history, hsplit, outcomes_append, outcomes, hid]
    refine mem_drop_of_lt ?_
    rw [← List.length_map (f := Prod.fst), map_fst_outcomes, List.length_map, ← hid]
    exact htime
  have hop := Dict.get?_eq_some_iff.mpr hmem
  rw [apply_cached hop]
  refine ⟨⟨by rw [hfirsts]; exact h.tree, by rw [history, hfirsts]; exact h.ops⟩, ?_⟩
  rw [history, hfirsts]
  rw [h.ops] at hmem
  exact List.mem_of_mem_drop hmem

end Step

/-! ## Whole runs -/

/-- Every repeat of an operation comes before `MAX_APPLIED_OPS` other
    operations are first applied after its first occurrence. -/
def RetriedInTime (cmds : List Command) : Prop :=
  ∀ a c₀ b c post, cmds = a ++ c₀ :: b ++ c :: post → c₀.opId = c.opId →
    c.opId ∉ a.map Command.opId →
    (firsts Command.opId (c₀.opId :: a.map Command.opId) b).length < maxAppliedOps

theorem RetriedInTime.initial {pre cmds : List Command} (h : RetriedInTime cmds)
    (hpre : pre <+: cmds) : RetriedInTime pre := by
  obtain ⟨rest, rfl⟩ := hpre
  intro a c₀ b c post hsplit
  exact h a c₀ b c (post ++ rest) (by rw [hsplit, List.append_assoc]; rfl)

theorem remembers_next {cmds : List Command} {c : Command} {s : ReplicatedTree}
    (h : Remembers cmds s) (htime : RetriedInTime (cmds ++ [c])) :
    Remembers (cmds ++ [c]) (apply c s).2 ∧
      (c.opId, (apply c s).1) ∈ history (cmds ++ [c]) := by
  by_cases hseen : c.opId ∈ cmds.map Command.opId
  · obtain ⟨a, c₀, b, hcmds, hid, hfirst⟩ := exists_first hseen
    exact remembers_repeat h hcmds hid hfirst
      (htime a c₀ b c [] (by rw [hcmds]) hid hfirst)
  · exact remembers_new h hseen

theorem remembers_run {cmds : List Command} {s : ReplicatedTree}
    (hrun : replicated.Run cmds s) (htime : RetriedInTime cmds) :
    Remembers cmds s := by
  refine Run.invariant (I := fun cmds s => RetriedInTime cmds → Remembers cmds s)
    hrun ?_ ?_ htime
  · rintro _ rfl _
    exact ⟨rfl, rfl⟩
  · rintro pre sp c _ ih rfl htime
    exact (remembers_next (ih (htime.initial (List.prefix_append _ _))) htime).1

/-- What comes later does not change what was answered. -/
theorem history_initial {pre cmds : List Command} (h : pre <+: cmds) :
    history pre <+: history cmds := by
  obtain ⟨rest, rfl⟩ := h
  rw [history, history, firstApplied, firstApplied, firsts_append, outcomes_append]
  exact List.prefix_append _ _

/-- No operation is answered twice in it. -/
theorem nodup_history (cmds : List Command) : ((history cmds).map Prod.fst).Nodup := by
  rw [history, map_fst_outcomes]
  exact nodup_firsts [] cmds

/-- **RETRIES ARE TRANSPARENT**: in a run whose repeats all come in time, the
    tree is that of the first occurrences alone, and every command, first
    occurrence or repeat, is answered with the one outcome that its operation
    has when the first occurrences alone are executed. -/
theorem retries_are_transparent {cmds : List Command} {s : ReplicatedTree}
    (hrun : replicated.Run cmds s) (htime : RetriedInTime cmds) :
    s.tree = treeAfter ControlTree.empty (firstApplied cmds) ∧
      ((history cmds).map Prod.fst).Nodup ∧
      ∀ pre c post sp, cmds = pre ++ c :: post → replicated.Run pre sp →
        (c.opId, (apply c sp).1) ∈ history cmds := by
  refine ⟨(remembers_run hrun htime).tree, nodup_history cmds, ?_⟩
  intro pre c post sp hcmds hpre
  have hprefix : pre ++ [c] <+: cmds := ⟨post, by rw [hcmds, List.append_assoc]; rfl⟩
  have htime' := htime.initial hprefix
  have hsp := remembers_run hpre (htime'.initial (List.prefix_append _ _))
  exact (history_initial hprefix).subset (remembers_next hsp htime').2

/-- A directory is made, another cannot be; both requests are repeated, by a
    leader that proposes other paths. -/
def repeatedCommands : List Command :=
  [⟨"1", .mutation (.makeDir "/a" none)⟩, ⟨"2", .mutation (.makeDir "/b/c" none)⟩,
    ⟨"1", .mutation (.makeDir "/d" none)⟩, ⟨"2", .mutation (.makeDir "/e" none)⟩]

/-- A short run has no late repeat. -/
theorem retriedInTime_of_length {cmds : List Command}
    (h : cmds.length < maxAppliedOps) : RetriedInTime cmds := by
  rintro a c₀ b c post rfl _ _
  have hle : (firsts Command.opId (c₀.opId :: a.map Command.opId) b).length ≤ b.length :=
    (firsts_sublist _ b).length_le
  simp only [List.length_append, List.length_cons] at h
  omega

theorem retries_are_transparent_mkdir :
    repeatedCommands.length < maxAppliedOps ∧
    (repeatedCommands.foldl (fun s c => (apply c s).2) ReplicatedTree.empty).tree
      = treeAfter ControlTree.empty (firstApplied repeatedCommands) ∧
    ((history repeatedCommands).map Prod.fst).Nodup ∧
    ∀ pre c post sp, repeatedCommands = pre ++ c :: post → replicated.Run pre sp →
      (c.opId, (apply c sp).1) ∈ history repeatedCommands :=
  ⟨by decide, retries_are_transparent
    ⟨ReplicatedTree.empty, rfl, path_foldl _ repeatedCommands⟩
    (retriedInTime_of_length (by decide))⟩

end DfshaRetry
