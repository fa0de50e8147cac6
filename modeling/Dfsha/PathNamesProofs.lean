import Dfsha.RepairProgressProofs
import Dfsha.WriteReservationProofs

/-! # What a path names

    Four pieces of code must agree on what a path is: the server cuts it into
    names, the server and the client each write a canonical path, and the walk
    over all blocks builds the paths of the files again from the names in the
    tree.

    They agree because a canonical path is parsed back to its names
    (`parts_pathKey`), and a name of a file has been cut out of a path, so it is
    not empty and has no slash.  That two paths with different names are two
    different places is shown by the tree that has the directories of one of
    them and nothing else. -/

namespace DfshaPathNames

open InsertionDict NamedTree RaisingAction TransitionSystem TransitionSystem.System
open DfshaPath DfshaControlTree DfshaMetadata DfshaControlTreeEffect
open DfshaWriteReservation DfshaListing DfshaRepairProgress

/-! ## The code -/

/-- A component of the path is `..`. -/
def Climbs (path : String) : Prop := ['.', '.'] ∈ splitSlash path.toList

/-- `_canonical_lock_path`, of the client. -/
def canonicalLockPath (path : String) : String :=
  String.ofList ('/' :: joinSlash ((splitSlash (stripSlash path.toList)).filter (· ≠ [])))

abbrev TreeNode : Type := Node String NodeAttrs FileNode

mutual
/-- `visit` of `iter_blocks`; a file is the other branch of its loop. -/
def visit (path : String) : TreeNode → List (String × BlockRecord)
  | .dir _ children => visitChildren path children
  | .file node => if node.state = .committed then node.blocks.map (Prod.mk path) else []
def visitChildren (before : String) : List (String × TreeNode) → List (String × BlockRecord)
  | [] => []
  | (name, child) :: rest =>
      visit (if before = "" then "/" ++ name else before ++ "/" ++ name) child ++
        visitChildren before rest
end

/-- The recursive walk of `iter_blocks`. -/
def walkBlocks (s : ControlTree) : List (String × BlockRecord) := visit "" s.root.root

/-- The node that a path leads to, with all that is below it. -/
def nodeAt (s : ControlTree) (path : String) : Except PyError (Option TreeNode) :=
  (parts path).map s.root.root.get?

/-! ## Canonical paths -/

theorem parts_of_not_climbs {p : String} (h : ¬ Climbs p) :
    parts p = .ok ((words p.toList).map String.ofList) := parts_ok_iff.mpr ⟨h, rfl⟩

/-- The client writes the path that the server writes. -/
theorem canonicalLockPath_of_parts {p : String} {ps : List String} (h : parts p = .ok ps) :
    canonicalLockPath p = pathKey ps := by
  obtain ⟨_, rfl⟩ := parts_ok_iff.mp h
  have hwords : (splitSlash (stripSlash p.toList)).filter (· ≠ []) = words p.toList :=
    words_stripSlash p.toList
  rw [canonicalLockPath, hwords, pathKey, List.map_map]
  congr 3
  have hid : String.toList ∘ String.ofList = id := by
    funext cs
    exact String.toList_ofList
  rw [hid, List.map_id]

/-- One canonical path is one list of names. -/
theorem canonicalPath_eq_iff {p q : String} {ps qs : List String} (hp : parts p = .ok ps)
    (hq : parts q = .ok qs) : canonicalPath p = canonicalPath q ↔ ps = qs := by
  rw [canonicalPath_of_parts hp, canonicalPath_of_parts hq]
  constructor
  · intro h
    exact pathKey_inj (cleanName_of_parts hp) (cleanName_of_parts hq) (Except.ok.inj h)
  · intro h
    rw [h]

/-! ## A tree with the directories of one path -/

section MakeDir

variable {s : ControlTree} {ps : List String}

theorem exec_makeDir {p : String} {d : NodeAttrs} (hparts : parts p = .ok ps) (hne : ps ≠ [])
    (hparent : s.root.view ps.dropLast = some (.dir d)) (hfree : s.root.view ps = none) :
    (exec (.makeDir p none) s).1 = .ok .none := by
  suffices h : wp (makeDir p none) s fun r _ => r = .ok () by
    have hexec : wp (exec (.makeDir p none)) s fun r _ => r = .ok .none := by
      refine wp_call h (fun _ _ _ => wp_ret rfl) fun _ _ he => ?_
      cases he
    exact hexec
  refine wp_ofExcept_ok hparts (wp_raiseIf_passed hne ?_)
  refine wp_call (walkToParent_passed hparent) ?_ fun _ _ h => by cases h.1
  rintro _ _ ⟨hr, rfl⟩
  obtain rfl := Except.ok.inj hr
  refine wp_raiseIf_passed Bool.noConfusion (wp_gets ?_)
  rw [hfree]
  exact wp_raiseIf_passed (not_not.mpr rfl) rfl

/-- A directory that is made is the only new node. -/
theorem view_makeDir {p : String} {d : NodeAttrs} (hparts : parts p = .ok ps) (hne : ps ≠ [])
    (hparent : s.root.view ps.dropLast = some (.dir d)) (hfree : s.root.view ps = none)
    (q : List String) : (exec (.makeDir p none) s).2.root.view q
      = if q = ps then some (.dir (ownership none dirMode)) else s.root.view q := by
  have he := exec_effect (.makeDir p none) s
  rw [exec_makeDir hparts hne hparent hfree] at he
  generalize hm : metadata (exec _ s).2 = m' at he
  suffices h : m'.node q = if q = ps then some (.dir (ownership none dirMode))
      else s.root.view q by
    rw [← hm] at h
    exact h
  cases he with
  | makeDir hparts' _ _ _ _ =>
      obtain rfl := Except.ok.inj (hparts.symm.trans hparts')
      exact Metadata.node_setNode _ _ _
  | setAttrsDir _ _ hμ => cases hμ
  | setAttrsFile _ _ _ hμ => cases hμ

end MakeDir

/-- **A PATH ALONE**: there is a reachable tree with the directories of a path
    and nothing else. -/
theorem exists_alone {ps : List String} (hclean : ∀ n ∈ ps, CleanName n) :
    ∃ μs s, controlTree.Run μs s ∧
      ∀ q, (q <+: ps → ∃ d, s.root.view q = some (.dir d)) ∧
        (¬ q <+: ps → s.root.view q = none) := by
  induction ps using List.reverseRecOn with
  | nil =>
      refine ⟨[], .empty, ⟨_, rfl, .start⟩, fun q => ⟨fun hq => ?_, fun hq => ?_⟩⟩
      · rw [List.prefix_nil.mp hq]
        exact ⟨_, rfl⟩
      · cases q with
        | nil => exact absurd List.nil_prefix hq
        | cons name rest => rfl
  | append_singleton ps name ih =>
      obtain ⟨μs, s, hrun, hview⟩ := ih fun n hn => hclean n (List.mem_append_left _ hn)
      have hparts := parts_pathKey hclean
      have hne : ps ++ [name] ≠ [] := List.concat_ne_nil name ps
      obtain ⟨d, hparent⟩ := (hview ps).1 (List.prefix_refl ps)
      have hlonger : ¬ ps ++ [name] <+: ps := by
        intro h
        have hle := h.length_le
        rw [List.length_append] at hle
        simp at hle
      have hfree := (hview (ps ++ [name])).2 hlonger
      rw [← @List.dropLast_concat _ ps name] at hparent
      have hnew := view_makeDir hparts hne hparent hfree
      refine ⟨μs ++ [.makeDir (pathKey (ps ++ [name])) none], _, hrun.next (step_exec s _),
        fun q => ?_⟩
      rw [hnew q, List.prefix_concat_iff]
      by_cases hq : q = ps ++ [name]
      · rw [if_pos hq]
        exact ⟨fun _ => ⟨_, rfl⟩, fun h => absurd (.inl hq) h⟩
      · rw [if_neg hq, or_iff_right hq]
        exact hview q

/-! ## The walk over all blocks -/

/-- What the walk shows of one file. -/
def shown (entry : List String × FileNode) : List (String × BlockRecord) :=
  if entry.2.state = .committed then entry.2.blocks.map fun b => (pathKey entry.1, b) else []

/-- The path with which the walk enters a directory. -/
def entered (done : List String) : String := if done = [] then "" else pathKey done

theorem joinSlash_concat {ws : List (List Char)} (hne : ws ≠ []) (w : List Char) :
    joinSlash (ws ++ [w]) = joinSlash ws ++ '/' :: w := by
  induction ws with
  | nil => exact absurd rfl hne
  | cons v ws ih =>
      cases ws with
      | nil => rfl
      | cons v₂ ws =>
          show v ++ '/' :: joinSlash (v₂ :: ws ++ [w]) = _
          rw [ih (List.cons_ne_nil _ _), joinSlash, List.append_assoc]
          rfl

/-- The path of a child, as the walk writes it. -/
theorem pathKey_concat (done : List String) (name : String) :
    pathKey (done ++ [name])
      = if entered done = "" then "/" ++ name else entered done ++ "/" ++ name := by
  have hslash : "/" = String.ofList ['/'] := rfl
  by_cases hdone : done = []
  · subst hdone
    rw [entered, if_pos rfl, if_pos rfl, ← String.toList_inj, pathKey, String.toList_ofList,
      String.toList_append]
    rfl
  · have hkey : pathKey done ≠ "" := by
      intro h
      have hnil := congrArg String.toList h
      rw [pathKey, String.toList_ofList] at hnil
      exact List.cons_ne_nil _ _ hnil
    have hmap : done.map String.toList ≠ [] := fun h => hdone (List.map_eq_nil_iff.mp h)
    rw [entered, if_neg hdone, if_neg hkey, ← String.toList_inj, String.toList_append,
      String.toList_append, pathKey, pathKey, String.toList_ofList, String.toList_ofList,
      List.map_append]
    show '/' :: joinSlash (done.map String.toList ++ [name.toList]) = _
    rw [joinSlash_concat hmap, hslash, String.toList_ofList, List.append_assoc]
    rfl

mutual
/-- The walk below a child shows the files below it, in the order of the tree. -/
theorem visit_eq (done : List String) (name : String) (n : TreeNode) :
    visit (pathKey (done ++ [name])) n
      = n.files.flatMap fun e => shown (done ++ name :: e.1, e.2) := by
  cases n with
  | file f =>
      rw [visit, Node.files, List.flatMap_singleton]
      rfl
  | dir d children =>
      have hentered : entered (done ++ [name]) = pathKey (done ++ [name]) :=
        if_neg (List.concat_ne_nil name done)
      rw [visit, Node.files, ← hentered, visitChildren_eq (done ++ [name]) children]
      refine List.flatMap_congr fun e _ => ?_
      rw [List.append_assoc]
      rfl
theorem visitChildren_eq (done : List String) (children : List (String × TreeNode)) :
    visitChildren (entered done) children
      = (Node.filesIn children).flatMap fun e => shown (done ++ e.1, e.2) := by
  cases children with
  | nil => rfl
  | cons child rest =>
      obtain ⟨name, child⟩ := child
      rw [visitChildren, Node.filesIn, ← pathKey_concat, visit_eq done name child,
        visitChildren_eq done rest, List.flatMap_append, List.flatMap_map]
end

/-- The walk and the listing of the model are one list. -/
theorem walkBlocks_eq (s : ControlTree) : walkBlocks s = iterBlocks s := by
  obtain ⟨d, hd⟩ := s.root.view_root
  obtain ⟨children, hroot⟩ := Node.eq_dir_of_view_nil hd
  have hfiles : s.root.files = Node.filesIn children := by
    rw [Tree.files, hroot, Node.files]
  rw [walkBlocks, hroot, visit]
  show visitChildren (entered []) children = s.root.files.flatMap shown
  rw [visitChildren_eq, hfiles]
  rfl

/-- Where the keys are distinct, a list gathers what it has under one of them. -/
theorem flatMap_of_key {α β γ : Type} {l : List (α × β)} (hnodup : (l.map Prod.fst).Nodup)
    {a : α} {b : β} (hmem : (a, b) ∈ l) {g : α × β → List γ}
    (hother : ∀ e ∈ l, e.1 ≠ a → g e = []) : l.flatMap g = g (a, b) := by
  induction l with
  | nil => exact absurd hmem List.not_mem_nil
  | cons e l ih =>
      rw [List.map_cons, List.nodup_cons] at hnodup
      rw [List.flatMap_cons]
      rcases List.mem_cons.mp hmem with rfl | hmem
      · have hrest : l.flatMap g = [] := by
          refine List.flatMap_eq_nil_iff.mpr fun e he => ?_
          refine hother e (List.mem_cons_of_mem _ he) fun hea => hnodup.1 ?_
          have hkey : e.1 ∈ l.map Prod.fst := List.mem_map_of_mem he
          rwa [hea] at hkey
        rw [hrest, List.append_nil]
      · have hfirst : g e = [] := by
          refine hother e List.mem_cons_self fun hea => hnodup.1 ?_
          rw [hea]
          exact List.mem_map_of_mem (f := Prod.fst) hmem
        rw [hfirst, List.nil_append]
        exact ih hnodup.2 hmem fun e he => hother e (List.mem_cons_of_mem _ he)

/-- The files of a reachable tree are at parsed paths. -/
theorem cleanFiles_run {μs : List Mutation} {s : ControlTree} (hrun : controlTree.Run μs s) :
    CleanFiles (metadata s) := by
  refine hrun.invariant (I := fun _ s => CleanFiles (metadata s)) ?_ ?_
  · rintro s rfl
    exact cleanFiles_empty
  · rintro _ s μ s' ih rfl
    exact cleanFiles_effect (exec_effect μ s) ih

/-- **A PATH OF THE WALK LEADS TO ITS FILE.** -/
theorem walkBlocks_resolves {s : ControlTree} (hclean : CleanFiles (metadata s)) {path : String}
    {b : BlockRecord} (hmem : (path, b) ∈ walkBlocks s) :
    ∃ ps f, parts path = .ok ps ∧ s.root.view ps = some (.file f) ∧ f.state = .committed ∧
      ((walkBlocks s).filter fun e => e.1 = path).map Prod.snd = f.blocks := by
  rw [walkBlocks_eq] at hmem
  obtain ⟨ps, f, rfl, hview, hstate, _⟩ := DfshaListing.mem_iterBlocks hmem
  have hparts := hclean ps f (Metadata.file_eq_some.mpr hview)
  refine ⟨ps, f, hparts, hview, hstate, ?_⟩
  have hfile : (ps, f) ∈ s.root.files :=
    (Tree.mem_files_iff _ _ _).mpr (Tree.fileAt_eq_some.mpr hview)
  have hshown : shown (ps, f) = f.blocks.map fun b => (pathKey ps, b) := if_pos hstate
  have hall : (iterBlocks s).filter (fun e => e.1 = pathKey ps) = shown (ps, f) := by
    show (s.root.files.flatMap shown).filter _ = _
    rw [List.filter_flatMap, flatMap_of_key (Tree.nodup_files _) hfile]
    · rw [hshown, List.filter_eq_self]
      intro e he
      obtain ⟨b, _, rfl⟩ := List.mem_map.mp he
      exact decide_eq_true rfl
    · intro e he hne
      refine List.filter_eq_nil_iff.mpr fun x hx hkey => hne ?_
      have hview' := Tree.fileAt_eq_some.mp ((Tree.mem_files_iff _ _ _).mp he)
      have hparts' := hclean e.1 e.2 (Metadata.file_eq_some.mpr hview')
      have hx' : x.1 = pathKey e.1 := by
        by_cases hcommitted : e.2.state = .committed
        · rw [shown, if_pos hcommitted] at hx
          obtain ⟨b, _, rfl⟩ := List.mem_map.mp hx
          rfl
        · rw [shown, if_neg hcommitted] at hx
          exact absurd hx List.not_mem_nil
      rw [hx', decide_eq_true_eq] at hkey
      rw [hkey, hparts] at hparts'
      exact (Except.ok.inj hparts').symm
  rw [walkBlocks_eq, hall, hshown, List.map_map]
  exact List.map_id _

/-! ## The paths of the program -/

/-- Two paths with different names are two places of some tree. -/
theorem exists_apart {ps qs : List String} (hps : ∀ n ∈ ps, CleanName n)
    (hqs : ∀ n ∈ qs, CleanName n) (hne : ps ≠ qs) :
    ∃ μs s, controlTree.Run μs s ∧ s.root.root.get? ps ≠ s.root.root.get? qs := by
  -- a path with all that leads to it, where the other is not on the way
  have hapart : ∀ {as bs : List String}, (∀ n ∈ as, CleanName n) → ¬ bs <+: as →
      ∃ μs s, controlTree.Run μs s ∧ s.root.root.get? as ≠ s.root.root.get? bs := by
    intro as bs has hbs
    obtain ⟨μs, s, hrun, hview⟩ := exists_alone has
    obtain ⟨d, hd⟩ := (hview as).1 (List.prefix_refl as)
    have hnone := (hview bs).2 hbs
    refine ⟨μs, s, hrun, fun heq => ?_⟩
    have hviews : s.root.view as = s.root.view bs := congrArg (Option.map Node.label) heq
    rw [hd, hnone] at hviews
    cases hviews
  by_cases hq : qs <+: ps
  · have hp : ¬ ps <+: qs := fun hp => hne (hp.eq_of_length_le hq.length_le)
    obtain ⟨μs, s, hrun, hget⟩ := hapart hqs hp
    exact ⟨μs, s, hrun, hget.symm⟩
  · exact hapart hps hq

/-- **PATHS**: a path is canonical in one way on both sides, two paths are the
    same text when they are the same node in every tree, and the paths of the
    walk lead to the files of their blocks. -/
theorem path_names :
    (∀ p, ¬ Climbs p → ∃ key, canonicalPath p = .ok key ∧ parts key = parts p ∧
      canonicalLockPath p = key) ∧
    (∀ p q, ¬ Climbs p → ¬ Climbs q →
      (canonicalPath p = canonicalPath q → ∀ s, nodeAt s p = nodeAt s q) ∧
      ((∀ μs s, controlTree.Run μs s → nodeAt s p = nodeAt s q) →
        canonicalPath p = canonicalPath q)) ∧
    (∀ μs s, controlTree.Run μs s → ∀ path b, (path, b) ∈ walkBlocks s →
      ∃ ps f, parts path = .ok ps ∧ getNode ps s = (.ok (some (.file f)), s) ∧
        f.state = .committed ∧
        ((walkBlocks s).filter fun e => e.1 = path).map Prod.snd = f.blocks) := by
  refine ⟨fun p hp => ?_, fun p q hp hq => ?_, fun μs s hrun path b hmem => ?_⟩
  · have hparts := parts_of_not_climbs hp
    refine ⟨_, canonicalPath_of_parts hparts, ?_, canonicalLockPath_of_parts hparts⟩
    rw [hparts]
    exact parts_pathKey (cleanName_of_parts hparts)
  · have hparts := parts_of_not_climbs hp
    have hparts' := parts_of_not_climbs hq
    rw [canonicalPath_eq_iff hparts hparts']
    refine ⟨fun heq s => ?_, fun hall => ?_⟩
    · rw [nodeAt, nodeAt, hparts, hparts', heq]
    · by_contra hne
      obtain ⟨μs, s, hrun, hget⟩ :=
        exists_apart (cleanName_of_parts hparts) (cleanName_of_parts hparts') hne
      have hnode := hall μs s hrun
      rw [nodeAt, nodeAt, hparts, hparts'] at hnode
      exact hget (Except.ok.inj hnode)
  · obtain ⟨ps, f, hparts, hview, hstate, hblocks⟩ :=
      walkBlocks_resolves (cleanFiles_run hrun) hmem
    refine ⟨ps, f, hparts, ?_, hstate, hblocks⟩
    rw [← hview]
    rfl

end DfshaPathNames
