import Dfsha.ControlTreeEffectProofs

/-! # Reading the control tree

    What the three listings of the control tree show: a listing of a directory,
    of the blocks of a file, and the walk over all blocks of the re-replicator.
    None of them shows a pending upload. -/

namespace DfshaListing

open NamedTree RaisingAction DfshaPath DfshaControlTree DfshaControlTreeEffect

variable {s : ControlTree} {p : String} {caller : Option Caller}

/-- The blocks listed are those of the committed file at the path. -/
def ShowsFile (s : ControlTree) (p : String) (bs : List BlockRecord) : Prop :=
  ∃ ps f, parts p = .ok ps ∧ s.root.view ps = some (.file f) ∧
    f.state = .committed ∧ bs = f.blocks

/-- The lines are those of the children of the directory at the path. -/
def ShowsDir (s : ControlTree) (p : String) (es : List DirEntryData) : Prop :=
  ∃ ps attrs, parts p = .ok ps ∧ s.root.view ps = some (.dir attrs) ∧
    ∀ e, e ∈ es ↔ ∃ name child, s.root.view (ps ++ [name]) = some child ∧
      listed (name, child) = some e

/-- `list_blocks` answers with the blocks of a committed file. -/
theorem listBlocks_ok {bs : List BlockRecord} (h : (listBlocks p caller s).1 = .ok bs) :
    ShowsFile s p bs := by
  suffices hwp : wp (listBlocks p caller) s fun r _ =>
      ∀ bs, r = .ok bs → ShowsFile s p bs from hwp bs h
  have refuse : ∀ e : PyError, ∀ bs, Except.error e = .ok bs → ShowsFile s p bs := by
    intro e bs he
    exact nomatch he
  refine wp_foundFile (getCommittedFile_found p s) refuse ?_
  intro ps f hps hfile hstate
  refine wp_require refuse fun _ => wp_ret ?_
  intro bs hbs
  exact ⟨ps, f, hps, hfile, hstate, (Except.ok.inj hbs).symm⟩

/-- `list_dir` answers for a directory, and every line is that of a child. -/
theorem listDir_ok {es : List DirEntryData} (h : (listDir p caller s).1 = .ok es) :
    ShowsDir s p es := by
  suffices hwp : wp (listDir p caller) s fun r _ =>
      ∀ es, r = .ok es → ShowsDir s p es from hwp es h
  have refuse : ∀ e : PyError, ∀ es, Except.error e = .ok es → ShowsDir s p es := by
    intro e es he
    exact nomatch he
  refine wp_ofExcept refuse ?_
  intro ps hps
  refine wp_gets ?_
  cases hn : s.root.view ps with
  | none => exact wp_raise refuse _
  | some entry =>
      cases entry with
      | file f => exact wp_raise refuse _
      | dir attrs =>
          refine wp_require refuse fun _ => wp_gets (wp_ret ?_)
          intro es hes
          refine ⟨ps, attrs, hps, hn, fun e => ?_⟩
          rw [← Except.ok.inj hes, List.mem_filterMap]
          constructor
          · rintro ⟨⟨name, child⟩, hmem, hlisted⟩
            rw [List.mem_mergeSort] at hmem
            exact ⟨name, child, Tree.mem_childrenAt.mp hmem, hlisted⟩
          · rintro ⟨name, child, hview, hlisted⟩
            refine ⟨(name, child), ?_, hlisted⟩
            rw [List.mem_mergeSort]
            exact Tree.mem_childrenAt.mpr hview

/-- A line has the name of its child. -/
theorem name_listed {name : String} {child : Entry NodeAttrs FileNode} {e : DirEntryData}
    (h : listed (name, child) = some e) : e.name = name := by
  cases child with
  | dir attrs => rw [← Option.some.inj h]
  | file f =>
      rw [listed] at h
      by_cases hstate : f.state = .committed
      · rw [if_pos hstate] at h
        rw [← Option.some.inj h]
      · rw [if_neg hstate] at h
        exact nomatch h

/-- A line that is not a directory is that of a committed file. -/
theorem listed_file {name : String} {child : Entry NodeAttrs FileNode} {e : DirEntryData}
    (h : listed (name, child) = some e) (hfile : e.isDir = false) :
    ∃ f, child = .file f ∧ f.state = .committed := by
  cases child with
  | dir attrs =>
      rw [← Option.some.inj h] at hfile
      exact nomatch hfile
  | file f =>
      rw [listed] at h
      by_cases hstate : f.state = .committed
      · rw [if_pos hstate] at h
        exact ⟨f, rfl, hstate⟩
      · rw [if_neg hstate] at h
        exact nomatch h

/-- The walk over all blocks shows those of the committed files. -/
theorem mem_iterBlocks {key : String} {b : BlockRecord} (h : (key, b) ∈ iterBlocks s) :
    ∃ ps f, key = pathKey ps ∧ s.root.view ps = some (.file f) ∧
      f.state = .committed ∧ b ∈ f.blocks := by
  obtain ⟨⟨ps, f⟩, hmem, hb⟩ := List.mem_flatMap.mp h
  have hfile := Tree.fileAt_eq_some.mp ((Tree.mem_files_iff _ _ _).mp hmem)
  by_cases hstate : f.state = .committed
  · rw [if_pos hstate] at hb
    obtain ⟨b', hb', heq⟩ := List.mem_map.mp hb
    obtain ⟨rfl, rfl⟩ := Prod.mk.inj heq
    exact ⟨ps, f, rfl, hfile, hstate, hb'⟩
  · rw [if_neg hstate] at hb
    exact nomatch hb

end DfshaListing
