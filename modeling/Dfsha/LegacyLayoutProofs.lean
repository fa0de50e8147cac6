import Dfsha.CopyOnWriteProofs

/-! # The block size of old files

    A file that was uploaded before files recorded their block size stores 0,
    and `_block_size_of` infers the size: that of the first block when there
    are several, the leader's default when there is one.

    With several blocks the inference is right, because the first block is
    full.  With one block nothing says how large the blocks of the upload
    were, and any size that is not smaller than the block would do.  The
    leader's default need not be one: the cluster may have been restarted with
    smaller blocks.  Then the plan of a write takes the one block for several
    and the commit leaves a file that is not what was written. -/

namespace DfshaLegacyLayout

open NamedTree RaisingAction BlockChunks TransitionSystem TransitionSystem.System
open DfshaPath DfshaControlTree DfshaMetadata DfshaControlTreeEffect
open DfshaWriteReservation DfshaCopyOnWrite

/-- The block size does not come from the leader's default, or the default is
    not smaller than the block. -/
def InferenceFits (f : FileNode) (default : Int) : Prop :=
  f.blockSize ≠ 0 ∨ 2 ≤ f.blocks.length ∨
    0 < default ∧ ∀ b ∈ f.blocks, b.sizeBytes ≤ default

instance (f : FileNode) (default : Int) : Decidable (InferenceFits f default) :=
  inferInstanceAs (Decidable (_ ∨ _ ∨ _))

section Inference

variable {f : FileNode} {U default : Int}

/-- A layout of several blocks has the size of the first. -/
theorem blockSizeOf_several (hlayout : Layout U f) (hzero : f.blockSize = 0)
    (hmany : 2 ≤ f.blocks.length) : blockSizeOf f default = U := by
  have hfilled := hlayout.2
  rw [blockSizeOf, if_neg (not_not.mpr hzero)]
  rw [blockSizes] at hfilled
  cases hblocks : f.blocks with
  | nil =>
      rw [hblocks] at hmany
      exact absurd hmany (by decide)
  | cons first rest =>
      cases rest with
      | nil =>
          rw [hblocks] at hmany
          exact absurd hmany (by simp)
      | cons second rest =>
          rw [hblocks] at hfilled
          exact hfilled.1

/-- With at most one block the inferred size is the leader's default. -/
theorem blockSizeOf_single (hzero : f.blockSize = 0) (hfew : f.blocks.length < 2) :
    blockSizeOf f default = default := by
  rw [blockSizeOf, if_neg (not_not.mpr hzero)]
  cases hblocks : f.blocks with
  | nil => rfl
  | cons first rest =>
      cases rest with
      | nil => rfl
      | cons second rest =>
          rw [hblocks, List.length_cons, List.length_cons] at hfew
          exact absurd hfew (by omega)

/-- What a layout of at most one block says of a block size. -/
theorem layout_single {B : Int} (hlayout : Layout U f) (hfew : f.blocks.length < 2) :
    Layout B f ↔ 0 < B ∧ ∀ b ∈ f.blocks, b.sizeBytes ≤ B := by
  have hfilled := hlayout.2
  unfold Layout
  rw [blockSizes] at hfilled ⊢
  cases hblocks : f.blocks with
  | nil => exact ⟨fun h => ⟨h.1, by simp⟩, fun h => ⟨h.1, trivial⟩⟩
  | cons b rest =>
      cases rest with
      | nil =>
          rw [hblocks] at hfilled
          constructor
          · rintro ⟨hpos, _, hle⟩
            refine ⟨hpos, fun b' hb' => ?_⟩
            rw [List.mem_singleton.mp hb']
            exact hle
          · rintro ⟨hpos, hle⟩
            exact ⟨hpos, hfilled.1, hle b (List.mem_singleton.mpr rfl)⟩
      | cons second rest =>
          rw [hblocks, List.length_cons, List.length_cons] at hfew
          exact absurd hfew (by omega)

/-- **THE INFERRED SIZE IS ONE OF THE LAYOUT** exactly when the default is not
    asked for or fits. -/
theorem layout_blockSizeOf (hlayout : Layout U f)
    (huploaded : f.blockSize = U ∨ f.blockSize = 0) :
    Layout (blockSizeOf f default) f ↔ InferenceFits f default := by
  by_cases hzero : f.blockSize = 0
  · by_cases hmany : 2 ≤ f.blocks.length
    · rw [blockSizeOf_several hlayout hzero hmany]
      exact ⟨fun _ => .inr (.inl hmany), fun _ => hlayout⟩
    · have hfew : f.blocks.length < 2 := by omega
      rw [blockSizeOf_single hzero hfew, layout_single hlayout hfew]
      constructor
      · exact fun h => .inr (.inr h)
      · rintro (hstored | hmany' | hfits)
        · exact absurd hzero hstored
        · exact absurd hmany' hmany
        · exact hfits
  · have hstored : blockSizeOf f default = f.blockSize := if_pos hzero
    rcases huploaded with hU | h0
    · rw [hstored, hU]
      exact ⟨fun _ => .inl hzero, fun _ => hlayout⟩
    · exact absurd h0 hzero

end Inference

/-- `write_layout` answers with the inferred block size. -/
theorem writeLayout_ok {s : ControlTree} {p : String} {ps : List String} {f : FileNode}
    {default version B : Int} {sizes : List Int} {caller : Option Caller}
    (hparts : parts p = .ok ps) (hfile : s.root.view ps = some (.file f))
    (h : (writeLayout p default caller s).1 = .ok (version, B, sizes)) :
    B = blockSizeOf f default := by
  suffices hwp : wp (writeLayout p default caller) s fun r _ =>
      ∀ a, r = .ok a → a.2.1 = blockSizeOf f default from hwp _ h
  have refuse : ∀ e : PyError, ∀ a : Int × Int × List Int, Except.error e = .ok a →
      a.2.1 = blockSizeOf f default := by
    intro e a he
    cases he
  refine wp_foundFile (getCommittedFile_found p s) refuse ?_
  intro ps' f' hps' hfile' _
  obtain rfl : ps = ps' := Except.ok.inj (hparts.symm.trans hps')
  obtain rfl : f = f' := Entry.file.inj (Option.some.inj (hfile.symm.trans hfile'))
  refine wp_ofExcept refuse fun key _ => wp_require refuse fun _ => wp_ret ?_
  intro a ha
  rw [← Except.ok.inj ha]

/-- **THE BLOCK SIZE OF A LEGACY FILE.**  Of a file that has the layout of the
    block size it was uploaded with, which it stores or not: the block size
    that `write_layout` returns is one of its layout exactly when the default
    is not asked for or is not smaller than the one block.  In that case every
    write that completes replaces exactly its range. -/
theorem inferred_block_size_iff {pre : List Mutation} {s₀ : ControlTree} {p : String}
    {ps : List String} {f₀ : FileNode} {U default : Int} (hrun : controlTree.Run pre s₀)
    (hparts : parts p = .ok ps) (hfile : s₀.root.view ps = some (.file f₀))
    (huploaded : f₀.blockSize = U ∨ f₀.blockSize = 0) (hlayout : Layout U f₀) :
    (∀ caller version B sizes,
      (writeLayout p default caller s₀).1 = .ok (version, B, sizes) →
      (Layout B f₀ ↔ InferenceFits f₀ default)) ∧
    (InferenceFits f₀ default → ∀ (c : ClientWrite) s₂,
      c.path = p → c.default = default → c.Completes pre s₀ f₀ s₂ →
      Layout c.blockSize f₀ ∧ ∃ f₂ f₃, s₂.root.view ps = some (.file f₂) ∧
        (exec c.commitWrite s₂).2.root.view ps = some (.file f₃) ∧
        c.Overwrites f₀ f₂ f₃) := by
  refine ⟨?_, ?_⟩
  · intro caller version B sizes h
    rw [writeLayout_ok hparts hfile h]
    exact layout_blockSizeOf hlayout huploaded
  · rintro hfits c s₂ rfl rfl hc
    -- the answer of `begin_write` carries the inferred size
    have hebegin := exec_effect c.beginWrite s₀
    rw [hc.begins] at hebegin
    obtain ⟨_, ps', f', res, hps', hreserves, _, _, hB⟩ := effect_beginWrite_ok hebegin
    obtain rfl : ps = ps' := Except.ok.inj (hparts.symm.trans hps')
    obtain rfl : f₀ = f' :=
      Entry.file.inj (Option.some.inj (hfile.symm.trans hreserves.hfile))
    have hlayoutB : Layout c.blockSize f₀ := by
      rw [hB, hreserves.hblockSize]
      exact (layout_blockSizeOf hlayout huploaded).mpr hfits
    exact ⟨hlayoutB, written_file hrun hparts hfile hlayoutB hc⟩

/-- A file of one block of four bytes, uploaded before files recorded their
    block size, and the exclusive lock on it. -/
def legacyUpload : List Mutation :=
  [.beginUpload "/f" [("b1", ["n1"])] none none none none,
   .confirmBlock "/f" "b1" "c1" 4 none none none,
   .completeUpload "/f" none,
   .acquireLock "/f" "L" "ana" "w" 0 60 none]

def legacyState : ControlTree :=
  legacyUpload.foldl (fun s μ => (exec μ s).2) ControlTree.empty

def legacyFile : FileNode where
  state := .committed
  blocks := [⟨"b1", ["n1"], "c1", 4, true⟩]
  attrs := ownership none fileMode

/-- SHA-256 on the blocks that the two writes store. -/
def legacyDigest (content : List UInt8) : String :=
  if content = [97, 98, 119, 120, 121, 122] then
    "ed4d555fe63d00455a03c567cadabfd8dd7af5d79e6a2d9afdf3a3753dd1322f"
  else if content = [0, 120] then
    "3c7e9bc930dc93f01fa69985ef242d9f9e861f3c5355aa24ce5ef4b4b8a70ccb"
  else ""

/-- Writing `wxyz` at 2, at a leader with blocks of eight bytes. -/
def extendingWrite (store' : String → List UInt8) : ClientWrite where
  path := "/f"
  writeId := "w1"
  lockId := "L"
  version := 0
  offset := 2
  data := [119, 120, 121, 122]
  proposals := [(0, "b2", ["n1"])]
  now := 1
  leaseS := 60
  default := 8
  caller := none
  answeredVersion := 0
  blockSize := 8
  slots := [⟨0, "b1", 4, ["n1"], "b2", ["n1"], 6⟩]
  store := lockedStore
  store' := store'
  confirmed := [(0, "b2", legacyDigest [97, 98, 119, 120, 121, 122], 6)]
  commitPath := "/f"
  commitLockId := "L"
  baseVersion := 0
  commitNow := 2
  commitCaller := none

/-- Writing `x` over the last byte, at a leader with blocks of two bytes. -/
def lastByteWrite (store' : String → List UInt8) : ClientWrite where
  path := "/f"
  writeId := "w1"
  lockId := "L"
  version := 0
  offset := 3
  data := [120]
  proposals := [(1, "b2", ["n1"])]
  now := 1
  leaseS := 60
  default := 2
  caller := none
  answeredVersion := 0
  blockSize := 2
  slots := [⟨1, "", 0, [], "b2", ["n1"], 2⟩]
  store := lockedStore
  store' := store'
  confirmed := [(1, "b2", legacyDigest [0, 120], 2)]
  commitPath := "/f"
  commitLockId := "L"
  baseVersion := 0
  commitNow := 2
  commitCaller := none

/-- A default that is larger than the block does no harm. -/
theorem inferred_block_size_iff_larger :
    Layout 8 legacyFile ∧ ∃ store' f₃,
      (exec (extendingWrite store').commitWrite
        (exec (extendingWrite store').beginWrite legacyState).2).2.root.view ["f"]
        = some (.file f₃) ∧
      fileBytes store' f₃ = [97, 98, 119, 120, 121, 122] := by
  have hslots : (writeSlots legacyDigest 8 2 [119, 120, 121, 122]
      [⟨0, "b1", 4, ["n1"], "b2", ["n1"], 6⟩] lockedStore).map Prod.snd
      = .ok [(0, "b2", legacyDigest [97, 98, 119, 120, 121, 122], 6)] := by decide +kernel
  obtain ⟨⟨store', confirmed⟩, hwrite, rfl⟩ := map_eq_ok hslots
  have hfile : legacyState.root.view ["f"] = some (.file legacyFile) := by decide +kernel
  have hblock : ∀ b ∈ legacyFile.blocks, b = ⟨"b1", ["n1"], "c1", 4, true⟩ := by
    intro b hb
    exact List.mem_singleton.mp hb
  have hfits : InferenceFits legacyFile 8 := by decide
  -- the two mutations do not depend on what is stored
  have hbegin : (exec (extendingWrite lockedStore).beginWrite legacyState).1
      = .ok (.writeBegun "w1" 0 8 [⟨0, "b1", 4, ["n1"], "b2", ["n1"], 6⟩]) := by
    decide +kernel
  have hcommit : (exec (extendingWrite lockedStore).commitWrite
      (exec (extendingWrite lockedStore).beginWrite legacyState).2).1
      = .ok (.writeCommitted 1 [⟨"b1", ["n1"], "c1", 4, true⟩]) := by decide +kernel
  have hlocks : ((legacyUpload ++ [(extendingWrite lockedStore).beginWrite]).flatMap
      acquiredLocks).Nodup := by decide
  have hwrites : ((legacyUpload ++ [(extendingWrite lockedStore).beginWrite]).flatMap
      begunWrites).Nodup := by decide
  have hc : (extendingWrite store').Completes legacyUpload legacyState legacyFile
      (exec (extendingWrite store').beginWrite legacyState).2 :=
    { stored := fun b hb => by rw [hblock b hb]; rfl
      ids := fun b hb => by rw [hblock b hb]; decide
      begins := hbegin
      distinct := List.nodup_singleton "b2"
      fresh := fun b hb => by rw [hblock b hb]; exact (by decide : "b1" ∉ ["b2"])
      writes := ⟨legacyDigest, hwrite⟩
      between := ⟨[], .start, hlocks, hwrites⟩
      commits := ⟨1, _, hcommit⟩ }
  obtain ⟨hlayout, _, f₃, _, hf₃, hover⟩ :=
    (inferred_block_size_iff (U := 4) ⟨_, rfl, path_foldl ControlTree.empty legacyUpload⟩
      (show parts "/f" = .ok ["f"] by decide) hfile (.inr rfl)
      ⟨by decide, by decide⟩).2 hfits (extendingWrite store') _ rfl rfl hc
  exact ⟨hlayout, store', f₃, hf₃, hover.bytes⟩

/-- **A DEFAULT THAT IS SMALLER THAN THE BLOCK.**  The file of four bytes has
    the layout of blocks of four; the leader takes it for one of blocks of
    two, and writing one byte over its last one leaves six bytes. -/
theorem small_default_breaks_layout :
    legacyState.root.view ["f"] = some (.file legacyFile) ∧ legacyFile.blockSize = 0 ∧
    Layout 4 legacyFile ∧
    (writeLayout "/f" 2 none legacyState).1 = .ok (0, 2, [4]) ∧ ¬ Layout 2 legacyFile ∧
    ∃ store' f₃,
      writeSlots legacyDigest 2 3 [120] [⟨1, "", 0, [], "b2", ["n1"], 2⟩] lockedStore
        = .ok (store', (lastByteWrite store').confirmed) ∧
      (exec (lastByteWrite store').commitWrite
        (exec (lastByteWrite store').beginWrite legacyState).2).2.root.view ["f"]
        = some (.file f₃) ∧
      fileBytes lockedStore legacyFile = [97, 98, 99, 100] ∧
      fileBytes store' f₃ = [97, 98, 99, 100, 0, 120] := by
  refine ⟨by decide +kernel, rfl, ⟨by decide, by decide⟩, by decide +kernel,
    fun h => absurd h.2 (by decide), _, { legacyFile with
      blocks := [⟨"b1", ["n1"], "c1", 4, true⟩,
        ⟨"b2", ["n1"], legacyDigest [0, 120], 2, true⟩]
      version := 1
      blockSize := 2 }, rfl, by decide +kernel, by decide, by decide⟩

end DfshaLegacyLayout
