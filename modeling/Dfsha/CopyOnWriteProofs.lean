import Dfsha.BlockChunksProofs
import Dfsha.WriteReservationProofs

/-! # Copy-on-write

    A write to a committed file: the planner of the control node says which
    blocks it touches and how long each becomes, the client builds the new
    blocks from the old ones and its data, and the commit puts each new block
    in its place or at the end.  The three agree on every boundary: what the
    file holds after the commit is the old content with the data written over
    it (`write_replaces_range`). -/

namespace DfshaCopyOnWrite

open NamedTree RaisingAction BlockChunks TransitionSystem TransitionSystem.System
open DfshaPath DfshaControlTree DfshaMetadata DfshaControlTreeEffect
open DfshaWriteReservation

/-! ## The client -/

/-- A bound of a slice: a negative one counts from the end. -/
def sliceBound (n : Nat) (i : Int) : Nat :=
  if 0 ≤ i then min i.toNat n else (i + n).toNat

/-- `l[i:j]`. -/
def pySlice {α : Type} (l : List α) (i j : Int) : List α :=
  (l.take (sliceBound l.length j)).drop (sliceBound l.length i)

/-- `l[i:j] = new`. -/
def pySetSlice {α : Type} (l : List α) (i j : Int) (new : List α) : List α :=
  let i := sliceBound l.length i
  let j := max i (sliceBound l.length j)
  l.take i ++ new ++ l.drop j

/-- The whole content of a new block: the data that falls in it, and the rest
    copied from the old block, which `read` gives. -/
def slotContent (read : String → List UInt8) (slot : SlotDescription)
    (blockSize offset : Int) (data : List UInt8) : Except PyError (List UInt8) :=
  let blockStart := slot.index * blockSize
  let blockEnd := blockStart + slot.newSize
  let writeStart := max offset blockStart
  let writeEnd := min (offset + data.length) blockEnd
  let written := pySlice data (writeStart - offset) (writeEnd - offset)
  if writeStart = blockStart ∧ writeEnd = blockEnd then .ok written
  else if slot.newSize < 0 then .error ⟨.valueError, "negative count"⟩
  else
    let content := List.replicate slot.newSize.toNat 0
    let content :=
      if slot.oldBlockId = "" then content
      else
        let oldBytes := pySlice (read slot.oldBlockId) 0 slot.newSize
        pySetSlice content 0 oldBytes.length oldBytes
    .ok (pySetSlice content (writeStart - blockStart) (writeEnd - blockStart) written)

/-- What `_write_block` sends of a content: at most the size of the block. -/
def sentBytes (sizeBytes : Int) (content : List UInt8) : List UInt8 :=
  content.take sizeBytes.toNat

/-- The loop of `_write_with_lock`: the blocks with the new ones stored, and
    the slots to confirm. -/
def writeSlots (digest : List UInt8 → String) (blockSize offset : Int)
    (data : List UInt8) : List SlotDescription → (String → List UInt8) →
    Except PyError ((String → List UInt8) × List (Int × String × String × Int))
  | [], store => .ok (store, [])
  | slot :: slots, store => do
      let content ← slotContent store slot blockSize offset data
      let sent := sentBytes slot.newSize content
      let (store', confirmed) ← writeSlots digest blockSize offset data slots
        (Function.update store slot.newBlockId sent)
      Except.ok (store',
        (slot.index, slot.newBlockId, digest sent, sent.length) :: confirmed)

/-! ## What a file holds -/

/-- The bytes of a file, its blocks one after the other. -/
def fileBytes (store : String → List UInt8) (f : FileNode) : List UInt8 :=
  f.blocks.flatMap fun b => store b.blockId

/-- The sizes recorded for the blocks of a file. -/
def blockSizes (f : FileNode) : List Int := f.blocks.map BlockRecord.sizeBytes

/-- The layout that writes rely on: blocks of `B` bytes, all of them full but
    the last. -/
def Layout (B : Int) (f : FileNode) : Prop := 0 < B ∧ Filled B (blockSizes f)

/-- The blocks of the file are stored, with the sizes recorded. -/
def Stored (store : String → List UInt8) (f : FileNode) : Prop :=
  ∀ b ∈ f.blocks, b.sizeBytes = (store b.blockId).length

/-! ## Slices -/

section Slices

variable {α : Type} {l new : List α} {i j k : Nat}

theorem sliceBound_natCast (n i : Nat) : sliceBound n i = min i n := by
  rw [sliceBound, if_pos (Int.natCast_nonneg i), Int.toNat_natCast]

theorem getElem?_pySlice : (pySlice l i j)[k]? = if i + k < j then l[i + k]? else none := by
  rw [pySlice, sliceBound_natCast, sliceBound_natCast, List.getElem?_drop,
    List.getElem?_take]
  by_cases hi : i ≤ l.length
  · rw [Nat.min_eq_left hi]
    by_cases hk : i + k < j
    · rw [if_pos hk]
      by_cases hl : i + k < l.length
      · rw [if_pos (by omega)]
      · rw [if_neg (by omega), List.getElem?_eq_none (by omega)]
    · rw [if_neg hk, if_neg (by omega)]
  · rw [if_neg (by omega), List.getElem?_eq_none (by omega), ite_self]

theorem length_pySlice (hj : j ≤ l.length) : (pySlice l i j).length = j - i := by
  rw [pySlice, sliceBound_natCast, sliceBound_natCast, List.length_drop,
    List.length_take]
  omega

theorem pySetSlice_eq_overwrite (hj : j ≤ l.length) (hlen : i + new.length = j) :
    pySetSlice l i j new = overwrite i new l := by
  rw [pySetSlice, sliceBound_natCast, sliceBound_natCast, overwrite,
    Nat.min_eq_left (by omega), Nat.min_eq_left hj, Nat.max_eq_right (by omega), hlen]

end Slices

/-! ## The content of a slot -/

/-- The old part of a new block: its own length, with what the old block had
    at each position. -/
def oldContent (read : String → List UInt8) (slot : SlotDescription) : List UInt8 :=
  if slot.oldBlockId = "" then List.replicate slot.newSize.toNat 0
  else
    pySetSlice (List.replicate slot.newSize.toNat 0) 0
      (pySlice (read slot.oldBlockId) 0 slot.newSize).length
      (pySlice (read slot.oldBlockId) 0 slot.newSize)

section Slot

variable {read : String → List UInt8} {slot : SlotDescription} {old : List UInt8}
  {n : Nat}

theorem slotContent_eq (blockSize offset : Int) (data : List UInt8) :
    slotContent read slot blockSize offset data =
      let blockStart := slot.index * blockSize
      let blockEnd := blockStart + slot.newSize
      let writeStart := max offset blockStart
      let writeEnd := min (offset + data.length) blockEnd
      let written := pySlice data (writeStart - offset) (writeEnd - offset)
      if writeStart = blockStart ∧ writeEnd = blockEnd then .ok written
      else if slot.newSize < 0 then .error ⟨.valueError, "negative count"⟩
      else .ok (pySetSlice (oldContent read slot) (writeStart - blockStart)
        (writeEnd - blockStart) written) := rfl

theorem oldContent_eq_overwrite (hsize : slot.newSize = n)
    (hold : old = if slot.oldBlockId = "" then [] else read slot.oldBlockId) :
    oldContent read slot = overwrite 0 (old.take n) (List.replicate n 0) := by
  rw [oldContent, hsize, Int.toNat_natCast]
  by_cases hid : slot.oldBlockId = ""
  · rw [if_pos hid] at hold ⊢
    rw [hold, List.take_nil]
    simp [overwrite]
  · rw [if_neg hid] at hold ⊢
    rw [← hold]
    have hslice : pySlice old 0 n = old.take n := by
      rw [pySlice, sliceBound_natCast, sliceBound, if_pos le_rfl]
      simp
    rw [hslice]
    refine pySetSlice_eq_overwrite (i := 0) ?_ (Nat.zero_add _)
    rw [List.length_take, List.length_replicate]
    exact Nat.min_le_left n old.length

theorem length_oldContent (hsize : slot.newSize = n)
    (hold : old = if slot.oldBlockId = "" then [] else read slot.oldBlockId) :
    (oldContent read slot).length = n := by
  rw [oldContent_eq_overwrite hsize hold, length_overwrite (Nat.zero_le _),
    List.length_replicate, List.length_take]
  omega

theorem getElem?_oldContent (hsize : slot.newSize = n)
    (hold : old = if slot.oldBlockId = "" then [] else read slot.oldBlockId) {j : Nat}
    (hj : j < n) (hlen : j < old.length) : (oldContent read slot)[j]? = old[j]? := by
  rw [oldContent_eq_overwrite hsize hold, getElem?_overwrite (Nat.zero_le _),
    if_neg (Nat.not_lt_zero j), List.length_take, if_pos (by omega), Nat.sub_zero,
    List.getElem?_take_of_lt hj]

/-- What the client builds for a slot: the data where it falls in the block,
    and the old part elsewhere. -/
theorem slotContent_merges {blockSize : Int} {start off : Nat} {data : List UInt8}
    (hstart : slot.index * blockSize = start) (hsize : slot.newSize = n)
    (hlen : (oldContent read slot).length = n)
    (hlow : off < start + n) (hhigh : start < off + data.length) :
    ∃ content, slotContent read slot blockSize off data = .ok content ∧
      content.length = n ∧ ∀ j, j < n → content[j]? =
        if start + j < off then (oldContent read slot)[j]?
        else if start + j < off + data.length then data[start + j - off]?
        else (oldContent read slot)[j]? := by
  -- the bounds of the written part, in the data and in the block
  have hfrom : max (off : Int) start - off = ((start - off : Nat) : Int) := by omega
  have hto : min ((off : Int) + data.length) (start + n) - off
      = ((min data.length (start + n - off) : Nat) : Int) := by omega
  have hfirst : max (off : Int) start - start = ((off - start : Nat) : Int) := by omega
  have hlast : min ((off : Int) + data.length) (start + n) - start
      = ((min (off + data.length - start) n : Nat) : Int) := by omega
  have hwritten := length_pySlice (l := data) (i := start - off)
    (Nat.min_le_left data.length (start + n - off))
  rw [slotContent_eq]
  dsimp only
  rw [hstart, hsize, hfrom, hto]
  by_cases hfull : max (off : Int) start = start ∧
      min ((off : Int) + data.length) (start + n) = start + n
  · obtain ⟨hoff, hcover⟩ := hfull
    rw [if_pos ⟨hoff, hcover⟩]
    refine ⟨_, rfl, by omega, fun j hj => ?_⟩
    rw [getElem?_pySlice, if_pos (by omega), if_neg (by omega), if_pos (by omega)]
    congr 1
    omega
  · rw [if_neg hfull, if_neg (by omega : ¬ (n : Int) < 0), hfirst, hlast]
    clear hfirst hlast hfrom hto hfull hsize hstart
    rw [pySetSlice_eq_overwrite (by omega) (by omega)]
    refine ⟨_, rfl, ?_, fun j hj => ?_⟩
    · rw [length_overwrite (by omega)]
      omega
    · rw [getElem?_overwrite (by omega), hwritten]
      by_cases h₁ : start + j < off
      · rw [if_pos (by omega), if_pos h₁]
      · rw [if_neg (by omega), if_neg h₁]
        by_cases h₂ : start + j < off + data.length
        · rw [if_pos (by omega), if_pos h₂, getElem?_pySlice, if_pos (by omega)]
          congr 1
          omega
        · rw [if_neg (by omega), if_neg h₂]

/-- **THE CONTENT OF A SLOT IS A BLOCK OF THE NEW CONTENT**: what the client
    builds for the block `i` is the block `i` of the old bytes with the data
    written over them. -/
theorem slotContent_eq_chunk {B off i : Nat} {data xs : List UInt8}
    (hindex : slot.index = i)
    (hsize : slot.newSize
      = (min B (max xs.length (off + data.length) - i * B) : Nat))
    (hoff : off ≤ xs.length) (hdata : 0 < data.length) (hlow : off < (i + 1) * B)
    (hhigh : i * B < off + data.length)
    (hold : chunk B xs i = if slot.oldBlockId = "" then [] else read slot.oldBlockId) :
    slotContent read slot B off data = .ok (chunk B (overwrite off data xs) i) := by
  rw [Nat.succ_mul] at hlow
  have hstart : slot.index * (B : Int) = (i * B : Nat) := by
    rw [hindex, Int.natCast_mul]
  generalize hn : min B (max xs.length (off + data.length) - i * B) = n at hsize
  -- the block ends where it is full, or with the old bytes, or with the data
  have hfull : n ≤ B := hn ▸ Nat.min_le_left _ _
  have hend : i * B + n ≤ xs.length ∨ i * B + n ≤ off + data.length := by omega
  have hbegin : off < i * B + n := by omega
  have hlast : (chunk B (overwrite off data xs) i).length = n := by
    rw [length_chunk, length_overwrite hoff, hn]
  obtain ⟨content, hcontent, hlen, hget⟩ := slotContent_merges hstart hsize
    (length_oldContent hsize hold) hbegin hhigh
  rw [hcontent]
  refine congrArg Except.ok (List.ext_getElem? fun j => ?_)
  by_cases hj : j < n
  · have hbase : i * B + j < xs.length → (oldContent read slot)[j]? = xs[i * B + j]? := by
      intro hx
      have hold' : j < (chunk B xs i).length := by
        rw [length_chunk]
        omega
      rw [getElem?_oldContent hsize hold hj hold', getElem?_chunk, if_pos (by omega)]
    rw [getElem?_chunk, if_pos (by omega), getElem?_overwrite hoff, hget j hj]
    by_cases h₁ : i * B + j < off
    · rw [if_pos h₁, if_pos h₁, hbase (by omega)]
    · rw [if_neg h₁, if_neg h₁]
      by_cases h₂ : i * B + j < off + data.length
      · rw [if_pos h₂, if_pos h₂]
      · rw [if_neg h₂, if_neg h₂, hbase (by omega)]
  · rw [List.getElem?_eq_none (by omega), List.getElem?_eq_none (by omega)]

end Slot

/-! ## The plan -/

/-- Index and size of the slots that a write of `len` bytes at `off` touches in
    a file of `size` bytes. -/
def plannedSlots (B size off len : Nat) : List (Int × Int) :=
  (List.range' (off / B) ((off + len - 1) / B + 1 - off / B)).map fun i : Nat =>
    ((i : Int), ((min B (max size (off + len) - i * B) : Nat) : Int))

theorem slotRange_natCast (a b : Nat) :
    slotRange a b = (List.range' a (b + 1 - a)).map Nat.cast := by
  have hcount : ((b : Int) + 1 - a).toNat = b + 1 - a := by omega
  rw [slotRange, hcount, List.range'_eq_map_range, List.map_map]
  rfl

theorem planWriteSlots_natCast {sizes : List Nat} {B off len : Nat} (hB : 0 < B)
    (hlen : 0 < len) (hoff : off ≤ sizes.sum) :
    planWriteSlots (sizes.map Nat.cast) B off len
      = .ok (plannedSlots B sizes.sum off len) := by
  have hsum : (sizes.map Nat.cast).sum = (sizes.sum : Int) := 
    (map_list_sum (Nat.castAddMonoidHom ℤ) sizes).symm
  have hfirst : (off : Int).fdiv B = (off / B : Nat) := (Int.ofNat_fdiv _ _).symm
  have hlast : ((off : Int) + len - 1).fdiv B = ((off + len - 1) / B : Nat) := by
    rw [Int.ofNat_fdiv]
    congr 1
    omega
  unfold planWriteSlots
  dsimp only
  rw [hsum, if_neg (by omega), if_neg (by omega), if_neg (by omega), hfirst, hlast,
    slotRange_natCast, List.map_map, plannedSlots]
  refine congrArg Except.ok (List.map_congr_left fun i hi => ?_)
  rw [List.mem_range'_1] at hi
  have hend : i * B ≤ off + len - 1 :=
    (Nat.mul_le_mul_right B (by omega)).trans (Nat.div_mul_le_self _ B)
  show ((i : Int), _) = _
  congr 1
  rw [← Int.natCast_mul]
  omega

/-- What the planner has checked. -/
theorem planWriteSlots_ok {sizes : List Int} {blockSize offset length : Int}
    {plan : List (Int × Int)}
    (h : planWriteSlots sizes blockSize offset length = .ok plan) :
    0 < length ∧ 0 ≤ offset ∧ offset ≤ sizes.sum := by
  unfold planWriteSlots at h
  dsimp only at h
  by_cases h₁ : length ≤ 0
  · rw [if_pos h₁] at h
    exact nomatch h
  · by_cases h₂ : offset < 0 ∨ offset > sizes.sum
    · rw [if_neg h₁, if_pos h₂] at h
      exact nomatch h
    · omega

theorem fst_plannedSlots (B size off len : Nat) :
    (plannedSlots B size off len).map Prod.fst
      = (List.range' (off / B) ((off + len - 1) / B + 1 - off / B)).map Nat.cast := by
  rw [plannedSlots, List.map_map]
  rfl

/-- A planned slot lies on the written part. -/
theorem mem_plannedSlots {B size off len : Nat} {q : Int × Int} (hB : 0 < B)
    (hlen : 0 < len) (hq : q ∈ plannedSlots B size off len) :
    ∃ i : Nat, q = ((i : Int), ((min B (max size (off + len) - i * B) : Nat) : Int)) ∧
      off < (i + 1) * B ∧ i * B < off + len := by
  obtain ⟨i, hi, rfl⟩ := List.mem_map.mp hq
  rw [List.mem_range'_1] at hi
  have hfirst : off < (off / B + 1) * B := by
    rw [Nat.succ_mul]
    exact Nat.lt_div_mul_add hB
  have hmono : (off / B + 1) * B ≤ (i + 1) * B := Nat.mul_le_mul_right B (by omega)
  have hend : i * B ≤ off + len - 1 :=
    (Nat.mul_le_mul_right B (by omega)).trans (Nat.div_mul_le_self _ B)
  exact ⟨i, rfl, by omega, by omega⟩

/-- The filled slots are those of the plan. -/
theorem map_fillSlots {plan : List (Int × Int)}
    {proposals : List (Int × String × List String)}
    (h : plan.map Prod.fst = proposals.map Prod.fst) :
    (fillSlots plan proposals).map (fun s => (s.index, s.newSize)) = plan := by
  induction plan generalizing proposals with
  | nil => rfl
  | cons hd plan ih =>
      cases proposals with
      | nil => exact nomatch h
      | cons q proposals =>
          obtain ⟨_, hrest⟩ := List.cons.inj h
          rw [fillSlots, List.map_cons, ih hrest]

/-! ## The description of the slots -/

/-- What the answer of `begin_write` says of a slot. -/
structure Describes (blocks : List BlockRecord) (s : WriteSlotRecord)
    (d : SlotDescription) : Prop where
  index : d.index = s.index
  newBlockId : d.newBlockId = s.newBlockId
  newSize : d.newSize = s.newSize
  oldBlockId : ∀ i : Nat, s.index = i →
    d.oldBlockId = (blocks[i]?.map BlockRecord.blockId).getD ""

theorem describeSlot_ok {blocks : List BlockRecord} {s : WriteSlotRecord}
    {d : SlotDescription} (h : describeSlot blocks s = .ok d) : Describes blocks s d := by
  unfold describeSlot at h
  by_cases hlt : s.index < blocks.length
  · rw [if_pos hlt] at h
    cases hold : pyIndex blocks s.index with
    | error e =>
        rw [hold] at h
        exact nomatch h
    | ok old =>
        rw [hold] at h
        obtain rfl := Except.ok.inj h
        refine ⟨rfl, rfl, rfl, fun i hi => ?_⟩
        rw [hi] at hold hlt
        unfold pyIndex at hold
        dsimp only at hold
        rw [if_pos (Int.natCast_nonneg i), if_pos (Int.natCast_nonneg i),
          Int.toNat_natCast] at hold
        cases hget : blocks[i]? with
        | none => rw [hget] at hold; exact nomatch hold
        | some b => rw [hget] at hold; rw [← Except.ok.inj hold]; rfl
  · rw [if_neg hlt] at h
    obtain rfl := Except.ok.inj h
    refine ⟨rfl, rfl, rfl, fun i hi => ?_⟩
    rw [List.getElem?_eq_none (by omega)]
    rfl

theorem describeSlots_ok {blocks : List BlockRecord} {slots : List WriteSlotRecord}
    {ds : List SlotDescription} (h : describeSlots blocks slots = .ok ds) :
    List.Forall₂ (Describes blocks) slots ds := by
  induction slots generalizing ds with
  | nil => rw [← Except.ok.inj h]; exact .nil
  | cons s slots ih =>
      rw [describeSlots] at h
      cases hd : describeSlot blocks s with
      | error e =>
          rw [hd] at h
          exact nomatch h
      | ok d =>
          cases hds : describeSlots blocks slots with
          | error e =>
              rw [hd, hds] at h
              exact nomatch h
          | ok ds' =>
              rw [hd, hds] at h
              rw [← Except.ok.inj h]
              exact .cons (describeSlot_ok hd) (ih hds)

/-- Every element of a matched list has its match. -/
theorem exists_match {α β : Type} {R : α → β → Prop} {l : List α} {l' : List β}
    (h : List.Forall₂ R l l') {b : β} (hb : b ∈ l') : ∃ a ∈ l, R a b := by
  induction h with
  | nil => exact absurd hb List.not_mem_nil
  | cons ha _ ih =>
      rcases List.mem_cons.mp hb with rfl | hb
      · exact ⟨_, List.mem_cons_self, ha⟩
      · obtain ⟨a, hmem, hR⟩ := ih hb
        exact ⟨a, List.mem_cons_of_mem _ hmem, hR⟩

/-! ## The writing of the slots -/

theorem writeSlots_cons {digest : List UInt8 → String} {blockSize offset : Int}
    {data content : List UInt8} {d : SlotDescription} (slots : List SlotDescription)
    {store : String → List UInt8}
    (hd : slotContent store d blockSize offset data = .ok content)
    (hsize : d.newSize = content.length) :
    writeSlots digest blockSize offset data (d :: slots) store =
      (writeSlots digest blockSize offset data slots
        (Function.update store d.newBlockId content)).map fun q =>
          (q.1, (d.index, d.newBlockId, digest content, d.newSize) :: q.2) := by
  have hsent : sentBytes d.newSize content = content := by
    rw [sentBytes, hsize, Int.toNat_natCast, List.take_length]
  rw [writeSlots, hd]
  show (writeSlots digest blockSize offset data slots (Function.update store
    d.newBlockId (sentBytes d.newSize content)) >>= fun q => Except.ok (q.1,
      (d.index, d.newBlockId, digest (sentBytes d.newSize content),
        ((sentBytes d.newSize content).length : Int)) :: q.2)) = _
  rw [hsent, ← hsize]
  cases writeSlots digest blockSize offset data slots
      (Function.update store d.newBlockId content) with
  | error e => rfl
  | ok q => rfl

/-- Writing slots whose contents are known stores them under their new ids, as
    long as no new id is that of a block still to be read. -/
theorem writeSlots_stores {digest : List UInt8 → String} {blockSize offset : Int}
    {data : List UInt8} {content : SlotDescription → List UInt8}
    {slots : List SlotDescription} {store store' : String → List UInt8}
    {confirmed : List (Int × String × String × Int)}
    (hcontent : ∀ d ∈ slots, ∀ st : String → List UInt8,
      (∀ id, id ∉ slots.map SlotDescription.newBlockId → st id = store id) →
      slotContent st d blockSize offset data = .ok (content d) ∧
      d.newSize = (content d).length)
    (hnew : (slots.map SlotDescription.newBlockId).Nodup)
    (hwrite : writeSlots digest blockSize offset data slots store
      = .ok (store', confirmed)) :
    (∀ d ∈ slots, store' d.newBlockId = content d) ∧
      (∀ id, id ∉ slots.map SlotDescription.newBlockId → store' id = store id) ∧
      confirmed = slots.map fun d =>
        (d.index, d.newBlockId, digest (content d), d.newSize) := by
  induction slots generalizing store confirmed with
  | nil =>
      obtain ⟨rfl, rfl⟩ := Prod.mk.inj (Except.ok.inj hwrite)
      exact ⟨fun d hd => absurd hd List.not_mem_nil, fun _ _ => rfl, rfl⟩
  | cons d slots ih =>
      obtain ⟨hd, hsize⟩ := hcontent d List.mem_cons_self store fun _ _ => rfl
      obtain ⟨hfresh, hnew'⟩ := List.nodup_cons.mp hnew
      rw [writeSlots_cons slots hd hsize] at hwrite
      obtain ⟨⟨st', rest⟩, hrest, hok⟩ := map_eq_ok hwrite
      obtain ⟨rfl, rfl⟩ := Prod.mk.inj hok
      have hupdate : ∀ id, id ∉ (d :: slots).map SlotDescription.newBlockId →
          Function.update store d.newBlockId (content d) id = store id := by
        intro id hid
        refine Function.update_of_ne ?_ _ _
        rintro rfl
        exact hid List.mem_cons_self
      obtain ⟨hin, hout, hconf⟩ := ih (fun d' hd' st hst =>
        hcontent d' (List.mem_cons_of_mem _ hd') st fun id hid =>
          (hst id fun h => hid (List.mem_cons_of_mem _ h)).trans (hupdate id hid))
        hnew' hrest
      refine ⟨?_, ?_, ?_⟩
      · intro d' hd'
        rcases List.mem_cons.mp hd' with rfl | hd'
        · rw [hout _ hfresh, Function.update_self]
        · exact hin d' hd'
      · intro id hid
        rw [hout id fun h => hid (List.mem_cons_of_mem _ h), hupdate id hid]
      · rw [hconf, List.map_cons]

/-- The contents of the blocks of a file. -/
def contents (store : String → List UInt8) (f : FileNode) : List (List UInt8) :=
  f.blocks.map fun b => store b.blockId

theorem fileBytes_eq_flatten (store : String → List UInt8) (f : FileNode) :
    fileBytes store f = (contents store f).flatten := List.flatMap_def ..

theorem blockSizes_of_stored {store : String → List UInt8} {f : FileNode}
    (h : Stored store f) :
    blockSizes f = ((contents store f).map List.length).map Nat.cast := by
  rw [blockSizes, contents, List.map_map, List.map_map]
  exact List.map_congr_left h

theorem sum_blockSizes {store : String → List UInt8} {f : FileNode}
    (h : Stored store f) : (blockSizes f).sum = (fileBytes store f).length := by
  rw [blockSizes_of_stored h, fileBytes_eq_flatten, List.length_flatten]
  exact (map_list_sum (Nat.castAddMonoidHom ℤ) _).symm

/-- **WHAT THE CLIENT STORES** for the planned slots of a file are the blocks
    of its new content; the old blocks stay as they are. -/
theorem writeSlots_planned {f : FileNode} {B off : Nat} {data : List UInt8}
    {records : List WriteSlotRecord} {slots : List SlotDescription}
    {store store' : String → List UInt8} {digest : List UInt8 → String}
    {confirmed : List (Int × String × String × Int)}
    (hB : 0 < B) (hfilled : Filled B ((contents store f).map List.length))
    (hids : ∀ b ∈ f.blocks, b.blockId ≠ "") (hdata : 0 < data.length)
    (hoff : off ≤ (fileBytes store f).length)
    (hplan : records.map (fun s => (s.index, s.newSize))
      = plannedSlots B (fileBytes store f).length off data.length)
    (hdescribed : List.Forall₂ (Describes f.blocks) records slots)
    (hnew : (slots.map SlotDescription.newBlockId).Nodup)
    (hfresh : ∀ b ∈ f.blocks, b.blockId ∉ slots.map SlotDescription.newBlockId)
    (hwrite : writeSlots digest B off data slots store = .ok (store', confirmed)) :
    records.map (fun s => store' s.newBlockId)
        = chunks B (overwrite off data (fileBytes store f)) (off / B)
          ((off + data.length - 1) / B + 1 - off / B) ∧
      (∀ s ∈ records, s.newSize = (store' s.newBlockId).length) ∧
      ∀ b ∈ f.blocks, store' b.blockId = store b.blockId := by
  obtain ⟨ys, hys⟩ : ∃ ys, ys = overwrite off data (fileBytes store f) := ⟨_, rfl⟩
  have hyslen : ys.length = max (fileBytes store f).length (off + data.length) :=
    hys ▸ length_overwrite hoff
  have hcontent : ∀ d ∈ slots, ∀ st : String → List UInt8,
      (∀ id, id ∉ slots.map SlotDescription.newBlockId → st id = store id) →
      slotContent st d B off data = .ok (chunk B ys d.index.toNat) ∧
      d.newSize = (chunk B ys d.index.toNat).length := by
    intro d hd st hst
    obtain ⟨s, hs, hdesc⟩ := exists_match hdescribed hd
    have hslot : (s.index, s.newSize)
        ∈ plannedSlots B (fileBytes store f).length off data.length := by
      rw [← hplan]
      exact List.mem_map_of_mem hs
    obtain ⟨i, hi, hlow, hhigh⟩ := mem_plannedSlots hB hdata hslot
    obtain ⟨hindex, hsize⟩ := Prod.mk.inj hi
    have hdindex : d.index = i := hdesc.index.trans hindex
    have hdsize := hdesc.newSize.trans hsize
    rw [hdindex, Int.toNat_natCast]
    refine ⟨?_, ?_⟩
    · rw [hys]
      refine slotContent_eq_chunk hdindex hdsize hoff hdata hlow hhigh ?_
      -- the old block is the block of the old content at the same place
      rw [fileBytes_eq_flatten, chunk_flatten hfilled, hdesc.oldBlockId i hindex, contents,
        List.getElem?_map]
      cases hb : f.blocks[i]? with
      | none => rfl
      | some b =>
          have hmem := List.mem_of_getElem? hb
          show store b.blockId = if b.blockId = "" then [] else st b.blockId
          rw [if_neg (hids b hmem), hst _ (hfresh b hmem)]
    · rw [hdsize, length_chunk, hyslen]
  obtain ⟨hin, hout, _⟩ := writeSlots_stores hcontent hnew hwrite
  have hrecord : ∀ s ∈ records, store' s.newBlockId = chunk B ys s.index.toNat ∧
      s.newSize = (store' s.newBlockId).length := by
    intro s hs
    obtain ⟨d, hd, hdesc⟩ := exists_match (R := fun d s => Describes f.blocks s d)
      (List.Forall₂.flip hdescribed) hs
    have hstore := hin d hd
    rw [hdesc.newBlockId, hdesc.index] at hstore
    refine ⟨hstore, ?_⟩
    rw [hstore, ← hdesc.newSize, ← hdesc.index]
    exact (hcontent d hd store fun _ _ => rfl).2
  refine ⟨?_, fun s hs => (hrecord s hs).2, fun b hb => hout _ (hfresh b hb)⟩
  rw [List.map_congr_left fun s hs => (hrecord s hs).1, ← hys]
  have hmap := congrArg (List.map fun q : Int × Int => chunk B ys q.1.toNat) hplan
  rw [plannedSlots, List.map_map, List.map_map] at hmap
  exact hmap

/-! ## The commit -/

/-- The block that a confirmed slot becomes. -/
def publishedBlock (q : WriteSlotRecord × String × Int) : BlockRecord :=
  ⟨q.1.newBlockId, q.1.newAddresses, q.2.1, q.2.2, true⟩

/-- **A COMMIT SPLICES THE NEW BLOCKS IN**, in the places of as many old ones
    or past the end. -/
theorem publishSlots_splices {slots : List (WriteSlotRecord × String × Int)}
    {first : Nat} {blocks : List BlockRecord}
    (hslots : slots.map (fun q => q.1.index)
      = (List.range' first slots.length).map Nat.cast)
    (hfirst : first ≤ blocks.length) :
    (publishSlots blocks slots).1 = blocks.take first ++ slots.map publishedBlock
      ++ blocks.drop (first + slots.length) := by
  induction slots generalizing first blocks with
  | nil =>
      rw [List.map_nil, List.append_nil, List.length_nil, Nat.add_zero,
        List.take_append_drop]
      rfl
  | cons q slots ih =>
      obtain ⟨slot, checksum, size⟩ := q
      rw [List.length_cons, List.range'_succ, List.map_cons, List.map_cons] at hslots
      obtain ⟨hindex, hrest⟩ := List.cons.inj hslots
      have hindex' : slot.index = first := hindex
      obtain ⟨new, hnew⟩ : ∃ new : BlockRecord,
          new = ⟨slot.newBlockId, slot.newAddresses, checksum, size, true⟩ := ⟨_, rfl⟩
      rw [publishSlots, ← hnew, List.map_cons, List.length_cons, hindex']
      have hpub : publishedBlock (slot, checksum, size) = new := hnew.symm
      rw [hpub]
      by_cases hlt : first < blocks.length
      · obtain ⟨old, hold⟩ := pyIndex_ok (l := blocks) (i := (first : Int))
          (by omega) (by omega)
        rw [if_pos (by omega), hold]
        show (publishSlots (pySet blocks first new) slots).1 = _
        have hset : pySet blocks first new = blocks.set first new := by
          rw [pySet, if_pos (Int.natCast_nonneg first), Int.toNat_natCast]
        rw [hset, ih hrest (by rw [List.length_set]; omega), List.take_add_one,
          List.getElem?_set_self hlt, List.take_set_of_le le_rfl]
        have hdrop : (blocks.set first new).drop (first + 1 + slots.length)
            = blocks.drop (first + (slots.length + 1)) := by
          rw [List.drop_set_of_lt (by omega)]
          congr 1
          omega
        rw [hdrop]
        simp
      · have hend : blocks.length = first := by omega
        rw [if_neg (by omega), ih hrest (by rw [List.length_append, hend]; simp),
          List.take_of_length_le (by rw [List.length_append, hend]; simp),
          List.drop_of_length_le (by rw [List.length_append, hend]; simp),
          List.drop_of_length_le (by omega), List.take_of_length_le (by omega)]
        simp

/-- The commit of planned slots. -/
theorem publishSlots_planned {B size off len : Nat} {blocks : List BlockRecord}
    {records : List WriteSlotRecord} {qs : List (WriteSlotRecord × String × Int)}
    (hlen : 0 < len) (hfirst : off / B ≤ blocks.length)
    (hrecords : records.map (fun s => (s.index, s.newSize)) = plannedSlots B size off len)
    (hfst : qs.map Prod.fst = records) :
    (publishSlots blocks qs).1 = blocks.take (off / B) ++ qs.map publishedBlock
        ++ blocks.drop (off / B + qs.length) ∧
      off / B + qs.length = (off + len - 1) / B + 1 ∧
      records.map WriteSlotRecord.index
        = (List.range' (off / B) qs.length).map Nat.cast := by
  have hcount : qs.length = (off + len - 1) / B + 1 - off / B := by
    have hlength := congrArg List.length hrecords
    rw [List.length_map, ← hfst, List.length_map, plannedSlots, List.length_map,
      List.length_range'] at hlength
    exact hlength
  have hindexes : records.map WriteSlotRecord.index
      = (List.range' (off / B) qs.length).map Nat.cast := by
    have hmap := congrArg (List.map Prod.fst) hrecords
    rw [List.map_map, fst_plannedSlots, ← hcount] at hmap
    exact hmap
  have hlast : off / B ≤ (off + len - 1) / B := Nat.div_le_div_right (by omega)
  refine ⟨publishSlots_splices ?_ hfirst, by omega, hindexes⟩
  rw [← hindexes, ← hfst, List.map_map]
  rfl

/-! ## The whole write -/

theorem contents_of_same {f f' : FileNode} (h : SameFile f f')
    (store : String → List UInt8) : contents store f' = contents store f := by
  have hids := congrArg (List.map fun c : String × String × Int × Bool => store c.1)
    h.content
  rw [content, content, List.map_map, List.map_map] at hids
  exact hids

theorem stored_of_same {f f' : FileNode} (h : SameFile f f')
    {store : String → List UInt8} (hstored : Stored store f) : Stored store f' := by
  intro b hb
  have hmem : (b.blockId, b.checksum, b.sizeBytes, b.confirmed) ∈ content f' :=
    List.mem_map_of_mem hb
  rw [h.content] at hmem
  obtain ⟨b', hb', heq⟩ := List.mem_map.mp hmem
  obtain ⟨hid, hrest⟩ := Prod.mk.inj heq
  obtain ⟨_, hrest⟩ := Prod.mk.inj hrest
  rw [← (Prod.mk.inj hrest).1, ← hid]
  exact hstored b' hb'

/-- **A FILE WITH THE NEW BLOCKS SPLICED IN HAS THE NEW CONTENT**, and its
    blocks are laid out as before. -/
theorem spliced_file {f f' : FileNode} {B off k : Nat} {data : List UInt8}
    {store : String → List UInt8} {qs : List (WriteSlotRecord × String × Int)}
    (hB : 0 < B) (hfilled : Filled B ((contents store f).map List.length))
    (hstored : Stored store f) (hdata : 0 < data.length)
    (hoff : off ≤ (fileBytes store f).length)
    (hk : off / B + k = (off + data.length - 1) / B + 1)
    (hnew : qs.map (fun q => store q.1.newBlockId)
      = chunks B (overwrite off data (fileBytes store f)) (off / B) k)
    (hsizes : ∀ q ∈ qs, q.2.2 = (store q.1.newBlockId).length)
    (hblocks : f'.blocks = f.blocks.take (off / B) ++ qs.map publishedBlock
      ++ f.blocks.drop (off / B + k)) :
    fileBytes store f' = overwrite off data (fileBytes store f) ∧
      Filled B ((contents store f').map List.length) ∧ Stored store f' := by
  have hcontents : contents store f' = (contents store f).take (off / B)
      ++ chunks B (overwrite off data (fileBytes store f)) (off / B) k
      ++ (contents store f).drop (off / B + k) := by
    rw [← hnew, contents, hblocks, List.map_append, List.map_append, List.map_take,
      List.map_drop, List.map_map]
    rfl
  rw [fileBytes_eq_flatten, fileBytes_eq_flatten, hcontents]
  rw [fileBytes_eq_flatten] at hoff ⊢
  obtain ⟨hflatten, hfilled'⟩ := replace_chunks hfilled hB hoff
    (List.ne_nil_of_length_pos hdata) rfl hk
  refine ⟨hflatten, hfilled', ?_⟩
  intro b hb
  rw [hblocks] at hb
  rcases List.mem_append.mp hb with hb | hb
  · rcases List.mem_append.mp hb with hb | hb
    · exact hstored b (List.mem_of_mem_take hb)
    · obtain ⟨q, hq, rfl⟩ := List.mem_map.mp hb
      exact hsizes q hq
  · exact hstored b (List.mem_of_mem_drop hb)

/-- A splice leaves the positions before and after it. -/
theorem getElem?_splice {α : Type} {l new : List α} {a i : Nat} (ha : a ≤ l.length)
    (hi : i < a ∨ a + new.length ≤ i) :
    (l.take a ++ new ++ l.drop (a + new.length))[i]? = l[i]? := by
  have hlen : (l.take a ++ new).length = a + new.length := by
    rw [List.length_append, List.length_take, Nat.min_eq_left ha]
  rcases hi with hlt | hge
  · rw [List.append_assoc, List.getElem?_append_left (by rw [List.length_take]; omega),
      List.getElem?_take_of_lt hlt]
  · rw [List.getElem?_append_right (by omega), hlen, List.getElem?_drop]
    congr 1
    omega

/-- The file `f`, the same up to its replicas as the planned one, once the
    written slots are published. -/
theorem publishSlots_written {f₀ f : FileNode} (f' : FileNode) {B off : Nat} {data : List UInt8}
    {store store' : String → List UInt8} {records : List WriteSlotRecord}
    {qs : List (WriteSlotRecord × String × Int)}
    (hB : 0 < B) (hfilled : Filled B ((contents store f₀).map List.length))
    (hstored : Stored store f₀) (hdata : 0 < data.length)
    (hoff : off ≤ (fileBytes store f₀).length)
    (hrecords : records.map (fun s => (s.index, s.newSize))
      = plannedSlots B (fileBytes store f₀).length off data.length)
    (hchunks : records.map (fun s => store' s.newBlockId)
      = chunks B (overwrite off data (fileBytes store f₀)) (off / B)
        ((off + data.length - 1) / B + 1 - off / B))
    (hlengths : ∀ s ∈ records, s.newSize = (store' s.newBlockId).length)
    (hkept : ∀ b ∈ f₀.blocks, store' b.blockId = store b.blockId)
    (hsame : SameFile f₀ f) (hfst : qs.map Prod.fst = records)
    (hsizes : qs.map (fun q => q.2.2) = records.map WriteSlotRecord.newSize)
    (hblocks : f'.blocks = (publishSlots f.blocks qs).1) :
    fileBytes store' f' = overwrite off data (fileBytes store f₀) ∧
      Filled B ((contents store' f').map List.length) ∧ Stored store' f' ∧
      ∀ i : Nat, (i : Int) ∉ records.map WriteSlotRecord.index →
        f'.blocks[i]? = f.blocks[i]? := by
  -- in the new store the file `f` has the old contents
  have hcontents : contents store' f = contents store f₀ := by
    rw [contents_of_same hsame]
    exact List.map_congr_left hkept
  have hstored' : Stored store' f := by
    refine stored_of_same hsame fun b hb => ?_
    rw [hstored b hb, hkept b hb]
  have hbytes : fileBytes store' f = fileBytes store f₀ := by
    rw [fileBytes_eq_flatten, fileBytes_eq_flatten, hcontents]
  have hfirst : off / B ≤ f.blocks.length := by
    have hle := (length_of_filled hfilled).1
    rw [← fileBytes_eq_flatten, ← hcontents, contents, List.length_map] at hle
    exact Nat.div_le_of_le_mul ((hoff.trans hle).trans_eq (Nat.mul_comm _ _))
  obtain ⟨hspliced, hcount, hindexes⟩ := publishSlots_planned hdata hfirst hrecords hfst
  rw [← hblocks] at hspliced
  obtain ⟨h₁, h₂, h₃⟩ := spliced_file hB (hcontents ▸ hfilled) hstored' hdata
    (hbytes ▸ hoff) hcount
    (by rw [hbytes, Nat.eq_sub_of_add_eq' hcount, ← hchunks, ← hfst, List.map_map]; rfl)
    (fun q hq => by
      rw [← hfst, List.map_map] at hsizes
      rw [List.map_inj_left.mp hsizes q hq]
      exact hlengths q.1 (hfst ▸ List.mem_map_of_mem hq)) hspliced
  rw [hbytes] at h₁
  refine ⟨h₁, h₂, h₃, fun i hi => ?_⟩
  rw [hspliced, ← List.length_map publishedBlock]
  refine getElem?_splice hfirst ?_
  rw [List.length_map]
  by_contra hin
  refine hi ?_
  rw [hindexes]
  exact List.mem_map_of_mem (List.mem_range'_1.mpr (by omega))

/-- What a `begin_write` that answers has checked and stored. -/
theorem effect_beginWrite_ok {p w w' l : String} {version v B offset length : Int}
    {proposals : List (Int × String × List String)} {now leaseS : Time}
    {default : Int} {caller : Option Caller} {m m' : Metadata}
    {slots : List SlotDescription}
    (he : Effect (.beginWrite p w l version offset length proposals now leaseS default
      caller) m (.ok (.writeBegun w' v B slots)) m') :
    w' = w ∧ ∃ ps f res, parts p = .ok ps ∧
      Reserves m ps f w l version offset length proposals now leaseS default caller
        res ∧
      m'.write w = some res ∧ describeSlots f.blocks res.slots = .ok slots ∧
      B = res.blockSize := by
  cases he with
  | @beginWrite _ _ _ _ _ _ _ _ _ _ _ _ ps f r described hparts hr hdescribed =>
      refine ⟨rfl, ps, f, r, hparts, hr, ?_, hdescribed, rfl⟩
      rw [Metadata.write_setWrite, if_pos rfl]

/-! ## A write from its begin to its commit -/

/-- What a client asks for when it writes, what the leader proposes and answers,
    what the client stores, and what it asks for when it commits. -/
structure ClientWrite where
  path : String
  writeId : String
  lockId : String
  version : Int
  offset : Nat
  data : List UInt8
  proposals : List (Int × String × List String)
  now : Time
  leaseS : Time
  default : Int
  caller : Option Caller
  -- the answer
  answeredVersion : Int
  blockSize : Int
  slots : List SlotDescription
  -- what the blocks hold before and after the new ones are stored
  store : String → List UInt8
  store' : String → List UInt8
  confirmed : List (Int × String × String × Int)
  -- the commit
  commitPath : String
  commitLockId : String
  baseVersion : Int
  commitNow : Time
  commitCaller : Option Caller

namespace ClientWrite

variable (c : ClientWrite)

def beginWrite : Mutation :=
  .beginWrite c.path c.writeId c.lockId c.version c.offset c.data.length c.proposals c.now
    c.leaseS c.default c.caller

def commitWrite : Mutation :=
  .commitWrite c.commitPath c.writeId c.commitLockId c.baseVersion c.confirmed c.commitNow
    c.commitCaller

/-- The write is begun at `s₀`, after `pre`, on a file whose blocks are stored; the
    client builds the new blocks from the old ones and stores them under ids
    that nobody has; and the commit at `s₂` succeeds. -/
structure Completes (pre : List Mutation) (s₀ : ControlTree) (f₀ : FileNode)
    (s₂ : ControlTree) : Prop where
  stored : Stored c.store f₀
  ids : ∀ b ∈ f₀.blocks, b.blockId ≠ ""
  begins : (exec c.beginWrite s₀).1
    = .ok (.writeBegun c.writeId c.answeredVersion c.blockSize c.slots)
  distinct : (c.slots.map SlotDescription.newBlockId).Nodup
  fresh : ∀ b ∈ f₀.blocks, b.blockId ∉ c.slots.map SlotDescription.newBlockId
  writes : ∃ digest, writeSlots digest c.blockSize c.offset c.data c.slots c.store
    = .ok (c.store', c.confirmed)
  between : ∃ mid, controlTree.Path (exec c.beginWrite s₀).2 mid s₂ ∧
    ((pre ++ c.beginWrite :: mid).flatMap acquiredLocks).Nodup ∧
    ((pre ++ c.beginWrite :: mid).flatMap begunWrites).Nodup
  commits : ∃ committed replaced,
    (exec c.commitWrite s₂).1 = .ok (.writeCommitted committed replaced)

/-- Of the file at the begin, just before the commit and after it: the old bytes
    with the data written over them, and the other blocks as they were. -/
structure Overwrites (f₀ f₂ f₃ : FileNode) : Prop where
  same : SameFile f₀ f₂
  bytes : fileBytes c.store' f₃ = (fileBytes c.store f₀).take c.offset ++ c.data
    ++ (fileBytes c.store f₀).drop (c.offset + c.data.length)
  size : (blockSizes f₃).sum = max (blockSizes f₀).sum (c.offset + c.data.length)
  others : ∀ i : Nat, (i : Int) ∉ c.slots.map SlotDescription.index →
    f₃.blocks[i]? = f₂.blocks[i]?
  layout : Layout c.blockSize f₃
  blockSize : f₃.blockSize = c.blockSize
  stored : Stored c.store' f₃

end ClientWrite

/-- The file that a completed write leaves, from the layout it was planned
    for: this is the whole argument, shared by all who know the layout. -/
theorem written_file {c : ClientWrite} {pre : List Mutation} {s₀ s₂ : ControlTree}
    {ps : List String} {f₀ : FileNode} (hpre : controlTree.Run pre s₀)
    (hparts : parts c.path = .ok ps) (hfile : s₀.root.view ps = some (.file f₀))
    (hlayout : Layout c.blockSize f₀) (hc : c.Completes pre s₀ f₀ s₂) :
    ∃ f₂ f₃, s₂.root.view ps = some (.file f₂) ∧
      (exec c.commitWrite s₂).2.root.view ps = some (.file f₃) ∧ c.Overwrites f₀ f₂ f₃ := by
  obtain ⟨p, w, l, version, off, data, proposals, now, leaseS, default, caller, v, B, slots,
    store, store', confirmed, p', l', version', now', caller'⟩ := c
  obtain ⟨hstored, hids, hbegin, hnew, hfresh, ⟨digest, hwrite⟩, ⟨mid, hmid, hlocks, hwrites⟩,
    ⟨committed, replaced, hcommit⟩⟩ := hc
  dsimp only at hparts hlayout hstored hnew hfresh hwrite
  -- what the begin has checked and answered
  have hebegin := exec_effect (.beginWrite p w l version off data.length proposals now
    leaseS default caller) s₀
  rw [show (exec (.beginWrite p w l version off data.length proposals now leaseS default
    caller) s₀).1 = _ from hbegin] at hebegin
  obtain ⟨_, ps₁, f₁, res, hps₁, hreserves₁, hreserved, hdescribed, rfl⟩ :=
    effect_beginWrite_ok hebegin
  obtain rfl : ps = ps₁ := Except.ok.inj (hparts.symm.trans hps₁)
  obtain rfl : f₀ = f₁ :=
    Entry.file.inj (Option.some.inj (hfile.symm.trans hreserves₁.hfile))
  -- the file is the same at the commit
  obtain ⟨ps₂, f₀', f₂, blocks, hps₂, _, hreserves, hpub, hblocks, _, hnode₃, hsame⟩ :=
    same_file_until_commit hpre hreserved hmid hcommit hlocks hwrites
  obtain rfl : ps = ps₂ := Except.ok.inj (hparts.symm.trans hps₂)
  obtain rfl : f₀ = f₀' :=
    Entry.file.inj (Option.some.inj (hfile.symm.trans hreserves.hfile))
  obtain ⟨f₂', hf₂', hsame₂⟩ := hsame mid [] s₂ (List.append_nil _).symm hmid
  obtain rfl : f₂ = f₂' := Entry.file.inj (Option.some.inj (hpub.hfile.symm.trans hf₂'))
  -- the sizes and the plan as natural numbers
  obtain ⟨hpos, hfilled⟩ := hlayout
  obtain ⟨plan, hplan, hproposed, hslots⟩ := hreserves.hplan
  rw [← hreserves.hblockSize] at hplan
  obtain ⟨hlength, _, hinside⟩ := planWriteSlots_ok hplan
  have hdata : 0 < data.length := by omega
  have hoff : off ≤ (fileBytes store f₀).length := by
    rw [← blockSizes, sum_blockSizes hstored] at hinside
    omega
  obtain ⟨B, hB⟩ := Int.eq_ofNat_of_zero_le hpos.le
  rw [hB] at hpos hfilled hplan hwrite ⊢
  have hpos' : 0 < B := by omega
  have hsizes₀ := blockSizes_of_stored hstored
  have htotal : ((contents store f₀).map List.length).sum = (fileBytes store f₀).length := by
    rw [fileBytes_eq_flatten, List.length_flatten]
  rw [← blockSizes] at hplan
  rw [hsizes₀, filled_natCast] at hfilled
  rw [hsizes₀, planWriteSlots_natCast hpos' hdata (htotal ▸ hoff), htotal] at hplan
  have hrecords : res.slots.map (fun s => (s.index, s.newSize))
      = plannedSlots B (fileBytes store f₀).length off data.length := by
    rw [hslots, map_fillSlots hproposed, Except.ok.inj hplan]
  -- what the client has stored, and what the commit publishes of it
  obtain ⟨hchunks, hlengths, hkept⟩ := writeSlots_planned hpos' hfilled hids hdata hoff
    hrecords (describeSlots_ok hdescribed) hnew hfresh hwrite
  obtain ⟨h₁, h₂, h₃, h₄⟩ := publishSlots_written { f₂ with
      blocks, version := f₂.version + 1, blockSize := B } hpos' hfilled hstored
    hdata hoff hrecords hchunks hlengths hkept hsame₂ (fst_confirmedSlots hpub.hslots)
    (sizes_confirmedSlots hpub.hslots) (congrArg Prod.fst hblocks).symm
  rw [hB] at hnode₃
  refine ⟨f₂, _, hpub.hfile, hnode₃, hsame₂, h₁, ?_, ?_, ⟨hpos, ?_⟩, rfl, h₃⟩
  · show (blockSizes _).sum = max (blockSizes f₀).sum ((off : Int) + data.length)
    rw [sum_blockSizes h₃, sum_blockSizes hstored, h₁, length_overwrite hoff]
    omega
  · intro i hi
    refine h₄ i fun hmem => hi ?_
    obtain ⟨s, hs, hindex⟩ := List.mem_map.mp hmem
    obtain ⟨d, hd, hdesc⟩ := exists_match (R := fun d s => Describes f₀.blocks s d)
      (List.Forall₂.flip (describeSlots_ok hdescribed)) hs
    exact List.mem_map.mpr ⟨d, hd, hdesc.index.trans hindex⟩
  · rw [blockSizes_of_stored h₃]
    exact filled_natCast.mpr h₂

/-- **A WRITE REPLACES EXACTLY ITS RANGE.**  The client begins a write of some
    data inside a committed file or at its end, builds and stores the new
    blocks from the old ones, and the commit succeeds: the file then holds the
    old bytes with the data written over them, the blocks outside the planned
    slots are the ones that were there, and the layout holds again. -/
theorem write_replaces_range {c : ClientWrite} {pre : List Mutation} {s₀ s₂ : ControlTree}
    {ps : List String} {f₀ : FileNode} (hpre : controlTree.Run pre s₀)
    (hparts : parts c.path = .ok ps) (hfile : s₀.root.view ps = some (.file f₀))
    (hlayout : Layout c.blockSize f₀) (hc : c.Completes pre s₀ f₀ s₂) :
    ∃ f₂ f₃, s₂.root.view ps = some (.file f₂) ∧
      (exec c.commitWrite s₂).2.root.view ps = some (.file f₃) ∧ c.Overwrites f₀ f₂ f₃ :=
  written_file hpre hparts hfile hlayout hc

/-- The locked file, of one full block. -/
def lockedNode : FileNode where
  state := .committed
  blocks := [⟨"b1", ["n1"], "c1", 4, true⟩]
  blockSize := 4
  attrs := ownership none fileMode

/-- The locked file holds `abcd`. -/
def lockedStore : String → List UInt8 :=
  Function.update (fun _ => []) "b1" [97, 98, 99, 100]

/-- SHA-256 on the two blocks that the write stores. -/
def lockedDigest (content : List UInt8) : String :=
  if content = [97, 98, 119, 120] then
    "8e172151a5327fb268c2872caf10af0a975080c1cec08de18e1b48216a4178d4"
  else if content = [121, 122] then
    "68d617d6d2ee5715af77d9795566cfaba9a43a33d14cbbc95831c507c935bad1"
  else ""

/-- The slots of the answer: the full block, and a new one after it. -/
def lockedSlots : List SlotDescription :=
  [⟨0, "b1", 4, ["n1"], "b2", ["n1"], 4⟩, ⟨1, "", 0, [], "b3", ["n1"], 2⟩]

/-- The slots as the client confirms them. -/
def lockedConfirmed : List (Int × String × String × Int) :=
  [(0, "b2", lockedDigest [97, 98, 119, 120], 4), (1, "b3", lockedDigest [121, 122], 2)]

/-- Writing `wxyz` over the second half of the block. -/
def lockedClient (store' : String → List UInt8) : ClientWrite where
  path := "/f"
  writeId := "w1"
  lockId := "L"
  version := 0
  offset := 2
  data := [119, 120, 121, 122]
  proposals := [(0, "b2", ["n1"]), (1, "b3", ["n1"])]
  now := 1
  leaseS := 60
  default := 4
  caller := none
  answeredVersion := 0
  blockSize := 4
  slots := lockedSlots
  store := lockedStore
  store' := store'
  confirmed := lockedConfirmed
  commitPath := "/f"
  commitLockId := "L"
  baseVersion := 0
  commitNow := 2
  commitCaller := none

/-- It makes the file longer. -/
theorem write_replaces_range_extends :
    ∃ store' f₃,
      (exec (lockedClient store').commitWrite
        (exec lockedWrite lockedState).2).2.root.view ["f"] = some (.file f₃) ∧
      fileBytes store' f₃ = [97, 98, 119, 120, 121, 122] := by
  have hslots : (writeSlots lockedDigest 4 2 [119, 120, 121, 122] lockedSlots
      lockedStore).map Prod.snd = .ok lockedConfirmed := by decide +kernel
  obtain ⟨⟨store', confirmed⟩, hwrite, rfl⟩ := map_eq_ok hslots
  have hfile : lockedState.root.view ["f"] = some (.file lockedNode) := by decide +kernel
  have hblock : ∀ b ∈ lockedNode.blocks, b = ⟨"b1", ["n1"], "c1", 4, true⟩ := by
    intro b hb
    exact List.mem_singleton.mp hb
  have hlayout : Layout 4 lockedNode := ⟨by decide, by decide⟩
  have hbegin : (exec lockedWrite lockedState).1
      = .ok (.writeBegun "w1" 0 4 lockedSlots) := by decide +kernel
  have hdistinct : (lockedSlots.map SlotDescription.newBlockId).Nodup := by decide
  have hfresh : "b1" ∉ lockedSlots.map SlotDescription.newBlockId := by decide
  have hlocks : ((lockedFile ++ [lockedWrite]).flatMap acquiredLocks).Nodup := by decide
  have hwrites : ((lockedFile ++ [lockedWrite]).flatMap begunWrites).Nodup := by decide
  have hcommit : (exec (.commitWrite "/f" "w1" "L" 0 lockedConfirmed 2 none)
      (exec lockedWrite lockedState).2).1
      = .ok (.writeCommitted 1 [⟨"b1", ["n1"], "c1", 4, true⟩]) := by decide +kernel
  obtain ⟨_, f₃, _, hf₃, hover⟩ :=
    write_replaces_range (c := lockedClient store')
      ⟨_, rfl, path_foldl ControlTree.empty lockedFile⟩
      (show parts "/f" = .ok ["f"] by decide) hfile hlayout
      { stored := fun b hb => by rw [hblock b hb]; rfl
        ids := fun b hb => by rw [hblock b hb]; decide
        begins := hbegin
        distinct := hdistinct
        fresh := fun b hb => by rw [hblock b hb]; exact hfresh
        writes := ⟨lockedDigest, hwrite⟩
        between := ⟨[], .start, hlocks, hwrites⟩
        commits := ⟨1, _, hcommit⟩ }
  exact ⟨store', f₃, hf₃, hover.bytes⟩

end DfshaCopyOnWrite
