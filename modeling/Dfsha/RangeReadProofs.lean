import Dfsha.BlockFailoverProofs

/-! # Reading a range of a file

    A range of a file is a range of each block that it touches.  The client
    finds the blocks by adding up their sizes and asks each one for its part.

    In a request to a DataNode the length 0 means to the end of the block.
    The part of a block that a range touches is never empty, unless the range
    is: an empty range strictly inside a block is asked for as length 0, and
    the rest of the block comes back.  Every other range is read exactly. -/

namespace DfshaRangeRead

open RaisingAction FileEdits Stretch DfshaPath DfshaBlockStore DfshaContainer
open DfshaBlockRead DfshaRoundTrip DfshaBlockFailover

/-! ## The client -/

/-- What the calls to the ControlNode end in.  `lock` is a success when there
    is an open handle on the path; the release of a lock has no effect on the
    result of the read. -/
structure ControlCalls where
  lock : Except ClientError Unit
  listBlocks : Except ClientError (List BlockLocation)

/-- An error of an RPC becomes one of the client. -/
def translated {α : Type} (x : Transfer α) : Transfer α := fun c =>
  match x c with
  | (.error (.rpc e), c') => (.error (translate e), c')
  | ended => ended

section Client

variable (network : Network) (h : Handle) (offset stop : Int)

/-- The part of a block that belongs to the range. -/
def readPart (blockStart : Int) (block : BlockLocation) : Transfer Nat :=
  let blockEnd := blockStart + block.sizeBytes
  if blockStart < stop ∧ offset < blockEnd then
    let startInBlock := max offset blockStart - blockStart
    let count := min stop blockEnd - blockStart - startInBlock
    readBlockWithFailover network h never block startInBlock count
  else pure 0

/-- `for block in blocks`. -/
def readBlocks : Int → List BlockLocation → Transfer Nat
  | _, [] => pure 0
  | blockStart, block :: rest => do
      let bytesWritten ← readPart network h offset stop blockStart block
      let others ← readBlocks (blockStart + block.sizeBytes) rest
      pure (bytesWritten + others)

end Client

def invalidRange (offset : Int) (length : Option Int) : ClientError :=
  let asked := (length.map toString).getD "None"
  .domain .invalidPathError s!"rango inválido: offset={offset}, length={asked}"

/-- `_read_range`. -/
def readRange (network : Network) (h : Handle) (calls : ControlCalls) (offset : Int)
    (length : Option Int) : Transfer Nat := do
  raiseIf (offset < 0 ∨ ∃ n ∈ length, n < 0) (invalidRange offset length)
  ofExcept calls.lock
  translated do
    let blocks ← ofExcept calls.listBlocks
    let size := (blocks.map BlockLocation.sizeBytes).sum
    raiseIf (size < offset)
      (.domain .invalidPathError s!"offset {offset} fuera del archivo ({size} bytes)")
    let stop := (length.map fun n => min size (offset + n)).getD size
    readBlocks network h offset stop 0 blocks

/-! ## A file and its replicas -/

/-- The contents of a file, block by block. -/
def contentOf (blocks : List (BlockLocation × Bytes)) : Bytes :=
  (blocks.map Prod.snd).flatten

section Stored

variable (crypto : Crypto) (key : Bytes) (network : Network)

/-- The replicas of a block store it.  Whatever is asked of the block, each one
    serves it or fails; it may do otherwise with other blocks. -/
structure Stored (block : BlockLocation) (data : Bytes) : Prop where
  size : block.sizeBytes = data.length
  nonempty : 0 < data.length
  fits : Fits key block.blockId data
  replicas : ∀ k a, block.datanodeAddresses[k]? = some a → ∀ offset length : Nat,
    Serves crypto key data (network k a) ⟨block.blockId, offset, length⟩ ∨
      FailsRecoverably (network k a) ⟨block.blockId, offset, length⟩

/-- Whatever is asked of the block, one of the replicas serves it. -/
def OneServes (block : BlockLocation) (data : Bytes) : Prop :=
  ∀ offset length : Nat, ∃ k a, block.datanodeAddresses[k]? = some a ∧
    Serves crypto key data (network k a) ⟨block.blockId, offset, length⟩

/-- All blocks are stored, and those that a range touches are served. -/
def Readable (offset stop : Nat) (blocks : List (BlockLocation × Bytes)) : Prop :=
  ∀ before block data after, blocks = before ++ (block, data) :: after →
    Stored crypto key network block data ∧
    (offset < stop → (contentOf before).length < stop →
      offset < (contentOf before).length + data.length →
      OneServes crypto key network block data)

end Stored

/-- The offset is in a block, and not where one begins or ends. -/
def StrictlyInside (offset : Nat) (blocks : List (BlockLocation × Bytes)) : Prop :=
  ∃ before block data after, blocks = before ++ (block, data) :: after ∧
    (contentOf before).length < offset ∧
    offset < (contentOf before).length + data.length

/-! ## One block -/

/-- A part that is not empty is asked for as it is. -/
theorem asked_part (data : Bytes) {o e : Nat} (ho : o < data.length) (hoe : o < e) :
    asked data o (lengthAsked (min e data.length - o)) = stretch data o e := by
  rw [lengthAsked, if_neg (by omega), stretch_eq]
  show (data.drop o).take _ = _
  rw [List.take_eq_take_iff, List.length_drop]
  omega

section Loop

variable {crypto : Crypto} {key : Bytes} {network : Network} {file content : Bytes}
  {c : Cursor} {block : BlockLocation} {data : Bytes}

/-- The transfer of a part of a block that some replica serves. -/
theorem transfer_served (hcrypto : Lawful crypto)
    (hstored : Stored crypto key network block data)
    {offset length : Nat} (hone : ∃ k a, block.datanodeAddresses[k]? = some a ∧
      Serves crypto key data (network k a) ⟨block.blockId, offset, length⟩)
    (h : AtEnd file c content) :
    wp (readBlockWithFailover network wholeFile never block offset length) c fun r c' =>
      r = .ok (asked data offset (lengthAsked length)).length ∧
      AtEnd file c' (content ++ asked data offset (lengthAsked length)) := by
  have havailable := available_of_replicas hcrypto hstored.fits network offset length 0
    (fun k a hk => by simpa using hstored.replicas k a hk offset length)
    (by simpa using hone)
  refine wp_gets ?_
  have hstart : wholeFile.tell c = content.length := h.2
  rw [hstart]
  exact tryReplicas_available havailable none h

/-- Where every replica of a block fails there is no result, and where one
    serves there are as many bytes as the part of the block. -/
theorem transfer_stored (hcrypto : Lawful crypto)
    (hstored : Stored crypto key network block data) (offset length : Nat)
    (h : AtEnd file c content) :
    wp (readBlockWithFailover network wholeFile never block offset length) c fun r _ =>
      ∀ n, r = .ok n → n = (asked data offset (lengthAsked length)).length := by
  by_cases hone : ∃ k a, block.datanodeAddresses[k]? = some a ∧
      Serves crypto key data (network k a) ⟨block.blockId, offset, length⟩
  · refine wp_mono (transfer_served hcrypto hstored hone h) ?_
    rintro _ _ ⟨rfl, _⟩ n hn
    exact (Except.ok.inj hn).symm
  · refine wp_gets (wp_mono (tryReplicas_failed fun k a hk => ?_) ?_)
    · rcases hstored.replicas k a hk offset length with hserves | hfails
      · exact absurd ⟨k, a, hk, hserves⟩ hone
      · obtain ⟨e, hfail, _⟩ := hfails
        exact ⟨e, by rw [Nat.zero_add]; exact hfail⟩
    · rintro _ _ ⟨e, rfl⟩ n hn
      cases hn

/-- The request for the part of a block, in natural numbers. -/
theorem readPart_eq (network : Network) (h : Handle) {o e : Nat} (s : Nat) (hoe : o ≤ e)
    (hsize : block.sizeBytes = data.length) :
    readPart network h o e s block =
      if s < e ∧ o < s + data.length then
        readBlockWithFailover network h never block (o - s : Nat)
          (min (e - s) data.length - (o - s) : Nat)
      else pure 0 := by
  rw [readPart]
  dsimp only
  by_cases hhit : s < e ∧ o < s + data.length
  · have hoffset : max (o : Int) s - s = ((o - s : Nat) : Int) := by omega
    have hcount : min (e : Int) (s + block.sizeBytes) - s - ((o - s : Nat) : Int)
        = ((min (e - s) data.length - (o - s) : Nat) : Int) := by omega
    rw [if_pos (by omega), if_pos hhit, hoffset, hcount]
  · rw [if_neg (by omega), if_neg hhit]

/-- A range that is not empty gets its part of a block. -/
theorem readPart_range (hcrypto : Lawful crypto) {o e s : Nat} (hoe : o < e)
    (hstored : Stored crypto key network block data)
    (hserved : s < e → o < s + data.length → OneServes crypto key network block data)
    (h : AtEnd file c content) :
    wp (readPart network wholeFile o e s block) c fun r c' =>
      r = .ok (stretch data (o - s) (e - s)).length ∧
      AtEnd file c' (content ++ stretch data (o - s) (e - s)) := by
  rw [readPart_eq network wholeFile s hoe.le hstored.size]
  by_cases hhit : s < e ∧ o < s + data.length
  · have hpos := hstored.nonempty
    have hwithin : o - s < data.length := by omega
    have hsome : o - s < e - s := by omega
    rw [if_pos hhit, ← asked_part data hwithin hsome]
    exact transfer_served hcrypto hstored (hserved hhit.1 hhit.2 _ _) h
  · have hempty : stretch data (o - s) (e - s) = [] := by
      rw [stretch_eq, List.take_eq_nil_iff, List.drop_eq_nil_iff]
      omega
    rw [if_neg hhit, hempty, List.append_nil]
    exact wp_ret ⟨rfl, h⟩

end Loop

/-! ## All blocks -/

section Blocks

variable {crypto : Crypto} {key : Bytes} {network : Network} {file content : Bytes}
  {c : Cursor} {rest : List (BlockLocation × Bytes)} {o e : Nat}

theorem contentOf_append (before after : List (BlockLocation × Bytes)) :
    contentOf (before ++ after) = contentOf before ++ contentOf after := by
  rw [contentOf, List.map_append, List.flatten_append]
  rfl

theorem length_contentOf_concat (before : List (BlockLocation × Bytes))
    (block : BlockLocation) (data : Bytes) :
    (contentOf (before ++ [(block, data)])).length
      = (contentOf before).length + data.length := by
  rw [contentOf_append, List.length_append]
  simp [contentOf]

/-- **THE LOOP** writes the part of the range that is in the blocks to come. -/
theorem readBlocks_range (hcrypto : Lawful crypto) (hoe : o < e)
    (before : List (BlockLocation × Bytes))
    (hreadable : Readable crypto key network o e (before ++ rest))
    (h : AtEnd file c content) :
    wp (readBlocks network wholeFile o e (contentOf before).length (rest.map Prod.fst)) c
      fun r c' =>
        r = .ok (stretch (contentOf rest) (o - (contentOf before).length)
          (e - (contentOf before).length)).length ∧
        AtEnd file c' (content ++ stretch (contentOf rest)
          (o - (contentOf before).length) (e - (contentOf before).length)) := by
  induction rest generalizing before c content with
  | nil =>
      refine wp_ret ?_
      have hnil : contentOf [] = [] := rfl
      rw [hnil, stretch, List.take_nil, List.drop_nil, List.append_nil]
      exact ⟨rfl, h⟩
  | cons entry rest ih =>
      obtain ⟨block, data⟩ := entry
      obtain ⟨hstored, hserved⟩ := hreadable before block data rest rfl
      have hsize := hstored.size
      generalize hs : (contentOf before).length = s at hserved ⊢
      have hpart : stretch (contentOf ((block, data) :: rest)) (o - s) (e - s)
          = stretch data (o - s) (e - s)
            ++ stretch (contentOf rest) (o - (s + data.length)) (e - (s + data.length)) := by
        show stretch (data ++ contentOf rest) _ _ = _
        rw [stretch_append_lists, Nat.sub_sub, Nat.sub_sub]
      rw [hpart]
      have hnext : (contentOf (before ++ [(block, data)])).length = s + data.length := by
        rw [length_contentOf_concat, hs]
      have hstart : (s : Int) + block.sizeBytes
          = ((contentOf (before ++ [(block, data)])).length : Int) := by
        rw [hnext, hsize]
        omega
      refine wp_call (readPart_range hcrypto hoe hstored (hserved hoe) h) ?_
        (fun _ _ hr => by cases hr.1)
      rintro n c' ⟨hn, hend⟩
      obtain rfl := Except.ok.inj hn
      have hothers := ih (before ++ [(block, data)])
        (by rw [List.append_assoc]; exact hreadable) hend
      rw [hnext] at hothers hstart
      rw [hstart]
      refine wp_call hothers ?_ (fun _ _ hr => by cases hr.1)
      rintro m c'' ⟨hm, hend'⟩
      obtain rfl := Except.ok.inj hm
      rw [List.length_append, ← List.append_assoc]
      exact wp_ret ⟨rfl, hend'⟩

/-- An empty range that is in no block asks for nothing. -/
theorem readBlocks_nothing (before : List (BlockLocation × Bytes))
    (hreadable : Readable crypto key network o e (before ++ rest))
    (hoe : o = e)
    (hnowhere : ∀ pre block data after, rest = pre ++ (block, data) :: after →
      ¬((contentOf (before ++ pre)).length < o ∧
        o < (contentOf (before ++ pre)).length + data.length)) :
    wp (readBlocks network wholeFile o e (contentOf before).length (rest.map Prod.fst)) c
      fun r c' => r = .ok 0 ∧ c' = c := by
  induction rest generalizing before with
  | nil => exact wp_ret ⟨rfl, rfl⟩
  | cons entry rest ih =>
      obtain ⟨block, data⟩ := entry
      obtain ⟨hstored, _⟩ := hreadable before block data rest rfl
      have hmiss := hnowhere [] block data rest rfl
      rw [List.append_nil] at hmiss
      have hstart : ((contentOf before).length : Int) + block.sizeBytes
          = ((contentOf (before ++ [(block, data)])).length : Int) := by
        rw [length_contentOf_concat, hstored.size]
        omega
      refine wp_call (P := fun r c' => r = .ok 0 ∧ c' = c) ?_ ?_ (fun _ _ hr => by cases hr.1)
      · rw [readPart_eq network wholeFile _ hoe.le hstored.size, if_neg (by omega)]
        exact wp_ret ⟨rfl, rfl⟩
      · rintro n c' ⟨hn, rfl⟩
        obtain rfl := Except.ok.inj hn
        rw [hstart]
        refine wp_call (ih (before ++ [(block, data)])
          (by rw [List.append_assoc]; exact hreadable) ?_) ?_ (fun _ _ hr => by cases hr.1)
        · intro pre block' data' after hrest
          rw [List.append_assoc]
          exact hnowhere ((block, data) :: pre) block' data' after (by rw [hrest]; rfl)
        · rintro m c'' ⟨hm, rfl⟩
          obtain rfl := Except.ok.inj hm
          exact wp_ret ⟨rfl, rfl⟩

/-- **AN EMPTY RANGE INSIDE A BLOCK** brings the rest of the block, or nothing
    but an error. -/
theorem readBlocks_inside (hcrypto : Lawful crypto)
    (before : List (BlockLocation × Bytes))
    (hreadable : Readable crypto key network o e (before ++ rest)) (hoe : o = e)
    {pre after : List (BlockLocation × Bytes)} {inner : BlockLocation} {data : Bytes}
    (hrest : rest = pre ++ (inner, data) :: after)
    (hlow : (contentOf (before ++ pre)).length < o)
    (hhigh : o < (contentOf (before ++ pre)).length + data.length)
    (h : AtEnd file c content) :
    wp (readBlocks network wholeFile o e (contentOf before).length (rest.map Prod.fst)) c
      fun r _ => ∀ n, r = .ok n → 0 < n := by
  induction pre generalizing before rest c content with
  | nil =>
      rw [List.append_nil] at hlow hhigh
      rw [List.nil_append] at hrest
      obtain ⟨hstored, _⟩ := hreadable before inner data after (by rw [hrest])
      rw [hrest, List.map_cons]
      refine wp_call (P := fun r _ => ∀ n, r = .ok n → 0 < n) ?_ ?_
        (fun _ _ _ _ hn => by cases hn)
      · rw [readPart_eq network wholeFile _ hoe.le hstored.size, if_pos (by omega)]
        refine wp_mono (transfer_stored hcrypto hstored _ _ h) ?_
        intro r _ hr n hn
        have hzero : min (e - (contentOf before).length) data.length
            - (o - (contentOf before).length) = 0 := by omega
        have hrest : (asked data (o - (contentOf before).length) none).length
            = data.length - (o - (contentOf before).length) := List.length_drop
        rw [hr n hn, hzero, lengthAsked, if_pos rfl, hrest]
        omega
      · intro n c' hn
        refine wp_call (P := fun _ _ => True) trivial ?_ (fun _ _ _ _ hm => by cases hm)
        intro m c'' _
        refine wp_ret fun k hk => ?_
        have hpos := hn n rfl
        rw [← Except.ok.inj hk]
        omega
  | cons entry pre ih =>
      obtain ⟨block, content'⟩ := entry
      rw [List.cons_append] at hrest
      obtain ⟨hstored, _⟩ := hreadable before block content' (pre ++ (inner, data) :: after)
        (by rw [hrest])
      have hlen : (contentOf before).length + content'.length
          ≤ (contentOf (before ++ (block, content') :: pre)).length := by
        rw [List.append_cons, contentOf_append, List.length_append, length_contentOf_concat]
        exact Nat.le_add_right _ _
      have hstart : ((contentOf before).length : Int) + block.sizeBytes
          = ((contentOf (before ++ [(block, content')])).length : Int) := by
        rw [length_contentOf_concat, hstored.size]
        omega
      rw [hrest, List.map_cons]
      refine wp_call (P := fun r c' => r = .ok 0 ∧ c' = c) ?_ ?_ (fun _ _ hr => by cases hr.1)
      · rw [readPart_eq network wholeFile _ hoe.le hstored.size, if_neg (by omega)]
        exact wp_ret ⟨rfl, rfl⟩
      · rintro n c' ⟨hn, rfl⟩
        obtain rfl := Except.ok.inj hn
        rw [hstart]
        refine wp_call (ih (before ++ [(block, content')]) ?_ rfl ?_ ?_ h) ?_
          (fun _ _ _ _ hm => by cases hm)
        · rw [List.append_assoc]
          rw [hrest] at hreadable
          exact hreadable
        · rw [List.append_assoc]
          exact hlow
        · rw [List.append_assoc]
          exact hhigh
        · intro m c'' hm
          refine wp_ret fun k hk => ?_
          have hpos := hm m rfl
          rw [← Except.ok.inj hk]
          omega

end Blocks

/-! ## The whole read -/

/-- The file has what it had and the slice, and the result counts its bytes. -/
def WritesExactly (file content slice : Bytes) (r : Except ClientError Nat) (c : Cursor) :
    Prop :=
  r = .ok slice.length ∧ applyAll c.edits file = content ++ slice

theorem sum_sizeBytes {crypto : Crypto} {key : Bytes} {network : Network}
    {blocks : List (BlockLocation × Bytes)}
    (hsizes : ∀ b ∈ blocks, Stored crypto key network b.1 b.2) :
    ((blocks.map Prod.fst).map BlockLocation.sizeBytes).sum
      = ((contentOf blocks).length : Int) := by
  induction blocks with
  | nil => rfl
  | cons b rest ih =>
      rw [List.map_cons, List.map_cons, List.sum_cons,
        ih fun b' hb' => hsizes b' (List.mem_cons_of_mem _ hb'),
        (hsizes b List.mem_cons_self).size]
      show _ = (((b.2 ++ contentOf rest).length : Nat) : Int)
      rw [List.length_append, Int.natCast_add]

theorem wp_translated {α : Type} {x : Transfer α} {c : Cursor}
    {P Q : Except ClientError α → Cursor → Prop} (h : wp x c P)
    (hok : ∀ a c', P (.ok a) c' → Q (.ok a) c')
    (herror : ∀ e e' c', P (.error e) c' → Q (.error e') c') :
    wp (translated x) c Q := by
  unfold wp at h
  show Q (translated x c).1 (translated x c).2
  unfold translated
  generalize x c = ended at h ⊢
  obtain ⟨r, c'⟩ := ended
  cases r with
  | ok a => exact hok a c' h
  | error e =>
      cases e with
      | rpc e => exact herror _ _ c' h
      | domain cls message => exact herror _ _ c' h
      | cancelled => exact herror _ _ c' h

section Read

variable {crypto : Crypto} {key : Bytes} {network : Network} {calls : ControlCalls}
  {blocks : List (BlockLocation × Bytes)} {offset : Nat} {length : Option Nat}
  {file content : Bytes} {c : Cursor}

/-- A read whose calls to the ControlNode succeed is the loop over the blocks. -/
theorem wp_readRange (hlock : calls.lock = .ok ())
    (hblocks : calls.listBlocks = .ok (blocks.map Prod.fst))
    (hoffset : offset ≤ (contentOf blocks).length)
    (hsizes : ∀ b ∈ blocks, Stored crypto key network b.1 b.2)
    {P Q : Except ClientError Nat → Cursor → Prop}
    (h : wp (readBlocks network wholeFile offset (stopOf (contentOf blocks) offset length) 0
      (blocks.map Prod.fst)) c P)
    (hok : ∀ n c', P (.ok n) c' → Q (.ok n) c')
    (herror : ∀ e e' c', P (.error e) c' → Q (.error e') c') :
    wp (readRange network wholeFile calls offset (length.map Nat.cast)) c Q := by
  refine wp_raiseIf_passed ?_ ?_
  · rintro (hneg | ⟨n, hn, hneg⟩)
    · omega
    · obtain ⟨n', _, rfl⟩ := Option.map_eq_some_iff.mp hn
      omega
  refine wp_ofExcept_ok hlock (wp_translated ?_ hok herror)
  refine wp_ofExcept_ok hblocks ?_
  have hstop : ((length.map Nat.cast : Option Int).map fun n =>
      min ((contentOf blocks).length : Int) (offset + n)).getD (contentOf blocks).length
        = (stopOf (contentOf blocks) offset length : Nat) := by
    cases length with
    | none => rfl
    | some n =>
        show min ((contentOf blocks).length : Int) (offset + (n : Int))
          = ((min (contentOf blocks).length (offset + n) : Nat) : Int)
        omega
  dsimp only
  rw [sum_sizeBytes hsizes, hstop]
  exact wp_raiseIf_passed (by omega) h

/-- **A RANGE IS READ EXACTLY** if and only if it is not an empty range
    strictly inside a block. -/
theorem read_range_exact_iff (length : Option Nat) (hcrypto : Lawful crypto)
    (hlock : calls.lock = .ok ())
    (hblocks : calls.listBlocks = .ok (blocks.map Prod.fst))
    (hoffset : offset ≤ (contentOf blocks).length)
    (hreadable : Readable crypto key network offset
      (stopOf (contentOf blocks) offset length) blocks)
    (hfile : AtEnd file c content) :
    wp (readRange network wholeFile calls offset (length.map Nat.cast)) c
        (WritesExactly file content (asked (contentOf blocks) offset length)) ↔
      ¬(length = some 0 ∧ StrictlyInside offset blocks) := by
  have hsizes : ∀ b ∈ blocks, Stored crypto key network b.1 b.2 := by
    intro b hb
    obtain ⟨before, after, hsplit⟩ := List.append_of_mem hb
    exact (hreadable before b.1 b.2 after hsplit).1
  rw [asked_eq_stretch]
  by_cases hsome : offset < stopOf (contentOf blocks) offset length
  · have hnonempty : ¬(length = some 0 ∧ StrictlyInside offset blocks) := by
      rintro ⟨rfl, _⟩
      exact absurd (hsome.trans_le (Nat.min_le_right _ _)) (Nat.lt_irrefl _)
    refine iff_of_true ?_ hnonempty
    refine wp_readRange hlock hblocks hoffset hsizes
      (readBlocks_range hcrypto hsome [] hreadable hfile) ?_
      (fun _ _ _ hr => by cases hr.1)
    exact fun n c' hr => ⟨hr.1, hr.2.1⟩
  · have hstop : offset = stopOf (contentOf blocks) offset length := by
      cases length with
      | none => exact Nat.le_antisymm hoffset (Nat.not_lt.mp hsome)
      | some n =>
          refine Nat.le_antisymm ?_ (Nat.not_lt.mp hsome)
          exact Nat.le_min.mpr ⟨hoffset, Nat.le_add_right _ _⟩
    rw [← hstop, stretch_self]
    by_cases hinside : StrictlyInside offset blocks
    · have hzero : length = some 0 := by
        obtain ⟨before, block, data, after, rfl, _, hhigh⟩ := hinside
        have hlen : offset < (contentOf (before ++ (block, data) :: after)).length := by
          rw [List.append_cons, contentOf_append, List.length_append, length_contentOf_concat]
          omega
        cases length with
        | none => exact absurd hstop hlen.ne
        | some n =>
            change offset = min _ (offset + n) at hstop
            exact congrArg some (by omega)
      refine iff_of_false ?_ (not_not_intro ⟨hzero, hinside⟩)
      obtain ⟨before, block, data, after, hsplit, hlow, hhigh⟩ := hinside
      have hmore := wp_readRange hlock hblocks hoffset hsizes
        (readBlocks_inside hcrypto [] hreadable hstop hsplit hlow hhigh hfile)
        (Q := fun r _ => ∀ n, r = .ok n → 0 < n) (fun _ _ hr => hr)
        (fun _ _ _ _ _ hn => by cases hn)
      rintro ⟨hzeroBytes, _⟩
      exact absurd (hmore 0 hzeroBytes) (Nat.lt_irrefl _)
    · refine iff_of_true ?_ (fun h => hinside h.2)
      refine wp_readRange hlock hblocks hoffset hsizes
        (readBlocks_nothing [] hreadable hstop ?_) ?_
        (fun _ _ _ hr => by cases hr.1)
      · rintro pre block data after rfl ⟨hlow, hhigh⟩
        exact hinside ⟨pre, block, data, after, rfl, hlow, hhigh⟩
      · rintro n c' ⟨hn, rfl⟩
        refine ⟨hn, ?_⟩
        rw [List.append_nil]
        exact hfile.1

end Read

/-! ## A file of two blocks -/

/-- The second block of a file, after `hola`. -/
def mar : Bytes := [109, 97, 114]

/-- `n1` dies in the middle of the stream of the first block, and the copy of the
    second one at `n2` is corrupted. -/
def holaMarNetwork : Network := fun _ address request =>
  if request.blockId = holaId then
    if address = "n1" then ⟨[[9, 9]], some ⟨.unavailable, "Socket closed", []⟩⟩
    else readBlockRpc holaCrypto holaKey
      (.still (container holaCrypto holaKey request.blockId holaPrefix hola)) request
  else
    if address = "n2" then
      ⟨[[7]], some (abortOnDomainError (.blockCorrupted "tag inválido o llave incorrecta"))⟩
    else readBlockRpc holaCrypto holaKey
      (.still (container holaCrypto holaKey request.blockId holaPrefix mar)) request

def holaMarBlocks : List (BlockLocation × Bytes) :=
  [(⟨holaId, ["n1", "n2"], 4⟩, hola), (⟨marId, ["n2", "n1"], 3⟩, mar)]

def holaMarCalls : ControlCalls := ⟨.ok (), .ok (holaMarBlocks.map Prod.fst)⟩

/-- Each node saves the block that the other one has lost. -/
theorem stored_holaMarBlocks {block : BlockLocation} {data : Bytes}
    (hmem : (block, data) ∈ holaMarBlocks) :
    Stored holaCrypto holaKey holaMarNetwork block data ∧
      OneServes holaCrypto holaKey holaMarNetwork block data := by
  rcases List.mem_pair.mp hmem with h | h
  · obtain ⟨rfl, rfl⟩ := Prod.mk.inj h
    refine ⟨⟨rfl, by decide, ⟨by decide, by decide, by decide⟩, fun k a hk o n => ?_⟩,
      fun _ _ => ⟨1, "n2", rfl, holaPrefix, rfl⟩⟩
    rcases List.mem_pair.mp (List.mem_of_getElem? hk) with rfl | rfl
    · exact .inr ⟨_, rfl, by decide⟩
    · exact .inl ⟨holaPrefix, rfl⟩
  · obtain ⟨rfl, rfl⟩ := Prod.mk.inj h
    refine ⟨⟨rfl, by decide, ⟨by decide, by decide, by decide⟩, fun k a hk o n => ?_⟩,
      fun _ _ => ⟨1, "n1", rfl, holaPrefix, rfl⟩⟩
    rcases List.mem_pair.mp (List.mem_of_getElem? hk) with rfl | rfl
    · exact .inr ⟨_, rfl, by decide⟩
    · exact .inl ⟨holaPrefix, rfl⟩

theorem readable_holaMarBlocks (offset stop : Nat) :
    Readable holaCrypto holaKey holaMarNetwork offset stop holaMarBlocks := by
  intro before block data after hsplit
  have hmem : (block, data) ∈ holaMarBlocks := by
    rw [hsplit]
    exact List.mem_append_right _ List.mem_cons_self
  exact ⟨(stored_holaMarBlocks hmem).1, fun _ _ _ => (stored_holaMarBlocks hmem).2⟩

/-- Five bytes of the two blocks, and of each the replica that is left. -/
theorem read_range_exact_iff_hola_mar :
    wp (readRange holaMarNetwork wholeFile holaMarCalls 1 (some 5)) ⟨0, []⟩
      (WritesExactly [] [] [111, 108, 97, 109, 97]) :=
  (read_range_exact_iff (some 5) lawful_holaCrypto rfl rfl (by decide)
    (readable_holaMarBlocks _ _) ⟨rfl, rfl⟩).mpr fun h => absurd h.1 (by decide)

/-- The empty range at 1 brings three bytes. -/
theorem empty_range_brings_the_rest :
    Readable holaCrypto holaKey holaMarNetwork 1 (stopOf (contentOf holaMarBlocks) 1 (some 0))
      holaMarBlocks ∧
    1 ≤ (contentOf holaMarBlocks).length ∧
    wp (readRange holaMarNetwork wholeFile holaMarCalls 1 (some 0)) ⟨0, []⟩
      (WritesExactly [] [] [111, 108, 97]) ∧
    ¬ wp (readRange holaMarNetwork wholeFile holaMarCalls 1 (some 0)) ⟨0, []⟩
      (WritesExactly [] [] (asked (contentOf holaMarBlocks) 1 (some 0))) := by
  have hrest : wp (readRange holaMarNetwork wholeFile holaMarCalls 1 (some 0)) ⟨0, []⟩
      (WritesExactly [] [] [111, 108, 97]) := by
    unfold wp WritesExactly
    decide +kernel
  refine ⟨readable_holaMarBlocks _ _, by decide, hrest, fun h => ?_⟩
  exact absurd (Except.ok.inj (hrest.1.symm.trans h.1)) (by decide)

end DfshaRangeRead
