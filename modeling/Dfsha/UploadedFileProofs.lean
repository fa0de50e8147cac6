import Dfsha.UploadProofs

/-! # The file that an upload leaves

    While its blocks are sent the file is pending, with the block ids that the
    upload was given, and each block that is confirmed has the size and the
    checksum of its part.  The threads confirm in any order, and other clients
    do what they want elsewhere.  When the upload is completed all blocks are
    confirmed, so the file is its parts. -/

namespace DfshaUploadedFile

open ParallelJobs (own mem_own Returns)
open RaisingAction Stretch TransitionSystem TransitionSystem.System
open DfshaPath DfshaControlTree DfshaMetadata DfshaControlTreeEffect DfshaWriteReservation
open DfshaBlockOwnership DfshaBlockLayout DfshaPendingUpload DfshaUploadSession
open DfshaBlockStore DfshaBlockFailover DfshaRangeRead DfshaDownload DfshaUpload

/-! ## What others do -/

/-- The mutations that change what the file at their path has. -/
def changesFile : Mutation → Bool
  | .removeFile .. => true
  | .beginUpload .. => true
  | .confirmBlock .. => true
  | .completeUpload .. => true
  | .abortUpload .. => true
  | .commitWrite .. => true
  | _ => false

/-- A mutation of somebody else: it may lock, repair or read the file. -/
def LeavesFile (path : String) (μ : Mutation) : Prop :=
  changesFile μ = true → ∀ p ps, pathOf μ = some p → parts path = .ok ps → parts p ≠ .ok ps

/-! ## While the blocks are sent -/

section Sent

variable {digest : Bytes → String} {blocks : List (BlockLocation × Bytes)} {path : String}
  {ps : List String} {f : FileNode} {s : ControlTree} {w w' : World} {μ : Mutation}

/-- Some blocks have been confirmed, each for its part of the file. -/
structure PartlySent (digest : Bytes → String) (blocks : List (BlockLocation × Bytes))
    (f : FileNode) : Prop where
  pending : f.state = .pending
  ids : f.blocks.map BlockRecord.blockId = blocks.map fun x => x.1.blockId
  confirmed : ∀ b ∈ f.blocks, b.confirmed = true → ∃ x ∈ blocks, b.blockId = x.1.blockId ∧
    b.checksum = digest x.2 ∧ b.sizeBytes = x.2.length

/-- A mutation of the upload itself, while it sends its blocks. -/
def Confirms (digest : Bytes → String) (blocks : List (BlockLocation × Bytes)) (path : String)
    (μ : Mutation) : Prop :=
  ∃ x ∈ blocks, ∃ now leaseS caller,
    μ = .confirmBlock path x.1.blockId (digest x.2) x.2.length now leaseS caller

theorem partlySent_newUpload {placements : List (String × List String)}
    (hids : (placements.map Prod.fst) = blocks.map fun x => x.1.blockId)
    (now leaseS : Option Time) (blockSize : Option Int) (caller : Option Caller) :
    PartlySent digest blocks (newUpload placements now leaseS blockSize caller) := by
  refine ⟨rfl, (fileIds_newUpload placements now leaseS blockSize caller).trans hids, ?_⟩
  intro b hb hconfirmed
  obtain ⟨placement, _, rfl⟩ := List.mem_map.mp hb
  cases hconfirmed

/-- A block that is confirmed for its part. -/
theorem partlySent_confirmed (h : PartlySent digest blocks f)
    (hnodup : (blocks.map fun x => x.1.blockId).Nodup) {x : BlockLocation × Bytes}
    (hx : x ∈ blocks) {f' : FileNode} (hstate : f'.state = .pending)
    (hblocks : updateBlock x.1.blockId (fun b => { b with
      checksum := digest x.2, sizeBytes := x.2.length, confirmed := true })
      f.blocks = some f'.blocks) : PartlySent digest blocks f' := by
  refine ⟨hstate, (map_blockId_updateBlock hblocks fun _ => rfl).trans h.ids, ?_⟩
  intro b hb hconfirmed
  rw [← h.ids] at hnodup
  rcases confirmed_updateBlock hblocks hnodup hb with ⟨hid, hsum, hsize⟩ | ⟨_, hold⟩
  · exact ⟨x, hx, hid, hsum, hsize⟩
  · exact h.confirmed b hold hconfirmed

/-- **ONE STEP WHILE THE BLOCKS ARE SENT**: a confirm of the upload, or anything
    that others do. -/
theorem partlySent_step (hparts : parts path = .ok ps)
    (hnodup : (blocks.map fun x => x.1.blockId).Nodup)
    (hμ : Confirms digest blocks path μ ∨ LeavesFile path μ)
    (hfile : s.root.view ps = some (.file f)) (h : PartlySent digest blocks f) :
    ∃ f', (exec μ s).2.root.view ps = some (.file f') ∧ PartlySent digest blocks f' := by
  -- an upload to the path is one of its own confirms
  have hown : ∀ p, changesFile μ = true → pathOf μ = some p → parts p = .ok ps →
      Confirms digest blocks path μ := by
    intro p hchanges hpath hp
    rcases hμ with hconfirms | hleaves
    · exact hconfirms
    · exact absurd hp (hleaves hchanges p ps hpath hparts)
  cases pendingStep_effect (exec_effect μ s) hfile h.pending with
  | kept hfile' => exact ⟨f, hfile', h⟩
  | confirmed f' p b sum size now leaseS caller heq hp howner hfile' hstate hblocks =>
      subst heq
      obtain ⟨x, hx, now', leaseS', caller', heq⟩ := hown p rfl rfl hp
      obtain ⟨_, rfl, rfl, rfl, _⟩ := Mutation.confirmBlock.inj heq
      exact ⟨f', hfile', partlySent_confirmed h hnodup hx hstate hblocks⟩
  | completed p caller heq hr hp howner =>
      subst heq
      obtain ⟨x, hx, now', leaseS', caller', heq⟩ := hown p rfl rfl hp
      cases heq
  | aborted p caller heq hr hp howner =>
      subst heq
      obtain ⟨x, hx, now', leaseS', caller', heq⟩ := hown p rfl rfl hp
      cases heq
  | replaced p placements now leaseS blockSize caller heq hr hp hexpired =>
      subst heq
      obtain ⟨x, hx, now', leaseS', caller', heq⟩ := hown p rfl rfl hp
      cases heq

/-- What may happen while the blocks are sent. -/
def Sends (digest : Bytes → String) (blocks : List (BlockLocation × Bytes)) (path : String) :
    Event → Prop
  | .main _ => False
  | .thread _ (.stored _ _) => True
  | .thread _ (.executed μ _) => Confirms digest blocks path μ
  | .others μ => LeavesFile path μ

theorem partlySent_path (hparts : parts path = .ok ps)
    (hnodup : (blocks.map fun x => x.1.blockId).Nodup) {events : List Event}
    (hpath : world.Path w events w') (hsends : ∀ l ∈ events, Sends digest blocks path l)
    (hstart : ∃ f, w.tree.root.view ps = some (.file f) ∧ PartlySent digest blocks f) :
    ∃ f, w'.tree.root.view ps = some (.file f) ∧ PartlySent digest blocks f := by
  have hguarded := hpath.of_labels (C := fun _ l => Sends digest blocks path l)
    fun l hl _ => hsends l hl
  refine hguarded.keeps (I := fun w => ∃ f, w.tree.root.view ps = some (.file f) ∧
    PartlySent digest blocks f) hstart ?_
  rintro w₁ l w₂ ⟨f, hfile, hsent⟩ ⟨hl, hstep⟩
  cases hstep with
  | main hseen => exact hl.elim
  | @thread i e hseen =>
      cases e with
      | stored blockId data => exact ⟨f, hfile, hsent⟩
      | executed μ r => exact partlySent_step hparts hnodup (.inl hl) hfile hsent
  | others μ => exact partlySent_step hparts hnodup (.inr hl) hfile hsent

/-- **WHAT THE DATANODES HAVE**: each block what was written to it, if nobody
    writes anything else to it. -/
theorem written_of_path {events : List Event} (hpath : world.Path w events w')
    (hmain : ∀ e, .main e ∉ events)
    (hsame : ∀ i j b data data', .thread i (.stored b data) ∈ events →
      .thread j (.stored b data') ∈ events → data = data') {i : Nat} {b : String} {data : Bytes}
    (h : .thread i (.stored b data) ∈ events) : w'.written b = some data := by
  induction hpath generalizing i b data with
  | start => exact absurd h List.not_mem_nil
  | @next ls s₁ s₂ l hpath hstep ih =>
      have hbefore : ∀ {i : Nat} {b : String} {data : Bytes},
          .thread i (.stored b data) ∈ ls → s₁.written b = some data :=
        fun hmem => ih (fun e he => hmain e (List.mem_append_left _ he))
          (fun i j b data data' hi hj => hsame i j b data data' (List.mem_append_left _ hi)
            (List.mem_append_left _ hj)) hmem
      have hlast : l ∈ ls ++ [l] := List.mem_append_right _ (List.mem_singleton.mpr rfl)
      cases hstep with
      | main hseen => exact absurd hlast (hmain _)
      | others μ =>
          rcases List.mem_append.mp h with h | h
          · exact hbefore h
          · cases List.mem_singleton.mp h
      | @thread j e hseen =>
          cases e with
          | executed μ r =>
              rcases List.mem_append.mp h with h | h
              · exact hbefore h
              · cases List.mem_singleton.mp h
          | stored b' data' =>
              show Function.update s₁.written b' (some data') b = some data
              by_cases hb : b = b'
              · subst hb
                rw [Function.update_self, hsame i j b data data' h hlast]
              · rw [Function.update_of_ne hb]
                rcases List.mem_append.mp h with h | h
                · exact hbefore h
                · cases List.mem_singleton.mp h
                  exact absurd rfl hb

end Sent

/-! ## The published file -/

section Published

variable {digest : Bytes → String} {blocks : List (BlockLocation × Bytes)} {path : String}
  {ps : List String} {f f' : FileNode} {s s' : ControlTree}

/-- The file is committed, and has these parts. -/
structure Published (digest : Bytes → String) (blocks : List (BlockLocation × Bytes))
    (f : FileNode) : Prop where
  state : f.state = .committed
  content : content f = blocks.map fun x => (x.1.blockId, digest x.2, (x.2.length : Int), true)

/-- When all blocks are confirmed the parts are known. -/
theorem content_of_confirmed (h : PartlySent digest blocks f)
    (hnodup : (blocks.map fun x => x.1.blockId).Nodup)
    (hall : ∀ b ∈ f.blocks, b.confirmed = true) :
    content f = blocks.map fun x => (x.1.blockId, digest x.2, (x.2.length : Int), true) := by
  refine List.ext_getElem? fun i => ?_
  have hid := congrArg (fun l => l[i]?) h.ids
  simp only [List.getElem?_map] at hid
  rw [content, List.getElem?_map, List.getElem?_map]
  cases hb : f.blocks[i]? with
  | none =>
      rw [hb] at hid
      rw [Option.map_eq_none_iff.mp hid.symm]
      rfl
  | some b =>
      rw [hb] at hid
      obtain ⟨y, hy, hyid⟩ := Option.map_eq_some_iff.mp hid.symm
      have hmem := List.mem_of_getElem? hb
      obtain ⟨x, hx, hxid, hsum, hsize⟩ := h.confirmed b hmem (hall b hmem)
      obtain rfl := List.inj_on_of_nodup_map hnodup hx (List.mem_of_getElem? hy)
        (hxid.symm.trans hyid.symm)
      rw [hy, Option.map_some, Option.map_some, hxid, hsum, hsize, hall b hmem]

/-- **A COMPLETED UPLOAD IS ALL CONFIRMED.** -/
theorem published_of_completed (hparts : parts path = .ok ps)
    (hnodup : (blocks.map fun x => x.1.blockId).Nodup)
    (hfile : s.root.view ps = some (.file f)) (h : PartlySent digest blocks f)
    {caller : Option Caller} {ret : Ret}
    (hok : (exec (.completeUpload path caller) s).1 = .ok ret) :
    ∃ f', (exec (.completeUpload path caller) s).2.root.view ps = some (.file f') ∧
      Published digest blocks f' := by
  have he := exec_effect (.completeUpload path caller) s
  rw [hok] at he
  generalize hm : metadata (exec _ s).2 = m' at he
  suffices hpublished : ∃ f', m'.node ps = some (.file f') ∧ Published digest blocks f' by
    rw [← hm] at hpublished
    exact hpublished
  cases he with
  | completeUpload hparts' hfile' hpending howner hall =>
      obtain rfl := Except.ok.inj (hparts.symm.trans hparts')
      obtain rfl := eq_of_node (m := metadata s) hfile hfile'
      refine ⟨{ f with state := .committed }, ?_, rfl, ?_⟩
      · rw [Metadata.node_setFile, if_pos rfl]
      · show content f = _
        exact content_of_confirmed h hnodup hall
  | setAttrsDir hparts' hdir hμ => cases hμ
  | setAttrsFile hparts' hfile' hcommitted hμ => cases hμ

/-- **A PUBLISHED FILE STAYS** while others leave it. -/
theorem published_path {μs : List Mutation} (hparts : parts path = .ok ps)
    (hpath : controlTree.Path s μs s') (hleaves : ∀ μ ∈ μs, LeavesFile path μ)
    (hstart : ∃ f, s.root.view ps = some (.file f) ∧ Published digest blocks f) :
    ∃ f, s'.root.view ps = some (.file f) ∧ Published digest blocks f := by
  have hguarded := hpath.of_labels (C := fun _ μ => LeavesFile path μ)
    fun μ hμ _ => hleaves μ hμ
  refine hguarded.keeps (I := fun s => ∃ f, s.root.view ps = some (.file f) ∧
    Published digest blocks f) hstart ?_
  rintro s₁ μ s₂ ⟨f, hfile, hpublished⟩ ⟨hμ, hstep⟩
  cases committedStep_effect (step_effect hstep) hfile hpublished.state with
  | kept f' hfile' hsame hlease =>
      exact ⟨f', hfile', hsame.state.trans hpublished.state,
        hsame.content.trans hpublished.content⟩
  | published f' p w l version confirmed now caller replaced heq hp =>
      subst heq
      exact absurd hp (hμ rfl p ps rfl hparts)
  | removed p now caller heq hp =>
      subst heq
      exact absurd hp (hμ rfl p ps rfl hparts)

end Published

/-! ## The whole upload -/

section Upload

variable {o : Options} {content : Bytes} {w w' : World} {μ : Mutation}
  {changes : List (Nat × Change)} {results : List Nat} {blocks : List BlockLocation}

/-- A call of the client that is answered. -/
theorem calls_ok {ret : Ret} (h : Calls μ w (.ok ret) w') :
    (exec μ w.tree).1 = .ok ret ∧ w'.tree = (exec μ w.tree).2 ∧ w'.written = w.written := by
  obtain ⟨ends, done, hcall, hpath⟩ := h
  have hspec := @wp_call_answered ends μ []
  unfold wp at hspec
  rw [hcall] at hspec
  obtain rfl := hspec ret rfl
  obtain ⟨w₁, hstep, hend⟩ := hpath.of_cons
  obtain rfl := hend.of_nil
  cases hstep with
  | main hseen => exact ⟨hseen, rfl, rfl⟩

theorem mem_ofThreads {events : List Event} {i : Nat} {e : Change} :
    (i, e) ∈ ofThreads events ↔ .thread i e ∈ events := by
  rw [ofThreads, List.mem_filterMap]
  constructor
  · rintro ⟨l, hl, heq⟩
    cases l with
    | main e' => cases heq
    | thread j e' =>
        obtain ⟨rfl, rfl⟩ := Prod.mk.inj (Option.some.inj heq)
        exact hl
    | others μ => cases heq
  · intro h
    exact ⟨_, h, rfl⟩

/-- What the thread of one block has done when all have returned. -/
theorem sent_of_returns (hsizes : ∀ b ∈ blocks, 0 ≤ b.sizeBytes)
    (h : Returns (sending o content blocks) changes results) {i : Nat}
    {x : BlockLocation × Bytes} (hx : (parted content 0 blocks)[i]? = some x) :
    results[i]? = some x.2.length ∧ ∃ ret now leaseS, own i changes = [.stored x.1.blockId x.2,
      .executed (.confirmBlock o.path x.1.blockId (o.digest x.2) x.2.length (some now)
        (some leaseS) o.caller) (.ok ret)] := by
  have hlength : i < results.length := by
    have hcount : results.length = blocks.length := h.length
    have hparted := congrArg List.length (map_fst_parted content 0 blocks)
    rw [List.length_map] at hparted
    rw [hcount, ← hparted]
    exact (List.getElem?_eq_some_iff.mp hx).1
  obtain ⟨n, hn⟩ : ∃ n, results[i]? = some n := ⟨_, List.getElem?_eq_getElem hlength⟩
  obtain ⟨block, start, around, hblock, hstart, hsend⟩ := h.did hn
  have hpart := @getElem?_parted content _ 0 _ _ _ hsizes hblock hstart
  obtain rfl := Option.some.inj (hx.symm.trans hpart)
  have hspec := @sendBlock_spec o content around block start.toNat
  unfold wp at hspec
  rw [hsend] at hspec
  obtain ⟨data, ret, rfl, rfl, hchanges⟩ := hspec n rfl
  exact ⟨hn, ret, around.now, around.leaseS, hchanges⟩

/-- A change of a thread is one of the two of its block. -/
theorem change_of_returns (hsizes : ∀ b ∈ blocks, 0 ≤ b.sizeBytes)
    (h : Returns (sending o content blocks) changes results) {i : Nat} {e : Change}
    (he : (i, e) ∈ changes) : ∃ x, x ∈ parted content 0 blocks ∧ (e = .stored x.1.blockId x.2 ∨
      ∃ ret now leaseS, e = .executed (.confirmBlock o.path x.1.blockId (o.digest x.2)
        x.2.length (some now) (some leaseS) o.caller) (.ok ret)) := by
  have hi : i < blocks.length := h.only (i, e) he
  rw [← map_fst_parted content 0 blocks, List.length_map] at hi
  have hx := List.getElem?_eq_getElem hi
  obtain ⟨_, ret, now, leaseS, hown⟩ := sent_of_returns hsizes h hx
  refine ⟨_, List.getElem_mem hi, ?_⟩
  have hmem := mem_own.mpr he
  rw [hown] at hmem
  rcases List.mem_cons.mp hmem with heq | hmem
  · exact .inl heq
  · exact .inr ⟨ret, now, leaseS, List.mem_singleton.mp hmem⟩

/-- The sizes that the threads return are those of their parts. -/
theorem sum_of_returns (hsizes : ∀ b ∈ blocks, 0 ≤ b.sizeBytes)
    (h : Returns (sending o content blocks) changes results) :
    results.sum = (contentOf (parted content 0 blocks)).length := by
  have hlength : results.length = (parted content 0 blocks).length := by
    have hparted := congrArg List.length (map_fst_parted content 0 blocks)
    rw [List.length_map] at hparted
    exact h.length.trans hparted.symm
  exact sum_eq_length hlength fun i block data hi => (sent_of_returns hsizes h hi).1

section Threads

variable {blocks : List BlockLocation} {events : List Event}

/-- What the threads do while the blocks are sent. -/
theorem sends_of_returns (hsizes : ∀ b ∈ blocks, 0 ≤ b.sizeBytes)
    (hsend : Returns (sending o content blocks) changes results)
    (hduring : Transfers w events changes w')
    (hothers : ∀ μ, .others μ ∈ events → LeavesFile o.path μ) :
    ∀ l ∈ events, Sends o.digest (parted content 0 blocks) o.path l := by
  obtain ⟨_, rfl, hmain⟩ := hduring
  intro l hl
  cases l with
  | main e => exact absurd hl (hmain e)
  | others μ => exact hothers μ hl
  | thread i e =>
      obtain ⟨x, hx, hchange⟩ := change_of_returns hsizes hsend (mem_ofThreads.mpr hl)
      cases e with
      | stored b data => exact trivial
      | executed μ r =>
          rcases hchange with heq | ⟨_, now, leaseS, heq⟩
          · cases heq
          · obtain ⟨rfl, _⟩ := Change.executed.inj heq
            exact ⟨x, hx, some now, some leaseS, o.caller, rfl⟩

/-- What a thread stores is the part of its block. -/
theorem stored_of_returns (hsizes : ∀ b ∈ blocks, 0 ≤ b.sizeBytes)
    (hsend : Returns (sending o content blocks) changes results) {i : Nat} {b : String}
    {data : Bytes} (h : (i, .stored b data) ∈ changes) :
    ∃ x ∈ parted content 0 blocks, b = x.1.blockId ∧ data = x.2 := by
  obtain ⟨x, hx, heq | ⟨_, _, _, heq⟩⟩ := change_of_returns hsizes hsend h
  · obtain ⟨rfl, rfl⟩ := Change.stored.inj heq
    exact ⟨x, hx, rfl, rfl⟩
  · cases heq

/-- Every part has been written to its block. -/
theorem written_of_returns (hsizes : ∀ b ∈ blocks, 0 ≤ b.sizeBytes)
    (hsend : Returns (sending o content blocks) changes results)
    (hduring : Transfers w events changes w')
    (hnodup : ((parted content 0 blocks).map fun x => x.1.blockId).Nodup)
    {x : BlockLocation × Bytes} (hx : x ∈ parted content 0 blocks) :
    w'.written x.1.blockId = some x.2 := by
  obtain ⟨hpath, rfl, hmain⟩ := hduring
  obtain ⟨i, hi⟩ := List.getElem?_of_mem hx
  obtain ⟨_, _, _, _, hown⟩ := sent_of_returns hsizes hsend hi
  have hmem : Change.stored x.1.blockId x.2 ∈ own i (ofThreads events) := by
    rw [hown]
    exact List.mem_cons_self
  refine written_of_path hpath hmain ?_ (mem_ofThreads.mp (mem_own.mp hmem))
  intro i j b data data' hd hd'
  obtain ⟨y, hy, hb, rfl⟩ := stored_of_returns hsizes hsend (mem_ofThreads.mpr hd)
  obtain ⟨y', hy', hb', rfl⟩ := stored_of_returns hsizes hsend (mem_ofThreads.mpr hd')
  rw [List.inj_on_of_nodup_map hnodup hy hy' (hb.symm.trans hb')]

end Threads

/-- What the client has when its upload has begun. -/
theorem begun_of_calls {placements stored : List (String × List String)}
    {stale : List BlockRecord} {now leaseS : Time}
    (h : Proposed o content placements now leaseS μ)
    (hbegin : Calls μ w (.ok (.uploadBegun stored stale)) w') :
    stored = placements ∧ ∃ ps, parts o.path = .ok ps ∧ w'.tree.root.view ps
      = some (.file (newUpload placements (some now) (some leaseS) (some o.blockSize)
        o.caller)) := by
  obtain ⟨hbegun, htree, _⟩ := calls_ok hbegin
  obtain ⟨_, _, rfl⟩ := mutationOf_beginUpload h.commit
  have he := exec_effect (.beginUpload o.path placements (some now) (some leaseS)
    (some o.blockSize) o.caller) w.tree
  rw [hbegun] at he
  obtain ⟨ps, _, hparts, hplaced, _⟩ := begun_effect he
  refine ⟨(Ret.uploadBegun.inj hplaced).1, ps, hparts, ?_⟩
  rw [htree]
  exact file_of_begun hparts hbegun

/-- **WHAT AN UPLOAD LEAVES** when it returns, in whatever order its blocks have
    been sent and confirmed: a committed file whose blocks are the parts of the
    file, one after the other, and each block has been written. -/
theorem upload_spec {events : List Event} {n : Nat} (h : Upload o content w events (.ok n) w')
    (hothers : ∀ μ, .others μ ∈ events → LeavesFile o.path μ) :
    ∃ ps f blocks, parts o.path = .ok ps ∧ w'.tree.root.view ps = some (.file f) ∧
      Published o.digest blocks f ∧ (∀ x ∈ blocks, w'.written x.1.blockId = some x.2) ∧
      contentOf blocks = content ∧ n = content.length := by
  cases h with
  | returned hproposed hbegin hsend hduring hcomplete =>
      obtain ⟨rfl, ps, hparts, hfile₁⟩ := begun_of_calls hproposed hbegin
      obtain ⟨hcompleted, htree', hwritten'⟩ := calls_ok hcomplete
      obtain ⟨hsizes, _⟩ := hproposed.sizes
      have hnodup := hproposed.nodup_parted
      have hsends := sends_of_returns hsizes hsend hduring hothers
      obtain ⟨f₂, hfile₂, hsent₂⟩ := partlySent_path hparts hnodup hduring.1 hsends
        ⟨_, hfile₁, partlySent_newUpload (map_blockId_parted _ _ _).symm _ _ _ _⟩
      obtain ⟨f, hfile, hpublished⟩ := published_of_completed hparts hnodup hfile₂ hsent₂
        hcompleted
      refine ⟨ps, f, _, hparts, htree' ▸ hfile, hpublished, ?_, hproposed.contentOf, ?_⟩
      · intro x hx
        rw [hwritten']
        exact written_of_returns hsizes hsend hduring hnodup hx
      · rw [sum_of_returns hsizes hsend, hproposed.contentOf]

end Upload

end DfshaUploadedFile
