import Dfsha.InsertionDictProofs
import Dfsha.RoundTripProofs
import Dfsha.ControlTreeProofs
import Dfsha.TransitionSystemProofs

/-! # The directory of a DataNode

    A DataNode keeps its blocks as files of one directory.  A write fills a
    temporary file and moves it to its place at the end, so writes of one
    block, or of many, can go on at the same time, be cut, or be left behind
    when the process dies; a file can be deleted, and the disk can damage any
    of them.

    What the DataNode shows of this is a map: a block is there with the data of
    the last write that reached its end, unless it has been deleted since.  It
    is read back whole, the inventory lists it once with its size, and what is
    temporary is never seen.  A damaged file stays in the inventory, and hides
    nothing else. -/

namespace DfshaBlockDirectory

open InsertionDict RaisingAction TransitionSystem TransitionSystem.System
open DfshaControlTree (Time)
open BlockChunks DfshaBlockStore DfshaContainer DfshaRoundTrip
open DfshaBlockRead (asked)

/-! ## The code -/

structure StoredFile where
  content : Bytes
  mtime : Time

/-- A `write_block` that is under way. -/
structure Writing where
  blockId : String
  tag : String
  pre : NoncePrefix
  chunks : List Bytes
deriving DecidableEq

/-- The temporary file. -/
def Writing.partName (w : Writing) : String := w.blockId ++ ".part-" ++ w.tag

/-- What is at the path of an entry when `stat` looks, and afterwards. -/
structure Look where
  stat : Option StoredFile
  found : Found

/-- A block of the inventory: its id, its size and its age. -/
abbrev Listed : Type := String × Nat × Time

section Code

variable (crypto : Crypto) (key : Bytes)

/-- One turn of the loop of `list_blocks`; the state is what it has yielded. -/
def listEntry (now : Time) (name : String) (look : Look) : Action (List Listed) StoreError Unit :=
  if ValidBlockId name then
    match look.stat with
    | none => pure ()
    | some file =>
        match (readMetadata crypto key name look.found []).1 with
        | .ok m => modify (· ++ [(name, m.logicalSize, max 0 (now - file.mtime))])
        | .error (.blockNotFound _) => pure ()
        | .error (.blockCorrupted _) =>
            modify (· ++ [(name, file.content.length, max 0 (now - file.mtime))])
        | .error e => raise e
  else pure ()

/-- `list_blocks`, over what `iterdir` gives. -/
def listBlocks (now : Time) : List (String × Look) → Action (List Listed) StoreError Unit
  | [] => pure ()
  | (name, look) :: entries => do
      listEntry crypto key now name look
      listBlocks now entries

end Code

structure Directory where
  files : Dict String StoredFile
  writing : List Writing

def Directory.empty : Directory := ⟨Dict.empty, []⟩

/-- The file of a block that nobody touches meanwhile. -/
def Directory.found (d : Directory) (blockId : String) : Found :=
  match d.files.get? blockId with
  | some file => .still file.content
  | none => ⟨none, none, none, none⟩

def lookAt (entry : String × StoredFile) : String × Look :=
  (entry.1, ⟨some entry.2, .still entry.2.content⟩)

/-- `delete_block`. -/
def deleteBlock (d : Directory) (blockId : String) : Except StoreError Directory :=
  if ¬ ValidBlockId blockId then
    .error (.blockNotFound s!"block_id inválido: {DfshaPath.pyRepr blockId}")
  else if d.files.get? blockId = none then .error (noBlock blockId)
  else .ok { d with files := d.files.erase blockId }

/-! ## What happens to it -/

inductive Label where
  | begin (w : Writing) (now : Time)
  | progress (w : Writing) (content : Bytes) (now : Time)
  | finish (w : Writing) (mtime : Time)
  | fail (w : Writing)
  | crash
  | delete (blockId : String)
  | damage (name : String) (file : StoredFile)

section Steps

variable (crypto : Crypto) (key : Bytes)

/-- The end of a write: the temporary file is moved to its place, or removed. -/
def finishWrite (w : Writing) (mtime : Time) (d : Directory) : Directory :=
  let r := writeBlock crypto key w.blockId w.pre w.chunks {}
  let files := d.files.erase w.partName
  match r.1 with
  | .ok _ => ⟨files.insert w.blockId ⟨r.2.file, mtime⟩, d.writing.erase w⟩
  | .error _ => ⟨files, d.writing.erase w⟩

inductive Step : Directory → Label → Directory → Prop
  -- the name of the temporary file is fresh
  | begin {d : Directory} {w : Writing} {now : Time} (hid : ValidBlockId w.blockId)
      (hfresh : d.files.get? w.partName = none) :
      Step d (.begin w now) ⟨d.files.insert w.partName ⟨[], now⟩, d.writing ++ [w]⟩
  | progress {d : Directory} {w : Writing} {content : Bytes} {now : Time} (hw : w ∈ d.writing) :
      Step d (.progress w content now)
        { d with files := d.files.insert w.partName ⟨content, now⟩ }
  | finish {d : Directory} {w : Writing} {mtime : Time} (hw : w ∈ d.writing) :
      Step d (.finish w mtime) (finishWrite crypto key w mtime d)
  -- the stream is cut, or the disk is full
  | fail {d : Directory} {w : Writing} (hw : w ∈ d.writing) :
      Step d (.fail w) ⟨d.files.erase w.partName, d.writing.erase w⟩
  -- the process dies, its temporary files stay
  | crash {d : Directory} : Step d .crash { d with writing := [] }
  | delete {d d' : Directory} {blockId : String} (h : deleteBlock d blockId = .ok d') :
      Step d (.delete blockId) d'
  | deleteRefused {d : Directory} {blockId : String} {e : StoreError}
      (h : deleteBlock d blockId = .error e) : Step d (.delete blockId) d
  -- the disk returns something else, of a file that is not being written
  | damage {d : Directory} {name : String} {old file : StoredFile}
      (h : d.files.get? name = some old) (hwriting : ∀ w ∈ d.writing, w.partName ≠ name) :
      Step d (.damage name file) { d with files := d.files.insert name file }

def directory : System Directory Label where
  init := fun d => d = Directory.empty
  step := Step crypto key

end Steps

/-! ## The map -/

/-- What there is of a block. -/
inductive Copy where
  | intact (data : Bytes)
  | damaged

abbrev Copies : Type := String → Option Copy

instance (key : Bytes) (blockId : String) (data : Bytes) : Decidable (Fits key blockId data) :=
  inferInstanceAs (Decidable (_ ∧ _ ∧ _))

/-- What a step does to the blocks: a write that fits replaces its block. -/
def effect (key : Bytes) (copies : Copies) : Label → Copies
  | .finish w _ =>
      if Fits key w.blockId w.chunks.flatten then
        Function.update copies w.blockId (some (.intact w.chunks.flatten))
      else copies
  | .delete blockId => Function.update copies blockId none
  | .damage name _ =>
      if (copies name).isSome then Function.update copies name (some .damaged) else copies
  | _ => copies

/-- What there is after these steps. -/
def copiesAfter (key : Bytes) (ls : List Label) : Copies :=
  ls.foldl (effect key) fun _ => none

/-- The file of a block is what there is of it. -/
inductive Holds (crypto : Crypto) (key : Bytes) (blockId : String) :
    Option StoredFile → Option Copy → Prop
  | absent : Holds crypto key blockId none none
  | intact {data : Bytes} {pre : NoncePrefix} {mtime : Time} (hfits : Fits key blockId data) :
      Holds crypto key blockId (some ⟨container crypto key blockId pre data, mtime⟩)
        (some (.intact data))
  | damaged {file : StoredFile} : Holds crypto key blockId (some file) (some .damaged)

/-- The directory shows these blocks, and no others. -/
structure Shows (crypto : Crypto) (key : Bytes) (d : Directory) (copies : Copies) : Prop where
  holds : ∀ blockId, ValidBlockId blockId →
    Holds crypto key blockId (d.files.get? blockId) (copies blockId)
  valid : ∀ blockId, ¬ ValidBlockId blockId → copies blockId = none
  writing : ∀ w ∈ d.writing, ValidBlockId w.blockId

section Shows

variable {crypto : Crypto} {key : Bytes} {d d' : Directory} {copies : Copies}

/-- A temporary file has no name of a block. -/
theorem partName_invalid (w : Writing) : ¬ ValidBlockId w.partName := by
  intro h
  have hdot : '.' ∈ w.partName.toList := by
    rw [Writing.partName, String.toList_append, String.toList_append]
    exact List.mem_append_left _ (List.mem_append_right _ List.mem_cons_self)
  rcases h.2 '.' hdot with ⟨hlow, _⟩ | ⟨hlow, _⟩
  · exact absurd hlow (by decide)
  · exact absurd hlow (by decide)

theorem ne_partName {blockId : String} (hid : ValidBlockId blockId) (w : Writing) :
    blockId ≠ w.partName := by
  rintro rfl
  exact partName_invalid w hid

/-- What happens to temporary files is not seen. -/
theorem Shows.temporary (h : Shows crypto key d copies)
    (hfiles : ∀ blockId, ValidBlockId blockId → d'.files.get? blockId = d.files.get? blockId)
    (hwriting : ∀ w ∈ d'.writing, ValidBlockId w.blockId) : Shows crypto key d' copies where
  holds blockId hid := by
    rw [hfiles blockId hid]
    exact h.holds blockId hid
  valid := h.valid
  writing := hwriting

/-- What happens to one block. -/
theorem Shows.update (h : Shows crypto key d copies) {blockId : String} {copy : Option Copy}
    (hid : ValidBlockId blockId)
    (hholds : Holds crypto key blockId (d'.files.get? blockId) copy)
    (hfiles : ∀ blockId', ValidBlockId blockId' → blockId' ≠ blockId →
      d'.files.get? blockId' = d.files.get? blockId')
    (hwriting : ∀ w ∈ d'.writing, ValidBlockId w.blockId) :
    Shows crypto key d' (Function.update copies blockId copy) where
  holds blockId' hid' := by
    by_cases heq : blockId' = blockId
    · subst heq
      rw [Function.update_self]
      exact hholds
    · rw [Function.update_of_ne heq, hfiles blockId' hid' heq]
      exact h.holds blockId' hid'
  valid blockId' hbad := by
    rw [Function.update_of_ne (by rintro rfl; exact hbad hid)]
    exact h.valid blockId' hbad
  writing := hwriting

theorem get?_erase_part (w : Writing) {blockId : String} (hid : ValidBlockId blockId) :
    (d.files.erase w.partName).get? blockId = d.files.get? blockId :=
  Dict.get?_erase_ne _ (ne_partName hid w)

theorem get?_insert_part (w : Writing) (file : StoredFile) {blockId : String}
    (hid : ValidBlockId blockId) :
    (d.files.insert w.partName file).get? blockId = d.files.get? blockId :=
  Dict.get?_insert_ne _ _ (ne_partName hid w)

/-- **THE END OF A WRITE**: the block has the data of the write, if it fits;
    otherwise nothing has happened. -/
theorem shows_finish (h : Shows crypto key d copies) {w : Writing} (hw : w ∈ d.writing)
    (mtime : Time) : Shows crypto key (finishWrite crypto key w mtime d)
      (effect key copies (.finish w mtime)) := by
  have hid := h.writing w hw
  have hrest : ∀ w' ∈ d.writing.erase w, ValidBlockId w'.blockId :=
    fun w' hmem => h.writing w' (List.mem_of_mem_erase hmem)
  have hwritten : Written crypto key w.blockId w.pre w.chunks.flatten
      (writeBlock crypto key w.blockId w.pre w.chunks {}).1
      (writeBlock crypto key w.blockId w.pre w.chunks {}).2 := writeBlock_spec w.chunks
  unfold finishWrite effect
  dsimp only
  generalize (writeBlock crypto key w.blockId w.pre w.chunks {}).1 = res at hwritten
  generalize (writeBlock crypto key w.blockId w.pre w.chunks {}).2 = wr at hwritten ⊢
  cases hwritten with
  | done hfits _ hfile =>
      dsimp only
      rw [if_pos hfits, hfile]
      refine h.update hid ?_ ?_ hrest
      · rw [Dict.get?_insert_self]
        exact .intact hfits
      · intro blockId' hid' hne
        rw [Dict.get?_insert_ne _ _ hne, get?_erase_part w hid']
  | stopped hstop =>
      dsimp only
      rw [if_neg hstop.1]
      exact h.temporary (fun blockId' hid' => get?_erase_part w hid') hrest

/-- A deletion is refused for a block that is not there. -/
theorem Shows.none_of_refused (h : Shows crypto key d copies) {blockId : String} {e : StoreError}
    (hdelete : deleteBlock d blockId = .error e) : copies blockId = none := by
  unfold deleteBlock at hdelete
  by_cases hid : ValidBlockId blockId
  · rw [if_neg (not_not.mpr hid)] at hdelete
    by_cases hnone : d.files.get? blockId = none
    · have hholds := h.holds blockId hid
      rw [hnone] at hholds
      generalize copies blockId = copy at hholds
      cases hholds
      rfl
    · rw [if_neg hnone] at hdelete
      cases hdelete
  · exact h.valid blockId hid

theorem shows_step (h : Shows crypto key d copies) {l : Label}
    (hstep : Step crypto key d l d') : Shows crypto key d' (effect key copies l) := by
  cases hstep with
  | @begin w now hid hfresh =>
      refine h.temporary (fun blockId hid' => get?_insert_part w _ hid') fun w' hmem => ?_
      rcases List.mem_append.mp hmem with hold | hnew
      · exact h.writing w' hold
      · obtain rfl := List.mem_singleton.mp hnew
        exact hid
  | @progress w content now hw =>
      exact h.temporary (fun blockId hid' => get?_insert_part w _ hid') h.writing
  | finish hw => exact shows_finish h hw _
  | @fail w hw =>
      exact h.temporary (fun blockId hid' => get?_erase_part w hid') fun w' hmem =>
        h.writing w' (List.mem_of_mem_erase hmem)
  | crash => exact h.temporary (fun _ _ => rfl) fun w' hmem => absurd hmem List.not_mem_nil
  | @delete _ blockId hdelete =>
      unfold deleteBlock at hdelete
      by_cases hid : ValidBlockId blockId
      · rw [if_neg (not_not.mpr hid)] at hdelete
        by_cases hnone : d.files.get? blockId = none
        · rw [if_pos hnone] at hdelete
          cases hdelete
        · rw [if_neg hnone] at hdelete
          obtain rfl := Except.ok.inj hdelete
          refine h.update hid ?_ (fun blockId' _ hne => Dict.get?_erase_ne _ hne) h.writing
          dsimp only
          rw [Dict.get?_erase_self]
          exact .absent
      · rw [if_pos hid] at hdelete
        cases hdelete
  | @deleteRefused blockId e hdelete =>
      have hnone := h.none_of_refused hdelete
      have hsame : effect key copies (.delete blockId) = copies := by
        show Function.update copies blockId none = copies
        rw [← hnone, Function.update_eq_self]
      rw [hsame]
      exact h
  | @damage name old file hold _ =>
      unfold effect
      by_cases hid : ValidBlockId name
      · have hholds := h.holds name hid
        rw [hold] at hholds
        have hsome : (copies name).isSome = true := by
          generalize copies name = copy at hholds
          cases hholds <;> rfl
        dsimp only
        rw [if_pos hsome]
        refine h.update hid ?_ (fun blockId' _ hne => Dict.get?_insert_ne _ _ hne) h.writing
        dsimp only
        rw [Dict.get?_insert_self]
        exact .damaged
      · have hnone : (copies name).isSome ≠ true := by
          rw [h.valid name hid]
          simp
        dsimp only
        rw [if_neg hnone]
        refine h.temporary (fun blockId hid' => ?_) h.writing
        exact Dict.get?_insert_ne _ _ fun heq => hid (heq ▸ hid')

/-- **EVERY RUN SHOWS ITS MAP.** -/
theorem shows_run {ls : List Label} (hrun : (directory crypto key).Run ls d) :
    Shows crypto key d (copiesAfter key ls) := by
  refine Run.invariant (I := fun ls d => Shows crypto key d (copiesAfter key ls)) hrun ?_ ?_
  · rintro _ rfl
    exact ⟨fun _ _ => .absent, fun _ _ => rfl, fun _ hmem => absurd hmem List.not_mem_nil⟩
  · intro ls d₁ l d₂ ih hstep
    rw [copiesAfter, List.foldl_append]
    exact shows_step ih hstep

end Shows

/-! ## What the DataNode answers -/

section Answers

variable {crypto : Crypto} {key : Bytes}

/-- A file that is there is read, or found to be damaged. -/
theorem raises_readMetadata (hkey : key.length = 32) (name : String) (file : Bytes) :
    Raises (fun e => ∃ message, e = .blockCorrupted message)
      (readMetadata crypto key name (.still file)) := by
  have hdamaged : ∀ detail, ∃ message,
      containerError name detail = .blockCorrupted message := fun _ => ⟨_, rfl⟩
  refine raises_ofExcept (fun e he => by cases he) fun onDisk _ => ?_
  refine Raises.bind (raises_raiseIf (hdamaged _)) fun _ => ?_
  refine raises_ofExcept (fun e he => by cases he) fun fh _ => ?_
  refine raises_ofExcept (fun e he => ?_) fun pre _ => ?_
  · unfold prefixOf at he
    by_cases hlen : ((fh.take headerSize).drop 6).length = 8
    · rw [dif_pos hlen] at he
      cases he
    · rw [dif_neg hlen] at he
      obtain rfl := Except.error.inj he
      exact hdamaged _
  refine Raises.bind (raises_raiseIf (hdamaged _)) fun _ => ?_
  refine Raises.bind (raises_raiseIf (hdamaged _)) fun _ => ?_
  refine Raises.bind (raises_raiseIf (hdamaged _)) fun _ => ?_
  refine raises_ofExcept (fun e he => ?_) fun _ _ => ?_
  · rw [validateKey, if_pos hkey] at he
    cases he
  refine raises_ofExcept (fun e he => ?_) fun n _ => ?_
  · rw [nonce, if_pos (Nat.le_refl _)] at he
    cases he
  refine raises_ofExcept (fun e he => ?_) fun metadata _ => ?_
  · generalize crypto.decrypt key n (fh.drop (fh.length - metadataRecordSize))
      (metadataAad name (fh.take headerSize)) = plaintext at he
    cases plaintext with
    | some p => cases he
    | none =>
        obtain rfl := Except.error.inj he
        exact hdamaged _
  refine Raises.bind (raises_raiseIf (hdamaged _)) fun _ => ?_
  refine Raises.bind (raises_raiseIf (hdamaged _)) fun _ => ?_
  refine Raises.bind (raises_raiseIf (hdamaged _)) fun _ => ?_
  refine Raises.bind (raises_raiseIf (hdamaged _)) fun _ => ?_
  exact raises_pure _

variable {copies : Copies} {now : Time}

/-- What the inventory says of a file with the name of a block. -/
structure ListedAs (copies : Copies) (now : Time) (blockId : String) (file : StoredFile)
    (listed : Listed) : Prop where
  named : listed.1 = blockId
  sized : ∀ data, copies blockId = some (.intact data) → listed.2.1 = data.length
  aged : listed.2.2 = max 0 (now - file.mtime)

/-- A file with another name is left out, a block is listed once. -/
theorem listEntry_spec (hcrypto : Lawful crypto) (hkey : key.length = 32) {name : String}
    {file : StoredFile}
    (hfile : ValidBlockId name → Holds crypto key name (some file) (copies name))
    (ys : List Listed) :
    wp (listEntry crypto key now name (lookAt (name, file)).2) ys fun r ys' => r = .ok () ∧
      if ValidBlockId name then
        ∃ listed, ListedAs copies now name file listed ∧ ys' = ys ++ [listed]
      else ys' = ys := by
  unfold listEntry lookAt
  by_cases hid : ValidBlockId name
  · rw [if_pos hid]
    dsimp only
    have hholds := hfile hid
    generalize hcopy : copies name = copy at hholds
    have hraises := (raises_readMetadata hkey name file.content :
      Raises _ (readMetadata crypto key name (.still file.content))) []
    unfold wp at hraises
    cases hholds with
    | @intact data pre mtime hfits =>
        have hread := (@readMetadata_container crypto key name pre data hcrypto hfits []).1
        dsimp only
        rw [hread]
        refine wp_modify_last ⟨rfl, ?_⟩
        rw [if_pos hid]
        refine ⟨_, ⟨rfl, fun data' hdata' => ?_, rfl⟩, rfl⟩
        rw [hcopy] at hdata'
        obtain rfl := Copy.intact.inj (Option.some.inj hdata')
        rfl
    | damaged =>
        have hnot : ∀ data, copies name ≠ some (.intact data) := by
          intro data heq
          rw [hcopy] at heq
          cases heq
        cases hread : (readMetadata crypto key name (.still file.content) []).1 with
        | ok m =>
            refine wp_modify_last ⟨rfl, ?_⟩
            rw [if_pos hid]
            exact ⟨_, ⟨rfl, fun data hdata => absurd hdata (hnot data), rfl⟩, rfl⟩
        | error e =>
            obtain ⟨message, rfl⟩ := hraises e hread
            refine wp_modify_last ⟨rfl, ?_⟩
            rw [if_pos hid]
            exact ⟨_, ⟨rfl, fun data hdata => absurd hdata (hnot data), rfl⟩, rfl⟩
  · rw [if_neg hid]
    refine wp_ret ⟨rfl, ?_⟩
    rw [if_neg hid]

/-- The inventory of a list of files: those that have the name of a block. -/
theorem listBlocks_spec (hcrypto : Lawful crypto) (hkey : key.length = 32)
    {entries : List (String × StoredFile)}
    (hfiles : ∀ entry ∈ entries, ValidBlockId entry.1 →
      Holds crypto key entry.1 (some entry.2) (copies entry.1)) (ys : List Listed) :
    wp (listBlocks crypto key now (entries.map lookAt)) ys fun r ys' => r = .ok () ∧
      ∃ listed, ys' = ys ++ listed ∧
        listed.map (·.1) = (entries.filter fun entry => decide (ValidBlockId entry.1)).map (·.1) ∧
        ∀ l ∈ listed, ∃ entry ∈ entries, ListedAs copies now entry.1 entry.2 l := by
  induction entries generalizing ys with
  | nil => exact ⟨rfl, [], (List.append_nil ys).symm, rfl, fun _ hmem => by cases hmem⟩
  | cons entry entries ih =>
      obtain ⟨name, file⟩ := entry
      have hrest := ih fun entry hmem => hfiles entry (List.mem_cons_of_mem _ hmem)
      rw [List.map_cons]
      refine wp_call (listEntry_spec hcrypto hkey (hfiles _ List.mem_cons_self) ys) ?_
        fun _ _ h => by cases h.1
      rintro _ ys' ⟨_, hys'⟩
      refine wp_mono (hrest ys') ?_
      rintro r ys'' ⟨hr, listed, rfl, hnames, hlisted⟩
      refine ⟨hr, ?_⟩
      by_cases hid : ValidBlockId name
      · rw [if_pos hid] at hys'
        obtain ⟨first, hfirst, rfl⟩ := hys'
        refine ⟨first :: listed, List.append_assoc _ _ _, ?_, fun l hmem => ?_⟩
        · rw [List.filter_cons_of_pos (by simpa using hid), List.map_cons, List.map_cons, hnames,
            hfirst.named]
        · rcases List.mem_cons.mp hmem with rfl | hold
          · exact ⟨_, List.mem_cons_self, hfirst⟩
          · obtain ⟨entry, hentry, hdesc⟩ := hlisted l hold
            exact ⟨entry, List.mem_cons_of_mem _ hentry, hdesc⟩
      · rw [if_neg hid] at hys'
        obtain rfl := hys'
        refine ⟨listed, rfl, ?_, fun l hmem => ?_⟩
        · rw [List.filter_cons_of_neg (by simpa using hid)]
          exact hnames
        · obtain ⟨entry, hentry, hdesc⟩ := hlisted l hmem
          exact ⟨entry, List.mem_cons_of_mem _ hentry, hdesc⟩

/-- A map as the calls show it, if no write or deletion goes on meanwhile. -/
structure Serves (crypto : Crypto) (key : Bytes) (d : Directory) (copies : Copies) : Prop where
  /-- An intact block is read back, in any range. -/
  read : ∀ blockId data, copies blockId = some (.intact data) →
    ∀ chunkSize, 0 < chunkSize → ∀ (offset : Nat) (length : Option Nat),
      ∃ pieces, readBlock crypto key blockId (d.found blockId) chunkSize offset
          (length.map Nat.cast) [] = (.ok (), pieces) ∧
        pieces.flatten = asked data offset length
  /-- There is nothing else to read or to delete. -/
  absent : ∀ blockId, ValidBlockId blockId → copies blockId = none →
    deleteBlock d blockId = .error (noBlock blockId) ∧
      ∀ chunkSize (offset : Nat) (length : Option Nat),
        readBlock crypto key blockId (d.found blockId) chunkSize offset (length.map Nat.cast) []
          = (.error (noBlock blockId), [])
  /-- The inventory lists the blocks, in whatever order the directory is gone
      through, each once and the intact ones with their size. -/
  list : ∀ now (entries : List (String × StoredFile)), entries.Perm d.files.entries →
    ∃ listed, listBlocks crypto key now (entries.map lookAt) [] = (.ok (), listed) ∧
      (listed.map (·.1)).Nodup ∧
      (∀ blockId, blockId ∈ listed.map (·.1) ↔ copies blockId ≠ none) ∧
      ∀ l ∈ listed, 0 ≤ l.2.2 ∧ ∀ data, copies l.1 = some (.intact data) → l.2.1 = data.length

variable {d : Directory}

theorem Shows.read (h : Shows crypto key d copies) (hcrypto : Lawful crypto) {blockId : String}
    {data : Bytes} (hcopy : copies blockId = some (.intact data)) {chunkSize : Nat}
    (hsize : 0 < chunkSize) (offset : Nat) (length : Option Nat) :
    ∃ pieces, readBlock crypto key blockId (d.found blockId) chunkSize offset
        (length.map Nat.cast) [] = (.ok (), pieces) ∧
      pieces.flatten = asked data offset length := by
  have hid : ValidBlockId blockId := by
    by_contra hbad
    rw [h.valid blockId hbad] at hcopy
    cases hcopy
  have hholds := h.holds blockId hid
  rw [hcopy] at hholds
  unfold Directory.found
  generalize d.files.get? blockId = file at hholds ⊢
  cases hholds with
  | @intact _ pre mtime hfits =>
      obtain ⟨hres, hbytes, _⟩ := readBlock_container pre hcrypto hfits hsize offset length
      exact ⟨_, Prod.ext hres rfl, hbytes⟩

theorem Shows.absent (h : Shows crypto key d copies) {blockId : String}
    (hid : ValidBlockId blockId) (hcopy : copies blockId = none) :
    deleteBlock d blockId = .error (noBlock blockId) ∧
      ∀ chunkSize (offset : Nat) (length : Option Nat),
        readBlock crypto key blockId (d.found blockId) chunkSize offset (length.map Nat.cast) []
          = (.error (noBlock blockId), []) := by
  have hholds := h.holds blockId hid
  rw [hcopy] at hholds
  generalize hfile : d.files.get? blockId = file at hholds
  cases hholds
  refine ⟨?_, fun chunkSize offset length => ?_⟩
  · rw [deleteBlock, if_neg (not_not.mpr hid), if_pos hfile]
  · have hwp : wp (readBlock crypto key blockId (d.found blockId) chunkSize offset
        (length.map Nat.cast)) [] fun r ys => r = .error (noBlock blockId) ∧ ys = [] := by
      refine wp_raiseIf_passed ?_ ?_
      · rintro (hneg | ⟨n, hn, hneg⟩)
        · omega
        · obtain ⟨n', _, rfl⟩ := Option.map_eq_some_iff.mp hn
          omega
      refine wp_ofExcept_ok (if_pos hid) ?_
      rw [Directory.found, hfile]
      exact wp_bind ⟨rfl, rfl⟩
    exact Prod.ext hwp.1 hwp.2

theorem Shows.list (h : Shows crypto key d copies) (hcrypto : Lawful crypto)
    (hkey : key.length = 32) (now : Time) {entries : List (String × StoredFile)}
    (hperm : entries.Perm d.files.entries) :
    ∃ listed, listBlocks crypto key now (entries.map lookAt) [] = (.ok (), listed) ∧
      (listed.map (·.1)).Nodup ∧
      (∀ blockId, blockId ∈ listed.map (·.1) ↔ copies blockId ≠ none) ∧
      ∀ l ∈ listed, 0 ≤ l.2.2 ∧
        ∀ data, copies l.1 = some (.intact data) → l.2.1 = data.length := by
  have hnodup : (entries.map Prod.fst).Nodup := (hperm.map _).nodup_iff.mpr d.files.nodup
  have hget : ∀ entry ∈ entries, d.files.get? entry.1 = some entry.2 := fun entry hmem =>
    assocGet_of_mem d.files.nodup (hperm.mem_iff.mp hmem)
  obtain ⟨hr, listed, hlisted, hnames, hdesc⟩ := listBlocks_spec hcrypto hkey
    (fun entry hmem hid => hget entry hmem ▸ h.holds entry.1 hid) []
  refine ⟨listed, Prod.ext hr hlisted, ?_, fun blockId => ?_, fun l hmem => ?_⟩
  · rw [hnames]
    exact nodup_filter_keys hnodup _
  · rw [hnames]
    constructor
    · intro hmem
      obtain ⟨entry, hentry, rfl⟩ := List.mem_map.mp hmem
      obtain ⟨hin, hid⟩ := List.mem_filter.mp hentry
      have hholds := h.holds entry.1 (of_decide_eq_true hid)
      intro hnone
      rw [hget entry hin, hnone] at hholds
      generalize entry.2 = file at hholds
      cases hholds
    · intro hsome
      have hid : ValidBlockId blockId := by
        by_contra hbad
        exact hsome (h.valid blockId hbad)
      have hholds := h.holds blockId hid
      cases hfile : d.files.get? blockId with
      | none =>
          rw [hfile] at hholds
          generalize copies blockId = copy at hholds hsome
          cases hholds
          exact absurd rfl hsome
      | some file =>
          refine List.mem_map.mpr ⟨(blockId, file), List.mem_filter.mpr ⟨?_, ?_⟩, rfl⟩
          · exact hperm.mem_iff.mpr (assocGet_eq_some_mem hfile)
          · exact decide_eq_true hid
  · obtain ⟨entry, _, hentry⟩ := hdesc l hmem
    rw [hentry.aged, hentry.named]
    exact ⟨le_max_left _ _, hentry.sized⟩

/-- **THE DIRECTORY IS A MAP**: after any writes, whole or cut, crashes,
    deletions and damages, every block is what the last write that ended left,
    unless it has been deleted or damaged since; the calls say so, each of one
    state of the directory, and damage to some files changes nothing of the
    others. -/
theorem directory_is_a_map (hcrypto : Lawful crypto) (hkey : key.length = 32)
    {ls : List Label} (hrun : (directory crypto key).Run ls d) :
    Serves crypto key d (copiesAfter key ls) where
  read _ _ hcopy _ hsize offset length := (shows_run hrun).read hcrypto hcopy hsize offset length
  absent _ hid hcopy := (shows_run hrun).absent hid hcopy
  list now _ hperm := (shows_run hrun).list hcrypto hkey now hperm

/-- Two writes of a block: one ends, the process dies during the other. -/
def holaWriting (tag : String) : Writing := ⟨holaId, tag, holaPrefix, [[104, 111], [], [108, 97]]⟩

def holaLabels : List Label :=
  [.begin (holaWriting "a") 0, .progress (holaWriting "a") [1, 2] 1,
    .begin (holaWriting "b") 2, .finish (holaWriting "a") 3, .crash]

def holaParts : Directory :=
  ⟨((Dict.empty.insert (holaWriting "a").partName ⟨[], 0⟩).insert
    (holaWriting "a").partName ⟨[1, 2], 1⟩).insert (holaWriting "b").partName ⟨[], 2⟩,
    [holaWriting "a", holaWriting "b"]⟩

def holaDirectory : Directory :=
  { finishWrite holaCrypto holaKey (holaWriting "a") 3 holaParts with writing := [] }

theorem run_hola : (directory holaCrypto holaKey).Run holaLabels holaDirectory := by
  have hparts : (directory holaCrypto holaKey).Run (holaLabels.take 3) holaParts := by
    have hstart : (directory holaCrypto holaKey).Run [] Directory.empty := ⟨_, rfl, .start⟩
    have hbegin : (directory holaCrypto holaKey).Run (holaLabels.take 1) _ :=
      hstart.next (.begin (by decide) rfl)
    have hprogress : (directory holaCrypto holaKey).Run (holaLabels.take 2) _ :=
      hbegin.next (.progress List.mem_cons_self)
    exact hprogress.next (.begin (by decide) (by decide))
  exact (hparts.next (Step.finish List.mem_cons_self)).next Step.crash

theorem directory_is_a_map_hola :
    Serves holaCrypto holaKey holaDirectory (copiesAfter holaKey holaLabels) ∧
      copiesAfter holaKey holaLabels holaId = some (.intact hola) :=
  ⟨directory_is_a_map lawful_holaCrypto rfl run_hola, rfl⟩

end Answers

end DfshaBlockDirectory
