import Dfsha.PathNamesProofs

/-! # The exceptions of the tree

    A handler names the domain exceptions it expects, by hand; what an
    operation can raise comes from helpers several calls below it.  Here the
    set is computed: `RaisesOnly row x` says that every domain exception that
    `x` raises is of a class of `row`, from any tree, with any arguments.

    The errors of the interpreter itself (a division by zero, an index out of
    range) are not domain exceptions and are in no row. -/

namespace DfshaTreeErrors

open RaisingAction DfshaPath DfshaControlTree
open DfshaPathNames (Climbs)

/-- If the error is a domain exception, it is of one of the classes. -/
def Within (row : List ErrorClass) (e : PyError) : Prop := e.cls.isDomain = true → e.cls ∈ row

abbrev RaisesOnly {α : Type} (row : List ErrorClass) (x : TreeM α) : Prop :=
  Raises (Within row) x

variable {α β : Type} {row row' : List ErrorClass}

theorem Within.mono {e : PyError} (h : Within row e) (hrow : ∀ cls ∈ row, cls ∈ row') :
    Within row' e := fun hd => hrow _ (h hd)

theorem RaisesOnly.mono {x : TreeM α} (h : RaisesOnly row x) (hrow : ∀ cls ∈ row, cls ∈ row') :
    RaisesOnly row' x := Raises.mono h fun _ he => he.mono hrow

theorem within_of_mem {cls : ErrorClass} (h : cls ∈ row) (message : String) :
    Within row ⟨cls, message⟩ := fun _ => h

theorem raisesOnly_raise {cls : ErrorClass} (h : cls ∈ row) (message : String) :
    RaisesOnly row (raise ⟨cls, message⟩ : TreeM α) := raises_raise (within_of_mem h message)

theorem raisesOnly_raiseIf {c : Prop} [Decidable c] {cls : ErrorClass} (h : cls ∈ row)
    (message : String) : RaisesOnly row (raiseIf c ⟨cls, message⟩) :=
  raises_raiseIf (within_of_mem h message)

/-! ## Paths, lookups and permissions -/

theorem parts_eq_error {path : String} {e : PyError} (h : parts path = .error e) :
    Climbs path ∧ e.cls = .invalidPathError := by
  rw [parts] at h
  by_cases hclimb : ['.', '.'] ∈ splitSlash path.toList
  · rw [if_pos hclimb] at h
    rw [← Except.error.inj h]
    exact ⟨hclimb, rfl⟩
  · rw [if_neg hclimb] at h
    cases h

/-- A path that does not climb is parsed. -/
theorem raises_parts {path : String} {f : List String → TreeM β}
    (hinvalid : Climbs path → .invalidPathError ∈ row)
    (hf : ∀ ps, parts path = .ok ps → RaisesOnly row (f ps)) :
    RaisesOnly row (ofExcept (parts path) >>= f) := by
  refine raises_ofExcept (fun e he _ => ?_) hf
  obtain ⟨hclimbs, hcls⟩ := parts_eq_error he
  rw [hcls]
  exact hinvalid hclimbs

theorem not_climbs_of_parts {path : String} {ps : List String} (h : parts path = .ok ps) :
    ¬ Climbs path := (parts_ok_iff.mp h).1

/-- The canonical path does not climb. -/
theorem raises_canonicalPath {path : String} {f : String → TreeM β}
    (hinvalid : Climbs path → .invalidPathError ∈ row)
    (hf : ∀ key, ¬ Climbs key → RaisesOnly row (f key)) :
    RaisesOnly row (ofExcept (canonicalPath path) >>= f) := by
  refine raises_ofExcept (fun e he _ => ?_) fun key hkey => ?_
  · rw [canonicalPath] at he
    cases hps : parts path with
    | ok ps =>
        rw [hps] at he
        cases he
    | error e' =>
        rw [hps] at he
        obtain rfl : e' = e := Except.error.inj he
        obtain ⟨hclimbs, hcls⟩ := parts_eq_error hps
        rw [hcls]
        exact hinvalid hclimbs
  · obtain ⟨ps, _, _, hps⟩ := canonicalPath_ok hkey
    exact hf key (not_climbs_of_parts hps)

theorem raises_require (h : .accessDeniedError ∈ row) (node : NodeAttrs)
    (caller : Option Caller) (want : Nat) (path : String) :
    RaisesOnly row (require node caller want path) := raisesOnly_raiseIf h _

/-- A lookup raises what it raises for a node that is missing, a directory and
    a file. -/
theorem raises_lookup {path : String}
    {k : List String → Option (NamedTree.Entry NodeAttrs FileNode) → TreeM β}
    (hinvalid : Climbs path → .invalidPathError ∈ row) (hnone : ∀ ps, RaisesOnly row (k ps none))
    (hdir : ∀ ps attrs, RaisesOnly row (k ps (some (.dir attrs))))
    (hfile : ∀ ps node, RaisesOnly row (k ps (some (.file node)))) :
    RaisesOnly row (ofExcept (parts path) >>= fun ps => getNode ps >>= k ps) := by
  refine raises_parts hinvalid fun ps _ => (raises_gets _).bind fun found => ?_
  cases found with
  | none => exact hnone ps
  | some entry =>
      cases entry with
      | dir attrs => exact hdir ps attrs
      | file node => exact hfile ps node

section Lookups

variable {path : String} (hinvalid : Climbs path → .invalidPathError ∈ row)
  (hmissing : .pathNotFoundError ∈ row)

include hinvalid hmissing

theorem raises_getCommittedFile : RaisesOnly row (getCommittedFile path) :=
  raises_lookup hinvalid (fun _ => raisesOnly_raise hmissing _)
    (fun _ _ => raisesOnly_raise hmissing _)
    fun _ _ => (raisesOnly_raiseIf hmissing _).bind fun _ => raises_pure _

theorem raises_getPendingFile : RaisesOnly row (getPendingFile path) :=
  raises_lookup hinvalid (fun _ => raisesOnly_raise hmissing _)
    (fun _ _ => raisesOnly_raise hmissing _)
    fun _ _ => (raisesOnly_raiseIf hmissing _).bind fun _ => raises_pure _

theorem raises_getVisibleNode : RaisesOnly row (getVisibleNode path) :=
  raises_lookup hinvalid (fun _ => raisesOnly_raise hmissing _) (fun _ _ => raises_pure _)
    fun _ _ => (raisesOnly_raiseIf hmissing _).bind fun _ => raises_pure _

end Lookups

/-! ## The walk to the parent -/

theorem raises_requireAt (h : .accessDeniedError ∈ row) (ps : List String)
    (caller : Option Caller) (asked : Prop) [Decidable asked] :
    RaisesOnly row (requireAt ps caller asked) := by
  refine (raises_gets _).bind fun found => ?_
  cases found with
  | none => exact raises_pure _
  | some entry =>
      cases entry with
      | file node => exact raises_pure _
      | dir current =>
          show RaisesOnly row (if asked then require current caller W (pathKey ps) else pure ())
          by_cases hasked : asked
          · rw [if_pos hasked]
            exact raises_require h _ _ _ _
          · rw [if_neg hasked]
            exact raises_pure _

/-- A walk that creates what is missing does not miss anything. -/
theorem raises_walkLoop {create : Bool} {caller : Option Caller}
    (hmissing : create = false → .pathNotFoundError ∈ row)
    (hfile : .notADirectoryError ∈ row) (hdenied : .accessDeniedError ∈ row)
    (ps done rest : List String) (created : Bool) :
    RaisesOnly row (walkLoop ps create caller done rest created) := by
  induction rest generalizing done created with
  | nil => exact raises_pure _
  | cons part rest ih =>
      refine (raises_gets _).bind fun found => ?_
      cases found with
      | some entry =>
          cases entry with
          | file node => exact raisesOnly_raise hfile _
          | dir attrs => exact ih _ _
      | none =>
          refine Raises.bind ?_ fun _ => (raises_requireAt hdenied _ _ _).bind fun _ =>
            (raises_modify _).bind fun _ => ih _ _
          by_cases hcreate : create = false
          · exact raisesOnly_raiseIf (hmissing hcreate) _
          · unfold raiseIf
            rw [if_neg hcreate]
            exact raises_pure _

theorem raises_walkToParent {create : Bool} {caller : Option Caller}
    (hmissing : create = false → .pathNotFoundError ∈ row)
    (hfile : .notADirectoryError ∈ row) (hdenied : .accessDeniedError ∈ row)
    (ps : List String) : RaisesOnly row (walkToParent ps create caller) := by
  refine (raises_walkLoop hmissing hfile hdenied ps [] ps false).bind fun created =>
    (raises_gets _).bind fun found => ?_
  cases found with
  | none => exact raisesOnly_raise hfile _
  | some entry =>
      cases entry with
      | file node => exact raisesOnly_raise hfile _
      | dir current => exact (raises_requireAt hdenied _ _ _).bind fun _ => raises_pure _

/-! ## Directories and files -/

theorem raises_makeDir (path : String) (caller : Option Caller) :
    RaisesOnly [.pathExistsError, .pathNotFoundError, .notADirectoryError, .invalidPathError,
      .accessDeniedError] (makeDir path caller) := by
  refine raises_parts (fun _ => by decide) fun ps _ => ?_
  refine (raisesOnly_raiseIf (by decide) _).bind fun _ => ?_
  refine (raises_walkToParent (fun _ => by decide) (by decide) (by decide) _).bind fun parent => ?_
  refine (raises_require (by decide) _ _ _ _).bind fun _ => (raises_gets _).bind fun child => ?_
  exact (raisesOnly_raiseIf (by decide) _).bind fun _ => raises_modify _

theorem raises_removeDir (path : String) (caller : Option Caller) :
    RaisesOnly [.pathNotFoundError, .notADirectoryError, .notEmptyError, .invalidPathError,
      .accessDeniedError] (removeDir path caller) := by
  refine raises_parts (fun _ => by decide) fun ps _ => ?_
  refine (raisesOnly_raiseIf (by decide) _).bind fun _ => ?_
  refine (raises_walkToParent (fun _ => by decide) (by decide) (by decide) _).bind fun parent => ?_
  refine (raises_require (by decide) _ _ _ _).bind fun _ => (raises_gets _).bind fun child => ?_
  cases child with
  | none => exact raisesOnly_raise (by decide) _
  | some entry =>
      cases entry with
      | file node => exact raisesOnly_raise (by decide) _
      | dir attrs =>
          refine (raises_gets _).bind fun s => ?_
          exact (raisesOnly_raiseIf (by decide) _).bind fun _ => raises_modify _

theorem raises_removeFile (path : String) (now : Option Time) (caller : Option Caller) :
    RaisesOnly [.pathNotFoundError, .notAFileError, .notADirectoryError, .invalidPathError,
      .conflictError, .accessDeniedError] (removeFile path now caller) := by
  refine raises_parts (fun _ => by decide) fun ps _ => ?_
  refine (raisesOnly_raiseIf (by decide) _).bind fun _ => ?_
  refine (raises_walkToParent (fun _ => by decide) (by decide) (by decide) _).bind fun parent => ?_
  refine (raises_require (by decide) _ _ _ _).bind fun _ => (raises_gets _).bind fun child => ?_
  cases child with
  | none => exact raisesOnly_raise (by decide) _
  | some entry =>
      cases entry with
      | dir attrs => exact raisesOnly_raise (by decide) _
      | file node =>
          refine (raisesOnly_raiseIf (by decide) _).bind fun _ => ?_
          refine (raises_modify _).bind fun _ => (raises_gets _).bind fun state => ?_
          refine (raisesOnly_raiseIf (by decide) _).bind fun _ => ?_
          exact (raises_modify _).bind fun _ => raises_pure _

theorem raises_listDir (path : String) (caller : Option Caller) :
    RaisesOnly [.pathNotFoundError, .notADirectoryError, .invalidPathError, .accessDeniedError]
      (listDir path caller) := by
  refine raises_parts (fun _ => by decide) fun ps _ => (raises_gets _).bind fun found => ?_
  cases found with
  | none => exact raisesOnly_raise (by decide) _
  | some entry =>
      cases entry with
      | file node => exact raisesOnly_raise (by decide) _
      | dir attrs =>
          refine (raises_require (by decide) _ _ _ _).bind fun _ => ?_
          exact (raises_gets _).bind fun s => raises_pure _

theorem raises_listBlocks (path : String) (caller : Option Caller) :
    RaisesOnly [.pathNotFoundError, .invalidPathError, .accessDeniedError]
      (listBlocks path caller) := by
  refine (raises_getCommittedFile (fun _ => by decide) (by decide)).bind fun found => ?_
  exact (raises_require (by decide) _ _ _ _).bind fun _ => raises_pure _

/-! ## Uploads -/

theorem raises_replaceable (h : .pathExistsError ∈ row) (path : String) (now : Option Time)
    (existing : Option (NamedTree.Entry NodeAttrs FileNode)) :
    RaisesOnly row (replaceable path now existing) := by
  cases existing with
  | none => exact raises_pure _
  | some entry =>
      cases entry with
      | dir attrs => exact raisesOnly_raise h _
      | file node =>
          rw [replaceable]
          by_cases hexpired : node.state = .pending ∧ leaseExpired node now = true
          · rw [if_pos hexpired]
            exact raises_pure _
          · rw [if_neg hexpired]
            exact raisesOnly_raise h _

theorem raises_beginUpload (path : String) (placements : List (String × List String))
    (now leaseS : Option Time) (blockSize : Option Int) (caller : Option Caller) :
    RaisesOnly [.pathExistsError, .notADirectoryError, .invalidPathError, .accessDeniedError]
      (beginUpload path placements now leaseS blockSize caller) := by
  refine raises_parts (fun _ => by decide) fun ps _ => ?_
  refine (raisesOnly_raiseIf (by decide) _).bind fun _ => ?_
  -- the walk creates the directories, so it does not miss any
  refine (raises_walkToParent Bool.noConfusion (by decide) (by decide) _).bind fun parent => ?_
  refine (raises_gets _).bind fun existing => ?_
  refine (raises_replaceable (by decide) _ _ _).bind fun stale => ?_
  exact (raises_modify _).bind fun _ => raises_pure _

theorem raises_requireUploadOwner (hinvalid : .invalidPathError ∈ row)
    (hdenied : .accessDeniedError ∈ row) (node : FileNode) (caller : Option Caller)
    (path : String) : RaisesOnly row (requireUploadOwner node caller path) :=
  raises_canonicalPath (fun _ => hinvalid) fun _ _ => raisesOnly_raiseIf hdenied _

theorem raises_confirmBlock (path blockId checksum : String) (sizeBytes : Int)
    (now leaseS : Option Time) (caller : Option Caller) :
    RaisesOnly [.pathNotFoundError, .invalidPathError, .accessDeniedError]
      (confirmBlock path blockId checksum sizeBytes now leaseS caller) := by
  refine (raises_getPendingFile (fun _ => by decide) (by decide)).bind fun found => ?_
  refine (raises_requireUploadOwner (by decide) (by decide) _ _ _).bind fun _ => ?_
  split
  · exact raisesOnly_raise (by decide) _
  · exact raises_modify _

theorem raises_completeUpload (path : String) (caller : Option Caller) :
    RaisesOnly [.pathNotFoundError, .invalidPathError, .accessDeniedError]
      (completeUpload path caller) := by
  refine (raises_getPendingFile (fun _ => by decide) (by decide)).bind fun found => ?_
  refine (raises_requireUploadOwner (by decide) (by decide) _ _ _).bind fun _ => ?_
  exact (raisesOnly_raiseIf (by decide) _).bind fun _ => raises_modify _

theorem raises_abortUpload (path : String) (caller : Option Caller) :
    RaisesOnly [.pathNotFoundError, .notADirectoryError, .invalidPathError, .accessDeniedError]
      (abortUpload path caller) := by
  refine raises_parts (fun _ => by decide) fun ps _ => ?_
  refine (raisesOnly_raiseIf (by decide) _).bind fun _ => ?_
  refine (raises_walkToParent (fun _ => by decide) (by decide) (by decide) _).bind fun parent => ?_
  refine (raises_gets _).bind fun found => ?_
  cases found with
  | none => exact raisesOnly_raise (by decide) _
  | some entry =>
      cases entry with
      | dir attrs => exact raisesOnly_raise (by decide) _
      | file node =>
          refine (raisesOnly_raiseIf (by decide) _).bind fun _ => ?_
          refine (raises_requireUploadOwner (by decide) (by decide) _ _ _).bind fun _ => ?_
          exact raises_modify _

/-! ## Locks -/

theorem raises_acquireLock (path lockId owner mode : String) (now leaseS : Time)
    (caller : Option Caller) :
    RaisesOnly [.pathNotFoundError, .invalidPathError, .conflictError, .accessDeniedError]
      (acquireLock path lockId owner mode now leaseS caller) := by
  refine raises_canonicalPath (fun _ => by decide) fun key _ => ?_
  cases parseLockMode mode with
  | none => exact raisesOnly_raise (by decide) _
  | some mode =>
      refine (raisesOnly_raiseIf (by decide) _).bind fun _ => ?_
      refine (raises_getCommittedFile (fun _ => by decide) (by decide)).bind fun found => ?_
      refine (raises_require (by decide) _ _ _ _).bind fun _ => ?_
      refine (raises_modify _).bind fun _ => (raises_gets _).bind fun held => ?_
      cases held with
      | none => exact (raises_modify _).bind fun _ => raises_pure _
      | some state =>
          refine (raisesOnly_raiseIf (by decide) _).bind fun _ => ?_
          refine (raisesOnly_raiseIf (by decide) _).bind fun _ => ?_
          exact (raises_modify _).bind fun _ => raises_pure _

theorem raises_renewLock (path lockId : String) (now leaseS : Time) :
    RaisesOnly [.pathNotFoundError, .invalidPathError, .conflictError]
      (renewLock path lockId now leaseS) := by
  refine raises_canonicalPath (fun _ => by decide) fun key _ => ?_
  refine (raisesOnly_raiseIf (by decide) _).bind fun _ => ?_
  refine (raises_getCommittedFile (fun _ => by decide) (by decide)).bind fun found => ?_
  refine (raises_modify _).bind fun _ => (raises_gets _).bind fun held => ?_
  cases held with
  | none => exact raisesOnly_raise (by decide) _
  | some state =>
      dsimp only
      split
      · exact raisesOnly_raise (by decide) _
      · exact raises_modify _

/-- The lookup of the file comes before the lock, so a path that climbs is
    refused as such. -/
theorem raises_releaseLock {path : String} (hinvalid : Climbs path → .invalidPathError ∈ row)
    (hmissing : .pathNotFoundError ∈ row) (hconflict : .conflictError ∈ row) (lockId : String)
    (now : Option Time) : RaisesOnly row (releaseLock path lockId now) := by
  refine raises_canonicalPath hinvalid fun key hkey => ?_
  refine (raises_getCommittedFile (fun h => absurd h hkey) hmissing).bind fun found => ?_
  refine (raises_modify _).bind fun _ => (raises_gets _).bind fun held => ?_
  cases held with
  | none => exact raisesOnly_raiseIf hconflict _
  | some state =>
      refine (raisesOnly_raiseIf hconflict _).bind fun _ => ?_
      dsimp only
      split
      · exact raises_modify _
      · exact raises_modify _

/-! ## Copy-on-write -/

theorem planWriteSlots_within {sizes : List Int} {blockSize offset length : Int} {e : PyError}
    (hinvalid : .invalidPathError ∈ row)
    (h : planWriteSlots sizes blockSize offset length = .error e) : Within row e := by
  rw [planWriteSlots] at h
  dsimp only at h
  by_cases hlength : length ≤ 0
  · rw [if_pos hlength] at h
    obtain rfl := Except.error.inj h
    exact within_of_mem hinvalid _
  rw [if_neg hlength] at h
  by_cases hoffset : offset < 0 ∨ offset > sizes.sum
  · rw [if_pos hoffset] at h
    obtain rfl := Except.error.inj h
    exact within_of_mem hinvalid _
  rw [if_neg hoffset] at h
  by_cases hzero : blockSize = 0
  · rw [if_pos hzero] at h
    obtain rfl := Except.error.inj h
    intro hdomain
    cases hdomain
  · rw [if_neg hzero] at h
    cases h

theorem pyIndex_error {l : List α} {index : Int} {e : PyError}
    (h : pyIndex l index = .error e) : e.cls = .indexError := by
  unfold pyIndex at h
  dsimp only at h
  split at h
  · cases h
  · rw [← Except.error.inj h]

theorem within_of_indexError {e : PyError} (h : e.cls = .indexError) : Within row e := by
  intro hdomain
  rw [h] at hdomain
  cases hdomain

theorem describeSlots_indexError {blocks : List BlockRecord} {slots : List WriteSlotRecord}
    {e : PyError} (h : describeSlots blocks slots = .error e) : e.cls = .indexError := by
  induction slots with
  | nil => cases h
  | cons slot slots ih =>
      rw [describeSlots] at h
      cases hd : describeSlot blocks slot with
      | error e' =>
          rw [hd] at h
          obtain rfl : e' = e := Except.error.inj h
          rw [describeSlot] at hd
          by_cases hlt : slot.index < blocks.length
          · rw [if_pos hlt] at hd
            cases hi : pyIndex blocks slot.index with
            | ok old =>
                rw [hi] at hd
                cases hd
            | error e'' =>
                rw [hi] at hd
                obtain rfl : e'' = e' := Except.error.inj hd
                exact pyIndex_error hi
          · rw [if_neg hlt] at hd
            cases hd
      | ok d =>
          rw [hd] at h
          cases hds : describeSlots blocks slots with
          | error e' =>
              rw [hds] at h
              obtain rfl : e' = e := Except.error.inj h
              exact ih hds
          | ok ds =>
              rw [hds] at h
              cases h

theorem publishSlots_indexError {blocks : List BlockRecord}
    {slots : List (WriteSlotRecord × String × Int)} {e : PyError}
    (h : (publishSlots blocks slots).2 = .error e) : e.cls = .indexError := by
  induction slots generalizing blocks e with
  | nil => cases h
  | cons hd slots ih =>
      obtain ⟨slot, checksum, size⟩ := hd
      rw [publishSlots] at h
      dsimp only at h
      by_cases hlt : slot.index < blocks.length
      · rw [if_pos hlt] at h
        cases hi : pyIndex blocks slot.index with
        | error e' =>
            rw [hi] at h
            obtain rfl : e' = e := Except.error.inj h
            exact pyIndex_error hi
        | ok old =>
            rw [hi] at h
            dsimp only at h
            cases hrest : (publishSlots (pySet blocks slot.index
              ⟨slot.newBlockId, slot.newAddresses, checksum, size, true⟩) slots).2 with
            | ok replaced =>
                rw [hrest] at h
                cases h
            | error e' =>
                rw [hrest] at h
                obtain rfl : e' = e := Except.error.inj h
                exact ih hrest
      · rw [if_neg hlt] at h
        exact ih h

theorem raises_writeLayout (path : String) (default : Int) (caller : Option Caller) :
    RaisesOnly [.pathNotFoundError, .invalidPathError, .accessDeniedError]
      (writeLayout path default caller) := by
  refine (raises_getCommittedFile (fun _ => by decide) (by decide)).bind fun found => ?_
  refine raises_canonicalPath (fun _ => by decide) fun key _ => ?_
  exact (raises_require (by decide) _ _ _ _).bind fun _ => raises_pure _

theorem raises_requireWriteLock (h : .conflictError ∈ row) (key lockId : String) (now : Time) :
    RaisesOnly row (requireWriteLock key lockId now) :=
  (raises_modify _).bind fun _ => (raises_gets _).bind fun _ => raisesOnly_raiseIf h _

theorem raises_beginWrite (path writeId lockId : String) (baseVersion offset length : Int)
    (proposals : List (Int × String × List String)) (now leaseS : Time) (default : Int)
    (caller : Option Caller) :
    RaisesOnly [.pathNotFoundError, .invalidPathError, .conflictError, .accessDeniedError]
      (beginWrite path writeId lockId baseVersion offset length proposals now leaseS default
        caller) := by
  refine raises_canonicalPath (fun _ => by decide) fun key _ => ?_
  refine (raises_getCommittedFile (fun _ => by decide) (by decide)).bind fun found => ?_
  refine (raises_require (by decide) _ _ _ _).bind fun _ => ?_
  refine (raises_requireWriteLock (by decide) _ _ _).bind fun _ => ?_
  refine (raises_modify _).bind fun _ => (raises_gets _).bind fun reserved => ?_
  refine (raisesOnly_raiseIf (by decide) _).bind fun _ => ?_
  refine (raisesOnly_raiseIf (by decide) _).bind fun _ => ?_
  dsimp only
  split
  · next e hplan => exact raises_raise (planWriteSlots_within (by decide) hplan)
  · next plan hplan =>
      refine (raisesOnly_raiseIf (by decide) _).bind fun _ => (raises_modify _).bind fun _ => ?_
      refine raises_ofExcept (fun e he => ?_) fun described _ => raises_pure _
      exact within_of_indexError (describeSlots_indexError he)

theorem raises_commitWrite (path writeId lockId : String) (baseVersion : Int)
    (confirmed : List (Int × String × String × Int)) (now : Time) (caller : Option Caller) :
    RaisesOnly [.pathNotFoundError, .invalidPathError, .conflictError, .accessDeniedError]
      (commitWrite path writeId lockId baseVersion confirmed now caller) := by
  refine raises_canonicalPath (fun _ => by decide) fun key _ => ?_
  refine (raises_getCommittedFile (fun _ => by decide) (by decide)).bind fun found => ?_
  refine (raises_require (by decide) _ _ _ _).bind fun _ => ?_
  refine (raises_modify _).bind fun _ => (raises_gets _).bind fun reserved => ?_
  cases reserved with
  | none => exact raisesOnly_raise (by decide) _
  | some reservation =>
      refine (raisesOnly_raiseIf (by decide) _).bind fun _ => ?_
      refine (raisesOnly_raiseIf (by decide) _).bind fun _ => ?_
      refine (raises_requireWriteLock (by decide) _ _ _).bind fun _ => ?_
      refine (raisesOnly_raiseIf (by decide) _).bind fun _ => ?_
      refine (raisesOnly_raiseIf (by decide) _).bind fun _ => (raises_modify _).bind fun _ => ?_
      refine raises_ofExcept (fun e he => ?_) fun replaced _ => ?_
      · exact within_of_indexError (publishSlots_indexError he)
      · exact (raises_modify _).bind fun _ => (raises_modify _).bind fun _ => raises_pure _

theorem raises_abortWrite (path writeId lockId : String) (now : Option Time) :
    RaisesOnly [.invalidPathError, .conflictError] (abortWrite path writeId lockId now) := by
  refine raises_canonicalPath (fun _ => by decide) fun key _ => ?_
  refine (raises_modify _).bind fun _ => (raises_gets _).bind fun reserved => ?_
  cases reserved with
  | none => exact raises_pure _
  | some reservation =>
      show RaisesOnly _ (if reservation.path ≠ key then pure [] else _)
      by_cases hpath : reservation.path ≠ key
      · rw [if_pos hpath]
        exact raises_pure _
      · rw [if_neg hpath]
        refine (raisesOnly_raiseIf (by decide) _).bind fun _ => ?_
        exact (raises_modify _).bind fun _ => raises_pure _

/-! ## Permissions and users -/

theorem raises_storeAttrs (ps : List String) (node : NamedTree.Entry NodeAttrs FileNode)
    (attrs : NodeAttrs) : RaisesOnly row (storeAttrs ps node attrs) := by
  cases node with
  | dir attrs => exact raises_modify _
  | file f => exact raises_modify _

theorem raises_chmod (path : String) (mode : Int) (caller : Option Caller) :
    RaisesOnly [.pathNotFoundError, .invalidPathError, .accessDeniedError]
      (chmod path mode caller) := by
  refine raises_canonicalPath (fun _ => by decide) fun key _ => ?_
  refine (raises_getVisibleNode (fun _ => by decide) (by decide)).bind fun found => ?_
  refine (raisesOnly_raiseIf (by decide) _).bind fun _ => ?_
  exact (raisesOnly_raiseIf (by decide) _).bind fun _ => raises_storeAttrs _ _ _

theorem raises_chownDenied (h : .accessDeniedError ∈ row) (attrs : NodeAttrs)
    (owner group key : String) (caller : Option Caller) :
    RaisesOnly row (chownDenied attrs owner group key caller) := by
  cases caller with
  | none => exact raises_pure _
  | some caller => exact (raisesOnly_raiseIf h _).bind fun _ => raisesOnly_raiseIf h _

theorem raises_chown (path owner group : String) (caller : Option Caller) :
    RaisesOnly [.pathNotFoundError, .invalidPathError, .accessDeniedError]
      (chown path owner group caller) := by
  refine raises_canonicalPath (fun _ => by decide) fun key _ => ?_
  refine (raises_getVisibleNode (fun _ => by decide) (by decide)).bind fun found => ?_
  refine (raisesOnly_raiseIf (by decide) _).bind fun _ => ?_
  refine (raises_chownDenied (by decide) _ _ _ _ _).bind fun _ => (raises_gets _).bind fun s => ?_
  refine (raisesOnly_raiseIf (by decide) _).bind fun _ => ?_
  exact (raisesOnly_raiseIf (by decide) _).bind fun _ => raises_storeAttrs _ _ _

theorem raises_createUser (username : String) (passwordHash salt : List UInt8)
    (groups : List String) (isAdmin : Bool) :
    RaisesOnly [.invalidPathError, .pathExistsError]
      (createUser username passwordHash salt groups isAdmin) := by
  refine (raisesOnly_raiseIf (by decide) _).bind fun _ => ?_
  split
  · exact raisesOnly_raise (by decide) _
  · refine (raises_gets _).bind fun s => ?_
    exact (raisesOnly_raiseIf (by decide) _).bind fun _ => raises_modify _

theorem raises_changePassword (username : String) (passwordHash salt : List UInt8) :
    RaisesOnly [.pathNotFoundError] (changePassword username passwordHash salt) := by
  refine (raises_gets _).bind fun s => ?_
  split
  · exact raisesOnly_raise (by decide) _
  · exact raises_modify _

end DfshaTreeErrors
