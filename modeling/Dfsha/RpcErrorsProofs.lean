import Dfsha.ControlServicerProofs
import Dfsha.TreeErrorsProofs

/-! # The domain exceptions of an RPC reach the client

    A handler names by hand the classes that it turns into an abort.  It names
    enough of them if the row of the operation, the set of classes that the
    operation can raise, is contained in what it names: then every domain
    exception ends the RPC with its own status and its own name, and the client
    raises the same class.

    For every RPC but one the row is contained.  `Unlock` does not name
    `InvalidPathError`, and `release_lock` parses its path first: a path with
    `..` leaves the handler and ends the RPC with `UNKNOWN`. -/

namespace DfshaRpcErrors

open InsertionDict RaisingAction TransitionSystem TransitionSystem.System
open DfshaPath DfshaControlTree DfshaReplicatedTree DfshaOperationKey DfshaTreeErrors
open DfshaControlServicer
open DfshaBlockLayout (numBlocks)
open DfshaBlockFailover (StatusCode RpcError DomainError)
open DfshaPathNames (Climbs)

/-! ## The statement -/

/-- The RPC ends with the status of the class and one `dfsha-error` entry that
    names it, and the client raises the class. -/
def ReportedAs (cls : DomainError) (message : String) (r : Except RpcError Response) : Prop :=
  ∃ status, errorStatus cls = some status ∧ r = .error ⟨status, message, [className cls]⟩ ∧
    DfshaBlockFailover.translate ⟨status, message, [className cls]⟩ = .domain cls message

/-- Every domain exception that is raised in the RPC is reported as what it is. -/
def ErrorsReachTheClient (c : Context) (request : Request) (s : ReplicatedTree) : Prop :=
  ∀ e ∈ (serve c request s).2.raised, ∀ cls, domainError e.cls = some cls →
    ReportedAs cls e.message (serve c request s).1

/-- Whose the call is: nobody's without authentication, and none if the token
    is refused. -/
def sessionOf (c : Context) (token : Except String Principal) : Option (Option Principal) :=
  if c.authentication then token.toOption.map some else some none

/-- The call gets to its commit, and the command is executed there for the first
    time. -/
structure Executes (c : Context) (opId : String) (s : ReplicatedTree) : Prop where
  named : opId ≠ ""
  leader : c.leaderAtCommit = true
  confirmed : c.fate = .confirmed
  accepted : sessionOf c c.token ≠ none
  fresh : ∃ session, sessionOf c c.tokenAtCommit = some session ∧
    (applyOthers c ⟨s, [], []⟩).replicated.appliedOps.get? (commitKey session opId) = none

/-- The call is an `Unlock` of a path with `..` that is executed. -/
def UnlocksClimbing (c : Context) (request : Request) (s : ReplicatedTree) : Prop :=
  ∃ path lockId opId, request = .unlock path lockId opId ∧ Climbs path ∧ Executes c opId s

/-! ## How a handler is left -/

/-- No domain exception has been raised. -/
def Quiet (s : Serving) : Prop := ∀ e ∈ s.raised, domainError e.cls = none

/-- If a domain exception is raised, it is the only one, and the handler is left
    as `Good` says. -/
def Leaves {α : Type} (Good : PyError → Exit → Prop) (x : Handler α) : Prop :=
  ∀ s, Quiet s → wp x s fun r s' => Quiet s' ∨ ∃ e exit, r = .error exit ∧ Good e exit ∧
    ∀ e' ∈ s'.raised, domainError e'.cls ≠ none → e' = e

/-- The exception itself leaves, and it is of one of the classes. -/
def Thrown (row : List ErrorClass) (e : PyError) (exit : Exit) : Prop :=
  exit = .raised e ∧ e.cls ∈ row

/-- The exception has become an abort with its status and its name. -/
def Aborted (e : PyError) (exit : Exit) : Prop :=
  ∃ cls status, domainError e.cls = some cls ∧ errorStatus cls = some status ∧
    exit = .aborted ⟨status, e.message, [className cls]⟩

section Rules

variable {α β : Type} {Good : PyError → Exit → Prop} {x : Handler α} {f : α → Handler β}
  {row caught : List ErrorClass}

theorem Leaves.bind (hx : Leaves Good x) (hf : ∀ a, Leaves Good (f a)) :
    Leaves Good (x >>= f) := by
  intro s hs
  refine wp_call (hx s hs) ?_ ?_
  · intro a s' h
    rcases h with hquiet | ⟨e, exit, herror, _⟩
    · exact hf a s' hquiet
    · cases herror
  · intro exit s' h
    rcases h with hquiet | ⟨e, exit', herror, hgood, honly⟩
    · exact .inl hquiet
    · obtain rfl := Except.error.inj herror
      exact .inr ⟨e, exit, rfl, hgood, honly⟩

theorem Leaves.mono {Good' : PyError → Exit → Prop} (hx : Leaves Good x)
    (hgood : ∀ e exit, Good e exit → Good' e exit) : Leaves Good' x := by
  intro s hs
  refine wp_mono (hx s hs) ?_
  rintro r s' (hquiet | ⟨e, exit, herror, h, honly⟩)
  · exact .inl hquiet
  · exact .inr ⟨e, exit, herror, hgood e exit h, honly⟩

/-- An action that raises nothing. -/
theorem leaves_of_quiet (h : ∀ s, (x s).2.raised = s.raised) : Leaves Good x := by
  intro s hs
  refine .inl ?_
  rw [Quiet, h s]
  exact hs

theorem leaves_pure (a : α) : Leaves Good (pure a : Handler α) := leaves_of_quiet fun _ => rfl

theorem leaves_raise (exit : Exit) : Leaves Good (raise exit : Handler α) :=
  leaves_of_quiet fun _ => rfl

theorem leaves_gets (g : Serving → α) : Leaves Good (gets g : Handler α) :=
  leaves_of_quiet fun _ => rfl

theorem leaves_abortIf (cond : Prop) [Decidable cond] (e : RpcError) :
    Leaves Good (abortIf cond e) := by
  unfold abortIf raiseIf
  by_cases hcond : cond
  · rw [if_pos hcond]
    exact leaves_raise _
  · rw [if_neg hcond]
    exact leaves_pure ()

theorem domainError_eq_none {cls : ErrorClass} : domainError cls = none ↔ cls.isDomain = false := by
  cases cls <;> decide

/-- One more exception. -/
theorem quiet_or_only {e : PyError} {s s' : Serving} (hs : Quiet s)
    (hraised : s'.raised = s.raised ++ [e]) (he : Within row e) :
    Quiet s' ∨ (e.cls.isDomain = true ∧ e.cls ∈ row ∧
      ∀ e' ∈ s'.raised, domainError e'.cls ≠ none → e' = e) := by
  by_cases hcls : domainError e.cls = none
  · refine .inl fun e' he' => ?_
    rw [hraised] at he'
    rcases List.mem_append.mp he' with hold | hnew
    · exact hs e' hold
    · rw [List.mem_singleton.mp hnew]
      exact hcls
  · rw [domainError_eq_none, Bool.not_eq_false] at hcls
    refine .inr ⟨hcls, he hcls, fun e' he' hdomain => ?_⟩
    rw [hraised] at he'
    rcases List.mem_append.mp he' with hold | hnew
    · exact absurd (hs e' hold) hdomain
    · exact List.mem_singleton.mp hnew

theorem leaves_raiseError {e : PyError} (he : Within row e) :
    Leaves (Thrown row) (raiseError e : Handler α) := by
  intro s hs
  rcases @quiet_or_only _ _ _ { s with raised := s.raised ++ [e] } hs rfl he with
    hquiet | ⟨_, hrow, honly⟩
  · exact .inl hquiet
  · exact .inr ⟨e, .raised e, rfl, ⟨rfl, hrow⟩, honly⟩

theorem leaves_raiseErrorIf {cond : Prop} [Decidable cond] {e : PyError} (he : Within row e) :
    Leaves (Thrown row) (raiseErrorIf cond e) := by
  rw [raiseErrorIf]
  by_cases hcond : cond
  · rw [if_pos hcond]
    exact leaves_raiseError he
  · rw [if_neg hcond]
    exact leaves_pure ()

theorem leaves_ofPure {y : Except PyError α} (hy : ∀ e, y = .error e → Within row e) :
    Leaves (Thrown row) (ofPure y) := by
  cases y with
  | ok a => exact leaves_pure a
  | error e => exact leaves_raiseError (hy e rfl)

/-- What a read raises, the handler is left with. -/
theorem leaves_readTree {x : TreeM α} (hx : RaisesOnly row x) :
    Leaves (Thrown row) (readTree x) :=
  (leaves_gets _).bind fun s => leaves_ofPure fun e he => hx s e he

/-- What an `except` clause makes of a class that has a status. -/
theorem exitOf_aborted {e : PyError} (h : (domainError e.cls).bind errorStatus ≠ none) :
    Aborted e (exitOf e) := by
  rw [exitOf]
  cases hcls : domainError e.cls with
  | none =>
      rw [hcls] at h
      exact absurd rfl h
  | some cls =>
      rw [hcls, Option.bind_some] at h
      obtain ⟨status, hstatus⟩ := Option.ne_none_iff_exists'.mp h
      refine ⟨cls, status, hcls, hstatus, ?_⟩
      dsimp only
      rw [abortOnDomainError, hstatus, Option.getD_some]

theorem wp_tryExcept {s : Serving} {Q : Except Exit α → Serving → Prop}
    (h : wp x s fun r s' => Q (handled caught r) s') : wp (tryExcept caught x) s Q := h

/-- **WHAT THE HANDLER NAMES BECOMES AN ABORT**, so it is enough that it names
    the row. -/
theorem leaves_tryExcept (hx : Leaves (Thrown row) x) (hrow : ∀ cls ∈ row, cls ∈ caught)
    (hmapped : ∀ cls ∈ caught, (domainError cls).bind errorStatus ≠ none) :
    Leaves Aborted (tryExcept caught x) := by
  intro s hs
  refine wp_tryExcept (wp_mono (hx s hs) ?_)
  intro r s' h
  rcases h with hquiet | ⟨e, exit, rfl, ⟨rfl, he⟩, honly⟩
  · exact .inl hquiet
  · have hcaught := hrow _ he
    refine .inr ⟨e, exitOf e, ?_, exitOf_aborted (hmapped _ hcaught), honly⟩
    rw [handled, if_pos hcaught]

end Rules

/-! ## The steps of a handler -/

section Steps

variable {α : Type} {Good : PyError → Exit → Prop} {row : List ErrorClass}

theorem leaves_authenticate (c : Context) (token : Except String Principal) :
    Leaves Good (authenticate c token) := by
  unfold authenticate
  by_cases hauth : c.authentication = true
  · rw [if_pos hauth]
    cases token with
    | ok principal => exact leaves_pure _
    | error message => exact leaves_raise _
  · rw [if_neg hauth]
    exact leaves_pure _

theorem leaves_readBarrier (c : Context) : Leaves Good (readBarrier c) :=
  (leaves_abortIf _ _).bind fun _ => leaves_abortIf _ _

/-- What the interpreter raises is no domain exception. -/
theorem within_toPyError (e : ShapeError) : Within [] e.toPyError := by
  intro hdomain
  cases e <;> cases hdomain

theorem leaves_unpack (view : Ret → Except ShapeError α) (result : Ret) :
    Leaves Good (unpack view result) := by
  have hraises : Leaves (Thrown []) (unpack view result) := leaves_ofPure fun e he => by
    cases hview : view result with
    | ok a =>
        rw [hview] at he
        cases he
    | error shape =>
        rw [hview] at he
        rw [← Except.error.inj he]
        exact within_toPyError shape
  exact hraises.mono fun e exit h => absurd h.2 List.not_mem_nil

theorem leaves_deleteBlocks (blocks : List BlockRecord) : Leaves Good (deleteBlocks blocks) :=
  leaves_of_quiet fun _ => rfl

theorem leaves_proposeBlocks (c : Context) (n : Nat) : Leaves Good (proposeBlocks c n) := by
  rw [proposeBlocks]
  cases c.blocks n with
  | ok proposed => exact leaves_pure _
  | error message => exact leaves_raise _

theorem leaves_requireSession (session : Option Principal) :
    Leaves Good (requireSession session) := by
  cases session with
  | some principal => exact leaves_pure _
  | none => exact leaves_raise _

/-- The outcome of a command that is executed says what the tree raised. -/
theorem raisedBy_eq {s : ReplicatedTree} {key : String} {μ : Mutation} :
    raisedBy ⟨key, .mutation μ⟩ s = [] ∨ ∃ e, (exec μ s.tree).1 = .error e ∧
      raisedBy ⟨key, .mutation μ⟩ s = [e] ∧
      (apply ⟨key, .mutation μ⟩ s).1 = outcomeOf μ (.error e) := by
  unfold raisedBy
  cases hop : s.appliedOps.get? key with
  | some outcome => exact .inl rfl
  | none =>
      dsimp only
      cases hexec : (exec μ s.tree).1 with
      | ok result => exact .inl rfl
      | error e =>
          refine .inr ⟨e, rfl, rfl, ?_⟩
          rw [apply_executed (c := ⟨key, .mutation μ⟩) hop]
          show outcomeOf μ (exec μ s.tree).1 = _
          rw [hexec]

theorem resultOf_domain {μ : Mutation} {e : PyError} (h : e.cls.isDomain = true) :
    resultOf (.ok (outcomeOf μ (.error e))) = raise (.raised e) := by
  rw [outcomeOf, if_pos h]
  rfl

theorem leaves_resultOf (outcome : Except String Outcome) : Leaves Good (resultOf outcome) := by
  cases outcome with
  | error reason => exact leaves_raise _
  | ok outcome =>
      cases outcome with
      | ok result => exact leaves_pure _
      | error cls message => exact leaves_raise _

/-- Once the outcome has arrived: what the tree raised, leaves. -/
theorem leaves_outcome {key : String} {μ : Mutation} (hμ : RaisesOnly row (exec μ))
    {s : ReplicatedTree} {before after : Serving} (hs : Quiet before)
    (hraised : after.raised = before.raised ++ raisedBy ⟨key, .mutation μ⟩ s) :
    wp (resultOf (.ok (apply ⟨key, .mutation μ⟩ s).1)) after fun r s' =>
      Quiet s' ∨ ∃ e exit, r = .error exit ∧ Thrown row e exit ∧
        ∀ e' ∈ s'.raised, domainError e'.cls ≠ none → e' = e := by
  rcases raisedBy_eq with hnil | ⟨e, herror, hone, hout⟩
  · rw [hnil, List.append_nil] at hraised
    refine leaves_resultOf _ after ?_
    rw [Quiet, hraised]
    exact hs
  · rw [hone] at hraised
    rcases quiet_or_only hs hraised (hμ _ e herror) with hquiet | ⟨hdomain, hrow, honly⟩
    · exact leaves_resultOf _ after hquiet
    · rw [hout, resultOf_domain hdomain]
      exact .inr ⟨e, .raised e, rfl, ⟨rfl, hrow⟩, honly⟩

/-- What a command raises is not seen if its outcome does not arrive. -/
theorem raised_applyUnseen (command : Command) (applied : Bool) (s : Serving) :
    (applyUnseen command applied s).raised = s.raised := by
  cases applied <;> rfl

/-- **A COMMIT LEAVES WITH WHAT THE TREE RAISED.** -/
theorem leaves_commit {c : Context} {opId : String} {μ : Mutation}
    (hμ : RaisesOnly row (exec μ)) : Leaves (Thrown row) (commit c opId μ) := by
  refine (leaves_abortIf _ _).bind fun _ => (leaves_abortIf _ _).bind fun _ => ?_
  refine (leaves_authenticate c _).bind fun principal => ?_
  intro s hs
  have hothers : Quiet (applyOthers c s) := hs
  refine wp_bind (wp_modify ?_)
  cases c.fate with
  | unavailable => exact leaves_resultOf _ _ hothers
  | unknown reason applied =>
      have hunseen : Quiet (applyUnseen ⟨commitKey principal opId, .mutation μ⟩ applied
          (applyOthers c s)) := by
        rw [Quiet, raised_applyUnseen]
        exact hothers
      exact leaves_resultOf _ _ hunseen
  | confirmed => exact leaves_outcome hμ hothers rfl

/-- A commit whose row is what the handler names. -/
theorem leaves_guarded {c : Context} {opId : String} {μ : Mutation} {caught : List ErrorClass}
    (hμ : RaisesOnly caught (exec μ))
    (hmapped : ∀ cls ∈ caught, (domainError cls).bind errorStatus ≠ none) :
    Leaves Aborted (tryExcept caught (commit c opId μ)) :=
  leaves_tryExcept (leaves_commit hμ) (fun _ h => h) hmapped

theorem leaves_checkPassword (h : .invalidPathError ∈ row) (password : String) :
    Leaves (Thrown row) (checkPassword password) := by
  unfold checkPassword DfshaPasswordChange.checkNewPassword
  by_cases hempty : password = ""
  · rw [if_pos hempty]
    exact leaves_raiseError (within_of_mem h _)
  rw [if_neg hempty]
  by_cases hlong : password.length > DfshaPasswordChange.maxPasswordChars
  · rw [if_pos hlong]
    exact leaves_raiseError (within_of_mem h _)
  · rw [if_neg hlong]
    exact leaves_pure _

end Steps

/-! ## One RPC after the other -/

section Handlers

variable {row : List ErrorClass} (c : Context)

theorem leaves_serveListDir (path : String) : Leaves Aborted (serveListDir c path) := by
  refine (leaves_authenticate c _).bind fun principal => (leaves_readBarrier c).bind fun _ => ?_
  refine (leaves_tryExcept (leaves_readTree (raises_listDir _ _)) (fun _ h => h)
    (by decide)).bind fun entries => ?_
  exact leaves_pure _

theorem leaves_serveMakeDir (path opId : String) :
    Leaves Aborted (serveMakeDir c path opId) := by
  refine (leaves_authenticate c _).bind fun principal => ?_
  have hexec := (raises_makeDir path (callerOf principal)).bind fun _ => raises_pure Ret.none
  exact (leaves_guarded hexec (by decide)).bind fun _ => leaves_pure _

theorem leaves_serveRemoveDir (path opId : String) :
    Leaves Aborted (serveRemoveDir c path opId) := by
  refine (leaves_authenticate c _).bind fun principal => ?_
  have hexec := (raises_removeDir path (callerOf principal)).bind fun _ => raises_pure Ret.none
  exact (leaves_guarded hexec (by decide)).bind fun _ => leaves_pure _

theorem leaves_serveRemove (path opId : String) : Leaves Aborted (serveRemove c path opId) := by
  refine (leaves_authenticate c _).bind fun principal => ?_
  have hexec := (raises_removeFile path (some c.now) (callerOf principal)).bind fun blocks =>
    raises_pure (Ret.removed blocks)
  refine (leaves_guarded hexec (by decide)).bind fun result => ?_
  exact (leaves_unpack _ _).bind fun blocks => (leaves_deleteBlocks _).bind fun _ => leaves_pure _

theorem numBlocks_within {sizeBytes blockSizeBytes : Int} {e : PyError}
    (h : numBlocks sizeBytes blockSizeBytes = .error e) : Within [] e := by
  rw [numBlocks] at h
  by_cases hzero : blockSizeBytes = 0
  · rw [if_pos hzero] at h
    obtain rfl := Except.error.inj h
    intro hdomain
    cases hdomain
  · rw [if_neg hzero] at h
    cases h

theorem leaves_serveBeginUpload (path : String) (sizeBytes : Int) (opId : String) :
    Leaves Aborted (serveBeginUpload c path sizeBytes opId) := by
  refine (leaves_authenticate c _).bind fun principal => (leaves_abortIf _ _).bind fun _ => ?_
  have hcount := (leaves_ofPure fun e he => numBlocks_within he :
    Leaves (Thrown []) (ofPure (numBlocks sizeBytes c.blockSizeBytes)))
  refine (hcount.mono fun e exit h => absurd h.2 List.not_mem_nil).bind fun count => ?_
  refine (leaves_proposeBlocks c _).bind fun proposed => ?_
  have hexec := (raises_beginUpload path proposed (some c.now) (some c.uploadLeaseS)
    (some c.blockSizeBytes) (callerOf principal)).bind fun begun =>
      raises_pure (Ret.uploadBegun begun.1 begun.2)
  refine (leaves_guarded hexec (by decide)).bind fun result => ?_
  exact (leaves_unpack _ _).bind fun stale => (leaves_deleteBlocks _).bind fun _ =>
    (leaves_unpack _ _).bind fun placements => leaves_pure _

theorem leaves_serveConfirmBlock (path blockId checksum : String) (sizeBytes : Int)
    (opId : String) :
    Leaves Aborted (serveConfirmBlock c path blockId checksum sizeBytes opId) := by
  refine (leaves_authenticate c _).bind fun principal => ?_
  have hexec := (raises_confirmBlock path blockId checksum sizeBytes (some c.now)
    (some c.uploadLeaseS) (callerOf principal)).bind fun _ => raises_pure Ret.none
  exact (leaves_guarded hexec (by decide)).bind fun _ => leaves_pure _

theorem leaves_serveCompleteUpload (path opId : String) :
    Leaves Aborted (serveCompleteUpload c path opId) := by
  refine (leaves_authenticate c _).bind fun principal => ?_
  have hexec := (raises_completeUpload path (callerOf principal)).bind fun _ =>
    raises_pure Ret.none
  exact (leaves_guarded hexec (by decide)).bind fun _ => leaves_pure _

theorem leaves_serveAbortUpload (path opId : String) :
    Leaves Aborted (serveAbortUpload c path opId) := by
  refine (leaves_authenticate c _).bind fun principal => (leaves_readBarrier c).bind fun _ => ?_
  refine (leaves_gets _).bind fun s => ?_
  have hexec := (raises_abortUpload path (callerOf principal)).bind fun _ => raises_pure Ret.none
  refine (leaves_guarded hexec (by decide)).bind fun _ => ?_
  exact (leaves_deleteBlocks _).bind fun _ => leaves_pure _

theorem leaves_serveListBlocks (path : String) : Leaves Aborted (serveListBlocks c path) := by
  refine (leaves_authenticate c _).bind fun principal => (leaves_readBarrier c).bind fun _ => ?_
  refine (leaves_tryExcept (leaves_readTree (raises_listBlocks _ _)) (fun _ h => h)
    (by decide)).bind fun blocks => ?_
  exact leaves_pure _

theorem leaves_serveLock (path mode opId : String) :
    Leaves Aborted (serveLock c path mode opId) := by
  refine (leaves_authenticate c _).bind fun principal => ?_
  have hexec := (raises_acquireLock path c.lockId ((principal.map Principal.username).getD c.peer)
    mode c.now c.lockLeaseS (callerOf principal)).bind fun lockId =>
      raises_pure (Ret.lockTaken lockId)
  refine (leaves_guarded hexec (by decide)).bind fun result => ?_
  exact (leaves_unpack _ _).bind fun lockId => leaves_pure _

theorem leaves_serveRenewLock (path lockId opId : String) :
    Leaves Aborted (serveRenewLock c path lockId opId) := by
  refine (leaves_authenticate c _).bind fun _ => ?_
  have hexec := (raises_renewLock path lockId c.now c.lockLeaseS).bind fun _ =>
    raises_pure Ret.none
  exact (leaves_guarded hexec (by decide)).bind fun _ => leaves_pure _

/-- `Unlock` names the row of a path that does not climb, and no more. -/
theorem leaves_serveUnlock {path : String} (hclimbs : ¬ Climbs path) (lockId opId : String) :
    Leaves Aborted (serveUnlock c path lockId opId) := by
  refine (leaves_authenticate c _).bind fun _ => ?_
  have hrelease : RaisesOnly [.pathNotFoundError, .conflictError]
      (releaseLock path lockId (some c.now)) :=
    raises_releaseLock (fun h => absurd h hclimbs) (by decide) (by decide) lockId (some c.now)
  have hexec := hrelease.bind fun _ => raises_pure Ret.none
  exact (leaves_guarded hexec (by decide)).bind fun _ => leaves_pure _

theorem leaves_serveBeginWrite (path : String) (offset length : Int) (lockId opId : String) :
    Leaves Aborted (serveBeginWrite c path offset length lockId opId) := by
  refine (leaves_authenticate c _).bind fun principal => (leaves_readBarrier c).bind fun _ => ?_
  refine (leaves_tryExcept ?_ (fun _ h => h) (by decide)).bind fun planned => ?_
  · refine (leaves_readTree (raises_writeLayout _ _ _)).bind fun layout => ?_
    refine (leaves_ofPure fun e he => ?_).bind fun plan => leaves_pure _
    exact planWriteSlots_within (by decide) he
  · refine (leaves_proposeBlocks c _).bind fun proposed => ?_
    have hexec := (raises_beginWrite path c.writeId lockId planned.1 offset length
      ((planned.2.map Prod.fst).zip proposed) c.now c.uploadLeaseS c.blockSizeBytes
      (callerOf principal)).bind fun begun =>
        raises_pure (Ret.writeBegun begun.1 begun.2.1 begun.2.2.1 begun.2.2.2)
    refine (leaves_guarded hexec (by decide)).bind fun result => ?_
    exact (leaves_unpack _ _).bind fun begun => leaves_pure _

theorem leaves_serveCommitWrite (path writeId : String) (baseVersion : Int) (lockId : String)
    (slots : List (Int × String × String × Int)) (opId : String) :
    Leaves Aborted (serveCommitWrite c path writeId baseVersion lockId slots opId) := by
  refine (leaves_authenticate c _).bind fun principal => ?_
  have hexec := (raises_commitWrite path writeId lockId baseVersion slots c.now
    (callerOf principal)).bind fun committed =>
      raises_pure (Ret.writeCommitted committed.1 committed.2)
  refine (leaves_guarded hexec (by decide)).bind fun result => ?_
  exact (leaves_unpack _ _).bind fun replaced => (leaves_deleteBlocks _).bind fun _ =>
    (leaves_unpack _ _).bind fun version => leaves_pure _

theorem leaves_serveAbortWrite (path writeId lockId opId : String) :
    Leaves Aborted (serveAbortWrite c path writeId lockId opId) := by
  refine (leaves_authenticate c _).bind fun _ => ?_
  have habort : RaisesOnly [.pathNotFoundError, .invalidPathError, .conflictError]
      (abortWrite path writeId lockId (some c.now)) :=
    (raises_abortWrite path writeId lockId (some c.now)).mono (by decide)
  have hexec := habort.bind fun reserved => raises_pure (Ret.writeAborted reserved)
  refine (leaves_guarded hexec (by decide)).bind fun result => ?_
  exact (leaves_unpack _ _).bind fun reserved =>
    (leaves_deleteBlocks _).bind fun _ => leaves_pure _

/-- No operation of the tree that `Login` performs raises. -/
theorem leaves_serveLogin (username password : String) :
    Leaves Aborted (serveLogin c username password) := by
  refine (leaves_abortIf _ _).bind fun _ => (leaves_readBarrier c).bind fun _ => ?_
  refine (leaves_gets _).bind fun s => ?_
  cases DfshaPasswordChange.verifiedUser c.scrypt s username password with
  | none => exact leaves_raise _
  | some user => exact leaves_pure _

theorem leaves_serveCreateUser (username password : String) (groups : List String)
    (isAdmin : Bool) (opId : String) :
    Leaves Aborted (serveCreateUser c username password groups isAdmin opId) := by
  refine (leaves_authenticate c _).bind fun session => ?_
  refine (leaves_requireSession session).bind fun principal => ?_
  refine (leaves_tryExcept ?_ (fun _ h => h) (by decide)).bind fun _ => leaves_pure _
  refine (leaves_raiseErrorIf (within_of_mem (by decide) _)).bind fun _ => ?_
  refine (leaves_checkPassword (by decide) password).bind fun _ => ?_
  refine (leaves_raiseErrorIf (within_of_mem (by decide) _)).bind fun _ => ?_
  refine leaves_commit (Raises.bind ?_ fun _ => raises_pure Ret.none)
  exact (raises_createUser _ _ _ _ _).mono (by decide)

theorem leaves_checkMayChange (h : .accessDeniedError ∈ row) (principal : Principal)
    (target currentPassword : String) :
    Leaves (Thrown row) (checkMayChange c principal target currentPassword) := by
  rw [checkMayChange]
  by_cases hother : target ≠ principal.username
  · rw [if_pos hother]
    exact leaves_raiseErrorIf (within_of_mem h _)
  · rw [if_neg hother]
    refine (leaves_readBarrier c).bind fun _ => (leaves_gets _).bind fun s => ?_
    exact leaves_raiseErrorIf (within_of_mem h _)

theorem leaves_serveChangePassword (username currentPassword newPassword opId : String) :
    Leaves Aborted (serveChangePassword c username currentPassword newPassword opId) := by
  refine (leaves_authenticate c _).bind fun session => ?_
  refine (leaves_requireSession session).bind fun principal => ?_
  refine (leaves_tryExcept ?_ (fun _ h => h) (by decide)).bind fun _ => leaves_pure _
  refine (leaves_checkMayChange c (by decide) _ _ _).bind fun _ => ?_
  refine (leaves_checkPassword (by decide) newPassword).bind fun _ => ?_
  refine leaves_commit (Raises.bind ?_ fun _ => raises_pure Ret.none)
  exact (raises_changePassword _ _ _).mono (by decide)

theorem leaves_serveChmod (path : String) (mode : Int) (opId : String) :
    Leaves Aborted (serveChmod c path mode opId) := by
  refine (leaves_authenticate c _).bind fun principal => ?_
  have hexec := (raises_chmod path mode (callerOf principal)).bind fun _ => raises_pure Ret.none
  exact (leaves_guarded hexec (by decide)).bind fun _ => leaves_pure _

theorem leaves_serveChown (path owner group opId : String) :
    Leaves Aborted (serveChown c path owner group opId) := by
  refine (leaves_authenticate c _).bind fun principal => ?_
  have hexec := (raises_chown path owner group (callerOf principal)).bind fun _ =>
    raises_pure Ret.none
  exact (leaves_guarded hexec (by decide)).bind fun _ => leaves_pure _

theorem leaves_serveDataNodeInventory (address : String) :
    Leaves Aborted (serveDataNodeInventory c address) := by
  refine (leaves_authenticate c _).bind fun principal => ?_
  refine (leaves_tryExcept ?_ (fun _ h => h) (by decide)).bind fun _ => ?_
  · refine (leaves_raiseErrorIf (within_of_mem (by decide) _)).bind fun _ => ?_
    exact leaves_raiseErrorIf (within_of_mem (by decide) _)
  · cases c.storedBlocks with
    | ok blocks => exact leaves_pure _
    | error details => exact leaves_raise _

/-- **EVERY HANDLER NAMES ITS ROW**, but for an `Unlock` of a path that climbs. -/
theorem leaves_handler {request : Request}
    (h : ∀ path lockId opId, request = .unlock path lockId opId → ¬ Climbs path) :
    Leaves Aborted (handler c request) := by
  cases request with
  | listDir path => exact leaves_serveListDir c path
  | makeDir path opId => exact leaves_serveMakeDir c path opId
  | removeDir path opId => exact leaves_serveRemoveDir c path opId
  | remove path opId => exact leaves_serveRemove c path opId
  | beginUpload path sizeBytes opId => exact leaves_serveBeginUpload c path sizeBytes opId
  | confirmBlock path blockId checksum sizeBytes opId =>
      exact leaves_serveConfirmBlock c path blockId checksum sizeBytes opId
  | completeUpload path opId => exact leaves_serveCompleteUpload c path opId
  | abortUpload path opId => exact leaves_serveAbortUpload c path opId
  | listBlocks path => exact leaves_serveListBlocks c path
  | lock path mode opId => exact leaves_serveLock c path mode opId
  | renewLock path lockId opId => exact leaves_serveRenewLock c path lockId opId
  | unlock path lockId opId => exact leaves_serveUnlock c (h path lockId opId rfl) lockId opId
  | beginWrite path offset length lockId opId =>
      exact leaves_serveBeginWrite c path offset length lockId opId
  | commitWrite path writeId baseVersion lockId slots opId =>
      exact leaves_serveCommitWrite c path writeId baseVersion lockId slots opId
  | abortWrite path writeId lockId opId => exact leaves_serveAbortWrite c path writeId lockId opId
  | login username password => exact leaves_serveLogin c username password
  | createUser username password groups isAdmin opId =>
      exact leaves_serveCreateUser c username password groups isAdmin opId
  | changePassword username currentPassword newPassword opId =>
      exact leaves_serveChangePassword c username currentPassword newPassword opId
  | chmod path mode opId => exact leaves_serveChmod c path mode opId
  | chown path owner group opId => exact leaves_serveChown c path owner group opId
  | dataNodeInventory address => exact leaves_serveDataNodeInventory c address

end Handlers

/-! ## What the client raises -/

theorem quiet_initial (s : ReplicatedTree) : Quiet ⟨s, [], []⟩ := fun _ h =>
  absurd h List.not_mem_nil

/-- The client knows every class that has a status by its name. -/
theorem translate_named {cls : DomainError} {status : StatusCode}
    (h : errorStatus cls = some status) (code : StatusCode) (message : String) :
    DfshaBlockFailover.translate ⟨code, message, [className cls]⟩ = .domain cls message := by
  cases cls <;> first | rfl | cases h

theorem reach_of_leaves {c : Context} {request : Request} (h : Leaves Aborted (handler c request))
    (s : ReplicatedTree) : ErrorsReachTheClient c request s := by
  intro e he cls hcls
  rcases h _ (quiet_initial s) with hquiet | ⟨e', exit, hr, haborted, honly⟩
  · rw [hquiet e he] at hcls
    cases hcls
  · obtain rfl : e = e' := honly e he (by rw [hcls]; exact Option.some_ne_none _)
    obtain ⟨cls', status, hcls', hstatus, rfl⟩ := haborted
    obtain rfl : cls = cls' := Option.some.inj (hcls.symm.trans hcls')
    refine ⟨status, hstatus, ?_, translate_named hstatus _ _⟩
    rw [serve, hr]
    rfl

/-! ## The `Unlock` of a path that climbs -/

section Unlock

variable {c : Context} {s : ReplicatedTree} {path lockId opId : String}

theorem wp_authenticate {β : Type} {token : Except String Principal}
    {f : Option Principal → Handler β} {t : Serving} {Q : Except Exit β → Serving → Prop}
    (hok : ∀ session, sessionOf c token = some session → wp (f session) t Q)
    (hrefused : sessionOf c token = none → ∀ e, Q (.error (.aborted e)) t) :
    wp (authenticate c token >>= f) t Q := by
  refine wp_bind ?_
  unfold sessionOf at hok hrefused
  unfold authenticate
  by_cases hauth : c.authentication = true
  · rw [if_pos hauth] at hok hrefused ⊢
    cases token with
    | ok principal => exact hok _ rfl
    | error message => exact hrefused rfl _
  · rw [if_neg hauth] at hok hrefused ⊢
    exact hok _ rfl

/-- An outcome that is remembered raises nothing. -/
theorem raised_remembered {key : String} {μ : Mutation} {outcome : Outcome}
    (h : s.appliedOps.get? key = some outcome) {after : Serving}
    (hraised : after.raised = raisedBy ⟨key, .mutation μ⟩ s) (o : Except String Outcome) :
    wp (resultOf o) after fun _ t => t.raised = [] := by
  have hnone : after.raised = [] := by rw [hraised, raisedBy, h]
  cases o with
  | error reason => exact hnone
  | ok outcome =>
      cases outcome with
      | ok result => exact hnone
      | error cls message => exact hnone

/-- A domain exception of a command that is executed leaves the commit. -/
theorem raised_executed {key : String} {μ : Mutation} {e : PyError}
    (h : s.appliedOps.get? key = none) (hexec : (exec μ s.tree).1 = .error e)
    (hdomain : e.cls.isDomain = true) {after : Serving}
    (hraised : after.raised = raisedBy ⟨key, .mutation μ⟩ s) :
    wp (resultOf (.ok (apply ⟨key, .mutation μ⟩ s).1)) after fun r t =>
      t.raised = [e] ∧ r = .error (.raised e) := by
  have hone : after.raised = [e] := by
    rw [hraised, raisedBy, h]
    dsimp only
    rw [hexec]
  have hout : (apply ⟨key, .mutation μ⟩ s).1 = outcomeOf μ (.error e) := by
    rw [apply_executed (c := ⟨key, .mutation μ⟩) h, ← hexec]
    rfl
  rw [hout, resultOf_domain hdomain]
  exact ⟨hone, rfl⟩

/-- A call that does not execute its command raises nothing. -/
theorem unlock_quiet (h : ¬ Executes c opId s) :
    wp (serveUnlock c path lockId opId) ⟨s, [], []⟩ fun _ t => t.raised = [] := by
  refine wp_authenticate (fun _ haccepted => ?_) fun _ _ => rfl
  refine wp_bind (wp_tryExcept ?_)
  have hcommit : wp (commit c opId (.releaseLock path lockId (some c.now))) ⟨s, [], []⟩
      fun _ t => t.raised = [] := by
    refine wp_raiseIf (fun _ => rfl) fun hnamed => ?_
    refine wp_raiseIf (fun _ => rfl) fun hleader => ?_
    refine wp_authenticate (fun session hsession => ?_) fun _ _ => rfl
    refine wp_bind (wp_modify ?_)
    cases hfate : c.fate with
    | unavailable => exact rfl
    | unknown reason applied => exact raised_applyUnseen _ applied _
    | confirmed =>
        have hcached : (applyOthers c ⟨s, [], []⟩).replicated.appliedOps.get?
            (commitKey session opId) ≠ none := fun hnone =>
          h ⟨hnamed, Bool.not_eq_false _ ▸ hleader, hfate, haccepted ▸ Option.some_ne_none _,
            session, hsession, hnone⟩
        obtain ⟨outcome, houtcome⟩ := Option.ne_none_iff_exists'.mp hcached
        exact raised_remembered houtcome rfl _
  refine wp_mono hcommit fun r t ht => ?_
  cases hhandled : handled [.pathNotFoundError, .conflictError] r with
  | ok result => exact ht
  | error exit => exact ht

/-- What the tree raises at a path that climbs. -/
theorem releaseLock_climbs (h : Climbs path) (now : Option Time) (tree : ControlTree) :
    ∃ message, (exec (.releaseLock path lockId now) tree).1
      = .error ⟨.invalidPathError, message⟩ := by
  have hparts : canonicalPath path = .error ⟨.invalidPathError,
      s!"la ruta contiene '..': {pyRepr path}"⟩ := by
    rw [canonicalPath, parts, if_pos (show ['.', '.'] ∈ splitSlash path.toList from h)]
    rfl
  rw [exec, releaseLock, hparts]
  exact ⟨_, rfl⟩

/-- **THE EXCEPTION LEAVES THE HANDLER**, and the RPC ends with `UNKNOWN`. -/
theorem unlock_unknown (hclimbs : Climbs path) (h : Executes c opId s) :
    wp (serveUnlock c path lockId opId) ⟨s, [], []⟩ fun r t => ∃ message,
      t.raised = [⟨.invalidPathError, message⟩] ∧
        r = .error (.raised ⟨.invalidPathError, message⟩) := by
  obtain ⟨hnamed, hleader, hfate, haccepted, session, hsession, hfresh⟩ := h
  refine wp_authenticate (fun _ _ => ?_) fun hrefused => absurd hrefused haccepted
  refine wp_bind (wp_tryExcept ?_)
  obtain ⟨message, hexec⟩ := @releaseLock_climbs path lockId hclimbs (some c.now)
    (applyOthers c ⟨s, [], []⟩).replicated.tree
  have hcommit : wp (commit c opId (.releaseLock path lockId (some c.now))) ⟨s, [], []⟩
      fun r t => t.raised = [⟨.invalidPathError, message⟩] ∧
        r = .error (.raised ⟨.invalidPathError, message⟩) := by
    refine wp_raiseIf_passed hnamed (wp_raiseIf_passed (by rw [hleader]; decide) ?_)
    refine wp_authenticate (fun session' hsession' => ?_) fun hrefused => by
      rw [hsession] at hrefused
      cases hrefused
    obtain rfl : session = session' := Option.some.inj (hsession.symm.trans hsession')
    refine wp_bind (wp_modify ?_)
    rw [hfate]
    exact raised_executed hfresh hexec rfl rfl
  refine wp_mono hcommit ?_
  rintro r t ⟨hraised, rfl⟩
  exact ⟨message, hraised, rfl⟩

/-- An `UNKNOWN` without a `dfsha-error` entry reports no class. -/
theorem not_reach_of_climbing (hclimbs : Climbs path) (h : Executes c opId s) :
    ¬ ErrorsReachTheClient c (.unlock path lockId opId) s := by
  intro hreach
  obtain ⟨message, hraised, hr⟩ := @unlock_unknown c s path lockId opId hclimbs h
  have hmem : (⟨.invalidPathError, message⟩ : PyError) ∈
      (serve c (.unlock path lockId opId) s).2.raised := by
    show _ ∈ (serveUnlock c path lockId opId ⟨s, [], []⟩).2.raised
    rw [hraised]
    exact List.mem_singleton_self _
  obtain ⟨status, _, hend, _⟩ := hreach _ hmem .invalidPathError rfl
  have hunknown : (serve c (.unlock path lockId opId) s).1
      = endingOf (.error (.raised ⟨.invalidPathError, message⟩)) := by
    show endingOf (serveUnlock c path lockId opId ⟨s, [], []⟩).1 = _
    rw [hr]
  rw [hunknown] at hend
  have hentries := congrArg RpcError.domainErrors (Except.error.inj hend)
  cases hentries

end Unlock

/-- **WHEN THE EXCEPTIONS OF AN RPC REACH THE CLIENT**: always, but for an `Unlock`
    of a path with `..` that is executed. -/
theorem errors_reach_the_client_iff (c : Context) (request : Request) (s : ReplicatedTree) :
    ErrorsReachTheClient c request s ↔ ¬ UnlocksClimbing c request s := by
  constructor
  · rintro hreach ⟨path, lockId, opId, rfl, hclimbs, hexec⟩
    exact not_reach_of_climbing hclimbs hexec hreach
  · intro hnot
    by_cases hunlock : ∃ path lockId opId, request = .unlock path lockId opId ∧ Climbs path
    · obtain ⟨path, lockId, opId, rfl, hclimbs⟩ := hunlock
      have hquiet : (serve c (.unlock path lockId opId) s).2.raised = [] :=
        unlock_quiet fun hexec => hnot ⟨path, lockId, opId, rfl, hclimbs, hexec⟩
      intro e he
      rw [hquiet] at he
      exact absurd he List.not_mem_nil
    · exact reach_of_leaves (leaves_handler c fun path lockId opId hrequest hclimbs =>
        hunlock ⟨path, lockId, opId, hrequest, hclimbs⟩) s

/-- A leader without authentication, whose commits are confirmed. -/
def openLeader : Context where
  authentication := false
  blockSizeBytes := 4
  uploadLeaseS := 60
  lockLeaseS := 30
  datanodeAddresses := ["d1:1"]
  token := .error "falta el token de sesión"
  tokenAtCommit := .error "falta el token de sesión"
  samePrincipal _ _ h := by cases h
  peer := "ipv4:127.0.0.1:40000"
  leaderAtRead := true
  barrier := true
  leaderAtCommit := true
  others := []
  fate := .confirmed
  now := 0
  lockId := "L1"
  writeId := "W1"
  blocks n := .ok (List.replicate n ("b1", ["d1:1"]))
  length_blocks n proposed h := by rw [← Except.ok.inj h, List.length_replicate]
  scrypt _ _ := []
  salt := []
  fieldError := "bad argument type for built-in operation"
  storedBlocks := .ok []

/-- **AN `Unlock` OF `/docs/../a` ENDS WITH `UNKNOWN`.** -/
theorem unlock_of_a_climbing_path_is_unknown :
    ¬ ∀ (cmds : List Command) (s : ReplicatedTree) (c : Context) (request : Request),
      replicated.Run cmds s → ErrorsReachTheClient c request s := by
  intro h
  have hclimbs : Climbs "/docs/../a" := by
    show ['.', '.'] ∈ splitSlash _
    decide
  have hexec : Executes openLeader "op1" ReplicatedTree.empty :=
    ⟨by decide, rfl, rfl, by decide, none, rfl, rfl⟩
  exact @not_reach_of_climbing openLeader ReplicatedTree.empty "/docs/../a" "L1" "op1" hclimbs
    hexec (h [] _ _ _ ⟨_, rfl, .start⟩)

end DfshaRpcErrors
