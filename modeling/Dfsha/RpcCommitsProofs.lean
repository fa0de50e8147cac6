import Dfsha.ControlServicerProofs

/-! # What an RPC commits

    Every RPC that changes the tree does so through one command of the log.
    The command is under a key of its caller, and it carries the caller of the
    token as the one whose permissions the tree checks; what the tree does not
    check, because the mutation has no caller, the handler has checked before:
    only an admin creates a user, and a password is changed by its user or by
    an admin.

    A handler is a few steps that only read, the commit, and steps that only
    answer.  `Reads` and `Commits` are the two kinds, with a rule for each way
    they follow each other. -/

namespace DfshaRpcCommits

open InsertionDict RaisingAction DfshaPath DfshaControlTree DfshaReplicatedTree
open DfshaMetadata (callerOf)
open DfshaOperationKey (Principal commitKey)
open DfshaBlockFailover (RpcError)
open DfshaBlockLayout (numBlocks)
open DfshaPasswordChange (checkNewPassword)
open DfshaControlServicer

/-- The mutations that the calls of a principal may commit: with itself as the
    caller; a user only as an admin; a password only its own, or as an admin. -/
def Permitted (p : Principal) : Mutation → Prop
  | .createUser .. => p.isAdmin = true
  | .changePassword username _ _ => username = p.username ∨ p.isAdmin = true
  | .updateBlockReplicas .. => False
  | μ => ∀ caller, DfshaMetadata.callerOf μ = some caller →
      caller = some ⟨p.username, p.groups, p.isAdmin⟩

/-- The operation id that a request carries. -/
def opIdOf : Request → String
  | .listDir _ | .listBlocks _ | .login _ _ | .dataNodeInventory _ => ""
  | .makeDir _ opId | .removeDir _ opId | .remove _ opId => opId
  | .completeUpload _ opId | .abortUpload _ opId => opId
  | .beginUpload _ _ opId | .lock _ _ opId | .chmod _ _ opId => opId
  | .renewLock _ _ opId | .unlock _ _ opId => opId
  | .chown _ _ _ opId | .abortWrite _ _ _ opId => opId
  | .confirmBlock _ _ _ _ opId | .beginWrite _ _ _ _ opId => opId
  | .createUser _ _ _ _ opId | .changePassword _ _ _ opId => opId
  | .commitWrite _ _ _ _ _ opId => opId

/-- The caller that a session puts into its mutations. -/
def sessionCaller (p : Principal) : Option Caller := some ⟨p.username, p.groups, p.isAdmin⟩

/-- The mutations that a request of the principal may become: the leader draws
    the clock, the new ids, the placements and the salt. -/
def Proposes (p : Principal) : Request → Mutation → Prop
  | .listDir _, _ | .listBlocks _, _ | .login _ _, _ | .dataNodeInventory _, _ => False
  | .makeDir path _, μ => μ = .makeDir path (sessionCaller p)
  | .removeDir path _, μ => μ = .removeDir path (sessionCaller p)
  | .remove path _, μ => ∃ now, μ = .removeFile path (some now) (sessionCaller p)
  | .beginUpload path sizeBytes _, μ => ∃ placements now leaseS blockSize,
      numBlocks sizeBytes blockSize = .ok placements.length ∧
      μ = .beginUpload path placements (some now) (some leaseS) (some blockSize)
        (sessionCaller p)
  | .confirmBlock path blockId checksum sizeBytes _, μ => ∃ now leaseS,
      μ = .confirmBlock path blockId checksum sizeBytes (some now) (some leaseS)
        (sessionCaller p)
  | .completeUpload path _, μ => μ = .completeUpload path (sessionCaller p)
  | .abortUpload path _, μ => μ = .abortUpload path (sessionCaller p)
  | .lock path mode _, μ => ∃ lockId now leaseS,
      μ = .acquireLock path lockId p.username mode now leaseS (sessionCaller p)
  | .renewLock path lockId _, μ => ∃ now leaseS, μ = .renewLock path lockId now leaseS
  | .unlock path lockId _, μ => ∃ now, μ = .releaseLock path lockId (some now)
  | .beginWrite path offset length lockId _, μ =>
      ∃ writeId version proposals now leaseS blockSize,
        μ = .beginWrite path writeId lockId version offset length proposals now leaseS
          blockSize (sessionCaller p)
  | .commitWrite path writeId baseVersion lockId slots _, μ => ∃ now,
      μ = .commitWrite path writeId lockId baseVersion slots now (sessionCaller p)
  | .abortWrite path writeId lockId _, μ => ∃ now,
      μ = .abortWrite path writeId lockId (some now)
  | .createUser username _ groups isAdmin _, μ => p.isAdmin = true ∧ ∃ passwordHash salt,
      μ = .createUser username passwordHash salt (if groups = [] then [username] else groups)
        isAdmin
  | .changePassword username _ _ _, μ =>
      ∃ target passwordHash salt, target = (if username ≠ "" then username else p.username) ∧
        (target = p.username ∨ p.isAdmin = true) ∧
        μ = .changePassword target passwordHash salt
  | .chmod path mode _, μ => μ = .chmod path mode (sessionCaller p)
  | .chown path owner group _, μ => μ = .chown path owner group (sessionCaller p)

/-- A request asks for what its principal may commit. -/
theorem permitted_of_proposes {p : Principal} {request : Request} {μ : Mutation}
    (h : Proposes p request μ) : Permitted p μ := by
  cases request with
  | listDir | listBlocks | login | dataNodeInventory => exact h.elim
  | makeDir | removeDir | completeUpload | abortUpload | chmod | chown =>
      obtain rfl : μ = _ := h
      exact fun _ hcaller => (Option.some.inj hcaller).symm
  | remove | commitWrite =>
      obtain ⟨_, rfl⟩ := h
      exact fun _ hcaller => (Option.some.inj hcaller).symm
  | confirmBlock =>
      obtain ⟨_, _, rfl⟩ := h
      exact fun _ hcaller => (Option.some.inj hcaller).symm
  | lock =>
      obtain ⟨_, _, _, rfl⟩ := h
      exact fun _ hcaller => (Option.some.inj hcaller).symm
  | beginUpload =>
      obtain ⟨_, _, _, _, _, rfl⟩ := h
      exact fun _ hcaller => (Option.some.inj hcaller).symm
  | beginWrite =>
      obtain ⟨_, _, _, _, _, _, rfl⟩ := h
      exact fun _ hcaller => (Option.some.inj hcaller).symm
  | renewLock =>
      obtain ⟨_, _, rfl⟩ := h
      exact fun _ hcaller => by cases hcaller
  | unlock | abortWrite =>
      obtain ⟨_, rfl⟩ := h
      exact fun _ hcaller => by cases hcaller
  | createUser =>
      obtain ⟨hadmin, _, _, rfl⟩ := h
      exact hadmin
  | changePassword =>
      obtain ⟨_, _, _, _, hmay, rfl⟩ := h
      exact hmay

/-- The tree after the commands of others that are applied meanwhile. -/
def afterOthers (c : Context) (s : ReplicatedTree) : ReplicatedTree :=
  c.others.foldl (fun s command => (apply command s).2) s

/-- The action commits nothing, and what it returns is as `P` says. -/
def Reads {α : Type} (P : α → Prop) (x : Handler α) : Prop :=
  ∀ s, wp x s fun r s' => s'.replicated = s.replicated ∧ ∀ a, r = .ok a → P a

/-- The action commits at most one command, which `Own` allows, after those of
    others. -/
def Commits {α : Type} (c : Context) (Own : Command → Prop) (x : Handler α) : Prop :=
  ∀ s, wp x s fun _ s' => s'.replicated = s.replicated ∨
    s'.replicated = afterOthers c s.replicated ∨
    ∃ command, Own command ∧ s'.replicated = (apply command (afterOthers c s.replicated)).2

/-! ## Rules -/

section Rules

variable {α β : Type} {c : Context} {Own : Command → Prop} {P P' : α → Prop} {Q : β → Prop}
  {x : Handler α} {f : α → Handler β}

theorem Reads.mono (h : Reads P x) (hP : ∀ a, P a → P' a) : Reads P' x := fun s =>
  wp_mono (h s) fun _ _ hr => ⟨hr.1, fun a ha => hP a (hr.2 a ha)⟩

theorem Reads.only (h : Reads P x) : Reads (fun _ => True) x := h.mono fun _ _ => trivial

theorem Reads.commits (h : Reads P x) : Commits c Own x := fun s =>
  wp_mono (h s) fun _ _ hr => .inl hr.1

theorem Reads.bind (hx : Reads P x) (hf : ∀ a, P a → Reads Q (f a)) : Reads Q (x >>= f) := by
  intro s
  refine wp_call (hx s) ?_ ?_
  · rintro a s' ⟨hsame, hP⟩
    refine wp_mono (hf a (hP a rfl) s') ?_
    rintro r s'' ⟨hsame', hQ⟩
    exact ⟨hsame'.trans hsame, hQ⟩
  · rintro e s' ⟨hsame, _⟩
    exact ⟨hsame, fun b hb => by cases hb⟩

/-- What is read first and committed then. -/
theorem Reads.before (hx : Reads P x) (hf : ∀ a, P a → Commits c Own (f a)) :
    Commits c Own (x >>= f) := by
  intro s
  refine wp_call (hx s) ?_ ?_
  · rintro a s' ⟨hsame, hP⟩
    have h := hf a (hP a rfl) s'
    rw [hsame] at h
    exact h
  · exact fun e s' hr => .inl hr.1

/-- What is committed first; the rest only answers. -/
theorem Commits.before (hx : Commits c Own x) (hf : ∀ a, Reads (fun _ => True) (f a)) :
    Commits c Own (x >>= f) := by
  intro s
  refine wp_call (hx s) ?_ ?_
  · intro a s' h
    refine wp_mono (hf a s') ?_
    rintro r s'' ⟨hsame, _⟩
    rw [hsame]
    exact h
  · exact fun e s' h => h

theorem commits_tryExcept {caught : List ErrorClass} (hx : Commits c Own x) :
    Commits c Own (tryExcept caught x) := hx

theorem reads_tryExcept {caught : List ErrorClass} (hx : Reads P x) :
    Reads P (tryExcept caught x) := by
  intro s
  obtain ⟨hsame, hP⟩ := hx s
  refine ⟨hsame, fun a ha => hP a ?_⟩
  have ha' : handled caught (x s).1 = .ok a := ha
  cases hr : (x s).1 with
  | ok b =>
      rw [hr] at ha'
      exact ha'
  | error e =>
      rw [hr] at ha'
      cases e <;> cases ha'

theorem reads_pure {a : α} : Reads (fun _ => True) (pure a : Handler α) :=
  fun _ => ⟨rfl, fun _ _ => trivial⟩

theorem reads_gets (g : Serving → α) : Reads (fun _ => True) (gets g : Handler α) :=
  fun _ => ⟨rfl, fun _ _ => trivial⟩

theorem reads_raise {e : Exit} : Reads P (raise e : Handler α) :=
  fun _ => ⟨rfl, fun a ha => by cases ha⟩

theorem reads_abortIf {cond : Prop} [Decidable cond] {e : DfshaBlockFailover.RpcError} :
    Reads (fun _ => ¬ cond) (abortIf cond e) := by
  unfold abortIf raiseIf
  by_cases hcond : cond
  · rw [if_pos hcond]
    exact reads_raise
  · rw [if_neg hcond]
    exact fun _ => ⟨rfl, fun _ _ => hcond⟩

theorem reads_raiseError {e : PyError} : Reads P (raiseError e : Handler α) :=
  fun _ => ⟨rfl, fun a ha => by cases ha⟩

theorem reads_raiseErrorIf {cond : Prop} [Decidable cond] {e : PyError} :
    Reads (fun _ => ¬ cond) (raiseErrorIf cond e) := by
  unfold raiseErrorIf
  by_cases hcond : cond
  · rw [if_pos hcond]
    exact reads_raiseError
  · rw [if_neg hcond]
    exact fun _ => ⟨rfl, fun _ _ => hcond⟩

end Rules

/-! ## The steps of a handler -/

section Steps

variable {α : Type} {c : Context} {Own : Command → Prop}

theorem reads_ofPure (y : Except PyError α) : Reads (fun a => y = .ok a) (ofPure y) := by
  cases y with
  | ok a => exact fun _ => ⟨rfl, fun b hb => congrArg Except.ok (Except.ok.inj hb)⟩
  | error e => exact reads_raiseError

theorem reads_readTree (x : TreeM α) : Reads (fun _ => True) (readTree x) :=
  (reads_gets _).bind fun _ _ => (reads_ofPure _).only

theorem reads_readBarrier : Reads (fun _ => True) (readBarrier c) :=
  reads_abortIf.bind fun _ _ => reads_abortIf.only

theorem reads_unpack (view : Ret → Except ShapeError α) (result : Ret) :
    Reads (fun a => view result = .ok a) (unpack view result) := fun s =>
  ⟨(reads_ofPure _ s).1, fun a ha => mapError_eq_ok ((reads_ofPure _ s).2 a ha)⟩

theorem reads_deleteBlocks (blocks : List BlockRecord) :
    Reads (fun _ => True) (deleteBlocks blocks) := fun _ => ⟨rfl, fun _ _ => trivial⟩

theorem reads_checkPassword (password : String) :
    Reads (fun _ => True) (checkPassword password) := by
  unfold checkPassword
  cases checkNewPassword password with
  | ok _ => exact reads_pure
  | error refusal =>
      cases refusal with
      | domain e => exact reads_raiseError
      | missingOpId => exact reads_pure

/-- With authentication, the session is that of the token. -/
theorem reads_authenticate (hauth : c.authentication = true)
    (token : Except String Principal) :
    Reads (fun session => ∃ p, token = .ok p ∧ session = some p) (authenticate c token) := by
  unfold authenticate
  rw [if_pos hauth]
  cases token with
  | ok p => exact fun _ => ⟨rfl, fun a ha => ⟨p, rfl, (Except.ok.inj ha).symm⟩⟩
  | error message => exact reads_raise

theorem reads_requireSession (session : Option Principal) :
    Reads (fun p => session = some p) (requireSession session) := by
  cases session with
  | some p => exact fun _ => ⟨rfl, fun a ha => congrArg some (Except.ok.inj ha)⟩
  | none => exact reads_raise

theorem reads_resultOf (outcome : Except String Outcome) :
    Reads (fun _ => True) (resultOf outcome) := by
  cases outcome with
  | error reason => exact reads_raise
  | ok outcome =>
      cases outcome with
      | ok result => exact reads_pure
      | error cls message => exact reads_raise

theorem commits_commitRaw {command : Command} (h : Own command) :
    Commits c Own (commitRaw c command) := by
  intro s
  refine wp_modify ?_
  cases c.fate with
  | confirmed => exact .inr (.inr ⟨command, h, rfl⟩)
  | unavailable => exact .inr (.inl rfl)
  | unknown reason applied =>
      cases applied with
      | false => exact .inr (.inl rfl)
      | true => exact .inr (.inr ⟨command, h, rfl⟩)

/-- **ONE COMMIT**, under the key of who the token names at that moment. -/
theorem commits_commit (hauth : c.authentication = true) {opId : String} {μ : Mutation}
    (h : ∀ p', c.tokenAtCommit = .ok p' → Own ⟨commitKey (some p') opId, .mutation μ⟩) :
    Commits c Own (commit c opId μ) := by
  refine reads_abortIf.before fun _ _ => reads_abortIf.before fun _ _ => ?_
  refine (reads_authenticate hauth _).before ?_
  rintro session ⟨p', htoken, rfl⟩
  exact (commits_commitRaw (h p' htoken)).before fun outcome => reads_resultOf outcome

end Steps

/-! ## The handlers -/

section Handlers

variable {c : Context}

/-- A command of the request: under the key of its caller, of a mutation that
    it may become. -/
def OwnOf (c : Context) (request : Request) (command : Command) : Prop :=
  ∃ p μ, c.token = .ok p ∧ c.tokenAtCommit = .ok p ∧ Proposes p request μ ∧
    command = ⟨commitKey (some p) (opIdOf request), .mutation μ⟩

theorem ownOf_of_proposes {p p' : Principal} {request : Request} {μ : Mutation}
    (htoken : c.token = .ok p) (htoken' : c.tokenAtCommit = .ok p') (hμ : Proposes p request μ) :
    OwnOf c request ⟨commitKey (some p') (opIdOf request), .mutation μ⟩ := by
  obtain rfl := c.samePrincipal p p' htoken htoken'
  exact ⟨p', μ, htoken, htoken', hμ, rfl⟩

/-- The start of every handler but that of `Login`. -/
theorem commits_authenticated {α : Type} {Own : Command → Prop}
    (hauth : c.authentication = true) {f : Option Principal → Handler α}
    (hf : ∀ p, c.token = .ok p → Commits c Own (f (some p))) :
    Commits c Own (authenticate c c.token >>= f) := by
  refine (reads_authenticate hauth _).before ?_
  rintro session ⟨p, htoken, rfl⟩
  exact hf p htoken

/-- A commit inside `try`. -/
theorem commits_guarded (hauth : c.authentication = true) {p : Principal}
    (htoken : c.token = .ok p) {request : Request} {caught : List ErrorClass} {opId : String}
    {μ : Mutation} (hop : opIdOf request = opId) (hμ : Proposes p request μ) :
    Commits c (OwnOf c request) (tryExcept caught (commit c opId μ)) :=
  commits_tryExcept (commits_commit hauth fun _ htoken' =>
    hop ▸ ownOf_of_proposes htoken htoken' hμ)

/-- An RPC that commits, and answers that it is done. -/
theorem commits_plain (hauth : c.authentication = true) {request : Request}
    {caught : List ErrorClass} {opId : String} {μ : Option Principal → Mutation}
    (hop : opIdOf request = opId) (hμ : ∀ p, Proposes p request (μ (some p))) :
    Commits c (OwnOf c request) (do
      let principal ← authenticate c c.token
      let _ ← tryExcept caught (commit c opId (μ principal))
      pure Response.done) :=
  commits_authenticated hauth fun p htoken =>
    (commits_guarded hauth htoken hop (hμ p)).before fun _ => reads_pure

theorem commits_serveRemove (hauth : c.authentication = true) (path opId : String) :
    Commits c (OwnOf c (.remove path opId)) (serveRemove c path opId) := by
  refine commits_authenticated hauth fun p htoken => ?_
  refine Commits.before (commits_guarded hauth htoken rfl ⟨_, rfl⟩) fun result => ?_
  exact (reads_unpack _ _).bind fun blocks _ => (reads_deleteBlocks blocks).bind fun _ _ =>
    reads_pure

/-- The leader proposes as many placements as the file has blocks. -/
theorem reads_proposeBlocks (n : Nat) :
    Reads (fun proposed => proposed.length = n) (proposeBlocks c n) := by
  unfold proposeBlocks
  cases hproposed : c.blocks n with
  | ok proposed =>
      refine fun _ => ⟨rfl, fun a ha => ?_⟩
      rw [← Except.ok.inj ha]
      exact c.length_blocks n proposed hproposed
  | error message => exact reads_raise

theorem commits_serveBeginUpload (hauth : c.authentication = true) (path : String)
    (sizeBytes : Int) (opId : String) :
    Commits c (OwnOf c (.beginUpload path sizeBytes opId))
      (serveBeginUpload c path sizeBytes opId) := by
  refine commits_authenticated hauth fun p htoken => ?_
  refine reads_abortIf.before fun _ _ => (reads_ofPure _).before fun count hcount => ?_
  refine (reads_proposeBlocks count).before fun proposed hlength => ?_
  refine Commits.before (commits_guarded hauth htoken rfl ?_) fun result => ?_
  · refine ⟨_, _, _, _, ?_, rfl⟩
    rw [hlength]
    exact hcount
  exact (reads_unpack _ _).bind fun stale _ => (reads_deleteBlocks stale).bind fun _ _ =>
    (reads_unpack _ _).bind fun placements _ => reads_pure

theorem commits_serveAbortUpload (hauth : c.authentication = true) (path opId : String) :
    Commits c (OwnOf c (.abortUpload path opId)) (serveAbortUpload c path opId) := by
  refine commits_authenticated hauth fun p htoken => ?_
  refine reads_readBarrier.before fun _ _ => (reads_gets _).before fun s _ => ?_
  refine Commits.before (commits_guarded hauth htoken rfl rfl) fun result => ?_
  exact (reads_deleteBlocks _).bind fun _ _ => reads_pure

theorem commits_serveBeginWrite (hauth : c.authentication = true) (path : String)
    (offset length : Int) (lockId opId : String) :
    Commits c (OwnOf c (.beginWrite path offset length lockId opId))
      (serveBeginWrite c path offset length lockId opId) := by
  refine commits_authenticated hauth fun p htoken => ?_
  refine reads_readBarrier.before fun _ _ => ?_
  refine (reads_tryExcept (P := fun _ => True) ?_).before fun planned _ => ?_
  · refine (reads_readTree _).bind fun layout _ => (reads_ofPure _).bind fun plan _ => ?_
    exact reads_pure
  · refine (reads_proposeBlocks _).before fun proposed _ => ?_
    refine Commits.before (commits_guarded hauth htoken rfl ?_) fun result => ?_
    · exact ⟨_, _, _, _, _, _, rfl⟩
    exact (reads_unpack _ _).bind fun begun _ => reads_pure

theorem commits_serveCommitWrite (hauth : c.authentication = true) (path writeId : String)
    (baseVersion : Int) (lockId : String) (slots : List (Int × String × String × Int))
    (opId : String) :
    Commits c (OwnOf c (.commitWrite path writeId baseVersion lockId slots opId))
      (serveCommitWrite c path writeId baseVersion lockId slots opId) := by
  refine commits_authenticated hauth fun p htoken => ?_
  refine Commits.before (commits_guarded hauth htoken rfl ⟨_, rfl⟩) fun result => ?_
  exact (reads_unpack _ _).bind fun replaced _ => (reads_deleteBlocks replaced).bind fun _ _ =>
    (reads_unpack _ _).bind fun version _ => reads_pure

theorem commits_serveAbortWrite (hauth : c.authentication = true)
    (path writeId lockId opId : String) :
    Commits c (OwnOf c (.abortWrite path writeId lockId opId))
      (serveAbortWrite c path writeId lockId opId) := by
  refine commits_authenticated hauth fun p htoken => ?_
  refine Commits.before (commits_guarded hauth htoken rfl ⟨_, rfl⟩) fun result => ?_
  exact (reads_unpack _ _).bind fun reserved _ => (reads_deleteBlocks _).bind fun _ _ =>
    reads_pure

theorem reads_serveLogin (username password : String) :
    Reads (fun _ => True) (serveLogin c username password) := by
  refine reads_abortIf.bind fun _ _ => reads_readBarrier.bind fun _ _ => ?_
  refine (reads_gets _).bind fun s _ => ?_
  cases DfshaPasswordChange.verifiedUser c.scrypt s username password with
  | none => exact reads_raise
  | some user => exact reads_pure

/-- The handler checks that the caller is an admin. -/
theorem commits_serveCreateUser (hauth : c.authentication = true) (username password : String)
    (groups : List String) (isAdmin : Bool) (opId : String) :
    Commits c (OwnOf c (.createUser username password groups isAdmin opId))
      (serveCreateUser c username password groups isAdmin opId) := by
  refine commits_authenticated hauth fun p htoken => ?_
  refine (reads_requireSession _).before ?_
  rintro p' hp'
  obtain rfl := Option.some.inj hp'
  refine Commits.before (commits_tryExcept ?_) fun _ => reads_pure
  refine reads_raiseErrorIf.before fun _ hadmin => ?_
  refine (reads_checkPassword _).before fun _ _ => reads_raiseErrorIf.before fun _ _ => ?_
  refine commits_commit hauth fun _ htoken' => ownOf_of_proposes htoken htoken' ?_
  exact ⟨(Bool.not_eq_false _).mp hadmin, _, _, rfl⟩

/-- The handler checks whose password it is. -/
theorem reads_checkMayChange (p : Principal) (target currentPassword : String) :
    Reads (fun _ => target = p.username ∨ p.isAdmin = true)
      (checkMayChange c p target currentPassword) := by
  unfold checkMayChange
  by_cases htarget : target ≠ p.username
  · rw [if_pos htarget]
    exact reads_raiseErrorIf.mono fun _ hadmin => .inr ((Bool.not_eq_false _).mp hadmin)
  · rw [if_neg htarget]
    refine reads_readBarrier.bind fun _ _ => (reads_gets _).bind fun s _ => ?_
    exact reads_raiseErrorIf.mono fun _ _ => .inl (not_not.mp htarget)

theorem commits_serveChangePassword (hauth : c.authentication = true)
    (username currentPassword newPassword opId : String) :
    Commits c (OwnOf c (.changePassword username currentPassword newPassword opId))
      (serveChangePassword c username currentPassword newPassword opId) := by
  refine commits_authenticated hauth fun p htoken => ?_
  refine (reads_requireSession _).before ?_
  rintro p' hp'
  obtain rfl := Option.some.inj hp'
  refine Commits.before (commits_tryExcept ?_) fun _ => reads_pure
  refine (reads_checkMayChange _ _ _).before fun _ hmay => ?_
  refine (reads_checkPassword _).before fun _ _ => ?_
  refine commits_commit hauth fun _ htoken' => ownOf_of_proposes htoken htoken' ?_
  exact ⟨_, _, _, rfl, hmay, rfl⟩

theorem reads_serveDataNodeInventory (hauth : c.authentication = true) (address : String) :
    Reads (fun _ => True) (serveDataNodeInventory c address) := by
  refine (reads_authenticate hauth _).bind fun session _ => ?_
  refine (reads_tryExcept (P := fun _ => True) ?_).bind fun _ _ => ?_
  · exact reads_raiseErrorIf.bind fun _ _ => reads_raiseErrorIf.only
  · cases c.storedBlocks with
    | ok blocks => exact reads_pure
    | error details => exact reads_raise

theorem commits_handler (hauth : c.authentication = true) (request : Request) :
    Commits c (OwnOf c request) (handler c request) := by
  cases request with
  | listDir path =>
      refine commits_authenticated hauth fun p htoken => reads_readBarrier.before fun _ _ => ?_
      exact Reads.commits ((reads_tryExcept (reads_readTree _)).bind fun _ _ => reads_pure)
  | listBlocks path =>
      refine commits_authenticated hauth fun p htoken => reads_readBarrier.before fun _ _ => ?_
      exact Reads.commits ((reads_tryExcept (reads_readTree _)).bind fun _ _ => reads_pure)
  | makeDir | removeDir | completeUpload | chmod | chown =>
      exact commits_plain hauth rfl fun p => rfl
  | confirmBlock | renewLock => exact commits_plain hauth rfl fun p => ⟨_, _, rfl⟩
  | unlock => exact commits_plain hauth rfl fun p => ⟨_, rfl⟩
  | remove path opId => exact commits_serveRemove hauth path opId
  | beginUpload path sizeBytes opId => exact commits_serveBeginUpload hauth path sizeBytes opId
  | abortUpload path opId => exact commits_serveAbortUpload hauth path opId
  | lock path mode opId =>
      refine commits_authenticated hauth fun p htoken => ?_
      refine Commits.before (commits_guarded hauth htoken rfl ⟨_, _, _, rfl⟩) fun result => ?_
      exact (reads_unpack _ _).bind fun lockId _ => reads_pure
  | beginWrite path offset length lockId opId =>
      exact commits_serveBeginWrite hauth path offset length lockId opId
  | commitWrite path writeId baseVersion lockId slots opId =>
      exact commits_serveCommitWrite hauth path writeId baseVersion lockId slots opId
  | abortWrite path writeId lockId opId =>
      exact commits_serveAbortWrite hauth path writeId lockId opId
  | login username password => exact (reads_serveLogin username password).commits
  | createUser username password groups isAdmin opId =>
      exact commits_serveCreateUser hauth username password groups isAdmin opId
  | changePassword username currentPassword newPassword opId =>
      exact commits_serveChangePassword hauth username currentPassword newPassword opId
  | dataNodeInventory address => exact (reads_serveDataNodeInventory hauth address).commits

end Handlers

/-- **AN RPC COMMITS AT MOST ONE COMMAND**, after those of others: under the
    key of its operation and of the principal of its token, and of a mutation
    that its request asks for and that principal may commit, also when its
    outcome does not arrive.  Without a valid token it commits nothing. -/
theorem rpcs_commit_what_is_permitted (c : Context) (hauth : c.authentication = true)
    (request : Request) (s : ReplicatedTree) :
    (serve c request s).2.replicated = s ∨
    (serve c request s).2.replicated = afterOthers c s ∨
    ∃ p μ, c.token = .ok p ∧ c.tokenAtCommit = .ok p ∧ Proposes p request μ ∧
      Permitted p μ ∧ (serve c request s).2.replicated
        = (apply ⟨commitKey (some p) (opIdOf request), .mutation μ⟩ (afterOthers c s)).2 := by
  rcases commits_handler hauth request ⟨s, [], []⟩ with hsame | hothers | ⟨command, hown, happly⟩
  · exact .inl hsame
  · exact .inr (.inl hothers)
  · obtain ⟨p, μ, htoken, htoken', hμ, rfl⟩ := hown
    exact .inr (.inr ⟨p, μ, htoken, htoken', hμ, permitted_of_proposes hμ, happly⟩)

def eva : Principal := ⟨"eva", ["eva"], false, by decide⟩

/-- A leader that the user calls, whose commits are confirmed. -/
def evaLeader : Context where
  authentication := true
  blockSizeBytes := 4
  uploadLeaseS := 60
  lockLeaseS := 30
  datanodeAddresses := ["d1:1"]
  token := .ok eva
  tokenAtCommit := .ok eva
  samePrincipal _ _ h h' := Except.ok.inj (h'.symm.trans h)
  peer := "ipv4:127.0.0.1:40000"
  leaderAtRead := true
  barrier := true
  leaderAtCommit := true
  others := []
  fate := .confirmed
  now := 0
  lockId := "L1"
  writeId := "W1"
  blocks _ := .error "solo hay 0 DataNodes vivos; se requieren al menos 1"
  length_blocks _ _ h := by cases h
  scrypt _ _ := []
  salt := []
  fieldError := "bad argument type for built-in operation"
  storedBlocks := .ok []

/-- A directory is made. -/
theorem rpcs_commit_what_is_permitted_eva :
    (serve evaLeader (.makeDir "/docs" "op1") ReplicatedTree.empty).2.replicated
      = ReplicatedTree.empty ∨
    (serve evaLeader (.makeDir "/docs" "op1") ReplicatedTree.empty).2.replicated
      = afterOthers evaLeader ReplicatedTree.empty ∨
    ∃ p μ, evaLeader.token = .ok p ∧ evaLeader.tokenAtCommit = .ok p ∧
      Proposes p (.makeDir "/docs" "op1") μ ∧ Permitted p μ ∧
      (serve evaLeader (.makeDir "/docs" "op1") ReplicatedTree.empty).2.replicated
        = (apply ⟨commitKey (some p) "op1", .mutation μ⟩
            (afterOthers evaLeader ReplicatedTree.empty)).2 :=
  rpcs_commit_what_is_permitted evaLeader rfl _ _

example :
    (serve evaLeader (.makeDir "/docs" "op1") ReplicatedTree.empty).2.replicated.tree.root.view
      ["docs"] = some (.dir ⟨"eva", "eva", dirMode⟩) := by decide +kernel

end DfshaRpcCommits
