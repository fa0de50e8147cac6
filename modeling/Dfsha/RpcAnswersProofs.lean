import Dfsha.BlockOwnershipProofs
import Dfsha.RpcCommitsProofs

/-! # What an RPC answers and sends

    Three answers of the control node hand out capabilities, and five handlers
    send `DeleteBlock`.  All of them rest on the tree: on what a listing of it
    shows, on the blocks of a pending upload, or on a result of the log for
    the command of the call, which may be that of an earlier try.

    The rules are those of `Reads` and `Commits`, for what an action answers
    (`Rested`) and for what it sends (`Deletes`). -/

namespace DfshaRpcAnswers

open InsertionDict RaisingAction DfshaPath DfshaControlTree DfshaReplicatedTree
open DfshaOperationKey (Principal commitKey)
open DfshaBlockOwnership (toDelete)
open DfshaBlockFailover (RpcError)
open DfshaControlServicer DfshaRpcCommits

/-! ## What an answer signs -/

/-- A capability of an answer: the block, the operation, and the replicas to which
    it may be presented. -/
structure Grant where
  blockId : String
  op : String
  addresses : List String
deriving DecidableEq

/-- The capabilities of `BeginWrite`: of the block that a slot replaces, if there is
    one, and of the new one. -/
def slotGrants (slot : SlotDescription) : List Grant :=
  (if slot.oldBlockId ≠ "" then [⟨slot.oldBlockId, "read", slot.oldAddresses⟩] else []) ++
    [⟨slot.newBlockId, "write", slot.newAddresses⟩]

/-- The capabilities in a response. -/
def signed : Response → List Grant
  | .locations blocks => blocks.map fun b => ⟨b.1, "write", b.2.1⟩
  | .blocks blocks => blocks.map fun b => ⟨b.blockId, "read", b.datanodeAddresses⟩
  | .write _ _ _ _ slots => slots.flatMap slotGrants
  | _ => []

/-- What the answer to a result of the log signs. -/
def handedBy : Ret → List Grant
  | .uploadBegun placements _ => placements.map fun b => ⟨b.1, "write", b.2⟩
  | .writeBegun _ _ _ slots => slots.flatMap slotGrants
  | _ => []

/-! ## The command of a call -/

/-- The call needs a token. -/
structure Authentic (c : Context) : Prop where
  authentication : c.authentication = true

/-- The blocks that a mutation brings, with their replicas, are those that the
    leader has drawn for the call. -/
def Drawn (c : Context) : Mutation → Prop
  | .beginUpload _ placements _ _ _ _ => ∃ n, c.blocks n = .ok placements
  | .beginWrite _ _ _ _ _ _ proposals _ _ _ _ =>
      ∃ n proposed, c.blocks n = .ok proposed ∧ (proposals.map Prod.snd).Sublist proposed
  | _ => True

/-- A command of the call: of its user, and what the user may commit. -/
def OwnCommand (c : Context) (command : Command) : Prop :=
  ∃ p opId μ, c.token = .ok p ∧ Permitted p μ ∧ Drawn c μ ∧
    command = ⟨commitKey (some p) opId, .mutation μ⟩

section Commands

variable {c : Context} {p p' : Principal} {opId : String} {μ : Mutation}

theorem ownCommand (htoken : c.token = .ok p) (htoken' : c.tokenAtCommit = .ok p')
    (hpermitted : Permitted p μ) (hdrawn : Drawn c μ) :
    OwnCommand c ⟨commitKey (some p') opId, .mutation μ⟩ := by
  rw [c.samePrincipal p p' htoken htoken']
  exact ⟨p, opId, μ, htoken, hpermitted, hdrawn, rfl⟩

/-- Only the beginning of an upload and of a write bring blocks. -/
theorem drawn_of_proposes {request : Request} (h : Proposes p request μ) :
    Drawn c μ ∨
    (∃ path sizeBytes opId, request = .beginUpload path sizeBytes opId) ∨
    ∃ path offset length lockId opId, request = .beginWrite path offset length lockId opId := by
  cases request with
  | listDir | listBlocks | login | dataNodeInventory => exact h.elim
  | makeDir | removeDir | completeUpload | abortUpload | chmod | chown =>
      obtain rfl : μ = _ := h
      exact .inl trivial
  | remove | commitWrite | unlock | abortWrite =>
      obtain ⟨_, rfl⟩ := h
      exact .inl trivial
  | confirmBlock | renewLock =>
      obtain ⟨_, _, rfl⟩ := h
      exact .inl trivial
  | lock =>
      obtain ⟨_, _, _, rfl⟩ := h
      exact .inl trivial
  | createUser =>
      obtain ⟨_, _, _, rfl⟩ := h
      exact .inl trivial
  | changePassword =>
      obtain ⟨_, _, _, _, _, rfl⟩ := h
      exact .inl trivial
  | beginUpload path sizeBytes opId => exact .inr (.inl ⟨path, sizeBytes, opId, rfl⟩)
  | beginWrite path offset length lockId opId =>
      exact .inr (.inr ⟨path, offset, length, lockId, opId, rfl⟩)

theorem commits_mono {α : Type} {Own Own' : Command → Prop} {x : Handler α}
    (h : Commits c Own x) (hown : ∀ command, Own command → Own' command) :
    Commits c Own' x := by
  intro s
  refine wp_mono (h s) fun r s' hr => ?_
  rcases hr with hsame | hothers | ⟨command, hcommand, happly⟩
  · exact .inl hsame
  · exact .inr (.inl hothers)
  · exact .inr (.inr ⟨command, hown command hcommand, happly⟩)

theorem reads_drawn (n : Nat) :
    Reads (fun proposed => c.blocks n = .ok proposed) (proposeBlocks c n) := by
  unfold proposeBlocks
  cases c.blocks n with
  | error message => exact reads_raise
  | ok proposed => exact fun _ => ⟨rfl, fun a ha => congrArg Except.ok (Except.ok.inj ha)⟩

theorem commits_placed (h : Authentic c) (htoken : c.token = .ok p) {caught : List ErrorClass}
    (hpermitted : Permitted p μ) (hdrawn : Drawn c μ) :
    Commits c (OwnCommand c) (tryExcept caught (commit c opId μ)) :=
  commits_tryExcept (commits_commit h.authentication fun _ htoken' =>
    ownCommand htoken htoken' hpermitted hdrawn)

/-- The slots of a write get the blocks that were drawn. -/
theorem drawn_zip (indices : List Int) (proposed : List (String × List String)) :
    ((indices.zip proposed).map Prod.snd).Sublist proposed := by
  induction indices generalizing proposed with
  | nil => exact List.nil_sublist _
  | cons i indices ih =>
      cases proposed with
      | nil => exact List.nil_sublist _
      | cons b proposed => exact (ih proposed).cons_cons b

/-- **THE ONE COMMAND OF A CALL** is of its user and brings what was drawn. -/
theorem commits_own (h : Authentic c) (request : Request) :
    Commits c (OwnCommand c) (handler c request) := by
  have hother : (∀ path sizeBytes opId, request ≠ .beginUpload path sizeBytes opId) →
      (∀ path offset length lockId opId,
        request ≠ .beginWrite path offset length lockId opId) →
      Commits c (OwnCommand c) (handler c request) := by
    intro hupload hwrite
    refine commits_mono (commits_handler h.authentication request) ?_
    rintro command ⟨p, μ, htoken, htoken', hμ, rfl⟩
    refine ownCommand htoken htoken' (permitted_of_proposes hμ) ?_
    rcases drawn_of_proposes hμ with hdrawn | ⟨_, _, _, heq⟩ | ⟨_, _, _, _, _, heq⟩
    · exact hdrawn
    · exact absurd heq (hupload _ _ _)
    · exact absurd heq (hwrite _ _ _ _ _)
  cases request with
  | beginUpload path sizeBytes opId =>
      refine commits_authenticated h.authentication fun p htoken => ?_
      refine reads_abortIf.before fun _ _ => (reads_ofPure _).before fun count _ => ?_
      refine (reads_drawn count).before fun proposed hdrawn => ?_
      refine Commits.before (commits_placed h htoken ?_ ⟨count, hdrawn⟩) fun result => ?_
      · exact fun _ hcaller => (Option.some.inj hcaller).symm
      exact (reads_unpack _ _).bind fun stale _ => (reads_deleteBlocks stale).bind fun _ _ =>
        (reads_unpack _ _).bind fun placements _ => reads_pure
  | beginWrite path offset length lockId opId =>
      refine commits_authenticated h.authentication fun p htoken => ?_
      refine reads_readBarrier.before fun _ _ => ?_
      refine (reads_tryExcept (P := fun _ => True) ?_).before fun planned _ => ?_
      · refine (reads_readTree _).bind fun layout _ => (reads_ofPure _).bind fun plan _ => ?_
        exact reads_pure
      · refine (reads_drawn _).before fun proposed hdrawn => ?_
        refine Commits.before (commits_placed h htoken ?_
          ⟨_, proposed, hdrawn, drawn_zip _ _⟩) fun result => ?_
        · exact fun _ hcaller => (Option.some.inj hcaller).symm
        exact (reads_unpack _ _).bind fun begun _ => reads_pure
  | _ => exact hother (fun _ _ _ heq => by cases heq) fun _ _ _ _ _ heq => by cases heq

end Commands

/-! ## What an answer rests on -/

section Answers

variable {α : Type} {c : Context}

/-- What the capabilities of an answer rest on. -/
inductive Rests (c : Context) (s : ReplicatedTree) :
    List Grant → ReplicatedTree → Prop
  | nothing {s' : ReplicatedTree} : Rests c s [] s'
  | listed {p : Principal} {path : String} {blocks : List BlockRecord}
      (htoken : c.token = .ok p)
      (hblocks : (listBlocks path (sessionCaller p) s.tree).1 = .ok blocks) :
      Rests c s (signed (.blocks blocks)) s
  | outcome {command : Command} {ret : Ret} (hown : OwnCommand c command)
      (hret : (apply command (afterOthers c s)).1 = .ok ret) :
      Rests c s (handedBy ret) (apply command (afterOthers c s)).2

/-- The capabilities of every answer of the action rest on something. -/
def Rested (c : Context) (x : Handler Response) : Prop :=
  ∀ s, wp x s fun r s' => ∀ a, r = .ok a → Rests c s.replicated (signed a) s'.replicated

/-- No answer of the action has a capability. -/
def Unsigned (x : Handler Response) : Prop := ∀ s, wp x s fun r _ => ∀ a, r = .ok a → signed a = []

theorem unsigned_bind {x : Handler α} {f : α → Handler Response} (hf : ∀ a, Unsigned (f a)) :
    Unsigned (x >>= f) := by
  intro s
  have hx : wp x s fun _ _ => True := trivial
  exact wp_call hx (fun a s' _ => hf a s') fun e s' _ a ha => by cases ha

theorem unsigned_pure {a : Response} (h : signed a = []) : Unsigned (pure a) := by
  intro s a' ha
  obtain rfl := Except.ok.inj ha
  exact h

theorem unsigned_raise {e : Exit} : Unsigned (raise e) := fun _ a ha => by cases ha

theorem Unsigned.rested {x : Handler Response} (h : Unsigned x) : Rested c x := by
  intro s
  refine wp_mono (h s) fun r s' hr a ha => ?_
  rw [hr a ha]
  exact .nothing

theorem rested_before {P : α → Prop} {x : Handler α} {f : α → Handler Response}
    (hx : Reads P x) (hf : ∀ a, P a → Rested c (f a)) : Rested c (x >>= f) := by
  intro s
  refine wp_call (hx s) ?_ ?_
  · rintro a s' ⟨hsame, hP⟩
    have h := hf a (hP a rfl) s'
    rw [hsame] at h
    exact h
  · exact fun e s' _ a ha => by cases ha

/-- `except` clauses leave a result as it is. -/
theorem eq_ok_of_handled {caught : List ErrorClass} {r : Except Exit α} {a : α}
    (h : handled caught r = .ok a) : r = .ok a := by
  cases r with
  | ok b => exact h
  | error e => cases e <;> cases h

/-- The result is the one that the log has for a command of the call. -/
def Confirms (c : Context) (s : ReplicatedTree) (ret : Ret)
    (s' : ReplicatedTree) : Prop :=
  ∃ command, OwnCommand c command ∧ (apply command (afterOthers c s)).1 = .ok ret ∧
    s' = (apply command (afterOthers c s)).2

theorem commitRaw_confirms {command : Command} (hown : OwnCommand c command) (s : Serving) :
    wp (commitRaw c command >>= resultOf) s fun r s' => ∀ ret, r = .ok ret →
      Confirms c s.replicated ret s'.replicated := by
  have hraw : wp (commitRaw c command) s fun r s' => ∀ outcome, r = .ok (.ok outcome) →
      outcome = (apply command (afterOthers c s.replicated)).1 ∧
      s'.replicated = (apply command (afterOthers c s.replicated)).2 := by
    refine wp_modify ?_
    cases c.fate with
    | confirmed =>
        intro outcome ho
        exact ⟨(Except.ok.inj (Except.ok.inj ho)).symm, rfl⟩
    | unavailable | unknown reason applied =>
        intro outcome ho
        cases Except.ok.inj ho
  refine wp_call hraw ?_ ?_
  · intro o s' ho ret hr
    cases o with
    | error reason => cases hr
    | ok outcome =>
        obtain ⟨houtcome, hs'⟩ := ho outcome rfl
        cases outcome with
        | error cls message => cases hr
        | ok ret' =>
            obtain rfl : ret' = ret := Except.ok.inj hr
            exact ⟨command, hown, houtcome.symm, hs'⟩
  · exact fun e s' _ ret hr => by cases hr

theorem commit_confirms (h : Authentic c) {p : Principal} (htoken : c.token = .ok p)
    {opId : String} {μ : Mutation} (hpermitted : Permitted p μ)
    (hdrawn : Drawn c μ) (s : Serving) :
    wp (commit c opId μ) s fun r s' => ∀ ret, r = .ok ret →
      Confirms c s.replicated ret s'.replicated := by
  have refuse : ∀ (e : Exit) (s' : Serving) (ret : Ret), Except.error e = Except.ok ret →
      Confirms c s.replicated ret s'.replicated := fun e s' ret hr => by cases hr
  refine wp_call (reads_abortIf s) ?_ fun e s' _ => refuse e s'
  rintro _ s₁ ⟨h₁, _⟩
  refine wp_call (reads_abortIf s₁) ?_ fun e s' _ => refuse e s'
  rintro _ s₂ ⟨h₂, _⟩
  refine wp_call (reads_authenticate h.authentication c.tokenAtCommit s₂) ?_ fun e s' _ =>
    refuse e s'
  rintro session s₃ ⟨h₃, hsession⟩
  obtain ⟨p', htoken', rfl⟩ := hsession session rfl
  rw [← h₁, ← h₂, ← h₃]
  exact commitRaw_confirms (ownCommand htoken htoken' hpermitted hdrawn) s₃

/-- An answer that is written from the result of a commit. -/
theorem rested_commit (h : Authentic c) {p : Principal} (htoken : c.token = .ok p)
    {caught : List ErrorClass} {opId : String} {μ : Mutation} {f : Ret → Handler Response}
    (hpermitted : Permitted p μ) (hdrawn : Drawn c μ)
    (hf : ∀ ret, Reads (fun a => signed a = handedBy ret) (f ret)) :
    Rested c (tryExcept caught (commit c opId μ) >>= f) := by
  intro s
  have hguarded : wp (tryExcept caught (commit c opId μ)) s fun r s' => ∀ ret, r = .ok ret →
      Confirms c s.replicated ret s'.replicated := by
    intro ret hr
    exact commit_confirms h htoken hpermitted hdrawn s ret (eq_ok_of_handled hr)
  refine wp_call hguarded ?_ fun e s' _ a ha => by cases ha
  intro ret s' hret
  obtain ⟨command, hown, hok, happly⟩ := hret ret rfl
  refine wp_mono (hf ret s') ?_
  rintro r s'' ⟨hsame, hsigned⟩ a ha
  rw [hsigned a ha, hsame, happly]
  exact .outcome hown hok

theorem reads_answer {P : Response → Prop} {a : Response} (h : P a) :
    Reads P (pure a : Handler Response) := by
  refine fun _ => ⟨rfl, fun b hb => ?_⟩
  rw [← Except.ok.inj hb]
  exact h

theorem signed_locate (blockSize : Int) (placements : List (String × List String))
    (remaining : Int) : signed (.locations (locate blockSize placements remaining))
      = placements.map fun b => ⟨b.1, "write", b.2⟩ := by
  induction placements generalizing remaining with
  | nil => rfl
  | cons b placements ih => exact congrArg (List.cons ⟨b.1, "write", b.2⟩) (ih _)

theorem rested_listBlocks (h : Authentic c) (path : String) :
    Rested c (serveListBlocks c path) := by
  refine rested_before (reads_authenticate h.authentication _) ?_
  rintro session ⟨p, htoken, rfl⟩
  refine rested_before reads_readBarrier fun _ _ => fun s => ?_
  have hread : wp (tryExcept [.pathNotFoundError, .invalidPathError, .accessDeniedError]
      (readTree (listBlocks path (callerOf (some p))))) s fun r s' =>
      s'.replicated = s.replicated ∧ ∀ blocks, r = .ok blocks →
        (listBlocks path (sessionCaller p) s.replicated.tree).1 = .ok blocks := by
    obtain ⟨hsame, hok⟩ := reads_ofPure (listBlocks path (callerOf (some p)) s.replicated.tree).1 s
    exact ⟨hsame, fun blocks hr => hok blocks (eq_ok_of_handled hr)⟩
  refine wp_call hread ?_ fun e s' _ a ha => by cases ha
  rintro blocks s' ⟨hsame, hblocks⟩ a ha
  obtain rfl := Except.ok.inj ha
  show Rests c s.replicated _ s'.replicated
  rw [hsame]
  exact .listed htoken (hblocks blocks rfl)

theorem rested_beginUpload (h : Authentic c) (path : String) (sizeBytes : Int) (opId : String) :
    Rested c (serveBeginUpload c path sizeBytes opId) := by
  refine rested_before (reads_authenticate h.authentication _) ?_
  rintro session ⟨p, htoken, rfl⟩
  refine rested_before reads_abortIf fun _ _ => rested_before (reads_ofPure _) fun count _ => ?_
  refine rested_before (reads_drawn count) fun proposed hdrawn => ?_
  refine rested_commit h htoken (fun _ hcaller => (Option.some.inj hcaller).symm)
    ⟨count, hdrawn⟩ fun ret => ?_
  refine (reads_unpack _ _).bind fun stale _ => (reads_deleteBlocks stale).bind fun _ _ => ?_
  refine (reads_unpack _ _).bind fun placements hret => reads_answer ?_
  rw [signed_locate]
  cases ret with
  | uploadBegun placements' stale' =>
      obtain rfl := Except.ok.inj hret
      rfl
  | none | removed | lockTaken | writeBegun | writeCommitted | writeAborted => cases hret

theorem rested_beginWrite (h : Authentic c) (path : String) (offset length : Int)
    (lockId opId : String) : Rested c (serveBeginWrite c path offset length lockId opId) := by
  refine rested_before (reads_authenticate h.authentication _) ?_
  rintro session ⟨p, htoken, rfl⟩
  refine rested_before reads_readBarrier fun _ _ => ?_
  refine rested_before (P := fun _ => True) (reads_tryExcept ?_) fun planned _ => ?_
  · refine (reads_readTree _).bind fun layout _ => (reads_ofPure _).bind fun plan _ => ?_
    exact reads_pure
  refine rested_before (reads_drawn _) fun proposed hdrawn => ?_
  refine rested_commit h htoken (fun _ hcaller => (Option.some.inj hcaller).symm)
    ⟨_, proposed, hdrawn, drawn_zip _ _⟩ fun ret => ?_
  refine (reads_unpack _ _).bind ?_
  rintro ⟨writeId, baseVersion, blockSize, slots⟩ hret
  refine reads_answer ?_
  cases ret with
  | writeBegun writeId' version' blockSize' slots' =>
      obtain ⟨_, hrest⟩ := Prod.mk.inj (Except.ok.inj hret)
      obtain ⟨_, hrest⟩ := Prod.mk.inj hrest
      obtain ⟨_, rfl⟩ := Prod.mk.inj hrest
      rfl
  | none | removed | lockTaken | uploadBegun | writeCommitted | writeAborted => cases hret

/-- **WHAT AN ANSWER SIGNS RESTS ON THE TREE**: on a listing of it, or on a
    result of the log for a command of the call. -/
theorem rested_handler (h : Authentic c) (request : Request) :
    Rested c (handler c request) := by
  have hdone : Unsigned (pure .done) := unsigned_pure rfl
  cases request with
  | listBlocks path => exact rested_listBlocks h path
  | beginUpload path sizeBytes opId => exact rested_beginUpload h path sizeBytes opId
  | beginWrite path offset length lockId opId =>
      exact rested_beginWrite h path offset length lockId opId
  | listDir path =>
      exact (unsigned_bind fun _ => unsigned_bind fun _ => unsigned_bind fun _ =>
        unsigned_pure rfl).rested
  | makeDir | removeDir | confirmBlock | completeUpload | renewLock | unlock | chmod | chown =>
      exact (unsigned_bind fun _ => unsigned_bind fun _ => hdone).rested
  | remove | abortWrite =>
      exact (unsigned_bind fun _ => unsigned_bind fun _ => unsigned_bind fun _ =>
        unsigned_bind fun _ => hdone).rested
  | abortUpload =>
      exact (unsigned_bind fun _ => unsigned_bind fun _ => unsigned_bind fun _ =>
        unsigned_bind fun _ => unsigned_bind fun _ => hdone).rested
  | lock =>
      exact (unsigned_bind fun _ => unsigned_bind fun _ => unsigned_bind fun _ =>
        unsigned_pure rfl).rested
  | commitWrite =>
      exact (unsigned_bind fun _ => unsigned_bind fun _ => unsigned_bind fun _ =>
        unsigned_bind fun _ => unsigned_pure rfl).rested
  | login username password =>
      refine (unsigned_bind fun _ => unsigned_bind fun _ => unsigned_bind fun s => ?_).rested
      cases DfshaPasswordChange.verifiedUser c.scrypt s username password with
      | none => exact unsigned_raise
      | some user => exact unsigned_pure rfl
  | createUser | changePassword =>
      exact (unsigned_bind fun _ => unsigned_bind fun _ => unsigned_bind fun _ => hdone).rested
  | dataNodeInventory address =>
      refine (unsigned_bind fun _ => unsigned_bind fun _ => ?_).rested
      cases c.storedBlocks with
      | ok blocks => exact unsigned_pure rfl
      | error details => exact unsigned_raise

end Answers

/-- The client gets the response that the handler returns. -/
theorem ok_of_endingOf {r : Except Exit Response} {response : Response}
    (h : endingOf r = .ok response) : r = .ok response := by
  cases r with
  | ok response' => exact congrArg Except.ok (Except.ok.inj h)
  | error e => cases e <;> cases h

/-! ## What is sent -/

/-- The `DeleteBlock` calls for these blocks. -/
def toSend (blocks : List BlockRecord) : List (String × String) :=
  blocks.flatMap fun b => b.datanodeAddresses.map (Prod.mk b.blockId)

theorem mem_toSend {blocks : List BlockRecord} {d : String × String} (h : d ∈ toSend blocks) :
    ∃ b ∈ blocks, d.1 = b.blockId ∧ d.2 ∈ b.datanodeAddresses := by
  obtain ⟨b, hb, hd⟩ := List.mem_flatMap.mp h
  obtain ⟨a, ha, rfl⟩ := List.mem_map.mp hd
  exact ⟨b, hb, rfl, ha⟩

/-- What is pending at a path are the blocks of an upload. -/
theorem mem_pendingBlocks {s : ControlTree} {path : String} {b : BlockRecord}
    (h : b ∈ pendingBlocks s path) : ∃ ps f old, s.root.view ps = some (.file f) ∧
      f.state = .pending ∧ old ∈ f.blocks ∧ b = { old with confirmed := false } := by
  rw [pendingBlocks] at h
  have hfound := DfshaControlTreeEffect.getPendingFile_found path s
  unfold wp at hfound
  cases hr : (getPendingFile path s).1 with
  | error e =>
      rw [hr] at h
      cases h
  | ok a =>
      rw [hr] at h hfound
      obtain ⟨_, hnode, hpending⟩ := hfound.2 a rfl
      obtain ⟨old, hold, rfl⟩ := List.mem_map.mp h
      exact ⟨a.1, a.2, old, hnode, hpending, hold, rfl⟩

section Sending

variable {α β : Type} {c : Context}

/-- The action sends nothing. -/
def Silent (x : Handler α) : Prop := ∀ s, wp x s fun _ s' => s'.deletions = s.deletions

theorem Silent.bind {x : Handler α} {f : α → Handler β} (hx : Silent x)
    (hf : ∀ a, Silent (f a)) : Silent (x >>= f) := by
  intro s
  exact wp_call (hx s) (fun a s' hsame => wp_mono (hf a s') fun _ _ h => h.trans hsame)
    fun e s' hsame => hsame

theorem silent_pure {a : α} : Silent (pure a : Handler α) := fun _ => rfl

theorem silent_gets (g : Serving → α) : Silent (gets g : Handler α) := fun _ => rfl

theorem silent_raise {e : Exit} : Silent (raise e : Handler α) := fun _ => rfl

theorem silent_raiseError {e : PyError} : Silent (raiseError e : Handler α) := fun _ => rfl

theorem silent_abortIf {cond : Prop} [Decidable cond] {e : RpcError} :
    Silent (abortIf cond e) := by
  unfold abortIf raiseIf
  by_cases hcond : cond
  · rw [if_pos hcond]
    exact silent_raise
  · rw [if_neg hcond]
    exact fun _ => rfl

theorem silent_raiseErrorIf {cond : Prop} [Decidable cond] {e : PyError} :
    Silent (raiseErrorIf cond e) := by
  unfold raiseErrorIf
  by_cases hcond : cond
  · rw [if_pos hcond]
    exact silent_raiseError
  · rw [if_neg hcond]
    exact silent_pure

theorem silent_ofPure (y : Except PyError α) : Silent (ofPure y) := by
  cases y with
  | ok a => exact silent_pure
  | error e => exact silent_raiseError

theorem silent_readTree (x : TreeM α) : Silent (readTree x) :=
  (silent_gets _).bind fun _ => silent_ofPure _

theorem silent_tryExcept {caught : List ErrorClass} {x : Handler α} (h : Silent x) :
    Silent (tryExcept caught x) := h

theorem silent_readBarrier : Silent (readBarrier c) := silent_abortIf.bind fun _ => silent_abortIf

theorem silent_authenticate (token : Except String Principal) :
    Silent (authenticate c token) := by
  unfold authenticate
  by_cases hauth : c.authentication = true
  · rw [if_pos hauth]
    cases token with
    | ok p => exact silent_pure
    | error message => exact silent_raise
  · rw [if_neg hauth]
    exact silent_pure

theorem silent_commitRaw (command : Command) : Silent (commitRaw c command) := by
  intro s
  refine wp_modify ?_
  cases c.fate with
  | confirmed => exact rfl
  | unavailable => exact rfl
  | unknown reason applied => cases applied <;> exact rfl

theorem silent_resultOf (outcome : Except String Outcome) : Silent (resultOf outcome) := by
  cases outcome with
  | error reason => exact silent_raise
  | ok outcome =>
      cases outcome with
      | ok result => exact silent_pure
      | error cls message => exact silent_raise

theorem silent_commit (opId : String) (μ : Mutation) : Silent (commit c opId μ) :=
  silent_abortIf.bind fun _ => silent_abortIf.bind fun _ => (silent_authenticate _).bind fun _ =>
    (silent_commitRaw _).bind fun outcome => silent_resultOf outcome

theorem silent_unpack (view : Ret → Except ShapeError α) (ret : Ret) :
    Silent (unpack view ret) := silent_ofPure _

theorem silent_proposeBlocks (n : Nat) : Silent (proposeBlocks c n) := by
  unfold proposeBlocks
  cases c.blocks n with
  | ok proposed => exact silent_pure
  | error message => exact silent_raise

theorem silent_requireSession (session : Option Principal) : Silent (requireSession session) := by
  cases session with
  | some p => exact silent_pure
  | none => exact silent_raise

theorem silent_checkPassword (password : String) : Silent (checkPassword password) := by
  unfold checkPassword
  cases DfshaPasswordChange.checkNewPassword password with
  | ok _ => exact silent_pure
  | error refusal =>
      cases refusal with
      | domain e => exact silent_raiseError
      | missingOpId => exact silent_pure

theorem silent_checkMayChange (p : Principal) (target currentPassword : String) :
    Silent (checkMayChange c p target currentPassword) := by
  unfold checkMayChange
  by_cases htarget : target ≠ p.username
  · rw [if_pos htarget]
    exact silent_raiseErrorIf
  · rw [if_neg htarget]
    exact silent_readBarrier.bind fun _ => (silent_gets _).bind fun _ => silent_raiseErrorIf

/-- The action sends deletions of these blocks, or none. -/
def Sends (blocks : List BlockRecord) (x : Handler α) : Prop :=
  ∀ s, wp x s fun _ s' => s'.replicated = s.replicated ∧
    (s'.deletions = s.deletions ∨ s'.deletions = s.deletions ++ toSend blocks)

/-- A result is taken apart, and its blocks are deleted before the answer is made. -/
theorem sends_unpacked {view : Ret → Except ShapeError (List BlockRecord)} {ret : Ret}
    {blocks : List BlockRecord} {x : Handler α} (h : ∀ bs, view ret = .ok bs → bs = blocks)
    (hreads : Reads (fun _ => True) x) (hsilent : Silent x) :
    Sends blocks (unpack view ret >>= fun bs => deleteBlocks bs >>= fun _ => x) := by
  intro s
  have htaken : wp (unpack view ret) s fun r s' =>
      (s'.replicated = s.replicated ∧ ∀ bs, r = .ok bs → view ret = .ok bs) ∧
      s'.deletions = s.deletions := ⟨reads_unpack view ret s, silent_unpack view ret s⟩
  refine wp_call htaken ?_ fun e s' hkept => ⟨hkept.1.1, .inl hkept.2⟩
  rintro bs s' ⟨⟨hsame, hview⟩, hdeletions⟩
  rw [h bs (hview bs rfl), ← hsame, ← hdeletions]
  refine wp_modify ?_
  exact ⟨(hreads _).1, .inr (hsilent _)⟩

/-- What the deletions that an RPC sends rest on. -/
inductive Discards (c : Context) (s : ReplicatedTree) :
    List (String × String) → ReplicatedTree → Prop
  | nothing {s' : ReplicatedTree} : Discards c s [] s'
  -- the result of the log for the command of the call
  | outcome {command : Command} {ret : Ret} (hown : OwnCommand c command)
      (hret : (apply command (afterOthers c s)).1 = .ok ret) :
      Discards c s (toSend (toDelete ret)) (apply command (afterOthers c s)).2
  -- the upload that was pending when the RPC began
  | pending {path : String} {s' : ReplicatedTree} :
      Discards c s (toSend (pendingBlocks s.tree path)) s'

def Deletes (c : Context) (x : Handler α) : Prop :=
  ∀ s, wp x s fun _ s' => ∃ sent, s'.deletions = s.deletions ++ sent ∧
    Discards c s.replicated sent s'.replicated

theorem Silent.deletes {x : Handler α} (h : Silent x) : Deletes c x := fun s =>
  wp_mono (h s) fun _ _ hsame => ⟨[], by rw [hsame, List.append_nil], .nothing⟩

theorem deletes_before {P : α → Prop} {x : Handler α} {f : α → Handler β} (hx : Reads P x)
    (hsilent : Silent x) (hf : ∀ a, P a → Deletes c (f a)) : Deletes c (x >>= f) := by
  intro s
  have hboth : wp x s fun r s' => (s'.replicated = s.replicated ∧ ∀ a, r = .ok a → P a) ∧
      s'.deletions = s.deletions := ⟨hx s, hsilent s⟩
  refine wp_call hboth ?_ ?_
  · rintro a s' ⟨⟨hsame, hP⟩, hdeletions⟩
    have h := hf a (hP a rfl) s'
    rw [hsame, hdeletions] at h
    exact h
  · rintro e s' ⟨_, hdeletions⟩
    exact ⟨[], by rw [hdeletions, List.append_nil], .nothing⟩

/-- Deletions that are read off the result of a commit. -/
theorem deletes_commit (h : Authentic c) {p : Principal} (htoken : c.token = .ok p)
    {caught : List ErrorClass} {opId : String} {μ : Mutation} {f : Ret → Handler β}
    (hpermitted : Permitted p μ) (hdrawn : Drawn c μ)
    (hf : ∀ ret, Sends (toDelete ret) (f ret)) :
    Deletes c (tryExcept caught (commit c opId μ) >>= f) := by
  intro s
  have hboth : wp (tryExcept caught (commit c opId μ)) s fun r s' =>
      (∀ ret, r = .ok ret → Confirms c s.replicated ret s'.replicated) ∧
      s'.deletions = s.deletions :=
    ⟨fun ret hr => commit_confirms h htoken hpermitted hdrawn s ret (eq_ok_of_handled hr),
      silent_commit opId μ s⟩
  refine wp_call hboth ?_ ?_
  · rintro ret s' ⟨hret, hdeletions⟩
    obtain ⟨command, hown, hok, happly⟩ := hret ret rfl
    refine wp_mono (hf ret s') ?_
    rintro r s'' ⟨hsame, hnone | hsent⟩
    · exact ⟨[], by rw [hnone, hdeletions, List.append_nil], .nothing⟩
    · rw [hsame, happly]
      exact ⟨_, by rw [hsent, hdeletions], .outcome hown hok⟩
  · rintro e s' ⟨_, hdeletions⟩
    exact ⟨[], by rw [hdeletions, List.append_nil], .nothing⟩

theorem deletes_authenticated (h : Authentic c) {f : Option Principal → Handler β}
    (hf : ∀ p, c.token = .ok p → Deletes c (f (some p))) :
    Deletes c (authenticate c c.token >>= f) := by
  refine deletes_before (reads_authenticate h.authentication _) (silent_authenticate _) ?_
  rintro session ⟨p, htoken, rfl⟩
  exact hf p htoken

/-- A result of another operation under a reused id is taken apart the same way,
    where it can be. -/
theorem toDelete_of_blocksOf {ret : Ret} {blocks : List BlockRecord}
    (h : blocksOf ret = .ok blocks) : blocks = toDelete ret := by
  cases ret with
  | removed | writeAborted => exact (Except.ok.inj h).symm
  | lockTaken lockId =>
      rw [blocksOf] at h
      by_cases hempty : lockId = ""
      · rw [if_pos hempty] at h
        exact (Except.ok.inj h).symm
      · rw [if_neg hempty] at h
        cases h
  | none | uploadBegun | writeBegun | writeCommitted => cases h

theorem toDelete_of_secondOf {ret : Ret} {blocks : List BlockRecord}
    (h : secondOf ret = .ok blocks) : blocks = toDelete ret := by
  cases ret with
  | uploadBegun | writeCommitted => exact (Except.ok.inj h).symm
  | none | removed | lockTaken | writeBegun | writeAborted => cases h

theorem deletes_beginUpload (h : Authentic c) (path : String) (sizeBytes : Int)
    (opId : String) : Deletes c (serveBeginUpload c path sizeBytes opId) := by
  refine deletes_authenticated h fun p htoken => ?_
  refine deletes_before reads_abortIf silent_abortIf fun _ _ => ?_
  refine deletes_before (reads_ofPure _) (silent_ofPure _) fun count _ => ?_
  refine deletes_before (reads_drawn count) (silent_proposeBlocks count) fun proposed hdrawn => ?_
  refine deletes_commit h htoken (fun _ hcaller => (Option.some.inj hcaller).symm)
    ⟨count, hdrawn⟩ fun ret => ?_
  exact sends_unpacked (fun _ hview => toDelete_of_secondOf hview)
    ((reads_unpack _ _).bind fun _ _ => reads_pure) ((silent_unpack _ _).bind fun _ => silent_pure)

theorem deletes_abortUpload (h : Authentic c) (path opId : String) :
    Deletes c (serveAbortUpload c path opId) := by
  refine deletes_authenticated h fun p htoken => ?_
  refine deletes_before reads_readBarrier silent_readBarrier fun _ _ => fun s => wp_gets ?_
  have hsilent : wp (tryExcept
      [.pathNotFoundError, .notADirectoryError, .invalidPathError, .accessDeniedError]
      (commit c opId (.abortUpload path (callerOf (some p))))) s fun _ s' =>
      s'.deletions = s.deletions := silent_commit _ _ s
  refine wp_call hsilent ?_ ?_
  · intro _ s' hdeletions
    exact ⟨_, congrArg (· ++ toSend (pendingBlocks s.replicated.tree path)) hdeletions, .pending⟩
  · intro e s' hdeletions
    exact ⟨[], by rw [hdeletions, List.append_nil], .nothing⟩

/-- **WHAT AN RPC DELETES RESTS ON THE TREE**: on a result of the log for a
    command of the call, or on the upload that was pending when it began. -/
theorem deletes_handler (h : Authentic c) (request : Request) :
    Deletes c (handler c request) := by
  have hguarded : ∀ (caught : List ErrorClass) (opId : String) (μ : Mutation),
      Silent (tryExcept caught (commit c opId μ)) := fun _ opId μ => silent_commit opId μ
  have hplain : ∀ {caught : List ErrorClass} {opId : String} {μ : Option Principal → Mutation},
      Deletes c (authenticate c c.token >>= fun principal =>
        tryExcept caught (commit c opId (μ principal)) >>= fun _ => pure Response.done) :=
    Silent.deletes
      ((silent_authenticate _).bind fun _ => (hguarded _ _ _).bind fun _ => silent_pure)
  cases request with
  | beginUpload path sizeBytes opId => exact deletes_beginUpload h path sizeBytes opId
  | abortUpload path opId => exact deletes_abortUpload h path opId
  | remove path opId =>
      refine deletes_authenticated h fun p htoken => ?_
      refine deletes_commit h htoken (fun _ hcaller => (Option.some.inj hcaller).symm) trivial
        fun ret => ?_
      exact sends_unpacked (fun _ hview => toDelete_of_blocksOf hview) reads_pure silent_pure
  | commitWrite path writeId baseVersion lockId slots opId =>
      refine deletes_authenticated h fun p htoken => ?_
      refine deletes_commit h htoken (fun _ hcaller => (Option.some.inj hcaller).symm) trivial
        fun ret => ?_
      exact sends_unpacked (fun _ hview => toDelete_of_secondOf hview)
        ((reads_unpack _ _).bind fun _ _ => reads_pure)
        ((silent_unpack _ _).bind fun _ => silent_pure)
  | abortWrite path writeId lockId opId =>
      refine deletes_authenticated h fun p htoken => ?_
      refine deletes_commit h htoken (fun _ hcaller => by cases hcaller) trivial fun ret => ?_
      exact sends_unpacked (fun _ hview => toDelete_of_blocksOf hview) reads_pure silent_pure
  | listDir | listBlocks =>
      exact Silent.deletes ((silent_authenticate _).bind fun _ => silent_readBarrier.bind fun _ =>
        (silent_tryExcept (silent_readTree _)).bind fun _ => silent_pure)
  | makeDir | removeDir | confirmBlock | completeUpload | renewLock | unlock | chmod | chown =>
      exact hplain
  | lock =>
      exact Silent.deletes ((silent_authenticate _).bind fun _ => (hguarded _ _ _).bind fun _ =>
        (silent_unpack _ _).bind fun _ => silent_pure)
  | beginWrite path offset length lockId opId =>
      refine Silent.deletes ((silent_authenticate _).bind fun _ => silent_readBarrier.bind fun _ =>
        Silent.bind (silent_tryExcept ?_) fun _ => (silent_proposeBlocks _).bind fun _ =>
        (hguarded _ _ _).bind fun _ => (silent_unpack _ _).bind fun _ => silent_pure)
      exact (silent_readTree _).bind fun _ => (silent_ofPure _).bind fun _ => silent_pure
  | login username password =>
      refine Silent.deletes (silent_abortIf.bind fun _ => silent_readBarrier.bind fun _ =>
        (silent_gets _).bind fun s => ?_)
      cases DfshaPasswordChange.verifiedUser c.scrypt s username password with
      | none => exact silent_raise
      | some user => exact silent_pure
  | createUser =>
      refine Silent.deletes ((silent_authenticate _).bind fun _ =>
        (silent_requireSession _).bind fun _ => Silent.bind (silent_tryExcept ?_) fun _ =>
        silent_pure)
      exact silent_raiseErrorIf.bind fun _ => (silent_checkPassword _).bind fun _ =>
        silent_raiseErrorIf.bind fun _ => silent_commit _ _
  | changePassword =>
      refine Silent.deletes ((silent_authenticate _).bind fun _ =>
        (silent_requireSession _).bind fun _ => Silent.bind (silent_tryExcept ?_) fun _ =>
        silent_pure)
      exact (silent_checkMayChange _ _ _).bind fun _ => (silent_checkPassword _).bind fun _ =>
        silent_commit _ _
  | dataNodeInventory address =>
      refine Silent.deletes ((silent_authenticate _).bind fun _ =>
        Silent.bind (silent_tryExcept (silent_raiseErrorIf.bind fun _ => silent_raiseErrorIf))
          fun _ => ?_)
      cases c.storedBlocks with
      | ok blocks => exact silent_pure
      | error details => exact silent_raise

end Sending

end DfshaRpcAnswers
