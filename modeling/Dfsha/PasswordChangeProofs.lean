import Dfsha.OperationKeyProofs

/-! # Changing a password

    A user changes its own password with the current one; an admin resets that
    of another user without it.  `ChangePassword` verifies the current password
    on the leader, after a barrier and before the commit, because scrypt is
    too slow for the state machine; the mutation that it then commits says
    nothing about the password it was verified against.

    Between the two, other changes of the same password can be applied.  What
    is in force at the commit is what the last of them set, or what was
    verified if there was none.  So a change that was overtaken is applied
    over a newer password that the caller never presented. -/

namespace DfshaPasswordChange

open InsertionDict RaisingAction TransitionSystem TransitionSystem.System
open DfshaPath DfshaControlTree DfshaMetadata DfshaControlTreeEffect
open DfshaReplicatedTree DfshaOperationKey

def maxPasswordChars : Nat := 1024

structure ChangePasswordRequest where
  username : String
  currentPassword : String
  newPassword : String
  opId : String

/-- How a handler gives up: with a domain error, or with the status
    INVALID_ARGUMENT of a request without an operation id. -/
inductive Refusal where
  | domain (e : PyError)
  | missingOpId

/-- What a `ChangePassword` call is about to commit, and the current password
    it presented if the password is its own. -/
structure Change where
  key : String
  target : String
  passwordHash : List UInt8
  salt : List UInt8
  presented : Option String
deriving DecidableEq

def Change.command (c : Change) : Command where
  opId := c.key
  call := .mutation (.changePassword c.target c.passwordHash c.salt)

section Model

-- `hashlib.scrypt` with the parameters of the module, of a password and a salt
variable (scrypt : String → List UInt8 → List UInt8)

/-- `hash_password`, with the salt that it draws. -/
def hashPassword (password : String) (salt : List UInt8) : List UInt8 × List UInt8 :=
  (scrypt password salt, salt)

def verifyPassword (password : String) (passwordHash salt : List UInt8) : Bool :=
  scrypt password salt = passwordHash

/-- The user, if the password matches.  For an unknown user the code verifies
    a decoy and answers the same. -/
def verifiedUser (s : ControlTree) (username password : String) : Option UserRecord :=
  match s.users.get? username with
  | none => none
  | some user =>
      if verifyPassword scrypt password user.passwordHash user.salt then some user else none

def checkNewPassword (password : String) : Except Refusal Unit :=
  if password = "" then
    .error (.domain ⟨.invalidPathError, "la contraseña no puede estar vacía"⟩)
  else if password.length > maxPasswordChars then
    .error (.domain ⟨.invalidPathError,
      s!"la contraseña no puede pasar de {maxPasswordChars} caracteres"⟩)
  else .ok ()

/-- The check of `ChangePassword` on who may do it. -/
def checkAllowed (s : ControlTree) (principal : Principal) (target currentPassword : String) :
    Except Refusal Unit :=
  if target ≠ principal.username then
    if principal.isAdmin then .ok ()
    else .error (.domain ⟨.accessDeniedError,
      "solo un admin puede cambiar la contraseña de otro usuario"⟩)
  else if (verifiedUser scrypt s target currentPassword).isNone then
    .error (.domain ⟨.accessDeniedError, "contraseña actual incorrecta"⟩)
  else .ok ()

/-- `ChangePassword` up to its commit, reading the tree `s`. -/
def prepare (s : ControlTree) (principal : Principal) (request : ChangePasswordRequest)
    (salt : List UInt8) : Except Refusal Change := do
  let target := if request.username ≠ "" then request.username else principal.username
  checkAllowed scrypt s principal target request.currentPassword
  checkNewPassword request.newPassword
  let hashed := hashPassword scrypt request.newPassword salt
  if request.opId = "" then .error .missingOpId
  else .ok {
    key := commitKey (some principal) request.opId
    target
    passwordHash := hashed.1
    salt := hashed.2
    presented := if target = principal.username then some request.currentPassword else none }

/-- The replicated tree, the commands executed so far in the order of the log,
    and the calls that have been checked and not yet committed, with the
    position of the log at which they were. -/
structure Cluster where
  replicated : ReplicatedTree
  log : List Command
  pending : Nat → Option (Change × Nat)

def Cluster.empty : Cluster := ⟨ReplicatedTree.empty, [], fun _ => none⟩

/-- The next command of the log: it is executed, or answered from memory. -/
def Cluster.append (s : Cluster) (c : Command) : Cluster :=
  { s with
    replicated := (apply c s.replicated).2
    log := if s.replicated.appliedOps.get? c.opId = none then s.log ++ [c] else s.log }

inductive Event where
  -- a `ChangePassword` call reads the tree and gets to its commit, or fails
  | call (id : Nat) (principal : Principal) (request : ChangePasswordRequest)
      (salt : List UInt8)
  -- its command is applied
  | commit (id : Nat)
  -- any other command, of another RPC or of the leader itself
  | command (c : Command)

/-- Only `ChangePassword` commits a `change_password`. -/
def isChange (c : Command) : Bool :=
  match c.call with
  | .mutation (.changePassword ..) => true
  | _ => false

def nextState (s : Cluster) : Event → Option Cluster
  | .call id principal request salt =>
      if (s.pending id).isSome then none
      else match prepare scrypt s.replicated.tree principal request salt with
        | .error _ => some s
        | .ok change => some { s with
            pending := Function.update s.pending id (some (change, s.log.length)) }
  | .commit id =>
      match s.pending id with
      | none => none
      | some (change, _) => some { s.append change.command with
          pending := Function.update s.pending id none }
  | .command c => if isChange c then none else some (s.append c)

/-- The runs of the cluster: calls and commands in any order. -/
def cluster : System Cluster Event := ofPartial Cluster.empty (nextState scrypt)

/-! ## The property and its condition -/

/-- The password that an executed command sets for a user. -/
def changeOf (username : String) (c : Command) : Option (List UInt8 × List UInt8) :=
  match c.call with
  | .mutation (.changePassword username' passwordHash salt) =>
      if username' = username then some (passwordHash, salt) else none
  | _ => none

/-- The password that the last change among these commands sets. -/
def lastChange (username : String) (cmds : List Command) :
    Option (List UInt8 × List UInt8) :=
  (cmds.filterMap (changeOf username)).getLast?

/-- The event executes the change of a call that presented a password. -/
structure AppliesOwn (s : Cluster) (e : Event) (change : Change) (position : Nat)
    (presented : String) : Prop where
  commit : ∃ id, e = .commit id ∧ s.pending id = some (change, position)
  own : change.presented = some presented
  executed : s.replicated.appliedOps.get? change.key = none

/-- A self-service change is applied only over the password it presented. -/
def ReplacesPresented (s : Cluster) (e : Event) : Prop :=
  ∀ change position presented, AppliesOwn s e change position presented →
    ∃ user, s.replicated.tree.users.get? change.target = some user ∧
      verifyPassword scrypt presented user.passwordHash user.salt = true

/-- Since the call was checked no change of the same user has been applied, or
    the last of them set the password that the call presented. -/
def NotOvertaken (s : Cluster) (e : Event) : Prop :=
  ∀ change position presented, AppliesOwn s e change position presented →
    ∀ hashed, lastChange change.target (s.log.drop position) = some hashed →
      verifyPassword scrypt presented hashed.1 hashed.2 = true

end Model

/-! ## Users -/

/-- A user keeps its record, unless its password is changed. -/
theorem user_effect {μ : Mutation} {m m' : Metadata} {r : Except PyError Ret}
    (he : Effect μ m r m') {u : String} {user : UserRecord} (hu : m.user u = some user)
    (hμ : ∀ passwordHash salt, μ ≠ .changePassword u passwordHash salt) :
    m'.user u = some user := by
  cases he with
  | makeDir | removeDir | beginUpload | confirmBlock | completeUpload | abortUpload
  | updateBlockReplicas | setAttrsDir | setAttrsFile => exact hu
  | acquireLock | joinLock | renewLock | releaseLock =>
      rw [Metadata.user_setLock, Metadata.user_aliveLocks]
      exact hu
  | removeFile | releaseLast | releaseGone =>
      exact (congrFun (pruned_aliveLocks _ _ _).user u).trans hu
  | beginWrite | beginWriteLost =>
      rw [Metadata.user_setWrite, (pruned_writeTable _ _ _).user]
      exact hu
  | commitWrite =>
      rw [Metadata.user_dropWrite, Metadata.user_setFile, (pruned_writeTable _ _ _).user]
      exact hu
  | abortWrite | abortGone =>
      exact (congrFun (pruned_aliveWrites _ _).user u).trans hu
  | createUser hname hgroups hnew =>
      refine (Function.update_of_ne ?_ _ _).trans hu
      rintro rfl
      rw [hu] at hnew
      cases hnew
  | changePassword huser =>
      refine (Function.update_of_ne ?_ _ _).trans hu
      rintro rfl
      exact hμ _ _ rfl
  | refused hpruned => exact (congrFun hpruned.user u).trans hu

/-- A change of the password of a user who exists takes place. -/
theorem exec_changePassword {s : ControlTree} {u : String} {user : UserRecord}
    (hu : s.users.get? u = some user) (passwordHash salt : List UInt8) :
    (exec (.changePassword u passwordHash salt) s).2.users.get? u
      = some { user with passwordHash, salt } := by
  have hwp : wp (exec (.changePassword u passwordHash salt)) s fun _ s' =>
      s'.users.get? u = some { user with passwordHash, salt } := by
    refine wp_bind (wp_gets ?_)
    rw [show (id s).users.get? u = some user from hu]
    refine wp_modify_last ?_
    show (s.users.insert u _).get? u = _
    rw [Dict.get?_insert, if_pos rfl]
  exact hwp

/-- **WHAT ONE EXECUTED COMMAND DOES TO A USER.** -/
theorem user_execCall {c : Command} {s : ControlTree} {u : String} {user : UserRecord}
    (hu : s.users.get? u = some user) :
    ∃ user', (execCall c.call s).2.users.get? u = some user' ∧
      (user'.passwordHash, user'.salt)
        = (changeOf u c).getD (user.passwordHash, user.salt) := by
  unfold changeOf
  cases hcall : c.call with
  | unknown method => exact ⟨user, hu, rfl⟩
  | mutation μ =>
      have hkept : (∀ passwordHash salt, μ ≠ .changePassword u passwordHash salt) →
          (execCall (.mutation μ) s).2.users.get? u = some user :=
        fun hμ => user_effect (exec_effect μ s) hu hμ
      cases μ with
      | changePassword u' passwordHash salt =>
          by_cases hname : u' = u
          · subst hname
            refine ⟨_, exec_changePassword hu passwordHash salt, ?_⟩
            simp only [if_pos, Option.getD_some]
          · refine ⟨user, hkept ?_, ?_⟩
            · intro passwordHash' salt' heq
              exact hname (Mutation.changePassword.inj heq).1
            · simp only [if_neg hname, Option.getD_none]
      | _ => exact ⟨user, hkept (by simp), rfl⟩

/-! ## Runs -/

section Runs

variable {scrypt : String → List UInt8 → List UInt8}

/-- A checked call that presented a password: what its user has now is what
    the last change since the check set, or what the check verified. -/
def Follows (scrypt : String → List UInt8 → List UInt8) (s : Cluster) (change : Change)
    (position : Nat) (presented : String) : Prop :=
  position ≤ s.log.length ∧ ∃ user verified,
    s.replicated.tree.users.get? change.target = some user ∧
    verifyPassword scrypt presented verified.1 verified.2 = true ∧
    (user.passwordHash, user.salt)
      = (lastChange change.target (s.log.drop position)).getD verified

theorem lastChange_concat {u : String} {cmds : List Command} {c : Command} {position : Nat}
    (hpos : position ≤ cmds.length) :
    lastChange u ((cmds ++ [c]).drop position)
      = (changeOf u c).or (lastChange u (cmds.drop position)) := by
  rw [List.drop_append_of_le_length hpos, lastChange, lastChange, List.filterMap_append,
    List.getLast?_append]
  cases hc : changeOf u c with
  | none => rw [List.filterMap_cons_none hc]; rfl
  | some hashed => rw [List.filterMap_cons_some hc]; rfl

/-- The next command of the log keeps what is known of a checked call. -/
theorem follows_append {s : Cluster} {change : Change} {position : Nat} {presented : String}
    (h : Follows scrypt s change position presented) (c : Command) :
    Follows scrypt (s.append c) change position presented := by
  obtain ⟨hpos, user, verified, hu, hverified, hnow⟩ := h
  cases hop : s.replicated.appliedOps.get? c.opId with
  | some o =>
      have hlog : (s.append c).log = s.log := if_neg (by rw [hop]; simp)
      have hreplicated : (s.append c).replicated = s.replicated := by
        show (apply c s.replicated).2 = _
        rw [apply_cached hop]
      unfold Follows
      rw [hlog, hreplicated]
      exact ⟨hpos, user, verified, hu, hverified, hnow⟩
  | none =>
      have hlog : (s.append c).log = s.log ++ [c] := if_pos hop
      have htree : (s.append c).replicated.tree
          = (execCall c.call s.replicated.tree).2 := by
        show (apply c s.replicated).2.tree = _
        rw [apply_executed hop]
      obtain ⟨user', hu', hset⟩ := user_execCall (c := c) hu
      unfold Follows
      rw [hlog, htree]
      refine ⟨?_, user', verified, hu', hverified, ?_⟩
      · rw [List.length_append]
        omega
      · rw [hset, lastChange_concat hpos, hnow]
        cases changeOf change.target c <;> rfl

/-- A call gets to its commit with a password of its own only if it matches. -/
theorem presented_of_prepare {s : ControlTree} {principal : Principal}
    {request : ChangePasswordRequest} {salt : List UInt8} {change : Change}
    {presented : String}
    (h : prepare scrypt s principal request salt = .ok change)
    (hown : change.presented = some presented) :
    ∃ user, s.users.get? change.target = some user ∧
      verifyPassword scrypt presented user.passwordHash user.salt = true := by
  unfold prepare at h
  simp only at h
  generalize (if request.username ≠ "" then request.username else principal.username)
    = target at h
  cases hallowed : checkAllowed scrypt s principal target request.currentPassword with
  | error e => rw [hallowed] at h; cases h
  | ok _ =>
      cases hnew : checkNewPassword request.newPassword with
      | error e => rw [hallowed, hnew] at h; cases h
      | ok _ =>
          rw [hallowed, hnew] at h
          by_cases hop : request.opId = ""
          · simp only [bind, Except.bind, if_pos hop] at h
            cases h
          · simp only [bind, Except.bind, if_neg hop] at h
            obtain rfl := Except.ok.inj h
            dsimp only at hown ⊢
            by_cases htarget : target = principal.username
            · rw [if_pos htarget] at hown
              obtain rfl := Option.some.inj hown
              unfold checkAllowed at hallowed
              rw [if_neg (not_not.mpr htarget)] at hallowed
              cases hu : s.users.get? target with
              | none =>
                  rw [verifiedUser, hu] at hallowed
                  cases hallowed
              | some user =>
                  rw [verifiedUser, hu] at hallowed
                  by_cases hmatch : verifyPassword scrypt request.currentPassword
                      user.passwordHash user.salt = true
                  · exact ⟨user, rfl, hmatch⟩
                  · simp only [if_neg hmatch] at hallowed
                    cases hallowed
            · rw [if_neg htarget] at hown
              cases hown

/-- Every checked call is followed. -/
def AllFollow (scrypt : String → List UInt8 → List UInt8) (s : Cluster) : Prop :=
  ∀ id change position presented, s.pending id = some (change, position) →
    change.presented = some presented → Follows scrypt s change position presented

/-- **EVERY STEP KEEPS TRACK OF THE CHECKED CALLS.** -/
theorem allFollow_step {s s' : Cluster} {e : Event} (h : AllFollow scrypt s)
    (hstep : nextState scrypt s e = some s') : AllFollow scrypt s' := by
  intro id change position presented hpending hown
  cases e with
  | call id' principal request salt =>
      rw [nextState] at hstep
      by_cases hused : (s.pending id').isSome = true
      · rw [if_pos hused] at hstep
        cases hstep
      rw [if_neg hused] at hstep
      cases hprepare : prepare scrypt s.replicated.tree principal request salt with
      | error e =>
          rw [hprepare] at hstep
          obtain rfl := Option.some.inj hstep
          exact h id change position presented hpending hown
      | ok change' =>
          rw [hprepare] at hstep
          obtain rfl := Option.some.inj hstep
          rcases Metadata.update_eq_some hpending with ⟨rfl, hnew⟩ | ⟨_, hold⟩
          · obtain ⟨rfl, rfl⟩ := Prod.mk.inj (Option.some.inj hnew)
            obtain ⟨user, hu, hmatch⟩ := presented_of_prepare hprepare hown
            refine ⟨le_refl _, user, (user.passwordHash, user.salt), hu, hmatch, ?_⟩
            rw [List.drop_length]
            rfl
          · exact h id change position presented hold hown
  | commit id' =>
      rw [nextState] at hstep
      cases hp : s.pending id' with
      | none =>
          rw [hp] at hstep
          cases hstep
      | some p =>
          obtain ⟨change', position'⟩ := p
          rw [hp] at hstep
          obtain rfl := Option.some.inj hstep
          rcases Metadata.update_eq_some hpending with ⟨_, hnone⟩ | ⟨_, hold⟩
          · cases hnone
          · exact follows_append (h id change position presented hold hown) change'.command
  | command c =>
      rw [nextState] at hstep
      by_cases hc : isChange c = true
      · rw [if_pos hc] at hstep
        cases hstep
      · rw [if_neg hc] at hstep
        obtain rfl := Option.some.inj hstep
        exact follows_append (h id change position presented hpending hown) c

theorem allFollow_run {es : List Event} {s : Cluster} (hrun : (cluster scrypt).Run es s) :
    AllFollow scrypt s := by
  refine hrun.invariant (I := fun _ s => AllFollow scrypt s) ?_ ?_
  · rintro s rfl id change position presented hpending
    cases hpending
  · exact fun _ _ _ _ h hstep => allFollow_step h hstep

/-- **A CHANGE IS APPLIED OVER THE PASSWORD IT PRESENTED** exactly when it has
    not been overtaken: in every run, for every next event. -/
theorem replaces_presented_iff {es : List Event} {s : Cluster}
    (hrun : (cluster scrypt).Run es s) (e : Event) :
    ReplacesPresented scrypt s e ↔ NotOvertaken scrypt s e := by
  have hfollow : ∀ {change position presented}, AppliesOwn s e change position presented →
      Follows scrypt s change position presented := by
    intro change position presented happlies
    obtain ⟨id, _, hpending⟩ := happlies.commit
    exact allFollow_run hrun id change position presented hpending happlies.own
  constructor
  · intro h change position presented happlies hashed hlast
    obtain ⟨_, user, verified, hu, _, hnow⟩ := hfollow happlies
    obtain ⟨user', hu', hmatch⟩ := h change position presented happlies
    obtain rfl := Option.some.inj (hu.symm.trans hu')
    rw [hlast, Option.getD_some] at hnow
    rw [← hnow]
    exact hmatch
  · intro h change position presented happlies
    obtain ⟨_, user, verified, hu, hverified, hnow⟩ := hfollow happlies
    refine ⟨user, hu, ?_⟩
    cases hlast : lastChange change.target (s.log.drop position) with
    | none =>
        rw [hlast, Option.getD_none] at hnow
        rw [← hnow] at hverified
        exact hverified
    | some hashed =>
        rw [hlast, Option.getD_some] at hnow
        have hmatch := h change position presented happlies hashed hlast
        rw [← hnow] at hmatch
        exact hmatch

end Runs

/-- The hash of `vieja` under the salt of sixteen ones. -/
def oldHash : List UInt8 :=
  [230, 237, 116, 4, 62, 62, 243, 117, 40, 16, 226, 5, 59, 96, 24, 89, 170, 171, 150, 152,
   150, 17, 27, 98, 217, 191, 229, 209, 150, 34, 161, 185]

/-- The hash of `nueva` under the salt of sixteen twos. -/
def resetHash : List UInt8 :=
  [3, 187, 98, 236, 118, 193, 204, 73, 124, 100, 27, 119, 157, 206, 39, 113, 151, 114, 129,
   170, 7, 243, 99, 255, 174, 237, 172, 64, 178, 178, 240, 214]

/-- The hash of `robada` under the salt of sixteen threes. -/
def stolenHash : List UInt8 :=
  [137, 24, 200, 191, 252, 242, 197, 63, 34, 226, 161, 220, 252, 115, 34, 46, 212, 51, 246,
   54, 36, 222, 171, 118, 243, 15, 179, 128, 197, 201, 191, 11]

/-- scrypt on the passwords and salts that occur here. -/
def someScrypt (password : String) (salt : List UInt8) : List UInt8 :=
  if password = "vieja" ∧ salt = List.replicate 16 1 then oldHash
  else if password = "nueva" ∧ salt = List.replicate 16 2 then resetHash
  else if password = "robada" ∧ salt = List.replicate 16 3 then stolenHash
  else if password = "vieja" ∧ salt = List.replicate 16 2 then
    [25, 47, 190, 205, 124, 2, 50, 129, 43, 54, 224, 30, 172, 58, 149, 122, 43, 129, 76, 199,
     245, 181, 220, 220, 65, 233, 27, 186, 3, 39, 44, 44]
  else []

def root : Principal := ⟨"admin", ["admin"], true, by decide⟩

/-- The user exists, and a call that knows its password has been checked. -/
def checkedCall : List Event :=
  [.command ⟨"admin:op-0", .mutation (.createUser "ana" oldHash (List.replicate 16 1)
    ["ana"] false)⟩,
   .call 0 ana ⟨"", "vieja", "robada", "op-1"⟩ (List.replicate 16 3)]

/-- Then an admin resets the password. -/
def overtakenCall : List Event :=
  checkedCall ++ [.call 1 root ⟨"ana", "", "nueva", "op-2"⟩ (List.replicate 16 2), .commit 1]

def ownChange : Change :=
  ⟨"ana:op-1", "ana", stolenHash, List.replicate 16 3, some "vieja"⟩

/-- Without a reset in between the change replaces the password presented. -/
theorem replaces_presented_iff_own : ∃ s, (cluster someScrypt).Run checkedCall s ∧
    s.pending 0 = some (ownChange, 1) ∧ ReplacesPresented someScrypt s (.commit 0) := by
  have hseen : (steps (nextState someScrypt) Cluster.empty checkedCall).map
      (fun s => (s.pending 0, s.log.length)) = some (some (ownChange, 1), 1) := by
    decide +kernel
  cases hs : steps (nextState someScrypt) Cluster.empty checkedCall with
  | none =>
      rw [hs] at hseen
      cases hseen
  | some s =>
      rw [hs] at hseen
      obtain ⟨hpending, hlength⟩ := Prod.mk.inj (Option.some.inj hseen)
      refine ⟨s, run_of_steps hs, hpending,
        (replaces_presented_iff (run_of_steps hs) (.commit 0)).mpr ?_⟩
      intro change position presented happlies hashed hlast
      obtain ⟨id, hid, hthis⟩ := happlies.commit
      obtain rfl := Event.commit.inj hid
      obtain ⟨_, rfl⟩ := Prod.mk.inj (Option.some.inj (hpending.symm.trans hthis))
      rw [← hlength, List.drop_length] at hlast
      cases hlast

/-- **A RESET IS OVERWRITTEN.**  The call was checked against `vieja`; an admin
    has reset the password to `nueva` since.  The commit is applied all the
    same, over a password that `vieja` does not match. -/
theorem overtaken_change_is_applied : ∃ s, (cluster someScrypt).Run overtakenCall s ∧
    ¬ ReplacesPresented someScrypt s (.commit 0) ∧
    (nextState someScrypt s (.commit 0)).map (fun s => s.replicated.tree.users.get? "ana")
      = some (some ⟨stolenHash, List.replicate 16 3, ["ana"], false⟩) := by
  have hseen : (steps (nextState someScrypt) Cluster.empty overtakenCall).map
      (fun s => (s.pending 0, s.replicated.appliedOps.get? "ana:op-1",
        s.replicated.tree.users.get? "ana",
        (nextState someScrypt s (.commit 0)).map fun s =>
          s.replicated.tree.users.get? "ana"))
      = some (some (ownChange, 1), none,
          some ⟨resetHash, List.replicate 16 2, ["ana"], false⟩,
          some (some ⟨stolenHash, List.replicate 16 3, ["ana"], false⟩)) := by
    decide +kernel
  cases hs : steps (nextState someScrypt) Cluster.empty overtakenCall with
  | none =>
      rw [hs] at hseen
      cases hseen
  | some s =>
      rw [hs] at hseen
      obtain ⟨hpending, hseen⟩ := Prod.mk.inj (Option.some.inj hseen)
      obtain ⟨hnew, hseen⟩ := Prod.mk.inj hseen
      obtain ⟨huser, hafter⟩ := Prod.mk.inj hseen
      refine ⟨s, run_of_steps hs, ?_, hafter⟩
      intro h
      obtain ⟨user, hu, hmatch⟩ :=
        h ownChange 1 "vieja" ⟨⟨0, rfl, hpending⟩, rfl, hnew⟩
      obtain rfl := Option.some.inj (huser.symm.trans hu)
      exact absurd hmatch (by decide +kernel)

end DfshaPasswordChange
