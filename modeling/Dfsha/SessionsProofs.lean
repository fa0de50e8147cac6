import Dfsha.RpcCommitsProofs
import Dfsha.SessionTokenProofs

/-! # Who acts under which name

    A token carries everything a node asks about its caller, for as long as it
    lasts, and nothing revokes it.  It stays right because of what the
    mutations never do: no user is removed, and none changes its groups or
    becomes an admin.  So a session speaks for the record that its user has
    now, whenever it was opened.

    Users come from admins, and the first admin from the start of the nodes:
    each of them asks for it until the cluster has users.  Every admin is
    therefore one that an admin made, up to that first one; the cluster has
    it as soon as it has any user. -/

namespace DfshaSessions

open InsertionDict RaisingAction TransitionSystem TransitionSystem.System
open DfshaPath DfshaControlTree DfshaMetadata DfshaReplicatedTree
open DfshaOperationKey (InternalKey bootstrapAdminOpId isHex32 commitKey)
open DfshaPasswordChange (verifiedUser)
open DfshaControlServicer (Fate)
open DfshaRpcCommits (Permitted)
open DfshaSessionToken

def adminUsername : String := "admin"

/-- A principal of the handlers, as its token says it. -/
def sessionOf (p : DfshaOperationKey.Principal) : Principal :=
  ⟨p.username, p.groups, p.isAdmin⟩

/-! ## The cluster -/

/-- The command of the start of a node. -/
def adminCommand (passwordHash salt : List UInt8) : Command where
  opId := bootstrapAdminOpId
  call := .mutation (.createUser adminUsername passwordHash salt [adminUsername] true)

/-- `has_users`. -/
def hasUsers (s : ControlTree) : Bool := !s.users.isEmpty

/-- `ensure_admin` on a node that is at the tree `node`: whether nothing is
    left to do, and the replicated tree that it leaves. -/
def ensureAdmin (node : ControlTree) (leader : Bool) (fate : Fate)
    (passwordHash salt : List UInt8) (s : ReplicatedTree) : Bool × ReplicatedTree :=
  if hasUsers node then (true, s)
  else if leader = false then (false, s)
  else match fate with
    | .confirmed => (true, (apply (adminCommand passwordHash salt) s).2)
    | .unavailable => (false, s)
    | .unknown _ applied =>
        (false, if applied then (apply (adminCommand passwordHash salt) s).2 else s)

/-- The replicated tree and the trees before it, at which a node that is
    behind may still be; what the tokens handed out say; and who has been
    authenticated for a call, which may commit at any later moment. -/
structure Cluster where
  replicated : ReplicatedTree
  past : List ControlTree
  tokens : List Claims
  callers : List Principal

def Cluster.empty : Cluster := ⟨ReplicatedTree.empty, [], [], []⟩

def Cluster.tree (w : Cluster) : ControlTree := w.replicated.tree

def Cluster.apply (w : Cluster) (c : Command) : Cluster :=
  { w with
    replicated := (DfshaReplicatedTree.apply c w.replicated).2
    past := w.past ++ [w.tree] }

inductive Event where
  -- a `Login` reads the tree of the leader, behind a barrier
  | login (username password : String) (now : Time)
  -- an RPC arrives with a header
  | authenticate (header : String) (now : Time)
  -- an RPC of a principal commits a mutation
  | commit (p : DfshaOperationKey.Principal) (opId : String) (μ : Mutation)
  -- a node that has started asks for the admin
  | ensureAdmin (node : ControlTree) (leader : Bool) (fate : Fate)
      (passwordHash salt : List UInt8)
  -- a creation of the admin that its node did not wait for is applied
  | lateAdmin (passwordHash salt : List UInt8)
  -- a repair
  | repair (key path blockId : String) (expected new : List String)

section Model

variable (jwt : Jwt) (scrypt : String → List UInt8 → List UInt8) (ttlS : Time)

inductive Step : Cluster → Event → Cluster → Prop
  | login {w : Cluster} {username password : String} {now : Time} {user : UserRecord}
      (huser : verifiedUser scrypt w.tree username password = some user) :
      Step w (.login username password now) { w with
        tokens := w.tokens ++ [issued ⟨username, user.groups, user.isAdmin⟩ ttlS now] }
  | loginRefused {w : Cluster} {username password : String} {now : Time}
      (hnone : verifiedUser scrypt w.tree username password = none) :
      Step w (.login username password now) w
  | authenticate {w : Cluster} {header : String} {now : Time} {p : Principal}
      (hunforged : Unforged jwt w.tokens header)
      (haccepted : authenticateHeader jwt header now = .ok p) :
      Step w (.authenticate header now) { w with callers := w.callers ++ [p] }
  | authenticateRefused {w : Cluster} {header message : String} {now : Time}
      (hrefused : authenticateHeader jwt header now = .error message) :
      Step w (.authenticate header now) w
  | commit {w : Cluster} {p : DfshaOperationKey.Principal} {opId : String} {μ : Mutation}
      (hcaller : sessionOf p ∈ w.callers) (hpermitted : Permitted p μ) :
      Step w (.commit p opId μ) (w.apply ⟨commitKey (some p) opId, .mutation μ⟩)
  | ensureAdmin {w : Cluster} {node : ControlTree} {leader : Bool} {fate : Fate}
      {passwordHash salt : List UInt8} (hnode : node = w.tree ∨ node ∈ w.past) :
      Step w (.ensureAdmin node leader fate passwordHash salt) { w with
        replicated := (ensureAdmin node leader fate passwordHash salt w.replicated).2
        past := w.past ++ [w.tree] }
  | lateAdmin {w : Cluster} {passwordHash salt : List UInt8} :
      Step w (.lateAdmin passwordHash salt) (w.apply (adminCommand passwordHash salt))
  | repair {w : Cluster} {key path blockId : String} {expected new : List String}
      (hkey : isHex32 key = true) :
      Step w (.repair key path blockId expected new)
        (w.apply ⟨key, .mutation (.updateBlockReplicas path blockId expected new)⟩)

/-- The runs of a cluster with authentication. -/
def sessions : System Cluster Event where
  init := fun w => w = Cluster.empty
  step := Step jwt scrypt ttlS

end Model

/-! ## What happens to the users -/

/-- What a mutation does to the users. -/
inductive UsersStep (μ : Mutation) (users users' : String → Option UserRecord) : Prop
  | kept (h : users' = users)
  | created {u : String} {passwordHash salt : List UInt8} {groups : List String}
      {isAdmin : Bool} (hμ : μ = .createUser u passwordHash salt groups isAdmin)
      (hname : validName u = true) (hnew : users u = none)
      (h : users' = Function.update users u (some ⟨passwordHash, salt, groups, isAdmin⟩))
  | changed {u : String} {passwordHash salt : List UInt8} {user : UserRecord}
      (hμ : μ = .changePassword u passwordHash salt) (hold : users u = some user)
      (h : users' = Function.update users u (some { user with passwordHash, salt }))

theorem usersStep_effect {μ : Mutation} {m m' : Metadata} {r : Except PyError Ret}
    (he : Effect μ m r m') : UsersStep μ m.user m'.user := by
  cases he with
  | makeDir | removeDir | beginUpload | confirmBlock | completeUpload | abortUpload
  | updateBlockReplicas | setAttrsDir | setAttrsFile => exact .kept rfl
  | acquireLock | joinLock | renewLock | releaseLock =>
      refine .kept ?_
      rw [Metadata.user_setLock, Metadata.user_aliveLocks]
  | removeFile | releaseLast | releaseGone => exact .kept (pruned_aliveLocks _ _ _).user
  | beginWrite | beginWriteLost =>
      refine .kept ?_
      rw [Metadata.user_setWrite, (pruned_writeTable _ _ _).user]
  | commitWrite =>
      refine .kept ?_
      rw [Metadata.user_dropWrite, Metadata.user_setFile, (pruned_writeTable _ _ _).user]
  | abortWrite | abortGone => exact .kept (pruned_aliveWrites _ _).user
  | createUser hname hgroups hnew => exact .created rfl hname hnew rfl
  | changePassword huser => exact .changed rfl huser rfl
  | refused hpruned => exact .kept hpruned.user

/-- A user stays, with its groups and what it may do. -/
theorem UsersStep.stays {μ : Mutation} {users users' : String → Option UserRecord}
    (h : UsersStep μ users users') {u : String} {user : UserRecord} (hu : users u = some user) :
    ∃ user', users' u = some user' ∧ user'.groups = user.groups ∧
      user'.isAdmin = user.isAdmin := by
  cases h with
  | kept h => exact ⟨user, by rw [h, hu], rfl, rfl⟩
  | @created v _ _ _ _ _ _ hnew h =>
      have hne : u ≠ v := by
        rintro rfl
        rw [hu] at hnew
        cases hnew
      exact ⟨user, by rw [h, Function.update_of_ne hne, hu], rfl, rfl⟩
  | @changed v passwordHash salt old _ hold h =>
      by_cases hv : u = v
      · subst hv
        obtain rfl := Option.some.inj (hold.symm.trans hu)
        exact ⟨{ old with passwordHash, salt }, by rw [h, Function.update_self], rfl, rfl⟩
      · exact ⟨user, by rw [h, Function.update_of_ne hv, hu], rfl, rfl⟩

/-- A user who is new was created, with its groups and what it may do. -/
theorem UsersStep.origin {μ : Mutation} {users users' : String → Option UserRecord}
    (h : UsersStep μ users users') {u : String} {user' : UserRecord}
    (hu : users' u = some user') :
    (∃ user, users u = some user ∧ user'.groups = user.groups ∧ user'.isAdmin = user.isAdmin) ∨
    (validName u = true ∧ ∃ passwordHash salt,
      μ = .createUser u passwordHash salt user'.groups user'.isAdmin) := by
  cases h with
  | kept h => exact .inl ⟨user', by rw [← h, hu], rfl, rfl⟩
  | @created v passwordHash salt groups isAdmin hμ hname hnew h =>
      by_cases hv : u = v
      · subst hv
        rw [h, Function.update_self] at hu
        obtain rfl := Option.some.inj hu
        exact .inr ⟨hname, passwordHash, salt, hμ⟩
      · rw [h, Function.update_of_ne hv] at hu
        exact .inl ⟨user', hu, rfl, rfl⟩
  | @changed v _ _ old _ hold h =>
      by_cases hv : u = v
      · subst hv
        rw [h, Function.update_self] at hu
        obtain rfl := Option.some.inj hu
        exact .inl ⟨old, hold, rfl, rfl⟩
      · rw [h, Function.update_of_ne hv] at hu
        exact .inl ⟨user', hu, rfl, rfl⟩

/-- **WHAT A COMMAND DOES TO THE USERS**: nothing, if it is not executed. -/
theorem users_apply (c : Command) (s : ReplicatedTree) :
    (apply c s).2.tree.users.get? = s.tree.users.get? ∨
    ∃ μ, c.call = .mutation μ ∧ s.appliedOps.get? c.opId = none ∧
      UsersStep μ s.tree.users.get? (apply c s).2.tree.users.get? := by
  generalize hr : apply c s = r
  obtain ⟨o, s'⟩ := r
  have happlied : Applied c s o s' := by
    have h := apply_applied c s
    rw [hr] at h
    exact h
  cases happlied with
  | cached h => exact .inl rfl
  | executed hnew hcall heffect hops => exact .inr ⟨_, hcall, hnew, usersStep_effect heffect⟩
  | rejected hnew htree hops => exact .inl (by rw [htree])

/-- A user stays, whatever the next command of the log is. -/
theorem stays_apply (c : Command) {s : ReplicatedTree} {u : String} {user : UserRecord}
    (hu : s.tree.users.get? u = some user) :
    ∃ user', (apply c s).2.tree.users.get? u = some user' ∧ user'.groups = user.groups ∧
      user'.isAdmin = user.isAdmin := by
  rcases users_apply c s with hsame | ⟨μ, _, _, hstep⟩
  · exact ⟨user, by rw [hsame, hu], rfl, rfl⟩
  · exact hstep.stays hu

/-! ## What a session says -/

/-- The users have a record under the name, with those groups and that role. -/
def Speaks (s : ControlTree) (p : Principal) : Prop :=
  ∃ user, s.users.get? p.username = some user ∧ user.groups = p.groups ∧
    user.isAdmin = p.isAdmin

theorem speaks_apply {s : ReplicatedTree} {p : Principal} (h : Speaks s.tree p) (c : Command) :
    Speaks (apply c s).2.tree p := by
  obtain ⟨user, hu, hgroups, hadmin⟩ := h
  obtain ⟨user', hu', hgroups', hadmin'⟩ := stays_apply c hu
  exact ⟨user', hu', hgroups'.trans hgroups, hadmin'.trans hadmin⟩

/-- The commands that a step applies. -/
theorem ensureAdmin_tree (node : ControlTree) (leader : Bool) (fate : Fate)
    (passwordHash salt : List UInt8) (s : ReplicatedTree) :
    (ensureAdmin node leader fate passwordHash salt s).2 = s ∨
      hasUsers node = false ∧ (ensureAdmin node leader fate passwordHash salt s).2
        = (apply (adminCommand passwordHash salt) s).2 := by
  unfold ensureAdmin
  by_cases husers : hasUsers node = true
  · rw [if_pos husers]
    exact .inl rfl
  · rw [if_neg husers]
    by_cases hleader : leader = false
    · rw [if_pos hleader]
      exact .inl rfl
    · rw [if_neg hleader]
      cases fate with
      | confirmed => exact .inr ⟨Bool.eq_false_iff.mpr husers, rfl⟩
      | unavailable => exact .inl rfl
      | unknown reason applied =>
          cases applied with
          | false => exact .inl rfl
          | true => exact .inr ⟨Bool.eq_false_iff.mpr husers, rfl⟩

section Runs

variable {jwt : Jwt} {scrypt : String → List UInt8 → List UInt8} {ttlS : Time}

/-- A step applies at most one command: one that a caller may commit, the
    creation of the admin, or a repair. -/
inductive Applies : Event → Command → Prop
  | commit {p : DfshaOperationKey.Principal} {opId : String} {μ : Mutation} :
      Applies (.commit p opId μ) ⟨commitKey (some p) opId, .mutation μ⟩
  | ensureAdmin {node : ControlTree} {leader : Bool} {fate : Fate}
      {passwordHash salt : List UInt8} :
      Applies (.ensureAdmin node leader fate passwordHash salt)
        (adminCommand passwordHash salt)
  | lateAdmin {passwordHash salt : List UInt8} :
      Applies (.lateAdmin passwordHash salt) (adminCommand passwordHash salt)
  | repair {key path blockId : String} {expected new : List String}
      (hkey : isHex32 key = true) :
      Applies (.repair key path blockId expected new)
        ⟨key, .mutation (.updateBlockReplicas path blockId expected new)⟩

theorem step_applies {w w' : Cluster} {e : Event} (h : Step jwt scrypt ttlS w e w') :
    w'.replicated = w.replicated ∨
      ∃ c, Applies e c ∧ w'.replicated = (apply c w.replicated).2 := by
  cases h with
  | login | loginRefused | authenticate | authenticateRefused => exact .inl rfl
  | commit hcaller hpermitted => exact .inr ⟨_, .commit, rfl⟩
  | ensureAdmin hnode =>
      rcases ensureAdmin_tree _ _ _ _ _ w.replicated with hsame | ⟨_, happly⟩
      · exact .inl hsame
      · exact .inr ⟨_, .ensureAdmin, happly⟩
  | lateAdmin => exact .inr ⟨_, .lateAdmin, rfl⟩
  | repair hkey => exact .inr ⟨_, .repair hkey, rfl⟩

/-- A session keeps speaking for its user. -/
theorem speaks_step {w w' : Cluster} {e : Event} {p : Principal}
    (h : Step jwt scrypt ttlS w e w') (hp : Speaks w.tree p) : Speaks w'.tree p := by
  rcases step_applies h with hsame | ⟨c, _, happly⟩
  · unfold Cluster.tree
    rw [hsame]
    exact hp
  · unfold Cluster.tree
    rw [happly]
    exact speaks_apply hp c

/-- A login whose token is in the claims. -/
theorem speaks_of_verified {s : ControlTree} {username password : String} {user : UserRecord}
    (h : verifiedUser scrypt s username password = some user) :
    Speaks s ⟨username, user.groups, user.isAdmin⟩ := by
  unfold verifiedUser at h
  cases hu : s.users.get? username with
  | none =>
      rw [hu] at h
      cases h
  | some record =>
      rw [hu] at h
      dsimp only at h
      split at h
      · rw [← Option.some.inj h]
        exact ⟨record, hu, rfl, rfl⟩
      · cases h

/-! ## Where a session comes from -/

/-- In the run, and less than the lifetime of a token before `now`, the user
    of the principal logged in with the password in force, and the record that
    it verified says what the principal says. -/
def LoggedIn (jwt : Jwt) (scrypt : String → List UInt8 → List UInt8) (ttlS : Time)
    (events : List Event) (p : Principal) (now : Time) : Prop :=
  ∃ pre password t post w user, events = pre ++ .login p.username password t :: post ∧
    (sessions jwt scrypt ttlS).Run pre w ∧
    verifiedUser scrypt w.tree p.username password = some user ∧
    user.groups = p.groups ∧ user.isAdmin = p.isAdmin ∧ now < t + ttlS + 1

/-- In the run, a call of the principal was authenticated, when it was logged
    in. -/
def Authenticated (jwt : Jwt) (scrypt : String → List UInt8 → List UInt8) (ttlS : Time)
    (events : List Event) (p : Principal) : Prop :=
  ∃ pre header now post, events = pre ++ .authenticate header now :: post ∧
    authenticateHeader jwt header now = .ok p ∧ LoggedIn jwt scrypt ttlS pre p now

theorem LoggedIn.concat {events : List Event} {p : Principal} {now : Time}
    (h : LoggedIn jwt scrypt ttlS events p now) (e : Event) :
    LoggedIn jwt scrypt ttlS (events ++ [e]) p now := by
  obtain ⟨pre, password, t, post, w, user, rfl, hrest⟩ := h
  exact ⟨pre, password, t, post ++ [e], w, user, by simp, hrest⟩

theorem Authenticated.concat {events : List Event} {p : Principal}
    (h : Authenticated jwt scrypt ttlS events p) (e : Event) :
    Authenticated jwt scrypt ttlS (events ++ [e]) p := by
  obtain ⟨pre, header, now, post, rfl, hrest⟩ := h
  exact ⟨pre, header, now, post ++ [e], by simp, hrest⟩

/-- What is known in every state of a run. -/
structure Sound (jwt : Jwt) (scrypt : String → List UInt8 → List UInt8) (ttlS : Time)
    (events : List Event) (w : Cluster) : Prop where
  run : (sessions jwt scrypt ttlS).Run events w
  tokens : ∀ claims ∈ w.tokens, Speaks w.tree claims.principal ∧
    ∀ now, now < (claims.exp : Time) → LoggedIn jwt scrypt ttlS events claims.principal now
  callers : ∀ p ∈ w.callers, Speaks w.tree p ∧ Authenticated jwt scrypt ttlS events p

/-- The expiry of a token is less than a second later than asked for. -/
theorem lt_of_lt_ceil {now t ttlS : Time} (h : now < ((⌈t + ttlS⌉ : Int) : Time)) :
    now < t + ttlS + 1 := lt_trans h (Int.ceil_lt_add_one _)

theorem tokens_step {w w' : Cluster} {e : Event} {claims : Claims}
    (h : Step jwt scrypt ttlS w e w') (hclaims : claims ∈ w'.tokens) :
    claims ∈ w.tokens ∨ ∃ username password now user,
      e = .login username password now ∧
      verifiedUser scrypt w.tree username password = some user ∧
      claims = issued ⟨username, user.groups, user.isAdmin⟩ ttlS now := by
  cases h with
  | login huser =>
      rcases List.mem_append.mp hclaims with hold | hnew
      · exact .inl hold
      · exact .inr ⟨_, _, _, _, rfl, huser, List.mem_singleton.mp hnew⟩
  | loginRefused | authenticate | authenticateRefused | commit | ensureAdmin | lateAdmin
  | repair => exact .inl hclaims

theorem callers_step {w w' : Cluster} {e : Event} {p : Principal}
    (h : Step jwt scrypt ttlS w e w') (hp : p ∈ w'.callers) :
    p ∈ w.callers ∨ ∃ header now, e = .authenticate header now ∧
      Unforged jwt w.tokens header ∧ authenticateHeader jwt header now = .ok p := by
  cases h with
  | authenticate hunforged haccepted =>
      rcases List.mem_append.mp hp with hold | hnew
      · exact .inl hold
      · obtain rfl := List.mem_singleton.mp hnew
        exact .inr ⟨_, _, rfl, hunforged, haccepted⟩
  | login | loginRefused | authenticateRefused | commit | ensureAdmin | lateAdmin
  | repair => exact .inl hp

theorem sound_step (hjwt : Lawful jwt) {events : List Event} {w w' : Cluster} {e : Event}
    (hw : Sound jwt scrypt ttlS events w) (h : Step jwt scrypt ttlS w e w') :
    Sound jwt scrypt ttlS (events ++ [e]) w' where
  run := hw.run.next h
  tokens := by
    intro claims hclaims
    rcases tokens_step h hclaims with hold | ⟨username, password, t, user, rfl, huser, rfl⟩
    · obtain ⟨hspeaks, hlogged⟩ := hw.tokens claims hold
      exact ⟨speaks_step h hspeaks, fun now hnow => (hlogged now hnow).concat e⟩
    · refine ⟨speaks_step h (speaks_of_verified huser), fun now hnow => ?_⟩
      exact ⟨events, password, t, [], w, user, rfl, hw.run, huser, rfl, rfl, lt_of_lt_ceil hnow⟩
  callers := by
    intro p hp
    rcases callers_step h hp with hold | ⟨header, now, rfl, hunforged, haccepted⟩
    · obtain ⟨hspeaks, hauth⟩ := hw.callers p hold
      exact ⟨speaks_step h hspeaks, hauth.concat e⟩
    · obtain ⟨claims, hclaims, rfl, hnow⟩ := issued_of_accepted hjwt hunforged haccepted
      obtain ⟨hspeaks, hlogged⟩ := hw.tokens claims hclaims
      exact ⟨speaks_step h hspeaks, events, header, now, [], rfl, haccepted, hlogged now hnow⟩

theorem sound_run (hjwt : Lawful jwt) {events : List Event} {w : Cluster}
    (hrun : (sessions jwt scrypt ttlS).Run events w) : Sound jwt scrypt ttlS events w := by
  refine hrun.invariant (I := Sound jwt scrypt ttlS) ?_ ?_
  · rintro w rfl
    refine ⟨⟨_, rfl, .start⟩, ?_, ?_⟩
    · exact fun claims h => absurd h List.not_mem_nil
    · exact fun p h => absurd h List.not_mem_nil
  · exact fun events w e w' hw h => sound_step hjwt hw h

/-- **WHOEVER ACTS UNDER A NAME LOGGED IN UNDER IT**, less than the lifetime of
    a token before its call arrived, and acts with the groups and the role that
    the name has when the mutation is committed. -/
theorem acts_for_who_logged_in (hjwt : Lawful jwt) {events : List Event} {w w' : Cluster}
    {p : DfshaOperationKey.Principal} {opId : String} {μ : Mutation}
    (hrun : (sessions jwt scrypt ttlS).Run events w)
    (h : (sessions jwt scrypt ttlS).step w (.commit p opId μ) w') :
    Speaks w.tree (sessionOf p) ∧ Authenticated jwt scrypt ttlS events (sessionOf p) := by
  cases h with
  | commit hcaller hpermitted => exact (sound_run hjwt hrun).callers _ hcaller

/-- A stand-in for scrypt. -/
def plainScrypt (password : String) (salt : List UInt8) : List UInt8 :=
  password.toList.map (fun c => UInt8.ofNat c.toNat) ++ salt

def adminPrincipal : DfshaOperationKey.Principal :=
  ⟨adminUsername, [adminUsername], true, by decide⟩

/-- A node starts, its admin logs in for a minute and calls a second later. -/
def adminEvents : List Event :=
  [.ensureAdmin ControlTree.empty true .confirmed (plainScrypt "clave" []) [],
    .login adminUsername "clave" 0,
    .authenticate (bearerHeader (issueToken plainJwt (sessionOf adminPrincipal) 60 0)) 1]

/-- The users that it leaves. -/
def adminTree : ReplicatedTree :=
  (apply (adminCommand (plainScrypt "clave" []) []) ReplicatedTree.empty).2

def adminCluster : Cluster where
  replicated := adminTree
  past := [ControlTree.empty]
  tokens := [issued (sessionOf adminPrincipal) 60 0]
  callers := [sessionOf adminPrincipal]

theorem run_adminEvents : (sessions plainJwt plainScrypt 60).Run adminEvents adminCluster := by
  have huser : verifiedUser plainScrypt adminTree.tree adminUsername "clave"
      = some ⟨plainScrypt "clave" [], [], [adminUsername], true⟩ := by decide +kernel
  have haccepted : authenticateHeader plainJwt
      (bearerHeader (issueToken plainJwt (sessionOf adminPrincipal) 60 0)) 1
        = .ok (sessionOf adminPrincipal) := by
    rw [authenticate_issued lawful_plainJwt, if_neg (by decide +kernel)]
  have hstart : Step plainJwt plainScrypt 60 Cluster.empty
      (.ensureAdmin ControlTree.empty true .confirmed (plainScrypt "clave" []) [])
      ⟨adminTree, [ControlTree.empty], [], []⟩ := .ensureAdmin (.inl rfl)
  have hlogin : Step plainJwt plainScrypt 60 ⟨adminTree, [ControlTree.empty], [], []⟩
      (.login adminUsername "clave" 0)
      ⟨adminTree, [ControlTree.empty], [issued (sessionOf adminPrincipal) 60 0], []⟩ :=
    @Step.login plainJwt plainScrypt 60 ⟨adminTree, [ControlTree.empty], [], []⟩ adminUsername
      "clave" 0 _ huser
  have hcall : Step plainJwt plainScrypt 60
      ⟨adminTree, [ControlTree.empty], [issued (sessionOf adminPrincipal) 60 0], []⟩
      (.authenticate (bearerHeader (issueToken plainJwt (sessionOf adminPrincipal) 60 0)) 1)
      adminCluster :=
    .authenticate (unforged_bearerHeader lawful_plainJwt List.mem_cons_self) haccepted
  exact ⟨_, rfl, ((Path.start.next hstart).next hlogin).next hcall⟩

/-- The admin creates a user: it had logged in, and is the admin it says. -/
theorem acts_for_who_logged_in_admin :
    Speaks adminTree.tree (sessionOf adminPrincipal) ∧
      Authenticated plainJwt plainScrypt 60 adminEvents (sessionOf adminPrincipal) :=
  have hstep : (sessions plainJwt plainScrypt 60).step adminCluster
      (.commit adminPrincipal "op1" (.createUser "eva" [] [] ["eva"] false))
      (adminCluster.apply ⟨commitKey (some adminPrincipal) "op1",
        .mutation (.createUser "eva" [] [] ["eva"] false)⟩) :=
    Step.commit List.mem_cons_self rfl
  acts_for_who_logged_in lawful_plainJwt run_adminEvents hstep

/-! ## Where admins come from -/

/-- The user is the admin of the start of the cluster, or was created as an
    admin by one who was an admin in the same way and had logged in. -/
inductive Appointed (jwt : Jwt) (scrypt : String → List UInt8 → List UInt8) (ttlS : Time) :
    List Event → String → Prop
  | start {events : List Event} {e : Event} {passwordHash salt : List UInt8}
      (hmem : e ∈ events) (happlies : Applies e (adminCommand passwordHash salt)) :
      Appointed jwt scrypt ttlS events adminUsername
  | created {pre post : List Event} {p : DfshaOperationKey.Principal} {opId u : String}
      {passwordHash salt : List UInt8} {groups : List String}
      (hauth : Authenticated jwt scrypt ttlS pre (sessionOf p))
      (hadmin : p.isAdmin = true) (hp : Appointed jwt scrypt ttlS pre p.username) :
      Appointed jwt scrypt ttlS
        (pre ++ .commit p opId (.createUser u passwordHash salt groups true) :: post) u

theorem Appointed.concat {events : List Event} {u : String}
    (h : Appointed jwt scrypt ttlS events u) (e : Event) :
    Appointed jwt scrypt ttlS (events ++ [e]) u := by
  cases h with
  | start hmem happlies => exact .start (List.mem_append_left _ hmem) happlies
  | created hauth hadmin hp =>
      rw [List.append_assoc, List.cons_append]
      exact .created hauth hadmin hp

/-- Who is an admin after a step was one before, or has just been appointed. -/
theorem admin_step {events : List Event} {w w' : Cluster} {e : Event}
    (hw : Sound jwt scrypt ttlS events w)
    (hadmins : ∀ u user, w.tree.users.get? u = some user → user.isAdmin = true →
      Appointed jwt scrypt ttlS events u)
    (h : Step jwt scrypt ttlS w e w') {u : String} {user : UserRecord}
    (hu : w'.tree.users.get? u = some user) (hadmin : user.isAdmin = true) :
    Appointed jwt scrypt ttlS (events ++ [e]) u := by
  rcases step_applies h with hsame | ⟨c, happlies, happly⟩
  · rw [Cluster.tree, hsame] at hu
    exact (hadmins u user hu hadmin).concat e
  · rw [Cluster.tree, happly] at hu
    rcases users_apply c w.replicated with hkept | ⟨μ, hcall, _, hstep⟩
    · rw [hkept] at hu
      exact (hadmins u user hu hadmin).concat e
    · rcases hstep.origin hu with ⟨old, hold, _, hsame⟩ | ⟨_, passwordHash, salt, hμ⟩
      · exact (hadmins u old hold (hsame.symm.trans hadmin)).concat e
      · rw [hμ, hadmin] at hcall
        cases happlies with
        | @commit p opId μ' =>
            obtain rfl := Call.mutation.inj hcall
            cases h with
            | commit hcaller hpermitted =>
                obtain ⟨⟨record, hrecord, _, hrole⟩, hauth⟩ := hw.callers _ hcaller
                have hrecordAdmin : record.isAdmin = true := hrole.trans hpermitted
                exact .created hauth hpermitted (hadmins _ record hrecord hrecordAdmin)
        | ensureAdmin | lateAdmin =>
            obtain ⟨rfl, rfl, rfl, _⟩ := Mutation.createUser.inj (Call.mutation.inj hcall)
            exact .start (List.mem_append_right _ (List.mem_singleton.mpr rfl))
              (by first | exact .ensureAdmin | exact .lateAdmin)
        | repair hkey => cases hcall

/-- **ADMINS ARE MADE BY ADMINS**, up to the one of the start of the cluster. -/
theorem admins_were_appointed (hjwt : Lawful jwt) {events : List Event} {w : Cluster}
    (hrun : (sessions jwt scrypt ttlS).Run events w) {u : String} {user : UserRecord}
    (hu : w.tree.users.get? u = some user) (hadmin : user.isAdmin = true) :
    Appointed jwt scrypt ttlS events u := by
  suffices hinv : Sound jwt scrypt ttlS events w ∧ ∀ u user,
      w.tree.users.get? u = some user → user.isAdmin = true →
      Appointed jwt scrypt ttlS events u from hinv.2 u user hu hadmin
  refine hrun.invariant (I := fun events w => Sound jwt scrypt ttlS events w ∧ ∀ u user,
    w.tree.users.get? u = some user → user.isAdmin = true →
    Appointed jwt scrypt ttlS events u) ?_ ?_
  · rintro w rfl
    exact ⟨sound_run hjwt ⟨_, rfl, .start⟩, fun u user hu => by cases hu⟩
  · rintro events w e w' ⟨hw, hadmins⟩ h
    exact ⟨sound_step hjwt hw h, fun u user hu hadmin => admin_step hw hadmins h hu hadmin⟩

/-- The admin of the start is one of them. -/
theorem admins_were_appointed_start :
    Appointed plainJwt plainScrypt 60 adminEvents adminUsername :=
  have huser : adminCluster.tree.users.get? adminUsername
      = some ⟨plainScrypt "clave" [], [], [adminUsername], true⟩ := by decide +kernel
  admins_were_appointed lawful_plainJwt run_adminEvents huser rfl

/-! ## The admin of the start -/

/-- There is an account that can do everything. -/
def HasAdmin (s : ControlTree) : Prop :=
  ∃ user, s.users.get? adminUsername = some user ∧ user.isAdmin = true

theorem hasUsers_iff {s : ControlTree} :
    hasUsers s = true ↔ ∃ u user, s.users.get? u = some user := by
  unfold hasUsers
  rw [Bool.not_eq_true']
  constructor
  · exact fun h => Dict.exists_of_not_isEmpty (by rw [h]; decide)
  · rintro ⟨u, user, hu⟩
    by_contra hempty
    rw [Dict.get?_of_isEmpty (by rw [Bool.not_eq_false] at hempty; exact hempty)] at hu
    cases hu

theorem hasAdmin_apply {s : ReplicatedTree} (h : HasAdmin s.tree) (c : Command) :
    HasAdmin (apply c s).2.tree := by
  obtain ⟨user, hu, hadmin⟩ := h
  obtain ⟨user', hu', _, hadmin'⟩ := stays_apply c hu
  exact ⟨user', hu', hadmin'.trans hadmin⟩

/-- The creation of the admin, where there is none. -/
theorem exec_createAdmin {s : ControlTree} (hnone : s.users.get? adminUsername = none)
    (passwordHash salt : List UInt8) :
    HasAdmin (exec (.createUser adminUsername passwordHash salt [adminUsername] true) s).2 := by
  have hwp : wp (createUser adminUsername passwordHash salt [adminUsername] true) s
      fun _ s' => HasAdmin s' := by
    refine wp_raiseIf_passed (by decide) ?_
    have hgroups : [adminUsername].filter (fun group => !validName group) = [] := by decide
    simp only [hgroups]
    refine wp_gets (wp_raiseIf_passed ?_ ?_)
    · rw [Bool.not_eq_true]
      exact Dict.not_contains_iff.mpr hnone
    · refine wp_modify_last ⟨⟨passwordHash, salt, [adminUsername], true⟩, ?_, rfl⟩
      exact Dict.get?_insert_self _ _ _
  refine wp_call (Q := fun _ s' => HasAdmin s') hwp ?_ ?_
  · exact fun a s' h => h
  · exact fun e s' h => h

/-- What is known of the first admin in every state of a run. -/
structure Founded (w : Cluster) : Prop where
  tree : hasUsers w.tree = true → HasAdmin w.tree
  past : ∀ s ∈ w.past, hasUsers s = true → HasAdmin w.tree
  remembered : w.replicated.appliedOps.get? bootstrapAdminOpId ≠ none → HasAdmin w.tree

theorem past_step {w w' : Cluster} {e : Event} (h : Step jwt scrypt ttlS w e w')
    {s : ControlTree} (hs : s ∈ w'.past) : s ∈ w.past ∨ s = w.tree := by
  cases h with
  | login | loginRefused | authenticate | authenticateRefused => exact .inl hs
  | commit | ensureAdmin | lateAdmin | repair =>
      rcases List.mem_append.mp hs with hold | hnew
      · exact .inl hold
      · exact .inr (List.mem_singleton.mp hnew)

/-- With an admin there is nothing more to know. -/
theorem founded_of_admin {w : Cluster} (h : HasAdmin w.tree) : Founded w :=
  ⟨fun _ => h, fun _ _ _ => h, fun _ => h⟩

/-- A repair changes no user, and is remembered under another key. -/
theorem repair_users {s : ReplicatedTree} {c : Command} {path blockId : String}
    {expected new : List String} (hkey : isHex32 c.opId = true)
    (hcall : c.call = .mutation (.updateBlockReplicas path blockId expected new)) :
    (apply c s).2.tree.users.get? = s.tree.users.get? ∧
      ∀ o, (apply c s).2.appliedOps.get? bootstrapAdminOpId = some o →
        s.appliedOps.get? bootstrapAdminOpId = some o := by
  constructor
  · rcases users_apply c s with hkept | ⟨μ, hμ, _, hstep⟩
    · exact hkept
    · obtain rfl := Call.mutation.inj (hcall.symm.trans hμ)
      cases hstep with
      | kept h => exact h
      | created hμ => cases hμ
      | changed hμ => cases hμ
  · intro o ho
    cases hop : s.appliedOps.get? c.opId with
    | some o' =>
        rw [apply_cached hop] at ho
        exact ho
    | none =>
        rw [apply_executed hop] at ho
        dsimp only at ho
        rcases get?_remember ho with ⟨hsame, _⟩ | hold
        · rw [← hsame] at hkey
          exact absurd hkey (by decide)
        · exact hold

/-- Where there is no user, the creation of the admin succeeds. -/
theorem hasAdmin_adminCommand {s : ReplicatedTree} (husers : hasUsers s.tree = false)
    (hnew : s.appliedOps.get? bootstrapAdminOpId = none) (passwordHash salt : List UInt8) :
    HasAdmin (apply (adminCommand passwordHash salt) s).2.tree := by
  rw [apply_executed hnew]
  refine exec_createAdmin ?_ passwordHash salt
  cases hu : s.tree.users.get? adminUsername with
  | none => rfl
  | some user =>
      rw [hasUsers_iff.mpr ⟨_, user, hu⟩] at husers
      cases husers

theorem founded_step {events : List Event} {w w' : Cluster} {e : Event}
    (hsound : Sound jwt scrypt ttlS events w) (hw : Founded w)
    (h : Step jwt scrypt ttlS w e w') : Founded w' := by
  have hpast : ∀ s ∈ w'.past, hasUsers s = true → HasAdmin w.tree := by
    intro s hs husers
    rcases past_step h hs with hold | rfl
    · exact hw.past s hold husers
    · exact hw.tree husers
  rcases step_applies h with hsame | ⟨c, happlies, happly⟩
  · have htree : w'.tree = w.tree := congrArg ReplicatedTree.tree hsame
    exact ⟨by rw [htree]; exact hw.tree, by rw [htree]; exact hpast,
      by rw [htree, hsame]; exact hw.remembered⟩
  · have htree : w'.tree = (apply c w.replicated).2.tree := congrArg ReplicatedTree.tree happly
    by_cases hadmin : HasAdmin w.tree
    · refine founded_of_admin ?_
      rw [htree]
      exact hasAdmin_apply hadmin c
    · have husers : hasUsers w.tree = false := by
        rw [← Bool.not_eq_true]
        exact fun husers => hadmin (hw.tree husers)
      have hnew : w.replicated.appliedOps.get? bootstrapAdminOpId = none := by
        by_contra hop
        exact hadmin (hw.remembered hop)
      cases happlies with
      | commit =>
          -- a caller is a user, so there would be an admin
          cases h with
          | commit hcaller hpermitted =>
              obtain ⟨⟨record, hrecord, _⟩, _⟩ := hsound.callers _ hcaller
              exact absurd (hw.tree (hasUsers_iff.mpr ⟨_, record, hrecord⟩)) hadmin
      | ensureAdmin | lateAdmin =>
          refine founded_of_admin ?_
          rw [htree]
          exact hasAdmin_adminCommand husers hnew _ _
      | @repair key path blockId expected new hkey =>
          obtain ⟨hkept, hops⟩ := repair_users (s := w.replicated) (c := ⟨key, _⟩) hkey rfl
          have hnone : hasUsers w'.tree = false := by
            rw [← Bool.not_eq_true, hasUsers_iff, htree, hkept, ← hasUsers_iff, Bool.not_eq_true]
            exact husers
          refine ⟨fun h' => ?_, fun s hs hs' => absurd (hpast s hs hs') hadmin, fun hop => ?_⟩
          · rw [hnone] at h'
            cases h'
          · rw [happly] at hop
            obtain ⟨o, ho⟩ := Option.ne_none_iff_exists'.mp hop
            rw [hops o ho] at hnew
            cases hnew

theorem founded_run (hjwt : Lawful jwt) {events : List Event} {w : Cluster}
    (hrun : (sessions jwt scrypt ttlS).Run events w) : Founded w := by
  suffices hinv : Sound jwt scrypt ttlS events w ∧ Founded w from hinv.2
  refine hrun.invariant (I := fun events w => Sound jwt scrypt ttlS events w ∧ Founded w) ?_ ?_
  · rintro w rfl
    refine ⟨sound_run hjwt ⟨_, rfl, .start⟩, ?_, ?_, ?_⟩
    · exact fun h => absurd h (by decide)
    · exact fun s h => absurd h List.not_mem_nil
    · exact fun h => absurd rfl h
  · rintro events w e w' ⟨hsound, hw⟩ h
    exact ⟨sound_step hjwt hsound h, founded_step hsound hw h⟩

/-- The creation of the admin leaves every user as it is. -/
theorem kept_adminCommand {s : ReplicatedTree} {u : String} {user : UserRecord}
    (hu : s.tree.users.get? u = some user) (passwordHash salt : List UInt8) :
    (apply (adminCommand passwordHash salt) s).2.tree.users.get? u = some user := by
  rcases users_apply (adminCommand passwordHash salt) s with hkept | ⟨μ, hcall, _, hstep⟩
  · rw [hkept, hu]
  · obtain rfl := Call.mutation.inj hcall
    cases hstep with
    | kept h => rw [h, hu]
    | changed hμ => cases hμ
    | @created v _ _ _ _ _ _ hnew h =>
        rw [h, Function.update_of_ne, hu]
        rintro rfl
        rw [hu] at hnew
        cases hnew

/-- **WHEN A NODE HAS NOTHING LEFT TO DO, THERE IS AN ADMIN**, whatever tree
    the node was at; and no user loses its password to the attempt. -/
theorem admin_of_ensureAdmin (hjwt : Lawful jwt) {events : List Event} {w : Cluster}
    (hrun : (sessions jwt scrypt ttlS).Run events w) {node : ControlTree}
    (hnode : node = w.tree ∨ node ∈ w.past) (leader : Bool) (fate : Fate)
    (passwordHash salt : List UInt8) :
    ((ensureAdmin node leader fate passwordHash salt w.replicated).1 = true →
      HasAdmin (ensureAdmin node leader fate passwordHash salt w.replicated).2.tree) ∧
    ∀ u user, w.tree.users.get? u = some user →
      (ensureAdmin node leader fate passwordHash salt w.replicated).2.tree.users.get? u
        = some user := by
  have hfounded := founded_run hjwt hrun
  have hcommand : HasAdmin (apply (adminCommand passwordHash salt) w.replicated).2.tree := by
    by_cases hadmin : HasAdmin w.tree
    · exact hasAdmin_apply hadmin _
    · refine hasAdmin_adminCommand ?_ ?_ passwordHash salt
      · rw [← Bool.not_eq_true]
        exact fun husers => hadmin (hfounded.tree husers)
      · by_contra hop
        exact hadmin (hfounded.remembered hop)
  constructor
  · intro hdone
    unfold ensureAdmin at hdone ⊢
    by_cases husers : hasUsers node = true
    · rw [if_pos husers]
      rcases hnode with rfl | hpast
      · exact hfounded.tree husers
      · exact hfounded.past node hpast husers
    · rw [if_neg husers] at hdone ⊢
      by_cases hleader : leader = false
      · rw [if_pos hleader] at hdone
        cases hdone
      · rw [if_neg hleader] at hdone ⊢
        cases fate with
        | confirmed => exact hcommand
        | unavailable | unknown reason applied => cases hdone
  · intro u user hu
    rcases ensureAdmin_tree node leader fate passwordHash salt w.replicated with
      hsame | ⟨_, happly⟩
    · rw [hsame]
      exact hu
    · rw [happly]
      exact kept_adminCommand hu passwordHash salt

end Runs

/-- A second node, which has not seen the admin yet, asks for another one. -/
theorem admin_of_ensureAdmin_again :
    HasAdmin (ensureAdmin ControlTree.empty true .confirmed [1] [] adminTree).2.tree ∧
    ∀ u user, adminTree.tree.users.get? u = some user →
      (ensureAdmin ControlTree.empty true .confirmed [1] [] adminTree).2.tree.users.get? u
        = some user :=
  have h := admin_of_ensureAdmin lawful_plainJwt run_adminEvents
    (show ControlTree.empty = adminCluster.tree ∨ ControlTree.empty ∈ adminCluster.past from
      .inr List.mem_cons_self) true .confirmed [1] []
  ⟨h.1 rfl, h.2⟩

end DfshaSessions
