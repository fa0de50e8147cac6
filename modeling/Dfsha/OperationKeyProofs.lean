import Dfsha.DelimitedProofs
import Dfsha.ReplicatedTreeProofs

/-! # Whose operation it is

    The replicated tree answers a command from memory by its operation id
    alone: it does not look at who sends it.  The ids are chosen by the
    clients, so `_commit` ties them to the caller, as `user:op_id`, and the
    internal threads use keys of their own without a colon.

    A user name has no colon, so a key says who it belongs to.  What is
    remembered under a key is the outcome of a command that was executed under
    it, in every run and whatever has been evicted since.  Together: nobody is
    answered with the outcome of another, and nobody keeps the operation of
    another from being executed. -/

namespace DfshaOperationKey

open InsertionDict TransitionSystem TransitionSystem.System
open DfshaControlTree DfshaReplicatedTree

/-- Who calls, as a verified token says; the name is one that `create_user`
    accepts. -/
structure Principal where
  username : String
  groups : List String
  isAdmin : Bool
  valid : validName username = true

/-- The key of the bootstrap of the admin. -/
def bootstrapAdminOpId : String := "bootstrap-admin"

/-- `uuid4().hex`: 32 hexadecimal digits. -/
def isHex32 (key : String) : Bool :=
  key.toList.length = 32 &&
    key.toList.all fun c => '0' ≤ c ∧ c ≤ '9' ∨ 'a' ≤ c ∧ c ≤ 'f'

/-- A key that the leader itself draws. -/
structure InternalKey where
  key : String
  internal : key = bootstrapAdminOpId ∨ isHex32 key = true

/-- The key under which `_commit` replicates an operation. -/
def commitKey (principal : Option Principal) (opId : String) : String :=
  match principal with
  | none => opId
  | some p => p.username ++ ":" ++ opId

/-- Something that a leader tries to commit: for an RPC or for itself. -/
inductive Submission where
  | rpc (principal : Principal) (opId : String) (call : Call)
  | internal (key : InternalKey) (call : Call)

/-- Whose operation a submission is: that of a user, or an internal one. -/
inductive Owner where
  | user (username : String)
  | internal
deriving DecidableEq

namespace Submission

def owner : Submission → Owner
  | .rpc p _ _ => .user p.username
  | .internal _ _ => .internal

/-- The operation id as its owner chose it. -/
def opId : Submission → String
  | .rpc _ opId _ => opId
  | .internal k _ => k.key

/-- The command that is replicated; an RPC without an operation id is refused. -/
def command : Submission → Option Command
  | .rpc p opId call =>
      if opId = "" then none else some ⟨commitKey (some p) opId, call⟩
  | .internal k call => some ⟨k.key, call⟩

end Submission

def submit (sub : Submission) (s : ReplicatedTree) : ReplicatedTree :=
  match sub.command with
  | none => s
  | some c => (apply c s).2

/-- The runs of the cluster: any submissions, in the order of the log. -/
def submissions : System ReplicatedTree Submission :=
  ofFunction ReplicatedTree.empty submit

/-! ## A key says whose it is -/

theorem colon_not_mem_of_validName {name : String} (h : validName name = true) :
    ':' ∉ name.toList := by
  unfold validName at h
  cases hname : name.toList with
  | nil => exact List.not_mem_nil
  | cons c cs =>
      rw [hname] at h
      simp only [Bool.and_eq_true, decide_eq_true_eq, List.all_eq_true] at h
      intro hmem
      rcases List.mem_cons.mp hmem with rfl | hrest
      · exact absurd h.1.1 (by decide)
      · exact absurd (h.2 _ hrest) (by decide)

theorem colon_not_mem_of_internal (k : InternalKey) : ':' ∉ k.key.toList := by
  rcases k.internal with h | h
  · rw [h]
    decide
  · unfold isHex32 at h
    simp only [Bool.and_eq_true, List.all_eq_true] at h
    intro hmem
    exact absurd (h.2 _ hmem) (by decide)

theorem toList_commitKey (p : Principal) (opId : String) :
    (commitKey (some p) opId).toList = p.username.toList ++ ':' :: opId.toList := by
  rw [commitKey, String.toList_append, String.toList_append, List.append_assoc]
  rfl

/-- The key of a user is that of one user and one operation id. -/
theorem commitKey_inj {p q : Principal} {a b : String}
    (h : commitKey (some p) a = commitKey (some q) b) :
    p.username = q.username ∧ a = b := by
  have hlist := congrArg String.toList h
  rw [toList_commitKey, toList_commitKey] at hlist
  obtain ⟨hname, hop⟩ := Delimited.append_cons_inj
    (colon_not_mem_of_validName p.valid) (colon_not_mem_of_validName q.valid) hlist
  exact ⟨String.toList_inj.mp hname, String.toList_inj.mp hop⟩

theorem commitKey_ne_internal (p : Principal) (a : String) (k : InternalKey) :
    commitKey (some p) a ≠ k.key := by
  intro h
  refine colon_not_mem_of_internal k ?_
  rw [← h, toList_commitKey]
  exact List.mem_append_right _ List.mem_cons_self

/-- **A KEY SAYS WHOSE OPERATION IT IS**, and which one. -/
theorem owner_of_key {sub sub' : Submission} {c c' : Command} (h : sub.command = some c)
    (h' : sub'.command = some c') (hkey : c'.opId = c.opId) :
    sub'.owner = sub.owner ∧ sub'.opId = sub.opId := by
  have hrpc : ∀ {p : Principal} {opId : String} {call : Call} {d : Command},
      (Submission.rpc p opId call).command = some d → d.opId = commitKey (some p) opId := by
    intro p opId call d hd
    rw [Submission.command] at hd
    by_cases hempty : opId = ""
    · rw [if_pos hempty] at hd
      cases hd
    · rw [if_neg hempty] at hd
      rw [← Option.some.inj hd]
  have hinternal : ∀ {k : InternalKey} {call : Call} {d : Command},
      (Submission.internal k call).command = some d → d.opId = k.key := by
    intro k call d hd
    rw [← Option.some.inj hd]
  cases sub with
  | rpc p opId call =>
      cases sub' with
      | rpc p' opId' call' =>
          rw [hrpc h, hrpc h'] at hkey
          obtain ⟨hname, hop⟩ := commitKey_inj hkey
          exact ⟨congrArg Owner.user hname, hop⟩
      | internal k' call' =>
          rw [hrpc h, hinternal h'] at hkey
          exact absurd hkey.symm (commitKey_ne_internal p opId k')
  | internal k call =>
      cases sub' with
      | rpc p' opId' call' =>
          rw [hinternal h, hrpc h'] at hkey
          exact absurd hkey (commitKey_ne_internal p' opId' k)
      | internal k' call' =>
          rw [hinternal h, hinternal h'] at hkey
          exact ⟨rfl, hkey⟩

/-! ## What is remembered was executed -/

/-- The command of a submission, executed in a state, gives the outcome. -/
structure Executes (sub : Submission) (s : ReplicatedTree) (c : Command) (o : Outcome) :
    Prop where
  command : sub.command = some c
  executed : s.appliedOps.get? c.opId = none
  outcome : o = (execCall c.call s.tree).1

/-- Some submission of the run, executed when its turn came, gave the outcome
    that is remembered under the key. -/
def ExecutedIn (subs : List Submission) (key : String) (o : Outcome) : Prop :=
  ∃ pre sub post s c, subs = pre ++ sub :: post ∧ submissions.Run pre s ∧
    Executes sub s c o ∧ c.opId = key

theorem ExecutedIn.concat {subs : List Submission} {key : String} {o : Outcome}
    (h : ExecutedIn subs key o) (sub : Submission) : ExecutedIn (subs ++ [sub]) key o := by
  obtain ⟨pre, sub', post, s, c, rfl, hrun, hexec, hkey⟩ := h
  refine ⟨pre, sub', post ++ [sub], s, c, ?_, hrun, hexec, hkey⟩
  rw [List.append_assoc, List.cons_append]

/-- **EVERY REMEMBERED OUTCOME WAS PRODUCED BY AN EXECUTION** under its key. -/
theorem remembered_was_executed {subs : List Submission} {s : ReplicatedTree}
    (hrun : submissions.Run subs s) :
    ∀ key o, s.appliedOps.get? key = some o → ExecutedIn subs key o := by
  suffices hinv : submissions.Run subs s ∧
      ∀ key o, s.appliedOps.get? key = some o → ExecutedIn subs key o from hinv.2
  refine hrun.invariant (I := fun subs s => submissions.Run subs s ∧
    ∀ key o, s.appliedOps.get? key = some o → ExecutedIn subs key o) ?_ ?_
  · rintro s rfl
    exact ⟨⟨_, rfl, .start⟩, fun key o h => by cases h⟩
  · rintro subs s sub s' ⟨hrun, hs⟩ hstep
    refine ⟨hrun.next hstep, ?_⟩
    intro key o hkey
    have hs' : s' = submit sub s := hstep
    rw [hs', submit] at hkey
    cases hc : sub.command with
    | none =>
        rw [hc] at hkey
        exact (hs key o hkey).concat sub
    | some c =>
        rw [hc] at hkey
        cases hop : s.appliedOps.get? c.opId with
        | some o' =>
            simp only [apply_cached hop] at hkey
            exact (hs key o hkey).concat sub
        | none =>
            simp only [apply_executed hop] at hkey
            rcases get?_remember hkey with ⟨rfl, rfl⟩ | hold
            · exact ⟨subs, sub, [], s, c, rfl, hrun, ⟨hc, hop, rfl⟩, rfl⟩
            · exact (hs key o hold).concat sub

/-! ## Isolation -/

/-- The outcome comes from a command of the owner of the submission: from the
    command itself, executed now, or from an earlier one of the same owner
    under the same operation id. -/
inductive ComesFromOwner (subs : List Submission) (s : ReplicatedTree) (sub : Submission)
    (o : Outcome) : Prop
  | executed (c : Command) (h : Executes sub s c o)
  | repeated (pre post : List Submission) (sub' : Submission) (s' : ReplicatedTree)
      (c' : Command) (hsubs : subs = pre ++ sub' :: post)
      (hrun : submissions.Run pre s') (hexec : Executes sub' s' c' o)
      (howner : sub'.owner = sub.owner) (hopId : sub'.opId = sub.opId)

/-- **NOBODY IS ANSWERED WITH, OR HELD UP BY, THE OPERATION OF ANOTHER.**
    After every run, the outcome of a submission comes from a command of its
    own owner; and if the submission is not executed, its own owner had an
    earlier submission under the same operation id executed. -/
theorem outcomes_stay_with_their_owner {subs : List Submission} {s : ReplicatedTree}
    {sub : Submission} {c : Command} (hrun : submissions.Run subs s)
    (hc : sub.command = some c) :
    ComesFromOwner subs s sub (apply c s).1 ∧
    (s.appliedOps.get? c.opId ≠ none → ∃ pre sub' post s' c' o,
      subs = pre ++ sub' :: post ∧ submissions.Run pre s' ∧ Executes sub' s' c' o ∧
      sub'.owner = sub.owner ∧ sub'.opId = sub.opId) := by
  have hrepeated : ∀ o, s.appliedOps.get? c.opId = some o → ∃ pre sub' post s' c',
      subs = pre ++ sub' :: post ∧ submissions.Run pre s' ∧ Executes sub' s' c' o ∧
      sub'.owner = sub.owner ∧ sub'.opId = sub.opId := by
    intro o ho
    obtain ⟨pre, sub', post, s', c', hsubs, hrun', hexec, hkey⟩ :=
      remembered_was_executed hrun c.opId o ho
    obtain ⟨howner, hopId⟩ := owner_of_key hc hexec.command hkey
    exact ⟨pre, sub', post, s', c', hsubs, hrun', hexec, howner, hopId⟩
  cases hop : s.appliedOps.get? c.opId with
  | none =>
      refine ⟨?_, fun h => absurd rfl h⟩
      rw [apply_executed hop]
      exact .executed c ⟨hc, hop, rfl⟩
  | some o =>
      obtain ⟨pre, sub', post, s', c', hsubs, hrun', hexec, howner, hopId⟩ := hrepeated o hop
      rw [apply_cached hop]
      exact ⟨.repeated pre post sub' s' c' hsubs hrun' hexec howner hopId,
        fun _ => ⟨pre, sub', post, s', c', o, hsubs, hrun', hexec, howner, hopId⟩⟩

def ana : Principal := ⟨"ana", ["ana"], false, by decide⟩

def bob : Principal := ⟨"bob", ["bob"], false, by decide⟩

def anaMkdir : Submission :=
  .rpc ana "op-1" (.mutation (.makeDir "/docs" (some ⟨"ana", ["ana"], false⟩)))

def bobMkdir : Submission :=
  .rpc bob "op-1" (.mutation (.makeDir "/docs" (some ⟨"bob", ["bob"], false⟩)))

/-- The second user takes the operation id of the first one.  He is not
    answered that his directory was made: his own command is executed. -/
theorem outcomes_stay_with_their_owner_bob :
    ∃ c, bobMkdir.command = some c ∧
      ComesFromOwner [anaMkdir] (submit anaMkdir ReplicatedTree.empty) bobMkdir
        (apply c (submit anaMkdir ReplicatedTree.empty)).1 :=
  have hrun : submissions.Run [anaMkdir] (submit anaMkdir ReplicatedTree.empty) :=
    ⟨_, rfl, Path.one rfl⟩
  ⟨_, rfl, (@outcomes_stay_with_their_owner _ _ bobMkdir _ hrun rfl).1⟩

end DfshaOperationKey
