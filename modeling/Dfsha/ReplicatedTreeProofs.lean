import Dfsha.ControlTreeEffectProofs
import Dfsha.TransitionSystemProofs
import Mathlib.Logic.Function.Iterate

/-! # The replicated tree

    The state machine that Raft replicates: the control tree and the outcomes
    of the last operations, by operation id.  A command whose id is remembered
    is answered from memory and NOT executed; every other one is executed,
    and its outcome, success or error, is remembered.

    `apply` never raises: a domain exception becomes an error outcome under
    its own class, any other one a generic error. -/

namespace DfshaReplicatedTree

open InsertionDict TransitionSystem DfshaPath DfshaControlTree DfshaMetadata

/-- What a replicated command names: one of the mutations, or something else
    that arrived from the network. -/
inductive Call where
  | mutation (μ : Mutation)
  | unknown (method : String)
deriving DecidableEq

structure Command where
  opId : String
  call : Call
deriving DecidableEq

inductive Outcome where
  | ok (result : Ret)
  | error (cls : ErrorClass) (message : String)
deriving DecidableEq

/-- How many operations the deduplication remembers. -/
def maxAppliedOps : Nat := 10000

structure ReplicatedTree where
  tree : ControlTree
  appliedOps : Dict String Outcome

def ReplicatedTree.empty : ReplicatedTree := ⟨ControlTree.empty, Dict.empty⟩

/-- The name under which a mutation travels. -/
def methodName : Mutation → String
  | .makeDir .. => "make_dir"
  | .removeDir .. => "remove_dir"
  | .removeFile .. => "remove_file"
  | .beginUpload .. => "begin_upload"
  | .confirmBlock .. => "confirm_block"
  | .completeUpload .. => "complete_upload"
  | .abortUpload .. => "abort_upload"
  | .acquireLock .. => "acquire_lock"
  | .renewLock .. => "renew_lock"
  | .releaseLock .. => "release_lock"
  | .updateBlockReplicas .. => "update_block_replicas"
  | .beginWrite .. => "begin_write"
  | .commitWrite .. => "commit_write"
  | .abortWrite .. => "abort_write"
  | .createUser .. => "create_user"
  | .changePassword .. => "change_password"
  | .chmod .. => "chmod"
  | .chown .. => "chown"

def outcomeOf (μ : Mutation) : Except PyError Ret → Outcome
  | .ok r => .ok r
  | .error e =>
      if e.cls.isDomain then .error e.cls e.message
      else .error .dfshaError
        (let method := methodName μ
         s!"error interno en {method}: {e.message}")

def execCall : Call → ControlTree → Outcome × ControlTree
  | .mutation μ, tree => (outcomeOf μ (exec μ tree).1, (exec μ tree).2)
  | .unknown method, tree =>
      (.error .invalidPathError s!"operación desconocida: {pyRepr method}", tree)

/-- Store an outcome, and drop the oldest ones over the limit. -/
def remember (ops : Dict String Outcome) (opId : String) (outcome : Outcome) :
    Dict String Outcome :=
  let ops := ops.insert opId outcome
  Dict.popFirst^[ops.size - maxAppliedOps] ops

/-- `ReplicatedTree.apply`. -/
def apply (c : Command) (s : ReplicatedTree) : Outcome × ReplicatedTree :=
  match s.appliedOps.get? c.opId with
  | some outcome => (outcome, s)
  | none =>
      let r := execCall c.call s.tree
      (r.1, ⟨r.2, remember s.appliedOps c.opId r.1⟩)

/-- The runs of the state machine: any commands, in any order. -/
def replicated : System ReplicatedTree Command :=
  ofFunction ReplicatedTree.empty fun c s => (apply c s).2

theorem step_apply (s : ReplicatedTree) (c : Command) :
    replicated.step s c (apply c s).2 := rfl

theorem run_apply {cmds : List Command} {s : ReplicatedTree}
    (h : replicated.Run cmds s) (c : Command) :
    replicated.Run (cmds ++ [c]) (apply c s).2 := h.next (step_apply s c)

/-! ## What one command does -/

theorem apply_cached {c : Command} {s : ReplicatedTree} {o : Outcome}
    (h : s.appliedOps.get? c.opId = some o) : apply c s = (o, s) := by
  rw [apply, h]

theorem apply_executed {c : Command} {s : ReplicatedTree}
    (h : s.appliedOps.get? c.opId = none) :
    apply c s = ((execCall c.call s.tree).1,
      ⟨(execCall c.call s.tree).2,
        remember s.appliedOps c.opId (execCall c.call s.tree).1⟩) := by
  rw [apply, h]

/-- An outcome that is remembered afterwards is the new one or an old one. -/
theorem get?_remember {ops : Dict String Outcome} {opId k : String}
    {o o' : Outcome} (h : (remember ops opId o).get? k = some o') :
    (k = opId ∧ o' = o) ∨ ops.get? k = some o' := by
  have hpop : ∀ (n : Nat) (d : Dict String Outcome),
      (Dict.popFirst^[n] d).get? k = some o' → d.get? k = some o' := by
    intro n
    induction n with
    | zero => exact fun d hd => hd
    | succ n ih => exact fun d hd => Dict.get?_popFirst_eq_some (ih d.popFirst hd)
  exact Dict.get?_insert_eq_some (hpop _ _ h)

/-- The three things that can happen to a command, seen from the metadata. -/
inductive Applied (c : Command) (s : ReplicatedTree) :
    Outcome → ReplicatedTree → Prop
  | cached {o : Outcome} (h : s.appliedOps.get? c.opId = some o) : Applied c s o s
  | executed {μ : Mutation} {r : Except PyError Ret} {s' : ReplicatedTree}
      (hnew : s.appliedOps.get? c.opId = none) (hcall : c.call = .mutation μ)
      (heffect : Effect μ (metadata s.tree) r (metadata s'.tree))
      (hops : s'.appliedOps = remember s.appliedOps c.opId (outcomeOf μ r)) :
      Applied c s (outcomeOf μ r) s'
  | rejected {s' : ReplicatedTree} {message : String}
      (hnew : s.appliedOps.get? c.opId = none) (htree : s'.tree = s.tree)
      (hops : s'.appliedOps
        = remember s.appliedOps c.opId (.error .invalidPathError message)) :
      Applied c s (.error .invalidPathError message) s'

theorem apply_applied (c : Command) (s : ReplicatedTree) :
    Applied c s (apply c s).1 (apply c s).2 := by
  cases hop : s.appliedOps.get? c.opId with
  | some o =>
      rw [apply_cached hop]
      exact .cached hop
  | none =>
      rw [apply_executed hop]
      cases hcall : c.call with
      | mutation μ =>
          simp only [execCall]
          exact .executed hop hcall
            (DfshaControlTreeEffect.exec_effect μ s.tree) (by dsimp only)
      | unknown method =>
          simp only [execCall]
          exact .rejected hop rfl (by dsimp only)

/-- Only a success is answered with a result. -/
theorem outcomeOf_eq_ok {μ : Mutation} {r : Except PyError Ret} {a : Ret}
    (h : outcomeOf μ r = .ok a) : r = .ok a := by
  cases r with
  | ok b => rw [Outcome.ok.inj h]
  | error e =>
      rw [outcomeOf] at h
      by_cases hd : e.cls.isDomain = true
      · rw [if_pos hd] at h
        exact nomatch h
      · rw [if_neg hd] at h
        exact nomatch h

end DfshaReplicatedTree
