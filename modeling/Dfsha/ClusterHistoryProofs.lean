import Dfsha.LinearizationProofs
import Dfsha.SessionsProofs
import Dfsha.RetryProofs

/-! # What the clients of a cluster see

    Three nodes apply one log.  A try of a mutation reaches some node, which
    may put a command into the log, now or long after the client has given the
    try up; a node that has applied the entry can answer with its outcome.  A
    read puts a barrier into the log and looks at the tree of its node once
    that node has applied the barrier.  Nodes restart and apply the log again;
    answers are lost, and clients try again at other nodes.

    To the clients all of this is one tree that serves one call after the
    other: their histories linearize.  A mutation takes its place where its
    operation is first applied, a read at the prefix it has seen.  The barrier
    is what keeps a read from a prefix that is older than its invocation; the
    memory of the last operations is what keeps a mutation from a second
    place.

    An answer here is the outcome of a command, or what `ListDir`, `ListBlocks`
    or `Login` read.  What an RPC refuses before it commits is no such answer:
    `ChangePassword` checks the current password behind a barrier of its own,
    `BeginWrite` the layout, and a second try may be refused there although the
    first one has taken effect.  To the model such a call has been given up.

    Raft is the log: one sequence of entries, of which each node has applied
    the first ones.  Who is leader does not matter here. -/

namespace DfshaClusterHistory

open FirstOccurrences TransitionSystem TransitionSystem.System Linearization
open DfshaPath DfshaControlTree DfshaReplicatedTree DfshaRetry
open DfshaOperationKey (Principal commitKey isHex32 bootstrapAdminOpId)
open DfshaControlServicer (Request)
open DfshaRpcCommits (Proposes opIdOf sessionCaller)
open DfshaSessions (adminCommand)

/-! ## What is asked, and what is done -/

/-- What an RPC reads in the tree behind its barrier. -/
inductive Query where
  | listDir (path : String) (caller : Option Caller)
  | listBlocks (path : String) (caller : Option Caller)
  | user (username : String)

inductive Answer where
  | outcome (o : Outcome)
  | entries (r : Except PyError (List DirEntryData))
  | blocks (r : Except PyError (List BlockRecord))
  | user (record : Option UserRecord)

def Query.ask : Query → ControlTree → Answer
  | .listDir path caller, tree => .entries (DfshaControlTree.listDir path caller tree).1
  | .listBlocks path caller, tree => .blocks (DfshaControlTree.listBlocks path caller tree).1
  | .user username, tree => .user (tree.users.get? username)

inductive Operation where
  | change (call : Call)
  | query (q : Query)

/-- The tree that one client would use alone. -/
def controlTree : Object ControlTree Operation Answer where
  start := ControlTree.empty
  step
    | .change call, tree => (.outcome (execCall call tree).1, (execCall call tree).2)
    | .query q, tree => (q.ask tree, tree)

/-- What is called: an RPC under a session, a login, a repair of the leader, or
    the creation of the admin, which every node asks for when it starts. -/
inductive Asked where
  | rpc (p : Principal) (request : Request)
  | login (username : String)
  | repair (path blockId : String) (expected new : List String)
  | bootstrap

/-- What it reads, if it is answered from the tree. -/
def Asked.query : Asked → Option Query
  | .rpc p (.listDir path) => some (.listDir path (sessionCaller p))
  | .rpc p (.listBlocks path) => some (.listBlocks path (sessionCaller p))
  | .login username => some (.user username)
  | _ => none

/-- The mutations that it may become. -/
def Asked.Proposes : Asked → Mutation → Prop
  | .rpc p request, μ => DfshaRpcCommits.Proposes p request μ
  | .login _, _ => False
  | .repair path blockId expected new, μ => μ = .updateBlockReplicas path blockId expected new
  | .bootstrap, μ => ∃ passwordHash salt, (adminCommand passwordHash salt).call = .mutation μ

/-- The id of a call.  For one that commits it is the key that its commands
    have in every try. -/
def Identifies : Asked → String → Prop
  | .rpc p request, id => (Asked.rpc p request).query = none →
      opIdOf request ≠ "" ∧ id = commitKey (some p) (opIdOf request)
  | .login _, _ => True
  | .repair .., id => isHex32 id = true
  | .bootstrap, id => id = bootstrapAdminOpId

inductive Realizes : Asked → Operation → Prop
  | change {asked : Asked} {μ : Mutation} (h : asked.Proposes μ) :
      Realizes asked (.change (.mutation μ))
  | query {asked : Asked} {q : Query} (h : asked.query = some q) : Realizes asked (.query q)

/-- What is answered from the tree commits nothing. -/
theorem not_proposes_of_query {asked : Asked} {q : Query} (h : asked.query = some q)
    (μ : Mutation) : ¬ asked.Proposes μ := by
  cases asked with
  | rpc p request =>
      cases request with
      | listDir | listBlocks => exact id
      | _ => cases h
  | login => exact id
  | repair | bootstrap => cases h

/-! ## The cluster -/

inductive LogEntry where
  | command (c : Command)
  | barrier

def LogEntry.command? : LogEntry → Option Command
  | .command c => some c
  | .barrier => none

def commands (log : List LogEntry) : List Command := log.filterMap LogEntry.command?

/-- The state of a node that has applied these entries. -/
def replica (log : List LogEntry) : ReplicatedTree :=
  (commands log).foldl (fun s c => (apply c s).2) ReplicatedTree.empty

/-- The calls that take effect when these commands are executed. -/
def effectsFrom : ControlTree → List Command → List (Entry String Operation Answer)
  | _, [] => []
  | tree, c :: cs => ⟨c.opId, .change c.call, .outcome (execCall c.call tree).1⟩ ::
      effectsFrom (execCall c.call tree).2 cs

def effects (log : List LogEntry) : List (Entry String Operation Answer) :=
  effectsFrom ControlTree.empty (firstApplied (commands log))

/-- An answer on its way to a client; of a read it is known how much of the log
    it has seen. -/
inductive Served where
  | outcome (o : Outcome)
  | read (k : Nat) (q : Query) (answer : Answer)

def Served.answer : Served → Answer
  | .outcome o => .outcome o
  | .read _ _ answer => answer

/-- The places of the reads, when a call gets this answer. -/
def Served.place (call : String) :
    Served → List (Nat × Entry String Operation Answer)
  | .outcome _ => []
  | .read k q answer => [(k, ⟨call, .query q, answer⟩)]

structure Cluster where
  -- the log, and how much of it each node has applied
  log : List LogEntry
  applied : Nat → Nat
  -- the barriers: of which call, at which node, at which place of the log
  barriers : List (String × Nat × Nat)
  -- the answers on their way, and the calls that still wait for one
  answers : List (String × Served)
  running : List String
  -- what the clients have seen, and which prefixes the reads among it
  history : List (Event String Asked Answer × Nat)
  reads : List (Nat × Entry String Operation Answer)

def Cluster.empty : Cluster := ⟨[], fun _ => 0, [], [], [], [], []⟩

/-- How many operations have taken effect. -/
def Cluster.now (s : Cluster) : Nat := (effects s.log).length

/-- What a node has applied. -/
def Cluster.at (s : Cluster) (i : Nat) : List LogEntry := s.log.take (s.applied i)

inductive Label where
  | invoke (call : String) (asked : Asked)
  | commit (call : String) (μ : Mutation)
  | barrier (call : String) (node : Nat)
  | apply (node : Nat)
  | restart (node : Nat)
  | outcome (node place : Nat)
  | read (call : String) (node : Nat)
  | respond (call : String)
  | giveUp (call : String)

inductive Step : Cluster → Label → Cluster → Prop
  -- a client calls, under a fresh id
  | invoke {s : Cluster} {call : String} {asked : Asked}
      (hfresh : ∀ asked', .invoke call asked' ∉ s.history.map Prod.fst)
      (hid : Identifies asked call) :
      Step s (.invoke call asked) { s with
        running := s.running ++ [call]
        history := s.history ++ [(.invoke call asked, s.now)] }
  -- a command of some try enters the log, soon or late, once or again
  | commit {s : Cluster} {call : String} {asked : Asked} {μ : Mutation}
      (hinvoked : .invoke call asked ∈ s.history.map Prod.fst) (hμ : asked.Proposes μ) :
      Step s (.commit call μ) { s with log := s.log ++ [.command ⟨call, .mutation μ⟩] }
  | barrier {s : Cluster} {call : String} {asked : Asked} {i : Nat}
      (hinvoked : .invoke call asked ∈ s.history.map Prod.fst) :
      Step s (.barrier call i) { s with
        log := s.log ++ [.barrier]
        barriers := s.barriers ++ [(call, i, s.log.length)] }
  | apply {s : Cluster} {i : Nat} (h : s.applied i < s.log.length) :
      Step s (.apply i) { s with applied := Function.update s.applied i (s.applied i + 1) }
  -- a node starts again, from a snapshot or from nothing
  | restart {s : Cluster} {i n : Nat} (h : n ≤ s.applied i) :
      Step s (.restart i) { s with applied := Function.update s.applied i n }
  -- a node that has applied a command has its outcome
  | outcome {s : Cluster} {i p : Nat} {c : Command} (hp : p < s.applied i)
      (hc : s.log[p]? = some (.command c)) :
      Step s (.outcome i p) { s with
        answers := s.answers ++
          [(c.opId, .outcome (DfshaReplicatedTree.apply c (replica (s.log.take p))).1)] }
  -- a node that has applied the barrier of a call reads its own tree
  | read {s : Cluster} {call : String} {asked : Asked} {i b : Nat} {q : Query}
      (hinvoked : .invoke call asked ∈ s.history.map Prod.fst) (hq : asked.query = some q)
      (hbarrier : (call, i, b) ∈ s.barriers) (hb : b < s.applied i) :
      Step s (.read call i) { s with
        answers := s.answers ++
          [(call, .read (effects (s.at i)).length q (q.ask (replica (s.at i)).tree))] }
  -- an answer arrives at a call that still waits
  | respond {s : Cluster} {call : String} {served : Served} (hrunning : call ∈ s.running)
      (hanswer : (call, served) ∈ s.answers) :
      Step s (.respond call) { s with
        running := s.running.filter (· ≠ call)
        history := s.history ++ [(.respond call served.answer, s.now)]
        reads := s.reads ++ served.place call }
  -- a call ends without an answer, or is refused before its commit
  | giveUp {s : Cluster} {call : String} :
      Step s (.giveUp call) { s with running := s.running.filter (· ≠ call) }

def cluster : System Cluster Label where
  init := fun s => s = Cluster.empty
  step := Step

/-! ## The effects of a log -/

theorem map_call_effectsFrom (tree : ControlTree) (cs : List Command) :
    (effectsFrom tree cs).map Entry.call = cs.map Command.opId := by
  induction cs generalizing tree with
  | nil => rfl
  | cons c cs ih => rw [effectsFrom, List.map_cons, List.map_cons, ih]

theorem run_effectsFrom (tree : ControlTree) (cs : List Command) :
    controlTree.run tree (effectsFrom tree cs) = treeAfter tree cs := by
  induction cs generalizing tree with
  | nil => rfl
  | cons c cs ih => exact ih _

theorem effectsFrom_append (tree : ControlTree) (xs ys : List Command) :
    effectsFrom tree (xs ++ ys) = effectsFrom tree xs ++ effectsFrom (treeAfter tree xs) ys := by
  induction xs generalizing tree with
  | nil => rfl
  | cons c cs ih =>
      rw [List.cons_append, effectsFrom, effectsFrom, ih]
      rfl

/-- The outcome of an operation is that of its effect. -/
theorem effect_of_outcome {tree : ControlTree} {cs : List Command} {id : String} {o : Outcome}
    (h : (id, o) ∈ outcomes tree cs) :
    ∃ (i : Nat) (op : Operation), (effectsFrom tree cs)[i]? = some ⟨id, op, .outcome o⟩ := by
  induction cs generalizing tree with
  | nil => exact absurd h List.not_mem_nil
  | cons c cs ih =>
      rw [outcomes, List.mem_cons] at h
      rcases h with h | h
      · obtain ⟨rfl, rfl⟩ := Prod.mk.inj h
        exact ⟨0, .change c.call, rfl⟩
      · obtain ⟨i, op, hi⟩ := ih h
        exact ⟨i + 1, op, hi⟩

theorem commands_append (xs ys : List LogEntry) :
    commands (xs ++ ys) = commands xs ++ commands ys := List.filterMap_append

theorem commands_command (log : List LogEntry) (c : Command) :
    commands (log ++ [.command c]) = commands log ++ [c] := commands_append log _

theorem commands_barrier (log : List LogEntry) :
    commands (log ++ [.barrier]) = commands log := by
  rw [commands_append]
  exact List.append_nil _

theorem effects_barrier (log : List LogEntry) : effects (log ++ [.barrier]) = effects log := by
  rw [effects, commands_barrier]
  rfl

/-- Under an operation id that is there already nothing happens. -/
theorem effects_repeat {log : List LogEntry} {c : Command}
    (h : c.opId ∈ (commands log).map Command.opId) :
    effects (log ++ [.command c]) = effects log := by
  rw [effects, commands_command, firstApplied, firsts_concat_seen h]
  rfl

/-- A new operation takes effect on the tree of all before. -/
theorem effects_new {log : List LogEntry} {c : Command}
    (h : c.opId ∉ (commands log).map Command.opId) :
    effects (log ++ [.command c]) = effects log ++ [⟨c.opId, .change c.call,
      .outcome (execCall c.call (controlTree.run ControlTree.empty (effects log))).1⟩] := by
  rw [effects, commands_command, firstApplied, firsts_concat_new h, effectsFrom_append, effects,
    run_effectsFrom]
  rfl

theorem effects_beginning {log log' : List LogEntry} (h : log' <+: log) :
    effects log' <+: effects log := by
  obtain ⟨rest, rfl⟩ := h
  rw [effects, effects, commands_append, firstApplied, firstApplied, firsts_append,
    effectsFrom_append]
  exact List.prefix_append _ _

/-- A node that has applied a log without late repeats is at its effects. -/
theorem tree_replica {log : List LogEntry} (htime : RetriedInTime (commands log)) :
    (replica log).tree = controlTree.run ControlTree.empty (effects log) := by
  have hrun : replicated.Run (commands log) (replica log) :=
    ⟨ReplicatedTree.empty, rfl, path_foldl _ _⟩
  rw [effects, run_effectsFrom]
  exact (remembers_run hrun htime).tree

/-- What a node answers to a command is the outcome of its operation. -/
theorem outcome_at {log : List LogEntry} (htime : RetriedInTime (commands log)) {p : Nat}
    {c : Command} (hp : log[p]? = some (.command c)) :
    (c.opId, (apply c (replica (log.take p))).1) ∈ DfshaRetry.history (commands log) := by
  obtain ⟨hlt, hget⟩ := List.getElem?_eq_some_iff.mp hp
  have hsplit : log = log.take p ++ .command c :: log.drop (p + 1) := by
    rw [← hget, List.getElem_cons_drop, List.take_append_drop]
  have hcommands : commands log = commands (log.take p) ++ c :: commands (log.drop (p + 1)) := by
    conv_lhs => rw [hsplit]
    exact commands_append _ _
  have hrun : replicated.Run (commands log) (replica log) :=
    ⟨ReplicatedTree.empty, rfl, path_foldl _ _⟩
  have hprefix : replicated.Run (commands (log.take p)) (replica (log.take p)) :=
    ⟨ReplicatedTree.empty, rfl, path_foldl _ _⟩
  exact (retries_are_transparent hrun htime).2.2 _ _ _ _ hcommands hprefix

/-! ## The invariant -/

/-- What is so in every reachable state, as long as no operation comes back
    after it has been forgotten. -/
structure Inv (s : Cluster) : Prop where
  placed : Placed controlTree Realizes s.history (effects s.log) s.reads
  stamped : ∀ x ∈ s.history, x.2 ≤ s.now
  invokedOnce : ∀ call asked asked', .invoke call asked ∈ s.history.map Prod.fst →
    .invoke call asked' ∈ s.history.map Prod.fst → asked = asked'
  proposed : ∀ c ∈ commands s.log, ∃ asked μ, .invoke c.opId asked ∈ s.history.map Prod.fst ∧
    c.call = .mutation μ ∧ asked.Proposes μ
  applied : ∀ i, s.applied i ≤ s.log.length
  barriers : ∀ call i b, (call, i, b) ∈ s.barriers → b ≤ s.log.length ∧
    ∃ asked t, (.invoke call asked, t) ∈ s.history ∧ t ≤ (effects (s.log.take b)).length
  outcomes : ∀ call o, (call, .outcome o) ∈ s.answers →
    (call, o) ∈ DfshaRetry.history (commands s.log)
  readings : ∀ call k q answer, (call, .read k q answer) ∈ s.answers → k ≤ s.now ∧
    ReadsAt controlTree (controlTree.run ControlTree.empty ((effects s.log).take k))
      ⟨call, .query q, answer⟩ ∧
    ∃ asked t, (.invoke call asked, t) ∈ s.history ∧ asked.query = some q ∧ t ≤ k
  running : ∀ call ∈ s.running, ∀ answer, .respond call answer ∉ s.history.map Prod.fst
  reads : ∀ r ∈ s.reads, (∃ answer, .respond r.2.call answer ∈ s.history.map Prod.fst) ∧
    ∃ asked q, .invoke r.2.call asked ∈ s.history.map Prod.fst ∧ asked.query = some q

theorem inv_empty : Inv Cluster.empty where
  placed := by
    refine ⟨.nil, trivial, ?_, .nil, .nil, ?_, ?_, ?_, ?_, .nil⟩
    all_goals simp [Cluster.empty, effects, commands, firstApplied, firsts, effectsFrom]
  stamped x hx := absurd hx List.not_mem_nil
  invokedOnce _ _ _ h := absurd h List.not_mem_nil
  proposed c hc := absurd hc List.not_mem_nil
  applied i := Nat.le_refl _
  barriers _ _ _ h := absurd h List.not_mem_nil
  outcomes _ _ h := absurd h List.not_mem_nil
  readings _ _ _ _ h := absurd h List.not_mem_nil
  running _ h := absurd h List.not_mem_nil
  reads _ h := absurd h List.not_mem_nil

section Steps

variable {s s' : Cluster}

/-- A call that reads has no command in the log. -/
theorem Inv.not_command (h : Inv s) {call : String} {asked : Asked} {q : Query}
    (hinvoked : .invoke call asked ∈ s.history.map Prod.fst) (hq : asked.query = some q) :
    call ∉ (commands s.log).map Command.opId := by
  intro hmem
  obtain ⟨c, hc, rfl⟩ := List.mem_map.mp hmem
  obtain ⟨asked', μ, hinvoked', _, hμ⟩ := h.proposed c hc
  obtain rfl := h.invokedOnce _ _ _ hinvoked hinvoked'
  exact not_proposes_of_query hq μ hμ

/-- An effect is that of a command. -/
theorem call_mem_commands {log : List LogEntry} {e : Entry String Operation Answer}
    (h : e ∈ effects log) : e.call ∈ (commands log).map Command.opId := by
  have hmem : e.call ∈ (effects log).map Entry.call := List.mem_map_of_mem h
  rw [effects, map_call_effectsFrom] at hmem
  exact ((firsts_sublist [] (commands log)).map Command.opId).subset hmem

/-- A step that leaves history, log and reads as they are. -/
theorem Inv.keep (h : Inv s) (hhistory : s'.history = s.history) (hlog : s'.log = s.log)
    (hreads : s'.reads = s.reads) (hbarriers : s'.barriers = s.barriers)
    (happlied : ∀ i, s'.applied i ≤ s.log.length)
    (houtcomes : ∀ call o, (call, .outcome o) ∈ s'.answers →
      (call, .outcome o) ∈ s.answers ∨ (call, o) ∈ DfshaRetry.history (commands s.log))
    (hreadings : ∀ call k q answer, (call, .read k q answer) ∈ s'.answers →
      (call, .read k q answer) ∈ s.answers ∨ k ≤ s.now ∧
        ReadsAt controlTree (controlTree.run ControlTree.empty ((effects s.log).take k))
          ⟨call, .query q, answer⟩ ∧
        ∃ asked t, (.invoke call asked, t) ∈ s.history ∧ asked.query = some q ∧ t ≤ k)
    (hrunning : ∀ call ∈ s'.running, call ∈ s.running) : Inv s' := by
  obtain ⟨log', applied', barriers', answers', running', history', reads'⟩ := s'
  dsimp only at hhistory hlog hreads hbarriers
  subst hhistory hlog hreads hbarriers
  exact {
    placed := h.placed
    stamped := h.stamped
    invokedOnce := h.invokedOnce
    proposed := h.proposed
    applied := happlied
    barriers := h.barriers
    outcomes := fun call o hmem => (houtcomes call o hmem).elim (h.outcomes call o) id
    readings := fun call k q answer hmem =>
      (hreadings call k q answer hmem).elim (h.readings call k q answer) id
    running := fun call hmem => h.running call (hrunning call hmem)
    reads := h.reads }

/-- The log grows by an entry. -/
theorem Inv.grow (h : Inv s) {entry : LogEntry} {barriers' : List (String × Nat × Nat)}
    (hplaced : Placed controlTree Realizes s.history (effects (s.log ++ [entry])) s.reads)
    (hproposed : ∀ c, entry = .command c → ∃ asked μ,
      .invoke c.opId asked ∈ s.history.map Prod.fst ∧ c.call = .mutation μ ∧ asked.Proposes μ)
    (hbarriers : ∀ call i b, (call, i, b) ∈ barriers' → (call, i, b) ∈ s.barriers ∨
      b = s.log.length ∧ ∃ asked, .invoke call asked ∈ s.history.map Prod.fst) :
    Inv { s with log := s.log ++ [entry], barriers := barriers' } := by
  have hprefix : effects s.log <+: effects (s.log ++ [entry]) :=
    effects_beginning (List.prefix_append _ _)
  have hle : s.now ≤ (effects (s.log ++ [entry])).length := hprefix.length_le
  have htake : ∀ k, k ≤ s.now → (effects (s.log ++ [entry])).take k = (effects s.log).take k := by
    intro k hk
    obtain ⟨rest, hrest⟩ := hprefix
    rw [← hrest, List.take_append_of_le_length hk]
  refine ⟨hplaced, fun x hx => (h.stamped x hx).trans hle, h.invokedOnce, ?_, ?_, ?_, ?_, ?_,
    h.running, h.reads⟩
  · intro c hc
    rw [commands_append] at hc
    rcases List.mem_append.mp hc with hc | hc
    · exact h.proposed c hc
    · obtain ⟨entry', hentry, hcommand⟩ := List.mem_filterMap.mp hc
      obtain rfl := List.mem_singleton.mp hentry
      refine hproposed c ?_
      cases entry' with
      | command c' => rw [Option.some.inj hcommand]
      | barrier => cases hcommand
  · intro i
    rw [List.length_append]
    exact Nat.le_add_right_of_le (h.applied i)
  · intro call i b hmem
    rw [List.length_append]
    rcases hbarriers call i b hmem with hold | ⟨rfl, asked, hinvoked⟩
    · obtain ⟨hb, hinv⟩ := h.barriers call i b hold
      rw [List.take_append_of_le_length hb]
      exact ⟨Nat.le_add_right_of_le hb, hinv⟩
    · obtain ⟨⟨_, t⟩, hmem, rfl⟩ := List.mem_map.mp hinvoked
      rw [List.take_append_of_le_length (Nat.le_refl _), List.take_length]
      exact ⟨Nat.le_add_right _ _, asked, t, hmem, h.stamped _ hmem⟩
  · intro call o hmem
    rw [commands_append]
    exact (history_initial (List.prefix_append _ _)).subset (h.outcomes call o hmem)
  · intro call k q answer hmem
    obtain ⟨hk, hreads, hinv⟩ := h.readings call k q answer hmem
    refine ⟨hk.trans hle, ?_, hinv⟩
    show ReadsAt controlTree (controlTree.run _ ((effects (s.log ++ [entry])).take k)) _
    rw [htake k hk]
    exact hreads

theorem inv_commit (h : Inv s) {call : String} {asked : Asked} {μ : Mutation}
    (hinvoked : .invoke call asked ∈ s.history.map Prod.fst) (hμ : asked.Proposes μ) :
    Inv { s with log := s.log ++ [.command ⟨call, .mutation μ⟩] } := by
  refine h.grow ?_ ?_ fun _ _ _ hmem => .inl hmem
  · by_cases hseen : call ∈ (commands s.log).map Command.opId
    · rw [effects_repeat hseen]
      exact h.placed
    · rw [effects_new hseen]
      obtain ⟨⟨_, t⟩, hmem, rfl⟩ := List.mem_map.mp hinvoked
      refine h.placed.entry rfl ?_ ?_ hmem (.change hμ) (h.stamped _ hmem)
      · intro hold
        obtain ⟨e, he, rfl⟩ := List.mem_map.mp hold
        exact hseen (call_mem_commands he)
      · -- a read has a query, and what has a query proposes nothing
        rintro r hr rfl
        obtain ⟨_, asked', q, hinvoked', hq⟩ := h.reads r hr
        obtain rfl := h.invokedOnce _ _ _ hinvoked hinvoked'
        exact not_proposes_of_query hq μ hμ
  · rintro c hc
    obtain rfl := LogEntry.command.inj hc
    exact ⟨asked, μ, hinvoked, rfl, hμ⟩

theorem inv_barrier (h : Inv s) {call : String} {asked : Asked} {i : Nat}
    (hinvoked : .invoke call asked ∈ s.history.map Prod.fst) :
    Inv { s with
      log := s.log ++ [.barrier]
      barriers := s.barriers ++ [(call, i, s.log.length)] } := by
  refine h.grow (by rw [effects_barrier]; exact h.placed) (fun c hc => by cases hc) ?_
  intro call' i' b hmem
  rcases List.mem_append.mp hmem with hold | hnew
  · exact .inl hold
  · cases List.mem_singleton.mp hnew
    exact .inr ⟨rfl, asked, hinvoked⟩

/-- An event happens. -/
theorem Inv.happen (h : Inv s) {x : Event String Asked Answer} {running' : List String}
    {reads' : List (Nat × Entry String Operation Answer)}
    (hplaced : Placed controlTree Realizes (s.history ++ [(x, s.now)]) (effects s.log) reads')
    (hfresh : ∀ call asked, x = .invoke call asked →
      ∀ asked', .invoke call asked' ∉ s.history.map Prod.fst)
    (hrunning : ∀ call ∈ running', ∀ answer,
      .respond call answer ∉ s.history.map Prod.fst ∧ x ≠ .respond call answer)
    (hreads : ∀ r ∈ reads', r ∈ s.reads ∨ (∃ answer, x = .respond r.2.call answer) ∧
      ∃ asked q, .invoke r.2.call asked ∈ s.history.map Prod.fst ∧ asked.query = some q) :
    Inv { s with
      running := running'
      history := s.history ++ [(x, s.now)]
      reads := reads' } := by
  have hevents : ∀ y : Event String Asked Answer,
      y ∈ (s.history ++ [(x, s.now)]).map Prod.fst ↔ y ∈ s.history.map Prod.fst ∨ y = x := by
    intro y
    rw [List.map_append, List.mem_append]
    exact or_congr Iff.rfl List.mem_singleton
  refine ⟨hplaced, ?_, ?_, ?_, h.applied, ?_, h.outcomes, ?_, ?_, ?_⟩
  · intro y hy
    rcases List.mem_append.mp hy with hy | hy
    · exact h.stamped y hy
    · obtain rfl := List.mem_singleton.mp hy
      exact Nat.le_refl _
  · intro call a a' ha ha'
    rcases (hevents _).mp ha with hold | hnew
    · rcases (hevents _).mp ha' with hold' | hnew'
      · exact h.invokedOnce call a a' hold hold'
      · exact absurd hold (hfresh call a' hnew'.symm a)
    · rcases (hevents _).mp ha' with hold' | hnew'
      · exact absurd hold' (hfresh call a hnew.symm a')
      · exact (Event.invoke.inj (hnew.trans hnew'.symm)).2
  · intro c hc
    obtain ⟨a, μ, hinvoked, hcall, hμ⟩ := h.proposed c hc
    exact ⟨a, μ, (hevents _).mpr (.inl hinvoked), hcall, hμ⟩
  · intro call i b hmem
    obtain ⟨hb, a, t, hinvoked, ht⟩ := h.barriers call i b hmem
    exact ⟨hb, a, t, List.mem_append_left _ hinvoked, ht⟩
  · intro call k q answer hmem
    obtain ⟨hk, hreads, a, t, hinvoked, hq, ht⟩ := h.readings call k q answer hmem
    exact ⟨hk, hreads, a, t, List.mem_append_left _ hinvoked, hq, ht⟩
  · intro call hmem answer hanswer
    rcases (hevents _).mp hanswer with hold | hnew
    · exact (hrunning call hmem answer).1 hold
    · exact (hrunning call hmem answer).2 hnew.symm
  · intro r hr
    rcases hreads r hr with hold | ⟨⟨answer, hx⟩, a, q, hinvoked, hq⟩
    · obtain ⟨⟨answer, hanswer⟩, a, q, hinvoked, hq⟩ := h.reads r hold
      exact ⟨⟨answer, (hevents _).mpr (.inl hanswer)⟩, a, q,
        (hevents _).mpr (.inl hinvoked), hq⟩
    · exact ⟨⟨answer, (hevents _).mpr (.inr hx.symm)⟩, a, q,
        (hevents _).mpr (.inl hinvoked), hq⟩

/-- Nothing is answered that was not invoked. -/
theorem Inv.invoked_of_respond (h : Inv s) {call : String} {answer : Answer}
    (hanswer : .respond call answer ∈ s.history.map Prod.fst) :
    ∃ asked, .invoke call asked ∈ s.history.map Prod.fst := by
  obtain ⟨⟨_, t⟩, hmem, rfl⟩ := List.mem_map.mp hanswer
  rcases h.placed.answered _ _ t hmem with ⟨i, op, hi, _⟩ | ⟨k, op, hk, _⟩
  · obtain ⟨asked, t', hinvoked, _⟩ := h.placed.invokedEntry i _ hi
    exact ⟨asked, List.mem_map_of_mem hinvoked⟩
  · obtain ⟨asked, t', hinvoked, _⟩ := h.placed.invokedRead k _ hk
    exact ⟨asked, List.mem_map_of_mem hinvoked⟩

theorem inv_invoke (h : Inv s) {call : String} {asked : Asked}
    (hfresh : ∀ asked', .invoke call asked' ∉ s.history.map Prod.fst) :
    Inv { s with
      running := s.running ++ [call]
      history := s.history ++ [(.invoke call asked, s.now)] } := by
  refine h.happen ?_ ?_ ?_ fun r hr => .inl hr
  · exact h.placed.event h.stamped fun c r hr => by cases hr
  · intro call' asked' heq
    cases heq
    exact hfresh
  · refine fun call' hmem answer => ⟨fun hanswer => ?_, by simp⟩
    rcases List.mem_append.mp hmem with hold | hnew
    · exact h.running call' hold answer hanswer
    · obtain rfl := List.mem_singleton.mp hnew
      obtain ⟨asked', hinvoked⟩ := h.invoked_of_respond hanswer
      exact hfresh asked' hinvoked

/-- A node that reads behind a barrier has seen all that was answered before
    its call was invoked. -/
theorem inv_read (h : Inv s) (htime : RetriedInTime (commands s.log)) {call : String}
    {asked : Asked} {i b : Nat} {q : Query}
    (hinvoked : .invoke call asked ∈ s.history.map Prod.fst) (hq : asked.query = some q)
    (hbarrier : (call, i, b) ∈ s.barriers) (hb : b < s.applied i) :
    Inv { s with
      answers := s.answers ++
        [(call, .read (effects (s.at i)).length q (q.ask (replica (s.at i)).tree))] } := by
  have hprefix : s.at i <+: s.log := List.take_prefix _ _
  have heffects : effects (s.at i) <+: effects s.log := effects_beginning hprefix
  refine h.keep rfl rfl rfl rfl h.applied ?_ ?_ fun _ hmem => hmem
  · intro call' o hmem
    rcases List.mem_append.mp hmem with hmem | hmem
    · exact .inl hmem
    · cases List.mem_singleton.mp hmem
  · intro call' k q' answer hmem
    rcases List.mem_append.mp hmem with hmem | hmem
    · exact .inl hmem
    · cases List.mem_singleton.mp hmem
      refine .inr ⟨heffects.length_le, ?_, ?_⟩
      · have hcommands : commands (s.at i) <+: commands s.log := hprefix.filterMap _
        rw [← List.prefix_iff_eq_take.mp heffects, ← tree_replica (htime.initial hcommands)]
        rfl
      · obtain ⟨_, asked', t, hmem, ht⟩ := h.barriers call i b hbarrier
        obtain rfl := h.invokedOnce _ _ _ hinvoked (List.mem_map_of_mem hmem)
        refine ⟨asked, t, hmem, hq, ht.trans ?_⟩
        -- the node has applied the log up to the barrier
        have hupto : s.log.take b <+: s.at i := List.take_prefix_take_left hb.le
        exact (effects_beginning hupto).length_le

/-- A call is answered: with the outcome of its operation, or with what it has
    read in a prefix of its own time. -/
theorem inv_respond (h : Inv s) {call : String} {served : Served} (hrunning : call ∈ s.running)
    (hanswer : (call, served) ∈ s.answers) :
    Inv { s with
      running := s.running.filter (· ≠ call)
      history := s.history ++ [(.respond call served.answer, s.now)]
      reads := s.reads ++ served.place call } := by
  have hopen := h.running call hrunning
  refine h.happen ?_ ?_ ?_ ?_
  · cases served with
    | outcome o =>
        rw [Served.place, List.append_nil]
        refine h.placed.event h.stamped fun c r hr => ?_
        cases hr
        obtain ⟨i, op, hi⟩ := effect_of_outcome (h.outcomes call o hanswer)
        exact .inl ⟨i, op, hi, (List.getElem?_eq_some_iff.mp hi).1⟩
    | read k q answer =>
        obtain ⟨hk, hreads, asked, t, hinvoked, hq, ht⟩ := h.readings call k q answer hanswer
        have hmem : .invoke call asked ∈ s.history.map Prod.fst := List.mem_map_of_mem hinvoked
        have hplaced := h.placed.read hk hreads hinvoked (.query hq) ht ?_ ?_ hopen
        · refine hplaced.event h.stamped fun c r hr => ?_
          cases hr
          exact .inr ⟨k, .query q, List.mem_append_right _ (List.mem_singleton.mpr rfl), hk⟩
        · rintro e he rfl
          exact h.not_command hmem hq (call_mem_commands he)
        · rintro r hr rfl
          obtain ⟨⟨answer', hanswer'⟩, _⟩ := h.reads r hr
          exact hopen answer' hanswer'
  · exact fun call' asked heq => by cases heq
  · intro call' hmem answer
    rw [List.mem_filter, decide_eq_true_eq] at hmem
    refine ⟨h.running call' hmem.1 answer, fun heq => hmem.2 ?_⟩
    exact (Event.respond.inj heq).1.symm
  · intro r hr
    rcases List.mem_append.mp hr with hold | hnew
    · exact .inl hold
    · cases served with
      | outcome o => cases hnew
      | read k q answer =>
          obtain rfl := List.mem_singleton.mp hnew
          obtain ⟨_, _, asked, t, hinvoked, hq, _⟩ := h.readings call k q answer hanswer
          exact .inr ⟨⟨answer, rfl⟩, asked, q, List.mem_map_of_mem hinvoked, hq⟩

/-- A node applies an entry, or starts again. -/
theorem inv_applied (h : Inv s) {i n : Nat} (hn : n ≤ s.log.length) :
    Inv { s with applied := Function.update s.applied i n } := by
  refine h.keep rfl rfl rfl rfl (fun j => ?_) (fun _ _ hmem => .inl hmem)
    (fun _ _ _ _ hmem => .inl hmem) fun _ hmem => hmem
  by_cases hj : j = i
  · subst hj
    dsimp only
    rw [Function.update_self]
    exact hn
  · dsimp only
    rw [Function.update_of_ne hj]
    exact h.applied j

theorem inv_step (h : Inv s) {l : Label} (hstep : Step s l s')
    (htime : RetriedInTime (commands s.log)) : Inv s' := by
  cases hstep with
  | invoke hfresh hid => exact inv_invoke h hfresh
  | commit hinvoked hμ => exact inv_commit h hinvoked hμ
  | barrier hinvoked => exact inv_barrier h hinvoked
  | apply hi => exact inv_applied h hi
  | restart hn => exact inv_applied h (hn.trans (h.applied _))
  | outcome hp hc =>
      refine h.keep rfl rfl rfl rfl h.applied ?_ ?_ fun _ hmem => hmem
      · intro call o hmem
        rcases List.mem_append.mp hmem with hmem | hmem
        · exact .inl hmem
        · cases List.mem_singleton.mp hmem
          exact .inr (outcome_at htime hc)
      · intro call k q answer hmem
        rcases List.mem_append.mp hmem with hmem | hmem
        · exact .inl hmem
        · cases List.mem_singleton.mp hmem
  | read hinvoked hq hbarrier hb => exact inv_read h htime hinvoked hq hbarrier hb
  | respond hrunning hanswer => exact inv_respond h hrunning hanswer
  | giveUp =>
      refine h.keep rfl rfl rfl rfl h.applied (fun _ _ hmem => .inl hmem)
        (fun _ _ _ _ hmem => .inl hmem) ?_
      exact fun _ hmem => (List.mem_filter.mp hmem).1

/-- The log only grows. -/
theorem commands_step {l : Label} (hstep : Step s l s') :
    commands s.log <+: commands s'.log := by
  cases hstep with
  | commit | barrier => exact (List.prefix_append _ _).filterMap _
  | _ => exact List.prefix_refl _

end Steps

theorem inv_run {ls : List Label} {s : Cluster} (hrun : cluster.Run ls s)
    (htime : RetriedInTime (commands s.log)) : Inv s := by
  refine Run.invariant (I := fun _ s => RetriedInTime (commands s.log) → Inv s) hrun ?_ ?_ htime
  · rintro _ rfl _
    exact inv_empty
  · intro _ s₁ l s₂ ih hstep htime
    have htime₁ := htime.initial (commands_step hstep)
    exact inv_step (ih htime₁) hstep htime₁

/-- What the reads see does not change the tree. -/
theorem run_weave {tree : ControlTree} {es : List (Entry String Operation Answer)} {n : Nat}
    {reads : Nat → List (Entry String Operation Answer)}
    (hreads : ∀ k, ∀ e ∈ reads k, ∃ q, e.op = .query q) :
    controlTree.run tree (weave reads n es) = controlTree.run tree es := by
  have hstay : ∀ (tree : ControlTree) (rs : List (Entry String Operation Answer)),
      (∀ e ∈ rs, ∃ q, e.op = .query q) → controlTree.run tree rs = tree := by
    intro tree rs hrs
    induction rs with
    | nil => rfl
    | cons e rs ih =>
        obtain ⟨q, hq⟩ := hrs e List.mem_cons_self
        show controlTree.run (controlTree.step e.op tree).2 rs = tree
        rw [hq]
        exact ih fun e' he' => hrs e' (List.mem_cons_of_mem _ he')
  induction es generalizing tree n with
  | nil => exact hstay tree _ (hreads n)
  | cons e es ih =>
      rw [weave, run_append, hstay tree _ (hreads n)]
      exact ih

open DfshaRpcCommits (eva)

theorem run_next {ls : List Label} {s s' : Cluster} {l : Label} (h : cluster.Run ls s)
    (hstep : Step s l s') : cluster.Run (ls ++ [l]) s' := h.next hstep

/-- A directory is made, by two tries of one request that are both applied;
    then another node lists it. -/
theorem exists_run : ∃ ls, ∃ s : Cluster, cluster.Run ls s ∧ s.running = [] ∧
    s.history.length = 4 ∧ (commands s.log).length < maxAppliedOps := by
  have h₀ : cluster.Run [] Cluster.empty := ⟨_, rfl, .start⟩
  have h₁ := run_next h₀ (l := .invoke "eva:1" (.rpc eva (.makeDir "/a" "1")))
    (.invoke (by simp [Cluster.empty]) fun _ => ⟨by decide, by decide⟩)
  have h₂ := run_next h₁ (l := .commit "eva:1" (.makeDir "/a" (sessionCaller eva)))
    (.commit List.mem_cons_self rfl)
  have h₃ := run_next h₂ (l := .commit "eva:1" (.makeDir "/a" (sessionCaller eva)))
    (.commit List.mem_cons_self rfl)
  have h₄ := run_next h₃ (l := .apply 0) (.apply (by decide))
  have h₅ := run_next h₄ (l := .apply 0) (.apply (by decide))
  have h₆ := run_next h₅ (l := .outcome 0 1) (.outcome (by decide) rfl)
  have h₇ := run_next h₆ (l := .respond "eva:1") (.respond List.mem_cons_self List.mem_cons_self)
  have h₈ := run_next h₇ (l := .invoke "r" (.rpc eva (.listDir "/")))
    (.invoke (by simp [Cluster.empty]) fun h => by cases h)
  have h₉ := run_next h₈ (l := .barrier "r" 1) (.barrier (.tail _ (.tail _ (.head _))))
  have h₁₀ := run_next h₉ (l := .apply 1) (.apply (by decide))
  have h₁₁ := run_next h₁₀ (l := .apply 1) (.apply (by decide))
  have h₁₂ := run_next h₁₁ (l := .apply 1) (.apply (by decide))
  have h₁₃ := run_next h₁₂ (l := .read "r" 1)
    (.read (.tail _ (.tail _ (.head _))) rfl List.mem_cons_self (by decide))
  have h₁₄ := run_next h₁₃ (l := .respond "r")
    (.respond List.mem_cons_self (.tail _ (.head _)))
  refine ⟨_, _, h₁₄, ?_, rfl, ?_⟩
  · decide
  · decide

end DfshaClusterHistory
