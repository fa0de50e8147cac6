import Dfsha.BlockStoreProofs
import Dfsha.LinkedCellsProofs
import Dfsha.TransitionSystemProofs

/-! # The write pipeline

    A block goes from the client to a chain of DataNodes.  Each node writes
    what it receives and at the same time puts every chunk in a bounded queue,
    from which a thread of its own forwards it to the next node.  When the
    local write ends the node waits for the answer of the next one, and
    answers only if both copies have the same checksum.

    The model has one hop for each node: the handler of `WriteBlock`, the
    stream it reads, its queue and its forwarding thread.  Every hop moves by
    itself, in any order.  Six labels are failures: the incoming stream is
    cut, the local disk raises, a copy cannot be thrown away, the call is
    rejected, the forwarding RPC ends early, the node crashes. -/

namespace DfshaWriteBlock

open TransitionSystem
open DfshaBlockStore (Bytes hola)

/-- What travels in the stream of a `WriteBlock`.  The block id, the same in
    every header, is left out. -/
inductive Message where
  | header (downstream : List String)
  | data (chunk : Bytes)
deriving DecidableEq

/-- `msg.data`, which is empty in a header. -/
def Message.chunk : Message → Bytes
  | .header _ => []
  | .data chunk => chunk

/-- What follows the messages already received. -/
inductive StreamEnd where
  | live
  | finished
  | broken
deriving DecidableEq

structure Response where
  checksum : String
  bytesWritten : Nat
deriving DecidableEq

/-- Where the handler of a hop is. -/
inductive Phase where
  | idle
  /-- in `next(request_iterator)` -/
  | waiting
  /-- before `write_block` asks for its first chunk -/
  | creating
  /-- `write_block` asks for a chunk -/
  | reading
  /-- `tee` puts a chunk in the queue -/
  | putting (chunk : Bytes)
  /-- `write_block` has got a chunk -/
  | writing
  /-- `tee` puts the sentinel, at the end of the stream or as an exception
      passes -/
  | closing (raised : Bool)
  /-- all chunks have been read -/
  | finalizing
  /-- in `forwarding.result()` -/
  | awaiting (written : Response)
  /-- it has answered, or raised -/
  | done (answer : Option Response)
deriving DecidableEq

/-- After the end of the loop of `tee`. -/
def Phase.Ended : Phase → Prop
  | .finalizing | .awaiting _ | .done _ => True
  | _ => False

/-- The forwarding thread; its answer is none when the RPC raises. -/
inductive Forwarder where
  | absent
  | submitted
  | running
  /-- the request generator has returned -/
  | drained
  | answered (answer : Option Response)
  | cancelled
deriving DecidableEq

structure Hop where
  address : String := ""
  downstream : List String := []
  phase : Phase := .idle
  /-- received and not read yet -/
  rx : List Message := []
  rxEnd : StreamEnd := .live
  /-- the chunks that `write_block` has got -/
  got : List Bytes := []
  queue : List (Option Bytes) := []
  forwarder : Forwarder := .absent
  /-- what this call has published under the block id -/
  published : Option Bytes := none
deriving DecidableEq

def queueDepthChunks : Nat := 4

/-- `Future.cancel`: it stops only what has not started. -/
def Forwarder.cancel : Forwarder → Forwarder
  | .submitted => .cancelled
  | f => f

/-- The forwarding thread when its node crashes. -/
def Forwarder.crash : Forwarder → Forwarder
  | .submitted => .cancelled
  | .running => .answered none
  | .drained => .answered none
  | f => f

/-! ## One hop -/

/-- What a hop does by itself. -/
inductive Act where
  | accept
  | create
  | receive
  | put
  | write
  | close
  | publish
  | collect
  -- the failures
  | cut
  | fail
  | unlinkFails
  | reject
  | lose
  | stop
  | crash
deriving DecidableEq

/-- The first message of the stream. -/
def accept (h : Hop) : Option Hop :=
  if h.phase = .waiting then
    match h.rx with
    | .header downstream :: rest => some { h with
        phase := .creating
        rx := rest
        downstream := downstream
        forwarder := if downstream = [] then .absent else .submitted }
    | .data _ :: _ => some { h with phase := .done none }
    | [] => if h.rxEnd = .live then none else some { h with phase := .done none }
  else none

/-- The next turn of the loop of `write_block`, through `tee` when the block is
    forwarded. -/
def receive (h : Hop) : Option Hop :=
  if h.phase = .reading then
    match h.rx with
    | message :: rest =>
        if h.downstream = [] then
          some { h with phase := .writing, rx := rest, got := h.got ++ [message.chunk] }
        else some { h with phase := .putting message.chunk, rx := rest }
    | [] =>
        match h.rxEnd with
        | .live => none
        | .finished => some { h with
            phase := if h.downstream = [] then .finalizing else .closing false }
        | .broken => some { h with
            phase := if h.downstream = [] then .done none else .closing true }
  else none

/-- `pending.put(msg.data)`, which waits for room, and the `yield`. -/
def put (h : Hop) : Option Hop :=
  match h.phase with
  | .putting chunk =>
      if h.queue.length < queueDepthChunks then
        some { h with
          phase := .writing, queue := h.queue ++ [some chunk], got := h.got ++ [chunk] }
      else none
  | _ => none

/-- `pending.put(None)`, which waits for room, and what follows it: the
    generator ends, or the exception reaches `forwarding.cancel()`.  A thread
    that starts in between might as well have started before. -/
def close (h : Hop) : Option Hop :=
  match h.phase with
  | .closing raised =>
      if h.queue.length < queueDepthChunks then
        some { h with
          queue := h.queue ++ [none]
          phase := if raised then .done none else .finalizing
          forwarder := if raised then h.forwarder.cancel else h.forwarder }
      else none
  | _ => none

/-- `os.replace`: the copy is published with its checksum. -/
def publish (digest : Bytes → String) (h : Hop) : Option Hop :=
  if h.phase = .finalizing then
    let content := h.got.flatten
    let written : Response := ⟨digest content, content.length⟩
    some { h with
      published := some content
      phase := if h.downstream = [] then .done (some written) else .awaiting written }
  else none

/-- `forwarding.result()` and the comparison of the checksums. -/
def collect (h : Hop) : Option Hop :=
  match h.phase, h.forwarder with
  | .awaiting written, .answered (some answer) => some { h with
      phase := .done (if answer.checksum = written.checksum then some written else none) }
  | .awaiting _, .answered none => some { h with phase := .done none }
  | .awaiting _, .cancelled => some { h with phase := .done none }
  | _, _ => none

/-- Whether `_discard_local` runs. -/
def discards (h : Hop) : Bool :=
  match h.phase, h.forwarder with
  | .awaiting written, .answered (some answer) => answer.checksum ≠ written.checksum
  | .awaiting _, .answered none => true
  | _, _ => false

/-- `_discard_local` raises: `unlink` has left the copy where it was, and the
    handler ends with that error. -/
def unlinkFails (h : Hop) : Option Hop :=
  if discards h then some { h with phase := .done none } else none

/-- The local write raises: nothing of it is left. -/
def fail (h : Hop) : Option Hop :=
  match h.phase with
  -- `tee` has not started, so its `finally` does not run
  | .creating => some { h with phase := .done none, forwarder := h.forwarder.cancel }
  | .writing => some { h with
      phase := if h.downstream = [] then .done none else .closing true
      forwarder := h.forwarder.cancel }
  | .finalizing => some { h with phase := .done none, forwarder := h.forwarder.cancel }
  | _ => none

/-- The capability or the block id of the header is not accepted. -/
def reject (h : Hop) : Option Hop :=
  match h.phase, h.rx with
  | .waiting, .header _ :: _ => some { h with phase := .done none }
  | _, _ => none

/-- The incoming stream is cancelled or its connection is lost. -/
def cut (h : Hop) : Option Hop :=
  if h.phase = .idle ∨ h.rxEnd = .broken then none
  else some { h with rx := [], rxEnd := .broken }

/-- The forwarding RPC ends early. -/
def lose (h : Hop) : Option Hop :=
  match h.forwarder with
  | .submitted | .running | .drained => some { h with forwarder := .answered none }
  | _ => none

/-- The node is being stopped: `close` cancels a forwarding that no thread has
    begun, or leaves it a closed channel, and `forwarding.result()` raises what
    is no `RpcError`. -/
def stop (h : Hop) : Option Hop :=
  if h.forwarder = .submitted then some { h with forwarder := .cancelled } else none

def crash (h : Hop) : Option Hop :=
  match h.phase with
  | .idle | .done _ => none
  | _ => some { h with phase := .done none, forwarder := h.forwarder.crash }

def act (digest : Bytes → String) (h : Hop) : Act → Option Hop
  | .accept => accept h
  | .create => if h.phase = .creating then some { h with phase := .reading } else none
  | .receive => receive h
  | .put => put h
  | .write => if h.phase = .writing then some { h with phase := .reading } else none
  | .close => close h
  | .publish => publish digest h
  | .collect => collect h
  | .cut => cut h
  | .fail => fail h
  | .unlinkFails => unlinkFails h
  | .reject => reject h
  | .lose => lose h
  | .stop => stop h
  | .crash => crash h

/-! ## The chain -/

/-- The hops by their place in the chain, and what each address stores under
    the block id. -/
structure Pipeline where
  hops : Nat → Hop
  store : String → Option Bytes

inductive Label where
  | acts (i : Nat) (a : Act)
  -- the thread of the hop `i` and the stream of the next hop
  | start (i : Nat)
  | take (i : Nat)
  | answer (i : Nat)
  -- the end of a lost RPC reaches the next hop
  | reset (i : Nat)
deriving DecidableEq

/-- What the store is after an act of a hop. -/
def storeAfter (h : Hop) (store : String → Option Bytes) : Act → String → Option Bytes
  | .publish => Function.update store h.address (some h.got.flatten)
  | .collect =>
      if discards h then Function.update store h.address none else store
  | _ => store

/-- A hop whose stream has just been opened with its header. -/
def opened : List String → Hop
  | [] => {}
  | address :: downstream => { address, phase := .waiting, rx := [.header downstream] }

/-- What the request generator yields reaches the next hop, if its stream is
    still there. -/
def deliver (h : Hop) : Option Bytes → Hop
  | some chunk => if h.rxEnd = .live then { h with rx := h.rx ++ [.data chunk] } else h
  | none => if h.rxEnd = .live then { h with rxEnd := .finished } else h

/-- Change one hop. -/
def Pipeline.setHop (s : Pipeline) (i : Nat) (h : Hop) : Pipeline :=
  { s with hops := Function.update s.hops i h }

/-- Change a hop and the next. -/
def Pipeline.setPair (s : Pipeline) (i : Nat) (h h' : Hop) : Pipeline :=
  (s.setHop i h).setHop (i + 1) h'

def next (digest : Bytes → String) (s : Pipeline) : Label → Option Pipeline
  | .acts i a => (act digest (s.hops i) a).map fun h =>
      { s.setHop i h with store := storeAfter (s.hops i) s.store a }
  | .start i =>
      let h := s.hops i
      if h.forwarder = .submitted then
        some (s.setPair i { h with forwarder := .running } (opened h.downstream))
      else none
  | .take i =>
      let h := s.hops i
      match h.forwarder, h.queue with
      | .running, item :: rest =>
          let forwarder := if item = none then Forwarder.drained else .running
          some (s.setPair i { h with queue := rest, forwarder }
            (deliver (s.hops (i + 1)) item))
      | _, _ => none
  | .answer i =>
      let h := s.hops i
      match h.forwarder, (s.hops (i + 1)).phase with
      | .running, .done answer | .drained, .done answer =>
          some (s.setHop i { h with forwarder := .answered answer })
      | _, _ => none
  | .reset i =>
      let h := s.hops (i + 1)
      match (s.hops i).forwarder with
      | .answered _ =>
          if h.phase ≠ .idle ∧ h.rxEnd = .live then
            some (s.setHop (i + 1) { h with rx := [], rxEnd := .broken })
          else none
      | _ => none

/-- The hop of the first node, with everything the client sends. -/
def head (chain : List String) (chunks : List Bytes) : Hop :=
  match chain with
  | [] => {}
  | address :: downstream => {
      address
      phase := .waiting
      rx := .header downstream :: chunks.map .data
      rxEnd := .finished }

/-- A `WriteBlock` of some chunks through a chain of nodes, which may store
    anything before. -/
def pipeline (digest : Bytes → String) (chain : List String) (chunks : List Bytes) :
    System Pipeline Label where
  init := fun s => s.hops = Function.update (fun _ => {}) 0 (head chain chunks)
  step := fun s l s' => next digest s l = some s'

/-! ## What an act does -/

/-- The acts, one by one. -/
inductive Acts (digest : Bytes → String) (h : Hop) : Act → Hop → Prop
  | accept {downstream : List String} {rest : List Message}
      (hphase : h.phase = .waiting) (hrx : h.rx = .header downstream :: rest) :
      Acts digest h .accept { h with
        phase := .creating
        rx := rest
        downstream := downstream
        forwarder := if downstream = [] then .absent else .submitted }
  -- no header, or no message at all
  | refuse (hphase : h.phase = .waiting)
      (hrx : ∀ downstream rest, h.rx ≠ .header downstream :: rest) :
      Acts digest h .accept { h with phase := .done none }
  | create (hphase : h.phase = .creating) :
      Acts digest h .create { h with phase := .reading }
  | receive {message : Message} {rest : List Message} (hphase : h.phase = .reading)
      (hrx : h.rx = message :: rest) (hforward : h.downstream ≠ []) :
      Acts digest h .receive { h with phase := .putting message.chunk, rx := rest }
  | receiveLast {message : Message} {rest : List Message} (hphase : h.phase = .reading)
      (hrx : h.rx = message :: rest) (hlast : h.downstream = []) :
      Acts digest h .receive { h with
        phase := .writing, rx := rest, got := h.got ++ [message.chunk] }
  | receiveEnd (hphase : h.phase = .reading) (hrx : h.rx = [])
      (hend : h.rxEnd = .finished) (hforward : h.downstream ≠ []) :
      Acts digest h .receive { h with phase := .closing false }
  | receiveEndLast (hphase : h.phase = .reading) (hrx : h.rx = [])
      (hend : h.rxEnd = .finished) (hlast : h.downstream = []) :
      Acts digest h .receive { h with phase := .finalizing }
  | receiveBroken (hphase : h.phase = .reading) (hrx : h.rx = [])
      (hend : h.rxEnd = .broken) (hforward : h.downstream ≠ []) :
      Acts digest h .receive { h with phase := .closing true }
  | receiveBrokenLast (hphase : h.phase = .reading) (hrx : h.rx = [])
      (hend : h.rxEnd = .broken) (hlast : h.downstream = []) :
      Acts digest h .receive { h with phase := .done none }
  | put {chunk : Bytes} (hphase : h.phase = .putting chunk)
      (hroom : h.queue.length < queueDepthChunks) :
      Acts digest h .put { h with
        phase := .writing, queue := h.queue ++ [some chunk], got := h.got ++ [chunk] }
  | write (hphase : h.phase = .writing) :
      Acts digest h .write { h with phase := .reading }
  | close (hphase : h.phase = .closing false)
      (hroom : h.queue.length < queueDepthChunks) :
      Acts digest h .close { h with queue := h.queue ++ [none], phase := .finalizing }
  | closeRaised (hphase : h.phase = .closing true)
      (hroom : h.queue.length < queueDepthChunks) :
      Acts digest h .close { h with
        queue := h.queue ++ [none]
        phase := .done none
        forwarder := h.forwarder.cancel }
  | publish (hphase : h.phase = .finalizing) (hforward : h.downstream ≠ []) :
      Acts digest h .publish { h with
        published := some h.got.flatten
        phase := .awaiting ⟨digest h.got.flatten, h.got.flatten.length⟩ }
  | publishLast (hphase : h.phase = .finalizing) (hlast : h.downstream = []) :
      Acts digest h .publish { h with
        published := some h.got.flatten
        phase := .done (some ⟨digest h.got.flatten, h.got.flatten.length⟩) }
  | collect {written answer : Response} (hphase : h.phase = .awaiting written)
      (hforwarder : h.forwarder = .answered (some answer))
      (hsame : answer.checksum = written.checksum) :
      Acts digest h .collect { h with phase := .done (some written) }
  | collectFailed {written : Response} (hphase : h.phase = .awaiting written)
      (hforwarder : ∀ answer, h.forwarder = .answered (some answer) →
        answer.checksum ≠ written.checksum) :
      Acts digest h .collect { h with phase := .done none }
  | unlinkFails {written : Response} (hphase : h.phase = .awaiting written) :
      Acts digest h .unlinkFails { h with phase := .done none }
  | cut (hphase : h.phase ≠ .idle) (hend : h.rxEnd ≠ .broken) :
      Acts digest h .cut { h with rx := [], rxEnd := .broken }
  | fail (hphase : h.phase = .creating ∨ h.phase = .finalizing ∨
        h.phase = .writing ∧ h.downstream = []) :
      Acts digest h .fail { h with phase := .done none, forwarder := h.forwarder.cancel }
  | failForwarding (hphase : h.phase = .writing) (hforward : h.downstream ≠ []) :
      Acts digest h .fail { h with
        phase := .closing true, forwarder := h.forwarder.cancel }
  | reject (hphase : h.phase = .waiting) : Acts digest h .reject { h with phase := .done none }
  | lose (hforwarder : h.forwarder = .submitted ∨ h.forwarder = .running ∨
        h.forwarder = .drained) :
      Acts digest h .lose { h with forwarder := .answered none }
  | stop (hforwarder : h.forwarder = .submitted) :
      Acts digest h .stop { h with forwarder := .cancelled }
  | crash (hphase : h.phase ≠ .idle) (hdone : ∀ answer, h.phase ≠ .done answer) :
      Acts digest h .crash { h with phase := .done none, forwarder := h.forwarder.crash }

theorem awaiting_of_discards {h : Hop} (hdiscards : discards h = true) :
    ∃ written, h.phase = .awaiting written := by
  rw [discards] at hdiscards
  split at hdiscards
  next written answer hphase hforwarder => exact ⟨written, hphase⟩
  next written hphase hforwarder => exact ⟨written, hphase⟩
  next => cases hdiscards

section Acts

variable {digest : Bytes → String} {h h' : Hop} {a : Act}

theorem acts_of_accept (hact : accept h = some h') : Acts digest h .accept h' := by
  rw [accept] at hact
  by_cases hphase : h.phase = .waiting
  · rw [if_pos hphase] at hact
    split at hact
    next d rest hrx =>
      rw [← Option.some.inj hact]
      exact .accept hphase hrx
    next chunk rest hrx =>
      rw [← Option.some.inj hact]
      exact .refuse hphase fun d rest' hd => nomatch hrx.symm.trans hd
    next hrx =>
      by_cases hend : h.rxEnd = .live
      · rw [if_pos hend] at hact
        exact nomatch hact
      · rw [if_neg hend] at hact
        rw [← Option.some.inj hact]
        exact .refuse hphase fun d rest hd => nomatch hrx.symm.trans hd
  · rw [if_neg hphase] at hact
    exact nomatch hact

theorem acts_of_receive (hact : receive h = some h') : Acts digest h .receive h' := by
  rw [receive] at hact
  by_cases hphase : h.phase = .reading
  · rw [if_pos hphase] at hact
    split at hact
    next message rest hrx =>
      by_cases hlast : h.downstream = []
      · rw [if_pos hlast] at hact
        rw [← Option.some.inj hact]
        exact .receiveLast hphase hrx hlast
      · rw [if_neg hlast] at hact
        rw [← Option.some.inj hact]
        exact .receive hphase hrx hlast
    next hrx =>
      split at hact
      next => exact nomatch hact
      next hend =>
        rw [← Option.some.inj hact]
        by_cases hlast : h.downstream = []
        · rw [if_pos hlast]
          exact .receiveEndLast hphase hrx hend hlast
        · rw [if_neg hlast]
          exact .receiveEnd hphase hrx hend hlast
      next hend =>
        rw [← Option.some.inj hact]
        by_cases hlast : h.downstream = []
        · rw [if_pos hlast]
          exact .receiveBrokenLast hphase hrx hend hlast
        · rw [if_neg hlast]
          exact .receiveBroken hphase hrx hend hlast
  · rw [if_neg hphase] at hact
    exact nomatch hact

theorem acts_of_close (hact : close h = some h') : Acts digest h .close h' := by
  rw [close] at hact
  split at hact
  next raised hphase =>
    by_cases hroom : h.queue.length < queueDepthChunks
    · rw [if_pos hroom] at hact
      rw [← Option.some.inj hact]
      cases raised with
      | false => exact .close hphase hroom
      | true => exact .closeRaised hphase hroom
    · rw [if_neg hroom] at hact
      exact nomatch hact
  next => exact nomatch hact

theorem acts_of_publish (hact : publish digest h = some h') : Acts digest h .publish h' := by
  rw [publish] at hact
  by_cases hphase : h.phase = .finalizing
  · rw [if_pos hphase] at hact
    by_cases hlast : h.downstream = []
    · simp only [if_pos hlast] at hact
      rw [← Option.some.inj hact]
      exact .publishLast hphase hlast
    · simp only [if_neg hlast] at hact
      rw [← Option.some.inj hact]
      exact .publish hphase hlast
  · rw [if_neg hphase] at hact
    exact nomatch hact

theorem acts_of_collect (hact : collect h = some h') : Acts digest h .collect h' := by
  rw [collect] at hact
  split at hact
  next written answer hphase hforwarder =>
    rw [← Option.some.inj hact]
    by_cases hsame : answer.checksum = written.checksum
    · rw [if_pos hsame]
      exact .collect hphase hforwarder hsame
    · rw [if_neg hsame]
      refine .collectFailed hphase fun answer' h' => ?_
      rw [hforwarder] at h'
      rw [← Option.some.inj (Forwarder.answered.inj h')]
      exact hsame
  next written hphase hforwarder =>
    rw [← Option.some.inj hact]
    exact .collectFailed hphase fun answer h' => nomatch hforwarder.symm.trans h'
  next written hphase hforwarder =>
    rw [← Option.some.inj hact]
    exact .collectFailed hphase fun answer h' => nomatch hforwarder.symm.trans h'
  next => exact nomatch hact

theorem acts_of_fail (hact : fail h = some h') : Acts digest h .fail h' := by
  rw [fail] at hact
  split at hact
  next hphase =>
    rw [← Option.some.inj hact]
    exact .fail (.inl hphase)
  next hphase =>
    rw [← Option.some.inj hact]
    by_cases hlast : h.downstream = []
    · rw [if_pos hlast]
      exact .fail (.inr (.inr ⟨hphase, hlast⟩))
    · rw [if_neg hlast]
      exact .failForwarding hphase hlast
  next hphase =>
    rw [← Option.some.inj hact]
    exact .fail (.inr (.inl hphase))
  next => exact nomatch hact

/-- The acts, one by one. -/
theorem acts_of_act (hact : act digest h a = some h') : Acts digest h a h' := by
  cases a with
  | accept => exact acts_of_accept hact
  | create =>
      rw [act] at hact
      by_cases hphase : h.phase = .creating
      · rw [if_pos hphase] at hact
        rw [← Option.some.inj hact]
        exact .create hphase
      · rw [if_neg hphase] at hact
        exact nomatch hact
  | receive => exact acts_of_receive hact
  | put =>
      rw [act, put] at hact
      split at hact
      next chunk hphase =>
        by_cases hroom : h.queue.length < queueDepthChunks
        · rw [if_pos hroom] at hact
          rw [← Option.some.inj hact]
          exact .put hphase hroom
        · rw [if_neg hroom] at hact
          exact nomatch hact
      next => exact nomatch hact
  | write =>
      rw [act] at hact
      by_cases hphase : h.phase = .writing
      · rw [if_pos hphase] at hact
        rw [← Option.some.inj hact]
        exact .write hphase
      · rw [if_neg hphase] at hact
        exact nomatch hact
  | close => exact acts_of_close hact
  | publish => exact acts_of_publish hact
  | collect => exact acts_of_collect hact
  | cut =>
      rw [act, cut] at hact
      by_cases hc : h.phase = .idle ∨ h.rxEnd = .broken
      · rw [if_pos hc] at hact
        exact nomatch hact
      · rw [if_neg hc] at hact
        rw [← Option.some.inj hact]
        exact .cut (fun h' => hc (.inl h')) fun h' => hc (.inr h')
  | fail => exact acts_of_fail hact
  | unlinkFails =>
      rw [act, DfshaWriteBlock.unlinkFails] at hact
      by_cases hdiscards : discards h = true
      · rw [if_pos hdiscards] at hact
        rw [← Option.some.inj hact]
        obtain ⟨written, hphase⟩ := awaiting_of_discards hdiscards
        exact .unlinkFails hphase
      · rw [if_neg hdiscards] at hact
        exact nomatch hact
  | reject =>
      rw [act, reject] at hact
      split at hact
      next hphase hrx =>
        rw [← Option.some.inj hact]
        exact .reject hphase
      next => exact nomatch hact
  | lose =>
      rw [act, lose] at hact
      split at hact
      next hf => rw [← Option.some.inj hact]; exact .lose (.inl hf)
      next hf => rw [← Option.some.inj hact]; exact .lose (.inr (.inl hf))
      next hf => rw [← Option.some.inj hact]; exact .lose (.inr (.inr hf))
      next => exact nomatch hact
  | stop =>
      rw [act, DfshaWriteBlock.stop] at hact
      by_cases hf : h.forwarder = .submitted
      · rw [if_pos hf] at hact
        rw [← Option.some.inj hact]
        exact .stop hf
      · rw [if_neg hf] at hact
        cases hact
  | crash =>
      rw [act, crash] at hact
      split at hact
      next => exact nomatch hact
      next => exact nomatch hact
      next hidle hdone =>
        rw [← Option.some.inj hact]
        exact .crash hidle hdone

theorem Acts.address (hacts : Acts digest h a h') : h'.address = h.address := by
  cases hacts with
  | _ => rfl

/-- What a handler has done with its phase: nothing, or it was at work. -/
theorem Acts.phase (hacts : Acts digest h a h') :
    h'.phase = h.phase ∨ h.phase ≠ .idle ∧ ∀ answer, h.phase ≠ .done answer := by
  cases hacts with
  | cut | lose | stop => exact .inl rfl
  | crash hphase hdone => exact .inr ⟨hphase, hdone⟩
  | fail hphase =>
      rcases hphase with hphase | hphase | ⟨hphase, _⟩
      · exact .inr (by simp [hphase])
      · exact .inr (by simp [hphase])
      · exact .inr (by simp [hphase])
  | accept hphase | refuse hphase | create hphase | receive hphase | receiveLast hphase
  | receiveEnd hphase | receiveEndLast hphase | receiveBroken hphase
  | receiveBrokenLast hphase | put hphase | write hphase | close hphase | closeRaised hphase
  | publish hphase | publishLast hphase | collect hphase | collectFailed hphase
  | unlinkFails hphase | failForwarding hphase | reject hphase =>
      exact .inr (by simp [hphase])

/-- A handler that has been called has been called. -/
theorem Acts.ne_idle (hacts : Acts digest h a h') (hphase : h.phase ≠ .idle) :
    h'.phase ≠ .idle := by
  cases hacts with
  | cut | lose | stop => exact hphase
  | accept | refuse | create | receive | receiveLast | receiveEnd | receiveEndLast
  | receiveBroken | receiveBrokenLast | put | write | close | closeRaised | publish
  | publishLast | collect | collectFailed | unlinkFails | fail | failForwarding | reject
  | crash =>
      exact nofun

/-- What happens to the forwarding thread. -/
theorem Acts.forwarder (hacts : Acts digest h a h') :
    h'.forwarder = h.forwarder ∨ h'.forwarder = h.forwarder.cancel ∨
      h'.forwarder = h.forwarder.crash ∨
      (a = .lose ∧ h'.forwarder = .answered none ∧ (h.forwarder = .submitted ∨
        h.forwarder = .running ∨ h.forwarder = .drained)) ∨
      a = .accept ∧ h.phase = .waiting ∧
        h'.forwarder = if h'.downstream = [] then .absent else .submitted := by
  cases hacts with
  | accept hphase hrx => exact .inr (.inr (.inr (.inr ⟨rfl, hphase, rfl⟩)))
  | closeRaised | fail | failForwarding => exact .inr (.inl rfl)
  | crash => exact .inr (.inr (.inl rfl))
  | stop hforwarder =>
      rw [hforwarder]
      exact .inr (.inl rfl)
  | lose hforwarder => exact .inr (.inr (.inr (.inl ⟨rfl, rfl, hforwarder⟩)))
  | refuse | create | receive | receiveLast | receiveEnd | receiveEndLast | receiveBroken
  | receiveBrokenLast | put | write | close | publish | publishLast | collect
  | collectFailed | unlinkFails | cut | reject =>
      exact .inl rfl

theorem Forwarder.cancel_ne_submitted {f : Forwarder} : f.cancel ≠ .submitted := by
  cases f with
  | _ => exact nofun

theorem Forwarder.crash_ne_submitted {f : Forwarder} : f.crash ≠ .submitted := by
  cases f with
  | _ => exact nofun

theorem Forwarder.eq_running_of_cancel {f : Forwarder} (h : f.cancel = .running) :
    f = .running := by
  cases f with
  | submitted => cases h
  | absent | running | drained | answered | cancelled => exact h

theorem Forwarder.eq_drained_of_cancel {f : Forwarder} (h : f.cancel = .drained) :
    f = .drained := by
  cases f with
  | submitted => cases h
  | absent | running | drained | answered | cancelled => exact h

theorem Forwarder.crash_ne_drained {f : Forwarder} : f.crash ≠ .drained := by
  cases f with
  | _ => exact nofun

theorem Forwarder.crash_ne_running {f : Forwarder} : f.crash ≠ .running := by
  cases f with
  | _ => exact nofun

/-- No act of the handler starts the thread. -/
theorem Acts.running (hacts : Acts digest h a h') (hrunning : h'.forwarder = .running) :
    h.forwarder = .running := by
  rcases hacts.forwarder with hf | hf | hf | ⟨_, hf, _⟩ | ⟨_, _, hf⟩
  · exact hf.symm.trans hrunning
  · exact Forwarder.eq_running_of_cancel (hf.symm.trans hrunning)
  · exact absurd (hf.symm.trans hrunning) Forwarder.crash_ne_running
  · cases hf.symm.trans hrunning
  · rw [hrunning] at hf
    by_cases hlast : h'.downstream = []
    · rw [if_pos hlast] at hf
      cases hf
    · rw [if_neg hlast] at hf
      cases hf

/-- Nor does one take the sentinel. -/
theorem Acts.drained (hacts : Acts digest h a h') (hdrained : h'.forwarder = .drained) :
    h.forwarder = .drained := by
  rcases hacts.forwarder with hf | hf | hf | ⟨_, hf, _⟩ | ⟨_, _, hf⟩
  · exact hf.symm.trans hdrained
  · exact Forwarder.eq_drained_of_cancel (hf.symm.trans hdrained)
  · exact absurd (hf.symm.trans hdrained) Forwarder.crash_ne_drained
  · cases hf.symm.trans hdrained
  · rw [hdrained] at hf
    by_cases hlast : h'.downstream = []
    · rw [if_pos hlast] at hf
      cases hf
    · rw [if_neg hlast] at hf
      cases hf

/-- A thread is submitted with the header, to be run for the nodes after. -/
theorem Acts.submitted (hacts : Acts digest h a h') (hsubmitted : h'.forwarder = .submitted) :
    h.forwarder = .submitted ∨ h.phase = .waiting ∧ h'.downstream ≠ [] := by
  rcases hacts.forwarder with hf | hf | hf | ⟨_, hf, _⟩ | ⟨_, hphase, hf⟩
  · exact .inl (hf.symm.trans hsubmitted)
  · exact absurd (hf.symm.trans hsubmitted) Forwarder.cancel_ne_submitted
  · exact absurd (hf.symm.trans hsubmitted) Forwarder.crash_ne_submitted
  · cases hf.symm.trans hsubmitted
  · refine .inr ⟨hphase, fun hlast => ?_⟩
    rw [hsubmitted, if_pos hlast] at hf
    cases hf

/-- Only a header changes where the block goes. -/
theorem Acts.downstream (hacts : Acts digest h a h') (hphase : h.phase ≠ .waiting) :
    h'.downstream = h.downstream := by
  cases hacts with
  | accept hphase' => exact absurd hphase' hphase
  | refuse | create | receive | receiveLast | receiveEnd | receiveEndLast | receiveBroken
  | receiveBrokenLast | put | write | close | closeRaised | publish | publishLast | collect
  | collectFailed | unlinkFails | cut | fail | failForwarding | reject | lose | stop | crash =>
      rfl

/-- A handler changes the end of its stream only as it breaks. -/
theorem Acts.rxEnd (hacts : Acts digest h a h') : h'.rxEnd = h.rxEnd ∨ h'.rxEnd = .broken := by
  cases hacts with
  | cut => exact .inr rfl
  | accept | refuse | create | receive | receiveLast | receiveEnd | receiveEndLast
  | receiveBroken | receiveBrokenLast | put | write | close | closeRaised | publish
  | publishLast | collect | collectFailed | unlinkFails | fail | failForwarding | reject
  | lose | stop | crash =>
      exact .inl rfl

/-- Before the header, nothing is got. -/
theorem Acts.waiting (hacts : Acts digest h a h') (hphase : h.phase = .waiting) :
    h'.got = h.got ∧ h'.queue = h.queue := by
  cases hacts with
  | accept | refuse | cut | fail | reject | lose | stop | crash | create | receive | receiveEnd
  | receiveEndLast | receiveBroken | receiveBrokenLast | write | publish | publishLast
  | collect | collectFailed | unlinkFails | failForwarding =>
      exact ⟨rfl, rfl⟩
  | receiveLast hphase' | put hphase' | close hphase' | closeRaised hphase' =>
      cases hphase.symm.trans hphase'

end Acts

/-! ## What a step does -/

/-- A delivery changes nothing but the stream. -/
theorem deliver_frame (h : Hop) (item : Option Bytes) :
    ∃ rx rxEnd, deliver h item = { h with rx, rxEnd } := by
  cases item with
  | none =>
      rw [deliver]
      by_cases hlive : h.rxEnd = .live
      · rw [if_pos hlive]
        exact ⟨h.rx, .finished, rfl⟩
      · rw [if_neg hlive]
        exact ⟨h.rx, h.rxEnd, rfl⟩
  | some chunk =>
      rw [deliver]
      by_cases hlive : h.rxEnd = .live
      · rw [if_pos hlive]
        exact ⟨h.rx ++ [.data chunk], h.rxEnd, rfl⟩
      · rw [if_neg hlive]
        exact ⟨h.rx, h.rxEnd, rfl⟩

/-- The steps, one by one. -/
inductive Steps (digest : Bytes → String) (s : Pipeline) : Label → Pipeline → Prop
  | acts {i : Nat} {a : Act} {h : Hop} (hacts : Acts digest (s.hops i) a h) :
      Steps digest s (.acts i a)
        { s.setHop i h with store := storeAfter (s.hops i) s.store a }
  | start {i : Nat} (hforwarder : (s.hops i).forwarder = .submitted) :
      Steps digest s (.start i) (s.setPair i { s.hops i with forwarder := .running }
        (opened (s.hops i).downstream))
  | takeData {i : Nat} {chunk : Bytes} {rest : List (Option Bytes)}
      (hforwarder : (s.hops i).forwarder = .running)
      (hqueue : (s.hops i).queue = some chunk :: rest) :
      Steps digest s (.take i)
        (s.setPair i { s.hops i with queue := rest, forwarder := .running }
          (deliver (s.hops (i + 1)) (some chunk)))
  | takeEnd {i : Nat} {rest : List (Option Bytes)}
      (hforwarder : (s.hops i).forwarder = .running)
      (hqueue : (s.hops i).queue = none :: rest) :
      Steps digest s (.take i)
        (s.setPair i { s.hops i with queue := rest, forwarder := .drained }
          (deliver (s.hops (i + 1)) none))
  | answer {i : Nat} {answer : Option Response}
      (hforwarder : (s.hops i).forwarder = .running ∨ (s.hops i).forwarder = .drained)
      (hdone : (s.hops (i + 1)).phase = .done answer) :
      Steps digest s (.answer i)
        (s.setHop i { s.hops i with forwarder := .answered answer })
  | reset {i : Nat} {answer : Option Response}
      (hforwarder : (s.hops i).forwarder = .answered answer)
      (hphase : (s.hops (i + 1)).phase ≠ .idle) (hend : (s.hops (i + 1)).rxEnd = .live) :
      Steps digest s (.reset i)
        (s.setHop (i + 1) { s.hops (i + 1) with rx := [], rxEnd := .broken })

theorem steps_of_next {digest : Bytes → String} {s s' : Pipeline} {l : Label}
    (hnext : next digest s l = some s') : Steps digest s l s' := by
  cases l with
  | acts i a =>
      obtain ⟨h, hact, rfl⟩ := Option.map_eq_some_iff.mp hnext
      exact .acts (acts_of_act hact)
  | start i =>
      dsimp only [next] at hnext
      by_cases hforwarder : (s.hops i).forwarder = .submitted
      · rw [if_pos hforwarder] at hnext
        rw [← Option.some.inj hnext]
        exact .start hforwarder
      · rw [if_neg hforwarder] at hnext
        cases hnext
  | take i =>
      dsimp only [next] at hnext
      split at hnext
      next item rest hforwarder hqueue =>
        rw [← Option.some.inj hnext]
        cases item with
        | none => exact .takeEnd hforwarder hqueue
        | some chunk => exact .takeData hforwarder hqueue
      next => cases hnext
  | answer i =>
      dsimp only [next] at hnext
      split at hnext
      next answer hforwarder hdone =>
        rw [← Option.some.inj hnext]
        exact .answer (.inl hforwarder) hdone
      next answer hforwarder hdone =>
        rw [← Option.some.inj hnext]
        exact .answer (.inr hforwarder) hdone
      next => cases hnext
  | reset i =>
      dsimp only [next] at hnext
      split at hnext
      next answer hforwarder =>
        by_cases hc : (s.hops (i + 1)).phase ≠ .idle ∧ (s.hops (i + 1)).rxEnd = .live
        · rw [if_pos hc] at hnext
          rw [← Option.some.inj hnext]
          exact .reset hforwarder hc.1 hc.2
        · rw [if_neg hc] at hnext
          cases hnext
      next => cases hnext

/-! ## The block of four bytes -/

def holaChecksum : String :=
  "b221d9dbb083a7f33428d7c2a3c3198ae925614d70210e28716ccaa7cd4ddb79"

/-- SHA-256 of the block; elsewhere, the bytes themselves after a dash. -/
def holaSha256 (content : Bytes) : String :=
  if content = hola then holaChecksum
  else String.ofList ('-' :: content.map Char.ofUInt8)

end DfshaWriteBlock
