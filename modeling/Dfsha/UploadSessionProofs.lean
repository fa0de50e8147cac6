import Dfsha.BlockLayoutProofs
import Dfsha.BlockOwnershipProofs

/-! # Upload sessions

    A client uploads a file with one BeginUpload, a ConfirmBlock for each block
    that it was given, and a CompleteUpload, or an AbortUpload if something
    went wrong.  Several clients do it at the same time, and in between anybody
    does anything else.

    The tree does not know sessions: a CompleteUpload and an AbortUpload name a
    path, and act on the pending file that is there, which may be the one of a
    later session of the same user (or of any user, for an admin), when the
    lease of the first one has run out.  A ConfirmBlock names a block, and so
    never touches another session.

    What a client can see is which BeginUploads have succeeded.  A session ends
    its own upload as long as no BeginUpload of the path has succeeded after its
    own. -/

namespace DfshaUploadSession

open InsertionDict NamedTree TransitionSystem TransitionSystem.System
open DfshaPath DfshaControlTree DfshaMetadata DfshaControlTreeEffect
open DfshaBlockOwnership DfshaWriteReservation DfshaBlockLayout

/-! ## The sessions -/

/-- What a client knows of its upload: the blocks that its BeginUpload was
    given and the checksum of each block that it has confirmed. -/
structure Session where
  path : String
  caller : Option Caller
  reserved : List String
  confirmed : Dict String String

/-- The requests of the sessions, and the other mutations. -/
inductive Request where
  | beginUpload (session path : String) (placements : List (String × List String))
      (now leaseS : Option Time) (blockSize : Option Int) (caller : Option Caller)
  | confirmBlock (session blockId checksum : String) (sizeBytes : Int)
      (now leaseS : Option Time)
  | completeUpload (session : String)
  | abortUpload (session : String)
  | other (μ : Mutation)

/-- The tree and, beside it, the sessions, the session that created the last
    pending file of each path, the block ids that have been proposed, and the
    BeginUploads that have succeeded, in their order. -/
structure Uploads where
  tree : ControlTree
  sessions : Dict String Session
  creator : Dict (List String) String
  proposed : List String
  begins : List (String × List String)

def Uploads.empty : Uploads := ⟨ControlTree.empty, Dict.empty, Dict.empty, [], []⟩

def isUpload : Mutation → Bool
  | .beginUpload .. => true
  | .confirmBlock .. => true
  | .completeUpload .. => true
  | .abortUpload .. => true
  | _ => false

/-- After a BeginUpload. -/
def begun (u : Uploads) (S p : String) (caller : Option Caller) (ids : List String) :
    Except PyError Ret × ControlTree → Uploads
  | (.ok (.uploadBegun placed _), tree) => {
      tree
      sessions := u.sessions.insert S ⟨p, caller, placed.map Prod.fst, Dict.empty⟩
      creator := match parts p with
        | .ok ps => u.creator.insert ps S
        | .error _ => u.creator
      proposed := u.proposed ++ ids
      begins := match parts p with
        | .ok ps => u.begins ++ [(S, ps)]
        | .error _ => u.begins }
  | (_, tree) => { u with tree, proposed := u.proposed ++ ids }

/-- After a ConfirmBlock. -/
def confirmedBlock (u : Uploads) (S b sum : String) (session : Session) :
    Except PyError Ret × ControlTree → Uploads
  | (.ok _, tree) => { u with
      tree
      sessions := u.sessions.insert S
        { session with confirmed := session.confirmed.insert b sum } }
  | (.error _, tree) => { u with tree }

/-- A session begins once, with block ids that nobody has proposed, and
    confirms its own blocks. -/
def next (u : Uploads) : Request → Option Uploads
  | .beginUpload S p placements now leaseS blockSize caller =>
      let ids := placements.map Prod.fst
      if u.sessions.get? S = none ∧ ids.Nodup ∧ ∀ b ∈ ids, b ∉ u.proposed then
        some (begun u S p caller ids
          (exec (.beginUpload p placements now leaseS blockSize caller) u.tree))
      else none
  | .confirmBlock S b sum size now leaseS =>
      (u.sessions.get? S).bind fun session =>
        if b ∈ session.reserved then
          some (confirmedBlock u S b sum session
            (exec (.confirmBlock session.path b sum size now leaseS session.caller)
              u.tree))
        else none
  | .completeUpload S => (u.sessions.get? S).map fun session =>
      { u with tree := (exec (.completeUpload session.path session.caller) u.tree).2 }
  | .abortUpload S => (u.sessions.get? S).map fun session =>
      { u with tree := (exec (.abortUpload session.path session.caller) u.tree).2 }
  | .other μ =>
      if isUpload μ then none else some { u with tree := (exec μ u.tree).2 }

def uploads : System Uploads Request := ofPartial Uploads.empty next

/-! ## Whose the pending files are -/

/-- The blocks of the file are those that the session was given, and those
    confirmed have the checksum that the session confirmed. -/
structure BlocksOf (session : Session) (f : FileNode) : Prop where
  reserved : f.blocks.map BlockRecord.blockId = session.reserved
  confirmed : ∀ b ∈ f.blocks, b.confirmed = true →
    session.confirmed.get? b.blockId = some b.checksum

/-- The session `S` has begun on the path, and since then no BeginUpload of the
    path has succeeded. -/
def LastToBegin (begins : List (String × List String)) (S : String) (ps : List String) : Prop :=
  ∃ before after, begins = before ++ (S, ps) :: after ∧ ∀ S', (S', ps) ∉ after

structure SessionsInv (u : Uploads) : Prop where
  pending : ∀ ps f, u.tree.root.view ps = some (.file f) → f.state = .pending →
    ∃ S session, u.creator.get? ps = some S ∧ u.sessions.get? S = some session ∧
      parts session.path = .ok ps ∧ BlocksOf session f
  nodup : ∀ S session, u.sessions.get? S = some session → session.reserved.Nodup
  proposed : ∀ S session, u.sessions.get? S = some session →
    ∀ b ∈ session.reserved, b ∈ u.proposed
  apart : ∀ S S' session session' b, u.sessions.get? S = some session →
    u.sessions.get? S' = some session' → b ∈ session.reserved → b ∈ session'.reserved →
    S = S'
  began : ∀ S session ps, u.sessions.get? S = some session → parts session.path = .ok ps →
    (S, ps) ∈ u.begins
  last : ∀ S ps, LastToBegin u.begins S ps → u.creator.get? ps = some S

section Step

variable {μ : Mutation} {m m' : Metadata} {ps : List String} {f f' : FileNode}
  {session : Session} {u : Uploads} {tree : ControlTree}

theorem BlocksOf.same (h : BlocksOf session f) (hsame : SameFile f f') :
    BlocksOf session f' := by
  have hcontent := hsame.content
  constructor
  · exact hsame.blockIds.trans h.reserved
  · intro b hb hconfirmed
    have hmem : (b.blockId, b.checksum, b.sizeBytes, b.confirmed) ∈ content f' :=
      List.mem_map_of_mem hb
    rw [hcontent] at hmem
    obtain ⟨b₀, hb₀, heq⟩ := List.mem_map.mp hmem
    obtain ⟨hid, hsum, _, hconf⟩ : b₀.blockId = b.blockId ∧ b₀.checksum = b.checksum ∧
        b₀.sizeBytes = b.sizeBytes ∧ b₀.confirmed = b.confirmed := by
      simpa only [Prod.mk.injEq] using heq
    rw [← hid, ← hsum]
    exact h.confirmed b₀ hb₀ (hconf.trans hconfirmed)

/-- An error leaves the files. -/
theorem node_of_error {e : PyError} (he : Effect μ m (.error e) m') : m'.node = m.node := by
  cases he with
  | beginWriteLost =>
      funext ps
      rw [Metadata.node_setWrite, (pruned_writeTable _ _ _).node]
  | refused hpruned => exact hpruned.node

/-- A pending file was there before, if the step is not of an upload, or ends
    one. -/
theorem pending_kept {r : Except PyError Ret} (he : Effect μ m r m')
    (hμ : isUpload μ = false ∨ (∃ p c, μ = .completeUpload p c) ∨ ∃ p c, μ = .abortUpload p c)
    (hfile : m'.node ps = some (.file f')) (hpending : f'.state = .pending) :
    ∃ f, m.node ps = some (.file f) ∧ f.state = .pending ∧ SameFile f f' := by
  cases fileCame_effect he hfile with
  | kept f hold hsame => exact ⟨f, hold, hsame.state.symm.trans hpending, hsame⟩
  | uploaded p placements now leaseS blockSize caller heq hparts hnew =>
      rw [heq] at hμ
      rcases hμ with hμ | ⟨_, _, hμ⟩ | ⟨_, _, hμ⟩
      · exact nomatch hμ
      · exact nomatch hμ
      · exact nomatch hμ
  | confirmed f p b sum size now leaseS caller heq =>
      rw [heq] at hμ
      rcases hμ with hμ | ⟨_, _, hμ⟩ | ⟨_, _, hμ⟩
      · exact nomatch hμ
      · exact nomatch hμ
      · exact nomatch hμ
  | completed f hold hstate hconfirmed hnew =>
      rw [hnew] at hpending
      exact nomatch hpending
  | published f p w l version confirmed now caller res blocks replaced hparts hr hpublished
      hnew =>
      rw [hnew] at hpending
      exact nomatch hr.hcommitted.symm.trans hpending

/-- The sessions and the creators do not change while the pending files
    stay. -/
theorem sessionsInv_kept (h : SessionsInv u)
    (hkept : ∀ ps f', tree.root.view ps = some (.file f') → f'.state = .pending →
      ∃ f, u.tree.root.view ps = some (.file f) ∧ f.state = .pending ∧ SameFile f f')
    (ids : List String) :
    SessionsInv { u with tree, proposed := u.proposed ++ ids } := by
  refine ⟨fun ps f' hfile hpending => ?_, h.nodup, fun S session hS b hb => ?_, h.apart,
    h.began, h.last⟩
  · obtain ⟨f, hold, hstate, hsame⟩ := hkept ps f' hfile hpending
    obtain ⟨S, session, hcreator, hsession, hpath, hblocks⟩ := h.pending ps f hold hstate
    exact ⟨S, session, hcreator, hsession, hpath, hblocks.same hsame⟩
  · exact List.mem_append_left _ (h.proposed S session hS b hb)

/-- The last to begin on a path is the one of the last BeginUpload of it. -/
theorem lastToBegin_concat {begins : List (String × List String)} {S S' : String}
    {ps ps' : List String} (h : LastToBegin (begins ++ [(S, ps)]) S' ps') :
    S' = S ∧ ps' = ps ∨ ps' ≠ ps ∧ LastToBegin begins S' ps' := by
  obtain ⟨before, after, heq, hafter⟩ := h
  rcases List.eq_nil_or_concat' after with rfl | ⟨after', e, rfl⟩
  · have hlast := (List.append_inj' heq rfl).2
    obtain ⟨rfl, rfl⟩ := Prod.mk.inj (List.cons.inj hlast).1
    exact .inl ⟨rfl, rfl⟩
  · rw [← List.cons_append, ← List.append_assoc] at heq
    obtain ⟨hbegins, hlast⟩ := List.append_inj' heq rfl
    have he : (S, ps) = e := (List.cons.inj hlast).1
    refine .inr ⟨?_, before, after', hbegins, fun S'' hmem => ?_⟩
    · rintro rfl
      exact hafter S (List.mem_append_right _ (List.mem_singleton.mpr he))
    · exact hafter S'' (List.mem_append_left _ hmem)

/-- A BeginUpload that succeeds. -/
theorem sessionsInv_begun (h : SessionsInv u) {S p : String} {caller : Option Caller}
    {placements : List (String × List String)} {now leaseS : Option Time}
    {blockSize : Option Int} {stale : List BlockRecord} (hparts : parts p = .ok ps)
    (hnew : u.sessions.get? S = none) (hnodup : (placements.map Prod.fst).Nodup)
    (hfresh : ∀ b ∈ placements.map Prod.fst, b ∉ u.proposed)
    (hcame : ∀ ps' f', tree.root.view ps' = some (.file f') → f'.state = .pending →
      (ps' = ps ∧ f' = newUpload placements now leaseS blockSize caller) ∨
      ps' ≠ ps ∧ ∃ f, u.tree.root.view ps' = some (.file f) ∧ f.state = .pending ∧
        SameFile f f') :
    SessionsInv (begun u S p caller (placements.map Prod.fst)
      (.ok (.uploadBegun placements stale), tree)) := by
  have hother : ∀ {S' : String} {session : Session}, u.sessions.get? S' = some session →
      S' ≠ S := by
    rintro S' session hS' rfl
    exact nomatch hnew.symm.trans hS'
  have hsessions : ∀ S' session,
      (u.sessions.insert S ⟨p, caller, placements.map Prod.fst, Dict.empty⟩).get? S'
        = some session →
      (S' = S ∧ session = ⟨p, caller, placements.map Prod.fst, Dict.empty⟩) ∨
        S' ≠ S ∧ u.sessions.get? S' = some session := by
    intro S' session hS'
    rw [Dict.get?_insert] at hS'
    by_cases heq : S' = S
    · rw [if_pos heq] at hS'
      exact .inl ⟨heq, (Option.some.inj hS').symm⟩
    · rw [if_neg heq] at hS'
      exact .inr ⟨heq, hS'⟩
  simp only [begun, hparts]
  refine ⟨fun ps' f' hfile hpending => ?_, fun S' session hS' => ?_,
    fun S' session hS' b hb => ?_, fun S₁ S₂ session₁ session₂ b h₁ h₂ hb₁ hb₂ => ?_,
    fun S' session ps' hS' hparts' => ?_, fun S' ps' hlast => ?_⟩
  · rcases hcame ps' f' hfile hpending with ⟨rfl, rfl⟩ | ⟨hne, f, hold, hstate, hsame⟩
    · have hblocks : BlocksOf ⟨p, caller, placements.map Prod.fst, Dict.empty⟩
          (newUpload placements now leaseS blockSize caller) := by
        refine ⟨fileIds_newUpload _ _ _ _ _, fun b hb hconfirmed => ?_⟩
        obtain ⟨placement, _, rfl⟩ := List.mem_map.mp hb
        exact nomatch hconfirmed
      exact ⟨S, _, (Dict.get?_insert _ _ _ _).trans (if_pos rfl),
        (Dict.get?_insert _ _ _ _).trans (if_pos rfl), hparts, hblocks⟩
    · obtain ⟨S', session, hcreator, hsession, hpath, hblocks⟩ := h.pending ps' f hold hstate
      refine ⟨S', session, ?_, ?_, hpath, hblocks.same hsame⟩
      · rw [Dict.get?_insert, if_neg hne]
        exact hcreator
      · rw [Dict.get?_insert, if_neg (hother hsession)]
        exact hsession
  · rcases hsessions S' session hS' with ⟨_, rfl⟩ | ⟨_, hold⟩
    · exact hnodup
    · exact h.nodup S' session hold
  · rcases hsessions S' session hS' with ⟨_, rfl⟩ | ⟨_, hold⟩
    · exact List.mem_append_right _ hb
    · exact List.mem_append_left _ (h.proposed S' session hold b hb)
  · rcases hsessions S₁ session₁ h₁ with ⟨rfl, rfl⟩ | ⟨hne₁, hold₁⟩
    · rcases hsessions S₂ session₂ h₂ with ⟨rfl, _⟩ | ⟨_, hold₂⟩
      · rfl
      · exact absurd (h.proposed S₂ session₂ hold₂ b hb₂) (hfresh b hb₁)
    · rcases hsessions S₂ session₂ h₂ with ⟨rfl, rfl⟩ | ⟨_, hold₂⟩
      · exact absurd (h.proposed S₁ session₁ hold₁ b hb₁) (hfresh b hb₂)
      · exact h.apart S₁ S₂ session₁ session₂ b hold₁ hold₂ hb₁ hb₂
  · rcases hsessions S' session hS' with ⟨rfl, rfl⟩ | ⟨_, hold⟩
    · obtain rfl := Except.ok.inj (hparts.symm.trans hparts')
      exact List.mem_append_right _ (List.mem_singleton.mpr rfl)
    · exact List.mem_append_left _ (h.began S' session ps' hold hparts')
  · rw [Dict.get?_insert]
    rcases lastToBegin_concat hlast with ⟨rfl, rfl⟩ | ⟨hne, hold⟩
    · exact if_pos rfl
    · rw [if_neg hne]
      exact h.last S' ps' hold

/-- A block that is updated is one of the list. -/
theorem mem_map_of_updateBlock {b : String} {g : BlockRecord → BlockRecord}
    {blocks blocks' : List BlockRecord} (h : updateBlock b g blocks = some blocks') :
    b ∈ blocks.map BlockRecord.blockId := by
  obtain ⟨i, x, hfind, hx, _⟩ := updateBlock_eq_set h
  obtain ⟨hlt, hid, _⟩ := List.findIdx?_eq_some_iff_getElem.mp hfind
  exact List.mem_map.mpr ⟨_, List.getElem_mem hlt, of_decide_eq_true hid⟩

/-- A block that is confirmed gets the checksum and the size; the others are as
    they were. -/
theorem confirmed_updateBlock {b sum : String} {size : Int}
    {blocks blocks' : List BlockRecord}
    (h : updateBlock b
      (fun b => { b with checksum := sum, sizeBytes := size, confirmed := true })
      blocks = some blocks')
    (hnodup : (blocks.map BlockRecord.blockId).Nodup) {x : BlockRecord}
    (hx : x ∈ blocks') :
    (x.blockId = b ∧ x.checksum = sum ∧ x.sizeBytes = size) ∨
      x.blockId ≠ b ∧ x ∈ blocks := by
  induction blocks generalizing blocks' with
  | nil => exact nomatch h
  | cons hd rest ih =>
      rw [List.map_cons, List.nodup_cons] at hnodup
      rw [updateBlock] at h
      by_cases hb : hd.blockId = b
      · rw [if_pos hb] at h
        obtain rfl := Option.some.inj h
        rcases List.mem_cons.mp hx with rfl | hx
        · exact .inl ⟨hb, rfl, rfl⟩
        · refine .inr ⟨?_, List.mem_cons_of_mem _ hx⟩
          rintro rfl
          exact hnodup.1 (hb ▸ List.mem_map_of_mem hx)
      · rw [if_neg hb] at h
        obtain ⟨rest', hrest, rfl⟩ := Option.map_eq_some_iff.mp h
        rcases List.mem_cons.mp hx with rfl | hx
        · exact .inr ⟨hb, List.mem_cons_self⟩
        · exact (ih hrest hnodup.2 hx).imp_right fun hold =>
            ⟨hold.1, List.mem_cons_of_mem _ hold.2⟩

/-- A ConfirmBlock that succeeds: the block belongs to the session of the
    request, whatever the path says. -/
theorem sessionsInv_confirmed (h : SessionsInv u) {S b sum : String} (size : Int) {a : Ret}
    (hS : u.sessions.get? S = some session) (hparts : parts session.path = .ok ps)
    (hb : b ∈ session.reserved)
    (hcame : ∀ ps' f', tree.root.view ps' = some (.file f') → f'.state = .pending →
      ∃ f, u.tree.root.view ps' = some (.file f) ∧ f.state = .pending ∧
        (SameFile f f' ∧ ps' ≠ ps ∨ ps' = ps ∧ updateBlock b
          (fun b => { b with checksum := sum, sizeBytes := size, confirmed := true })
          f.blocks = some f'.blocks)) :
    SessionsInv (confirmedBlock u S b sum session (.ok a, tree)) := by
  have hsessions : ∀ S' session', (u.sessions.insert S
      { session with confirmed := session.confirmed.insert b sum }).get? S' = some session' →
      ∃ old, u.sessions.get? S' = some old ∧ session'.reserved = old.reserved ∧
        session'.path = old.path := by
    intro S' session' hS'
    rw [Dict.get?_insert] at hS'
    by_cases heq : S' = S
    · rw [if_pos heq] at hS'
      rw [← Option.some.inj hS', heq]
      exact ⟨session, hS, rfl, rfl⟩
    · rw [if_neg heq] at hS'
      exact ⟨session', hS', rfl, rfl⟩
  simp only [confirmedBlock]
  refine ⟨fun ps' f' hfile hpending => ?_, fun S' session' hS' => ?_,
    fun S' session' hS' b' hb' => ?_, fun S₁ S₂ session₁ session₂ b' h₁ h₂ hb₁ hb₂ => ?_,
    fun S' session' ps' hS' hparts' => ?_, h.last⟩
  · obtain ⟨f, hold, hstate, hchange⟩ := hcame ps' f' hfile hpending
    obtain ⟨S', session', hcreator, hsession, hpath, hblocks⟩ := h.pending ps' f hold hstate
    rcases hchange with ⟨hsame, hne⟩ | ⟨rfl, hupdate⟩
    · have hother : S' ≠ S := by
        rintro rfl
        obtain rfl := Option.some.inj (hS.symm.trans hsession)
        exact hne (Except.ok.inj (hpath.symm.trans hparts))
      refine ⟨S', session', hcreator, ?_, hpath, hblocks.same hsame⟩
      rw [Dict.get?_insert, if_neg hother]
      exact hsession
    · have hids := map_blockId_updateBlock hupdate fun _ => rfl
      have hmem : b ∈ session'.reserved := by
        rw [← hblocks.reserved]
        exact mem_map_of_updateBlock hupdate
      obtain rfl := h.apart S' S session' session b hsession hS hmem hb
      obtain rfl := Option.some.inj (hS.symm.trans hsession)
      refine ⟨S', { session with confirmed := session.confirmed.insert b sum }, hcreator,
        (Dict.get?_insert _ _ _ _).trans (if_pos rfl), hpath, hids.trans hblocks.reserved,
        fun x hx hconfirmed => ?_⟩
      have hnodup := h.nodup S' session hS
      rw [← hblocks.reserved] at hnodup
      rcases confirmed_updateBlock hupdate hnodup hx with ⟨hid, hsum, _⟩ | ⟨hid, hx⟩
      · rw [hid, hsum, Dict.get?_insert, if_pos rfl]
      · rw [Dict.get?_insert, if_neg hid]
        exact hblocks.confirmed x hx hconfirmed
  · obtain ⟨old, hold, hreserved, _⟩ := hsessions S' session' hS'
    rw [hreserved]
    exact h.nodup S' old hold
  · obtain ⟨old, hold, hreserved, _⟩ := hsessions S' session' hS'
    exact h.proposed S' old hold b' (hreserved ▸ hb')
  · obtain ⟨old₁, hold₁, hreserved₁, _⟩ := hsessions S₁ session₁ h₁
    obtain ⟨old₂, hold₂, hreserved₂, _⟩ := hsessions S₂ session₂ h₂
    exact h.apart S₁ S₂ old₁ old₂ b' hold₁ hold₂ (hreserved₁ ▸ hb₁) (hreserved₂ ▸ hb₂)
  · obtain ⟨old, hold, _, hpath⟩ := hsessions S' session' hS'
    exact h.began S' old ps' hold (hpath ▸ hparts')

/-- What a BeginUpload that succeeds leaves. -/
theorem begun_effect {p : String} {placements : List (String × List String)}
    {now leaseS : Option Time} {blockSize : Option Int} {caller : Option Caller} {a : Ret}
    (he : Effect (.beginUpload p placements now leaseS blockSize caller) m (.ok a) m') :
    ∃ ps stale, parts p = .ok ps ∧ a = .uploadBegun placements stale ∧
      ∀ ps' f', m'.node ps' = some (.file f') →
        (ps' = ps ∧ f' = newUpload placements now leaseS blockSize caller) ∨
        ps' ≠ ps ∧ m.node ps' = some (.file f') := by
  cases he with
  | @beginUpload _ _ _ _ _ _ _ ps stale hparts hne hallowed hfree =>
      refine ⟨ps, stale, hparts, rfl, fun ps' f' hfile => ?_⟩
      rw [Metadata.node_setFile] at hfile
      by_cases hps : ps' = ps
      · rw [if_pos hps] at hfile
        exact .inl ⟨hps, (Entry.file.inj (Option.some.inj hfile)).symm⟩
      · rw [if_neg hps] at hfile
        by_cases hmade : ps' <+: ps.dropLast ∧ m.node ps' = none
        · exact nomatch (if_pos hmade).symm.trans hfile
        · exact .inr ⟨hps, (if_neg hmade).symm.trans hfile⟩
  | setAttrsDir hparts hdir hμ => exact nomatch hμ
  | setAttrsFile hparts hfile hcommitted hμ => exact nomatch hμ

/-- What a ConfirmBlock that succeeds leaves. -/
theorem confirmed_effect {p b sum : String} {size : Int} {now leaseS : Option Time}
    {caller : Option Caller} {a : Ret}
    (he : Effect (.confirmBlock p b sum size now leaseS caller) m (.ok a) m') :
    ∃ ps, parts p = .ok ps ∧ ∀ ps' f', m'.node ps' = some (.file f') →
      ∃ f, m.node ps' = some (.file f) ∧ f.state = f'.state ∧
        (SameFile f f' ∧ ps' ≠ ps ∨ ps' = ps ∧ updateBlock b
          (fun b => { b with checksum := sum, sizeBytes := size, confirmed := true })
          f.blocks = some f'.blocks) := by
  cases he with
  | @confirmBlock _ _ _ _ _ _ _ _ ps f blocks hparts hfile hpending howner hblocks =>
      refine ⟨ps, hparts, fun ps' f' hfile' => ?_⟩
      rw [Metadata.node_setFile] at hfile'
      by_cases hps : ps' = ps
      · rw [if_pos hps] at hfile'
        obtain rfl := Entry.file.inj (Option.some.inj hfile')
        exact ⟨f, hps ▸ hfile, rfl, .inr ⟨hps, hblocks⟩⟩
      · rw [if_neg hps] at hfile'
        exact ⟨f', hfile', rfl, .inl ⟨.refl f', hps⟩⟩
  | setAttrsDir hparts hdir hμ => exact nomatch hμ
  | setAttrsFile hparts hfile hcommitted hμ => exact nomatch hμ

/-- A mutation that neither begins nor confirms. -/
theorem sessionsInv_tree (h : SessionsInv u) (μ : Mutation)
    (hμ : isUpload μ = false ∨ (∃ p c, μ = .completeUpload p c) ∨
      ∃ p c, μ = .abortUpload p c) :
    SessionsInv { u with tree := (exec μ u.tree).2 } := by
  have hinv := sessionsInv_kept h (fun _ _ hfile hpending =>
    pending_kept (exec_effect μ u.tree) hμ hfile hpending) []
  rw [List.append_nil] at hinv
  exact hinv

/-- A mutation that fails. -/
theorem sessionsInv_error (h : SessionsInv u) {μ : Mutation} {e : PyError}
    (he : Effect μ (metadata u.tree) (.error e) (metadata tree)) (ids : List String) :
    SessionsInv { u with tree, proposed := u.proposed ++ ids } := by
  have hnode := node_of_error he
  refine sessionsInv_kept h (fun ps f' hfile hpending => ⟨f', ?_, hpending, .refl f'⟩) ids
  exact (congrFun hnode ps).symm.trans hfile

/-- **EVERY REQUEST KEEPS THE PENDING FILES TO THEIR SESSIONS.** -/
theorem sessionsInv_next {u' : Uploads} {req : Request} (h : SessionsInv u)
    (hnext : next u req = some u') : SessionsInv u' := by
  cases req with
  | beginUpload S p placements now leaseS blockSize caller =>
      rw [next] at hnext
      split at hnext
      case isFalse => cases hnext
      next hcond =>
      obtain ⟨hnew, hnodup, hfresh⟩ := hcond
      obtain rfl := Option.some.inj hnext
      have he := exec_effect (.beginUpload p placements now leaseS blockSize caller) u.tree
      generalize exec _ u.tree = r at he ⊢
      obtain ⟨res, tree⟩ := r
      cases res with
      | error e => exact sessionsInv_error h he _
      | ok a =>
          obtain ⟨ps, stale, hparts, rfl, hcame⟩ := begun_effect he
          have hcame' : ∀ ps' f', tree.root.view ps' = some (.file f') →
              f'.state = .pending →
              (ps' = ps ∧ f' = newUpload placements now leaseS blockSize caller) ∨
              ps' ≠ ps ∧ ∃ f, u.tree.root.view ps' = some (.file f) ∧
                f.state = .pending ∧ SameFile f f' := fun ps' f' hfile hpending =>
            (hcame ps' f' hfile).imp_right fun hold =>
              ⟨hold.1, f', hold.2, hpending, .refl f'⟩
          exact sessionsInv_begun h hparts hnew hnodup hfresh hcame'
  | confirmBlock S b sum size now leaseS =>
      obtain ⟨session, hS, hnext⟩ := Option.bind_eq_some_iff.mp hnext
      split at hnext
      case isFalse => cases hnext
      next hb =>
      obtain rfl := Option.some.inj hnext
      have he := exec_effect (.confirmBlock session.path b sum size now leaseS session.caller)
        u.tree
      generalize exec _ u.tree = r at he ⊢
      obtain ⟨res, tree⟩ := r
      cases res with
      | error e =>
          have hinv := sessionsInv_error h he []
          rw [List.append_nil] at hinv
          exact hinv
      | ok a =>
          obtain ⟨ps, hparts, hcame⟩ := confirmed_effect he
          refine sessionsInv_confirmed h size hS hparts hb fun ps' f' hfile hpending => ?_
          obtain ⟨f, hold, hstate, hchange⟩ := hcame ps' f' hfile
          exact ⟨f, hold, hstate.trans hpending, hchange⟩
  | completeUpload S =>
      obtain ⟨session, _, rfl⟩ := Option.map_eq_some_iff.mp hnext
      exact sessionsInv_tree h _ (.inr (.inl ⟨_, _, rfl⟩))
  | abortUpload S =>
      obtain ⟨session, _, rfl⟩ := Option.map_eq_some_iff.mp hnext
      exact sessionsInv_tree h _ (.inr (.inr ⟨_, _, rfl⟩))
  | other μ =>
      rw [next] at hnext
      split at hnext
      case isTrue => cases hnext
      next hμ =>
      obtain rfl := Option.some.inj hnext
      exact sessionsInv_tree h μ (.inl (Bool.eq_false_of_not_eq_true hμ))

end Step

/-! ## Runs -/

theorem sessionsInv_run {reqs : List Request} {u : Uploads}
    (h : uploads.Run reqs u) : SessionsInv u := by
  refine Run.invariant (I := fun _ u => SessionsInv u) h ?_ ?_
  · rintro _ rfl
    refine ⟨fun ps f hfile => absurd hfile (no_file_empty ps f), fun _ _ hS => (nomatch hS),
      fun _ _ hS => (nomatch hS), fun _ _ _ _ _ hS => (nomatch hS),
      fun _ _ _ hS => (nomatch hS), fun S ps hlast => ?_⟩
    obtain ⟨before, after, heq, _⟩ := hlast
    exact absurd heq.symm (List.append_ne_nil_of_right_ne_nil _ (List.cons_ne_nil _ _))
  · exact fun _ _ _ _ hinv hstep => sessionsInv_next hinv hstep

/-- A BeginUpload of the path has succeeded after the session's own: its lease had
    run out, or its file had been completed or aborted. -/
def BegunAgain (u : Uploads) (S : String) (ps : List String) : Prop :=
  ∃ before after S', u.begins = before ++ (S, ps) :: after ∧ (S', ps) ∈ after

/-- No session whose path has been begun again sends a CompleteUpload or an
    AbortUpload that could still end a pending file: one that its caller may
    end, and, to be completed, with all its blocks confirmed. -/
def NotBegunAgain (u : Uploads) : Request → Prop
  | .completeUpload S => ∀ session ps f, u.sessions.get? S = some session →
      parts session.path = .ok ps → u.tree.root.view ps = some (.file f) →
      f.state = .pending → ownerOrAdmin f.attrs session.caller = true →
      (∀ b ∈ f.blocks, b.confirmed = true) → ¬ BegunAgain u S ps
  | .abortUpload S => ∀ session ps f, u.sessions.get? S = some session →
      parts session.path = .ok ps → u.tree.root.view ps = some (.file f) →
      f.state = .pending → ownerOrAdmin f.attrs session.caller = true → ¬ BegunAgain u S ps
  | _ => True

/-- What a client may expect: a CompleteUpload that succeeds has published the
    blocks that its session was given, with the checksums that it confirmed; an
    AbortUpload discards no pending file but the one that its session created,
    with the blocks that it was given. -/
def KeepsTo (u u' : Uploads) : Request → Prop
  | .completeUpload S => ∀ session a, u.sessions.get? S = some session →
      (exec (.completeUpload session.path session.caller) u.tree).1 = .ok a →
      ∃ ps f, parts session.path = .ok ps ∧ u'.tree.root.view ps = some (.file f) ∧
        f.state = .committed ∧ f.blocks.map BlockRecord.blockId = session.reserved ∧
        ∀ b ∈ f.blocks, session.confirmed.get? b.blockId = some b.checksum
  | .abortUpload S => ∀ ps f, u.tree.root.view ps = some (.file f) → f.state = .pending →
      u'.tree.root.view ps ≠ some (.file f) → u.creator.get? ps = some S ∧
        ∃ session, u.sessions.get? S = some session ∧
          f.blocks.map BlockRecord.blockId = session.reserved
  | _ => True

/-- **WHO HAS NOT BEEN BEGUN AGAIN HAS CREATED THE PENDING FILE OF HIS PATH.** -/
theorem blocksOf_of_not_begunAgain {u : Uploads} {S : String} {session : Session}
    {ps : List String} {f : FileNode} (hinv : SessionsInv u)
    (hS : u.sessions.get? S = some session) (hparts : parts session.path = .ok ps)
    (hfile : u.tree.root.view ps = some (.file f)) (hpending : f.state = .pending)
    (hagain : ¬ BegunAgain u S ps) : u.creator.get? ps = some S ∧ BlocksOf session f := by
  obtain ⟨before, after, hbegins⟩ := List.append_of_mem (hinv.began S session ps hS hparts)
  have hlast : LastToBegin u.begins S ps :=
    ⟨before, after, hbegins, fun S' hmem => hagain ⟨before, after, S', hbegins, hmem⟩⟩
  have hcreator := hinv.last S ps hlast
  obtain ⟨S', session', hcreator', hS', _, hblocks⟩ := hinv.pending ps f hfile hpending
  obtain rfl := Option.some.inj (hcreator.symm.trans hcreator')
  obtain rfl := Option.some.inj (hS.symm.trans hS')
  exact ⟨hcreator, hblocks⟩

/-- A CompleteUpload of a session that has not been begun again publishes its
    blocks. -/
theorem published_of_own {u : Uploads} {S : String} {session : Session} {a : Ret}
    {tree : ControlTree} (hinv : SessionsInv u) (hS : u.sessions.get? S = some session)
    (hguard : NotBegunAgain u (.completeUpload S))
    (he : Effect (.completeUpload session.path session.caller) (metadata u.tree) (.ok a)
      (metadata tree)) :
    ∃ ps f, parts session.path = .ok ps ∧ tree.root.view ps = some (.file f) ∧
      f.state = .committed ∧ f.blocks.map BlockRecord.blockId = session.reserved ∧
      ∀ b ∈ f.blocks, session.confirmed.get? b.blockId = some b.checksum := by
  show ∃ ps f, _ ∧ (metadata tree).node ps = _ ∧ _
  generalize metadata tree = m' at he
  cases he with
  | @completeUpload _ _ _ ps f hparts hfile hpending howner hconfirmed =>
      have hagain := hguard session ps f hS hparts hfile hpending howner hconfirmed
      obtain ⟨_, hblocks⟩ := blocksOf_of_not_begunAgain hinv hS hparts hfile hpending hagain
      refine ⟨ps, { f with state := .committed }, hparts, ?_, rfl, hblocks.reserved,
        fun b hb => hblocks.confirmed b hb (hconfirmed b hb)⟩
      rw [Metadata.node_setFile, if_pos rfl]
  | setAttrsDir hparts hdir hμ => exact nomatch hμ
  | setAttrsFile hparts hfile hcommitted hμ => exact nomatch hμ

/-- An AbortUpload of a session that has not been begun again discards no file
    but its own. -/
theorem own_of_discarded {u : Uploads} {S : String} {session : Session}
    {r : Except PyError Ret} {tree : ControlTree} {ps : List String} {f : FileNode}
    (hinv : SessionsInv u) (hS : u.sessions.get? S = some session)
    (hguard : NotBegunAgain u (.abortUpload S))
    (he : Effect (.abortUpload session.path session.caller) (metadata u.tree) r
      (metadata tree))
    (hfile : u.tree.root.view ps = some (.file f)) (hpending : f.state = .pending)
    (hgone : tree.root.view ps ≠ some (.file f)) :
    u.creator.get? ps = some S ∧ BlocksOf session f := by
  have hgone' : (metadata tree).node ps ≠ some (.file f) := hgone
  generalize metadata tree = m' at he hgone'
  cases he with
  | @abortUpload _ _ _ ps' f' hparts hne hfile' hpending' howner =>
      rw [Metadata.node_dropNode] at hgone'
      by_cases hps : ps = ps'
      · subst hps
        have hview : (metadata u.tree).node ps = some (.file f) := hfile
        obtain rfl := Entry.file.inj (Option.some.inj (hview.symm.trans hfile'))
        exact blocksOf_of_not_begunAgain hinv hS hparts hfile hpending
          (hguard session ps f hS hparts hfile hpending howner)
      · rw [if_neg hps] at hgone'
        exact absurd hfile hgone'
  | setAttrsDir hparts hdir hμ => exact nomatch hμ
  | setAttrsFile hparts hfile' hcommitted hμ => exact nomatch hμ
  | refused hpruned =>
      rw [hpruned.node] at hgone'
      exact absurd hfile hgone'

/-- **A SESSION KEEPS TO ITS UPLOAD** in every run in which no session whose path
    has been begun again could still end a pending file. -/
theorem session_keeps_to_its_upload {reqs : List Request} {req : Request} {u u' : Uploads}
    (hrun : (uploads.guarded NotBegunAgain).Run reqs u)
    (hstep : (uploads.guarded NotBegunAgain).step u req u') : KeepsTo u u' req := by
  have hinv := sessionsInv_run hrun.unguarded
  obtain ⟨hguard, hnext⟩ := hstep
  cases req with
  | beginUpload | confirmBlock | other => trivial
  | completeUpload S =>
      intro session a hS hok
      obtain ⟨session', hS', rfl⟩ := Option.map_eq_some_iff.mp hnext
      obtain rfl := Option.some.inj (hS.symm.trans hS')
      have he := exec_effect (.completeUpload session.path session.caller) u.tree
      rw [hok] at he
      exact published_of_own hinv hS hguard he
  | abortUpload S =>
      intro ps f hfile hpending hgone
      obtain ⟨session, hS, rfl⟩ := Option.map_eq_some_iff.mp hnext
      obtain ⟨hcreator, hblocks⟩ :=
        own_of_discarded hinv hS hguard (exec_effect _ _) hfile hpending hgone
      exact ⟨hcreator, session, hS, hblocks.reserved⟩

/-! ## Two sessions of one user -/

def anaCaller : Option Caller := some ⟨"ana", ["lab"], false⟩

/-- A session begins and confirms its block. -/
def firstSession : List Request :=
  [.beginUpload "s1" "/f" [("b1", ["n1"])] (some 0) (some 60) (some 4) anaCaller,
    .confirmBlock "s1" "b1" "sum1" 4 (some 10) (some 60)]

/-- Its lease runs out at second 70, and at second 80 another one takes the name
    and confirms its own block. -/
def twoSessions : List Request := firstSession ++
  [.beginUpload "s2" "/f" [("b2", ["n1"])] (some 80) (some 60) (some 4) anaCaller,
    .confirmBlock "s2" "b2" "sum2" 4 (some 90) (some 60)]

/-- What can be seen after some requests. -/
theorem observed {α : Type} {reqs : List Request} {u : Uploads} {g : Uploads → α} {a : α}
    (hsteps : steps next Uploads.empty reqs = some u)
    (hend : (steps next Uploads.empty reqs).map g = some a) : g u = a := by
  rw [hsteps] at hend
  exact Option.some.inj hend

theorem session_keeps_to_its_upload_replaced : ∃ u u' u'',
    (uploads.guarded NotBegunAgain).Run twoSessions u ∧
    (uploads.guarded NotBegunAgain).step u (.completeUpload "s2") u' ∧
    KeepsTo u u' (.completeUpload "s2") ∧
    (uploads.guarded NotBegunAgain).step u (.abortUpload "s2") u'' ∧
    KeepsTo u u'' (.abortUpload "s2") := by
  have hend : (steps next Uploads.empty twoSessions).map (fun u =>
      ((u.sessions.get? "s2").map fun session => session.path, u.begins))
      = some (some "/f", [("s1", ["f"]), ("s2", ["f"])]) := by
    decide +kernel
  obtain ⟨u, hsteps, hend⟩ := Option.map_eq_some_iff.mp hend
  obtain ⟨hsession, hbegins⟩ := Prod.mk.inj hend
  obtain ⟨session, hS, hpath⟩ := Option.map_eq_some_iff.mp hsession
  have hrun : (uploads.guarded NotBegunAgain).Run twoSessions u := by
    refine ⟨Uploads.empty, rfl, Path.of_labels (path_of_steps hsteps) fun req hreq _ => ?_⟩
    -- so far nobody has ended anything
    rcases List.mem_append.mp hreq with hreq | hreq
    · rcases List.mem_pair.mp hreq with rfl | rfl
      · trivial
      · trivial
    · rcases List.mem_pair.mp hreq with rfl | rfl
      · trivial
      · trivial
  have hagain : ∀ ps, ¬ BegunAgain u "s2" ps := by
    rintro ps ⟨before, after, S', heq, hmem⟩
    rw [hbegins] at heq
    rcases before with _ | ⟨e, _ | ⟨e', before⟩⟩
    · exact absurd (Prod.mk.inj (List.cons.inj heq).1).1 (by decide)
    · rw [← (List.cons.inj (List.cons.inj heq).2).2] at hmem
      cases hmem
    · exact absurd (List.cons.inj (List.cons.inj heq).2).2.symm
        (List.append_ne_nil_of_right_ne_nil _ (List.cons_ne_nil _ _))
  have hcomplete : (uploads.guarded NotBegunAgain).step u (.completeUpload "s2") { u with
      tree := (exec (.completeUpload session.path session.caller) u.tree).2 } := by
    refine ⟨fun _ ps _ _ _ _ _ _ _ => hagain ps, ?_⟩
    show next u _ = _
    rw [next, hS]
    rfl
  have habort : (uploads.guarded NotBegunAgain).step u (.abortUpload "s2") { u with
      tree := (exec (.abortUpload session.path session.caller) u.tree).2 } := by
    refine ⟨fun _ ps _ _ _ _ _ _ => hagain ps, ?_⟩
    show next u _ = _
    rw [next, hS]
    rfl
  exact ⟨u, _, _, hrun, hcomplete, session_keeps_to_its_upload hrun hcomplete,
    habort, session_keeps_to_its_upload hrun habort⟩

/-- The file of the second session. -/
def secondFile (state : FileState) : FileNode where
  state
  blocks := [⟨"b2", ["n1"], "sum2", 4, true⟩]
  leaseExpiresAt := 150
  blockSize := 4
  attrs := ownership anaCaller fileMode

/-- **SESSIONS CROSS OVER**: the CompleteUpload of the first session publishes
    the block of the second one, and its AbortUpload discards the upload of the
    second one. -/
theorem sessions_cross_over :
    (¬ ∀ (reqs : List Request) (S : String) (u u' : Uploads), uploads.Run reqs u →
      uploads.step u (.completeUpload S) u' → KeepsTo u u' (.completeUpload S)) ∧
    ¬ ∀ (reqs : List Request) (S : String) (u u' : Uploads), uploads.Run reqs u →
      uploads.step u (.abortUpload S) u' → KeepsTo u u' (.abortUpload S) := by
  have hend : (steps next Uploads.empty twoSessions).map (fun u =>
      (u.sessions.get? "s1").map fun session => (session.path, session.reserved))
      = some (some ("/f", ["b1"])) := by decide +kernel
  obtain ⟨u, hsteps, hend⟩ := Option.map_eq_some_iff.mp hend
  obtain ⟨session, hS, hend⟩ := Option.map_eq_some_iff.mp hend
  obtain ⟨hpath, hreserved⟩ := Prod.mk.inj hend
  have hrun : uploads.Run twoSessions u := run_of_steps hsteps
  constructor
  · intro h
    have hstep : next u (.completeUpload "s1") = some { u with
        tree := (exec (.completeUpload session.path session.caller) u.tree).2 } := by
      rw [next, hS]
      rfl
    have hok := observed (g := fun u => (u.sessions.get? "s1").map fun session =>
      (exec (.completeUpload session.path session.caller) u.tree).1.toBool) (a := some true)
      hsteps (by decide +kernel)
    have hfile := observed (g := fun u => (next u (.completeUpload "s1")).map fun u' =>
      u'.tree.root.view ["f"]) (a := some (some (.file (secondFile .committed))))
      hsteps (by decide +kernel)
    rw [hS] at hok
    rw [hstep] at hfile
    replace hok : (exec (.completeUpload session.path session.caller) u.tree).1.toBool = true :=
      Option.some.inj hok
    have hkeeps := h twoSessions "s1" u _ hrun hstep session
    generalize (exec (.completeUpload session.path session.caller) u.tree).1 = r at hok hkeeps
    cases r with
    | error e => exact nomatch hok
    | ok a =>
        obtain ⟨ps, f, hparts, hview, _, hids, _⟩ := hkeeps a hS rfl
        rw [hpath] at hparts
        have hroot : parts "/f" = .ok ["f"] := by decide
        obtain rfl := Except.ok.inj (hroot.symm.trans hparts)
        obtain rfl := Entry.file.inj (Option.some.inj
          ((Option.some.inj hfile).symm.trans hview))
        rw [hreserved] at hids
        exact absurd hids (by decide)
  · intro h
    have hstep : next u (.abortUpload "s1") = some { u with
        tree := (exec (.abortUpload session.path session.caller) u.tree).2 } := by
      rw [next, hS]
      rfl
    have hbefore := observed (g := fun u => u.tree.root.view ["f"])
      (a := some (.file (secondFile .pending))) hsteps (by decide +kernel)
    have hcreator := observed (g := fun u => u.creator.get? ["f"]) (a := some "s2")
      hsteps (by decide +kernel)
    have hgone := observed (g := fun u => (next u (.abortUpload "s1")).map fun u' =>
      u'.tree.root.view ["f"]) (a := some none) hsteps (by decide +kernel)
    rw [hstep] at hgone
    have hown := h twoSessions "s1" u _ hrun hstep ["f"] _ hbefore rfl
      fun hkept => nomatch (Option.some.inj hgone).symm.trans hkept
    exact absurd (Option.some.inj (hcreator.symm.trans hown.1)) (by decide)

end DfshaUploadSession
