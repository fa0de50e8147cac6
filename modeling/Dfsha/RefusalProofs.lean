import Dfsha.ReplicatedTreeProofs

/-! # Refused commands

    A command that is answered with an error leaves the namespace and the users
    as they were; of the locks and the reservations it drops at most what had
    expired by its own time.

    One branch breaks this.  `begin_write` stores the reservation BEFORE it
    describes the slots for the answer, and the description indexes the blocks
    of the file.  When the plan starts more than the length of the file below
    zero, which takes a negative block size, the index raises and the
    reservation stays. -/

namespace DfshaRefusal

open InsertionDict NamedTree RaisingAction TransitionSystem TransitionSystem.System
open DfshaPath DfshaControlTree DfshaMetadata DfshaControlTreeEffect DfshaReplicatedTree

variable {β : Type}

/-! ## A begin of a write whose checks pass -/

section Passed

variable {s : ControlTree} {Q : Except PyError β → ControlTree → Prop}

theorem wp_writeLock {f : Unit → TreeM β} {key lockId : String} {now : Time}
    (hheld : holdsWriteLock (((metadata s).aliveLocks key (some now)).lock key) lockId = true)
    (h : ∀ s₁, metadata s₁ = (metadata s).aliveLocks key (some now) →
      s₁.root = s.root → wp (f ()) s₁ Q) :
    wp (requireWriteLock key lockId now >>= f) s Q := by
  refine wp_bind (wp_cleanupLocks ?_)
  intro s₁ hmeta hroot
  refine wp_gets ?_
  show wp (raiseIf _ _) s₁ _
  rw [← hmeta] at hheld
  rw [raiseIf, if_neg]
  · exact h s₁ hmeta hroot
  · rw [Bool.not_eq_false]
    exact hheld

end Passed

/-- The reservation is determined by what has been checked. -/
theorem reservation_eq {r r' : WriteReservation} (hwrite : r.writeId = r'.writeId)
    (hpath : r.path = r'.path) (hbase : r.baseVersion = r'.baseVersion)
    (hlock : r.lockId = r'.lockId) (hblockSize : r.blockSize = r'.blockSize)
    (hslots : r.slots = r'.slots) (hlease : r.leaseExpiresAt = r'.leaseExpiresAt) :
    r = r' := by
  cases r
  cases r'
  dsimp only at hwrite hpath hbase hlock hblockSize hslots hlease
  subst hwrite hpath hbase hlock hblockSize hslots hlease
  rfl

section BeginWrite

variable {s : ControlTree} {p w l : String} {version offset length : Int}
  {proposals : List (Int × String × List String)} {now leaseS : Time} {default : Int}
  {caller : Option Caller} {ps : List String} {f : FileNode} {r : WriteReservation}

/-- **A BEGIN WHOSE CHECKS PASS STORES THE RESERVATION**, and answers with the
    description of its slots, if they can be described. -/
theorem beginWrite_passed (hparts : parts p = .ok ps)
    (hr : Reserves (metadata s) ps f w l version offset length proposals now leaseS
      default caller r) :
    wp (beginWrite p w l version offset length proposals now leaseS default caller) s
      fun a s' =>
        metadata s' = ((metadata s).writeTable (pathKey ps) now).setWrite w r ∧
        a = (describeSlots f.blocks r.slots).map fun d =>
          (w, f.version, blockSizeOf f default, d) := by
  obtain ⟨plan, hplan, hproposed, hslots⟩ := hr.hplan
  have hclean := parts_pathKey (cleanName_of_parts hparts)
  refine wp_ofExcept_ok (canonicalPath_of_parts hparts) ?_
  refine wp_call (wp_getCommittedFile_ok hclean hr.hfile hr.hcommitted) ?_ fun _ _ h => by
    cases h.1
  rintro _ s' ⟨heq, hsame⟩
  subst s'
  obtain rfl := Except.ok.inj heq
  refine wp_raiseIf_passed (by rw [hr.hallowed]; exact Bool.noConfusion) ?_
  refine wp_writeLock hr.hlocked ?_
  intro s₁ hmeta₁ _
  refine wp_cleanupWrites ?_
  intro s₂ hmeta _
  rw [hmeta₁] at hmeta
  have hfresh : s₂.writes.get? w = none := by
    rw [← hr.hfresh, Metadata.writeTable, ← hmeta]
    rfl
  refine wp_gets (wp_raiseIf_passed (by rw [hfresh]; exact Bool.noConfusion) ?_)
  refine wp_raiseIf_passed (not_not.mpr hr.hversion) ?_
  dsimp only
  split
  · next e he => cases hplan.symm.trans he
  · next plan' hplan' =>
      obtain rfl := Except.ok.inj (hplan.symm.trans hplan')
      refine wp_raiseIf_passed (not_not.mpr hproposed) ?_
      have hres : reserve w (pathKey ps) f.version l (blockSizeOf f default) plan
          (consecutive_plan hplan) proposals (now + leaseS) = r :=
        reservation_eq hr.hwrite.symm hr.hpath.symm hr.hbase.symm hr.hlock.symm
          hr.hblockSize.symm hslots.symm hr.hlease.symm
      refine wp_modify ?_
      rw [hres]
      have hstored : metadata { s₂ with writes := s₂.writes.insert w r }
          = ((metadata s).writeTable (pathKey ps) now).setWrite w r := by
        rw [metadata_setWrite, hmeta]
        rfl
      refine wp_ofExcept_cases ?_ ?_
      · intro described hd
        refine wp_ret ⟨hstored, ?_⟩
        rw [hd]
        rfl
      · intro e hd
        refine ⟨hstored, ?_⟩
        rw [hd]
        rfl

end BeginWrite

/-! ## The description of the slots -/

/-- A slot can be described unless its index is below minus the number of
    blocks. -/
theorem describeSlot_error {blocks : List BlockRecord} {slot : WriteSlotRecord} :
    (∃ e, describeSlot blocks slot = .error e) ↔ slot.index < -(blocks.length : Int) := by
  rw [describeSlot]
  by_cases hlt : slot.index < blocks.length
  · rw [if_pos hlt]
    by_cases hlow : 0 ≤ slot.index + blocks.length
    · obtain ⟨old, hold⟩ := pyIndex_ok hlow hlt
      rw [hold]
      constructor
      · rintro ⟨e, he⟩
        exact nomatch he
      · intro h
        omega
    · have hidx : pyIndex blocks slot.index
          = .error ⟨.indexError, "list index out of range"⟩ := by
        unfold pyIndex
        dsimp only
        rw [if_neg (by omega : ¬ 0 ≤ slot.index), if_neg hlow]
      rw [hidx]
      exact ⟨fun _ => by omega, fun _ => ⟨_, rfl⟩⟩
  · rw [if_neg hlt]
    constructor
    · rintro ⟨e, he⟩
      exact nomatch he
    · intro h
      omega

theorem describeSlots_error {blocks : List BlockRecord} {slots : List WriteSlotRecord} :
    (∃ e, describeSlots blocks slots = .error e) ↔
      ∃ slot ∈ slots, slot.index < -(blocks.length : Int) := by
  induction slots with
  | nil =>
      constructor
      · rintro ⟨e, he⟩
        exact nomatch he
      · rintro ⟨slot, hslot, _⟩
        exact nomatch hslot
  | cons slot slots ih =>
      rw [List.exists_mem_cons_iff, ← describeSlot_error, ← ih, describeSlots]
      cases hd : describeSlot blocks slot with
      | error e => exact ⟨fun _ => .inl ⟨e, rfl⟩, fun _ => ⟨e, rfl⟩⟩
      | ok d =>
          cases hds : describeSlots blocks slots with
          | error e => exact ⟨fun _ => .inr ⟨e, rfl⟩, fun _ => ⟨e, rfl⟩⟩
          | ok ds =>
              constructor
              · rintro ⟨e, he⟩
                exact nomatch he
              · rintro (⟨e, he⟩ | ⟨e, he⟩)
                · exact nomatch he
                · exact nomatch he

/-! ## What an error leaves -/

/-- The time of a command. -/
def timeOfCall : Call → Option Time
  | .mutation μ => timeOf μ
  | .unknown _ => none

/-- If the command is answered with an error, then nothing but what has
    expired by its time is gone. -/
def ErrorLeavesNoTrace (c : Command) (s : ReplicatedTree) : Prop :=
  ∀ cls message, (apply c s).1 = .error cls message →
    Pruned (timeOfCall c.call) (metadata s.tree) (metadata (apply c s).2.tree)

/-- The mutation begins a write, passes every check, and reserves a slot whose
    index is below minus the number of blocks of the file.  The reservation is
    a new one, not an expired one under the same id. -/
def Overreaches (s : ControlTree) (μ : Mutation) : Prop :=
  ∃ p w l version offset length proposals now leaseS default caller ps f r,
    μ = .beginWrite p w l version offset length proposals now leaseS default caller ∧
    parts p = .ok ps ∧
    Reserves (metadata s) ps f w l version offset length proposals now leaseS default
      caller r ∧
    s.writes.get? w ≠ some r ∧ ∃ slot ∈ r.slots, slot.index < -(f.blocks.length : Int)

/-- A reservation stored again over itself. -/
theorem pruned_setWrite {m : Metadata} {key w : String} {now : Time}
    {r : WriteReservation} (hold : m.write w = some r) :
    Pruned (some now) m ((m.writeTable key now).setWrite w r) := by
  have h := pruned_writeTable m key now
  refine ⟨h.node, h.user, h.lock, h.inhabited, h.lockAlive, ?_, ?_⟩
  · intro w' r' hw
    rcases Metadata.update_eq_some hw with ⟨rfl, hr⟩ | ⟨_, hother⟩
    · rw [hold]
      exact hr
    · exact h.write w' r' hother
  · intro w' r' hw hnow
    rw [Metadata.write_setWrite]
    by_cases hw' : w' = w
    · rw [if_pos hw', ← hold, ← hw']
      exact hw
    · rw [if_neg hw']
      exact h.writeAlive w' r' hw hnow

/-- An error other than that of an overreaching write has changed nothing that
    is alive. -/
theorem pruned_effect {s : ControlTree} {μ : Mutation} {e : PyError} {m' : Metadata}
    (he : Effect μ (metadata s) (.error e) m') (hnot : ¬ Overreaches s μ) :
    Pruned (timeOf μ) (metadata s) m' := by
  cases he with
  | refused hpruned => exact hpruned
  | @beginWriteLost _ p w l version offset length proposals now leaseS default caller ps f
      r _ hparts hr hdescribed =>
      refine pruned_setWrite (r := r) ?_
      by_contra hnew
      exact hnot ⟨p, w, l, version, offset, length, proposals, now, leaseS, default, caller,
        ps, f, r, rfl, hparts, hr, hnew, describeSlots_error.mp ⟨_, hdescribed⟩⟩

/-- An overreaching write ends in an error and leaves its reservation. -/
theorem overreaches_stores {s : ControlTree} {μ : Mutation} (h : Overreaches s μ) :
    (∃ e, (exec μ s).1 = .error e) ∧
      ¬ Pruned (timeOf μ) (metadata s) (metadata (exec μ s).2) := by
  obtain ⟨p, w, l, version, offset, length, proposals, now, leaseS, default, caller, ps, f,
    r, rfl, hparts, hr, hnew, hslot⟩ := h
  obtain ⟨e, hdescribed⟩ := describeSlots_error.mpr hslot
  have hwp : wp (exec (.beginWrite p w l version offset length proposals now leaseS default
      caller)) s fun a s' => (∃ e, a = .error e) ∧
        metadata s' = ((metadata s).writeTable (pathKey ps) now).setWrite w r := by
    refine wp_call (beginWrite_passed hparts hr) ?_ ?_
    · rintro a s' ⟨_, ha⟩
      rw [hdescribed] at ha
      exact nomatch ha
    · rintro e s' ⟨hmeta, _⟩
      exact ⟨⟨e, rfl⟩, hmeta⟩
  refine ⟨hwp.1, fun hpruned => hnew ?_⟩
  refine hpruned.write w r ?_
  rw [hwp.2, Metadata.write_setWrite, if_pos rfl]

theorem outcomeOf_error (μ : Mutation) (e : PyError) :
    ∃ cls message, outcomeOf μ (.error e) = .error cls message := by
  rw [outcomeOf]
  by_cases hd : e.cls.isDomain = true
  · rw [if_pos hd]
    exact ⟨_, _, rfl⟩
  · rw [if_neg hd]
    exact ⟨_, _, rfl⟩

theorem outcomeOf_eq_error {μ : Mutation} {r : Except PyError Ret} {cls : ErrorClass}
    {message : String} (h : outcomeOf μ r = .error cls message) : ∃ e, r = .error e := by
  cases r with
  | ok a => exact nomatch h
  | error e => exact ⟨e, rfl⟩

/-- **WHEN AN ERROR LEAVES NO TRACE**: always, but for a write that is executed
    and overreaches. -/
theorem error_leaves_no_trace_iff (c : Command) (s : ReplicatedTree) :
    ErrorLeavesNoTrace c s ↔ ¬ (s.appliedOps.get? c.opId = none ∧
      ∃ μ, c.call = .mutation μ ∧ Overreaches s.tree μ) := by
  constructor
  · rintro h ⟨hnew, μ, hcall, hover⟩
    obtain ⟨⟨e, he⟩, htrace⟩ := overreaches_stores hover
    have happly := apply_executed hnew
    rw [hcall] at happly
    obtain ⟨cls, message, hout⟩ := outcomeOf_error μ e
    have herror : (apply c s).1 = .error cls message := by
      rw [happly, ← hout, ← he]
      rfl
    have hpruned := h cls message herror
    rw [happly, hcall] at hpruned
    exact htrace hpruned
  · intro hnot cls message herror
    have happlied := apply_applied c s
    rw [herror] at happlied
    generalize (apply c s).2 = s' at happlied ⊢
    generalize hout : Outcome.error cls message = o at happlied
    cases happlied with
    | cached hop => exact Pruned.refl _ _
    | @executed μ r _ hnew hcall heffect hops =>
        obtain ⟨e, rfl⟩ := outcomeOf_eq_error hout.symm
        rw [hcall]
        exact pruned_effect heffect fun hover => hnot ⟨hnew, μ, hcall, hover⟩
    | rejected hnew htree hops =>
        rw [htree]
        exact Pruned.refl _ _

/-- An upload of an old journal, without a block size, whose first block is
    confirmed with a negative size, and a lock on the file. -/
def oldFile : List Command :=
  [⟨"u", .mutation (.beginUpload "/f" [("b0", ["n1"]), ("b1", ["n1"])] none none none none)⟩,
   ⟨"c0", .mutation (.confirmBlock "/f" "b0" "h0" (-1) none none none)⟩,
   ⟨"c1", .mutation (.confirmBlock "/f" "b1" "h1" 9 none none none)⟩,
   ⟨"e", .mutation (.completeUpload "/f" none)⟩,
   ⟨"l", .mutation (.acquireLock "/f" "L" "ana" "w" 0 60 none)⟩]

def oldState : ReplicatedTree :=
  oldFile.foldl (fun s c => (apply c s).2) ReplicatedTree.empty

/-- One byte at offset 3: the block size is -1, the slot -3. -/
def lostWrite : Command :=
  ⟨"w", .mutation (.beginWrite "/f" "w1" "L" 0 3 1 [(-3, "b2", ["n1"])] 1 60 4 none)⟩

/-- **THE RESERVATION OF A WRITE THAT IS REFUSED STAYS.** -/
theorem refused_write_stays_reserved :
    ¬ ∀ (cmds : List Command) (s : ReplicatedTree) (c : Command),
      replicated.Run cmds s → ErrorLeavesNoTrace c s := by
  intro h
  have hpruned := h oldFile oldState lostWrite ⟨_, rfl, path_foldl _ oldFile⟩
    .dfshaError "error interno en begin_write: list index out of range" (by decide +kernel)
  have hstored : ((apply lostWrite oldState).2.tree.writes.get? "w1").isSome = true := by
    decide +kernel
  obtain ⟨r, hr⟩ := Option.isSome_iff_exists.mp hstored
  have hold : oldState.tree.writes.get? "w1" = some r := hpruned.write "w1" r hr
  have hnone : (oldState.tree.writes.get? "w1").isSome = false := by decide +kernel
  rw [hold] at hnone
  exact nomatch hnone

end DfshaRefusal
