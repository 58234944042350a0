import Gem5.Proof.O3.InstQueueInsertion

namespace Gem5.O3
open ToMathlib DynInst MemDepUnit List Function

namespace InstQueue
variable {Reg Tid : Type} [Fintype Reg] [Fintype Tid] [DecidableEq Tid] {queue next : InstQueue Reg Tid}
  {inserted : List Nat} {before : Nat → Bool} {seqNum : Nat}

namespace Sound

section
variable (held : queue.Sound before inserted)
include held

theorem popReady (opClass : OpClass) (order : List ListOrderEntry) :
    { queue with ready := (queue.ready.pop opClass order).1 }.Sound before inserted := by
  have scheduled := held.scheduled
  have fewer : ∀ other, ((queue.ready.pop opClass order).1.readyInsts other).Sublist (queue.ready.readyInsts other) := by
    rw [pop_readyInsts]
    exact (forall_update_iff queue.ready.readyInsts fun other list =>
      list.Sublist (queue.ready.readyInsts other)).mpr ⟨tail_sublist _, fun _ _ => .refl _⟩
  refine held.reschedule rfl { scheduled with ready := ?_, entry := ?_ }
  · intro other number member
    exact scheduled.ready other number ((fewer other).subset member)
  · intro number member
    exact (scheduled.entry number member).fewer ((fewer _).count_le number) le_rfl le_rfl

theorem eraseNonSpec (seqNum : Nat) :
    { queue with nonSpecInsts := queue.nonSpecInsts.erase seqNum }.Sound before inserted := by
  have scheduled := held.scheduled
  refine held.reschedule rfl { scheduled with nonSpec := ?_, entry := ?_ }
  · intro number member
    exact scheduled.nonSpec number (mem_of_mem_erase member)
  · intro number member
    exact (scheduled.entry number member).fewer le_rfl (erase_sublist.count_le number) le_rfl

/-- Memory references may be deferred, blocked and retried. -/
theorem setMemInsts {deferredMemInsts blockedMemInsts retryMemInsts : List Nat}
    (deferred : ∀ number ∈ deferredMemInsts, queue.MemRef inserted number)
    (blocked : ∀ number ∈ blockedMemInsts, queue.MemRef inserted number)
    (retry : ∀ number ∈ retryMemInsts, queue.MemRef inserted number) :
    { queue with deferredMemInsts, blockedMemInsts, retryMemInsts }.Sound before inserted :=
  held.reschedule rfl { held.scheduled with
    memInsts := fun number listed => listed.elim (deferred number) (Or.elim · (blocked number) (retry number)) }

theorem memRefs : (∀ number ∈ queue.deferredMemInsts, queue.MemRef inserted number) ∧
    (∀ number ∈ queue.blockedMemInsts, queue.MemRef inserted number) ∧
    ∀ number ∈ queue.retryMemInsts, queue.MemRef inserted number := by
  have memInsts := held.scheduled.memInsts
  exact ⟨fun _ member => memInsts _ (.inl member), fun _ member => memInsts _ (.inr (.inl member)),
    fun _ member => memInsts _ (.inr (.inr member))⟩

/-- The lists of the threads may change within the inserted instructions. -/
theorem setInstList {instList : Tid → List Nat} (listed : ∀ tid, ∀ number ∈ instList tid, number ∈ inserted) :
    { queue with instList }.Sound before inserted :=
  ⟨held.once, listed, { held.counted with }, held.scheduled.congr rfl⟩

/-- The unit of a thread performs an operation that neither adds an instruction nor is given one. -/
theorem keepMemDepUnit {tid : Tid} {unit : MemDepUnit}
    (moves : (queue.memDepUnit tid).Moves (queue.memDepUnit tid).bits [] unit)
    (done : queue.setMemDepUnit tid unit = .ok next) : next.Sound before inserted := by
  exact held.moveMemDepUnit moves (fun _ bit => .inl bit) (by simp) done

/-- The queue is compared with the entries that its instructions hold now. -/
theorem rebase : queue.Sound (fun number => number ∉ inserted || (queue.insts number).holdsEntry) inserted := by
  refine { held with scheduled := { held.scheduled with entry := ?_ } }
  intro number member
  have entry := held.scheduled.entry number member
  refine { entry with released := ?_ }
  intro released
  simpa [member] using released

theorem completeMemInst (done : queue.completeMemInst seqNum = .ok next) :
    next.Sound before inserted ∧ next.insts = queue.insts := by
  obtain ⟨unit, completed, done⟩ := bind_eq_ok.mp done
  refine ⟨held.keepMemDepUnit (completeInst_moves completed) done, ?_⟩
  obtain ⟨ready, rfl, _⟩ := setMemDepUnit_eq done
  rfl

theorem inQueue (member : seqNum ∈ inserted) (live : (queue.insts seqNum).squashed = false) :
    (queue.insts seqNum).squashedInIQ = false := by
  rw [Bool.eq_false_iff]
  intro squashed
  cases live.symm.trans ((held.scheduled.entry seqNum member).squashed squashed)

theorem completeEntry (member : seqNum ∈ inserted) (live : (queue.insts seqNum).squashed = false)
    (memRef : (queue.insts seqNum).isMemRef = true) (issued : (queue.insts seqNum).issued = true)
    (pending : (queue.insts seqNum).memOpDone = false) :
    ((queue.modifyInst seqNum fun inst => { inst with memOpDone := true }).releaseEntry seqNum).Sound
      before inserted := by
  have entry := held.scheduled.entry seqNum member
  have inQueue := held.inQueue member live
  have released : holdsEntry { queue.insts seqNum with memOpDone := true } = false := by
    simp only [holdsEntry, isMemRef] at memRef ⊢
    simp [memRef]
  apply held.release member rfl _ released
  · exact { entry with done := fun _ _ => issued, released := fun _ => released }
  · simp [holdsEntry, memRef, pending, inQueue]

theorem wakeDependents [DecidableEq Reg] (member : seqNum ∈ inserted)
    (completes : (queue.insts seqNum).isMemRef = true → (queue.insts seqNum).issued = true ∧ (queue.insts
      seqNum).memOpDone = false) (done : queue.wakeDependents seqNum = .ok next) : next.Sound before inserted := by
  obtain ⟨live, done⟩ := assert_bind_eq_ok.mp done
  split at done
  · next memRef =>
      obtain ⟨middle, completed, done⟩ := bind_eq_ok.mp done
      obtain ⟨held, insts⟩ := held.completeMemInst completed
      obtain ⟨issued, pending⟩ := completes memRef
      rw [← insts] at live memRef issued pending
      exact (held.completeEntry member live memRef issued pending).wakeRegs done
  · split at done
    · obtain ⟨middle, completed, done⟩ := bind_eq_ok.mp done
      exact (held.completeMemInst completed).1.wakeRegs done
    · exact held.wakeRegs done

/-- An issued memory reference keeps its entry, any other instruction returns it. -/
theorem issue (member : seqNum ∈ inserted) (live : (queue.insts seqNum).squashed = false)
    (entry : queue.EntryAt before seqNum (queue.insts seqNum) 1) (done : queue.issueInst seqNum = .ok next) :
    next.Sound before inserted := by
  have inQueue := held.inQueue member live
  unfold InstQueue.issueInst at done
  dsimp only at done
  rw [modifyInst_self] at done
  cases memRef : (queue.insts seqNum).isMemRef with
  | true =>
    rw [show isMemRef { queue.insts seqNum with issued := true } = true from memRef, if_pos rfl] at done
    obtain ⟨unit, issued, done⟩ := bind_eq_ok.mp done
    have marked : (queue.modifyInst seqNum fun inst => { inst with issued := true }).Sound before inserted := by
      have holds : holdsEntry { queue.insts seqNum with issued := true } = (queue.insts seqNum).holdsEntry := by
        simp only [holdsEntry, isMemRef] at memRef ⊢
        simp [memRef]
      apply held.modify rfl fun _ => holds
      intro _
      refine { entry with done := fun _ _ => rfl, once := ?_, released := holds ▸ entry.released }
      intro other
      cases memRef.symm.trans other
    exact marked.keepMemDepUnit (issue_moves issued) done
  | false =>
    rw [show isMemRef { queue.insts seqNum with issued := true } = false from memRef, if_neg (by decide)] at done
    cases done
    have once := entry.once memRef inQueue
    have waiting : (queue.insts seqNum).issued = false := by
      cases issued : (queue.insts seqNum).issued with
      | false => rfl
      | true =>
        rw [issued] at once
        simp only [Bool.toNat_true] at once
        omega
    have released : holdsEntry { queue.insts seqNum with issued := true } = false := by
      simp only [holdsEntry, isMemRef] at memRef ⊢
      simp [memRef]
    apply held.release member rfl _ released
    · refine { entry with done := fun _ _ => rfl, once := ?_, released := fun _ => released }
      intro _ _
      simp only [Bool.toNat_true] at once ⊢
      omega
    · simp [holdsEntry, memRef, waiting, inQueue]

theorem issueInst {opClass : OpClass} {issuing : Nat} {rest : List Nat} {order : List ListOrderEntry} {unit : FUResult}
    (list : queue.ready.readyInsts opClass = issuing :: rest) (live : (queue.insts issuing).squashed = false)
    (done : { queue.execute issuing unit with ready := (queue.ready.pop opClass order).1 }.issueInst issuing =
      .ok next) : next.Sound before inserted := by
  obtain ⟨member, ofClass⟩ := held.scheduled.ready opClass issuing (by rw [list]; exact mem_cons_self)
  have entry := held.scheduled.entry issuing member
  have count := count_pop list order opClass issuing
  rw [if_pos ⟨rfl, rfl⟩] at count
  obtain ⟨instsToExecute, fuCompletions, shape⟩ := execute_eq queue issuing unit
  rw [shape] at done
  have executing : { queue with
      instsToExecute, fuCompletions,
      ready := (queue.ready.pop opClass order).1 }.Sound before inserted := (held.popReady opClass order).congr rfl
  apply executing.issue member live _ done
  rw [readyCount, ofClass, ← count] at entry
  rw [EntryAt, readyCount]
  rw [ofClass]
  exact entry

theorem scheduleLoop {turns width : Nat} {units : List FUResult} {visited order : List ListOrderEntry}
    (done : scheduleLoop turns width units visited order queue = .ok next) : next.Sound before inserted := by
  induction turns generalizing width units visited order queue with
  | zero => simp [InstQueue.scheduleLoop] at done
  | succ turns ih =>
    rcases order with _ | ⟨entry, order⟩
    · cases done
      exact held.congr rfl
    rcases width with _ | width
    · cases done
      exact held.congr rfl
    unfold InstQueue.scheduleLoop at done
    split at done
    · cases done
    next issuing rest ready =>
      obtain ⟨_, done⟩ := assert_bind_eq_ok.mp done
      dsimp only at done
      split at done
      · exact ih (held.popReady _ _) done
      · next live =>
          split at done
          · exact ih held done
          · obtain ⟨middle, issued, done⟩ := bind_eq_ok.mp done
            exact ih (held.issueInst ready (by simpa using live) issued) done

theorem addReadyMemInsts {seqNums : List Nat}
    (memRefs : ∀ number ∈ seqNums, queue.MemRef inserted number)
    (done : seqNums.foldlM addReadyMemInst queue = .ok next) : next.Sound before inserted := by
  obtain ⟨ready, rfl, pushed⟩ := addReadyMemInsts_eq done
  exact held.reschedule rfl (held.scheduled.pushMemRefs pushed memRefs)

theorem scheduleReadyInsts {totalWidth : Nat} {units : List FUResult}
    (done : queue.scheduleReadyInsts totalWidth units = .ok next) : next.Sound before inserted := by
  simp only [InstQueue.scheduleReadyInsts, bind_eq_ok] at done
  obtain ⟨middle, deferred, last, retried, done⟩ := done
  obtain ⟨memRefs, blocked, retry⟩ := held.memRefs
  have translated : { queue with deferredMemInsts := queue.deferredMemInsts.filter fun seqNum =>
      !((queue.insts seqNum).translationCompleted || (queue.insts seqNum).squashed) }.Sound before inserted :=
    held.setMemInsts (fun number member => memRefs number (mem_of_mem_filter member)) blocked retry
  have readied := translated.addReadyMemInsts (fun number member => memRefs number (mem_of_mem_filter member)) deferred
  obtain ⟨deferred, blocked, retry⟩ := readied.memRefs
  have emptied : { middle with retryMemInsts := [] }.Sound before inserted :=
    readied.setMemInsts deferred blocked (by simp)
  exact (emptied.addReadyMemInsts retry retried).scheduleLoop done

theorem scheduleNonSpec (done : queue.scheduleNonSpec seqNum = .ok next) : next.Sound before inserted := by
  obtain ⟨waits, done⟩ := assert_bind_eq_ok.mp done
  have member := held.scheduled.nonSpec seqNum waits
  have entry := held.scheduled.entry seqNum member
  have some := count_pos_iff.mpr waits
  have allowed : queue.EntryAt before seqNum { queue.insts seqNum with canIssue := true } 0 := by
    refine { entry with unready := ?_ }
    intro other live nodes
    have once := entry.once other live
    omega
  have ready : (queue.modifyInst seqNum fun inst => { inst with canIssue := true }).Sound before inserted :=
    held.modify rfl (fun _ => rfl) fun _ => allowed
  dsimp only at done
  rw [modifyInst_self] at done
  split at done
  · next memRef =>
      simp only [bind_eq_ok] at done
      obtain ⟨unit, issues, middle, readied, done⟩ := done
      cases done
      apply Sound.eraseNonSpec
      apply ready.moveMemDepUnit (nonSpecInstReady_moves issues) (fun _ bit => .inl bit) _ readied
      rw [forall_mem_singleton, MemRef, modifyInst_self]
      exact ⟨member, memRef⟩
  · next other =>
      obtain ⟨middle, pushes, rfl⟩ := bind_ok_eq_ok.mp done
      have other : (queue.insts seqNum).isMemRef = false := Bool.eq_false_iff.mpr other
      rcases addIfReady_eq pushes with ⟨stuck, _⟩ | ⟨_, memRef, _⟩ | ⟨_, _, lists, rfl, pushed⟩
      · simp at stuck
      · rw [modifyInst_self] at memRef
        cases memRef.symm.trans other
      · have erased := ready.eraseNonSpec seqNum
        refine erased.reschedule rfl (erased.scheduled.pushInst pushed member ?_)
        change EntryOk ((queue.modifyInst seqNum fun inst => { inst with canIssue := true }).insts seqNum)
          ((queue.modifyInst seqNum fun inst => { inst with canIssue := true }).readyCount seqNum + 1)
          ((queue.nonSpecInsts.erase seqNum).count seqNum) (queue.nodes seqNum) (before seqNum)
        rw [modifyInst_self, readyCount_modifyInst rfl, count_erase_self]
        refine { allowed with once := ?_ }
        intro other live
        have once := entry.once other live
        dsimp only
        omega

theorem commit {tid : Tid} (done : queue.commit seqNum tid = .ok next) : next.Sound before inserted := by
  cases (assert_bind_eq_ok.mp done).2
  apply held.setInstList
  refine (forall_update_iff _ fun _ numbers => ∀ number ∈ numbers, number ∈ inserted).mpr
    ⟨fun number member => ?_, fun other _ => held.listed other⟩
  exact held.listed tid number ((dropWhile_sublist _).subset member)

/-- A memory reference that waits in the memory system may be issued again. -/
theorem unissue {change : DynInst Reg Tid → DynInst Reg Tid} (memRef : (queue.insts seqNum).isMemRef = true)
    (pending : (queue.insts seqNum).memOpDone = false) (changes : ∀ inst, ∃ translationCompleted, change inst =
      { inst with translationCompleted, canIssue := false, issued := false }) :
    (queue.modifyInst seqNum change).Sound before inserted := by
  obtain ⟨translationCompleted, changed⟩ := changes (queue.insts seqNum)
  have holds : (change (queue.insts seqNum)).holdsEntry = (queue.insts seqNum).holdsEntry := by
    rw [changed]
    simp only [holdsEntry, isMemRef] at memRef ⊢
    simp [memRef]
  apply held.modify (by rw [changed]; rfl) fun _ => holds
  intro member
  have entry := held.scheduled.entry seqNum member
  have released := entry.released
  rw [← holds] at released
  rw [changed] at released ⊢
  refine { entry with done := ?_, once := ?_, unready := fun _ _ _ => rfl, released }
  · intro _ finished
    cases pending.symm.trans finished
  · intro other
    cases memRef.symm.trans other

section
variable (member : seqNum ∈ inserted) (memRef : (queue.insts seqNum).isMemRef = true)
include member memRef

theorem rescheduleMemInst (pending : (queue.insts seqNum).memOpDone = false)
    (done : queue.rescheduleMemInst seqNum = .ok next) : next.Sound before inserted := by
  have waits : (queue.modifyInst seqNum fun inst => { inst with
      translationCompleted := false, canIssue := false, issued := false }).Sound before inserted :=
    held.unissue memRef pending fun _ => ⟨_, rfl⟩
  apply waits.moveMemDepUnit reschedule_moves (fun _ bit => .inl bit) _ done
  rw [forall_mem_singleton, MemRef, modifyInst_self]
  exact ⟨member, memRef⟩

theorem blockMemInst (pending : (queue.insts seqNum).memOpDone = false) :
    (queue.blockMemInst seqNum).Sound before inserted := by
  have waits : (queue.modifyInst seqNum fun inst => { inst with issued := false, canIssue := false }).Sound
      before inserted := held.unissue memRef pending fun _ => ⟨_, rfl⟩
  obtain ⟨deferred, blocked, retry⟩ := waits.memRefs
  apply waits.setMemInsts deferred (forall_mem_append.mpr ⟨blocked, _⟩) retry
  rw [forall_mem_singleton, MemRef, modifyInst_self]
  exact ⟨member, memRef⟩

theorem deferMemInst : (queue.deferMemInst seqNum).Sound before inserted := by
  obtain ⟨deferred, blocked, retry⟩ := held.memRefs
  exact held.setMemInsts (forall_mem_append.mpr ⟨deferred, forall_mem_singleton.mpr ⟨member, memRef⟩⟩) blocked retry

end

theorem cacheUnblocked : queue.cacheUnblocked.Sound before inserted := by
  obtain ⟨deferred, blocked, retry⟩ := held.memRefs
  exact held.setMemInsts deferred (by simp) (forall_mem_append.mpr ⟨retry, blocked⟩)

theorem setStatus {status : StatusBit} :
    (queue.modifyInst seqNum fun inst => inst.setStatus status).Sound before inserted := by
  apply held.modify
  · cases status <;> rfl
  · intro _
    cases status <;> rfl
  · intro member
    have entry := held.scheduled.entry seqNum member
    cases status with
    | squashed =>
      exact { entry with squashed := fun _ => rfl }
    | completed | faulted | translationCompleted =>
      exact { entry with }

end

end Sound

section Squash
variable [DecidableEq Reg]

section
variable (held : queue.Sound before inserted)
include held

theorem Sound.forgetInst (done : queue.forgetInst seqNum = .ok next) :
    next.Sound before inserted ∧ next.insts = queue.insts := by
  unfold InstQueue.forgetInst at done
  dsimp only at done
  split at done
  · obtain ⟨graph, removed, rfl⟩ := bind_ok_eq_ok.mp done
    exact ⟨held.reschedule rfl (held.scheduled.fewerNodes (removeSources_sublist removed)), rfl⟩
  split at done
  · cases done
    exact ⟨held, rfl⟩
  · split at done
    · cases done
      exact ⟨held.eraseNonSpec seqNum, rfl⟩
    · cases (assert_bind_eq_ok.mp done).2
      exact ⟨held, rfl⟩

/-- A squashed instruction that still had its entry returns it. -/
theorem Sound.squashEntry (member : seqNum ∈ inserted) (live : (queue.insts seqNum).squashedInIQ = false)
    (done : queue.squashEntry seqNum = .ok next) : next.Sound before inserted := by
  unfold InstQueue.squashEntry at done
  dsimp only at done
  split at done
  · next waits =>
      obtain ⟨middle, forgotten, rfl⟩ := bind_ok_eq_ok.mp done
      obtain ⟨held, insts⟩ := held.forgetInst forgotten
      rw [← insts] at live waits
      have entry := held.scheduled.entry seqNum member
      have holds : (middle.insts seqNum).holdsEntry = true := by
        cases memRef : (middle.insts seqNum).isMemRef with
        | true =>
          have pending : (middle.insts seqNum).memOpDone = false := by
            rcases waits with waiting | pending
            · rw [Bool.eq_false_iff]
              intro finished
              cases waiting.symm.trans (entry.done memRef finished)
            · exact pending.2
          simp [holdsEntry, memRef, pending, live]
        | false =>
          rw [memRef] at waits
          simp [holdsEntry, memRef, live, waits.resolve_right (by simp)]
      apply held.release member rfl holds rfl
      refine ⟨entry.small, entry.slots, fun _ => rfl, fun _ _ => rfl, ?_, ?_, fun _ => rfl⟩
      all_goals
        intro _ foreign
        simp at foreign
  · cases done
    exact held

theorem Sound.squashInst (member : seqNum ∈ inserted) (live : (queue.insts seqNum).squashedInIQ = false)
    (done : queue.squashInst seqNum = .ok next) : next.Sound before inserted := by
  simp only [InstQueue.squashInst, bind_eq_ok] at done
  obtain ⟨middle, released, graph, cleared, done⟩ := done
  cases done
  have squashed := held.squashEntry member live released
  refine squashed.reschedule rfl (squashed.scheduled.fewerNodes fun flatIndex => ?_)
  rw [clearDests_eq cleared]

theorem Sound.doSquashLoop {tid : Tid} {squashedSeqNum : Nat} {kept insts : List Nat}
    (listed : ∀ number ∈ kept ++ insts, number ∈ inserted)
    (done : doSquashLoop tid squashedSeqNum kept insts queue = .ok next) : next.Sound before inserted := by
  induction insts generalizing kept queue with
  | nil =>
    simp only [InstQueue.doSquashLoop, Except.ok.injEq] at done
    exact done ▸ held
  | cons last older ih =>
    have visited : ∀ number ∈ last :: (kept ++ older), number ∈ inserted :=
      fun number member => listed number (perm_middle.mem_iff.mpr member)
    unfold InstQueue.doSquashLoop at done
    split at done
    · split at done
      · exact ih held visited done
      · next own =>
          obtain ⟨middle, squashed, done⟩ := bind_eq_ok.mp done
          rw [not_or, not_not] at own
          have held := held.squashInst (visited last mem_cons_self) (by simpa using own.2) squashed
          have later := fun number member => visited number (mem_cons_of_mem last member)
          refine ih (held.setInstList ?_) later done
          refine (forall_update_iff _ fun _ numbers => ∀ number ∈ numbers, number ∈ inserted).mpr
            ⟨fun number member => later number ?_, fun other _ => held.listed other⟩
          simpa [or_comm] using member
    · cases done
      exact held

theorem Sound.squash {tid : Tid} {squashedSeqNum : Nat} (done : queue.squash tid squashedSeqNum = .ok next) :
    next.Sound before inserted := by
  simp only [InstQueue.squash, bind_eq_ok] at done
  obtain ⟨middle, squashed, unit, updated, done⟩ := done
  have squashed := held.doSquashLoop (by simpa using held.listed tid) squashed
  exact squashed.keepMemDepUnit (squash_moves updated) done

end

end Squash

end InstQueue

/-- The trace knows which instructions were inserted. -/
structure OccupancyTrace (Reg Tid : Type) where
  queue : InstQueue Reg Tid
  inserted : List Nat

namespace OccupancyTrace
variable {Reg Tid : Type}

/-- An instruction is inserted once, a memory reference completes once after it was issued, and only memory references
that did not complete wait in the memory system. -/
def guard (trace : OccupancyTrace Reg Tid) : InstQueueOp Reg Tid → Prop
  | .insert inst => inst.seqNum ∉ trace.inserted ∧ inst.Fresh
  | .insertNonSpec inst => inst.seqNum ∉ trace.inserted ∧ inst.Fresh
  | .insertBarrier inst => inst.seqNum ∉ trace.inserted ∧ inst.Fresh
  | .wakeDependents seqNum => seqNum ∈ trace.inserted ∧ ((trace.queue.insts seqNum).isMemRef = true →
      (trace.queue.insts seqNum).issued = true ∧ (trace.queue.insts seqNum).memOpDone = false)
  | .rescheduleMemInst seqNum => seqNum ∈ trace.inserted ∧ (trace.queue.insts seqNum).isMemRef = true ∧
      (trace.queue.insts seqNum).memOpDone = false
  | .blockMemInst seqNum => seqNum ∈ trace.inserted ∧ (trace.queue.insts seqNum).isMemRef = true ∧
      (trace.queue.insts seqNum).memOpDone = false
  | .deferMemInst seqNum => seqNum ∈ trace.inserted ∧ (trace.queue.insts seqNum).isMemRef = true
  | _ => True

def record (inserted : List Nat) : InstQueueOp Reg Tid → List Nat
  | .insert inst => inst.seqNum :: inserted
  | .insertNonSpec inst => inst.seqNum :: inserted
  | .insertBarrier inst => inst.seqNum :: inserted
  | _ => inserted

variable [DecidableEq Reg] [DecidableEq Tid]

def step (trace : OccupancyTrace Reg Tid) (op : InstQueueOp Reg Tid) : Except Fault (OccupancyTrace Reg Tid) := do
  let queue ← trace.queue.step op
  .ok ⟨queue, record trace.inserted op⟩

/-- The memory dependence units start without instructions. -/
def initial (numEntries : Nat) (insts : Nat → DynInst Reg Tid) (numPinnedWritesToComplete : Reg → Int)
    (depPred : Tid → StoreSet) : OccupancyTrace Reg Tid :=
  ⟨.initial numEntries insts numPinnedWritesToComplete fun tid =>
    .initial (fun _ => ⟨⟨0, 0, ⟨false, false, false, false, false, false, false, false⟩⟩, [], false, 0, false⟩)
      (depPred tid), []⟩

end OccupancyTrace

def instQueues (Reg Tid : Type) [DecidableEq Reg] [DecidableEq Tid] :
    Machine (OccupancyTrace Reg Tid) (InstQueueOp Reg Tid) Fault := ⟨OccupancyTrace.guard, OccupancyTrace.step⟩

namespace OccupancyTrace
variable {Reg Tid : Type} [DecidableEq Reg] [DecidableEq Tid] [Fintype Reg] [Fintype Tid]
  {trace next : OccupancyTrace Reg Tid} {before : Nat → Bool} {numEntries : Nat} {insts : Nat → DynInst Reg Tid}
  {numPinnedWritesToComplete : Reg → Int} {depPred : Tid → StoreSet}

/-- The queue is sound, and instructions that are inserted later may hold an entry. -/
structure Sound (before : Nat → Bool) (trace : OccupancyTrace Reg Tid) : Prop where
  queue : trace.queue.Sound before trace.inserted
  later : ∀ number, number ∉ trace.inserted → before number = true

omit [DecidableEq Reg] in
theorem Sound.initial (small : numEntries < 2 ^ 32) :
    (initial numEntries insts numPinnedWritesToComplete depPred).Sound fun _ => true := by
  refine ⟨⟨nodup_nil, nofun, ⟨small, ?_, fun _ => rfl⟩, ⟨nofun, nofun, nofun, nofun, ?_, fun _ => rfl, nofun⟩⟩,
    fun _ _ => rfl⟩
  · change numEntries + ∑ _, 0 = numEntries
    simp
  · exact fun tid => ⟨nofun, nofun, nofun⟩

section
variable (held : trace.Sound before)
include held

theorem Sound.step {op : InstQueueOp Reg Tid} (allowed : trace.guard op) (stepped : trace.step op = .ok next) :
    next.Sound before := by
  obtain ⟨queue, done, rfl⟩ := bind_ok_eq_ok.mp stepped
  have sound := held.queue
  refine ⟨?_, fun number absent => held.later number fun member => absent ?_⟩
  · cases op with
    | insert inst => exact sound.insert allowed.1 allowed.2 (held.later _ allowed.1) done
    | insertNonSpec inst => exact sound.insertNonSpec allowed.1 allowed.2 (held.later _ allowed.1) done
    | insertBarrier inst => exact sound.insertBarrier allowed.1 allowed.2 (held.later _ allowed.1) done
    | scheduleReadyInsts totalWidth units => exact sound.scheduleReadyInsts done
    | getInstToExecute =>
      obtain ⟨_, _, done⟩ := bind_eq_ok.mp done
      cases done
      exact sound.congr rfl
    | processFUCompletion seqNum =>
      cases done
      unfold InstQueue.processFUCompletion
      split
      · exact sound.congr rfl
      · exact sound
    | scheduleNonSpec seqNum => exact sound.scheduleNonSpec done
    | commit seqNum tid => exact sound.commit done
    | wakeDependents seqNum => exact sound.wakeDependents allowed.1 allowed.2 done
    | rescheduleMemInst seqNum => exact sound.rescheduleMemInst allowed.1 allowed.2.1 allowed.2.2 done
    | replayMemInst seqNum =>
      obtain ⟨unit, replayed, done⟩ := bind_eq_ok.mp done
      exact sound.keepMemDepUnit (replay_moves replayed) done
    | deferMemInst seqNum =>
      cases done
      exact sound.deferMemInst allowed.1 allowed.2
    | blockMemInst seqNum =>
      cases done
      exact sound.blockMemInst allowed.1 allowed.2.1 allowed.2.2
    | cacheUnblocked =>
      cases done
      exact sound.cacheUnblocked
    | violation store faultingLoad =>
      obtain ⟨unit, trained, done⟩ := bind_eq_ok.mp done
      exact sound.keepMemDepUnit (violation_moves trained) done
    | squash tid squashedSeqNum => exact sound.squash done
    | setStatus seqNum status =>
      cases done
      exact sound.setStatus
    | setNumPinnedWritesToComplete flatIndex numWrites =>
      cases done
      exact sound.congr rfl
  · cases op with
    | insert | insertNonSpec | insertBarrier => exact mem_cons_of_mem _ member
    | _ => exact member

theorem Sound.run {history : List (InstQueueOp Reg Tid)} (run : (instQueues Reg Tid).Run trace history next) :
    next.Sound before := by
  apply run.invariant (Sound before) held
  intro state op next held allowed stepped
  exact held.step allowed stepped

omit [DecidableEq Reg] in
theorem Sound.rebase : trace.Sound fun number => number ∉ trace.inserted || (trace.queue.insts number).holdsEntry := by
  refine ⟨held.queue.rebase, ?_⟩
  intro number absent
  simp [absent]

end

/-- The inserted instructions that hold an entry are counted, and an entry that was returned is never held again. -/
structure Occupied (trace : OccupancyTrace Reg Tid) : Prop where
  total : trace.queue.freeEntries + ∑ tid, trace.queue.count tid = trace.queue.numEntries
  free : trace.queue.freeEntries ≤ trace.queue.numEntries
  distinct : trace.inserted.Nodup
  counts : ∀ tid, trace.queue.count tid = trace.inserted.countP fun number =>
    (trace.queue.insts number).threadNumber = tid && (trace.queue.insts number).holdsEntry
  once : ∀ history later, (instQueues Reg Tid).Run trace history later → ∀ number ∈ trace.inserted,
    (trace.queue.insts number).holdsEntry = false → (later.queue.insts number).holdsEntry = false

theorem Sound.occupied (held : trace.Sound before) : trace.Occupied := by
  have total := held.queue.counted.free
  constructor
  · exact total
  · omega
  · exact held.queue.once
  · exact held.queue.counted.counts
  · intro history later run number member released
    have sound := held.rebase.run run
    have held : (number ∉ trace.inserted || (trace.queue.insts number).holdsEntry) = false := by
      simp [member, released]
    have kept : number ∈ later.inserted := by
      by_contra absent
      cases held.symm.trans (sound.later number absent)
    exact (sound.queue.scheduled.entry number kept).released held

/-- Along every run the free entries and the counts of the threads make up the queue, and every instruction returns its
entry once. -/
theorem instQueue_occupancy {history : List (InstQueueOp Reg Tid)} (small : numEntries < 2 ^ 32)
    (run : (instQueues Reg Tid).Run (initial numEntries insts numPinnedWritesToComplete depPred) history trace) :
    trace.Occupied := ((Sound.initial small).run run).occupied

/-- An instruction without registers. -/
def sampleInst (seqNum : Nat) (isLoad : Bool) : DynInst (Fin 1) (Fin 1) where
  seqNum := seqNum
  threadNumber := 0
  pc := 0
  opClass := .unit 1
  flags := ⟨isLoad, false, false, false, false, false, false, false⟩
  srcs := []
  dests := []
  readyRegs := 0
  canIssue := true
  issued := false
  squashed := false
  squashedInIQ := false
  completed := false
  memOpDone := false
  faulted := false
  translationCompleted := false

theorem sampleInst_fresh (seqNum : Nat) (isLoad : Bool) : (sampleInst seqNum isLoad).Fresh :=
  ⟨rfl, rfl, rfl, by simp [sampleInst, numSrcRegs], rfl, by simp [sampleInst, numSrcRegs]⟩

/-- An issued instruction returned its entry, and an issued load keeps it. -/
theorem instQueue_occupancy_issued : ∃ trace : OccupancyTrace (Fin 1) (Fin 1),
    (instQueues (Fin 1) (Fin 1)).Run (initial 4 (fun _ => sampleInst 0 false) (fun _ => 1)
      fun _ => .init 1000 8 16 fun _ => 0)
      [.scheduleReadyInsts 2 [.unit 1, .unit 1], .insert (sampleInst 2 true), .insert (sampleInst 1 false)] trace ∧
    trace.Occupied ∧ trace.queue.freeEntries = 3 ∧ (trace.queue.insts 1).holdsEntry = false ∧
    (trace.queue.insts 2).holdsEntry = true := by
  refine ⟨_, and_of_imp (.cons (.cons (.cons .nil ⟨by simp [initial], sampleInst_fresh 1 false⟩ rfl)
    ⟨by decide, sampleInst_fresh 2 true⟩ rfl) trivial rfl) fun run => ?_⟩
  exact ⟨instQueue_occupancy (by decide) run, rfl, rfl, rfl⟩

/-- Along every run an instruction that is no memory reference waits for a register, waits for commit, is ready or has
issued, and it does only one of these at a time. -/
theorem instQueue_schedules_once {history : List (InstQueueOp Reg Tid)} (small : numEntries < 2 ^ 32)
    (run : (instQueues Reg Tid).Run (initial numEntries insts numPinnedWritesToComplete depPred) history trace) :
    trace.queue.Scheduled (fun _ => true) trace.inserted := ((Sound.initial small).run run).queue.scheduled

/-- An instruction waits for the register of another one that has issued. -/
theorem instQueue_schedules_once_waiting : ∃ trace : OccupancyTrace (Fin 1) (Fin 1),
    (instQueues (Fin 1) (Fin 1)).Run (initial 4 (fun _ => sampleInst 0 false) (fun _ => 1) fun _ => StoreTrace.sampleSet)
      [.scheduleReadyInsts 1 [.unit 1],
        .insert { sampleInst 2 false with srcs := [⟨.renamed 0, false⟩], canIssue := false },
        .insert { sampleInst 1 false with dests := [.renamed 0] }] trace ∧
    (trace.queue.insts 1).issued = true ∧ trace.queue.dependGraph.dependents 0 = [2] ∧
    trace.queue.Scheduled (fun _ => true) [2, 1] := by
  refine ⟨_, and_of_imp (.cons (.cons (.cons .nil ⟨by simp [initial], { sampleInst_fresh 1 false with }⟩ rfl)
    ⟨by decide, rfl, rfl, rfl, by decide, rfl, by decide⟩ rfl) trivial rfl) fun run => ?_⟩
  exact ⟨rfl, rfl, instQueue_schedules_once (by decide) run⟩

end OccupancyTrace
end Gem5.O3
