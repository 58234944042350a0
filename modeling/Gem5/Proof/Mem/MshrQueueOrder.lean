import Gem5.Proof.Mem.MshrOrder
import Gem5.Construction.Mem.MshrQueue

namespace Gem5
open ToMathlib Function List

namespace MSHR
variable {mshr next : MSHR}

theorem allocate_inService {blkAddr : BitVec 64} {blkSize : Nat} {target : Packet} {whenReady order : Nat}
    {allocOnFill : Bool} (done : mshr.allocate blkAddr blkSize target whenReady order allocOnFill = .ok next) :
    next.inService = false := by
  simp only [allocate, bind_eq_ok] at done
  obtain ⟨_, _, _, _, _, _, made⟩ := done
  cases made
  rfl

theorem markInService_eq_ok {modified : Bool} (done : mshr.markInService modified = .ok next) :
    mshr.inService = false ∧ next.inService = true := by
  obtain ⟨idle, made⟩ := assert_bind_eq_ok.mp done
  cases made
  exact ⟨idle, rfl⟩

theorem markPending_eq_ok (done : mshr.markPending = .ok next) : mshr.inService = true ∧ next.inService = false := by
  obtain ⟨busy, made⟩ := assert_bind_eq_ok.mp done
  cases made
  exact ⟨busy, rfl⟩

theorem deallocate_inService (done : mshr.deallocate = .ok next) : next.inService = false := by
  simp only [deallocate, bind_eq_ok] at done
  obtain ⟨_, _, _, _, made⟩ := done
  cases made
  rfl

/-- The operation does not go through the queue, and only a register in service promotes its deferred targets. -/
def Plain (mshr : MSHR) : Op → Prop
  | .allocate .. | .markInService _ | .markPending | .deallocate => False
  | .promoteDeferredTargets _ => mshr.inService = true
  | _ => True

/-- Two registers agree on when their request is sent. -/
def SameIssue (mshr next : MSHR) : Prop :=
  next.inService = mshr.inService ∧ (mshr.inService = false → next.readyTime = mshr.readyTime)

theorem SameIssue.refl (mshr : MSHR) : mshr.SameIssue mshr := ⟨rfl, fun _ => rfl⟩

theorem SameIssue.trans {middle : MSHR} (first : mshr.SameIssue middle) (second : middle.SameIssue next) :
    mshr.SameIssue next :=
  ⟨second.1.trans first.1, fun idle => (second.2 (first.1.trans idle)).trans (first.2 idle)⟩

theorem allocateTarget_sameIssue {pkt : Packet} {whenReady order : Nat} {allocOnFill : Bool}
    (done : mshr.allocateTarget pkt whenReady order allocOnFill = .ok next) : mshr.SameIssue next := by
  simp only [allocateTarget, bind_eq_ok] at done
  obtain ⟨_, _, _, _, made⟩ := done
  split at made <;> cases made <;> exact .refl mshr

theorem downgrade_sameIssue (mshr : MSHR) (pkt : Packet) : mshr.SameIssue (mshr.downgrade pkt).2 := by
  unfold downgrade
  split <;> exact .refl mshr

theorem handleSnoop_sameIssue {pkt answered : Packet} {order curTick : Nat} {result : Bool}
    (done : mshr.handleSnoop pkt order curTick = .ok (result, answered, next)) : mshr.SameIssue next := by
  have cases := handleSnoop_cases done
  split at cases
  · subst cases
    unfold snoopBefore
    split <;> exact .refl mshr
  · have deferred : mshr.SameIssue (mshr.snoopDeferred pkt) := by
      unfold snoopDeferred
      split <;> exact .refl mshr
    rcases snoopAfter_cases cases with rfl | ⟨willRespond, told, rfl⟩ | rfl
    · exact deferred
    · have saved : (mshr.snoopDeferred pkt).SameIssue ((mshr.snoopDeferred pkt).saveSnoop pkt order curTick willRespond) :=
        .refl _
      exact (deferred.trans saved).trans (downgrade_sameIssue _ told)
    · exact deferred.trans (downgrade_sameIssue _ pkt)

theorem promoteIf_sameIssue {pred : Target → Except Fault Bool} (done : mshr.promoteIf pred = .ok next) :
    mshr.SameIssue next := by
  simp only [promoteIf, bind_eq_ok] at done
  obtain ⟨_, _, _, _, made⟩ := done
  cases made
  exact .refl mshr

theorem promoteReadable_sameIssue (done : mshr.promoteReadable = .ok next) : mshr.SameIssue next := by
  rcases promoteReadable_cases done with rfl | ⟨_, _, done⟩
  · exact .refl _
  · exact promoteIf_sameIssue done

theorem promoteWritable_sameIssue (done : mshr.promoteWritable = .ok next) : mshr.SameIssue next := by
  rcases promoteWritable_cases done with rfl | ⟨_, done⟩
  · exact .refl _
  · have promoted := promoteIf_sameIssue done
    exact ⟨promoted.1, promoted.2⟩

theorem promoteDeferredTargets_inService {curTick : Nat} {result : Bool}
    (done : mshr.promoteDeferredTargets curTick = .ok (result, next)) : next.inService = mshr.inService := by
  unfold promoteDeferredTargets at done
  split at done
  · cases done
    rfl
  · obtain ⟨_, _, made⟩ := bind_eq_ok.mp done
    cases made
    rfl

/-- An operation that does not go through the queue keeps the place of a register in it. -/
theorem step_sameIssue {op : Op} {handed : List Target} (plain : mshr.Plain op)
    (done : mshr.step op = .ok (handed, next)) : mshr.SameIssue next := by
  cases op with
  | allocate | markInService | markPending | deallocate => exact plain.elim
  | allocateTarget =>
    obtain ⟨_, allocated, _, rfl⟩ := bind_pair_eq_ok.mp done
    exact allocateTarget_sameIssue allocated
  | handleSnoop =>
    obtain ⟨⟨_, _, _⟩, snooped, _, rfl⟩ := bind_pair_eq_ok.mp done
    exact handleSnoop_sameIssue snooped
  | extractServiceableTargets =>
    obtain ⟨⟨_, _⟩, extracted, _, rfl⟩ := bind_pair_eq_ok.mp done
    obtain ⟨_, _, _, rfl⟩ := bind_pair_eq_ok.mp extracted
    exact .refl mshr
  | promoteReadable =>
    obtain ⟨_, promoted, _, rfl⟩ := bind_pair_eq_ok.mp done
    exact promoteReadable_sameIssue promoted
  | promoteWritable =>
    obtain ⟨_, promoted, _, rfl⟩ := bind_pair_eq_ok.mp done
    exact promoteWritable_sameIssue promoted
  | promoteDeferredTargets =>
    obtain ⟨_, promoted, _, rfl⟩ := bind_pair_eq_ok.mp done
    refine ⟨promoteDeferredTargets_inService promoted, ?_⟩
    intro idle
    cases plain.symm.trans idle
  | setDownstreamPending | setForward =>
    cases done
    exact .refl mshr
  | clearDownstreamPending =>
    obtain ⟨_, cleared, _, rfl⟩ := bind_pair_eq_ok.mp done
    obtain ⟨_, _, rfl⟩ := bind_ok_eq_ok.mp cleared
    exact .refl mshr

end MSHR

namespace MSHRQueue
variable {numEntries : Nat} {queue next : MSHRQueue numEntries} {entry : Fin numEntries}

section Insertion
variable {readyTime : Fin numEntries → Nat} {list result : List (Fin numEntries)}

theorem insertBeforeLater_perm (done : insertBeforeLater readyTime entry list = .ok result) :
    result.Perm (entry :: list) := by
  induction list generalizing result with
  | nil => cases done
  | cons other rest ih =>
    unfold insertBeforeLater at done
    split at done
    · cases done
      rfl
    · obtain ⟨later, inserted, rfl⟩ := bind_ok_eq_ok.mp done
      exact ((ih inserted).cons other).trans (List.Perm.swap entry other rest)

theorem insertBeforeLater_sorted
    (sorted : list.Pairwise fun first second => readyTime first ≤ readyTime second)
    (done : insertBeforeLater readyTime entry list = .ok result) :
    result.Pairwise fun first second => readyTime first ≤ readyTime second := by
  induction list generalizing result with
  | nil => cases done
  | cons other rest ih =>
    obtain ⟨smallest, sortedRest⟩ := pairwise_cons.mp sorted
    unfold insertBeforeLater at done
    split at done
    · rename_i earlier
      cases done
      refine pairwise_cons.mpr ⟨forall_mem_cons.mpr ⟨earlier.le, fun later member => ?_⟩, sorted⟩
      exact earlier.le.trans (smallest later member)
    · rename_i notEarlier
      obtain ⟨later, inserted, rfl⟩ := bind_ok_eq_ok.mp done
      refine pairwise_cons.mpr ⟨?_, ih sortedRest inserted⟩
      simp only [(insertBeforeLater_perm inserted).mem_iff]
      exact forall_mem_cons.mpr ⟨Nat.le_of_not_lt notEarlier, smallest⟩

end Insertion

/-- The entry is allocated and its request has not been sent. -/
def Waiting (queue : MSHRQueue numEntries) (entry : Fin numEntries) : Prop :=
  entry ∈ queue.allocatedList ∧ (queue.entries entry).inService = false

/-- The ready list is in the order of the ready times. -/
def Sorted (queue : MSHRQueue numEntries) : Prop :=
  queue.readyList.Pairwise fun first second => queue.readyTime first ≤ queue.readyTime second

section AddToReadyList
variable {readyList : List (Fin numEntries)}

theorem addToReadyList_perm (done : queue.addToReadyList entry = .ok readyList) :
    readyList.Perm (entry :: queue.readyList) := by
  unfold addToReadyList at done
  split at done
  · rename_i empty
    rw [← Except.ok.inj done, getLast?_eq_none_iff.mp empty]
  · split at done
    · cases done
      exact perm_append_singleton _ _
    · exact insertBeforeLater_perm done

/-- A new entry of the ready list keeps its order. -/
theorem addToReadyList_sorted (sorted : queue.Sorted) (done : queue.addToReadyList entry = .ok readyList) :
    readyList.Pairwise fun first second => queue.readyTime first ≤ queue.readyTime second := by
  unfold addToReadyList at done
  split at done
  · cases done
    exact pairwise_singleton _ _
  rename_i back last
  split at done
  · rename_i latest
    cases done
    refine pairwise_append.mpr ⟨sorted, pairwise_singleton _ _, ?_⟩
    intro first member second same
    rw [mem_singleton.mp same]
    obtain ⟨front, split⟩ := getLast?_eq_some_iff.mp last
    unfold Sorted at sorted
    rw [split] at member sorted
    rcases mem_append.mp member with early | same
    · exact ((pairwise_append.mp sorted).2.2 first early back (by simp)).trans latest
    · rw [mem_singleton.mp same]
      exact latest
  · exact insertBeforeLater_sorted sorted done

end AddToReadyList

/-- The lists of a queue agree with the states of its entries. -/
structure Sound (queue : MSHRQueue numEntries) : Prop where
  partition : (queue.freeList ++ queue.allocatedList).Perm (finRange numEntries)
  idle : ∀ entry ∈ queue.freeList, (queue.entries entry).inService = false
  counted : queue.numInService = (queue.allocatedList.countP fun entry => (queue.entries entry).inService : Nat)
  once : queue.readyList.Nodup
  ready : ∀ entry, entry ∈ queue.readyList ↔ queue.Waiting entry

theorem Sound.init : (init : MSHRQueue numEntries).Sound where
  partition := by simp [MSHRQueue.init]
  idle := fun _ _ => rfl
  counted := rfl
  once := nodup_nil
  ready := by simp [MSHRQueue.init, Waiting]

theorem mem_allocated_iff {free allocated : List (Fin numEntries)}
    (partition : (free ++ allocated).Perm (finRange numEntries)) : entry ∈ allocated ↔ entry ∉ free := by
  have once := partition.nodup_iff.mpr (nodup_finRange numEntries)
  have all := mem_append.mp (partition.mem_iff.mpr (mem_finRange entry))
  exact ⟨fun inside outside => (nodup_append.mp once).2.2 entry outside entry inside rfl, all.resolve_left⟩

/-- The entries in service may be counted over all entries, since free ones are idle. -/
theorem countP_allocated {free allocated : List (Fin numEntries)} {entries : Fin numEntries → MSHR}
    (partition : (free ++ allocated).Perm (finRange numEntries))
    (idle : ∀ entry ∈ free, (entries entry).inService = false) :
    (allocated.countP fun entry => (entries entry).inService) = ∑ entry, (entries entry).inService.toNat := by
  have none : (free.countP fun entry => (entries entry).inService) = 0 := countP_eq_zero.mpr (by simpa using idle)
  have whole := partition.countP_eq fun entry => (entries entry).inService
  rw [countP_append, none, Nat.zero_add] at whole
  rw [whole, Fin.sum_univ_def]
  generalize finRange numEntries = all
  induction all with
  | nil => rfl
  | cons entry rest ih =>
    rw [countP_cons, map_cons, sum_cons, ih, Nat.add_comm]
    cases (entries entry).inService <;> rfl

/-- A change to one entry keeps the lists consistent if they agree with its new state. -/
theorem Sound.change (held : queue.Sound) {mshr : MSHR} (entries : next.entries = update queue.entries entry mshr)
    (partition : (next.freeList ++ next.allocatedList).Perm (finRange numEntries))
    (count : next.numInService + (queue.entries entry).inService.toNat = queue.numInService + mshr.inService.toNat)
    (once : next.readyList.Nodup) (free : entry ∈ next.freeList → mshr.inService = false)
    (ready : entry ∈ next.readyList ↔ entry ∈ next.allocatedList ∧ mshr.inService = false)
    (others : ∀ index, index ≠ entry → (index ∈ next.allocatedList ↔ index ∈ queue.allocatedList) ∧
      (index ∈ next.readyList ↔ index ∈ queue.readyList)) : next.Sound := by
  have idle : ∀ index ∈ next.freeList, (next.entries index).inService = false := by
    intro index member
    rw [entries]
    by_cases same : index = entry
    · rw [same, update_self]
      exact free (same ▸ member)
    · rw [update_of_ne same]
      apply held.idle index
      rw [← not_not (a := index ∈ queue.freeList), ← mem_allocated_iff held.partition, ← (others index same).1,
        mem_allocated_iff partition, not_not]
      exact member
  refine ⟨partition, idle, ?_, once, fun index => ?_⟩
  · have before := held.counted
    have sums := sum_update (fun mshr : MSHR => mshr.inService.toNat) queue.entries entry mshr
    rw [countP_allocated held.partition held.idle] at before
    rw [countP_allocated partition idle, entries]
    omega
  · rw [Waiting, entries]
    by_cases same : index = entry
    · rw [same, update_self]
      exact ready
    · rw [update_of_ne same, (others index same).1, (others index same).2]
      exact held.ready index

theorem Sound.allocated_of_inService (held : queue.Sound) (busy : (queue.entries entry).inService = true) :
    entry ∈ queue.allocatedList := by
  rw [mem_allocated_iff held.partition]
  intro free
  cases (held.idle entry free).symm.trans busy

/-- A change to an entry outside a list keeps the order of the list. -/
theorem pairwise_update {list : List (Fin numEntries)} (outside : entry ∉ list) (mshr : MSHR)
    (sorted : list.Pairwise fun first second => queue.readyTime first ≤ queue.readyTime second) :
    list.Pairwise fun first second =>
      (queue.setEntry entry mshr).readyTime first ≤ (queue.setEntry entry mshr).readyTime second := by
  refine sorted.imp_of_mem ?_
  intro first second firstMember secondMember ordered
  have firstOther : first ≠ entry := fun same => outside (same ▸ firstMember)
  have secondOther : second ≠ entry := fun same => outside (same ▸ secondMember)
  simpa [readyTime, setEntry, firstOther, secondOther] using ordered

/-- A queue keeps its lists consistent and, if it was in order, its order. -/
def Keeps (queue next : MSHRQueue numEntries) : Prop := next.Sound ∧ (queue.Sorted → next.Sorted)

theorem Sound.allocate (held : queue.Sound) {blkAddr : BitVec 64} {blkSize : Nat} {pkt : Packet}
    {whenReady order : Nat} {allocOnFill : Bool}
    (done : queue.allocate blkAddr blkSize pkt whenReady order allocOnFill = .ok next) : queue.Keeps next := by
  unfold MSHRQueue.allocate at done
  split at done
  · cases done
  rename_i entry rest free
  obtain ⟨mshr, allocated, done⟩ := bind_eq_ok.mp done
  obtain ⟨readyList, added, made⟩ := bind_eq_ok.mp done
  have idle := MSHR.allocate_inService allocated
  have perm := addToReadyList_perm added
  change readyList.Perm (entry :: queue.readyList) at perm
  cases made
  have isFree : entry ∈ queue.freeList := by simp [free]
  have notReady : entry ∉ queue.readyList := fun member =>
    (mem_allocated_iff held.partition).mp ((held.ready entry).mp member).1 isFree
  refine ⟨held.change rfl ?_ ?_ ?_ (fun _ => idle) ?_ ?_, fun sorted => ?_⟩
  · have before := held.partition
    rw [free] at before
    refine List.Perm.trans ?_ before
    rw [← append_assoc]
    exact perm_append_singleton _ _
  · rw [idle, held.idle entry isFree]
    rfl
  · exact perm.nodup_iff.mpr (nodup_cons.mpr ⟨notReady, held.once⟩)
  · simp [perm.mem_iff, idle]
  · intro index different
    simp [perm.mem_iff, different]
  · have before : (queue.setEntry entry mshr).Sorted := pairwise_update notReady mshr sorted
    have ordered := addToReadyList_sorted before added
    exact ordered

theorem eraseAt_eq_ok {list result : List (Fin numEntries)} (done : eraseAt list entry = .ok result) :
    entry ∈ list ∧ result = list.erase entry := by
  unfold eraseAt at done
  split at done
  · rename_i member
    exact ⟨member, (Except.ok.inj done).symm⟩
  · cases done

section
variable (held : queue.Sound)
include held

theorem Sound.markInService {modified : Bool} (done : queue.markInService entry modified = .ok next) :
    queue.Keeps next := by
  obtain ⟨mshr, marked, done⟩ := bind_eq_ok.mp done
  obtain ⟨readyList, erased, made⟩ := bind_eq_ok.mp done
  obtain ⟨idle, busy⟩ := MSHR.markInService_eq_ok marked
  obtain ⟨isReady, rfl⟩ := eraseAt_eq_ok erased
  cases made
  have allocated := ((held.ready entry).mp isReady).1
  refine ⟨held.change rfl held.partition ?_ (held.once.erase entry) ?_ ?_ ?_, fun sorted => ?_⟩
  · rw [idle, busy]
    exact Int.add_zero _
  · exact fun free => absurd free ((mem_allocated_iff held.partition).mp allocated)
  · exact iff_of_false (held.once.not_mem_erase) (by simp [busy])
  · exact fun index different => ⟨.rfl, mem_erase_of_ne different⟩
  · exact pairwise_update held.once.not_mem_erase mshr (List.Pairwise.sublist erase_sublist sorted)

theorem Sound.notMem_ready (busy : (queue.entries entry).inService = true) : entry ∉ queue.readyList := by
  intro member
  cases ((held.ready entry).mp member).2.symm.trans busy

theorem Sound.markPending (done : queue.markPending entry = .ok next) : queue.Keeps next := by
  obtain ⟨mshr, marked, done⟩ := bind_eq_ok.mp done
  obtain ⟨readyList, added, made⟩ := bind_eq_ok.mp done
  obtain ⟨busy, idle⟩ := MSHR.markPending_eq_ok marked
  have perm := addToReadyList_perm added
  change readyList.Perm (entry :: queue.readyList) at perm
  cases made
  have allocated := held.allocated_of_inService busy
  have notReady := held.notMem_ready busy
  refine ⟨held.change rfl held.partition ?_ ?_ (fun _ => idle) ?_ ?_, fun sorted => ?_⟩
  · rw [idle, busy]
    exact (Int.sub_add_cancel _ 1).trans (Int.add_zero _).symm
  · exact perm.nodup_iff.mpr (nodup_cons.mpr ⟨notReady, held.once⟩)
  · exact iff_of_true (perm.mem_iff.mpr mem_cons_self) ⟨allocated, idle⟩
  · intro index different
    simp [perm.mem_iff, setEntry, different]
  · have before : (queue.setEntry entry mshr).Sorted := pairwise_update notReady mshr sorted
    have ordered := addToReadyList_sorted before added
    exact ordered

theorem Sound.deallocate (done : queue.deallocate entry = .ok next) : queue.Keeps next := by
  obtain ⟨allocatedList, erased, done⟩ := bind_eq_ok.mp done
  obtain ⟨released, left, done⟩ := bind_eq_ok.mp done
  obtain ⟨mshr, deallocated, made⟩ := bind_eq_ok.mp done
  have idle := MSHR.deallocate_inService deallocated
  obtain ⟨allocated, rfl⟩ := eraseAt_eq_ok erased
  -- The entry leaves the count or the ready list, where it is not in the other case.
  obtain rfl : released = { queue with
      allocatedList := queue.allocatedList.erase entry, freeList := entry :: queue.freeList
      allocated := queue.allocated - 1, readyList := queue.readyList.erase entry
      numInService := queue.numInService - (queue.entries entry).inService.toNat } := by
    unfold release at left
    split at left
    · rename_i inService
      have busy : (queue.entries entry).inService = true := inService
      rw [← Except.ok.inj left, erase_of_not_mem (held.notMem_ready busy), busy]
      rfl
    · rename_i notBusy
      obtain ⟨readyList, erased, rfl⟩ := bind_ok_eq_ok.mp left
      rw [(eraseAt_eq_ok erased).2, Bool.eq_false_iff.mpr notBusy]
      simp
  cases made
  have once : (queue.allocatedList).Nodup := (held.partition.nodup_iff.mpr (nodup_finRange numEntries)).of_append_right
  refine ⟨held.change rfl ?_ ?_ (held.once.erase entry) (fun _ => idle) ?_ ?_, fun sorted => ?_⟩
  · refine List.Perm.trans (perm_middle.symm.trans ?_) held.partition
    exact (perm_cons_erase allocated).symm.append_left queue.freeList
  · rw [idle]
    exact (Int.sub_add_cancel _ _).trans (Int.add_zero _).symm
  · exact iff_of_false held.once.not_mem_erase fun member => once.not_mem_erase member.1
  · exact fun index different => ⟨mem_erase_of_ne different, mem_erase_of_ne different⟩
  · exact pairwise_update held.once.not_mem_erase mshr (List.Pairwise.sublist erase_sublist sorted)

/-- A change to an entry that does not send its request keeps the lists consistent. -/
theorem Sound.setEntry {mshr : MSHR} (same : mshr.inService = (queue.entries entry).inService) :
    (queue.setEntry entry mshr).Sound := by
  refine held.change rfl held.partition (by rw [same]; rfl) held.once ?_ ?_ fun _ _ => ⟨.rfl, .rfl⟩
  · rw [same]
    exact held.idle entry
  · rw [same]
    exact held.ready entry

end

theorem dropWhile_ne {before after : List (Fin numEntries)} (fresh : entry ∉ before) :
    (before ++ entry :: after).dropWhile (· ≠ entry) = entry :: after := by
  rw [dropWhile_append_of_pos, dropWhile_cons_of_neg (by simp)]
  intro other inside
  simpa using fun same : other = entry => fresh (same ▸ inside)

/-- The search of `moveDelayed` finds the delayed entry itself, so the entry keeps its place. -/
theorem moveDelayed_eq_ok (done : queue.moveDelayed entry = .ok next) : entry ∈ queue.readyList ∧ next = queue := by
  unfold moveDelayed at done
  split at done
  · rename_i member
    obtain ⟨before, after, split, fresh⟩ := eq_append_cons_of_mem member
    refine ⟨member, ?_⟩
    rw [← Except.ok.inj done, split, dropWhile_ne fresh, find?_cons_of_pos (by simp)]
    simp [splice, ← split]
  · cases done

theorem delay_eq_ok {delayTicks curTick : Nat} (done : queue.delay entry delayTicks curTick = .ok next) :
    queue.readyTime entry ≤ curTick ∧ entry ∈ queue.readyList ∧
      next = queue.setEntry entry { queue.entries entry with readyTime := (curTick + delayTicks) % 2 ^ 64 } := by
  obtain ⟨mshr, delayed, moved⟩ := bind_eq_ok.mp done
  obtain ⟨passed, made⟩ := assert_bind_eq_ok.mp delayed
  obtain ⟨member, rfl⟩ := moveDelayed_eq_ok moved
  cases made
  exact ⟨passed, member, rfl⟩

/-- A delayed entry keeps the order if no entry behind it is ready before the delay ends. -/
theorem Sorted.delay (sorted : queue.Sorted) (once : queue.readyList.Nodup) {delayTicks curTick : Nat}
    (fits : curTick + delayTicks < 2 ^ 64)
    (behind : ∀ other ∈ (queue.readyList.dropWhile (· ≠ entry)).tail, curTick + delayTicks ≤ queue.readyTime other)
    (done : queue.delay entry delayTicks curTick = .ok next) : next.Sorted := by
  obtain ⟨passed, member, rfl⟩ := delay_eq_ok done
  rw [Nat.mod_eq_of_lt fits]
  obtain ⟨before, after, split, fresh⟩ := eq_append_cons_of_mem member
  rw [split, dropWhile_ne fresh, tail_cons] at behind
  unfold Sorted at sorted ⊢
  rw [split] at sorted once
  obtain ⟨sortedBefore, sortedAfter, apart⟩ := pairwise_append.mp sorted
  have freshAfter := (nodup_cons.mp once.of_append_right).1
  have kept : ∀ other, other ≠ entry → ∀ mshr, (queue.setEntry entry mshr).readyTime other = queue.readyTime other := by
    intro other different mshr
    simp [readyTime, setEntry, different]
  change (queue.readyList.Pairwise _)
  rw [split]
  refine pairwise_append.mpr ⟨pairwise_update fresh _ sortedBefore, pairwise_cons.mpr ⟨?_, ?_⟩, ?_⟩
  · intro other inside
    rw [kept other (fun same => freshAfter (same ▸ inside))]
    simpa [readyTime, setEntry] using behind other inside
  · exact pairwise_update freshAfter _ (pairwise_cons.mp sortedAfter).2
  · intro first inside second later
    rw [kept first (fun same => fresh (same ▸ inside))]
    rcases mem_cons.mp later with rfl | later
    · have early := apart first inside second (by simp)
      simp only [readyTime, setEntry, update_self] at early passed ⊢
      omega
    · rw [kept second (fun same => freshAfter (same ▸ later))]
      exact apart first inside second (by simp [later])

theorem Sound.access (held : queue.Sound) {op : MSHR.Op} {handed : List Target} {mshr : MSHR}
    (plain : (queue.entries entry).Plain op) (done : (queue.entries entry).step op = .ok (handed, mshr)) :
    queue.Keeps (queue.setEntry entry mshr) := by
  obtain ⟨same, unmoved⟩ := MSHR.step_sameIssue plain done
  refine ⟨held.setEntry same, ?_⟩
  intro sorted
  have kept : ∀ other ∈ queue.readyList, (queue.setEntry entry mshr).readyTime other = queue.readyTime other := by
    intro other member
    by_cases equal : other = entry
    · subst equal
      simp [readyTime, MSHRQueue.setEntry, unmoved ((held.ready other).mp member).2]
    · simp [readyTime, MSHRQueue.setEntry, equal]
  refine List.Pairwise.imp_of_mem ?_ sorted
  intro first second firstMember secondMember ordered
  rw [kept first firstMember, kept second secondMember]
  exact ordered

namespace Clocked
variable {state final : Clocked numEntries} {op : Op numEntries}

/-- Time does not go back, and the register of an access is allocated. -/
def Allowed (state : Clocked numEntries) : Op numEntries → Prop
  | .advance tick => state.curTick ≤ tick
  | .access entry op => entry ∈ state.queue.allocatedList ∧ (state.queue.entries entry).Plain op
  | _ => True

/-- No entry behind a delayed one in the ready list is ready before the delay ends. -/
def Orderly (state : Clocked numEntries) : Op numEntries → Prop
  | .delay entry delayTicks =>
    state.curTick + delayTicks < 2 ^ 64 ∧ ∀ other ∈ (state.queue.readyList.dropWhile (· ≠ entry)).tail,
        state.curTick + delayTicks ≤ state.queue.readyTime other
  | _ => True

theorem step_sound (held : state.queue.Sound) (allowed : state.Allowed op) (done : state.step op = .ok final) :
    final.queue.Sound ∧ (state.Orderly op → state.queue.Sorted → final.queue.Sorted) := by
  cases op with
  | advance tick =>
    cases done
    exact ⟨held, fun _ sorted => sorted⟩
  | allocate =>
    obtain ⟨queue, allocated, rfl⟩ := bind_ok_eq_ok.mp done
    exact And.imp_right (fun kept _ => kept) (held.allocate allocated)
  | delay entry delayTicks =>
    obtain ⟨queue, delayed, rfl⟩ := bind_ok_eq_ok.mp done
    refine ⟨?_, fun orderly sorted => sorted.delay held.once orderly.1 orderly.2 delayed⟩
    obtain ⟨_, _, rfl⟩ := delay_eq_ok delayed
    exact held.setEntry rfl
  | markInService =>
    obtain ⟨queue, marked, rfl⟩ := bind_ok_eq_ok.mp done
    exact And.imp_right (fun kept _ => kept) (held.markInService marked)
  | markPending =>
    obtain ⟨queue, marked, rfl⟩ := bind_ok_eq_ok.mp done
    exact And.imp_right (fun kept _ => kept) (held.markPending marked)
  | deallocate =>
    obtain ⟨queue, deallocated, rfl⟩ := bind_ok_eq_ok.mp done
    exact And.imp_right (fun kept _ => kept) (held.deallocate deallocated)
  | access =>
    obtain ⟨⟨handed, mshr⟩, stepped, rfl⟩ := bind_ok_eq_ok.mp done
    exact And.imp_right (fun kept _ => kept) (held.access allowed.2 stepped)

/-- These are the queues under all operations. -/
def queues (numEntries : Nat) : Machine (Clocked numEntries) (Op numEntries) Fault where
  guard := Allowed
  step := step

/-- These are the queues whose delays keep the order of the ready list. -/
def orderlyQueues (numEntries : Nat) : Machine (Clocked numEntries) (Op numEntries) Fault where
  guard := fun state op => state.Allowed op ∧ state.Orderly op
  step := step

/-- This state is the empty queue at a tick. -/
def start (tick : Nat) : Clocked numEntries where
  queue := .init
  curTick := tick

variable {tick : Nat} {history : List (Op numEntries)}

/-- A queue offers an entry when one is ready and reports the next time at which one is. -/
structure ReadyOrder (state : Clocked numEntries) : Prop where
  partition : (state.queue.freeList ++ state.queue.allocatedList).Perm (finRange numEntries)
  counted : state.queue.numInService =
    (state.queue.allocatedList.countP fun entry => (state.queue.entries entry).inService : Nat)
  once : state.queue.readyList.Nodup
  ready : ∀ entry, entry ∈ state.queue.readyList ↔
    entry ∈ state.queue.allocatedList ∧ (state.queue.entries entry).inService = false
  offered : state.queue.getNext state.curTick = none →
    ∀ entry, state.queue.Waiting entry → state.curTick < state.queue.readyTime entry
  earliest : ∀ entry, state.queue.Waiting entry → state.queue.nextReadyTime ≤ state.queue.readyTime entry
  attained : (∃ entry, state.queue.Waiting entry) →
    ∃ entry, state.queue.Waiting entry ∧ state.queue.readyTime entry = state.queue.nextReadyTime
  unbounded : (¬ ∃ entry, state.queue.Waiting entry) → state.queue.nextReadyTime = maxTick

theorem readyOrder_of_sorted (held : state.queue.Sound) (sorted : state.queue.Sorted) : state.ReadyOrder := by
  cases found : state.queue.readyList with
  | nil =>
    have none : ∀ entry, ¬ state.queue.Waiting entry := by simp [← held.ready, found]
    refine ⟨held.partition, held.counted, held.once, held.ready, fun _ entry waiting => absurd waiting (none entry),
      fun entry waiting => absurd waiting (none entry), fun ⟨entry, waiting⟩ => absurd waiting (none entry), fun _ => ?_⟩
    rw [nextReadyTime, found]
  | cons front rest =>
    have first : state.queue.Waiting front := (held.ready front).mp (by simp [found])
    have next : state.queue.nextReadyTime = state.queue.readyTime front := by rw [nextReadyTime, found]
    have earliest : ∀ entry, state.queue.Waiting entry → state.queue.readyTime front ≤ state.queue.readyTime entry := by
      rw [Sorted, found, pairwise_cons] at sorted
      simp only [← held.ready, found]
      exact forall_mem_cons.mpr ⟨le_rfl, sorted.1⟩
    refine ⟨held.partition, held.counted, held.once, held.ready, fun none entry waiting => ?_, next ▸ earliest,
      fun _ => ⟨front, first, next.symm⟩, fun none => absurd ⟨front, first⟩ none⟩
    simp only [getNext, found] at none
    split at none
    · rename_i later
      exact later.trans_le (earliest entry waiting)
    · cases none

/-- A queue whose delays keep the order of the ready list never holds back an entry that is ready. -/
theorem ready_order (run : (orderlyQueues numEntries).Run (start tick) history state) : state.ReadyOrder := by
  have held := run.invariant (fun state => state.queue.Sound ∧ state.queue.Sorted) ⟨Sound.init, List.Pairwise.nil⟩ ?_
  · exact readyOrder_of_sorted held.1 held.2
  · intro before op after held allowed stepped
    have kept := step_sound held.1 allowed.1 stepped
    exact ⟨kept.1, kept.2 allowed.2 held.2⟩

/-- The first of two entries is delayed until before the second one is ready. -/
theorem ready_order_delayed : ∃ state : Clocked 2, (orderlyQueues 2).Run (start 0)
      [.advance 100, .delay 0 100, .allocate 64 64 (.atZero 2 .readReq rfl 8 0) 200 2 true,
        .allocate 0 64 (.atZero 1 .readReq rfl 8 0) 0 1 true] state ∧
    state.queue.getNext state.curTick = some 0 ∧ state.ReadyOrder := by
  exact ⟨_, and_of_imp (.cons (.cons (.cons (.cons .nil ⟨trivial, trivial⟩ rfl) ⟨trivial, trivial⟩ rfl)
    ⟨trivial, by decide, by decide⟩ rfl) ⟨(by decide : (0 : Nat) ≤ 100), trivial⟩ rfl) fun run => ⟨rfl, ready_order run⟩⟩

/-- A delayed entry stays in front of an entry that is ready and holds it back. -/
theorem ready_order_held_back : ∃ state : Clocked 2, (queues 2).Run (start 0)
      [.advance 10, .delay 0 100, .allocate 64 64 (.atZero 2 .readReq rfl 8 0) 5 2 true,
        .allocate 0 64 (.atZero 1 .readReq rfl 8 0) 0 1 true] state ∧
    state.queue.Waiting 1 ∧ state.queue.readyTime 1 ≤ state.curTick ∧ state.queue.getNext state.curTick = none ∧
    state.queue.readyTime 1 < state.queue.nextReadyTime :=
  ⟨_, .cons (.cons (.cons (.cons .nil trivial rfl) trivial rfl) trivial rfl) (by decide : (0 : Nat) ≤ 10) rfl,
    ⟨by decide, rfl⟩, by decide, rfl, by decide⟩

/-- Also with delays that break the order, the lists agree with the entries, and only a waiting entry is offered. -/
theorem queue_accounts (run : (queues numEntries).Run (start tick) history state) : state.queue.Sound ∧
    ∀ entry, state.queue.getNext state.curTick = some entry → state.queue.Waiting entry := by
  have held : state.queue.Sound :=
    run.invariant (·.queue.Sound) Sound.init fun _ _ _ held allowed stepped => (step_sound held allowed stepped).1
  refine ⟨held, fun entry offered => (held.ready entry).mp ?_⟩
  unfold getNext at offered
  split at offered
  · cases offered
  · simp_all [Option.ite_none_left_eq_some]

/-- A delayed entry is offered before one that was ready earlier. -/
theorem queue_accounts_delayed : ∃ state : Clocked 2, (queues 2).Run (start 0)
      [.advance 100, .delay 0 100, .allocate 64 64 (.atZero 2 .readReq rfl 8 0) 5 2 true,
        .allocate 0 64 (.atZero 1 .readReq rfl 8 0) 0 1 true] state ∧
    state.queue.readyTime 1 < state.queue.readyTime 0 ∧ state.queue.Sound ∧ state.queue.Waiting 0 :=
  ⟨_, and_of_imp (.cons (.cons (.cons (.cons .nil trivial rfl) trivial rfl) trivial rfl) (by decide : (0 : Nat) ≤ 100) rfl)
    fun run => ⟨by decide, (queue_accounts run).1, (queue_accounts run).2 0 rfl⟩⟩

end Clocked
end MSHRQueue
end Gem5
