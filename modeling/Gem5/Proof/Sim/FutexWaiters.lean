import Gem5.Construction.Sim.FutexMap

namespace Gem5.Futex.FutexMap
open ToMathlib Function List
variable {ThreadContext : Type} {map next : FutexMap ThreadContext} {lists : Lists ThreadContext}
  {key key1 key2 : FutexKey} {count count2 : Int}

/-- The list of a futex, which is empty if none is stored. -/
def list (map : FutexMap ThreadContext) (key : FutexKey) : WaiterList ThreadContext := (map.lists key).getD []

/-- The list of the threads that wait for a futex. -/
def waiters (map : FutexMap ThreadContext) (key : FutexKey) : List ThreadContext := (map.list key).map WaiterState.tc

/-- A requeue wakes the first waiters of a futex, moves the next ones to the end of the list of the second futex, keeps
the others and returns the number of those that it wakes or moves. -/
structure Requeued (map next : FutexMap ThreadContext) (key1 key2 : FutexKey) (count count2 : Int) (result : Nat) :
    Prop where
  woken : next.activated = map.activated ++ ((map.list key1).take count.toNat).map WaiterState.tc
  lists : let left := update map.list key1 (((map.list key1).drop count.toNat).drop count2.toNat)
    next.list = update left key2 (left key2 ++ ((map.list key1).drop count.toNat).take count2.toNat)
  result : result = min count.toNat (map.list key1).length + min count2.toNat ((map.list key1).length - count.toNat)

/-- A requeue finds no list to take from, a list to add to or a thread to move. -/
def Ready (map : FutexMap ThreadContext) (key1 key2 : FutexKey) (count count2 : Int) : Prop :=
  map.lists key1 = none ∨ map.lists key2 ≠ none ∨ 0 < count2 ∧ count.toNat < (map.list key1).length

/-- A requeue is ready and wakes no thread. -/
def Quiet (map : FutexMap ThreadContext) : Op ThreadContext → Prop
  | .requeue addr1 tgid count count2 addr2 =>
    (map.lists ⟨addr1, tgid⟩ = none ∨ count ≤ 0) ∧ map.Ready ⟨addr1, tgid⟩ ⟨addr2, tgid⟩ count count2
  | _ => True

theorem popLoop_eq (count : Int) (popped : Nat) (waiterList : WaiterList ThreadContext) :
    popLoop count popped waiterList =
      (waiterList.take (count - popped).toNat, waiterList.drop (count - popped).toNat) := by
  induction waiterList generalizing popped with
  | nil => simp [popLoop]
  | cons waiter rest ih =>
    rw [popLoop]
    split
    · have more : (count - popped).toNat = (count - (popped + 1 : Nat)).toNat + 1 := by omega
      rw [ih, more]
      rfl
    · have none : (count - popped).toNat = 0 := by omega
      rw [none]
      rfl

theorem popLoop_zero (count : Int) (waiterList : WaiterList ThreadContext) :
    popLoop count 0 waiterList = (waiterList.take count.toNat, waiterList.drop count.toNat) := by
  simpa using popLoop_eq count 0 waiterList

theorem getD_update (lists : Lists ThreadContext) (key : FutexKey) (stored : Option (WaiterList ThreadContext)) :
    (fun k => (update lists key stored k).getD []) = update (fun k => (lists k).getD []) key (stored.getD []) :=
  comp_update (Option.getD · []) lists key stored

theorem addWaiters_eq {tmpList : WaiterList ThreadContext} (found : lists key ≠ none ∨ tmpList ≠ []) :
    addWaiters lists key tmpList = .ok (update lists key (some ((lists key).getD [] ++ tmpList))) := by
  unfold addWaiters
  cases stored : lists key with
  | none =>
    have some := found.resolve_left fun absent => absent stored
    exact if_pos (length_pos_iff.mpr some)
  | some waiterList => rfl

variable [DecidableEq ThreadContext]

theorem getD_eraseEmpty : (fun k => (eraseEmpty lists key k).getD []) = fun k => (lists k).getD [] := by
  by_cases empty : lists key = some []
  · rw [eraseEmpty, if_pos empty, getD_update]
    exact update_eq_self_iff.mpr (by rw [empty]; rfl)
  · rw [eraseEmpty, if_neg empty]

theorem eraseEmpty_ne (others : ∀ k, k ≠ key → lists k ≠ some []) (k : FutexKey) :
    eraseEmpty lists key k ≠ some [] := by
  unfold eraseEmpty
  by_cases same : k = key
  · subst same
    by_cases empty : lists k = some []
    · simp [empty]
    · rwa [if_neg empty]
  · rw [ite_apply, update_of_ne same, ite_self]
    exact others k same

/-- A requeue that is ready does what it is for. -/
theorem requeue_spec (ready : map.Ready key1 key2 count count2) :
    ∃ result next, map.requeueKeys key1 key2 count count2 = .ok (result, next) ∧
      map.Requeued next key1 key2 count count2 result ∧ next.waitingTcs = map.waitingTcs ∧
      ((∀ key, map.lists key ≠ some []) → ∀ key, next.lists key ≠ some []) := by
  unfold requeueKeys
  cases stored : map.lists key1 with
  | none =>
    have first : map.list key1 = [] := by rw [list, stored, Option.getD_none]
    have same : update map.list key1 [] = map.list := update_eq_self_iff.mpr first.symm
    exact ⟨0, map, rfl, ⟨by simp [first], by simp [first, same], by simp [first]⟩, rfl, id⟩
  | some waiterList1 =>
    have first : map.list key1 = waiterList1 := by rw [list, stored, Option.getD_some]
    have target : update map.lists key1 (some ((waiterList1.drop count.toNat).drop count2.toNat)) key2 ≠ none ∨
        (waiterList1.drop count.toNat).take count2.toNat ≠ [] := by
      by_cases same : key2 = key1
      · simp [same]
      rw [update_of_ne same]
      rw [Ready, stored, first] at ready
      rcases ready with absent | present | ⟨positive, more⟩
      · cases absent
      · exact .inl present
      · refine .inr fun none => ?_
        have length := congrArg length none
        rw [length_take, length_drop, length_nil] at length
        omega
    simp only [popLoop_zero, addWaiters_eq target, ok_bind]
    refine ⟨_, _, rfl, ⟨by rw [first], ?_, by simp [first]⟩, rfl, fun others key => ?_⟩
    · have popped := getD_update map.lists key1 (some ((waiterList1.drop count.toNat).drop count2.toNat))
      change (fun k => (eraseEmpty _ _ k).getD []) = _
      rw [getD_eraseEmpty, getD_update, popped, Option.getD_some, congrFun popped key2, first]
      rfl
    · apply eraseEmpty_ne
      intro k different
      by_cases second : k = key2
      · subst second
        rw [update_of_ne different] at target
        rw [update_self, update_of_ne different]
        rcases target with present | some
        · obtain ⟨waiterList2, there⟩ := Option.ne_none_iff_exists'.mp present
          have nonempty : waiterList2 ≠ [] := fun none => others k (none ▸ there)
          simp [there, nonempty]
        · simp [some]
      · rw [update_of_ne second, update_of_ne different]
        exact others k

/-- This machine makes the calls in which every requeue is ready and wakes no thread. -/
def quietCalls (freed : WaiterState ThreadContext → ThreadContext) : Machine (FutexMap ThreadContext) (Op ThreadContext) Fault where
  guard := fun map op => map.Allowed op ∧ map.Quiet op
  step := step freed

/-- Each thread has at most one place, and it is in the set and in the list of its place exactly if it has one. -/
structure Placed (map : FutexMap ThreadContext) (place : ThreadContext → Option FutexKey) : Prop where
  counts : ∀ key tc, (map.waiters key).count tc = if place tc = some key then 1 else 0
  waiting : ∀ tc, tc ∈ map.waitingTcs ↔ place tc ≠ none
  stored : ∀ key, map.lists key ≠ some []

theorem Placed.initial : Placed ({} : FutexMap ThreadContext) fun _ => none :=
  ⟨fun _ _ => by simp [waiters, list], fun _ => by simp, fun _ => by simp⟩

section Calls
variable {place : ThreadContext → Option FutexKey} (placed : map.Placed place)
include placed

/-- Threads move from one place to another, where a thread that is not waiting has none. -/
theorem Placed.move (source target : Option FutexKey) (moved : List ThreadContext)
    (start : ∀ tc ∈ moved, place tc = source ∧ moved.count tc = 1)
    (counts : ∀ k tc, (next.waiters k).count tc + (if source = some k then moved.count tc else 0) =
      (map.waiters k).count tc + if target = some k then moved.count tc else 0)
    (waiting : ∀ tc, tc ∈ next.waitingTcs ↔ if tc ∈ moved then target ≠ none else tc ∈ map.waitingTcs)
    (stored : ∀ k, next.lists k ≠ some []) : next.Placed fun tc => if tc ∈ moved then target else place tc := by
  refine ⟨fun k tc => ?_, fun tc => ?_, stored⟩
  · have change := counts k tc
    rw [placed.counts] at change
    by_cases member : tc ∈ moved
    · rw [(start tc member).1, (start tc member).2] at change
      rw [if_pos member]
      omega
    · rw [count_eq_zero.mpr member, ite_self, ite_self] at change
      rw [if_neg member]
      omega
  · rw [waiting, placed.waiting]
    split <;> rfl

/-- The threads that are taken from a list have their place there. -/
theorem Placed.taken {moved left : List ThreadContext}
    (parts : ∀ tc, (map.waiters key).count tc = moved.count tc + left.count tc) :
    ∀ tc ∈ moved, place tc = some key ∧ moved.count tc = 1 := by
  intro tc member
  have positive := count_pos_iff.mpr member
  have total := placed.counts key tc
  rw [parts] at total
  split at total
  · exact ⟨by assumption, by omega⟩
  · omega

/-- A thread that is not waiting has no place and gets one. -/
theorem Placed.suspend_bitset {addr : Addr} {tgid : BitVec 64} {tc : ThreadContext} {bitmask : BitVec 32}
    (idle : map.is_waiting tc = false) : ∃ place, (map.suspend_bitset addr tgid tc bitmask).Placed place := by
  have nowhere : place tc = none := by
    by_contra somewhere
    exact absurd ((placed.waiting tc).mpr somewhere) (of_decide_eq_false idle)
  have appended : (map.suspend_bitset addr tgid tc bitmask).list =
      update map.list ⟨addr, tgid⟩ (map.list ⟨addr, tgid⟩ ++ [⟨tc, bitmask⟩]) := by
    refine (getD_update ..).trans ?_
    unfold list
    cases map.lists ⟨addr, tgid⟩ <;> rfl
  refine ⟨_, placed.move none (some ⟨addr, tgid⟩) [tc] ?_ (fun k other => ?_) (fun other => ?_) fun k => ?_⟩
  · simp [nowhere]
  · rw [waiters, appended]
    by_cases here : k = ⟨addr, tgid⟩
    · simp [here, waiters]
    · simp [here, Ne.symm here, waiters]
  · change other ∈ insert tc map.waitingTcs ↔ _
    by_cases same : other = tc <;> simp [same]
  · change update map.lists _ _ k ≠ _
    by_cases here : k = ⟨addr, tgid⟩
    · rw [here, update_self]
      split <;> simp
    · rw [update_of_ne here]
      exact placed.stored k

theorem Placed.wake {woken left : WaiterList ThreadContext} (parts : ∀ tc, (map.waiters key).count tc =
    (woken.map WaiterState.tc).count tc + (left.map WaiterState.tc).count tc) :
    ∃ place, (map.wake key woken left (woken.map WaiterState.tc)).Placed place := by
  have lists : (map.wake key woken left (woken.map WaiterState.tc)).list = update map.list key left := by
    change (fun k => (eraseEmpty _ _ k).getD []) = _
    rw [getD_eraseEmpty, getD_update]
    rfl
  refine ⟨_, placed.move (some key) none _ (placed.taken parts) (fun k tc => ?_) (fun tc => ?_) fun k => ?_⟩
  · rw [waiters, lists]
    by_cases here : k = key
    · subst here
      simp [parts, Nat.add_comm]
    · simp [here, Ne.symm here, waiters]
  · change tc ∈ map.waitingTcs \ _ ↔ _
    rw [Finset.mem_sdiff, mem_toFinset]
    split <;> simp_all
  · apply eraseEmpty_ne
    intro k different
    rw [update_of_ne different]
    exact placed.stored k

theorem Placed.wakeup (addr : Addr) (tgid : BitVec 64) (count : Int) :
    ∃ place, (map.wakeup WaiterState.tc addr tgid count).2.Placed place := by
  unfold FutexMap.wakeup
  split
  · exact ⟨place, placed⟩
  · rename_i waiterList stored
    rw [popLoop_zero]
    apply placed.wake
    intro tc
    rw [waiters, list, stored, Option.getD_some, ← count_append, ← map_append, take_append_drop]

theorem Placed.wakeup_bitset (addr : Addr) (tgid : BitVec 64) (bitmask : BitVec 32) :
    ∃ place, (map.wakeup_bitset addr tgid bitmask).2.Placed place := by
  unfold FutexMap.wakeup_bitset
  split
  · exact ⟨place, placed⟩
  · rename_i waiterList stored
    apply placed.wake
    intro tc
    rw [waiters, list, stored, Option.getD_some, ← count_append, ← map_append]
    exact ((filter_append_perm _ waiterList).map _).symm.count_eq tc

/-- A requeue that wakes no thread moves threads to another place. -/
theorem Placed.requeue (quiet : map.lists key1 = none ∨ count ≤ 0) (ready : map.Ready key1 key2 count count2) :
    ∃ result next place, map.requeueKeys key1 key2 count count2 = .ok (result, next) ∧ next.Placed place := by
  have nobody : (map.list key1).drop count.toNat = map.list key1 := by
    rcases quiet with absent | low
    · simp [list, absent]
    · rw [Int.toNat_of_nonpos low, drop_zero]
  obtain ⟨result, next, done, requeued, waiting, stored⟩ := requeue_spec ready
  have lists := requeued.lists
  rw [nobody] at lists
  have parts : ∀ tc, (map.waiters key1).count tc = (((map.list key1).take count2.toNat).map WaiterState.tc).count tc +
        (((map.list key1).drop count2.toNat).map WaiterState.tc).count tc := by
    intro tc
    rw [← count_append, ← map_append, take_append_drop]
    rfl
  have start := placed.taken parts
  refine ⟨result, next, _, done, placed.move (some key1) (some key2) _ start (fun k tc => ?_) (fun tc => ?_)
    (stored placed.stored)⟩
  · have total := parts tc
    rw [waiters, lists]
    by_cases second : k = key2
    · subst second
      by_cases same : k = key1
      · subst same
        simp [total, Nat.add_comm]
      · simp [same, Ne.symm same, waiters]
    · by_cases first : k = key1
      · subst first
        simp [second, Ne.symm second, total, Nat.add_comm]
      · simp [first, Ne.symm first, second, Ne.symm second, waiters]
  · rw [waiting, placed.waiting]
    split
    · rename_i member
      simp [(start tc member).1]
    · rfl

end Calls

/-- Each waiting thread is in one list once, no other thread is in a list, and no list is stored empty. -/
structure Tracked (map : FutexMap ThreadContext) : Prop where
  waiting : ∀ tc, map.is_waiting tc = true ↔ ∃! key, tc ∈ map.waiters key
  once : ∀ tc key other, tc ∈ map.waiters key → tc ∈ map.waiters other → key = other
  nodup : ∀ key, (map.waiters key).Nodup
  stored : ∀ key, map.lists key ≠ some []

theorem Placed.tracked {place : ThreadContext → Option FutexKey} (placed : map.Placed place) : map.Tracked := by
  have member : ∀ tc key, tc ∈ map.waiters key ↔ place tc = some key := by
    intro tc key
    rw [← count_pos_iff, placed.counts]
    split <;> simp_all
  refine ⟨fun tc => ?_, fun tc key other here there => ?_, fun key => ?_, placed.stored⟩
  · rw [is_waiting, decide_eq_true_iff, placed.waiting, Option.ne_none_iff_exists']
    simp only [member]
    constructor
    · rintro ⟨key, placed⟩
      exact ⟨key, placed, fun other there => Option.some.inj (there.symm.trans placed)⟩
    · rintro ⟨key, placed, -⟩
      exact ⟨key, placed⟩
  · exact Option.some.inj (((member tc key).mp here).symm.trans ((member tc other).mp there))
  · rw [nodup_iff_count_le_one]
    intro tc
    rw [placed.counts]
    split <;> simp

/-- If a freed node still holds its thread, every call that is allowed and quiet succeeds and keeps the threads placed. -/
theorem Placed.step {place : ThreadContext → Option FutexKey} (placed : map.Placed place) {op : Op ThreadContext}
    (allowed : (quietCalls WaiterState.tc).guard map op) : ∃ next place, map.step WaiterState.tc op = .ok next ∧ next.Placed place := by
  cases op with
  | suspend addr tgid tc | suspend_bitset addr tgid tc bitmask =>
    exact ⟨_, placed.suspend_bitset allowed.1 |>.imp fun _ kept => ⟨rfl, kept⟩⟩
  | wakeup addr tgid count => exact ⟨_, placed.wakeup addr tgid count |>.imp fun _ kept => ⟨rfl, kept⟩⟩
  | wakeup_bitset addr tgid bitmask =>
    exact ⟨_, placed.wakeup_bitset addr tgid bitmask |>.imp fun _ kept => ⟨rfl, kept⟩⟩
  | requeue addr1 tgid count count2 addr2 =>
    obtain ⟨result, next, place, done, kept⟩ := placed.requeue allowed.2.1 allowed.2.2
    exact ⟨next, place, by rw [FutexMap.step, FutexMap.requeue, done, ok_bind], kept⟩

end Gem5.Futex.FutexMap
