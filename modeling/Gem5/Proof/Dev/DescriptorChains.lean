import Gem5.Construction.Dev.VirtQueue

namespace Gem5.Virtio
open ToMathlib

/-- The guest table has the next descriptor of a chain. -/
def GuestMemory.next (memory : GuestMemory) (index : Nat) : Option Nat :=
  if (memory.desc index).hasNext then some (memory.desc index).next.toNat else none

/-- This descriptor is a number of steps after the head. -/
def GuestMemory.follow (memory : GuestMemory) (head : Nat) : Nat → Option Nat
  | 0 => some head
  | count + 1 => (memory.follow head count).bind memory.next

/-- The chain of the head has a descriptor twice. -/
def GuestMemory.Revisits (memory : GuestMemory) (head : Nat) : Prop :=
  ∃ i j, i ≠ j ∧ memory.follow head i = memory.follow head j ∧ memory.follow head i ≠ none

/-- The head of a chain is in the table, and a chain that has a descriptor twice has its head twice. -/
structure Headed (queue : VirtQueue) (memory : GuestMemory) (head : Nat) : Prop where
  inside : head < queue.size
  again : memory.Revisits head → ∃ count, 0 < count ∧ memory.follow head count = some head

variable {queue : VirtQueue} {memory : GuestMemory} {head i j : Nat}

theorem follow_none (ended : memory.follow head i = none) (later : i ≤ j) : memory.follow head j = none := by
  induction later with
  | refl => exact ended
  | step _ ih => exact congrArg (Option.bind · memory.next) ih

theorem Headed.not_revisits (headed : Headed queue memory head) (ended : memory.follow head i = none)
    (away : ∀ j, 0 < j → j < i → memory.follow head j ≠ some head) : ¬ memory.Revisits head := by
  intro twice
  obtain ⟨count, positive, back⟩ := headed.again twice
  by_cases early : count < i
  · exact away count positive early back
  · cases back.symm.trans (follow_none ended (not_lt.mp early))

/-- One pass of the loop copies a descriptor and reads its link. -/
theorem update_next {index : Nat} (placed : queue.address ≠ 0) (inside : index < queue.size)
    (linked : (memory.desc index).next.toNat < queue.size) :
    queue.update memory index = .ok (queue.copy memory index) ∧
      (queue.copy memory index).next index = .ok (memory.next index) := by
  refine ⟨by rw [VirtQueue.update, if_neg placed, assert_of inside, ok_bind], ?_⟩
  rw [VirtQueue.next, VirtQueue.copy, GuestMemory.next]
  simp only [Function.update_self]
  split
  · rw [VirtQueue.getDescriptor, if_pos linked, ok_bind]
  · rfl

section
variable (below : ∀ index, (memory.desc index).next.toNat < queue.size) (inside : head < queue.size)
include below inside

theorem follow_lt {index : Nat} (found : memory.follow head i = some index) : index < queue.size := by
  cases i with
  | zero =>
    cases found
    exact inside
  | succ i =>
    obtain ⟨before, _, link⟩ := Option.bind_eq_some_iff.mp found
    unfold GuestMemory.next at link
    split at link
    · cases link
      exact below before
    · cases link

/-- The chain ends or is at its head again. -/
theorem exists_stop (again : memory.Revisits head → ∃ count, 0 < count ∧ memory.follow head count = some head) :
    ∃ stop, 0 < stop ∧ (memory.follow head stop = none ∨ memory.follow head stop = some head) := by
  by_cases twice : memory.Revisits head
  · obtain ⟨stop, later, back⟩ := again twice
    exact ⟨stop, later, .inr back⟩
  · by_contra! alive
    have some : ∀ i, ∃ index, memory.follow head i = some index := by
      intro i
      cases i with
      | zero => exact ⟨head, rfl⟩
      | succ i => exact Option.ne_none_iff_exists'.mp (alive (i + 1) (Nat.succ_pos i)).1
    choose place found using some
    obtain ⟨i, j, different, same⟩ := Finite.exists_ne_map_eq_of_infinite fun i =>
      (⟨place i, follow_lt below inside (found i)⟩ : Fin queue.size)
    exact twice ⟨i, j, different, by rw [found, found, Fin.mk.inj same], by simp [found]⟩

/-- The loop needs more passes, or it has copied the descriptors up to the end of the chain or to its head. -/
theorem updateLoop_spec {fuel count index : Nat} {state : VirtQueue} (found : memory.follow head count = some index)
    (placed : state.address ≠ 0) (sized : state.size = queue.size) :
    (VirtQueue.updateLoop memory head fuel state index = .error .endlessLoop ∧
      ∀ i, count < i → i ≤ count + fuel → memory.follow head i ≠ none ∧ memory.follow head i ≠ some head) ∨
    ∃ (stop : Nat) (chain : List Nat), count < stop ∧
      (memory.follow head stop = none ∨ memory.follow head stop = some head) ∧
      (∀ i, count < i → i < stop → memory.follow head i ≠ some head) ∧
      VirtQueue.updateLoop memory head fuel state index =
        .ok (chain.foldl (.copy memory) state, memory.follow head stop) ∧
      ∀ index, index ∈ chain ↔ ∃ i, count ≤ i ∧ i < stop ∧ memory.follow head i = some index := by
  induction fuel generalizing count index state with
  | zero => exact .inl ⟨rfl, fun i _ _ => by omega⟩
  | succ fuel ih =>
    obtain ⟨updated, linked⟩ := update_next placed (sized ▸ follow_lt below inside found) (sized ▸ below index)
    have link : memory.follow head (count + 1) = memory.next index := congrArg (Option.bind · memory.next) found
    rw [VirtQueue.updateLoop, updated, ok_bind, linked, ok_bind, ← link]
    by_cases stops : memory.follow head (count + 1) = none ∨ memory.follow head (count + 1) = some head
    · refine .inr ⟨count + 1, [index], Nat.lt_succ_self count, stops, fun i _ _ => by omega, ?_, fun other => by grind⟩
      rcases stops with ended | back
      · rw [ended]
        rfl
      · rw [back]
        exact if_pos rfl
    · rw [not_or] at stops
      obtain ⟨following, next⟩ := Option.ne_none_iff_exists'.mp stops.1
      rw [next]
      dsimp only
      rw [if_neg fun back : following = head => stops.2 (back ▸ next)]
      rcases @ih (count + 1) following (state.copy memory index) next placed sized with
        ⟨endless, alive⟩ | ⟨stop, chain, later, stopped, away, done, member⟩
      · refine .inl ⟨endless, fun i after before => ?_⟩
        by_cases first : i = count + 1
        · exact first ▸ stops
        · exact alive i (by omega) (by omega)
      · refine .inr ⟨stop, index :: chain, by omega, stopped, fun i after before => ?_, done, fun other => by grind⟩
        by_cases first : i = count + 1
        · exact first ▸ stops.2
        · exact away i (by omega) before

end

/-- With enough passes a call returns nothing if nothing is pending, refuses a chain that has a descriptor twice and
otherwise returns its head with the chain updated. -/
def Consumes (queue : VirtQueue) (memory : GuestMemory) : Prop :=
  ∃ enough, ∀ fuel, enough ≤ fuel →
    (queue.lastAvail = memory.availIndex → queue.consumeDescriptor memory fuel = .ok (queue, none)) ∧
    (queue.lastAvail ≠ memory.availIndex →
      (memory.Revisits (queue.pendingHead memory) →
        queue.consumeDescriptor memory fuel = .error (.panic "Loop in descriptor chain!\n")) ∧
      (¬ memory.Revisits (queue.pendingHead memory) → ∃ chain : List Nat,
        queue.consumeDescriptor memory fuel = .ok (chain.foldl (.copy memory)
          { queue with lastAvail := queue.lastAvail + 1 }, some (queue.pendingHead memory)) ∧
        ∀ index, index ∈ chain ↔ ∃ i, memory.follow (queue.pendingHead memory) i = some index))

section
variable (below : ∀ index, (memory.desc index).next.toNat < queue.size) (placed : queue.address ≠ 0)
  (ringed : queue.availBase ≠ 0)
include below placed ringed

theorem Consumes.headed (consumes : Consumes queue memory) (pending : queue.lastAvail ≠ memory.availIndex) :
    Headed queue memory (queue.pendingHead memory) := by
  obtain ⟨enough, ends⟩ := consumes
  obtain ⟨looped, taken⟩ := (ends enough (Nat.le_refl enough)).2 pending
  simp only [VirtQueue.consumeDescriptor, assert_of ringed, ok_bind, if_neg pending,
    if_neg (Nat.ne_zero_of_lt (below 0)), VirtQueue.getDescriptor] at looped taken
  generalize queue.pendingHead memory = head at looped taken
  by_cases inside : head < queue.size
  · refine ⟨inside, fun twice => ?_⟩
    have refused := looped twice
    rw [if_pos inside, ok_bind, VirtQueue.updateChain] at refused
    rcases @updateLoop_spec queue memory head below inside enough 0 head
      { queue with lastAvail := queue.lastAvail + 1 } rfl placed rfl with
      ⟨endless, _⟩ | ⟨stop, chain, later, ended | back, _, done, _⟩
    · rw [endless] at refused
      cases refused
    · rw [done, ended] at refused
      cases refused
    · exact ⟨stop, later, back⟩
  · rw [if_neg inside] at looped taken
    by_cases twice : memory.Revisits head
    · cases looped twice
    · obtain ⟨_, done, _⟩ := taken twice
      cases done

theorem Headed.consumes (headed : queue.lastAvail ≠ memory.availIndex → Headed queue memory (queue.pendingHead memory)) :
    Consumes queue memory := by
  unfold Consumes VirtQueue.consumeDescriptor
  rw [assert_of ringed]
  simp only [ok_bind]
  by_cases idle : queue.lastAvail = memory.availIndex
  · exact ⟨0, fun fuel _ => ⟨fun _ => if_pos idle, fun pending => absurd idle pending⟩⟩
  have here := headed idle
  generalize queue.pendingHead memory = head at here
  obtain ⟨enough, later, stops⟩ := exists_stop below here.inside here.again
  refine ⟨enough, fun fuel more => ⟨fun same => absurd same idle, fun _ => ?_⟩⟩
  rw [if_neg idle, if_neg (Nat.ne_zero_of_lt (below 0)), VirtQueue.getDescriptor, if_pos here.inside, ok_bind,
    VirtQueue.updateChain]
  rcases @updateLoop_spec queue memory head below here.inside fuel 0 head
    { queue with lastAvail := queue.lastAvail + 1 } rfl placed rfl with
    ⟨_, alive⟩ | ⟨stop, chain, after, ended | back, away, done, member⟩
  · have moves := alive enough later (by omega)
    exact absurd stops (not_or.mpr moves)
  · refine ⟨fun twice => absurd twice (here.not_revisits ended away), fun _ => ⟨chain, ?_, fun index => ?_⟩⟩
    · rw [done, ended, ok_bind]
      rfl
    · rw [member]
      refine ⟨fun ⟨i, _, _, found⟩ => ⟨i, found⟩, fun ⟨i, found⟩ => ⟨i, Nat.zero_le i, ?_, found⟩⟩
      by_contra! past
      cases found.symm.trans (follow_none ended past)
  · refine ⟨fun _ => ?_, fun once => absurd ⟨0, stop, after.ne, back.symm, Option.some_ne_none head⟩ once⟩
    rw [done, back, ok_bind]
    simp

/-- The pending chain is consumed or refused exactly if its head is in the table and a cycle of it has the head. -/
theorem consumeDescriptor_iff_headed : Consumes queue memory ↔
    (queue.lastAvail ≠ memory.availIndex → Headed queue memory (queue.pendingHead memory)) :=
  ⟨Consumes.headed below placed ringed, Headed.consumes below placed ringed⟩

end

/-- This queue has two descriptors. -/
def twoDescriptors : VirtQueue := ⟨2, 0x1000, 0x1020, 0, fun _ => ⟨0, 0⟩⟩

/-- Each descriptor of this table has the same successor, and the first one is pending. -/
def allTo (target : BitVec 16) : GuestMemory := ⟨fun _ => ⟨1, target⟩, 1, fun _ => 0⟩

theorem consumeDescriptor_iff_headed_self : Consumes twoDescriptors (allTo 0) := by
  apply (@consumeDescriptor_iff_headed twoDescriptors (allTo 0) (fun _ => Nat.zero_lt_two) (by decide) (by decide)).mpr
  exact fun _ => ⟨by decide, fun _ => ⟨1, by decide, rfl⟩⟩

/-- A cycle behind the head is never left. -/
theorem cycle_behind_head_endless : (allTo 1).Revisits 0 ∧
    ∀ fuel, twoDescriptors.consumeDescriptor (allTo 1) fuel = .error .endlessLoop := by
  have second : ∀ count, (allTo 1).follow 0 (count + 1) = some 1 := by
    intro count
    induction count with
    | zero => rfl
    | succ count ih => exact congrArg (Option.bind · (allTo 1).next) ih
  refine ⟨⟨1, 2, by decide, rfl, nofun⟩, fun fuel => ?_⟩
  change (VirtQueue.updateLoop (allTo 1) 0 fuel { twoDescriptors with lastAvail := 1 } 0 >>= _) >>= _ = _
  rcases @updateLoop_spec twoDescriptors (allTo 1) 0 (fun _ => Nat.one_lt_two) Nat.zero_lt_two fuel 0 0
    { twoDescriptors with lastAvail := 1 } rfl (by decide) rfl with ⟨endless, _⟩ | ⟨stop, _, later, met, _⟩
  · rw [endless, error_bind, error_bind]
  · obtain ⟨count, rfl⟩ := Nat.exists_eq_succ_of_ne_zero later.ne'
    rw [second] at met
    cases met <;> contradiction

end Gem5.Virtio
