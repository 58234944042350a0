import Gem5.Construction.Mem.PrefetchQueue

namespace Gem5.Prefetch
open List
variable {queue : List DeferredPacket} {pfi : PrefetchInfo} {priority : Int}

theorem sameAddr_iff {info : PrefetchInfo} : info.sameAddr pfi = true ↔ info = pfi := by
  cases info
  cases pfi
  simp [PrefetchInfo.sameAddr]

/-- The search ends behind the packet with the address or at the end of the queue. -/
theorem findAddr_eq (pfi : PrefetchInfo) (queue : List DeferredPacket) (start : Nat) :
    (findAddr pfi queue start = (false, start + queue.length) ∧ ∀ packet ∈ queue, packet.pfInfo ≠ pfi) ∨
      ∃ index packet, queue[index]? = some packet ∧ packet.pfInfo = pfi ∧
        findAddr pfi queue start = (true, start + index + 1) := by
  induction queue generalizing start with
  | nil => exact .inl ⟨rfl, nofun⟩
  | cons first rest ih =>
    rw [findAddr]
    by_cases same : first.pfInfo.sameAddr pfi = true
    · exact .inr ⟨0, first, rfl, sameAddr_iff.mp same, if_pos same⟩
    · rw [if_neg same]
      rcases ih (start + 1) with ⟨ends, others⟩ | ⟨index, packet, found, address, ends⟩
      · refine .inl ⟨?_, forall_mem_cons.mpr ⟨mt sameAddr_iff.mpr same, others⟩⟩
        rw [ends, length_cons, Nat.add_right_comm, Nat.add_assoc]
      · refine .inr ⟨index + 1, packet, found, address, ?_⟩
        rw [ends, Nat.add_right_comm start 1 index, Nat.add_assoc start index 1]

/-- The packet with the address gets the higher priority. -/
def raise (pfi : PrefetchInfo) (priority : Int) (packet : DeferredPacket) : DeferredPacket :=
  if packet.pfInfo = pfi then { packet with priority := max packet.priority priority } else packet

/-- The packet with the address gets the higher priority, and the queue is in order. -/
structure Filtered (queue : List DeferredPacket) (pfi : PrefetchInfo) (priority : Int)
    (result : Bool × List DeferredPacket) : Prop where
  found : result.1 = true ↔ ∃ packet ∈ queue, packet.pfInfo = pfi
  sorted : result.2.Pairwise fun first second => second.priority ≤ first.priority
  raised : result.2.Perm (queue.map (raise pfi priority))
  unchanged : result.1 = false → result.2 = queue

/-- Packets that move up stay in the queue. -/
theorem moveUp_perm (prev it : Nat) (queue : List DeferredPacket) : (moveUp prev it queue).Perm queue := by
  fun_induction moveUp prev it queue with
  | case1 | case4 => exact .refl _
  | case2 prev it queue other moved there here _ ih =>
    obtain ⟨inside, rfl⟩ := List.getElem?_eq_some_iff.mp here
    obtain ⟨before, rfl⟩ := List.getElem?_eq_some_iff.mp there
    exact ih.trans (set_set_perm inside before)
  | case3 _ _ _ _ _ _ _ _ ih => exact ih

/-- Two places of the queue have the same address only if they are the same. -/
theorem place_unique (distinct : (queue.map DeferredPacket.pfInfo).Nodup) {i j : Nat} {packet other : DeferredPacket}
    (here : queue[i]? = some packet) (there : queue[j]? = some other) (same : packet.pfInfo = other.pfInfo) : i = j := by
  obtain ⟨inside, _⟩ := List.getElem?_eq_some_iff.mp here
  apply (getElem?_inj (by simpa using inside) distinct).mp
  rw [getElem?_map, getElem?_map, here, there]
  exact congrArg some same

theorem findAddr_of_getElem? (distinct : (queue.map DeferredPacket.pfInfo).Nodup) {index : Nat}
    {packet : DeferredPacket} (here : queue[index]? = some packet) :
    findAddr packet.pfInfo queue 0 = (true, index + 1) := by
  rcases findAddr_eq packet.pfInfo queue 0 with ⟨_, others⟩ | ⟨place, first, found, same, ends⟩
  · exact absurd rfl (others packet (mem_of_getElem? here))
  · obtain rfl := place_unique distinct found here same
    rw [ends, Nat.zero_add]

theorem raise_pfInfo (pfi : PrefetchInfo) (priority : Int) (packet : DeferredPacket) :
    (raise pfi priority packet).pfInfo = packet.pfInfo := by
  unfold raise
  split <;> rfl

/-- A packet with the address of another one of the queue is that one after the call. -/
theorem eq_raise (distinct : (queue.map DeferredPacket.pfInfo).Nodup) {result : List DeferredPacket}
    (raised : result.Perm (queue.map (raise pfi priority))) {packet other : DeferredPacket} (member : packet ∈ result)
    (present : other ∈ queue) (same : packet.pfInfo = other.pfInfo) : packet = raise pfi priority other := by
  obtain ⟨origin, listed, rfl⟩ := mem_map.mp (raised.subset member)
  rw [raise_pfInfo] at same
  rw [inj_on_of_nodup_map distinct listed present same]

/-- Neither the packet with the address nor the one behind it has a lower priority. -/
def High (queue : List DeferredPacket) (pfi : PrefetchInfo) (priority : Int) : Prop :=
  ∀ index packet, queue[index]? = some packet → packet.pfInfo = pfi → priority ≤ packet.priority ∧
    ∀ behind, queue[index + 1]? = some behind → priority ≤ behind.priority

theorem Filtered.high (distinct : (queue.map DeferredPacket.pfInfo).Nodup)
    (filtered : Filtered queue pfi priority (alreadyInQueue queue pfi priority)) : High queue pfi priority := by
  rintro index packet here rfl
  have raised := filtered.raised
  rw [alreadyInQueue, findAddr_of_getElem? distinct here] at raised
  dsimp only at raised
  have unchanged (same : queue.Perm (queue.map (raise packet.pfInfo priority))) : priority ≤ packet.priority := by
    have member := mem_of_getElem? here
    have higher := congrArg DeferredPacket.priority (eq_raise distinct same member member rfl)
    rw [raise, if_pos rfl] at higher
    exact max_eq_left_iff.mp higher.symm
  split at raised
  · next none => exact ⟨unchanged raised, fun _ next => nomatch none.symm.trans next⟩
  · next behind next =>
    split at raised
    · next low =>
      have apart : behind.pfInfo ≠ packet.pfInfo := by
        intro same
        have equal := place_unique distinct next here same
        omega
      obtain ⟨inside, _⟩ := List.getElem?_eq_some_iff.mp next
      have settled := (moveUp_perm _ _ _).symm.trans raised
      have lifted := congrArg DeferredPacket.priority
        (eq_raise distinct settled (mem_set inside _) (mem_of_getElem? next) rfl)
      rw [raise, if_neg apart] at lifted
      exact absurd lifted low.ne'
    · next high =>
      refine ⟨unchanged raised, ?_⟩
      intro other there
      cases next.symm.trans there
      exact not_lt.mp high

theorem High.filtered (sorted : queue.Pairwise fun first second => second.priority ≤ first.priority)
    (high : High queue pfi priority) : Filtered queue pfi priority (alreadyInQueue queue pfi priority) := by
  have raised : queue.map (raise pfi priority) = queue := by
    refine (map_congr_left fun packet member => ?_).trans (map_id queue)
    unfold raise
    split
    · next same =>
      obtain ⟨index, found⟩ := mem_iff_getElem?.mp member
      rw [Int.max_eq_left (high index packet found same).1]
      rfl
    · rfl
  have result : ∃ found, alreadyInQueue queue pfi priority = (found, queue) ∧
      (found = true ↔ ∃ packet ∈ queue, packet.pfInfo = pfi) := by
    unfold alreadyInQueue
    rcases findAddr_eq pfi queue 0 with ⟨ends, others⟩ | ⟨index, packet, found, same, ends⟩
    · refine ⟨false, ?_, iff_of_false Bool.false_ne_true fun ⟨packet, member, same⟩ => others packet member same⟩
      rw [ends]
      simp
    · refine ⟨true, ?_, iff_of_true rfl ⟨packet, mem_of_getElem? found, same⟩⟩
      rw [ends, Nat.zero_add]
      dsimp only
      split
      · rfl
      · next behind next => rw [if_neg (Int.not_lt.mpr ((high index packet found same).2 behind next))]
  obtain ⟨found, same, iff⟩ := result
  rw [same]
  exact ⟨iff, sorted, .of_eq raised.symm, fun _ => rfl⟩

/-- A prefetch for a queue in order is filtered exactly if neither the packet with its address nor the one behind it has
a lower priority. -/
theorem alreadyInQueue_filters (sorted : queue.Pairwise fun first second => second.priority ≤ first.priority)
    (distinct : (queue.map DeferredPacket.pfInfo).Nodup) :
    Filtered queue pfi priority (alreadyInQueue queue pfi priority) ↔ High queue pfi priority :=
  ⟨Filtered.high distinct, High.filtered sorted⟩

def samplePacket (address : Addr) (priority : Int) : DeferredPacket := ⟨⟨address, false⟩, priority, 0⟩

/-- A prefetch with a lower priority than two packets is filtered. -/
theorem alreadyInQueue_filters_low :
    Filtered [samplePacket 0 3, samplePacket 64 2] ⟨0, false⟩ 1
      (alreadyInQueue [samplePacket 0 3, samplePacket 64 2] ⟨0, false⟩ 1) := by
  apply (alreadyInQueue_filters (by decide) (by decide)).mpr
  rintro (_ | _ | index) packet found same <;> cases found
  · exact ⟨by decide, fun behind next => by cases next; decide⟩
  · cases same

/-- A prefetch for the first packet raises the priority of the second one. -/
theorem alreadyInQueue_raises_other :
    alreadyInQueue [samplePacket 0 3, samplePacket 64 2] ⟨0, false⟩ 5 =
      (true, [samplePacket 64 5, samplePacket 0 3]) := by decide

end Gem5.Prefetch
