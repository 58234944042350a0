import Gem5.Construction.Base.Bitfield

namespace Gem5.Futex
open ToMathlib Function

structure FutexKey where
  addr : Addr
  tgid : BitVec 64
deriving DecidableEq, Repr

structure WaiterState (ThreadContext : Type) where
  tc : ThreadContext
  bitmask : BitVec 32
deriving DecidableEq, Repr

abbrev WaiterList (ThreadContext : Type) := List (WaiterState ThreadContext)

/-- The content of an unordered map from keys to lists. -/
abbrev Lists (ThreadContext : Type) := FutexKey → Option (WaiterList ThreadContext)

/-- The map with the set of the waiting threads and the history of the threads that were activated. -/
structure FutexMap (ThreadContext : Type) where
  lists : Lists ThreadContext := fun _ => none
  waitingTcs : Finset ThreadContext := ∅
  activated : List ThreadContext := []

variable {ThreadContext : Type}

def WaiterState.checkMask (waiter : WaiterState ThreadContext) (wakeup_bitmask : BitVec 32) : Bool :=
  waiter.bitmask &&& wakeup_bitmask ≠ 0

/-- This loop pops waiters from the front while fewer than `count` are popped, and returns them and the others. -/
def popLoop (count : Int) : Nat → WaiterList ThreadContext → WaiterList ThreadContext × WaiterList ThreadContext
  | _, [] => ([], [])
  | popped, waiter :: rest =>
    if popped < count then
      let (front, left) := popLoop count (popped + 1) rest
      (waiter :: front, left)
    else ([], waiter :: rest)

section Lists
variable [DecidableEq ThreadContext] (lists : Lists ThreadContext) (key : FutexKey)

/-- This function erases the list of a futex if it is empty. -/
def eraseEmpty : Lists ThreadContext := if lists key = some [] then update lists key none else lists

/-- The part of `requeue` that adds waiters to the end of a list. It dereferences the end of the map if there is no
list and nothing to add. -/
def addWaiters (tmpList : WaiterList ThreadContext) : Except Fault (Lists ThreadContext) :=
  match lists key with
  | none => if 0 < tmpList.length then .ok (update lists key (some tmpList)) else .error .nullDereference
  | some waiterList => .ok (update lists key (some (waiterList ++ tmpList)))

end Lists

namespace FutexMap
variable [DecidableEq ThreadContext] (freed : WaiterState ThreadContext → ThreadContext)
  (map : FutexMap ThreadContext) (addr : Addr) (tgid : BitVec 64)

/-- This function activates waiters, erases threads from the set and leaves the others in their list. -/
def wake (key : FutexKey) (woken left : WaiterList ThreadContext) (erased : List ThreadContext) :
    FutexMap ThreadContext where
  lists := eraseEmpty (update map.lists key (some left)) key
  waitingTcs := map.waitingTcs \ erased.toFinset
  activated := map.activated ++ woken.map WaiterState.tc

/-- This function activates the thread of a node and pops the node before it reads the thread again to erase it. The
parameter `freed` is what that read of the freed node gives. -/
def wakeup (count : Int) : Nat × FutexMap ThreadContext :=
  match map.lists ⟨addr, tgid⟩ with
  | none => (0, map)
  | some waiterList =>
    let (woken, left) := popLoop count 0 waiterList
    (woken.length, map.wake ⟨addr, tgid⟩ woken left (woken.map freed))

def suspend_bitset (tc : ThreadContext) (bitmask : BitVec 32) : FutexMap ThreadContext :=
  { map with
    lists := update map.lists ⟨addr, tgid⟩ (match map.lists ⟨addr, tgid⟩ with
      | none => some [⟨tc, bitmask⟩]
      | some waiterList => some (waiterList ++ [⟨tc, bitmask⟩]))
    waitingTcs := insert tc map.waitingTcs }

def suspend (tc : ThreadContext) : FutexMap ThreadContext := map.suspend_bitset addr tgid tc 0xffffffff

def wakeup_bitset (bitmask : BitVec 32) : Nat × FutexMap ThreadContext :=
  match map.lists ⟨addr, tgid⟩ with
  | none => (0, map)
  | some waiterList =>
    let woken := waiterList.filter (·.checkMask bitmask)
    (woken.length, map.wake ⟨addr, tgid⟩ woken (waiterList.filter (!·.checkMask bitmask)) (woken.map WaiterState.tc))

/-- This function is `requeue` with its two keys. The woken threads stay in the set. -/
def requeueKeys (key1 key2 : FutexKey) (count count2 : Int) : Except Fault (Nat × FutexMap ThreadContext) :=
  match map.lists key1 with
  | none => .ok (0, map)
  | some waiterList1 => do
    let (woken, rest) := popLoop count 0 waiterList1
    let (tmpList, left) := popLoop count2 0 rest
    let lists ← addWaiters (update map.lists key1 (some left)) key2 tmpList
    .ok (woken.length + tmpList.length,
      { map with lists := eraseEmpty lists key1, activated := map.activated ++ woken.map WaiterState.tc })

def requeue (addr1 : Addr) (tgid : BitVec 64) (count count2 : Int) (addr2 : Addr) :
    Except Fault (Nat × FutexMap ThreadContext) :=
  map.requeueKeys ⟨addr1, tgid⟩ ⟨addr2, tgid⟩ count count2

def is_waiting (tc : ThreadContext) : Bool := tc ∈ map.waitingTcs

/-- A call of the map. -/
inductive Op (ThreadContext : Type)
  | suspend (addr : Addr) (tgid : BitVec 64) (tc : ThreadContext)
  | suspend_bitset (addr : Addr) (tgid : BitVec 64) (tc : ThreadContext) (bitmask : BitVec 32)
  | wakeup (addr : Addr) (tgid : BitVec 64) (count : Int)
  | wakeup_bitset (addr : Addr) (tgid : BitVec 64) (bitmask : BitVec 32)
  | requeue (addr1 : Addr) (tgid : BitVec 64) (count count2 : Int) (addr2 : Addr)

def step : Op ThreadContext → Except Fault (FutexMap ThreadContext)
  | .suspend addr tgid tc => .ok (map.suspend addr tgid tc)
  | .suspend_bitset addr tgid tc bitmask => .ok (map.suspend_bitset addr tgid tc bitmask)
  | .wakeup addr tgid count => .ok (map.wakeup freed addr tgid count).2
  | .wakeup_bitset addr tgid bitmask => .ok (map.wakeup_bitset addr tgid bitmask).2
  | .requeue addr1 tgid count count2 addr2 => do
    let done ← map.requeue addr1 tgid count count2 addr2
    .ok done.2

/-- A thread suspends only when it is not waiting. -/
def Allowed : Op ThreadContext → Prop
  | .suspend _ _ tc | .suspend_bitset _ _ tc _ => map.is_waiting tc = false
  | _ => True

def calls : Machine (FutexMap ThreadContext) (Op ThreadContext) Fault where
  guard := Allowed
  step := step freed

end FutexMap

end Gem5.Futex
