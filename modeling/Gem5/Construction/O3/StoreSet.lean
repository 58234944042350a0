import Gem5.Construction.Base.Fault

namespace Gem5.O3
open ToMathlib Function

/-- The store list keeps each inserted store with its set and has the youngest store first. -/
structure StoreSet where
  clearPeriod : Nat
  ssitSize : Nat
  lfstSize : Nat
  ssit : Nat → Nat
  validSSIT : Nat → Bool
  lfst : Nat → Nat
  validLFST : Nat → Bool
  storeList : List (Nat × Nat)
  memOpsPred : Nat

namespace StoreSet

/-- This function is `StoreSet::init`, which leaves the numbers of invalid table entries open. -/
def init (clearPeriod ssitSize lfstSize : Nat) (ssit : Nat → Nat) : StoreSet where
  clearPeriod
  ssitSize
  lfstSize
  ssit
  validSSIT := fun _ => false
  lfst := fun _ => 0
  validLFST := fun _ => false
  storeList := []
  memOpsPred := 0

variable (set : StoreSet)

def calcIndex (pc : Nat) : Nat := (pc >>> 2) &&& (set.ssitSize - 1)

def calcSSID (pc : Nat) : Nat := (pc ^^^ (pc >>> 10)) % set.lfstSize

def setSSIT (index ssid : Nat) : StoreSet :=
  { set with
    ssit := update set.ssit index ssid
    validSSIT := update set.validSSIT index true }

def invalidate (ssid : Nat) : StoreSet := { set with validLFST := update set.validLFST ssid false }

def violation (storePC loadPC : Nat) : Except Fault StoreSet := do
  let loadIndex := set.calcIndex loadPC
  let storeIndex := set.calcIndex storePC
  assert (loadIndex < set.ssitSize ∧ storeIndex < set.ssitSize) "load_index < SSITSize && store_index < SSITSize"
  let loadSSID := set.ssit loadIndex
  let storeSSID := set.ssit storeIndex
  match set.validSSIT loadIndex, set.validSSIT storeIndex with
  | false, false => do
    let newSet := set.calcSSID loadPC
    assert (newSet < set.lfstSize) "new_set < LFSTSize"
    .ok ((set.setSSIT loadIndex newSet).setSSIT storeIndex newSet)
  | true, false => do
    assert (loadSSID < set.lfstSize) "load_SSID < LFSTSize"
    .ok (set.setSSIT storeIndex loadSSID)
  | false, true => .ok (set.setSSIT loadIndex storeSSID)
  | true, true => do
    assert (loadSSID < set.lfstSize ∧ storeSSID < set.lfstSize) "load_SSID < LFSTSize && store_SSID < LFSTSize"
    if loadSSID < storeSSID then .ok (set.setSSIT storeIndex loadSSID)
    else .ok (set.setSSIT loadIndex storeSSID)

def clear : StoreSet := { set with validSSIT := fun _ => false, validLFST := fun _ => false, storeList := [] }

def checkClear : StoreSet :=
  if set.clearPeriod < set.memOpsPred + 1 then { set with memOpsPred := 0 }.clear
  else { set with memOpsPred := set.memOpsPred + 1 }

def insertLoad : StoreSet := set.checkClear

/-- This function is `storeList[seqNum] = ssid` of an ordered map from the largest key on. -/
def assign (seqNum ssid : Nat) : List (Nat × Nat) → List (Nat × Nat)
  | [] => [(seqNum, ssid)]
  | (key, value) :: rest =>
    if key < seqNum then (seqNum, ssid) :: (key, value) :: rest
    else if key = seqNum then (seqNum, ssid) :: rest
    else (key, value) :: assign seqNum ssid rest

def insertStore (storePC storeSeqNum : Nat) : Except Fault StoreSet := do
  let index := set.calcIndex storePC
  let set := set.checkClear
  assert (index < set.ssitSize) "index < SSITSize"
  if set.validSSIT index = false then .ok set
  else do
    let storeSSID := set.ssit index
    assert (storeSSID < set.lfstSize) "store_SSID < LFSTSize"
    .ok { set with
      lfst := update set.lfst storeSSID storeSeqNum
      validLFST := update set.validLFST storeSSID true
      storeList := assign storeSeqNum storeSSID set.storeList }

/-- This function is `StoreSet::checkInst`, where zero means that there is no store. -/
def checkInst (pc : Nat) : Except Fault Nat := do
  let index := set.calcIndex pc
  assert (index < set.ssitSize) "index < SSITSize"
  if set.validSSIT index = false then .ok 0
  else do
    let instSSID := set.ssit index
    assert (instSSID < set.lfstSize) "inst_SSID < LFSTSize"
    if set.validLFST instSSID = false then .ok 0 else .ok (set.lfst instSSID)

def issued (issuedPC issuedSeqNum : Nat) (isStore : Bool) : Except Fault StoreSet :=
  if isStore = false then .ok set
  else do
    let index := set.calcIndex issuedPC
    assert (index < set.ssitSize) "index < SSITSize"
    let set := { set with storeList := set.storeList.eraseP fun entry => entry.1 = issuedSeqNum }
    if set.validSSIT index = false then .ok set
    else do
      let storeSSID := set.ssit index
      assert (storeSSID < set.lfstSize) "store_SSID < LFSTSize"
      if set.validLFST storeSSID = true ∧ set.lfst storeSSID = issuedSeqNum then .ok (set.invalidate storeSSID)
      else .ok set

/-- One turn of the loop of `StoreSet::squash`, or nothing if the loop ends. -/
def squashTurn (squashedNum : Nat) (set : StoreSet) : Option StoreSet :=
  match set.storeList with
  | [] => none
  | (seqNum, ssid) :: rest =>
    if seqNum ≤ squashedNum then none
    else
      let younger := squashedNum < set.lfst ssid
      if set.validLFST ssid = true ∧ younger then some { set.invalidate ssid with storeList := rest }
      else if set.validLFST ssid = false ∧ younger then some { set with storeList := rest }
      else some set

/-- This loop is observed for a number of turns. -/
def squashLoop (squashedNum : Nat) : Nat → StoreSet → Except Fault StoreSet
  | 0, _ => .error .endlessLoop
  | turns + 1, set =>
    match squashTurn squashedNum set with
    | none => .ok set
    | some next => squashLoop squashedNum turns next

/-- This function is `StoreSet::squash`. A turn that removes no store is repeated for ever. -/
def squash (squashedNum : Nat) : Except Fault StoreSet := squashLoop squashedNum (set.storeList.length + 1) set

end StoreSet

inductive StoreSetOp where
  | violation (storePC loadPC : Nat)
  | insertLoad (loadPC loadSeqNum : Nat)
  | insertStore (storePC storeSeqNum : Nat)
  | issued (issuedPC issuedSeqNum : Nat) (isStore : Bool)
  | squash (squashedNum : Nat)
  | clear
deriving DecidableEq, Repr

def StoreSet.step (set : StoreSet) : StoreSetOp → Except Fault StoreSet
  | .violation storePC loadPC => set.violation storePC loadPC
  | .insertLoad _ _ => .ok set.insertLoad
  | .insertStore storePC storeSeqNum => set.insertStore storePC storeSeqNum
  | .issued issuedPC issuedSeqNum isStore => set.issued issuedPC issuedSeqNum isStore
  | .squash squashedNum => set.squash squashedNum
  | .clear => .ok set.clear

/-- A trace of the predictor remembers the stores in flight. -/
structure StoreTrace where
  set : StoreSet
  lastStore : Nat
  inFlight : List Nat

namespace StoreTrace

/-- Sequence numbers start at one. -/
def initial (set : StoreSet) : StoreTrace := ⟨set, 0, []⟩

/-- New stores are younger. -/
def guard (trace : StoreTrace) : StoreSetOp → Prop
  | .insertStore _ storeSeqNum => trace.lastStore < storeSeqNum
  | _ => True

def record (trace : StoreTrace) (set : StoreSet) : StoreSetOp → StoreTrace
  | .insertStore _ storeSeqNum => ⟨set, storeSeqNum, storeSeqNum :: trace.inFlight⟩
  | .issued _ issuedSeqNum _ =>
    { trace with set, inFlight := trace.inFlight.filter fun seqNum => seqNum ≠ issuedSeqNum }
  | .squash squashedNum =>
    { trace with set, inFlight := trace.inFlight.filter fun seqNum => seqNum ≤ squashedNum }
  | _ => { trace with set }

def step (trace : StoreTrace) (op : StoreSetOp) : Except Fault StoreTrace := do
  let set ← trace.set.step op
  .ok (trace.record set op)

end StoreTrace

def storeSets : Machine StoreTrace StoreSetOp Fault := ⟨StoreTrace.guard, StoreTrace.step⟩

end Gem5.O3
