import Gem5.Construction.Base.AddrRange

namespace Gem5.RiscvISA
open Bitfield ToMathlib

inductive PrivilegeMode
  | PRV_U
  | PRV_S
  | PRV_M
deriving DecidableEq, Repr

/-- The access mode of the MMU. -/
inductive Mode
  | Read
  | Write
  | Execute
deriving DecidableEq, Repr

inductive ExceptionCode
  | INST_ACCESS
  | LOAD_ACCESS
  | STORE_ACCESS
deriving DecidableEq, Repr

structure AddressFault where
  vaddr : Addr
  code : ExceptionCode
deriving DecidableEq, Repr

/-- The address matching mode in bits 3 and 4 of a configuration. -/
inductive PmpAmatch
  | PMP_OFF
  | PMP_TOR
  | PMP_NA4
  | PMP_NAPOT
deriving DecidableEq, Repr

/-- A range that is not interleaved, as the entries have them. -/
structure PlainRange extends AddrRange where
  plain : toAddrRange = .ofBounds start stop

def PlainRange.ofBounds (start stop : Addr) : PlainRange := ⟨.ofBounds start stop, rfl⟩

/-- An entry of the table, whose registers are zero at first. -/
structure PmpEntry where
  pmpAddr : PlainRange := .ofBounds 0 0
  rawAddr : Addr := 0
  pmpCfg : BitVec 8 := 0

/-- The unit with the table and what it caches about all entries. -/
structure PMP (pmpEntries : Nat) where
  numRules : Nat := 0
  hasLockEntry : Bool := false
  pmpTable : Fin pmpEntries → PmpEntry := fun _ => {}

def PMP_READ : BitVec 8 := 1 <<< 0
def PMP_WRITE : BitVec 8 := 1 <<< 1
def PMP_EXEC : BitVec 8 := 1 <<< 2
def PMP_LOCK : BitVec 8 := 1 <<< 7

def pmpGetAField (cfg : BitVec 8) : PmpAmatch :=
  match ((cfg >>> 3) &&& 0x03).toNat with
  | 1 => .PMP_TOR
  | 2 => .PMP_NA4
  | 3 => .PMP_NAPOT
  | _ => .PMP_OFF

/-- This function decodes a naturally aligned power of two region. -/
def pmpDecodeNapot (pmpaddr : Addr) : Except Fault PlainRange :=
  if pmpaddr = -1 then .ok (.ofBounds 0 (-1))
  else do
    let t1 := ctz64 (~~~pmpaddr)
    let range ← shiftOne (t1 + 3)
    let base := mbits pmpaddr 63 t1 <<< 2
    .ok (.ofBounds base (base + range))

/-- This function creates the fault of an access. -/
def createAddrfault (vaddr : Addr) (mode : Mode) : AddressFault :=
  match mode with
  | .Read => ⟨vaddr, .LOAD_ACCESS⟩
  | .Write => ⟨vaddr, .STORE_ACCESS⟩
  | .Execute => ⟨vaddr, .INST_ACCESS⟩

namespace PmpEntry
variable (entry : PmpEntry)

def locked : Bool := entry.pmpCfg &&& PMP_LOCK ≠ 0

def aField : PmpAmatch := pmpGetAField entry.pmpCfg

/-- This condition is that an access starts and ends in the range of the entry. -/
def covers (paddr : Addr) (size : Nat) : Except Fault Bool := do
  if ← entry.pmpAddr.contains paddr then entry.pmpAddr.contains (paddr + BitVec.ofNat 64 size - 1) else .ok false

/-- This function decides whether a matching entry lets an access pass. -/
def grants (mode : Mode) (pmode : PrivilegeMode) : Bool :=
  if pmode = .PRV_M ∧ !entry.locked then true
  else match mode with
    | .Read => PMP_READ &&& entry.pmpCfg ≠ 0
    | .Write => PMP_WRITE &&& entry.pmpCfg ≠ 0
    | .Execute => PMP_EXEC &&& entry.pmpCfg ≠ 0

end PmpEntry

namespace PMP
variable {pmpEntries : Nat} (pmp : PMP pmpEntries)

/-- The raw address before an entry. -/
def prevAddr (index : Fin pmpEntries) : Addr :=
  if 1 ≤ index.val then (pmp.pmpTable ⟨index - 1, by omega⟩).rawAddr else 0

/-- The range that the registers of an entry ask for. -/
def thisRange (index : Fin pmpEntries) : Except Fault PlainRange :=
  let entry := pmp.pmpTable index
  match entry.aField with
  | .PMP_OFF => .ok (.ofBounds 0 0)
  | .PMP_TOR => .ok (.ofBounds (pmp.prevAddr index <<< 2) (entry.rawAddr <<< 2))
  | .PMP_NA4 => .ok (.ofBounds (entry.rawAddr <<< 2) (entry.rawAddr <<< 2 + 4))
  | .PMP_NAPOT => pmpDecodeNapot entry.rawAddr

def setEntry (index : Fin pmpEntries) (entry : PmpEntry) : PMP pmpEntries :=
  { pmp with pmpTable := Function.update pmp.pmpTable index entry }

/-- This loop counts the rules and looks for a locked entry. -/
def countRules : PMP pmpEntries :=
  { pmp with
    numRules := (List.finRange pmpEntries).countP fun i => (pmp.pmpTable i).aField ≠ .PMP_OFF
    hasLockEntry := (List.finRange pmpEntries).any fun i => (pmp.pmpTable i).locked }

/-- This function updates the rule of an entry. -/
def pmpUpdateRule (pmp_index : Fin pmpEntries) : Except Fault (PMP pmpEntries) := do
  let this_range ← pmp.thisRange pmp_index
  .ok (pmp.setEntry pmp_index { pmp.pmpTable pmp_index with pmpAddr := this_range }).countRules

/-- This function writes the configuration of an entry and returns whether it did. -/
def pmpUpdateCfg (pmp_index : Nat) (this_cfg : BitVec 8) : Except Fault (Bool × PMP pmpEntries) :=
  if inside : pmp_index < pmpEntries then
    let entry := pmp.pmpTable ⟨pmp_index, inside⟩
    if entry.locked then .ok (false, pmp)
    else do
      let updated ← (pmp.setEntry ⟨pmp_index, inside⟩ { entry with pmpCfg := this_cfg }).pmpUpdateRule
        ⟨pmp_index, inside⟩
      .ok (true, updated)
  else .ok (false, pmp)

/-- This condition is that the next entry is locked and starts at the address of this one. -/
def nextLocked (pmp_index : Nat) : Bool :=
  if next : pmp_index + 1 < pmpEntries then
    (pmp.pmpTable ⟨pmp_index + 1, next⟩).locked && (pmp.pmpTable ⟨pmp_index + 1, next⟩).aField = .PMP_TOR
  else false

/-- This function writes the raw address of an entry, updates all rules and returns whether it did. -/
def pmpUpdateAddr (pmp_index : Nat) (this_addr : Addr) : Except Fault (Bool × PMP pmpEntries) :=
  if inside : pmp_index < pmpEntries then
    let entry := pmp.pmpTable ⟨pmp_index, inside⟩
    if entry.locked then .ok (false, pmp)
    else if pmp.nextLocked pmp_index then .ok (false, pmp)
    else do
      let updated ← (List.finRange pmpEntries).foldlM pmpUpdateRule
        (pmp.setEntry ⟨pmp_index, inside⟩ { entry with rawAddr := this_addr })
      .ok (true, updated)
  else .ok (false, pmp)

def shouldCheckPMP (pmode : PrivilegeMode) : Bool := pmp.numRules ≠ 0 ∧ (pmode ≠ .PRV_M ∨ pmp.hasLockEntry)

/-- This loop looks for the entry that decides, where an entry that is off stays the match until a later one. -/
def matchLoop (paddr : Addr) (size : Nat) :
    List (Fin pmpEntries) → Option (Fin pmpEntries) → Except Fault (Option (Fin pmpEntries))
  | [], _ => .ok none
  | i :: rest, match_index => do
    let covered ← (pmp.pmpTable i).covers paddr size
    let match_index := if covered then some i else match_index
    match match_index with
    | none => matchLoop paddr size rest none
    | some index =>
      if (pmp.pmpTable index).aField ≠ .PMP_OFF then .ok (some index) else matchLoop paddr size rest (some index)

/-- This function checks an access, where `vaddr` is the virtual address that a fault reports. -/
def pmpCheck (paddr : Addr) (size : Nat) (mode : Mode) (pmode : PrivilegeMode) (vaddr : Addr) :
    Except Fault (Option AddressFault) :=
  if pmp.shouldCheckPMP pmode then do
    match ← pmp.matchLoop paddr size (List.finRange pmpEntries) none with
    | some index =>
      .ok (if (pmp.pmpTable index).grants mode pmode then none else some (createAddrfault vaddr mode))
    | none => .ok (if pmode = .PRV_M then none else some (createAddrfault vaddr mode))
  else .ok none

/-- A write to a register of the unit. -/
inductive Op
  | pmpUpdateCfg (pmp_index : Nat) (this_cfg : BitVec 8)
  | pmpUpdateAddr (pmp_index : Nat) (this_addr : Addr)

def step : Op → Except Fault (PMP pmpEntries)
  | .pmpUpdateCfg pmp_index this_cfg => do
    let done ← pmp.pmpUpdateCfg pmp_index this_cfg
    .ok done.2
  | .pmpUpdateAddr pmp_index this_addr => do
    let done ← pmp.pmpUpdateAddr pmp_index this_addr
    .ok done.2

/-- This machine performs the writes of addresses that the registers can hold. -/
def writes (pmpEntries : Nat) : Machine (PMP pmpEntries) Op Fault where
  guard := fun _ op => ∀ index addr, op = .pmpUpdateAddr index addr → addr.toNat < 2 ^ 54
  step := step

end PMP

end Gem5.RiscvISA
