import Gem5.Construction.Riscv.Pmp
import Gem5.Proof.Base.Bitfield

namespace Gem5.RiscvISA
open Bitfield ToMathlib BitVec

/-- This set is the bytes that a matching mode, an address register and the register before it denote. A power of two
region takes its size from the lowest zero bit of its register. -/
def denoted (aField : PmpAmatch) (prev raw : Nat) : Set Nat :=
  match aField with
  | .PMP_OFF => ∅
  | .PMP_TOR => {byte | 4 * prev ≤ byte ∧ byte < 4 * raw}
  | .PMP_NA4 => {byte | 4 * raw ≤ byte ∧ byte < 4 * raw + 4}
  | .PMP_NAPOT => {byte | ∃ ones, raw % 2 ^ (ones + 1) = 2 ^ ones - 1 ∧ byte / 2 ^ (ones + 3) = raw / 2 ^ (ones + 1)}

/-- This set is the bytes that an entry matches. -/
def PmpEntry.bytes (entry : PmpEntry) : Set Addr := {a | entry.pmpAddr.contains a = .ok true}

/-- The table and what is cached about it agree. -/
structure PMP.Agrees {pmpEntries : Nat} (pmp : PMP pmpEntries) : Prop where
  ranges : ∀ index a, a ∈ (pmp.pmpTable index).bytes ↔
    a.toNat ∈ denoted (pmp.pmpTable index).aField (pmp.prevAddr index).toNat (pmp.pmpTable index).rawAddr.toNat
  rules : pmp.numRules = (List.finRange pmpEntries).countP fun i => (pmp.pmpTable i).aField ≠ .PMP_OFF
  lock : pmp.hasLockEntry = true ↔ ∃ i, (pmp.pmpTable i).locked = true

theorem PlainRange.contains_eq (range : PlainRange) (a : Addr) :
    range.contains a = .ok (decide (range.start ≤ a ∧ a < range.stop)) := by
  unfold AddrRange.contains
  split
  · rename_i inside
    rw [decide_eq_true inside, range.plain]
    rfl
  · rename_i outside
    rw [decide_eq_false outside]

theorem PlainRange.mem_ofBounds {start stop a : Addr} :
    (PlainRange.ofBounds start stop).contains a = .ok true ↔ start.toNat ≤ a.toNat ∧ a.toNat < stop.toNat := by
  rw [contains_eq, Except.ok.injEq, decide_eq_true_iff, le_def, lt_def]
  rfl

section Napot
variable {raw ones : Nat}

/-- The lowest zero bit has one position. -/
theorem ones_unique {other : Nat} (found : raw % 2 ^ (ones + 1) = 2 ^ ones - 1)
    (again : raw % 2 ^ (other + 1) = 2 ^ other - 1) : other = ones := by
  have shorter : ∀ {less more : Nat}, raw % 2 ^ (less + 1) = 2 ^ less - 1 → raw % 2 ^ (more + 1) = 2 ^ more - 1 →
      ¬ less < more := by
    intro less more low high below
    have bit : raw.testBit less = true := by
      have inside := congrArg (Nat.testBit · less) high
      simpa [Nat.testBit_mod_two_pow, Nat.testBit_two_pow_sub_one, below, Nat.lt_succ_of_lt below] using inside
    have zero := congrArg (Nat.testBit · less) low
    simp [Nat.testBit_mod_two_pow, Nat.testBit_two_pow_sub_one, bit] at zero
  have notBelow := shorter found again
  have notAbove := shorter again found
  omega

/-- A power of two region is the addresses with the upper bits of its register. -/
theorem mem_napot {byte : Nat} (found : raw % 2 ^ (ones + 1) = 2 ^ ones - 1) : byte ∈ denoted .PMP_NAPOT prev raw ↔
      4 * (raw - (2 ^ ones - 1)) ≤ byte ∧ byte < 4 * (raw - (2 ^ ones - 1)) + 2 ^ (ones + 3) := by
  have positive : 0 < 2 ^ (ones + 3) := Nat.two_pow_pos _
  have size : 2 ^ (ones + 3) = 4 * 2 ^ (ones + 1) := by ring
  have base : 4 * (raw - (2 ^ ones - 1)) = 2 ^ (ones + 3) * (raw / 2 ^ (ones + 1)) := by
    have split := Nat.div_add_mod raw (2 ^ (ones + 1))
    rw [size, Nat.mul_assoc]
    omega
  have upper : byte ∈ denoted .PMP_NAPOT prev raw ↔ byte / 2 ^ (ones + 3) = raw / 2 ^ (ones + 1) := by
    constructor
    · rintro ⟨other, again, same⟩
      rw [ones_unique found again] at same
      exact same
    · intro same
      exact ⟨ones, found, same⟩
  rw [upper, base, Nat.div_eq_iff positive, Nat.mul_comm]
  omega

end Napot

section Decode
variable {raw : Addr}

/-- A register below its limit has a zero bit whose position is the number of the ones below it. -/
theorem ones_of_low (low : raw.toNat < 2 ^ 54) : ctz64 (~~~raw) ≤ 54 ∧
    raw.toNat % 2 ^ (ctz64 (~~~raw) + 1) = 2 ^ ctz64 (~~~raw) - 1 := by
  have zero : (~~~raw).getLsbD 54 = true := by
    rw [getLsbD_not, getLsbD, Nat.testBit_lt_two_pow low]
    rfl
  have bound : ctz64 (~~~raw) ≤ 54 := by
    by_contra above
    rw [getLsbD_of_lt_ctz64 (Nat.lt_of_not_le above)] at zero
    cases zero
  have nonzero : ~~~raw ≠ 0 := by
    intro all
    rw [all] at zero
    cases zero
  have here := (ctz64_lt nonzero).2
  refine ⟨bound, ?_⟩
  apply Nat.eq_of_testBit_eq
  intro index
  rw [Nat.testBit_mod_two_pow, Nat.testBit_two_pow_sub_one]
  rcases Nat.lt_trichotomy index (ctz64 (~~~raw)) with below | rfl | above
  · have set := getLsbD_of_lt_ctz64 below
    have inside : index < 64 := by omega
    simp only [getLsbD_not, inside, decide_true, Bool.true_and, Bool.not_eq_false'] at set
    rw [getLsbD] at set
    simp [set, below, Nat.lt_succ_of_lt below]
  · simp only [getLsbD_not, Bool.and_eq_true, Bool.not_eq_true'] at here
    rw [← getLsbD, here.2]
    simp
  · have outside : ¬ index < ctz64 (~~~raw) + 1 := by omega
    have after : ¬ index < ctz64 (~~~raw) := by omega
    simp [outside, after]

theorem toNat_mbits (raw : Addr) (last : Nat) : (mbits raw 63 last).toNat = raw.toNat - raw.toNat % 2 ^ last := by
  have shifted : mbits raw 63 last = (raw >>> last) <<< last := by
    apply eq_of_getLsbD_eq
    intro index inside
    rw [mbits, getLsbD_and, getLsbD_and, getLsbD_not, getLsbD_mask, getLsbD_mask,
      getLsbD_shiftLeft, getLsbD_ushiftRight]
    by_cases below : index < last
    · simp [below, inside]
    · simp [below, inside, Nat.add_sub_cancel' (Nat.le_of_not_lt below)]
  have split := Nat.div_add_mod raw.toNat (2 ^ last)
  rw [shifted, toNat_shiftLeft, toNat_ushiftRight, Nat.shiftLeft_eq, Nat.shiftRight_eq_div_pow,
    Nat.mod_eq_of_lt (by rw [Nat.mul_comm]; omega), Nat.mul_comm]
  omega

theorem toNat_shiftLeft_two (low : raw.toNat < 2 ^ 54) : (raw <<< 2).toNat = 4 * raw.toNat := by
  rw [toNat_shiftLeft, Nat.shiftLeft_eq]
  omega

/-- The decoding of a power of two region matches the bytes that it denotes. -/
theorem pmpDecodeNapot_spec (low : raw.toNat < 2 ^ 54) : ∃ range, pmpDecodeNapot raw = .ok range ∧
    ∀ a, range.contains a = .ok true ↔ a.toNat ∈ denoted .PMP_NAPOT prev raw.toNat := by
  obtain ⟨bound, found⟩ := ones_of_low low
  have notAll : raw ≠ -1 := by
    rintro rfl
    exact absurd low (by decide)
  have shift : shiftOne (ctz64 (~~~raw) + 3) = .ok ((1 : BitVec 64) <<< (ctz64 (~~~raw) + 3)) := if_pos (by omega)
  refine ⟨_, by simp only [pmpDecodeNapot, if_neg notAll, shift, ok_bind]; rfl, ?_⟩
  generalize ctz64 (~~~raw) = ones at bound found ⊢
  have rest : raw.toNat % 2 ^ ones = 2 ^ ones - 1 := by
    have nested := Nat.mod_mod_of_dvd raw.toNat (Nat.pow_dvd_pow 2 (Nat.le_succ ones))
    rw [found, Nat.mod_eq_of_lt (Nat.sub_lt (Nat.two_pow_pos ones) Nat.one_pos)] at nested
    exact nested.symm
  have base : (mbits raw 63 ones <<< 2).toNat = 4 * (raw.toNat - (2 ^ ones - 1)) := by
    have kept := toNat_mbits raw ones
    rw [rest] at kept
    rw [toNat_shiftLeft_two (by omega), kept]
  have size : ((1 : BitVec 64) <<< (ones + 3)).toNat = 2 ^ (ones + 3) := toNat_twoPow_of_lt (by omega)
  have top : (mbits raw 63 ones <<< 2 + (1 : BitVec 64) <<< (ones + 3)).toNat =
      4 * (raw.toNat - (2 ^ ones - 1)) + 2 ^ (ones + 3) := by
    have fits : 2 ^ (ones + 3) ≤ 2 ^ 57 := Nat.pow_le_pow_right (by decide) (by omega)
    rw [toNat_add, base, size]
    omega
  intro a
  rw [PlainRange.mem_ofBounds, base, top, mem_napot found]

end Decode

namespace PMP
variable {pmpEntries : Nat} {pmp next : PMP pmpEntries} {index : Fin pmpEntries}

/-- The registers of a table hold addresses below their limit. -/
def Low (pmp : PMP pmpEntries) : Prop := ∀ index, (pmp.pmpTable index).rawAddr.toNat < 2 ^ 54

theorem Low.prevAddr (low : pmp.Low) (index : Fin pmpEntries) : (pmp.prevAddr index).toNat < 2 ^ 54 := by
  unfold PMP.prevAddr
  split
  · exact low _
  · decide

/-- The range of an entry matches the bytes that its registers denote. -/
theorem thisRange_spec (low : pmp.Low) (index : Fin pmpEntries) : ∃ range, pmp.thisRange index = .ok range ∧
    ∀ a, range.contains a = .ok true ↔
      a.toNat ∈ denoted (pmp.pmpTable index).aField (pmp.prevAddr index).toNat (pmp.pmpTable index).rawAddr.toNat := by
  have this := toNat_shiftLeft_two (low index)
  have prev := toNat_shiftLeft_two (low.prevAddr index)
  have bound := low index
  simp only [thisRange]
  cases (pmp.pmpTable index).aField with
  | PMP_OFF =>
    refine ⟨_, rfl, fun a => ?_⟩
    rw [PlainRange.mem_ofBounds]
    simp [denoted]
  | PMP_TOR =>
    refine ⟨_, rfl, fun a => ?_⟩
    rw [PlainRange.mem_ofBounds, this, prev]
    rfl
  | PMP_NA4 =>
    refine ⟨_, rfl, fun a => ?_⟩
    have four : (4 : Addr).toNat = 4 := rfl
    rw [PlainRange.mem_ofBounds, toNat_add, this, four, Nat.mod_eq_of_lt (by omega)]
    rfl
  | PMP_NAPOT => exact pmpDecodeNapot_spec bound

/-- The cached counts are those of the table. -/
def Counted (pmp : PMP pmpEntries) : Prop := pmp.countRules = pmp

/-- The ranges, the counts and the limit of the registers hold together. -/
structure Current (pmp : PMP pmpEntries) : Prop where
  low : pmp.Low
  ranges : ∀ index, pmp.thisRange index = .ok (pmp.pmpTable index).pmpAddr
  counted : pmp.Counted

theorem Current.agrees (current : pmp.Current) : pmp.Agrees where
  ranges := by
    intro index a
    obtain ⟨range, found, bytes⟩ := thisRange_spec current.low index
    rw [current.ranges index, Except.ok.injEq] at found
    rw [← bytes, ← found]
    rfl
  rules := (congrArg numRules current.counted).symm
  lock := by
    have cached : (List.finRange pmpEntries).any (fun i => (pmp.pmpTable i).locked) = pmp.hasLockEntry :=
      congrArg hasLockEntry current.counted
    rw [← cached, List.any_eq_true]
    simp [List.mem_finRange]

theorem Current.initial : Current ({} : PMP pmpEntries) := by
  have off : PmpEntry.aField {} = .PMP_OFF := by decide
  have free : PmpEntry.locked {} = false := by decide
  refine ⟨fun _ => Nat.two_pow_pos 54, fun index => ?_, ?_⟩
  · simp only [thisRange, off]
  · simp only [Counted, countRules, off, free]
    simp

/-- Two tables have the same registers. -/
def SameRegisters (pmp next : PMP pmpEntries) : Prop := ∀ index,
  (next.pmpTable index).rawAddr = (pmp.pmpTable index).rawAddr ∧
    (next.pmpTable index).pmpCfg = (pmp.pmpTable index).pmpCfg

theorem prevAddr_congr
    (same : ∀ before : Fin pmpEntries, before.val + 1 = index.val → (next.pmpTable before).rawAddr = (pmp.pmpTable
      before).rawAddr) : next.prevAddr index = pmp.prevAddr index := by
  unfold prevAddr
  split
  · apply same
    change index.val - 1 + 1 = index.val
    omega
  · rfl

/-- The range of an entry depends on its registers and, if it starts at it, on the address before it. -/
theorem thisRange_congr (raw : (next.pmpTable index).rawAddr = (pmp.pmpTable index).rawAddr)
    (cfg : (next.pmpTable index).pmpCfg = (pmp.pmpTable index).pmpCfg)
    (prev : (pmp.pmpTable index).aField = .PMP_TOR → next.prevAddr index = pmp.prevAddr index) :
    next.thisRange index = pmp.thisRange index := by
  have field : (next.pmpTable index).aField = (pmp.pmpTable index).aField := congrArg pmpGetAField cfg
  simp only [thisRange, field, raw]
  cases tor : (pmp.pmpTable index).aField with
  | PMP_TOR => simp only [prev tor]
  | _ => rfl

theorem SameRegisters.thisRange (same : pmp.SameRegisters next) (index : Fin pmpEntries) :
    next.thisRange index = pmp.thisRange index :=
  thisRange_congr (same index).1 (same index).2 fun _ => prevAddr_congr fun before _ => (same before).1

@[simp] theorem setEntry_same {entry : PmpEntry} :
    (pmp.setEntry index entry).pmpTable index = entry := Function.update_self ..

@[simp] theorem setEntry_other {other : Fin pmpEntries} {entry : PmpEntry} (different : other ≠ index) :
    (pmp.setEntry index entry).pmpTable other = pmp.pmpTable other := Function.update_of_ne different ..

/-- The update of a rule refreshes the range of its entry and the counts, and changes no register. -/
theorem pmpUpdateRule_spec (low : pmp.Low) (index : Fin pmpEntries) : ∃ next, pmp.pmpUpdateRule index = .ok next ∧
    pmp.SameRegisters next ∧ next.Counted ∧ pmp.thisRange index = .ok (next.pmpTable index).pmpAddr ∧
      ∀ other, other ≠ index → next.pmpTable other = pmp.pmpTable other := by
  obtain ⟨range, found, -⟩ := thisRange_spec low index
  refine ⟨(pmp.setEntry index { pmp.pmpTable index with pmpAddr := range }).countRules,
    by rw [pmpUpdateRule, found, ok_bind], fun other => ?_, rfl, ?_, fun other different => ?_⟩
  · by_cases this : other = index <;> simp [countRules, this]
  · simp [countRules, found]
  · simp [countRules, different]

/-- The loop over the rules refreshes the ranges of the entries that it passes. -/
theorem updateRules_spec (low : pmp.Low) (indexes : List (Fin pmpEntries)) (counted : indexes = [] → pmp.Counted) :
    ∃ next, indexes.foldlM pmpUpdateRule pmp = .ok next ∧ pmp.SameRegisters next ∧ next.Counted ∧
      ∀ index, (index ∉ indexes → pmp.thisRange index = .ok (pmp.pmpTable index).pmpAddr) →
        pmp.thisRange index = .ok (next.pmpTable index).pmpAddr := by
  induction indexes generalizing pmp with
  | nil => exact ⟨pmp, rfl, fun _ => ⟨rfl, rfl⟩, counted rfl, fun _ fresh => fresh List.not_mem_nil⟩
  | cons first rest ih =>
    obtain ⟨middle, updated, same, middleCounted, refreshed, others⟩ := pmpUpdateRule_spec low first
    have middleLow : middle.Low := by
      intro index
      rw [(same index).1]
      exact low index
    obtain ⟨next, loop, again, nextCounted, fresh⟩ := ih middleLow fun _ => middleCounted
    refine ⟨next, by rw [List.foldlM_cons, updated, ok_bind, loop], fun index => ?_, nextCounted, ?_⟩
    · rw [(again index).1, (again index).2]
      exact same index
    · intro index before
      rw [← same.thisRange]
      apply fresh
      rw [same.thisRange]
      by_cases this : index = first
      · subst this
        exact fun _ => refreshed
      · rw [others index this]
        simpa [this] using before

/-- A write keeps what a locked entry reads. -/
def KeepsLocked (pmp next : PMP pmpEntries) : Prop := ∀ index, (pmp.pmpTable index).locked = true →
  (next.pmpTable index).pmpCfg = (pmp.pmpTable index).pmpCfg ∧ next.thisRange index = pmp.thisRange index

/-- A result is current and keeps what locked entries read. -/
def Kept (pmp : PMP pmpEntries) (result : Except Fault (Bool × PMP pmpEntries)) : Prop :=
  ∃ done next, result = .ok (done, next) ∧ next.Current ∧ pmp.KeepsLocked next

section
variable (current : pmp.Current)
include current

theorem Current.kept : pmp.Kept (.ok (false, pmp)) := ⟨false, pmp, rfl, current, fun _ _ => ⟨rfl, rfl⟩⟩

/-- A write to a free entry keeps the rules if it updates all entries whose ranges change, and no locked one does. -/
theorem Current.rewrite (index : Fin pmpEntries) (entry : PmpEntry) (indexes : List (Fin pmpEntries))
    (free : ¬ (pmp.pmpTable index).locked = true) (fits : entry.rawAddr.toNat < 2 ^ 54) (listed : index ∈ indexes)
    (stays : ∀ other, other ≠ index → other ∉ indexes ∨ (pmp.pmpTable other).locked = true → (pmp.setEntry index
      entry).thisRange other = pmp.thisRange other) :
    pmp.Kept (indexes.foldlM pmpUpdateRule (pmp.setEntry index entry) >>= fun updated => .ok (true, updated)) := by
  have low : (pmp.setEntry index entry).Low :=
    (Function.forall_update_iff pmp.pmpTable (p := fun _ entry => entry.rawAddr.toNat < 2 ^ 54)).mpr
      ⟨fits, fun other _ => current.low other⟩
  obtain ⟨next, loop, same, counted, refreshed⟩ :=
    updateRules_spec low indexes fun empty => absurd empty (List.ne_nil_of_mem listed)
  refine ⟨true, next, by rw [loop, ok_bind], ⟨fun other => ?_, fun other => ?_, counted⟩, fun other locked => ?_⟩
  · rw [(same other).1]
    exact low other
  · rw [same.thisRange]
    apply refreshed other
    intro unlisted
    have different : other ≠ index := by
      rintro rfl
      exact unlisted listed
    rw [stays other different (.inl unlisted), setEntry_other different]
    exact current.ranges other
  · have different : other ≠ index := by
      rintro rfl
      exact free locked
    rw [(same other).2, setEntry_other different, same.thisRange]
    exact ⟨rfl, stays other different (.inr locked)⟩

theorem pmpUpdateCfg_kept (pmp_index : Nat) (this_cfg : BitVec 8) : pmp.Kept (pmp.pmpUpdateCfg pmp_index this_cfg) := by
  unfold pmpUpdateCfg
  split
  · rename_i inside
    dsimp only
    split
    · exact current.kept
    rename_i free
    have kept := current.rewrite ⟨pmp_index, inside⟩ { pmp.pmpTable ⟨pmp_index, inside⟩ with pmpCfg := this_cfg }
      [⟨pmp_index, inside⟩] free (current.low _) (List.mem_singleton_self _) ?_
    · simpa only [List.foldlM_cons, List.foldlM_nil, bind_pure] using kept
    · intro other different _
      refine thisRange_congr (by rw [setEntry_other different]) (by rw [setEntry_other different]) fun _ => ?_
      apply prevAddr_congr
      intro before _
      by_cases this : before = ⟨pmp_index, inside⟩
      · rw [this, setEntry_same]
      · rw [setEntry_other this]
  · exact current.kept

theorem pmpUpdateAddr_kept (pmp_index : Nat) {this_addr : Addr} (fits : this_addr.toNat < 2 ^ 54) :
    pmp.Kept (pmp.pmpUpdateAddr pmp_index this_addr) := by
  unfold pmpUpdateAddr
  split
  · rename_i inside
    dsimp only
    split
    · exact current.kept
    rename_i free
    split
    · exact current.kept
    rename_i nextFree
    apply current.rewrite _ _ _ free fits (List.mem_finRange _)
    intro other different reason
    have locked := reason.resolve_left fun unlisted => unlisted (List.mem_finRange other)
    refine thisRange_congr (by rw [setEntry_other different]) (by rw [setEntry_other different]) fun tor => ?_
    apply prevAddr_congr
    intro before adjacent
    rw [setEntry_other]
    -- The address that a locked range starts at is refused.
    rintro rfl
    have next : pmp_index + 1 < pmpEntries := adjacent ▸ other.isLt
    obtain rfl : (⟨pmp_index + 1, next⟩ : Fin pmpEntries) = other := Fin.ext adjacent
    apply nextFree
    rw [nextLocked, dif_pos next, locked, tor]
    rfl
  · exact current.kept

/-- Every write that fits succeeds, keeps the rules current and keeps what locked entries read. -/
theorem step_spec {op : Op} (allowed : (writes pmpEntries).guard pmp op) :
    ∃ next, pmp.step op = .ok next ∧ next.Current ∧ pmp.KeepsLocked next := by
  cases op with
  | pmpUpdateCfg index cfg =>
    obtain ⟨done, next, updated, kept⟩ := pmpUpdateCfg_kept current index cfg
    exact ⟨next, by rw [step, updated, ok_bind], kept⟩
  | pmpUpdateAddr index addr =>
    obtain ⟨done, next, updated, kept⟩ := pmpUpdateAddr_kept current index (allowed index addr rfl)
    exact ⟨next, by rw [step, updated, ok_bind], kept⟩

theorem current_of_step {op : Op} (allowed : (writes pmpEntries).guard pmp op)
    (stepped : (writes pmpEntries).step pmp op = .ok next) : next.Current ∧ pmp.KeepsLocked next := by
  obtain ⟨after, done, kept⟩ := step_spec current allowed
  cases done.symm.trans stepped
  exact kept

end

theorem current_of_run {history : List Op} (run : (writes pmpEntries).Run {} history pmp) : pmp.Current :=
  run.invariant Current Current.initial fun _ _ _ current allowed stepped => (current_of_step current allowed stepped).1

/-- In every sequence of writes the rules agree with the registers, each write succeeds, and an entry that is locked
keeps its configuration and the bytes that it matches. -/
theorem pmp_locked_immutable {history later : List Op} (run : (writes pmpEntries).Run {} history pmp)
    (rest : (writes pmpEntries).Run pmp later next) :
    next.Agrees ∧ (∀ op, (writes pmpEntries).guard next op → ∃ after, next.step op = .ok after) ∧
      ∀ index, (pmp.pmpTable index).locked = true → (next.pmpTable index).pmpCfg = (pmp.pmpTable index).pmpCfg ∧
        (next.pmpTable index).bytes = (pmp.pmpTable index).bytes := by
  have before := current_of_run run
  have kept : next.Current ∧ pmp.KeepsLocked next := by
    apply rest.invariant (fun state => state.Current ∧ pmp.KeepsLocked state) ⟨before, fun _ _ => ⟨rfl, rfl⟩⟩
    intro state op after held allowed stepped
    obtain ⟨current, keeps⟩ := current_of_step held.1 allowed stepped
    refine ⟨current, fun index locked => ?_⟩
    obtain ⟨cfg, range⟩ := held.2 index locked
    have still : (state.pmpTable index).locked = true := by
      rw [PmpEntry.locked, cfg]
      exact locked
    obtain ⟨cfgAfter, rangeAfter⟩ := keeps index still
    exact ⟨cfgAfter.trans cfg, rangeAfter.trans range⟩
  refine ⟨kept.1.agrees, fun op allowed => ?_, fun index locked => ?_⟩
  · obtain ⟨after, done, -⟩ := step_spec kept.1 allowed
    exact ⟨after, done⟩
  · obtain ⟨cfg, range⟩ := kept.2 index locked
    rw [kept.1.ranges, before.ranges, Except.ok.injEq] at range
    exact ⟨cfg, by rw [PmpEntry.bytes, PmpEntry.bytes, range]⟩

/-- A locked range keeps its bytes when its start is written and when its configuration is cleared. -/
theorem pmp_locked_immutable_tor : ∃ pmp next : PMP 2, (pmp.pmpTable 1).locked = true ∧
    (writes 2).Run {} [.pmpUpdateCfg 1 0x89, .pmpUpdateAddr 1 8, .pmpUpdateAddr 0 4] pmp ∧
      (writes 2).Run pmp [.pmpUpdateCfg 1 0, .pmpUpdateAddr 0 0] next ∧
        (next.pmpTable 1).bytes = (pmp.pmpTable 1).bytes := by
  have config : ∀ (pmp : PMP 2) index cfg, (writes 2).guard pmp (.pmpUpdateCfg index cfg) := by
    intro pmp index cfg place addr different
    cases different
  have address : ∀ (pmp : PMP 2) index (addr : Addr), addr.toNat < 2 ^ 54 →
      (writes 2).guard pmp (.pmpUpdateAddr index addr) := by
    rintro pmp index addr fits place written ⟨rfl, rfl⟩
    exact fits
  obtain ⟨pmp, run, locked⟩ : ∃ pmp : PMP 2,
      (writes 2).Run {} [.pmpUpdateCfg 1 0x89, .pmpUpdateAddr 1 8, .pmpUpdateAddr 0 4] pmp ∧
        (pmp.pmpTable 1).locked = true :=
    ⟨_, .cons (.cons (.cons .nil (address _ 0 4 (by decide)) rfl) (address _ 1 8 (by decide)) rfl)
      (config _ 1 0x89) rfl, rfl⟩
  obtain ⟨middle, written, current, -⟩ := step_spec (current_of_run run) (address pmp 0 0 (by decide))
  obtain ⟨next, cleared, -⟩ := step_spec current (config middle 1 0)
  have rest : (writes 2).Run pmp [.pmpUpdateCfg 1 0, .pmpUpdateAddr 0 0] next :=
    .cons (.cons .nil (address pmp 0 0 (by decide)) written) (config middle 1 0) cleared
  exact ⟨pmp, next, locked, run, rest, ((pmp_locked_immutable run rest).2.2 1 locked).2⟩

end PMP

open PmpEntry

/-- This condition is that an address lies between the bounds of an entry. -/
def PmpEntry.within (entry : PmpEntry) (a : Addr) : Bool := entry.pmpAddr.start ≤ a ∧ a < entry.pmpAddr.stop

theorem PmpEntry.covers_eq (entry : PmpEntry) (a : Addr) (size : Nat) :
    entry.covers a size = .ok (entry.within a && entry.within (a + BitVec.ofNat 64 size - 1)) := by
  unfold covers
  rw [entry.pmpAddr.contains_eq, entry.pmpAddr.contains_eq, ok_bind]
  change (if entry.within a = true then _ else _) = _
  cases entry.within a <;> rfl

/-- This condition is that an entry is on and has the first and the last byte of an access. -/
def PmpEntry.matched (entry : PmpEntry) (a : Addr) (size : Nat) : Bool :=
  entry.aField ≠ .PMP_OFF && (entry.within a && entry.within (a + BitVec.ofNat 64 size - 1))

namespace PmpEntry
variable {entry : PmpEntry} {a : Addr} {size k : Nat}

/-- An entry that does not match a byte of an access does not match the access. -/
theorem matched_eq_false (fits : a.toNat + size ≤ 2 ^ 64) (inside : k < size)
    (byte : entry.matched (a + BitVec.ofNat 64 k) 1 = false) : entry.matched a size = false := by
  by_contra whole
  have last : (a + BitVec.ofNat 64 size - 1).toNat = a.toNat + size - 1 := by
    rw [toNat_sub, toNat_add, toNat_ofNat, Nat.add_mod_mod]
    simp only [reduceToNat]
    omega
  have here : (a + BitVec.ofNat 64 k).toNat = a.toNat + k := by
    rw [toNat_add, toNat_ofNat, Nat.add_mod_mod, Nat.mod_eq_of_lt (by omega)]
  simp only [matched, within, Bool.not_eq_false, Bool.and_eq_true, decide_eq_true_eq, le_def, lt_def, last] at whole
  simp [matched, within, le_def, lt_def, here, whole.1] at byte
  omega

end PmpEntry

namespace PMP
variable {pmpEntries : Nat} {pmp : PMP pmpEntries} {a vaddr : Addr} {size : Nat} {mode : Mode} {pmode : PrivilegeMode}

/-- The loop finds the first entry that is on and covers the access. -/
theorem matchLoop_eq (a : Addr) (size : Nat) (indexes : List (Fin pmpEntries))
    {match_index : Option (Fin pmpEntries)} (off : ∀ index ∈ match_index, (pmp.pmpTable index).aField = .PMP_OFF) :
    pmp.matchLoop a size indexes match_index = .ok (indexes.find? fun i => (pmp.pmpTable i).matched a size) := by
  induction indexes generalizing match_index with
  | nil => rfl
  | cons i rest ih =>
    rw [matchLoop, covers_eq, ok_bind, List.find?_cons, matched]
    cases covered : (pmp.pmpTable i).within a && (pmp.pmpTable i).within (a + BitVec.ofNat 64 size - 1) with
    | false =>
      cases match_index with
      | none => simpa using ih off
      | some index => simpa [off index rfl] using ih off
    | true =>
      by_cases on : (pmp.pmpTable i).aField = .PMP_OFF
      · have still : ∀ index ∈ some i, (pmp.pmpTable index).aField = .PMP_OFF := by
          rintro index ⟨⟩
          exact on
        simpa [on] using ih still
      · simp [on]

/-- An access is granted by the first entry that matches it, or without one in machine mode. -/
theorem pmpCheck_iff (checked : pmp.shouldCheckPMP pmode = true) :
    pmp.pmpCheck a size mode pmode vaddr = .ok none ↔
      (∀ i, (Fin.find? fun i => (pmp.pmpTable i).matched a size) = some i →
        (pmp.pmpTable i).grants mode pmode = true) ∧
      ((Fin.find? fun i => (pmp.pmpTable i).matched a size) = none → pmode = .PRV_M) := by
  rw [pmpCheck, if_pos checked, matchLoop_eq _ _ _ (by simp), ok_bind, ← Fin.find?_eq_find?_finRange]
  cases Fin.find? fun i => (pmp.pmpTable i).matched a size <;> simp

/-- Each entry that an access passes over and that decides one of its bytes grants the byte. -/
def Agreeing (pmp : PMP pmpEntries) (a : Addr) (size : Nat) (mode : Mode) (pmode : PrivilegeMode) : Prop :=
  ∀ i, (∀ j ≤ i, (pmp.pmpTable j).matched a size = false) → ∀ k < size,
    (pmp.pmpTable i).matched (a + BitVec.ofNat 64 k) 1 = true →
    (∀ j < i, (pmp.pmpTable j).matched (a + BitVec.ofNat 64 k) 1 = false) → (pmp.pmpTable i).grants mode pmode = true

/-- Each byte of a granted access is granted exactly if the entries that the access passes over grant those bytes that
they decide. -/
theorem pmpCheck_bytes_iff (fits : a.toNat + size ≤ 2 ^ 64)
    (granted : pmp.pmpCheck a size mode pmode vaddr = .ok none) :
    (∀ k < size, pmp.pmpCheck (a + BitVec.ofNat 64 k) 1 mode pmode vaddr = .ok none) ↔
      (pmp.shouldCheckPMP pmode = true → pmp.Agreeing a size mode pmode) := by
  by_cases checked : pmp.shouldCheckPMP pmode = true
  · simp only [pmpCheck_iff checked, Fin.find?_eq_some_iff, Fin.find?_eq_none_iff, and_imp, checked, true_imp_iff]
      at granted ⊢
    constructor
    · intro bytes i _ k inside decides first
      exact (bytes k inside).1 i decides first
    · intro agreeing k inside
      refine ⟨fun i decides first => ?_, fun none => granted.2 fun i => matched_eq_false fits inside (none i)⟩
      have before : ∀ j < i, (pmp.pmpTable j).matched a size = false :=
        fun j earlier => matched_eq_false fits inside (first j earlier)
      cases here : (pmp.pmpTable i).matched a size with
      | false =>
        refine agreeing i (fun j early => ?_) k inside decides first
        rcases eq_or_lt_of_le early with rfl | earlier
        · exact here
        · exact before j earlier
      | true => exact granted.1 i here before
  · refine iff_of_true (fun k _ => ?_) fun wrong => absurd wrong checked
    rw [pmpCheck, if_neg checked]

/-- A readable region of eight bytes is granted byte by byte. -/
theorem pmpCheck_bytes_iff_napot : ∃ pmp : PMP 1, (writes 1).Run {} [.pmpUpdateCfg 0 0x19] pmp ∧
    pmp.pmpCheck 0 8 .Read .PRV_U 0 = .ok none ∧
      ∀ k < 8, pmp.pmpCheck (0 + BitVec.ofNat 64 k) 1 .Read .PRV_U 0 = .ok none := by
  refine ⟨_, .cons .nil (fun _ _ different => nomatch different) rfl, and_of_imp rfl
    fun granted => (pmpCheck_bytes_iff (by decide) granted).mpr fun _ => ?_⟩
  intro i passed
  obtain rfl := Subsingleton.elim i 0
  cases passed 0 (le_refl 0)

/-- A forbidden region of four bytes is passed by a read of eight bytes that a later region grants. -/
theorem pmpCheck_wide_passes : ∃ pmp : PMP 2, (writes 2).Run {} [.pmpUpdateCfg 1 0x19, .pmpUpdateCfg 0 0x10] pmp ∧
      pmp.pmpCheck 0 8 .Read .PRV_U 0 = .ok none ∧ pmp.pmpCheck 0 1 .Read .PRV_U 0 = .ok (some ⟨0, .LOAD_ACCESS⟩) :=
  ⟨_, .cons (.cons .nil (fun _ _ different => nomatch different) rfl) (fun _ _ different => nomatch different) rfl,
    rfl, rfl⟩

end PMP

end Gem5.RiscvISA
