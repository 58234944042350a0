import Gem5.Proof.Mem.TargetFlags

namespace Gem5
open List
variable {blkSize : Nat} {blkAddr : BitVec 64} {targets before : List Target} {t : Target}
  {flags next : TargetFlags}

/-- A demand target writes a byte of its block without a mask. -/
structure Target.Writes (t : Target) (blkSize byte : Nat) : Prop where
  source : t.source = .fromCPU
  isWrite : t.pkt.cmd.isWrite = true
  unmasked : t.pkt.isMaskedWrite = false
  inside : t.pkt.getOffset blkSize ≤ byte ∧ byte < t.pkt.getOffset blkSize + t.pkt.size

namespace TargetFlags

/-- The marked bytes are written, and the targets are writes while more of them are merged. -/
structure Covered (blkSize : Nat) (targets : List Target) (flags : TargetFlags) : Prop where
  length : flags.writesBitmap.length = blkSize
  written : ∀ byte : Nat, flags.writesBitmap[byte]? = some true → ∃ t ∈ targets, t.Writes blkSize byte
  merging : flags.isWholeLineWrite = false → flags.canMergeWrites = true →
    ∀ t ∈ targets, t.source = .fromCPU → t.pkt.cmd.isWrite = true

/-- The targets are writes if the flags become those of a whole line write. -/
def Completes (targets : List Target) (flags next : TargetFlags) : Prop :=
  flags.isWholeLineWrite = false → next.isWholeLineWrite = true →
    ∀ t ∈ targets, t.source = .fromCPU → t.pkt.cmd.isWrite = true

theorem completes_same (same : next.writesBitmap = flags.writesBitmap) : Completes targets flags next := by
  intro notYet whole
  rw [isWholeLineWrite, same] at whole
  cases whole.symm.trans notYet

section
variable (covered : Covered blkSize targets flags)
include covered

theorem Covered.more (t : Target) (byte : Nat)
    (marked : flags.writesBitmap[byte]? = some true) : ∃ other ∈ targets ++ [t], other.Writes blkSize byte := by
  obtain ⟨other, member, writes⟩ := covered.written byte marked
  exact ⟨other, mem_append_left _ member, writes⟩

/-- A target that is no demand packet changes no write flag. -/
theorem Covered.skip (other : t.source ≠ .fromCPU) : Covered blkSize (targets ++ [t]) flags := by
  refine ⟨covered.length, covered.more t, fun notYet merges => ?_⟩
  rw [forall_mem_append, forall_mem_singleton]
  exact ⟨covered.merging notYet merges, fun demand => absurd demand other⟩

theorem Covered.updateWriteFlags (demand : t.source = .fromCPU)
    (empty : Bool) :
    Covered blkSize (targets ++ [t]) (flags.updateWriteFlags empty blkSize t.pkt) ∧
      Completes (targets ++ [t]) flags (flags.updateWriteFlags empty blkSize t.pkt) := by
  cases whole : flags.isWholeLineWrite with
  | true =>
    rw [updateWriteFlags_whole whole]
    exact ⟨⟨covered.length, covered.more t, by simp [whole]⟩, completes_same rfl⟩
  | false =>
    cases merges : flags.canMergeWrites with
    | false =>
      rw [updateWriteFlags_closed merges]
      exact ⟨⟨covered.length, covered.more t, by simp [merges]⟩, completes_same rfl⟩
    | true =>
      rw [updateWriteFlags_open whole merges]
      split
      · next isWrite =>
        have writes : ∀ other ∈ targets ++ [t], other.source = .fromCPU → other.pkt.cmd.isWrite = true := by
          rw [forall_mem_append, forall_mem_singleton]
          exact ⟨covered.merging whole merges, fun _ => isWrite⟩
        refine ⟨⟨?_, fun byte marked => ?_, fun _ _ => writes⟩, fun _ _ => writes⟩
        · dsimp only
          split
          · exact (fillBytes_length ..).trans covered.length
          · exact covered.length
        · dsimp only at marked
          split at marked
          · next filled =>
            rw [fillBytes, getElem?_mapIdx] at marked
            obtain ⟨written, found, either⟩ := Option.map_eq_some_iff.mp marked
            cases written with
            | true => exact covered.more t byte found
            | false =>
              simp only [Bool.false_or, Bool.and_eq_true, decide_eq_true_eq, Bool.not_eq_true'] at either filled
              exact ⟨t, by simp, demand, isWrite, filled.1, either⟩
          · exact covered.more t byte marked
      · exact ⟨⟨covered.length, covered.more t, by simp⟩, completes_same rfl⟩

theorem Covered.updateFlags (t : Target) (empty : Bool) :
    Covered blkSize (targets ++ [t]) (flags.updateFlags empty blkSize t.pkt t.source t.allocOnFill) ∧
      Completes (targets ++ [t]) flags (flags.updateFlags empty blkSize t.pkt t.source t.allocOnFill) := by
  unfold TargetFlags.updateFlags
  split
  · next snoop => exact ⟨covered.skip (by simp [snoop]), completes_same rfl⟩
  next demand =>
  have marked : ∀ needsWritable hasUpgrade allocOnFill hasFromCache, Covered blkSize targets
    { flags with needsWritable, hasUpgrade, allocOnFill, hasFromCache } := fun _ _ _ _ => { covered with }
  split
  · next prefetch => exact ⟨(marked ..).skip (by simp [prefetch]), completes_same rfl⟩
  · next other =>
    apply (marked ..).updateWriteFlags
    cases source : t.source <;> simp_all

end

end TargetFlags
namespace TargetList

/-- This list has no targets. -/
def fresh (blkAddr : BitVec 64) (blkSize : Nat) : TargetList :=
  { toTargetFlags := .resetFlags blkSize, targets := [], blkAddr, blkSize }

/-- This function adds targets one after the other. -/
def addAll (blkAddr : BitVec 64) (blkSize : Nat) (targets : List Target) : TargetList :=
  targets.foldl (fun list t => list.add t.pkt t.readyTime t.order t.source t.markedPending t.allocOnFill)
    (fresh blkAddr blkSize)

theorem addAll_concat (blkAddr : BitVec 64) (blkSize : Nat) (before : List Target) (t : Target) :
    addAll blkAddr blkSize (before ++ [t]) = (addAll blkAddr blkSize before).add t.pkt t.readyTime t.order t.source
      t.markedPending t.allocOnFill := by
  rw [addAll, foldl_append]
  rfl

theorem addAll_covered (blkAddr : BitVec 64) (blkSize : Nat) (targets : List Target) :
    (addAll blkAddr blkSize targets).blkSize = blkSize ∧
      TargetFlags.Covered blkSize targets (addAll blkAddr blkSize targets).toTargetFlags := by
  induction targets using reverseRecOn with
  | nil =>
    refine ⟨rfl, length_replicate .., fun byte marked => ?_, by simp⟩
    have never := mem_of_getElem? marked
    simp [addAll, fresh, TargetFlags.resetFlags] at never
  | append_singleton before t ih =>
    obtain ⟨size, covered⟩ := ih
    rw [addAll_concat]
    refine ⟨size, ?_⟩
    rw [add, updateFlags, size]
    exact (covered.updateFlags t _).1

end TargetList

theorem Packet.toNat_addr {pkt : Packet} (inBlock : pkt.getBlockAddr blkSize = blkAddr) :
    pkt.addr.toNat = blkAddr.toNat + pkt.getOffset blkSize := by
  have apart : blkAddr &&& (pkt.addr &&& (BitVec.ofNat 64 blkSize - 1)) = 0 := by
    rw [← inBlock, getBlockAddr]
    apply BitVec.eq_of_getLsbD_eq
    intro index _
    simp only [BitVec.getLsbD_and, BitVec.getLsbD_not]
    grind
  have whole : pkt.addr = blkAddr ||| (pkt.addr &&& (BitVec.ofNat 64 blkSize - 1)) := by
    rw [← inBlock, getBlockAddr]
    apply BitVec.eq_of_getLsbD_eq
    intro index inside
    simp only [BitVec.getLsbD_or, BitVec.getLsbD_and, BitVec.getLsbD_not]
    grind
  rw [getOffset, ← BitVec.toNat_add_of_and_eq_zero apart, BitVec.add_eq_or_of_and_eq_zero _ _ apart, ← whole]

namespace TargetList

theorem becomes_whole (notYet : (addAll blkAddr blkSize before).isWholeLineWrite = false)
    (whole : (addAll blkAddr blkSize (before ++ [t])).isWholeLineWrite = true) :
    ∀ other ∈ before ++ [t], other.source = .fromCPU → other.pkt.cmd.isWrite = true := by
  obtain ⟨size, covered⟩ := addAll_covered blkAddr blkSize before
  rw [addAll_concat, add, updateFlags, size] at whole
  exact (covered.updateFlags t _).2 notYet whole

/-- The demand packets of a list that becomes a whole line write are writes, and they write every byte of the block. A
demand packet that is no write keeps the list from becoming one. -/
theorem wholeLineWrite_covered (notYet : (addAll blkAddr blkSize before).isWholeLineWrite = false) :
    ((addAll blkAddr blkSize (before ++ [t])).isWholeLineWrite = true →
      (∀ other ∈ before ++ [t], other.source = .fromCPU → other.pkt.cmd.isWrite = true) ∧
      ((∀ other ∈ before ++ [t], other.pkt.getBlockAddr blkSize = blkAddr) → ∀ byte < blkSize, ∃ other ∈ before ++ [t],
        other.source = .fromCPU ∧ other.pkt.cmd.isWrite = true ∧ other.pkt.isMaskedWrite = false ∧
        other.pkt.addr.toNat ≤ blkAddr.toNat + byte ∧
        blkAddr.toNat + byte < other.pkt.addr.toNat + other.pkt.size)) ∧
    (t.source = .fromCPU → t.pkt.cmd.isWrite = false →
      ∀ after, (addAll blkAddr blkSize (before ++ t :: after)).isWholeLineWrite = false) := by
  refine ⟨fun whole => ⟨becomes_whole notYet whole, fun inBlock byte inside => ?_⟩, fun demand read after => ?_⟩
  · obtain ⟨length, written, _⟩ := (addAll_covered blkAddr blkSize (before ++ [t])).2
    have marked : (addAll blkAddr blkSize (before ++ [t])).writesBitmap[byte]? = some true := by
      rw [getElem?_eq_getElem (length.symm ▸ inside)]
      exact congrArg some (all_eq_true.mp whole _ (getElem_mem _))
    obtain ⟨other, member, writes⟩ := written byte marked
    have start := Packet.toNat_addr (inBlock other member)
    have inside := writes.inside
    exact ⟨other, member, writes.source, writes.isWrite, writes.unmasked, by omega, by omega⟩
  · induction after using List.reverseRecOn with
    | nil =>
      by_contra whole
      have isWrite := becomes_whole notYet (by simpa using whole) t (by simp) demand
      simp [read] at isWrite
    | append_singleton after last ih =>
      by_contra whole
      rw [← cons_append, ← append_assoc, Bool.not_eq_false] at whole
      have isWrite := becomes_whole ih whole t (by simp) demand
      simp [read] at isWrite

/-- This target writes four bytes. -/
def halfWrite (addr : BitVec 64) : Target :=
  ⟨{ Packet.atZero 1 .writeReq rfl 4 0 with addr }, 0, 0, .fromCPU, false, true⟩

/-- Two packets write the halves of a line of eight bytes. -/
theorem wholeLineWrite_covered_halves : (addAll 0 8 [halfWrite 0]).isWholeLineWrite = false ∧
    ∀ byte < 8, ∃ other ∈ [halfWrite 0, halfWrite 4], other.pkt.isMaskedWrite = false ∧
      other.pkt.addr.toNat ≤ byte ∧ byte < other.pkt.addr.toNat + other.pkt.size := by
  refine ⟨rfl, fun byte inside => ?_⟩
  have covered := (@wholeLineWrite_covered 8 0 [halfWrite 0] (halfWrite 4) rfl).1 rfl
  obtain ⟨other, member, _, _, unmasked, first, last⟩ := covered.2 (by decide) byte inside
  exact ⟨other, member, unmasked, by simpa using first, by simpa using last⟩

end TargetList
end Gem5
