import Gem5.Construction.Ruby.AluFreeListArray

namespace Gem5.Ruby.ALUParams
open List
variable {params : ALUParams} {curTick : Tick} {addr : Addr} {accesses : List (Tick × Addr)} {queue : List AccessRecord}
  {record : AccessRecord}

/-- A free access finds no record of its line. -/
theorem scan_eq_true {count : BitVec 32} (free : params.scan curTick addr count queue = true) :
    ∀ record ∈ queue, record.lineAddr ≠ params.makeLineAddress addr := by
  induction queue generalizing count with
  | nil => simp
  | cons first rest ih =>
    rw [scan, Bool.if_false_left, Bool.if_false_left, Bool.and_eq_true, Bool.and_eq_true] at free
    exact forall_mem_cons.mpr ⟨by simpa using free.2.1, ih free.2.2⟩

theorem mem_prune (member : record ∈ queue) (recent : ¬record.startTick < curTick - params.accessLatency) :
    record ∈ params.prune curTick queue := by
  have parts : params.prune curTick queue ++ queue.rtakeWhile _ = queue := rdropWhile_append_rtakeWhile
  rw [← parts, mem_append] at member
  refine member.resolve_right fun dropped => recent ?_
  simpa using mem_rtakeWhile_imp dropped

/-- The reservations were asked for, the recent ones are in the queue, and those of one line are apart. -/
structure Spaced (params : ALUParams) (accesses : List (Tick × Addr)) (state : List AccessRecord × List AccessRecord) :
    Prop where
  asked : ∀ record ∈ state.2, ∃ access ∈ accesses, params.record access.1 access.2 = record
  kept : ∀ record ∈ state.2, record ∈ state.1 ∨
    ∃ access ∈ accesses, record.startTick.toNat + params.accessLatency.toNat < access.1.toNat
  apart : state.2.Pairwise fun newer older => newer.lineAddr = older.lineAddr →
    older.startTick.toNat + params.accessLatency.toNat < newer.startTick.toNat

/-- An access keeps the reservations of a line apart if no tick wraps around. -/
theorem Spaced.access {state : List AccessRecord × List AccessRecord} (spaced : Spaced params accesses state)
    (ordered : ∀ access ∈ accesses, access.1 ≤ curTick) (late : params.accessLatency ≤ curTick) :
    Spaced params ((curTick, addr) :: accesses)
      (if (params.tryAccess curTick addr state.1).1 then
        (params.record curTick addr :: params.prune curTick state.1, params.record curTick addr :: state.2)
      else (params.prune curTick state.1, state.2)) := by
  have stays : ∀ record ∈ state.2, record ∈ params.prune curTick state.1 ∨
      record.startTick.toNat + params.accessLatency.toNat < curTick.toNat := by
    intro record member
    rcases spaced.kept record member with queued | ⟨access, before, stale⟩
    · by_cases recent : record.startTick < curTick - params.accessLatency
      · right
        bv_omega
      · exact .inl (mem_prune queued recent)
    · have less := ordered access before
      right
      bv_omega
  have asked : ∀ record ∈ state.2, ∃ access ∈ (curTick, addr) :: accesses, params.record access.1 access.2 = record :=
    fun record member => (spaced.asked record member).imp fun _ found => ⟨mem_cons_of_mem _ found.1, found.2⟩
  split
  · next free =>
    refine ⟨forall_mem_cons.mpr ⟨⟨_, mem_cons_self, rfl⟩, asked⟩, forall_mem_cons.mpr ⟨.inl mem_cons_self, ?_⟩,
      pairwise_cons.mpr ⟨?_, spaced.apart⟩⟩
    · exact fun record member => (stays record member).imp (mem_cons_of_mem _) fun stale => ⟨_, mem_cons_self, stale⟩
    · exact fun record member same =>
        (stays record member).resolve_left fun queued => scan_eq_true free record queued same.symm
  · exact ⟨asked, fun record member => (stays record member).imp_right fun stale => ⟨_, mem_cons_self, stale⟩,
      spaced.apart⟩

section Runs
variable (ordered : accesses.Pairwise fun newer older => older.1 ≤ newer.1)
  (late : ∀ access ∈ accesses, params.accessLatency ≤ access.1)
include ordered late

theorem Spaced.accessAll : Spaced params accesses (params.accessAll accesses) := by
  induction accesses with
  | nil => exact ⟨by simp [ALUParams.accessAll], by simp [ALUParams.accessAll], .nil⟩
  | cons access earlier ih =>
    rw [pairwise_cons] at ordered
    rw [forall_mem_cons] at late
    exact (ih ordered.2 late.2).access ordered.1 late.1

/-- At most `numALUs` accesses start in a tick, and those of one line start apart, if no access is early and no more lines
than that are asked for in a tick. -/
theorem alu_bandwidth
    (few : ∀ tick, ((accesses.filter (·.1 = tick)).map (params.makeLineAddress ·.2)).dedup.length ≤ params.numALUs.toNat) :
    (∀ tick, ((params.accessAll accesses).2.filter (·.startTick = tick)).length ≤ params.numALUs.toNat) ∧
      (params.accessAll accesses).2.Pairwise fun newer older => newer.lineAddr = older.lineAddr →
        older.startTick.toNat + params.accessLatency.toNat ≤ newer.startTick.toNat := by
  have spaced := Spaced.accessAll ordered late
  refine ⟨fun tick => (few tick).trans' ?_, spaced.apart.imp fun apart same => (apart same).le⟩
  rw [← length_map AccessRecord.lineAddr]
  refine (Nodup.subperm ?_ ?_).length_le
  · rw [Nodup, pairwise_map]
    refine (spaced.apart.filter _).imp_of_mem fun first second apart same => ?_
    have starts := apart same
    simp only [mem_filter, decide_eq_true_eq] at first second
    rw [first.2, second.2] at starts
    omega
  · intro line member
    obtain ⟨record, started, rfl⟩ := mem_map.mp member
    simp only [mem_filter, decide_eq_true_eq] at started
    obtain ⟨access, before, rfl⟩ := spaced.asked record started.1
    rw [mem_dedup]
    exact mem_map.mpr ⟨access, by simpa using ⟨before, started.2⟩, rfl⟩

end Runs

/-- Two lines are reserved in one tick, and the access to one of them two ticks later has to wait. -/
theorem alu_bandwidth_three :
    let reservations := ((ALUParams.mk 3 3 6).accessAll [(12, 0), (10, 64), (10, 0)]).2
    reservations = [⟨64, 10⟩, ⟨0, 10⟩] ∧ ∀ tick, (reservations.filter (·.startTick = tick)).length ≤ 3 :=
  ⟨by decide, (alu_bandwidth (by decide) (by simp)
    fun _ => ((dedup_sublist _).length_le.trans (length_map _).le).trans (length_filter_le _ _)).1⟩

/-- One unit starts two accesses in a tick, and a line starts again after one tick because the subtraction wraps. -/
theorem alu_bandwidth_exceeded :
    ((ALUParams.mk 1 3 6).accessAll [(10, 64), (10, 0)]).2 = [⟨64, 10⟩, ⟨0, 10⟩] ∧
      ((ALUParams.mk 1 3 6).accessAll [(1, 0), (0, 0)]).2 = [⟨0, 1⟩, ⟨0, 0⟩] := by
  decide

end Gem5.Ruby.ALUParams
