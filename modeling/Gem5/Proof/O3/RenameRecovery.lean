import Gem5.Proof.O3.RenameOwnership

namespace Gem5.O3
open ToMathlib Rename Function List

namespace Rename

section Undo
variable {squashed older : Nat} {history rest : List RenameHistory} {map : RegMap}

theorem undoTo_of_le (bounded : ∀ entry ∈ history, entry.instSeqNum ≤ squashed) :
    undoTo squashed history map = map := by
  cases history with
  | nil => rfl
  | cons entry history =>
    have first := bounded entry (by simp)
    rw [undoTo, if_neg (by omega)]

/-- Committed entries do not matter for a squash after them. -/
theorem undoTo_append_of_le (bounded : ∀ entry ∈ rest, entry.instSeqNum ≤ squashed) :
    undoTo squashed (history ++ rest) map = undoTo squashed history map := by
  induction history generalizing map with
  | nil => exact undoTo_of_le bounded
  | cons entry history ih =>
    rw [cons_append, undoTo, undoTo]
    split
    · exact ih
    · rfl

/-- Two squashes in turn restore the map of the older one. -/
theorem undoTo_undoTo : undoTo older (history.dropWhile fun entry => squashed < entry.instSeqNum)
      (undoTo squashed history map) = undoTo (min older squashed) history map := by
  induction history generalizing map with
  | nil => rfl
  | cons entry history ih =>
    by_cases younger : squashed < entry.instSeqNum
    · rw [dropWhile_cons_of_pos (by simpa using younger), undoTo, if_pos younger, ih, undoTo, if_pos (by omega)]
    · rw [dropWhile_cons_of_neg (by simpa using younger), undoTo.eq_2 squashed, if_neg younger]
      by_cases ordered : older ≤ squashed
      · rw [min_eq_left ordered]
      · rw [undoTo, undoTo, if_neg (by omega), if_neg (by omega)]

end Undo

/-- A snapshot is the map right after an instruction was renamed. -/
structure Snapshot where
  seqNum : Nat
  map : RegMap

/-- The youngest snapshot up to the number, or else the first map. -/
def mapAt (squashed : Nat) (base : RegMap) (snapshots : List Snapshot) : RegMap :=
  match snapshots.find? fun snapshot => snapshot.seqNum ≤ squashed with
  | none => base
  | some snapshot => snapshot.map

section Snapshots
variable {squashed older : Nat} {base : RegMap} {snapshots : List Snapshot} {snapshot : Snapshot}

theorem mapAt_cons_of_le (early : snapshot.seqNum ≤ squashed) :
    mapAt squashed base (snapshot :: snapshots) = snapshot.map := by
  rw [mapAt, find?_cons_of_pos (by simpa using early)]

theorem mapAt_cons_of_lt (late : squashed < snapshot.seqNum) :
    mapAt squashed base (snapshot :: snapshots) = mapAt squashed base snapshots := by
  rw [mapAt, find?_cons_of_neg (by simpa using late)]
  rfl

/-- After a squash every younger number finds the snapshot of the squash. -/
theorem mapAt_filter : mapAt older base (snapshots.filter fun snapshot => snapshot.seqNum ≤ squashed) =
    mapAt (min older squashed) base snapshots := by
  simp only [mapAt, find?_filter, le_min_iff, Bool.decide_and, Bool.and_comm, Bool.decide_eq_true]

/-- In a list from the youngest snapshot on, the found map is the one of the youngest number. -/
theorem mapAt_eq (sorted : snapshots.Pairwise fun newer older => older.seqNum < newer.seqNum)
    (member : snapshot ∈ snapshots) (early : snapshot.seqNum ≤ squashed)
    (youngest : ∀ other ∈ snapshots, other.seqNum ≤ squashed → other.seqNum ≤ snapshot.seqNum) :
    mapAt squashed base snapshots = snapshot.map := by
  induction snapshots with
  | nil => simp at member
  | cons first rest ih =>
    obtain ⟨below, sorted⟩ := pairwise_cons.mp sorted
    rcases mem_cons.mp member with rfl | later
    · exact mapAt_cons_of_le early
    · have smaller := below snapshot later
      by_cases fits : first.seqNum ≤ squashed
      · have bound := youngest first (by simp) fits
        omega
      · rw [mapAt_cons_of_lt (by omega)]
        exact ih sorted later fun other inside => youngest other (by simp [inside])

theorem mapAt_none (late : ∀ snapshot ∈ snapshots, squashed < snapshot.seqNum) :
    mapAt squashed base snapshots = base := by
  rw [mapAt, find?_eq_none.mpr]
  intro snapshot member
  simpa using late snapshot member

end Snapshots

/-- The renames that an instruction recorded so far can be undone to its start. -/
structure Undoes {numThreads : Nat} (start : Rename numThreads) (tid : Fin numThreads) (seqNum : Nat)
    (rename : Rename numThreads) : Prop where
  restores : ∀ squashed, squashed < seqNum → undoTo squashed (rename.historyBuffer tid) (rename.renameMap tid) =
      undoTo squashed (start.historyBuffer tid) (start.renameMap tid)
  bounded : ∀ entry ∈ rename.historyBuffer tid, entry.instSeqNum ≤ seqNum
  others : ∀ other, other ≠ tid → rename.renameMap other = start.renameMap other ∧
    rename.historyBuffer other = start.historyBuffer other

theorem Undoes.record {numThreads : Nat} {start rename next : Rename numThreads} {tid : Fin numThreads}
    {seqNum : Nat} {archReg : RegId} {newReg prevReg : PhysRegId} (undoes : Undoes start tid seqNum rename)
    (moves : Renamed rename next tid archReg newReg prevReg) :
    Undoes start tid seqNum
      (next.setHistory tid (⟨seqNum, archReg, newReg, prevReg⟩ :: next.historyBuffer tid)) := by
  constructor
  · intro squashed late
    rw [setHistory_self, setHistory_renameMap, undoTo, if_pos late, moves.undoMap, moves.history]
    exact undoes.restores squashed late
  · rw [setHistory_self, moves.history]
    exact forall_mem_cons.mpr ⟨le_rfl, undoes.bounded⟩
  · intro other different
    rw [setHistory_renameMap, setHistory_of_ne different, moves.history, moves.map_of_ne different]
    exact undoes.others other different

end Rename

/-- A trace remembers the maps of renamed instructions that are not squashed. -/
structure RenameTrace (numThreads : Nat) where
  rename : Rename numThreads
  lastRenamed : Fin numThreads → Nat
  lastCommitted : Fin numThreads → Nat
  snapshots : Fin numThreads → List Rename.Snapshot

namespace RenameTrace
variable {numThreads : Nat}

/-- Sequence numbers start at one. -/
def initial (rename : Rename numThreads) : RenameTrace numThreads := ⟨rename, fun _ => 0, fun _ => 0, fun _ => []⟩

/-- New instructions are younger, and squashes and commits are not older than the last commit. -/
def guard (trace : RenameTrace numThreads) : RenameOp numThreads → Prop
  | .rename tid inst => trace.lastRenamed tid < inst.seqNum
  | .squash tid squashed => trace.lastCommitted tid ≤ squashed
  | .commit tid committed => trace.lastCommitted tid ≤ committed
  | _ => True

/-- The trace after the rename stage has moved. -/
def record (trace : RenameTrace numThreads) (rename : Rename numThreads) : RenameOp numThreads → RenameTrace numThreads
  | .rename tid inst =>
    { trace with
      rename
      lastRenamed := update trace.lastRenamed tid inst.seqNum
      snapshots := update trace.snapshots tid
        (⟨inst.seqNum, rename.renameMap tid⟩ :: trace.snapshots tid) }
  | .squash tid squashed =>
    { trace with
      rename
      snapshots := update trace.snapshots tid
        ((trace.snapshots tid).filter fun snapshot => snapshot.seqNum ≤ squashed) }
  | .commit tid committed =>
    { trace with
      rename
      lastCommitted := update trace.lastCommitted tid committed }
  | _ => { trace with rename }

def step (trace : RenameTrace numThreads) (op : RenameOp numThreads) : Except Fault (RenameTrace numThreads) := do
  let rename ← trace.rename.step op
  .ok (trace.record rename op)

end RenameTrace

/-- Every squash after the last commit would restore the snapshot of its number. -/
structure RenameTrace.Recoverable {numThreads : Nat} (base : Fin numThreads → RegMap)
    (trace : RenameTrace numThreads) : Prop where
  tidy : trace.rename.Tidy
  bounded : ∀ tid, ∀ entry ∈ trace.rename.historyBuffer tid, entry.instSeqNum ≤ trace.lastRenamed tid
  limited : ∀ tid, ∀ snapshot ∈ trace.snapshots tid, snapshot.seqNum ≤ trace.lastRenamed tid
  sorted : ∀ tid, (trace.snapshots tid).Pairwise fun newer older => older.seqNum < newer.seqNum
  restores : ∀ tid squashed, trace.lastCommitted tid ≤ squashed →
    undoTo squashed (trace.rename.historyBuffer tid) (trace.rename.renameMap tid) =
      mapAt squashed (base tid) (trace.snapshots tid)

namespace RenameTrace.Recoverable
variable {numThreads : Nat} {base : Fin numThreads → RegMap} {trace : RenameTrace numThreads}
  {rename : Rename numThreads} {tid : Fin numThreads}

section
variable (held : trace.Recoverable base)
include held

/-- A step of one thread keeps the other threads recoverable. -/
theorem change {next : RenameTrace numThreads} (tidy : next.rename.Tidy)
    (others : ∀ other, other ≠ tid → next.rename.renameMap other = trace.rename.renameMap other ∧
      next.rename.historyBuffer other = trace.rename.historyBuffer other ∧
      next.lastRenamed other = trace.lastRenamed other ∧ next.lastCommitted other = trace.lastCommitted other ∧
      next.snapshots other = trace.snapshots other)
    (bounded : ∀ entry ∈ next.rename.historyBuffer tid, entry.instSeqNum ≤ next.lastRenamed tid)
    (limited : ∀ snapshot ∈ next.snapshots tid, snapshot.seqNum ≤ next.lastRenamed tid)
    (sorted : (next.snapshots tid).Pairwise fun newer older => older.seqNum < newer.seqNum)
    (restores : ∀ squashed, next.lastCommitted tid ≤ squashed →
      undoTo squashed (next.rename.historyBuffer tid) (next.rename.renameMap tid) =
        mapAt squashed (base tid) (next.snapshots tid)) : next.Recoverable base := by
  refine ⟨tidy, ?_, ?_, ?_, ?_⟩
  all_goals
    intro other
    by_cases same : other = tid
    · subst same
      assumption
    · obtain ⟨map, history, renamed, committed, snapshots⟩ := others other same
      simp only [map, history, renamed, committed, snapshots]
      first
        | exact held.bounded other
        | exact held.limited other
        | exact held.sorted other
        | exact held.restores other

/-- The renames of an instruction can be undone together. -/
theorem renamed {inst : RenameInst} (younger : trace.lastRenamed tid < inst.seqNum)
    (done : trace.rename.renameDestRegs tid inst = .ok rename) :
    (trace.record rename (.rename tid inst)).Recoverable base := by
  have start : Rename.Undoes trace.rename tid inst.seqNum trace.rename := by
    refine ⟨fun _ _ => rfl, ?_, fun _ _ => ⟨rfl, rfl⟩⟩
    intro entry member
    have bound := held.bounded tid entry member
    omega
  obtain ⟨tidy, undoes⟩ := renameDestRegs_spec (Rename.Undoes trace.rename tid inst.seqNum) held.tidy start
    (fun _ _ _ _ _ _ moves kept => kept.record moves) done
  refine held.change tidy (fun other different => ⟨(undoes.others other different).1, (undoes.others other different).2,
    update_of_ne different _ _, rfl, update_of_ne different _ _⟩) ?_ ?_ ?_ ?_ <;> simp only [record, update_self]
  · exact undoes.bounded
  · rw [forall_mem_cons]
    exact ⟨le_rfl, fun snapshot member => (held.limited tid snapshot member).trans younger.le⟩
  · rw [pairwise_cons]
    exact ⟨fun snapshot member => (held.limited tid snapshot member).trans_lt younger, held.sorted tid⟩
  · intro squashed late
    by_cases early : inst.seqNum ≤ squashed
    · rw [mapAt_cons_of_le early]
      apply undoTo_of_le
      intro entry member
      exact (undoes.bounded entry member).trans early
    · rw [mapAt_cons_of_lt (Nat.lt_of_not_le early), undoes.restores squashed (by omega)]
      exact held.restores tid squashed late

/-- A squash restores the map of its snapshot and keeps the older snapshots. -/
theorem squashed {number : Nat} (late : trace.lastCommitted tid ≤ number)
    (done : trace.rename.doSquash number tid = .ok rename) :
    (trace.record rename (.squash tid number)).Recoverable base := by
  obtain ⟨result, reached, tidy, _, history, map, others⟩ :=
    squashLoop_spec number (fun _ => True) held.tidy (Eq.refl (trace.rename.historyBuffer tid)) trivial
      fun _ _ _ _ _ _ => trivial
  obtain rfl := Except.ok.inj (reached.symm.trans done)
  refine held.change tidy (fun other different => ⟨(others other different).1, (others other different).2, rfl, rfl,
    update_of_ne different _ _⟩) ?_ ?_ ?_ ?_ <;> simp only [record, update_self]
  · intro entry member
    rw [history] at member
    exact held.bounded tid entry ((dropWhile_sublist _).mem member)
  · intro snapshot member
    exact held.limited tid snapshot (mem_of_mem_filter member)
  · exact (held.sorted tid).filter _
  · intro older committed
    rw [history, map, undoTo_undoTo, mapAt_filter]
    exact held.restores tid (min older number) (le_min committed late)

/-- A commit only forgets entries that no later squash undoes. -/
theorem committed {number : Nat} (late : trace.lastCommitted tid ≤ number) :
    (trace.record (trace.rename.removeFromHistory number tid) (.commit tid number)).Recoverable base := by
  obtain ⟨tidy, _, history, map, others⟩ :=
    commitLoop_spec number (fun _ => True) held.tidy
      (reverse_reverse (trace.rename.historyBuffer tid)).symm trivial fun _ _ _ _ _ _ => trivial
  have split : trace.rename.historyBuffer tid = (trace.rename.removeFromHistory number tid).historyBuffer tid ++
        ((trace.rename.historyBuffer tid).reverse.takeWhile fun entry => entry.instSeqNum ≤ number).reverse := by
    rw [removeFromHistory, history, ← reverse_append, takeWhile_append_dropWhile, reverse_reverse]
  refine held.change tidy (fun other different => ⟨congrFun map other, others other different, rfl,
    update_of_ne different _ _, rfl⟩) ?_ (held.limited tid) (held.sorted tid) ?_ <;> simp only [record, update_self]
  · intro entry member
    apply held.bounded tid entry
    rw [split]
    exact mem_append_left _ member
  · intro older committed
    have sameMap : (trace.rename.removeFromHistory number tid).renameMap = trace.rename.renameMap := map
    have removed : ∀ entry ∈ ((trace.rename.historyBuffer tid).reverse.takeWhile
        fun entry => entry.instSeqNum ≤ number).reverse, entry.instSeqNum ≤ older := by
      intro entry member
      have taken := all_eq_true.mp all_takeWhile entry (mem_reverse.mp member)
      exact (of_decide_eq_true taken).trans committed
    rw [← held.restores tid older (late.trans committed), sameMap, ← undoTo_append_of_le removed, ← split]

/-- A release moves registers of squashed instructions only. -/
theorem released : (trace.record (trace.rename.release tid) (.release tid)).Recoverable base := by
  have tidy := held.tidy.release tid
  obtain ⟨freeList, freeingInProgress, shape⟩ : ∃ freeList freeingInProgress,
      trace.rename.release tid = { trace.rename with freeList, freeingInProgress } :=
    ⟨_, _, by rw [release, addRegs_eq]; rfl⟩
  rw [shape] at tidy ⊢
  exact { held with tidy }

theorem step {op : RenameOp numThreads} {next : RenameTrace numThreads} (allowed : trace.guard op)
    (stepped : trace.step op = .ok next) : next.Recoverable base := by
  obtain ⟨rename, moved, rfl⟩ := bind_ok_eq_ok.mp stepped
  cases op with
  | rename tid inst => exact held.renamed allowed moved
  | squash tid number => exact held.squashed allowed moved
  | commit tid number =>
    cases moved
    exact held.committed allowed
  | release tid =>
    cases moved
    exact held.released
  | pin reg writes toComplete =>
    cases moved
    exact { held with tidy := { held.tidy with } }

end

end RenameTrace.Recoverable

def renameTrace (numThreads : Nat) : Machine (RenameTrace numThreads) (RenameOp numThreads) Fault :=
  ⟨RenameTrace.guard, RenameTrace.step⟩

/-- The processor starts with registers of the right class everywhere and with empty histories. -/
structure Rename.Fresh {numThreads : Nat} (start : Rename numThreads) : Prop where
  mapClass : ∀ tid regClass, regClass.isRenameable → ∀ reg ∈ start.renameMap tid regClass, reg.regClass = regClass
  freeClass : ∀ regClass, regClass.isRenameable → ∀ reg ∈ start.freeList regClass, reg.regClass = regClass
  history : ∀ tid, start.historyBuffer tid = []

theorem Rename.Fresh.recoverable {numThreads : Nat} {start : Rename numThreads} (fresh : start.Fresh) :
    (RenameTrace.initial start).Recoverable start.renameMap := by
  have undoable : ∀ tid, Undoable (start.historyBuffer tid) (start.renameMap tid) := by
    intro tid
    rw [fresh.history]
    trivial
  refine ⟨⟨fresh.mapClass, fresh.freeClass, undoable⟩, ?_, ?_, ?_, ?_⟩
  · intro tid entry member
    change entry ∈ start.historyBuffer tid at member
    rw [fresh.history] at member
    simp at member
  · intro tid snapshot member
    simp [RenameTrace.initial] at member
  · intro tid
    exact List.Pairwise.nil
  · intro tid squashed _
    change undoTo squashed (start.historyBuffer tid) (start.renameMap tid) = start.renameMap tid
    rw [fresh.history, undoTo]

/-- After every run a squash succeeds and restores the map right after the youngest remaining instruction was
renamed, or the first map if no instruction remains. -/
theorem Rename.doSquash_restores {numThreads : Nat} {start : Rename numThreads} {ops : List (RenameOp numThreads)}
    {trace : RenameTrace numThreads} (fresh : start.Fresh)
    (run : (renameTrace numThreads).Run (RenameTrace.initial start) ops trace)
    (tid : Fin numThreads) (squashed : Nat) (late : trace.lastCommitted tid ≤ squashed) :
    ∃ next, trace.rename.doSquash squashed tid = .ok next ∧
      (∀ snapshot ∈ trace.snapshots tid, snapshot.seqNum ≤ squashed →
        (∀ other ∈ trace.snapshots tid, other.seqNum ≤ squashed → other.seqNum ≤ snapshot.seqNum) →
        ∀ regClass, regClass.isRenameable → next.renameMap tid regClass = snapshot.map regClass) ∧
      ((∀ snapshot ∈ trace.snapshots tid, squashed < snapshot.seqNum) →
        ∀ regClass, regClass.isRenameable → next.renameMap tid regClass = start.renameMap tid regClass) := by
  have held : trace.Recoverable start.renameMap := by
    apply run.invariant (RenameTrace.Recoverable start.renameMap) fresh.recoverable
    intro state op next held allowed stepped
    exact held.step allowed stepped
  obtain ⟨next, reached, _, _, _, map, _⟩ :=
    squashLoop_spec squashed (fun _ => True) held.tidy (Eq.refl (trace.rename.historyBuffer tid)) trivial
      fun _ _ _ _ _ _ => trivial
  have restored := map.trans (held.restores tid squashed late)
  refine ⟨next, reached, ?_, ?_⟩
  · intro snapshot member early youngest regClass _
    rw [restored, mapAt_eq (held.sorted tid) member early youngest]
  · intro none regClass _
    rw [restored, mapAt_none none]

def Rename.sampleTwoFree : Rename 1 :=
  { sampleStart with
    freeList := fun regClass => if regClass = .intReg then [⟨.intReg, 2⟩, ⟨.intReg, 3⟩] else [] }

/-- A squash of the second of two writers of a register restores the map of the first one. -/
theorem Rename.doSquash_restores_secondWriter : ∃ trace next, (renameTrace 1).Run (RenameTrace.initial sampleTwoFree)
      [.rename 0 ⟨3, [⟨.intReg, 1, 0⟩]⟩, .rename 0 ⟨1, [⟨.intReg, 1, 0⟩]⟩] trace ∧
    trace.rename.renameMap 0 .intReg = [⟨.intReg, 0⟩, ⟨.intReg, 3⟩] ∧
    trace.rename.doSquash 2 0 = .ok next ∧ next.renameMap 0 .intReg = [⟨.intReg, 0⟩, ⟨.intReg, 2⟩] := by
  have fresh : sampleTwoFree.Fresh := by
    refine ⟨?_, ?_, fun _ => rfl⟩
    · intro tid regClass _ reg member
      cases regClass <;> simp_all [sampleTwoFree, sampleStart]
      rcases member with rfl | rfl <;> rfl
    · intro regClass _ reg member
      cases regClass <;> simp_all [sampleTwoFree]
      rcases member with rfl | rfl <;> rfl
  obtain ⟨trace, run, map, committed, newer, older, shape, three, one, first⟩ : ∃ trace, (renameTrace 1).Run (RenameTrace.initial sampleTwoFree)
        [.rename 0 ⟨3, [⟨.intReg, 1, 0⟩]⟩, .rename 0 ⟨1, [⟨.intReg, 1, 0⟩]⟩] trace ∧
      trace.rename.renameMap 0 .intReg = [⟨.intReg, 0⟩, ⟨.intReg, 3⟩] ∧ trace.lastCommitted 0 = 0 ∧
      ∃ newer older, trace.snapshots 0 = [newer, older] ∧ newer.seqNum = 3 ∧ older.seqNum = 1 ∧
        older.map .intReg = [⟨.intReg, 0⟩, ⟨.intReg, 2⟩] :=
    ⟨_, .cons (.cons .nil (by decide : 0 < 1) rfl) (by decide : 1 < 3) rfl, rfl, rfl, _, _, rfl, rfl, rfl, rfl⟩
  obtain ⟨next, done, restored, _⟩ := doSquash_restores fresh run 0 2 (by omega)
  refine ⟨trace, next, run, map, done, ?_⟩
  rw [shape] at restored
  rw [restored older (by simp) (by omega) (by simp [three, one]) .intReg (by decide), first]

end Gem5.O3
