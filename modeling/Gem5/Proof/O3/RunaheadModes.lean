import Gem5.Construction.O3.Runahead

namespace Gem5.O3
open ToMathlib RptFiles

namespace RPTEntry
variable {entry : RPTEntry}

/-- The entry after the execution of its load. -/
def observe (entry : RPTEntry) (address : BitVec 64) : RPTEntry :=
  let newStride := address - entry.prevAddr
  let strideCorr : Bool := newStride = entry.stride && newStride ≠ 0
  { (entry.stateTrans strideCorr).updateStride strideCorr newStride with prevAddr := address }

theorem stateTrans_tag (entry : RPTEntry) (corr : Bool) (newStride : BitVec 64) :
    ((entry.stateTrans corr).updateStride corr newStride).tag = entry.tag := by
  cases state : entry.state <;> cases corr <;> simp [stateTrans, updateStride, state]

/-- Every transition without a correct stride stores the new one. -/
theorem stateTrans_stride {corr : Bool} {newStride : BitVec 64} (same : corr = true → newStride = entry.stride) :
    ((entry.stateTrans corr).updateStride corr newStride).stride = newStride := by
  cases state : entry.state <;> cases corr <;> simp_all [stateTrans, updateStride]

theorem observe_stride (entry : RPTEntry) (address : BitVec 64) :
    (entry.observe address).stride = address - entry.prevAddr := by
  apply stateTrans_stride
  intro corr
  simp only [Bool.and_eq_true, decide_eq_true_eq] at corr
  exact corr.1

theorem observe_of_corr {address : BitVec 64} (corr : address - entry.prevAddr = entry.stride)
    (moves : entry.stride ≠ 0) : entry.observe address = { entry.stateTrans true with prevAddr := address } := by
  have right : (decide (entry.stride = entry.stride) && decide (entry.stride ≠ 0)) = true := by simpa using moves
  unfold observe
  dsimp only
  rw [corr, right]
  unfold updateStride
  simp

/-- Three executions with one stride train an entry. -/
theorem observe_steady {stride first second third : BitVec 64} (moves : stride ≠ 0)
    (start : first - entry.prevAddr = stride) (next : second - first = stride) (last : third - second = stride) :
    (((entry.observe first).observe second).observe third).state = .steady ∧
      (((entry.observe first).observe second).observe third).canPrf = true := by
  have learned : (entry.observe first).stride = stride := (observe_stride ..).trans start
  have again : ((entry.observe first).observe second).stride = stride := (observe_stride ..).trans next
  rw [observe_of_corr (last.trans again.symm) (again ▸ moves),
    observe_of_corr (next.trans learned.symm) (learned ▸ moves)]
  cases state : (entry.observe first).state <;> simp [stateTrans, state]

end RPTEntry

namespace RptFiles
variable {files : RptFiles} {pc other : BitVec 64} {entry : RPTEntry}

theorem hit_store (tag : entry.tag = files.tag pc) : (files.store pc entry).hit pc = some entry := by
  simp [hit, store, idx, RptFiles.tag, tag]

/-- The table has the entry of the load with its tag. -/
def entryOf (files : RptFiles) (pc : BitVec 64) : RPTEntry := (files.hit pc).getD (.new (files.tag pc))

theorem hit_tag (found : files.hit pc = some entry) : entry.tag = files.tag pc := by
  have filtered := Option.filter_eq_some_iff.mp found
  simpa using filtered.2

/-- A new entry is found, and an old one stays. -/
theorem hit_createNewEntry : (files.createNewEntry pc).hit pc = some (files.entryOf pc) := by
  unfold createNewEntry entryOf
  cases found : files.hit pc with
  | none => exact hit_store rfl
  | some entry => exact found

/-- An executed load updates its entry. -/
theorem updateEntry_createNewEntry (address : BitVec 64) : (files.createNewEntry pc).updateEntry pc address =
    .ok ((files.createNewEntry pc).store pc ((files.entryOf pc).observe address)) := by
  unfold updateEntry
  rw [hit_createNewEntry]
  rfl

theorem hit_updateEntry (address : BitVec 64) :
    ((files.createNewEntry pc).store pc ((files.entryOf pc).observe address)).hit pc =
      some ((files.entryOf pc).observe address) := by
  apply hit_store
  have found : (files.createNewEntry pc).hit pc = some (files.entryOf pc) := hit_createNewEntry
  rw [← hit_tag found]
  exact RPTEntry.stateTrans_tag ..

theorem getRptStats_of_hit (found : files.hit pc = some entry) : files.getRptStats pc = entry.canPrf := by
  simp [getRptStats, found]

theorem getRptStats_store (tag : entry.tag = files.tag pc) : (files.store pc entry).getRptStats pc = entry.canPrf :=
  getRptStats_of_hit (hit_store tag)

/-- A load that cannot be prefetched returns no flag. -/
theorem updateEntrySeen_of_not (stays : files.getRptStats pc = false) :
    (files.updateEntrySeen pc).1 = (false, false) ∧ (files.updateEntrySeen pc).2.getRptStats pc = false := by
  unfold updateEntrySeen
  cases found : files.hit pc with
  | none => exact ⟨rfl, stays⟩
  | some entry =>
    rw [getRptStats_of_hit found] at stays
    simp only [stays, Bool.false_eq_true, false_and, if_false, true_and]
    have tag := hit_tag found
    exact getRptStats_store tag

/-- A load of another loop returns only the flag `clear_vtt`, and a load of the same loop returns both flags. -/
theorem updateEntrySeen_of (prefetches : files.getRptStats pc = true) :
    (files.updateEntrySeen pc).1 = (decide (files.strideLoadPC = pc), true) ∧
      (files.updateEntrySeen pc).2.getRptStats pc = true := by
  unfold updateEntrySeen
  cases found : files.hit pc with
  | none =>
    rw [getRptStats, found] at prefetches
    contradiction
  | some entry =>
    rw [getRptStats_of_hit found] at prefetches
    have tag := hit_tag found
    by_cases same : files.strideLoadPC = pc
    · simp only [prefetches, same, ne_eq, not_true_eq_false, and_false, if_false, and_self, if_true, decide_true]
      exact ⟨trivial, getRptStats_store tag⟩
    · simp only [prefetches, same, ne_eq, not_false_eq_true, and_self, if_true, decide_false]
      exact ⟨trivial, getRptStats_store tag⟩

end RptFiles

def runaheads : Machine Runahead RunaheadOp Fault := ⟨fun _ _ => True, Runahead.step⟩

namespace Runahead
variable {dvr next : Runahead} {inst : DispatchInst} {pc : BitVec 64} {history : List RunaheadOp}

/-- The instruction is a load with an entry that can prefetch. -/
def Prefetches (dvr : Runahead) (inst : DispatchInst) : Prop :=
  inst.isAtomic = false ∧ inst.isLoad = true ∧ dvr.rpts.getRptStats inst.pc = true

instance : Decidable (dvr.Prefetches inst) := inferInstanceAs (Decidable (_ ∧ _ ∧ _))

/-- Only the table of strides changes. -/
theorem seeLoad_eq : ∃ rpts, (dvr.seeLoad inst).2 = { dvr with rpts } := by
  unfold seeLoad
  split
  · exact ⟨_, rfl⟩
  · exact ⟨dvr.rpts, rfl⟩

theorem seeLoad_of_not (stays : ¬ dvr.Prefetches inst) : (dvr.seeLoad inst).1 = ⟨false, false, false⟩ := by
  unfold seeLoad
  split
  · next load =>
      have not : dvr.rpts.getRptStats inst.pc = false := by
        rw [Bool.eq_false_iff]
        intro prefetches
        exact stays ⟨load.1, load.2, prefetches⟩
      obtain ⟨flags, stats⟩ := updateEntrySeen_of_not not
      simp only [flags, stats]
  · rfl

/-- The call exchanges the flags. -/
theorem seeLoad_of (prefetches : dvr.Prefetches inst) :
    (dvr.seeLoad inst).1 = ⟨decide (dvr.rpts.strideLoadPC = inst.pc), true, true⟩ := by
  obtain ⟨atomic, load, stats⟩ := prefetches
  obtain ⟨flags, after⟩ := updateEntrySeen_of stats
  rw [seeLoad, if_pos ⟨atomic, load⟩]
  simp only [flags, after]

/-- The mode is switched with the flags of the instruction. -/
theorem step_dispatch_eq : dvr.step (.dispatch inst) = match dvr.mode with
    | .init => (dvr.seeLoad inst).2.leaveInit inst (dvr.seeLoad inst).1
    | .discover => ((dvr.seeLoad inst).2.leaveDiscover inst (dvr.seeLoad inst).1 0 0).map Prod.fst
    | .vector => (dvr.seeLoad inst).2.leaveVector inst (dvr.seeLoad inst).1 0 0
    | .wait => (dvr.seeLoad inst).2.leaveWait inst (dvr.seeLoad inst).1 := by
  obtain ⟨rpts, shape⟩ := @seeLoad_eq dvr inst
  have same : (dvr.seeLoad inst).2.mode = dvr.mode := by rw [shape]
  unfold step dispatch
  dsimp only
  rw [same]
  cases dvr.mode with
  | init => cases (dvr.seeLoad inst).2.leaveInit inst (dvr.seeLoad inst).1 <;> rfl
  | discover => rfl
  | vector => cases (dvr.seeLoad inst).2.leaveVector inst (dvr.seeLoad inst).1 0 0 <;> rfl
  | wait => cases (dvr.seeLoad inst).2.leaveWait inst (dvr.seeLoad inst).1 <;> rfl

theorem towait_of_clearVtt (clear : (dvr.seeLoad inst).1.clearVtt = true) : (dvr.seeLoad inst).1.towait = true := by
  by_cases prefetches : dvr.Prefetches inst
  · rw [seeLoad_of prefetches]
  · rw [seeLoad_of_not prefetches] at clear
    contradiction

theorem dispatch_wait (mode : dvr.mode = .wait) (done : dvr.step (.dispatch inst) = .ok next) : next.mode = .wait := by
  obtain ⟨rpts, shape⟩ := @seeLoad_eq dvr inst
  rw [step_dispatch_eq, mode] at done
  dsimp only at done
  unfold leaveWait at done
  split at done
  · next leaves =>
      have waits := towait_of_clearVtt leaves.1
      cases leaves.2.symm.trans waits
  · cases done
    rw [shape]
    exact mode

/-- A dispatch in the vector mode stays in it, or it enters the wait mode after the load of the same loop. -/
theorem dispatch_vector (mode : dvr.mode = .vector) (done : dvr.step (.dispatch inst) = .ok next) :
    next.mode = if dvr.Prefetches inst ∧ dvr.rpts.strideLoadPC = inst.pc then .wait else .vector := by
  obtain ⟨rpts, shape⟩ := @seeLoad_eq dvr inst
  rw [step_dispatch_eq, mode] at done
  unfold leaveVector at done
  by_cases prefetches : dvr.Prefetches inst
  · rw [seeLoad_of prefetches] at done
    by_cases same : dvr.rpts.strideLoadPC = inst.pc
    · rw [if_pos ⟨prefetches, same⟩]
      simp only [same, decide_true, and_self, if_true, Except.ok.injEq] at done
      rw [← done]
    · rw [if_neg (fun both => same both.2)]
      simp [same] at done
      rw [← done, shape]
      exact mode
  · rw [if_neg (fun both => prefetches both.1)]
    rw [seeLoad_of_not prefetches] at done
    simp at done
    rw [← done, shape]
    exact mode

theorem dispatch_discover (mode : dvr.mode = .discover) (stays : ¬ dvr.Prefetches inst)
    (done : dvr.step (.dispatch inst) = .ok next) : next.mode = .discover := by
  obtain ⟨rpts, shape⟩ := @seeLoad_eq dvr inst
  rw [step_dispatch_eq, mode, seeLoad_of_not stays, shape] at done
  unfold leaveDiscover at done
  simp only [Bool.false_eq_true, if_false, and_false] at done
  cases processed : dvr.tk.process inst with
  | error fault =>
    simp only [processed] at done
    contradiction
  | ok tk =>
    simp only [processed] at done
    rw [← Except.ok.inj done]
    exact mode

theorem step_mode {op : RunaheadOp} (done : dvr.step op = .ok next) :
    (∃ inst, op = .dispatch inst) ∨ next.mode = dvr.mode := by
  cases op with
  | dispatch inst => exact .inl ⟨inst, rfl⟩
  | executeLoad pc effAddr | executeBranch pc npc operand =>
    obtain ⟨_, _, rfl⟩ := bind_ok_eq_ok.mp done
    exact .inr rfl

theorem run_wait (mode : dvr.mode = .wait) (run : runaheads.Run dvr history next) : next.mode = .wait := by
  apply run.invariant (fun dvr => dvr.mode = .wait) mode
  intro dvr op next mode _ stepped
  rcases step_mode stepped with ⟨inst, rfl⟩ | same
  · exact dispatch_wait mode stepped
  · exact same.trans mode

theorem run_vector (mode : dvr.mode = .vector) (run : runaheads.Run dvr history next) :
    next.mode = .vector ∨ next.mode = .wait := by
  apply run.invariant (fun dvr => dvr.mode = .vector ∨ dvr.mode = .wait) (.inl mode)
  intro dvr op next mode _ stepped
  rcases step_mode stepped with ⟨inst, rfl⟩ | same
  · rcases mode with vector | wait
    · have switched := dispatch_vector vector stepped
      split at switched
      · exact .inr switched
      · exact .inl switched
    · exact .inr (dispatch_wait wait stepped)
  · rwa [same]

/-- The execution of a load updates its entry. -/
theorem executeLoad_eq (dvr : Runahead) (pc effAddr : BitVec 64) : ∃ next, dvr.step (.executeLoad pc effAddr) = .ok next ∧
    next.mode = dvr.mode ∧ next.rpts.hit pc = some ((dvr.rpts.entryOf pc).observe effAddr) := by
  have stepped : dvr.step (.executeLoad pc effAddr) = (.ok ((dvr.rpts.createNewEntry pc).store pc
      ((dvr.rpts.entryOf pc).observe effAddr)) >>= fun rpts => .ok { dvr with
        rpts := if pc = rpts.strideLoadPC then { rpts with prevAddr := effAddr } else rpts }) := by
    rw [← updateEntry_createNewEntry]
    rfl
  refine ⟨_, stepped, rfl, ?_⟩
  split <;> exact hit_updateEntry effAddr

/-- A load that runs four times with one stride can be prefetched. -/
theorem exists_trained (dvr : Runahead) (pc : BitVec 64) : ∃ next, runaheads.Run dvr [.executeLoad pc 24,
    .executeLoad pc 16, .executeLoad pc 8, .executeLoad pc 0] next ∧ next.mode = dvr.mode ∧
    next.rpts.getRptStats pc = true := by
  obtain ⟨first, stepFirst, modeFirst, hitFirst⟩ := dvr.executeLoad_eq pc 0
  obtain ⟨second, stepSecond, modeSecond, hitSecond⟩ := first.executeLoad_eq pc 8
  obtain ⟨third, stepThird, modeThird, hitThird⟩ := second.executeLoad_eq pc 16
  obtain ⟨fourth, stepFourth, modeFourth, hitFourth⟩ := third.executeLoad_eq pc 24
  refine ⟨fourth, .cons (.cons (.cons (.cons .nil trivial stepFirst) trivial stepSecond) trivial stepThird) trivial
    stepFourth, ?_, ?_⟩
  · rw [modeFourth, modeThird, modeSecond, modeFirst]
  · rw [getRptStats_of_hit hitFourth, entryOf, hitThird, Option.getD_some, entryOf,
      hitSecond, Option.getD_some, entryOf, hitFirst, Option.getD_some]
    exact (RPTEntry.observe_steady (show (8 : BitVec 64) ≠ 0 by decide) (BitVec.sub_zero 8) (by decide) (by decide)).2

/-- The discover mode is entered for a load with a clean taint table. -/
structure Discovers (dvr : Runahead) (inst : DispatchInst) : Prop where
  mode : dvr.mode = .discover
  strideLoadPC : dvr.rpts.strideLoadPC = inst.pc
  tainted : ∀ reg : Nat, dvr.tk.regTable[reg]? = some true ↔ reg ∈ inst.dests

/-- The load of another loop leads from the wait mode and from the vector mode to the discover mode, the load of the
same loop leads from the vector mode to the wait mode, and the discover mode can be reached again. -/
structure SwitchesModes (dvr : Runahead) : Prop where
  wait : dvr.mode = .wait → ∀ inst next, dvr.Prefetches inst → inst.pc ≠ dvr.rpts.strideLoadPC →
    dvr.step (.dispatch inst) = .ok next → next.Discovers inst
  vector : dvr.mode = .vector → ∀ inst next, dvr.Prefetches inst → inst.pc ≠ dvr.rpts.strideLoadPC →
    dvr.step (.dispatch inst) = .ok next → next.mode = .discover
  again : dvr.mode = .vector → ∀ inst next, dvr.Prefetches inst → inst.pc = dvr.rpts.strideLoadPC →
    dvr.step (.dispatch inst) = .ok next → next.mode = .wait
  returns : ∃ history next, runaheads.Run dvr history next ∧ next.mode = .discover

/-- A load without destinations. -/
def sampleLoad (pc : BitVec 64) : DispatchInst := ⟨pc, false, true, [], []⟩

theorem returns_of_init (mode : dvr.mode = .init) :
    ∃ history next, runaheads.Run dvr history next ∧ next.mode = .discover := by
  obtain ⟨trained, run, same, prefetches⟩ := dvr.exists_trained 0
  obtain ⟨next, stepped, discovers⟩ : ∃ next, trained.step (.dispatch (sampleLoad 0)) = .ok next ∧
      next.mode = .discover := by
    rw [step_dispatch_eq, same.trans mode, seeLoad_of ⟨rfl, rfl, prefetches⟩]
    exact ⟨_, rfl, rfl⟩
  exact ⟨.dispatch (sampleLoad 0) :: _, next, .cons run trivial stepped, discovers⟩

/-- In every state of every run the modes are switched as intended if and only if the unit is in the initial mode or in
the discover mode. -/
theorem runahead_switchesModes (dvr : Runahead) : dvr.SwitchesModes ↔ dvr.mode = .init ∨ dvr.mode = .discover := by
  constructor
  · intro switches
    obtain ⟨history, next, later, discovers⟩ := switches.returns
    cases mode : dvr.mode with
    | init => exact .inl rfl
    | discover => exact .inr rfl
    | vector =>
      rcases run_vector mode later with vector | wait
      · cases discovers.symm.trans vector
      · cases discovers.symm.trans wait
    | wait => cases discovers.symm.trans (run_wait mode later)
  · intro mode
    have early : dvr.mode ≠ .wait ∧ dvr.mode ≠ .vector := by rcases mode with same | same <;> simp [same]
    refine ⟨fun wait => absurd wait early.1, fun vector => absurd vector early.2, fun vector => absurd vector early.2, ?_⟩
    rcases mode with init | discover
    · exact returns_of_init init
    · exact ⟨[], dvr, .nil, discover⟩

/-- The table of strides has 128 entries, and the predictor has 16 entries for up to 16 loops. -/
def sampleRunahead : Runahead := initial (.initial 128 (by decide) 0) 32 (.initial 16 (by decide) 16)

/-- Two loads run with one stride, and the first one is dispatched three times. -/
def sampleWaits : List RunaheadOp :=
  [.dispatch (sampleLoad 4), .dispatch (sampleLoad 4), .dispatch (sampleLoad 4), .executeLoad 8 16, .executeLoad 8 8,
    .executeLoad 4 16, .executeLoad 4 8]

/-- A run reaches the wait mode, where the load of another loop does not lead to the discover mode. -/
theorem runahead_wait_stuck : ∃ dvr next : Runahead, runaheads.Run sampleRunahead sampleWaits dvr ∧
    dvr.mode = .wait ∧ dvr.Prefetches (sampleLoad 8) ∧ (sampleLoad 8).pc ≠ dvr.rpts.strideLoadPC ∧
    dvr.step (.dispatch (sampleLoad 8)) = .ok next ∧ next.mode = .wait ∧ ¬ dvr.SwitchesModes := by
  exact ⟨_, _, .cons (.cons (.cons (.cons (.cons (.cons (.cons .nil trivial rfl) trivial rfl) trivial rfl) trivial rfl)
    trivial rfl) trivial rfl) trivial rfl, and_of_imp rfl fun mode => and_of_imp ⟨rfl, rfl, rfl⟩ fun prefetches =>
    and_of_imp (by decide) fun other => and_of_imp rfl fun stepped => and_of_imp rfl fun stays switches =>
    nomatch stays.symm.trans (switches.wait mode _ _ prefetches other stepped).mode⟩

/-- An instruction that is no prefetched load is dispatched. -/
def quietRunaheads : Machine Runahead RunaheadOp Fault where
  guard dvr op := ∀ inst, op = .dispatch inst → ¬ dvr.Prefetches inst
  step := Runahead.step

/-- The discover mode ends after 256 instructions without a prefetched load. -/
def TimesOut (dvr : Runahead) : Prop :=
  dvr.mode = .discover → ∀ history next, quietRunaheads.Run dvr history next →
    257 ≤ (history.countP fun op => op matches .dispatch _) →
    next.mode = .init ∧ (∀ reg : Nat, next.tk.regTable[reg]? ≠ some true) ∧ next.tk.finalLoadPC = 0

theorem quiet_discover (mode : dvr.mode = .discover) (run : quietRunaheads.Run dvr history next) :
    next.mode = .discover := by
  apply run.invariant (fun dvr => dvr.mode = .discover) mode
  intro dvr op next mode quiet stepped
  rcases step_mode stepped with ⟨inst, rfl⟩ | same
  · exact dispatch_discover mode (quiet inst rfl) stepped
  · exact same.trans mode

/-- An instruction without registers that is no load. -/
def sampleNop : DispatchInst := ⟨0, false, false, [], []⟩

theorem exists_quiet (mode : dvr.mode = .discover) (count : Nat) :
    ∃ next, quietRunaheads.Run dvr (List.replicate count (.dispatch sampleNop)) next := by
  induction count with
  | zero => exact ⟨dvr, .nil⟩
  | succ count ih =>
    obtain ⟨next, run⟩ := ih
    have still := quiet_discover mode run
    have quiet : ¬ next.Prefetches sampleNop := fun prefetches => absurd prefetches.2.1 (by decide)
    obtain ⟨last, stepped⟩ : ∃ last, next.step (.dispatch sampleNop) = .ok last := by
      rw [step_dispatch_eq, still, seeLoad_of_not quiet]
      exact ⟨_, rfl⟩
    refine ⟨last, .cons run ?_ stepped⟩
    intro inst same
    rw [← RunaheadOp.dispatch.inj same]
    exact quiet

theorem not_timesOut (mode : dvr.mode = .discover)
    (run : quietRunaheads.Run dvr (List.replicate 257 (.dispatch sampleNop)) next) : ¬ dvr.TimesOut := by
  intro timesOut
  have left := (timesOut mode _ next run (Nat.le_of_eq (by rw [List.countP_replicate, if_pos rfl]))).1
  cases left.symm.trans (quiet_discover mode run)

/-- In every state of every run the time out is kept if and only if the unit is not in the discover mode. -/
theorem runahead_timesOut (dvr : Runahead) : dvr.TimesOut ↔ dvr.mode ≠ .discover := by
  constructor
  · intro timesOut mode
    obtain ⟨next, run⟩ := exists_quiet mode 257
    exact not_timesOut mode run timesOut
  · intro other mode
    exact absurd mode other

/-- A run reaches the discover mode and does not leave it with 257 further instructions. -/
theorem runahead_timeOut_missed : ∃ dvr next : Runahead,
    runaheads.Run sampleRunahead [.dispatch (sampleLoad 4), .executeLoad 4 16, .executeLoad 4 8] dvr ∧
    dvr.mode = .discover ∧ quietRunaheads.Run dvr (List.replicate 257 (.dispatch sampleNop)) next ∧
    next.mode = .discover ∧ ¬ dvr.TimesOut := by
  obtain ⟨dvr, run, mode⟩ : ∃ dvr : Runahead,
      runaheads.Run sampleRunahead [.dispatch (sampleLoad 4), .executeLoad 4 16, .executeLoad 4 8] dvr ∧
      dvr.mode = .discover :=
    ⟨_, .cons (.cons (.cons .nil trivial rfl) trivial rfl) trivial rfl, rfl⟩
  obtain ⟨next, quiet⟩ := exists_quiet mode 257
  exact ⟨dvr, next, run, mode, quiet, quiet_discover mode quiet, not_timesOut mode quiet⟩

end Runahead

open Runahead Function

/-- A trace remembers the last address of every load and the number of loops that was found for the vector mode. -/
structure RunaheadTrace where
  dvr : Runahead
  lastAddr : BitVec 64 → Option (BitVec 64)
  loopNumber : BitVec 16

namespace RunaheadTrace

def initial (dvr : Runahead) : RunaheadTrace := ⟨dvr, fun _ => none, 0⟩

def step (trace : RunaheadTrace) : RunaheadOp → Except Fault RunaheadTrace
  | .dispatch inst => do
    let (dvr, loopNumber) ← trace.dvr.dispatch inst
    .ok { trace with
      dvr := dvr
      loopNumber := if trace.dvr.mode = .discover ∧ dvr.mode = .vector then loopNumber else trace.loopNumber }
  | .executeLoad pc effAddr => do
    let dvr ← trace.dvr.executeLoad pc effAddr
    .ok { trace with dvr := dvr, lastAddr := update trace.lastAddr pc (some effAddr) }
  | .executeBranch pc npc operand => do
    let dvr ← trace.dvr.executeBranch pc npc operand
    .ok { trace with dvr := dvr }

end RunaheadTrace

def runaheadTraces : Machine RunaheadTrace RunaheadOp Fault := ⟨fun _ _ => True, RunaheadTrace.step⟩

namespace RptFiles
variable {files : RptFiles} {pc other : BitVec 64} {entry : RPTEntry}

/-- The stride in the entry of a load. -/
def strideOf (files : RptFiles) (pc : BitVec 64) : BitVec 64 :=
  match files.hit pc with
  | some entry => entry.stride
  | none => 0

theorem eq_of_idx_tag (idx : files.idx pc = files.idx other) (tag : files.tag pc = files.tag other) : pc = other := by
  have left := BitVec.toNat_eq.mp idx
  have right := BitVec.toNat_eq.mp tag
  unfold RptFiles.idx at left
  unfold RptFiles.tag at right
  rw [BitVec.toNat_umod, BitVec.toNat_umod] at left
  rw [BitVec.toNat_udiv, BitVec.toNat_udiv] at right
  apply BitVec.eq_of_toNat_eq
  rw [← Nat.div_add_mod pc.toNat files.nSets.toNat, ← Nat.div_add_mod other.toNat files.nSets.toNat, left, right]

/-- A stored entry is found only for its load, and it hides the entries of other loads at its index. -/
theorem hit_store_of_ne (tag : entry.tag = files.tag pc) (different : other ≠ pc) :
    (files.store pc entry).hit other = if files.idx other = files.idx pc then none else files.hit other := by
  change (update files.rpt (files.idx pc) (some entry) (files.idx other)).filter _ = _
  rw [update_apply]
  split
  · next same =>
    have apart : entry.tag ≠ files.tag other := fun equal => different (eq_of_idx_tag same (equal.symm.trans tag))
    exact Option.filter_some_neg (decide_eq_false apart)
  · rfl

/-- The execution of a load removes the entries of other loads at its index. -/
theorem hit_executed {address : BitVec 64} (different : other ≠ pc) :
    ((files.createNewEntry pc).store pc ((files.entryOf pc).observe address)).hit other =
      if files.idx other = files.idx pc then none else files.hit other := by
  have tag : ((files.entryOf pc).observe address).tag = (files.createNewEntry pc).tag pc := by
    have created : (files.entryOf pc).tag = (files.createNewEntry pc).tag pc := hit_tag hit_createNewEntry
    rw [← created]
    exact RPTEntry.stateTrans_tag ..
  rw [hit_store_of_ne tag different]
  unfold createNewEntry
  split
  · rfl
  · rw [hit_store_of_ne rfl different]
    exact ite_eq_right_iff.mpr fun same => (if_pos same).symm

/-- The entries have the addresses of an earlier table. -/
def Keeps (files next : RptFiles) : Prop :=
  ∀ pc found, next.hit pc = some found → ∃ entry, files.hit pc = some entry ∧ found.prevAddr = entry.prevAddr

theorem keeps_clearAllSeen : files.Keeps files.clearAllSeen := by
  intro pc found hit
  obtain ⟨stored, tag⟩ := Option.filter_eq_some_iff.mp hit
  obtain ⟨entry, old, rfl⟩ := Option.map_eq_some_iff.mp stored
  exact ⟨entry, Option.filter_eq_some_iff.mpr ⟨old, tag⟩, rfl⟩

theorem Keeps.store {next : RptFiles} (keeps : files.Keeps next) (sets : next.nSets = files.nSets)
    (old : files.hit pc = some entry) {copy : RPTEntry} (tag : copy.tag = entry.tag)
    (prevAddr : copy.prevAddr = entry.prevAddr) : files.Keeps (next.store pc copy) := by
  have same : copy.tag = next.tag pc := by
    rw [tag, hit_tag old]
    unfold RptFiles.tag
    rw [sets]
  intro other found hit
  by_cases equal : other = pc
  · subst equal
    rw [hit_store same] at hit
    exact ⟨entry, old, by rw [← Option.some.inj hit, prevAddr]⟩
  · rw [hit_store_of_ne same equal, Option.ite_none_left_eq_some] at hit
    exact keeps other found hit.2

theorem keeps_updateEntrySeen : files.Keeps (files.updateEntrySeen pc).2 ∧
    (files.updateEntrySeen pc).2.prevAddr = files.prevAddr := by
  have refl : files.Keeps files := fun other found hit => ⟨found, hit, rfl⟩
  unfold updateEntrySeen
  cases old : files.hit pc with
  | none => exact ⟨refl, rfl⟩
  | some entry =>
    dsimp only
    split
    · have cleared : files.Keeps { files.clearAllSeen with strideLoadPC := pc } := keeps_clearAllSeen
      exact ⟨cleared.store rfl old rfl rfl, rfl⟩
    · split
      · exact ⟨keeps_clearAllSeen.store rfl old rfl rfl, rfl⟩
      · exact ⟨refl.store rfl old rfl rfl, rfl⟩

end RptFiles

namespace RunaheadTrace
variable {trace next : RunaheadTrace} {inst : DispatchInst} {dvr last : Runahead} {flags : DispatchFlags}

/-- The entries hold the last addresses of their loads. -/
def Follows (trace : RunaheadTrace) : Prop :=
  ∀ pc entry, trace.dvr.rpts.hit pc = some entry → trace.lastAddr pc = some entry.prevAddr

/-- The switch of the mode keeps the entries of the table. -/
def SameEntries (files next : RptFiles) : Prop := next.rpt = files.rpt ∧ next.nSets = files.nSets

theorem leaveInit_rpts (done : dvr.leaveInit inst flags = .ok last) : SameEntries dvr.rpts last.rpts := by
  unfold leaveInit at done
  split at done
  · obtain ⟨tk, _, rfl⟩ := bind_ok_eq_ok.mp done
    exact ⟨rfl, rfl⟩
  · cases done
    exact ⟨rfl, rfl⟩

theorem leaveDiscover_rpts {timeOut : BitVec 64} {loopNumber loops : BitVec 16}
    (done : dvr.leaveDiscover inst flags timeOut loopNumber = .ok (last, loops)) : SameEntries dvr.rpts last.rpts := by
  unfold leaveDiscover at done
  split at done
  · split at done <;> cases done <;> exact ⟨rfl, rfl⟩
  split at done
  · cases done
    exact ⟨rfl, rfl⟩
  · split at done
    all_goals
      obtain ⟨tk, _, done⟩ := bind_eq_ok.mp done
      cases done
      exact ⟨rfl, rfl⟩

theorem leaveVector_rpts {timeOut : BitVec 64} {loopNumber : BitVec 16}
    (done : dvr.leaveVector inst flags timeOut loopNumber = .ok last) : SameEntries dvr.rpts last.rpts := by
  unfold leaveVector at done
  dsimp only at done
  split at done
  · cases done
    exact ⟨rfl, rfl⟩
  · split at done
    · obtain ⟨tk, _, rfl⟩ := bind_ok_eq_ok.mp done
      exact ⟨rfl, rfl⟩
    · split at done <;> cases done <;> exact ⟨rfl, rfl⟩

theorem leaveWait_rpts (done : dvr.leaveWait inst flags = .ok last) : SameEntries dvr.rpts last.rpts := by
  unfold leaveWait at done
  split at done
  · obtain ⟨tk, _, rfl⟩ := bind_ok_eq_ok.mp done
    exact ⟨rfl, rfl⟩
  · cases done
    exact ⟨rfl, rfl⟩

theorem dispatch_rpts (done : dvr.step (.dispatch inst) = .ok last) :
    SameEntries (dvr.seeLoad inst).2.rpts last.rpts := by
  rw [step_dispatch_eq] at done
  split at done
  · exact leaveInit_rpts done
  · cases left : (dvr.seeLoad inst).2.leaveDiscover inst (dvr.seeLoad inst).1 0 0 with
    | error fault =>
      rw [left] at done
      contradiction
    | ok result =>
      rw [left] at done
      cases done
      exact leaveDiscover_rpts left
  · exact leaveVector_rpts done
  · exact leaveWait_rpts done

theorem hit_congr {files other : RptFiles} (same : SameEntries files other) (pc : BitVec 64) :
    other.hit pc = files.hit pc := by
  unfold hit RptFiles.idx RptFiles.tag
  rw [same.1, same.2]

theorem keeps_seeLoad (dvr : Runahead) (inst : DispatchInst) : dvr.rpts.Keeps (dvr.seeLoad inst).2.rpts ∧
    (dvr.seeLoad inst).2.rpts.prevAddr = dvr.rpts.prevAddr := by
  unfold seeLoad
  split
  · exact keeps_updateEntrySeen
  · exact ⟨fun pc found hit => ⟨found, hit, rfl⟩, rfl⟩

/-- The trace follows the dispatched instruction. -/
theorem step_dispatch (done : trace.step (.dispatch inst) = .ok next) :
    trace.dvr.step (.dispatch inst) = .ok next.dvr ∧ next.lastAddr = trace.lastAddr := by
  obtain ⟨⟨dvr, loopNumber⟩, dispatched, rfl⟩ := bind_ok_eq_ok.mp done
  refine ⟨?_, rfl⟩
  change (trace.dvr.dispatch inst).map Prod.fst = _
  rw [dispatched]
  rfl

theorem Follows.step {op : RunaheadOp} (held : trace.Follows) (done : trace.step op = .ok next) : next.Follows := by
  cases op with
  | dispatch inst =>
    obtain ⟨stepped, same⟩ := step_dispatch done
    intro pc entry hit
    rw [hit_congr (dispatch_rpts stepped)] at hit
    obtain ⟨old, found, prevAddr⟩ := (keeps_seeLoad trace.dvr inst).1 pc entry hit
    rw [same, held pc old found, prevAddr]
  | executeLoad pc effAddr =>
    obtain ⟨dvr, executed, rfl⟩ := bind_ok_eq_ok.mp done
    obtain ⟨rpts, updated, executed⟩ := bind_eq_ok.mp executed
    cases executed
    rw [updateEntry_createNewEntry] at updated
    cases updated
    intro other entry hit
    have hit : ((trace.dvr.rpts.createNewEntry pc).store pc
        ((trace.dvr.rpts.entryOf pc).observe effAddr)).hit other = some entry := by
      rw [← hit]
      split <;> rfl
    dsimp only
    by_cases same : other = pc
    · subst same
      rw [hit_updateEntry] at hit
      rw [update_self, ← Option.some.inj hit]
      rfl
    · rw [update_of_ne same]
      rw [hit_executed same, Option.ite_none_left_eq_some] at hit
      exact held other entry hit.2
  | executeBranch pc npc operand =>
    obtain ⟨dvr, executed, rfl⟩ := bind_ok_eq_ok.mp done
    obtain ⟨lbp, _, rfl⟩ := bind_ok_eq_ok.mp executed
    exact held

/-- The address that the wait mode should bound the prefetches with. -/
def bound (trace : RunaheadTrace) (address : BitVec 64) : BitVec 64 :=
  address + trace.loopNumber.setWidth 64 * trace.dvr.rpts.strideOf trace.dvr.rpts.strideLoadPC

/-- The wait mode begins with the last address of the table as its bound. -/
theorem wait_prefAddr (vector : dvr.mode = .vector) (done : dvr.step (.dispatch inst) = .ok last)
    (waits : last.mode = .wait) : dvr.Prefetches inst ∧ dvr.rpts.strideLoadPC = inst.pc ∧
      last.rpts.prefAddr = dvr.rpts.prevAddr := by
  have switched := dispatch_vector vector done
  rw [waits] at switched
  split at switched
  · next both =>
      refine ⟨both.1, both.2, ?_⟩
      rw [step_dispatch_eq, vector, seeLoad_of both.1, both.2] at done
      unfold leaveVector updatePrefAddr at done
      simp only [decide_true, and_self, if_true, Except.ok.injEq] at done
      rw [← done, ← (keeps_seeLoad dvr inst).2]
      simp
  · contradiction

/-- Along every run the wait mode begins with the intended bound if and only if the bound is the last address of the
table, because the number of loops is zero again. -/
theorem runahead_prefAddr {history : List RunaheadOp} {nSets : BitVec 64} {hasSets : nSets ≠ 0} {stride : BitVec 16}
    {numPhysIntRegs : Nat} {nEntry n : BitVec 8} {hasEntries : nEntry ≠ 0}
    (run : runaheadTraces.Run (initial (.initial (.initial nSets hasSets stride) numPhysIntRegs
      (.initial nEntry hasEntries n))) history trace)
    (vector : trace.dvr.mode = .vector) (stepped : trace.step (.dispatch inst) = .ok next)
    (waits : next.dvr.mode = .wait) : ∃ address, trace.lastAddr trace.dvr.rpts.strideLoadPC = some address ∧
      (next.dvr.rpts.prefAddr = trace.bound address ↔ trace.dvr.rpts.prevAddr = trace.bound address) := by
  have follows : trace.Follows := by
    apply run.invariant Follows
    · intro pc entry hit
      contradiction
    · intro state op next held _ stepped
      exact held.step stepped
  obtain ⟨prefetches, same, prefAddr⟩ := wait_prefAddr vector (step_dispatch stepped).1 waits
  have stats := prefetches.2.2
  rw [← same] at stats
  cases found : trace.dvr.rpts.hit trace.dvr.rpts.strideLoadPC with
  | none =>
    rw [getRptStats, found] at stats
    contradiction
  | some entry =>
    refine ⟨entry.prevAddr, follows _ entry found, ?_⟩
    rw [prefAddr]

/-- The load runs three times and is dispatched twice. -/
def sampleLoop : List RunaheadOp :=
  [.dispatch (sampleLoad 4), .executeLoad 4 24, .dispatch (sampleLoad 4), .executeLoad 4 16, .executeLoad 4 8]

/-- Without a branch the predictor returns 16 loops, but the bound stays at the last address. -/
theorem runahead_prefAddr_missed : ∃ trace next : RunaheadTrace,
    runaheadTraces.Run (initial sampleRunahead) sampleLoop trace ∧ trace.dvr.mode = .vector ∧
    trace.step (.dispatch (sampleLoad 4)) = .ok next ∧ next.dvr.mode = .wait ∧
    trace.lastAddr trace.dvr.rpts.strideLoadPC = some 24 ∧ trace.dvr.rpts.prevAddr = 24 ∧ trace.loopNumber = 16 ∧
    trace.dvr.rpts.strideOf trace.dvr.rpts.strideLoadPC = 8 ∧ trace.bound 24 = 152 ∧
    next.dvr.rpts.prefAddr = 24 :=
  ⟨_, _, .cons (.cons (.cons (.cons (.cons .nil trivial rfl) trivial rfl) trivial rfl) trivial rfl) trivial rfl, rfl,
    rfl, rfl, rfl, rfl, rfl, rfl, rfl, rfl⟩

/-- A predictor that found no loop makes the last address the intended bound. -/
theorem runahead_prefAddr_noLoops : ∃ trace next : RunaheadTrace, runaheadTraces.Run (initial sampleRunahead)
      [.dispatch (sampleLoad 4), .executeBranch 12 0 1, .executeLoad 4 24, .dispatch (sampleLoad 4),
        .executeLoad 4 16, .executeLoad 4 8] trace ∧
    trace.dvr.rpts.prevAddr = trace.bound 24 ∧ next.dvr.mode = .wait ∧
    next.dvr.rpts.prefAddr = trace.bound 24 := by
  obtain ⟨trace, next, run, vector, stepped, waits, last, prevAddr⟩ : ∃ trace next : RunaheadTrace,
      runaheadTraces.Run (initial sampleRunahead)
        [.dispatch (sampleLoad 4), .executeBranch 12 0 1, .executeLoad 4 24,
          .dispatch (sampleLoad 4), .executeLoad 4 16, .executeLoad 4 8] trace ∧
      trace.dvr.mode = .vector ∧ trace.step (.dispatch (sampleLoad 4)) = .ok next ∧ next.dvr.mode = .wait ∧
      trace.lastAddr trace.dvr.rpts.strideLoadPC = some 24 ∧ trace.dvr.rpts.prevAddr = trace.bound 24 :=
    ⟨_, _, .cons (.cons (.cons (.cons (.cons (.cons .nil trivial rfl) trivial rfl) trivial rfl) trivial rfl) trivial
      rfl) trivial rfl, rfl, rfl, rfl, rfl, rfl⟩
  obtain ⟨address, found, iff⟩ := runahead_prefAddr run vector stepped waits
  rw [last] at found
  cases found
  exact ⟨trace, next, run, prevAddr, waits, iff.mpr prevAddr⟩

end RunaheadTrace

/-- An executed load has a program counter and an address. -/
def rptLoads : Machine RptFiles (BitVec 64 × BitVec 64) Fault where
  guard _ _ := True
  step files load := (files.createNewEntry load.1).updateEntry load.1 load.2

/-- The addresses of a load since another load took its index, with the newest one first. -/
def sinceAllocation (nSets pc : BitVec 64) : List (BitVec 64 × BitVec 64) → List (BitVec 64)
  | [] => []
  | (other, address) :: earlier =>
    if pc = other then address :: sinceAllocation nSets pc earlier
    else if pc % nSets = other % nSets then [] else sinceAllocation nSets pc earlier

namespace RPTEntry

/-- The entry after the addresses of its load. -/
def learned (tag : BitVec 64) : List (BitVec 64) → Option RPTEntry
  | [] => none
  | address :: earlier => some (((learned tag earlier).getD (.new tag)).observe address)

variable (tag : BitVec 64)

/-- An entry starts at the address zero. -/
theorem learned_prevAddr (addresses : List (BitVec 64)) :
    ((learned tag addresses).getD (.new tag)).prevAddr = addresses.headD 0 := by
  cases addresses <;> rfl

theorem learned_stride (address : BitVec 64) (earlier : List (BitVec 64)) :
    (((learned tag earlier).getD (.new tag)).observe address).stride = address - earlier.headD 0 := by
  rw [observe_stride, learned_prevAddr]

end RPTEntry
open RPTEntry

/-- Every executed load finds an entry, and the entry of a load is learned from its own addresses. -/
theorem rpt_learns (nSets : BitVec 64) (hasSets : nSets ≠ 0) (stride : BitVec 16)
    (loads : List (BitVec 64 × BitVec 64)) : ∃ files, rptLoads.Run (initial nSets hasSets stride) loads files ∧
      ∀ pc, files.hit pc = learned (pc / nSets) (sinceAllocation nSets pc loads) ∧
        ∀ address earlier, sinceAllocation nSets pc loads = address :: earlier → ∃ entry, files.hit pc = some entry ∧
          entry.prevAddr = address ∧ entry.stride = address - earlier.headD 0 ∧
          ∀ second third before, earlier = second :: third :: before → address - second ≠ 0 →
            second - third = address - second → third - before.headD 0 = address - second →
            entry.state = .steady ∧ entry.canPrf = true := by
  have learns : ∃ files, rptLoads.Run (initial nSets hasSets stride) loads files ∧ files.nSets = nSets ∧
      ∀ pc, files.hit pc = learned (pc / nSets) (sinceAllocation nSets pc loads) := by
    induction loads with
    | nil => exact ⟨_, .nil, rfl, fun _ => rfl⟩
    | cons load earlier ih =>
      obtain ⟨files, run, sets, held⟩ := ih
      subst sets
      refine ⟨_, run.cons trivial (updateEntry_createNewEntry load.2), ?_, fun pc => ?_⟩
      · rw [createNewEntry]
        split <;> rfl
      · rw [sinceAllocation]
        split
        · next same =>
          subst same
          rw [hit_updateEntry, entryOf, held, learned]
          rfl
        · next different =>
          rw [hit_executed different, held]
          unfold idx
          split
          · rfl
          · rfl
  obtain ⟨files, run, _, held⟩ := learns
  refine ⟨files, run, fun pc => ⟨held pc, ?_⟩⟩
  intro address earlier since
  refine ⟨_, (held pc).trans (by rw [since, learned]), rfl, learned_stride .., ?_⟩
  rintro second third before rfl moves next start
  rw [← learned_prevAddr (pc / nSets)] at start
  exact observe_steady moves start next rfl

/-- Three loads with one stride from zero train their entry. -/
theorem rpt_learns_eight : ∃ files entry, rptLoads.Run (initial 4 (by decide) 0) [(1, 24), (1, 16), (1, 8)] files ∧
    files.hit 1 = some entry ∧ entry.state = .steady := by
  obtain ⟨files, run, learns⟩ := rpt_learns 4 (by decide) 0 [(1, 24), (1, 16), (1, 8)]
  obtain ⟨entry, hit, _, _, steady⟩ := (learns 1).2 24 [16, 8] rfl
  exact ⟨files, entry, run, hit, (steady 16 8 [] rfl (by decide) (by decide) (by decide)).1⟩

end Gem5.O3
