import Gem5.Construction.Mem.CommandBus

namespace Gem5.MemCtrl
open ToMathlib List

section Windows
variable {window first second : Nat}

theorem add_le_of_aligned (left : window ∣ first) (right : window ∣ second) (less : first < second) :
    first + window ≤ second := by
  have between := Nat.le_of_dvd (by omega) (Nat.dvd_sub right left)
  omega

theorem countP_le (window : Nat) (ticks : List Nat) (tick : Nat) :
    ticks.countP (tick + window ≤ ·) ≤ ticks.countP (tick ≤ ·) := by
  apply countP_mono_left
  intro other _ later
  simp only [decide_eq_true_eq] at later ⊢
  omega

/-- A window with a command has fewer commands after it than from it on. -/
theorem countP_lt (positive : 0 < window) (ticks : List Nat) (tick : Nat) (used : 0 < ticks.count tick) :
    ticks.countP (tick + window ≤ ·) < ticks.countP (tick ≤ ·) := by
  have split : ticks.count tick + ticks.countP (tick + window ≤ ·) ≤ ticks.countP (tick ≤ ·) := by
    clear used
    induction ticks with
    | nil => simp
    | cons head rest ih =>
      simp only [count_cons, countP_cons, beq_iff_eq, decide_eq_true_eq]
      split_ifs <;> omega
  omega

end Windows

namespace CommandLimits
variable {limits : CommandLimits} {bus : CommandBus} {pair : CommandPair} {cmd_tick max_multi_cmd_split start : Nat}

/-- No tick that a search can reach overflows. -/
abbrev Fits (limits : CommandLimits) (bus : CommandBus) (cmd_tick max_multi_cmd_split : Nat) : Prop :=
  (∀ tick ∈ bus.burstTicks, tick + 2 * limits.commandWindow < 2 ^ 64) ∧ cmd_tick + limits.commandWindow < 2 ^ 64 ∧
    max_multi_cmd_split + limits.commandWindow ≤ 2 ^ 64

theorem addWindow_eq {tick : Nat} (fits : tick + limits.commandWindow < 2 ^ 64) :
    limits.addWindow tick = tick + limits.commandWindow :=
  Nat.mod_eq_of_lt fits

/-- A search leaves a window that has a command without an overflow. -/
theorem Fits.used (fits : limits.Fits bus cmd_tick max_multi_cmd_split) (tick : Nat)
    (used : 0 < bus.burstTicks.count tick) : tick + 2 * limits.commandWindow < 2 ^ 64 :=
  fits.1 tick (count_pos_iff.mp used)

theorem getBurstWindow_placed (limits : CommandLimits) (cmd_tick : Nat) :
    limits.commandWindow ∣ limits.getBurstWindow cmd_tick ∧ limits.getBurstWindow cmd_tick ≤ cmd_tick ∧
      cmd_tick < limits.getBurstWindow cmd_tick + limits.commandWindow := by
  have offset := Nat.mod_lt cmd_tick limits.window
  refine ⟨Nat.dvd_sub_mod cmd_tick, Nat.sub_le _ _, ?_⟩
  simp only [getBurstWindow]
  omega

theorem getBurstWindow_eq {burst_tick : Nat} (aligned : limits.commandWindow ∣ burst_tick)
    (begins : burst_tick ≤ cmd_tick) (ends : cmd_tick < burst_tick + limits.commandWindow) :
    limits.getBurstWindow cmd_tick = burst_tick := by
  obtain ⟨offset, rfl⟩ := Nat.exists_eq_add_of_le begins
  have remainder : (burst_tick + offset) % limits.commandWindow = offset := by
    rw [Nat.add_mod, Nat.mod_eq_zero_of_dvd aligned, Nat.zero_add, Nat.mod_mod, Nat.mod_eq_of_lt (by omega)]
  simp [getBurstWindow, remainder]

/-- The first command starts its search in the window of the earliest tick that the split allows. -/
theorem firstCmdTick_eq (fits : max_multi_cmd_split + limits.commandWindow ≤ 2 ^ 64) :
    limits.firstCmdTick cmd_tick max_multi_cmd_split =
      .ok (limits.getBurstWindow (cmd_tick - max_multi_cmd_split)) := by
  have window := limits.window
  have remainder := Nat.mod_lt cmd_tick window
  -- The offset is the least number of windows that reaches the split.
  obtain ⟨burst_offset, done, ⟨whole, least⟩, reached⟩ := whileLoop_spec Fault.endlessLoop
    (fun offset => max_multi_cmd_split > (cmd_tick % limits.commandWindow + offset) % 2 ^ 64) limits.addWindow _ 0
    (fun offset => limits.commandWindow ∣ offset ∧ (offset = 0 ∨
      cmd_tick % limits.commandWindow + offset < max_multi_cmd_split + limits.commandWindow))
    (max_multi_cmd_split - ·)
    (fun offset held again => by
      rw [addWindow_eq (by omega)]
      exact ⟨⟨Nat.dvd_add held.1 (Nat.dvd_refl _), .inr (by omega)⟩, by omega⟩)
    ⟨Nat.dvd_zero _, .inl rfl⟩ (Nat.lt_succ_self max_multi_cmd_split)
  obtain ⟨aligned, begins, ends⟩ := limits.getBurstWindow_placed cmd_tick
  have offset : cmd_tick = limits.getBurstWindow cmd_tick + cmd_tick % limits.commandWindow :=
    (Nat.sub_add_cancel (Nat.mod_le _ _)).symm
  rw [firstCmdTick, done, ok_bind]
  symm
  apply congrArg Except.ok
  apply getBurstWindow_eq
  · rcases Nat.le_total burst_offset (limits.getBurstWindow cmd_tick) with within | beyond
    · rw [Nat.min_eq_left within]
      exact Nat.dvd_sub aligned whole
    · rw [Nat.min_eq_right beyond, Nat.sub_self]
      exact Nat.dvd_zero _
  · omega
  · omega

/-- The pair meets the request: its windows are in order from `start` on, and the second command is in its window, not
before the requested tick and not too far behind the first window. -/
structure Placed (limits : CommandLimits) (cmd_tick max_multi_cmd_split start : Nat) (pair : CommandPair) : Prop where
  first_aligned : limits.commandWindow ∣ pair.first_cmd_tick
  aligned : limits.commandWindow ∣ pair.burst_tick
  earliest : start ≤ pair.first_cmd_tick
  ordered : pair.first_cmd_tick ≤ pair.burst_tick
  begins : pair.burst_tick ≤ pair.cmd_at
  ends : pair.cmd_at < pair.burst_tick + limits.commandWindow
  requested : cmd_tick ≤ pair.cmd_at
  near : pair.cmd_at ≤ pair.first_cmd_tick + limits.commandWindow + max_multi_cmd_split
  fits : pair.first_cmd_tick + limits.commandWindow < 2 ^ 64

/-- This number bounds the passes that are left. -/
def passes (bus : CommandBus) (pair : CommandPair) : Nat :=
  2 * (bus.burstTicks.countP (pair.first_cmd_tick ≤ ·) + bus.burstTicks.countP (pair.burst_tick ≤ ·)) +
    if pair.burst_tick = pair.first_cmd_tick then 1 else 0

theorem passes_le (bus : CommandBus) (pair : CommandPair) : passes bus pair ≤ 4 * bus.burstTicks.length + 1 := by
  have first_le : bus.burstTicks.countP (pair.first_cmd_tick ≤ ·) ≤ bus.burstTicks.length := countP_le_length
  have second_le : bus.burstTicks.countP (pair.burst_tick ≤ ·) ≤ bus.burstTicks.length := countP_le_length
  rw [passes]
  split <;> omega

/-- A pass of a placed pair adds its windows without an overflow. -/
theorem Placed.shift_eq (placed : limits.Placed cmd_tick max_multi_cmd_split start pair)
    (fits : limits.Fits bus cmd_tick max_multi_cmd_split) :
    limits.shift bus max_multi_cmd_split pair =
      let burst_tick := if limits.second_can_issue bus pair then pair.burst_tick
        else pair.burst_tick + limits.commandWindow
      { burst_tick
        cmd_at := if limits.second_can_issue bus pair then pair.cmd_at else burst_tick
        first_cmd_tick := if ¬ limits.first_can_issue bus pair ∨ (¬ limits.second_can_issue bus pair ∧
            ¬ pair.burst_tick = pair.first_cmd_tick ∧ burst_tick - pair.first_cmd_tick > max_multi_cmd_split) then
            pair.first_cmd_tick + limits.commandWindow
          else pair.first_cmd_tick } := by
  have slots := limits.slots
  have ordered := placed.ordered
  have used := fits.used pair.burst_tick
  rw [shift, addWindow_eq placed.fits]
  by_cases second : limits.second_can_issue bus pair
  · simp [second]
  · have later : pair.burst_tick + limits.commandWindow < 2 ^ 64 := by
      by_cases common : pair.burst_tick = pair.first_cmd_tick
      · rw [common]
        exact placed.fits
      · rw [second_can_issue, if_neg common] at second
        omega
    have gap : (pair.burst_tick + limits.commandWindow + 2 ^ 64 - pair.first_cmd_tick) % 2 ^ 64 =
        pair.burst_tick + limits.commandWindow - pair.first_cmd_tick := by omega
    simp only [second, if_false, addWindow_eq later, gap]

/-- A pass that leaves a command without a slot keeps the pair placed and leaves fewer passes. -/
theorem Placed.shift (placed : limits.Placed cmd_tick max_multi_cmd_split start pair)
    (fits : limits.Fits bus cmd_tick max_multi_cmd_split)
    (again : ¬ limits.first_can_issue bus pair ∨ ¬ limits.second_can_issue bus pair) :
    limits.Placed cmd_tick max_multi_cmd_split start (limits.shift bus max_multi_cmd_split pair) ∧
      passes bus (limits.shift bus max_multi_cmd_split pair) < passes bus pair := by
  rw [placed.shift_eq fits]
  obtain ⟨cmd_at, burst_tick, first_cmd_tick⟩ := pair
  obtain ⟨first_aligned, aligned, earliest, ordered, begins, ends, requested, near, fitting⟩ := placed
  have slots := limits.slots
  have first_used := fits.used first_cmd_tick
  have second_used := fits.used burst_tick
  simp only [second_can_issue, first_can_issue] at *
  have apart := add_le_of_aligned first_aligned aligned
  have first_next := Nat.dvd_add first_aligned (Nat.dvd_refl _)
  have second_next := Nat.dvd_add aligned (Nat.dvd_refl _)
  constructor
  · -- The first command overtakes only a full window, and in a common window a full one stops the second as well.
    constructor <;> split_ifs at * <;> first | assumption | (dsimp only; omega)
  · -- A window is left because it is full, or once because both commands are in it.
    have first_less := countP_lt limits.window bus.burstTicks first_cmd_tick
    have second_less := countP_lt limits.window bus.burstTicks burst_tick
    have first_le := countP_le limits.commandWindow bus.burstTicks first_cmd_tick
    have second_le := countP_le limits.commandWindow bus.burstTicks burst_tick
    simp only [passes]
    split_ifs at * <;> omega

/-- A single command gets a tick in a window with a free slot, from the requested tick on. -/
theorem verifySingleCmd_spec (fits : limits.Fits bus cmd_tick max_multi_cmd_split) : ∃ cmd_at,
    limits.verifySingleCmd bus cmd_tick = .ok (cmd_at, bus.insert (limits.getBurstWindow cmd_at)) ∧
      cmd_tick ≤ cmd_at ∧ limits.getBurstWindow cmd_tick ≤ limits.getBurstWindow cmd_at ∧
      bus.burstTicks.count (limits.getBurstWindow cmd_at) < limits.max_cmds_per_burst := by
  have window := limits.window
  have slots := limits.slots
  obtain ⟨aligned, begins, ends⟩ := limits.getBurstWindow_placed cmd_tick
  obtain ⟨⟨cmd_at, burst_tick⟩, done, ⟨aligned, later, begins, ends, requested⟩, free⟩ := whileLoop_spec
    Fault.endlessLoop (fun slot : Nat × Nat => bus.burstTicks.count slot.2 ≥ limits.max_cmds_per_burst)
    (fun slot => (limits.addWindow slot.2, limits.addWindow slot.2)) _
    (cmd_tick, limits.getBurstWindow cmd_tick)
    (fun slot => limits.commandWindow ∣ slot.2 ∧ limits.getBurstWindow cmd_tick ≤ slot.2 ∧ slot.2 ≤ slot.1 ∧
      slot.1 < slot.2 + limits.commandWindow ∧ cmd_tick ≤ slot.1)
    (fun slot => bus.burstTicks.countP (slot.2 ≤ ·))
    (fun slot held full => by
      have used : 0 < bus.burstTicks.count slot.2 := by omega
      have later := fits.used slot.2 used
      rw [addWindow_eq (by omega)]
      exact ⟨⟨Nat.dvd_add held.1 (Nat.dvd_refl _), by omega⟩, countP_lt window bus.burstTicks slot.2 used⟩)
    ⟨aligned, Nat.le_refl _, begins, ends, Nat.le_refl _⟩ (Nat.lt_succ_of_le countP_le_length)
  have same : limits.getBurstWindow cmd_at = burst_tick := getBurstWindow_eq aligned begins ends
  refine ⟨cmd_at, ?_, requested, ?_⟩
  · rw [verifySingleCmd, done, same]
    rfl
  · rw [same]
    exact ⟨later, Nat.lt_of_not_ge free⟩

/-- A pair of commands gets two free slots, the second not before the requested tick, not before the window of the
first and not too far behind it. -/
theorem verifyMultiCmd_spec (fits : limits.Fits bus cmd_tick max_multi_cmd_split) :
    ∃ cmd_at first_cmd_tick, limits.verifyMultiCmd bus cmd_tick max_multi_cmd_split =
        .ok (cmd_at, (bus.insert (limits.getBurstWindow cmd_at)).insert first_cmd_tick) ∧
      (cmd_tick ≤ cmd_at ∧ first_cmd_tick ≤ limits.getBurstWindow cmd_at ∧
        cmd_at ≤ first_cmd_tick + limits.commandWindow + max_multi_cmd_split) ∧
      limits.getBurstWindow (cmd_tick - max_multi_cmd_split) ≤ first_cmd_tick ∧
      bus.burstTicks.count (limits.getBurstWindow cmd_at) < limits.max_cmds_per_burst ∧
      (bus.insert (limits.getBurstWindow cmd_at)).burstTicks.count first_cmd_tick < limits.max_cmds_per_burst := by
  obtain ⟨first_aligned, first_begins, first_ends⟩ := limits.getBurstWindow_placed (cmd_tick - max_multi_cmd_split)
  obtain ⟨aligned, begins, ends⟩ := limits.getBurstWindow_placed cmd_tick
  have behind := add_le_of_aligned aligned first_aligned
  obtain ⟨pair, done, placed, issue⟩ := whileLoop_spec Fault.endlessLoop
    (fun pair => ¬ limits.first_can_issue bus pair ∨ ¬ limits.second_can_issue bus pair)
    (limits.shift bus max_multi_cmd_split) _
    ⟨cmd_tick, limits.getBurstWindow cmd_tick, limits.getBurstWindow (cmd_tick - max_multi_cmd_split)⟩
    (limits.Placed cmd_tick max_multi_cmd_split (limits.getBurstWindow (cmd_tick - max_multi_cmd_split))) (passes bus)
    (fun pair placed again => placed.shift fits again)
    ⟨first_aligned, aligned, Nat.le_refl _, by dsimp only; omega, begins, ends, Nat.le_refl _, by dsimp only; omega,
      by dsimp only; omega⟩
    (Nat.lt_succ_of_le (passes_le _ _))
  simp only [not_or, not_not] at issue
  obtain ⟨first_free, free⟩ := issue
  rw [second_can_issue] at free
  have same : limits.getBurstWindow pair.cmd_at = pair.burst_tick :=
    getBurstWindow_eq placed.aligned placed.begins placed.ends
  refine ⟨pair.cmd_at, pair.first_cmd_tick, ?_, ⟨placed.requested, ?_, placed.near⟩, placed.earliest, ?_⟩
  · rw [verifyMultiCmd, firstCmdTick_eq fits.2.2, ok_bind, done, same]
    rfl
  · rw [same]
    exact placed.ordered
  · rw [same]
    simp only [CommandBus.insert, count_cons, beq_iff_eq]
    split at free
    · rename_i common
      rw [if_pos common, common]
      exact ⟨Nat.lt_of_succ_lt free, free⟩
    · rename_i apart
      rw [if_neg apart]
      exact ⟨free, first_free⟩

end CommandLimits

open CommandLimits

/-- The windows that are not pruned are counted in full, and no window has more commands than slots. -/
structure CommandBus.Bounded (limits : CommandLimits) (bus : CommandBus) : Prop where
  past : bus.pruned ≤ bus.curTick
  counted : ∀ tick, bus.pruned ≤ tick → bus.burstTicks.count tick = bus.assigned.count tick
  bounded : ∀ tick, bus.assigned.count tick ≤ limits.max_cmds_per_burst

/-- A call is fresh if no window that it may use begins before the last prune and no tick that it may reach overflows. -/
def CommandOp.fresh (limits : CommandLimits) (bus : CommandBus) : CommandOp → Bool
  | pruneBurstTick _ => true
  | verifySingleCmd _ cmd_tick => bus.pruned ≤ limits.getBurstWindow cmd_tick ∧ limits.Fits bus cmd_tick 0
  | verifyMultiCmd _ cmd_tick max_multi_cmd_split =>
    bus.pruned ≤ limits.getBurstWindow (cmd_tick - max_multi_cmd_split) ∧ limits.Fits bus cmd_tick max_multi_cmd_split

def CommandLimits.freshCalls (limits : CommandLimits) : Machine CommandBus CommandOp Fault where
  guard bus op := op.timely bus ∧ op.fresh limits bus
  step := limits.step

namespace CommandBus.Bounded
variable {limits : CommandLimits} {bus next : CommandBus} (held : bus.Bounded limits)
include held

theorem insert {burst_tick : Nat} (kept : bus.pruned ≤ burst_tick)
    (free : bus.burstTicks.count burst_tick < limits.max_cmds_per_burst) : (bus.insert burst_tick).Bounded limits := by
  refine ⟨held.past, fun tick later => ?_, fun tick => ?_⟩
  · simp only [CommandBus.insert, count_cons, held.counted tick later]
  · have least := held.bounded tick
    simp only [CommandBus.insert, count_cons, beq_iff_eq]
    split
    · rename_i same
      rw [← same, ← held.counted burst_tick kept]
      exact free
    · exact least

theorem pruneBurstTick : bus.pruneBurstTick.Bounded limits := by
  refine ⟨Nat.le_refl _, fun tick later => ?_, held.bounded⟩
  change bus.curTick ≤ tick at later
  change count tick (bus.burstTicks.filter _) = count tick bus.assigned
  rw [← held.counted tick (Nat.le_trans held.past later)]
  exact count_filter (by simpa using later)

theorem advance {curTick : Nat} (later : bus.curTick ≤ curTick) : { bus with curTick }.Bounded limits :=
  { held with past := Nat.le_trans held.past later }

theorem step {op : CommandOp} (allowed : limits.freshCalls.guard bus op) (stepped : limits.step bus op = .ok next) :
    next.Bounded limits := by
  obtain ⟨timely, fresh⟩ := allowed
  cases op with
  | pruneBurstTick curTick =>
    cases stepped
    exact (held.advance (of_decide_eq_true timely)).pruneBurstTick
  | verifySingleCmd curTick cmd_tick =>
    obtain ⟨last, fits⟩ : _ ∧ limits.Fits { bus with curTick } cmd_tick 0 := of_decide_eq_true fresh
    obtain ⟨cmd_at, done, _, later, free⟩ := verifySingleCmd_spec fits
    rw [CommandLimits.step, done] at stepped
    cases stepped
    exact (held.advance (of_decide_eq_true timely).1).insert (Nat.le_trans last later) free
  | verifyMultiCmd curTick cmd_tick max_multi_cmd_split =>
    obtain ⟨last, fits⟩ : _ ∧ limits.Fits { bus with curTick } cmd_tick max_multi_cmd_split := of_decide_eq_true fresh
    obtain ⟨cmd_at, first_cmd_tick, done, ⟨_, ordered, _⟩, later, free, first_free⟩ := verifyMultiCmd_spec fits
    rw [CommandLimits.step, done] at stepped
    cases stepped
    have kept := Nat.le_trans last later
    exact ((held.advance (of_decide_eq_true timely).1).insert (Nat.le_trans kept ordered) free).insert kept first_free

end CommandBus.Bounded

/-- In every run of fresh calls no window is ever given more commands than it has slots. In every state each call whose
ticks do not overflow ends with a tick not before the requested one, and the first command of a pair is in a window not
later than the second, whose tick is at most the split after the end of that window. -/
theorem command_windows_bounded {limits : CommandLimits} {bus : CommandBus} {history : List CommandOp}
    (run : limits.freshCalls.Run {} history bus) :
    (∀ tick, bus.assigned.count tick ≤ limits.max_cmds_per_burst) ∧
      (∀ (state : CommandBus) cmd_tick, limits.Fits state cmd_tick 0 → ∃ cmd_at, limits.verifySingleCmd state cmd_tick =
        .ok (cmd_at, state.insert (limits.getBurstWindow cmd_at)) ∧ cmd_tick ≤ cmd_at) ∧
      ∀ (state : CommandBus) cmd_tick max_multi_cmd_split, limits.Fits state cmd_tick max_multi_cmd_split →
        ∃ cmd_at first_cmd_tick, limits.verifyMultiCmd state cmd_tick max_multi_cmd_split =
            .ok (cmd_at, (state.insert (limits.getBurstWindow cmd_at)).insert first_cmd_tick) ∧
          cmd_tick ≤ cmd_at ∧ first_cmd_tick ≤ limits.getBurstWindow cmd_at ∧
          cmd_at ≤ first_cmd_tick + limits.commandWindow + max_multi_cmd_split := by
  have held : bus.Bounded limits := by
    apply run.invariant (CommandBus.Bounded limits)
    · exact ⟨Nat.le_refl _, fun _ _ => rfl, fun _ => Nat.zero_le _⟩
    · intro state op next held allowed stepped
      exact held.step allowed stepped
  refine ⟨held.bounded, fun state cmd_tick fits => ?_, fun state cmd_tick max_multi_cmd_split fits => ?_⟩
  · obtain ⟨cmd_at, done, requested, _⟩ := verifySingleCmd_spec fits
    exact ⟨cmd_at, done, requested⟩
  · obtain ⟨cmd_at, first_cmd_tick, done, met, _⟩ := verifyMultiCmd_spec fits
    exact ⟨cmd_at, first_cmd_tick, done, met⟩

/-- Two commands fill a window of one slot and the next, and a pair of commands follows a prune. -/
theorem command_windows_bounded_pair : ∃ (limits : CommandLimits) (bus : CommandBus),
    limits.freshCalls.Run {} [.verifyMultiCmd 3 27 5, .pruneBurstTick 3, .verifySingleCmd 2 5, .verifySingleCmd 0 5] bus ∧
      bus.assigned = [20, 30, 10, 0] ∧ ∀ tick, bus.assigned.count tick ≤ 1 := by
  exact ⟨⟨10, 1, by decide, by decide⟩, _, and_of_imp (.cons (.cons (.cons (.cons .nil ⟨rfl, rfl⟩ rfl) ⟨rfl, rfl⟩ rfl)
    ⟨rfl, rfl⟩ rfl) ⟨rfl, rfl⟩ rfl) fun run => ⟨rfl, (command_windows_bounded run).1⟩⟩

/-- A prune forgets the command in the current window of one slot, and the window is given another. -/
theorem pruned_window_reused : ∃ (limits : CommandLimits) (bus : CommandBus),
    limits.calls.Run {} [.verifySingleCmd 1 5, .pruneBurstTick 1, .verifySingleCmd 0 5] bus ∧
      limits.max_cmds_per_burst = 1 ∧ bus.assigned.count 0 = 2 :=
  ⟨⟨10, 1, by decide, by decide⟩, _, .cons (.cons (.cons .nil rfl rfl) rfl rfl) rfl rfl, rfl, rfl⟩

end Gem5.MemCtrl
