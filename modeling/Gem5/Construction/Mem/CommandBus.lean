import Gem5.Construction.Base.Fault

namespace Gem5.MemCtrl
open ToMathlib

/-- The multiset of the windows of issued commands, with the current tick and a history: the tick of the last prune and
the window of every command so far. -/
structure CommandBus where
  curTick : Nat := 0
  burstTicks : List Nat := []
  pruned : Nat := 0
  assigned : List Nat := []
deriving DecidableEq, Repr

/-- These ticks are what the loop of `verifyMultiCmd` changes. -/
structure CommandPair where
  cmd_at : Nat
  burst_tick : Nat
  first_cmd_tick : Nat
deriving DecidableEq, Repr

/-- These are the length of a window in ticks and its number of slots. -/
structure CommandLimits where
  commandWindow : Nat
  max_cmds_per_burst : Nat
  window : 0 < commandWindow
  slots : 1 ≤ max_cmds_per_burst

namespace CommandBus
variable (bus : CommandBus)

def insert (burst_tick : Nat) : CommandBus :=
  { bus with burstTicks := burst_tick :: bus.burstTicks, assigned := burst_tick :: bus.assigned }

def pruneBurstTick : CommandBus :=
  { bus with burstTicks := bus.burstTicks.filter fun tick => ¬ bus.curTick > tick, pruned := bus.curTick }

end CommandBus

namespace CommandLimits
variable (limits : CommandLimits) (bus : CommandBus) (cmd_tick max_multi_cmd_split : Nat) (pair : CommandPair)

/-- This function adds a window to a tick of 64 bits. -/
def addWindow (tick : Nat) : Nat := (tick + limits.commandWindow) % 2 ^ 64

def getBurstWindow : Nat :=
  let burst_offset := cmd_tick % limits.commandWindow
  cmd_tick - burst_offset

/-- The loop runs on the tick of the command and its window. -/
def verifySingleCmd : Except Fault (Nat × CommandBus) := do
  let (cmd_at, burst_tick) ← whileLoop .endlessLoop
    (fun (_, burst_tick) => bus.burstTicks.count burst_tick ≥ limits.max_cmds_per_burst)
    (fun (_, burst_tick) => (limits.addWindow burst_tick, limits.addWindow burst_tick))
    (bus.burstTicks.length + 1) (cmd_tick, limits.getBurstWindow cmd_tick)
  pure (cmd_at, bus.insert burst_tick)

/-- This part of `verifyMultiCmd` finds the earliest window of the first command. -/
def firstCmdTick : Except Fault Nat := do
  let burst_tick := limits.getBurstWindow cmd_tick
  let first_cmd_offset := cmd_tick % limits.commandWindow
  let burst_offset ← whileLoop .endlessLoop (fun offset => max_multi_cmd_split > (first_cmd_offset + offset) % 2 ^ 64)
    limits.addWindow (max_multi_cmd_split + 1) 0
  pure (burst_tick - min burst_offset burst_tick)

abbrev first_can_issue : Prop := bus.burstTicks.count pair.first_cmd_tick < limits.max_cmds_per_burst

abbrev second_can_issue : Prop :=
  (if pair.burst_tick = pair.first_cmd_tick then bus.burstTicks.count pair.first_cmd_tick + 1
    else bus.burstTicks.count pair.burst_tick) < limits.max_cmds_per_burst

/-- One pass of the loop of `verifyMultiCmd`. -/
def shift : CommandPair :=
  let same_burst := pair.burst_tick = pair.first_cmd_tick
  let second_can_issue := limits.second_can_issue bus pair
  let burst_tick := if second_can_issue then pair.burst_tick else limits.addWindow pair.burst_tick
  let gap_violated := ¬ same_burst ∧ (burst_tick + 2 ^ 64 - pair.first_cmd_tick) % 2 ^ 64 > max_multi_cmd_split
  { burst_tick
    cmd_at := if second_can_issue then pair.cmd_at else burst_tick
    first_cmd_tick :=
      if ¬ limits.first_can_issue bus pair ∨ (¬ second_can_issue ∧ gap_violated) then
        limits.addWindow pair.first_cmd_tick
      else pair.first_cmd_tick }

def verifyMultiCmd : Except Fault (Nat × CommandBus) := do
  let first_cmd_tick ← limits.firstCmdTick cmd_tick max_multi_cmd_split
  let pair ← whileLoop .endlessLoop (fun pair => ¬ limits.first_can_issue bus pair ∨ ¬ limits.second_can_issue bus pair)
    (limits.shift bus max_multi_cmd_split) (4 * bus.burstTicks.length + 2)
    ⟨cmd_tick, limits.getBurstWindow cmd_tick, first_cmd_tick⟩
  pure (pair.cmd_at, (bus.insert pair.burst_tick).insert pair.first_cmd_tick)

end CommandLimits

/-- Each call carries the tick at which it is made. -/
inductive CommandOp
  | pruneBurstTick (curTick : Nat)
  | verifySingleCmd (curTick cmd_tick : Nat)
  | verifyMultiCmd (curTick cmd_tick max_multi_cmd_split : Nat)
deriving DecidableEq, Repr

/-- Time does not go back, and no command is requested before the current tick. -/
def CommandOp.timely (bus : CommandBus) : CommandOp → Bool
  | pruneBurstTick curTick => bus.curTick ≤ curTick
  | verifySingleCmd curTick cmd_tick => bus.curTick ≤ curTick ∧ curTick ≤ cmd_tick
  | verifyMultiCmd curTick cmd_tick _ => bus.curTick ≤ curTick ∧ curTick ≤ cmd_tick

def CommandLimits.step (limits : CommandLimits) (bus : CommandBus) : CommandOp → Except Fault CommandBus
  | .pruneBurstTick curTick => .ok { bus with curTick }.pruneBurstTick
  | .verifySingleCmd curTick cmd_tick => (·.2) <$> limits.verifySingleCmd { bus with curTick } cmd_tick
  | .verifyMultiCmd curTick cmd_tick max_multi_cmd_split =>
    (·.2) <$> limits.verifyMultiCmd { bus with curTick } cmd_tick max_multi_cmd_split

def CommandLimits.calls (limits : CommandLimits) : Machine CommandBus CommandOp Fault where
  guard bus op := op.timely bus
  step := limits.step

end Gem5.MemCtrl
