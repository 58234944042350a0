import Gem5.Proof.Mem.TargetFlags
import Gem5.Proof.Mem.MshrOrder

namespace Gem5
open ToMathlib List

namespace TargetList
open TargetFlags
variable {list : TargetList}

/-- This function adds the targets of a list one by one to an empty list. -/
def rebuilt (list : TargetList) : TargetList :=
  list.targets.foldl (fun list t => list.add t.pkt t.readyTime t.order t.source t.markedPending t.allocOnFill)
    { list with toTargetFlags := .resetFlags list.blkSize, targets := [] }

theorem rebuilt_flags : list.rebuilt.toTargetFlags = rebuiltFlags list.blkSize list.targets := by
  refine And.left (foldl_rel (r := fun (next : TargetList) (state : TargetFlags × Bool) =>
    next.toTargetFlags = state.1 ∧ next.targets.isEmpty = state.2 ∧ next.blkSize = list.blkSize) ⟨rfl, rfl, rfl⟩ ?_)
  rintro t _ next state ⟨flags, empty, size⟩
  refine ⟨?_, ?_, size⟩
  · simp only [add, updateFlags, addFlags, flags, empty, size]
  · simp [add, addFlags]

/-- The flags of a list match those that its targets give. -/
structure Tracks (list : TargetList) : Prop where
  sized : list.writesBitmap.length = list.blkSize
  agree : list.toTargetFlags.Matches (rebuiltFlags list.blkSize list.targets)

theorem Tracks.summary (tracks : list.Tracks) : list.summary = list.rebuilt.summary := by
  rw [rebuilt_flags]
  exact tracks.agree.summary

theorem tracks_init (empty : list.targets = []) (blkAddr : BitVec 64) (blkSize : Nat) :
    (list.init blkAddr blkSize).Tracks := by
  refine ⟨length_replicate, ?_⟩
  simp only [init, empty]
  exact .refl _

theorem tracks_resetFlags (empty : list.targets = []) (sized : list.writesBitmap.length = list.blkSize) :
    list.resetFlags.Tracks := by
  refine ⟨length_replicate.trans sized, ?_⟩
  simp only [resetFlags, empty, sized]
  exact .refl _

theorem Tracks.add (tracks : list.Tracks) (pkt : Packet) (readyTime order : Nat) (source : Target.Source)
    (markPending allocOnFill : Bool) : (list.add pkt readyTime order source markPending allocOnFill).Tracks := by
  let t : Target := { pkt, readyTime, order, source, markedPending := markPending && pkt.senderMSHR, allocOnFill }
  refine ⟨(updateFlags_length (t := t)).trans tracks.sized, ?_⟩
  change (list.toTargetFlags.updateFlags _ _ t.pkt t.source t.allocOnFill).Matches
    (rebuiltFlags list.blkSize (list.targets ++ [t]))
  rw [rebuiltFlags_append]
  exact tracks.agree.updateFlags _ _ t

theorem Tracks.replaceUpgrades (tracks : list.Tracks) : list.replaceUpgrades.Tracks := by
  unfold TargetList.replaceUpgrades
  split
  · refine ⟨tracks.sized, ?_⟩
    rw [rebuiltFlags_replaced]
    have agree := tracks.agree
    exact { agree with hasUpgrade := rfl }
  · exact tracks

theorem Tracks.clearDownstreamPending (tracks : list.Tracks) : list.clearDownstreamPending.Tracks := by
  refine ⟨tracks.sized, ?_⟩
  change list.toTargetFlags.Matches (rebuiltFlags list.blkSize (clearPending list.targets))
  rw [clearPending, rebuiltFlags_map]
  · exact tracks.agree
  · exact fun _ => ⟨rfl, rfl, rfl⟩

theorem populated_length (empty : Bool) (blkSize : Nat) (targets : List Target) (flags : TargetFlags) :
    (targets.foldl (fun flags t => flags.updateFlags empty blkSize t.pkt t.source t.allocOnFill) flags).writesBitmap.length =
      flags.writesBitmap.length := by
  induction targets generalizing flags with
  | nil => rfl
  | cons t targets ih => rw [foldl_cons, ih, updateFlags_length]

/-- The flags of a list are computed from its targets when the first one is settled. -/
theorem tracks_populateFlags (sized : list.writesBitmap.length = list.blkSize)
    (settled : Settled list.blkSize list.targets) : list.populateFlags.Tracks := by
  rw [populateFlags_eq]
  constructor
  · rw [populated_length, sized]
    exact length_replicate
  · rw [sized]
    exact matches_populated settled

/-- The targets that are appended without a change of the flags are absorbed. -/
theorem Tracks.append (tracks : list.Tracks) {promoted : List Target}
    (absorbs : ∀ t ∈ promoted, list.toTargetFlags.Absorbs t) :
    ({ list with targets := list.targets ++ clearPending promoted } : TargetList).Tracks := by
  refine ⟨tracks.sized, ?_⟩
  change list.toTargetFlags.Matches (rebuiltFlags list.blkSize (list.targets ++ clearPending promoted))
  rw [rebuiltFlags_append]
  apply tracks.agree.absorb_all
  intro t member
  obtain ⟨old, oldMember, rfl⟩ := mem_map.mp member
  exact absorbs old oldMember

/-- Targets that need a writable block are appended when the list is marked for one. -/
theorem Tracks.appendWritable (tracks : list.Tracks) {promoted : List Target} {t : Target} (member : t ∈ promoted)
    (request : t.source ≠ .fromSnoop) (needs : t.pkt.cmd.needsWritable = true)
    (absorbs : ∀ t ∈ promoted, ({ list.toTargetFlags with needsWritable := true }).Absorbs t) :
    ({ list with needsWritable := true, targets := list.targets ++ clearPending promoted } : TargetList).Tracks := by
  refine ⟨tracks.sized, ?_⟩
  change ({ list.toTargetFlags with needsWritable := true }).Matches
    (rebuiltFlags list.blkSize (list.targets ++ clearPending promoted))
  have agree := tracks.agree
  have marked : ({ list.toTargetFlags with needsWritable := true }).Matches
      { rebuiltFlags list.blkSize list.targets with needsWritable := true } :=
    { agree with needsWritable := rfl }
  have cleared : { t with markedPending := false } ∈ clearPending promoted := mem_map_of_mem member
  rw [rebuiltFlags_append]
  have writable : ((clearPending promoted).foldl (addFlags list.blkSize)
      (rebuiltFlags list.blkSize list.targets, list.targets.isEmpty)).1.needsWritable = true :=
    foldl_addFlags_needsWritable cleared request needs _ _
  rw [← needsWritable_eq writable, ← foldl_addFlags_writable]
  apply marked.absorb_all
  intro t member
  obtain ⟨old, oldMember, rfl⟩ := mem_map.mp member
  exact absorbs old oldMember

end TargetList

namespace MSHR
open TargetFlags TargetList
variable {mshr next : MSHR}

/-- The flags of both lists match their targets. -/
structure Consistent (mshr : MSHR) : Prop where
  targets : mshr.targets.Tracks
  deferred : mshr.deferredTargets.Tracks

section Service
variable {response : MemCmd} {targets ready kept : List Target}

theorem settled_locked {blkSize : Nat} {t : Target} {rest : List Target} (locked : t.pkt.cmd = .lockedRMWReadReq) :
    Settled blkSize (t :: rest) := by
  intro first isFirst
  cases isFirst
  have read : t.pkt.cmd.isWrite = false := by
    rw [locked]
    rfl
  simp [specialLineWrite, read]

theorem serviceAll_settled (blkSize : Nat) (targets : List Target) : Settled blkSize (serviceAll targets).2 := by
  induction targets with
  | nil => exact fun _ none => nomatch none
  | cons t rest ih =>
    rw [serviceAll]
    split
    · rename_i locked
      exact settled_locked locked
    · exact ih

/-- The first request behind the first target is settled when the first target is handed out with the snoops. -/
def WaitingSettled (blkSize : Nat) : List Target → Prop
  | [] => True
  | first :: rest =>
    first.pkt.cmd ≠ .lockedRMWReadReq → Settled blkSize (rest.filter fun t => t.source = .fromCPU)

theorem service_settled {blkSize : Nat} (done : service response targets = .ok (ready, kept))
    (waiting : response = .readRespWithInvalidate → WaitingSettled blkSize targets) : Settled blkSize kept := by
  unfold service at done
  split at done
  · rename_i invalidates
    cases targets with
    | nil => simp [serviceFirst] at done
    | cons t rest =>
      obtain ⟨_, _, done⟩ := bind_eq_ok.mp done
      split at done
      · rename_i locked
        cases done
        exact settled_locked locked
      · rename_i unlocked
        obtain ⟨⟨laterReady, laterKept⟩, later, done⟩ := bind_eq_ok.mp done
        cases done
        rw [(serviceSnoops_eq later).2.2]
        exact waiting invalidates unlocked
  · have parts := Except.ok.inj done
    have all := serviceAll_settled blkSize targets
    rw [parts] at all
    exact all

end Service

/-- A target can use a block that is not writable. -/
def usesReadable (t : Target) : Bool := !t.pkt.req.isCacheInvalidate && !t.pkt.cmd.needsWritable

/-- A target can use a writable block. -/
def usesWritable (t : Target) : Bool := !t.pkt.req.isCacheInvalidate

theorem readable_means {t : Target} {holds : Bool} (tested : readable t = .ok holds) :
    t.source = .fromCPU ∧ holds = usesReadable t := by
  obtain ⟨source, tested⟩ := assert_bind_eq_ok.mp tested
  exact ⟨source, (Except.ok.inj tested).symm⟩

theorem writable_means {t : Target} {holds : Bool} (tested : writable t = .ok holds) :
    t.source = .fromCPU ∧ holds = usesWritable t := by
  obtain ⟨source, tested⟩ := assert_bind_eq_ok.mp tested
  exact ⟨source, (Except.ok.inj tested).symm⟩

/-- A promotion moves the first targets that satisfy its condition, and computes the deferred flags. -/
theorem promoteIf_eq {pred : Target → Except Fault Bool} {p : Target → Bool}
    (means : ∀ t holds, pred t = .ok holds → t.source = .fromCPU ∧ holds = p t) (done : mshr.promoteIf pred = .ok next) :
    (∀ t ∈ mshr.deferredTargets.targets.takeWhile p, t.source = .fromCPU) ∧
    next.targets = { mshr.targets with
      targets := mshr.targets.targets ++ clearPending (mshr.deferredTargets.targets.takeWhile p) } ∧
    next.deferredTargets = { mshr.deferredTargets with
      targets := mshr.deferredTargets.targets.dropWhile p : TargetList }.populateFlags := by
  obtain ⟨_, _, done⟩ := bind_eq_ok.mp done
  obtain ⟨⟨promoted, rest⟩, split, rfl⟩ := bind_ok_eq_ok.mp done
  obtain ⟨whole, passed, failed⟩ := splitWhile_eq split
  have all : ∀ t ∈ promoted, p t = true := fun t member => (means t true (passed t member)).2.symm
  have none : rest.takeWhile p = [] ∧ rest.dropWhile p = rest := by
    cases rest with
    | nil => exact ⟨rfl, rfl⟩
    | cons t later =>
      have fails : ¬p t = true := by simp [← (means t false (failed t rfl)).2]
      exact ⟨takeWhile_cons_of_neg fails, dropWhile_cons_of_neg fails⟩
  rw [← whole, takeWhile_append_of_pos all, dropWhile_append_of_pos all, none.1, none.2, append_nil]
  exact ⟨fun t member => (means t true (passed t member)).1, rfl, rfl⟩

/-- The list of the targets that stay deferred when the others are promoted. -/
def stillDeferred (noTargets : Bool) : List Target → List Target
  | [] => []
  | t :: rest =>
    if noTargets && t.pkt.req.isCacheMaintenance then rest
    else (t :: rest).dropWhile fun t => !t.pkt.req.isCacheMaintenance

theorem promotable_rest (noTargets : Bool) (deferred : List Target) :
    (promotable noTargets deferred).2 = stillDeferred noTargets deferred := by
  cases deferred with
  | nil => cases noTargets <;> rfl
  | cons t rest =>
    unfold promotable stillDeferred
    cases maintenance : t.pkt.req.isCacheMaintenance with
    | false => simp [maintenance]
    | true => cases noTargets <;> simp [maintenance]

theorem settled_front {blkSize : Nat} {first second : List Target} (settled : Settled blkSize (first ++ second)) :
    Settled blkSize first := by
  intro t isFirst
  apply settled t
  rw [head?_append, isFirst]
  rfl

section Steps
variable {pkt : Packet} {whenReady order curTick blkSize : Nat} {blkAddr : BitVec 64} {allocOnFill : Bool}

/-- The promotion of readable targets adds no flag, and the first target that stays is settled. -/
def ReadableSettled (mshr : MSHR) : Prop :=
  Settled mshr.deferredTargets.blkSize (mshr.deferredTargets.targets.dropWhile usesReadable) ∧
  ∀ t ∈ mshr.deferredTargets.targets.takeWhile usesReadable, mshr.targets.toTargetFlags.Absorbs t

/-- The promotion of writable targets adds no other flag, and the first target that stays is settled. -/
def WritableSettled (mshr : MSHR) : Prop :=
  Settled mshr.deferredTargets.blkSize (mshr.deferredTargets.targets.dropWhile usesWritable) ∧
  (∃ t ∈ mshr.deferredTargets.targets.takeWhile usesWritable, t.pkt.cmd.needsWritable = true) ∧
  ∀ t ∈ mshr.deferredTargets.targets.takeWhile usesWritable,
    ({ mshr.targets.toTargetFlags with needsWritable := true }).Absorbs t

/-- An operation computes flags for settled targets only, and promotes only targets that add no flag. -/
def Undisturbed (mshr : MSHR) : Op → Prop
  | .extractServiceableTargets response =>
    response = .readRespWithInvalidate → WaitingSettled mshr.targets.blkSize mshr.targets.targets
  | .promoteDeferredTargets _ =>
    Settled mshr.targets.blkSize (mshr.targets.targets ++ mshr.deferredTargets.targets) ∧
    Settled mshr.deferredTargets.blkSize
      (stillDeferred mshr.targets.targets.isEmpty mshr.deferredTargets.targets)
  | .promoteReadable => mshr.deferredTargets.targets ≠ [] → mshr.postInvalidate = false → mshr.ReadableSettled
  | .promoteWritable =>
    ∀ front rest, mshr.deferredTargets.targets = front :: rest → mshr.deferredTargets.needsWritable = true →
      mshr.postInvalidate = false → mshr.postDowngrade = false → front.pkt.req.isCacheInvalidate = false →
        mshr.WritableSettled
  | _ => True

theorem allocate_consistent (done : mshr.allocate blkAddr blkSize pkt whenReady order allocOnFill = .ok next) :
    next.Consistent := by
  obtain ⟨noTargets, noDeferred, source, _, _, targets, deferred⟩ := allocate_eq done
  exact ⟨targets ▸ (tracks_init noTargets ..).add .., deferred ▸ tracks_init noDeferred ..⟩

section
variable (held : mshr.Consistent)
include held

theorem Consistent.allocateTarget (done : mshr.allocateTarget pkt whenReady order allocOnFill = .ok next) :
    next.Consistent := by
  obtain ⟨_, _, done⟩ := bind_eq_ok.mp done
  obtain ⟨front, _, done⟩ := bind_eq_ok.mp done
  split at done
  · cases done
    exact ⟨held.targets, held.deferred.add ..⟩
  · cases done
    exact ⟨held.targets.add .., held.deferred⟩

theorem Consistent.downgrade (pkt : Packet) : (mshr.downgrade pkt).2.Consistent := by
  unfold MSHR.downgrade
  split
  · exact { held with }
  · exact held

theorem Consistent.snoopAfter {result : Bool} {answered : Packet}
    (done : mshr.snoopAfter pkt order curTick = .ok (result, answered, next)) : next.Consistent := by
  rcases snoopAfter_cases done with rfl | ⟨willRespond, told, rfl⟩ | rfl
  · exact held
  · have saved : (mshr.saveSnoop pkt order curTick willRespond).Consistent := ⟨held.targets.add .., held.deferred⟩
    exact saved.downgrade told
  · exact held.downgrade pkt

theorem Consistent.handleSnoop {result : Bool} {answered : Packet}
    (done : mshr.handleSnoop pkt order curTick = .ok (result, answered, next)) : next.Consistent := by
  have cases := handleSnoop_cases done
  split at cases
  · subst cases
    unfold snoopBefore
    split
    · exact ⟨held.targets.replaceUpgrades, held.deferred.replaceUpgrades⟩
    · exact held
  · have deferred : (mshr.snoopDeferred pkt).Consistent := by
      unfold snoopDeferred
      split
      · exact ⟨held.targets, held.deferred.replaceUpgrades⟩
      · exact held
    exact deferred.snoopAfter cases

theorem Consistent.extract {response : MemCmd} {ready : TargetList}
    (waiting : response = .readRespWithInvalidate → WaitingSettled mshr.targets.blkSize mshr.targets.targets)
    (done : mshr.extractServiceableTargets response = .ok (ready, next)) : next.Consistent := by
  obtain ⟨⟨handed, kept⟩, serviced, _, rfl⟩ := bind_pair_eq_ok.mp done
  exact ⟨tracks_populateFlags held.targets.sized (service_settled serviced waiting), held.deferred⟩

theorem Consistent.promoteDeferredTargets {result : Bool} (settled : mshr.Undisturbed (.promoteDeferredTargets curTick))
    (done : mshr.promoteDeferredTargets curTick = .ok (result, next)) : next.Consistent := by
  obtain ⟨first, later⟩ := settled
  unfold MSHR.promoteDeferredTargets at done
  split at done
  · cases done
    exact held
  · have parts := promotable_append mshr.targets.targets.isEmpty mshr.deferredTargets.targets
    rw [← promotable_rest] at later
    rcases promotes : promotable mshr.targets.targets.isEmpty mshr.deferredTargets.targets with ⟨promoted, rest⟩
    obtain ⟨front, _, _, rfl⟩ := bind_pair_eq_ok.mp done
    rw [← parts, ← append_assoc] at first
    exact ⟨tracks_populateFlags held.targets.sized (settled_front first),
      tracks_populateFlags held.deferred.sized later⟩

theorem Consistent.promoteReadable (settled : mshr.Undisturbed .promoteReadable)
    (done : mshr.promoteReadable = .ok next) : next.Consistent := by
  rcases promoteReadable_cases done with rfl | ⟨some, valid, done⟩
  · exact held
  · obtain ⟨rest, absorbs⟩ := settled some valid
    obtain ⟨_, targets, deferred⟩ := promoteIf_eq (fun _ _ => readable_means) done
    constructor
    · rw [targets]
      exact held.targets.append absorbs
    · rw [deferred]
      exact tracks_populateFlags held.deferred.sized rest

theorem Consistent.promoteWritable (settled : mshr.Undisturbed .promoteWritable)
    (done : mshr.promoteWritable = .ok next) : next.Consistent := by
  rcases promoteWritable_cases done with rfl | ⟨⟨front, rest, some, needs, valid, undowngraded, keeps⟩, done⟩
  · exact held
  obtain ⟨rest, ⟨t, member, writable⟩, absorbs⟩ := settled front rest some needs valid undowngraded keeps
  obtain ⟨sources, targets, deferred⟩ := promoteIf_eq (fun _ _ => writable_means) done
  constructor
  · rw [targets]
    have request : t.source ≠ .fromSnoop := by
      rw [sources t member]
      decide
    exact held.targets.appendWritable member request writable absorbs
  · rw [deferred]
    exact tracks_populateFlags held.deferred.sized rest

/-- An undisturbed operation keeps the flags of both lists consistent. -/
theorem Consistent.step {op : Op} {handed : List Target} (settled : mshr.Undisturbed op)
    (done : mshr.step op = .ok (handed, next)) : next.Consistent := by
  cases op with
  | allocate blkAddr blkSize target whenReady order allocOnFill =>
    obtain ⟨result, allocated, _, rfl⟩ := bind_pair_eq_ok.mp done
    exact allocate_consistent allocated
  | allocateTarget pkt whenReady order allocOnFill =>
    obtain ⟨result, allocated, _, rfl⟩ := bind_pair_eq_ok.mp done
    exact held.allocateTarget allocated
  | extractServiceableTargets response =>
    obtain ⟨⟨ready, result⟩, extracted, _, rfl⟩ := bind_pair_eq_ok.mp done
    exact held.extract settled extracted
  | handleSnoop pkt order curTick =>
    obtain ⟨⟨result, answered, after⟩, snooped, _, rfl⟩ := bind_pair_eq_ok.mp done
    exact held.handleSnoop snooped
  | promoteDeferredTargets curTick =>
    obtain ⟨⟨result, after⟩, promoted, _, rfl⟩ := bind_pair_eq_ok.mp done
    exact held.promoteDeferredTargets settled promoted
  | promoteReadable =>
    obtain ⟨result, promoted, _, rfl⟩ := bind_pair_eq_ok.mp done
    exact held.promoteReadable settled promoted
  | promoteWritable =>
    obtain ⟨result, promoted, _, rfl⟩ := bind_pair_eq_ok.mp done
    exact held.promoteWritable settled promoted
  | markInService pendingModifiedResp =>
    obtain ⟨result, marked, _, rfl⟩ := bind_pair_eq_ok.mp done
    obtain ⟨_, _, rfl⟩ := bind_ok_eq_ok.mp marked
    refine ⟨?_, held.deferred⟩
    split
    · exact held.targets
    · exact held.targets.clearDownstreamPending
  | clearDownstreamPending =>
    obtain ⟨result, cleared, _, rfl⟩ := bind_pair_eq_ok.mp done
    obtain ⟨_, _, rfl⟩ := bind_ok_eq_ok.mp cleared
    exact ⟨held.targets.clearDownstreamPending, held.deferred⟩
  | markPending =>
    obtain ⟨result, marked, _, rfl⟩ := bind_pair_eq_ok.mp done
    obtain ⟨_, _, rfl⟩ := bind_ok_eq_ok.mp marked
    exact { held with }
  | deallocate =>
    obtain ⟨result, freed, _, rfl⟩ := bind_pair_eq_ok.mp done
    obtain ⟨empty, freed⟩ := assert_bind_eq_ok.mp freed
    obtain ⟨_, _, rfl⟩ := bind_ok_eq_ok.mp freed
    exact ⟨tracks_resetFlags empty held.targets.sized, held.deferred⟩
  | setDownstreamPending | setForward isForward =>
    cases done
    exact { held with }

end

end Steps

end MSHR

/-- The operations on a register, and those on one of its target lists, which is the deferred one or the other one. -/
inductive FlagOp where
  | register (op : MSHR.Op)
  | add (deferred : Bool) (pkt : Packet) (readyTime order : Nat) (source : Target.Source)
      (markPending allocOnFill : Bool)
  | replaceUpgrades (deferred : Bool)
deriving DecidableEq, Repr

namespace FlagOp
variable {mshr next : MSHR} {ops : List FlagOp}

/-- This function changes one of the target lists. -/
def onList (mshr : MSHR) (deferred : Bool) (change : TargetList → TargetList) : MSHR :=
  if deferred then { mshr with deferredTargets := change mshr.deferredTargets }
  else { mshr with targets := change mshr.targets }

def step (mshr : MSHR) : FlagOp → Except Fault MSHR
  | .register op => do .ok (← mshr.step op).2
  | .add deferred pkt readyTime order source markPending allocOnFill =>
    .ok (onList mshr deferred (·.add pkt readyTime order source markPending allocOnFill))
  | .replaceUpgrades deferred => .ok (onList mshr deferred TargetList.replaceUpgrades)

/-- An operation on a register is undisturbed, and one on a target list needs no condition. -/
def Undisturbed (mshr : MSHR) : FlagOp → Prop
  | .register op => mshr.Undisturbed op
  | _ => True

/-- This machine performs the operations whose assertions hold. -/
def registers : Machine MSHR FlagOp Fault where
  guard _ _ := True
  step := step

/-- This machine performs the undisturbed operations whose assertions hold. -/
def undisturbedRegisters : Machine MSHR FlagOp Fault where
  guard := Undisturbed
  step := step

theorem onList_consistent {deferred : Bool} {change : TargetList → TargetList} (held : mshr.Consistent)
    (keeps : ∀ list : TargetList, list.Tracks → (change list).Tracks) : (onList mshr deferred change).Consistent := by
  cases deferred with
  | true => exact ⟨held.targets, keeps _ held.deferred⟩
  | false => exact ⟨keeps _ held.targets, held.deferred⟩

theorem step_consistent {op : FlagOp} (held : mshr.Consistent) (settled : Undisturbed mshr op)
    (done : step mshr op = .ok next) : next.Consistent := by
  cases op with
  | register op =>
    obtain ⟨⟨handed, result⟩, stepped, rfl⟩ := bind_ok_eq_ok.mp done
    exact held.step settled stepped
  | add deferred pkt readyTime order source markPending allocOnFill =>
    cases done
    exact onList_consistent held fun _ tracks => tracks.add ..
  | replaceUpgrades deferred =>
    cases done
    exact onList_consistent held fun _ tracks => tracks.replaceUpgrades

/-- The flags of both lists are those that the targets give when they are added one by one, along every undisturbed
run. -/
theorem flags_rebuilt (run : undisturbedRegisters.Run .init ops mshr) :
    mshr.targets.summary = mshr.targets.rebuilt.summary ∧
    mshr.deferredTargets.summary = mshr.deferredTargets.rebuilt.summary := by
  have held : mshr.Consistent := by
    refine run.invariant MSHR.Consistent ⟨⟨rfl, .refl _⟩, ⟨rfl, .refl _⟩⟩ ?_
    exact fun state op next held settled done => step_consistent held settled done
  exact ⟨held.targets.summary, held.deferred.summary⟩

/-- A read that waits behind a clean request is promoted without a new flag. -/
theorem flags_rebuilt_read : ∃ mshr, undisturbedRegisters.Run .init
      [.register .promoteReadable, .register (.allocateTarget (.atZero 2 .readReq rfl 8 0) 20 2 true),
        .register (.markInService false),
        .register (.allocate 0 64 (.atZero 1 .cleanSharedReq rfl 64 Request.CLEAN) 10 1 true)] mshr ∧
    mshr.targets.targets.map (fun t => t.pkt.id) = [1, 2] ∧ mshr.targets.allocOnFill = true ∧
    mshr.targets.summary = mshr.targets.rebuilt.summary ∧
    mshr.deferredTargets.summary = mshr.deferredTargets.rebuilt.summary := by
  refine ⟨_, and_of_imp (.cons (.cons (.cons (.cons .nil trivial rfl) trivial rfl) trivial rfl) ?_ rfl) fun run =>
    ⟨rfl, rfl, flags_rebuilt run⟩⟩
  refine fun _ _ => ⟨fun _ none => (nomatch none), fun t member => ?_⟩
  obtain rfl := mem_singleton.mp member
  exact ⟨by decide, by decide, by decide, by decide, .inr rfl⟩

/-- A secure write of the whole line is no such write any more after its promotion, and the promotion of a read loses
that its fill is allocated. -/
theorem flags_rebuilt_lost : (∃ mshr, registers.Run .init
        [.register (.promoteDeferredTargets 30), .register (.extractServiceableTargets .cleanSharedResp),
          .register (.allocateTarget (.atZero 2 .writeLineReq rfl 64 Request.SECURE) 20 2 false),
          .register (.markInService false),
          .register (.allocate 0 64 (.atZero 1 .cleanSharedReq rfl 64 (Request.CLEAN ||| Request.SECURE)) 10 1 false)]
        mshr ∧
      mshr.targets.isWholeLineWrite = false ∧ mshr.targets.rebuilt.isWholeLineWrite = true) ∧
    ∃ mshr, registers.Run .init
        [.register .promoteReadable, .register (.allocateTarget (.atZero 2 .readReq rfl 8 0) 20 2 true),
          .register (.markInService false),
          .register (.allocate 0 64 (.atZero 1 .cleanSharedReq rfl 64 Request.CLEAN) 10 1 false)] mshr ∧
      mshr.targets.allocOnFill = false ∧ mshr.targets.rebuilt.allocOnFill = true :=
  ⟨⟨_, .cons (.cons (.cons (.cons (.cons .nil trivial rfl) trivial rfl) trivial rfl) trivial rfl) trivial rfl, rfl, rfl⟩,
    _, .cons (.cons (.cons (.cons .nil trivial rfl) trivial rfl) trivial rfl) trivial rfl, rfl, rfl⟩

end FlagOp

end Gem5
