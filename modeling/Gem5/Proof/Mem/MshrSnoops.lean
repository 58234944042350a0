import Gem5.Proof.Mem.MshrFlags

namespace Gem5
open ToMathlib List

namespace MemCmd

theorem replaceUpgrade_idem (cmd : MemCmd) : cmd.replaceUpgrade.replaceUpgrade = cmd.replaceUpgrade := by
  cases cmd <;> rfl

theorem replaceUpgrade_of_noUpgrade {cmd : MemCmd} (upgrade : cmd.isUpgrade = false) (conditional : cmd ≠ .storeCondReq) :
    cmd.replaceUpgrade = cmd := by
  revert upgrade conditional
  cases cmd <;> decide

theorem replaceUpgrade_of_readable {cmd : MemCmd} (readable : cmd.needsWritable = false) : cmd.replaceUpgrade = cmd := by
  revert readable
  cases cmd <;> decide

end MemCmd

namespace TargetList
open Target
variable {list : TargetList}

theorem requests_clearPending (targets : List Target) :
    requests (clearPending targets) = (requests targets).map fun t => { t with markedPending := false } :=
  requests_map fun _ => rfl

/-- The flag of upgrades is set when a command is an upgrade. -/
def Covers (hasUpgrade : Bool) (cmd : MemCmd) : Prop := hasUpgrade = true ∨ cmd.replaceUpgrade = cmd

theorem Covers.mono {first second : Bool} {cmd : MemCmd} (covers : Covers first cmd)
    (grows : first = true → second = true) : Covers second cmd := covers.imp_left grows

theorem hasUpgrade_updateFlags (flags : TargetFlags) (empty : Bool) (blkSize : Nat) (pkt : Packet)
    (source : Target.Source) (allocOnFill : Bool) :
    (flags.updateFlags empty blkSize pkt source allocOnFill).hasUpgrade =
      (flags.hasUpgrade || source ≠ .fromSnoop && (pkt.cmd.isUpgrade || decide (pkt.cmd = .storeCondReq))) := by
  unfold TargetFlags.updateFlags
  cases source with
  | fromSnoop => simp
  | fromPrefetcher => simp [Bool.or_assoc]
  | fromCPU =>
    obtain ⟨_, _, _, updated⟩ := flags.updateWriteFlags_eq empty blkSize pkt
    simp [updated, Bool.or_assoc]

theorem covers_updateFlags (flags : TargetFlags) (empty : Bool) (blkSize : Nat) (pkt : Packet)
    {source : Target.Source} (allocOnFill : Bool) (request : source ≠ .fromSnoop) :
    Covers (flags.updateFlags empty blkSize pkt source allocOnFill).hasUpgrade pkt.cmd := by
  rw [hasUpgrade_updateFlags]
  cases upgrade : pkt.cmd.isUpgrade with
  | true => exact .inl (by simp [request])
  | false =>
    by_cases conditional : pkt.cmd = .storeCondReq
    · exact .inl (by simp [request, conditional])
    · exact .inr (MemCmd.replaceUpgrade_of_noUpgrade upgrade conditional)

theorem hasUpgrade_of_updateFlags {flags : TargetFlags} {empty : Bool} {blkSize : Nat} {pkt : Packet}
    {source : Target.Source} {allocOnFill : Bool} (has : flags.hasUpgrade = true) :
    (flags.updateFlags empty blkSize pkt source allocOnFill).hasUpgrade = true := by
  rw [hasUpgrade_updateFlags, has, Bool.true_or]

theorem covers_populateFlags {t : Target} (member : t ∈ requests list.targets) :
    Covers list.populateFlags.hasUpgrade t.pkt.cmd := by
  obtain ⟨member, request⟩ := mem_filter.mp member
  obtain ⟨before, after, whole⟩ := append_of_mem member
  simp only [populateFlags_eq, whole, foldl_append, foldl_cons]
  apply foldlRecOn (motive := fun flags : TargetFlags => Covers flags.hasUpgrade t.pkt.cmd)
  · exact covers_updateFlags _ _ _ _ _ (of_decide_eq_true request)
  · exact fun _ held _ _ => held.mono hasUpgrade_of_updateFlags

end TargetList
/-- This structure remembers what a request has seen since it was allocated. -/
structure SnoopMark where
  cmd : MemCmd
  barred : Bool
  awaiting : Bool
  promoted : Bool
  exposed : Bool
deriving DecidableEq, Repr

namespace SnoopMark

/-- A request that starts a register has seen nothing. -/
def fresh (cmd : MemCmd) : SnoopMark := { cmd, barred := false, awaiting := false, promoted := false, exposed := false }

/-- A request that comes after an invalidation, or a write that comes after a downgrade, is barred from the pending
response. A write awaits a writable copy while the pending response is not for a modified one. -/
def new (mshr : MSHR) (cmd : MemCmd) : SnoopMark where
  cmd := cmd
  barred := mshr.inService && (mshr.postInvalidate || cmd.needsWritable && mshr.postDowngrade)
  awaiting := mshr.inService && cmd.needsWritable && !mshr.pendingModified
  promoted := false
  exposed := mshr.inService && mshr.postInvalidate

/-- The next response is another one. -/
def lift (mark : SnoopMark) : SnoopMark := { mark with barred := false, awaiting := false }

/-- The response has a writable copy. -/
def promote (mark : SnoopMark) : SnoopMark := { mark with awaiting := false, promoted := true }

/-- A request that the register has to issue again comes after an invalidation. -/
def expose (mark : SnoopMark) : SnoopMark := if mark.promoted then mark else { mark with exposed := true }

variable {mark : SnoopMark} {t : Target} {hasUpgrade postInvalidate postDowngrade : Bool}

/-- The command of a request is the allocated one or its replacement, and the replacement after an invalidation. -/
structure Matches (mark : SnoopMark) (t : Target) : Prop where
  cmd : t.pkt.cmd = mark.cmd ∨ t.pkt.cmd = mark.cmd.replaceUpgrade
  exposed : mark.exposed = true → t.pkt.cmd = mark.cmd.replaceUpgrade

/-- A request that the pending response services is not barred. -/
structure Active (hasUpgrade : Bool) (mark : SnoopMark) (t : Target) : Prop extends mark.Matches t where
  barred : mark.barred = false
  awaiting : mark.awaiting = false
  covers : mark.promoted = false → TargetList.Covers hasUpgrade t.pkt.cmd

/-- A request that waits for the next response may be barred from the pending one. -/
structure Waiting (hasUpgrade postInvalidate postDowngrade : Bool) (mark : SnoopMark) (t : Target) : Prop extends
    mark.Matches t where
  barred : mark.barred = true → postInvalidate = true ∨ postDowngrade = true ∧ mark.cmd.needsWritable = true
  awaiting : mark.awaiting = true → mark.cmd.needsWritable = true
  promoted : mark.promoted = false
  covers : TargetList.Covers hasUpgrade t.pkt.cmd

theorem Matches.needsWritable (held : mark.Matches t) : t.pkt.cmd.needsWritable = mark.cmd.needsWritable := by
  rcases held.cmd with same | replaced
  · rw [same]
  · rw [replaced, mark.cmd.replaceUpgrade_attributes.2.1]

/-- A replaced command stands for every mark with the allocated command. -/
theorem Matches.replaced (held : mark.Matches t) {marked : SnoopMark} {other : Target} (same : marked.cmd = mark.cmd)
    (replaced : other.pkt.cmd = t.pkt.cmd.replaceUpgrade) : marked.Matches other := by
  have cmd : other.pkt.cmd = marked.cmd.replaceUpgrade := by
    rcases held.cmd with first | second
    · rw [replaced, first, same]
    · rw [replaced, second, MemCmd.replaceUpgrade_idem, same]
  exact ⟨.inr cmd, fun _ => cmd⟩

theorem expose_cmd : mark.expose.cmd = mark.cmd := by
  rw [expose]
  split <;> rfl

theorem expose_others : mark.expose.barred = mark.barred ∧ mark.expose.awaiting = mark.awaiting ∧
    mark.expose.promoted = mark.promoted := by
  rw [expose]
  split <;> exact ⟨rfl, rfl, rfl⟩

/-- This function replaces the upgrade of a target of a list that has one. -/
def replaceIf (hasUpgrade : Bool) (t : Target) : Target :=
  if hasUpgrade then { t with pkt := t.pkt.replaceUpgrade } else t

/-- A request is replaced when an invalidation precedes it. -/
theorem Matches.expose (held : mark.Matches t) (covers : mark.promoted = false → TargetList.Covers hasUpgrade t.pkt.cmd) :
    mark.expose.Matches (replaceIf hasUpgrade t) := by
  cases hasUpgrade with
  | true => exact held.replaced expose_cmd rfl
  | false =>
    cases promoted : mark.promoted with
    | true =>
      rw [SnoopMark.expose, promoted, if_pos rfl]
      exact held
    | false =>
      have same : t.pkt.cmd.replaceUpgrade = t.pkt.cmd := (covers promoted).resolve_left (by decide)
      exact held.replaced expose_cmd same.symm

theorem covers_replaceIf (covers : TargetList.Covers hasUpgrade t.pkt.cmd) :
    TargetList.Covers false (replaceIf hasUpgrade t).pkt.cmd := by
  cases hasUpgrade with
  | true => exact .inr (MemCmd.replaceUpgrade_idem _)
  | false => exact covers

theorem Active.expose (held : Active hasUpgrade mark t) : Active false mark.expose (replaceIf hasUpgrade t) where
  toMatches := held.toMatches.expose held.covers
  barred := expose_others.1.trans held.barred
  awaiting := expose_others.2.1.trans held.awaiting
  covers promoted := covers_replaceIf (held.covers (expose_others.2.2.symm.trans promoted))

theorem Waiting.expose (held : Waiting hasUpgrade postInvalidate postDowngrade mark t) :
    Waiting false postInvalidate postDowngrade mark.expose (replaceIf hasUpgrade t) where
  toMatches := held.toMatches.expose fun _ => held.covers
  barred := by
    rw [expose_others.1, expose_cmd]
    exact held.barred
  awaiting := by
    rw [expose_others.2.1, expose_cmd]
    exact held.awaiting
  promoted := expose_others.2.2.trans held.promoted
  covers := covers_replaceIf held.covers

end SnoopMark

namespace TargetList
open Target SnoopMark
variable {list : TargetList}

theorem replaceUpgrades_requests :
    requests list.replaceUpgrades.targets = (requests list.targets).map (replaceIf list.hasUpgrade) := by
  unfold replaceUpgrades
  cases has : list.hasUpgrade with
  | true =>
    rw [if_pos rfl]
    exact requests_map fun _ => rfl
  | false =>
    have same : replaceIf false = id := funext fun _ => rfl
    rw [if_neg (by decide), same, map_id]

theorem replaceUpgrades_hasUpgrade : list.replaceUpgrades.hasUpgrade = false := by
  unfold replaceUpgrades
  split
  · rfl
  · simpa using ‹¬ list.hasUpgrade = true›

end TargetList

namespace MSHR
open Target

/-- The number of requests that the pending response services. -/
def active (mshr : MSHR) : Nat := (requests mshr.targets.targets).length

/-- A snooped packet precedes the request of the register. -/
def precededBy (mshr : MSHR) (pkt : Packet) : Bool := !mshr.inService || (pkt.expressSnoop && mshr.downstreamPending)

/-- A snooped packet takes the copies of the block away. -/
def takesAway (pkt : Packet) : Bool := pkt.cmd.needsWritable || pkt.req.isCacheInvalidate

/-- This function updates the marks of the requests after an operation. -/
def Op.mark (mshr next : MSHR) (handed : List Target) (marks : List SnoopMark) : Op → List SnoopMark
  | .allocate _ _ target _ _ _ => marks ++ [.fresh target.cmd]
  | .allocateTarget pkt _ _ _ => marks ++ [.new mshr pkt.cmd]
  | .markInService _ => marks.map SnoopMark.lift
  | .promoteDeferredTargets _ => marks.map SnoopMark.lift
  | .promoteWritable =>
    marks.take mshr.active ++ ((marks.drop mshr.active).take (next.active - mshr.active)).map SnoopMark.promote ++
      marks.drop next.active
  | .handleSnoop pkt _ _ =>
    if takesAway pkt then
      if mshr.precededBy pkt then marks.map SnoopMark.expose
      else marks.take mshr.active ++ (marks.drop mshr.active).map SnoopMark.expose
    else marks
  | .extractServiceableTargets _ => marks.drop ((requests handed).filter fun t => !t.isLocked).length
  | _ => marks

end MSHR

/-- This structure runs a register next to the marks of its requests. -/
structure SnoopTrace where
  mshr : MSHR
  marks : List SnoopMark

namespace SnoopTrace
open Target SnoopMark TargetList

def initial : SnoopTrace := { mshr := .init, marks := [] }

def snooped : Machine SnoopTrace MSHR.Op Fault where
  guard _ _ := True
  step trace op := do
    let (handed, mshr) ← trace.mshr.step op
    .ok { mshr, marks := op.mark trace.mshr mshr handed trace.marks }

/-- The marks follow the requests of the two target lists. -/
structure Follows (mshr : MSHR) (front back : List SnoopMark) : Prop where
  front : List.Forall₂ (Active mshr.targets.hasUpgrade) front (requests mshr.targets.targets)
  back : List.Forall₂ (Waiting mshr.deferredTargets.hasUpgrade mshr.postInvalidate mshr.postDowngrade) back
    (requests mshr.deferredTargets.targets)

variable {mshr next : MSHR} {front back : List SnoopMark} {pkt : Packet} {whenReady order curTick blkSize : Nat}
  {blkAddr : BitVec 64} {allocOnFill : Bool}

theorem Follows.front_length (held : Follows mshr front back) : front.length = mshr.active := held.front.length_eq

theorem Follows.allocate (held : Follows mshr front back)
    (done : mshr.allocate blkAddr blkSize pkt whenReady order allocOnFill = .ok next) :
    front = [] ∧ back = [] ∧ Follows next [.fresh pkt.cmd] [] := by
  obtain ⟨noTargets, noDeferred, source, request, _, targets, deferred⟩ := MSHR.allocate_eq done
  obtain ⟨active, waiting⟩ := held
  rw [noTargets] at active
  rw [noDeferred] at waiting
  refine ⟨forall₂_nil_right_iff.mp active, forall₂_nil_right_iff.mp waiting, ?_, ?_⟩
  · rw [targets, requests_add request]
    simp only [TargetList.init, noTargets]
    refine .cons ⟨⟨.inl rfl, (absurd · Bool.false_ne_true)⟩, rfl, rfl, fun _ => ?_⟩ .nil
    exact covers_updateFlags _ _ _ _ _ request
  · simp only [deferred, TargetList.init, noDeferred]
    exact .nil

theorem new_eq_fresh {first : Packet} (stays : mshr.defers first pkt = false) : new mshr pkt.cmd = fresh pkt.cmd := by
  simp only [MSHR.defers, Bool.or_eq_false_iff, Bool.and_eq_false_iff] at stays
  rcases stays.2 with unissued | ⟨valid, copy⟩
  · simp only [new, fresh, unissued, Bool.false_and]
  · rcases copy with readable | ⟨⟨modified, exclusive⟩, _⟩
    · simp only [new, fresh, valid, readable, Bool.false_and, Bool.and_false, Bool.or_false]
    · simp only [new, fresh, valid, exclusive, modified, Bool.and_false, Bool.or_false]

theorem Follows.allocateTarget (held : Follows mshr front back)
    (done : mshr.allocateTarget pkt whenReady order allocOnFill = .ok next) :
    Follows next front (back ++ [.new mshr pkt.cmd]) ∨ back = [] ∧ Follows next (front ++ [.new mshr pkt.cmd]) [] := by
  obtain ⟨_, _, done⟩ := bind_eq_ok.mp done
  obtain ⟨first, _, done⟩ := bind_eq_ok.mp done
  split at done
  · cases done
    refine .inl ⟨held.front, ?_⟩
    rw [requests_add (by decide)]
    refine rel_append (held.back.imp fun _ _ waiting => ?_) (.cons ?_ .nil)
    · exact { waiting with covers := waiting.covers.mono hasUpgrade_of_updateFlags }
    · refine ⟨⟨?_, fun exposed => ?_⟩, fun barred => ?_, fun awaiting => ?_, rfl,
        covers_updateFlags _ _ _ _ _ (by decide)⟩
      · split
        · exact .inr rfl
        · exact .inl rfl
      · have replaces : (mshr.inService && mshr.postInvalidate) = true := exposed
        rw [if_pos replaces]
        rfl
      · simp only [new, Bool.and_eq_true, Bool.or_eq_true] at barred
        rcases barred.2 with invalidated | ⟨needs, downgraded⟩
        · exact .inl invalidated
        · exact .inr ⟨downgraded, needs⟩
      · simp only [new, Bool.and_eq_true] at awaiting
        exact awaiting.1.2
  · rename_i stays
    cases done
    rw [new_eq_fresh (Bool.eq_false_iff.mpr stays)]
    have noDeferred := MSHR.noDeferred_of_stays stays
    have waiting := held.back
    rw [noDeferred] at waiting
    refine .inr ⟨forall₂_nil_right_iff.mp waiting, ?_, ?_⟩
    · rw [requests_add (by decide)]
      refine rel_append (held.front.imp fun _ _ active => ?_) (.cons ?_ .nil)
      · exact { active with covers := fun promoted => (active.covers promoted).mono hasUpgrade_of_updateFlags }
      · exact ⟨⟨.inl rfl, fun exposed => nomatch exposed⟩, rfl, rfl, fun _ => covers_updateFlags _ _ _ _ _ (by decide)⟩
    · rw [noDeferred]
      exact .nil

/-- The requests of a list keep their marks when its flags are computed. -/
theorem forall_populateFlags {list : TargetList} {marks : List SnoopMark} {Before After : SnoopMark → Target → Prop}
    (held : List.Forall₂ Before marks (requests list.targets))
    (covered : ∀ mark t, Before mark t → Covers list.populateFlags.hasUpgrade t.pkt.cmd → After mark t) :
    List.Forall₂ After marks (requests list.populateFlags.targets) := by
  rw [populateFlags_targets]
  obtain ⟨length, related⟩ := forall₂_iff_zip.mp held
  refine forall₂_iff_zip.mpr ⟨length, fun {mark t} member => ?_⟩
  exact covered mark t (related member) (covers_populateFlags (of_mem_zip member).2)

section
variable (held : Follows mshr front back)
include held

/-- The bars stay while invalidations and downgrades are recorded. -/
theorem Follows.congr (targets : requests next.targets.targets = requests mshr.targets.targets)
    (upgrades : next.targets.hasUpgrade = mshr.targets.hasUpgrade)
    (deferred : next.deferredTargets = mshr.deferredTargets)
    (invalidates : mshr.postInvalidate = true → next.postInvalidate = true)
    (downgrades : mshr.postDowngrade = true → next.postDowngrade = true) : Follows next front back := by
  constructor
  · rw [targets, upgrades]
    exact held.front
  · rw [deferred]
    refine held.back.imp fun _ _ waiting => { waiting with barred := fun barred => ?_ }
    rcases waiting.barred barred with invalidated | ⟨downgraded, needs⟩
    · exact .inl (invalidates invalidated)
    · exact .inr ⟨downgrades downgraded, needs⟩

theorem Follows.downgrade (pkt : Packet) : Follows (mshr.downgrade pkt).2 front back := by
  unfold MSHR.downgrade
  split
  · exact held.congr rfl rfl rfl id fun _ => rfl
  · exact held

theorem Follows.saveSnoop (willRespond : Bool) : Follows (mshr.saveSnoop pkt order curTick willRespond) front back := by
  refine held.congr (requests_append.trans (by exact append_nil _)) rfl rfl (fun recorded => ?_) id
  simp only [MSHR.saveSnoop, recorded, Bool.true_or]

theorem Follows.snoopAfter {result : Bool} {answered : Packet}
    (done : mshr.snoopAfter pkt order curTick = .ok (result, answered, next)) : Follows next front back := by
  rcases MSHR.snoopAfter_cases done with rfl | ⟨willRespond, told, rfl⟩ | rfl
  · exact held
  · exact (held.saveSnoop willRespond).downgrade told
  · exact held.downgrade pkt

/-- The upgrades of a list are replaced. -/
theorem Follows.exposeBack :
    Follows { mshr with deferredTargets := mshr.deferredTargets.replaceUpgrades } front (back.map expose) := by
  refine ⟨held.front, ?_⟩
  rw [replaceUpgrades_requests, replaceUpgrades_hasUpgrade]
  exact forall₂_map_left_iff.mpr (forall₂_map_right_iff.mpr (held.back.imp fun _ _ waiting => waiting.expose))

theorem Follows.exposeFront :
    Follows { mshr with targets := mshr.targets.replaceUpgrades } (front.map expose) back := by
  refine ⟨?_, held.back⟩
  rw [replaceUpgrades_requests, replaceUpgrades_hasUpgrade]
  exact forall₂_map_left_iff.mpr (forall₂_map_right_iff.mpr (held.front.imp fun _ _ active => active.expose))

theorem Follows.handleSnoop {result : Bool} {answered : Packet}
    (done : mshr.handleSnoop pkt order curTick = .ok (result, answered, next)) :
    ∃ newFront newBack, MSHR.Op.mark mshr next [] (front ++ back) (.handleSnoop pkt order curTick) = newFront ++ newBack ∧
      Follows next newFront newBack := by
  have cases := MSHR.handleSnoop_cases done
  unfold MSHR.snoopBefore MSHR.snoopDeferred at cases
  rw [MSHR.Op.mark, MSHR.takesAway, MSHR.precededBy]
  split
  · rename_i away
    rw [if_pos away, if_pos away] at cases
    split
    · rename_i before
      rw [if_pos before] at cases
      subst cases
      exact ⟨_, _, map_append, held.exposeFront.exposeBack⟩
    · rename_i after
      rw [if_neg after] at cases
      rw [← held.front_length, take_left, drop_left]
      exact ⟨_, _, rfl, held.exposeBack.snoopAfter cases⟩
  · rename_i harmless
    rw [if_neg harmless, if_neg harmless] at cases
    refine ⟨front, back, rfl, ?_⟩
    split at cases
    · exact cases ▸ held
    · exact held.snoopAfter cases

/-- A request keeps its command when the next response is another one. -/
theorem Follows.lift (same : next.deferredTargets = mshr.deferredTargets)
    (active : List.Forall₂ (Active next.targets.hasUpgrade) front (requests next.targets.targets)) :
    Follows next (front.map lift) (back.map lift) where
  front := forall₂_map_left_iff.mpr (active.imp fun _ _ active => ⟨{ active with }, rfl, rfl, active.covers⟩)
  back := forall₂_map_left_iff.mpr (same ▸ held.back.imp fun _ _ waiting =>
    ⟨{ waiting with }, (fun barred => nomatch barred), (fun awaiting => nomatch awaiting),
      waiting.promoted, waiting.covers⟩)

/-- A response takes the marks of the requests that do not stay. -/
theorem Follows.extract {response : MemCmd} {ready : TargetList}
    (done : mshr.extractServiceableTargets response = .ok (ready, next)) :
    ((requests ready.targets).filter fun t => !t.isLocked).length ≤ front.length ∧
      Follows next (front.drop ((requests ready.targets).filter fun t => !t.isLocked).length) back := by
  obtain ⟨⟨handed, kept⟩, serviced, rfl, rfl⟩ := bind_pair_eq_ok.mp done
  rw [populateFlags_targets]
  have rest := (MSHR.service_serviced serviced).rest
  have active := held.front
  rw [rest] at active
  have shorter : ((requests handed).filter fun t => !t.isLocked).length ≤ front.length := by
    rw [active.length_eq, length_append]
    exact Nat.le_add_right _ _
  have later := forall₂_drop ((requests handed).filter fun t => !t.isLocked).length active
  rw [drop_left] at later
  refine ⟨shorter, forall_populateFlags later fun mark t active covers => ?_, held.back⟩
  exact { active with covers := fun _ => covers }

/-- The marks of the deferred requests split with them. -/
theorem Follows.split {first last : List Target} (parts : first ++ last = mshr.deferredTargets.targets) :
    ∃ moved kept, back = moved ++ kept ∧
      List.Forall₂ (Waiting mshr.deferredTargets.hasUpgrade mshr.postInvalidate mshr.postDowngrade) moved
        (requests first) ∧
      List.Forall₂ (Waiting mshr.deferredTargets.hasUpgrade mshr.postInvalidate mshr.postDowngrade) kept
        (requests last) := by
  have waiting := held.back
  rw [← parts, requests_append] at waiting
  exact ⟨_, _, (take_append_drop (requests first).length back).symm, forall₂_take_append _ _ _ waiting,
    forall₂_drop_append _ _ _ waiting⟩

/-- The marks of the promoted requests follow them into the list of the targets. -/
theorem Follows.promoteIf {pred : Target → Except Fault Bool} {p : Target → Bool} (change : SnoopMark → SnoopMark)
    (means : ∀ t holds, pred t = .ok holds → t.source = .fromCPU ∧ holds = p t)
    (promotes : ∀ mark t, Waiting mshr.deferredTargets.hasUpgrade mshr.postInvalidate mshr.postDowngrade mark t → p t =
      true → Active mshr.targets.hasUpgrade (change mark) t) (done : mshr.promoteIf pred = .ok next) :
    ∃ moved kept, back = moved ++ kept ∧ next.active = mshr.active + moved.length ∧
      Follows next (front ++ moved.map change) kept := by
  have unchanged : next.postInvalidate = mshr.postInvalidate ∧ next.postDowngrade = mshr.postDowngrade := by
    obtain ⟨_, _, done⟩ := bind_eq_ok.mp done
    obtain ⟨_, _, rfl⟩ := bind_ok_eq_ok.mp done
    exact ⟨rfl, rfl⟩
  obtain ⟨_, targets, deferred⟩ := MSHR.promoteIf_eq means done
  obtain ⟨moved, kept, whole, promoted, stays⟩ := held.split (takeWhile_append_dropWhile (p := p))
  refine ⟨moved, kept, whole, ?_, ?_, ?_⟩
  · rw [MSHR.active, targets, requests_append, length_append, requests_clearPending, length_map, promoted.length_eq]
    rfl
  · rw [targets, requests_append, requests_clearPending]
    refine rel_append held.front (forall₂_map_left_iff.mpr (forall₂_map_right_iff.mpr ?_))
    obtain ⟨length, related⟩ := forall₂_iff_zip.mp promoted
    refine forall₂_iff_zip.mpr ⟨length, fun {mark t} member => ?_⟩
    have taken := (mem_filter.mp (of_mem_zip member).2).1
    have active := promotes mark t (related member) (mem_takeWhile_imp taken)
    exact { active with }
  · rw [unchanged.1, unchanged.2, deferred]
    refine forall_populateFlags stays fun mark t waiting covers => ?_
    exact { waiting with covers }

theorem Follows.promoteReadable (done : mshr.promoteReadable = .ok next) :
    ∃ moved kept, back = moved ++ kept ∧ Follows next (front ++ moved) kept := by
  rcases MSHR.promoteReadable_cases done with rfl | ⟨_, valid, done⟩
  · exact ⟨[], back, rfl, by rwa [append_nil]⟩
  have promotes : ∀ mark t, Waiting mshr.deferredTargets.hasUpgrade mshr.postInvalidate mshr.postDowngrade mark t →
      MSHR.usesReadable t = true → Active mshr.targets.hasUpgrade (id mark) t := by
    intro mark t waiting reads
    simp only [MSHR.usesReadable, Bool.and_eq_true, Bool.not_eq_true'] at reads
    have readable : mark.cmd.needsWritable = false := waiting.needsWritable ▸ reads.2
    have unbarred : mark.barred = false := by simpa [valid, readable] using waiting.barred
    have served : mark.awaiting = false := by simpa [readable] using waiting.awaiting
    exact ⟨waiting.toMatches, unbarred, served, fun _ => .inr (MemCmd.replaceUpgrade_of_readable reads.2)⟩
  obtain ⟨moved, kept, whole, _, follows⟩ := held.promoteIf id (fun _ _ => MSHR.readable_means) promotes done
  exact ⟨moved, kept, whole, by rwa [map_id] at follows⟩

theorem Follows.promoteWritable (done : mshr.promoteWritable = .ok next) :
    ∃ moved kept, back = moved ++ kept ∧ next.active = mshr.active + moved.length ∧
      Follows next (front ++ moved.map promote) kept := by
  rcases MSHR.promoteWritable_cases done with rfl | ⟨⟨_, _, _, _, valid, undowngraded, _⟩, done⟩
  · exact ⟨[], back, rfl, rfl, by rwa [map_nil, append_nil]⟩
  · have same : Follows { mshr with targets := { mshr.targets with needsWritable := true } } front back := { held with }
    refine same.promoteIf promote (fun _ _ => MSHR.writable_means) (fun mark t waiting _ => ?_) done
    have unbarred : mark.barred = false := by simpa [valid, undowngraded] using waiting.barred
    exact ⟨{ waiting with }, unbarred, rfl, fun promoted => nomatch promoted⟩

theorem Follows.promoteDeferredTargets {result : Bool} (done : mshr.promoteDeferredTargets curTick = .ok (result, next)) :
    ∃ moved kept, back = moved ++ kept ∧ Follows next ((front ++ moved).map SnoopMark.lift) (kept.map SnoopMark.lift) := by
  unfold MSHR.promoteDeferredTargets at done
  split at done
  · cases done
    exact ⟨[], back, rfl, by rw [append_nil]; exact held.lift rfl held.front⟩
  have parts := MSHR.promotable_append mshr.targets.targets.isEmpty mshr.deferredTargets.targets
  rcases promotes : MSHR.promotable mshr.targets.targets.isEmpty mshr.deferredTargets.targets with ⟨first, rest⟩
  rw [promotes] at done parts
  obtain ⟨head, _, _, rfl⟩ := bind_pair_eq_ok.mp done
  obtain ⟨moved, kept, whole, promoted, stays⟩ := held.split parts
  refine ⟨moved, kept, whole, ?_, ?_⟩
  · have both : List.Forall₂ SnoopMark.Matches (front ++ moved) (requests (mshr.targets.targets ++ first)) := by
      rw [requests_append]
      exact rel_append (held.front.imp fun _ _ active => active.toMatches)
        (promoted.imp fun _ _ waiting => waiting.toMatches)
    refine forall₂_map_left_iff.mpr (forall_populateFlags both fun mark t related covers => ?_)
    exact ⟨{ related with }, rfl, rfl, fun _ => covers⟩
  · refine forall₂_map_left_iff.mpr (forall_populateFlags stays fun mark t waiting covers => ?_)
    exact ⟨{ waiting with }, (fun barred => nomatch barred), (fun awaiting => nomatch awaiting),
      waiting.promoted, covers⟩

/-- The pending marks of the targets do not matter. -/
theorem Follows.clearPending :
    List.Forall₂ (Active mshr.targets.hasUpgrade) front (requests mshr.targets.clearDownstreamPending.targets) := by
  rw [TargetList.clearDownstreamPending, requests_clearPending]
  exact forall₂_map_right_iff.mpr (held.front.imp fun _ _ active => { active with })

theorem Follows.markInService {pendingModifiedResp : Bool} (done : mshr.markInService pendingModifiedResp = .ok next) :
    Follows next (front.map SnoopMark.lift) (back.map SnoopMark.lift) := by
  obtain ⟨_, _, rfl⟩ := bind_ok_eq_ok.mp done
  refine held.lift (by rfl) ?_
  dsimp only
  split
  · exact held.front
  · exact held.clearPending

theorem Follows.clearDownstreamPending (done : mshr.clearDownstreamPending = .ok next) : Follows next front back := by
  obtain ⟨_, _, rfl⟩ := bind_ok_eq_ok.mp done
  exact ⟨held.clearPending, held.back⟩

theorem Follows.deallocate (done : mshr.deallocate = .ok next) : Follows next front back := by
  obtain ⟨none, done⟩ := assert_bind_eq_ok.mp done
  obtain ⟨_, _, rfl⟩ := bind_ok_eq_ok.mp done
  have active := held.front
  rw [none] at active
  refine ⟨?_, held.back⟩
  simp only [TargetList.resetFlags, none]
  rw [forall₂_nil_right_iff.mp active]
  exact .nil

end

/-- The marks follow the requests in every step. -/
theorem Follows.step (held : Follows mshr front back) {op : MSHR.Op} {handed : List Target}
    (done : mshr.step op = .ok (handed, next)) :
    ∃ newFront newBack, op.mark mshr next handed (front ++ back) = newFront ++ newBack ∧
      Follows next newFront newBack := by
  cases op with
  | allocate blkAddr blkSize target whenReady order allocOnFill =>
    obtain ⟨result, allocated, rfl, rfl⟩ := bind_pair_eq_ok.mp done
    obtain ⟨rfl, rfl, follows⟩ := held.allocate allocated
    exact ⟨[.fresh target.cmd], [], rfl, follows⟩
  | allocateTarget pkt whenReady order allocOnFill =>
    obtain ⟨result, allocated, rfl, rfl⟩ := bind_pair_eq_ok.mp done
    rcases held.allocateTarget allocated with follows | ⟨rfl, follows⟩
    · exact ⟨_, _, append_assoc _ _ _, follows⟩
    · exact ⟨_, _, by rw [append_nil, append_nil]; rfl, follows⟩
  | markInService pendingModifiedResp =>
    obtain ⟨result, marked, rfl, rfl⟩ := bind_pair_eq_ok.mp done
    exact ⟨front.map SnoopMark.lift, back.map SnoopMark.lift, map_append, held.markInService marked⟩
  | promoteDeferredTargets curTick =>
    obtain ⟨⟨result, after⟩, promoted, rfl, rfl⟩ := bind_pair_eq_ok.mp done
    obtain ⟨moved, kept, rfl, follows⟩ := held.promoteDeferredTargets promoted
    exact ⟨_, _, by rw [← map_append, append_assoc]; rfl, follows⟩
  | promoteReadable =>
    obtain ⟨result, promoted, rfl, rfl⟩ := bind_pair_eq_ok.mp done
    obtain ⟨moved, kept, rfl, follows⟩ := held.promoteReadable promoted
    exact ⟨_, _, (append_assoc _ _ _).symm, follows⟩
  | promoteWritable =>
    obtain ⟨result, promoted, rfl, rfl⟩ := bind_pair_eq_ok.mp done
    obtain ⟨moved, kept, rfl, more, follows⟩ := held.promoteWritable promoted
    refine ⟨_, _, ?_, follows⟩
    rw [MSHR.Op.mark, more, ← held.front_length, take_left, drop_left, Nat.add_sub_cancel_left, take_left,
      ← append_assoc front, ← length_append, drop_left]
  | handleSnoop pkt order curTick =>
    obtain ⟨⟨result, answered, after⟩, snooped, rfl, rfl⟩ := bind_pair_eq_ok.mp done
    exact held.handleSnoop snooped
  | extractServiceableTargets response =>
    obtain ⟨⟨ready, result⟩, extracted, rfl, rfl⟩ := bind_pair_eq_ok.mp done
    obtain ⟨shorter, follows⟩ := held.extract extracted
    exact ⟨_, _, drop_append_of_le_length shorter, follows⟩
  | clearDownstreamPending =>
    obtain ⟨result, cleared, rfl, rfl⟩ := bind_pair_eq_ok.mp done
    exact ⟨front, back, rfl, held.clearDownstreamPending cleared⟩
  | markPending =>
    obtain ⟨result, marked, rfl, rfl⟩ := bind_pair_eq_ok.mp done
    obtain ⟨_, _, rfl⟩ := bind_ok_eq_ok.mp marked
    exact ⟨front, back, rfl, held.front, held.back⟩
  | deallocate =>
    obtain ⟨result, freed, rfl, rfl⟩ := bind_pair_eq_ok.mp done
    exact ⟨front, back, rfl, held.deallocate freed⟩
  | setDownstreamPending | setForward isForward =>
    cases done
    exact ⟨front, back, rfl, held.front, held.back⟩

theorem follows_run {ops : List MSHR.Op} {trace : SnoopTrace} (run : snooped.Run initial ops trace) :
    ∃ front back, trace.marks = front ++ back ∧ Follows trace.mshr front back := by
  refine run.invariant (fun trace => ∃ front back, trace.marks = front ++ back ∧ Follows trace.mshr front back)
    ⟨[], [], rfl, .nil, .nil⟩ ?_
  rintro before op after ⟨front, back, whole, held⟩ _ stepped
  obtain ⟨⟨handed, mshr⟩, done, rfl⟩ := bind_ok_eq_ok.mp stepped
  rw [whole]
  exact held.step done

theorem forall_getElem {Rel : SnoopMark → Target → Prop} {marks : List SnoopMark} {targets : List Target}
    (held : List.Forall₂ Rel marks targets) {position : Nat} {mark : SnoopMark} {t : Target}
    (first : marks[position]? = some mark) (second : targets[position]? = some t) : Rel mark t := by
  apply (forall₂_iff_zip.mp held).2
  exact mem_of_getElem? (List.getElem?_zip_eq_some.mpr ⟨first, second⟩)

/-- The marks of the first requests are those of the targets. -/
theorem Follows.active (held : Follows mshr front back) {position : Nat} {mark : SnoopMark}
    (found : (front ++ back)[position]? = some mark) (inside : position < mshr.active) :
    mark.barred = false ∧ mark.awaiting = false := by
  have place : position < front.length := held.front_length ▸ inside
  rw [List.getElem?_append_left place] at found
  obtain ⟨t, second⟩ : ∃ t, (requests mshr.targets.targets)[position]? = some t := ⟨_, List.getElem?_eq_getElem inside⟩
  have active := forall_getElem held.front found second
  exact ⟨active.barred, active.awaiting⟩

theorem Follows.all_match (held : Follows mshr front back) :
    List.Forall₂ SnoopMark.Matches (front ++ back) mshr.sequence :=
  rel_append (held.front.imp fun _ _ active => active.toMatches)
    (held.back.imp fun _ _ waiting => waiting.toMatches)

/-- The response hands out no request that is barred from it or still awaits a writable copy, such requests are deferred,
and a request that comes after an invalidation is no upgrade. -/
theorem snoops_in_order {ops : List MSHR.Op} {trace : SnoopTrace} (run : snooped.Run initial ops trace) :
    trace.marks.length = trace.mshr.sequence.length ∧
    (∀ response ready next, trace.mshr.extractServiceableTargets response = .ok (ready, next) →
      ∀ (position : Nat) (t : Target), (requests ready.targets)[position]? = some t →
        trace.mshr.sequence[position]? = some t ∧
        ∃ mark, trace.marks[position]? = some mark ∧ mark.barred = false ∧ mark.awaiting = false) ∧
    (∀ (position : Nat) (mark : SnoopMark), trace.marks[position]? = some mark →
      mark.barred = true ∨ mark.awaiting = true → trace.mshr.active ≤ position) ∧
    ∀ (position : Nat) (mark : SnoopMark) (t : Target), trace.marks[position]? = some mark →
      trace.mshr.sequence[position]? = some t →
      (t.pkt.cmd = mark.cmd ∨ t.pkt.cmd = mark.cmd.replaceUpgrade) ∧
      (mark.exposed = true → t.pkt.cmd = mark.cmd.replaceUpgrade) := by
  obtain ⟨front, back, whole, held⟩ := follows_run run
  rw [whole]
  have length := held.all_match.length_eq
  refine ⟨length, fun response ready next done position t handed => ?_, fun position mark found kept => ?_,
    fun position mark t found second => ?_⟩
  · obtain ⟨serviced, _⟩ := MSHR.extract_serviced done
    obtain ⟨rest, first⟩ := serviced.first
    obtain ⟨inside, _⟩ := List.getElem?_eq_some_iff.mp handed
    have place : position < trace.mshr.active := by
      rw [MSHR.active, ← first, length_append]
      omega
    have same : trace.mshr.sequence[position]? = some t := by
      rw [MSHR.sequence, List.getElem?_append_left place, ← first, List.getElem?_append_left inside, handed]
    obtain ⟨bound, _⟩ := List.getElem?_eq_some_iff.mp same
    have found : (front ++ back)[position]? = some (front ++ back)[position] := List.getElem?_eq_getElem (by omega)
    exact ⟨same, _, found, held.active found place⟩
  · by_contra early
    obtain ⟨free, ready⟩ := held.active found (by omega)
    rw [free, ready] at kept
    simp at kept
  · have related := forall_getElem held.all_match found second
    exact ⟨related.cmd, related.exposed⟩

/-- An upgrade that comes after an invalidation waits behind the pending read and becomes a read of the line. -/
theorem snoops_in_order_barred : ∃ trace, snooped.Run initial
      [.allocateTarget (.atZero 3 .upgradeReq rfl 8 0) 30 3 true, .handleSnoop (.atZero 2 .readExReq rfl 8 0) 2 20,
        .markInService false, .allocate 0 64 (.atZero 1 .readReq rfl 8 0) 10 1 true] trace ∧
    trace.marks.map (fun mark => (mark.cmd, mark.barred, mark.exposed)) =
      [(.readReq, false, false), (.upgradeReq, true, true)] ∧
    ∀ t, trace.mshr.sequence[1]? = some t → t.pkt.cmd = .readExReq := by
  refine ⟨_, and_of_imp (.cons (.cons (.cons (.cons .nil trivial rfl) trivial rfl) trivial rfl) trivial rfl) fun run => ?_⟩
  exact ⟨rfl, fun t found => ((snoops_in_order run).2.2.2 1 _ t rfl found).2 rfl⟩

/-- A write that comes after a read without a modified copy is handed out with it when the deferred targets are promoted
for a writable copy. -/
theorem snoops_promoted : ∃ trace, snooped.Run initial
      [.promoteWritable, .allocateTarget (.atZero 2 .writeReq rfl 8 0) 20 2 true, .markInService false,
        .allocate 0 64 (.atZero 1 .readReq rfl 8 0) 10 1 true] trace ∧
    trace.mshr.inService = true ∧ trace.mshr.pendingModified = false ∧
    ∃ ready next, trace.mshr.extractServiceableTargets .readResp = .ok (ready, next) ∧
      ready.targets.map (fun t => (t.pkt.id, t.pkt.cmd.needsWritable)) = [(1, false), (2, true)] :=
  ⟨_, .cons (.cons (.cons (.cons .nil trivial rfl) trivial rfl) trivial rfl) trivial rfl, rfl, rfl, _, _, rfl, rfl⟩

end SnoopTrace
end Gem5
