import Gem5.Construction.Mem.Mshr

namespace Gem5.MSHR
open ToMathlib
variable {mshr next : MSHR} {pkt answered : Packet} {order curTick : Nat} {result : Bool}

/-- A snoop behind the request of the register leaves it, or downgrades it and may be saved before. -/
theorem snoopAfter_cases (done : mshr.snoopAfter pkt order curTick = .ok (result, answered, next)) :
    next = mshr ∨ (∃ willRespond told, next = ((mshr.saveSnoop pkt order curTick willRespond).downgrade told).2) ∨
      next = (mshr.downgrade pkt).2 := by
  unfold snoopAfter at done
  obtain ⟨front, _, done⟩ := bind_eq_ok.mp done
  split at done
  · obtain ⟨_, _, same⟩ : true = result ∧ pkt = answered ∧ mshr = next := by simpa using done
    exact .inl same.symm
  · split at done
    · obtain ⟨told, _, _, pair⟩ := bind_pair_eq_ok.mp done
      exact .inr (.inl ⟨_, told, (congrArg Prod.snd pair).symm⟩)
    · obtain ⟨_, pair⟩ := Prod.mk.inj (Except.ok.inj done)
      exact .inr (.inr (congrArg Prod.snd pair).symm)

theorem handleSnoop_cases (done : mshr.handleSnoop pkt order curTick = .ok (result, answered, next)) :
    if !mshr.inService || (pkt.expressSnoop && mshr.downstreamPending) then next = mshr.snoopBefore pkt
    else (mshr.snoopDeferred pkt).snoopAfter pkt order curTick = .ok (result, answered, next) := by
  obtain ⟨_, done⟩ := ite_error_eq_ok.mp done
  split
  · rename_i before
    rw [if_pos before] at done
    exact (congrArg (·.2.2) (Except.ok.inj done)).symm
  · rename_i after
    rwa [if_neg after] at done

theorem promoteReadable_cases (done : mshr.promoteReadable = .ok next) :
    next = mshr ∨ mshr.deferredTargets.targets ≠ [] ∧ mshr.postInvalidate = false ∧
      mshr.promoteIf readable = .ok next := by
  unfold promoteReadable at done
  split at done
  · exact .inl (Except.ok.inj done).symm
  · rename_i some
    obtain ⟨_, _, done⟩ := bind_eq_ok.mp done
    split at done
    · exact .inl (Except.ok.inj done).symm
    · rename_i valid
      exact .inr ⟨some, by simpa using valid, done⟩

theorem promoteWritable_cases (done : mshr.promoteWritable = .ok next) :
    next = mshr ∨ (∃ front rest, mshr.deferredTargets.targets = front :: rest ∧
      mshr.deferredTargets.needsWritable = true ∧ mshr.postInvalidate = false ∧ mshr.postDowngrade = false ∧
        front.pkt.req.isCacheInvalidate = false) ∧
      { mshr with targets := { mshr.targets with needsWritable := true } }.promoteIf writable = .ok next := by
  unfold promoteWritable at done
  split at done
  · exact .inl (Except.ok.inj done).symm
  rename_i front rest deferred
  obtain ⟨awaits, tested, done⟩ := bind_eq_ok.mp done
  split at done
  · rename_i acts
    obtain ⟨_, _, done⟩ := bind_eq_ok.mp done
    unfold awaitsWritable at tested
    split at tested
    · rename_i needs
      obtain ⟨_, _, rfl⟩ := bind_ok_eq_ok.mp tested
      simp only [Bool.and_eq_true, Bool.not_eq_true', Bool.or_eq_false_iff] at acts
      exact .inr ⟨⟨front, rest, deferred, needs, acts.1.1, acts.1.2, acts.2⟩, done⟩
    · rw [← Except.ok.inj tested] at acts
      cases acts
  · exact .inl (Except.ok.inj done).symm

/-- The loop splits at the first target that does not satisfy the condition. -/
theorem splitWhile_eq {pred : Target → Except Fault Bool} {targets first last : List Target}
    (done : splitWhile pred targets = .ok (first, last)) :
    first ++ last = targets ∧ (∀ t ∈ first, pred t = .ok true) ∧ ∀ t ∈ last.head?, pred t = .ok false := by
  induction targets generalizing first last with
  | nil =>
    obtain ⟨rfl, rfl⟩ : [] = first ∧ [] = last := by simpa [splitWhile] using done
    simp
  | cons t rest ih =>
    rw [splitWhile] at done
    obtain ⟨holds, tested, done⟩ := bind_eq_ok.mp done
    cases holds with
    | true =>
      obtain ⟨⟨laterFirst, laterLast⟩, later, done⟩ := bind_eq_ok.mp done
      cases done
      obtain ⟨whole, taken, left⟩ := ih later
      exact ⟨by rw [List.cons_append, whole], List.forall_mem_cons.mpr ⟨tested, taken⟩, left⟩
    | false =>
      cases done
      simpa using tested

end Gem5.MSHR

namespace Gem5
open ToMathlib List

/-- This structure has the parts of a target that never change. -/
structure TargetTag where
  id : Nat
  readyTime : Nat
  order : Nat
  source : Target.Source
  allocOnFill : Bool
deriving DecidableEq, Repr

namespace Target

def tag (t : Target) : TargetTag where
  id := t.pkt.id
  readyTime := t.readyTime
  order := t.order
  source := t.source
  allocOnFill := t.allocOnFill

/-- A target is a request of a processor or a prefetcher. -/
def isRequest (t : Target) : Bool := t.source ≠ .fromSnoop

/-- A target is a read that locks the line. -/
def isLocked (t : Target) : Bool := t.pkt.cmd = .lockedRMWReadReq

/-- The list of the requests among targets. -/
def requests (targets : List Target) : List Target := targets.filter isRequest

def requestTags (targets : List Target) : List TargetTag := (requests targets).map tag

variable {first second targets : List Target} {t : Target}

theorem requests_append : requests (first ++ second) = requests first ++ requests second := filter_append ..

theorem requestTags_append : requestTags (first ++ second) = requestTags first ++ requestTags second := by
  unfold requestTags
  rw [requests_append, map_append]

theorem requests_map {f : Target → Target} (keeps : ∀ t, (f t).source = t.source) :
    requests (targets.map f) = (requests targets).map f := by
  rw [requests, requests, filter_map]
  congr 1
  apply filter_congr
  intro t _
  simp only [Function.comp, isRequest, keeps]

theorem requestTags_map {f : Target → Target} (keeps : ∀ t, (f t).tag = t.tag) :
    requestTags (targets.map f) = requestTags targets := by
  rw [requestTags, requests_map fun t => congrArg TargetTag.source (keeps t), map_map]
  exact map_congr_left fun t _ => keeps t

end Target

namespace TargetList
open Target
variable {list : TargetList}

theorem populateFlags_eq : list.populateFlags = { list with
      toTargetFlags := list.targets.foldl
        (fun flags t => flags.updateFlags list.targets.isEmpty list.blkSize t.pkt t.source t.allocOnFill)
        (.resetFlags list.writesBitmap.length) } := by
  unfold populateFlags
  exact foldl_hom (fun flags => ({ list with toTargetFlags := flags } : TargetList)) fun _ _ => rfl

theorem populateFlags_targets : list.populateFlags.targets = list.targets := by
  rw [populateFlags_eq]

theorem replaceUpgrades_tags : requestTags list.replaceUpgrades.targets = requestTags list.targets := by
  unfold replaceUpgrades
  split
  · exact requestTags_map fun _ => rfl
  · rfl

theorem clearPending_tags (targets : List Target) : requestTags (clearPending targets) = requestTags targets :=
  requestTags_map fun _ => rfl

section
variable {source : Target.Source} (request : source ≠ .fromSnoop) (pkt : Packet) (readyTime order : Nat)
  (markPending allocOnFill : Bool)
include request

/-- A request that is added is the last one. -/
theorem requests_add : requests (list.add pkt readyTime order source markPending allocOnFill).targets =
    requests list.targets ++
      [{ pkt, readyTime, order, source, markedPending := markPending && pkt.senderMSHR, allocOnFill }] := by
  unfold TargetList.add
  rw [requests_append]
  congr 1
  exact filter_cons_of_pos (by simpa [isRequest] using request)

theorem add_request : requestTags (list.add pkt readyTime order source markPending allocOnFill).targets =
    requestTags list.targets ++ [⟨pkt.id, readyTime, order, source, allocOnFill⟩] := by
  rw [requestTags, requests_add request, map_append]
  rfl

end

end TargetList

namespace MSHR
open Target TargetList
variable {mshr next : MSHR} {handed : List Target}

/-- The list of the requests in both target lists. -/
def sequence (mshr : MSHR) : List Target := requests mshr.targets.targets ++ requests mshr.deferredTargets.targets

/-- The list of the tags of the requests in both target lists. -/
def sequenceTags (mshr : MSHR) : List TargetTag :=
  requestTags mshr.targets.targets ++ requestTags mshr.deferredTargets.targets

theorem sequence_tags : mshr.sequence.map tag = mshr.sequenceTags := map_append

section Service
variable {response : MemCmd} {targets ready kept : List Target}

/-- The snoops are handed out, and the requests of the processor stay, which are all others. -/
theorem serviceSnoops_eq (done : serviceSnoops targets = .ok (ready, kept)) :
    requests ready = [] ∧ requests kept = requests targets ∧ kept = targets.filter fun t => t.source = .fromCPU := by
  induction targets generalizing ready kept with
  | nil =>
    obtain ⟨rfl, rfl⟩ : [] = ready ∧ [] = kept := by simpa [serviceSnoops] using done
    exact ⟨rfl, rfl, rfl⟩
  | cons t rest ih =>
    rw [serviceSnoops] at done
    split at done
    · rename_i fromCPU
      obtain ⟨⟨laterReady, laterKept⟩, later, done⟩ := bind_eq_ok.mp done
      cases done
      obtain ⟨none, same, rfl⟩ := ih later
      have request : t.isRequest = true := by simp [isRequest, fromCPU]
      exact ⟨none, by rw [requests, requests, filter_cons_of_pos request, filter_cons_of_pos request,
        ← requests, ← requests, same], (filter_cons_of_pos (by simpa using fromCPU)).symm⟩
    · rename_i other
      obtain ⟨fromSnoop, done⟩ := assert_bind_eq_ok.mp done
      obtain ⟨⟨laterReady, laterKept⟩, later, done⟩ := bind_eq_ok.mp done
      cases done
      obtain ⟨none, same, rfl⟩ := ih later
      have snoop : ¬t.isRequest = true := by simp [isRequest, fromSnoop]
      exact ⟨by rw [requests, filter_cons_of_neg snoop, ← requests, none],
        by rw [same, requests, requests, filter_cons_of_neg snoop], (filter_cons_of_neg (by simpa using other)).symm⟩

/-- The requests that are handed out are the first ones, and only a locked read stays, at the front. -/
structure Serviced (targets ready kept : List Target) : Prop where
  first : requests ready <+: requests targets
  rest : requests targets = (requests ready).filter (fun t => !t.isLocked) ++ requests kept
  locked : ∀ t ∈ requests ready, t.isLocked = true → kept.head? = some t ∧ (requests ready).getLast? = some t

theorem serviced_locked {t : Target} {rest : List Target} (locked : t.isLocked = true) :
    Serviced (t :: rest) [t] (t :: rest) := by
  by_cases request : t.isRequest = true
  · have only : requests [t] = [t] := filter_cons_of_pos request
    constructor
    · rw [only, requests, filter_cons_of_pos request]
      exact ⟨_, rfl⟩
    · rw [only, filter_cons_of_neg (by simp [locked])]
      rfl
    · rw [only]
      intro other member _
      obtain rfl := mem_singleton.mp member
      exact ⟨rfl, rfl⟩
  · have none : requests [t] = [] := filter_cons_of_neg request
    constructor
    · rw [none]
      exact nil_prefix
    · rw [none]
      rfl
    · rw [none]
      intro other member
      exact absurd member not_mem_nil

theorem Serviced.cons {t : Target} (serviced : Serviced targets ready kept) (unlocked : t.isLocked = false) :
    Serviced (t :: targets) (t :: ready) kept := by
  by_cases request : t.isRequest = true
  · have front : ∀ l, requests (t :: l) = t :: requests l := fun l => filter_cons_of_pos request
    constructor
    · rw [front, front]
      exact (prefix_cons_inj t).mpr serviced.first
    · rw [front, front, filter_cons_of_pos (by simp [unlocked]), cons_append, ← serviced.rest]
    · rw [front]
      intro other member locked
      rcases mem_cons.mp member with rfl | later
      · rw [unlocked] at locked
        cases locked
      · obtain ⟨head, last⟩ := serviced.locked other later locked
        refine ⟨head, ?_⟩
        rw [getLast?_cons, last]
        rfl
  · have skip : ∀ l, requests (t :: l) = requests l := fun l => filter_cons_of_neg request
    exact ⟨by rw [skip, skip]; exact serviced.first, by rw [skip, skip]; exact serviced.rest,
      by rw [skip]; exact serviced.locked⟩

theorem serviceAll_serviced (targets : List Target) :
    Serviced targets (serviceAll targets).1 (serviceAll targets).2 := by
  induction targets with
  | nil => exact ⟨ nil_prefix, rfl, by simp [serviceAll, requests]⟩
  | cons t rest ih =>
    rw [serviceAll]
    split
    · rename_i locked
      exact serviced_locked (by simp [isLocked, locked])
    · rename_i unlocked
      exact ih.cons (by simp [isLocked, unlocked])

theorem serviceFirst_serviced (done : serviceFirst targets = .ok (ready, kept)) : Serviced targets ready kept := by
  cases targets with
  | nil => simp [serviceFirst] at done
  | cons t rest =>
    obtain ⟨_, source, done⟩ := bind_eq_ok.mp done
    split at done
    · rename_i locked
      cases done
      exact serviced_locked (by simp [isLocked, locked])
    · rename_i unlocked
      obtain ⟨⟨laterReady, laterKept⟩, later, done⟩ := bind_eq_ok.mp done
      obtain ⟨rfl, rfl⟩ : t :: laterReady = ready ∧ laterKept = kept := by simpa using done
      obtain ⟨none, same, _⟩ := serviceSnoops_eq later
      have others : Serviced rest laterReady laterKept :=
        ⟨by rw [none]; exact nil_prefix, by rw [none, same]; rfl, by rw [none]; simp⟩
      exact others.cons (by simp [isLocked, unlocked])

theorem service_serviced (done : service response targets = .ok (ready, kept)) : Serviced targets ready kept := by
  unfold service at done
  split at done
  · exact serviceFirst_serviced done
  · have parts := Except.ok.inj done
    have all := serviceAll_serviced targets
    rw [parts] at all
    exact all

end Service

section Moves
variable {pkt : Packet} {whenReady order curTick blkSize : Nat} {blkAddr : BitVec 64} {allocOnFill : Bool}

theorem allocate_eq (done : mshr.allocate blkAddr blkSize pkt whenReady order allocOnFill = .ok next) :
    mshr.targets.targets = [] ∧ mshr.deferredTargets.targets = [] ∧ ∃ source ≠ Source.fromSnoop,
      source = (if pkt.cmd = .hardPFReq then .fromPrefetcher else .fromCPU) ∧
      next.targets = (mshr.targets.init blkAddr blkSize).add pkt whenReady order source true allocOnFill ∧
      next.deferredTargets = mshr.deferredTargets.init blkAddr blkSize := by
  obtain ⟨free, done⟩ := assert_bind_eq_ok.mp done
  obtain ⟨front, _, done⟩ := bind_eq_ok.mp done
  obtain ⟨_, _, rfl⟩ := bind_ok_eq_ok.mp done
  obtain ⟨noTargets, noDeferred⟩ := Nat.add_eq_zero_iff.mp free
  exact ⟨length_eq_zero_iff.mp noTargets, length_eq_zero_iff.mp noDeferred, _, by split <;> decide, rfl, rfl, rfl⟩

theorem allocate_tags (done : mshr.allocate blkAddr blkSize pkt whenReady order allocOnFill = .ok next) :
    mshr.sequenceTags = [] ∧ next.sequenceTags =
      [⟨pkt.id, whenReady, order, if pkt.cmd = .hardPFReq then .fromPrefetcher else .fromCPU, allocOnFill⟩] := by
  obtain ⟨noTargets, noDeferred, source, request, rfl, targets, deferred⟩ := allocate_eq done
  constructor
  · rw [sequenceTags, noTargets, noDeferred]
    rfl
  · rw [sequenceTags, targets, deferred, add_request request]
    simp only [TargetList.init, noTargets, noDeferred]
    rfl

theorem noDeferred_of_stays {first : Packet} (stays : ¬mshr.defers first pkt = true) :
    mshr.deferredTargets.targets = [] := by
  cases some : mshr.deferredTargets.targets with
  | nil => rfl
  | cons t rest => exact absurd (by simp [defers, some]) stays

theorem allocateTarget_tags (done : mshr.allocateTarget pkt whenReady order allocOnFill = .ok next) :
    next.sequenceTags = mshr.sequenceTags ++ [⟨pkt.id, whenReady, order, .fromCPU, allocOnFill⟩] := by
  obtain ⟨_, _, done⟩ := bind_eq_ok.mp done
  obtain ⟨front, _, done⟩ := bind_eq_ok.mp done
  split at done
  · cases done
    rw [sequenceTags, add_request (by decide), ← append_assoc]
    congr 2
    split <;> rfl
  · rename_i stays
    cases done
    rw [sequenceTags, sequenceTags, add_request (by decide), noDeferred_of_stays stays]
    simp [requestTags, requests]

theorem answer_tags (pkt : Packet) : (mshr.downgrade pkt).2.sequenceTags = mshr.sequenceTags := by
  unfold downgrade
  split <;> rfl

theorem saveSnoop_tags {willRespond : Bool} :
    (mshr.saveSnoop pkt order curTick willRespond).sequenceTags = mshr.sequenceTags := by
  simp only [saveSnoop, sequenceTags, TargetList.add, requestTags_append]
  exact congrArg (· ++ _) (append_nil _)

theorem snoopDeferred_tags : (mshr.snoopDeferred pkt).sequenceTags = mshr.sequenceTags := by
  unfold snoopDeferred
  split
  · simp only [sequenceTags, replaceUpgrades_tags]
  · rfl

theorem handleSnoop_tags {result : Bool} {answered : Packet}
    (done : mshr.handleSnoop pkt order curTick = .ok (result, answered, next)) :
    next.sequenceTags = mshr.sequenceTags := by
  have cases := handleSnoop_cases done
  split at cases
  · subst cases
    unfold snoopBefore
    split
    · simp only [sequenceTags, replaceUpgrades_tags]
    · rfl
  · rcases snoopAfter_cases cases with rfl | ⟨willRespond, told, rfl⟩ | rfl
    · exact snoopDeferred_tags
    · rw [answer_tags, saveSnoop_tags, snoopDeferred_tags]
    · rw [answer_tags, snoopDeferred_tags]

theorem promotable_append (noTargets : Bool) (deferred : List Target) :
    (promotable noTargets deferred).1 ++ (promotable noTargets deferred).2 = deferred := by
  have parts : deferred.takeWhile (fun t => !t.pkt.req.isCacheMaintenance) ++
      deferred.dropWhile (fun t => !t.pkt.req.isCacheMaintenance) = deferred := takeWhile_append_dropWhile
  by_cases none : deferred.takeWhile (fun t => !t.pkt.req.isCacheMaintenance) = []
  · simp only [promotable, if_pos none]
    rw [none, nil_append] at parts
    split
    · rw [take_append_drop, parts]
    · exact parts
  · simp only [promotable, if_neg none]
    exact parts

theorem promoteDeferredTargets_tags {result : Bool} (done : mshr.promoteDeferredTargets curTick = .ok (result, next)) :
    next.sequenceTags = mshr.sequenceTags := by
  unfold promoteDeferredTargets at done
  split at done
  · cases done
    rfl
  · have parts := promotable_append mshr.targets.targets.isEmpty mshr.deferredTargets.targets
    rcases promotes : promotable mshr.targets.targets.isEmpty mshr.deferredTargets.targets with ⟨promoted, rest⟩
    rw [promotes] at done parts
    obtain ⟨front, _, _, rfl⟩ := bind_pair_eq_ok.mp done
    simp only [sequenceTags, populateFlags_targets, requestTags_append]
    rw [append_assoc, ← requestTags_append, parts]

theorem promoteIf_tags {pred : Target → Except Fault Bool} (done : mshr.promoteIf pred = .ok next) :
    next.sequenceTags = mshr.sequenceTags := by
  obtain ⟨_, _, done⟩ := bind_eq_ok.mp done
  obtain ⟨⟨promoted, rest⟩, split, rfl⟩ := bind_ok_eq_ok.mp done
  simp only [sequenceTags, populateFlags_targets, requestTags_append, clearPending_tags]
  rw [append_assoc, ← requestTags_append, (splitWhile_eq split).1]

theorem promoteReadable_tags (done : mshr.promoteReadable = .ok next) : next.sequenceTags = mshr.sequenceTags := by
  rcases promoteReadable_cases done with rfl | ⟨_, _, done⟩
  · rfl
  · exact promoteIf_tags done

theorem promoteWritable_tags (done : mshr.promoteWritable = .ok next) : next.sequenceTags = mshr.sequenceTags := by
  rcases promoteWritable_cases done with rfl | ⟨_, done⟩
  · rfl
  · exact (promoteIf_tags done).trans rfl

/-- The targets that are handed out are serviced, and the deferred targets stay. -/
theorem extract_serviced {response : MemCmd} {ready : TargetList}
    (done : mshr.extractServiceableTargets response = .ok (ready, next)) :
    Serviced mshr.targets.targets ready.targets next.targets.targets ∧
      next.deferredTargets = mshr.deferredTargets := by
  obtain ⟨⟨handed, kept⟩, serviced, rfl, rfl⟩ := bind_pair_eq_ok.mp done
  refine ⟨?_, rfl⟩
  rw [populateFlags_targets, populateFlags_targets]
  exact service_serviced serviced

end Moves

/-- This function has the tags of the targets that an operation allocates. -/
def Op.newTags : Op → List TargetTag
  | .allocate _ _ target whenReady order allocOnFill =>
    [⟨target.id, whenReady, order, if target.cmd = .hardPFReq then .fromPrefetcher else .fromCPU, allocOnFill⟩]
  | .allocateTarget pkt whenReady order allocOnFill => [⟨pkt.id, whenReady, order, .fromCPU, allocOnFill⟩]
  | _ => []

/-- This function has the tags of the requests that are handed out and do not stay. -/
def removedTags (handed : List Target) : List TargetTag := ((requests handed).filter fun t => !t.isLocked).map tag

/-- The requests before an operation and the new ones are those that are removed and those after it. -/
theorem step_tags {op : Op} (done : mshr.step op = .ok (handed, next)) :
    mshr.sequenceTags ++ op.newTags = removedTags handed ++ next.sequenceTags := by
  cases op with
  | allocate blkAddr blkSize target whenReady order allocOnFill =>
    obtain ⟨result, allocated, rfl, rfl⟩ := bind_pair_eq_ok.mp done
    obtain ⟨before, after⟩ := allocate_tags allocated
    rw [before, after]
    rfl
  | allocateTarget pkt whenReady order allocOnFill =>
    obtain ⟨result, allocated, rfl, rfl⟩ := bind_pair_eq_ok.mp done
    rw [allocateTarget_tags allocated]
    rfl
  | extractServiceableTargets response =>
    obtain ⟨⟨ready, result⟩, extracted, rfl, rfl⟩ := bind_pair_eq_ok.mp done
    obtain ⟨serviced, same⟩ := extract_serviced extracted
    have tags := congrArg (map tag) serviced.rest
    rw [map_append] at tags
    have none : (Op.extractServiceableTargets response).newTags = [] := rfl
    rw [none, append_nil, sequenceTags, sequenceTags, same, requestTags, tags, append_assoc]
    rfl
  | handleSnoop pkt order curTick =>
    obtain ⟨⟨result, answered, after⟩, snooped, rfl, rfl⟩ := bind_pair_eq_ok.mp done
    exact (append_nil _).trans (handleSnoop_tags snooped).symm
  | promoteDeferredTargets curTick =>
    obtain ⟨⟨result, after⟩, promoted, rfl, rfl⟩ := bind_pair_eq_ok.mp done
    exact (append_nil _).trans (promoteDeferredTargets_tags promoted).symm
  | promoteReadable =>
    obtain ⟨result, promoted, rfl, rfl⟩ := bind_pair_eq_ok.mp done
    exact (append_nil _).trans (promoteReadable_tags promoted).symm
  | promoteWritable =>
    obtain ⟨result, promoted, rfl, rfl⟩ := bind_pair_eq_ok.mp done
    exact (append_nil _).trans (promoteWritable_tags promoted).symm
  | markInService pendingModifiedResp =>
    obtain ⟨result, marked, rfl, rfl⟩ := bind_pair_eq_ok.mp done
    obtain ⟨_, _, rfl⟩ := bind_ok_eq_ok.mp marked
    simp only [sequenceTags]
    split
    · exact append_nil _
    · rw [TargetList.clearDownstreamPending, clearPending_tags]
      exact append_nil _
  | clearDownstreamPending =>
    obtain ⟨result, cleared, rfl, rfl⟩ := bind_pair_eq_ok.mp done
    obtain ⟨_, _, rfl⟩ := bind_ok_eq_ok.mp cleared
    simp only [sequenceTags, TargetList.clearDownstreamPending, clearPending_tags]
    exact append_nil _
  | markPending =>
    obtain ⟨result, marked, rfl, rfl⟩ := bind_pair_eq_ok.mp done
    obtain ⟨_, _, rfl⟩ := bind_ok_eq_ok.mp marked
    exact append_nil _
  | deallocate =>
    obtain ⟨result, freed, rfl, rfl⟩ := bind_pair_eq_ok.mp done
    obtain ⟨_, _, freed⟩ := bind_eq_ok.mp freed
    obtain ⟨_, _, rfl⟩ := bind_ok_eq_ok.mp freed
    exact append_nil _
  | setDownstreamPending | setForward isForward =>
    cases done
    exact append_nil _

end MSHR

/-- This structure runs a register next to the requests that were allocated and those that were removed. -/
structure MshrTrace where
  mshr : MSHR
  allocated : List TargetTag
  removed : List TargetTag

namespace MshrTrace
open Target

def initial : MshrTrace := { mshr := .init, allocated := [], removed := [] }

/-- This machine performs the operations whose assertions hold. -/
def registers : Machine MshrTrace MSHR.Op Fault where
  guard _ _ := True
  step trace op := do
    let (handed, mshr) ← trace.mshr.step op
    .ok { mshr, allocated := trace.allocated ++ op.newTags, removed := trace.removed ++ MSHR.removedTags handed }

/-- The requests stay in the order of their allocation, and a response takes the first ones, of which only a locked
read stays at the front. -/
theorem targets_in_order {ops : List MSHR.Op} {trace : MshrTrace} (run : registers.Run initial ops trace) :
    trace.allocated = trace.removed ++ trace.mshr.sequence.map tag ∧
    ∀ response ready next, trace.mshr.extractServiceableTargets response = .ok (ready, next) →
      requests ready.targets <+: trace.mshr.sequence ∧
      trace.mshr.sequence = (requests ready.targets).filter (fun t => !t.isLocked) ++ next.sequence ∧
      ∀ t ∈ requests ready.targets, t.isLocked = true →
        next.targets.targets.head? = some t ∧ (requests ready.targets).getLast? = some t := by
  constructor
  · rw [MSHR.sequence_tags]
    refine run.invariant (fun trace => trace.allocated = trace.removed ++ trace.mshr.sequenceTags) rfl ?_
    intro state op next held _ stepped
    obtain ⟨⟨handed, mshr⟩, done, rfl⟩ := bind_ok_eq_ok.mp stepped
    change state.allocated ++ op.newTags = (state.removed ++ MSHR.removedTags handed) ++ mshr.sequenceTags
    rw [held, append_assoc, MSHR.step_tags done, append_assoc]
  · intro response ready next done
    obtain ⟨serviced, same⟩ := MSHR.extract_serviced done
    refine ⟨serviced.first.trans (prefix_append _ _), ?_, serviced.locked⟩
    rw [MSHR.sequence, MSHR.sequence, same, serviced.rest, append_assoc]

/-- A write waits behind a read that is in service. -/
theorem targets_in_order_deferred : ∃ trace, registers.Run initial
      [.allocateTarget (.atZero 2 .writeReq rfl 8 0) 20 2 true, .markInService false,
        .allocate 0 64 (.atZero 1 .readReq rfl 8 0) 10 1 true] trace ∧
    trace.mshr.targets.targets.length = 1 ∧ trace.mshr.deferredTargets.targets.length = 1 ∧
    trace.mshr.sequence.map (fun t => t.pkt.id) = [1, 2] ∧
    trace.allocated = trace.removed ++ trace.mshr.sequence.map tag := by
  refine ⟨_, and_of_imp (.cons (.cons (.cons .nil trivial rfl) trivial rfl) trivial rfl) fun run => ?_⟩
  exact ⟨rfl, rfl, rfl, (targets_in_order run).1⟩

end MshrTrace

end Gem5
