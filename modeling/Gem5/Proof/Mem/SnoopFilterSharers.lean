import Gem5.Proof.Mem.SnoopFilterPorts

namespace Gem5
open ToMathlib Function

namespace SnoopFilter
variable {params : Params} {filter next : SnoopFilter} {ports : List ResponsePort} {port other : ResponsePort}
  {cpkt : CoherentPacket} {line : Line} {sharers : Sharers} {held marked : SnoopItem} {mask : SnoopMask}

theorem Line.address_injective : Function.Injective Line.address := by
  intro first second same
  have secureBit : ∀ line : Line, line.address.getLsbD 0 = line.isSecure := by
    intro line
    rw [address]
    cases line.isSecure with
    | false => exact line.even
    | true => simp [LineSecure]
  have flags : first.isSecure = second.isSecure := by rw [← secureBit, ← secureBit, same]
  have sum : ∀ line : Line, line.block ||| LineSecure = line.block + LineSecure := by
    intro line
    refine (BitVec.add_eq_or_of_and_eq_zero _ _ ?_).symm
    rw [LineSecure, BitVec.ofNat_eq_ofNat, BitVec.and_one_eq_setWidth_ofBool_getLsbD, line.even]
    rfl
  have blocks : first.block = second.block := by
    rw [address, address, flags, sum, sum] at same
    split at same
    · exact (BitVec.add_left_inj _).mp same
    · exact same
  cases first
  cases second
  cases flags
  cases blocks
  rfl

theorem lineAddr_eq (params : Params) (addr : Addr) (isSecure : Bool) :
    params.lineAddr addr isSecure = (params.line addr isSecure).address := rfl

/-- The entry of a line is empty if the filter has none. -/
def item (filter : SnoopFilter) (line : Line) : SnoopItem :=
  (filter.cachedLocations.lookup line.address).getD { requested := 0, holder := 0 }

theorem item_of_lookup {entry : Option SnoopItem} (found : filter.cachedLocations.lookup line.address = entry) :
    filter.item line = entry.getD { requested := 0, holder := 0 } := congrArg (Option.getD · _) found

/-- This structure says that a call has changed the entry of one line only. -/
structure Changes (filter next : SnoopFilter) (line : Line) (new : SnoopItem) : Prop where
  ports : next.cpuSidePorts = filter.cpuSidePorts
  ids : next.localResponsePortIds = filter.localResponsePortIds
  lookup : next.lookup = filter.lookup
  retryItem : next.retryItem = filter.retryItem
  items : next.item = update filter.item line new

theorem Changes.refl (filter : SnoopFilter) (line : Line) : Changes filter filter line (filter.item line) :=
  ⟨rfl, rfl, rfl, rfl, (update_eq_self line filter.item).symm⟩

theorem changes_setItem (filter : SnoopFilter) (line : Line) (new : SnoopItem) :
    Changes filter (filter.setItem line.address new) line new := by
  refine ⟨rfl, rfl, rfl, rfl, funext fun other => ?_⟩
  by_cases same : other = line
  · rw [same, update_self, item, setItem, AList.lookup_insert]
    rfl
  · rw [update_of_ne same, item, setItem, AList.lookup_insert_ne fun equal => same (Line.address_injective equal)]
    rfl

/-- An entry without ports may be removed. -/
theorem changes_eraseIfNullEntry (filter : SnoopFilter) (line : Line) :
    Changes filter (filter.eraseIfNullEntry line.address) line (filter.item line) := by
  rw [eraseIfNullEntry]
  cases found : filter.cachedLocations.lookup line.address with
  | none => exact .refl filter line
  | some entry =>
    dsimp only
    split
    case isFalse => exact .refl filter line
    case isTrue null =>
      refine ⟨rfl, rfl, rfl, rfl, funext fun other => ?_⟩
      rw [update_eq_self]
      by_cases same : other = line
      · obtain ⟨requested, holder⟩ := BitVec.or_eq_zero_iff.mp null
        rw [same, item, item, AList.lookup_erase, found, Option.getD_none, Option.getD_some]
        exact congrArg₂ SnoopItem.mk requested.symm holder.symm
      · rw [item, item, AList.lookup_erase_ne fun equal => same (Line.address_injective equal)]

theorem Changes.eraseIfNullEntry {new : SnoopItem} (changes : Changes filter next line new) :
    Changes filter (next.eraseIfNullEntry line.address) line new := by
  obtain ⟨ports, ids, lookup, retryItem, items⟩ := changes_eraseIfNullEntry next line
  refine ⟨ports.trans changes.ports, ids.trans changes.ids, lookup.trans changes.lookup,
    retryItem.trans changes.retryItem, ?_⟩
  rw [items, update_eq_self, changes.items]

theorem Numbered.congr (numbered : filter.Numbered) (ports : next.cpuSidePorts = filter.cpuSidePorts)
    (ids : next.localResponsePortIds = filter.localResponsePortIds) : next.Numbered := by
  obtain ⟨small, snooping, place⟩ := numbered
  rw [← ports] at small snooping place
  rw [← ids] at place
  exact ⟨small, snooping, place⟩

/-- The entry of a line has the ports with a copy as holders and the ports that wait for one as requesters. -/
structure Tracked (ports : List ResponsePort) (held : SnoopItem) (sharers : Sharers) : Prop where
  copies : ∀ port, sharers.copies port = true → HasBit ports held.holder port
  fills : ∀ port, sharers.fills port = true → HasBit ports held.requested port

theorem Sharers.copies_request (kept : (sharers.request cpkt port).copies other = true) :
    sharers.copies other = true ∧ (other = port → cpkt.req.isUncacheable = false → cpkt.cmd.isEviction = true →
      cpkt.isBlockCached = true) := by
  simp only [request, Bool.and_eq_true, Bool.not_eq_true', Bool.and_eq_false_iff, decide_eq_false_iff_not,
    Bool.not_eq_false'] at kept
  refine ⟨kept.1, fun same cacheable eviction => ?_⟩
  simpa [same, cacheable, eviction] using kept.2

theorem Sharers.fills_request (kept : (sharers.request cpkt port).fills other = true) :
    sharers.fills other = true ∨ (other = port ∧ allocates cpkt port = true ∧ cpkt.cmd.needsResponse = true ∧
      cpkt.cacheResponding = false) := by
  simp only [request, Bool.or_eq_true, Bool.and_eq_true, decide_eq_true_eq, Bool.not_eq_true'] at kept
  tauto

section
variable (tracked : Tracked ports held sharers)
include tracked

/-- A request is marked with its port, and an eviction removes the port only. -/
theorem Tracked.mark (is : MaskOf ports port mask) (member : port ∈ ports) (cacheable : cpkt.req.isUncacheable = false)
    (ran : held.mark cpkt mask = .ok marked) : Tracked ports marked (sharers.request cpkt port) := by
  have copies : ∀ other, (sharers.request cpkt port).copies other = true → HasBit ports held.holder other :=
    fun other kept => tracked.copies other (Sharers.copies_request kept).1
  have fills : (cpkt.cmd.needsResponse = true → cpkt.cacheResponding = true) →
      ∀ other, (sharers.request cpkt port).fills other = true → HasBit ports held.requested other := by
    intro quiet other kept
    rcases Sharers.fills_request kept with old | ⟨_, _, needs, silent⟩
    · exact tracked.fills other old
    · rw [quiet needs] at silent
      cases silent
  rw [SnoopItem.mark] at ran
  split at ran
  case isTrue needs =>
    split at ran
    case isTrue responding =>
      obtain ⟨_, ran⟩ := ite_error_eq_ok.mp ran
      cases ran
      exact ⟨copies, fills fun _ => responding⟩
    case isFalse silent =>
      obtain ⟨_, ran⟩ := ite_error_eq_ok.mp ran
      cases ran
      refine ⟨copies, fun other kept => hasBit_or.mpr ?_⟩
      rcases Sharers.fills_request kept with old | ⟨rfl, _⟩
      · exact .inl (tracked.fills other old)
      · exact .inr (is.hasBit member)
  case isFalse quiet =>
    have same := fills fun needs => absurd needs quiet
    obtain ⟨eviction, ran⟩ := assert_bind_eq_ok.mp ran
    obtain ⟨_, ran⟩ := ite_error_eq_ok.mp ran
    split at ran
    case isTrue cached =>
      cases ran
      exact ⟨copies, same⟩
    case isFalse gone =>
      cases ran
      refine ⟨fun other kept => (copies other kept).clear is fun equal => ?_, same⟩
      exact gone ((Sharers.copies_request kept).2 equal cacheable eviction)

/-- A request that is not marked leaves the sharers as they are. -/
theorem Tracked.request (unmarked : allocates cpkt port = false) : Tracked ports held (sharers.request cpkt port) := by
  refine ⟨fun other kept => tracked.copies other (Sharers.copies_request kept).1, fun other kept => ?_⟩
  rcases Sharers.fills_request kept with old | ⟨_, marked, _⟩
  · exact tracked.fills other old
  · rw [unmarked] at marked
    cases marked

section
variable (is : MaskOf ports port mask)
include is

/-- A port that has its answer does not wait any more. -/
theorem Tracked.fills_clear (kept : (sharers.fills other && decide (other ≠ port)) = true) :
    HasBit ports (held.requested &&& ~~~mask) other := by
  rw [Bool.and_eq_true, decide_eq_true_eq] at kept
  exact (tracked.fills other kept.1).clear is kept.2

/-- A response passes the line to a port. -/
theorem Tracked.respond (member : port ∈ ports) (reached : Sharers.reaches cpkt port = true) :
    Tracked ports (held.respond cpkt.hasSharers mask) (sharers.snoopResponse cpkt port) := by
  rw [Sharers.snoopResponse, if_pos reached]
  refine ⟨fun other kept => hasBit_or.mpr ?_, fun other kept => ?_⟩
  · simp only [Bool.or_eq_true, Bool.and_eq_true, decide_eq_true_eq] at kept
    rcases kept with rfl | ⟨old, shared⟩
    · exact .inr (is.hasBit member)
    · rw [if_pos shared]
      exact .inl (tracked.copies other old)
  · exact tracked.fills_clear is kept

/-- A response removes the copies or leaves them, and its port does not wait any more. -/
theorem Tracked.maintain (reached : Sharers.reaches cpkt port = true) (maintenance : cpkt.req.isCacheMaintenance = true) :
    Tracked ports
      { requested := held.requested &&& ~~~mask
        holder := if cpkt.cmd.isInvalidate then held.holder &&& ~~~mask else held.holder }
      (sharers.response cpkt port) := by
  rw [Sharers.response, if_pos reached]
  refine ⟨fun other kept => ?_, fun other kept => ?_⟩
  · simp only [if_pos maintenance, Bool.and_eq_true, Bool.not_eq_true', Bool.and_eq_false_iff,
      decide_eq_false_iff_not] at kept
    obtain ⟨old, kept⟩ := kept
    split
    case isTrue invalidates =>
      refine (tracked.copies other old).clear is ?_
      simpa [invalidates] using kept
    case isFalse => exact tracked.copies other old
  · exact tracked.fills_clear is kept

theorem Tracked.fill (member : port ∈ ports) (reached : Sharers.reaches cpkt port = true)
    (ordinary : ¬cpkt.req.isCacheMaintenance = true) :
    Tracked ports { requested := held.requested &&& ~~~mask, holder := held.holder ||| mask }
      (sharers.response cpkt port) := by
  rw [Sharers.response, if_pos reached]
  refine ⟨fun other kept => hasBit_or.mpr ?_, fun other kept => ?_⟩
  · simp only [if_neg ordinary, Bool.or_eq_true, Bool.and_eq_true, decide_eq_true_eq] at kept
    rcases kept with old | ⟨rfl, _⟩
    · exact .inl (tracked.copies other old)
    · exact .inr (is.hasBit member)
  · exact tracked.fills_clear is kept

end

end

section Calls
variable {answer : List ResponsePort × Nat}

theorem maskOf_of_ok (numbered : filter.Numbered) (attached : filter.Attached port)
    (ran : filter.portToMask port = .ok mask) : MaskOf filter.cpuSidePorts port mask := by
  obtain ⟨own, found, is⟩ := portToMask_ok numbered attached
  rw [ran] at found
  cases found
  exact is

theorem mem_of_maskToPortList (numbered : filter.Numbered) (ran : filter.maskToPortList mask = .ok ports)
    (set : HasBit filter.cpuSidePorts mask port) : port ∈ ports := by
  obtain ⟨list, listed, members⟩ := maskToPortList_ok numbered mask
  rw [ran] at listed
  cases listed
  exact (members port).mpr set

/-- This structure describes the lookup of a request. -/
structure Looked (filter next : SnoopFilter) (line : Line) (cpkt : CoherentPacket) (port : ResponsePort)
    (ports : List ResponsePort) : Prop where
  cpuSidePorts : next.cpuSidePorts = filter.cpuSidePorts
  ids : next.localResponsePortIds = filter.localResponsePortIds
  items : ∃ new, next.item = update filter.item line new ∧ (next.lookup = none → new = filter.item line) ∧
    ∀ sharers, Tracked filter.cpuSidePorts (filter.item line) sharers →
      Tracked filter.cpuSidePorts new (sharers.request cpkt port)
  found : ∀ lineAddr, next.lookup = some lineAddr → lineAddr = line.address ∧ next.retryItem = filter.item line
  snooped : ∀ other, other ≠ port →
    HasBit filter.cpuSidePorts ((filter.item line).holder ||| (filter.item line).requested) other → other ∈ ports

theorem lookupEntry_looked (numbered : filter.Numbered) (attached : filter.Attached port)
    (is : MaskOf filter.cpuSidePorts port mask)
    (run : filter.lookupEntry params line.address (filter.item line) cpkt port mask = .ok (answer, next)) :
    Looked filter next line cpkt port answer.1 := by
  obtain ⟨list, listed, run⟩ := bind_eq_ok.mp run
  have snooped : ∀ other, other ≠ port →
      HasBit filter.cpuSidePorts ((filter.item line).holder ||| (filter.item line).requested) other → other ∈ list :=
    fun other different set => mem_of_maskToPortList numbered listed (set.clear is different)
  split at run
  case isTrue marks =>
    obtain ⟨marked, ran, rfl, rfl⟩ := bind_pair_eq_ok.mp run
    have flags := marks
    rw [allocates, Bool.and_eq_true, Bool.and_eq_true, Bool.not_eq_true'] at flags
    exact ⟨rfl, rfl, ⟨marked, (changes_setItem _ line marked).items, fun none => (nomatch none),
      fun sharers tracked => tracked.mark is (attached flags.1.2) flags.1.1 ran⟩,
      fun lineAddr found => ⟨(Option.some.inj found).symm, rfl⟩, snooped⟩
  case isFalse unmarked =>
    cases run
    exact ⟨rfl, rfl, ⟨filter.item line, (update_eq_self line filter.item).symm, fun none => (nomatch none),
      fun sharers tracked => tracked.request (by simpa using unmarked)⟩,
      fun lineAddr found => ⟨(Option.some.inj found).symm, rfl⟩, snooped⟩

theorem lookupRequest_looked (numbered : filter.Numbered) (attached : filter.Attached port)
    (run : filter.lookupRequest params cpkt port = .ok (answer, next)) :
    Looked filter next (params.line cpkt.addr cpkt.isSecure) cpkt port answer.1 := by
  rw [lookupRequest, lineAddr_eq] at run
  obtain ⟨mask, ran, run⟩ := bind_eq_ok.mp run
  have is := maskOf_of_ok numbered attached ran
  dsimp only at run
  cases found : filter.cachedLocations.lookup (params.line cpkt.addr cpkt.isSecure).address with
  | some held =>
    obtain rfl := item_of_lookup found
    rw [found] at run
    exact lookupEntry_looked numbered attached is run
  | none =>
    have empty : filter.item (params.line cpkt.addr cpkt.isSecure) = { requested := 0, holder := 0 } :=
      item_of_lookup found
    rw [found] at run
    dsimp only at run
    split at run
    case isTrue => exact lookupEntry_looked numbered attached is (empty ▸ run)
    case isFalse unmarked =>
      cases run
      refine ⟨rfl, rfl, ⟨_, (update_eq_self _ _).symm, fun _ => rfl, fun sharers tracked => ?_⟩,
        fun lineAddr impossible => (nomatch impossible), fun other _ set => ?_⟩
      · exact tracked.request (by simpa using unmarked)
      · rw [empty] at set
        exact absurd set not_hasBit_zero

/-- This proposition says that a call changes the entry and the sharers of one line together. -/
def Tracks (filter next : SnoopFilter) (line : Line) (change : Sharers → Sharers) : Prop :=
  ∃ new, Changes filter next line new ∧ ∀ sharers, Tracked filter.cpuSidePorts (filter.item line) sharers →
    Tracked filter.cpuSidePorts new (change sharers)

theorem tracks_self {change : Sharers → Sharers}
    (kept : ∀ sharers, Tracked filter.cpuSidePorts (filter.item line) sharers →
      Tracked filter.cpuSidePorts (filter.item line) (change sharers)) : Tracks filter filter line change :=
  ⟨filter.item line, .refl filter line, kept⟩

theorem Sharers.copies_snoop (kept : (sharers.snoop cpkt ports).copies other = true) :
    sharers.copies other = true ∧ (cpkt.cmd.isInvalidate = true → other ∉ ports) := by
  simp only [snoop, Bool.and_eq_true, Bool.not_eq_true', Bool.and_eq_false_iff, List.contains_eq_mem,
    decide_eq_false_iff_not] at kept
  refine ⟨kept.1, fun invalidates => ?_⟩
  simpa [invalidates] using kept.2

/-- A snoop reaches all ports of an entry, and an invalidating one removes the holders only after it. -/
theorem lookupSnoop_tracks (numbered : filter.Numbered) (run : filter.lookupSnoop params cpkt = .ok (answer, next)) :
    Tracks filter next (params.line cpkt.addr cpkt.isSecure) (·.snoop cpkt answer.1) ∧
    ∀ other, HasBit filter.cpuSidePorts ((filter.item (params.line cpkt.addr cpkt.isSecure)).holder |||
      (filter.item (params.line cpkt.addr cpkt.isSecure)).requested) other → other ∈ answer.1 := by
  rw [lookupSnoop, lineAddr_eq] at run
  obtain ⟨_, _, run⟩ := bind_eq_ok.mp run
  dsimp only at run
  generalize params.line cpkt.addr cpkt.isSecure = line at run
  have unchanged : ∀ sharers, Tracked filter.cpuSidePorts (filter.item line) sharers →
      Tracked filter.cpuSidePorts (filter.item line) (sharers.snoop cpkt answer.1) :=
    fun sharers tracked => ⟨fun other kept => tracked.copies other (Sharers.copies_snoop kept).1, tracked.fills⟩
  cases found : filter.cachedLocations.lookup line.address with
  | none =>
    rw [found] at run
    obtain ⟨_, run⟩ := ite_error_eq_ok.mp run
    cases run
    refine ⟨tracks_self unchanged, fun other set => ?_⟩
    rw [item_of_lookup found] at set
    exact absurd set not_hasBit_zero
  | some held =>
    obtain rfl := item_of_lookup found
    rw [found] at run
    obtain ⟨_, _, run⟩ := bind_eq_ok.mp run
    obtain ⟨list, listed, run⟩ := bind_eq_ok.mp run
    have snooped : ∀ other, HasBit filter.cpuSidePorts ((filter.item line).holder ||| (filter.item line).requested) other →
        other ∈ list := fun other set => mem_of_maskToPortList numbered listed set
    split at run
    case isFalse =>
      cases run
      exact ⟨tracks_self unchanged, snooped⟩
    case isTrue invalidates =>
      cases run
      refine ⟨⟨_, (changes_setItem filter line _).eraseIfNullEntry, fun sharers tracked => ⟨fun other kept => ?_,
        tracked.fills⟩⟩, snooped⟩
      obtain ⟨copy, outside⟩ := Sharers.copies_snoop kept
      exact absurd (snooped other (hasBit_or.mpr (.inl (tracked.copies other copy)))) (outside invalidates.1)

theorem updateSnoopForward_tracks (run : filter.updateSnoopForward params cpkt = .ok next) :
    Tracks filter next (params.line cpkt.addr cpkt.isSecure) (·.snoopForward cpkt) := by
  rw [updateSnoopForward, lineAddr_eq] at run
  obtain ⟨_, _, run⟩ := bind_eq_ok.mp run
  obtain ⟨_, _, run⟩ := bind_eq_ok.mp run
  dsimp only at run
  generalize params.line cpkt.addr cpkt.isSecure = line at run
  have copies : ∀ {sharers : Sharers} {other}, (sharers.snoopForward cpkt).copies other = true →
      sharers.copies other = true ∧ cpkt.hasSharers = true := fun kept => Bool.and_eq_true_iff.mp kept
  have unchanged : Tracks filter filter line (·.snoopForward cpkt) :=
    tracks_self fun sharers tracked => ⟨fun other kept => tracked.copies other (copies kept).1, tracked.fills⟩
  cases found : filter.cachedLocations.lookup line.address with
  | none =>
    rw [found] at run
    cases run
    exact unchanged
  | some held =>
    obtain rfl := item_of_lookup found
    rw [found] at run
    dsimp only at run
    split at run
    case isTrue =>
      cases run
      exact unchanged
    case isFalse alone =>
      cases run
      exact ⟨_, (changes_setItem filter line _).eraseIfNullEntry,
        fun sharers tracked => ⟨fun other kept => absurd (copies kept).2 alone, tracked.fills⟩⟩

theorem reaches_eq_true : Sharers.reaches cpkt port = true ↔ ¬(cpkt.req.isUncacheable = true ∨ port.isSnooping = false) := by
  rw [Sharers.reaches, Bool.and_eq_true, Bool.not_eq_true', not_or, Bool.not_eq_true, Bool.not_eq_false]

theorem updateSnoopResponse_tracks {rspPort reqPort : ResponsePort} (numbered : filter.Numbered)
    (attached : filter.Attached reqPort)
    (run : filter.updateSnoopResponse params cpkt rspPort reqPort = .ok next) :
    Tracks filter next (params.line cpkt.addr cpkt.isSecure) (·.snoopResponse cpkt reqPort) := by
  obtain ⟨_, _, run⟩ := bind_eq_ok.mp run
  obtain ⟨_, _, run⟩ := bind_eq_ok.mp run
  split at run
  case isTrue ignored =>
    cases run
    refine tracks_self fun sharers tracked => ?_
    rw [Sharers.snoopResponse, if_neg fun reached => reaches_eq_true.mp reached ignored]
    exact tracked
  case isFalse cached =>
    have reached := reaches_eq_true.mpr cached
    obtain ⟨rspMask, _, run⟩ := bind_eq_ok.mp run
    obtain ⟨reqMask, ran, run⟩ := bind_eq_ok.mp run
    obtain ⟨_, run⟩ := ite_error_eq_ok.mp run
    obtain ⟨_, run⟩ := ite_error_eq_ok.mp run
    obtain ⟨_, _, run⟩ := bind_eq_ok.mp run
    obtain ⟨_, _, rfl⟩ := bind_ok_eq_ok.mp run
    refine ⟨_, changes_setItem filter (params.line cpkt.addr cpkt.isSecure) _, fun sharers tracked => ?_⟩
    exact tracked.respond (maskOf_of_ok numbered attached ran) (attached (Bool.and_eq_true_iff.mp reached).2) reached

theorem updateResponse_tracks (numbered : filter.Numbered) (attached : filter.Attached port)
    (run : filter.updateResponse params cpkt port = .ok next) :
    Tracks filter next (params.line cpkt.addr cpkt.isSecure) (·.response cpkt port) := by
  rw [updateResponse, lineAddr_eq] at run
  obtain ⟨_, _, run⟩ := bind_eq_ok.mp run
  split at run
  case isTrue ignored =>
    cases run
    refine tracks_self fun sharers tracked => ?_
    rw [Sharers.response, if_neg fun reached => reaches_eq_true.mp reached ignored]
    exact tracked
  case isFalse cached =>
    have reached := reaches_eq_true.mpr cached
    have member := attached (Bool.and_eq_true_iff.mp reached).2
    dsimp only at run
    generalize params.line cpkt.addr cpkt.isSecure = line at run
    cases found : filter.cachedLocations.lookup line.address with
    | none =>
      rw [found] at run
      cases run
      refine tracks_self fun sharers tracked => ?_
      rw [item_of_lookup found] at tracked ⊢
      have noCopy : ∀ other, sharers.copies other = false := fun other =>
        Bool.eq_false_iff.mpr fun copy => not_hasBit_zero (tracked.copies other copy)
      have noFill : ∀ other, sharers.fills other = false := fun other =>
        Bool.eq_false_iff.mpr fun fill => not_hasBit_zero (tracked.fills other fill)
      rw [Sharers.response, if_pos reached]
      constructor
      · intro other kept
        simp [noCopy, noFill] at kept
      · intro other kept
        simp [noFill] at kept
    | some held =>
      obtain rfl := item_of_lookup found
      rw [found] at run
      obtain ⟨mask, ran, run⟩ := bind_eq_ok.mp run
      have is := maskOf_of_ok numbered attached ran
      obtain ⟨_, run⟩ := ite_error_eq_ok.mp run
      split at run
      case isTrue maintenance =>
        cases run
        exact ⟨_, (changes_setItem filter line _).eraseIfNullEntry,
          fun sharers tracked => tracked.maintain is reached maintenance⟩
      case isFalse ordinary =>
        obtain ⟨_, _, rfl⟩ := bind_ok_eq_ok.mp run
        exact ⟨_, changes_setItem filter line _, fun sharers tracked => tracked.fill is member reached ordinary⟩

/-- A finished request keeps its entry or takes the former one back. -/
theorem finishRequest_changes {willRetry isSecure : Bool} {addr : Addr}
    (run : filter.finishRequest params willRetry addr isSecure = .ok next) :
    ∃ new, Changes filter next (params.line addr isSecure) new ∧
      (new = filter.item (params.line addr isSecure) ∧ (willRetry = true → filter.lookup = none) ∨
        willRetry = true ∧ filter.lookup.isSome ∧ new = filter.retryItem) := by
  rw [finishRequest] at run
  cases found : filter.lookup with
  | none =>
    rw [found] at run
    cases run
    exact ⟨_, .refl filter _, .inl ⟨rfl, fun _ => rfl⟩⟩
  | some lineAddr =>
    rw [found] at run
    dsimp only at run
    split at run
    case isFalse => cases run
    case isTrue =>
      obtain ⟨rfl, run⟩ := assert_bind_eq_ok.mp run
      rw [lineAddr_eq] at run
      split at run
      case isTrue retried =>
        cases run
        exact ⟨_, (changes_setItem filter _ _).eraseIfNullEntry, .inr ⟨retried, rfl, rfl⟩⟩
      case isFalse sent =>
        cases run
        exact ⟨_, changes_eraseIfNullEntry filter _, .inl ⟨rfl, fun retried => absurd retried sent⟩⟩

end Calls

section Runs
variable {trace final : Trace} {op : Op}

/-- The entries of all lines track their sharers, and the former entry of an unfinished request the former sharers. -/
structure Trace.Tracks (trace : Trace) : Prop where
  numbered : trace.filter.Numbered
  lines : ∀ line, Tracked trace.filter.cpuSidePorts (trace.filter.item line) (trace.sharers line)
  found : ∀ line lineAddr, trace.pending = some line → trace.filter.lookup = some lineAddr →
    Tracked trace.filter.cpuSidePorts trace.filter.retryItem trace.retry
  missed : ∀ line, trace.pending = some line → trace.filter.lookup = none →
    Tracked trace.filter.cpuSidePorts (trace.filter.item line) trace.retry

/-- A line keeps its sharers tracked when the entry and the sharers of one line change together. -/
theorem tracked_update {items : Line → SnoopItem} {sets : Line → Sharers} {new : SnoopItem} {changed : Sharers}
    (lines : ∀ line, Tracked ports (items line) (sets line)) (kept : Tracked ports new changed) (other : Line) :
    Tracked ports (update items line new other) (update sets line changed other) := by
  by_cases same : other = line
  · rw [same, update_self, update_self]
    exact kept
  · rw [update_of_ne same, update_of_ne same]
    exact lines other

/-- A call for another line than that of an unfinished request keeps the tracking. -/
theorem Trace.Tracks.change {change : Sharers → Sharers} (tracks : trace.Tracks)
    (call : SnoopFilter.Tracks trace.filter next line change) (elsewhere : trace.pending ≠ some line) :
    (trace.change next line change).Tracks := by
  obtain ⟨new, changes, kept⟩ := call
  have ports := changes.ports
  refine ⟨tracks.numbered.congr changes.ports changes.ids, fun other => ?_, fun other lineAddr pending looked => ?_,
    fun other pending looked => ?_⟩
  · dsimp only [Trace.change]
    rw [ports, changes.items]
    exact tracked_update tracks.lines (kept _ (tracks.lines line)) other
  · dsimp only [Trace.change] at looked ⊢
    rw [ports, changes.retryItem]
    exact tracks.found other lineAddr pending (changes.lookup.symm.trans looked)
  · dsimp only [Trace.change] at looked ⊢
    have different : other ≠ line := fun same => elsewhere (same ▸ pending)
    rw [ports, changes.items, update_of_ne different]
    exact tracks.missed other pending (changes.lookup.symm.trans looked)

theorem Trace.Tracks.initial {snooping : List Bool}
    (attached : create.setCPUSidePorts (crossbarPorts snooping) = .ok filter) : (initial filter).Tracks := by
  refine ⟨(setCPUSidePorts_numbered attached).1, fun line => ⟨?_, ?_⟩, ?_, ?_⟩
  all_goals nofun

/-- A request is looked up when no other one is unfinished. -/
theorem Trace.Tracks.lookupRequest (tracks : trace.Tracks) (attached : trace.filter.Attached port)
    (step : trace.step params (.lookupRequest cpkt port) = .ok final) : final.Tracks := by
  obtain ⟨⟨answer, next⟩, run, rfl⟩ := bind_ok_eq_ok.mp step
  obtain ⟨ports, ids, ⟨new, items, none, kept⟩, found, _⟩ := lookupRequest_looked tracks.numbered attached run
  have before := tracks.lines (params.line cpkt.addr cpkt.isSecure)
  refine ⟨tracks.numbered.congr ports ids, fun other => ?_, fun other lineAddr _ looked => ?_,
    fun other pending looked => ?_⟩
  · dsimp only [Trace.change]
    rw [ports, items]
    exact tracked_update tracks.lines (kept _ before) other
  · dsimp only [Trace.change] at looked ⊢
    rw [ports, (found lineAddr looked).2]
    exact before
  · dsimp only [Trace.change] at pending looked ⊢
    cases pending
    rw [ports, items, update_self, none looked]
    exact before

theorem Trace.Tracks.finishRequest {willRetry isSecure : Bool} {addr : Addr} (tracks : trace.Tracks)
    (pending : trace.pending = some (params.line addr isSecure))
    (step : trace.step params (.finishRequest willRetry addr isSecure) = .ok final) : final.Tracks := by
  obtain ⟨next, run, rfl⟩ := bind_ok_eq_ok.mp step
  obtain ⟨new, changes, origin⟩ := finishRequest_changes run
  refine ⟨tracks.numbered.congr changes.ports changes.ids, fun other => ?_, fun _ _ impossible => (nomatch impossible),
    fun _ impossible => (nomatch impossible)⟩
  dsimp only [Trace.change]
  rw [changes.ports, changes.items]
  refine tracked_update tracks.lines ?_ other
  rcases origin with ⟨rfl, missed⟩ | ⟨retried, found, rfl⟩
  · split
    case isTrue retried => exact tracks.missed _ pending (missed retried)
    case isFalse => exact tracks.lines _
  · rw [if_pos retried]
    exact tracks.found _ _ pending (Option.some_get found).symm

theorem Trace.Tracks.step (tracks : trace.Tracks) (allowed : trace.Allowed params op)
    (step : trace.step params op = .ok final) : final.Tracks := by
  cases op with
  | lookupRequest cpkt port => exact tracks.lookupRequest allowed.2 step
  | finishRequest willRetry addr isSecure => exact tracks.finishRequest allowed step
  | lookupSnoop cpkt =>
    obtain ⟨⟨answer, next⟩, run, rfl⟩ := bind_ok_eq_ok.mp step
    exact tracks.change (lookupSnoop_tracks tracks.numbered run).1 allowed
  | updateSnoopResponse cpkt rspPort reqPort =>
    obtain ⟨next, run, rfl⟩ := bind_ok_eq_ok.mp step
    exact tracks.change (updateSnoopResponse_tracks tracks.numbered allowed.2.2 run) allowed.1
  | updateSnoopForward cpkt =>
    obtain ⟨next, run, rfl⟩ := bind_ok_eq_ok.mp step
    exact tracks.change (updateSnoopForward_tracks run) allowed
  | updateResponse cpkt port =>
    obtain ⟨next, run, rfl⟩ := bind_ok_eq_ok.mp step
    exact tracks.change (updateResponse_tracks tracks.numbered allowed.2 run) allowed.1

/-- The port has a copy of a line or waits for one. -/
def Sharers.Has (sharers : Sharers) (port : ResponsePort) : Prop :=
  sharers.copies port = true ∨ sharers.fills port = true

theorem Tracked.hasBit (tracked : Tracked ports held sharers) (has : sharers.Has port) :
    HasBit ports (held.holder ||| held.requested) port :=
  hasBit_or.mpr (has.imp (tracked.copies port) (tracked.fills port))

/-- Every port that has a copy of a line or waits for one is in the entry of the line, and a snoop or the request of
another port reaches it. -/
theorem sharers_tracked {params : Params} {snooping : List Bool} {filter : SnoopFilter} {history : List Op}
    {trace : Trace} (attached : create.setCPUSidePorts (crossbarPorts snooping) = .ok filter)
    (run : (filters params).Run (initial filter) history trace) :
    (∀ line port, (trace.sharers line).Has port → ∃ item mask,
      trace.filter.cachedLocations.lookup line.address = some item ∧ trace.filter.portToMask port = .ok mask ∧
      (item.requested ||| item.holder) &&& mask ≠ 0) ∧
    (∀ cpkt ports latency next, trace.filter.lookupSnoop params cpkt = .ok ((ports, latency), next) →
      ∀ port, (trace.sharers (params.line cpkt.addr cpkt.isSecure)).Has port → port ∈ ports) ∧
    (∀ cpkt requester ports latency next, trace.filter.Attached requester →
      trace.filter.lookupRequest params cpkt requester = .ok ((ports, latency), next) →
      ∀ port, port ≠ requester → (trace.sharers (params.line cpkt.addr cpkt.isSecure)).Has port → port ∈ ports) := by
  have tracks : trace.Tracks := run.invariant Trace.Tracks (.initial attached)
    fun _ _ _ tracks allowed stepped => tracks.step allowed stepped
  refine ⟨fun line port has => ?_, fun cpkt ports latency next ran port has => ?_,
    fun cpkt requester ports latency next member ran port different has => ?_⟩
  · have bit := (tracks.lines line).hasBit has
    obtain ⟨index, place, _⟩ := bit
    obtain ⟨mask, ran, is⟩ := portToMask_ok tracks.numbered fun _ => List.mem_of_getElem? place
    have set := is.and_ne_zero.mpr ((tracks.lines line).hasBit has)
    rw [item] at set
    cases found : trace.filter.cachedLocations.lookup line.address with
    | none =>
      rw [found] at set
      exact absurd (by simp) set
    | some entry =>
      rw [found, Option.getD_some, BitVec.or_comm] at set
      exact ⟨entry, mask, rfl, ran, set⟩
  · exact (lookupSnoop_tracks tracks.numbered ran).2 port ((tracks.lines _).hasBit has)
  · exact (lookupRequest_looked tracks.numbered member ran).snooped port different ((tracks.lines _).hasBit has)

/-- The lines of two caches and a device have four bytes. -/
def smallParams : Params := { linesize := 4, lookupLatency := 1, maxCapacity := 64, positive := by decide, even := rfl }

/-- One cache passes a line on to another one and a snoop reaches both. -/
theorem sharers_tracked_two : ∃ filter trace, create.setCPUSidePorts (crossbarPorts [true, false, true]) = .ok filter ∧
    (filters smallParams).Run (initial filter)
      [.updateSnoopResponse (.atZero .readResp true true) ⟨0, true⟩ ⟨2, true⟩, .finishRequest false 0 false,
        .lookupRequest (.atZero .readSharedReq false false) ⟨2, true⟩,
        .updateResponse (.atZero .readResp false false) ⟨0, true⟩, .finishRequest false 0 false,
        .lookupRequest (.atZero .readSharedReq false false) ⟨0, true⟩] trace ∧
    (trace.sharers (smallParams.line 0 false)).Has ⟨0, true⟩ ∧ (trace.sharers (smallParams.line 0 false)).Has ⟨2, true⟩ ∧
    ∀ ports latency next,
      trace.filter.lookupSnoop smallParams (.atZero .readExReq false false) = .ok ((ports, latency), next) →
      ⟨0, true⟩ ∈ ports ∧ ⟨2, true⟩ ∈ ports := by
  have one : Attached ⟨∅, none, ⟨0, 0⟩, [⟨0, true⟩, ⟨2, true⟩], [some 0, none, some 1]⟩ ⟨0, true⟩ := fun _ => by decide
  have two : Attached ⟨∅, none, ⟨0, 0⟩, [⟨0, true⟩, ⟨2, true⟩], [some 0, none, some 1]⟩ ⟨2, true⟩ := fun _ => by decide
  refine ⟨_, _, and_of_imp rfl fun attached => and_of_imp (.cons (.cons (.cons (.cons (.cons (.cons .nil ⟨rfl, one⟩ rfl)
    rfl rfl) ⟨nofun, one⟩ rfl) ⟨rfl, two⟩ rfl) rfl rfl) ⟨nofun, one, two⟩ rfl) fun run =>
    ⟨.inl rfl, .inl rfl, fun ports latency next ran => ?_⟩⟩
  have tracked := (sharers_tracked attached run).2.1
  exact ⟨tracked _ ports latency next ran _ (.inl rfl), tracked _ ports latency next ran _ (.inl rfl)⟩

end Runs
end SnoopFilter
end Gem5
