import Gem5.Construction.Mem.SnoopFilter

namespace Gem5
open ToMathlib List

namespace SnoopFilter
variable {filter next : SnoopFilter} {ports : List ResponsePort} {port other : ResponsePort} {index : Nat}
  {mask left right : SnoopMask}

/-- Each snooping port has the number of its place. -/
structure Numbered (filter : SnoopFilter) : Prop where
  small : filter.cpuSidePorts.length ≤ SNOOP_MASK_SIZE
  snooping : ∀ port ∈ filter.cpuSidePorts, port.isSnooping = true
  place : ∀ (index : Nat) (port : ResponsePort), filter.cpuSidePorts[index]? = some port →
    filter.localResponsePortIds[port.id]? = some (some index)

/-- The loop over the ports keeps the numbers of earlier ports and appends the snooping ports. -/
theorem addPorts_numbers {state final : SnoopFilter × Nat} (run : ports.foldlM addPort state = .ok final)
    (distinct : (ports.map (·.id)).Nodup) (fresh : ∀ port ∈ state.1.cpuSidePorts, port.id ∉ ports.map (·.id))
    (count : state.2 = state.1.cpuSidePorts.length)
    (place : ∀ (index : Nat) (port : ResponsePort), state.1.cpuSidePorts[index]? = some port →
      state.1.localResponsePortIds[port.id]? = some (some index)) :
    final.1.cpuSidePorts = state.1.cpuSidePorts ++ ports.filter (·.isSnooping) ∧
    final.2 = final.1.cpuSidePorts.length ∧
    ∀ (index : Nat) (port : ResponsePort), final.1.cpuSidePorts[index]? = some port →
      final.1.localResponsePortIds[port.id]? = some (some index) := by
  induction ports generalizing state with
  | nil =>
    cases run
    exact ⟨(append_nil _).symm, count, place⟩
  | cons port rest ih =>
    obtain ⟨middle, added, run⟩ := bind_eq_ok.mp run
    rw [map_cons, nodup_cons] at distinct
    obtain ⟨new, distinct⟩ := distinct
    have later : ∀ other ∈ state.1.cpuSidePorts, other.id ≠ port.id ∧ other.id ∉ rest.map (·.id) := by
      intro other member
      have outside := fresh other member
      rw [map_cons, mem_cons, not_or] at outside
      exact outside
    rw [addPort] at added
    cases snooping : port.isSnooping with
    | false =>
      rw [if_neg (by rw [snooping]; decide)] at added
      cases added
      rw [filter_cons_of_neg (by rw [snooping]; decide)]
      exact ih run distinct (fun other member => (later other member).2) count place
    | true =>
      rw [if_pos snooping] at added
      split at added
      case isFalse => cases added
      case isTrue inside =>
        cases added
        rw [filter_cons_of_pos snooping, ← singleton_append, ← append_assoc]
        refine ih run distinct ?_ ?_ ?_
        · exact forall_mem_append.mpr ⟨fun other old => (later other old).2, forall_mem_singleton.mpr new⟩
        · rw [length_append, length_singleton, count]
        · intro index other found
          rcases Nat.lt_or_ge index state.1.cpuSidePorts.length with before | after
          · rw [List.getElem?_append_left before] at found
            rw [List.getElem?_set_ne (later other (mem_of_getElem? found)).1.symm]
            exact place index other found
          · rw [List.getElem?_append_right after] at found
            obtain ⟨bound, same⟩ := List.getElem?_eq_some_iff.mp found
            rw [length_singleton] at bound
            rw [getElem_singleton] at same
            rw [← same, List.getElem?_set_self inside, count, show index = state.1.cpuSidePorts.length by omega]

theorem crossbarPorts_ids (snooping : List Bool) : ((crossbarPorts snooping).map (·.id)).Nodup := by
  have ids : (crossbarPorts snooping).map (·.id) = range snooping.length := by
    rw [crossbarPorts, map_map, range_eq_range']
    exact zipIdx_map_snd 0 snooping
  rw [ids]
  exact nodup_range

/-- A filter that accepts the ports of a crossbar has numbered the snooping ones. -/
theorem setCPUSidePorts_numbered {snooping : List Bool}
    (attached : create.setCPUSidePorts (crossbarPorts snooping) = .ok filter) :
    filter.Numbered ∧ ∀ port ∈ crossbarPorts snooping, filter.Attached port := by
  obtain ⟨⟨numbered, count⟩, run, checked⟩ := bind_eq_ok.mp attached
  obtain ⟨whole, length, place⟩ := addPorts_numbers run (crossbarPorts_ids snooping)
    (fun _ member => nomatch member) rfl (fun index port found => by simp [create] at found)
  obtain ⟨small, checked⟩ := ite_error_eq_ok.mp checked
  obtain rfl : numbered = filter := Except.ok.inj checked
  have ports : numbered.cpuSidePorts = (crossbarPorts snooping).filter (·.isSnooping) := whole
  refine ⟨⟨?_, fun port member => ?_, place⟩, fun port member active => ?_⟩
  · dsimp only at length
    omega
  · rw [ports] at member
    exact (mem_filter.mp member).2
  · rw [ports]
    exact mem_filter.mpr ⟨member, active⟩

/-- The port is in a mask at its place. -/
def HasBit (ports : List ResponsePort) (mask : SnoopMask) (port : ResponsePort) : Prop :=
  ∃ index, ports[index]? = some port ∧ mask.getLsbD index = true

/-- The mask of a port has the bit of its place only. -/
def MaskOf (ports : List ResponsePort) (port : ResponsePort) (mask : SnoopMask) : Prop :=
  ∀ index, mask.getLsbD index = true ↔ ports[index]? = some port

theorem getLsbD_zeroMask (index : Nat) : (0 : SnoopMask).getLsbD index = false := BitVec.getLsbD_zero

theorem portToMask_ok (numbered : filter.Numbered) (attached : filter.Attached port) :
    ∃ mask, filter.portToMask port = .ok mask ∧ MaskOf filter.cpuSidePorts port mask := by
  rw [portToMask]
  cases snooping : port.isSnooping with
  | false =>
    refine ⟨0, rfl, fun index => ?_⟩
    rw [getLsbD_zeroMask]
    refine ⟨fun impossible => (nomatch impossible), fun found => ?_⟩
    rw [numbered.snooping port (mem_of_getElem? found)] at snooping
    cases snooping
  | true =>
    obtain ⟨place, found⟩ := List.mem_iff_getElem?.mp (attached snooping)
    have inside : place < 256 := Nat.lt_of_lt_of_le (List.getElem?_eq_some_iff.mp found).1 numbered.small
    rw [if_pos rfl, numbered.place place port found]
    refine ⟨BitVec.twoPow 256 place, rfl, fun index => ?_⟩
    rw [BitVec.getLsbD_twoPow]
    constructor
    · intro same
      obtain rfl : place = index := by simpa [inside] using same
      exact found
    · intro other
      have same := (numbered.place place port found).symm.trans (numbered.place index port other)
      obtain rfl : place = index := Option.some.inj (Option.some.inj same)
      simp [inside]

theorem hasBit_or : HasBit ports (left ||| right) port ↔ HasBit ports left port ∨ HasBit ports right port := by
  constructor
  · rintro ⟨index, found, set⟩
    rw [BitVec.getLsbD_or, Bool.or_eq_true] at set
    exact set.imp (fun set => ⟨index, found, set⟩) fun set => ⟨index, found, set⟩
  · rintro (⟨index, found, set⟩ | ⟨index, found, set⟩) <;> exact ⟨index, found, by rw [BitVec.getLsbD_or, set]; simp⟩

theorem not_hasBit_zero : ¬HasBit ports 0 port := by
  rintro ⟨index, _, set⟩
  rw [getLsbD_zeroMask] at set
  cases set

/-- A port keeps its bit when the mask of another port is removed. -/
theorem HasBit.clear (held : HasBit ports left other) (is : MaskOf ports port mask) (different : other ≠ port) :
    HasBit ports (left &&& ~~~mask) other := by
  obtain ⟨index, found, set⟩ := held
  have outside : mask.getLsbD index = false := by
    by_contra inside
    have same := (is index).mp (by simpa using inside)
    exact different (Option.some.inj (found.symm.trans same))
  refine ⟨index, found, ?_⟩
  rw [BitVec.getLsbD_and, BitVec.getLsbD_not, set, outside]
  simpa using BitVec.lt_of_getLsbD set

theorem MaskOf.hasBit (is : MaskOf ports port mask) (member : port ∈ ports) : HasBit ports mask port := by
  obtain ⟨index, found⟩ := List.mem_iff_getElem?.mp member
  exact ⟨index, found, (is index).mpr found⟩

/-- A mask meets the mask of a port if it has the bit of the port. -/
theorem MaskOf.and_ne_zero (is : MaskOf ports port mask) : left &&& mask ≠ 0 ↔ HasBit ports left port := by
  constructor
  · intro nonzero
    by_contra outside
    refine nonzero (BitVec.eq_of_getLsbD_eq fun index _ => ?_)
    rw [BitVec.getLsbD_and, getLsbD_zeroMask]
    by_contra both
    rw [Bool.not_eq_false, Bool.and_eq_true] at both
    exact outside ⟨index, (is index).mp both.2, both.1⟩
  · rintro ⟨index, found, set⟩ zero
    have clear : (left &&& mask).getLsbD index = false := by rw [zero, getLsbD_zeroMask]
    rw [BitVec.getLsbD_and, set, (is index).mpr found] at clear
    cases clear

/-- The list of a mask has the ports of its bits. -/
theorem maskToPortList_ok (numbered : filter.Numbered) (mask : SnoopMask) :
    ∃ list, filter.maskToPortList mask = .ok list ∧ ∀ port, port ∈ list ↔ HasBit filter.cpuSidePorts mask port := by
  obtain ⟨list, ran, members⟩ := foldlM_ok (fun res port => do
      let own ← filter.portToMask port
      .ok (if mask &&& own ≠ 0 then res ++ [port] else res)) filter.cpuSidePorts []
    (fun before list => ∀ port, port ∈ list ↔ port ∈ before ∧ HasBit filter.cpuSidePorts mask port) (by simp) (by
      intro before first after list parts members
      obtain ⟨own, found, is⟩ := portToMask_ok numbered fun _ => (by simp [parts] : first ∈ filter.cpuSidePorts)
      refine ⟨_, by rw [found]; rfl, fun port => ?_⟩
      by_cases held : HasBit filter.cpuSidePorts mask first
      · rw [if_pos (is.and_ne_zero.mpr held), mem_append, mem_append, members port, mem_singleton, or_and_right]
        exact or_congr_right ⟨fun same => ⟨same, same ▸ held⟩, And.left⟩
      · rw [if_neg (fun nonzero => held (is.and_ne_zero.mp nonzero)), members port, mem_append, mem_singleton,
          or_and_right]
        exact (or_iff_left fun ⟨same, bit⟩ => held (same ▸ bit)).symm)
  refine ⟨list, ran, fun port => (members port).trans (and_iff_right_of_imp ?_)⟩
  rintro ⟨index, found, _⟩
  exact mem_of_getElem? found

end SnoopFilter
end Gem5
