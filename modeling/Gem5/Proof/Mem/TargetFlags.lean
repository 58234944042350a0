import Gem5.Construction.Mem.Mshr

namespace Gem5
open ToMathlib List

/-- This structure has the flags of a list that the cache reads. -/
structure FlagSummary where
  needsWritable : Bool
  hasUpgrade : Bool
  allocOnFill : Bool
  hasFromCache : Bool
  isWholeLineWrite : Bool
deriving DecidableEq, Repr

namespace TargetFlags
variable {flags other : TargetFlags} {empty : Bool} {blkSize : Nat} {t : Target} {pkt : Packet} {targets : List Target}

def summary (flags : TargetFlags) : FlagSummary where
  needsWritable := flags.needsWritable
  hasUpgrade := flags.hasUpgrade
  allocOnFill := flags.allocOnFill
  hasFromCache := flags.hasFromCache
  isWholeLineWrite := flags.isWholeLineWrite

/-- Two flags agree on what the cache reads and on how later writes change it. -/
structure Matches (flags other : TargetFlags) : Prop where
  needsWritable : flags.needsWritable = other.needsWritable
  hasUpgrade : flags.hasUpgrade = other.hasUpgrade
  allocOnFill : flags.allocOnFill = other.allocOnFill
  hasFromCache : flags.hasFromCache = other.hasFromCache
  whole : flags.isWholeLineWrite = other.isWholeLineWrite
  merging : flags.isWholeLineWrite = false → flags.canMergeWrites = other.canMergeWrites
  bytes : flags.isWholeLineWrite = false → flags.canMergeWrites = true → flags.writesBitmap = other.writesBitmap

theorem Matches.refl (flags : TargetFlags) : flags.Matches flags :=
  ⟨rfl, rfl, rfl, rfl, rfl, fun _ => rfl, fun _ _ => rfl⟩

theorem Matches.summary (agree : flags.Matches other) : flags.summary = other.summary := by
  simp only [TargetFlags.summary, agree.needsWritable, agree.hasUpgrade, agree.allocOnFill, agree.hasFromCache,
    agree.whole]

theorem updateWriteFlags_whole (whole : flags.isWholeLineWrite = true) :
    flags.updateWriteFlags empty blkSize pkt = flags := if_pos whole

theorem updateWriteFlags_closed (closed : flags.canMergeWrites = false) :
    flags.updateWriteFlags empty blkSize pkt = flags := by
  unfold updateWriteFlags
  simp [closed]

/-- A write marks its bytes while writes are merged, and another packet ends the merging. -/
theorem updateWriteFlags_open (unfinished : flags.isWholeLineWrite = false) (merges : flags.canMergeWrites = true) :
    flags.updateWriteFlags empty blkSize pkt = if pkt.cmd.isWrite then { flags with
        writesBitmap :=
          if !pkt.isMaskedWrite && (empty || !pkt.req.isSet Request.noMergeFlags) then
            fillBytes flags.writesBitmap (pkt.getOffset blkSize) pkt.size
          else flags.writesBitmap
        canMergeWrites := !pkt.req.isSet Request.noMergeFlags }
      else { flags with canMergeWrites := false } := by
  simp only [updateWriteFlags, unfinished, merges, if_true, Bool.true_and, Bool.false_eq_true, if_false]

theorem fillBytes_length (bitmap : List Bool) (offset size : Nat) :
    (fillBytes bitmap offset size).length = bitmap.length := length_mapIdx

/-- The write flags are updated without the other ones, which do not matter for them. -/
theorem updateWriteFlags_eq (flags : TargetFlags) (empty : Bool) (blkSize : Nat) (pkt : Packet) :
    ∃ merges bytes, bytes.length = flags.writesBitmap.length ∧ ∀ needsWritable hasUpgrade allocOnFill hasFromCache,
      { flags with needsWritable, hasUpgrade, allocOnFill, hasFromCache }.updateWriteFlags empty blkSize pkt =
        ⟨needsWritable, hasUpgrade, allocOnFill, hasFromCache, merges, bytes⟩ := by
  simp only [updateWriteFlags, isWholeLineWrite]
  split
  · exact ⟨_, _, rfl, fun _ _ _ _ => rfl⟩
  split
  · split
    · refine ⟨_, _, ?_, fun _ _ _ _ => rfl⟩
      split
      · exact fillBytes_length ..
      · rfl
    · exact ⟨_, _, rfl, fun _ _ _ _ => rfl⟩
  · exact ⟨_, _, rfl, fun _ _ _ _ => rfl⟩

theorem Matches.updateWriteFlags (agree : flags.Matches other) (empty : Bool) (blkSize : Nat) (pkt : Packet) :
    (flags.updateWriteFlags empty blkSize pkt).Matches (other.updateWriteFlags empty blkSize pkt) := by
  cases whole : flags.isWholeLineWrite with
  | true => rwa [updateWriteFlags_whole whole, updateWriteFlags_whole (agree.whole ▸ whole)]
  | false =>
    have merging := agree.merging whole
    cases merges : flags.canMergeWrites with
    | false => rwa [updateWriteFlags_closed merges, updateWriteFlags_closed (merging ▸ merges)]
    | true =>
      have bytes := agree.bytes whole merges
      rw [updateWriteFlags_open whole merges, updateWriteFlags_open (agree.whole ▸ whole) (merging ▸ merges)]
      split
      · refine { agree with whole := ?_, merging := fun _ => rfl, bytes := ?_ }
        · simp only [isWholeLineWrite, bytes]
        · simp only [bytes, implies_true]
      · exact { agree with merging := fun _ => rfl, bytes := by simp }

theorem Matches.updateFlags (agree : flags.Matches other) (empty : Bool) (blkSize : Nat) (t : Target) :
    (flags.updateFlags empty blkSize t.pkt t.source t.allocOnFill).Matches
      (other.updateFlags empty blkSize t.pkt t.source t.allocOnFill) := by
  unfold TargetFlags.updateFlags
  split
  · exact agree
  split
  · exact { agree with
      needsWritable := by simp [agree.needsWritable]
      hasUpgrade := by simp [agree.hasUpgrade]
      allocOnFill := by simp [agree.allocOnFill] }
  · apply Matches.updateWriteFlags
    exact ⟨by simp [agree.needsWritable], by simp [agree.hasUpgrade], by simp [agree.allocOnFill],
      by simp [agree.hasFromCache], agree.whole, agree.merging, agree.bytes⟩

/-- An empty bitmap is filled by the bytes of the whole block only. -/
theorem fillBytes_all {offset size : Nat} (positive : 1 ≤ blkSize) :
    (fillBytes (replicate blkSize false) offset size).all id = true ↔ offset = 0 ∧ blkSize ≤ size := by
  rw [all_eq_true]
  constructor
  · intro all
    have at' : ∀ i < blkSize, offset ≤ i ∧ i < offset + size := by
      intro i inside
      have byte := all (false || (offset ≤ i && i < offset + size)) (by
        rw [mem_iff_getElem?]
        refine ⟨i, ?_⟩
        rw [fillBytes, getElem?_mapIdx, getElem?_replicate_of_lt inside]
        rfl)
      simpa using byte
    have first := at' 0 (by omega)
    have last := at' (blkSize - 1) (by omega)
    omega
  · rintro ⟨rfl, long⟩ byte member
    obtain ⟨i, inside, rfl⟩ := mem_iff_getElem.mp member
    rw [fillBytes_length, length_replicate] at inside
    simp only [fillBytes, getElem_mapIdx, getElem_replicate]
    simp
    omega

theorem updateFlags_length : (flags.updateFlags empty blkSize t.pkt t.source t.allocOnFill).writesBitmap.length =
    flags.writesBitmap.length := by
  unfold updateFlags
  split
  · rfl
  · split
    · rfl
    · obtain ⟨_, _, length, same⟩ := updateWriteFlags_eq flags empty blkSize t.pkt
      rwa [same]

/-- This function adds a target to the flags of a list, of which it is known whether it is empty. -/
def addFlags (blkSize : Nat) (state : TargetFlags × Bool) (t : Target) : TargetFlags × Bool :=
  (state.1.updateFlags state.2 blkSize t.pkt t.source t.allocOnFill, false)

/-- This function has the flags that targets give when they are added one by one to an empty list. -/
def rebuiltFlags (blkSize : Nat) (targets : List Target) : TargetFlags :=
  (targets.foldl (addFlags blkSize) (.resetFlags blkSize, true)).1

theorem foldl_addFlags_snd (blkSize : Nat) (targets : List Target) (state : TargetFlags × Bool) :
    (targets.foldl (addFlags blkSize) state).2 = (targets.isEmpty && state.2) := by
  induction targets generalizing state with
  | nil => rfl
  | cons t targets ih =>
    rw [foldl_cons, ih]
    simp [addFlags]

theorem rebuiltFlags_append (first second : List Target) : rebuiltFlags blkSize (first ++ second) =
    (second.foldl (addFlags blkSize) (rebuiltFlags blkSize first, first.isEmpty)).1 := by
  have empty := foldl_addFlags_snd blkSize first (.resetFlags blkSize, true)
  rw [Bool.and_true] at empty
  rw [rebuiltFlags, foldl_append, rebuiltFlags, ← empty]

/-- The parts of a target that the flags do not read do not matter. -/
theorem rebuiltFlags_map {f : Target → Target}
    (keeps : ∀ t, (f t).pkt = t.pkt ∧ (f t).source = t.source ∧ (f t).allocOnFill = t.allocOnFill) :
    rebuiltFlags blkSize (targets.map f) = rebuiltFlags blkSize targets := by
  have same : ∀ state t, addFlags blkSize state (f t) = addFlags blkSize state t := by
    intro state t
    obtain ⟨pkt, source, allocOnFill⟩ := keeps t
    simp only [addFlags, pkt, source, allocOnFill]
  simp only [rebuiltFlags, foldl_map, same]

/-- A write of a processor writes the whole block, but may not be merged with other writes. -/
def specialLineWrite (blkSize : Nat) (t : Target) : Bool :=
  t.source = .fromCPU && t.pkt.cmd.isWrite && !t.pkt.isMaskedWrite && t.pkt.req.isSet Request.noMergeFlags &&
    t.pkt.getOffset blkSize = 0 && blkSize ≤ t.pkt.size

/-- The first target is no write of the whole block that may not be merged. -/
def Settled (blkSize : Nat) (targets : List Target) : Prop :=
  ∀ t, targets.head? = some t → specialLineWrite blkSize t = false

theorem isWholeLineWrite_blank (positive : 1 ≤ blkSize) (blank : flags.writesBitmap = replicate blkSize false) :
    flags.isWholeLineWrite = false := by
  rw [isWholeLineWrite, blank]
  cases blkSize with
  | zero => omega
  | succ n => simp [replicate_succ]

/-- The first write gives the same flags in an empty list and in a list that is not empty. -/
theorem matches_firstWrite (blank : flags.writesBitmap = replicate blkSize false)
    (merges : flags.canMergeWrites = true)
    (ordinary : ¬(pkt.cmd.isWrite = true ∧ pkt.isMaskedWrite = false ∧ pkt.req.isSet Request.noMergeFlags = true ∧
      pkt.getOffset blkSize = 0 ∧ blkSize ≤ pkt.size)) :
    (flags.updateWriteFlags false blkSize pkt).Matches (flags.updateWriteFlags true blkSize pkt) := by
  rcases Nat.lt_or_ge 0 blkSize with positive | none
  · have unfinished := isWholeLineWrite_blank positive blank
    rw [updateWriteFlags_open unfinished merges, updateWriteFlags_open unfinished merges]
    split
    · rename_i write
      cases special : pkt.req.isSet Request.noMergeFlags with
      | false => exact .refl _
      | true =>
        cases masked : pkt.isMaskedWrite with
        | true => exact .refl _
        | false =>
          have notAll : ¬(fillBytes (replicate blkSize false) (pkt.getOffset blkSize) pkt.size).all id = true := by
            rw [fillBytes_all positive]
            exact fun covers => ordinary ⟨write, masked, special, covers⟩
          refine ⟨rfl, rfl, rfl, rfl, ?_, fun _ => rfl, fun _ closed => absurd closed (by simp)⟩
          simp only [isWholeLineWrite, blank, Bool.not_true, Bool.not_false, Bool.or_false, Bool.and_true, if_true]
          rw [Bool.not_eq_true] at notAll
          rw [notAll, ← blank]
          exact unfinished
    · exact .refl _
  · have whole : flags.isWholeLineWrite = true := by
      rw [isWholeLineWrite, blank, Nat.le_zero.mp none]
      rfl
    rw [updateWriteFlags_whole whole, updateWriteFlags_whole whole]
    exact .refl _

/-- The first target gives the same flags in an empty list and in a list that is not empty. -/
theorem matches_first (ordinary : specialLineWrite blkSize t = false) :
    ((resetFlags blkSize).updateFlags false blkSize t.pkt t.source t.allocOnFill).Matches
      ((resetFlags blkSize).updateFlags true blkSize t.pkt t.source t.allocOnFill) := by
  unfold updateFlags
  split
  · exact .refl _
  rename_i request
  split
  · exact .refl _
  rename_i demand
  have fromCPU : t.source = .fromCPU := by
    cases source : t.source with
    | fromCPU => rfl
    | fromSnoop => exact absurd source request
    | fromPrefetcher => exact absurd source demand
  apply matches_firstWrite rfl rfl
  rintro ⟨write, masked, special, offset, size⟩
  simp [specialLineWrite, fromCPU, write, masked, special, offset, size] at ordinary

/-- Computed flags match the flags of the targets when the first one is settled. -/
theorem matches_populated (settled : Settled blkSize targets) :
    (targets.foldl (fun flags t => flags.updateFlags targets.isEmpty blkSize t.pkt t.source t.allocOnFill)
      (resetFlags blkSize)).Matches (rebuiltFlags blkSize targets) := by
  cases targets with
  | nil => exact .refl _
  | cons first rest =>
    change Matches (rest.foldl _ _) (Prod.fst (rest.foldl _ _))
    refine (foldl_rel (r := fun flags (state : TargetFlags × Bool) => Matches flags state.1 ∧ state.2 = false)
      ⟨matches_first (settled first rfl), rfl⟩ ?_).1
    rintro t _ flags ⟨other, _⟩ ⟨agree, rfl⟩
    exact ⟨agree.updateFlags false blkSize t, rfl⟩

/-- A target adds no flag that a list does not have, and the list merges no more writes. -/
def Absorbs (flags : TargetFlags) (t : Target) : Prop :=
  (t.pkt.cmd.needsWritable = true → flags.needsWritable = true) ∧
  (t.pkt.cmd.isUpgrade = true ∨ t.pkt.cmd = .storeCondReq → flags.hasUpgrade = true) ∧
  (t.allocOnFill = true → flags.allocOnFill = true) ∧
  (t.pkt.cmd.fromCache = true → flags.hasFromCache = true) ∧
  (flags.isWholeLineWrite = true ∨ flags.canMergeWrites = false)

theorem Absorbs.updateFlags (absorbs : flags.Absorbs t) (empty : Bool) (blkSize : Nat) :
    flags.updateFlags empty blkSize t.pkt t.source t.allocOnFill = flags := by
  obtain ⟨needsWritable, hasUpgrade, allocOnFill, hasFromCache, closed⟩ := absorbs
  have upgrade : (flags.hasUpgrade || t.pkt.cmd.isUpgrade || decide (t.pkt.cmd = .storeCondReq)) = flags.hasUpgrade := by
    rw [Bool.or_assoc, Bool.or_eq_left_iff_imp]
    simpa using hasUpgrade
  unfold TargetFlags.updateFlags
  simp only [Bool.or_eq_left_iff_imp.mpr needsWritable, upgrade, Bool.or_eq_left_iff_imp.mpr allocOnFill,
    Bool.or_eq_left_iff_imp.mpr hasFromCache]
  split
  · rfl
  · split
    · rfl
    · exact closed.elim updateWriteFlags_whole updateWriteFlags_closed

/-- Flags that absorb targets match what the targets make of flags that they match. -/
theorem Matches.absorb_all (agree : flags.Matches other) (absorbs : ∀ t ∈ targets, flags.Absorbs t) (empty : Bool) :
    flags.Matches (targets.foldl (addFlags blkSize) (other, empty)).1 := by
  apply foldlRecOn (motive := fun state : TargetFlags × Bool => flags.Matches state.1) targets _ agree
  intro state held t member
  have after := held.updateFlags state.2 blkSize t
  rwa [(absorbs t member).updateFlags] at after

/-- A replaced packet writes the same bytes. -/
theorem updateWriteFlags_replaced (flags : TargetFlags) :
    ({ flags with hasUpgrade := false }).updateWriteFlags empty blkSize pkt.replaceUpgrade =
      { flags.updateWriteFlags empty blkSize pkt with hasUpgrade := false } := by
  obtain ⟨_, _, _, write, same⟩ := pkt.cmd.replaceUpgrade_attributes
  have masked : pkt.replaceUpgrade.isMaskedWrite = pkt.isMaskedWrite := by
    simp only [Packet.isMaskedWrite, Packet.replaceUpgrade, same]
  have write' : pkt.replaceUpgrade.cmd.isWrite = pkt.cmd.isWrite := write
  obtain ⟨_, _, _, updated⟩ := updateWriteFlags_eq flags empty blkSize pkt
  have without := updated flags.needsWritable false flags.allocOnFill flags.hasFromCache
  rw [show flags.updateWriteFlags empty blkSize pkt = _ from updated .., ← without]
  simp only [updateWriteFlags, masked, write']
  rfl

/-- Replaced targets give the same flags without an upgrade. -/
theorem rebuiltFlags_replaced : rebuiltFlags blkSize (targets.map fun t => { t with pkt := t.pkt.replaceUpgrade }) =
    { rebuiltFlags blkSize targets with hasUpgrade := false } := by
  have one : ∀ (flags : TargetFlags) (empty : Bool) (t : Target),
      ({ flags with hasUpgrade := false }).updateFlags empty blkSize t.pkt.replaceUpgrade t.source t.allocOnFill =
        { flags.updateFlags empty blkSize t.pkt t.source t.allocOnFill with hasUpgrade := false } := by
    intro flags empty t
    obtain ⟨_, writable, cache, _, _⟩ := t.pkt.cmd.replaceUpgrade_attributes
    obtain ⟨noUpgrade, notStore⟩ := MemCmd.replaceUpgrade_noUpgrade t.pkt.request
    have writable' : t.pkt.replaceUpgrade.cmd.needsWritable = t.pkt.cmd.needsWritable := writable
    have cache' : t.pkt.replaceUpgrade.cmd.fromCache = t.pkt.cmd.fromCache := cache
    have noUpgrade' : t.pkt.replaceUpgrade.cmd.isUpgrade = false := noUpgrade
    have notStore' : t.pkt.replaceUpgrade.cmd ≠ .storeCondReq := notStore
    unfold updateFlags
    simp only [writable', cache', noUpgrade', notStore', decide_false, Bool.or_false]
    split
    · rfl
    · split
      · rfl
      · exact updateWriteFlags_replaced { flags with
          needsWritable := flags.needsWritable || t.pkt.cmd.needsWritable
          hasUpgrade := flags.hasUpgrade || t.pkt.cmd.isUpgrade || t.pkt.cmd = .storeCondReq
          allocOnFill := flags.allocOnFill || t.allocOnFill
          hasFromCache := flags.hasFromCache || t.pkt.cmd.fromCache }
  rw [rebuiltFlags, foldl_map]
  refine (foldl_rel (r := fun (state other : TargetFlags × Bool) =>
    state.1 = { other.1 with hasUpgrade := false } ∧ state.2 = other.2) ⟨rfl, rfl⟩ ?_).1
  rintro t _ ⟨_, _⟩ other ⟨rfl, rfl⟩
  exact ⟨one other.1 other.2 t, rfl⟩

theorem needsWritable_eq (needs : flags.needsWritable = true) : { flags with needsWritable := true } = flags := by
  rw [← needs]

/-- The mark for a writable block is set before or after the other flags. -/
theorem updateFlags_writable (flags : TargetFlags) (empty : Bool) (t : Target) :
    ({ flags with needsWritable := true }).updateFlags empty blkSize t.pkt t.source t.allocOnFill =
      { flags.updateFlags empty blkSize t.pkt t.source t.allocOnFill with needsWritable := true } := by
  unfold updateFlags
  split
  · rfl
  · split
    · rfl
    · obtain ⟨_, _, _, updated⟩ := updateWriteFlags_eq flags empty blkSize t.pkt
      rw [updated, updated, Bool.true_or]

theorem foldl_addFlags_writable (targets : List Target) (flags : TargetFlags) (empty : Bool) :
    (targets.foldl (addFlags blkSize) ({ flags with needsWritable := true }, empty)).1 =
      { (targets.foldl (addFlags blkSize) (flags, empty)).1 with needsWritable := true } := by
  induction targets generalizing flags empty with
  | nil => rfl
  | cons t targets ih =>
    rw [foldl_cons, foldl_cons]
    simp only [addFlags, updateFlags_writable]
    exact ih _ false

/-- The flags of targets need a writable block when one of the targets does. -/
theorem foldl_addFlags_needsWritable (member : t ∈ targets) (request : t.source ≠ .fromSnoop)
    (needs : t.pkt.cmd.needsWritable = true) (flags : TargetFlags) (empty : Bool) :
    (targets.foldl (addFlags blkSize) (flags, empty)).1.needsWritable = true := by
  obtain ⟨before, after, rfl⟩ := append_of_mem member
  rw [foldl_append, foldl_cons]
  rcases before.foldl (addFlags blkSize) (flags, empty) with ⟨reached, none⟩
  have marked : (reached.updateFlags none blkSize t.pkt t.source t.allocOnFill).needsWritable = true := by
    rw [updateFlags, if_neg request]
    split
    · simp [needs]
    · obtain ⟨_, _, _, updated⟩ := updateWriteFlags_eq reached none blkSize t.pkt
      simp [updated, needs]
  rw [addFlags, ← needsWritable_eq marked, foldl_addFlags_writable]

end TargetFlags

end Gem5
