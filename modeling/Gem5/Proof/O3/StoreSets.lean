import Gem5.Construction.O3.StoreSet

namespace Gem5.O3
open ToMathlib StoreSet Function List

namespace StoreSet
variable {set next : StoreSet} {seqNum ssid squashedNum : Nat}

/-- A step of the index table changes neither the last stores nor the store list. -/
structure SameStores (set next : StoreSet) : Prop where
  lfst : next.lfst = set.lfst
  validLFST : next.validLFST = set.validLFST
  storeList : next.storeList = set.storeList

theorem violation_sameStores {storePC loadPC : Nat} (done : set.violation storePC loadPC = .ok next) :
    set.SameStores next := by
  obtain ⟨_, done⟩ := assert_bind_eq_ok.mp done
  split at done
  case h_3 => cases done; exact ⟨rfl, rfl, rfl⟩
  all_goals obtain ⟨_, done⟩ := assert_bind_eq_ok.mp done
  case h_4 => split at done <;> cases done <;> exact ⟨rfl, rfl, rfl⟩
  all_goals cases done; exact ⟨rfl, rfl, rfl⟩

/-- A clear leaves the last stores but makes all of them invalid. -/
structure Cleared (set next : StoreSet) : Prop where
  lfst : next.lfst = set.lfst
  validLFST : ∀ ssid, next.validLFST ssid = false
  storeList : next.storeList = []

theorem checkClear_cases (set : StoreSet) : set.SameStores set.checkClear ∨ set.Cleared set.checkClear := by
  unfold checkClear
  split
  · exact .inr ⟨rfl, fun _ => rfl, rfl⟩
  · exact .inl ⟨rfl, rfl, rfl⟩

/-- A valid entry after the check shows that nothing was cleared. -/
theorem checkClear_of_valid (valid : set.checkClear.validLFST ssid = true) : set.SameStores set.checkClear := by
  rcases checkClear_cases set with same | cleared
  · exact same
  · simp [cleared.validLFST] at valid

theorem assign_youngest {entries : List (Nat × Nat)} (younger : ∀ entry ∈ entries, entry.1 < seqNum) :
    assign seqNum ssid entries = (seqNum, ssid) :: entries := by
  cases entries with
  | nil => rfl
  | cons entry entries => rw [assign, if_pos (younger entry (by simp))]

/-- A store without a set changes nothing more, and a store with a set becomes the last one of the set. -/
theorem insertStore_cases {storePC : Nat} (done : set.insertStore storePC seqNum = .ok next) :
    next = set.checkClear ∨ ∃ ssid, next.lfst = update set.checkClear.lfst ssid seqNum ∧
      next.validLFST = update set.checkClear.validLFST ssid true ∧
      next.storeList = assign seqNum ssid set.checkClear.storeList := by
  obtain ⟨_, done⟩ := assert_bind_eq_ok.mp done
  split at done
  · exact .inl (Except.ok.inj done).symm
  · cases (assert_bind_eq_ok.mp done).2
    exact .inr ⟨_, rfl, rfl, rfl⟩

/-- An issued store leaves the list, and it invalidates the entry that its address selects if the entry names it. -/
theorem issued_cases {pc : Nat} {isStore : Bool} (done : set.issued pc seqNum isStore = .ok next) :
    next.lfst = set.lfst ∧
    (next.storeList = set.storeList ∨
      next.storeList = set.storeList.eraseP fun entry => entry.1 = seqNum) ∧
    ∀ ssid, next.validLFST ssid =
      (set.validLFST ssid && !(set.lfst ssid = seqNum && isStore && set.validSSIT (set.calcIndex pc) &&
        set.ssit (set.calcIndex pc) = ssid)) := by
  unfold issued at done
  split at done
  · next notStore =>
      cases done
      exact ⟨rfl, .inl rfl, fun ssid => by simp [notStore]⟩
  next store =>
    obtain ⟨_, done⟩ := assert_bind_eq_ok.mp done
    dsimp only at done
    have isTrue : isStore = true := by simpa using store
    split at done
    · next invalid =>
        cases done
        exact ⟨rfl, .inr rfl, fun ssid => by simp [invalid]⟩
    next valid =>
      have isValid : set.validSSIT (set.calcIndex pc) = true := by simpa using valid
      obtain ⟨_, done⟩ := assert_bind_eq_ok.mp done
      split at done
      · next named =>
          cases done
          refine ⟨rfl, .inr rfl, ?_⟩
          intro ssid
          by_cases same : set.ssit (set.calcIndex pc) = ssid
          · subst same
            simp [invalidate, isTrue, isValid, named.2]
          · simp [invalidate, same, update_of_ne (Ne.symm same)]
      · next unnamed =>
          cases done
          refine ⟨rfl, .inr rfl, ?_⟩
          intro ssid
          by_cases same : set.ssit (set.calcIndex pc) = ssid
          · subst same
            cases listed : set.validLFST (set.ssit (set.calcIndex pc)) with
            | false => simp
            | true =>
              have other : set.lfst (set.ssit (set.calcIndex pc)) ≠ seqNum := fun equal => unnamed ⟨listed, equal⟩
              simp [other]
          · simp [same]

/-- The list has the youngest store first, and no store is younger than the last one of its set. -/
structure Listed (set : StoreSet) : Prop where
  sorted : set.storeList.Pairwise fun newer older => older.1 < newer.1
  last : ∀ entry ∈ set.storeList, entry.1 ≤ set.lfst entry.2

/-- A turn with a squashed store removes it and invalidates its set. -/
theorem squashTurn_younger {rest : List (Nat × Nat)} (shape : set.storeList = (seqNum, ssid) :: rest)
    (squashed : squashedNum < seqNum) (last : seqNum ≤ set.lfst ssid) :
    squashTurn squashedNum set = some { set.invalidate ssid with storeList := rest } := by
  have younger : squashedNum < set.lfst ssid := by omega
  rw [squashTurn, shape]
  dsimp only
  rw [if_neg (by omega)]
  cases valid : set.validLFST ssid with
  | true => rw [if_pos ⟨rfl, younger⟩]
  | false =>
    have same : set.invalidate ssid = set := by
      rw [invalidate, ← valid, update_eq_self]
    rw [if_neg (by simp), if_pos ⟨rfl, younger⟩, same]

/-- The loop ends as soon as it may take one turn more than there are stores. -/
theorem squashLoop_spec {turns : Nat} {entries : List (Nat × Nat)} (shape : set.storeList = entries)
    (listed : set.Listed) (enough : entries.length < turns) :
    ∃ next, squashLoop squashedNum turns set = .ok next ∧ next.lfst = set.lfst ∧
      next.storeList = entries.filter (fun entry => entry.1 ≤ squashedNum) ∧
      ∀ ssid, next.validLFST ssid = true ↔ set.validLFST ssid = true ∧
        ∀ entry ∈ entries, squashedNum < entry.1 → entry.2 ≠ ssid := by
  induction entries generalizing set turns with
  | nil =>
    obtain ⟨turns, rfl⟩ : ∃ left, turns = left + 1 := ⟨turns - 1, by simp at enough; omega⟩
    exact ⟨set, by simp [squashLoop, squashTurn, shape], rfl, shape, by simp⟩
  | cons entry rest ih =>
    obtain ⟨turns, rfl⟩ : ∃ left, turns = left + 1 := ⟨turns - 1, by omega⟩
    obtain ⟨seqNum, ssid⟩ := entry
    have sorted := listed.sorted
    rw [shape] at sorted
    obtain ⟨below, sortedRest⟩ := pairwise_cons.mp sorted
    by_cases squashed : squashedNum < seqNum
    · have turn := squashTurn_younger shape squashed (listed.last (seqNum, ssid) (by simp [shape]))
      have listedRest : StoreSet.Listed { set.invalidate ssid with storeList := rest } :=
        ⟨sortedRest, fun entry member => listed.last entry (by simp [shape, member])⟩
      obtain ⟨next, ended, lfst, list, valid⟩ := ih rfl listedRest (show rest.length < turns by simpa using enough)
      refine ⟨next, ?_, lfst, ?_, ?_⟩
      · rw [squashLoop, turn]
        exact ended
      · rw [list, filter_cons_of_neg (by simpa using squashed)]
      · intro other
        rw [valid other]
        by_cases same : other = ssid
        · subst same
          simp [invalidate, squashed]
        · simp [invalidate, update_of_ne same, Ne.symm same]
    · have early : seqNum ≤ squashedNum := Nat.le_of_not_lt squashed
      have kept : ∀ entry ∈ (seqNum, ssid) :: rest, entry.1 ≤ squashedNum :=
        forall_mem_cons.mpr ⟨early, fun entry later => (below entry later).le.trans early⟩
      refine ⟨set, ?_, rfl, ?_, ?_⟩
      · rw [squashLoop, squashTurn, shape]
        dsimp only
        rw [if_pos (by omega)]
      · rw [shape, filter_eq_self.mpr]
        intro entry member
        simpa using kept entry member
      · intro other
        exact (and_iff_left fun entry member late => absurd (kept entry member) (not_le.mpr late)).symm

/-- A loop that has ended does not use further turns. -/
theorem squashLoop_succ {turns : Nat} (ended : squashLoop squashedNum turns set = .ok next) :
    squashLoop squashedNum (turns + 1) set = .ok next := by
  induction turns generalizing set with
  | zero => simp [squashLoop] at ended
  | succ turns ih =>
    rw [squashLoop] at ended ⊢
    cases turn : squashTurn squashedNum set with
    | none =>
      rw [turn] at ended
      exact ended
    | some after =>
      rw [turn] at ended
      exact ih ended

theorem squashLoop_mono {turns more : Nat} (ended : squashLoop squashedNum turns set = .ok next)
    (enough : turns ≤ more) : squashLoop squashedNum more set = .ok next := by
  induction more, enough using Nat.le_induction with
  | base => exact ended
  | succ more _ ih => exact squashLoop_succ ih

end StoreSet

namespace StoreSet
variable {set next : StoreSet} {Allowed : Nat → Prop}

/-- Every valid entry of the table names an allowed store. -/
def Names (set : StoreSet) (Allowed : Nat → Prop) : Prop := ∀ ssid, set.validLFST ssid = true → Allowed (set.lfst ssid)

section
variable (names : set.Names Allowed)
include names

/-- A table with fewer valid entries names no new store. -/
theorem Names.fewer (lfst : next.lfst = set.lfst)
    (valid : ∀ ssid, next.validLFST ssid = true → set.validLFST ssid = true) : next.Names Allowed := by
  intro ssid holds
  rw [lfst]
  exact names ssid (valid ssid holds)

theorem Names.violation {storePC loadPC : Nat} (done : set.violation storePC loadPC = .ok next) :
    next.Names Allowed := by
  have same := violation_sameStores done
  exact names.fewer same.lfst fun ssid valid => same.validLFST ▸ valid

theorem Names.checkClear : set.checkClear.Names Allowed := by
  rcases checkClear_cases set with same | cleared
  · exact names.fewer same.lfst fun ssid valid => same.validLFST ▸ valid
  · intro ssid valid
    simp [cleared.validLFST] at valid

theorem Names.insertStore {storePC seqNum : Nat} (allowed : Allowed seqNum)
    (done : set.insertStore storePC seqNum = .ok next) : next.Names Allowed := by
  rcases insertStore_cases done with rfl | ⟨changed, lfst, validLFST, _⟩
  · exact names.checkClear
  intro ssid valid
  rw [lfst]
  by_cases same : ssid = changed
  · subst same
    rw [update_self]
    exact allowed
  · rw [validLFST, update_of_ne same] at valid
    rw [update_of_ne same]
    exact names.checkClear ssid valid

theorem Names.issued {pc seqNum : Nat} {isStore : Bool} (done : set.issued pc seqNum isStore = .ok next) :
    next.Names Allowed := by
  obtain ⟨lfst, _, valids⟩ := issued_cases done
  apply names.fewer lfst
  intro ssid valid
  rw [valids, Bool.and_eq_true] at valid
  exact valid.1

end

theorem squashTurn_fewer {squashedNum : Nat} (turn : squashTurn squashedNum set = some next) :
    next.lfst = set.lfst ∧ ∀ ssid, next.validLFST ssid = true → set.validLFST ssid = true := by
  unfold squashTurn at turn
  split at turn
  · simp at turn
  next seqNum ssid rest shape =>
    dsimp only at turn
    split at turn
    · simp at turn
    split at turn
    · cases turn
      refine ⟨rfl, ?_⟩
      intro other valid
      by_cases same : other = ssid
      · subst same
        simp [invalidate] at valid
      · simpa [invalidate, same] using valid
    · split at turn <;> obtain rfl := Option.some.inj turn <;> exact ⟨rfl, fun _ valid => valid⟩

theorem Names.squash {squashedNum : Nat} (names : set.Names Allowed) (done : set.squash squashedNum = .ok next) :
    next.Names Allowed := by
  unfold StoreSet.squash at done
  generalize set.storeList.length + 1 = turns at done
  induction turns generalizing set with
  | zero => simp [squashLoop] at done
  | succ turns ih =>
    rw [squashLoop] at done
    cases turn : squashTurn squashedNum set with
    | none =>
      rw [turn] at done
      cases done
      exact names
    | some after =>
      rw [turn] at done
      obtain ⟨lfst, fewer⟩ := squashTurn_fewer turn
      exact ih (names.fewer lfst fewer) done

/-- The check returns no store or a named store. -/
theorem Names.checkInst {pc store : Nat} (names : set.Names Allowed) (found : set.checkInst pc = .ok store) :
    store = 0 ∨ Allowed store := by
  obtain ⟨_, found⟩ := assert_bind_eq_ok.mp found
  split at found
  · exact .inl (Except.ok.inj found).symm
  · obtain ⟨_, found⟩ := assert_bind_eq_ok.mp found
    split at found
    · exact .inl (Except.ok.inj found).symm
    · next valid =>
        cases found
        exact .inr (names _ (by simpa using valid))

end StoreSet

namespace StoreSet
variable {set next : StoreSet} {lastStore : Nat}

/-- The list is in order, and no store in the tables is younger than the last inserted one. -/
structure Ordered (set : StoreSet) (lastStore : Nat) : Prop extends set.Listed where
  bounded : ∀ ssid, set.lfst ssid ≤ lastStore

namespace Ordered

theorem init {clearPeriod ssitSize lfstSize : Nat} {ssit : Nat → Nat} :
    (StoreSet.init clearPeriod ssitSize lfstSize ssit).Ordered 0 :=
  ⟨⟨.nil, by simp [StoreSet.init]⟩, fun _ => le_rfl⟩

section
variable (ordered : set.Ordered lastStore)
include ordered

theorem sublist (lfst : next.lfst = set.lfst) (list : next.storeList.Sublist set.storeList) :
    next.Ordered lastStore := by
  refine ⟨⟨ordered.sorted.sublist list, ?_⟩, ?_⟩
  · intro entry member
    rw [lfst]
    exact ordered.last entry (list.mem member)
  · rw [lfst]
    exact ordered.bounded

theorem checkClear : set.checkClear.Ordered lastStore := by
  rcases checkClear_cases set with same | cleared
  · exact ordered.sublist same.lfst (same.storeList ▸ List.Sublist.refl _)
  · exact ordered.sublist cleared.lfst (by rw [cleared.storeList]; exact nil_sublist _)

theorem entry_le {entry : Nat × Nat} (member : entry ∈ set.storeList) : entry.1 ≤ lastStore :=
  (ordered.last entry member).trans (ordered.bounded entry.2)

theorem insertStore {storePC seqNum : Nat} (younger : lastStore < seqNum)
    (done : set.insertStore storePC seqNum = .ok next) : next.Ordered seqNum := by
  have base := ordered.checkClear
  have early : ∀ entry ∈ set.checkClear.storeList, entry.1 < seqNum := fun entry member =>
    lt_of_le_of_lt (base.entry_le member) younger
  rcases insertStore_cases done with rfl | ⟨ssid, lfst, _, list⟩
  · exact ⟨base.toListed, fun ssid => (base.bounded ssid).trans younger.le⟩
  rw [assign_youngest early] at list
  have grows : ∀ other, set.checkClear.lfst other ≤ next.lfst other ∧ next.lfst other ≤ seqNum := by
    intro other
    have bound := base.bounded other
    rw [lfst]
    by_cases same : other = ssid
    · subst same
      rw [update_self]
      omega
    · rw [update_of_ne same]
      omega
  refine ⟨⟨?_, ?_⟩, fun other => (grows other).2⟩
  · rw [list, pairwise_cons]
    exact ⟨early, base.sorted⟩
  · intro entry member
    rw [list] at member
    rcases mem_cons.mp member with rfl | earlier
    · rw [lfst, update_self]
    · exact (base.last entry earlier).trans (grows entry.2).1

theorem squash (squashedNum : Nat) :
    ∃ next, set.squash squashedNum = .ok next ∧ next.Ordered lastStore ∧ next.lfst = set.lfst ∧
      next.storeList = set.storeList.filter (fun entry => entry.1 ≤ squashedNum) ∧
      ∀ ssid, next.validLFST ssid = true ↔ set.validLFST ssid = true ∧
        ∀ entry ∈ set.storeList, squashedNum < entry.1 → entry.2 ≠ ssid := by
  obtain ⟨next, ended, lfst, list, valid⟩ := squashLoop_spec rfl ordered.toListed (Nat.lt_succ_self _)
  refine ⟨next, ended, ordered.sublist lfst ?_, lfst, list, valid⟩
  rw [list]
  exact filter_sublist

end

end Ordered
end StoreSet

namespace StoreTrace
variable {trace next : StoreTrace} {op : StoreSetOp}

theorem ordered_step (ordered : trace.set.Ordered trace.lastStore) (allowed : trace.guard op)
    (stepped : trace.step op = .ok next) : next.set.Ordered next.lastStore := by
  obtain ⟨set, done, rfl⟩ := bind_ok_eq_ok.mp stepped
  cases op with
  | violation storePC loadPC =>
    have same := violation_sameStores done
    exact ordered.sublist same.lfst (same.storeList ▸ List.Sublist.refl _)
  | insertLoad loadPC loadSeqNum =>
    cases done
    exact ordered.checkClear
  | insertStore storePC storeSeqNum => exact ordered.insertStore allowed done
  | issued issuedPC issuedSeqNum isStore =>
    obtain ⟨lfst, list, _⟩ := issued_cases done
    apply ordered.sublist lfst
    rcases list with same | erased
    · exact same ▸ List.Sublist.refl _
    · rw [erased]
      exact eraseP_sublist
  | squash squashedNum =>
    obtain ⟨_, ended, squashed, _⟩ := ordered.squash squashedNum
    cases ended.symm.trans done
    exact squashed
  | clear =>
    cases done
    exact ordered.sublist rfl (nil_sublist _)

/-- After every run the squash loop ends within one turn more than there are stores in the list, and it has removed
exactly the younger stores. -/
theorem squash_terminates {clearPeriod ssitSize lfstSize : Nat} {ssit : Nat → Nat} {ops : List StoreSetOp}
    (run : storeSets.Run (initial (.init clearPeriod ssitSize lfstSize ssit)) ops trace) (squashedNum : Nat) :
    ∃ set, trace.set.squash squashedNum = .ok set ∧ (∀ turns, trace.set.storeList.length < turns →
        squashLoop squashedNum turns trace.set = .ok set) ∧
      set.storeList = trace.set.storeList.filter fun entry => entry.1 ≤ squashedNum := by
  have ordered : trace.set.Ordered trace.lastStore := by
    apply run.invariant (fun trace => trace.set.Ordered trace.lastStore) .init
    intro state op next held allowed stepped
    exact ordered_step held allowed stepped
  obtain ⟨set, ended, _, _, list, _⟩ := ordered.squash squashedNum
  refine ⟨set, ended, ?_, list⟩
  intro turns enough
  exact squashLoop_mono ended enough

def sampleSet : StoreSet := .init 1000 8 16 fun _ => 0

/-- A store that was inserted after a violation is removed by a squash. -/
theorem squash_terminates_oneStore : ∃ trace set,
    storeSets.Run (initial sampleSet) [.insertStore 12 1, .violation 12 8] trace ∧
    trace.set.storeList = [(1, 8)] ∧ trace.set.squash 0 = .ok set ∧ set.storeList = [] := by
  obtain ⟨trace, run, list⟩ : ∃ trace, storeSets.Run (initial sampleSet) [.insertStore 12 1, .violation 12 8] trace ∧
      trace.set.storeList = [(1, 8)] :=
    ⟨_, .cons (.cons .nil trivial rfl) (by decide : 0 < 1) rfl, rfl⟩
  obtain ⟨set, ended, _, removed⟩ := squash_terminates run 0
  refine ⟨trace, set, run, list, ended, ?_⟩
  rw [removed, list]
  rfl

/-- The table names only stores that were inserted and have since been neither issued nor squashed. -/
def NamesInFlight (trace : StoreTrace) : Prop := trace.set.Names fun store => store ∈ trace.inFlight

/-- An issued instruction that a table entry names is a store whose address still selects the entry. -/
def issuesNamed (trace : StoreTrace) : StoreSetOp → Prop
  | .issued issuedPC issuedSeqNum isStore => ∀ ssid, trace.set.validLFST ssid = true →
      trace.set.lfst ssid = issuedSeqNum → isStore = true ∧ trace.set.validSSIT (trace.set.calcIndex issuedPC) = true ∧
        trace.set.ssit (trace.set.calcIndex issuedPC) = ssid
  | _ => True

/-- The named stores are in flight and still in the list of their set. -/
structure Named (trace : StoreTrace) : Prop where
  ordered : trace.set.Ordered trace.lastStore
  listed : ∀ ssid, trace.set.validLFST ssid = true → (trace.set.lfst ssid, ssid) ∈ trace.set.storeList
  inFlight : trace.NamesInFlight

end StoreTrace

/-- The runs in which every issued store still selects the entry that names it. -/
def selectedStoreSets : Machine StoreTrace StoreSetOp Fault :=
  ⟨fun trace op => trace.guard op ∧ trace.issuesNamed op, StoreTrace.step⟩

namespace StoreTrace
variable {trace next : StoreTrace} {op : StoreSetOp}

theorem Named.initial {clearPeriod ssitSize lfstSize : Nat} {ssit : Nat → Nat} :
    (StoreTrace.initial (.init clearPeriod ssitSize lfstSize ssit)).Named := by
  refine ⟨.init, ?_, ?_⟩ <;> intro ssid valid <;> simp [StoreTrace.initial, StoreSet.init] at valid

/-- Every step that issues only named stores as selected keeps the names. -/
theorem Named.step (named : trace.Named) (allowed : trace.guard op) (selected : trace.issuesNamed op)
    (stepped : trace.step op = .ok next) : next.Named := by
  have ordered := ordered_step named.ordered allowed stepped
  obtain ⟨set, done, rfl⟩ := bind_ok_eq_ok.mp stepped
  suffices kept : ∀ ssid, set.validLFST ssid = true →
      (set.lfst ssid, ssid) ∈ set.storeList ∧ set.lfst ssid ∈ (trace.record set op).inFlight by
    cases op <;> exact ⟨ordered, fun ssid valid => (kept ssid valid).1, fun ssid valid => (kept ssid valid).2⟩
  intro ssid valid
  have stays : ∀ {after : StoreSet}, trace.set.SameStores after → after.validLFST ssid = true →
      (after.lfst ssid, ssid) ∈ after.storeList ∧ after.lfst ssid ∈ trace.inFlight := by
    intro after same valid
    rw [same.validLFST] at valid
    rw [same.lfst, same.storeList]
    exact ⟨named.listed ssid valid, named.inFlight ssid valid⟩
  cases op with
  | violation storePC loadPC => exact stays (violation_sameStores done) valid
  | insertLoad loadPC loadSeqNum =>
    cases done
    exact stays (checkClear_of_valid valid) valid
  | insertStore storePC storeSeqNum =>
    have early : ∀ entry ∈ trace.set.checkClear.storeList, entry.1 < storeSeqNum := fun entry member =>
      lt_of_le_of_lt (named.ordered.checkClear.entry_le member) allowed
    rcases insertStore_cases done with rfl | ⟨changed, lfst, valids, list⟩
    · exact (stays (checkClear_of_valid valid) valid).imp_right (mem_cons_of_mem _)
    rw [assign_youngest early] at list
    rw [lfst, list]
    by_cases same : ssid = changed
    · subst same
      rw [update_self]
      exact ⟨mem_cons_self, mem_cons_self⟩
    · rw [valids, update_of_ne same] at valid
      rw [update_of_ne same]
      exact (stays (checkClear_of_valid valid) valid).imp (mem_cons_of_mem _) (mem_cons_of_mem _)
  | issued issuedPC issuedSeqNum isStore =>
    obtain ⟨lfst, list, valids⟩ := issued_cases done
    rw [valids, Bool.and_eq_true] at valid
    obtain ⟨before, remains⟩ := valid
    have different : trace.set.lfst ssid ≠ issuedSeqNum := by
      intro same
      obtain ⟨store, selects, here⟩ := selected ssid before same
      simp [same, store, selects, here] at remains
    rw [lfst]
    constructor
    · rcases list with same | erased
      · rw [same]
        exact named.listed ssid before
      · rw [erased]
        exact (mem_eraseP_of_neg (by simpa using different)).mpr (named.listed ssid before)
    · exact mem_filter.mpr ⟨named.inFlight ssid before, by simpa using different⟩
  | squash squashedNum =>
    obtain ⟨_, ended, _, lfst, list, valids⟩ := named.ordered.squash squashedNum
    cases ended.symm.trans done
    obtain ⟨before, kept⟩ := (valids ssid).mp valid
    have early : trace.set.lfst ssid ≤ squashedNum := by
      by_contra late
      exact kept _ (named.listed ssid before) (not_le.mp late) rfl
    rw [lfst, list]
    exact ⟨mem_filter.mpr ⟨named.listed ssid before, by simpa using early⟩,
      mem_filter.mpr ⟨named.inFlight ssid before, by simpa using early⟩⟩
  | clear =>
    cases done
    simp [clear] at valid

/-- A step that issues a named store otherwise leaves an entry that names it. -/
theorem issuesNamed_of_namesInFlight (stepped : trace.step op = .ok next) (names : next.NamesInFlight) :
    trace.issuesNamed op := by
  cases op with
  | issued issuedPC issuedSeqNum isStore =>
    obtain ⟨set, done, rfl⟩ := bind_ok_eq_ok.mp stepped
    obtain ⟨lfst, _, valids⟩ := issued_cases done
    intro ssid valid same
    by_contra elsewhere
    have remains : set.validLFST ssid = true := by
      by_contra gone
      apply elsewhere
      simpa [valids, valid, same, and_assoc] using gone
    have flies := names ssid remains
    change set.lfst ssid ∈ trace.inFlight.filter _ at flies
    rw [lfst, same] at flies
    simp at flies
  | violation storePC loadPC | insertLoad loadPC loadSeqNum | insertStore storePC storeSeqNum | squash squashedNum
  | clear =>
    trivial

/-- While every issued store still selects the entry that names it, the table names only stores in flight, and so does
the check of an instruction. The first store that issues otherwise stays named. -/
theorem lfst_names_inFlight {clearPeriod ssitSize lfstSize : Nat} {ssit : Nat → Nat} {ops : List StoreSetOp}
    (run : selectedStoreSets.Run (initial (.init clearPeriod ssitSize lfstSize ssit)) ops trace) :
    trace.NamesInFlight ∧
    (∀ pc store, trace.set.checkInst pc = .ok store → store = 0 ∨ store ∈ trace.inFlight) ∧
    ∀ op next, trace.guard op → trace.step op = .ok next → (next.NamesInFlight ↔ trace.issuesNamed op) := by
  have named : trace.Named := by
    apply run.invariant Named .initial
    intro state op next held allowed stepped
    exact held.step allowed.1 allowed.2 stepped
  refine ⟨named.inFlight, ?_, ?_⟩
  · intro pc store found
    exact named.inFlight.checkInst found
  · intro op next allowed stepped
    constructor
    · exact issuesNamed_of_namesInFlight stepped
    · intro selected
      exact (named.step allowed selected stepped).inFlight

/-- An inserted store is named while it is in flight. -/
theorem lfst_names_inFlight_oneStore : ∃ trace,
    selectedStoreSets.Run (initial sampleSet) [.insertStore 12 1, .violation 12 8] trace ∧
    trace.set.checkInst 8 = .ok 1 ∧ 1 ∈ trace.inFlight := by
  exact ⟨_, and_of_imp (.cons (.cons .nil ⟨trivial, trivial⟩ rfl) ⟨(by decide : 0 < 1), trivial⟩ rfl) fun run =>
    ⟨rfl, ((lfst_names_inFlight run).2.1 8 1 rfl).resolve_left (by decide)⟩⟩

/-- A violation that merges the set of a store in flight makes the check return the store after it issued. -/
theorem lfst_names_issuedStore : ∃ trace,
    storeSets.Run (initial sampleSet) [.issued 12 1 true, .violation 12 0, .insertStore 12 1, .violation 4 0,
      .violation 12 8] trace ∧
    trace.set.validLFST 8 = true ∧ trace.set.lfst 8 = 1 ∧ trace.set.checkInst 8 = .ok 1 ∧ trace.inFlight = [] :=
  ⟨_, .cons (.cons (.cons (.cons (.cons .nil trivial rfl) trivial rfl) (by decide : 0 < 1) rfl) trivial rfl)
    trivial rfl, rfl, rfl, rfl, rfl⟩

end StoreTrace
end Gem5.O3
