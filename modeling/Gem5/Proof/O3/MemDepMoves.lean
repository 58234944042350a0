import Gem5.Construction.O3.MemDepUnit
import Gem5.Proof.O3.StoreSets

namespace Gem5.O3
open ToMathlib Function List

namespace MemDepUnit
variable {unit next : MemDepUnit} {inst : MemInst} {seqNum : Nat} {stores : List Nat} {readyToIssue : Bool}
  {squashedNum : Nat}

theorem moveToReady_eq (done : unit.moveToReady seqNum = .ok next) :
    next = { unit with readied := unit.readied ++ [seqNum] } := by
  exact (Except.ok.inj (assert_bind_eq_ok.mp done).2).symm

/-- The dependents of the given producers after an instruction was added to them. -/
theorem addDependents_eq (distinct : stores.Nodup) : stores.foldl (fun unit store =>
      unit.modifyEntry store fun entry => { entry with dependInsts := entry.dependInsts ++ [seqNum] }) unit =
    { unit with
      entries := fun number =>
        if number ∈ stores then
          { unit.entries number with dependInsts := (unit.entries number).dependInsts ++ [seqNum] }
        else unit.entries number } := by
  induction stores generalizing unit with
  | nil => simp
  | cons store stores ih =>
    obtain ⟨fresh, distinct⟩ := nodup_cons.mp distinct
    rw [foldl_cons, ih distinct]
    unfold modifyEntry
    congr 1
    funext number
    by_cases same : number = store
    · subst same
      simp [fresh]
    · simp [same]

/-- What an insertion does after it has found its producers. -/
theorem awaitStores_eq (distinct : stores.Nodup) (foreign : seqNum ∉ stores) (fresh : (unit.entries seqNum).memDeps = 0)
    (unready : (unit.entries seqNum).regsReady = false) (done : unit.awaitStores seqNum stores readyToIssue = .ok next) :
    next = { unit with
      entries := fun number =>
        if number = seqNum then
          { unit.entries seqNum with regsReady := readyToIssue, memDeps := stores.length }
        else if number ∈ stores then
          { unit.entries number with dependInsts := (unit.entries number).dependInsts ++ [seqNum] }
        else unit.entries number
      readied := if stores = [] ∧ readyToIssue = true then unit.readied ++ [seqNum] else unit.readied } := by
  unfold awaitStores at done
  by_cases none : stores = []
  · subst none
    rw [if_pos rfl] at done
    obtain ⟨_, done⟩ := assert_bind_eq_ok.mp done
    have same : (fun number => if number = seqNum then unit.entries seqNum else unit.entries number) =
        unit.entries := by
      funext number
      split
      · next equal => rw [equal]
      · rfl
    cases readyToIssue with
    | false =>
      cases done
      have entry : { unit.entries seqNum with regsReady := false, memDeps := 0 } = unit.entries seqNum := by
        rw [← fresh, ← unready]
      simp [entry, same]
    | true =>
      obtain rfl := moveToReady_eq done
      simp only [modifyEntry, true_and, if_true, not_mem_nil, if_false, length_nil]
      congr 1
      exact update_eq_iff.mpr ⟨by simp [← fresh], fun number other => by simp [other]⟩
  · rw [if_neg none] at done
    dsimp only at done
    rw [addDependents_eq distinct] at done
    cases done
    have waits : ¬ (stores = [] ∧ readyToIssue = true) := fun both => none both.1
    rw [if_neg waits]
    cases readyToIssue with
    | false | true =>
      simp only [modifyEntry, Bool.false_eq_true, if_false, if_true]
      congr 1
      exact update_eq_iff.mpr ⟨by simp [foreign, ← unready], fun number other => by simp [other]⟩

/-- What an insertion leaves behind, up to the predictor. -/
def afterInsert (unit : MemDepUnit) (inst : MemInst) (stores : List Nat) (readyToIssue : Bool) : MemDepUnit :=
  { (unit.addEntry inst).insertBarrierSN inst with
    entries := fun number =>
      if number = inst.seqNum then ⟨inst, [], readyToIssue, stores.length, false⟩
      else if number ∈ stores then
        { unit.entries number with dependInsts := (unit.entries number).dependInsts ++ [inst.seqNum] }
      else unit.entries number
    readied := if stores = [] ∧ readyToIssue = true then unit.readied ++ [inst.seqNum] else unit.readied }

/-- The predictor learns of a new instruction only if it is a store. -/
def Predicts (unit : MemDepUnit) (inst : MemInst) (depPred : StoreSet) : Prop :=
  depPred = unit.depPred ∨ inst.flags.writesMemory = true ∧ unit.depPred.insertStore inst.pc inst.seqNum = .ok depPred

theorem predictStore_eq (done : unit.predictStore inst = .ok next) :
    ∃ depPred, next = { unit with depPred } ∧ unit.Predicts inst depPred := by
  unfold predictStore at done
  split at done
  · next writes =>
      rw [bind_eq_ok] at done
      obtain ⟨depPred, inserted, done⟩ := done
      exact ⟨depPred, (Except.ok.inj done).symm, .inr ⟨writes, inserted⟩⟩
  · split at done
    · exact ⟨unit.depPred, (Except.ok.inj done).symm, .inl rfl⟩
    · simp at done

theorem insertBarrier_eq : unit.insertBarrier inst = unit.afterInsert inst [] false := by
  unfold insertBarrier afterInsert
  simp only [insertBarrierSN, addEntry, not_mem_nil, if_false, Bool.false_eq_true, and_false, length_nil]
  congr 1
  exact update_eq_iff.mpr ⟨by simp, fun number other => by simp [other]⟩

/-- An insertion depends on the entries of its producing stores. -/
theorem insert_eq (found : (unit.addEntry inst).producingStores inst = .ok stores)
    (distinct : ((unit.addEntry inst).storeEntries stores).Nodup)
    (foreign : inst.seqNum ∉ (unit.addEntry inst).storeEntries stores) (done : unit.insert inst readyToIssue = .ok next) :
    ∃ depPred, next = { unit.afterInsert inst ((unit.addEntry inst).storeEntries stores) readyToIssue with
      depPred } ∧ unit.Predicts inst depPred := by
  have own : (unit.addEntry inst).entries inst.seqNum = ⟨inst, [], false, 0, false⟩ := update_self _ _ _
  rw [insert, found, ok_bind, bind_eq_ok] at done
  obtain ⟨middle, awaited, done⟩ := done
  have shape := awaitStores_eq distinct foreign (by rw [own]) (by rw [own]) awaited
  obtain ⟨depPred, rfl, predicted⟩ := predictStore_eq done
  refine ⟨depPred, ?_, ?_⟩
  · rw [shape]
    unfold afterInsert
    simp only [insertBarrierSN, own]
    congr 1
    funext number
    by_cases same : number = inst.seqNum
    · simp [same]
    · have before : (unit.addEntry inst).entries number = unit.entries number := update_of_ne same _ _
      simp only [same, if_false, before]
  · rw [shape] at predicted
    exact predicted

/-- The registers of an instruction in flight become ready, and with them the instruction if it waits for nothing. -/
theorem regsReady_eq (done : unit.regsReady seqNum = .ok next) : seqNum ∈ unit.memDepHash ∧ next = { unit with
      entries := fun number =>
        { unit.entries number with regsReady := (unit.entries number).regsReady || number = seqNum }
      readied := unit.readied ++ if (unit.entries seqNum).memDeps = 0 then [seqNum] else [] } := by
  obtain ⟨inHash, done⟩ := assert_bind_eq_ok.mp done
  have shape : unit.modifyEntry seqNum (fun entry => { entry with regsReady := true }) = { unit with
      entries := fun number =>
        { unit.entries number with regsReady := (unit.entries number).regsReady || number = seqNum } } := by
    unfold modifyEntry
    congr 1
    exact update_eq_iff.mpr ⟨by simp, fun number other => by simp [other]⟩
  rw [shape] at done
  refine ⟨inHash, ?_⟩
  dsimp only at done
  split at done
  · next resolved =>
      rw [if_pos resolved]
      exact moveToReady_eq done
  · next waits =>
      rw [if_neg waits, append_nil]
      exact (Except.ok.inj done).symm

/-- A replay readies all waiting instructions again. -/
theorem replay_eq (done : unit.replay = .ok next) :
    next = { unit with readied := unit.readied ++ unit.instsToReplay, instsToReplay := [] } := by
  unfold replay at done
  generalize shape : unit.instsToReplay = waiting at done ⊢
  induction waiting generalizing unit with
  | nil =>
    cases done
    rw [append_nil, ← shape]
  | cons first waiting ih =>
    obtain ⟨middle, turn, rest⟩ := bind_eq_ok.mp done
    obtain ⟨moved, ready, rfl⟩ := bind_ok_eq_ok.mp (assert_bind_eq_ok.mp turn).2
    obtain rfl := moveToReady_eq ready
    rw [ih (by rw [shape]; rfl) rest, append_assoc, singleton_append]

/-- The entry becomes ready when its last dependency goes. -/
def wakes (entry : MemDepEntry) : Bool := entry.memDeps = 1 && entry.regsReady && !entry.squashed

theorem wake_eq (waiting : 0 < (unit.entries seqNum).memDeps) : unit.wake seqNum = .ok { unit with
      entries := update unit.entries seqNum
        { unit.entries seqNum with memDeps := (unit.entries seqNum).memDeps - 1 }
      readied := unit.readied ++ if wakes (unit.entries seqNum) then [seqNum] else [] } := by
  rw [wake, assert_of waiting, ok_bind]
  simp only [modifyEntry, update_self]
  by_cases last : (unit.entries seqNum).memDeps - 1 = 0 ∧ (unit.entries seqNum).regsReady = true ∧
      (unit.entries seqNum).squashed = false
  · have one : (unit.entries seqNum).memDeps = 1 := by omega
    rw [if_pos last]
    simp [moveToReady, wakes, one, last.2.1, last.2.2]
  · have rest : wakes (unit.entries seqNum) = false := by
      rw [Bool.eq_false_iff]
      intro holds
      simp only [wakes, Bool.and_eq_true, decide_eq_true_eq, Bool.not_eq_true'] at holds
      exact last ⟨by omega, holds.1.2, holds.2⟩
    rw [if_neg last, rest]
    simp

/-- Every dependent loses one dependency, and those that had their last one become ready. -/
theorem wakeAll_eq {woken : List Nat} (distinct : woken.Nodup)
    (waiting : ∀ number ∈ woken, 0 < (unit.entries number).memDeps) :
    woken.foldlM wake unit = .ok { unit with
      entries := fun number =>
        if number ∈ woken then { unit.entries number with memDeps := (unit.entries number).memDeps - 1 }
        else unit.entries number
      readied := unit.readied ++ woken.filter fun number => wakes (unit.entries number) } := by
  induction woken generalizing unit with
  | nil => simp [pure, Except.pure]
  | cons first woken ih =>
    obtain ⟨fresh, distinct⟩ := nodup_cons.mp distinct
    have apart : ∀ number ∈ woken, number ≠ first := fun number member same => fresh (same ▸ member)
    rw [foldlM_cons, wake_eq (waiting first (by simp)), ok_bind, ih distinct]
    · congr 2
      · funext number
        by_cases same : number = first
        · subst same
          simp [fresh]
        · simp [same]
      · rw [append_assoc, filter_cons]
        congr 1
        have unchanged : woken.filter (fun number => wakes (update unit.entries first
            { unit.entries first with memDeps := (unit.entries first).memDeps - 1 } number)) =
            woken.filter fun number => wakes (unit.entries number) := by
          apply filter_congr
          intro number member
          rw [update_of_ne (apart number member)]
        rw [unchanged]
        split <;> rfl
    · intro number member
      dsimp only
      rw [update_of_ne (apart number member)]
      exact waiting number (by simp [member])

/-- What a completed instruction leaves behind. -/
def afterComplete (unit : MemDepUnit) (seqNum : Nat) : MemDepUnit :=
  let entry := unit.entries seqNum
  { unit with
    entries := fun number =>
      if number = seqNum then { entry with dependInsts := [] }
      else if number ∈ entry.dependInsts then
        { unit.entries number with memDeps := (unit.entries number).memDeps - 1 }
      else unit.entries number
    readied := unit.readied ++ entry.dependInsts.filter fun number => wakes (unit.entries number)
    memDepHash := unit.memDepHash.erase seqNum
    instList := unit.instList.erase seqNum
    storeBarrierSNs :=
      if entry.inst.flags.isStoreBarrier then unit.storeBarrierSNs.erase seqNum else unit.storeBarrierSNs
    loadBarrierSNs := if entry.inst.flags.isLoadBarrier then unit.loadBarrierSNs.erase seqNum else unit.loadBarrierSNs }

/-- An instruction in flight completes if its dependents still wait for it. -/
theorem completeInst_eq (inFlight : seqNum ∈ unit.memDepHash)
    (leaf : (unit.entries seqNum).inst.flags.hasDependents = false → (unit.entries seqNum).dependInsts = [])
    (distinct : (unit.entries seqNum).dependInsts.Nodup) (foreign : seqNum ∉ (unit.entries seqNum).dependInsts)
    (waiting : ∀ number ∈ (unit.entries seqNum).dependInsts, 0 < (unit.entries number).memDeps)
    (storeBarrier : (unit.entries seqNum).inst.flags.isStoreBarrier = true → unit.storeBarrierSNs ≠ [])
    (loadBarrier : (unit.entries seqNum).inst.flags.isLoadBarrier = true → unit.loadBarrierSNs ≠ []) :
    unit.completeInst seqNum = .ok (unit.afterComplete seqNum) := by
  have woken : unit.wakeDependents seqNum = .ok { unit with
      entries := (unit.afterComplete seqNum).entries
      readied := (unit.afterComplete seqNum).readied } := by
    unfold wakeDependents afterComplete
    by_cases dependents : (unit.entries seqNum).inst.flags.hasDependents = false
    · rw [if_pos dependents]
      have same : (fun number => if number = seqNum then { unit.entries seqNum with dependInsts := [] }
          else unit.entries number) = unit.entries := by
        funext number
        split
        · next equal => rw [equal, ← leaf dependents]
        · rfl
      simp [leaf dependents, same]
    · rw [if_neg dependents, findInHash, assert_of inFlight, ok_bind, wakeAll_eq distinct waiting, ok_bind]
      simp only [modifyEntry]
      congr 2
      exact update_eq_iff.mpr ⟨by simp [foreign], fun number other => by simp [other]⟩
  rw [completeInst, woken, ok_bind, completed, findInHash, assert_of inFlight, ok_bind, ok_bind,
    assert_of storeBarrier, ok_bind]
  dsimp only
  rw [assert_of, ok_bind]
  · cases stores : (unit.entries seqNum).inst.flags.isStoreBarrier <;>
      cases loads : (unit.entries seqNum).inst.flags.isLoadBarrier <;> simp [afterComplete, stores, loads]
  · intro barrier
    split <;> exact loadBarrier barrier

/-- What a squash leaves behind, up to the predictor. -/
def afterSquash (unit : MemDepUnit) (squashedNum : Nat) (insts : List Nat) : MemDepUnit :=
  { unit with
    entries := fun number =>
      if number ∈ insts ∧ squashedNum < number then { unit.entries number with squashed := true }
      else unit.entries number
    instList := unit.instList.filter fun number => number ≤ squashedNum
    memDepHash := unit.instList.filter fun number => number ≤ squashedNum
    loadBarrierSNs := unit.loadBarrierSNs.filter fun number => ¬ (number ∈ insts ∧ squashedNum < number)
    storeBarrierSNs := unit.storeBarrierSNs.filter fun number => ¬ (number ∈ insts ∧ squashedNum < number) }

/-- A squash after the last instruction changes nothing. -/
theorem afterSquash_of_le {insts : List Nat} (list : unit.instList = insts.reverse)
    (hash : unit.memDepHash = unit.instList) (early : ∀ number ∈ insts, number ≤ squashedNum) :
    unit.afterSquash squashedNum insts = unit := by
  have kept : ∀ number, ¬ (number ∈ insts ∧ squashedNum < number) := by
    intro number both
    have bound := early number both.1
    omega
  have all : unit.instList.filter (fun number => number ≤ squashedNum) = unit.instList := by
    rw [filter_eq_self, list]
    intro number member
    simpa using early number (mem_reverse.mp member)
  have same : ∀ items : List Nat, items.filter (fun number => ¬ (number ∈ insts ∧ squashedNum < number)) = items := by
    intro items
    rw [filter_eq_self]
    intro number _
    exact decide_eq_true (kept number)
  rw [afterSquash, all, same, same]
  simp only [kept, if_false]
  obtain ⟨entries, memDepHash, instList, _, _, _, _, _⟩ := unit
  obtain rfl : memDepHash = instList := hash
  rfl

theorem erase_filter {items older : List Nat} {last : Nat} (distinct : items.Nodup) (late : squashedNum < last) :
    (items.erase last).filter (fun number => ¬ (number ∈ older ∧ squashedNum < number)) =
      items.filter fun number => ¬ (number ∈ last :: older ∧ squashedNum < number) := by
  rw [distinct.erase_eq_filter, filter_filter]
  apply filter_congr
  intro number _
  by_cases same : number = last
  · subst same
    simp [late]
  · simp [same]

/-- The squash loop removes the squashed suffix of the list. -/
theorem squashLoop_eq {reversed : List Nat} (list : unit.instList = reversed.reverse)
    (hash : unit.memDepHash = unit.instList) (sorted : reversed.Pairwise (· > ·)) (loads : unit.loadBarrierSNs.Nodup)
    (stores : unit.storeBarrierSNs.Nodup) :
    squashLoop squashedNum reversed unit = .ok (unit.afterSquash squashedNum reversed) := by
  induction reversed generalizing unit with
  | nil =>
    rw [squashLoop, afterSquash_of_le list hash (by simp)]
  | cons last older ih =>
    obtain ⟨below, rest⟩ := pairwise_cons.mp sorted
    have shape : unit.instList = older.reverse ++ [last] := by rw [list, reverse_cons]
    have fresh : last ∉ older.reverse := by
      intro member
      exact absurd (below last (mem_reverse.mp member)) (lt_irrefl last)
    by_cases late : squashedNum < last
    · have removed : unit.memDepHash.erase last = older.reverse := by
        rw [hash, shape, erase_append_right _ fresh]
        simp
      rw [squashLoop, if_pos late, findInHash, assert_of (by rw [hash, shape]; simp), ok_bind,
        ih rfl removed rest (loads.erase last) (stores.erase last)]
      simp only [afterSquash, modifyEntry, erase_filter loads late, erase_filter stores late]
      congr 2
      · funext number
        by_cases same : number = last
        · subst same
          have notOlder : number ∉ older := fun member => fresh (mem_reverse.mpr member)
          simp [notOlder, late]
        · simp [same]
      all_goals rw [shape, filter_append, filter_cons_of_neg (by simpa using late), filter_nil, append_nil]
    · have early := not_lt.mp late
      rw [squashLoop, if_neg late, afterSquash_of_le list hash]
      exact forall_mem_cons.mpr ⟨early, fun number later => (below number later).le.trans early⟩

end MemDepUnit

namespace MemDepUnit
variable {unit next : MemDepUnit} {inst : MemInst} {seqNum : Nat}

/-- After an operation the entries have the given register bits, and only instructions with ready registers, replayed
instructions and the given ones were readied. -/
structure Moves (unit : MemDepUnit) (bits : Nat → Bool) (extra : List Nat) (next : MemDepUnit) : Prop where
  regsReady : ∀ number, (next.entries number).regsReady = bits number
  instsToReplay : ∀ number ∈ next.instsToReplay, number ∈ unit.instsToReplay ∨ number ∈ extra
  readied : ∀ number ∈ next.readied, number ∈ unit.readied ∨ bits number = true ∨
    number ∈ unit.instsToReplay ∨ number ∈ extra

/-- The register bits of all entries. -/
def bits (unit : MemDepUnit) (number : Nat) : Bool := (unit.entries number).regsReady

/-- A changed entry decides its own register bit. -/
theorem bits_modifyEntry {change : MemDepEntry → MemDepEntry} {value : Bool}
    (sets : (change (unit.entries seqNum)).regsReady = value) :
    (unit.modifyEntry seqNum change).bits = update unit.bits seqNum value := by
  rw [← sets]
  exact comp_update MemDepEntry.regsReady unit.entries seqNum _

theorem bits_addEntry : (unit.addEntry inst).bits = update unit.bits inst.seqNum false :=
  comp_update MemDepEntry.regsReady unit.entries inst.seqNum _

namespace Moves

theorem same (entries : ∀ number, (next.entries number).regsReady = unit.bits number)
    (instsToReplay : ∀ number ∈ next.instsToReplay, number ∈ unit.instsToReplay)
    (readied : ∀ number ∈ next.readied, number ∈ unit.readied) : unit.Moves unit.bits [] next :=
  ⟨entries, fun number member => .inl (instsToReplay number member), fun number member => .inl (readied number member)⟩

/-- Other parts of the unit may change. -/
theorem refl (entries : next.entries = unit.entries) (instsToReplay : next.instsToReplay = unit.instsToReplay)
    (readied : next.readied = unit.readied) : unit.Moves unit.bits [] next :=
  .same (fun _ => by rw [entries, bits]) (fun _ => instsToReplay ▸ id) fun _ => readied ▸ id

/-- Two operations without further instructions follow each other. -/
theorem trans {middle : MemDepUnit} {bits : Nat → Bool} (first : unit.Moves bits [] middle)
    (second : middle.Moves middle.bits [] next) : unit.Moves bits [] next := by
  have before : ∀ number, middle.bits number = bits number := first.regsReady
  constructor
  · intro number
    rw [second.regsReady, before]
  · intro number member
    exact (second.instsToReplay number member).elim (first.instsToReplay number) .inr
  · intro number member
    rcases second.readied number member with readied | ready | replayed | none
    · exact first.readied number readied
    · rw [before] at ready
      exact .inr (.inl ready)
    · rcases first.instsToReplay number replayed with replayed | none
      · exact .inr (.inr (.inl replayed))
      · simp at none
    · simp at none

theorem moveToReady (ready : unit.bits seqNum = true) (done : unit.moveToReady seqNum = .ok next) :
    unit.Moves unit.bits [] next := by
  obtain rfl := moveToReady_eq done
  refine ⟨fun _ => rfl, fun number member => .inl member, ?_⟩
  intro number member
  rcases mem_append.mp member with before | same
  · exact .inl before
  · rw [mem_singleton.mp same]
    exact .inr (.inl ready)

/-- A changed entry keeps its register bit. -/
theorem modifyEntry {change : MemDepEntry → MemDepEntry}
    (keeps : ∀ entry, (change entry).regsReady = entry.regsReady) :
    unit.Moves unit.bits [] (unit.modifyEntry seqNum change) := by
  have kept := (bits_modifyEntry (keeps (unit.entries seqNum))).trans (update_eq_self seqNum unit.bits)
  exact .same (congrFun kept) (fun _ member => member) fun _ member => member

theorem addDependents {stores : List Nat} : unit.Moves unit.bits [] (stores.foldl (fun unit store =>
      unit.modifyEntry store fun entry => { entry with dependInsts := entry.dependInsts ++ [seqNum] }) unit) := by
  apply foldlRecOn (motive := unit.Moves unit.bits []) stores _ (.refl rfl rfl rfl)
  exact fun _ moved store _ => moved.trans (modifyEntry fun _ => rfl)

end Moves

/-- The bit of an entry with ready registers is set. -/
theorem Moves.setReady : unit.Moves (update unit.bits seqNum true) []
    (unit.modifyEntry seqNum fun entry => { entry with regsReady := true }) :=
  ⟨congrFun (bits_modifyEntry rfl), fun _ member => .inl member, fun _ member => .inl member⟩

theorem predictStore_moves (done : unit.predictStore inst = .ok next) : unit.Moves unit.bits [] next := by
  obtain ⟨depPred, rfl, _⟩ := predictStore_eq done
  exact .refl rfl rfl rfl

theorem awaitStores_moves {stores : List Nat} {readyToIssue : Bool} (fresh : unit.bits seqNum = false)
    (done : unit.awaitStores seqNum stores readyToIssue = .ok next) :
    unit.Moves (update unit.bits seqNum readyToIssue) [] next := by
  have own : update unit.bits seqNum false = unit.bits := by
    rw [← fresh, update_eq_self]
  unfold awaitStores at done
  split at done
  · obtain ⟨_, done⟩ := assert_bind_eq_ok.mp done
    cases readyToIssue with
    | false =>
      rw [own]
      cases done
      exact .refl rfl rfl rfl
    | true => exact Moves.setReady.trans (.moveToReady (by rw [bits_modifyEntry rfl, update_self]) done)
  · cases done
    cases readyToIssue with
    | false =>
      rw [own]
      exact Moves.addDependents.trans (Moves.modifyEntry fun _ => rfl)
    | true => exact Moves.setReady.trans (Moves.addDependents.trans (Moves.modifyEntry fun _ => rfl))

/-- An insertion readies at most the inserted instruction. -/
theorem insert_moves {readyToIssue : Bool} (done : unit.insert inst readyToIssue = .ok next) :
    unit.Moves (update unit.bits inst.seqNum readyToIssue) [] next := by
  obtain ⟨stores, _, done⟩ := bind_eq_ok.mp done
  obtain ⟨middle, awaited, done⟩ := bind_eq_ok.mp done
  have first := awaitStores_moves (by rw [bits_addEntry, update_self]) awaited
  rw [bits_addEntry, update_idem] at first
  have between : middle.Moves middle.bits [] (middle.insertBarrierSN inst) := .refl rfl rfl rfl
  exact { first.trans (between.trans (predictStore_moves done)) with }

theorem insertBarrier_moves : unit.Moves (update unit.bits inst.seqNum false) [] (unit.insertBarrier inst) := by
  rw [← bits_addEntry]
  exact ⟨fun _ => rfl, fun _ member => .inl member, fun _ member => .inl member⟩

theorem insertNonSpec_moves (done : unit.insertNonSpec inst = .ok next) :
    unit.Moves (update unit.bits inst.seqNum false) [] next :=
  insertBarrier_moves.trans (predictStore_moves done)

theorem regsReady_moves (done : unit.regsReady seqNum = .ok next) :
    unit.Moves (update unit.bits seqNum true) [] next := by
  obtain ⟨_, done⟩ := assert_bind_eq_ok.mp done
  dsimp only at done
  split at done
  · exact Moves.setReady.trans (.moveToReady (by rw [bits_modifyEntry rfl, update_self]) done)
  · cases done
    exact .setReady

theorem nonSpecInstReady_moves (done : unit.nonSpecInstReady seqNum = .ok next) :
    unit.Moves unit.bits [seqNum] next := by
  obtain rfl := moveToReady_eq (assert_bind_eq_ok.mp done).2
  refine ⟨fun _ => rfl, fun _ member => .inl member, ?_⟩
  intro number member
  exact (mem_append.mp member).imp id fun same => .inr (.inr same)

theorem reschedule_moves : unit.Moves unit.bits [seqNum] (unit.reschedule seqNum) :=
  ⟨fun _ => rfl, fun _ member => mem_append.mp member, fun _ member => .inl member⟩

theorem replay_moves (done : unit.replay = .ok next) : unit.Moves unit.bits [] next := by
  obtain rfl := replay_eq done
  refine ⟨fun _ => rfl, by simp, ?_⟩
  intro number member
  exact (mem_append.mp member).imp id fun replayed => .inr (.inl replayed)

theorem wake_moves (done : unit.wake seqNum = .ok next) : unit.Moves unit.bits [] next := by
  obtain ⟨_, done⟩ := assert_bind_eq_ok.mp done
  dsimp only at done
  have counted : unit.Moves unit.bits []
      (unit.modifyEntry seqNum fun entry => { entry with memDeps := entry.memDeps - 1 }) := .modifyEntry fun _ => rfl
  split at done
  · next resolved => exact counted.trans (.moveToReady resolved.2.1 done)
  · cases done
    exact counted

theorem wakeAll_moves {woken : List Nat} (done : woken.foldlM wake unit = .ok next) : unit.Moves unit.bits [] next := by
  apply foldlM_invariant (unit.Moves unit.bits []) (.refl rfl rfl rfl) _ done
  intro middle number after moved turn
  exact moved.trans (wake_moves turn)

theorem wakeDependents_moves (done : unit.wakeDependents seqNum = .ok next) : unit.Moves unit.bits [] next := by
  unfold wakeDependents at done
  split at done
  · cases done
    exact .refl rfl rfl rfl
  · rw [findInHash, assert_bind_eq_ok, bind_ok_eq_ok] at done
    obtain ⟨_, middle, woken, rfl⟩ := done
    exact (wakeAll_moves woken).trans (.modifyEntry fun _ => rfl)

theorem completeInst_moves (done : unit.completeInst seqNum = .ok next) : unit.Moves unit.bits [] next := by
  simp only [completeInst, completed, findInHash, bind_eq_ok, assert_eq_ok, exists_const] at done
  obtain ⟨middle, woken, _, ⟨_, same⟩, _, _, done⟩ := done
  cases same
  cases done
  refine (wakeDependents_moves woken).trans ?_
  split <;> split <;> exact .refl rfl rfl rfl

theorem squashLoop_moves {squashedNum : Nat} {insts : List Nat} (done : squashLoop squashedNum insts unit = .ok next) :
    unit.Moves unit.bits [] next := by
  induction insts generalizing unit with
  | nil =>
    cases done
    exact .refl rfl rfl rfl
  | cons last older ih =>
    unfold squashLoop at done
    split at done
    · have marked : unit.Moves unit.bits [] (unit.modifyEntry last fun entry => { entry with squashed := true }) :=
        .modifyEntry fun _ => rfl
      refine Moves.trans ?_ (ih (assert_bind_eq_ok.mp done).2)
      exact { marked with }
    · cases done
      exact .refl rfl rfl rfl

theorem squash_moves {squashedNum : Nat} (done : unit.squash squashedNum = .ok next) :
    unit.Moves unit.bits [] next := by
  obtain ⟨middle, looped, done⟩ := bind_eq_ok.mp done
  obtain ⟨depPred, _, rfl⟩ := bind_ok_eq_ok.mp done
  have filtered : unit.Moves unit.bits [] { unit with
      instsToReplay := unit.instsToReplay.filter fun seqNum => seqNum ≤ squashedNum } :=
    .same (fun _ => rfl) (fun _ member => (mem_filter.mp member).1) fun _ member => member
  have moves := filtered.trans (squashLoop_moves looped)
  exact { moves with }

theorem violation_moves {storePC loadPC : Nat} (done : unit.violation storePC loadPC = .ok next) :
    unit.Moves unit.bits [] next := by
  obtain ⟨depPred, _, rfl⟩ := bind_ok_eq_ok.mp done
  exact .refl rfl rfl rfl

theorem issue_moves (done : unit.issue inst = .ok next) : unit.Moves unit.bits [] next := by
  obtain ⟨depPred, _, rfl⟩ := bind_ok_eq_ok.mp done
  exact .refl rfl rfl rfl

/-- Every instruction that the unit has readied or can ready satisfies the predicate. -/
structure Readies (unit : MemDepUnit) (Allowed : Nat → Prop) : Prop where
  regsReady : ∀ number, unit.bits number = true → Allowed number
  instsToReplay : ∀ number ∈ unit.instsToReplay, Allowed number
  readied : ∀ number ∈ unit.readied, Allowed number

theorem Readies.moves {Allowed : Nat → Prop} {bits : Nat → Bool} {extra : List Nat} (held : unit.Readies Allowed)
    (moves : unit.Moves bits extra next) (ready : ∀ number, bits number = true → Allowed number)
    (given : ∀ number ∈ extra, Allowed number) : next.Readies Allowed := by
  constructor
  · intro number bit
    exact ready number ((moves.regsReady number).symm.trans bit)
  · intro number member
    exact (moves.instsToReplay number member).elim (held.instsToReplay number) (given number)
  · intro number member
    rcases moves.readied number member with readied | bit | replayed | extra
    · exact held.readied number readied
    · exact ready number bit
    · exact held.instsToReplay number replayed
    · exact given number extra

/-- The entry of one instruction gets a register bit. -/
theorem Readies.update {Allowed : Nat → Prop} {bit : Bool} (held : unit.Readies Allowed)
    (moves : unit.Moves (update unit.bits seqNum bit) [] next) (own : bit = true → Allowed seqNum) :
    next.Readies Allowed := by
  refine held.moves moves ?_ (by simp)
  exact (forall_update_iff unit.bits fun number bit => bit = true → Allowed number).mpr
    ⟨own, fun number _ => held.regsReady number⟩

end MemDepUnit
end Gem5.O3
