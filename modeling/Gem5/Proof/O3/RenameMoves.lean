import Gem5.Construction.O3.Rename

namespace Gem5.O3
open ToMathlib RenameHistory Function List

/-- A rename map of one thread holds a list of registers for each class. -/
abbrev RegMap := RegClassType → List PhysRegId

/-- The map before an entry was recorded. -/
def RenameHistory.undoMap (entry : RenameHistory) (map : RegMap) : RegMap :=
  if entry.newPhysReg ≠ entry.prevPhysReg then
    update map entry.archReg.regClass
      ((map entry.archReg.regClass).set entry.archReg.index entry.prevPhysReg)
  else map

/-- The undo restores the map that a rename changed. -/
theorem RenameHistory.undoMap_set {seqNum : Nat} {archReg : RegId} {newReg prevReg : PhysRegId}
    {map : RegMap} (found : (map archReg.regClass)[archReg.index]? = some prevReg) :
    undoMap ⟨seqNum, archReg, newReg, prevReg⟩
      (update map archReg.regClass ((map archReg.regClass).set archReg.index newReg)) = map := by
  obtain ⟨inside, here⟩ := List.getElem?_eq_some_iff.mp found
  unfold undoMap
  split
  · rw [update_self, set_set, update_idem, ← here, set_getElem_self, update_eq_self]
  · next equal =>
      obtain rfl : newReg = prevReg := not_not.mp equal
      rw [← here, set_getElem_self, update_eq_self]

/-- Each entry that changed the map still finds its register there when it is undone. -/
def Undoable : List RenameHistory → RegMap → Prop
  | [], _ => True
  | entry :: older, map =>
    (entry.newPhysReg ≠ entry.prevPhysReg →
      entry.archReg.regClass.isRenameable ∧ entry.prevPhysReg.regClass = entry.archReg.regClass ∧
        (map entry.archReg.regClass)[entry.archReg.index]? = some entry.newPhysReg) ∧
    Undoable older (entry.undoMap map)

theorem Undoable.append {newer older : List RenameHistory} {map : RegMap}
    (undoable : Undoable (newer ++ older) map) : Undoable newer map := by
  induction newer generalizing map with
  | nil => trivial
  | cons entry newer ih => exact ⟨undoable.1, ih undoable.2⟩

namespace Rename
variable {numThreads : Nat} {rename next : Rename numThreads} {tid : Fin numThreads} {archReg : RegId}
  {newReg prevReg : PhysRegId}

@[simp] theorem setMap_self {regClass : RegClassType} {index : Nat} {reg : PhysRegId} :
    (rename.setMap tid regClass index reg).renameMap tid =
      update (rename.renameMap tid) regClass ((rename.renameMap tid regClass).set index reg) :=
  update_self _ _ _

theorem setMap_of_ne {regClass : RegClassType} {index : Nat} {reg : PhysRegId} {other : Fin numThreads}
    (different : other ≠ tid) :
    (rename.setMap tid regClass index reg).renameMap other = rename.renameMap other :=
  update_of_ne different _ _

/-- A renamed register keeps its place, or a free register takes the place of the previous one. -/
inductive Renamed (rename next : Rename numThreads) (tid : Fin numThreads) (archReg : RegId) :
    PhysRegId → PhysRegId → Prop
  | kept {reg : PhysRegId} (map : next.renameMap = rename.renameMap) (free : next.freeList = rename.freeList)
      (history : next.historyBuffer = rename.historyBuffer)
      (freeing : next.freeingInProgress = rename.freeingInProgress) : Renamed rename next tid archReg reg reg
  | taken {newReg prevReg : PhysRegId} {rest : List PhysRegId} (renameable : archReg.regClass.isRenameable)
      (found : (rename.renameMap tid archReg.regClass)[archReg.index]? = some prevReg)
      (available : rename.freeList archReg.regClass = newReg :: rest)
      (map : next.renameMap = (rename.setMap tid archReg.regClass archReg.index newReg).renameMap)
      (free : next.freeList = update rename.freeList archReg.regClass rest)
      (history : next.historyBuffer = rename.historyBuffer)
      (freeing : next.freeingInProgress = rename.freeingInProgress) :
      Renamed rename next tid archReg newReg prevReg

theorem simpleRename_moves (renameable : archReg.regClass.isRenameable)
    (done : rename.simpleRename tid archReg = .ok ((newReg, prevReg), next)) :
    Renamed rename next tid archReg newReg prevReg := by
  unfold simpleRename at done
  split at done
  · simp at done
  next prev found =>
    rw [if_neg renameable.2] at done
    split at done
    · cases (assert_bind_eq_ok.mp done).2
      exact .kept rfl rfl rfl rfl
    obtain ⟨⟨reg, middle⟩, taken, done⟩ := bind_eq_ok.mp done
    cases done
    unfold getReg at taken
    split at taken
    · simp at taken
    · next first rest available =>
        cases taken
        exact .taken renameable found available rfl rfl rfl rfl

theorem renameReg_moves (done : rename.renameReg tid archReg = .ok ((newReg, prevReg), next)) :
    Renamed rename next tid archReg newReg prevReg := by
  unfold renameReg at done
  split at done
  · next renameable => exact simpleRename_moves renameable done
  · obtain ⟨reg, _, done⟩ := bind_eq_ok.mp done
    cases done
    exact .kept rfl rfl rfl rfl

section
variable (moves : Renamed rename next tid archReg newReg prevReg)
include moves

/-- The undo of a recorded rename restores the map before it. -/
theorem Renamed.undoMap {seqNum : Nat} :
    undoMap ⟨seqNum, archReg, newReg, prevReg⟩ (next.renameMap tid) = rename.renameMap tid := by
  cases moves with
  | kept map free history freeing => rw [undoMap, if_neg (by simp), map]
  | taken renameable found available map free history freeing =>
    rw [map, setMap_self, undoMap_set found]

theorem Renamed.history : next.historyBuffer = rename.historyBuffer := by
  cases moves with
  | kept map free history freeing | taken renameable found available map free history freeing => exact history

theorem Renamed.map_of_ne {other : Fin numThreads} (different : other ≠ tid) :
    next.renameMap other = rename.renameMap other := by
  cases moves with
  | kept map free history freeing => rw [map]
  | taken renameable found available map free history freeing => rw [map, setMap_of_ne different]

end

/-- A mapped class fails to rename only for a reason other than an empty free list. -/
theorem renameReg_available (available : archReg.regClass.isRenameable → rename.freeList archReg.regClass ≠ []) :
    rename.renameReg tid archReg ≠ .error (.assertion "!freeRegs.empty()") := by
  unfold renameReg
  split
  · next renameable =>
      obtain ⟨reg, rest, shape⟩ := exists_cons_of_ne_nil (available renameable)
      unfold simpleRename
      split
      · simp
      · rw [if_neg renameable.2]
        split
        · by_cases once : archReg.numPinnedWrites = 0 <;> simp [Gem5.assert, once]
        · simp [getReg, shape]
  · next fixed =>
      unfold lookup
      split
      · simp
      · split
        · simp
        · next notInvalid notMisc => exact absurd ⟨notMisc, notInvalid⟩ fixed

/-- An undone entry gives its register to the delayed frees and the previous one to the map. -/
def undone (rename : Rename numThreads) (tid : Fin numThreads) (entry : RenameHistory) : Rename numThreads :=
  if entry.newPhysReg ≠ entry.prevPhysReg then
    (rename.setMap tid entry.archReg.regClass entry.archReg.index entry.prevPhysReg).setFreeing tid
      (rename.freeingInProgress tid ++ [entry.newPhysReg])
  else rename

/-- An undoable entry is undone without a failed assertion. -/
theorem undo_eq {entry : RenameHistory} (fits : entry.newPhysReg ≠ entry.prevPhysReg →
      entry.archReg.regClass.isRenameable ∧ entry.prevPhysReg.regClass = entry.archReg.regClass ∧
        (rename.renameMap tid entry.archReg.regClass)[entry.archReg.index]? = some entry.newPhysReg) :
    rename.undo tid entry = .ok (rename.undone tid entry) := by
  unfold undo undone
  by_cases changed : entry.newPhysReg ≠ entry.prevPhysReg
  · obtain ⟨renameable, sameClass, found⟩ := fits changed
    have inside : entry.archReg.index < (rename.renameMap tid entry.archReg.regClass).length :=
      (List.getElem?_eq_some_iff.mp found).1
    simp [changed, setEntry, sameClass, renameable, inside.le, inside]
    rfl
  · simp [changed]

section Fields
variable {history : List RenameHistory} {entry : RenameHistory} {other : Fin numThreads}

@[simp] theorem setHistory_renameMap : (rename.setHistory tid history).renameMap = rename.renameMap := rfl

@[simp] theorem setHistory_freeList : (rename.setHistory tid history).freeList = rename.freeList := rfl

@[simp] theorem setHistory_self : (rename.setHistory tid history).historyBuffer tid = history := update_self _ _ _

theorem setHistory_of_ne (different : other ≠ tid) :
    (rename.setHistory tid history).historyBuffer other = rename.historyBuffer other :=
  update_of_ne different _ _

@[simp] theorem undone_map : (rename.undone tid entry).renameMap tid = entry.undoMap (rename.renameMap tid) := by
  unfold undone undoMap
  split
  · exact setMap_self
  · rfl

theorem undone_map_of_ne (different : other ≠ tid) :
    (rename.undone tid entry).renameMap other = rename.renameMap other := by
  unfold undone
  split
  · exact setMap_of_ne different
  · rfl

@[simp] theorem undone_freeList : (rename.undone tid entry).freeList = rename.freeList := by
  unfold undone
  split <;> rfl

@[simp] theorem undone_history : (rename.undone tid entry).historyBuffer = rename.historyBuffer := by
  unfold undone
  split <;> rfl

@[simp] theorem retire_renameMap : (rename.retire entry).renameMap = rename.renameMap := by
  unfold retire
  split <;> rfl

@[simp] theorem retire_history : (rename.retire entry).historyBuffer = rename.historyBuffer := by
  unfold retire
  split <;> rfl

end Fields

/-- Maps and free lists hold registers of their class, and every entry can be undone. -/
structure Tidy (rename : Rename numThreads) : Prop where
  mapClass : ∀ tid regClass, regClass.isRenameable → ∀ reg ∈ rename.renameMap tid regClass, reg.regClass = regClass
  freeClass : ∀ regClass, regClass.isRenameable → ∀ reg ∈ rename.freeList regClass, reg.regClass = regClass
  undoable : ∀ tid, Undoable (rename.historyBuffer tid) (rename.renameMap tid)

namespace Tidy

section
variable (tidy : rename.Tidy)
include tidy

theorem mapClass_setMap {regClass : RegClassType} {index : Nat} {new : PhysRegId} (newClass : new.regClass = regClass)
    (other : Fin numThreads) (place : RegClassType) (suited : place.isRenameable) :
    ∀ reg ∈ (rename.setMap tid regClass index new).renameMap other place, reg.regClass = place := by
  intro reg member
  have before := tidy.mapClass other place suited reg
  by_cases equal : other = tid
  · subst equal
    rw [setMap_self] at member
    by_cases same : place = regClass
    · subst same
      rw [update_self] at member
      rcases mem_or_eq_of_mem_set member with kept | rfl
      · exact before kept
      · exact newClass
    · rw [update_of_ne same] at member
      exact before member
  · rw [setMap_of_ne equal] at member
    exact before member

/-- A thread that records a history leaves the histories of the others. -/
theorem undoable_record {history : List RenameHistory} (same : next.historyBuffer = rename.historyBuffer)
    (others : ∀ other, other ≠ tid → next.renameMap other = rename.renameMap other)
    (own : Undoable history (next.renameMap tid)) (other : Fin numThreads) :
    Undoable ((next.setHistory tid history).historyBuffer other) ((next.setHistory tid history).renameMap other) := by
  by_cases equal : other = tid
  · subst equal
    rw [setHistory_self, setHistory_renameMap]
    exact own
  · rw [setHistory_of_ne equal, setHistory_renameMap, others other equal, same]
    exact tidy.undoable other

theorem renamed {seqNum : Nat} (moves : Renamed rename next tid archReg newReg prevReg) :
    (next.setHistory tid (⟨seqNum, archReg, newReg, prevReg⟩ :: next.historyBuffer tid)).Tidy := by
  cases moves with
  | kept map free history freeing =>
    constructor
    · rw [setHistory_renameMap, map]
      exact tidy.mapClass
    · rw [setHistory_freeList, free]
      exact tidy.freeClass
    · apply tidy.undoable_record history
      · intro other _
        rw [map]
      · refine ⟨fun changed => absurd rfl changed, ?_⟩
        rw [Renamed.undoMap (.kept map free history freeing), history]
        exact tidy.undoable tid
  | taken renameable found available map free history freeing =>
    have newClass := tidy.freeClass archReg.regClass renameable newReg (by simp [available])
    have prevClass := tidy.mapClass tid archReg.regClass renameable prevReg (mem_of_getElem? found)
    constructor
    · rw [setHistory_renameMap, map]
      exact tidy.mapClass_setMap newClass
    · intro regClass suited reg member
      apply tidy.freeClass regClass suited reg
      rw [setHistory_freeList, free] at member
      by_cases same : regClass = archReg.regClass
      · subst same
        rw [update_self] at member
        simp [available, member]
      · rwa [update_of_ne same] at member
    · apply tidy.undoable_record history
      · intro other different
        rw [map, setMap_of_ne different]
      · have inside := (List.getElem?_eq_some_iff.mp found).1
        rw [map, setMap_self]
        constructor
        · intro _
          refine ⟨renameable, prevClass, ?_⟩
          rw [update_self, List.getElem?_set_self inside]
        · rw [undoMap_set found, history]
          exact tidy.undoable tid

theorem undo {entry : RenameHistory} {older : List RenameHistory} (shape : rename.historyBuffer tid = entry :: older) :
    rename.undo tid entry = .ok (rename.undone tid entry) ∧ ((rename.undone tid entry).setHistory tid older).Tidy := by
  have undoable := tidy.undoable tid
  rw [shape] at undoable
  obtain ⟨fits, rest⟩ := undoable
  refine ⟨undo_eq fits, ?_, ?_, ?_⟩
  · rw [setHistory_renameMap]
    unfold undone
    split
    · next changed => exact tidy.mapClass_setMap (fits changed).2.1
    · exact tidy.mapClass
  · rw [setHistory_freeList, undone_freeList]
    exact tidy.freeClass
  · apply tidy.undoable_record undone_history
    · intro other different
      exact undone_map_of_ne different
    · rw [undone_map]
      exact rest

theorem addReg (freed : PhysRegId) : (rename.addReg freed).Tidy := by
  refine { tidy with freeClass := ?_ }
  intro regClass suited reg member
  unfold Rename.addReg at member
  dsimp only at member
  by_cases same : regClass = freed.regClass
  · subst same
    rw [update_self, mem_append, mem_singleton] at member
    rcases member with before | rfl
    · exact tidy.freeClass freed.regClass suited reg before
    · rfl
  · rw [update_of_ne same] at member
    exact tidy.freeClass regClass suited reg member

theorem retire {entry : RenameHistory} {newer : List RenameHistory}
    (shape : rename.historyBuffer tid = newer ++ [entry]) : ((rename.retire entry).setHistory tid newer).Tidy := by
  have freed : (rename.retire entry).Tidy := by
    unfold Rename.retire
    split
    · exact tidy.addReg entry.prevPhysReg
    · exact tidy
  refine ⟨freed.mapClass, freed.freeClass, ?_⟩
  apply freed.undoable_record rfl
  · intro other _
    rfl
  · have undoable := tidy.undoable tid
    rw [shape] at undoable
    rw [retire_renameMap]
    exact undoable.append

end

end Tidy

/-- The map before every entry after a sequence number was recorded. -/
def undoTo (squashed : Nat) : List RenameHistory → RegMap → RegMap
  | [], map => map
  | entry :: older, map =>
    if squashed < entry.instSeqNum then undoTo squashed older (entry.undoMap map) else map

/-- A squash undoes exactly the entries after its number and keeps what one undone entry keeps. -/
theorem squashLoop_spec (squashed : Nat) {history : List RenameHistory} (Kept : Rename numThreads → Prop)
    (tidy : rename.Tidy) (shape : rename.historyBuffer tid = history) (holds : Kept rename)
    (keeps : ∀ (rename : Rename numThreads) entry older, rename.Tidy →
      rename.historyBuffer tid = entry :: older → Kept rename →
      Kept ((rename.undone tid entry).setHistory tid older)) :
    ∃ next, squashLoop tid squashed history rename = .ok next ∧ next.Tidy ∧ Kept next ∧
      next.historyBuffer tid = history.dropWhile (fun entry => squashed < entry.instSeqNum) ∧
      next.renameMap tid = undoTo squashed history (rename.renameMap tid) ∧
      ∀ other, other ≠ tid → next.renameMap other = rename.renameMap other ∧
        next.historyBuffer other = rename.historyBuffer other := by
  induction history generalizing rename with
  | nil => exact ⟨rename, rfl, tidy, holds, shape, rfl, fun _ _ => ⟨rfl, rfl⟩⟩
  | cons entry older ih =>
    rw [squashLoop, dropWhile_cons, undoTo]
    by_cases younger : squashed < entry.instSeqNum
    · obtain ⟨done, rest⟩ := tidy.undo shape
      obtain ⟨next, reached, final, kept, left, map, others⟩ :=
        ih rest setHistory_self (keeps rename entry older tidy shape holds)
      rw [setHistory_renameMap, undone_map] at map
      simp only [younger, decide_true, if_true, done, ok_bind]
      refine ⟨next, reached, final, kept, left, map, fun other different => ?_⟩
      rw [(others other different).1, (others other different).2, setHistory_renameMap, undone_map_of_ne different,
        setHistory_of_ne different, undone_history]
      exact ⟨rfl, rfl⟩
    · simp only [younger, decide_false, if_false]
      exact ⟨rename, rfl, tidy, holds, shape, rfl, fun _ _ => ⟨rfl, rfl⟩⟩

/-- A commit removes the oldest entries up to its number and keeps what one committed entry keeps. -/
theorem commitLoop_spec (committed : Nat) {oldest : List RenameHistory} (Kept : Rename numThreads → Prop)
    (tidy : rename.Tidy) (shape : rename.historyBuffer tid = oldest.reverse) (holds : Kept rename)
    (keeps : ∀ (rename : Rename numThreads) entry newer, rename.Tidy →
      rename.historyBuffer tid = newer ++ [entry] → Kept rename →
      Kept ((rename.retire entry).setHistory tid newer)) :
    (commitLoop tid committed oldest rename).Tidy ∧ Kept (commitLoop tid committed oldest rename) ∧
      (commitLoop tid committed oldest rename).historyBuffer tid =
        (oldest.dropWhile fun entry => entry.instSeqNum ≤ committed).reverse ∧
      (commitLoop tid committed oldest rename).renameMap = rename.renameMap ∧
      ∀ other, other ≠ tid → (commitLoop tid committed oldest rename).historyBuffer other =
        rename.historyBuffer other := by
  induction oldest generalizing rename with
  | nil => exact ⟨tidy, holds, shape, rfl, fun _ _ => rfl⟩
  | cons entry newer ih =>
    rw [commitLoop, dropWhile_cons]
    by_cases older : entry.instSeqNum ≤ committed
    · rw [reverse_cons] at shape
      obtain ⟨final, kept, left, map, others⟩ :=
        ih (tidy.retire shape) setHistory_self (keeps rename entry newer.reverse tidy shape holds)
      simp only [older, decide_true, if_true]
      rw [setHistory_renameMap, retire_renameMap] at map
      refine ⟨final, kept, left, map, fun other different => ?_⟩
      rw [others other different, setHistory_of_ne different, retire_history]
    · rw [if_neg older, if_neg (by simpa using older)]
      exact ⟨tidy, holds, shape, rfl, fun _ _ => rfl⟩

/-- The renames of an instruction keep what one recorded rename keeps. -/
theorem renameDestRegs_spec {seqNum : Nat} {regs : List RegId} (Kept : Rename numThreads → Prop)
    (tidy : rename.Tidy) (holds : Kept rename)
    (keeps : ∀ (rename next : Rename numThreads) archReg newReg prevReg, rename.Tidy →
      Renamed rename next tid archReg newReg prevReg → Kept rename →
      Kept (next.setHistory tid (⟨seqNum, archReg, newReg, prevReg⟩ :: next.historyBuffer tid)))
    (done : regs.foldlM (renameDestReg tid seqNum) rename = .ok next) : next.Tidy ∧ Kept next := by
  apply foldlM_invariant (fun rename => rename.Tidy ∧ Kept rename) ⟨tidy, holds⟩ _ done
  intro rename archReg next ⟨tidy, holds⟩ turn
  obtain ⟨⟨⟨newReg, prevReg⟩, moved⟩, renamed, rfl⟩ := bind_ok_eq_ok.mp turn
  have moves := renameReg_moves renamed
  exact ⟨tidy.renamed moves, keeps rename moved archReg newReg prevReg tidy moves holds⟩

theorem Tidy.release (tidy : rename.Tidy) (tid : Fin numThreads) : (rename.release tid).Tidy := by
  have result := foldlRecOn (motive := Rename.Tidy) (rename.freeingInProgress tid) Rename.addReg tidy
    fun _ held reg _ => held.addReg reg
  exact { result with }

end Rename
end Gem5.O3
