import Gem5.Proof.O3.RenameMoves

namespace Gem5.O3
open ToMathlib Function List

/-- The register file lists the physical registers of each class. -/
structure RegFile where
  regs : RegClassType → Finset PhysRegId
  classed : ∀ regClass, ∀ reg ∈ regs regClass, reg.regClass = regClass

/-- These are the registers that the entries of a history replaced. -/
def replaced (history : List RenameHistory) : List PhysRegId :=
  (history.filter fun entry => entry.newPhysReg ≠ entry.prevPhysReg).map RenameHistory.prevPhysReg

@[simp] theorem replaced_nil : replaced [] = [] := rfl

@[simp] theorem replaced_cons (entry : RenameHistory) (history : List RenameHistory) : replaced (entry :: history) =
      if entry.newPhysReg ≠ entry.prevPhysReg then entry.prevPhysReg :: replaced history
      else replaced history := by
  by_cases changed : entry.newPhysReg ≠ entry.prevPhysReg <;> simp [replaced, changed]

@[simp] theorem replaced_append (newer older : List RenameHistory) :
    replaced (newer ++ older) = replaced newer ++ replaced older := by
  simp [replaced]

namespace Rename
variable {numThreads : Nat} (rename : Rename numThreads) (reg : PhysRegId) {regClass : RegClassType}

/-- The maps of all threads hold the register this many times. -/
def mapUses : Nat := ∑ tid, (rename.renameMap tid reg.regClass).count reg

def freeUses : Nat := (rename.freeList reg.regClass).count reg

def historyUses : Nat := ∑ tid, (replaced (rename.historyBuffer tid)).count reg

def freeingUses : Nat := ∑ tid, (rename.freeingInProgress tid).count reg

/-- A register is owned by maps, the free list, histories and delayed frees. -/
def uses : Nat := rename.mapUses reg + rename.freeUses reg + rename.historyUses reg + rename.freeingUses reg

/-- The owned registers of one class are counted with their multiplicity. -/
def owned (regClass : RegClassType) : Multiset PhysRegId :=
  (∑ tid, (rename.renameMap tid regClass : Multiset PhysRegId)) + (rename.freeList regClass : Multiset PhysRegId) +
    (∑ tid, ((replaced (rename.historyBuffer tid)).filter fun reg => reg.regClass = regClass : Multiset PhysRegId)) +
    ∑ tid, ((rename.freeingInProgress tid).filter fun reg => reg.regClass = regClass : Multiset PhysRegId)

variable {rename reg} {next : Rename numThreads} {tid : Fin numThreads} {archReg : RegId}

/-- The multiplicity of a register is the number of its owners. -/
theorem count_owned : (rename.owned reg.regClass).count reg = rename.uses reg := by
  have kept : ∀ regs : List PhysRegId,
      (regs.filter fun other => other.regClass = reg.regClass).count reg = regs.count reg := by
    intro regs
    apply count_filter
    simp
  simp only [owned, Multiset.count_add, Multiset.count_sum', Multiset.coe_count, kept]
  rfl

/-- A recorded history replaces the registers of the thread. -/
theorem uses_setHistory (rename : Rename numThreads) (tid : Fin numThreads) (history : List RenameHistory) (reg : PhysRegId) :
    (rename.setHistory tid history).uses reg + (replaced (rename.historyBuffer tid)).count reg =
      rename.uses reg + (replaced history).count reg := by
  have total := sum_update (fun history => (replaced history).count reg) rename.historyBuffer tid history
  unfold uses historyUses
  change rename.mapUses reg + rename.freeUses reg +
      (∑ place, (replaced (update rename.historyBuffer tid history place)).count reg) +
      rename.freeingUses reg + _ = _
  omega

theorem uses_setFreeing (rename : Rename numThreads) (tid : Fin numThreads) (regs : List PhysRegId) (reg : PhysRegId) :
    (rename.setFreeing tid regs).uses reg + (rename.freeingInProgress tid).count reg =
      rename.uses reg + regs.count reg := by
  have total := sum_update (fun regs => regs.count reg) rename.freeingInProgress tid regs
  unfold uses freeingUses
  change rename.mapUses reg + rename.freeUses reg + rename.historyUses reg +
      (∑ place, (update rename.freeingInProgress tid regs place).count reg) + _ = _
  omega

/-- An assigned entry of a map exchanges one register for another of its class. -/
theorem uses_setMap {index : Nat} {old new : PhysRegId} (reg : PhysRegId)
    (found : (rename.renameMap tid regClass)[index]? = some old) (oldClass : old.regClass = regClass)
    (newClass : new.regClass = regClass) :
    (rename.setMap tid regClass index new).uses reg + (if old = reg then 1 else 0) =
      rename.uses reg + (if new = reg then 1 else 0) := by
  have total := sum_update (fun map : RegMap => (map reg.regClass).count reg) rename.renameMap tid
    (update (rename.renameMap tid) regClass ((rename.renameMap tid regClass).set index new))
  unfold uses mapUses
  change (∑ place, (update rename.renameMap tid _ place reg.regClass).count reg) + rename.freeUses reg +
    rename.historyUses reg + rename.freeingUses reg + _ = _
  by_cases same : reg.regClass = regClass
  · have place := count_set new reg found
    subst same
    simp only [update_self] at total
    omega
  · have notOld : old ≠ reg := fun equal => same (equal ▸ oldClass)
    have notNew : new ≠ reg := fun equal => same (equal ▸ newClass)
    simp only [update_of_ne same] at total
    rw [if_neg notOld, if_neg notNew]
    omega

theorem uses_addReg (rename : Rename numThreads) (freed reg : PhysRegId) :
    (rename.addReg freed).uses reg = rename.uses reg + (if freed = reg then 1 else 0) := by
  have grown : (rename.addReg freed).freeUses reg = rename.freeUses reg + (if freed = reg then 1 else 0) := by
    unfold freeUses addReg
    dsimp only
    by_cases same : reg.regClass = freed.regClass
    · rw [same, update_self, count_append]
      simp [count_singleton]
    · have different : freed ≠ reg := fun equal => same (equal ▸ rfl)
      rw [update_of_ne same, if_neg different, Nat.add_zero]
  unfold uses
  change rename.mapUses reg + (rename.addReg freed).freeUses reg + rename.historyUses reg + rename.freeingUses reg = _
  omega

/-- An undone entry changes the owners of its two registers only. -/
theorem uses_undone {entry : RenameHistory} {older : List RenameHistory} (tidy : rename.Tidy)
    (shape : rename.historyBuffer tid = entry :: older) (reg : PhysRegId) :
    ((rename.undone tid entry).setHistory tid older).uses reg = rename.uses reg := by
  have undoable := tidy.undoable tid
  rw [shape] at undoable
  have recorded := uses_setHistory (rename.undone tid entry) tid older reg
  rw [undone_history, shape, replaced_cons] at recorded
  by_cases changed : entry.newPhysReg ≠ entry.prevPhysReg
  · obtain ⟨renameable, prevClass, found⟩ := undoable.1 changed
    have newClass := tidy.mapClass tid entry.archReg.regClass renameable _ (mem_of_getElem? found)
    have exchanged := uses_setMap reg found newClass prevClass
    have delayed := uses_setFreeing
      (rename.setMap tid entry.archReg.regClass entry.archReg.index entry.prevPhysReg) tid
      (rename.freeingInProgress tid ++ [entry.newPhysReg]) reg
    change _ + (rename.freeingInProgress tid).count reg = _ at delayed
    rw [if_pos changed, count_cons] at recorded
    rw [count_append, count_singleton] at delayed
    simp only [beq_iff_eq] at recorded delayed
    unfold undone at recorded ⊢
    rw [if_pos changed] at recorded ⊢
    omega
  · rw [if_neg changed] at recorded
    unfold undone at recorded ⊢
    rw [if_neg changed] at recorded ⊢
    omega

/-- A committed entry frees the register that it replaced. -/
theorem uses_retired {entry : RenameHistory} {newer : List RenameHistory}
    (shape : rename.historyBuffer tid = newer ++ [entry]) (reg : PhysRegId) :
    ((rename.retire entry).setHistory tid newer).uses reg = rename.uses reg := by
  have recorded := uses_setHistory (rename.retire entry) tid newer reg
  rw [retire_history, shape, replaced_append, count_append, replaced_cons] at recorded
  unfold retire at recorded ⊢
  by_cases changed : entry.newPhysReg ≠ entry.prevPhysReg
  · have freed := uses_addReg rename entry.prevPhysReg reg
    rw [if_pos changed, if_pos changed, count_cons] at recorded
    simp only [beq_iff_eq, replaced_nil, count_nil] at recorded
    rw [if_pos changed]
    omega
  · rw [if_neg changed, if_neg changed] at recorded
    rw [replaced_nil, count_nil] at recorded
    rw [if_neg changed]
    omega

/-- The freed registers of a list all return to the free lists. -/
theorem uses_addRegs (regs : List PhysRegId) (rename : Rename numThreads) (reg : PhysRegId) :
    (regs.foldl addReg rename).uses reg = rename.uses reg + regs.count reg := by
  induction regs generalizing rename with
  | nil => simp
  | cons freed regs ih =>
    rw [foldl_cons, ih, uses_addReg, count_cons]
    simp only [beq_iff_eq]
    omega

theorem addRegs_eq (regs : List PhysRegId) (rename : Rename numThreads) :
    regs.foldl addReg rename = { rename with freeList := (regs.foldl addReg rename).freeList } := by
  induction regs generalizing rename with
  | nil => rfl
  | cons freed regs ih => exact ih (rename.addReg freed)

/-- Every register of a renameable class has exactly one owner. -/
structure Sound (file : RegFile) (rename : Rename numThreads) : Prop extends rename.Tidy where
  once : ∀ reg, reg.regClass.isRenameable → rename.uses reg = if reg ∈ file.regs reg.regClass then 1 else 0

namespace Sound
variable {file : RegFile}

section
variable (sound : Sound file rename)
include sound

theorem mapped_ne_free {prevReg newReg : PhysRegId} {rest : List PhysRegId} (renameable : archReg.regClass.isRenameable)
    (found : (rename.renameMap tid archReg.regClass)[archReg.index]? = some prevReg)
    (available : rename.freeList archReg.regClass = newReg :: rest) : newReg ≠ prevReg := by
  intro same
  subst same
  have member := mem_of_getElem? found
  have sameClass := sound.mapClass tid archReg.regClass renameable newReg member
  have single := sound.once newReg (by rw [sameClass]; exact renameable)
  have mapped : 0 < rename.mapUses newReg := by
    unfold mapUses
    have positive : 0 < (rename.renameMap tid newReg.regClass).count newReg := by
      rw [sameClass]
      exact count_pos_iff.mpr member
    have place := le_sum (fun map : RegMap => (map newReg.regClass).count newReg) rename.renameMap tid
    omega
  have free : 0 < rename.freeUses newReg := by
    unfold freeUses
    rw [sameClass, available]
    simp
  unfold uses at single
  split at single <;> omega

/-- A renamed register moves from the free list to the map and the previous one to the history. -/
theorem renamed {newReg prevReg : PhysRegId} {seqNum : Nat} (moves : Renamed rename next tid archReg newReg prevReg) :
    Sound file (next.setHistory tid (⟨seqNum, archReg, newReg, prevReg⟩ :: next.historyBuffer tid)) := by
  refine ⟨sound.toTidy.renamed moves, ?_⟩
  intro reg suited
  rw [← sound.once reg suited]
  have recorded := uses_setHistory next tid (⟨seqNum, archReg, newReg, prevReg⟩ :: next.historyBuffer tid) reg
  rw [replaced_cons] at recorded
  cases moves with
  | kept map free history freeing =>
    have same : next.uses reg = rename.uses reg := by
      unfold uses mapUses freeUses historyUses freeingUses
      rw [map, free, history, freeing]
    rw [if_neg (by simp)] at recorded
    omega
  | taken renameable found available map free history freeing =>
    have newClass := sound.freeClass archReg.regClass renameable newReg (by simp [available])
    have prevClass := sound.mapClass tid archReg.regClass renameable prevReg (mem_of_getElem? found)
    have changed := sound.mapped_ne_free renameable found available
    have exchanged := uses_setMap reg found prevClass newClass
    have moved : next.uses reg + (if newReg = reg then 1 else 0) =
        (rename.setMap tid archReg.regClass archReg.index newReg).uses reg := by
      unfold uses mapUses freeUses historyUses freeingUses
      rw [map, free, history, freeing]
      simp only [setMap]
      by_cases same : reg.regClass = archReg.regClass
      · rw [same, update_self, available, count_cons]
        simp only [beq_iff_eq]
        omega
      · have different : newReg ≠ reg := fun equal => same (equal ▸ newClass)
        rw [update_of_ne same, if_neg different, Nat.add_zero]
    rw [if_pos changed, count_cons] at recorded
    simp only [beq_iff_eq] at recorded
    omega

/-- A squash moves registers between owners and loses none. -/
theorem squash (tid : Fin numThreads) (squashed : Nat) :
    ∃ next, rename.doSquash squashed tid = .ok next ∧ Sound file next := by
  obtain ⟨next, done, tidy, kept, _⟩ := squashLoop_spec squashed
    (fun other => ∀ reg, other.uses reg = rename.uses reg) sound.toTidy rfl (fun _ => rfl)
    fun middle entry older tidy shape same reg => (uses_undone tidy shape reg).trans (same reg)
  refine ⟨next, done, tidy, ?_⟩
  intro reg suited
  rw [kept reg, sound.once reg suited]

/-- A commit moves registers between owners and loses none. -/
theorem commit (tid : Fin numThreads) (committed : Nat) : Sound file (rename.removeFromHistory committed tid) := by
  obtain ⟨tidy, kept, _⟩ := commitLoop_spec committed
    (fun other => ∀ reg, other.uses reg = rename.uses reg) sound.toTidy (by rw [reverse_reverse])
    (fun _ => rfl) fun middle entry newer _ shape same reg => (uses_retired shape reg).trans (same reg)
  refine ⟨tidy, ?_⟩
  intro reg suited
  rw [removeFromHistory, kept reg, sound.once reg suited]

theorem release (tid : Fin numThreads) : Sound file (rename.release tid) := by
  refine ⟨sound.toTidy.release tid, ?_⟩
  intro reg suited
  have freed := uses_addRegs (rename.freeingInProgress tid) rename reg
  have cleared := uses_setFreeing ((rename.freeingInProgress tid).foldl addReg rename) tid [] reg
  rw [congrArg freeingInProgress (addRegs_eq (rename.freeingInProgress tid) rename), count_nil] at cleared
  dsimp only at cleared
  rw [← sound.once reg suited, Rename.release]
  omega

theorem step {op : RenameOp numThreads} (stepped : rename.step op = .ok next) : Sound file next := by
  cases op with
  | rename tid inst =>
    have kept := renameDestRegs_spec (Sound file) sound.toTidy sound
      (fun middle after archReg newReg prevReg _ moves held => held.renamed moves) stepped
    exact kept.2
  | squash tid squashed =>
    obtain ⟨result, done, held⟩ := sound.squash tid squashed
    cases done.symm.trans stepped
    exact held
  | commit tid committed =>
    cases stepped
    exact sound.commit tid committed
  | release tid =>
    cases stepped
    exact sound.release tid
  | pin reg writes toComplete =>
    cases stepped
    exact ⟨{ sound with }, sound.once⟩

theorem owned_eq {regClass : RegClassType} (suited : regClass.isRenameable) :
    rename.owned regClass = (file.regs regClass).val := by
  apply Multiset.ext.mpr
  intro reg
  rw [Multiset.count_eq_of_nodup (file.regs regClass).nodup]
  by_cases same : reg.regClass = regClass
  · subst same
    rw [count_owned, sound.once reg suited]
    rfl
  · have outside : reg ∉ (file.regs regClass).val := fun member => same (file.classed regClass reg member)
    rw [if_neg outside]
    apply Multiset.count_eq_zero.mpr
    simp only [owned, Multiset.mem_add, Multiset.mem_sum, Finset.mem_univ, true_and, Multiset.mem_coe,
      mem_filter, decide_eq_true_eq, not_or, not_exists]
    refine ⟨⟨⟨?_, ?_⟩, ?_⟩, ?_⟩
    · exact fun tid member => same (sound.mapClass tid regClass suited reg member)
    · exact fun member => same (sound.freeClass regClass suited reg member)
    · exact fun tid member => same member.2
    · exact fun tid member => same member.2

/-- Two places of the maps never hold the same register. -/
theorem mapped_once {regClass : RegClassType} {first second : Fin numThreads} {index place : Nat}
    (suited : regClass.isRenameable) (here : (rename.renameMap first regClass)[index]? = some reg)
    (there : (rename.renameMap second regClass)[place]? = some reg) : first = second ∧ index = place := by
  have sameClass := sound.mapClass first regClass suited reg (mem_of_getElem? here)
  subst sameClass
  have single : rename.mapUses reg ≤ 1 := by
    have total := sound.once reg suited
    unfold uses at total
    split at total <;> omega
  unfold mapUses at single
  have inFirst := count_pos_iff.mpr (mem_of_getElem? here)
  have inSecond := count_pos_iff.mpr (mem_of_getElem? there)
  have equal : first = second := by
    by_contra different
    have two := Finset.add_le_sum (f := fun tid => (rename.renameMap tid reg.regClass).count reg)
      (fun _ _ => Nat.zero_le _) (Finset.mem_univ first) (Finset.mem_univ second) different
    omega
  subst equal
  refine ⟨rfl, ?_⟩
  by_contra different
  have one := le_sum (fun map : RegMap => (map reg.regClass).count reg) rename.renameMap first
  have twice := two_le_count_of_ne different here there
  omega

end

end Sound

/-- The maps and the free lists share out the register file before the first rename. -/
structure Initial (file : RegFile) (rename : Rename numThreads) : Prop where
  history : ∀ tid, rename.historyBuffer tid = []
  freeing : ∀ tid, rename.freeingInProgress tid = []
  shared : ∀ regClass, regClass.isRenameable →
    (∑ tid, (rename.renameMap tid regClass : Multiset PhysRegId)) + (rename.freeList regClass : Multiset PhysRegId) =
      (file.regs regClass).val

theorem Initial.sound {file : RegFile} (initial : Initial file rename) : Sound file rename := by
  have whole : ∀ regClass, regClass.isRenameable → rename.owned regClass = (file.regs regClass).val := by
    intro regClass suited
    simp [owned, initial.history, initial.freeing, initial.shared regClass suited]
  refine ⟨⟨?_, ?_, ?_⟩, ?_⟩
  · intro tid regClass suited reg member
    apply file.classed regClass
    change reg ∈ (file.regs regClass).val
    rw [← initial.shared regClass suited, Multiset.mem_add, Multiset.mem_sum]
    exact Or.inl ⟨tid, Finset.mem_univ tid, member⟩
  · intro regClass suited reg member
    apply file.classed regClass
    change reg ∈ (file.regs regClass).val
    rw [← initial.shared regClass suited, Multiset.mem_add]
    exact Or.inr member
  · intro tid
    rw [initial.history tid]
    trivial
  · intro reg suited
    rw [← count_owned, whole reg.regClass suited, Multiset.count_eq_of_nodup (file.regs reg.regClass).nodup]
    rfl

/-- A register of each class leaves the free list at most once for each destination of that class. -/
theorem Renamed.freeList_length {newReg prevReg : PhysRegId} (moves : Renamed rename next tid archReg newReg prevReg)
    (regClass : RegClassType) :
    (rename.freeList regClass).length ≤
      (next.freeList regClass).length + (if archReg.regClass = regClass then 1 else 0) := by
  cases moves with
  | kept map free history freeing =>
    rw [free]
    omega
  | taken renameable found available map free history freeing =>
    rw [free]
    by_cases same : archReg.regClass = regClass
    · subst same
      rw [update_self, available, if_pos rfl, length_cons]
    · rw [update_of_ne (Ne.symm same)]
      omega

/-- Enough free registers of each class serve a list of destinations. -/
theorem renameDestRegs_available {seqNum : Nat} (regs : List RegId) (rename : Rename numThreads)
    (enough : ∀ regClass, regClass.isRenameable →
      regs.countP (fun reg => reg.regClass = regClass) ≤ (rename.freeList regClass).length) :
    regs.foldlM (renameDestReg tid seqNum) rename ≠ .error (.assertion "!freeRegs.empty()") := by
  induction regs generalizing rename with
  | nil => exact fun failed => by simp [pure, Except.pure] at failed
  | cons archReg regs ih =>
    intro failed
    rw [foldlM_cons, bind_eq_error] at failed
    rcases failed with first | ⟨middle, first, rest⟩
    · rw [renameDestReg, bind_eq_error] at first
      rcases first with failed | ⟨_, _, recorded⟩
      · refine renameReg_available (fun suited empty => ?_) failed
        have room := enough archReg.regClass suited
        rw [countP_cons_of_pos (by simp), empty, length_nil] at room
        omega
      · simp at recorded
    · obtain ⟨⟨⟨newReg, prevReg⟩, moved⟩, renamed, rfl⟩ := bind_ok_eq_ok.mp first
      refine ih _ (fun regClass suited => ?_) rest
      have room := enough regClass suited
      have taken := (renameReg_moves renamed).freeList_length regClass
      rw [countP_cons] at room
      simp only [decide_eq_true_eq] at room
      simp only [setHistory_freeList]
      omega

theorem mem_mapped (suited : regClass.isRenameable) : regClass ∈ RegClassType.mapped := by
  cases regClass <;> simp_all [RegClassType.mapped, RegClassType.isRenameable]

/-- Every physical register keeps exactly one owner, no register is mapped twice, and no rename that
the stage allows finds an empty free list. -/
theorem registers_conserved {file : RegFile} {start final : Rename numThreads} {ops : List (RenameOp numThreads)}
    (initial : Initial file start) (run : (renameStage numThreads).Run start ops final) :
    (∀ regClass, regClass.isRenameable → final.owned regClass = (file.regs regClass).val) ∧
    (∀ regClass, regClass.isRenameable → ∀ (first second : Fin numThreads) (index place : Nat) (reg : PhysRegId),
      (final.renameMap first regClass)[index]? = some reg →
      (final.renameMap second regClass)[place]? = some reg → first = second ∧ index = place) ∧
    (∀ tid inst, final.canRename inst → final.renameDestRegs tid inst ≠ .error (.assertion "!freeRegs.empty()")) ∧
    ∀ tid squashed, ∃ next, final.doSquash squashed tid = .ok next := by
  have sound : Sound file final := by
    apply run.invariant (Sound file) initial.sound
    intro state op next held _ stepped
    exact held.step stepped
  refine ⟨?_, ?_, ?_, ?_⟩
  · intro regClass suited
    exact sound.owned_eq suited
  · intro regClass suited first second index place reg here there
    exact sound.mapped_once suited here there
  · intro tid inst allowed
    apply renameDestRegs_available
    intro regClass suited
    exact allowed regClass (mem_mapped suited)
  · intro tid squashed
    obtain ⟨next, done, _⟩ := sound.squash tid squashed
    exact ⟨next, done⟩

/-- Two integer registers of one thread are mapped and one is free. -/
def sampleFile : RegFile where
  regs := fun regClass =>
    if regClass = .intReg then {⟨.intReg, 0⟩, ⟨.intReg, 1⟩, ⟨.intReg, 2⟩} else ∅
  classed := by
    intro regClass reg member
    split at member
    · next same =>
        subst same
        simp only [Finset.mem_insert, Finset.mem_singleton] at member
        rcases member with rfl | rfl | rfl <;> rfl
    · simp at member

def sampleStart : Rename 1 where
  renameMap := fun _ regClass => if regClass = .intReg then [⟨.intReg, 0⟩, ⟨.intReg, 1⟩] else []
  freeList := fun regClass => if regClass = .intReg then [⟨.intReg, 2⟩] else []
  numPinnedWrites := fun _ => 0
  numPinnedWritesToComplete := fun _ => 0
  historyBuffer := fun _ => []
  freeingInProgress := fun _ => []

/-- A renamed and squashed register is still owned once. -/
theorem registers_conserved_squash : ∃ final,
    (renameStage 1).Run sampleStart [.squash 0 0, .rename 0 ⟨1, [⟨.intReg, 1, 0⟩]⟩] final ∧
    final.freeingInProgress 0 = [⟨.intReg, 2⟩] ∧
    final.owned .intReg = {⟨.intReg, 0⟩, ⟨.intReg, 1⟩, ⟨.intReg, 2⟩} := by
  have initial : Initial sampleFile sampleStart := by
    refine ⟨fun _ => rfl, fun _ => rfl, ?_⟩
    intro regClass suited
    cases regClass <;> rfl
  have allowed : sampleStart.canRename ⟨1, [⟨.intReg, 1, 0⟩]⟩ := by decide
  exact ⟨_, and_of_imp (.cons (.cons .nil allowed rfl) trivial rfl) fun run =>
    ⟨rfl, (registers_conserved initial run).1 .intReg (by decide)⟩⟩

end Rename
end Gem5.O3
