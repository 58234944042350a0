import Gem5.Construction.Pred.Tage
import Gem5.Proof.Base.Bitfield
import Gem5.ToMathlib.Folding

namespace Gem5.Tage
open ToMathlib Folding ThreadHistory Function List BitVec
variable {params : Params} {tab : Nat → BitVec 8} {count distance index : Nat} {branch : Branch}
  {older survivors : List Branch} {value : BitVec 8} {taken : Bool} {bits : Nat → Bool} {h : Nat → BitVec 8}

/-- This number is the distance after which the pointer returns to the same byte. -/
def period (params : Params) : Nat := params.histBufferSize - params.maxHist

/-- The place of the history pointer after `count` surviving branches. -/
def pointer (params : Params) (count : Nat) : Nat := (period params - count % period params) % period params

theorem maxHist_lt_period : params.maxHist < period params := by
  have room := params.room
  unfold period
  omega

@[simp] theorem pointer_zero : pointer params 0 = 0 := by
  simp [pointer]

/-- One more branch moves the pointer down, and from zero to the end of the period. -/
theorem pointer_succ : pointer params (count + 1) =
      if pointer params count = 0 then period params - 1 else pointer params count - 1 := by
  have positive : 0 < period params := Nat.zero_lt_of_lt maxHist_lt_period
  unfold pointer
  generalize period params = size at positive ⊢
  have below := Nat.mod_lt count positive
  rw [← Nat.mod_add_mod]
  generalize count % size = rest at below ⊢
  have place : ∀ rest < size, (size - rest) % size = if rest = 0 then 0 else size - rest := by
    intro rest below
    split
    · next first => rw [first, Nat.sub_zero, Nat.mod_self]
    · exact Nat.mod_eq_of_lt (by omega)
  rw [place rest below]
  by_cases wraps : rest + 1 = size
  · rw [wraps, Nat.mod_self, place 0 positive]
    split_ifs <;> omega
  · rw [Nat.mod_eq_of_lt (by omega : rest + 1 < size), place (rest + 1) (by omega),
      if_neg (Nat.succ_ne_zero rest)]
    split_ifs <;> omega

theorem pointer_add (near : distance < period params) : pointer params (count + distance) =
      if distance ≤ pointer params count then pointer params count - distance
      else pointer params count + period params - distance := by
  induction distance with
  | zero => simp
  | succ distance ih =>
    have before := ih (by omega)
    rw [← Nat.add_assoc, pointer_succ, before]
    split_ifs <;> omega

/-- A write for one of the next branches does not meet the outcomes of the present one. -/
theorem pointer_outside (later : 0 < distance) (near : distance < params.histBufferSize - 2 * params.maxHist)
    (inside : index ≤ params.maxHist) : pointer params count + index ≠ pointer params (count + distance) := by
  have sizes : period params = params.histBufferSize - params.maxHist := rfl
  rw [pointer_add (by omega)]
  split_ifs <;> omega

theorem rollOver_loop {base : Nat} (apart : count ≤ base) :
    (range count).foldl (fun tab i => update tab (base + i) (tab i)) tab index =
      if base ≤ index ∧ index < base + count then tab (index - base) else tab index := by
  induction count generalizing index with
  | zero =>
    have empty : ¬(base ≤ index ∧ index < base + 0) := by omega
    rw [if_neg empty]
    rfl
  | succ count ih =>
    rw [range_succ, foldl_append, foldl_cons, foldl_nil, update_apply, ih (by omega), ih (by omega)]
    split_ifs with same source inside outside <;> first | omega | rfl | skip
    rw [same, Nat.add_sub_cancel_left]

/-- The last outcomes reappear at the end of the buffer. -/
theorem rollOver_apply : rollOver params tab index =
      if period params ≤ index ∧ index < params.histBufferSize then tab (index - period params) else tab index := by
  have room := params.room
  have sizes : period params + params.maxHist = params.histBufferSize := by
    unfold period
    omega
  rw [rollOver, ← sizes, Nat.add_sub_cancel, rollOver_loop (by omega)]

/-- The buffer with one more outcome at the next place of the pointer. -/
def shiftTab (params : Params) (tab : Nat → BitVec 8) (count : Nat) (value : BitVec 8) : Nat → BitVec 8 :=
  update (if pointer params count = 0 then rollOver params tab else tab) (pointer params (count + 1)) value

/-- The bytes from the pointer on are the outcomes of the surviving branches. -/
def Window (params : Params) (tab : Nat → BitVec 8) (survivors : List Branch) : Prop :=
  ∀ index ≤ params.maxHist, tab (pointer params survivors.length + index) = outcome (outcomes survivors index)

@[simp] theorem outcomes_cons_zero : outcomes (branch :: older) 0 = branch.taken := rfl

@[simp] theorem outcomes_cons_succ : outcomes (branch :: older) (index + 1) = outcomes older index := rfl

@[simp] theorem outcomes_age : outcomes (survivors.map .age) = outcomes survivors := by
  have same : Branch.taken ∘ Branch.age = Branch.taken := rfl
  unfold outcomes
  rw [map_map, same]

@[simp] theorem outcomes_cons_age : outcomes (branch :: survivors.map .age) = outcomes (branch :: survivors) := by
  funext index
  cases index with
  | zero => rfl
  | succ index => rw [outcomes_cons_succ, outcomes_cons_succ, outcomes_age]

theorem window_age : Window params tab (survivors.map .age) ↔ Window params tab survivors := by
  simp [Window]

/-- A shift writes the outcome at the next place of the pointer. -/
theorem updateGHist_eq {tHist : ThreadHistory} {dir : Bool} (aligned : tHist.gHist = tHist.ptGhist)
    (placed : tHist.ptGhist = pointer params count) :
    updateGHist params tHist dir = { tHist with
        ptGhist := pointer params (count + 1)
        gHist := pointer params (count + 1)
        globalHistory := shiftTab params tHist.globalHistory count (outcome dir) } := by
  unfold updateGHist shiftTab
  rw [pointer_succ, ← placed]
  by_cases first : tHist.ptGhist = 0
  · simp only [first, if_true]
    rfl
  · simp only [first, if_false, aligned]

/-- The new outcome stands before the older ones, also after the buffer rolls over. -/
theorem Window.shift (branch : Branch) (window : Window params tab survivors) :
    Window params (shiftTab params tab survivors.length (outcome branch.taken)) (branch :: survivors) := by
  intro index inside
  rw [length_cons, shiftTab]
  cases index with
  | zero =>
    change update _ _ _ (pointer params (survivors.length + 1)) = _
    rw [update_self, outcomes_cons_zero]
  | succ index =>
    have room := params.room
    have sizes : period params = params.histBufferSize - params.maxHist := rfl
    have older := window index (by omega)
    rw [update_of_ne (by omega), outcomes_cons_succ, ← older, pointer_succ]
    by_cases first : pointer params survivors.length = 0
    · have copied : period params ≤ period params - 1 + (index + 1) ∧
          period params - 1 + (index + 1) < params.histBufferSize := by omega
      rw [if_pos first, if_pos first, rollOver_apply, if_pos copied, first]
      congr 1
      omega
    · rw [if_neg first, if_neg first]
      congr 1
      omega

/-- A shift keeps the outcomes of a branch while few enough branches follow it. -/
theorem Window.kept (window : Window params tab survivors)
    (near : distance + 1 < params.histBufferSize - 2 * params.maxHist) :
    Window params (shiftTab params tab (survivors.length + distance) value) survivors := by
  intro index inside
  rw [shiftTab, Nat.add_assoc, update_of_ne (pointer_outside (Nat.succ_pos distance) near inside)]
  by_cases first : pointer params (survivors.length + distance) = 0
  · have sizes : period params = params.histBufferSize - params.maxHist := rfl
    -- The pointer reached zero, so it moved exactly over the bytes below the window.
    have low : pointer params survivors.length ≤ distance := by
      rw [pointer_add (by omega)] at first
      split_ifs at first <;> omega
    have below : ¬(period params ≤ pointer params survivors.length + index ∧
        pointer params survivors.length + index < params.histBufferSize) := by omega
    rw [if_pos first, rollOver_apply, if_neg below]
    exact window index inside
  · rw [if_neg first]
    exact window index inside

/-- This value folds the first outcomes of a sequence. -/
def foldedOf (bits : Nat → Bool) (origLength compLength : Nat) : FoldedHistory where
  comp := fold 32 compLength bits origLength
  compLength := compLength
  origLength := origLength
  outpoint := origLength % compLength

theorem outcome_setWidth {place : Nat} : (outcome taken).setWidth 32 <<< place = single 32 taken place := by
  cases taken <;> rfl

theorem shiftLeft_or_outcome {word : BitVec 32} :
    word <<< 1 ||| (outcome taken).setWidth 32 = word <<< 1 ^^^ single 32 taken 0 := by
  rw [← shiftLeft_zero ((outcome taken).setWidth 32), outcome_setWidth]
  apply eq_of_getLsbD_eq
  intro index _
  cases index with
  | zero | succ index => simp [getLsbD_single]

/-- An update folds the sequence in which the new outcome stands first. -/
theorem update_foldedOf {origLength compLength : Nat} (positive : 0 < compLength) (room : compLength < 32)
    (reads : ∀ index ≤ origLength, h index = outcome (bits index)) :
    (foldedOf (fun index => bits (index + 1)) origLength compLength).update h = foldedOf bits origLength compLength := by
  have masked : (Bitfield.mask compLength).setWidth 32 = (allOnes compLength).setWidth 32 := by
    apply eq_of_getLsbD_eq
    intro index inWord
    have inDouble : index < 64 := by omega
    rw [getLsbD_setWidth, getLsbD_setWidth, Bitfield.getLsbD_mask, getLsbD_allOnes]
    simp [inDouble]
  simp only [FoldedHistory.update, foldedOf]
  rw [reads 0 (Nat.zero_le _), reads origLength (Nat.le_refl _), shiftLeft_or_outcome, outcome_setWidth, masked]
  congr 1
  change wrap compLength _ = _
  rw [wrap_xor, wrap_xor, wrap_single positive, wrap_single (Nat.mod_lt _ positive),
    wrap_fold_shift positive room, fold_single_cancel]

/-- This value folds a sequence for the index and the two tags of a table. -/
def tableOf (bits : Nat → Bool) (table : TableParams) : TableHistory where
  computeIndices := foldedOf bits table.histLength table.logTagTableSize
  computeTags0 := foldedOf bits table.histLength table.tagTableTagWidth
  computeTags1 := foldedOf bits table.histLength (table.tagTableTagWidth - 1)

theorem update_tableOf {table : TableParams} (member : table ∈ params.tables)
    (reads : ∀ index ≤ params.maxHist, h index = outcome (bits index)) :
    (tableOf (fun index => bits (index + 1)) table).update h = tableOf bits table := by
  have inside : ∀ index ≤ table.histLength, h index = outcome (bits index) := fun index below =>
    reads index (Nat.le_trans below (params.histLength_le table member))
  have wide := params.tagTableTagWidth_gt table member
  have narrow := params.tagTableTagWidth_lt table member
  simp only [TableHistory.update, tableOf]
  rw [update_foldedOf (params.logTagTableSize_pos table member) (params.logTagTableSize_lt table member) inside,
    update_foldedOf (by omega) narrow inside, update_foldedOf (by omega) (by omega) inside]

theorem fold_false {length : Nat} : fold 32 length (fun _ => false) count = 0 := by
  induction count with
  | zero => rfl
  | succ count ih => simp [fold, ih, single]

theorem init_tableOf {table : TableParams} : TableHistory.init table = tableOf (fun _ => false) table := by
  simp only [TableHistory.init, tableOf, FoldedHistory.init, foldedOf, fold_false]

/-- The folded words are the XOR of the bytes that the outcomes are written as. -/
theorem xorOfOutcomes_eq {histLength compLength : Nat} (reads : ∀ index < histLength, h index = outcome (bits index)) :
    xorOfOutcomes h histLength compLength = fold 32 compLength bits histLength := by
  unfold xorOfOutcomes
  induction histLength with
  | zero => rfl
  | succ histLength ih =>
    rw [range_succ, foldl_append, ih fun index below => reads index (Nat.lt_succ_of_lt below), foldl_cons,
      foldl_nil, reads histLength (Nat.lt_succ_self _), outcome_setWidth, fold]

/-- This function shifts the path bits of the surviving branches in, with the oldest one first. -/
def pathOf (params : Params) : List Branch → BitVec 32
  | [] => 0
  | branch :: older => updatePathHist params (pathOf params older) (pathbit params branch.branchPC)

@[simp] theorem pathOf_age : pathOf params (survivors.map .age) = pathOf params survivors := by
  induction survivors with
  | nil => rfl
  | cons branch older ih => rw [map_cons, pathOf, pathOf, ih, Branch.age]

/-- The path history keeps the path bits of the last surviving branches. -/
theorem getLsbD_pathOf : (pathOf params survivors).getLsbD index =
      (decide (index < params.pathHistBits) && ((survivors[index]?).map (pathbit params ·.branchPC)).getD false) := by
  have narrow := params.pathHistBits_le
  induction survivors generalizing index with
  | nil => simp [pathOf]
  | cons branch older ih =>
    have apart : pathOf params older <<< 1 &&& (ofBool (pathbit params branch.branchPC)).setWidth 32 = 0#32 := by
      apply eq_of_getLsbD_eq
      intro index _
      cases index with
      | zero | succ index => simp
    rw [pathOf, updatePathHist, add_eq_or_of_and_eq_zero _ _ apart, getLsbD_and, getLsbD_or,
      getLsbD_shiftLeft, getLsbD_setWidth, getLsbD_setWidth, Bitfield.getLsbD_mask]
    cases index with
    | zero => simp [Bool.and_comm]
    | succ index =>
      by_cases inside : index + 1 < params.pathHistBits
      · have inWord : index + 1 < 32 := by omega
        have inDouble : index + 1 < 64 := by omega
        have before : index < params.pathHistBits := by omega
        simp [ih, inside, inWord, inDouble, before]
      · simp [inside]

/-- The info of a branch describes the histories when it was predicted. -/
structure Saved (params : Params) (tab : Nat → BitVec 8) (distance : Nat) (branch : Branch) (older : List Branch) :
    Prop where
  placed : branch.info.ptGhist = pointer params (older.length + 1)
  path : branch.info.pathHist = pathOf params (branch :: older)
  comps : branch.info.comps = params.tables.map fun table => (tableOf (outcomes older) table).comps
  younger : distance ≤ branch.younger
  window : branch.younger < params.histBufferSize - 2 * params.maxHist → Window params tab (branch :: older)

/-- The histories and the infos of all surviving branches agree with their outcomes. -/
structure Exact (params : Params) (state : Speculation) : Prop where
  placed : state.history.ptGhist = pointer params state.survivors.length
  aligned : state.history.gHist = state.history.ptGhist
  path : state.history.pathHist = pathOf params state.survivors
  tables : state.history.tables = params.tables.map (tableOf (outcomes state.survivors))
  window : Window params state.history.globalHistory state.survivors
  saved : ∀ index branch older, state.survivors.drop index = branch :: older →
    Saved params state.history.globalHistory index branch older

theorem Exact.initial {memory : Nat → BitVec 8} : Exact params (.initial params memory) where
  placed := by simp [Speculation.initial, init]
  aligned := rfl
  path := rfl
  tables := map_congr_left fun _ _ => init_tableOf
  window := by
    intro index inside
    have room := params.room
    have inBuffer : index < params.histBufferSize := by omega
    simp [Speculation.initial, init, inBuffer, outcome, outcomes]
  saved := by
    intro index branch older found
    simp [Speculation.initial] at found

/-- The folded histories of all tables follow one shift of the outcomes. -/
theorem updateTables_tableOf
    (reads : ∀ index ≤ params.maxHist, h index = outcome (outcomes (branch :: survivors) index)) :
    (params.tables.map (tableOf (outcomes survivors))).map (·.update h) =
      params.tables.map (tableOf (outcomes (branch :: survivors))) := by
  rw [map_map]
  apply map_congr_left
  intro table member
  have shifted : outcomes survivors = fun index => outcomes (branch :: survivors) (index + 1) := rfl
  rw [comp_apply, shifted]
  exact update_tableOf member reads

/-- A speculative update returns the shifted histories and the info that they save. -/
theorem updateHistories_eq {tHist : ThreadHistory} {branchPC : Addr} {bi : BranchInfo}
    (speculative : params.speculativeHistUpdate = true) (aligned : tHist.gHist = tHist.ptGhist)
    (placed : tHist.ptGhist = pointer params count) :
    updateHistories params tHist branchPC taken bi true =
      .ok ((shiftHistories params tHist branchPC taken).updateTables, (shiftHistories params tHist branchPC taken).save) := by
  have same : (shiftHistories params tHist branchPC taken).updateTables.gHist =
      (shiftHistories params tHist branchPC taken).updateTables.ptGhist := by
    simp only [updateTables, shiftHistories, updateGHist_eq aligned placed]
  unfold updateHistories
  rw [if_neg (by simp [speculative])]
  simp only [assert_of same, ok_bind, if_true]
  rfl

theorem length_of_drop (found : survivors.drop index = branch :: older) :
    survivors.length = older.length + 1 + index := by
  have lengths := congrArg length found
  rw [length_drop, length_cons] at lengths
  omega

/-- The info of an older branch stays right when a younger one is predicted. -/
theorem Saved.shift (saved : Saved params tab index branch older) (found : survivors.drop index = branch :: older) :
    Saved params (shiftTab params tab survivors.length value) (index + 1) branch.age (older.map .age) where
  placed := by
    rw [length_map]
    exact saved.placed
  path := by
    rw [← map_cons, pathOf_age]
    exact saved.path
  comps := by
    rw [outcomes_age]
    exact saved.comps
  younger := Nat.succ_le_succ saved.younger
  window := by
    intro near
    have few : branch.younger + 1 < params.histBufferSize - 2 * params.maxHist := near
    have far := saved.younger
    rw [← map_cons, window_age, length_of_drop found]
    exact (saved.window (by omega)).kept (by omega)

/-- A prediction keeps the histories exact. -/
theorem Exact.shift {state next : Speculation} {branchPC : Addr} (speculative : params.speculativeHistUpdate = true)
    (exact : Exact params state) (stepped : state.step params (.updateHistories branchPC taken) = .ok next) :
    Exact params next := by
  simp only [Speculation.step, updateHistories_eq speculative exact.aligned exact.placed, ok_bind] at stepped
  cases stepped
  have shifted : shiftHistories params state.history branchPC taken = { state.history with
        pathHist := updatePathHist params state.history.pathHist (pathbit params branchPC)
        ptGhist := pointer params (state.survivors.length + 1)
        gHist := pointer params (state.survivors.length + 1)
        globalHistory := shiftTab params state.history.globalHistory state.survivors.length (outcome taken) } := by
    simp only [shiftHistories, updateGHist_eq exact.aligned exact.placed]
  generalize savedInfo : (shiftHistories params state.history branchPC taken).save = info
  rw [shifted] at savedInfo ⊢
  have window : Window params (shiftTab params state.history.globalHistory state.survivors.length (outcome taken))
      (⟨branchPC, taken, info, 0⟩ :: state.survivors.map .age) := by
    simpa [Window] using exact.window.shift ⟨branchPC, taken, info, 0⟩
  have path : pathOf params (⟨branchPC, taken, info, 0⟩ :: state.survivors.map .age) =
      updatePathHist params state.history.pathHist (pathbit params branchPC) := by
    rw [pathOf, pathOf_age, exact.path]
  refine ⟨?_, rfl, path.symm, ?_, window, ?_⟩
  · simp [updateTables]
  · simp only [updateTables, exact.tables, outcomes_cons_age]
    apply updateTables_tableOf
    intro index inside
    simpa [ThreadHistory.window] using window index inside
  · intro index branch older found
    cases index with
    | zero =>
      cases found
      subst savedInfo
      refine ⟨by simp [save], path.symm, ?_, Nat.zero_le _, fun _ => window⟩
      simp only [save, exact.tables, map_map, outcomes_age]
      rfl
    | succ index =>
      rw [drop_succ_cons, ← map_drop] at found
      obtain ⟨before, rest, split, rfl, rfl⟩ := map_eq_cons_iff.mp found
      exact (exact.saved index before rest split).shift split

/-- A squash keeps the infos of the branches older than the squashed one. -/
theorem Saved.rewrite {further : Nat} {other : Branch} {rest : List Branch}
    (saved : Saved params tab (index + further + 1) other rest) (found : older.drop further = other :: rest) :
    Saved params (update tab (pointer params (older.length + 1)) value) (further + 1) other rest where
  placed := saved.placed
  path := saved.path
  comps := saved.comps
  younger := by
    have far := saved.younger
    omega
  window := by
    intro near index inside
    have far := saved.younger
    have outside : pointer params (rest.length + 1) + index ≠ pointer params (rest.length + 1 + (further + 1)) :=
      pointer_outside (Nat.succ_pos _) (by omega) inside
    rw [length_of_drop found, Nat.add_assoc _ further, length_cons, update_of_ne outside]
    exact saved.window near index inside

/-- The corrected outcome replaces the first one of the window. -/
theorem Window.correct (taken : Bool) (window : Window params tab (branch :: older)) :
    Window params (update tab (pointer params (older.length + 1)) (outcome taken))
      ({ branch with taken } :: older) := by
  intro index inside
  rw [length_cons]
  cases index with
  | zero =>
    change update _ _ _ (pointer params (older.length + 1)) = _
    rw [update_self, outcomes_cons_zero]
  | succ index =>
    rw [update_of_ne (by omega)]
    exact window (index + 1) inside

section
variable (speculative : params.speculativeHistUpdate = true) {state : Speculation} (exact : Exact params state)
include speculative exact

/-- A squash keeps the histories exact if few enough branches were predicted after the squashed one. -/
theorem Exact.squash {next : Speculation} {index : Nat} {taken : Bool}
    (allowed : state.allowed params (.squash index taken))
    (stepped : state.step params (.squash index taken) = .ok next) : Exact params next := by
  obtain ⟨branch, found, near⟩ := allowed
  have split : state.survivors.drop index = branch :: state.survivors.drop (index + 1) := by
    obtain ⟨inside, same⟩ := List.getElem?_eq_some_iff.mp found
    rw [drop_eq_getElem_cons inside, same]
  generalize state.survivors.drop (index + 1) = older at split
  have saved := exact.saved index branch older split
  simp only [Speculation.step, split] at stepped
  cases stepped
  have window := (saved.window near).correct taken
  simp only [Tage.squash, speculative, not_true_eq_false, if_false]
  rw [saved.placed]
  refine ⟨rfl, rfl, saved.path, ?_, window, ?_⟩
  · simp only [exact.tables, saved.comps, zipWith_map, zipWith_self]
    -- The folded histories before the branch are restored, and its corrected outcome is folded in.
    refine (map_map (f := fun _ => _) (g := (TableHistory.update · _))).symm.trans (updateTables_tableOf ?_)
    intro index inside
    simpa [ThreadHistory.window] using window index inside
  · intro further other rest follows
    cases further with
    | zero =>
      cases follows
      exact { saved with younger := Nat.zero_le _, window := fun _ => window }
    | succ further =>
      have behind : state.survivors.drop (index + further + 1) = other :: rest := by
        rw [Nat.add_assoc, ← drop_drop, split]
        exact follows
      exact (exact.saved (index + further + 1) other rest behind).rewrite follows

/-- Every step of a run keeps the histories exact. -/
theorem Exact.step {next : Speculation} {op : Op} (allowed : (speculations params).guard state op)
    (stepped : (speculations params).step state op = .ok next) : Exact params next := by
  cases op with
  | updateHistories branchPC taken => exact exact.shift speculative stepped
  | squash index taken => exact exact.squash speculative allowed stepped

/-- No prediction and no squash fails after a run. -/
theorem Exact.succeeds (op : Op) : ∃ next, (speculations params).step state op = .ok next := by
  cases op with
  | updateHistories branchPC taken =>
    simp only [speculations, Speculation.step, updateHistories_eq speculative exact.aligned exact.placed, ok_bind]
    exact ⟨_, rfl⟩
  | squash index taken =>
    simp only [speculations, Speculation.step]
    split <;> exact ⟨_, rfl⟩

end

/-- The histories after every run of predictions and squashes are those of the surviving branches alone. -/
theorem speculative_histories_exact {memory : Nat → BitVec 8} {ops : List Op} {state : Speculation}
    (speculative : params.speculativeHistUpdate = true)
    (run : (speculations params).Run (.initial params memory) ops state) :
    (∀ index < params.maxHist, state.history.window index = outcome (outcomes state.survivors index)) ∧
    List.Forall₂ (fun table history => TableHistory.Exact table history state.history.window)
      params.tables state.history.tables ∧
    (∀ index < 32, state.history.pathHist.getLsbD index = (decide (index < params.pathHistBits) &&
        ((state.survivors[index]?).map (pathbit params ·.branchPC)).getD false)) ∧
    ∀ op, ∃ next, (speculations params).step state op = .ok next := by
  have exact : Exact params state :=
    run.invariant (Exact params) .initial fun _ _ _ held allowed stepped => held.step speculative allowed stepped
  have reads : ∀ index ≤ params.maxHist, state.history.window index = outcome (outcomes state.survivors index) := by
    intro index inside
    rw [ThreadHistory.window, exact.aligned, exact.placed]
    exact exact.window index inside
  refine ⟨fun index inside => reads index (Nat.le_of_lt inside), ?_, ?_, exact.succeeds speculative⟩
  · rw [exact.tables, forall₂_map_right_iff, forall₂_same]
    intro table member
    have inside : ∀ index < table.histLength, state.history.window index = outcome (outcomes state.survivors index) :=
      fun index below => reads index (Nat.le_trans (Nat.le_of_lt below) (params.histLength_le table member))
    exact ⟨(xorOfOutcomes_eq inside).symm, (xorOfOutcomes_eq inside).symm, (xorOfOutcomes_eq inside).symm⟩
  · intro index _
    rw [exact.path, getLsbD_pathOf]

/-- These parameters let the buffer roll over after nine branches. -/
def smallParams : Params where
  maxHist := 3
  histBufferSize := 12
  pathHistBits := 4
  instShiftAmt := 2
  speculativeHistUpdate := true
  tables := [⟨2, 2, 3⟩, ⟨3, 2, 2⟩]
  room := by decide
  pathHistBits_le := by decide
  histLength_le := by decide
  logTagTableSize_pos := by decide
  logTagTableSize_lt := by decide
  tagTableTagWidth_gt := by decide
  tagTableTagWidth_lt := by decide

/-- The eighth branch is squashed after the buffer rolled over for the tenth one. -/
def rollOverOps : List Op :=
  [.squash 3 false, .updateHistories 4 true, .updateHistories 8 true, .updateHistories 4 true, .updateHistories 4 true,
    .updateHistories 12 true, .updateHistories 8 false, .updateHistories 4 true, .updateHistories 4 true,
    .updateHistories 4 false, .updateHistories 4 true, .updateHistories 0 true]

theorem speculative_histories_exact_rollOver :
    ∃ state, (speculations smallParams).Run (.initial smallParams fun _ => 0) rollOverOps state ∧
      (∀ index < 3, state.history.window index = outcome (outcomes state.survivors index)) ∧
      List.Forall₂ (fun table history => TableHistory.Exact table history state.history.window)
        smallParams.tables state.history.tables :=
  ⟨_, and_of_imp (.cons (.cons (.cons (.cons (.cons (.cons (.cons (.cons (.cons (.cons (.cons (.cons .nil trivial rfl)
    trivial rfl) trivial rfl) trivial rfl) trivial rfl) trivial rfl) trivial rfl) trivial rfl) trivial rfl) trivial rfl)
    trivial rfl) ⟨_, rfl, by decide⟩ rfl) fun run =>
      ⟨(speculative_histories_exact rfl run).1, (speculative_histories_exact rfl run).2.1⟩⟩

end Gem5.Tage
