import Gem5.Construction.Pred.DirectionPredictors
import Gem5.Proof.Pred.TageHistories

namespace Gem5.BPred
open ToMathlib TournamentBP BPredUnit Function List

/-- The record that reaches the history update comes from the lookup of a conditional branch. -/
def Looked (direction : DirectionPredictor) (state : direction.State) (tid : ThreadID) (pc : Addr) (uncond : Bool)
    (bpHistory : Option direction.History) : Prop :=
  (uncond = true ∧ bpHistory = none) ∨
    (uncond = false ∧ ∃ condPred history, direction.lookup state tid pc = .ok (condPred, history) ∧ bpHistory = some history)

/-- A predictor restores its histories if the record of each branch takes the update of the branch back. -/
structure Restores (direction : DirectionPredictor) where
  View : Type
  view : direction.State → ThreadID → View
  restore : direction.History → View → View
  MadeFor : Addr → direction.History → Prop
  updates : ∀ {state next : direction.State} {tid : ThreadID} {pc : Addr} {uncond taken : Bool}
    {bpHistory : Option direction.History} {history : direction.History},
    Looked direction state tid pc uncond bpHistory →
    direction.updateHistories state tid pc uncond taken bpHistory = .ok (next, history) →
    MadeFor pc history ∧ restore history (view next tid) = view state tid
  corrects : ∀ {state next : direction.State} {tid : ThreadID} {pc : Addr} {taken : Bool} {history : direction.History}
    {left : Option direction.History}, MadeFor pc history →
    direction.update state tid pc taken (some history) true = .ok (next, left) →
    left = some history ∧ restore history (view next tid) = restore history (view state tid)
  commits : ∀ {state next : direction.State} {tid : ThreadID} {pc : Addr} {taken : Bool}
    {bpHistory left : Option direction.History},
    direction.update state tid pc taken bpHistory false = .ok (next, left) → view next tid = view state tid
  squashes : ∀ (state : direction.State) (tid : ThreadID) (history : direction.History),
    ∃ next, direction.squash state tid (some history) = .ok next ∧ view next tid = restore history (view state tid)

/-- The operations of one thread do not change what another thread sees. -/
structure Restores.Isolated {direction : DirectionPredictor} (restores : Restores direction) : Prop where
  updateHistories : ∀ {state next : direction.State} {tid other : ThreadID} {pc : Addr} {uncond taken : Bool}
    {bpHistory : Option direction.History} {history : direction.History}, other ≠ tid →
    direction.updateHistories state tid pc uncond taken bpHistory = .ok (next, history) →
    restores.view next other = restores.view state other
  update : ∀ {state next : direction.State} {tid other : ThreadID} {pc : Addr} {taken squashed : Bool}
    {bpHistory left : Option direction.History}, other ≠ tid →
    direction.update state tid pc taken bpHistory squashed = .ok (next, left) →
    restores.view next other = restores.view state other
  squash : ∀ {state next : direction.State} {tid other : ThreadID} {bpHistory : Option direction.History}, other ≠ tid →
    direction.squash state tid bpHistory = .ok next → restores.view next other = restores.view state other

section Tournament
variable {params : TournamentParams} {pc : Addr} {state next : TournamentBP.State} {tid : ThreadID}
  {history : TournamentBP.BPHistory} {taken : Bool}

/-- A word without its highest bit is not the invalid index. -/
theorem ne_invalid_of_high {word : BitVec 32} (high : word.getLsbD 31 = false) : word ≠ invalidPredictorIndex := by
  rintro rfl
  cases high

theorem and_maskBits_ne_invalid {word : BitVec 32} {nbits : Nat} (fits : nbits < 32) :
    word &&& maskBits nbits ≠ invalidPredictorIndex := by
  have outside : ¬31 < nbits := by omega
  apply ne_invalid_of_high
  rw [maskBits, BitVec.getLsbD_and, BitVec.getLsbD_setWidth, Bitfield.getLsbD_mask]
  simp [outside]

theorem calcLocHistIdx_ne_invalid : calcLocHistIdx params pc ≠ invalidPredictorIndex := by
  have fits := params.localHistoryTableBits_lt
  have outside : ¬31 < params.localHistoryTableBits := by omega
  apply ne_invalid_of_high
  rw [calcLocHistIdx, BitVec.getLsbD_setWidth, BitVec.getLsbD_and, Bitfield.getLsbD_mask]
  simp [outside]

/-- The lookups of a thread use its global history and the masked local histories. -/
def tournamentView (params : TournamentParams) (state : TournamentBP.State) (tid : ThreadID) :
    BitVec 32 × (Nat → BitVec 32) :=
  (state.globalHistory tid, fun index => state.localHistoryTable index &&& localPredictorMask params)

def tournamentRestore (params : TournamentParams) (history : TournamentBP.BPHistory) (view : BitVec 32 × (Nat → BitVec 32)) :
    BitVec 32 × (Nat → BitVec 32) :=
  (history.globalHistory, if history.localHistoryIdx ≠ invalidPredictorIndex then
      update view.2 history.localHistoryIdx.toNat
        (history.localHistory &&& localPredictorMask params)
    else view.2)

/-- A record has a local history exactly if its branch is conditional. -/
def TournamentMadeFor (params : TournamentParams) (pc : Addr) (history : TournamentBP.BPHistory) : Prop :=
  (history.localHistoryIdx = calcLocHistIdx params pc ∧ history.localHistory ≠ invalidPredictorIndex) ∨
    (history.localHistoryIdx = invalidPredictorIndex ∧ history.localHistory = invalidPredictorIndex)

/-- A write to the local histories changes the masked local histories at one place. -/
theorem masked_update {table : Nat → BitVec 32} {place : Nat} {value mask : BitVec 32} :
    (fun index => update table place value index &&& mask) =
      update (fun index => table index &&& mask) place (value &&& mask) := by
  exact comp_update (· &&& mask) table place value

/-- The tournament predictor restores its histories. -/
def tournamentRestores (params : TournamentParams) : Restores (tournamentBP params) where
  View := BitVec 32 × (Nat → BitVec 32)
  view := tournamentView params
  restore := tournamentRestore params
  MadeFor := TournamentMadeFor params
  updates := by
    rintro state next tid pc uncond taken bpHistory history (⟨rfl, rfl⟩ | ⟨rfl, condPred, looked, found, rfl⟩) updated
    · cases updated
      refine ⟨.inr ⟨rfl, rfl⟩, ?_⟩
      simp [tournamentRestore, tournamentView, uncondHistory, updateGlobalHist]
    · cases updated
      obtain ⟨_, _, rfl, rfl⟩ := bind_pair_eq_ok.mp found
      refine ⟨.inl ⟨rfl, and_maskBits_ne_invalid params.localHistoryBits_lt⟩, ?_⟩
      simp only [tournamentRestore, if_pos calcLocHistIdx_ne_invalid, tournamentView, updateLocalHist, updateGlobalHist,
        masked_update, update_idem]
      congr 1
      rw [BitVec.and_assoc, BitVec.and_self]
      exact update_eq_self _ _
  corrects := by
    intro state next tid pc taken history left made updated
    obtain ⟨_, _, rfl, rfl⟩ := bind_pair_eq_ok.mp updated
    refine ⟨rfl, ?_⟩
    rcases made with ⟨place, locals⟩ | ⟨place, locals⟩
    · have valid : history.localHistoryIdx ≠ invalidPredictorIndex := by
        rw [place]
        exact calcLocHistIdx_ne_invalid
      simp only [tournamentRestore, if_pos valid, tournamentView, restoreAndUpdate, if_pos locals, ← place,
        masked_update, update_idem]
    · simp [tournamentRestore, tournamentView, restoreAndUpdate, place, locals]
  commits := by
    intro state next tid pc taken bpHistory left updated
    cases bpHistory with
    | none => cases updated
    | some history =>
      obtain ⟨_, _, updated⟩ := bind_eq_ok.mp updated
      obtain ⟨_, _, rfl, rfl⟩ := bind_pair_eq_ok.mp updated
      rfl
  squashes := by
    intro state tid history
    refine ⟨_, rfl, ?_⟩
    by_cases valid : history.localHistoryIdx ≠ invalidPredictorIndex
    · simp only [tournamentView, tournamentRestore, if_pos valid, masked_update, update_self]
    · simp only [tournamentView, tournamentRestore, if_neg valid, update_self]

end Tournament

section BiMode
variable {params : BiModeParams}

theorem biMode_commits {state next : BiModeBP.State} {tid : ThreadID} {pc : Addr} {taken : Bool}
    {bpHistory left : Option BiModeBP.BPHistory}
    (updated : BiModeBP.update params state tid pc taken bpHistory false = .ok (next, left)) :
    next.globalHistoryReg = state.globalHistoryReg := by
  cases bpHistory with
  | none => cases updated
  | some history =>
    obtain ⟨_, _, updated⟩ := bind_eq_ok.mp updated
    obtain ⟨_, _, rfl, rfl⟩ := bind_pair_eq_ok.mp updated
    rfl

/-- The bi-mode predictor restores its history register. -/
def biModeRestores (params : BiModeParams) : Restores (biModeBP params) where
  View := BitVec 32
  view := BiModeBP.State.globalHistoryReg
  restore := fun history _ => history.globalHistoryReg
  MadeFor := fun _ _ => True
  updates := by
    rintro state next tid pc uncond taken bpHistory history (⟨rfl, rfl⟩ | ⟨rfl, condPred, looked, found, rfl⟩) updated
    · cases updated
      exact ⟨trivial, rfl⟩
    · cases updated
      obtain ⟨_, _, found⟩ := bind_eq_ok.mp found
      obtain ⟨_, _, rfl, rfl⟩ := bind_pair_eq_ok.mp found
      exact ⟨trivial, rfl⟩
  corrects := by
    intro state next tid pc taken history left _ updated
    cases updated
    exact ⟨rfl, rfl⟩
  commits := fun updated => congrFun (biMode_commits updated) _
  squashes := fun state tid history => ⟨_, rfl, update_self tid _ state.globalHistoryReg⟩

theorem biMode_isolated : (biModeRestores params).Isolated where
  updateHistories := by
    intro state next tid other pc uncond taken bpHistory history different updated
    rcases uncond with _ | _ <;> rcases bpHistory with _ | found <;> cases updated <;>
      exact update_of_ne different _ _
  update := by
    intro state next tid other pc taken squashed bpHistory left different updated
    cases squashed with
    | false => exact congrFun (biMode_commits updated) other
    | true =>
      cases bpHistory with
      | none => cases updated
      | some history =>
        cases updated
        exact update_of_ne different _ _
  squash := by
    intro state next tid other bpHistory different squashed
    cases bpHistory with
    | none => cases squashed
    | some history =>
      cases squashed
      exact update_of_ne different _ _

end BiMode

section Chain
variable {direction : DirectionPredictor} (restores : Restores direction) (params : UnitParams) (tid : ThreadID)
  {stack : AddrStack} {inst : StaticInst} {pc corrTarget : PCState} {btbTarget itarget : Option PCState}
  {unit next : BPredUnit direction} {squashedSn : Nat} {hists : List (PredictorHistory direction)}
  {actuallyTaken : Bool}

/-- The records of the branches lead back from the present view through the views before each branch. -/
def Chain : restores.View → List (PredictorHistory direction) → Prop
  | _, [] => True
  | current, hist :: older =>
    (hist.rasHistory.isSome → params.ras = true) ∧
    (∃ history, hist.bpHistory = some history ∧ restores.MadeFor hist.pc.pc history ∧
      restores.restore history current = restores.view hist.before tid) ∧
    Chain (restores.view hist.before tid) older

/-- The branches of a thread lead back from its present view. -/
def Restorable (unit : BPredUnit direction) : Prop :=
  Chain restores params tid (restores.view unit.predictor tid) (unit.predHist tid)

variable {restores params tid}

theorem Chain.left_of_append {current : restores.View} {younger older : List (PredictorHistory direction)}
    (chain : Chain restores params tid current (younger ++ older)) : Chain restores params tid current younger := by
  induction younger generalizing current with
  | nil => trivial
  | cons hist rest ih => exact ⟨chain.1, chain.2.1, ih chain.2.2⟩

/-- A prediction adds one record and performs the stack operation of a detected branch. -/
theorem predict_cases {seqNum : Nat} (stepped : unit.predict params inst seqNum pc tid btbTarget itarget = .ok next) :
    ∃ bpHistory history taken targetProvider target predictor,
      Looked direction unit.predictor tid pc.pc inst.isUncondCtrl bpHistory ∧
      direction.updateHistories unit.predictor tid pc.pc inst.isUncondCtrl taken bpHistory = .ok (predictor, history) ∧
      ((btbTarget.isSome || !params.requiresBTBHit) = false → taken = false) ∧
      let operated := predictRAS params (unit.addrStacks tid) inst pc (btbTarget.isSome || !params.requiresBTBHit)
      next = { unit with
        predictor
        predHist := update unit.predHist tid (⟨seqNum, pc, inst, taken, taken, btbTarget.isSome, targetProvider, target,
          false, some history, operated.2.1, unit.predictor⟩ :: unit.predHist tid)
        addrStacks := update unit.addrStacks tid operated.1 } := by
  obtain ⟨⟨condPred, bpHistory⟩, looked, stepped⟩ := bind_eq_ok.mp stepped
  obtain ⟨⟨predictor, history⟩, updated, rfl⟩ := bind_ok_eq_ok.mp stepped
  refine ⟨bpHistory, history, _, _, _, predictor, ?_, updated, ?_, rfl⟩
  · unfold predictDirection at looked
    cases uncond : inst.isUncondCtrl with
    | true =>
      rw [if_pos uncond] at looked
      cases looked
      exact .inl ⟨rfl, rfl⟩
    | false =>
      rw [if_neg (by simp [uncond])] at looked
      obtain ⟨⟨found, record⟩, lookup, rfl, rfl⟩ := bind_pair_eq_ok.mp looked
      exact .inr ⟨rfl, _, record, lookup, rfl⟩
  · intro unseen
    have missed : btbTarget = none := by simpa using (Bool.or_eq_false_iff.mp unseen).1
    change (condPred && (predictTarget params inst condPred (btbTarget.isSome || !params.requiresBTBHit) btbTarget
      (predictRAS params (unit.addrStacks tid) inst pc
        (btbTarget.isSome || !params.requiresBTBHit)).2.2 itarget).isSome) = false
    rw [unseen, missed]
    simp [predictTarget, predictRAS]

theorem Restorable.predict {seqNum : Nat} (held : Restorable restores params tid unit)
    (stepped : unit.predict params inst seqNum pc tid btbTarget itarget = .ok next) :
    Restorable restores params tid next := by
  obtain ⟨bpHistory, history, _, _, _, _, looked, updated, _, rfl⟩ := predict_cases stepped
  simp only [Restorable, update_self]
  refine ⟨?_, ⟨history, rfl, restores.updates looked updated⟩, held⟩
  rw [predictRAS]
  split
  · next both => exact fun _ => (Bool.and_eq_true_iff.mp both).1
  · exact fun recorded => nomatch recorded

/-- The squash of one branch returns to the view before it. -/
theorem squashHistory_restores {hist : PredictorHistory direction} {older : List (PredictorHistory direction)}
    (chain : Chain restores params tid (restores.view unit.predictor tid) (hist :: older)) :
    ∃ next, unit.squashHistory params tid hist = .ok next ∧ next.predHist = unit.predHist ∧
      restores.view next.predictor tid = restores.view hist.before tid := by
  obtain ⟨hasRas, ⟨history, record, _, restored⟩, _⟩ := chain
  obtain ⟨predictor, squashed, viewed⟩ := restores.squashes unit.predictor tid history
  have stack : ∃ stack, squashRAS params (unit.addrStacks tid) hist.rasHistory = .ok stack := by
    cases recorded : hist.rasHistory with
    | none => exact ⟨_, rfl⟩
    | some rasHistory =>
      have has : params.ras = true := hasRas (by rw [recorded]; rfl)
      exact ⟨_, by rw [squashRAS, assert_of has]; rfl⟩
  obtain ⟨stack, stacked⟩ := stack
  refine ⟨{ unit with predictor, addrStacks := update unit.addrStacks tid stack }, ?_, rfl, ?_⟩
  · rw [squashHistory, stacked, ok_bind, record, squashed]
    rfl
  · exact viewed.trans restored

/-- The loop stops at the first branch that stays and returns to the view before the last one that goes. -/
theorem squashLoop_restores (chain : Chain restores params tid (restores.view unit.predictor tid) hists) :
    ∃ next, squashLoop params squashedSn tid hists unit = .ok next ∧
      next.predHist = update unit.predHist tid (hists.dropWhile fun hist => decide (squashedSn < hist.seqNum)) ∧
      Chain restores params tid (restores.view next.predictor tid)
        (hists.dropWhile fun hist => decide (squashedSn < hist.seqNum)) ∧
      restores.view next.predictor tid =
        (((hists.takeWhile fun hist => decide (squashedSn < hist.seqNum)).getLast?.map (restores.view ·.before tid)).getD
          (restores.view unit.predictor tid)) := by
  induction hists generalizing unit with
  | nil => exact ⟨_, rfl, rfl, chain, rfl⟩
  | cons hist older ih =>
    rw [squashLoop, dropWhile_cons, takeWhile_cons]
    by_cases later : squashedSn < hist.seqNum
    · obtain ⟨middle, squashed, kept, viewed⟩ := squashHistory_restores chain
      obtain ⟨next, looped, hists, rest, final⟩ := ih (viewed ▸ chain.2.2 : Chain restores params tid (restores.view middle.predictor tid) older)
      simp only [later, decide_true, if_true, squashed, ok_bind, getLast?_cons, ← kept]
      refine ⟨next, looped, hists, rest, final.trans ?_⟩
      rw [viewed]
      cases (older.takeWhile fun hist => decide (squashedSn < hist.seqNum)).getLast? <;> rfl
    · simp only [later, decide_false, if_false]
      exact ⟨_, rfl, rfl, chain, rfl⟩

theorem Restorable.squash (held : Restorable restores params tid unit)
    (stepped : unit.squash params squashedSn tid = .ok next) : Restorable restores params tid next := by
  obtain ⟨found, looped, hists, rest, _⟩ := squashLoop_restores held
  cases looped.symm.trans stepped
  rw [Restorable, hists, update_self]
  exact rest

/-- A mispredicted branch is corrected after the branches behind it are squashed. -/
theorem squashMispredict_cases
    (stepped : unit.squashMispredict params squashedSn corrTarget actuallyTaken tid = .ok next) :
    ∃ middle, unit.squash params squashedSn tid = .ok middle ∧ ((middle.predHist tid = [] ∧ next = middle) ∨
        ∃ hist rest predictor bpHistory, middle.predHist tid = hist :: rest ∧
          direction.update middle.predictor tid hist.pc.pc actuallyTaken hist.bpHistory true = .ok (predictor, bpHistory) ∧
          next = { middle with
            predictor
            predHist := update middle.predHist tid
              ({ hist with
                mispredict := true, actuallyTaken, target := corrTarget, bpHistory
                rasHistory := (correctRAS params (middle.addrStacks tid) hist corrTarget actuallyTaken).2 } :: rest)
            addrStacks := update middle.addrStacks tid
              (correctRAS params (middle.addrStacks tid) hist corrTarget actuallyTaken).1 }) := by
  obtain ⟨middle, squashed, stepped⟩ := bind_eq_ok.mp stepped
  refine ⟨middle, squashed, ?_⟩
  split at stepped
  · next empty =>
      cases stepped
      exact .inl ⟨empty, rfl⟩
  · next hist rest hists =>
      obtain ⟨⟨predictor, bpHistory⟩, updated, rfl⟩ := bind_ok_eq_ok.mp stepped
      exact .inr ⟨hist, rest, predictor, bpHistory, hists, updated, rfl⟩

theorem Restorable.squashMispredict (held : Restorable restores params tid unit)
    (stepped : unit.squashMispredict params squashedSn corrTarget actuallyTaken tid = .ok next) :
    Restorable restores params tid next := by
  obtain ⟨middle, squashed, cases⟩ := squashMispredict_cases stepped
  have between := held.squash squashed
  rcases cases with ⟨_, rfl⟩ | ⟨hist, rest, predictor, bpHistory, hists, updated, rfl⟩
  · exact between
  rw [Restorable, hists] at between
  obtain ⟨hasRas, ⟨history, record, made, restored⟩, older⟩ := between
  rw [record] at updated
  obtain ⟨left, corrected⟩ := restores.corrects made updated
  rw [Restorable]
  simp only [update_self]
  refine ⟨?_, ⟨history, left, made, corrected.trans restored⟩, older⟩
  unfold correctRAS
  split
  · next has => exact fun _ => has
  · exact hasRas

/-- The commit loop keeps a view that commits do not change and removes the oldest branches. -/
theorem updateLoop_cases {doneSn : Nat} {View : Type} (view : direction.State → View)
    (keeps : ∀ {state after : direction.State} {pc : Addr} {taken : Bool} {bpHistory left : Option direction.History},
      direction.update state tid pc taken bpHistory false = .ok (after, left) → view after = view state)
    (looped : updateLoop params doneSn tid hists unit = .ok next) :
    view next.predictor = view unit.predictor ∧ next.addrStacks = unit.addrStacks ∧
      ∃ done, hists = done ++ hists.dropWhile (fun hist => decide (hist.seqNum ≤ doneSn)) ∧
        next.committed = update unit.committed tid (done.reverse ++ unit.committed tid) ∧
        next.predHist =
          update unit.predHist tid (hists.dropWhile fun hist => decide (hist.seqNum ≤ doneSn)).reverse := by
  induction hists generalizing unit with
  | nil =>
    cases looped
    exact ⟨rfl, rfl, [], rfl, (update_eq_self tid unit.committed).symm, rfl⟩
  | cons hist younger ih =>
    rw [dropWhile_cons]
    by_cases before : hist.seqNum ≤ doneSn
    · rw [updateLoop, if_pos before] at looped
      rw [if_pos (decide_eq_true before)]
      obtain ⟨middle, committed, looped⟩ := bind_eq_ok.mp looped
      obtain ⟨⟨predictor, left⟩, updated, committed⟩ := bind_eq_ok.mp committed
      obtain ⟨_, _, rfl⟩ := bind_ok_eq_ok.mp committed
      obtain ⟨viewed, rings, done, parts, commits, hists⟩ := ih looped
      refine ⟨viewed.trans (keeps updated), rings, hist :: done, congrArg (hist :: ·) parts, ?_, hists⟩
      simp only [commits, update_self, update_idem, reverse_cons, append_assoc, cons_append, nil_append]
    · rw [updateLoop, if_neg before] at looped
      cases looped
      rw [if_neg (by simpa using before)]
      exact ⟨rfl, rfl, [], rfl, (update_eq_self tid unit.committed).symm, rfl⟩

theorem Restorable.update {doneSn : Nat} (held : Restorable restores params tid unit)
    (stepped : unit.update params doneSn tid = .ok next) : Restorable restores params tid next := by
  obtain ⟨viewed, _, done, parts, _, hists⟩ := updateLoop_cases (restores.view · tid) restores.commits stepped
  rw [Restorable, viewed, hists, update_self]
  have split := congrArg reverse parts
  rw [reverse_reverse, reverse_append] at split
  rw [Restorable, split] at held
  exact held.left_of_append

/-- The squash of another thread leaves the branches and the view of this one. -/
theorem squashLoop_frame {other : ThreadID} (isolated : restores.Isolated) (different : tid ≠ other)
    (looped : squashLoop params squashedSn other hists unit = .ok next) :
    next.predHist tid = unit.predHist tid ∧ restores.view next.predictor tid = restores.view unit.predictor tid := by
  induction hists generalizing unit with
  | nil =>
    cases looped
    exact ⟨update_of_ne different _ _, rfl⟩
  | cons hist older ih =>
    by_cases later : squashedSn < hist.seqNum
    · rw [squashLoop, if_pos later] at looped
      obtain ⟨middle, squashed, looped⟩ := bind_eq_ok.mp looped
      obtain ⟨stack, _, squashed⟩ := bind_eq_ok.mp squashed
      obtain ⟨predictor, restored, rfl⟩ := bind_ok_eq_ok.mp squashed
      obtain ⟨hists, viewed⟩ := ih looped
      exact ⟨hists, viewed.trans (isolated.squash different restored)⟩
    · rw [squashLoop, if_neg later] at looped
      cases looped
      exact ⟨update_of_ne different _ _, rfl⟩

theorem Restorable.other {op : PredictOp} (isolated : restores.Isolated) (different : tid ≠ op.tid)
    (held : Restorable restores params tid unit) (stepped : unit.step params op = .ok next) :
    Restorable restores params tid next := by
  have frame : next.predHist tid = unit.predHist tid ∧
      restores.view next.predictor tid = restores.view unit.predictor tid := by
    cases op with
    | predict inst seqNum pc other btbTarget itarget =>
      obtain ⟨_, _, _, _, _, _, _, updated, _, rfl⟩ := predict_cases stepped
      exact ⟨update_of_ne different _ _, isolated.updateHistories different updated⟩
    | squash squashedSn other => exact squashLoop_frame isolated different stepped
    | squashMispredict squashedSn corrTarget actuallyTaken other =>
      obtain ⟨middle, squashed, cases⟩ := squashMispredict_cases stepped
      obtain ⟨hists, viewed⟩ := squashLoop_frame isolated different squashed
      rcases cases with ⟨_, rfl⟩ | ⟨hist, rest, predictor, bpHistory, _, updated, rfl⟩
      · exact ⟨hists, viewed⟩
      · exact ⟨(update_of_ne different _ _).trans hists, (isolated.update different updated).trans viewed⟩
    | update doneSn other =>
      obtain ⟨viewed, _, _, _, _, hists⟩ := updateLoop_cases (restores.view · tid) (isolated.update different) stepped
      rw [hists]
      exact ⟨update_of_ne different _ _, viewed⟩
  rw [Restorable, frame.1, frame.2]
  exact held

theorem Restorable.initial {start : direction.State} : Restorable restores params tid (.initial params start) := by
  trivial

/-- Every step keeps the branches of a thread restorable if other threads cannot disturb them. -/
theorem Restorable.step {op : PredictOp} (undisturbed : op.tid = tid ∨ restores.Isolated)
    (held : Restorable restores params tid unit) (stepped : unit.step params op = .ok next) :
    Restorable restores params tid next := by
  by_cases same : op.tid = tid
  · subst same
    cases op with
    | predict inst seqNum pc other btbTarget itarget => exact held.predict stepped
    | squash squashedSn other => exact held.squash stepped
    | squashMispredict squashedSn corrTarget actuallyTaken other => exact held.squashMispredict stepped
    | update doneSn other => exact held.update stepped
  · rcases undisturbed with undisturbed | isolated
    · exact absurd undisturbed same
    · exact held.other isolated (Ne.symm same) stepped

/-- The squash of a restorable thread returns to the view before the oldest branch that it removes. -/
theorem Restorable.squash_view (held : Restorable restores params tid unit) :
    ∃ next, unit.squash params squashedSn tid = .ok next ∧
      restores.view next.predictor tid = restores.view (unit.beforeSquashed squashedSn tid) tid := by
  obtain ⟨next, looped, _, _, final⟩ := squashLoop_restores held
  refine ⟨next, looped, final.trans ?_⟩
  unfold BPredUnit.beforeSquashed
  cases ((unit.predHist tid).takeWhile fun hist => decide (squashedSn < hist.seqNum)).getLast? <;> rfl

end Chain

/-- The local histories of the tournament predictor belong to all threads, so other threads must rest. -/
def Predictor.Undisturbed (tid : ThreadID) : Predictor → PredictOp → Prop
  | .tournament _, op => op.tid = tid
  | .biMode _, _ => True
  | .tage _ _, _ => True

/-- These runs of the unit keep other threads from disturbing the histories of one thread. -/
def undisturbedUnits (predictor : Predictor) (params : UnitParams) (tid : ThreadID) :
    Machine (BPredUnit predictor.direction) PredictOp Fault where
  guard := fun _ op => predictor.Undisturbed tid op
  step := step params

/-- The TAGE predictor may only be squashed if no branch is removed. -/
def Predictor.MayRestore {predictor : Predictor} (unit : BPredUnit predictor.direction) (squashedSn : Nat) (tid : ThreadID) :
    Prop :=
  match predictor with
  | .tournament _ => True
  | .biMode _ => True
  | .tage _ _ => ∀ hist ∈ unit.predHist tid, hist.seqNum ≤ squashedSn

/-- A squash that removes no branch leaves the unit as it is. -/
theorem squash_none {direction : DirectionPredictor} {params : UnitParams} {unit : BPredUnit direction} {squashedSn : Nat}
    {tid : ThreadID} (older : ∀ hist ∈ unit.predHist tid, hist.seqNum ≤ squashedSn) :
    unit.squash params squashedSn tid = .ok unit ∧ unit.beforeSquashed squashedSn tid = unit.predictor := by
  have same := update_eq_self tid unit.predHist
  unfold BPredUnit.squash BPredUnit.beforeSquashed
  cases hists : unit.predHist tid with
  | nil =>
    rw [hists] at same
    exact ⟨by rw [squashLoop, same], rfl⟩
  | cons hist rest =>
    have stays : ¬squashedSn < hist.seqNum := Nat.not_lt.mpr (older hist (by rw [hists]; exact mem_cons_self))
    rw [hists] at same
    exact ⟨by rw [squashLoop, if_neg stays, same], by rw [takeWhile_cons_of_neg (by simpa using stays)]; rfl⟩

/-- A squash restores the histories of the tournament and of the bi-mode predictor after every run. -/
theorem squash_restores_histories {predictor : Predictor} {params : UnitParams} {memory : Nat → BitVec 8}
    {tid : ThreadID} {squashedSn : Nat} {ops : List PredictOp} {unit : BPredUnit predictor.direction}
    (run : (undisturbedUnits predictor params tid).Run (.initial params (predictor.initial memory)) ops unit)
    (condition : Predictor.MayRestore unit squashedSn tid) :
    ∃ next, unit.squash params squashedSn tid = .ok next ∧
      predictor.SameHistories tid next.predictor (unit.beforeSquashed squashedSn tid) := by
  cases predictor with
  | tournament tournament =>
    have held : Restorable (tournamentRestores tournament) params tid unit :=
      run.invariant (Restorable (tournamentRestores tournament) params tid) .initial
        fun _ _ _ held undisturbed stepped => held.step (.inl undisturbed) stepped
    obtain ⟨next, squashed, viewed⟩ := held.squash_view
    obtain ⟨globals, locals⟩ := Prod.mk.inj viewed
    exact ⟨next, squashed, globals, congrFun locals⟩
  | biMode biMode =>
    have held : Restorable (biModeRestores biMode) params tid unit :=
      run.invariant (Restorable (biModeRestores biMode) params tid) .initial
        fun _ _ _ held _ stepped => held.step (.inr biMode_isolated) stepped
    obtain ⟨next, squashed, viewed⟩ := held.squash_view
    exact ⟨next, squashed, viewed⟩
  | tage tage tables =>
    obtain ⟨squashed, before⟩ := squash_none condition
    refine ⟨unit, squashed, ?_⟩
    rw [before]
    exact ⟨rfl, rfl, fun _ _ => rfl⟩

/-- These instructions are an unconditional jump and a conditional branch. -/
def jump : StaticInst := ⟨false, false, true, false, true, false⟩

def branch : StaticInst := ⟨false, false, false, true, true, false⟩

/-- A small tournament predictor with counters of two bits. -/
def smallTournament : TournamentParams where
  localHistoryBits := 3
  localHistoryTableBits := 2
  globalPredictorBits := 3
  choicePredictorBits := 3
  localCtrBits := 2
  globalCtrBits := 2
  choiceCtrBits := 2
  instShiftAmt := 2
  localHistoryBits_lt := by decide
  localHistoryTableBits_lt := by decide
  globalPredictorBits_lt := by decide
  choicePredictorBits_lt := by decide

def smallUnit : UnitParams := ⟨false, true, false, 4⟩

/-- The squash removes a jump and a conditional branch that both changed the histories. -/
theorem squash_restores_histories_two : ∃ unit next, (undisturbedUnits (.tournament smallTournament) smallUnit 0).Run
        (.initial smallUnit (Predictor.initial (fun _ => 0) (.tournament smallTournament)))
        [.predict branch 2 ⟨8, 12⟩ 0 none none, .predict jump 1 ⟨4, 8⟩ 0 (some ⟨8, 12⟩) none] unit ∧
      unit.squash smallUnit 0 0 = .ok next ∧
      Predictor.SameHistories 0 (.tournament smallTournament) next.predictor (unit.beforeSquashed 0 0) :=
  ⟨_, exists_and_left.mpr (and_of_imp (.cons (.cons .nil rfl rfl) rfl rfl) fun run =>
    squash_restores_histories run trivial)⟩

/-- After a squash the TAGE predictor still holds the outcome of the jump that it removed. -/
theorem tage_squash_keeps_history :
    ∃ unit next, (undisturbedUnits (.tage Tage.smallParams fun _ _ _ => false) smallUnit 0).Run
        (.initial smallUnit (Predictor.initial (fun _ => 0) (.tage Tage.smallParams fun _ _ _ => false)))
        [.predict jump 1 ⟨4, 8⟩ 0 (some ⟨8, 12⟩) none] unit ∧
      unit.squash smallUnit 0 0 = .ok next ∧
      ¬Predictor.SameHistories 0 (.tage Tage.smallParams fun _ _ _ => false) next.predictor
        (unit.beforeSquashed 0 0) := by
  refine ⟨_, _, .cons .nil trivial rfl, rfl, ?_⟩
  rintro ⟨_, _, window⟩
  cases window 0 (by decide)

end Gem5.BPred
