import Gem5.Construction.Pred.LoopPredictor

namespace Gem5.LoopPredictor
open Function List
variable (params : Params) (instShiftAmt : Nat)

/-- The entry of the table that a branch hits. -/
def hits (ltable : Table) (pc : Nat) : Option Nat :=
  let bi := locate params instShiftAmt pc {}
  (bi.findWay params ltable).map (bi.place params)

variable {params instShiftAmt} {ltable after : Table} {pc index : Nat} {bi : BranchInfo}

/-- Branches hit by the tags of the table only. -/
theorem hits_congr (tags : ∀ index, (after index).tag = (ltable index).tag) :
    hits params instShiftAmt after = hits params instShiftAmt ltable := by
  funext pc
  simp only [hits, BranchInfo.findWay, tags]

/-- A new record notes the entry that the branch hits, and its iteration count is zero. -/
theorem getLoop_record (params : Params) (instShiftAmt : Nat) (ltable : Table) (pc : Nat) :
    (getLoop params instShiftAmt ltable pc {} true).2.hitEntry params = hits params instShiftAmt ltable pc ∧
      (getLoop params instShiftAmt ltable pc {} true).2.currentIter = 0 := by
  have fresh : (locate params instShiftAmt pc {}).loopHit = none ∧ (locate params instShiftAmt pc {}).currentIter = 0 := by
    unfold locate
    split <;> exact ⟨rfl, rfl⟩
  unfold getLoop hits
  cases found : (locate params instShiftAmt pc {}).findWay params ltable with
  | none => simp [found, BranchInfo.hitEntry, fresh]
  | some way => simp [found, BranchInfo.hitEntry, fresh, BranchInfo.place]

theorem squash_apply : squash params ltable bi index =
    if bi.hitEntry params = some index then { ltable index with currentIterSpec := bi.currentIter } else ltable index := by
  unfold squash
  cases hit : bi.hitEntry params with
  | none => simp
  | some place =>
    by_cases same : index = place
    · simp [same]
    · simp [same, Ne.symm same]

/-- A speculative update changes at most the iteration count of the entry that was hit. -/
theorem specLoopUpdate_apply {taken : Bool} : ∃ count, specLoopUpdate params ltable bi taken index =
    if bi.hitEntry params = some index then { ltable index with currentIterSpec := count } else ltable index := by
  unfold specLoopUpdate
  cases hit : bi.hitEntry params with
  | none => exact ⟨0, rfl⟩
  | some place =>
    by_cases same : place = index
    · subst same
      exact ⟨_, by rw [if_pos rfl]; exact update_self _ _ _⟩
    · exact ⟨0, by rw [if_neg (by simpa using same)]; exact update_of_ne (Ne.symm same) _ _⟩

section Speculation
variable (speculative : params.useSpeculation = true) (loopUseCounter : Int)
include speculative

/-- A prediction with a new record changes at most the iteration count of the entry that the branch hits. -/
theorem loopPredict_new (instShiftAmt : Nat) (ltable : Table) (pc : Nat) (prevPredTaken : Bool) : ∃ taken bi after,
    loopPredict params instShiftAmt ltable pc {} loopUseCounter true prevPredTaken = (taken, bi, after) ∧
    bi.hitEntry params = hits params instShiftAmt ltable pc ∧ bi.currentIter = 0 ∧
    ∀ index, ∃ count, after index = if hits params instShiftAmt ltable pc = some index
      then { ltable index with currentIterSpec := count } else ltable index := by
  obtain ⟨hit, zero⟩ := getLoop_record params instShiftAmt ltable pc
  refine ⟨_, _, _, rfl, ?_⟩
  simp only [if_true, speculative]
  rw [← hit]
  exact ⟨rfl, zero, fun index => specLoopUpdate_apply⟩

/-- The squashes leave zero in the entries that the branches have hit and do not change the others. -/
theorem predictAndSquash_apply (branches : List (Nat × Bool)) (ltable : Table) (index : Nat) :
    predictAndSquash params instShiftAmt ltable loopUseCounter branches index =
      if ∃ branch ∈ branches, hits params instShiftAmt ltable branch.1 = some index
      then { ltable index with currentIterSpec := 0 } else ltable index := by
  induction branches generalizing ltable with
  | nil => simp [predictAndSquash, predictAll]
  | cons branch later ih =>
    obtain ⟨taken, bi, after, predicted, hit, zero, changed⟩ :=
      loopPredict_new speculative loopUseCounter instShiftAmt ltable branch.1 branch.2
    have sameHits : hits params instShiftAmt after = hits params instShiftAmt ltable := by
      apply hits_congr
      intro place
      obtain ⟨count, equal⟩ := changed place
      rw [equal]
      split <;> rfl
    have last : predictAndSquash params instShiftAmt ltable loopUseCounter (branch :: later) =
        squash params (predictAndSquash params instShiftAmt after loopUseCounter later) bi := by
      simp only [predictAndSquash, predictAll, predicted, foldl_append, foldl_cons, foldl_nil]
    simp only [last, squash_apply, ih, hit, zero, sameHits, mem_cons, exists_eq_or_imp]
    obtain ⟨count, equal⟩ := changed index
    by_cases here : hits params instShiftAmt ltable branch.1 = some index
    · rw [if_pos here] at equal
      rw [if_pos here, if_pos (Or.inl here), equal]
      split <;> rfl
    · rw [if_neg here] at equal
      simp only [here, if_false, false_or, equal]

/-- Branches that are predicted and then squashed leave every speculative iteration count as it was exactly if they hit
entries with the count zero. -/
theorem predictAndSquash_restores (branches : List (Nat × Bool)) (ltable : Table) :
    (∀ index, (predictAndSquash params instShiftAmt ltable loopUseCounter branches index).currentIterSpec =
      (ltable index).currentIterSpec) ↔
    ∀ branch ∈ branches, ∀ index, hits params instShiftAmt ltable branch.1 = some index →
      (ltable index).currentIterSpec = 0 := by
  simp only [predictAndSquash_apply speculative]
  constructor
  · intro restored branch member index hit
    have equal := restored index
    rw [if_pos ⟨branch, member, hit⟩] at equal
    exact equal.symm
  · intro zero index
    split
    · next found =>
        obtain ⟨branch, member, hit⟩ := found
        exact (zero branch member index hit).symm
    · rfl

end Speculation

/-- Four entries of one set with tags of two bits. -/
def sampleParams : Params := ⟨2, 1, 2, 4, 2, false, true, false, by decide, by decide, by decide⟩

/-- Two branches that hit an entry with the count zero are squashed. -/
theorem predictAndSquash_restores_two : hits sampleParams 2 (fun _ => {}) 16 = some 0 ∧
    ∀ index, (predictAndSquash sampleParams 2 (fun _ => {}) 0 [(16, true), (16, true)] index).currentIterSpec = 0 :=
  ⟨by decide, (predictAndSquash_restores rfl 0 _ _).mpr fun _ _ _ _ => rfl⟩

/-- A squashed branch leaves the count zero in an entry with the count three. -/
theorem predictAndSquash_three :
    (predictAndSquash sampleParams 2 (fun _ => { currentIterSpec := 3 }) 0 [(16, true)] 0).currentIterSpec = 0 := by
  decide

end Gem5.LoopPredictor
