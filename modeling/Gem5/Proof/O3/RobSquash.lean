import Gem5.Construction.O3.Rob
import Gem5.ToMathlib.Sorted

namespace Gem5.O3
open ToMathlib Function

namespace Rob
variable {numThreads : Nat} {rob middle next : Rob numThreads} {tid other : Fin numThreads}
  {seqNum it : Nat} {status : InstStatus}

/-- A squashed instruction may drain out of the pipeline. -/
def Marked (rob : Rob numThreads) (tid : Fin numThreads) (seqNum : Nat) : Prop :=
  (rob.status tid seqNum).squashed = true ∧ (rob.status tid seqNum).canCommit = true

/-- An instruction is up to the squash point or behind the squash iterator. -/
def Beside (rob : Rob numThreads) (tid : Fin numThreads) (seqNum : Nat) : Prop :=
  seqNum ≤ rob.squashedSeqNum tid ∨ ∀ it, rob.squashIt tid = some it → it < seqNum

/-- A property of all bits is kept if the changed instruction has it. -/
theorem status_setStatus {p : InstStatus → Prop} {number : Nat} (old : p (rob.status other number))
    (new : other = tid → number = seqNum → p status) : p ((rob.setStatus tid seqNum status).status other number) := by
  unfold setStatus
  by_cases thread : other = tid
  · subst thread
    by_cases same : number = seqNum
    · simpa [same] using new rfl same
    · simpa [same] using old
  · simpa [thread] using old

/-- A squash of a thread marks instructions after its number and moves its iterator. -/
structure Marks (tid : Fin numThreads) (rob next : Rob numThreads) : Prop where
  numEntries : next.numEntries = rob.numEntries
  squashWidth : next.squashWidth = rob.squashWidth
  instList : next.instList = rob.instList
  numInstsInROB : next.numInstsInROB = rob.numInstsInROB
  threadEntries : next.threadEntries = rob.threadEntries
  squashedSeqNum : next.squashedSeqNum = rob.squashedSeqNum
  others : ∀ other, other ≠ tid → next.squashIt other = rob.squashIt other ∧
    next.doneSquashing other = rob.doneSquashing other ∧ next.status other = rob.status other
  grows : ∀ seqNum, rob.Marked tid seqNum → next.Marked tid seqNum
  kept : ∀ seqNum, rob.Beside tid seqNum → next.status tid seqNum = rob.status tid seqNum ∧ next.Beside tid seqNum

namespace Marks

theorem refl (rob : Rob numThreads) : Marks tid rob rob :=
  ⟨rfl, rfl, rfl, rfl, rfl, rfl, fun _ _ => ⟨rfl, rfl, rfl⟩, fun _ marked => marked, fun _ beside => ⟨rfl, beside⟩⟩

theorem shape (marks : Marks tid rob next) : ∃ activeThreads status squashIt doneSquashing robStatus head tail,
    next = { rob with activeThreads, status, squashIt, doneSquashing, robStatus, head, tail } := by
  cases next
  rcases marks with ⟨rfl, rfl, rfl, rfl, rfl, rfl, _⟩
  exact ⟨_, _, _, _, _, _, _, rfl⟩

theorem trans (first : Marks tid rob middle) (second : Marks tid middle next) : Marks tid rob next := by
  obtain ⟨_, _, _, _, _, _, _, rfl⟩ := first.shape
  refine { second with others := ?_, grows := ?_, kept := ?_ }
  · intro other different
    obtain ⟨it, done, status⟩ := second.others other different
    rw [it, done, status]
    exact first.others other different
  · intro seqNum marked
    exact second.grows seqNum (first.grows seqNum marked)
  · intro seqNum beside
    obtain ⟨same, still⟩ := first.kept seqNum beside
    exact (second.kept seqNum still).imp_left (·.trans same)

theorem setSquashIt {previous : Nat} (points : rob.squashIt tid = some it) (back : previous ≤ it) :
    Marks tid rob (rob.setSquashIt tid (some previous)) := by
  refine ⟨rfl, rfl, rfl, rfl, rfl, rfl, fun _ different => ⟨update_of_ne different _ _, rfl, rfl⟩,
    fun _ marked => marked, fun number beside => ⟨rfl, beside.imp_right fun later cut found => ?_⟩⟩
  obtain rfl : previous = cut := by simpa [Rob.setSquashIt] using found
  exact back.trans_lt (later it points)

theorem finishSquash : Marks tid rob (rob.finishSquash tid) :=
  ⟨rfl, rfl, rfl, rfl, rfl, rfl, fun _ different => ⟨update_of_ne different _ _, update_of_ne different _ _, rfl⟩,
    fun _ marked => marked, fun _ _ => ⟨rfl, .inr fun it found => by simp [Rob.finishSquash, Rob.setSquashIt] at found⟩⟩

theorem markSquashed (points : rob.squashIt tid = some seqNum) (late : rob.squashedSeqNum tid < seqNum) :
    Marks tid rob (rob.markSquashed tid seqNum) := by
  refine ⟨rfl, rfl, rfl, rfl, rfl, rfl, fun _ different => ⟨rfl, rfl, update_of_ne different _ _⟩, ?_, ?_⟩
  · intro number marked
    exact status_setStatus (p := fun status => status.squashed = true ∧ status.canCommit = true) marked
      fun _ _ => ⟨rfl, rfl⟩
  · intro number beside
    refine ⟨status_setStatus (p := (· = rob.status tid number)) rfl ?_, beside⟩
    rintro - rfl
    rcases beside with early | behind
    · omega
    · exact absurd (behind number points) (lt_irrefl number)

end Marks

theorem tailed_eq (updated : Bool) (rob : Rob numThreads) :
    ∃ tail, (if updated then rob.updateTail else rob) = { rob with tail } := by
  split <;> exact ⟨_, rfl⟩

theorem marked_markSquashed : (rob.markSquashed tid seqNum).Marked tid seqNum := by
  simp [Marked, markSquashed, setStatus]

theorem squashInst_eq (points : rob.squashIt tid = some it) (member : it ∈ rob.instList tid) :
    rob.squashInst tid = .ok it := by
  simp [squashInst, points, member]

/-- The squash loop leaves at the first instruction of the list, or it stops at an instruction because it reached
the squash point or its limit. -/
inductive LoopEnd (tid : Fin numThreads) (rob : Rob numThreads) (it limit : Nat) : Bool → Rob numThreads → Prop
  | head {next : Rob numThreads} (marks : Marks tid rob next) (done : next.doneSquashing tid = true)
      (points : next.squashIt tid = none)
      (all : ∀ seqNum ∈ rob.instList tid, seqNum ≤ it → next.Marked tid seqNum) : LoopEnd tid rob it limit true next
  | stopped {next : Rob numThreads} {cut : Nat} (marks : Marks tid rob next)
      (done : next.doneSquashing tid = rob.doneSquashing tid) (points : next.squashIt tid = some cut)
      (member : cut ∈ rob.instList tid)
      (between : ∀ seqNum ∈ rob.instList tid, cut < seqNum → seqNum ≤ it → next.Marked tid seqNum)
      (progress : cut ≤ rob.squashedSeqNum tid ∨ limit + (rob.instList tid).countP (fun seqNum => it < seqNum) ≤
          (rob.instList tid).countP (fun seqNum => cut < seqNum)) : LoopEnd tid rob it limit false next

/-- One more turn of the loop before its other turns. -/
theorem LoopEnd.extend {limit previous : Nat} {returned : Bool} (ending : LoopEnd tid middle previous limit returned next)
    (moved : Marks tid rob middle) (same : middle.doneSquashing tid = rob.doneSquashing tid)
    (marked : middle.Marked tid it) (smaller : previous < it)
    (closest : ∀ seqNum ∈ rob.instList tid, previous < seqNum → it ≤ seqNum)
    (count : (rob.instList tid).countP (fun seqNum => previous < seqNum) =
      (rob.instList tid).countP (fun seqNum => it < seqNum) + 1) :
    LoopEnd tid rob it (limit + 1) returned next := by
  obtain ⟨_, _, _, _, _, _, _, rfl⟩ := moved.shape
  cases ending with
  | head marks done points all =>
    refine .head (moved.trans marks) done points ?_
    intro seqNum inside below
    by_cases early : seqNum ≤ previous
    · exact all seqNum inside early
    · obtain rfl : seqNum = it := le_antisymm below (closest seqNum inside (by omega))
      exact marks.grows seqNum marked
  | stopped marks done points member between progress =>
    refine .stopped (moved.trans marks) (done.trans same) points member ?_ ?_
    · intro seqNum inside above below
      by_cases early : seqNum ≤ previous
      · exact between seqNum inside above early
      · obtain rfl : seqNum = it := le_antisymm below (closest seqNum inside (by omega))
        exact marks.grows seqNum marked
    · dsimp only at progress
      rw [count] at progress
      rcases progress with reached | limited
      · exact .inl reached
      · exact .inr (by omega)

/-- The squash loop walks from its instruction back to the squash point and always ends in one of these ways. -/
theorem squashLoop_spec (limit : Nat) (robTailUpdate : Bool) (sorted : (rob.instList tid).Pairwise (· < ·))
    (points : rob.squashIt tid = some it) (member : it ∈ rob.instList tid) :
    ∃ returned updated next, squashLoop tid limit robTailUpdate rob = .ok (returned, updated, next) ∧
      LoopEnd tid rob it limit returned next := by
  induction limit generalizing rob it robTailUpdate with
  | zero =>
    refine ⟨false, robTailUpdate, rob, rfl, .stopped (.refl rob) rfl points member ?_ (.inr (by omega))⟩
    intro seqNum _ above below
    omega
  | succ limit ih =>
    rw [squashLoop, if_neg (by simp [points]), squashInst_eq points member, ok_bind]
    by_cases late : rob.squashedSeqNum tid < it
    · rw [if_pos late]
      have marks := Marks.markSquashed points late
      by_cases first : (rob.instList tid).head? = some it
      · rw [if_pos (by exact first)]
        refine ⟨true, robTailUpdate, _, rfl, .head (marks.trans .finishSquash) ?_ ?_ ?_⟩
        · simp [finishSquash]
        · simp [finishSquash, setSquashIt]
        · intro seqNum inside below
          obtain rfl : seqNum = it := le_antisymm below (head_le_of_mem sorted first inside)
          exact marked_markSquashed
      · rw [if_neg (by exact first)]
        obtain ⟨previous, found, inside, smaller, closest, count⟩ := exists_previous sorted member first
        have moved := marks.trans (.setSquashIt (by exact points) smaller.le)
        have pointed : (rob.markSquashed tid it).previous tid it = some previous := found
        rw [pointed]
        obtain ⟨returned, updated, next, done, ending⟩ :=
          ih _ (by rw [moved.instList]; exact sorted) (update_self _ _ _) (by exact inside)
        exact ⟨returned, updated, next, done, ending.extend moved rfl marked_markSquashed smaller closest count⟩
    · rw [if_neg late]
      refine ⟨false, robTailUpdate, rob, rfl, .stopped (.refl rob) rfl points member ?_ (.inl (by omega))⟩
      intro seqNum _ above below
      omega

/-- A squash step is done after everything up to the squash point is marked, or it stops after its limit. -/
inductive StepEnd (tid : Fin numThreads) (rob : Rob numThreads) (it limit : Nat) (next : Rob numThreads) : Prop
  | done (marks : Marks tid rob next) (done : next.doneSquashing tid = true)
      (all : ∀ seqNum ∈ rob.instList tid, rob.squashedSeqNum tid < seqNum → seqNum ≤ it → next.Marked tid seqNum)
  | stopped (cut : Nat) (marks : Marks tid rob next) (done : next.doneSquashing tid = false)
      (points : next.squashIt tid = some cut) (member : cut ∈ rob.instList tid)
      (late : rob.squashedSeqNum tid < cut)
      (between : ∀ seqNum ∈ rob.instList tid, cut < seqNum → seqNum ≤ it → next.Marked tid seqNum)
      (progress : limit + (rob.instList tid).countP (fun seqNum => it < seqNum) ≤
        (rob.instList tid).countP (fun seqNum => cut < seqNum))

/-- A squash step at an instruction of its list never fails. -/
theorem doSquash_spec (isThreadExiting : Bool) (sorted : (rob.instList tid).Pairwise (· < ·))
    (busy : rob.doneSquashing tid = false) (points : rob.squashIt tid = some it) (member : it ∈ rob.instList tid) :
    ∃ next, rob.doSquash tid isThreadExiting = .ok next ∧
      StepEnd tid rob it (if isThreadExiting then rob.numEntries else rob.squashWidth) next := by
  rw [doSquash, assert_of (by simp [points]), ok_bind, squashInst_eq points member, ok_bind]
  by_cases passed : it < rob.squashedSeqNum tid
  · rw [if_pos passed]
    refine ⟨_, rfl, .done .finishSquash (update_self _ _ _) ?_⟩
    intro seqNum _ late early
    omega
  · rw [if_neg passed]
    generalize (if isThreadExiting then rob.numEntries else rob.squashWidth) = limit
    obtain ⟨returned, updated, next, looped, ending⟩ := squashLoop_spec limit false sorted points member
    dsimp only
    rw [looped, ok_bind]
    cases ending with
    | head marks done points all =>
      refine ⟨next, rfl, .done marks done ?_⟩
      intro seqNum inside _ below
      exact all seqNum inside below
    | @stopped _ cut marks done points member between progress =>
      have here : next.squashInst tid = .ok cut := squashInst_eq points (by rw [marks.instList]; exact member)
      rw [if_neg (by simp), here, ok_bind]
      by_cases reached : cut ≤ next.squashedSeqNum tid
      · obtain ⟨tail, tailed⟩ := tailed_eq updated (next.finishSquash tid)
        rw [if_pos reached, tailed]
        have finished : Marks tid rob (next.finishSquash tid) := marks.trans .finishSquash
        refine ⟨_, rfl, .done { finished with } (update_self _ _ _) ?_⟩
        intro seqNum inside late below
        rw [marks.squashedSeqNum] at reached
        exact between seqNum inside (by omega) below
      · obtain ⟨tail, tailed⟩ := tailed_eq updated next
        rw [if_neg reached, tailed]
        rw [marks.squashedSeqNum] at reached
        exact ⟨_, rfl, .stopped cut { marks with } (done.trans busy) points member (by omega) between (by omega)⟩

end Rob
end Gem5.O3
