import Gem5.Proof.O3.RobSquash

namespace Gem5.O3
open ToMathlib Function List

namespace Rob
variable {numThreads : Nat} {rob next : Rob numThreads} {tid other : Fin numThreads} {seqNum : Nat} {squashNum : Nat}

/-- The counters match the sorted lists, and a thread that squashes points to one of its instructions. -/
structure Sound (rob : Rob numThreads) : Prop where
  total : rob.numInstsInROB = ∑ tid, (rob.instList tid).length
  entries : ∀ tid, rob.threadEntries tid = (rob.instList tid).length
  sorted : ∀ tid, (rob.instList tid).Pairwise (· < ·)
  room : rob.numInstsInROB ≤ rob.numEntries
  pointing : ∀ tid, rob.doneSquashing tid = false → ∃ it ∈ rob.instList tid, rob.squashIt tid = some it

theorem StepEnd.marks {it limit : Nat} (ending : StepEnd tid rob it limit next) : Marks tid rob next := by
  cases ending with
  | done marks done all | stopped cut marks done points member late between progress => exact marks

/-- The state in which `ROB::squash` first calls `ROB::doSquash`. -/
def started (rob : Rob numThreads) (squashNum : Nat) (tid : Fin numThreads) : Rob numThreads :=
  { rob with
    robStatus := update rob.robStatus tid .robSquashing
    doneSquashing := update rob.doneSquashing tid false
    squashedSeqNum := update rob.squashedSeqNum tid squashNum
    squashIt := update rob.squashIt tid (rob.instList tid).getLast? }

theorem started_busy : (rob.started squashNum tid).doneSquashing tid = false := update_self _ _ _

namespace Sound

theorem initial {numEntries squashWidth : Nat} {activeThreads : List (Fin numThreads)}
    {status : Fin numThreads → Nat → InstStatus} {robStatus : Fin numThreads → RobStatus} :
    (Rob.initial numEntries squashWidth activeThreads status robStatus).Sound := by
  refine ⟨?_, fun _ => rfl, fun _ => .nil, Nat.zero_le _, nofun⟩
  simp [Rob.initial]

section
variable (sound : rob.Sound)
include sound

theorem length_le (tid : Fin numThreads) : (rob.instList tid).length ≤ rob.numEntries := by
  have part := le_sum length rob.instList tid
  have total := sound.total
  have room := sound.room
  omega

theorem stepEnd {it limit : Nat} (ending : StepEnd tid rob it limit next) : next.Sound := by
  have marks := ending.marks
  obtain ⟨_, _, _, _, _, _, _, rfl⟩ := marks.shape
  refine { sound with pointing := ?_ }
  intro other busy
  by_cases same : other = tid
  · subst same
    cases ending with
    | done marks done all => cases done.symm.trans busy
    | stopped cut marks done points member late between progress => exact ⟨cut, member, points⟩
  · obtain ⟨it, done, _⟩ := marks.others other same
    rw [done] at busy
    rw [it]
    exact sound.pointing other busy

/-- A thread that squashes can always take the next squash step. -/
theorem doSquash (isThreadExiting : Bool) (busy : rob.doneSquashing tid = false) :
    ∃ it next, it ∈ rob.instList tid ∧ rob.squashIt tid = some it ∧ rob.doSquash tid isThreadExiting = .ok next ∧
      StepEnd tid rob it (if isThreadExiting then rob.numEntries else rob.squashWidth) next := by
  obtain ⟨it, member, points⟩ := sound.pointing tid busy
  obtain ⟨next, done, ending⟩ := doSquash_spec isThreadExiting (sound.sorted tid) busy points member
  exact ⟨it, next, member, points, done, ending⟩

theorem started (squashNum : Nat) (nonempty : rob.instList tid ≠ []) : (rob.started squashNum tid).Sound := by
  refine { sound with pointing := ?_ }
  intro other busy
  change ∃ it ∈ rob.instList other, update rob.squashIt tid (rob.instList tid).getLast? other = some it
  by_cases same : other = tid
  · subst same
    rw [update_self]
    exact ⟨_, getLast_mem nonempty, getLast?_eq_some_getLast nonempty⟩
  · rw [update_of_ne same]
    apply sound.pointing other
    change update rob.doneSquashing tid false other = false at busy
    rw [update_of_ne same] at busy
    exact busy

end

end Sound

/-- A squash does nothing to an empty list, and otherwise it prepares its thread and takes a step from the end. -/
theorem Sound.squash_spec (sound : rob.Sound) (squashNum : Nat) (tid : Fin numThreads) (isThreadExiting : Bool) :
    ∃ next, rob.squash squashNum tid isThreadExiting = .ok next ∧ (rob.instList tid = [] ∧ next = rob ∨
      ∃ nonempty : rob.instList tid ≠ [], (rob.started squashNum tid).Sound ∧
        StepEnd tid (rob.started squashNum tid) ((rob.instList tid).getLast nonempty)
          (if isThreadExiting then rob.numEntries else rob.squashWidth) next) := by
  have counted := sound.entries tid
  by_cases empty : rob.instList tid = []
  · exact ⟨rob, by rw [squash, if_pos (by rw [counted, empty]; rfl)], .inl ⟨empty, rfl⟩⟩
  have positive := length_pos_iff.mpr empty
  have begun := sound.started squashNum empty
  obtain ⟨it, next, _, points, done, ending⟩ := begun.doSquash isThreadExiting started_busy
  have last : (rob.started squashNum tid).squashIt tid = some ((rob.instList tid).getLast empty) := by
    rw [← getLast?_eq_some_getLast empty]
    exact update_self _ _ _
  cases last.symm.trans points
  refine ⟨next, ?_, .inr ⟨empty, begun, ending⟩⟩
  rw [squash, if_neg (by omega), if_neg empty]
  exact done

/-- What all steps other than the squashes of a thread do to it. -/
structure Quiet (tid : Fin numThreads) (rob next : Rob numThreads) : Prop where
  squashWidth : next.squashWidth = rob.squashWidth
  squashIt : next.squashIt tid = rob.squashIt tid
  squashedSeqNum : next.squashedSeqNum tid = rob.squashedSeqNum tid
  doneSquashing : next.doneSquashing tid = rob.doneSquashing tid
  instList : rob.doneSquashing tid = false → ∃ inserted, next.instList tid = rob.instList tid ++ inserted
  grows : ∀ seqNum, rob.Marked tid seqNum → next.Marked tid seqNum

theorem Quiet.refl (rob : Rob numThreads) : Quiet tid rob rob :=
  ⟨rfl, rfl, rfl, rfl, fun _ => ⟨[], (append_nil _).symm⟩, fun _ marked => marked⟩

theorem Marks.quiet (marks : Marks other rob next) (different : tid ≠ other) : Quiet tid rob next := by
  obtain ⟨it, done, status⟩ := marks.others tid different
  obtain ⟨_, _, _, _, _, _, _, rfl⟩ := marks.shape
  refine ⟨rfl, it, rfl, done, fun _ => ⟨[], (append_nil _).symm⟩, ?_⟩
  intro seqNum marked
  rw [Marked, status]
  exact marked

/-- The bits of an instruction that a squash sets. -/
def flags (rob : Rob numThreads) (tid : Fin numThreads) (seqNum : Nat) : Bool × Bool :=
  ((rob.status tid seqNum).squashed, (rob.status tid seqNum).canCommit)

theorem marked_iff_flags : rob.Marked tid seqNum ↔ rob.flags tid seqNum = (true, true) := by
  simp [Marked, flags]

theorem flags_setStatus {number : Nat} {status : InstStatus}
    (squashed : status.squashed = (rob.status other seqNum).squashed)
    (canCommit : status.canCommit = (rob.status other seqNum).canCommit) :
    (rob.setStatus other seqNum status).flags tid number = rob.flags tid number := by
  apply status_setStatus (p := fun status => (status.squashed, status.canCommit) = rob.flags tid number) rfl
  rintro rfl rfl
  rw [squashed, canCommit, flags]

/-- An insertion or a retirement gives a thread a new list and leaves all flags. -/
structure Moved (tid : Fin numThreads) (insts : List Nat) (rob next : Rob numThreads) : Prop where
  numEntries : next.numEntries = rob.numEntries
  squashWidth : next.squashWidth = rob.squashWidth
  squashIt : next.squashIt = rob.squashIt
  squashedSeqNum : next.squashedSeqNum = rob.squashedSeqNum
  doneSquashing : next.doneSquashing = rob.doneSquashing
  instList : next.instList = update rob.instList tid insts
  flags : ∀ other seqNum, next.flags other seqNum = rob.flags other seqNum

theorem insertInst_moves (done : rob.insertInst tid seqNum = .ok next) :
    Moved tid (rob.instList tid ++ [seqNum]) rob next ∧ rob.numInstsInROB ≠ rob.numEntries ∧
      next.numInstsInROB = rob.numInstsInROB + 1 ∧
      next.threadEntries = update rob.threadEntries tid (rob.threadEntries tid + 1) := by
  obtain ⟨room, done⟩ := assert_bind_eq_ok.mp done
  cases (assert_bind_eq_ok.mp (assert_bind_eq_ok.mp done).2).2
  exact ⟨⟨rfl, rfl, rfl, rfl, rfl, rfl, fun _ _ => flags_setStatus rfl rfl⟩, room, rfl, rfl⟩

theorem retireHead_moves (done : rob.retireHead tid = .ok next) :
    ∃ first rest, rob.instList tid = first :: rest ∧ Moved tid rest rob next ∧
      next.numInstsInROB = rob.numInstsInROB - 1 ∧
      next.threadEntries = update rob.threadEntries tid (rob.threadEntries tid - 1) := by
  obtain ⟨_, done⟩ := assert_bind_eq_ok.mp done
  split at done
  · simp at done
  · next first rest shape =>
      cases (assert_bind_eq_ok.mp done).2
      exact ⟨first, rest, shape, ⟨rfl, rfl, rfl, rfl, rfl, rfl, fun _ _ => flags_setStatus rfl rfl⟩, rfl, rfl⟩

/-- A new list is quiet for a thread if the list grows while the thread squashes. -/
theorem Moved.quiet {insts : List Nat} (moved : Moved other insts rob next)
    (grows : rob.doneSquashing other = false → ∃ inserted, insts = rob.instList other ++ inserted) :
    Quiet tid rob next := by
  refine ⟨moved.squashWidth, by rw [moved.squashIt], by rw [moved.squashedSeqNum], by rw [moved.doneSquashing], ?_, ?_⟩
  · intro busy
    rw [moved.instList]
    by_cases same : tid = other
    · subst same
      rw [update_self]
      exact grows busy
    · rw [update_of_ne same]
      exact ⟨[], (append_nil _).symm⟩
  · intro seqNum marked
    rw [marked_iff_flags] at marked ⊢
    rw [moved.flags, marked]

section
variable (sound : rob.Sound)
include sound

/-- The counters of a thread follow its new list. -/
theorem Sound.moved {insts : List Nat} (moved : Moved tid insts rob next)
    (total : next.numInstsInROB + (rob.instList tid).length = rob.numInstsInROB + insts.length)
    (entries : next.threadEntries = update rob.threadEntries tid insts.length)
    (room : next.numInstsInROB ≤ rob.numEntries) (sorted : insts.Pairwise (· < ·))
    (points : rob.doneSquashing tid = false → ∀ it ∈ rob.instList tid, it ∈ insts) : next.Sound := by
  constructor
  · have sums := sum_update length rob.instList tid insts
    have before := sound.total
    rw [moved.instList]
    omega
  · intro other
    rw [entries, moved.instList, apply_update fun _ => length, funext sound.entries]
  · rw [moved.instList]
    exact (forall_update_iff rob.instList fun _ insts => insts.Pairwise (· < ·)).mpr
      ⟨sorted, fun other _ => sound.sorted other⟩
  · rw [moved.numEntries]
    exact room
  · intro other busy
    rw [moved.doneSquashing] at busy
    obtain ⟨it, member, pointed⟩ := sound.pointing other busy
    rw [moved.instList, moved.squashIt]
    refine ⟨it, ?_, pointed⟩
    by_cases same : other = tid
    · subst same
      rw [update_self]
      exact points busy it member
    · rw [update_of_ne same]
      exact member

theorem Sound.inserted (youngest : ∀ older ∈ rob.instList tid, older < seqNum)
    (done : rob.insertInst tid seqNum = .ok next) : next.Sound := by
  obtain ⟨moved, full, total, entries⟩ := insertInst_moves done
  have room := sound.room
  have counted := sound.entries tid
  apply sound.moved moved
  · rw [total, length_append, length_singleton]
    omega
  · rw [entries, counted, length_append, length_singleton]
  · omega
  · rw [List.pairwise_append]
    refine ⟨sound.sorted tid, pairwise_singleton _ _, ?_⟩
    intro older inside new same
    rw [mem_singleton.mp same]
    exact youngest older inside
  · intro _ it member
    exact mem_append_left _ member

theorem Sound.retired (free : rob.doneSquashing tid = true) (done : rob.retireHead tid = .ok next) : next.Sound := by
  obtain ⟨first, rest, shape, moved, total, entries⟩ := retireHead_moves done
  have room := sound.room
  have counted := sound.entries tid
  have part := le_sum length rob.instList tid
  have sum := sound.total
  have sorted := sound.sorted tid
  rw [shape] at sorted
  rw [shape, length_cons] at counted part
  apply sound.moved moved
  · rw [total, shape, length_cons]
    omega
  · rw [entries, counted, Nat.add_sub_cancel]
  · omega
  · exact (pairwise_cons.mp sorted).2
  · intro busy
    simp [free] at busy

theorem Sound.step {op : RobOp numThreads} (allowed : rob.guard op) (stepped : rob.step op = .ok next) :
    next.Sound ∧ next.squashWidth = rob.squashWidth := by
  cases op with
  | insertInst tid seqNum => exact ⟨sound.inserted allowed stepped, (insertInst_moves stepped).1.squashWidth⟩
  | retireHead tid =>
    obtain ⟨_, _, _, moved, _⟩ := retireHead_moves stepped
    exact ⟨sound.retired allowed stepped, moved.squashWidth⟩
  | squash squashNum tid isThreadExiting =>
    obtain ⟨_, done, ended⟩ := sound.squash_spec squashNum tid isThreadExiting
    cases done.symm.trans stepped
    rcases ended with ⟨_, rfl⟩ | ⟨_, begun, ending⟩
    · exact ⟨sound, rfl⟩
    · exact ⟨begun.stepEnd ending, ending.marks.squashWidth⟩
  | doSquash tid isThreadExiting =>
    obtain ⟨_, _, _, _, done, ending⟩ := sound.doSquash isThreadExiting allowed
    cases done.symm.trans stepped
    exact ⟨sound.stepEnd ending, ending.marks.squashWidth⟩
  | mark tid seqNum squashed canCommit =>
    cases stepped
    exact ⟨{ sound with }, rfl⟩

end

/-- A squash of a thread under way has marked a suffix of the instructions that were there at its start. -/
structure Squashing (insts : List Nat) (squashNum : Nat) (tid : Fin numThreads) (calls : Nat)
    (rob : Rob numThreads) : Prop where
  busy : rob.doneSquashing tid = false → rob.squashedSeqNum tid = squashNum ∧ ∃ it inserted,
    rob.squashIt tid = some it ∧ rob.instList tid = insts ++ inserted ∧ it ∈ insts ∧
    squashNum < it ∧ (∀ seqNum ∈ insts, it < seqNum → rob.Marked tid seqNum) ∧
    calls * rob.squashWidth ≤ insts.countP (fun seqNum => it < seqNum)
  done : rob.doneSquashing tid = true → ∀ seqNum ∈ insts, squashNum < seqNum → rob.Marked tid seqNum

namespace Squashing
variable {squashNum calls : Nat} {insts : List Nat} {isThreadExiting : Bool}

/-- Quiet steps keep the progress of a squash. -/
theorem quiet (squashing : Squashing insts squashNum tid calls rob) (quiet : Quiet tid rob next) :
    Squashing insts squashNum tid calls next := by
  constructor
  · intro busy
    rw [quiet.doneSquashing] at busy
    obtain ⟨number, it, inserted, points, list, member, late, marked, progress⟩ := squashing.busy busy
    obtain ⟨more, grown⟩ := quiet.instList busy
    rw [quiet.squashedSeqNum, quiet.squashIt, quiet.squashWidth]
    refine ⟨number, it, inserted ++ more, points, ?_, member, late, ?_, progress⟩
    · rw [grown, list, append_assoc]
    · intro seqNum inside above
      exact quiet.grows seqNum (marked seqNum inside above)
  · intro finished seqNum inside late
    rw [quiet.doneSquashing] at finished
    exact quiet.grows seqNum (squashing.done finished seqNum inside late)

/-- Instructions that came later stand after every instruction that was there at the start. -/
theorem countP_append {inserted : List Nat} {bound : Nat} (sorted : (insts ++ inserted).Pairwise (· < ·))
    (member : bound ∈ insts) :
    (insts ++ inserted).countP (fun seqNum => bound < seqNum) =
      insts.countP (fun seqNum => bound < seqNum) + inserted.length := by
  have later : inserted.countP (fun seqNum => bound < seqNum) = inserted.length := by
    rw [countP_eq_length]
    intro seqNum inside
    simpa using (List.pairwise_append.mp sorted).2.2 bound member seqNum inside
  rw [List.countP_append, later]

/-- One squash step marks as many instructions as the width allows or is done. -/
theorem stepEnd {it : Nat} {inserted : List Nat} (sound : rob.Sound) (number : rob.squashedSeqNum tid = squashNum)
    (list : rob.instList tid = insts ++ inserted) (member : it ∈ insts)
    (marked : ∀ seqNum ∈ insts, it < seqNum → rob.Marked tid seqNum)
    (progress : calls * rob.squashWidth ≤ insts.countP (fun seqNum => it < seqNum))
    (ending : StepEnd tid rob it (if isThreadExiting then rob.numEntries else rob.squashWidth) next) :
    Squashing insts squashNum tid (calls + 1) next := by
  have inList : ∀ seqNum ∈ insts, seqNum ∈ rob.instList tid := by
    intro seqNum inside
    rw [list]
    exact mem_append_left _ inside
  cases ending with
  | done marks done all =>
    constructor
    · intro busy
      simp [done] at busy
    · intro _ seqNum inside late
      by_cases below : seqNum ≤ it
      · exact all seqNum (inList seqNum inside) (by rw [number]; exact late) below
      · exact marks.grows seqNum (marked seqNum inside (by omega))
  | stopped cut marks done points cutMember late between stopped =>
    have sorted := sound.sorted tid
    have short := sound.length_le tid
    have fewer : (rob.instList tid).countP (fun seqNum => cut < seqNum) < (rob.instList tid).length := by
      rw [countP_lt_length_iff]
      exact ⟨cut, cutMember, by simp⟩
    have below : cut ≤ it := by
      by_contra above
      have shrinks := countP_lt_of_mem cutMember (not_le.mp above)
      omega
    rw [list] at sorted cutMember stopped fewer short
    have early : cut ∈ insts := by
      rcases mem_append.mp cutMember with inside | after
      · exact inside
      · have apart := (List.pairwise_append.mp sorted).2.2 it member cut after
        omega
    rw [countP_append sorted member, countP_append sorted early] at stopped
    have width : rob.squashWidth + insts.countP (fun seqNum => it < seqNum) ≤
        insts.countP (fun seqNum => cut < seqNum) := by
      cases isThreadExiting with
      | true =>
        rw [countP_append sorted early] at fewer
        rw [if_pos rfl] at stopped
        omega
      | false =>
        rw [if_neg (by simp)] at stopped
        omega
    constructor
    · intro _
      rw [marks.squashedSeqNum, marks.instList, marks.squashWidth]
      refine ⟨number, cut, inserted, points, list, early, by rw [← number]; exact late, ?_, ?_⟩
      · intro seqNum inside above
        by_cases reached : seqNum ≤ it
        · exact between seqNum (inList seqNum inside) above reached
        · exact marks.grows seqNum (marked seqNum inside (by omega))
      · rw [Nat.succ_mul]
        omega
    · intro finished
      simp [done] at finished

/-- The first squash step starts at the last instruction. -/
theorem start (sound : rob.Sound) (stepped : rob.squash squashNum tid isThreadExiting = .ok next) :
    Squashing (rob.instList tid) squashNum tid 1 next := by
  obtain ⟨_, done, ended⟩ := sound.squash_spec squashNum tid isThreadExiting
  cases done.symm.trans stepped
  rcases ended with ⟨empty, rfl⟩ | ⟨nonempty, begun, ending⟩
  · constructor
    · intro busy
      obtain ⟨it, member, _⟩ := sound.pointing tid busy
      simp [empty] at member
    · intro _ seqNum inside
      simp [empty] at inside
  · apply stepEnd begun (update_self _ _ _) (append_nil _).symm (getLast_mem nonempty)
    · intro seqNum inside above
      exact absurd (le_getLast_of_mem (sound.sorted tid) nonempty inside) above.not_ge
    · rw [Nat.zero_mul]
      exact Nat.zero_le _
    · exact ending

/-- A squash call of the thread goes on with the squash. -/
theorem call (squashing : Squashing insts squashNum tid calls rob) (sound : rob.Sound)
    (allowed : rob.doneSquashing tid = false) (stepped : rob.doSquash tid isThreadExiting = .ok next) :
    Squashing insts squashNum tid (calls + 1) next := by
  obtain ⟨it, result, _, points, done, ending⟩ := sound.doSquash isThreadExiting allowed
  cases done.symm.trans stepped
  obtain ⟨number, place, inserted, pointed, list, member, _, marked, progress⟩ := squashing.busy allowed
  cases pointed.symm.trans points
  exact stepEnd sound number list member marked progress ending

end Squashing

end Rob

namespace RobOp
variable {numThreads : Nat}

/-- The operation starts a squash of the thread. -/
def squashes (tid : Fin numThreads) : RobOp numThreads → Bool
  | .squash _ other _ => other = tid
  | _ => false

/-- The operation goes on with a squash of the thread. -/
def calls (tid : Fin numThreads) : RobOp numThreads → Bool
  | .doSquash other _ => other = tid
  | _ => false

end RobOp

namespace Rob
variable {numThreads : Nat} {rob next : Rob numThreads} {tid other : Fin numThreads} {seqNum squashNum calls : Nat}
  {insts : List Nat} {op : RobOp numThreads} {isThreadExiting : Bool}

/-- A squash first prepares its thread and then takes one step. -/
theorem squash_marks (sound : rob.Sound) (stepped : rob.squash squashNum tid isThreadExiting = .ok next) :
    next = rob ∨ Marks tid (rob.started squashNum tid) next := by
  obtain ⟨_, done, ended⟩ := sound.squash_spec squashNum tid isThreadExiting
  cases done.symm.trans stepped
  exact ended.imp And.right fun ⟨_, _, ending⟩ => ending.marks

theorem squash_quiet (sound : rob.Sound) (different : tid ≠ other)
    (stepped : rob.squash squashNum other isThreadExiting = .ok next) : Quiet tid rob next := by
  rcases squash_marks sound stepped with rfl | marks
  · exact .refl next
  · have quiet := marks.quiet different
    exact ⟨quiet.squashWidth, quiet.squashIt.trans (update_of_ne different _ _),
      quiet.squashedSeqNum.trans (update_of_ne different _ _), quiet.doneSquashing.trans (update_of_ne different _ _),
      fun busy => quiet.instList ((update_of_ne different _ _).trans busy), quiet.grows⟩

theorem Marks.flags (marks : Marks other rob next) (apart : tid = other → rob.Beside tid seqNum) :
    next.flags tid seqNum = rob.flags tid seqNum := by
  have same : next.status tid seqNum = rob.status tid seqNum := by
    by_cases own : tid = other
    · subst own
      exact (marks.kept seqNum (apart rfl)).1
    · rw [(marks.others tid own).2.2]
  rw [Rob.flags, same, Rob.flags]

/-- An instruction is up to the squash point or younger than the given instructions. -/
def Outside (insts : List Nat) (squashNum seqNum : Nat) : Prop := seqNum ≤ squashNum ∨ ∀ older ∈ insts, older < seqNum

/-- A squash of a thread leaves the flags of the other threads and of the instructions outside. -/
theorem squash_flags (sound : rob.Sound) (stepped : rob.squash squashNum other isThreadExiting = .ok next)
    (apart : tid = other → Outside (rob.instList tid) squashNum seqNum) :
    next.flags tid seqNum = rob.flags tid seqNum := by
  rcases squash_marks sound stepped with rfl | marks
  · rfl
  · apply marks.flags
    rintro rfl
    simp only [Beside, started, update_self]
    exact (apart rfl).imp_right fun younger it points => younger it (mem_of_getLast? points)

/-- The flags that another stage sets are quiet. -/
theorem mark_quiet {squashed canCommit : Bool} : Quiet tid rob (rob.setStatus other seqNum
      { rob.status other seqNum with
        squashed := (rob.status other seqNum).squashed || squashed
        canCommit := (rob.status other seqNum).canCommit || canCommit }) := by
  refine ⟨rfl, rfl, rfl, rfl, fun _ => ⟨[], (append_nil _).symm⟩, ?_⟩
  intro number marked
  apply status_setStatus (p := fun status => status.squashed = true ∧ status.canCommit = true) marked
  rintro rfl rfl
  simp [marked.1, marked.2]

/-- Each step of a run either goes on with the squash or is quiet. It changes the flags of an instruction up to the squash
point or younger than those at the start only if another stage sets them. -/
theorem Squashing.step (squashing : Squashing insts squashNum tid calls rob) (sound : rob.Sound)
    (foreign : op.squashes tid = false) (allowed : rob.guard op) (stepped : rob.step op = .ok next) :
    Squashing insts squashNum tid (calls + if op.calls tid then 1 else 0) next ∧ ∀ seqNum, Outside insts squashNum seqNum →
      (∀ squashed canCommit, op ≠ .mark tid seqNum squashed canCommit) →
        next.flags tid seqNum = rob.flags tid seqNum := by
  cases op with
  | insertInst other number =>
    have moved := (insertInst_moves stepped).1
    exact ⟨squashing.quiet (moved.quiet fun _ => ⟨[number], rfl⟩), fun seqNum _ _ => moved.flags tid seqNum⟩
  | retireHead other =>
    obtain ⟨_, _, _, moved, _⟩ := retireHead_moves stepped
    refine ⟨squashing.quiet (moved.quiet fun busy => ?_), fun seqNum _ _ => moved.flags tid seqNum⟩
    simp [show rob.doneSquashing other = true from allowed] at busy
  | squash number other isThreadExiting =>
    have different : tid ≠ other := by
      intro same
      simp [RobOp.squashes, same] at foreign
    exact ⟨squashing.quiet (squash_quiet sound different stepped),
      fun seqNum _ _ => squash_flags sound stepped fun same => absurd same different⟩
  | doSquash other isThreadExiting =>
    obtain ⟨_, _, _, _, done, ending⟩ := sound.doSquash isThreadExiting allowed
    cases done.symm.trans stepped
    refine ⟨?_, fun seqNum outside _ => ?_⟩
    · by_cases same : other = tid
      · subst same
        rw [if_pos (by simp [RobOp.calls])]
        exact squashing.call sound allowed stepped
      · rw [if_neg (by simp [RobOp.calls, same])]
        exact squashing.quiet (ending.marks.quiet fun equal => same equal.symm)
    · apply ending.marks.flags
      rintro rfl
      obtain ⟨number, it, _, points, _, member, _⟩ := squashing.busy allowed
      rw [Beside, number, points]
      exact outside.imp_right fun younger place pointed => Option.some.inj pointed ▸ younger it member
  | mark other number squashed canCommit =>
    cases stepped
    refine ⟨squashing.quiet mark_quiet, fun seqNum _ unset => ?_⟩
    apply status_setStatus (p := fun status => (status.squashed, status.canCommit) = rob.flags tid seqNum) rfl
    rintro rfl rfl
    exact absurd rfl (unset squashed canCommit)

/-- The squash after a run, with everything that may happen until it is done. -/
theorem Squashing.run {first last : Rob numThreads} {later : List (RobOp numThreads)} (sound : rob.Sound)
    (started : rob.squash squashNum tid isThreadExiting = .ok first)
    (run : (reorderBuffer numThreads).Run first later last) : last.Sound ∧ ((∀ op ∈ later, op.squashes tid = false) →
      Squashing (rob.instList tid) squashNum tid (1 + later.countP (RobOp.calls tid)) last ∧
        ∀ seqNum, Outside (rob.instList tid) squashNum seqNum →
          (∀ squashed canCommit, .mark tid seqNum squashed canCommit ∉ later) →
            last.flags tid seqNum = rob.flags tid seqNum) := by
  induction run with
  | nil =>
    have allowed : rob.guard (.squash squashNum tid isThreadExiting) := trivial
    refine ⟨(sound.step allowed started).1, fun _ => ⟨.start sound started, ?_⟩⟩
    intro seqNum outside _
    exact squash_flags sound started fun _ => outside
  | @cons history state next op before allowed stepped held =>
    refine ⟨(held.1.step allowed stepped).1, ?_⟩
    intro foreign
    obtain ⟨squashing, kept⟩ := held.2 fun op inside => foreign op (by simp [inside])
    obtain ⟨continued, same⟩ := squashing.step held.1 (foreign op (by simp)) allowed stepped
    constructor
    · rw [countP_cons, ← Nat.add_assoc]
      exact continued
    · intro seqNum outside unset
      rw [same seqNum outside _, kept seqNum outside _]
      · intro squashed canCommit inside
        exact unset squashed canCommit (by simp [inside])
      · intro squashed canCommit same
        exact unset squashed canCommit (by simp [same])

/-- A squash that is not done has made fewer calls than it has instructions for. -/
theorem Squashing.calls_lt (squashing : Squashing insts squashNum tid calls rob)
    (busy : rob.doneSquashing tid = false) :
    calls * rob.squashWidth < insts.countP fun seqNum => squashNum < seqNum := by
  obtain ⟨_, it, _, _, _, member, late, _, progress⟩ := squashing.busy busy
  exact lt_of_le_of_lt progress (countP_lt_of_mem member late)

/-- A run keeps the buffer sound and its width. -/
theorem Sound.run {start last : Rob numThreads} {ops : List (RobOp numThreads)} (sound : start.Sound)
    (run : (reorderBuffer numThreads).Run start ops last) : last.Sound ∧ last.squashWidth = start.squashWidth := by
  apply run.invariant (fun rob => rob.Sound ∧ rob.squashWidth = start.squashWidth) ⟨sound, rfl⟩
  intro state op next held allowed stepped
  exact (held.1.step allowed stepped).imp_right fun same => same.trans held.2

/-- In every run the counters match the sorted lists, and a thread that squashes points to one of its instructions, so
the next squash step succeeds. Every further squash needs at most one call more than its width requires. When it is
done, it has marked the instructions of the list at its start that are younger than its number. It marks no instruction
up to its number and none that is inserted after its start. -/
theorem reorderBuffer_squashes {numEntries squashWidth : Nat} {activeThreads : List (Fin numThreads)}
    {status : Fin numThreads → Nat → InstStatus} {robStatus : Fin numThreads → RobStatus}
    {ops : List (RobOp numThreads)} (wide : 1 ≤ squashWidth)
    (run : (reorderBuffer numThreads).Run (initial numEntries squashWidth activeThreads status robStatus) ops rob) :
    rob.numInstsInROB = ∑ tid, (rob.instList tid).length ∧
    (∀ tid, rob.threadEntries tid = (rob.instList tid).length ∧ (rob.instList tid).Pairwise (· < ·)) ∧
    (∀ tid isThreadExiting, rob.doneSquashing tid = false →
      (∃ it ∈ rob.instList tid, rob.squashIt tid = some it) ∧ ∃ next, rob.doSquash tid isThreadExiting = .ok next) ∧
    ∀ tid squashNum isThreadExiting, ∃ first, rob.squash squashNum tid isThreadExiting = .ok first ∧
      ∀ later last, (reorderBuffer numThreads).Run first later last → (∀ op ∈ later, op.squashes tid = false) →
        (((rob.instList tid).countP (fun seqNum => squashNum < seqNum) + squashWidth - 1) / squashWidth + 1 ≤
          1 + later.countP (RobOp.calls tid) → last.doneSquashing tid = true) ∧
        (last.doneSquashing tid = true → ∀ seqNum ∈ rob.instList tid, squashNum < seqNum → last.Marked tid seqNum) ∧
        ∀ seqNum, seqNum ≤ squashNum ∨ (∀ older ∈ rob.instList tid, older < seqNum) →
          (∀ squashed canCommit, .mark tid seqNum squashed canCommit ∉ later) →
            last.flags tid seqNum = rob.flags tid seqNum := by
  obtain ⟨sound, width⟩ := Sound.initial.run run
  change rob.squashWidth = squashWidth at width
  refine ⟨sound.total, fun tid => ⟨sound.entries tid, sound.sorted tid⟩, ?_, ?_⟩
  · intro tid isThreadExiting busy
    obtain ⟨it, next, member, points, done, _⟩ := sound.doSquash isThreadExiting busy
    exact ⟨⟨it, member, points⟩, next, done⟩
  · intro tid squashNum isThreadExiting
    obtain ⟨first, started, _⟩ := sound.squash_spec squashNum tid isThreadExiting
    refine ⟨first, started, ?_⟩
    intro later last continued foreign
    obtain ⟨squashing, kept⟩ := (Squashing.run sound started continued).2 foreign
    refine ⟨?_, squashing.done, kept⟩
    intro enough
    by_contra unfinished
    have allowed : rob.guard (.squash squashNum tid isThreadExiting) := trivial
    have fewer := squashing.calls_lt (Bool.eq_false_iff.mpr unfinished)
    obtain ⟨begun, same⟩ := sound.step allowed started
    rw [(begun.run continued).2, same, width] at fewer
    have bound := (Nat.div_lt_iff_lt_mul wide).mp enough
    omega

local instance neZeroOne : NeZero 1 := ⟨one_ne_zero⟩

/-- One thread squashes one instruction at a time. -/
def sampleRob : Rob 1 := initial 8 1 [0] (fun _ _ => ⟨false, false, false, false⟩) fun _ => .running

/-- Two of three instructions are squashed in two calls. -/
theorem reorderBuffer_squashes_two : ∃ rob first last,
    (reorderBuffer 1).Run sampleRob [.insertInst 0 3, .insertInst 0 2, .insertInst 0 1] rob ∧
    rob.squash 1 0 false = .ok first ∧ (reorderBuffer 1).Run first [.doSquash 0 false] last ∧
    last.doneSquashing 0 = true ∧ last.Marked 0 2 ∧ last.Marked 0 3 ∧ last.flags 0 1 = rob.flags 0 1 := by
  obtain ⟨rob, run, first, started, last, continued, list, done⟩ : ∃ rob,
      (reorderBuffer 1).Run sampleRob [.insertInst 0 3, .insertInst 0 2, .insertInst 0 1] rob ∧
      ∃ first, rob.squash 1 0 false = .ok first ∧ ∃ last, (reorderBuffer 1).Run first [.doSquash 0 false] last ∧
      rob.instList 0 = [1, 2, 3] ∧ last.doneSquashing 0 = true :=
    ⟨_, .cons (.cons (.cons .nil (by decide : ∀ older ∈ ([] : List Nat), older < 1) rfl)
      (by decide : ∀ older ∈ [1], older < 2) rfl) (by decide : ∀ older ∈ [1, 2], older < 3) rfl, _, rfl, _,
      .cons .nil (rfl : false = false) rfl, rfl, rfl⟩
  obtain ⟨_, _, _, squashes⟩ := reorderBuffer_squashes (by decide : 1 ≤ 1) run
  obtain ⟨other, same, finished⟩ := squashes 0 1 false
  obtain rfl := Except.ok.inj (same.symm.trans started)
  obtain ⟨_, marked, kept⟩ := finished _ last continued (by decide)
  refine ⟨rob, other, last, run, started, continued, done, ?_, ?_, ?_⟩
  · exact marked done 2 (by simp [list]) (by decide)
  · exact marked done 3 (by simp [list]) (by decide)
  · exact kept 1 (.inl le_rfl) (by simp)

/-- An instruction that is inserted during a squash is not marked. -/
theorem squash_misses_insertion : ∃ rob,
    (reorderBuffer 1).Run sampleRob [.doSquash 0 false, .insertInst 0 4, .squash 1 0 false, .insertInst 0 3,
      .insertInst 0 2, .insertInst 0 1] rob ∧
    rob.doneSquashing 0 = true ∧ rob.squashedSeqNum 0 = 1 ∧ 4 ∈ rob.instList 0 ∧ ¬ rob.Marked 0 4 :=
  ⟨_, .cons (.cons (.cons (.cons (.cons (.cons .nil (by decide : ∀ older ∈ ([] : List Nat), older < 1) rfl)
    (by decide : ∀ older ∈ [1], older < 2) rfl) (by decide : ∀ older ∈ [1, 2], older < 3) rfl) trivial rfl)
    (by decide : ∀ older ∈ [1, 2, 3], older < 4) rfl) (rfl : false = false) rfl, rfl, rfl,
    (by decide : 4 ∈ [1, 2, 3, 4]), (by decide : ¬ (false = true ∧ false = true))⟩

end Rob
end Gem5.O3
