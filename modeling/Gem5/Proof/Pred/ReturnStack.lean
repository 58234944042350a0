import Gem5.Proof.Pred.SquashRestores

namespace Gem5.BPred
variable {stack : AddrStack} {address : PCState} {addresses : List PCState}
open ToMathlib BPredUnit ReturnAddrStack Function List

/-- The entries from the top down are the listed addresses. -/
def Represents (stack : AddrStack) (addresses : List PCState) : Prop :=
  ∀ index address, addresses[index]? = some address → stack.below index = some address

/-- The place below another one in the ring. -/
def prev (numEntries place : Nat) : Nat := if place = 0 then numEntries - 1 else place - 1

@[simp] theorem pop_tos : stack.pop.tos = prev stack.numEntries stack.tos := rfl

@[simp] theorem prev_push_tos : prev stack.numEntries (stack.push address).tos = stack.tos := by
  simp only [prev, AddrStack.push, AddrStack.use, AddrStack.incrTos]
  by_cases wraps : stack.tos + 1 = stack.numEntries
  · simp only [wraps, if_true]
    omega
  · simp [wraps]

theorem push_tos_lt (inside : stack.tos < stack.numEntries) : (stack.push address).tos < stack.numEntries := by
  simp only [AddrStack.push, AddrStack.use, AddrStack.incrTos]
  split_ifs <;> omega

theorem prev_lt {numEntries place : Nat} (inside : place < numEntries) : prev numEntries place < numEntries := by
  unfold prev
  split_ifs <;> omega

theorem Represents.nil : Represents stack [] := by
  intro index address found
  simp at found

theorem below_pop {depth : Nat} (inside : stack.tos < stack.numEntries) (room : depth + 1 < stack.numEntries) :
    stack.pop.below depth = stack.below (depth + 1) := by
  simp only [AddrStack.below, AddrStack.pop, AddrStack.decrTos]
  congr 1
  split_ifs <;> omega

theorem below_restore {tos depth : Nat} {entry : Option PCState} (above : prev stack.numEntries tos = stack.tos)
    (inside : tos < stack.numEntries) (room : depth + 1 < stack.numEntries) :
    (stack.restore tos entry).below (depth + 1) = stack.below depth := by
  unfold prev at above
  simp only [AddrStack.below, AddrStack.restore, AddrStack.use, ← above]
  rw [update_of_ne (by split_ifs <;> omega)]
  congr 1
  split_ifs <;> omega

theorem Represents.pop (represents : Represents stack (address :: addresses)) (inside : stack.tos < stack.numEntries)
    (room : (address :: addresses).length ≤ stack.numEntries) : Represents stack.pop addresses := by
  intro index found isFound
  have below : index < addresses.length := (List.getElem?_eq_some_iff.mp isFound).1
  rw [length_cons] at room
  rw [below_pop inside (by omega)]
  exact represents (index + 1) found isFound

/-- A restored entry lies above the entries that are there. -/
theorem Represents.restore {tos : Nat} (represents : Represents stack addresses)
    (above : prev stack.numEntries tos = stack.tos) (inside : tos < stack.numEntries)
    (room : addresses.length < stack.numEntries) :
    Represents (stack.restore tos (some address)) (address :: addresses) := by
  intro index found isFound
  cases index with
  | zero =>
    cases isFound
    simp [AddrStack.below, AddrStack.restore, AddrStack.use]
  | succ index =>
    rw [List.getElem?_cons_succ] at isFound
    have below : index < addresses.length := (List.getElem?_eq_some_iff.mp isFound).1
    rw [below_restore above inside (by omega)]
    exact represents index found isFound

/-- A call puts its address where a restored entry would be. -/
theorem Represents.push (represents : Represents stack addresses) (inside : stack.tos < stack.numEntries)
    (room : addresses.length < stack.numEntries) : Represents (stack.push address) (address :: addresses) := by
  have above : prev stack.numEntries (stack.push address).tos = stack.tos := prev_push_tos
  have top : (stack.push address).tos < stack.numEntries := push_tos_lt inside
  exact represents.restore above top room

/-- A stack has the top of another one and its entries, except the deepest ones. -/
structure Restored (stack : AddrStack) (bound : Nat) (squashed : AddrStack) : Prop where
  size : squashed.numEntries = stack.numEntries
  tos : squashed.tos = stack.tos
  entries : ∀ depth < stack.numEntries - bound, squashed.below depth = stack.below depth

section Speculation
variable {bound : Nat} {squashed : AddrStack} (inside : stack.tos < stack.numEntries)
include inside

/-- A pop takes a push back, which has overwritten the deepest entry. -/
theorem Restored.push (restored : Restored (stack.push address) bound squashed) :
    Restored stack (bound + 1) squashed.pop where
  size := restored.size
  tos := by
    rw [pop_tos, restored.size, restored.tos]
    exact prev_push_tos
  entries := by
    intro depth low
    have size : squashed.numEntries = stack.numEntries := restored.size
    have top : (stack.push address).tos < stack.numEntries := push_tos_lt inside
    have pushed : (stack.push address).below (depth + 1) = stack.below depth :=
      below_restore prev_push_tos top (by omega)
    rw [← pushed, ← restored.entries (depth + 1) (by change _ < stack.numEntries - _; omega)]
    exact below_pop (by rw [size, restored.tos]; exact top) (by omega)

/-- A restored entry takes a pop back. -/
theorem Restored.pop (restored : Restored stack.pop (bound + 1) squashed) :
    Restored stack bound (squashed.restore stack.tos stack.top) where
  size := restored.size
  tos := rfl
  entries := by
    intro depth low
    have size : squashed.numEntries = stack.numEntries := restored.size
    cases depth with
    | zero => simp [AddrStack.below, AddrStack.restore, AddrStack.use, AddrStack.top]
    | succ depth =>
      rw [← below_pop inside (by omega), ← restored.entries depth (by change _ < stack.numEntries - _; omega)]
      exact below_restore (by rw [size, restored.tos]; rfl) (size ▸ inside) (by omega)

/-- The squash of speculative operations in reverse order restores the top of the stack and the entries below it that no
push has reached around the ring. -/
theorem squash_speculateAll {ops : List (Option PCState)}
    (excess : ∀ count, (ops.take count).countP (·.isSome) ≤ (ops.take count).countP (·.isNone) + bound) :
    Restored stack bound
      ((speculateAll stack ops).2.foldl ReturnAddrStack.squash (speculateAll stack ops).1) := by
  induction ops generalizing stack bound with
  | nil => exact ⟨rfl, rfl, fun _ _ => rfl⟩
  | cons op ops ih =>
    rw [speculateAll, foldl_append]
    have later := fun count => excess (count + 1)
    cases op with
    | some address =>
      have first := excess 1
      simp at first later
      obtain ⟨bound, rfl⟩ := Nat.exists_eq_add_of_le' first
      exact (ih (push_tos_lt inside) fun count => by have := later count; omega).push inside
    | none =>
      simp at later
      have top : stack.pop.tos < stack.pop.numEntries := prev_lt inside
      exact (ih top fun count => by have := later count; omega).pop inside

end Speculation

/-- Two pushes after a pop overwrite the deepest of three entries. -/
theorem squash_speculateAll_three :
    let stack : AddrStack := ⟨fun index => some ⟨index, index⟩, 3, 3, 0⟩
    Restored stack 1 ((speculateAll stack [none, some ⟨8, 12⟩, some ⟨16, 20⟩]).2.foldl ReturnAddrStack.squash
      (speculateAll stack [none, some ⟨8, 12⟩, some ⟨16, 20⟩]).1) :=
  squash_speculateAll (by decide) fun
    | 0 | 1 | 2 => by decide
    | _ + 3 => by simp

section Undo
variable {direction : DirectionPredictor} (params : UnitParams) (committed : List (PredictorHistory direction))
  {stack : AddrStack} {hist : PredictorHistory direction} {older hists : List (PredictorHistory direction)}
  {unit next : BPredUnit direction} {squashedSn : Nat} {tid : ThreadID}

/-- A record tells how to take the operation of its branch back. -/
def Undoes (tos : Nat) (hist : PredictorHistory direction) (older : List (PredictorHistory direction)) (before : Nat) :
    Prop :=
  match hist.rasHistory with
  | none => before = tos ∧ returnAddresses params (hist :: older) = returnAddresses params older
  | some record =>
    (record.pushed = true ∧ record.poped = false ∧ before = prev params.numEntries tos ∧
      returnAddresses params (hist :: older) = hist.returnAddr :: returnAddresses params older) ∨
    (record.pushed = false ∧ record.poped = true ∧ before = record.tos ∧ prev params.numEntries record.tos = tos ∧
      (∀ address rest, returnAddresses params older = address :: rest → record.rasEntry = some address) ∧
      returnAddresses params (hist :: older) = (returnAddresses params older).tail)

/-- The flags of a branch and its record fit. -/
structure Recorded (hist : PredictorHistory direction) : Prop where
  uncond : hist.inst.isCall = true ∨ hist.inst.isReturn = true → hist.inst.isUncondCtrl = true
  single : ¬(hist.inst.isCall = true ∧ hist.inst.isReturn = true)
  call : hist.inst.isCall = true → hist.rasHistory.isSome = true
  kind : hist.rasHistory.isSome = true → (hist.inst.isCall = true ∨ hist.inst.isReturn = true) ∧ hist.taken params = true
  pending : hist.inst.isReturn = true → hist.rasHistory = none → hist.taken params = false

/-- All operations in flight can be taken back, one after the other. -/
def Journal : Nat → List (PredictorHistory direction) → Prop
  | _, [] => True
  | tos, hist :: older =>
    Recorded params hist ∧ (returnAddresses params (older ++ committed)).length ≤ params.numEntries ∧
      ∃ before < params.numEntries, Undoes params tos hist (older ++ committed) before ∧ Journal before older

/-- The stack holds the addresses of the surviving calls, and the operations in flight can be taken back. -/
structure Matches (stack : AddrStack) (hists : List (PredictorHistory direction)) : Prop where
  size : stack.numEntries = params.numEntries
  inside : stack.tos < params.numEntries
  room : (returnAddresses params (hists ++ committed)).length ≤ params.numEntries
  represents : Represents stack (returnAddresses params (hists ++ committed))
  journal : Journal params committed stack.tos hists

variable {params committed}

/-- The squash of one branch takes its operation back. -/
theorem Matches.undo {next : AddrStack} (held : Matches params committed stack (hist :: older))
    (squashed : squashRAS params stack hist.rasHistory = .ok next) : Matches params committed next older := by
  obtain ⟨_, room, before, low, undoes, journal⟩ := held.journal
  have inside : stack.tos < stack.numEntries := by
    rw [held.size]
    exact held.inside
  have represents := held.represents
  rw [cons_append] at represents
  unfold Undoes at undoes
  cases recorded : hist.rasHistory with
  | none =>
    rw [recorded] at squashed undoes
    cases squashed
    obtain ⟨rfl, same⟩ := undoes
    rw [same] at represents
    exact ⟨held.size, low, room, represents, journal⟩
  | some record =>
    rw [recorded] at squashed undoes
    obtain ⟨_, _, rfl⟩ := bind_ok_eq_ok.mp squashed
    rcases undoes with ⟨pushed, poped, rfl, pushes⟩ | ⟨pushed, poped, rfl, above, entry, pops⟩
    · rw [pushes] at represents
      have full : (hist.returnAddr :: returnAddresses params (older ++ committed)).length ≤ stack.numEntries := by
        rw [← pushes, held.size]
        exact held.room
      have after : ReturnAddrStack.squash stack record = stack.pop := by simp [ReturnAddrStack.squash, pushed, poped]
      rw [after]
      refine ⟨held.size, ?_, room, represents.pop inside full, ?_⟩
      · rw [pop_tos, held.size]
        exact low
      · rw [pop_tos, held.size]
        exact journal
    · rw [pops] at represents
      have after : ReturnAddrStack.squash stack record = stack.restore record.tos record.rasEntry := by
        simp [ReturnAddrStack.squash, pushed, poped]
      rw [after]
      refine ⟨held.size, low, room, ?_, journal⟩
      cases addresses : returnAddresses params (older ++ committed) with
      | nil => exact .nil
      | cons address rest =>
        rw [addresses] at represents room
        rw [length_cons, ← held.size] at room
        rw [← held.size] at above low
        rw [entry address rest addresses]
        exact Represents.restore represents above low room

/-- The squash loop takes the operations of the removed branches back. -/
theorem Matches.squashLoop (held : Matches params committed (unit.addrStacks tid) hists)
    (looped : squashLoop params squashedSn tid hists unit = .ok next) :
    Matches params committed (next.addrStacks tid) (hists.dropWhile fun hist => decide (squashedSn < hist.seqNum)) ∧
      next.predHist = update unit.predHist tid (hists.dropWhile fun hist => decide (squashedSn < hist.seqNum)) ∧
      next.committed = unit.committed ∧ ∀ other ≠ tid, next.addrStacks other = unit.addrStacks other := by
  induction hists generalizing unit with
  | nil =>
    cases looped
    exact ⟨held, rfl, rfl, fun _ _ => rfl⟩
  | cons hist older ih =>
    by_cases later : squashedSn < hist.seqNum
    · rw [squashLoop, if_pos later] at looped
      obtain ⟨middle, squashed, looped⟩ := bind_eq_ok.mp looped
      obtain ⟨stack, undone, squashed⟩ := bind_eq_ok.mp squashed
      obtain ⟨predictor, _, rfl⟩ := bind_ok_eq_ok.mp squashed
      have behind : Matches params committed (update unit.addrStacks tid stack tid) older := by
        rw [update_self]
        exact held.undo undone
      obtain ⟨final, hists, commits, others⟩ := ih behind looped
      rw [dropWhile_cons_of_pos (by simpa using later)]
      refine ⟨final, hists, commits, fun other different => ?_⟩
      rw [others other different]
      exact update_of_ne different _ _
    · rw [squashLoop, if_neg later] at looped
      cases looped
      rw [dropWhile_cons_of_neg (by simpa using later)]
      exact ⟨held, rfl, rfl, fun _ _ => rfl⟩

section
variable (held : Matches params committed stack hists) (recorded : Recorded params hist)
include held recorded

/-- A branch that does not use the stack is added. -/
theorem Matches.skip (none : hist.rasHistory = none) : Matches params committed stack (hist :: hists) := by
  have noCall : hist.inst.isCall = false := Bool.eq_false_iff.mpr fun call => by simpa [none] using recorded.call call
  have same : returnAddresses params (hist :: (hists ++ committed)) = returnAddresses params (hists ++ committed) := by
    cases ret : hist.inst.isReturn with
    | true => simp [returnAddresses, recorded.pending ret none]
    | false => simp [returnAddresses, noCall, ret]
  refine ⟨held.size, held.inside, ?_, ?_, recorded, held.room, stack.tos, held.inside, ?_, held.journal⟩
  · rw [cons_append, same]
    exact held.room
  · rw [cons_append, same]
    exact held.represents
  · unfold Undoes
    rw [none]
    exact ⟨rfl, same⟩

theorem Matches.push (record : hist.rasHistory = some (push stack hist.returnAddr none).2)
    (call : hist.inst.isCall = true) (room : (returnAddresses params (hists ++ committed)).length < params.numEntries) :
    Matches params committed (stack.push hist.returnAddr) (hist :: hists) := by
  have taken : hist.taken params = true := (recorded.kind (by rw [record]; rfl)).2
  have noReturn : hist.inst.isReturn = false := Bool.eq_false_iff.mpr fun ret => recorded.single ⟨call, ret⟩
  have inside : stack.tos < stack.numEntries := held.size ▸ held.inside
  have pushes : returnAddresses params (hist :: (hists ++ committed)) =
      hist.returnAddr :: returnAddresses params (hists ++ committed) := by
    simp [returnAddresses, taken, call, noReturn]
  refine ⟨held.size, ?_, ?_, ?_, recorded, held.room, stack.tos, held.inside, ?_, held.journal⟩
  · rw [← held.size]
    exact push_tos_lt inside
  · rw [cons_append, pushes]
    exact room
  · rw [cons_append, pushes]
    exact held.represents.push inside (held.size ▸ room)
  · simp only [Undoes, record]
    refine .inl ⟨rfl, rfl, ?_, pushes⟩
    rw [← held.size, prev_push_tos]

theorem Matches.pop (record : hist.rasHistory = some (ReturnAddrStack.pop stack none).2)
    (ret : hist.inst.isReturn = true) : Matches params committed stack.pop (hist :: hists) := by
  have taken : hist.taken params = true := (recorded.kind (by rw [record]; rfl)).2
  have noCall : hist.inst.isCall = false := Bool.eq_false_iff.mpr fun call => recorded.single ⟨call, ret⟩
  have inside : stack.tos < stack.numEntries := held.size ▸ held.inside
  have pops : returnAddresses params (hist :: (hists ++ committed)) =
      (returnAddresses params (hists ++ committed)).tail := by
    simp [returnAddresses, taken, noCall, ret]
  refine ⟨held.size, ?_, ?_, ?_, recorded, held.room, stack.tos, held.inside, ?_, held.journal⟩
  · rw [← held.size]
    exact prev_lt inside
  · rw [cons_append, pops, length_tail]
    exact Nat.le_trans (Nat.sub_le _ _) held.room
  · rw [cons_append, pops]
    have represents := held.represents
    have room := held.room
    cases addresses : returnAddresses params (hists ++ committed) with
    | nil => exact .nil
    | cons address rest =>
      rw [addresses] at represents room
      exact represents.pop inside (held.size ▸ room)
  · simp only [Undoes, record]
    refine .inr ⟨rfl, rfl, rfl, ?_, ?_, pops⟩
    · rw [pop_tos, held.size]
      rfl
    · intro address rest addresses
      have top := held.represents 0 address (by rw [addresses]; rfl)
      simpa [AddrStack.below, ReturnAddrStack.pop, AddrStack.top] using top

end

/-- Committed branches need not be taken back. -/
theorem Journal.commit {tos : Nat} {done : List (PredictorHistory direction)}
    (journal : Journal params committed tos (hists ++ done)) : Journal params (done ++ committed) tos hists := by
  induction hists generalizing tos with
  | nil => trivial
  | cons hist older ih =>
    rw [cons_append] at journal
    obtain ⟨recorded, room, before, low, undoes, journal⟩ := journal
    rw [append_assoc] at room undoes
    exact ⟨recorded, room, before, low, undoes, ih journal⟩

theorem Matches.commit {done : List (PredictorHistory direction)}
    (held : Matches params committed stack (hists ++ done)) : Matches params (done ++ committed) stack hists := by
  have room := held.room
  have represents := held.represents
  rw [append_assoc] at room represents
  exact { held with room, represents, journal := held.journal.commit }

variable (params) in
/-- Every thread has the stack of its surviving calls. -/
def AllMatch (unit : BPredUnit direction) : Prop :=
  ∀ tid, Matches params (unit.committed tid) (unit.addrStacks tid) (unit.predHist tid)

theorem AllMatch.initial {start : direction.State} (entries : 0 < params.numEntries) :
    AllMatch params (initial params start) := fun _ =>
  ⟨rfl, entries, Nat.zero_le _, .nil, trivial⟩

theorem AllMatch.predict {inst : StaticInst} {seqNum : Nat} {pc : PCState} {btbTarget itarget : Option PCState}
    (hasRas : params.ras = true) (held : AllMatch params unit) (foreseen : Foreseen params unit inst tid btbTarget)
    (stepped : unit.predict params inst seqNum pc tid btbTarget itarget = .ok next) : AllMatch params next := by
  obtain ⟨_, _, taken, _, _, _, _, _, unseen, rfl⟩ := predict_cases stepped
  intro other
  by_cases same : other = tid
  · subst same
    simp only [update_self, predictRAS, hasRas, Bool.true_and]
    have before := held other
    cases detected : btbTarget.isSome || !params.requiresBTBHit with
    | true =>
      have seen : inst.isCall = true ∨ inst.isReturn = true →
          (taken || (inst.isUncondCtrl && (btbTarget.isSome || !params.requiresBTBHit))) = true := by
        intro kind
        rw [foreseen.uncond kind, detected]
        simp
      cases call : inst.isCall with
      | true =>
        refine @Matches.push _ _ _ _ ⟨_, pc, inst, _, _, _, _, _, _, _, _, _⟩ _ before ?_ rfl call (foreseen.depth call)
        exact ⟨foreseen.uncond, foreseen.single, fun _ => rfl, fun _ => ⟨.inl call, seen (.inl call)⟩, by simp⟩
      | false =>
        cases ret : inst.isReturn with
        | true =>
          refine @Matches.pop _ _ _ _ ⟨_, pc, inst, _, _, _, _, _, _, _, _, _⟩ _ before ?_ rfl ret
          exact ⟨foreseen.uncond, foreseen.single, fun _ => rfl, fun _ => ⟨.inr ret, seen (.inr ret)⟩, by simp⟩
        | false =>
          refine before.skip ⟨foreseen.uncond, foreseen.single, fun other => ?_, by simp, fun other => ?_⟩ rfl
          · cases call.symm.trans other
          · cases ret.symm.trans other
    | false =>
      refine before.skip ⟨foreseen.uncond, foreseen.single, fun call => ?_, by simp, fun _ _ => ?_⟩ rfl
      · rcases foreseen.detected call with hit | free <;> simp_all
      · rw [PredictorHistory.taken, unseen detected, detected, Bool.and_false]
        rfl
  · simp only [update_of_ne same]
    exact held other

theorem AllMatch.squash (held : AllMatch params unit) (stepped : unit.squash params squashedSn tid = .ok next) :
    AllMatch params next ∧
      next.predHist tid = (unit.predHist tid).dropWhile fun hist => decide (squashedSn < hist.seqNum) := by
  obtain ⟨final, hists, commits, others⟩ := (held tid).squashLoop stepped
  refine ⟨fun other => ?_, by rw [hists, update_self]⟩
  rw [hists, commits]
  by_cases same : other = tid
  · subst same
    rw [update_self]
    exact final
  · rw [update_of_ne same, others other same]
    exact held other

/-- The repair of a mispredicted branch leaves the stack of the surviving calls. -/
theorem Matches.correct {corrTarget : PCState} {actuallyTaken : Bool} {bpHistory : Option direction.History}
    (hasRas : params.ras = true) (held : Matches params committed stack (hist :: hists))
    (resolved : hist.inst.isUncondCtrl = true → actuallyTaken = true) :
    Matches params committed (correctRAS params stack hist corrTarget actuallyTaken).1 ({ hist with
      mispredict := true, actuallyTaken, target := corrTarget, bpHistory
      rasHistory := (correctRAS params stack hist corrTarget actuallyTaken).2 } :: hists) := by
  obtain ⟨recorded, room, before, low, undoes, journal⟩ := held.journal
  cases operation : hist.rasHistory with
  | some operated =>
    obtain ⟨kind, taken⟩ := recorded.kind (by rw [operation]; rfl)
    obtain rfl := resolved (recorded.uncond kind)
    have kept : correctRAS params stack hist corrTarget true = (stack, some operated) := by
      simp [correctRAS, hasRas, operation]
    rw [kept]
    have same : ∀ older, returnAddresses params ({ hist with
        mispredict := true, actuallyTaken := true, target := corrTarget, bpHistory
        rasHistory := some operated } :: older) = returnAddresses params (hist :: older) := by
      intro older
      simp only [returnAddresses, taken, PredictorHistory.returnAddr]
      rfl
    refine ⟨held.size, held.inside, ?_, ?_, ⟨recorded.uncond, recorded.single, fun _ => rfl, fun _ => ⟨kind, rfl⟩, nofun⟩,
      room, before, low, ?_, journal⟩
    · rw [cons_append, same]
      exact held.room
    · rw [cons_append, same]
      exact held.represents
    · unfold Undoes PredictorHistory.returnAddr at undoes ⊢
      rw [same]
      rw [operation] at undoes
      exact undoes
  | none =>
    have undone : Matches params committed stack hists := held.undo (by rw [operation]; rfl)
    have noCall : hist.inst.isCall = false :=
      Bool.eq_false_iff.mpr fun call => by simpa [operation] using recorded.call call
    cases pops : hist.inst.isReturn with
    | true =>
      obtain rfl := resolved (recorded.uncond (.inr pops))
      have popped : correctRAS params stack hist corrTarget true =
          (stack.pop, some (ReturnAddrStack.pop stack none).2) := by
        simp [correctRAS, hasRas, operation, correctReturn, correctCall, getBranchType, pops, noCall, ReturnAddrStack.pop]
      rw [popped]
      exact undone.pop ⟨recorded.uncond, recorded.single, fun _ => rfl, fun _ => ⟨.inr pops, rfl⟩, nofun⟩ rfl pops
    | false =>
      have skipped : correctRAS params stack hist corrTarget actuallyTaken = (stack, none) := by
        simp only [correctRAS, hasRas, operation, correctReturn, correctCall, noCall]
        have other : getBranchType hist.inst ≠ .ret := by
          simp only [getBranchType, pops, noCall]
          split_ifs <;> simp_all
        simp [other]
      rw [skipped]
      refine undone.skip ⟨recorded.uncond, recorded.single, fun call => ?_, nofun, fun ret => ?_⟩ rfl
      · cases noCall.symm.trans call
      · cases pops.symm.trans ret

theorem AllMatch.squashMispredict {corrTarget : PCState} {actuallyTaken : Bool} (hasRas : params.ras = true)
    (held : AllMatch params unit) (resolves : Resolves unit squashedSn actuallyTaken tid)
    (stepped : unit.squashMispredict params squashedSn corrTarget actuallyTaken tid = .ok next) :
    AllMatch params next := by
  obtain ⟨middle, squashed, cases⟩ := squashMispredict_cases stepped
  obtain ⟨between, left⟩ := held.squash squashed
  rcases cases with ⟨_, rfl⟩ | ⟨hist, rest, predictor, bpHistory, hists, _, rfl⟩
  · exact between
  have resolved := (resolves hist rest (left ▸ hists)).2
  intro other
  by_cases same : other = tid
  · subst same
    simp only [update_self]
    have before := between other
    rw [hists] at before
    exact before.correct hasRas resolved
  · simp only [update_of_ne same]
    exact between other

theorem AllMatch.update {doneSn : Nat} (held : AllMatch params unit)
    (stepped : unit.update params doneSn tid = .ok next) : AllMatch params next := by
  obtain ⟨_, rings, done, parts, commits, hists⟩ := updateLoop_cases (fun _ => ()) (fun _ => rfl) stepped
  intro other
  rw [rings, commits, hists]
  by_cases same : other = tid
  · subst same
    rw [update_self, update_self]
    have split := congrArg reverse parts
    rw [reverse_reverse, reverse_append] at split
    have before := held other
    rw [split] at before
    exact before.commit
  · rw [update_of_ne same, update_of_ne same]
    exact held other

/-- Every step of a run keeps the stacks right. -/
theorem AllMatch.step {op : PredictOp} (hasRas : params.ras = true) (held : AllMatch params unit)
    (allowed : (foreseenUnits direction params).guard unit op)
    (stepped : (foreseenUnits direction params).step unit op = .ok next) : AllMatch params next := by
  cases op with
  | predict inst seqNum pc tid btbTarget itarget => exact held.predict hasRas allowed stepped
  | squash squashedSn tid => exact (held.squash stepped).1
  | squashMispredict squashedSn corrTarget actuallyTaken tid => exact held.squashMispredict hasRas allowed stepped
  | update doneSn tid => exact held.update stepped

/-- The top entries of the stack are the return addresses of the surviving calls if every call is seen when it is
predicted. -/
theorem return_stack_matches {start : direction.State} {ops : List PredictOp} {unit : BPredUnit direction}
    (hasRas : params.ras = true) (entries : 0 < params.numEntries)
    (run : (foreseenUnits direction params).Run (.initial params start) ops unit) (tid : ThreadID) :
    ∀ index address, (returnAddresses params (unit.survivors tid))[index]? = some address →
      (unit.addrStacks tid).below index = some address :=
  (run.invariant (AllMatch params) (.initial entries)
    (fun _ _ _ held allowed stepped => held.step hasRas allowed stepped) tid).represents

end Undo

/-- These instructions are a direct call and a return. -/
def call : StaticInst := ⟨true, false, true, false, true, false⟩

def ret : StaticInst := ⟨false, true, true, false, false, true⟩

def smallBiMode : BiModeParams :=
  ⟨2, 2, 2, 2, 2, smallTournament.localHistoryTableBits_lt, smallTournament.localHistoryTableBits_lt⟩

/-- Two calls are predicted, a return pops the second one, and a squash takes the return back. -/
theorem return_stack_matches_two : ∃ unit : BPredUnit (biModeBP smallBiMode),
      (foreseenUnits (biModeBP smallBiMode) smallUnit).Run (.initial smallUnit BiModeBP.initial)
        [.squash 2 0, .predict ret 3 ⟨200, 204⟩ 0 none none, .predict call 2 ⟨100, 104⟩ 0 (some ⟨200, 204⟩) none,
          .predict call 1 ⟨4, 8⟩ 0 (some ⟨100, 104⟩) none] unit ∧
      returnAddresses smallUnit (unit.survivors 0) = [⟨104, 108⟩, ⟨8, 12⟩] ∧
      (unit.addrStacks 0).below 0 = some ⟨104, 108⟩ ∧ (unit.addrStacks 0).below 1 = some ⟨8, 12⟩ :=
  ⟨_, and_of_imp (.cons (.cons (.cons (.cons .nil
    ⟨by decide, by decide, by decide, by decide⟩ rfl) ⟨by decide, by decide, by decide, by decide⟩ rfl)
    ⟨by decide, by decide, by decide, by decide⟩ rfl) trivial rfl) fun run =>
      have matched := return_stack_matches rfl (by decide) run 0
      ⟨rfl, matched 0 _ rfl, matched 1 _ rfl⟩⟩

/-- The repair of a call without a target in the buffer pushes the address after its target. -/
theorem repaired_call_pushes_target : ∃ predicted repaired : BPredUnit (biModeBP smallBiMode),
      predict ⟨true, true, false, 4⟩ (.initial ⟨true, true, false, 4⟩ BiModeBP.initial) call 1 ⟨4, 8⟩ 0 none none =
        .ok predicted ∧
      predicted.squashMispredict ⟨true, true, false, 4⟩ 1 ⟨100, 104⟩ true 0 = .ok repaired ∧
      returnAddresses ⟨true, true, false, 4⟩ (repaired.survivors 0) = [⟨8, 12⟩] ∧
      (repaired.addrStacks 0).below 0 = some ⟨104, 108⟩ :=
  ⟨_, _, rfl, rfl, rfl, rfl⟩

end Gem5.BPred
