import Gem5.Construction.Mem.SnoopFilter

namespace Gem5.SnoopFilter
open ToMathlib
variable {params : Params} {filter next looked : SnoopFilter} {line addr : Addr} {item : SnoopItem}
  {cpkt : CoherentPacket} {port : ResponsePort} {answer : List ResponsePort × Nat}

/-- No entry is empty. -/
def NoNull (filter : SnoopFilter) : Prop :=
  ∀ addr item, filter.cachedLocations.lookup addr = some item → item.requested ||| item.holder ≠ 0

theorem lookup_setItem (filter : SnoopFilter) (line : Addr) (item : SnoopItem) (addr : Addr) :
    (filter.setItem line item).cachedLocations.lookup addr =
      if addr = line then some item else filter.cachedLocations.lookup addr := by
  unfold setItem
  split
  · next same => rw [same, AList.lookup_insert]
  · next other => exact AList.lookup_insert_ne other

theorem lookup_eraseIfNullEntry (filter : SnoopFilter) (line addr : Addr) :
    (filter.eraseIfNullEntry line).cachedLocations.lookup addr = if addr = line then
      (filter.cachedLocations.lookup line).filter fun item => item.requested ||| item.holder ≠ 0
    else filter.cachedLocations.lookup addr := by
  unfold eraseIfNullEntry
  by_cases same : addr = line
  · subst same
    rw [if_pos rfl]
    cases found : filter.cachedLocations.lookup addr with
    | none => exact found
    | some item =>
      by_cases null : item.requested ||| item.holder = 0
      · simp only [null, if_true, AList.lookup_erase, Option.filter_some, ne_eq, not_true, decide_false]
        rfl
      · simp only [null, if_false, found, Option.filter_some, ne_eq, not_false_iff, decide_true, if_true]
  · rw [if_neg same]
    split
    · rfl
    · split
      · exact AList.lookup_erase_ne same
      · rfl

/-- An entry that is erased if it is empty may change. -/
theorem NoNull.erase (others : ∀ addr item, addr ≠ line → filter.cachedLocations.lookup addr = some item →
    item.requested ||| item.holder ≠ 0) : (filter.eraseIfNullEntry line).NoNull := by
  intro addr item found
  rw [lookup_eraseIfNullEntry] at found
  split at found
  · exact of_decide_eq_true (Option.filter_eq_some_iff.mp found).2
  · next other => exact others addr item other found

theorem NoNull.replace (noNull : filter.NoNull) (line : Addr) (item : SnoopItem) :
    ((filter.setItem line item).eraseIfNullEntry line).NoNull := by
  refine NoNull.erase fun addr item other found => ?_
  rw [lookup_setItem, if_neg other] at found
  exact noNull addr item found

theorem NoNull.setItem (noNull : filter.NoNull) (some : item.requested ||| item.holder ≠ 0) :
    (filter.setItem line item).NoNull := by
  intro addr stored found
  rw [lookup_setItem] at found
  split at found
  · cases found
    exact some
  · exact noNull addr stored found

/-- A request remembers the entry of its line and changes no other entry. -/
structure Looks (filter looked : SnoopFilter) (line : Addr) (item : SnoopItem) : Prop where
  lookup : looked.lookup = some line
  retryItem : looked.retryItem = item
  stored : (looked.cachedLocations.lookup line).isSome
  others : ∀ addr ≠ line, looked.cachedLocations.lookup addr = filter.cachedLocations.lookup addr

theorem lookupEntry_looks {reqPort : SnoopMask}
    (kept : allocates cpkt port = false → filter.cachedLocations.lookup line = some item)
    (run : filter.lookupEntry params line item cpkt port reqPort = .ok (answer, looked)) :
    Looks filter looked line item := by
  obtain ⟨ports, _, run⟩ := bind_eq_ok.mp run
  split at run
  · obtain ⟨marked, _, _, rfl⟩ := bind_pair_eq_ok.mp run
    refine ⟨rfl, rfl, ?_, fun addr other => ?_⟩
    · rw [lookup_setItem, if_pos rfl]
      rfl
    · rw [lookup_setItem, if_neg other]
  · next unmarked =>
    cases run
    refine ⟨rfl, rfl, ?_, fun _ _ => rfl⟩
    rw [kept (by simpa using unmarked)]
    rfl

/-- A line without an entry is remembered as an empty entry. -/
theorem lookupRequest_looks (run : filter.lookupRequest params cpkt port = .ok (answer, looked)) :
    looked.lookup = none ∧ looked.cachedLocations = filter.cachedLocations ∨
      Looks filter looked (params.lineAddr cpkt.addr cpkt.isSecure)
        ((filter.cachedLocations.lookup (params.lineAddr cpkt.addr cpkt.isSecure)).getD ⟨0, 0⟩) := by
  obtain ⟨reqPort, _, run⟩ := bind_eq_ok.mp run
  dsimp only at run
  cases found : filter.cachedLocations.lookup (params.lineAddr cpkt.addr cpkt.isSecure) with
  | some item =>
    rw [found] at run
    exact .inr (lookupEntry_looks (fun _ => found) run)
  | none =>
    rw [found] at run
    dsimp only at run
    split at run
    · next allocated => exact .inr (lookupEntry_looks (by simp [allocated]) run)
    · cases run
      exact .inl ⟨rfl, rfl⟩

/-- The end of a request erases its entry if it is empty, and a retry restores it before. -/
theorem Looks.finishRequest {isSecure : Bool} (looks : Looks filter looked (params.lineAddr addr isSecure) item)
    (willRetry : Bool) : looked.finishRequest params willRetry addr isSecure = .ok
      ((if willRetry then looked.setItem (params.lineAddr addr isSecure) item else looked).eraseIfNullEntry
        (params.lineAddr addr isSecure)) := by
  rw [SnoopFilter.finishRequest, looks.lookup, ← looks.retryItem]
  dsimp only
  rw [if_pos looks.stored, assert_of rfl, ok_bind]
  split <;> rfl

/-- The calls of a crossbar, with each request finished at once. -/
inductive FinishedOp where
  | request (cpkt : CoherentPacket) (port : ResponsePort) (willRetry : Bool)
  | lookupSnoop (cpkt : CoherentPacket)
  | updateSnoopResponse (cpkt : CoherentPacket) (rspPort reqPort : ResponsePort)
  | updateSnoopForward (cpkt : CoherentPacket)
  | updateResponse (cpkt : CoherentPacket) (port : ResponsePort)

def finishedCalls (params : Params) : Machine SnoopFilter FinishedOp Fault where
  guard _ _ := True
  step filter
    | .request cpkt port willRetry => do
      let (_, looked) ← filter.lookupRequest params cpkt port
      looked.finishRequest params willRetry cpkt.addr cpkt.isSecure
    | .lookupSnoop cpkt => do
      let (_, next) ← filter.lookupSnoop params cpkt
      .ok next
    | .updateSnoopResponse cpkt rspPort reqPort => filter.updateSnoopResponse params cpkt rspPort reqPort
    | .updateSnoopForward cpkt => filter.updateSnoopForward params cpkt
    | .updateResponse cpkt port => filter.updateResponse params cpkt port

theorem NoNull.step (noNull : filter.NoNull) {op : FinishedOp}
    (stepped : (finishedCalls params).step filter op = .ok next) : next.NoNull := by
  cases op with
  | request cpkt port willRetry =>
    obtain ⟨⟨answer, looked⟩, run, finished⟩ := bind_eq_ok.mp stepped
    dsimp only at finished
    rcases lookupRequest_looks run with ⟨nothing, same⟩ | looks
    · rw [finishRequest, nothing] at finished
      cases finished
      unfold NoNull
      rwa [same]
    · rw [looks.finishRequest] at finished
      cases finished
      refine NoNull.erase fun addr item other found => noNull addr item ?_
      rw [← looks.others addr other, ← found]
      split
      · rw [lookup_setItem, if_neg other]
      · rfl
  | lookupSnoop cpkt =>
    obtain ⟨⟨answer, last⟩, run, rfl⟩ := bind_ok_eq_ok.mp stepped
    obtain ⟨_, _, run⟩ := bind_eq_ok.mp run
    dsimp only at run
    split at run
    · split at run <;> cases run
      exact noNull
    · obtain ⟨_, _, run⟩ := bind_eq_ok.mp run
      obtain ⟨ports, _, run⟩ := bind_eq_ok.mp run
      split at run <;> cases run
      · exact noNull.replace _ _
      · exact noNull
  | updateSnoopResponse cpkt rspPort reqPort =>
    obtain ⟨_, _, run⟩ := bind_eq_ok.mp stepped
    obtain ⟨_, _, run⟩ := bind_eq_ok.mp run
    split at run
    · cases run
      exact noNull
    obtain ⟨rspMask, _, run⟩ := bind_eq_ok.mp run
    obtain ⟨reqMask, _, run⟩ := bind_eq_ok.mp run
    obtain ⟨_, run⟩ := ite_error_eq_ok.mp run
    obtain ⟨_, run⟩ := ite_error_eq_ok.mp run
    obtain ⟨_, _, run⟩ := bind_eq_ok.mp run
    obtain ⟨some, run⟩ := assert_bind_eq_ok.mp run
    cases run
    exact noNull.setItem some
  | updateSnoopForward cpkt =>
    obtain ⟨_, _, run⟩ := bind_eq_ok.mp stepped
    obtain ⟨_, _, run⟩ := bind_eq_ok.mp run
    dsimp only at run
    split at run
    · cases run
      exact noNull
    · split at run <;> cases run
      · exact noNull
      · exact noNull.replace _ _
  | updateResponse cpkt port =>
    obtain ⟨_, _, run⟩ := bind_eq_ok.mp stepped
    split at run
    · cases run
      exact noNull
    dsimp only at run
    split at run
    · cases run
      exact noNull
    obtain ⟨responseMask, _, run⟩ := bind_eq_ok.mp run
    obtain ⟨_, run⟩ := ite_error_eq_ok.mp run
    split at run
    · cases run
      exact noNull.replace _ _
    · obtain ⟨some, run⟩ := assert_bind_eq_ok.mp run
      cases run
      rw [BitVec.or_comm] at some
      exact noNull.setItem some

/-- A request that will be sent again leaves the entries as they were, and no call leaves an empty entry behind. -/
theorem retry_restores (noNull : filter.NoNull) :
    (∀ cpkt port answer looked, filter.lookupRequest params cpkt port = .ok (answer, looked) →
      ∃ next, looked.finishRequest params true cpkt.addr cpkt.isSecure = .ok next ∧
        ∀ addr, next.cachedLocations.lookup addr = filter.cachedLocations.lookup addr) ∧
      ∀ history last, (finishedCalls params).Run filter history last → last.NoNull := by
  constructor
  · intro cpkt port answer looked run
    rcases lookupRequest_looks run with ⟨nothing, same⟩ | looks
    · exact ⟨looked, by rw [finishRequest, nothing], fun addr => by rw [same]⟩
    refine ⟨_, looks.finishRequest true, fun addr => ?_⟩
    rw [if_pos rfl, lookup_eraseIfNullEntry, lookup_setItem, lookup_setItem, if_pos rfl]
    split
    · next own =>
      subst own
      cases found : filter.cachedLocations.lookup (params.lineAddr cpkt.addr cpkt.isSecure) with
      | none => rfl
      | some item => exact Option.filter_some_pos (decide_eq_true (noNull _ item found))
    · next other => exact looks.others addr other
  · intro history last run
    exact run.invariant NoNull noNull fun _ _ _ noNull _ stepped => noNull.step stepped

/-- A cache asks for a line that no cache has, and its request is sent again. -/
theorem retry_restores_miss : ∃ looked next, lookupRequest ⟨4, 1, 64, by decide, rfl⟩
      ⟨∅, none, ⟨0, 0⟩, [⟨0, true⟩], [some 0]⟩ (.atZero .readSharedReq false false) ⟨0, true⟩ = .ok (([], 1), looked) ∧
    looked.finishRequest ⟨4, 1, 64, by decide, rfl⟩ true 0 false = .ok next ∧
    (looked.cachedLocations.lookup 0).isSome ∧ next.cachedLocations.lookup 0 = none := by
  have noNull : NoNull ⟨∅, none, ⟨0, 0⟩, [⟨0, true⟩], [some 0]⟩ := by simp [NoNull]
  obtain ⟨next, finished, same⟩ := (retry_restores noNull).1 (.atZero .readSharedReq false false) ⟨0, true⟩ _ _ rfl
  exact ⟨_, next, rfl, finished, rfl, same 0⟩

end Gem5.SnoopFilter
