import Gem5.Construction.Ruby.DmaSequencer

namespace Gem5.Ruby.Dma
open ToMathlib List

/-- The messages of a served request cover its bytes once in order, line by line, and carry each byte to or from its
place in the buffer. -/
structure Served (params : Params) (request : DMARequest) : Prop where
  covers : request.messages.flatMap (fun msg => range' msg.PhysicalAddress msg.Len) =
    range' request.start_paddr request.len
  lines : ∀ msg ∈ request.messages, msg.LineAddress = params.makeLineAddress msg.PhysicalAddress ∧
    params.offset msg.PhysicalAddress + msg.Len ≤ params.blockSize
  writes : request.write = true → ∀ msg ∈ request.messages, ∀ place < msg.Len,
    msg.DataBlk (params.offset msg.PhysicalAddress + place) =
      request.pkt.data (msg.PhysicalAddress - request.start_paddr + place)
  reads : request.write = false → request.answers.length = request.messages.length ∧
    ∀ pair ∈ request.messages.zip request.answers, ∀ place < pair.1.Len,
      request.data (pair.1.PhysicalAddress - request.start_paddr + place) =
        pair.2 (params.offset pair.1.PhysicalAddress + place)

/-- A packet lies in one line. -/
def Packet.InLine (params : Params) (pkt : Packet) : Prop := params.offset pkt.addr + pkt.size ≤ params.blockSize

/-- This machine accepts requests of at least one byte. -/
def transfers (params : Params) : Machine DMASequencer Op Fault where
  guard := fun _ op => ∀ pkt, op = .makeRequest pkt → 1 ≤ pkt.size
  step := DMASequencer.step params

/-- This machine accepts requests that lie in one line. -/
def lineTransfers (params : Params) : Machine DMASequencer Op Fault where
  guard := fun _ op => ∀ pkt, op = .makeRequest pkt → 1 ≤ pkt.size ∧ pkt.InLine params
  step := DMASequencer.step params

namespace DMASequencer
variable {params : Params} {sequencer : DMASequencer} {pkt : Packet}

/-- This entry is what the table holds for an accepted packet. -/
def opened (params : Params) (pkt : Packet) : Nat × DMARequest :=
  (params.makeLineAddress pkt.addr, ⟨pkt.addr, pkt.size, pkt.isWrite, 0, (firstMessage params pkt).Len, pkt.data, pkt,
    [firstMessage params pkt], []⟩)

/-- The sequencer serves the packets in its table, each with one unanswered message. -/
structure Serving (params : Params) (sequencer : DMASequencer) (pkts : List Packet) : Prop where
  table : sequencer.requestTable = pkts.map (opened params)
  inLine : ∀ pkt ∈ pkts, pkt.InLine params
  keys : (pkts.map fun pkt => params.makeLineAddress pkt.addr).Nodup
  count : sequencer.outstandingCount = pkts.length
  bound : sequencer.outstandingCount ≤ params.maxOutstandingRequests
  waiting : sequencer.unanswered.Perm (pkts.map (firstMessage params))
  once : sequencer.accepted.Perm (sequencer.hits.map DMARequest.pkt ++ pkts)
  served : ∀ request ∈ sequencer.hits, Served params request

section Table
variable {before after : List (Nat × DMARequest)} {address : Nat} {request changed : DMARequest}
  (table : sequencer.requestTable = before ++ (address, request) :: after)
  (apart : ∀ entry ∈ before ++ after, entry.1 ≠ address)
include apart

theorem erase_split :
    (before ++ (address, request) :: after).eraseP (fun entry => entry.1 == address) = before ++ after := by
  rw [eraseP_append_right]
  · simp
  · intro entry member
    simpa using apart entry (mem_append_left _ member)

include table

theorem find_split : sequencer.find address = some (address, request) := by
  unfold find
  rw [table, find?_append]
  have missed : before.find? (fun entry => entry.1 == address) = none := by
    rw [find?_eq_none]
    intro entry member
    simpa using apart entry (mem_append_left _ member)
  simp [missed]

theorem store_split : (sequencer.store address changed).requestTable = before ++ (address, changed) :: after := by
  have same : ∀ entries : List (Nat × DMARequest), (∀ entry ∈ entries, entry.1 ≠ address) →
      entries.map (fun entry => if entry.1 = address then (address, changed) else entry) = entries := by
    intro entries different
    conv_rhs => rw [← map_id entries]
    apply map_congr_left
    intro entry member
    rw [if_neg (different entry member)]
    rfl
  unfold store
  rw [table, map_append, map_cons, if_pos rfl, same before fun entry member => apart entry (mem_append_left _ member),
    same after fun entry member => apart entry (mem_append_right _ member)]

/-- A request whose bytes were all issued completes with one callback. -/
theorem issueNext_done (issued : request.len = request.bytes_issued)
    (bound : sequencer.outstandingCount ≤ params.maxOutstandingRequests) :
    sequencer.issueNext params address = .ok { sequencer with
      requestTable := before ++ after
      outstandingCount := sequencer.outstandingCount - 1
      hits := sequencer.hits ++ [{ request with bytes_completed := request.bytes_issued }] } := by
  unfold issueNext
  rw [find_split table apart]
  dsimp only
  rw [assert_of bound, ok_bind, if_pos issued, table, erase_split apart]
  rfl

end Table

/-- The only message of a request in one line covers all of it. -/
theorem firstMessage_len (inLine : pkt.InLine params) : (firstMessage params pkt).Len = pkt.size := by
  exact if_pos inLine

theorem firstMessage_covers (inLine : pkt.InLine params) :
    [firstMessage params pkt].flatMap (fun msg => range' msg.PhysicalAddress msg.Len) = range' pkt.addr pkt.size := by
  rw [flatMap_cons, flatMap_nil, append_nil, firstMessage_len inLine]
  rfl

theorem firstMessage_line (inLine : pkt.InLine params) : ∀ msg ∈ [firstMessage params pkt],
    msg.LineAddress = params.makeLineAddress msg.PhysicalAddress ∧
      params.offset msg.PhysicalAddress + msg.Len ≤ params.blockSize := by
  rw [forall_mem_singleton, firstMessage_len inLine]
  exact ⟨rfl, inLine⟩

theorem setData_apply {data : Bytes} {offset len place : Nat} (inside : place < len) :
    setData data offset len (offset + place) = data place := by
  unfold setData
  rw [if_pos ⟨by omega, by omega⟩, Nat.add_sub_cancel_left]

theorem copyBack_apply {buffer block : Bytes} {offset len place : Nat} (inside : place < len) :
    copyBack buffer 0 block offset len place = block (offset + place) := by
  unfold copyBack
  rw [if_pos ⟨by omega, by omega⟩, Nat.sub_zero]

theorem served_write (inLine : pkt.InLine params) (write : pkt.isWrite = true) :
    Served params { (opened params pkt).2 with bytes_completed := (opened params pkt).2.bytes_issued } := by
  have len := firstMessage_len inLine
  refine ⟨firstMessage_covers inLine, firstMessage_line inLine, ?_, ?_⟩
  · intro _ msg member place inside
    obtain rfl := mem_singleton.mp member
    rw [len] at inside
    have carried : (firstMessage params pkt).DataBlk = setData pkt.data (params.offset pkt.addr) pkt.size := by
      rw [← len]
      simp [firstMessage, write]
    rw [carried]
    simpa [opened, firstMessage] using setData_apply inside
  · intro read
    simp [opened, write] at read

theorem served_read (inLine : pkt.InLine params) (read : pkt.isWrite = false) (block : Bytes) :
    Served params { received params (opened params pkt).2 block with
      bytes_completed := (received params (opened params pkt).2 block).bytes_issued } := by
  refine ⟨firstMessage_covers inLine, firstMessage_line inLine, ?_, ?_⟩
  · intro write
    simp [received, opened, read] at write
  · intro _
    refine ⟨rfl, ?_⟩
    intro pair member place inside
    obtain rfl : pair = (firstMessage params pkt, block) := by simpa [received, opened] using member
    simpa [received, opened, firstMessage] using copyBack_apply inside

namespace Serving
variable {pkts : List Packet} {pkt : Packet}

theorem initial : Serving params DMASequencer.initial [] :=
  ⟨rfl, by simp, nodup_nil, rfl, Nat.zero_le _, .nil, .nil, by simp [DMASequencer.initial]⟩

/-- A request is refused while the table is full or holds its line, and otherwise it issues its only message. -/
theorem makeRequest (serving : Serving params sequencer pkts) (inLine : pkt.InLine params) :
    ∃ status next after, sequencer.makeRequest params pkt = .ok (status, next) ∧ Serving params next after := by
  unfold DMASequencer.makeRequest
  by_cases full : sequencer.outstandingCount = params.maxOutstandingRequests
  · rw [if_pos full]
    exact ⟨_, sequencer, pkts, rfl, serving⟩
  have room : sequencer.outstandingCount < params.maxOutstandingRequests := Nat.lt_of_le_of_ne serving.bound full
  rw [if_neg full, assert_of room, ok_bind]
  by_cases aliased : (sequencer.find (params.makeLineAddress pkt.addr)).isSome = true
  · simp only [aliased, if_true]
    exact ⟨_, sequencer, pkts, rfl, serving⟩
  simp only [aliased]
  refine ⟨_, _, pkts ++ [pkt], rfl, ?_, ?_, ?_, ?_, room, ?_, ?_, serving.served⟩
  · simp [serving.table, opened]
  · exact forall_mem_append.mpr ⟨serving.inLine, forall_mem_singleton.mpr inLine⟩
  · rw [map_append, nodup_append]
    refine ⟨serving.keys, nodup_singleton _, ?_⟩
    intro line earlier late new same
    rw [mem_singleton.mp new] at same
    obtain ⟨other, member, rfl⟩ := mem_map.mp earlier
    apply aliased
    unfold DMASequencer.find
    rw [find?_isSome, serving.table]
    exact ⟨opened params other, mem_map_of_mem member, by simpa [opened] using same⟩
  · simp [serving.count]
  · rw [map_append]
    exact serving.waiting.append (.refl _)
  · rw [← append_assoc]
    exact (serving.once.cons pkt).trans (perm_append_singleton pkt _).symm

/-- The answered packet stands at one place of the table, and no other entry has its line. -/
theorem split (serving : Serving params sequencer pkts) (member : pkt ∈ pkts) :
    ∃ before after, pkts = before ++ pkt :: after ∧ ∀ entry ∈ before.map (opened params) ++ after.map (opened params),
        entry.1 ≠ params.makeLineAddress pkt.addr := by
  obtain ⟨before, after, rfl⟩ := append_of_mem member
  refine ⟨before, after, rfl, ?_⟩
  intro entry inside same
  rw [← map_append] at inside
  obtain ⟨other, listed, rfl⟩ := mem_map.mp inside
  have distinct := serving.keys
  rw [map_append, map_cons, nodup_middle, nodup_cons, ← map_append] at distinct
  exact distinct.1 (mem_map.mpr ⟨other, listed, same⟩)

/-- A completed request leaves the table, and the other requests go on. -/
theorem completed {before after : List Packet} {index : Nat} {msg : SequencerMsg} {done : DMARequest}
    (serving : Serving params sequencer (before ++ pkt :: after)) (delivered : sequencer.unanswered[index]? = some msg)
    (answers : firstMessage params pkt = msg) (own : done.pkt = pkt) (served : Served params done) :
    Serving params { sequencer with
      requestTable := before.map (opened params) ++ after.map (opened params)
      outstandingCount := sequencer.outstandingCount - 1
      unanswered := sequencer.unanswered.eraseIdx index
      hits := sequencer.hits ++ [done] } (before ++ after) := by
  refine ⟨by simp, ?_, ?_, ?_, ?_, ?_, ?_, ?_⟩
  · have inLine := serving.inLine
    rw [forall_mem_append, forall_mem_cons] at inLine
    exact forall_mem_append.mpr ⟨inLine.1, inLine.2.2⟩
  · have distinct := serving.keys
    rw [map_append, map_cons, nodup_middle, nodup_cons, ← map_append] at distinct
    exact distinct.2
  · simp [serving.count]
  · exact Nat.le_trans (Nat.sub_le _ _) serving.bound
  · obtain ⟨inside, found⟩ := List.getElem?_eq_some_iff.mp delivered
    have removed : (msg :: sequencer.unanswered.eraseIdx index).Perm sequencer.unanswered :=
      found ▸ getElem_cons_eraseIdx_perm inside
    have listed : ((before ++ pkt :: after).map (firstMessage params)).Perm
        (msg :: (before ++ after).map (firstMessage params)) := by
      rw [← answers, ← map_cons]
      exact perm_middle.map _
    exact (perm_cons msg).mp ((removed.trans serving.waiting).trans listed)
  · rw [map_append, append_assoc, map_singleton, own]
    exact serving.once.trans (perm_middle.append_left _)
  · exact forall_mem_append.mpr ⟨serving.served, forall_mem_singleton.mpr served⟩

/-- An answer completes the request of its message. -/
theorem answer (serving : Serving params sequencer pkts) (index : Nat) (block : Bytes) :
    ∃ next after, sequencer.step params (.answer index block) = .ok next ∧ Serving params next after := by
  cases delivered : sequencer.unanswered[index]? with
  | none => exact ⟨sequencer, pkts, by simp only [step, delivered], serving⟩
  | some msg =>
    have listed := serving.waiting.subset (mem_of_getElem? delivered)
    obtain ⟨pkt, member, answers⟩ := mem_map.mp listed
    obtain ⟨before, after, rfl, apart⟩ := serving.split member
    have inLine := serving.inLine pkt member
    have line : msg.LineAddress = params.makeLineAddress pkt.addr := by rw [← answers]; rfl
    have write : msg.write = pkt.isWrite := by rw [← answers]; rfl
    have table : sequencer.requestTable = before.map (opened params) ++
        (params.makeLineAddress pkt.addr, (opened params pkt).2) :: after.map (opened params) := by
      rw [serving.table, map_append, map_cons]
      rfl
    have issued : pkt.size = (firstMessage params pkt).Len := (firstMessage_len inLine).symm
    have found : ({ sequencer with unanswered := sequencer.unanswered.eraseIdx index } : DMASequencer).find
        (params.makeLineAddress pkt.addr) = some (params.makeLineAddress pkt.addr, (opened params pkt).2) :=
      find_split table apart
    simp only [step, delivered, line, write]
    cases direction : pkt.isWrite with
    | true =>
      refine ⟨_, before ++ after, ?_, serving.completed delivered answers rfl (served_write inLine direction)⟩
      rw [if_pos rfl, ackCallback, found, assert_of Option.isSome_some, ok_bind]
      exact issueNext_done table apart issued serving.bound
    | false =>
      refine ⟨_, before ++ after, ?_, serving.completed delivered answers rfl (served_read inLine direction block)⟩
      rw [if_neg (by simp), dataCallback, found]
      dsimp only
      have reads : (opened params pkt).2.write = false := direction
      rw [assert_of reads, ok_bind]
      exact issueNext_done (store_split table apart) apart issued serving.bound

/-- Every allowed call succeeds. -/
theorem step {op : Op} (serving : Serving params sequencer pkts) (allowed : (lineTransfers params).guard sequencer op) :
    ∃ next after, sequencer.step params op = .ok next ∧ Serving params next after := by
  cases op with
  | makeRequest pkt =>
    obtain ⟨status, next, after, made, kept⟩ := serving.makeRequest (allowed pkt rfl).2
    exact ⟨next, after, by simp only [DMASequencer.step, made, ok_bind]; rfl, kept⟩
  | answer index block => exact serving.answer index block

end Serving

theorem Serving.of_run {history : List Op} (run : (lineTransfers params).Run .initial history sequencer) :
    ∃ pkts, Serving params sequencer pkts := by
  refine run.invariant (fun sequencer => ∃ pkts, Serving params sequencer pkts) ⟨[], .initial⟩ ?_
  rintro state op next ⟨pkts, serving⟩ allowed stepped
  obtain ⟨reached, after, done, kept⟩ := serving.step allowed
  cases done.symm.trans stepped
  exact ⟨after, kept⟩

/-- If each request lies in one line, no assertion fails, each accepted packet is in the table or was passed once to the
callback, the count is the size of the table, and every completed request was served. Once all messages are answered, all
accepted packets were passed to the callback and the count is zero. -/
theorem requests_in_one_line_served (params : Params) (history : List Op) (sequencer : DMASequencer)
    (run : (lineTransfers params).Run .initial history sequencer) :
    sequencer.accepted.Perm
        (sequencer.hits.map DMARequest.pkt ++ sequencer.requestTable.map fun entry => entry.2.pkt) ∧
      sequencer.outstandingCount = sequencer.requestTable.length ∧
      (∀ request ∈ sequencer.hits, Served params request) ∧
      (sequencer.unanswered = [] → sequencer.requestTable = [] ∧ sequencer.outstandingCount = 0 ∧
        sequencer.accepted.Perm (sequencer.hits.map DMARequest.pkt)) ∧
      ∀ op, (lineTransfers params).guard sequencer op → ∃ next, sequencer.step params op = .ok next := by
  obtain ⟨pkts, serving⟩ := Serving.of_run run
  have listed : (sequencer.requestTable.map fun entry => entry.2.pkt) = pkts := by
    rw [serving.table, map_map]
    exact map_id pkts
  refine ⟨?_, ?_, serving.served, ?_, ?_⟩
  · rw [listed]
    exact serving.once
  · rw [serving.count, serving.table, length_map]
  · intro answered
    have waiting := serving.waiting
    rw [answered, nil_perm, map_eq_nil_iff] at waiting
    subst waiting
    exact ⟨serving.table, serving.count, by simpa using serving.once⟩
  · intro op allowed
    obtain ⟨next, _, done, _⟩ := serving.step allowed
    exact ⟨next, done⟩

/-- A device with lines of four bytes and room for two requests. -/
def smallParams : Params := ⟨2, 2⟩

/-- A read of two bytes inside one line completes. -/
theorem requests_in_one_line_served_read : ∃ sequencer, (lineTransfers smallParams).Run .initial
      [.answer 0 fun place => place, .makeRequest ⟨5, 2, false, fun _ => 0⟩] sequencer ∧
    sequencer.hits.length = 1 ∧ (∀ request ∈ sequencer.hits, Served smallParams request) ∧
    sequencer.outstandingCount = 0 := by
  have inLine : (⟨5, 2, false, fun _ => 0⟩ : Packet).InLine smallParams := by
    simp [Packet.InLine, Params.offset, Params.blockSize, smallParams]
  exact ⟨_, and_of_imp (.cons (.cons .nil (fun pkt same => by cases same; exact ⟨by decide, inLine⟩) rfl)
    (fun pkt same => nomatch same) rfl) fun run => ⟨rfl, (requests_in_one_line_served smallParams _ _ run).2.2.1,
      ((requests_in_one_line_served smallParams _ _ run).2.2.2.1 rfl).2.1⟩⟩

/-- The answer for the second line of a request finds no entry under that line. -/
theorem second_line_answer_fails : ∃ sequencer, (transfers smallParams).Run .initial
      [.answer 0 fun _ => 0, .makeRequest ⟨0, 8, false, fun _ => 0⟩] sequencer ∧
    sequencer.hits = [] ∧ sequencer.unanswered.map SequencerMsg.LineAddress = [4] ∧
    sequencer.step smallParams (.answer 0 fun _ => 0) = .error (.assertion "i != m_RequestTable.end()") :=
  ⟨_, .cons (.cons .nil (fun pkt same => by cases same; decide) rfl) (fun pkt same => nomatch same) rfl, rfl, rfl, rfl⟩

end DMASequencer
end Gem5.Ruby.Dma
