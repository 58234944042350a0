import Gem5.Construction.Dev.PacketFifo

namespace Gem5.Net.PacketFifo
open ToMathlib List

/-- The byte stream of a queue. -/
def bytes (fifo : PacketFifo) : List UInt8 := fifo.fifo.flatMap (·.data)

/-- A copy from the first byte on takes the packets one after the other. -/
theorem copyLoop_start {passes len : Nat} {i : List EthPacketData} (enough : len ≤ passes)
    (inside : len ≤ (i.flatMap (·.data)).length) : copyLoop passes i 0 len = .ok ((i.flatMap (·.data)).take len) := by
  induction passes generalizing i len with
  | zero =>
    obtain rfl := Nat.le_zero.mp enough
    rw [copyLoop, take_zero]
  | succ passes ih =>
    rcases len with _ | len
    · rw [copyLoop, take_zero]
    rcases i with _ | ⟨pkt, rest⟩
    · simp at inside
    have positive : 0 < pkt.data.length := length_pos_of_ne_nil pkt.nonempty
    have stays : skip pkt.length (pkt :: rest) 0 = .ok (pkt :: rest, 0) := if_neg (Nat.not_le.mpr positive)
    rw [flatMap_cons, length_append] at inside
    have later : copyLoop passes rest 0 (len + 1 - min pkt.data.length (len + 1)) =
        .ok ((rest.flatMap (·.data)).take (len + 1 - pkt.data.length)) := by
      rw [ih (by omega) (by omega)]
      congr 2
      omega
    rw [copyLoop, stays, ok_bind, flatMap_cons, take_append, take_eq_take_min, Nat.min_comm]
    simp only [EthPacketData.length, Nat.sub_zero, later, ok_bind]

/-- The inner loop ends with an offset inside the packet where it began. -/
theorem skip_lt {length offset left : Nat} {i next : List EthPacketData}
    (done : skip length i offset = .ok (next, left)) : left < length := by
  induction i generalizing offset with
  | nil =>
    obtain ⟨inside, done⟩ := ite_error_eq_ok.mp done
    cases done
    exact Nat.not_le.mp inside
  | cons entry rest ih =>
    rw [skip] at done
    split at done
    · exact ih done
    · next inside =>
      cases done
      exact Nat.not_le.mp inside

/-- Every copy starts with the first byte of the queue. -/
theorem copyLoop_head {passes offset len : Nat} {i : List EthPacketData} {copied : List UInt8} (some : len ≠ 0)
    (done : copyLoop passes i offset len = .ok copied) : copied.head? = (i.flatMap (·.data)).head? := by
  obtain ⟨rest, rfl⟩ := Nat.exists_eq_succ_of_ne_zero some
  rcases passes with _ | passes
  · cases done
  rcases i with _ | ⟨pkt, later⟩
  · cases done
  obtain ⟨⟨next, left⟩, skipped, done⟩ := bind_eq_ok.mp done
  have inside := skip_lt skipped
  rcases next with _ | ⟨_, next⟩
  · cases done
  obtain ⟨_, _, rfl⟩ := bind_ok_eq_ok.mp done
  have size : min (pkt.length - left) (rest + 1) ≠ 0 := by omega
  rw [flatMap_cons, head?_append_of_ne_nil _ pkt.nonempty, head?_append_of_ne_nil, head?_take, if_neg size]
  simp [size, pkt.nonempty]

/-- This list has the lengths of the packets of a queue. -/
def lengths (fifo : PacketFifo) : List Nat := fifo.fifo.map EthPacketData.length

theorem size_eq (fifo : PacketFifo) : fifo.size = fifo.lengths.sum := by
  rw [fifo.counted, length_flatMap]
  rfl

theorem exists_first (fifo : PacketFifo) (some : fifo.size ≠ 0) (byte : UInt8) :
    ∃ other : PacketFifo, other.lengths = fifo.lengths ∧ other.bytes = byte :: fifo.bytes.tail := by
  obtain ⟨_ | ⟨⟨data, nonempty⟩, rest⟩, size, counted, narrow⟩ := fifo
  · exact absurd counted some
  obtain ⟨first, later, rfl⟩ := exists_cons_of_ne_nil nonempty
  exact ⟨⟨⟨byte :: later, cons_ne_nil _ _⟩ :: rest, size, counted, narrow⟩, rfl, rfl⟩

/-- A copy is the requested part of the bytes, or it is refused because the queue has fewer. -/
def Copies (fifo : PacketFifo) (offset len : Nat) : Prop :=
  fifo.copyout offset len =
    .ok (if offset + len ≤ fifo.size then some ((fifo.bytes.drop offset).take len) else none)

/-- A right copy of some bytes starts with the first byte. -/
theorem Copies.first {fifo : PacketFifo} {offset len : Nat} (right : fifo.Copies offset len) (some : len ≠ 0)
    (inside : offset + len < fifo.size) : fifo.bytes[offset]? = fifo.bytes.head? := by
  have narrow := fifo.narrow
  rw [Copies, copyout, Nat.mod_eq_of_lt (by omega), if_neg (by omega), if_pos (by omega)] at right
  obtain ⟨copied, done, same⟩ := bind_ok_eq_ok.mp right
  have first : copied.head? = fifo.bytes.head? := copyLoop_head some done
  rwa [Option.some.inj same, head?_take, if_neg some, head?_drop] at first

/-- A copy is right for all contents of packets of some lengths exactly if it ends beyond the queue, also after the
overflow of its end, or ends before the queue does and starts with it or has no bytes. -/
theorem copyout_segment (fifo : PacketFifo) (offset len : Nat) :
    (∀ other : PacketFifo, other.lengths = fifo.lengths → other.Copies offset len) ↔
      fifo.size < offset + len ∧ fifo.size ≤ (offset + len) % 2 ^ 32 ∨
        offset + len < fifo.size ∧ (offset = 0 ∨ len = 0) := by
  have narrow := fifo.narrow
  have sized : ∀ other : PacketFifo, other.lengths = fifo.lengths → other.size = fifo.size := by
    intro other lengths
    rw [size_eq, lengths, size_eq]
  constructor
  · intro right
    have answer := right fifo rfl
    rw [Copies, copyout] at answer
    by_cases refused : fifo.size ≤ (offset + len) % 2 ^ 32
    · rw [if_pos refused] at answer
      split at answer
      · cases answer
      · exact .inl ⟨by omega, refused⟩
    rw [if_neg refused] at answer
    obtain ⟨_, _, same⟩ := bind_ok_eq_ok.mp answer
    split at same
    · refine .inr ⟨by omega, ?_⟩
      by_contra! inner
      -- Another first byte does not change the requested one.
      obtain ⟨place, rfl⟩ := Nat.exists_eq_succ_of_ne_zero inner.1
      obtain ⟨other, lengths, bytes⟩ := fifo.exists_first (by omega) (fifo.bytes.getD (place + 1) 0 + 1)
      have first := (right other lengths).first inner.2 (by rw [sized other lengths]; omega)
      have inside : place + 1 < fifo.bytes.length := by
        rw [PacketFifo.bytes, ← fifo.counted]
        omega
      rw [bytes, getElem?_cons_succ, getElem?_tail, getElem?_eq_getElem inside, head?_cons,
        getD_eq_getElem _ _ inside] at first
      simp at first
    · cases same
  · rintro condition other lengths
    rw [Copies, copyout, sized other lengths]
    rcases condition with ⟨beyond, refused⟩ | ⟨inner, start⟩
    · rw [if_pos refused, if_neg (Nat.not_le.mpr beyond)]
    have copied : copyLoop len other.fifo offset len = .ok ((other.bytes.drop offset).take len) := by
      rcases start with rfl | rfl
      · have counted := sized other lengths ▸ other.counted
        exact copyLoop_start (Nat.le_refl len) (by omega)
      · rw [copyLoop, take_zero]
    rw [Nat.mod_eq_of_lt (by omega), if_neg (by omega), if_pos (by omega), copied, ok_bind]

/-- A queue of two packets. -/
def twoPackets : PacketFifo := ⟨[⟨[1, 2], by decide⟩, ⟨[3, 4], by decide⟩], 4, rfl, by decide⟩

/-- A copy from the second byte on returns the first byte, and a copy of the whole queue is refused. -/
theorem copyout_other_bytes : twoPackets.copyout 1 1 = .ok (some [1]) ∧ (twoPackets.bytes.drop 1).take 1 = [2] ∧
    twoPackets.copyout 0 4 = .ok none ∧ twoPackets.size = 4 :=
  ⟨rfl, rfl, rfl, rfl⟩

end Gem5.Net.PacketFifo
