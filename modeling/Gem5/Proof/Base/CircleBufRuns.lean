import Gem5.Construction.Base.CircleBuf
import Gem5.Proof.Sim.SerializeArrays

namespace Gem5
open ToMathlib List

theorem sizeT_of_lt {value : Nat} (small : value < 2 ^ 64) : sizeT value = value := Nat.mod_eq_of_lt small

theorem sizeTSub_eq {value amount : Nat} (small : value < 2 ^ 64) (less : amount ≤ value) :
    sizeTSub value amount = value - amount := by
  have moved : value + 2 ^ 64 - amount = value - amount + 2 ^ 64 := by omega
  rw [sizeTSub, sizeT, moved, Nat.add_mod_right, Nat.mod_eq_of_lt (by omega)]

/-- A wrapped position lies at the same place when the capacity divides the range of the positions. -/
theorem sizeT_mod {position size : Nat} (steady : size ∣ 2 ^ 64 ∨ position < 2 ^ 64) :
    sizeT position % size = position % size := by
  rcases steady with divides | small
  · exact Nat.mod_mod_of_dvd position divides
  · rw [sizeT_of_lt small]

theorem sizeT_add_mod {position size : Nat} (steady : size ∣ 2 ^ 64 ∨ position < 2 ^ 64) (index : Nat) :
    (sizeT position + index) % size = (position + index) % size := by
  rw [Nat.add_mod, sizeT_mod steady, ← Nat.add_mod]

/-- The last part of a list. -/
def lastElements {T : Type} (capacity : Nat) (elements : List T) : List T := elements.drop (elements.length - capacity)

namespace CircleBuf
variable {T : Type} {buf : CircleBuf T} {content input : List T} {offset len : Nat}

/-- The content of a buffer lies behind its start in the ring, and its positions do not wrap, unless the wrapped
positions lie at the same places. -/
structure Holds (buf : CircleBuf T) (content : List T) : Prop where
  positive : 1 ≤ buf.maxSize
  size : buf.used = content.length
  fits : content.length ≤ buf.maxSize
  steady : buf.maxSize ∣ 2 ^ 64 ∨ buf.start + content.length ≤ 2 ^ 64
  ring : ∀ i < content.length, buf.buffer[(buf.start + i) % buf.maxSize]? = content[i]?

theorem place_eq (positive : 1 ≤ buf.maxSize) (position : Nat) :
    buf.place position = .ok (position % buf.maxSize) := if_neg (by omega)

theorem Holds.peek_eq (holds : buf.Holds content) (inside : offset + len ≤ content.length) :
    buf.peek offset len = .ok ((content.drop offset).take len) := by
  have limited := buf.limited
  have fits := holds.fits
  have size := holds.size
  have positive := holds.positive
  unfold peek
  rw [sizeT_of_lt (by omega), if_neg (by omega)]
  by_cases empty : len = 0
  · rw [if_pos empty, empty, take_zero]
  have steady : buf.maxSize ∣ 2 ^ 64 ∨ buf.start + offset < 2 ^ 64 := holds.steady.imp_right fun last => by omega
  rw [if_neg empty, place_eq positive, ok_bind, sizeT_mod steady]
  have start : (buf.start + offset) % buf.maxSize < buf.maxSize := Nat.mod_lt _ positive
  have reads : readRing buf.buffer ((buf.start + offset) % buf.maxSize) len = (content.drop offset).take len := by
    apply ext_getElem?
    intro i
    by_cases here : i < len
    · rw [getElem?_readRing start (by omega) here, Nat.mod_add_mod, Nat.add_assoc, holds.ring _ (by omega),
        getElem?_take, if_pos here, getElem?_drop]
    · rw [getElem?_eq_none (by rw [length_readRing start (by omega)]; omega),
        getElem?_eq_none (by rw [length_take]; omega)]
  rw [← reads]
  unfold readRing
  split
  · rename_i wraps
    exact if_pos wraps
  · rename_i straight
    exact if_neg straight

theorem flush_holds (positive : 1 ≤ buf.maxSize) : buf.flush.Holds [] where
  positive := positive
  size := rfl
  fits := Nat.zero_le _
  steady := .inr (Nat.zero_le _)
  ring := by simp

theorem Holds.read_eq (holds : buf.Holds content) (inside : len ≤ content.length) :
    ∃ next, buf.read len = .ok (content.take len, next) ∧ next.maxSize = buf.maxSize ∧
      next.Holds (content.drop len) := by
  have limited := buf.limited
  have fits := holds.fits
  have size := holds.size
  refine ⟨{ buf with used := sizeTSub buf.used len, start := sizeT (buf.start + len) }, ?_, rfl, ?_⟩
  · rw [read, holds.peek_eq (by omega), ok_bind]
    rfl
  · constructor
    · exact holds.positive
    · change sizeTSub buf.used len = _
      rw [sizeTSub_eq (by omega) (by omega), length_drop, size]
    · rw [length_drop]
      exact Nat.le_trans (Nat.sub_le _ _) fits
    · refine holds.steady.imp_right fun last => ?_
      change sizeT (buf.start + len) + _ ≤ _
      rw [length_drop]
      by_cases wraps : buf.start + len < 2 ^ 64
      · rw [sizeT_of_lt wraps]
        omega
      · have all : sizeT (buf.start + len) = 0 := by
          rw [sizeT, show buf.start + len = 2 ^ 64 by omega, Nat.mod_self]
        omega
    · intro i here
      rw [length_drop] at here
      have steady : buf.maxSize ∣ 2 ^ 64 ∨ buf.start + len < 2 ^ 64 := holds.steady.imp_right fun last => by omega
      change buf.buffer[(sizeT (buf.start + len) + i) % buf.maxSize]? = _
      rw [sizeT_add_mod steady, Nat.add_assoc, holds.ring _ (by omega), getElem?_drop]

/-- A write that is not longer than the buffer keeps the last elements. -/
theorem Holds.writeFitting_eq (holds : buf.Holds content) (input : List T) (some : 1 ≤ input.length)
    (fitting : input.length ≤ buf.maxSize)
    (steady : buf.maxSize ∣ 2 ^ 64 ∨ buf.start + content.length + input.length ≤ 2 ^ 64) :
    ∃ next, buf.writeFitting input = .ok next ∧ next.maxSize = buf.maxSize ∧
      next.Holds (lastElements buf.maxSize (content ++ input)) := by
  have limited := buf.limited
  have fits := holds.fits
  have size := holds.size
  have positive := holds.positive
  set used := content.length with usedEq
  set added := input.length with addedEq
  have total : sizeT (used + added) = used + added := sizeT_of_lt (by omega)
  have overflow : (if buf.maxSize < used + added then used + added - buf.maxSize else 0) =
      used + added - buf.maxSize := by
    split
    · rfl
    · omega
  have here : buf.maxSize ∣ 2 ^ 64 ∨ buf.start + used < 2 ^ 64 := steady.imp_right fun last => by omega
  have start : (buf.start + used) % buf.maxSize < buf.maxSize := Nat.mod_lt _ positive
  let next : CircleBuf T := { buf with
    start := sizeT (buf.start + (used + added - buf.maxSize))
    buffer := writeRing buf.buffer ((buf.start + used) % buf.maxSize) input
    used := used + added - (used + added - buf.maxSize) }
  have length : (lastElements buf.maxSize (content ++ input)).length = next.used := by
    simp only [next, lastElements, length_drop, length_append, usedEq, addedEq]
  refine ⟨next, ?_, rfl, positive, length.symm, ?_, ?_, ?_⟩
  · unfold writeFitting
    simp only [size, ← addedEq, total, overflow, place_eq positive, ok_bind, sizeT_mod here]
    split
    · rename_i wraps
      have whole : sizeT (sizeT (used + (buf.maxSize - (buf.start + used) % buf.maxSize)) +
          (added - (buf.maxSize - (buf.start + used) % buf.maxSize))) = used + added := by
        rw [sizeT_of_lt (by omega : used + (buf.maxSize - (buf.start + used) % buf.maxSize) < 2 ^ 64),
          sizeT_of_lt (by omega)]
        omega
      rw [whole, sizeTSub_eq (by omega) (by omega)]
      simp only [next, writeRing, ← addedEq, if_pos wraps]
    · rename_i straight
      rw [sizeTSub_eq (by omega) (by omega)]
      simp only [next, writeRing, ← addedEq, if_neg straight]
  · rw [length]
    simp only [next]
    omega
  · refine steady.imp_right fun last => ?_
    rw [length]
    simp only [next]
    rw [sizeT_of_lt (by omega)]
    omega
  · intro i inside
    rw [length] at inside
    simp only [next] at inside
    have advanced : buf.maxSize ∣ 2 ^ 64 ∨ buf.start + (used + added - buf.maxSize) < 2 ^ 64 :=
      steady.imp_right fun last => by omega
    simp only [next, lastElements, length_append, getElem?_drop, ← usedEq, ← addedEq]
    rw [sizeT_add_mod advanced, Nat.add_assoc, getElem?_append]
    generalize position : used + added - buf.maxSize + i = o
    split
    · rename_i old
      have kept : (buf.start + o) % buf.maxSize =
          ((buf.start + used) % buf.maxSize + (o + buf.maxSize - used)) % buf.maxSize := by
        rw [Nat.mod_add_mod, show buf.start + used + (o + buf.maxSize - used) = buf.start + o + buf.maxSize by omega,
          Nat.add_mod_right]
      rw [kept, getElem?_writeRing_kept start (by omega) (by omega), ← kept, holds.ring o old]
    · rename_i new
      have written : (buf.start + o) % buf.maxSize =
          ((buf.start + used) % buf.maxSize + (o - used)) % buf.maxSize := by
        rw [Nat.mod_add_mod, show buf.start + used + (o - used) = buf.start + o by omega]
      rw [written, getElem?_writeRing start fitting (by omega)]

/-- The positions of a write do not wrap, or its result does not depend on the start. -/
def steadyWrite (buf : CircleBuf T) (input : List T) : Prop :=
  buf.maxSize ∣ 2 ^ 64 ∨ buf.maxSize < input.length ∨ input.length = 0 ∨ buf.start + buf.used + input.length ≤ 2 ^ 64

theorem Holds.write_eq (holds : buf.Holds content) (steady : buf.steadyWrite input) :
    ∃ next, buf.write input = .ok next ∧ next.maxSize = buf.maxSize ∧
      next.Holds (lastElements buf.maxSize (content ++ input)) := by
  have positive := holds.positive
  unfold write
  by_cases empty : input.length = 0
  · refine ⟨buf, if_pos empty, rfl, ?_⟩
    obtain rfl := length_eq_zero_iff.mp empty
    have all : lastElements buf.maxSize (content ++ []) = content := by
      rw [lastElements, append_nil, Nat.sub_eq_zero_of_le holds.fits, drop_zero]
    rw [all]
    exact holds
  · rw [if_neg empty]
    by_cases long : buf.maxSize < input.length
    · have whole : (input.drop (input.length - buf.maxSize)).length = buf.maxSize := by
        rw [length_drop]
        omega
      have limited := buf.limited
      obtain ⟨next, done, same, kept⟩ := (flush_holds positive).writeFitting_eq (input.drop (input.length - buf.maxSize))
        (by omega) (Nat.le_of_eq whole) (.inr (by rw [whole]; simp only [CircleBuf.flush, length_nil]; omega))
      refine ⟨next, by rw [if_pos long, done], same, ?_⟩
      have last : lastElements buf.maxSize (content ++ input) =
          lastElements buf.flush.maxSize ([] ++ input.drop (input.length - buf.maxSize)) := by
        have first : (input.drop (input.length - buf.maxSize)).length - buf.flush.maxSize = 0 := by
          rw [whole]
          exact Nat.sub_self _
        rw [nil_append, lastElements, lastElements, first, drop_zero, length_append, drop_append,
          drop_eq_nil_of_le (by omega), nil_append]
        congr 1
        omega
      rw [last]
      exact kept
    · rw [if_neg long]
      apply holds.writeFitting_eq input (by omega) (by omega)
      rcases steady with divides | tooLong | none | last
      · exact .inl divides
      · exact absurd tooLong long
      · exact absurd none empty
      · exact .inr (holds.size ▸ last)

theorem Holds.contents_eq (holds : buf.Holds content) : buf.peek 0 buf.used = .ok content := by
  rw [holds.size, holds.peek_eq (by omega), List.drop_zero, List.take_length]

/-- Data that fits is the content of an emptied buffer after it has been written. -/
theorem flush_write_eq (fits : content.length ≤ buf.maxSize) :
    ∃ next, buf.flush.write content = .ok next ∧ next.peek 0 next.used = .ok content := by
  by_cases positive : 1 ≤ buf.maxSize
  · have limited := buf.limited
    have steady : buf.flush.steadyWrite content := by
      right
      right
      right
      change 0 + 0 + content.length ≤ 2 ^ 64
      omega
    obtain ⟨next, done, _, holds⟩ := (flush_holds positive).write_eq steady
    have all : lastElements buf.flush.maxSize ([] ++ content) = content := by
      rw [List.nil_append, lastElements, Nat.sub_eq_zero_of_le (show content.length ≤ buf.flush.maxSize from fits),
        List.drop_zero]
    rw [all] at holds
    exact ⟨next, done, holds.contents_eq⟩
  · obtain rfl : content = [] := List.length_eq_zero_iff.mp (by omega)
    exact ⟨buf.flush, rfl, rfl⟩

section Saved
variable {text : ParamText T} (faithful : text.Faithful) (holds : buf.Holds content) (cp : Checkpoint) (name : String)
include faithful holds

/-- A buffer is read back from its entry into a buffer in which it fits. -/
theorem saved_eq (target : CircleBuf T) (fits : content.length ≤ target.maxSize) :
    ∃ saved next, buf.arrayParamOut cp text name = .ok saved ∧ target.arrayParamIn saved text name = .ok next ∧
      next.peek 0 next.used = .ok content := by
  obtain ⟨next, done, contents⟩ := flush_write_eq fits
  refine ⟨cp.arrayParamOut text name content, next, ?_, ?_, contents⟩
  · rw [arrayParamOut, holds.contents_eq, ok_bind]
  · rw [arrayParamIn, Checkpoint.arrayParamIn_arrayParamOut faithful, ok_bind, done]

/-- A FIFO is read back from its entry into a FIFO in which it fits. -/
theorem savedFifo_eq (target : Fifo T) (fits : content.length ≤ target.buf.maxSize) :
    ∃ saved next, (Fifo.mk buf).arrayParamOut cp text name = .ok saved ∧ target.arrayParamIn saved text name = .ok next ∧
      next.peek next.buf.used = .ok content := by
  obtain ⟨next, done, contents⟩ := flush_write_eq fits
  have limited := target.buf.limited
  have room : ¬target.flush.buf.maxSize < sizeT (target.flush.buf.used + content.length) := by
    change ¬target.buf.maxSize < sizeT (0 + content.length)
    rw [sizeT_of_lt (by omega)]
    omega
  refine ⟨cp.arrayParamOut text name content, ⟨next⟩, ?_, ?_, contents⟩
  · rw [Fifo.arrayParamOut, Fifo.peek, holds.contents_eq, ok_bind]
  · rw [Fifo.arrayParamIn, Checkpoint.arrayParamIn_arrayParamOut faithful, ok_bind, if_neg (Nat.not_lt.mpr fits),
      Fifo.write, if_neg room]
    simp only [Fifo.flush, done, ok_bind]

end Saved

end CircleBuf

open CircleBuf

/-- The operations on a circular buffer. -/
inductive CircleOp (T : Type) where
  | write (input : List T)
  | read (len : Nat)
  | peek (offset len : Nat)
  | flush

/-- This structure runs a circular buffer next to its content. -/
structure CircleTrace (T : Type) where
  buf : CircleBuf T
  content : List T

namespace CircleTrace
variable {T : Type} {trace : CircleTrace T} {capacity : Nat}

def initial [Inhabited T] (capacity : Nat) (limited : capacity < 2 ^ 63) : CircleTrace T where
  buf := .init capacity limited
  content := []

/-- A read does not go past the end of the content. -/
def allowed (trace : CircleTrace T) : CircleOp T → Prop
  | .write _ => True
  | .read len => len ≤ trace.content.length
  | .peek offset len => offset + len ≤ trace.content.length
  | .flush => True

/-- The positions of a write do not wrap, or this has no effect. -/
def steady (trace : CircleTrace T) : CircleOp T → Prop
  | .write input => trace.buf.steadyWrite input
  | _ => True

/-- This function performs an operation on the buffer and on its content. -/
def step (trace : CircleTrace T) : CircleOp T → Except Fault (CircleTrace T)
  | .write input => do
    .ok { buf := ← trace.buf.write input, content := lastElements trace.buf.maxSize (trace.content ++ input) }
  | .read len => do
    let (_, buf) ← trace.buf.read len
    .ok { buf, content := trace.content.drop len }
  | .peek offset len => do
    let _ ← trace.buf.peek offset len
    .ok trace
  | .flush => .ok { buf := trace.buf.flush, content := [] }

/-- This machine performs the allowed operations. -/
def windows : Machine (CircleTrace T) (CircleOp T) Fault where
  guard := allowed
  step := step

/-- This machine performs the allowed operations that are steady. -/
def steadyWindows : Machine (CircleTrace T) (CircleOp T) Fault where
  guard trace op := trace.allowed op ∧ trace.steady op
  step := step

/-- An allowed and steady operation succeeds and keeps the content. -/
theorem step_holds (holds : trace.buf.Holds trace.content) {op : CircleOp T} (fits : trace.allowed op)
    (steady : trace.steady op) :
    ∃ next, trace.step op = .ok next ∧ next.buf.maxSize = trace.buf.maxSize ∧ next.buf.Holds next.content := by
  cases op with
  | write input =>
    obtain ⟨next, done, size, kept⟩ := holds.write_eq steady
    exact ⟨_, by rw [step, done, ok_bind], size, kept⟩
  | read len =>
    obtain ⟨next, done, size, kept⟩ := holds.read_eq fits
    exact ⟨_, by rw [step, done, ok_bind], size, kept⟩
  | peek offset len => exact ⟨trace, by rw [step, holds.peek_eq fits, ok_bind], rfl, holds⟩
  | flush => exact ⟨_, rfl, rfl, flush_holds holds.positive⟩

/-- After every run of steady operations, reads and writes agree with the window, and the buffer is read back from a
checkpoint. -/
theorem circleBuf_window [Inhabited T] {limited : capacity < 2 ^ 63} {ops : List (CircleOp T)} (positive : 1 ≤ capacity)
    (run : steadyWindows.Run (initial capacity limited) ops trace) :
    trace.buf.maxSize = capacity ∧ trace.buf.used = trace.content.length ∧ trace.content.length ≤ capacity ∧
    (∀ offset len, offset + len ≤ trace.content.length →
      trace.buf.peek offset len = .ok ((trace.content.drop offset).take len)) ∧
    (∀ len ≤ trace.content.length, ∃ next, trace.buf.read len = .ok (trace.content.take len, next) ∧
      next.peek 0 next.used = .ok (trace.content.drop len)) ∧
    (∀ input, trace.buf.steadyWrite input → ∃ next, trace.buf.write input = .ok next ∧
      next.peek 0 next.used = .ok (lastElements capacity (trace.content ++ input))) ∧
    ∀ text : ParamText T, text.Faithful → ∀ cp name,
      (∀ target : CircleBuf T, trace.content.length ≤ target.maxSize → ∃ saved next,
        trace.buf.arrayParamOut cp text name = .ok saved ∧ target.arrayParamIn saved text name = .ok next ∧
        next.peek 0 next.used = .ok trace.content) ∧
      ∀ target : Fifo T, trace.content.length ≤ target.buf.maxSize → ∃ saved next,
        (Fifo.mk trace.buf).arrayParamOut cp text name = .ok saved ∧ target.arrayParamIn saved text name = .ok next ∧
        next.peek next.buf.used = .ok trace.content := by
  obtain ⟨size, holds⟩ : trace.buf.maxSize = capacity ∧ trace.buf.Holds trace.content := by
    refine run.invariant (fun trace => trace.buf.maxSize = capacity ∧ trace.buf.Holds trace.content) ?_ ?_
    · have fresh : 1 ≤ (init capacity limited : CircleBuf T).maxSize := positive
      exact ⟨rfl, flush_holds fresh⟩
    · rintro state op next ⟨size, holds⟩ ⟨fits, steady⟩ stepped
      obtain ⟨other, done, same, kept⟩ := step_holds holds fits steady
      cases done.symm.trans stepped
      exact ⟨same.trans size, kept⟩
  refine ⟨size, holds.size, size ▸ holds.fits, fun _ _ inside => holds.peek_eq inside, ?_, ?_, ?_⟩
  · intro len inside
    obtain ⟨next, done, _, kept⟩ := holds.read_eq inside
    exact ⟨next, done, kept.contents_eq⟩
  · intro input steady
    obtain ⟨next, done, _, kept⟩ := holds.write_eq steady
    exact ⟨next, done, size ▸ kept.contents_eq⟩
  · intro text faithful cp name
    exact ⟨saved_eq faithful holds cp name, savedFifo_eq faithful holds cp name⟩

/-- A write that is longer than the buffer keeps its last elements, which a longer buffer reads back. -/
theorem circleBuf_window_longWrite : ∃ trace : CircleTrace Bool,
    steadyWindows.Run (initial 2 (by decide)) [.write [false, false, true, false]] trace ∧
    trace.buf.peek 0 2 = .ok [true, false] ∧
    ∃ saved next, trace.buf.arrayParamOut ⟨"system.terminal", fun _ => none⟩ .bool "txbuf" = .ok saved ∧
      (init 4 (by decide)).arrayParamIn saved .bool "txbuf" = .ok next ∧
      next.peek 0 next.used = .ok [true, false] := by
  refine ⟨_, and_of_imp (.cons .nil ⟨trivial, .inr (.inl (by decide))⟩ rfl) fun run => ?_⟩
  obtain ⟨_, _, _, peeks, _, _, saves⟩ := circleBuf_window (by decide) run
  exact ⟨peeks 0 2 (by decide), (saves .bool ParamText.bool_faithful _ _).1 (.init 4 (by decide)) (by decide)⟩

/-- This trace has an empty buffer of three zeros behind `n` elements. -/
def idle (n : Nat) : CircleTrace Nat where
  buf := { maxSize := 3, limited := by decide, buffer := Vector.replicate 3 0, start := n, used := 0 }
  content := []

theorem copyInto_zeros (position : Nat) : copyInto (Vector.replicate 3 0) position [0] = Vector.replicate 3 0 := by
  apply Vector.ext
  intro i inside
  have zero : (Vector.replicate 3 0).get ⟨i, inside⟩ = 0 := Vector.getElem_replicate inside
  simp only [copyInto, Vector.getElem_ofFn, Vector.getElem_replicate, zero]
  cases i - position <;> simp

theorem idle_write {n : Nat} (small : n < 2 ^ 64) : (idle n).step (.write [0]) =
    .ok { buf := { (idle n).buf with used := 1 }, content := [0] } := by
  have straight : 3 - n % 3 ≠ 0 := by omega
  have one : sizeT 1 = 1 := rfl
  have whole : sizeTSub 1 0 = 1 := rfl
  simp [step, write, writeFitting, CircleBuf.place, idle, lastElements, sizeT_of_lt small, one, whole,
    straight, copyInto_zeros]

theorem idle_read {n : Nat} (small : n + 1 < 2 ^ 64) :
    ({ buf := { (idle n).buf with used := 1 }, content := [0] } : CircleTrace Nat).step (.read 1) =
      .ok (idle (n + 1)) := by
  have straight : 3 - n % 3 ≠ 0 := by omega
  have one : sizeT 1 = 1 := rfl
  have rest : sizeTSub 1 1 = 0 := rfl
  have before : sizeT n = n := sizeT_of_lt (by omega)
  simp [step, CircleBuf.read, CircleBuf.peek, CircleBuf.place, idle, sizeT_of_lt small, before, one, rest, straight]

theorem idle_run {n : Nat} (small : n < 2 ^ 64) : ∃ ops, windows.Run (initial 3 (by decide)) ops (idle n) := by
  induction n with
  | zero => exact ⟨[], .nil⟩
  | succ n ih =>
    obtain ⟨ops, run⟩ := ih (by omega)
    exact ⟨.read 1 :: .write [0] :: ops,
      .cons (.cons run trivial (idle_write (by omega))) (Nat.le_refl 1) (idle_read small)⟩

/-- Behind `2 ^ 64 - 1` elements the second of two written elements is read as the first one. -/
theorem circleBuf_window_wrapped : ∃ (ops : List (CircleOp Nat)) (trace : CircleTrace Nat),
    windows.Run (initial 3 (by decide)) ops trace ∧ trace.content = [1, 2] ∧ trace.buf.peek 1 1 = .ok [1] := by
  obtain ⟨ops, run⟩ := idle_run (n := 2 ^ 64 - 1) (by decide)
  have written : (idle (2 ^ 64 - 1)).step (.write [1, 2]) = .ok
      { buf := { (idle (2 ^ 64 - 1)).buf with buffer := #v[1, 2, 0], used := 2 }, content := [1, 2] } := rfl
  exact ⟨.write [1, 2] :: ops, _, .cons run trivial written, rfl, rfl⟩

end CircleTrace

end Gem5
