import Mathlib

namespace Gem5.ToMathlib.Lru
open List
variable {Key : Type*} [DecidableEq Key] {key : Key} {keys : List Key} {capacity size : Nat}

/-- This function makes a key the most recent one of a cache, which drops its oldest key when it is full. -/
def touch (capacity : Nat) (key : Key) (keys : List Key) : List Key := (key :: keys.erase key).take capacity

theorem take_erase_take (key : Key) (keys : List Key) (count : Nat) :
    ((keys.take (count + 1)).erase key).take count = (keys.erase key).take count := by
  induction keys generalizing count with
  | nil => rfl
  | cons first rest ih =>
    by_cases here : first = key
    · rw [take_succ_cons, here, erase_cons_head, erase_cons_head, take_take, Nat.min_self]
    · rw [take_succ_cons, erase_cons_tail (by simpa using here), erase_cons_tail (by simpa using here)]
      cases count with
      | zero => rfl
      | succ count => rw [take_succ_cons, take_succ_cons, ih]

/-- A smaller cache contains the most recent keys of a larger one. -/
theorem take_touch (smaller : capacity ≤ size) :
    (touch size key keys).take capacity = touch capacity key (keys.take capacity) := by
  rw [touch, touch, take_take, Nat.min_eq_left smaller]
  cases capacity with
  | zero => rfl
  | succ count => rw [take_succ_cons, take_succ_cons, take_erase_take]

/-- A new key takes the place of the oldest one. -/
theorem touch_of_notMem (absent : key ∉ keys) (positive : 0 < capacity) :
    touch capacity key keys = key :: keys.take (capacity - 1) := by
  obtain ⟨count, rfl⟩ := Nat.exists_eq_succ_of_ne_zero (Nat.ne_of_gt positive)
  rw [touch, erase_of_not_mem absent, take_succ_cons, Nat.succ_sub_one]

theorem touch_of_getElem (distinct : keys.Nodup) {position : Nat} (found : keys[position]? = some key)
    (fits : keys.length ≤ capacity) : touch capacity key keys = key :: keys.eraseIdx position := by
  obtain ⟨inside, rfl⟩ := List.getElem?_eq_some_iff.mp found
  have removed : keys.erase keys[position] = keys.eraseIdx position := by
    rw [erase_eq_eraseIdx_of_idxOf]
    exact distinct.idxOf_getElem position inside
  rw [touch, removed, take_of_length_le]
  rw [length_cons, length_eraseIdx_of_lt inside]
  omega

theorem length_touch_le : (touch capacity key keys).length ≤ capacity := length_take_le _ _

theorem nodup_touch (distinct : keys.Nodup) : (touch capacity key keys).Nodup := by
  apply List.Nodup.sublist (take_sublist _ _)
  exact nodup_cons.mpr ⟨distinct.not_mem_erase, distinct.erase key⟩

/-- The cache is asked for a key or it gets one. -/
inductive Request (Key : Type*) where
  | access (key : Key)
  | fill (key : Key)

/-- This structure contains a cache, a smaller one and the accesses that the smaller one has served. -/
structure Caches (Key : Type*) where
  full : List Key
  tracked : List Key
  hits : Nat
  misses : Nat

namespace Caches

def empty : Caches Key := ⟨[], [], 0, 0⟩

/-- This function counts an access, where the smaller cache gets a missing key at once if the larger one has it. -/
def serve (size capacity : Nat) (caches : Caches Key) : Request Key → Caches Key
  | .access key =>
    let counted := if key ∈ caches.tracked then { caches with hits := caches.hits + 1 }
      else { caches with misses := caches.misses + 1 }
    if key ∈ caches.full then
      { counted with full := touch size key caches.full, tracked := touch capacity key caches.tracked }
    else counted
  | .fill key => { caches with full := touch size key caches.full, tracked := touch capacity key caches.tracked }

/-- This function serves the requests of a history, whose newest request is the first one. -/
def replay (size capacity : Nat) (history : List (Request Key)) : Caches Key :=
  history.foldr (fun request caches => caches.serve size capacity request) empty

end Caches
end Gem5.ToMathlib.Lru
