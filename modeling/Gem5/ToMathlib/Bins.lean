import Mathlib

namespace Gem5.ToMathlib
open List
variable {Item Key : Type*} [LinearOrder Key]

/-- Each bin holds items of one key and the keys increase strictly from bin to bin. -/
structure Binned (key : Item → Key) (bins : List (List Item)) : Prop where
  filled : [] ∉ bins
  same : ∀ bin ∈ bins, ∀ left ∈ bin, ∀ right ∈ bin, key left = key right
  increasing : bins.Pairwise fun first second => ∀ left ∈ first, ∀ right ∈ second, key left < key right

/-- The new item becomes the top of its bin. -/
def binInsert (key : Item → Key) (item : Item) : List (List Item) → List (List Item)
  | [] => [[item]]
  | [] :: rest => [] :: binInsert key item rest
  | (top :: stack) :: rest =>
    if key top < key item then (top :: stack) :: binInsert key item rest
    else if key item < key top then [item] :: (top :: stack) :: rest
    else (item :: top :: stack) :: rest

/-- The item leaves its bin, and an empty bin leaves the list. -/
def binErase [DecidableEq Item] (item : Item) : List (List Item) → List (List Item)
  | [] => []
  | bin :: rest =>
    if item ∈ bin then (if bin.erase item = [] then rest else bin.erase item :: rest)
    else bin :: binErase item rest

/-- An insertion by key keeps a relation that holds between the new item and each side of its place. -/
theorem pairwise_orderedInsert {key : Item → Key} {Relation : Item → Item → Prop} {item : Item}
    {items : List Item} (pairs : items.Pairwise Relation)
    (sorted : items.Pairwise fun left right => key left ≤ key right)
    (below : ∀ other ∈ items, key other < key item → Relation other item)
    (above : ∀ other ∈ items, key item ≤ key other → Relation item other) :
    (orderedInsert (fun left right => key left ≤ key right) item items).Pairwise Relation := by
  induction items with
  | nil => simp
  | cons head rest ih =>
    obtain ⟨first, later⟩ := pairwise_cons.mp pairs
    obtain ⟨least, increasing⟩ := pairwise_cons.mp sorted
    rw [orderedInsert_cons]
    split
    · next before =>
        refine pairwise_cons.mpr ⟨fun other member => above other member ?_, pairs⟩
        rcases mem_cons.mp member with rfl | member
        · exact before
        · exact before.trans (least other member)
    · next after =>
        refine pairwise_cons.mpr ⟨fun other member => ?_, ?_⟩
        · rcases mem_orderedInsert _ |>.mp member with rfl | member
          · exact below head (by simp) (not_le.mp after)
          · exact first other member
        · exact ih later increasing (fun other member => below other (by simp [member]))
            fun other member => above other (by simp [member])

namespace Binned
variable {key : Item → Key} {bins rest : List (List Item)} {bin : List Item} {item : Item}
  {front back : List (List Item)}

theorem nil : Binned key [] := ⟨by simp, by simp, List.Pairwise.nil⟩

theorem cons_iff : Binned key (bin :: rest) ↔ bin ≠ [] ∧ (∀ left ∈ bin, ∀ right ∈ bin, key left = key right) ∧
      (∀ left ∈ bin, ∀ right ∈ rest.flatten, key left < key right) ∧ Binned key rest := by
  constructor
  · intro binned
    obtain ⟨below, increasing⟩ := pairwise_cons.mp binned.increasing
    refine ⟨fun empty => binned.filled (by simp [empty]), binned.same bin (by simp), ?_,
      fun member => binned.filled (by simp [member]),
      fun other member => binned.same other (by simp [member]), increasing⟩
    intro left member right later
    obtain ⟨other, inside, found⟩ := mem_flatten.mp later
    exact below other inside left member right found
  · rintro ⟨filled, same, below, binned⟩
    refine ⟨?_, ?_, pairwise_cons.mpr ⟨?_, binned.increasing⟩⟩
    · simp [Ne.symm filled, binned.filled]
    · intro other member
      rcases mem_cons.mp member with rfl | member
      · exact same
      · exact binned.same other member
    · intro other inside left member right found
      exact below left member right (mem_flatten.mpr ⟨other, inside, found⟩)

theorem append_right (binned : Binned key (front ++ back)) : Binned key back := by
  induction front with
  | nil => exact binned
  | cons bin front ih => exact ih (cons_iff.mp binned).2.2.2

theorem congr {other : Item → Key} (binned : Binned key bins)
    (same : ∀ item ∈ bins.flatten, other item = key item) : Binned other bins := by
  refine ⟨binned.filled, ?_, binned.increasing.imp_of_mem ?_⟩
  · intro bin inside left first right second
    rw [same left (mem_flatten.mpr ⟨bin, inside, first⟩), same right (mem_flatten.mpr ⟨bin, inside, second⟩)]
    exact binned.same bin inside left first right second
  · intro one two inOne inTwo below left first right second
    rw [same left (mem_flatten.mpr ⟨one, inOne, first⟩), same right (mem_flatten.mpr ⟨two, inTwo, second⟩)]
    exact below left first right second

/-- The first bin holds the items whose key is the key of its top. -/
theorem filter_top {top : Item} {stack : List Item} (binned : Binned key ((top :: stack) :: rest)) :
    ((top :: stack) :: rest).flatten.filter (fun item => key item = key top) = top :: stack := by
  obtain ⟨_, same, below, _⟩ := cons_iff.mp binned
  rw [flatten_cons, filter_append, filter_eq_self.mpr, filter_eq_nil_iff.mpr, append_nil]
  · intro item later
    simpa using (below top (by simp) item later).ne'
  · intro item member
    simpa using same item member top (by simp)

theorem unique {more : List (List Item)} (left : Binned key bins) (right : Binned key more)
    (flat : bins.flatten = more.flatten) : bins = more := by
  induction bins generalizing more with
  | nil =>
    cases more with
    | nil => rfl
    | cons bin rest =>
      obtain ⟨top, stack, rfl⟩ := exists_cons_of_ne_nil (cons_iff.mp right).1
      simp at flat
  | cons bin rest ih =>
    obtain ⟨filled, _, _, tail⟩ := cons_iff.mp left
    obtain ⟨top, stack, rfl⟩ := exists_cons_of_ne_nil filled
    cases more with
    | nil => simp at flat
    | cons another others =>
      obtain ⟨first, items, rfl⟩ := exists_cons_of_ne_nil (cons_iff.mp right).1
      obtain rfl : top = first := by simpa using congrArg head? flat
      have same : top :: stack = top :: items := by
        rw [← left.filter_top, flat, right.filter_top]
      rw [same, ih tail (cons_iff.mp right).2.2.2]
      rw [flatten_cons, flatten_cons, same] at flat
      exact append_cancel_left flat

theorem mem_binInsert (bins : List (List Item)) {other : Item} :
    other ∈ (binInsert key item bins).flatten ↔ other = item ∨ other ∈ bins.flatten := by
  induction bins using binInsert.induct key item with
  | case1 => simp [binInsert]
  | case2 rest ih => simp [binInsert, ih]
  | case3 top stack rest before ih =>
    rw [binInsert, if_pos before, flatten_cons, mem_append, ih, flatten_cons, mem_append]
    tauto
  | case4 top stack rest notBefore after => simp [binInsert, notBefore, after]
  | case5 top stack rest notBefore notAfter => simp [binInsert, notBefore, notAfter]

theorem insert (binned : Binned key bins) (item : Item) : Binned key (binInsert key item bins) := by
  induction bins using binInsert.induct key item with
  | case1 => simp [binInsert, cons_iff, nil]
  | case2 rest ih => exact absurd rfl (cons_iff.mp binned).1
  | case3 top stack rest before ih =>
    obtain ⟨filled, same, below, tail⟩ := cons_iff.mp binned
    rw [binInsert, if_pos before, cons_iff]
    refine ⟨filled, same, ?_, ih tail⟩
    intro left member right later
    rcases (mem_binInsert rest).mp later with rfl | later
    · rw [same left member top (by simp)]
      exact before
    · exact below left member right later
  | case4 top stack rest notBefore after =>
    obtain ⟨_, same, below, _⟩ := cons_iff.mp binned
    rw [binInsert, if_neg notBefore, if_pos after, cons_iff]
    refine ⟨by simp, by simp, ?_, binned⟩
    intro left member right later
    rw [mem_singleton.mp member]
    rw [flatten_cons, mem_append] at later
    rcases later with here | later
    · rw [same right here top (by simp)]
      exact after
    · exact after.trans (below top (by simp) right later)
  | case5 top stack rest notBefore notAfter =>
    obtain ⟨_, same, below, tail⟩ := cons_iff.mp binned
    have equal : key item = key top := le_antisymm (not_lt.mp notBefore) (not_lt.mp notAfter)
    have constant : ∀ left ∈ item :: top :: stack, key left = key top := by
      intro left member
      rcases mem_cons.mp member with rfl | member
      · exact equal
      · exact same left member top (by simp)
    rw [binInsert, if_neg notBefore, if_neg notAfter, cons_iff]
    refine ⟨by simp, fun left first right second => ?_, fun left member right later => ?_, tail⟩
    · rw [constant left first, constant right second]
    · rw [constant left member]
      exact below top (by simp) right later

/-- On the flat list, an insertion puts the item before every item that is not smaller. -/
theorem flatten_insert (binned : Binned key bins) (item : Item) : (binInsert key item bins).flatten =
      orderedInsert (fun left right => key left ≤ key right) item bins.flatten := by
  induction bins using binInsert.induct key item with
  | case1 => simp [binInsert]
  | case2 rest ih => exact absurd rfl (cons_iff.mp binned).1
  | case3 top stack rest before ih =>
    obtain ⟨_, same, _, tail⟩ := cons_iff.mp binned
    rw [binInsert, if_pos before, flatten_cons, ih tail, flatten_cons]
    have smaller : ∀ left ∈ top :: stack, ¬ key item ≤ key left := by
      intro left member
      rw [same left member top (by simp)]
      exact not_le.mpr before
    generalize top :: stack = bin at smaller
    induction bin with
    | nil => rfl
    | cons head bin ih => simp [smaller head (by simp), ih fun left member => smaller left (by simp [member])]
  | case4 top stack rest notBefore after => simp [binInsert, notBefore, after, after.le]
  | case5 top stack rest notBefore notAfter => simp [binInsert, notBefore, notAfter, not_lt.mp notBefore]

/-- An insertion passes every bin of a smaller key. -/
theorem binInsert_append (below : ∀ bin ∈ front, ∃ top stack, bin = top :: stack ∧ key top < key item) :
    binInsert key item (front ++ back) = front ++ binInsert key item back := by
  induction front with
  | nil => rfl
  | cons bin front ih =>
    obtain ⟨top, stack, rfl, smaller⟩ := below bin (by simp)
    rw [cons_append, binInsert, if_pos smaller, ih fun other member => below other (by simp [member])]
    rfl

variable [DecidableEq Item]

omit [LinearOrder Key] in
theorem binErase_append (absent : item ∉ front.flatten) :
    binErase item (front ++ back) = front ++ binErase item back := by
  induction front with
  | nil => rfl
  | cons bin front ih =>
    rw [flatten_cons, mem_append, not_or] at absent
    rw [cons_append, binErase, if_neg absent.1, ih absent.2]
    rfl

omit [LinearOrder Key] in
/-- On the flat list, a removal erases the item. -/
theorem flatten_erase (bins : List (List Item)) (item : Item) :
    (binErase item bins).flatten = bins.flatten.erase item := by
  induction bins with
  | nil => simp [binErase]
  | cons bin rest ih =>
    unfold binErase
    split
    · next member =>
        rw [flatten_cons, erase_append_left _ member]
        split
        · next empty => simp [empty]
        · simp
    · next absent => rw [flatten_cons, flatten_cons, ih, erase_append_right _ absent]

theorem mem_of_mem_binErase {other : Item} (member : other ∈ (binErase item bins).flatten) : other ∈ bins.flatten :=
  mem_of_mem_erase (flatten_erase bins item ▸ member)

theorem erase (binned : Binned key bins) (item : Item) : Binned key (binErase item bins) := by
  induction bins with
  | nil => exact nil
  | cons bin rest ih =>
    obtain ⟨filled, same, below, tail⟩ := cons_iff.mp binned
    unfold binErase
    split
    · split
      · exact tail
      · next left =>
          refine cons_iff.mpr ⟨left, ?_, ?_, tail⟩
          · exact fun first member second inside =>
              same first (mem_of_mem_erase member) second (mem_of_mem_erase inside)
          · exact fun first member => below first (mem_of_mem_erase member)
    · exact cons_iff.mpr ⟨filled, same,
        fun left member right later => below left member right (mem_of_mem_binErase later), ih tail⟩

end Binned
end Gem5.ToMathlib
