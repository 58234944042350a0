import Gem5.ToMathlib.Linked
import Gem5.Construction.Mem.FaLru

namespace Gem5
open ToMathlib List Function

namespace FALRU
variable {tags start other : FALRU} {order front back : List Nat} {blk : Nat} {pointer : Option Nat}

def prev (tags : FALRU) (blk : Nat) : Option Nat := (tags.blks blk).prev

def next (tags : FALRU) (blk : Nat) : Option Nat := (tags.blks blk).next

theorem blks_modifyBlk (change : FALRUBlk → FALRUBlk) (other : Nat) :
    (tags.modifyBlk blk change).blks other = if other = blk then change (tags.blks other) else tags.blks other := by
  rw [modifyBlk]
  dsimp only
  rw [update_apply]
  split
  · rename_i here
    rw [here]
  · rfl

/-- A change of a block keeps the parts that it keeps in each entry. -/
theorem part_modifyBlk {Part : Type} {part : FALRUBlk → Part} {change : FALRUBlk → FALRUBlk}
    (keeps : ∀ entry, part (change entry) = part entry) (other : Nat) :
    part ((tags.modifyBlk blk change).blks other) = part (tags.blks other) := by
  rw [blks_modifyBlk]
  split
  · exact keeps _
  · rfl

@[simp] theorem prev_setPrev : (tags.setPrev blk pointer).prev = update tags.prev blk pointer := by
  funext other
  rw [prev, setPrev, blks_modifyBlk, update_apply]
  split <;> rfl

@[simp] theorem next_setPrev : (tags.setPrev blk pointer).next = tags.next := funext (part_modifyBlk fun _ => rfl)

@[simp] theorem next_setNext : (tags.setNext blk pointer).next = update tags.next blk pointer := by
  funext other
  rw [next, setNext, blks_modifyBlk, update_apply]
  split <;> rfl

@[simp] theorem prev_setNext : (tags.setNext blk pointer).prev = tags.prev := funext (part_modifyBlk fun _ => rfl)

/-- Two states differ in their masks, boundaries and links only. -/
structure SameContents (tags other : FALRU) : Prop where
  valid : ∀ blk, (tags.blks blk).valid = (other.blks blk).valid
  tag : ∀ blk, (tags.blks blk).tag = (other.blks blk).tag
  secure : ∀ blk, (tags.blks blk).secure = (other.blks blk).secure
  tagHash : tags.tagHash = other.tagHash
  hits : tags.hits = other.hits
  misses : tags.misses = other.misses

theorem SameContents.refl (tags : FALRU) : tags.SameContents tags :=
  ⟨fun _ => rfl, fun _ => rfl, fun _ => rfl, rfl, rfl, rfl⟩

theorem SameContents.trans {middle third : FALRU} (first : tags.SameContents middle)
    (second : middle.SameContents third) :
    tags.SameContents third :=
  ⟨fun blk => (first.valid blk).trans (second.valid blk), fun blk => (first.tag blk).trans (second.tag blk),
    fun blk => (first.secure blk).trans (second.secure blk), first.tagHash.trans second.tagHash,
    first.hits.trans second.hits, first.misses.trans second.misses⟩

theorem sameContents_modifyBlk {change : FALRUBlk → FALRUBlk}
    (keeps : ∀ entry, (change entry).valid = entry.valid ∧ (change entry).tag = entry.tag ∧
      (change entry).secure = entry.secure) : (tags.modifyBlk blk change).SameContents tags :=
  ⟨part_modifyBlk fun entry => (keeps entry).1, part_modifyBlk fun entry => (keeps entry).2.1,
    part_modifyBlk fun entry => (keeps entry).2.2, rfl, rfl, rfl⟩

/-- Two states differ in the links of their blocks only. -/
structure Relinked (start tags : FALRU) : Prop where
  masks : ∀ blk, (tags.blks blk).inCachesMask = (start.blks blk).inCachesMask
  boundaries : tags.boundaries = start.boundaries
  contents : tags.SameContents start

theorem Relinked.trans {middle : FALRU} (first : Relinked start middle) (second : Relinked middle tags) :
    Relinked start tags :=
  ⟨fun blk => (second.masks blk).trans (first.masks blk), second.boundaries.trans first.boundaries,
    second.contents.trans first.contents⟩

theorem relinked_setPrev : Relinked tags (tags.setPrev blk pointer) :=
  ⟨part_modifyBlk fun _ => rfl, rfl, sameContents_modifyBlk fun _ => ⟨rfl, rfl, rfl⟩⟩

theorem relinked_setNext : Relinked tags (tags.setNext blk pointer) :=
  ⟨part_modifyBlk fun _ => rfl, rfl, sameContents_modifyBlk fun _ => ⟨rfl, rfl, rfl⟩⟩

theorem Relinked.ends (relinked : Relinked start tags) (head tail : Nat) : Relinked start { tags with head, tail } :=
  { relinked with contents := { relinked.contents with } }

/-- The blocks are linked in an order from the head to the tail. -/
structure Links (tags : FALRU) (order : List Nat) : Prop where
  linked : Linked tags.prev tags.next none order none
  head : order.head? = some tags.head
  tail : order.getLast? = some tags.tail

theorem Links.ends {head tail : Nat} (linked : Linked tags.prev tags.next none order none)
    (first : order.head? = some head) (last : order.getLast? = some tail) : Links { tags with head, tail } order :=
  ⟨linked, first, last⟩

theorem Links.detach_ok {first last : Nat} (links : Links tags (front ++ first :: blk :: last :: back))
    (distinct : (front ++ first :: blk :: last :: back).Nodup) :
    ∃ after, tags.detach blk = .ok after ∧ Links after (front ++ first :: last :: back) ∧ Relinked tags after := by
  obtain ⟨_, _, _, before, behind, _⟩ := Linked.append_iff.mp links.linked
  have prev : (tags.blks blk).prev = some first := before
  have next : (tags.blks blk).next = some last := behind
  refine ⟨(tags.setNext first (some last)).setPrev last (some first), ?_, ⟨?_, ?_, ?_⟩,
    relinked_setNext.trans relinked_setPrev⟩
  · rw [detach, prev, next]
    rfl
  · have removed := links.linked.remove distinct
    simpa using removed
  · have head := links.head
    rw [head?_append, head?_cons] at head ⊢
    exact head
  · have tail := links.tail
    rw [getLast?_append, getLast?_cons_cons, getLast?_cons_cons] at tail
    rw [getLast?_append, getLast?_cons_cons]
    exact tail

theorem Links.detachTail_ok {last : Nat} (links : Links tags (front ++ [last] ++ [blk]))
    (distinct : (front ++ [last] ++ [blk]).Nodup) :
    ∃ after, tags.detachTail blk = .ok after ∧ Links after (front ++ [last]) ∧ Relinked tags after := by
  obtain ⟨kept, prev, next, _⟩ := Linked.append_iff.mp links.linked
  have before : (tags.blks blk).prev = some last := by
    rw [getLast?_append] at prev
    exact prev
  refine ⟨{ tags.setNext last none with tail := last }, ?_, .ends ?_ ?_ ?_, relinked_setNext.ends _ _⟩
  · have ends : (tags.blks blk).next = none := next
    rw [detachTail, assert_of ends, before]
    rfl
  · have removed := kept.update_next (nodup_append.mp distinct).1 none
    simpa using removed
  · have head := links.head
    rw [append_assoc, head?_append] at head
    rw [head?_append]
    exact head
  · rw [getLast?_append]
    rfl

theorem Links.detachHead_ok {first : Nat} (links : Links tags (blk :: first :: back))
    (distinct : (blk :: first :: back).Nodup) :
    ∃ after, tags.detachHead blk = .ok after ∧ Links after (first :: back) ∧ Relinked tags after := by
  obtain ⟨prev, next, kept⟩ := links.linked
  refine ⟨{ tags.setPrev first none with head := first }, ?_, .ends ?_ rfl ?_, relinked_setPrev.ends _ _⟩
  · have starts : (tags.blks blk).prev = none := prev
    have after : (tags.blks blk).next = some first := next
    rw [detachHead, assert_of starts, after]
    rfl
  · have removed := kept.update_prev (nodup_cons.mp distinct).2 none
    simpa using removed
  · have tail := links.tail
    exact tail

theorem Links.attachHead (links : Links tags order) (distinct : (blk :: order).Nodup) :
    ∃ after, after = { ((tags.setNext blk (some tags.head)).setPrev blk none).setPrev tags.head (some blk) with
      head := blk } ∧ Links after (blk :: order) ∧ Relinked tags after := by
  refine ⟨_, rfl, ?_, ((relinked_setNext.trans relinked_setPrev).trans relinked_setPrev).ends _ _⟩
  obtain ⟨linked, head, tail⟩ := links
  cases order with
  | nil => simp at head
  | cons first back =>
    obtain rfl : first = tags.head := Option.some.inj head
    refine .ends ?_ rfl ?_
    · have pushed := linked.push_front distinct
      simpa using pushed
    · rw [getLast?_cons_cons]
      exact tail

theorem Links.attachTail (links : Links tags order) (distinct : (order ++ [blk]).Nodup) :
    ∃ after, after = { ((tags.setPrev blk (some tags.tail)).setNext blk none).setNext tags.tail (some blk) with
      tail := blk } ∧ Links after (order ++ [blk]) ∧ Relinked tags after := by
  refine ⟨_, rfl, ?_, ((relinked_setPrev.trans relinked_setNext).trans relinked_setNext).ends _ _⟩
  obtain ⟨linked, head, tail⟩ := links
  obtain ⟨front, rfl⟩ := getLast?_eq_some_iff.mp tail
  refine .ends ?_ ?_ ?_
  · have pushed := linked.push_back distinct
    simpa using pushed
  · rw [head?_append, head]
    rfl
  · rw [getLast?_append]
    rfl

end FALRU
end Gem5
