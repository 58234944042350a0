import Mathlib

namespace Gem5.ToMathlib
variable {Node : Type*}

/-- The pointer and its successors spell exactly the listed nodes. -/
def Chain (next : Node → Option Node) : Option Node → List Node → Prop
  | pointer, [] => pointer = none
  | pointer, node :: rest => pointer = some node ∧ Chain next (next node) rest

namespace Chain
variable {next other : Node → Option Node} {pointer : Option Node} {nodes : List Node}

@[simp] theorem nil_iff : Chain next pointer [] ↔ pointer = none := Iff.rfl

@[simp] theorem cons_iff {node : Node} {rest : List Node} :
    Chain next pointer (node :: rest) ↔ pointer = some node ∧ Chain next (next node) rest := Iff.rfl

theorem congr (chain : Chain next pointer nodes)
    (same : ∀ node ∈ nodes, other node = next node) : Chain other pointer nodes := by
  induction nodes generalizing pointer with
  | nil => exact chain
  | cons node rest ih =>
    refine ⟨chain.1, ?_⟩
    rw [same node (by simp)]
    exact ih chain.2 fun later member => same later (by simp [member])

theorem unique {more : List Node} (left : Chain next pointer nodes)
    (right : Chain next pointer more) : nodes = more := by
  induction nodes generalizing pointer more with
  | nil =>
    cases more with
    | nil => rfl
    | cons node rest => simp_all
  | cons node rest ih =>
    cases more with
    | nil => simp_all
    | cons another tail =>
      obtain ⟨here, after⟩ := left
      obtain ⟨there, later⟩ := right
      obtain rfl : node = another := Option.some.inj (here.symm.trans there)
      rw [ih after later]

/-- A chain without a node is spelled once the node before it skips it. -/
theorem splice [DecidableEq Node] {front back : List Node} {last node : Node}
    (chain : Chain next pointer (front ++ last :: node :: back))
    (distinct : (front ++ last :: node :: back).Nodup) :
    Chain (Function.update next last (next node)) pointer (front ++ last :: back) := by
  induction front generalizing pointer with
  | nil =>
    obtain ⟨here, _, after⟩ := chain
    refine ⟨here, ?_⟩
    rw [Function.update_self]
    refine after.congr fun item member => Function.update_of_ne ?_ _ _
    rintro rfl
    simp [member] at distinct
  | cons item front ih =>
    obtain ⟨here, after⟩ := chain
    rw [List.cons_append, List.nodup_cons] at distinct
    refine ⟨here, ?_⟩
    rw [Function.update_of_ne (by rintro rfl; simp at distinct)]
    exact ih after distinct.2

end Chain

open Function List

/-- The nodes of a list point to their neighbours, and its ends point to a node before and a node after it. -/
def Linked (prev next : Node → Option Node) : Option Node → List Node → Option Node → Prop
  | _, [], _ => True
  | before, node :: rest, after =>
    prev node = before ∧ next node = rest.head?.or after ∧ Linked prev next (some node) rest after

namespace Linked
variable {prev next otherPrev otherNext : Node → Option Node} {before after : Option Node} {nodes front back : List Node}
  {node : Node}

/-- Only the pointers of the listed nodes matter. -/
theorem congr (linked : Linked prev next before nodes after) (samePrev : ∀ node ∈ nodes, otherPrev node = prev node)
    (sameNext : ∀ node ∈ nodes, otherNext node = next node) : Linked otherPrev otherNext before nodes after := by
  induction nodes generalizing before with
  | nil => trivial
  | cons node rest ih =>
    obtain ⟨back, forth, later⟩ := linked
    refine ⟨(samePrev node mem_cons_self).trans back, (sameNext node mem_cons_self).trans forth, ?_⟩
    exact ih later (fun node member => samePrev node (mem_cons_of_mem _ member))
      fun node member => sameNext node (mem_cons_of_mem _ member)

/-- Two lists are linked one after the other exactly when each of them is linked between its neighbours. -/
theorem append_iff : Linked prev next before (front ++ back) after ↔
    Linked prev next before front (back.head?.or after) ∧ Linked prev next (front.getLast?.or before) back after := by
  induction front generalizing before with
  | nil => simp [Linked]
  | cons node rest ih =>
    have last : ((node :: rest).getLast?).or before = rest.getLast?.or (some node) := by
      cases rest with
      | nil => rfl
      | cons later others => rw [getLast?_cons_cons, getLast?_eq_getLast_of_ne_nil (cons_ne_nil _ _)]; rfl
    have first : (rest ++ back).head?.or after = rest.head?.or (back.head?.or after) := by
      rw [head?_append, Option.or_assoc]
    rw [cons_append, Linked, Linked, ih, last, first]
    constructor
    · rintro ⟨here, there, left, right⟩
      exact ⟨⟨here, there, left⟩, right⟩
    · rintro ⟨⟨here, there, left⟩, right⟩
      exact ⟨here, there, left, right⟩

variable [DecidableEq Node]

/-- The first node may get another node before it. -/
theorem update_prev (linked : Linked prev next before (node :: back) after) (distinct : (node :: back).Nodup)
    (other : Option Node) : Linked (update prev node other) next other (node :: back) after := by
  obtain ⟨_, forth, later⟩ := linked
  refine ⟨update_self _ _ _, forth, ?_⟩
  refine later.congr (fun item member => update_of_ne ?_ _ _) fun _ _ => rfl
  rintro rfl
  exact (nodup_cons.mp distinct).1 member

/-- The last node may get another node after it. -/
theorem update_next (linked : Linked prev next before (front ++ [node]) after) (distinct : (front ++ [node]).Nodup)
    (other : Option Node) : Linked prev (update next node other) before (front ++ [node]) other := by
  rw [append_iff] at linked ⊢
  obtain ⟨left, here, _, _⟩ := linked
  refine ⟨left.congr (fun _ _ => rfl) fun item member => update_of_ne ?_ _ _, here, update_self _ _ _, trivial⟩
  rintro rfl
  exact (disjoint_of_nodup_append distinct) member mem_cons_self

/-- The list stays linked without one of its inner nodes once its neighbours point to each other. -/
theorem remove {first last : Node} (linked : Linked prev next before (front ++ first :: node :: last :: back) after)
    (distinct : (front ++ first :: node :: last :: back).Nodup) :
    Linked (update prev last (some first)) (update next first (some last)) before
      (front ++ first :: last :: back) after := by
  obtain ⟨_, inner, apart⟩ := nodup_append.mp distinct
  simp only [nodup_cons, mem_cons, not_or] at inner
  obtain ⟨⟨_, different, absent⟩, _, rest⟩ := inner
  rw [append_iff] at linked ⊢
  obtain ⟨left, here, _, _, _, later⟩ := linked
  refine ⟨left.congr (fun item member => update_of_ne (apart item member last (by simp)) _ _)
    fun item member => update_of_ne (apart item member first (by simp)) _ _, ?_, update_self _ _ _, ?_⟩
  · rw [update_of_ne different]
    exact here
  · have changed := later.update_prev (nodup_cons.mpr rest) (some first)
    refine changed.congr (fun _ _ => rfl) fun item member => update_of_ne ?_ _ _
    rintro rfl
    rcases mem_cons.mp member with same | later
    · exact different same
    · exact absent later

theorem push_front {first : Node} (linked : Linked prev next before (first :: back) after)
    (distinct : (node :: first :: back).Nodup) :
    Linked (update (update prev node none) first (some node)) (update next node (some first))
      none (node :: first :: back) after := by
  obtain ⟨fresh, rest⟩ := nodup_cons.mp distinct
  have different : node ≠ first := fun same => fresh (same ▸ mem_cons_self)
  refine ⟨?_, update_self _ _ _, ?_⟩
  · rw [update_of_ne different, update_self]
  · have changed := linked.update_prev rest (some node)
    refine changed.congr (fun item member => ?_) fun item member => update_of_ne ?_ _ _
    · rw [update_comm different, update_of_ne]
      exact fun same => fresh (same ▸ member)
    · exact fun same => fresh (same ▸ member)

theorem push_back {last : Node} (linked : Linked prev next before (front ++ [last]) after)
    (distinct : (front ++ [last] ++ [node]).Nodup) :
    Linked (update prev node (some last)) (update (update next node none) last (some node))
      before (front ++ [last] ++ [node]) none := by
  have fresh : node ∉ front ++ [last] := fun member =>
    disjoint_of_nodup_append distinct member mem_cons_self
  have different : node ≠ last := fun same => fresh (same ▸ mem_append_right _ mem_cons_self)
  rw [append_iff]
  refine ⟨?_, ?_, ?_, trivial⟩
  · have changed := linked.update_next (nodup_append.mp distinct).1 (some node)
    refine changed.congr (fun item member => update_of_ne ?_ _ _) fun item member => ?_
    · exact fun same => fresh (same ▸ member)
    · rw [update_comm different, update_of_ne]
      exact fun same => fresh (same ▸ member)
  · rw [update_self]
    simp
  · rw [update_of_ne different, update_self]
    rfl

omit [DecidableEq Node] in
theorem next_getElem (linked : Linked prev next before nodes none) {position : Nat}
    (found : nodes[position]? = some node) : next node = nodes[position + 1]? := by
  induction nodes generalizing before position with
  | nil => simp at found
  | cons first rest ih =>
    obtain ⟨_, forth, later⟩ := linked
    cases position with
    | zero =>
      cases found
      rw [forth, Option.or_none, getElem?_cons_succ, head?_eq_getElem?]
    | succ position => exact ih later (by simpa using found)

omit [DecidableEq Node] in
theorem prev_getElem (linked : Linked prev next before nodes after) {position : Nat}
    (found : nodes[position + 1]? = some node) : prev node = nodes[position]? := by
  induction nodes generalizing before position with
  | nil => simp at found
  | cons first rest ih =>
    obtain ⟨_, _, later⟩ := linked
    cases position with
    | zero =>
      cases rest with
      | nil => simp at found
      | cons second others =>
        cases found
        exact later.1
    | succ position => exact ih later (by simpa using found)

omit [DecidableEq Node] in
/-- The nodes are linked when each of them points to those at the positions before and after it. -/
theorem of_getElem
    (back : ∀ position node, nodes[position]? = some node →
      prev node = if position = 0 then before else nodes[position - 1]?)
    (forth : ∀ position node, nodes[position]? = some node → next node = (nodes[position + 1]?).or after) :
    Linked prev next before nodes after := by
  induction nodes generalizing before with
  | nil => trivial
  | cons first rest ih =>
    refine ⟨back 0 first rfl, ?_, ih (fun position node found => ?_) fun position node found => ?_⟩
    · rw [forth 0 first rfl, getElem?_cons_succ, head?_eq_getElem?]
    · rw [back (position + 1) node found, if_neg (Nat.succ_ne_zero position), Nat.add_sub_cancel]
      cases position with
      | zero | succ position => rfl
    · exact forth (position + 1) node found

end Linked
end Gem5.ToMathlib
