import Gem5.ToMathlib.Codes
import Gem5.Construction.Mem.Huffman

namespace Gem5.Compression
open ToMathlib HuffmanNode List

/-- The bits of a codeword with the highest bit first. -/
def Code.bits (code : Code) : List Bool :=
  (range code.length).map fun index => code.code.getLsbD (code.length - 1 - index)

/-- This function follows a path, where a right turn is a one. -/
def codeOf (path : List Bool) : Code := { code := BitVec.ofNat 64 (number path), length := path.length }

section Codes
variable {path other : List Bool}

theorem codeOf_bits (fits : path.length ≤ 64) : (codeOf path).bits = path := by
  apply ext_getElem
  · simp [Code.bits, codeOf]
  intro index inside bounded
  have below : path.length - 1 - index < 64 := by omega
  simp only [Code.bits, codeOf, getElem_map, getElem_range, BitVec.getLsbD_ofNat, decide_eq_true below, Bool.true_and]
  exact testBit_number path bounded

/-- Codewords of at most 64 bits are the same number exactly when their paths agree after the leading left turns. -/
theorem codeOf_code_eq_iff (fits : path.length ≤ 64) (otherFits : other.length ≤ 64) :
    (codeOf path).code = (codeOf other).code ↔ strip path = strip other := by
  have bound : ∀ {bits : List Bool}, bits.length ≤ 64 → number bits < 2 ^ 64 := fun small =>
    (number_lt _).trans_le (Nat.pow_le_pow_right (by decide) small)
  rw [← number_eq_iff]
  constructor
  · intro same
    have values := congrArg BitVec.toNat same
    simp only [codeOf, BitVec.toNat_ofNat] at values
    rwa [Nat.mod_eq_of_lt (bound fits), Nat.mod_eq_of_lt (bound otherFits)] at values
  · intro same
    simp [codeOf, same]

theorem codeOf_concat :
    codeOf (path ++ [true]) = { code := (codeOf path).code <<< 1 + 1, length := (codeOf path).length + 1 } ∧
      codeOf (path ++ [false]) = { code := (codeOf path).code <<< 1, length := (codeOf path).length + 1 } := by
  simp only [codeOf, number_concat, length_append, length_singleton, Code.mk.injEq, and_true]
  constructor <;>
  · apply BitVec.eq_of_toNat_eq
    simp [Nat.shiftLeft_eq, Nat.mul_comm]

end Codes

namespace HuffmanNode

/-- The leaves of a tree with their paths in the order of the walk. -/
def leaves : HuffmanNode → List (BitVec 64 × List Bool)
  | .leaf value _ => [(value, [])]
  | .node left right =>
    right.leaves.map (fun entry => (entry.1, true :: entry.2)) ++
      left.leaves.map (fun entry => (entry.1, false :: entry.2))

/-- The leaves whose codewords are not dropped. -/
def coded (maxCodeLength : Nat) (root : HuffmanNode) : List (BitVec 64 × List Bool) :=
  root.leaves.filter fun entry => entry.2.length ≤ maxCodeLength

/-- No two codewords are the same after their leading left turns. -/
def Unambiguous (maxCodeLength : Nat) (root : HuffmanNode) : Prop :=
  ∀ entry ∈ root.coded maxCodeLength, ∀ other ∈ root.coded maxCodeLength,
    strip entry.2 = strip other.2 → entry.1 = other.1

instance (maxCodeLength : Nat) (root : HuffmanNode) : Decidable (root.Unambiguous maxCodeLength) :=
  inferInstanceAs (Decidable (∀ entry ∈ root.coded maxCodeLength, ∀ other ∈ root.coded maxCodeLength,
    strip entry.2 = strip other.2 → entry.1 = other.1))

variable {root : HuffmanNode} {maxCodeLength : Nat}

theorem mem_coded {entry : BitVec 64 × List Bool} :
    entry ∈ root.coded maxCodeLength ↔ entry ∈ root.leaves ∧ entry.2.length ≤ maxCodeLength := by
  simp [coded]

theorem mem_leaves_node {left right : HuffmanNode} {entry : BitVec 64 × List Bool} : entry ∈ (node left right).leaves ↔
      (∃ below ∈ right.leaves, entry = (below.1, true :: below.2)) ∨
        ∃ below ∈ left.leaves, entry = (below.1, false :: below.2) := by
  simp only [leaves, mem_append, mem_map, eq_comm]

/-- No path to a leaf continues to another leaf. -/
theorem eq_of_continues {entry other : BitVec 64 × List Bool} (member : entry ∈ root.leaves)
    (otherMember : other ∈ root.leaves) (continues : entry.2 <+: other.2) : entry = other := by
  induction root generalizing entry other with
  | leaf value frequency =>
    rw [leaves, mem_singleton] at member otherMember
    rw [member, otherMember]
  | node left right leftFree rightFree =>
    rcases mem_leaves_node.mp member with ⟨source, below, rfl⟩ | ⟨source, below, rfl⟩ <;>
      rcases mem_leaves_node.mp otherMember with ⟨target, otherBelow, rfl⟩ | ⟨target, otherBelow, rfl⟩
    · rw [rightFree below otherBelow (cons_prefix_cons.mp continues).2]
    · simp at continues
    · simp at continues
    · rw [leftFree below otherBelow (cons_prefix_cons.mp continues).2]

end HuffmanNode

namespace Huffman
variable {huffman : Huffman} {root : HuffmanNode} {maxCodeLength : Nat} {path : List Bool}

/-- This function enters the codewords of the leaves below a path. -/
def recordAll (huffman : Huffman) (entries : List (BitVec 64 × List Bool)) : Huffman :=
  { huffman with
    valueToCode := fill Prod.fst (fun entry => codeOf entry.2) entries huffman.valueToCode
    codeToValue := fill (fun entry => (codeOf entry.2).code) Prod.fst entries huffman.codeToValue }

/-- The walk enters the codeword of each leaf that is not too deep. -/
theorem generateCodes_eq (huffman : Huffman) (node : HuffmanNode) (path : List Bool) :
    huffman.generateCodes node (codeOf path) =
      huffman.recordAll ((node.leaves.map fun entry => (entry.1, path ++ entry.2)).filter fun entry =>
        entry.2.length ≤ huffman.maxCodeLength) := by
  induction node generalizing huffman path with
  | leaf value frequency =>
    by_cases deep : path.length > huffman.maxCodeLength
    · simp [generateCodes, codeOf, leaves, deep, recordAll, fill]
    · simp [generateCodes, codeOf, leaves, deep, recordAll, fill, record, Nat.not_lt.mp deep]
  | node left right leftWalk rightWalk =>
    by_cases deep : (codeOf path).length > huffman.maxCodeLength
    · have tooLong : ∀ entry : BitVec 64 × List Bool, ¬ (path ++ entry.2).length ≤ huffman.maxCodeLength := by
        intro entry
        simp only [codeOf] at deep
        rw [length_append]
        omega
      have dropped : ((node left right).leaves.map fun entry => (entry.1, path ++ entry.2)).filter
          (fun entry => entry.2.length ≤ huffman.maxCodeLength) = [] := by
        rw [filter_eq_nil_iff]
        intro entry member
        obtain ⟨source, _, rfl⟩ := mem_map.mp member
        simpa using tooLong source
      rw [dropped, generateCodes, if_pos deep]
      rfl
    · have walk : huffman.generateCodes (.node left right) (codeOf path) =
          (huffman.generateCodes right (codeOf (path ++ [true]))).generateCodes left (codeOf (path ++ [false])) := by
        rw [generateCodes, codeOf_concat.1, codeOf_concat.2]
        exact if_neg deep
      rw [walk, rightWalk, leftWalk, leaves, map_append, filter_append]
      simp [recordAll, fill_append, Function.comp_def]

/-- The generated tables hold the leaves that are not too deep. -/
theorem generateCodeMaps_eq (huffman : Huffman) (root : HuffmanNode) :
    huffman.generateCodeMaps root = (empty huffman.maxCodeLength).recordAll (root.coded huffman.maxCodeLength) := by
  have walk := generateCodes_eq (empty huffman.maxCodeLength) root []
  simp only [nil_append, Prod.mk.eta, map_id'] at walk
  exact walk

/-- Every codeword of the table is the path of a leaf. -/
theorem valueToCode_cases {value : BitVec 64} {code : Code}
    (entry : (huffman.generateCodeMaps root).valueToCode value = some code) :
    ∃ path, (value, path) ∈ root.coded huffman.maxCodeLength ∧ codeOf path = code := by
  rw [generateCodeMaps_eq] at entry
  rcases fill_cases entry with ⟨⟨leaf, path⟩, member, rfl, same⟩ | before
  · exact ⟨path, member, same⟩
  · simp [empty] at before

theorem codeToValue_cases {value code : BitVec 64}
    (entry : (huffman.generateCodeMaps root).codeToValue code = some value) :
    ∃ path, (value, path) ∈ root.coded huffman.maxCodeLength ∧ (codeOf path).code = code := by
  rw [generateCodeMaps_eq] at entry
  rcases fill_cases entry with ⟨⟨leaf, path⟩, member, same, rfl⟩ | before
  · exact ⟨path, member, same⟩
  · simp [empty] at before

/-- A leaf that is not too deep has an entry in both tables. -/
theorem isSome_of_mem_coded {entry : BitVec 64 × List Bool} (member : entry ∈ root.coded huffman.maxCodeLength) :
    ((huffman.generateCodeMaps root).valueToCode entry.1).isSome ∧
      ((huffman.generateCodeMaps root).codeToValue (codeOf entry.2).code).isSome := by
  rw [generateCodeMaps_eq]
  constructor
  · have found : (fill Prod.fst (fun entry => codeOf entry.2) (root.coded huffman.maxCodeLength)
        (fun _ => none) entry.1).isSome := fill_isSome member
    exact found
  · have found : ∀ key : BitVec 64 × List Bool → BitVec 64, (fill key Prod.fst (root.coded huffman.maxCodeLength)
        (fun _ => none) (key entry)).isSome := fun _ => fill_isSome member
    exact found fun entry => (codeOf entry.2).code

/-- The codewords of different values are no prefixes of each other. -/
def PrefixFree (huffman : Huffman) : Prop :=
  ∀ value other code otherCode, huffman.valueToCode value = some code → huffman.valueToCode other = some otherCode →
    value ≠ other → ¬ code.bits <+: otherCode.bits

/-- The decoder returns every value that has a codeword. -/
def Decodable (huffman : Huffman) : Prop :=
  ∀ value, (huffman.valueToCode value).isSome → huffman.decode (huffman.encode value).code = .ok value

theorem generateCodeMaps_prefixFree (fits : huffman.maxCodeLength ≤ 64) (root : HuffmanNode) :
    (huffman.generateCodeMaps root).PrefixFree := by
  intro value other code otherCode found otherFound different continues
  obtain ⟨path, member, rfl⟩ := valueToCode_cases found
  obtain ⟨otherPath, otherMember, rfl⟩ := valueToCode_cases otherFound
  obtain ⟨leaf, short⟩ := mem_coded.mp member
  obtain ⟨otherLeaf, otherShort⟩ := mem_coded.mp otherMember
  rw [codeOf_bits (by exact le_trans short fits), codeOf_bits (by exact le_trans otherShort fits)] at continues
  exact different (congrArg Prod.fst (eq_of_continues leaf otherLeaf continues))

/-- Decoding fails exactly when two codewords agree after their leading zeros. -/
theorem generateCodeMaps_decodable_iff (fits : huffman.maxCodeLength ≤ 64)
    (distinct : (root.leaves.map Prod.fst).Nodup) :
    (huffman.generateCodeMaps root).Decodable ↔ root.Unambiguous huffman.maxCodeLength := by
  have short : ∀ {entry : BitVec 64 × List Bool}, entry ∈ root.coded huffman.maxCodeLength → entry.2.length ≤ 64 :=
    fun member => le_trans (mem_coded.mp member).2 fits
  have codeword : ∀ {entry : BitVec 64 × List Bool}, entry ∈ root.coded huffman.maxCodeLength →
      (huffman.generateCodeMaps root).encode entry.1 = codeOf entry.2 := by
    intro entry member
    obtain ⟨code, found⟩ := Option.isSome_iff_exists.mp (isSome_of_mem_coded member).1
    obtain ⟨path, coded, rfl⟩ := valueToCode_cases found
    have same : (entry.1, path) = entry := inj_on_of_nodup_map distinct
      (mem_coded.mp coded).1 (mem_coded.mp member).1 rfl
    rw [encode, found]
    exact congrArg codeOf (congrArg Prod.snd same)
  constructor
  · intro decodable entry member other otherMember same
    have equal := (codeOf_code_eq_iff (short member) (short otherMember)).mpr same
    have first := decodable entry.1 (isSome_of_mem_coded member).1
    have second := decodable other.1 (isSome_of_mem_coded otherMember).1
    rw [codeword member, equal] at first
    rw [codeword otherMember, first] at second
    exact Except.ok.inj second
  · intro unambiguous value coded
    obtain ⟨code, found⟩ := Option.isSome_iff_exists.mp coded
    obtain ⟨path, member, rfl⟩ := valueToCode_cases found
    obtain ⟨decoded, entry⟩ := Option.isSome_iff_exists.mp (isSome_of_mem_coded member).2
    obtain ⟨otherPath, otherMember, same⟩ := codeToValue_cases entry
    have equal := unambiguous _ otherMember _ member
      ((codeOf_code_eq_iff (short otherMember) (short member)).mp same)
    rw [codeword member, decode, entry]
    exact congrArg Except.ok equal

end Huffman

section Trees
variable {queue rest : List HuffmanNode} {root : HuffmanNode} {value frequency : BitVec 64}

theorem BuildsTree.values (built : BuildsTree queue root) :
    (root.leaves.map Prod.fst).Perm (queue.flatMap fun node => node.leaves.map Prod.fst) := by
  induction built with
  | root node => simp
  | merge popped first second merged ih =>
    have merged : ∀ left right : HuffmanNode, ((node left right).leaves.map Prod.fst).Perm
        (left.leaves.map Prod.fst ++ right.leaves.map Prod.fst) := by
      intro left right
      simp only [leaves, map_append, map_map, Function.comp_def]
      exact perm_append_comm
    refine ih.trans (List.Perm.trans ?_ (popped.symm.flatMap_right _))
    simp only [flatMap_cons, ← append_assoc]
    exact (merged _ _).append_right _

theorem popSmallest_perm (node : HuffmanNode) (rest : List HuffmanNode) :
    (node :: rest).Perm ((popSmallest node rest).1 :: (popSmallest node rest).2) := by
  induction rest generalizing node with
  | nil => exact List.Perm.refl _
  | cons next rest ih =>
    rw [popSmallest]
    split
    · exact List.Perm.refl _
    · exact ((ih next).cons node).trans (List.Perm.swap _ _ _)

theorem popSmallest_le (node : HuffmanNode) (rest : List HuffmanNode) :
    ∀ other ∈ node :: rest, (popSmallest node rest).1.frequency ≤ other.frequency := by
  induction rest generalizing node with
  | nil => simp [popSmallest]
  | cons next rest ih =>
    intro other member
    rw [popSmallest]
    rcases mem_cons.mp member with rfl | later
    · split
      · exact BitVec.le_refl _
      · rename_i larger
        exact BitVec.le_of_lt (BitVec.not_le.mp larger)
    · split
      · rename_i smaller
        exact BitVec.le_trans smaller (ih next other later)
      · exact ih next other later

/-- The executable order of the merges is one of the possible orders. -/
theorem buildTree_builds (node : HuffmanNode) (rest : List HuffmanNode) :
    BuildsTree (node :: rest) (buildTree node rest) := by
  have merges : ∀ count node rest, rest.length ≤ count → BuildsTree (node :: rest) (mergeTrees count node rest) := by
    intro count
    induction count with
    | zero =>
      intro node rest few
      obtain rfl := eq_nil_of_length_eq_zero (Nat.le_zero.mp few)
      exact .root node
    | succ count ih =>
      intro node rest few
      have popped := popSmallest_perm node rest
      have smallest := popSmallest_le node rest
      rw [mergeTrees]
      generalize popSmallest node rest = result at popped smallest
      obtain ⟨left, others⟩ := result
      cases others with
      | nil =>
        obtain ⟨rfl, rfl⟩ : node = left ∧ rest = [] := by simpa using perm_singleton.mp popped
        exact .root node
      | cons next others =>
        have second := popSmallest_perm next others
        have least := popSmallest_le next others
        have length := popped.length_eq
        have remaining := second.length_eq
        simp only [length_cons] at length remaining
        refine .merge (popped.trans (second.cons left)) ?_ ?_ (ih _ _ (by omega))
        · intro other member
          exact smallest other (popped.mem_iff.mpr (mem_cons_of_mem _ (second.mem_iff.mpr member)))
        · intro other member
          exact least other (second.mem_iff.mpr (mem_cons_of_mem _ member))
  exact merges rest.length node rest (Nat.le_refl _)

theorem BuildsTree.of_singleton {node : HuffmanNode} (built : BuildsTree [node] root) : root = node := by
  cases built with
  | root => rfl
  | merge popped => simpa using popped.length_eq

/-- A leaf that outweighs all others together is merged last and on the right. -/
theorem BuildsTree.heaviest (built : BuildsTree queue root) (heavy : queue.Perm (.leaf value frequency :: rest))
    (light : (rest.map (·.frequency.toNat)).sum < frequency.toNat) :
    root = .leaf value frequency ∨ ∃ left, root = .node left (.leaf value frequency) := by
  have lighter : ∀ {rest : List HuffmanNode} {node : HuffmanNode}, node ∈ rest →
      (rest.map (·.frequency.toNat)).sum < frequency.toNat → ¬ frequency ≤ node.frequency := by
    intro rest node member light above
    have listed : node.frequency.toNat ∈ rest.map (·.frequency.toNat) := mem_map_of_mem member
    have part := le_sum_of_mem listed
    have above : frequency.toNat ≤ node.frequency.toNat := above
    omega
  induction built generalizing rest with
  | root node =>
    have single := heavy.length_eq
    obtain rfl : rest = [] := by simpa using single
    exact .inl (singleton_perm_singleton.mp heavy)
  | @merge queue others left right root popped first second merged ih =>
    have order := popped.symm.trans heavy
    have member : leaf value frequency ∈ left :: right :: others := order.mem_iff.mpr mem_cons_self
    rcases mem_cons.mp member with rfl | member
    · have next : right ∈ rest := ((perm_cons _).mp order).mem_iff.mp mem_cons_self
      exact absurd (first right mem_cons_self) (lighter next light)
    rcases mem_cons.mp member with rfl | member
    · have below : (left :: others).Perm rest := (perm_cons _).mp ((List.Perm.swap _ _ _).trans order)
      cases others with
      | nil => exact .inr ⟨left, merged.of_singleton⟩
      | cons other others =>
        have next : other ∈ rest := below.mem_iff.mp (by simp)
        exact absurd (second other mem_cons_self) (lighter next light)
    · obtain ⟨before, after, rfl⟩ := append_of_mem member
      have middle : (before ++ leaf value frequency :: after).Perm
          (leaf value frequency :: (before ++ after)) := perm_middle
      have total := (order.map (·.frequency.toNat)).sum_eq
      have part := (middle.map (·.frequency.toNat)).sum_eq
      simp only [map_cons, sum_cons, HuffmanNode.frequency] at total part
      have weight : (node left right).frequency.toNat = left.frequency.toNat + right.frequency.toNat := by
        rw [HuffmanNode.frequency, BitVec.toNat_add, Nat.mod_eq_of_lt]
        omega
      apply ih ((middle.cons _).trans (List.Perm.swap _ _ _))
      rw [map_cons, sum_cons, weight]
      omega

end Trees
end Gem5.Compression
