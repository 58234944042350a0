import Gem5.Proof.Mem.Chunks
import Gem5.Proof.Mem.HuffmanCodes
import Gem5.Construction.Mem.FrequentValues

namespace Gem5.Compression
open ToMathlib Huffman List BitVec

namespace Huffman
variable {huffman : Huffman} {root : HuffmanNode} {value : BitVec 64}

@[simp] theorem sample_maxCodeLength (huffman : Huffman) (value frequency : BitVec 64) :
    (huffman.sample value frequency).maxCodeLength = huffman.maxCodeLength := by
  unfold sample
  split <;> rfl

@[simp] theorem generateCodeMaps_maxCodeLength (huffman : Huffman) (root : HuffmanNode) :
    (huffman.generateCodeMaps root).maxCodeLength = huffman.maxCodeLength := by
  rw [generateCodeMaps_eq]
  rfl

@[simp] theorem sampleAll_maxCodeLength (huffman : Huffman) (samples : List (BitVec 64 × BitVec 64)) :
    (huffman.sampleAll samples).maxCodeLength = huffman.maxCodeLength := by
  induction samples generalizing huffman with
  | nil => rfl
  | cons sample rest ih => exact (ih _).trans (sample_maxCodeLength _ _ _)

/-- The queue holds the values that are sampled with a frequency. -/
theorem sampleAll_values {samples : List (BitVec 64 × BitVec 64)} (positive : ∀ sample ∈ samples, 0 < sample.2) :
    ((huffman.sampleAll samples).trees.flatMap fun node => node.leaves.map Prod.fst).Perm
      (samples.map Prod.fst ++ huffman.trees.flatMap fun node => node.leaves.map Prod.fst) := by
  induction samples generalizing huffman with
  | nil => exact List.Perm.refl _
  | cons first rest ih =>
    have occurs : first.2 ≠ 0 := fun zero => by simpa [zero] using positive first mem_cons_self
    refine (ih fun sample member => positive sample (mem_cons_of_mem _ member)).trans ?_
    simp only [sample, if_pos occurs, flatMap_cons, HuffmanNode.leaves, map_cons, map_nil, singleton_append]
    exact perm_middle

/-- A value with a leaf that is not too deep has a valid codeword. -/
theorem encode_length_le {path : List Bool} (leaf : (value, path) ∈ root.leaves)
    (short : path.length ≤ huffman.maxCodeLength) :
    ((huffman.generateCodeMaps root).encode value).length ≤ huffman.maxCodeLength := by
  have present := (isSome_of_mem_coded (HuffmanNode.mem_coded.mpr ⟨leaf, short⟩)).1
  obtain ⟨code, found⟩ := Option.isSome_iff_exists.mp present
  obtain ⟨other, member, rfl⟩ := valueToCode_cases found
  rw [encode, found]
  exact (HuffmanNode.mem_coded.mp member).2

end Huffman

namespace FrequentValues
variable {params : FrequentValuesParams} {state next : FrequentValues} {vft : List VFTEntry} {encoder : Huffman}
  {policy : VictimPolicy} {build : List HuffmanNode → HuffmanNode} {chunk uncompressedValue : BitVec 64}

/-- Every counter fits its type. -/
def Counters (params : FrequentValuesParams) (vft : List VFTEntry) : Prop :=
  vft.length = params.numVFTEntries ∧ ∀ entry ∈ vft, entry.counter < 2 ^ 32

/-- The pseudo value fits an index and has a codeword. -/
structure Coded (params : FrequentValuesParams) (state : FrequentValues) : Prop where
  fits : state.uncompressedValue.toNat < 2 ^ 32
  encoded : params.useHuffmanEncoding → (state.indexEncoder.encode state.uncompressedValue).length ≤ 64

/-- What the operations of the compressor keep. -/
structure Sound (params : FrequentValuesParams) (state : FrequentValues) : Prop where
  counters : Counters params state.vft
  maxCodeLength : state.indexEncoder.maxCodeLength = params.maxCodeLength
  sampling : state.phase = .sampling → state.indexEncoder.trees = []
  coded : state.phase ≠ .sampling → Coded params state

theorem increment_counter_lt {entry : VFTEntry} (small : entry.counter < 2 ^ 32) :
    (entry.increment params.counterBits).counter < 2 ^ 32 := by
  have bound : 2 ^ params.counterBits ≤ 2 ^ 32 := Nat.pow_le_pow_right (by decide) params.counterFits
  unfold VFTEntry.increment
  dsimp only
  split <;> omega

section
variable (counters : Counters params vft)
include counters

theorem Counters.set {entry : VFTEntry} {position : Nat} (small : entry.counter < 2 ^ 32) :
    Counters params (vft.set position entry) := by
  refine ⟨by rw [length_set, counters.1], ?_⟩
  intro other member
  rcases mem_or_eq_of_mem_set member with before | rfl
  · exact counters.2 other before
  · exact small

theorem Counters.map {change : VFTEntry → VFTEntry} (smaller : ∀ entry, (change entry).counter ≤ entry.counter) :
    Counters params (vft.map change) := by
  refine ⟨by rw [length_map, counters.1], ?_⟩
  intro other member
  obtain ⟨entry, before, rfl⟩ := mem_map.mp member
  exact (smaller entry).trans_lt (counters.2 entry before)

theorem Counters.sampleEntry (isInvalidation : Bool) :
    Counters params (sampleEntry params policy isInvalidation vft chunk).1 := by
  unfold FrequentValues.sampleEntry
  split
  · refine ⟨by rw [length_modify, counters.1], ?_⟩
    intro other member
    obtain ⟨position, found⟩ := mem_iff_getElem?.mp member
    rw [getElem?_modify] at found
    obtain ⟨entry, before, rfl⟩ := Option.map_eq_some_iff.mp found
    have small := counters.2 entry (mem_of_getElem? before)
    split
    · exact (Nat.sub_le _ _).trans_lt small
    · exact small
  · exact counters
  · rename_i position _
    apply counters.set
    apply increment_counter_lt
    rw [getD_eq_getElem?_getD]
    cases found : vft[position]? with
    | none => exact Nat.two_pow_pos 32
    | some entry => exact counters.2 entry (mem_of_getElem? found)
  · exact counters.set (increment_counter_lt (Nat.two_pow_pos 32))

theorem Counters.sampleChunk (isInvalidation : Bool) :
    Counters params (sampleChunk params policy isInvalidation vft chunk) := by
  have sampled : Counters params (FrequentValues.sampleEntry params policy isInvalidation vft chunk).1 :=
    counters.sampleEntry isInvalidation
  unfold FrequentValues.sampleChunk
  dsimp only
  split
  · apply sampled.map
    intro entry
    rw [VFTEntry.halve, Nat.shiftRight_eq_div_pow]
    exact Nat.div_le_self _ _
  · exact sampled

theorem Counters.foldl (isInvalidation : Bool) (chunks : List (BitVec 64)) :
    Counters params (chunks.foldl (FrequentValues.sampleChunk params policy isInvalidation) vft) :=
  foldlRecOn chunks _ counters fun _ held _ _ => held.sampleChunk isInvalidation

end

/-- Contents that are sampled if there are any keep the phase. -/
theorem Sound.sampleValues (sound : Sound params state) (phase : state.phase = .sampling) {data : List (BitVec 64)}
    {isInvalidation : Bool}
    (sampled : (if data.length > 0 then state.sampleValues params policy data isInvalidation else state) = next) :
    Sound params next ∧ next.phase = .sampling := by
  subst sampled
  split
  · exact ⟨⟨sound.counters.foldl isInvalidation _, sound.maxCodeLength, sound.sampling, fun other => absurd phase other⟩,
      phase⟩
  · exact ⟨sound, phase⟩

/-- The sampled frequencies are at most the sum of the largest counters. -/
theorem sampled_sum_le (bounded : ∀ entry ∈ vft, entry.counter < 2 ^ 32) :
    ((vft.foldl (fun encoder entry => encoder.sample entry.value (BitVec.ofNat 64 entry.counter)) encoder).trees.map
      (·.frequency.toNat)).sum ≤ (encoder.trees.map (·.frequency.toNat)).sum + vft.length * (2 ^ 32 - 1) := by
  induction vft generalizing encoder with
  | nil => simp
  | cons entry rest ih =>
    have small := bounded entry mem_cons_self
    have first : ((encoder.sample entry.value (BitVec.ofNat 64 entry.counter)).trees.map (·.frequency.toNat)).sum ≤
        (encoder.trees.map (·.frequency.toNat)).sum + (2 ^ 32 - 1) := by
      unfold sample
      split
      · have weight : entry.counter % 2 ^ 64 = entry.counter := Nat.mod_eq_of_lt (by omega)
        simp only [map_cons, sum_cons, HuffmanNode.frequency, toNat_ofNat, weight]
        omega
      · omega
    refine (ih fun entry member => bounded entry (mem_cons_of_mem _ member)).trans ?_
    rw [length_cons, Nat.add_one_mul]
    dsimp only
    omega

theorem sampled_maxCodeLength (vft : List VFTEntry) (encoder : Huffman) :
    (vft.foldl (fun encoder entry => encoder.sample entry.value (BitVec.ofNat 64 entry.counter))
      encoder).maxCodeLength = encoder.maxCodeLength := by
  rw [← sampleAll_maxCodeLength encoder (vft.map fun entry => (entry.value, BitVec.ofNat 64 entry.counter)), sampleAll,
    foldl_map]

/-- The pseudo value is merged last, so that its codeword has at most one bit. -/
theorem pseudo_leaf (counters : Counters params vft) (empty : encoder.trees = []) {root : HuffmanNode}
    (built : BuildsTree (sampleTable vft uncompressedValue encoder).trees root) :
    ∃ path, (uncompressedValue, path) ∈ root.leaves ∧ path.length ≤ 1 := by
  have light : _ ≤ (encoder.trees.map (·.frequency.toNat)).sum + vft.length * (2 ^ 32 - 1) := sampled_sum_le counters.2
  rw [empty, counters.1, map_nil, sum_nil, Nat.zero_add] at light
  have entries := params.entriesFit
  have heaviest := built.heaviest (List.Perm.refl _) (by
    rw [toNat_allOnes]
    refine light.trans_lt ?_
    omega)
  rcases heaviest with rfl | ⟨left, rfl⟩
  · exact ⟨[], by simp [HuffmanNode.leaves], by decide⟩
  · exact ⟨[true], by simp [HuffmanNode.leaves], by decide⟩

theorem pseudoValue_lt (found : pseudoValue params vft = some uncompressedValue) :
    uncompressedValue.toNat < 2 ^ 32 := by
  obtain ⟨index, listed, rfl⟩ := mem_map.mp (mem_of_find?_eq_some found)
  have small := mem_range.mp listed
  have entries := params.entriesFit
  rw [toNat_ofNat]
  omega

theorem Sound.generateCodes (sound : Sound params state) (phase : state.phase = .sampling)
    (merges : ∀ queue, queue ≠ [] → BuildsTree queue (build queue))
    (generated : state.generateCodes params build = .ok next) : Sound params next := by
  unfold FrequentValues.generateCodes at generated
  split at generated
  · simp at generated
  rename_i uncompressedValue found
  obtain ⟨_, _, rfl⟩ := bind_ok_eq_ok.mp generated
  have sampledLength : (sampleTable state.vft uncompressedValue state.indexEncoder).maxCodeLength =
      params.maxCodeLength := by
    rw [sampleTable, sample_maxCodeLength, sampled_maxCodeLength, sound.maxCodeLength]
  refine ⟨sound.counters, ?_, by simp, fun _ => ⟨pseudoValue_lt found, ?_⟩⟩
  · split
    · rw [generateCodeMaps_maxCodeLength, sampledLength]
    · exact sound.maxCodeLength
  · intro huffman
    have pushed : (sampleTable state.vft uncompressedValue state.indexEncoder).trees ≠ [] := by
      rw [sampleTable, sample, if_pos (by decide)]
      exact cons_ne_nil _ _
    obtain ⟨path, leaf, short⟩ := pseudo_leaf sound.counters (sound.sampling phase) (merges _ pushed)
    have used : params.maxCodeLength ≠ 0 := by simpa [FrequentValuesParams.useHuffmanEncoding] using huffman
    rw [if_pos huffman]
    refine (encode_length_le leaf ?_).trans ?_
    · rw [sampledLength]
      omega
    · rw [sampledLength]
      exact params.codeFits

theorem Sound.probeNotify (sound : Sound params state)
    (merges : ∀ queue, queue ≠ [] → BuildsTree queue (build queue)) {oldData newData : List (BitVec 64)}
    (notified : state.probeNotify params policy build oldData newData = .ok next) : Sound params next := by
  unfold FrequentValues.probeNotify at notified
  split at notified
  · rename_i phase
    dsimp only at notified
    generalize sampled : (if oldData.length > 0 then state.sampleValues params policy oldData true else state) = middle
      at notified
    obtain ⟨removed, samples⟩ := sound.sampleValues phase sampled
    generalize sampled : (if newData.length > 0 then middle.sampleValues params policy newData false else middle) = last
      at notified
    obtain ⟨added, samples⟩ := removed.sampleValues samples sampled
    split at notified
    · exact added.generateCodes samples merges notified
    · exact Except.ok.inj notified ▸ added
  · exact Except.ok.inj notified ▸ sound

theorem Sound.construct (constructed : FrequentValues.construct params = .ok state) : Sound params state := by
  have accepted : Huffman.construct params.maxCodeLength = .ok (Huffman.empty params.maxCodeLength) :=
    if_neg (Nat.not_lt.mpr params.codeFits)
  rw [FrequentValues.construct, accepted] at constructed
  cases constructed
  refine ⟨⟨length_replicate, ?_⟩, rfl, fun _ => rfl, fun other => absurd rfl other⟩
  intro entry member
  rw [eq_of_mem_replicate member]
  decide

/-- Every state that the compressor reaches is sound. -/
theorem run_sound {history : List Op} {start : FrequentValues} (constructed : FrequentValues.construct params = .ok start)
    (run : (machine params).Run start history state) : Sound params state := by
  refine run.invariant (Sound params) (Sound.construct constructed) ?_
  intro before op after sound allowed stepped
  cases op with
  | probeNotify policy build oldData newData => exact sound.probeNotify allowed.2 stepped
  | codeGenerationEvent =>
    cases stepped
    have phase : before.phase = .codeGeneration := allowed
    refine { sound with sampling := by simp, coded := fun _ => ?_ }
    have coded := sound.coded (by simp [phase])
    exact { coded with }

/-- An index holds a value of 32 bits. -/
theorem index_eq {value : BitVec 64} (small : value.toNat < 2 ^ 32) : (value.truncate 32).zeroExtend 64 = value := by
  apply eq_of_toNat_eq
  simp only [truncate_eq_setWidth, toNat_setWidth]
  omega

theorem index_eq_of_mem {line : List (BitVec 64)} (member : chunk ∈ frequentChunk.toChunks line) :
    (chunk.truncate 32).zeroExtend 64 = chunk := by
  apply eq_of_getLsbD_eq
  intro bit inside
  by_cases low : bit < 32
  · simp [inside, low]
  · rw [ChunkSize.getLsbD_of_mem_toChunks member (Nat.not_lt.mp low)]
    simp [low]

theorem checkCode_compressChunk (coded : Coded params state) (phase : state.phase = .compressing)
    (index : (chunk.truncate 32).zeroExtend 64 = chunk) :
    ∃ code, state.compressChunk params chunk = .ok code ∧ state.checkCode params { code, value := chunk } = .ok () := by
  have pseudo := index_eq coded.fits
  simp only [checkCode, phase, if_true, compressChunk, pseudo, index]
  by_cases huffman : params.useHuffmanEncoding = true
  · simp only [if_pos huffman]
    cases findEntry state.vft chunk with
    | none => exact ⟨_, if_pos rfl, assert_of (.inr rfl)⟩
    | some position =>
      simp only [Option.isSome_some, if_true]
      by_cases same : chunk = state.uncompressedValue
      · exact ⟨_, if_pos same, assert_of (.inr (by rw [same]))⟩
      · rw [if_neg same]
        by_cases long : (state.indexEncoder.encode chunk).length > 64
        · rw [if_pos long, assert_of (coded.encoded huffman)]
          exact ⟨_, rfl, assert_of (.inr rfl)⟩
        · rw [if_neg long]
          exact ⟨_, rfl, assert_of (.inl ⟨Nat.not_lt.mp long, rfl⟩)⟩
  · simp only [if_neg huffman]
    by_cases found : (findEntry state.vft chunk).isSome = true
    · exact ⟨_, if_pos found, assert_of (.inr found)⟩
    · exact ⟨_, if_neg found, assert_of (.inl rfl)⟩

theorem decompressValue_compressValue (sound : Sound params state)
    (index : (chunk.truncate 32).zeroExtend 64 = chunk) :
    ∃ compressed, state.compressValue params chunk = .ok compressed ∧
      state.decompressValue params compressed = .ok chunk := by
  have checked : ∃ code, state.selectCode params chunk = .ok code ∧
      state.checkCode params { code, value := chunk } = .ok () := by
    by_cases phase : state.phase = .compressing
    · rw [selectCode, if_pos phase]
      exact checkCode_compressChunk (sound.coded (by simp [phase])) phase index
    · rw [selectCode, if_neg phase]
      exact ⟨_, rfl, if_neg phase⟩
  obtain ⟨code, selected, checked⟩ := checked
  refine ⟨{ code, value := chunk }, ?_, ?_⟩
  · rw [compressValue, selected, ok_bind]
  · rw [decompressValue, checked, ok_bind]

/-- A sound compressor returns every line. -/
theorem decompress_compress (sound : Sound params state) (line : List (BitVec 64)) :
    (do state.decompress params line.length (← state.compress params (frequentChunk.toChunks line))) = .ok line := by
  have returns : ∀ chunk ∈ frequentChunk.toChunks line, ∃ compressed, state.compressValue params chunk = .ok compressed ∧
      state.decompressValue params compressed = .ok chunk := by
    intro chunk member
    exact decompressValue_compressValue sound (index_eq_of_mem member)
  obtain ⟨compressed, there, back⟩ := mapM_mapM_of_forall returns
  rw [compress, there, ok_bind, ok_bind, decompress, back, ok_bind, ChunkSize.fromChunks_toChunks]

end FrequentValues

section Decoding
open FrequentValues

/-- The codes of sampled values are prefix-free, decoding returns every value with a code exactly when no two codewords
agree after their leading zeros, and the frequent value compressor returns every line in every phase. -/
theorem huffman_decodable {maxCodeLength : Nat} {huffman : Huffman} {samples : List (BitVec 64 × BitVec 64)}
    {root : HuffmanNode} (constructed : Huffman.construct maxCodeLength = .ok huffman)
    (distinct : (samples.map Prod.fst).Nodup) (positive : ∀ sample ∈ samples, 0 < sample.2)
    (built : BuildsTree (huffman.sampleAll samples).trees root) :
    ((huffman.sampleAll samples).generateCodeMaps root).PrefixFree ∧
      (((huffman.sampleAll samples).generateCodeMaps root).Decodable ↔ root.Unambiguous maxCodeLength) ∧
      ∀ (params : FrequentValuesParams) (start state : FrequentValues) (history : List Op) (line : List (BitVec 64)),
        FrequentValues.construct params = .ok start → (machine params).Run start history state →
          (do state.decompress params line.length (← state.compress params (frequentChunk.toChunks line))) =
            .ok line := by
  obtain ⟨small, made⟩ := ite_error_eq_ok.mp constructed
  have fits := Nat.not_lt.mp small
  cases made
  have length : ((Huffman.empty maxCodeLength).sampleAll samples).maxCodeLength = maxCodeLength :=
    sampleAll_maxCodeLength _ _
  have values : (root.leaves.map Prod.fst).Nodup := by
    rw [built.values.nodup_iff, (sampleAll_values positive).nodup_iff]
    simpa [Huffman.empty] using distinct
  refine ⟨generateCodeMaps_prefixFree (by rwa [length]) root, ?_, ?_⟩
  · rw [generateCodeMaps_decodable_iff (by rwa [length]) values, length]
  · intro params start state history line constructed run
    exact decompress_compress (run_sound constructed run) line

/-- Two rare values below one that is less frequent than both together. -/
def balancedSamples : List (BitVec 64 × BitVec 64) := [(1, 2), (2, 2), (3, 3)]

/-- This function selects one tree for each queue. -/
def firstTree : List HuffmanNode → HuffmanNode
  | [] => .leaf 0 0
  | node :: rest => buildTree node rest

theorem firstTree_builds {queue : List HuffmanNode} (some : queue ≠ []) : BuildsTree queue (firstTree queue) := by
  cases queue with
  | nil => exact absurd rfl some
  | cons node rest => exact buildTree_builds node rest

/-- A compressor that starts to compress after two sampled values. -/
def smallFrequentValues : FrequentValuesParams where
  maxCodeLength := 18
  counterBits := 18
  checkSaturation := false
  numVFTEntries := 4
  numSamples := 2
  codeFits := by decide
  counterFits := by decide
  entriesFit := by decide

theorem huffman_decodable_balanced : (((Huffman.empty 18).sampleAll balancedSamples).generateCodeMaps
        (firstTree ((Huffman.empty 18).sampleAll balancedSamples).trees)).Decodable ∧
      ∃ start state history, FrequentValues.construct smallFrequentValues = .ok start ∧
        (machine smallFrequentValues).Run start history state ∧ state.phase = .compressing ∧
        (do state.decompress smallFrequentValues 1
              (← state.compress smallFrequentValues (frequentChunk.toChunks [0x0000000500000007]))) =
          .ok [0x0000000500000007] := by
  have sampled : ((Huffman.empty 18).sampleAll balancedSamples).trees ≠ [] := by decide
  have constructed : Huffman.construct 18 = .ok (Huffman.empty 18) := rfl
  have positive : ∀ sample ∈ balancedSamples, 0 < sample.2 := by simp [balancedSamples]
  have applied := huffman_decodable constructed (by decide) positive (firstTree_builds sampled)
  refine ⟨applied.2.1.mpr (by decide), _, _,
    [.codeGenerationEvent, .probeNotify (fun _ _ => 0) firstTree [] [0x0000000500000007]],
    and_of_imp rfl fun made => and_of_imp (.cons (.cons .nil ⟨?_, ?_⟩ rfl) (by exact rfl) rfl) fun run =>
      ⟨rfl, applied.2.2 _ _ _ _ _ made run⟩⟩
  · exact fun vft _ some => length_pos_of_ne_nil some
  · exact fun queue some => firstTree_builds some

/-- A frequent value gets the codeword 1, which the rarer value with the codeword 01 overwrites in the decoder. -/
theorem huffman_decodes_other_value : BuildsTree ((Huffman.empty 64).sampleAll [(3, 10), (2, 2), (1, 1)]).trees
        (.node (.node (.leaf 1 1) (.leaf 2 2)) (.leaf 3 10)) ∧
      (((Huffman.empty 64).sampleAll [(3, 10), (2, 2), (1, 1)]).generateCodeMaps
        (.node (.node (.leaf 1 1) (.leaf 2 2)) (.leaf 3 10))).encode 3 = { code := 1, length := 1 } ∧
      (((Huffman.empty 64).sampleAll [(3, 10), (2, 2), (1, 1)]).generateCodeMaps
        (.node (.node (.leaf 1 1) (.leaf 2 2)) (.leaf 3 10))).decode 1 = .ok 2 :=
  ⟨buildTree_builds (.leaf 1 1) [.leaf 2 2, .leaf 3 10], rfl, rfl⟩

end Decoding
end Gem5.Compression
