import Gem5.Construction.Sim.Serialize

namespace Gem5
open ToMathlib List

/-- A word has a character and no blank. -/
def IsWord (word : List Char) : Prop := word ≠ [] ∧ ' ' ∉ word

section Words
variable {word rest : List Char} {words : List (List Char)}

theorem takeWhile_word (isWord : IsWord word) : word.takeWhile (· ≠ ' ') = word := by
  rw [takeWhile_eq_self_iff]
  intro c member
  rw [decide_eq_true_eq]
  rintro rfl
  exact isWord.2 member

theorem dropWhile_word (isWord : IsWord word) : word.dropWhile (· ≠ ' ') = [] := by
  rw [dropWhile_eq_nil_iff]
  intro c member
  rw [decide_eq_true_eq]
  rintro rfl
  exact isWord.2 member

/-- A text that starts with a word has no blanks to skip. -/
theorem dropWhile_blank (isWord : IsWord word) (rest : List Char) :
    (word ++ rest).dropWhile (· = ' ') = word ++ rest := by
  cases word with
  | nil => exact absurd rfl isWord.1
  | cons c tail =>
    have letter : c ≠ ' ' := by
      rintro rfl
      exact isWord.2 mem_cons_self
    rw [cons_append, dropWhile_cons_of_neg (by simpa using letter)]

theorem intercalate_words (word next : List Char) (words : List (List Char)) :
    [' '].intercalate (word :: next :: words) = word ++ ' ' :: [' '].intercalate (next :: words) := by
  simp [intercalate]

theorem eatLeadWhite_word (isWord : IsWord word) (rest : List Char) : eatLeadWhite (word ++ rest) = word ++ rest := by
  unfold eatLeadWhite
  rw [dropWhile_blank isWord, ite_self]

theorem IsWord.reverse (isWord : IsWord word) : IsWord word.reverse :=
  ⟨by simpa using isWord.1, by simpa using isWord.2⟩

/-- Words with single blanks between them start and end with a word. -/
theorem exists_ends (isWord : IsWord word) (all : ∀ other ∈ words, IsWord other) :
    ∃ first last, IsWord last ∧ [' '].intercalate (word :: words) = first ++ last := by
  induction words generalizing word with
  | nil => exact ⟨[], word, isWord, by simp [intercalate]⟩
  | cons next words ih =>
    obtain ⟨first, last, isLast, parts⟩ := ih (all next mem_cons_self)
      fun other member => all other (mem_cons_of_mem _ member)
    exact ⟨word ++ ' ' :: first, last, isLast, by rw [intercalate_words, parts]; simp⟩

theorem exists_front (word : List Char) (words : List (List Char)) :
    ∃ rest, [' '].intercalate (word :: words) = word ++ rest := by
  cases words with
  | nil => exact ⟨[], by simp [intercalate]⟩
  | cons next words => exact ⟨_, intercalate_words word next words⟩

/-- The text of words has no blanks at its ends. -/
theorem eatWhite_words (all : ∀ word ∈ words, IsWord word) :
    eatWhite ([' '].intercalate words) = [' '].intercalate words := by
  cases words with
  | nil => rfl
  | cons word words =>
    have isWord := all word mem_cons_self
    obtain ⟨rest, front⟩ := exists_front word words
    obtain ⟨first, last, isLast, ends⟩ := exists_ends isWord
      fun other member => all other (mem_cons_of_mem _ member)
    have lead : eatLeadWhite ([' '].intercalate (word :: words)) = [' '].intercalate (word :: words) := by
      rw [front, eatLeadWhite_word isWord]
    rw [eatWhite, lead, eatEndWhite, ends, reverse_append, eatLeadWhite_word isLast.reverse,
      reverse_append, reverse_reverse, reverse_reverse]

/-- The loop reads the words back. -/
theorem tokenizeLoop_words (isWord : IsWord word) (all : ∀ other ∈ words, IsWord other) :
    tokenizeLoop ' ' ([' '].intercalate (word :: words)) = word :: words := by
  induction words generalizing word with
  | nil =>
    have single : [' '].intercalate [word] = word := by simp [intercalate]
    rw [single, tokenizeLoop]
    simp only [takeWhile_word isWord, dropWhile_word isWord, drop_nil, dropWhile_nil, if_true]
  | cons next words ih =>
    have isNext := all next mem_cons_self
    have others : ∀ other ∈ words, IsWord other := fun other member => all other (mem_cons_of_mem _ member)
    obtain ⟨rest, front⟩ := exists_front next words
    have taken : (word ++ ' ' :: [' '].intercalate (next :: words)).takeWhile (· ≠ ' ') = word := by
      rw [takeWhile_append, if_pos (by rw [takeWhile_word isWord])]
      simp
    have dropped : (word ++ ' ' :: [' '].intercalate (next :: words)).dropWhile (· ≠ ' ') =
        ' ' :: [' '].intercalate (next :: words) := by
      rw [dropWhile_append, dropWhile_word isWord]
      simp
    have skipped : ([' '].intercalate (next :: words)).dropWhile (· = ' ') = [' '].intercalate (next :: words) := by
      rw [front, dropWhile_blank isNext]
    have more : [' '].intercalate (next :: words) ≠ [] := by
      rw [front]
      simp [isNext.1]
    rw [intercalate_words, tokenizeLoop]
    simp only [taken, dropped, drop_one, tail_cons, skipped, if_neg more, ih isNext others]

theorem tokenize_words (all : ∀ word ∈ words, IsWord word) : tokenize ' ' ([' '].intercalate words) = words := by
  cases words with
  | nil => rfl
  | cons word words =>
    have isWord := all word mem_cons_self
    obtain ⟨rest, front⟩ := exists_front word words
    have skipped : ([' '].intercalate (word :: words)).dropWhile (· = ' ') = [' '].intercalate (word :: words) := by
      rw [front, dropWhile_blank isWord]
    have more : [' '].intercalate (word :: words) ≠ [] := by
      rw [front]
      simp [isWord.1]
    simp only [tokenize, skipped, if_neg more]
    exact tokenizeLoop_words isWord fun other member => all other (mem_cons_of_mem _ member)

end Words

namespace Checkpoint
variable {T : Type} {text : ParamText T}

theorem parseTokens_shown (faithful : text.Faithful) (str : List Char) (param : List T) :
    parseTokens text str (param.map text.showParam) = .ok param := by
  induction param with
  | nil => rfl
  | cons value param ih =>
    rw [map_cons, parseTokens]
    simp only [faithful.readBack, ih, ok_bind]

theorem arrayParamIn_arrayParamOut (faithful : text.Faithful) (cp : Checkpoint) (name : String) (param : List T) :
    (cp.arrayParamOut text name param).arrayParamIn text name = .ok param := by
  have all : ∀ word ∈ param.map text.showParam, IsWord word := by
    intro word member
    obtain ⟨value, _, rfl⟩ := mem_map.mp member
    exact faithful.word value
  have entry : (cp.arrayParamOut text name param).entries name = some ([' '].intercalate (param.map text.showParam)) := by
    simp only [arrayParamOut, addEntry, arrayText, if_true, eatWhite_words all]
  rw [arrayParamIn, entry]
  simp only [tokenize_words all, parseTokens_shown faithful]

end Checkpoint

theorem ParamText.bool_faithful : ParamText.bool.Faithful := by
  constructor
  · decide
  · decide

end Gem5
