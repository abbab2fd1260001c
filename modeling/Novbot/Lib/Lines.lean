import Novbot.Lib.Text
import Mathlib.Data.List.TakeWhile

/-!
# Lines and words

`lines` and `words` are `str::lines` and `split_whitespace`.  A white character separates the
words on its two sides (`words_append`), so trimming a line does not change them.
-/

namespace Text

/-! ## Letter case -/

/-- `eq_ignore_ascii_case`. -/
def eqIgnoreCase (a b : List Char) : Bool := a.map toAsciiLowercase == b.map toAsciiLowercase

theorem eqIgnoreCase_iff {a b : List Char} :
    eqIgnoreCase a b = true ↔ a.map toAsciiLowercase = b.map toAsciiLowercase := beq_iff_eq

/-! ## Lines -/

/-- The line in front of a line feed, without a carriage return at its end. -/
def dropReturn (line : List Char) : List Char :=
  if line.getLast? = some '\r' then line.dropLast else line

/-- `str::lines`. -/
def lines (cs : List Char) : List (List Char) :=
  (split '\n' cs).dropLast.map dropReturn ++ ((split '\n' cs).getLast?.filter (· ≠ [])).toList

/-! ## Words -/

/-- `split_whitespace`. -/
def words (cs : List Char) : List (List Char) :=
  (cs.splitOnP isWhiteSpace).filter fun field => !field.isEmpty

@[simp] theorem words_nil : words [] = [] := rfl

theorem words_blank {cs : List Char} (h : ∀ c ∈ cs, isWhiteSpace c = true) : words cs = [] := by
  have hpieces : ∀ field ∈ cs.splitOnP isWhiteSpace, field = [] := by
    induction cs with
    | nil => simp
    | cons c cs ih =>
      rw [List.splitOnP_cons_eq_if_modifyHead, if_pos (h c List.mem_cons_self)]
      simpa using ih fun d hd => h d (.tail _ hd)
  rw [words, List.filter_eq_nil_iff]
  intro field hfield
  rw [hpieces field hfield]
  decide

/-- A white character separates words. -/
theorem words_append {c : Char} (hc : isWhiteSpace c = true) (before after : List Char) :
    words (before ++ c :: after) = words before ++ words after := by
  rw [words, List.splitOnP_append_cons before after hc, List.filter_append, words, words]

theorem words_word {cs : List Char} (hne : cs ≠ []) (h : ∀ c ∈ cs, isWhiteSpace c = false) :
    words cs = [cs] := by
  rw [words, List.splitOnP_eq_singleton h, List.filter_cons_of_pos, List.filter_nil]
  simpa using hne

theorem words_blank_append {space : List Char} (h : ∀ c ∈ space, isWhiteSpace c = true)
    (cs : List Char) : words (space ++ cs) = words cs := by
  induction space with
  | nil => rfl
  | cons c space ih =>
    rw [List.cons_append]
    refine (words_append (h c List.mem_cons_self) [] (space ++ cs)).trans ?_
    exact ih fun d hd => h d (.tail _ hd)

theorem words_append_blank {space : List Char} (h : ∀ c ∈ space, isWhiteSpace c = true)
    (cs : List Char) : words (cs ++ space) = words cs := by
  cases space with
  | nil => rw [List.append_nil]
  | cons c space =>
    rw [words_append (h c List.mem_cons_self), words_blank fun d hd => h d (.tail _ hd),
      List.append_nil]

/-- A word and what follows it after white space. -/
theorem words_word_append {word space : List Char} (hne : word ≠ [])
    (hword : ∀ c ∈ word, isWhiteSpace c = false) (hspace : ∀ c ∈ space, isWhiteSpace c = true)
    (hgap : space ≠ []) (cs : List Char) : words (word ++ (space ++ cs)) = word :: words cs := by
  cases space with
  | nil => exact absurd rfl hgap
  | cons c space =>
    rw [List.cons_append, words_append (hspace c List.mem_cons_self), words_word hne hword,
      words_blank_append fun d hd => hspace d (.tail _ hd)]
    rfl

/-! ## Trimmed lines -/

theorem trim_blank {cs : List Char} (h : ∀ c ∈ cs, isWhiteSpace c = true) : trim cs = [] := by
  rw [trim, trimStart, List.dropWhile_eq_nil_iff.mpr h]
  rfl

theorem trim_append_white (cs : List Char) {c : Char} (hc : isWhiteSpace c = true) :
    trim (cs ++ [c]) = trim cs := by
  by_cases hblank : ∀ d ∈ cs, isWhiteSpace d = true
  · rw [trim_blank hblank, trim_blank]
    intro d hd
    rcases List.mem_append.mp hd with hd | hd
    · exact hblank d hd
    · rw [List.mem_singleton.mp hd]
      exact hc
  · have hrest : trimStart (cs ++ [c]) = trimStart cs ++ [c] := by
      rw [trimStart, List.dropWhile_append, if_neg]
      · rfl
      · rw [List.isEmpty_iff, List.dropWhile_eq_nil_iff]
        exact hblank
    rw [trim, hrest, trimEndMatches_append_singleton _ hc, trim]

theorem trim_dropReturn (line : List Char) : trim (dropReturn line) = trim line := by
  unfold dropReturn
  split
  · next hlast =>
    obtain ⟨init, rfl⟩ := List.getLast?_eq_some_iff.mp hlast
    rw [List.dropLast_concat, trim_append_white init (by decide)]
  · rfl

/-- What a trimmed line was, between white space. -/
theorem exists_trim (cs : List Char) : ∃ before after, cs = before ++ (trim cs ++ after) ∧
    (∀ c ∈ before, isWhiteSpace c = true) ∧ ∀ c ∈ after, isWhiteSpace c = true := by
  refine ⟨cs.takeWhile isWhiteSpace,
    ((trimStart cs).reverse.takeWhile isWhiteSpace).reverse, ?_, ?_, ?_⟩
  · have hend : trim cs ++ ((trimStart cs).reverse.takeWhile isWhiteSpace).reverse = trimStart cs := by
      rw [trim, trimEndMatches, ← List.reverse_append, List.takeWhile_append_dropWhile,
        List.reverse_reverse]
    rw [hend, trimStart, List.takeWhile_append_dropWhile]
  · exact fun c hc => List.mem_takeWhile_imp hc
  · exact fun c hc => List.mem_takeWhile_imp (List.mem_reverse.mp hc)

theorem words_trim (cs : List Char) : words (trim cs) = words cs := by
  obtain ⟨before, after, hcs, hbefore, hafter⟩ := exists_trim cs
  conv => rhs; rw [hcs]
  rw [words_blank_append hbefore, words_append_blank hafter]

/-- A line begins with its first character that is not white. -/
theorem head?_trim {space rest : List Char} {c : Char} (hspace : ∀ d ∈ space, isWhiteSpace d = true)
    (hc : isWhiteSpace c = false) : (trim (space ++ c :: rest)).head? = some c := by
  obtain ⟨before, after, hcs, hbefore, hafter⟩ := exists_trim (space ++ c :: rest)
  have hstart : trimStart (space ++ c :: rest) = c :: rest := dropWhile_run hspace (.cons hc)
  obtain ⟨more, hmore⟩ := prefix_trimEndMatches isWhiteSpace (c :: rest)
  rw [trim, hstart]
  cases htrim : trimEndMatches isWhiteSpace (c :: rest) with
  | nil =>
    -- then every character is white, the first one too
    rw [trimEndMatches, List.reverse_eq_nil_iff, List.dropWhile_eq_nil_iff] at htrim
    rw [htrim c (List.mem_reverse.mpr List.mem_cons_self)] at hc
    cases hc
  | cons d trimmed =>
    rw [htrim, List.cons_append, List.cons.injEq] at hmore
    rw [List.head?_cons, hmore.1]

end Text
