import Mathlib.Data.List.Forall2
import Novbot.Console.Selector

/-!
# How the console reads what the center accepts

On a text that the grammar lists, the console finds the same requirements: it splits the text
where the list is separated (`splitRequirements_lists`), and a chip that it reads is that of
the requirement (`chip_of_denotes`).  It reads less white space than the center does.
-/

namespace Novbot.Console

open Text Tags

/-! ## White space -/

theorem isSpace_blank {c : Char} (h : isAsciiWhitespace c = true) : isSpace c = true := by
  rw [isAsciiWhitespace] at h
  simp only [Bool.or_eq_true, beq_iff_eq] at h
  rcases h with (((rfl | rfl) | rfl) | rfl) | rfl <;> rfl

theorem not_isSpace_of_tagChar {c : Char} (h : isTagChar c = true) : isSpace c = false := by
  have hrange := range_of_tagChar h
  simp only [isSpace, Bool.or_eq_false_iff, Bool.and_eq_false_iff, decide_eq_false_iff_not,
    beq_eq_false_iff_ne]
  omega

theorem trims_isSpace : Trims isSpace :=
  ⟨fun _ => isSpace_blank, fun _ => not_isSpace_of_tagChar, by decide, by decide⟩

theorem trim_segment {a text b : List Char} {req : Requirement} (ha : Blank a)
    (htext : Denotes text req) (hb : Blank b) : trim (a ++ (text ++ b)) = text := by
  rw [trim, dropWhile_run (ha.trimmed trims_isSpace) (htext.starts trims_isSpace),
    trimEndMatches_segment trims_isSpace htext hb]

/-- A value is trimmed already. -/
theorem trim_blank_run {a cs b : List Char} (ha : Blank a)
    (hcs : cs ≠ [] ∧ ∀ c ∈ cs, isTagChar c = true) (hb : Blank b) : trim (a ++ (cs ++ b)) = cs := by
  rw [trim, dropWhile_run (ha.trimmed trims_isSpace) (trims_isSpace.run hcs),
    trimEndMatches_run (hb.trimmed trims_isSpace), trimEndMatches_of_last]
  exact fun c hc => not_isSpace_of_tagChar (hcs.2 c (List.mem_of_getLast? hc))

/-! ## Splitting -/

/-- A text that is read into one part. -/
def Closed (text : List Char) : Prop :=
  ∀ buf rest, splitFrom 0 buf (text ++ rest) = splitFrom 0 (buf ++ text) rest

/-- No character of the text separates or groups. -/
def Plain (text : List Char) : Prop := ∀ c ∈ text, c ≠ '(' ∧ c ≠ ')'

section
variable {a b cs text rest : List Char}

theorem Closed.append (ha : Closed a) (hb : Closed b) : Closed (a ++ b) := by
  intro buf rest
  rw [List.append_assoc, ha, hb, List.append_assoc]

theorem closed_of_plain (h : Plain text) (hcomma : ',' ∉ text) : Closed text := by
  intro buf rest
  induction text generalizing buf with
  | nil => rw [List.nil_append, List.append_nil]
  | cons c text ih =>
    obtain ⟨hc, htext⟩ := List.forall_mem_cons.mp h
    rw [List.mem_cons, not_or] at hcomma
    rw [List.cons_append, splitFrom]
    simp only [if_neg hc.1, if_neg hc.2, and_true, if_neg (Ne.symm hcomma.1)]
    rw [ih htext hcomma.2, List.append_assoc]
    rfl

theorem splitFrom_group (h : Plain text) (buf : List Char) :
    splitFrom 1 buf (text ++ ')' :: rest) = splitFrom 0 (buf ++ text ++ [')']) rest := by
  induction text generalizing buf with
  | nil =>
    rw [List.nil_append, splitFrom]
    simp
  | cons c text ih =>
    obtain ⟨hc, htext⟩ := List.forall_mem_cons.mp h
    rw [List.cons_append, splitFrom]
    simp only [if_neg hc.1, if_neg hc.2, one_ne_zero, and_false, if_false]
    rw [ih htext]
    simp

/-- Commas in parentheses do not separate. -/
theorem closed_group (h : Plain text) : Closed ('(' :: (text ++ [')'])) := by
  intro buf rest
  rw [List.cons_append, List.append_assoc, splitFrom]
  simp only [if_true, Nat.zero_add, one_ne_zero, and_false, if_false]
  rw [show [')'] ++ rest = ')' :: rest from rfl, splitFrom_group h]
  simp

theorem plain_run (h : ∀ c ∈ cs, isTagChar c = true) : Plain cs ∧ ',' ∉ cs :=
  ⟨fun c hc => ⟨fun heq => absurd (h c hc) (by rw [heq]; decide),
      fun heq => absurd (h c hc) (by rw [heq]; decide)⟩,
    fun hc => absurd (h ',' hc) (by decide)⟩

theorem plain_blank (h : Blank cs) : Plain cs ∧ ',' ∉ cs :=
  ⟨fun c hc => ⟨fun heq => absurd (h c hc) (by rw [heq]; decide),
      fun heq => absurd (h c hc) (by rw [heq]; decide)⟩,
    fun hc => absurd (h ',' hc) (by decide)⟩

theorem closed_run (h : ∀ c ∈ cs, isTagChar c = true) : Closed cs :=
  closed_of_plain (plain_run h).1 (plain_run h).2

theorem closed_blank (h : Blank cs) : Closed cs :=
  closed_of_plain (plain_blank h).1 (plain_blank h).2

theorem Plain.append (ha : Plain a) (hb : Plain b) : Plain (a ++ b) :=
  fun c hc => (List.mem_append.mp hc).elim (ha c) (hb c)

theorem plain_set {values : List String} (h : DenotesSet text values) : Plain text := by
  induction h with
  | last ha hvalue hb =>
    exact (plain_blank ha).1.append ((plain_run (valueOk_run hvalue).2).1.append (plain_blank hb).1)
  | more ha hvalue hb _ ih =>
    refine (plain_blank ha).1.append ((plain_run (valueOk_run hvalue).2).1.append
      ((plain_blank hb).1.append ?_))
    exact List.forall_mem_cons.mpr ⟨by decide, ih⟩

theorem closed_of_denotes {req : Requirement} (h : Denotes text req) : Closed text := by
  have hsign : ∀ {c : Char} {cs : List Char}, c ≠ '(' ∧ c ≠ ')' → c ≠ ',' → Closed cs →
      Closed (c :: cs) := by
    intro c cs hc hcomma hcs
    refine Closed.append (a := [c]) (closed_of_plain ?_ ?_) hcs
    · exact fun d hd => List.mem_singleton.mp hd ▸ hc
    · exact fun hmem => hcomma (List.mem_singleton.mp hmem).symm
  cases h with
  | notExists ha hkey =>
    exact hsign (by decide) (by decide) ((closed_blank ha).append (closed_run (keyOk_run hkey).2))
  | keyExists hkey => exact closed_run (keyOk_run hkey).2
  | notEq hkey ha hb hvalue =>
    exact (closed_run (keyOk_run hkey).2).append ((closed_blank ha).append
      (hsign (by decide) (by decide) (hsign (by decide) (by decide)
        ((closed_blank hb).append (closed_run (valueOk_run hvalue).2)))))
  | eq hkey ha hb hvalue =>
    exact (closed_run (keyOk_run hkey).2).append ((closed_blank ha).append
      (hsign (by decide) (by decide) ((closed_blank hb).append (closed_run (valueOk_run hvalue).2))))
  | notIn hkey hne ha hb hset | isIn hkey hne ha hb hset =>
    exact (closed_run (keyOk_run hkey).2).append ((closed_blank ha).append
      ((closed_run (List.all_eq_true.mp (by decide))).append ((closed_blank hb).append (closed_group (plain_set hset)))))

theorem closed_of_segment {req : Requirement} (h : Segment text req) : Closed text := by
  obtain ⟨ha, htext, hb⟩ := h
  exact (closed_blank ha).append ((closed_of_denotes htext).append (closed_blank hb))

/-- A list is split where it is separated. -/
theorem splitRequirements_lists {reqs : List Requirement} (h : Lists text reqs) :
    ∃ parts, splitRequirements text = parts ∧ List.Forall₂ Segment parts reqs ∧
      (parts.map (·.length + 1)).sum = text.length + 1 := by
  induction h with
  | @last text req hsegment =>
    refine ⟨[text], ?_, .cons hsegment .nil, by simp⟩
    have hclosed := closed_of_segment hsegment [] []
    rw [List.append_nil, List.nil_append] at hclosed
    rw [splitRequirements, hclosed, splitFrom, if_pos]
    obtain ⟨ha, htext, hb⟩ := hsegment
    rw [trim_segment ha htext hb]
    exact htext.ne_nil
  | @more text rest req reqs hsegment hrest ih =>
    obtain ⟨parts, hparts, hall, hsum⟩ := ih
    refine ⟨text :: parts, ?_, .cons hsegment hall, ?_⟩
    · rw [splitRequirements, closed_of_segment hsegment, List.nil_append, splitFrom]
      simpa [splitRequirements] using hparts
    · simp [hsum]
      omega

end

/-! ## Requirements -/

section
variable {localeCompare : String → String → Int} {a b text rest : List Char} {key value : String}
  {values : List String} {req : Requirement} {chip : FilterChip}

/-- The chip of a requirement. -/
def chipOf (localeCompare : String → String → Int) : Requirement → FilterChip
  | .eq key value => ⟨key, .eq, [value]⟩
  | .notEq key value => ⟨key, .neq, [value]⟩
  | .isIn key values => ⟨key, .isIn, uniqueSorted localeCompare values⟩
  | .notIn key values => ⟨key, .notIn, uniqueSorted localeCompare values⟩
  | .keyExists key => ⟨key, .keyExists, []⟩
  | .notExists key => ⟨key, .not, []⟩

theorem matchKey_run (hkey : keyOk key = true) (hrest : Stops isTagChar rest) :
    matchKey (key.toList ++ rest) = some (key, rest) := by
  obtain ⟨-, hrun⟩ := keyOk_run hkey
  rw [matchKey, takeWhile_run hrun hrest, dropWhile_run hrun hrest, String.ofList_toList]
  exact if_pos hkey

/-- A text with other characters is no key. -/
theorem keyOk_of_mem {cs : List Char} {c : Char} (hc : c ∈ cs) (htag : isTagChar c = false) :
    keyOk (String.ofList cs) = false := by
  by_contra h
  rw [Bool.not_eq_false] at h
  have hall := (keyOk_run h).2
  rw [String.toList_ofList] at hall
  exact absurd (hall c hc) (by simp [htag])

theorem valueOk_of_mem {cs : List Char} {c : Char} (hc : c ∈ cs) (htag : isTagChar c = false) :
    valueOk (String.ofList cs) = false := by
  by_contra h
  rw [Bool.not_eq_false] at h
  have hall := (valueOk_run h).2
  rw [String.toList_ofList] at hall
  exact absurd (hall c hc) (by simp [htag])

theorem matchSpaces_none (h : Stops isSpace rest) : matchSpaces rest = none := by
  rw [matchSpaces, h.takeWhile]
  rfl

theorem matchSpaces_run (hne : a ≠ []) (ha : Blank a) (h : Stops isSpace rest) :
    matchSpaces (a ++ rest) = some rest := by
  have hrun := ha.trimmed trims_isSpace
  rw [matchSpaces, takeWhile_run hrun h, dropWhile_run hrun h, if_neg hne]

theorem not_tagChar_of_ws {c : Char} (h : isAsciiWhitespace c = true) : isTagChar c = false := by
  by_contra htag
  rw [Bool.not_eq_false] at htag
  exact absurd h (by simp [not_ws_of_tagChar htag])

/-- A value that white space stands before is not read. -/
theorem eq_nil_of_valueOk (ha : Blank a) (h : valueOk (String.ofList (a ++ rest)) = true) :
    a = [] := by
  cases a with
  | nil => rfl
  | cons c a =>
    have htag := not_tagChar_of_ws (ha c List.mem_cons_self)
    rw [List.cons_append, valueOk_of_mem List.mem_cons_self htag] at h
    cases h

theorem eq_nil_of_keyOk (ha : Blank a) (h : keyOk (String.ofList (a ++ rest)) = true) : a = [] := by
  cases a with
  | nil => rfl
  | cons c a =>
    have htag := not_tagChar_of_ws (ha c List.mem_cons_self)
    rw [List.cons_append, keyOk_of_mem List.mem_cons_self htag] at h
    cases h

/-- The values between the commas of a set. -/
theorem split_set (h : DenotesSet text values) :
    ((split ',' text).map fun value => String.ofList (trim value)) = values := by
  have hcomma : ∀ {a b : List Char} {value : String}, Blank a → valueOk value = true → Blank b →
      ',' ∉ a ++ (value.toList ++ b) := by
    intro a b value ha hvalue hb hmem
    rcases List.mem_append.mp hmem with hmem | hmem
    · exact (plain_blank ha).2 hmem
    · rcases List.mem_append.mp hmem with hmem | hmem
      · exact (plain_run (valueOk_run hvalue).2).2 hmem
      · exact (plain_blank hb).2 hmem
  induction h with
  | last ha hvalue hb =>
    rw [split_of_not_mem (hcomma ha hvalue hb), List.map_singleton,
      trim_blank_run ha (valueOk_run hvalue) hb, String.ofList_toList]
  | @more a b rest value values ha hvalue hb _ ih =>
    have htext : a ++ (value.toList ++ (b ++ ',' :: rest)) =
        (a ++ (value.toList ++ b)) ++ ',' :: rest := by simp
    rw [htext, split_append, split_of_not_mem (hcomma ha hvalue hb), List.singleton_append,
      List.map_cons, ih, trim_blank_run ha (valueOk_run hvalue) hb, String.ofList_toList]

theorem length_set (h : DenotesSet text values) :
    (",".intercalate values).length ≤ text.length := by
  have hsum := h.sum_length
  have hlength := length_intercalate h.formed.1
  omega

theorem mem_distinct {seen : List String} :
    value ∈ distinct seen values ↔ value ∈ values ∧ value ∉ seen := by
  induction values generalizing seen with
  | nil => simp [distinct]
  | cons first values ih =>
    rw [distinct]
    split
    · next hseen =>
      rw [ih, List.mem_cons]
      refine and_congr_left fun hnot => (or_iff_right ?_).symm
      rintro rfl
      exact hnot hseen
    · next hseen =>
      rw [List.mem_cons, ih, List.mem_cons, List.mem_cons, not_or]
      by_cases hfirst : value = first
      · simp [hfirst, hseen]
      · simp [hfirst]

theorem nodup_distinct (seen values : List String) : (distinct seen values).Nodup := by
  induction values generalizing seen with
  | nil => exact .nil
  | cons first values ih =>
    rw [distinct]
    split
    · exact ih seen
    · refine List.nodup_cons.mpr ⟨fun hmem => ?_, ih _⟩
      exact (mem_distinct.mp hmem).2 List.mem_cons_self

theorem mem_uniqueSorted : value ∈ uniqueSorted localeCompare values ↔ value ∈ values := by
  rw [uniqueSorted, List.mem_insertionSort, mem_distinct]
  simp

theorem nodup_uniqueSorted (values : List String) : (uniqueSorted localeCompare values).Nodup :=
  (List.perm_insertionSort _ _).nodup_iff.mpr (nodup_distinct [] values)

theorem trimText_of_run (h : text ≠ [] ∧ ∀ c ∈ text, isTagChar c = true) :
    trimText (String.ofList text) = String.ofList text := by
  have hnone : Blank [] := fun _ hc => by cases hc
  have htrim := trim_blank_run hnone h hnone
  rw [List.nil_append, List.append_nil] at htrim
  rw [trimText, String.toList_ofList, htrim]

theorem trimText_key (hkey : keyOk key = true) : trimText key = key := by
  have htrim := trimText_of_run (keyOk_run hkey)
  rwa [String.ofList_toList] at htrim

theorem trimText_value (hvalue : valueOk value = true) : trimText value = value := by
  have htrim := trimText_of_run (valueOk_run hvalue)
  rwa [String.ofList_toList] at htrim

theorem filter_values (h : ∀ value ∈ values, valueOk value = true) :
    values.filter (· ≠ "") = values := by
  rw [List.filter_eq_self]
  intro value hvalue
  have hne := (valueOk_run (h value hvalue)).1
  simpa using fun heq : value = "" => hne (by rw [heq]; rfl)

theorem values_kept (h : ∀ value ∈ values, valueOk value = true) :
    (values.map trimText).filter (· ≠ "") = values := by
  have hmap : values.map trimText = values :=
    (List.map_congr_left fun value hvalue => trimText_value (h value hvalue)).trans (List.map_id _)
  rw [hmap, filter_values h]

/-- A set with a key and values stays as it is. -/
theorem normalizeChip_set {op : FilterOp} (hop : op = .isIn ∨ op = .notIn) (hkey : keyOk key = true)
    (hvalues : values ≠ [] ∧ ∀ value ∈ values, valueOk value = true) :
    normalizeChip localeCompare ⟨key, op, values⟩ =
      some ⟨key, op, uniqueSorted localeCompare values⟩ := by
  obtain ⟨value, rest, hcons⟩ := List.exists_cons_of_ne_nil hvalues.1
  have hne : uniqueSorted localeCompare values ≠ [] :=
    List.ne_nil_of_mem (mem_uniqueSorted.mpr (hcons ▸ List.mem_cons_self))
  have hall : (uniqueSorted localeCompare values).all valueOk = true :=
    List.all_eq_true.mpr fun value hvalue => hvalues.2 value (mem_uniqueSorted.mp hvalue)
  rcases hop with rfl | rfl
  · rw [normalizeChip]
    dsimp only
    rw [trimText_key hkey, values_kept hvalues.2, hkey]
    exact if_pos (And.intro hne hall)
  · rw [normalizeChip]
    dsimp only
    rw [trimText_key hkey, values_kept hvalues.2, hkey]
    exact if_pos (And.intro hne hall)

/-- How a text is read that starts with a key. -/
theorem parse_keyed (hkey : keyOk key = true) (hstops : Stops isTagChar rest) (hne : rest ≠ []) :
    parseRequirement localeCompare (key.toList ++ rest) =
      match matchSet (key.toList ++ rest) with
      | some (key, op, inner) =>
        normalizeChip localeCompare
          ⟨key, op, (((split ',' inner).map fun value => String.ofList (trim value)).filter (· ≠ ""))⟩
      | none =>
        if ['!', '='].isPrefixOf rest && valueOk (String.ofList (rest.drop 2)) then
          some ⟨key, .neq, [String.ofList (rest.drop 2)]⟩
        else if ['='].isPrefixOf rest && valueOk (String.ofList (rest.drop 1)) then
          some ⟨key, .eq, [String.ofList (rest.drop 1)]⟩
        else none := by
  obtain ⟨c, tail, rfl⟩ := List.exists_cons_of_ne_nil hne
  obtain ⟨d, run, hrun⟩ := List.exists_cons_of_ne_nil (keyOk_run hkey).1
  have hd : d ≠ '!' := by
    rintro rfl
    exact absurd ((keyOk_run hkey).2 '!' (by simp [hrun])) (by decide)
  have hhead : (key.toList ++ c :: tail).head? ≠ some '!' := by simp [hrun, hd]
  have hwhole : keyOk (String.ofList (key.toList ++ c :: tail)) = false :=
    keyOk_of_mem (c := c) (by simp) (hstops c rfl)
  rw [parseRequirement]
  cases matchSet (key.toList ++ c :: tail) with
  | some found => rfl
  | none =>
    simp only [matchValue, matchKey_run hkey hstops, Option.bind_eq_bind, Option.bind_some]
    cases (['!', '='].isPrefixOf (c :: tail) && valueOk (String.ofList ((c :: tail).drop 2))) with
    | true => rfl
    | false =>
      cases (['='].isPrefixOf (c :: tail) && valueOk (String.ofList ((c :: tail).drop 1))) with
      | true => rfl
      | false =>
        rw [hwhole, decide_eq_false hhead, Bool.false_and]
        rfl

theorem stops_space_run {cs : List Char} (h : cs ≠ [] ∧ ∀ c ∈ cs, isTagChar c = true) :
    Stops isSpace (cs ++ rest) := trims_isSpace.run h

/-- A sign that white space stands before is not read. -/
theorem prefix_blank {c : Char} {sign : List Char} (hne : a ≠ []) (ha : Blank a)
    (hc : isAsciiWhitespace c = false) : (c :: sign).isPrefixOf (a ++ rest) = false := by
  obtain ⟨d, a, rfl⟩ := List.exists_cons_of_ne_nil hne
  have hd : c ≠ d := by
    rintro rfl
    rw [ha c List.mem_cons_self] at hc
    cases hc
  simp [List.isPrefixOf, hd]

theorem stops_sign {sign : List Char} (ha : Blank a) (hsign : sign = ['!', '='] ∨ sign = ['=']) :
    Stops isTagChar (a ++ (sign ++ rest)) ∧ a ++ (sign ++ rest) ≠ [] := by
  constructor
  · refine Parser.stops_blank ha ?_
    rcases hsign with rfl | rfl <;> exact .cons (by decide)
  · rcases hsign with rfl | rfl <;> simp

/-- A text with a sign is no set. -/
theorem matchSet_sign {sign : List Char} (hkey : keyOk key = true) (ha : Blank a)
    (hsign : sign = ['!', '='] ∨ sign = ['=']) :
    matchSet (key.toList ++ (a ++ (sign ++ rest))) = none := by
  have hspace : Stops isSpace (sign ++ rest) := by
    rcases hsign with rfl | rfl <;> exact .cons (by decide)
  have hword : matchWord (sign ++ rest) = none := by rcases hsign with rfl | rfl <;> rfl
  rw [matchSet, matchKey_run hkey (stops_sign ha hsign).1]
  by_cases hnil : a = []
  · subst hnil
    simp [matchSpaces_none hspace]
  · simp [matchSpaces_run hnil ha hspace, hword]

/-- A chip from a text with a sign and a value. -/
theorem chip_of_sign (sign : List Char) (hkey : keyOk key = true) (ha : Blank a)
    (hsign : sign = ['!', '='] ∨ sign = ['='])
    (hchip : parseRequirement localeCompare (key.toList ++ (a ++ (sign ++ rest))) = some chip) :
    a = [] ∧ valueOk (String.ofList rest) = true ∧
      chip = ⟨key, if sign = ['='] then .eq else .neq, [String.ofList rest]⟩ := by
  obtain ⟨hstops, hne⟩ := @stops_sign _ rest sign ha hsign
  rw [parse_keyed hkey hstops hne, matchSet_sign hkey ha hsign] at hchip
  dsimp only at hchip
  by_cases hnil : a = []
  · subst hnil
    rcases hsign with rfl | rfl
    · simp [List.isPrefixOf] at hchip
      exact ⟨rfl, hchip.1, hchip.2.symm⟩
    · simp [List.isPrefixOf] at hchip
      exact ⟨rfl, hchip.1, hchip.2.symm⟩
  · rw [prefix_blank hnil ha (by decide), prefix_blank hnil ha (by decide)] at hchip
    simp at hchip

theorem matchWord_set {op : FilterOp} {word : List Char}
    (hword : word = "in".toList ∧ op = .isIn ∨ word = "notin".toList ∧ op = .notIn) :
    Stops isSpace (word ++ (b ++ '(' :: rest)) ∧
      matchWord (word ++ (b ++ '(' :: rest)) = some (op, b ++ '(' :: rest) := by
  rcases hword with ⟨rfl, rfl⟩ | ⟨rfl, rfl⟩
  · exact ⟨stops_space_run ⟨by decide, List.all_eq_true.mp (by decide)⟩, rfl⟩
  · exact ⟨stops_space_run ⟨by decide, List.all_eq_true.mp (by decide)⟩, rfl⟩

/-- How the expression for sets finds one. -/
theorem matchSet_set {op : FilterOp} {word set : List Char}
    (hword : word = "in".toList ∧ op = .isIn ∨ word = "notin".toList ∧ op = .notIn)
    (hkey : keyOk key = true) (hne : a ≠ []) (ha : Blank a) (hspaced : b ≠ []) (hb : Blank b)
    (hset : DenotesSet set values) :
    matchSet (key.toList ++ (a ++ (word ++ (b ++ '(' :: (set ++ [')']))))) = some (key, op, set) := by
  obtain ⟨hspace, hmatch⟩ := @matchWord_set b (set ++ [')']) op word hword
  have hgroup : matchGroup ('(' :: (set ++ [')'])) = some set := by
    have hclose : ∀ c ∈ set, decide (c ≠ ')') = true := fun c hc => by
      simpa using (plain_set hset c hc).2
    have hstop : Stops (fun c => decide (c ≠ ')')) [')'] := .cons (by decide)
    rw [matchGroup, dropWhile_run hclose hstop, takeWhile_run hclose hstop, if_pos rfl]
  have hopen : matchSpaces (b ++ '(' :: (set ++ [')'])) = some ('(' :: (set ++ [')'])) :=
    matchSpaces_run hspaced hb (.cons (by decide))
  rw [matchSet, matchKey_run hkey (Parser.stops_spaced hne ha)]
  simp only [Option.bind_eq_bind, Option.bind_some, matchSpaces_run hne ha hspace, hmatch, hopen,
    hgroup]
  rfl

/-- The values of a set are read as they stand. -/
theorem parse_set {op : FilterOp} {word set : List Char}
    (hword : word = "in".toList ∧ op = .isIn ∨ word = "notin".toList ∧ op = .notIn)
    (hkey : keyOk key = true) (hne : a ≠ []) (ha : Blank a) (hspaced : b ≠ []) (hb : Blank b)
    (hset : DenotesSet set values) :
    parseRequirement localeCompare (key.toList ++ (a ++ (word ++ (b ++ '(' :: (set ++ [')']))))) =
      some ⟨key, op, uniqueSorted localeCompare values⟩ := by
  have hvalues := hset.formed
  rw [parseRequirement, matchSet_set hword hkey hne ha hspaced hb hset]
  dsimp only
  rw [split_set hset, filter_values hvalues.2,
    normalizeChip_set (hword.imp (·.2) (·.2)) hkey hvalues]

/-- A chip from a text with a set. -/
theorem chip_of_set {op : FilterOp} {word set : List Char}
    (hword : word = "in".toList ∧ op = .isIn ∨ word = "notin".toList ∧ op = .notIn)
    (hkey : keyOk key = true) (hne : a ≠ []) (ha : Blank a) (hb : Blank b)
    (hset : DenotesSet set values)
    (hchip : parseRequirement localeCompare
      (key.toList ++ (a ++ (word ++ (b ++ '(' :: (set ++ [')']))))) = some chip) :
    b ≠ [] ∧ chip = ⟨key, op, uniqueSorted localeCompare values⟩ := by
  by_cases hnil : b = []
  · -- The expression asks for white space before the parenthesis.
    subst hnil
    obtain ⟨hspace, hmatch⟩ := @matchWord_set [] (set ++ [')']) op word hword
    have hnone : matchSpaces ([] ++ '(' :: (set ++ [')'])) = none :=
      matchSpaces_none (.cons (by decide))
    have hfound : matchSet (key.toList ++ (a ++ (word ++ ([] ++ '(' :: (set ++ [')']))))) = none := by
      rw [matchSet, matchKey_run hkey (Parser.stops_spaced hne ha)]
      simp only [Option.bind_eq_bind, Option.bind_some, matchSpaces_run hne ha hspace, hmatch,
        hnone, Option.bind_none]
    rw [parse_keyed hkey (Parser.stops_spaced hne ha) (List.append_ne_nil_of_left_ne_nil hne _),
      hfound] at hchip
    dsimp only at hchip
    rw [prefix_blank hne ha (by decide), prefix_blank hne ha (by decide)] at hchip
    cases hchip
  · rw [parse_set hword hkey hne ha hnil hb hset] at hchip
    exact ⟨hnil, (Option.some.inj hchip).symm⟩

theorem matchKey_other {c : Char} (htag : isTagChar c = false) : matchKey (c :: rest) = none := by
  rw [matchKey, List.takeWhile_cons, htag]
  rfl

theorem parse_key (hkey : keyOk key = true) :
    parseRequirement localeCompare key.toList = some ⟨key, .keyExists, []⟩ := by
  obtain ⟨d, run, hrun⟩ := List.exists_cons_of_ne_nil (keyOk_run hkey).1
  have hd : d ≠ '!' := by
    rintro rfl
    exact absurd ((keyOk_run hkey).2 '!' (by simp [hrun])) (by decide)
  have hhead : key.toList.head? ≠ some '!' := by simp [hrun, hd]
  have hmatch : matchKey key.toList = some (key, []) := by
    have hrun : matchKey (key.toList ++ []) = some (key, []) := matchKey_run hkey .nil
    rwa [List.append_nil] at hrun
  have hspaces : matchSpaces [] = none := rfl
  rw [parseRequirement, matchSet, matchValue, matchValue, hmatch]
  simp [hspaces, hhead, hkey]

/-- How a text is read that starts with another character. -/
theorem parse_other {c : Char} (htag : isTagChar c = false) :
    parseRequirement localeCompare (c :: rest) =
      if c = '!' ∧ keyOk (String.ofList rest) = true then some ⟨String.ofList rest, .not, []⟩
      else none := by
  have hwhole : keyOk (String.ofList (c :: rest)) = false := keyOk_of_mem List.mem_cons_self htag
  rw [parseRequirement, matchSet, matchValue, matchValue, matchKey_other htag, hwhole]
  simp

/-- A chip that is read from a requirement is the chip of the requirement, which is not shorter
than its canonical text. -/
theorem chip_of_denotes (h : Denotes text req)
    (hchip : parseRequirement localeCompare text = some chip) :
    chip = chipOf localeCompare req ∧ req.canonical.length ≤ text.length := by
  have hsets : ∀ {a b set : List Char} {values : List String}, a ≠ [] → b ≠ [] →
      DenotesSet set values → (",".intercalate values).length + 2 ≤ a.length + b.length + set.length := by
    intro a b set values ha hb hset
    have hlength := length_set hset
    have ha := List.length_pos_iff.mpr ha
    have hb := List.length_pos_iff.mpr hb
    omega
  cases h with
  | @notExists a key ha hkey =>
    rw [parse_other (by decide)] at hchip
    obtain ⟨⟨-, hok⟩, hchip⟩ := Option.ite_none_right_eq_some.mp hchip
    cases eq_nil_of_keyOk ha hok
    cases hchip
    refine ⟨by simp [chipOf], ?_⟩
    have hsign : "!".length = 1 := rfl
    simp only [Requirement.canonical, String.length_append, List.nil_append, List.length_cons,
      String.length_toList]
    omega
  | @keyExists key hkey =>
    rw [parse_key hkey] at hchip
    cases hchip
    exact ⟨rfl, String.length_toList.ge⟩
  | @notEq a b key value hkey ha hb hvalue =>
    obtain ⟨rfl, hok, rfl⟩ := chip_of_sign ['!', '='] hkey ha (.inl rfl) hchip
    cases eq_nil_of_valueOk hb hok
    refine ⟨by simp [chipOf], ?_⟩
    have hsign : "!=".length = 2 := rfl
    simp only [Requirement.canonical, String.length_append, List.length_append, List.length_cons,
      List.length_nil, String.length_toList]
    omega
  | @eq a b key value hkey ha hb hvalue =>
    obtain ⟨rfl, hok, rfl⟩ := chip_of_sign ['='] hkey ha (.inr rfl) hchip
    cases eq_nil_of_valueOk hb hok
    refine ⟨by simp [chipOf], ?_⟩
    have hsign : "=".length = 1 := rfl
    simp only [Requirement.canonical, String.length_append, List.length_append, List.length_cons,
      List.length_nil, String.length_toList]
    omega
  | notIn hkey hne ha hb hset =>
    obtain ⟨hspaced, rfl⟩ := chip_of_set (.inr ⟨rfl, rfl⟩) hkey hne ha hb hset hchip
    refine ⟨rfl, ?_⟩
    have hlength := hsets hne hspaced hset
    have hword : " notin (".length = 8 ∧ "notin".length = 5 ∧ ")".length = 1 := ⟨rfl, rfl, rfl⟩
    simp only [Requirement.canonical, String.length_append, List.length_append, List.length_cons,
      List.length_nil, String.length_toList]
    omega
  | isIn hkey hne ha hb hset =>
    obtain ⟨hspaced, rfl⟩ := chip_of_set (.inl ⟨rfl, rfl⟩) hkey hne ha hb hset hchip
    refine ⟨rfl, ?_⟩
    have hlength := hsets hne hspaced hset
    have hword : " in (".length = 5 ∧ "in".length = 2 ∧ ")".length = 1 := ⟨rfl, rfl, rfl⟩
    simp only [Requirement.canonical, String.length_append, List.length_append, List.length_cons,
      List.length_nil, String.length_toList]
    omega

/-! ## Lists -/

/-- The room that a requirement takes in canonical text. -/
def width (req : Requirement) : Nat := req.canonical.length + 1

theorem addParts_segments {parts : List (List Char)} {reqs : List Requirement}
    {chips result : List FilterChip} (h : List.Forall₂ Segment parts reqs)
    (hresult : addParts localeCompare chips parts = some result) :
    result = (reqs.map (chipOf localeCompare)).foldl (addChip localeCompare) chips ∧
      (reqs.map width).sum ≤ (parts.map (·.length + 1)).sum := by
  induction h generalizing chips with
  | nil => exact ⟨(Option.some.inj hresult).symm, le_refl _⟩
  | @cons part req parts reqs hsegment _ ih =>
    obtain ⟨ha, htext, hb⟩ := hsegment
    rw [addParts, trim_segment ha htext hb] at hresult
    obtain ⟨chip, hchip, hresult⟩ := Option.bind_eq_some_iff.mp hresult
    obtain ⟨rfl, hlength⟩ := chip_of_denotes htext hchip
    obtain ⟨hfold, hsum⟩ := ih hresult
    refine ⟨hfold, ?_⟩
    simp only [List.map_cons, List.sum_cons, width, List.length_append] at hsum ⊢
    omega

/-- On a list the console reads the chips of its requirements. -/
theorem parseSelector_lists {reqs : List Requirement} {result : List FilterChip}
    (h : Lists text reqs) (hresult : parseSelector localeCompare text = some result) :
    result = (reqs.map (chipOf localeCompare)).foldl (addChip localeCompare) [] ∧
      (reqs.map width).sum ≤ text.length + 1 := by
  have htrim : Lists (trim text) reqs := h.trim trims_isSpace
  have hstar : trim text ≠ ['*'] := by
    intro heq
    obtain ⟨c, hc, htag⟩ := htrim.tagChar
    rw [heq, List.mem_singleton] at hc
    rw [hc] at htag
    exact absurd htag (by decide)
  have hlength : (trim text).length ≤ text.length := length_trimmed_le isSpace text
  obtain ⟨parts, hparts, hall, hsum⟩ := splitRequirements_lists htrim
  rw [parseSelector, if_neg (not_or.mpr ⟨htrim.ne_nil, hstar⟩), hparts] at hresult
  obtain ⟨hfold, hwidth⟩ := addParts_segments hall hresult
  exact ⟨hfold, by omega⟩

theorem trimEndMatches_cons {p : Char → Bool} {c : Char} (hc : p c = false) (cs : List Char) :
    ∃ tail, trimEndMatches p (c :: cs) = c :: tail := by
  rw [trimEndMatches, List.reverse_cons, List.dropWhile_append]
  split
  · exact ⟨[], by rw [List.dropWhile_cons, hc]; rfl⟩
  · exact ⟨((cs.reverse.dropWhile p)).reverse, by rw [List.reverse_append]; rfl⟩

theorem mem_of_mem_trim {c : Char} (h : c ∈ trim text) : c ∈ text := by
  rw [trim, trimEndMatches, List.mem_reverse] at h
  exact (List.dropWhile_suffix _).subset
    (List.mem_reverse.mp ((List.dropWhile_suffix _).subset h))

/-- A text of white space and stars has no chips. -/
theorem parseSelector_blank {result : List FilterChip}
    (htext : ∀ c ∈ text, isWhiteSpace c = true ∨ c = '*')
    (hresult : parseSelector localeCompare text = some result) : result = [] := by
  have hother : ∀ c ∈ trim text, isTagChar c = false ∧ c ≠ '!' ∧ c ≠ ',' ∧ c ≠ '(' ∧ c ≠ ')' := by
    intro c hc
    rcases htext c (mem_of_mem_trim hc) with hws | rfl
    · refine ⟨?_, ?_, ?_, ?_, ?_⟩
      · by_contra htag
        rw [Bool.not_eq_false] at htag
        exact absurd hws (by simp [not_whiteSpace_of_tagChar htag])
      all_goals
        rintro rfl
        cases hws
    · decide
  rw [parseSelector] at hresult
  split at hresult
  · exact (Option.some.inj hresult).symm
  · next hne =>
    obtain ⟨c, tail, hcons⟩ := List.exists_cons_of_ne_nil (not_or.mp hne).1
    have hspace : isSpace c = false := by
      obtain ⟨first, hfirst⟩ : ∃ first, text.dropWhile isSpace = c :: first := by
        cases hdrop : text.dropWhile isSpace with
        | nil =>
          rw [trim, hdrop] at hcons
          cases hcons
        | cons d first =>
          have hd : isSpace d = false := stops_dropWhile text d (by rw [hdrop]; rfl)
          obtain ⟨rest, hrest⟩ := trimEndMatches_cons hd first
          rw [trim, hdrop, hrest] at hcons
          cases hcons
          exact ⟨first, rfl⟩
      exact stops_dropWhile text c (by rw [hfirst]; rfl)
    have hclosed : Closed (trim text) := closed_of_plain
      (fun d hd => (hother d hd).2.2.2) fun hcomma => (hother ',' hcomma).2.2.1 rfl
    have hsplit := hclosed [] []
    rw [List.append_nil, List.nil_append] at hsplit
    obtain ⟨rest, hrest⟩ := trimEndMatches_cons hspace tail
    have htrim : trim (trim text) = c :: rest := by
      rw [hcons, trim, List.dropWhile_cons, hspace]
      exact hrest
    have hc := hother c (hcons ▸ List.mem_cons_self)
    rw [splitRequirements, hsplit, splitFrom, htrim, if_pos (List.cons_ne_nil c rest), addParts,
      htrim, parse_other hc.1, if_neg (fun hbang => hc.2.1 hbang.1)] at hresult
    cases hresult

end

end Novbot.Console
