import Mathlib.Logic.Function.Iterate
import Novbot.Console.Merge

/-!
# The selector of the URL

The console reads its own canonical text (`parse_canonical`), and of the chips it makes of a
text no two ask for values of one key (`Tidy`), so that reading their canonical text merges
nothing.  What is read is then in order already, and the text stays (`rewritten_fixed`).
-/

namespace Novbot.Console

open Text Tags

/-- A `localeCompare` that orders texts, and tells different ones apart. -/
structure Locale where
  compare : String → String → Int
  eq_zero_iff : ∀ {a b}, compare a b = 0 ↔ a = b
  neg_iff : ∀ {a b}, compare a b < 0 ↔ 0 < compare b a
  trans : ∀ {a b c}, compare a b ≤ 0 → compare b c ≤ 0 → compare a c ≤ 0

namespace Locale

variable {locale : Locale} {a b c : String}

theorem total (locale : Locale) (a b : String) : locale.compare a b ≤ 0 ∨ locale.compare b a ≤ 0 := by
  rcases le_or_gt (locale.compare a b) 0 with hle | hgt
  · exact .inl hle
  · exact .inr (locale.neg_iff.mpr hgt).le

theorem antisymm (hab : locale.compare a b ≤ 0) (hba : locale.compare b a ≤ 0) : a = b := by
  rcases hab.lt_or_eq with hlt | heq
  · exact absurd (locale.neg_iff.mp hlt) (not_lt.mpr hba)
  · exact locale.eq_zero_iff.mp heq

theorem self (locale : Locale) (a : String) : locale.compare a a = 0 := locale.eq_zero_iff.mpr rfl

/-- The order of texts by their characters. -/
def codePoint : Locale where
  compare a b := if a < b then -1 else if a = b then 0 else 1
  eq_zero_iff := by
    intro a b
    rcases lt_trichotomy a b with hlt | rfl | hgt
    · simp [hlt, hlt.ne]
    · simp
    · simp [hgt.not_gt, hgt.ne']
  neg_iff := by
    intro a b
    rcases lt_trichotomy a b with hlt | rfl | hgt
    · simp [hlt, hlt.not_gt, hlt.ne']
    · simp
    · simp [hgt, hgt.not_gt, hgt.ne']
  trans := by
    intro a b c hab hbc
    have hle : ∀ {a b : String}, (if a < b then (-1 : Int) else if a = b then 0 else 1) ≤ 0 → a ≤ b := by
      intro a b h
      rcases lt_trichotomy a b with hlt | rfl | hgt
      · exact hlt.le
      · exact le_refl _
      · simp [hgt.not_gt, hgt.ne'] at h
    rcases ((hle hab).trans (hle hbc)).lt_or_eq with hlt | rfl
    · simp [hlt]
    · simp

end Locale

/-! ## Sorted chips -/

section
variable {locale : Locale} {values : List String} {chip : FilterChip} {chips : List FilterChip}

instance (locale : Locale) : Std.Total fun a b => locale.compare a b ≤ 0 := ⟨locale.total⟩

instance (locale : Locale) : IsTrans String fun a b => locale.compare a b ≤ 0 :=
  ⟨fun _ _ _ => locale.trans⟩

theorem uniqueSorted_idem (values : List String) :
    uniqueSorted locale.compare (uniqueSorted locale.compare values) =
      uniqueSorted locale.compare values := by
  have hsorted : (uniqueSorted locale.compare values).Pairwise fun a b => locale.compare a b ≤ 0 :=
    by simpa [uniqueSorted] using
      List.pairwise_insertionSort (fun a b => locale.compare a b ≤ 0) (distinct [] values)
  have hdistinct : distinct [] (uniqueSorted locale.compare values) =
      uniqueSorted locale.compare values :=
    distinct_of_nodup (nodup_uniqueSorted values) fun _ _ hmem => by cases hmem
  rw [uniqueSorted, hdistinct]
  simpa using hsorted.insertionSort_eq

theorem sortedChip_idem (chip : FilterChip) :
    sortedChip locale.compare (sortedChip locale.compare chip) = sortedChip locale.compare chip := by
  rw [sortedChip, sortedChip, uniqueSorted_idem]

theorem chipLe_iff {a b : FilterChip} : chipLe locale.compare a b = true ↔
    if a.key = b.key then locale.compare a.op.name b.op.name ≤ 0
    else locale.compare a.key b.key ≤ 0 := by
  rw [chipLe]
  by_cases hkey : a.key = b.key
  · simp [hkey, locale.self]
  · have hne : locale.compare a.key b.key ≠ 0 := fun hzero => hkey (locale.eq_zero_iff.mp hzero)
    simp [hkey, hne]

instance (locale : Locale) : Std.Total fun a b => chipLe locale.compare a b = true := by
  refine ⟨fun a b => ?_⟩
  rw [chipLe_iff, chipLe_iff]
  by_cases hkey : a.key = b.key
  · rw [if_pos hkey, if_pos hkey.symm]
    exact locale.total _ _
  · rw [if_neg hkey, if_neg (Ne.symm hkey)]
    exact locale.total _ _

instance (locale : Locale) : IsTrans FilterChip fun a b => chipLe locale.compare a b = true := by
  refine ⟨fun a b c hab hbc => ?_⟩
  rw [chipLe_iff] at hab hbc ⊢
  by_cases hfirst : a.key = b.key
  · rw [if_pos hfirst] at hab
    rw [hfirst]
    split
    · next hsecond =>
      rw [if_pos hsecond] at hbc
      exact locale.trans hab hbc
    · next hsecond => rwa [if_neg hsecond] at hbc
  · rw [if_neg hfirst] at hab
    by_cases hsecond : b.key = c.key
    · rw [← hsecond, if_neg hfirst]
      exact hab
    · rw [if_neg hsecond] at hbc
      split
      · next hkey =>
        rw [← hkey] at hbc
        exact absurd (locale.antisymm hab hbc) hfirst
      · exact locale.trans hab hbc

/-- The chips of the canonical text, in their order. -/
def inOrder (locale : Locale) (chips : List FilterChip) : List FilterChip :=
  (chips.map (sortedChip locale.compare)).insertionSort fun a b => chipLe locale.compare a b

theorem mem_inOrder : chip ∈ inOrder locale chips ↔ ∃ item ∈ chips, sortedChip locale.compare item = chip := by
  rw [inOrder, List.mem_insertionSort, List.mem_map]

theorem sorted_of_mem_inOrder (h : chip ∈ inOrder locale chips) : sortedChip locale.compare chip = chip := by
  obtain ⟨item, -, rfl⟩ := mem_inOrder.mp h
  exact sortedChip_idem item

theorem inOrder_idem (chips : List FilterChip) :
    inOrder locale (inOrder locale chips) = inOrder locale chips := by
  have hmap : (inOrder locale chips).map (sortedChip locale.compare) = inOrder locale chips := by
    conv_rhs => rw [← List.map_id (inOrder locale chips)]
    exact List.map_congr_left fun chip hchip => sorted_of_mem_inOrder hchip
  have hsorted : (inOrder locale chips).Pairwise fun a b => chipLe locale.compare a b = true :=
    List.pairwise_insertionSort _ _
  rw [inOrder, hmap]
  exact hsorted.insertionSort_eq

theorem written_eq (chips : List FilterChip) :
    written locale.compare chips = (inOrder locale chips).map (·.requirement) := by
  rw [written]
  refine List.map_congr_left fun chip hchip => ?_
  rw [sorted_of_mem_inOrder hchip]

end

/-! ## Chips that are read -/

section
variable {localeCompare : String → String → Int} {chip next : FilterChip}
  {chips : List FilterChip} {part : List Char}

theorem formed_of_normalizeChip (h : normalizeChip localeCompare chip = some next) :
    Formed next := by
  obtain ⟨key, op, values⟩ := chip
  rw [normalizeChip] at h
  dsimp only at h
  generalize hvalues : uniqueSorted localeCompare ((values.map trimText).filter (· ≠ "")) = kept at h
  have hnodup : kept.Nodup := hvalues ▸ nodup_uniqueSorted _
  cases hkey : keyOk (trimText key) with
  | false =>
    rw [hkey] at h
    cases h
  | true =>
    rw [hkey] at h
    cases op with
    | eq | neq =>
      obtain ⟨⟨hcount, hall⟩, hnext⟩ := Option.ite_none_right_eq_some.mp h
      cases hnext
      exact ⟨hkey, List.all_eq_true.mp hall, hnodup, hcount⟩
    | isIn | notIn =>
      obtain ⟨⟨hne, hall⟩, hnext⟩ := Option.ite_none_right_eq_some.mp h
      cases hnext
      exact ⟨hkey, List.all_eq_true.mp hall, hnodup, fun hlength => hne (List.length_eq_zero_iff.mp hlength)⟩
    | keyExists | not =>
      obtain ⟨-, hnext⟩ := Option.ite_none_right_eq_some.mp h
      cases hnext
      exact ⟨hkey, fun _ hmem => (by cases hmem), .nil, rfl⟩

theorem keyOk_of_matchKey {key : String} {rest : List Char} (h : matchKey part = some (key, rest)) :
    keyOk key = true := by
  obtain ⟨hkey, heq⟩ := Option.ite_none_right_eq_some.mp h
  cases heq
  exact hkey

theorem ok_of_matchValue {sign : List Char} {key value : String}
    (h : matchValue sign part = some (key, value)) : keyOk key = true ∧ valueOk value = true := by
  obtain ⟨⟨found, rest⟩, hkey, h⟩ := Option.bind_eq_some_iff.mp h
  obtain ⟨hvalue, heq⟩ := Option.ite_none_right_eq_some.mp h
  cases heq
  exact ⟨keyOk_of_matchKey hkey, (Bool.and_eq_true_iff.mp hvalue).2⟩

theorem formed_single {key value : String} {op : FilterOp} (hop : op.Takes 1)
    (h : keyOk key = true ∧ valueOk value = true) : Formed ⟨key, op, [value]⟩ := by
  refine ⟨h.1, fun other hother => ?_, List.nodup_singleton value, hop⟩
  rw [List.mem_singleton.mp hother]
  exact h.2

theorem formed_of_parse (h : parseRequirement localeCompare part = some chip) : Formed chip := by
  have hbare : ∀ {key : String} {op : FilterOp}, op.Takes 0 → keyOk key = true →
      Formed ⟨key, op, []⟩ :=
    fun hop hkey => ⟨hkey, fun _ hmem => (by cases hmem), .nil, hop⟩
  rw [parseRequirement] at h
  split at h
  · exact formed_of_normalizeChip h
  · split at h
    · next hfound =>
      cases h
      exact formed_single rfl (ok_of_matchValue hfound)
    · split at h
      · next hfound =>
        cases h
        exact formed_single rfl (ok_of_matchValue hfound)
      · dsimp only at h
        split at h
        · next hkey =>
          cases h
          exact hbare rfl (Bool.and_eq_true_iff.mp hkey).2
        · split at h
          · next hkey =>
            cases h
            exact hbare rfl hkey
          · cases h

theorem Tidy.addParts {parts : List (List Char)} {result : List FilterChip} (h : Tidy chips)
    (hresult : addParts localeCompare chips parts = some result) : Tidy result := by
  induction parts generalizing chips with
  | nil =>
    cases hresult
    exact h
  | cons part parts ih =>
    obtain ⟨chip, hchip, hresult⟩ := Option.bind_eq_some_iff.mp hresult
    exact ih (h.add (formed_of_parse hchip)) hresult

theorem tidy_of_parse {raw : List Char} (h : parseSelector localeCompare raw = some chips) :
    Tidy chips := by
  rw [parseSelector] at h
  split at h
  · cases h
    exact tidy_nil
  · exact tidy_nil.addParts h

end

/-! ## Reading canonical text -/

section
variable {localeCompare : String → String → Int} {req : Requirement} {reqs : List Requirement}

theorem parse_sign {key value : String} (sign : List Char) (hkey : keyOk key = true)
    (hsign : sign = ['!', '='] ∨ sign = ['=']) (hvalue : valueOk value = true) :
    parseRequirement localeCompare (key.toList ++ (sign ++ value.toList)) =
      some ⟨key, if sign = ['='] then .eq else .neq, [value]⟩ := by
  obtain ⟨hstops, hne⟩ := @stops_sign [] value.toList sign blank_nil hsign
  have hset := @matchSet_sign [] value.toList key sign hkey blank_nil hsign
  rw [List.nil_append] at hstops hne hset
  rw [parse_keyed hkey hstops hne, hset]
  rcases hsign with rfl | rfl
  · simp [List.isPrefixOf, hvalue]
  · simp [List.isPrefixOf, hvalue]

/-- The console reads the canonical text of a requirement. -/
theorem parse_canonical (h : req.Formed) :
    parseRequirement localeCompare req.canonical.toList = some (chipOf localeCompare req) := by
  have hspace : Blank [' '] := fun c hc => by
    rw [List.mem_singleton.mp hc]
    rfl
  cases req with
  | eq key value =>
    rw [Requirement.canonical, String.toList_append, String.toList_append, List.append_assoc]
    exact parse_sign ['='] h.1 (.inr rfl) h.2
  | notEq key value =>
    rw [Requirement.canonical, String.toList_append, String.toList_append, List.append_assoc]
    exact parse_sign ['!', '='] h.1 (.inl rfl) h.2
  | isIn key values =>
    have hset := denotes_intercalate h.2.1 h.2.2
    have hparse := @parse_set localeCompare [' '] [' '] key values .isIn _ _ (.inl ⟨rfl, rfl⟩) h.1
      (List.cons_ne_nil _ _) hspace (List.cons_ne_nil _ _) hspace hset
    simpa [Requirement.canonical, chipOf] using hparse
  | notIn key values =>
    have hset := denotes_intercalate h.2.1 h.2.2
    have hparse := @parse_set localeCompare [' '] [' '] key values .notIn _ _ (.inr ⟨rfl, rfl⟩) h.1
      (List.cons_ne_nil _ _) hspace (List.cons_ne_nil _ _) hspace hset
    simpa [Requirement.canonical, chipOf] using hparse
  | keyExists key => exact parse_key h
  | notExists key =>
    have hparse := @parse_other localeCompare key.toList '!' (by decide)
    rw [String.ofList_toList, if_pos ⟨rfl, h⟩] at hparse
    rw [Requirement.canonical, String.toList_append]
    exact hparse

theorem trim_denoted {text : List Char} (h : Denotes text req) : trim text = text := by
  have htrim := trim_segment blank_nil h blank_nil
  rwa [List.nil_append, List.append_nil] at htrim

/-- Canonical text of more than one requirement. -/
theorem canonical_cons (req next : Requirement) (reqs : List Requirement) :
    (",".intercalate ((req :: next :: reqs).map (·.canonical))).toList = req.canonical.toList ++
      ',' :: (",".intercalate ((next :: reqs).map (·.canonical))).toList := by
  rw [List.map_cons, List.map_cons, String.intercalate_cons_cons, String.toList_append,
    String.toList_append, List.append_assoc]
  rfl

theorem canonical_single (req : Requirement) :
    (",".intercalate ([req].map (·.canonical))).toList = req.canonical.toList := by
  rw [List.map_singleton, String.intercalate_singleton]

theorem splitRequirements_canonical (hne : reqs ≠ []) (h : ∀ req ∈ reqs, req.Formed) :
    splitRequirements (",".intercalate (reqs.map (·.canonical))).toList =
      reqs.map (·.canonical.toList) := by
  induction reqs with
  | nil => exact absurd rfl hne
  | cons req reqs ih =>
    obtain ⟨hreq, hrest⟩ := List.forall_mem_cons.mp h
    have htext := denotes_canonical hreq
    cases reqs with
    | nil =>
      have hclosed := closed_of_denotes htext [] []
      rw [List.append_nil, List.nil_append] at hclosed
      rw [canonical_single, splitRequirements, hclosed, splitFrom, if_pos]
      · rfl
      · rw [trim_denoted htext]
        exact htext.ne_nil
    | cons next reqs =>
      rw [canonical_cons, splitRequirements, closed_of_denotes htext, List.nil_append, splitFrom]
      simpa [splitRequirements] using ih (List.cons_ne_nil _ _) hrest

theorem trimEnd_canonical (hne : reqs ≠ []) (h : ∀ req ∈ reqs, req.Formed) :
    trimEndMatches isSpace (",".intercalate (reqs.map (·.canonical))).toList =
      (",".intercalate (reqs.map (·.canonical))).toList := by
  induction reqs with
  | nil => exact absurd rfl hne
  | cons req reqs ih =>
    obtain ⟨hreq, hrest⟩ := List.forall_mem_cons.mp h
    cases reqs with
    | nil =>
      rw [canonical_single]
      exact trimEndMatches_of_last ((denotes_canonical hreq).ends trims_isSpace)
    | cons next reqs =>
      have hsame := ih (List.cons_ne_nil _ _) hrest
      have hlists := lists_canonical (List.cons_ne_nil next reqs) hrest
      rw [canonical_cons, List.append_cons, trimEndMatches_append, hsame]
      rw [hsame]
      exact hlists.ne_nil

/-- Nothing is trimmed from canonical text. -/
theorem trim_canonical (hne : reqs ≠ []) (h : ∀ req ∈ reqs, req.Formed) :
    trim (",".intercalate (reqs.map (·.canonical))).toList =
      (",".intercalate (reqs.map (·.canonical))).toList := by
  have hstart : Stops isSpace (",".intercalate (reqs.map (·.canonical))).toList := by
    cases reqs with
    | nil => exact absurd rfl hne
    | cons req reqs =>
      have htext := denotes_canonical (List.forall_mem_cons.mp h).1
      cases reqs with
      | nil =>
        have hstops : Stops isSpace (req.canonical.toList ++ []) := htext.starts trims_isSpace
        rwa [List.append_nil, ← canonical_single] at hstops
      | cons next reqs =>
        rw [canonical_cons]
        exact htext.starts trims_isSpace
  rw [trim, hstart.dropWhile, trimEnd_canonical hne h]

theorem addParts_canonical (h : ∀ req ∈ reqs, req.Formed) (chips : List FilterChip) :
    addParts localeCompare chips (reqs.map (·.canonical.toList)) =
      some ((reqs.map (chipOf localeCompare)).foldl (addChip localeCompare) chips) := by
  induction reqs generalizing chips with
  | nil => rfl
  | cons req reqs ih =>
    obtain ⟨hreq, hrest⟩ := List.forall_mem_cons.mp h
    rw [List.map_cons, addParts, trim_denoted (denotes_canonical hreq), parse_canonical hreq]
    exact ih hrest _

/-- The console reads canonical text as the chips of its requirements. -/
theorem parseSelector_canonical (h : ∀ req ∈ reqs, req.Formed) :
    parseSelector localeCompare (",".intercalate (reqs.map (·.canonical))).toList =
      some ((reqs.map (chipOf localeCompare)).foldl (addChip localeCompare) []) := by
  by_cases hne : reqs = []
  · subst hne
    rfl
  · have hlists := lists_canonical hne h
    have hstar : (",".intercalate (reqs.map (·.canonical))).toList ≠ ['*'] := by
      intro heq
      obtain ⟨c, hc, htag⟩ := hlists.tagChar
      rw [heq, List.mem_singleton] at hc
      rw [hc] at htag
      cases htag
    rw [parseSelector, trim_canonical hne h, if_neg (not_or.mpr ⟨hlists.ne_nil, hstar⟩),
      splitRequirements_canonical hne h, addParts_canonical h]

end

/-! ## Reading the canonical text of chips -/

section
variable {locale : Locale} {chip : FilterChip} {chips : List FilterChip}

theorem chipOf_requirement (h : Formed chip) (hsorted : sortedChip locale.compare chip = chip) :
    chipOf locale.compare chip.requirement = chip := by
  obtain ⟨key, op, values⟩ := chip
  have hcount := h.count
  have hvalues : uniqueSorted locale.compare values = values := congrArg FilterChip.values hsorted
  cases op with
  | eq | neq =>
    obtain ⟨value, rfl⟩ := List.length_eq_one_iff.mp hcount
    rfl
  | isIn | notIn => rw [FilterChip.requirement, chipOf, hvalues]
  | keyExists | not =>
    cases List.length_eq_zero_iff.mp hcount
    rfl

/-- Chips that are in order, and of which no two ask for values of one key, are read back. -/
theorem fold_requirements (before : List FilterChip) (h : Tidy (before ++ chips))
    (hsorted : ∀ chip ∈ chips, sortedChip locale.compare chip = chip) :
    ((chips.map (·.requirement)).map (chipOf locale.compare)).foldl (addChip locale.compare) before =
      before ++ chips := by
  induction chips generalizing before with
  | nil => rw [List.append_nil]; rfl
  | cons chip chips ih =>
    obtain ⟨hchip, hrest⟩ := List.forall_mem_cons.mp hsorted
    have hformed : Formed chip := h.formed chip (by simp)
    have hadd : addChip locale.compare before chip = before ++ [chip] := by
      rw [addChip, normalizeChip_formed hformed, hchip]
      dsimp only
      split
      · next hasks =>
        rcases @mergeChip_cases locale.compare chip before with
          ⟨-, hend⟩ | ⟨older, item, newer, rfl, hkey, hitem, -⟩
        · exact hend
        · have hone := h.one
          simp [List.filter_append, hasks, hitem, hkey, List.nodup_append] at hone
      · rfl
    rw [List.map_cons, List.map_cons, List.foldl_cons, chipOf_requirement hformed hchip, hadd, ih]
    · simp
    · rwa [List.append_assoc, List.singleton_append]
    · exact hrest

theorem Tidy.inOrder (h : Tidy chips) : Tidy (inOrder locale chips) := by
  constructor
  · intro chip hchip
    obtain ⟨item, hitem, rfl⟩ := mem_inOrder.mp hchip
    exact (h.formed item hitem).sorted
  · have hperm : (Console.inOrder locale chips).Perm (chips.map (sortedChip locale.compare)) :=
      List.perm_insertionSort _ _
    have hkeys : ((chips.map (sortedChip locale.compare)).filter (·.asks)).map (·.key) =
        (chips.filter (·.asks)).map (·.key) := by
      rw [List.filter_map, List.map_map]
      rfl
    rw [((hperm.filter _).map _).nodup_iff, hkeys]
    exact h.one

theorem canonicalSelector_eq (h : Tidy chips) : canonicalSelector locale.compare chips =
    ",".intercalate (((inOrder locale chips).map (·.requirement)).map (·.canonical)) := by
  rw [canonicalSelector_formed h.formed, written_eq]

/-- The canonical text of chips is read as the chips in order. -/
theorem parse_canonicalSelector (h : Tidy chips) :
    parseSelector locale.compare (canonicalSelector locale.compare chips).toList =
      some (inOrder locale chips) := by
  have hformed : ∀ req ∈ (inOrder locale chips).map (·.requirement), req.Formed := by
    intro req hreq
    obtain ⟨chip, hchip, rfl⟩ := List.mem_map.mp hreq
    exact requirement_formed (h.inOrder.formed chip hchip)
  have htidy : Tidy ([] ++ inOrder locale chips) := h.inOrder
  rw [canonicalSelector_eq h, parseSelector_canonical hformed, fold_requirements [] htidy]
  · rfl
  · exact fun chip hchip => sorted_of_mem_inOrder hchip

theorem canonicalSelector_inOrder (h : Tidy chips) :
    canonicalSelector locale.compare (inOrder locale chips) = canonicalSelector locale.compare chips := by
  rw [canonicalSelector_eq h, canonicalSelector_eq h.inOrder, inOrder_idem]

theorem rewritten_again (locale : Locale) (raw : List Char) :
    rewritten locale.compare (rewritten locale.compare raw) = rewritten locale.compare raw := by
  cases hparse : parseSelector locale.compare raw with
  | none =>
    have hsame : rewritten locale.compare raw = raw := by rw [rewritten, hparse]
    rw [hsame, hsame]
  | some chips =>
    have htidy := tidy_of_parse hparse
    by_cases hraw : raw = [] ∨ raw = ['*']
    · have hsame : rewritten locale.compare raw = raw := by
        rw [rewritten, hparse]
        exact if_pos hraw
      rw [hsame, hsame]
    · have htext : rewritten locale.compare raw = (canonicalSelector locale.compare chips).toList := by
        rw [rewritten, hparse]
        exact if_neg hraw
      rw [htext, rewritten, parse_canonicalSelector htidy]
      dsimp only
      rw [canonicalSelector_inOrder htidy]
      split <;> rfl

end

/-- What the console reads, it reads again from its canonical text, with the same canonical text.
So the nodes page changes the selector of its URL at most once. -/
theorem rewritten_fixed (locale : Locale) (raw : List Char) :
    (∀ chips, parseSelector locale.compare raw = some chips →
      ∃ again, parseSelector locale.compare (canonicalSelector locale.compare chips).toList =
          some again ∧
        canonicalSelector locale.compare again = canonicalSelector locale.compare chips) ∧
    ∀ n, (rewritten locale.compare)^[n + 1] raw = rewritten locale.compare raw := by
  constructor
  · intro chips hparse
    have htidy := tidy_of_parse hparse
    exact ⟨inOrder locale chips, parse_canonicalSelector htidy, canonicalSelector_inOrder htidy⟩
  · intro n
    rw [Function.iterate_succ_apply]
    exact Function.iterate_fixed (rewritten_again locale raw) n

theorem rewritten_fixed_codePoint :
    (∃ again, parseSelector Locale.codePoint.compare "a,a in (1,2),b".toList = some again ∧
      canonicalSelector Locale.codePoint.compare again = "a,a in (1,2),b") ∧
    (rewritten Locale.codePoint.compare)^[2] "b, a=2,a=1 ,a".toList = "a,a in (1,2),b".toList := by
  have hparse : parseSelector Locale.codePoint.compare "b, a=2,a=1 ,a".toList =
      some [⟨"b", .keyExists, []⟩, ⟨"a", .isIn, ["1", "2"]⟩, ⟨"a", .keyExists, []⟩] := by
    decide +kernel
  have htext : canonicalSelector Locale.codePoint.compare
      [⟨"b", .keyExists, []⟩, ⟨"a", .isIn, ["1", "2"]⟩, ⟨"a", .keyExists, []⟩] =
        "a,a in (1,2),b" := by decide +kernel
  have hwritten : rewritten Locale.codePoint.compare "b, a=2,a=1 ,a".toList =
      "a,a in (1,2),b".toList := by decide +kernel
  obtain ⟨hagain, hiterate⟩ := rewritten_fixed Locale.codePoint "b, a=2,a=1 ,a".toList
  obtain ⟨again, hread, hsame⟩ := hagain _ hparse
  rw [htext] at hread hsame
  exact ⟨⟨again, hread, hsame⟩, (hiterate 1).trans hwritten⟩

end Novbot.Console
