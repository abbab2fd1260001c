import Mathlib.Algebra.BigOperators.Group.List.Basic
import Mathlib.Data.List.Pairwise
import Mathlib.Data.Prod.Lex
import Novbot.Lib.Sums
import Novbot.Tags.Grammar

/-!
# Canonical selectors

The parser accepts what the grammar lists within the limits, and its result is determined by
the requirements listed (`parseSelector_filter_iff`).  The canonical text lists what is
required in order (`Lists.canonicalOf`), and reading it again changes nothing but the order.

Selectors that differ only in order, repetition and white space (`Alike`) have one canonical
text, and a canonical text has one meaning (`canonical_normal`).
-/

namespace Novbot.Tags

open Text

/-! ## Requirements without repetition -/

/-- Without the equalities whose key has been asked for already. -/
def withoutRepeats : List String → List Requirement → List Requirement
  | _, [] => []
  | seen, .eq key value :: reqs =>
    if key ∈ seen then withoutRepeats seen reqs
    else .eq key value :: withoutRepeats (key :: seen) reqs
  | seen, req :: reqs => req :: withoutRepeats seen reqs

/-- What the parser makes of the requirements. -/
def selectorOf (reqs : List Requirement) : Selector :=
  ⟨withoutRepeats [] reqs, canonicalOf (withoutRepeats [] reqs)⟩

theorem firstEqualities_eq (seen : List String) (read : List (Nat × Requirement)) :
    firstEqualities seen read = withoutRepeats seen (read.map (·.2)) := by
  induction read generalizing seen with
  | nil => rfl
  | cons entry read ih =>
    obtain ⟨start, req⟩ := entry
    cases req with
    | eq key value =>
      rw [firstEqualities, List.map_cons, withoutRepeats, ih, ih]
    | _ => exact congrArg (_ :: ·) (ih seen)

/-- A text lists one list of requirements that keeps the limits. -/
theorem Lists.unique {cs : List Char} {reqs reqs' : List Requirement} (h : Lists cs reqs)
    (hcount : reqs.length ≤ maxRequirements) (hfits : ∀ req ∈ reqs, req.Fits)
    (h' : Lists cs reqs') : reqs' = reqs := by
  obtain ⟨read, hread, hmap⟩ :=
    (Parser.gives_requirements maxRequirements h (show (Parser.mk 0 cs).rest = cs from rfl)).1 ⟨hcount, hfits⟩
  obtain ⟨hgives, hlimit⟩ :=
    Parser.gives_requirements maxRequirements h' (show (Parser.mk 0 cs).rest = cs from rfl)
  by_cases hkeeps : reqs'.length ≤ maxRequirements ∧ ∀ req ∈ reqs', req.Fits
  · obtain ⟨read', hread', hmap'⟩ := hgives hkeeps
    rw [hread] at hread'
    cases hread'
    rw [← hmap, hmap']
  · obtain ⟨e, he⟩ := hlimit hkeeps
    rw [hread] at he
    cases he

/-- What the parser accepts as a filter. -/
theorem parseSelector_filter_iff {input : List Char} {selector : Selector} :
    parseSelector input = .ok (.filter selector) ↔ input.length ≤ maxSelectorChars ∧
      ∃ reqs, Lists input reqs ∧ reqs.length ≤ maxRequirements ∧ (∀ req ∈ reqs, req.Fits) ∧
        EqualitiesAgree reqs ∧ selector = selectorOf reqs := by
  have hresult : ∀ {selector}, parseSelector input = .ok (.filter selector) →
      input.length ≤ maxSelectorChars ∧ ∃ reqs, Lists input reqs ∧
        reqs.length ≤ maxRequirements ∧ (∀ req ∈ reqs, req.Fits) ∧ EqualitiesAgree reqs ∧
        selector = selectorOf reqs := by
    intro selector h
    simp only [parseSelector, Check.throw_bind, Check.ite_throw_eq_ok, not_lt] at h
    obtain ⟨hlength, h⟩ := h
    split at h
    · cases h
    · split at h
      · cases h
      · simp only [Check.bind_eq_ok, Check.pure_eq_ok] at h
        obtain ⟨read, hread, out, hout, heq⟩ := h
        cases heq
        obtain ⟨hlists, hcount, hfits⟩ := Parser.lists_of_requirements hread
        obtain ⟨a, ha, hstart⟩ := (Parser.mk 0 input).rest_skipWs
        have hinput : Lists input (read.map (·.2)) := by
          rw [show input = _ from hstart]
          exact hlists.blank ha
        refine ⟨hlength, read.map (·.2), hinput, by simpa using hcount, ?_,
          (rejectConflictingEquality_ok hout).1, ?_⟩
        · intro req hreq
          obtain ⟨entry, hentry, rfl⟩ := List.mem_map.mp hreq
          exact hfits entry hentry
        · rw [rejectConflictingEquality] at hout
          split at hout
          · cases hout
          · cases hout
            rw [selectorOf, firstEqualities_eq]
  refine ⟨hresult, ?_⟩
  rintro ⟨hlength, reqs, hlists, hcount, hfits, hagree, rfl⟩
  obtain ⟨selector, hparse, -⟩ := (parseSelector_of_lists hlists hlength hcount hagree).1 hfits
  obtain ⟨-, reqs', hlists', hcount', hfits', -, rfl⟩ := hresult hparse
  rw [hlists'.unique hcount' hfits' hlists]
  exact hparse

section
variable {input : List Char} {reqs : List Requirement}

theorem parseSelector_empty_iff :
    parseSelector input = .ok .empty ↔ input.length ≤ maxSelectorChars ∧ trim input = [] := by
  simp only [parseSelector, Check.throw_bind, Check.ite_throw_eq_ok, not_lt]
  refine and_congr_right fun _ => ?_
  split
  · next hnil => exact iff_of_true rfl hnil
  · next hne =>
    refine iff_of_false (fun h => ?_) hne
    split at h
    · cases h
    · simp only [Check.bind_eq_ok, Check.pure_eq_ok] at h
      obtain ⟨_, -, _, -, hfilter⟩ := h
      cases hfilter

theorem parseSelector_all_iff :
    parseSelector input = .ok .all ↔ input.length ≤ maxSelectorChars ∧ trim input = ['*'] := by
  simp only [parseSelector, Check.throw_bind, Check.ite_throw_eq_ok, not_lt]
  refine and_congr_right fun _ => ?_
  split
  · next hnil => exact iff_of_false (fun h => by cases h) (by simp [hnil])
  · split
    · next hstar => exact iff_of_true rfl hstar
    · next hne =>
      refine iff_of_false (fun h => ?_) hne
      simp only [Check.bind_eq_ok, Check.pure_eq_ok] at h
      obtain ⟨_, -, _, -, hfilter⟩ := h
      cases hfilter

/-- A list is neither blank nor `*`. -/
theorem Lists.trim_ne (h : Lists input reqs) :
    Text.trim input ≠ [] ∧ Text.trim input ≠ ['*'] := by
  have htrim : Lists (Text.trim input) reqs := h.trim trims_isWhiteSpace
  refine ⟨htrim.ne_nil, fun heq => ?_⟩
  obtain ⟨c, hc, htag⟩ := htrim.tagChar
  rw [heq, List.mem_singleton] at hc
  rw [hc] at htag
  exact absurd htag (by decide)

/-- What is not blank may be trimmed first. -/
theorem parseSelector_trim {parsed : SelectorParse} (h : parseSelector input = .ok parsed)
    (hne : parsed ≠ .empty) : parseSelector (Text.trim input) = .ok parsed := by
  have hle : (Text.trim input).length ≤ input.length := length_trimmed_le isWhiteSpace input
  cases parsed with
  | empty => exact absurd rfl hne
  | all =>
    obtain ⟨hlength, htrim⟩ := parseSelector_all_iff.mp h
    rw [htrim]
    decide
  | filter selector =>
    obtain ⟨hlength, reqs, hlists, hlimits⟩ := parseSelector_filter_iff.mp h
    exact parseSelector_filter_iff.mpr
      ⟨hle.trans hlength, reqs, hlists.trim trims_isWhiteSpace, hlimits⟩

end

section
variable {reqs reqs' : List Requirement} {req : Requirement} {key : String} {seen : List String}

theorem EqualitiesAgree.tail (h : EqualitiesAgree (req :: reqs)) : EqualitiesAgree reqs :=
  fun key value value' hvalue hvalue' => h key value value' (.tail _ hvalue) (.tail _ hvalue')

theorem withoutRepeats_sublist (seen : List String) (reqs : List Requirement) :
    (withoutRepeats seen reqs).Sublist reqs := by
  induction reqs generalizing seen with
  | nil => exact .slnil
  | cons req reqs ih =>
    cases req with
    | eq key value =>
      rw [withoutRepeats]
      split
      · exact (ih seen).cons _
      · exact (ih _).cons_cons _
    | _ => exact (ih seen).cons_cons _

/-- What is left asks for no key twice. -/
theorem nodup_withoutRepeats (seen : List String) (reqs : List Requirement) :
    ((withoutRepeats seen reqs).filterMap (·.eqKey?)).Nodup ∧
      ∀ key ∈ (withoutRepeats seen reqs).filterMap (·.eqKey?), key ∉ seen := by
  induction reqs generalizing seen with
  | nil => exact ⟨.nil, fun _ hkey => by cases hkey⟩
  | cons req reqs ih =>
    cases req with
    | eq key value =>
      rw [withoutRepeats]
      split
      · exact ih seen
      · next hkey =>
        obtain ⟨hnodup, hseen⟩ := ih (key :: seen)
        refine ⟨List.nodup_cons.mpr ⟨fun hmem => hseen key hmem List.mem_cons_self, hnodup⟩, ?_⟩
        exact List.forall_mem_cons.mpr
          ⟨hkey, fun other hother hin => hseen other hother (.tail _ hin)⟩
    | _ => exact ih seen

theorem withoutRepeats_of_nodup (hnodup : (reqs.filterMap (·.eqKey?)).Nodup)
    (hseen : ∀ key ∈ reqs.filterMap (·.eqKey?), key ∉ seen) : withoutRepeats seen reqs = reqs := by
  induction reqs generalizing seen with
  | nil => rfl
  | cons req reqs ih =>
    cases req with
    | eq key value =>
      obtain ⟨hnot, hnodup⟩ := List.nodup_cons.mp hnodup
      obtain ⟨hkey, hseen⟩ := List.forall_mem_cons.mp hseen
      rw [withoutRepeats, if_neg hkey, ih hnodup]
      intro other hother hin
      rcases List.mem_cons.mp hin with rfl | hin
      · exact hnot hother
      · exact hseen other hother hin
    | _ => exact congrArg (_ :: ·) (ih hnodup hseen)

/-- One of the equalities of a key is left, and all of the rest. -/
theorem count_withoutRepeats (h : EqualitiesAgree reqs) :
    (withoutRepeats seen reqs).count req =
      match req.eqKey? with
      | none => reqs.count req
      | some key => if key ∉ seen ∧ req ∈ reqs then 1 else 0 := by
  induction reqs generalizing seen with
  | nil => cases req <;> simp [withoutRepeats, Requirement.eqKey?]
  | cons head reqs ih =>
    have hplain : head.eqKey? = none → (head :: withoutRepeats seen reqs).count req =
        match req.eqKey? with
        | none => (head :: reqs).count req
        | some key => if key ∉ seen ∧ req ∈ head :: reqs then 1 else 0 := by
      intro hnone
      rw [List.count_cons, ih h.tail]
      cases hkey : req.eqKey? with
      | none => exact (List.count_cons ..).symm
      | some key =>
        have hne : req ≠ head := fun heq => by rw [heq, hnone] at hkey; cases hkey
        simp [hne, hne.symm]
    cases head with
    | eq key value =>
      rw [withoutRepeats]
      split
      · next hkey =>
        rw [ih h.tail]
        cases hreq : req.eqKey? with
        | none =>
          have hne : Requirement.eq key value ≠ req := fun heq => by rw [← heq] at hreq; cases hreq
          simp [hne]
        | some other =>
          refine if_congr (and_congr_right fun hother => ?_) rfl rfl
          refine (List.mem_cons.trans (or_iff_right ?_)).symm
          rintro rfl
          cases hreq
          exact hother hkey
      · next hkey =>
        rw [List.count_cons, ih h.tail]
        cases hreq : req.eqKey? with
        | none =>
          have hne : Requirement.eq key value ≠ req := fun heq => by rw [← heq] at hreq; cases hreq
          simp [hne]
        | some other =>
          by_cases hsame : req = .eq key value
          · subst hsame
            cases hreq
            simp [hkey]
          · have hne : req ∈ reqs → other ≠ key := by
              -- Another equality of the key would ask for another value.
              rintro hmem rfl
              cases req with
              | eq third value' =>
                cases hreq
                exact hsame (by rw [h other value' value (.tail _ hmem) List.mem_cons_self])
              | _ => cases hreq
            have hcond : (other ∉ key :: seen ∧ req ∈ reqs) ↔
                (other ∉ seen ∧ req ∈ Requirement.eq key value :: reqs) := by
              rw [List.mem_cons, not_or, List.mem_cons, or_iff_right hsame]
              exact ⟨fun hboth => ⟨hboth.1.2, hboth.2⟩, fun hboth => ⟨⟨hne hboth.2, hboth.1⟩, hboth.2⟩⟩
            have hdiff : (Requirement.eq key value == req) = false :=
              beq_eq_false_iff_ne.mpr (Ne.symm hsame)
            rw [hdiff, if_neg Bool.false_ne_true, Nat.add_zero]
            exact if_congr hcond rfl rfl
    | _ => exact hplain rfl

/-- Only repetitions are left out. -/
theorem mem_withoutRepeats (h : EqualitiesAgree reqs) :
    req ∈ withoutRepeats [] reqs ↔ req ∈ reqs := by
  rw [← List.count_pos_iff, count_withoutRepeats h]
  cases req.eqKey? with
  | none => exact List.count_pos_iff
  | some key => by_cases hmem : req ∈ reqs <;> simp [hmem]

end

/-! ## Order -/

/-- The requirements of a selector in the order of its canonical text. -/
def inOrder (reqs : List Requirement) : List Requirement :=
  (reqs.map (·.sorted)).mergeSort Requirement.sortLe

/-- What they are ordered by. -/
def Requirement.place (req : Requirement) : String ×ₗ ℕ ×ₗ String :=
  toLex (req.sortKey.1, toLex req.sortKey.2)

section
variable {values values' : List String} {reqs reqs' : List Requirement} {req a b : Requirement}
  {text : List Char}

theorem canonicalOf_eq (reqs : List Requirement) :
    canonicalOf reqs = ",".intercalate ((inOrder reqs).map (·.canonical)) := rfl

theorem sortLe_iff : Requirement.sortLe a b = true ↔ a.place ≤ b.place := by
  simp [Requirement.sortLe, Requirement.place, Prod.Lex.toLex_le_toLex]

theorem inOrder_perm (reqs : List Requirement) : (inOrder reqs).Perm (reqs.map (·.sorted)) :=
  List.mergeSort_perm _ _

theorem pairwise_inOrder (reqs : List Requirement) :
    (inOrder reqs).Pairwise fun a b => Requirement.sortLe a b := by
  refine List.pairwise_mergeSort (fun a b c hab hbc => ?_) (fun a b => ?_) _
  · exact sortLe_iff.mpr ((sortLe_iff.mp hab).trans (sortLe_iff.mp hbc))
  · rw [Bool.or_eq_true, sortLe_iff, sortLe_iff]
    exact le_total _ _

/-- The same texts are written in the same way. -/
theorem sortedUnique_congr (h : ∀ value, value ∈ values ↔ value ∈ values') :
    sortedUnique values = sortedUnique values' := by
  have hunit : ∀ {a b : Option Unit}, a.isSome = b.isSome → a = b := by
    rintro (_ | ⟨⟩) (_ | ⟨⟩) h
    · rfl
    · cases h
    · cases h
    · rfl
  have hmap : SortedMap.ofList (values.map fun value => (value, ())) =
      SortedMap.ofList (values'.map fun value => (value, ())) := by
    refine SortedMap.ext_lookup fun key => ?_
    have hmem : key ∈ sortedUnique values ↔ key ∈ sortedUnique values' := by
      rw [mem_sortedUnique, h key, mem_sortedUnique]
    rw [sortedUnique, sortedUnique, SortedMap.mem_keys, SortedMap.mem_keys] at hmem
    exact hunit (Bool.eq_iff_iff.mpr hmem)
  rw [sortedUnique, hmap, sortedUnique]

theorem sortedUnique_sortedUnique (values : List String) :
    sortedUnique (sortedUnique values) = sortedUnique values :=
  sortedUnique_congr fun _ => mem_sortedUnique

theorem length_sortedUnique_le (values : List String) :
    (sortedUnique values).length ≤ values.length :=
  (List.subperm_of_subset (nodup_sortedUnique values) fun _ => mem_sortedUnique.mp).length_le

namespace Requirement

theorem sorted_sorted (req : Requirement) : req.sorted.sorted = req.sorted := by
  cases req with
  | isIn key values => exact congrArg (Requirement.isIn key) (sortedUnique_sortedUnique values)
  | notIn key values => exact congrArg (Requirement.notIn key) (sortedUnique_sortedUnique values)
  | _ => rfl

theorem eqKey_sorted (req : Requirement) : req.sorted.eqKey? = req.eqKey? := by
  cases req <;> rfl

/-- Writing the values in order changes no meaning. -/
theorem holds_sorted (req : Requirement) (tags : SortedMap String String) :
    req.sorted.holds tags = req.holds tags := by
  have hcontains : ∀ values value, (sortedUnique values).contains value = values.contains value :=
    fun values value => by
      rw [Bool.eq_iff_iff, List.contains_iff_mem, List.contains_iff_mem, mem_sortedUnique]
  cases req with
  | isIn key values => simp only [sorted, holds, hcontains]
  | notIn key values => simp only [sorted, holds, hcontains]
  | _ => rfl

theorem Formed.sorted (h : req.Formed) : req.sorted.Formed := by
  have hset : ∀ {values : List String}, (values ≠ [] ∧ ∀ value ∈ values, valueOk value = true) →
      sortedUnique values ≠ [] ∧ ∀ value ∈ sortedUnique values, valueOk value = true := by
    rintro values ⟨hne, hvalues⟩
    obtain ⟨value, rest, rfl⟩ := List.exists_cons_of_ne_nil hne
    refine ⟨List.ne_nil_of_mem (mem_sortedUnique.mpr List.mem_cons_self), ?_⟩
    exact fun value hvalue => hvalues value (mem_sortedUnique.mp hvalue)
  cases req with
  | isIn key values => exact ⟨h.1, hset h.2⟩
  | notIn key values => exact ⟨h.1, hset h.2⟩
  | _ => exact h

theorem Fits.sorted (h : req.Fits) : req.sorted.Fits := by
  cases req with
  | isIn key values => exact (length_sortedUnique_le values).trans h
  | notIn key values => exact (length_sortedUnique_le values).trans h
  | _ => exact h

end Requirement

/-- A text denotes one set. -/
theorem DenotesSet.unique (h : DenotesSet text values) (h' : DenotesSet text values') :
    values = values' := by
  have hread : ∀ {values : List String} {room : Nat}, DenotesSet text values →
      values.length ≤ room →
      ∃ p', (Parser.mk 0 (text ++ [')'])).values room = .ok (values, p') := by
    intro values room hset hroom
    obtain ⟨_, p', hparse, rfl, -⟩ :=
      (Parser.gives_values hset
        (show (Parser.mk 0 (text ++ [')'])).rest = text ++ [')'] from rfl)).1 hroom
    exact ⟨p', hparse⟩
  obtain ⟨p, hp⟩ := hread h (Nat.le_add_right values.length values'.length)
  obtain ⟨p', hp'⟩ := hread h' (Nat.le_add_left values'.length values.length)
  rw [hp] at hp'
  cases hp'
  rfl

/-- Formed requirements at one place are the same. -/
theorem place_inj (ha : a.Formed) (hb : b.Formed) (h : a.place = b.place) : a = b := by
  have hset : ∀ {values values' : List String},
      (values ≠ [] ∧ ∀ value ∈ values, valueOk value = true) →
      (values' ≠ [] ∧ ∀ value ∈ values', valueOk value = true) →
      ",".intercalate values = ",".intercalate values' → values = values' := by
    intro values values' hvalues hvalues' htext
    refine (denotes_intercalate hvalues.1 hvalues.2).unique ?_
    rw [htext]
    exact denotes_intercalate hvalues'.1 hvalues'.2
  obtain ⟨hkey, hrank, htext⟩ : a.sortKey.1 = b.sortKey.1 ∧ a.sortKey.2.1 = b.sortKey.2.1 ∧
      a.sortKey.2.2 = b.sortKey.2.2 := by
    simpa [Requirement.place, Prod.ext_iff] using h
  cases a <;> cases b <;> cases hrank <;> cases hkey
  case eq.eq | notEq.notEq => cases htext; rfl
  case isIn.isIn | notIn.notIn => rw [hset ha.2 hb.2 htext]
  all_goals rfl

/-- The order is determined by the requirements. -/
theorem inOrder_congr (h : ∀ req ∈ reqs, req.Formed) (hperm : (reqs.map (·.sorted)).Perm (reqs'.map (·.sorted))) :
    inOrder reqs = inOrder reqs' := by
  have hsame := (inOrder_perm reqs).trans (hperm.trans (inOrder_perm reqs').symm)
  have hformed : ∀ req ∈ inOrder reqs, req.Formed := by
    intro req hreq
    obtain ⟨req, hmem, rfl⟩ := List.mem_map.mp ((inOrder_perm reqs).mem_iff.mp hreq)
    exact (h req hmem).sorted
  refine hsame.eq_of_pairwise (fun a b ha hb hab hba => ?_) (pairwise_inOrder _) (pairwise_inOrder _)
  exact place_inj (hformed a ha) (hformed b (hsame.mem_iff.mpr hb))
    ((sortLe_iff.mp hab).antisymm (sortLe_iff.mp hba))

end

/-! ## Canonical text -/

/-- What a selector requires once it is read. -/
structure Proper (reqs : List Requirement) : Prop where
  ne : reqs ≠ []
  formed : ∀ req ∈ reqs, req.Formed
  fits : ∀ req ∈ reqs, req.Fits
  count : reqs.length ≤ maxRequirements
  once : (reqs.filterMap (·.eqKey?)).Nodup

/-- The characters that a requirement takes in canonical text, with the one that separates it. -/
def Requirement.room : Requirement → Nat
  | .eq key value => key.length + value.length + 2
  | .notEq key value => key.length + value.length + 3
  | .isIn key values => key.length + 6 + ((sortedUnique values).map (·.length + 1)).sum
  | .notIn key values => key.length + 9 + ((sortedUnique values).map (·.length + 1)).sum
  | .keyExists key => key.length + 1
  | .notExists key => key.length + 2

section
variable {input : List Char} {reqs : List Requirement} {req : Requirement}

theorem proper_of_lists (h : Lists input reqs) (hcount : reqs.length ≤ maxRequirements)
    (hfits : ∀ req ∈ reqs, req.Fits) (hagree : EqualitiesAgree reqs) :
    Proper (withoutRepeats [] reqs) := by
  have hsub := withoutRepeats_sublist [] reqs
  constructor
  · cases h with
    | @last req _ | @more _ _ req _ _ =>
      exact List.ne_nil_of_mem ((mem_withoutRepeats hagree).mpr List.mem_cons_self)
  · exact fun req hreq => h.formed req (hsub.subset hreq)
  · exact fun req hreq => hfits req (hsub.subset hreq)
  · exact hsub.length_le.trans hcount
  · exact (nodup_withoutRepeats [] reqs).1

theorem mem_inOrder : req ∈ inOrder reqs ↔ ∃ req' ∈ reqs, req'.sorted = req :=
  (inOrder_perm reqs).mem_iff.trans List.mem_map

theorem inOrder_inOrder (reqs : List Requirement) : inOrder (inOrder reqs) = inOrder reqs := by
  have hsorted : (inOrder reqs).map (·.sorted) = inOrder reqs := by
    conv_rhs => rw [← List.map_id (inOrder reqs)]
    refine List.map_congr_left fun req hreq => ?_
    obtain ⟨req, -, rfl⟩ := mem_inOrder.mp hreq
    exact req.sorted_sorted
  rw [inOrder, hsorted, List.mergeSort_of_pairwise (pairwise_inOrder reqs)]

theorem Proper.inOrder (h : Proper reqs) : Proper (inOrder reqs) := by
  have hperm := inOrder_perm reqs
  constructor
  · intro hnil
    rw [hnil] at hperm
    exact h.ne (List.map_eq_nil_iff.mp hperm.nil_eq.symm)
  · intro req hreq
    obtain ⟨req, hmem, rfl⟩ := mem_inOrder.mp hreq
    exact (h.formed req hmem).sorted
  · intro req hreq
    obtain ⟨req, hmem, rfl⟩ := mem_inOrder.mp hreq
    exact (h.fits req hmem).sorted
  · rw [hperm.length_eq, List.length_map]
    exact h.count
  · refine (hperm.filterMap _).nodup_iff.mpr ?_
    rw [List.filterMap_map]
    simpa only [Function.comp_def, Requirement.eqKey_sorted] using h.once

/-- Whoever asks for a key once asks for one value of it. -/
theorem Proper.agree (h : Proper reqs) : EqualitiesAgree reqs := by
  intro key value value' hvalue hvalue'
  by_contra hne
  have hsymm : Std.Symm fun a b : Requirement =>
      ∀ key, a.eqKey? = some key → ∀ key', b.eqKey? = some key' → key ≠ key' :=
    ⟨fun a b hab key hkey key' hkey' => (hab key' hkey' key hkey).symm⟩
  have hpair := List.pairwise_filterMap.mp h.once
  have hdiff : Requirement.eq key value ≠ .eq key value' :=
    fun heq => hne (Requirement.eq.inj heq).2
  exact hpair.forall hvalue hvalue' hdiff key rfl key rfl rfl

/-- Canonical text lists the requirements in order. -/
theorem Proper.lists (h : Proper reqs) : Lists (canonicalOf reqs).toList (Tags.inOrder reqs) :=
  lists_canonical h.inOrder.ne h.inOrder.formed

/-- What becomes of canonical text. -/
theorem Proper.parse (h : Proper reqs) (hlength : (canonicalOf reqs).length ≤ maxSelectorChars) :
    parseSelector (canonicalOf reqs).toList =
      .ok (.filter ⟨Tags.inOrder reqs, canonicalOf reqs⟩) := by
  have hself : withoutRepeats [] (Tags.inOrder reqs) = Tags.inOrder reqs :=
    withoutRepeats_of_nodup h.inOrder.once fun _ _ hmem => by cases hmem
  refine parseSelector_filter_iff.mpr ⟨hlength, _, h.lists, h.inOrder.count, h.inOrder.fits,
    h.inOrder.agree, ?_⟩
  rw [selectorOf, hself, canonicalOf_eq (Tags.inOrder reqs), inOrder_inOrder, ← canonicalOf_eq]

theorem all_inOrder (tags : SortedMap String String) :
    ((inOrder reqs).all fun req => req.holds tags) = reqs.all fun req => req.holds tags := by
  rw [Bool.eq_iff_iff, List.all_eq_true, List.all_eq_true]
  constructor
  · intro hall req hreq
    rw [← req.holds_sorted]
    exact hall _ (mem_inOrder.mpr ⟨req, hreq, rfl⟩)
  · intro hall req hreq
    obtain ⟨req, hmem, rfl⟩ := mem_inOrder.mp hreq
    rw [req.holds_sorted]
    exact hall req hmem

theorem Requirement.Formed.room_eq (h : req.Formed) :
    req.room = req.sorted.canonical.length + 1 := by
  have hset : ∀ {values : List String}, (values ≠ [] ∧ ∀ value ∈ values, valueOk value = true) →
      (",".intercalate (sortedUnique values)).length + 1 =
        ((sortedUnique values).map (·.length + 1)).sum := by
    rintro values ⟨hne, -⟩
    obtain ⟨value, rest, rfl⟩ := List.exists_cons_of_ne_nil hne
    exact length_intercalate (List.ne_nil_of_mem (mem_sortedUnique.mpr List.mem_cons_self))
  have hwords : "=".length = 1 ∧ "!=".length = 2 ∧ " in (".length = 5 ∧ " notin (".length = 8 ∧
      ")".length = 1 ∧ "!".length = 1 := ⟨rfl, rfl, rfl, rfl, rfl, rfl⟩
  obtain ⟨heq, hneq, hin, hnotin, hclose, hbang⟩ := hwords
  cases req with
  | isIn key values =>
    have hvalues := hset h.2
    simp only [Requirement.room, Requirement.sorted, Requirement.canonical, String.length_append]
    omega
  | notIn key values =>
    have hvalues := hset h.2
    simp only [Requirement.room, Requirement.sorted, Requirement.canonical, String.length_append]
    omega
  | eq key value | notEq key value | notExists key =>
    simp only [Requirement.room, Requirement.sorted, Requirement.canonical, String.length_append]
    omega
  | keyExists key => rfl

/-- The length of canonical text. -/
theorem Proper.length (h : Proper reqs) :
    (canonicalOf reqs).length + 1 = (reqs.map (·.room)).sum := by
  have hne : (Tags.inOrder reqs).map (·.canonical) ≠ [] :=
    fun hnil => h.inOrder.ne (List.map_eq_nil_iff.mp hnil)
  rw [canonicalOf_eq, length_intercalate hne, List.map_map, ((inOrder_perm reqs).map _).sum_eq,
    List.map_map]
  congr 1
  exact List.map_congr_left fun req hreq => (h.formed req hreq).room_eq.symm

end

/-! ## Spaced text -/

/-- The words of sets are followed by white space. -/
def Spaced (text : List Char) : Prop := ¬ ['n', '('] <:+: text

section
variable {text rest : List Char} {values : List String} {reqs : List Requirement}
  {req : Requirement}

theorem sum_sortedUnique_le (values : List String) :
    ((sortedUnique values).map (·.length + 1)).sum ≤ (values.map (·.length + 1)).sum :=
  Sums.sum_le_of_subset (nodup_sortedUnique values) (fun _ => mem_sortedUnique.mp) _

/-- Then canonical text is no longer. -/
theorem Denotes.room_le (h : Denotes text req) (hspaced : Spaced text) :
    req.room ≤ text.length + 1 := by
  have hset : ∀ {a word b set : List Char} {key : String} {values : List String}, a ≠ [] →
      DenotesSet set values →
      Spaced (key.toList ++ (a ++ (word ++ 'n' :: (b ++ '(' :: (set ++ [')']))))) →
      key.length + word.length + 5 + ((sortedUnique values).map (·.length + 1)).sum ≤
        (key.toList ++ (a ++ (word ++ 'n' :: (b ++ '(' :: (set ++ [')']))))).length + 1 := by
    intro a word b set key values hne hdenotes hspaced
    have ha := List.length_pos_iff.mpr hne
    have hb : 0 < b.length := by
      refine List.length_pos_iff.mpr fun hnil => hspaced ?_
      refine ⟨key.toList ++ (a ++ word), set ++ [')'], ?_⟩
      simp [hnil]
    have hsum := (sum_sortedUnique_le values).trans hdenotes.sum_length
    simp only [List.length_append, List.length_cons, List.length_nil, String.length_toList]
    omega
  cases h with
  | @isIn a b set key values hkey hne ha hb hdenotes =>
    have hle := @hset _ ['i'] _ _ _ _ hne hdenotes hspaced
    rw [Requirement.room]
    exact hle
  | @notIn a b set key values hkey hne ha hb hdenotes =>
    have hle := @hset _ ['n', 'o', 't', 'i'] _ _ _ _ hne hdenotes hspaced
    rw [Requirement.room]
    exact hle
  | _ =>
    simp only [Requirement.room, List.length_append, List.length_cons, String.length_toList]
    omega

theorem Lists.sum_room_le (h : Lists text reqs) (hspaced : Spaced text) :
    (reqs.map (·.room)).sum ≤ text.length + 1 := by
  have hsegment : ∀ {cs : List Char} {req : Requirement}, Segment cs req → Spaced cs →
      req.room ≤ cs.length + 1 := by
    rintro _ req (@⟨a, text, b, _, ha, htext, hb⟩) hspaced
    have hle := htext.room_le fun hin => hspaced (hin.trans ⟨a, b, by simp⟩)
    simp only [List.length_append]
    omega
  induction h with
  | last h =>
    simpa using hsegment h hspaced
  | @more cs _ _ _ h _ ih =>
    have hfirst := hsegment h fun hin => hspaced (hin.trans (List.prefix_append _ _).isInfix)
    have hrest := ih fun hin => hspaced (hin.trans ⟨cs ++ [','], [], by simp⟩)
    simp only [List.map_cons, List.sum_cons, List.length_append, List.length_cons]
    omega

end

/-! ## Normal form -/

/-- Requirements that differ in their order, the order and the repetition of values, and how
often an equality is asked for. -/
inductive Alike : List Requirement → List Requirement → Prop where
  | perm {reqs reqs' : List Requirement} : reqs.Perm reqs' → Alike reqs reqs'
  | isIn {key : String} {values values' : List String} {reqs : List Requirement} :
    (∀ value, value ∈ values ↔ value ∈ values') →
    Alike (.isIn key values :: reqs) (.isIn key values' :: reqs)
  | notIn {key : String} {values values' : List String} {reqs : List Requirement} :
    (∀ value, value ∈ values ↔ value ∈ values') →
    Alike (.notIn key values :: reqs) (.notIn key values' :: reqs)
  | again {key value : String} {reqs : List Requirement} :
    Alike (.eq key value :: .eq key value :: reqs) (.eq key value :: reqs)
  | symm {reqs reqs' : List Requirement} : Alike reqs reqs' → Alike reqs' reqs
  | trans {reqs reqs' reqs'' : List Requirement} :
    Alike reqs reqs' → Alike reqs' reqs'' → Alike reqs reqs''

section
variable {input input' : List Char} {reqs reqs' : List Requirement} {selector selector' : Selector}

theorem Alike.eq_mem (h : Alike reqs reqs') {key value : String} :
    .eq key value ∈ reqs ↔ .eq key value ∈ reqs' := by
  induction h with
  | perm hperm => exact hperm.mem_iff
  | isIn _ => simp
  | notIn _ => simp
  | again => simp
  | symm _ ih => exact ih.symm
  | trans _ _ ih ih' => exact ih.trans ih'

theorem Alike.agree (h : Alike reqs reqs') : EqualitiesAgree reqs ↔ EqualitiesAgree reqs' := by
  simp only [EqualitiesAgree, h.eq_mem]

/-- Written in order they are the same. -/
theorem Alike.sorted_perm (h : Alike reqs reqs') (hagree : EqualitiesAgree reqs) :
    ((withoutRepeats [] reqs).map (·.sorted)).Perm ((withoutRepeats [] reqs').map (·.sorted)) := by
  induction h with
  | @perm reqs reqs' hperm =>
    refine List.Perm.map _ (List.perm_iff_count.mpr fun req => ?_)
    rw [count_withoutRepeats hagree, count_withoutRepeats ((Alike.perm hperm).agree.mp hagree)]
    simp only [hperm.count_eq, hperm.mem_iff]
  | isIn hvalues => simp [withoutRepeats, Requirement.sorted, sortedUnique_congr hvalues]
  | notIn hvalues => simp [withoutRepeats, Requirement.sorted, sortedUnique_congr hvalues]
  | again => simp [withoutRepeats]
  | symm h ih => exact (ih (h.agree.mpr hagree)).symm
  | trans h _ ih ih' => exact (ih hagree).trans (ih' (h.agree.mp hagree))

theorem proper_of_parse (h : parseSelector input = .ok (.filter selector)) :
    Proper selector.requirements ∧ selector.canonical = canonicalOf selector.requirements := by
  obtain ⟨-, reqs, hlists, hcount, hfits, hagree, rfl⟩ := parseSelector_filter_iff.mp h
  exact ⟨proper_of_lists hlists hcount hfits hagree, rfl⟩

/-- Alike selectors have one canonical text, and a canonical text has one meaning. -/
theorem canonical_normal (h : parseSelector input = .ok (.filter selector))
    (h' : parseSelector input' = .ok (.filter selector')) :
    ((∃ reqs reqs', Lists input reqs ∧ Lists input' reqs' ∧ Alike reqs reqs') →
      selector.canonical = selector'.canonical) ∧
    (selector.canonical = selector'.canonical →
      ∀ tags, selectorMatches selector tags = selectorMatches selector' tags) := by
  constructor
  · rintro ⟨reqs, reqs', hlists, hlists', halike⟩
    obtain ⟨-, read, hread, hcount, hfits, hagree, rfl⟩ := parseSelector_filter_iff.mp h
    obtain ⟨-, read', hread', hcount', hfits', -, rfl⟩ := parseSelector_filter_iff.mp h'
    cases hread.unique hcount hfits hlists
    cases hread'.unique hcount' hfits' hlists'
    have hproper := proper_of_lists hlists hcount hfits hagree
    show canonicalOf _ = canonicalOf _
    rw [canonicalOf_eq, canonicalOf_eq,
      inOrder_congr hproper.formed (halike.sorted_perm hagree)]
  · intro hsame tags
    obtain ⟨hproper, hcanonical⟩ := proper_of_parse h
    obtain ⟨hproper', hcanonical'⟩ := proper_of_parse h'
    have hlists := hproper'.lists
    rw [← hcanonical', ← hsame, hcanonical] at hlists
    have horder : inOrder selector'.requirements = inOrder selector.requirements :=
      hproper.lists.unique hproper.inOrder.count hproper.inOrder.fits hlists
    rw [selectorMatches, selectorMatches, ← all_inOrder, ← horder, all_inOrder]

theorem canonical_normal_set :
    selectorMatches ⟨[.isIn "env" ["b", "a", "b"]], "env in (a,b)"⟩
        (SortedMap.empty.insert "env" "b") =
      selectorMatches ⟨[.isIn "env" ["a", "b"]], "env in (a,b)"⟩
        (SortedMap.empty.insert "env" "b") := by
  have hread : parseSelector "env in (b,a,b)".toList =
      .ok (.filter ⟨[.isIn "env" ["b", "a", "b"]], "env in (a,b)"⟩) := by decide +kernel
  have hread' : parseSelector " env in(a, b)".toList =
      .ok (.filter ⟨[.isIn "env" ["a", "b"]], "env in (a,b)"⟩) := by decide +kernel
  exact (canonical_normal hread hread').2 rfl _

end

end Novbot.Tags
