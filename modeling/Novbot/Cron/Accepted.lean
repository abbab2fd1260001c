import Novbot.Cron.Matches
import Novbot.Schedules.Entry

/-!
# Accepted expressions

`validate_timing` of the center counts the fields of an expression and reads none of them.
`accepted_field_iff` says which fields of an accepted expression match a value of their range on
the nodes.
-/

namespace Novbot.Cron

open Text Config

/-! ## Numbers -/

theorem isDigit_of_digits {cs : List Char} {value n : Nat} (h : digits value cs = some n) :
    ∀ c ∈ cs, c.isDigit = true := by
  induction cs generalizing value with
  | nil => exact nofun
  | cons c cs ih =>
    rw [digits] at h
    split at h
    · next hdigit =>
      intro d hd
      cases hd with
      | head => exact hdigit
      | tail _ hd => exact ih h d hd
    · cases h

/-- A number has digits and a plus sign. -/
theorem mem_parsed {cs : List Char} {n : Nat} (h : parseU32 cs = some n) {c : Char} (hc : c ∈ cs) :
    c = '+' ∨ c.isDigit = true := by
  unfold parseU32 at h
  split at h
  · cases h
  · have hdigits := isDigit_of_digits (Option.eq_some_of_filter_eq_some h)
    unfold unsigned at hdigits
    split at hdigits
    · cases hc with
      | head => exact .inl rfl
      | tail _ hc => exact .inr (hdigits c hc)
    · exact .inr (hdigits c hc)

theorem not_mem_parsed {cs : List Char} {n : Nat} (h : parseU32 cs = some n) {c : Char}
    (hplus : c ≠ '+') (hdigit : c.isDigit = false) : c ∉ cs := by
  intro hc
  rcases mem_parsed h hc with hsame | hdigit'
  · exact hplus hsame
  · rw [hdigit] at hdigit'
    cases hdigit'

theorem head_parsed {cs : List Char} {n : Nat} (h : parseU32 cs = some n) (rest : List Char) :
    (cs ++ rest).head? ≠ some '*' := by
  intro hhead
  cases cs with
  | nil => cases h
  | cons c cs =>
    cases hhead
    exact not_mem_parsed h (by decide) rfl List.mem_cons_self

/-! ## Parts -/

/-- A part that matches the value. -/
inductive Matches (value min max : Nat) : List Char → Prop
  | step {cs : List Char} {n : Nat} : parseU32 cs = some n → 0 < n → min ≤ value →
      (value - min) % n = 0 → Matches value min max ('*' :: '/' :: cs)
  | range {a b : List Char} {lo hi : Nat} : parseU32 a = some lo → parseU32 b = some hi →
      lo ≤ value → value ≤ hi → Matches value min max (a ++ '-' :: b)
  | start {a b : List Char} {start n : Nat} : parseU32 a = some start → parseU32 b = some n → 0 < n →
      start ≤ value → (value - start) % n = 0 → value ≤ max → Matches value min max (a ++ '/' :: b)
  | number {cs : List Char} : parseU32 cs = some value → Matches value min max cs

theorem stripPrefix_some {start cs rest : List Char} :
    stripPrefix start cs = some rest ↔ cs = start ++ rest := by
  unfold stripPrefix
  split
  · next hprefix =>
    obtain ⟨rest', rfl⟩ := List.isPrefixOf_iff_prefix.mp hprefix
    rw [List.drop_left, Option.some_inj, List.append_cancel_left_eq]
  · next hprefix =>
    refine ⟨nofun, ?_⟩
    rintro rfl
    exact absurd (List.isPrefixOf_iff_prefix.mpr (List.prefix_append _ _)) hprefix

/-- What a part matches. -/
theorem partMatch_iff {value min max : Nat} {part : List Char} :
    partMatch value min max part = true ↔ Matches value min max (trim part) := by
  unfold partMatch
  dsimp only
  constructor
  · intro h
    split at h
    · cases h
    · split at h
      · next step hstep =>
        rw [stripPrefix_some.mp hstep]
        split at h
        · next n hn =>
          simp only [Bool.and_eq_true, decide_eq_true_eq] at h
          exact .step hn h.1.1 h.1.2 h.2
        · cases h
      · split at h
        · next a b hsplit =>
          obtain ⟨hpart, -⟩ := splitOnce_some.mp hsplit
          rw [hpart]
          split at h
          · next lo hi hlo hhi =>
            simp only [Bool.and_eq_true, decide_eq_true_eq] at h
            exact .range hlo hhi h.1 h.2
          · cases h
        · split at h
          · next a b hsplit =>
            obtain ⟨hpart, -⟩ := splitOnce_some.mp hsplit
            rw [hpart]
            split at h
            · cases h
            · split at h
              · next start n hstart hn =>
                simp only [Bool.and_eq_true, decide_eq_true_eq] at h
                exact .start hstart hn h.1.1.1 h.1.1.2 h.1.2 h.2
              · cases h
          · exact .number (of_decide_eq_true h)
  · intro h
    generalize trim part = text at h
    cases h with
    | @step cs n hn hpos hmin hmod =>
      have hprefix : stripPrefix ['*', '/'] ('*' :: '/' :: cs) = some cs := stripPrefix_some.mpr rfl
      rw [if_neg (List.cons_ne_nil _ _), hprefix]
      simp [hn, hpos, hmin, hmod]
    | @range a b lo hi hlo hhi hle hge =>
      have hprefix : stripPrefix ['*', '/'] (a ++ '-' :: b) = none :=
        stripPrefix_of_head (head_parsed hlo _)
      have hdash : splitOnce '-' (a ++ '-' :: b) = some (a, b) :=
        splitOnce_some.mpr ⟨rfl, not_mem_parsed hlo (by decide) rfl⟩
      rw [if_neg (List.append_ne_nil_of_right_ne_nil _ (List.cons_ne_nil _ _)), hprefix, hdash]
      simp [hlo, hhi, hle, hge]
    | @start a b start n hstart hn hpos hle hmod hmax =>
      have hprefix : stripPrefix ['*', '/'] (a ++ '/' :: b) = none :=
        stripPrefix_of_head (head_parsed hstart _)
      have hdash : splitOnce '-' (a ++ '/' :: b) = none := by
        refine splitOnce_none.mpr fun hmem => ?_
        rcases List.mem_append.mp hmem with hmem | hmem
        · exact not_mem_parsed hstart (by decide) rfl hmem
        · rcases List.mem_cons.mp hmem with hmem | hmem
          · cases hmem
          · exact not_mem_parsed hn (by decide) rfl hmem
      have hslash : splitOnce '/' (a ++ '/' :: b) = some (a, b) :=
        splitOnce_some.mpr ⟨rfl, not_mem_parsed hstart (by decide) rfl⟩
      have hbase : a ≠ ['*'] := by
        rintro rfl
        exact not_mem_parsed hstart (by decide) rfl List.mem_cons_self
      rw [if_neg (List.append_ne_nil_of_right_ne_nil _ (List.cons_ne_nil _ _)), hprefix, hdash,
        hslash]
      simp [hbase, hstart, hn, hpos, hle, hmod, hmax]
    | number hn =>
      have hne : text ≠ [] := by
        rintro rfl
        cases hn
      have hprefix : stripPrefix ['*', '/'] text = none := by
        have hhead := head_parsed hn []
        rw [List.append_nil] at hhead
        exact stripPrefix_of_head hhead
      have hdash : splitOnce '-' text = none :=
        splitOnce_none.mpr (not_mem_parsed hn (by decide) rfl)
      have hslash : splitOnce '/' text = none :=
        splitOnce_none.mpr (not_mem_parsed hn (by decide) rfl)
      rw [if_neg hne, hprefix, hdash, hslash]
      exact decide_eq_true hn

/-- A part that names a value from `least` to `most`: a step, a range that meets them, a start whose
steps do, or one of them. -/
inductive Names (least most : Nat) : List Char → Prop
  | step {cs : List Char} {n : Nat} : parseU32 cs = some n → 0 < n →
      Names least most ('*' :: '/' :: cs)
  | range {a b : List Char} {lo hi : Nat} : parseU32 a = some lo → parseU32 b = some hi →
      lo ≤ hi → lo ≤ most → least ≤ hi → Names least most (a ++ '-' :: b)
  | start {a b : List Char} {start n : Nat} : parseU32 a = some start → parseU32 b = some n → 0 < n →
      start + (least - start + n - 1) / n * n ≤ most → Names least most (a ++ '/' :: b)
  | number {cs : List Char} {n : Nat} : parseU32 cs = some n → least ≤ n → n ≤ most →
      Names least most cs

theorem names_iff {least most : Nat} (h : least ≤ most) {cs : List Char} :
    Names least most cs ↔ ∃ value, least ≤ value ∧ value ≤ most ∧ Matches value least most cs := by
  constructor
  · rintro (@⟨cs, n, hn, hpos⟩ | @⟨a, b, lo, hi, hlo, hhi, hle, hmost, hleast⟩ |
      @⟨a, b, start, n, hstart, hn, hpos, hmost⟩ | ⟨hn, hleast, hmost⟩)
    · exact ⟨least, Nat.le_refl _, h, .step hn hpos (Nat.le_refl _) (by simp)⟩
    · exact ⟨max lo least, Nat.le_max_right _ _, Nat.max_le.mpr ⟨hmost, h⟩,
        .range hlo hhi (Nat.le_max_left _ _) (Nat.max_le.mpr ⟨hle, hleast⟩)⟩
    · refine ⟨_, ?_, hmost, .start hstart hn hpos (Nat.le_add_right _ _) ?_ hmost⟩
      · have hdiv := Nat.div_add_mod (least - start + n - 1) n
        have hmod := Nat.mod_lt (least - start + n - 1) hpos
        rw [Nat.mul_comm] at hdiv
        omega
      · rw [Nat.add_sub_cancel_left, Nat.mul_mod_left]
    · exact ⟨_, hleast, hmost, .number hn⟩
  · rintro ⟨value, hleast, hmost, hmatch⟩
    cases hmatch with
    | step hn hpos hmin hmod => exact .step hn hpos
    | range hlo hhi hle hge =>
      exact .range hlo hhi (Nat.le_trans hle hge) (Nat.le_trans hle hmost) (Nat.le_trans hleast hge)
    | @start a b start n hstart hn hpos hle hmod hmax =>
      refine .start hstart hn hpos ?_
      obtain ⟨k, hk⟩ := Nat.dvd_of_mod_eq_zero hmod
      have hsteps : (least - start + n - 1) / n ≤ k := by
        refine Nat.le_of_lt_succ ((Nat.div_lt_iff_lt_mul hpos).mpr ?_)
        rw [Nat.succ_mul, Nat.mul_comm k n]
        omega
      have hscaled := Nat.mul_le_mul_right n hsteps
      rw [Nat.mul_comm k n] at hscaled
      omega
    | number hn => exact .number hn hleast hmost

/-! ## Fields -/

theorem least_le_most (place : Place) : place.least ≤ place.most := by cases place <;> decide

/-- The fields that have a value of their range which they match. -/
theorem field_alive_iff {least most : Nat} (h : least ≤ most) {field : List Char} :
    (∃ value, least ≤ value ∧ value ≤ most ∧ fieldMatch field value least most = true) ↔
      field = ['*'] ∨ ∃ part ∈ split ',' field, Names least most (trim part) := by
  constructor
  · rintro ⟨value, hleast, hmost, hmatch⟩
    unfold fieldMatch at hmatch
    split at hmatch
    · next hstar => exact .inl hstar
    · obtain ⟨part, hpart, hmatch⟩ := List.any_eq_true.mp hmatch
      exact .inr ⟨part, hpart, (names_iff h).mpr ⟨value, hleast, hmost, partMatch_iff.mp hmatch⟩⟩
  · rintro (rfl | ⟨part, hpart, hnames⟩)
    · exact ⟨least, Nat.le_refl _, h, if_pos rfl⟩
    · obtain ⟨value, hleast, hmost, hmatch⟩ := (names_iff h).mp hnames
      refine ⟨value, hleast, hmost, ?_⟩
      unfold fieldMatch
      split
      · rfl
      · exact List.any_eq_true.mpr ⟨part, hpart, partMatch_iff.mpr hmatch⟩

theorem length_words (expr : String) : (words expr.toList).length = Schedules.fieldCount expr := rfl

/-- An accepted expression has five fields.  One of them has a value of its range which the nodes
match if and only if it is a star or one of its parts names such a value. -/
theorem accepted_field_iff {intervalSecs : Option Nat} {cron : Option String}
    {timing : Schedules.Timing} {expr : String}
    (h : Schedules.validateTiming intervalSecs cron = .ok timing) (hcron : timing.cron = some expr) :
    ∃ fields : Place → List Char,
      words expr.toList = [fields .minute, fields .hour, fields .day, fields .month, fields .weekday] ∧
      ∀ place, (∃ value, place.least ≤ value ∧ value ≤ place.most ∧
        fieldMatch (fields place) value place.least place.most = true) ↔
          fields place = ['*'] ∨
            ∃ part ∈ split ',' (fields place), Names place.least place.most (trim part) := by
  have hcount : Schedules.fieldCount expr = 5 := by
    unfold Schedules.validateTiming at h
    dsimp only at h
    split_ifs at h with hnone hzero hfields
    cases h
    dsimp only at hcron
    rw [hcron, Option.any_some, decide_eq_true_eq, not_not] at hfields
    exact hfields
  rw [← length_words] at hcount
  obtain ⟨minute, rest, hwords, hrest⟩ := List.length_eq_succ_iff.mp hcount
  obtain ⟨hour, day, month, weekday, rfl⟩ := List.length_eq_four.mp hrest
  exact ⟨fun place => Place.casesOn place minute hour day month weekday, hwords.symm,
    fun place => field_alive_iff (least_le_most place)⟩

theorem accepted_field_iff_alias : ∃ fields : Place → List Char,
    words "jan/2,7 * * * *".toList =
      [fields .minute, fields .hour, fields .day, fields .month, fields .weekday] ∧
    ∀ place, (∃ value, place.least ≤ value ∧ value ≤ place.most ∧
      fieldMatch (fields place) value place.least place.most = true) ↔
        fields place = ['*'] ∨
          ∃ part ∈ split ',' (fields place), Names place.least place.most (trim part) := by
  have haccepted : Schedules.validateTiming none (some "jan/2,7 * * * *") =
      .ok ⟨none, some "jan/2,7 * * * *"⟩ := by decide +kernel
  exact accepted_field_iff haccepted rfl

/-- A text of five words is accepted, and is dead on every node. -/
theorem accepted_dead : Schedules.validateTiming none (some "foo * * * *") =
      .ok ⟨none, some "foo * * * *"⟩ ∧
    (∀ value, fieldMatch ['f', 'o', 'o'] value 0 59 = false) ∧
    ∀ unixSecs, cronMatches "foo * * * *" unixSecs = false := by
  have hfield : ∀ value, fieldMatch ['f', 'o', 'o'] value 0 59 = false := by
    intro value
    have hparse : parseU32 ['f', 'o', 'o'] = none := by decide +kernel
    have htrim : trim ['f', 'o', 'o'] = ['f', 'o', 'o'] := by decide +kernel
    simp [fieldMatch, split, partMatch, htrim, stripPrefix, splitOnce, hparse]
  have hwords : words "foo * * * *".toList = [['f', 'o', 'o'], ['*'], ['*'], ['*'], ['*']] := by
    decide +kernel
  refine ⟨by decide +kernel, hfield, fun unixSecs => ?_⟩
  rw [cronMatches, hwords, utcParts_unchecked]
  dsimp only
  rw [Option.any_some, hfield]
  rfl

end Novbot.Cron
