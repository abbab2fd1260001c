import Novbot.Config.Spec
import Novbot.Lib.Lines
import Novbot.Cron.UtcParts

/-!
# Matching a cron expression

`cron_matches` and `field_match` of `schedule.rs` in `novbot-core`, in a build without overflow
checks, and the grammar that the documentation of `Schedule::cron` names.

A field of the grammar contains values by the usual meaning of its items.  The matcher reads an
item as it is meant but for two kinds (`Field.ReadAt`): a star among several items, and numbers that
no `u32` holds.  `cronMatches_iff_contains` says when this makes a difference.
-/

namespace Novbot.Cron

open Text Config

/-! ## The code -/

/-- A number may have a plus sign. -/
def unsigned : List Char → List Char
  | '+' :: cs => cs
  | cs => cs

/-- `str::parse::<u32>`. -/
def parseU32 (cs : List Char) : Option Nat :=
  if unsigned cs = [] then none else (digits 0 (unsigned cs)).filter (· < 2 ^ 32)

def stripPrefix (start : List Char) (cs : List Char) : Option (List Char) :=
  if start.isPrefixOf cs then some (cs.drop start.length) else none

/-- A part of a field, between commas. -/
def partMatch (value min max : Nat) (part : List Char) : Bool :=
  let part := trim part
  if part = [] then false
  else
    match stripPrefix ['*', '/'] part with
    | some step =>
      match parseU32 step with
      | some step => 0 < step && min ≤ value && (value - min) % step = 0
      | none => false
    | none =>
      match splitOnce '-' part with
      | some (a, b) =>
        match parseU32 a, parseU32 b with
        | some lo, some hi => lo ≤ value && value ≤ hi
        | _, _ => false
      | none =>
        match splitOnce '/' part with
        | some (base, step) =>
          if base = ['*'] then false
          else
            match parseU32 base, parseU32 step with
            | some start, some step =>
              0 < step && start ≤ value && (value - start) % step = 0 && value ≤ max
            | _, _ => false
        | none => parseU32 part = some value

def fieldMatch (field : List Char) (value min max : Nat) : Bool :=
  if field = ['*'] then true else (split ',' field).any (partMatch value min max)

def cronMatches (expr : String) (unixSecs : UInt64) : Bool :=
  match words expr.toList with
  | [minute, hour, day, month, weekday] =>
    (utcParts false unixSecs).any fun parts =>
      fieldMatch minute parts.minute 0 59 && fieldMatch hour parts.hour 0 23 &&
        fieldMatch day parts.day 1 31 && fieldMatch month parts.month 1 12 &&
        fieldMatch weekday parts.weekday 0 6
  | _ => false

/-! ## The grammar -/

structure Numeral where
  digits : List Char
  ne_nil : digits ≠ []
  digit : ∀ c ∈ digits, c.isDigit = true

def Numeral.value (n : Numeral) : Nat := Nat.ofDigitChars 10 n.digits 0

inductive Item where
  | star
  | number (n : Numeral)
  | step (n : Numeral)
  | range (lo hi : Numeral)

/-- The items of a field, at least one. -/
structure Field where
  first : Item
  rest : List Item

def Field.items (field : Field) : List Item := field.first :: field.rest

inductive Place where
  | minute
  | hour
  | day
  | month
  | weekday

/-- A field for each place. -/
abbrev Expr := Place → Field

def Item.text : Item → List Char
  | .star => ['*']
  | .number n => n.digits
  | .step n => '*' :: '/' :: n.digits
  | .range lo hi => lo.digits ++ '-' :: hi.digits

def Field.text (field : Field) : List Char := List.intercalate [','] (field.items.map Item.text)

/-- The expression is written with white space between its fields. -/
def Expr.WrittenAs (fields : Expr) (expr : String) : Prop :=
  words expr.toList = [(fields .minute).text, (fields .hour).text, (fields .day).text,
    (fields .month).text, (fields .weekday).text]

def Place.least : Place → Nat
  | .day | .month => 1
  | _ => 0

def Place.most : Place → Nat
  | .minute => 59
  | .hour => 23
  | .day => 31
  | .month => 12
  | .weekday => 6

def Parts.at (parts : Parts) : Place → Nat
  | .minute => parts.minute
  | .hour => parts.hour
  | .day => parts.day
  | .month => parts.month
  | .weekday => parts.weekday

/-- The usual meaning of an item in a field whose values begin with `least`. -/
def Item.Contains (least value : Nat) : Item → Prop
  | .star => True
  | .number n => n.value = value
  | .step n => 0 < n.value ∧ (value - least) % n.value = 0
  | .range lo hi => lo.value ≤ value ∧ value ≤ hi.value

def Field.Contains (field : Field) (least value : Nat) : Prop :=
  ∃ item ∈ field.items, item.Contains least value

/-- Every field contains its part of the time. -/
def Expr.Contains (fields : Expr) (parts : Parts) : Prop :=
  ∀ place, (fields place).Contains place.least (parts.at place)

/-- The item is read as it is meant: a star stands alone, and a `u32` holds the numbers. -/
def Item.Read (alone : Prop) : Item → Prop
  | .star => alone
  | .number _ => True
  | .step n => n.value < 2 ^ 32
  | .range _ hi => hi.value < 2 ^ 32

/-- An item that is read as it is meant contains the value. -/
def Field.ReadAt (field : Field) (least value : Nat) : Prop :=
  ∃ item ∈ field.items, item.Contains least value ∧ item.Read (field.rest = [])

/-! ## Numerals -/

theorem digits_numeral {cs : List Char} (h : ∀ c ∈ cs, c.isDigit = true) (value : Nat) :
    digits value cs = some (Nat.ofDigitChars 10 cs value) := by
  induction cs generalizing value with
  | nil => rfl
  | cons c cs ih =>
    rw [digits, if_pos (h c List.mem_cons_self), ih fun d hd => h d (.tail _ hd),
      Nat.ofDigitChars_cons, Nat.mul_comm]

theorem parseU32_numeral (n : Numeral) :
    parseU32 n.digits = if n.value < 2 ^ 32 then some n.value else none := by
  have hunsigned : unsigned n.digits = n.digits := by
    unfold unsigned
    split
    · next hplus =>
      have hdigit := n.digit '+' (by rw [hplus]; exact List.mem_cons_self)
      cases hdigit
    · rfl
  rw [parseU32, hunsigned, if_neg n.ne_nil, digits_numeral n.digit, Option.filter_some]
  by_cases hless : n.value < 2 ^ 32
  · rw [if_pos hless]
    exact if_pos (decide_eq_true hless)
  · rw [if_neg hless]
    exact if_neg fun h => hless (of_decide_eq_true h)

theorem not_mem_numeral (n : Numeral) {c : Char} (hc : c.isDigit = false) : c ∉ n.digits := by
  intro hmem
  rw [n.digit c hmem] at hc
  cases hc

/-! ## Items -/

theorem isWhiteSpace_digit {c : Char} (h : c.isDigit = true) : isWhiteSpace c = false := by
  rw [Char.isDigit, Bool.and_eq_true, decide_eq_true_eq, decide_eq_true_eq] at h
  have hlo : 48 ≤ c.toNat := h.1
  have hhi : c.toNat ≤ 57 := h.2
  simp [isWhiteSpace]
  omega

/-- The characters of an item. -/
theorem mem_text {item : Item} {c : Char} (h : c ∈ item.text) :
    c.isDigit = true ∨ c = '*' ∨ c = '/' ∨ c = '-' := by
  cases item with
  | star =>
    rw [List.mem_singleton.mp h]
    exact .inr (.inl rfl)
  | number n => exact .inl (n.digit c h)
  | step n =>
    rcases List.mem_cons.mp h with rfl | h
    · exact .inr (.inl rfl)
    · rcases List.mem_cons.mp h with rfl | h
      · exact .inr (.inr (.inl rfl))
      · exact .inl (n.digit c h)
  | range lo hi =>
    rcases List.mem_append.mp h with h | h
    · exact .inl (lo.digit c h)
    · rcases List.mem_cons.mp h with rfl | h
      · exact .inr (.inr (.inr rfl))
      · exact .inl (hi.digit c h)

theorem text_ne_nil (item : Item) : item.text ≠ [] := by
  cases item with
  | star => exact List.cons_ne_nil _ _
  | number n => exact n.ne_nil
  | step n => exact List.cons_ne_nil _ _
  | range lo hi => exact List.append_ne_nil_of_right_ne_nil _ (List.cons_ne_nil _ _)

theorem trim_text (item : Item) : trim item.text = item.text := by
  refine trim_word fun c hc => ?_
  rcases mem_text hc with h | rfl | rfl | rfl
  · exact isWhiteSpace_digit h
  all_goals decide

theorem stripPrefix_of_head {start cs : List Char} {c : Char} (hc : cs.head? ≠ some c) :
    stripPrefix (c :: start) cs = none := by
  cases cs with
  | nil => rfl
  | cons d cs =>
    have hne : ¬ c = d := fun h => hc (congrArg some h.symm)
    rw [stripPrefix, if_neg]
    simp [List.isPrefixOf, hne]

theorem head_numeral (n : Numeral) (rest : List Char) {c : Char} (hc : c.isDigit = false) :
    (n.digits ++ rest).head? ≠ some c := by
  intro h
  cases hn : n.digits with
  | nil => exact n.ne_nil hn
  | cons d ds =>
    rw [hn] at h
    cases h
    exact not_mem_numeral n hc (by rw [hn]; exact List.mem_cons_self)

/-- What an item of the grammar matches. -/
theorem partMatch_text (item : Item) {value min max : Nat} (hmin : min ≤ value)
    (hvalue : value < 2 ^ 32) :
    partMatch value min max item.text = true ↔ item.Contains min value ∧ item.Read False := by
  unfold partMatch
  dsimp only
  rw [trim_text, if_neg (text_ne_nil item)]
  cases item with
  | star =>
    have hparse : parseU32 ['*'] = none := rfl
    simp [Item.text, stripPrefix, splitOnce, hparse, Item.Read]
  | number n =>
    have hprefix : stripPrefix ['*', '/'] n.digits = none := by
      have hhead := @head_numeral n [] '*' rfl
      rw [List.append_nil] at hhead
      exact stripPrefix_of_head hhead
    have hdash : splitOnce '-' n.digits = none := splitOnce_none.mpr (not_mem_numeral n rfl)
    have hslash : splitOnce '/' n.digits = none := splitOnce_none.mpr (not_mem_numeral n rfl)
    simp only [Item.text, hprefix, hdash, hslash, parseU32_numeral, Item.Contains, Item.Read,
      and_true, decide_eq_true_eq]
    split
    · exact Option.some_inj
    · next hlarge =>
      constructor
      · intro hread
        cases hread
      · rintro rfl
        exact absurd hvalue hlarge
  | step n =>
    have hprefix : stripPrefix ['*', '/'] ('*' :: '/' :: n.digits) = some n.digits := rfl
    simp only [Item.text, hprefix, parseU32_numeral, Item.Contains, Item.Read]
    by_cases hless : n.value < 2 ^ 32
    · rw [if_pos hless, and_iff_left hless]
      simp [hmin]
    · rw [if_neg hless]
      exact ⟨fun h => absurd h Bool.false_ne_true, fun h => absurd h.2 hless⟩
  | range lo hi =>
    have hprefix : stripPrefix ['*', '/'] (lo.digits ++ '-' :: hi.digits) = none :=
      stripPrefix_of_head (head_numeral lo _ rfl)
    have hdash : splitOnce '-' (lo.digits ++ '-' :: hi.digits) = some (lo.digits, hi.digits) :=
      splitOnce_some.mpr ⟨rfl, not_mem_numeral lo rfl⟩
    simp only [Item.text, hprefix, hdash, parseU32_numeral, Item.Contains, Item.Read]
    by_cases hlo : lo.value < 2 ^ 32
    · rw [if_pos hlo]
      by_cases hhi : hi.value < 2 ^ 32
      · rw [if_pos hhi, and_iff_left hhi]
        simp
      · rw [if_neg hhi]
        exact ⟨fun h => absurd h Bool.false_ne_true, fun h => absurd h.2 hhi⟩
    · rw [if_neg hlo]
      exact ⟨fun h => absurd h Bool.false_ne_true,
        fun h => absurd (Nat.lt_of_le_of_lt h.1.1 hvalue) hlo⟩

/-! ## Fields -/

theorem split_text (field : Field) : split ',' field.text = field.items.map Item.text := by
  refine split_intercalate (List.cons_ne_nil _ _) fun text htext => ?_
  obtain ⟨item, -, rfl⟩ := List.mem_map.mp htext
  intro hmem
  rcases mem_text hmem with h | h | h | h
  all_goals cases h

theorem length_text (item : Item) (rest : List Item) (next : Item) :
    1 < (List.intercalate [','] ((item :: next :: rest).map Item.text)).length := by
  have hlength := List.length_pos_of_ne_nil (text_ne_nil item)
  rw [List.map_cons, List.map_cons, List.intercalate_cons_cons, List.length_append,
    List.length_append, List.length_singleton]
  omega

theorem text_eq_star {field : Field} :
    field.text = ['*'] ↔ field.first = .star ∧ field.rest = [] := by
  obtain ⟨first, rest⟩ := field
  cases rest with
  | nil =>
    rw [Field.text, Field.items, List.map_singleton, List.intercalate_singleton, and_iff_left rfl]
    cases first with
    | star => exact ⟨fun _ => rfl, fun _ => rfl⟩
    | number n =>
      refine ⟨fun h => ?_, nofun⟩
      have hstar : n.digits = ['*'] := h
      exact absurd (hstar ▸ List.mem_cons_self) (not_mem_numeral n (c := '*') rfl)
    | step n => exact ⟨nofun, nofun⟩
    | range lo hi =>
      refine ⟨fun h => ?_, nofun⟩
      have hlength := congrArg List.length h
      have hlo := List.length_pos_of_ne_nil lo.ne_nil
      have hhi := List.length_pos_of_ne_nil hi.ne_nil
      simp only [Item.text, List.length_append, List.length_cons, List.length_nil] at hlength
      omega
  | cons next rest =>
    constructor
    · intro h
      have hlength := length_text first rest next
      have htext := congrArg List.length h
      rw [Field.text, Field.items] at htext
      rw [htext] at hlength
      cases hlength with
      | step hlength => cases hlength
    · exact fun h => by cases h.2

/-- A field of the grammar matches by the items that are read as they are meant. -/
theorem fieldMatch_text (field : Field) {value min max : Nat} (hmin : min ≤ value)
    (hvalue : value < 2 ^ 32) :
    fieldMatch field.text value min max = true ↔ field.ReadAt min value := by
  have hparts : (split ',' field.text).any (partMatch value min max) = true ↔
      ∃ item ∈ field.items, item.Contains min value ∧ item.Read False := by
    rw [split_text, List.any_map, List.any_eq_true]
    exact exists_congr fun item => and_congr_right fun _ => partMatch_text item hmin hvalue
  unfold fieldMatch
  split
  · next hstar =>
    obtain ⟨hfirst, hrest⟩ := text_eq_star.mp hstar
    refine ⟨fun _ => ⟨.star, ?_, trivial, hrest⟩, fun _ => rfl⟩
    rw [Field.items, hfirst]
    exact List.mem_cons_self
  · next hstar =>
    rw [hparts]
    have hread : ∀ item ∈ field.items, item.Read False ↔ item.Read (field.rest = []) := by
      intro item hitem
      cases item with
      | star =>
        refine ⟨False.elim, fun hrest => hstar (text_eq_star.mpr ⟨?_, hrest⟩)⟩
        rw [Field.items, hrest, List.mem_singleton] at hitem
        exact hitem.symm
      | number n => exact Iff.rfl
      | step n => exact Iff.rfl
      | range lo hi => exact Iff.rfl
    exact exists_congr fun item => and_congr_right fun hitem =>
      and_congr_right fun _ => hread item hitem

/-! ## Expressions -/

theorem calendarParts_bounds (unixSecs : UInt64) (place : Place) :
    place.least ≤ (calendarParts unixSecs).at place ∧
      (calendarParts unixSecs).at place ≤ place.most := by
  have hmonth := (dateOf (unixSecs.toNat / 86400)).month_bounds
  have hday := (dateOf (unixSecs.toNat / 86400)).day_bounds
  have hweekday := (weekdayOf (unixSecs.toNat / 86400)).isLt
  cases place with
  | minute => exact ⟨Nat.zero_le _, Nat.le_of_lt_succ (Nat.mod_lt _ (by decide))⟩
  | hour => exact ⟨Nat.zero_le _, Nat.le_of_lt_succ (Nat.mod_lt _ (by decide))⟩
  | day => exact ⟨hday.1, day_le _⟩
  | month => exact hmonth
  | weekday => exact ⟨Nat.zero_le _, Nat.le_of_lt_succ hweekday⟩

theorem cronMatches_written {fields : Expr} {expr : String} (h : fields.WrittenAs expr)
    (unixSecs : UInt64) : cronMatches expr unixSecs = true ↔
      ∀ place, (fields place).ReadAt place.least ((calendarParts unixSecs).at place) := by
  have hfield : ∀ place max, fieldMatch (fields place).text ((calendarParts unixSecs).at place)
      place.least max = true ↔
        (fields place).ReadAt place.least ((calendarParts unixSecs).at place) := by
    intro place max
    obtain ⟨hleast, hmost⟩ := calendarParts_bounds unixSecs place
    refine fieldMatch_text _ hleast (Nat.lt_of_le_of_lt hmost ?_)
    cases place <;> decide
  rw [cronMatches, h, utcParts_unchecked]
  show (fieldMatch _ _ _ _ && _ && _ && _ && _) = true ↔ _
  simp only [Bool.and_eq_true]
  constructor
  · rintro ⟨⟨⟨⟨hminute, hhour⟩, hday⟩, hmonth⟩, hweekday⟩ place
    cases place with
    | minute => exact (hfield .minute 59).mp hminute
    | hour => exact (hfield .hour 23).mp hhour
    | day => exact (hfield .day 31).mp hday
    | month => exact (hfield .month 12).mp hmonth
    | weekday => exact (hfield .weekday 6).mp hweekday
  · intro h
    exact ⟨⟨⟨⟨(hfield .minute 59).mpr (h .minute), (hfield .hour 23).mpr (h .hour)⟩,
      (hfield .day 31).mpr (h .day)⟩, (hfield .month 12).mpr (h .month)⟩,
      (hfield .weekday 6).mpr (h .weekday)⟩

theorem Field.ReadAt.contains {field : Field} {least value : Nat} (h : field.ReadAt least value) :
    field.Contains least value := by
  obtain ⟨item, hitem, hcontains, -⟩ := h
  exact ⟨item, hitem, hcontains⟩

/-- An expression of the grammar matches a time as it is meant if and only if some field does not
contain its part of the time, or every field has an item that contains it and is read as it is
meant. -/
theorem cronMatches_iff_contains {fields : Expr} {expr : String} (h : fields.WrittenAs expr)
    (unixSecs : UInt64) :
    (cronMatches expr unixSecs = true ↔ fields.Contains (calendarParts unixSecs)) ↔
      (∃ place, ¬ (fields place).Contains place.least ((calendarParts unixSecs).at place)) ∨
        ∀ place, (fields place).ReadAt place.least ((calendarParts unixSecs).at place) := by
  rw [cronMatches_written h, ← not_forall]
  constructor
  · intro hsame
    by_cases hcontains : fields.Contains (calendarParts unixSecs)
    · exact .inr (hsame.mpr hcontains)
    · exact .inl hcontains
  · rintro (hnot | hread)
    · exact ⟨fun hread => absurd (fun place => (hread place).contains) hnot, fun hcontains =>
        absurd hcontains hnot⟩
    · exact ⟨fun _ place => (hread place).contains, fun _ => hread⟩

def five : Numeral := ⟨['5'], by decide, List.all_eq_true.mp (by decide)⟩

/-- Every minute, in a list. -/
def everyMinute : Expr
  | .minute => ⟨.star, [.number five]⟩
  | _ => ⟨.star, []⟩

theorem everyMinute_written : everyMinute.WrittenAs "*,5 * * * *" := by
  unfold Expr.WrittenAs
  decide +kernel

theorem cronMatches_iff_contains_five :
    (cronMatches "*,5 * * * *" 300 = true ↔ everyMinute.Contains (calendarParts 300)) ↔
      (∃ place, ¬ (everyMinute place).Contains place.least ((calendarParts 300).at place)) ∨
        ∀ place, (everyMinute place).ReadAt place.least ((calendarParts 300).at place) :=
  cronMatches_iff_contains everyMinute_written 300

/-- A star in a list matches nothing. -/
theorem star_in_list : everyMinute.WrittenAs "*,5 * * * *" ∧
    everyMinute.Contains (calendarParts 0) ∧ cronMatches "*,5 * * * *" 0 = false := by
  refine ⟨everyMinute_written, fun place => ⟨.star, ?_, trivial⟩, by decide +kernel⟩
  cases place <;> exact List.mem_cons_self

end Novbot.Cron
