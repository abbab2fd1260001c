import Novbot.Lib.Json
import Novbot.Lib.Text
import Mathlib.Data.List.SplitOn

/-!
# Schedule entries

The entries of a node's schedules and the timing of a target schedule.  An entry
that a target schedule wrote has its origin, which no edit of it changes.
-/

namespace Novbot.Schedules

open Text

structure Timing where
  intervalSecs : Option Nat
  cron : Option String
  deriving DecidableEq, Repr

def trimmed (text : Option String) : Option String :=
  (text.map fun text => String.ofList (trim text.toList)).filter (· ≠ "")

/-- `split_whitespace().count()`. -/
def fieldCount (text : String) : Nat :=
  ((text.toList.splitOnP isWhiteSpace).filter fun field => !field.isEmpty).length

def validateTiming (intervalSecs : Option Nat) (cron : Option String) : Except String Timing :=
  let cron := trimmed cron
  if intervalSecs.isNone && cron.isNone then .error "interval_secs or cron is required"
  else if intervalSecs = some 0 then .error "interval_secs must be greater than 0"
  else if cron.any fun expr => fieldCount expr ≠ 5 then .error "cron must be 5 fields"
  else .ok ⟨intervalSecs, cron⟩

/-! ## Entries -/

def originOf (scheduleId : String) : String := "sch_" ++ scheduleId

def scheduleEntry (specId : String) (timing : Timing) (enabled : Bool) (origin : String) : Json :=
  .obj ([("spec_id", .str specId)] ++
    (timing.intervalSecs.map fun (value : Nat) => ("interval_secs", Json.int value)).toList ++
    (timing.cron.map fun cron => ("cron", Json.str cron)).toList ++
    [("enabled", .bool enabled), ("origin", .str origin)])

def hasSpec (entries : List Json) (specId : String) : Bool :=
  entries.any fun entry => (entry.get "spec_id").bind Json.asStr == some specId

def hasOrigin (origin : String) (entry : Json) : Bool :=
  (entry.get "origin").bind Json.asStr == some origin

def parseEntries (schedules : Json) : List Json := schedules.asArray.getD []

/-- Sets a member, or removes it. -/
def setMember (key : String) (value : Option Json) (members : List (String × Json)) :
    List (String × Json) :=
  match value with
  | some value => Json.insert key value members
  | none => Json.remove key members

def setTiming (timing : Timing) (enabled : Bool) (members : List (String × Json)) :
    List (String × Json) :=
  Json.insert "enabled" (.bool enabled)
    (setMember "cron" (timing.cron.map Json.str)
      (setMember "interval_secs" (timing.intervalSecs.map fun (value : Nat) => Json.int value) members))

/-- What a patch does to an entry. -/
def patchEntry (origin : String) (timing : Timing) (enabled : Bool) (entry : Json) : Json :=
  if hasOrigin origin entry then
    match entry with
    | .obj members => .obj (setTiming timing enabled members)
    | entry => entry
  else entry

/-! ## What entries say -/

/-- The entry has a schedule's spec, timing and flag. -/
structure Says (specId : String) (timing : Timing) (enabled : Bool) (entry : Json) : Prop where
  specId : entry.get "spec_id" = some (.str specId)
  intervalSecs : entry.get "interval_secs" = timing.intervalSecs.map fun (value : Nat) => Json.int value
  cron : entry.get "cron" = timing.cron.map Json.str
  enabled : entry.get "enabled" = some (.bool enabled)

theorem get_setMember (key name : String) (value : Option Json) (members : List (String × Json)) :
    (Json.obj (setMember key value members)).get name =
      if name = key then value else (Json.obj members).get name := by
  cases value with
  | some value => exact Json.get_insert key name value members
  | none => exact Json.get_remove key name members

theorem says_scheduleEntry (specId : String) (timing : Timing) (enabled : Bool) (origin : String) :
    Says specId timing enabled (scheduleEntry specId timing enabled origin) := by
  obtain ⟨interval, cron⟩ := timing
  constructor
  · rfl
  · cases interval <;> cases cron <;> rfl
  · cases interval <;> cases cron <;> rfl
  · cases interval <;> cases cron <;> rfl

theorem hasOrigin_scheduleEntry (specId : String) (timing : Timing) (enabled : Bool)
    (origin origin' : String) :
    hasOrigin origin' (scheduleEntry specId timing enabled origin) = decide (origin = origin') := by
  have horigin : (scheduleEntry specId timing enabled origin).get "origin" = some (.str origin) := by
    obtain ⟨interval, cron⟩ := timing
    cases interval <;> cases cron <;> rfl
  rw [hasOrigin, horigin]
  by_cases h : origin = origin' <;> simp [Json.asStr, h]

/-- A patch leaves the origin alone. -/
theorem hasOrigin_patchEntry (origin origin' : String) (timing : Timing) (enabled : Bool)
    (entry : Json) :
    hasOrigin origin' (patchEntry origin timing enabled entry) = hasOrigin origin' entry := by
  unfold patchEntry
  split
  · split
    · next members =>
      unfold hasOrigin setTiming
      rw [Json.get_insert, if_neg (by decide), get_setMember, if_neg (by decide), get_setMember,
        if_neg (by decide)]
    · rfl
  · rfl

/-- A patched entry has the new timing and flag, and its spec. -/
theorem says_patchEntry {specId origin : String} {timing : Timing} {enabled : Bool} {entry : Json}
    (horigin : hasOrigin origin entry = true) (hspec : entry.get "spec_id" = some (.str specId)) :
    Says specId timing enabled (patchEntry origin timing enabled entry) := by
  unfold patchEntry
  rw [if_pos horigin]
  cases entry with
  | obj members =>
    dsimp only
    unfold setTiming
    constructor
    · rw [Json.get_insert, if_neg (by decide), get_setMember, if_neg (by decide), get_setMember,
        if_neg (by decide), hspec]
    · rw [Json.get_insert, if_neg (by decide), get_setMember, if_neg (by decide), get_setMember,
        if_pos rfl]
    · rw [Json.get_insert, if_neg (by decide), get_setMember, if_pos rfl]
    · rw [Json.get_insert, if_pos rfl]
  | null => cases hspec
  | bool b => cases hspec
  | int n => cases hspec
  | float text => cases hspec
  | str s => cases hspec
  | arr items => cases hspec

theorem enabled_patchEntry {origin : String} {timing : Timing} {enabled : Bool} {entry : Json}
    (horigin : hasOrigin origin entry = true) :
    (patchEntry origin timing enabled entry).get "enabled" = some (.bool enabled) := by
  unfold patchEntry
  rw [if_pos horigin]
  cases entry with
  | obj members =>
    dsimp only
    rw [setTiming, Json.get_insert, if_pos rfl]
  | null => cases horigin
  | bool b => cases horigin
  | int n => cases horigin
  | float text => cases horigin
  | str s => cases horigin
  | arr items => cases horigin

theorem patchEntry_other {origin : String} {timing : Timing} {enabled : Bool} {entry : Json}
    (h : hasOrigin origin entry = false) : patchEntry origin timing enabled entry = entry := by
  unfold patchEntry
  rw [h]
  exact if_neg Bool.false_ne_true

end Novbot.Schedules
