import Novbot.Lib.Decimal
import Novbot.Lib.Lines
import Novbot.Lib.Toml

/-!
# The config file of a node

`parse_file_config` of `novbot-node/src/config.rs`, which leaves the source line out of its errors
because the line may contain the bootstrap token.  The message of a value of the wrong type quotes
the value all the same (`sameUpToPosition_iff`).

The library that reads documents is a parameter (`Library`).  The wording of its errors is that of
its deserialiser.
-/

namespace Novbot.Config.File

open Text

/-! ## The library -/

/-- `toml::de::Error`, with the start of its span. -/
structure TomlError where
  message : List Char
  span : Option Nat

/-- An entry of the document. -/
structure Entry where
  key : String
  keySpan : Option Nat
  value : Toml
  span : Option Nat

structure Library where
  /-- The entries of a document in their order. -/
  read : List Char → Except TomlError (List Entry)
  /-- The value of the text of a scalar. -/
  scalar : List Char → Option Toml

def isStr : Toml → Bool
  | .str _ => true
  | _ => false

def isScalar : Toml → Bool
  | .arr _ => false
  | .table _ => false
  | _ => true

/-- How the library names the type of a value. -/
def typeName : Toml → String
  | .str _ => "string"
  | .int _ => "integer"
  | .float _ => "float"
  | .bool _ => "boolean"
  | .datetime _ => "datetime"
  | .arr _ => "array"
  | .table _ => "table"

/-- What a message says of a value that is not of the expected type. -/
def unexpected : Toml → List Char
  | .str _ => "string".toList
  | .int n => "integer `".toList ++ intDigits n ++ "`".toList
  | .float text => "floating point `".toList ++ text.toList ++ "`".toList
  | .bool b => (if b then "boolean `true`" else "boolean `false`").toList
  | .datetime _ => "map".toList
  | .arr _ => "sequence".toList
  | .table _ => "map".toList

def invalidType (value : Toml) : List Char :=
  "invalid type: ".toList ++ (unexpected value ++ ", expected a string".toList)

def unknownField (key : String) : List Char :=
  "unknown field `".toList ++
    (key.toList ++ "`, expected one of `center_grpc`, `node_id`, `bootstrap_token`".toList)

/-! ## The code -/

structure FileConfig where
  centerGrpc : Option String
  nodeId : Option String
  bootstrapToken : Option String
  deriving DecidableEq

def string (entry : Entry) : Except TomlError String :=
  match entry.value with
  | .str text => .ok text
  | value => .error ⟨invalidType value, entry.span⟩

/-- The derived deserialiser of `FileConfig`.  A document has no key twice. -/
def visitMap : FileConfig → List Entry → Except TomlError FileConfig
  | config, [] => .ok config
  | config, entry :: entries =>
    if entry.key = "center_grpc" then
      (string entry).bind fun text => visitMap { config with centerGrpc := some text } entries
    else if entry.key = "node_id" then
      (string entry).bind fun text => visitMap { config with nodeId := some text } entries
    else if entry.key = "bootstrap_token" then
      (string entry).bind fun text => visitMap { config with bootstrapToken := some text } entries
    else .error ⟨unknownField entry.key, entry.keySpan⟩

def lineColFrom (offset : Nat) : Nat → Nat × Nat → List Char → Nat × Nat
  | _, place, [] => place
  | index, (line, column), c :: cs =>
    if offset ≤ index then (line, column)
    else
      lineColFrom offset (index + c.utf8Size)
        (if c = '\n' then (line + 1, 1) else (line, column + 1)) cs

def lineCol (text : List Char) (offset : Nat) : Nat × Nat := lineColFrom offset 0 (1, 1) text

/-- A newline is written as a semicolon. -/
def joinLines (message : List Char) : List Char :=
  message.flatMap fun c => if c = '\n' then [';', ' '] else [c]

structure Reason where
  message : List Char
  position : Option (Nat × Nat)
  deriving DecidableEq

def tomlReason (text : List Char) (err : TomlError) : Reason where
  message := joinLines (trim err.message)
  position := err.span.map (lineCol text)

def Reason.text (reason : Reason) : List Char :=
  match reason.position with
  | some (line, column) =>
    reason.message ++ " at line ".toList ++ Nat.toDigits 10 line ++ " column ".toList ++
      Nat.toDigits 10 column
  | none => reason.message

structure ConfigError where
  path : String
  reason : Reason
  deriving DecidableEq

section
variable (lib : Library) (path : String)

def parseFileConfig (text : List Char) : Except ConfigError FileConfig :=
  ((lib.read text).bind (visitMap ⟨none, none, none⟩)).mapError fun err => ⟨path, tomlReason text err⟩

/-- With what reading the file gives. -/
def loadFileConfig (contents : Except String (List Char)) : Except ConfigError FileConfig :=
  match contents with
  | .ok text => parseFileConfig lib path text
  | .error err => .error ⟨path, err.toList, none⟩

end

/-! ## Texts that differ in the token -/

/-- Equal but for the numbers of the line and the column. -/
def ConfigError.SameUpToPosition (err err' : ConfigError) : Prop :=
  err.path = err'.path ∧ err.reason.message = err'.reason.message ∧
    err.reason.position.isSome = err'.reason.position.isSome

structure Scalar (lib : Library) where
  text : List Char
  value : Toml
  reads : lib.scalar text = some value
  scalar : isScalar value = true

/-- An entry without its place in the text. -/
def Entry.unplaced (entry : Entry) : Entry :=
  { entry with keySpan := entry.keySpan.map fun _ => 0, span := entry.span.map fun _ => 0 }

def TomlError.unplaced (err : TomlError) : TomlError := { err with span := err.span.map fun _ => 0 }

def tokenEntry (value : Toml) : Entry := ⟨"bootstrap_token", some 0, value, some 0⟩

/-- What a text is but for the token: an error, whose message may name the type of the token, or the
entries in front of the token and behind it. -/
inductive Outline where
  | invalid (message : String → List Char) (placed : Bool)
  | entries (front back : List Entry)

/-- Between these parts of a text is the value of the token. -/
def Fills (lib : Library) (before after : List Char) : Outline → Prop
  | .invalid message placed => ∀ token : Scalar lib, ∃ err,
      lib.read (before ++ token.text ++ after) = .error err ∧
        err.message = message (typeName token.value) ∧ err.span.isSome = placed
  | .entries front back => ∀ token : Scalar lib, ∃ entries,
      lib.read (before ++ token.text ++ after) = .ok entries ∧
        entries.map Entry.unplaced = front ++ tokenEntry token.value :: back

def fileFields : List String := ["center_grpc", "node_id", "bootstrap_token"]

/-- An entry that the config may not have. -/
def Refused (entry : Entry) : Prop := entry.key ∉ fileFields ∨ isStr entry.value = false

/-- A message says the same of two values. -/
def Alike (value value' : Toml) : Prop := joinLines (unexpected value) = joinLines (unexpected value')

/-- The first of the entries that is refused is one with a value like this one. -/
def RefusesLike (value : Toml) (entries : List Entry) : Prop :=
  ∃ skipped entry rest, entries = skipped ++ entry :: rest ∧ (∀ other ∈ skipped, ¬ Refused other) ∧
    entry.key ∈ fileFields ∧ isStr entry.value = false ∧ Alike entry.value value ∧
    entry.span.isSome = true

/-- No message tells the two tokens apart. -/
def Hidden : Outline → Toml → Toml → Prop
  | .invalid message _, value, value' =>
    joinLines (trim (message (typeName value))) = joinLines (trim (message (typeName value')))
  | .entries front back, value, value' =>
    (∃ entry ∈ front, Refused entry) ∨
      match isStr value, isStr value' with
      | true, true => True
      | false, false => Alike value value'
      | true, false => RefusesLike value' back
      | false, true => RefusesLike value back

/-! ## The first refusal -/

def refuse (entry : Entry) : Option TomlError :=
  if entry.key ∉ fileFields then some ⟨unknownField entry.key, entry.keySpan⟩
  else if isStr entry.value then none
  else some ⟨invalidType entry.value, entry.span⟩

theorem refuse_eq_none {entry : Entry} : refuse entry = none ↔ ¬ Refused entry := by
  rw [refuse, Refused]
  by_cases hkey : entry.key ∈ fileFields
  · cases hstr : isStr entry.value <;> simp [hkey]
  · simp [hkey]

theorem string_eq (entry : Entry) :
    (∃ text, string entry = .ok text ∧ isStr entry.value = true) ∨
      (string entry = .error ⟨invalidType entry.value, entry.span⟩ ∧ isStr entry.value = false) := by
  rw [string]
  cases entry.value with
  | str text => exact .inl ⟨text, rfl, rfl⟩
  | _ => exact .inr ⟨rfl, rfl⟩

/-- A document is refused for the first of its entries that is. -/
theorem visitMap_error {config : FileConfig} {entries : List Entry} {err : TomlError} :
    visitMap config entries = .error err ↔ entries.findSome? refuse = some err := by
  induction entries generalizing config with
  | nil =>
    constructor
    · intro h
      cases h
    · intro h
      cases h
  | cons entry entries ih =>
    have hfield : ∀ next : String → FileConfig, entry.key ∈ fileFields →
        (((string entry).bind fun text => visitMap (next text) entries) = .error err ↔
          (entry :: entries).findSome? refuse = some err) := by
      intro next hkey
      rw [List.findSome?_cons, refuse, if_neg (not_not_intro hkey)]
      rcases string_eq entry with ⟨text, hstring, hstr⟩ | ⟨hstring, hstr⟩
      · rw [hstring, hstr]
        exact ih
      · rw [hstring, hstr]
        constructor
        · intro h
          cases h
          rfl
        · intro h
          cases h
          rfl
    rw [visitMap]
    split
    · next hkey => exact hfield _ (by rw [hkey]; decide)
    · split
      · next hkey => exact hfield _ (by rw [hkey]; decide)
      · split
        · next hkey => exact hfield _ (by rw [hkey]; decide)
        · next hcenter hnode htoken =>
          have hkey : entry.key ∉ fileFields := by simp [fileFields, hcenter, hnode, htoken]
          rw [List.findSome?_cons, refuse, if_pos hkey]
          constructor
          · intro h
            cases h
            rfl
          · intro h
            cases h
            rfl

theorem refuse_unplaced (entry : Entry) : refuse entry.unplaced = (refuse entry).map TomlError.unplaced := by
  rw [refuse, refuse, Entry.unplaced]
  dsimp only
  split
  · rfl
  · split
    · rfl
    · rfl

theorem findSome_unplaced (entries : List Entry) :
    (entries.map Entry.unplaced).findSome? refuse =
      (entries.findSome? refuse).map TomlError.unplaced := by
  induction entries with
  | nil => rfl
  | cons entry entries ih =>
    rw [List.map_cons, List.findSome?_cons, List.findSome?_cons, refuse_unplaced, ih]
    cases refuse entry <;> rfl

/-! ## The texts of the messages -/

theorem trim_plain {cs : List Char} {c d : Char} (hhead : cs.head? = some c)
    (hc : isWhiteSpace c = false) (hlast : cs.getLast? = some d) (hd : isWhiteSpace d = false) :
    trim cs = cs := by
  have hstart : trimStart cs = cs := by
    cases cs with
    | nil => cases hhead
    | cons first rest =>
      cases hhead
      exact (Stops.cons hc).dropWhile
  rw [trim, hstart]
  refine trimEndMatches_of_last fun last h => ?_
  rw [hlast] at h
  cases h
  exact hd

theorem joinLines_append (a b : List Char) : joinLines (a ++ b) = joinLines a ++ joinLines b :=
  List.flatMap_append

theorem joinLines_plain {cs : List Char} (h : '\n' ∉ cs) : joinLines cs = cs := by
  induction cs with
  | nil => rfl
  | cons c cs ih =>
    rw [List.mem_cons, not_or] at h
    rw [joinLines, List.flatMap_cons, if_neg (Ne.symm h.1), ← joinLines, ih h.2, List.singleton_append]

/-- A message that begins and ends as itself. -/
theorem said_framed {front back : List Char} {c d : Char} (hhead : front.head? = some c)
    (hc : isWhiteSpace c = false) (hlast : back.getLast? = some d) (hd : isWhiteSpace d = false)
    (hfront : joinLines front = front) (hback : joinLines back = back) (what : List Char) :
    joinLines (trim (front ++ (what ++ back))) = front ++ (joinLines what ++ back) := by
  have hstart : (front ++ (what ++ back)).head? = some c := by rw [List.head?_append, hhead, Option.some_or]
  have hend : (front ++ (what ++ back)).getLast? = some d := by
    rw [List.getLast?_append, List.getLast?_append, hlast, Option.some_or, Option.some_or]
  rw [trim_plain hstart hc hend hd, joinLines_append, joinLines_append, hfront, hback]

theorem said_invalidType (value : Toml) : joinLines (trim (invalidType value)) =
    "invalid type: ".toList ++ (joinLines (unexpected value) ++ ", expected a string".toList) :=
  @said_framed _ _ 'i' 'g' (by decide +kernel) (by decide) (by decide +kernel) (by decide)
    (by decide +kernel) (by decide +kernel) (unexpected value)

theorem said_unknownField (key : String) : joinLines (trim (unknownField key)) =
    "unknown field `".toList ++ (joinLines key.toList ++
      "`, expected one of `center_grpc`, `node_id`, `bootstrap_token`".toList) :=
  @said_framed _ _ 'u' '\x60' (by decide +kernel) (by decide) (by decide +kernel) (by decide)
    (by decide +kernel) (by decide +kernel) key.toList

theorem append_ne {front front' : List Char} {c d : Char} (hhead : front.head? = some c)
    (hhead' : front'.head? = some d) (hcd : c ≠ d) (rest rest' : List Char) :
    front ++ rest ≠ front' ++ rest' := by
  intro h
  have hsame := congrArg List.head? h
  rw [List.head?_append, List.head?_append, hhead, hhead', Option.some_or, Option.some_or] at hsame
  exact hcd (Option.some.inj hsame)

/-- The messages of two values are the same when they say the same of them. -/
theorem alike_iff {value value' : Toml} :
    joinLines (trim (invalidType value)) = joinLines (trim (invalidType value')) ↔
      Alike value value' := by
  rw [said_invalidType, said_invalidType, List.append_cancel_left_eq, List.append_cancel_right_eq, Alike]

/-- A message tells two numbers apart. -/
theorem alike_int {n m : Int} : Alike (.int n) (.int m) ↔ n = m := by
  have hsaid : ∀ n : Int, joinLines (unexpected (.int n)) = unexpected (.int n) := by
    intro n
    have hplain : '\n' ∉ unexpected (.int n) := by
      intro h
      rcases List.mem_append.mp h with h | h
      · rcases List.mem_append.mp h with h | h
        · exact absurd h (by decide +kernel)
        · have hvisible := (visible_intDigits n).2 '\n' h
          exact absurd hvisible.1 (by decide)
      · exact absurd h (by decide +kernel)
    exact joinLines_plain hplain
  constructor
  · intro h
    rw [Alike, hsaid, hsaid] at h
    exact intDigits_inj (List.append_cancel_left (List.append_cancel_right h))
  · rintro rfl
    rfl

theorem unknownField_ne (key : String) (value : Toml) :
    joinLines (trim (unknownField key)) ≠ joinLines (trim (invalidType value)) := by
  rw [said_unknownField, said_invalidType]
  exact @append_ne _ _ 'u' 'i' (by decide +kernel) (by decide +kernel) (by decide) _ _

/-! ## Two runs -/

/-- What a reader of the message has, but for the numbers. -/
def TomlError.said (err : TomlError) : List Char × Bool := (joinLines (trim err.message), err.span.isSome)

theorem said_unplaced (err : TomlError) : err.unplaced.said = err.said := by
  rw [TomlError.said, TomlError.said, TomlError.unplaced, Option.isSome_map]

section
variable {lib : Library} {path : String} {before after : List Char}

theorem parseFileConfig_error {text : List Char} {err : ConfigError}
    (h : parseFileConfig lib path text = .error err) :
    ∃ refusal, ((lib.read text).bind (visitMap ⟨none, none, none⟩)) = .error refusal ∧
      err = ⟨path, tomlReason text refusal⟩ := by
  rw [parseFileConfig] at h
  cases hrun : (lib.read text).bind (visitMap ⟨none, none, none⟩) with
  | ok config =>
    rw [hrun] at h
    cases h
  | error refusal =>
    rw [hrun] at h
    cases h
    exact ⟨refusal, rfl, rfl⟩

/-- Two errors are the same but for the numbers when what they say is. -/
theorem sameUpToPosition_iff_said {text text' : List Char} {refusal refusal' : TomlError} :
    ConfigError.SameUpToPosition ⟨path, tomlReason text refusal⟩ ⟨path, tomlReason text' refusal'⟩ ↔
      refusal.said = refusal'.said := by
  rw [TomlError.said, TomlError.said, Prod.mk.injEq]
  constructor
  · rintro ⟨-, hmessage, hplace⟩
    rw [tomlReason, tomlReason, Option.isSome_map, Option.isSome_map] at hplace
    exact ⟨hmessage, hplace⟩
  · rintro ⟨hmessage, hplace⟩
    refine ⟨rfl, hmessage, ?_⟩
    rw [tomlReason, tomlReason, Option.isSome_map, Option.isSome_map]
    exact hplace

/-- What is said of a document with a token. -/
theorem said_of_entries {front back : List Entry} (hfills : Fills lib before after (.entries front back))
    (token : Scalar lib) {refusal : TomlError}
    (h : (lib.read (before ++ token.text ++ after)).bind (visitMap ⟨none, none, none⟩) = .error refusal) :
    ∃ found, (front ++ tokenEntry token.value :: back).findSome? refuse = some found ∧
      found.said = refusal.said := by
  obtain ⟨entries, hread, hentries⟩ := hfills token
  rw [hread] at h
  have hfound := visitMap_error.mp h
  refine ⟨refusal.unplaced, ?_, said_unplaced refusal⟩
  rw [← hentries, findSome_unplaced, hfound]
  rfl

theorem refuse_token (value : Toml) :
    refuse (tokenEntry value) = if isStr value then none else some ⟨invalidType value, some 0⟩ := by
  have hkey : ¬ (tokenEntry value).key ∉ fileFields := by
    show ¬ "bootstrap_token" ∉ fileFields
    decide
  rw [refuse, if_neg hkey]
  rfl

theorem not_refused_front {front : List Entry} (h : ¬ ∃ entry ∈ front, Refused entry) :
    front.findSome? refuse = none := by
  rw [List.findSome?_eq_none_iff]
  intro entry hentry
  rw [refuse_eq_none]
  exact fun hrefused => h ⟨entry, hentry, hrefused⟩

/-- The entries behind the token say of one of them what is said of a value. -/
theorem refusesLike_iff {value : Toml} {back : List Entry} {found : TomlError}
    (h : back.findSome? refuse = some found) :
    RefusesLike value back ↔ found.said = (⟨invalidType value, some 0⟩ : TomlError).said := by
  constructor
  · rintro ⟨skipped, entry, rest, rfl, hskipped, hkey, hstr, halike, hplace⟩
    have hnone : skipped.findSome? refuse = none :=
      List.findSome?_eq_none_iff.mpr fun other hother => refuse_eq_none.mpr (hskipped other hother)
    have hrefuse : refuse entry = some ⟨invalidType entry.value, entry.span⟩ := by
      rw [refuse, if_neg (not_not_intro hkey), hstr]
      rfl
    rw [List.findSome?_append, hnone, Option.none_or, List.findSome?_cons, hrefuse] at h
    cases h
    rw [TomlError.said, TomlError.said, Prod.mk.injEq]
    exact ⟨alike_iff.mpr halike, hplace⟩
  · intro hsaid
    obtain ⟨skipped, entry, rest, hback, hrefuse, hskipped⟩ := List.findSome?_eq_some_iff.mp h
    rw [TomlError.said, TomlError.said, Prod.mk.injEq] at hsaid
    rw [refuse] at hrefuse
    split at hrefuse
    · cases hrefuse
      exact absurd hsaid.1 (unknownField_ne entry.key value)
    · next hkey =>
      split at hrefuse
      · cases hrefuse
      · next hstr =>
        cases hrefuse
        refine ⟨skipped, entry, rest, hback, ?_, not_not.mp hkey, Bool.not_eq_true _ ▸ hstr,
          alike_iff.mp hsaid.1, hsaid.2⟩
        exact fun other hother => refuse_eq_none.mp (hskipped other hother)

end

/-! ## A library for one key -/

/-- It reads a document whose one line gives a number to the token. -/
def readNumber (text : List Char) : Except TomlError (List Entry) :=
  if text.take 18 = "bootstrap_token = ".toList then
    match parseUnsigned 63 (text.drop 18) with
    | some n => .ok [⟨"bootstrap_token", some 0, .int n, some 18⟩]
    | none => .error ⟨"unsupported".toList, none⟩
  else .error ⟨"unsupported".toList, none⟩

def numbers : Library where
  read := readNumber
  scalar text := (parseUnsigned 63 text).map fun n : Nat => Toml.int n

theorem numbers_fills : Fills numbers "bootstrap_token = ".toList [] (.entries [] []) := by
  intro token
  obtain ⟨n, hn, hvalue⟩ := Option.map_eq_some_iff.mp token.reads
  have hlen : "bootstrap_token = ".toList.length = 18 := by decide
  have htake : ("bootstrap_token = ".toList ++ token.text).take 18 = "bootstrap_token = ".toList := by
    rw [← hlen, List.take_left]
  have hdrop : ("bootstrap_token = ".toList ++ token.text).drop 18 = token.text := by
    rw [← hlen, List.drop_left]
  refine ⟨[⟨"bootstrap_token", some 0, .int n, some 18⟩], ?_, ?_⟩
  · rw [List.append_nil]
    show readNumber ("bootstrap_token = ".toList ++ token.text) = _
    rw [readNumber, if_pos htake, hdrop, hn]
  · rw [← hvalue]
    rfl

theorem scalar_number {text : List Char} {n : Nat} (h : parseUnsigned 63 text = some n) :
    numbers.scalar text = some (.int n) := congrArg (Option.map fun n : Nat => Toml.int n) h

def smallToken : Scalar numbers := ⟨"123".toList, .int 123, scalar_number (by decide +kernel), rfl⟩

def largeToken : Scalar numbers := ⟨"456".toList, .int 456, scalar_number (by decide +kernel), rfl⟩

def numberError (reason : String) : ConfigError := ⟨"node.toml", reason.toList, some (1, 19)⟩

theorem numbers_refused :
    parseFileConfig numbers "node.toml" ("bootstrap_token = ".toList ++ smallToken.text ++ []) =
        .error (numberError "invalid type: integer `123`, expected a string") ∧
      parseFileConfig numbers "node.toml" ("bootstrap_token = ".toList ++ largeToken.text ++ []) =
        .error (numberError "invalid type: integer `456`, expected a string") := by
  constructor <;> decide +kernel

end Novbot.Config.File
