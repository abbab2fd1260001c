import Mathlib.Data.List.Sort
import Novbot.Tags.Grammar

/-!
# Selectors in the console

The nodes page of the console turns the selector of its URL into chips and writes it back
(`console/src/tags/selector.ts`).  The regular expressions are read from left to right: what
follows a key or a value in them is no tag character, so that a key is always the whole run.

How `localeCompare` orders texts is a parameter, and nothing depends on it.
-/

namespace Novbot.Console

open Text Tags

inductive FilterOp where
  | eq
  | neq
  | keyExists
  | not
  | isIn
  | notIn
  deriving DecidableEq, Repr

structure FilterChip where
  key : String
  op : FilterOp
  values : List String
  deriving DecidableEq, Repr

def FilterOp.name : FilterOp → String
  | .eq => "eq"
  | .neq => "neq"
  | .keyExists => "exists"
  | .not => "not"
  | .isIn => "in"
  | .notIn => "notin"

/-! ## Text -/

/-- `\s`, which is also what `trim` drops. -/
def isSpace (c : Char) : Bool :=
  (9 ≤ c.toNat && c.toNat ≤ 13) || c.toNat == 0x20 || c.toNat == 0xA0 || c.toNat == 0x1680 ||
    (0x2000 ≤ c.toNat && c.toNat ≤ 0x200A) || c.toNat == 0x2028 || c.toNat == 0x2029 ||
    c.toNat == 0x202F || c.toNat == 0x205F || c.toNat == 0x3000 || c.toNat == 0xFEFF

def trim (cs : List Char) : List Char := trimEndMatches isSpace (cs.dropWhile isSpace)

def trimText (text : String) : String := String.ofList (trim text.toList)

/-- The texts of a `Set` of them, in the order they were added. -/
def distinct : List String → List String → List String
  | _, [] => []
  | seen, value :: values =>
    if value ∈ seen then distinct seen values else value :: distinct (value :: seen) values

section
variable (localeCompare : String → String → Int)

def uniqueSorted (values : List String) : List String :=
  (distinct [] values).insertionSort fun a b => localeCompare a b ≤ 0

/-! ## Chips -/

/-- What `KEY_RE` and `VALUE_RE` accept is what `key_ok` and `value_ok` do. -/
def normalizeChip (chip : FilterChip) : Option FilterChip :=
  let key := trimText chip.key
  let values := uniqueSorted localeCompare ((chip.values.map trimText).filter (· ≠ ""))
  if !keyOk key then none
  else
    match chip.op with
    | .eq | .neq => if values.length = 1 ∧ values.all valueOk then some ⟨key, chip.op, values⟩ else none
    | .isIn | .notIn => if values ≠ [] ∧ values.all valueOk then some ⟨key, chip.op, values⟩ else none
    | .keyExists | .not => if values = [] then some ⟨key, chip.op, []⟩ else none

def chipLabel (chip : FilterChip) : String :=
  let values := uniqueSorted localeCompare chip.values
  match chip.op with
  | .eq => chip.key ++ "=" ++ values.head?.getD ""
  | .neq => chip.key ++ "!=" ++ values.head?.getD ""
  | .keyExists => chip.key
  | .not => "!" ++ chip.key
  | .isIn => chip.key ++ " in (" ++ ",".intercalate values ++ ")"
  | .notIn => chip.key ++ " notin (" ++ ",".intercalate values ++ ")"

/-- The comparison of `canonicalSelector` is not positive. -/
def chipLe (a b : FilterChip) : Bool :=
  let byKey := localeCompare a.key b.key
  if byKey ≠ 0 then byKey ≤ 0 else localeCompare a.op.name b.op.name ≤ 0

def canonicalSelector (chips : List FilterChip) : String :=
  ",".intercalate (((chips.filterMap (normalizeChip localeCompare)).insertionSort
    fun a b => chipLe localeCompare a b).map (chipLabel localeCompare))

def FilterChip.asks (chip : FilterChip) : Bool := chip.op == .eq || chip.op == .isIn

def merged (prev chip : FilterChip) : FilterChip :=
  let values := uniqueSorted localeCompare (prev.values ++ chip.values)
  ⟨chip.key, if 1 < values.length then .isIn else .eq, values⟩

/-- The first chip that asks for values of the key takes those of the new one. -/
def mergeChip (chip : FilterChip) : List FilterChip → List FilterChip
  | [] => [chip]
  | item :: chips =>
    if item.key = chip.key ∧ item.asks then merged localeCompare item chip :: chips
    else item :: mergeChip chip chips

def addChip (chips : List FilterChip) (next : FilterChip) : List FilterChip :=
  match normalizeChip localeCompare next with
  | none => chips
  | some chip => if chip.asks then mergeChip localeCompare chip chips else chips ++ [chip]

/-! ## Parsing -/

/-- A key, and what follows it. -/
def matchKey (part : List Char) : Option (String × List Char) :=
  let key := String.ofList (part.takeWhile isTagChar)
  if keyOk key then some (key, part.dropWhile isTagChar) else none

/-- `\s+`, and what follows. -/
def matchSpaces (cs : List Char) : Option (List Char) :=
  if (cs.takeWhile isSpace) = [] then none else some (cs.dropWhile isSpace)

/-- `(in|notin)`, and what follows. -/
def matchWord (cs : List Char) : Option (FilterOp × List Char) :=
  if "notin".toList.isPrefixOf cs then some (.notIn, cs.drop 5)
  else if "in".toList.isPrefixOf cs then some (.isIn, cs.drop 2)
  else none

/-- `\(([^)]*)\)$`. -/
def matchGroup : List Char → Option (List Char)
  | '(' :: cs => if cs.dropWhile (· ≠ ')') = [')'] then some (cs.takeWhile (· ≠ ')')) else none
  | _ => none

/-- The expression for sets. -/
def matchSet (part : List Char) : Option (String × FilterOp × List Char) := do
  let (key, rest) ← matchKey part
  let (op, rest) ← matchWord (← matchSpaces rest)
  let inner ← matchGroup (← matchSpaces rest)
  return (key, op, inner)

/-- The expressions for a key, an operator and a value. -/
def matchValue (sign : List Char) (part : List Char) : Option (String × String) := do
  let (key, rest) ← matchKey part
  let value := String.ofList (rest.drop sign.length)
  if sign.isPrefixOf rest && valueOk value then some (key, value) else none

def parseRequirement (part : List Char) : Option FilterChip :=
  match matchSet part with
  | some (key, op, inner) =>
    normalizeChip localeCompare
      ⟨key, op, (((split ',' inner).map fun value => String.ofList (trim value)).filter (· ≠ ""))⟩
  | none =>
    match matchValue ['!', '='] part with
    | some (key, value) => some ⟨key, .neq, [value]⟩
    | none =>
      match matchValue ['='] part with
      | some (key, value) => some ⟨key, .eq, [value]⟩
      | none =>
        let key := String.ofList (part.drop 1)
        if part.head? = some '!' && keyOk key then some ⟨key, .not, []⟩
        else if keyOk (String.ofList part) then some ⟨String.ofList part, .keyExists, []⟩
        else none

/-- The loop of `splitRequirements`: the depth of parentheses, the part that is read, and the
text that is left. -/
def splitFrom : Nat → List Char → List Char → List (List Char)
  | _, buf, [] => if trim buf ≠ [] then [buf] else []
  | depth, buf, ch :: text =>
    let depth := if ch = '(' then depth + 1 else if ch = ')' then depth - 1 else depth
    if ch = ',' ∧ depth = 0 then buf :: splitFrom depth [] text
    else splitFrom depth (buf ++ [ch]) text

def splitRequirements (text : List Char) : List (List Char) := splitFrom 0 [] text

/-- The loop of `parseSelector`. -/
def addParts : List FilterChip → List (List Char) → Option (List FilterChip)
  | chips, [] => some chips
  | chips, part :: parts => do
    addParts (addChip localeCompare chips (← parseRequirement localeCompare (trim part))) parts

def parseSelector (raw : List Char) : Option (List FilterChip) :=
  let text := trim raw
  if text = [] ∨ text = ['*'] then some []
  else addParts localeCompare [] (splitRequirements text)

/-! ## The nodes page -/

/-- The selector of the URL once the page has rewritten it. -/
def rewritten (selector : List Char) : List Char :=
  match parseSelector localeCompare selector with
  | none => selector
  | some chips =>
    if selector = [] ∨ selector = ['*'] then selector
    else (canonicalSelector localeCompare chips).toList

end

end Novbot.Console
