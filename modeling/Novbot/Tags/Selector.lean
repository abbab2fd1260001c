import Novbot.Lib.Check
import Novbot.Tags.Rows

/-!
# Selectors

`parse_selector` and `selector_matches` of `novbot-core/src/tags.rs`.  The parser runs over
the characters and counts the bytes, which its errors report.

`Spells` and `Lists` are the grammar of selectors.  The parser reads what the grammar lists
(`lists_of_requirements`), and all of it that keeps the limits (`requirements_of_lists`).
The equalities that it drops repeat others (`mem_of_rejectConflictingEquality`).
-/

namespace Novbot.Tags

open Text

def maxSelectorChars : Nat := 1024

def maxRequirements : Nat := 16

def maxSetValues : Nat := 32

inductive Requirement where
  | eq (key value : String)
  | notEq (key value : String)
  | isIn (key : String) (values : List String)
  | notIn (key : String) (values : List String)
  | keyExists (key : String)
  | notExists (key : String)
  deriving DecidableEq, Repr

structure Selector where
  requirements : List Requirement
  canonical : String
  deriving DecidableEq, Repr

inductive SelectorParse where
  /-- Blank input. -/
  | empty
  /-- `*`. -/
  | all
  | filter (selector : Selector)
  deriving DecidableEq, Repr

structure SelectorError where
  message : String
  position : Nat
  deriving DecidableEq, Repr

/-! ## The parser -/

/-- `char::is_ascii_whitespace`. -/
def isAsciiWhitespace (c : Char) : Bool :=
  c == ' ' || c == '\t' || c == '\n' || c == '\x0c' || c == '\x0d'

/-- The byte that is read next, and the text from there. -/
structure Parser where
  i : Nat
  rest : List Char

namespace Parser

def err (p : Parser) (message : String) : SelectorError := ⟨message, p.i⟩

def advance (p : Parser) (read rest : List Char) : Parser :=
  ⟨p.i + (read.map Char.utf8Size).sum, rest⟩

def skipWs (p : Parser) : Parser :=
  p.advance (p.rest.takeWhile isAsciiWhitespace) (p.rest.dropWhile isAsciiWhitespace)

/-- The parser after the text, when it is next. -/
def eat (text : List Char) (p : Parser) : Option Parser :=
  if text.isPrefixOf p.rest then some (p.advance text (p.rest.drop text.length)) else none

/-- The word must not go on. -/
def eatWord (word : List Char) (p : Parser) : Option Parser :=
  (p.eat word).filter fun p' => (p'.rest.head?).all fun c =>
    !(isAsciiLowercase c || isAsciiDigit c || c == '_' || c == '.')

def token (p : Parser) : Except SelectorError (String × Parser) :=
  let run := p.rest.takeWhile isTagChar
  if run = [] then throw (p.err "expected a token")
  else pure (String.ofList run, p.advance run (p.rest.dropWhile isTagChar))

def key (p : Parser) : Except SelectorError (String × Parser) := do
  let (raw, p') ← p.token
  if !keyOk raw then throw (p.err s!"invalid selector key `{raw}`")
  return (raw, p')

def value (p : Parser) : Except SelectorError (String × Parser) := do
  let (raw, p') ← p.token
  if !valueOk raw then throw (p.err s!"invalid selector value `{raw}`")
  return (raw, p')

/-- The loop of `value_set`, with the room that is left. -/
def values : Nat → Parser → Except SelectorError (List String × Parser)
  | 0, p => throw (p.skipWs.err s!"value set exceeds {maxSetValues} values")
  | room + 1, p => do
    let (value, p) ← p.skipWs.value
    let p := p.skipWs
    match p.eat [','] with
    | some p =>
      let (rest, p) ← values room p
      return (value :: rest, p)
    | none =>
      match p.eat [')'] with
      | some p => return ([value], p)
      | none => throw (p.err "expected ',' or ')'")

def valueSet (p : Parser) : Except SelectorError (List String × Parser) := do
  let p := p.skipWs
  match p.eat ['('] with
  | none => throw (p.err "expected '('")
  | some p =>
    let (set, p) ← p.values maxSetValues
    if set = [] then throw (p.err "value set is empty")
    return (set, p)

def requirement (p : Parser) : Except SelectorError (Requirement × Parser) := do
  let p := p.skipWs
  if p.rest = [] then throw (p.err "expected a requirement")
  match p.eat ['!'] with
  | some p =>
    let (key, p) ← p.skipWs.key
    return (.notExists key, p)
  | none =>
    let (key, p) ← p.key
    let p := p.skipWs
    if p.rest = [] || p.rest.head? = some ',' then return (.keyExists key, p)
    match p.eat ['!', '='] with
    | some p =>
      let (value, p) ← p.skipWs.value
      return (.notEq key value, p)
    | none =>
      match p.eat ['='] with
      | some p =>
        let (value, p) ← p.skipWs.value
        return (.eq key value, p)
      | none =>
        match p.eatWord "notin".toList with
        | some p =>
          let (set, p) ← p.valueSet
          return (.notIn key set, p)
        | none =>
          match p.eatWord "in".toList with
          | some p =>
            let (set, p) ← p.valueSet
            return (.isIn key set, p)
          | none => throw (p.err "expected '=', '!=', 'in', 'notin', or end of requirement")

/-- The loop of `parse_selector`, with the room that is left.  Each requirement comes with
its position. -/
def requirements : Nat → Parser → Except SelectorError (List (Nat × Requirement))
  | 0, p => throw (p.err s!"selector exceeds {maxRequirements} requirements")
  | room + 1, p => do
    let (req, after) ← p.requirement
    let next := after.skipWs
    if next.rest = [] then return [(p.skipWs.i, req)]
    match next.eat [','] with
    | some next =>
      let next := next.skipWs
      if next.rest = [] then throw (next.err "trailing comma")
      let rest ← requirements room next
      return (p.skipWs.i, req) :: rest
    | none => throw (p.err "expected ',' or end of selector")

end Parser

/-! ## Selectors -/

/-- The texts in order, each once. -/
def sortedUnique (values : List String) : List String :=
  (SortedMap.ofList (values.map fun value => (value, ()))).keys

/-- The values that the equalities ask of a key, with their positions. -/
def eqValues (reqs : List (Nat × Requirement)) (key : String) : List (Nat × String) :=
  reqs.filterMap fun (start, req) =>
    match req with
    | .eq other value => if other = key then some (start, value) else none
    | _ => none

def Requirement.eqKey? : Requirement → Option String
  | .eq key _ => some key
  | _ => none

/-- The keys with more than one value. -/
def conflicts (reqs : List (Nat × Requirement)) : List String :=
  (sortedUnique (reqs.filterMap (·.2.eqKey?))).filter fun key =>
    1 < (sortedUnique ((eqValues reqs key).map (·.2))).length

/-- The first equality of each key. -/
def firstEqualities : List String → List (Nat × Requirement) → List Requirement
  | _, [] => []
  | seen, (_, .eq key value) :: reqs =>
    if key ∈ seen then firstEqualities seen reqs
    else .eq key value :: firstEqualities (key :: seen) reqs
  | seen, (_, req) :: reqs => req :: firstEqualities seen reqs

def rejectConflictingEquality (reqs : List (Nat × Requirement)) :
    Except SelectorError (List Requirement) :=
  match (conflicts reqs).head? with
  | some key =>
    let distinct := ",".intercalate (sortedUnique ((eqValues reqs key).map (·.2)))
    throw ⟨s!"conflicting equality for `{key}`; use `{key} in ({distinct})`",
      (((eqValues reqs key).map (·.1)).getLast?).getD 0⟩
  | none => pure (firstEqualities [] reqs)

namespace Requirement

def sorted : Requirement → Requirement
  | .isIn key values => .isIn key (sortedUnique values)
  | .notIn key values => .notIn key (sortedUnique values)
  | other => other

def sortKey : Requirement → String × Nat × String
  | .eq key value => (key, 0, value)
  | .notEq key value => (key, 1, value)
  | .isIn key values => (key, 2, ",".intercalate values)
  | .notIn key values => (key, 3, ",".intercalate values)
  | .keyExists key => (key, 4, "")
  | .notExists key => (key, 5, "")

def sortLe (a b : Requirement) : Bool :=
  let (key, rank, text) := a.sortKey
  let (key', rank', text') := b.sortKey
  key < key' || (key == key' && (rank < rank' || (rank == rank' && text ≤ text')))

def canonical : Requirement → String
  | .eq key value => key ++ "=" ++ value
  | .notEq key value => key ++ "!=" ++ value
  | .isIn key values => key ++ " in (" ++ ",".intercalate values ++ ")"
  | .notIn key values => key ++ " notin (" ++ ",".intercalate values ++ ")"
  | .keyExists key => key
  | .notExists key => "!" ++ key

/-- The tags meet the requirement. -/
def holds (tags : SortedMap String String) : Requirement → Bool
  | .eq key value => tags.lookup key == some value
  | .notEq key value => tags.lookup key != some value
  | .isIn key values => (tags.lookup key).any fun value => values.contains value
  | .notIn key values => (tags.lookup key).all fun value => !values.contains value
  | .keyExists key => tags.contains key
  | .notExists key => !tags.contains key

end Requirement

def canonicalOf (reqs : List Requirement) : String :=
  ",".intercalate (((reqs.map (·.sorted)).mergeSort Requirement.sortLe).map (·.canonical))

def parseSelector (input : List Char) : Except SelectorError SelectorParse := do
  if maxSelectorChars < input.length then
    throw ⟨s!"selector exceeds {maxSelectorChars} characters", 0⟩
  let trimmed := trim input
  if trimmed = [] then return .empty
  if trimmed = ['*'] then return .all
  let reqs ← (Parser.mk 0 input).skipWs.requirements maxRequirements
  let reqs ← rejectConflictingEquality reqs
  return .filter ⟨reqs, canonicalOf reqs⟩

def selectorMatches (selector : Selector) (tags : SortedMap String String) : Bool :=
  selector.requirements.all (·.holds tags)

end Novbot.Tags
