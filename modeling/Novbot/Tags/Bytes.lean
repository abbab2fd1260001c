import Novbot.Lib.Slice
import Novbot.Tags.Canonical

/-!
# The selector parser on bytes

The parser of `novbot-core/src/tags.rs` as it stands there, over the input and a byte offset.
It slices the input at the offset it has reached, which panics inside a character, and tests
for single bytes.

Each part of it does what the parser over characters does (`Simulates`): it never panics, it
stays where a character starts (`At`), and its errors point there.
-/

namespace Novbot.Tags

open Text

/-- A computation that may panic (`none`) or fail. -/
abbrev Run (α : Type) := ExceptT SelectorError Option α

namespace Bytes

variable (input : List Char)

def err (i : Nat) (message : String) : SelectorError := ⟨message, i⟩

/-- `eof`. -/
def atEnd (i : Nat) : Bool := byteLen input ≤ i

def rest (i : Nat) : Run (List Char) := ExceptT.lift (sliceFrom i input)

theorem advance_le {i : Nat} {c : Char} {cs : List Char} (h : sliceFrom i input = some (c :: cs)) :
    i < i + c.utf8Size ∧ i + c.utf8Size ≤ byteLen input := by
  obtain ⟨a, rfl, rfl⟩ := sliceFrom_eq_some_iff.mp h
  have hpos := c.utf8Size_pos
  rw [byteLen_append, byteLen_cons]
  omega

def skipWs (i : Nat) : Run Nat :=
  match _h : sliceFrom i input with
  | none => ExceptT.lift none
  | some [] => pure i
  | some (c :: _) => if isAsciiWhitespace c then skipWs (i + c.utf8Size) else pure i
termination_by byteLen input - i
decreasing_by
  have hle := advance_le input _h
  omega

/-- The offset after the byte, when it is next. -/
def eat (byte : Char) (i : Nat) : Run (Option Nat) := do
  let rest ← rest input i
  return if (utf8 rest).head? = some (UInt8.ofNat byte.toNat) then some (i + 1) else none

def eatWord (word : List Char) (i : Nat) : Run (Option Nat) := do
  let rest ← rest input i
  if !word.isPrefixOf rest then return none
  let after ← ExceptT.lift (sliceFrom (byteLen word) rest)
  if after.head?.any fun c => isAsciiLowercase c || isAsciiDigit c || c == '_' || c == '.' then
    return none
  return some (i + byteLen word)

def token (i : Nat) : Run (String × Nat) := do
  let rest ← rest input i
  let stop := byteLen (rest.takeWhile isTagChar)
  if stop = 0 then throw (err i "expected a token")
  let raw ← ExceptT.lift ((sliceFrom i input).bind (sliceTo stop))
  return (String.ofList raw, i + stop)

def key (i : Nat) : Run (String × Nat) := do
  let (raw, next) ← token input i
  if !keyOk raw then throw (err i s!"invalid selector key `{raw}`")
  return (raw, next)

def value (i : Nat) : Run (String × Nat) := do
  let (raw, next) ← token input i
  if !valueOk raw then throw (err i s!"invalid selector value `{raw}`")
  return (raw, next)

/-- The loop of `value_set`, with the room that is left. -/
def values : Nat → Nat → Run (List String × Nat)
  | 0, i => do
    let i ← skipWs input i
    throw (err i s!"value set exceeds {maxSetValues} values")
  | room + 1, i => do
    let i ← skipWs input i
    let (value, i) ← value input i
    let i ← skipWs input i
    match (← eat input ',' i) with
    | some i =>
      let (rest, i) ← values room i
      return (value :: rest, i)
    | none =>
      match (← eat input ')' i) with
      | some i => return ([value], i)
      | none => throw (err i "expected ',' or ')'")

def valueSet (i : Nat) : Run (List String × Nat) := do
  let i ← skipWs input i
  match (← eat input '(' i) with
  | none => throw (err i "expected '('")
  | some i =>
    let (set, i) ← values input maxSetValues i
    if set = [] then throw (err i "value set is empty")
    return (set, i)

/-- The requirement with its position. -/
def requirement (i : Nat) : Run ((Nat × Requirement) × Nat) := do
  let start ← skipWs input i
  if atEnd input start then throw (err start "expected a requirement")
  match (← eat input '!' start) with
  | some i =>
    let i ← skipWs input i
    let (key, i) ← key input i
    return ((start, .notExists key), i)
  | none =>
    let (key, i) ← key input start
    let i ← skipWs input i
    let rest ← rest input i
    if atEnd input i || [','].isPrefixOf rest then return ((start, .keyExists key), i)
    if ['!', '='].isPrefixOf rest then
      let i ← skipWs input (i + 2)
      let (value, i) ← value input i
      return ((start, .notEq key value), i)
    match (← eat input '=' i) with
    | some i =>
      let i ← skipWs input i
      let (value, i) ← value input i
      return ((start, .eq key value), i)
    | none =>
      match (← eatWord input "notin".toList i) with
      | some i =>
        let (set, i) ← valueSet input i
        return ((start, .notIn key set), i)
      | none =>
        match (← eatWord input "in".toList i) with
        | some i =>
          let (set, i) ← valueSet input i
          return ((start, .isIn key set), i)
        | none => throw (err i "expected '=', '!=', 'in', 'notin', or end of requirement")

/-- The loop of `parse_selector`, with the room that is left. -/
def requirements : Nat → Nat → Run (List (Nat × Requirement))
  | 0, i => throw (err i s!"selector exceeds {maxRequirements} requirements")
  | room + 1, i => do
    let (parsed, next) ← requirement input i
    let next ← skipWs input next
    if atEnd input next then return [parsed]
    match (← eat input ',' next) with
    | some next =>
      let next ← skipWs input next
      if atEnd input next then throw (err next "trailing comma")
      let rest ← requirements room next
      return parsed :: rest
    | none => throw (err i "expected ',' or end of selector")

def parseSelector : Run SelectorParse := do
  if maxSelectorChars < input.length then
    throw ⟨s!"selector exceeds {maxSelectorChars} characters", 0⟩
  let trimmed := trim input
  if trimmed = [] then return .empty
  if trimmed = ['*'] then return .all
  -- `trim_start_index`.
  let start := byteLen (input.takeWhile isAsciiWhitespace)
  let reqs ← requirements input maxRequirements start
  let reqs ← ExceptT.mk (some (rejectConflictingEquality reqs))
  return .filter ⟨reqs, canonicalOf reqs⟩

/-! ## Simulation -/

/-- The parser is where a character starts. -/
def At (p : Parser) : Prop := sliceFrom p.i input = some p.rest

/-- The computation over bytes does what the one over characters does. -/
def Simulates {α β : Type} (r : α → β → Prop) (run : Run α) (spec : Except SelectorError β) : Prop :=
  match spec with
  | .ok b => ∃ a, run = pure a ∧ r a b
  | .error e => run = throw e ∧ OnBoundary input e.position

/-- Both have read the same, and the offset is that of the parser. -/
def Reads {α : Type} (read : α × Nat) (spec : α × Parser) : Prop :=
  read.1 = spec.1 ∧ read.2 = spec.2.i ∧ At input spec.2

/-- A requirement that is read comes with the place where it starts. -/
def Placed (start : Nat) (read : (Nat × Requirement) × Nat) (spec : Requirement × Parser) : Prop :=
  read.1 = (start, spec.1) ∧ read.2 = spec.2.i ∧ At input spec.2

/-- Requirements with the places where they start. -/
def AllPlaced (read spec : List (Nat × Requirement)) : Prop :=
  read = spec ∧ ∀ entry ∈ spec, OnBoundary input entry.1

variable {input} {p p' : Parser} {α β γ δ : Type} {r : α → β → Prop} {s : γ → δ → Prop}

theorem Simulates.bind {run : Run α} {spec : Except SelectorError β} {f : α → Run γ}
    {g : β → Except SelectorError δ} (h : Simulates input r run spec)
    (hrest : ∀ a b, r a b → Simulates input s (f a) (g b)) :
    Simulates input s (run >>= f) (spec >>= g) := by
  cases spec with
  | ok b =>
    obtain ⟨a, rfl, hab⟩ := h
    exact hrest a b hab
  | error e =>
    obtain ⟨rfl, hposition⟩ := h
    exact ⟨rfl, hposition⟩

/-- What is read leaves both at one place. -/
theorem Simulates.read {run : Run (α × Nat)} {spec : Except SelectorError (α × Parser)}
    {f : α × Nat → Run γ} {g : α × Parser → Except SelectorError δ}
    (h : Simulates input (Reads input) run spec)
    (hrest : ∀ a p, At input p → Simulates input s (f (a, p.i)) (g (a, p))) :
    Simulates input s (run >>= f) (spec >>= g) := by
  refine h.bind fun read spec hreads => ?_
  obtain ⟨a, i⟩ := read
  obtain ⟨b, p⟩ := spec
  obtain ⟨hvalue, hoffset, hat⟩ := hreads
  cases hvalue
  cases hoffset
  exact hrest a p hat

theorem At.boundary (h : At input p) : OnBoundary input p.i := ⟨_, h⟩

theorem At.advance {read rest : List Char} (h : At input p) (hrest : p.rest = read ++ rest) :
    At input (p.advance read rest) := by
  rw [At, hrest] at h
  exact sliceFrom_advance h

theorem At.skipWs (h : At input p) : At input p.skipWs :=
  h.advance List.takeWhile_append_dropWhile.symm

theorem rest_eq (h : At input p) : rest input p.i = pure p.rest := by
  rw [rest, h]
  rfl

theorem atEnd_eq (h : At input p) : atEnd input p.i = true ↔ p.rest = [] := by
  rw [atEnd, decide_eq_true_eq, sliceFrom_eq_nil_iff h]

theorem skipWs_eq (h : At input p) : skipWs input p.i = pure p.skipWs.i := by
  obtain ⟨i, rest⟩ := p
  induction rest generalizing i with
  | nil =>
    rw [skipWs]
    split
    · next hnone => cases h.symm.trans hnone
    · rfl
    · next hcons => cases h.symm.trans hcons
  | cons c rest ih =>
    rw [skipWs]
    split
    · next hnone => cases h.symm.trans hnone
    · next hnil => cases h.symm.trans hnil
    · next c' rest' hcons =>
      cases h.symm.trans hcons
      cases hws : isAsciiWhitespace c with
      | false => simp [Parser.skipWs, Parser.advance, hws]
      | true =>
        have hnext : At input ⟨i + c.utf8Size, rest⟩ := by
          have hadvance : At input (Parser.advance ⟨i, c :: rest⟩ [c] rest) := h.advance rfl
          simpa [Parser.advance] using hadvance
        rw [if_pos rfl, ih _ hnext]
        simp [Parser.skipWs, Parser.advance, hws, Nat.add_assoc]

theorem At.eat {text : List Char} (h : At input p) (heat : p.eat text = some p') : At input p' := by
  rw [Parser.eat] at heat
  split at heat
  · next hprefix =>
    cases heat
    exact h.advance (List.prefix_iff_eq_append.mp (List.isPrefixOf_iff_prefix.mp hprefix)).symm
  · cases heat

theorem prefix_iff {c : Char} {rest : List Char} :
    [c].isPrefixOf rest = true ↔ rest.head? = some c := by
  cases rest with
  | nil => simp
  | cons d rest => simpa [List.isPrefixOf] using eq_comm

theorem eat_eq {c : Char} (hc : c.toNat < 0x80) (h : At input p) :
    eat input c p.i = pure ((p.eat [c]).map (·.i)) := by
  rw [eat, rest_eq h, Parser.eat, pure_bind, if_congr ((head?_utf8 hc).trans prefix_iff.symm) rfl rfl]
  split
  · show pure (some (p.i + 1)) = pure (some (p.i + ([c].map Char.utf8Size).sum))
    rw [List.map_singleton, List.sum_singleton, utf8Size_ascii hc]
  · rfl

theorem eatWord_eq {word : List Char} (h : At input p) :
    eatWord input word p.i = pure ((p.eatWord word).map (·.i)) := by
  rw [eatWord, rest_eq h, Parser.eatWord, Parser.eat]
  simp only [pure_bind]
  split
  · next hno =>
    rw [if_neg fun hyes => by rw [hyes] at hno; cases hno]
    rfl
  · next hyes =>
    have hprefix : word.isPrefixOf p.rest = true := by simpa using hyes
    obtain ⟨tail, htail⟩ := List.isPrefixOf_iff_prefix.mp hprefix
    have hdrop : p.rest.drop word.length = tail := by rw [← htail, List.drop_left]
    have hslice : sliceFrom (byteLen word) p.rest = some tail := by
      rw [← htail]
      exact sliceFrom_append word tail
    have hafter : ((p.advance word tail).rest.head?).all (fun c =>
        !(isAsciiLowercase c || isAsciiDigit c || c == '_' || c == '.')) =
          !(tail.head?).any fun c =>
            isAsciiLowercase c || isAsciiDigit c || c == '_' || c == '.' := by
      rw [Parser.advance]
      cases tail.head? <;> rfl
    have hlift : (ExceptT.lift (some tail) : Run (List Char)) = pure tail := rfl
    rw [if_pos hprefix, hslice, hdrop, Option.filter_some, hafter, hlift, pure_bind]
    cases tail.head?.any fun c => isAsciiLowercase c || isAsciiDigit c || c == '_' || c == '.' with
    | true => rfl
    | false => rfl

theorem token_sim (h : At input p) : Simulates input (Reads input) (token input p.i) p.token := by
  have hrun := h.advance (List.takeWhile_append_dropWhile (p := isTagChar) (l := p.rest)).symm
  rw [token, rest_eq h, Parser.token]
  have hslice : (sliceFrom p.i input).bind (sliceTo (byteLen (p.rest.takeWhile isTagChar))) =
      some (p.rest.takeWhile isTagChar) := by
    have hto := sliceTo_append (p.rest.takeWhile isTagChar) (p.rest.dropWhile isTagChar)
    rw [List.takeWhile_append_dropWhile] at hto
    rw [h, Option.bind_some, hto]
  have hempty : byteLen (p.rest.takeWhile isTagChar) = 0 ↔ p.rest.takeWhile isTagChar = [] := by
    cases p.rest.takeWhile isTagChar with
    | nil => simp [byteLen]
    | cons c run =>
      have hpos := c.utf8Size_pos
      rw [byteLen_cons]
      exact iff_of_false (by omega) (List.cons_ne_nil _ _)
  simp only [pure_bind, hslice]
  by_cases hnil : p.rest.takeWhile isTagChar = []
  · rw [if_pos (hempty.mpr hnil), if_pos hnil]
    exact ⟨rfl, h.boundary⟩
  · rw [if_neg (fun h0 => hnil (hempty.mp h0)), if_neg hnil]
    exact ⟨_, rfl, rfl, rfl, hrun⟩

theorem key_sim (h : At input p) : Simulates input (Reads input) (key input p.i) p.key := by
  refine (token_sim h).read fun raw next hnext => ?_
  dsimp only
  cases hok : keyOk raw with
  | true => exact ⟨_, rfl, rfl, rfl, hnext⟩
  | false => exact ⟨rfl, h.boundary⟩

theorem value_sim (h : At input p) : Simulates input (Reads input) (value input p.i) p.value := by
  refine (token_sim h).read fun raw next hnext => ?_
  dsimp only
  cases hok : valueOk raw with
  | true => exact ⟨_, rfl, rfl, rfl, hnext⟩
  | false => exact ⟨rfl, h.boundary⟩

theorem values_sim {room : Nat} (h : At input p) :
    Simulates input (Reads input) (values input room p.i) (p.values room) := by
  induction room generalizing p with
  | zero =>
    rw [values, skipWs_eq h, pure_bind]
    exact ⟨rfl, h.skipWs.boundary⟩
  | succ room ih =>
    rw [values, skipWs_eq h, pure_bind, Parser.values]
    refine (value_sim h.skipWs).read fun value next hnext => ?_
    dsimp only
    rw [skipWs_eq hnext, pure_bind, eat_eq (by decide) hnext.skipWs, pure_bind]
    cases hcomma : next.skipWs.eat [','] with
    | some more =>
      refine (ih (hnext.skipWs.eat hcomma)).read fun rest last hlast => ?_
      exact ⟨_, rfl, rfl, rfl, hlast⟩
    | none =>
      dsimp only [Option.map_none]
      rw [eat_eq (by decide) hnext.skipWs, pure_bind]
      cases hclose : next.skipWs.eat [')'] with
      | some last => exact ⟨_, rfl, rfl, rfl, hnext.skipWs.eat hclose⟩
      | none => exact ⟨rfl, hnext.skipWs.boundary⟩

theorem valueSet_sim (h : At input p) :
    Simulates input (Reads input) (valueSet input p.i) p.valueSet := by
  rw [valueSet, skipWs_eq h, pure_bind, eat_eq (by decide) h.skipWs, pure_bind, Parser.valueSet]
  dsimp only
  cases hopen : p.skipWs.eat ['('] with
  | none => exact ⟨rfl, h.skipWs.boundary⟩
  | some next =>
    have hnext := h.skipWs.eat hopen
    refine (values_sim hnext).read fun set last hlast => ?_
    dsimp only
    by_cases hset : set = []
    · rw [if_pos hset, if_pos hset]
      exact ⟨rfl, hlast.boundary⟩
    · rw [if_neg hset, if_neg hset]
      exact ⟨_, rfl, rfl, rfl, hlast⟩

theorem requirement_sim (h : At input p) :
    Simulates input (Placed input p.skipWs.i) (requirement input p.i) p.requirement := by
  have hstart := h.skipWs
  rw [requirement, skipWs_eq h, pure_bind, Parser.requirement]
  dsimp only
  by_cases hend : p.skipWs.rest = []
  · rw [if_pos ((atEnd_eq hstart).mpr hend), if_pos hend]
    exact ⟨rfl, hstart.boundary⟩
  · rw [if_neg fun hyes => hend ((atEnd_eq hstart).mp hyes), if_neg hend,
      eat_eq (by decide) hstart, pure_bind]
    cases hbang : p.skipWs.eat ['!'] with
    | some next =>
      have hnext := hstart.eat hbang
      dsimp only [Option.map_some]
      rw [skipWs_eq hnext, pure_bind]
      exact (key_sim hnext.skipWs).read fun key last hlast => ⟨_, rfl, rfl, rfl, hlast⟩
    | none =>
      refine (key_sim hstart).read fun key next hnext => ?_
      have hafter := hnext.skipWs
      dsimp only
      rw [skipWs_eq hnext, pure_bind, rest_eq hafter, pure_bind]
      have hlast : (atEnd input next.skipWs.i || [','].isPrefixOf next.skipWs.rest) =
          (decide (next.skipWs.rest = []) || decide (next.skipWs.rest.head? = some ',')) := by
        rw [Bool.eq_iff_iff, Bool.or_eq_true, Bool.or_eq_true, atEnd_eq hafter, prefix_iff,
          decide_eq_true_eq, decide_eq_true_eq]
      rw [hlast]
      split
      · exact ⟨_, rfl, rfl, rfl, hafter⟩
      · cases hne : next.skipWs.eat ['!', '='] with
        | some more =>
          have hmore := hafter.eat hne
          rw [Parser.eat] at hne
          obtain ⟨hpre, hne⟩ := Option.ite_none_right_eq_some.mp hne
          have hoffset : next.skipWs.i + 2 = more.i := by
            cases hne
            rfl
          rw [if_pos hpre, hoffset]
          dsimp only
          rw [skipWs_eq hmore, pure_bind]
          exact (value_sim hmore.skipWs).read fun value last hlast => ⟨_, rfl, rfl, rfl, hlast⟩
        | none =>
          have hpre : ¬ ['!', '='].isPrefixOf next.skipWs.rest = true := fun hyes => by
            rw [Parser.eat, if_pos hyes] at hne
            cases hne
          rw [if_neg hpre, eat_eq (by decide) hafter, pure_bind]
          dsimp only
          cases heq : next.skipWs.eat ['='] with
          | some more =>
            have hmore := hafter.eat heq
            dsimp only [Option.map_some]
            rw [skipWs_eq hmore, pure_bind]
            exact (value_sim hmore.skipWs).read fun value last hlast => ⟨_, rfl, rfl, rfl, hlast⟩
          | none =>
            dsimp only [Option.map_none]
            rw [eatWord_eq hafter, pure_bind]
            cases hnotin : next.skipWs.eatWord "notin".toList with
            | some more =>
              have hmore := hafter.eat (Option.filter_eq_some_iff.mp hnotin).1
              exact (valueSet_sim hmore).read fun set last hlast => ⟨_, rfl, rfl, rfl, hlast⟩
            | none =>
              dsimp only [Option.map_none]
              rw [eatWord_eq hafter, pure_bind]
              cases hin : next.skipWs.eatWord "in".toList with
              | some more =>
                have hmore := hafter.eat (Option.filter_eq_some_iff.mp hin).1
                exact (valueSet_sim hmore).read fun set last hlast => ⟨_, rfl, rfl, rfl, hlast⟩
              | none => exact ⟨rfl, hafter.boundary⟩

theorem requirements_sim {room : Nat} (h : At input p) :
    Simulates input (AllPlaced input) (requirements input room p.i) (p.requirements room) := by
  induction room generalizing p with
  | zero => exact ⟨rfl, h.boundary⟩
  | succ room ih =>
    rw [requirements, Parser.requirements]
    refine (requirement_sim h).bind fun read spec hplaced => ?_
    obtain ⟨parsed, i⟩ := read
    obtain ⟨req, after⟩ := spec
    obtain ⟨hparsed, hoffset, hafter⟩ := hplaced
    cases hparsed
    cases hoffset
    have hnext := hafter.skipWs
    have hhere : OnBoundary input p.skipWs.i := h.skipWs.boundary
    dsimp only
    rw [skipWs_eq hafter, pure_bind]
    by_cases hend : after.skipWs.rest = []
    · rw [if_pos ((atEnd_eq hnext).mpr hend), if_pos hend]
      exact ⟨_, rfl, rfl, by simpa using hhere⟩
    · rw [if_neg fun hyes => hend ((atEnd_eq hnext).mp hyes), if_neg hend,
        eat_eq (by decide) hnext, pure_bind]
      cases hcomma : after.skipWs.eat [','] with
      | none => exact ⟨rfl, h.boundary⟩
      | some more =>
        have hmore := hnext.eat hcomma
        dsimp only [Option.map_some]
        rw [skipWs_eq hmore, pure_bind]
        by_cases hlast : more.skipWs.rest = []
        · rw [if_pos ((atEnd_eq hmore.skipWs).mpr hlast), if_pos hlast]
          exact ⟨rfl, hmore.skipWs.boundary⟩
        · rw [if_neg fun hyes => hlast ((atEnd_eq hmore.skipWs).mp hyes), if_neg hlast]
          refine (ih hmore.skipWs).bind fun read spec hall => ?_
          obtain ⟨rfl, hspec⟩ := hall
          exact ⟨_, rfl, rfl, List.forall_mem_cons.mpr ⟨hhere, hspec⟩⟩

/-- The error of a conflict is where an equality starts. -/
theorem conflict_boundary {read : List (Nat × Requirement)} {e : SelectorError}
    (hread : ∀ entry ∈ read, OnBoundary input entry.1)
    (h : rejectConflictingEquality read = .error e) : OnBoundary input e.position := by
  rw [rejectConflictingEquality] at h
  split at h
  · next key hkey =>
    cases h
    cases hlast : ((eqValues read key).map (·.1)).getLast? with
    | none => exact onBoundary_zero input
    | some start =>
      obtain ⟨⟨_, value⟩, hvalue, rfl⟩ := List.mem_map.mp (List.mem_of_getLast? hlast)
      obtain ⟨⟨start, req⟩, hreq, hfound⟩ := List.mem_filterMap.mp hvalue
      cases req with
      | eq other value =>
        obtain ⟨-, hfound⟩ := Option.ite_none_right_eq_some.mp hfound
        cases hfound
        exact hread _ hreq
      | _ => cases hfound
  · cases h

/-- The parser over bytes does not panic. -/
theorem parseSelector_sim (input : List Char) :
    Simulates input Eq (parseSelector input) (Tags.parseSelector input) := by
  have hzero := onBoundary_zero input
  rw [parseSelector, Tags.parseSelector]
  split
  · exact ⟨rfl, hzero⟩
  · dsimp only
    split
    · exact ⟨_, rfl, rfl⟩
    · split
      · exact ⟨_, rfl, rfl⟩
      · have hstart : At input (Parser.mk 0 input).skipWs :=
          At.skipWs (p := ⟨0, input⟩) (sliceFrom_zero input)
        have hoffset : byteLen (input.takeWhile isAsciiWhitespace) =
            (Parser.mk 0 input).skipWs.i := (Nat.zero_add _).symm
        rw [hoffset]
        refine (requirements_sim hstart).bind fun read spec hall => ?_
        obtain ⟨rfl, hplaced⟩ := hall
        cases hreject : rejectConflictingEquality read with
        | error e => exact ⟨rfl, conflict_boundary hplaced hreject⟩
        | ok reqs => exact ⟨_, rfl, rfl⟩

end Bytes

/-! ## The parser -/

/-- The parser does not panic, accepts blank text, `*` and the lists of the grammar within the
limits, and places its errors where a character starts. -/
theorem parseSelector_exact (input : List Char) :
    ∃ outcome : Except SelectorError SelectorParse,
      Bytes.parseSelector input = ExceptT.mk (some outcome) ∧
      (outcome = .ok .empty ↔ input.length ≤ maxSelectorChars ∧ trim input = []) ∧
      (outcome = .ok .all ↔ input.length ≤ maxSelectorChars ∧ trim input = ['*']) ∧
      ((∃ selector, outcome = .ok (.filter selector)) ↔ input.length ≤ maxSelectorChars ∧
        ∃ reqs, Lists input reqs ∧ reqs.length ≤ maxRequirements ∧ (∀ req ∈ reqs, req.Fits) ∧
          EqualitiesAgree reqs) ∧
      ∀ e, outcome = .error e →
        e.position ≤ byteLen input ∧ OnBoundary input e.position := by
  have hsim := Bytes.parseSelector_sim input
  refine ⟨parseSelector input, ?_, parseSelector_empty_iff, parseSelector_all_iff, ?_, ?_⟩
  · cases houtcome : parseSelector input with
    | ok parsed =>
      rw [houtcome] at hsim
      obtain ⟨_, hrun, rfl⟩ := hsim
      exact hrun
    | error e =>
      rw [houtcome] at hsim
      exact hsim.1
  · simp only [parseSelector_filter_iff]
    constructor
    · rintro ⟨selector, hlength, reqs, hlists, hcount, hfits, hagree, -⟩
      exact ⟨hlength, reqs, hlists, hcount, hfits, hagree⟩
    · rintro ⟨hlength, reqs, hlists, hcount, hfits, hagree⟩
      exact ⟨_, hlength, reqs, hlists, hcount, hfits, hagree, rfl⟩
  · intro e he
    rw [he] at hsim
    exact ⟨hsim.2.le, hsim.2⟩

/-- Blank text beyond the limit is refused. -/
theorem long_blank_refused : trim (List.replicate 1025 ' ') = [] ∧
    Bytes.parseSelector (List.replicate 1025 ' ') =
      throw ⟨s!"selector exceeds {maxSelectorChars} characters", 0⟩ := by
  constructor
  · have hdrop : (List.replicate 1025 ' ').dropWhile isWhiteSpace = [] :=
      List.dropWhile_eq_nil_iff.mpr fun c hc => by
        rw [List.eq_of_mem_replicate hc]
        rfl
    rw [trim, trimStart, hdrop]
    rfl
  · rw [Bytes.parseSelector, if_pos]
    · rfl
    · rw [List.length_replicate]
      decide

end Novbot.Tags
