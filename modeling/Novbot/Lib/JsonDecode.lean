import Novbot.Lib.Json
import Mathlib.Data.List.Basic

/-!
# Decoding JSON values

Decoders that follow derived serde deserialization from a JSON document: a struct is
decoded from an object by the names of its fields, or from an array by their order, and
members it does not know are ignored.  An enumeration without data is decoded from the
name of a variant, or from an object that has it with `null`.

Error texts name what failed.  Their wording is not that of the JSON library.
-/

namespace Json

variable {α : Type}

/-- Decoding of a value. -/
abbrev Decoder (α : Type) := Json → Except String α

def string : Decoder String
  | .str text => .ok text
  | _ => .error "expected a string"

def boolean : Decoder Bool
  | .bool b => .ok b
  | _ => .error "expected a boolean"

def list (decode : Decoder α) : Decoder (List α)
  | .arr items => items.mapM decode
  | _ => .error "expected an array"

/-- `Option<T>`. -/
def nullable (decode : Decoder α) : Decoder (Option α)
  | .null => .ok none
  | value => (decode value).map some

/-- Any value. -/
def any : Decoder Json := .ok

/-- A variant without data. -/
def variant (variants : String → Option α) : Decoder α
  | .str name | .obj [(name, .null)] =>
    match variants name with
    | some found => .ok found
    | none => .error ("unknown variant " ++ name)
  | _ => .error "expected a variant"

/-! ## Structs -/

/-- The fields of a struct that a value has: by name, or by position. -/
def fields (names : List String) : Decoder (String → Option Json)
  | .obj members => .ok fun name => members.lookup name
  | .arr items =>
    if items.length ≤ names.length then .ok fun name => (names.zip items).lookup name
    else .error "too many elements"
  | _ => .error "expected an object"

variable (get : String → Option Json)

def required (name : String) (decode : Decoder α) : Except String α :=
  match get name with
  | some value => decode value
  | none => .error ("missing field " ++ name)

def orDefault (name : String) (decode : Decoder α) (default : α) : Except String α :=
  match get name with
  | some value => decode value
  | none => .ok default

/-! ## What is decoded -/

theorem mapM_isOk_iff {decode : Decoder α} {items : List Json} :
    (items.mapM decode).isOk = true ↔ ∀ item ∈ items, (decode item).isOk = true := by
  induction items with
  | nil => simp [Except.isOk, Except.toBool, pure, Except.pure]
  | cons item items ih =>
    rw [List.forall_mem_cons, ← ih, List.mapM_cons]
    cases decode item with
    | error err => simp [Except.isOk, Except.toBool, bind, Except.bind]
    | ok first =>
      cases items.mapM decode with
      | error err => simp [Except.isOk, Except.toBool, bind, Except.bind]
      | ok rest => simp [Except.isOk, Except.toBool, bind, Except.bind, pure, Except.pure]

/-- Each item of a list is decoded to one of the results, and each result is of an item. -/
theorem mem_mapM_iff {decode : Decoder α} {items : List Json} {results : List α}
    (h : items.mapM decode = .ok results) {result : α} :
    result ∈ results ↔ ∃ item ∈ items, decode item = .ok result := by
  induction items generalizing results with
  | nil =>
    cases h
    simp
  | cons item items ih =>
    rw [List.mapM_cons] at h
    cases hfirst : decode item with
    | error err =>
      rw [hfirst] at h
      cases h
    | ok first =>
      rw [hfirst] at h
      cases hrest : items.mapM decode with
      | error err =>
        rw [hrest] at h
        cases h
      | ok rest =>
        rw [hrest] at h
        cases h
        rw [List.mem_cons, ih hrest, List.exists_mem_cons_iff, hfirst, Except.ok.injEq, eq_comm]

/-- A list is decoded when each of its items is. -/
theorem list_isOk_iff {decode : Decoder α} {value : Json} :
    (list decode value).isOk = true ↔
      ∃ items, value = .arr items ∧ ∀ item ∈ items, (decode item).isOk = true := by
  cases value with
  | arr items =>
    refine mapM_isOk_iff.trans ⟨fun h => ⟨items, rfl, h⟩, ?_⟩
    rintro ⟨_, heq, h⟩
    cases heq
    exact h
  | _ =>
    refine iff_of_false (fun h => by cases h) ?_
    rintro ⟨_, heq, -⟩
    cases heq

end Json
