import Novbot.Lib.SortedMap
import Mathlib.Data.String.Basic

/-!
# TOML values and their decoding

The value type of TOML documents, with decoders that follow derived serde
deserialization: a struct is decoded from a table by the names of its fields, or
from an array by their order, and keys it does not know are ignored.  Reading
text is a parameter of the developments that use this.

Error texts name what failed.  Their wording is not that of the TOML library.
-/

inductive Toml where
  | str (text : String)
  | int (n : Int)
  | float (text : String)
  | bool (b : Bool)
  | datetime (text : String)
  | arr (items : List Toml)
  | table (members : List (String × Toml))

namespace Toml

variable {α : Type}

/-- Decoding of a value. -/
abbrev Decoder (α : Type) := Toml → Except String α

def string : Decoder String
  | .str text => .ok text
  | _ => .error "expected a string"

/-- An `i64`. -/
def integer : Decoder Int
  | .int n => .ok n
  | _ => .error "expected an integer"

/-- A `u64`. -/
def natural : Decoder Nat
  | .int (.ofNat n) => .ok n
  | _ => .error "expected a non-negative integer"

/-- A `u64` of a document, whose numbers are signed words. -/
def word : Decoder Nat
  | .int (.ofNat n) => if n < 2 ^ 63 then .ok n else .error "number too large"
  | _ => .error "expected a non-negative integer"

def list (decode : Decoder α) : Decoder (List α)
  | .arr items => items.mapM decode
  | _ => .error "expected an array"

theorem list_map {β : Type} {decode : Decoder β} {items : List α} {encode : α → Toml} {f : α → β}
    (h : ∀ item ∈ items, decode (encode item) = .ok (f item)) :
    list decode (.arr (items.map encode)) = .ok (items.map f) := by
  rw [list]
  induction items with
  | nil => rfl
  | cons item items ih =>
    rw [List.map_cons, List.mapM_cons, h item List.mem_cons_self,
      ih fun item hmem => h item (.tail _ hmem)]
    rfl

/-- A map of strings.  A date is a map with one private key. -/
def stringMap : Decoder (SortedMap String String)
  | .table members => do
    let bindings ← members.mapM fun (key, value) => do return (key, ← string value)
    return .ofList bindings
  | .datetime text => .ok (.ofList [("$__toml_private_datetime", text)])
  | _ => .error "expected a table"

/-! ## Structs -/

/-- The fields of a struct that a value has: by name, or by position. -/
def fields (names : List String) : Decoder (String → Option Toml)
  | .table members => .ok fun name => members.lookup name
  | .arr items => .ok fun name => (names.zip items).lookup name
  | .datetime _ => .ok fun _ => none
  | _ => .error "expected a table"

/-- Structs whose first fields are the same find the same values in them. -/
theorem fields_append {shared rest rest' : List String} {value : Toml} {get : String → Option Toml}
    (h : fields (shared ++ rest) value = .ok get) :
    ∃ get', fields (shared ++ rest') value = .ok get' ∧ ∀ name ∈ shared, get' name = get name := by
  cases value with
  | table members =>
    cases h
    exact ⟨_, rfl, fun _ _ => rfl⟩
  | datetime text =>
    cases h
    exact ⟨_, rfl, fun _ _ => rfl⟩
  | arr items =>
    cases h
    refine ⟨_, rfl, fun name hname => ?_⟩
    show ((shared ++ rest').zip items).lookup name = ((shared ++ rest).zip items).lookup name
    induction shared generalizing items with
    | nil => cases hname
    | cons first shared ih =>
      cases items with
      | nil => rfl
      | cons item items =>
        rw [List.cons_append, List.cons_append, List.zip_cons_cons, List.zip_cons_cons,
          List.lookup_cons, List.lookup_cons]
        by_cases heq : name = first
        · rw [heq, beq_self_eq_true]
        · rw [beq_eq_false_iff_ne.mpr heq]
          exact ih items ((List.mem_cons.mp hname).resolve_left heq)
  | _ => cases h

variable (get : String → Option Toml)

def required (name : String) (decode : Decoder α) : Except String α :=
  match get name with
  | some value => decode value
  | none => .error ("missing field " ++ name)

/-- A field of type `Option` with a default. -/
def optional (name : String) (decode : Decoder α) : Except String (Option α) :=
  match get name with
  | some value => (decode value).map some
  | none => .ok none

variable {get} in
theorem optional_map {β : Type} {name : String} {decode : Decoder α} {value : Option β}
    {encode : β → Toml} {f : β → α} (h : get name = value.map encode)
    (hdecode : ∀ x ∈ value, decode (encode x) = .ok (f x)) :
    optional get name decode = .ok (value.map f) := by
  rw [optional.eq_def, h]
  cases value with
  | none => rfl
  | some x =>
    show (decode (encode x)).map some = _
    rw [hdecode x rfl]
    rfl

def orDefault (name : String) (decode : Decoder α) (default : α) : Except String α :=
  match get name with
  | some value => decode value
  | none => .ok default

end Toml
