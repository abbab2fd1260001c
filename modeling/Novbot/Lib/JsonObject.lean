import Novbot.Lib.Json
import Novbot.Lib.SortedMap
import Mathlib.Data.String.Basic

/-!
# Objects, nesting and re-reading

An object as a sorted map (`object`), how deep a value nests (`depth`), and what a
document is after it was printed and read again (`ReadsBack`): a reader gives up past a
depth, and it may round a fraction, so it changes nothing in a value without fractions.
-/

namespace Json

/-! ## Nesting -/

mutual

/-- The levels of arrays and objects. -/
def depth : Json → Nat
  | .arr items => depthItems items + 1
  | .obj members => depthMembers members + 1
  | _ => 0

def depthItems : List Json → Nat
  | [] => 0
  | item :: items => max (depth item) (depthItems items)

def depthMembers : List (String × Json) → Nat
  | [] => 0
  | (_, value) :: members => max (depth value) (depthMembers members)

end

theorem depthItems_le_iff {items : List Json} {n : Nat} :
    depthItems items ≤ n ↔ ∀ item ∈ items, item.depth ≤ n := by
  induction items with
  | nil => simp [depthItems]
  | cons item items ih => simp [depthItems, ih]

theorem depthMembers_le_iff {members : List (String × Json)} {n : Nat} :
    depthMembers members ≤ n ↔ ∀ member ∈ members, member.2.depth ≤ n := by
  induction members with
  | nil => simp [depthMembers]
  | cons member members ih =>
    obtain ⟨key, value⟩ := member
    simp [depthMembers, ih]

theorem depth_arr_le_iff {items : List Json} {n : Nat} :
    (arr items).depth ≤ n + 1 ↔ ∀ item ∈ items, item.depth ≤ n := by
  rw [depth, Nat.add_le_add_iff_right, depthItems_le_iff]

theorem depth_obj_le_iff {members : List (String × Json)} {n : Nat} :
    (obj members).depth ≤ n + 1 ↔ ∀ member ∈ members, member.2.depth ≤ n := by
  rw [depth, Nat.add_le_add_iff_right, depthMembers_le_iff]

/-! ## Objects as maps -/

/-- The object with the members of a map. -/
def object (members : SortedMap String Json) : Json := obj members.entries

@[simp] theorem get_object (key : String) (members : SortedMap String Json) :
    (object members).get key = members.lookup key := rfl

theorem depth_object_le_iff {members : SortedMap String Json} {n : Nat} :
    (object members).depth ≤ n + 1 ↔
      ∀ key value, members.lookup key = some value → value.depth ≤ n := by
  rw [object, depth_obj_le_iff]
  constructor
  · intro h key value hlookup
    exact h (key, value) (SortedMap.lookup_eq_some_iff.mp hlookup)
  · rintro h ⟨key, value⟩ hmember
    exact h key value (SortedMap.lookup_eq_some_iff.mpr hmember)

/-! ## Re-reading -/

section
variable (round : String → String)

mutual

/-- The value with every fraction as it is after `round`. -/
def rounded : Json → Json
  | .null => .null
  | .bool b => .bool b
  | .int n => .int n
  | .float text => .float (round text)
  | .str s => .str s
  | .arr items => .arr (roundedItems items)
  | .obj members => .obj (roundedMembers members)

def roundedItems : List Json → List Json
  | [] => []
  | item :: items => rounded item :: roundedItems items

def roundedMembers : List (String × Json) → List (String × Json)
  | [] => []
  | (key, value) :: members => (key, rounded value) :: roundedMembers members

end

theorem get_rounded_obj (key : String) (members : List (String × Json)) :
    ((obj members).rounded round).get key = ((obj members).get key).map (rounded round) := by
  show (roundedMembers round members).lookup key = (members.lookup key).map (rounded round)
  induction members with
  | nil => rfl
  | cons member members ih =>
    obtain ⟨name, value⟩ := member
    rw [roundedMembers, List.lookup_cons, List.lookup_cons]
    cases key == name with
    | true => rfl
    | false => exact ih

theorem roundedItems_of_fixed {items : List Json}
    (h : ∀ item ∈ items, item.rounded round = item) : roundedItems round items = items := by
  induction items with
  | nil => rfl
  | cons item items ih =>
    rw [roundedItems, h item (List.mem_cons_self ..),
      ih fun item hitem => h item (List.mem_cons_of_mem _ hitem)]

end

mutual

/-- A reader that rounds nothing. -/
theorem rounded_id : (value : Json) → value.rounded id = value
  | .null | .bool _ | .int _ | .float _ | .str _ => rfl
  | .arr items => congrArg arr (roundedItems_id items)
  | .obj members => congrArg obj (roundedMembers_id members)

theorem roundedItems_id : (items : List Json) → roundedItems id items = items
  | [] => rfl
  | item :: items => congrArg₂ List.cons (rounded_id item) (roundedItems_id items)

theorem roundedMembers_id : (members : List (String × Json)) → roundedMembers id members = members
  | [] => rfl
  | (key, value) :: members =>
    congrArg₂ List.cons (congrArg (Prod.mk key) (rounded_id value)) (roundedMembers_id members)

end

/-- A value that is printed and read again comes back, with its fractions rounded, unless
it nests deeper than `limit`. -/
def ReadsBack (codec : Codec) (round : String → String) (limit : Nat) (value : Json) : Prop :=
  codec.parse (codec.print value) =
    if value.depth ≤ limit then some (value.rounded round) else none

end Json
