import Mathlib.Data.Nat.Digits.Defs
import Novbot.Lib.Json
import Novbot.Lib.Text

/-!
# JSON on one line

The compact printer: no blanks between tokens, and strings in which every control character below
the blank is escaped.  What it prints is one line (`visible_compact`).
-/

namespace Json

/-- A digit of a `\u` escape. -/
def hexDigit (n : Nat) : Char := if n < 10 then .ofNat (n + 48) else .ofNat (n + 87)

/-- A character in a string. -/
def escapeChar (c : Char) : List Char :=
  if c = '"' then ['\\', '"']
  else if c = '\\' then ['\\', '\\']
  else if c = '\x08' then ['\\', 'b']
  else if c = '\t' then ['\\', 't']
  else if c = '\n' then ['\\', 'n']
  else if c = '\x0c' then ['\\', 'f']
  else if c = '\r' then ['\\', 'r']
  else if c.toNat < 0x20 then ['\\', 'u', '0', '0', hexDigit (c.toNat / 16), hexDigit (c.toNat % 16)]
  else [c]

def compactStr (text : String) : List Char := '"' :: text.toList.flatMap escapeChar ++ ['"']

def compactInt (n : Int) : List Char :=
  if n < 0 then '-' :: Nat.toDigits 10 n.natAbs else Nat.toDigits 10 n.natAbs

/-- A character of a number with a fraction or an exponent. -/
def isNumeric (c : Char) : Bool := Text.isAsciiDigit c || ['+', '-', '.', 'e', 'E'].contains c

mutual

def compact : Json → List Char
  | .null => "null".toList
  | .bool true => "true".toList
  | .bool false => "false".toList
  | .int n => compactInt n
  | .float text => text.toList
  | .str text => compactStr text
  | .arr items => '[' :: compactItems items ++ [']']
  | .obj members => '{' :: compactMembers members ++ ['}']

def compactItems : List Json → List Char
  | [] => []
  | [item] => compact item
  | item :: items => compact item ++ ',' :: compactItems items

def compactMembers : List (String × Json) → List Char
  | [] => []
  | [(key, value)] => compactStr key ++ ':' :: compact value
  | (key, value) :: members =>
    compactStr key ++ ':' :: compact value ++ ',' :: compactMembers members

end

mutual

/-- The numbers of the value are spelled as numbers. -/
def spelled : Json → Bool
  | .float text => text.toList.all isNumeric
  | .arr items => spelledItems items
  | .obj members => spelledMembers members
  | _ => true

def spelledItems : List Json → Bool
  | [] => true
  | item :: items => spelled item && spelledItems items

def spelledMembers : List (String × Json) → Bool
  | [] => true
  | (_, value) :: members => spelled value && spelledMembers members

end

/-! ## One line -/

/-- No control character below the blank. -/
def Visible (text : List Char) : Prop := ∀ c ∈ text, 0x20 ≤ c.toNat

theorem Visible.nil : Visible [] := fun _ hc => absurd hc List.not_mem_nil

theorem visible_cons {c : Char} {text : List Char} :
    Visible (c :: text) ↔ 0x20 ≤ c.toNat ∧ Visible text := List.forall_mem_cons

theorem visible_append {text more : List Char} :
    Visible (text ++ more) ↔ Visible text ∧ Visible more := List.forall_mem_append

theorem Visible.no_newline {text : List Char} (h : Visible text) : '\n' ∉ text := by
  intro hmem
  exact absurd (h _ hmem) (by decide)

theorem visible_of_all {text : List Char} (h : text.all (fun c => decide (0x20 ≤ c.toNat)) = true) :
    Visible text := fun c hc => of_decide_eq_true (List.all_eq_true.mp h c hc)

theorem visible_hexDigit : ∀ n < 16, 0x20 ≤ (hexDigit n).toNat := by decide

theorem visible_escapeChar (c : Char) : Visible (escapeChar c) := by
  have hback : ∀ d : Char, 0x20 ≤ d.toNat → Visible ['\\', d] := fun d hd =>
    visible_cons.mpr ⟨by decide, visible_cons.mpr ⟨hd, .nil⟩⟩
  unfold escapeChar
  split_ifs with _ _ _ _ _ _ _ hlow
  · exact hback _ (by decide)
  · exact hback _ (by decide)
  · exact hback _ (by decide)
  · exact hback _ (by decide)
  · exact hback _ (by decide)
  · exact hback _ (by decide)
  · exact hback _ (by decide)
  · have hhigh : c.toNat / 16 < 16 := by omega
    have hlast : c.toNat % 16 < 16 := Nat.mod_lt _ (by decide)
    simp only [visible_cons]
    exact ⟨by decide, by decide, by decide, by decide, visible_hexDigit _ hhigh, visible_hexDigit _ hlast,
      .nil⟩
  · exact visible_cons.mpr ⟨Nat.le_of_not_lt hlow, .nil⟩

theorem visible_compactStr (text : String) : Visible (compactStr text) := by
  rw [compactStr, List.cons_append]
  refine visible_cons.mpr ⟨by decide, visible_append.mpr ⟨?_, visible_cons.mpr ⟨by decide, .nil⟩⟩⟩
  intro c hc
  obtain ⟨d, -, hd⟩ := List.mem_flatMap.mp hc
  exact visible_escapeChar d c hd

theorem visible_digits (n : Nat) : Visible (Nat.toDigits 10 n) := by
  intro c hc
  have hdigit : c.isDigit = true := Nat.isDigit_of_mem_toDigits (by decide) le_rfl hc
  rw [Char.isDigit, Bool.and_eq_true, decide_eq_true_eq, decide_eq_true_eq] at hdigit
  have hle : (48 : UInt32).toNat ≤ c.val.toNat := UInt32.le_iff_toNat_le.mp hdigit.1
  have hval : c.toNat = c.val.toNat := rfl
  have h48 : (48 : UInt32).toNat = 48 := rfl
  omega

theorem visible_compactInt (n : Int) : Visible (compactInt n) := by
  rw [compactInt]
  split
  · exact visible_cons.mpr ⟨by decide, visible_digits _⟩
  · exact visible_digits _

theorem visible_numeric {text : List Char} (h : text.all isNumeric = true) : Visible text := by
  intro c hc
  have hnumeric := List.all_eq_true.mp h c hc
  rw [isNumeric, Bool.or_eq_true, Text.isAsciiDigit, Bool.and_eq_true, decide_eq_true_eq,
    decide_eq_true_eq] at hnumeric
  rcases hnumeric with ⟨hle, -⟩ | hother
  · have hle : ('0' : Char).toNat ≤ c.toNat := hle
    exact le_trans (by decide) hle
  · rw [List.contains_iff_mem] at hother
    simp only [List.mem_cons, List.not_mem_nil, or_false] at hother
    rcases hother with rfl | rfl | rfl | rfl | rfl <;> decide

mutual

/-- A printed value has no control character. -/
theorem visible_compact (value : Json) (h : value.spelled = true) : Visible value.compact := by
  match value with
  | .null => exact visible_of_all (by decide)
  | .bool true => exact visible_of_all (by decide)
  | .bool false => exact visible_of_all (by decide)
  | .int n => exact visible_compactInt n
  | .float text =>
    rw [spelled] at h
    exact visible_numeric h
  | .str text => exact visible_compactStr text
  | .arr items =>
    rw [spelled] at h
    rw [compact, List.cons_append]
    exact visible_cons.mpr ⟨by decide, visible_append.mpr ⟨visible_compactItems items h,
      visible_cons.mpr ⟨by decide, .nil⟩⟩⟩
  | .obj members =>
    rw [spelled] at h
    rw [compact, List.cons_append]
    exact visible_cons.mpr ⟨by decide, visible_append.mpr ⟨visible_compactMembers members h,
      visible_cons.mpr ⟨by decide, .nil⟩⟩⟩

theorem visible_compactItems (items : List Json) (h : spelledItems items = true) :
    Visible (compactItems items) := by
  match items with
  | [] => exact .nil
  | item :: rest =>
    rw [spelledItems, Bool.and_eq_true] at h
    have hitem := visible_compact item h.1
    have hrest := visible_compactItems rest h.2
    cases rest with
    | nil => exact hitem
    | cons next rest =>
      rw [compactItems]
      · exact visible_append.mpr ⟨hitem, visible_cons.mpr ⟨by decide, hrest⟩⟩
      · exact List.cons_ne_nil _ _

theorem visible_compactMembers (members : List (String × Json)) (h : spelledMembers members = true) :
    Visible (compactMembers members) := by
  match members with
  | [] => exact .nil
  | (key, value) :: rest =>
    rw [spelledMembers, Bool.and_eq_true] at h
    have hkey := visible_compactStr key
    have hvalue := visible_compact value h.1
    have hrest := visible_compactMembers rest h.2
    have hmember : Visible (compactStr key ++ ':' :: compact value) :=
      visible_append.mpr ⟨hkey, visible_cons.mpr ⟨by decide, hvalue⟩⟩
    cases rest with
    | nil => exact hmember
    | cons next rest =>
      rw [compactMembers]
      · exact visible_append.mpr ⟨hmember, visible_cons.mpr ⟨by decide, hrest⟩⟩
      · exact List.cons_ne_nil _ _

end

end Json
