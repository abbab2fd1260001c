/-!
# JSON values

The value type of JSON documents with the accessors that readers use.  Reading
and printing text is a parameter (`Codec`), so a development states what it
needs of its JSON library as hypotheses on a codec.
-/

/-- A JSON value.  An object keeps its members in order. -/
inductive Json where
  | null
  | bool (b : Bool)
  | int (n : Int)
  /-- A number with a fraction or an exponent, as printed. -/
  | float (text : String)
  | str (s : String)
  | arr (items : List Json)
  | obj (members : List (String × Json))

namespace Json

def asStr : Json → Option String
  | str s => some s
  | _ => none

def asArray : Json → Option (List Json)
  | arr items => some items
  | _ => none

def asObject : Json → Option (List (String × Json))
  | obj members => some members
  | _ => none

/-- The member of an object under a key. -/
def get (key : String) : Json → Option Json
  | obj members => members.lookup key
  | _ => none

/-- Sets a member, in place when the key is there. -/
def insert (key : String) (value : Json) (members : List (String × Json)) :
    List (String × Json) :=
  if members.any (·.1 == key) then
    members.map fun (k, v) => if k = key then (k, value) else (k, v)
  else members ++ [(key, value)]

/-- Drops a member. -/
def remove (key : String) (members : List (String × Json)) : List (String × Json) :=
  members.filter fun member => member.1 ≠ key

theorem get_insert (key name : String) (value : Json) (members : List (String × Json)) :
    (obj (insert key value members)).get name =
      if name = key then some value else (obj members).get name := by
  have hmap : ∀ members : List (String × Json),
      (members.map fun (k, v) => if k = key then (k, value) else (k, v)).lookup name =
        if name = key ∧ members.any (·.1 == key) then some value else members.lookup name := by
    intro members
    induction members with
    | nil => simp
    | cons member members ih =>
      obtain ⟨k, v⟩ := member
      rw [List.map_cons]
      by_cases hk : k = key
      · subst hk
        by_cases hname : name = k
        · simp [hname]
        · have hbeq : (name == k) = false := beq_eq_false_iff_ne.mpr hname
          simp [List.lookup_cons, hbeq, ih, hname]
      · by_cases hname : name = k
        · subst hname
          simp [hk]
        · have hbeq : (name == k) = false := beq_eq_false_iff_ne.mpr hname
          have hkey : (k == key) = false := beq_eq_false_iff_ne.mpr hk
          dsimp only
          rw [if_neg hk, List.lookup_cons, hbeq, List.lookup_cons, hbeq, List.any_cons, hkey,
            Bool.false_or]
          exact ih
  unfold insert get
  dsimp only
  split
  · next hany =>
    rw [hmap, hany]
    simp
  · next hany =>
    rw [List.lookup_append]
    by_cases hname : name = key
    · subst hname
      have hnone : members.lookup name = none := by
        rw [List.lookup_eq_none_iff]
        intro member hmember
        rw [Bool.not_eq_true, List.any_eq_false] at hany
        have hne := hany member hmember
        rw [beq_iff_eq] at hne
        exact bne_iff_ne.mpr (Ne.symm hne)
      simp [hnone]
    · have hbeq : (name == key) = false := beq_eq_false_iff_ne.mpr hname
      simp [List.lookup_cons, hbeq, hname]

theorem get_remove (key name : String) (members : List (String × Json)) :
    (obj (remove key members)).get name = if name = key then none else (obj members).get name := by
  show (members.filter fun member => member.1 ≠ key).lookup name = _
  induction members with
  | nil => simp [get]
  | cons member members ih =>
    obtain ⟨k, v⟩ := member
    by_cases hk : k = key
    · subst hk
      rw [List.filter_cons_of_neg (by simp), ih]
      by_cases hname : name = k
      · rw [if_pos hname, if_pos hname]
      · have hbeq : (name == k) = false := beq_eq_false_iff_ne.mpr hname
        rw [if_neg hname, if_neg hname, get, get, List.lookup_cons, hbeq]
    · rw [List.filter_cons_of_pos (by simp [hk]), List.lookup_cons, ih]
      by_cases hname : name = k
      · subst hname
        simp [hk, get]
      · have hbeq : (name == k) = false := beq_eq_false_iff_ne.mpr hname
        simp [hbeq, get, List.lookup_cons]

/-- How values are read from text and printed. -/
structure Codec where
  parse : String → Option Json
  print : Json → String

end Json
