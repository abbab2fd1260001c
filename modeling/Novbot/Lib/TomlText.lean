import Novbot.Lib.Text
import Novbot.Lib.Toml
import Mathlib.Data.List.Forall2

/-!
# Plain TOML documents

A reader for the documents that have one statement a line: a key with a basic string, a decimal
number or an array of basic strings, the header of a table or of an element of an array of tables.
It reads those as the format says and no others, so a development that has a TOML reader as a
parameter can ask of it that it reads what this one reads.

`StrayControl` is said of texts that are no documents: strings are the only place for most
characters, and control characters are escaped there.
-/

namespace Toml

open Text

/-! ## Characters -/

/-- The control characters but the tab. -/
def isControl (c : Char) : Bool := (c.toNat < 0x20 && c ≠ '\t') || c.toNat = 0x7F

/-- A control character stands in the text that neither is a tab nor belongs to a line end. -/
def StrayControl (cs : List Char) : Prop :=
  ∃ before c after, cs = before ++ c :: after ∧ isControl c = true ∧ c ≠ '\n' ∧
    ¬ (c = '\x0d' ∧ after.head? = some '\n')

/-- What a character stands for after a backslash. -/
def unescape : Char → Option Char
  | 'b' => some '\x08'
  | 't' => some '\t'
  | 'n' => some '\n'
  | 'f' => some '\x0c'
  | 'r' => some '\x0d'
  | '"' => some '"'
  | '\\' => some '\\'
  | _ => none

def isBare (c : Char) : Bool :=
  isAsciiLowercase c || isAsciiUppercase c || isAsciiDigit c || c = '_' || c = '-'

/-! ## Statements -/

inductive Line where
  | blank
  | pair (key : String) (value : Toml)
  | header (path : List String)
  | item (key : String)

/-- The rest of a basic string after its opening quote, and what follows it. -/
def readString : List Char → Option (List Char × List Char)
  | [] => none
  | '"' :: rest => some ([], rest)
  | '\\' :: c :: rest => do
    let c ← unescape c
    let (text, rest) ← readString rest
    return (c :: text, rest)
  | c :: rest =>
    if isControl c then none
    else do
      let (text, rest) ← readString rest
      return (c :: text, rest)

/-- The rest of an array of at most `fuel` basic strings after its opening bracket. -/
def readItems : Nat → List Char → Option (List (List Char))
  | fuel + 1, '"' :: rest => do
    let (text, rest) ← readString rest
    match rest with
    | [']'] => return [text]
    | ',' :: ' ' :: rest => return text :: (← readItems fuel rest)
    | _ => none
  | _, _ => none

/-- A decimal number of a signed word. -/
def readNat (cs : List Char) : Option Nat :=
  let n := Nat.ofDigitChars 10 cs 0
  if Nat.toDigits 10 n = cs ∧ n < 2 ^ 63 then some n else none

def readValue : List Char → Option Toml
  | '"' :: rest =>
    match readString rest with
    | some (text, []) => some (.str (.ofList text))
    | _ => none
  | '[' :: rest => (readItems rest.length rest).map fun items => .arr (items.map (.str <| .ofList ·))
  | cs => (readNat cs).map fun n => .int n

/-- A bare or a quoted key, and what follows it. -/
def readKey : List Char → Option (List Char × List Char)
  | '"' :: rest => readString rest
  | cs => if cs.takeWhile isBare = [] then none else some (cs.takeWhile isBare, cs.dropWhile isBare)

/-- The keys between the brackets of a header. -/
def readPath (cs : List Char) : Option (List String) :=
  let parts := split '.' cs
  if ∀ part ∈ parts, part ≠ [] ∧ part.all isBare then some (parts.map .ofList) else none

def readLine : List Char → Option Line
  | [] => some .blank
  | '[' :: '[' :: rest =>
    match stripSuffix ']' rest >>= stripSuffix ']' >>= readPath with
    | some [key] => some (.item key)
    | _ => none
  | '[' :: rest => (stripSuffix ']' rest >>= readPath).map .header
  | cs => do
    let (key, rest) ← readKey cs
    match rest with
    | ' ' :: '=' :: ' ' :: rest => return .pair (.ofList key) (← readValue rest)
    | _ => none

/-! ## Documents -/

/-- The members up to the first header, and the headers with the members after them. -/
def sections : List Line → List (String × Toml) × List (Line × List (String × Toml))
  | [] => ([], [])
  | .blank :: lines => sections lines
  | .pair key value :: lines => ((key, value) :: (sections lines).1, (sections lines).2)
  | head :: lines => ([], (head, (sections lines).1) :: (sections lines).2)

/-- Each key once. -/
def distinct (members : List (String × Toml)) : Prop := (members.map (·.1)).Nodup

instance (members : List (String × Toml)) : Decidable (distinct members) :=
  inferInstanceAs (Decidable (members.map (·.1)).Nodup)

def replace (key : String) (value : Toml) (members : List (String × Toml)) : List (String × Toml) :=
  members.map fun member => if member.1 = key then (key, value) else member

def isTable : Toml → Bool
  | .table _ => true
  | _ => false

/-- A section enters the root table.  Tables are entered once, a table in a table after it, and an
element after the elements of its array. -/
def addSection (root : List (String × Toml)) :
    Line × List (String × Toml) → Option (List (String × Toml))
  | (.header [key], members) =>
    match root.lookup key with
    | none => some (root ++ [(key, .table members)])
    | some _ => none
  | (.header [key, inner], members) =>
    match root.lookup key with
    | some (.table outer) =>
      match outer.lookup inner with
      | none => some (replace key (.table (outer ++ [(inner, .table members)])) root)
      | some _ => none
    | _ => none
  | (.item key, members) =>
    match root.lookup key with
    | none => some (root ++ [(key, .arr [.table members])])
    | some (.arr (item :: items)) =>
      if (item :: items).all isTable then
        some (replace key (.arr (item :: items ++ [.table members])) root)
      else none
    | _ => none
  | _ => none

def document (lines : List Line) : Option Toml :=
  let root := (sections lines).1
  let rest := (sections lines).2
  if distinct root ∧ ∀ part ∈ rest, distinct part.2 then
    (rest.foldlM addSection root).map .table
  else none

/-- The characters of a line. -/
def plainLine (cs : List Char) : Bool := cs.all fun c => !isControl c

def readDocument (text : String) : Option Toml :=
  if (split '\n' text.toList).all plainLine then
    (split '\n' text.toList).mapM readLine >>= document
  else none

/-! ## Written strings -/

/-- The ways to write a text between the quotes of a basic string. -/
inductive Written : List Char → List Char → Prop
  | nil : Written [] []
  | plain {c : Char} {text written : List Char} : isControl c = false → c ≠ '"' → c ≠ '\\' →
      Written text written → Written (c :: text) (c :: written)
  | escape {code c : Char} {text written : List Char} : unescape code = some c →
      Written text written → Written (c :: text) ('\\' :: code :: written)

section
variable {text written rest : List Char}

theorem readString_written (h : Written text written) :
    readString (written ++ '"' :: rest) = some (text, rest) := by
  induction h with
  | nil => rfl
  | @plain c text written hplain hquote hback _ ih =>
    rw [List.cons_append, readString.eq_4 _ _ hquote (fun _ _ hc _ => hback hc),
      hplain, ih]
    rfl
  | escape hcode _ ih =>
    rw [List.cons_append, List.cons_append, readString, hcode, ih]
    rfl

theorem unescape_plain {code c : Char} (h : unescape code = some c) : isControl code = false := by
  unfold unescape at h
  split at h
  all_goals first | rfl | cases h

theorem plainLine_cons {c : Char} {cs : List Char} :
    plainLine (c :: cs) = true ↔ isControl c = false ∧ plainLine cs = true := by
  rw [plainLine, List.all_cons, Bool.and_eq_true, Bool.not_eq_true']
  rfl

theorem plainLine_append {cs ds : List Char} :
    plainLine (cs ++ ds) = true ↔ plainLine cs = true ∧ plainLine ds = true := by
  rw [plainLine, List.all_append, Bool.and_eq_true]
  rfl

theorem Written.plain_written (h : Written text written) : plainLine written = true := by
  induction h with
  | nil => rfl
  | plain hplain _ _ _ ih => exact plainLine_cons.mpr ⟨hplain, ih⟩
  | escape hcode _ ih =>
    exact plainLine_cons.mpr ⟨rfl, plainLine_cons.mpr ⟨unescape_plain hcode, ih⟩⟩

end

/-! ## Written values -/

def quoted (written : List Char) : List Char := '"' :: (written ++ ['"'])

theorem Written.plain_quoted {text written : List Char} (h : Written text written) :
    plainLine (quoted written) = true :=
  plainLine_cons.mpr ⟨rfl, plainLine_append.mpr ⟨h.plain_written, rfl⟩⟩

theorem isBare_plain {c : Char} (h : isBare c = true) : isControl c = false := by
  have hle : ∀ {lo : Char}, lo ≤ c → lo.toNat ≤ c.toNat := fun h => h
  have hge : ∀ {hi : Char}, c ≤ hi → c.toNat ≤ hi.toNat := fun h => h
  have hrange : 0x20 ≤ c.toNat ∧ c.toNat ≠ 0x7F := by
    simp only [isBare, isAsciiLowercase, isAsciiUppercase, isAsciiDigit, Bool.or_eq_true,
      Bool.and_eq_true, decide_eq_true_eq] at h
    rcases h with (((⟨hlo, hhi⟩ | ⟨hlo, hhi⟩) | ⟨hlo, hhi⟩) | rfl) | rfl
    · exact ⟨(by decide : 0x20 ≤ 'a'.toNat).trans (hle hlo),
        fun hdel => absurd (hge hhi) (by rw [hdel]; decide)⟩
    · exact ⟨(by decide : 0x20 ≤ 'A'.toNat).trans (hle hlo),
        fun hdel => absurd (hge hhi) (by rw [hdel]; decide)⟩
    · exact ⟨(by decide : 0x20 ≤ '0'.toNat).trans (hle hlo),
        fun hdel => absurd (hge hhi) (by rw [hdel]; decide)⟩
    · decide
    · decide
  simp only [isControl, Bool.or_eq_false_iff, Bool.and_eq_false_iff, decide_eq_false_iff_not]
  exact ⟨.inl (by omega), hrange.2⟩

theorem plainLine_bare {key : List Char} (h : ∀ c ∈ key, isBare c = true) : plainLine key = true := by
  rw [plainLine, List.all_eq_true]
  intro c hc
  rw [isBare_plain (h c hc)]
  rfl

theorem plainLine_digits (n : Nat) : plainLine (Nat.toDigits 10 n) = true := by
  refine plainLine_bare fun c hc => ?_
  have hdigit : isAsciiDigit c = true := Nat.isDigit_of_mem_toDigits (by decide) le_rfl hc
  rw [isBare, hdigit, Bool.or_true]
  rfl

theorem plainLine_intercalate {sep : List Char} {items : List (List Char)}
    (hsep : plainLine sep = true) (h : ∀ item ∈ items, plainLine item = true) :
    plainLine (List.intercalate sep items) = true := by
  induction items with
  | nil => rfl
  | cons item items ih =>
    have hitem := h item List.mem_cons_self
    have hrest := ih fun item hmem => h item (.tail _ hmem)
    cases items with
    | nil =>
      rw [List.intercalate_singleton]
      exact hitem
    | cons next items =>
      rw [List.intercalate_cons_cons]
      exact plainLine_append.mpr ⟨plainLine_append.mpr ⟨hitem, hsep⟩, hrest⟩

theorem readItems_written {print : List Char → List Char} {items : List (List Char)}
    (h : ∀ item ∈ items, Written item (print item)) (hne : items ≠ []) {fuel : Nat}
    (hfuel : items.length ≤ fuel) :
    readItems fuel (List.intercalate [',', ' '] (items.map fun item => quoted (print item)) ++ [']']) =
      some items := by
  induction items generalizing fuel with
  | nil => exact absurd rfl hne
  | cons item items ih =>
    obtain ⟨fuel, rfl⟩ : ∃ n, fuel = n + 1 := ⟨fuel - 1, by rw [List.length_cons] at hfuel; omega⟩
    have hitem : ∀ rest, readString (print item ++ '"' :: rest) = some (item, rest) := fun rest =>
      readString_written (h item List.mem_cons_self)
    cases items with
    | nil =>
      have hform : List.intercalate [',', ' '] ([item].map fun item => quoted (print item)) ++ [']'] =
          '"' :: (print item ++ '"' :: [']']) := by simp [quoted]
      rw [hform]
      simp only [readItems, hitem, Option.bind_eq_bind, Option.bind_some]
      rfl
    | cons next items =>
      have hrest := ih (fun item hmem => h item (.tail _ hmem)) (List.cons_ne_nil _ _)
        (Nat.le_of_succ_le_succ hfuel)
      have hform : List.intercalate [',', ' ']
          ((item :: next :: items).map fun item => quoted (print item)) ++ [']'] =
          '"' :: (print item ++ '"' :: ',' :: ' ' :: (List.intercalate [',', ' ']
            ((next :: items).map fun item => quoted (print item)) ++ [']'])) := by simp [quoted]
      rw [hform]
      simp only [readItems, hitem, hrest, Option.bind_eq_bind, Option.bind_some]
      rfl

theorem length_le_intercalate {items : List (List Char)} (sep : List Char)
    (h : ∀ item ∈ items, item ≠ []) : items.length ≤ (List.intercalate sep items).length := by
  induction items with
  | nil => exact Nat.zero_le _
  | cons item items ih =>
    have hitem : 0 < item.length := List.length_pos_iff.mpr (h item List.mem_cons_self)
    have hrest := ih fun item hmem => h item (.tail _ hmem)
    cases items with
    | nil =>
      rw [List.intercalate_singleton]
      exact hitem
    | cons next items =>
      rw [List.intercalate_cons_cons, List.length_append, List.length_append, List.length_cons]
      omega

theorem readValue_string {text written : List Char} (h : Written text written) :
    readValue (quoted written) = some (.str (.ofList text)) := by
  rw [quoted, readValue, readString_written h]

theorem readValue_strings {print : List Char → List Char} {items : List (List Char)}
    (h : ∀ item ∈ items, Written item (print item)) (hne : items ≠ []) :
    readValue ('[' :: (List.intercalate [',', ' '] (items.map fun item => quoted (print item)) ++
      [']'])) = some (.arr (items.map (.str <| .ofList ·))) := by
  have hlength := length_le_intercalate [',', ' ']
    (fun item (hmem : item ∈ items.map fun item => quoted (print item)) => by
      obtain ⟨text, -, rfl⟩ := List.mem_map.mp hmem
      exact List.cons_ne_nil _ _)
  rw [List.length_map] at hlength
  rw [readValue, readItems_written h hne]
  · rfl
  · rw [List.length_append]
    exact hlength.trans (Nat.le_add_right _ _)

theorem readNat_digits {n : Nat} (h : n < 2 ^ 63) : readNat (Nat.toDigits 10 n) = some n := by
  unfold readNat
  rw [Nat.ofDigitChars_ten_toDigits, if_pos ⟨rfl, h⟩]

theorem readValue_nat {n : Nat} (h : n < 2 ^ 63) : readValue (Nat.toDigits 10 n) = some (.int n) := by
  have hread := readNat_digits h
  cases hdigits : Nat.toDigits 10 n with
  | nil => exact absurd hdigits Nat.toDigits_ne_nil
  | cons c cs =>
    have hdigit : c.isDigit := by
      refine Nat.isDigit_of_mem_toDigits (b := 10) (n := n) (by decide) le_rfl ?_
      rw [hdigits]
      exact List.mem_cons_self
    rw [hdigits] at hread
    rw [readValue, hread]
    · rfl
    · intro rest hc
      cases hc
      cases hdigit
    · intro rest hc
      cases hc
      cases hdigit

/-! ## Written statements -/

section
variable {key value : List Char} {v : Toml}

theorem readKey_bare (hne : key ≠ []) (hbare : ∀ c ∈ key, isBare c = true) (rest : List Char) :
    readKey (key ++ ' ' :: rest) = some (key, ' ' :: rest) := by
  have hstops : Stops isBare (' ' :: rest) := .cons (by decide)
  have htake := takeWhile_run hbare hstops
  have hdrop := dropWhile_run hbare hstops
  obtain ⟨c, cs, rfl⟩ := List.exists_cons_of_ne_nil hne
  rw [List.cons_append] at htake hdrop ⊢
  rw [readKey, htake, hdrop, if_neg hne]
  intro rest hc
  cases hc
  exact absurd (hbare '"' List.mem_cons_self) (by decide)

theorem readLine_key {cs : List Char} (hkey : readKey cs = some (key, ' ' :: '=' :: ' ' :: value))
    (hopen : cs.head? ≠ some '[') (hvalue : readValue value = some v) :
    readLine cs = some (.pair (.ofList key) v) := by
  have hbracket : ∀ rest, cs ≠ '[' :: rest := by
    rintro rest rfl
    exact hopen rfl
  rw [readLine.eq_4 cs]
  · rw [hkey]
    simp only [Option.bind_eq_bind, Option.bind_some, hvalue]
    rfl
  · rintro rfl
    cases hkey
  · exact fun rest h => hbracket _ h
  · exact fun rest h => hbracket _ h

theorem readLine_bare (hne : key ≠ []) (hbare : ∀ c ∈ key, isBare c = true)
    (hvalue : readValue value = some v) :
    readLine (key ++ ' ' :: '=' :: ' ' :: value) = some (.pair (.ofList key) v) := by
  refine readLine_key (readKey_bare hne hbare _) (fun hopen => ?_) hvalue
  obtain ⟨c, cs, rfl⟩ := List.exists_cons_of_ne_nil hne
  cases hopen
  exact absurd (hbare '[' List.mem_cons_self) (by decide)

theorem readLine_quoted {text : List Char} (h : Written text key) (hvalue : readValue value = some v) :
    readLine (quoted key ++ ' ' :: '=' :: ' ' :: value) = some (.pair (.ofList text) v) := by
  have hkey : readKey (quoted key ++ ' ' :: '=' :: ' ' :: value) =
      some (text, ' ' :: '=' :: ' ' :: value) := by
    rw [quoted, List.cons_append, List.append_assoc, readKey, List.singleton_append,
      readString_written h]
  exact readLine_key hkey (fun hopen => by cases hopen) hvalue

end

/-! ## Lines -/

def unlines (lines : List (List Char)) : List Char := lines.flatMap (· ++ ['\n'])

/-- The line is a statement. -/
def ReadsAs (line : List Char) (statement : Line) : Prop :=
  plainLine line = true ∧ readLine line = some statement

theorem split_unlines {lines : List (List Char)} (h : ∀ line ∈ lines, plainLine line = true) :
    split '\n' (unlines lines) = lines ++ [[]] := by
  induction lines with
  | nil => rfl
  | cons line lines ih =>
    have hline : '\n' ∉ line := fun hmem => by
      have hplain := List.all_eq_true.mp (h line List.mem_cons_self) _ hmem
      cases hplain
    rw [unlines, List.flatMap_cons, List.append_assoc, List.singleton_append, split_append,
      split_of_not_mem hline, List.singleton_append, List.cons_append]
    exact congrArg (line :: ·) (ih fun line hmem => h line (.tail _ hmem))

/-- The text is the lines of the statements. -/
def Reads (text : List Char) (statements : List Line) : Prop :=
  ∃ lines, text = unlines lines ∧ List.Forall₂ ReadsAs lines statements

theorem Reads.nil : Reads [] [] := ⟨[], rfl, .nil⟩

theorem Reads.line {line : List Char} {statement : Line} (h : ReadsAs line statement) :
    Reads (line ++ ['\n']) [statement] :=
  ⟨[line], (List.append_nil _).symm, .cons h .nil⟩

theorem Reads.append {text text' : List Char} {statements statements' : List Line}
    (h : Reads text statements) (h' : Reads text' statements') :
    Reads (text ++ text') (statements ++ statements') := by
  obtain ⟨lines, rfl, hlines⟩ := h
  obtain ⟨lines', rfl, hlines'⟩ := h'
  exact ⟨lines ++ lines', List.flatMap_append.symm, List.rel_append hlines hlines'⟩

theorem Reads.flatMap {α : Type} {items : List α} {text : α → List Char} {lines : α → List Line}
    (h : ∀ item ∈ items, Reads (text item) (lines item)) :
    Reads (items.flatMap text) (items.flatMap lines) := by
  induction items with
  | nil => exact .nil
  | cons item items ih =>
    rw [List.flatMap_cons, List.flatMap_cons]
    exact (h item List.mem_cons_self).append (ih fun item hmem => h item (.tail _ hmem))

/-- A text of statements is read statement by statement. -/
theorem Reads.readDocument {text : List Char} {statements : List Line} (h : Reads text statements) :
    readDocument (.ofList text) = document (statements ++ [.blank]) := by
  obtain ⟨lines, rfl, h⟩ := h
  have hplain : ∀ line ∈ lines, plainLine line = true := by
    intro line hmem
    induction h with
    | nil => cases hmem
    | cons hfirst _ ih =>
      cases hmem with
      | head => exact hfirst.1
      | tail _ hmem => exact ih hmem
  have hread : (lines ++ [[]]).mapM readLine = some (statements ++ [.blank]) := by
    clear hplain
    induction h with
    | nil => rfl
    | cons hfirst _ ih =>
      rw [List.cons_append, List.mapM_cons, hfirst.2, ih]
      rfl
  rw [Toml.readDocument, String.toList_ofList, split_unlines hplain, hread, if_pos]
  · rfl
  · rw [List.all_append, Bool.and_eq_true]
    exact ⟨List.all_eq_true.mpr hplain, rfl⟩

/-! ## Sections -/

def pairs (members : List (String × Toml)) : List Line :=
  members.map fun member => .pair member.1 member.2

theorem sections_pairs (members : List (String × Toml)) (lines : List Line) :
    sections (pairs members ++ lines) =
      (members ++ (sections lines).1, (sections lines).2) := by
  induction members with
  | nil => rfl
  | cons member members ih =>
    rw [pairs, List.map_cons, List.cons_append, sections]
    rw [pairs] at ih
    rw [ih]
    rfl

theorem sections_header (path : List String) (lines : List Line) :
    sections ([.blank, .header path] ++ lines) =
      ([], (.header path, (sections lines).1) :: (sections lines).2) := rfl

/-- The lines of a table of an array, with a blank line after it. -/
def itemLines (key : String) (members : List (String × Toml)) : List Line :=
  .item key :: (pairs members ++ [.blank])

theorem sections_items (key : String) (tables : List (List (String × Toml))) (lines : List Line)
    (hlines : sections lines = ([], [])) :
    sections (tables.flatMap (itemLines key) ++ lines) =
      ([], tables.map fun members => (.item key, members)) := by
  induction tables with
  | nil => exact hlines
  | cons members tables ih =>
    have hhead : ∀ lines, sections (.item key :: lines) =
        ([], (.item key, (sections lines).1) :: (sections lines).2) := fun _ => rfl
    rw [List.flatMap_cons, itemLines, List.append_assoc, List.cons_append, hhead,
      List.append_assoc, sections_pairs, List.singleton_append, sections, ih, List.append_nil]
    rfl

/-- The member of an array of tables, if it has elements. -/
def arrayMember (key : String) : List (List (String × Toml)) → List (String × Toml)
  | [] => []
  | tables => [(key, .arr (tables.map .table))]

theorem lookup_single (key name : String) (value : Toml) :
    [(key, value)].lookup name = if name = key then some value else none := by
  rw [List.lookup_cons]
  by_cases h : name = key
  · rw [if_pos h, h, beq_self_eq_true]
  · rw [if_neg h, beq_false_of_ne h]
    rfl

theorem lookup_arrayMember (key name : String) (tables : List (List (String × Toml))) :
    (arrayMember key tables).lookup name =
      if name = key ∧ tables ≠ [] then some (.arr (tables.map .table)) else none := by
  cases tables with
  | nil => simp [arrayMember]
  | cons first tables => simp [arrayMember, lookup_single]

section
variable {key : String} {root : List (String × Toml)}

theorem lookup_of_keys {keys : List String} (h : (root.map (·.1)).Sublist keys) (hkey : key ∉ keys) :
    root.lookup key = none := by
  refine List.lookup_eq_none_iff.mpr fun member hmem => bne_iff_ne.mpr ?_
  rintro rfl
  exact hkey (h.subset (List.mem_map_of_mem hmem))

theorem lookup_append_last (hroot : root.lookup key = none) (value : Toml) :
    (root ++ [(key, value)]).lookup key = some value := by
  rw [List.lookup_append, hroot, List.lookup_cons, beq_self_eq_true]
  rfl

theorem replace_append_last (hroot : root.lookup key = none) (value value' : Toml) :
    replace key value' (root ++ [(key, value)]) = root ++ [(key, value')] := by
  have hkeep : replace key value' root = root := by
    rw [replace, List.map_congr_left, List.map_id]
    intro member hmem
    rw [if_neg]
    · rfl
    · intro hkey
      have hlookup := List.lookup_eq_none_iff.mp hroot member hmem
      rw [hkey, bne_self_eq_false] at hlookup
      cases hlookup
  rw [replace, List.map_append]
  rw [replace] at hkeep
  rw [hkeep, List.map_cons, List.map_nil, if_pos rfl]

/-- A new table enters. -/
theorem addSection_header (hroot : root.lookup key = none) (members : List (String × Toml)) :
    addSection root (.header [key], members) = some (root ++ [(key, .table members)]) := by
  rw [addSection, hroot]

/-- A new table enters the table that entered last. -/
theorem addSection_inner {inner : String} {outer : List (String × Toml)}
    (hroot : root.lookup key = none) (hinner : outer.lookup inner = none)
    (members : List (String × Toml)) :
    addSection (root ++ [(key, .table outer)]) (.header [key, inner], members) =
      some (root ++ [(key, .table (outer ++ [(inner, .table members)]))]) := by
  rw [addSection, lookup_append_last hroot]
  dsimp only
  rw [hinner]
  dsimp only
  rw [replace_append_last hroot]

theorem all_isTable (tables : List (List (String × Toml))) :
    (tables.map Toml.table).all isTable = true := by
  rw [List.all_map, List.all_eq_true]
  exact fun _ _ => rfl

/-- The elements enter after those that are there. -/
theorem addSection_after (hroot : root.lookup key = none) (first : List (String × Toml))
    (done tables : List (List (String × Toml))) :
    (tables.map fun members => (Line.item key, members)).foldlM addSection
        (root ++ [(key, .arr ((first :: done).map .table))]) =
      some (root ++ [(key, .arr ((first :: done ++ tables).map .table))]) := by
  induction tables generalizing done with
  | nil =>
    rw [List.append_nil]
    rfl
  | cons members tables ih =>
    have hstep : addSection (root ++ [(key, .arr ((first :: done).map .table))])
        (.item key, members) =
          some (root ++ [(key, .arr ((first :: (done ++ [members])).map .table))]) := by
      rw [addSection, lookup_append_last hroot, List.map_cons]
      dsimp only
      rw [← List.map_cons, if_pos (all_isTable (first :: done)), replace_append_last hroot]
      simp
    show List.foldlM addSection _ ((Line.item key, members) :: tables.map _) = _
    rw [List.foldlM_cons, hstep, Option.bind_eq_bind, Option.bind_some, ih]
    simp

theorem addSection_items (hroot : root.lookup key = none) (tables : List (List (String × Toml))) :
    (tables.map fun members => (Line.item key, members)).foldlM addSection root =
      some (root ++ arrayMember key tables) := by
  cases tables with
  | nil =>
    rw [arrayMember, List.append_nil]
    rfl
  | cons first tables =>
    have hstep : addSection root (.item key, first) =
        some (root ++ [(key, .arr ([first].map .table))]) := by
      rw [addSection, hroot]
      rfl
    rw [List.map_cons, List.foldlM_cons, hstep, Option.bind_eq_bind, Option.bind_some,
      addSection_after hroot]
    rfl

end

/-! ## Readers -/

/-- What a reader of documents guarantees. -/
structure Conforms (read : String → Except String Toml) : Prop where
  plain : ∀ text doc, readDocument text = some doc → read text = .ok doc
  control : ∀ text, StrayControl text.toList → ∃ err, read text = .error err

/-- A reader of plain documents only. -/
def plainReader (text : String) : Except String Toml :=
  match readDocument text with
  | some doc => .ok doc
  | none => .error "expected a plain document"

theorem plainReader_conforms : Conforms plainReader where
  plain text doc h := by rw [plainReader, h]
  control text h := by
    obtain ⟨before, c, after, htext, hcontrol, hline, -⟩ := h
    have hmem : c ∈ text.toList := by
      rw [htext]
      exact List.mem_append_right before List.mem_cons_self
    obtain ⟨part, hpart, hc⟩ := (mem_split hmem).resolve_left hline
    have hrefused : ¬ (split '\n' text.toList).all plainLine = true := fun hall => by
      have hplain := List.all_eq_true.mp (List.all_eq_true.mp hall part hpart) c hc
      rw [hcontrol] at hplain
      cases hplain
    rw [plainReader, readDocument, if_neg hrefused]
    exact ⟨_, rfl⟩

end Toml
