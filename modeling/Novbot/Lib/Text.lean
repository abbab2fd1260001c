import Mathlib.Algebra.Group.Int.Defs
import Mathlib.Algebra.Ring.Nat
import Mathlib.Data.List.Infix

/-!
# Text as lists of characters

The string operations that parsers use, on `List Char`.  A parser converts its
input once with `String.toList` and its output once with `String.ofList`, so
that every operation in between is structural and evaluates in the kernel.

`splitOnce` cuts at the first occurrence of a separator, and `splitOnce_some`
and `splitOnce_none` say what a result means.  `split` cuts at every one.  `trim` drops white space at both
ends.  `isWhiteSpace` is the Unicode property `White_Space`, which is wider than
`Char.isWhitespace`.
-/

namespace Text

/-! ## Character classes -/

/-- The Unicode property `White_Space`. -/
def isWhiteSpace (c : Char) : Bool :=
  (9 ≤ c.toNat && c.toNat ≤ 13) || c.toNat == 0x20 || c.toNat == 0x85 || c.toNat == 0xA0 ||
    c.toNat == 0x1680 || (0x2000 ≤ c.toNat && c.toNat ≤ 0x200A) || c.toNat == 0x2028 ||
    c.toNat == 0x2029 || c.toNat == 0x202F || c.toNat == 0x205F || c.toNat == 0x3000

def isAsciiLowercase (c : Char) : Bool := 'a' ≤ c && c ≤ 'z'

def isAsciiUppercase (c : Char) : Bool := 'A' ≤ c && c ≤ 'Z'

/-- `char::to_ascii_lowercase`. -/
def toAsciiLowercase (c : Char) : Char := if isAsciiUppercase c then .ofNat (c.toNat + 32) else c

def isAsciiDigit (c : Char) : Bool := '0' ≤ c && c ≤ '9'

/-! ## Bytes -/

/-- The bytes of text in UTF-8. -/
def utf8 (cs : List Char) : List UInt8 := cs.flatMap String.utf8EncodeChar

/-- The character of a code point written in its shortest form. -/
def codePoint (least code : Nat) : Option Char :=
  if least ≤ code ∧ code.isValidChar then some (.ofNat code) else none

/-- The six bits of a continuation byte. -/
def continuation (b : UInt8) : Option Nat :=
  if 0x80 ≤ b.toNat ∧ b.toNat < 0xC0 then some (b.toNat - 0x80) else none

/-- `str::from_utf8`. -/
def fromUtf8 : List UInt8 → Option (List Char)
  | [] => some []
  | b₀ :: rest =>
    if b₀.toNat < 0x80 then (fromUtf8 rest).map (.ofNat b₀.toNat :: ·)
    else
      match rest with
      | [] => none
      | b₁ :: rest =>
        if 0xC0 ≤ b₀.toNat ∧ b₀.toNat < 0xE0 then do
          let c ← codePoint 0x80 ((b₀.toNat - 0xC0) * 64 + (← continuation b₁))
          return c :: (← fromUtf8 rest)
        else
          match rest with
          | [] => none
          | b₂ :: rest =>
            if 0xE0 ≤ b₀.toNat ∧ b₀.toNat < 0xF0 then do
              let c ← codePoint 0x800
                (((b₀.toNat - 0xE0) * 64 + (← continuation b₁)) * 64 + (← continuation b₂))
              return c :: (← fromUtf8 rest)
            else
              match rest with
              | [] => none
              | b₃ :: rest =>
                if 0xF0 ≤ b₀.toNat ∧ b₀.toNat < 0xF8 then do
                  let c ← codePoint 0x10000
                    ((((b₀.toNat - 0xF0) * 64 + (← continuation b₁)) * 64 +
                      (← continuation b₂)) * 64 + (← continuation b₃))
                  return c :: (← fromUtf8 rest)
                else none

theorem codePoint_char {least : Nat} {c : Char} (h : least ≤ c.toNat) :
    codePoint least c.toNat = some c := by
  rw [codePoint, if_pos ⟨h, c.valid⟩, Char.ofNat_toNat]

theorem toNat_byte {n : Nat} (h : n < 256) : (UInt8.ofNat n).toNat = n := UInt8.toNat_ofNat_of_lt' h

theorem continuation_byte {n : Nat} (h : n < 64) : continuation (UInt8.ofNat (n + 128)) = some n := by
  rw [continuation, toNat_byte (by omega), if_pos (by omega)]
  rw [Nat.add_sub_cancel]

/-- One encoded character is read back. -/
theorem fromUtf8_char (c : Char) (rest : List UInt8) :
    fromUtf8 (String.utf8EncodeChar c ++ rest) = (fromUtf8 rest).map (c :: ·) := by
  have hmax : c.toNat < 0x110000 := by
    rcases c.valid with h | h
    · exact Nat.lt_trans h (by decide)
    · exact h.2
  have hval : c.val.toNat = c.toNat := rfl
  simp only [String.utf8EncodeChar, hval]
  by_cases h1 : c.toNat ≤ 0x7F
  · rw [if_pos h1, List.singleton_append, fromUtf8.eq_def]
    dsimp only
    rw [toNat_byte (by omega), if_pos (by omega),
      Char.ofNat_toNat]
  · rw [if_neg h1]
    by_cases h2 : c.toNat ≤ 0x7FF
    · rw [if_pos h2]
      have hcode : (c.toNat / 64 % 32 + 192 - 0xC0) * 64 + c.toNat % 64 = c.toNat := by omega
      rw [List.cons_append, fromUtf8.eq_def]
      simp only [List.cons_append, List.nil_append]
      rw [toNat_byte (by omega), if_neg (by omega), if_pos (by omega),
        continuation_byte (Nat.mod_lt _ (by decide))]
      simp only [Option.bind_eq_bind, Option.bind_some]
      rw [hcode, codePoint_char (by omega), Option.bind_some]
      cases fromUtf8 rest <;> rfl
    · rw [if_neg h2]
      by_cases h3 : c.toNat ≤ 0xFFFF
      · rw [if_pos h3]
        have hcode : ((c.toNat / 4096 % 16 + 224 - 0xE0) * 64 + c.toNat / 64 % 64) * 64 +
            c.toNat % 64 = c.toNat := by omega
        rw [List.cons_append, fromUtf8.eq_def]
        simp only [List.cons_append, List.nil_append]
        rw [toNat_byte (by omega), if_neg (by omega), if_neg (by omega), if_pos (by omega),
          continuation_byte (Nat.mod_lt _ (by decide)), continuation_byte (Nat.mod_lt _ (by decide))]
        simp only [Option.bind_eq_bind, Option.bind_some]
        rw [hcode, codePoint_char (by omega), Option.bind_some]
        cases fromUtf8 rest <;> rfl
      · rw [if_neg h3]
        have hcode : (((c.toNat / 262144 % 8 + 240 - 0xF0) * 64 + c.toNat / 4096 % 64) * 64 +
            c.toNat / 64 % 64) * 64 + c.toNat % 64 = c.toNat := by omega
        rw [List.cons_append, fromUtf8.eq_def]
        simp only [List.cons_append, List.nil_append]
        rw [toNat_byte (by omega), if_neg (by omega), if_neg (by omega), if_neg (by omega),
          if_pos (by omega), continuation_byte (Nat.mod_lt _ (by decide)),
          continuation_byte (Nat.mod_lt _ (by decide)), continuation_byte (Nat.mod_lt _ (by decide))]
        simp only [Option.bind_eq_bind, Option.bind_some]
        rw [hcode, codePoint_char (by omega), Option.bind_some]
        cases fromUtf8 rest <;> rfl

/-- Text is read back from its bytes. -/
theorem fromUtf8_utf8 (cs : List Char) : fromUtf8 (utf8 cs) = some cs := by
  induction cs with
  | nil => rfl
  | cons c cs ih =>
    rw [utf8, List.flatMap_cons, fromUtf8_char]
    exact congrArg (Option.map (c :: ·)) ih

/-! ## Splitting -/

/-- The parts before and after the first `sep`. -/
def splitOnce (sep : Char) : List Char → Option (List Char × List Char)
  | [] => none
  | c :: cs =>
    if c = sep then some ([], cs)
    else (splitOnce sep cs).map fun (before, after) => (c :: before, after)

theorem splitOnce_some {sep : Char} {cs before after : List Char} :
    splitOnce sep cs = some (before, after) ↔ cs = before ++ sep :: after ∧ sep ∉ before := by
  induction cs generalizing before with
  | nil => simp [splitOnce]
  | cons c cs ih =>
    by_cases hc : c = sep
    · subst hc
      cases before with
      | nil => simp [splitOnce, eq_comm]
      | cons b bs =>
        simp only [splitOnce, if_true, List.cons_append, List.cons.injEq, List.mem_cons, not_or]
        refine ⟨fun h => by simp at h, fun ⟨⟨hb, _⟩, hne, _⟩ => absurd hb hne⟩
    · simp only [splitOnce, if_neg hc, Option.map_eq_some_iff, Prod.mk.injEq, Prod.exists]
      constructor
      · rintro ⟨b, a, hs, rfl, rfl⟩
        obtain ⟨rfl, hb⟩ := ih.mp hs
        exact ⟨rfl, by simp [Ne.symm hc, hb]⟩
      · rintro ⟨heq, hb⟩
        cases before with
        | nil => simp at heq; exact absurd heq.1 hc
        | cons b bs =>
          simp only [List.cons_append, List.cons.injEq, List.mem_cons, not_or] at heq hb
          obtain ⟨rfl, rfl⟩ := heq
          exact ⟨bs, after, ih.mpr ⟨rfl, hb.2⟩, rfl, rfl⟩

theorem splitOnce_none {sep : Char} {cs : List Char} :
    splitOnce sep cs = none ↔ sep ∉ cs := by
  induction cs with
  | nil => simp [splitOnce]
  | cons c cs ih =>
    by_cases hc : c = sep
    · simp [splitOnce, hc]
    · simp [splitOnce, if_neg hc, ih, Ne.symm hc]

/-- The parts between the occurrences of `sep`, at least one. -/
def split (sep : Char) : List Char → List (List Char)
  | [] => [[]]
  | c :: cs =>
    if c = sep then [] :: split sep cs
    else
      match split sep cs with
      | part :: parts => (c :: part) :: parts
      | [] => [[c]]

/-- `sub` occurs in `cs` without a gap. -/
def hasInfix (sub : List Char) : List Char → Bool
  | [] => sub.isEmpty
  | c :: cs => sub.isPrefixOf (c :: cs) || hasInfix sub cs

theorem split_ne_nil (sep : Char) (cs : List Char) : split sep cs ≠ [] := by
  cases cs with
  | nil => simp [split]
  | cons c cs =>
    unfold split
    split
    · simp
    · split <;> simp

theorem split_cons {sep c : Char} (hc : c ≠ sep) (cs : List Char) :
    ∃ part parts, split sep cs = part :: parts ∧ split sep (c :: cs) = (c :: part) :: parts := by
  cases hs : split sep cs with
  | nil => exact absurd hs (split_ne_nil sep cs)
  | cons part parts => exact ⟨part, parts, rfl, by rw [split, if_neg hc, hs]⟩

/-- A separator separates the parts before it from those after it. -/
theorem split_append (sep : Char) (before after : List Char) :
    split sep (before ++ sep :: after) = split sep before ++ split sep after := by
  induction before with
  | nil => simp [split]
  | cons c before ih =>
    by_cases hc : c = sep
    · subst hc
      simp [split, ih]
    · obtain ⟨part, parts, hparts, hsplit⟩ := split_cons hc before
      obtain ⟨part', parts', hparts', hsplit'⟩ := split_cons hc (before ++ sep :: after)
      rw [List.cons_append, hsplit', hsplit]
      rw [ih, hparts, List.cons_append] at hparts'
      cases hparts'
      rfl

theorem split_of_not_mem {sep : Char} {cs : List Char} (h : sep ∉ cs) : split sep cs = [cs] := by
  induction cs with
  | nil => rfl
  | cons c cs ih =>
    rw [List.mem_cons, not_or] at h
    rw [split, if_neg (Ne.symm h.1), ih h.2]

theorem split_intercalate {texts : List (List Char)} {sep : Char} (hne : texts ≠ [])
    (h : ∀ text ∈ texts, sep ∉ text) : split sep (List.intercalate [sep] texts) = texts := by
  induction texts with
  | nil => exact absurd rfl hne
  | cons text texts ih =>
    cases texts with
    | nil => rw [List.intercalate_singleton, split_of_not_mem (h text List.mem_cons_self)]
    | cons next texts =>
      rw [List.intercalate_cons_cons, List.append_assoc, List.singleton_append, split_append,
        split_of_not_mem (h text List.mem_cons_self), List.singleton_append,
        ih (List.cons_ne_nil _ _) fun text htext => h text (.tail _ htext)]

/-- Text that does not end in a separator has a last part. -/
theorem getLast_split {sep c : Char} (hc : c ≠ sep) (cs : List Char) {part : List Char}
    (h : (split sep (cs ++ [c])).getLast? = some part) : part ≠ [] := by
  induction cs with
  | nil =>
    rw [List.nil_append, split, if_neg hc] at h
    cases h
    simp
  | cons d cs ih =>
    by_cases hd : d = sep
    · subst hd
      obtain ⟨first, parts, hparts⟩ := List.exists_cons_of_ne_nil (split_ne_nil d (cs ++ [c]))
      rw [hparts] at ih
      rw [List.cons_append, split, if_pos rfl, hparts, List.getLast?_cons_cons] at h
      exact ih h
    · obtain ⟨first, parts, hparts, hsplit⟩ := split_cons hd (cs ++ [c])
      rw [hparts] at ih
      rw [List.cons_append, hsplit] at h
      cases parts with
      | nil =>
        cases h
        simp
      | cons next parts =>
        rw [List.getLast?_cons_cons] at h ih
        exact ih h

/-- A character is a separator or stands in a part. -/
theorem mem_split {sep c : Char} {cs : List Char} (hc : c ∈ cs) :
    c = sep ∨ ∃ part ∈ split sep cs, c ∈ part := by
  induction cs with
  | nil => cases hc
  | cons d cs ih =>
    by_cases hd : d = sep
    · rw [split, if_pos hd]
      rcases List.mem_cons.mp hc with rfl | hc
      · exact .inl hd
      · rcases ih hc with hsep | ⟨part, hpart, hmem⟩
        · exact .inl hsep
        · exact .inr ⟨part, .tail _ hpart, hmem⟩
    · obtain ⟨first, parts, hparts, hsplit⟩ := split_cons hd cs
      rw [hsplit]
      rcases List.mem_cons.mp hc with rfl | hc
      · exact .inr ⟨_, List.mem_cons_self, List.mem_cons_self⟩
      · rcases ih hc with hsep | ⟨part, hpart, hmem⟩
        · exact .inl hsep
        · rw [hparts] at hpart
          rcases List.mem_cons.mp hpart with rfl | hpart
          · exact .inr ⟨_, List.mem_cons_self, .tail _ hmem⟩
          · exact .inr ⟨part, .tail _ hpart, hmem⟩

theorem hasInfix_iff {sub cs : List Char} : hasInfix sub cs = true ↔ sub <:+: cs := by
  induction cs with
  | nil => simp [hasInfix]
  | cons c cs ih =>
    simp only [hasInfix, Bool.or_eq_true, ih, List.infix_cons_iff, List.isPrefixOf_iff_prefix]

/-! ## Runs -/

/-- No run of such characters goes on at the start of the text. -/
def Stops (p : Char → Bool) (cs : List Char) : Prop := ∀ c, cs.head? = some c → p c = false

section
variable {p : Char → Bool} {run rest : List Char}

theorem Stops.nil : Stops p [] := fun _ h => by cases h

theorem Stops.cons {c : Char} (h : p c = false) : Stops p (c :: rest) := by
  intro d hd
  cases hd
  exact h

theorem stops_dropWhile (cs : List Char) : Stops p (cs.dropWhile p) := by
  intro c hc
  have h := List.head?_dropWhile_not p cs
  rw [hc] at h
  exact h

theorem Stops.takeWhile (h : Stops p rest) : rest.takeWhile p = [] := by
  cases rest with
  | nil => rfl
  | cons c rest => rw [List.takeWhile_cons, h c rfl, if_neg Bool.false_ne_true]

theorem Stops.dropWhile (h : Stops p rest) : rest.dropWhile p = rest := by
  cases rest with
  | nil => rfl
  | cons c rest => rw [List.dropWhile_cons, h c rfl, if_neg Bool.false_ne_true]

/-- A run ends where it stops. -/
theorem takeWhile_run (hrun : ∀ c ∈ run, p c = true) (h : Stops p rest) :
    (run ++ rest).takeWhile p = run := by
  rw [List.takeWhile_append_of_pos hrun, h.takeWhile, List.append_nil]

theorem dropWhile_run (hrun : ∀ c ∈ run, p c = true) (h : Stops p rest) :
    (run ++ rest).dropWhile p = rest := by
  rw [List.dropWhile_append_of_pos hrun, h.dropWhile]

end

/-! ## Trimming -/

/-- Drops the longest suffix whose characters satisfy `p`. -/
def trimEndMatches (p : Char → Bool) (cs : List Char) : List Char :=
  (cs.reverse.dropWhile p).reverse

def trimStart (cs : List Char) : List Char := cs.dropWhile isWhiteSpace

def trim (cs : List Char) : List Char := trimEndMatches isWhiteSpace (trimStart cs)

/-- Text that ends in no such character is left alone. -/
theorem trimEndMatches_of_last {p : Char → Bool} {cs : List Char}
    (h : ∀ c, cs.getLast? = some c → p c = false) : trimEndMatches p cs = cs := by
  unfold trimEndMatches
  cases hr : cs.reverse with
  | nil => rw [List.reverse_eq_nil_iff.mp hr]; rfl
  | cons c rest =>
    have hlast : cs.getLast? = some c := by rw [← List.head?_reverse, hr]; rfl
    rw [List.dropWhile_cons_of_neg (by simp [h c hlast]), ← hr, List.reverse_reverse]

/-- One trimmed character at the end. -/
theorem trimEndMatches_append_singleton {p : Char → Bool} (cs : List Char) {c : Char}
    (hc : p c = true) : trimEndMatches p (cs ++ [c]) = trimEndMatches p cs := by
  simp [trimEndMatches, hc]

theorem prefix_trimEndMatches (p : Char → Bool) (cs : List Char) : trimEndMatches p cs <+: cs := by
  have hsuffix := @List.dropWhile_suffix _ cs.reverse p
  rw [← List.reverse_prefix, List.reverse_reverse] at hsuffix
  exact hsuffix

theorem trimEndMatches_again (p : Char → Bool) (cs : List Char) :
    trimEndMatches p (trimEndMatches p cs) = trimEndMatches p cs := by
  unfold trimEndMatches
  rw [List.reverse_reverse, (stops_dropWhile cs.reverse).dropWhile]

/-- So is text without white space by `trim`. -/
theorem trim_word {cs : List Char} (h : ∀ c ∈ cs, isWhiteSpace c = false) : trim cs = cs := by
  have hstart : Stops isWhiteSpace cs := fun c hc => h c (List.mem_of_mem_head? hc)
  rw [trim, trimStart, hstart.dropWhile]
  exact trimEndMatches_of_last fun c hc => h c (List.mem_of_mem_getLast? hc)

/-- Trimmed text is left alone. -/
theorem trim_trim (cs : List Char) : trim (trim cs) = trim cs := by
  have hstops : Stops isWhiteSpace (trim cs) := by
    intro c hc
    obtain ⟨rest, hrest⟩ := prefix_trimEndMatches isWhiteSpace (trimStart cs)
    refine stops_dropWhile cs c ?_
    show (trimStart cs).head? = some c
    rw [← hrest, List.head?_append]
    show (trim cs).head?.or rest.head? = some c
    rw [hc, Option.some_or]
  show trimEndMatches isWhiteSpace ((trim cs).dropWhile isWhiteSpace) = trim cs
  rw [hstops.dropWhile]
  exact trimEndMatches_again isWhiteSpace (trimStart cs)

/-- `cs` without a final `c`, if it has one. -/
def stripSuffix (c : Char) (cs : List Char) : Option (List Char) :=
  if cs.getLast? = some c then some cs.dropLast else none

end Text
