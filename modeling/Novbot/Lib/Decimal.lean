import Novbot.Lib.Text

/-!
# Decimal numbers

`str::parse` of the unsigned types, and the decimal text of a number, which is read back
(`parseUnsigned_toDigits`) and has no white space in it.
-/

namespace Text

/-- A number may have a plus sign. -/
def dropPlus : List Char → List Char
  | '+' :: cs => cs
  | cs => cs

theorem dropPlus_cons {c : Char} (h : c ≠ '+') (cs : List Char) : dropPlus (c :: cs) = c :: cs := by
  rw [dropPlus]
  intro rest hcs
  exact h (List.cons.inj hcs).1

/-- `str::parse` of an unsigned type of so many bits. -/
def parseUnsigned (bits : Nat) (cs : List Char) : Option Nat :=
  if dropPlus cs ≠ [] ∧ (dropPlus cs).all isAsciiDigit then
    (some (Nat.ofDigitChars 10 (dropPlus cs) 0)).filter (· < 2 ^ bits)
  else none

/-- The decimal text of a number, with its sign. -/
def intDigits (n : Int) : List Char :=
  if n < 0 then '-' :: Nat.toDigits 10 n.natAbs else Nat.toDigits 10 n.natAbs

theorem all_toDigits (n : Nat) : (Nat.toDigits 10 n).all isAsciiDigit = true := by
  rw [List.all_eq_true]
  intro c hc
  exact Nat.isDigit_of_mem_toDigits (by decide) le_rfl hc

/-- What is written of a number is read back. -/
theorem parseUnsigned_toDigits {bits n : Nat} (h : n < 2 ^ bits) :
    parseUnsigned bits (Nat.toDigits 10 n) = some n := by
  have hall := all_toDigits n
  have hne : Nat.toDigits 10 n ≠ [] := Nat.toDigits_ne_nil
  have hvalue : Nat.ofDigitChars 10 (Nat.toDigits 10 n) 0 = n := Nat.ofDigitChars_ten_toDigits
  cases hdigits : Nat.toDigits 10 n with
  | nil => exact absurd hdigits hne
  | cons c cs =>
    rw [hdigits] at hall hvalue
    have hplus : c ≠ '+' := by
      rintro rfl
      cases hall
    rw [parseUnsigned, dropPlus_cons hplus, if_pos ⟨List.cons_ne_nil _ _, hall⟩, hvalue]
    exact Option.filter_some_pos (decide_eq_true h)

theorem visible_of_digit {c : Char} (h : isAsciiDigit c = true) :
    isWhiteSpace c = false ∧ c ≠ '(' ∧ c ≠ ')' := by
  rw [isAsciiDigit, Bool.and_eq_true, decide_eq_true_eq, decide_eq_true_eq] at h
  have hlow : 48 ≤ c.toNat := h.1
  have hhigh : c.toNat ≤ 57 := h.2
  refine ⟨?_, ?_, ?_⟩
  · rw [isWhiteSpace]
    simp only [Bool.or_eq_false_iff, Bool.and_eq_false_iff, decide_eq_false_iff_not, beq_eq_false_iff_ne]
    omega
  · rintro rfl
    exact absurd hlow (by decide)
  · rintro rfl
    exact absurd hlow (by decide)

/-- No white space and no parenthesis. -/
theorem visible_intDigits (n : Int) :
    intDigits n ≠ [] ∧ ∀ c ∈ intDigits n, isWhiteSpace c = false ∧ c ≠ '(' ∧ c ≠ ')' := by
  have hdigits : ∀ c ∈ Nat.toDigits 10 n.natAbs, isWhiteSpace c = false ∧ c ≠ '(' ∧ c ≠ ')' :=
    fun c hc => visible_of_digit (List.all_eq_true.mp (all_toDigits n.natAbs) c hc)
  rw [intDigits]
  split
  · refine ⟨List.cons_ne_nil _ _, fun c hc => ?_⟩
    rcases List.mem_cons.mp hc with rfl | hc
    · decide
    · exact hdigits c hc
  · exact ⟨Nat.toDigits_ne_nil, hdigits⟩

theorem toDigits_inj {n m : Nat} (h : Nat.toDigits 10 n = Nat.toDigits 10 m) : n = m := by
  have hvalue := congrArg (Nat.ofDigitChars 10 · 0) h
  simpa only [Nat.ofDigitChars_ten_toDigits] using hvalue

theorem minus_not_mem (n : Nat) : '-' ∉ Nat.toDigits 10 n := by
  intro h
  have hdigit := List.all_eq_true.mp (all_toDigits n) '-' h
  cases hdigit

/-- Different numbers have different texts. -/
theorem intDigits_inj {n m : Int} (h : intDigits n = intDigits m) : n = m := by
  rw [intDigits, intDigits] at h
  split at h
  · next hn =>
    split at h
    · next hm =>
      have habs := toDigits_inj (List.cons.inj h).2
      omega
    · exact absurd (h ▸ List.mem_cons_self) (minus_not_mem m.natAbs)
  · next hn =>
    split at h
    · exact absurd (h ▸ List.mem_cons_self) (minus_not_mem n.natAbs)
    · next hm =>
      have habs := toDigits_inj h
      omega

theorem intDigits_natCast (n : Nat) : intDigits n = Nat.toDigits 10 n := by
  rw [intDigits, if_neg (by omega), Int.natAbs_natCast]

end Text
