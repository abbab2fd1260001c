import Mathlib.Algebra.Group.Int.Defs
import Mathlib.Algebra.Ring.Nat
import Novbot.Lib.Text

/-!
# Slices of text

Byte offsets into text.  `sliceFrom` and `sliceTo` are `&text[i..]` and `&text[..i]`, which
panic past the end of the text and inside a character; a slice at the length of a prefix is
what follows it (`sliceFrom_eq_some_iff`).
-/

namespace Text

/-- The length of text in bytes. -/
def byteLen (cs : List Char) : Nat := (cs.map Char.utf8Size).sum

/-- `&text[i..]`. -/
def sliceFrom : Nat → List Char → Option (List Char)
  | 0, cs => some cs
  | _ + 1, [] => none
  | i + 1, c :: cs => if c.utf8Size ≤ i + 1 then sliceFrom (i + 1 - c.utf8Size) cs else none

/-- `&text[..i]`. -/
def sliceTo : Nat → List Char → Option (List Char)
  | 0, _ => some []
  | _ + 1, [] => none
  | i + 1, c :: cs =>
    if c.utf8Size ≤ i + 1 then (sliceTo (i + 1 - c.utf8Size) cs).map (c :: ·) else none

/-- An offset at which text may be cut. -/
def OnBoundary (cs : List Char) (i : Nat) : Prop := ∃ rest, sliceFrom i cs = some rest

section
variable {a b cs rest : List Char} {i j : Nat} {c : Char}

theorem byteLen_append (a b : List Char) : byteLen (a ++ b) = byteLen a + byteLen b := by
  rw [byteLen, List.map_append, List.sum_append, byteLen, byteLen]

theorem byteLen_cons (c : Char) (cs : List Char) : byteLen (c :: cs) = c.utf8Size + byteLen cs := by
  rw [byteLen, List.map_cons, List.sum_cons, byteLen]

theorem sliceFrom_zero (cs : List Char) : sliceFrom 0 cs = some cs := sliceFrom.eq_1 cs

theorem onBoundary_zero (cs : List Char) : OnBoundary cs 0 := ⟨cs, sliceFrom_zero cs⟩

theorem sliceFrom_cons (c : Char) (cs : List Char) (i : Nat) :
    sliceFrom (c.utf8Size + i) (c :: cs) = sliceFrom i cs := by
  obtain ⟨size, hsize⟩ : ∃ size, c.utf8Size = size + 1 :=
    ⟨c.utf8Size - 1, (Nat.succ_pred_eq_of_pos c.utf8Size_pos).symm⟩
  have hi : c.utf8Size + i = (size + i) + 1 := by omega
  rw [hi, sliceFrom, if_pos (by omega), hsize]
  congr 1
  omega

theorem sliceTo_cons (c : Char) (cs : List Char) (i : Nat) :
    sliceTo (c.utf8Size + i) (c :: cs) = (sliceTo i cs).map (c :: ·) := by
  obtain ⟨size, hsize⟩ : ∃ size, c.utf8Size = size + 1 :=
    ⟨c.utf8Size - 1, (Nat.succ_pred_eq_of_pos c.utf8Size_pos).symm⟩
  have hi : c.utf8Size + i = (size + i) + 1 := by omega
  rw [hi, sliceTo, if_pos (by omega), hsize]
  congr 2
  omega

theorem sliceFrom_append (a b : List Char) : sliceFrom (byteLen a) (a ++ b) = some b := by
  induction a with
  | nil => rw [List.nil_append]; exact sliceFrom_zero b
  | cons c a ih => rw [List.cons_append, byteLen_cons, sliceFrom_cons, ih]

theorem sliceTo_append (a b : List Char) : sliceTo (byteLen a) (a ++ b) = some a := by
  induction a with
  | nil => exact sliceTo.eq_1 _
  | cons c a ih =>
    rw [List.cons_append, byteLen_cons, sliceTo_cons, ih]
    rfl

theorem sliceFrom_eq_some_iff :
    sliceFrom i cs = some rest ↔ ∃ a, cs = a ++ rest ∧ i = byteLen a := by
  constructor
  · intro h
    induction cs generalizing i with
    | nil =>
      cases i with
      | zero =>
        cases h
        exact ⟨[], rfl, rfl⟩
      | succ i => cases h
    | cons c cs ih =>
      cases i with
      | zero =>
        cases h
        exact ⟨[], rfl, rfl⟩
      | succ i =>
        rw [sliceFrom] at h
        split at h
        · next hle =>
          obtain ⟨a, rfl, ha⟩ := ih h
          refine ⟨c :: a, rfl, ?_⟩
          rw [byteLen_cons]
          omega
        · cases h
  · rintro ⟨a, rfl, rfl⟩
    exact sliceFrom_append a rest

/-- Where the rest begins there the head ends. -/
theorem sliceTo_eq_some_iff : sliceTo i cs = some a ↔ ∃ rest, cs = a ++ rest ∧ i = byteLen a := by
  constructor
  · intro h
    induction cs generalizing i a with
    | nil =>
      cases i with
      | zero =>
        cases h
        exact ⟨[], rfl, rfl⟩
      | succ i => cases h
    | cons c cs ih =>
      cases i with
      | zero =>
        cases h
        exact ⟨c :: cs, rfl, rfl⟩
      | succ i =>
        rw [sliceTo] at h
        split at h
        · next hle =>
          obtain ⟨head, hhead, rfl⟩ := Option.map_eq_some_iff.mp h
          obtain ⟨rest, rfl, hlen⟩ := ih hhead
          refine ⟨rest, rfl, ?_⟩
          rw [byteLen_cons]
          omega
        · cases h
  · rintro ⟨rest, rfl, rfl⟩
    exact sliceTo_append a rest

theorem OnBoundary.le (h : OnBoundary cs i) : i ≤ byteLen cs := by
  obtain ⟨rest, hrest⟩ := h
  obtain ⟨a, rfl, rfl⟩ := sliceFrom_eq_some_iff.mp hrest
  rw [byteLen_append]
  exact Nat.le_add_right _ _

/-- After what is read there is what follows it. -/
theorem sliceFrom_advance (h : sliceFrom i cs = some (a ++ rest)) :
    sliceFrom (i + byteLen a) cs = some rest := by
  obtain ⟨before, rfl, rfl⟩ := sliceFrom_eq_some_iff.mp h
  exact sliceFrom_eq_some_iff.mpr ⟨before ++ a, by rw [List.append_assoc], (byteLen_append _ _).symm⟩

theorem sliceFrom_eq_nil_iff (h : sliceFrom i cs = some rest) : byteLen cs ≤ i ↔ rest = [] := by
  obtain ⟨a, rfl, rfl⟩ := sliceFrom_eq_some_iff.mp h
  rw [byteLen_append]
  cases rest with
  | nil => simp [byteLen]
  | cons c rest =>
    have hpos := c.utf8Size_pos
    rw [byteLen_cons]
    refine iff_of_false (by omega) (List.cons_ne_nil _ _)

theorem utf8Size_ascii (h : c.toNat < 0x80) : c.utf8Size = 1 := by
  have hval : c.val.toNat < 0x80 := h
  rw [Char.utf8Size, if_pos]
  exact Nat.le_of_lt_succ hval

/-- The first byte of text is an ASCII character if and only if its first character is. -/
theorem head?_utf8 (hc : c.toNat < 0x80) :
    (utf8 cs).head? = some (UInt8.ofNat c.toNat) ↔ cs.head? = some c := by
  cases cs with
  | nil => simp [utf8]
  | cons d cs =>
    have hmax : d.toNat < 0x110000 := by
      rcases d.valid with h | h
      · exact Nat.lt_trans h (by decide)
      · exact h.2
    have hval : d.val.toNat = d.toNat := rfl
    have hbyte : ∀ {n : Nat}, n < 256 → (UInt8.ofNat n = UInt8.ofNat c.toNat ↔ n = c.toNat) := by
      intro n hn
      refine ⟨fun heq => ?_, fun heq => by rw [heq]⟩
      rw [← toNat_byte hn, heq, toNat_byte (by omega)]
    have hchar : d = c ↔ d.toNat = c.toNat := Char.toNat_inj.symm
    rw [utf8, List.flatMap_cons, List.head?_cons, Option.some_inj, hchar]
    simp only [String.utf8EncodeChar, hval]
    split
    · rw [List.singleton_append, List.head?_cons, Option.some_inj]
      exact hbyte (by omega)
    · split
      · rw [List.cons_append, List.head?_cons, Option.some_inj]
        refine (hbyte (by omega)).trans (iff_of_false (by omega) (by omega))
      · split
        · rw [List.cons_append, List.head?_cons, Option.some_inj]
          refine (hbyte (by omega)).trans (iff_of_false (by omega) (by omega))
        · rw [List.cons_append, List.head?_cons, Option.some_inj]
          refine (hbyte (by omega)).trans (iff_of_false (by omega) (by omega))

end

end Text
