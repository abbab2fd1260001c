import Novbot.Lib.Utf8

/-!
# Lossy reading

`String::from_utf8_lossy`, one byte at a time: each longest beginning of a character that is not
completed becomes one U+FFFD.  Text is read as it is (`fromUtf8Lossy_utf8`).
-/

namespace Text

def replacement : Char := '\uFFFD'

/-- A character that has begun: how many bytes it lacks, the bounds of the next one, and its bits
so far. -/
structure Pending where
  owed : Nat
  least : Nat
  most : Nat
  code : Nat

/-- The character that a leading byte begins. -/
def leading (b : Nat) : Option Pending :=
  if 0xC2 ≤ b ∧ b < 0xE0 then some ⟨1, 0x80, 0xBF, b - 0xC0⟩
  else if b = 0xE0 then some ⟨2, 0xA0, 0xBF, 0⟩
  else if b = 0xED then some ⟨2, 0x80, 0x9F, 0xD⟩
  else if 0xE1 ≤ b ∧ b < 0xF0 then some ⟨2, 0x80, 0xBF, b - 0xE0⟩
  else if b = 0xF0 then some ⟨3, 0x90, 0xBF, 0⟩
  else if b = 0xF4 then some ⟨3, 0x80, 0x8F, 4⟩
  else if 0xF1 ≤ b ∧ b < 0xF4 then some ⟨3, 0x80, 0xBF, b - 0xF0⟩
  else none

/-- A byte between characters. -/
def lossyStart (b : Nat) : List Char × Option Pending :=
  if b < 0x80 then ([.ofNat b], none)
  else
    match leading b with
    | some pending => ([], some pending)
    | none => ([replacement], none)

def lossyStep : Option Pending → Nat → List Char × Option Pending
  | none, b => lossyStart b
  | some p, b =>
    if p.least ≤ b ∧ b ≤ p.most then
      let code := p.code * 64 + (b - 0x80)
      if p.owed = 1 then ([.ofNat code], none) else ([], some ⟨p.owed - 1, 0x80, 0xBF, code⟩)
    else (replacement :: (lossyStart b).1, (lossyStart b).2)

def lossyRun : Option Pending → List UInt8 → List Char
  | none, [] => []
  | some _, [] => [replacement]
  | pending, b :: bytes =>
    (lossyStep pending b.toNat).1 ++ lossyRun (lossyStep pending b.toNat).2 bytes

/-- `String::from_utf8_lossy`. -/
def fromUtf8Lossy (bytes : List UInt8) : List Char := lossyRun none bytes

theorem lossyRun_start (b : Nat) (hb : b < 256) (bytes : List UInt8) :
    lossyRun none (UInt8.ofNat b :: bytes) =
      (lossyStart b).1 ++ lossyRun (lossyStart b).2 bytes := by
  rw [lossyRun, toNat_byte hb, lossyStep]

/-- A byte that goes on with a character, before its last one. -/
theorem lossyRun_next {p : Pending} {n : Nat} (hn : n < 64) (hleast : p.least ≤ n + 128)
    (hmost : n + 128 ≤ p.most) (howed : p.owed ≠ 1) (bytes : List UInt8) :
    lossyRun (some p) (UInt8.ofNat (n + 128) :: bytes) =
      lossyRun (some ⟨p.owed - 1, 0x80, 0xBF, p.code * 64 + n⟩) bytes := by
  rw [lossyRun, toNat_byte (by omega), lossyStep, if_pos ⟨hleast, hmost⟩]
  dsimp only
  rw [if_neg howed, Nat.add_sub_cancel, List.nil_append]

theorem lossyRun_last {p : Pending} {n : Nat} (hn : n < 64) (hleast : p.least ≤ n + 128)
    (hmost : n + 128 ≤ p.most) (howed : p.owed = 1) (bytes : List UInt8) :
    lossyRun (some p) (UInt8.ofNat (n + 128) :: bytes) =
      .ofNat (p.code * 64 + n) :: lossyRun none bytes := by
  rw [lossyRun, toNat_byte (by omega), lossyStep, if_pos ⟨hleast, hmost⟩]
  dsimp only
  rw [if_pos howed, Nat.add_sub_cancel, List.singleton_append]

/-- The first two bytes of a character of three. -/
theorem leading_three {high mid low : Nat} (hhigh : high < 16) (hmid : mid < 64) (hlow : low < 64)
    (hleast : 0x800 ≤ high * 4096 + mid * 64 + low)
    (hvalid : high * 4096 + mid * 64 + low < 0xD800 ∨ 0xDFFF < high * 4096 + mid * 64 + low) :
    ∃ p, leading (high + 224) = some p ∧ p.owed = 2 ∧ p.code = high ∧ p.least ≤ mid + 128 ∧
      mid + 128 ≤ p.most := by
  unfold leading
  split
  · omega
  · split
    · exact ⟨_, rfl, rfl, by dsimp only; omega, by dsimp only; omega, by dsimp only; omega⟩
    · split
      · exact ⟨_, rfl, rfl, by dsimp only; omega, by dsimp only; omega, by dsimp only; omega⟩
      · rw [if_pos (by omega)]
        exact ⟨_, rfl, rfl, by dsimp only; omega, by dsimp only; omega, by dsimp only; omega⟩

/-- The first two bytes of a character of four. -/
theorem leading_four {high mid low : Nat} (hmid : mid < 64) (hlow : low < 4096)
    (hleast : 0x10000 ≤ high * 262144 + mid * 4096 + low)
    (hmost : high * 262144 + mid * 4096 + low < 0x110000) :
    ∃ p, leading (high + 240) = some p ∧ p.owed = 3 ∧ p.code = high ∧ p.least ≤ mid + 128 ∧
      mid + 128 ≤ p.most := by
  unfold leading
  rw [if_neg (by omega), if_neg (by omega), if_neg (by omega), if_neg (by omega)]
  split
  · exact ⟨_, rfl, rfl, by dsimp only; omega, by dsimp only; omega, by dsimp only; omega⟩
  · split
    · exact ⟨_, rfl, rfl, by dsimp only; omega, by dsimp only; omega, by dsimp only; omega⟩
    · rw [if_pos (by omega)]
      exact ⟨_, rfl, rfl, by dsimp only; omega, by dsimp only; omega, by dsimp only; omega⟩

theorem lossyStart_leading {b : Nat} {p : Pending} (hb : 0x80 ≤ b) (h : leading b = some p) :
    lossyStart b = ([], some p) := by
  rw [lossyStart, if_neg (by omega), h]

/-- One encoded character is read back. -/
theorem lossyRun_char (c : Char) (bytes : List UInt8) :
    lossyRun none (String.utf8EncodeChar c ++ bytes) = c :: lossyRun none bytes := by
  have hval : c.val.toNat = c.toNat := rfl
  have hof : ∀ n, n = c.toNat → Char.ofNat n = c := fun n hn => by rw [hn, Char.ofNat_toNat]
  have hvalid : c.toNat < 0xD800 ∨ 0xDFFF < c.toNat ∧ c.toNat < 0x110000 := c.valid
  simp only [String.utf8EncodeChar, hval]
  generalize c.toNat = v at hof hvalid
  split
  · rw [List.singleton_append, lossyRun_start _ (by omega), lossyStart, if_pos (by omega), hof v rfl]
    rfl
  · split
    · have hlead : leading (v / 64 % 32 + 192) = some ⟨1, 0x80, 0xBF, v / 64 % 32 + 192 - 0xC0⟩ := by
        rw [leading, if_pos (by omega)]
      rw [List.cons_append, List.singleton_append, lossyRun_start _ (by omega),
        lossyStart_leading (by omega) hlead]
      rw [List.nil_append, lossyRun_last (by omega) (by dsimp only; omega) (by dsimp only; omega) rfl,
        hof _ (by dsimp only; omega)]
    · split
      · obtain ⟨p, hlead, howed, hcode, hleast, hmost⟩ := @leading_three (v / 4096 % 16) (v / 64 % 64)
          (v % 64) (by omega) (by omega) (by omega) (by omega) (by omega)
        rw [List.cons_append, List.cons_append, List.singleton_append, lossyRun_start _ (by omega),
          lossyStart_leading (by omega) hlead]
        rw [List.nil_append, lossyRun_next (by omega) hleast hmost (by omega),
          lossyRun_last (by omega) (by dsimp only; omega) (by dsimp only; omega) (by dsimp only; omega),
          hof _ (by dsimp only; omega)]
      · obtain ⟨p, hlead, howed, hcode, hleast, hmost⟩ := @leading_four (v / 262144 % 8)
          (v / 4096 % 64) (v % 4096) (by omega) (by omega) (by omega) (by omega)
        rw [List.cons_append, List.cons_append, List.cons_append, List.singleton_append,
          lossyRun_start _ (by omega), lossyStart_leading (by omega) hlead]
        rw [List.nil_append, lossyRun_next (by omega) hleast hmost (by omega),
          lossyRun_next (by omega) (by dsimp only; omega) (by dsimp only; omega)
            (by dsimp only; omega),
          lossyRun_last (by omega) (by dsimp only; omega) (by dsimp only; omega) (by dsimp only; omega),
          hof _ (by dsimp only; omega)]

/-- Text is read as it is. -/
theorem fromUtf8Lossy_utf8 (cs : List Char) : fromUtf8Lossy (utf8 cs) = cs := by
  rw [fromUtf8Lossy]
  induction cs with
  | nil => rfl
  | cons c cs ih => rw [utf8_cons, lossyRun_char, ih]

/-- The next byte of a character that has begun is not ASCII. -/
def Begun (pending : Option Pending) : Prop := ∀ p, pending = some p → 0x80 ≤ p.least

theorem begun_leading {b : Nat} : Begun (leading b) := by
  intro p h
  unfold leading at h
  split_ifs at h <;> cases h <;> dsimp only <;> omega

theorem begun_lossyStart (b : Nat) : Begun (lossyStart b).2 := by
  rw [lossyStart]
  split
  · exact fun p h => by cases h
  · split
    · next p hlead => exact fun q hq => begun_leading q (hlead.trans hq)
    · exact fun p h => by cases h

theorem Begun.step {pending : Option Pending} (b : Nat) : Begun (lossyStep pending b).2 := by
  cases pending with
  | none => exact begun_lossyStart b
  | some p =>
    rw [lossyStep]
    split
    · dsimp only
      split
      · exact fun q hq => by cases hq
      · intro q hq
        cases hq
        exact Nat.le_refl _
    · exact begun_lossyStart b

/-- An ASCII byte ends what is in front of it. -/
theorem lossyRun_append_ascii {b : UInt8} (hb : b.toNat < 0x80) {pending : Option Pending}
    (hbegun : Begun pending) (bytes rest : List UInt8) :
    lossyRun pending (bytes ++ b :: rest) =
      lossyRun pending bytes ++ .ofNat b.toNat :: lossyRun none rest := by
  have hstart : lossyStart b.toNat = ([.ofNat b.toNat], none) := by rw [lossyStart, if_pos hb]
  induction bytes generalizing pending with
  | nil =>
    cases pending with
    | none =>
      show (lossyStart b.toNat).1 ++ lossyRun (lossyStart b.toNat).2 rest = _
      rw [hstart]
      rfl
    | some p =>
      have hleast := hbegun p rfl
      have hstep : lossyStep (some p) b.toNat = ([replacement, .ofNat b.toNat], none) := by
        show (if p.least ≤ b.toNat ∧ b.toNat ≤ p.most then _ else _) = _
        rw [if_neg (by omega), hstart]
      show (lossyStep (some p) b.toNat).1 ++ lossyRun (lossyStep (some p) b.toNat).2 rest = _
      rw [hstep]
      rfl
  | cons a bytes ih =>
    rw [List.cons_append, lossyRun, ih (Begun.step a.toNat), lossyRun, List.append_assoc]

theorem fromUtf8Lossy_append_ascii {b : UInt8} (hb : b.toNat < 0x80) (bytes rest : List UInt8) :
    fromUtf8Lossy (bytes ++ b :: rest) =
      fromUtf8Lossy bytes ++ .ofNat b.toNat :: fromUtf8Lossy rest :=
  lossyRun_append_ascii hb (fun p h => by cases h) bytes rest

/-- Text in front of other bytes is read as it is. -/
theorem fromUtf8Lossy_utf8_append (cs : List Char) (bytes : List UInt8) :
    fromUtf8Lossy (utf8 cs ++ bytes) = cs ++ fromUtf8Lossy bytes := by
  induction cs with
  | nil => rfl
  | cons c cs ih =>
    rw [utf8_cons, List.append_assoc, fromUtf8Lossy, lossyRun_char, ← fromUtf8Lossy, ih, List.cons_append]

end Text
