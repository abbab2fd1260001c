import Novbot.Lib.Text

/-!
# Boundaries of characters

A character is one leading byte and some continuation bytes.  A cut through the bytes of a
text in front of a byte that is no continuation is a cut between two of its characters
(`utf8_cut`).
-/

namespace Text

def Continues (b : UInt8) : Prop := 0x80 ≤ b.toNat ∧ b.toNat < 0xC0

@[simp] theorem utf8_nil : utf8 [] = [] := rfl

theorem utf8_cons (c : Char) (cs : List Char) : utf8 (c :: cs) = String.utf8EncodeChar c ++ utf8 cs := by
  rw [utf8, List.flatMap_cons, utf8]

theorem utf8_append (a b : List Char) : utf8 (a ++ b) = utf8 a ++ utf8 b := List.flatMap_append

/-- The bytes of a character: one that begins it, and is the character itself in ASCII, and
the rest. -/
theorem utf8EncodeChar_shape (c : Char) :
    ∃ lead rest, String.utf8EncodeChar c = lead :: rest ∧
      (lead.toNat = c.toNat ∧ c.toNat < 0x80 ∨ 0xC0 ≤ lead.toNat) ∧ ∀ b ∈ rest, Continues b := by
  have hmax : c.toNat < 0x110000 := by
    rcases c.valid with h | h
    · exact Nat.lt_trans h (by decide)
    · exact h.2
  have hval : c.val.toNat = c.toNat := rfl
  have htail : ∀ n, Continues (UInt8.ofNat (n % 64 + 128)) := by
    intro n
    rw [Continues, toNat_byte (by omega)]
    omega
  have hnone : ∀ b ∈ ([] : List UInt8), Continues b := fun b hb => absurd hb List.not_mem_nil
  simp only [String.utf8EncodeChar, hval]
  split
  · refine ⟨_, _, rfl, .inl ⟨?_, by omega⟩, hnone⟩
    rw [toNat_byte (by omega)]
  · split
    · refine ⟨_, _, rfl, .inr ?_, List.forall_mem_cons.mpr ⟨htail _, hnone⟩⟩
      rw [toNat_byte (by omega)]
      omega
    · split
      · refine ⟨_, _, rfl, .inr ?_,
          List.forall_mem_cons.mpr ⟨htail _, List.forall_mem_cons.mpr ⟨htail _, hnone⟩⟩⟩
        rw [toNat_byte (by omega)]
        omega
      · refine ⟨_, _, rfl, .inr ?_, List.forall_mem_cons.mpr ⟨htail _,
          List.forall_mem_cons.mpr ⟨htail _, List.forall_mem_cons.mpr ⟨htail _, hnone⟩⟩⟩⟩
        rw [toNat_byte (by omega)]
        omega

/-- The first byte of a character continues none. -/
theorem head_utf8EncodeChar (c : Char) {b : UInt8} (h : (String.utf8EncodeChar c).head? = some b) :
    ¬ Continues b := by
  obtain ⟨lead, rest, hshape, hlead, -⟩ := utf8EncodeChar_shape c
  rw [hshape, List.head?_cons, Option.some_inj] at h
  subst h
  rintro ⟨hlow, hhigh⟩
  omega

/-- A byte of ASCII stands in a text only for its character. -/
theorem ascii_of_mem_utf8EncodeChar {c : Char} {b : UInt8} (hb : b ∈ String.utf8EncodeChar c)
    (hascii : b.toNat < 0x80) : c.toNat = b.toNat := by
  obtain ⟨lead, rest, hshape, hlead, hrest⟩ := utf8EncodeChar_shape c
  rw [hshape] at hb
  rcases List.mem_cons.mp hb with rfl | hb
  · omega
  · have hcont := hrest b hb
    exact absurd hcont.1 (by omega)

theorem utf8_eq_nil {cs : List Char} : utf8 cs = [] ↔ cs = [] := by
  cases cs with
  | nil => simp
  | cons c cs =>
    obtain ⟨lead, rest, hshape, -⟩ := utf8EncodeChar_shape c
    simp [utf8_cons, hshape]

theorem utf8_inj {cs ds : List Char} : utf8 cs = utf8 ds ↔ cs = ds := by
  constructor
  · intro h
    have hread := congrArg fromUtf8 h
    rw [fromUtf8_utf8, fromUtf8_utf8] at hread
    exact Option.some.inj hread
  · rintro rfl
    rfl

/-- An ASCII character is its one byte. -/
theorem utf8EncodeChar_ascii {c : Char} (h : c.toNat < 0x80) :
    String.utf8EncodeChar c = [UInt8.ofNat c.toNat] := by
  have hval : c.val.toNat = c.toNat := rfl
  simp only [String.utf8EncodeChar, hval]
  rw [if_pos (by omega)]

/-- A text whose bytes begin with a character begins with it. -/
theorem cons_of_utf8 {cs : List Char} {c : Char} {bytes : List UInt8}
    (h : utf8 cs = String.utf8EncodeChar c ++ bytes) : ∃ rest, cs = c :: rest ∧ utf8 rest = bytes := by
  have hread := fromUtf8_utf8 cs
  rw [h, fromUtf8_char] at hread
  obtain ⟨rest, -, rfl⟩ := Option.map_eq_some_iff.mp hread
  rw [utf8_cons] at h
  exact ⟨rest, rfl, List.append_cancel_left h⟩

/-- A cut in front of the end, or of a byte that begins a character. -/
theorem utf8_cut {cs : List Char} {before after : List UInt8} (h : utf8 cs = before ++ after)
    (hcut : ∀ b, after.head? = some b → ¬ Continues b) :
    ∃ left right, cs = left ++ right ∧ utf8 left = before ∧ utf8 right = after := by
  induction cs generalizing before with
  | nil =>
    obtain ⟨rfl, rfl⟩ := List.append_eq_nil_iff.mp h.symm
    exact ⟨[], [], rfl, rfl, rfl⟩
  | cons c cs ih =>
    cases before with
    | nil => exact ⟨[], c :: cs, rfl, rfl, h⟩
    | cons byte before =>
      obtain ⟨lead, rest, hshape, -, hrest⟩ := utf8EncodeChar_shape c
      rw [utf8_cons, hshape, List.cons_append, List.cons_append, List.cons.injEq] at h
      obtain ⟨rfl, h⟩ := h
      -- the cut is behind the character, or in front of one of its continuation bytes
      rcases List.append_eq_append_iff.mp h with ⟨more, rfl, hmore⟩ | ⟨inner, hinner, hafter⟩
      · obtain ⟨left, right, rfl, hleft, hright⟩ := ih hmore
        refine ⟨c :: left, right, rfl, ?_, hright⟩
        rw [utf8_cons, hshape, hleft, List.cons_append]
      · cases inner with
        | nil =>
          rw [List.append_nil] at hinner
          rw [List.nil_append] at hafter
          refine ⟨[c], cs, rfl, ?_, hafter.symm⟩
          rw [utf8_cons, hshape, hinner, utf8_nil, List.append_nil]
        | cons b inner =>
          refine absurd (hrest b ?_) (hcut b ?_)
          · rw [hinner]
            exact List.mem_append_right _ List.mem_cons_self
          · rw [hafter]
            rfl

/-! ## Reading -/

theorem toNat_ofNat {n : Nat} (h : n.isValidChar) : (Char.ofNat n).toNat = n := by
  rw [Char.ofNat, dif_pos h]
  rfl

theorem codePoint_eq_some {least code : Nat} {c : Char} (h : codePoint least code = some c) :
    c.toNat = code ∧ least ≤ code := by
  unfold codePoint at h
  split at h
  · next hcode =>
    cases h
    exact ⟨toNat_ofNat hcode.2, hcode.1⟩
  · cases h

theorem continuation_eq_some {b : UInt8} {n : Nat} (h : continuation b = some n) :
    b.toNat = n + 128 ∧ n < 64 := by
  unfold continuation at h
  split at h
  · next hb =>
    have hn := Option.some.inj h
    omega
  · cases h

theorem byte_of_toNat {b : UInt8} {n : Nat} (h : n = b.toNat) : UInt8.ofNat n = b := by
  rw [h, UInt8.ofNat_toNat]

/-- What is read is written as it was. -/
theorem utf8_of_fromUtf8 {bytes : List UInt8} {cs : List Char} (h : fromUtf8 bytes = some cs) :
    utf8 cs = bytes := by
  fun_induction fromUtf8 bytes generalizing cs with
  | case1 =>
    cases h
    rfl
  | case2 lead rest hlead ih =>
    obtain ⟨ds, hds, rfl⟩ := Option.map_eq_some_iff.mp h
    have hcode : (Char.ofNat lead.toNat).toNat = lead.toNat := toNat_ofNat (.inl (by omega))
    rw [utf8_cons, ih hds, utf8EncodeChar_ascii (by omega), hcode, UInt8.ofNat_toNat]
    rfl
  | case4 lead hlead b rest htwo ih =>
    obtain ⟨n, hn, h⟩ := Option.bind_eq_some_iff.mp h
    obtain ⟨c, hc, h⟩ := Option.bind_eq_some_iff.mp h
    obtain ⟨ds, hds, h⟩ := Option.bind_eq_some_iff.mp h
    cases h
    obtain ⟨hb, hlt⟩ := continuation_eq_some hn
    obtain ⟨hcode, hleast⟩ := codePoint_eq_some hc
    have hval : c.val.toNat = (lead.toNat - 192) * 64 + n := hcode
    rw [utf8_cons, ih hds]
    simp only [String.utf8EncodeChar, hval]
    rw [if_neg (by omega), if_pos (by omega), byte_of_toNat (b := lead) (by omega),
      byte_of_toNat (b := b) (by omega)]
    rfl
  | case6 lead hlead b htwo b' rest hthree ih =>
    obtain ⟨n, hn, h⟩ := Option.bind_eq_some_iff.mp h
    obtain ⟨n', hn', h⟩ := Option.bind_eq_some_iff.mp h
    obtain ⟨c, hc, h⟩ := Option.bind_eq_some_iff.mp h
    obtain ⟨ds, hds, h⟩ := Option.bind_eq_some_iff.mp h
    cases h
    obtain ⟨hb, hlt⟩ := continuation_eq_some hn
    obtain ⟨hb', hlt'⟩ := continuation_eq_some hn'
    obtain ⟨hcode, hleast⟩ := codePoint_eq_some hc
    have hval : c.val.toNat = ((lead.toNat - 224) * 64 + n) * 64 + n' := hcode
    rw [utf8_cons, ih hds]
    simp only [String.utf8EncodeChar, hval]
    rw [if_neg (by omega), if_neg (by omega), if_pos (by omega),
      byte_of_toNat (b := lead) (by omega), byte_of_toNat (b := b) (by omega),
      byte_of_toNat (b := b') (by omega)]
    rfl
  | case8 lead hlead b htwo b' hthree b'' rest hfour ih =>
    obtain ⟨n, hn, h⟩ := Option.bind_eq_some_iff.mp h
    obtain ⟨n', hn', h⟩ := Option.bind_eq_some_iff.mp h
    obtain ⟨n'', hn'', h⟩ := Option.bind_eq_some_iff.mp h
    obtain ⟨c, hc, h⟩ := Option.bind_eq_some_iff.mp h
    obtain ⟨ds, hds, h⟩ := Option.bind_eq_some_iff.mp h
    cases h
    obtain ⟨hb, hlt⟩ := continuation_eq_some hn
    obtain ⟨hb', hlt'⟩ := continuation_eq_some hn'
    obtain ⟨hb'', hlt''⟩ := continuation_eq_some hn''
    obtain ⟨hcode, hleast⟩ := codePoint_eq_some hc
    have hval : c.val.toNat = (((lead.toNat - 240) * 64 + n) * 64 + n') * 64 + n'' := hcode
    rw [utf8_cons, ih hds]
    simp only [String.utf8EncodeChar, hval]
    rw [if_neg (by omega), if_neg (by omega), if_neg (by omega),
      byte_of_toNat (b := lead) (by omega), byte_of_toNat (b := b) (by omega),
      byte_of_toNat (b := b') (by omega), byte_of_toNat (b := b'') (by omega)]
    rfl
  | case3 => cases h
  | case5 => cases h
  | case7 => cases h
  | case9 => cases h

end Text
