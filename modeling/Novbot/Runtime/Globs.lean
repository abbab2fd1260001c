import Novbot.Lib.Glob
import Novbot.Lib.Utf8
import Novbot.Runtime.Paths

/-!
# The matcher of path globs

`segments_match` and `segment_match` of `novbot-skill-runtime/src/path.rs` against what a
glob means: a `**` stands for any segments, and within a segment a `*` stands for any run
of bytes and a `?` for one byte (`segmentsMatch_iff`).

The bytes are those of UTF-8, so a `?` does not stand for a character of two bytes
(`question_is_one_byte`).  Where no `?` meets such a character the matcher decides the
glob of characters too: literals and the ends of a segment lie between characters
(`matches_bytes_iff`).
-/

namespace Novbot.Runtime

open Text Glob FileTree

/-! ## What a glob means -/

/-- A letter of a pattern. -/
def piece {α : Type} [DecidableEq α] (star question a : α) : Piece (Option α) :=
  if a = star then .run else if a = question then .one none else .one (some a)

def bytePiece : UInt8 → Piece (Option UInt8) := piece '*'.toUInt8 '?'.toUInt8

def charPiece : Char → Piece (Option Char) := piece '*' '?'

/-- A segment in the glob of a segment, byte by byte. -/
def BytesMatch (pattern segment : Name) : Prop :=
  Matches Fits ((utf8 pattern).map bytePiece) (utf8 segment)

/-- A segment in the glob of a segment, character by character. -/
def CharsMatch (pattern segment : Name) : Prop := Matches Fits (pattern.map charPiece) segment

/-- A segment of a pattern. -/
def part (pattern : Name) : Piece Name := if pattern = ['*', '*'] then .run else .one pattern

/-! ## The matcher -/

theorem segmentMatch_cons {byte : UInt8} (hstar : byte ≠ '*'.toUInt8) {pattern segment : List UInt8} :
    segmentMatch (byte :: pattern) segment = true ↔
      ∃ first rest, segment = first :: rest ∧ (byte = '?'.toUInt8 ∨ byte = first) ∧
        segmentMatch pattern rest = true := by
  cases segment with
  | nil => simp [segmentMatch, if_neg hstar]
  | cons first segment => simp [segmentMatch, if_neg hstar]

theorem segmentMatch_iff {pattern segment : List UInt8} :
    segmentMatch pattern segment = true ↔ Matches Fits (pattern.map bytePiece) segment := by
  induction pattern generalizing segment with
  | nil => simp [segmentMatch]
  | cons byte pattern ih =>
    rw [List.map_cons, bytePiece, piece]
    split
    · next hstar =>
      have hsearch : segmentMatch (byte :: pattern) segment =
          matchesTail (segmentMatch pattern) segment := by
        rw [segmentMatch.eq_def]
        exact if_pos hstar
      rw [hsearch, search_iff (matchesTail (segmentMatch pattern)) (segmentMatch pattern) rfl
        fun _ _ => rfl, matches_run_iff]
      exact exists_congr fun tail => and_congr_right fun _ => ih
    · next hstar =>
      simp only [segmentMatch_cons hstar, ih]
      split
      · next hquestion => simp [hquestion, matches_one_iff, Fits, bytePiece]
      · next hquestion => simp [hquestion, matches_one_iff, Fits, bytePiece]

theorem segmentsMatch_bytes {pattern path : List Name} :
    segmentsMatch pattern path = true ↔ Matches BytesMatch (pattern.map part) path := by
  induction pattern generalizing path with
  | nil => simp [segmentsMatch]
  | cons first pattern ih =>
    rw [List.map_cons, part, segmentsMatch.eq_def]
    dsimp only
    split
    · split
      · next hlast =>
        subst hlast
        exact iff_of_true rfl matches_run_all
      · rw [search_iff (matchesEnd (segmentsMatch pattern)) (segmentsMatch pattern) rfl
          fun _ _ => rfl, matches_run_iff]
        exact exists_congr fun tail => and_congr_right fun _ => ih
    · cases path with
      | nil => simp [matches_one_iff]
      | cons segment path => simp [matches_one_iff, ih, segmentMatch_iff, BytesMatch]

/-! ## Bytes and characters -/

theorem utf8_map_piece {c : Char} (hstar : c ≠ '*') (hquestion : c ≠ '?') :
    (String.utf8EncodeChar c).map bytePiece = ((String.utf8EncodeChar c).map some).map .one := by
  rw [List.map_map]
  refine List.map_congr_left fun b hb => ?_
  have hb1 : b ≠ '*'.toUInt8 := by
    rintro rfl
    exact hstar (Char.toNat_inj.mp (ascii_of_mem_utf8EncodeChar hb (by decide)))
  have hb2 : b ≠ '?'.toUInt8 := by
    rintro rfl
    exact hquestion (Char.toNat_inj.mp (ascii_of_mem_utf8EncodeChar hb (by decide)))
  rw [bytePiece, piece, if_neg hb1, if_neg hb2]
  rfl

/-- A `?` of the pattern meets characters of one byte only. -/
def OneByte (pattern segment : List Char) : Prop :=
  '?' ∉ pattern ∨ ∀ c ∈ segment, c.toNat < 0x80

theorem OneByte.tail {c : Char} {pattern segment : List Char} (h : OneByte (c :: pattern) segment) :
    OneByte pattern segment :=
  h.imp (fun hnone hmem => hnone (List.mem_cons_of_mem _ hmem)) id

theorem OneByte.suffix {pattern segment rest : List Char} (h : OneByte pattern segment)
    (hrest : rest <:+ segment) : OneByte pattern rest :=
  h.imp_right fun hascii c hc => hascii c (hrest.subset hc)

theorem matches_bytes_of_chars {pattern segment : List Char} (hone : OneByte pattern segment)
    (h : CharsMatch pattern segment) : BytesMatch pattern segment := by
  induction pattern generalizing segment with
  | nil =>
    rw [CharsMatch, List.map_nil, matches_nil_iff] at h
    subst h
    exact .nil
  | cons c pattern ih =>
    rw [CharsMatch, List.map_cons, charPiece, piece] at h
    rw [BytesMatch, utf8_cons, List.map_append]
    split at h
    · next hstar =>
      subst hstar
      obtain ⟨rest, hrest, h⟩ := matches_run_iff.mp h
      have htail := ih (hone.tail.suffix hrest) h
      obtain ⟨skipped, rfl⟩ := hrest
      rw [utf8_append]
      exact .run _ htail
    · next hstar =>
      split at h
      · next hquestion =>
        subst hquestion
        obtain ⟨a, rest, rfl, -, h⟩ := matches_one_iff.mp h
        have hascii : a.toNat < 0x80 := by
          rcases hone with hnone | hascii
          · exact absurd List.mem_cons_self hnone
          · exact hascii a List.mem_cons_self
        have htail := ih (hone.tail.suffix (List.suffix_cons a rest)) h
        rw [utf8_cons, utf8EncodeChar_ascii hascii]
        exact .one trivial htail
      · next hquestion =>
        obtain ⟨a, rest, rfl, hfits, hrest⟩ := matches_one_iff.mp h
        have hsame : c = a := hfits
        subst hsame
        have htail := ih (hone.tail.suffix (List.suffix_cons c rest)) hrest
        rw [utf8_cons, utf8_map_piece hstar hquestion]
        exact Matches.prepend (forall₂_fits.mpr rfl) htail

/-- A glob that begins with no `*` matches from the first byte of a character on. -/
theorem cut_of_matches {d : Char} {pattern segment : List Char} {rest : List UInt8}
    (hone : OneByte (d :: pattern) segment) (hstar : d ≠ '*') (hrest : rest <:+ utf8 segment)
    (h : Matches Fits ((utf8 (d :: pattern)).map bytePiece) rest) : ∀ b, rest.head? = some b → ¬ Continues b := by
  intro b hb
  by_cases hquestion : d = '?'
  · have hascii : ∀ c ∈ segment, c.toNat < 0x80 := by
      rcases hone with hnone | hascii
      · exact absurd (hquestion ▸ List.mem_cons_self) hnone
      · exact hascii
    obtain ⟨c, hc, hbyte⟩ := List.mem_flatMap.mp (hrest.subset (List.mem_of_head? hb))
    rw [utf8EncodeChar_ascii (hascii c hc), List.mem_singleton] at hbyte
    have hlow := hascii c hc
    rintro ⟨hge, -⟩
    rw [hbyte, toNat_byte (by omega)] at hge
    omega
  · rw [utf8_cons, List.map_append, utf8_map_piece hstar hquestion] at h
    obtain ⟨front, tail, rfl, hfront, -⟩ := Matches.of_prepend h
    rw [forall₂_fits] at hfront
    subst hfront
    obtain ⟨lead, more, hshape, -⟩ := utf8EncodeChar_shape d
    refine head_utf8EncodeChar d ?_
    rw [hshape] at hb ⊢
    exact hb

theorem matches_chars_of_bytes {pattern segment : List Char} (hone : OneByte pattern segment)
    (h : BytesMatch pattern segment) : CharsMatch pattern segment := by
  induction pattern generalizing segment with
  | nil =>
    rw [BytesMatch, utf8_nil, List.map_nil, matches_nil_iff, utf8_eq_nil] at h
    subst h
    exact .nil
  | cons c pattern ih =>
    rw [BytesMatch, utf8_cons, List.map_append] at h
    rw [CharsMatch, List.map_cons, charPiece, piece]
    split
    · next hstar =>
      subst hstar
      have hrun : Matches Fits (.run :: (utf8 pattern).map bytePiece) (utf8 segment) := h
      cases pattern with
      | nil => exact matches_run_all
      | cons d pattern =>
        by_cases hd : d = '*'
        · subst hd
          exact .run [] (ih hone.tail (matches_run_run.mp hrun))
        · obtain ⟨rest, hrest, hmatch⟩ := matches_run_iff.mp hrun
          have hcut := cut_of_matches hone.tail hd hrest hmatch
          obtain ⟨skipped, hskipped⟩ := hrest
          obtain ⟨left, right, rfl, -, rfl⟩ := utf8_cut hskipped.symm hcut
          exact .run left (ih (hone.tail.suffix (List.suffix_append left right)) hmatch)
    · next hstar =>
      split
      · next hquestion =>
        subst hquestion
        cases segment with
        | nil =>
          obtain ⟨byte, rest, hnil, -⟩ := matches_one_iff.mp h
          cases hnil
        | cons a segment =>
          have hascii : a.toNat < 0x80 := by
            rcases hone with hnone | hascii
            · exact absurd List.mem_cons_self hnone
            · exact hascii a List.mem_cons_self
          rw [utf8_cons, utf8EncodeChar_ascii hascii] at h
          obtain ⟨byte, rest, hcut, -, h⟩ := matches_one_iff.mp h
          cases hcut
          exact .one trivial (ih (hone.tail.suffix (List.suffix_cons a segment)) h)
      · next hquestion =>
        rw [utf8_map_piece hstar hquestion] at h
        obtain ⟨front, rest, hcut, hfront, h⟩ := Matches.of_prepend h
        rw [forall₂_fits] at hfront
        subst hfront
        obtain ⟨segment, rfl, rfl⟩ := cons_of_utf8 hcut
        exact .one rfl (ih (hone.tail.suffix (List.suffix_cons c segment)) h)

/-- Where every `?` meets characters of one byte, the two globs of a segment agree. -/
theorem matches_bytes_iff {pattern segment : List Char} (hone : OneByte pattern segment) :
    BytesMatch pattern segment ↔ CharsMatch pattern segment :=
  ⟨matches_chars_of_bytes hone, matches_bytes_of_chars hone⟩

/-- The matcher decides the glob of bytes, and the glob of characters where no `?` can
meet a character of several bytes. -/
theorem segmentsMatch_iff (pattern path : List Name) :
    (segmentsMatch pattern path = true ↔ Matches BytesMatch (pattern.map part) path) ∧
      ((∀ name ∈ pattern, ∀ segment ∈ path, OneByte name segment) →
        (segmentsMatch pattern path = true ↔ Matches CharsMatch (pattern.map part) path)) := by
  refine ⟨segmentsMatch_bytes, fun hone => ?_⟩
  have hitem : ∀ item, .one item ∈ pattern.map part → item ∈ pattern := by
    intro item hitem
    obtain ⟨name, hname, hpart⟩ := List.mem_map.mp hitem
    unfold part at hpart
    split at hpart
    · cases hpart
    · cases hpart
      exact hname
  rw [segmentsMatch_bytes]
  constructor
  · refine Matches.congr fun item hmem segment hsegment => ?_
    exact matches_chars_of_bytes (hone item (hitem item hmem) segment hsegment)
  · refine Matches.congr fun item hmem segment hsegment => ?_
    exact matches_bytes_of_chars (hone item (hitem item hmem) segment hsegment)

/-- A literal meets characters of any size. -/
theorem segmentsMatch_iff_literal : Matches CharsMatch ([['*', 'é']].map part) [['a', 'é']] :=
  ((segmentsMatch_iff [['*', 'é']] [['a', 'é']]).2 (by unfold OneByte; decide)).mp (by decide +kernel)

/-- A character of two bytes is two letters for the matcher. -/
theorem question_is_one_byte :
    ¬ (segmentsMatch [['?']] [['é']] = true ↔ Matches CharsMatch ([['?']].map part) [['é']]) := by
  have hmatch : Matches CharsMatch ([['?']].map part) [['é']] := .one (.one trivial .nil) .nil
  intro h
  have hfalse : segmentsMatch [['?']] [['é']] = false := by decide +kernel
  rw [h.mpr hmatch] at hfalse
  cases hfalse

end Novbot.Runtime
