import Novbot.Lib.Lines
import Novbot.Lib.Utf8

/-!
# Mounts

`parse_mounts`, `unescape_mount` and `mount_usages` of `novbot-skill-runtime/src/observe.rs`.  The
decoder goes through a field byte by byte.  It slices the field behind every backslash, which stops
the process where the slice ends within a character, and it pushes each byte that it does not decode
as a character of its own (`latin`), which keeps only ASCII as it is.
-/

namespace Novbot.Runtime.Mounts

open Text

/-! ## The decoder -/

/-- An index of a text at which it can be sliced, by the bytes from there on. -/
def isCharBoundary : List UInt8 → Bool
  | [] => true
  | b :: _ => !(0x80 ≤ b.toNat && b.toNat < 0xC0)

def octalDigit (b : UInt8) : Option Nat :=
  if 48 ≤ b.toNat ∧ b.toNat < 56 then some (b.toNat - 48) else none

/-- `u8::from_str_radix` with the radix 8, of a text that is not empty. -/
def fromStrRadix (octal : List UInt8) : Option Nat :=
  let digits := if octal.head? = some 0x2B then octal.drop 1 else octal
  if digits = [] then none
  else (digits.foldlM (fun value b => (octalDigit b).map (value * 8 + ·)) 0).filter (· < 256)

/-- `char::from` of a byte. -/
def charFrom (b : UInt8) : Char := .ofNat b.toNat

/-- The loop of `unescape_mount` over the bytes from an index on, after `skip` of them.  There is no
result where a slice stops the process. -/
def unescapeFrom : Nat → List UInt8 → Option (List Char)
  | _, [] => some []
  | skip + 1, _ :: bytes => unescapeFrom skip bytes
  | 0, b :: bytes =>
    if b = 0x5C ∧ 3 ≤ bytes.length then
      if isCharBoundary bytes && isCharBoundary (bytes.drop 3) then
        match fromStrRadix (bytes.take 3) with
        | some value => (unescapeFrom 3 bytes).map (Char.ofNat value :: ·)
        | none => (unescapeFrom 0 bytes).map (charFrom b :: ·)
      else none
    else (unescapeFrom 0 bytes).map (charFrom b :: ·)

def unescapeMount (field : List Char) : Option (List Char) := unescapeFrom 0 (utf8 field)

structure MountLine where
  mount : List Char
  fstype : List Char
  deriving DecidableEq

/-- A line, when it has three fields. -/
def mountLine (line : List Char) : Option (Option MountLine) :=
  match words line with
  | _ :: mount :: fstype :: _ => do
    let mount ← unescapeMount mount
    let fstype ← unescapeMount fstype
    return some ⟨mount, fstype⟩
  | _ => some none

/-- There is no result where a line stops the process. -/
def parseMounts (text : List Char) : Option (List MountLine) :=
  ((lines text).mapM mountLine).map (·.filterMap id)

/-! ## Usages -/

def skipFstype : List (List Char) :=
  ["proc", "sysfs", "devtmpfs", "devpts", "cgroup", "cgroup2", "pstore", "bpf", "tracefs", "debugfs",
    "securityfs", "configfs", "fusectl", "mqueue", "autofs", "rpc_pipefs", "binfmt_misc", "nsfs", "ramfs",
    "nfs", "nfs4", "cifs", "smb3"].map String.toList

/-- The loop of `mount_usages`, with what `statvfs` says of a path. -/
def usagesFrom {Usage : Type} (vfsUsage : List Char → Option Usage) :
    List (List Char) → List MountLine → List (MountLine × Usage)
  | _, [] => []
  | seen, mount :: mounts =>
    if mount.mount ≠ ['/'] ∧ mount.fstype ∈ skipFstype then usagesFrom vfsUsage seen mounts
    else if mount.mount ∈ seen then usagesFrom vfsUsage seen mounts
    else
      match vfsUsage mount.mount with
      | none => usagesFrom vfsUsage (mount.mount :: seen) mounts
      | some usage => (mount, usage) :: usagesFrom vfsUsage (mount.mount :: seen) mounts

def mountUsages {Usage : Type} (vfsUsage : List Char → Option Usage) (text : List Char) :
    Option (List (MountLine × Usage)) :=
  (parseMounts text).map (usagesFrom vfsUsage [])

/-- A usage is that of the path of a line. -/
theorem mem_usagesFrom {Usage : Type} {vfsUsage : List Char → Option Usage} {seen : List (List Char)}
    {mounts : List MountLine} {row : MountLine × Usage} (h : row ∈ usagesFrom vfsUsage seen mounts) :
    row.1 ∈ mounts ∧ vfsUsage row.1.mount = some row.2 := by
  induction mounts generalizing seen with
  | nil => exact absurd h List.not_mem_nil
  | cons mount mounts ih =>
    have hrest : ∀ {seen}, row ∈ usagesFrom vfsUsage seen mounts →
        row.1 ∈ mount :: mounts ∧ vfsUsage row.1.mount = some row.2 := by
      intro seen h
      obtain ⟨hmem, husage⟩ := ih h
      exact ⟨.tail _ hmem, husage⟩
    rw [usagesFrom] at h
    split at h
    · exact hrest h
    · split at h
      · exact hrest h
      · split at h
        · exact hrest h
        · next usage husage =>
          rcases List.mem_cons.mp h with rfl | h
          · exact ⟨.head _, husage⟩
          · exact hrest h

/-! ## Steps of the decoder -/

/-- The text that the decoder makes of bytes that it does not decode. -/
def latin (cs : List Char) : List Char := (utf8 cs).map charFrom

theorem latin_append (cs ds : List Char) : latin (cs ++ ds) = latin cs ++ latin ds := by
  rw [latin, utf8_append, List.map_append]
  rfl

theorem length_latin (cs : List Char) : (latin cs).length = (utf8 cs).length := List.length_map ..

theorem toNat_charFrom (b : UInt8) : (charFrom b).toNat = b.toNat :=
  toNat_ofNat (.inl (Nat.lt_trans b.toNat_lt (by decide)))

theorem unescapeFrom_skip (skip : Nat) (bytes : List UInt8) :
    unescapeFrom skip bytes = unescapeFrom 0 (bytes.drop skip) := by
  induction skip generalizing bytes with
  | zero => rfl
  | succ skip ih =>
    cases bytes with
    | nil => rfl
    | cons b bytes =>
      rw [unescapeFrom, List.drop_succ_cons]
      exact ih bytes

theorem unescapeFrom_plain {b : UInt8} (hb : b ≠ 0x5C) (bytes : List UInt8) :
    unescapeFrom 0 (b :: bytes) = (unescapeFrom 0 bytes).map (charFrom b :: ·) := by
  rw [unescapeFrom, if_neg fun h => hb h.1]

theorem unescapeFrom_run {run : List UInt8} (hrun : ∀ b ∈ run, b ≠ 0x5C) (bytes : List UInt8) :
    unescapeFrom 0 (run ++ bytes) = (unescapeFrom 0 bytes).map (run.map charFrom ++ ·) := by
  induction run with
  | nil => exact (Option.map_id' ..).symm
  | cons b run ih =>
    obtain ⟨hb, hrun⟩ := List.forall_mem_cons.mp hrun
    rw [List.cons_append, unescapeFrom_plain hb, ih hrun, Option.map_map]
    rfl

theorem not_backslash {c : Char} (hc : c ≠ '\\') : ∀ b ∈ String.utf8EncodeChar c, b ≠ 0x5C := by
  rintro b hb rfl
  have hcode := ascii_of_mem_utf8EncodeChar hb (by decide)
  exact hc (Char.toNat_inj.mp hcode)

theorem isCharBoundary_iff {bytes : List UInt8} :
    isCharBoundary bytes = true ↔ ∀ b, bytes.head? = some b → ¬ Continues b := by
  cases bytes with
  | nil => simp [isCharBoundary]
  | cons b bytes =>
    simp only [isCharBoundary, Continues, List.head?_cons, Option.some.injEq, forall_eq', Bool.not_eq_true',
      Bool.and_eq_false_iff, decide_eq_false_iff_not]
    omega

/-- A text begins at a boundary. -/
theorem isCharBoundary_utf8 (cs : List Char) : isCharBoundary (utf8 cs) = true := by
  rw [isCharBoundary_iff]
  intro b hb
  cases cs with
  | nil => cases hb
  | cons c cs =>
    obtain ⟨lead, rest, hshape, -⟩ := utf8EncodeChar_shape c
    refine head_utf8EncodeChar c ?_
    rw [utf8_cons, hshape] at hb
    rw [hshape]
    exact hb

/-! ## What stops the process -/

/-- A character begins within the three bytes behind the text's start and ends behind them. -/
def Straddles (rest : List Char) : Prop :=
  ∃ chars c after, rest = chars ++ c :: after ∧ (utf8 chars).length < 3 ∧
    3 < (utf8 (chars ++ [c])).length

/-- Behind a backslash of the field. -/
def Cut (field : List Char) : Prop := ∃ before rest, field = before ++ '\\' :: rest ∧ Straddles rest

theorem straddles_or {cs : List Char} (h : 3 ≤ (utf8 cs).length) :
    Straddles cs ∨ ∃ three rest, cs = three ++ rest ∧ (utf8 three).length = 3 := by
  have hgo : ∀ (chars cs : List Char), (utf8 chars).length ≤ 3 → 3 ≤ (utf8 (chars ++ cs)).length →
      Straddles (chars ++ cs) ∨ ∃ three rest, chars ++ cs = three ++ rest ∧ (utf8 three).length = 3 := by
    intro chars cs hlow hhigh
    induction cs generalizing chars with
    | nil =>
      rw [List.append_nil] at hhigh
      exact .inr ⟨chars, [], rfl, by omega⟩
    | cons c cs ih =>
      by_cases hthree : (utf8 chars).length = 3
      · exact .inr ⟨chars, c :: cs, rfl, hthree⟩
      · by_cases hnext : (utf8 (chars ++ [c])).length ≤ 3
        · have hmore := ih (chars ++ [c]) hnext (by simpa using hhigh)
          rw [List.append_assoc] at hmore
          exact hmore
        · exact .inl ⟨chars, c, cs, rfl, by omega, by omega⟩
  exact hgo [] cs (Nat.zero_le _) h

theorem Straddles.not_three {cs three rest : List Char} (h : Straddles cs) (hcs : cs = three ++ rest) :
    (utf8 three).length ≠ 3 := by
  obtain ⟨chars, c, after, hsplit, hlow, hhigh⟩ := h
  intro hthree
  rw [hsplit] at hcs
  rcases List.append_eq_append_iff.mp hcs with ⟨inner, rfl, hinner⟩ | ⟨inner, rfl, -⟩
  · cases inner with
    | nil =>
      rw [List.append_nil] at hthree
      omega
    | cons d inner =>
      obtain ⟨rfl, -⟩ := List.cons.inj hinner
      have hsplit : chars ++ c :: inner = (chars ++ [c]) ++ inner := by simp
      rw [hsplit, utf8_append, List.length_append] at hthree
      omega
  · rw [utf8_append, List.length_append] at hlow
    omega

theorem cut_cons {c : Char} (hc : c ≠ '\\') {cs : List Char} : Cut (c :: cs) ↔ Cut cs := by
  constructor
  · rintro ⟨before, rest, hsplit, hrest⟩
    cases before with
    | nil => exact absurd (List.cons.inj hsplit).1 hc
    | cons d before =>
      obtain ⟨-, rfl⟩ := List.cons.inj hsplit
      exact ⟨before, rest, rfl, hrest⟩
  · rintro ⟨before, rest, rfl, hrest⟩
    exact ⟨c :: before, rest, rfl, hrest⟩

theorem cut_backslash {cs : List Char} : Cut ('\\' :: cs) ↔ Straddles cs ∨ Cut cs := by
  constructor
  · rintro ⟨before, rest, hsplit, hrest⟩
    cases before with
    | nil =>
      obtain ⟨-, rfl⟩ := List.cons.inj hsplit
      exact .inl hrest
    | cons d before =>
      obtain ⟨-, rfl⟩ := List.cons.inj hsplit
      exact .inr ⟨before, rest, rfl, hrest⟩
  · rintro (hrest | ⟨before, rest, rfl, hrest⟩)
    · exact ⟨[], cs, rfl, hrest⟩
    · exact ⟨'\\' :: before, rest, rfl, hrest⟩

theorem cut_append {run : List Char} (hrun : '\\' ∉ run) {cs : List Char} :
    Cut (run ++ cs) ↔ Cut cs := by
  induction run with
  | nil => exact Iff.rfl
  | cons c run ih =>
    rw [List.mem_cons, not_or] at hrun
    exact (cut_cons (Ne.symm hrun.1)).trans (ih hrun.2)

theorem octalDigit_backslash {b : UInt8} {n : Nat} (h : octalDigit b = some n) : b ≠ 0x5C := by
  rintro rfl
  cases h

/-- A number is written without a backslash. -/
theorem not_backslash_of_radix {octal : List UInt8} {value : Nat} (h : fromStrRadix octal = some value) :
    ∀ b ∈ octal, b ≠ 0x5C := by
  have hfold : ∀ (digits : List UInt8) (start value : Nat),
      digits.foldlM (fun value b => (octalDigit b).map (value * 8 + ·)) start = some value →
      ∀ b ∈ digits, b ≠ 0x5C := by
    intro digits
    induction digits with
    | nil => exact fun _ _ _ b hb => absurd hb List.not_mem_nil
    | cons d digits ih =>
      intro start value h
      rw [List.foldlM_cons] at h
      obtain ⟨next, hnext, hrest⟩ := Option.bind_eq_some_iff.mp h
      obtain ⟨n, hn, -⟩ := Option.map_eq_some_iff.mp hnext
      exact List.forall_mem_cons.mpr ⟨octalDigit_backslash hn, ih next value hrest⟩
  have hdigits : ∀ digits : List UInt8, (if digits = [] then none
      else (digits.foldlM (fun value b => (octalDigit b).map (value * 8 + ·)) 0).filter (· < 256)) =
        some value → ∀ b ∈ digits, b ≠ 0x5C := by
    intro digits h
    split at h
    · cases h
    · exact hfold _ _ _ (Option.filter_eq_some_iff.mp h).1
  have hall := hdigits _ h
  split at hall
  · next hplus =>
    obtain ⟨rest, rfl⟩ := List.head?_eq_some_iff.mp hplus
    exact List.forall_mem_cons.mpr ⟨by decide, hall⟩
  · exact hall

/-- The decoder has no result exactly when a slice ends within a character. -/
theorem unescapeMount_eq_none {field : List Char} : unescapeMount field = none ↔ Cut field := by
  induction hlength : field.length using Nat.strong_induction_on generalizing field with
  | _ n ih =>
    have ih : ∀ {shorter : List Char}, shorter.length < n →
        (unescapeFrom 0 (utf8 shorter) = none ↔ Cut shorter) := fun hshorter => ih _ hshorter rfl
    unfold unescapeMount
    cases field with
    | nil =>
      refine iff_of_false (fun h => by cases h) ?_
      rintro ⟨before, rest, hsplit, -⟩
      exact absurd hsplit (by simp)
    | cons c cs =>
      rw [List.length_cons] at hlength
      have hnext : unescapeFrom 0 (utf8 cs) = none ↔ Cut cs := ih (by omega)
      rw [utf8_cons]
      by_cases hc : c = '\\'
      · subst hc
        have hbyte : String.utf8EncodeChar '\\' = [0x5C] := by decide
        rw [hbyte, List.singleton_append, cut_backslash]
        by_cases hthree : 3 ≤ (utf8 cs).length
        · rw [unescapeFrom, if_pos ⟨rfl, hthree⟩, isCharBoundary_utf8, Bool.true_and]
          rcases straddles_or hthree with hcut | ⟨three, rest, rfl, hlen⟩
          · refine iff_of_true ?_ (.inl hcut)
            refine if_neg fun hboundary => ?_
            obtain ⟨left, right, hsplit, hleft, -⟩ := utf8_cut (List.take_append_drop 3 (utf8 cs)).symm
              (isCharBoundary_iff.mp hboundary)
            refine hcut.not_three hsplit ?_
            rw [hleft, List.length_take]
            omega
          · have hdrop : (utf8 (three ++ rest)).drop 3 = utf8 rest := by
              rw [utf8_append, List.drop_left' hlen]
            have htake : (utf8 (three ++ rest)).take 3 = utf8 three := by
              rw [utf8_append, List.take_left' hlen]
            have hnocut : ¬ Straddles (three ++ rest) := fun h => h.not_three rfl hlen
            rw [hdrop, if_pos (isCharBoundary_utf8 rest), htake, or_iff_right hnocut]
            split
            · next value hvalue =>
              have hrun : '\\' ∉ three := by
                intro hmem
                refine not_backslash_of_radix hvalue 0x5C ?_ rfl
                exact List.mem_flatMap.mpr ⟨'\\', hmem, by rw [hbyte]; exact .head _⟩
              rw [Option.map_eq_none_iff, unescapeFrom_skip, hdrop, cut_append hrun]
              refine ih ?_
              rw [List.length_append] at hlength
              omega
            · rw [Option.map_eq_none_iff]
              exact hnext
        · have hnocut : ¬ Straddles cs := by
            rintro ⟨chars, d, after, rfl, -, hhigh⟩
            have hsplit : chars ++ d :: after = (chars ++ [d]) ++ after := by simp
            rw [hsplit, utf8_append, List.length_append] at hthree
            omega
          rw [unescapeFrom, if_neg fun h => hthree h.2, Option.map_eq_none_iff, or_iff_right hnocut]
          exact hnext
      · rw [unescapeFrom_run (not_backslash hc), Option.map_eq_none_iff, cut_cons hc]
        exact hnext

/-! ## Lines that the kernel writes -/

/-- The kernel's escapes. -/
def mangleChar (c : Char) : List Char :=
  if c = ' ' then "\\040".toList
  else if c = '\t' then "\\011".toList
  else if c = '\n' then "\\012".toList
  else if c = '\\' then "\\134".toList
  else [c]

def mangle (text : List Char) : List Char := text.flatMap mangleChar

/-- An escape is decoded to its character. -/
theorem unescapeFrom_mangleChar (c : Char) (rest : List Char) :
    unescapeFrom 0 (utf8 (mangleChar c) ++ utf8 rest) =
      (unescapeFrom 0 (utf8 rest)).map (latin [c] ++ ·) := by
  have hescape : ∀ (a b d : UInt8) (code : Char), isCharBoundary [a] = true →
      fromStrRadix [a, b, d] = some code.toNat → latin [code] = [code] →
      unescapeFrom 0 ([0x5C, a, b, d] ++ utf8 rest) =
        (unescapeFrom 0 (utf8 rest)).map (latin [code] ++ ·) := by
    intro a b d code ha hvalue hlatin
    have hstart : isCharBoundary (a :: b :: d :: utf8 rest) = true := ha
    rw [List.cons_append, List.cons_append, List.cons_append, List.singleton_append, unescapeFrom,
      if_pos ⟨rfl, by simp⟩, hstart, List.drop_succ_cons, List.drop_succ_cons, List.drop_succ_cons,
      List.drop_zero, isCharBoundary_utf8]
    simp only [Bool.and_self, if_true, List.take_succ_cons, List.take_zero, hvalue]
    rw [unescapeFrom_skip, List.drop_succ_cons, List.drop_succ_cons, List.drop_succ_cons, List.drop_zero,
      Char.ofNat_toNat, hlatin]
    rfl
  unfold mangleChar
  split
  · next hc =>
    rw [hc]
    exact hescape 0x30 0x34 0x30 ' ' (by decide) (by decide) (by decide)
  · split
    · next hc =>
      rw [hc]
      exact hescape 0x30 0x31 0x31 '\t' (by decide) (by decide) (by decide)
    · split
      · next hc =>
        rw [hc]
        exact hescape 0x30 0x31 0x32 '\n' (by decide) (by decide) (by decide)
      · split
        · next hc =>
          rw [hc]
          exact hescape 0x31 0x33 0x34 '\\' (by decide) (by decide) (by decide)
        · next hc =>
          rw [utf8_cons, utf8_nil, List.append_nil, unescapeFrom_run (not_backslash hc), latin, utf8_cons,
            utf8_nil, List.append_nil]

/-- The decoder undoes the escapes, and takes every byte for a character. -/
theorem unescapeMount_mangle (text : List Char) : unescapeMount (mangle text) = some (latin text) := by
  unfold unescapeMount
  induction text with
  | nil => rfl
  | cons c text ih =>
    rw [mangle, List.flatMap_cons, utf8_append, unescapeFrom_mangleChar]
    rw [mangle] at ih
    rw [ih, Option.map_some, ← latin_append]
    rfl

/-- White space that the kernel does not escape. -/
def Exotic (c : Char) : Prop := isWhiteSpace c = true ∧ c ≠ ' ' ∧ c ≠ '\t' ∧ c ≠ '\n'

theorem mangleChar_exotic {w : Char} (h : Exotic w) : mangleChar w = [w] := by
  have hback : w ≠ '\\' := by
    rintro rfl
    exact absurd h.1 (by decide)
  rw [mangleChar, if_neg h.2.1, if_neg h.2.2.1, if_neg h.2.2.2, if_neg hback]

/-- White space in an escaped text is white space of the text. -/
theorem exotic_of_mem_mangleChar {c d : Char} (hd : d ∈ mangleChar c) (hwhite : isWhiteSpace d = true) :
    d = c ∧ Exotic c := by
  have hword : ∀ word : List Char, (word.all fun d => !isWhiteSpace d) = true → d ∉ word := by
    intro word hword hmem
    have hplain := List.all_eq_true.mp hword d hmem
    rw [hwhite] at hplain
    cases hplain
  unfold mangleChar at hd
  split at hd
  · exact absurd hd (hword _ (by decide))
  · next hspace =>
    split at hd
    · exact absurd hd (hword _ (by decide))
    · next htab =>
      split at hd
      · exact absurd hd (hword _ (by decide))
      · next hline =>
        split at hd
        · exact absurd hd (hword _ (by decide))
        · obtain rfl := List.mem_singleton.mp hd
          exact ⟨rfl, hwhite, hspace, htab, hline⟩

theorem mangle_ne_nil {text : List Char} (h : text ≠ []) : mangle text ≠ [] := by
  obtain ⟨c, rest, rfl⟩ := List.exists_cons_of_ne_nil h
  rw [mangle, List.flatMap_cons]
  refine List.append_ne_nil_of_left_ne_nil ?_ _
  unfold mangleChar
  split_ifs <;> exact List.cons_ne_nil _ _

theorem words_mangle {text : List Char} (hne : text ≠ []) (h : ∀ c ∈ text, ¬ Exotic c) :
    words (mangle text) = [mangle text] := by
  refine words_word (mangle_ne_nil hne) fun d hd => ?_
  obtain ⟨c, hc, hd⟩ := List.mem_flatMap.mp hd
  cases hwhite : isWhiteSpace d with
  | false => rfl
  | true => exact absurd (exotic_of_mem_mangleChar hd hwhite).2 (h c hc)

theorem words_mangle_split {before after : List Char} {w : Char} (hw : Exotic w) :
    words (mangle (before ++ w :: after)) = words (mangle before) ++ words (mangle after) := by
  have hsplit : mangle (before ++ w :: after) = mangle before ++ w :: mangle after := by
    rw [mangle, List.flatMap_append, List.flatMap_cons, mangleChar_exotic hw]
    rfl
  rw [hsplit, words_append hw.1]

theorem first_exotic (text : List Char) : (∀ c ∈ text, ¬ Exotic c) ∨
    ∃ before w after, text = before ++ w :: after ∧ (∀ c ∈ before, ¬ Exotic c) ∧ Exotic w := by
  induction text with
  | nil => exact .inl fun c hc => absurd hc List.not_mem_nil
  | cons c text ih =>
    by_cases hc : Exotic c
    · exact .inr ⟨[], c, text, rfl, fun d hd => absurd hd List.not_mem_nil, hc⟩
    · rcases ih with hall | ⟨before, w, after, rfl, hbefore, hw⟩
      · exact .inl (List.forall_mem_cons.mpr ⟨hc, hall⟩)
      · exact .inr ⟨c :: before, w, after, rfl, List.forall_mem_cons.mpr ⟨hc, hbefore⟩, hw⟩

/-- Every word of an escaped text is an escaped text. -/
theorem mem_words_mangle {text word : List Char} (h : word ∈ words (mangle text)) :
    ∃ part, word = mangle part ∧ part ≠ [] ∧ ∀ c ∈ part, ¬ Exotic c := by
  induction hlength : text.length using Nat.strong_induction_on generalizing text with
  | _ n ih =>
    have hplain : ∀ part : List Char, (∀ c ∈ part, ¬ Exotic c) → word ∈ words (mangle part) →
        ∃ part, word = mangle part ∧ part ≠ [] ∧ ∀ c ∈ part, ¬ Exotic c := by
      intro part hpart hword
      cases part with
      | nil => exact absurd hword List.not_mem_nil
      | cons c rest =>
        rw [words_mangle (List.cons_ne_nil c rest) hpart] at hword
        exact ⟨c :: rest, List.mem_singleton.mp hword, List.cons_ne_nil c rest, hpart⟩
    rcases first_exotic text with hall | ⟨before, w, after, rfl, hbefore, hw⟩
    · exact hplain text hall h
    · rw [words_mangle_split hw] at h
      rcases List.mem_append.mp h with h | h
      · exact hplain before hbefore h
      · refine ih _ ?_ h rfl
        rw [List.length_append, List.length_cons] at hlength
        omega

/-! ## Texts that are their own bytes -/

theorem latin_ascii {cs : List Char} (h : ∀ c ∈ cs, c.toNat < 0x80) : latin cs = cs := by
  induction cs with
  | nil => rfl
  | cons c cs ih =>
    obtain ⟨hc, hcs⟩ := List.forall_mem_cons.mp h
    have hsplit : latin (c :: cs) = latin [c] ++ latin cs := latin_append [c] cs
    have hchar : latin [c] = [c] := by
      rw [latin, utf8_cons, utf8EncodeChar_ascii hc, utf8_nil, List.append_nil, List.map_singleton,
        charFrom, toNat_byte (by omega), Char.ofNat_toNat]
    rw [hsplit, hchar, ih hcs]
    rfl

theorem length_utf8_ge (cs : List Char) : cs.length ≤ (utf8 cs).length := by
  induction cs with
  | nil => exact Nat.le_refl _
  | cons c cs ih =>
    obtain ⟨lead, rest, hshape, -⟩ := utf8EncodeChar_shape c
    rw [utf8_cons, hshape, List.length_append, List.length_cons, List.length_cons]
    omega

/-- A character of one byte is that byte. -/
theorem ascii_of_length {cs : List Char} (h : (utf8 cs).length = cs.length) :
    ∀ c ∈ cs, c.toNat < 0x80 := by
  induction cs with
  | nil => exact fun c hc => absurd hc List.not_mem_nil
  | cons c cs ih =>
    have hge := length_utf8_ge cs
    obtain ⟨lead, rest, hshape, hlead, hrest⟩ := utf8EncodeChar_shape c
    rw [utf8_cons, hshape, List.length_append, List.length_cons, List.length_cons] at h
    refine List.forall_mem_cons.mpr ⟨?_, ih (by omega)⟩
    by_contra hlarge
    have hnone : rest = [] := List.eq_nil_of_length_eq_zero (by omega)
    have hdecode := fromUtf8_utf8 [c]
    rw [utf8_cons, hshape, hnone, utf8_nil, List.append_nil] at hdecode
    have hlow : ¬ lead.toNat < 0x80 := by omega
    rw [fromUtf8, if_neg hlow] at hdecode
    cases hdecode

/-- The characters that the bytes of such characters are again. -/
def Mirrored (c : Char) : Prop :=
  c.toNat < 0x80 ∨ c = 'Â' ∨ c = 'Ã' ∨ c = '\u0082' ∨ c = '\u0083'

instance : DecidablePred Mirrored := fun _ => inferInstanceAs (Decidable (_ ∨ _))

theorem mirrored_latin {cs : List Char} (h : ∀ c ∈ cs, Mirrored c) : ∀ d ∈ latin cs, Mirrored d := by
  intro d hd
  obtain ⟨b, hb, rfl⟩ := List.mem_map.mp hd
  obtain ⟨c, hc, hb⟩ := List.mem_flatMap.mp hb
  have hpair : ∀ (c : Char) (lead last : UInt8), String.utf8EncodeChar c = [lead, last] →
      Mirrored (charFrom lead) → Mirrored (charFrom last) → b ∈ String.utf8EncodeChar c →
      Mirrored (charFrom b) := by
    intro c lead last hbytes hlead hlast hb
    rw [hbytes, List.mem_cons, List.mem_singleton] at hb
    rcases hb with rfl | rfl
    · exact hlead
    · exact hlast
  rcases h c hc with hascii | rfl | rfl | rfl | rfl
  · rw [utf8EncodeChar_ascii hascii, List.mem_singleton] at hb
    rw [hb]
    left
    rw [toNat_charFrom, toNat_byte (by omega)]
    exact hascii
  · exact hpair 'Â' 0xC3 0x82 (by decide) (by decide) (by decide) hb
  · exact hpair 'Ã' 0xC3 0x83 (by decide) (by decide) (by decide) hb
  · exact hpair '\u0082' 0xC2 0x82 (by decide) (by decide) (by decide) hb
  · exact hpair '\u0083' 0xC2 0x83 (by decide) (by decide) (by decide) hb

/-- A character that its first byte is taken for. -/
theorem mirrored_of_lead {c : Char} {lead : UInt8} {rest : List UInt8}
    (hshape : String.utf8EncodeChar c = lead :: rest) (hlead : c.toNat = lead.toNat) : Mirrored c := by
  by_cases hascii : c.toNat < 0x80
  · exact .inl hascii
  · have hval : c.val.toNat = c.toNat := rfl
    have hbyte : lead.toNat < 256 := lead.toNat_lt
    simp only [String.utf8EncodeChar, hval] at hshape
    rw [if_neg (by omega), if_pos (by omega)] at hshape
    have hfirst := congrArg UInt8.toNat (List.cons.inj hshape).1
    rw [toNat_byte (by omega)] at hfirst
    have hcode : c.toNat = 'Ã'.toNat := by
      have hval : 'Ã'.toNat = 0xC3 := rfl
      omega
    exact .inr (.inr (.inl (Char.toNat_inj.mp hcode)))

/-- A text that the decoder's text begins with consists of such characters. -/
theorem mirrored_of_prefix {cs : List Char} (h : cs <+: latin cs) : ∀ c ∈ cs, Mirrored c := by
  have hgo : ∀ part, part <+: cs → ∀ c ∈ part, Mirrored c := by
    intro part
    induction part using List.reverseRecOn with
    | nil => exact fun _ c hc => absurd hc List.not_mem_nil
    | append_singleton part c ih =>
      intro hpart
      have hbefore := ih ((List.prefix_append part [c]).trans hpart)
      refine List.forall_mem_append.mpr ⟨hbefore, List.forall_mem_singleton.mpr ?_⟩
      -- both texts are read off the same place
      obtain ⟨after, rfl⟩ := hpart
      obtain ⟨more, hmore⟩ := h
      rw [latin_append, latin_append, List.append_assoc, List.append_assoc, List.append_assoc] at hmore
      obtain ⟨lead, rest, hshape, -⟩ := utf8EncodeChar_shape c
      have hchar : latin [c] = charFrom lead :: rest.map charFrom := by
        rw [latin, utf8_cons, utf8_nil, List.append_nil, hshape, List.map_cons]
      rcases Nat.lt_or_eq_of_le (length_utf8_ge part) with hlonger | hsame
      · rcases List.append_eq_append_iff.mp hmore with ⟨inner, hinner, hrest⟩ | ⟨inner, hinner, -⟩
        · cases inner with
          | nil =>
            have hlen := congrArg List.length hinner
            rw [length_latin, List.append_nil] at hlen
            omega
          | cons d inner =>
            obtain ⟨rfl, -⟩ := List.cons.inj hrest
            refine mirrored_latin hbefore c ?_
            rw [hinner]
            exact List.mem_append_right _ (.head _)
        · have hlen := congrArg List.length hinner
          rw [List.length_append, length_latin] at hlen
          omega
      · obtain ⟨-, htail⟩ := List.append_inj hmore (by rw [length_latin]; exact hsame)
        rw [hchar, List.singleton_append, List.cons_append] at htail
        have hfirst := (List.cons.inj htail).1
        refine mirrored_of_lead hshape ?_
        rw [hfirst, toNat_charFrom]
  exact hgo cs (List.prefix_refl cs)

theorem not_exotic_of_mirrored {c : Char} (h : Mirrored c) (hexotic : Exotic c) : c.toNat < 0x80 := by
  rcases h with hascii | rfl | rfl | rfl | rfl
  · exact hascii
  all_goals exact absurd hexotic.1 (by decide)

/-- The decoder makes exotic white space of none. -/
theorem exotic_of_mem_latin {cs : List Char} {w : Char} (hw : w ∈ latin cs) (hexotic : Exotic w)
    (hascii : w.toNat < 0x80) : w ∈ cs := by
  obtain ⟨b, hb, rfl⟩ := List.mem_map.mp hw
  obtain ⟨c, hc, hb⟩ := List.mem_flatMap.mp hb
  rw [toNat_charFrom] at hascii
  have hcode := ascii_of_mem_utf8EncodeChar hb hascii
  have hsame : c = charFrom b := Char.toNat_inj.mp (by rw [hcode, toNat_charFrom])
  rwa [← hsame]

/-- What is decoded from a text without exotic white space is no text in which it goes on with some. -/
theorem latin_ne_split {before after : List Char} {w : Char} (hbefore : ∀ c ∈ before, ¬ Exotic c)
    (hw : Exotic w) : latin before ≠ before ++ w :: after := by
  intro hsame
  have hstart : before <+: latin before := ⟨w :: after, hsame.symm⟩
  have hmirrored := mirrored_of_prefix hstart
  have hmem : w ∈ latin before := by
    rw [hsame]
    exact List.mem_append_right _ (.head _)
  have hascii := not_exotic_of_mirrored (mirrored_latin hmirrored w hmem) hw
  exact hbefore w (exotic_of_mem_latin hmem hw hascii) hw

theorem latin_ne_exotic {part after : List Char} {w : Char} (hpart : ∀ c ∈ part, ¬ Exotic c)
    (hw : Exotic w) : latin part ≠ w :: after := by
  intro hsame
  cases part with
  | nil => cases hsame
  | cons c part =>
    obtain ⟨lead, rest, hshape, hlead, -⟩ := utf8EncodeChar_shape c
    rw [latin, utf8_cons, hshape, List.cons_append, List.map_cons] at hsame
    obtain ⟨rfl, -⟩ := List.cons.inj hsame
    rcases hlead with ⟨hcode, -⟩ | hlarge
    · have hsame : c = charFrom lead := Char.toNat_inj.mp (by rw [toNat_charFrom, hcode])
      rw [← hsame] at hw
      exact hpart c (.head _) hw
    · have hbyte : lead.toNat < 256 := lead.toNat_lt
      have hwhite := hw.1
      rw [isWhiteSpace, toNat_charFrom] at hwhite
      simp only [Bool.or_eq_true, Bool.and_eq_true, decide_eq_true_eq, beq_iff_eq] at hwhite
      omega

/-! ## Files -/

/-- A mount as it is listed: a device, any path, a type and options. -/
structure Mount where
  device : List Char
  path : List Char
  fstype : List Char
  options : List Char
  device_word : device ≠ [] ∧ ∀ c ∈ device, isWhiteSpace c = false
  fstype_word : fstype ≠ [] ∧ ∀ c ∈ fstype, isWhiteSpace c = false
  options_word : words options ≠ []
  options_line : '\n' ∉ options

def Mount.line (mount : Mount) : List Char :=
  mount.device ++ ' ' :: (mangle mount.path ++ ' ' :: (mangle mount.fstype ++ ' ' :: mount.options))

/-- The file of mounts. -/
def mountsText (mounts : List Mount) : List Char := mounts.flatMap fun mount => mount.line ++ ['\n']

/-- ASCII, with no white space that the kernel does not escape. -/
def Plain (path : List Char) : Prop :=
  path ≠ [] ∧ ∀ c ∈ path, c.toNat < 0x80 ∧ c ≠ '\x0b' ∧ c ≠ '\x0c' ∧ c ≠ '\r'

theorem exotic_iff {c : Char} (h : c.toNat < 0x80) : Exotic c ↔ c = '\x0b' ∨ c = '\x0c' ∨ c = '\r' := by
  constructor
  · rintro ⟨hwhite, hspace, htab, hline⟩
    have hspace : c.toNat ≠ 32 := fun hcode => hspace (Char.toNat_inj.mp hcode)
    have htab : c.toNat ≠ 9 := fun hcode => htab (Char.toNat_inj.mp hcode)
    have hline : c.toNat ≠ 10 := fun hcode => hline (Char.toNat_inj.mp hcode)
    rw [isWhiteSpace] at hwhite
    simp only [Bool.or_eq_true, Bool.and_eq_true, decide_eq_true_eq, beq_iff_eq] at hwhite
    have hcode : c.toNat = 11 ∨ c.toNat = 12 ∨ c.toNat = 13 := by omega
    rcases hcode with hcode | hcode | hcode
    · exact .inl (Char.toNat_inj.mp hcode)
    · exact .inr (.inl (Char.toNat_inj.mp hcode))
    · exact .inr (.inr (Char.toNat_inj.mp hcode))
  · rintro (rfl | rfl | rfl) <;> exact ⟨by decide, by decide, by decide, by decide⟩

theorem plain_iff {path : List Char} :
    Plain path ↔ path ≠ [] ∧ (∀ c ∈ path, ¬ Exotic c) ∧ ∀ c ∈ path, c.toNat < 0x80 := by
  constructor
  · rintro ⟨hne, hall⟩
    refine ⟨hne, fun c hc => ?_, fun c hc => (hall c hc).1⟩
    rw [exotic_iff (hall c hc).1, not_or, not_or]
    exact (hall c hc).2
  · rintro ⟨hne, hexotic, hascii⟩
    refine ⟨hne, fun c hc => ⟨hascii c hc, ?_⟩⟩
    have hnot := hexotic c hc
    rwa [exotic_iff (hascii c hc), not_or, not_or] at hnot

theorem words_dropReturn (line : List Char) : words (dropReturn line) = words line := by
  unfold dropReturn
  split
  · next hlast =>
    obtain ⟨init, rfl⟩ := List.getLast?_eq_some_iff.mp hlast
    rw [List.dropLast_concat, words_append_blank]
    exact List.forall_mem_singleton.mpr (by decide)
  · rfl

/-- Lines that are written with a line feed behind each are read line by line. -/
theorem lines_written {written : List (List Char)} (h : ∀ line ∈ written, '\n' ∉ line) :
    lines (written.flatMap fun line => line ++ ['\n']) = written.map dropReturn := by
  have hsplit : split '\n' (written.flatMap fun line => line ++ ['\n']) = written ++ [[]] := by
    induction written with
    | nil => rfl
    | cons line written ih =>
      obtain ⟨hline, hwritten⟩ := List.forall_mem_cons.mp h
      rw [List.flatMap_cons, List.append_assoc, List.singleton_append, split_append,
        split_of_not_mem hline, ih hwritten]
      rfl
  rw [lines, hsplit, List.dropLast_concat, List.getLast?_concat]
  simp

theorem newline_not_mem_mangle (text : List Char) : '\n' ∉ mangle text := by
  intro hmem
  obtain ⟨c, -, hc⟩ := List.mem_flatMap.mp hmem
  obtain ⟨rfl, hexotic⟩ := exotic_of_mem_mangleChar hc (by decide)
  exact hexotic.2.2.2 rfl

theorem Mount.newline_not_mem (mount : Mount) : '\n' ∉ mount.line := by
  intro hmem
  simp only [line, List.mem_append, List.mem_cons] at hmem
  rcases hmem with hmem | hmem | hmem | hmem | hmem | hmem | hmem
  · exact absurd (mount.device_word.2 _ hmem) (by decide)
  · exact absurd hmem (by decide)
  · exact newline_not_mem_mangle _ hmem
  · exact absurd hmem (by decide)
  · exact newline_not_mem_mangle _ hmem
  · exact absurd hmem (by decide)
  · exact mount.options_line hmem

theorem Mount.fstype_plain (mount : Mount) : ∀ c ∈ mount.fstype, ¬ Exotic c := by
  intro c hc hexotic
  exact absurd hexotic.1 (by rw [mount.fstype_word.2 c hc]; decide)

theorem Mount.words_line (mount : Mount) :
    words mount.line =
      mount.device :: (words (mangle mount.path) ++ mangle mount.fstype :: words mount.options) := by
  rw [line, words_append (by decide), words_append (by decide), words_append (by decide),
    words_word mount.device_word.1 mount.device_word.2, words_mangle mount.fstype_word.1 mount.fstype_plain]
  rfl

/-- The second and the third field, whatever the path is. -/
theorem mountLine_of_words {line device mount fstype : List Char} {more : List (List Char)}
    (h : words line = device :: mount :: fstype :: more) :
    mountLine line = (unescapeMount mount).bind fun mount =>
      (unescapeMount fstype).map fun fstype => some ⟨mount, fstype⟩ := by
  rw [mountLine, h]
  dsimp only
  cases unescapeMount mount with
  | none => rfl
  | some mount =>
    cases unescapeMount fstype with
    | none => rfl
    | some fstype => rfl

theorem mountLine_plain {mount : Mount} (h : Plain mount.path) :
    mountLine mount.line = some (some ⟨mount.path, latin mount.fstype⟩) := by
  obtain ⟨hne, hexotic, hascii⟩ := plain_iff.mp h
  have hwords := mount.words_line
  rw [words_mangle hne hexotic, List.singleton_append] at hwords
  rw [mountLine_of_words hwords, unescapeMount_mangle, unescapeMount_mangle, latin_ascii hascii]
  rfl

/-- Any other path is changed. -/
theorem mountLine_changed {mount : Mount} (h : ¬ Plain mount.path) {read : Option MountLine}
    (hread : mountLine mount.line = some read) :
    ∃ found, read = some found ∧ found.mount ≠ mount.path := by
  -- what is read is the first part of the path without exotic white space, or else the type
  have hpart : ∃ part more, words (mangle mount.path) ++ mangle mount.fstype :: words mount.options =
      mangle part :: more ∧ more ≠ [] ∧ latin part ≠ mount.path := by
    rcases first_exotic mount.path with hall | ⟨before, w, after, hpath, hbefore, hw⟩
    · by_cases hne : mount.path = []
      · refine ⟨mount.fstype, words mount.options, by rw [hne]; rfl, mount.options_word, ?_⟩
        rw [hne]
        intro hsame
        have hbytes : utf8 mount.fstype = [] := List.map_eq_nil_iff.mp hsame
        exact mount.fstype_word.1 (utf8_eq_nil.mp hbytes)
      · refine ⟨mount.path, _, by rw [words_mangle hne hall]; rfl, List.cons_ne_nil _ _, ?_⟩
        intro hsame
        have hlen := congrArg List.length hsame
        rw [length_latin] at hlen
        exact h (plain_iff.mpr ⟨hne, hall, ascii_of_length hlen⟩)
    · rw [hpath, words_mangle_split hw]
      cases before with
      | nil =>
        cases hwords : words (mangle after) with
        | nil =>
          refine ⟨mount.fstype, words mount.options, rfl, mount.options_word, ?_⟩
          exact latin_ne_exotic mount.fstype_plain hw
        | cons word more =>
          obtain ⟨part, rfl, -, hpart⟩ := mem_words_mangle (hwords ▸ List.mem_cons_self)
          exact ⟨part, _, rfl, List.append_ne_nil_of_right_ne_nil _ (List.cons_ne_nil _ _),
            latin_ne_exotic hpart hw⟩
      | cons c before =>
        refine ⟨c :: before, _, by rw [words_mangle (List.cons_ne_nil c before) hbefore]; rfl, ?_,
          latin_ne_split hbefore hw⟩
        exact List.append_ne_nil_of_right_ne_nil _ (List.cons_ne_nil _ _)
  obtain ⟨part, more, hfields, hmore, hne⟩ := hpart
  obtain ⟨third, more, rfl⟩ := List.exists_cons_of_ne_nil hmore
  have hwords := mount.words_line
  rw [hfields] at hwords
  rw [mountLine_of_words hwords, unescapeMount_mangle, Option.bind_some] at hread
  obtain ⟨fstype, -, rfl⟩ := Option.map_eq_some_iff.mp hread
  exact ⟨_, rfl, hne⟩

/-- The mounts of a file are read line by line. -/
theorem parseMounts_written (mounts : List Mount) :
    parseMounts (mountsText mounts) =
      (mounts.mapM fun mount => mountLine mount.line).map (·.filterMap id) := by
  have hline : ∀ line, mountLine (dropReturn line) = mountLine line := by
    intro line
    rw [mountLine, words_dropReturn]
    rfl
  have htext : mountsText mounts = (mounts.map (·.line)).flatMap fun line => line ++ ['\n'] := by
    rw [mountsText, List.flatMap_map]
  rw [parseMounts, htext, lines_written (List.forall_mem_map.mpr fun mount _ => mount.newline_not_mem),
    List.map_map]
  congr 1
  induction mounts with
  | nil => rfl
  | cons mount mounts ih =>
    rw [List.map_cons, List.mapM_cons, List.mapM_cons, ih]
    · show (mountLine (dropReturn mount.line)).bind _ = _
      rw [hline]
      rfl
    · rw [mountsText, List.flatMap_map]

theorem mountPaths_iff (mounts : List Mount) :
    (parseMounts (mountsText mounts)).map (·.map (·.mount)) = some (mounts.map (·.path)) ↔
      ∀ mount ∈ mounts, Plain mount.path := by
  rw [parseMounts_written, Option.map_map]
  induction mounts with
  | nil => simp
  | cons mount mounts ih =>
    rw [List.forall_mem_cons, List.mapM_cons]
    by_cases hplain : Plain mount.path
    · rw [mountLine_plain hplain, and_iff_right hplain, ← ih]
      cases mounts.mapM fun mount => mountLine mount.line with
      | none => simp
      | some reads => simp
    · refine iff_of_false ?_ fun h => hplain h.1
      intro hsame
      cases hread : mountLine mount.line with
      | none =>
        rw [hread] at hsame
        cases hsame
      | some read =>
        obtain ⟨found, rfl, hne⟩ := mountLine_changed hplain hread
        rw [hread] at hsame
        cases hrest : mounts.mapM fun mount => mountLine mount.line with
        | none =>
          rw [hrest] at hsame
          cases hsame
        | some reads =>
          rw [hrest] at hsame
          have hlists := Option.some.inj hsame
          exact hne (List.cons.inj hlists).1

/-- A line has no result when its path or its type is cut. -/
theorem mountLine_eq_none {line : List Char} : mountLine line = none ↔
    ∃ device mount fstype more, words line = device :: mount :: fstype :: more ∧
      (Cut mount ∨ Cut fstype) := by
  constructor
  · intro h
    match hwords : words line with
    | [] | [_] | [_, _] =>
      rw [mountLine, hwords] at h
      cases h
    | device :: mount :: fstype :: more =>
      refine ⟨device, mount, fstype, more, rfl, ?_⟩
      rw [mountLine_of_words hwords, Option.bind_eq_none_iff] at h
      cases hmount : unescapeMount mount with
      | none => exact .inl (unescapeMount_eq_none.mp hmount)
      | some found => exact .inr (unescapeMount_eq_none.mp (Option.map_eq_none_iff.mp (h found hmount)))
  · rintro ⟨device, mount, fstype, more, hwords, hcut⟩
    rw [mountLine_of_words hwords]
    rcases hcut with hcut | hcut
    · rw [unescapeMount_eq_none.mpr hcut]
      rfl
    · rw [unescapeMount_eq_none.mpr hcut]
      cases unescapeMount mount <;> rfl

theorem parseMounts_eq_none {text : List Char} :
    parseMounts text = none ↔ ∃ line ∈ lines text, mountLine line = none := by
  rw [parseMounts, Option.map_eq_none_iff]
  induction lines text with
  | nil => simp
  | cons line rest ih =>
    rw [List.mapM_cons, List.exists_mem_cons_iff, ← ih]
    cases mountLine line with
    | none => simp
    | some read =>
      cases rest.mapM mountLine with
      | none => simp
      | some reads => simp

/-- The paths of a file of mounts are read as they are exactly when each is plain, and a file is read
exactly when no line has a path or a type that is cut. -/
theorem parseMounts_iff (mounts : List Mount) (text : List Char) :
    ((parseMounts (mountsText mounts)).map (·.map (·.mount)) = some (mounts.map (·.path)) ↔
      ∀ mount ∈ mounts, Plain mount.path) ∧
    ((∃ reads, parseMounts text = some reads) ↔
      ¬ ∃ line ∈ lines text, ∃ device mount fstype more,
        words line = device :: mount :: fstype :: more ∧ (Cut mount ∨ Cut fstype)) := by
  refine ⟨mountPaths_iff mounts, ?_⟩
  have hnone := @parseMounts_eq_none text
  simp only [mountLine_eq_none] at hnone
  rw [← hnone, ← ne_eq, Option.ne_none_iff_exists']

theorem word_of_all {cs : List Char} (h : (cs.all fun c => !isWhiteSpace c) = true) :
    ∀ c ∈ cs, isWhiteSpace c = false := by
  intro c hc
  have hword := List.all_eq_true.mp h c hc
  simpa using hword

/-- A mount at a path with a character outside ASCII. -/
def cafe : Mount where
  device := "/dev/sdb1".toList
  path := "/mnt/café".toList
  fstype := "ext4".toList
  options := "rw 0 0".toList
  device_word := ⟨by decide, word_of_all (by decide)⟩
  fstype_word := ⟨by decide, word_of_all (by decide)⟩
  options_word := by decide
  options_line := by decide

/-- Its path is read as another one, and a backslash in front of such a character stops the
process. -/
theorem cafe_changed :
    (parseMounts (mountsText [cafe])).map (·.map (·.mount)) = some ["/mnt/cafÃ©".toList] ∧
      parseMounts "/dev/sdb1 /mnt/\\xcé ext4 rw 0 0\n".toList = none := by
  constructor <;> decide +kernel

end Novbot.Runtime.Mounts
