import Novbot.Control.Op
import Novbot.Lib.JsonScan
import Novbot.Lib.Lines
import Novbot.Lib.Utf8
import Mathlib.Data.List.Perm.Subperm

/-!
# Torn lines of the spool

`enqueue` of `novbot-core/src/retry.rs` appends a line in JSON and a line feed, and a crash can cut
an append short at any byte.  The next append goes on behind the torn line.  `drain` reads line by
line, skips what is no report, and fails at a line that is no UTF-8.

`drain_recovers_iff` says of which histories of appends it gets every line back that was written
completely.
-/

namespace Novbot.Spool.Torn

open Text Control JsonScan

/-! ## The file -/

/-- What `serde_json` writes for a report, and reads. -/
structure Serde where
  print : PendingReport → List Char
  parse : List Char → Option PendingReport

/-- An append, of which so many bytes reached the file. -/
structure Write where
  item : PendingReport
  cut : Nat

variable (serde : Serde)

/-- The report as it is spooled. -/
def Write.spooled (w : Write) : PendingReport := { w.item with
  attempts := max w.item.attempts 1 }

def Write.line (w : Write) : List Char := serde.print w.spooled

def Write.written (w : Write) : List UInt8 := (utf8 (w.line serde) ++ [0x0A]).take w.cut

def spoolFile (ws : List Write) : List UInt8 := ws.flatMap (·.written serde)

abbrev Write.Complete (w : Write) : Prop := (utf8 (w.line serde)).length ≤ w.cut

/-- With the line feed. -/
abbrev Write.Ended (w : Write) : Prop := (utf8 (w.line serde)).length < w.cut

/-- The reports of the lines that were written completely. -/
def completes (ws : List Write) : List PendingReport :=
  (ws.filter fun w => w.Complete serde).map (·.spooled)

/-! ## Reading -/

/-- The lines of a file, without their line feeds. -/
def byteLines : List UInt8 → List (List UInt8)
  | [] => []
  | b :: bytes =>
    let line := (b :: bytes).takeWhile (· ≠ 0x0A)
    line :: byteLines ((b :: bytes).drop (line.length + 1))
termination_by bytes => bytes.length

/-- A line that is no UTF-8 fails, and one that is no report is skipped. -/
def readLine (bytes : List UInt8) : Option (Option PendingReport) :=
  (fromUtf8 bytes).map fun text =>
    let line := trim (dropReturn text)
    if line = [] then none else serde.parse line

def readLines : List (List UInt8) → Option (List PendingReport)
  | [] => some []
  | bytes :: rest => do
    let item ← readLine serde bytes
    let items ← readLines rest
    return item.toList ++ items

/-- `drain`: what it returns, and the file after it.  It clears the file unless it fails. -/
def drain (file : Option (List UInt8)) : Option (List PendingReport) × Option (List UInt8) :=
  match file with
  | none => (some [], none)
  | some bytes =>
    match readLines serde (byteLines bytes) with
    | some items => (some items, some [])
    | none => (none, some bytes)

/-- `drain` succeeds, and returns the lines that were written completely. -/
def Recovers (ws : List Write) : Prop :=
  ∃ items, (drain serde (some (spoolFile serde ws))).1 = some items ∧
    (completes serde ws).Subperm items

/-! ## What is known of JSON -/

/-- A report is printed as one line with an object, which begins with the key `node_id`, and is read
back. -/
structure Prints (item : PendingReport) : Prop where
  begins : ∃ rest, serde.print item = '{' :: '"' :: 'n' :: rest
  ends : (serde.print item).getLast? = some '}'
  visible : ∀ c ∈ serde.print item, 0x20 ≤ c.toNat
  reads : serde.parse (serde.print item) = some item

/-- A text that is read, and begins with an object, is that object. -/
def Accepts : Prop :=
  ∀ text item, serde.parse text = some item → text.head? = some '{' → Closes text

/-- Each write that is complete begins a line and ends it, unless nothing follows. -/
def Alone (ws : List Write) : Prop :=
  ∀ before w after, ws = before ++ w :: after → w.Complete serde →
    (spoolFile serde before = [] ∨ (spoolFile serde before).getLast? = some 0x0A) ∧
      (w.Ended serde ∨ spoolFile serde after = [])

/-! ## Lines of bytes -/

variable {serde}

theorem byteLines_nil : byteLines [] = [] := by rw [byteLines]

theorem takeWhile_line {line rest : List UInt8} (h : (0x0A : UInt8) ∉ line) :
    (line ++ 0x0A :: rest).takeWhile (· ≠ 0x0A) = line := by
  induction line with
  | nil => rfl
  | cons b line ih =>
    rw [List.mem_cons, not_or] at h
    obtain ⟨hne, hline⟩ := h
    rw [List.cons_append, List.takeWhile_cons, if_pos (by simpa using Ne.symm hne), ih hline]

theorem byteLines_line {line : List UInt8} (h : (0x0A : UInt8) ∉ line) (rest : List UInt8) :
    byteLines (line ++ 0x0A :: rest) = line :: byteLines rest := by
  have hunfold : ∀ bytes : List UInt8, bytes ≠ [] → byteLines bytes =
      bytes.takeWhile (· ≠ 0x0A) :: byteLines (bytes.drop ((bytes.takeWhile (· ≠ 0x0A)).length + 1)) := by
    intro bytes hne
    cases bytes with
    | nil => exact absurd rfl hne
    | cons b bytes => rw [byteLines]
  rw [hunfold _ (List.append_ne_nil_of_right_ne_nil _ (List.cons_ne_nil _ _)), takeWhile_line h,
    List.drop_append, List.drop_eq_nil_of_le (Nat.le_succ _), Nat.add_sub_cancel_left]
  rfl

theorem byteLines_last {line : List UInt8} (h : (0x0A : UInt8) ∉ line) (hne : line ≠ []) :
    byteLines line = [line] := by
  cases line with
  | nil => exact absurd rfl hne
  | cons b line =>
    have hall : (b :: line).takeWhile (· ≠ 0x0A) = b :: line :=
      List.takeWhile_eq_self_iff.mpr fun c hc => decide_eq_true fun heq => h (heq ▸ hc)
    rw [byteLines, hall, List.drop_eq_nil_of_le (Nat.le_succ _), byteLines_nil]

/-! ## Pieces of text -/

theorem prefix_of_utf8 {text piece : List Char} {more : List UInt8}
    (h : utf8 text = utf8 piece ++ more) : piece <+: text := by
  induction piece generalizing text with
  | nil => exact List.nil_prefix
  | cons c piece ih =>
    rw [utf8_cons, List.append_assoc] at h
    obtain ⟨rest, rfl, hrest⟩ := cons_of_utf8 h
    exact List.cons_prefix_cons.mpr ⟨rfl, ih hrest⟩

/-- A brace begins a character. -/
theorem not_continues_brace {text : List Char} {more : List UInt8} {b : UInt8}
    (h : (utf8 ('{' :: text) ++ more).head? = some b) : ¬ Continues b := by
  rw [utf8_cons, utf8EncodeChar_ascii (by decide)] at h
  cases h
  rintro ⟨hlow, -⟩
  exact absurd hlow (by decide)

/-- Where one text follows another, both are UTF-8 or the whole is none. -/
theorem fromUtf8_append_iff {before after : List UInt8}
    (hcut : ∀ b, after.head? = some b → ¬ Continues b) :
    (fromUtf8 (before ++ after)).isSome ↔ (fromUtf8 before).isSome ∧ (fromUtf8 after).isSome := by
  constructor
  · intro h
    obtain ⟨text, htext⟩ := Option.isSome_iff_exists.mp h
    obtain ⟨left, right, -, hleft, hright⟩ := utf8_cut (utf8_of_fromUtf8 htext) hcut
    rw [← hleft, ← hright, fromUtf8_utf8, fromUtf8_utf8]
    exact ⟨rfl, rfl⟩
  · rintro ⟨hbefore, hafter⟩
    obtain ⟨left, hleft⟩ := Option.isSome_iff_exists.mp hbefore
    obtain ⟨right, hright⟩ := Option.isSome_iff_exists.mp hafter
    rw [← utf8_of_fromUtf8 hleft, ← utf8_of_fromUtf8 hright, ← utf8_append, fromUtf8_utf8]
    rfl

section

variable {w : Write} {ws : List Write}

theorem newline_not_mem {item : PendingReport} (h : Prints serde item) :
    (0x0A : UInt8) ∉ utf8 (serde.print item) := by
  intro hmem
  obtain ⟨c, hc, hb⟩ := List.mem_flatMap.mp hmem
  have hascii := ascii_of_mem_utf8EncodeChar hb (by decide)
  have hvisible := h.visible c hc
  rw [hascii] at hvisible
  exact absurd hvisible (by decide)

theorem written_ended (h : w.Ended serde) : w.written serde = utf8 (w.line serde) ++ [0x0A] := by
  rw [Write.written]
  refine List.take_of_length_le ?_
  rw [List.length_append]
  exact h

theorem written_open (h : ¬ w.Ended serde) : w.written serde = (utf8 (w.line serde)).take w.cut := by
  have hcut : w.cut ≤ (utf8 (w.line serde)).length := Nat.le_of_not_lt h
  rw [Write.written, List.take_append, Nat.sub_eq_zero_of_le hcut, List.take_zero, List.append_nil]

theorem line_ne_nil (h : Prints serde w.spooled) : w.line serde ≠ [] := by
  obtain ⟨rest, hrest⟩ := h.begins
  rw [Write.line, hrest]
  exact List.cons_ne_nil _ _

theorem written_eq_nil : w.written serde = [] ↔ w.cut = 0 := by
  rw [Write.written, List.take_eq_nil_iff]
  constructor
  · intro hnil
    rcases hnil with hzero | hnil
    · exact hzero
    · exact absurd hnil (List.append_ne_nil_of_right_ne_nil _ (List.cons_ne_nil _ _))
  · exact .inl

/-- What was written begins a character. -/
theorem written_head (h : Prints serde w.spooled) (b : UInt8)
    (hb : (w.written serde).head? = some b) : ¬ Continues b := by
  obtain ⟨rest, hrest⟩ := h.begins
  rw [Write.written, List.head?_take] at hb
  split at hb
  · cases hb
  · rw [Write.line, hrest] at hb
    exact not_continues_brace hb

/-- A piece of a line, where it is UTF-8. -/
theorem exists_piece (hopen : ¬ w.Ended serde) (hutf8 : (fromUtf8 (w.written serde)).isSome) :
    ∃ piece, piece <+: w.line serde ∧ w.written serde = utf8 piece ∧
      (w.Complete serde ↔ piece = w.line serde) := by
  obtain ⟨piece, hpiece⟩ := Option.isSome_iff_exists.mp hutf8
  have hbytes := utf8_of_fromUtf8 hpiece
  have hsplit : utf8 (w.line serde) = utf8 piece ++ (utf8 (w.line serde)).drop w.cut := by
    rw [hbytes, written_open hopen, List.take_append_drop]
  refine ⟨piece, prefix_of_utf8 hsplit, hbytes.symm, fun hcomplete => ?_, fun hwhole => ?_⟩
  · rw [List.drop_eq_nil_of_le hcomplete, List.append_nil] at hsplit
    exact (utf8_inj.mp hsplit).symm
  · rw [hwhole, written_open hopen] at hbytes
    exact List.take_eq_self_iff _ |>.mp hbytes.symm

theorem written_line (hopen : ¬ w.Ended serde) (h : Prints serde w.spooled) :
    (0x0A : UInt8) ∉ w.written serde := by
  rw [written_open hopen]
  exact fun hmem => newline_not_mem h (List.mem_of_mem_take hmem)

/-! ## Reading the file -/

theorem utf8_of_readLine {bytes : List UInt8} (h : (readLine serde bytes).isSome) :
    (fromUtf8 bytes).isSome := by
  rw [readLine, Option.isSome_map] at h
  exact h

theorem readLines_cons {bytes : List UInt8} {rest : List (List UInt8)} {items : List PendingReport} :
    readLines serde (bytes :: rest) = some items ↔ ∃ item more, readLine serde bytes = some item ∧
      readLines serde rest = some more ∧ items = item.toList ++ more := by
  rw [readLines]
  simp only [Option.bind_eq_bind, Option.bind_eq_some_iff, Option.pure_def, Option.some_inj]
  constructor
  · rintro ⟨item, hitem, more, hmore, rfl⟩
    exact ⟨item, more, hitem, hmore, rfl⟩
  · rintro ⟨item, more, hitem, hmore, rfl⟩
    exact ⟨item, hitem, more, hmore, rfl⟩

/-- A file that is read has no write that was cut inside a character. -/
theorem utf8_of_readLines {bytes : List UInt8} {items : List PendingReport}
    (hbytes : (0x0A : UInt8) ∉ bytes) (hprints : ∀ w ∈ ws, Prints serde w.spooled)
    (h : readLines serde (byteLines (bytes ++ spoolFile serde ws)) = some items) :
    (fromUtf8 bytes).isSome ∧ ∀ w ∈ ws, (fromUtf8 (w.written serde)).isSome := by
  induction ws generalizing bytes items with
  | nil =>
    refine ⟨?_, fun w hw => absurd hw List.not_mem_nil⟩
    have hfile : bytes ++ spoolFile serde [] = bytes := List.append_nil bytes
    rw [hfile] at h
    by_cases hnil : bytes = []
    · rw [hnil]
      rfl
    · rw [byteLines_last hbytes hnil] at h
      obtain ⟨item, -, hitem, -, -⟩ := readLines_cons.mp h
      exact utf8_of_readLine (Option.isSome_iff_exists.mpr ⟨item, hitem⟩)
  | cons w ws ih =>
    have hw := hprints w List.mem_cons_self
    have hrest : ∀ w ∈ ws, Prints serde w.spooled := fun w hmem => hprints w (.tail _ hmem)
    have hfile : bytes ++ spoolFile serde (w :: ws) =
        (bytes ++ w.written serde) ++ spoolFile serde ws := (List.append_assoc _ _ _).symm
    rw [hfile] at h
    by_cases hended : w.Ended serde
    · have hline : (0x0A : UInt8) ∉ bytes ++ utf8 (w.line serde) := by
        rw [List.mem_append, not_or]
        exact ⟨hbytes, newline_not_mem hw⟩
      have hsplit : (bytes ++ w.written serde) ++ spoolFile serde ws =
          (bytes ++ utf8 (w.line serde)) ++ 0x0A :: spoolFile serde ws := by
        rw [written_ended hended, ← List.append_assoc, List.append_assoc]
        rfl
      rw [hsplit, byteLines_line hline] at h
      obtain ⟨item, more, hitem, hmore, -⟩ := readLines_cons.mp h
      obtain ⟨-, hlater⟩ := ih List.not_mem_nil hrest hmore
      have hutf8 := utf8_of_readLine (Option.isSome_iff_exists.mpr ⟨item, hitem⟩)
      have hcut : ∀ b, (utf8 (w.line serde)).head? = some b → ¬ Continues b := by
        intro b hb
        obtain ⟨rest, hbegins⟩ := hw.begins
        rw [Write.line, hbegins] at hb
        refine @not_continues_brace ('"' :: 'n' :: rest) [] b ?_
        rw [List.append_nil]
        exact hb
      refine ⟨((fromUtf8_append_iff hcut).mp hutf8).1, fun later hlast => ?_⟩
      rcases List.mem_cons.mp hlast with rfl | hlast
      · have hwhole : utf8 (later.line serde) ++ [0x0A] = utf8 (later.line serde ++ ['\n']) := by
          rw [utf8_append]
          rfl
        rw [written_ended hended, hwhole, fromUtf8_utf8]
        rfl
      · exact hlater later hlast
    · have hmore : (0x0A : UInt8) ∉ bytes ++ w.written serde := by
        rw [List.mem_append, not_or]
        exact ⟨hbytes, written_line hended hw⟩
      obtain ⟨hutf8, hlater⟩ := ih hmore hrest h
      obtain ⟨hleft, hright⟩ := (fromUtf8_append_iff (written_head hw)).mp hutf8
      refine ⟨hleft, fun later hlast => ?_⟩
      rcases List.mem_cons.mp hlast with rfl | hlast
      · exact hright
      · exact hlater later hlast

/-! ## What a line holds -/

/-- A line that was not ended: nothing, a report, or no report and never one. -/
inductive Status where
  | blank
  | whole (item : PendingReport)
  | broken

def Status.pending : Status → List PendingReport
  | .whole item => [item]
  | _ => []

variable (serde)

/-- The line after more was written to it. -/
def Status.put : Status → Write → Status
  | .blank, w => if w.Complete serde then .whole w.spooled else .broken
  | _, _ => .broken

/-- The line that the next append finds. -/
def Status.next (s : Status) (w : Write) : Status :=
  if w.cut = 0 then s else if w.Ended serde then .blank else s.put serde w

/-- The reports that are read back. -/
def recovered : Status → List Write → List PendingReport
  | s, [] => s.pending
  | s, w :: ws =>
    (if w.Ended serde then (s.put serde w).pending else []) ++ recovered (s.next serde w) ws

def Stands : Status → List Char → Prop
  | .blank, text => text = []
  | .whole item, text => text = serde.print item ∧ Prints serde item
  | .broken, text => text.head? = some '{' ∧ Stuck (scan .start text)

variable {serde} {s : Status} {text : List Char}

theorem closes_of_prints {item : PendingReport} (haccepts : Accepts serde) (h : Prints serde item) :
    Closes (serde.print item) := by
  refine haccepts _ item h.reads ?_
  obtain ⟨rest, hrest⟩ := h.begins
  rw [hrest]
  rfl

/-- A piece of a line goes on behind what is there. -/
theorem stands_put {piece : List Char} (haccepts : Accepts serde) (hw : Prints serde w.spooled)
    (hs : Stands serde s text) (hbegun : piece <+: w.line serde) (hne : piece ≠ [])
    (hwhole : w.Complete serde ↔ piece = w.line serde) :
    Stands serde (s.put serde w) (text ++ piece) := by
  obtain ⟨rest, hrest⟩ := hw.begins
  have hbegins : Begins (w.line serde) := ⟨'n', rest, hrest, by decide⟩
  have hcloses : Closes (w.line serde) := closes_of_prints haccepts hw
  have halive : scan .start piece ≠ .dead := by
    obtain ⟨more, hmore⟩ := hbegun
    refine @ne_dead_of_append _ piece more ?_
    rw [hmore, hcloses]
    exact fun hdead => by cases hdead
  cases s with
  | blank =>
    have htext : text = [] := hs
    rw [htext, List.nil_append, Status.put]
    split
    · next hcomplete => exact ⟨hwhole.mp hcomplete, hw⟩
    · next htorn =>
      -- the line is longer than the piece, and closes with its last brace
      obtain ⟨init, hinit⟩ := List.getLast?_eq_some_iff.mp hw.ends
      have hline : w.line serde = init ++ ['}'] := hinit
      have hpiece : piece <+: init := by
        rw [hline] at hbegun
        rcases List.prefix_concat_iff.mp hbegun with heq | hinner
        · exact absurd (hwhole.mpr (heq.trans hline.symm)) htorn
        · exact hinner
      rw [hline] at hcloses
      have hstuck : Stuck (scan .start piece) :=
        stuck_of_not_closed hne (not_closed_of_init hcloses (by decide) hpiece)
      refine ⟨?_, hstuck⟩
      cases piece with
      | nil => exact absurd rfl hne
      | cons c piece =>
        have hhead : w.line serde = '{' :: '"' :: 'n' :: rest := hrest
        rw [hhead] at hbegun
        rw [(List.cons_prefix_cons.mp hbegun).1]
        rfl
  | whole item =>
    obtain ⟨rfl, hprints⟩ := hs
    obtain ⟨more, hmore⟩ := hprints.begins
    refine ⟨?_, ?_⟩
    · rw [hmore]
      rfl
    · rw [scan_append, closes_of_prints haccepts hprints]
      exact stuck_closed hbegins hbegun hne
  | broken =>
    obtain ⟨hhead, hstuck⟩ := hs
    refine ⟨?_, ?_⟩
    · rw [List.head?_append, hhead]
      rfl
    · rw [scan_append]
      exact stuck_append hstuck hbegins hbegun halive

theorem trim_line {item : PendingReport} (h : Prints serde item) :
    trim (serde.print item) = serde.print item := by
  obtain ⟨rest, hrest⟩ := h.begins
  have hstart : trimStart (serde.print item) = serde.print item := by
    rw [hrest]
    exact dropWhile_run (fun c hc => absurd hc List.not_mem_nil) (.cons (by decide))
  rw [trim, hstart]
  refine trimEndMatches_of_last fun c hc => ?_
  rw [h.ends] at hc
  cases hc
  decide

/-- A line is read as what it holds. -/
theorem readLine_stands (haccepts : Accepts serde) (hs : Stands serde s text) :
    readLine serde (utf8 text) = some s.pending.head? := by
  rw [readLine, fromUtf8_utf8, Option.map_some, trim_dropReturn]
  cases s with
  | blank =>
    have htext : text = [] := hs
    rw [htext]
    rfl
  | whole item =>
    obtain ⟨rfl, hprints⟩ := hs
    obtain ⟨rest, hrest⟩ := hprints.begins
    have hne : serde.print item ≠ [] := by
      rw [hrest]
      exact List.cons_ne_nil _ _
    dsimp only
    rw [trim_line hprints, if_neg hne, hprints.reads]
    rfl
  | broken =>
    obtain ⟨hhead, hstuck⟩ := hs
    dsimp only
    split
    · rfl
    · refine congrArg some ?_
      cases hparse : serde.parse (trim text) with
      | none => rfl
      | some item =>
        -- the text would be an object, with white space behind it
        obtain ⟨rest, htext⟩ := List.head?_eq_some_iff.mp hhead
        obtain ⟨before, after, hcs, hbefore, hafter⟩ := exists_trim text
        have htrim : (trim text).head? = some '{' := by
          rw [htext]
          exact @head?_trim [] rest '{' (fun c hc => absurd hc List.not_mem_nil) (by decide)
        have hnil : before = [] := by
          cases before with
          | nil => rfl
          | cons c before =>
            rw [htext, List.cons_append, List.cons.injEq] at hcs
            have hwhite := hbefore c List.mem_cons_self
            rw [← hcs.1] at hwhite
            cases hwhite
        have hclosed : scan .start text = .closed := by
          rw [hcs, hnil, List.nil_append, scan_append, haccepts _ item hparse htrim, scan_white hafter]
        rw [hclosed] at hstuck
        exact hstuck.elim

/-- A file without a write that was cut inside a character is read. -/
theorem readLines_recovered (haccepts : Accepts serde) (hprints : ∀ w ∈ ws, Prints serde w.spooled)
    (hutf8 : ∀ w ∈ ws, (fromUtf8 (w.written serde)).isSome) (hs : Stands serde s text)
    (htext : (0x0A : UInt8) ∉ utf8 text) :
    readLines serde (byteLines (utf8 text ++ spoolFile serde ws)) = some (recovered serde s ws) := by
  have hpending : ∀ s : Status, s.pending.head?.toList = s.pending := by
    intro s
    cases s with
    | blank => rfl
    | whole item => rfl
    | broken => rfl
  induction ws generalizing s text with
  | nil =>
    have hfile : utf8 text ++ spoolFile serde [] = utf8 text := List.append_nil _
    rw [hfile, recovered]
    by_cases hnil : text = []
    · cases s with
      | blank =>
        rw [hnil, utf8_nil, byteLines_nil]
        rfl
      | whole item =>
        obtain ⟨htext', hitem⟩ := hs
        obtain ⟨rest, hrest⟩ := hitem.begins
        rw [hnil, hrest] at htext'
        cases htext'
      | broken =>
        rw [hnil] at hs
        cases hs.1
    · rw [byteLines_last htext fun h => hnil (utf8_eq_nil.mp h)]
      refine readLines_cons.mpr ⟨_, [], readLine_stands haccepts hs, rfl, ?_⟩
      rw [hpending, List.append_nil]
  | cons w ws ih =>
    have hw := hprints w List.mem_cons_self
    have hrest : ∀ w ∈ ws, Prints serde w.spooled := fun w hmem => hprints w (.tail _ hmem)
    have hlater : ∀ w ∈ ws, (fromUtf8 (w.written serde)).isSome := fun w hmem => hutf8 w (.tail _ hmem)
    have hfile : utf8 text ++ spoolFile serde (w :: ws) =
        (utf8 text ++ w.written serde) ++ spoolFile serde ws := (List.append_assoc _ _ _).symm
    rw [hfile, recovered, Status.next]
    by_cases hended : w.Ended serde
    · have hcut : w.cut ≠ 0 := Nat.ne_of_gt (Nat.lt_of_le_of_lt (Nat.zero_le _) hended)
      have hput := stands_put haccepts hw hs (List.prefix_refl _) (line_ne_nil hw)
        ⟨fun _ => rfl, fun _ => Nat.le_of_lt hended⟩
      have hsplit : (utf8 text ++ w.written serde) ++ spoolFile serde ws =
          utf8 (text ++ w.line serde) ++ 0x0A :: spoolFile serde ws := by
        rw [written_ended hended, utf8_append, ← List.append_assoc, List.append_assoc]
        rfl
      have hline : (0x0A : UInt8) ∉ utf8 (text ++ w.line serde) := by
        rw [utf8_append, List.mem_append, not_or]
        exact ⟨htext, newline_not_mem hw⟩
      have hblank := @ih .blank [] hrest hlater rfl List.not_mem_nil
      rw [if_neg hcut, if_pos hended, if_pos hended, hsplit, byteLines_line hline]
      refine readLines_cons.mpr ⟨_, _, readLine_stands haccepts hput, hblank, ?_⟩
      rw [hpending]
    · obtain ⟨piece, hbegun, hwritten, hwhole⟩ := exists_piece hended (hutf8 w List.mem_cons_self)
      have hmore : (0x0A : UInt8) ∉ utf8 (text ++ piece) := by
        rw [utf8_append, ← hwritten, List.mem_append, not_or]
        exact ⟨htext, written_line hended hw⟩
      rw [if_neg hended, if_neg hended, hwritten, ← utf8_append, List.nil_append]
      split
      · next hcut =>
        have hnil : piece = [] := utf8_eq_nil.mp (hwritten.symm.trans (written_eq_nil.mpr hcut))
        rw [hnil, List.append_nil] at hmore ⊢
        exact ih hrest hlater hs htext
      · next hcut =>
        have hne : piece ≠ [] := by
          rintro rfl
          exact hcut (written_eq_nil.mp hwritten)
        exact ih hrest hlater (stands_put haccepts hw hs hbegun hne hwhole) hmore

/-! ## Histories -/

variable (serde) in
/-- No append loses a report: one that is complete finds a blank line, and one that stands on its
line without a line feed is followed by nothing. -/
def Clean : Status → List Write → Prop
  | _, [] => True
  | s, w :: ws =>
    (w.cut ≠ 0 → s.pending = [] ∧ (w.Complete serde → s = .blank)) ∧ Clean (s.next serde w) ws

theorem complete_cut (h : Prints serde w.spooled) (hcomplete : w.Complete serde) : w.cut ≠ 0 := by
  intro hcut
  have hline : utf8 (w.line serde) = [] :=
    List.length_eq_zero_iff.mp (Nat.le_zero.mp (hcut ▸ hcomplete))
  exact line_ne_nil h (utf8_eq_nil.mp hline)

theorem completes_cons (w : Write) (ws : List Write) : completes serde (w :: ws) =
    (if w.Complete serde then [w.spooled] else []) ++ completes serde ws := by
  rw [completes, List.filter_cons]
  by_cases h : w.Complete serde
  · rw [if_pos (decide_eq_true h), if_pos h]
    rfl
  · rw [if_neg (by simpa using h), if_neg h]
    rfl

theorem not_ended (hcut : w.cut = 0) : ¬ w.Ended serde := by
  intro hended
  rw [Write.Ended, hcut] at hended
  exact Nat.not_lt_zero _ hended

/-- An append leaves no more reports, read or pending, than there were with its own, and as many
where it is clean. -/
theorem next_count (h : Prints serde w.spooled) (s : Status) :
    let left := (if w.Ended serde then (s.put serde w).pending else []).length +
      (s.next serde w).pending.length
    let all := s.pending.length + (if w.Complete serde then [w.spooled] else []).length
    left ≤ all ∧
      (left = all ↔ (w.cut ≠ 0 → s.pending = [] ∧ (w.Complete serde → s = .blank))) := by
  intro left all
  have hleft : left = (if w.Ended serde then (s.put serde w).pending else []).length +
    (s.next serde w).pending.length := rfl
  have hall : all = s.pending.length + (if w.Complete serde then [w.spooled] else []).length := rfl
  by_cases hcut : w.cut = 0
  · have hopen : ¬ w.Ended serde := not_ended hcut
    have htorn : ¬ w.Complete serde := fun hcomplete => complete_cut h hcomplete hcut
    rw [Status.next, if_pos hcut, if_neg hopen, List.length_nil, Nat.zero_add] at hleft
    rw [if_neg htorn, List.length_nil, Nat.add_zero] at hall
    exact ⟨by omega, fun _ hne => absurd hcut hne, fun _ => by omega⟩
  · have hgain : left = (s.put serde w).pending.length := by
      rw [hleft, Status.next, if_neg hcut]
      by_cases hended : w.Ended serde
      · rw [if_pos hended, if_pos hended]
        rfl
      · rw [if_neg hended, if_neg hended, List.length_nil, Nat.zero_add]
    rw [hgain, hall]
    cases s with
    | blank =>
      rw [Status.put]
      split
      · exact ⟨Nat.le_refl _, fun _ _ => ⟨rfl, fun _ => rfl⟩, fun _ => rfl⟩
      · exact ⟨Nat.le_refl _, fun _ _ => ⟨rfl, fun _ => rfl⟩, fun _ => rfl⟩
    | whole item =>
      have hlost : ((Status.whole item).put serde w).pending.length = 0 := rfl
      have hpending : (Status.whole item).pending.length = 1 := rfl
      rw [hlost, hpending]
      refine ⟨Nat.zero_le _, fun heq => absurd heq (by omega), fun hclean => ?_⟩
      cases (hclean hcut).1
    | broken =>
      have hlost : (Status.broken.put serde w).pending.length = 0 := rfl
      have hpending : Status.broken.pending.length = 0 := rfl
      rw [hlost, hpending, Nat.zero_add]
      by_cases hcomplete : w.Complete serde
      · rw [if_pos hcomplete]
        refine ⟨Nat.zero_le _, fun heq => absurd heq Nat.zero_ne_one, fun hclean => ?_⟩
        cases (hclean hcut).2 hcomplete
      · rw [if_neg hcomplete]
        exact ⟨Nat.le_refl _, fun _ _ => ⟨rfl, fun hc => absurd hc hcomplete⟩, fun _ => rfl⟩

/-- No more is read than was written, and all of it from a clean history. -/
theorem recovered_length (hprints : ∀ w ∈ ws, Prints serde w.spooled) (s : Status) :
    (recovered serde s ws).length ≤ s.pending.length + (completes serde ws).length ∧
      ((recovered serde s ws).length = s.pending.length + (completes serde ws).length ↔
        Clean serde s ws) := by
  induction ws generalizing s with
  | nil =>
    rw [recovered]
    exact ⟨Nat.le_add_right _ _, fun _ => trivial, fun _ => rfl⟩
  | cons w ws ih =>
    obtain ⟨hle, hiff⟩ := ih (fun w hmem => hprints w (.tail _ hmem)) (s.next serde w)
    obtain ⟨hstep, hclean⟩ := @next_count serde w (hprints w List.mem_cons_self) s
    rw [completes_cons, recovered, Clean, ← hiff, ← hclean, List.length_append, List.length_append]
    refine ⟨by omega, fun heq => ⟨by omega, by omega⟩, fun ⟨hfirst, hrest⟩ => by omega⟩

/-- What is read was written, in order. -/
theorem recovered_sublist (hprints : ∀ w ∈ ws, Prints serde w.spooled) (s : Status) :
    (recovered serde s ws).Sublist (s.pending ++ completes serde ws) := by
  induction ws generalizing s with
  | nil =>
    rw [recovered]
    exact List.sublist_append_left _ _
  | cons w ws ih =>
    have hw := hprints w List.mem_cons_self
    have hrest := ih (fun w hmem => hprints w (.tail _ hmem)) (s.next serde w)
    have hput : (s.put serde w).pending.Sublist
        (s.pending ++ if w.Complete serde then [w.spooled] else []) := by
      cases s with
      | blank =>
        rw [Status.put]
        split
        · exact List.Sublist.refl _
        · exact List.nil_sublist _
      | whole item => exact List.nil_sublist _
      | broken => exact List.nil_sublist _
    rw [completes_cons, recovered, ← List.append_assoc]
    rw [Status.next] at hrest ⊢
    by_cases hcut : w.cut = 0
    · rw [if_pos hcut] at hrest ⊢
      rw [if_neg (not_ended hcut)]
      exact hrest.trans ((List.sublist_append_left _ _).append (List.Sublist.refl _))
    · rw [if_neg hcut] at hrest ⊢
      by_cases hended : w.Ended serde
      · rw [if_pos hended] at hrest ⊢
        rw [if_pos hended]
        exact hput.append hrest
      · rw [if_neg hended] at hrest ⊢
        rw [if_neg hended]
        exact hrest.trans (hput.append (List.Sublist.refl _))

/-- Everything that was written is read from a clean history. -/
theorem completes_subperm_iff (hprints : ∀ w ∈ ws, Prints serde w.spooled) :
    (completes serde ws).Subperm (recovered serde .blank ws) ↔ Clean serde .blank ws := by
  obtain ⟨hle, hiff⟩ := recovered_length hprints .blank
  have hblank : Status.blank.pending.length = 0 := rfl
  rw [hblank, Nat.zero_add] at hle hiff
  constructor
  · intro h
    exact hiff.mp (Nat.le_antisymm hle h.length_le)
  · intro h
    have heq := (recovered_sublist hprints .blank).eq_of_length (by
      rw [hiff.mpr h]
      rfl)
    rw [heq]
    exact List.Subperm.refl _

/-! ## Clean histories -/

theorem next_eq_blank (s : Status) :
    s.next serde w = .blank ↔ (s = .blank ∧ w.cut = 0) ∨ w.Ended serde := by
  have hput : s.put serde w ≠ .blank := by
    intro h
    cases s with
    | blank =>
      rw [Status.put] at h
      split at h
      · cases h
      · cases h
    | whole item => cases h
    | broken => cases h
  rw [Status.next]
  split
  · next hcut => exact ⟨fun h => .inl ⟨h, hcut⟩, fun h => h.elim And.left fun hended =>
      absurd hended (not_ended hcut)⟩
  · next hcut =>
    split
    · next hended => exact ⟨fun _ => .inr hended, fun _ => rfl⟩
    · next hopen => exact ⟨fun h => absurd h hput, fun h => h.elim (fun h => absurd h.2 hcut) fun h =>
        absurd h hopen⟩

theorem written_getLast (h : Prints serde w.spooled) :
    (w.written serde).getLast? = some 0x0A ↔ w.Ended serde := by
  constructor
  · intro hlast
    by_contra hopen
    exact written_line hopen h (List.mem_of_getLast? hlast)
  · intro hended
    rw [written_ended hended, List.getLast?_append]
    rfl

/-- The next append finds a blank line where the file is empty, or ends with a line feed. -/
theorem run_eq_blank (hprints : ∀ w ∈ ws, Prints serde w.spooled) (s : Status) :
    ws.foldl (Status.next serde) s = .blank ↔
      (s = .blank ∧ spoolFile serde ws = []) ∨ (spoolFile serde ws).getLast? = some 0x0A := by
  induction ws generalizing s with
  | nil => exact ⟨fun h => .inl ⟨h, rfl⟩, fun h => h.elim And.left fun h => by cases h⟩
  | cons w ws ih =>
    have hfile : spoolFile serde (w :: ws) = w.written serde ++ spoolFile serde ws := rfl
    rw [List.foldl_cons, ih (fun w hmem => hprints w (.tail _ hmem)), next_eq_blank, hfile,
      List.append_eq_nil_iff, List.getLast?_append, written_eq_nil,
      ← written_getLast (hprints w List.mem_cons_self)]
    cases hlast : (spoolFile serde ws).getLast? with
    | none =>
      rw [List.getLast?_eq_none_iff.mp hlast]
      simp
    | some b =>
      have hne : spoolFile serde ws ≠ [] := by
        intro hnil
        rw [hnil] at hlast
        cases hlast
      simp [hne]

/-- A history is clean where each complete write is alone on its line. -/
theorem clean_iff (hprints : ∀ w ∈ ws, Prints serde w.spooled) (s : Status) :
    Clean serde s ws ↔ (s.pending ≠ [] → spoolFile serde ws = []) ∧
      ∀ before w after, ws = before ++ w :: after → w.Complete serde →
        before.foldl (Status.next serde) s = .blank ∧
          (w.Ended serde ∨ spoolFile serde after = []) := by
  induction ws generalizing s with
  | nil =>
    refine ⟨fun _ => ⟨fun _ => rfl, fun before w after h => ?_⟩, fun _ => trivial⟩
    exact absurd h.symm (List.append_ne_nil_of_right_ne_nil _ (List.cons_ne_nil _ _))
  | cons w ws ih =>
    have hw := hprints w List.mem_cons_self
    have hfile : spoolFile serde (w :: ws) = w.written serde ++ spoolFile serde ws := rfl
    rw [Clean, ih (fun w hmem => hprints w (.tail _ hmem)), hfile, List.append_eq_nil_iff,
      written_eq_nil]
    have hnext : (s.next serde w).pending ≠ [] ↔
        (w.cut = 0 ∧ s.pending ≠ []) ∨ (¬ w.Ended serde ∧ w.Complete serde ∧ s = .blank) := by
      rw [Status.next]
      split
      · next hcut =>
        exact ⟨fun h => .inl ⟨hcut, h⟩, fun h => h.elim And.right fun h =>
          absurd hcut (complete_cut hw h.2.1)⟩
      · next hcut =>
        split
        · next hended =>
          exact ⟨fun h => absurd rfl h, fun h => h.elim (fun h => absurd h.1 hcut) fun h =>
            absurd hended h.1⟩
        · next hopen =>
          cases s with
          | blank =>
            rw [Status.put]
            split
            · next hcomplete =>
              exact ⟨fun _ => .inr ⟨hopen, hcomplete, rfl⟩, fun _ => List.cons_ne_nil _ _⟩
            · next htorn =>
              exact ⟨fun h => absurd rfl h, fun h => h.elim (fun h => absurd h.1 hcut) fun h =>
                absurd h.2.1 htorn⟩
          | whole item =>
            exact ⟨fun h => absurd rfl h, fun h => h.elim (fun h => absurd h.1 hcut) fun h => by
              cases h.2.2⟩
          | broken =>
            exact ⟨fun h => absurd rfl h, fun h => h.elim (fun h => absurd h.1 hcut) fun h => by
              cases h.2.2⟩
    constructor
    · rintro ⟨hfirst, hpending, hrest⟩
      refine ⟨fun hne => ?_, fun before later after hsplit hcomplete => ?_⟩
      · have hcut : w.cut = 0 := by
          by_contra hcut
          exact hne (hfirst hcut).1
        exact ⟨hcut, hpending (hnext.mpr (.inl ⟨hcut, hne⟩))⟩
      · rcases List.cons_eq_append_iff.mp hsplit with ⟨rfl, heq⟩ | ⟨before, rfl, heq⟩
        · obtain ⟨rfl, rfl⟩ := List.cons.inj heq
          have hblank := (hfirst (complete_cut hw hcomplete)).2 hcomplete
          refine ⟨hblank, ?_⟩
          by_cases hended : later.Ended serde
          · exact .inl hended
          · exact .inr (hpending (hnext.mpr (.inr ⟨hended, hcomplete, hblank⟩)))
        · exact hrest before later after heq hcomplete
    · rintro ⟨hpending, hrest⟩
      refine ⟨fun hcut => ⟨?_, fun hcomplete => (hrest [] w ws rfl hcomplete).1⟩, fun hne => ?_, ?_⟩
      · by_contra hne
        exact hcut (hpending hne).1
      · rcases hnext.mp hne with ⟨-, hne⟩ | ⟨hopen, hcomplete, -⟩
        · exact (hpending hne).2
        · exact (hrest [] w ws rfl hcomplete).2.resolve_left hopen
      · exact fun before later after heq hcomplete =>
          hrest (w :: before) later after (congrArg (w :: ·) heq) hcomplete

theorem clean_iff_alone (hprints : ∀ w ∈ ws, Prints serde w.spooled) :
    Clean serde .blank ws ↔ Alone serde ws := by
  rw [clean_iff hprints]
  have hblank : ∀ {before w after}, ws = before ++ w :: after →
      (before.foldl (Status.next serde) .blank = .blank ↔
        spoolFile serde before = [] ∨ (spoolFile serde before).getLast? = some 0x0A) := by
    intro before w after hsplit
    rw [run_eq_blank fun w hmem => hprints w (hsplit ▸ List.mem_append_left _ hmem)]
    simp
  constructor
  · rintro ⟨-, h⟩ before w after hsplit hcomplete
    obtain ⟨hfound, hended⟩ := h before w after hsplit hcomplete
    exact ⟨(hblank hsplit).mp hfound, hended⟩
  · intro h
    refine ⟨fun hne => absurd rfl hne, fun before w after hsplit hcomplete => ?_⟩
    obtain ⟨hfound, hended⟩ := h before w after hsplit hcomplete
    exact ⟨(hblank hsplit).mpr hfound, hended⟩

end

/-- Of every history of appends, whatever was cut: `drain` succeeds and returns every report whose
line was written completely, if and only if no append was cut inside a character, and each complete
line begins on a line of its own and is ended by its line feed unless nothing follows. -/
theorem drain_recovers_iff (serde : Serde) (haccepts : Accepts serde) (ws : List Write)
    (hprints : ∀ w ∈ ws, Prints serde w.spooled) :
    Recovers serde ws ↔
      (∀ w ∈ ws, (fromUtf8 (w.written serde)).isSome) ∧ Alone serde ws := by
  have hdrain : ∀ items, (drain serde (some (spoolFile serde ws))).1 = some items ↔
      readLines serde (byteLines (utf8 [] ++ spoolFile serde ws)) = some items := by
    intro items
    rw [drain, utf8_nil, List.nil_append]
    cases readLines serde (byteLines (spoolFile serde ws)) with
    | none =>
      constructor
      · intro h
        cases h
      · intro h
        cases h
    | some other => rfl
  have hread : (∀ w ∈ ws, (fromUtf8 (w.written serde)).isSome) →
      readLines serde (byteLines (utf8 [] ++ spoolFile serde ws)) =
        some (recovered serde .blank ws) :=
    fun hutf8 => readLines_recovered haccepts hprints hutf8 rfl List.not_mem_nil
  rw [← clean_iff_alone hprints, ← completes_subperm_iff hprints]
  constructor
  · rintro ⟨items, hitems, hreturned⟩
    have hlines := (hdrain items).mp hitems
    have hutf8 := (@utf8_of_readLines serde ws (utf8 []) items List.not_mem_nil hprints hlines).2
    rw [hread hutf8] at hlines
    rw [Option.some.inj hlines]
    exact ⟨hutf8, hreturned⟩
  · rintro ⟨hutf8, hreturned⟩
    exact ⟨_, (hdrain _).mpr (hread hutf8), hreturned⟩

/-- A report without characters that are escaped. -/
def sample (spec : String) : PendingReport := ⟨⟨"n1", "r1", spec, "ok", "", 0⟩, 1⟩

def field (name : String) (value : List Char) : List Char :=
  '"' :: name.toList ++ '"' :: ':' :: value

def quoted (text : String) : List Char := '"' :: text.toList ++ ['"']

def sampleLine (spec : String) : List Char :=
  '{' :: [','].intercalate [field "node_id" (quoted "n1"), field "run_id" (quoted "r1"),
    field "spec_id" (quoted spec), field "status" (quoted "ok"), field "payload_json" (quoted ""),
    field "observed_at_unix_ms" ['0'], field "attempts" ['1']] ++ ['}']

/-- The lines of two reports. -/
def sampleSerde : Serde where
  print item := sampleLine item.report.specId
  parse text :=
    if text = sampleLine "cpu" then some (sample "cpu")
    else if text = sampleLine "mem" then some (sample "mem")
    else none

theorem visible_of_all {text : List Char} (h : text.all (fun c => decide (0x20 ≤ c.toNat)) = true) :
    ∀ c ∈ text, 0x20 ≤ c.toNat :=
  fun c hc => of_decide_eq_true (List.all_eq_true.mp h c hc)

theorem sample_prints {spec : String} (h : spec = "cpu" ∨ spec = "mem") :
    Prints sampleSerde (sample spec) := by
  rcases h with rfl | rfl
  · exact ⟨⟨_, rfl⟩, by decide +kernel, visible_of_all (by decide +kernel), by decide +kernel⟩
  · exact ⟨⟨_, rfl⟩, by decide +kernel, visible_of_all (by decide +kernel), by decide +kernel⟩

theorem sample_accepts : Accepts sampleSerde := by
  intro text item h _
  rw [sampleSerde] at h
  dsimp only at h
  split at h
  · next htext =>
    rw [htext]
    show scan .start _ = .closed
    decide +kernel
  · split at h
    · next htext =>
      rw [htext]
      show scan .start _ = .closed
      decide +kernel
    · cases h

/-- A torn line that a complete line follows. -/
def tornFirst : List Write := [⟨sample "cpu", 20⟩, ⟨sample "mem", 1000⟩]

/-- A complete line that a torn line follows. -/
def tornLast : List Write := [⟨sample "cpu", 1000⟩, ⟨sample "mem", 20⟩]

theorem sample_writes {ws : List Write} (h : ws = tornFirst ∨ ws = tornLast) :
    ∀ w ∈ ws, Prints sampleSerde w.spooled := by
  intro w hw
  rcases h with rfl | rfl
  · rcases List.mem_cons.mp hw with rfl | hw
    · exact sample_prints (.inl rfl)
    · rw [List.mem_singleton.mp hw]
      exact sample_prints (.inr rfl)
  · rcases List.mem_cons.mp hw with rfl | hw
    · exact sample_prints (.inl rfl)
    · rw [List.mem_singleton.mp hw]
      exact sample_prints (.inr rfl)

theorem drain_recovers_iff_torn : Accepts sampleSerde ∧
    (∀ w ∈ tornLast, Prints sampleSerde w.spooled) ∧
    (Recovers sampleSerde tornLast ↔
      (∀ w ∈ tornLast, (fromUtf8 (w.written sampleSerde)).isSome) ∧ Alone sampleSerde tornLast) :=
  ⟨sample_accepts, sample_writes (.inr rfl),
    drain_recovers_iff sampleSerde sample_accepts tornLast (sample_writes (.inr rfl))⟩

/-- A complete line behind a torn one is skipped with it, and the file is cleared. -/
theorem line_behind_torn_lost : ¬ ∀ serde ws, Accepts serde →
    (∀ w ∈ ws, Prints serde w.spooled) → Recovers serde ws := by
  intro h
  obtain ⟨items, hitems, hreturned⟩ := h sampleSerde tornFirst sample_accepts (sample_writes (.inl rfl))
  have hdrain : (drain sampleSerde (some (spoolFile sampleSerde tornFirst))).1 = some [] := by
    decide +kernel
  have hcomplete : (completes sampleSerde tornFirst).length = 1 := by decide +kernel
  rw [hdrain] at hitems
  cases hitems
  have hle := hreturned.length_le
  rw [hcomplete] at hle
  exact absurd hle (by decide)

end Novbot.Spool.Torn
