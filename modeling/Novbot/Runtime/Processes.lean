import Mathlib.Data.List.Sort
import Novbot.Lib.Decimal
import Novbot.Lib.Lines
import Novbot.Lib.Lossy

/-!
# Processes

`processes_from_root` of `novbot-skill-runtime/src/observe.rs` with its parsers.  The name of a
process is whatever the process chose, between the first opening and the last closing parenthesis of
its line, and no field of the kernel has a parenthesis.  The arithmetic on `f64` (`percent`) and the
user database (`userName`) are parameters.
-/

namespace Novbot.Runtime.Processes

open Text

/-! ## The parsers -/

structure ProcStat where
  name : List Char
  state : List Char
  ppid : Nat
  utime : Nat
  stime : Nat
  starttime : Nat
  deriving DecidableEq

def find (c : Char) (cs : List Char) : Option Nat := cs.findIdx? (· == c)

def rfind (c : Char) (cs : List Char) : Option Nat :=
  (cs.reverse.findIdx? (· == c)).map (cs.length - 1 - ·)

def parseProcStat (text : List Char) : Option ProcStat := do
  let text := trim text
  let start ← find '(' text
  let close ← rfind ')' text
  if close ≤ start then none
  else
    let name := (text.take close).drop (start + 1)
    let rest := words (text.drop (close + 1))
    if rest.length ≤ 19 then none
    else
      return {
        name
        state := rest.getD 0 []
        ppid := ← parseUnsigned 64 (rest.getD 1 [])
        utime := ← parseUnsigned 64 (rest.getD 11 [])
        stime := ← parseUnsigned 64 (rest.getD 12 [])
        starttime := ← parseUnsigned 64 (rest.getD 19 []) }

def stripPrefix (start cs : List Char) : Option (List Char) :=
  if start.isPrefixOf cs then some (cs.drop start.length) else none

/-- A line of `parse_status`. -/
def statusLine (found : Option Nat × Option Nat) (line : List Char) : Option Nat × Option Nat :=
  match stripPrefix "Uid:".toList line with
  | some rest => ((words rest).head?.bind (parseUnsigned 32), found.2)
  | none =>
    match stripPrefix "VmRSS:".toList line with
    | some rest => (found.1, (words rest).head?.bind (parseUnsigned 64))
    | none => found

def parseStatus (text : List Char) : Option Nat × Option Nat := (lines text).foldl statusLine (none, none)

def parseBtime (text : List Char) : Option Nat :=
  ((lines text).findSome? (stripPrefix "btime ".toList)).bind fun rest => parseUnsigned 64 (trim rest)

/-! ## The list -/

/-- An entry of the root: its name and the two files below it, where they can be read. -/
structure Entry where
  fileName : List UInt8
  stat : Option (List UInt8)
  status : Option (List UInt8)

/-- The root, where an entry of the directory may fail to be read. -/
structure Root where
  stat : Except String (List Char)
  entries : Except String (List (Option Entry))

structure Process (Percent : Type) where
  pid : Nat
  ppid : Nat
  name : List Char
  uid : Option Nat
  user : Option (List Char)
  state : List Char
  cpuTicks : Nat
  cpuPercent : Percent
  memoryBytes : Nat
  startTimeUnixMs : Option Nat

def saturatingAdd (a b : Nat) : Nat := min (a + b) (2 ^ 64 - 1)

def saturatingMul (a b : Nat) : Nat := min (a * b) (2 ^ 64 - 1)

/-- The number that the name of an entry is. -/
def pidOf (fileName : List UInt8) : Option Nat := do
  let pidText ← fromUtf8 fileName
  if pidText.all isAsciiDigit then parseUnsigned 64 pidText else none

section
variable {Percent : Type}
-- what `cpu_percent` is of the ticks, their rate and the seconds elapsed, and where nothing elapsed
variable (percent : Nat → Nat → Nat → Percent) (zero : Percent) (userName : Nat → List Char)

/-- The row of a process, with the time of the boot. -/
def row (btime : Option Nat) (nowUnix clk pid : Nat) (parsed : ProcStat) (status : List Char) :
    Process Percent :=
  let cpuTicks := saturatingAdd parsed.utime parsed.stime
  let startUnix := btime.map fun boot => saturatingAdd boot (parsed.starttime / clk)
  { pid
    ppid := parsed.ppid
    name := parsed.name
    uid := (parseStatus status).1
    user := (parseStatus status).1.map userName
    state := parsed.state
    cpuTicks
    cpuPercent :=
      match startUnix with
      | some start => percent cpuTicks clk (max (nowUnix - start) 1)
      | none => zero
    memoryBytes := ((parseStatus status).2.map (saturatingMul · 1024)).getD 0
    startTimeUnixMs := startUnix.map (saturatingMul · 1000) }

def entryRow (btime : Option Nat) (nowUnix clk : Nat) (entry : Entry) : Option (Process Percent) := do
  let pid ← pidOf entry.fileName
  let body ← entry.stat
  let parsed ← parseProcStat (fromUtf8Lossy body)
  return row percent zero userName btime nowUnix clk pid parsed
    ((entry.status.map fromUtf8Lossy).getD [])

def processesFromRoot (root : Root) (nowUnix clkTck : Nat) : Except String (List (Process Percent)) := do
  let statText ← root.stat
  let entries ← root.entries
  let rows := entries.filterMap fun entry =>
    entry.bind (entryRow percent zero userName (parseBtime statText) nowUnix (max clkTck 1))
  return rows.mergeSort fun left right => left.pid ≤ right.pid

end

/-! ## The line of the kernel -/

/-- What the kernel writes of a process in its `stat`, except its name. -/
structure Stat where
  pid : Nat
  state : Char
  ppid : Nat
  pgrp : Int
  session : Int
  ttyNr : Int
  tpgid : Int
  flags : Int
  minflt : Int
  cminflt : Int
  majflt : Int
  cmajflt : Int
  utime : Nat
  stime : Nat
  cutime : Int
  cstime : Int
  priority : Int
  nice : Int
  numThreads : Int
  itrealvalue : Int
  starttime : Nat
  more : List Int
  state_word : isWhiteSpace state = false ∧ state ≠ ')'
  pid_lt : pid < 2 ^ 64
  ppid_lt : ppid < 2 ^ 64
  utime_lt : utime < 2 ^ 64
  stime_lt : stime < 2 ^ 64
  starttime_lt : starttime < 2 ^ 64

def Stat.numbers (stat : Stat) : List Int :=
  ([stat.ppid, stat.pgrp, stat.session, stat.ttyNr, stat.tpgid, stat.flags, stat.minflt, stat.cminflt,
    stat.majflt, stat.cmajflt, stat.utime, stat.stime, stat.cutime, stat.cstime, stat.priority,
    stat.nice, stat.numThreads, stat.itrealvalue, stat.starttime] : List Int) ++ stat.more

/-- In front of the name. -/
def Stat.front (stat : Stat) : List Char := Nat.toDigits 10 stat.pid ++ [' ', '(']

/-- Behind the closing parenthesis. -/
def Stat.back (stat : Stat) : List Char :=
  ' ' :: stat.state :: (stat.numbers.flatMap fun n => ' ' :: intDigits n)

def Stat.text (stat : Stat) (name : List Char) : List Char :=
  stat.front ++ (name ++ ')' :: (stat.back ++ ['\n']))

/-- The file, with the bytes of the name. -/
def Stat.file (stat : Stat) (comm : List UInt8) : List UInt8 :=
  utf8 stat.front ++ (comm ++ 0x29 :: utf8 (stat.back ++ ['\n']))

/-- What is to be read of it. -/
def Stat.parsed (stat : Stat) (name : List Char) : ProcStat :=
  ⟨name, [stat.state], stat.ppid, stat.utime, stat.stime, stat.starttime⟩

/-- The bytes of the name are read lossily, and the rest as it is. -/
theorem fromUtf8Lossy_file (stat : Stat) (comm : List UInt8) :
    fromUtf8Lossy (stat.file comm) = stat.text (fromUtf8Lossy comm) := by
  rw [Stat.file, fromUtf8Lossy_utf8_append, fromUtf8Lossy_append_ascii (by decide), fromUtf8Lossy_utf8]
  rfl

theorem words_space (cs : List Char) : words (' ' :: cs) = words cs := by
  have hspace : ∀ c ∈ [' '], isWhiteSpace c = true := by
    intro c hc
    rw [List.mem_singleton.mp hc]
    rfl
  exact words_blank_append hspace cs

/-- A word in front of nothing, or of white space. -/
theorem words_front {word rest : List Char} (hne : word ≠ [])
    (hword : ∀ c ∈ word, isWhiteSpace c = false)
    (hrest : ∀ c, rest.head? = some c → isWhiteSpace c = true) :
    words (word ++ rest) = word :: words rest := by
  cases rest with
  | nil => rw [List.append_nil, words_word hne hword, words_nil]
  | cons c rest =>
    have hspace : ∀ d ∈ [c], isWhiteSpace d = true := by
      intro d hd
      rw [List.mem_singleton.mp hd]
      exact hrest c rfl
    have hwords := words_word_append hne hword hspace (List.cons_ne_nil _ _) rest
    rw [List.singleton_append] at hwords
    rw [hwords]
    exact congrArg (word :: ·) (words_blank_append hspace rest).symm

theorem head_numbers (numbers : List Int) (c : Char)
    (h : (numbers.flatMap fun n => ' ' :: intDigits n).head? = some c) : isWhiteSpace c = true := by
  cases numbers with
  | nil => cases h
  | cons n numbers =>
    cases h
    rfl

theorem words_numbers (numbers : List Int) :
    words (numbers.flatMap fun n => ' ' :: intDigits n) = numbers.map intDigits := by
  induction numbers with
  | nil => rfl
  | cons n numbers ih =>
    obtain ⟨hne, hvisible⟩ := visible_intDigits n
    rw [List.flatMap_cons, List.cons_append, words_space,
      words_front hne (fun c hc => (hvisible c hc).1) (head_numbers numbers), ih, List.map_cons]

theorem words_back (stat : Stat) : words stat.back = [stat.state] :: stat.numbers.map intDigits := by
  have hstate : ∀ c ∈ [stat.state], isWhiteSpace c = false := by
    intro c hc
    rw [List.mem_singleton.mp hc]
    exact stat.state_word.1
  rw [Stat.back, words_space, ← words_numbers]
  exact words_front (List.cons_ne_nil _ _) hstate (head_numbers stat.numbers)

/-- Behind the name there is no parenthesis. -/
theorem close_not_mem_back (stat : Stat) : ')' ∉ stat.back := by
  intro h
  rw [Stat.back, List.mem_cons, List.mem_cons, List.mem_flatMap] at h
  rcases h with h | h | ⟨n, -, h⟩
  · cases h
  · exact stat.state_word.2 h.symm
  · rcases List.mem_cons.mp h with h | h
    · cases h
    · exact ((visible_intDigits n).2 _ h).2.2 rfl

theorem last_back (stat : Stat) {before : List Char} {c : Char}
    (h : (before ++ stat.back).getLast? = some c) : isWhiteSpace c = false := by
  obtain ⟨init, n, hnumbers⟩ : ∃ init n, stat.numbers = init ++ [n] := by
    refine ⟨stat.numbers.dropLast, stat.numbers.getLast (List.cons_ne_nil _ _), ?_⟩
    exact (List.dropLast_concat_getLast _).symm
  obtain ⟨hne, hvisible⟩ := visible_intDigits n
  have hback : before ++ stat.back =
      (before ++ ' ' :: stat.state :: (init.flatMap fun n => ' ' :: intDigits n) ++ [' ']) ++
        intDigits n := by
    rw [Stat.back, hnumbers, List.flatMap_append, List.flatMap_singleton]
    simp only [List.append_assoc, List.cons_append, List.nil_append]
  rw [hback, List.getLast?_append_of_ne_nil _ hne] at h
  exact (hvisible c (List.mem_of_getLast? h)).1

theorem find_append {c : Char} {before : List Char} (h : c ∉ before) (after : List Char) :
    find c (before ++ c :: after) = some before.length := by
  induction before with
  | nil => simp [find, List.findIdx?_cons]
  | cons d before ih =>
    rw [List.mem_cons, not_or] at h
    have hd : (d == c) = false := beq_false_of_ne (Ne.symm h.1)
    rw [find, List.cons_append, List.findIdx?_cons, hd, ← find, ih h.2]
    rfl

theorem rfind_append {c : Char} {after : List Char} (h : c ∉ after) (before : List Char) :
    rfind c (before ++ c :: after) = some before.length := by
  have hreverse : (before ++ c :: after).reverse = after.reverse ++ c :: before.reverse := by
    rw [List.reverse_append, List.reverse_cons, List.append_assoc, List.singleton_append]
  have hfind := find_append (List.mem_reverse.not.mpr h) before.reverse
  rw [rfind, hreverse, ← find, hfind, Option.map_some, List.length_append, List.length_cons,
    List.length_reverse]
  congr 1
  omega

theorem trim_text (stat : Stat) (name : List Char) :
    trim (stat.text name) = stat.front ++ (name ++ ')' :: stat.back) := by
  have htext : stat.text name = stat.front ++ (name ++ ')' :: stat.back) ++ ['\n'] := by
    simp only [Stat.text, List.append_assoc, List.cons_append]
  have hstart : trimStart (stat.front ++ (name ++ ')' :: stat.back)) =
      stat.front ++ (name ++ ')' :: stat.back) := by
    have hdigits := all_toDigits stat.pid
    rw [Stat.front]
    cases hpid : Nat.toDigits 10 stat.pid with
    | nil => exact absurd hpid Nat.toDigits_ne_nil
    | cons c cs =>
      rw [hpid, List.all_cons, Bool.and_eq_true] at hdigits
      rw [List.cons_append, List.cons_append, trimStart]
      exact (Stops.cons (visible_of_digit hdigits.1).1).dropWhile
  rw [htext, trim_append_white _ (by decide), trim, hstart]
  refine trimEndMatches_of_last fun c hlast => @last_back stat (stat.front ++ (name ++ [')'])) c ?_
  rw [← hlast]
  simp only [List.append_assoc, List.cons_append, List.nil_append]

/-- The line of a process is read as it was written, whatever the name is. -/
theorem parseProcStat_text (stat : Stat) (name : List Char) :
    parseProcStat (stat.text name) = some (stat.parsed name) := by
  have hopen : '(' ∉ Nat.toDigits 10 stat.pid ++ [' '] := by
    intro h
    rcases List.mem_append.mp h with h | h
    · exact (visible_of_digit (List.all_eq_true.mp (all_toDigits stat.pid) _ h)).2.1 rfl
    · cases List.mem_singleton.mp h
  have hfind : find '(' (stat.front ++ (name ++ ')' :: stat.back)) = some (stat.front.length - 1) := by
    have hfound := find_append hopen (name ++ ')' :: stat.back)
    rw [Stat.front, List.length_append]
    rw [List.append_assoc, List.singleton_append, List.length_append] at hfound
    rw [List.append_assoc]
    exact hfound
  have hrfind : rfind ')' (stat.front ++ (name ++ ')' :: stat.back)) =
      some (stat.front ++ name).length := by
    rw [← List.append_assoc]
    exact rfind_append (close_not_mem_back stat) _
  have hfront : 2 ≤ stat.front.length := by
    rw [Stat.front, List.length_append]
    exact Nat.le_add_left _ _
  have hname : ((stat.front ++ (name ++ ')' :: stat.back)).take (stat.front ++ name).length).drop
      (stat.front.length - 1 + 1) = name := by
    rw [← List.append_assoc, List.take_left, Nat.sub_add_cancel (by omega), List.drop_left]
  have hrest : (stat.front ++ (name ++ ')' :: stat.back)).drop ((stat.front ++ name).length + 1) =
      stat.back := by
    rw [← List.append_assoc, ← List.drop_drop, List.drop_left]
    rfl
  rw [parseProcStat, trim_text]
  dsimp only
  rw [hfind, hrfind]
  show (if (stat.front ++ name).length ≤ stat.front.length - 1 then none else _) = _
  rw [if_neg (by rw [List.length_append]; omega), hname, hrest, words_back]
  have hlong : ¬ ([stat.state] :: stat.numbers.map intDigits).length ≤ 19 := by
    rw [List.length_cons, List.length_map, Stat.numbers, List.length_append]
    simp only [List.length_cons, List.length_nil]
    omega
  rw [if_neg hlong]
  show ((parseUnsigned 64 (intDigits (stat.ppid : Int))).bind fun ppid =>
    (parseUnsigned 64 (intDigits (stat.utime : Int))).bind fun utime =>
      (parseUnsigned 64 (intDigits (stat.stime : Int))).bind fun stime =>
        (parseUnsigned 64 (intDigits (stat.starttime : Int))).bind fun starttime =>
          some (ProcStat.mk name [stat.state] ppid utime stime starttime)) = _
  simp only [intDigits_natCast, parseUnsigned_toDigits stat.ppid_lt, parseUnsigned_toDigits stat.utime_lt,
    parseUnsigned_toDigits stat.stime_lt, parseUnsigned_toDigits stat.starttime_lt, Option.bind_some]
  rfl

/-! ## The list of a running system -/

/-- A process as the root has it: its files may be gone or closed. -/
structure Shown where
  stat : Stat
  comm : List UInt8
  readable : Bool
  status : Option (List UInt8)

def Shown.entry (shown : Shown) : Entry where
  fileName := utf8 (Nat.toDigits 10 shown.stat.pid)
  stat := if shown.readable then some (shown.stat.file shown.comm) else none
  status := shown.status

/-- An entry of the root: a process, or anything whose name is not a number. -/
inductive Item where
  | process (shown : Shown)
  | other (entry : Entry) (unnamed : pidOf entry.fileName = none)
  | unread

def Item.entry : Item → Option Entry
  | .process shown => some shown.entry
  | .other entry _ => some entry
  | .unread => none

def Item.readable : Item → Option Shown
  | .process shown => if shown.readable then some shown else none
  | _ => none

def Item.shown : Item → Option Shown
  | .process shown => some shown
  | _ => none

/-- No two processes have a number. -/
structure System where
  items : List Item
  distinct : ((items.filterMap Item.shown).map (·.stat.pid)).Nodup

def System.readable (system : System) : List Shown := system.items.filterMap Item.readable

def System.root (system : System) (statText : List Char) : Root where
  stat := .ok statText
  entries := .ok (system.items.map Item.entry)

theorem pidOf_digits {n : Nat} (h : n < 2 ^ 64) : pidOf (utf8 (Nat.toDigits 10 n)) = some n := by
  rw [pidOf, fromUtf8_utf8]
  show (if _ then _ else _) = _
  rw [if_pos (all_toDigits n), parseUnsigned_toDigits h]

section
variable {Percent : Type}
variable (percent : Nat → Nat → Nat → Percent) (zero : Percent) (userName : Nat → List Char)

/-- The row that a process is to have. -/
def Shown.row (btime : Option Nat) (nowUnix clk : Nat) (shown : Shown) : Process Percent :=
  Processes.row percent zero userName btime nowUnix clk shown.stat.pid
    (shown.stat.parsed (fromUtf8Lossy shown.comm)) ((shown.status.map fromUtf8Lossy).getD [])

/-- No number of a row exceeds its width. -/
def Process.Fits (process : Process Percent) : Prop :=
  process.pid < 2 ^ 64 ∧ process.ppid < 2 ^ 64 ∧ process.cpuTicks < 2 ^ 64 ∧
    process.memoryBytes < 2 ^ 64 ∧ ∀ ms, process.startTimeUnixMs = some ms → ms < 2 ^ 64

theorem saturatingAdd_lt (a b : Nat) : saturatingAdd a b < 2 ^ 64 := by
  rw [saturatingAdd]
  omega

theorem saturatingMul_lt (a b : Nat) : saturatingMul a b < 2 ^ 64 := by
  rw [saturatingMul]
  generalize a * b = product
  omega

theorem Shown.row_fits (btime : Option Nat) (nowUnix clk : Nat) (shown : Shown) :
    (shown.row percent zero userName btime nowUnix clk).Fits := by
  refine ⟨shown.stat.pid_lt, shown.stat.ppid_lt, saturatingAdd_lt _ _, ?_, ?_⟩
  · show ((parseStatus _).2.map (saturatingMul · 1024)).getD 0 < 2 ^ 64
    cases (parseStatus _).2 with
    | none => decide
    | some kb => exact saturatingMul_lt kb 1024
  · intro ms hms
    obtain ⟨start, -, rfl⟩ := Option.map_eq_some_iff.mp hms
    exact saturatingMul_lt start 1000

theorem entryRow_item (btime : Option Nat) (nowUnix clk : Nat) (item : Item) :
    item.entry.bind (entryRow percent zero userName btime nowUnix clk) =
      item.readable.map (Shown.row percent zero userName btime nowUnix clk) := by
  cases item with
  | unread => rfl
  | other entry unnamed =>
    show entryRow percent zero userName btime nowUnix clk entry = none
    rw [entryRow, unnamed]
    rfl
  | process shown =>
    show entryRow percent zero userName btime nowUnix clk shown.entry = _
    rw [entryRow, Shown.entry, pidOf_digits shown.stat.pid_lt, Item.readable]
    cases shown.readable with
    | false => rfl
    | true =>
      show ((parseProcStat (fromUtf8Lossy (shown.stat.file shown.comm))).bind _) = _
      rw [fromUtf8Lossy_file, parseProcStat_text]
      rfl

theorem readable_sublist (items : List Item) :
    (items.filterMap Item.readable).Sublist (items.filterMap Item.shown) := by
  induction items with
  | nil => exact .slnil
  | cons item items ih =>
    cases item with
    | unread => exact ih
    | other entry unnamed => exact ih
    | process shown =>
      rw [List.filterMap_cons, List.filterMap_cons_some (show Item.shown (.process shown) = some shown from rfl)]
      split
      · exact ih.cons shown
      · next found hfound =>
        rw [Item.readable] at hfound
        split_ifs at hfound
        cases hfound
        exact ih.cons_cons shown

theorem rows_items (items : List Item) (btime : Option Nat) (nowUnix clk : Nat) :
    (items.map Item.entry).filterMap (fun entry =>
      entry.bind (entryRow percent zero userName btime nowUnix clk)) =
      (items.filterMap Item.readable).map (Shown.row percent zero userName btime nowUnix clk) := by
  rw [List.filterMap_map, List.map_filterMap]
  refine List.filterMap_congr fun item _ => ?_
  exact entryRow_item percent zero userName btime nowUnix clk item

/-- A line is read as it was written, whatever the name is.  The rows are those of the processes that
can be read, each once and in the order of the numbers, and every number of a row fits. -/
theorem processes_listed :
    (∀ (stat : Stat) (name : List Char), parseProcStat (stat.text name) = some (stat.parsed name)) ∧
    ∀ (system : System) (statText : List Char) (nowUnix clkTck : Nat), ∃ rows,
      processesFromRoot percent zero userName (system.root statText) nowUnix clkTck = .ok rows ∧
      rows.Perm (system.readable.map
        (Shown.row percent zero userName (parseBtime statText) nowUnix (max clkTck 1))) ∧
      (rows.Pairwise fun left right => left.pid < right.pid) ∧ ∀ process ∈ rows, process.Fits := by
  refine ⟨parseProcStat_text, fun system statText nowUnix clkTck => ?_⟩
  have hrows := rows_items percent zero userName system.items (parseBtime statText) nowUnix (max clkTck 1)
  have hperm := List.mergeSort_perm (system.readable.map
      (Shown.row percent zero userName (parseBtime statText) nowUnix (max clkTck 1)))
    fun left right => decide (left.pid ≤ right.pid)
  refine ⟨_, rfl, ?_, ?_, ?_⟩
  · rw [hrows]
    exact hperm
  · -- the numbers are different, so that the order of the sort is strict
    have hpids := system.distinct.sublist ((readable_sublist system.items).map fun shown => shown.stat.pid)
    rw [hrows]
    have hne := (hperm.map (·.pid)).nodup_iff.mpr (by rw [List.map_map]; exact hpids)
    rw [List.Nodup, List.pairwise_map] at hne
    have hsorted := @List.pairwise_mergeSort _
      (fun left right : Process Percent => decide (left.pid ≤ right.pid))
      (fun a b c hab hbc => by simpa using le_trans (of_decide_eq_true hab) (of_decide_eq_true hbc))
      (fun a b => by simpa using le_total a.pid b.pid) (system.readable.map
        (Shown.row percent zero userName (parseBtime statText) nowUnix (max clkTck 1)))
    refine (hsorted.and hne).imp fun hboth => ?_
    exact lt_of_le_of_ne (of_decide_eq_true hboth.1) hboth.2
  · intro process hprocess
    rw [hrows] at hprocess
    obtain ⟨shown, -, rfl⟩ := List.mem_map.mp (hperm.mem_iff.mp hprocess)
    exact shown.row_fits percent zero userName _ _ _

end

end Novbot.Runtime.Processes
