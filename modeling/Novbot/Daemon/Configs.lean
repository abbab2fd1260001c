import Novbot.Daemon.Process
import Novbot.Lib.JsonObject

/-!
# The configuration of a process

`PushConfig` prints the schedules of the process and reads them again.  What a process holds
after any sequence of messages is what the messages say that it took, where a push of specs
does not concern the schedules (`configuration_follows`).
-/

namespace Novbot.Daemon

open Config

/-! ## Intervals -/

/-- The intervals of schedules are of 64 bits. -/
def Bounded (schedules : List Schedule) : Prop :=
  ∀ s ∈ schedules, ∀ n ∈ s.intervalSecs, n < 2 ^ 64

theorem parseU64_lt {text : String} {n : Nat} (h : parseU64 text = some n) : n < 2 ^ 64 := by
  rw [parseU64] at h
  split at h
  all_goals
    split at h
    · cases h
    · exact of_decide_eq_true (Option.filter_eq_some_iff.mp h).2

theorem optionalU64_lt {value : Json} {interval : Option Nat} (h : optionalU64 value = .ok interval) :
    ∀ n ∈ interval, n < 2 ^ 64 := by
  intro n hn
  cases value with
  | null =>
    cases h
    cases hn
  | int v =>
    rw [optionalU64] at h
    split at h
    · cases h
    · split at h
      · cases h
        cases hn
        omega
      · cases h
  | str text =>
    rw [optionalU64] at h
    cases hparse : parseU64 text with
    | none =>
      rw [hparse] at h
      cases h
    | some m =>
      rw [hparse] at h
      cases h
      cases hn
      exact parseU64_lt hparse
  | _ => cases h

theorem interval_of_decode {value : Json} {s : Schedule} (h : Schedule.decode value = .ok s) :
    ∀ n ∈ s.intervalSecs, n < 2 ^ 64 := by
  unfold Schedule.decode at h
  obtain ⟨get, -, h⟩ := Check.bind_eq_ok.mp h
  obtain ⟨specId, -, h⟩ := Check.bind_eq_ok.mp h
  obtain ⟨interval, hinterval, h⟩ := Check.bind_eq_ok.mp h
  obtain ⟨cron, -, h⟩ := Check.bind_eq_ok.mp h
  obtain ⟨enabled, -, h⟩ := Check.bind_eq_ok.mp h
  cases h
  rw [Json.orDefault] at hinterval
  split at hinterval
  · exact optionalU64_lt hinterval
  · cases hinterval
    intro n hn
    cases hn

section

variable {json : Json.Codec}

theorem bounded_of_parse {raw : String} {schedules : List Schedule}
    (h : parseSchedulesJson json raw = .ok schedules) : Bounded schedules := by
  rw [parseSchedulesJson, parseList] at h
  split at h
  · cases h
    intro s hs
    cases hs
  · split at h
    · next value hvalue =>
      cases value with
      | arr items =>
        intro s hs
        obtain ⟨item, -, hitem⟩ := (Json.mem_mapM_iff h).mp hs
        exact interval_of_decode hitem
      | _ => cases h
    · cases h

/-! ## Printing and reading -/

theorem decode_encodeSchedule {s : Schedule} (h : ∀ n ∈ s.intervalSecs, n < 2 ^ 64) :
    Schedule.decode (encodeSchedule s) = .ok s := by
  obtain ⟨specId, interval, cron, enabled⟩ := s
  rw [encodeSchedule, Schedule.decode_obj_iff]
  refine ⟨rfl, ?_, ?_, rfl⟩
  · cases interval with
    | none => rfl
    | some n =>
      have hget : List.lookup "interval_secs" [("spec_id", Json.str specId),
          ("interval_secs", .int n), ("cron", cron.elim .null .str), ("enabled", .bool enabled)] =
          some (.int n) := rfl
      have hpos : ¬ (n : Int) < 0 := by omega
      have hlt : (n : Int) < 2 ^ 64 := by
        have hn := h n rfl
        omega
      have hread : optionalU64 (.int n) = .ok (some n) := by
        rw [optionalU64, if_neg hpos, if_pos hlt, Int.toNat_natCast]
      rw [Json.orDefault]
      simp only [Option.elim_some, hget]
      exact hread
  · cases cron with
    | none => rfl
    | some expr => rfl

theorem parseSchedules_encode {schedules : List Schedule} (h : Bounded schedules) :
    parseSchedules (encodeSchedules schedules) = .ok schedules := by
  show (schedules.map encodeSchedule).mapM Schedule.decode = .ok schedules
  induction schedules with
  | nil => rfl
  | cons s schedules ih =>
    have hfirst := decode_encodeSchedule (h s List.mem_cons_self)
    have hrest := ih fun other hother => h other (.tail s hother)
    rw [List.map_cons, List.mapM_cons, hfirst, hrest]
    rfl

/-- The printed schedules are read as the value that was printed, and are not blank. -/
def Reprints (json : Json.Codec) (schedules : List Schedule) : Prop :=
  json.parse (json.print (encodeSchedules schedules)) = some (encodeSchedules schedules) ∧
    (Text.trim (json.print (encodeSchedules schedules)).toList).isEmpty = false

theorem parseSchedulesJson_print {schedules : List Schedule} (hbounded : Bounded schedules)
    (h : Reprints json schedules) :
    parseSchedulesJson json (json.print (encodeSchedules schedules)) = .ok schedules := by
  rw [parseSchedulesJson, parseList, h.2, h.1]
  exact parseSchedules_encode hbounded

end

/-! ## What the messages say -/

/-- The configuration that a message leaves: its documents are taken together or not at all,
and what it has no document for stays. -/
def Message.leaves (json : Json.Codec) (runtime : RuntimeState) : Message → RuntimeState
  | .pullConfig generation specsJson schedulesJson =>
    match parseSpecsJson json specsJson, parseSchedulesJson json schedulesJson with
    | .ok specs, .ok schedules =>
      ⟨.ofList (specs.map fun spec => (spec.id, spec)), schedules, generation, true⟩
    | _, _ => runtime
  | .pushConfig generation specsJson =>
    match parseSpecsJson json specsJson with
    | .ok specs => { runtime with
        specs := .ofList (specs.map fun spec => (spec.id, spec))
        configGeneration := generation
        configLoaded := true }
    | .error _ => runtime
  | .pushSchedule generation schedulesJson =>
    match parseSchedulesJson json schedulesJson with
    | .ok schedules => { runtime with schedules, configGeneration := generation }
    | .error _ => runtime

section

variable {json : Json.Codec} {runtime : RuntimeState}

theorem applyConfigTexts_eq (generation : Int) (specsJson schedulesJson : String) :
    applyConfigTexts json generation specsJson schedulesJson =
      match parseSpecsJson json specsJson, parseSchedulesJson json schedulesJson with
      | .ok specs, .ok schedules =>
        .ok ⟨.ofList (specs.map fun spec => (spec.id, spec)), schedules, generation, true⟩
      | .ok _, .error err => .error err
      | .error err, _ => .error err := by
  rw [applyConfigTexts]
  cases parseSpecsJson json specsJson with
  | error err => rfl
  | ok specs =>
    cases parseSchedulesJson json schedulesJson with
    | error err => rfl
    | ok schedules => rfl

theorem configure_eq_leaves (hbounded : Bounded runtime.schedules)
    (h : Reprints json runtime.schedules) (message : Message) :
    configure json runtime message = message.leaves json runtime := by
  rw [configure]
  cases message with
  | pullConfig generation specsJson schedulesJson =>
    rw [onMessage, applyConfigTexts_eq, Message.leaves]
    cases parseSpecsJson json specsJson with
    | error err => rfl
    | ok specs =>
      cases parseSchedulesJson json schedulesJson with
      | error err => rfl
      | ok schedules => rfl
  | pushConfig generation specsJson =>
    rw [onMessage, applyConfigTexts_eq, Message.leaves, parseSchedulesJson_print hbounded h]
    cases parseSpecsJson json specsJson with
    | error err => rfl
    | ok specs => rfl
  | pushSchedule generation schedulesJson =>
    rw [onMessage, Message.leaves]
    cases parseSchedulesJson json schedulesJson with
    | error err => rfl
    | ok schedules => rfl

theorem bounded_leaves (h : Bounded runtime.schedules) (message : Message) :
    Bounded (message.leaves json runtime).schedules := by
  cases message with
  | pullConfig generation specsJson schedulesJson =>
    rw [Message.leaves]
    split
    · next hschedules => exact bounded_of_parse hschedules
    · exact h
  | pushConfig generation specsJson =>
    rw [Message.leaves]
    split
    · exact h
    · exact h
  | pushSchedule generation schedulesJson =>
    rw [Message.leaves]
    split
    · next hschedules => exact bounded_of_parse hschedules
    · exact h

theorem foldl_configure_eq {messages : List Message} (hbounded : Bounded runtime.schedules)
    (h : ∀ past, past <+: messages →
      Reprints json (past.foldl (Message.leaves json) runtime).schedules) :
    messages.foldl (configure json) runtime = messages.foldl (Message.leaves json) runtime := by
  induction messages generalizing runtime with
  | nil => rfl
  | cons message messages ih =>
    rw [List.foldl_cons, List.foldl_cons, configure_eq_leaves hbounded (h [] List.nil_prefix)]
    exact ih (bounded_leaves hbounded message) fun past hpast =>
      h (message :: past) (List.cons_prefix_cons.mpr ⟨rfl, hpast⟩)

/-- After any messages a process holds the configuration that they leave, if the printed
schedules are read as they were printed: a push of specs changes no schedule, and a message that
is refused changes nothing. -/
theorem configuration_follows {messages : List Message}
    (h : ∀ past, past <+: messages →
      Reprints json (past.foldl (Message.leaves json) Process.new.runtime).schedules) :
    messages.foldl (configure json) Process.new.runtime =
      messages.foldl (Message.leaves json) Process.new.runtime :=
  foldl_configure_eq (fun s hs => by cases hs) h

end

/-! ### A push of specs -/

def motdSchedule : Schedule := ⟨"motd", some 60, none, true⟩

def motdSchedules : String :=
  "[\x7b\"spec_id\":\"motd\",\"interval_secs\":60,\"cron\":null,\"enabled\":true\x7d]"

/-- JSON as far as the messages of `motdMessages` use it. -/
def scheduledJson : Json.Codec where
  parse text :=
    if text = "[]" then some (.arr [])
    else if text = motdSchedules then some (encodeSchedules [motdSchedule])
    else motdJson.parse text
  print value := .ofList value.compact

def motdMessages : List Message := [.pullConfig 1 "[]" motdSchedules, .pushConfig 2 motdSpecs]

/-- The pushed specs stand beside the schedule that was pulled. -/
theorem configuration_follows_motd :
    ((motdMessages.foldl (configure scheduledJson) Process.new.runtime).schedules = [motdSchedule] ∧
      (motdMessages.foldl (configure scheduledJson) Process.new.runtime).configGeneration = 2) ∧
    motdMessages.foldl (configure scheduledJson) Process.new.runtime =
      motdMessages.foldl (Message.leaves scheduledJson) Process.new.runtime := by
  have hprints : ∀ past, past <+: motdMessages → Reprints scheduledJson
      (past.foldl (Message.leaves scheduledJson) Process.new.runtime).schedules := by
    intro past hpast
    rcases List.prefix_cons_iff.mp hpast with rfl | ⟨more, rfl, hmore⟩
    · exact ⟨rfl, rfl⟩
    · rcases List.prefix_cons_iff.mp hmore with rfl | ⟨rest, rfl, hrest⟩
      · exact ⟨rfl, rfl⟩
      · cases List.prefix_nil.mp hrest
        exact ⟨rfl, rfl⟩
  exact ⟨⟨rfl, rfl⟩, configuration_follows hprints⟩

end Novbot.Daemon
