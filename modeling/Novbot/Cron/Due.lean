import Novbot.Cron.Matches
import Mathlib.Data.List.Nodup
import Mathlib.Data.List.TakeWhile

/-!
# Due schedules

`due_specs` of `schedule.rs` in `novbot-core`, and the selection of `run_due` on the node, which
remembers when each spec was run last.  `runDue_schedules` says when the schedules of a
configuration fire in a sequence of ticks.
-/

namespace Novbot.Cron

open Text Config

/-! ## The code -/

/-- When specs were run last, in seconds. -/
abbrev LastRun := SortedMap String Nat

def intervalDue (s : Schedule) (last now : Nat) : Bool :=
  s.intervalSecs.any fun interval => max interval 1 ≤ now - last

/-- At most once in a minute that matches. -/
def cronDue (s : Schedule) (last : Nat) (now : UInt64) : Bool :=
  s.cron.any fun expr => cronMatches expr now && (last / 60 < now.toNat / 60 || last = 0)

def scheduleDue (s : Schedule) (lastRun : LastRun) (now : UInt64) : Bool :=
  let last := (lastRun.lookup s.specId).getD 0
  if s.intervalSecs.isNone && (s.cron.map fun cron => (trim cron.toList).isEmpty).getD true then false
  else intervalDue s last now.toNat || cronDue s last now

def dueSpecs (schedules : List Schedule) (lastRun : LastRun) (now : UInt64) : List String :=
  (schedules.filter fun s => s.enabled && scheduleDue s lastRun now).map (·.specId)

/-- A due spec is selected if it is configured. -/
def selectSpec (specs : SortedMap String Spec) (now : Nat) (selected : List Spec × LastRun)
    (id : String) : List Spec × LastRun :=
  match specs.lookup id with
  | some spec => (selected.1 ++ [spec], selected.2.insert id now)
  | none => selected

/-- The selection of a tick of `run_due`. -/
def runDue (state : RuntimeState) (lastRun : LastRun) (now : UInt64) : List Spec × LastRun :=
  (dueSpecs state.schedules lastRun now).foldl (selectSpec state.specs now.toNat) ([], lastRun)

/-! ## Ticks -/

section
variable (state : RuntimeState) (ticks : Nat → UInt64)

/-- What is remembered before a tick, from a start of the node. -/
def lastRunAt : Nat → LastRun
  | 0 => .empty
  | i + 1 => (runDue state (lastRunAt i) (ticks i)).2

/-- The specs that a tick runs. -/
def firedAt (i : Nat) : List String :=
  (runDue state (lastRunAt state ticks i) (ticks i)).1.map (·.id)

def Fires (id : String) (i : Nat) : Prop := id ∈ firedAt state ticks i

end

/-- Schedules with distinct and configured specs, and one timing each. -/
structure Configured (state : RuntimeState) : Prop where
  keyed : ∀ id spec, state.specs.lookup id = some spec → spec.id = id
  distinct : (state.schedules.map (·.specId)).Nodup
  configured : ∀ s ∈ state.schedules, ∃ spec, state.specs.lookup s.specId = some spec
  timing : ∀ s ∈ state.schedules, s.intervalSecs.isSome = !s.cron.isSome

/-! ## One tick -/

section
variable {specs : SortedMap String Spec} {now : Nat}

theorem foldl_selectSpec (hkeyed : ∀ id spec, specs.lookup id = some spec → spec.id = id)
    {ids : List String} (hids : ∀ id ∈ ids, ∃ spec, specs.lookup id = some spec)
    (selected : List Spec × LastRun) :
    (ids.foldl (selectSpec specs now) selected).1.map (·.id) = selected.1.map (·.id) ++ ids ∧
      ∀ id, (ids.foldl (selectSpec specs now) selected).2.lookup id =
        if id ∈ ids then some now else selected.2.lookup id := by
  induction ids generalizing selected with
  | nil => exact ⟨(List.append_nil _).symm, fun id => (if_neg List.not_mem_nil).symm⟩
  | cons first ids ih =>
    obtain ⟨spec, hspec⟩ := hids first List.mem_cons_self
    have hstep : selectSpec specs now selected first =
        (selected.1 ++ [spec], selected.2.insert first now) := by
      rw [selectSpec, hspec]
    obtain ⟨hselected, hlast⟩ := ih (fun id hid => hids id (.tail _ hid))
      (selected.1 ++ [spec], selected.2.insert first now)
    rw [List.foldl_cons, hstep]
    constructor
    · rw [hselected, List.map_append, List.map_singleton, hkeyed first spec hspec,
        List.append_assoc, List.singleton_append]
    · intro id
      rw [hlast, SortedMap.lookup_insert]
      by_cases hfirst : id = first
      · subst hfirst
        simp
      · simp [hfirst]

end

section
variable {state : RuntimeState} {ticks : Nat → UInt64}

theorem mem_dueSpecs (h : Configured state) {s : Schedule} (hs : s ∈ state.schedules)
    {lastRun : LastRun} {now : UInt64} :
    s.specId ∈ dueSpecs state.schedules lastRun now ↔
      s.enabled = true ∧ scheduleDue s lastRun now = true := by
  rw [dueSpecs, List.mem_map, ← Bool.and_eq_true]
  constructor
  · rintro ⟨other, hother, hid⟩
    obtain ⟨hmem, hdue⟩ := List.mem_filter.mp hother
    rwa [List.inj_on_of_nodup_map h.distinct hmem hs hid] at hdue
  · exact fun hdue => ⟨s, List.mem_filter.mpr ⟨hs, hdue⟩, rfl⟩

theorem runDue_spec (h : Configured state) (lastRun : LastRun) (now : UInt64) :
    (runDue state lastRun now).1.map (·.id) = dueSpecs state.schedules lastRun now ∧
      ∀ id, (runDue state lastRun now).2.lookup id =
        if id ∈ dueSpecs state.schedules lastRun now then some now.toNat else lastRun.lookup id := by
  refine foldl_selectSpec h.keyed (fun id hid => ?_) ([], lastRun)
  obtain ⟨s, hs, rfl⟩ := List.mem_map.mp hid
  exact h.configured s (List.mem_of_mem_filter hs)

theorem fires_iff (h : Configured state) {s : Schedule} (hs : s ∈ state.schedules) (i : Nat) :
    Fires state ticks s.specId i ↔
      s.enabled = true ∧ scheduleDue s (lastRunAt state ticks i) (ticks i) = true := by
  rw [Fires, firedAt, (runDue_spec h _ _).1, mem_dueSpecs h hs]

/-- A tick runs a spec once. -/
theorem nodup_firedAt (h : Configured state) (i : Nat) : (firedAt state ticks i).Nodup := by
  rw [firedAt, (runDue_spec h _ _).1, dueSpecs]
  exact h.distinct.sublist (List.filter_sublist.map _)

theorem lookup_lastRunAt (h : Configured state) (id : String) (i : Nat) :
    (lastRunAt state ticks (i + 1)).lookup id =
      open Classical in
      if Fires state ticks id i then some (ticks i).toNat
      else (lastRunAt state ticks i).lookup id := by
  rw [lastRunAt, (runDue_spec h _ _).2, Fires, firedAt, (runDue_spec h _ _).1]
  split <;> rfl

/-! ## The last firing -/

/-- The firing before a tick is the one that is remembered. -/
theorem last_firing (h : Configured state) (id : String) (j : Nat) :
    ((lastRunAt state ticks j).lookup id = none ∧ ∀ k < j, ¬ Fires state ticks id k) ∨
      ∃ i < j, Fires state ticks id i ∧ (∀ k, i < k → k < j → ¬ Fires state ticks id k) ∧
        (lastRunAt state ticks j).lookup id = some (ticks i).toNat := by
  induction j with
  | zero => exact .inl ⟨rfl, fun k hk => absurd hk (Nat.not_lt_zero k)⟩
  | succ j ih =>
    by_cases hfires : Fires state ticks id j
    · refine .inr ⟨j, Nat.lt_succ_self j, hfires, fun k hlow hhigh => by omega, ?_⟩
      rw [lookup_lastRunAt h, if_pos hfires]
    · rw [lookup_lastRunAt h, if_neg hfires]
      rcases ih with ⟨hnone, hnever⟩ | ⟨i, hi, hfired, hsince, hlast⟩
      · refine .inl ⟨hnone, fun k hk => ?_⟩
        rcases Nat.lt_succ_iff_lt_or_eq.mp hk with hk | rfl
        · exact hnever k hk
        · exact hfires
      · refine .inr ⟨i, Nat.lt_succ_of_lt hi, hfired, fun k hlow hk => ?_, hlast⟩
        rcases Nat.lt_succ_iff_lt_or_eq.mp hk with hk | rfl
        · exact hsince k hlow hk
        · exact hfires

end

/-! ## Cron schedules -/

/-- The minutes are what is matched. -/
theorem cronMatches_minute {expr : String} {now other : UInt64}
    (h : now.toNat / 60 = other.toNat / 60) : cronMatches expr now = cronMatches expr other := by
  have hminute : now.toNat / 60 % 60 = other.toNat / 60 % 60 := by rw [h]
  have hhour : now.toNat / 3600 = other.toNat / 3600 := by omega
  have hday : now.toNat / 86400 = other.toNat / 86400 := by omega
  have hparts : calendarParts now = calendarParts other := by
    unfold calendarParts
    rw [hminute, hhour, hday]
  unfold cronMatches
  rw [utcParts_unchecked, utcParts_unchecked, hparts]

theorem not_blank_of_matches {expr : String} {now : UInt64} (h : cronMatches expr now = true) :
    (trim expr.toList).isEmpty = false := by
  rw [List.isEmpty_eq_false_iff]
  intro hblank
  have hspace : ∀ c ∈ expr.toList, isWhiteSpace c = true := by
    have hreverse : (expr.toList.dropWhile isWhiteSpace).reverse.dropWhile isWhiteSpace = [] :=
      List.reverse_eq_nil_iff.mp hblank
    rw [List.dropWhile_eq_nil_iff] at hreverse
    cases hstart : expr.toList.dropWhile isWhiteSpace with
    | nil => exact List.dropWhile_eq_nil_iff.mp hstart
    | cons c rest =>
      have hvisible : isWhiteSpace c = false := stops_dropWhile expr.toList c (by rw [hstart]; rfl)
      have hc := hreverse c (List.mem_reverse.mpr (by rw [hstart]; exact List.mem_cons_self))
      rw [hvisible] at hc
      cases hc
  rw [cronMatches, words_blank hspace] at h
  cases h

section
variable {state : RuntimeState} {ticks : Nat → UInt64} {s : Schedule}

theorem scheduleDue_cron {expr : String} (hcron : s.cron = some expr)
    (hinterval : s.intervalSecs = none) {lastRun : LastRun} {now : UInt64} :
    scheduleDue s lastRun now = true ↔ cronMatches expr now = true ∧
      (((lastRun.lookup s.specId).getD 0) / 60 < now.toNat / 60 ∨
        (lastRun.lookup s.specId).getD 0 = 0) := by
  unfold scheduleDue intervalDue cronDue
  simp only [hcron, hinterval, Option.isNone_none, Bool.true_and, Option.map_some, Option.getD_some,
    Option.any_none, Option.any_some, Bool.false_or]
  split
  · next hblank =>
    refine ⟨nofun, fun h => ?_⟩
    rw [not_blank_of_matches h.1] at hblank
    cases hblank
  · simp only [Bool.and_eq_true, Bool.or_eq_true, decide_eq_true_eq]

theorem scheduleDue_interval {interval : Nat} (hcron : s.cron = none)
    (hinterval : s.intervalSecs = some interval) {lastRun : LastRun} {now : UInt64} :
    scheduleDue s lastRun now = true ↔
      max interval 1 ≤ now.toNat - (lastRun.lookup s.specId).getD 0 := by
  unfold scheduleDue intervalDue cronDue
  rw [hcron, hinterval]
  simp

theorem exists_first {p : Nat → Prop} {k : Nat} (hk : p k) :
    ∃ first ≤ k, p first ∧ ∀ i < first, ¬ p i := by
  classical
  exact ⟨Nat.find ⟨k, hk⟩, Nat.find_min' _ hk, Nat.find_spec ⟨k, hk⟩, fun i hi => Nat.find_min _ hi⟩

section
variable (h : Configured state) (hs : s ∈ state.schedules) (henabled : s.enabled = true)

include h hs henabled

/-- The first tick of a minute that matches fires, and no other of that minute. -/
theorem fires_cron (hmono : ∀ i j, i ≤ j → (ticks i).toNat ≤ (ticks j).toNat)
    (hlate : ∀ i, 60 ≤ (ticks i).toNat) {expr : String} (hcron : s.cron = some expr)
    (hinterval : s.intervalSecs = none) (j : Nat) :
    Fires state ticks s.specId j ↔ cronMatches expr (ticks j) = true ∧
      ∀ k < j, (ticks k).toNat / 60 ≠ (ticks j).toNat / 60 := by
  induction j using Nat.strong_induction_on with
  | _ j ih =>
    rw [fires_iff h hs, and_iff_right henabled, scheduleDue_cron hcron hinterval]
    refine and_congr_right fun hmatch => ?_
    -- The first tick of the minute has fired, if it was before.
    have hfirst : ∀ k < j, (ticks k).toNat / 60 = (ticks j).toNat / 60 →
        ∃ first ≤ k, (ticks first).toNat / 60 = (ticks j).toNat / 60 ∧
          Fires state ticks s.specId first := by
      intro k hk hsame
      obtain ⟨first, hle, hminute, hleast⟩ := @exists_first
        (fun k => (ticks k).toNat / 60 = (ticks j).toNat / 60) k hsame
      refine ⟨first, hle, hminute, (ih first (Nat.lt_of_le_of_lt hle hk)).mpr ⟨?_, ?_⟩⟩
      · rw [cronMatches_minute hminute]
        exact hmatch
      · intro i hi
        rw [hminute]
        exact hleast i hi
    rcases @last_firing state ticks h s.specId j with
      ⟨hnone, hnever⟩ | ⟨i, hi, hfired, hsince, hlast⟩
    · rw [hnone]
      refine iff_of_true (.inr rfl) fun k hk hsame => ?_
      obtain ⟨first, hle, -, hfires⟩ := hfirst k hk hsame
      exact hnever first (Nat.lt_of_le_of_lt hle hk) hfires
    · rw [hlast, Option.getD_some]
      have horder := hmono i j (Nat.le_of_lt hi)
      have hfiredLate := hlate i
      constructor
      · intro hlater k hk hsame
        obtain ⟨first, hle, hminute, hfires⟩ := hfirst k hk hsame
        have hbefore : first ≤ i := Nat.le_of_not_lt fun hafter =>
          hsince first hafter (Nat.lt_of_le_of_lt hle hk) hfires
        have hfirstOrder := hmono first i hbefore
        omega
      · intro hdiffer
        have hother := hdiffer i hi
        omega

/-- An interval schedule fires when its interval has passed since it fired last, or since the
epoch. -/
theorem fires_interval {interval : Nat} (hcron : s.cron = none)
    (hinterval : s.intervalSecs = some interval) (j : Nat) :
    (∀ i < j, Fires state ticks s.specId i →
      (∀ k, i < k → k < j → ¬ Fires state ticks s.specId k) →
        (Fires state ticks s.specId j ↔ max interval 1 ≤ (ticks j).toNat - (ticks i).toNat)) ∧
    ((∀ k < j, ¬ Fires state ticks s.specId k) →
      (Fires state ticks s.specId j ↔ max interval 1 ≤ (ticks j).toNat)) := by
  rw [fires_iff h hs, and_iff_right henabled, scheduleDue_interval hcron hinterval]
  rcases @last_firing state ticks h s.specId j with
    ⟨hnone, hnever⟩ | ⟨i, hi, hfired, hsince, hlast⟩
  · rw [hnone]
    exact ⟨fun i hi hfires => absurd hfires (hnever i hi), fun _ => Iff.rfl⟩
  · rw [hlast]
    refine ⟨fun i' hi' hfires hquiet => ?_, fun hnever => absurd hfired (hnever i hi)⟩
    have hsame : i' = i := by
      rcases Nat.lt_trichotomy i' i with hless | hsame | hmore
      · exact absurd hfired (hquiet i hless hi)
      · exact hsame
      · exact absurd hfires (hsince i' hmore hi')
    rw [hsame]
    rfl

/-- An interval schedule does not fire twice within its interval. -/
theorem fires_apart (hmono : ∀ i j, i ≤ j → (ticks i).toNat ≤ (ticks j).toNat) {interval : Nat}
    (hcron : s.cron = none) (hinterval : s.intervalSecs = some interval) {i j : Nat} (hij : i < j)
    (hi : Fires state ticks s.specId i) (hj : Fires state ticks s.specId j) :
    max interval 1 ≤ (ticks j).toNat - (ticks i).toNat := by
  rcases @last_firing state ticks h s.specId j with
    ⟨-, hnever⟩ | ⟨last, hlast, hfired, hsince, -⟩
  · exact absurd hi (hnever i hij)
  · have hbefore : i ≤ last := Nat.le_of_not_lt fun hafter => hsince i hafter hij hi
    have horder := hmono i last hbefore
    have hgap := ((fires_interval h hs henabled hcron hinterval j).1 last hlast hfired hsince).mp hj
    omega

end

end

/-! ## Runs -/

/-- In every run of ticks from the second minute on: an enabled cron schedule fires only when its
expression matches, and in one tick of each minute that matches and has a tick.  An enabled interval
schedule does not fire twice within its interval, and fires at every tick at which the interval has
passed since it fired last, and at the first at which it has passed since the epoch.  A tick runs a
spec once. -/
theorem runDue_schedules {state : RuntimeState} {ticks : Nat → UInt64} (h : Configured state)
    (hmono : ∀ i j, i ≤ j → (ticks i).toNat ≤ (ticks j).toNat) (hlate : ∀ i, 60 ≤ (ticks i).toNat)
    {s : Schedule} (hs : s ∈ state.schedules) (henabled : s.enabled = true) :
    (∀ i, (firedAt state ticks i).Nodup) ∧
    (∀ expr, s.cron = some expr →
      (∀ i, Fires state ticks s.specId i → cronMatches expr (ticks i) = true) ∧
      ∀ i, cronMatches expr (ticks i) = true →
        ∃! j, (ticks j).toNat / 60 = (ticks i).toNat / 60 ∧ Fires state ticks s.specId j) ∧
    ∀ interval, s.intervalSecs = some interval →
      (∀ i j, i < j → Fires state ticks s.specId i → Fires state ticks s.specId j →
        max interval 1 ≤ (ticks j).toNat - (ticks i).toNat) ∧
      (∀ i j, i < j → Fires state ticks s.specId i →
        (∀ k, i < k → k < j → ¬ Fires state ticks s.specId k) →
        max interval 1 ≤ (ticks j).toNat - (ticks i).toNat → Fires state ticks s.specId j) ∧
      ∀ j, (∀ k < j, ¬ Fires state ticks s.specId k) →
        max interval 1 ≤ (ticks j).toNat → Fires state ticks s.specId j := by
  have htiming := h.timing s hs
  refine ⟨fun i => nodup_firedAt h i, fun expr hcron => ?_, fun interval hinterval => ?_⟩
  · have hinterval : s.intervalSecs = none := by
      rw [hcron] at htiming
      exact Option.isNone_iff_eq_none.mp (by simpa using htiming)
    have hfires := fires_cron h hs henabled hmono hlate hcron hinterval
    refine ⟨fun i hi => ((hfires i).mp hi).1, fun i hmatch => ?_⟩
    obtain ⟨first, -, hminute, hleast⟩ := @exists_first
      (fun k => (ticks k).toNat / 60 = (ticks i).toNat / 60) i rfl
    refine ⟨first, ⟨hminute, (hfires first).mpr ⟨?_, fun k hk => ?_⟩⟩, ?_⟩
    · rw [cronMatches_minute hminute]
      exact hmatch
    · rw [hminute]
      exact hleast k hk
    · rintro other ⟨hother, hfired⟩
      obtain ⟨-, hothers⟩ := (hfires other).mp hfired
      rcases Nat.lt_trichotomy other first with hless | hsame | hmore
      · exact absurd hother (hleast other hless)
      · exact hsame
      · exact absurd (hminute.trans hother.symm) (hothers first hmore)
  · have hcron : s.cron = none := by
      rw [hinterval] at htiming
      exact Option.isNone_iff_eq_none.mp (by simpa using htiming)
    have hfires := @fires_interval state ticks s h hs henabled interval hcron hinterval
    exact ⟨fun i j hij hi hj => fires_apart h hs henabled hmono hcron hinterval hij hi hj,
      fun i j hij hi hquiet hpassed => ((hfires j).1 i hij hi hquiet).mpr hpassed,
      fun j hnever hpassed => ((hfires j).2 hnever).mpr hpassed⟩

/-- The specs of a configuration are under their ids. -/
theorem keyed_applyConfig {generation : Int} {specs schedules : Json} {state : RuntimeState}
    (h : applyConfig generation specs schedules = .ok state) :
    ∀ id spec, state.specs.lookup id = some spec → spec.id = id := by
  simp only [applyConfig, Check.bind_eq_ok, Check.pure_eq_ok] at h
  obtain ⟨parsed, -, schedules, -, rfl⟩ := h
  intro id spec hspec
  obtain ⟨before, after, hbindings, -⟩ := SortedMap.lookup_ofList_eq_some_iff.mp hspec
  have hmem : (id, spec) ∈ parsed.map fun spec => (spec.id, spec) := by
    rw [hbindings]
    exact List.mem_append_right before List.mem_cons_self
  obtain ⟨source, -, hsource⟩ := List.mem_map.mp hmem
  cases hsource
  rfl

def loadSpec : Spec := ⟨"load", .cpu, .obj [], none⟩

def loadSchedule : Schedule := ⟨"load", none, some "*/5 * * * *", true⟩

/-- One spec, every five minutes. -/
def loadState : RuntimeState where
  specs := .ofList [("load", loadSpec)]
  schedules := [loadSchedule]
  configGeneration := 1
  configLoaded := true

/-- Two ticks in the fifth minute, and then one in the ninth again and again. -/
def loadTicks : Nat → UInt64
  | 0 => 300
  | 1 => 330
  | _ => 560

theorem configured_loadState : Configured loadState where
  keyed id spec hspec := by
    obtain ⟨before, after, hbindings, -⟩ := SortedMap.lookup_ofList_eq_some_iff.mp hspec
    cases before with
    | nil =>
      cases hbindings
      rfl
    | cons first before => simp at hbindings
  distinct := List.nodup_singleton _
  configured s hs := by
    rw [List.mem_singleton.mp hs]
    exact ⟨loadSpec, rfl⟩
  timing s hs := by
    rw [List.mem_singleton.mp hs]
    rfl

theorem monotone_loadTicks : ∀ i j, i ≤ j → (loadTicks i).toNat ≤ (loadTicks j).toNat := by
  intro i j hij
  obtain ⟨gap, rfl⟩ := Nat.exists_eq_add_of_le hij
  induction gap with
  | zero => exact Nat.le_refl _
  | succ gap ih =>
    have hstep : ∀ k, (loadTicks k).toNat ≤ (loadTicks (k + 1)).toNat
      | 0 => by decide
      | 1 => by decide
      | k + 2 => Nat.le_refl _
    exact Nat.le_trans (ih (Nat.le_add_right i gap)) (hstep (i + gap))

/-- The fifth minute has one firing. -/
theorem runDue_schedules_load : ∃! j, (loadTicks j).toNat / 60 = (loadTicks 1).toNat / 60 ∧
    Fires loadState loadTicks "load" j := by
  have hlate : ∀ i, 60 ≤ (loadTicks i).toNat := by
    intro i
    unfold loadTicks
    split <;> decide
  have hruns := runDue_schedules configured_loadState monotone_loadTicks hlate
    (List.mem_singleton_self loadSchedule) rfl
  exact (hruns.2.1 _ rfl).2 1 (by decide +kernel)

end Novbot.Cron
