import Novbot.Skills.Reconcile

/-!
# The attempts of a skill

The limit on the time of an install counts from the start of the reconcile, so what
earlier skills take is taken from later ones.  A turn goes as with a clock of its own
exactly when its attempts are in time by the clock of the reconcile.
-/

namespace Novbot.Skills

open Novbot.Package Text

/-- The attempts that an outcome reports. -/
def Outcome.reported (outcome : Outcome) : Nat :=
  match outcome.result with
  | .ok (_, attempts) => attempts
  | .error (_, attempts) => attempts

section

variable (setup : Setup) (policy : SkillPolicy) (env : Nat → Attempt) (active : ActiveSkills)
  (skill : DesiredSkill)

/-- When an attempt starts, with all the pauses before it. -/
def startOf : Nat → Nat
  | 0 => 0
  | k + 1 => startOf k + (env k).took + backoff (k + 1) setup.limits + (env k).late

/-- So many attempts from one on fail in a way that is worth another. -/
def retried : Nat → Nat → Disk → Bool
  | 0, _, _ => true
  | n + 1, k, disk =>
    match tryInstall setup (env k) skill policy active disk with
    | (.error err, disk) => err.reason.retryable && retried n (k + 1) disk
    | (.ok _, _) => false

/-- Each attempt from one on that is due, and in time by a clock of its own, is in time
by one that started earlier. -/
def InTime (elapsed remaining k : Nat) (disk : Disk) : Prop :=
  ∀ n < remaining, retried setup policy env active skill n k disk = true →
    startOf setup env (k + n) ≤ setup.limits.maxElapsed →
      elapsed + startOf setup env (k + n) ≤ setup.limits.maxElapsed

end

section

variable {setup : Setup} {policy : SkillPolicy} {env : Nat → Attempt} {active : ActiveSkills}
  {skill : DesiredSkill}

/-! ## The number of attempts -/

theorem le_made {remaining k elapsed : Nat} {last : InstallError} {disk : Disk} :
    k ≤ (installLoop setup policy env active skill remaining k last disk elapsed).made := by
  induction remaining generalizing k elapsed last disk with
  | zero =>
    unfold installLoop
    split <;> exact Nat.le_refl _
  | succ remaining ih =>
    unfold installLoop
    split
    · exact Nat.le_refl _
    · dsimp only
      split
      · exact Nat.le_succ _
      · split
        · exact Nat.le_succ _
        · split
          · exact Nat.le_succ _
          · split
            · exact Nat.le_succ _
            · exact Nat.le_of_succ_le ih

/-- An attempt is made when there is time. -/
theorem lt_made {remaining k elapsed : Nat} {last : InstallError} {disk : Disk}
    (h : elapsed ≤ setup.limits.maxElapsed) :
    k < (installLoop setup policy env active skill (remaining + 1) k last disk elapsed).made := by
  unfold installLoop
  rw [if_neg (Nat.not_lt.mpr h)]
  dsimp only
  split
  · exact Nat.lt_succ_self _
  · split
    · exact Nat.lt_succ_self _
    · split
      · exact Nat.lt_succ_self _
      · split
        · exact Nat.lt_succ_self _
        · exact le_made

/-- The number of attempts is reported, unless there were none. -/
theorem reported_eq {remaining k elapsed : Nat} {last : InstallError} {disk : Disk}
    (h : 0 < (installLoop setup policy env active skill remaining k last disk elapsed).made) :
    (installLoop setup policy env active skill remaining k last disk elapsed).reported =
      (installLoop setup policy env active skill remaining k last disk elapsed).made := by
  induction remaining generalizing k elapsed last disk with
  | zero =>
    unfold installLoop at h ⊢
    split
    · next hlate =>
      rw [if_pos hlate] at h
      exact Nat.max_eq_left h
    · rfl
  | succ remaining ih =>
    unfold installLoop at h ⊢
    split
    · next hlate =>
      rw [if_pos hlate] at h
      exact Nat.max_eq_left h
    · next hlate =>
      rw [if_neg hlate] at h
      dsimp only at h ⊢
      split
      · rfl
      · next err disk' htried =>
        rw [htried] at h
        dsimp only at h
        split
        · rfl
        · next hretry =>
          rw [if_neg hretry] at h
          split
          · rfl
          · next hremaining =>
            rw [if_neg hremaining] at h
            split
            · rfl
            · next hdelay =>
              rw [if_neg hdelay] at h
              exact ih h

/-! ## Two clocks -/

theorem startOf_le (k n : Nat) : startOf setup env k ≤ startOf setup env (k + n) := by
  induction n with
  | zero => exact Nat.le_refl _
  | succ n ih =>
    rw [← Nat.add_assoc, startOf]
    omega

/-- Out of time, after an attempt. -/
theorem installLoop_late {remaining k elapsed : Nat} {last : InstallError} {disk : Disk}
    (h : setup.limits.maxElapsed < elapsed) :
    installLoop setup policy env active skill remaining (k + 1) last disk elapsed =
      ⟨.error (⟨.installTimeout, last.detail⟩, k + 1), k + 1, disk, elapsed⟩ := by
  have hmax : max (k + 1) 1 = k + 1 := Nat.max_eq_left (Nat.succ_pos _)
  unfold installLoop
  rw [if_pos h, hmax]

/-- In time, the attempt decides. -/
theorem installLoop_attempt {remaining k elapsed : Nat} {last : InstallError} {disk : Disk}
    (h : elapsed ≤ setup.limits.maxElapsed) :
    installLoop setup policy env active skill (remaining + 1) k last disk elapsed =
      match tryInstall setup (env k) skill policy active disk with
      | (.ok installed, disk) => ⟨.ok (installed, k + 1), k + 1, disk, elapsed + (env k).took⟩
      | (.error err, disk) =>
        if !err.reason.retryable then ⟨.error (err, k + 1), k + 1, disk, elapsed + (env k).took⟩
        else if remaining = 0 then ⟨.error (err, k + 1), k + 1, disk, elapsed + (env k).took⟩
        else if elapsed + (env k).took + backoff (k + 1) setup.limits > setup.limits.maxElapsed then
          ⟨.error (⟨.installTimeout, err.detail⟩, k + 1), k + 1, disk, elapsed + (env k).took⟩
        else
          installLoop setup policy env active skill remaining (k + 1) err disk
            (elapsed + (env k).took + backoff (k + 1) setup.limits + (env k).late) := by
  conv_lhs => rw [installLoop]
  exact if_neg (Nat.not_lt.mpr h)

/-- Outcomes that differ in the clock only. -/
def Outcome.Same (left right : Outcome) : Prop :=
  left.result = right.result ∧ left.made = right.made ∧ left.disk = right.disk

/-- What is due after an attempt that is worth another. -/
theorem inTime_succ {elapsed remaining k : Nat} {disk disk' : Disk} {err : InstallError}
    (hlate : elapsed + startOf setup env k ≤ setup.limits.maxElapsed)
    (htried : tryInstall setup (env k) skill policy active disk = (.error err, disk'))
    (hretry : err.reason.retryable = true) :
    InTime setup policy env active skill elapsed (remaining + 1) k disk ↔
      InTime setup policy env active skill elapsed remaining (k + 1) disk' := by
  have hretried : ∀ n, retried setup policy env active skill (n + 1) k disk =
      retried setup policy env active skill n (k + 1) disk' :=
    fun n => by simp [retried, htried, hretry]
  constructor
  · intro hall n hn hdue
    rw [Nat.add_assoc, Nat.add_comm 1 n]
    exact hall (n + 1) (Nat.succ_lt_succ hn) ((hretried n).trans hdue)
  · intro hall n hn hdue
    cases n with
    | zero => exact fun _ => hlate
    | succ n =>
      rw [Nat.add_comm n 1, ← Nat.add_assoc]
      exact hall n (Nat.lt_of_succ_lt_succ hn) ((hretried n).symm.trans hdue)

/-- A loop that starts later goes the same way exactly when its attempts are in time. -/
theorem installLoop_same_iff {elapsed remaining k : Nat} {last : InstallError} {disk : Disk}
    (hstart : startOf setup env k ≤ setup.limits.maxElapsed) (hremaining : 0 < remaining) :
    (installLoop setup policy env active skill remaining k last disk
        (elapsed + startOf setup env k)).Same
      (installLoop setup policy env active skill remaining k last disk (startOf setup env k)) ↔
    InTime setup policy env active skill elapsed remaining k disk := by
  induction remaining generalizing k last disk with
  | zero => cases hremaining
  | succ remaining ih =>
    by_cases hlate : elapsed + startOf setup env k ≤ setup.limits.maxElapsed
    case neg =>
      -- The later loop makes no attempt here, and the other one does.
      constructor
      · intro hsame
        have hmade := @lt_made setup policy env active skill remaining k _ last disk hstart
        rw [← hsame.2.1, installLoop, if_pos (Nat.not_le.mp hlate)] at hmade
        exact absurd hmade (Nat.lt_irrefl _)
      · exact fun hall => absurd (hall 0 (Nat.succ_pos _) rfl hstart) hlate
    case pos =>
      rw [installLoop_attempt hlate, installLoop_attempt hstart]
      cases htried : tryInstall setup (env k) skill policy active disk with
      | mk result disk' =>
      cases result with
      | ok installed =>
        refine iff_of_true ⟨rfl, rfl, rfl⟩ fun n _ hretried _ => ?_
        cases n with
        | zero => exact hlate
        | succ n => simp [retried, htried] at hretried
      | error err =>
        dsimp only
        cases hretry : err.reason.retryable with
        | false =>
          refine iff_of_true ⟨rfl, rfl, rfl⟩ fun n _ hretried _ => ?_
          cases n with
          | zero => exact hlate
          | succ n => simp [retried, htried, hretry] at hretried
        | true =>
          simp only [Bool.not_true, Bool.false_eq_true, if_false]
          rcases Nat.eq_zero_or_pos remaining with rfl | hmore
          · rw [if_pos rfl, if_pos rfl]
            refine iff_of_true ⟨rfl, rfl, rfl⟩ fun n hn _ _ => ?_
            rw [Nat.lt_one_iff.mp hn]
            exact hlate
          · rw [if_neg (Nat.pos_iff_ne_zero.mp hmore), if_neg (Nat.pos_iff_ne_zero.mp hmore)]
            have hnext : startOf setup env (k + 1) = startOf setup env k + (env k).took +
                backoff (k + 1) setup.limits + (env k).late := rfl
            rw [inTime_succ hlate htried hretry]
            by_cases htime : startOf setup env (k + 1) ≤ setup.limits.maxElapsed
            · have hdelay : ¬ startOf setup env k + (env k).took + backoff (k + 1) setup.limits >
                setup.limits.maxElapsed := by omega
              rw [if_neg hdelay, ← hnext]
              by_cases hstop : elapsed + startOf setup env k + (env k).took +
                backoff (k + 1) setup.limits > setup.limits.maxElapsed
              · -- The later loop stops here, and the other one makes another attempt.
                obtain ⟨more, rfl⟩ := Nat.exists_eq_add_one.mpr hmore
                rw [if_pos hstop]
                refine iff_of_false (fun hsame => ?_) fun hall => ?_
                · have hmade := @lt_made setup policy env active skill more (k + 1) _ err disk' htime
                  rw [← hsame.2.1] at hmade
                  exact Nat.lt_irrefl _ hmade
                · have hlater := hall 0 hmore rfl htime
                  rw [Nat.add_zero] at hlater
                  omega
              · have hclock : elapsed + startOf setup env k + (env k).took +
                    backoff (k + 1) setup.limits + (env k).late =
                    elapsed + startOf setup env (k + 1) := by omega
                rw [if_neg hstop, hclock]
                exact ih htime hmore
            · have hnone : ∀ n, ¬ startOf setup env (k + 1 + n) ≤ setup.limits.maxElapsed :=
                fun n hn => htime ((startOf_le (k + 1) n).trans hn)
              refine iff_of_true ?_ fun n _ _ hn => absurd hn (hnone n)
              rw [← hnext, installLoop_late (Nat.not_le.mp htime)]
              split
              · split
                · exact ⟨rfl, rfl, rfl⟩
                · exact ⟨rfl, rfl, rfl⟩
              · rw [if_neg (by omega), installLoop_late (by omega)]
                exact ⟨rfl, rfl, rfl⟩

end

/-! ## The turns of a reconcile -/

section

variable (setup : Setup) (policy : SkillPolicy)

/-- The outcome of a turn with a clock of its own. -/
def Progress.alone (progress : Progress) (env : Nat → Attempt) (skill : DesiredSkill) : Outcome :=
  installSkill setup policy env progress.active skill progress.disk 0

/-- The turn of a skill goes as it would with a clock of its own, with at least one attempt,
and the number of attempts is in the one report about it. -/
structure Progress.Undisturbed (progress : Progress) (env : Nat → Attempt) (skill : DesiredSkill)
    (reports : List ReportedSkill) : Prop where
  same : (progress.outcome setup policy env skill).Same (progress.alone setup policy env skill)
  attempted : 0 < (progress.outcome setup policy env skill).made
  reported : (reports.filter fun report => report.name = skill.name).map (·.attempts) =
    [(progress.outcome setup policy env skill).made]

end

section

variable {setup : Setup} {policy : SkillPolicy}

theorem turn_report {env : Nat → Attempt} {skill : DesiredSkill} (progress : Progress) :
    ∃ report, (progress.turn setup policy env skill).reports = progress.reports ++ [report] ∧
      report.name = skill.name ∧
      report.attempts = (progress.outcome setup policy env skill).reported := by
  cases hresult : (progress.outcome setup policy env skill).result with
  | ok installed =>
    refine ⟨installedReport skill installed.1 installed.2, ?_, rfl, ?_⟩
    · simp only [Progress.turn, hresult]
    · simp only [Outcome.reported, hresult, installedReport]
  | error failure =>
    refine ⟨failedReport skill (progress.active.lookup skill.name) failure.1 failure.2, ?_, rfl, ?_⟩
    · simp only [Progress.turn, hresult]
    · simp only [Outcome.reported, hresult, failedReport]

/-- With a clock of its own, a skill gets an attempt. -/
theorem alone_made {env : Nat → Attempt} {skill : DesiredSkill} (progress : Progress) :
    0 < (progress.alone setup policy env skill).made := by
  unfold Progress.alone installSkill
  obtain ⟨more, hmore⟩ := Nat.exists_eq_add_one.mpr
    (Nat.lt_of_lt_of_le Nat.one_pos (Nat.le_max_right setup.limits.maxAttempts 1))
  rw [hmore]
  exact lt_made (Nat.zero_le _)

theorem turns_append (before after : List DesiredSkill) (env : Nat → Nat → Attempt)
    (progress : Progress) :
    progress.turns setup policy (before ++ after) env =
      (progress.turns setup policy before env).turns setup policy after
        fun i => env (i + before.length) := by
  induction before generalizing env progress with
  | nil => rfl
  | cons skill before ih =>
    rw [List.cons_append, Progress.turns, ih, Progress.turns]
    rfl

/-- The one report about a skill is that of its turn. -/
theorem turns_report {before after : List DesiredSkill} {skill : DesiredSkill}
    {env : Nat → Nat → Attempt} {progress : Progress} (hnone : progress.reports = [])
    (hdistinct : ((before ++ skill :: after).map (·.name)).Nodup) :
    ((progress.turns setup policy (before ++ skill :: after) env).reports.filter
        fun report => report.name = skill.name).map (·.attempts) =
      [((progress.turns setup policy before env).outcome setup policy (env before.length)
        skill).reported] := by
  have hother : ∀ {skills : List DesiredSkill} {reports : List ReportedSkill},
      reports.map (·.name) = skills.map (·.name) → skill.name ∉ skills.map (·.name) →
      (reports.filter fun report => report.name = skill.name) = [] := by
    intro skills reports hnames hfresh
    refine List.filter_eq_nil_iff.mpr fun report hreport hname => hfresh ?_
    rw [← hnames, ← of_decide_eq_true hname]
    exact List.mem_map_of_mem hreport
  obtain ⟨earlier, hearlier, hearlierNames⟩ := @turns_reports setup policy before env progress
  obtain ⟨report, hreport, hname, hattempts⟩ := @turn_report setup policy (env before.length) skill
    (progress.turns setup policy before env)
  obtain ⟨later, hlater, hlaterNames⟩ := @turns_reports setup policy after
    (fun i => env (i + 1 + before.length))
    ((progress.turns setup policy before env).turn setup policy (env before.length) skill)
  rw [List.map_append, List.map_cons] at hdistinct
  obtain ⟨-, hrest, hapart⟩ := List.nodup_append.mp hdistinct
  have hafter : skill.name ∉ after.map (·.name) := (List.nodup_cons.mp hrest).1
  have hbefore : skill.name ∉ before.map (·.name) :=
    fun hmem => hapart _ hmem _ List.mem_cons_self rfl
  rw [turns_append, Progress.turns, Nat.zero_add, hlater, hreport, hearlier, hnone, List.nil_append,
    List.filter_append, List.filter_append, hother hearlierNames hbefore, hother hlaterNames hafter,
    List.filter_singleton, hname]
  simpa using hattempts

end

/-- An attempt at which the source answers with an error after longer than the limit. -/
def slowAttempt : Attempt := { refusedAttempt with took := 601 * 10 ^ 9 }

def slowSkill : DesiredSkill := { uptimeSkill with name := "disk", fetchTicket := "ticket-2" }

/-- The source is slow to refuse the first skill. -/
def slowFirst : Conditions :=
  ⟨fun i _ => if i = 0 then slowAttempt else refusedAttempt, none⟩

end Novbot.Skills
