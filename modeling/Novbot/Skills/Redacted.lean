import Novbot.Skills.Reconcile

/-!
# Tickets stay out of reports

What a failed install says may quote anything that the source answered, also the ticket
of the request.  A report passes through `redact`, which leaves no occurrence of a
ticket as the center issues them: 32 hexadecimal digits.
-/

namespace Novbot.Skills

open Text

/-! ## Occurrences -/

/-- What has no separator occurs before a separator or behind it. -/
theorem infix_append_cons {α : Type} {sub before after : List α} {sep : α} (hsep : sep ∉ sub)
    (h : sub <:+: before ++ sep :: after) : sub <:+: before ∨ sub <:+: after := by
  obtain ⟨left, right, heq⟩ := h
  rw [List.append_assoc] at heq
  rcases List.append_eq_append_iff.mp heq with ⟨mid, hbefore, hmid⟩ | ⟨mid, hleft, hmid⟩
  · rcases List.append_eq_append_iff.mp hmid with ⟨rest, hrest, -⟩ | ⟨rest, hsub, hrest⟩
    · refine .inl ⟨left, rest, ?_⟩
      rw [hbefore, hrest, List.append_assoc]
    · cases rest with
      | nil =>
        refine .inl ⟨left, [], ?_⟩
        rw [hbefore, hsub, List.append_nil, List.append_nil]
      | cons first rest =>
        obtain ⟨rfl, -⟩ := List.cons.inj hrest
        exact absurd (hsub ▸ List.mem_append_right _ List.mem_cons_self) hsep
  · cases mid with
    | nil =>
      cases sub with
      | nil => exact .inl (List.nil_infix)
      | cons first sub =>
        obtain ⟨rfl, -⟩ := List.cons.inj hmid
        exact absurd List.mem_cons_self hsep
    | cons first mid =>
      obtain ⟨-, rfl⟩ := List.cons.inj hmid
      exact .inr ⟨mid, right, List.append_assoc _ _ _⟩

/-! ## Redaction -/

/-- What the placeholder cannot contain, wholly or in part. -/
structure Opaque (ticket : List Char) : Prop where
  nonempty : ticket ≠ []
  opening : '[' ∉ ticket
  closing : ']' ∉ ticket
  word : ¬ ticket <:+: "redacted".toList

section

variable {ticket : List Char}

/-- Up to the first placeholder the text is as it was. -/
theorem prefix_of_prefix_redact {part detail : List Char} (hopening : '[' ∉ part)
    (h : part <+: redact ticket 0 detail) : part <+: detail := by
  induction part generalizing detail with
  | nil => exact List.nil_prefix
  | cons c part ih =>
    cases detail with
    | nil =>
      rw [redact] at h
      exact h
    | cons d detail =>
      rw [redact] at h
      split at h
      · obtain ⟨rfl, -⟩ := List.cons_prefix_cons.mp h
        exact absurd List.mem_cons_self hopening
      · obtain ⟨rfl, hpart⟩ := List.cons_prefix_cons.mp h
        exact List.cons_prefix_cons.mpr ⟨rfl, ih (fun hmem => hopening (.tail _ hmem)) hpart⟩

theorem not_infix_redact (h : Opaque ticket) (skip : Nat) (detail : List Char) :
    ¬ ticket <:+: redact ticket skip detail := by
  induction detail generalizing skip with
  | nil =>
    rw [redact]
    exact fun hinfix => h.nonempty (List.infix_nil.mp hinfix)
  | cons c detail ih =>
    cases skip with
    | succ skip =>
      rw [redact]
      exact ih skip
    | zero =>
      intro hinfix
      cases hmatch : ticket.isPrefixOf (c :: detail) with
      | true =>
        have hplaceholder : redact ticket 0 (c :: detail) =
            [] ++ '[' :: ("redacted".toList ++ ']' :: redact ticket (ticket.length - 1) detail) := by
          rw [redact, if_pos hmatch]
          rfl
        rw [hplaceholder] at hinfix
        rcases infix_append_cons h.opening hinfix with hnil | hrest
        · exact h.nonempty (List.infix_nil.mp hnil)
        · rcases infix_append_cons h.closing hrest with hword | hlater
          · exact h.word hword
          · exact ih _ hlater
      | false =>
        -- An occurrence at the start would have been replaced.
        have hcopied : redact ticket 0 (c :: detail) = c :: redact ticket 0 detail := by
          rw [redact, hmatch]
          rfl
        rw [hcopied] at hinfix
        rcases List.infix_cons_iff.mp hinfix with hstart | hlater
        · rw [← hcopied] at hstart
          have hprefix := prefix_of_prefix_redact h.opening hstart
          rw [← List.isPrefixOf_iff_prefix, hmatch] at hprefix
          cases hprefix
        · exact ih 0 hlater

theorem redactTicket_hides {ticket : String} (h : Opaque ticket.toList) (detail : String) :
    ¬ ticket.toList <:+: (redactTicket detail ticket).toList := by
  have hempty : ticket.isEmpty = false := by
    rw [Bool.eq_false_iff]
    intro hempty
    rw [String.isEmpty_iff] at hempty
    exact h.nonempty (by rw [hempty]; rfl)
  rw [redactTicket, hempty]
  simpa using not_infix_redact h 0 detail.toList

end

/-- A ticket as `issue_ticket_ttl` makes them. -/
def Issued (ticket : String) : Prop :=
  ticket.toList.length = 32 ∧ ∀ c ∈ ticket.toList, isAsciiDigit c || ('a' ≤ c && c ≤ 'f')

theorem opaque_of_issued {ticket : String} (h : Issued ticket) : Opaque ticket.toList := by
  obtain ⟨hlength, hdigits⟩ := h
  constructor
  · intro hnil
    rw [hnil] at hlength
    cases hlength
  · intro hmem
    exact absurd (hdigits _ hmem) (by decide)
  · intro hmem
    exact absurd (hdigits _ hmem) (by decide)
  · intro hinfix
    have hle := hinfix.length_le
    rw [hlength] at hle
    exact absurd hle (by decide)

/-! ## Reports -/

/-- The report of a turn says nothing that `redact` has not seen. -/
def ReportedSkill.redacted (report : ReportedSkill) (skill : DesiredSkill) : Prop :=
  report.name = skill.name ∧ report.sha256 = skill.sha256 ∧
    (report.reasonDetail = "" ∨ ∃ detail, report.reasonDetail = redactTicket detail skill.fetchTicket)

section

variable {setup : Setup} {policy : SkillPolicy}

theorem turn_redacted (env : Nat → Attempt) (skill : DesiredSkill) (progress : Progress) :
    ∃ report, (progress.turn setup policy env skill).reports = progress.reports ++ [report] ∧
      report.redacted skill := by
  rcases @turn_cases setup policy env skill progress with
    ⟨installed, attempts, -, -, hreports⟩ | ⟨err, attempts, -, hreports⟩
  · exact ⟨_, hreports, rfl, rfl, .inl rfl⟩
  · exact ⟨_, hreports, rfl, rfl, .inr ⟨err.detail, rfl⟩⟩

theorem turns_redacted (skills : List DesiredSkill) (env : Nat → Nat → Attempt) (progress : Progress) :
    ∀ report ∈ (progress.turns setup policy skills env).reports,
      report ∈ progress.reports ∨ ∃ skill ∈ skills, report.redacted skill := by
  induction skills generalizing env progress with
  | nil => exact fun report hreport => .inl hreport
  | cons skill skills ih =>
    intro report hreport
    rcases ih (fun i => env (i + 1)) (progress.turn setup policy (env 0) skill) report hreport with
      hearlier | ⟨later, hlater, hredacted⟩
    · obtain ⟨added, hadded, hredacted⟩ := @turn_redacted setup policy (env 0) skill progress
      rw [hadded] at hearlier
      rcases List.mem_append.mp hearlier with hbefore | hown
      · exact .inl hbefore
      · rw [List.mem_singleton] at hown
        subst hown
        exact .inr ⟨skill, List.mem_cons_self, hredacted⟩
    · exact .inr ⟨later, .tail _ hlater, hredacted⟩

end

/-- No report of a reconcile shows the ticket of its skill, whatever the source and the
files answer during it. -/
theorem reports_hide_tickets (setup : Setup) (host : Host) (desired : DesiredSet)
    (conditions : Conditions) (h : host.inner.isNoop desired = false) :
    ∀ report ∈ (host.reconcile setup desired conditions).2.skills,
      ∃ skill ∈ desired.skills, report.name = skill.name ∧ report.sha256 = skill.sha256 ∧
        (Issued skill.fetchTicket →
          ¬ skill.fetchTicket.toList <:+: report.reasonDetail.toList) := by
  intro report hreport
  rw [(reconcile_of_not_noop h).2] at hreport
  have hmem := (List.mergeSort_perm _ _).mem_iff.mp hreport
  rcases turns_redacted desired.skills conditions.attempts (host.begin desired) report hmem with
    hnone | ⟨skill, hskill, hname, hsha, hdetail⟩
  · cases hnone
  · refine ⟨skill, hskill, hname, hsha, fun hissued => ?_⟩
    rcases hdetail with hempty | ⟨detail, hdetail⟩
    · rw [hempty]
      exact fun hinfix => (opaque_of_issued hissued).nonempty (List.infix_nil.mp hinfix)
    · rw [hdetail]
      exact redactTicket_hides (opaque_of_issued hissued) detail

/-- A source that quotes the ticket in its refusal. -/
def quoting (ticket : String) : Conditions :=
  ⟨fun _ _ => { refusedAttempt with fetch := fun _ => .error ("unknown ticket " ++ ticket) }, none⟩

theorem reports_hide_tickets_quoted :
    let ticket := "0123456789abcdef0123456789abcdef"
    let skill := { uptimeSkill with fetchTicket := ticket }
    ∀ report ∈ (freshHost.reconcile uptimeSetup (desiredOne 1 [skill]) (quoting ticket)).2.skills,
      ∃ wanted ∈ [skill], report.name = wanted.name ∧ report.sha256 = wanted.sha256 ∧
        (Issued wanted.fetchTicket →
          ¬ wanted.fetchTicket.toList <:+: report.reasonDetail.toList) :=
  reports_hide_tickets uptimeSetup freshHost _ _ rfl

end Novbot.Skills
