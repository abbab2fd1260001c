import Novbot.Probe.Outcome

/-!
# The settings of sshd

`probe_compliance_sshd` reads two keywords of an `sshd_config`, each with the value of its last
line.  sshd takes the first one.  The two agree about a file that does not set a keyword twice
to different values.
-/

namespace Novbot.Probe

open Text

/-! ## The probe -/

/-- The value of the last line of a keyword that has one, after those read so far. -/
def sshdLines (key : List Char) : List (List Char) → Option (List Char) → Option (List Char)
  | [], last => last
  | line :: rest, last =>
    let line := trim line
    if line.isEmpty || line.head? = some '#' then sshdLines key rest last
    else
      match words line with
      | [] => none
      | k :: parts =>
        if eqIgnoreCase k key then
          match parts with
          | v :: _ => sshdLines key rest (some v)
          | [] => sshdLines key rest last
        else sshdLines key rest last

def sshdDirective (content key : String) : Option String :=
  (sshdLines key.toList (lines content.toList) none).map .ofList

/-- What is wrong with the value of a keyword. -/
def keywordFinding (keyword missing expected : String) : Option String → Option String
  | some v =>
    if eqIgnoreCase v.toList expected.toList then none
    else some (keyword ++ "=" ++ v ++ " (expected " ++ expected ++ ")")
  | none => if eqIgnoreCase expected.toList "no".toList then some missing else none

def permitRootFinding (expected : String) : Option String → Option String :=
  keywordFinding "PermitRootLogin" "PermitRootLogin not set (default may allow root login)" expected

def passwordAuthFinding (expected : String) : Option String → Option String :=
  keywordFinding "PasswordAuthentication" "PasswordAuthentication not set (default is often yes)"
    expected

/-- What is wrong with a configuration. -/
def sshdFindings (spec : Config.Spec) (content : String) : List String :=
  (permitRootFinding (textParam spec "permit_root_login" "no")
      (sshdDirective content "PermitRootLogin")).toList ++
    (passwordAuthFinding (textParam spec "password_authentication" "no")
      (sshdDirective content "PasswordAuthentication")).toList

def optionalText : Option String → Json
  | some text => .str text
  | none => .null

def probeComplianceSshd (files : Files) (spec : Config.Spec) : Except ProbeError ProbeOutcome :=
  let path := textParam spec "config_path" "/etc/ssh/sshd_config"
  if !files.present path then
    .ok ⟨"fail", .obj [("check", .str "compliance_sshd"), ("config_path", .str path),
      ("exists", .bool false), ("findings", strings ["sshd_config not found"]),
      ("passed", .bool false)]⟩
  else
    match files.readToString path with
    | .error err => .error (.io err)
    | .ok content =>
      let findings := sshdFindings spec content
      let passed := findings.isEmpty
      .ok ⟨passStatus passed, .obj [("check", .str "compliance_sshd"), ("config_path", .str path),
        ("expected", .obj [
          ("password_authentication", .str (textParam spec "password_authentication" "no")),
          ("permit_root_login", .str (textParam spec "permit_root_login" "no"))]),
        ("findings", strings findings), ("passed", .bool passed),
        ("password_authentication", optionalText (sshdDirective content "PasswordAuthentication")),
        ("permit_root_login", optionalText (sshdDirective content "PermitRootLogin"))]⟩

/-! ## Configurations -/

/-- White space within a line. -/
def inLine (c : Char) : Bool := c = ' ' || c = '\t' || c = '\r'

/-- A line of an `sshd_config`. -/
inductive ConfigLine where
  | blank (space : List Char)
  | comment (indent text : List Char)
  | directive (indent keyword gap value tail : List Char)

def ConfigLine.text : ConfigLine → List Char
  | .blank space => space
  | .comment indent text => indent ++ '#' :: text
  | .directive indent keyword gap value tail => indent ++ (keyword ++ (gap ++ (value ++ tail)))

/-- A word that is no comment and has no quotes. -/
def Unquoted (word : List Char) : Prop :=
  word ≠ [] ∧ word.head? ≠ some '#' ∧ ∀ c ∈ word, isWhiteSpace c = false ∧ c ≠ '"'

/-- A comment, a blank line, or a keyword with a value. -/
def ConfigLine.Plain : ConfigLine → Prop
  | .blank space => ∀ c ∈ space, inLine c = true
  | .comment indent text => (∀ c ∈ indent, inLine c = true) ∧ '\n' ∉ text
  | .directive indent keyword gap value tail =>
    (∀ c ∈ indent, inLine c = true) ∧ Unquoted keyword ∧ gap ≠ [] ∧ (∀ c ∈ gap, inLine c = true) ∧
      Unquoted value ∧ ∀ c ∈ tail, inLine c = true

/-- The text of a file. -/
def configText (config : List ConfigLine) : String :=
  .ofList (List.intercalate ['\n'] (config.map ConfigLine.text))

/-- The value that a line gives a keyword. -/
def ConfigLine.value (key : String) : ConfigLine → Option (List Char)
  | .directive _ keyword _ value _ => if eqIgnoreCase keyword key.toList then some value else none
  | _ => none

/-- The values that a file gives a keyword, in order. -/
def valuesOf (key : String) (config : List ConfigLine) : List (List Char) :=
  config.filterMap (ConfigLine.value key)

/-- The value that sshd applies. -/
def applied (key : String) (config : List ConfigLine) : Option (List Char) := (valuesOf key config).head?

/-- A value is the expected one, or there is none and "no" is not expected. -/
def Meets (expected : String) : Option (List Char) → Prop
  | some value => eqIgnoreCase value expected.toList = true
  | none => eqIgnoreCase expected.toList "no".toList = false

instance (expected : String) : (value : Option (List Char)) → Decidable (Meets expected value)
  | some value => inferInstanceAs (Decidable (eqIgnoreCase value expected.toList = true))
  | none => inferInstanceAs (Decidable (eqIgnoreCase expected.toList "no".toList = false))

/-! ## Lines of a configuration -/

theorem isWhiteSpace_of_inLine {c : Char} (h : inLine c = true) : isWhiteSpace c = true := by
  simp only [inLine, Bool.or_eq_true, decide_eq_true_eq] at h
  rcases h with (rfl | rfl) | rfl
  all_goals decide

theorem Unquoted.visible {word : List Char} (h : Unquoted word) :
    ∀ c ∈ word, isWhiteSpace c = false := fun c hc => (h.2.2 c hc).1

theorem Unquoted.cons {word : List Char} (h : Unquoted word) :
    ∃ c rest, word = c :: rest ∧ isWhiteSpace c = false ∧ c ≠ '#' := by
  obtain ⟨hne, hhash, -⟩ := id h
  obtain ⟨c, rest, rfl⟩ := List.exists_cons_of_ne_nil hne
  exact ⟨c, rest, rfl, h.visible c List.mem_cons_self, fun heq => hhash (heq ▸ rfl)⟩

/-- No line contains a line feed. -/
theorem not_mem_text {line : ConfigLine} (h : line.Plain) : '\n' ∉ line.text := by
  have hspace : ∀ {space : List Char}, (∀ c ∈ space, inLine c = true) → '\n' ∉ space :=
    fun hall hmem => absurd (hall _ hmem) (by decide)
  have hword : ∀ {word : List Char}, Unquoted word → '\n' ∉ word :=
    fun hword hmem => absurd (hword.visible _ hmem) (by decide)
  cases line with
  | blank space => exact hspace h
  | comment indent text =>
    rw [ConfigLine.text, List.mem_append, List.mem_cons]
    rintro (hmem | heq | hmem)
    · exact hspace h.1 hmem
    · cases heq
    · exact h.2 hmem
  | directive indent keyword gap value tail =>
    obtain ⟨hindent, hkeyword, -, hgap, hvalue, htail⟩ := h
    simp only [ConfigLine.text, List.mem_append, not_or]
    exact ⟨hspace hindent, hword hkeyword, hspace hgap, hword hvalue, hspace htail⟩

/-- What one line does to the scan. -/
theorem sshdLines_cons {line : ConfigLine} (h : line.Plain) (key : String) (rest : List (List Char))
    (last : Option (List Char)) :
    sshdLines key.toList (line.text :: rest) last =
      sshdLines key.toList rest ((line.value key).or last) := by
  rw [sshdLines]
  cases line with
  | blank space =>
    rw [ConfigLine.text, trim_blank fun c hc => isWhiteSpace_of_inLine (h c hc)]
    rfl
  | comment indent text =>
    rw [ConfigLine.text, head?_trim (fun c hc => isWhiteSpace_of_inLine (h.1 c hc)) (by decide),
      if_pos (by simp)]
    rfl
  | directive indent keyword gap value tail =>
    obtain ⟨hindent, hkeyword, hne, hgap, hvalue, htail⟩ := h
    have hindent := fun c hc => isWhiteSpace_of_inLine (hindent c hc)
    have hgap := fun c hc => isWhiteSpace_of_inLine (hgap c hc)
    have htail := fun c hc => isWhiteSpace_of_inLine (htail c hc)
    obtain ⟨c, letters, hc, hvisible, hhash⟩ := hkeyword.cons
    have hhead : (trim (indent ++ (keyword ++ (gap ++ (value ++ tail))))).head? = some c := by
      rw [hc]
      exact head?_trim hindent hvisible
    have hwords : words (trim (indent ++ (keyword ++ (gap ++ (value ++ tail))))) = [keyword, value] := by
      rw [words_trim, words_blank_append hindent,
        words_word_append hkeyword.1 hkeyword.visible hgap hne, words_append_blank htail,
        words_word hvalue.1 hvalue.visible]
    rw [ConfigLine.text, hwords, hhead, if_neg]
    · simp only [ConfigLine.value]
      split
      · rfl
      · rfl
    · rw [Bool.or_eq_true, not_or, decide_eq_true_eq, Option.some_inj]
      refine ⟨fun hempty => ?_, hhash⟩
      rw [List.isEmpty_iff.mp hempty] at hhead
      cases hhead

theorem sshdLines_texts {config : List ConfigLine} (h : ∀ line ∈ config, line.Plain) (key : String)
    (last : Option (List Char)) :
    sshdLines key.toList (config.map ConfigLine.text) last =
      (valuesOf key config).getLast?.or last := by
  induction config generalizing last with
  | nil => rfl
  | cons line config ih =>
    obtain ⟨hline, hrest⟩ := List.forall_mem_cons.mp h
    rw [List.map_cons, sshdLines_cons hline, ih hrest]
    have hvalues : valuesOf key (line :: config) = (line.value key).toList ++ valuesOf key config := by
      rw [valuesOf, List.filterMap_cons, valuesOf]
      cases line.value key <;> rfl
    rw [hvalues, List.getLast?_append]
    cases (valuesOf key config).getLast? with
    | some value => rfl
    | none =>
      cases line.value key with
      | none => rfl
      | some value => rfl

/-- A line counts by what it is when it is trimmed. -/
theorem sshdLines_trim {key : List Char} {written written' : List (List Char)}
    (h : List.Forall₂ (fun line line' => trim line = trim line') written written')
    (last : Option (List Char)) : sshdLines key written last = sshdLines key written' last := by
  induction h generalizing last with
  | nil => rfl
  | cons hline _ ih =>
    rw [sshdLines, sshdLines, hline]
    simp only [ih]

theorem sshdLines_blank_last (key : List Char) (written : List (List Char)) (last : Option (List Char)) :
    sshdLines key (written ++ [[]]) last = sshdLines key written last := by
  induction written generalizing last with
  | nil => rfl
  | cons line written ih =>
    rw [List.cons_append, sshdLines, sshdLines]
    simp only [ih]

/-- The scan of `lines` is one of the text between line feeds. -/
theorem sshdLines_lines (key cs : List Char) (last : Option (List Char)) :
    sshdLines key (lines cs) last = sshdLines key (split '\n' cs) last := by
  have hreturns : ∀ parts : List (List Char),
      List.Forall₂ (fun line line' => trim line = trim line') (parts.map dropReturn) parts := by
    intro parts
    rw [List.forall₂_map_left_iff]
    exact List.forall₂_same.mpr fun part _ => trim_dropReturn part
  have hparts := List.dropLast_append_getLast (split_ne_nil '\n' cs)
  generalize (split '\n' cs).getLast (split_ne_nil '\n' cs) = part at hparts
  rw [lines, ← hparts, List.dropLast_concat, List.getLast?_concat]
  by_cases hpart : part = []
  · rw [hpart, sshdLines_blank_last, Option.filter_some, if_neg (by simp)]
    rw [Option.toList_none, List.append_nil]
    exact sshdLines_trim (hreturns _) last
  · rw [Option.filter_some, if_pos (by simpa using hpart)]
    exact sshdLines_trim (List.rel_append (hreturns _) (.cons rfl .nil)) last

/-- The scan finds the last value of a keyword. -/
theorem sshdDirective_text {config : List ConfigLine} (h : ∀ line ∈ config, line.Plain) (key : String) :
    sshdDirective (configText config) key = (valuesOf key config).getLast?.map .ofList := by
  rw [sshdDirective, configText, String.toList_ofList, sshdLines_lines]
  cases config with
  | nil => rfl
  | cons line config =>
    rw [split_intercalate (by simp)]
    · rw [sshdLines_texts h, Option.or_none]
    · intro text htext
      obtain ⟨found, hfound, rfl⟩ := List.mem_map.mp htext
      exact not_mem_text (h found hfound)

/-! ## What passes -/

theorem keywordFinding_none_iff {keyword missing expected : String} {value : Option (List Char)} :
    keywordFinding keyword missing expected (value.map .ofList) = none ↔ Meets expected value := by
  cases value with
  | none =>
    show (if eqIgnoreCase expected.toList "no".toList = true then some missing else none) = none ↔ _
    simp [Meets]
  | some value =>
    show (if eqIgnoreCase (String.ofList value).toList expected.toList = true then none else _) =
      none ↔ _
    rw [String.toList_ofList]
    simp [Meets]

def configPath (spec : Config.Spec) : String := textParam spec "config_path" "/etc/ssh/sshd_config"

/-- What a spec expects of a keyword. -/
def expectations (spec : Config.Spec) : List (String × String) :=
  [("PermitRootLogin", textParam spec "permit_root_login" "no"),
    ("PasswordAuthentication", textParam spec "password_authentication" "no")]

/-- A configuration passes. -/
def SshdPasses (files : Files) (spec : Config.Spec) : Prop :=
  ∃ outcome, probeComplianceSshd files spec = .ok outcome ∧ outcome.status = "ok"

section

variable {files : Files} {spec : Config.Spec} {config : List ConfigLine}

theorem sshdPasses_findings {content : String} (hpresent : files.present (configPath spec) = true)
    (hread : files.readToString (configPath spec) = .ok content) :
    SshdPasses files spec ↔ sshdFindings spec content = [] := by
  obtain ⟨payload, hprobe⟩ : ∃ payload, probeComplianceSshd files spec =
      .ok ⟨passStatus (sshdFindings spec content).isEmpty, payload⟩ := by
    unfold probeComplianceSshd
    rw [← configPath]
    dsimp only
    rw [hpresent, hread]
    exact ⟨_, rfl⟩
  rw [SshdPasses, hprobe]
  generalize sshdFindings spec content = findings
  constructor
  · rintro ⟨outcome, hok, hstatus⟩
    cases hok
    exact List.isEmpty_iff.mp (passStatus_eq_ok.mp hstatus)
  · rintro rfl
    exact ⟨_, rfl, rfl⟩

theorem sshdPasses_iff (hpresent : files.present (configPath spec) = true)
    (hread : files.readToString (configPath spec) = .ok (configText config))
    (hplain : ∀ line ∈ config, line.Plain) :
    SshdPasses files spec ↔
      ∀ key expected, (key, expected) ∈ expectations spec →
        Meets expected (valuesOf key config).getLast? := by
  rw [sshdPasses_findings hpresent hread, sshdFindings, List.append_eq_nil_iff,
    Option.toList_eq_nil_iff, Option.toList_eq_nil_iff, sshdDirective_text hplain,
    sshdDirective_text hplain]
  refine (and_congr keywordFinding_none_iff keywordFinding_none_iff).trans ?_
  simp only [expectations, List.mem_cons, List.not_mem_nil, or_false, Prod.mk.injEq]
  constructor
  · rintro ⟨hroot, hpassword⟩ key expected (⟨rfl, rfl⟩ | ⟨rfl, rfl⟩)
    · exact hroot
    · exact hpassword
  · exact fun hall => ⟨hall _ _ (.inl ⟨rfl, rfl⟩), hall _ _ (.inr ⟨rfl, rfl⟩)⟩

/-- A configuration passes exactly when the last value of each keyword is the expected one, and
that value is the one that sshd applies where no keyword has two values. -/
theorem sshd_passes (hpresent : files.present (configPath spec) = true)
    (hread : files.readToString (configPath spec) = .ok (configText config))
    (hplain : ∀ line ∈ config, line.Plain) :
    (SshdPasses files spec ↔
      ∀ key expected, (key, expected) ∈ expectations spec →
        Meets expected (valuesOf key config).getLast?) ∧
    (SshdPasses files spec → ∀ key expected, (key, expected) ∈ expectations spec →
      (∀ value ∈ valuesOf key config, ∀ value' ∈ valuesOf key config,
        eqIgnoreCase value value' = true) → Meets expected (applied key config)) := by
  have hiff := sshdPasses_iff hpresent hread hplain
  refine ⟨hiff, fun hpasses key expected hkey hsame => ?_⟩
  have hlast := hiff.mp hpasses key expected hkey
  cases hvalues : valuesOf key config with
  | nil =>
    rw [hvalues] at hlast
    rw [applied, hvalues]
    exact hlast
  | cons first values =>
    obtain ⟨last, hfound⟩ : ∃ last, (valuesOf key config).getLast? = some last :=
      ⟨_, List.getLast?_eq_getLast_of_ne_nil (by rw [hvalues]; exact List.cons_ne_nil _ _)⟩
    rw [hfound] at hlast
    have hagree := hsame first (by rw [hvalues]; exact List.mem_cons_self) last
      (List.mem_of_getLast? hfound)
    rw [applied, hvalues]
    exact eqIgnoreCase_iff.mpr ((eqIgnoreCase_iff.mp hagree).trans (eqIgnoreCase_iff.mp hlast))

end

/-! ### A root login -/

/-- A line that sets a keyword. -/
def setting (keyword value : String) : ConfigLine := .directive [] keyword.toList [' '] value.toList []

/-- Root may log in, and a later line says no. -/
def rootLogin : List ConfigLine :=
  [.comment [] " local".toList, setting "PermitRootLogin" "yes", .blank [],
    setting "PasswordAuthentication" "no", setting "permitrootlogin" "no"]

def sshdSpec : Config.Spec := ⟨"sshd", .complianceSshd, .obj [], none⟩

/-- The files of a node with one configuration of sshd. -/
def sshdFiles (config : List ConfigLine) : Files :=
  ⟨fun path => path = "/etc/ssh/sshd_config", fun _ => .ok (configText config)⟩

theorem setting_plain {keyword value : String} (hkeyword : Unquoted keyword.toList)
    (hvalue : Unquoted value.toList) : (setting keyword value).Plain :=
  ⟨List.all_eq_true.mp (by decide), hkeyword, by decide, List.all_eq_true.mp (by decide), hvalue,
    List.all_eq_true.mp (by decide)⟩

theorem unquoted_of_all {word : List Char} (hne : word ≠ []) (hhead : word.head? ≠ some '#')
    (h : word.all (fun c => !isWhiteSpace c && c != '"') = true) : Unquoted word := by
  refine ⟨hne, hhead, fun c hc => ?_⟩
  have hplain := List.all_eq_true.mp h c hc
  rw [Bool.and_eq_true, Bool.not_eq_true', bne_iff_ne] at hplain
  exact hplain

theorem rootLogin_plain : ∀ line ∈ rootLogin, line.Plain := by
  unfold rootLogin
  simp only [List.forall_mem_cons]
  refine ⟨⟨List.all_eq_true.mp (by decide), by decide⟩, setting_plain ?_ ?_, fun c hc => absurd hc List.not_mem_nil,
    setting_plain ?_ ?_, setting_plain ?_ ?_, fun line hline => absurd hline List.not_mem_nil⟩
  all_goals exact unquoted_of_all (by decide) (by decide) (by decide)

theorem sshd_passes_rootLogin :
    (SshdPasses (sshdFiles rootLogin) sshdSpec ↔
      ∀ key expected, (key, expected) ∈ expectations sshdSpec →
        Meets expected (valuesOf key rootLogin).getLast?) ∧
    (SshdPasses (sshdFiles rootLogin) sshdSpec →
      ∀ key expected, (key, expected) ∈ expectations sshdSpec →
      (∀ value ∈ valuesOf key rootLogin, ∀ value' ∈ valuesOf key rootLogin,
        eqIgnoreCase value value' = true) → Meets expected (applied key rootLogin)) :=
  @sshd_passes (sshdFiles rootLogin) sshdSpec rootLogin rfl rfl rootLogin_plain

/-- The first line lets root log in, and the file passes. -/
theorem root_login_passes :
    ¬ ∀ files spec config, files.present (configPath spec) = true →
      files.readToString (configPath spec) = .ok (configText config) →
      (∀ line ∈ config, line.Plain) → SshdPasses files spec →
      ∀ key expected, (key, expected) ∈ expectations spec → Meets expected (applied key config) := by
  intro hall
  have hpasses : SshdPasses (sshdFiles rootLogin) sshdSpec := by
    refine (@sshdPasses_iff (sshdFiles rootLogin) sshdSpec rootLogin rfl rfl rootLogin_plain).mpr ?_
    intro key expected hkey
    simp only [expectations, List.mem_cons, List.not_mem_nil, or_false, Prod.mk.injEq] at hkey
    rcases hkey with ⟨rfl, rfl⟩ | ⟨rfl, rfl⟩
    all_goals decide +kernel
  have happlied := hall (sshdFiles rootLogin) sshdSpec rootLogin rfl rfl rootLogin_plain hpasses
    "PermitRootLogin" "no" (.head _)
  exact absurd happlied (by decide +kernel)

end Novbot.Probe
