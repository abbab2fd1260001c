import Novbot.Desired.InUse

/-!
# Pushes of a skill group

A push runs each skill of the group on each node by the id of a spec, which the center picks from
the specs of the node's config (`resolve_spec_id_for_skill`).  The center takes the first element
that it knows for the skill, where the node holds the last spec of each id; it does not know MCP
tools, and takes any spec whose id is the skill's name (`push_executes_iff`).
-/

namespace Novbot.Targets.Push

open Novbot.Config (Spec SpecKind RuntimeState applyConfig parseSpecs parseSchedules executeSpec
  skillFromParams isBuiltin)

/-! ## The center -/

/-- `as_str().unwrap_or("")` of a member. -/
def textOf (key : String) (spec : Json) : String := ((spec.get key).bind Json.asStr).getD ""

def paramsSkill (spec : Json) : Option String :=
  ((spec.get "params").bind (·.get "skill")).bind Json.asStr

/-- The loop of `resolve_spec_id_for_skill`. -/
def resolveIn (skill : String) : List Json → String
  | [] => skill
  | spec :: arr =>
    let kind := textOf "kind" spec
    let id := textOf "id" spec
    if kind = "skill" ∧ paramsSkill spec = some skill ∧ id ≠ "" then id
    else if id = skill then skill
    else resolveIn skill arr

def resolveSpecIdForSkill (specs : Json) (skill : String) : String :=
  match specs.asArray with
  | some arr => resolveIn skill arr
  | none => skill

inductive PushResult where
  /-- The node has no config. -/
  | missing (nodeId skill error : String)
  | sent (nodeId skill specId runId : String) (delivered : Bool)
  | refused (nodeId skill specId error : String)

/-- `dispatch_named_skills`, with the specs of each node's config, whose text may not be JSON, and
what the dispatch of a spec to a node answers. -/
def dispatchNamedSkills (config : String → Option (Option Json))
    (dispatch : String → String → Except String (String × Bool)) (skills nodeIds : List String) :
    List PushResult :=
  nodeIds.flatMap fun nodeId =>
    match config nodeId with
    | none => skills.map fun skill => .missing nodeId skill "node config not found; PUT config first"
    | some specs => skills.map fun skill =>
      let specId := resolveSpecIdForSkill (specs.getD (.arr [])) skill
      match dispatch nodeId specId with
      | .ok (runId, delivered) => .sent nodeId skill specId runId delivered
      | .error error => .refused nodeId skill specId error

/-- What is sent to a node for a skill runs the spec that the center picks. -/
theorem specId_of_sent {config : String → Option (Option Json)}
    {dispatch : String → String → Except String (String × Bool)} {skills nodeIds : List String}
    {nodeId skill specId runId : String} {delivered : Bool}
    (h : .sent nodeId skill specId runId delivered ∈
      dispatchNamedSkills config dispatch skills nodeIds) :
    nodeId ∈ nodeIds ∧ skill ∈ skills ∧ ∃ specs, config nodeId = some specs ∧
      specId = resolveSpecIdForSkill (specs.getD (.arr [])) skill := by
  obtain ⟨node, hnode, hmem⟩ := List.mem_flatMap.mp h
  cases hconfig : config node with
  | none =>
    rw [hconfig] at hmem
    obtain ⟨_, _, hsame⟩ := List.mem_map.mp hmem
    cases hsame
  | some specs =>
    rw [hconfig] at hmem
    obtain ⟨name, hname, hsame⟩ := List.mem_map.mp hmem
    dsimp only at hsame
    split at hsame
    · cases hsame
      exact ⟨hnode, hname, specs, hconfig, rfl⟩
    · cases hsame

/-! ## The node -/

/-- `invoke_skill`, the name of the skill that it runs. -/
def invokeSkill (name : String) : Except String String :=
  if isBuiltin name then .ok name
  else .error ("unknown skill/tool: " ++ name ++ " (known: host_info, echo, env_get)")

/-- The skill that `run_probe` runs for a spec. -/
def probedSkill (spec : Spec) : Option String :=
  match spec.kind with
  | .skill | .mcpTool =>
    match skillFromParams (spec.kind = .mcpTool) spec.params with
    | .ok (name, _) => (invokeSkill name).toOption
    | .error _ => none
  | _ => none

/-- The skill that `execute_spec` executes. -/
def executed (spec : Spec) : Option String :=
  match executeSpec spec with
  | .runHub run => some run.name
  | .probe => probedSkill spec

/-- The push of a skill to a node: the spec that the node runs executes the skill, and there is one
when a spec of the config would. -/
structure Executes (specs : Json) (state : RuntimeState) (skill : String) : Prop where
  runs : ∀ spec, state.specs.lookup (resolveSpecIdForSkill specs skill) = some spec →
    executed spec = some skill
  finds : ∀ decoded, parseSpecs specs = .ok decoded →
    (∃ spec ∈ decoded, executed spec = some skill) →
      ∃ spec, state.specs.lookup (resolveSpecIdForSkill specs skill) = some spec ∧
        executed spec = some skill

/-! ## When they agree -/

/-- The spec is for the skill. -/
def NamesSkill (skill : String) (spec : Spec) : Prop :=
  (spec.kind = .skill ∧ (spec.params.get "skill").bind Json.asStr = some skill) ∨
    spec.kind = .mcpTool ∧ (spec.params.get "tool").bind Json.asStr = some skill

/-- The center stops at the element: it is of the kind `skill`, names the skill and has an id, or the
skill's name is its id. -/
def Taken (skill : String) (spec : Json) : Prop :=
  (textOf "kind" spec = "skill" ∧ paramsSkill spec = some skill ∧ textOf "id" spec ≠ "") ∨
    textOf "id" spec = skill

instance (skill : String) : DecidablePred (Taken skill) :=
  fun _ => inferInstanceAs (Decidable (_ ∨ _))

/-- The last spec of the id is for the skill, or there is no spec of the id and none for the skill. -/
def Answers (decoded : List Spec) (skill id : String) : Prop :=
  (∃ before spec after, decoded = before ++ spec :: after ∧ spec.id = id ∧
    (∀ later ∈ after, later.id ≠ id) ∧ NamesSkill skill spec) ∨
  ∀ spec ∈ decoded, spec.id ≠ id ∧ ¬ NamesSkill skill spec

section
variable {skill : String}

theorem executed_iff {spec : Spec} : executed spec = some skill ↔ NamesSkill skill spec := by
  have hname : ∀ mcp : Bool,
      ((match (match skillFromParams mcp spec.params with
          | .ok (name, _) =>
            if isBuiltin name then Novbot.Config.Execution.probe
            else .runHub ⟨name, spec.params.get "version", Novbot.Config.hubArguments spec.params⟩
          | .error _ => .probe) with
        | .runHub run => some run.name
        | .probe =>
          match skillFromParams mcp spec.params with
          | .ok (name, _) => (invokeSkill name).toOption
          | .error _ => none) = some skill) ↔
        ∃ arguments, skillFromParams mcp spec.params = .ok (skill, arguments) := by
    intro mcp
    cases skillFromParams mcp spec.params with
    | error err => simp
    | ok found =>
      obtain ⟨name, arguments⟩ := found
      dsimp only
      cases hbuiltin : isBuiltin name with
      | true => simp [invokeSkill, hbuiltin, Except.toOption]
      | false => simp
  unfold executed executeSpec probedSkill NamesSkill
  cases hkind : spec.kind with
  | skill =>
    refine (hname false).trans (Novbot.Config.skillFromParams_fst.trans ?_)
    simp
  | mcpTool =>
    refine (hname true).trans (Novbot.Config.skillFromParams_fst.trans ?_)
    simp
  | _ => simp

/-- Where the loop stops. -/
theorem resolveIn_taken {before after : List Json} {value : Json}
    (hbefore : ∀ earlier ∈ before, ¬ Taken skill earlier) (htaken : Taken skill value) :
    resolveIn skill (before ++ value :: after) = textOf "id" value := by
  induction before with
  | nil =>
    rw [List.nil_append, resolveIn]
    split
    · rfl
    · next hother =>
      have hid := htaken.resolve_left hother
      rw [if_pos hid, hid]
  | cons earlier before ih =>
    obtain ⟨hearlier, hbefore⟩ := List.forall_mem_cons.mp hbefore
    obtain ⟨hkind, hid⟩ := not_or.mp hearlier
    rw [List.cons_append, resolveIn, if_neg hkind, if_neg hid]
    exact ih hbefore

theorem resolveIn_untaken {values : List Json} (h : ∀ value ∈ values, ¬ Taken skill value) :
    resolveIn skill values = skill := by
  induction values with
  | nil => rfl
  | cons value values ih =>
    obtain ⟨hvalue, hvalues⟩ := List.forall_mem_cons.mp h
    obtain ⟨hkind, hid⟩ := not_or.mp hvalue
    rw [resolveIn, if_neg hkind, if_neg hid]
    exact ih hvalues

/-- The node holds the last spec of each id. -/
theorem lookup_specs_iff {generation : Int} {specs schedules : Json} {state : RuntimeState}
    (h : applyConfig generation specs schedules = .ok state) {decoded : List Spec}
    (hdecoded : parseSpecs specs = .ok decoded) {id : String} {spec : Spec} :
    state.specs.lookup id = some spec ↔ ∃ before after, decoded = before ++ spec :: after ∧
      spec.id = id ∧ ∀ later ∈ after, later.id ≠ id := by
  have hheld : Desired.held ⟨generation, specs, schedules⟩ = state.specs := by
    rw [Desired.held, h]
  have hschedules : ∃ decoded, parseSchedules schedules = .ok decoded := by
    unfold applyConfig at h
    rw [hdecoded] at h
    cases hparse : parseSchedules schedules with
    | error err =>
      rw [hparse] at h
      cases h
    | ok decoded => exact ⟨decoded, rfl⟩
  obtain ⟨schedules, hschedules⟩ := hschedules
  rw [← hheld, Desired.held_lookup_iff]
  constructor
  · rintro ⟨specs, _, before, after, hspecs, -, hrest⟩
    rw [hdecoded] at hspecs
    cases hspecs
    exact ⟨before, after, hrest⟩
  · rintro ⟨before, after, hrest⟩
    exact ⟨decoded, schedules, before, after, hdecoded, hschedules, hrest⟩

/-- A spec of an id is held under it, or a later one is. -/
theorem exists_last {decoded : List Spec} {id : String} (h : ∃ spec ∈ decoded, spec.id = id) :
    ∃ before spec after, decoded = before ++ spec :: after ∧ spec.id = id ∧
      ∀ later ∈ after, later.id ≠ id := by
  induction decoded with
  | nil =>
    obtain ⟨spec, hspec, -⟩ := h
    exact absurd hspec List.not_mem_nil
  | cons first decoded ih =>
    by_cases hlater : ∃ spec ∈ decoded, spec.id = id
    · obtain ⟨before, spec, after, rfl, hrest⟩ := ih hlater
      exact ⟨first :: before, spec, after, rfl, hrest⟩
    · obtain ⟨spec, hspec, hid⟩ := h
      rcases List.mem_cons.mp hspec with rfl | hspec
      · exact ⟨[], spec, decoded, rfl, hid, fun later hmem hsame => hlater ⟨later, hmem, hsame⟩⟩
      · exact absurd ⟨spec, hspec, hid⟩ hlater

theorem executes_iff_answers {generation : Int} {specs schedules : Json} {state : RuntimeState}
    (h : applyConfig generation specs schedules = .ok state) {decoded : List Spec}
    (hdecoded : parseSpecs specs = .ok decoded) :
    Executes specs state skill ↔ Answers decoded skill (resolveSpecIdForSkill specs skill) := by
  constructor
  · intro hexecutes
    by_cases hid : ∃ spec ∈ decoded, spec.id = resolveSpecIdForSkill specs skill
    · obtain ⟨before, spec, after, heq, hspec, hlater⟩ := exists_last hid
      have hlookup := (lookup_specs_iff h hdecoded).mpr ⟨before, after, heq, hspec, hlater⟩
      exact .inl ⟨before, spec, after, heq, hspec, hlater,
        executed_iff.mp (hexecutes.runs spec hlookup)⟩
    · refine .inr fun spec hspec => ⟨fun hsame => hid ⟨spec, hspec, hsame⟩, fun hnames => ?_⟩
      obtain ⟨found, hlookup, -⟩ :=
        hexecutes.finds decoded hdecoded ⟨spec, hspec, executed_iff.mpr hnames⟩
      obtain ⟨before, after, rfl, hfound, -⟩ := (lookup_specs_iff h hdecoded).mp hlookup
      exact hid ⟨found, by simp, hfound⟩
  · rintro (⟨before, spec, after, heq, hspec, hlater, hnames⟩ | hnone)
    · have hlookup := (lookup_specs_iff h hdecoded).mpr ⟨before, after, heq, hspec, hlater⟩
      constructor
      · intro found hfound
        rw [hlookup] at hfound
        cases hfound
        exact executed_iff.mpr hnames
      · intro _ _ _
        exact ⟨spec, hlookup, executed_iff.mpr hnames⟩
    · constructor
      · intro found hfound
        obtain ⟨before, after, rfl, hid, -⟩ := (lookup_specs_iff h hdecoded).mp hfound
        exact absurd hid (hnone found (by simp)).1
      · rintro again hagain ⟨spec, hspec, hexecuted⟩
        rw [hdecoded] at hagain
        cases hagain
        exact absurd (executed_iff.mp hexecuted) (hnone spec hspec).2

/-- A push executes the skill, wherever a spec would, exactly when the element at which the center
stops has the id of a spec for the skill that no later spec overwrites. -/
theorem push_executes_iff {generation : Int} {values : List Json} {schedules : Json}
    {state : RuntimeState} (h : applyConfig generation (.arr values) schedules = .ok state)
    {decoded : List Spec} (hdecoded : parseSpecs (.arr values) = .ok decoded) (skill : String) :
    Executes (.arr values) state skill ↔
      (∃ before value after, values = before ++ value :: after ∧
        (∀ earlier ∈ before, ¬ Taken skill earlier) ∧ Taken skill value ∧
          Answers decoded skill (textOf "id" value)) ∨
      (∀ value ∈ values, ¬ Taken skill value) ∧ Answers decoded skill skill := by
  rw [executes_iff_answers h hdecoded]
  show Answers decoded skill (resolveIn skill values) ↔ _
  constructor
  · intro hanswers
    cases hfind : values.find? fun value => Taken skill value with
    | none =>
      have hnone : ∀ value ∈ values, ¬ Taken skill value := by simpa using hfind
      rw [resolveIn_untaken hnone] at hanswers
      exact .inr ⟨hnone, hanswers⟩
    | some value =>
      obtain ⟨htaken, before, after, rfl, hbefore⟩ := List.find?_eq_some_iff_append.mp hfind
      have htaken : Taken skill value := of_decide_eq_true htaken
      have hbefore : ∀ earlier ∈ before, ¬ Taken skill earlier := by simpa using hbefore
      rw [resolveIn_taken hbefore htaken] at hanswers
      exact .inl ⟨before, value, after, rfl, hbefore, htaken, hanswers⟩
  · rintro (⟨before, value, after, rfl, hbefore, htaken, hanswers⟩ | ⟨hnone, hanswers⟩)
    · rw [resolveIn_taken hbefore htaken]
      exact hanswers
    · rw [resolveIn_untaken hnone]
      exact hanswers

end

/-! ### Two configs -/

def scanSpec (id : String) : Json :=
  .obj [("id", .str id), ("kind", .str "skill"), ("params", .obj [("skill", .str "scan")])]

def cpuSpec (id : String) : Json := .obj [("id", .str id), ("kind", .str "cpu")]

def scan (id : String) : Spec := ⟨id, .skill, .obj [("skill", .str "scan")], none⟩

def cpu (id : String) : Spec := ⟨id, .cpu, .null, none⟩

/-- What a node holds of two specs. -/
def holding (first second : Spec) : RuntimeState :=
  ⟨.ofList [(first.id, first), (second.id, second)], [], 1, true⟩

theorem apply_holding (id : String) :
    applyConfig 1 (.arr [cpuSpec id, scanSpec "s1"]) (.arr []) = .ok (holding (cpu id) (scan "s1")) ∧
      parseSpecs (.arr [cpuSpec id, scanSpec "s1"]) = .ok [cpu id, scan "s1"] := ⟨rfl, rfl⟩

theorem push_executes_scan :
    Executes (.arr [cpuSpec "load", scanSpec "s1"]) (holding (cpu "load") (scan "s1")) "scan" :=
  (push_executes_iff (apply_holding "load").1 (apply_holding "load").2 "scan").mpr
    (.inl ⟨[cpuSpec "load"], scanSpec "s1", [], rfl, by decide, by decide,
      .inl ⟨[cpu "load"], scan "s1", [], rfl, rfl, by decide, .inl ⟨rfl, rfl⟩⟩⟩)

/-- A spec that has the skill's name as its id is run in the place of the spec for the skill. -/
theorem push_runs_cpu :
    applyConfig 1 (.arr [cpuSpec "scan", scanSpec "s1"]) (.arr []) =
        .ok (holding (cpu "scan") (scan "s1")) ∧
      ¬ Executes (.arr [cpuSpec "scan", scanSpec "s1"]) (holding (cpu "scan") (scan "s1")) "scan" := by
  refine ⟨rfl, fun h => ?_⟩
  have hcpu : executed (cpu "scan") = some "scan" :=
    h.runs _ ((lookup_specs_iff (apply_holding "scan").1 (apply_holding "scan").2).mpr
      ⟨[], [scan "s1"], rfl, rfl, by decide⟩)
  cases hcpu

end Novbot.Targets.Push
