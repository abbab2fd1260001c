import Novbot.Config.Spec

/-!
# What a spec runs

`execute_spec` of the node: a spec of kind `skill` or `mcp_tool` that names a skill which
is not built in is run by the skill host, every other spec by its probe.
-/

namespace Novbot.Config

/-- Names of the built-in skills. -/
def listSkills : List String := ["host_info", "echo", "env_get"]

def isBuiltin (name : String) : Bool := listSkills.contains name

/-- The name and the arguments that the parameters of a spec give. -/
def skillFromParams (kindIsMcp : Bool) (params : Json) : Except String (String × Json) :=
  let arguments := (params.get "arguments").getD (.obj [])
  if kindIsMcp then
    match (params.get "tool").bind Json.asStr with
    | some tool => .ok (tool, arguments)
    | none => .error "mcp_tool requires params.tool"
  else
    match (params.get "skill").bind Json.asStr with
    | some skill =>
      let others := (params.asObject.getD []).filter fun member =>
        member.1 ≠ "skill" && member.1 ≠ "arguments"
      if arguments.asObject.all List.isEmpty && !others.isEmpty then .ok (skill, .obj others)
      else .ok (skill, arguments)
    | none => .error "skill requires params.skill"

/-- Skill arguments are `params.arguments`, or else the other parameters. -/
def hubArguments (params : Json) : Json :=
  match params.get "arguments" with
  | some arguments => arguments
  | none =>
    .obj ((params.asObject.getD []).filter fun member =>
      !(["skill", "tool", "version", "arguments"].contains member.1))

/-- A run of an installed skill. -/
structure HubRun where
  name : String
  version : Option Json
  arguments : Json

inductive Execution where
  /-- The skill host runs an installed skill. -/
  | runHub (run : HubRun)
  /-- `run_probe`. -/
  | probe

def executeSpec (spec : Spec) : Execution :=
  match spec.kind with
  | .skill | .mcpTool =>
    match skillFromParams (spec.kind = .mcpTool) spec.params with
    | .ok (name, _) =>
      if isBuiltin name then .probe
      else .runHub ⟨name, spec.params.get "version", hubArguments spec.params⟩
    | .error _ => .probe
  | _ => .probe

/-- The spec runs an installed skill of this name. -/
def Spec.Runs (spec : Spec) (name : String) : Prop :=
  ∃ run, executeSpec spec = .runHub run ∧ run.name = name

theorem skillFromParams_fst {kindIsMcp : Bool} {params : Json} {name : String} :
    (∃ arguments, skillFromParams kindIsMcp params = .ok (name, arguments)) ↔
      (params.get (if kindIsMcp then "tool" else "skill")).bind Json.asStr = some name := by
  cases kindIsMcp with
  | true =>
    simp only [skillFromParams, if_true]
    cases (params.get "tool").bind Json.asStr with
    | none =>
      refine iff_of_false ?_ nofun
      rintro ⟨arguments, h⟩
      cases h
    | some tool => simp
  | false =>
    simp only [skillFromParams, Bool.false_eq_true, if_false]
    cases (params.get "skill").bind Json.asStr with
    | none =>
      refine iff_of_false ?_ nofun
      rintro ⟨arguments, h⟩
      cases h
    | some skill =>
      dsimp only
      split
      · simp
      · simp

/-- Which specs run a skill. -/
theorem runs_iff {spec : Spec} {name : String} :
    spec.Runs name ↔ isBuiltin name = false ∧
      ((spec.kind = .skill ∧ (spec.params.get "skill").bind Json.asStr = some name) ∨
        spec.kind = .mcpTool ∧ (spec.params.get "tool").bind Json.asStr = some name) := by
  have hrun : ∀ mcp : Bool, (∃ run, (match skillFromParams mcp spec.params with
        | .ok (name, _) =>
          if isBuiltin name then Execution.probe
          else .runHub ⟨name, spec.params.get "version", hubArguments spec.params⟩
        | .error _ => .probe) = .runHub run ∧ run.name = name) ↔
      isBuiltin name = false ∧ ∃ arguments, skillFromParams mcp spec.params = .ok (name, arguments) := by
    intro mcp
    constructor
    · rintro ⟨run, hrun, rfl⟩
      split at hrun
      · next found arguments hfound =>
        split at hrun
        · cases hrun
        · next hbuiltin =>
          cases hrun
          exact ⟨Bool.eq_false_iff.mpr hbuiltin, arguments, hfound⟩
      · cases hrun
    · rintro ⟨hbuiltin, arguments, hfound⟩
      rw [hfound]
      dsimp only
      rw [hbuiltin]
      exact ⟨_, rfl, rfl⟩
  unfold Spec.Runs executeSpec
  cases hkind : spec.kind with
  | skill =>
    refine (hrun false).trans (and_congr Iff.rfl (skillFromParams_fst.trans ?_))
    simp
  | mcpTool =>
    refine (hrun true).trans (and_congr Iff.rfl (skillFromParams_fst.trans ?_))
    simp
  | _ => simp

end Novbot.Config
