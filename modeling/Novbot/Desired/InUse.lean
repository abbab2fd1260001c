import Novbot.Config.Execute
import Novbot.Schedules.Tables

/-!
# Skills in use

The guard of an uninstall looks for specs that name the skill in the configs of the nodes
(`skill_in_use`).  It knows a spec by the text `skill` as its kind and by `params.skill`,
where the node also runs MCP tools, kinds written as objects and specs written by
position, and holds only the last spec of an id.
-/

namespace Novbot.Desired

open Schedules (Config)
open Novbot.Config (Spec Schedule applyConfig isBuiltin)

/-! ## The guard -/

def pushUnique (out : List String) (value : String) : List String :=
  if value ≠ "" && !out.contains value then out ++ [value] else out

/-- The center takes a spec for one that uses the skill. -/
def namesSkill (skillName : String) (spec : Json) : Bool :=
  (spec.get "kind").bind Json.asStr = some "skill" &&
    ((spec.get "params").bind fun params => params.get "skill").bind Json.asStr = some skillName

def collectSpecIds (specs : Json) (skillName : String) (specIds : List String) : List String :=
  ((specs.asArray.getD []).filter (namesSkill skillName)).foldl (fun specIds spec =>
    match (spec.get "id").bind Json.asStr with
    | some id => pushUnique specIds id
    | none => specIds) specIds

def collectScheduleIds (schedules : Json) (specIds scheduleIds : List String) : List String :=
  (schedules.asArray.getD []).foldl (fun scheduleIds schedule =>
    match (schedule.get "spec_id").bind Json.asStr with
    | none => scheduleIds
    | some specId =>
      if !specIds.contains specId then scheduleIds
      else
        match ((schedule.get "id").bind Json.asStr).filter (· ≠ "") with
        | some id => pushUnique scheduleIds id
        | none => pushUnique scheduleIds specId) scheduleIds

/-- The rows are those of the nodes that are there. -/
def skillInUse (rows : List (Option Config)) (skillName : String) : List String × List String :=
  let configs := rows.filterMap id
  let specIds := configs.foldl (fun specIds config =>
    collectSpecIds config.specs skillName specIds) []
  (specIds, configs.foldl (fun scheduleIds config =>
    collectScheduleIds config.schedules specIds scheduleIds) [])

inductive Refusal where
  | builtinReadOnly
  | skillInUse (specIds scheduleIds : List String)
  deriving DecidableEq, Repr

/-- What an uninstall checks of the specs. -/
def guardUninstall (rows : List (Option Config)) (skillName : String) (force : Bool) :
    Except Refusal Unit :=
  if isBuiltin skillName then .error .builtinReadOnly
  else if force then .ok ()
  else
    let (specIds, scheduleIds) := skillInUse rows skillName
    if specIds.isEmpty then .ok () else .error (.skillInUse specIds scheduleIds)

/-! ## What it finds -/

/-- A spec of a document names the skill, under an id that is not empty. -/
def Named (specs : Json) (skillName id : String) : Prop :=
  id ≠ "" ∧ ∃ spec ∈ specs.asArray.getD [], namesSkill skillName spec = true ∧
    (spec.get "id").bind Json.asStr = some id

theorem mem_pushUnique {out : List String} {value id : String} :
    id ∈ pushUnique out value ↔ id ∈ out ∨ id ≠ "" ∧ id = value := by
  unfold pushUnique
  by_cases hvalue : value = ""
  · subst hvalue
    refine ⟨.inl, ?_⟩
    rintro (hmem | ⟨hne, rfl⟩)
    · exact hmem
    · exact absurd rfl hne
  · cases hout : out.contains value with
    | true =>
      rw [if_neg (by simp)]
      refine ⟨.inl, ?_⟩
      rintro (hmem | ⟨-, rfl⟩)
      · exact hmem
      · exact List.contains_iff_mem.mp hout
    | false =>
      rw [if_pos (by simp [hvalue]), List.mem_append, List.mem_singleton]
      refine or_congr Iff.rfl ⟨fun heq => ⟨heq ▸ hvalue, heq⟩, fun h => h.2⟩

theorem mem_collectSpecIds {specs : Json} {skillName id : String} {specIds : List String} :
    id ∈ collectSpecIds specs skillName specIds ↔ id ∈ specIds ∨ Named specs skillName id := by
  have hfold : ∀ (items : List Json) (specIds : List String),
      id ∈ items.foldl (fun specIds spec =>
        match (spec.get "id").bind Json.asStr with
        | some id => pushUnique specIds id
        | none => specIds) specIds ↔
      id ∈ specIds ∨ id ≠ "" ∧ ∃ spec ∈ items, (spec.get "id").bind Json.asStr = some id := by
    intro items
    induction items with
    | nil => simp
    | cons spec items ih =>
      intro specIds
      rw [List.foldl_cons, ih]
      cases hid : (spec.get "id").bind Json.asStr with
      | none => simp [hid]
      | some found =>
        dsimp only
        rw [mem_pushUnique, or_assoc]
        refine or_congr Iff.rfl ⟨?_, ?_⟩
        · rintro (⟨hne, rfl⟩ | ⟨hne, other, hother, hsome⟩)
          · exact ⟨hne, spec, List.mem_cons_self, hid⟩
          · exact ⟨hne, other, .tail _ hother, hsome⟩
        · rintro ⟨hne, other, hother, hsome⟩
          rcases List.mem_cons.mp hother with rfl | hother
          · rw [hid] at hsome
            exact .inl ⟨hne, (Option.some.inj hsome).symm⟩
          · exact .inr ⟨hne, other, hother, hsome⟩
  unfold collectSpecIds Named
  rw [hfold]
  refine or_congr Iff.rfl (and_congr Iff.rfl (exists_congr fun spec => ?_))
  rw [List.mem_filter, and_assoc]

theorem mem_skillInUse {rows : List (Option Config)} {skillName id : String} :
    id ∈ (skillInUse rows skillName).1 ↔
      ∃ config, some config ∈ rows ∧ Named config.specs skillName id := by
  have hfold : ∀ (configs : List Config) (specIds : List String),
      id ∈ configs.foldl (fun specIds config =>
        collectSpecIds config.specs skillName specIds) specIds ↔
      id ∈ specIds ∨ ∃ config ∈ configs, Named config.specs skillName id := by
    intro configs
    induction configs with
    | nil => simp
    | cons config configs ih =>
      intro specIds
      rw [List.foldl_cons, ih, mem_collectSpecIds, or_assoc, List.exists_mem_cons_iff]
  refine (hfold _ _).trans ?_
  simp [List.mem_filterMap]

/-- Without force an uninstall is refused for the specs that are found. -/
theorem guardUninstall_error_iff {rows : List (Option Config)} {skillName : String}
    (hbuiltin : isBuiltin skillName = false) :
    (∃ refusal, guardUninstall rows skillName false = .error refusal) ↔
      ∃ config id, some config ∈ rows ∧ Named config.specs skillName id := by
  unfold guardUninstall
  rw [hbuiltin, if_neg Bool.false_ne_true, if_neg Bool.false_ne_true]
  dsimp only
  constructor
  · rintro ⟨refusal, hrefused⟩
    split at hrefused
    · cases hrefused
    · next hsome =>
      cases hids : (skillInUse rows skillName).1 with
      | nil => exact absurd (by rw [hids]; rfl) hsome
      | cons id ids =>
        have hmem : id ∈ (skillInUse rows skillName).1 := by rw [hids]; exact List.mem_cons_self
        obtain ⟨config, hconfig, hnamed⟩ := mem_skillInUse.mp hmem
        exact ⟨config, id, hconfig, hnamed⟩
  · rintro ⟨config, id, hconfig, hnamed⟩
    have hmem : id ∈ (skillInUse rows skillName).1 := mem_skillInUse.mpr ⟨config, hconfig, hnamed⟩
    rw [if_neg (by rw [List.isEmpty_iff]; exact List.ne_nil_of_mem hmem)]
    exact ⟨_, rfl⟩

/-! ## What the node runs -/

/-- The specs that the node holds of a config, by their ids. -/
def held (config : Config) : SortedMap String Spec :=
  match applyConfig config.generation config.specs config.schedules with
  | .ok state => state.specs
  | .error _ => .empty

/-- The node runs the skill for a spec of this id. -/
def RunsFor (config : Config) (id skillName : String) : Prop :=
  ∃ spec, (held config).lookup id = some spec ∧ spec.Runs skillName

theorem held_lookup_iff {config : Config} {id : String} {spec : Spec} :
    (held config).lookup id = some spec ↔
      ∃ specs schedules before after, Novbot.Config.parseSpecs config.specs = .ok specs ∧
        Novbot.Config.parseSchedules config.schedules = .ok schedules ∧
        specs = before ++ spec :: after ∧ spec.id = id ∧ ∀ later ∈ after, later.id ≠ id := by
  unfold held applyConfig
  cases Novbot.Config.parseSpecs config.specs with
  | error err =>
    refine iff_of_false nofun ?_
    rintro ⟨specs, schedules, before, after, hspecs, -⟩
    cases hspecs
  | ok specs =>
    cases Novbot.Config.parseSchedules config.schedules with
    | error err =>
      refine iff_of_false nofun ?_
      rintro ⟨specs, schedules, before, after, -, hschedules, -⟩
      cases hschedules
    | ok schedules =>
      refine SortedMap.lookup_ofList_eq_some_iff.trans ⟨?_, ?_⟩
      · rintro ⟨before, after, heq, hlater⟩
        obtain ⟨first, rest, rfl, rfl, hrest⟩ := List.map_eq_append_iff.mp heq
        obtain ⟨found, after, rfl, hfound, rfl⟩ := List.map_eq_cons_iff.mp hrest
        cases hfound
        exact ⟨_, schedules, first, after, rfl, rfl, rfl, rfl,
          fun later hmem => hlater (later.id, later) (List.mem_map_of_mem hmem)⟩
      · rintro ⟨_, _, before, after, hspecs, -, rfl, rfl, hlater⟩
        cases hspecs
        refine ⟨before.map fun spec => (spec.id, spec), after.map fun spec => (spec.id, spec),
          by simp, fun later hmem => ?_⟩
        obtain ⟨found, hfound, rfl⟩ := List.mem_map.mp hmem
        exact hlater found hfound

/-- A document that writes the kind of a spec as something else than the text `skill`, or
its id as empty, hides the spec from the center. -/
def Hidden (spec : Json) : Prop :=
  (spec.get "kind").bind Json.asStr ≠ some "skill" ∨ (spec.get "id").bind Json.asStr = some ""

theorem string_eq_ok {value : Json} {text : String} (h : Json.string value = .ok text) :
    value = .str text := by
  cases value with
  | str found =>
    cases h
    rfl
  | _ => cases h

/-- What is read of a field of an object. -/
theorem required_eq_ok {α : Type} {members : List (String × Json)} {name : String}
    {decode : Json.Decoder α} {found : α}
    (h : Json.required (fun name => members.lookup name) name decode = .ok found) :
    ∃ value, (Json.obj members).get name = some value ∧ decode value = .ok found := by
  unfold Json.required at h
  split at h
  · next value hvalue => exact ⟨value, hvalue, h⟩
  · cases h

theorem params_eq {members : List (String × Json)} {params : Json}
    (h : Json.orDefault (fun name => members.lookup name) "params" Json.any .null = .ok params)
    (name : String) :
    params.get name = ((Json.obj members).get "params").bind fun params => params.get name := by
  have hparams : params = (((Json.obj members).get "params").getD .null) := by
    unfold Json.orDefault at h
    split at h
    · next value hvalue =>
      have hvalue : (Json.obj members).get "params" = some value := hvalue
      rw [hvalue]
      exact (Except.ok.inj h).symm
    · next hnone =>
      cases h
      have hnone : (Json.obj members).get "params" = none := hnone
      rw [hnone]
      rfl
  rw [hparams]
  cases (Json.obj members).get "params" with
  | none => rfl
  | some value => rfl

/-- A spec in plain sight: the center finds it exactly when the node runs it. -/
theorem namesSkill_iff_runs {value : Json} {spec : Spec} {skillName : String}
    (hdecode : Spec.decode value = .ok spec) (hbuiltin : isBuiltin skillName = false)
    (hkind : (value.get "kind").bind Json.asStr = some "skill") :
    (namesSkill skillName value = true ↔ spec.Runs skillName) ∧
      (value.get "id").bind Json.asStr = some spec.id := by
  cases value with
  | obj members =>
    obtain ⟨hid, hspecKind, hparams, -⟩ := Novbot.Config.Spec.decode_obj_iff.mp hdecode
    obtain ⟨kind, hkindValue, hvariant⟩ := required_eq_ok hspecKind
    obtain ⟨id, hidValue, hstring⟩ := required_eq_ok hid
    rw [hkindValue, Option.bind_some] at hkind
    have hskill : spec.kind = .skill := by
      cases kind with
      | str text =>
        cases hkind
        exact (Except.ok.inj hvariant).symm
      | _ => cases hkind
    constructor
    · rw [Novbot.Config.runs_iff, hskill, params_eq hparams "skill", namesSkill, hkindValue]
      cases kind with
      | str text =>
        cases hkind
        simp [Json.asStr, hbuiltin]
      | _ => cases hkind
    · rw [hidValue, string_eq_ok hstring]
      rfl
  | null => cases hkind
  | bool b => cases hkind
  | int n => cases hkind
  | float text => cases hkind
  | str s => cases hkind
  | arr items => cases hkind

/-- A spec that the node runs is found by the center, or hidden from it. -/
theorem named_of_runs {value : Json} {specs : Json} {spec : Spec} {skillName : String}
    (hmem : value ∈ specs.asArray.getD []) (hdecode : Spec.decode value = .ok spec)
    (hruns : spec.Runs skillName) (hplain : ¬ Hidden value) : Named specs skillName spec.id := by
  unfold Hidden at hplain
  rw [not_or, not_not] at hplain
  obtain ⟨hiff, hid⟩ := namesSkill_iff_runs hdecode (Novbot.Config.runs_iff.mp hruns).1 hplain.1
  refine ⟨fun hempty => ?_, value, hmem, hiff.mpr hruns, hid⟩
  rw [hempty] at hid
  exact hplain.2 hid

/-! ## Agreement -/

/-- An uninstall is refused when a target node would run the skill, and each spec that it is
refused for is one for which the node would. -/
structure Guards (rows : List (Option Config)) (skillName : String) : Prop where
  refused : ∀ config id, some config ∈ rows → RunsFor config id skillName →
    ∃ refusal, guardUninstall rows skillName false = .error refusal
  founded : ∀ specIds scheduleIds,
    guardUninstall rows skillName false = .error (.skillInUse specIds scheduleIds) →
    ∀ config id, some config ∈ rows → id ∈ collectSpecIds config.specs skillName [] →
      RunsFor config id skillName

/-- The documents of the target nodes say what the center reads in them: a spec that runs
the skill out of its sight has company in plain sight, and a document with a spec in plain
sight decodes and has no later spec of that id for something else. -/
structure Plain (rows : List (Option Config)) (skillName : String) : Prop where
  visible : ∀ config id spec value, some config ∈ rows → (held config).lookup id = some spec →
    value ∈ config.specs.asArray.getD [] → Spec.decode value = .ok spec → Hidden value →
    spec.Runs skillName → ∃ config' id', some config' ∈ rows ∧ Named config'.specs skillName id'
  current : ∀ config id, some config ∈ rows → Named config.specs skillName id →
    ∃ specs schedules before spec after, Novbot.Config.parseSpecs config.specs = .ok specs ∧
      Novbot.Config.parseSchedules config.schedules = .ok schedules ∧
      specs = before ++ spec :: after ∧ spec.id = id ∧ (∀ later ∈ after, later.id ≠ id) ∧
      spec.Runs skillName

end Novbot.Desired
