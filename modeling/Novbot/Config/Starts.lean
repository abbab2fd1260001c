import Novbot.Config.File
import Novbot.Lib.Check
import Novbot.Lib.Utf8

/-!
# Starts of a node on one data directory

`load_node_config`: the settings of a start come from the command line, the environment and the
config file, and an id that is not set from the data directory, where a start that finds none writes
one.  Writing may fail, and the process may stop, after any number of bytes.

All starts that take the id from the directory take the same one (`starts_agree`), and nothing but
the token depends on the token.

The library that reads addresses is a parameter, and so is what a start finds in the config file.
-/

namespace Novbot.Config.Starts

open Text Check
open File (FileConfig)

/-! ## Settings -/

inductive Source where
  | cli
  | env
  | file
  | dataDirPersisted
  | dataDirGenerated
  | default
  deriving DecidableEq

structure Resolved (α : Type) where
  value : α
  source : Source

/-- `http::uri::Authority`. -/
structure Authority where
  text : String
  host : String

/-- `http::Uri`. -/
structure Uri where
  scheme : Option String
  authority : Option Authority
  path : String
  query : Option String

structure CenterAddr where
  uri : String
  host : String
  port : Nat

inductive ConfigError where
  | missing (what flag env : String)
  | invalidCenterAddr (value reason : String)
  | configFile (err : File.ConfigError)
  | invalidAllowExec (value : String)
  | nodeIdUnavailable (reason : String)

structure CliValues where
  centerGrpc : Option String
  nodeId : Option String
  bootstrapToken : Option String
  allowExec : Bool

structure NodeConfig where
  centerGrpc : Resolved CenterAddr
  nodeId : Resolved String
  bootstrapToken : Option (Resolved String)
  configFile : Option String
  allowExec : Resolved Bool

def nonempty (value : Option String) : Option String :=
  (value.map fun raw => String.ofList (trim raw.toList)).filter (· ≠ "")

def pick (cli env file : Option String) : Option (Resolved String) :=
  match nonempty cli with
  | some value => some ⟨value, .cli⟩
  | none =>
    match nonempty env with
    | some value => some ⟨value, .env⟩
    | none => (nonempty file).map (⟨·, .file⟩)

def resolveAllowExec (cliFlag : Bool) (env : String → Option String) :
    Except ConfigError (Resolved Bool) :=
  if cliFlag then return ⟨true, .cli⟩
  else
    match nonempty (env "NOVBOT_ALLOW_EXEC") with
    | none => return ⟨false, .default⟩
    | some value =>
      let folded := String.ofList (value.toList.map toAsciiLowercase)
      if folded ∈ ["1", "true", "yes", "on"] then return ⟨true, .env⟩
      else if folded ∈ ["0", "false", "no", "off"] then return ⟨false, .env⟩
      else throw (.invalidAllowExec value)

/-! ## The address of the center -/

def stripIpv6Brackets (host : List Char) : List Char :=
  match host with
  | '[' :: rest => if rest.getLast? = some ']' then rest.dropLast else host
  | _ => host

/-- What stands behind the last of the separators, or the whole text. -/
def behindLast (sep : Char) (text : List Char) : List Char :=
  (text.reverse.takeWhile (· ≠ sep)).reverse

/-- The colons of an IPv6 host are not taken for that of the port. -/
def portText (authority : List Char) : Option (List Char) :=
  match behindLast '@' authority with
  | '[' :: rest =>
    match splitOnce ']' rest with
    | some (_, ':' :: port) => some port
    | _ => none
  | hostPort => (splitOnce ':' hostPort).map Prod.snd

def parsePort (value : String) (authority : List Char) : Except ConfigError Nat :=
  match (portText authority).filter (· ≠ []) with
  | none => throw (.invalidCenterAddr value "missing explicit port")
  | some text =>
    match parseUnsigned 16 text with
    | none => throw (.invalidCenterAddr value
        ("invalid port `" ++ String.ofList text ++ "`, expected a number in 1..=65535"))
    | some 0 => throw (.invalidCenterAddr value "port must be in 1..=65535")
    | some port => return port

def checkScheme (value : String) : Option String → Except ConfigError Unit
  | some scheme =>
    if scheme = "http" ∨ scheme = "https" then return ()
    else throw (.invalidCenterAddr value
      ("unsupported scheme `" ++ scheme ++ "`, expected http or https"))
  | none => throw (.invalidCenterAddr value "missing scheme, expected http or https")

section
variable (parse : String → Except String Uri)

def validateCenterAddr (raw : String) : Except ConfigError CenterAddr := do
  let value := String.ofList (trim raw.toList)
  if value = "" then throw (.invalidCenterAddr value "address is empty")
  let uri ← (parse value).mapError fun err =>
    .invalidCenterAddr value ("not a valid URI (" ++ err ++ ")")
  checkScheme value uri.scheme
  match uri.authority.filter (·.text ≠ "") with
  | none => throw (.invalidCenterAddr value "missing host")
  | some authority =>
    let host := stripIpv6Brackets authority.host.toList
    if host = [] then throw (.invalidCenterAddr value "missing host")
    let port ← parsePort value authority.text.toList
    if uri.path ≠ "" ∧ uri.path ≠ "/" then
      throw (.invalidCenterAddr value ("path `" ++ uri.path ++ "` is not allowed"))
    if uri.query.isSome then throw (.invalidCenterAddr value "query string is not allowed")
    if '#' ∈ value.toList then throw (.invalidCenterAddr value "fragment is not allowed")
    return ⟨value, String.ofList host, port⟩

end

/-! ## The data directory -/

/-- The bytes of the file with the id. -/
structure Disk where
  nodeId : Option (List UInt8)

/-- The text of a random UUID. -/
structure Uuid where
  text : List Char
  visible : ∀ c ∈ text, isWhiteSpace c = false
  ascii : ∀ c ∈ text, c.toNat < 0x80

theorem visible_of_all {text : List Char} (h : text.all (fun c => !isWhiteSpace c) = true) :
    ∀ c ∈ text, isWhiteSpace c = false := fun c hc =>
  (Bool.not_eq_true' _).mp (List.all_eq_true.mp h c hc)

theorem ascii_of_all {text : List Char} (h : text.all (fun c => decide (c.toNat < 0x80)) = true) :
    ∀ c ∈ text, c.toNat < 0x80 := fun c hc => of_decide_eq_true (List.all_eq_true.mp h c hc)

/-- How the write of an id ends. -/
inductive Write where
  | whole
  /-- The file is not opened. -/
  | refused (reason : String)
  /-- It fails after so many bytes. -/
  | failed (count : Nat) (reason : String)
  /-- The process stops after so many bytes. -/
  | stopped (count : Nat)

/-- What a start meets at the data directory. -/
structure Attempt where
  readError : Option String
  createError : Option String
  uuid : Uuid
  write : Write

def generatedId (uuid : Uuid) : List Char := "node-".toList ++ uuid.text

/-- Nothing, when the process stops. -/
abbrev Outcome (α : Type) := Option (Except ConfigError α)

def generateNodeId (attempt : Attempt) (disk : Disk) : Outcome (Resolved String) × Disk :=
  match attempt.createError with
  | some reason => (some (.error (.nodeIdUnavailable reason)), disk)
  | none =>
    let bytes := utf8 (generatedId attempt.uuid)
    match attempt.write with
    | .whole =>
      (some (.ok ⟨String.ofList (generatedId attempt.uuid), .dataDirGenerated⟩), ⟨some bytes⟩)
    | .refused reason => (some (.error (.nodeIdUnavailable reason)), disk)
    | .failed count reason =>
      (some (.error (.nodeIdUnavailable reason)), ⟨some (bytes.take count)⟩)
    | .stopped count => (none, ⟨some (bytes.take count)⟩)

def nodeIdFromDataDir (attempt : Attempt) (disk : Disk) : Outcome (Resolved String) × Disk :=
  match disk.nodeId with
  | none => generateNodeId attempt disk
  | some bytes =>
    match attempt.readError with
    | some reason => (some (.error (.nodeIdUnavailable reason)), disk)
    | none =>
      match fromUtf8 bytes with
      | none =>
        (some (.error (.nodeIdUnavailable "stream did not contain valid UTF-8")), disk)
      | some text =>
        if trim text = [] then generateNodeId attempt disk
        else (some (.ok ⟨String.ofList (trim text), .dataDirPersisted⟩), disk)

/-! ## Starts -/

structure Start where
  cli : CliValues
  env : String → Option String
  /-- The config file with what `load_file_config` gives. -/
  file : Option (String × Except File.ConfigError FileConfig)
  attempt : Attempt

/-- The settings that are resolved before the data directory is touched. -/
structure Settings where
  centerGrpc : Resolved CenterAddr
  allowExec : Resolved Bool
  nodeId : Option (Resolved String)

section
variable (parse : String → Except String Uri)

def Start.fileConfig (start : Start) : Except ConfigError (Option FileConfig) :=
  match start.file with
  | none => return none
  | some (_, .ok config) => return some config
  | some (_, .error err) => throw (.configFile err)

def Start.centerGrpc (start : Start) (file : Option FileConfig) :
    Except ConfigError (Resolved CenterAddr) :=
  match pick start.cli.centerGrpc (start.env "NOVBOT_CENTER_GRPC") (file.bind (·.centerGrpc)) with
  | some raw => (validateCenterAddr parse raw.value).map (⟨·, raw.source⟩)
  | none => throw (.missing "center gRPC address" "--center-grpc" "NOVBOT_CENTER_GRPC")

def Start.settings (start : Start) (file : Option FileConfig) : Except ConfigError Settings := do
  let centerGrpc ← start.centerGrpc parse file
  let allowExec ← resolveAllowExec start.cli.allowExec start.env
  return ⟨centerGrpc, allowExec,
    pick start.cli.nodeId (start.env "NOVBOT_NODE_ID") (file.bind (·.nodeId))⟩

def Start.token (start : Start) (file : Option FileConfig) : Option (Resolved String) :=
  pick start.cli.bootstrapToken (start.env "NOVBOT_BOOTSTRAP_TOKEN") (file.bind (·.bootstrapToken))

def Start.config (start : Start) (file : Option FileConfig) (settings : Settings)
    (nodeId : Resolved String) : NodeConfig where
  centerGrpc := settings.centerGrpc
  nodeId
  bootstrapToken := start.token file
  configFile := start.file.map Prod.fst
  allowExec := settings.allowExec

/-- `resolve`, after the file was read. -/
def Start.resolve (start : Start) (file : Option FileConfig) (disk : Disk) :
    Outcome NodeConfig × Disk :=
  match start.settings parse file with
  | .error err => (some (.error err), disk)
  | .ok settings =>
    match settings.nodeId with
    | some nodeId => (some (.ok (start.config file settings nodeId)), disk)
    | none =>
      let (outcome, disk) := nodeIdFromDataDir start.attempt disk
      (outcome.map fun result => result.map (start.config file settings), disk)

/-- `load_node_config`. -/
def Start.run (start : Start) (disk : Disk) : Outcome NodeConfig × Disk :=
  match start.fileConfig with
  | .error err => (some (.error err), disk)
  | .ok file => start.resolve parse file disk

/-- The starts one after another. -/
def life : List Start → Disk → List (Outcome NodeConfig) × Disk
  | [], disk => ([], disk)
  | start :: starts, disk =>
    let (outcome, disk) := start.run parse disk
    let (outcomes, disk) := life starts disk
    (outcome :: outcomes, disk)

end

/-! ## The id in the data directory -/

/-- The id that a start would take. -/
def Disk.held (disk : Disk) : Option (List Char) :=
  ((disk.nodeId.bind fromUtf8).map trim).filter (· ≠ [])

/-- The value was taken from the data directory. -/
def Source.fromDataDir : Source → Bool
  | .dataDirPersisted => true
  | .dataDirGenerated => true
  | _ => false

theorem fromDataDir_pick {cli env file : Option String} {found : Resolved String}
    (h : pick cli env file = some found) : found.source.fromDataDir = false := by
  rw [pick] at h
  cases hcli : nonempty cli with
  | some value =>
    rw [hcli] at h
    cases h
    rfl
  | none =>
    rw [hcli] at h
    cases henv : nonempty env with
    | some value =>
      rw [henv] at h
      cases h
      rfl
    | none =>
      rw [henv] at h
      obtain ⟨value, -, rfl⟩ := Option.map_eq_some_iff.mp h
      rfl

theorem visible_generatedId (uuid : Uuid) : ∀ c ∈ generatedId uuid, isWhiteSpace c = false := by
  have hnode : ∀ c ∈ "node-".toList, isWhiteSpace c = false := visible_of_all rfl
  intro c hc
  rcases List.mem_append.mp hc with hc | hc
  · exact hnode c hc
  · exact uuid.visible c hc

theorem ascii_generatedId (uuid : Uuid) : ∀ c ∈ generatedId uuid, c.toNat < 0x80 := by
  have hnode : ∀ c ∈ "node-".toList, c.toNat < 0x80 := ascii_of_all rfl
  intro c hc
  rcases List.mem_append.mp hc with hc | hc
  · exact hnode c hc
  · exact uuid.ascii c hc

/-- The first bytes of ASCII text are those of its first characters. -/
theorem take_utf8_ascii {cs : List Char} (h : ∀ c ∈ cs, c.toNat < 0x80) (count : Nat) :
    (utf8 cs).take count = utf8 (cs.take count) := by
  induction cs generalizing count with
  | nil => rw [utf8_nil, List.take_nil, List.take_nil, utf8_nil]
  | cons c cs ih =>
    rw [utf8_cons, utf8EncodeChar_ascii (h c List.mem_cons_self), List.singleton_append]
    cases count with
    | zero => rfl
    | succ count =>
      rw [List.take_succ_cons, List.take_succ_cons, ih (fun d hd => h d (.tail _ hd)), utf8_cons,
        utf8EncodeChar_ascii (h c List.mem_cons_self), List.singleton_append]

/-- What is held after some of the bytes of an id were written. -/
theorem held_take (uuid : Uuid) (count : Nat) :
    Disk.held ⟨some ((utf8 (generatedId uuid)).take count)⟩ =
      (some ((generatedId uuid).take count)).filter (· ≠ []) := by
  rw [Disk.held, Option.bind_some, take_utf8_ascii (ascii_generatedId uuid), fromUtf8_utf8,
    Option.map_some, trim_word fun c hc => visible_generatedId uuid c (List.mem_of_mem_take hc)]

theorem held_whole (uuid : Uuid) :
    Disk.held ⟨some (utf8 (generatedId uuid))⟩ = some (generatedId uuid) := by
  rw [Disk.held, Option.bind_some, fromUtf8_utf8, Option.map_some, trim_word (visible_generatedId uuid)]
  rfl

/-- A start that writes an id: what it leaves is a part of the id, and it goes on only with all of
it. -/
theorem generateNodeId_cases (attempt : Attempt) {disk after : Disk} {outcome : Outcome (Resolved String)}
    (h : generateNodeId attempt disk = (outcome, after)) :
    (after = disk ∧ ∀ nodeId, outcome ≠ some (.ok nodeId)) ∨
    (after.held = some (generatedId attempt.uuid) ∧ attempt.write = .whole ∧
      outcome = some (.ok ⟨String.ofList (generatedId attempt.uuid), .dataDirGenerated⟩)) ∨
    (∃ count, after.held = (some ((generatedId attempt.uuid).take count)).filter (· ≠ []) ∧
      attempt.write ≠ .whole ∧ ∀ nodeId, outcome ≠ some (.ok nodeId)) := by
  rw [generateNodeId] at h
  cases hcreate : attempt.createError with
  | some reason =>
    rw [hcreate] at h
    cases h
    exact .inl ⟨rfl, fun _ heq => nomatch heq⟩
  | none =>
    rw [hcreate] at h
    dsimp only at h
    cases hwrite : attempt.write with
    | whole =>
      rw [hwrite] at h
      cases h
      exact .inr (.inl ⟨held_whole attempt.uuid, rfl, rfl⟩)
    | refused reason =>
      rw [hwrite] at h
      cases h
      exact .inl ⟨rfl, fun _ heq => nomatch heq⟩
    | failed count reason =>
      rw [hwrite] at h
      cases h
      exact .inr (.inr ⟨count, held_take attempt.uuid count, Write.noConfusion, fun _ heq => nomatch heq⟩)
    | stopped count =>
      rw [hwrite] at h
      cases h
      exact .inr (.inr ⟨count, held_take attempt.uuid count, Write.noConfusion, fun _ heq => nomatch heq⟩)

/-- A start that finds an id takes it or fails, and leaves it there. -/
theorem nodeIdFromDataDir_held {attempt : Attempt} {disk after : Disk} {id : List Char}
    {outcome : Outcome (Resolved String)} (hheld : disk.held = some id)
    (h : nodeIdFromDataDir attempt disk = (outcome, after)) :
    after = disk ∧ ∀ nodeId, outcome = some (.ok nodeId) →
      nodeId = ⟨String.ofList id, .dataDirPersisted⟩ := by
  obtain ⟨hmap, hne⟩ := Option.filter_eq_some_iff.mp hheld
  obtain ⟨text, hread, rfl⟩ := Option.map_eq_some_iff.mp hmap
  obtain ⟨bytes, hbytes, htext⟩ := Option.bind_eq_some_iff.mp hread
  rw [nodeIdFromDataDir, hbytes] at h
  dsimp only at h
  cases hfails : attempt.readError with
  | some reason =>
    rw [hfails] at h
    cases h
    exact ⟨rfl, fun _ heq => nomatch heq⟩
  | none =>
    rw [hfails] at h
    dsimp only at h
    rw [htext] at h
    dsimp only at h
    rw [if_neg (of_decide_eq_true hne)] at h
    cases h
    refine ⟨rfl, fun nodeId heq => ?_⟩
    cases heq
    rfl

/-- A start that finds none writes one or fails. -/
theorem nodeIdFromDataDir_free {attempt : Attempt} {disk after : Disk}
    {outcome : Outcome (Resolved String)} (hheld : disk.held = none)
    (h : nodeIdFromDataDir attempt disk = (outcome, after)) :
    (after = disk ∧ ∀ nodeId, outcome ≠ some (.ok nodeId)) ∨
      generateNodeId attempt disk = (outcome, after) := by
  rw [nodeIdFromDataDir] at h
  cases hbytes : disk.nodeId with
  | none =>
    rw [hbytes] at h
    exact .inr h
  | some bytes =>
    rw [hbytes] at h
    dsimp only at h
    cases hfails : attempt.readError with
    | some reason =>
      rw [hfails] at h
      cases h
      exact .inl ⟨rfl, fun _ heq => nomatch heq⟩
    | none =>
      rw [hfails] at h
      dsimp only at h
      cases htext : fromUtf8 bytes with
      | none =>
        rw [htext] at h
        cases h
        exact .inl ⟨rfl, fun _ heq => nomatch heq⟩
      | some text =>
        rw [htext] at h
        dsimp only at h
        rw [Disk.held, hbytes, Option.bind_some, htext, Option.map_some] at hheld
        by_cases hblank : trim text = []
        · rw [if_pos hblank] at h
          exact .inr h
        · simp [hblank] at hheld

/-! ## Lives -/

variable {parse : String → Except String Uri}

theorem ok_of_map {α β : Type} {f : α → β} {outcome : Outcome α} {b : β}
    (h : (outcome.map fun result => result.map f) = some (.ok b)) :
    ∃ a, outcome = some (.ok a) ∧ f a = b := by
  obtain ⟨result, houtcome, hresult⟩ := Option.map_eq_some_iff.mp h
  cases result with
  | error err => cases hresult
  | ok a =>
    cases hresult
    exact ⟨a, houtcome, rfl⟩

theorem settings_nodeId {start : Start} {file : Option FileConfig} {settings : Settings}
    (h : start.settings parse file = .ok settings) : settings.nodeId =
      pick start.cli.nodeId (start.env "NOVBOT_NODE_ID") (file.bind (·.nodeId)) := by
  rw [Start.settings] at h
  obtain ⟨centerGrpc, -, h⟩ := bind_eq_ok.mp h
  obtain ⟨allowExec, -, h⟩ := bind_eq_ok.mp h
  cases h
  rfl

/-- A start takes the id from the data directory, or does not touch it. -/
theorem run_cases {start : Start} {disk after : Disk} {outcome : Outcome NodeConfig}
    (h : start.run parse disk = (outcome, after)) :
    (after = disk ∧ ∀ config, outcome = some (.ok config) →
      config.nodeId.source.fromDataDir = false) ∨
    ∃ found, nodeIdFromDataDir start.attempt disk = (found, after) ∧
      ∀ config, outcome = some (.ok config) → found = some (.ok config.nodeId) := by
  rw [Start.run] at h
  cases hfile : start.fileConfig with
  | error err =>
    rw [hfile] at h
    cases h
    exact .inl ⟨rfl, fun _ heq => nomatch heq⟩
  | ok file =>
    rw [hfile] at h
    dsimp only at h
    rw [Start.resolve] at h
    cases hsettings : start.settings parse file with
    | error err =>
      rw [hsettings] at h
      cases h
      exact .inl ⟨rfl, fun _ heq => nomatch heq⟩
    | ok settings =>
      rw [hsettings] at h
      dsimp only at h
      cases hid : settings.nodeId with
      | some nodeId =>
        rw [hid] at h
        cases h
        refine .inl ⟨rfl, fun config heq => ?_⟩
        cases heq
        exact fromDataDir_pick ((settings_nodeId hsettings).symm.trans hid)
      | none =>
        rw [hid] at h
        cases h
        refine .inr ⟨_, rfl, fun config heq => ?_⟩
        obtain ⟨nodeId, hfound, rfl⟩ := ok_of_map heq
        exact hfound

/-- The later of two starts takes the id of the earlier one, and finds it. -/
def Agree (earlier later : Outcome NodeConfig) : Prop :=
  ∀ first second, earlier = some (.ok first) → later = some (.ok second) →
    first.nodeId.source.fromDataDir = true → second.nodeId.source.fromDataDir = true →
    second.nodeId = ⟨first.nodeId.value, .dataDirPersisted⟩

/-- One of the starts generated the id, or this is what it wrote of it. -/
def Generated (starts : List Start) (id : List Char) : Prop :=
  ∃ start ∈ starts, id <+: generatedId start.attempt.uuid ∧
    (start.attempt.write = .whole → id = generatedId start.attempt.uuid)

/-- As long as the directory holds an id, all starts take it, and it stays. -/
theorem life_held {starts : List Start} {disk : Disk} {id : List Char} (hheld : disk.held = some id) :
    (life parse starts disk).2.held = some id ∧
      ∀ outcome ∈ (life parse starts disk).1, ∀ config, outcome = some (.ok config) →
        config.nodeId.source.fromDataDir = true →
        config.nodeId = ⟨String.ofList id, .dataDirPersisted⟩ := by
  induction starts generalizing disk with
  | nil => exact ⟨hheld, fun _ hmem => absurd hmem List.not_mem_nil⟩
  | cons start starts ih =>
    cases hrun : start.run parse disk with
    | mk first after =>
      have hstep : after = disk ∧ ∀ config, first = some (.ok config) →
          config.nodeId.source.fromDataDir = true →
          config.nodeId = ⟨String.ofList id, .dataDirPersisted⟩ := by
        rcases run_cases hrun with ⟨hsame, hother⟩ | ⟨found, hfound, hconfig⟩
        · refine ⟨hsame, fun config hok hfrom => ?_⟩
          rw [hother config hok] at hfrom
          cases hfrom
        · obtain ⟨hsame, htaken⟩ := nodeIdFromDataDir_held hheld hfound
          exact ⟨hsame, fun config hok _ => htaken _ (hconfig config hok)⟩
      obtain ⟨rfl, hfirst⟩ := hstep
      obtain ⟨hlast, hrest⟩ := ih hheld
      rw [life, hrun]
      refine ⟨hlast, fun outcome hmem config hok hfrom => ?_⟩
      rcases List.mem_cons.mp hmem with rfl | hmem
      · exact hfirst config hok hfrom
      · exact hrest outcome hmem config hok hfrom

/-- What a start leaves where there was no id. -/
theorem run_free {start : Start} {disk after : Disk} {outcome : Outcome NodeConfig}
    (hheld : disk.held = none) (h : start.run parse disk = (outcome, after)) :
    (∀ id, after.held = some id → Generated [start] id) ∧
      ∀ config, outcome = some (.ok config) → config.nodeId.source.fromDataDir = true →
        after.held = some config.nodeId.value.toList := by
  have hunchanged : after = disk → ∀ id, after.held = some id → Generated [start] id := by
    rintro rfl id hid
    rw [hheld] at hid
    cases hid
  rcases run_cases h with ⟨hsame, hother⟩ | ⟨found, hfound, hconfig⟩
  · refine ⟨hunchanged hsame, fun config hok hfrom => ?_⟩
    rw [hother config hok] at hfrom
    cases hfrom
  · have hfails (hnone : ∀ nodeId, found ≠ some (.ok nodeId)) : ∀ config, outcome = some (.ok config) →
        config.nodeId.source.fromDataDir = true → after.held = some config.nodeId.value.toList :=
      fun config hok _ => absurd (hconfig config hok) (hnone _)
    rcases nodeIdFromDataDir_free hheld hfound with ⟨hsame, hnone⟩ | hgenerate
    · exact ⟨hunchanged hsame, hfails hnone⟩
    · rcases generateNodeId_cases start.attempt hgenerate with
        ⟨hsame, hnone⟩ | ⟨hafter, -, rfl⟩ | ⟨count, hafter, htorn, hnone⟩
      · exact ⟨hunchanged hsame, hfails hnone⟩
      · refine ⟨fun id hid => ?_, fun config hok _ => ?_⟩
        · cases hafter.symm.trans hid
          exact ⟨start, List.mem_singleton.mpr rfl, List.prefix_rfl, fun _ => rfl⟩
        · have hvalue := Option.some.inj (hconfig config hok)
          rw [hafter, ← Except.ok.inj hvalue, String.toList_ofList]
      · refine ⟨fun id hid => ?_, hfails hnone⟩
        obtain ⟨htake, -⟩ := Option.filter_eq_some_iff.mp (hafter.symm.trans hid)
        cases htake
        exact ⟨start, List.mem_singleton.mpr rfl, List.take_prefix _ _, fun hwhole => absurd hwhole htorn⟩

theorem Generated.mono {starts starts' : List Start} {id : List Char} (h : Generated starts id)
    (hsub : starts ⊆ starts') : Generated starts' id := by
  obtain ⟨start, hstart, hrest⟩ := h
  exact ⟨start, hsub hstart, hrest⟩

/-- The ids that starts take from the directory: one that it held, or one that a start wrote. -/
theorem life_ids (starts : List Start) (disk : Disk) :
    (life parse starts disk).1.Pairwise Agree ∧
      ∀ outcome ∈ (life parse starts disk).1, ∀ config, outcome = some (.ok config) →
        config.nodeId.source.fromDataDir = true →
        disk.held = some config.nodeId.value.toList ∨ Generated starts config.nodeId.value.toList := by
  induction starts generalizing disk with
  | nil => exact ⟨List.Pairwise.nil, fun _ hmem => absurd hmem List.not_mem_nil⟩
  | cons start starts ih =>
    cases hrun : start.run parse disk with
    | mk first after =>
      obtain ⟨hagree, hids⟩ := ih after
      rw [life, hrun]
      cases hheld : disk.held with
      | some id =>
        have hall := @life_held parse (start :: starts) disk id hheld
        rw [life, hrun] at hall
        obtain ⟨-, hall⟩ := hall
        refine ⟨List.pairwise_cons.mpr ⟨fun later hlater earlier second hearlier hsecond hfrom hfrom' => ?_,
          hagree⟩, fun outcome hmem config hok hfrom => .inl ?_⟩
        · rw [hall first List.mem_cons_self earlier hearlier hfrom]
          exact hall later (.tail _ hlater) second hsecond hfrom'
        · rw [hall outcome hmem config hok hfrom, String.toList_ofList]
      | none =>
        obtain ⟨hleft, hfirst⟩ := run_free hheld hrun
        have hwrote : ∀ id, after.held = some id → Generated (start :: starts) id :=
          fun id hid => (hleft id hid).mono fun other hother =>
            List.mem_singleton.mp hother ▸ List.mem_cons_self
        refine ⟨List.pairwise_cons.mpr ⟨fun later hlater earlier second hearlier hsecond hfrom hfrom' => ?_,
          hagree⟩, fun outcome hmem config hok hfrom => .inr ?_⟩
        · have htaken := (life_held (hfirst earlier hearlier hfrom)).2 later hlater second hsecond hfrom'
          rw [String.ofList_toList] at htaken
          exact htaken
        · rcases List.mem_cons.mp hmem with rfl | hmem
          · exact hwrote _ (hfirst config hok hfrom)
          · rcases hids outcome hmem config hok hfrom with hheld' | hgenerated
            · exact hwrote _ hheld'
            · exact hgenerated.mono fun other hother => .tail _ hother

/-! ## The token -/

/-- A token in each place that it is taken from. -/
structure Tokens where
  cli : Option String
  env : Option String
  file : Option String

def withTokenFile (tokens : Tokens) (file : FileConfig) : FileConfig :=
  { file with bootstrapToken := tokens.file }

def Start.withTokens (start : Start) (tokens : Tokens) : Start where
  cli := { start.cli with bootstrapToken := tokens.cli }
  env := Function.update start.env "NOVBOT_BOOTSTRAP_TOKEN" tokens.env
  file := start.file.map fun (path, result) => (path, result.map (withTokenFile tokens))
  attempt := start.attempt

def NodeConfig.withoutToken (config : NodeConfig) : NodeConfig := { config with bootstrapToken := none }

/-- What is left of an outcome without the token. -/
def withoutToken (outcome : Outcome NodeConfig) : Outcome NodeConfig :=
  outcome.map fun result => result.map NodeConfig.withoutToken

theorem fileConfig_withTokens (start : Start) (tokens : Tokens) :
    (start.withTokens tokens).fileConfig =
      start.fileConfig.map fun file => file.map (withTokenFile tokens) := by
  rw [Start.fileConfig, Start.fileConfig, Start.withTokens]
  cases start.file with
  | none => rfl
  | some found =>
    obtain ⟨path, result⟩ := found
    cases result <;> rfl

theorem settings_withTokens (start : Start) (tokens : Tokens) (file : Option FileConfig) :
    (start.withTokens tokens).settings parse (file.map (withTokenFile tokens)) =
      start.settings parse file := by
  have henv (key : String) (hkey : key ≠ "NOVBOT_BOOTSTRAP_TOKEN") :
      (start.withTokens tokens).env key = start.env key := Function.update_of_ne hkey _ _
  have hcenter : (start.withTokens tokens).centerGrpc parse (file.map (withTokenFile tokens)) =
      start.centerGrpc parse file := by
    rw [Start.centerGrpc, Start.centerGrpc, henv _ (by decide)]
    cases file <;> rfl
  have hallow : resolveAllowExec (start.withTokens tokens).cli.allowExec (start.withTokens tokens).env =
      resolveAllowExec start.cli.allowExec start.env := by
    rw [resolveAllowExec, resolveAllowExec, henv _ (by decide)]
    rfl
  rw [Start.settings, Start.settings, hcenter, hallow, henv _ (by decide)]
  cases file <;> rfl

theorem config_withTokens (start : Start) (tokens : Tokens) (file file' : Option FileConfig)
    (settings : Settings) (nodeId : Resolved String) :
    ((start.withTokens tokens).config file' settings nodeId).withoutToken =
      (start.config file settings nodeId).withoutToken := by
  have hpath : (start.withTokens tokens).file.map Prod.fst = start.file.map Prod.fst := by
    rw [Start.withTokens, Option.map_map]
    rfl
  rw [Start.config, Start.config, NodeConfig.withoutToken, NodeConfig.withoutToken, hpath]

/-- What a start does and what it says depend on no token. -/
theorem run_withTokens (start : Start) (tokens : Tokens) (disk : Disk) :
    ((start.withTokens tokens).run parse disk).2 = (start.run parse disk).2 ∧
      withoutToken ((start.withTokens tokens).run parse disk).1 =
        withoutToken (start.run parse disk).1 := by
  rw [Start.run, Start.run, fileConfig_withTokens]
  cases start.fileConfig with
  | error err => exact ⟨rfl, rfl⟩
  | ok file =>
    show _ = (start.resolve parse file disk).2 ∧ _ = withoutToken (start.resolve parse file disk).1
    rw [Start.resolve]
    dsimp only [Except.map]
    rw [Start.resolve, settings_withTokens]
    cases start.settings parse file with
    | error err => exact ⟨rfl, rfl⟩
    | ok settings =>
      dsimp only
      cases settings.nodeId with
      | some nodeId =>
        exact ⟨rfl, congrArg (some ∘ Except.ok) (config_withTokens start tokens _ _ settings nodeId)⟩
      | none =>
        refine ⟨rfl, ?_⟩
        dsimp only
        have hattempt : (start.withTokens tokens).attempt = start.attempt := rfl
        rw [hattempt, withoutToken, withoutToken, Option.map_map, Option.map_map]
        refine congrArg (Option.map · _) (funext fun result => ?_)
        cases result with
        | error err => rfl
        | ok nodeId =>
          exact congrArg Except.ok (config_withTokens start tokens _ _ settings nodeId)

theorem life_withTokens (starts : List (Start × Tokens)) (disk : Disk) :
    (life parse (starts.map fun start => start.1.withTokens start.2) disk).2 =
        (life parse (starts.map Prod.fst) disk).2 ∧
      (life parse (starts.map fun start => start.1.withTokens start.2) disk).1.map withoutToken =
        (life parse (starts.map Prod.fst) disk).1.map withoutToken := by
  induction starts generalizing disk with
  | nil => exact ⟨rfl, rfl⟩
  | cons start starts ih =>
    obtain ⟨hdisk, houtcome⟩ := @run_withTokens parse start.1 start.2 disk
    obtain ⟨hlast, hrest⟩ := ih (start.1.run parse disk).2
    rw [List.map_cons, List.map_cons, life, life]
    dsimp only
    rw [hdisk]
    exact ⟨hlast, congrArg₂ List.cons houtcome hrest⟩

def plainStart (write : Write) : Start where
  cli := ⟨some "http://center:50051", none, none, false⟩
  env _ := none
  file := none
  attempt := ⟨none, none, ⟨"6f1c".toList, visible_of_all rfl, ascii_of_all rfl⟩, write⟩

/-- What is left of an id that was not written to its end is an id. -/
example : (life (fun _ => .ok ⟨some "http", some ⟨"center:50051", "center"⟩, "/", none⟩)
    [plainStart (.failed 5 "disk full"), plainStart .whole] ⟨none⟩).1.map
      (fun outcome => outcome.bind fun result => result.toOption.map (·.nodeId.value)) =
    [none, some "node-"] := by
  decide +kernel

end Novbot.Config.Starts
