import Novbot.Lib.Machine
import Novbot.Desired.Installs
import Mathlib.Data.List.Sort

/-!
# Bundles of skills

The tables `skill_bundles` and `skill_bundle_items`, and the requests of `skill_bundles.rs` that
read and change them.  The statements of a transaction take effect together, because its first one
locks the row of the bundle.  A view is read in two statements outside a transaction.

Texts are the same to the tables when their collation has one key for them.  The id in the path of
a request is not checked, so a request may spell the id of a bundle in another way.
-/

namespace Novbot.Desired.Bundles

open Concurrent
open Installs (BundleItem)

/-! ## What requests say -/

inductive BundleError where
  | invalidBundle (message : String)
  | bundleExists
  | bundleUnknown
  | builtinReadOnly
  | internal
  deriving DecidableEq

structure BundleReplace where
  name : String
  description : Option String
  items : List BundleItem

structure BundleCreate extends BundleReplace where
  id : String

/-- The rule for the names of skills. -/
def validBundleId (id : String) : Bool := Catalog.validSkillName id.toList

def validateName (name : String) : Except BundleError String :=
  let name := trimmed name
  if name = "" ∨ 255 < name.length then throw (.invalidBundle "bundle name is invalid")
  else return name

def normalizeDescription (description : Option String) : Option String :=
  (description.map trimmed).filter (· ≠ "")

/-- A description that is not shown is blank. -/
def shownDescription (description : Option String) : Option String :=
  description.filter fun text => trimmed text ≠ ""

theorem shown_normalized (description : Option String) :
    shownDescription (normalizeDescription description) = normalizeDescription description := by
  cases description with
  | none => rfl
  | some text =>
    have htrimmed : trimmed (trimmed text) = trimmed text := by
      rw [trimmed, trimmed, String.toList_ofList, Text.trim_trim]
    rw [normalizeDescription, shownDescription, Option.map_some]
    cases hshown : (some (trimmed text)).filter (· ≠ "") with
    | none => rfl
    | some shown =>
      obtain ⟨heq, hne⟩ := Option.filter_eq_some_iff.mp hshown
      cases heq
      rw [Option.filter_some_pos]
      rw [htrimmed]
      exact hne

def trimmedItem (item : BundleItem) : BundleItem := ⟨trimmed item.skillName, trimmed item.versionReq⟩

def validItem (item : BundleItem) : Bool :=
  item.skillName ≠ "" && Catalog.byteLength item.skillName ≤ 63 && item.versionReq ≠ "" &&
    Catalog.byteLength item.versionReq ≤ 64

/-- The items behind those with the names that were seen. -/
def validateRest (seen : List String) : List BundleItem → Except BundleError (List BundleItem)
  | [] => return []
  | item :: items =>
    let item := trimmedItem item
    if !validItem item then throw (.invalidBundle "bundle item is invalid")
    else if item.skillName ∈ seen then throw (.invalidBundle "duplicate skill_name")
    else return item :: (← validateRest (item.skillName :: seen) items)

def validateItems (items : List BundleItem) : Except BundleError (List BundleItem) :=
  if items.isEmpty then throw (.invalidBundle "bundle items must not be empty")
  else validateRest [] items

theorem validateRest_ok {seen : List String} {items valid : List BundleItem}
    (h : validateRest seen items = .ok valid) :
    valid.length = items.length ∧ (valid.map (·.skillName)).Nodup ∧
      ∀ item ∈ valid, item.skillName ∉ seen := by
  induction items generalizing seen valid with
  | nil =>
    cases h
    exact ⟨rfl, List.nodup_nil, fun item hitem => nomatch hitem⟩
  | cons item items ih =>
    rw [validateRest] at h
    split at h
    · cases h
    · split at h
      · cases h
      · next hfresh =>
        cases hrest : validateRest ((trimmedItem item).skillName :: seen) items with
        | error err =>
          rw [hrest] at h
          cases h
        | ok rest =>
          rw [hrest] at h
          cases h
          obtain ⟨hlength, hdistinct, hnew⟩ := ih hrest
          refine ⟨congrArg (· + 1) hlength, List.nodup_cons.mpr ⟨fun hmem => ?_, hdistinct⟩, ?_⟩
          · obtain ⟨later, hlater, hname⟩ := List.mem_map.mp hmem
            exact hnew later hlater (hname ▸ List.mem_cons_self)
          · intro later hlater
            rcases List.mem_cons.mp hlater with rfl | hlater
            · exact hfresh
            · exact fun hmem => hnew later hlater (.tail _ hmem)

/-- What a valid request gives a bundle. -/
structure Content where
  name : String
  description : Option String
  items : List BundleItem
  described : shownDescription description = description
  nonempty : items ≠ []
  distinct : (items.map (·.skillName)).Nodup

theorem validateItems_ok {items valid : List BundleItem} (h : validateItems items = .ok valid) :
    valid ≠ [] ∧ (valid.map (·.skillName)).Nodup := by
  rw [validateItems] at h
  split at h
  · cases h
  · next hnonempty =>
    obtain ⟨hlength, hdistinct, -⟩ := validateRest_ok h
    refine ⟨fun hempty => hnonempty ?_, hdistinct⟩
    rw [hempty] at hlength
    exact List.isEmpty_iff_length_eq_zero.mpr hlength.symm

def BundleReplace.content (body : BundleReplace) : Except BundleError Content := do
  let name ← validateName body.name
  match h : validateItems body.items with
  | .error err => throw err
  | .ok items =>
    return ⟨name, normalizeDescription body.description, items, shown_normalized body.description,
      (validateItems_ok h).1, (validateItems_ok h).2⟩

/-! ## The tables -/

/-- The texts of the tables are compared and ordered by their keys. -/
structure Collation where
  key : String → String
  faithful : ∀ a b, validBundleId a = true → validBundleId b = true → key a = key b → a = b

/-- A row of `skill_bundles`. -/
structure BundleRow where
  id : String
  name : String
  description : Option String
  builtin : Bool

/-- A row of `skill_bundle_items`. -/
structure ItemRow where
  bundleId : String
  skillName : String
  versionReq : String

structure Stored where
  bundles : List BundleRow
  items : List ItemRow

def ItemRow.of (bundleId : String) (item : BundleItem) : ItemRow :=
  ⟨bundleId, item.skillName, item.versionReq⟩

section
variable (collation : Collation)

def Collation.same (a b : String) : Bool := collation.key a == collation.key b

/-- `INSERT INTO skill_bundles`, unless the key is there. -/
def insertBundle (id : String) (content : Content) (stored : Stored) : Option Stored :=
  if stored.bundles.any fun row => collation.same row.id id then none
  else some { stored with
    bundles := stored.bundles ++ [⟨id, content.name, content.description, false⟩] }

def BundleRow.update (row : BundleRow) (id : String) (content : Content) : BundleRow :=
  if collation.same row.id id && !row.builtin then
    { row with name := content.name, description := content.description }
  else row

def updateBundle (id : String) (content : Content) (stored : Stored) : Stored :=
  { stored with bundles := stored.bundles.map fun row => row.update collation id content }

def deleteItems (id : String) (stored : Stored) : Stored :=
  { stored with items := stored.items.filter fun item => !collation.same item.bundleId id }

/-- `INSERT INTO skill_bundle_items`, unless the bundle is missing or the key is there. -/
def insertItem (id : String) (stored : Stored) (item : BundleItem) : Option Stored :=
  if stored.bundles.any (fun row => collation.same row.id id) &&
      !(stored.items.any fun row => collation.same row.bundleId id &&
        collation.same row.skillName item.skillName) then
    some { stored with items := stored.items ++ [.of id item] }
  else none

def insertItems (id : String) (items : List BundleItem) (stored : Stored) : Option Stored :=
  items.foldlM (insertItem collation id) stored

/-- The rows that `DELETE FROM skill_bundles` deletes. -/
def BundleRow.goes (id : String) (row : BundleRow) : Bool :=
  collation.same row.id id && !row.builtin

/-- The items of a bundle are deleted with it. -/
def deleteBundle (id : String) (stored : Stored) : Stored where
  bundles := stored.bundles.filter fun row => !row.goes collation id
  items := stored.items.filter fun item => !(stored.bundles.any fun row =>
    row.goes collation id && collation.same item.bundleId row.id)

/-- The transaction of `create_bundle`, after its first statement. -/
def created (id : String) (content : Content) (stored : Stored) : Option Stored :=
  insertItems collation id content.items stored

/-- The transaction of `replace_bundle`. -/
def replaced (id : String) (content : Content) (stored : Stored) : Option Stored :=
  insertItems collation id content.items
    (deleteItems collation id (updateBundle collation id content stored))

def selectBundles (id : Option String) (stored : Stored) : List BundleRow :=
  (stored.bundles.filter fun row => id.all (collation.same row.id)).insertionSort
    fun a b => collation.key a.id ≤ collation.key b.id

def ItemRow.upTo (a b : ItemRow) : Prop :=
  collation.key a.bundleId < collation.key b.bundleId ∨
    collation.key a.bundleId = collation.key b.bundleId ∧
      collation.key a.skillName ≤ collation.key b.skillName

instance : DecidableRel (ItemRow.upTo collation) := fun a b =>
  inferInstanceAs (Decidable (collation.key a.bundleId < collation.key b.bundleId ∨
    collation.key a.bundleId = collation.key b.bundleId ∧
      collation.key a.skillName ≤ collation.key b.skillName))

/-- The items of one bundle have one key for its id, so they are in the order of their names. -/
def selectItems (id : Option String) (stored : Stored) : List ItemRow :=
  (stored.items.filter fun item => id.all (collation.same item.bundleId)).insertionSort
    (ItemRow.upTo collation)

end

/-! ## The requests -/

structure BundleView where
  id : String
  name : String
  description : Option String
  builtin : Bool
  items : List BundleItem

def itemView (row : ItemRow) : BundleItem := ⟨row.skillName, row.versionReq⟩

def bundleView (row : BundleRow) (items : List ItemRow) : BundleView where
  id := row.id
  name := row.name
  description := shownDescription row.description
  builtin := row.builtin
  items := (items.filter (·.bundleId == row.id)).map itemView

/-- The items of each bundle are taken out of the map. -/
def views : List BundleRow → List ItemRow → List BundleView
  | [], _ => []
  | row :: rows, items => bundleView row items :: views rows (items.filter (·.bundleId != row.id))

inductive Op where
  /-- The first statement of `load_bundles`. -/
  | rows (id : Option String)
  /-- The second. -/
  | items (id : Option String)
  | create (id : String) (content : Content)
  | replace (id : String) (content : Content)
  /-- The reply is how many rows were deleted. -/
  | delete (id : String)
  /-- The response to the request. -/
  | respond (answer : Except BundleError (List BundleView))

@[reducible] def Op.Reply : Op → Type
  | .rows _ => Except BundleError (List BundleRow)
  | .items _ => Except BundleError (List ItemRow)
  | .create _ _ => Except BundleError Unit
  | .replace _ _ => Except BundleError Unit
  | .delete _ => Except BundleError Nat
  | .respond _ => Unit

abbrev Prog (α : Type) := Program Op.Reply α

def call (op : Op) : Prog op.Reply := Program.call op

abbrev Tried (α : Type) := ExceptT BundleError (Program Op.Reply) α

def loadBundles (id : Option String) : Tried (List BundleView) := do
  let rows ← ExceptT.mk (call (.rows id))
  let items ← ExceptT.mk (call (.items id))
  return views rows items

def getBundle (id : String) : Tried BundleView := do
  match ← loadBundles (some id) with
  | [] => throw .bundleUnknown
  | view :: _ => return view

def createBundle (body : BundleCreate) : Tried BundleView := do
  let id := trimmed body.id
  if !validBundleId id then throw (.invalidBundle "bundle id is invalid")
  let content ← liftExcept body.content
  ExceptT.mk (call (.create id content))
  getBundle id

def replaceBundle (id : String) (body : BundleReplace) : Tried BundleView := do
  let content ← liftExcept body.content
  let existing ← getBundle id
  if existing.builtin then throw .builtinReadOnly
  ExceptT.mk (call (.replace id content))
  getBundle id

def deleteBundleRequest (id : String) : Tried Unit := do
  let existing ← getBundle id
  if existing.builtin then throw .builtinReadOnly
  let affected ← ExceptT.mk (call (.delete id))
  if affected = 0 then throw .bundleUnknown

inductive Request where
  | list
  | get (id : String)
  | create (body : BundleCreate)
  | replace (id : String) (body : BundleReplace)
  | delete (id : String)

def Request.run : Request → Tried (List BundleView)
  | .list => loadBundles none
  | .get id => return [← getBundle id]
  | .create body => return [← createBundle body]
  | .replace id body => return [← replaceBundle id body]
  | .delete id => do
    deleteBundleRequest id
    return []

def Request.prog (request : Request) : Prog Unit := do
  let answer ← request.run.run
  call (.respond answer)

/-! ## The center -/

/-- What was committed. -/
inductive Change where
  | wrote (id : String) (content : Content)
  | deleted (id : String)

structure Center where
  stored : Stored
  /-- What was committed, oldest first. -/
  changes : List Change
  answers : List (Except BundleError (List BundleView))

def Center.commit (center : Center) (after : Option Stored) (change : Change) :
    Except BundleError Unit × Center :=
  match after with
  | none => (.error .internal, center)
  | some stored => (.ok (), { center with stored, changes := center.changes ++ [change] })

variable (collation : Collation)

def execute : (op : Op) → Center → op.Reply × Center
  | .rows id, center => (.ok (selectBundles collation id center.stored), center)
  | .items id, center => (.ok (selectItems collation id center.stored), center)
  | .create id content, center =>
    match insertBundle collation id content center.stored with
    | none => (.error .bundleExists, center)
    | some mid => center.commit (created collation id content mid) (.wrote id content)
  | .replace id content, center =>
    center.commit (replaced collation id content center.stored) (.wrote id content)
  | .delete id, center =>
    match (center.stored.bundles.filter (·.goes collation id)).length with
    | 0 => (.ok 0, center)
    | affected + 1 => (.ok (affected + 1), { center with
      stored := deleteBundle collation id center.stored
      changes := center.changes ++ [.deleted id] })
  | .respond answer, center => ((), { center with answers := center.answers ++ [answer] })

/-- The reply to a statement that fails. -/
def Op.failure : (op : Op) → Option op.Reply
  | .rows _ => some (.error .internal)
  | .items _ => some (.error .internal)
  | .create _ _ => some (.error .internal)
  | .replace _ _ => some (.error .internal)
  | .delete _ => some (.error .internal)
  | .respond _ => none

def exec (op : Op) (fails : Bool) (center : Center) : op.Reply × Center :=
  match op.failure with
  | some reply => if fails then (reply, center) else execute collation op center
  | none => execute collation op center

/-- What a thread has read. -/
structure Loc where
  rows : List BundleRow
  views : List BundleView

def Loc.fresh : Loc := ⟨[], []⟩

def note (op : Op) (reply : op.Reply) (loc : Loc) : Loc :=
  match op, reply with
  | .rows _, .ok rows => ⟨rows, []⟩
  | .items _, .ok items => { loc with views := views loc.rows items }
  | _, _ => loc

inductive Event where
  | start (t : Nat) (request : Request)
  /-- The connection closes, and the request is dropped. -/
  | abort (t : Nat)

abbrev System := Sys Op.Reply Nat Loc Center

def fire : Event → System → Option System
  | .start t request, sys =>
    if sys.idle t then some ⟨sys.shared, Function.update sys.threads t ⟨request.prog, .fresh⟩⟩
    else none
  | .abort t, sys => some ⟨sys.shared, Function.update sys.threads t ⟨.done (), .fresh⟩⟩

def center : Machine Op.Reply Nat Loc Center Bool Event where
  exec _ _ op fails center := some (exec collation op fails center)
  note _ op reply loc := note op reply loc
  fire := fire

/-! ## The seeds -/

def hostBasics : Content :=
  ⟨"Host basics", some "host_info + echo", [⟨"host_info", "*"⟩, ⟨"echo", "*"⟩], by decide, by simp,
    by decide⟩

def envSample : Content :=
  ⟨"Env sample", some "env_get only", [⟨"env_get", "*"⟩], by decide, by simp, by decide⟩

/-- The bundles that the migration inserts. -/
def seeds : List (String × Content) := [("host-basics", hostBasics), ("env-sample", envSample)]

def seededRow (seed : String × Content) : BundleRow :=
  ⟨seed.1, seed.2.name, seed.2.description, true⟩

def initial : System where
  shared := ⟨⟨seeds.map seededRow, seeds.flatMap fun seed => seed.2.items.map (.of seed.1)⟩,
    seeds.map fun seed => .wrote seed.1 seed.2, []⟩
  threads _ := ⟨.done (), .fresh⟩

/-- Any requests, in any interleaving of their statements. -/
abbrev Reachable (sys : System) : Prop :=
  (center collation).Reaches (fun _ _ => True) initial sys

end Novbot.Desired.Bundles
