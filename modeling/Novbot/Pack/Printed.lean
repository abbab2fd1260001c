import Novbot.Pack.Manifest

/-!
# What is written reads back

A rendered manifest is a plain TOML document, if its texts have no control character that
`toml_string` leaves as it is.  Both readers of `skill.toml` find in it what was rendered.
-/

namespace Novbot.Pack

open Novbot.Package Text Toml

/-- `toml_string` writes the text so that it can be read: it escapes the line feed and leaves every
other control character as it is. -/
def Printable (text : String) : Prop :=
  ∀ c ∈ text.toList, isControl c = true → c = '\n'

instance (text : String) : Decidable (Printable text) :=
  decidable_of_iff (text.toList.all (fun c => !isControl c || c == '\n') = true) (by
    rw [List.all_eq_true]
    refine forall₂_congr fun c _ => ?_
    rw [Bool.or_eq_true, Bool.not_eq_true', beq_iff_eq, ← Bool.not_eq_true, ← imp_iff_not_or])

/-! ## Strings -/

theorem written_escape_cons {c : Char} {text written : List Char}
    (hc : isControl c = true → c = '\n') (h : Written text written) :
    Written (c :: text) (escape c ++ written) := by
  unfold escape
  split
  · exact .escape rfl h
  · exact .escape rfl h
  · exact .escape rfl h
  · next hback hquote hline =>
    refine .plain ?_ hquote hback h
    cases hcontrol : isControl c with
    | false => rfl
    | true => exact absurd (hc hcontrol) hline

theorem written_escape {text : List Char} (h : ∀ c ∈ text, isControl c = true → c = '\n') :
    Written text (text.flatMap escape) := by
  induction text with
  | nil => exact .nil
  | cons c text ih =>
    rw [List.flatMap_cons]
    exact written_escape_cons (h c List.mem_cons_self) (ih fun c hmem => h c (.tail _ hmem))

theorem toList_tomlString (value : String) :
    (tomlString value).toList = quoted (value.toList.flatMap escape) := by
  simp [tomlString, quoted]

/-! ## Statements -/

def Bare (key : String) : Prop := key.toList ≠ [] ∧ ∀ c ∈ key.toList, isBare c = true

instance (key : String) : Decidable (Bare key) :=
  decidable_of_iff (key.toList ≠ [] ∧ key.toList.all isBare = true) (and_congr_right fun _ =>
    List.all_eq_true)

def textMember (key : String) (value : Option String) : List (String × Toml) :=
  value.toList.map fun text => (key, .str text)

def numberMember (key : String) (value : Option Nat) : List (String × Toml) :=
  value.toList.map fun n => (key, .int n)

section
variable {key : String}

theorem readsAs_pair {value : List Char} {v : Toml} (hkey : Bare key)
    (hplain : plainLine value = true) (hvalue : readValue value = some v) :
    ReadsAs (key.toList ++ ' ' :: '=' :: ' ' :: value) (.pair key v) := by
  refine ⟨plainLine_append.mpr ⟨plainLine_bare hkey.2, ?_⟩, ?_⟩
  · exact plainLine_cons.mpr ⟨rfl, plainLine_cons.mpr ⟨rfl, plainLine_cons.mpr ⟨rfl, hplain⟩⟩⟩
  · have hread := readLine_bare hkey.1 hkey.2 hvalue
    rwa [String.ofList_toList] at hread

theorem readValue_tomlString {value : String} (h : Printable value) :
    readValue (quoted (value.toList.flatMap escape)) = some (.str value) := by
  have hread := readValue_string (written_escape h)
  rwa [String.ofList_toList] at hread

theorem toList_pushStr (key value : String) :
    (pushStr key value).toList =
      key.toList ++ ' ' :: '=' :: ' ' :: quoted (value.toList.flatMap escape) ++ ['\n'] := by
  simp [pushStr, toList_tomlString]

theorem reads_pushStr {value : String} (hkey : Bare key) (h : Printable value) :
    Reads (pushStr key value).toList [.pair key (.str value)] := by
  rw [toList_pushStr]
  exact .line (readsAs_pair hkey (written_escape h).plain_quoted (readValue_tomlString h))

theorem reads_pushOption {value : Option String} (hkey : Bare key)
    (h : ∀ text ∈ value, Printable text) :
    Reads (pushOption key value).toList (pairs (textMember key value)) := by
  cases value with
  | none => exact .nil
  | some text => exact reads_pushStr hkey (h text rfl)

theorem reads_pushNumber {value : Option Nat} (hkey : Bare key) (h : ∀ n ∈ value, n < 2 ^ 63) :
    Reads (pushNumber key value).toList (pairs (numberMember key value)) := by
  cases value with
  | none => exact .nil
  | some n =>
    have hform : (pushNumber key (some n)).toList =
        (key.toList ++ ' ' :: '=' :: ' ' :: Nat.toDigits 10 n) ++ ['\n'] := by
      simp [pushNumber]
    rw [hform]
    exact .line (readsAs_pair hkey (plainLine_digits n) (readValue_nat (h n rfl)))

theorem reads_renderFile {file : String × String} (hkey : Printable file.1)
    (hvalue : Printable file.2) :
    Reads (renderFile file).toList [.pair file.1 (.str file.2)] := by
  have hform : (renderFile file).toList = (quoted (file.1.toList.flatMap escape) ++
      ' ' :: '=' :: ' ' :: quoted (file.2.toList.flatMap escape)) ++ ['\n'] := by
    simp [renderFile, toList_tomlString]
  have hread := readLine_quoted (written_escape hkey) (readValue_tomlString hvalue)
  rw [String.ofList_toList] at hread
  rw [hform]
  refine .line ⟨plainLine_append.mpr ⟨(written_escape hkey).plain_quoted, ?_⟩, hread⟩
  exact plainLine_cons.mpr ⟨rfl, plainLine_cons.mpr ⟨rfl, plainLine_cons.mpr
    ⟨rfl, (written_escape hvalue).plain_quoted⟩⟩⟩

def platformsMember (platforms : List String) : List (String × Toml) :=
  if platforms ≠ [] then [("platforms", .arr (platforms.map .str))] else []

theorem toList_renderPlatforms {platforms : List String} (h : platforms ≠ []) :
    (renderPlatforms platforms).toList = ("platforms".toList ++ ' ' :: '=' :: ' ' :: '[' ::
      (List.intercalate [',', ' '] ((platforms.map String.toList).map fun item =>
        quoted (item.flatMap escape)) ++ [']'])) ++ ['\n'] := by
  rw [renderPlatforms, if_pos h]
  simp [String.toList_intercalate, toList_tomlString, Function.comp_def]

theorem reads_renderPlatforms {platforms : List String} (h : ∀ text ∈ platforms, Printable text) :
    Reads (renderPlatforms platforms).toList (pairs (platformsMember platforms)) := by
  by_cases hne : platforms = []
  · subst hne
    exact .nil
  · rw [toList_renderPlatforms hne, platformsMember, if_pos hne]
    have hwritten : ∀ item ∈ platforms.map String.toList, Written item (item.flatMap escape) := by
      intro item hmem
      obtain ⟨text, htext, rfl⟩ := List.mem_map.mp hmem
      exact written_escape (h text htext)
    have hread := readValue_strings hwritten (by simpa using hne)
    have hvalue : readValue ('[' :: (List.intercalate [',', ' ']
        ((platforms.map String.toList).map fun item => quoted (item.flatMap escape)) ++ [']'])) =
          some (.arr (platforms.map .str)) := by
      rw [hread]
      simp
    refine .line (readsAs_pair (by decide) ?_ hvalue)
    refine plainLine_cons.mpr ⟨rfl, plainLine_append.mpr ⟨plainLine_intercalate rfl ?_, rfl⟩⟩
    intro line hmem
    obtain ⟨item, hitem, rfl⟩ := List.mem_map.mp hmem
    exact (hwritten item hitem).plain_quoted

end

/-! ## The document -/

def Manifest.texts (manifest : Manifest) : List String :=
  [manifest.name, manifest.version] ++ manifest.displayName.toList ++ manifest.description.toList ++
    manifest.publisher.toList ++ manifest.minNodeVersion.toList ++ manifest.platforms ++
    manifest.capabilities.flatMap fun cap => cap.name :: (cap.scope.toList ++ cap.reason.toList)

/-- What is written of the manifest can be read. -/
structure Manifest.Printable (manifest : Manifest) : Prop where
  texts : ∀ text ∈ manifest.texts, Pack.Printable text
  timeout : ∀ n ∈ manifest.timeoutMs, n < 2 ^ 63
  memory : ∀ n ∈ manifest.memoryMb, n < 2 ^ 63

section
variable (manifest : Manifest) (files : SortedMap String String)

def rootMembers : List (String × Toml) :=
  ("schema_version", .int 1) :: ("name", .str manifest.name) :: ("version", .str manifest.version) ::
    (textMember "display_name" manifest.displayName ++ textMember "description" manifest.description ++
      textMember "publisher" manifest.publisher ++
      textMember "min_node_version" manifest.minNodeVersion ++ platformsMember manifest.platforms)

def limitsMembers : List (String × Toml) :=
  numberMember "timeout_ms" manifest.timeoutMs ++ numberMember "memory_mb" manifest.memoryMb

def runtimeMembers : List (String × Toml) :=
  [("kind", .str "wasm"), ("abi", .str "novbot:skill@1")] ++
    if limitsMembers manifest = [] then [] else [("limits", .table (limitsMembers manifest))]

def fileMembers : List (String × Toml) := files.entries.map fun file => (file.1, .str file.2)

def capabilityMembers (cap : Capability) : List (String × Toml) :=
  ("name", .str cap.name) :: (textMember "scope" cap.scope ++ textMember "reason" cap.reason)

/-- The document that is written. -/
def documentOf : Toml :=
  .table (rootMembers manifest ++ [("runtime", Toml.table (runtimeMembers manifest)),
    ("files", .table (fileMembers files))] ++
    arrayMember "capabilities" (manifest.capabilities.map capabilityMembers))

def limitsLines : List Line :=
  if limitsMembers manifest = [] then []
  else [.blank, .header ["runtime", "limits"]] ++ pairs (limitsMembers manifest)

def statements : List Line :=
  pairs (rootMembers manifest) ++ ([.blank, .header ["runtime"]] ++
    (pairs [("kind", .str "wasm"), ("abi", .str "novbot:skill@1")] ++ (limitsLines manifest ++
      ([.blank, .header ["files"]] ++ (pairs (fileMembers files) ++ ([.blank] ++
        (manifest.capabilities.map capabilityMembers).flatMap (itemLines "capabilities")))))))

end

theorem reads_append {a b : String} {lines lines' : List Line} (h : Reads a.toList lines)
    (h' : Reads b.toList lines') : Reads (a ++ b).toList (lines ++ lines') := by
  rw [String.toList_append]
  exact h.append h'

theorem reads_join {α : Type} {items : List α} {text : α → String} {lines : α → List Line}
    (h : ∀ item ∈ items, Reads (text item).toList (lines item)) :
    Reads (String.join (items.map text)).toList (items.flatMap lines) := by
  rw [String.toList_join, List.flatMap_map]
  exact .flatMap h

section
variable {manifest : Manifest} {files : SortedMap String String}

theorem reads_header {title : String} {path : List String}
    (h : ReadsAs title.toList (.header path)) :
    Reads ("\n" ++ title ++ "\n").toList [.blank, .header path] := by
  have hblank : Reads "\n".toList [.blank] := @Reads.line [] _ ⟨rfl, rfl⟩
  have htitle : Reads (title ++ "\n").toList [.header path] := by
    rw [String.toList_append]
    exact .line h
  rw [String.append_assoc]
  exact reads_append hblank htitle

theorem limitsMembers_eq_nil : limitsMembers manifest = [] ↔
    (manifest.timeoutMs.isSome || manifest.memoryMb.isSome) = false := by
  rw [limitsMembers, List.append_eq_nil_iff, Bool.or_eq_false_iff]
  cases manifest.timeoutMs <;> cases manifest.memoryMb <;> simp [numberMember]

theorem reads_renderLimits (h : manifest.Printable) :
    Reads (renderLimits manifest).toList (limitsLines manifest) := by
  have htimeout := @reads_pushNumber "timeout_ms" _ (by decide) h.timeout
  have hmemory := @reads_pushNumber "memory_mb" _ (by decide) h.memory
  have hhead : Reads "\n[runtime.limits]\n".toList [.blank, .header ["runtime", "limits"]] :=
    @reads_header "[runtime.limits]" _ ⟨by decide, rfl⟩
  have hbody := reads_append (reads_append hhead htimeout) hmemory
  rw [List.append_assoc, pairs, pairs, ← List.map_append] at hbody
  cases hany : manifest.timeoutMs.isSome || manifest.memoryMb.isSome with
  | true =>
    have hne : limitsMembers manifest ≠ [] := fun hnil => by
      rw [limitsMembers_eq_nil, hany] at hnil
      cases hnil
    rw [renderLimits, limitsLines, hany, if_pos rfl, if_neg hne]
    exact hbody
  | false =>
    rw [renderLimits, limitsLines, hany, if_neg Bool.false_ne_true,
      if_pos (limitsMembers_eq_nil.mpr hany)]
    exact .nil

theorem reads_renderCapability {cap : Capability} (hname : Printable cap.name)
    (hscope : ∀ text ∈ cap.scope, Printable text) (hreason : ∀ text ∈ cap.reason, Printable text) :
    Reads (renderCapability cap).toList (itemLines "capabilities" (capabilityMembers cap)) := by
  have hitem : Reads "[[capabilities]]\n".toList [.item "capabilities"] :=
    @Reads.line "[[capabilities]]".toList _ ⟨by decide, rfl⟩
  have hblank : Reads "\n".toList [.blank] := @Reads.line [] _ ⟨rfl, rfl⟩
  have hread := reads_append (reads_append (reads_append (reads_append hitem
    (@reads_pushStr "name" _ (by decide) hname)) (@reads_pushOption "scope" _ (by decide) hscope))
    (@reads_pushOption "reason" _ (by decide) hreason)) hblank
  have hlines : itemLines "capabilities" (capabilityMembers cap) =
      [.item "capabilities"] ++ [.pair "name" (.str cap.name)] ++ pairs (textMember "scope" cap.scope) ++
        pairs (textMember "reason" cap.reason) ++ [.blank] := by
    simp [itemLines, capabilityMembers, pairs]
  rw [hlines]
  exact hread

theorem reads_render (h : manifest.Printable)
    (hfiles : ∀ file ∈ files.entries, Printable file.1 ∧ Printable file.2) :
    Reads (render manifest files).toList (statements manifest files) := by
  have htexts := h.texts
  simp only [Manifest.texts, List.forall_mem_append, List.forall_mem_cons, List.forall_mem_flatMap,
    List.not_mem_nil, IsEmpty.forall_iff, Option.mem_toList] at htexts
  have hschema : Reads "schema_version = 1\n".toList [.pair "schema_version" (.int 1)] :=
    @Reads.line "schema_version = 1".toList _ ⟨by decide, rfl⟩
  have hruntime : Reads "\n[runtime]\nkind = \"wasm\"\nabi = \"novbot:skill@1\"\n".toList
      ([.blank, .header ["runtime"]] ++ pairs [("kind", .str "wasm"), ("abi", .str "novbot:skill@1")]) :=
    reads_append (reads_append (@reads_header "[runtime]" _ ⟨by decide, rfl⟩)
      (@reads_pushStr "kind" "wasm" (by decide) (by decide)))
      (@reads_pushStr "abi" "novbot:skill@1" (by decide) (by decide))
  have hheader : Reads "\n[files]\n".toList [.blank, .header ["files"]] :=
    @reads_header "[files]" _ ⟨by decide, rfl⟩
  have hblank : Reads "\n".toList [.blank] := @Reads.line [] _ ⟨rfl, rfl⟩
  have hbody : Reads (String.join (files.entries.map renderFile)).toList (pairs (fileMembers files)) := by
    have hread := reads_join fun file hmem => reads_renderFile (hfiles file hmem).1 (hfiles file hmem).2
    rw [← List.map_eq_flatMap] at hread
    rw [pairs, fileMembers, List.map_map]
    exact hread
  obtain ⟨⟨⟨⟨⟨⟨⟨hname, hversion, -⟩, hdisplay⟩, hdescription⟩, hpublisher⟩, hmin⟩, hplatforms⟩,
    hcapabilities⟩ := htexts
  have hcaps := reads_join fun cap (hmem : cap ∈ manifest.capabilities) =>
    reads_renderCapability (hcapabilities cap hmem).1 (hcapabilities cap hmem).2.1
      (hcapabilities cap hmem).2.2
  have hnames := reads_append (reads_append hschema (@reads_pushStr "name" _ (by decide) hname))
    (@reads_pushStr "version" _ (by decide) hversion)
  have htexts := reads_append (reads_append (reads_append (reads_append hnames
    (@reads_pushOption "display_name" _ (by decide) hdisplay))
    (@reads_pushOption "description" _ (by decide) hdescription))
    (@reads_pushOption "publisher" _ (by decide) hpublisher))
    (@reads_pushOption "min_node_version" _ (by decide) hmin)
  have hruntime' := reads_append (reads_append (reads_append htexts
    (reads_renderPlatforms hplatforms)) hruntime) (reads_renderLimits h)
  have hread := reads_append (reads_append (reads_append (reads_append hruntime' hheader) hbody) hblank)
    hcaps
  refine Eq.mp (congrArg (Reads _) ?_) hread
  simp [statements, rootMembers, pairs, List.flatMap_map]

end

/-! ## Reading the document -/

theorem sections_statements (manifest : Manifest) (files : SortedMap String String) :
    sections (statements manifest files ++ [.blank]) = (rootMembers manifest,
      (.header ["runtime"], [("kind", .str "wasm"), ("abi", .str "novbot:skill@1")]) ::
      ((if limitsMembers manifest = [] then []
        else [(.header ["runtime", "limits"], limitsMembers manifest)]) ++
      (.header ["files"], fileMembers files) ::
      (manifest.capabilities.map capabilityMembers).map fun members =>
        (.item "capabilities", members))) := by
  have hitems := sections_items "capabilities" (manifest.capabilities.map capabilityMembers) [.blank] rfl
  have hblank : ∀ lines, sections ([.blank] ++ lines) = sections lines := fun _ => rfl
  rw [statements]
  simp only [List.append_assoc]
  rw [sections_pairs, sections_header, sections_pairs, limitsLines]
  split
  · rw [List.nil_append, sections_header, sections_pairs, hblank, hitems]
    simp
  · rw [List.append_assoc, sections_header, sections_pairs, sections_header, sections_pairs, hblank,
      hitems]
    simp

theorem keys_textMember (key : String) (value : Option String) :
    ((textMember key value).map (·.1)).Sublist [key] := by
  cases value with
  | none => exact List.nil_sublist _
  | some text => exact List.Sublist.refl _

theorem keys_numberMember (key : String) (value : Option Nat) :
    ((numberMember key value).map (·.1)).Sublist [key] := by
  cases value with
  | none => exact List.nil_sublist _
  | some n => exact List.Sublist.refl _

theorem keys_platformsMember (platforms : List String) :
    ((platformsMember platforms).map (·.1)).Sublist ["platforms"] := by
  unfold platformsMember
  split
  · exact List.Sublist.refl _
  · exact List.nil_sublist _

theorem keys_rootMembers (manifest : Manifest) :
    ((rootMembers manifest).map (·.1)).Sublist ["schema_version", "name", "version", "display_name",
      "description", "publisher", "min_node_version", "platforms"] := by
  rw [rootMembers, List.map_cons, List.map_cons, List.map_cons]
  simp only [List.map_append]
  have htexts := ((((keys_textMember "display_name" manifest.displayName).append
    (keys_textMember "description" manifest.description)).append
    (keys_textMember "publisher" manifest.publisher)).append
    (keys_textMember "min_node_version" manifest.minNodeVersion)).append
    (keys_platformsMember manifest.platforms)
  exact ((htexts.cons_cons _).cons_cons _).cons_cons _

theorem keys_limitsMembers (manifest : Manifest) :
    ((limitsMembers manifest).map (·.1)).Sublist ["timeout_ms", "memory_mb"] := by
  rw [limitsMembers, List.map_append]
  exact (keys_numberMember _ _).append (keys_numberMember _ _)

theorem keys_capabilityMembers (cap : Capability) :
    ((capabilityMembers cap).map (·.1)).Sublist ["name", "scope", "reason"] := by
  rw [capabilityMembers, List.map_cons, List.map_append]
  exact ((keys_textMember _ _).append (keys_textMember _ _)).cons_cons _

/-- The runtime enters with its limits. -/
theorem addSection_runtime (manifest : Manifest) :
    ((.header ["runtime"], [("kind", .str "wasm"), ("abi", .str "novbot:skill@1")]) ::
      (if limitsMembers manifest = [] then []
        else [(.header ["runtime", "limits"], limitsMembers manifest)])).foldlM addSection
          (rootMembers manifest) =
      some (rootMembers manifest ++ [("runtime", Toml.table (runtimeMembers manifest))]) := by
  have hruntime : (rootMembers manifest).lookup "runtime" = none :=
    lookup_of_keys (keys_rootMembers manifest) (by decide)
  rw [List.foldlM_cons, addSection_header hruntime, Option.bind_eq_bind, Option.bind_some, runtimeMembers]
  split
  · rw [List.append_nil]
    rfl
  · rw [List.foldlM_cons, addSection_inner hruntime rfl]
    rfl

theorem addSections (manifest : Manifest) (files : SortedMap String String) :
    (sections (statements manifest files ++ [.blank])).2.foldlM addSection (rootMembers manifest) =
      some (rootMembers manifest ++ [("runtime", Toml.table (runtimeMembers manifest)),
        ("files", Toml.table (fileMembers files))] ++
        arrayMember "capabilities" (manifest.capabilities.map capabilityMembers)) := by
  have hkeys := keys_rootMembers manifest
  have hfiles : (rootMembers manifest ++ [("runtime", Toml.table (runtimeMembers manifest))]).lookup
      "files" = none := by
    rw [List.lookup_append, lookup_of_keys hkeys (by decide)]
    rfl
  have hcaps : (rootMembers manifest ++ [("runtime", Toml.table (runtimeMembers manifest))] ++
      [("files", Toml.table (fileMembers files))]).lookup "capabilities" = none := by
    rw [List.lookup_append, List.lookup_append, lookup_of_keys hkeys (by decide)]
    rfl
  rw [sections_statements, ← List.cons_append, List.foldlM_append, addSection_runtime,
    Option.bind_eq_bind, Option.bind_some, List.foldlM_cons, addSection_header hfiles,
    Option.bind_eq_bind, Option.bind_some, addSection_items hcaps]
  simp

theorem distinct_of_keys {members : List (String × Toml)} {keys : List String}
    (h : (members.map (·.1)).Sublist keys) (hkeys : keys.Nodup) : distinct members := hkeys.sublist h

theorem document_statements (manifest : Manifest) (files : SortedMap String String) :
    document (statements manifest files ++ [.blank]) = some (documentOf manifest files) := by
  have hfiles : distinct (fileMembers files) := by
    rw [distinct, fileMembers, List.map_map]
    exact files.nodup_keys
  have hdistinct : ∀ part ∈ (sections (statements manifest files ++ [.blank])).2, distinct part.2 := by
    rw [sections_statements, List.forall_mem_cons, List.forall_mem_append, List.forall_mem_cons,
      List.forall_mem_map, List.forall_mem_map]
    refine ⟨by decide, ?_, hfiles, fun cap _ => ?_⟩
    · split
      · exact List.forall_mem_nil _
      · exact List.forall_mem_singleton.mpr (distinct_of_keys (keys_limitsMembers manifest) (by decide))
    · exact distinct_of_keys (keys_capabilityMembers cap) (by decide)
  have hroot : (sections (statements manifest files ++ [.blank])).1 = rootMembers manifest := by
    rw [sections_statements]
  rw [document, hroot, if_pos ⟨distinct_of_keys (keys_rootMembers manifest) (by decide), hdistinct⟩,
    addSections]
  rfl

/-- What is written is the document, to every reader that follows the format. -/
theorem toml_render {read : String → Except String Toml} (conforms : Conforms read)
    {manifest : Manifest} {files : SortedMap String String} (h : manifest.Printable)
    (hfiles : ∀ file ∈ files.entries, Printable file.1 ∧ Printable file.2) :
    read (render manifest files) = .ok (documentOf manifest files) := by
  have hread := (reads_render h hfiles).readDocument
  rw [String.ofList_toList, document_statements] at hread
  exact conforms.plain _ _ hread

end Novbot.Pack
