import Novbot.Skills.Desired

/-!
# Package downloads

The center cuts a package into chunks from an offset on (`artifact_chunks`), the
node's source puts a stream of chunks together (`GrpcArtifactSource::fetch`), and
`fetch_package` continues the partial file of a package.  A partial file is only
ever extended by what continues it, so after any interruptions it is still a
prefix of the package (`package_transfers`).
-/

namespace Novbot.Skills

open Novbot.Package Text

def chunkBytes : Nat := 256 * 1024

structure ArtifactChunk where
  offset : Int
  data : Bytes
  totalSize : Int
  deriving DecidableEq, Repr

/-! ## The center -/

/-- The loop of `artifact_chunks` from a cursor. -/
def chunksFrom (bytes : Bytes) (cursor : Nat) : List ArtifactChunk :=
  if cursor < bytes.length then
    let stop := min (cursor + chunkBytes) bytes.length
    ⟨cursor, (bytes.take stop).drop cursor, bytes.length⟩ :: chunksFrom bytes stop
  else []
termination_by bytes.length - cursor
decreasing_by
  have hpos : 0 < chunkBytes := by decide
  omega

def artifactChunks (bytes : Bytes) (offset : Int) : Except String (List ArtifactChunk) :=
  if offset < 0 then .error "offset past artifact"
  else
    let start := offset.toNat
    if start > bytes.length then .error "offset past artifact"
    else if start = bytes.length then .ok [⟨offset, [], bytes.length⟩]
    else .ok (chunksFrom bytes start)

/-! ## The source -/

/-- What the node gets for a `FetchArtifact` request. -/
inductive Response where
  | unconnected (err : String)
  | rejected (message : String)
  | stream (items : List (Except String ArtifactChunk))

def redactStatus (message ticket : String) : String :=
  "fetch failed (" ++ redactTicket message ticket ++ ")"

/-- The loop over the stream. -/
def receive (ticket : String) (offset : Nat) :
    List (Except String ArtifactChunk) → Fetched → Except String Fetched
  | [], fetched => .ok fetched
  | .error message :: _, _ => .error (redactStatus message ticket)
  | .ok chunk :: items, fetched =>
    if chunk.offset < 0 ∨ chunk.totalSize < 0 then
      .error "fetch response has a negative size"
    else if chunk.offset.toNat ≠ offset + fetched.data.length then
      .error "fetch response offset does not continue the download"
    else receive ticket offset items ⟨chunk.totalSize.toNat, fetched.data ++ chunk.data⟩

/-- `GrpcArtifactSource::fetch`. -/
def fetchArtifact (ticket : String) (offset : Nat) : Response → Except String Fetched
  | .unconnected err => .error ("fetch connect failed: " ++ err)
  | .rejected message => .error (redactStatus message ticket)
  | .stream items => receive ticket offset items ⟨0, []⟩

def i64Max : Nat := 2 ^ 63 - 1

/-- The offset in the request. -/
def requestOffset (offset : Nat) : Int := min offset i64Max

/-! ## The partial file -/

/-- What `fetch_package` leaves. -/
structure FetchResult where
  outcome : Except InstallError Bytes
  /-- The partial file. -/
  part : Option Bytes
  /-- The offset of the request, if one was made. -/
  requested : Option Nat

def fetchFailed (detail : String) : InstallError := ⟨.fetchFailed, detail⟩

variable (sha256 : Bytes → String) (attempt : Attempt) (skill : DesiredSkill)

/-- The partial file after a removal whose failure is ignored. -/
def removePart (op : Io) (part : Option Bytes) : Option Bytes :=
  if (attempt.io op).isSome then part else none

/-- The package when the partial file is all of it, and the partial file. -/
def checkPart (part : Option Bytes) : Option Bytes × Option Bytes :=
  match attempt.io .readPart, part with
  | none, some bytes =>
    if skill.sizeBytes > 0 ∧ bytes.length = skill.sizeBytes then
      if sha256 bytes = skill.sha256 then (some bytes, part)
      else (none, removePart attempt .removePart part)
    else if skill.sizeBytes > 0 ∧ bytes.length > skill.sizeBytes then
      (none, removePart attempt .removePart part)
    else (none, part)
  | _, _ => (none, part)

/-- Appends to the partial file. -/
def appendPart (part : Option Bytes) (data : Bytes) : Except String Unit × Option Bytes :=
  match attempt.io .openPart with
  | some err => (.error ("append partial: " ++ err), part)
  | none =>
    match attempt.io .writePart with
    | some err =>
      (.error ("append partial: " ++ err), some (part.getD [] ++ data.take attempt.written))
    | none =>
      match attempt.io .syncPart with
      | some err => (.error ("fsync partial: " ++ err), some (part.getD [] ++ data))
      | none => (.ok (), some (part.getD [] ++ data))

/-- The size of the whole package, 0 when it is not known. -/
def expectedSize (fetched : Fetched) : Nat :=
  if skill.sizeBytes > 0 then skill.sizeBytes else fetched.totalSize

/-- Takes the package from the extended partial file, if it is complete.  `content` is
what was hashed on the way. -/
def takePackage (fetched : Fetched) (content : Bytes) (file : Option Bytes) :
    Except InstallError Bytes × Option Bytes :=
  if expectedSize skill fetched > 0 ∧ (file.getD []).length < expectedSize skill fetched then
    (.error (fetchFailed "download ended before the artifact size"), file)
  else if sha256 content ≠ skill.sha256 then
    (.error ⟨.hashMismatch, "downloaded package sha256 does not match the desired skill"⟩,
      removePart attempt .removePackage file)
  else
    match attempt.io .readPackage with
    | some err => (.error (fetchFailed ("read package: " ++ err)), file)
    | none => (.ok (file.getD []), removePart attempt .removePackage file)

/-- After the answer of the source. -/
def storeFetched (part : Option Bytes) (fetched : Fetched) : Except InstallError Bytes × Option Bytes :=
  match (if (part.getD []).length > 0 then attempt.io .readPrefix else none) with
  | some err => (.error (fetchFailed ("read partial: " ++ err)), part)
  | none =>
    match appendPart attempt part fetched.data with
    | (.error err, file) => (.error (fetchFailed err), file)
    | (.ok (), file) => takePackage sha256 attempt skill fetched (part.getD [] ++ fetched.data) file

def fetchPackage (part : Option Bytes) : FetchResult :=
  match attempt.io .downloadDir with
  | some err => ⟨.error (fetchFailed ("download dir: " ++ err)), part, none⟩
  | none =>
    match checkPart sha256 attempt skill part with
    | (some bytes, file) => ⟨.ok bytes, file, none⟩
    | (none, file) =>
      let offset := (file.getD []).length
      match attempt.fetch offset with
      | .error detail =>
        ⟨.error (fetchFailed (redactTicket detail skill.fetchTicket)), file, some offset⟩
      | .ok fetched =>
        let stored := storeFetched sha256 attempt skill file fetched
        ⟨stored.1, stored.2, some offset⟩

/-! ## Chunks -/

/-- The chunks continue an offset, one after the other. -/
def Contiguous : Nat → List ArtifactChunk → Prop
  | _, [] => True
  | offset, chunk :: chunks =>
    chunk.offset = offset ∧ Contiguous (offset + chunk.data.length) chunks

/-- The chunks are a package from an offset on, cut in any way. -/
structure Delivers (bytes : Bytes) (offset : Nat) (chunks : List ArtifactChunk) : Prop where
  contiguous : Contiguous offset chunks
  whole : (chunks.map (·.data)).flatten = bytes.drop offset
  total : ∀ chunk ∈ chunks, chunk.totalSize = bytes.length

theorem slice_length {bytes : Bytes} (cursor : Nat) {stop : Nat} (hle : stop ≤ bytes.length) :
    ((bytes.take stop).drop cursor).length = stop - cursor := by
  rw [List.length_drop, List.length_take, Nat.min_eq_left hle]

/-- One more chunk before others. -/
theorem Delivers.cons {bytes : Bytes} {cursor stop : Nat} {chunks : List ArtifactChunk}
    (h : Delivers bytes stop chunks) (hlt : cursor ≤ stop) (hle : stop ≤ bytes.length) :
    Delivers bytes cursor (⟨cursor, (bytes.take stop).drop cursor, bytes.length⟩ :: chunks) := by
  refine ⟨⟨rfl, ?_⟩, ?_, ?_⟩
  · show Contiguous (cursor + ((bytes.take stop).drop cursor).length) chunks
    rw [slice_length cursor hle, Nat.add_sub_cancel' hlt]
    exact h.contiguous
  · have hinitial : cursor ≤ (bytes.take stop).length := by
      rw [List.length_take, Nat.min_eq_left hle]
      exact hlt
    rw [List.map_cons, List.flatten_cons, h.whole, ← List.drop_append_of_le_length hinitial,
      List.take_append_drop]
  · intro chunk hchunk
    rcases List.mem_cons.mp hchunk with rfl | hchunk
    · rfl
    · exact h.total chunk hchunk

theorem chunksFrom_delivers (bytes : Bytes) (cursor : Nat) :
    Delivers bytes cursor (chunksFrom bytes cursor) ∧
      ∀ chunk ∈ chunksFrom bytes cursor, chunk.data.length ≤ chunkBytes := by
  induction cursor using chunksFrom.induct bytes with
  | case1 cursor hlt stop ih =>
    have hcursor : cursor ≤ stop := Nat.le_min.mpr ⟨Nat.le_add_right _ _, Nat.le_of_lt hlt⟩
    have hstop : stop ≤ bytes.length := Nat.min_le_right _ _
    have hsize : stop - cursor ≤ chunkBytes :=
      Nat.sub_le_iff_le_add'.mpr (Nat.min_le_left _ _)
    rw [chunksFrom, if_pos hlt]
    refine ⟨ih.1.cons hcursor hstop, fun chunk hchunk => ?_⟩
    rcases List.mem_cons.mp hchunk with rfl | hchunk
    · exact Nat.le_trans (Nat.le_of_eq (slice_length cursor hstop)) hsize
    · exact ih.2 chunk hchunk
  | case2 cursor hge =>
    rw [chunksFrom, if_neg hge]
    refine ⟨⟨trivial, ?_, fun _ h => nomatch h⟩, fun _ h => nomatch h⟩
    rw [List.drop_of_length_le (Nat.le_of_not_lt hge)]
    rfl

/-- The center sends the package from an offset within it on, in chunks of at most
`chunkBytes`. -/
theorem artifactChunks_delivers {bytes : Bytes} {offset : Int} {chunks : List ArtifactChunk}
    (h : artifactChunks bytes offset = .ok chunks) :
    0 ≤ offset ∧ offset ≤ bytes.length ∧ Delivers bytes offset.toNat chunks ∧
      ∀ chunk ∈ chunks, chunk.data.length ≤ chunkBytes := by
  unfold artifactChunks at h
  split at h
  · cases h
  · next hneg =>
    dsimp only at h
    split at h
    · cases h
    · next hpast =>
      have hoffset : (offset.toNat : Int) = offset := Int.toNat_of_nonneg (Int.not_lt.mp hneg)
      refine ⟨Int.not_lt.mp hneg, by omega, ?_⟩
      split at h
      · next hend =>
        cases h
        refine ⟨⟨⟨hoffset.symm, trivial⟩, ?_, ?_⟩, ?_⟩
        · rw [hend, List.drop_length]
          rfl
        · intro chunk hchunk
          rw [List.mem_singleton.mp hchunk]
        · intro chunk hchunk
          rw [List.mem_singleton.mp hchunk]
          exact Nat.zero_le _
      · cases h
        exact chunksFrom_delivers bytes offset.toNat

theorem artifactChunks_isOk {bytes : Bytes} {offset : Int} (hneg : 0 ≤ offset)
    (hle : offset ≤ bytes.length) : ∃ chunks, artifactChunks bytes offset = .ok chunks := by
  unfold artifactChunks
  rw [if_neg (Int.not_lt.mpr hneg), if_neg (by omega)]
  split
  · exact ⟨_, rfl⟩
  · exact ⟨_, rfl⟩

/-! ## Streams -/

/-- The loop takes contiguous chunks. -/
theorem receive_ok {ticket : String} {offset : Nat} {chunks : List ArtifactChunk} {size : Nat}
    (items : List (Except String ArtifactChunk)) (fetched : Fetched)
    (hcontiguous : Contiguous (offset + fetched.data.length) chunks)
    (htotal : ∀ chunk ∈ chunks, chunk.totalSize = size) :
    receive ticket offset (chunks.map .ok ++ items) fetched =
      receive ticket offset items ⟨if chunks = [] then fetched.totalSize else size,
        fetched.data ++ (chunks.map (·.data)).flatten⟩ := by
  induction chunks generalizing fetched with
  | nil => simp
  | cons chunk chunks ih =>
    obtain ⟨hoffset, hrest⟩ := hcontiguous
    have hsize := htotal chunk List.mem_cons_self
    rw [List.map_cons, List.cons_append, receive, if_neg (by omega), if_neg (by omega)]
    rw [ih]
    · simp [hsize]
    · rw [List.length_append, ← Nat.add_assoc]
      exact hrest
    · exact fun chunk hchunk => htotal chunk (.tail _ hchunk)

/-! ## One attempt -/

section

variable {sha256 : Bytes → String} {attempt : Attempt} {skill : DesiredSkill} {part : Option Bytes}

theorem removePart_cases (op : Io) (file : Option Bytes) :
    removePart attempt op file = file ∨ removePart attempt op file = none := by
  unfold removePart
  split
  · exact .inl rfl
  · exact .inr rfl

/-- The check takes a file with the right hash.  It drops only a file that is at
least as long as the package. -/
theorem checkPart_cases {found file : Option Bytes}
    (h : checkPart sha256 attempt skill part = (found, file)) :
    (∃ bytes, found = some bytes ∧ part = some bytes ∧ file = part ∧ sha256 bytes = skill.sha256) ∨
      found = none ∧ (file = part ∨ file = none ∧ 0 < skill.sizeBytes ∧
        skill.sizeBytes ≤ (part.getD []).length) := by
  unfold checkPart at h
  split at h
  · next bytes _ =>
    split at h
    · next hsize =>
      split at h
      · next hsha =>
        cases h
        exact .inl ⟨bytes, rfl, rfl, rfl, hsha⟩
      · obtain ⟨rfl, rfl⟩ := Prod.mk.inj h
        refine .inr ⟨rfl, (removePart_cases _ _).imp_right fun hnone => ⟨hnone, hsize.1, ?_⟩⟩
        exact Nat.le_of_eq hsize.2.symm
    · split at h
      · next hsize =>
        obtain ⟨rfl, rfl⟩ := Prod.mk.inj h
        refine .inr ⟨rfl, (removePart_cases _ _).imp_right fun hnone => ⟨hnone, hsize.1, ?_⟩⟩
        exact Nat.le_of_lt hsize.2
      · cases h
        exact .inr ⟨rfl, .inl rfl⟩
  · cases h
    exact .inr ⟨rfl, .inl rfl⟩

theorem appendPart_file (file : Option Bytes) (data : Bytes) :
    (appendPart attempt file data).2 = file ∨
      ∃ n, (appendPart attempt file data).2 = some (file.getD [] ++ data.take n) := by
  unfold appendPart
  split
  · exact .inl rfl
  · split
    · exact .inr ⟨_, rfl⟩
    · split <;> exact .inr ⟨data.length, by rw [List.take_length]⟩

theorem appendPart_ok {file file' : Option Bytes} {data : Bytes}
    (h : appendPart attempt file data = (.ok (), file')) : file' = some (file.getD [] ++ data) := by
  unfold appendPart at h
  split at h
  · cases h
  · split at h
    · cases h
    · split at h <;> cases h
      rfl

theorem takePackage_file (fetched : Fetched) (content : Bytes) (file : Option Bytes) :
    (takePackage sha256 attempt skill fetched content file).2 = file ∨
      (takePackage sha256 attempt skill fetched content file).2 = none := by
  unfold takePackage
  split
  · exact .inl rfl
  · split
    · exact removePart_cases _ _
    · split
      · exact .inl rfl
      · exact removePart_cases _ _

theorem takePackage_ok {fetched : Fetched} {content got : Bytes} {file : Option Bytes}
    (h : (takePackage sha256 attempt skill fetched content file).1 = .ok got) :
    got = file.getD [] ∧ sha256 content = skill.sha256 := by
  unfold takePackage at h
  split at h
  · cases h
  · split at h
    · cases h
    · next hsha =>
      split at h
      · cases h
      · cases h
        exact ⟨rfl, not_not.mp hsha⟩

/-- What an attempt does to the file: nothing, or it appends data, or removes it. -/
theorem storeFetched_file (file : Option Bytes) (fetched : Fetched) :
    (storeFetched sha256 attempt skill file fetched).2 = file ∨
      (storeFetched sha256 attempt skill file fetched).2 = none ∨
      ∃ n, (storeFetched sha256 attempt skill file fetched).2 =
        some (file.getD [] ++ fetched.data.take n) := by
  have happend := @appendPart_file attempt file fetched.data
  unfold storeFetched
  split
  · exact .inl rfl
  · split
    · next heq =>
      rw [heq] at happend
      exact happend.imp_right .inr
    · next file' heq =>
      rw [heq] at happend
      rcases @takePackage_file sha256 attempt skill fetched (file.getD [] ++ fetched.data) file' with h | h
      · rw [h]
        exact happend.imp_right .inr
      · exact .inr (.inl h)

theorem storeFetched_ok {file : Option Bytes} {fetched : Fetched} {got : Bytes}
    (h : (storeFetched sha256 attempt skill file fetched).1 = .ok got) :
    got = file.getD [] ++ fetched.data ∧ sha256 got = skill.sha256 := by
  unfold storeFetched at h
  split at h
  · cases h
  · split at h
    · cases h
    · next heq =>
      rw [appendPart_ok heq] at h
      obtain ⟨rfl, hsha⟩ := takePackage_ok h
      exact ⟨rfl, hsha⟩

/-- The request of an attempt and the partial file.  The file that is there when the
request is made has the requested offset as its length. -/
def Continues (attempt : Attempt) (skill : DesiredSkill) (part : Option Bytes)
    (result : FetchResult) : Prop :=
  match result.requested with
  | none => result.part = part
  | some offset => ∃ file,
    (file = part ∨ file = none ∧ 0 < skill.sizeBytes ∧ skill.sizeBytes ≤ (part.getD []).length) ∧
    (file.getD []).length = offset ∧
    (result.part = file ∨ result.part = none ∨ ∃ fetched n, attempt.fetch offset = .ok fetched ∧
      result.part = some (file.getD [] ++ fetched.data.take n))

theorem fetchPackage_continues (sha256 : Bytes → String) (attempt : Attempt) (skill : DesiredSkill)
    (part : Option Bytes) :
    Continues attempt skill part (fetchPackage sha256 attempt skill part) := by
  unfold fetchPackage
  split
  · exact rfl
  · split
    · next file hcheck =>
      rcases checkPart_cases hcheck with ⟨_, -, -, rfl, -⟩ | ⟨hnone, -⟩
      · exact rfl
      · cases hnone
    · next file hcheck =>
      rcases checkPart_cases hcheck with ⟨_, hsome, -⟩ | ⟨-, hfile⟩
      · cases hsome
      · dsimp only
        split
        · exact ⟨file, hfile, rfl, .inl rfl⟩
        · next fetched hfetch =>
          refine ⟨file, hfile, rfl, ?_⟩
          rcases storeFetched_file file fetched with h | h | ⟨n, h⟩
          · exact .inl h
          · exact .inr (.inl h)
          · exact .inr (.inr ⟨fetched, n, hfetch, h⟩)

/-- Only bytes with the desired hash are taken. -/
theorem fetchPackage_ok {got : Bytes} (h : (fetchPackage sha256 attempt skill part).outcome = .ok got) :
    sha256 got = skill.sha256 := by
  unfold fetchPackage at h
  split at h
  · cases h
  · split at h
    · next hcheck =>
      rcases checkPart_cases hcheck with ⟨_, hsome, -, -, hsha⟩ | ⟨hnone, -⟩
      · cases hsome
        cases h
        exact hsha
      · cases hnone
    · dsimp only at h
      split at h
      · cases h
      · exact (storeFetched_ok h).2

/-! ## Interruptions -/

/-- What the node gets of the stream of a package from an offset on: nothing, or the
first chunks of it, and perhaps an error after them. -/
def CutShort (bytes : Bytes) (offset : Nat) : Response → Prop
  | .unconnected _ | .rejected _ => True
  | .stream items => ∃ chunks rest tail, items = chunks.map .ok ++ tail ∧
    Delivers bytes offset (chunks ++ rest) ∧ (tail = [] ∨ ∃ message, tail = [.error message])

/-- The attempt asks for a package, and is interrupted somewhere. -/
def Attempt.Interrupted (attempt : Attempt) (ticket : String) (bytes : Bytes) : Prop :=
  ∀ offset, ∃ response, attempt.fetch offset = fetchArtifact ticket offset response ∧
    CutShort bytes offset response

/-- The attempt gets the whole rest of a package, and no file operation fails. -/
structure Attempt.Uninterrupted (attempt : Attempt) (ticket : String) (bytes : Bytes) : Prop where
  io : ∀ op, attempt.io op = none
  stream : ∀ offset, offset ≤ bytes.length → ∃ chunks, Delivers bytes offset chunks ∧
    attempt.fetch offset = fetchArtifact ticket offset (.stream (chunks.map .ok))

theorem Contiguous.left {offset : Nat} {chunks rest : List ArtifactChunk}
    (h : Contiguous offset (chunks ++ rest)) : Contiguous offset chunks := by
  induction chunks generalizing offset with
  | nil => trivial
  | cons chunk chunks ih => exact ⟨h.1, ih h.2⟩

theorem fetchArtifact_initial {ticket : String} {bytes : Bytes} {offset : Nat} {response : Response}
    {fetched : Fetched} (hcut : CutShort bytes offset response)
    (h : fetchArtifact ticket offset response = .ok fetched) :
    fetched.data <+: bytes.drop offset := by
  cases response with
  | unconnected err => cases h
  | rejected message => cases h
  | stream items =>
    obtain ⟨chunks, rest, tail, rfl, hdelivers, htail⟩ := hcut
    rw [fetchArtifact, @receive_ok ticket offset chunks bytes.length tail ⟨0, []⟩
      hdelivers.contiguous.left fun chunk hchunk =>
        hdelivers.total chunk (List.mem_append_left _ hchunk)] at h
    have hdata : (chunks.map (·.data)).flatten <+: bytes.drop offset := by
      rw [← hdelivers.whole, List.map_append, List.flatten_append]
      exact List.prefix_append _ _
    rcases htail with rfl | ⟨message, rfl⟩
    · cases h
      exact hdata
    · cases h

/-- What continues a prefix gives a longer prefix. -/
theorem append_initial {file data bytes : Bytes} (hfile : file <+: bytes)
    (hdata : data <+: bytes.drop file.length) : file ++ data <+: bytes := by
  obtain ⟨rest, rfl⟩ := hfile
  rw [List.drop_left] at hdata
  exact List.prefix_append_right_inj file |>.mpr hdata

/-- An interrupted attempt leaves a prefix of the package. -/
theorem fetchPackage_initial {bytes : Bytes} (hpart : part.getD [] <+: bytes)
    (hcut : attempt.Interrupted skill.fetchTicket bytes) :
    (fetchPackage sha256 attempt skill part).part.getD [] <+: bytes := by
  have hcontinues := fetchPackage_continues sha256 attempt skill part
  unfold Continues at hcontinues
  split at hcontinues
  · rw [hcontinues]
    exact hpart
  · obtain ⟨file, hfile, rfl, hafter⟩ := hcontinues
    have hinitial : file.getD [] <+: bytes := by
      rcases hfile with rfl | ⟨rfl, -⟩
      · exact hpart
      · exact List.nil_prefix
    rcases hafter with h | h | ⟨fetched, n, hfetch, h⟩
    · rw [h]
      exact hinitial
    · rw [h]
      exact List.nil_prefix
    · obtain ⟨response, heq, hresponse⟩ := hcut (file.getD []).length
      have hdata := fetchArtifact_initial hresponse (heq.symm.trans hfetch)
      rw [h]
      exact append_initial hinitial ((List.take_prefix n _).trans hdata)

/-- The check of a prefix: it is the package, or it stays. -/
theorem checkPart_initial {bytes : Bytes} (hsha : sha256 bytes = skill.sha256)
    (hsize : skill.sizeBytes = 0 ∨ skill.sizeBytes = bytes.length) (hpart : part.getD [] <+: bytes)
    (hio : attempt.io .readPart = none) :
    checkPart sha256 attempt skill part = (some bytes, part) ∨
      checkPart sha256 attempt skill part = (none, part) := by
  unfold checkPart
  rw [hio]
  cases part with
  | none => exact .inr rfl
  | some content =>
    have hinitial : content <+: bytes := hpart
    dsimp only
    split
    · next hwhole =>
      have heq : content = bytes := by
        refine hinitial.eq_of_length ?_
        omega
      rw [heq, if_pos hsha]
      exact .inl rfl
    · rw [if_neg]
      · exact .inr rfl
      · have hle := hinitial.length_le
        omega

theorem storeFetched_whole {bytes : Bytes} {file : Option Bytes} {fetched : Fetched}
    (hsha : sha256 bytes = skill.sha256)
    (hsize : expectedSize skill fetched = 0 ∨ expectedSize skill fetched = bytes.length)
    (hdata : file.getD [] ++ fetched.data = bytes) (hio : ∀ op, attempt.io op = none) :
    (storeFetched sha256 attempt skill file fetched).1 = .ok bytes := by
  have happend : appendPart attempt file fetched.data = (.ok (), some bytes) := by
    unfold appendPart
    rw [hio, hio, hio, hdata]
  have hread : (if (file.getD []).length > 0 then attempt.io .readPrefix else none) = none := by
    rw [hio, ite_self]
  unfold storeFetched
  rw [hread, happend]
  dsimp only
  rw [takePackage, if_neg, if_neg, hio, Option.getD_some]
  · rw [hdata]
    exact not_not.mpr hsha
  · rw [Option.getD_some]
    omega

/-- An uninterrupted attempt returns the package, whatever prefix is there. -/
theorem fetchPackage_whole {bytes : Bytes} (hsha : sha256 bytes = skill.sha256)
    (hsize : skill.sizeBytes = 0 ∨ skill.sizeBytes = bytes.length) (hpart : part.getD [] <+: bytes)
    (hwhole : attempt.Uninterrupted skill.fetchTicket bytes) :
    (fetchPackage sha256 attempt skill part).outcome = .ok bytes := by
  unfold fetchPackage
  rw [hwhole.io .downloadDir]
  rcases checkPart_initial hsha hsize hpart (hwhole.io .readPart) with h | h
  · rw [h]
  · rw [h]
    obtain ⟨chunks, hdelivers, hfetch⟩ := hwhole.stream (part.getD []).length hpart.length_le
    have hreceive := @receive_ok skill.fetchTicket _ _ _ [] ⟨0, []⟩ hdelivers.contiguous hdelivers.total
    rw [List.append_nil, hdelivers.whole] at hreceive
    dsimp only
    rw [hfetch, fetchArtifact, hreceive, receive]
    refine storeFetched_whole hsha ?_ ?_ hwhole.io
    · unfold expectedSize
      split
      · exact .inr (hsize.resolve_left (by omega))
      · split
        · exact .inl rfl
        · exact .inr rfl
    · obtain ⟨rest, rfl⟩ := hpart
      rw [List.drop_left]
      rfl

end

/-! ## Runs of attempts -/

/-- One attempt of a run: the partial file before it, and what it leaves. -/
structure Transfer where
  part : Option Bytes
  attempt : Attempt
  result : FetchResult

variable (sha256 : Bytes → String) (skill : DesiredSkill)

/-- Attempts one after the other, each from the file that the one before leaves. -/
def transfers : Option Bytes → List Attempt → List Transfer
  | _, [] => []
  | part, attempt :: attempts =>
    let result := fetchPackage sha256 attempt skill part
    ⟨part, attempt, result⟩ :: transfers result.part attempts

def partAfter : Option Bytes → List Attempt → Option Bytes
  | part, [] => part
  | part, attempt :: attempts => partAfter (fetchPackage sha256 attempt skill part).part attempts

variable {sha256 skill}

theorem mem_transfers {part : Option Bytes} {attempts : List Attempt} {transfer : Transfer}
    (h : transfer ∈ transfers sha256 skill part attempts) :
    transfer.result = fetchPackage sha256 transfer.attempt skill transfer.part := by
  induction attempts generalizing part with
  | nil => cases h
  | cons attempt attempts ih =>
    rcases List.mem_cons.mp h with rfl | h
    · rfl
    · exact ih h

/-- After any interruptions the partial file is a prefix of the package. -/
theorem partAfter_initial {bytes : Bytes} {part : Option Bytes} {attempts : List Attempt}
    (hpart : part.getD [] <+: bytes)
    (hattempts : ∀ attempt ∈ attempts, attempt.Interrupted skill.fetchTicket bytes) :
    (partAfter sha256 skill part attempts).getD [] <+: bytes := by
  induction attempts generalizing part with
  | nil => exact hpart
  | cons attempt attempts ih =>
    obtain ⟨hattempt, hrest⟩ := List.forall_mem_cons.mp hattempts
    exact ih (fetchPackage_initial hpart hattempt) hrest

/-- Chunks from an offset are the package from there on.  Over every run of attempts
each request continues the partial file, and only bytes with the desired hash are
taken.  After interruptions an attempt without one returns the package. -/
theorem package_transfers (sha256 : Bytes → String) (skill : DesiredSkill) (bytes : Bytes) :
    (∀ offset : Int, (0 ≤ offset ∧ offset ≤ bytes.length ↔
        ∃ chunks, artifactChunks bytes offset = .ok chunks) ∧
      ∀ chunks, artifactChunks bytes offset = .ok chunks →
        Delivers bytes offset.toNat chunks ∧ ∀ chunk ∈ chunks, chunk.data.length ≤ chunkBytes) ∧
    (∀ part attempts, ∀ transfer ∈ transfers sha256 skill part attempts,
      Continues transfer.attempt skill transfer.part transfer.result ∧
      ∀ got, transfer.result.outcome = .ok got → sha256 got = skill.sha256) ∧
    (sha256 bytes = skill.sha256 → (skill.sizeBytes = 0 ∨ skill.sizeBytes = bytes.length) →
      ∀ part attempts last, part.getD [] <+: bytes →
        (∀ attempt ∈ attempts, attempt.Interrupted skill.fetchTicket bytes) →
        last.Uninterrupted skill.fetchTicket bytes →
        (fetchPackage sha256 last skill (partAfter sha256 skill part attempts)).outcome = .ok bytes) := by
  refine ⟨fun offset => ⟨⟨fun ⟨hneg, hle⟩ => artifactChunks_isOk hneg hle, ?_⟩, ?_⟩, ?_, ?_⟩
  · rintro ⟨chunks, h⟩
    obtain ⟨hneg, hle, -⟩ := artifactChunks_delivers h
    exact ⟨hneg, hle⟩
  · intro chunks h
    exact (artifactChunks_delivers h).2.2
  · intro part attempts transfer htransfer
    rw [mem_transfers htransfer]
    exact ⟨fetchPackage_continues .., fun got => fetchPackage_ok⟩
  · intro hsha hsize part attempts last hpart hattempts hlast
    exact fetchPackage_whole hsha hsize (partAfter_initial hpart hattempts) hlast

/-- The package of two bytes. -/
def twoBytes : Bytes := [0x7B, 0x7D]

def twoBytesSkill : DesiredSkill where
  name := "uptime"
  version := "1.0.0"
  sha256 := "44136fa355b3678a1146ad16f7e8649e94fb4fc21fe77e8310c060f61caaff8a"
  sizeBytes := 2
  abi := abi
  signatureEnvelope := []
  fetchTicket := "ticket"

def twoBytesSha256 (bytes : Bytes) : String :=
  if bytes = twoBytes then twoBytesSkill.sha256
  else "021fb596db81e6d02bf3d2586ee3981fe519f275c0ac9ca76bbcf2ebb4097d96"

/-- An attempt that gets one chunk of at most `size` bytes, and then an error if there
is one. -/
def oneChunk (size : Nat) (tail : List (Except String ArtifactChunk)) : Attempt where
  fetch offset :=
    fetchArtifact "ticket" offset (.stream (.ok ⟨offset, (twoBytes.drop offset).take size, 2⟩ :: tail))
  io _ := none
  written := 0
  left _ _ := none
  took := 0
  late := 0

theorem package_transfers_sample :
    (fetchPackage twoBytesSha256 (oneChunk 2 []) twoBytesSkill
      (partAfter twoBytesSha256 twoBytesSkill none [oneChunk 1 [], oneChunk 2 [.error "reset"]])).outcome =
      .ok twoBytes := by
  refine (package_transfers twoBytesSha256 twoBytesSkill twoBytes).2.2 (if_pos rfl) (.inr rfl) none _ _
    List.nil_prefix ?_ ⟨fun _ => rfl, fun offset hoffset => ?_⟩
  · have hcut : ∀ size tail, (tail = [] ∨ ∃ message, tail = [.error message]) →
        (oneChunk size tail).Interrupted twoBytesSkill.fetchTicket twoBytes := by
      intro size tail htail offset
      refine ⟨.stream (.ok ⟨offset, (twoBytes.drop offset).take size, 2⟩ :: tail), rfl,
        [⟨offset, (twoBytes.drop offset).take size, 2⟩],
        [⟨offset + ((twoBytes.drop offset).take size).length, (twoBytes.drop offset).drop size, 2⟩],
        tail, rfl, ⟨⟨rfl, by simp, trivial⟩, ?_, ?_⟩, htail⟩
      · simp
      · intro chunk hchunk
        simp only [List.cons_append, List.nil_append, List.mem_cons, List.not_mem_nil, or_false] at hchunk
        rcases hchunk with rfl | rfl <;> rfl
    intro attempt hattempt
    simp only [List.mem_cons, List.not_mem_nil, or_false] at hattempt
    rcases hattempt with rfl | rfl
    · exact hcut 1 [] (.inl rfl)
    · exact hcut 2 _ (.inr ⟨"reset", rfl⟩)
  · refine ⟨[⟨offset, (twoBytes.drop offset).take 2, 2⟩], ⟨⟨rfl, trivial⟩, ?_, ?_⟩, rfl⟩
    · rw [List.map_singleton, List.flatten_singleton]
      exact List.take_of_length_le (by simp [twoBytes])
    · intro chunk hchunk
      rw [List.mem_singleton.mp hchunk]
      rfl

end Novbot.Skills
