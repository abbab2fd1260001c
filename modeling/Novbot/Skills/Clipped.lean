import Novbot.Skills.Reported

/-!
# Clipped messages

`clip_message` slices the message of a failed run at byte 512.  Where that byte begins a
character the result is a prefix of the message; where it lies inside one, the slice
panics and the run has no result.
-/

namespace Novbot.Skills

open Text
open Novbot.Runtime (Denial RunOutput)

/-- The first characters of `message`, in at most `maxMessage` bytes. -/
def ClipOf (message clipped : String) : Prop :=
  clipped.toList <+: message.toList ∧ (utf8 clipped.toList).length ≤ maxMessage

theorem sliceTo_eq_some {cs head : List Char} {n : Nat} (h : sliceTo cs n = some head) :
    head <+: cs ∧ (utf8 head).length = n := by
  induction cs generalizing n head with
  | nil =>
    rw [sliceTo] at h
    split at h
    · next hn =>
      cases h
      exact ⟨List.prefix_refl _, hn.symm⟩
    · cases h
  | cons c cs ih =>
    rw [sliceTo] at h
    split at h
    · next hn =>
      cases h
      exact ⟨List.nil_prefix, hn.symm⟩
    · split at h
      · next hwidth =>
        obtain ⟨tail, htail, rfl⟩ := Option.map_eq_some_iff.mp h
        obtain ⟨hinitial, hlen⟩ := ih htail
        refine ⟨List.cons_prefix_cons.mpr ⟨rfl, hinitial⟩, ?_⟩
        have hcons : (utf8 (c :: tail)).length = (utf8 [c]).length + (utf8 tail).length := by
          simp [utf8]
        omega
      · cases h

/-- A message of at most 512 bytes is kept, a longer one is cut to 512. -/
theorem clipMessage_eq_some {message clipped : String} (h : clipMessage message = some clipped) :
    ClipOf message clipped := by
  unfold clipMessage at h
  split at h
  · next hle =>
    cases h
    exact ⟨List.prefix_refl _, hle⟩
  · obtain ⟨head, hhead, rfl⟩ := Option.map_eq_some_iff.mp h
    obtain ⟨hinitial, hlen⟩ := sliceTo_eq_some hhead
    rw [ClipOf, String.toList_ofList]
    exact ⟨hinitial, Nat.le_of_eq hlen⟩

/-- The message in the payload of a result. -/
def reportedMessage (payload : SortedMap String Json) : Option String :=
  ((payload.lookup "error").bind (Json.get "message")).bind Json.asStr

section
variable {codec : Json.Codec} {identity : Identity} {output : RunOutput} {status : String}
  {payload : SortedMap String Json}

@[simp] theorem get_message_errorJson {code message : String} :
    ((errorJson code message).get "message").bind Json.asStr = some message := rfl

/-- The message of a result comes from the error of its run, when the run has one. -/
theorem mapRunOutput_message (h : mapRunOutput codec identity output = some (status, payload))
    {err : Runtime.RunError} (herr : output.error = some err) {message : String}
    (hmessage : reportedMessage payload = some message) :
    clipMessage err.message = some message := by
  rw [mapRunOutput, deniedMessage, herr] at h
  split at h
  · -- a denied run: "denials" and "partial" are written beside its error
    obtain ⟨clipped, hclip, h⟩ := Option.bind_eq_some_iff.mp h
    cases h
    have hclipped : clipMessage err.message = some clipped := hclip
    rw [hclipped, ← hmessage, reportedMessage]
    cases output.partialOutput with
    | none => simp [SortedMap.lookup_insert]
    | some text => simp [SortedMap.lookup_insert]
  · split at h
    · -- a guest that succeeds writes no "error", whatever it prints
      have hnone : payload.lookup "error" = none := by
        cases h
        cases output.output with
        | none => simp [SortedMap.lookup_insert]
        | some text =>
          show (mergeGuestOutput codec _ text).lookup "error" = none
          rw [lookup_mergeGuestOutput (by decide)]
          simp [SortedMap.lookup_insert]
      rw [reportedMessage, hnone] at hmessage
      cases hmessage
    · obtain ⟨clipped, hclip, h⟩ := Option.bind_eq_some_iff.mp h
      cases h
      rw [hclip, ← hmessage, reportedMessage]
      simp [SortedMap.lookup_insert]

/-- The run has a result, and a message in it that comes from the run's error is a prefix
of it, cut between two characters and no longer than the limit. -/
def ClippedResult (codec : Json.Codec) (identity : Identity) (output : RunOutput) : Prop :=
  ∃ status payload, mapRunOutput codec identity output = some (status, payload) ∧
    ∀ err, output.error = some err → ∀ message, reportedMessage payload = some message →
      ClipOf err.message message

/-- The error whose message `map_run_output` clips. -/
def clippedError (output : RunOutput) : Option Runtime.RunError :=
  if output.denials ≠ [] ∨ output.status ≠ "ok" then output.error else none

end

/-- A run has its clipped result, whatever its guest and its host wrote, exactly when no
message is cut inside a character. -/
theorem clippedResult_iff (codec : Json.Codec) (identity : Identity) (output : RunOutput) :
    ClippedResult codec identity output ↔
      ∀ err, clippedError output = some err → Clips err.message := by
  have hclips : (mapRunOutput codec identity output).isSome = true ↔
      ∀ err, clippedError output = some err → Clips err.message := by
    rw [mapRunOutput_isSome_iff, clippedError]
    split
    · next hreported => simp [hreported]
    · next hreported => simp [hreported]
  rw [← hclips, Option.isSome_iff_exists]
  constructor
  · rintro ⟨status, payload, h, -⟩
    exact ⟨(status, payload), h⟩
  · rintro ⟨⟨status, payload⟩, h⟩
    refine ⟨status, payload, h, ?_⟩
    intro err herr message hmessage
    exact clipMessage_eq_some (mapRunOutput_message h herr hmessage)

/-- 511 letters and a character of two bytes, the second of them byte 512. -/
def straddling : List Char := List.replicate 511 'a' ++ ['é']

def straddlingRun : RunOutput := .failed "guest_error" (String.ofList straddling) [] none

/-- A guest that returns an error of 513 bytes leaves the node without a result. -/
theorem message_straddles : ¬ ClippedResult plainCodec sampleIdentity straddlingRun := by
  have hlong : ¬ (utf8 straddling).length ≤ maxMessage := by decide +kernel
  have hcut : sliceTo straddling maxMessage = none := by decide +kernel
  rintro ⟨status, payload, h, -⟩
  rw [mapRunOutput, if_neg (by decide), if_neg (by decide)] at h
  obtain ⟨message, hclip, -⟩ := Option.bind_eq_some_iff.mp h
  have hmessage : clipMessage (String.ofList straddling) = some message := hclip
  unfold clipMessage at hmessage
  rw [String.toList_ofList, if_neg hlong, hcut] at hmessage
  cases hmessage

end Novbot.Skills
