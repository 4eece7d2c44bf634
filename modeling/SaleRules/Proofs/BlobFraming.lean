import SaleRules.Blob
import SaleRules.Proofs.Outcomes
import SaleRules.Proofs.SchemaInversion

/-!
# Blobs and the configs in them

A blob is accepted if and only if it is the frame followed by the encoding of a config whose lists
are short enough to be read. Hence blobs and the configs read from them determine each other, and
what differs from a blob in the frame or goes on behind its end is refused.
-/
namespace SaleRules.Blob

open Schema Reader

/-! ## The frame -/

theorem expect_append_of_length {wanted found : Bytes} (hlen : found.length = wanted.length)
    (otherwise : BlobError) (rest : Bytes) :
    expect wanted otherwise (found ++ rest) =
      if found = wanted then .ok rest else .error otherwise := by
  have h := take_append ⟨found, hlen⟩ rest
  simp only [expect, h]

theorem expect_eq_ok_iff {wanted input rest : Bytes} {otherwise : BlobError} :
    expect wanted otherwise input = .ok rest ↔ input = wanted ++ rest := by
  constructor
  · intro h
    rw [expect] at h
    split at h
    · next found mid hread =>
      split at h
      · next hfound =>
        rw [take_eq_ok_iff.mp hread, hfound, Except.ok.inj h]
      · cases h
    · cases h
  · rintro rfl
    exact expect_append wanted otherwise rest

/-- The parts of the frame are compared from front to back. -/
theorem toConfig_append {m v l : Bytes} (hm : m.length = magic.length)
    (hv : v.length = version.length) (hl : l.length = layout.length) (rest : Bytes) :
    toConfig (m ++ (v ++ (l ++ rest))) =
      if m = magic then
        if v = version then
          if l = layout then readConfig rest else .error .unsupportedLayout
        else .error .unsupportedVersion
      else .error .badMagic := by
  have hlong : ¬ (m ++ (v ++ (l ++ rest))).length < magic.length := by
    rw [List.length_append]
    omega
  rw [toConfig, if_neg hlong, expect_append_of_length hm]
  by_cases h₁ : m = magic
  · rw [if_pos h₁, if_pos h₁]
    simp only [Except.bind, expect_append_of_length hv]
    by_cases h₂ : v = version
    · rw [if_pos h₂, if_pos h₂]
      simp only [expect_append_of_length hl]
      by_cases h₃ : l = layout
      · rw [if_pos h₃, if_pos h₃]
      · rw [if_neg h₃, if_neg h₃]
    · rw [if_neg h₂, if_neg h₂]
  · rw [if_neg h₁, if_neg h₁]
    rfl

theorem frame_of_toConfig {blob : Bytes} {c : StateConfig} (h : toConfig blob = .ok c) :
    ∃ rest, blob = frame ++ rest := by
  rw [toConfig] at h
  split at h
  · cases h
  · simp only [Except.bind_eq_ok_iff, expect_eq_ok_iff] at h
    obtain ⟨_, rfl, _, rfl, rest, rfl, -⟩ := h
    refine ⟨rest, ?_⟩
    rw [frame, List.append_assoc, List.append_assoc]

/-! ## The config behind it -/

theorem readConfig_append {c : StateConfig} (hc : config.Readable c) (rest : Bytes) :
    readConfig (config.encode c ++ rest) =
      if rest = [] then .ok c else .error .trailingBytes := by
  rw [readConfig, (reader_inverts config).apply_append hc rest]
  cases rest with
  | nil => rfl
  | cons b rest => rfl

theorem readConfig_eq_ok_iff {input : Bytes} {c : StateConfig} :
    readConfig input = .ok c ↔ input = config.encode c ∧ config.Readable c := by
  constructor
  · intro h
    rw [readConfig] at h
    split at h
    · next d hread =>
      obtain ⟨hinput, hd⟩ := (reader_inverts config input d []).mp hread
      rw [List.append_nil] at hinput
      exact Except.ok.inj h ▸ ⟨hinput, hd⟩
    · cases h
    · cases h
  · intro hx
    obtain ⟨rfl, hc⟩ := hx
    have h := readConfig_append hc []
    rwa [List.append_nil, if_pos rfl] at h

theorem toConfig_eq_ok_iff {blob : Bytes} {c : StateConfig} :
    toConfig blob = .ok c ↔ blob = ofConfig c ∧ config.Readable c := by
  constructor
  · intro h
    obtain ⟨rest, rfl⟩ := frame_of_toConfig h
    rw [toConfig_frame, readConfig_eq_ok_iff] at h
    exact ⟨congrArg (frame ++ ·) h.1, h.2⟩
  · intro hx
    obtain ⟨rfl, hc⟩ := hx
    rw [ofConfig, toConfig_frame, readConfig_eq_ok_iff]
    exact ⟨rfl, hc⟩

theorem toConfig_ofConfig_append {c : StateConfig} (hc : config.Readable c) {extra : Bytes}
    (hextra : extra ≠ []) : toConfig (ofConfig c ++ extra) = .error .trailingBytes := by
  rw [ofConfig, List.append_assoc, toConfig_frame, readConfig_append hc, if_neg hextra]

theorem toConfig_ofConfig_long {c : StateConfig} (hsized : config.Addressable c)
    (hc : ¬ config.Readable c) : toConfig (ofConfig c) = .error (.content .lengthOverflow) := by
  obtain ⟨left, hleft⟩ := reader_refuses config c [] hsized hc
  rw [List.append_nil] at hleft
  rw [ofConfig, toConfig_frame, readConfig, hleft]

theorem ofConfig_inj {c d : StateConfig} (hc : config.Addressable c) (hd : config.Addressable d)
    (h : ofConfig c = ofConfig d) : c = d := by
  have hencode : config.encode c ++ [] = config.encode d ++ [] := by
    rw [List.append_cancel_left h]
  exact (encode_delimited config c d [] [] hc hd hencode).1

/-- Eleven bytes in the place of the frame that differ from it anywhere are refused. -/
theorem toConfig_of_ne_frame {head : Bytes} (hlen : head.length = frame.length)
    (hne : head ≠ frame) (rest : Bytes) :
    ∃ e ∈ [BlobError.badMagic, .unsupportedVersion, .unsupportedLayout],
      toConfig (head ++ rest) = .error e := by
  have hframe : frame.length = 11 := rfl
  have hm : (head.take 7).length = magic.length := by
    rw [List.length_take, hlen, hframe]
    rfl
  have hv : ((head.drop 7).take 3).length = version.length := by
    rw [List.length_take, List.length_drop, hlen, hframe]
    rfl
  have hl : (head.drop 10).length = layout.length := by
    rw [List.length_drop, hlen, hframe]
    rfl
  have hhead : head = head.take 7 ++ ((head.drop 7).take 3 ++ head.drop 10) := by
    rw [← List.drop_drop (i := 3) (j := 7), List.take_append_drop, List.take_append_drop]
  have hread := toConfig_append hm hv hl rest
  rw [← List.append_assoc, ← List.append_assoc, List.append_assoc (head.take 7), ← hhead] at hread
  rw [hread]
  by_cases h₁ : head.take 7 = magic
  · by_cases h₂ : (head.drop 7).take 3 = version
    · by_cases h₃ : head.drop 10 = layout
      · refine absurd ?_ hne
        rw [hhead, h₁, h₂, h₃, frame, List.append_assoc]
      · exact ⟨.unsupportedLayout, by simp, by rw [if_pos h₁, if_pos h₂, if_neg h₃]⟩
    · exact ⟨.unsupportedVersion, by simp, by rw [if_pos h₁, if_neg h₂]⟩
  · exact ⟨.badMagic, by simp, by rw [if_neg h₁]⟩

/-- Exactly the blobs of configs whose lists are short enough are accepted, so a blob and its config
determine each other. No other frame stands in for the frame and nothing follows the config; the
blob of a config with a longer list is refused for that list's length. -/
theorem toConfig_accepts_blobs :
    (∀ blob c, toConfig blob = .ok c ↔ blob = ofConfig c ∧ config.Readable c) ∧
    (∀ blob blob' c, toConfig blob = .ok c → toConfig blob' = .ok c → blob = blob') ∧
    (∀ c d : StateConfig, config.Addressable c → config.Addressable d →
      ofConfig c = ofConfig d → c = d) ∧
    (∀ head rest : Bytes, head.length = frame.length → head ≠ frame →
      ∃ e ∈ [BlobError.badMagic, .unsupportedVersion, .unsupportedLayout],
        toConfig (head ++ rest) = .error e) ∧
    (∀ blob c extra, toConfig blob = .ok c → extra ≠ [] →
      toConfig (blob ++ extra) = .error .trailingBytes) ∧
    (∀ c : StateConfig, config.Addressable c → ¬ config.Readable c →
      ∃ e, toConfig (ofConfig c) = .error e ∧ e.reason = "length prefix overflow") := by
  refine ⟨fun blob c => toConfig_eq_ok_iff, ?_, fun c d => ofConfig_inj, ?_, ?_, ?_⟩
  · intro blob blob' c h h'
    rw [(toConfig_eq_ok_iff.mp h).1, (toConfig_eq_ok_iff.mp h').1]
  · intro head rest hlen hne
    exact toConfig_of_ne_frame hlen hne rest
  · intro blob c extra h hextra
    obtain ⟨rfl, hc⟩ := toConfig_eq_ok_iff.mp h
    exact toConfig_ofConfig_append hc hextra
  · intro c hsized hc
    exact ⟨_, toConfig_ofConfig_long hsized hc, rfl⟩

theorem toConfig_accepts_blobs_long :
    let c : StateConfig := ⟨[⟨[6, 0]⟩, ⟨List.replicate 1000001 0⟩], [Word.max], 3, 0⟩
    config.Addressable c ∧ ¬ config.Readable c ∧
      ∃ e, toConfig (ofConfig c) = .error e ∧ e.reason = "length prefix overflow" := by
  intro c
  have hlen : (List.replicate 1000001 (0 : UInt8)).length = 1000001 := List.length_replicate
  have hsized : config.Addressable c := by
    refine ⟨by decide, List.forall_mem_cons.mpr ⟨by decide, ?_⟩, by decide⟩
    refine List.forall_mem_singleton.mpr ?_
    rw [hlen]
    decide
  have hlong : ¬ config.Readable c := by
    intro h
    have hle := h.2.1 _ (List.mem_cons_of_mem _ (List.mem_singleton_self _))
    rw [hlen] at hle
    exact absurd hle (by decide)
  exact ⟨hsized, hlong, toConfig_accepts_blobs.2.2.2.2.2 c hsized hlong⟩

end SaleRules.Blob
