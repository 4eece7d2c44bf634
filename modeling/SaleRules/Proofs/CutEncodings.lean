import SaleRules.Proofs.BlobFraming
import SaleRules.Proofs.ReaderSteps

/-!
# Encodings that are cut short

A reader that had its answer from the front of an encoding would give the same one to the whole of
it, but there it finds the value and leaves nothing. The front of an encoding therefore runs out of
input, wherever the cut is; and so does the front of a blob, unless not even the magic is there.
-/
namespace SaleRules

namespace Reader

/-- No shorter front of what is written for a value has an answer of its own. -/
theorem endOfInput_of_cut {α : Type} {r : Reader α} {write : α → Bytes} {Allowed : α → Prop}
    {bound : Nat} (hsteps : Stepwise bound [] r) (hinverts : Inverts r write Allowed) {a : α}
    (ha : Allowed a) {front : Bytes} (hfront : front <+: write a) (hne : front ≠ write a) :
    ∃ left, r front = (.error .endOfInput, left) := by
  obtain ⟨back, hwhole⟩ := hfront
  obtain ⟨outcome, left, hread⟩ : ∃ outcome left, r front = (outcome, left) := ⟨_, _, rfl⟩
  by_cases hend : outcome = .error .endOfInput
  · exact ⟨left, hend ▸ hread⟩
  · have hlong := hsteps.apply_append hread hend back
    have hall := hinverts.apply_append ha []
    rw [List.append_nil, ← hwhole, hlong] at hall
    have hback : back = [] := (List.append_eq_nil_iff.mp (congrArg Prod.snd hall)).2
    rw [hback, List.append_nil] at hwhole
    exact absurd hwhole hne

end Reader

namespace Blob

open Schema

/-- A front of two parts is cut in the first, or holds it and a front of the second. -/
theorem prefix_append_cases {first second front : Bytes} (h : front <+: first ++ second) :
    front.length < first.length ∨ ∃ rest, front = first ++ rest ∧ rest <+: second := by
  rcases Nat.lt_or_ge front.length first.length with hlt | hge
  · exact .inl hlt
  · obtain ⟨rest, rfl⟩ := List.prefix_of_prefix_length_le (List.prefix_append first second) h hge
    exact .inr ⟨rest, rfl, (List.prefix_append_right_inj first).mp h⟩

/-- Whatever is cut off the end of the input, the reader reports that it ended. -/
def EndsEarly (read : Bytes → Except BlobError StateConfig) (whole : Bytes) : Prop :=
  ∀ front, front <+: whole → front ≠ whole → read front = .error (.content .endOfInput)

theorem readConfig_endsEarly {c : StateConfig} (hc : config.Readable c) :
    EndsEarly readConfig (config.encode c) := by
  intro front hfront hne
  obtain ⟨left, hread⟩ :=
    Reader.endOfInput_of_cut (reader_stepwise config []) (reader_inverts config) hc hfront hne
  rw [readConfig, hread]

theorem EndsEarly.expect {read : Bytes → Except BlobError StateConfig} {whole : Bytes}
    (h : EndsEarly read whole) (wanted : Bytes) (otherwise : BlobError) :
    EndsEarly (fun input => (expect wanted otherwise input).bind read) (wanted ++ whole) := by
  intro front hfront hne
  rcases prefix_append_cases hfront with hshort | ⟨rest, rfl, hrest⟩
  · simp only [Blob.expect, Reader.take_of_short hshort, Except.bind]
  · simp only [expect_append, Except.bind]
    exact h rest hrest fun heq => hne (congrArg (wanted ++ ·) heq)

theorem toConfig_of_cut {c : StateConfig} (hc : config.Readable c) {front : Bytes}
    (hfront : front <+: ofConfig c) (hne : front ≠ ofConfig c) :
    toConfig front =
      .error (if front.length < 7 then .truncated else .content .endOfInput) := by
  have hmagic : magic.length = 7 := rfl
  have hparts : ofConfig c = magic ++ (version ++ (layout ++ config.encode c)) := by
    rw [ofConfig, frame, List.append_assoc, List.append_assoc]
  have hends := (((readConfig_endsEarly hc).expect layout .unsupportedLayout).expect version
    .unsupportedVersion).expect magic .badMagic
  rw [hparts] at hfront hne
  rw [toConfig, hmagic]
  split
  · rfl
  · exact hends front hfront hne

/-- What is cut off an encoding is missed, never taken for a smaller value and never for a length:
a reader runs out of input wherever the cut is. A blob that is cut short says so, in words of its
own where not even the magic is left. -/
theorem cut_short_reported :
    (∀ (t : Schema) (v : t.Val) (front : Bytes), t.Readable v → front <+: t.encode v →
      front ≠ t.encode v →
      (∃ left, t.reader front = (.error .endOfInput, left)) ∧
        t.decode front = .error .endOfInput) ∧
    (∀ (c : StateConfig) (front : Bytes), config.Readable c → front <+: ofConfig c →
      front ≠ ofConfig c →
      ∃ e, toConfig front = .error e ∧
        e.reason = if front.length < 7 then "truncated" else "unexpected end of input") := by
  constructor
  · intro t v front hv hfront hne
    obtain ⟨left, hread⟩ :=
      Reader.endOfInput_of_cut (reader_stepwise t []) (reader_inverts t) hv hfront hne
    exact ⟨⟨left, hread⟩, decode_of_error hread⟩
  · intro c front hc hfront hne
    refine ⟨_, toConfig_of_cut hc hfront hne, ?_⟩
    split <;> rfl

/-- The cuts are inside the length of the second inner list, and inside the constant. -/
theorem cut_short_reported_nested :
    let v : (list (list u16)).Val := [[1], [2, 3]]
    let inner := ((list (list u16)).encode v).take 21
    let c : StateConfig := ⟨[⟨[6, 0]⟩], [Word.max], 3, 0⟩
    let blob := (ofConfig c).take 60
    ((list (list u16)).Readable v ∧ inner ≠ (list (list u16)).encode v ∧
      (list (list u16)).decode inner = .error .endOfInput) ∧
    (config.Readable c ∧ blob ≠ ofConfig c ∧
      ∃ e, toConfig blob = .error e ∧ e.reason = "unexpected end of input") := by
  intro v inner c blob
  have hv : (list (list u16)).Readable v := by
    refine ⟨by decide, List.forall_mem_cons.mpr ⟨⟨by decide, fun _ _ => trivial⟩, ?_⟩⟩
    exact List.forall_mem_singleton.mpr ⟨by decide, fun _ _ => trivial⟩
  have hc : config.Readable c := ⟨by decide, List.forall_mem_singleton.mpr (by decide), by decide⟩
  have hinner : inner ≠ (list (list u16)).encode v := by decide
  have hblob : blob ≠ ofConfig c := by decide
  have hread := cut_short_reported.1 _ v inner hv (List.take_prefix _ _) hinner
  have hconfig := cut_short_reported.2 c blob hc (List.take_prefix _ _) hblob
  exact ⟨⟨hv, hinner, hread.2⟩, hc, hblob, hconfig⟩

end Blob

end SaleRules
