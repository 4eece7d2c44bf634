import SaleRules.Proofs.FilesKept
import SaleRules.Proofs.LogRecords
import SaleRules.Proofs.SchemaInversion

/-!
# The sizes of encodings

A sink that counts and a sink that keeps are given the same pieces, so whatever went to either of
them before, the one counts what the other keeps. How much that is can be told from a value without
writing it: every integer has its width, and a list takes eight bytes and what its elements take.
The size of a blob is the one that is reported for its file.
-/
namespace SaleRules

/-! ## Pieces -/

theorem Sink.count_eq_length {counter : ByteCount} {buffer : Buffer}
    (h : counter.count = buffer.bytes.length) (pieces : List Bytes) :
    (writeAll counter pieces).count = (writeAll buffer pieces).bytes.length := by
  rw [count_writeAll, bytes_writeAll, List.length_append, h]

namespace Schema

/-! ## Records -/

/-- A field of a record: what its type is called and its value. -/
abbrev Field := (t : Schema) × t.Val

/-- A record is written by its fields, one after another. -/
def encodeFields {σ : Type} [Sink σ] (sink : σ) (fields : List Field) : σ :=
  fields.foldl (fun sink field => field.1.encodeInto sink field.2) sink

/-- The bytes of the fields one after another. -/
def joined (fields : List Field) : Bytes := fields.flatMap fun field => field.1.encode field.2

theorem bytes_encodeFields (sink : Buffer) (fields : List Field) :
    (encodeFields sink fields).bytes = sink.bytes ++ joined fields := by
  induction fields generalizing sink with
  | nil => simp [encodeFields, joined]
  | cons field fields ih =>
    have h := ih (field.1.encodeInto sink field.2)
    rw [bytes_encodeInto] at h
    simpa [encodeFields, joined] using h

theorem count_encodeFields (sink : ByteCount) (fields : List Field) :
    (encodeFields sink fields).count = sink.count + (joined fields).length := by
  induction fields generalizing sink with
  | nil => simp [encodeFields, joined]
  | cons field fields ih =>
    have h := ih (field.1.encodeInto sink field.2)
    rw [count_encodeInto] at h
    simpa [encodeFields, joined, Nat.add_assoc] using h

def configFields (c : StateConfig) : List Field :=
  [⟨list source, c.sources⟩, ⟨list word, c.constants⟩, ⟨u32, c.stackLength⟩,
    ⟨u32, c.argumentsLength⟩]

theorem encodeInto_config {σ : Type} [Sink σ] (sink : σ) (c : StateConfig) :
    config.encodeInto sink c = encodeFields sink (configFields c) := by
  show Sink.writeAll sink (configPieces c) = _
  simp only [configPieces, Sink.writeAll, List.foldl_append]
  rfl

/-! ## Widths -/

/-- The bytes that a value takes. -/
def width : (t : Schema) → t.Val → Nat
  | u8, _ => 1
  | u16, _ => 2
  | u32, _ => 4
  | u64, _ => 8
  | size, _ => 8
  | array length, _ => length
  | word, _ => 32
  | source, s => 8 + s.bytes.length
  | config, c =>
    24 + (c.sources.map fun s => 8 + s.bytes.length).sum + 32 * c.constants.length
  | list element, vs => 8 + (vs.map element.width).sum

theorem length_counted {α : Type} (encode : α → Bytes) (as : List α) :
    (Reader.counted encode as).length = 8 + (as.map fun a => (encode a).length).sum := by
  simp [Reader.counted]

/-- Elements of one width are counted. -/
theorem length_counted_of_width {α : Type} {encode : α → Bytes} {k : Nat}
    (h : ∀ a, (encode a).length = k) (as : List α) :
    (Reader.counted encode as).length = 8 + k * as.length := by
  simp only [length_counted, h, List.map_const', List.sum_replicate_nat, Nat.mul_comm]

theorem length_encode_source (s : Source) : (source.encode s).length = 8 + s.bytes.length := by
  rw [encode_source, length_counted_of_width (k := 1) fun b => rfl, Nat.one_mul]

theorem length_encode_word (w : Word) : (word.encode w).length = 32 := by
  rw [encode_word, w.length_bytes]

theorem length_encode_config (c : StateConfig) :
    (config.encode c).length =
      24 + (c.sources.map fun s => 8 + s.bytes.length).sum + 32 * c.constants.length := by
  have hsources : (c.sources.map fun s => (source.encode s).length) =
      c.sources.map fun s => 8 + s.bytes.length :=
    List.map_congr_left fun s _ => length_encode_source s
  have hnumber : ∀ n, (u32.encode n).length = 4 := fun n => rfl
  rw [encode_config, List.length_append, List.length_append, List.length_append, length_counted,
    hsources, length_counted_of_width length_encode_word, hnumber, hnumber]
  omega

theorem length_encode (t : Schema) (v : t.Val) : (t.encode v).length = t.width v := by
  induction t with
  | u8 | u16 | u32 | u64 | size => rfl
  | array length => exact (congrArg List.length (List.append_nil v.val)).trans v.property
  | word => exact length_encode_word v
  | source => exact length_encode_source v
  | config => exact length_encode_config v
  | list element ih =>
    rw [encode_list, length_counted]
    simp only [ih]
    rfl

end Schema

/-! ## Blobs -/

namespace Blob

/-- The parts of a blob: the name of the format, the three numbers of its version, the version of
the instruction layout, and the config. -/
def fields (c : StateConfig) : List Schema.Field :=
  [⟨.array 7, magic, rfl⟩, ⟨.u8, 1⟩, ⟨.u8, 0⟩, ⟨.u8, 0⟩, ⟨.u8, Layout.current.version⟩, ⟨.config, c⟩]

theorem joined_fields (c : StateConfig) : Schema.joined (fields c) = ofConfig c := by
  simp only [Schema.joined, fields, List.flatMap_cons, List.flatMap_nil, List.append_nil]
  rfl

theorem length_ofConfig (c : StateConfig) :
    (ofConfig c).length = 11 + (Schema.config.encode c).length := List.length_append

end Blob

/-! ## Reports -/

/-- A run that writes a config reports how many bytes the file holds. -/
theorem Run.reports_length {run : Run} {d : Directory} {r : Rule} {path : String}
    (h : run.invocation.Builds r (some path)) (hcode : (run.outcome d).exitCode = 0) :
    (run.after d).read path = .ok (Blob.ofConfig r.packed) ∧
      (run.outcome d).errors = LogSettings.errorText run.environment run.stamp [.record .info
        ("Wrote " ++ path ++ " (" ++ Text.decimal (Blob.ofConfig r.packed).length ++
          " bytes)")] := by
  cases hwrite : d.write path (Blob.ofConfig r.packed) with
  | error fault =>
    rw [(of_unwritten h hwrite).1] at hcode
    cases hcode
  | ok next =>
    rw [(of_written h hwrite).2.2]
    refine ⟨Directory.read_of_write hwrite, ?_⟩
    rw [outcome, Invocation.runIn_eq, Invocation.plan_of_builds h,
      Command.runIn_buildPlan_of_ok hwrite]

/-- Whatever they were given before, a counter counts the bytes that a buffer keeps of a value, of
the fields of a record and of any chunks. A config is written by its fields and takes 24 bytes,
eight for each source besides its own, and 32 for each constant; its blob takes eleven more, which
is the length that is reported for the file. -/
theorem Blob.sizes_counted :
    (∀ (t : Schema) (v : t.Val) (counter : ByteCount) (buffer : Buffer),
      (t.encodeInto buffer v).bytes = buffer.bytes ++ t.encode v ∧
      (t.encodeInto counter v).count = counter.count + (t.encode v).length ∧
      (t.encode v).length = t.width v) ∧
    (∀ (fields : List Schema.Field) (counter : ByteCount) (buffer : Buffer),
      (Schema.encodeFields buffer fields).bytes = buffer.bytes ++ Schema.joined fields ∧
      (Schema.encodeFields counter fields).count =
        counter.count + (Schema.joined fields).length) ∧
    (∀ (chunks : List Bytes) (k : Nat),
      let counter : ByteCount := Sink.writeAll ⟨0⟩ (chunks.take k)
      let buffer : Buffer := Sink.writeAll ⟨[]⟩ (chunks.take k)
      counter.count = buffer.bytes.length ∧ buffer.bytes = (chunks.take k).flatten) ∧
    (∀ c : StateConfig,
      (∀ (σ : Type) [Sink σ] (sink : σ),
        Schema.config.encodeInto sink c = Schema.encodeFields sink (Schema.configFields c)) ∧
      (Schema.config.encode c).length =
        24 + (c.sources.map fun s => 8 + s.bytes.length).sum + 32 * c.constants.length ∧
      Blob.ofConfig c = (Schema.encodeFields (⟨[]⟩ : Buffer) (Blob.fields c)).bytes ∧
      (Blob.ofConfig c).length = 11 + (Schema.config.encode c).length) ∧
    ∀ (run : Run) (d : Directory) (r : Rule) (path : String),
      run.invocation.Builds r (some path) → (run.outcome d).exitCode = 0 →
      ∃ c blob, r.config = .ok c ∧ (run.after d).read path = .ok blob ∧
        blob.length = 11 + (Schema.config.encode c).length ∧
        (run.outcome d).errors = LogSettings.errorText run.environment run.stamp [.record .info
          ("Wrote " ++ path ++ " (" ++ Text.decimal blob.length ++ " bytes)")] := by
  refine ⟨?_, ?_, ?_, ?_, ?_⟩
  · intro t v counter buffer
    exact ⟨t.bytes_encodeInto buffer v, t.count_encodeInto counter v, t.length_encode v⟩
  · intro fields counter buffer
    exact ⟨Schema.bytes_encodeFields buffer fields, Schema.count_encodeFields counter fields⟩
  · intro chunks k counter buffer
    exact ⟨@Sink.count_eq_length ⟨0⟩ ⟨[]⟩ rfl _, Sink.bytes_writeAll _ _⟩
  · intro c
    refine ⟨fun σ _ sink => Schema.encodeInto_config sink c, Schema.length_encode_config c, ?_,
      Blob.length_ofConfig c⟩
    rw [Schema.bytes_encodeFields, List.nil_append, Blob.joined_fields]
  · intro run d r path hbuilds hcode
    obtain ⟨hread, herrors⟩ := Run.reports_length hbuilds hcode
    exact ⟨r.packed, _, r.config_eq, hread, Blob.length_ofConfig _, herrors⟩

/-- The file is written over a longer one, and of the time and the level nothing is shown. -/
theorem Blob.sizes_counted_overwritten :
    let run : Run := ⟨⟨"salegate", ["end-raise-grace", "5", "0x10", "-o", "./f", "007"]⟩,
      ⟨none, some "1", none, none⟩, ""⟩
    let r : Rule := .raiseOrGrace (.ofNat 5) (.ofNat 16) (.ofNat 7)
    let d : Directory := ⟨[("f", List.replicate 200 1)]⟩
    run.invocation.Builds r (some "./f") ∧ (run.outcome d).exitCode = 0 ∧
      ∃ blob, (run.after d).read "./f" = .ok blob ∧ blob.length = 161 ∧
        (run.outcome d).errors = "Wrote ./f (161 bytes)\n" := by
  intro run r d
  have hbuilds : run.invocation.Builds r (some "./f") := by
    refine ⟨"end-raise-grace", _, [.positional "5", .positional "0x10", .output "-o" "./f",
      .positional "007"], rfl, ⟨rfl, ?_⟩, .raiseOrGrace (by decide +kernel) (by decide +kernel)
      (by decide +kernel), rfl⟩
    simp [Options.Item.Proper]
  have hcode : (run.outcome d).exitCode = 0 := by decide +kernel
  obtain ⟨-, -, -, hsizes, hreports⟩ := Blob.sizes_counted
  obtain ⟨c, blob, hc, hread, hlength, herrors⟩ := hreports run d r "./f" hbuilds hcode
  rw [r.config_eq] at hc
  obtain rfl := Except.ok.inj hc
  have hblob : blob.length = 161 := by
    rw [hlength, (hsizes r.packed).2.1]
    decide +kernel
  rw [hblob] at herrors
  refine ⟨hbuilds, hcode, blob, hread, hblob, herrors.trans ?_⟩
  decide +kernel

end SaleRules
