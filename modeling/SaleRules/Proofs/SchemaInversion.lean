import SaleRules.Codec.Schema
import SaleRules.Proofs.ReaderInversion

/-!
# What is read is what was written

The reader of every schema inverts its writer on the values whose lists are short enough to be read,
refuses the bytes of all others for their length, and the bytes of any value show where they end.
The arguments follow the schema: the fields of a config one after another, the elements of a list by
the laws for lists.
-/
namespace SaleRules

open Reader

namespace Schema

/-- No list in a value has more than `bound` elements. -/
def Within (bound : Nat) : (t : Schema) → t.Val → Prop
  | u8, _ => True
  | u16, _ => True
  | u32, _ => True
  | u64, _ => True
  | size, _ => True
  | array _, _ => True
  | word, _ => True
  | source, s => s.bytes.length ≤ bound
  | config, c => c.sources.length ≤ bound ∧ (∀ s ∈ c.sources, s.bytes.length ≤ bound) ∧
      c.constants.length ≤ bound
  | list element, vs => vs.length ≤ bound ∧ ∀ v ∈ vs, element.Within bound v

/-- The values that are read again once they are written. -/
def Readable (t : Schema) (v : t.Val) : Prop := t.Within maxLength v

/-- The values whose lists have a length of 64 bits, which all lists in memory have. -/
def Addressable (t : Schema) (v : t.Val) : Prop := t.Within (UInt64.size - 1) v

theorem addressable_lt : UInt64.size - 1 < 256 ^ 8 := by decide

/-! ## The writer -/

theorem flatten_listPieces {α : Type} (element : α → List Bytes) (as : List α) :
    (listPieces element as).flatten = counted (fun a => (element a).flatten) as := by
  simp [listPieces, lengthPieces, counted, List.flatMap_def, List.flatten_flatten, Function.comp_def]

theorem encode_list (t : Schema) (vs : List t.Val) :
    (list t).encode vs = counted t.encode vs := flatten_listPieces t.pieces vs

theorem encode_source (s : Source) : source.encode s = counted u8.encode s.bytes :=
  flatten_listPieces bytePieces s.bytes

theorem encode_word (w : Word) : word.encode w = w.bytes := List.append_nil _

theorem encode_config (c : StateConfig) :
    config.encode c = counted source.encode c.sources ++ (counted word.encode c.constants ++
      (u32.encode c.stackLength ++ u32.encode c.argumentsLength)) := by
  have hsources : (listPieces sourcePieces c.sources).flatten = counted source.encode c.sources :=
    flatten_listPieces source.pieces c.sources
  have hconstants : (listPieces wordPieces c.constants).flatten = counted word.encode c.constants :=
    flatten_listPieces word.pieces c.constants
  change (configPieces c).flatten = _
  rw [configPieces, List.flatten_append, List.flatten_append, List.flatten_append, hsources,
    hconstants, List.append_assoc, List.append_assoc]
  rfl

/-! ## Scalars -/

/-- Integers are numbers below the bound of their width. -/
theorem integer_inverts {α : Type} (width : Nat) {ofNat : Nat → α} {toNat : α → Nat}
    (hof : ∀ a, ofNat (toNat a) = a) (hto : ∀ n, n < 256 ^ width → toNat (ofNat n) = n)
    (hlt : ∀ a, toNat a < 256 ^ width) :
    Inverts (number width >>= fun n => pure (ofNat n))
      (fun a => [Bytes.ofLittleEndian width (toNat a)].flatten) fun _ => True := by
  have h := (number_inverts width).map hof hto
  exact h.congr (fun a => (List.append_nil _).symm) fun a => iff_true_intro (hlt a)

theorem byteReader_inverts : Inverts byteReader u8.encode fun _ => True := by
  have h := integer_inverts 1 (fun b => UInt8.ofNat_toNat) (fun n => UInt8.toNat_ofNat_of_lt')
    UInt8.toNat_lt
  refine h.congr (fun b => ?_) fun _ => Iff.rfl
  rw [Bytes.ofLittleEndian, Bytes.ofLittleEndian, UInt8.ofNat_toNat]
  rfl

theorem uint16Reader_inverts : Inverts u16.reader u16.encode fun _ => True :=
  integer_inverts 2 (fun _ => UInt16.ofNat_toNat) (fun _ => UInt16.toNat_ofNat_of_lt')
    UInt16.toNat_lt

theorem uint32Reader_inverts : Inverts uint32Reader u32.encode fun _ => True :=
  integer_inverts 4 (fun _ => UInt32.ofNat_toNat) (fun _ => UInt32.toNat_ofNat_of_lt')
    UInt32.toNat_lt

theorem uint64Reader_inverts : Inverts u64.reader u64.encode fun _ => True :=
  integer_inverts 8 (fun _ => UInt64.ofNat_toNat) (fun _ => UInt64.toNat_ofNat_of_lt')
    UInt64.toNat_lt

theorem arrayReader_inverts (length : Nat) :
    Inverts (array length).reader (array length).encode fun _ => True :=
  (take_inverts length).congr (fun bs => (List.append_nil bs.val).symm) fun _ => Iff.rfl

theorem wordReader_inverts : Inverts wordReader word.encode fun _ => True := by
  have h := (take_inverts 32).map (f := fun bs => Word.mk bs.val bs.property)
    (g := fun w => ⟨w.bytes, w.length_bytes⟩) (fun w => rfl) (fun bs _ => rfl)
  exact h.congr (fun w => (encode_word w).symm) fun _ => Iff.rfl

/-! ## Sources and configs -/

theorem sourceReader_inverts : Inverts sourceReader source.encode source.Readable := by
  have h := byteReader_inverts.list.map (f := Source.mk) (g := Source.bytes)
    (fun s => rfl) (fun bs _ => rfl)
  refine h.congr (fun s => (encode_source s).symm) fun s => ?_
  exact and_iff_left fun _ _ => trivial

theorem configReader_inverts : Inverts configReader config.encode config.Readable := by
  have hsources := sourceReader_inverts.list
  have hconstants := wordReader_inverts.list
  intro input c rest
  simp only [configReader, hsources.bind_eq_ok_iff, hconstants.bind_eq_ok_iff,
    uint32Reader_inverts.bind_eq_ok_iff, pure_apply, Prod.mk.injEq, Except.ok.injEq]
  constructor
  · intro hx
    obtain ⟨sources, _, ⟨rfl, hslen, hs⟩, constants, _, ⟨rfl, hclen, -⟩, stack, _, ⟨rfl, -⟩,
      arguments, _, ⟨rfl, -⟩, rfl, rfl⟩ := hx
    rw [encode_config]
    exact ⟨by simp only [List.append_assoc], hslen, hs, hclen⟩
  · intro hx
    obtain ⟨rfl, hslen, hs, hclen⟩ := hx
    refine ⟨c.sources, _, ⟨?_, hslen, hs⟩, c.constants, _, ⟨rfl, hclen, fun _ _ => trivial⟩,
      c.stackLength, _, ⟨rfl, trivial⟩, c.argumentsLength, rest, ⟨rfl, trivial⟩, rfl, rfl⟩
    rw [encode_config]
    simp only [List.append_assoc]

theorem reader_inverts (t : Schema) : Inverts t.reader t.encode t.Readable := by
  induction t with
  | u8 => exact byteReader_inverts
  | u16 => exact uint16Reader_inverts
  | u32 => exact uint32Reader_inverts
  | u64 => exact uint64Reader_inverts
  | size => exact uint64Reader_inverts
  | array length => exact arrayReader_inverts length
  | word => exact wordReader_inverts
  | source => exact sourceReader_inverts
  | config => exact configReader_inverts
  | list element ih => exact ih.list.congr (fun vs => (encode_list element vs).symm) fun _ => Iff.rfl

/-! ## Values beyond the limit -/

theorem byteReader_refuses :
    Refuses byteReader u8.encode (fun _ => True) fun _ => True := refuses_of_all fun _ => trivial

theorem wordReader_refuses :
    Refuses wordReader word.encode (fun _ => True) fun _ => True := refuses_of_all fun _ => trivial

theorem sourceReader_refuses :
    Refuses sourceReader source.encode source.Addressable source.Readable := by
  intro s rest hsized hs
  have h := byteReader_refuses.list addressable_lt byteReader_inverts
  rw [encode_source]
  exact h.bind ⟨hsized, fun _ _ => trivial⟩ (fun hread => hs hread.1) rest _

theorem configReader_refuses :
    Refuses configReader config.encode config.Addressable config.Readable := by
  intro c rest ⟨hslen, hs, hclen⟩ hc
  have hsources := sourceReader_refuses.list addressable_lt sourceReader_inverts
  have hconstants := wordReader_refuses.list addressable_lt wordReader_inverts
  rw [encode_config, List.append_assoc, configReader]
  by_cases hread : c.sources.length ≤ maxLength ∧ ∀ s ∈ c.sources, source.Readable s
  · rw [sourceReader_inverts.list.bind_append hread, List.append_assoc]
    exact hconstants.bind ⟨hclen, fun _ _ => trivial⟩ (fun h => hc ⟨hread.1, hread.2, h.1⟩) _ _
  · exact hsources.bind ⟨hslen, hs⟩ hread _ _

theorem reader_refuses (t : Schema) : Refuses t.reader t.encode t.Addressable t.Readable := by
  induction t with
  | u8 | u16 | u32 | u64 | size | array | word => exact refuses_of_all fun _ => trivial
  | source => exact sourceReader_refuses
  | config => exact configReader_refuses
  | list element ih =>
    intro vs rest hsized hvs
    rw [encode_list]
    exact ih.list addressable_lt (reader_inverts element) vs rest hsized hvs

/-! ## Ends of encodings -/

theorem source_delimited : Delimited source.encode source.Addressable := by
  intro s t rest left hs ht heq
  have h := Delimited.counted addressable_lt byteReader_inverts.delimited
  rw [encode_source, encode_source] at heq
  obtain ⟨hbytes, hrest⟩ := h _ _ _ _ ⟨hs, fun _ _ => trivial⟩ ⟨ht, fun _ _ => trivial⟩ heq
  exact ⟨congrArg Source.mk hbytes, hrest⟩

theorem config_delimited : Delimited config.encode config.Addressable := by
  rintro ⟨sources, constants, stack, arguments⟩ ⟨sources', constants', stack', arguments'⟩ rest left
    ⟨hslen, hs, hclen⟩ ⟨hslen', hs', hclen'⟩ heq
  have hsources := Delimited.counted addressable_lt source_delimited
  have hconstants := Delimited.counted addressable_lt wordReader_inverts.delimited
  simp only [encode_config, List.append_assoc] at heq
  obtain ⟨rfl, h₁⟩ := hsources _ _ _ _ ⟨hslen, hs⟩ ⟨hslen', hs'⟩ heq
  obtain ⟨rfl, h₂⟩ :=
    hconstants _ _ _ _ ⟨hclen, fun _ _ => trivial⟩ ⟨hclen', fun _ _ => trivial⟩ h₁
  obtain ⟨rfl, h₃⟩ := uint32Reader_inverts.delimited _ _ _ _ trivial trivial h₂
  obtain ⟨rfl, h₄⟩ := uint32Reader_inverts.delimited _ _ _ _ trivial trivial h₃
  exact ⟨rfl, h₄⟩

theorem encode_delimited (t : Schema) : Delimited t.encode t.Addressable := by
  induction t with
  | u8 | u16 | u32 | u64 | size | array | word =>
    intro v w rest left _ _ heq
    exact (reader_inverts _).delimited v w rest left trivial trivial heq
  | source => exact source_delimited
  | config => exact config_delimited
  | list element ih =>
    intro vs ws rest left hvs hws heq
    rw [encode_list, encode_list] at heq
    exact ih.counted addressable_lt vs ws rest left hvs hws heq

/-! ## Whole inputs -/

theorem decode_eq_ok_iff (t : Schema) (input : Bytes) (v : t.Val) :
    t.decode input = .ok v ↔ t.reader input = (.ok v, []) := by
  rw [decode, all]
  constructor
  · intro h
    split at h
    · next hread => rw [hread, Except.ok.inj h]
    · cases h
    · cases h
  · intro h
    rw [h]

theorem decode_of_error {t : Schema} {input left : Bytes} {e : ReadError}
    (h : t.reader input = (.error e, left)) : t.decode input = .error e := by
  rw [decode, all, h]

/-- A value is found exactly where its encoding stands, if its lists are short enough to be read.
Encodings show where they end, and one with a longer list is refused for that list's length. -/
theorem reader_finds_encodings (t : Schema) :
    (∀ input v rest, t.reader input = (.ok v, rest) ↔
      input = t.encode v ++ rest ∧ t.Readable v) ∧
    (∀ input v, t.decode input = .ok v ↔ input = t.encode v ∧ t.Readable v) ∧
    (∀ v w rest left, t.Addressable v → t.Addressable w →
      t.encode v ++ rest = t.encode w ++ left → v = w ∧ rest = left) ∧
    (∀ v rest, t.Addressable v → ¬ t.Readable v →
      (∃ left, t.reader (t.encode v ++ rest) = (.error .lengthOverflow, left)) ∧
        t.decode (t.encode v ++ rest) = .error .lengthOverflow) := by
  refine ⟨reader_inverts t, fun input v => ?_, encode_delimited t, fun v rest hsized hv => ?_⟩
  · rw [decode_eq_ok_iff, reader_inverts t input v [], List.append_nil]
  · obtain ⟨left, hleft⟩ := reader_refuses t v rest hsized hv
    exact ⟨⟨left, hleft⟩, decode_of_error hleft⟩

theorem reader_finds_encodings_long :
    let v : (list (list u8)).Val := [[1], List.replicate 1000001 7]
    (list (list u8)).Addressable v ∧ ¬ (list (list u8)).Readable v ∧
      (list (list u8)).decode ((list (list u8)).encode v ++ [9]) = .error .lengthOverflow := by
  intro v
  have hlen : (List.replicate 1000001 (7 : UInt8)).length = 1000001 := List.length_replicate
  have hsized : (list (list u8)).Addressable v := by
    refine ⟨by decide, List.forall_mem_cons.mpr ⟨⟨by decide, fun _ _ => trivial⟩, ?_⟩⟩
    refine List.forall_mem_singleton.mpr ⟨?_, fun _ _ => trivial⟩
    rw [hlen]
    decide
  have hlong : ¬ (list (list u8)).Readable v := by
    intro h
    have hle := (h.2 _ (List.mem_cons_of_mem _ (List.mem_singleton_self _))).1
    rw [hlen] at hle
    exact absurd hle (by decide)
  exact ⟨hsized, hlong, ((reader_finds_encodings _).2.2.2 v [9] hsized hlong).2⟩

end Schema

end SaleRules
