import SaleRules.Proofs.HexReading
import SaleRules.StateConfig

/-!
# A tuple text determines its config

The items of a tuple hold no character that stands behind an item, so each of them ends where such
a character comes first. A bracketed list of items therefore ends itself: two texts that start with
one are cut at the same place and hold the same items. Field by field this leaves one config for a
tuple text, and one text for what may follow it.
-/
namespace SaleRules

namespace Text

/-- The characters that stand behind an item or a number. -/
def endsItem (c : Char) : Bool := c == ',' || c == ']' || c == ' '

/-- No character of the text ends an item. -/
def Unbroken (s : String) : Prop := ∀ c ∈ s.toList, endsItem c = false

/-- The text starts with a character that ends the item in front of it. -/
def EndsFront (s : String) : Prop := ∃ c, s.toList.head? = some c ∧ endsItem c = true

/-- A text of this kind ends itself, whatever follows it. -/
def SelfDelimiting {α : Type} (f : α → String) : Prop :=
  ∀ a b rest rest', f a ++ rest = f b ++ rest' → a = b ∧ rest = rest'

theorem EndsFront.append {s : String} (h : EndsFront s) (rest : String) :
    EndsFront (s ++ rest) := by
  obtain ⟨c, hc, hends⟩ := h
  exact ⟨c, by rw [String.toList_append, List.head?_append, hc]; rfl, hends⟩

theorem dropWhile_unbroken {s rest : String} (hs : Unbroken s) (hrest : EndsFront rest) :
    (s ++ rest).toList.dropWhile (fun c => !endsItem c) = rest.toList := by
  obtain ⟨c, hc, hends⟩ := hrest
  have hall : ∀ c ∈ s.toList, (!endsItem c) = true := fun c hc => by rw [hs c hc]; rfl
  rw [String.toList_append, List.dropWhile_append_of_pos hall]
  refine dropWhile_of_head fun d hd => ?_
  rw [← Option.some.inj (hc.symm.trans hd), hends]
  rfl

/-- Unbroken texts in front of characters that end them are cut off at the same place. -/
theorem cut_unique {s t rest rest' : String} (hs : Unbroken s) (ht : Unbroken t)
    (hrest : EndsFront rest) (hrest' : EndsFront rest') (h : s ++ rest = t ++ rest') :
    s = t ∧ rest = rest' := by
  have hsame : rest = rest' := by
    rw [← String.toList_inj, ← dropWhile_unbroken hs hrest, h, dropWhile_unbroken ht hrest']
  rw [hsame] at h
  exact ⟨(String.append_left_inj rest').mp h, hsame⟩

/-! ## Bracketed items -/

/-- What follows the first item of a list: each further item behind a comma, and the bracket. -/
def itemsBehind : List String → String
  | [] => "]"
  | t :: ts => ", " ++ (t ++ itemsBehind ts)

theorem intercalate_cons (t : String) (ts : List String) :
    ", ".intercalate (t :: ts) ++ "]" = t ++ itemsBehind ts := by
  induction ts generalizing t with
  | nil => rw [String.intercalate_singleton, itemsBehind]
  | cons u us ih =>
    rw [String.intercalate_cons_cons, String.append_assoc, ih, itemsBehind, String.append_assoc]

/-- In an empty list an empty text stands in the place of the first item. -/
theorem bracketed_eq (ts : List String) :
    StateConfig.bracketed ts = "[" ++ (ts.headD "" ++ itemsBehind ts.tail) := by
  rw [StateConfig.bracketed, String.append_assoc]
  cases ts with
  | nil => rfl
  | cons t ts => rw [intercalate_cons, List.headD_cons, List.tail_cons]

theorem endsFront_itemsBehind (ts : List String) : EndsFront (itemsBehind ts) := by
  cases ts with
  | nil => exact ⟨']', rfl, rfl⟩
  | cons t ts => exact EndsFront.append ⟨',', rfl, rfl⟩ _

theorem itemsBehind_ne (u : String) (us : List String) (rest rest' : String) :
    itemsBehind [] ++ rest ≠ itemsBehind (u :: us) ++ rest' := by
  intro h
  have hhead := congrArg (fun s => s.toList.head?) h
  simp [itemsBehind] at hhead

/-- A comma is no bracket, so lists of unbroken items agree item by item up to the bracket. -/
theorem itemsBehind_unique {ts us : List String} (hts : ∀ t ∈ ts, Unbroken t)
    (hus : ∀ u ∈ us, Unbroken u) {rest rest' : String}
    (h : itemsBehind ts ++ rest = itemsBehind us ++ rest') : ts = us ∧ rest = rest' := by
  induction ts generalizing us with
  | nil =>
    cases us with
    | nil => exact ⟨rfl, (String.append_right_inj "]").mp h⟩
    | cons u us => exact absurd h (itemsBehind_ne u us rest rest')
  | cons t ts ih =>
    cases us with
    | nil => exact absurd h.symm (itemsBehind_ne t ts rest' rest)
    | cons u us =>
      obtain ⟨ht, hts'⟩ := List.forall_mem_cons.mp hts
      obtain ⟨hu, hus'⟩ := List.forall_mem_cons.mp hus
      simp only [itemsBehind, String.append_assoc, String.append_right_inj] at h
      obtain ⟨rfl, hbehind⟩ := cut_unique ht hu ((endsFront_itemsBehind ts).append rest)
        ((endsFront_itemsBehind us).append rest') h
      obtain ⟨rfl, hrest⟩ := ih hts' hus' hbehind
      exact ⟨rfl, hrest⟩

/-- The text may stand in a list: it is not empty and not broken. -/
structure IsItem (s : String) : Prop where
  nonempty : s ≠ ""
  unbroken : Unbroken s

theorem unbroken_headD {ts : List String} (h : ∀ t ∈ ts, IsItem t) : Unbroken (ts.headD "") := by
  cases ts with
  | nil => exact List.forall_mem_nil _
  | cons t ts => exact (h t List.mem_cons_self).unbroken

theorem eq_of_headD_tail {ts us : List String} (hts : ∀ t ∈ ts, IsItem t)
    (hus : ∀ u ∈ us, IsItem u) (hhead : ts.headD "" = us.headD "") (htail : ts.tail = us.tail) :
    ts = us := by
  cases ts with
  | nil =>
    cases us with
    | nil => rfl
    | cons u us => exact absurd hhead.symm (hus u List.mem_cons_self).nonempty
  | cons t ts =>
    cases us with
    | nil => exact absurd hhead (hts t List.mem_cons_self).nonempty
    | cons u us => exact congrArg₂ List.cons hhead htail

theorem bracketed_unique {ts us : List String} (hts : ∀ t ∈ ts, IsItem t)
    (hus : ∀ u ∈ us, IsItem u) {rest rest' : String}
    (h : StateConfig.bracketed ts ++ rest = StateConfig.bracketed us ++ rest') :
    ts = us ∧ rest = rest' := by
  simp only [bracketed_eq, String.append_assoc, String.append_right_inj] at h
  obtain ⟨hhead, hbehind⟩ := cut_unique (unbroken_headD hts) (unbroken_headD hus)
    ((endsFront_itemsBehind ts.tail).append rest) ((endsFront_itemsBehind us.tail).append rest') h
  obtain ⟨htail, hrest⟩ := itemsBehind_unique
    (fun t ht => (hts t (List.mem_of_mem_tail ht)).unbroken)
    (fun u hu => (hus u (List.mem_of_mem_tail hu)).unbroken) hbehind
  exact ⟨eq_of_headD_tail hts hus hhead htail, hrest⟩

/-- A bracketed list of items ends itself, also where the list is empty. -/
theorem SelfDelimiting.bracketed {α : Type} {f : α → String} (hf : Function.Injective f)
    (hitem : ∀ a, IsItem (f a)) :
    SelfDelimiting fun as : List α => StateConfig.bracketed (as.map f) := by
  intro as bs rest rest' h
  have hmap : ∀ cs : List α, ∀ t ∈ cs.map f, IsItem t := by
    intro cs t ht
    obtain ⟨a, -, rfl⟩ := List.mem_map.mp ht
    exact hitem a
  obtain ⟨hitems, hrest⟩ := bracketed_unique (hmap as) (hmap bs) h
  exact ⟨List.map_injective_iff.mpr hf hitems, hrest⟩

/-! ## Numerals -/

theorem decimal_injective : Function.Injective decimal := by
  intro m n h
  have hdigits : Nat.toDigits 10 m = Nat.toDigits 10 n := String.ofList_injective h
  rw [← numeralValue_toDigits m, hdigits, numeralValue_toDigits n]

theorem Written.unbroken {radix : Nat} {cs : List Char} (h : Written radix cs)
    (hradix : radix ≤ 16) : ∀ c ∈ cs, endsItem c = false := by
  have hdigits : ∀ d < 16, endsItem (Nat.digitChar d) = false := by decide
  exact h.forall_mem fun d hd => hdigits d (Nat.lt_of_lt_of_le hd hradix)

theorem unbroken_decimal (n : Nat) : Unbroken (decimal n) := by
  rw [Unbroken, decimal, String.toList_ofList]
  exact (written_toDigits n).unbroken (by decide)

end Text

namespace Word

theorem decimal_injective : Function.Injective Word.decimal :=
  Except.injective_of_read parse_decimal

theorem isItem_decimal (w : Word) : Text.IsItem w.decimal where
  nonempty h := by
    have hdigits := congrArg String.toList h
    rw [toList_decimal] at hdigits
    exact Nat.toDigits_ne_nil hdigits
  unbroken := by
    rw [decimal_eq]
    exact Text.unbroken_decimal w.toNat

end Word

namespace Source

theorem toList_text (s : Source) : s.text.toList = '0' :: 'x' :: Hex.digits s.bytes := by
  rw [text, String.toList_append, Hex.text, String.toList_ofList, String.toList_ofList]
  rfl

theorem isItem_text (s : Source) : Text.IsItem s.text where
  nonempty h := by
    have hdigits := congrArg String.toList h
    rw [toList_text] at hdigits
    cases hdigits
  unbroken := by
    rw [Text.Unbroken, toList_text]
    exact List.forall_mem_cons.mpr ⟨rfl, List.forall_mem_cons.mpr
      ⟨rfl, (Text.written_hex s.bytes).unbroken (by decide)⟩⟩

end Source

namespace StateConfig

open Text

theorem selfDelimiting_sources :
    SelfDelimiting fun ss : List Source => bracketed (ss.map Source.text) :=
  .bracketed Source.text_injective Source.isItem_text

theorem selfDelimiting_constants :
    SelfDelimiting fun ws : List Word => bracketed (ws.map Word.decimal) :=
  .bracketed Word.decimal_injective Word.isItem_decimal

/-- Texts that start with the tuples of two configs are cut field by field. -/
theorem selfDelimiting_text : SelfDelimiting text := by
  intro c d rest rest' h
  have hcomma : EndsFront ", argumentsLength: " := ⟨',', by simp, rfl⟩
  have hblank : EndsFront " \x7d" := ⟨' ', rfl, rfl⟩
  delta text at h
  simp only [String.append_assoc, String.append_right_inj] at h
  obtain ⟨hsources, h⟩ := selfDelimiting_sources _ _ _ _ h
  rw [String.append_right_inj] at h
  obtain ⟨hconstants, h⟩ := selfDelimiting_constants _ _ _ _ h
  rw [String.append_right_inj] at h
  obtain ⟨hstack, h⟩ := cut_unique (unbroken_decimal _) (unbroken_decimal _) (hcomma.append _)
    (hcomma.append _) h
  rw [String.append_right_inj] at h
  obtain ⟨harguments, h⟩ := cut_unique (unbroken_decimal _) (unbroken_decimal _) (hblank.append _)
    (hblank.append _) h
  rw [String.append_right_inj] at h
  refine ⟨?_, h⟩
  change StateConfig.mk c.sources c.constants c.stackLength c.argumentsLength = d
  rw [hsources, hconstants, UInt32.toNat_inj.mp (decimal_injective hstack),
    UInt32.toNat_inj.mp (decimal_injective harguments)]

/-- The tuple form of a config determines it: the sources byte for byte, the constants, and the two
lengths, however many sources and constants there are and whether or not they are empty. A tuple
also ends itself, so that it can be told from whatever is written behind it. -/
theorem text_determines_config :
    (∀ c d : StateConfig, c.text = d.text ↔ c = d) ∧ SelfDelimiting text := by
  refine ⟨fun c d => ⟨fun h => ?_, congrArg text⟩, selfDelimiting_text⟩
  exact (selfDelimiting_text c d "" "" (congrArg (· ++ "") h)).1

end StateConfig

end SaleRules
