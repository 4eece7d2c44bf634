import SaleRules.Proofs.CalendarDays
import SaleRules.Proofs.StoredRules

/-!
# Views of a parameter

If its first source is a shape byte for byte, a config shows the constant at an index as a word, as a
number of seconds and as a date. The number has to be below the bound of a 64-bit integer, and the
date in the range of the calendar. Nothing else of the config is read.
-/
namespace SaleRules.StateConfig

/-- The bytes of the first source are those of a shape, neither less nor more. -/
def Recognised (c : StateConfig) : Prop :=
  ∃ s, c.sources.head? = some s ∧ ∃ f : Fingerprint, s.bytes = f.bytes

/-- The two configs have the same first source and the same constant at the index, if any. -/
def AgreeAt (index : Nat) (c c' : StateConfig) : Prop :=
  c.sources.head? = c'.sources.head? ∧ c.constants[index]? = c'.constants[index]?

variable {c c' : StateConfig} {index : Nat} {w : Word}

/-! ## Recognition -/

theorem fingerprint?_eq_some_iff {f : Fingerprint} :
    c.fingerprint? = some f ↔ ∃ s, c.sources.head? = some s ∧ s.bytes = f.bytes := by
  simp only [fingerprint?, entry?, Option.bind_eq_some_iff, Fingerprint.ofSource?_eq_some_iff]

theorem recognised_iff : c.Recognised ↔ ∃ f, c.fingerprint? = some f := by
  simp only [fingerprint?_eq_some_iff]
  constructor
  · intro h
    obtain ⟨s, hs, f, hf⟩ := h
    exact ⟨f, s, hs, hf⟩
  · intro h
    obtain ⟨f, s, hs, hf⟩ := h
    exact ⟨s, hs, f, hf⟩

/-! ## The three views -/

theorem parameter?_eq_some_iff :
    c.parameter? index = some w ↔
      c.Recognised ∧ ∃ h : index < c.constants.length, c.constants[index] = w := by
  rw [recognised_iff, parameter?, Option.bind_eq_some_iff, ← List.getElem?_eq_some_iff]
  exact exists_and_right

theorem seconds?_eq_some_iff {n : Nat} :
    (c.seconds? index).map UInt64.toNat = some n ↔
      ∃ w, c.parameter? index = some w ∧ w.toNat = n ∧ n < 2 ^ 64 := by
  rw [seconds?, Option.map_bind, Option.bind_eq_some_iff]
  simp only [Function.comp_apply, Word.map_toUInt64?_eq_some_iff]

theorem date?_eq_bind : c.date? index = (c.parameter? index).bind fun w =>
    Moment.ofSeconds? w.toNat := by
  cases h : c.parameter? index with
  | none => rw [date?, h, Option.bind_none, Option.bind_none]
  | some w => rw [date?_of_parameter h, Option.bind_some, Moment.ofSeconds?]

theorem exists_date?_iff :
    (∃ m, c.date? index = some m) ↔
      ∃ w, c.parameter? index = some w ∧ w.toNat ≤ Moment.lastSecond := by
  simp only [date?_eq_bind, Option.bind_eq_some_iff, Moment.ofSeconds?]
  constructor
  · intro h
    obtain ⟨m, w, hw, hm⟩ := h
    split at hm
    · next hle => exact ⟨w, hw, hle⟩
    · cases hm
  · intro h
    obtain ⟨w, hw, hle⟩ := h
    exact ⟨_, w, hw, if_pos hle⟩

/-- A date is shown next to its seconds, which it denotes. -/
theorem seconds?_of_date? {m : Moment} (h : c.date? index = some m) :
    m.Proper ∧ ∃ n, c.seconds? index = some n ∧ m.unixSeconds = n.toNat := by
  rw [date?_eq_bind, Option.bind_eq_some_iff] at h
  obtain ⟨w, hw, hm⟩ := h
  obtain ⟨hproper, hyear, hseconds⟩ := Moment.ofSeconds?_eq_some_iff.mp hm
  have hlast : Moment.lastSecond = 8210266876799 := rfl
  have hlt : w.toNat < 2 ^ 64 := by
    rw [hproper.year_le_iff, hseconds] at hyear
    omega
  refine ⟨hproper, UInt64.ofNat w.toNat, ?_, ?_⟩
  · rw [seconds?_of_parameter hw, if_pos hlt]
  · rw [hseconds, UInt64.toNat_ofNat_of_lt' hlt]

/-! ## What is read -/

theorem AgreeAt.fingerprint? (h : AgreeAt index c c') : c.fingerprint? = c'.fingerprint? := by
  rw [StateConfig.fingerprint?, StateConfig.fingerprint?, entry?, entry?, h.1]

theorem AgreeAt.parameter? (h : AgreeAt index c c') : c.parameter? index = c'.parameter? index := by
  cases hshape : c'.fingerprint? with
  | none =>
    rw [parameter?_of_none hshape, parameter?_of_none (h.fingerprint?.trans hshape)]
  | some f =>
    rw [parameter?_of_some hshape, parameter?_of_some (h.fingerprint?.trans hshape), h.2]

/-- The three views of the parameter at an index. They are the same for two configs that agree on
the first source and on the constant at the index. -/
theorem parameter_views (c : StateConfig) (index : Nat) :
    (∀ w, c.parameter? index = some w ↔
      c.Recognised ∧ ∃ h : index < c.constants.length, c.constants[index] = w) ∧
    (∀ n, (c.seconds? index).map UInt64.toNat = some n ↔
      ∃ w, c.parameter? index = some w ∧ w.toNat = n ∧ n < 2 ^ 64) ∧
    ((∃ m, c.date? index = some m) ↔
      ∃ w, c.parameter? index = some w ∧ w.toNat ≤ 8210266876799) ∧
    (∀ m, c.date? index = some m →
      m.Proper ∧ ∃ n, c.seconds? index = some n ∧ m.unixSeconds = n.toNat) ∧
    (∀ c', AgreeAt index c c' → c.parameter? index = c'.parameter? index ∧
      c.seconds? index = c'.seconds? index ∧ c.date? index = c'.date? index) := by
  refine ⟨fun w => parameter?_eq_some_iff, fun n => seconds?_eq_some_iff, exists_date?_iff,
    fun m => seconds?_of_date?, fun c' h => ?_⟩
  rw [seconds?, seconds?, date?, date?, h.parameter?]
  exact ⟨rfl, rfl, rfl⟩

/-- The last second that has a date and the first that has none, in two configs that differ in their
other sources and constants and in their lengths. -/
theorem parameter_views_last :
    let last := Word.ofNat 8210266876799
    let late := Word.ofNat 8210266876800
    let entry : Source := ⟨Fingerprint.legacyAfterTime.bytes⟩
    let c : StateConfig := ⟨[entry], [last, late], 2, 0⟩
    let c' : StateConfig := ⟨[entry, ⟨[255]⟩], [last, late, Word.max], 0, 7⟩
    c.parameter? 0 = c'.parameter? 0 ∧ c.date? 0 = c'.date? 0 ∧
      (∃ m, c'.date? 0 = some m ∧ m.Proper ∧ m.unixSeconds = 8210266876799) ∧
      (c'.seconds? 1).map UInt64.toNat = some 8210266876800 ∧ ¬ ∃ m, c'.date? 1 = some m := by
  intro last late entry c c'
  have hlast : last.toNat = 8210266876799 := Word.toNat_ofNat _
  have hlate : late.toNat = 8210266876800 := Word.toNat_ofNat _
  have hshape : c'.Recognised := ⟨entry, rfl, .legacyAfterTime, rfl⟩
  obtain ⟨hword, hseconds, hdate, hdenotes, -⟩ := parameter_views c' 0
  obtain ⟨hword', hseconds', hdate', -⟩ := parameter_views c' 1
  obtain ⟨hparameter, -, hsame⟩ := (parameter_views c 0).2.2.2.2 c' ⟨rfl, rfl⟩
  have hzero : c'.parameter? 0 = some last := (hword last).mpr ⟨hshape, by decide, rfl⟩
  have hone : c'.parameter? 1 = some late := (hword' late).mpr ⟨hshape, by decide, rfl⟩
  refine ⟨hparameter, hsame, ?_, (hseconds' _).mpr ⟨late, hone, hlate, by norm_num⟩, ?_⟩
  · obtain ⟨m, hm⟩ := hdate.mpr ⟨last, hzero, Nat.le_of_eq hlast⟩
    obtain ⟨hproper, n, hn, hunix⟩ := hdenotes m hm
    obtain ⟨w, hw, hvalue, -⟩ := (hseconds n.toNat).mp (congrArg (Option.map UInt64.toNat) hn)
    rw [hzero] at hw
    cases hw
    exact ⟨m, hm, hproper, by rw [hunix, ← hvalue, hlast, Nat.cast_ofNat]⟩
  · intro h
    obtain ⟨w, hw, hle⟩ := hdate'.mp h
    rw [hone] at hw
    cases hw
    omega

end SaleRules.StateConfig
