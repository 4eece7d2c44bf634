import SaleRules.Proofs.SourceReading

/-!
# Heights of composed sources

Instructions that run on an empty stack run above any values: what lies below is never popped, and
every height is raised by its number. So the heights of sources one behind the other follow from
those of each source. Conditions that leave one value each are in this way joined by a single
`EVERY` or `ANY`.
-/
namespace SaleRules

namespace Heights

/-- The heights of instructions run above `base` values, behind others that reached `top`. -/
def raise (base top : Nat) (h : Heights) : Heights :=
  ⟨base + h.current, max top (base + h.greatest)⟩

variable {h next last : Heights} {index : Nat} {i : Instruction} {is : List Instruction}

theorem after_raise (hi : h.after index i = .ok next) (base top position : Nat) :
    (h.raise base top).after position i = .ok (next.raise base top) := by
  obtain ⟨hknown, hpops, rfl⟩ := after_eq_ok_iff.mp hi
  refine after_eq_ok_iff.mpr ⟨hknown, Nat.le_add_left_of_le hpops, ?_⟩
  have hcurrent : base + h.current - i.pops + i.pushes =
      base + (h.current - i.pops + i.pushes) := by omega
  simp only [raise, hcurrent, Nat.add_max_add_left, Nat.max_assoc]

theorem afterAll_raise (his : h.afterAll index is = .ok last) (base top position : Nat) :
    (h.raise base top).afterAll position is = .ok (last.raise base top) := by
  induction is generalizing h index position with
  | nil => exact congrArg (fun h => Except.ok (raise base top h)) (Except.ok.inj his)
  | cons i is ih =>
    obtain ⟨next, hi, his⟩ := afterAll_cons_eq_ok_iff.mp his
    exact afterAll_cons_eq_ok_iff.mpr ⟨_, after_raise hi base top position, ih his (position + 1)⟩

/-- What an analysed list leaves is what a list behind it starts from. -/
theorem raise_start (hm : h.Measures is) : start.raise h.current h.greatest = h := by
  have hle := hm.current_le
  simp only [raise, start, Nat.add_zero, Nat.max_eq_left hle]

end Heights

namespace Source

/-- The source holds instructions that leave `n` values on an empty stack. -/
def Leaves (s : Source) (n : Nat) : Prop := ∃ is, s.instructions = .ok is ∧ balance is = n

/-- The sources one behind the other. -/
def join (ss : List Source) : Source := ss.foldl append empty

variable {s t : Source} {is js : List Instruction} {h k : Heights}

theorem heights_of_instructions (hs : s.instructions = .ok is) :
    s.heights = Heights.start.afterAll 0 is := by
  rw [heights, hs]
  rfl

/-- What is analysed holds instructions, and the heights found are theirs. -/
theorem measures_of_heights (hs : s.heights = .ok h) :
    ∃ is, s.instructions = .ok is ∧ h.Measures is := by
  obtain ⟨is, his, hrun⟩ := Except.bind_eq_ok_iff.mp hs
  exact ⟨is, his, Heights.measures_of_afterAll hrun⟩

theorem leaves_of_heights (hs : s.heights = .ok h) : s.Leaves h.current := by
  obtain ⟨is, his, hm⟩ := measures_of_heights hs
  exact ⟨is, his, hm.current.symm⟩

theorem heights_eq_ok_iff {left needed : Nat} :
    s.heights = .ok ⟨left, needed⟩ ↔ s.maxHeight = .ok needed ∧ s.Leaves left := by
  constructor
  · intro hs
    exact ⟨Except.map_eq_ok_iff.mpr ⟨_, hs, rfl⟩, leaves_of_heights hs⟩
  · rintro ⟨hmax, is, his, hleft⟩
    obtain ⟨h, hs, rfl⟩ := Except.map_eq_ok_iff.mp hmax
    obtain ⟨is', his', hm⟩ := measures_of_heights hs
    rw [his] at his'
    obtain rfl := Except.ok.inj his'
    have hcurrent := hm.current.trans hleft
    rw [hs, ← Int.ofNat_inj.mp hcurrent]

/-! ## One source behind another -/

theorem instructions_append (hs : s.instructions = .ok is) (ht : t.instructions = .ok js) :
    (s.append t).instructions = .ok (is ++ js) := by
  rw [instructions_eq_ok_iff] at hs ht ⊢
  rw [ofInstructions_append, hs, ht]

/-- Instructions behind an analysed source start from its heights. -/
theorem heights_append_ofInstructions (hs : s.instructions = .ok is) (hh : s.heights = .ok h)
    (js : List Instruction) :
    (s.append (ofInstructions js)).heights = h.afterAll is.length js := by
  have hsum := instructions_append hs (instructions_ofInstructions js)
  rw [heights_of_instructions hs] at hh
  rw [heights_of_instructions hsum, Heights.afterAll_append, hh, Nat.zero_add]
  rfl

theorem heights_append (hs : s.heights = .ok h) (ht : t.heights = .ok k) :
    (s.append t).heights = .ok (k.raise h.current h.greatest) := by
  obtain ⟨is, his, hm⟩ := measures_of_heights hs
  obtain ⟨js, hjs, hrun⟩ := Except.bind_eq_ok_iff.mp ht
  have hraised := Heights.afterAll_raise hrun h.current h.greatest is.length
  rw [Heights.raise_start hm] at hraised
  rw [← instructions_eq_ok_iff.mp hjs, heights_append_ofInstructions his hs, hraised]

/-! ## Conditions that leave one value each -/

theorem empty_append (s : Source) : empty.append s = s := rfl

/-- The heights behind sources of which each leaves one value and needs what `ds` says. -/
theorem heights_foldl {base top : Nat} {ss : List Source} {ds : List Nat}
    (hs : s.heights = .ok ⟨base, top⟩)
    (h : List.Forall₂ (fun t d => t.maxHeight = .ok d ∧ t.Leaves 1) ss ds) :
    (ss.foldl append s).heights =
      .ok ⟨base + ss.length, (ds.mapIdx fun i d => base + i + d).foldl max top⟩ := by
  induction h generalizing s base top with
  | nil => exact hs
  | @cons t d ss ds ht _ ih =>
    have hnext := ih (heights_append hs (heights_eq_ok_iff.mpr ht))
    have hlength : base + 1 + ss.length = base + (ss.length + 1) := by omega
    have hindex : (fun i d => base + 1 + i + d) = fun i d => base + (i + 1) + d := by
      funext i d
      omega
    rw [hlength, hindex] at hnext
    rw [List.foldl_cons, List.length_cons, List.mapIdx_cons, List.foldl_cons, Nat.add_zero]
    exact hnext

/-- One value for each source, and the greatest of what they need above those in front of them. -/
theorem heights_join {ss : List Source} {ds : List Nat}
    (h : List.Forall₂ (fun t d => t.maxHeight = .ok d ∧ t.Leaves 1) ss ds) (hss : 1 ≤ ss.length) :
    ∃ n, (join ss).heights = .ok ⟨ss.length, n⟩ ∧ (ds.mapIdx (· + ·)).max? = some n := by
  cases h with
  | nil => cases hss
  | @cons s d ss ds hs hrest =>
    refine ⟨_, ?_, List.mapIdx_cons ▸ List.max?_cons'⟩
    have hfold := heights_foldl (heights_eq_ok_iff.mpr hs) hrest
    rw [join, List.foldl_cons, empty_append, hfold, List.length_cons, Nat.zero_add, Nat.add_comm]
    simp only [Nat.add_comm 1]

theorem after_combinator {op : Opcode} (hop : op = .every ∨ op = .any) {n needed : Nat}
    (hn : n ≤ 255) (hneeded : 1 ≤ needed) (index : Nat) :
    Heights.after index ⟨n, needed⟩ ⟨op, UInt8.ofNat n⟩ = .ok ⟨1, needed⟩ := by
  have hoperand : (UInt8.ofNat n).toNat = n := UInt8.toNat_ofNat_of_lt' (Nat.lt_succ_of_le hn)
  have heffect : op.effect = .byOperand := by
    rcases hop with rfl | rfl <;> rfl
  rw [Heights.after_eq_ok_iff]
  simp only [Instruction.pops, Instruction.pushes, heffect, hoperand, Nat.sub_self, Nat.zero_add,
    Nat.max_eq_left hneeded]
  exact ⟨StackEffect.noConfusion, Nat.le_refl n, trivial⟩

/-- Behind an analysed source another one reads and runs as it does alone, above the values that the
first leaves. Up to 255 sources that leave one value each are joined by `EVERY` or `ANY` of their
number to a source that leaves one value; it needs what one of them needs above the values of those
in front of it. -/
theorem maxHeight_composed :
    (∀ (s t : Source) m n, s.maxHeight = .ok m → t.maxHeight = .ok n →
      ∃ is js, s.instructions = .ok is ∧ t.instructions = .ok js ∧
        (s.append t).instructions = .ok (is ++ js) ∧
        ∃ left : Nat, balance is = left ∧ (s.append t).maxHeight = .ok (max m (left + n))) ∧
    ∀ ss ds, List.Forall₂ (fun s d => s.maxHeight = .ok d ∧ s.Leaves 1) ss ds →
      1 ≤ ss.length → ss.length ≤ 255 → ∀ op, op = .every ∨ op = .any →
      ∃ n, ((join ss).append (ofInstructions [⟨op, UInt8.ofNat ss.length⟩])).maxHeight = .ok n ∧
        ((join ss).append (ofInstructions [⟨op, UInt8.ofNat ss.length⟩])).Leaves 1 ∧
        (ds.mapIdx (· + ·)).max? = some n := by
  constructor
  · intro s t m n hs ht
    obtain ⟨h, hh, rfl⟩ := Except.map_eq_ok_iff.mp hs
    obtain ⟨k, hk, rfl⟩ := Except.map_eq_ok_iff.mp ht
    obtain ⟨is, his, hm⟩ := measures_of_heights hh
    obtain ⟨js, hjs, -⟩ := measures_of_heights hk
    refine ⟨is, js, his, hjs, instructions_append his hjs, h.current, hm.current.symm, ?_⟩
    exact Except.map_eq_ok_iff.mpr ⟨_, heights_append hh hk, rfl⟩
  · intro ss ds h hpos hle op hop
    obtain ⟨n, hjoin, hn⟩ := heights_join h hpos
    obtain ⟨is, his, hm⟩ := measures_of_heights hjoin
    have hneeded : 1 ≤ n := Nat.le_trans hpos hm.current_le
    have hrun := heights_append_ofInstructions his hjoin [⟨op, UInt8.ofNat ss.length⟩]
    have hlast := Heights.afterAll_cons_eq_ok_iff.mpr
      ⟨_, after_combinator hop hle hneeded is.length, Heights.afterAll_nil _ _⟩
    obtain ⟨hmax, hleaves⟩ := heights_eq_ok_iff.mp (hrun.trans hlast)
    exact ⟨n, hmax, hleaves, hn⟩

/-- Of the three conditions the second needs most: it is run above one value and needs three. -/
theorem maxHeight_composed_every :
    let ss : List Source := [⟨[5, 0, 1, 0, 31, 0]⟩, ⟨[1, 0, 1, 1, 1, 2, 28, 0]⟩, ⟨[6, 0]⟩]
    let ds : List Nat := [2, 3, 1]
    let all := (join ss).append (ofInstructions [⟨.every, 3⟩])
    List.Forall₂ (fun s d => s.maxHeight = .ok d ∧ s.Leaves 1) ss ds ∧
      all.maxHeight = .ok 4 ∧ all.Leaves 1 := by
  intro ss ds all
  have h : List.Forall₂ (fun s d => s.maxHeight = .ok d ∧ s.Leaves 1) ss ds :=
    .cons ⟨rfl, _, rfl, rfl⟩ (.cons ⟨rfl, _, rfl, rfl⟩ (.cons ⟨rfl, _, rfl, rfl⟩ .nil))
  obtain ⟨n, hmax, hleaves, hn⟩ :=
    maxHeight_composed.2 ss ds h (by decide) (by decide) .every (.inl rfl)
  have hfour : (ds.mapIdx (· + ·)).max? = some 4 := by decide
  rw [hn] at hfour
  exact ⟨h, Option.some.inj hfour ▸ hmax, hleaves⟩

end Source

end SaleRules
