import SaleRules.Codec.Reader
import SaleRules.Proofs.ByteNumbers

/-!
# Readers that undo writers

A reader inverts a writer when it finds a value exactly where the bytes of that value stand,
whatever follows them. Not every value need be found again: a list above the length that is read is
written all the same, and its bytes are then refused for their length. The laws below build the
reader of a list or a record from the readers of its parts.
-/
namespace SaleRules.Reader

variable {α β : Type} {r : Reader α} {write : α → Bytes} {Allowed Sized : α → Prop}

/-- The reader finds a value exactly where its bytes stand, provided that the value is allowed. -/
def Inverts (r : Reader α) (write : α → Bytes) (Allowed : α → Prop) : Prop :=
  ∀ input a rest, r input = (.ok a, rest) ↔ input = write a ++ rest ∧ Allowed a

/-- The bytes of a value that is not allowed are refused for a length in them. -/
def Refuses (r : Reader α) (write : α → Bytes) (Sized Allowed : α → Prop) : Prop :=
  ∀ a rest, Sized a → ¬ Allowed a → ∃ left, r (write a ++ rest) = (.error .lengthOverflow, left)

/-- The bytes of a value show where they end. -/
def Delimited (write : α → Bytes) (Sized : α → Prop) : Prop :=
  ∀ a b rest left, Sized a → Sized b → write a ++ rest = write b ++ left → a = b ∧ rest = left

/-- A list behind its length in eight bytes. -/
def counted (write : α → Bytes) (as : List α) : Bytes :=
  Bytes.ofLittleEndian 8 as.length ++ as.flatMap write

/-! ## Fixed reads -/

theorem take_eq_ok_iff {n : Nat} {input rest : Bytes} {bs : { bs : Bytes // bs.length = n }} :
    take n input = (.ok bs, rest) ↔ input = bs.val ++ rest := by
  constructor
  · intro h
    simp only [take] at h
    split at h
    · cases h
      exact (List.take_append_drop n input).symm
    · cases h
  · rintro rfl
    exact take_append bs rest

theorem bind_eq_ok_iff {f : α → Reader β} {input rest : Bytes} {b : β} :
    (r >>= f) input = (.ok b, rest) ↔ ∃ a mid, r input = (.ok a, mid) ∧ f a mid = (.ok b, rest) := by
  rw [bind_apply]
  constructor
  · intro h
    split at h
    · next a mid hr => exact ⟨a, mid, hr, h⟩
    · cases h
  · intro hx
    obtain ⟨a, mid, hr, hf⟩ := hx
    rw [hr]
    exact hf

theorem take_inverts (n : Nat) : Inverts (take n) Subtype.val fun _ => True := by
  intro input bs rest
  rw [take_eq_ok_iff]
  exact (and_iff_left trivial).symm

theorem number_inverts (width : Nat) :
    Inverts (number width) (Bytes.ofLittleEndian width) (· < 256 ^ width) := by
  intro input n rest
  simp only [number, bind_eq_ok_iff, take_eq_ok_iff, pure_apply, Prod.mk.injEq, Except.ok.injEq]
  constructor
  · intro hx
    obtain ⟨⟨bs, hlen⟩, _, rfl, hn, rfl⟩ := hx
    obtain ⟨hbs, hlt⟩ := (Bytes.eq_ofLittleEndian_iff hlen).mp hn
    exact ⟨congrArg (· ++ _) hbs, hlt⟩
  · intro hx
    obtain ⟨rfl, hlt⟩ := hx
    have hlen := Bytes.length_ofLittleEndian width n
    exact ⟨⟨_, hlen⟩, rest, rfl, (Bytes.eq_ofLittleEndian_iff hlen).mpr ⟨rfl, hlt⟩, rfl⟩

/-! ## Parts of a whole -/

namespace Inverts

theorem apply_append (h : Inverts r write Allowed) {a : α} (ha : Allowed a) (rest : Bytes) :
    r (write a ++ rest) = (.ok a, rest) := (h _ a rest).mpr ⟨rfl, ha⟩

theorem bind_append (h : Inverts r write Allowed) {a : α} (ha : Allowed a) (rest : Bytes)
    (f : α → Reader β) : (r >>= f) (write a ++ rest) = f a rest :=
  bind_of_ok (h.apply_append ha rest) f

/-- A read goes on behind the bytes of a first value. -/
theorem bind_eq_ok_iff (h : Inverts r write Allowed) {f : α → Reader β} {input rest : Bytes}
    {b : β} : (r >>= f) input = (.ok b, rest) ↔
      ∃ a mid, (input = write a ++ mid ∧ Allowed a) ∧ f a mid = (.ok b, rest) := by
  rw [Reader.bind_eq_ok_iff]
  refine exists_congr fun a => exists_congr fun mid => ?_
  rw [h input a mid]

/-- Values may be carried under another name. -/
theorem map (h : Inverts r write Allowed) {f : α → β} {g : β → α} (hfg : ∀ b, f (g b) = b)
    (hgf : ∀ a, Allowed a → g (f a) = a) :
    Inverts (r >>= fun a => pure (f a)) (fun b => write (g b)) fun b => Allowed (g b) := by
  intro input b rest
  simp only [h.bind_eq_ok_iff, pure_apply, Prod.mk.injEq, Except.ok.injEq]
  constructor
  · intro hx
    obtain ⟨a, _, ⟨rfl, ha⟩, rfl, rfl⟩ := hx
    rw [hgf a ha]
    exact ⟨rfl, ha⟩
  · intro hx
    obtain ⟨rfl, hb⟩ := hx
    exact ⟨g b, rest, ⟨rfl, hb⟩, hfg b, rfl⟩

theorem congr {write' : α → Bytes} {Allowed' : α → Prop} (h : Inverts r write Allowed)
    (hwrite : ∀ a, write a = write' a) (hallowed : ∀ a, Allowed a ↔ Allowed' a) :
    Inverts r write' Allowed' := by
  intro input a rest
  rw [h input a rest, hwrite, hallowed]

theorem delimited (h : Inverts r write Allowed) : Delimited write Allowed := by
  intro a b rest left ha hb heq
  have hr := h.apply_append ha rest
  rw [heq, h.apply_append hb left] at hr
  obtain ⟨hba, hleft⟩ := Prod.mk.inj hr
  exact ⟨(Except.ok.inj hba).symm, hleft.symm⟩

end Inverts

/-! ## Lists -/

theorem times_append (h : Inverts r write Allowed) (before : List α) {as : List α}
    (has : ∀ a ∈ as, Allowed a) (rest : Bytes) :
    times r as.length before (as.flatMap write ++ rest) = (.ok (before.reverse ++ as), rest) := by
  induction as generalizing before with
  | nil => simp [times]
  | cons a as ih =>
    obtain ⟨ha, hrest⟩ := List.forall_mem_cons.mp has
    have hread := h.apply_append ha (as.flatMap write ++ rest)
    rw [List.length_cons, times, List.flatMap_cons, List.append_assoc, hread]
    simpa using ih (a :: before) hrest

theorem times_sound (h : Inverts r write Allowed) {n : Nat} {before as : List α}
    {input rest : Bytes} (hread : times r n before input = (.ok as, rest)) :
    ∃ bs, bs.length = n ∧ as = before.reverse ++ bs ∧ input = bs.flatMap write ++ rest ∧
      ∀ b ∈ bs, Allowed b := by
  induction n generalizing before input with
  | zero =>
    cases hread
    exact ⟨[], rfl, by simp, by simp, by simp⟩
  | succ n ih =>
    rw [times] at hread
    split at hread
    · next a mid ha =>
      obtain ⟨rfl, hallowed⟩ := (h input a mid).mp ha
      obtain ⟨bs, hlen, has, rfl, hbs⟩ := ih hread
      refine ⟨a :: bs, by simp [hlen], by simp [has], by simp, ?_⟩
      exact List.forall_mem_cons.mpr ⟨hallowed, hbs⟩
    · cases hread

theorem times_eq_ok_iff (h : Inverts r write Allowed) {n : Nat} {input rest : Bytes}
    {as : List α} : times r n [] input = (.ok as, rest) ↔
      as.length = n ∧ input = as.flatMap write ++ rest ∧ ∀ a ∈ as, Allowed a := by
  constructor
  · intro hread
    obtain ⟨bs, hlen, rfl, hinput, hbs⟩ := times_sound h hread
    exact ⟨hlen, hinput, hbs⟩
  · intro hx
    obtain ⟨rfl, rfl, has⟩ := hx
    exact times_append h [] has rest

theorem maxLength_lt : maxLength < 256 ^ 8 := by decide

theorem Inverts.list (h : Inverts r write Allowed) :
    Inverts (list r) (counted write) fun as => as.length ≤ maxLength ∧ ∀ a ∈ as, Allowed a := by
  intro input as rest
  have hmax := maxLength_lt
  rw [Reader.list, (number_inverts 8).bind_eq_ok_iff]
  constructor
  · intro hx
    obtain ⟨count, mid, ⟨rfl, -⟩, hread⟩ := hx
    split at hread
    · next hle =>
      obtain ⟨rfl, rfl, has⟩ := (times_eq_ok_iff h).mp hread
      exact ⟨(List.append_assoc ..).symm, hle, has⟩
    · cases hread
  · intro hx
    obtain ⟨rfl, hle, has⟩ := hx
    refine ⟨as.length, as.flatMap write ++ rest, ⟨List.append_assoc .., by omega⟩, ?_⟩
    rw [if_pos hle, times_eq_ok_iff h]
    exact ⟨rfl, rfl, has⟩

/-- Where every value is allowed there is nothing to refuse. -/
theorem refuses_of_all (ha : ∀ a, Allowed a) : Refuses r write Sized Allowed :=
  fun a _ _ hnot => absurd (ha a) hnot

/-- The first element that is not allowed ends the read. -/
theorem times_refuses (h : Inverts r write Allowed) (hrefuse : Refuses r write Sized Allowed)
    (before : List α) {as : List α} (hsized : ∀ a ∈ as, Sized a) (has : ¬ ∀ a ∈ as, Allowed a)
    (rest : Bytes) :
    ∃ left, times r as.length before (as.flatMap write ++ rest) = (.error .lengthOverflow, left) := by
  induction as generalizing before with
  | nil => exact absurd (by simp) has
  | cons a as ih =>
    obtain ⟨ha, hsized⟩ := List.forall_mem_cons.mp hsized
    rw [List.length_cons, times, List.flatMap_cons, List.append_assoc]
    by_cases hallowed : Allowed a
    · rw [h.apply_append hallowed]
      exact ih (a :: before) hsized fun hall => has (List.forall_mem_cons.mpr ⟨hallowed, hall⟩)
    · obtain ⟨left, hleft⟩ := hrefuse a (as.flatMap write ++ rest) ha hallowed
      rw [hleft]
      exact ⟨left, rfl⟩

theorem Refuses.bind (hrefuse : Refuses r write Sized Allowed) {a : α} (hsized : Sized a)
    (ha : ¬ Allowed a) (rest : Bytes) (f : α → Reader β) :
    ∃ left, (r >>= f) (write a ++ rest) = (.error .lengthOverflow, left) := by
  obtain ⟨left, hleft⟩ := hrefuse a rest hsized ha
  exact ⟨left, bind_of_error hleft f⟩

/-- A list too long is refused at its length; in any other the first refused element ends it. -/
theorem Refuses.list {bound : Nat} (hbound : bound < 256 ^ 8) (h : Inverts r write Allowed)
    (hrefuse : Refuses r write Sized Allowed) :
    Refuses (list r) (counted write)
      (fun as => as.length ≤ bound ∧ ∀ a ∈ as, Sized a)
      (fun as => as.length ≤ maxLength ∧ ∀ a ∈ as, Allowed a) := by
  intro as rest hsized has
  obtain ⟨hlen, helems⟩ := hsized
  have hlt := Nat.lt_of_le_of_lt hlen hbound
  rw [Reader.list, counted, List.append_assoc, (number_inverts 8).bind_append hlt]
  by_cases hle : as.length ≤ maxLength
  · rw [if_pos hle]
    exact times_refuses h hrefuse [] helems (fun hall => has ⟨hle, hall⟩) rest
  · rw [if_neg hle]
    exact ⟨as.flatMap write ++ rest, rfl⟩

theorem flatMap_delimited (h : Delimited write Sized) {as bs : List α} {rest left : Bytes}
    (hlen : as.length = bs.length) (has : ∀ a ∈ as, Sized a) (hbs : ∀ b ∈ bs, Sized b)
    (heq : as.flatMap write ++ rest = bs.flatMap write ++ left) : as = bs ∧ rest = left := by
  induction as generalizing bs with
  | nil =>
    cases bs with
    | nil => exact ⟨rfl, heq⟩
    | cons b bs => cases hlen
  | cons a as ih =>
    cases bs with
    | nil => cases hlen
    | cons b bs =>
      obtain ⟨ha, has'⟩ := List.forall_mem_cons.mp has
      obtain ⟨hb, hbs'⟩ := List.forall_mem_cons.mp hbs
      rw [List.flatMap_cons, List.flatMap_cons, List.append_assoc, List.append_assoc] at heq
      obtain ⟨rfl, htail⟩ := h a b _ _ ha hb heq
      obtain ⟨rfl, hrest⟩ := ih (Nat.succ.inj hlen) has' hbs' htail
      exact ⟨rfl, hrest⟩

theorem Delimited.counted {bound : Nat} (hbound : bound < 256 ^ 8) (h : Delimited write Sized) :
    Delimited (counted write) fun as => as.length ≤ bound ∧ ∀ a ∈ as, Sized a := by
  intro as bs rest left has hbs heq
  have hlta := Nat.lt_of_le_of_lt has.1 hbound
  have hltb := Nat.lt_of_le_of_lt hbs.1 hbound
  rw [Reader.counted, Reader.counted, List.append_assoc, List.append_assoc] at heq
  obtain ⟨hlen, htail⟩ := (number_inverts 8).delimited _ _ _ _ hlta hltb heq
  exact flatMap_delimited h hlen has.2 hbs.2 htail

end SaleRules.Reader
