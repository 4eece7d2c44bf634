import SaleRules.Directory
import Mathlib.Tactic.Common

/-!
# What a write leaves in a directory

What a path names depends on the files only where it names nothing. A write that succeeds therefore
changes the file that its path names and no other, and the same path reads what was written.
-/
namespace SaleRules.Directory

variable {d : Directory}

/-- The path leads to the place of a file in the directory, whether one stands there or not. -/
def Names (d : Directory) (path name : String) : Prop := d.resolve path = .ok (.entry name false)

theorem Names.unique {path name other : String} (h : d.Names path name) (h' : d.Names path other) :
    name = other := by
  have hsame := h.symm.trans h'
  cases hsame
  rfl

/-! ## Files -/

theorem lookup_map_replace (files : List (String × Bytes)) (name : String) (bytes : Bytes)
    (other : String) :
    (files.map fun file => if file.1 = name then (name, bytes) else file).lookup other =
      if other = name then (files.lookup other).map fun _ => bytes else files.lookup other := by
  induction files with
  | nil => simp
  | cons file files ih =>
    obtain ⟨first, held⟩ := file
    rw [List.map_cons]
    by_cases hfirst : first = name
    · subst hfirst
      by_cases hother : other = first
      · simp [hother]
      · simp only [if_true, List.lookup_cons, beq_false_of_ne hother, ih, if_neg hother]
    · by_cases hother : other = first
      · subst hother
        simp [hfirst]
      · simp only [if_neg hfirst, List.lookup_cons, beq_false_of_ne hother, ih]

theorem lookup_append_new {files : List (String × Bytes)} {name : String}
    (h : files.lookup name = none) (bytes : Bytes) (other : String) :
    (files ++ [(name, bytes)]).lookup other =
      if other = name then some bytes else files.lookup other := by
  induction files with
  | nil =>
    by_cases hother : other = name
    · simp [hother]
    · simp [List.lookup_cons, beq_false_of_ne hother, hother]
  | cons file files ih =>
    obtain ⟨first, held⟩ := file
    have hfirst : name ≠ first := by
      rintro rfl
      simp at h
    rw [List.lookup_cons, beq_false_of_ne hfirst] at h
    rw [List.cons_append]
    by_cases hother : other = first
    · subst hother
      simp [hfirst.symm]
    · simp only [List.lookup_cons, beq_false_of_ne hother, ih h]

theorem find?_put (d : Directory) (name : String) (bytes : Bytes) (other : String) :
    (d.put name bytes).find? other = if other = name then some bytes else d.find? other := by
  rw [put]
  split
  · next hsome =>
    rw [find?, lookup_map_replace]
    by_cases hother : other = name
    · obtain ⟨held, hheld⟩ := Option.isSome_iff_exists.mp hsome
      rw [find?] at hheld
      rw [if_pos hother, if_pos hother, hother, hheld]
      rfl
    · rw [if_neg hother, if_neg hother]
      rfl
  · next hnone => exact lookup_append_new (Option.not_isSome_iff_eq_none.mp hnone) bytes other

theorem find?_put_self (d : Directory) (name : String) (bytes : Bytes) :
    (d.put name bytes).find? name = some bytes := by
  rw [find?_put, if_pos rfl]

theorem find?_put_of_ne (d : Directory) {name other : String} (h : other ≠ name) (bytes : Bytes) :
    (d.put name bytes).find? other = d.find? other := by
  rw [find?_put, if_neg h]

/-! ## Paths -/

theorem locate_eq_ok {parts : List (List Char)} {target : Target}
    (h : d.locate parts = .ok target) (d' : Directory) : d'.locate parts = .ok target := by
  induction parts with
  | nil => exact h
  | cons part parts ih =>
    simp only [locate] at h ⊢
    split at h
    · next hstays =>
      rw [if_pos hstays]
      exact ih h
    · next hstays =>
      rw [if_neg hstays]
      split at h
      · next hascends => rwa [if_pos hascends]
      · next hascends =>
        rw [if_neg hascends]
        split at h
        · next hlast => rwa [if_pos hlast]
        -- only what names nothing looks at the files
        · split at h <;> cases h

/-- A path that names something names it whatever files there are. -/
theorem resolve_eq_ok {path : String} {target : Target} (h : d.resolve path = .ok target)
    (d' : Directory) : d'.resolve path = .ok target := by
  rw [resolve] at h ⊢
  split at h
  · cases h
  · next hlength =>
    rw [if_neg hlength]
    split at h
    · cases h
    · exact h
    · exact locate_eq_ok h d'

theorem write_eq_ok_iff {d' : Directory} {path : String} {bytes : Bytes} :
    d.write path bytes = .ok d' ↔
      ∃ name, d.Names path name ∧ name.utf8ByteSize ≤ nameLimit ∧ d' = d.put name bytes := by
  constructor
  · intro h
    rw [write] at h
    split at h
    iterate 5 cases h
    next name hname =>
      split at h
      · cases h
      · next hsize => exact ⟨name, hname, Nat.not_lt.mp hsize, (Except.ok.inj h).symm⟩
  · rintro ⟨name, hname, hsize, rfl⟩
    simp only [write, show d.resolve path = _ from hname, if_neg (Nat.not_lt.mpr hsize)]

/-- Something can be written to the path. -/
def Writable (d : Directory) (path : String) : Prop := ∃ bytes after, d.write path bytes = .ok after

/-- What is written does not decide whether it can be written. -/
theorem Writable.write {path : String} (h : d.Writable path) (bytes : Bytes) :
    ∃ after, d.write path bytes = .ok after := by
  obtain ⟨held, after, hwrite⟩ := h
  obtain ⟨name, hname, hsize, -⟩ := write_eq_ok_iff.mp hwrite
  exact ⟨_, write_eq_ok_iff.mpr ⟨name, hname, hsize, rfl⟩⟩

theorem read_of_names {path name : String} {bytes : Bytes} (h : d.Names path name)
    (hfind : d.find? name = some bytes) : d.read path = .ok bytes := by
  simp only [read, show d.resolve path = _ from h, hfind]
  rfl

/-- A path reads what was written to it. -/
theorem read_of_write {d' : Directory} {path : String} {bytes : Bytes}
    (h : d.write path bytes = .ok d') : d'.read path = .ok bytes := by
  obtain ⟨name, hname, -, rfl⟩ := write_eq_ok_iff.mp h
  exact read_of_names (resolve_eq_ok hname _) (find?_put_self d name bytes)

end SaleRules.Directory
