import SaleRules.Proofs.ProgramHistory
import SaleRules.Proofs.SourceComposition
import SaleRules.Rule

/-!
# Programs taken apart

Instructions have one width, so wherever packed instructions are cut at a multiple of it, each piece
is itself packed instructions. The pieces of a packed program can therefore be read one by one, and
joined again as bytes or as instructions they make the program that they were cut from.
-/
namespace SaleRules

namespace Source

theorem bytes_join (ss : List Source) : (join ss).bytes = ss.flatMap bytes := by
  have hfold (s : Source) : (ss.foldl append s).bytes = s.bytes ++ ss.flatMap bytes := by
    induction ss generalizing s with
    | nil => simp
    | cons t ss ih => rw [List.foldl_cons, ih, append, List.append_assoc, List.flatMap_cons]
  exact hfold empty

/-- A piece of even length at the front of packed instructions is the first of them, packed. -/
theorem exists_cut {s : Source} {rest : Bytes} {is : List Instruction}
    (h : s.bytes ++ rest = (ofInstructions is).bytes) (heven : s.bytes.length % 2 = 0) :
    ∃ front back, front ++ back = is ∧ ofInstructions front = s ∧
      rest = (ofInstructions back).bytes := by
  have hlength := congrArg List.length h
  rw [List.length_append, length_ofInstructions] at hlength
  have hfront : (ofInstructions (is.take (s.bytes.length / 2))).bytes.length = s.bytes.length := by
    rw [length_ofInstructions, List.length_take]
    omega
  have hbytes := congrArg bytes
    (ofInstructions_append (is.take (s.bytes.length / 2)) (is.drop (s.bytes.length / 2)))
  rw [List.take_append_drop, ← h] at hbytes
  obtain ⟨hs, hrest⟩ := List.append_inj hbytes hfront.symm
  exact ⟨_, _, List.take_append_drop _ is, congrArg mk hs.symm, hrest⟩

/-- Pieces of even length of packed instructions are packed instructions themselves. -/
theorem exists_pieces {ss : List Source} {is : List Instruction}
    (h : ss.flatMap bytes = (ofInstructions is).bytes) (heven : ∀ s ∈ ss, s.bytes.length % 2 = 0) :
    ∃ pieces : List (List Instruction), pieces.map ofInstructions = ss ∧ pieces.flatten = is := by
  induction ss generalizing is with
  | nil =>
    have hempty : ofInstructions is = ofInstructions [] := congrArg mk h.symm
    exact ⟨[], rfl, (ofInstructions_inj.mp hempty).symm⟩
  | cons s ss ih =>
    obtain ⟨hs, hss⟩ := List.forall_mem_cons.mp heven
    obtain ⟨front, back, rfl, rfl, hrest⟩ := exists_cut h hs
    obtain ⟨pieces, rfl, rfl⟩ := ih hrest hss
    exact ⟨front :: pieces, rfl, rfl⟩

end Source

namespace Program

theorem runAll_appends (p : Program) (pieces : List (List Instruction)) :
    p.runAll ((pieces.map Source.ofInstructions).map .append) =
      .ok ⟨p.instructions ++ pieces.flatten, p.constants⟩ := by
  induction pieces generalizing p with
  | nil =>
    rw [List.flatten_nil, List.append_nil]
    rfl
  | cons is pieces ih =>
    rw [List.map_cons, List.map_cons, runAll, List.foldlM_cons, step_append]
    exact (ih _).trans (by rw [List.flatten_cons, List.append_assoc])

/-- However the bytes of a packed program are cut into pieces of even length, its constants and the
pieces in their order make the same config again, and the pieces joined as bytes are its source. -/
theorem finish_recomposed (steps : List Step) (stackLength : UInt32) (c : StateConfig)
    (h : (empty.run steps).finish stackLength = .ok c) :
    ∃ source, c.sources = [source] ∧
      ∀ ss : List Source, ss.flatMap Source.bytes = source.bytes →
        (∀ s ∈ ss, s.bytes.length % 2 = 0) →
        (∃ p, empty.runAll (.reserve c.constants :: ss.map .append) = .ok p ∧
          p.finish c.stackLength = .ok c) ∧
        Source.join ss = source := by
  obtain ⟨-, rfl⟩ := finish_eq_ok_iff.mp h
  refine ⟨_, rfl, fun ss hss heven => ⟨?_, ?_⟩⟩
  · obtain ⟨pieces, rfl, hpieces⟩ := Source.exists_pieces hss heven
    refine ⟨_, runAll_appends _ pieces, ?_⟩
    rw [hpieces]
    exact h
  · exact congrArg Source.mk ((Source.bytes_join ss).trans hss)

/-- The raise-or-grace program in four pieces, one of them empty and the others cut inside of its
comparisons. -/
theorem finish_recomposed_pieces :
    let r : Rule := .raiseOrGrace Word.zero Word.max Word.zero
    let constants : List Word := [Word.zero, Word.max, Word.zero]
    let c : StateConfig := ⟨[⟨Fingerprint.raiseOrGrace.bytes⟩], constants, 10, 0⟩
    let ss : List Source := [⟨Fingerprint.raiseOrGrace.bytes.take 2⟩, .empty,
      ⟨(Fingerprint.raiseOrGrace.bytes.drop 2).take 4⟩, ⟨Fingerprint.raiseOrGrace.bytes.drop 6⟩]
    (empty.run r.steps).finish 10 = .ok c ∧
      (∃ p, empty.runAll (.reserve constants :: ss.map .append) = .ok p ∧ p.finish 10 = .ok c) ∧
      Source.join ss = ⟨Fingerprint.raiseOrGrace.bytes⟩ := by
  intro r constants c ss
  have h : (empty.run r.steps).finish 10 = .ok c := by decide
  obtain ⟨source, hsource, hall⟩ := finish_recomposed r.steps 10 c h
  obtain rfl := List.singleton_inj.mp hsource
  exact ⟨h, hall ss (by decide) (by decide)⟩

end Program

end SaleRules
