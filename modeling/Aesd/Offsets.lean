import Mathlib.Algebra.GroupWithZero.Nat
import Mathlib.Data.List.Basic

/-!
Positions in the concatenation of a list of pieces. `locate` finds the piece a
position lies in and the offset inside it by subtracting piece sizes; it finds
nothing exactly from the total size on.
-/

namespace Aesd.Offsets

/-- The index of the piece that position `off` lies in, and the offset in it. -/
def locate : List ℕ → ℕ → Option (ℕ × ℕ)
  | [], _ => none
  | n :: ns, off =>
    if off < n then some (0, off) else (locate ns (off - n)).map fun p => (p.1 + 1, p.2)

theorem locate_eq_none_iff {ns : List ℕ} {off : ℕ} : locate ns off = none ↔ ns.sum ≤ off := by
  induction ns generalizing off with
  | nil => simp [locate]
  | cons n ns ih =>
    unfold locate
    rw [List.sum_cons]
    split
    · simp only [reduceCtorEq, false_iff]
      omega
    · rw [Option.map_eq_none_iff, ih]
      omega

/-- The piece found is the one with the position between its two ends. -/
theorem locate_eq_some_iff {ns : List ℕ} {off k r : ℕ} :
    locate ns off = some (k, r) ↔
      k < ns.length ∧ (ns.take k).sum ≤ off ∧ off < (ns.take (k + 1)).sum ∧
        r = off - (ns.take k).sum := by
  induction ns generalizing off k with
  | nil => simp [locate]
  | cons n ns ih =>
    unfold locate
    split
    · rename_i hlt
      constructor
      · intro h
        cases h
        simp [hlt]
      · rintro ⟨hk, hle, _, hr⟩
        cases k with
        | zero => simp [hr]
        | succ k =>
          simp only [List.take_succ_cons, List.sum_cons] at hle
          omega
    · rename_i hge
      rw [Option.map_eq_some_iff]
      constructor
      · rintro ⟨⟨j, q⟩, hj, heq⟩
        cases heq
        obtain ⟨hj1, hj2, hj3, hj4⟩ := ih.mp hj
        simp only [List.length_cons, List.take_succ_cons, List.sum_cons]
        refine ⟨by omega, by omega, by omega, by omega⟩
      · rintro ⟨hk, hle, hlt, hr⟩
        cases k with
        | zero =>
          simp only [List.take_succ_cons, List.take_zero, List.sum_cons, List.sum_nil] at hlt
          omega
        | succ k =>
          simp only [List.length_cons, List.take_succ_cons, List.sum_cons] at hk hle hlt hr
          exact ⟨(k, r), ih.mpr ⟨by omega, by omega, by omega, by omega⟩, rfl⟩

/-- Empty pieces at the end are never found. -/
theorem locate_append_zeros (ns : List ℕ) (m off : ℕ) :
    locate (ns ++ List.replicate m 0) off = locate ns off := by
  induction ns generalizing off with
  | nil =>
    rw [List.nil_append]
    exact locate_eq_none_iff.mpr (by simp)
  | cons n ns ih => rw [List.cons_append, locate, locate, ih]

/-- The rest of the concatenation from a position on starts with the rest of its piece. -/
theorem drop_flatten_of_locate {α : Type*} {pieces : List (List α)} {off k r : ℕ}
    (h : locate (pieces.map List.length) off = some (k, r)) :
    ∃ piece, pieces[k]? = some piece ∧ r < piece.length ∧
      pieces.flatten.drop off = piece.drop r ++ (pieces.drop (k + 1)).flatten := by
  induction pieces generalizing off k with
  | nil => simp [locate] at h
  | cons piece pieces ih =>
    rw [List.map_cons, locate] at h
    split at h
    · rename_i hlt
      cases h
      refine ⟨piece, rfl, hlt, ?_⟩
      rw [List.flatten_cons, List.drop_append_of_le_length (Nat.le_of_lt hlt)]
      rfl
    · rename_i hge
      obtain ⟨⟨j, q⟩, hj, heq⟩ := Option.map_eq_some_iff.mp h
      cases heq
      obtain ⟨found, hfound, hlt, hdrop⟩ := ih hj
      refine ⟨found, hfound, hlt, ?_⟩
      rw [List.flatten_cons, List.drop_append, List.drop_eq_nil_of_le (Nat.le_of_not_lt hge),
        List.nil_append, hdrop]
      rfl

/-- The rest of the piece that a position lies in; nothing from the end on. -/
def restAt {α : Type*} : List (List α) → ℕ → List α
  | [], _ => []
  | piece :: pieces, off =>
    if off < piece.length then piece.drop off else restAt pieces (off - piece.length)

theorem restAt_of_locate {α : Type*} {pieces : List (List α)} {off k r : ℕ}
    (h : locate (pieces.map List.length) off = some (k, r)) :
    ∃ piece, pieces[k]? = some piece ∧ r < piece.length ∧ restAt pieces off = piece.drop r := by
  induction pieces generalizing off k with
  | nil => simp [locate] at h
  | cons piece pieces ih =>
    rw [List.map_cons, locate] at h
    rw [restAt]
    split at h
    · rename_i hlt
      cases h
      exact ⟨piece, rfl, hlt, if_pos hlt⟩
    · rename_i hge
      obtain ⟨⟨j, q⟩, hj, heq⟩ := Option.map_eq_some_iff.mp h
      cases heq
      rw [if_neg hge]
      exact ih hj

theorem restAt_of_none {α : Type*} {pieces : List (List α)} {off : ℕ}
    (h : locate (pieces.map List.length) off = none) : restAt pieces off = [] := by
  induction pieces generalizing off with
  | nil => rfl
  | cons piece pieces ih =>
    rw [List.map_cons, locate] at h
    rw [restAt]
    split at h
    · cases h
    · rename_i hge
      rw [if_neg hge]
      exact ih (Option.map_eq_none_iff.mp h)

/-- A located byte of a piece is the byte of the concatenation. -/
theorem getElem?_flatten_of_locate {α : Type*} {pieces : List (List α)} {off k r : ℕ}
    (h : locate (pieces.map List.length) off = some (k, r)) :
    ∃ byte, pieces.flatten[off]? = some byte ∧ (pieces[k]?.bind (·[r]?)) = some byte := by
  obtain ⟨piece, hpiece, hr, hdrop⟩ := drop_flatten_of_locate h
  refine ⟨piece[r], ?_, ?_⟩
  · rw [List.drop_eq_getElem_cons hr] at hdrop
    have hhead := congrArg (·[0]?) hdrop
    simpa only [List.getElem?_drop, Nat.add_zero, List.cons_append, List.getElem?_cons_zero]
      using hhead
  · simp [hpiece, hr]

end Aesd.Offsets
