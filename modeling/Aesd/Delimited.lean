import Mathlib.Data.List.DropRight

/-!
Splitting a list at a separator: the pieces up to and including each separator,
and the rest behind the last one. The split is the only way of writing the list
as terminated pieces and a rest without a separator. So a list that ends with a
separator can be split apart from what follows it.
-/

namespace Aesd.Delimited

variable {α : Type*}

/-- The piece ends with its only separator. -/
def Terminated (sep : α) (piece : List α) : Prop := ∃ body, sep ∉ body ∧ piece = body ++ [sep]

/-- Put an element in front of the first piece, or of the rest if there is no piece. -/
def consFirst (a : α) : List (List α) × List α → List (List α) × List α
  | ([], rest) => ([], a :: rest)
  | (piece :: pieces, rest) => ((a :: piece) :: pieces, rest)

def split [DecidableEq α] (sep : α) : List α → List (List α) × List α
  | [] => ([], [])
  | a :: s =>
    if a = sep then ([a] :: (split sep s).1, (split sep s).2) else consFirst a (split sep s)

theorem Terminated.ne_nil {sep : α} {piece : List α} (h : Terminated sep piece) : piece ≠ [] := by
  obtain ⟨body, _, rfl⟩ := h
  simp

theorem Terminated.getLast?_eq {sep : α} {piece : List α} (h : Terminated sep piece) :
    piece.getLast? = some sep := by
  obtain ⟨body, _, rfl⟩ := h
  simp

/-- Nonempty pieces taken together end as the last of them does. -/
theorem getLast?_flatten {pieces : List (List α)} (h : ∀ p ∈ pieces, p ≠ []) :
    pieces.flatten.getLast? = pieces.getLast?.bind List.getLast? := by
  cases pieces using List.reverseRecOn with
  | nil => rfl
  | append_singleton pieces piece =>
    rw [List.flatten_concat, List.getLast?_append_of_ne_nil _ (h piece (by simp))]
    simp

variable [DecidableEq α] {sep : α}

theorem split_append_terminated {piece : List α} (h : Terminated sep piece) (s : List α) :
    split sep (piece ++ s) = (piece :: (split sep s).1, (split sep s).2) := by
  obtain ⟨body, hbody, rfl⟩ := h
  induction body with
  | nil => simp [split]
  | cons a body ih =>
    rw [List.mem_cons, not_or] at hbody
    rw [List.cons_append, List.cons_append, split, if_neg (Ne.symm hbody.1), ih hbody.2]
    rfl

theorem split_of_not_mem {s : List α} (h : sep ∉ s) : split sep s = ([], s) := by
  induction s with
  | nil => rfl
  | cons a s ih =>
    rw [List.mem_cons, not_or] at h
    rw [split, if_neg (Ne.symm h.1), ih h.2]
    rfl

theorem split_flatten_append {pieces : List (List α)} (h : ∀ p ∈ pieces, Terminated sep p)
    (s : List α) :
    split sep (pieces.flatten ++ s) = (pieces ++ (split sep s).1, (split sep s).2) := by
  induction pieces with
  | nil => rfl
  | cons piece pieces ih =>
    obtain ⟨hpiece, hpieces⟩ := List.forall_mem_cons.mp h
    rw [List.flatten_cons, List.append_assoc, split_append_terminated hpiece, ih hpieces]
    rfl

/-- Terminated pieces and a rest without a separator are what the split gives. -/
theorem split_unique {pieces : List (List α)} {rest : List α}
    (h : ∀ p ∈ pieces, Terminated sep p) (hrest : sep ∉ rest) :
    split sep (pieces.flatten ++ rest) = (pieces, rest) := by
  rw [split_flatten_append h, split_of_not_mem hrest, List.append_nil]

/-- What the split gives are terminated pieces and a rest without a separator. -/
theorem split_spec (sep : α) (s : List α) :
    (split sep s).1.flatten ++ (split sep s).2 = s ∧
      (∀ p ∈ (split sep s).1, Terminated sep p) ∧ sep ∉ (split sep s).2 := by
  induction s with
  | nil => exact ⟨rfl, by simp [split], by simp [split]⟩
  | cons a s ih =>
    obtain ⟨hflat, hpieces, hrest⟩ := ih
    unfold split
    split
    · rename_i hsep
      subst hsep
      refine ⟨by rw [List.flatten_cons, List.append_assoc, hflat]; rfl, ?_, hrest⟩
      exact List.forall_mem_cons.mpr ⟨⟨[], by simp, rfl⟩, hpieces⟩
    · rename_i hsep
      have hne : sep ≠ a := Ne.symm hsep
      cases hsplit : Delimited.split sep s with
      | mk pieces rest =>
        rw [hsplit] at hflat hpieces hrest
        cases pieces with
        | nil =>
          exact ⟨congrArg (a :: ·) hflat, by simp [consFirst], by simp [consFirst, hne, hrest]⟩
        | cons piece pieces =>
          obtain ⟨⟨body, hbody, heq⟩, hmore⟩ := List.forall_mem_cons.mp hpieces
          refine ⟨congrArg (a :: ·) hflat, ?_, hrest⟩
          refine List.forall_mem_cons.mpr ⟨⟨a :: body, ?_, by rw [heq]; rfl⟩, hmore⟩
          rw [List.mem_cons, not_or]
          exact ⟨hne, hbody⟩

/-- A list that ends with the separator leaves no rest. -/
theorem split_of_getLast? {s : List α} (h : s = [] ∨ s.getLast? = some sep) :
    (split sep s).2 = [] := by
  obtain ⟨hflat, _, hrest⟩ := split_spec sep s
  by_contra hne
  rcases h with rfl | hlast
  · exact hne rfl
  · rw [← hflat, List.getLast?_append_of_ne_nil _ hne] at hlast
    exact hrest (List.mem_of_getLast? hlast)

theorem split_append {s : List α} (h : s = [] ∨ s.getLast? = some sep) (t : List α) :
    split sep (s ++ t) = ((split sep s).1 ++ (split sep t).1, (split sep t).2) := by
  obtain ⟨hflat, hpieces, _⟩ := split_spec sep s
  rw [split_of_getLast? h, List.append_nil] at hflat
  have happend := split_flatten_append hpieces t
  rwa [hflat] at happend

/-- Groups that each contain the separator are compared with the pieces of the
whole: the last `n` are the same, with the same rest, exactly if each of these
groups is a piece and the group before them ends with the separator. -/
theorem rtake_split_eq_iff {groups : List (List α)} {rest : List α} (n : ℕ)
    (hgroups : ∀ g ∈ groups, sep ∈ g) (hrest : sep ∉ rest) :
    (split sep (groups.flatten ++ rest)).1.rtake n = groups.rtake n ∧
        (split sep (groups.flatten ++ rest)).2 = rest ↔
      (∀ g ∈ groups.rtake n, Terminated sep g) ∧
        ∀ g, (groups.rdrop n).getLast? = some g → g.getLast? = some sep := by
  have hcut : groups.rdrop n ++ groups.rtake n = groups := List.take_append_drop _ _
  have hwhole : groups.flatten = (groups.rdrop n).flatten ++ (groups.rtake n).flatten := by
    rw [← List.flatten_append, hcut]
  have hearlier : ∀ g ∈ groups.rdrop n, g ≠ [] := by
    intro g hg
    exact List.ne_nil_of_mem (hgroups g (List.mem_of_mem_take hg))
  constructor
  · rintro ⟨hlast, htail⟩
    obtain ⟨hflat, hpieces, _⟩ := split_spec sep (groups.flatten ++ rest)
    generalize split sep (groups.flatten ++ rest) = lines at *
    have hcut' : lines.1.rdrop n ++ lines.1.rtake n = lines.1 := List.take_append_drop _ _
    refine ⟨fun g hg => ?_, fun g hg => ?_⟩
    · rw [← hlast] at hg
      exact hpieces g (List.mem_of_mem_drop hg)
    · -- the earlier pieces and the earlier groups are the same bytes
      have hsame : (lines.1.rdrop n).flatten = (groups.rdrop n).flatten := by
        rw [htail, ← hcut', List.flatten_append, hlast, hwhole] at hflat
        exact List.append_cancel_right (List.append_cancel_right hflat)
      have hlines : ∀ p ∈ lines.1.rdrop n, Terminated sep p :=
        fun p hp => hpieces p (List.mem_of_mem_take hp)
      have hends := getLast?_flatten hearlier
      rw [hg, ← hsame, getLast?_flatten fun p hp => (hlines p hp).ne_nil] at hends
      cases hpiece : (lines.1.rdrop n).getLast? with
      | none =>
        rw [List.getLast?_eq_none_iff] at hpiece
        rw [hpiece, List.flatten_nil, eq_comm, List.flatten_eq_nil_iff] at hsame
        have hmem := List.mem_of_getLast? hg
        exact absurd (hsame g hmem) (hearlier g hmem)
      | some piece =>
        rw [hpiece] at hends
        exact hends.symm.trans (hlines piece (List.mem_of_getLast? hpiece)).getLast?_eq
  · rintro ⟨hpieces, hbefore⟩
    have hstart : (groups.rdrop n).flatten = [] ∨
        (groups.rdrop n).flatten.getLast? = some sep := by
      cases hg : (groups.rdrop n).getLast? with
      | none =>
        rw [List.getLast?_eq_none_iff.mp hg]
        exact Or.inl rfl
      | some g =>
        rw [getLast?_flatten hearlier, hg]
        exact Or.inr (hbefore g hg)
    rw [hwhole, List.append_assoc, split_append hstart, split_unique hpieces hrest]
    refine ⟨?_, rfl⟩
    dsimp only
    rcases Nat.lt_or_ge groups.length n with hlt | hge
    · have hnone : groups.rdrop n = [] := by
        have hzero : groups.length - n = 0 := by omega
        rw [List.rdrop, hzero, List.take_zero]
      have hall : groups.rtake n = groups := by
        rw [hnone] at hcut
        exact hcut
      rw [hnone, hall, List.flatten_nil, split, List.nil_append, hall]
    · have hlen : (groups.rtake n).length = n := by
        rw [List.rtake, List.length_drop]
        omega
      rw [List.rtake, List.length_append, hlen, Nat.add_sub_cancel, List.drop_left]

end Aesd.Delimited
