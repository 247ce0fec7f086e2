import Aesd.Runs
import Mathlib.Algebra.GroupWithZero.Nat

/-!
A resource that one user has at a time, in a system with a clock. Its uses come one
after the other, so what they take adds up to at most the time that goes by.
-/

namespace Aesd.ExclusiveUse

open Runs

structure TimeSpan where
  start : ℕ
  stop : ℕ
  deriving DecidableEq, Repr

def TimeSpan.length (i : TimeSpan) : ℕ := i.stop - i.start

/-- One after the other, and over by `now`. -/
structure Successive (uses : List TimeSpan) (now : ℕ) : Prop where
  ordered : uses.Pairwise fun i j => i.stop ≤ j.start
  bounded : ∀ i ∈ uses, i.start ≤ i.stop ∧ i.stop ≤ now

theorem Successive.sum_le {uses : List TimeSpan} {now : ℕ} (h : Successive uses now) :
    (uses.map TimeSpan.length).sum ≤ now := by
  induction uses using List.reverseRecOn generalizing now with
  | nil => exact Nat.zero_le now
  | append_singleton uses i ih =>
    obtain ⟨hordered, _, hlast⟩ := List.pairwise_append.mp h.ordered
    obtain ⟨hlength, hnow⟩ := h.bounded i (by simp)
    have hbefore : Successive uses i.start :=
      ⟨hordered, fun j hj => ⟨(h.bounded j (by simp [hj])).1, hlast j hj i (by simp)⟩⟩
    have hsum := ih hbefore
    rw [List.map_append, List.sum_append, List.map_singleton, List.sum_singleton, TimeSpan.length]
    omega

/-- `since` is when the present user came, and `used` the use that a step shows to
have come to its end. -/
structure Usage (S L : Type*) where
  now : S → ℕ
  since : S → Option ℕ
  used : S → L → Option TimeSpan

namespace Usage

variable {S L : Type*} (u : Usage S L)

/-- What a step ends was a use by the present user, and whoever is there after the
step has been there all along, with no use ended, or has come with the step. -/
structure Respects (s : S) (l : L) (t : S) : Prop where
  forward : u.now s ≤ u.now t
  used : ∀ i ∈ u.used s l, ∃ start, u.since s = some start ∧ start ≤ i.start ∧
    i.start ≤ i.stop ∧ i.stop ≤ u.now t
  since : ∀ start, u.since t = some start →
    u.now t ≤ start ∨ u.since s = some start ∧ u.used s l = none

/-- The uses before the present user came. -/
structure Covers (uses : List TimeSpan) (s : S) : Prop where
  successive : Successive uses (u.now s)
  since : ∀ start, u.since s = some start → ∀ i ∈ uses, i.stop ≤ start

variable {u} {s t : S}

theorem Covers.step {uses : List TimeSpan} {l : L} (h : u.Covers uses s)
    (hstep : u.Respects s l t) : u.Covers (uses ++ (u.used s l).toList) t := by
  have hmem : ∀ i ∈ uses ++ (u.used s l).toList, i ∈ uses ∨ i ∈ u.used s l := by simp
  have hbounded : ∀ i ∈ uses ++ (u.used s l).toList, i.start ≤ i.stop ∧ i.stop ≤ u.now t := by
    intro i hi
    rcases hmem i hi with hi | hi
    · obtain ⟨hlength, hnow⟩ := h.successive.bounded i hi
      exact ⟨hlength, hnow.trans hstep.forward⟩
    · obtain ⟨_, _, _, hlength, hnow⟩ := hstep.used i hi
      exact ⟨hlength, hnow⟩
  refine ⟨⟨List.pairwise_append.mpr ⟨h.successive.ordered, ?_, ?_⟩, hbounded⟩, ?_⟩
  · cases u.used s l <;> simp
  · intro i hi j hj
    obtain ⟨start, hsince, hle, _⟩ := hstep.used j (Option.mem_toList.mp hj)
    exact (h.since start hsince i hi).trans hle
  · intro start hstart i hi
    rcases hstep.since start hstart with hcame | ⟨hstays, hnone⟩
    · exact (hbounded i hi).2.trans hcame
    · rw [hnone, Option.toList_none, List.append_nil] at hi
      exact h.since start hstays i hi

variable {next : S → L → Option S} {Inv : S → Prop}

theorem Covers.run (hstep : ∀ s l t, Inv s → next s l = some t → Inv t ∧ u.Respects s l t)
    {uses : List TimeSpan} {ls : List L} (hs : Inv s) (h : u.Covers uses s)
    (hrun : exec next s ls = some t) :
    u.Covers (uses ++ outputs next (fun s l => (u.used s l).toList) s ls) t := by
  induction ls generalizing uses s with
  | nil =>
    cases hrun
    simpa [outputs] using h
  | cons l ls ih =>
    obtain ⟨v, hl, hls⟩ := exec_cons_eq_some.mp hrun
    obtain ⟨hv, hrespects⟩ := hstep s l v hs hl
    have hrest := ih hv (h.step hrespects) hls
    rw [outputs, hl]
    dsimp only
    rwa [← List.append_assoc]

/-- In a run that starts with nobody there. -/
theorem successive (hstep : ∀ s l t, Inv s → next s l = some t → Inv t ∧ u.Respects s l t)
    {ls : List L} (hs : Inv s) (hnobody : u.since s = none) (hrun : exec next s ls = some t) :
    Successive (outputs next (fun s l => (u.used s l).toList) s ls) (u.now t) := by
  have hnone : u.Covers [] s :=
    ⟨⟨.nil, by simp⟩, fun start h => by rw [hnobody] at h; cases h⟩
  exact (hnone.run hstep hs hrun).successive

/-- A time that is counted for a use is at most its length. -/
theorem sum_le_length {spent : S → L → ℕ}
    (hspent : ∀ s l t, next s l = some t →
      spent s l ≤ ((u.used s l).toList.map TimeSpan.length).sum)
    {ls : List L} (hrun : exec next s ls = some t) :
    (outputs next (fun s l => [spent s l]) s ls).sum ≤
      ((outputs next (fun s l => (u.used s l).toList) s ls).map TimeSpan.length).sum := by
  induction ls generalizing s with
  | nil => exact Nat.le_refl _
  | cons l ls ih =>
    obtain ⟨v, hl, hls⟩ := exec_cons_eq_some.mp hrun
    rw [outputs, outputs, hl]
    dsimp only
    rw [List.sum_append, List.sum_singleton, List.map_append, List.sum_append]
    exact Nat.add_le_add (hspent s l v hl) (ih hls)

end Usage

end Aesd.ExclusiveUse
