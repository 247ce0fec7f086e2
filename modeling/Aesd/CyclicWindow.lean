import Mathlib.Data.List.DropRight
import Mathlib.Data.List.GetD
import Mathlib.Data.Nat.ModEq
import Mathlib.Order.Interval.Finset.Nat

/-!
An array of `N` slots written cyclically. After a list of writes the slots hold
its last `N` elements, each at its own index modulo `N`, and the slots never
written hold the initial element. Reading from the oldest slot gives the last
`N` elements back in order; reading all physical slots gives a rearrangement
of them, padded with the initial element.
-/

namespace Aesd.CyclicWindow

variable {α : Type*}

/-- `slot` is the array after writing `xs` cyclically over `init`. -/
structure Window (N : ℕ) (init : α) (slot : ℕ → α) (xs : List α) : Prop where
  recent : ∀ i x, xs[i]? = some x → xs.length ≤ i + N → slot (i % N) = x
  unused : ∀ j, xs.length ≤ j → j < N → slot j = init

theorem Window.nil (N : ℕ) (init : α) : Window N init (fun _ => init) [] where
  recent i x h := by simp at h
  unused _ _ _ := rfl

/-- Equal residues of indices at most `N` apart are equal indices. -/
theorem eq_of_mod_eq {N i n : ℕ} (hin : i ≤ n) (hlt : n < i + N) (h : i % N = n % N) : i = n := by
  have hd : N ∣ n - i := (Nat.modEq_iff_dvd' hin).mp h
  have hz : n - i = 0 := Nat.eq_zero_of_dvd_of_lt hd (by omega)
  omega

/-- Writing at the length of the history modulo `N` extends the history. -/
theorem Window.push {N : ℕ} {init : α} {slot slot' : ℕ → α} {xs : List α} {x : α}
    (h : Window N init slot xs) (hN : 0 < N)
    (hnew : slot' (xs.length % N) = x)
    (hold : ∀ j, j < N → j ≠ xs.length % N → slot' j = slot j) :
    Window N init slot' (xs ++ [x]) where
  recent i y hy hi := by
    simp only [List.length_append, List.length_singleton] at hi
    rcases Nat.lt_or_ge i xs.length with hlt | hge
    · rw [List.getElem?_append_left hlt] at hy
      have hne : i % N ≠ xs.length % N := by
        intro heq
        have := eq_of_mod_eq (Nat.le_of_lt hlt) (by omega) heq
        omega
      rw [hold (i % N) (Nat.mod_lt i hN) hne]
      exact h.recent i y hy (by omega)
    · rw [List.getElem?_append_right hge] at hy
      have hi0 : i - xs.length = 0 := by
        by_contra hpos
        rw [List.getElem?_eq_none (by simp; omega)] at hy
        cases hy
      have hix : i = xs.length := by omega
      subst hix
      simp only [Nat.sub_self, List.getElem?_cons_zero, Option.some.injEq] at hy
      exact hnew.trans hy
  unused j hj hjN := by
    simp only [List.length_append, List.length_singleton] at hj
    have hmod : xs.length % N = xs.length := Nat.mod_eq_of_lt (by omega)
    rw [hold j hjN (by omega)]
    exact h.unused j (by omega) hjN

/-- What a write is about to overwrite: the initial element until the array is
full, then the element written `N` writes ago. -/
theorem Window.overwritten {N : ℕ} {init : α} {slot : ℕ → α} {xs : List α}
    (h : Window N init slot xs) (hN : 0 < N) :
    slot (xs.length % N) = if xs.length < N then init else xs.getD (xs.length - N) init := by
  split
  · rename_i hlt
    rw [Nat.mod_eq_of_lt hlt]
    exact h.unused xs.length (Nat.le_refl _) hlt
  · rename_i hge
    have hlt : xs.length - N < xs.length := by omega
    have hmod : xs.length % N = (xs.length - N) % N := Nat.mod_eq_sub_mod (by omega)
    rw [hmod, List.getD_eq_getElem _ _ hlt]
    exact h.recent _ _ (List.getElem?_eq_getElem hlt) (by omega)

/-- The `k`-th slot counted from the oldest one. -/
theorem Window.slot_from_oldest {N : ℕ} {init : α} {slot : ℕ → α} {xs : List α}
    (h : Window N init slot xs) {k : ℕ} (hk : k < min xs.length N) :
    slot ((xs.length - N + k) % N) = (xs.rtake N).getD k init := by
  have hlt : xs.length - N + k < xs.length := by omega
  have hlen : k < (xs.rtake N).length := by
    simp only [List.rtake, List.length_drop]
    omega
  rw [List.getD_eq_getElem _ _ hlen]
  have hget : xs[xs.length - N + k]? = some ((xs.rtake N)[k]) := by
    rw [List.getElem?_eq_getElem hlt]
    simp only [List.rtake, List.getElem_drop]
  exact h.recent _ _ hget (by omega)

/-- Reading cyclically from the oldest slot gives the last `N` writes in order. -/
theorem Window.read {N : ℕ} {init : α} {slot : ℕ → α} {xs : List α}
    (h : Window N init slot xs) :
    (List.range (min xs.length N)).map (fun k => slot ((xs.length - N + k) % N)) =
      xs.rtake N := by
  have hlen : (xs.rtake N).length = min xs.length N := by
    simp only [List.rtake, List.length_drop]
    omega
  apply List.ext_getElem
  · simp [hlen]
  · intro k hk hk'
    have hkm : k < min xs.length N := hlen ▸ hk'
    simp only [List.getElem_map, List.getElem_range]
    rw [h.slot_from_oldest hkm, List.getD_eq_getElem _ _ hk']

/-- Reading all slots from the oldest one: the last `N` writes, then the slots
never written. -/
theorem Window.read_all {N : ℕ} {init : α} {slot : ℕ → α} {xs : List α}
    (h : Window N init slot xs) :
    (List.range N).map (fun k => slot ((xs.length - N + k) % N)) =
      xs.rtake N ++ List.replicate (N - xs.length) init := by
  have hlen : (xs.rtake N).length = min xs.length N := by
    simp only [List.rtake, List.length_drop]
    omega
  apply List.ext_getElem
  · simp only [List.length_map, List.length_range, List.length_append, hlen, List.length_replicate]
    omega
  · intro k hk hk'
    simp only [List.length_map, List.length_range] at hk
    simp only [List.getElem_map, List.getElem_range]
    rcases Nat.lt_or_ge k (min xs.length N) with hlt | hge
    · rw [h.slot_from_oldest hlt, List.getElem_append_left (hlen ▸ hlt),
        List.getD_eq_getElem _ _ (hlen ▸ hlt)]
    · have hsmall : xs.length ≤ k := by omega
      have hidx : (xs.length - N + k) % N = k := by
        rw [Nat.sub_eq_zero_of_le (by omega), Nat.zero_add, Nat.mod_eq_of_lt hk]
      rw [hidx, List.getElem_append_right (hlen ▸ hge), List.getElem_replicate]
      exact h.unused k hsmall hk

/-- The last element of `xs` that was written to slot `j`, if one was. -/
def latest (N : ℕ) (xs : List α) (j : ℕ) : Option α :=
  if j < xs.length then xs[xs.length - 1 - (xs.length - 1 - j) % N]? else none

/-- A slot holds the element last written to it. -/
theorem Window.slot_eq {N : ℕ} {init : α} {slot : ℕ → α} {xs : List α}
    (h : Window N init slot xs) {j : ℕ} (hj : j < N) :
    slot j = (latest N xs j).getD init := by
  unfold latest
  split
  · rename_i hlt
    have hmod : (xs.length - 1 - j) % N < N := Nat.mod_lt _ (by omega)
    have hle : (xs.length - 1 - j) % N ≤ xs.length - 1 - j := Nat.mod_le _ _
    have hidx : xs.length - 1 - (xs.length - 1 - j) % N < xs.length := by omega
    have hsplit := Nat.div_add_mod (xs.length - 1 - j) N
    -- going back by whole rounds from the end leads to slot `j`
    have hround : xs.length - 1 - (xs.length - 1 - j) % N = j + N * ((xs.length - 1 - j) / N) := by
      omega
    have hslot : (xs.length - 1 - (xs.length - 1 - j) % N) % N = j := by
      rw [hround, Nat.add_mul_mod_self_left, Nat.mod_eq_of_lt hj]
    rw [List.getElem?_eq_getElem hidx, Option.getD_some]
    have hrecent := h.recent _ _ (List.getElem?_eq_getElem hidx) (by omega)
    rwa [hslot] at hrecent
  · rename_i hge
    exact h.unused j (by omega) hj

/-- Going round once from any slot visits every slot once. -/
theorem range_rotate_perm (N a : ℕ) :
    ((List.range N).map fun k => (a + k) % N).Perm (List.range N) := by
  have hshift : (List.range N).map (fun k => (a + k) % N) = (List.range' a N).map (· % N) := by
    rw [List.range'_eq_map_range, List.map_map]
    rfl
  have hIco : Multiset.Ico a (a + N) = (List.range' a N : Multiset ℕ) := by
    show ((List.range' a (a + N - a) : List ℕ) : Multiset ℕ) = _
    rw [Nat.add_sub_cancel_left]
  rw [hshift]
  apply Multiset.coe_eq_coe.mp
  rw [← Multiset.map_coe, ← hIco, Nat.multiset_Ico_map_mod]
  rfl

/-- The physical slots in any order hold the last `N` writes and the initial element. -/
theorem Window.perm {N : ℕ} {init : α} {slot : ℕ → α} {xs : List α}
    (h : Window N init slot xs) :
    ((List.range N).map slot).Perm (xs.rtake N ++ List.replicate (N - xs.length) init) := by
  rw [← h.read_all]
  have hperm := (range_rotate_perm N (xs.length - N)).map slot
  rw [List.map_map] at hperm
  exact hperm.symm

end Aesd.CyclicWindow
