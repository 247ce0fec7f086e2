import Mathlib.Algebra.GroupWithZero.Nat
import Mathlib.Algebra.Order.BigOperators.Group.List
import Mathlib.Algebra.Order.Group.Nat
import Mathlib.Data.List.Nodup
import Mathlib.Data.List.Perm.Subperm

/-!
A heap of allocated blocks known by their identities, with contents of an
arbitrary type. A pointer that is null or designates the zero-size object holds
no block. `Owns` says that a list of pointers accounts for the heap: the blocks
they hold are distinct, live, and all the live blocks there are, and no block
was released twice. The rules below say how each heap operation moves ownership.
-/

namespace Aesd.Blocks

inductive Ptr
  | null
  | zeroSize
  | block (id : ℕ)
  deriving DecidableEq, Repr

def Ptr.id? : Ptr → Option ℕ
  | .null => none
  | .zeroSize => none
  | .block id => some id

/-- Identities from `next` on were never allocated; `freed` is the history of releases. -/
structure Heap (β : Type*) where
  cell : ℕ → Option β
  next : ℕ
  freed : List ℕ
  fresh : ∀ id, next ≤ id → cell id = none

variable {β : Type*}

namespace Heap

def empty : Heap β where
  cell _ := none
  next := 0
  freed := []
  fresh _ _ := rfl

def Live (h : Heap β) (id : ℕ) : Prop := (h.cell id).isSome = true

instance (h : Heap β) (id : ℕ) : Decidable (h.Live id) :=
  inferInstanceAs (Decidable (_ = true))

def read (h : Heap β) (p : Ptr) : Option β := p.id?.bind h.cell

def alloc (h : Heap β) (b : β) : Ptr × Heap β :=
  (.block h.next,
    { cell := fun id => if id = h.next then some b else h.cell id
      next := h.next + 1
      freed := h.freed
      fresh := by
        intro id hid
        rw [if_neg (by omega)]
        exact h.fresh id (by omega) })

/-- Replace the contents of the block `p` designates; no effect on a dead one. -/
def store (h : Heap β) (p : Ptr) (b : β) : Heap β where
  cell id := if p.id? = some id then (h.cell id).map (fun _ => b) else h.cell id
  next := h.next
  freed := h.freed
  fresh := by
    intro id hid
    simp [h.fresh id hid]

def free (h : Heap β) (p : Ptr) : Heap β where
  cell id := if p.id? = some id then none else h.cell id
  next := h.next
  freed := p.id?.toList ++ h.freed
  fresh := by
    intro id hid
    simp [h.fresh id hid]

theorem lt_next_of_live {h : Heap β} {id : ℕ} (hl : h.Live id) : id < h.next := by
  by_contra hge
  simp [Live, h.fresh id (by omega)] at hl

theorem live_alloc (h : Heap β) (b : β) (id : ℕ) :
    (h.alloc b).2.Live id ↔ id = h.next ∨ h.Live id := by
  by_cases hid : id = h.next <;> simp [Live, alloc, hid]

theorem live_store (h : Heap β) (p : Ptr) (b : β) (id : ℕ) :
    (h.store p b).Live id ↔ h.Live id := by
  by_cases hid : p.id? = some id <;> simp [Live, store, hid]

theorem live_free (h : Heap β) (p : Ptr) (id : ℕ) :
    (h.free p).Live id ↔ p.id? ≠ some id ∧ h.Live id := by
  by_cases hid : p.id? = some id <;> simp [Live, free, hid]

theorem free_of_no_block (h : Heap β) {p : Ptr} (hp : p.id? = none) : h.free p = h := by
  cases h
  simp [free, hp]

theorem live_of_read {h : Heap β} {p : Ptr} {b : β} {id : ℕ} (hp : p.id? = some id)
    (hr : h.read p = some b) : h.Live id := by
  have hc : h.cell id = some b := by simpa [read, hp] using hr
  simp [Live, hc]

theorem id_ne_next_of_read {h : Heap β} {p : Ptr} {b : β} (hr : h.read p = some b) :
    p.id? ≠ some h.next := by
  intro hp
  exact Nat.lt_irrefl _ (lt_next_of_live (live_of_read hp hr))

@[simp] theorem read_alloc_self (h : Heap β) (b : β) :
    (h.alloc b).2.read (h.alloc b).1 = some b := by
  simp [read, alloc, Ptr.id?]

/-- An allocation does not disturb what is already there. -/
theorem read_alloc_of_read {h : Heap β} {p : Ptr} {b c : β} (hr : h.read p = some c) :
    (h.alloc b).2.read p = some c := by
  have hne := id_ne_next_of_read hr
  cases hp : p.id? with
  | none => simp [read, hp] at hr
  | some id =>
    have hid : id ≠ h.next := fun heq => hne (by rw [hp, heq])
    simpa [read, hp, alloc, hid] using hr

theorem read_store (h : Heap β) (p : Ptr) (b : β) :
    (h.store p b).read p = (h.read p).map fun _ => b := by
  cases hp : p.id? <;> simp [read, hp, store]

theorem read_store_self {h : Heap β} {p : Ptr} {b c : β} (hr : h.read p = some c) :
    (h.store p b).read p = some b := by
  rw [read_store, hr, Option.map_some]

theorem read_free_of_eq {h : Heap β} {p q : Ptr} (heq : p.id? = q.id?) :
    (h.free p).read q = none := by
  cases hq : q.id? <;> simp [read, hq, free, heq]

theorem read_store_of_ne {h : Heap β} {p q : Ptr} {b : β} (hne : p.id? ≠ q.id?) :
    (h.store p b).read q = h.read q := by
  cases hq : q.id? with
  | none => simp [read, hq]
  | some id =>
    have hp : p.id? ≠ some id := hq ▸ hne
    simp [read, hq, store, hp]

theorem read_free_of_ne {h : Heap β} {p q : Ptr} (hne : p.id? ≠ q.id?) :
    (h.free p).read q = h.read q := by
  cases hq : q.id? with
  | none => simp [read, hq]
  | some id =>
    have hp : p.id? ≠ some id := hq ▸ hne
    simp [read, hq, free, hp]

theorem ext_cell {h h' : Heap β} (hcell : ∀ id, h.cell id = h'.cell id) (hnext : h.next = h'.next)
    (hfreed : h.freed = h'.freed) : h = h' := by
  cases h
  cases h'
  obtain rfl := funext hcell
  cases hnext
  cases hfreed
  rfl

theorem store_store (h : Heap β) (p : Ptr) (b c : β) : (h.store p b).store p c = h.store p c := by
  refine ext_cell (fun id => ?_) rfl rfl
  by_cases hid : p.id? = some id
  · simp [store, hid, Function.comp_def]
  · simp [store, hid]

/-- Storing what is there changes nothing. -/
theorem store_read {h : Heap β} {p : Ptr} {b : β} (hb : ∀ c, h.read p = some c → c = b) :
    h.store p b = h := by
  refine ext_cell (fun id => ?_) rfl rfl
  by_cases hid : p.id? = some id
  · cases hc : h.cell id with
    | none => simp [store, hc]
    | some c =>
      have hread : h.read p = some c := by simp [read, hid, hc]
      simp [store, hid, hc, hb c hread]
  · simp [store, hid]

theorem free_store (h : Heap β) (p : Ptr) (b : β) : (h.store p b).free p = h.free p := by
  refine ext_cell (fun id => ?_) rfl rfl
  by_cases hid : p.id? = some id <;> simp [store, free, hid]

/-- A block that is about to be copied away and freed may hold anything. -/
theorem store_alloc_free {h : Heap β} {p : Ptr} (hp : p.id? ≠ some h.next) (b c c' d : β) :
    (((h.store p b).alloc c).2.free p).store (.block h.next) d =
      ((h.alloc c').2.free p).store (.block h.next) d := by
  have hnew : (Ptr.block h.next).id? = some h.next := rfl
  refine ext_cell (fun id => ?_) rfl rfl
  by_cases hid : id = h.next
  · subst hid
    simp [store, free, alloc, hnew, hp]
  · have hne : h.next ≠ id := Ne.symm hid
    by_cases hpid : p.id? = some id <;> simp [store, free, alloc, hnew, hid, hne, hpid]

section Total

variable (measure : β → ℕ)

/-- What block `id` measures; nothing if it is not live. -/
def weight (h : Heap β) (id : ℕ) : ℕ := (h.cell id).elim 0 measure

/-- What all live blocks measure together. -/
def total (h : Heap β) : ℕ := ((List.range h.next).map (h.weight measure)).sum

theorem weight_of_read {h : Heap β} {p : Ptr} {b : β} {id : ℕ} (hp : p.id? = some id)
    (hr : h.read p = some b) : h.weight measure id = measure b := by
  have hc : h.cell id = some b := by simpa [read, hp] using hr
  simp [weight, hc]

/-- Distinct live blocks are part of the whole. -/
theorem sum_weight_le_total {h : Heap β} {ids : List ℕ} (hdistinct : ids.Nodup)
    (hlive : ∀ id ∈ ids, h.Live id) : (ids.map (h.weight measure)).sum ≤ h.total measure := by
  have hsub : ids ⊆ List.range h.next := by
    intro id hid
    exact List.mem_range.mpr (lt_next_of_live (hlive id hid))
  obtain ⟨l, hperm, hl⟩ := List.subperm_of_subset hdistinct hsub
  rw [← (hperm.map (h.weight measure)).sum_eq]
  exact (hl.map (h.weight measure)).sum_le_sum fun _ _ => Nat.zero_le _

theorem total_alloc (h : Heap β) (b : β) :
    (h.alloc b).2.total measure = h.total measure + measure b := by
  have hold : ∀ id ∈ List.range h.next, (h.alloc b).2.weight measure id = h.weight measure id := by
    intro id hid
    have hne : id ≠ h.next := (List.mem_range.mp hid).ne
    simp [weight, alloc, hne]
  have hnew : (h.alloc b).2.weight measure h.next = measure b := by simp [weight, alloc]
  have hnext : (h.alloc b).2.next = h.next + 1 := rfl
  rw [total, hnext, List.range_succ, List.map_append, List.sum_append, List.map_congr_left hold,
    List.map_singleton, List.sum_singleton, hnew, total]

/-- One block that grows by at most `m` makes the whole grow by at most `m`. -/
theorem total_le_add {h h' : Heap β} {a m : ℕ} (hnext : h'.next = h.next)
    (hw : ∀ id, h'.weight measure id ≤ h.weight measure id + if id = a then m else 0) :
    h'.total measure ≤ h.total measure + m := by
  have hsum : ∀ n, ((List.range n).map (h'.weight measure)).sum ≤
      ((List.range n).map (h.weight measure)).sum + if a < n then m else 0 := by
    intro n
    induction n with
    | zero => simp
    | succ n ih =>
      have hn := hw n
      simp only [List.range_succ, List.map_append, List.sum_append, List.map_singleton,
        List.sum_singleton]
      split at ih <;> split at hn <;> split <;> omega
  have hall := hsum h.next
  rw [total, total, hnext]
  split at hall <;> omega

theorem total_le {h h' : Heap β} (hnext : h'.next = h.next)
    (hw : ∀ id, h'.weight measure id ≤ h.weight measure id) :
    h'.total measure ≤ h.total measure := by
  have hle := total_le_add measure (a := 0) (m := 0) hnext fun id => by simpa using hw id
  exact hle

theorem total_free (h : Heap β) (p : Ptr) : (h.free p).total measure ≤ h.total measure := by
  refine total_le measure ?_ fun id => ?_
  · rfl
  · by_cases hid : p.id? = some id <;> simp [weight, free, hid]

/-- Replacing a block adds at most what the new contents measure. -/
theorem total_store (h : Heap β) (p : Ptr) (b : β) :
    (h.store p b).total measure ≤ h.total measure + measure b := by
  cases hp : p.id? with
  | none =>
    have hsame : h.store p b = h := by
      cases h
      simp [store, hp]
    rw [hsame]
    exact Nat.le_add_right _ _
  | some a =>
    refine total_le_add measure (a := a) ?_ fun id => ?_
    · rfl
    · by_cases hid : id = a
      · subst hid
        cases hc : h.cell id <;> simp [weight, store, hp, hc]
      · have hne : a ≠ id := Ne.symm hid
        simp [weight, store, hp, hid, hne]

/-- Contents that measure no more than the old ones add nothing. -/
theorem total_store_of_le {h : Heap β} {p : Ptr} {b : β}
    (hb : ∀ old, h.read p = some old → measure b ≤ measure old) :
    (h.store p b).total measure ≤ h.total measure := by
  refine total_le measure ?_ fun id => ?_
  · rfl
  · by_cases hid : p.id? = some id
    · cases hc : h.cell id with
      | none => simp [weight, store, hc]
      | some old =>
        have hread : h.read p = some old := by simp [read, hid, hc]
        simpa [weight, store, hid, hc] using hb old hread
    · simp [weight, store, hid]

end Total

end Heap

/-- The identities of the blocks a list of pointers holds. -/
def ids (ptrs : List Ptr) : List ℕ := ptrs.filterMap Ptr.id?

theorem ids_cons_of_block {p : Ptr} {id : ℕ} (hp : p.id? = some id) (ptrs : List Ptr) :
    ids (p :: ptrs) = id :: ids ptrs := by
  simp [ids, hp]

theorem ids_cons_of_no_block {p : Ptr} (hp : p.id? = none) (ptrs : List Ptr) :
    ids (p :: ptrs) = ids ptrs := by
  simp [ids, hp]

/-- A block that is listed once is not listed again further on. -/
theorem id_ne_of_nodup {p q : Ptr} {ptrs : List Ptr} {id : ℕ} (hdistinct : (ids (p :: ptrs)).Nodup)
    (hq : q ∈ ptrs) (hid : q.id? = some id) : p.id? ≠ q.id? := by
  intro heq
  rw [ids_cons_of_block (heq.trans hid), List.nodup_cons] at hdistinct
  exact hdistinct.1 (List.mem_filterMap.mpr ⟨q, hq, hid⟩)

theorem id_ne_of_read {h : Heap β} {p q : Ptr} {ptrs : List Ptr} {b : β}
    (hdistinct : (ids (p :: ptrs)).Nodup) (hq : q ∈ ptrs) (hr : h.read q = some b) :
    p.id? ≠ q.id? := by
  cases hid : q.id? with
  | none => simp [Heap.read, hid] at hr
  | some id =>
    have hne := id_ne_of_nodup hdistinct hq hid
    rwa [hid] at hne

/-- The pointers account for exactly the live blocks, each held once, and no
block was released twice. -/
structure Owns (h : Heap β) (ptrs : List Ptr) : Prop where
  distinct : (ids ptrs).Nodup
  live_iff : ∀ id, h.Live id ↔ id ∈ ids ptrs
  freed_once : h.freed.Nodup
  freed_dead : ∀ id ∈ h.freed, ¬ h.Live id ∧ id < h.next

namespace Owns

theorem empty : Owns (Heap.empty : Heap β) [] where
  distinct := List.nodup_nil
  live_iff id := by simp [Heap.Live, Heap.empty, ids]
  freed_once := List.nodup_nil
  freed_dead id hid := by simp [Heap.empty] at hid

theorem perm {h : Heap β} {ptrs qtrs : List Ptr} (ho : Owns h ptrs) (hp : ptrs.Perm qtrs) :
    Owns h qtrs where
  distinct := (hp.filterMap Ptr.id?).nodup_iff.mp ho.distinct
  live_iff id := (ho.live_iff id).trans (hp.filterMap Ptr.id?).mem_iff
  freed_once := ho.freed_once
  freed_dead := ho.freed_dead

/-- Only the blocks that the pointers hold matter. -/
theorem of_ids_eq {h : Heap β} {ptrs qtrs : List Ptr} (ho : Owns h ptrs)
    (hids : ids ptrs = ids qtrs) : Owns h qtrs where
  distinct := hids ▸ ho.distinct
  live_iff id := hids ▸ ho.live_iff id
  freed_once := ho.freed_once
  freed_dead := ho.freed_dead

/-- A pointer that holds no block can join or leave the account. -/
theorem cons_of_no_block {h : Heap β} {p : Ptr} {ptrs : List Ptr} (hp : p.id? = none) :
    Owns h (p :: ptrs) ↔ Owns h ptrs := by
  constructor
  · rintro ⟨hd, hl, hf, hk⟩
    rw [ids_cons_of_no_block hp] at hd
    simp only [ids_cons_of_no_block hp] at hl
    exact ⟨hd, hl, hf, hk⟩
  · rintro ⟨hd, hl, hf, hk⟩
    refine ⟨?_, ?_, hf, hk⟩
    · rwa [ids_cons_of_no_block hp]
    · simpa only [ids_cons_of_no_block hp] using hl

theorem alloc {h : Heap β} {ptrs : List Ptr} (ho : Owns h ptrs) (b : β) :
    Owns (h.alloc b).2 ((h.alloc b).1 :: ptrs) where
  distinct := by
    rw [ids_cons_of_block rfl, List.nodup_cons]
    refine ⟨?_, ho.distinct⟩
    intro hmem
    exact Nat.lt_irrefl _ (Heap.lt_next_of_live ((ho.live_iff _).mpr hmem))
  live_iff id := by
    rw [ids_cons_of_block rfl, List.mem_cons, Heap.live_alloc, ho.live_iff]
  freed_once := ho.freed_once
  freed_dead id hid := by
    obtain ⟨hdead, hlt⟩ := ho.freed_dead id hid
    refine ⟨?_, Nat.lt_succ_of_lt hlt⟩
    rw [Heap.live_alloc]
    rintro (heq | hlive)
    · omega
    · exact hdead hlive

theorem store {h : Heap β} {ptrs : List Ptr} (ho : Owns h ptrs) (p : Ptr) (b : β) :
    Owns (h.store p b) ptrs where
  distinct := ho.distinct
  live_iff id := (Heap.live_store h p b id).trans (ho.live_iff id)
  freed_once := ho.freed_once
  freed_dead id hid := by
    rw [Heap.live_store]
    exact ho.freed_dead id hid

/-- Releasing a held pointer takes it out of the account. -/
theorem free {h : Heap β} {p : Ptr} {ptrs : List Ptr} (ho : Owns h (p :: ptrs)) :
    Owns (h.free p) ptrs := by
  cases hp : p.id? with
  | none =>
    rw [Heap.free_of_no_block h hp]
    exact (cons_of_no_block hp).mp ho
  | some id =>
    have hdist := ho.distinct
    rw [ids_cons_of_block hp, List.nodup_cons] at hdist
    have hlive : h.Live id := by
      rw [ho.live_iff, ids_cons_of_block hp]
      exact List.mem_cons_self ..
    have hfreed : (h.free p).freed = id :: h.freed := by simp [Heap.free, hp]
    refine ⟨hdist.2, ?_, ?_, ?_⟩
    · intro j
      rw [Heap.live_free, hp, ho.live_iff, ids_cons_of_block hp, List.mem_cons]
      constructor
      · rintro ⟨hne, rfl | hmem⟩
        · exact absurd rfl hne
        · exact hmem
      · intro hmem
        refine ⟨?_, Or.inr hmem⟩
        rintro ⟨rfl⟩
        exact hdist.1 hmem
    · rw [hfreed, List.nodup_cons]
      exact ⟨fun hmem => (ho.freed_dead id hmem).1 hlive, ho.freed_once⟩
    · intro j hj
      rw [Heap.live_free, hp]
      rw [hfreed, List.mem_cons] at hj
      rcases hj with rfl | hj
      · have hlt : j < h.next := Heap.lt_next_of_live hlive
        exact ⟨fun hd => hd.1 rfl, hlt⟩
      · obtain ⟨hdead, hlt⟩ := ho.freed_dead j hj
        exact ⟨fun hd => hdead hd.2, hlt⟩

/-- Two held pointers to a block are at one place only. -/
theorem id_ne {h : Heap β} {p q : Ptr} {ptrs : List Ptr} {id : ℕ}
    (ho : Owns h (p :: ptrs)) (hq : q ∈ ptrs) (hid : q.id? = some id) : p.id? ≠ q.id? :=
  id_ne_of_nodup ho.distinct hq hid

theorem id_ne_of_read {h h' : Heap β} {p q : Ptr} {ptrs : List Ptr} {b : β}
    (ho : Owns h (p :: ptrs)) (hq : q ∈ ptrs) (hr : h'.read q = some b) : p.id? ≠ q.id? :=
  Blocks.id_ne_of_read ho.distinct hq hr

/-- The live blocks, in the order of their identities, are those accounted for. -/
theorem live_perm {h : Heap β} {ptrs : List Ptr} (ho : Owns h ptrs) :
    ((List.range h.next).filter fun id => h.Live id).Perm (ids ptrs) := by
  refine (List.perm_ext_iff_of_nodup (List.nodup_range.filter _) ho.distinct).mpr fun id => ?_
  rw [List.mem_filter, List.mem_range, decide_eq_true_iff, ← ho.live_iff]
  exact ⟨fun hid => hid.2, fun hid => ⟨Heap.lt_next_of_live hid, hid⟩⟩

/-- All that is allocated is what the accounted pointers hold. -/
theorem total_eq {h : Heap β} {ptrs : List Ptr} (ho : Owns h ptrs) (measure : β → ℕ) :
    h.total measure = ((ids ptrs).map (h.weight measure)).sum := by
  have hdead : ∀ l : List ℕ, (l.map (h.weight measure)).sum =
      ((l.filter fun id => h.Live id).map (h.weight measure)).sum := by
    intro l
    induction l with
    | nil => rfl
    | cons id l ih =>
      by_cases hid : h.Live id
      · rw [List.filter_cons_of_pos (by simpa using hid), List.map_cons, List.map_cons,
          List.sum_cons, List.sum_cons, ih]
      · have hzero : h.weight measure id = 0 := by
          have hnone : h.cell id = none := by simpa [Heap.Live] using hid
          simp [Heap.weight, hnone]
        rw [List.filter_cons_of_neg (by simpa using hid), List.map_cons, List.sum_cons, ih, hzero,
          Nat.zero_add]
  rw [Heap.total, hdead]
  exact (ho.live_perm.map (h.weight measure)).sum_eq

/-- An empty account means that nothing is live. -/
theorem none_live {h : Heap β} (ho : Owns h []) (id : ℕ) : ¬ h.Live id := by
  rw [ho.live_iff]
  simp [ids]

end Owns

end Aesd.Blocks
