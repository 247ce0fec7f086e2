import Aesd.Offsets
import Aesd.RingBuffer

/-!
Sizes and positions in the circular buffer. The search of
`aesd_circular_buffer_find_entry_offset_for_fpos` locates a position in the
concatenation of the retained entries, exactly, for every rotation and with empty
entries among them; the slots in physical order hold the same sizes, in another
order.
-/

namespace Aesd.RingBuffer.CircularBuffer

open CyclicWindow Offsets

/-- The slots in the order the search visits them. -/
def fromOut (buffer : CircularBuffer) : List BufferEntry :=
  (List.range 10).map fun k => buffer.slot ((buffer.outOffs + k) % 10)

theorem FifoOf.fromOut_eq {buffer : CircularBuffer} {adds : List BufferEntry}
    (h : FifoOf buffer adds) :
    buffer.fromOut = buffer.fifo ++ List.replicate (10 - adds.length) zeroEntry := by
  rw [h.fifo_eq, ← h.window.read_all]
  apply List.map_congr_left
  intro k _
  have hidx : (buffer.outOffs + k) % 10 = (adds.length - 10 + k) % 10 := by
    have houteq := h.out_eq
    omega
  rw [hidx]

/-- The search loop locates the position among the slots it is going to visit. -/
theorem findFrom_eq (buffer : CircularBuffer) (steps index charOffset : ℕ)
    (hoff : charOffset < 2 ^ 64) :
    buffer.findFrom steps (index % 10) charOffset =
      (locate ((List.range steps).map fun k => (buffer.slot ((index + k) % 10)).size)
        charOffset).map fun p => ((index + p.1) % 10, p.2) := by
  induction steps generalizing index charOffset with
  | zero => rfl
  | succ steps ih =>
    rw [List.range_succ_eq_map, List.map_cons, locate, findFrom]
    have hzero : (index + 0) % 10 = index % 10 := rfl
    rw [hzero]
    by_cases hlt : charOffset < (buffer.slot (index % 10)).size
    · rw [if_pos hlt, if_pos hlt]
      rfl
    · have hsub : sizeSub charOffset (buffer.slot (index % 10)).size =
          charOffset - (buffer.slot (index % 10)).size := sizeSub_of_le hoff (Nat.le_of_not_lt hlt)
      have hnext : (index % 10 + 1) % 10 = (index + 1) % 10 := by omega
      have hshift : ∀ k, index + 1 + k = index + (k + 1) := by omega
      rw [if_neg hlt, if_neg hlt, AESDCHAR_MAX_WRITE_OPERATIONS_SUPPORTED, hsub, hnext,
        ih (index + 1) _ (by omega), Option.map_map, List.map_map]
      simp only [Function.comp_def, hshift, Nat.succ_eq_add_one]

/-- The lookup locates the position in the retained entries, counted from the oldest. -/
theorem FifoOf.find_eq {buffer : CircularBuffer} {adds : List BufferEntry}
    (h : FifoOf buffer adds) {charOffset : ℕ} (hoff : charOffset < 2 ^ 64) :
    buffer.findEntryOffsetForFpos charOffset =
      (locate (buffer.fifo.map BufferEntry.size) charOffset).map
        fun p => ((buffer.outOffs + p.1) % 10, p.2) := by
  have hout := h.out_lt
  have hfrom : (List.range 10).map (fun k => (buffer.slot ((buffer.outOffs + k) % 10)).size) =
      buffer.fifo.map BufferEntry.size ++ List.replicate (10 - adds.length) 0 := by
    have hmap := congrArg (List.map BufferEntry.size) h.fromOut_eq
    rw [fromOut, List.map_map, List.map_append, List.map_replicate] at hmap
    exact hmap
  have hfind := findFrom_eq buffer 10 buffer.outOffs charOffset hoff
  rw [Nat.mod_eq_of_lt hout, hfrom, locate_append_zeros] at hfind
  exact hfind

theorem slot_of_fifo {buffer : CircularBuffer} {k : ℕ} {e : BufferEntry}
    (he : buffer.fifo[k]? = some e) :
    buffer.slot ((buffer.outOffs + k) % 10) = e := by
  unfold fifo visited at he
  rw [List.map_map, List.getElem?_map, Option.map_eq_some_iff] at he
  obtain ⟨j, hj, hslot⟩ := he
  obtain ⟨_, hj⟩ := List.getElem?_eq_some_iff.mp hj
  rw [List.getElem_range] at hj
  subst hj
  exact hslot

theorem foreach_eq (buffer : CircularBuffer) :
    buffer.foreach = (List.range 10).map buffer.slot := by
  apply List.ext_getElem
  · simp [foreach]
  · intro i hi hi'
    simp only [foreach, Vector.length_toList] at hi
    simp [foreach, slot, hi]

/-- Unused slots add nothing to the sum over all physical slots. -/
theorem FifoOf.sum_sizes {buffer : CircularBuffer} {adds : List BufferEntry}
    (h : FifoOf buffer adds) :
    (buffer.foreach.map BufferEntry.size).sum = (buffer.fifo.map BufferEntry.size).sum := by
  have hperm := h.window.perm.map BufferEntry.size
  rw [← foreach_eq, ← h.fifo_eq, List.map_append, List.map_replicate] at hperm
  rw [hperm.sum_eq, List.sum_append, List.sum_replicate]
  simp [zeroEntry]

/-- The search loop with the location behind `entry_offset_byte_rtn`: the slot
found, and what the location holds afterwards. -/
def searchFrom (buffer : CircularBuffer) : (steps index charOffset rtn : ℕ) → Option ℕ × ℕ
  | 0, _, _, rtn => (none, rtn)
  | steps + 1, index, charOffset, rtn =>
    if charOffset < (buffer.slot index).size then
      (some index, charOffset)
    else
      buffer.searchFrom steps ((index + 1) % AESDCHAR_MAX_WRITE_OPERATIONS_SUPPORTED)
        (sizeSub charOffset (buffer.slot index).size) rtn

/-- `aesd_circular_buffer_find_entry_offset_for_fpos`, called with a location
that holds `rtn`. -/
def findEntryOffsetByteRtn (buffer : CircularBuffer) (charOffset rtn : ℕ) : Option ℕ × ℕ :=
  buffer.searchFrom AESDCHAR_MAX_WRITE_OPERATIONS_SUPPORTED buffer.outOffs charOffset rtn

/-- The operands of the subtractions that the search makes. -/
def subtractionsFrom (buffer : CircularBuffer) : (steps index charOffset : ℕ) → List (ℕ × ℕ)
  | 0, _, _ => []
  | steps + 1, index, charOffset =>
    if charOffset < (buffer.slot index).size then []
    else
      (charOffset, (buffer.slot index).size) ::
        buffer.subtractionsFrom steps ((index + 1) % AESDCHAR_MAX_WRITE_OPERATIONS_SUPPORTED)
          (sizeSub charOffset (buffer.slot index).size)

theorem searchFrom_eq (buffer : CircularBuffer) (steps index charOffset rtn : ℕ) :
    buffer.searchFrom steps index charOffset rtn =
      match buffer.findFrom steps index charOffset with
      | none => (none, rtn)
      | some (i, r) => (some i, r) := by
  induction steps generalizing index charOffset with
  | zero => rfl
  | succ steps ih =>
    unfold searchFrom findFrom
    split
    · rfl
    · exact ih _ _

/-- The search finds the slot that is as many places on as it has subtracted, with
what the subtractions have left of the position; and all of them, if it finds none. -/
theorem findFrom_eq_subtractions (buffer : CircularBuffer) (steps index charOffset : ℕ) :
    buffer.findFrom steps (index % 10) charOffset =
      let subtractions := buffer.subtractionsFrom steps (index % 10) charOffset
      if subtractions.length < steps then
        some ((index + subtractions.length) % 10,
          subtractions.foldl (fun left p => sizeSub left p.2) charOffset)
      else none := by
  induction steps generalizing index charOffset with
  | zero => rfl
  | succ steps ih =>
    dsimp only at ih ⊢
    rw [findFrom, subtractionsFrom]
    by_cases hlt : charOffset < (buffer.slot (index % 10)).size
    · simp [hlt]
    · have hnext : (index % 10 + 1) % 10 = (index + 1) % 10 := by omega
      rw [if_neg hlt, if_neg hlt, AESDCHAR_MAX_WRITE_OPERATIONS_SUPPORTED, hnext, ih,
        List.length_cons, List.foldl_cons, Nat.add_right_comm, Nat.add_assoc]
      simp only [Nat.add_lt_add_iff_right]

/-- And it subtracts the sizes of the slots in the order it visits them, each from
what the subtractions before have left. -/
theorem subtractionsFrom_operands (buffer : CircularBuffer) (steps index charOffset : ℕ) {k : ℕ}
    {p : ℕ × ℕ} (h : (buffer.subtractionsFrom steps (index % 10) charOffset)[k]? = some p) :
    p = (((buffer.subtractionsFrom steps (index % 10) charOffset).take k).foldl
      (fun left p => sizeSub left p.2) charOffset, (buffer.slot ((index + k) % 10)).size) := by
  induction steps generalizing index charOffset k with
  | zero => simp [subtractionsFrom] at h
  | succ steps ih =>
    rw [subtractionsFrom] at h ⊢
    by_cases hlt : charOffset < (buffer.slot (index % 10)).size
    · simp [hlt] at h
    · have hnext : (index % 10 + 1) % 10 = (index + 1) % 10 := by omega
      rw [if_neg hlt, AESDCHAR_MAX_WRITE_OPERATIONS_SUPPORTED, hnext] at h ⊢
      cases k with
      | zero =>
        rw [List.getElem?_cons_zero] at h
        exact (Option.some.inj h).symm
      | succ k =>
        rw [List.getElem?_cons_succ] at h
        rw [List.take_succ_cons, List.foldl_cons, ← Nat.add_assoc, Nat.add_right_comm]
        exact ih (index + 1) _ h

theorem subtractionsFrom_le (buffer : CircularBuffer) (steps index charOffset : ℕ) :
    ∀ p ∈ buffer.subtractionsFrom steps index charOffset, p.2 ≤ p.1 := by
  induction steps generalizing index charOffset with
  | zero => simp [subtractionsFrom]
  | succ steps ih =>
    unfold subtractionsFrom
    split
    · simp
    · rename_i hge
      exact List.forall_mem_cons.mpr ⟨Nat.le_of_not_lt hge, ih _ _⟩

/-- Where the entry at place `k` begins in the concatenation. -/
def startOf (es : List BufferEntry) (k : ℕ) : ℕ := ((es.take k).map BufferEntry.size).sum

theorem FifoOf.search_eq {buffer : CircularBuffer} {adds : List BufferEntry}
    (h : FifoOf buffer adds) {charOffset : ℕ} (hoff : charOffset < 2 ^ 64) (rtn : ℕ) :
    buffer.findEntryOffsetByteRtn charOffset rtn =
      match locate ((adds.rtake 10).map BufferEntry.size) charOffset with
      | none => (none, rtn)
      | some (k, r) => (some ((buffer.outOffs + k) % 10), r) := by
  have hfind := h.find_eq hoff
  unfold findEntryOffsetForFpos at hfind
  rw [findEntryOffsetByteRtn, searchFrom_eq, hfind, h.fifo_eq]
  cases locate ((adds.rtake 10).map BufferEntry.size) charOffset <;> rfl

theorem locate_sizes_eq_some_iff {es : List BufferEntry} {off k r : ℕ} :
    locate (es.map BufferEntry.size) off = some (k, r) ↔
      k < es.length ∧ startOf es k ≤ off ∧ off < startOf es (k + 1) ∧ r = off - startOf es k := by
  rw [locate_eq_some_iff, List.length_map, startOf, startOf, List.map_take, List.map_take]

/-- Two places among ten in a row are in one slot only if they are the same. -/
theorem slot_index_inj {n i j : ℕ} (hi : i < 10) (hj : j < 10) (h : (n + i) % 10 = (n + j) % 10) :
    i = j := by omega

theorem FifoOf.search_eq_some_iff {buffer : CircularBuffer} {adds : List BufferEntry}
    (h : FifoOf buffer adds) {charOffset rtn k r : ℕ} (hoff : charOffset < 2 ^ 64)
    (hk : k < (adds.rtake 10).length) :
    buffer.findEntryOffsetByteRtn charOffset rtn = (some ((buffer.outOffs + k) % 10), r) ↔
      locate ((adds.rtake 10).map BufferEntry.size) charOffset = some (k, r) := by
  have hten : (adds.rtake 10).length ≤ 10 := by
    simp only [List.rtake, List.length_drop]
    omega
  rw [h.search_eq hoff]
  cases hloc : locate ((adds.rtake 10).map BufferEntry.size) charOffset with
  | none => simp
  | some found =>
    obtain ⟨j, q⟩ := found
    have hj := (locate_sizes_eq_some_iff.mp hloc).1
    simp only [Prod.mk.injEq, Option.some.injEq]
    constructor
    · rintro ⟨hslot, rfl⟩
      exact ⟨slot_index_inj (by omega) (by omega) hslot, rfl⟩
    · rintro ⟨rfl, rfl⟩
      exact ⟨rfl, rfl⟩

theorem FifoOf.search_eq_none_iff {buffer : CircularBuffer} {adds : List BufferEntry}
    (h : FifoOf buffer adds) {charOffset rtn : ℕ} (hoff : charOffset < 2 ^ 64) :
    (buffer.findEntryOffsetByteRtn charOffset rtn).1 = none ↔
      ((adds.rtake 10).map BufferEntry.size).sum ≤ charOffset := by
  rw [h.search_eq hoff, ← locate_eq_none_iff]
  cases locate ((adds.rtake 10).map BufferEntry.size) charOffset <;> simp

/-- Nothing found, nothing stored. -/
theorem searchFrom_of_none {buffer : CircularBuffer} {steps index charOffset rtn : ℕ}
    (h : (buffer.searchFrom steps index charOffset rtn).1 = none) :
    (buffer.searchFrom steps index charOffset rtn).2 = rtn := by
  rw [searchFrom_eq] at h ⊢
  cases hfind : buffer.findFrom steps index charOffset with
  | none => rfl
  | some found => simp [hfind] at h

/-- Whatever was added, and for every position: the lookup finds the entry whose
bytes in the concatenation of the last ten include the position and stores the
offset in it; it finds nothing exactly from the total length on, and then leaves
the location alone. -/
theorem lookup_exact (adds : List BufferEntry) (charOffset rtn : ℕ) (hoff : charOffset < 2 ^ 64) :
    (∀ k e, (adds.rtake 10)[k]? = some e →
      (init.addAll adds).slot (((init.addAll adds).outOffs + k) % 10) = e ∧
      ∀ r, (init.addAll adds).findEntryOffsetByteRtn charOffset rtn =
          (some (((init.addAll adds).outOffs + k) % 10), r) ↔
        startOf (adds.rtake 10) k ≤ charOffset ∧ charOffset < startOf (adds.rtake 10) (k + 1) ∧
          r = charOffset - startOf (adds.rtake 10) k) ∧
    (∀ k r, k < (adds.rtake 10).length →
      (init.addAll adds).findEntryOffsetByteRtn charOffset rtn =
        (some (((init.addAll adds).outOffs + k) % 10), r) →
      ∀ pieces : List (List UInt8), pieces.map List.length = (adds.rtake 10).map BufferEntry.size →
        ∃ byte, pieces.flatten[charOffset]? = some byte ∧ (pieces[k]?.bind (·[r]?)) = some byte) ∧
    (((init.addAll adds).findEntryOffsetByteRtn charOffset rtn).1 = none ↔
      ((adds.rtake 10).map BufferEntry.size).sum ≤ charOffset) ∧
    (((init.addAll adds).findEntryOffsetByteRtn charOffset rtn).1 = none →
      ((init.addAll adds).findEntryOffsetByteRtn charOffset rtn).2 = rtn) ∧
    (∀ p ∈ (init.addAll adds).subtractionsFrom 10 (init.addAll adds).outOffs charOffset,
      p.2 ≤ p.1) := by
  have h : FifoOf (init.addAll adds) adds := by simpa using FifoOf.init.addAll adds
  refine ⟨fun k e he => ⟨?_, fun r => ?_⟩, fun k r hk hfind pieces hpieces => ?_,
    h.search_eq_none_iff hoff, searchFrom_of_none, subtractionsFrom_le _ _ _ _⟩
  · rw [← h.fifo_eq] at he
    exact slot_of_fifo he
  · have hk : k < (adds.rtake 10).length := (List.getElem?_eq_some_iff.mp he).1
    rw [h.search_eq_some_iff hoff hk, locate_sizes_eq_some_iff]
    exact and_iff_right hk
  · apply getElem?_flatten_of_locate
    rw [hpieces]
    exact (h.search_eq_some_iff hoff hk).mp hfind

/-- Twelve additions with empty ones among them: the first byte behind an empty
entry, and the first position behind the last byte. -/
theorem lookup_exact_twelve :
    (init.addAll ((List.range 12).map fun i => ⟨.block i, i % 4⟩)).findEntryOffsetByteRtn 5 99 =
        (some 5, 0) ∧
      ((init.addAll ((List.range 12).map fun i => ⟨.block i, i % 4⟩)).findEntryOffsetByteRtn
        17 99).1 = none := by
  have hfive := lookup_exact ((List.range 12).map fun i => ⟨.block i, i % 4⟩) 5 99 (by decide)
  have hend := lookup_exact ((List.range 12).map fun i => ⟨.block i, i % 4⟩) 17 99 (by decide)
  exact ⟨((hfive.1 3 ⟨.block 5, 1⟩ (by decide)).2 0).mpr (by decide), hend.2.2.1.mpr (by decide)⟩

end Aesd.RingBuffer.CircularBuffer
