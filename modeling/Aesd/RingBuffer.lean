import Aesd.Blocks
import Aesd.CyclicWindow

/-!
The circular buffer of the character driver: ten entries, the slot the next
write goes to, the slot to read first, and the full flag. After any sequence of
additions the slots are the cyclic window over the added entries, which makes
the buffer a FIFO that keeps the last ten and hands back what it overwrites.
-/

namespace Aesd.RingBuffer

open Blocks CyclicWindow

abbrev AESDCHAR_MAX_WRITE_OPERATIONS_SUPPORTED : ℕ := 10

/-- Unsigned 64-bit subtraction, as compiled for `size_t`. -/
def sizeSub (a b : ℕ) : ℕ := (a + (2 ^ 64 - b % 2 ^ 64)) % 2 ^ 64

/-- Unsigned 64-bit addition, as compiled for `size_t`. -/
def sizeAdd (a b : ℕ) : ℕ := (a + b) % 2 ^ 64

theorem sizeSub_of_le {a b : ℕ} (ha : a < 2 ^ 64) (hb : b ≤ a) : sizeSub a b = a - b := by
  unfold sizeSub
  rw [Nat.mod_eq_of_lt (by omega : b < 2 ^ 64)]
  omega

theorem sizeAdd_of_lt {a b : ℕ} (h : a + b < 2 ^ 64) : sizeAdd a b = a + b :=
  Nat.mod_eq_of_lt h

structure BufferEntry where
  buffptr : Ptr
  size : ℕ
  deriving DecidableEq, Repr

/-- An entry as `memset(.., 0, ..)` leaves it. -/
def zeroEntry : BufferEntry := ⟨.null, 0⟩

structure CircularBuffer where
  entry : Vector BufferEntry AESDCHAR_MAX_WRITE_OPERATIONS_SUPPORTED
  inOffs : ℕ
  outOffs : ℕ
  full : Bool
  deriving Repr

namespace CircularBuffer

def init : CircularBuffer :=
  ⟨Vector.replicate AESDCHAR_MAX_WRITE_OPERATIONS_SUPPORTED zeroEntry, 0, 0, false⟩

/-- `buffer->entry[i]`; both offsets stay below ten (`FifoOf.in_lt`, `FifoOf.out_lt`). -/
def slot (buffer : CircularBuffer) (i : ℕ) : BufferEntry := buffer.entry[i]?.getD zeroEntry

/-- Store, advance `in_offs`, then move `out_offs` or raise the full flag.
Returns the pointer that the store overwrote. -/
def addEntry (buffer : CircularBuffer) (add : BufferEntry) : Ptr × CircularBuffer :=
  let replaced := (buffer.slot buffer.inOffs).buffptr
  let entry := buffer.entry.setIfInBounds buffer.inOffs add
  let inOffs := (buffer.inOffs + 1) % AESDCHAR_MAX_WRITE_OPERATIONS_SUPPORTED
  if buffer.full then
    (replaced, { entry, inOffs, full := true
                 outOffs := (buffer.outOffs + 1) % AESDCHAR_MAX_WRITE_OPERATIONS_SUPPORTED })
  else
    (replaced, { entry, inOffs, outOffs := buffer.outOffs
                 full := inOffs == buffer.outOffs })

/-- The search loop, with `steps` iterations left and the cursor at `index`. -/
def findFrom (buffer : CircularBuffer) : (steps index charOffset : ℕ) → Option (ℕ × ℕ)
  | 0, _, _ => none
  | steps + 1, index, charOffset =>
    if charOffset < (buffer.slot index).size then
      some (index, charOffset)
    else
      buffer.findFrom steps ((index + 1) % AESDCHAR_MAX_WRITE_OPERATIONS_SUPPORTED)
        (sizeSub charOffset (buffer.slot index).size)

/-- The slot that holds byte `charOffset` of the concatenation, and the offset
stored through `entry_offset_byte_rtn`. -/
def findEntryOffsetForFpos (buffer : CircularBuffer) (charOffset : ℕ) : Option (ℕ × ℕ) :=
  buffer.findFrom AESDCHAR_MAX_WRITE_OPERATIONS_SUPPORTED buffer.outOffs charOffset

/-- The entries in the order of `AESD_CIRCULAR_BUFFER_FOREACH`: the physical
slots from 0 to 9, whatever `out_offs` is. -/
def foreach (buffer : CircularBuffer) : List BufferEntry := buffer.entry.toList

/-- How many slots hold added entries, from the two offsets and the flag. -/
def used (buffer : CircularBuffer) : ℕ :=
  if buffer.full then AESDCHAR_MAX_WRITE_OPERATIONS_SUPPORTED
  else (buffer.inOffs + AESDCHAR_MAX_WRITE_OPERATIONS_SUPPORTED - buffer.outOffs) %
    AESDCHAR_MAX_WRITE_OPERATIONS_SUPPORTED

/-- The physical slots visited when the used ones are read from `out_offs`. -/
def visited (buffer : CircularBuffer) : List ℕ :=
  (List.range buffer.used).map
    (fun k => (buffer.outOffs + k) % AESDCHAR_MAX_WRITE_OPERATIONS_SUPPORTED)

/-- The retained entries, oldest first. -/
def fifo (buffer : CircularBuffer) : List BufferEntry := buffer.visited.map buffer.slot

/-- The buffer after adding entries one after another. -/
def addAll (buffer : CircularBuffer) (adds : List BufferEntry) : CircularBuffer :=
  adds.foldl (fun b e => (b.addEntry e).2) buffer

/-- The pointers the calls return, in order. -/
def replacedBy (buffer : CircularBuffer) : List BufferEntry → List Ptr
  | [] => []
  | e :: es => (buffer.addEntry e).1 :: (buffer.addEntry e).2.replacedBy es

theorem slot_addEntry (buffer : CircularBuffer) (add : BufferEntry) (i : ℕ) :
    (buffer.addEntry add).2.slot i =
      if i = buffer.inOffs ∧ i < 10 then add else buffer.slot i := by
  have hentry : (buffer.addEntry add).2.entry =
      buffer.entry.setIfInBounds buffer.inOffs add := by
    unfold addEntry
    split <;> rfl
  unfold slot
  rw [hentry, Vector.getElem?_setIfInBounds]
  by_cases hi : buffer.inOffs = i
  · subst hi
    by_cases hlt : buffer.inOffs < 10
    · simp [hlt]
    · have hnone : buffer.entry[buffer.inOffs]? = none :=
        Vector.getElem?_eq_none (Nat.le_of_not_lt hlt)
      rw [if_pos rfl, if_neg hlt, if_neg (fun hand => hlt hand.2), hnone]
  · have hne : i ≠ buffer.inOffs := Ne.symm hi
    simp [hi, hne]

/-- The buffer holds the window over everything added so far. -/
structure FifoOf (buffer : CircularBuffer) (adds : List BufferEntry) : Prop where
  window : Window 10 zeroEntry buffer.slot adds
  in_eq : buffer.inOffs = adds.length % 10
  out_eq : buffer.outOffs = (adds.length - 10) % 10
  full_iff : buffer.full = true ↔ 10 ≤ adds.length

namespace FifoOf

theorem init : FifoOf CircularBuffer.init [] where
  window := by
    have hslot : CircularBuffer.init.slot = fun _ => zeroEntry := by
      funext i
      unfold slot CircularBuffer.init
      rw [Vector.getElem?_replicate]
      split <;> rfl
    rw [hslot]
    exact Window.nil 10 zeroEntry
  in_eq := rfl
  out_eq := rfl
  full_iff := by simp [CircularBuffer.init]

theorem in_lt {buffer : CircularBuffer} {adds : List BufferEntry} (h : FifoOf buffer adds) :
    buffer.inOffs < 10 := by
  rw [h.in_eq]
  exact Nat.mod_lt _ (by omega)

theorem out_lt {buffer : CircularBuffer} {adds : List BufferEntry} (h : FifoOf buffer adds) :
    buffer.outOffs < 10 := by
  rw [h.out_eq]
  exact Nat.mod_lt _ (by omega)

/-- One call of `add_entry` appends to the history. -/
theorem addEntry {buffer : CircularBuffer} {adds : List BufferEntry}
    (h : FifoOf buffer adds) (add : BufferEntry) :
    FifoOf (buffer.addEntry add).2 (adds ++ [add]) := by
  have hin := h.in_lt
  have hout := h.out_lt
  have hineq := h.in_eq
  have houteq := h.out_eq
  have hlen : (adds ++ [add]).length = adds.length + 1 := by simp
  refine ⟨?_, ?_, ?_, ?_⟩
  · apply h.window.push (by omega)
    · rw [slot_addEntry, if_pos ⟨hineq.symm, hineq ▸ hin⟩]
    · intro j _ hne
      rw [slot_addEntry, if_neg]
      rintro ⟨hj, _⟩
      exact hne (hj.trans hineq)
  · rw [hlen]
    unfold CircularBuffer.addEntry
    split <;> simp only [AESDCHAR_MAX_WRITE_OPERATIONS_SUPPORTED] <;> omega
  · rw [hlen]
    unfold CircularBuffer.addEntry
    split
    · rename_i hfull
      have hge := h.full_iff.mp hfull
      simp only [AESDCHAR_MAX_WRITE_OPERATIONS_SUPPORTED]
      omega
    · rename_i hfull
      have hlt : ¬ 10 ≤ adds.length := fun hge => hfull (h.full_iff.mpr hge)
      simp only
      omega
  · rw [hlen]
    unfold CircularBuffer.addEntry
    split
    · rename_i hfull
      have hge := h.full_iff.mp hfull
      simp only [true_iff]
      omega
    · rename_i hfull
      -- the ring fills exactly when `in_offs` catches up with `out_offs`
      have hlt : ¬ 10 ≤ adds.length := fun hge => hfull (h.full_iff.mpr hge)
      simp only [AESDCHAR_MAX_WRITE_OPERATIONS_SUPPORTED, beq_iff_eq]
      omega

/-- The pointer a call hands back is the one stored ten calls before. -/
theorem replaced {buffer : CircularBuffer} {adds : List BufferEntry} (h : FifoOf buffer adds)
    (add : BufferEntry) :
    (buffer.addEntry add).1 =
      if adds.length < 10 then Ptr.null else (adds.getD (adds.length - 10) zeroEntry).buffptr := by
  have hfst : (buffer.addEntry add).1 = (buffer.slot buffer.inOffs).buffptr := by
    unfold CircularBuffer.addEntry
    split <;> rfl
  rw [hfst, h.in_eq, h.window.overwritten (by omega)]
  split <;> rfl

theorem used_eq {buffer : CircularBuffer} {adds : List BufferEntry} (h : FifoOf buffer adds) :
    buffer.used = min adds.length 10 := by
  have hineq := h.in_eq
  have houteq := h.out_eq
  unfold used
  split
  · rename_i hfull
    have hge := h.full_iff.mp hfull
    simp only [AESDCHAR_MAX_WRITE_OPERATIONS_SUPPORTED]
    omega
  · rename_i hfull
    have hlt : ¬ 10 ≤ adds.length := fun hge => hfull (h.full_iff.mpr hge)
    simp only [AESDCHAR_MAX_WRITE_OPERATIONS_SUPPORTED]
    omega

/-- Reading the used slots from `out_offs` gives the last ten additions in order. -/
theorem fifo_eq {buffer : CircularBuffer} {adds : List BufferEntry} (h : FifoOf buffer adds) :
    buffer.fifo = adds.rtake 10 := by
  rw [← h.window.read]
  unfold fifo visited
  rw [h.used_eq, List.map_map]
  apply List.map_congr_left
  intro k hk
  have hkm : k < min adds.length 10 := List.mem_range.mp hk
  have houteq := h.out_eq
  have hidx : (buffer.outOffs + k) % 10 = (adds.length - 10 + k) % 10 := by omega
  simp only [Function.comp_apply, AESDCHAR_MAX_WRITE_OPERATIONS_SUPPORTED, hidx]

/-- A slot that is not visited was never written. -/
theorem not_visited {buffer : CircularBuffer} {adds : List BufferEntry} (h : FifoOf buffer adds)
    {j : ℕ} (hj : j < 10) (hv : j ∉ buffer.visited) : buffer.slot j = zeroEntry := by
  have houteq := h.out_eq
  apply h.window.unused j _ hj
  by_contra hlt
  apply hv
  unfold visited
  rw [h.used_eq, List.mem_map]
  refine ⟨(j + 10 - buffer.outOffs) % 10, ?_, ?_⟩
  · rw [List.mem_range]
    omega
  · simp only [AESDCHAR_MAX_WRITE_OPERATIONS_SUPPORTED]
    omega

theorem addAll {buffer : CircularBuffer} {adds : List BufferEntry} (h : FifoOf buffer adds)
    (es : List BufferEntry) : FifoOf (buffer.addAll es) (adds ++ es) := by
  induction es generalizing buffer adds with
  | nil => simpa [CircularBuffer.addAll] using h
  | cons e es ih =>
    have hnext := ih (h.addEntry e)
    rwa [List.append_assoc] at hnext

end FifoOf

theorem length_replacedBy (buffer : CircularBuffer) (es : List BufferEntry) :
    (buffer.replacedBy es).length = es.length := by
  induction es generalizing buffer with
  | nil => rfl
  | cons e es ih => simp [replacedBy, ih]

/-- The pointers handed back from a state with history `adds`. -/
theorem FifoOf.replacedBy_get {buffer : CircularBuffer} {adds : List BufferEntry}
    (h : FifoOf buffer adds) (es : List BufferEntry) {i : ℕ} (hi : i < es.length) :
    (buffer.replacedBy es)[i]? = some (if adds.length + i < 10 then Ptr.null
      else ((adds ++ es).getD (adds.length + i - 10) zeroEntry).buffptr) := by
  induction es generalizing buffer adds i with
  | nil => simp at hi
  | cons e es ih =>
    cases i with
    | zero =>
      simp only [replacedBy, List.getElem?_cons_zero, Nat.add_zero, h.replaced e]
      split
      · rfl
      · rename_i hge
        have hlt : adds.length - 10 < adds.length := by omega
        rw [List.getD_append _ _ _ _ hlt]
    | succ i =>
      have hnext := ih (h.addEntry e) (i := i) (by simpa using hi)
      have hlen : (adds ++ [e]).length + i = adds.length + (i + 1) := by
        simp only [List.length_append, List.length_singleton]
        omega
      rw [hlen, List.append_assoc, List.singleton_append] at hnext
      simpa only [replacedBy, List.getElem?_cons_succ] using hnext

/-- From an empty buffer the first ten calls hand back nothing, and every later
one the pointer given ten calls earlier. -/
theorem replacedBy_init (adds : List BufferEntry) :
    init.replacedBy adds = List.replicate (min adds.length 10) Ptr.null ++
      (adds.take (adds.length - 10)).map BufferEntry.buffptr := by
  apply List.ext_getElem?
  intro i
  rcases Nat.lt_or_ge i adds.length with hi | hi
  · rw [FifoOf.init.replacedBy_get adds hi]
    simp only [List.length_nil, Nat.zero_add, List.nil_append]
    split
    · rename_i hlt
      rw [List.getElem?_append_left (by simp; omega), List.getElem?_replicate_of_lt (by omega)]
    · rename_i hge
      have hmin : min adds.length 10 = 10 := by omega
      rw [List.getElem?_append_right (by simp; omega), List.length_replicate, hmin,
        List.getElem?_map, List.getElem?_take_of_lt (by omega),
        List.getElem?_eq_getElem (by omega), List.getD_eq_getElem _ _ (by omega)]
      rfl
  · rw [List.getElem?_eq_none (by rw [length_replacedBy]; omega),
      List.getElem?_eq_none (by simp; omega)]

/-- The circular buffer is a FIFO of the last ten entries: offsets in range, the
full flag exactly from the tenth addition on, contents in order, unused slots
untouched, and each stored pointer handed back once, ten additions later. -/
theorem bounded_fifo (adds : List BufferEntry) (hnonnull : ∀ e ∈ adds, e.buffptr ≠ Ptr.null) :
    (init.addAll adds).inOffs < 10 ∧
    (init.addAll adds).outOffs < 10 ∧
    ((init.addAll adds).full = true ↔ 10 ≤ adds.length) ∧
    ((init.addAll adds).full = true → (init.addAll adds).inOffs = (init.addAll adds).outOffs) ∧
    (init.addAll adds).fifo = adds.rtake 10 ∧
    (∀ j, j < 10 → j ∉ (init.addAll adds).visited → (init.addAll adds).slot j = ⟨Ptr.null, 0⟩) ∧
    (∀ i, i < adds.length → (init.replacedBy adds)[i]? =
      some (if i < 10 then Ptr.null else (adds.getD (i - 10) zeroEntry).buffptr)) ∧
    (init.replacedBy adds).filter (· ≠ Ptr.null) =
      (adds.take (adds.length - 10)).map BufferEntry.buffptr := by
  have h : FifoOf (init.addAll adds) adds := by simpa using FifoOf.init.addAll adds
  refine ⟨h.in_lt, h.out_lt, h.full_iff, ?_, h.fifo_eq, fun j hj hv => h.not_visited hj hv, ?_, ?_⟩
  · intro hfull
    have hge := h.full_iff.mp hfull
    have hineq := h.in_eq
    have houteq := h.out_eq
    omega
  · intro i hi
    simpa using FifoOf.init.replacedBy_get adds hi
  · rw [replacedBy_init, List.filter_append]
    have hnull : (List.replicate (min adds.length 10) Ptr.null).filter (· ≠ Ptr.null) = [] := by
      simp
    rw [hnull, List.nil_append, List.filter_eq_self]
    intro p hp
    obtain ⟨e, he, rfl⟩ := List.mem_map.mp hp
    simpa using hnonnull e (List.mem_of_mem_take he)

/-- Eleven additions: the second one is now the oldest, the first came back. -/
theorem bounded_fifo_eleven :
    (init.addAll ((List.range 11).map fun i => ⟨.block i, i⟩)).fifo =
        (List.range 10).map (fun i => ⟨.block (i + 1), i + 1⟩) ∧
      (init.replacedBy ((List.range 11).map fun i => ⟨.block i, i⟩)).filter (· ≠ Ptr.null) =
        [Ptr.block 0] := by
  have h := bounded_fifo ((List.range 11).map fun i => ⟨.block i, i⟩) (by decide)
  exact ⟨h.2.2.2.2.1.trans (by decide), h.2.2.2.2.2.2.2.trans (by decide)⟩

end CircularBuffer

end Aesd.RingBuffer
