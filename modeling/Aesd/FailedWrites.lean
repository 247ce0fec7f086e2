import Aesd.DeviceStore

/-!
Failed writes. A write that does not get its bytes leaves the device as it was,
except when `copy_from_user` faults after `krealloc` has given another block: the
new pointer is dropped, and the pending one is stale if there was one. In a run
without that, each state is the state of the run without the failed writes, with
at most some room behind the pending bytes.
-/

namespace Aesd.FailedWrites

open Blocks RingBuffer CharDriver DeviceStore Runs

/-- The call is a write that returns a negative value. -/
def failedWrite (k : Kernel) : Call → Bool
  | .write file buf env => (aesdWrite k file buf env).1.ret.any fun r => decide (r < 0)
  | _ => false

/-- The device serves on as if nothing had happened, and no block got lost. -/
structure Undisturbed (k k' : Kernel) : Prop where
  ring_eq : k'.dev.circularBuffer = k.dev.circularBuffer
  bytes_eq : ringBytes k' = ringBytes k
  pos_eq : k'.fPos = k.fPos
  size_eq : k'.dev.entry.size = k.dev.entry.size
  pending : k.dev.entry.size ≠ 0 → ∃ block, k'.heap.read k'.dev.entry.buffptr = some block ∧
    k.dev.entry.size ≤ block.length ∧ block.take k.dev.entry.size = pendingBytes k
  reachable : ∀ id, k'.heap.Live id → id ∉ ids (held k') → k.heap.Live id ∧ id ∉ ids (held k)

def FailsClean (k : Kernel) (c : Call) : Prop :=
  failedWrite k c = true → Undisturbed k (perform k c).2

/-- The user copy of a write faults after `krealloc` gave a block other than
that of a pending command. -/
def LosesBlock (k : Kernel) : Call → Prop
  | .write _ buf env =>
    accessOk env buf.length = true ∧ env.interrupted = false ∧ k.dev.lock = false ∧
      copyFaults env buf.length = true ∧
      (krealloc k.heap k.dev.entry.buffptr (sizeAdd buf.length k.dev.entry.size)
        env.realloc).isSome = true ∧
      ¬ (k.dev.entry.size ≠ 0 ∧ env.realloc = .inPlace)
  | _ => False

instance (k : Kernel) : (c : Call) → Decidable (LosesBlock k c)
  | .write _ _ _ => instDecidableAnd
  | .read _ _ _ => isFalse id
  | .llseek _ _ _ _ => isFalse id
  | .ioctl _ _ _ _ _ => isFalse id

/-- The allocator grants `size` bytes. -/
def RoomFor (heap : Heap (List Byte)) (size : ℕ) (outcome : KreallocOutcome) : Prop :=
  outcome ≠ .fail ∧ heap.total List.length + size < 2 ^ 63

section Krealloc

variable {heap : Heap (List Byte)} {p : Ptr} {size : ℕ} {outcome : KreallocOutcome}

theorem krealloc_zero : krealloc heap p 0 outcome = some (.zeroSize, heap.free p) := rfl

theorem roomFor_of_krealloc {result : Ptr × Heap (List Byte)}
    (hk : krealloc heap p size outcome = some result) (hsize : size ≠ 0) :
    RoomFor heap size outcome := by
  unfold krealloc at hk
  rw [if_neg hsize] at hk
  split at hk
  · cases hk
  · rename_i hroom
    exact ⟨fun hfail => hroom (Or.inl hfail), by
      by_contra hge
      exact hroom (Or.inr (by omega))⟩

theorem krealloc_of_room (hsize : size ≠ 0) (hroom : RoomFor heap size outcome) :
    krealloc heap p size outcome =
      if p.id? = none then some (heap.alloc (resize [] size))
      else if outcome = .inPlace then some (p, heap.store p (resize (contents heap p) size))
      else some ((heap.alloc (resize (contents heap p) size)).1,
        (heap.alloc (resize (contents heap p) size)).2.free p) := by
  have hgranted : ¬ (outcome = .fail ∨ 2 ^ 63 ≤ heap.total List.length + size) := by
    rintro (hfail | hfull)
    · exact hroom.1 hfail
    · have hlt := hroom.2
      omega
  unfold krealloc
  rw [if_neg hsize, if_neg hgranted]

theorem krealloc_of_block (hsize : size ≠ 0) (hroom : RoomFor heap size outcome)
    (hblock : p.id? ≠ none) :
    krealloc heap p size outcome =
      if outcome = .inPlace then some (p, heap.store p (resize (contents heap p) size))
      else some ((heap.alloc (resize (contents heap p) size)).1,
        (heap.alloc (resize (contents heap p) size)).2.free p) := by
  rw [krealloc_of_room hsize hroom, if_neg hblock]

end Krealloc

theorem store_contents (heap : Heap (List Byte)) (p : Ptr) :
    heap.store p (contents heap p) = heap := by
  apply Heap.store_read
  intro c hc
  simp [contents, hc]

/-- The state with `extra` bytes of room behind the pending ones. -/
def pad (k : Kernel) (extra : List Byte) : Kernel :=
  { k with
    heap := k.heap.store k.dev.entry.buffptr (contents k.heap k.dev.entry.buffptr ++ extra) }

@[simp] theorem pad_dev (k : Kernel) (extra : List Byte) : (pad k extra).dev = k.dev := rfl

@[simp] theorem pad_fPos (k : Kernel) (extra : List Byte) : (pad k extra).fPos = k.fPos := rfl

theorem pad_nil (k : Kernel) : pad k [] = k := by
  unfold pad
  rw [List.append_nil, store_contents]

section Pad

variable {k : Kernel} {adds : List BufferEntry} {closed : List (List Byte)} {pending : List Byte}

theorem owns_pad (h : Represents k adds closed pending) (extra : List Byte) :
    Owns (pad k extra).heap (held (pad k extra)) := h.owns.store _ _

theorem read_pad (h : Represents k adds closed pending) (hne : pending ≠ []) (extra : List Byte) :
    (pad k extra).heap.read k.dev.entry.buffptr = some (pending ++ extra) := by
  unfold pad
  rw [h.pending_holds.contents_eq]
  exact Heap.read_store_self (h.pending_holds.read_eq hne)

theorem contents_pad (h : Represents k adds closed pending) (extra : List Byte) {e : BufferEntry}
    (he : e ∈ k.dev.circularBuffer.foreach) :
    contents (pad k extra).heap e.buffptr = contents k.heap e.buffptr := by
  unfold contents pad
  cases hid : e.buffptr.id? with
  | none => simp [Heap.read, hid]
  | some id => rw [Heap.read_store_of_ne (h.owns.id_ne (List.mem_map_of_mem he) hid)]

theorem ringBytes_pad (h : Represents k adds closed pending) (extra : List Byte) :
    ringBytes (pad k extra) = ringBytes k := by
  apply List.map_congr_left
  intro e he
  unfold entryBytes
  rw [contents_pad h extra (mem_foreach_of_fifo h.fifo he)]

theorem pendingBytes_pad (h : Represents k adds closed pending) (extra : List Byte) :
    pendingBytes (pad k extra) = pending := by
  unfold pendingBytes entryBytes
  rw [pad_dev, h.pending_holds.size_eq]
  by_cases hne : pending = []
  · rw [hne, List.length_nil, List.take_zero]
  · simp [contents, read_pad h hne extra]

/-- Room behind the pending bytes disturbs nothing. -/
theorem undisturbed_pad (h : Represents k adds closed pending) (extra extra' : List Byte) :
    Undisturbed (pad k extra) (pad k extra') where
  ring_eq := rfl
  bytes_eq := by rw [ringBytes_pad h, ringBytes_pad h]
  pos_eq := rfl
  size_eq := rfl
  pending := by
    rw [pendingBytes_pad h, pad_dev, pad_dev, h.pending_holds.size_eq]
    intro hsize
    have hne : pending ≠ [] := fun hnil => hsize (by rw [hnil, List.length_nil])
    refine ⟨pending ++ extra', read_pad h hne extra', ?_, List.take_left⟩
    rw [List.length_append]
    omega
  reachable id hlive hlost := absurd (((owns_pad h extra').live_iff id).mp hlive) hlost

end Pad

/-- `krealloc` gives the same pointer for the padded block as for the exact one,
and after the copy there is no difference left. -/
theorem krealloc_eq {h₀ heap : Heap (List Byte)} {p q : Ptr} {extra buf : List Byte}
    {outcome : KreallocOutcome}
    (hk : krealloc (h₀.store p (contents h₀ p ++ extra)) p (buf.length + (contents h₀ p).length)
      outcome = some (q, heap)) :
    ∃ heap₀, krealloc h₀ p (buf.length + (contents h₀ p).length) outcome = some (q, heap₀) ∧
      heap.store q (copyIn (contents heap q) (contents h₀ p).length buf) =
        heap₀.store q (copyIn (contents heap₀ q) (contents h₀ p).length buf) := by
  by_cases hdead : h₀.read p = none
  · rw [Heap.store_read (by simp [hdead])] at hk
    exact ⟨heap, hk, rfl⟩
  obtain ⟨own, hown⟩ := Option.ne_none_iff_exists'.mp hdead
  have hcontents : contents h₀ p = own := by simp [contents, hown]
  rw [hcontents] at hk ⊢
  rcases Nat.eq_zero_or_pos (buf.length + own.length) with hzero | hpos
  · rw [hzero, krealloc_zero] at hk ⊢
    cases hk
    exact ⟨_, rfl, by rw [Heap.free_store]⟩
  have hsize : buf.length + own.length ≠ 0 := by omega
  have hblock : p.id? ≠ none := fun hnone => by simp [Heap.read, hnone] at hown
  have hin : ∀ b, contents (h₀.store p b) p = b := by
    intro b
    have hread := @Heap.read_store_self _ h₀ p b own hown
    simp [contents, hread]
  have hroom := roomFor_of_krealloc hk hsize
  have hroom₀ : RoomFor h₀ (buf.length + own.length) outcome := by
    -- the exact block is no longer than the padded one
    have hback : (h₀.store p (own ++ extra)).store p own = h₀ := by
      rw [Heap.store_store, ← hcontents, store_contents]
    have htotal := @Heap.total_store_of_le _ List.length (h₀.store p (own ++ extra)) p own
      (fun old hold => by
        rw [Heap.read_store_self hown] at hold
        cases hold
        rw [List.length_append]
        omega)
    rw [hback] at htotal
    exact ⟨hroom.1, by have hlt := hroom.2; omega⟩
  rw [krealloc_of_block hsize hroom hblock, hin] at hk
  rw [krealloc_of_block hsize hroom₀ hblock, hcontents]
  split at hk
  · rename_i hplace
    rw [if_pos hplace]
    cases hk
    refine ⟨_, rfl, ?_⟩
    simp only [Heap.store_store, hin, copyIn_resize_append, copyIn_resize]
  · rename_i hmove
    rw [if_neg hmove]
    obtain ⟨rfl, rfl⟩ : Ptr.block h₀.next = q ∧ _ = heap := Prod.mk.inj (Option.some.inj hk)
    refine ⟨_, rfl, ?_⟩
    have hnew : p.id? ≠ some h₀.next := Heap.id_ne_next_of_read hown
    have hmoved : ∀ (h : Heap (List Byte)) (b : List Byte), h.next = h₀.next →
        contents ((h.alloc b).2.free p) (.block h₀.next) = b := by
      intro h b hnext
      have hne : p.id? ≠ (h.alloc b).1.id? := by rwa [← hnext] at hnew
      have hread := Heap.read_alloc_self h b
      rw [← Heap.read_free_of_ne hne] at hread
      rw [← hnext]
      exact congrArg (·.getD []) hread
    rw [hmoved h₀ _ rfl, hmoved (h₀.store p (own ++ extra)) _ rfl, copyIn_resize_append,
      copyIn_resize]
    exact Heap.store_alloc_free hnew _ _ _ _

section Perform

variable {k : Kernel} {adds : List BufferEntry} {closed : List (List Byte)} {pending : List Byte}

theorem withLock_pad {extra : List Byte} {env : Env} {rest : Kernel → Reply × Kernel}
    (hrest : rest (pad (k.setLock true) extra) =
      ((rest (k.setLock true)).1, pad (rest (k.setLock true)).2 extra)) :
    withLock (pad k extra) env rest =
      ((withLock k env rest).1, pad (withLock k env rest).2 extra) := by
  unfold withLock
  rw [pad_dev]
  split
  · rfl
  · split
    · rfl
    · exact hrest

theorem contents_slot_pad (h : Represents k adds closed pending) (extra : List Byte) (i : ℕ) :
    contents (pad k extra).heap (k.dev.circularBuffer.slot i).buffptr =
      contents k.heap (k.dev.circularBuffer.slot i).buffptr := by
  rcases Nat.lt_or_ge i 10 with hlt | hge
  · exact contents_pad h extra (slot_mem_foreach _ hlt)
  · have hzero : k.dev.circularBuffer.slot i = zeroEntry := by
      unfold CircularBuffer.slot
      rw [Vector.getElem?_eq_none hge, Option.getD_none]
    rw [hzero]
    rfl

theorem aesdRead_pad (h : Represents k adds closed pending) (extra : List Byte)
    (file count : ℕ) (env : Env) :
    aesdRead (pad k extra) file count env =
      ((aesdRead k file count env).1, pad (aesdRead k file count env).2 extra) := by
  have hlocked : Represents (k.setLock true) adds closed pending := h.congr ⟨rfl, rfl, rfl⟩
  unfold aesdRead
  split
  · rfl
  · apply withLock_pad
    dsimp only
    rw [pad_dev, pad_fPos]
    cases (k.setLock true).dev.circularBuffer.findEntryOffsetForFpos
        (toSize ((k.setLock true).fPos file)) with
    | none => rfl
    | some found =>
      obtain ⟨index, entryOffset⟩ := found
      dsimp only
      rw [contents_slot_pad hlocked extra]
      generalize (if count > _ then _ else count) = n
      split <;> rfl

theorem aesdLlseek_pad (extra : List Byte) (file : ℕ) (off whence : ℤ) (env : Env) :
    aesdLlseek (pad k extra) file off whence env =
      ((aesdLlseek k file off whence env).1, pad (aesdLlseek k file off whence env).2 extra) := by
  apply withLock_pad
  have htarget : seekTarget (pad (k.setLock true) extra) file off whence =
      seekTarget (k.setLock true) file off whence := rfl
  rw [htarget]
  split
  · rfl
  · split <;> rfl

theorem aesdIoctl_pad (extra : List Byte) (file : ℕ) (cmd : UInt32) (arg : UInt64)
    (seekto : AesdSeekto) (env : Env) :
    aesdIoctl (pad k extra) file cmd arg seekto env =
      ((aesdIoctl k file cmd arg seekto env).1,
        pad (aesdIoctl k file cmd arg seekto env).2 extra) := by
  unfold aesdIoctl
  split
  · rfl
  · apply withLock_pad
    split
    · rfl
    · split
      · rfl
      · split
        · split
          · rfl
          · rw [pad_dev]
            split <;> rfl
        · rfl

theorem acceptBytes_congr {k k' : Kernel} {presult : Ptr} {buf : List Byte}
    (h : appendBytes k presult buf = appendBytes k' presult buf) :
    acceptBytes k presult buf = acceptBytes k' presult buf := by
  unfold acceptBytes
  rw [h]

/-- Extending the pending block in place only changes the room behind the bytes. -/
theorem pad_of_inPlace (h : Represents k adds closed pending) {extra : List Byte} {size : ℕ}
    {q : Ptr} {heap : Heap (List Byte)} (hpending : pending ≠ []) (hle : pending.length ≤ size)
    (hk : krealloc (pad k extra).heap k.dev.entry.buffptr size .inPlace = some (q, heap)) :
    ∃ extra', { pad k extra with heap } = pad k extra' := by
  have hread := read_pad h hpending extra
  have hsize : size ≠ 0 := by
    have hpos := List.length_pos_iff.mpr hpending
    omega
  have hblock : k.dev.entry.buffptr.id? ≠ none := by
    intro hnone
    simp [Heap.read, hnone] at hread
  have hcontents : contents (pad k extra).heap k.dev.entry.buffptr = pending ++ extra := by
    simp [contents, hread]
  rw [krealloc_of_block hsize (roomFor_of_krealloc hk hsize) hblock, if_pos rfl, hcontents] at hk
  cases hk
  refine ⟨(resize (pending ++ extra) size).drop pending.length, ?_⟩
  have hown : (resize (pending ++ extra) size).take pending.length = pending :=
    take_resize_append pending extra hle
  have hsplit : pending ++ (resize (pending ++ extra) size).drop pending.length =
      resize (pending ++ extra) size := by
    have hwhole := List.take_append_drop pending.length (resize (pending ++ extra) size)
    rwa [hown] at hwhole
  unfold pad
  rw [Heap.store_store, h.pending_holds.contents_eq, hsplit]

/-- A write into the padded state fails and leaves it padded, or sleeps in both
states, or does in the padded state what it does in the exact one. -/
theorem aesdWrite_pad (h : Represents k adds closed pending) (extra : List Byte) (file : ℕ)
    (buf : List Byte) (env : Env) (hkeep : ¬ LosesBlock (pad k extra) (.write file buf env)) :
    (failedWrite (pad k extra) (.write file buf env) = true ∧
      ∃ extra', (aesdWrite (pad k extra) file buf env).2 = pad k extra') ∨
    (failedWrite (pad k extra) (.write file buf env) = false ∧
      aesdWrite k file buf env = ((aesdWrite (pad k extra) file buf env).1, k) ∧
      (aesdWrite (pad k extra) file buf env).2 = pad k extra) ∨
    (failedWrite (pad k extra) (.write file buf env) = false ∧
      aesdWrite k file buf env = aesdWrite (pad k extra) file buf env ∧
      accepted k (.write file buf env) ≠ []) := by
  unfold failedWrite
  dsimp only
  by_cases hreach : accessOk env buf.length = true ∧ env.interrupted = false ∧ k.dev.lock = false
  swap
  · obtain ⟨ret, hneg, heq⟩ := aesdWrite_early hreach
    rw [heq k file rfl, heq (pad k extra) file rfl]
    cases ret with
    | none => exact Or.inr (Or.inl ⟨rfl, rfl, rfl⟩)
    | some r => exact Or.inl ⟨by simpa using hneg r rfl, extra, rfl⟩
  obtain ⟨haccess, hwait, hfree⟩ := hreach
  have hlen : buf.length < 2 ^ 63 := by
    simp only [accessOk, Bool.and_eq_true, decide_eq_true_eq] at haccess
    exact haccess.2
  have hsmall := h.small
  have hsum : sizeAdd buf.length k.dev.entry.size = buf.length + pending.length := by
    rw [h.pending_holds.size_eq]
    exact sizeAdd_of_lt (by omega)
  have hwrite := @aesdWrite_eq k file buf env haccess hwait hfree
  rw [@aesdWrite_eq (pad k extra) file buf env haccess hwait hfree]
  cases hk : krealloc (pad k extra).heap (pad k extra).dev.entry.buffptr
      (sizeAdd buf.length (pad k extra).dev.entry.size) env.realloc with
  | none => exact Or.inl ⟨rfl, extra, rfl⟩
  | some moved =>
    obtain ⟨q, heap⟩ := moved
    dsimp only
    by_cases hfault : copyFaults env buf.length = true
    · -- the fault spares the block only if the block was extended in place
      rw [if_pos hfault]
      have hplace : k.dev.entry.size ≠ 0 ∧ env.realloc = .inPlace := by
        by_contra hmoved
        exact hkeep ⟨haccess, hwait, hfree, hfault, by rw [hk]; rfl, hmoved⟩
      have hpending : pending ≠ [] := by
        intro hnil
        rw [h.pending_holds.size_eq, hnil] at hplace
        exact hplace.1 rfl
      rw [pad_dev, hsum, hplace.2] at hk
      obtain ⟨extra', hextra⟩ := pad_of_inPlace h hpending (Nat.le_add_left _ _) hk
      rw [hextra]
      have hsame := @Kernel.setLock_setLock_of_free (pad k extra') hfree false
      exact Or.inl ⟨rfl, extra', hsame⟩
    · rw [if_neg hfault]
      rw [pad_dev, hsum] at hk
      have hcontents := h.pending_holds.contents_eq
      rw [← hcontents] at hk
      obtain ⟨heap₀, hk₀, hheap⟩ := krealloc_eq hk
      rw [hcontents] at hk₀ hheap
      have happend : appendBytes { pad k extra with heap } q buf =
          appendBytes { k with heap := heap₀ } q buf := by
        unfold appendBytes
        dsimp only
        rw [pad_dev, h.pending_holds.size_eq, hheap]
        rfl
      rw [hsum, hk₀] at hwrite
      dsimp only at hwrite
      rw [if_neg hfault, ← acceptBytes_congr happend] at hwrite
      right
      right
      refine ⟨?_, hwrite, ?_⟩
      · simp [unlockReturn]
      · rw [accepted_write, hwrite]
        simp [unlockReturn]

/-- A fault after another block was given strands a block or frees the pending one. -/
theorem not_failsClean (h : Represents k adds closed pending) (extra : List Byte) {c : Call}
    (hlost : LosesBlock (pad k extra) c) : ¬ FailsClean (pad k extra) c := by
  intro hclean
  cases c with
  | read => exact hlost
  | llseek => exact hlost
  | ioctl => exact hlost
  | write file buf env =>
    obtain ⟨haccess, hwait, hfree, hfault, hgiven, hother⟩ := hlost
    obtain ⟨⟨q, heap⟩, hk⟩ := Option.isSome_iff_exists.mp hgiven
    have hwrite := @aesdWrite_eq (pad k extra) file buf env haccess hwait hfree
    rw [hk] at hwrite
    dsimp only at hwrite
    rw [if_pos hfault] at hwrite
    have hfailed : failedWrite (pad k extra) (.write file buf env) = true := by
      unfold failedWrite
      dsimp only
      rw [hwrite]
      rfl
    have hsame := hclean hfailed
    rw [perform, hwrite] at hsame
    have hsize : sizeAdd buf.length (pad k extra).dev.entry.size ≠ 0 := by
      have hsmall := h.small
      simp only [copyFaults, accessOk, Bool.and_eq_true, bne_iff_ne, decide_eq_true_eq]
        at hfault haccess
      rw [pad_dev, h.pending_holds.size_eq, sizeAdd_of_lt (by omega)]
      omega
    rw [krealloc_of_room hsize (roomFor_of_krealloc hk hsize)] at hk
    split at hk
    · have hheap : _ = heap := congrArg Prod.snd (Option.some.inj hk)
      rw [← hheap] at hsame
      have hunheld : (pad k extra).heap.next ∉ ids (held (pad k extra)) := by
        intro hin
        exact Nat.lt_irrefl _ (Heap.lt_next_of_live (((owns_pad h extra).live_iff _).mpr hin))
      have hlive : ∀ b, ((pad k extra).heap.alloc b).2.Live (pad k extra).heap.next :=
        fun b => (Heap.live_alloc _ b _).mpr (Or.inl rfl)
      have hold := (hsame.reachable _ (hlive _) hunheld).1
      exact Nat.lt_irrefl _ (Heap.lt_next_of_live hold)
    · rename_i hblock
      have hpending : (pad k extra).dev.entry.size ≠ 0 := by
        intro hzero
        rw [pad_dev, h.pending_holds.size_eq, List.length_eq_zero_iff] at hzero
        exact hblock (h.pending_holds.no_block hzero)
      rw [if_neg fun hplace => hother ⟨hpending, hplace⟩] at hk
      have hheap : _ = heap := congrArg Prod.snd (Option.some.inj hk)
      rw [← hheap] at hsame
      obtain ⟨block, hread, _⟩ := hsame.pending hpending
      exact absurd (hread.symm.trans (Heap.read_free_of_eq rfl)) (by simp)

end Perform

/-- `k` is a state that calls without failed writes reach, with room behind the pending bytes. -/
def Tracks (k₀ k : Kernel) : Prop :=
  ∃ adds bufs extra, Represents k₀ adds (groupWrites bufs).1 (groupWrites bufs).2 ∧
    k = pad k₀ extra

namespace Tracks

variable {k₀ k : Kernel} {c : Call}

theorem init : Tracks aesdInitModule aesdInitModule :=
  ⟨[], [], [], represents_init, (pad_nil _).symm⟩

/-- A failed write that loses no block is not seen. -/
theorem failed (h : Tracks k₀ k) (hkeep : ¬ LosesBlock k c) (hfailed : failedWrite k c = true) :
    Tracks k₀ (perform k c).2 := by
  obtain ⟨adds, bufs, extra, hrep, rfl⟩ := h
  cases c with
  | read => cases hfailed
  | llseek => cases hfailed
  | ioctl => cases hfailed
  | write file buf env =>
    rcases aesdWrite_pad hrep extra file buf env hkeep with ⟨_, extra', heq⟩ | ⟨hdone, _⟩ |
      ⟨hdone, _⟩
    · exact ⟨adds, bufs, extra', hrep, heq⟩
    · rw [hdone] at hfailed
      cases hfailed
    · rw [hdone] at hfailed
      cases hfailed

/-- Every other call gives the same reply in both states. -/
theorem step (h : Tracks k₀ k) (hkeep : ¬ LosesBlock k c) (hdone : failedWrite k c = false) :
    (perform k₀ c).1 = (perform k c).1 ∧ Tracks (perform k₀ c).2 (perform k c).2 := by
  obtain ⟨adds, bufs, extra, hrep, rfl⟩ := h
  cases c with
  | read file count env =>
    rw [perform, perform, aesdRead_pad hrep]
    exact ⟨rfl, adds, bufs, extra, hrep.congr (sameData_aesdRead k₀ file count env), rfl⟩
  | llseek file off whence env =>
    rw [perform, perform, aesdLlseek_pad]
    exact ⟨rfl, adds, bufs, extra, hrep.congr (sameData_aesdLlseek k₀ file off whence env), rfl⟩
  | ioctl file cmd arg seekto env =>
    rw [perform, perform, aesdIoctl_pad]
    exact ⟨rfl, adds, bufs, extra, hrep.congr (sameData_aesdIoctl k₀ file cmd arg seekto env), rfl⟩
  | write file buf env =>
    rcases aesdWrite_pad hrep extra file buf env hkeep with ⟨hfailed, _⟩ | ⟨_, heq, hstay⟩ |
      ⟨_, heq, haccepted⟩
    · rw [hdone] at hfailed
      cases hfailed
    · rw [perform, perform, heq, hstay]
      exact ⟨rfl, adds, bufs, extra, hrep, rfl⟩
    · obtain ⟨adds', hrep'⟩ := hrep.step (.write file buf env) (Or.inr haccepted)
      refine ⟨congrArg Prod.fst heq, adds', _, [], hrep', ?_⟩
      rw [pad_nil]
      exact (congrArg Prod.snd heq).symm

theorem failsClean_iff (h : Tracks k₀ k) : FailsClean k c ↔ ¬ LosesBlock k c := by
  constructor
  · intro hclean hlost
    obtain ⟨adds, bufs, extra, hrep, rfl⟩ := h
    exact not_failsClean hrep extra hlost hclean
  · intro hkeep hfailed
    obtain ⟨_, _, extra', _, hnext⟩ := h.failed hkeep hfailed
    obtain ⟨adds, bufs, extra, hrep, rfl⟩ := h
    rw [hnext]
    exact undisturbed_pad hrep extra extra'

theorem next (h : Tracks k₀ k) (hkeep : ¬ LosesBlock k c) : ∃ k₁, Tracks k₁ (perform k c).2 := by
  cases hfailed : failedWrite k c with
  | true => exact ⟨k₀, h.failed hkeep hfailed⟩
  | false => exact ⟨_, (h.step hkeep hfailed).2⟩

theorem bytes_eq (h : Tracks k₀ k) :
    ringBytes k₀ = ringBytes k ∧ pendingBytes k₀ = pendingBytes k := by
  obtain ⟨adds, bufs, extra, hrep, rfl⟩ := h
  rw [ringBytes_pad hrep, pendingBytes_pad hrep, hrep.pendingBytes_eq]
  exact ⟨rfl, rfl⟩

end Tracks

def reply (k : Kernel) (c : Call) : List Reply := [(perform k c).1]

/-- The calls of a run without the failed writes. -/
def withoutFailed (calls : List Call) : List Call :=
  kept CharDriver.next failedWrite aesdInitModule calls

/-- Failed writes leave no trace: each one disturbs nothing, and the run without
them ends with the same commands and gives the same replies. -/
structure NoTrace (calls : List Call) : Prop where
  clean : Steps CharDriver.next FailsClean aesdInitModule calls
  ring_eq : ringBytes (run aesdInitModule (withoutFailed calls)) =
    ringBytes (run aesdInitModule calls)
  pending_eq : pendingBytes (run aesdInitModule (withoutFailed calls)) =
    pendingBytes (run aesdInitModule calls)
  replies_eq : outputs CharDriver.next reply aesdInitModule (withoutFailed calls) =
    outputs CharDriver.next (fun k c => if failedWrite k c then [] else reply k c)
      aesdInitModule calls

/-- For every run: the failed writes leave no trace exactly if none of them
faults on the user copy after it was given another block. -/
theorem noTrace_iff (calls : List Call) :
    NoTrace calls ↔
      Steps CharDriver.next (fun k c => ¬ LosesBlock k c) aesdInitModule calls := by
  have hinit : ∃ k₀, Tracks k₀ aesdInitModule := ⟨_, Tracks.init⟩
  constructor
  · intro h
    refine @Steps.imp _ _ _ _ _ (fun k => ∃ k₀, Tracks k₀ k) (fun k c t hk hclean ht => ?_) _ _
      hinit h.clean
    obtain ⟨k₀, hk⟩ := hk
    cases ht
    have hkeep := hk.failsClean_iff.mp hclean
    exact ⟨hk.next hkeep, hkeep⟩
  · intro h
    have hsim := @Steps.simulate _ _ _ _ _ Tracks failedWrite reply
      (fun k₀ k c t hk hkeep ht hfailed => by
        cases ht
        exact hk.failed hkeep hfailed)
      (fun k₀ k c t hk hkeep ht hdone => by
        cases ht
        obtain ⟨hreply, hnext⟩ := hk.step hkeep hdone
        exact ⟨congrArg (fun r => [r]) hreply, _, rfl, hnext⟩)
      _ _ _ _ Tracks.init h (exec_next aesdInitModule calls)
    obtain ⟨hreplies, k₀, hrun, hlast⟩ := hsim
    have hend : k₀ = run aesdInitModule (withoutFailed calls) := by
      rw [exec_next] at hrun
      exact (Option.some.inj hrun).symm
    rw [hend] at hlast
    refine ⟨?_, hlast.bytes_eq.1, hlast.bytes_eq.2, hreplies⟩
    refine @Steps.imp _ _ _ _ _ (fun k => ∃ k₀, Tracks k₀ k) (fun k c t hk hkeep ht => ?_) _ _
      hinit h
    obtain ⟨k₀, hk⟩ := hk
    cases ht
    exact ⟨hk.next hkeep, hk.failsClean_iff.mpr hkeep⟩

/-- A pending byte, then a write that faults after its block was moved: the
pending pointer is stale. -/
theorem moved_then_faulted_disturbs :
    ¬ ∀ calls : List Call, NoTrace calls := by
  intro h
  have hclean := (h [.write 0 [104] {}, .write 0 [105] { copyFault := true }]).clean
  have hlast := @Steps.step _ _ _ _ _ _ _ [Call.write 0 [104] {}] [] _ hclean rfl rfl
  obtain ⟨block, hread, _⟩ := (hlast (by decide)).pending (by decide)
  exact absurd (hread.symm.trans (by decide : _ = none)) (by simp)

end Aesd.FailedWrites
