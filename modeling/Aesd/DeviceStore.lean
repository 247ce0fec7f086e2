import Aesd.CharDriver

/-!
What the driver keeps, stated without pointers: the terminated commands so far
and the bytes of the command still open. `Represents` ties a kernel state to
such a history: the ring holds the last ten commands, the pending entry the open
bytes, and the ring slots and the pending entry together own every live block.
Each driver operation whose user copies succeed either leaves the data alone or
appends one write to the history.
-/

namespace Aesd.DeviceStore

open Blocks RingBuffer CharDriver Runs

/-- One more write: it closes the open group if it contains a newline. -/
def pushWrite (groups : List (List Byte) × List Byte) (buf : List Byte) :
    List (List Byte) × List Byte :=
  if newline ∈ buf then (groups.1 ++ [groups.2 ++ buf], []) else (groups.1, groups.2 ++ buf)

/-- Greedy grouping of writes: the closed groups, and the bytes of the open one. -/
def groupWrites (bufs : List (List Byte)) : List (List Byte) × List Byte :=
  bufs.foldl pushWrite ([], [])

theorem groupWrites_concat (bufs : List (List Byte)) (buf : List Byte) :
    groupWrites (bufs ++ [buf]) = pushWrite (groupWrites bufs) buf := by
  simp [groupWrites]

/-- Grouping keeps every byte in its place. -/
theorem groupWrites_flatten (bufs : List (List Byte)) :
    (groupWrites bufs).1.flatten ++ (groupWrites bufs).2 = bufs.flatten := by
  induction bufs using List.reverseRecOn with
  | nil => rfl
  | append_singleton bufs buf ih =>
    rw [groupWrites_concat, List.flatten_concat, ← ih]
    unfold pushWrite
    split <;> simp

theorem newline_not_mem_open (bufs : List (List Byte)) : newline ∉ (groupWrites bufs).2 := by
  induction bufs using List.reverseRecOn with
  | nil => simp [groupWrites]
  | append_singleton bufs buf ih =>
    rw [groupWrites_concat]
    unfold pushWrite
    split
    · simp
    · rename_i hbuf
      rw [List.mem_append]
      exact fun hmem => hmem.elim ih hbuf

/-- The entry designates a live block with exactly these bytes; an entry of no
bytes designates no block. -/
structure Holds (heap : Heap (List Byte)) (e : BufferEntry) (bytes : List Byte) : Prop where
  size_eq : e.size = bytes.length
  read_eq : bytes ≠ [] → heap.read e.buffptr = some bytes
  no_block : bytes = [] → e.buffptr.id? = none

theorem Holds.contents_eq {heap : Heap (List Byte)} {e : BufferEntry} {bytes : List Byte}
    (h : Holds heap e bytes) : contents heap e.buffptr = bytes := by
  unfold contents
  by_cases hb : bytes = []
  · simp [Heap.read, h.no_block hb, hb]
  · rw [h.read_eq hb]
    rfl

theorem Holds.frame {heap heap' : Heap (List Byte)} {e : BufferEntry} {bytes : List Byte}
    (h : Holds heap e bytes)
    (hframe : ∀ c, heap.read e.buffptr = some c → heap'.read e.buffptr = some c) :
    Holds heap' e bytes where
  size_eq := h.size_eq
  read_eq hb := hframe bytes (h.read_eq hb)
  no_block := h.no_block

theorem resize_length (old : List Byte) (size : ℕ) : (resize old size).length = size := by
  simp only [resize, List.length_append, List.length_take, List.length_replicate]
  omega

theorem take_resize_append (old extra : List Byte) {size : ℕ} (hle : old.length ≤ size) :
    (resize (old ++ extra) size).take old.length = old := by
  rw [resize, List.take_append_of_le_length (by simp [hle]), List.take_take,
    Nat.min_eq_left hle, List.take_left]

/-- Writing at the end of the old bytes of an extended block appends to them,
whatever the block held behind them. -/
theorem copyIn_resize_append (old extra buf : List Byte) :
    copyIn (resize (old ++ extra) (buf.length + old.length)) old.length buf = old ++ buf := by
  have htake := take_resize_append old extra (Nat.le_add_left old.length buf.length)
  have hdrop : (resize (old ++ extra) (buf.length + old.length)).drop
      (old.length + buf.length) = [] := by
    apply List.drop_eq_nil_of_le
    rw [resize_length]
    omega
  rw [copyIn, htake, hdrop, List.append_nil]

theorem copyIn_resize (old buf : List Byte) :
    copyIn (resize old (buf.length + old.length)) old.length buf = old ++ buf := by
  have happend := copyIn_resize_append old [] buf
  rwa [List.append_nil] at happend

/-- The ways a `krealloc` succeeds. -/
inductive Granted (heap : Heap (List Byte)) (p : Ptr) (size : ℕ) : Ptr → Heap (List Byte) → Prop
  | freed (hzero : size = 0) : Granted heap p size .zeroSize (heap.free p)
  | fresh (hpos : 0 < size) (hroom : heap.total List.length + size < 2 ^ 63)
      (hnone : p.id? = none) :
      Granted heap p size (heap.alloc (resize [] size)).1 (heap.alloc (resize [] size)).2
  | inPlace (hpos : 0 < size) (hroom : heap.total List.length + size < 2 ^ 63)
      (hblock : p.id? ≠ none) :
      Granted heap p size p (heap.store p (resize (contents heap p) size))
  | moved (hpos : 0 < size) (hroom : heap.total List.length + size < 2 ^ 63)
      (hblock : p.id? ≠ none) :
      Granted heap p size (heap.alloc (resize (contents heap p) size)).1
        ((heap.alloc (resize (contents heap p) size)).2.free p)

theorem krealloc_granted {heap heap' : Heap (List Byte)} {p q : Ptr} {size : ℕ}
    {outcome : KreallocOutcome} (hk : krealloc heap p size outcome = some (q, heap')) :
    Granted heap p size q heap' := by
  unfold krealloc at hk
  split at hk
  · rename_i hzero
    obtain ⟨rfl, rfl⟩ : Ptr.zeroSize = q ∧ heap.free p = heap' := Prod.mk.inj (Option.some.inj hk)
    exact Granted.freed hzero
  · rename_i hsize
    have hpos := Nat.pos_of_ne_zero hsize
    split at hk
    · cases hk
    · rename_i hgranted
      have hroom : heap.total List.length + size < 2 ^ 63 := by
        by_contra hge
        exact hgranted (Or.inr (by omega))
      split at hk
      · rename_i hnone
        obtain ⟨rfl, rfl⟩ : (heap.alloc (resize [] size)).1 = q ∧
          (heap.alloc (resize [] size)).2 = heap' := Prod.mk.inj (Option.some.inj hk)
        exact Granted.fresh hpos hroom hnone
      · rename_i hblock
        split at hk
        · obtain ⟨rfl, rfl⟩ : p = q ∧ heap.store p (resize (contents heap p) size) = heap' :=
            Prod.mk.inj (Option.some.inj hk)
          exact Granted.inPlace hpos hroom hblock
        · obtain ⟨rfl, rfl⟩ : (heap.alloc (resize (contents heap p) size)).1 = q ∧
            (heap.alloc (resize (contents heap p) size)).2.free p = heap' :=
            Prod.mk.inj (Option.some.inj hk)
          exact Granted.moved hpos hroom hblock

/-- `krealloc` passes the account from the old pointer to the new one, keeps the
bytes, and disturbs no other block. -/
theorem krealloc_spec {heap heap' : Heap (List Byte)} {p q : Ptr} {ptrs : List Ptr} {size : ℕ}
    {outcome : KreallocOutcome} (ho : Owns heap (p :: ptrs))
    (hk : krealloc heap p size outcome = some (q, heap')) :
    Owns heap' (q :: ptrs) ∧
    (∀ r ∈ ptrs, ∀ c, heap.read r = some c → heap'.read r = some c) ∧
    (size = 0 → q.id? = none) ∧
    (0 < size → size < 2 ^ 63 ∧ heap'.read q = some (resize (contents heap p) size)) := by
  have hlive : ∀ id, p.id? = some id → ∃ old, heap.read p = some old := by
    intro id hid
    have hid' : heap.Live id := by
      rw [ho.live_iff, ids_cons_of_block hid]
      exact List.mem_cons_self ..
    obtain ⟨old, hold⟩ := Option.isSome_iff_exists.mp hid'
    exact ⟨old, by simp [Heap.read, hid, hold]⟩
  cases krealloc_granted hk with
  | freed hzero =>
    refine ⟨(Owns.cons_of_no_block rfl).mpr ho.free, ?_, fun _ => rfl, by omega⟩
    intro r hr c hc
    rw [Heap.read_free_of_ne (ho.id_ne_of_read hr hc)]
    exact hc
  | fresh hpos hroom hnone =>
    refine ⟨((Owns.cons_of_no_block hnone).mp ho).alloc _, ?_, by omega, ?_⟩
    · intro r _ c hc
      exact Heap.read_alloc_of_read hc
    · intro _
      have hold : contents heap p = [] := by simp [contents, Heap.read, hnone]
      rw [hold]
      exact ⟨by omega, Heap.read_alloc_self _ _⟩
  | inPlace hpos hroom hblock =>
    obtain ⟨id, hid⟩ := Option.ne_none_iff_exists'.mp hblock
    obtain ⟨old, hread⟩ := hlive id hid
    refine ⟨ho.store _ _, ?_, by omega, fun _ => ⟨by omega, Heap.read_store_self hread⟩⟩
    intro r hr c hc
    rw [Heap.read_store_of_ne (ho.id_ne_of_read hr hc)]
    exact hc
  | moved hpos hroom hblock =>
    -- the new block first, then the old one is freed
    obtain ⟨id, hid⟩ := Option.ne_none_iff_exists'.mp hblock
    have hnew := ho.alloc (resize (contents heap p) size)
    refine ⟨(hnew.perm (List.Perm.swap ..)).free, ?_, by omega, ?_⟩
    · intro r hr c hc
      rw [Heap.read_free_of_ne (ho.id_ne_of_read hr hc)]
      exact Heap.read_alloc_of_read hc
    · intro _
      have hne : p.id? ≠ (heap.alloc (resize (contents heap p) size)).1.id? :=
        fun heq => hnew.id_ne (List.mem_cons_self ..) hid heq.symm
      rw [Heap.read_free_of_ne hne]
      exact ⟨by omega, Heap.read_alloc_self _ _⟩

/-- The buffers held by the ring slots. -/
def slotPtrs (buffer : CircularBuffer) : List Ptr := buffer.foreach.map BufferEntry.buffptr

/-- Everything the device holds: the pending entry and the ring slots. -/
def held (k : Kernel) : List Ptr := k.dev.entry.buffptr :: slotPtrs k.dev.circularBuffer

theorem slot_mem_foreach (buffer : CircularBuffer) {i : ℕ} (hi : i < 10) :
    buffer.slot i ∈ buffer.foreach := by
  have hlen : i < buffer.foreach.length := by simpa [CircularBuffer.foreach] using hi
  have hslot : buffer.slot i = buffer.foreach[i] := by
    simp [CircularBuffer.slot, CircularBuffer.foreach, hi]
  rw [hslot]
  exact List.getElem_mem hlen

/-- The last ten additions are still in a slot. -/
theorem mem_foreach_of_recent {buffer : CircularBuffer} {adds : List BufferEntry}
    (h : buffer.FifoOf adds) {i : ℕ} {e : BufferEntry} (he : adds[i]? = some e)
    (hi : adds.length ≤ i + 10) : e ∈ buffer.foreach := by
  rw [← h.window.recent i e he hi]
  exact slot_mem_foreach buffer (Nat.mod_lt _ (by omega))

theorem mem_foreach_of_fifo {buffer : CircularBuffer} {adds : List BufferEntry}
    (h : buffer.FifoOf adds) {e : BufferEntry} (he : e ∈ buffer.fifo) : e ∈ buffer.foreach := by
  rw [h.fifo_eq, List.rtake] at he
  obtain ⟨i, hi, rfl⟩ := List.getElem_of_mem he
  rw [List.length_drop] at hi
  rw [List.getElem_drop]
  exact mem_foreach_of_recent h (List.getElem?_eq_getElem (by omega)) (by omega)

/-- Adding an entry exchanges its pointer for the one handed back. -/
theorem slotPtrs_addEntry (buffer : CircularBuffer) (e : BufferEntry) (hin : buffer.inOffs < 10) :
    (e.buffptr :: slotPtrs buffer).Perm
      ((buffer.addEntry e).1 :: slotPtrs (buffer.addEntry e).2) := by
  have hlen : buffer.inOffs < buffer.foreach.length := by
    simpa [CircularBuffer.foreach] using hin
  have hnew : (buffer.addEntry e).2.foreach = buffer.foreach.set buffer.inOffs e := by
    unfold CircularBuffer.addEntry CircularBuffer.foreach
    split <;> simp
  have hold : (buffer.addEntry e).1 = (buffer.foreach[buffer.inOffs]).buffptr := by
    have hslot : buffer.slot buffer.inOffs = buffer.foreach[buffer.inOffs] := by
      simp [CircularBuffer.slot, CircularBuffer.foreach, hin]
    rw [← hslot]
    unfold CircularBuffer.addEntry
    split <;> rfl
  have hset : (slotPtrs (buffer.addEntry e).2).Perm
      (e.buffptr :: (buffer.foreach.eraseIdx buffer.inOffs).map BufferEntry.buffptr) := by
    unfold slotPtrs
    rw [hnew]
    exact (List.set_perm_cons_eraseIdx hlen e).map _
  have hget : (slotPtrs buffer).Perm
      ((buffer.addEntry e).1 ::
        (buffer.foreach.eraseIdx buffer.inOffs).map BufferEntry.buffptr) := by
    rw [hold]
    exact ((List.getElem_cons_eraseIdx_perm hlen).map BufferEntry.buffptr).symm
  exact ((hget.cons _).trans (List.Perm.swap ..)).trans (hset.symm.cons _)

/-- The kernel state holds the commands `closed`, added as `adds`, and the open
bytes `pending`. -/
structure Represents (k : Kernel) (adds : List BufferEntry) (closed : List (List Byte))
    (pending : List Byte) : Prop where
  fifo : k.dev.circularBuffer.FifoOf adds
  length_eq : adds.length = closed.length
  recent : ∀ i e b, adds[i]? = some e → closed[i]? = some b → adds.length ≤ i + 10 →
    Holds k.heap e b
  pending_holds : Holds k.heap k.dev.entry pending
  small : pending.length < 2 ^ 63
  owns : Owns k.heap (held k)

theorem represents_init : Represents aesdInitModule [] [] [] where
  fifo := CircularBuffer.FifoOf.init
  length_eq := rfl
  recent i e b h := by simp at h
  pending_holds := ⟨rfl, fun h => absurd rfl h, fun _ => rfl⟩
  small := by simp
  owns := by
    have hids : ids (held aesdInitModule) = [] := by decide
    refine ⟨?_, ?_, List.nodup_nil, ?_⟩
    · rw [hids]
      exact List.nodup_nil
    · intro id
      rw [hids]
      simp [aesdInitModule, Heap.Live, Heap.empty]
    · intro id hid
      simp [aesdInitModule, Heap.empty] at hid

/-- Two states with the same device data and heap; the mutex and the file
positions may differ. -/
structure SameData (k k' : Kernel) : Prop where
  heap_eq : k'.heap = k.heap
  entry_eq : k'.dev.entry = k.dev.entry
  ring_eq : k'.dev.circularBuffer = k.dev.circularBuffer

theorem SameData.refl (k : Kernel) : SameData k k := ⟨rfl, rfl, rfl⟩

theorem Represents.congr {k k' : Kernel} {adds : List BufferEntry} {closed : List (List Byte)}
    {pending : List Byte} (h : Represents k adds closed pending) (hs : SameData k k') :
    Represents k' adds closed pending where
  fifo := by
    rw [hs.ring_eq]
    exact h.fifo
  length_eq := h.length_eq
  recent := by
    rw [hs.heap_eq]
    exact h.recent
  pending_holds := by
    rw [hs.heap_eq, hs.entry_eq]
    exact h.pending_holds
  small := h.small
  owns := by
    unfold held
    rw [hs.heap_eq, hs.entry_eq, hs.ring_eq]
    exact h.owns

/-- Committing the pending bytes moves them to the end of the ring. -/
theorem Represents.commit {k : Kernel} {adds : List BufferEntry}
    {closed : List (List Byte)} {pending : List Byte} (h : Represents k adds closed pending) :
    Represents (commitEntry k) (adds ++ [k.dev.entry]) (closed ++ [pending]) [] := by
  have hfifo := h.fifo.addEntry k.dev.entry
  have hperm := slotPtrs_addEntry k.dev.circularBuffer k.dev.entry h.fifo.in_lt
  have howns := h.owns.perm hperm
  refine ⟨hfifo, by simp [h.length_eq], ?_, ⟨rfl, fun hne => absurd rfl hne, fun _ => rfl⟩,
    by simp, (Owns.cons_of_no_block rfl).mpr howns.free⟩
  intro i e b he hb hi
  have hmem : e.buffptr ∈ slotPtrs (k.dev.circularBuffer.addEntry k.dev.entry).2 :=
    List.mem_map_of_mem (mem_foreach_of_recent hfifo he hi)
  have hholds : Holds k.heap e b := by
    rcases Nat.lt_or_ge i adds.length with hlt | hge
    · rw [List.getElem?_append_left hlt] at he
      rw [List.getElem?_append_left (h.length_eq ▸ hlt)] at hb
      simp only [List.length_append, List.length_singleton] at hi
      exact h.recent i e b he hb (by omega)
    · have hi0 : i = adds.length := by
        have hlt := (List.getElem?_eq_some_iff.mp he).1
        simp only [List.length_append, List.length_singleton] at hlt
        omega
      subst hi0
      rw [List.getElem?_concat_length] at he
      rw [h.length_eq, List.getElem?_concat_length] at hb
      cases he
      cases hb
      exact h.pending_holds
  apply hholds.frame
  intro c hc
  change (k.heap.free _).read e.buffptr = some c
  rw [Heap.read_free_of_ne (howns.id_ne_of_read hmem hc)]
  exact hc

/-- Appending copied bytes to the pending entry. -/
theorem Represents.append {k : Kernel} {adds : List BufferEntry} {closed : List (List Byte)}
    {pending buf : List Byte} {outcome : KreallocOutcome} {presult : Ptr}
    {heap : Heap (List Byte)} (h : Represents k adds closed pending)
    (hlen : buf.length < 2 ^ 63)
    (hk : krealloc k.heap k.dev.entry.buffptr (sizeAdd buf.length k.dev.entry.size) outcome =
      some (presult, heap)) :
    Represents (appendBytes { k with heap } presult buf) adds closed (pending ++ buf) := by
  have hsize := h.pending_holds.size_eq
  have hsmall := h.small
  have hsum : sizeAdd buf.length k.dev.entry.size = buf.length + pending.length := by
    rw [hsize]
    exact sizeAdd_of_lt (by omega)
  have hsum' : sizeAdd k.dev.entry.size buf.length = (pending ++ buf).length := by
    rw [hsize, List.length_append]
    exact sizeAdd_of_lt (by omega)
  rw [hsum] at hk
  obtain ⟨howns, hframe, hzero, hpos⟩ := krealloc_spec h.owns hk
  rw [h.pending_holds.contents_eq] at hpos
  have hstored : Owns (appendBytes { k with heap } presult buf).heap
      (presult :: slotPtrs k.dev.circularBuffer) := howns.store _ _
  have hread : ∀ r ∈ slotPtrs k.dev.circularBuffer, ∀ c, k.heap.read r = some c →
      (appendBytes { k with heap } presult buf).heap.read r = some c := by
    intro r hr c hc
    have hmid := hframe r hr c hc
    change (heap.store presult _).read r = some c
    rw [Heap.read_store_of_ne (howns.id_ne_of_read hr hmid)]
    exact hmid
  refine ⟨h.fifo, h.length_eq, ?_, ?_, ?_, hstored⟩
  · intro i e b he hb hi
    apply (h.recent i e b he hb hi).frame
    exact hread _ (List.mem_map_of_mem (mem_foreach_of_recent h.fifo he hi))
  · refine ⟨hsum', ?_, ?_⟩
    · intro hne
      have hlt : 0 < buf.length + pending.length := by
        have := List.length_pos_iff.mpr hne
        rw [List.length_append] at this
        omega
      have hnew := (hpos hlt).2
      change (heap.store presult (copyIn (contents heap presult) k.dev.entry.size buf)).read
        presult = some (pending ++ buf)
      have hcont : contents heap presult = resize pending (buf.length + pending.length) := by
        simp [contents, hnew]
      rw [Heap.read_store_self hnew, hcont, hsize, copyIn_resize]
    · intro hnil
      apply hzero
      have hlen0 := congrArg List.length hnil
      rw [List.length_append, List.length_nil] at hlen0
      omega
  · rcases Nat.eq_zero_or_pos (buf.length + pending.length) with hz | hlt
    · rw [List.length_append]
      omega
    · have hbound := (hpos hlt).1
      rw [List.length_append]
      omega

/-- One accepted write is one `pushWrite` of the history. -/
theorem Represents.accept {k : Kernel} {adds : List BufferEntry} {closed : List (List Byte)}
    {pending buf : List Byte} {outcome : KreallocOutcome} {presult : Ptr}
    {heap : Heap (List Byte)} (h : Represents k adds closed pending) (hopen : newline ∉ pending)
    (hlen : buf.length < 2 ^ 63)
    (hk : krealloc k.heap k.dev.entry.buffptr (sizeAdd buf.length k.dev.entry.size) outcome =
      some (presult, heap)) :
    ∃ adds', Represents (acceptBytes { k with heap } presult buf) adds'
      (pushWrite (closed, pending) buf).1 (pushWrite (closed, pending) buf).2 := by
  have happ := h.append hlen hk
  have hbytes : (contents (appendBytes { k with heap } presult buf).heap
      (appendBytes { k with heap } presult buf).dev.entry.buffptr).take
      (appendBytes { k with heap } presult buf).dev.entry.size = pending ++ buf := by
    rw [happ.pending_holds.contents_eq, happ.pending_holds.size_eq, List.take_length]
  have hscan : newline ∈ pending ++ buf ↔ newline ∈ buf := by
    rw [List.mem_append]
    exact or_iff_right hopen
  unfold acceptBytes pushWrite
  simp only [hbytes, hscan]
  split
  · exact ⟨_, happ.commit⟩
  · exact ⟨adds, happ⟩

/-- The bytes an operation added to the device: those of a successful write. -/
def accepted (k : Kernel) : Call → List (List Byte)
  | .read _ _ _ => []
  | .write file buf env =>
    if ((aesdWrite k file buf env).1.ret.any fun r => decide (0 ≤ r)) then [buf] else []
  | .llseek _ _ _ _ => []
  | .ioctl _ _ _ _ _ => []

/-- The successful writes of a run, in order. -/
def acceptedWrites : Kernel → List Call → List (List Byte)
  | _, [] => []
  | k, c :: cs => accepted k c ++ acceptedWrites (perform k c).2 cs

theorem sameData_withLock {k : Kernel} {env : Env} {rest : Kernel → Reply × Kernel}
    (h : SameData k (rest (k.setLock true)).2) : SameData k (withLock k env rest).2 := by
  rcases withLock_cases k env rest with ⟨_, heq⟩ | ⟨_, _, heq⟩ | ⟨_, _, heq⟩
  · rw [heq]
    exact SameData.refl k
  · rw [heq]
    exact SameData.refl k
  · rw [heq]
    exact h

theorem sameData_aesdRead (k : Kernel) (file count : ℕ) (env : Env) :
    SameData k (aesdRead k file count env).2 := by
  unfold aesdRead
  split
  · exact SameData.refl k
  · apply sameData_withLock
    split
    · exact ⟨rfl, rfl, rfl⟩
    · dsimp only
      split <;> split <;> exact ⟨rfl, rfl, rfl⟩

theorem sameData_aesdLlseek (k : Kernel) (file : ℕ) (off whence : ℤ) (env : Env) :
    SameData k (aesdLlseek k file off whence env).2 := by
  apply sameData_withLock
  split
  · exact ⟨rfl, rfl, rfl⟩
  · split <;> exact ⟨rfl, rfl, rfl⟩

theorem sameData_aesdIoctl (k : Kernel) (file : ℕ) (cmd : UInt32) (arg : UInt64)
    (seekto : AesdSeekto) (env : Env) :
    SameData k (aesdIoctl k file cmd arg seekto env).2 := by
  unfold aesdIoctl
  split
  · exact SameData.refl k
  · apply sameData_withLock
    split
    · exact ⟨rfl, rfl, rfl⟩
    · split
      · exact ⟨rfl, rfl, rfl⟩
      · split
        · split
          · exact ⟨rfl, rfl, rfl⟩
          · split <;> exact ⟨rfl, rfl, rfl⟩
        · exact ⟨rfl, rfl, rfl⟩

/-- The write either copied its bytes or did not fault on them. -/
def CopyFine (k : Kernel) (c : Call) : Prop := c.env.copyFault = false ∨ accepted k c ≠ []

theorem accepted_write (k : Kernel) (file : ℕ) (buf : List Byte) (env : Env) :
    accepted k (.write file buf env) =
      if ((aesdWrite k file buf env).1.ret.any fun r => decide (0 ≤ r)) then [buf] else [] := rfl

theorem accepted_write_of_neg {k : Kernel} {file : ℕ} {buf : List Byte} {env : Env}
    (h : ∀ r, (aesdWrite k file buf env).1.ret = some r → r < 0) :
    accepted k (.write file buf env) = [] := by
  rw [accepted_write]
  cases hret : (aesdWrite k file buf env).1.ret with
  | none => rfl
  | some r =>
    have hneg : ¬ 0 ≤ r := by
      have := h r hret
      omega
    simp [hneg]

/-- One call of the driver appends what it accepted to the history. -/
theorem Represents.step {k : Kernel} {adds : List BufferEntry} {bufs : List (List Byte)}
    (h : Represents k adds (groupWrites bufs).1 (groupWrites bufs).2) (c : Call)
    (hc : CopyFine k c) :
    ∃ adds', Represents (perform k c).2 adds' (groupWrites (bufs ++ accepted k c)).1
      (groupWrites (bufs ++ accepted k c)).2 := by
  cases c with
  | read file count env =>
    refine ⟨adds, ?_⟩
    rw [accepted, List.append_nil]
    exact h.congr (sameData_aesdRead k file count env)
  | llseek file off whence env =>
    refine ⟨adds, ?_⟩
    rw [accepted, List.append_nil]
    exact h.congr (sameData_aesdLlseek k file off whence env)
  | ioctl file cmd arg seekto env =>
    refine ⟨adds, ?_⟩
    rw [accepted, List.append_nil]
    exact h.congr (sameData_aesdIoctl k file cmd arg seekto env)
  | write file buf env =>
    rcases aesdWrite_cases k file buf env with ⟨heq, hneg⟩ | ⟨presult, heap, hfault, _, _, heq⟩ |
      ⟨presult, heap, hlen, hk, _, heq⟩
    · refine ⟨adds, ?_⟩
      rw [accepted_write_of_neg hneg, List.append_nil]
      change Represents (aesdWrite k file buf env).2 _ _ _
      rw [heq]
      exact h
    · exfalso
      rcases hc with hno | hacc
      · rw [Call.env, hfault] at hno
        cases hno
      · apply hacc
        apply accepted_write_of_neg
        intro r hr
        rw [heq] at hr
        cases hr
        decide
    · obtain ⟨adds', hrep⟩ := h.accept (newline_not_mem_open bufs) hlen hk
      have hacc : accepted k (.write file buf env) = [buf] := by
        rw [accepted_write, heq]
        simp [unlockReturn]
      refine ⟨adds', ?_⟩
      rw [hacc, groupWrites_concat]
      change Represents (aesdWrite k file buf env).2 _ _ _
      rw [heq]
      exact hrep.congr ⟨rfl, rfl, rfl⟩

/-- A whole run of calls that do not fault on user copies. -/
theorem Represents.along {k : Kernel} {adds : List BufferEntry} {bufs : List (List Byte)}
    (h : Represents k adds (groupWrites bufs).1 (groupWrites bufs).2) {calls : List Call}
    (hc : Steps next CopyFine k calls) :
    ∃ adds', Represents (run k calls) adds' (groupWrites (bufs ++ acceptedWrites k calls)).1
      (groupWrites (bufs ++ acceptedWrites k calls)).2 := by
  induction calls generalizing k adds bufs with
  | nil =>
    refine ⟨adds, ?_⟩
    rw [acceptedWrites, List.append_nil]
    exact h
  | cons c cs ih =>
    obtain ⟨hfine, hrest⟩ := steps_cons.mp hc
    obtain ⟨adds₁, h₁⟩ := h.step c hfine
    obtain ⟨adds₂, h₂⟩ := ih h₁ hrest
    refine ⟨adds₂, ?_⟩
    rw [List.append_assoc] at h₂
    exact h₂

/-- The bytes an entry designates. -/
def entryBytes (heap : Heap (List Byte)) (e : BufferEntry) : List Byte :=
  (contents heap e.buffptr).take e.size

/-- The device contents a reader sees, command by command, oldest first. -/
def ringBytes (k : Kernel) : List (List Byte) :=
  k.dev.circularBuffer.fifo.map (entryBytes k.heap)

def pendingBytes (k : Kernel) : List Byte := entryBytes k.heap k.dev.entry

theorem Holds.entryBytes_eq {heap : Heap (List Byte)} {e : BufferEntry} {bytes : List Byte}
    (h : Holds heap e bytes) : entryBytes heap e = bytes := by
  rw [entryBytes, h.contents_eq, h.size_eq, List.take_length]

theorem Represents.pendingBytes_eq {k : Kernel} {adds : List BufferEntry}
    {closed : List (List Byte)} {pending : List Byte} (h : Represents k adds closed pending) :
    pendingBytes k = pending := h.pending_holds.entryBytes_eq

/-- The ring holds the last ten of the commands `closed`, added as `adds`. -/
structure Retains (k : Kernel) (adds : List BufferEntry) (closed : List (List Byte)) : Prop where
  fifo : k.dev.circularBuffer.FifoOf adds
  length_eq : adds.length = closed.length
  recent : ∀ i e b, adds[i]? = some e → closed[i]? = some b → adds.length ≤ i + 10 →
    Holds k.heap e b

theorem Represents.retains {k : Kernel} {adds : List BufferEntry} {closed : List (List Byte)}
    {pending : List Byte} (h : Represents k adds closed pending) : Retains k adds closed :=
  ⟨h.fifo, h.length_eq, h.recent⟩

namespace Retains

variable {k : Kernel} {adds : List BufferEntry} {closed : List (List Byte)}

/-- What is read off the entries of the ring is read off the last ten commands. -/
theorem fifo_map_eq (h : Retains k adds closed) {γ : Type*} {f : BufferEntry → γ}
    {g : List Byte → γ} (hfg : ∀ e b, Holds k.heap e b → f e = g b) :
    k.dev.circularBuffer.fifo.map f = (closed.rtake 10).map g := by
  have hlen := h.length_eq
  rw [h.fifo.fifo_eq]
  apply List.ext_getElem
  · simp [List.rtake, hlen]
  · intro j hj hj'
    simp only [List.rtake, List.length_map, List.length_drop] at hj hj'
    have hadd : adds.length - 10 + j < adds.length := by omega
    have hclosed : adds.length - 10 + j < closed.length := by omega
    have hholds := h.recent (adds.length - 10 + j) adds[adds.length - 10 + j]
      closed[adds.length - 10 + j] (List.getElem?_eq_getElem hadd)
      (List.getElem?_eq_getElem hclosed) (by omega)
    simp only [List.rtake, List.getElem_map, List.getElem_drop, ← hlen]
    exact hfg _ _ hholds

/-- The ring holds the last ten commands of the history. -/
theorem ringBytes_eq (h : Retains k adds closed) : ringBytes k = closed.rtake 10 := by
  rw [ringBytes, h.fifo_map_eq fun _ _ hholds => hholds.entryBytes_eq, List.map_id']

/-- The entry sizes agree with the bytes they stand for. -/
theorem fifo_sizes (h : Retains k adds closed) :
    k.dev.circularBuffer.fifo.map BufferEntry.size = (closed.rtake 10).map List.length :=
  h.fifo_map_eq fun _ _ hholds => hholds.size_eq

end Retains

end Aesd.DeviceStore
