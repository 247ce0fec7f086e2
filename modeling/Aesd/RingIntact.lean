import Aesd.DeviceReads

/-!
The ring in every state of the model that calls can reach, failed user copies
included. A write that faults after `krealloc` has moved the pending block leaves a
pointer to a freed block behind, but never in the ring: the slots hold distinct live
blocks of the recorded sizes, none of them the pending one. So the device has a
content, and a reader gets it. From the next write on that uses the freed block, C
defines nothing any more; in the model a store to a freed block does nothing and a
read of one gives no bytes, so what is said here of later states is about the model.
-/

namespace Aesd.RingIntact

open Blocks RingBuffer CharDriver DeviceStore DeviceReads Runs

/-- What `krealloc` does to a pointer that may be dangling: it disturbs no other
block, and a live result has the size asked for. -/
structure Resized (heap heap' : Heap (List Byte)) (p q : Ptr) (size : ℕ) : Prop where
  frame : ∀ r b, p.id? ≠ r.id? → heap.read r = some b → heap'.read r = some b
  result : q.id? = p.id? ∨ q.id? = none ∨ q.id? = some heap.next
  grows : heap.next ≤ heap'.next
  known : (∀ id, p.id? = some id → id < heap.next) → ∀ id, q.id? = some id → id < heap'.next
  length : ∀ b, heap'.read q = some b → b.length = size
  small : size < 2 ^ 63
  capacity : heap.total List.length < 2 ^ 63 → heap'.total List.length < 2 ^ 63

theorem krealloc_resized {heap heap' : Heap (List Byte)} {p q : Ptr} {size : ℕ}
    {outcome : KreallocOutcome} (hk : krealloc heap p size outcome = some (q, heap')) :
    Resized heap heap' p q size := by
  cases krealloc_granted hk with
  | freed hzero =>
    exact {
      frame := fun r b hne hr => by rwa [Heap.read_free_of_ne hne]
      result := Or.inr (Or.inl rfl)
      grows := le_rfl
      known := fun _ id hid => by simp [Ptr.id?] at hid
      length := fun b hb => by simp [Heap.read, Ptr.id?] at hb
      small := by omega
      capacity := (Heap.total_free List.length heap p).trans_lt }
  | fresh hpos hroom hnone =>
    exact {
      frame := fun r b _ hr => Heap.read_alloc_of_read hr
      result := Or.inr (Or.inr rfl)
      grows := Nat.le_succ _
      known := fun _ id hid => by
        obtain rfl : heap.next = id := Option.some.inj hid
        exact Nat.lt_succ_self _
      length := fun b hb => by
        rw [Heap.read_alloc_self] at hb
        cases hb
        exact resize_length [] size
      small := by omega
      capacity := fun _ => by rwa [Heap.total_alloc, resize_length] }
  | inPlace hpos hroom hblock =>
    exact {
      frame := fun r b hne hr => by rwa [Heap.read_store_of_ne hne]
      result := Or.inl rfl
      grows := le_rfl
      known := fun hp id hid => hp id hid
      length := fun b hb => by
        rw [Heap.read_store] at hb
        obtain ⟨old, _, rfl⟩ := Option.map_eq_some_iff.mp hb
        exact resize_length _ size
      small := by omega
      capacity := fun _ => by
        have hle := Heap.total_store List.length heap p (resize (contents heap p) size)
        rw [resize_length] at hle
        omega }
  | moved hpos hroom hblock =>
    exact {
      frame := fun r b hne hr => by
        rw [Heap.read_free_of_ne hne]
        exact Heap.read_alloc_of_read hr
      result := Or.inr (Or.inr rfl)
      grows := Nat.le_succ _
      known := fun _ id hid => by
        obtain rfl : heap.next = id := Option.some.inj hid
        exact Nat.lt_succ_self _
      length := fun b hb => by
        -- if `p` designated the new block, the free has taken it away
        by_cases hp : p.id? = (heap.alloc (resize (contents heap p) size)).1.id?
        · rw [Heap.read_free_of_eq hp] at hb
          cases hb
        · rw [Heap.read_free_of_ne hp, Heap.read_alloc_self] at hb
          cases hb
          exact resize_length _ size
      small := by omega
      capacity := fun _ => by
        have hle := Heap.total_free List.length
          (heap.alloc (resize (contents heap p) size)).2 p
        rw [Heap.total_alloc, resize_length] at hle
        omega }

/-- The ring slots hold distinct live blocks of their sizes, and the pending
entry, whatever it points to, none of them. -/
structure Intact (k : Kernel) (adds : List BufferEntry) : Prop where
  fifo : k.dev.circularBuffer.FifoOf adds
  distinct : (ids (held k)).Nodup
  stored : ∀ e ∈ k.dev.circularBuffer.foreach, ∃ b, Holds k.heap e b
  known : ∀ id, k.dev.entry.buffptr.id? = some id → id < k.heap.next
  small : k.dev.entry.size < 2 ^ 63
  capacity : k.heap.total List.length < 2 ^ 63

theorem intact_init : Intact aesdInitModule [] where
  fifo := CircularBuffer.FifoOf.init
  distinct := by decide
  stored e he := by
    have hzero : e = zeroEntry := by
      simpa [aesdInitModule, CircularBuffer.init, CircularBuffer.foreach] using he
    exact ⟨[], by rw [hzero]; exact ⟨rfl, fun h => absurd rfl h, fun _ => rfl⟩⟩
  known id hid := by simp [aesdInitModule, Ptr.id?] at hid
  small := by decide
  capacity := by decide

namespace Intact

variable {k : Kernel} {adds : List BufferEntry}

theorem congr {k' : Kernel} (h : Intact k adds) (hs : SameData k k') : Intact k' adds where
  fifo := by rw [hs.ring_eq]; exact h.fifo
  distinct := by
    unfold held
    rw [hs.entry_eq, hs.ring_eq]
    exact h.distinct
  stored := by rw [hs.heap_eq, hs.ring_eq]; exact h.stored
  known := by rw [hs.heap_eq, hs.entry_eq]; exact h.known
  small := by rw [hs.entry_eq]; exact h.small
  capacity := by rw [hs.heap_eq]; exact h.capacity

/-- A slot that holds bytes designates a live block that the pending entry does not. -/
theorem slot_block (h : Intact k adds) {e : BufferEntry} (he : e ∈ k.dev.circularBuffer.foreach)
    {c : List Byte} (hc : k.heap.read e.buffptr = some c) :
    k.dev.entry.buffptr.id? ≠ e.buffptr.id? :=
  id_ne_of_read h.distinct (List.mem_map_of_mem he) hc

/-- The slots survive what happens to the pending block. -/
theorem stored_resized (h : Intact k adds) {heap : Heap (List Byte)} {presult : Ptr} {size : ℕ}
    (hr : Resized k.heap heap k.dev.entry.buffptr presult size) :
    ∀ e ∈ k.dev.circularBuffer.foreach, ∃ b, Holds heap e b := by
  intro e he
  obtain ⟨b, hb⟩ := h.stored e he
  exact ⟨b, hb.frame fun c hc => hr.frame _ _ (h.slot_block he hc) hc⟩

/-- A write that faults on the user copy: only the pending block was touched. -/
theorem faulted (h : Intact k adds) {heap : Heap (List Byte)} {presult : Ptr} {size : ℕ}
    (hr : Resized k.heap heap k.dev.entry.buffptr presult size) : Intact { k with heap } adds where
  fifo := h.fifo
  distinct := h.distinct
  stored := h.stored_resized hr
  known id hid := (h.known id hid).trans_le hr.grows
  small := h.small
  capacity := hr.capacity h.capacity

/-- The pointer that `krealloc` gave is in no slot. -/
theorem presult_unlisted (h : Intact k adds) {heap : Heap (List Byte)} {presult : Ptr} {size : ℕ}
    (hr : Resized k.heap heap k.dev.entry.buffptr presult size) :
    (ids (presult :: slotPtrs k.dev.circularBuffer)).Nodup := by
  have hdistinct := h.distinct
  unfold held at hdistinct
  rcases hr.result with hsame | hnone | hnew
  · cases hid : presult.id? with
    | none =>
      rw [ids_cons_of_no_block hid]
      rwa [ids_cons_of_no_block (hsame.symm.trans hid)] at hdistinct
    | some id =>
      rw [ids_cons_of_block hid]
      rwa [ids_cons_of_block (hsame.symm.trans hid)] at hdistinct
  · rw [ids_cons_of_no_block hnone]
    exact hdistinct.sublist (List.Sublist.filterMap _ (List.sublist_cons_self _ _))
  · rw [ids_cons_of_block hnew, List.nodup_cons]
    refine ⟨?_, hdistinct.sublist (List.Sublist.filterMap _ (List.sublist_cons_self _ _))⟩
    intro hmem
    obtain ⟨p, hp, hid⟩ := List.mem_filterMap.mp hmem
    obtain ⟨e, he, rfl⟩ := List.mem_map.mp hp
    obtain ⟨b, hb⟩ := h.stored e he
    -- a slot with a block holds bytes in it, so the block is older than the new one
    have hne : b ≠ [] := by
      intro hnil
      rw [hb.no_block hnil] at hid
      cases hid
    exact Nat.lt_irrefl _ (Heap.lt_next_of_live (Heap.live_of_read hid (hb.read_eq hne)))

/-- Copying into a block of the right size keeps its size. -/
theorem copyIn_length {bytes data : List Byte} {start : ℕ}
    (hfit : start + data.length ≤ bytes.length) :
    (copyIn bytes start data).length = bytes.length := by
  simp only [copyIn, List.length_append, List.length_take, List.length_drop]
  omega

/-- The copied bytes join the pending entry. -/
theorem append (h : Intact k adds) {heap : Heap (List Byte)} {presult : Ptr} {buf : List Byte}
    (hlen : buf.length < 2 ^ 63)
    (hr : Resized k.heap heap k.dev.entry.buffptr presult (sizeAdd buf.length k.dev.entry.size)) :
    Intact (appendBytes { k with heap } presult buf) adds := by
  have hsmall := h.small
  have hsum : sizeAdd buf.length k.dev.entry.size = k.dev.entry.size + buf.length := by
    rw [sizeAdd_of_lt (by omega), Nat.add_comm]
  have hsum' : sizeAdd k.dev.entry.size buf.length = k.dev.entry.size + buf.length :=
    sizeAdd_of_lt (by omega)
  have hunlisted := h.presult_unlisted hr
  have hlength := hr.length
  rw [hsum] at hlength
  exact {
    fifo := h.fifo
    distinct := hunlisted
    stored := fun e he => by
      obtain ⟨b, hb⟩ := h.stored_resized hr e he
      refine ⟨b, hb.frame fun c hc => ?_⟩
      have hne : presult.id? ≠ e.buffptr.id? :=
        id_ne_of_read hunlisted (List.mem_map_of_mem he) hc
      change (heap.store presult _).read e.buffptr = some c
      rwa [Heap.read_store_of_ne hne]
    known := hr.known h.known
    small := by
      have hfit := hr.small
      change sizeAdd k.dev.entry.size buf.length < 2 ^ 63
      omega
    capacity := by
      refine (Heap.total_store_of_le List.length fun old hold => ?_).trans_lt
        (hr.capacity h.capacity)
      have hold' := hlength old hold
      have hcontents : contents heap presult = old := by simp [contents, hold]
      rw [hcontents, copyIn_length hold'.ge, hold'] }

/-- After the append a live pending block holds as many bytes as the entry says. -/
theorem append_length (h : Intact k adds) {heap : Heap (List Byte)} {presult : Ptr}
    {buf b : List Byte} (hlen : buf.length < 2 ^ 63)
    (hr : Resized k.heap heap k.dev.entry.buffptr presult (sizeAdd buf.length k.dev.entry.size))
    (hb : (appendBytes { k with heap } presult buf).heap.read presult = some b) :
    b.length = (appendBytes { k with heap } presult buf).dev.entry.size := by
  have hsmall := h.small
  change (heap.store presult (copyIn (contents heap presult) k.dev.entry.size buf)).read presult =
    some b at hb
  rw [Heap.read_store] at hb
  obtain ⟨old, hold, rfl⟩ := Option.map_eq_some_iff.mp hb
  have hold' := hr.length old hold
  have hcontents : contents heap presult = old := by simp [contents, hold]
  have hsum : sizeAdd buf.length k.dev.entry.size = k.dev.entry.size + buf.length := by
    rw [sizeAdd_of_lt (by omega), Nat.add_comm]
  have hsum' : sizeAdd k.dev.entry.size buf.length = k.dev.entry.size + buf.length :=
    sizeAdd_of_lt (by omega)
  rw [hcontents, copyIn_length (by omega), hold', hsum]
  exact hsum'.symm

/-- A pending entry that holds its bytes goes into the ring. -/
theorem commit (h : Intact k adds) {b : List Byte} (hb : k.heap.read k.dev.entry.buffptr = some b)
    (hsize : b.length = k.dev.entry.size) (hne : b ≠ []) :
    Intact (commitEntry k) (adds ++ [k.dev.entry]) := by
  have hperm := slotPtrs_addEntry k.dev.circularBuffer k.dev.entry h.fifo.in_lt
  have hdistinct : (ids ((k.dev.circularBuffer.addEntry k.dev.entry).1 ::
      slotPtrs (k.dev.circularBuffer.addEntry k.dev.entry).2)).Nodup :=
    (hperm.filterMap Ptr.id?).nodup_iff.mp h.distinct
  have hentry : Holds k.heap k.dev.entry b :=
    ⟨hsize.symm, fun _ => hb, fun hnil => absurd hnil hne⟩
  exact {
    fifo := h.fifo.addEntry k.dev.entry
    distinct := by
      change (ids (Ptr.null :: slotPtrs (k.dev.circularBuffer.addEntry k.dev.entry).2)).Nodup
      rw [ids_cons_of_no_block rfl]
      exact hdistinct.sublist (List.Sublist.filterMap _ (List.sublist_cons_self _ _))
    stored := fun e he => by
      have hold : ∃ c, Holds k.heap e c := by
        have hforeach : (k.dev.circularBuffer.addEntry k.dev.entry).2.foreach =
            k.dev.circularBuffer.foreach.set k.dev.circularBuffer.inOffs k.dev.entry := by
          unfold CircularBuffer.addEntry CircularBuffer.foreach
          split <;> simp
        change e ∈ (k.dev.circularBuffer.addEntry k.dev.entry).2.foreach at he
        rw [hforeach] at he
        rcases List.mem_or_eq_of_mem_set he with hin | rfl
        · exact h.stored e hin
        · exact ⟨b, hentry⟩
      obtain ⟨c, hc⟩ := hold
      refine ⟨c, hc.frame fun d hd => ?_⟩
      have hnot : (k.dev.circularBuffer.addEntry k.dev.entry).1.id? ≠ e.buffptr.id? :=
        id_ne_of_read hdistinct (List.mem_map_of_mem he) hd
      change (k.heap.free _).read e.buffptr = some d
      rwa [Heap.read_free_of_ne hnot]
    known := fun id hid => by simp [commitEntry, Ptr.id?] at hid
    small := Nat.two_pow_pos 63
    capacity := (Heap.total_free List.length k.heap _).trans_lt h.capacity }

/-- An accepted write adds nothing or one entry to the ring. -/
theorem accept (h : Intact k adds) {heap : Heap (List Byte)} {presult : Ptr} {buf : List Byte}
    (hlen : buf.length < 2 ^ 63)
    (hr : Resized k.heap heap k.dev.entry.buffptr presult (sizeAdd buf.length k.dev.entry.size)) :
    ∃ adds', Intact (acceptBytes { k with heap } presult buf) adds' := by
  have happ := h.append hlen hr
  unfold acceptBytes
  dsimp only
  split
  · rename_i hmem
    -- the scan found a byte, so the block is live
    cases hread : (appendBytes { k with heap } presult buf).heap.read
        (appendBytes { k with heap } presult buf).dev.entry.buffptr with
    | none => simp [contents, hread] at hmem
    | some b =>
      have hne : b ≠ [] := by
        rintro rfl
        simp [contents, hread] at hmem
      exact ⟨_, happ.commit hread (h.append_length hlen hr hread) hne⟩
  · exact ⟨adds, happ⟩

theorem step (h : Intact k adds) (c : Call) : ∃ adds', Intact (perform k c).2 adds' := by
  cases c with
  | read file count env => exact ⟨adds, h.congr (sameData_aesdRead k file count env)⟩
  | llseek file off whence env => exact ⟨adds, h.congr (sameData_aesdLlseek k file off whence env)⟩
  | ioctl file cmd arg seekto env =>
    exact ⟨adds, h.congr (sameData_aesdIoctl k file cmd arg seekto env)⟩
  | write file buf env =>
    change ∃ adds', Intact (aesdWrite k file buf env).2 adds'
    rcases aesdWrite_cases k file buf env with ⟨heq, _⟩ | ⟨presult, heap, _, hk, _, heq⟩ |
      ⟨presult, heap, hlen, hk, _, heq⟩
    · rw [heq]
      exact ⟨adds, h⟩
    · rw [heq]
      exact ⟨adds, (h.faulted (krealloc_resized hk)).congr ⟨rfl, rfl, rfl⟩⟩
    · obtain ⟨adds', hacc⟩ := h.accept hlen (krealloc_resized hk)
      rw [heq]
      exact ⟨adds', hacc.congr ⟨rfl, rfl, rfl⟩⟩

/-- The ring holds what its entries designate. -/
theorem retains (h : Intact k adds) : Retains k adds (adds.map (entryBytes k.heap)) where
  fifo := h.fifo
  length_eq := by simp
  recent i e b he hb hi := by
    obtain ⟨c, hc⟩ := h.stored e (mem_foreach_of_recent h.fifo he hi)
    rw [List.getElem?_map, he, Option.map_some, hc.entryBytes_eq] at hb
    cases hb
    exact hc

/-- The content of the device, for a reader. -/
theorem content_eq (h : Intact k adds) :
    content (adds.map (entryBytes k.heap)) = (ringBytes k).flatten := by
  rw [content, h.retains.ringBytes_eq]

theorem fifo_sizes (h : Intact k adds) :
    k.dev.circularBuffer.fifo.map BufferEntry.size = (ringBytes k).map List.length := by
  rw [h.retains.fifo_sizes, h.retains.ringBytes_eq]

/-- The entries hold part of all allocated bytes. -/
theorem content_lt (h : Intact k adds) : (ringBytes k).flatten.length < 2 ^ 63 := by
  have hweights : ∀ es : List BufferEntry, (∀ e ∈ es, ∃ b, Holds k.heap e b) →
      (es.map BufferEntry.size).sum =
        ((ids (es.map BufferEntry.buffptr)).map (k.heap.weight List.length)).sum ∧
      ∀ id ∈ ids (es.map BufferEntry.buffptr), k.heap.Live id := by
    intro es hes
    induction es with
    | nil => simp [ids]
    | cons e es ih =>
      obtain ⟨⟨b, hb⟩, hrest⟩ := List.forall_mem_cons.mp hes
      obtain ⟨hsum, hlive⟩ := ih hrest
      cases hid : e.buffptr.id? with
      | none =>
        have hnil : b = [] := by
          by_contra hne
          have hread := hb.read_eq hne
          simp [Heap.read, hid] at hread
        simp only [List.map_cons, ids_cons_of_no_block hid]
        refine ⟨?_, hlive⟩
        rw [List.sum_cons, hb.size_eq, hnil, hsum, List.length_nil, Nat.zero_add]
      | some id =>
        have hne : b ≠ [] := by
          intro hnil
          rw [hb.no_block hnil] at hid
          cases hid
        have hread := hb.read_eq hne
        simp only [List.map_cons, ids_cons_of_block hid, List.sum_cons]
        refine ⟨?_, List.forall_mem_cons.mpr ⟨Heap.live_of_read hid hread, hlive⟩⟩
        rw [Heap.weight_of_read List.length hid hread, hb.size_eq, hsum]
  obtain ⟨hsum, hlive⟩ := hweights _ h.stored
  have hdistinct : (ids (slotPtrs k.dev.circularBuffer)).Nodup :=
    h.distinct.sublist (List.Sublist.filterMap _ (List.sublist_cons_self _ _))
  have htotal := Heap.sum_weight_le_total List.length hdistinct hlive
  have hcontent := sum_foreach h.retains
  rw [h.content_eq] at hcontent
  have hcapacity := h.capacity
  unfold slotPtrs at htotal
  omega

end Intact

/-- Whatever calls were made, with whatever outcomes, the ring is intact; of the
code this says something as long as no call has used a freed block. -/
theorem intact_run (calls : List Call) : ∃ adds, Intact (run aesdInitModule calls) adds :=
  @exec_invariant _ _ _ (fun k => ∃ adds, Intact k adds) _ ⟨[], intact_init⟩
    (fun k c t hk ht => by
      obtain ⟨adds, h⟩ := hk
      cases ht
      exact h.step c) _ _ (exec_next aesdInitModule calls)

/-- What calls can leave of the device, with a free mutex and the file anywhere. -/
def deviceAt (calls : List Call) (file : ℕ) (pos : ℤ) : Kernel :=
  ((run aesdInitModule calls).setLock false).setPos file pos

theorem intact_deviceAt (calls : List Call) (file : ℕ) (pos : ℤ) :
    ∃ adds, Intact (deviceAt calls file pos) adds := by
  obtain ⟨adds, h⟩ := intact_run calls
  exact ⟨adds, h.congr ⟨rfl, rfl, rfl⟩⟩

end Aesd.RingIntact
