import Aesd.RingIntact

/-!
Reading a device to its end. Each call of `aesd_read` delivers a stretch of the
content out of one entry and moves the file behind it; a call whose copy faults
leaves everything as it is. So what repeated calls have delivered and what is
still ahead of the file are always the content from the first position on, and
positive counts reach the end.
-/

namespace Aesd.ReadToEnd

open Blocks RingBuffer CharDriver DeviceStore DeviceReads RingIntact Offsets

/-- A call of `aesd_read`. -/
structure Request where
  count : ℕ
  env : Env

/-- A positive count, a user buffer in range, and a wait that is not interrupted. -/
structure Served (request : Request) : Prop where
  positive : 0 < request.count
  access : accessOk request.env request.count = true
  waits : request.env.interrupted = false

/-- The bytes a reader of the device can get, from its first to its last. -/
def deviceBytes (k : Kernel) : List Byte := (ringBytes k).flatten

/-- The call at position `pos` delivered `r` bytes of the content. -/
structure Delivers (k : Kernel) (file count pos r : ℕ) (result : Reply × Kernel) : Prop where
  ret_eq : result.1.ret = some (r : ℤ)
  data_eq : result.1.data = ((deviceBytes k).drop pos).take r
  length_eq : result.1.data.length = r
  le_count : r ≤ count
  inside : 0 < r → ∃ e ∈ k.dev.circularBuffer.fifo, ∃ start, start + r ≤ e.size ∧
    (contents k.heap e.buffptr).length = e.size ∧
    result.1.data = ((contents k.heap e.buffptr).drop start).take r
  moved : result.2 = k.setPos file ↑(pos + r)
  at_end : r = 0 ↔ (deviceBytes k).length ≤ pos

section Step

variable {k : Kernel} {adds : List BufferEntry} {file pos : ℕ} {request : Request}

/-- The sizes in the ring add up to the content. -/
theorem sum_sizes (h : Intact k adds) :
    (k.dev.circularBuffer.fifo.map BufferEntry.size).sum = (deviceBytes k).length := by
  rw [h.fifo_sizes, deviceBytes, List.length_flatten]

/-- From the end of the content on there is nothing to copy, so nothing faults. -/
theorem read_at_end (h : Intact k adds) {count : ℕ} {env : Env}
    (haccess : accessOk env count = true) (hwait : env.interrupted = false)
    (hfree : k.dev.lock = false) (hpos : k.fPos file = pos) (hlt : pos < 2 ^ 63)
    (hend : (deviceBytes k).length ≤ pos) :
    aesdRead k file count env = (⟨some 0, [.lock, .unlock], []⟩, k) := by
  have hlen : (content (adds.map (entryBytes k.heap))).length < 2 ^ 63 := by
    rw [h.content_eq]
    exact h.content_lt
  have hloc : locate (k.dev.circularBuffer.fifo.map BufferEntry.size) pos = none := by
    rw [locate_eq_none_iff, sum_sizes h]
    exact hend
  rw [aesdRead_eq h.retains haccess hwait hfree hpos hlt hlen, hloc]

/-- One served call: a faulted copy changes nothing, any other call delivers. -/
theorem read_cases (h : Intact k adds) (hserved : Served request) (hfree : k.dev.lock = false)
    (hpos : k.fPos file = pos) (hlt : pos < 2 ^ 63) :
    (request.env.copyFault = true ∧ aesdRead k file request.count request.env =
      (⟨some (-EFAULT), [.lock, .unlock], []⟩, k)) ∨
    ∃ r, Delivers k file request.count pos r (aesdRead k file request.count request.env) := by
  have hcontent : content (adds.map (entryBytes k.heap)) = deviceBytes k := h.content_eq
  have hlen : (content (adds.map (entryBytes k.heap))).length < 2 ^ 63 := by
    rw [hcontent]
    exact h.content_lt
  cases hloc : locate (k.dev.circularBuffer.fifo.map BufferEntry.size) pos with
  | none =>
    have hend := locate_eq_none_iff.mp hloc
    rw [sum_sizes h] at hend
    rw [read_at_end h hserved.access hserved.waits hfree hpos hlt hend]
    have hstay : k.setPos file ↑(pos + 0) = k := by
      have hself := k.setPos_self file
      rwa [hpos] at hself
    exact Or.inr ⟨0, rfl, by simp, rfl, Nat.zero_le _, fun h0 => absurd h0 (Nat.lt_irrefl 0),
      hstay.symm, by simp [hend]⟩
  | some found =>
    obtain ⟨i, start⟩ := found
    obtain ⟨piece, rest, hstart, hdrop, hholds⟩ := entry_of_locate h.retains hloc
    have hi : i < k.dev.circularBuffer.fifo.length := by
      simpa using (locate_eq_some_iff.mp hloc).1
    have hin : k.dev.circularBuffer.slot ((k.dev.circularBuffer.outOffs + i) % 10) ∈
        k.dev.circularBuffer.fifo := by
      rw [CircularBuffer.slot_of_fifo (List.getElem?_eq_getElem hi)]
      exact List.getElem_mem hi
    have hbefore : pos < (deviceBytes k).length := by
      by_contra hge
      rw [← sum_sizes h] at hge
      rw [locate_eq_none_iff.mpr (Nat.le_of_not_lt hge)] at hloc
      cases hloc
    rw [hcontent] at hdrop
    have hcount := hserved.positive
    rw [aesdRead_eq h.retains hserved.access hserved.waits hfree hpos hlt hlen, hloc]
    dsimp only
    rw [hholds.size_eq, hholds.contents_eq]
    generalize hn : min request.count (piece.length - start) = n
    split
    · rename_i hfault
      simp only [copyFaults, Bool.and_eq_true] at hfault
      exact Or.inl ⟨hfault.1, rfl⟩
    · have hlength : ((piece.drop start).take n).length = n := by
        rw [List.length_take, List.length_drop]
        omega
      refine Or.inr ⟨n, rfl, ?_, hlength, by omega, fun _ => ?_, rfl, by omega⟩
      · rw [hdrop, List.take_append_of_le_length]
        rw [List.length_drop]
        omega
      · refine ⟨_, hin, start, ?_, ?_, ?_⟩
        · rw [hholds.size_eq]
          omega
        · rw [hholds.contents_eq, hholds.size_eq]
        · rw [hholds.contents_eq]

end Step

section Schedule

variable (k : Kernel) (file : ℕ) (requests : ℕ → Request)

/-- The state before call `n` of a sequence of `aesd_read` calls. -/
def stateAt : ℕ → Kernel
  | 0 => k
  | n + 1 => (aesdRead (stateAt n) file (requests n).count (requests n).env).2

/-- Call `n`. -/
def callAt (n : ℕ) : Reply × Kernel :=
  aesdRead (stateAt k file requests n) file (requests n).count (requests n).env

/-- The bytes of the first `n` calls, put together. -/
def delivered (n : ℕ) : List Byte :=
  ((List.range n).map fun i => (callAt k file requests i).1.data).flatten

theorem delivered_succ (n : ℕ) : delivered k file requests (n + 1) =
    delivered k file requests n ++ (callAt k file requests n).1.data := by
  simp [delivered, List.range_succ]

/-- What is known before call `n`: only the file has moved, and what was
delivered and what is ahead are the content from the start. -/
structure Underway (pos n p : ℕ) : Prop where
  state : stateAt k file requests n = k.setPos file p
  small : p < 2 ^ 63
  rest : delivered k file requests n ++ (deviceBytes k).drop p = (deviceBytes k).drop pos

variable {k file requests} {adds : List BufferEntry} {pos n p : ℕ}

/-- What the call does in that state. -/
theorem Underway.call (h : Underway k file requests pos n p) (hintact : Intact k adds)
    (hserved : Served (requests n)) (hfree : k.dev.lock = false) :
    ((requests n).env.copyFault = true ∧ callAt k file requests n =
      (⟨some (-EFAULT), [.lock, .unlock], []⟩, stateAt k file requests n)) ∨
    ∃ r, Delivers (stateAt k file requests n) file (requests n).count p r
      (callAt k file requests n) := by
  unfold callAt
  rw [h.state]
  have hintact' : Intact (k.setPos file p) adds := hintact.congr ⟨rfl, rfl, rfl⟩
  exact read_cases hintact' hserved hfree (by simp) h.small

theorem setPos_setPos (k : Kernel) (file : ℕ) (a b : ℤ) :
    (k.setPos file a).setPos file b = k.setPos file b := by
  simp only [Kernel.setPos, Kernel.mk.injEq, true_and]
  funext f
  split <;> rfl

/-- A faulted call leaves the file where it is. -/
theorem Underway.faulted (h : Underway k file requests pos n p)
    (hcall : callAt k file requests n =
      (⟨some (-EFAULT), [.lock, .unlock], []⟩, stateAt k file requests n)) :
    Underway k file requests pos (n + 1) p where
  state := by
    change (callAt k file requests n).2 = _
    rw [hcall]
    exact h.state
  small := h.small
  rest := by
    rw [delivered_succ, hcall, List.append_nil]
    exact h.rest

/-- Any other call moves the file behind what it delivered. -/
theorem Underway.delivers (h : Underway k file requests pos n p)
    (hlen : (deviceBytes k).length < 2 ^ 63) {r : ℕ}
    (hcall : Delivers (stateAt k file requests n) file (requests n).count p r
      (callAt k file requests n)) : Underway k file requests pos (n + 1) (p + r) := by
  have hbytes : deviceBytes (stateAt k file requests n) = deviceBytes k := by
    rw [h.state]
    rfl
  have hdata := hcall.data_eq
  have hlength := hcall.length_eq
  rw [hbytes] at hdata
  exact {
    state := by
      change (callAt k file requests n).2 = _
      rw [hcall.moved, h.state, setPos_setPos]
    small := by
      have hsmall := h.small
      rw [hdata, List.length_take, List.length_drop] at hlength
      omega
    rest := by
      rw [delivered_succ, hdata, List.append_assoc, ← List.drop_drop, List.take_append_drop]
      exact h.rest }

theorem underway (hintact : Intact k adds) (hfree : k.dev.lock = false)
    (hpos : k.fPos file = pos) (hlt : pos < 2 ^ 63) (hserved : ∀ n, Served (requests n)) (n : ℕ) :
    ∃ p, Underway k file requests pos n p := by
  induction n with
  | zero =>
    refine ⟨pos, ?_, hlt, by simp [delivered]⟩
    rw [← hpos, Kernel.setPos_self]
    rfl
  | succ n ih =>
    obtain ⟨p, h⟩ := ih
    rcases h.call hintact (hserved n) hfree with ⟨_, hcall⟩ | ⟨r, hcall⟩
    · exact ⟨p, h.faulted hcall⟩
    · exact ⟨p + r, h.delivers hintact.content_lt hcall⟩

/-- Without faults, `n` calls have come to the end or moved by at least `n` bytes. -/
theorem ended_or_moved (hintact : Intact k adds) (hfree : k.dev.lock = false)
    (hpos : k.fPos file = pos) (hlt : pos < 2 ^ 63) (hserved : ∀ n, Served (requests n))
    (hfine : ∀ n, (requests n).env.copyFault = false) (n : ℕ) :
    (∃ i, (callAt k file requests i).1.ret = some 0) ∨
      ∃ p, pos + n ≤ p ∧ Underway k file requests pos n p := by
  induction n with
  | zero =>
    refine Or.inr ⟨pos, le_rfl, ?_, hlt, by simp [delivered]⟩
    rw [← hpos, Kernel.setPos_self]
    rfl
  | succ n ih =>
    rcases ih with hended | ⟨p, hp, h⟩
    · exact Or.inl hended
    · rcases h.call hintact (hserved n) hfree with ⟨hfault, _⟩ | ⟨r, hcall⟩
      · rw [hfine n] at hfault
        cases hfault
      · rcases Nat.eq_zero_or_pos r with rfl | hr
        · exact Or.inl ⟨n, hcall.ret_eq⟩
        · exact Or.inr ⟨p + r, by omega, h.delivers hintact.content_lt hcall⟩

/-- Without faults some call reports the end. -/
theorem exists_end (hintact : Intact k adds) (hfree : k.dev.lock = false)
    (hpos : k.fPos file = pos) (hlt : pos < 2 ^ 63) (hserved : ∀ n, Served (requests n))
    (hfine : ∀ n, (requests n).env.copyFault = false) :
    ∃ n, (callAt k file requests n).1.ret = some 0 := by
  rcases ended_or_moved hintact hfree hpos hlt hserved hfine (deviceBytes k).length with
    hended | ⟨p, hp, h⟩
  · exact hended
  · refine ⟨(deviceBytes k).length, ?_⟩
    rcases h.call hintact (hserved _) hfree with ⟨hfault, _⟩ | ⟨r, hcall⟩
    · rw [hfine] at hfault
      cases hfault
    · have hbytes :
          deviceBytes (stateAt k file requests (deviceBytes k).length) = deviceBytes k := by
        rw [h.state]
        rfl
      have hend := hcall.at_end
      rw [hbytes] at hend
      have hret := hcall.ret_eq
      rw [hend.mpr (by omega)] at hret
      exact hret

/-- A call that reports the end comes when everything has been delivered. -/
theorem Underway.complete (h : Underway k file requests pos n p) (hintact : Intact k adds)
    (hserved : Served (requests n)) (hfree : k.dev.lock = false)
    (hret : (callAt k file requests n).1.ret = some 0) :
    delivered k file requests n = (deviceBytes k).drop pos := by
  rcases h.call hintact hserved hfree with ⟨_, hcall⟩ | ⟨r, hcall⟩
  · rw [hcall] at hret
    cases hret
  · have hzero : r = 0 := by
      have hr := hcall.ret_eq.symm.trans hret
      simpa using hr
    have hbytes : deviceBytes (stateAt k file requests n) = deviceBytes k := by
      rw [h.state]
      rfl
    have hend := hcall.at_end.mp hzero
    rw [hbytes] at hend
    rw [← h.rest, List.drop_eq_nil_of_le hend, List.append_nil]

end Schedule

/-- From any state that calls can leave and any position, whatever the counts:
each call delivers a stretch of the content out of one entry and moves behind
it, or faults and changes nothing; delivered bytes and the bytes ahead are the
content from the start on; and without faults some call reports the end, when
exactly the content from the start on has been delivered. -/
theorem read_to_end (calls : List Call) (file pos : ℕ) (hpos : pos < 2 ^ 63)
    (requests : ℕ → Request) (hserved : ∀ n, Served (requests n)) :
    (∀ n, ∃ p : ℕ,
      stateAt (deviceAt calls file pos) file requests n = (deviceAt calls file pos).setPos file p ∧
      delivered (deviceAt calls file pos) file requests n ++
        (deviceBytes (deviceAt calls file pos)).drop p =
          (deviceBytes (deviceAt calls file pos)).drop pos ∧
      (((requests n).env.copyFault = true ∧ callAt (deviceAt calls file pos) file requests n =
          (⟨some (-EFAULT), [.lock, .unlock], []⟩,
            stateAt (deviceAt calls file pos) file requests n)) ∨
        ∃ r, Delivers (stateAt (deviceAt calls file pos) file requests n) file (requests n).count p
          r (callAt (deviceAt calls file pos) file requests n))) ∧
    ((∀ n, (requests n).env.copyFault = false) →
      ∃ n, (callAt (deviceAt calls file pos) file requests n).1.ret = some 0 ∧
        delivered (deviceAt calls file pos) file requests n =
          (deviceBytes (deviceAt calls file pos)).drop pos) := by
  obtain ⟨adds, hintact⟩ := intact_deviceAt calls file pos
  have hfree : (deviceAt calls file pos).dev.lock = false := rfl
  have hfile : (deviceAt calls file pos).fPos file = pos := by simp [deviceAt]
  refine ⟨fun n => ?_, fun hfine => ?_⟩
  · obtain ⟨p, h⟩ := underway hintact hfree hfile hpos hserved n
    exact ⟨p, h.state, h.rest, h.call hintact (hserved n) hfree⟩
  · obtain ⟨n, hn⟩ := exists_end hintact hfree hfile hpos hserved hfine
    obtain ⟨p, h⟩ := underway hintact hfree hfile hpos hserved n
    exact ⟨n, hn, h.complete hintact (hserved n) hfree hn⟩

/-- Two commands read from the second byte on, one byte a call. -/
theorem read_two_commands : ∃ n,
    delivered (deviceAt [.write 0 [104, 10] {}, .write 0 [105, 10] {}] 1 1) 1
      (fun _ => ⟨1, {}⟩) n = [10, 105, 10] := by
  obtain ⟨n, _, hn⟩ := (read_to_end [.write 0 [104, 10] {}, .write 0 [105, 10] {}] 1 1 (by decide)
    (fun _ => ⟨1, {}⟩) fun _ => ⟨by decide, by decide, rfl⟩).2 fun _ => rfl
  exact ⟨n, hn.trans (by decide)⟩

end Aesd.ReadToEnd
