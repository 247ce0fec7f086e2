import Aesd.DeviceContents
import Aesd.RingLookup

/-!
Positions and reads on a device that holds a history of commands. Its content is
the concatenation of the last ten; `aesd_read` delivers a stretch of it from the
file position on, `SEEK_END` is its length, and an accepted
`AESDCHAR_IOCSEEKTO` leads to a position inside it.
-/

namespace Aesd.DeviceReads

open Blocks RingBuffer CharDriver DeviceStore DeviceContents Offsets

/-- The bytes a reader of the device can get. -/
def content (closed : List (List Byte)) : List Byte := (closed.rtake 10).flatten

theorem foldl_sizeAdd (es : List BufferEntry) {size : ℕ} (h : size < 2 ^ 64) :
    es.foldl (fun size e => sizeAdd size e.size) size =
      (size + (es.map BufferEntry.size).sum) % 2 ^ 64 := by
  induction es generalizing size with
  | nil => exact (Nat.mod_eq_of_lt h).symm
  | cons e es ih =>
    have hnext : sizeAdd size e.size < 2 ^ 64 := Nat.mod_lt _ (by decide)
    rw [List.foldl_cons, ih hnext, List.map_cons, List.sum_cons, sizeAdd, Nat.mod_add_mod,
      Nat.add_assoc]

section History

variable {k : Kernel} {adds : List BufferEntry} {closed : List (List Byte)}

theorem sum_fifo (h : Retains k adds closed) :
    (k.dev.circularBuffer.fifo.map BufferEntry.size).sum = (content closed).length := by
  rw [h.fifo_sizes, content, List.length_flatten]

theorem sum_foreach (h : Retains k adds closed) :
    (k.dev.circularBuffer.foreach.map BufferEntry.size).sum = (content closed).length := by
  rw [h.fifo.sum_sizes, sum_fifo h]

theorem totalSize_eq (h : Retains k adds closed)
    (hlen : (content closed).length < 2 ^ 64) :
    totalSize k.dev.circularBuffer = (content closed).length := by
  rw [totalSize, foldl_sizeAdd _ (by decide), sum_foreach h, Nat.zero_add, Nat.mod_eq_of_lt hlen]

/-- The entry a position is located in holds the rest of the content from there on. -/
theorem entry_of_locate (h : Retains k adds closed) {pos i r : ℕ}
    (hloc : locate (k.dev.circularBuffer.fifo.map BufferEntry.size) pos = some (i, r)) :
    ∃ piece rest, r < piece.length ∧
      (content closed).drop pos = piece.drop r ++ rest ∧
      Holds k.heap (k.dev.circularBuffer.slot ((k.dev.circularBuffer.outOffs + i) % 10)) piece := by
  rw [h.fifo_sizes] at hloc
  obtain ⟨piece, hpiece, hr, hdrop⟩ := drop_flatten_of_locate hloc
  refine ⟨piece, _, hr, hdrop, ?_⟩
  have hi : i < (closed.rtake 10).length := (List.getElem?_eq_some_iff.mp hpiece).1
  have hlen := h.length_eq
  simp only [List.rtake, List.length_drop] at hi
  have hadd : adds.length - 10 + i < adds.length := by omega
  have hfifo : k.dev.circularBuffer.fifo[i]? = some adds[adds.length - 10 + i] := by
    rw [h.fifo.fifo_eq, List.rtake, List.getElem?_drop, List.getElem?_eq_getElem hadd]
  have hclosed : closed[adds.length - 10 + i]? = some piece := by
    rw [List.rtake, List.getElem?_drop] at hpiece
    rw [hlen]
    exact hpiece
  rw [CircularBuffer.slot_of_fifo hfifo]
  exact h.recent _ _ _ (List.getElem?_eq_getElem hadd) hclosed (by omega)

theorem toSize_natCast {pos : ℕ} (hpos : pos < 2 ^ 64) : toSize pos = pos := by
  unfold toSize
  omega

theorem loff_natCast {pos : ℕ} (hpos : pos < 2 ^ 63) : loff pos = pos := by
  unfold loff
  rw [Int.bmod_eq_of_le] <;> omega

theorem ret_neg {reply : Reply} {err : ℤ} (hret : reply.ret = some err) (herr : err < 0) :
    ∀ ret, reply.ret = some ret → ret < 0 := by
  intro ret h
  rw [hret] at h
  cases h
  exact herr

/-- `aesd_read` on a free device at position `pos`: at the end nothing, else the
rest of the entry the position lies in, cut to the count. -/
theorem aesdRead_eq (h : Retains k adds closed) {file count pos : ℕ} {env : Env}
    (haccess : accessOk env count = true) (hwait : env.interrupted = false)
    (hfree : k.dev.lock = false) (hpos : k.fPos file = pos) (hlt : pos < 2 ^ 63)
    (hlen : (content closed).length < 2 ^ 63) :
    aesdRead k file count env =
      match locate (k.dev.circularBuffer.fifo.map BufferEntry.size) pos with
      | none => (⟨some 0, [.lock, .unlock], []⟩, k)
      | some (i, r) =>
        let entry := k.dev.circularBuffer.slot ((k.dev.circularBuffer.outOffs + i) % 10)
        let n := min count (entry.size - r)
        if copyFaults env n then (⟨some (-EFAULT), [.lock, .unlock], []⟩, k)
        else (⟨some n, [.lock, .unlock], ((contents k.heap entry.buffptr).drop r).take n⟩,
          k.setPos file ↑(pos + n)) := by
  have hsize : toSize ((k.setLock true).fPos file) = pos := by
    rw [Kernel.setLock_fPos, hpos]
    exact toSize_natCast (by omega)
  have hfind : (k.setLock true).dev.circularBuffer.findEntryOffsetForFpos pos =
      (locate (k.dev.circularBuffer.fifo.map BufferEntry.size) pos).map
        fun p => ((k.dev.circularBuffer.outOffs + p.1) % 10, p.2) :=
    h.fifo.find_eq (by omega)
  unfold aesdRead withLock
  rw [if_neg (by simp [haccess]), if_neg (by simp [hwait]), if_neg (by simp [hfree])]
  dsimp only
  rw [hsize, hfind]
  cases hloc : locate (k.dev.circularBuffer.fifo.map BufferEntry.size) pos with
  | none =>
    simp only [Option.map_none, unlockReturn]
    rw [Kernel.setLock_setLock_of_free hfree]
  | some found =>
    obtain ⟨i, r⟩ := found
    obtain ⟨piece, rest, hr, hdrop, hholds⟩ := entry_of_locate h hloc
    have hrpos : r ≤ pos := by
      have hloc' := (locate_eq_some_iff.mp hloc).2.2.2
      omega
    have hrest : piece.length - r + pos ≤ (content closed).length := by
      have hlens := congrArg List.length hdrop
      simp only [List.length_drop, List.length_append] at hlens
      omega
    have hleft : sizeSub ((k.setLock true).dev.circularBuffer.slot
        ((k.dev.circularBuffer.outOffs + i) % 10)).size r =
          (k.dev.circularBuffer.slot ((k.dev.circularBuffer.outOffs + i) % 10)).size - r := by
      rw [Kernel.setLock_circularBuffer, hholds.size_eq]
      exact sizeSub_of_le (by omega) hr.le
    have hmin : (if count > piece.length - r then piece.length - r else count) =
        min count (piece.length - r) := by
      split <;> omega
    dsimp only [Option.map_some]
    rw [hleft, hholds.size_eq, hmin]
    split
    · exact Prod.ext rfl (Kernel.setLock_setLock_of_free hfree true)
    · have hmove : loff ((k.setLock true).fPos file + ↑(min count (piece.length - r))) =
          ↑(pos + min count (piece.length - r)) := by
        rw [Kernel.setLock_fPos, hpos, ← Int.natCast_add]
        exact loff_natCast (by omega)
      rw [hmove, unlockReturn, Kernel.setPos_setLock_of_free hfree]
      rfl

/-- What `aesd_read` can do at position `pos`: nothing, or deliver a stretch of
the content and move behind it. It delivers nothing only for a count of zero or
at the end. -/
theorem aesdRead_cases (h : Retains k adds closed) {file : ℕ} (count : ℕ) {pos : ℕ}
    (env : Env)
    (hpos : k.fPos file = pos) (hlt : pos < 2 ^ 63) (hlen : (content closed).length < 2 ^ 63) :
    ((aesdRead k file count env).2 = k ∧
      ∀ ret, (aesdRead k file count env).1.ret = some ret → ret < 0) ∨
    (∃ data, k.dev.lock = false ∧
      aesdRead k file count env =
        (⟨some data.length, [.lock, .unlock], data⟩, k.setPos file (pos + data.length)) ∧
      data = ((content closed).drop pos).take data.length ∧ data.length ≤ count ∧
      (data = [] → count = 0 ∨ (content closed).length ≤ pos)) := by
  by_cases haccess : accessOk env count = true
  swap
  · left
    unfold aesdRead
    rw [if_pos (by simpa using haccess)]
    exact ⟨rfl, ret_neg rfl (by decide)⟩
  cases hwait : env.interrupted with
  | true =>
    left
    unfold aesdRead withLock
    rw [if_neg (by simp [haccess]), if_pos hwait]
    exact ⟨rfl, ret_neg rfl (by decide)⟩
  | false =>
    cases hfree : k.dev.lock with
    | true =>
      left
      unfold aesdRead withLock
      rw [if_neg (by simp [haccess]), if_neg (by simp [hwait]), if_pos hfree]
      exact ⟨rfl, by simp⟩
    | false =>
      rw [aesdRead_eq h haccess hwait hfree hpos hlt hlen]
      cases hloc : locate (k.dev.circularBuffer.fifo.map BufferEntry.size) pos with
      | none =>
        right
        have hstay : k.setPos file (pos + (([] : List Byte).length : ℤ)) = k := by
          have hself := k.setPos_self file
          simpa [hpos] using hself
        refine ⟨[], rfl, by rw [hstay]; rfl, by simp, by simp, fun _ => Or.inr ?_⟩
        rw [← sum_fifo h]
        exact locate_eq_none_iff.mp hloc
      | some found =>
        obtain ⟨i, r⟩ := found
        obtain ⟨piece, rest, hr, hdrop, hholds⟩ := entry_of_locate h hloc
        dsimp only
        rw [hholds.size_eq, hholds.contents_eq]
        split
        · exact Or.inl ⟨rfl, ret_neg rfl (by decide)⟩
        · right
          have hlength : ((piece.drop r).take (min count (piece.length - r))).length =
              min count (piece.length - r) := by
            rw [List.length_take, List.length_drop]
            omega
          refine ⟨(piece.drop r).take (min count (piece.length - r)), rfl, ?_, ?_, by omega, ?_⟩
          · rw [hlength, Int.natCast_add]
          · rw [hlength, hdrop, List.take_append_of_le_length]
            rw [List.length_drop]
            omega
          · intro hnil
            rw [hnil, List.length_nil] at hlength
            omega

/-- The loop of `aesd_ioctl` adds the sizes before slot `write_cmd` and the offset. -/
theorem seekPosition_eq (seekto : AesdSeekto) (es : List BufferEntry) (i size : ℕ)
    (hi : i ≤ seekto.writeCmd.toNat) {e : BufferEntry}
    (he : es[seekto.writeCmd.toNat - i]? = some e) (hoff : seekto.writeCmdOffset.toNat < e.size)
    (hsum : size + (es.map BufferEntry.size).sum < 2 ^ 64) :
    seekPosition seekto es i size =
      size + ((es.take (seekto.writeCmd.toNat - i)).map BufferEntry.size).sum +
        seekto.writeCmdOffset.toNat := by
  induction es generalizing i size with
  | nil => simp at he
  | cons f es ih =>
    rw [List.map_cons, List.sum_cons] at hsum
    unfold seekPosition
    split
    · rename_i hlt
      have hstep : seekto.writeCmd.toNat - i = seekto.writeCmd.toNat - (i + 1) + 1 := by omega
      have hadd : sizeAdd size f.size = size + f.size := sizeAdd_of_lt (by omega)
      rw [hstep, List.getElem?_cons_succ] at he
      rw [ih (i + 1) _ (by omega) he (by omega), hadd, hstep, List.take_succ_cons, List.map_cons,
        List.sum_cons]
      omega
    · rename_i hge
      have hzero : seekto.writeCmd.toNat - i = 0 := by omega
      rw [hzero, List.getElem?_cons_zero] at he
      cases he
      rw [sizeAdd_of_lt (by omega), hzero]
      rfl

/-- The position lies inside the slot, so inside what all slots hold. -/
theorem seekPosition_lt (seekto : AesdSeekto) {es : List BufferEntry} {e : BufferEntry}
    (he : es[seekto.writeCmd.toNat]? = some e) (hoff : seekto.writeCmdOffset.toNat < e.size)
    (hsum : (es.map BufferEntry.size).sum < 2 ^ 64) :
    seekPosition seekto es 0 0 < (es.map BufferEntry.size).sum := by
  have hlt : seekto.writeCmd.toNat < es.length := (List.getElem?_eq_some_iff.mp he).1
  have hget : es[seekto.writeCmd.toNat] = e := (List.getElem?_eq_some_iff.mp he).2
  have heq := seekPosition_eq seekto es 0 0 (Nat.zero_le _) (by simpa using he) hoff (by omega)
  have hsplit : (es.map BufferEntry.size).sum =
      ((es.take seekto.writeCmd.toNat).map BufferEntry.size).sum +
        (e.size + ((es.drop (seekto.writeCmd.toNat + 1)).map BufferEntry.size).sum) := by
    conv_lhs => rw [← List.take_append_drop seekto.writeCmd.toNat es]
    rw [List.map_append, List.sum_append, List.drop_eq_getElem_cons hlt, hget, List.map_cons,
      List.sum_cons]
  rw [heq, Nat.sub_zero, hsplit]
  omega

theorem ioctlError_neg {cmd : UInt32} {env : Env} {err : ℤ} (h : ioctlError cmd env = some err) :
    err < 0 := by
  unfold ioctlError at h
  split at h
  · cases h
    decide
  · split at h
    · cases h
      decide
    · split at h
      · split at h <;> cases h
        decide
      · split at h
        · split at h <;> cases h
          decide
        · cases h

/-- A command number that passes the first test of the ioctl names a slot. -/
theorem foreach_slot (b : CircularBuffer) {cmd : UInt32} (hcmd : ¬ cmd > 9) :
    b.foreach[cmd.toNat]? = some (b.slot cmd.toNat) := by
  have hlt : cmd.toNat < 10 := by
    have hle := UInt32.le_iff_toNat_le.mp (UInt32.not_lt.mp hcmd)
    exact Nat.lt_succ_of_le hle
  rw [CircularBuffer.foreach_eq, List.getElem?_map, List.getElem?_range hlt]
  rfl

/-- An `AESDCHAR_IOCSEEKTO` fails and leaves the position, or leads into the content. -/
theorem aesdIoctl_cases (h : Retains k adds closed) (file : ℕ) (arg : UInt64)
    (seekto : AesdSeekto) (env : Env) (hlen : (content closed).length < 2 ^ 63) :
    ((aesdIoctl k file AESDCHAR_IOCSEEKTO arg seekto env).2.fPos = k.fPos ∧
      ∀ ret, (aesdIoctl k file AESDCHAR_IOCSEEKTO arg seekto env).1.ret = some ret → ret < 0) ∨
    (∃ pos : ℕ, pos < (content closed).length ∧ k.dev.lock = false ∧
      (aesdIoctl k file AESDCHAR_IOCSEEKTO arg seekto env).1.ret = some 0 ∧
      (aesdIoctl k file AESDCHAR_IOCSEEKTO arg seekto env).2 = k.setPos file pos) := by
  unfold aesdIoctl
  cases herr : ioctlError AESDCHAR_IOCSEEKTO env with
  | some err =>
    exact Or.inl ⟨rfl, ret_neg rfl (ioctlError_neg herr)⟩
  | none =>
    dsimp only
    rcases withLock_cases k env _ with ⟨_, heq⟩ | ⟨_, _, heq⟩ | ⟨_, hfree, heq⟩
    · rw [heq]
      exact Or.inl ⟨rfl, ret_neg rfl (by decide)⟩
    · rw [heq]
      exact Or.inl ⟨rfl, by simp⟩
    · rw [heq]
      split
      · exact Or.inl ⟨rfl, ret_neg rfl (by decide)⟩
      · split
        · exact Or.inl ⟨rfl, ret_neg rfl (by decide)⟩
        · rw [if_pos rfl]
          split
          · exact Or.inl ⟨rfl, ret_neg rfl (by decide)⟩
          · rename_i hcmd
            split
            · exact Or.inl ⟨rfl, ret_neg rfl (by decide)⟩
            · rename_i hoff
              right
              have hslot := foreach_slot k.dev.circularBuffer hcmd
              have hpos := seekPosition_lt seekto hslot (Nat.lt_of_not_le hoff)
                (by rw [sum_foreach h]; omega)
              rw [sum_foreach h] at hpos
              refine ⟨_, hpos, hfree, rfl, ?_⟩
              rw [unlockReturn, Kernel.setPos_setLock_of_free hfree, Kernel.setLock_circularBuffer,
                loff_natCast (by omega)]

/-- An `llseek` that does not fail found the mutex free and went to its target. -/
theorem aesdLlseek_of_nonneg {file : ℕ} {off whence r : ℤ} {env : Env}
    (hret : (aesdLlseek k file off whence env).1.ret = some r) (hr : 0 ≤ r) :
    k.dev.lock = false ∧ seekTarget k file off whence = some r ∧
      (aesdLlseek k file off whence env).2 = k.setPos file r := by
  unfold aesdLlseek at hret ⊢
  rcases withLock_cases k env _ with ⟨_, heq⟩ | ⟨_, _, heq⟩ | ⟨_, hfree, heq⟩
  · rw [heq] at hret
    cases hret
    exact absurd hr (by decide)
  · rw [heq] at hret
    cases hret
  · rw [heq] at hret ⊢
    refine ⟨hfree, ?_⟩
    have htarget : seekTarget (k.setLock true) file off whence = seekTarget k file off whence := rfl
    rw [htarget] at hret ⊢
    cases hseek : seekTarget k file off whence with
    | none =>
      rw [hseek] at hret
      cases hret
      exact absurd hr (by decide)
    | some newpos =>
      rw [hseek] at hret
      dsimp only at hret ⊢
      split at hret
      · cases hret
        exact absurd hr (by decide)
      · rename_i hpos
        cases hret
        rw [if_neg hpos, if_neg hpos]
        exact ⟨rfl, Kernel.setPos_setLock_of_free hfree true file _⟩

end History

end Aesd.DeviceReads
