import Aesd.ReadToEnd

/-!
What command number `write_cmd` is. The header calls it zero referenced, and
reads count from the oldest command; `aesd_ioctl` looks into the physical slots,
for the length of the command and for what lies before it. The two agree as long
as nothing was evicted, and afterwards only where the lengths allow it.
-/

namespace Aesd.SeekCommand

open RingBuffer CircularBuffer CharDriver DeviceStore DeviceReads RingIntact ReadToEnd Offsets

/-- The size of a command counted from the oldest, zero if there is none. -/
def commandSize (buffer : CircularBuffer) (i : ℕ) : ℕ :=
  (buffer.fifo[i]?.map BufferEntry.size).getD 0

/-- The slot and the command of number `write_cmd` both include the offset or
both do not, and if they do, as many bytes lie before the one as before the other. -/
def InOrder (buffer : CircularBuffer) (seekto : AesdSeekto) : Prop :=
  (seekto.writeCmdOffset.toNat < commandSize buffer seekto.writeCmd.toNat ↔
    seekto.writeCmdOffset.toNat < (buffer.slot seekto.writeCmd.toNat).size) ∧
  (seekto.writeCmdOffset.toNat < commandSize buffer seekto.writeCmd.toNat →
    startOf buffer.foreach seekto.writeCmd.toNat = startOf buffer.fifo seekto.writeCmd.toNat)

instance (buffer : CircularBuffer) (seekto : AesdSeekto) : Decidable (InOrder buffer seekto) := by
  unfold InOrder
  infer_instance

/-- The byte that a pair names: the commands are counted from the oldest. -/
def byteAt (k : Kernel) (seekto : AesdSeekto) : Option Byte :=
  (ringBytes k)[seekto.writeCmd.toNat]?.bind (·[seekto.writeCmdOffset.toNat]?)

/-- The file went from `k` to the byte that the pair names, and reads go on there. -/
structure Sought (k : Kernel) (file : ℕ) (seekto : AesdSeekto) (byte : Byte)
    (result : Reply × Kernel) : Prop where
  ret_eq : result.1.ret = some 0
  pos_eq : result.2.fPos file = ↑((((ringBytes k).take seekto.writeCmd.toNat).map List.length).sum +
    seekto.writeCmdOffset.toNat)
  reads : ∀ request, Served request → request.env.copyFault = false →
    (aesdRead result.2 file request.count request.env).1.data.head? = some byte

/-- What the pair asks for: a byte of a retained command, or nothing. -/
def SeeksRight (k : Kernel) (file : ℕ) (seekto : AesdSeekto) (result : Reply × Kernel) : Prop :=
  match byteAt k seekto with
  | some byte => Sought k file seekto byte result
  | none => result.1.ret = some (-EINVAL) ∧ result.2.fPos = k.fPos

section Commands

variable {k : Kernel} {adds : List BufferEntry} {seekto : AesdSeekto} {file : ℕ}

theorem startOf_fifo (h : Intact k adds) (i : ℕ) :
    startOf k.dev.circularBuffer.fifo i = (((ringBytes k).take i).map List.length).sum := by
  rw [startOf, List.map_take, h.fifo_sizes, List.map_take]

theorem commandSize_eq (h : Intact k adds) (i : ℕ) :
    commandSize k.dev.circularBuffer i = ((ringBytes k)[i]?.map List.length).getD 0 := by
  rw [commandSize, ← List.getElem?_map, h.fifo_sizes, List.getElem?_map]

theorem byteAt_eq_none_iff (h : Intact k adds) :
    byteAt k seekto = none ↔
      commandSize k.dev.circularBuffer seekto.writeCmd.toNat ≤ seekto.writeCmdOffset.toNat := by
  rw [commandSize_eq h, byteAt]
  cases (ringBytes k)[seekto.writeCmd.toNat]? <;> simp

/-- The byte named is the one at its offset behind the older commands. -/
theorem content_at (h : Intact k adds) {byte : Byte} (hbyte : byteAt k seekto = some byte) :
    (deviceBytes k)[startOf k.dev.circularBuffer.fifo seekto.writeCmd.toNat +
      seekto.writeCmdOffset.toNat]? = some byte := by
  have hloc : locate ((ringBytes k).map List.length)
      (startOf k.dev.circularBuffer.fifo seekto.writeCmd.toNat + seekto.writeCmdOffset.toNat) =
        some (seekto.writeCmd.toNat, seekto.writeCmdOffset.toNat) := by
    obtain ⟨command, hcommand, hin⟩ := Option.bind_eq_some_iff.mp hbyte
    obtain ⟨hi, rfl⟩ := List.getElem?_eq_some_iff.mp hcommand
    obtain ⟨ho, _⟩ := List.getElem?_eq_some_iff.mp hin
    rw [locate_eq_some_iff, startOf_fifo h, ← List.map_take, ← List.map_take, List.take_add_one,
      hcommand, List.length_map]
    simp only [Option.toList_some, List.map_append, List.sum_append, List.map_singleton,
      List.sum_singleton]
    omega
  obtain ⟨found, hfound, hpiece⟩ := getElem?_flatten_of_locate hloc
  rw [deviceBytes, hfound]
  exact hpiece.symm.trans hbyte

/-- A served read inside the content starts with the byte at the position. -/
theorem read_head (h : Intact k adds) (hfree : k.dev.lock = false) {pos : ℕ} {byte : Byte}
    (hbyte : (deviceBytes k)[pos]? = some byte) {request : Request} (hserved : Served request)
    (hcopy : request.env.copyFault = false) :
    (aesdRead (k.setPos file pos) file request.count request.env).1.data.head? = some byte := by
  have hat : Intact (k.setPos file pos) adds := h.congr ⟨rfl, rfl, rfl⟩
  have hin : pos < (deviceBytes k).length := (List.getElem?_eq_some_iff.mp hbyte).1
  have hlen : (deviceBytes k).length < 2 ^ 63 := h.content_lt
  rcases read_cases hat hserved hfree (k.setPos_fPos_self file pos) (by omega) with
    ⟨hfault, _⟩ | ⟨r, hcall⟩
  · rw [hcopy] at hfault
    cases hfault
  · have hmoves : r ≠ 0 := fun hzero => Nat.not_le_of_lt hin (hcall.at_end.mp hzero)
    rw [hcall.data_eq, List.head?_take, if_neg hmoves, List.head?_drop]
    exact hbyte

/-- `AESDCHAR_IOCSEEKTO` on a free device, for a pair that was copied: both tests
and the sum look at the physical slots. -/
theorem aesdIoctl_eq (h : Intact k adds) (hfree : k.dev.lock = false) {arg : UInt64}
    (harg : arg ≠ 0) {env : Env} (hrange : env.userRange = true)
    (hwait : env.interrupted = false) (hcopy : env.copyFault = false) :
    aesdIoctl k file AESDCHAR_IOCSEEKTO arg seekto env =
      if (k.dev.circularBuffer.slot seekto.writeCmd.toNat).size ≤ seekto.writeCmdOffset.toNat then
        (⟨some (-EINVAL), [.lock], []⟩, k.setLock true)
      else (⟨some 0, [.lock, .unlock], []⟩,
        k.setPos file ↑(startOf k.dev.circularBuffer.foreach seekto.writeCmd.toNat +
          seekto.writeCmdOffset.toNat)) := by
  have herr : ioctlError AESDCHAR_IOCSEEKTO env = none := by
    unfold ioctlError
    rw [if_neg (by decide), if_neg (by decide), if_pos (by decide), if_pos hrange]
  unfold aesdIoctl
  rw [herr]
  dsimp only
  unfold withLock
  rw [if_neg (by simp [hwait]), if_neg (by simp [hfree])]
  dsimp only
  rw [if_neg harg, if_neg (by simp [hcopy]), if_pos rfl, Kernel.setLock_circularBuffer]
  by_cases hcmd : seekto.writeCmd > 9
  · have hbeyond : k.dev.circularBuffer.slot seekto.writeCmd.toNat = zeroEntry := by
      have hge : 9 < seekto.writeCmd.toNat := UInt32.lt_iff_toNat_lt.mp hcmd
      unfold slot
      rw [Vector.getElem?_eq_none (Nat.succ_le_of_lt hge), Option.getD_none]
    rw [if_pos hcmd, hbeyond]
    exact (if_pos (Nat.zero_le _)).symm
  · rw [if_neg hcmd]
    split
    · rfl
    · rename_i hoff
      have hslot := foreach_slot k.dev.circularBuffer hcmd
      have hlen := h.content_lt
      have hsum := sum_foreach h.retains
      rw [h.content_eq] at hsum
      have hpos := seekPosition_eq seekto _ 0 0 (Nat.zero_le _) (by simpa using hslot)
        (Nat.lt_of_not_le hoff) (by omega)
      have hin := seekPosition_lt seekto hslot (Nat.lt_of_not_le hoff) (by omega)
      rw [Nat.sub_zero, Nat.zero_add] at hpos
      rw [loff_natCast (by omega), hpos, unlockReturn, Kernel.setPos_setLock_of_free hfree]
      rfl

/-- The call does right in exactly the ordered cases. -/
theorem seeksRight_iff (h : Intact k adds) (hfree : k.dev.lock = false) {arg : UInt64}
    (harg : arg ≠ 0) {env : Env} (hrange : env.userRange = true)
    (hwait : env.interrupted = false) (hcopy : env.copyFault = false) :
    SeeksRight k file seekto (aesdIoctl k file AESDCHAR_IOCSEEKTO arg seekto env) ↔
      InOrder k.dev.circularBuffer seekto := by
  have hbyte := @byteAt_eq_none_iff _ _ seekto h
  rw [aesdIoctl_eq h hfree harg hrange hwait hcopy, SeeksRight, InOrder]
  cases hat : byteAt k seekto with
  | none =>
    have hout := hbyte.mp hat
    dsimp only
    split
    · rename_i hoff
      exact iff_of_true ⟨rfl, rfl⟩ ⟨by omega, fun hin => by omega⟩
    · rename_i hoff
      refine iff_of_false (fun hright => ?_) (fun hord => by omega)
      cases hright.1
  | some byte =>
    have hin : seekto.writeCmdOffset.toNat <
        commandSize k.dev.circularBuffer seekto.writeCmd.toNat := by
      by_contra hge
      rw [hbyte.mpr (Nat.le_of_not_lt hge)] at hat
      cases hat
    dsimp only
    split
    · rename_i hoff
      refine iff_of_false (fun hright => ?_) (fun hord => by omega)
      cases hright.ret_eq
    · rename_i hoff
      constructor
      · intro hright
        have hpos := hright.pos_eq
        rw [Kernel.setPos_fPos_self, ← startOf_fifo h] at hpos
        exact ⟨by omega, fun _ => by omega⟩
      · rintro ⟨_, hbefore⟩
        rw [hbefore hin]
        exact {
          ret_eq := rfl
          pos_eq := by rw [Kernel.setPos_fPos_self, startOf_fifo h]
          reads := fun request hserved hsound =>
            read_head h hfree (content_at h hat) hserved hsound }

end Commands

/-- As long as the oldest command is in slot zero, every pair is answered in order. -/
theorem inOrder_of_outOffs {buffer : CircularBuffer} {adds : List BufferEntry}
    (h : buffer.FifoOf adds) (hout : buffer.outOffs = 0) (seekto : AesdSeekto) :
    InOrder buffer seekto := by
  have hslots : buffer.foreach = buffer.fifo ++ List.replicate (10 - adds.length) zeroEntry := by
    rw [← h.fromOut_eq, foreach_eq, fromOut, hout]
    apply List.map_congr_left
    intro i hi
    rw [Nat.zero_add, Nat.mod_eq_of_lt (List.mem_range.mp hi)]
  have hslot : (buffer.slot seekto.writeCmd.toNat).size =
      commandSize buffer seekto.writeCmd.toNat := by
    have hget : buffer.slot seekto.writeCmd.toNat =
        buffer.foreach[seekto.writeCmd.toNat]?.getD zeroEntry := by
      simp [slot, foreach]
    rw [hget, hslots, List.getElem?_append, commandSize]
    split
    · rename_i hlt
      rw [List.getElem?_eq_getElem hlt]
      rfl
    · rename_i hge
      rw [List.getElem?_eq_none (Nat.le_of_not_lt hge), List.getElem?_replicate]
      split <;> rfl
  have hstart : startOf buffer.foreach seekto.writeCmd.toNat =
      startOf buffer.fifo seekto.writeCmd.toNat := by
    rw [hslots, startOf, List.take_append, List.map_append, List.sum_append, List.take_replicate,
      List.map_replicate, List.sum_replicate]
    simp [startOf, zeroEntry]
  exact ⟨by rw [hslot], fun _ => hstart⟩

/-- In every state that calls can leave, for every pair copied: the seek goes to
the byte of the command counted from the oldest, or fails if there is none,
exactly in the ordered cases. -/
theorem seeksRight_ioctl_iff (calls : List Call) (file : ℕ) (pos : ℤ) (seekto : AesdSeekto)
    {arg : UInt64} (harg : arg ≠ 0) {env : Env} (hrange : env.userRange = true)
    (hwait : env.interrupted = false) (hcopy : env.copyFault = false) :
    SeeksRight (deviceAt calls file pos) file seekto
        (aesdIoctl (deviceAt calls file pos) file AESDCHAR_IOCSEEKTO arg seekto env) ↔
      InOrder (deviceAt calls file pos).dev.circularBuffer seekto := by
  obtain ⟨adds, h⟩ := intact_deviceAt calls file pos
  exact seeksRight_iff h rfl harg hrange hwait hcopy

/-- Two commands, nothing evicted. -/
theorem seeksRight_two_commands :
    SeeksRight (deviceAt [.write 0 [104, 10] {}, .write 0 [105, 10] {}] 0 4) 0 ⟨1, 1⟩
      (aesdIoctl (deviceAt [.write 0 [104, 10] {}, .write 0 [105, 10] {}] 0 4) 0
        AESDCHAR_IOCSEEKTO 1 ⟨1, 1⟩ {}) :=
  (seeksRight_ioctl_iff [.write 0 [104, 10] {}, .write 0 [105, 10] {}] 0 4 ⟨1, 1⟩ (by decide) rfl
    rfl rfl).mpr (by decide)

/-- Ten empty lines, then a longer command in the slot of the oldest: the second
oldest command begins at position one, the seek goes to position two. -/
theorem seek_after_eviction_wrong :
    ¬ SeeksRight (deviceAt (List.replicate 10 (.write 0 [10] {}) ++ [.write 0 [97, 10] {}]) 0 0) 0
      ⟨1, 0⟩ (aesdIoctl
        (deviceAt (List.replicate 10 (.write 0 [10] {}) ++ [.write 0 [97, 10] {}]) 0 0) 0
        AESDCHAR_IOCSEEKTO 1 ⟨1, 0⟩ {}) := by
  have hbyte : byteAt (deviceAt (List.replicate 10 (.write 0 [10] {}) ++
      [.write 0 [97, 10] {}]) 0 0) ⟨1, 0⟩ = some 10 := by decide
  intro hright
  rw [SeeksRight, hbyte] at hright
  exact absurd hright.pos_eq (by decide)

end Aesd.SeekCommand
