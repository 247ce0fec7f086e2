import Aesd.RingBuffer
import Aesd.Runs

/-!
The character driver: `aesd_read`, `aesd_write`, `aesd_llseek`, `aesd_ioctl`,
module load and unload. A kernel state is the device, the heap its buffers
live in, and the file position of each open file. What the environment decides
in one call (a bad user range, an interrupted wait, a faulting user copy, the
outcome of `krealloc`) is an argument of the call. Each call reports its return
value, the bytes it copied to the user, and what it did to the device mutex.
-/

namespace Aesd.CharDriver

open Blocks RingBuffer Runs

abbrev Byte := UInt8

def newline : Byte := 10

def EFAULT : ℤ := 14
def EINVAL : ℤ := 22
def ENOTTY : ℤ := 25
def ERESTARTSYS : ℤ := 512

/-- The signed 64-bit value a computation leaves in a `loff_t`. -/
def loff (x : ℤ) : ℤ := Int.bmod x (2 ^ 64)

/-- A `loff_t` passed where `size_t` is expected. -/
def toSize (x : ℤ) : ℕ := (x % 2 ^ 64).toNat

structure AesdDev where
  entry : BufferEntry
  circularBuffer : CircularBuffer
  lock : Bool

structure Kernel where
  dev : AesdDev
  heap : Heap (List Byte)
  fPos : ℕ → ℤ

inductive KreallocOutcome
  | fail
  | inPlace
  | move
  deriving DecidableEq, Repr

/-- What the environment decides in one call. -/
structure Env where
  userRange : Bool := true
  interrupted : Bool := false
  copyFault : Bool := false
  realloc : KreallocOutcome := .move
  deriving DecidableEq, Repr

inductive LockOp
  | lock
  | unlock
  deriving DecidableEq, Repr

/-- `ret` is `none` for a call that sleeps on the device mutex for ever. -/
structure Reply where
  ret : Option ℤ
  lockOps : List LockOp := []
  data : List Byte := []
  deriving DecidableEq, Repr

/-- User buffers lie in the lower half of the address space. -/
def accessOk (env : Env) (count : ℕ) : Bool := env.userRange && decide (count < 2 ^ 63)

/-- A copy of no bytes cannot fault. -/
def copyFaults (env : Env) (count : ℕ) : Bool := env.copyFault && count != 0

def contents (heap : Heap (List Byte)) (p : Ptr) : List Byte := (heap.read p).getD []

/-- The old bytes cut or extended to `size`. The added bytes are unspecified;
nothing reads one before `copy_from_user` has overwritten it. -/
def resize (old : List Byte) (size : ℕ) : List Byte :=
  old.take size ++ List.replicate (size - old.length) 0

/-- `krealloc`: size zero frees and gives the zero-size pointer; a failure
leaves the old block alone; a success may return a new block, and then the old
one is freed. All blocks together stay below half of the address space. -/
def krealloc (heap : Heap (List Byte)) (p : Ptr) (size : ℕ) (outcome : KreallocOutcome) :
    Option (Ptr × Heap (List Byte)) :=
  if size = 0 then some (.zeroSize, heap.free p)
  else if outcome = .fail ∨ 2 ^ 63 ≤ heap.total List.length + size then none
  else if p.id? = none then some (heap.alloc (resize [] size))
  else if outcome = .inPlace then some (p, heap.store p (resize (contents heap p) size))
  else
    let moved := heap.alloc (resize (contents heap p) size)
    some (moved.1, moved.2.free p)

/-- Write `data` into `bytes` from index `start` on. -/
def copyIn (bytes : List Byte) (start : ℕ) (data : List Byte) : List Byte :=
  bytes.take start ++ data ++ bytes.drop (start + data.length)

namespace Kernel

def setLock (k : Kernel) (held : Bool) : Kernel := { k with dev := { k.dev with lock := held } }

def setPos (k : Kernel) (file : ℕ) (pos : ℤ) : Kernel :=
  { k with fPos := fun f => if f = file then pos else k.fPos f }

@[simp] theorem setLock_entry (k : Kernel) (held : Bool) :
    (k.setLock held).dev.entry = k.dev.entry := rfl
@[simp] theorem setLock_circularBuffer (k : Kernel) (held : Bool) :
    (k.setLock held).dev.circularBuffer = k.dev.circularBuffer := rfl
@[simp] theorem setLock_heap (k : Kernel) (held : Bool) : (k.setLock held).heap = k.heap := rfl
@[simp] theorem setLock_fPos (k : Kernel) (held : Bool) : (k.setLock held).fPos = k.fPos := rfl
@[simp] theorem setPos_dev (k : Kernel) (file : ℕ) (pos : ℤ) :
    (k.setPos file pos).dev = k.dev := rfl
@[simp] theorem setPos_fPos_self (k : Kernel) (file : ℕ) (pos : ℤ) :
    (k.setPos file pos).fPos file = pos := by simp [setPos]

@[simp] theorem setPos_self (k : Kernel) (file : ℕ) : k.setPos file (k.fPos file) = k := by
  cases k with
  | mk dev heap fPos =>
    simp only [setPos, Kernel.mk.injEq, true_and]
    funext f
    split
    · rename_i hf
      rw [hf]
    · rfl

/-- Taking and giving back a free mutex changes nothing. -/
theorem setLock_setLock_of_free {k : Kernel} (hk : k.dev.lock = false) (held : Bool) :
    (k.setLock held).setLock false = k := by
  cases k with
  | mk dev heap fPos =>
    cases dev with
    | mk entry circularBuffer lock =>
      change lock = false at hk
      subst hk
      rfl

/-- So does moving the file position in between. -/
theorem setPos_setLock_of_free {k : Kernel} (hk : k.dev.lock = false) (held : Bool) (file : ℕ)
    (pos : ℤ) : ((k.setLock held).setPos file pos).setLock false = k.setPos file pos := by
  have hfree : (k.setPos file pos).dev.lock = false := hk
  exact setLock_setLock_of_free hfree held

end Kernel

/-- A return before the device mutex was taken. -/
def earlyReturn (k : Kernel) (ret : ℤ) : Reply × Kernel := (⟨some ret, [], []⟩, k)

/-- `mutex_unlock(&dev->lock); return retval;` -/
def unlockReturn (k : Kernel) (ret : ℤ) (data : List Byte) : Reply × Kernel :=
  (⟨some ret, [.lock, .unlock], data⟩, k.setLock false)

/-- A return between `mutex_lock_interruptible` and `mutex_unlock`. -/
def lockedReturn (k : Kernel) (ret : ℤ) : Reply × Kernel := (⟨some ret, [.lock], []⟩, k)

/-- `mutex_lock_interruptible`: an interrupted wait takes nothing; a wait for a
mutex that nobody will release does not come back; otherwise the rest of the
call runs with the mutex held. -/
def withLock (k : Kernel) (env : Env) (rest : Kernel → Reply × Kernel) : Reply × Kernel :=
  if env.interrupted then earlyReturn k (-ERESTARTSYS)
  else if k.dev.lock then (⟨none, [], []⟩, k)
  else rest (k.setLock true)

def aesdRead (k : Kernel) (file count : ℕ) (env : Env) : Reply × Kernel :=
  if accessOk env count = false then earlyReturn k (-EINVAL)
  else withLock k env fun k =>
    match k.dev.circularBuffer.findEntryOffsetForFpos (toSize (k.fPos file)) with
    | none => unlockReturn k 0 []
    | some (index, entryOffset) =>
      let entry := k.dev.circularBuffer.slot index
      let left := sizeSub entry.size entryOffset
      let count := if count > left then left else count
      if copyFaults env count then unlockReturn k (-EFAULT) []
      else unlockReturn (k.setPos file (loff (k.fPos file + count))) count
        (((contents k.heap entry.buffptr).drop entryOffset).take count)

/-- A terminated command: into the ring with it, free what it replaced, start
the next command from an empty entry. -/
def commitEntry (k : Kernel) : Kernel :=
  let added := k.dev.circularBuffer.addEntry k.dev.entry
  { k with
    heap := k.heap.free added.1
    dev := { k.dev with circularBuffer := added.2, entry := ⟨.null, 0⟩ } }

/-- The copied user bytes become part of the pending entry, now at `presult`. -/
def appendBytes (k : Kernel) (presult : Ptr) (buf : List Byte) : Kernel :=
  { k with
    heap := k.heap.store presult (copyIn (contents k.heap presult) k.dev.entry.size buf)
    dev := { k.dev with entry := ⟨presult, sizeAdd k.dev.entry.size buf.length⟩ } }

/-- `aesd_write` after a successful copy: append, then look for the newline in
everything pending. -/
def acceptBytes (k : Kernel) (presult : Ptr) (buf : List Byte) : Kernel :=
  let k := appendBytes k presult buf
  if newline ∈ (contents k.heap k.dev.entry.buffptr).take k.dev.entry.size then commitEntry k
  else k

def aesdWrite (k : Kernel) (file : ℕ) (buf : List Byte) (env : Env) : Reply × Kernel :=
  if accessOk env buf.length = false then earlyReturn k (-EINVAL)
  else withLock k env fun k =>
    match krealloc k.heap k.dev.entry.buffptr (sizeAdd buf.length k.dev.entry.size)
        env.realloc with
    | none => unlockReturn k (-EFAULT) []
    | some (presult, heap) =>
      if copyFaults env buf.length then unlockReturn { k with heap } (-EFAULT) []
      else unlockReturn ((acceptBytes { k with heap } presult buf).setPos file
        (loff (k.fPos file + buf.length))) buf.length []

/-- The sum of the sizes of all physical slots, accumulated in a `size_t`. -/
def totalSize (buffer : CircularBuffer) : ℕ :=
  buffer.foreach.foldl (fun size e => sizeAdd size e.size) 0

def SEEK_SET : ℤ := 0
def SEEK_CUR : ℤ := 1
def SEEK_END : ℤ := 2

/-- `newpos` as the `switch` of `aesd_llseek` computes it. -/
def seekTarget (k : Kernel) (file : ℕ) (off whence : ℤ) : Option ℤ :=
  if whence = SEEK_SET then some off
  else if whence = SEEK_CUR then some (loff (k.fPos file + off))
  else if whence = SEEK_END then some (loff (totalSize k.dev.circularBuffer + off))
  else none

def aesdLlseek (k : Kernel) (file : ℕ) (off whence : ℤ) (env : Env) : Reply × Kernel :=
  withLock k env fun k =>
    match seekTarget k file off whence with
    | none => lockedReturn k (-EINVAL)
    | some newpos =>
      if newpos < 0 then lockedReturn k (-EINVAL)
      -- the same test again, this time with the unlock
      else if newpos < 0 then unlockReturn k (-EINVAL) []
      else unlockReturn (k.setPos file newpos) newpos []

def AESD_IOC_MAGIC : UInt32 := 0x16
def AESDCHAR_IOC_MAXNR : UInt32 := 1
def IOC_WRITE : UInt32 := 1
def IOC_READ : UInt32 := 2

def iocType (cmd : UInt32) : UInt32 := (cmd >>> 8) &&& 0xff
def iocNr (cmd : UInt32) : UInt32 := cmd &&& 0xff
def iocDir (cmd : UInt32) : UInt32 := cmd >>> 30

structure AesdSeekto where
  writeCmd : UInt32
  writeCmdOffset : UInt32
  deriving DecidableEq, Repr

/-- `_IOWR(AESD_IOC_MAGIC, 1, struct aesd_seekto)`: both directions, eight bytes. -/
def AESDCHAR_IOCSEEKTO : UInt32 :=
  ((IOC_READ ||| IOC_WRITE) <<< 30) ||| ((8 : UInt32) <<< 16) ||| (AESD_IOC_MAGIC <<< 8) ||| 1

/-- The loop of `aesd_ioctl` over the slots: add whole sizes below `write_cmd`,
then the offset, then stop. `i` is the index of the first slot of the list. -/
def seekPosition (seekto : AesdSeekto) : List BufferEntry → (i size : ℕ) → ℕ
  | [], _, size => size
  | e :: es, i, size =>
    if i < seekto.writeCmd.toNat then seekPosition seekto es (i + 1) (sizeAdd size e.size)
    else sizeAdd size seekto.writeCmdOffset.toNat

/-- The tests of `aesd_ioctl` on the command word, before the mutex. -/
def ioctlError (cmd : UInt32) (env : Env) : Option ℤ :=
  if iocType cmd ≠ AESD_IOC_MAGIC then some (-ENOTTY)
  else if iocNr cmd > AESDCHAR_IOC_MAXNR then some (-ENOTTY)
  else if iocDir cmd &&& IOC_READ ≠ 0 then
    if env.userRange then none else some (-EFAULT)
  else if iocDir cmd &&& IOC_WRITE ≠ 0 then
    if env.userRange then none else some (-EFAULT)
  else none

/-- `seekto` is what the eight bytes at `arg` hold. -/
def aesdIoctl (k : Kernel) (file : ℕ) (cmd : UInt32) (arg : UInt64) (seekto : AesdSeekto)
    (env : Env) : Reply × Kernel :=
  match ioctlError cmd env with
  | some err => earlyReturn k err
  | none => withLock k env fun k =>
    if arg = 0 then lockedReturn k (-EFAULT)
    else if env.copyFault then unlockReturn k (-EFAULT) []
    else if cmd = AESDCHAR_IOCSEEKTO then
      if seekto.writeCmd > 9 then lockedReturn k (-EINVAL)
      else if seekto.writeCmdOffset.toNat ≥
          (k.dev.circularBuffer.slot seekto.writeCmd.toNat).size then
        lockedReturn k (-EINVAL)
      else unlockReturn (k.setPos file
        (loff (seekPosition seekto k.dev.circularBuffer.foreach 0 0))) 0 []
    else unlockReturn k 0 []

/-- The state after `aesd_init_module` succeeded. -/
def aesdInitModule : Kernel where
  dev := { entry := ⟨.null, 0⟩, circularBuffer := CircularBuffer.init, lock := false }
  heap := Heap.empty
  fPos _ := 0

/-- `aesd_cleanup_module` frees the buffer of every ring slot. -/
def aesdCleanupModule (k : Kernel) : Kernel :=
  { k with heap := k.dev.circularBuffer.foreach.foldl (fun h e => h.free e.buffptr) k.heap }

inductive Call
  | read (file count : ℕ) (env : Env)
  | write (file : ℕ) (buf : List Byte) (env : Env)
  | llseek (file : ℕ) (off whence : ℤ) (env : Env)
  | ioctl (file : ℕ) (cmd : UInt32) (arg : UInt64) (seekto : AesdSeekto) (env : Env)
  deriving DecidableEq, Repr

def Call.env : Call → Env
  | .read _ _ env => env
  | .write _ _ env => env
  | .llseek _ _ _ env => env
  | .ioctl _ _ _ _ env => env

def perform (k : Kernel) : Call → Reply × Kernel
  | .read file count env => aesdRead k file count env
  | .write file buf env => aesdWrite k file buf env
  | .llseek file off whence env => aesdLlseek k file off whence env
  | .ioctl file cmd arg seekto env => aesdIoctl k file cmd arg seekto env

/-- The driver as a transition system; every call has an outcome. -/
def next (k : Kernel) (c : Call) : Option Kernel := some (perform k c).2

/-- The state after a sequence of calls. -/
def run (k : Kernel) (calls : List Call) : Kernel :=
  calls.foldl (fun k c => (perform k c).2) k

theorem exec_next (k : Kernel) (calls : List Call) : exec next k calls = some (run k calls) := by
  induction calls generalizing k with
  | nil => rfl
  | cons c cs ih => exact ih (perform k c).2

/-- Every call is taken, so the condition on the first step is a condition on the call. -/
theorem steps_cons {C : Kernel → Call → Prop} {k : Kernel} {c : Call} {cs : List Call} :
    Steps next C k (c :: cs) ↔ C k c ∧ Steps next C (perform k c).2 cs := by
  constructor
  · intro h
    exact h _ rfl
  · intro h t ht
    cases ht
    exact h

/-- What a call can do around the mutex: nothing before it, or the rest of the
call on a mutex that was free. -/
theorem withLock_cases (k : Kernel) (env : Env) (rest : Kernel → Reply × Kernel) :
    (env.interrupted = true ∧ withLock k env rest = earlyReturn k (-ERESTARTSYS)) ∨
    (env.interrupted = false ∧ k.dev.lock = true ∧ withLock k env rest = (⟨none, [], []⟩, k)) ∨
    (env.interrupted = false ∧ k.dev.lock = false ∧
      withLock k env rest = rest (k.setLock true)) := by
  unfold withLock
  by_cases hi : env.interrupted = true
  · exact Or.inl ⟨hi, by rw [if_pos hi]⟩
  · have hi' : env.interrupted = false := by simpa using hi
    by_cases hl : k.dev.lock = true
    · exact Or.inr (Or.inl ⟨hi', hl, by rw [if_neg hi, if_pos hl]⟩)
    · have hl' : k.dev.lock = false := by simpa using hl
      exact Or.inr (Or.inr ⟨hi', hl', by rw [if_neg hi, if_neg hl]⟩)

theorem acceptBytes_setLock (k : Kernel) (held : Bool) (presult : Ptr) (buf : List Byte) :
    acceptBytes (k.setLock held) presult buf = (acceptBytes k presult buf).setLock held := by
  unfold acceptBytes
  dsimp only
  split
  · rename_i hmem
    rw [if_pos (by exact hmem)]
    rfl
  · rename_i hmem
    rw [if_neg (by exact hmem)]
    rfl

/-- A read with a bad range or an interrupted wait fails and does nothing. -/
theorem aesdRead_refused {count : ℕ} {env : Env}
    (h : ¬ (accessOk env count = true ∧ env.interrupted = false)) (k : Kernel) (file : ℕ) :
    ∃ err < 0, aesdRead k file count env = (⟨some err, [], []⟩, k) := by
  unfold aesdRead
  by_cases haccess : accessOk env count = true
  · have hwait : env.interrupted = true := by simpa [haccess] using h
    refine ⟨-ERESTARTSYS, by decide, ?_⟩
    unfold withLock
    rw [if_neg (by simp [haccess]), if_pos hwait]
    rfl
  · refine ⟨-EINVAL, by decide, ?_⟩
    rw [if_pos (by simpa using haccess)]
    rfl

/-- `aesd_write` on a free device. -/
theorem aesdWrite_eq {k : Kernel} {file : ℕ} {buf : List Byte} {env : Env}
    (haccess : accessOk env buf.length = true) (hwait : env.interrupted = false)
    (hfree : k.dev.lock = false) :
    aesdWrite k file buf env =
      match krealloc k.heap k.dev.entry.buffptr (sizeAdd buf.length k.dev.entry.size)
          env.realloc with
      | none => (⟨some (-EFAULT), [.lock, .unlock], []⟩, k)
      | some (presult, heap) =>
        if copyFaults env buf.length then unlockReturn { k with heap } (-EFAULT) []
        else unlockReturn ((acceptBytes { k with heap } presult buf).setPos file
          (loff (k.fPos file + buf.length))) buf.length [] := by
  unfold aesdWrite withLock
  rw [if_neg (by simp [haccess]), if_neg (by simp [hwait]), if_neg (by simp [hfree])]
  simp only [Kernel.setLock_heap, Kernel.setLock_entry, Kernel.setLock_fPos]
  cases krealloc k.heap k.dev.entry.buffptr (sizeAdd buf.length k.dev.entry.size) env.realloc with
  | none => exact Prod.ext rfl (Kernel.setLock_setLock_of_free hfree true)
  | some moved =>
    obtain ⟨presult, heap⟩ := moved
    dsimp only
    split
    · rfl
    · have hcomm := acceptBytes_setLock { k with heap } true presult buf
      change unlockReturn (Kernel.setPos (acceptBytes (Kernel.setLock { k with heap } true) presult
        buf) file _) _ _ = _
      rw [hcomm]
      rfl

/-- A write that does not get as far as `krealloc` does the same in every state
with the same mutex: nothing. -/
theorem aesdWrite_early {k : Kernel} {buf : List Byte} {env : Env}
    (h : ¬ (accessOk env buf.length = true ∧ env.interrupted = false ∧ k.dev.lock = false)) :
    ∃ ret : Option ℤ, (∀ r, ret = some r → r < 0) ∧
      ∀ (k' : Kernel) (file : ℕ), k'.dev.lock = k.dev.lock →
        aesdWrite k' file buf env = (⟨ret, [], []⟩, k') := by
  by_cases haccess : accessOk env buf.length = true
  · by_cases hwait : env.interrupted = true
    · refine ⟨some (-ERESTARTSYS), by simp [ERESTARTSYS], fun k' file _ => ?_⟩
      unfold aesdWrite withLock
      rw [if_neg (by simp [haccess]), if_pos hwait]
      rfl
    · have hheld : k.dev.lock = true := by simpa [haccess, hwait] using h
      refine ⟨none, by simp, fun k' file hlock => ?_⟩
      unfold aesdWrite withLock
      rw [if_neg (by simp [haccess]), if_neg hwait, if_pos (hlock.trans hheld)]
  · refine ⟨some (-EINVAL), by simp [EINVAL], fun k' file _ => ?_⟩
    unfold aesdWrite
    rw [if_pos (by simpa using haccess)]
    rfl

/-- Everything `aesd_write` can do: fail and change nothing, fail on the user
copy after `krealloc` has already acted, or accept the bytes. -/
theorem aesdWrite_cases (k : Kernel) (file : ℕ) (buf : List Byte) (env : Env) :
    ((aesdWrite k file buf env).2 = k ∧ ∀ r, (aesdWrite k file buf env).1.ret = some r → r < 0) ∨
    (∃ presult heap, env.copyFault = true ∧
      krealloc k.heap k.dev.entry.buffptr (sizeAdd buf.length k.dev.entry.size) env.realloc =
        some (presult, heap) ∧
      k.dev.lock = false ∧
      aesdWrite k file buf env = unlockReturn { k with heap } (-EFAULT) []) ∨
    (∃ presult heap, buf.length < 2 ^ 63 ∧
      krealloc k.heap k.dev.entry.buffptr (sizeAdd buf.length k.dev.entry.size) env.realloc =
        some (presult, heap) ∧
      k.dev.lock = false ∧
      aesdWrite k file buf env = unlockReturn ((acceptBytes { k with heap } presult buf).setPos file
        (loff (k.fPos file + buf.length))) buf.length []) := by
  by_cases hreach : accessOk env buf.length = true ∧ env.interrupted = false ∧ k.dev.lock = false
  · obtain ⟨haccess, hwait, hfree⟩ := hreach
    rw [aesdWrite_eq haccess hwait hfree]
    cases krealloc k.heap k.dev.entry.buffptr (sizeAdd buf.length k.dev.entry.size)
        env.realloc with
    | none =>
      left
      exact ⟨rfl, by simp [EFAULT]⟩
    | some moved =>
      obtain ⟨presult, heap⟩ := moved
      right
      dsimp only
      split
      · rename_i hfault
        simp only [copyFaults, Bool.and_eq_true] at hfault
        exact Or.inl ⟨presult, heap, hfault.1, rfl, hfree, rfl⟩
      · have hlen : buf.length < 2 ^ 63 := by
          simp only [accessOk, Bool.and_eq_true, decide_eq_true_eq] at haccess
          exact haccess.2
        exact Or.inr ⟨presult, heap, hlen, rfl, hfree, rfl⟩
  · obtain ⟨ret, hneg, heq⟩ := aesdWrite_early hreach
    rw [heq k file rfl]
    exact Or.inl ⟨rfl, hneg⟩

end Aesd.CharDriver
