import Aesd.CriticalSections
import Aesd.FailedWrites
import Aesd.LockReturn

/-!
The driver called by many threads at once. Between `mutex_lock_interruptible`
and its return a call takes small steps, about one for each statement of the
source and one for each turn of a loop; the calls of other threads arrive, wait,
give up waiting and return in between. `file` names the position that a call
works on. The atomic calls of the driver model are what the small steps add up
to, so every interleaving has the replies and the final device of the calls made
one after another.
-/

namespace Aesd.DriverThreads

open Blocks RingBuffer CharDriver FailedWrites CriticalSections Runs

/-- Where a call is that holds the device mutex, with its local variables. -/
inductive Local
  | read (file count : ℕ) (env : Env)
  | readFind (file count : ℕ) (env : Env) (steps index charOffset : ℕ)
  | readClamp (file count : ℕ) (env : Env) (index entryOffset : ℕ)
  | readCopy (file count : ℕ) (env : Env) (index entryOffset : ℕ)
  | readAdvance (file count : ℕ) (data : List Byte)
  | write (file : ℕ) (buf : List Byte) (env : Env)
  | writeCopy (file : ℕ) (buf : List Byte) (env : Env) (presult : Ptr)
  | writeEntry (file : ℕ) (buf : List Byte) (presult : Ptr)
  | writeScan (file : ℕ) (buf : List Byte)
  | writeAdd (file : ℕ) (buf : List Byte)
  | writeFree (file : ℕ) (buf : List Byte) (replacedBuffer : Ptr)
  | writeClear (file : ℕ) (buf : List Byte)
  | writeAdvance (file : ℕ) (buf : List Byte)
  | llseekSum (file : ℕ) (off whence : ℤ) (i size : ℕ)
  | llseekSwitch (file : ℕ) (off whence : ℤ) (size : ℕ)
  | llseekCheck (file : ℕ) (newpos : ℤ)
  | llseekCheckAgain (file : ℕ) (newpos : ℤ)
  | llseekSet (file : ℕ) (newpos : ℤ)
  | ioctl (file : ℕ) (cmd : UInt32) (arg : UInt64) (seekto : AesdSeekto) (env : Env)
  | ioctlCheck (file : ℕ) (cmd : UInt32) (seekto : AesdSeekto)
  | ioctlSum (file : ℕ) (seekto : AesdSeekto) (i size : ℕ)
  | ioctlSet (file size : ℕ)
  | unlock (ret : ℤ) (data : List Byte)

/-- The `switch` of `aesd_llseek`, with the sum of the sizes in a local. -/
def switchTarget (fPos : ℤ) (size : ℕ) (off whence : ℤ) : Option ℤ :=
  if whence = SEEK_SET then some off
  else if whence = SEEK_CUR then some (loff (fPos + off))
  else if whence = SEEK_END then some (loff (size + off))
  else none

/-- `return retval;` with the mutex held. -/
def leaveLocked (k : Kernel) (ret : ℤ) : Micro Local Kernel Reply :=
  .leave ⟨some ret, [.lock], []⟩ k

def body : Local → Kernel → Micro Local Kernel Reply
  | .read file count env, k =>
    .goOn (.readFind file count env AESDCHAR_MAX_WRITE_OPERATIONS_SUPPORTED
      k.dev.circularBuffer.outOffs (toSize (k.fPos file))) k
  | .readFind _ _ _ 0 _ _, k => .goOn (.unlock 0 []) k
  | .readFind file count env (steps + 1) index charOffset, k =>
    if charOffset < (k.dev.circularBuffer.slot index).size then
      .goOn (.readClamp file count env index charOffset) k
    else .goOn (.readFind file count env steps
      ((index + 1) % AESDCHAR_MAX_WRITE_OPERATIONS_SUPPORTED)
      (sizeSub charOffset (k.dev.circularBuffer.slot index).size)) k
  | .readClamp file count env index entryOffset, k =>
    let left := sizeSub (k.dev.circularBuffer.slot index).size entryOffset
    .goOn (.readCopy file (if count > left then left else count) env index entryOffset) k
  | .readCopy file count env index entryOffset, k =>
    if copyFaults env count then .goOn (.unlock (-EFAULT) []) k
    else .goOn (.readAdvance file count
      (((contents k.heap (k.dev.circularBuffer.slot index).buffptr).drop entryOffset).take count)) k
  | .readAdvance file count data, k =>
    .goOn (.unlock count data) (k.setPos file (loff (k.fPos file + count)))
  | .write file buf env, k =>
    match krealloc k.heap k.dev.entry.buffptr (sizeAdd buf.length k.dev.entry.size)
        env.realloc with
    | none => .goOn (.unlock (-EFAULT) []) k
    | some (presult, heap) => .goOn (.writeCopy file buf env presult) { k with heap }
  | .writeCopy file buf env presult, k =>
    if copyFaults env buf.length then .goOn (.unlock (-EFAULT) []) k
    else .goOn (.writeEntry file buf presult) { k with
      heap := k.heap.store presult (copyIn (contents k.heap presult) k.dev.entry.size buf) }
  | .writeEntry file buf presult, k =>
    .goOn (.writeScan file buf) { k with
      dev := { k.dev with entry := ⟨presult, sizeAdd k.dev.entry.size buf.length⟩ } }
  | .writeScan file buf, k =>
    if newline ∈ (contents k.heap k.dev.entry.buffptr).take k.dev.entry.size then
      .goOn (.writeAdd file buf) k
    else .goOn (.writeAdvance file buf) k
  | .writeAdd file buf, k =>
    let added := k.dev.circularBuffer.addEntry k.dev.entry
    .goOn (.writeFree file buf added.1) { k with dev := { k.dev with circularBuffer := added.2 } }
  | .writeFree file buf replacedBuffer, k =>
    .goOn (.writeClear file buf) { k with heap := k.heap.free replacedBuffer }
  | .writeClear file buf, k =>
    .goOn (.writeAdvance file buf) { k with dev := { k.dev with entry := ⟨.null, 0⟩ } }
  | .writeAdvance file buf, k =>
    .goOn (.unlock buf.length []) (k.setPos file (loff (k.fPos file + buf.length)))
  | .llseekSum file off whence i size, k =>
    if i < AESDCHAR_MAX_WRITE_OPERATIONS_SUPPORTED then
      .goOn (.llseekSum file off whence (i + 1) (sizeAdd size (k.dev.circularBuffer.slot i).size)) k
    else .goOn (.llseekSwitch file off whence size) k
  | .llseekSwitch file off whence size, k =>
    match switchTarget (k.fPos file) size off whence with
    | none => leaveLocked k (-EINVAL)
    | some newpos => .goOn (.llseekCheck file newpos) k
  | .llseekCheck file newpos, k =>
    if newpos < 0 then leaveLocked k (-EINVAL) else .goOn (.llseekCheckAgain file newpos) k
  | .llseekCheckAgain file newpos, k =>
    if newpos < 0 then .goOn (.unlock (-EINVAL) []) k else .goOn (.llseekSet file newpos) k
  | .llseekSet file newpos, k => .goOn (.unlock newpos []) (k.setPos file newpos)
  | .ioctl file cmd arg seekto env, k =>
    if arg = 0 then leaveLocked k (-EFAULT)
    else if env.copyFault then .goOn (.unlock (-EFAULT) []) k
    else .goOn (.ioctlCheck file cmd seekto) k
  | .ioctlCheck file cmd seekto, k =>
    if cmd = AESDCHAR_IOCSEEKTO then
      if seekto.writeCmd > 9 then leaveLocked k (-EINVAL)
      else if seekto.writeCmdOffset.toNat ≥
          (k.dev.circularBuffer.slot seekto.writeCmd.toNat).size then
        leaveLocked k (-EINVAL)
      else .goOn (.ioctlSum file seekto 0 0) k
    else .goOn (.unlock 0 []) k
  | .ioctlSum file seekto i size, k =>
    if i < AESDCHAR_MAX_WRITE_OPERATIONS_SUPPORTED then
      if i < seekto.writeCmd.toNat then
        .goOn (.ioctlSum file seekto (i + 1) (sizeAdd size (k.dev.circularBuffer.slot i).size)) k
      else .goOn (.ioctlSet file (sizeAdd size seekto.writeCmdOffset.toNat)) k
    else .goOn (.ioctlSet file size) k
  | .ioctlSet file size, k => .goOn (.unlock 0 []) (k.setPos file (loff size))
  | .unlock ret data, k => .leave ⟨some ret, [.lock, .unlock], data⟩ (k.setLock false)

/-- Where a call starts once it holds the mutex. -/
def start : Call → Local
  | .read file count env => .read file count env
  | .write file buf env => .write file buf env
  | .llseek file off whence _ => .llseekSum file off whence 0 0
  | .ioctl file cmd arg seekto env => .ioctl file cmd arg seekto env

/-- The error a call returns before it comes to the mutex. -/
def refusal : Call → Option ℤ
  | .read _ count env => if accessOk env count = false then some (-EINVAL) else none
  | .write _ buf env => if accessOk env buf.length = false then some (-EINVAL) else none
  | .llseek _ _ _ _ => none
  | .ioctl _ cmd _ _ env => ioctlError cmd env

/-- The driver as an object under its mutex. A wait that is interrupted gives
`-ERESTARTSYS`. -/
def driver : Object Call Local Kernel Reply where
  free k := !k.dev.lock
  take k := k.setLock true
  mayEnter c := (refusal c).isNone
  early c := ⟨some ((refusal c).getD (-ERESTARTSYS)), [], []⟩
  start := start
  body := body

/-- The call with its wait for the mutex interrupted, or not. -/
def interrupt (interrupted : Bool) : Call → Call
  | .read file count env => .read file count { env with interrupted }
  | .write file buf env => .write file buf { env with interrupted }
  | .llseek file off whence env => .llseek file off whence { env with interrupted }
  | .ioctl file cmd arg seekto env => .ioctl file cmd arg seekto { env with interrupted }

/-- The whole call in one step. -/
def whole (c : Call) (k : Kernel) : Reply × Kernel := perform k (interrupt false c)

section Leads

variable {k : Kernel} {file : ℕ} {env : Env}

theorem leads_unlock (k : Kernel) (ret : ℤ) (data : List Byte) :
    Leads body (.unlock ret data) k (unlockReturn k ret data) := Leads.leave rfl

theorem leads_leaveLocked {l : Local} {ret : ℤ} (h : body l k = leaveLocked k ret) :
    Leads body l k (lockedReturn k ret) := Leads.leave h

/-- What `aesd_read` does with the result of the search. -/
def afterFind (k : Kernel) (file count : ℕ) (env : Env) : Option (ℕ × ℕ) → Reply × Kernel
  | none => unlockReturn k 0 []
  | some (index, entryOffset) =>
    let entry := k.dev.circularBuffer.slot index
    let left := sizeSub entry.size entryOffset
    let count := if count > left then left else count
    if copyFaults env count then unlockReturn k (-EFAULT) []
    else unlockReturn (k.setPos file (loff (k.fPos file + count))) count
      (((contents k.heap entry.buffptr).drop entryOffset).take count)

theorem leads_readCopy (count index entryOffset : ℕ) :
    Leads body (.readCopy file count env index entryOffset) k
      (if copyFaults env count then unlockReturn k (-EFAULT) []
        else unlockReturn (k.setPos file (loff (k.fPos file + count))) count
          (((contents k.heap (k.dev.circularBuffer.slot index).buffptr).drop entryOffset).take
            count)) := by
  by_cases hfault : copyFaults env count = true
  · rw [if_pos hfault]
    exact Leads.goOn (by rw [body, if_pos hfault]) (leads_unlock ..)
  · rw [if_neg hfault]
    exact Leads.goOn (by rw [body, if_neg hfault]) (Leads.goOn rfl (leads_unlock ..))

/-- The search loop, by induction on the turns left. -/
theorem leads_readFind (count steps index charOffset : ℕ) :
    Leads body (.readFind file count env steps index charOffset) k
      (afterFind k file count env (k.dev.circularBuffer.findFrom steps index charOffset)) := by
  induction steps generalizing index charOffset with
  | zero => exact Leads.goOn rfl (leads_unlock ..)
  | succ steps ih =>
    rw [CircularBuffer.findFrom]
    split
    · rename_i hfound
      exact Leads.goOn (by rw [body, if_pos hfound]) (Leads.goOn rfl (leads_readCopy ..))
    · rename_i hfound
      exact Leads.goOn (by rw [body, if_neg hfound]) (ih _ _)

/-- From the scan for the newline on, `acceptBytes` and the step of the position. -/
theorem leads_writeEntry (buf : List Byte) (presult : Ptr) :
    Leads body (.writeEntry file buf presult)
      { k with
        heap := k.heap.store presult (copyIn (contents k.heap presult) k.dev.entry.size buf) }
      (unlockReturn ((acceptBytes k presult buf).setPos file (loff (k.fPos file + buf.length)))
        buf.length []) := by
  refine Leads.goOn rfl ?_
  unfold acceptBytes
  change Leads body (.writeScan file buf) (appendBytes k presult buf) _
  dsimp only
  split
  · rename_i hscan
    refine Leads.goOn (by rw [body, if_pos hscan]) ?_
    exact Leads.goOn rfl (Leads.goOn rfl (Leads.goOn rfl (Leads.goOn rfl (leads_unlock ..))))
  · rename_i hscan
    refine Leads.goOn (by rw [body, if_neg hscan]) ?_
    exact Leads.goOn rfl (leads_unlock ..)

/-- The slots from `i` on, as the loop over all of them meets them. -/
theorem foreach_drop_eq {buffer : CircularBuffer} {i : ℕ}
    (hi : i < AESDCHAR_MAX_WRITE_OPERATIONS_SUPPORTED) :
    buffer.foreach.drop i = buffer.slot i :: buffer.foreach.drop (i + 1) := by
  have hlen : i < buffer.foreach.length := by simpa [CircularBuffer.foreach] using hi
  rw [List.drop_eq_getElem_cons hlen]
  simp [CircularBuffer.slot, CircularBuffer.foreach, hi]

theorem foreach_drop_of_le {buffer : CircularBuffer} {i : ℕ}
    (hi : AESDCHAR_MAX_WRITE_OPERATIONS_SUPPORTED ≤ i) : buffer.foreach.drop i = [] :=
  List.drop_eq_nil_of_le (by simpa [CircularBuffer.foreach] using hi)

/-- The loop of `aesd_llseek` ends in its `switch` with the sum of the sizes. -/
theorem leads_llseekSum {off whence : ℤ} {r : Reply × Kernel} {i size : ℕ}
    (h : Leads body (.llseekSwitch file off whence
      ((k.dev.circularBuffer.foreach.drop i).foldl (fun size e => sizeAdd size e.size) size)) k r) :
    Leads body (.llseekSum file off whence i size) k r := by
  by_cases hi : i < AESDCHAR_MAX_WRITE_OPERATIONS_SUPPORTED
  · rw [foreach_drop_eq hi, List.foldl_cons] at h
    exact Leads.goOn (by rw [body, if_pos hi]) (leads_llseekSum h)
  · rw [foreach_drop_of_le (Nat.le_of_not_lt hi), List.foldl_nil] at h
    exact Leads.goOn (by rw [body, if_neg hi]) h
termination_by AESDCHAR_MAX_WRITE_OPERATIONS_SUPPORTED - i

theorem leads_llseekCheck (newpos : ℤ) :
    Leads body (.llseekCheck file newpos) k
      (if newpos < 0 then lockedReturn k (-EINVAL)
        else if newpos < 0 then unlockReturn k (-EINVAL) []
        else unlockReturn (k.setPos file newpos) newpos []) := by
  by_cases hneg : newpos < 0
  · rw [if_pos hneg]
    exact leads_leaveLocked (by rw [body, if_pos hneg])
  · rw [if_neg hneg, if_neg hneg]
    refine Leads.goOn (by rw [body, if_neg hneg]) ?_
    refine Leads.goOn (by rw [body, if_neg hneg]) ?_
    exact Leads.goOn rfl (leads_unlock ..)

/-- The loop of `aesd_ioctl` ends with the position it has summed up. -/
theorem leads_ioctlSum (seekto : AesdSeekto) (i size : ℕ) :
    Leads body (.ioctlSum file seekto i size) k
      (unlockReturn (k.setPos file
        (loff (seekPosition seekto (k.dev.circularBuffer.foreach.drop i) i size))) 0 []) := by
  have hset : ∀ pos, Leads body (.ioctlSet file pos) k
      (unlockReturn (k.setPos file (loff pos)) 0 []) := fun pos => Leads.goOn rfl (leads_unlock ..)
  by_cases hi : i < AESDCHAR_MAX_WRITE_OPERATIONS_SUPPORTED
  · rw [foreach_drop_eq hi, seekPosition]
    by_cases hbelow : i < seekto.writeCmd.toNat
    · rw [if_pos hbelow]
      exact Leads.goOn (by rw [body, if_pos hi, if_pos hbelow]) (leads_ioctlSum seekto _ _)
    · rw [if_neg hbelow]
      exact Leads.goOn (by rw [body, if_pos hi, if_neg hbelow]) (hset _)
  · rw [foreach_drop_of_le (Nat.le_of_not_lt hi), seekPosition]
    exact Leads.goOn (by rw [body, if_neg hi]) (hset _)
termination_by AESDCHAR_MAX_WRITE_OPERATIONS_SUPPORTED - i

/-- The rest of a call behind the mutex. -/
theorem withLock_of_free {k : Kernel} (hfree : k.dev.lock = false) {env : Env}
    (hwait : env.interrupted = false) (rest : Kernel → Reply × Kernel) :
    withLock k env rest = rest (k.setLock true) := by
  unfold withLock
  rw [if_neg (by simp [hwait]), if_neg (by simp [hfree])]

theorem leads_read (hfree : k.dev.lock = false) {count : ℕ} (haccess : accessOk env count = true) :
    Leads body (.read file count env) (k.setLock true)
      (aesdRead k file count { env with interrupted := false }) := by
  unfold aesdRead
  have hrange : accessOk { env with interrupted := false } count = true := haccess
  rw [if_neg (by simp [hrange]), withLock_of_free hfree rfl]
  exact Leads.goOn rfl (leads_readFind ..)

theorem leads_write (hfree : k.dev.lock = false) {buf : List Byte}
    (haccess : accessOk env buf.length = true) :
    Leads body (.write file buf env) (k.setLock true)
      (aesdWrite k file buf { env with interrupted := false }) := by
  unfold aesdWrite
  have hrange : accessOk { env with interrupted := false } buf.length = true := haccess
  rw [if_neg (by simp [hrange]), withLock_of_free hfree rfl]
  cases hk : krealloc (k.setLock true).heap (k.setLock true).dev.entry.buffptr
      (sizeAdd buf.length (k.setLock true).dev.entry.size) env.realloc with
  | none =>
    exact Leads.goOn (by rw [body, hk]) (leads_unlock ..)
  | some moved =>
    obtain ⟨presult, heap⟩ := moved
    refine Leads.goOn (by rw [body, hk]) ?_
    dsimp only
    by_cases hfault : copyFaults env buf.length = true
    · have hfault' : copyFaults { env with interrupted := false } buf.length = true := hfault
      rw [if_pos hfault']
      exact Leads.goOn (by rw [body, if_pos hfault]) (leads_unlock ..)
    · have hfault' : ¬ copyFaults { env with interrupted := false } buf.length = true := hfault
      rw [if_neg hfault']
      exact Leads.goOn (by rw [body, if_neg hfault]) (leads_writeEntry ..)

theorem leads_llseek (hfree : k.dev.lock = false) (off whence : ℤ) :
    Leads body (.llseekSum file off whence 0 0) (k.setLock true)
      (aesdLlseek k file off whence { env with interrupted := false }) := by
  unfold aesdLlseek
  rw [withLock_of_free hfree rfl]
  apply leads_llseekSum
  rw [List.drop_zero]
  have htarget : seekTarget (k.setLock true) file off whence =
      switchTarget ((k.setLock true).fPos file) (totalSize (k.setLock true).dev.circularBuffer) off
        whence := rfl
  rw [htarget]
  cases hpos : switchTarget ((k.setLock true).fPos file)
      (totalSize (k.setLock true).dev.circularBuffer) off whence with
  | none => exact leads_leaveLocked (by rw [body, ← totalSize, hpos])
  | some newpos => exact Leads.goOn (by rw [body, ← totalSize, hpos]) (leads_llseekCheck ..)

theorem leads_ioctl (hfree : k.dev.lock = false) {cmd : UInt32} (hcmd : ioctlError cmd env = none)
    (arg : UInt64) (seekto : AesdSeekto) :
    Leads body (.ioctl file cmd arg seekto env) (k.setLock true)
      (aesdIoctl k file cmd arg seekto { env with interrupted := false }) := by
  unfold aesdIoctl
  have hnone : ioctlError cmd { env with interrupted := false } = none := hcmd
  rw [hnone]
  dsimp only
  rw [withLock_of_free hfree rfl]
  by_cases harg : arg = 0
  · rw [if_pos harg]
    exact leads_leaveLocked (by rw [body, if_pos harg])
  rw [if_neg harg]
  by_cases hfault : env.copyFault = true
  · rw [if_pos hfault]
    exact Leads.goOn (by rw [body, if_neg harg, if_pos hfault]) (leads_unlock ..)
  rw [if_neg hfault]
  refine Leads.goOn (by rw [body, if_neg harg, if_neg hfault]) ?_
  by_cases hseek : cmd = AESDCHAR_IOCSEEKTO
  · rw [if_pos hseek]
    by_cases hslot : seekto.writeCmd > 9
    · rw [if_pos hslot]
      exact leads_leaveLocked (by rw [body, if_pos hseek, if_pos hslot])
    rw [if_neg hslot]
    by_cases hoffset : seekto.writeCmdOffset.toNat ≥
        ((k.setLock true).dev.circularBuffer.slot seekto.writeCmd.toNat).size
    · rw [if_pos hoffset]
      exact leads_leaveLocked (by rw [body, if_pos hseek, if_neg hslot, if_pos hoffset])
    rw [if_neg hoffset]
    refine Leads.goOn (by rw [body, if_pos hseek, if_neg hslot, if_neg hoffset]) ?_
    exact leads_ioctlSum seekto 0 0
  · rw [if_neg hseek]
    exact Leads.goOn (by rw [body, if_neg hseek]) (leads_unlock ..)

end Leads

/-- How many small steps are left at most before the one that returns. -/
def rank : Local → ℕ
  | .read _ _ _ => 15
  | .readFind _ _ _ steps _ _ => 4 + steps
  | .readClamp _ _ _ _ _ => 3
  | .readCopy _ _ _ _ _ => 2
  | .readAdvance _ _ _ => 1
  | .write _ _ _ => 8
  | .writeCopy _ _ _ _ => 7
  | .writeEntry _ _ _ => 6
  | .writeScan _ _ => 5
  | .writeAdd _ _ => 4
  | .writeFree _ _ _ => 3
  | .writeClear _ _ => 2
  | .writeAdvance _ _ => 1
  | .llseekSum _ _ _ i _ => 5 + (AESDCHAR_MAX_WRITE_OPERATIONS_SUPPORTED - i)
  | .llseekSwitch _ _ _ _ => 4
  | .llseekCheck _ _ => 3
  | .llseekCheckAgain _ _ => 2
  | .llseekSet _ _ => 1
  | .ioctl _ _ _ _ _ => 14
  | .ioctlCheck _ _ _ => 13
  | .ioctlSum _ _ i _ => 2 + (AESDCHAR_MAX_WRITE_OPERATIONS_SUPPORTED - i)
  | .ioctlSet _ _ => 1
  | .unlock _ _ => 0

/-- A small step that does not return keeps the mutex and comes closer to the return. -/
theorem body_goOn {l l' : Local} {k k' : Kernel} (h : body l k = .goOn l' k') :
    k'.dev.lock = k.dev.lock ∧ rank l' < rank l := by
  have hmax : AESDCHAR_MAX_WRITE_OPERATIONS_SUPPORTED = 10 := rfl
  fun_cases body l k
  all_goals
    simp only [body, leaveLocked, *, if_true, if_false, reduceCtorEq, Micro.goOn.injEq] at h
  all_goals
    obtain ⟨rfl, rfl⟩ := h
    refine ⟨rfl, ?_⟩
    simp only [rank]
    omega

theorem realizes : Realizes driver whole where
  leads c k hmay hfree := by
    have hlock : k.dev.lock = false := by simpa [driver] using hfree
    cases c with
    | read file count env => exact leads_read hlock (by simpa [driver, refusal] using hmay)
    | write file buf env => exact leads_write hlock (by simpa [driver, refusal] using hmay)
    | llseek file off whence env => exact @leads_llseek k file env hlock off whence
    | ioctl file cmd arg seekto env =>
      exact leads_ioctl hlock (by simpa [driver, refusal] using hmay) arg seekto
  taken k _ := rfl
  held l k l' k' hheld hbody := by
    change (!k'.dev.lock) = false
    rw [(body_goOn hbody).1]
    exact hheld

theorem refusal_interrupt (interrupted : Bool) (c : Call) :
    refusal (interrupt interrupted c) = refusal c := by cases c <;> rfl

theorem perform_refused {c : Call} {err : ℤ} (h : refusal c = some err) (k : Kernel) :
    perform k c = earlyReturn k err := by
  cases c with
  | read file count env =>
    obtain ⟨haccess, rfl⟩ : accessOk env count = false ∧ -EINVAL = err := by
      simpa [refusal] using h
    exact if_pos haccess
  | write file buf env =>
    obtain ⟨haccess, rfl⟩ : accessOk env buf.length = false ∧ -EINVAL = err := by
      simpa [refusal] using h
    exact if_pos haccess
  | llseek file off whence env => cases h
  | ioctl file cmd arg seekto env =>
    have herr : ioctlError cmd env = some err := h
    rw [perform, aesdIoctl, herr]

theorem perform_interrupted {c : Call} (h : refusal c = none) (k : Kernel) :
    perform k (interrupt true c) = earlyReturn k (-ERESTARTSYS) := by
  cases c with
  | read file count env =>
    have haccess : ¬ accessOk env count = false := by simpa [refusal] using h
    exact if_neg haccess
  | write file buf env =>
    have haccess : ¬ accessOk env buf.length = false := by simpa [refusal] using h
    exact if_neg haccess
  | llseek file off whence env => rfl
  | ioctl file cmd arg seekto env =>
    have hnone : ioctlError cmd { env with interrupted := true } = none := h
    rw [interrupt, perform, aesdIoctl, hnone]
    rfl

/-- A served operation of the object is one atomic call. -/
theorem serve_eq (k : Kernel) (c : Call) (entered : Bool) :
    serve driver whole k (c, entered) = perform k (interrupt (!entered) c) := by
  cases entered with
  | true => rfl
  | false =>
    change (driver.early c, k) = perform k (interrupt true c)
    cases h : refusal c with
    | none =>
      rw [perform_interrupted h]
      simp [driver, h, earlyReturn]
    | some err =>
      rw [perform_refused ((refusal_interrupt true c).trans h)]
      simp [driver, h, earlyReturn]

/-- The threads on a device that has just been loaded. -/
def init : Threads Call Local Kernel := Threads.init aesdInitModule

def next : Threads Call Local Kernel → Label Call → Option (Threads Call Local Kernel) :=
  Threads.next driver

/-- The calls that have returned in a run, in the order of their returns. -/
def returned (ls : List (Label Call)) : List (Entry Call Reply) :=
  outputs next (Threads.back driver) init ls

/-- A small step that returns either gives the mutex back or changes nothing. -/
theorem body_leave {l : Local} {k k' : Kernel} {result : Reply}
    (h : body l k = .leave result k') :
    (result.lockOps = [.lock, .unlock] ∧ k'.dev.lock = false) ∨
      (result.lockOps = [.lock] ∧ k' = k) := by
  fun_cases body l k
  all_goals
    simp only [body, leaveLocked, *, if_true, if_false, reduceCtorEq, Micro.leave.injEq] at h
  all_goals
    obtain ⟨rfl, rfl⟩ := h
    simp [Kernel.setLock]

/-- A call that had the mutex reports the unlock exactly if it left it free. -/
theorem leads_lock {l : Local} {k : Kernel} {r : Reply × Kernel} (h : Leads body l k r)
    (hheld : k.dev.lock = true) :
    (r.1.lockOps = [.lock, .unlock] ∧ r.2.dev.lock = false) ∨
      (r.1.lockOps = [.lock] ∧ r.2.dev.lock = true) := by
  induction h with
  | leave h =>
    rcases body_leave h with hgiven | ⟨hops, rfl⟩
    · exact Or.inl hgiven
    · exact Or.inr ⟨hops, hheld⟩
  | goOn h _ ih => exact ih ((body_goOn h).1.trans hheld)

/-- On a free mutex a call is refused, interrupted, or made of its small steps. -/
theorem perform_cases {k : Kernel} (hfree : k.dev.lock = false) (c : Call) :
    (∃ err, perform k c = earlyReturn k err) ∨
      Leads body (start c) (k.setLock true) (perform k c) := by
  cases hrefused : refusal c with
  | some err => exact Or.inl ⟨err, perform_refused hrefused k⟩
  | none =>
    have hsame : interrupt c.env.interrupted c = c := by cases c <;> rfl
    cases hwait : c.env.interrupted with
    | true =>
      rw [hwait] at hsame
      have hearly := perform_interrupted hrefused k
      rw [hsame] at hearly
      exact Or.inl ⟨_, hearly⟩
    | false =>
      rw [hwait] at hsame
      have hleads := realizes.leads c k (by simp [driver, hrefused]) (by simp [driver, hfree])
      rw [whole, hsame] at hleads
      exact Or.inr hleads

/-- On a free mutex a call leaves the mutex free exactly if it avoids the returns
without unlock. -/
theorem lock_perform_iff {k : Kernel} (hfree : k.dev.lock = false) (c : Call) :
    (perform k c).2.dev.lock = false ↔ LockReturn.ReleasesLock k c := by
  rw [← LockReturn.settled_perform hfree]
  refine ⟨fun hlock => ⟨?_, hlock⟩, fun h => h.2⟩
  rcases perform_cases hfree c with ⟨err, heq⟩ | hleads
  · rw [heq]
    exact LockReturn.balanced_earlyReturn k err
  · rcases leads_lock hleads rfl with ⟨hops, _⟩ | ⟨_, hheld⟩
    · exact Or.inr hops
    · rw [hlock] at hheld
      cases hheld

theorem ioctlError_neg {cmd : UInt32} {env : Env} {err : ℤ} (h : ioctlError cmd env = some err) :
    err < 0 := by
  have hneg : -ENOTTY < 0 ∧ -EFAULT < 0 := by decide
  unfold ioctlError at h
  split_ifs at h <;> cases h <;> omega

theorem refusal_neg {c : Call} {err : ℤ} (h : refusal c = some err) : err < 0 := by
  cases c with
  | read file count env | write file buf env =>
    obtain ⟨_, heq⟩ := Option.ite_none_right_eq_some.mp h
    cases heq
    decide
  | llseek file off whence env => cases h
  | ioctl file cmd arg seekto env => exact ioctlError_neg h

/-- On a mutex that was lost before it a call sleeps for ever or fails. -/
theorem perform_cases_of_locked {k : Kernel} (hheld : k.dev.lock = true) (c : Call) :
    perform k c = (⟨none, [], []⟩, k) ∨ ∃ err < 0, perform k c = earlyReturn k err := by
  have hwait : ∀ env rest, withLock k env rest = (⟨none, [], []⟩, k) ∨
      ∃ err < 0, withLock k env rest = earlyReturn k err := by
    intro env rest
    rcases withLock_cases k env rest with ⟨_, heq⟩ | ⟨_, _, heq⟩ | ⟨_, hfree, _⟩
    · exact Or.inr ⟨_, by decide, heq⟩
    · exact Or.inl heq
    · rw [hheld] at hfree
      cases hfree
  cases hrefused : refusal c with
  | some err => exact Or.inr ⟨err, refusal_neg hrefused, perform_refused hrefused k⟩
  | none =>
    cases c with
    | read file count env =>
      have haccess : ¬ accessOk env count = false := by simpa [refusal] using hrefused
      rw [perform, aesdRead, if_neg haccess]
      exact hwait env _
    | write file buf env =>
      have haccess : ¬ accessOk env buf.length = false := by simpa [refusal] using hrefused
      rw [perform, aesdWrite, if_neg haccess]
      exact hwait env _
    | llseek file off whence env =>
      rw [perform, aesdLlseek]
      exact hwait env _
    | ioctl file cmd arg seekto env =>
      have hnone : ioctlError cmd env = none := hrefused
      rw [perform, aesdIoctl, hnone]
      exact hwait env _

/-- No call gives back a mutex that was lost before it. -/
theorem perform_of_locked {k : Kernel} (hheld : k.dev.lock = true) (c : Call) :
    (perform k c).2 = k := by
  rcases perform_cases_of_locked hheld c with heq | ⟨err, _, heq⟩
  · rw [heq]
  · rw [heq]
    rfl

/-- With the mutex held afterwards, the call has failed. -/
def FailsIfLost (result : Reply × Kernel) : Prop :=
  result.2.dev.lock = true → ∃ err < 0, result.1.ret = some err

theorem failsIfLost_lockedReturn (k : Kernel) {ret : ℤ} (hneg : ret < 0) :
    FailsIfLost (lockedReturn k ret) := fun _ => ⟨ret, hneg, rfl⟩

theorem failsIfLost_unlockReturn (k : Kernel) (ret : ℤ) (data : List Byte) :
    FailsIfLost (unlockReturn k ret data) := fun hlost => by cases hlost

theorem failsIfLost_withLock {k : Kernel} (hfree : k.dev.lock = false) (env : Env)
    {rest : Kernel → Reply × Kernel} (hrest : FailsIfLost (rest (k.setLock true))) :
    FailsIfLost (withLock k env rest) := by
  rcases withLock_cases k env rest with ⟨_, heq⟩ | ⟨_, hheld, _⟩ | ⟨_, _, heq⟩
  · rw [heq]
    exact fun _ => ⟨_, by decide, rfl⟩
  · rw [hfree] at hheld
    cases hheld
  · rw [heq]
    exact hrest

/-- A call that loses the mutex fails. -/
theorem failsIfLost_perform {k : Kernel} (hfree : k.dev.lock = false) (c : Call) :
    FailsIfLost (perform k c) := by
  cases c with
  | read file count env | write file buf env =>
    intro hlost
    rw [(lock_perform_iff hfree _).mpr (by trivial)] at hlost
    cases hlost
  | llseek file off whence env =>
    refine failsIfLost_withLock hfree env ?_
    split
    · exact failsIfLost_lockedReturn _ (by decide)
    · split_ifs
      · exact failsIfLost_lockedReturn _ (by decide)
      · exact failsIfLost_unlockReturn _ _ _
  | ioctl file cmd arg seekto env =>
    rw [perform, aesdIoctl]
    split
    · rename_i err herr
      exact fun _ => ⟨err, ioctlError_neg herr, rfl⟩
    · refine failsIfLost_withLock hfree env ?_
      split_ifs
      · exact failsIfLost_lockedReturn _ (by decide)
      · exact failsIfLost_unlockReturn _ _ _
      · exact failsIfLost_lockedReturn _ (by decide)
      · exact failsIfLost_lockedReturn _ (by decide)
      · exact failsIfLost_unlockReturn _ _ _
      · exact failsIfLost_unlockReturn _ _ _

end Aesd.DriverThreads
