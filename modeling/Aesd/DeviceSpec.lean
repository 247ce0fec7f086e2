import Aesd.DeviceReads
import Aesd.DriverThreads

/-!
What the device is for, without pointers, slots and sizes that wrap: a log of
commands, the bytes of the command still open, and a position for each open
file. Reads see the last ten commands, `AESDCHAR_IOCSEEKTO` counts commands
modulo ten. As long as no write faults on its user bytes, the driver answers
every sequence of calls, and every interleaving of concurrent ones, as the log
does, and allocates exactly the bytes that the log keeps.
-/

namespace Aesd.DeviceSpec

open Blocks RingBuffer CharDriver DeviceStore DeviceReads CyclicWindow Offsets Runs
open FailedWrites CriticalSections DriverThreads

/-- A newline ends commands, so every command has one and the open bytes have
none. `lost` tells that some call has returned with the mutex. -/
structure Log where
  commands : List (List Byte)
  pending : List Byte
  lost : Bool
  pos : ℕ → ℤ
  terminated : ∀ c ∈ commands, newline ∈ c
  is_open : newline ∉ pending

namespace Log

def empty : Log where
  commands := []
  pending := []
  lost := false
  pos _ := 0
  terminated := by simp
  is_open := by simp

/-- What reads can get. -/
def stored (log : Log) : List Byte := content log.commands

/-- The last command whose place in the log is `j` modulo ten. -/
def commandAt (log : Log) (j : ℕ) : List Byte :=
  (latest AESDCHAR_MAX_WRITE_OPERATIONS_SUPPORTED log.commands j).getD []

def setPos (log : Log) (file : ℕ) (p : ℤ) : Log :=
  { log with pos := fun f => if f = file then p else log.pos f }

@[simp] theorem setPos_pos_self (log : Log) (file : ℕ) (p : ℤ) :
    (log.setPos file p).pos file = p := if_pos rfl

def push (log : Log) (buf : List Byte) : Log where
  commands := (pushWrite (log.commands, log.pending) buf).1
  pending := (pushWrite (log.commands, log.pending) buf).2
  lost := log.lost
  pos := log.pos
  terminated := by
    unfold pushWrite
    split
    · rename_i hbuf
      refine List.forall_mem_append.mpr ⟨log.terminated, ?_⟩
      exact List.forall_mem_singleton.mpr (List.mem_append_right _ hbuf)
    · exact log.terminated
  is_open := by
    unfold pushWrite
    split
    · exact List.not_mem_nil
    · rename_i hbuf
      exact fun hmem => (List.mem_append.mp hmem).elim log.is_open hbuf

/-- `n` more bytes can be allocated, next to all that is allocated already. -/
def HasRoom (log : Log) (n : ℕ) (outcome : KreallocOutcome) : Prop :=
  log.pending.length + n = 0 ∨
    (outcome ≠ .fail ∧
      log.stored.length + log.pending.length + (log.pending.length + n) < 2 ^ 63)

instance (log : Log) (n : ℕ) (outcome : KreallocOutcome) : Decidable (log.HasRoom n outcome) :=
  inferInstanceAs (Decidable (_ ∨ _))

def early (log : Log) (ret : ℤ) : Reply × Log := (⟨some ret, [], []⟩, log)

def released (log : Log) (ret : ℤ) (data : List Byte) : Reply × Log :=
  (⟨some ret, [.lock, .unlock], data⟩, log)

/-- An error with the mutex kept. -/
def loses (log : Log) (ret : ℤ) : Reply × Log :=
  (⟨some ret, [.lock], []⟩, { log with lost := true })

def locked (log : Log) (env : Env) (result : Reply × Log) : Reply × Log :=
  if env.interrupted then log.early (-ERESTARTSYS)
  else if log.lost then (⟨none, [], []⟩, log)
  else result

/-- A read stays inside one command. -/
def read (log : Log) (file count : ℕ) (env : Env) : Reply × Log :=
  if accessOk env count = false then log.early (-EINVAL)
  else log.locked env <|
    match restAt (log.commands.rtake 10) (toSize (log.pos file)) with
    | [] => log.released 0 []
    | b :: rest =>
      let data := (b :: rest).take count
      if env.copyFault = true ∧ data ≠ [] then log.released (-EFAULT) []
      else (log.setPos file (loff (log.pos file + data.length))).released data.length data

def write (log : Log) (file : ℕ) (buf : List Byte) (env : Env) : Reply × Log :=
  if accessOk env buf.length = false then log.early (-EINVAL)
  else log.locked env <|
    if log.HasRoom buf.length env.realloc then
      ((log.push buf).setPos file (loff (log.pos file + buf.length))).released buf.length []
    else log.released (-EFAULT) []

def target (log : Log) (file : ℕ) (off whence : ℤ) : Option ℤ :=
  if whence = SEEK_SET then some off
  else if whence = SEEK_CUR then some (loff (log.pos file + off))
  else if whence = SEEK_END then some (loff (log.stored.length + off))
  else none

def llseek (log : Log) (file : ℕ) (off whence : ℤ) (env : Env) : Reply × Log :=
  log.locked env <|
    match log.target file off whence with
    | none => log.loses (-EINVAL)
    | some newpos =>
      if newpos < 0 then log.loses (-EINVAL) else (log.setPos file newpos).released newpos []

def ioctl (log : Log) (file : ℕ) (cmd : UInt32) (arg : UInt64) (seekto : AesdSeekto)
    (env : Env) : Reply × Log :=
  match ioctlError cmd env with
  | some err => log.early err
  | none => log.locked env <|
    if arg = 0 then log.loses (-EFAULT)
    else if env.copyFault then log.released (-EFAULT) []
    else if cmd = AESDCHAR_IOCSEEKTO then
      if seekto.writeCmd.toNat < 10 ∧
          seekto.writeCmdOffset.toNat < (log.commandAt seekto.writeCmd.toNat).length then
        (log.setPos file ↑(((List.range seekto.writeCmd.toNat).map fun j =>
          (log.commandAt j).length).sum + seekto.writeCmdOffset.toNat)).released 0 []
      else log.loses (-EINVAL)
    else log.released 0 []

def perform (log : Log) : Call → Reply × Log
  | .read file count env => log.read file count env
  | .write file buf env => log.write file buf env
  | .llseek file off whence env => log.llseek file off whence env
  | .ioctl file cmd arg seekto env => log.ioctl file cmd arg seekto env

def next (log : Log) (c : Call) : Option Log := some (log.perform c).2

def answer (log : Log) (c : Call) : List Reply := [(log.perform c).1]

def run (log : Log) (calls : List Call) : Log := calls.foldl (fun log c => (log.perform c).2) log

theorem exec_next (log : Log) (calls : List Call) : exec next log calls = some (log.run calls) := by
  induction calls generalizing log with
  | nil => rfl
  | cons c cs ih => exact ih (log.perform c).2

end Log

/-- No user fault on the bytes of a write; reads and ioctls may fault. -/
def Copies : Call → Prop
  | .write _ buf env => copyFaults env buf.length = false
  | _ => True

instance : DecidablePred Copies := fun c => by
  unfold Copies
  cases c <;> infer_instance

section Allocation

variable {k : Kernel} {adds : List BufferEntry} {closed : List (List Byte)} {pending : List Byte}

/-- What a physical slot holds. -/
theorem slot_holds (h : Retains k adds closed) {j : ℕ} (hj : j < 10) :
    Holds k.heap (k.dev.circularBuffer.slot j) ((latest 10 closed j).getD []) := by
  have hlen := h.length_eq
  have hslot := h.fifo.window.slot_eq hj
  unfold latest at hslot ⊢
  rw [hlen] at hslot
  split at hslot
  · rename_i hlt
    rw [if_pos hlt]
    have hmod : (closed.length - 1 - j) % 10 < 10 := Nat.mod_lt _ (by omega)
    have hidx : closed.length - 1 - (closed.length - 1 - j) % 10 < closed.length := by omega
    have hadd : closed.length - 1 - (closed.length - 1 - j) % 10 < adds.length := by omega
    rw [List.getElem?_eq_getElem hadd, Option.getD_some] at hslot
    rw [List.getElem?_eq_getElem hidx, Option.getD_some, hslot]
    exact h.recent _ _ _ (List.getElem?_eq_getElem hadd) (List.getElem?_eq_getElem hidx) (by omega)
  · rename_i hge
    rw [hslot, if_neg hge]
    exact ⟨rfl, fun hne => absurd rfl hne, fun _ => rfl⟩

theorem foreach_holds (h : Retains k adds closed) :
    ∀ e ∈ k.dev.circularBuffer.foreach, ∃ b, Holds k.heap e b := by
  intro e he
  rw [CircularBuffer.foreach_eq] at he
  obtain ⟨j, hj, rfl⟩ := List.mem_map.mp he
  exact ⟨_, slot_holds h (List.mem_range.mp hj)⟩

/-- What the slot of a retained command holds. -/
theorem holds_at (h : Retains k adds closed) {i : ℕ} {piece : List Byte}
    (hpiece : (closed.rtake 10)[i]? = some piece) :
    Holds k.heap (k.dev.circularBuffer.slot ((k.dev.circularBuffer.outOffs + i) % 10)) piece := by
  rw [List.rtake, List.getElem?_drop, ← h.length_eq] at hpiece
  have hlt := (List.getElem?_eq_some_iff.mp hpiece).1
  rw [← h.length_eq] at hlt
  have hfifo : k.dev.circularBuffer.fifo[i]? = some adds[adds.length - 10 + i] := by
    rw [h.fifo.fifo_eq, List.rtake, List.getElem?_drop, List.getElem?_eq_getElem hlt]
  rw [CircularBuffer.slot_of_fifo hfifo]
  exact h.recent _ _ _ (List.getElem?_eq_getElem hlt) hpiece (by omega)

/-- The blocks of some entries are as large as the entries say; an entry of no
bytes has none. -/
theorem weights_eq {heap : Heap (List Byte)} {es : List BufferEntry}
    (hes : ∀ e ∈ es, ∃ b, Holds heap e b) :
    (ids (es.map BufferEntry.buffptr)).map (heap.weight List.length) =
      (es.map BufferEntry.size).filter (· ≠ 0) := by
  induction es with
  | nil => rfl
  | cons e es ih =>
    obtain ⟨⟨b, hb⟩, hrest⟩ := List.forall_mem_cons.mp hes
    rw [List.map_cons, List.map_cons, hb.size_eq]
    cases hid : e.buffptr.id? with
    | none =>
      have hnil : b = [] := by
        by_contra hne
        have hread := hb.read_eq hne
        simp [Heap.read, hid] at hread
      rw [ids_cons_of_no_block hid, ih hrest, List.filter_cons_of_neg (by simp [hnil])]
    | some id =>
      have hne : b ≠ [] := by
        intro hnil
        rw [hb.no_block hnil] at hid
        cases hid
      rw [ids_cons_of_block hid, List.map_cons, ih hrest,
        List.filter_cons_of_pos (by simpa using hne),
        Heap.weight_of_read List.length hid (hb.read_eq hne)]

theorem sum_filter_ne_zero (ns : List ℕ) : (ns.filter (· ≠ 0)).sum = ns.sum := by
  induction ns with
  | nil => rfl
  | cons n ns ih =>
    rw [List.sum_cons]
    by_cases hn : n = 0
    · rw [List.filter_cons_of_neg (by simp [hn]), ih, hn, Nat.zero_add]
    · rw [List.filter_cons_of_pos (by simpa using hn), List.sum_cons, ih]

/-- The blocks that the device holds are those of the last ten commands and the open one. -/
theorem weights_held (h : Represents k adds closed pending) :
    ((ids (held k)).map (k.heap.weight List.length)).Perm
      (((pending :: closed.rtake 10).map List.length).filter (· ≠ 0)) := by
  have hheld : held k =
      (k.dev.entry :: k.dev.circularBuffer.foreach).map BufferEntry.buffptr := rfl
  have hall : ∀ e ∈ k.dev.entry :: k.dev.circularBuffer.foreach, ∃ b, Holds k.heap e b :=
    List.forall_mem_cons.mpr ⟨⟨_, h.pending_holds⟩, foreach_holds h.retains⟩
  have hslots := (h.fifo.window.perm.map BufferEntry.size).filter (· ≠ 0)
  rw [← CircularBuffer.foreach_eq, ← h.fifo.fifo_eq, List.map_append, h.retains.fifo_sizes,
    List.filter_append, List.map_replicate, List.filter_replicate_of_neg (by simp [zeroEntry]),
    List.append_nil] at hslots
  rw [hheld, weights_eq hall, List.map_cons, List.map_cons, h.pending_holds.size_eq,
    List.filter_cons, List.filter_cons]
  split
  · exact hslots.cons _
  · exact hslots

/-- All allocated bytes are those of the last ten commands and the open one. -/
theorem total_eq (h : Represents k adds closed pending) :
    k.heap.total List.length = (content closed).length + pending.length := by
  rw [h.owns.total_eq, (weights_held h).sum_eq, sum_filter_ne_zero, List.map_cons, List.sum_cons,
    content, List.length_flatten, Nat.add_comm]

/-- The blocks that are allocated. -/
def liveBlocks (heap : Heap (List Byte)) : List ℕ :=
  (List.range heap.next).filter fun id => heap.Live id

/-- One block for each of the last ten commands, and one for the open bytes if there are any. -/
theorem liveBlocks_length (h : Represents k adds closed pending)
    (hterminated : ∀ c ∈ closed, newline ∈ c) :
    (liveBlocks k.heap).length =
      (closed.rtake 10).length + if pending = [] then 0 else 1 := by
  have hcommands : ((closed.rtake 10).map List.length).filter (· ≠ 0) =
      (closed.rtake 10).map List.length := by
    refine List.filter_eq_self.mpr fun n hn => ?_
    obtain ⟨c, hc, rfl⟩ := List.mem_map.mp hn
    have hne := List.ne_nil_of_mem (hterminated c (List.mem_of_mem_drop hc))
    simpa using hne
  have hlen := (weights_held h).length_eq
  rw [List.length_map, ← h.owns.live_perm.length_eq, List.map_cons, List.filter_cons,
    hcommands] at hlen
  rw [liveBlocks, hlen]
  by_cases hp : pending = []
  · simp [hp]
  · simp [hp]

theorem krealloc_eq_none_iff {heap : Heap (List Byte)} {p : Ptr} {size : ℕ}
    {outcome : KreallocOutcome} : krealloc heap p size outcome = none ↔
      size ≠ 0 ∧ ¬ RoomFor heap size outcome := by
  constructor
  · intro hnone
    have hsize : size ≠ 0 := by
      rintro rfl
      rw [krealloc_zero] at hnone
      cases hnone
    refine ⟨hsize, fun hroom => ?_⟩
    rw [krealloc_of_room hsize hroom] at hnone
    split at hnone
    · cases hnone
    · split at hnone <;> cases hnone
  · rintro ⟨hsize, hroom⟩
    by_contra hsome
    obtain ⟨result, hresult⟩ := Option.ne_none_iff_exists'.mp hsome
    exact hroom (roomFor_of_krealloc hresult hsize)

theorem content_concat_le (closed : List (List Byte)) (b : List Byte) :
    (content (closed ++ [b])).length ≤ (content closed).length + b.length := by
  have hle : ((closed ++ [b]).drop (closed.length + 1 - 10)).flatten.length ≤
      (closed.drop (closed.length - 10) ++ [b]).flatten.length := by
    rw [← List.drop_append_of_le_length (by omega)]
    have hmore : closed.length + 1 - 10 =
        (closed.length - 10) + (closed.length + 1 - 10 - (closed.length - 10)) := by omega
    rw [hmore, ← List.drop_drop]
    exact ((List.drop_sublist _ _).flatten).length_le
  unfold content List.rtake
  rw [List.length_append, List.length_singleton]
  refine hle.trans_eq ?_
  rw [List.flatten_append, List.length_append, List.flatten_singleton]

end Allocation

theorem acceptBytes_lock (k : Kernel) (presult : Ptr) (buf : List Byte) :
    (acceptBytes k presult buf).dev.lock = k.dev.lock := by
  unfold acceptBytes
  dsimp only
  split <;> rfl

theorem acceptBytes_fPos (k : Kernel) (presult : Ptr) (buf : List Byte) :
    (acceptBytes k presult buf).fPos = k.fPos := by
  unfold acceptBytes
  dsimp only
  split <;> rfl

/-- The driver holds what the log holds. -/
structure Shows (k : Kernel) (log : Log) : Prop where
  represents : ∃ adds, Represents k adds log.commands log.pending
  room : log.stored.length + log.pending.length < 2 ^ 63
  lock_eq : k.dev.lock = log.lost
  pos_eq : k.fPos = log.pos

/-- The same reply, and states that correspond again. -/
def Agrees (r : Reply × Kernel) (a : Reply × Log) : Prop := r.1 = a.1 ∧ Shows r.2 a.2

theorem shows_init : Shows aesdInitModule Log.empty where
  represents := ⟨[], represents_init⟩
  room := by decide
  lock_eq := rfl
  pos_eq := rfl

namespace Shows

variable {k : Kernel} {log : Log}

theorem setPos (h : Shows k log) (file : ℕ) (p : ℤ) :
    Shows (k.setPos file p) (log.setPos file p) where
  represents := by
    obtain ⟨adds, hrep⟩ := h.represents
    exact ⟨adds, hrep.congr ⟨rfl, rfl, rfl⟩⟩
  room := h.room
  lock_eq := h.lock_eq
  pos_eq := by
    have hpos := h.pos_eq
    simp only [Kernel.setPos, Log.setPos, hpos]

theorem early (h : Shows k log) (ret : ℤ) : Agrees (earlyReturn k ret) (log.early ret) := ⟨rfl, h⟩

/-- A return with unlock from a state that the call has taken the mutex of. -/
theorem unlocked (h : Shows k log) (hfree : k.dev.lock = false) (ret : ℤ) (data : List Byte) :
    Agrees (unlockReturn (k.setLock true) ret data) (log.released ret data) := by
  refine ⟨rfl, ?_⟩
  rw [unlockReturn, Kernel.setLock_setLock_of_free hfree]
  exact h

theorem moved (h : Shows k log) (hfree : k.dev.lock = false) (file : ℕ) (p ret : ℤ)
    (data : List Byte) : Agrees (unlockReturn ((k.setLock true).setPos file p) ret data)
      ((log.setPos file p).released ret data) := by
  refine ⟨rfl, ?_⟩
  rw [unlockReturn, Kernel.setPos_setLock_of_free hfree]
  exact h.setPos file p

theorem loses (h : Shows k log) (ret : ℤ) :
    Agrees (lockedReturn (k.setLock true) ret) (log.loses ret) := by
  obtain ⟨adds, hrep⟩ := h.represents
  exact ⟨rfl, ⟨adds, hrep.congr ⟨rfl, rfl, rfl⟩⟩, h.room, rfl, h.pos_eq⟩

theorem locked (h : Shows k log) {env : Env} {rest : Kernel → Reply × Kernel}
    {result : Reply × Log}
    (hrest : k.dev.lock = false → Agrees (rest (k.setLock true)) result) :
    Agrees (withLock k env rest) (log.locked env result) := by
  unfold Log.locked
  rcases withLock_cases k env rest with ⟨hwait, heq⟩ | ⟨hwait, hheld, heq⟩ | ⟨hwait, hfree, heq⟩
  · rw [heq, if_pos hwait]
    exact h.early _
  · rw [heq, if_neg (by simp [hwait]), if_pos (h.lock_eq.symm.trans hheld)]
    exact ⟨rfl, h⟩
  · rw [heq, if_neg (by simp [hwait]), if_neg (by simp [← h.lock_eq, hfree])]
    exact hrest hfree

/-- A read looks at the command the position lies in, and at no other. -/
theorem read (h : Shows k log) (file count : ℕ) (env : Env) :
    Agrees (aesdRead k file count env) (log.read file count env) := by
  unfold aesdRead Log.read
  split
  · exact h.early _
  · refine h.locked fun hfree => ?_
    obtain ⟨adds, hrep⟩ := h.represents
    have hsize : toSize (k.fPos file) < 2 ^ 64 := by
      unfold toSize
      omega
    have hfind := hrep.fifo.find_eq hsize
    rw [hrep.retains.fifo_sizes] at hfind
    rw [← h.pos_eq]
    rw [Kernel.setLock_circularBuffer, Kernel.setLock_fPos, hfind]
    cases hloc : locate ((log.commands.rtake 10).map List.length) (toSize (k.fPos file)) with
    | none =>
      rw [restAt_of_none hloc]
      exact h.unlocked hfree 0 []
    | some found =>
      obtain ⟨i, r⟩ := found
      obtain ⟨piece, hpiece, hr, hrest⟩ := restAt_of_locate hloc
      have hholds := holds_at hrep.retains hpiece
      have hlength : piece.length < 2 ^ 63 := by
        have hle := List.Sublist.length_le
          (List.sublist_flatten_of_mem (List.mem_of_getElem? hpiece))
        exact hle.trans_lt ((Nat.le_add_right _ _).trans_lt h.room)
      have hleft : sizeSub piece.length r = piece.length - r := sizeSub_of_le (by omega) hr.le
      obtain ⟨b, rest, hcons⟩ := List.exists_cons_of_length_pos
        (by rw [List.length_drop]; omega : 0 < (piece.drop r).length)
      -- the count is cut to what the command still has
      have hcut : (if count > piece.length - r then piece.length - r else count) =
          ((b :: rest).take count).length := by
        rw [← hcons, List.length_take, List.length_drop]
        split <;> omega
      have hdata : (piece.drop r).take ((b :: rest).take count).length =
          (b :: rest).take count := by
        rw [hcons, List.length_take, ← List.take_take, List.take_length]
      rw [hrest, hcons]
      dsimp only [Option.map_some]
      rw [Kernel.setLock_heap, hholds.size_eq, hholds.contents_eq, hleft, hcut, hdata]
      have hfaults : copyFaults env ((b :: rest).take count).length = true ↔
          env.copyFault = true ∧ (b :: rest).take count ≠ [] := by
        simp [copyFaults]
      simp only [hfaults]
      split
      · exact h.unlocked hfree _ []
      · exact h.moved hfree file _ _ _

/-- The allocator grants a write exactly if the log has room for it. -/
theorem room_iff (h : Shows k log) {buf : List Byte} (hlen : buf.length < 2 ^ 63)
    (outcome : KreallocOutcome) :
    krealloc k.heap k.dev.entry.buffptr (sizeAdd buf.length k.dev.entry.size) outcome = none ↔
      ¬ log.HasRoom buf.length outcome := by
  obtain ⟨adds, hrep⟩ := h.represents
  have hsmall := hrep.small
  have hsum : sizeAdd buf.length k.dev.entry.size = log.pending.length + buf.length := by
    rw [hrep.pending_holds.size_eq, sizeAdd_of_lt (by omega), Nat.add_comm]
  rw [hsum, krealloc_eq_none_iff, RoomFor, total_eq hrep, Log.HasRoom, not_or]
  rfl

/-- What is stored and pending grows by the bytes written, or shrinks. -/
theorem push_le (log : Log) (buf : List Byte) :
    (log.push buf).stored.length + (log.push buf).pending.length ≤
      log.stored.length + log.pending.length + buf.length := by
  unfold Log.push pushWrite
  split
  · have hle := content_concat_le log.commands (log.pending ++ buf)
    rw [List.length_append] at hle
    simp only [Log.stored, List.length_nil]
    omega
  · simp only [Log.stored, List.length_append]
    omega

theorem write (h : Shows k log) (file : ℕ) (buf : List Byte) {env : Env}
    (hcopy : copyFaults env buf.length = false) :
    Agrees (aesdWrite k file buf env) (log.write file buf env) := by
  unfold aesdWrite Log.write
  split
  · exact h.early _
  · rename_i haccess
    have hlen : buf.length < 2 ^ 63 := by
      simp only [accessOk, Bool.and_eq_false_iff, not_or, decide_eq_false_iff_not] at haccess
      omega
    refine h.locked fun hfree => ?_
    have hroom := h.room_iff hlen env.realloc
    rw [Kernel.setLock_heap, Kernel.setLock_entry]
    cases hk : krealloc k.heap k.dev.entry.buffptr (sizeAdd buf.length k.dev.entry.size)
        env.realloc with
    | none =>
      rw [if_neg (hroom.mp hk)]
      exact h.unlocked hfree _ []
    | some granted =>
      obtain ⟨presult, heap⟩ := granted
      have hgranted : log.HasRoom buf.length env.realloc := by
        by_contra hnot
        rw [hroom.mpr hnot] at hk
        cases hk
      rw [if_pos hgranted]
      dsimp only
      rw [if_neg (by simp [hcopy])]
      have hset : acceptBytes { k.setLock true with heap } presult buf =
          (acceptBytes { k with heap } presult buf).setLock true :=
        acceptBytes_setLock { k with heap } true presult buf
      have hfree' : (acceptBytes { k with heap } presult buf).dev.lock = false := by
        rw [acceptBytes_lock]
        exact hfree
      obtain ⟨adds, hrep⟩ := h.represents
      obtain ⟨adds', hrep'⟩ := hrep.accept log.is_open hlen hk
      have hshows : Shows (acceptBytes { k with heap } presult buf) (log.push buf) := {
        represents := ⟨adds', hrep'⟩
        room := by
          have hle := push_le log buf
          have hroom' := h.room
          rcases hgranted with hnone | ⟨_, hlt⟩ <;> omega
        lock_eq := by
          rw [acceptBytes_lock]
          exact h.lock_eq
        pos_eq := by
          rw [acceptBytes_fPos]
          exact h.pos_eq }
      have hpos := congrFun h.pos_eq file
      rw [hset, Kernel.setLock_fPos, hpos]
      exact hshows.moved hfree' file _ _ []

theorem llseek (h : Shows k log) (file : ℕ) (off whence : ℤ) (env : Env) :
    Agrees (aesdLlseek k file off whence env) (log.llseek file off whence env) := by
  refine h.locked fun hfree => ?_
  obtain ⟨adds, hrep⟩ := h.represents
  have hstored : (content log.commands).length < 2 ^ 64 := by
    have hroom : (content log.commands).length + log.pending.length < 2 ^ 63 := h.room
    omega
  have htarget : seekTarget (k.setLock true) file off whence = log.target file off whence := by
    unfold seekTarget Log.target
    rw [Kernel.setLock_circularBuffer, Kernel.setLock_fPos, totalSize_eq hrep.retains hstored,
      h.pos_eq]
    rfl
  rw [htarget]
  cases log.target file off whence with
  | none => exact h.loses _
  | some newpos =>
    dsimp only
    split
    · exact h.loses _
    · exact h.moved hfree file newpos newpos []

/-- The position that the ioctl computes from the slots. -/
theorem seekPosition_slots (h : Shows k log) {seekto : AesdSeekto}
    (hcmd : ¬ seekto.writeCmd > 9)
    (hoff : seekto.writeCmdOffset.toNat < (k.dev.circularBuffer.slot seekto.writeCmd.toNat).size) :
    loff (seekPosition seekto k.dev.circularBuffer.foreach 0 0) =
      ↑(((List.range seekto.writeCmd.toNat).map fun j => (log.commandAt j).length).sum +
        seekto.writeCmdOffset.toNat) := by
  obtain ⟨adds, hrep⟩ := h.represents
  have hroom : (content log.commands).length + log.pending.length < 2 ^ 63 := h.room
  have hsum := sum_foreach hrep.retains
  have hslot := foreach_slot k.dev.circularBuffer hcmd
  have hlt := seekPosition_lt seekto hslot hoff (by omega)
  have heq := seekPosition_eq seekto k.dev.circularBuffer.foreach 0 0 (Nat.zero_le _)
    (by simpa using hslot) hoff (by omega)
  have hcmd' : seekto.writeCmd.toNat < 10 := by
    have hle := UInt32.le_iff_toNat_le.mp (UInt32.not_lt.mp hcmd)
    exact Nat.lt_succ_of_le hle
  have hsizes : ((k.dev.circularBuffer.foreach.take seekto.writeCmd.toNat).map
      BufferEntry.size) = (List.range seekto.writeCmd.toNat).map fun j =>
        (log.commandAt j).length := by
    rw [CircularBuffer.foreach_eq, ← List.map_take, List.take_range, Nat.min_eq_left hcmd'.le,
      List.map_map]
    apply List.map_congr_left
    intro j hj
    have hj' := List.mem_range.mp hj
    exact (slot_holds hrep.retains (by omega)).size_eq
  rw [loff_natCast (by omega), heq, Nat.sub_zero, hsizes, Nat.zero_add]

theorem ioctl (h : Shows k log) (file : ℕ) (cmd : UInt32) (arg : UInt64) (seekto : AesdSeekto)
    (env : Env) :
    Agrees (aesdIoctl k file cmd arg seekto env) (log.ioctl file cmd arg seekto env) := by
  unfold aesdIoctl Log.ioctl
  cases ioctlError cmd env with
  | some err => exact h.early err
  | none =>
    refine h.locked fun hfree => ?_
    split
    · exact h.loses _
    · split
      · exact h.unlocked hfree _ []
      · split
        · obtain ⟨adds, hrep⟩ := h.represents
          rw [Kernel.setLock_circularBuffer]
          by_cases hcmd : seekto.writeCmd > 9
          · have hge : ¬ seekto.writeCmd.toNat < 10 := by
              have hlt := UInt32.lt_iff_toNat_lt.mp hcmd
              exact Nat.not_lt.mpr hlt
            rw [if_pos hcmd, if_neg fun hand => hge hand.1]
            exact h.loses _
          · have hlt : seekto.writeCmd.toNat < 10 := by
              have hle := UInt32.le_iff_toNat_le.mp (UInt32.not_lt.mp hcmd)
              exact Nat.lt_succ_of_le hle
            have hsize : (k.dev.circularBuffer.slot seekto.writeCmd.toNat).size =
                (log.commandAt seekto.writeCmd.toNat).length :=
              (slot_holds hrep.retains hlt).size_eq
            rw [if_neg hcmd]
            by_cases hoff : seekto.writeCmdOffset.toNat <
                (log.commandAt seekto.writeCmd.toNat).length
            · rw [if_neg (by rw [hsize]; exact Nat.not_le.mpr hoff), if_pos ⟨hlt, hoff⟩,
                h.seekPosition_slots hcmd (hsize ▸ hoff)]
              exact h.moved hfree file _ 0 []
            · rw [if_pos (by rw [hsize]; exact Nat.le_of_not_lt hoff),
                if_neg fun hand => hoff hand.2]
              exact h.loses _
        · exact h.unlocked hfree 0 []

theorem perform (h : Shows k log) {c : Call} (hc : Copies c) :
    Agrees (CharDriver.perform k c) (log.perform c) := by
  cases c with
  | read file count env => exact h.read file count env
  | write file buf env => exact h.write file buf hc
  | llseek file off whence env => exact h.llseek file off whence env
  | ioctl file cmd arg seekto env => exact h.ioctl file cmd arg seekto env

end Shows

theorem shows_step {k t : Kernel} {log : Log} {c : Call} (h : Shows k log) (hc : Copies c)
    (ht : CharDriver.next k c = some t) :
    Log.answer log c = reply k c ∧ ∃ log', Log.next log c = some log' ∧ Shows t log' := by
  obtain ⟨hreply, hnext⟩ := h.perform hc
  cases ht
  exact ⟨by rw [Log.answer, reply, hreply], _, rfl, hnext⟩

/-- A run of the driver and the same run of the log. -/
theorem shows_run {calls : List Call} (hcopies : ∀ c ∈ calls, Copies c) :
    outputs Log.next Log.answer Log.empty calls =
        outputs CharDriver.next reply aesdInitModule calls ∧
      Shows (CharDriver.run aesdInitModule calls) (Log.empty.run calls) := by
  have hsteps : Steps CharDriver.next (fun _ c => Copies c) aesdInitModule calls :=
    Steps.of_labels hcopies
  obtain ⟨hreplies, log, hlog, hshows⟩ := hsteps.refines
    (fun k log c t => shows_step) shows_init (exec_next aesdInitModule calls)
  rw [Log.exec_next] at hlog
  cases hlog
  exact ⟨hreplies, hshows⟩

/-- What a reader of the driver state sees is what the log says. -/
structure Reads (k : Kernel) (log : Log) : Prop where
  ring : ringBytes k = log.commands.rtake 10
  pending : pendingBytes k = log.pending
  pos : k.fPos = log.pos
  lock : k.dev.lock = log.lost

theorem Shows.reads {k : Kernel} {log : Log} (h : Shows k log) : Reads k log := by
  obtain ⟨adds, hrep⟩ := h.represents
  exact ⟨hrep.retains.ringBytes_eq, hrep.pendingBytes_eq, h.pos_eq, h.lock_eq⟩

/-- From module load on, as long as no write faults on its user bytes: the
driver gives every call the reply that the log gives, errors and lost mutexes
included, and its ring, its pending entry, its mutex and the file positions are
those of the log. -/
theorem driver_is_log (calls : List Call) (hcopies : ∀ c ∈ calls, Copies c) :
    outputs CharDriver.next reply aesdInitModule calls =
        outputs Log.next Log.answer Log.empty calls ∧
      Reads (CharDriver.run aesdInitModule calls) (Log.empty.run calls) := by
  obtain ⟨hreplies, hshows⟩ := shows_run hcopies
  exact ⟨hreplies.symm, hshows.reads⟩

/-- Twelve commands: the ioctl finds four bytes in slot one, where the last of
them is, and leads into a command of two. -/
theorem driver_is_log_twelve :
    outputs CharDriver.next reply aesdInitModule
        (List.replicate 10 (.write 0 [97, 10] {}) ++
          List.replicate 2 (.write 0 [98, 98, 98, 10] {}) ++
          [.ioctl 1 AESDCHAR_IOCSEEKTO 1 ⟨1, 3⟩ {}, .read 1 9 {}]) =
      List.replicate 10 ⟨some 2, [.lock, .unlock], []⟩ ++
        List.replicate 2 ⟨some 4, [.lock, .unlock], []⟩ ++
        [⟨some 0, [.lock, .unlock], []⟩, ⟨some 1, [.lock, .unlock], [10]⟩] :=
  (driver_is_log _ (by decide)).1.trans (by decide)

/-- After every sequence of calls without a fault on written bytes: the bytes
allocated are those that the ring and the pending entry hold, in one block for
each of at most ten commands and one more for a command still open. -/
theorem allocation_exact (calls : List Call) (hcopies : ∀ c ∈ calls, Copies c) :
    (CharDriver.run aesdInitModule calls).heap.total List.length =
        (ringBytes (CharDriver.run aesdInitModule calls)).flatten.length +
          (pendingBytes (CharDriver.run aesdInitModule calls)).length ∧
      (liveBlocks (CharDriver.run aesdInitModule calls).heap).length =
        (ringBytes (CharDriver.run aesdInitModule calls)).length +
          (if pendingBytes (CharDriver.run aesdInitModule calls) = [] then 0 else 1) ∧
      (ringBytes (CharDriver.run aesdInitModule calls)).length ≤ 10 := by
  obtain ⟨_, hshows⟩ := shows_run hcopies
  obtain ⟨adds, hrep⟩ := hshows.represents
  rw [hshows.reads.ring, hshows.reads.pending]
  refine ⟨total_eq hrep, liveBlocks_length hrep (Log.terminated _), ?_⟩
  rw [List.rtake, List.length_drop]
  omega

/-- A command and one open byte. -/
theorem allocation_exact_open :
    (CharDriver.run aesdInitModule [.write 0 [97, 10] {}, .write 0 [98] {}]).heap.total
      List.length = 3 :=
  (allocation_exact [.write 0 [97, 10] {}, .write 0 [98] {}] (by decide)).1.trans (by decide)

end Aesd.DeviceSpec
