import Aesd.CharDriver

/-!
One worker of the socket server: `tcp_echoback` with the helpers it calls,
`tcp_receive`, `tcp_send`, `file_write`, `file_size` and `file_read`. A worker
runs from call to call. `Worker.op` is the call it is about to make,
`Worker.resume` is the code from the return of that call to the next one, and
everything the outside decides about a call is in its answer. The two buffers
are lists without their trailing zeros.
-/

namespace Aesd.EchoWorker

open CharDriver

def BUFFER_SIZE : ℕ := 1024 * 30

/-- The `buf` of `file_read`. -/
def READ_SIZE : ℕ := 1024

/-- The bytes of `"AESDCHAR_IOCSEEKTO"`. -/
def COMMAND : List Byte :=
  ['A', 'E', 'S', 'D', 'C', 'H', 'A', 'R', '_', 'I', 'O', 'C', 'S', 'E', 'E', 'K', 'T', 'O'].map
    fun c => c.toNat.toUInt8

def colon : Byte := 58
def comma : Byte := 44

/-- The value a computation leaves in an `int`. -/
def int32 (x : ℤ) : ℤ := Int.bmod x (2 ^ 32)

theorem int32_of_nonneg {x : ℤ} (h0 : 0 ≤ x) (h1 : x < 2 ^ 31) : int32 x = x := by
  unfold int32
  rw [Int.bmod_eq_of_le] <;> omega

theorem int32_lt (x : ℤ) : int32 x < 2 ^ 31 := by
  unfold int32
  have h := @Int.bmod_lt x (2 ^ 32) (by decide)
  omega

theorem toSize_of_nonneg {x : ℤ} (h0 : 0 ≤ x) (h1 : x < 2 ^ 31) : (toSize x : ℤ) = x := by
  unfold toSize
  omega

def untilNul (bytes : List Byte) : List Byte := bytes.takeWhile (· ≠ 0)

theorem untilNul_append {data : List Byte} (hdata : 0 ∉ data) (rest : List Byte) :
    untilNul (data ++ rest) = data ++ untilNul rest := by
  unfold untilNul
  rw [List.takeWhile_append_of_pos]
  intro b hb
  have hne : b ≠ 0 := fun hzero => hdata (hzero ▸ hb)
  simpa using hne

theorem untilNul_of_not_mem {data : List Byte} (hdata : 0 ∉ data) : untilNul data = data := by
  simpa [untilNul] using untilNul_append hdata []

/-- The string that starts at `rbuffer`. In a full buffer without a zero byte it
goes on into `past`, the memory behind the buffer. -/
def cstring (rbuffer past : List Byte) : List Byte :=
  untilNul (if rbuffer.length < BUFFER_SIZE then rbuffer else rbuffer ++ past)

/-- The string that starts at a packet without zero bytes starts with all of it. -/
theorem prefix_cstring {data : List Byte} (hdata : 0 ∉ data) (past : List Byte) :
    data <+: cstring data past := by
  unfold cstring
  split
  · rw [untilNul_of_not_mem hdata]
  · rw [untilNul_append hdata]
    exact List.prefix_append _ _

def isSpace (b : Byte) : Bool := b == 32 || (9 ≤ b && b ≤ 13)

def isDigit (b : Byte) : Bool := 48 ≤ b && b ≤ 57

/-- `%u`: white space, an optional sign, at least one digit. The number is
converted as by `strtoul`, which saturates, and stored in 32 bits. -/
def scanUnsigned (s : List Byte) : Option (UInt32 × List Byte) :=
  let s := s.dropWhile isSpace
  let negative := s.head? == some 45
  let s := if negative || s.head? == some 43 then s.drop 1 else s
  let digits := s.takeWhile isDigit
  if digits = [] then none
  else
    let n : ℕ := digits.foldl (fun n d => n * 10 + (d.toNat - 48)) 0
    let value := if 2 ^ 64 ≤ n then 2 ^ 64 - 1 else if negative then 2 ^ 64 - n else n
    some (UInt32.ofNat value, s.dropWhile isDigit)

/-- `sscanf(rbuffer, "AESDCHAR_IOCSEEKTO:%u,%u", ...)`. A field it does not get
to keeps the value it had. -/
def sscanfPair (s : List Byte) (pair : AesdSeekto) : AesdSeekto :=
  if (COMMAND ++ [colon]) <+: s then
    match scanUnsigned (s.drop (COMMAND.length + 1)) with
    | none => pair
    | some (writeCmd, []) => { pair with writeCmd }
    | some (writeCmd, b :: s) =>
      if b = comma then
        match scanUnsigned s with
        | none => { pair with writeCmd }
        | some (writeCmdOffset, _) => ⟨writeCmd, writeCmdOffset⟩
      else { pair with writeCmd }
  else pair

inductive Op
  | setComplete (status : Bool)
  | mutexLock
  | mutexUnlock
  | receive
  | write (buffer : List Byte)
  | flush
  | lseek (off whence : ℤ)
  | ioctl (pair : AesdSeekto)
  | read (size : ℤ)
  | send (buffer : List Byte)
  | exit
  deriving DecidableEq, Repr

/-- What a call gives back: a value, received bytes together with the memory
behind the receive buffer, or bytes read from the device. -/
inductive Answer
  | ret (r : ℤ)
  | recv (data past : List Byte)
  | bytes (data : List Byte)
  deriving DecidableEq, Repr

/-- The answers a call can have. For `receive`, zero stands for a closed peer
and for the timeout of `tcp_select`. -/
def Op.admits : Op → Answer → Bool
  | .receive, .ret r => r ≤ 0
  | .receive, .recv data _ => data ≠ [] && data.length ≤ BUFFER_SIZE
  | .write buffer, .ret r => r == -1 || (0 ≤ r && r ≤ buffer.length)
  | .flush, .ret r => r == 0 || r == -1
  | .lseek _ _, .ret r => -1 ≤ r
  | .ioctl _, .ret r => -1 ≤ r
  | .read _, .ret r => r == 0 || r == -1
  | .read size, .bytes data => data ≠ [] && data.length ≤ toSize size
  | .send buffer, .ret r => r == -1 || (0 ≤ r && r ≤ buffer.length)
  | .setComplete _, .ret r => r == 0
  | .mutexLock, .ret r => r == 0
  | .mutexUnlock, .ret r => r == 0
  | .exit, .ret r => r == 0
  | _, _ => false

/-- The calls of `tcp_echoback`. `sizeEnd` and `sizeSet` are the two `lseek`s of
`file_size`, with which of its two callers is running it. -/
inductive Pc
  | start
  | lock
  | receive
  | sizeEnd (command : Bool)
  | sizeSet (command : Bool)
  | ioctl
  | write
  | flush
  | read
  | send
  | unlock
  | unlockExit
  | finish
  | ret
  | done
  deriving DecidableEq, Repr

/-- The calls that can come after a call. -/
def Pc.successors : Pc → List Pc
  | .start => [.lock]
  | .lock => [.receive]
  | .receive => [.sizeEnd true, .write, .lock, .unlockExit]
  | .sizeEnd command => [.sizeSet command]
  | .sizeSet true => [.ioctl]
  | .sizeSet false => [.finish, .read]
  | .ioctl => [.finish, .read]
  | .write => [.finish, .flush]
  | .flush => [.sizeEnd false]
  | .read => [.read, .send, .finish]
  | .send => [.finish, .unlock]
  | .unlock => [.lock]
  | .unlockExit => [.finish]
  | .finish => [.ret]
  | .ret => [.done]
  | .done => []

/-- Between the return of `pthread_mutex_lock` and the end of the iteration. -/
def Pc.inside : Pc → Bool
  | .start | .lock | .finish | .ret | .done => false
  | _ => true

/-- After the loop. -/
def Pc.left : Pc → Bool
  | .finish | .ret | .done => true
  | _ => false

/-- The variables of `tcp_echoback` and of the helper that is running. `overrun`
records that a store went outside the `buf` of `file_read` or outside `sbuffer`;
of what comes after it C says nothing. -/
structure Worker where
  pc : Pc := .start
  rc : ℤ := 0
  rbuffer : List Byte := []
  past : List Byte := []
  sbuffer : List Byte := []
  pair : AesdSeekto
  fileEnd : ℤ := 0
  size : ℤ := 0
  overrun : Bool := false
  deriving DecidableEq, Repr

namespace Worker

/-- A new thread; its `pair` is not initialised. -/
def init (pair : AesdSeekto) : Worker := { pair }

def string (w : Worker) : List Byte := cstring w.rbuffer w.past

/-- The first `rc` bytes of the receive buffer. -/
def packet (w : Worker) : List Byte := w.rbuffer.take w.rc.toNat

def op (w : Worker) : Option Op :=
  match w.pc with
  | .start => some (.setComplete false)
  | .lock => some .mutexLock
  | .receive => some .receive
  | .sizeEnd _ => some (.lseek 0 SEEK_END)
  | .sizeSet _ => some (.lseek 0 SEEK_SET)
  | .ioctl => some (.ioctl w.pair)
  | .write => some (.write w.packet)
  | .flush => some .flush
  | .read => some (.read w.size)
  | .send => some (.send w.sbuffer)
  | .unlock => some .mutexUnlock
  | .unlockExit => some .mutexUnlock
  | .finish => some (.setComplete true)
  | .ret => some .exit
  | .done => none

/-- `recv` has stored `data` at the start of `rbuffer`. -/
def store (w : Worker) (data past : List Byte) : Worker :=
  { w with rc := data.length, rbuffer := data ++ w.rbuffer.drop data.length, past }

/-- `strchr` and `strstr` on the receive buffer. Without a newline the loop
starts again at `pthread_mutex_lock`. -/
def dispatch (w : Worker) : Worker :=
  { w with pc :=
      if newline ∈ w.string then if COMMAND <+: w.string then .sizeEnd true else .write
      else .lock }

/-- The parameter check of `file_read`; a negative result of it ends the loop. -/
def startRead (w : Worker) : Worker :=
  { w with pc := if w.size ≤ 0 then .finish else .read }

/-- `return end - front;`, and on the command path the `sscanf`. -/
def sized (w : Worker) (command : Bool) (front : ℤ) : Worker :=
  let w := { w with size := int32 (w.fileEnd - int32 front) }
  if command then { w with pair := sscanfPair w.string w.pair, pc := .ioctl }
  else w.startRead

/-- `strcat(buffer, buf); size -= bytes_read;` -/
def concat (w : Worker) (data : List Byte) : Worker :=
  { w with
    sbuffer := w.sbuffer ++ untilNul data
    size := int32 (w.size - data.length)
    overrun := w.overrun || READ_SIZE < data.length || READ_SIZE ≤ (untilNul data).length ||
      BUFFER_SIZE ≤ (w.sbuffer ++ untilNul data).length }

def resume (w : Worker) (a : Answer) : Worker :=
  match w.pc, a with
  | .start, .ret _ => { w with pc := .lock }
  | .lock, .ret _ => { w with pc := .receive }
  | .receive, .recv data past => (w.store data past).dispatch
  | .receive, .ret r => { w with rc := r, pc := .unlockExit }
  | .sizeEnd command, .ret r => { w with fileEnd := int32 r, pc := .sizeSet command }
  | .sizeSet command, .ret r => w.sized command r
  | .ioctl, .ret _ => w.startRead
  | .write, .ret r => { w with pc := if r ≤ 0 then .finish else .flush }
  | .flush, .ret _ => { w with pc := .sizeEnd false }
  | .read, .bytes data => w.concat data
  | .read, .ret r => { w with pc := if r = -1 then .finish else .send }
  | .send, .ret r =>
    if r ≤ 0 then { w with pc := .finish }
    else { w with rbuffer := [], sbuffer := [], pc := .unlock }
  | .unlock, .ret _ => { w with pc := .lock }
  | .unlockExit, .ret _ => { w with pc := .finish }
  | .finish, .ret _ => { w with pc := .ret }
  | .ret, .ret _ => { w with pc := .done }
  | _, _ => w

/-- The worker makes its next call and gets the answer `a`. -/
def step (w : Worker) (a : Answer) : Option Worker :=
  match w.op with
  | some op => if op.admits a then some (w.resume a) else none
  | none => none

theorem store_packet {w : Worker} (hbuf : w.rbuffer = []) (data past : List Byte) :
    (w.store data past).packet = data := by simp [packet, store, hbuf]

theorem store_string {w : Worker} (hbuf : w.rbuffer = []) (data past : List Byte) :
    (w.store data past).string = cstring data past := by simp [string, store, hbuf]

theorem op_eq_mutexLock {w : Worker} : w.op = some .mutexLock ↔ w.pc = .lock := by
  cases hpc : w.pc <;> simp [op, hpc]

theorem op_eq_mutexUnlock {w : Worker} :
    w.op = some .mutexUnlock ↔ w.pc = .unlock ∨ w.pc = .unlockExit := by
  cases hpc : w.pc <;> simp [op, hpc]

/-- What a step can be: one constructor for each way a call is answered. -/
inductive Moves (w : Worker) : Answer → Worker → Prop
  | start (hpc : w.pc = .start) : Moves w (.ret 0) { w with pc := .lock }
  | lock (hpc : w.pc = .lock) : Moves w (.ret 0) { w with pc := .receive }
  | receive {data past : List Byte} (hpc : w.pc = .receive) (hne : data ≠ [])
      (hlen : data.length ≤ BUFFER_SIZE) : Moves w (.recv data past) (w.store data past).dispatch
  | close {r : ℤ} (hpc : w.pc = .receive) (hr : r ≤ 0) :
      Moves w (.ret r) { w with rc := r, pc := .unlockExit }
  | sizeEnd {command : Bool} {r : ℤ} (hpc : w.pc = .sizeEnd command) (hr : -1 ≤ r) :
      Moves w (.ret r) { w with fileEnd := int32 r, pc := .sizeSet command }
  | sizeSet {command : Bool} {r : ℤ} (hpc : w.pc = .sizeSet command) (hr : -1 ≤ r) :
      Moves w (.ret r) (w.sized command r)
  | ioctl {r : ℤ} (hpc : w.pc = .ioctl) (hr : -1 ≤ r) : Moves w (.ret r) w.startRead
  | write {r : ℤ} (hpc : w.pc = .write)
      (hr : r = -1 ∨ 0 ≤ r ∧ r ≤ w.packet.length) :
      Moves w (.ret r) { w with pc := if r ≤ 0 then .finish else .flush }
  | flush {r : ℤ} (hpc : w.pc = .flush) (hr : r = 0 ∨ r = -1) :
      Moves w (.ret r) { w with pc := .sizeEnd false }
  | bytes {data : List Byte} (hpc : w.pc = .read) (hne : data ≠ [])
      (hlen : data.length ≤ toSize w.size) : Moves w (.bytes data) (w.concat data)
  | endOfFile (hpc : w.pc = .read) : Moves w (.ret 0) { w with pc := .send }
  | readError (hpc : w.pc = .read) : Moves w (.ret (-1)) { w with pc := .finish }
  | send {r : ℤ} (hpc : w.pc = .send) (hr : r = -1 ∨ 0 ≤ r ∧ r ≤ w.sbuffer.length) :
      Moves w (.ret r) (if r ≤ 0 then { w with pc := .finish }
        else { w with rbuffer := [], sbuffer := [], pc := .unlock })
  | unlock (hpc : w.pc = .unlock) : Moves w (.ret 0) { w with pc := .lock }
  | unlockExit (hpc : w.pc = .unlockExit) : Moves w (.ret 0) { w with pc := .finish }
  | finish (hpc : w.pc = .finish) : Moves w (.ret 0) { w with pc := .ret }
  | ret (hpc : w.pc = .ret) : Moves w (.ret 0) { w with pc := .done }

theorem startRead_cases (w : Worker) :
    w.startRead = { w with pc := .finish } ∨ w.startRead = { w with pc := .read } := by
  unfold startRead
  by_cases hsize : w.size ≤ 0
  · exact Or.inl (by rw [if_pos hsize])
  · exact Or.inr (by rw [if_neg hsize])

theorem startRead_pc (w : Worker) : w.startRead.pc ∈ [Pc.finish, .read] := by
  rcases w.startRead_cases with hread | hread
  · simp [hread]
  · simp [hread]

/-- A property of the order of the calls needs no look at the moves. -/
theorem Moves.pc_mem {w w' : Worker} {a : Answer} (h : Moves w a w') :
    w'.pc ∈ w.pc.successors := by
  cases h with
  | receive hpc =>
    rw [hpc]
    unfold dispatch
    split
    · split <;> simp [Pc.successors]
    · simp [Pc.successors]
  | @sizeSet command r hpc =>
    rw [hpc]
    cases command with
    | false => exact startRead_pc { w with size := int32 (w.fileEnd - int32 r) }
    | true => exact List.mem_singleton_self _
  | ioctl hpc =>
    rw [hpc]
    exact startRead_pc w
  | write hpc | send hpc =>
    rw [hpc]
    split <;> simp [Pc.successors]
  | bytes hpc => simp [concat, hpc, Pc.successors]
  | start hpc | lock hpc | close hpc | sizeEnd hpc | flush hpc | endOfFile hpc | readError hpc
  | unlock hpc | unlockExit hpc | finish hpc | ret hpc => simp [hpc, Pc.successors]

/-- A thread that has ended makes no call. -/
theorem Moves.not_done {w w' : Worker} {a : Answer} (h : Moves w a w') : w.pc ≠ .done := by
  intro hdone
  have hmem := h.pc_mem
  rw [hdone] at hmem
  cases hmem

theorem step_moves {w w' : Worker} {a : Answer} (h : w.step a = some w') : Moves w a w' := by
  cases hpc : w.pc <;> simp only [step, Worker.op, hpc] at h
  case done => cases h
  all_goals
    obtain ⟨ha, hw⟩ := Option.ite_none_right_eq_some.mp h
    cases hw
    cases a <;>
      simp only [Op.admits, Bool.and_eq_true, Bool.or_eq_true, decide_eq_true_eq, beq_iff_eq,
        Bool.false_eq_true] at ha
  all_goals simp only [resume, hpc]
  case start.refl.ret => subst ha; exact Moves.start hpc
  case lock.refl.ret => subst ha; exact Moves.lock hpc
  case receive.refl.recv => exact Moves.receive hpc ha.1 ha.2
  case receive.refl.ret => exact Moves.close hpc ha
  case sizeEnd.refl.ret => exact Moves.sizeEnd hpc ha
  case sizeSet.refl.ret => exact Moves.sizeSet hpc ha
  case ioctl.refl.ret => exact Moves.ioctl hpc ha
  case write.refl.ret => exact Moves.write hpc ha
  case flush.refl.ret => exact Moves.flush hpc ha
  case read.refl.bytes => exact Moves.bytes hpc ha.1 ha.2
  case read.refl.ret =>
    rcases ha with rfl | rfl
    · exact Moves.endOfFile hpc
    · exact Moves.readError hpc
  case send.refl.ret => exact Moves.send hpc ha
  case unlock.refl.ret => subst ha; exact Moves.unlock hpc
  case unlockExit.refl.ret => subst ha; exact Moves.unlockExit hpc
  case finish.refl.ret => subst ha; exact Moves.finish hpc
  case ret.refl.ret => subst ha; exact Moves.ret hpc

end Worker

end Aesd.EchoWorker
