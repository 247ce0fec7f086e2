import Aesd.EchoWorker
import Aesd.SeekArithmetic

/-!
`file_read` on the device. It asks for as many bytes as `file_size` reported,
whatever the size of its own buffer, and appends what comes as a string to the
reply buffer. While the content fits the small buffer with room for a terminator,
both buffers are kept and the reply is the content from the starting position on;
from a larger content the first `read` call is already out of bounds.
-/

namespace Aesd.FileRead

open RingBuffer CharDriver EchoWorker DeviceStore DeviceReads RingIntact ReadToEnd SeekArithmetic
open Offsets Runs

/-- `return end - front;` -/
def fileSize (k : Kernel) (file : ℕ) : ℤ :=
  let toEnd := aesdLlseek k file 0 SEEK_END {}
  let toFront := aesdLlseek toEnd.2 file 0 SEEK_SET {}
  int32 (int32 (toEnd.1.ret.getD 0) - int32 (toFront.1.ret.getD 0))

/-- What the environment decides in one round: how the call goes, and which
bytes lie behind `buf`. -/
structure Round where
  env : Env := {}
  past : List Byte := []

/-- The variables of `file_read`, with the string in `buffer`; `result` is its
return value. -/
structure Reader where
  kernel : Kernel
  buf : List Byte
  buffer : List Byte
  size : ℤ
  result : Option ℤ

namespace Reader

/-- `char buf[1024] = {0};` and the test of `size`. -/
def start (k : Kernel) (size : ℤ) : Reader where
  kernel := k
  buf := List.replicate READ_SIZE 0
  buffer := []
  size := size
  result := if size ≤ 0 then some (-1) else none

/-- `read(fd, buf, size)` -/
def call (r : Reader) (file : ℕ) (round : Round) : Reply × Kernel :=
  aesdRead r.kernel file (toSize r.size) round.env

/-- The bytes of `buf` after the call; more of them than `buf` has if the call
stored outside. -/
def filled (r : Reader) (file : ℕ) (round : Round) : List Byte :=
  copyIn r.buf 0 (r.call file round).1.data

/-- The string that `strcat` finds at `buf`. -/
def string (r : Reader) (file : ℕ) (round : Round) : List Byte :=
  untilNul (r.filled file round ++ round.past)

def next (file : ℕ) (r : Reader) (round : Round) : Option Reader :=
  match r.result, (r.call file round).1.ret with
  | some _, _ => none
  | none, none => none
  | none, some bytesRead =>
    if bytesRead < 0 then some { r with kernel := (r.call file round).2, result := some (-1) }
    else if bytesRead = 0 then some { r with kernel := (r.call file round).2, result := some 0 }
    else some { r with
      kernel := (r.call file round).2
      buf := List.replicate READ_SIZE 0
      buffer := r.buffer ++ r.string file round
      size := int32 (r.size - bytesRead) }

/-- The call is asked for no more than `buf` can take; and when something came,
the string ends inside `buf` and fits into `buffer` with its terminator. -/
structure InBounds (file : ℕ) (r : Reader) (round : Round) : Prop where
  asked : toSize r.size ≤ READ_SIZE
  terminated : ∀ n, (r.call file round).1.ret = some n → 0 < n →
    0 ∈ (r.filled file round).take READ_SIZE
  fits : ∀ n, (r.call file round).1.ret = some n → 0 < n →
    (r.buffer ++ r.string file round).length < BUFFER_SIZE

end Reader

/-- Every run stays in bounds, and leaves the rest of the content in `buffer` if it succeeds. -/
def ReadsContent (k : Kernel) (file start : ℕ) (size : ℤ) : Prop :=
  ∀ rounds, Steps (Reader.next file) (Reader.InBounds file) (Reader.start k size) rounds ∧
    ∀ r, exec (Reader.next file) (Reader.start k size) rounds = some r → r.result = some 0 →
      r.buffer = (deviceBytes k).drop start

/-- The content fits `buf`, and no single command fills it to the last byte. -/
def FitsBuf (k : Kernel) (start : ℕ) : Prop :=
  (deviceBytes k).length ≤ READ_SIZE ∧
    ¬ (start = 0 ∧ ∃ command, ringBytes k = [command] ∧ command.length = READ_SIZE)

/-- What the server writes: packets up to its buffer size, without a zero byte. -/
def Stored (k : Kernel) : Prop :=
  ∀ command ∈ ringBytes k, command ≠ [] ∧ command.length ≤ BUFFER_SIZE ∧ 0 ∉ command

section Content

variable {k : Kernel} {adds : List BufferEntry}

theorem zero_not_mem_deviceBytes (h : Stored k) : 0 ∉ deviceBytes k := by
  intro hmem
  obtain ⟨command, hin, hzero⟩ := List.mem_flatten.mp hmem
  exact (h command hin).2.2 hzero

/-- Ten packets at the most. -/
theorem deviceBytes_le (hintact : Intact k adds) (h : Stored k) :
    (deviceBytes k).length ≤ 10 * BUFFER_SIZE := by
  have hten : (ringBytes k).length ≤ 10 := by
    rw [hintact.retains.ringBytes_eq, List.rtake, List.length_drop]
    omega
  have hsum : ((ringBytes k).map List.length).sum ≤ (ringBytes k).length * BUFFER_SIZE := by
    have hle := List.sum_le_card_nsmul ((ringBytes k).map List.length) BUFFER_SIZE (by
      intro n hn
      obtain ⟨command, hin, rfl⟩ := List.mem_map.mp hn
      exact (h command hin).2.1)
    simpa using hle
  rw [deviceBytes, List.length_flatten]
  exact hsum.trans (Nat.mul_le_mul_right _ hten)

/-- An entry as long as the whole content is the only one. -/
theorem single_of_full (hintact : Intact k adds) (h : Stored k) {e : BufferEntry}
    (he : e ∈ k.dev.circularBuffer.fifo) (hfull : (deviceBytes k).length ≤ e.size) :
    ∃ command, ringBytes k = [command] ∧ command.length = (deviceBytes k).length := by
  obtain ⟨earlier, later, hfifo⟩ := List.append_of_mem he
  have hring : ringBytes k = earlier.map (entryBytes k.heap) ++
      entryBytes k.heap e :: later.map (entryBytes k.heap) := by
    rw [ringBytes, hfifo, List.map_append, List.map_cons]
  obtain ⟨command, hholds⟩ := hintact.stored e (mem_foreach_of_fifo hintact.fifo he)
  have hlen : e.size = (entryBytes k.heap e).length := by
    rw [hholds.entryBytes_eq, hholds.size_eq]
  have hsum : (deviceBytes k).length = (earlier.map (entryBytes k.heap)).flatten.length +
      ((entryBytes k.heap e).length + (later.map (entryBytes k.heap)).flatten.length) := by
    rw [deviceBytes, hring, List.flatten_append, List.flatten_cons, List.length_append,
      List.length_append]
  have hnone : ∀ commands : List (List Byte), (∀ c ∈ commands, c ∈ ringBytes k) →
      commands.flatten.length = 0 → commands = [] := by
    intro commands hin hzero
    rw [List.length_eq_zero_iff, List.flatten_eq_nil_iff] at hzero
    exact List.eq_nil_iff_forall_not_mem.mpr fun c hc => (h c (hin c hc)).1 (hzero c hc)
  have hearlier := hnone (earlier.map (entryBytes k.heap))
    (fun c hc => by rw [hring]; exact List.mem_append_left _ hc) (by omega)
  have hlater := hnone (later.map (entryBytes k.heap))
    (fun c hc => by rw [hring]; exact List.mem_append_right _ (List.mem_cons_of_mem _ hc))
    (by omega)
  rw [hearlier, hlater] at hring
  refine ⟨_, hring, ?_⟩
  rw [deviceBytes, hring]
  simp

/-- `file_size` reports the length of the content. -/
theorem fileSize_eq {calls : List Call} {file : ℕ} {pos : ℤ} (h : Stored (deviceAt calls file pos))
    : fileSize (deviceAt calls file pos) file = (deviceBytes (deviceAt calls file pos)).length := by
  obtain ⟨adds, hintact⟩ := intact_deviceAt calls file pos
  have hlen := deviceBytes_le hintact h
  have hbound : 10 * BUFFER_SIZE < 2 ^ 31 := by decide
  generalize hk : deviceAt calls file pos = k at *
  have hfree : k.dev.lock = false := by rw [← hk]; rfl
  have hend : seekTarget k file 0 SEEK_END = some ↑(deviceBytes k).length := by
    rw [seekTarget_eq hintact (Or.inr (Or.inr rfl)) (by decide) (by decide), Int.add_zero]
    exact congrArg some (loff_natCast (by omega))
  have hfront : seekTarget (k.setPos file ↑(deviceBytes k).length) file 0 SEEK_SET = some 0 := rfl
  have hfree' : (k.setPos file ↑(deviceBytes k).length).dev.lock = false := hfree
  unfold fileSize
  rw [aesdLlseek_eq hfree rfl hend, if_neg (by omega)]
  dsimp only
  rw [aesdLlseek_eq hfree' rfl hfront, if_neg (by omega)]
  dsimp only [Option.getD_some]
  have hzero : int32 0 = 0 := by decide
  have hsize : int32 ↑(deviceBytes k).length = ↑(deviceBytes k).length :=
    int32_of_nonneg (by omega) (by omega)
  rw [hzero, hsize, Int.sub_zero, hsize]

end Content

/-- The loop after `p - start` bytes. -/
structure Reading (k : Kernel) (file start p : ℕ) (r : Reader) : Prop where
  kernel_eq : r.kernel = k.setPos file p
  from_start : start ≤ p
  inside : p ≤ (deviceBytes k).length
  size_eq : r.size = ↑((deviceBytes k).length - (p - start))
  buf_eq : r.buf = List.replicate READ_SIZE 0
  buffer_eq : r.buffer = ((deviceBytes k).drop start).take (p - start)
  running : r.result = none

/-- `file_read` is still reading, or has the content, or has failed. -/
def Underway (k : Kernel) (file start : ℕ) (r : Reader) : Prop :=
  (∃ p, Reading k file start p r) ∨
    (r.result = some 0 ∧ r.buffer = (deviceBytes k).drop start) ∨ r.result = some (-1)

section Loop

variable {k : Kernel} {adds : List BufferEntry} {file start p : ℕ} {r r' : Reader} {round : Round}

theorem Reading.count_eq (h : Reading k file start p r) (hintact : Intact k adds) :
    toSize r.size = (deviceBytes k).length - (p - start) := by
  have hlen : (deviceBytes k).length < 2 ^ 63 := hintact.content_lt
  rw [h.size_eq]
  exact toSize_natCast (by omega)

/-- What the next `read` can do: fail, report the end, or deliver. -/
theorem Reading.call_cases (h : Reading k file start p r) (hintact : Intact k adds)
    (hfree : k.dev.lock = false) (round : Round) :
    (∃ err < 0, (r.call file round).1.ret = some err) ∨
    (p = (deviceBytes k).length ∧ (r.call file round).1.ret = some 0) ∨
    ∃ n, 0 < n ∧ Delivers (k.setPos file p) file (toSize r.size) p n (r.call file round) := by
  have hat : Intact (k.setPos file p) adds := hintact.congr ⟨rfl, rfl, rfl⟩
  have hlen : (deviceBytes k).length < 2 ^ 63 := hintact.content_lt
  have hin := h.inside
  unfold Reader.call
  rw [h.kernel_eq]
  by_cases hserved : accessOk round.env (toSize r.size) = true ∧ round.env.interrupted = false
  swap
  · obtain ⟨err, hneg, heq⟩ := aesdRead_refused hserved (k.setPos file p) file
    exact Or.inl ⟨err, hneg, by rw [heq]⟩
  rcases Nat.eq_or_lt_of_le hin with hend | hbefore
  · rw [read_at_end hat hserved.1 hserved.2 hfree (by simp) (by omega) hend.ge]
    exact Or.inr (Or.inl ⟨hend, rfl⟩)
  · have hcount := h.count_eq hintact
    have hstart := h.from_start
    rcases @read_cases _ _ file p ⟨toSize r.size, round.env⟩ hat
      ⟨by dsimp only; omega, hserved.1, hserved.2⟩ hfree (by simp) (by omega) with
      ⟨_, heq⟩ | ⟨n, hcall⟩
    · exact Or.inl ⟨-EFAULT, by decide, by rw [heq]⟩
    · have hmoves : n ≠ 0 := fun hzero => Nat.not_le_of_lt hbefore (hcall.at_end.mp hzero)
      exact Or.inr (Or.inr ⟨n, Nat.pos_of_ne_zero hmoves, hcall⟩)

theorem zero_not_mem_data (hstored : Stored k) {count n : ℕ} {result : Reply × Kernel}
    (hcall : Delivers (k.setPos file p) file count p n result) : 0 ∉ result.1.data := by
  rw [hcall.data_eq]
  exact fun hmem => zero_not_mem_deviceBytes hstored
    (List.mem_of_mem_drop (List.mem_of_mem_take hmem))

theorem delivered_le_rest {count n : ℕ} {result : Reply × Kernel}
    (hcall : Delivers (k.setPos file p) file count p n result) :
    n ≤ (deviceBytes k).length - p := by
  have hlen := hcall.length_eq
  rw [hcall.data_eq, List.length_take, List.length_drop] at hlen
  change min n ((deviceBytes k).length - p) = n at hlen
  omega

/-- What comes leaves room for a terminator in `buf`. -/
theorem Reading.delivered_lt (h : Reading k file start p r) (hintact : Intact k adds)
    (hstored : Stored k) (hfit : FitsBuf k start) {n : ℕ}
    (hcall : Delivers (k.setPos file p) file (toSize r.size) p n (r.call file round)) :
    n < READ_SIZE := by
  have hcount := h.count_eq hintact
  have hstart := h.from_start
  have hle := hcall.le_count
  have hrest := delivered_le_rest hcall
  have htotal := hfit.1
  have hbuf : 0 < READ_SIZE := by decide
  by_contra hfull
  -- a read that fills `buf` delivers the whole content out of one entry
  obtain ⟨e, he, from_, hsize, _⟩ := hcall.inside (by omega)
  obtain ⟨command, hring, hlength⟩ := @single_of_full _ _ hintact hstored e he (by omega)
  exact hfit.2 ⟨by omega, command, hring, by omega⟩

/-- The string is what came. -/
theorem Reading.string_eq (h : Reading k file start p r) (hstored : Stored k) {n : ℕ}
    (hlt : n < READ_SIZE)
    (hcall : Delivers (k.setPos file p) file (toSize r.size) p n (r.call file round)) :
    0 ∈ (r.filled file round).take READ_SIZE ∧
      r.string file round = (r.call file round).1.data := by
  have hlen := hcall.length_eq
  have hzero := zero_not_mem_data hstored hcall
  obtain ⟨m, hm⟩ : ∃ m, READ_SIZE - n = m + 1 := ⟨READ_SIZE - n - 1, by omega⟩
  have hfilled : r.filled file round =
      (r.call file round).1.data ++ List.replicate (m + 1) 0 := by
    rw [Reader.filled, h.buf_eq, copyIn, List.take_zero, List.nil_append, Nat.zero_add, hlen,
      List.drop_replicate, hm]
  constructor
  · rw [hfilled, List.take_of_length_le (by simp; omega)]
    simp [List.replicate_succ]
  · rw [Reader.string, hfilled, List.append_assoc, List.replicate_succ, List.cons_append,
      untilNul_append hzero]
    simp [untilNul]

/-- One round. -/
theorem Reading.step (h : Reading k file start p r) (hintact : Intact k adds)
    (hfree : k.dev.lock = false) (hstored : Stored k) (hfit : FitsBuf k start)
    (hnext : r.next file round = some r') :
    r.InBounds file round ∧ Underway k file start r' := by
  have hcount := h.count_eq hintact
  have htotal := hfit.1
  have hasked : toSize r.size ≤ READ_SIZE := by omega
  rcases h.call_cases hintact hfree round with ⟨err, hneg, hret⟩ | ⟨hend, hret⟩ | ⟨n, hpos, hcall⟩
  · rw [Reader.next, h.running, hret] at hnext
    dsimp only at hnext
    rw [if_pos hneg] at hnext
    cases hnext
    refine ⟨⟨hasked, fun n hn hpos => ?_, fun n hn hpos => ?_⟩, Or.inr (Or.inr rfl)⟩
    all_goals
      rw [hret] at hn
      cases hn
      omega
  · rw [Reader.next, h.running, hret] at hnext
    cases hnext
    refine ⟨⟨hasked, fun n hn hpos => ?_, fun n hn hpos => ?_⟩, Or.inr (Or.inl ⟨rfl, ?_⟩)⟩
    · rw [hret] at hn
      cases hn
      omega
    · rw [hret] at hn
      cases hn
      omega
    · dsimp only
      rw [h.buffer_eq, List.take_of_length_le]
      rw [List.length_drop, hend]
  · have hlt := h.delivered_lt hintact hstored hfit hcall
    obtain ⟨hterminated, hstring⟩ := h.string_eq hstored hlt hcall
    have hstart := h.from_start
    have hin := h.inside
    have hbuffer : r.buffer ++ r.string file round =
        ((deviceBytes k).drop start).take (p + n - start) := by
      have hsplit : p + n - start = p - start + n := by omega
      have hback : start + (p - start) = p := by omega
      rw [hstring, hcall.data_eq, h.buffer_eq, hsplit, List.take_add, List.drop_drop, hback]
      rfl
    have hrest := delivered_le_rest hcall
    have hfits : (r.buffer ++ r.string file round).length < BUFFER_SIZE := by
      rw [hbuffer, List.length_take, List.length_drop]
      unfold READ_SIZE at htotal
      unfold BUFFER_SIZE
      omega
    refine ⟨⟨hasked, fun _ _ _ => hterminated, fun _ _ _ => hfits⟩, Or.inl ⟨p + n, ?_⟩⟩
    rw [Reader.next, h.running, hcall.ret_eq] at hnext
    dsimp only at hnext
    rw [if_neg (by omega), if_neg (by omega)] at hnext
    cases hnext
    exact {
      kernel_eq := by
        rw [hcall.moved]
        exact setPos_setPos _ _ _ _
      from_start := by omega
      inside := by omega
      size_eq := by
        have hsmall : READ_SIZE < 2 ^ 31 := by decide
        dsimp only
        rw [h.size_eq, int32_of_nonneg (by omega) (by omega)]
        omega
      buf_eq := rfl
      buffer_eq := hbuffer
      running := rfl }

/-- A round in bounds is the worker's next step: it reads on with the same string
and size, or sends the string, or ends the loop. -/
theorem Reading.worker_step (h : Reading k file start p r) (hintact : Intact k adds)
    (hfree : k.dev.lock = false) (hstored : Stored k) (hfit : FitsBuf k start)
    (hnext : r.next file round = some r') {w : Worker} (hpc : w.pc = .read)
    (hbuffer : w.sbuffer = r.buffer) (hsize : w.size = r.size) :
    ∃ answer w', w.step answer = some w' ∧ w'.overrun = w.overrun ∧
      ((r'.result = none ∧ w'.pc = .read ∧ w'.sbuffer = r'.buffer ∧ w'.size = r'.size) ∨
        (r'.result = some 0 ∧ w'.op = some (.send r'.buffer)) ∨
        (r'.result = some (-1) ∧ w'.pc = .finish)) := by
  obtain ⟨hbounds, _⟩ := h.step hintact hfree hstored hfit hnext
  rcases h.call_cases hintact hfree round with ⟨err, hneg, hret⟩ | ⟨_, hret⟩ | ⟨n, hpos, hcall⟩
  · rw [Reader.next, h.running, hret] at hnext
    dsimp only at hnext
    rw [if_pos hneg] at hnext
    cases hnext
    refine ⟨.ret (-1), { w with pc := .finish }, ?_, rfl, Or.inr (Or.inr ⟨rfl, rfl⟩)⟩
    simp [Worker.step, Worker.op, hpc, Op.admits, Worker.resume]
  · rw [Reader.next, h.running, hret] at hnext
    cases hnext
    refine ⟨.ret 0, { w with pc := .send }, ?_, rfl, Or.inr (Or.inl ⟨rfl, ?_⟩)⟩
    · simp [Worker.step, Worker.op, hpc, Op.admits, Worker.resume]
    · rw [← hbuffer]
      rfl
  · have hlt := h.delivered_lt hintact hstored hfit hcall
    obtain ⟨_, hstring⟩ := h.string_eq hstored hlt hcall
    have hlen := hcall.length_eq
    have hzero := zero_not_mem_data hstored hcall
    have hfits := hbounds.fits n hcall.ret_eq (by omega)
    rw [Reader.next, h.running, hcall.ret_eq] at hnext
    dsimp only at hnext
    rw [if_neg (by omega), if_neg (by omega)] at hnext
    cases hnext
    refine ⟨.bytes (r.call file round).1.data, w.concat (r.call file round).1.data, ?_, ?_,
      Or.inl ⟨rfl, hpc, ?_, ?_⟩⟩
    · have hne : (r.call file round).1.data ≠ [] := List.ne_nil_of_length_pos (by omega)
      have hle : (r.call file round).1.data.length ≤ toSize w.size := by
        rw [hlen, hsize]
        exact hcall.le_count
      simp [Worker.step, Worker.op, hpc, Op.admits, Worker.resume, hne, hle]
    · rw [hstring] at hfits
      have hshort : ¬ READ_SIZE < n := by omega
      have hroom : ¬ READ_SIZE ≤ n := by omega
      simp only [Worker.concat, untilNul_of_not_mem hzero, hbuffer, hlen, hshort, hroom,
        Nat.not_le.mpr hfits, decide_false, Bool.or_false]
    · simp [Worker.concat, untilNul_of_not_mem hzero, hbuffer, hstring]
    · simp [Worker.concat, hsize, hlen]

theorem Underway.step (h : Underway k file start r) (hintact : Intact k adds)
    (hfree : k.dev.lock = false) (hstored : Stored k) (hfit : FitsBuf k start)
    (hnext : r.next file round = some r') :
    r.InBounds file round ∧ Underway k file start r' := by
  have hover : ∀ code, r.result ≠ some code := by
    intro code hresult
    rw [Reader.next, hresult] at hnext
    cases hnext
  rcases h with ⟨p, hreading⟩ | ⟨hresult, _⟩ | hresult
  · exact hreading.step hintact hfree hstored hfit hnext
  · exact absurd hresult (hover 0)
  · exact absurd hresult (hover (-1))

theorem reading_start (hat : k.fPos file = start) (hin : start ≤ (deviceBytes k).length)
    (hpos : 0 < (deviceBytes k).length) :
    Reading k file start start (Reader.start k (deviceBytes k).length) where
  kernel_eq := by
    have hself := k.setPos_self file
    rw [hat] at hself
    exact hself.symm
  from_start := le_rfl
  inside := hin
  size_eq := by
    rw [Nat.sub_self]
    rfl
  buf_eq := rfl
  buffer_eq := by
    rw [Nat.sub_self, List.take_zero]
    rfl
  running := if_neg (by omega)

/-- The call returns. -/
theorem Reading.exists_next (h : Reading k file start p r) (hintact : Intact k adds)
    (hfree : k.dev.lock = false) (round : Round) : ∃ r', r.next file round = some r' := by
  have hret : ∃ n, (r.call file round).1.ret = some n := by
    rcases h.call_cases hintact hfree round with ⟨err, _, hret⟩ | ⟨_, hret⟩ | ⟨n, _, hcall⟩
    · exact ⟨err, hret⟩
    · exact ⟨0, hret⟩
    · exact ⟨n, hcall.ret_eq⟩
  obtain ⟨n, hret⟩ := hret
  rw [Reader.next, h.running, hret]
  dsimp only
  split
  · exact ⟨_, rfl⟩
  · split <;> exact ⟨_, rfl⟩

/-- A single command comes in one read. -/
theorem read_single (hintact : Intact k adds) (hfree : k.dev.lock = false)
    (hpos : k.fPos file = ((0 : ℕ) : ℤ)) {command : List Byte} (hring : ringBytes k = [command])
    (hne : command ≠ []) :
    (aesdRead k file command.length {}).1.ret = some ↑command.length := by
  have hcontent := hintact.content_eq
  rw [hring, List.flatten_singleton] at hcontent
  have hlen : command.length < 2 ^ 63 := by
    have hlt := hintact.content_lt
    rwa [hring, List.flatten_singleton] at hlt
  have hsizes : k.dev.circularBuffer.fifo.map BufferEntry.size = [command.length] := by
    rw [hintact.fifo_sizes, hring, List.map_singleton]
  obtain ⟨e, hfifo, hsize⟩ := List.map_eq_singleton_iff.mp hsizes
  have hslot : k.dev.circularBuffer.slot ((k.dev.circularBuffer.outOffs + 0) % 10) = e :=
    CircularBuffer.slot_of_fifo (by rw [hfifo]; rfl)
  have hfound : locate [command.length] 0 = some (0, 0) :=
    if_pos (List.length_pos_iff.mpr hne)
  have haccess : accessOk {} command.length = true := by simpa [accessOk] using hlen
  rw [aesdRead_eq hintact.retains haccess rfl hfree hpos (by decide) (by rw [hcontent]; exact hlen),
    hsizes, hfound]
  dsimp only
  rw [hslot, hsize, Nat.sub_zero, Nat.min_self, if_neg (by simp [copyFaults])]

/-- A single command that fills `buf` leaves no room for a terminator. -/
theorem Reading.not_inBounds (h : Reading k file 0 0 r) (hintact : Intact k adds)
    (hfree : k.dev.lock = false) (hstored : Stored k) {command : List Byte}
    (hring : ringBytes k = [command]) (hfull : command.length = READ_SIZE) :
    ¬ r.InBounds file {} := by
  have hbuf : 0 < READ_SIZE := by decide
  have hne : command ≠ [] := List.ne_nil_of_length_pos (by omega)
  have hbytes : deviceBytes k = command := by rw [deviceBytes, hring, List.flatten_singleton]
  have hat : Intact (k.setPos file ((0 : ℕ) : ℤ)) adds := hintact.congr ⟨rfl, rfl, rfl⟩
  have hcount := h.count_eq hintact
  rw [hbytes, Nat.sub_zero] at hcount
  have hret : (r.call file {}).1.ret = some ↑command.length := by
    unfold Reader.call
    rw [h.kernel_eq, hcount]
    exact read_single hat hfree (by simp) hring hne
  rcases h.call_cases hintact hfree {} with ⟨err, hneg, herr⟩ | ⟨_, hnone⟩ | ⟨n, hpos, hcall⟩
  · rw [hret] at herr
    cases herr
    omega
  · rw [hret] at hnone
    have hzero := Option.some.inj hnone
    omega
  · intro hbounds
    have hn : n = READ_SIZE := by
      have heq := Option.some.inj (hcall.ret_eq.symm.trans hret)
      omega
    have hdata : (r.call file {}).1.data = command := by
      have heq := hcall.data_eq
      change _ = ((deviceBytes k).drop 0).take n at heq
      rw [heq, hbytes, List.drop_zero, List.take_of_length_le (by omega)]
    have hzero := hbounds.terminated _ hcall.ret_eq (by omega)
    rw [Reader.filled, h.buf_eq, hdata, copyIn, List.take_zero, List.nil_append, ← hfull,
      List.take_left] at hzero
    exact (hstored command (by rw [hring]; exact List.mem_singleton_self _)).2.2 hzero

theorem readsContent_of_fits (hat : k.fPos file = start) (hin : start ≤ (deviceBytes k).length)
    (hintact : Intact k adds) (hfree : k.dev.lock = false) (hstored : Stored k)
    (hfit : FitsBuf k start) : ReadsContent k file start (deviceBytes k).length := by
  intro rounds
  have hstart : Underway k file start (Reader.start k (deviceBytes k).length) := by
    rcases Nat.eq_zero_or_pos (deviceBytes k).length with hzero | hpos
    · exact Or.inr (Or.inr (if_pos (by omega)))
    · exact Or.inl ⟨start, reading_start hat hin hpos⟩
  have hkeep : ∀ r round r', Underway k file start r → r.next file round = some r' →
      r.InBounds file round ∧ Underway k file start r' :=
    fun r round r' hr hnext => hr.step hintact hfree hstored hfit hnext
  refine ⟨Steps.of_invariant hkeep hstart rounds, fun r hrun hdone => ?_⟩
  have hend : Underway k file start r :=
    exec_invariant hstart (fun r round r' hr hnext => (hkeep r round r' hr hnext).2) hrun
  rcases hend with ⟨p, hreading⟩ | ⟨_, hbuffer⟩ | hfailed
  · rw [hreading.running] at hdone
    cases hdone
  · exact hbuffer
  · rw [hfailed] at hdone
    cases hdone

theorem fits_of_readsContent (hat : k.fPos file = start) (hin : start ≤ (deviceBytes k).length)
    (hintact : Intact k adds) (hfree : k.dev.lock = false) (hstored : Stored k)
    (hreads : ReadsContent k file start (deviceBytes k).length) : FitsBuf k start := by
  rcases Nat.eq_zero_or_pos (deviceBytes k).length with hzero | hpos
  · refine ⟨by omega, ?_⟩
    rintro ⟨_, command, hring, hfull⟩
    rw [deviceBytes, hring, List.flatten_singleton, hfull] at hzero
    exact absurd hzero (by decide)
  · have hfirst := reading_start hat hin hpos
    obtain ⟨r', hnext⟩ := hfirst.exists_next hintact hfree {}
    have hbounds := ((hreads [{}]).1 r' hnext).1
    constructor
    · have hcount := hfirst.count_eq hintact
      have hasked := hbounds.asked
      omega
    · rintro ⟨rfl, command, hring, hfull⟩
      exact hfirst.not_inBounds hintact hfree hstored hring hfull hbounds

end Loop

/-- For every content that packets of the server can make up, from every position
in it: `file_read`, asked for what `file_size` reported, stays in bounds and
replies with the rest of the content exactly if the content fits its buffer. -/
theorem readsContent_iff (calls : List Call) (file start : ℕ) (pos : ℤ)
    (hstored : Stored (deviceAt calls file start))
    (hstart : start ≤ (deviceBytes (deviceAt calls file start)).length) :
    ReadsContent (deviceAt calls file start) file start
        (fileSize (deviceAt calls file pos) file) ↔
      FitsBuf (deviceAt calls file start) start := by
  obtain ⟨adds, hintact⟩ := intact_deviceAt calls file start
  have hsize : fileSize (deviceAt calls file pos) file =
      (deviceBytes (deviceAt calls file start)).length := fileSize_eq hstored
  have hat : (deviceAt calls file start).fPos file = start := by simp [deviceAt]
  rw [hsize]
  exact ⟨fits_of_readsContent hat hstart hintact rfl hstored,
    readsContent_of_fits hat hstart hintact rfl hstored⟩

/-- One short packet, read from its beginning. -/
theorem readsContent_short :
    ReadsContent (deviceAt [.write 0 [104, 105, 10] {}] 0 (0 : ℕ)) 0 0
      (fileSize (deviceAt [.write 0 [104, 105, 10] {}] 0 3) 0) := by
  have hring : ringBytes (deviceAt [.write 0 [104, 105, 10] {}] 0 (0 : ℕ)) = [[104, 105, 10]] := by
    decide
  refine (readsContent_iff [.write 0 [104, 105, 10] {}] 0 0 3 (by unfold Stored; decide)
    (by decide)).mpr ⟨by decide, ?_⟩
  rintro ⟨_, command, hcommand, hfull⟩
  rw [hring] at hcommand
  cases hcommand
  exact absurd hfull (by decide)

/-- A packet of 1025 bytes: the first `read` asks for all of them. -/
theorem large_packet_overruns :
    ¬ ∀ (calls : List Call) (file start : ℕ) (pos : ℤ), Stored (deviceAt calls file start) →
      start ≤ (deviceBytes (deviceAt calls file start)).length →
      ReadsContent (deviceAt calls file start) file start
        (fileSize (deviceAt calls file pos) file) := by
  obtain ⟨packet, hring, hlen, hzero⟩ : ∃ packet : List Byte,
      ringBytes (deviceAt [.write 0 packet {}] 0 (0 : ℕ)) = [packet] ∧ packet.length = 1025 ∧
        0 ∉ packet :=
    ⟨List.replicate 1024 97 ++ [10], by decide +kernel, by decide +kernel, by decide +kernel⟩
  have hstored : Stored (deviceAt [.write 0 packet {}] 0 (0 : ℕ)) := by
    unfold Stored
    rw [hring]
    intro command hcommand
    rw [List.mem_singleton.mp hcommand]
    exact ⟨List.ne_nil_of_length_pos (by omega), hlen.le.trans (by decide), hzero⟩
  intro h
  have hreads := h [.write 0 packet {}] 0 0 (0 : ℕ) hstored (Nat.zero_le _)
  rw [fileSize_eq hstored] at hreads
  obtain ⟨adds, hintact⟩ := intact_deviceAt [.write 0 packet {}] 0 (0 : ℕ)
  have hfit := fits_of_readsContent rfl (Nat.zero_le _) hintact rfl hstored hreads
  have hle := hfit.1
  rw [deviceBytes, hring, List.flatten_singleton, hlen] at hle
  exact absurd hle (by decide)

end Aesd.FileRead
