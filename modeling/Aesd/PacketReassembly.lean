import Aesd.Runs
import Aesd.StreamPieces

/-!
One client and its worker, every operation succeeding: what the worker does with
a stream of lines that `recv` hands over in chunks. A chunk is handled as one
packet. Without a newline in it the worker is stuck; with one, the whole chunk
is a seek if it starts with the keyword and data otherwise. A chunk that fills
the receive buffer leaves no string in it, and a read that does not fit the
buffers of the reply is stored behind them: from there on C defines nothing, and
the run ends. So the lines are handled as they were sent exactly when every chunk
has a newline and room for a terminator, the chunks that start with the keyword
are the lines that do, and each reply fits its buffers as long as there are
chunks to come.
-/

namespace Aesd.PacketReassembly

open CharDriver EchoWorker Runs StreamPieces

/-- The worker of a connection, whether it holds the mutex, and what `recv` has
still to return before the peer closes. -/
structure Session where
  worker : Worker
  held : Bool
  queue : List Chunk

/-- The write is complete, the device is not empty, `file_read` reads something
and the send sends something. -/
def succeeds (w : Worker) : Op → Answer → Bool
  | .write buffer, .ret r => r == buffer.length
  | .lseek _ whence, .ret r => if whence = SEEK_END then 0 < int32 r else r == 0
  | .ioctl _, .ret r => r == 0
  | .read _, .bytes data => untilNul data ≠ []
  | .read _, .ret r => r == 0 && w.sbuffer ≠ []
  | .send _, .ret r => 0 < r
  | _, _ => true

namespace Session

def init (pair : AesdSeekto) (chunks : List Chunk) : Session where
  worker := Worker.init pair
  held := false
  queue := chunks

/-- Nothing was stored outside `buf` and `sbuffer`, and `rbuffer` holds a string. -/
def defined (s : Session) : Bool := !s.worker.overrun && s.worker.rbuffer.length < BUFFER_SIZE

/-- `recv` takes the next chunk; after the last one the peer has closed. -/
def deliver (s : Session) (w : Worker) (a : Answer) : Option Session :=
  match s.queue, a with
  | [], .ret r => if r = 0 then some { s with worker := w } else none
  | c :: queue, .recv data _ => if data = c.bytes then some { s with worker := w, queue } else none
  | _, _ => none

/-- A step, as long as C defines one. -/
def next (s : Session) (a : Answer) : Option Session :=
  if s.defined then
    match s.worker.step a, s.worker.op with
    | some w, some .mutexLock => if s.held then none else some { s with worker := w, held := true }
    | some w, some .mutexUnlock => some { s with worker := w, held := false }
    | some w, some .receive => s.deliver w a
    | some w, some op => if succeeds s.worker op a then some { s with worker := w } else none
    | _, _ => none
  else none

/-- The calls on the data file that handle a packet: what a `write` has written,
and the pair of an `ioctl`. -/
def calls (s : Session) (a : Answer) : List FileCall :=
  match s.worker.op, a with
  | some (.write buffer), .ret r => [.write (buffer.take r.toNat)]
  | some (.ioctl pair), _ => [.ioctl s.worker.packet pair]
  | _, _ => []

/-- What a `read` brings fits `buf`, with its terminator, and `sbuffer`, unless it
is the reply to the last chunk. -/
def InBounds (s : Session) : Answer → Prop
  | .bytes data => s.queue = [] ∨ data.length ≤ READ_SIZE ∧
    (untilNul data).length < READ_SIZE ∧ (s.worker.sbuffer ++ untilNul data).length < BUFFER_SIZE
  | _ => True

instance (s : Session) (a : Answer) : Decidable (s.InBounds a) :=
  match a with
  | .bytes _ => inferInstanceAs (Decidable (_ ∨ _))
  | .ret _ => isTrue trivial
  | .recv _ _ => isTrue trivial

end Session

/-- The calls of a run on the data file. -/
def callsOf (pair : AesdSeekto) (chunks : List Chunk) (as : List Answer) : List FileCall :=
  outputs Session.next Session.calls (Session.init pair chunks) as

/-- The run handles every line, once and in order. -/
def HandlesLines (pair : AesdSeekto) (lines : List Line) (chunks : List Chunk)
    (as : List Answer) : Prop :=
  (callsOf pair chunks as).flatMap FileCall.handled = pieceEvents pair (lines.map Line.bytes)

/-- It does so with one call for each line. -/
def HandlesEachLine (pair : AesdSeekto) (lines : List Line) (chunks : List Chunk)
    (as : List Answer) : Prop :=
  callsOf pair chunks as = pieceCalls pair (lines.map Line.bytes)

namespace Session

def withWorker (s : Session) (w : Worker) : Session := { s with worker := w }

inductive Moves (s : Session) : Answer → Session → Prop
  | start (hpc : s.worker.pc = .start) :
      Moves s (.ret 0) (s.withWorker { s.worker with pc := .lock })
  | lock (hpc : s.worker.pc = .lock) (hfree : s.held = false) :
      Moves s (.ret 0) { s with worker := { s.worker with pc := .receive }, held := true }
  | receive {c : Chunk} {queue : List Chunk} {past : List Byte} (hpc : s.worker.pc = .receive)
      (hqueue : s.queue = c :: queue) :
      Moves s (.recv c.bytes past)
        { s with worker := (s.worker.store c.bytes past).dispatch, queue }
  | close (hpc : s.worker.pc = .receive) (hqueue : s.queue = []) :
      Moves s (.ret 0) (s.withWorker { s.worker with rc := 0, pc := .unlockExit })
  | sizeEnd {command : Bool} {r : ℤ} (hpc : s.worker.pc = .sizeEnd command) (hr : 0 < int32 r) :
      Moves s (.ret r)
        (s.withWorker { s.worker with fileEnd := int32 r, pc := .sizeSet command })
  | sizeSet {command : Bool} (hpc : s.worker.pc = .sizeSet command) :
      Moves s (.ret 0) (s.withWorker (s.worker.sized command 0))
  | ioctl (hpc : s.worker.pc = .ioctl) : Moves s (.ret 0) (s.withWorker s.worker.startRead)
  | write (hpc : s.worker.pc = .write) :
      Moves s (.ret s.worker.packet.length) (s.withWorker { s.worker with
        pc := if (s.worker.packet.length : ℤ) ≤ 0 then .finish else .flush })
  | flush {r : ℤ} (hpc : s.worker.pc = .flush) :
      Moves s (.ret r) (s.withWorker { s.worker with pc := .sizeEnd false })
  | bytes {data : List Byte} (hpc : s.worker.pc = .read) (hstring : untilNul data ≠ [])
      (hlen : data.length ≤ toSize s.worker.size) :
      Moves s (.bytes data) (s.withWorker (s.worker.concat data))
  | endOfFile (hpc : s.worker.pc = .read) (hread : s.worker.sbuffer ≠ []) :
      Moves s (.ret 0) (s.withWorker { s.worker with pc := .send })
  | send {r : ℤ} (hpc : s.worker.pc = .send) :
      Moves s (.ret r) (s.withWorker { s.worker with rbuffer := [], sbuffer := [], pc := .unlock })
  | unlock (hpc : s.worker.pc = .unlock) :
      Moves s (.ret 0) { s with worker := { s.worker with pc := .lock }, held := false }
  | unlockExit (hpc : s.worker.pc = .unlockExit) :
      Moves s (.ret 0) { s with worker := { s.worker with pc := .finish }, held := false }
  | finish (hpc : s.worker.pc = .finish) :
      Moves s (.ret 0) (s.withWorker { s.worker with pc := .ret })
  | ret (hpc : s.worker.pc = .ret) :
      Moves s (.ret 0) (s.withWorker { s.worker with pc := .done })

theorem defined_of_next {s t : Session} {a : Answer} (h : s.next a = some t) :
    s.defined = true := (Option.ite_none_right_eq_some.mp h).1

theorem next_moves {s t : Session} {a : Answer} (h : s.next a = some t) : s.Moves a t := by
  obtain ⟨-, h⟩ := Option.ite_none_right_eq_some.mp h
  cases hstep : s.worker.step a with
  | none => simp [hstep] at h
  | some w =>
    have hmove := Worker.step_moves hstep
    rw [hstep] at h
    cases hmove with
    | start hpc =>
      simp [Worker.op, hpc, succeeds] at h
      exact h ▸ Moves.start hpc
    | lock hpc =>
      simp [Worker.op, hpc] at h
      exact h.2 ▸ Moves.lock hpc h.1
    | @receive data past hpc hne hlen =>
      simp only [Worker.op, hpc, deliver] at h
      split at h
      · rename_i ha
        cases ha
      · rename_i c queue _ _ hqueue ha
        cases ha
        obtain ⟨rfl, ht⟩ := Option.ite_none_right_eq_some.mp h
        cases ht
        exact Moves.receive hpc hqueue
      · cases h
    | close hpc hr =>
      simp only [Worker.op, hpc, deliver] at h
      split at h
      · rename_i hqueue ha
        cases ha
        obtain ⟨rfl, ht⟩ := Option.ite_none_right_eq_some.mp h
        cases ht
        exact Moves.close hpc hqueue
      · rename_i ha
        cases ha
      · cases h
    | sizeEnd hpc hr =>
      simp [Worker.op, hpc, succeeds] at h
      exact h.2 ▸ Moves.sizeEnd hpc h.1
    | sizeSet hpc hr =>
      simp [Worker.op, hpc, succeeds, SEEK_SET, SEEK_END] at h
      obtain ⟨rfl, ht⟩ := h
      exact ht ▸ Moves.sizeSet hpc
    | ioctl hpc hr =>
      simp [Worker.op, hpc, succeeds] at h
      obtain ⟨rfl, ht⟩ := h
      exact ht ▸ Moves.ioctl hpc
    | write hpc hr =>
      simp only [Worker.op, hpc, succeeds] at h
      obtain ⟨ha, ht⟩ := Option.ite_none_right_eq_some.mp h
      cases ht
      rw [beq_iff_eq.mp ha]
      exact Moves.write hpc
    | flush hpc hr =>
      simp [Worker.op, hpc, succeeds] at h
      exact h ▸ Moves.flush hpc
    | bytes hpc hne hlen =>
      simp [Worker.op, hpc, succeeds] at h
      exact h.2 ▸ Moves.bytes hpc h.1 hlen
    | endOfFile hpc =>
      simp [Worker.op, hpc, succeeds] at h
      exact h.2 ▸ Moves.endOfFile hpc h.1
    | readError hpc => simp [Worker.op, hpc, succeeds] at h
    | send hpc hr =>
      simp [Worker.op, hpc, succeeds] at h
      obtain ⟨hpos, ht⟩ := h
      rw [if_neg (by omega)] at ht
      exact ht ▸ Moves.send hpc
    | unlock hpc =>
      simp [Worker.op, hpc] at h
      exact h ▸ Moves.unlock hpc
    | unlockExit hpc =>
      simp [Worker.op, hpc] at h
      exact h ▸ Moves.unlockExit hpc
    | finish hpc =>
      simp [Worker.op, hpc, succeeds] at h
      exact h ▸ Moves.finish hpc
    | ret hpc =>
      simp [Worker.op, hpc, succeeds] at h
      exact h ▸ Moves.ret hpc

/-- What is known at each call while every operation succeeds. -/
def Ok (s : Session) : Prop :=
  match s.worker.pc with
  | .start => s.held = false ∧ s.worker.rbuffer = []
  | .lock => s.held = true ∨ s.worker.rbuffer = []
  | .receive => s.held = true ∧ s.worker.rbuffer = []
  | .write => s.worker.packet ≠ []
  | .sizeSet _ => 0 < s.worker.fileEnd ∧ s.worker.fileEnd < 2 ^ 31
  | .ioctl => 0 < s.worker.size ∧ s.worker.size < 2 ^ 31
  | .read =>
    0 ≤ s.worker.size ∧ s.worker.size < 2 ^ 31 ∧ (s.worker.sbuffer = [] → 0 < s.worker.size)
  | .send => s.worker.sbuffer ≠ []
  | .unlock => s.worker.rbuffer = []
  | _ => True

/-- The calls that are still to be made. -/
def pending (s : Session) : List FileCall :=
  match s.worker.pc with
  | .lock => if s.held then [] else chunkCalls s.worker.pair s.queue
  | .sizeEnd true | .sizeSet true =>
    .ioctl s.worker.packet (sscanfPair s.worker.string s.worker.pair) ::
      chunkCalls (sscanfPair s.worker.string s.worker.pair) s.queue
  | .ioctl => .ioctl s.worker.packet s.worker.pair :: chunkCalls s.worker.pair s.queue
  | .write => .write s.worker.packet :: chunkCalls s.worker.pair s.queue
  | .unlockExit | .finish | .ret | .done => []
  | _ => chunkCalls s.worker.pair s.queue

/-- There are none if `rbuffer` holds no string. -/
def rest (s : Session) : List FileCall :=
  if s.worker.rbuffer.length < BUFFER_SIZE then s.pending else []

theorem ok_dispatch {s : Session} (hheld : s.held = true) (hne : s.worker.packet ≠ []) :
    (s.withWorker s.worker.dispatch).Ok := by
  unfold Worker.dispatch
  by_cases hn : newline ∈ s.worker.string
  · by_cases hc : COMMAND <+: s.worker.string
    · simp [hn, hc, Ok, withWorker]
    · rw [if_pos hn, if_neg hc]
      exact hne
  · rw [if_neg hn]
    exact Or.inl hheld

theorem ok_startRead {s : Session} (hpos : 0 < s.worker.size) (hlt : s.worker.size < 2 ^ 31) :
    (s.withWorker s.worker.startRead).Ok := by
  have hle : ¬ s.worker.size ≤ 0 := by omega
  simp only [Worker.startRead, hle, if_false, Ok, withWorker]
  exact ⟨hpos.le, hlt, fun _ => hpos⟩

theorem sized_zero {x : ℤ} (h0 : 0 < x) (h1 : x < 2 ^ 31) : int32 (x - int32 0) = x := by
  rw [int32_of_nonneg le_rfl (by decide), sub_zero]
  exact int32_of_nonneg h0.le h1

theorem ok_sized {s : Session} {command : Bool} (hpc : s.worker.pc = .sizeSet command) (hs : s.Ok) :
    (s.withWorker (s.worker.sized command 0)).Ok := by
  have hsize : 0 < s.worker.fileEnd ∧ s.worker.fileEnd < 2 ^ 31 := by simpa [Ok, hpc] using hs
  have heq := sized_zero hsize.1 hsize.2
  cases command with
  | false =>
    simp only [Worker.sized, heq, Bool.false_eq_true, if_false]
    exact @ok_startRead (s.withWorker { s.worker with size := s.worker.fileEnd }) hsize.1 hsize.2
  | true => simpa [Worker.sized, heq, Ok, withWorker] using hsize

/-- A read takes no more off the size than there is. -/
theorem size_sub {size : ℤ} {n : ℕ} (h0 : 0 ≤ size) (h1 : size < 2 ^ 31) (hn : n ≤ toSize size) :
    (n : ℤ) ≤ size ∧ int32 (size - n) = size - n := by
  have hsize := toSize_of_nonneg h0 h1
  have hle : (n : ℤ) ≤ size := by omega
  exact ⟨hle, int32_of_nonneg (by omega) (by omega)⟩

theorem ok_concat {s : Session} {data : List Byte} (hpc : s.worker.pc = .read)
    (hstring : untilNul data ≠ []) (hlen : data.length ≤ toSize s.worker.size) (hs : s.Ok) :
    (s.withWorker (s.worker.concat data)).Ok := by
  have hsize : 0 ≤ s.worker.size ∧ s.worker.size < 2 ^ 31 ∧
      (s.worker.sbuffer = [] → 0 < s.worker.size) := by simpa [Ok, hpc] using hs
  obtain ⟨hle, heq⟩ := size_sub hsize.1 hsize.2.1 hlen
  simp only [Worker.concat, Ok, withWorker, hpc, heq]
  refine ⟨by omega, by omega, ?_⟩
  intro hnil
  exact absurd (List.append_eq_nil_iff.mp hnil).2 hstring

theorem ok_next {s t : Session} {a : Answer} (hs : s.Ok) (h : s.Moves a t) : t.Ok := by
  cases h with
  | start hpc => simp_all [Ok, withWorker]
  | lock hpc hfree => simp_all [Ok]
  | @receive c queue past hpc hqueue =>
    have hat : s.held = true ∧ s.worker.rbuffer = [] := by simpa [Ok, hpc] using hs
    exact @ok_dispatch { s.withWorker (s.worker.store c.bytes past) with queue } hat.1
      (by simpa [withWorker, Worker.store_packet hat.2] using c.nonempty)
  | close hpc hqueue => simp [Ok, withWorker]
  | sizeEnd hpc hr => simpa [Ok, withWorker, hr] using int32_lt _
  | sizeSet hpc => exact ok_sized hpc hs
  | ioctl hpc =>
    have hsize : 0 < s.worker.size ∧ s.worker.size < 2 ^ 31 := by simpa [Ok, hpc] using hs
    exact ok_startRead hsize.1 hsize.2
  | write hpc =>
    have hne : s.worker.packet ≠ [] := by simpa [Ok, hpc] using hs
    simp [Ok, withWorker, hne]
  | flush hpc => simp [Ok, withWorker]
  | bytes hpc hstring hlen => exact ok_concat hpc hstring hlen hs
  | endOfFile hpc hread => simpa [Ok, withWorker] using hread
  | send hpc => simp [Ok, withWorker]
  | unlock hpc => simp_all [Ok]
  | unlockExit hpc => simp [Ok]
  | finish hpc => simp [Ok, withWorker]
  | ret hpc => simp [Ok, withWorker]

theorem pending_dispatch {s : Session} (hheld : s.held = true) :
    (s.withWorker s.worker.dispatch).pending =
      if newline ∈ s.worker.string then
        if COMMAND <+: s.worker.string then
          .ioctl s.worker.packet (sscanfPair s.worker.string s.worker.pair) ::
            chunkCalls (sscanfPair s.worker.string s.worker.pair) s.queue
        else .write s.worker.packet :: chunkCalls s.worker.pair s.queue
      else [] := by
  unfold Worker.dispatch
  by_cases hn : newline ∈ s.worker.string
  · rw [if_pos hn, if_pos hn]
    by_cases hc : COMMAND <+: s.worker.string
    · rw [if_pos hc, if_pos hc]
      rfl
    · rw [if_neg hc, if_neg hc]
      rfl
  · rw [if_neg hn, if_neg hn]
    simp [pending, withWorker, hheld]

theorem pending_startRead {s : Session} (hpos : 0 < s.worker.size) :
    (s.withWorker s.worker.startRead).pending = chunkCalls s.worker.pair s.queue := by
  have hle : ¬ s.worker.size ≤ 0 := by omega
  simp [Worker.startRead, hle, pending, withWorker]

@[simp] theorem startRead_rbuffer (w : Worker) : w.startRead.rbuffer = w.rbuffer := rfl

@[simp] theorem startRead_overrun (w : Worker) : w.startRead.overrun = w.overrun := rfl

@[simp] theorem sized_rbuffer (w : Worker) (command : Bool) (front : ℤ) :
    (w.sized command front).rbuffer = w.rbuffer := by
  cases command <;> rfl

@[simp] theorem sized_overrun (w : Worker) (command : Bool) (front : ℤ) :
    (w.sized command front).overrun = w.overrun := by
  cases command <;> rfl

theorem rest_eq_pending {s : Session} (h : s.worker.rbuffer.length < BUFFER_SIZE) :
    s.rest = s.pending := if_pos h

/-- The next chunk comes: it is taken as a whole, or nothing is left to be done. -/
theorem rest_receive {s : Session} {c : Chunk} {queue : List Chunk} (past : List Byte)
    (hheld : s.held = true) (hempty : s.worker.rbuffer = []) (hnul : 0 ∉ c.bytes) :
    Session.rest { s with worker := (s.worker.store c.bytes past).dispatch, queue } =
      chunkCalls s.worker.pair (c :: queue) := by
  have hbuffer : (s.worker.store c.bytes past).rbuffer = c.bytes := by
    simp [Worker.store, hempty]
  unfold chunkCalls
  by_cases hshort : c.bytes.length < BUFFER_SIZE
  · have hstring : cstring c.bytes past = c.bytes := by
      rw [cstring, if_pos hshort, untilNul_of_not_mem hnul]
    have hdispatch := @pending_dispatch
      { s.withWorker (s.worker.store c.bytes past) with queue } hheld
    simp only [withWorker, Worker.store_string hempty, Worker.store_packet hempty,
      hstring] at hdispatch
    rw [rest_eq_pending (by change (s.worker.store c.bytes past).rbuffer.length < _; rwa [hbuffer])]
    simp only [Chunk.Whole, hshort, and_true]
    exact hdispatch
  · rw [if_neg fun hwhole : c.Whole => hshort hwhole.2, rest, if_neg]
    change ¬ (s.worker.store c.bytes past).rbuffer.length < _
    rwa [hbuffer]

/-- A step makes the first of the calls that are to be made. -/
theorem calls_rest {s t : Session} {a : Answer} (hs : s.Ok) (hdef : s.defined = true)
    (hnul : ∀ c ∈ s.queue, 0 ∉ c.bytes) (h : s.Moves a t) : s.calls a ++ t.rest = s.rest := by
  have hshort : s.worker.rbuffer.length < BUFFER_SIZE := by
    simp only [defined, Bool.and_eq_true, decide_eq_true_eq] at hdef
    exact hdef.2
  have hzero : 0 < BUFFER_SIZE := by decide
  rw [rest_eq_pending hshort]
  cases h with
  | start hpc => simp_all [Ok, withWorker, calls, pending, rest, Worker.op]
  | lock hpc hfree => simp_all [Ok, calls, pending, rest, Worker.op]
  | @receive c queue past hpc hqueue =>
    have hat : s.held = true ∧ s.worker.rbuffer = [] := by simpa [Ok, hpc] using hs
    rw [rest_receive past hat.1 hat.2 (hnul c (by simp [hqueue]))]
    simp [pending, hpc, hqueue, calls, Worker.op]
  | close hpc hqueue =>
    simp [rest, hshort, pending, withWorker, calls, Worker.op, hpc, hqueue, chunkCalls]
  | @sizeEnd command r hpc hr =>
    cases command <;> simp [rest, hshort, pending, withWorker, calls, Worker.op, hpc,
      Worker.packet, Worker.string]
  | @sizeSet command hpc =>
    have hsize : 0 < s.worker.fileEnd ∧ s.worker.fileEnd < 2 ^ 31 := by simpa [Ok, hpc] using hs
    cases command with
    | false =>
      rw [rest_eq_pending (by simpa [withWorker] using hshort)]
      simp only [Worker.sized, sized_zero hsize.1 hsize.2, Bool.false_eq_true, if_false]
      have hread := @pending_startRead
        (s.withWorker { s.worker with size := s.worker.fileEnd }) hsize.1
      simpa [pending, withWorker, calls, Worker.op, hpc] using hread
    | true =>
      simp [rest, hshort, pending, withWorker, calls, Worker.op, hpc, Worker.sized, Worker.packet,
        Worker.string]
  | ioctl hpc =>
    have hsize : 0 < s.worker.size ∧ s.worker.size < 2 ^ 31 := by simpa [Ok, hpc] using hs
    rw [rest_eq_pending (by simpa [withWorker] using hshort), pending_startRead hsize.1]
    simp [pending, calls, Worker.op, hpc]
  | write hpc =>
    have hne : s.worker.packet ≠ [] := by simpa [Ok, hpc] using hs
    simp [rest, hshort, pending, withWorker, calls, Worker.op, hpc, hne]
  | flush hpc => simp [rest, hshort, pending, withWorker, calls, Worker.op, hpc]
  | bytes hpc hstring hlen =>
    simp [rest, hshort, pending, withWorker, calls, Worker.op, hpc, Worker.concat]
  | endOfFile hpc hread => simp [rest, hshort, pending, withWorker, calls, Worker.op, hpc]
  | send hpc => simp [rest, hzero, pending, withWorker, calls, Worker.op, hpc]
  | unlock hpc => simp [rest, hshort, pending, calls, Worker.op, hpc]
  | unlockExit hpc => simp [rest, hshort, pending, calls, Worker.op, hpc]
  | finish hpc => simp [rest, hshort, pending, withWorker, calls, Worker.op, hpc]
  | ret hpc => simp [rest, hshort, pending, withWorker, calls, Worker.op, hpc]

/-- How far the worker is from its next `recv`. -/
def rank : Pc → ℕ
  | .start => 14
  | .write => 13
  | .flush => 12
  | .sizeEnd _ => 11
  | .sizeSet _ => 10
  | .ioctl => 9
  | .read => 8
  | .send => 7
  | .unlock => 6
  | .lock => 5
  | .receive => 4
  | .unlockExit => 3
  | .finish => 2
  | .ret => 1
  | .done => 0

/-- Each step takes a chunk, gets closer to the next `recv`, or reads bytes. -/
def Descends (t s : Session) : Prop :=
  Prod.Lex (· < ·) (Prod.Lex (· < ·) (· < ·))
    (t.queue.length, rank t.worker.pc, t.worker.size.toNat)
    (s.queue.length, rank s.worker.pc, s.worker.size.toNat)

theorem descends_wf : WellFounded Descends :=
  InvImage.wf (fun s : Session => (s.queue.length, rank s.worker.pc, s.worker.size.toNat))
    (WellFounded.prod_lex Nat.lt_wfRel.wf (WellFounded.prod_lex Nat.lt_wfRel.wf Nat.lt_wfRel.wf))

theorem descends_of_rank {s t : Session} (hqueue : t.queue = s.queue)
    (h : rank t.worker.pc < rank s.worker.pc) : Descends t s := by
  unfold Descends
  rw [hqueue]
  exact Prod.Lex.right _ (Prod.Lex.left _ _ h)

theorem rank_startRead (w : Worker) : rank w.startRead.pc ≤ 8 := by
  unfold Worker.startRead
  dsimp only
  split <;> decide

theorem rank_sized (w : Worker) (command : Bool) (front : ℤ) :
    rank (w.sized command front).pc ≤ 9 := by
  cases command with
  | false => exact (rank_startRead _).trans (by decide)
  | true => exact le_rfl

theorem descends {s t : Session} {a : Answer} (hs : s.Ok) (h : s.Moves a t) : Descends t s := by
  cases h with
  | receive hpc hqueue =>
    apply Prod.Lex.left
    simp [hqueue]
  | @bytes data hpc hstring hlen =>
    have hsize : 0 ≤ s.worker.size ∧ s.worker.size < 2 ^ 31 ∧
        (s.worker.sbuffer = [] → 0 < s.worker.size) := by simpa [Ok, hpc] using hs
    have hpos : 0 < data.length := by
      apply List.length_pos_iff.mpr
      rintro rfl
      exact hstring rfl
    obtain ⟨hle, heq⟩ := size_sub hsize.1 hsize.2.1 hlen
    apply Prod.Lex.right
    apply Prod.Lex.right
    simp only [withWorker, Worker.concat, heq]
    omega
  | sizeSet hpc =>
    refine descends_of_rank rfl ?_
    rw [hpc]
    exact Nat.lt_succ_of_le (rank_sized _ _ _)
  | ioctl hpc =>
    refine descends_of_rank rfl ?_
    rw [hpc]
    exact (rank_startRead _).trans_lt (by decide)
  | write hpc =>
    refine descends_of_rank rfl ?_
    simp only [withWorker, hpc]
    split <;> decide
  | start hpc | lock hpc | close hpc | sizeEnd hpc | flush hpc | endOfFile hpc | send hpc
  | unlock hpc | unlockExit hpc | finish hpc | ret hpc =>
    refine descends_of_rank rfl ?_
    simp [withWorker, rank, hpc]

/-- Where C defines the next step and there is none, nothing is left to be done:
the worker has returned or waits for the mutex it holds. -/
theorem pending_of_stuck {s : Session} (hs : s.Ok) (hdef : s.defined = true)
    (hstuck : ∀ a, s.next a = none) : s.pending = [] := by
  have hret := hstuck (.ret 0)
  cases hpc : s.worker.pc with
  | done => simp [pending, hpc]
  | unlockExit => simp [pending, hpc]
  | finish => simp [pending, hpc]
  | ret => simp [pending, hpc]
  | lock =>
    cases hheld : s.held with
    | true => simp [pending, hpc, hheld]
    | false => simp [next, hdef, Worker.step, Worker.op, hpc, Op.admits, hheld] at hret
  | receive =>
    cases hqueue : s.queue with
    | nil => simp [next, hdef, Worker.step, Worker.op, hpc, Op.admits, deliver, hqueue] at hret
    | cons c queue =>
      have hrecv := hstuck (.recv c.bytes [])
      simp [next, hdef, Worker.step, Worker.op, hpc, Op.admits, deliver, hqueue, c.nonempty,
        c.fits] at hrecv
  | sizeEnd command =>
    have hend := hstuck (.ret 1)
    simp [next, hdef, Worker.step, Worker.op, hpc, Op.admits, succeeds] at hend
    exact absurd hend (by decide)
  | write =>
    have hwrite := hstuck (.ret s.worker.packet.length)
    simp [next, hdef, Worker.step, Worker.op, hpc, Op.admits, succeeds] at hwrite
  | read =>
    have hsize : 0 ≤ s.worker.size ∧ s.worker.size < 2 ^ 31 ∧
        (s.worker.sbuffer = [] → 0 < s.worker.size) := by simpa [Ok, hpc] using hs
    by_cases hnil : s.worker.sbuffer = []
    · have hbytes := hstuck (.bytes [1])
      have hfits : 1 ≤ toSize s.worker.size := by
        have h := toSize_of_nonneg hsize.1 hsize.2.1
        have hpos := hsize.2.2 hnil
        omega
      simp [next, hdef, Worker.step, Worker.op, hpc, Op.admits, succeeds, hfits, untilNul] at hbytes
    · simp [next, hdef, Worker.step, Worker.op, hpc, Op.admits, succeeds, hnil] at hret
  | send =>
    have hsend := hstuck (.ret 1)
    have hne : s.worker.sbuffer ≠ [] := by simpa [Ok, hpc] using hs
    have hlen : (1 : ℤ) ≤ s.worker.sbuffer.length := by
      have hpos := List.length_pos_iff.mpr hne
      omega
    simp [next, hdef, Worker.step, Worker.op, hpc, Op.admits, succeeds, hlen] at hsend
  | _ =>
    simp [next, hdef, Worker.step, Worker.op, hpc, Op.admits, succeeds, SEEK_SET, SEEK_END] at hret

/-- What a run keeps, besides. -/
structure Kept (chunks : List Chunk) (s : Session) : Prop where
  ok : s.Ok
  overrun : s.worker.overrun = true → s.worker.pc = .read ∧
    s.worker.rbuffer.length < BUFFER_SIZE
  queue : s.queue <:+ chunks

theorem kept_init (pair : AesdSeekto) (chunks : List Chunk) : Kept chunks (init pair chunks) where
  ok := ⟨rfl, rfl⟩
  overrun h := by cases h
  queue := List.suffix_rfl

theorem Kept.next {chunks : List Chunk} {s t : Session} {a : Answer} (h : Kept chunks s)
    (hnext : s.next a = some t) : Kept chunks t := by
  have hdef := defined_of_next hnext
  have hmoves := next_moves hnext
  simp only [defined, Bool.and_eq_true, Bool.not_eq_true', decide_eq_true_eq] at hdef
  refine ⟨ok_next h.ok hmoves, fun hover => ?_, ?_⟩
  · cases hmoves with
    | bytes hpc => exact ⟨hpc, hdef.2⟩
    | receive hpc => exact absurd hover (by simpa [Worker.dispatch, Worker.store] using hdef.1)
    | _ => exact absurd hover (by simpa [withWorker] using hdef.1)
  · cases hmoves with
    | receive hpc hqueue =>
      refine List.IsSuffix.trans ?_ h.queue
      rw [hqueue]
      exact List.suffix_cons _ _
    | _ => exact h.queue

/-- A step is out of bounds exactly if it comes before the last chunk and overruns
a buffer. -/
theorem inBounds_iff_step {s t : Session} {a : Answer} (hnext : s.next a = some t) :
    s.InBounds a ↔ (t.worker.overrun = true → t.queue = []) := by
  have hdef := defined_of_next hnext
  simp only [defined, Bool.and_eq_true, Bool.not_eq_true', decide_eq_true_eq] at hdef
  cases next_moves hnext with
  | @bytes data hpc =>
    simp only [InBounds, withWorker, Worker.concat, hdef.1, Bool.or_eq_true, decide_eq_true_eq,
      Bool.false_or]
    constructor
    · rintro (hlast | hfits) hover
      · exact hlast
      · omega
    · intro hlast
      by_contra hnot
      rw [not_or] at hnot
      exact hnot.1 (hlast (by omega))
  | receive hpc => simp [InBounds, Worker.dispatch, Worker.store, hdef.1]
  | _ => simp [InBounds, withWorker, hdef.1]

/-- A run is out of bounds exactly if it ends there. -/
theorem inBounds_iff {s t : Session} {as : List Answer} (hs : s.worker.overrun = false)
    (hrun : exec next s as = some t) :
    Steps next InBounds s as ↔ (t.worker.overrun = true → t.queue = []) := by
  induction as generalizing s with
  | nil =>
    cases hrun
    simp [Steps, hs]
  | cons a as ih =>
    obtain ⟨u, ha, has⟩ := exec_cons_eq_some.mp hrun
    rw [steps_cons_iff ha, inBounds_iff_step ha]
    cases hover : u.worker.overrun with
    | false => simp [ih hover has]
    | true =>
      obtain rfl : as = [] := by
        cases as with
        | nil => rfl
        | cons b as =>
          obtain ⟨v, hb, -⟩ := exec_cons_eq_some.mp has
          have hdef := defined_of_next hb
          simp [defined, hover] at hdef
      cases has
      simp [Steps, hover]

variable {pair : AesdSeekto} {chunks : List Chunk} {as : List Answer}

theorem kept_run {t : Session} (hrun : exec next (init pair chunks) as = some t) :
    Kept chunks t :=
  exec_invariant (kept_init pair chunks) (fun _ _ _ h hnext => h.next hnext) hrun

/-- The calls made and the calls still to be made are those for the chunks. -/
theorem calls_run {t : Session} (hnul : ∀ c ∈ chunks, 0 ∉ c.bytes)
    (hrun : exec next (init pair chunks) as = some t) :
    callsOf pair chunks as ++ t.rest = chunkCalls pair chunks := by
  have hstep : ∀ s a t, Kept chunks s → s.next a = some t →
      Kept chunks t ∧ s.calls a ++ t.rest = s.rest := by
    intro s a t hs hn
    refine ⟨hs.next hn, calls_rest hs.ok (defined_of_next hn) (fun c hc => ?_) (next_moves hn)⟩
    exact hnul c (hs.queue.subset hc)
  exact (outputs_append_rest hstep (kept_init pair chunks) hrun).2

/-- At the end of a run in bounds nothing is left to be done. -/
theorem rest_of_complete {t : Session} (h : Kept chunks t) (hstuck : ∀ a, t.next a = none)
    (hlast : t.worker.overrun = true → t.queue = []) : t.rest = [] := by
  unfold rest
  split
  · rename_i hshort
    cases hover : t.worker.overrun with
    | false => exact pending_of_stuck h.ok (by simp [defined, hover, hshort]) hstuck
    | true => simp [pending, (h.overrun hover).1, hlast hover, chunkCalls]
  · rfl

/-- A run that is cut short leaves chunks behind. -/
theorem last_of_rest {t : Session} (h : Kept chunks t) (hwhole : ∀ c ∈ chunks, c.Whole)
    (hrest : t.rest = []) (hover : t.worker.overrun = true) : t.queue = [] := by
  obtain ⟨hpc, hshort⟩ := h.overrun hover
  rw [rest_eq_pending hshort] at hrest
  simp only [pending, hpc] at hrest
  cases hqueue : t.queue with
  | nil => rfl
  | cons c queue =>
    have hc : c.Whole := hwhole c (h.queue.subset (by simp [hqueue]))
    rw [hqueue, chunkCalls, if_pos hc] at hrest
    split at hrest <;> cases hrest

/-- A run to its end that takes all bytes is in bounds, every chunk is whole, and
the calls for all chunks are made. -/
theorem all_of_complete (hnul : ∀ c ∈ chunks, 0 ∉ c.bytes)
    (hcomplete : Complete next (init pair chunks) as)
    (hlen : ((callsOf pair chunks as).map FileCall.packet).flatten.length =
      (chunks.map Chunk.bytes).flatten.length) :
    (∀ c ∈ chunks, c.Whole) ∧ Steps next InBounds (init pair chunks) as ∧
      callsOf pair chunks as = pieceCalls pair (chunks.map Chunk.bytes) := by
  obtain ⟨t, hrun, hstuck⟩ := hcomplete
  have hcalls := calls_run hnul hrun
  obtain ⟨-, hrest, hwhole⟩ := all_of_length hcalls hlen
  rw [hrest, List.append_nil, chunkCalls_of_whole pair hwhole] at hcalls
  exact ⟨hwhole, (inBounds_iff rfl hrun).mpr (last_of_rest (kept_run hrun) hwhole hrest), hcalls⟩

/-- In bounds and with whole chunks, all calls are made. -/
theorem callsOf_eq (hnul : ∀ c ∈ chunks, 0 ∉ c.bytes)
    (hcomplete : Complete next (init pair chunks) as) (hwhole : ∀ c ∈ chunks, c.Whole)
    (hbounds : Steps next InBounds (init pair chunks) as) :
    callsOf pair chunks as = pieceCalls pair (chunks.map Chunk.bytes) := by
  obtain ⟨t, hrun, hstuck⟩ := hcomplete
  have hcalls := calls_run hnul hrun
  rw [rest_of_complete (kept_run hrun) hstuck ((inBounds_iff rfl hrun).mp hbounds),
    List.append_nil] at hcalls
  rw [hcalls, chunkCalls_of_whole pair hwhole]

/-- No session goes on for ever. -/
theorem finite (pair : AesdSeekto) (chunks : List Chunk) : Finite next (init pair chunks) :=
  finite_of_descends descends_wf
    (fun _ _ _ h hn => ⟨h.next hn, descends h.ok (next_moves hn)⟩) (kept_init pair chunks)

theorem next_of_held {s : Session} (hpc : s.worker.pc = .lock) (hheld : s.held = true)
    (a : Answer) : s.next a = none := by
  unfold next
  rw [Worker.op_eq_mutexLock.mpr hpc]
  cases s.worker.step a <;> simp [hheld]

theorem next_of_done {s : Session} (hpc : s.worker.pc = .done) (a : Answer) : s.next a = none := by
  simp [next, Worker.step, Worker.op, hpc]

end Session

/-- Whatever the lines and however `recv` cuts them: no session goes on for ever,
and a session that ends has handled every line exactly if every chunk is whole,
the same pieces of the stream are seeks, and no read was stored outside a buffer
while there were chunks to come; and with one call for each line exactly if,
besides, the chunks are the lines. -/
theorem reassembles_iff (pair : AesdSeekto) (lines : List Line) (chunks : List Chunk)
    (hstream : (chunks.map Chunk.bytes).flatten = (lines.map Line.bytes).flatten) :
    Finite Session.next (Session.init pair chunks) ∧
    ∀ as, Complete Session.next (Session.init pair chunks) as →
      (HandlesLines pair lines chunks as ↔ (∀ c ∈ chunks, c.Whole) ∧
        commandsAt 0 (chunks.map Chunk.bytes) = commandsAt 0 (lines.map Line.bytes) ∧
        Steps Session.next Session.InBounds (Session.init pair chunks) as) ∧
      (HandlesEachLine pair lines chunks as ↔ (∀ c ∈ chunks, c.Whole) ∧
        chunks.map Chunk.bytes = lines.map Line.bytes ∧
        Steps Session.next Session.InBounds (Session.init pair chunks) as) := by
  have hnul := zero_not_mem_chunk hstream
  refine ⟨Session.finite pair chunks, fun as has => ⟨⟨fun h => ?_, ?_⟩, fun h => ?_, ?_⟩⟩
  · have hlen : ((callsOf pair chunks as).map FileCall.packet).flatten.length =
        (chunks.map Chunk.bytes).flatten.length := by
      rw [← weigh_handled_calls, h, weigh_pieceEvents, hstream]
    obtain ⟨hwhole, hbounds, hcalls⟩ := Session.all_of_complete hnul has hlen
    refine ⟨hwhole, ?_, hbounds⟩
    rw [HandlesLines, hcalls] at h
    exact (pieceEvents_eq_iff pair hstream).mp h
  · rintro ⟨hwhole, hcommands, hbounds⟩
    rw [HandlesLines, Session.callsOf_eq hnul has hwhole hbounds]
    exact (pieceEvents_eq_iff pair hstream).mpr hcommands
  · have hlen : ((callsOf pair chunks as).map FileCall.packet).flatten.length =
        (chunks.map Chunk.bytes).flatten.length := by
      rw [h, map_packet_pieceCalls, hstream]
    obtain ⟨hwhole, hbounds, hcalls⟩ := Session.all_of_complete hnul has hlen
    refine ⟨hwhole, ?_, hbounds⟩
    rw [HandlesEachLine, hcalls] at h
    exact (pieceCalls_eq_iff pair).mp h
  · rintro ⟨hwhole, hlines, hbounds⟩
    rw [HandlesEachLine, Session.callsOf_eq hnul has hwhole hbounds, hlines]

/-- `"a\n"`, `"b\n"` and a seek to the second of them. -/
def threeLines : List Line :=
  [⟨[97], by decide, by decide⟩, ⟨[98], by decide, by decide⟩,
   ⟨COMMAND ++ [58, 48, 44, 50], by decide, by decide⟩]

/-- The two data lines come in one chunk. -/
def twoChunks : List Chunk :=
  [⟨[97, 10, 98, 10], by decide, by decide⟩,
   ⟨COMMAND ++ [58, 48, 44, 50, 10], by decide, by decide⟩]

def twoPacketRun : List Answer :=
  [.ret 0, .ret 0, .recv [97, 10, 98, 10] [], .ret 4, .ret 0, .ret 4, .ret 0,
   .bytes [97, 10, 98, 10], .ret 0, .ret 4, .ret 0,
   .ret 0, .recv (COMMAND ++ [58, 48, 44, 50, 10]) [], .ret 4, .ret 0, .ret 0,
   .bytes [98, 10], .ret 0, .ret 2, .ret 0,
   .ret 0, .ret 0, .ret 0, .ret 0, .ret 0]

theorem reassembles_three_lines :
    HandlesLines ⟨0, 0⟩ threeLines twoChunks twoPacketRun ∧
      ¬ HandlesEachLine ⟨0, 0⟩ threeLines twoChunks twoPacketRun := by
  have hrun := (reassembles_iff ⟨0, 0⟩ threeLines twoChunks (by decide)).2 twoPacketRun
    ⟨_, rfl, Session.next_of_done rfl⟩
  refine ⟨hrun.1.mpr ⟨by decide, by decide, by decide⟩, fun heach => ?_⟩
  exact absurd (hrun.2.mp heach).2.1 (by decide)

/-- One line in two chunks: the worker waits for the mutex it holds. -/
theorem split_line_lost :
    ¬ ∀ (pair : AesdSeekto) (lines : List Line) (chunks : List Chunk),
      (chunks.map Chunk.bytes).flatten = (lines.map Line.bytes).flatten →
        ∀ as, Complete Session.next (Session.init pair chunks) as →
          HandlesLines pair lines chunks as := by
  intro h
  have hend := h ⟨0, 0⟩ [⟨[97], by decide, by decide⟩]
    [⟨[97], by decide, by decide⟩, ⟨[10], by decide, by decide⟩] rfl
    [.ret 0, .ret 0, .recv [97] []] ⟨_, rfl, Session.next_of_held rfl rfl⟩
  exact absurd hend (by unfold HandlesLines; decide)

end Aesd.PacketReassembly
