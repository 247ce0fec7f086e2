import Aesd.SharedDevice
import Aesd.StreamLifetime
import Mathlib.Data.Finset.Order

/-!
The whole server on the device: the main thread with its connections, the
workers, and behind the data stream the driver. A call of a worker goes to the
file of the stream that its thread data names, as long as that stream is open;
what a call on a closed stream does is open. Apart from such calls the main
thread decides only when a worker starts, and there is one file for all workers.
-/

namespace Aesd.WholeServer

open CharDriver EchoWorker WorkerPool SharedDevice ServerMain StreamLifetime Runs

structure Whole where
  server : Server
  kernel : Kernel

inductive Action
  | main (e : Event)
  | worker (l : Step)
  | signal

def Action.steps : Action → List Step
  | .worker l => [l]
  | _ => []

/-- The driver call behind a call on stream `n`; streams and files have the same numbers. -/
def streamCall (n : ℕ) (op : Op) (env : Env) : Option Call :=
  match op with
  | .write buffer => some (.write n buffer env)
  | .lseek off whence => some (.llseek n off whence env)
  | .ioctl pair => some (.ioctl n AESDCHAR_IOCSEEKTO pairAddress pair env)
  | .read size => some (.read n (toSize size) env)
  | _ => none

instance (s : Server) (n : ℕ) : Decidable (s.IsOpen n) :=
  inferInstanceAs (Decidable (n < s.opened ∧ s.closes n = 0))

namespace Whole

def init (pair : ℕ → AesdSeekto) : Whole := ⟨Server.init pair, aesdInitModule⟩

/-- The workers and the device. -/
def system (s : Whole) : System := ⟨s.server.pool, s.kernel⟩

/-- The driver's reply to the call of a step, if the call reaches the driver. -/
def serve (s : Whole) (l : Step) : Option (Option Answer × Kernel) :=
  (s.server.conn l.worker).stream.bind fun n =>
    if s.server.IsOpen n then
      (streamCall n l.op l.env).map fun c =>
        (answerOf l.op (perform s.kernel c).1, (perform s.kernel c).2)
    else none

/-- The position that a step records. -/
def posOf (s : Whole) (l : Step) (kernel : Kernel) : ℤ :=
  kernel.fPos ((s.server.conn l.worker).stream.getD 0)

/-- A call of a worker, whatever the outside does. -/
def workerStep (s : Whole) (l : Step) : Option Whole :=
  if (s.server.pool.worker l.worker).op = some l.op then
    match s.serve l with
    | none =>
      if l.pos = s.posOf l s.kernel then
        (s.server.next (.worker l.worker l.answer)).map fun server => { s with server }
      else none
    | some (answer, kernel) =>
      if answer = some l.answer ∧ l.pos = s.posOf l kernel then
        (s.server.next (.worker l.worker l.answer)).map fun server => ⟨server, kernel⟩
      else none
  else none

def next (s : Whole) : Action → Option Whole
  | .main e => (s.server.next (.main e)).map fun server => { s with server }
  | .worker l => s.workerStep l
  | .signal => (s.server.next .signal).map fun server => { s with server }

end Whole

/-- No worker calls anything on a closed stream. -/
def OnOpenStream (s : Whole) : Action → Prop
  | .worker l => StreamSafe s.server (.worker l.worker l.answer)
  | _ => True

theorem streamCall_sharedFile (op : Op) (env : Env) :
    streamCall sharedFile op env = driverCall op env := by cases op <;> rfl

theorem usesStream_of_streamCall {n : ℕ} {op : Op} {env : Env} {c : Call}
    (h : streamCall n op env = some c) : usesStream op = true := by
  cases op <;> first | rfl | cases h

section Worker

variable {s : Whole} {l : Step}

/-- The thread data of a started thread name the first stream. -/
theorem stream_of_started (hone : OneStream s.server)
    (hstarted : (s.server.conn l.worker).started = true) :
    (s.server.conn l.worker).stream = some sharedFile := by
  obtain ⟨hset, hstream⟩ := hone.given l.worker hstarted
  rcases hone.only with ⟨hnone, _⟩ | ⟨hfirst, _⟩
  · exact absurd hnone hset
  · exact hstream.trans hfirst

/-- On an open stream the driver sees the call that the workers alone would make. -/
theorem serve_eq (hone : OneStream s.server)
    (hstarted : (s.server.conn l.worker).started = true) (hopen : OnOpenStream s (.worker l))
    (hop : (s.server.pool.worker l.worker).op = some l.op) : s.serve l = s.system.serve l := by
  have hstream := stream_of_started hone hstarted
  unfold Whole.serve System.serve
  rw [hstream, Option.bind_some, streamCall_sharedFile]
  cases hcall : driverCall l.op l.env with
  | none => simp
  | some c =>
    rw [← streamCall_sharedFile] at hcall
    obtain ⟨n, hn, hisOpen⟩ := hopen l.op hop (usesStream_of_streamCall hcall)
    rw [hstream] at hn
    cases hn
    rw [if_pos hisOpen]
    rfl

/-- A call of a worker on an open stream is a step of the workers and the device,
and changes nothing else but the completion flag. -/
theorem workerStep_eq (hone : OneStream s.server)
    (hstarted : (s.server.conn l.worker).started = true) (hpc : s.server.pc ≠ .exited)
    (hopen : OnOpenStream s (.worker l)) :
    s.workerStep l = (s.system.step l).map fun u =>
      ⟨{ s.server.noteComplete l.worker with pool := u.pool }, u.kernel⟩ := by
  unfold Whole.workerStep System.step
  by_cases hmay : (s.server.pool.worker l.worker).op = some l.op
  · have hmay' : (s.system.pool.worker l.worker).op = some l.op := hmay
    have hserver : s.server.next (.worker l.worker l.answer) =
        (s.server.pool.next (l.worker, l.answer)).map fun pool =>
          { s.server.noteComplete l.worker with pool } := if_pos ⟨hstarted, hpc⟩
    have hpos : ∀ kernel, s.posOf l kernel = kernel.fPos sharedFile := by
      intro kernel
      rw [Whole.posOf, stream_of_started hone hstarted]
      rfl
    rw [if_pos hmay, if_pos hmay', serve_eq hone hstarted hopen hmay]
    cases s.system.serve l with
    | none =>
      dsimp only
      rw [hpos]
      by_cases hrecorded : l.pos = s.kernel.fPos sharedFile
      · have hrecorded' : l.pos = s.system.kernel.fPos sharedFile := hrecorded
        rw [if_pos hrecorded, if_pos hrecorded', hserver, Option.map_map, Option.map_map]
        rfl
      · have hrecorded' : ¬ l.pos = s.system.kernel.fPos sharedFile := hrecorded
        rw [if_neg hrecorded, if_neg hrecorded']
        rfl
    | some served =>
      obtain ⟨answer, kernel⟩ := served
      dsimp only
      rw [hpos]
      by_cases hanswered : answer = some l.answer ∧ l.pos = kernel.fPos sharedFile
      · rw [if_pos hanswered, if_pos hanswered, hserver, Option.map_map, Option.map_map]
        rfl
      · rw [if_neg hanswered, if_neg hanswered]
        rfl
  · have hmay' : ¬ (s.system.pool.worker l.worker).op = some l.op := hmay
    rw [if_neg hmay, if_neg hmay']
    rfl

/-- For the main thread and the connections it is a step of a worker. -/
theorem server_of_workerStep {t : Whole} (h : s.workerStep l = some t) :
    s.server.next (.worker l.worker l.answer) = some t.server := by
  obtain ⟨_, h⟩ := Option.ite_none_right_eq_some.mp h
  split at h
  · obtain ⟨_, h⟩ := Option.ite_none_right_eq_some.mp h
    obtain ⟨server, hserver, rfl⟩ := Option.map_eq_some_iff.mp h
    exact hserver
  · obtain ⟨_, h⟩ := Option.ite_none_right_eq_some.mp h
    obtain ⟨server, hserver, rfl⟩ := Option.map_eq_some_iff.mp h
    exact hserver

end Worker

theorem oneStream_next {s t : Whole} {a : Action} (h : OneStream s.server)
    (hnext : s.next a = some t) : OneStream t.server := by
  cases a with
  | main e =>
    obtain ⟨server, hserver, rfl⟩ := Option.map_eq_some_iff.mp hnext
    exact h.next hserver
  | worker l => exact h.next (server_of_workerStep hnext)
  | signal =>
    obtain ⟨server, hserver, rfl⟩ := Option.map_eq_some_iff.mp hnext
    exact h.next hserver

theorem oneStream_run {s t : Whole} (ls : List Action) (h : OneStream s.server)
    (hrun : exec Whole.next s ls = some t) : OneStream t.server :=
  @exec_invariant _ _ _ (fun s : Whole => OneStream s.server) _ h
    (fun _ _ _ hs hnext => oneStream_next hs hnext) _ _ hrun

/-- One step of the server, seen by the workers and the device. -/
theorem system_next {s t : Whole} {a : Action} (hone : OneStream s.server)
    (hopen : OnOpenStream s a) (hnext : s.next a = some t) :
    exec System.step s.system a.steps = some t.system := by
  cases a with
  | main e =>
    obtain ⟨server, hserver, rfl⟩ := Option.map_eq_some_iff.mp hnext
    have hpool := (Server.mainStep_moves hserver).pool
    simp [Action.steps, Whole.system, hpool]
  | worker l =>
    have hworker := server_of_workerStep hnext
    obtain ⟨⟨hstarted, hpc⟩, _⟩ := Option.ite_none_right_eq_some.mp hworker
    have hstep : s.workerStep l = some t := hnext
    rw [workerStep_eq hone hstarted hpc hopen] at hstep
    obtain ⟨u, hu, rfl⟩ := Option.map_eq_some_iff.mp hstep
    exact exec_cons_eq_some.mpr ⟨u, hu, rfl⟩
  | signal =>
    obtain ⟨server, hserver, rfl⟩ := Option.map_eq_some_iff.mp hnext
    obtain ⟨_, hs⟩ := Option.ite_none_right_eq_some.mp hserver
    cases hs
    rfl

/-- The calls of the main thread for one connection. -/
def connection : List Action :=
  [.main .accepted, .main .ok, .main .ok, .main .ok, .main .ok, .main .ok, .main .ok]

/-- The main thread waits for a connection, and the first `n` have a thread. -/
structure Serving (n : ℕ) (s : Whole) : Prop where
  one : OneStream s.server
  pc : s.server.pc = .incoming
  signal : s.server.signalSign = false
  accepted : s.server.accepted = n
  started : ∀ k < n, (s.server.conn k).started = true
  closes : s.server.closes 0 = 0

theorem serving_init (pair : ℕ → AesdSeekto) : Serving 0 (Whole.init pair) where
  one := oneStream_init pair
  pc := rfl
  signal := rfl
  accepted := rfl
  started k hk := absurd hk (Nat.not_lt_zero k)
  closes := rfl

/-- Nothing keeps the main thread from taking one more connection. -/
theorem Serving.more {n : ℕ} {s : Whole} (h : Serving n s) :
    ∃ t, exec Whole.next s connection = some t ∧ Serving (n + 1) t ∧ t.system = s.system := by
  have hone := h.one
  obtain
    ⟨⟨pc, signalSign, datafd, opened, closes, head, accepted, conn, pool, mutexFreed⟩, kernel⟩ := s
  obtain ⟨-, hpc, hsignal, haccepted, hstarted, hcloses⟩ := h
  dsimp only at hpc hsignal haccepted hstarted hcloses
  subst hpc hsignal haccepted
  cases datafd with
  | none =>
    refine ⟨_, rfl, ⟨oneStream_run connection hone rfl, rfl, rfl, rfl, fun k hk => ?_, hcloses⟩,
      rfl⟩
    by_cases hka : k = accepted
    · simp [hka]
    · simpa [Server.fopen, hka] using hstarted k (by omega)
  | some m =>
    refine ⟨_, rfl, ⟨oneStream_run connection hone rfl, rfl, rfl, rfl, fun k hk => ?_, hcloses⟩,
      rfl⟩
    by_cases hka : k = accepted
    · simp [hka]
    · simpa [hka] using hstarted k (by omega)

theorem connections (pair : ℕ → AesdSeekto) (n : ℕ) :
    ∃ ms t, exec Whole.next (Whole.init pair) ms = some t ∧
      Steps Whole.next OnOpenStream (Whole.init pair) ms ∧ ms.flatMap Action.steps = [] ∧
      Serving n t ∧ t.system = System.init pair := by
  induction n with
  | zero => exact ⟨[], _, rfl, trivial, rfl, serving_init pair, rfl⟩
  | succ n ih =>
    obtain ⟨ms, s, hrun, hsteps, hnone, hserving, hsystem⟩ := ih
    obtain ⟨t, hmore, hserving', hsame⟩ := hserving.more
    have hmain : Steps Whole.next OnOpenStream s connection := by
      have hall : ∀ a ∈ connection, ∃ e, a = .main e := by simp [connection]
      refine @Steps.imp _ _ _ (fun _ a => ∃ e, a = .main e) _ (fun _ => True) ?_ _ _ trivial
        (Steps.of_labels hall)
      rintro s a t - ⟨e, rfl⟩ -
      exact ⟨trivial, trivial⟩
    refine ⟨ms ++ connection, t, exec_append_eq_some.mpr ⟨s, hrun, hmore⟩,
      hsteps.append hrun hmain, ?_, hserving', hsame.trans hsystem⟩
    rw [List.flatMap_append, hnone]
    rfl

/-- While the main thread waits for a connection, a started worker takes whatever
step the workers and the device by themselves can take. -/
theorem Serving.worker {n : ℕ} {s : Whole} {l : Step} {u : System} (h : Serving n s)
    (hl : l.worker < n) (hnext : s.system.step l = some u) :
    ∃ t, s.next (.worker l) = some t ∧ OnOpenStream s (.worker l) ∧
      (u = t.system ∧ Serving n t) := by
  have hstarted := h.started l.worker hl
  have hstream := stream_of_started h.one hstarted
  have hisOpen : s.server.IsOpen sharedFile := by
    refine ⟨?_, h.closes⟩
    rcases h.one.only with ⟨hnone, _⟩ | ⟨_, hopened⟩
    · exact absurd hnone (h.one.given l.worker hstarted).1
    · rw [hopened]
      exact Nat.zero_lt_one
  have hopen : OnOpenStream s (.worker l) := fun op _ _ => ⟨sharedFile, hstream, hisOpen⟩
  have hpc : s.server.pc ≠ .exited := by simp [h.pc]
  have hstep : s.next (.worker l) =
      some ⟨{ s.server.noteComplete l.worker with pool := u.pool }, u.kernel⟩ := by
    rw [Whole.next, workerStep_eq h.one hstarted hpc hopen, hnext]
    rfl
  refine ⟨_, hstep, hopen, rfl, ?_⟩
  exact {
    one := oneStream_next h.one hstep
    pc := by simpa using h.pc
    signal := by simpa using h.signal
    accepted := by simpa using h.accepted
    started := fun k hk => by
      obtain ⟨status, hc⟩ := s.server.noteComplete_conn l.worker k
      simpa [hc] using h.started k hk
    closes := by simpa using h.closes }

/-- What the workers and the device do in the whole server, as long as no worker
calls anything on a closed stream, is what they do by themselves, sharing one
file and starting when they like: neither the main thread nor a signal adds a
behaviour or takes one away. -/
theorem whole_iff (pair : ℕ → AesdSeekto) (ls : List Step) (u : System) :
    exec System.step (System.init pair) ls = some u ↔
      ∃ ms t, exec Whole.next (Whole.init pair) ms = some t ∧
        Steps Whole.next OnOpenStream (Whole.init pair) ms ∧ ms.flatMap Action.steps = ls ∧
        t.system = u := by
  constructor
  · intro hrun
    obtain ⟨n, hn⟩ := (ls.map Step.worker).toFinset.exists_le
    obtain ⟨ms, s, hms, hsteps, hnone, hserving, hsystem⟩ := connections pair (n + 1)
    have hworkers : ∀ l ∈ ls, l.worker < n + 1 := by
      intro l hl
      have hmem : l.worker ∈ (ls.map Step.worker).toFinset := by
        rw [List.mem_toFinset]
        exact List.mem_map_of_mem hl
      exact Nat.lt_succ_of_le (hn l.worker hmem)
    rw [← hsystem] at hrun
    obtain ⟨t, ht, hopen, hu, _⟩ := @Steps.realize _ _ _ _ _ _ OnOpenStream
      (fun l : Step => l.worker < n + 1)
      (fun (u : System) (s : Whole) => u = s.system ∧ Serving (n + 1) s) Action.worker
      (fun v s l w hR hl hnext => hR.2.worker hl (hR.1 ▸ hnext)) _ _ _ _
      ⟨rfl, hserving⟩ hworkers hrun
    refine ⟨ms ++ ls.map .worker, t, exec_append_eq_some.mpr ⟨s, hms, ht⟩,
      hsteps.append hms hopen, ?_, hu.symm⟩
    rw [List.flatMap_append, hnone, List.nil_append, List.flatMap_map]
    simp [Action.steps]
  · rintro ⟨ms, t, hrun, hopen, rfl, rfl⟩
    obtain ⟨v, hv, hone, hsystem⟩ := @Steps.project _ _ _ _ _ System.step OnOpenStream
      (fun (s : Whole) (u : System) => OneStream s.server ∧ s.system = u) Action.steps
      (fun s u a t hR hC hnext =>
        ⟨t.system, hR.2 ▸ system_next hR.1 hC hnext, oneStream_next hR.1 hnext, rfl⟩)
      _ _ _ _ ⟨oneStream_init pair, rfl⟩ hopen hrun
    rw [hsystem]
    exact hv

end Aesd.WholeServer
