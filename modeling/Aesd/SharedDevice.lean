import Aesd.CharDriver
import Aesd.WorkerPool

/-!
The workers on the device. They share one open file description, so the driver
sees one file position for all of them. A write, a seek, an ioctl or a read of a
worker is a call of the driver, and the driver's reply is the worker's answer;
the other calls are answered by the outside. The device mutex of the driver and
the mutex of the workers are different ones. A step records what was called, how
it was answered and where the file position is afterwards, so a list of steps is
a history that can be inspected.
-/

namespace Aesd.SharedDevice

open CharDriver EchoWorker WorkerPool Runs

/-- The description that the data stream of all workers refers to. -/
def sharedFile : ℕ := 0

/-- `&pair`; the driver only compares it with `NULL`. -/
def pairAddress : UInt64 := 0x1000

structure System where
  pool : Pool
  kernel : Kernel

/-- One step: a call of a worker with its answer, the environment of the driver
if the call reaches it, and the file position after the step. -/
structure Step where
  worker : ℕ
  op : Op
  answer : Answer
  env : Env := {}
  pos : ℤ

/-- The driver call behind a worker's call on the data stream. -/
def driverCall (op : Op) (env : Env) : Option Call :=
  match op with
  | .write buffer => some (.write sharedFile buffer env)
  | .lseek off whence => some (.llseek sharedFile off whence env)
  | .ioctl pair => some (.ioctl sharedFile AESDCHAR_IOCSEEKTO pairAddress pair env)
  | .read size => some (.read sharedFile (toSize size) env)
  | _ => none

/-- The device operations of a worker. -/
def onDevice (op : Op) : Bool := (driverCall op {}).isSome

/-- What a reply of the driver looks like behind the system call: a negative
value is `-1`, a read that is not empty brings its bytes. A sleeping call has no
answer. -/
def answerOf (op : Op) (reply : Reply) : Option Answer :=
  match reply.ret, op with
  | none, _ => none
  | some r, .read _ =>
    some (if r < 0 then .ret (-1) else if r = 0 then .ret 0 else .bytes reply.data)
  | some r, _ => some (.ret (if r < 0 then -1 else r))

/-- The premises on the outside: no `lseek` fails, and no `recv` fills the buffer. -/
def Step.permitted (l : Step) : Bool :=
  match l.op, l.answer with
  | .lseek _ _, .ret r => r ≠ -1
  | .receive, .recv data _ => data.length < BUFFER_SIZE
  | _, _ => true

namespace System

/-- No worker has started, the driver has just been loaded. -/
def init (pair : ℕ → AesdSeekto) : System where
  pool := Pool.init pair
  kernel := aesdInitModule

/-- The driver's reply to the call of a step, if it is a call of the driver. -/
def serve (s : System) (l : Step) : Option (Option Answer × Kernel) :=
  (driverCall l.op l.env).map fun c =>
    (answerOf l.op (perform s.kernel c).1, (perform s.kernel c).2)

/-- Whatever the outside does. -/
def step (s : System) (l : Step) : Option System :=
  if (s.pool.worker l.worker).op = some l.op then
    match s.serve l with
    | none =>
      if l.pos = s.kernel.fPos sharedFile then
        (s.pool.next (l.worker, l.answer)).map fun pool => { s with pool }
      else none
    | some (answer, kernel) =>
      if answer = some l.answer ∧ l.pos = kernel.fPos sharedFile then
        (s.pool.next (l.worker, l.answer)).map fun pool => ⟨pool, kernel⟩
      else none
  else none

/-- A step that meets the premises. -/
def next (s : System) (l : Step) : Option System := if l.permitted then s.step l else none

theorem step_cases {s t : System} {l : Step} (h : s.step l = some t) :
    (s.pool.worker l.worker).op = some l.op ∧
      s.pool.next (l.worker, l.answer) = some t.pool ∧ l.pos = t.kernel.fPos sharedFile ∧
      ((driverCall l.op l.env = none ∧ t.kernel = s.kernel) ∨
        ∃ c, driverCall l.op l.env = some c ∧
          answerOf l.op (perform s.kernel c).1 = some l.answer ∧
          t.kernel = (perform s.kernel c).2) := by
  obtain ⟨hop, h⟩ := Option.ite_none_right_eq_some.mp h
  refine ⟨hop, ?_⟩
  unfold serve at h
  cases hcall : driverCall l.op l.env with
  | none =>
    rw [hcall] at h
    obtain ⟨hpos, h⟩ := Option.ite_none_right_eq_some.mp h
    obtain ⟨pool, hpool, rfl⟩ := Option.map_eq_some_iff.mp h
    exact ⟨hpool, hpos, Or.inl ⟨rfl, rfl⟩⟩
  | some c =>
    rw [hcall] at h
    obtain ⟨⟨hans, hpos⟩, h⟩ := Option.ite_none_right_eq_some.mp h
    obtain ⟨pool, hpool, rfl⟩ := Option.map_eq_some_iff.mp h
    exact ⟨hpool, hpos, Or.inr ⟨c, rfl, hans, rfl⟩⟩

theorem next_eq_some {s t : System} {l : Step} :
    s.next l = some t ↔ l.permitted = true ∧ s.step l = some t :=
  Option.ite_none_right_eq_some

theorem next_cases {s t : System} {l : Step} (h : s.next l = some t) :
    (s.pool.worker l.worker).op = some l.op ∧ l.permitted = true ∧
      s.pool.next (l.worker, l.answer) = some t.pool ∧ l.pos = t.kernel.fPos sharedFile ∧
      ((driverCall l.op l.env = none ∧ t.kernel = s.kernel) ∨
        ∃ c, driverCall l.op l.env = some c ∧
          answerOf l.op (perform s.kernel c).1 = some l.answer ∧
          t.kernel = (perform s.kernel c).2) := by
  obtain ⟨hperm, h⟩ := next_eq_some.mp h
  obtain ⟨hop, hcases⟩ := step_cases h
  exact ⟨hop, hperm, hcases⟩

/-- A run that meets the premises is a run. -/
theorem exec_step_of_next {s t : System} {ls : List Step} (h : exec next s ls = some t) :
    exec step s ls = some t := by
  induction ls generalizing s with
  | nil => exact h
  | cons l ls ih =>
    obtain ⟨u, hl, hls⟩ := exec_cons_eq_some.mp h
    exact exec_cons_eq_some.mpr ⟨u, (next_eq_some.mp hl).2, ih hls⟩

/-- A step that is no call of the driver. -/
theorem next_quiet {s t : System} {l : Step} (h : s.next l = some t)
    (hcall : driverCall l.op l.env = none) : t.kernel = s.kernel := by
  obtain ⟨_, _, _, _, ⟨_, hkernel⟩ | ⟨c, hc, _⟩⟩ := next_cases h
  · exact hkernel
  · rw [hcall] at hc
    cases hc

/-- A step that is one. -/
theorem next_served {s t : System} {l : Step} {c : Call} (h : s.next l = some t)
    (hcall : driverCall l.op l.env = some c) :
    answerOf l.op (perform s.kernel c).1 = some l.answer ∧ t.kernel = (perform s.kernel c).2 := by
  obtain ⟨_, _, _, _, ⟨hnone, _⟩ | ⟨d, hd, hserved⟩⟩ := next_cases h
  · rw [hcall] at hnone
    cases hnone
  · rw [hcall] at hd
    cases hd
    exact hserved

end System

theorem inside_of_onDevice {w : Worker} {op : Op} (hop : w.op = some op)
    (hdev : onDevice op = true) : w.pc.inside = true := by
  cases hpc : w.pc <;> simp_all [Worker.op, Pc.inside] <;> subst hop <;> cases hdev

theorem exclusive_run {pair : ℕ → AesdSeekto} {ls : List Step} {s : System}
    (hrun : exec System.next (System.init pair) ls = some s) : Exclusive s.pool := by
  have hstep : ∀ (s : System) (l : Step) (t : System), Exclusive s.pool → s.next l = some t →
      Exclusive t.pool := by
    intro s l t hs h
    obtain ⟨_, _, hpool, _⟩ := System.next_cases h
    exact hs.next hpool
  exact @exec_invariant _ _ _ (fun s => Exclusive s.pool) _ (exclusive_init pair) hstep _ _ hrun

/-- Between a state where `i` does not hold the mutex and one where it does, `i` locks it. -/
theorem locked_between {s t : System} {ls : List Step} {i : ℕ}
    (hrun : exec System.next s ls = some t) (hs : s.pool.holder ≠ some i)
    (ht : t.pool.holder = some i) : ∃ l ∈ ls, l.worker = i ∧ l.op = .mutexLock := by
  induction ls generalizing s with
  | nil =>
    cases hrun
    exact absurd ht hs
  | cons l ls ih =>
    obtain ⟨u, hl, hls⟩ := exec_cons_eq_some.mp hrun
    obtain ⟨hop, _, hpool, _⟩ := System.next_cases hl
    by_cases hu : u.pool.holder = some i
    · rcases holder_next hpool hu with hheld | ⟨hi, hlock⟩
      · exact absurd hheld hs
      · rw [hop] at hlock
        exact ⟨l, List.mem_cons_self .., hi, Option.some.inj hlock⟩
    · obtain ⟨m, hm, hmi, hmop⟩ := ih hls hu
      exact ⟨m, List.mem_cons_of_mem _ hm, hmi, hmop⟩

/-- Two device operations of one worker with no lock of that worker in between
belong to one turn; no other worker has a device operation between them. -/
def NotInterleaved (ls : List Step) : Prop :=
  ∀ pre mid post e f, ls = pre ++ e :: (mid ++ f :: post) → e.worker = f.worker →
    onDevice e.op = true → onDevice f.op = true →
    (∀ m ∈ mid, ¬ (m.worker = e.worker ∧ m.op = .mutexLock)) →
    ∀ m ∈ mid, onDevice m.op = true → m.worker = e.worker

theorem notInterleaved {pair : ℕ → AesdSeekto} {ls : List Step} {s : System}
    (hrun : exec System.next (System.init pair) ls = some s) : NotInterleaved ls := by
  intro pre mid post e f hls hworker he hf hnolock m hm hdev
  obtain ⟨mid₁, mid₂, rfl⟩ := List.append_of_mem hm
  have hsplit : ls = (pre ++ e :: mid₁) ++ (m :: mid₂) ++ f :: post := by simp [hls]
  rw [hsplit] at hrun
  obtain ⟨v, hrunv, hrest⟩ := exec_append_eq_some.mp hrun
  obtain ⟨u, hrunu, hmid⟩ := exec_append_eq_some.mp hrunv
  -- before `m` its worker holds the mutex, before `f` the worker of `f` does
  obtain ⟨_, hnextm, _⟩ := exec_cons_eq_some.mp hmid
  obtain ⟨_, hnextf, _⟩ := exec_cons_eq_some.mp hrest
  have hu : u.pool.holder = some m.worker :=
    exclusive_run hrunu _ (inside_of_onDevice (System.next_cases hnextm).1 hdev)
  have hv : v.pool.holder = some f.worker :=
    exclusive_run hrunv _ (inside_of_onDevice (System.next_cases hnextf).1 hf)
  by_contra hne
  have hnot : u.pool.holder ≠ some f.worker := by
    rw [hu, ← hworker]
    exact fun heq => hne (Option.some.inj heq)
  obtain ⟨l, hl, hli, hlop⟩ := locked_between hmid hnot hv
  exact hnolock l (List.mem_append_right _ hl) ⟨hworker ▸ hli, hlop⟩

end Aesd.SharedDevice
