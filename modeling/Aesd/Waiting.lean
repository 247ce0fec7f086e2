import Aesd.ExclusiveUse
import Aesd.ServerMain

/-!
How long the server waits in `select`. `tcp_select` goes back to `select` when a
signal interrupts it, with the rest of its timeout, so signals change neither
what it returns nor when. The main thread looks for a signal only between two
such waits, and a worker waits for its client with the mutex of all workers held.
-/

namespace Aesd.Waiting

open EchoWorker WorkerPool ServerMain ExclusiveUse Runs

/-- `time.tv_sec = 15;` in microseconds. -/
def TIMEOUT : ℕ := 15 * 1000000

/-- The times, in microseconds, of what a wait from `now` on depends on: when the
descriptor becomes readable, and when signals are handled. A `broken` select
fails at once and not because of a signal. -/
structure Wait where
  now : ℕ
  readable : Option ℕ
  signals : List ℕ
  broken : Bool := false

/-- When a `select` comes back that no signal interrupts. -/
def wakeTime (readable : Option ℕ) (now left : ℕ) : ℕ :=
  match readable with
  | some time => min (max now time) (now + left)
  | none => now + left

def inTime (readable : Option ℕ) (now left : ℕ) : Bool :=
  match readable with
  | some time => time ≤ now + left
  | none => false

/-- The loop around `select`: what `tcp_select` returns, and when. -/
def selectLoop (sockfd : ℤ) (readable : Option ℕ) : List ℕ → ℕ → ℕ → ℤ × ℕ
  | [], now, left =>
    (if inTime readable now left then sockfd else 0, wakeTime readable now left)
  | signal :: signals, now, left =>
    if signal ≤ now then selectLoop sockfd readable signals now left
    else if signal < wakeTime readable now left then
      -- `EINTR`, with the time that is left in the `timeval`
      selectLoop sockfd readable signals signal (now + left - signal)
    else (if inTime readable now left then sockfd else 0, wakeTime readable now left)

def tcpSelect (sockfd : ℤ) (w : Wait) : ℤ × ℕ :=
  if w.broken then (-1, w.now) else selectLoop sockfd w.readable w.signals w.now TIMEOUT

/-- What `listen` and `accept` do. -/
structure Incoming extends Wait where
  listens : Bool := true
  accepts : Bool := true

def tcpIncomingCheck (sockfd : ℤ) (w : Incoming) : Event × ℕ :=
  if w.listens = false then (.exits, w.now)
  else
    let (rc, time) := tcpSelect sockfd w.toWait
    if rc = -1 then (.selectError, time)
    else if rc = 0 then (.timeout, time)
    else (if w.accepts then .accepted else .exits, time)

/-- `recv` is what a `recv` on a readable socket gives. -/
def tcpReceive (acceptfd : ℤ) (w : Wait) (recv : Answer) : Answer × ℕ :=
  let (rc, time) := tcpSelect acceptfd w
  (if rc > 0 then recv else .ret rc, time)

/-- From an interruption on, the rest of the timeout ends when the whole would have. -/
theorem wakeTime_of_interrupted {readable : Option ℕ} {now left signal : ℕ} (hlate : now < signal)
    (hwake : signal < wakeTime readable now left) :
    wakeTime readable signal (now + left - signal) = wakeTime readable now left ∧
      inTime readable signal (now + left - signal) = inTime readable now left := by
  unfold wakeTime at hwake ⊢
  unfold inTime
  cases readable with
  | none => exact ⟨by dsimp only at hwake ⊢; omega, rfl⟩
  | some time =>
    dsimp only at hwake ⊢
    have hrest : signal + (now + left - signal) = now + left := by omega
    rw [hrest]
    exact ⟨by omega, rfl⟩

/-- Signals are invisible. -/
theorem selectLoop_signals (sockfd : ℤ) (readable : Option ℕ) (signals : List ℕ) (now left : ℕ) :
    selectLoop sockfd readable signals now left =
      (if inTime readable now left then sockfd else 0, wakeTime readable now left) := by
  induction signals generalizing now left with
  | nil => rfl
  | cons signal signals ih =>
    unfold selectLoop
    split
    · exact ih now left
    · split
      · rename_i hlate hwake
        obtain ⟨htime, hin⟩ := wakeTime_of_interrupted (Nat.lt_of_not_le hlate) hwake
        rw [ih, htime, hin]
      · rfl

theorem tcpSelect_time_le (sockfd : ℤ) (w : Wait) :
    w.now ≤ (tcpSelect sockfd w).2 ∧ (tcpSelect sockfd w).2 ≤ w.now + TIMEOUT := by
  unfold tcpSelect
  split
  · exact ⟨Nat.le_refl _, Nat.le_add_right _ _⟩
  · rw [selectLoop_signals]
    unfold wakeTime
    cases w.readable with
    | none => exact ⟨Nat.le_add_right _ _, Nat.le_refl _⟩
    | some time => exact ⟨by dsimp only; omega, by dsimp only; omega⟩

/-- A timeout takes the whole time. -/
theorem tcpSelect_time_of_zero {sockfd : ℤ} (hfd : 0 < sockfd) {w : Wait}
    (hzero : (tcpSelect sockfd w).1 = 0) : (tcpSelect sockfd w).2 = w.now + TIMEOUT := by
  unfold tcpSelect at hzero ⊢
  split at hzero
  · cases hzero
  · rename_i hworks
    rw [if_neg hworks]
    rw [selectLoop_signals] at hzero ⊢
    dsimp only at hzero ⊢
    have hlate : inTime w.readable w.now TIMEOUT = false := by
      by_contra hin
      rw [if_pos (by simpa using hin)] at hzero
      omega
    unfold inTime at hlate
    unfold wakeTime
    cases hr : w.readable with
    | none => rfl
    | some time =>
      rw [hr] at hlate
      have hgt : w.now + TIMEOUT < time := by simpa using hlate
      dsimp only
      omega

theorem tcpIncomingCheck_time_le (sockfd : ℤ) (w : Incoming) :
    (tcpIncomingCheck sockfd w).2 - w.now ≤ TIMEOUT := by
  have hle := (tcpSelect_time_le sockfd w.toWait).2
  unfold tcpIncomingCheck
  split
  · exact (Nat.sub_self _).trans_le (Nat.zero_le _)
  · dsimp only
    split
    · omega
    · split <;> omega

/-! ## The main thread -/

/-- A step of the server, with the environment of the wait if it is one. -/
structure Timed where
  label : Label
  incoming : Incoming

def awaits (s : Server) (l : Timed) : Bool :=
  match l.label, s.pc with
  | .main _, .incoming => true
  | _, _ => false

/-- The step, if `tcp_incoming_check` comes back like this. -/
def nextTimed (sockfd : ℤ) (s : Server) (l : Timed) : Option Server :=
  if awaits s l = true ∧ l.label ≠ .main (tcpIncomingCheck sockfd l.incoming).1 then none
  else s.next l.label

/-- The time that the main thread spends in `tcp_incoming_check`. -/
def waited (sockfd : ℤ) (s : Server) (l : Timed) : List ℕ :=
  if awaits s l then [(tcpIncomingCheck sockfd l.incoming).2 - l.incoming.now] else []

/-- The waits to come before the main thread looks for a signal. -/
def waitsLeft : MainPc → ℕ
  | .incoming | .idle | .sweep _ | .sweepJoin _ _ => 1
  | _ => 0

theorem waitsLeft_le (pc : MainPc) : waitsLeft pc ≤ 1 := by
  unfold waitsLeft
  split <;> decide

/-- After a signal a wait uses up the one that was left, and only a wait accepts. -/
theorem main_after_signal {s t : Server} {e : Event} (h : s.Moves e t)
    (hsignal : s.signalSign = true) :
    t.signalSign = true ∧
      waitsLeft t.pc + (if s.pc = .incoming then 1 else 0) ≤ waitsLeft s.pc ∧
      t.accepted ≤ s.accepted + (if s.pc = .incoming then 1 else 0) := by
  cases h with
  | goIdle hpc hno | again hpc hno =>
    rw [hsignal] at hno
    cases hno
  | exits hmay =>
    refine ⟨hsignal, ?_, Nat.le_add_right _ _⟩
    rw [Server.goto_pc]
    split
    · rename_i hpc
      rw [hpc]
      exact Nat.le_refl _
    · exact Nat.zero_le _
  | idle hpc | killStream hpc =>
    refine ⟨(Server.fclose_signalSign s).trans hsignal, ?_, ?_⟩
    · simp [hpc, waitsLeft]
    · simp
  | accepted hpc | timeout hpc | selectError hpc =>
    refine ⟨hsignal, ?_, ?_⟩
    · simp [hpc, waitsLeft]
    · simp [hpc, Server.goto, Server.accept]
  | opened hpc | alreadyOpen hpc | openFails hpc | dataInit hpc | dataInitFails hpc | idInit hpc
  | idInitFails hpc | addThread hpc | addThreadFails hpc | createThread hpc
  | createThreadFails hpc | kill hpc | swept hpc | sweepComplete hpc | sweepRunning hpc
  | sweepJoin hpc | walked hpc | walkComplete hpc | walkRunning hpc | killJoin hpc
  | killReclaim hpc | killSocket hpc | killMutex hpc | killed hpc =>
    refine ⟨hsignal, ?_, Nat.le_add_right _ _⟩
    simp [hpc, waitsLeft]

theorem after_signal {sockfd : ℤ} {s t : Server} {l : Timed} (hsignal : s.signalSign = true)
    (hnext : nextTimed sockfd s l = some t) :
    t.signalSign = true ∧ waitsLeft t.pc + (waited sockfd s l).length ≤ waitsLeft s.pc ∧
      t.accepted ≤ s.accepted + (waited sockfd s l).length := by
  obtain ⟨_, hstep⟩ := Option.ite_none_left_eq_some.mp hnext
  unfold waited awaits
  obtain ⟨label, incoming⟩ := l
  rcases Server.next_cases hstep with ⟨e, rfl, hmoves⟩ | ⟨k, a, pool, rfl, _, _, _, rfl⟩ |
    ⟨rfl, _, rfl⟩
  · have hmain := main_after_signal hmoves hsignal
    by_cases hpc : s.pc = .incoming
    · simpa [hpc] using hmain
    · simpa [hpc] using hmain
  · exact ⟨(Server.noteComplete_signalSign s k).trans hsignal,
      (congrArg waitsLeft (Server.noteComplete_pc s k)).le, (Server.noteComplete_accepted s k).le⟩
  · exact ⟨rfl, Nat.le_refl _, Nat.le_refl _⟩

/-- The waits after a signal, in any continuation from any state. -/
theorem waits_after_signal {sockfd : ℤ} {s t : Server} {ms : List Timed}
    (hsignal : s.signalSign = true) (hrun : exec (nextTimed sockfd) s ms = some t) :
    waitsLeft t.pc + (outputs (nextTimed sockfd) (waited sockfd) s ms).length ≤ waitsLeft s.pc ∧
      t.accepted ≤ s.accepted + (outputs (nextTimed sockfd) (waited sockfd) s ms).length := by
  induction ms generalizing s with
  | nil =>
    cases hrun
    exact ⟨Nat.le_refl _, Nat.le_refl _⟩
  | cons l ms ih =>
    obtain ⟨u, hl, hms⟩ := exec_cons_eq_some.mp hrun
    obtain ⟨hu, hwaits, haccepted⟩ := after_signal hsignal hl
    obtain ⟨hrest, hmore⟩ := ih hu hms
    rw [outputs, hl]
    dsimp only
    rw [List.length_append]
    omega

theorem mem_waits_le {sockfd : ℤ} {s : Server} {ms : List Timed} :
    ∀ n ∈ outputs (nextTimed sockfd) (waited sockfd) s ms, n ≤ TIMEOUT := by
  induction ms generalizing s with
  | nil => simp [outputs]
  | cons l ms ih =>
    rw [outputs]
    split
    · simp
    · refine List.forall_mem_append.mpr ⟨?_, ih⟩
      unfold waited
      split
      · exact List.forall_mem_singleton.mpr (tcpIncomingCheck_time_le sockfd l.incoming)
      · simp

/-- Once SIGINT or SIGTERM was noted: whatever connections, signals and worker
steps follow, the main thread comes back from `tcp_incoming_check` at most once
more, waits for fifteen seconds at most, and accepts at most one connection. -/
theorem shutdown_waits_once (sockfd : ℤ) (s t : Server) (ms : List Timed)
    (hsignal : s.signalSign = true) (hrun : exec (nextTimed sockfd) s ms = some t) :
    (outputs (nextTimed sockfd) (waited sockfd) s ms).length ≤ 1 ∧
      (outputs (nextTimed sockfd) (waited sockfd) s ms).sum ≤ TIMEOUT ∧
      t.accepted ≤ s.accepted + 1 := by
  obtain ⟨hwaits, haccepted⟩ := waits_after_signal hsignal hrun
  have hone := waitsLeft_le s.pc
  refine ⟨by omega, ?_, by omega⟩
  cases houts : outputs (nextTimed sockfd) (waited sockfd) s ms with
  | nil => exact Nat.zero_le _
  | cons n rest =>
    have hrest : rest = [] := by
      rw [houts, List.length_cons] at hwaits
      exact List.length_eq_zero_iff.mp (by omega)
    rw [hrest, List.sum_singleton]
    exact mem_waits_le n (houts ▸ List.mem_cons_self ..)

/-- A signal during the wait of an idle server. -/
def signaledWait : List Timed :=
  [⟨.main .timeout, { now := 0, readable := none, signals := [5, 7000000] }⟩,
   ⟨.main .ok, { now := 0, readable := none, signals := [] }⟩,
   ⟨.main .ok, { now := 0, readable := none, signals := [] }⟩]

theorem shutdown_waits_once_idle :
    (outputs (nextTimed 3) (waited 3)
      { Server.init (fun _ => ⟨0, 0⟩) with signalSign := true } signaledWait).sum ≤ TIMEOUT := by
  obtain ⟨t, ht⟩ := Option.isSome_iff_exists.mp
    (by decide : (exec (nextTimed 3)
      { Server.init (fun _ => ⟨0, 0⟩) with signalSign := true } signaledWait).isSome = true)
  exact (shutdown_waits_once 3 _ t signaledWait rfl ht).2.1

/-! ## The workers -/

/-- The workers with a clock: `since` is when a worker made its last step. -/
structure Clocked where
  pool : Pool
  now : ℕ
  since : ℕ → ℕ

/-- A step of worker `worker` that is over at `time`. For `tcp_receive`, `wait`
is the environment of its `tcp_select` and `recv` what a `recv` would give. -/
structure Tick where
  worker : ℕ
  answer : Answer
  time : ℕ
  wait : Wait
  recv : Answer

namespace Clocked

def init (pair : ℕ → CharDriver.AesdSeekto) : Clocked := ⟨Pool.init pair, 0, fun _ => 0⟩

def receives (s : Clocked) (l : Tick) : Bool := (s.pool.worker l.worker).pc == .receive

/-- The client has sent nothing and has not closed when the time is over. -/
def timesOut (acceptfd : ℕ → ℤ) (s : Clocked) (l : Tick) : Bool :=
  s.receives l && (tcpSelect (acceptfd l.worker) l.wait).1 == 0

def next (acceptfd : ℕ → ℤ) (s : Clocked) (l : Tick) : Option Clocked :=
  if s.now ≤ l.time ∧ (s.receives l = true → s.since l.worker ≤ l.wait.now ∧
      tcpReceive (acceptfd l.worker) l.wait l.recv = (l.answer, l.time)) then
    (s.pool.next (l.worker, l.answer)).map fun pool =>
      ⟨pool, l.time, Function.update s.since l.worker l.time⟩
  else none

/-- The time that a worker was in `tcp_receive`. -/
def received (s : Clocked) (l : Tick) : ℕ := if s.receives l then l.time - l.wait.now else 0

/-- From when to when the worker was in it. -/
def reception (s : Clocked) (l : Tick) : Option TimeSpan :=
  if s.receives l then some ⟨l.wait.now, l.time⟩ else none

/-- `tcp_receive` as a use of the mutex: who is in it holds it. -/
def usage : Usage Clocked Tick where
  now := Clocked.now
  since s := s.pool.holder.bind fun i =>
    if (s.pool.worker i).pc = .receive then some (s.since i) else none
  used := reception

theorem since_usage {s : Clocked} {start : ℕ} :
    usage.since s = some start ↔ ∃ i, s.pool.holder = some i ∧
      (s.pool.worker i).pc = .receive ∧ s.since i = start := by
  simp [usage, Option.bind_eq_some_iff]

theorem time_of_receives {acceptfd : ℕ → ℤ} {s t : Clocked} {l : Tick}
    (hnext : s.next acceptfd l = some t) (hpc : s.receives l = true) :
    s.since l.worker ≤ l.wait.now ∧ (tcpSelect (acceptfd l.worker) l.wait).2 = l.time := by
  obtain ⟨⟨_, hreceive⟩, _⟩ := Option.ite_none_right_eq_some.mp hnext
  obtain ⟨hsince, hanswer⟩ := hreceive hpc
  exact ⟨hsince, congrArg Prod.snd hanswer⟩

theorem respects {acceptfd : ℕ → ℤ} {s t : Clocked} {l : Tick} (hex : Exclusive s.pool)
    (hnext : s.next acceptfd l = some t) : Exclusive t.pool ∧ usage.Respects s l t := by
  have htimes := time_of_receives hnext
  obtain ⟨⟨hnow, _⟩, hmap⟩ := Option.ite_none_right_eq_some.mp hnext
  obtain ⟨pool, hpool, rfl⟩ := Option.map_eq_some_iff.mp hmap
  have hother := (Pool.next_worker hpool).2
  have hex' := hex.next hpool
  refine ⟨hex', hnow, fun i hi => ?_, fun start hstart => ?_⟩
  · obtain ⟨hpc, hi⟩ := Option.ite_none_right_eq_some.mp hi
    cases hi
    have hin : (s.pool.worker l.worker).pc = .receive := eq_of_beq hpc
    have hheld := hex l.worker (by rw [hin]; rfl)
    obtain ⟨hsince, htime⟩ := htimes hpc
    have hselect := (tcpSelect_time_le (acceptfd l.worker) l.wait).1
    exact ⟨s.since l.worker, since_usage.mpr ⟨_, hheld, hin, rfl⟩, hsince, htime ▸ hselect,
      Nat.le_refl _⟩
  · obtain ⟨i, hheld, hin, hstart⟩ := since_usage.mp hstart
    dsimp only at hheld hin hstart
    by_cases hi : i = l.worker
    · subst hi
      rw [Function.update_self] at hstart
      exact Or.inl hstart.le
    · rw [hother i hi] at hin
      rw [Function.update_of_ne hi] at hstart
      have hbefore := hex i (by rw [hin]; rfl)
      refine Or.inr ⟨since_usage.mpr ⟨i, hbefore, hin, hstart⟩, ?_⟩
      -- the mutex is with `i`
      have hquiet : s.receives l = false := by
        by_contra hno
        have hpc : s.receives l = true := by simpa using hno
        have hl : (s.pool.worker l.worker).pc = .receive := eq_of_beq hpc
        have hworker := hex l.worker (by rw [hl]; rfl)
        rw [hbefore] at hworker
        exact hi (Option.some.inj hworker)
      simp [usage, reception, hquiet]

/-- One entry for each client that was waited for in vain. -/
def timeouts (acceptfd : ℕ → ℤ) (s : Clocked) (ls : List Tick) : List Unit :=
  outputs (next acceptfd) (fun s l => if s.timesOut acceptfd l then [()] else []) s ls

/-- When workers waited for their clients, in the order in which the waits ended. -/
def receptions (acceptfd : ℕ → ℤ) (s : Clocked) (ls : List Tick) : List TimeSpan :=
  outputs (next acceptfd) (fun s l => (s.reception l).toList) s ls

/-- How long each step was in `tcp_receive`. -/
def receiving (acceptfd : ℕ → ℤ) (s : Clocked) (ls : List Tick) : List ℕ :=
  outputs (next acceptfd) (fun s l => [s.received l]) s ls

theorem received_of_timesOut {acceptfd : ℕ → ℤ} (hfd : ∀ i, 0 < acceptfd i) {s t : Clocked}
    {l : Tick} (hnext : s.next acceptfd l = some t) (hout : s.timesOut acceptfd l = true) :
    s.received l = TIMEOUT := by
  obtain ⟨hpc, hzero⟩ := Bool.and_eq_true_iff.mp hout
  have hend := tcpSelect_time_of_zero (hfd l.worker) (eq_of_beq hzero)
  have htime := (time_of_receives hnext hpc).2
  rw [received, hpc, if_pos rfl]
  omega

theorem timeouts_le_receiving {acceptfd : ℕ → ℤ} (hfd : ∀ i, 0 < acceptfd i) {s t : Clocked}
    {ls : List Tick} (hrun : exec (next acceptfd) s ls = some t) :
    TIMEOUT * (timeouts acceptfd s ls).length ≤ (receiving acceptfd s ls).sum := by
  induction ls generalizing s with
  | nil => exact Nat.le_refl _
  | cons l ls ih =>
    obtain ⟨u, hl, hls⟩ := exec_cons_eq_some.mp hrun
    have hrest := ih hls
    unfold timeouts receiving at hrest ⊢
    rw [outputs, outputs, hl]
    dsimp only
    rw [List.length_append, List.sum_append, List.sum_singleton, Nat.mul_add]
    refine Nat.add_le_add ?_ hrest
    split
    · rename_i hout
      exact (received_of_timesOut hfd hl hout).ge
    · exact Nat.zero_le _

theorem receiving_le {acceptfd : ℕ → ℤ} {s t : Clocked} {ls : List Tick}
    (hrun : exec (next acceptfd) s ls = some t) :
    (receiving acceptfd s ls).sum ≤ ((receptions acceptfd s ls).map TimeSpan.length).sum := by
  refine usage.sum_le_length (fun s l _ _ => ?_) hrun
  change s.received l ≤ ((s.reception l).toList.map TimeSpan.length).sum
  unfold received reception
  split
  · simp [TimeSpan.length]
  · exact Nat.zero_le _

end Clocked

/-- Any number of workers, any interleaving: a worker waits fifteen seconds for a
client that sends nothing, with the mutex of all workers held; so no two such waits
overlap, and they add up. -/
theorem silent_clients_add_up (acceptfd : ℕ → ℤ) (hfd : ∀ i, 0 < acceptfd i)
    (pair : ℕ → CharDriver.AesdSeekto) (ls : List Tick) (s : Clocked)
    (hrun : exec (Clocked.next acceptfd) (Clocked.init pair) ls = some s) :
    Steps (Clocked.next acceptfd)
        (fun s l => s.timesOut acceptfd l = true → s.received l = TIMEOUT) (Clocked.init pair) ls ∧
      Successive (Clocked.receptions acceptfd (Clocked.init pair) ls) s.now ∧
      TIMEOUT * (Clocked.timeouts acceptfd (Clocked.init pair) ls).length ≤
        (Clocked.receiving acceptfd (Clocked.init pair) ls).sum ∧
      (Clocked.receiving acceptfd (Clocked.init pair) ls).sum ≤ s.now := by
  have hsuccessive : Successive (Clocked.receptions acceptfd (Clocked.init pair) ls) s.now :=
    Clocked.usage.successive (fun _ _ _ => Clocked.respects) (exclusive_init pair) rfl hrun
  refine ⟨?_, hsuccessive, Clocked.timeouts_le_receiving hfd hrun, ?_⟩
  · exact @Steps.of_invariant _ _ _ _ (fun _ => True)
      (fun s l t _ hl => ⟨Clocked.received_of_timesOut hfd hl, trivial⟩) _ trivial ls
  · exact (Clocked.receiving_le hrun).trans hsuccessive.sum_le

def silent (worker : ℕ) (now : ℕ) : List Tick :=
  let wait : Wait := { now := now, readable := none, signals := [] }
  [⟨worker, .ret 0, now, wait, .ret 0⟩, ⟨worker, .ret 0, now, wait, .ret 0⟩,
   ⟨worker, .ret 0, now + TIMEOUT, wait, .ret 0⟩, ⟨worker, .ret 0, now + TIMEOUT, wait, .ret 0⟩]

/-- Two clients that connect and send nothing. -/
theorem silent_clients_add_up_two :
    ∃ s, exec (Clocked.next fun i => 5 + i) (Clocked.init fun _ => ⟨0, 0⟩)
        (silent 0 0 ++ silent 1 TIMEOUT) = some s ∧ TIMEOUT * 2 ≤ s.now ∧
      Successive [⟨0, TIMEOUT⟩, ⟨TIMEOUT, TIMEOUT + TIMEOUT⟩] s.now := by
  obtain ⟨s, hs⟩ := Option.isSome_iff_exists.mp
    (by decide : (exec (Clocked.next fun i => 5 + i) (Clocked.init fun _ => ⟨0, 0⟩)
      (silent 0 0 ++ silent 1 TIMEOUT)).isSome = true)
  have hcount : (Clocked.timeouts (fun i => 5 + i) (Clocked.init fun _ => ⟨0, 0⟩)
      (silent 0 0 ++ silent 1 TIMEOUT)).length = 2 := by decide
  have hreceptions : Clocked.receptions (fun i => 5 + i) (Clocked.init fun _ => ⟨0, 0⟩)
      (silent 0 0 ++ silent 1 TIMEOUT) = [⟨0, TIMEOUT⟩, ⟨TIMEOUT, TIMEOUT + TIMEOUT⟩] := by decide
  obtain ⟨-, hsuccessive, hwaits, hsum⟩ :=
    silent_clients_add_up (fun i => 5 + i) (fun i => by omega) _ _ s hs
  rw [hcount] at hwaits
  rw [hreceptions] at hsuccessive
  exact ⟨s, hs, hwaits.trans hsum, hsuccessive⟩

end Aesd.Waiting
