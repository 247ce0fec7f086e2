import Aesd.DriverThreads
import Aesd.SharedDevice
import Aesd.TurnSnapshot

/-!
The whole server after one thing went wrong. A worker that leaves its loop body
with the mutex of the workers, or a seek or an ioctl that returns with the mutex
of the device, leaves nobody who could give it back. Such a step freezes the
server: from then on no worker takes or releases a mutex, receives or sends, and
no call of the driver succeeds. A run without such a step never freezes. The
outside may do what it likes here: a `recv` may fill the buffer, and an `lseek`
may fail.
-/

namespace Aesd.ServerFreeze

open CharDriver EchoWorker WorkerPool SharedDevice TurnSnapshot LockReturn DriverThreads Runs

/-- The step stays in the loop body, or leaves it through an unlock; and the
driver gives its mutex back. -/
def GoesWell (s : System) (l : Step) : Prop :=
  StaysInBody (s.pool.worker l.worker) l.answer ∧
    ∀ c, driverCall l.op l.env = some c → ReleasesLock s.kernel c

/-- A mutex is held and its holder is past the unlock, or is in the driver
waiting for itself. -/
def Frozen (s : System) : Prop := Dead s.pool ∨ s.kernel.dev.lock = true

/-- What is left to do in a frozen server: start, end, and fail in the driver. -/
def Idle (l : Step) : Prop :=
  (∃ status, l.op = .setComplete status) ∨ l.op = .exit ∨
    onDevice l.op = true ∧ l.answer = .ret (-1)

/-- Between steps that went well both mutexes are with those who will give them
back. -/
structure Running (s : System) : Prop where
  balanced : Balanced s.pool
  free : s.kernel.dev.lock = false

theorem Running.not_frozen {s : System} (h : Running s) : ¬ Frozen s := by
  rintro (⟨i, hi, hout⟩ | hlost)
  · rw [(h.balanced i).mpr hi] at hout
    cases hout
  · rw [h.free] at hlost
    cases hlost

theorem running_init (pair : ℕ → AesdSeekto) : Running (System.init pair) where
  balanced := balanced_init pair
  free := rfl

theorem Running.next {s t : System} {l : Step} (h : Running s) (hnext : s.step l = some t)
    (hwell : GoesWell s l) : Running t := by
  obtain ⟨_, hpool, _, hkernel⟩ := System.step_cases hnext
  refine ⟨h.balanced.next hpool hwell.1, ?_⟩
  rcases hkernel with ⟨_, hsame⟩ | ⟨c, hcall, _, hkernel⟩
  · rw [hsame]
    exact h.free
  · rw [hkernel]
    exact (lock_perform_iff h.free c).mpr (hwell.2 c hcall)

/-- A worker that does not stay in its loop body holds the mutex and is outside afterwards. -/
theorem dead_of_not_stays {p p' : Pool} {l : ℕ × Answer} (h : Exclusive p)
    (hnext : p.next l = some p') (hstay : ¬ StaysInBody (p.worker l.1) l.2) : Dead p' := by
  obtain ⟨i, a⟩ := l
  have hin : (p.worker i).pc.inside = true := by
    by_contra hout
    exact hstay (staysInBody_of_outside (by simpa using hout) a)
  obtain ⟨w, hmove, ⟨hop, _, _⟩ | ⟨hop, _⟩ | ⟨_, hunlock, rfl⟩⟩ := Pool.next_cases hnext
  · rw [outside_at_lock hop] at hin
    cases hin
  · exact absurd (staysInBody_of_unlock hop a) hstay
  · refine dead_of_outside (h i hin) ?_
    by_contra hstill
    exact hstay ((inside_iff hmove hin hunlock).mp (by simpa using hstill))

/-- The first step that does not go well freezes the server. -/
theorem Running.freezes {s t : System} {l : Step} (h : Running s) (hnext : s.step l = some t)
    (hwell : ¬ GoesWell s l) : Frozen t := by
  obtain ⟨_, hpool, _, hkernel⟩ := System.step_cases hnext
  by_cases hstay : StaysInBody (s.pool.worker l.worker) l.answer
  · right
    obtain ⟨c, hcall, hloses⟩ : ∃ c, driverCall l.op l.env = some c ∧
        ¬ ReleasesLock s.kernel c := by
      by_contra hnone
      exact hwell ⟨hstay, fun c hc => by
        by_contra hloses
        exact hnone ⟨c, hc, hloses⟩⟩
    rcases hkernel with ⟨hnone, _⟩ | ⟨d, hd, _, hkernel⟩
    · rw [hcall] at hnone
      cases hnone
    · rw [hcall] at hd
      cases hd
      rw [hkernel]
      by_contra hfree
      exact hloses ((lock_perform_iff h.free c).mp (by simpa using hfree))
  · exact Or.inl (dead_of_not_stays (fun i => (h.balanced i).mp) hpool hstay)

/-- Nobody unfreezes the server. -/
theorem Frozen.next {s t : System} {l : Step} (h : Frozen s) (hex : Exclusive s.pool)
    (hnext : s.step l = some t) : Frozen t := by
  obtain ⟨_, hpool, _, hkernel⟩ := System.step_cases hnext
  rcases h with hdead | hlost
  · exact Or.inl (hdead.next hex hpool)
  · right
    rcases hkernel with ⟨_, hsame⟩ | ⟨c, _, _, hkernel⟩
    · rw [hsame]
      exact hlost
    · rw [hkernel, perform_of_locked hlost]
      exact hlost

theorem answer_of_fails {op : Op} {reply : Reply} {err : ℤ} {a : Answer} (hneg : err < 0)
    (hret : reply.ret = some err) (hans : answerOf op reply = some a) : a = .ret (-1) := by
  unfold answerOf at hans
  rw [hret] at hans
  cases op <;> simp only [hneg, if_true, Option.some.injEq] at hans <;> exact hans.symm

/-- On a device mutex that is gone no call comes back well. -/
theorem answer_of_lost {k : Kernel} (hlost : k.dev.lock = true) {c : Call} {op : Op} {a : Answer}
    (hans : answerOf op (perform k c).1 = some a) : a = .ret (-1) := by
  rcases perform_cases_of_locked hlost c with heq | ⟨err, hneg, heq⟩
  · rw [heq] at hans
    cases hans
  · rw [heq] at hans
    exact answer_of_fails hneg rfl hans

/-- A worker outside its loop body, while another one has the mutex, only starts or ends. -/
theorem idle_of_outside {s t : System} {l : Step} (hnext : s.step l = some t)
    (hheld : s.pool.holder ≠ none) (hout : (s.pool.worker l.worker).pc.inside = false) :
    Idle l := by
  obtain ⟨hop, hpool, _⟩ := System.step_cases hnext
  obtain ⟨w, _, ⟨_, hfree, _⟩ | ⟨hunlock, _⟩ | ⟨hlock, _, _⟩⟩ := Pool.next_cases hpool
  · exact absurd hfree hheld
  · rw [inside_of_unlock hunlock] at hout
    cases hout
  · cases hpc : (s.pool.worker l.worker).pc <;>
      simp only [hpc, Pc.inside, Bool.true_eq_false] at hout
    all_goals simp only [Worker.op, hpc, Option.some.injEq, reduceCtorEq] at hop
    · exact Or.inl ⟨_, hop.symm⟩
    · exact absurd (Worker.op_eq_mutexLock.mpr hpc) hlock
    · exact Or.inl ⟨_, hop.symm⟩
    · exact Or.inr (Or.inl hop.symm)

/-- Where a worker is that has found the device mutex gone: all its calls are
calls of the driver, until one ends the loop. -/
def atDevice : Pc → Bool
  | .sizeSet _ | .ioctl | .read => true
  | _ => false

theorem atDevice_startRead (w : Worker) :
    atDevice w.startRead.pc = true ∨ w.startRead.pc.inside = false := by
  rcases w.startRead_cases with heq | heq
  · exact Or.inr (by rw [heq]; rfl)
  · exact Or.inl (by rw [heq]; rfl)

/-- A seek, an ioctl or a read that fails is followed by another call of the
driver, or by the end of the loop. -/
theorem atDevice_of_fails {w w' : Worker} (h : w.Moves (.ret (-1)) w')
    (hpc : atDevice w.pc = true ∨ ∃ command, w.pc = .sizeEnd command) :
    atDevice w'.pc = true ∨ w'.pc.inside = false := by
  cases h with
  | sizeEnd => exact Or.inl rfl
  | @sizeSet command =>
    cases command with
    | false => exact atDevice_startRead { w with size := int32 (w.fileEnd - int32 (-1)) }
    | true => exact Or.inl rfl
  | ioctl => exact atDevice_startRead w
  | readError => exact Or.inr rfl
  | close hat | write hat | flush hat | send hat => simp [hat, atDevice] at hpc

/-- The holder is where no call can come back well. -/
def Stuck (s : System) : Prop :=
  ∃ i, s.pool.holder = some i ∧ atDevice (s.pool.worker i).pc = true

/-- A device mutex that is gone was lost by the holder, who is now stuck, unless
the holder is past its unlock. -/
def LostByHolder (s : System) : Prop := s.kernel.dev.lock = true → Dead s.pool ∨ Stuck s

theorem inside_of_atDevice {pc : Pc} (h : atDevice pc = true) : pc.inside = true := by
  cases pc <;> first | rfl | cases h

/-- The holder goes on to a call of the driver, or leaves the loop body. -/
theorem dead_or_stuck {s t : System} {l : Step} (hex : Exclusive s.pool)
    (hnext : s.step l = some t) (hin : (s.pool.worker l.worker).pc.inside = true)
    (hlock : (s.pool.worker l.worker).op ≠ some .mutexUnlock)
    (hpc : atDevice (t.pool.worker l.worker).pc = true ∨
      (t.pool.worker l.worker).pc.inside = false) : Dead t.pool ∨ Stuck t := by
  have hheld := hex l.worker hin
  obtain ⟨_, hpool, _⟩ := System.step_cases hnext
  obtain ⟨w, _, ⟨hop, _, _⟩ | ⟨hop, _⟩ | ⟨_, _, htpool⟩⟩ := Pool.next_cases hpool
  · rw [outside_at_lock hop] at hin
    cases hin
  · exact absurd hop hlock
  · have hstill : t.pool.holder = some l.worker := by
      rw [htpool]
      exact hheld
    rcases hpc with hat | hout
    · exact Or.inr ⟨l.worker, hstill, hat⟩
    · exact Or.inl ⟨l.worker, hstill, hout⟩

/-- While the holder is stuck, a step is idle, and the holder can only fail. -/
theorem Stuck.next {s t : System} {l : Step} (h : Stuck s) (hex : Exclusive s.pool)
    (hlost : s.kernel.dev.lock = true) (hnext : s.step l = some t) :
    Idle l ∧ (Dead t.pool ∨ Stuck t) := by
  obtain ⟨i, hheld, hpc⟩ := h
  obtain ⟨hop, hpool, _, hkernel⟩ := System.step_cases hnext
  by_cases hi : l.worker = i
  · subst hi
    have hcalls : onDevice l.op = true ∧ (s.pool.worker l.worker).op ≠ some .mutexUnlock := by
      cases hat : (s.pool.worker l.worker).pc <;>
        simp only [hat, atDevice, Bool.false_eq_true] at hpc
      all_goals
        simp only [Worker.op, hat, Option.some.injEq] at hop
        exact ⟨hop ▸ rfl, by simp [Worker.op, hat]⟩
    have hfails : l.answer = .ret (-1) := by
      rcases hkernel with ⟨hnone, _⟩ | ⟨c, _, hans, _⟩
      · have hcall := hcalls.1
        unfold onDevice at hcall
        cases hlop : l.op <;> simp [driverCall, hlop] at hcall hnone
      · exact answer_of_lost hlost hans
    refine ⟨Or.inr (Or.inr ⟨hcalls.1, hfails⟩), ?_⟩
    have hmove := (Pool.next_worker hpool).1
    rw [hfails] at hmove
    exact dead_or_stuck hex hnext (inside_of_atDevice hpc) hcalls.2
      (atDevice_of_fails hmove (Or.inl hpc))
  · have hout : (s.pool.worker l.worker).pc.inside = false := by
      by_contra hin
      have hl := hex l.worker (by simpa using hin)
      rw [hheld] at hl
      exact hi (Option.some.inj hl).symm
    refine ⟨idle_of_outside hnext (by simp [hheld]) hout, Or.inr ⟨i, ?_, ?_⟩⟩
    · obtain ⟨w, _, ⟨_, hfree, _⟩ | ⟨hunlock, _⟩ | ⟨_, _, htpool⟩⟩ := Pool.next_cases hpool
      · rw [hheld] at hfree
        cases hfree
      · rw [inside_of_unlock hunlock] at hout
        cases hout
      · rw [htpool]
        exact hheld
    · rw [(Pool.next_worker hpool).2 i (Ne.symm hi)]
      exact hpc

/-- A worker loses the device mutex in a seek or an ioctl, and that fails. -/
theorem lost_by_holder {s t : System} {l : Step} (hfree : s.kernel.dev.lock = false)
    (hnext : s.step l = some t) (hlost : t.kernel.dev.lock = true) :
    l.answer = .ret (-1) ∧ (atDevice (s.pool.worker l.worker).pc = true ∨
      ∃ command, (s.pool.worker l.worker).pc = .sizeEnd command) := by
  obtain ⟨hop, _, _, ⟨_, hsame⟩ | ⟨c, hcall, hans, hkernel⟩⟩ := System.step_cases hnext
  · rw [hsame, hfree] at hlost
    cases hlost
  · rw [hkernel] at hlost
    obtain ⟨err, hneg, hret⟩ := failsIfLost_perform hfree c hlost
    refine ⟨answer_of_fails hneg hret hans, ?_⟩
    have hloses : ¬ ReleasesLock s.kernel c := by
      rw [← lock_perform_iff hfree, hlost]
      decide
    cases hat : (s.pool.worker l.worker).pc <;> simp only [Worker.op, hat, Option.some.injEq] at hop
    case write | read =>
      rw [← hop] at hcall
      cases hcall
      exact absurd trivial hloses
    case sizeEnd command => exact Or.inr ⟨command, rfl⟩
    case sizeSet | ioctl => exact Or.inl rfl
    all_goals
      first
      | cases hop
      | rw [← hop] at hcall
        cases hcall

theorem LostByHolder.next {s t : System} {l : Step} (h : LostByHolder s) (hex : Exclusive s.pool)
    (hnext : s.step l = some t) : LostByHolder t := by
  intro hlost
  by_cases hfree : s.kernel.dev.lock = true
  · rcases h hfree with hdead | hstuck
    · exact Or.inl (hdead.next hex (System.step_cases hnext).2.1)
    · exact (hstuck.next hex hfree hnext).2
  · obtain ⟨hfails, hpc⟩ := lost_by_holder (by simpa using hfree) hnext hlost
    have hmove := (Pool.next_worker (System.step_cases hnext).2.1).1
    rw [hfails] at hmove
    have hplace : (s.pool.worker l.worker).pc.inside = true ∧
        (s.pool.worker l.worker).op ≠ some .mutexUnlock := by
      rcases hpc with hat | ⟨command, hat⟩
      · refine ⟨inside_of_atDevice hat, fun hop => ?_⟩
        rcases Worker.op_eq_mutexUnlock.mp hop with hunlock | hunlock <;>
          simp [hunlock, atDevice] at hat
      · exact ⟨by rw [hat]; rfl, by simp [Worker.op, hat]⟩
    exact dead_or_stuck hex hnext hplace.1 hplace.2 (atDevice_of_fails hmove hpc)

/-- What every reachable state satisfies. -/
structure Reached (s : System) : Prop where
  exclusive : Exclusive s.pool
  lost : LostByHolder s

theorem Reached.next {s t : System} {l : Step} (h : Reached s) (hnext : s.step l = some t) :
    Reached t :=
  ⟨h.exclusive.next (System.step_cases hnext).2.1, h.lost.next h.exclusive hnext⟩

theorem reached_init (pair : ℕ → AesdSeekto) : Reached (System.init pair) where
  exclusive := exclusive_init pair
  lost := by
    intro hlost
    cases hlost

/-- In a frozen server every step is idle. -/
theorem Frozen.idle {s t : System} {l : Step} (h : Frozen s) (hs : Reached s)
    (hnext : s.step l = some t) : Idle l := by
  have hcases : Dead s.pool ∨ (s.kernel.dev.lock = true ∧ Stuck s) := by
    rcases h with hdead | hlost
    · exact Or.inl hdead
    · exact (hs.lost hlost).imp id fun hstuck => ⟨hlost, hstuck⟩
  rcases hcases with ⟨i, hheld, hout⟩ | ⟨hlost, hstuck⟩
  · refine idle_of_outside hnext (by simp [hheld]) ?_
    by_contra hin
    have hl := hs.exclusive l.worker (by simpa using hin)
    rw [hheld] at hl
    rw [Option.some.inj hl] at hout
    exact hin hout
  · exact (hstuck.next hs.exclusive hlost hnext).1

/-- A frozen server stays frozen, and its workers idle. -/
theorem Frozen.run {s t : System} {ms : List Step} (h : Frozen s) (hs : Reached s)
    (hrun : exec System.step s ms = some t) : Frozen t ∧ ∀ m ∈ ms, Idle m := by
  induction ms generalizing s with
  | nil =>
    cases hrun
    exact ⟨h, by simp⟩
  | cons m ms ih =>
    obtain ⟨u, hm, hms⟩ := exec_cons_eq_some.mp hrun
    obtain ⟨ht, hidle⟩ := ih (h.next hs.exclusive hm) (hs.next hm) hms
    exact ⟨ht, List.forall_mem_cons.mpr ⟨h.idle hs hm, hidle⟩⟩

/-- A run from a running server ends in one exactly if all its steps go well. -/
theorem Running.run {s t : System} {ls : List Step} (h : Running s) (hs : Reached s)
    (hrun : exec System.step s ls = some t) :
    (Steps System.step GoesWell s ls → Running t) ∧
      (¬ Steps System.step GoesWell s ls → Frozen t) := by
  induction ls generalizing s with
  | nil =>
    cases hrun
    exact ⟨fun _ => h, fun hnot => absurd trivial hnot⟩
  | cons l ls ih =>
    obtain ⟨u, hl, hls⟩ := exec_cons_eq_some.mp hrun
    rw [steps_cons_iff hl]
    by_cases hwell : GoesWell s l
    · obtain ⟨hgood, hbad⟩ := ih (h.next hl hwell) (hs.next hl) hls
      exact ⟨fun hboth => hgood hboth.2, fun hnot => hbad fun hrest => hnot ⟨hwell, hrest⟩⟩
    · refine ⟨fun hboth => absurd hboth.1 hwell, fun _ => ?_⟩
      exact ((h.freezes hl hwell).run (hs.next hl) hls).1

theorem reached_run {pair : ℕ → AesdSeekto} {ls : List Step} {s : System}
    (hrun : exec System.step (System.init pair) ls = some s) : Reached s :=
  exec_invariant (reached_init pair) (fun _ _ _ h hnext => h.next hnext) hrun

/-- Every run from the start, whatever the workers, their peers and the driver
do: the server is frozen exactly if some step so far left the loop body with the
mutex of the workers, or the driver with the mutex of the device; and a frozen
server stays frozen, with no worker ever receiving, sending, or taking or
releasing a mutex again, and no write, seek or read succeeding. -/
theorem frozen_iff (pair : ℕ → AesdSeekto) (ls : List Step) (s : System)
    (hrun : exec System.step (System.init pair) ls = some s) :
    (Frozen s ↔ ¬ Steps System.step GoesWell (System.init pair) ls) ∧
      (Frozen s → ∀ ms t, exec System.step s ms = some t → Frozen t ∧ ∀ m ∈ ms, Idle m) := by
  have hsteps := (running_init pair).run (reached_init pair) hrun
  refine ⟨⟨fun hfrozen hall => (hsteps.1 hall).not_frozen hfrozen, hsteps.2⟩, ?_⟩
  exact fun hfrozen ms t hms => hfrozen.run (reached_run hrun) hms

/-- One packet, then a seek to command number ten. -/
def badSeek : List Step :=
  onePacket ++
    [{ worker := 0, op := .send [97, 10], answer := .ret 2, pos := 2 },
     { worker := 0, op := .mutexUnlock, answer := .ret 0, pos := 2 },
     { worker := 0, op := .mutexLock, answer := .ret 0, pos := 2 },
     { worker := 0, op := .receive, answer := .recv (COMMAND ++ [58, 49, 48, 44, 48, 10]) [],
       pos := 2 },
     { worker := 0, op := .lseek 0 SEEK_END, answer := .ret 2, pos := 2 },
     { worker := 0, op := .lseek 0 SEEK_SET, answer := .ret 0, pos := 0 },
     { worker := 0, op := .ioctl ⟨10, 0⟩, answer := .ret (-1), pos := 0 }]

theorem frozen_iff_bad_seek :
    ∃ s, exec System.step (System.init fun _ => ⟨0, 0⟩) badSeek = some s ∧
      ¬ Steps System.step GoesWell (System.init fun _ => ⟨0, 0⟩) badSeek ∧
      ∀ ms t, exec System.step s ms = some t → ∀ m ∈ ms, Idle m := by
  obtain ⟨s, hs, hlost⟩ := Option.map_eq_some_iff.mp
    (by decide : (exec System.step (System.init fun _ => ⟨0, 0⟩) badSeek).map
      (fun s => s.kernel.dev.lock) = some true)
  have hiff := frozen_iff _ badSeek s hs
  exact ⟨s, hs, hiff.1.mp (Or.inr hlost), fun ms t hms => (hiff.2 (Or.inr hlost) ms t hms).2⟩

end Aesd.ServerFreeze
