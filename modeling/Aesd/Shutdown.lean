import Aesd.ThreadList

/-!
What `process_kill` takes away. It waits for the threads whose completion flag
it finds set and passes over the others, so it takes the stream and the mutex
from under a worker that is still running. When the walk finds no such worker,
every thread has ended before the stream is closed.
-/

namespace Aesd.Shutdown

open CharDriver EchoWorker WorkerPool ServerMain ThreadList Runs

/-- The calls on what the threads share. -/
def usesShared : Op → Bool
  | .mutexLock | .mutexUnlock => true
  | op => usesStream op

/-- `process_kill` closes the stream and frees the mutex after the end of every
thread, and after that no worker calls anything on them. -/
def KillSafe (s : Server) : Label → Prop
  | .main _ =>
    s.pc = .killStream ∨ s.pc = .killMutex →
      ∀ k, (s.conn k).started = true → (s.pool.worker k).pc = .done
  | .worker k _ =>
    s.pc = .killSocket ∨ s.pc = .killMutex ∨ s.pc = .killed →
      ∀ op, (s.pool.worker k).op = some op → usesShared op = false
  | .signal => True

/-- Where the walk of `process_kill` looks at a started thread, that thread has
set its completion flag or has ended. -/
def findsFinished (s : Server) : Label → Bool
  | .main _ =>
    match s.pc with
    | .killWalk (k :: _) =>
      !(s.conn k).started || (s.conn k).complete || (s.pool.worker k).pc == .done
    | _ => true
  | _ => true

/-- In `process_kill`. -/
def killing : MainPc → Bool
  | .killWalk _ | .killJoin _ _ | .killReclaim _ _ => true
  | .killStream | .killSocket | .killMutex | .killed => true
  | _ => false

/-- Every thread that the walk has behind it has ended. -/
def Waited (s : Server) : Prop :=
  killing s.pc = true → ∀ k, (s.conn k).started = true → k ∉ remaining s.pc →
    (s.pool.worker k).pc = .done

theorem status_of_started {s : Server} (h : Tracked s) {k : ℕ} {e : Event} {b : Bool}
    (hin : k ∈ s.head) (hstarted : (s.conn k).started = true) (hstatus : s.status k e = some b) :
    (s.conn k).complete = b := by
  have hlive : (s.conn k).threadData.live = true := by
    rw [(h.owned k hin hstarted).threadData]
    rfl
  unfold Server.status at hstatus
  rw [hlive] at hstatus
  cases e <;> simp_all

namespace Waited

variable {s t : Server}

/-- A step of `process_kill` that leaves the threads and the walk where they are. -/
theorem keep (h : Waited s) (hkilling : killing s.pc = true) {pc : MainPc}
    (hremaining : ∀ k, k ∈ remaining s.pc → k ∈ remaining pc) : Waited (s.goto pc) := by
  intro _ k hk hout
  exact h hkilling k hk fun hin => hout (hremaining k hin)

theorem moves (h : Waited s) (htracked : Tracked s) {e : Event} (hmove : s.Moves e t)
    (hfinds : findsFinished s (.main e) = true) : Waited t := by
  have hupcoming := htracked.upcoming
  cases hmove with
  | kill => exact fun _ k hk hout => htracked.ended k hk hout
  | @walkComplete e k rest hpc =>
    exact h.keep (by simp [hpc, killing]) (by simp [hpc, remaining])
  | @walkRunning e k rest hpc hstatus =>
    intro _ j hj hout
    by_cases hjk : j = k
    · subst hjk
      have hin : j ∈ s.head := by
        rw [hpc] at hupcoming
        exact hupcoming.subset List.mem_cons_self
      have hflag := status_of_started htracked hin hj hstatus
      simpa [findsFinished, hpc, hflag, show (s.conn j).started = true from hj] using hfinds
    · refine h (by simp [hpc, killing]) j hj ?_
      simpa [hpc, remaining, hjk] using hout
  | @killJoin k rest hpc hjoin =>
    intro _ j hj hout
    refine h (by simp [hpc, killing]) j ?_ (by simpa [hpc, remaining] using hout)
    by_cases hjk : j = k <;> simp_all
  | @killReclaim k rest hpc =>
    intro _ j hj hout
    have hstarted : (s.conn j).started = true := by
      by_cases hjk : j = k <;> simp_all
    by_cases hjk : j = k
    · exact htracked.joined j rest (by rw [hpc, hjk]) hstarted
    · refine h (by simp [hpc, killing]) j hstarted ?_
      simpa [hpc, remaining, hjk] using hout
  | walked hpc | killSocket hpc =>
    exact h.keep (by simp [hpc, killing]) (by simp [hpc, remaining])
  | killStream hpc =>
    intro _ j hj _
    simpa using h (by simp [hpc, killing]) j (by simpa using hj) (by simp [hpc, remaining])
  | killMutex hpc =>
    exact fun _ j hj _ => h (by simp [hpc, killing]) j hj (by simp [hpc, remaining])
  | _ => exact fun hkilling => by simp [killing] at hkilling

theorem next (h : Waited s) (htracked : Tracked s) {l : Label} (hnext : s.next l = some t)
    (hfinds : findsFinished s l = true) : Waited t := by
  rcases Server.next_cases hnext with ⟨e, rfl, hmove⟩ | ⟨k, a, pool, rfl, _, _, hpool, rfl⟩ |
    ⟨rfl, _, rfl⟩
  · exact h.moves htracked hmove hfinds
  · intro hkilling j hj hout
    obtain ⟨status, hc⟩ := s.noteComplete_conn k j
    exact done_of_next hpool (h (by simpa using hkilling) j (by simpa [hc] using hj)
      (by simpa using hout))
  · exact h

/-- Behind the walk there is no running thread, so nobody calls anything. -/
theorem killSafe (h : Waited s) {l : Label} (hnext : s.next l = some t) : KillSafe s l := by
  rcases Server.next_cases hnext with ⟨e, rfl, _⟩ | ⟨k, a, pool, rfl, hstarted, _⟩ | ⟨rfl, _⟩
  · rintro (hpc | hpc) k hk
    · exact h (by simp [hpc, killing]) k hk (by simp [hpc, remaining])
    · exact h (by simp [hpc, killing]) k hk (by simp [hpc, remaining])
  · intro hpc op hop
    have hdone : (s.pool.worker k).pc = .done := by
      rcases hpc with hpc | hpc | hpc <;>
        exact h (by simp [hpc, killing]) k hstarted (by simp [hpc, remaining])
    simp [Worker.op, hdone] at hop
  · trivial

end Waited

/-- In every run, with any number of connections and any order of the threads
and the signals: if the walk of `process_kill` passes over no running thread,
the shutdown takes nothing from under a worker. -/
theorem shutdown_waits (pair : ℕ → AesdSeekto) (ls : List Label)
    (h : Steps Server.next (fun s l => findsFinished s l = true) (Server.init pair) ls) :
    Steps Server.next KillSafe (Server.init pair) ls :=
  @Steps.imp _ _ _ _ _ (fun s => Tracked s ∧ Waited s)
    (fun _ _ _ hs hfinds hnext =>
      ⟨⟨hs.1.next hnext, hs.2.next hs.1 hnext hfinds⟩, hs.2.killSafe hnext⟩)
    _ _ ⟨tracked_init pair, fun hkilling => by simp [Server.init, killing] at hkilling⟩ h

/-- Two connections at a time; both peers close and both workers end around a signal. -/
def twoConnections : List Label :=
  [.main .accepted, .main .ok, .main .ok, .main .ok, .main .ok, .main .ok, .worker 0 (.ret 0),
    .main .ok, .main .accepted, .worker 0 (.ret 0), .main .ok, .main .ok,
    .worker 0 (.recv [97, 10] []), .worker 0 (.ret 2), .main .ok, .main .ok, .main .ok,
    .worker 1 (.ret 0), .worker 0 (.ret 0), .worker 0 (.ret 2), .worker 0 (.ret 0), .main .ok,
    .worker 0 (.bytes [97, 10]), .worker 0 (.ret 0), .worker 0 (.ret 2), .worker 0 (.ret 0),
    -- the turn of the second worker comes between two turns of the first
    .worker 1 (.ret 0), .worker 1 (.ret 0), .worker 1 (.ret 0), .worker 0 (.ret 0),
    .worker 1 (.ret 0), .signal, .worker 0 (.ret 0), .worker 1 (.ret 0), .worker 0 (.ret 0),
    .worker 0 (.ret 0), .main .timeout, .worker 0 (.ret 0), .main .ok, .main .ok, .main .ok,
    .main .ok, .main .ok, .main .ok, .main .ok, .main .ok, .main .ok, .main .ok, .main .ok,
    .main .ok]

theorem shutdown_after_two :
    (∃ s, exec Server.next (Server.init fun _ => ⟨0, 0⟩) twoConnections = some s ∧
      s.pc = .exited) ∧
      Steps Server.next KillSafe (Server.init fun _ => ⟨0, 0⟩) twoConnections :=
  ⟨⟨_, rfl, rfl⟩, shutdown_waits _ _ (by decide)⟩

/-- The signal comes while the worker holds the mutex and waits for bytes. -/
theorem stream_closed_under_worker :
    ¬ ∀ (pair : ℕ → AesdSeekto) (ls : List Label),
      Steps Server.next KillSafe (Server.init pair) ls := by
  intro h
  have hrun := h (fun _ => ⟨0, 0⟩)
    ([.main .accepted, .main .ok, .main .ok, .main .ok, .main .ok, .main .ok, .main .ok,
      .worker 0 (.ret 0), .worker 0 (.ret 0), .signal, .main .timeout, .main .ok, .main .ok,
      .main .ok] ++ [.main .ok])
  have hlast : KillSafe _ (.main .ok) := hrun.step rfl rfl
  exact absurd (hlast (Or.inl rfl) 0 rfl) (by decide)

end Aesd.Shutdown
