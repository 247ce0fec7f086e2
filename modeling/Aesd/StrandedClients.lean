import Aesd.JoinedOnce
import Aesd.ServerFreeze

/-!
What becomes of the clients of a server whose mutex is lost. A worker that
leaves its loop body with the mutex held stops all others at their next
`pthread_mutex_lock`. The main thread does not notice: it goes on accepting
connections and starting threads, finds none of their completion flags set, and
so neither joins them nor closes their sockets, not even in `process_kill`.
-/

namespace Aesd.StrandedClients

open CharDriver EchoWorker WorkerPool TurnSnapshot ServerMain ThreadList Shutdown Reclaim JoinedOnce
open Runs

/-- Before its first turn or between two. -/
def waiting : Pc → Bool
  | .start | .lock => true
  | _ => false

/-- A client whose thread waits for its turn, with all that was obtained for it. -/
structure Stranded (s : Server) (k : ℕ) : Prop where
  waits : waiting (s.pool.worker k).pc = true
  listed : k ∈ s.head
  held : Held (s.conn k)
  unflagged : (s.conn k).complete = false
  unjoined : (s.conn k).joins = 0

/-- Flags, joins and threads, whatever fails. -/
structure Flagged (s : Server) : Prop where
  unstarted : ∀ k, (s.conn k).started = false →
    (s.pool.worker k).pc = .start ∧ (s.conn k).complete = false
  flag : ∀ k, (s.conn k).complete = true → completed (s.pool.worker k) = true
  fresh : ∀ k, settingUp s.pc = some k → (s.conn k).joins = 0
  joined : ∀ k, (s.conn k).started = true → 0 < (s.conn k).joins → (s.pool.worker k).pc = .done

theorem flagged_init (pair : ℕ → AesdSeekto) : Flagged (Server.init pair) where
  unstarted k _ := ⟨rfl, rfl⟩
  flag k hk := by simp [Server.init] at hk
  fresh k hk := by simp [Server.init, settingUp] at hk
  joined k hk := by simp [Server.init] at hk

namespace Flagged

variable {s t : Server}

/-- A step that starts no thread, sets no flag and joins only what has ended. -/
theorem keep (h : Flagged s) (hpool : t.pool = s.pool)
    (hstarted : ∀ k, (t.conn k).started = (s.conn k).started)
    (hcomplete : ∀ k, (t.conn k).complete = true → (s.conn k).complete = true)
    (hjoins : ∀ k, 0 < (t.conn k).joins → 0 < (s.conn k).joins ∨ s.Joinable k)
    (hfresh : ∀ k, settingUp t.pc = some k → (t.conn k).joins = 0) : Flagged t where
  unstarted k hk := by
    rw [hstarted] at hk
    obtain ⟨hstart, hunset⟩ := h.unstarted k hk
    refine ⟨by rw [hpool]; exact hstart, ?_⟩
    by_contra hset
    rw [hcomplete k (by simpa using hset)] at hunset
    cases hunset
  flag k hk := by
    rw [hpool]
    exact h.flag k (hcomplete k hk)
  fresh := hfresh
  joined k hk hj := by
    rw [hstarted] at hk
    rw [hpool]
    exact (hjoins k hj).elim (h.joined k hk) fun hjoin => hjoin hk

/-- A step that leaves the connections as they are. -/
theorem same (h : Flagged s) (hpool : t.pool = s.pool) (hconn : t.conn = s.conn)
    (hfresh : ∀ k, settingUp t.pc = some k → settingUp s.pc = some k) : Flagged t :=
  h.keep hpool (fun k => by rw [hconn]) (fun k hk => by rwa [hconn] at hk)
    (fun k hk => by rw [hconn] at hk; exact Or.inl hk)
    fun k hk => by rw [hconn]; exact h.fresh k (hfresh k hk)

/-- A step that changes one connection. -/
theorem setConn (h : Flagged s) {k : ℕ} {c : Conn} {pc : MainPc}
    (hstarted : c.started = (s.conn k).started)
    (hcomplete : c.complete = true → (s.conn k).complete = true)
    (hjoins : 0 < c.joins → 0 < (s.conn k).joins ∨ s.Joinable k)
    (hfresh : ∀ j, settingUp pc = some j → j = k ∧ c.joins = 0) :
    Flagged ((s.setConn k c).goto pc) := by
  refine h.keep rfl (fun j => ?_) (fun j hj => ?_) (fun j hj => ?_) (fun j hj => ?_)
  · by_cases hjk : j = k <;> simp [hjk, hstarted]
  · by_cases hjk : j = k
    · subst hjk
      exact hcomplete (by simpa using hj)
    · simpa [hjk] using hj
  · by_cases hjk : j = k
    · subst hjk
      exact hjoins (by simpa using hj)
    · exact Or.inl (by simpa [hjk] using hj)
  · obtain ⟨rfl, hnone⟩ := hfresh j hj
    simpa using hnone

theorem moves (h : Flagged s) (htracked : Tracked s) {e : Event} (hmove : s.Moves e t) :
    Flagged t := by
  cases hmove with
  | accepted hpc =>
    have hnew := htracked.fresh.2
    refine h.keep rfl (fun j => ?_) (fun j hj => ?_) (fun j hj => ?_) (fun j hj => ?_)
    · by_cases hj : j = s.accepted <;> simp [hj, hnew]
    · by_cases hja : j = s.accepted
      · simp [hja] at hj
      · simpa [hja] using hj
    · by_cases hja : j = s.accepted
      · simp [hja] at hj
      · exact Or.inl (by simpa [hja] using hj)
    · have hja : s.accepted = j := by simpa [settingUp] using hj
      simp [hja]
  | @createThread k hpc =>
    have hunjoined := h.fresh k (by rw [hpc]; rfl)
    have hunset := (h.unstarted k (htracked.atCreateThread hpc).2.2.1).2
    exact {
      unstarted := fun j hj => by
        have hjk : j ≠ k := by
          rintro rfl
          simp at hj
        simpa [hjk] using h.unstarted j (by simpa [hjk] using hj)
      flag := fun j hj => by
        by_cases hjk : j = k
        · simp [hjk, hunset] at hj
        · exact h.flag j (by simpa [hjk] using hj)
      fresh := fun j hj => by simp [settingUp] at hj
      joined := fun j hj hjoins => by
        by_cases hjk : j = k
        · simp [hjk, hunjoined] at hjoins
        · exact h.joined j (by simpa [hjk] using hj) (by simpa [hjk] using hjoins) }
  | @dataInit k hpc =>
    refine h.setConn rfl id Or.inl fun j hj => ⟨?_, h.fresh k (by rw [hpc]; rfl)⟩
    simpa [settingUp] using hj.symm
  | @idInit k hpc =>
    refine h.setConn rfl (by simp) Or.inl fun j hj => ⟨?_, h.fresh k (by rw [hpc]; rfl)⟩
    simpa [settingUp] using hj.symm
  | @addThread k hpc =>
    have hnode :
        Flagged ((s.setConn k { s.conn k with node := .held }).goto (.createThread k)) := by
      refine h.setConn rfl id Or.inl fun j hj => ⟨?_, h.fresh k (by rw [hpc]; rfl)⟩
      simpa [settingUp] using hj.symm
    exact hnode.same rfl rfl fun j hj => hj
  | idInitFails | createThreadFails => exact h.setConn rfl id Or.inl (by simp [settingUp])
  | @sweepJoin k rest hpc hjoin =>
    exact h.setConn rfl (by simp) (fun _ => Or.inr hjoin) (by simp [settingUp])
  | @killJoin k rest hpc hjoin =>
    exact h.setConn rfl id (fun _ => Or.inr hjoin) (by simp [settingUp])
  | @killReclaim k rest hpc =>
    have hfreed : Flagged ((s.setConn k { s.conn k with
        socket := (s.conn k).socket.free, ptid := (s.conn k).ptid.free
        threadData := (s.conn k).threadData.free
        node := (s.conn k).node.free }).goto (.killWalk rest)) :=
      h.setConn rfl id Or.inl (by simp [settingUp])
    exact hfreed.same rfl rfl fun j hj => hj
  | idle | killStream => exact h.same (by simp) (by simp) (by simp [settingUp])
  | opened hpc | alreadyOpen hpc | dataInitFails hpc | addThreadFails hpc =>
    exact h.same rfl rfl (by simp [hpc, settingUp])
  | _ => exact h.same rfl rfl (by simp [settingUp])

theorem worker (h : Flagged s) {k : ℕ} {a : Answer} {pool : Pool}
    (hk : (s.conn k).started = true) (hpool : s.pool.next (k, a) = some pool) :
    Flagged { s.noteComplete k with pool } := by
  obtain ⟨hmove, hother⟩ := Pool.next_worker hpool
  have hconn := s.noteComplete_conn
  exact {
    unstarted := fun j hj => by
      obtain ⟨status, hc⟩ := hconn k j
      have hjk : j ≠ k := by
        rintro rfl
        simp [hc, hk] at hj
      rw [hother j hjk]
      simpa [Server.noteComplete_conn_of_ne s hjk] using h.unstarted j (by simpa [hc] using hj)
    flag := fun j hj => by
      by_cases hjk : j = k
      · subst hjk
        exact completed_of_noteComplete (h.flag j) hmove hj
      · rw [hother j hjk]
        exact h.flag j (by simpa [Server.noteComplete_conn_of_ne s hjk] using hj)
    fresh := fun j hj => by
      obtain ⟨status, hc⟩ := hconn k j
      simpa [hc] using h.fresh j (by simpa using hj)
    joined := fun j hj hjoins => by
      obtain ⟨status, hc⟩ := hconn k j
      exact done_of_next hpool (h.joined j (by simpa [hc] using hj) (by simpa [hc] using hjoins)) }

theorem next (h : Flagged s) (htracked : Tracked s) {l : Label} (hnext : s.next l = some t) :
    Flagged t := by
  rcases Server.next_cases hnext with ⟨e, rfl, hmove⟩ | ⟨k, a, pool, rfl, hk, _, hpool, rfl⟩ |
    ⟨rfl, _, rfl⟩
  · exact h.moves htracked hmove
  · exact h.worker hk hpool
  · exact h.same rfl rfl fun _ hk => hk

end Flagged

/-- What is known of every reachable server. -/
structure Known (s : Server) : Prop where
  tracked : Tracked s
  flagged : Flagged s
  exclusive : Exclusive s.pool

theorem known_init (pair : ℕ → AesdSeekto) : Known (Server.init pair) where
  tracked := tracked_init pair
  flagged := flagged_init pair
  exclusive := exclusive_init pair

theorem pool_next {s t : Server} {l : Label} (hnext : s.next l = some t) :
    t.pool = s.pool ∨ ∃ k a, s.pool.next (k, a) = some t.pool := by
  rcases Server.next_cases hnext with ⟨e, rfl, hmove⟩ | ⟨k, a, pool, rfl, _, _, hpool, rfl⟩ |
    ⟨rfl, _, rfl⟩
  · exact Or.inl hmove.pool
  · exact Or.inr ⟨k, a, hpool⟩
  · exact Or.inl rfl

theorem Known.next {s t : Server} {l : Label} (h : Known s) (hnext : s.next l = some t) :
    Known t where
  tracked := h.tracked.next hnext
  flagged := h.flagged.next h.tracked hnext
  exclusive := by
    rcases pool_next hnext with hsame | ⟨k, a, hpool⟩
    · rw [hsame]
      exact h.exclusive
    · exact h.exclusive.next hpool

/-- A started thread that waits was never flagged or joined. -/
theorem Known.stranded {s : Server} (h : Known s) {k : ℕ} (hk : (s.conn k).started = true)
    (hwaits : waiting (s.pool.worker k).pc = true) : Stranded s k := by
  have hnot : (s.pool.worker k).pc ≠ .done := by
    intro hdone
    rw [hdone] at hwaits
    cases hwaits
  have hlisted : k ∈ s.head := by
    by_contra hout
    exact hnot (h.tracked.ended k hk hout)
  refine ⟨hwaits, hlisted, h.tracked.owned k hlisted hk, ?_, ?_⟩
  · by_contra hset
    have hcompleted := h.flagged.flag k (by simpa using hset)
    unfold completed at hcompleted
    cases hpc : (s.pool.worker k).pc <;> simp_all [waiting, atEnd]
  · by_contra hjoined
    exact hnot (h.flagged.joined k hk (Nat.pos_of_ne_zero hjoined))

/-- Without the mutex nobody gets past the lock. -/
theorem waiting_next {p p' : Pool} {i k : ℕ} {a : Answer} (hheld : p.holder ≠ none)
    (hwaits : waiting (p.worker k).pc = true) (hnext : p.next (i, a) = some p') :
    waiting (p'.worker k).pc = true := by
  obtain ⟨hmove, hother⟩ := Pool.next_worker hnext
  by_cases hk : k = i
  · subst hk
    have hnolock : (p.worker k).pc ≠ .lock := by
      intro hlock
      obtain ⟨w, _, ⟨_, hfree, _⟩ | ⟨hunlock, _⟩ | ⟨hop, _⟩⟩ := Pool.next_cases hnext
      · exact hheld hfree
      · simp [Worker.op, hlock] at hunlock
      · exact hop (Worker.op_eq_mutexLock.mpr hlock)
    have hlater := hmove.pc_mem
    cases hpc : (p.worker k).pc <;> simp_all [waiting, Pc.successors]
  · rw [hother k hk]
    exact hwaits

/-- In a dead pool who is not past the loop waits. -/
theorem waiting_of_dead {p : Pool} (hdead : Dead p) (hex : Exclusive p) {k : ℕ}
    (hleft : (p.worker k).pc.left = false) : waiting (p.worker k).pc = true := by
  obtain ⟨i, hheld, hout⟩ := hdead
  have houtside : (p.worker k).pc.inside = false := by
    by_contra hin
    have hk := hex k (by simpa using hin)
    rw [hheld] at hk
    rw [Option.some.inj hk] at hout
    exact hin hout
  cases hpc : (p.worker k).pc <;> simp_all [waiting, Pc.left, Pc.inside]

/-- A server without its mutex stays without, and who waits in it keeps waiting. -/
theorem dead_run {s t : Server} {ms : List Label} (h : Known s) (hdead : Dead s.pool)
    (hrun : exec Server.next s ms = some t) :
    Known t ∧ ∀ k, waiting (s.pool.worker k).pc = true → waiting (t.pool.worker k).pc = true := by
  induction ms generalizing s with
  | nil =>
    cases hrun
    exact ⟨h, fun _ hk => hk⟩
  | cons l ms ih =>
    obtain ⟨u, hl, hms⟩ := exec_cons_eq_some.mp hrun
    have hstep : Dead u.pool ∧
        ∀ k, waiting (s.pool.worker k).pc = true → waiting (u.pool.worker k).pc = true := by
      rcases pool_next hl with hsame | ⟨i, a, hpool⟩
      · rw [hsame]
        exact ⟨hdead, fun _ hk => hk⟩
      · have hheld : s.pool.holder ≠ none := by
          obtain ⟨j, hj, _⟩ := hdead
          simp [hj]
        exact ⟨hdead.next h.exclusive hpool, fun k hk => waiting_next hheld hk hpool⟩
    obtain ⟨hknown, hwaiting⟩ := ih (h.next hl) hstep.1 hms
    exact ⟨hknown, fun k hk => hwaiting k (hstep.2 k hk)⟩

/-- Every run: when a worker leaves its loop body with the mutex, every client
whose thread is not past its loop then, and every client for whom a thread is
started later, is stranded, whatever happens from there on: its thread waits for
its turn, its socket is open, and neither a sweep nor `process_kill` joins the
thread or gives anything back. -/
theorem stranded_for_good (pair : ℕ → AesdSeekto) (ls : List Label) (s u : Server) (i : ℕ)
    (a : Answer) (hrun : exec Server.next (Server.init pair) ls = some s)
    (hnext : s.next (.worker i a) = some u) (hleaves : ¬ StaysInBody (s.pool.worker i) a)
    (ms : List Label) (t : Server) (hlater : exec Server.next u ms = some t) :
    ∀ k, (u.pool.worker k).pc.left = false → (t.conn k).started = true → Stranded t k := by
  intro k hleft hk
  have hs : Known s := exec_invariant (known_init pair) (fun _ _ _ h hn => h.next hn) hrun
  have hu := hs.next hnext
  have hdead : Dead u.pool := by
    rcases Server.next_cases hnext with ⟨e, heq, _⟩ | ⟨j, b, pool, heq, _, _, hpool, rfl⟩ |
      ⟨heq, _⟩
    · cases heq
    · cases heq
      exact ServerFreeze.dead_of_not_stays hs.exclusive hpool hleaves
    · cases heq
  obtain ⟨ht, hwaiting⟩ := dead_run hu hdead hlater
  exact ht.stranded hk (hwaiting k (waiting_of_dead hdead hu.exclusive hleft))

/-- A client that sends a line without an end, and one that comes after it. -/
def unterminated : List Label :=
  [.main .accepted, .main .ok, .main .ok, .main .ok, .main .ok, .main .ok, .main .ok,
    .worker 0 (.ret 0), .worker 0 (.ret 0)]

def afterwards : List Label :=
  [.main .accepted, .main .ok, .main .ok, .main .ok, .main .ok, .main .ok, .main .ok,
    .worker 1 (.ret 0), .signal, .main .timeout, .main .ok, .main .ok, .main .ok, .main .ok,
    .main .ok, .main .ok, .main .ok, .main .ok]

theorem stranded_for_good_second :
    ∃ t, exec Server.next (Server.init fun _ => ⟨0, 0⟩)
        (unterminated ++ .worker 0 (.recv [97, 98, 99] []) :: afterwards) = some t ∧
      t.pc = .exited ∧ Stranded t 0 ∧ Stranded t 1 := by
  have hall := stranded_for_good (fun _ => ⟨0, 0⟩) unterminated _ _ 0 (.recv [97, 98, 99] []) rfl
    rfl (fun h : newline ∈ [97, 98, 99] => absurd h (by decide)) afterwards _ rfl
  exact ⟨_, rfl, rfl, hall 0 (by decide) rfl, hall 1 (by decide) rfl⟩

end Aesd.StrandedClients
