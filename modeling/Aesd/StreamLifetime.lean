import Aesd.ServerMain

/-!
The lifetime of the data stream. `datafd` is opened at the first connection and
keeps its value after the idle branch has closed it, so the server opens one
stream in its whole life, every worker gets that one, and nothing may use it
once an idle timeout, or `process_kill`, has closed it.
-/

namespace Aesd.StreamLifetime

open CharDriver EchoWorker ServerMain Runs

/-- The stream is used as it may be: the idle branch closes an open stream, a
new thread gets an open stream, a worker works on an open stream. -/
def StreamSafe (s : Server) : Label → Prop
  | .main .ok =>
    match s.pc with
    | .idle => ∀ n, s.datafd = some n → s.IsOpen n
    | .idInit _ => ∃ n, s.datafd = some n ∧ s.IsOpen n
    | _ => True
  | .worker k _ =>
    ∀ op, (s.pool.worker k).op = some op → usesStream op = true →
      ∃ n, (s.conn k).stream = some n ∧ s.IsOpen n
  | _ => True

def HasStream (s : Server) (k : ℕ) : Prop := s.datafd ≠ none ∧ (s.conn k).stream = s.datafd

/-- There is at most one stream, and everybody who has a stream has that one. -/
structure OneStream (s : Server) : Prop where
  only : s.datafd = none ∧ s.opened = 0 ∨ s.datafd = some 0 ∧ s.opened = 1
  set : ∀ k, s.pc = .dataInit k ∨ s.pc = .idInit k → s.datafd ≠ none
  stored : ∀ k, s.pc = .addThread k ∨ s.pc = .createThread k → HasStream s k
  given : ∀ k, (s.conn k).started = true → HasStream s k

theorem oneStream_init (pair : ℕ → AesdSeekto) : OneStream (Server.init pair) where
  only := Or.inl ⟨rfl, rfl⟩
  set k h := by simp [Server.init] at h
  stored k h := by simp [Server.init] at h
  given k h := by simp [Server.init] at h

namespace OneStream

variable {s t : Server}

/-- A step that is not between `fopen` and `pthread_create` only has to keep
what the threads were given. -/
theorem keep (h : OneStream s) (hdatafd : t.datafd = s.datafd) (hopened : t.opened = s.opened)
    (hset : ∀ k, t.pc ≠ .dataInit k ∧ t.pc ≠ .idInit k)
    (hstored : ∀ k, t.pc ≠ .addThread k ∧ t.pc ≠ .createThread k)
    (hgiven : ∀ k, (t.conn k).started = true → HasStream t k) : OneStream t where
  only := by rw [hdatafd, hopened]; exact h.only
  set k hpc := hpc.elim (fun hk => absurd hk (hset k).1) fun hk => absurd hk (hset k).2
  stored k hpc := hpc.elim (fun hk => absurd hk (hstored k).1) fun hk => absurd hk (hstored k).2
  given := hgiven

theorem moves (h : OneStream s) {e : Event} (hmove : s.Moves e t) : OneStream t := by
  cases hmove with
  | accepted hpc =>
    refine h.keep rfl rfl (by simp) (by simp) fun j hj => ?_
    simp only [Server.goto_conn, Server.accept_conn] at hj
    split at hj
    · cases hj
    · rename_i hne
      simpa [HasStream, hne] using h.given j hj
  | opened hpc hnull =>
    have hopened : s.opened = 0 := by
      rcases h.only with ⟨_, h0⟩ | ⟨hset, _⟩
      · exact h0
      · simp [hnull] at hset
    exact {
      only := Or.inr (by simp [Server.fopen, hopened])
      set := fun k _ => by simp [Server.fopen]
      stored := fun k hk => by simp at hk
      given := fun k hk => absurd hnull (h.given k hk).1 }
  | alreadyOpen hpc hset =>
    exact { only := h.only, set := fun k _ => hset, stored := fun k hk => by simp at hk
            given := h.given }
  | @dataInit k hpc =>
    refine { only := h.only, set := fun j hj => h.set k (Or.inl hpc)
             stored := fun j hj => by simp at hj, given := fun j hj => ?_ }
    have hgiven := h.given j
    by_cases hjk : j = k <;> simp_all [HasStream]
  | @idInit k hpc =>
    have hset := h.set k (Or.inr hpc)
    refine { only := h.only, set := fun j hj => by simp at hj
             stored := fun j hj => ?_, given := fun j hj => ?_ }
    · have hjk : k = j := by simpa using hj
      simpa [HasStream, hjk] using hset
    · have hgiven := h.given j
      by_cases hjk : j = k <;> simp_all [HasStream]
  | @addThread k hpc =>
    have hstored := h.stored k (Or.inl hpc)
    refine { only := h.only, set := fun j hj => by simp at hj
             stored := fun j hj => ?_, given := fun j hj => ?_ }
    · have hjk : k = j := by simpa using hj
      simpa [HasStream, hjk] using hstored
    · have hgiven := h.given j
      by_cases hjk : j = k <;> simp_all [HasStream]
  | @createThread k hpc =>
    have hstored := h.stored k (Or.inr hpc)
    refine h.keep rfl rfl (by simp) (by simp) fun j hj => ?_
    have hgiven := h.given j
    by_cases hjk : j = k <;> simp_all [HasStream]
  | idle | killStream =>
    exact h.keep (by simp) (by simp) (by simp) (by simp) (by simpa [HasStream] using h.given)
  | @idInitFails k | @createThreadFails k | @sweepJoin k | @killJoin k | @killReclaim k =>
    refine h.keep rfl rfl (by simp) (by simp) fun j hj => ?_
    have hgiven := h.given j
    by_cases hjk : j = k <;> simp_all [HasStream, Conn.threadDataDeinit]
  | _ => exact h.keep rfl rfl (by simp) (by simp) h.given

theorem next (h : OneStream s) {l : Label} (hnext : s.next l = some t) : OneStream t := by
  rcases Server.next_cases hnext with ⟨e, rfl, hmove⟩ | ⟨k, a, pool, rfl, _, _, _, rfl⟩ |
    ⟨rfl, _, rfl⟩
  · exact h.moves hmove
  · have hconn := s.noteComplete_conn k
    exact {
      only := by simpa using h.only
      set := by simpa using h.set
      stored := fun j hj => by
        obtain ⟨status, hj'⟩ := hconn j
        simpa [HasStream, hj'] using h.stored j (by simpa using hj)
      given := fun j hj => by
        obtain ⟨status, hj'⟩ := hconn j
        simpa [HasStream, hj'] using h.given j (by simpa [hj'] using hj) }
  · exact { only := h.only, set := h.set, stored := h.stored, given := h.given }

end OneStream

end Aesd.StreamLifetime
