import Aesd.JoinedOnce

/-!
Taking a connection, and what a failed call of its set-up leaves behind. Only
the allocation of the thread id is rolled back in full. Without memory for the
thread data or for the list node the socket stays open, and what was allocated
before stays allocated. A failed `pthread_create` gives back what the node
points to and leaves the node in the list, for the next sweep to find.
-/

namespace Aesd.Intake

open CharDriver EchoWorker WorkerPool ServerMain ThreadList Shutdown Reclaim JoinedOnce Runs

/-- The calls of a set-up that can fail. -/
inductive Failure
  | threadData
  | threadId
  | listNode
  | create
  deriving DecidableEq, Repr

/-- How the calls of the main thread come back after `accept`, the first of them
being `fopen`, up to the one that fails. -/
def outcome : Option Failure → List Event
  | some .threadData => [.ok, .fail]
  | some .threadId => [.ok, .ok, .fail]
  | some .listNode => [.ok, .ok, .ok, .fail]
  | some .create => [.ok, .ok, .ok, .ok, .fail]
  | none => [.ok, .ok, .ok, .ok, .ok]

def mainEvents (ls : List Label) : List Event :=
  ls.filterMap fun
    | .main e => some e
    | _ => none

/-- A run of the server, the connection it accepts at its end, and the set-up of
that connection among the steps of the workers. -/
structure SetUp (pair : ℕ → AesdSeekto) where
  earlier : List Label
  before : Server
  during : List Label
  after : Server
  failure : Option Failure
  reached : exec Server.next (Server.init pair) earlier = some before
  waiting : before.pc = .incoming
  taken : exec Server.next before (.main .accepted :: during) = some after
  outcomes : mainEvents during = outcome failure

/-- There is one new node; it points to live thread data with a thread. -/
structure Taken (s t : Server) (k : ℕ) : Prop where
  head : t.head = k :: s.head
  node : (t.conn k).node.live = true
  threadData : (t.conn k).threadData.live = true
  started : (t.conn k).started = true

/-- The list is as it was, nothing that was obtained is still there, and the
socket was closed once. -/
structure Refused (s t : Server) (k : ℕ) : Prop where
  head : t.head = s.head
  freed : ∀ r ∈ resources (t.conn k), r.live = false
  socket : (t.conn k).socket = returned

def SetUp.AllOrNothing {pair : ℕ → AesdSeekto} (run : SetUp pair) : Prop :=
  match run.failure with
  | none => Taken run.before run.after run.before.accepted
  | some _ => Refused run.before run.after run.before.accepted

/-- Every node of the list points to live thread data, and its thread was
created; that of a node which was just added is created next. -/
def Sound (s : Server) : Prop :=
  ∀ k ∈ s.head, (s.conn k).threadData.live = true ∧
    ((s.conn k).started = true ∨ s.pc = .createThread k)

/-- The places of the main thread in a set-up, without the number of the connection. -/
inductive Place
  | openStream
  | dataInit
  | idInit
  | addThread
  | createThread
  | finished
  deriving DecidableEq, Repr

def Place.pc (k : ℕ) : Place → MainPc
  | .openStream => .openStream k
  | .dataInit => .dataInit k
  | .idInit => .idInit k
  | .addThread => .addThread k
  | .createThread => .createThread k
  | .finished => .checkSignal false

/-- The set-up of one connection by itself: where it is, how many nodes it has
added, and the connection without its stream and its flag. -/
structure Stage where
  place : Place := .openStream
  nodes : ℕ := 0
  conn : Conn := { socket := .held }
  deriving DecidableEq, Repr

namespace Stage

/-- What a call of the set-up does to the connection. -/
def advance (σ : Stage) (e : Event) : Option Stage :=
  match σ.place, e with
  | .openStream, .ok => some { σ with place := .dataInit }
  | .dataInit, .ok => some { σ with place := .idInit, conn := { σ.conn with threadData := .held } }
  | .idInit, .ok => some { σ with place := .addThread, conn := { σ.conn with ptid := .held } }
  | .addThread, .ok =>
    some { place := .createThread, nodes := σ.nodes + 1, conn := { σ.conn with node := .held } }
  | .createThread, .ok =>
    some { σ with place := .finished, conn := { σ.conn with started := true } }
  | .dataInit, .fail => some { σ with place := .finished }
  | .idInit, .fail => some { σ with place := .finished, conn := σ.conn.threadDataDeinit }
  | .addThread, .fail => some { σ with place := .finished }
  | .createThread, .fail => some { σ with place := .finished, conn := σ.conn.threadDataDeinit }
  | _, _ => none

/-- The server is at this stage with connection `k`; `head` is the list before. -/
structure Shows (σ : Stage) (k : ℕ) (head : List ℕ) (s : Server) : Prop where
  pc : s.pc = σ.place.pc k
  head : s.head = List.replicate σ.nodes k ++ head
  conn : { s.conn k with stream := none, complete := false } = σ.conn

variable {σ τ : Stage} {k : ℕ} {head : List ℕ} {s t : Server}

theorem Shows.resources_eq (h : σ.Shows k head s) : resources (s.conn k) = resources σ.conn := by
  rw [← h.conn]
  rfl

/-- The main thread takes the step that the stage takes. -/
theorem Shows.main (h : σ.Shows k head s) {e : Event} (hadvance : σ.advance e = some τ)
    (hstep : s.mainStep e = some t) : τ.Shows k head t := by
  obtain ⟨hpc, hhead, hconn⟩ := h
  cases hplace : σ.place <;> rw [hplace] at hpc <;> cases e <;>
    simp only [advance, hplace, reduceCtorEq] at hadvance <;> cases hadvance <;>
    simp only [Server.mainStep, hpc, Place.pc] at hstep
  case openStream.ok.refl =>
    cases hstep
    split
    · exact ⟨rfl, hhead, hconn⟩
    · exact ⟨rfl, hhead, hconn⟩
  all_goals cases hstep
  case addThread.ok.refl.refl =>
    refine ⟨rfl, ?_, ?_⟩
    · simp [Server.addThreadToList, hhead, List.replicate_succ]
    · simp [← hconn]
  all_goals
    refine ⟨rfl, hhead, ?_⟩
    simp [← hconn, Conn.threadDataDeinit]

/-- The other steps leave the connection that is set up alone. -/
theorem Shows.quiet (h : σ.Shows k head s) {l : Label} (hl : mainEvents [l] = [])
    (hnext : s.next l = some t) : σ.Shows k head t := by
  rcases Server.next_cases hnext with ⟨e, rfl, _⟩ | ⟨j, a, pool, rfl, _, _, _, rfl⟩ | ⟨rfl, _, rfl⟩
  · cases hl
  · obtain ⟨status, hc⟩ := s.noteComplete_conn j k
    refine ⟨by simpa using h.pc, by simpa using h.head, ?_⟩
    rw [← h.conn, hc]
  · exact ⟨h.pc, h.head, h.conn⟩

/-- Whatever the workers do in between, the set-up runs as by itself. -/
theorem Shows.run (h : σ.Shows k head s) {ls : List Label}
    (hstages : exec advance σ (mainEvents ls) = some τ)
    (hrun : exec Server.next s ls = some t) : τ.Shows k head t := by
  induction ls generalizing s σ with
  | nil =>
    cases hstages
    cases hrun
    exact h
  | cons l ls ih =>
    obtain ⟨u, hl, hls⟩ := exec_cons_eq_some.mp hrun
    cases l with
    | main e =>
      obtain ⟨υ, he, hes⟩ := exec_cons_eq_some.mp hstages
      exact ih (h.main he hl) hes hls
    | worker j a => exact ih (h.quiet rfl hl) hstages hls
    | signal => exact ih (h.quiet rfl hl) hstages hls

end Stage

variable {pair : ℕ → AesdSeekto}

/-- Where a set-up ends, by the call that fails. -/
def final : Option Failure → Stage
  | none => { place := .finished, nodes := 1,
              conn := { socket := .held, threadData := .held, ptid := .held, node := .held,
                        started := true } }
  | some .threadData => { place := .finished }
  | some .threadId => { place := .finished, conn := { socket := returned, threadData := returned } }
  | some .listNode => { place := .finished,
                        conn := { socket := .held, threadData := .held, ptid := .held } }
  | some .create => { place := .finished, nodes := 1,
                      conn := { socket := returned, threadData := returned, ptid := returned,
                                node := .held } }

theorem SetUp.shows_final (run : SetUp pair) :
    (final run.failure).Shows run.before.accepted run.before.head run.after := by
  obtain ⟨s, hs, hduring⟩ := exec_cons_eq_some.mp run.taken
  have hstart : ({} : Stage).Shows run.before.accepted run.before.head s := by
    simp only [Server.next, Server.mainStep, run.waiting] at hs
    cases hs
    exact ⟨rfl, rfl, by simp⟩
  have hstages : exec Stage.advance {} (mainEvents run.during) = some (final run.failure) := by
    rw [run.outcomes]
    cases run.failure with
    | none => rfl
    | some failure => cases failure <;> rfl
  exact hstart.run hstages hduring

/-- A set-up is all or nothing exactly if no call fails or the allocation of the
thread id does. -/
theorem SetUp.allOrNothing_iff (run : SetUp pair) :
    run.AllOrNothing ↔ run.failure = none ∨ run.failure = some .threadId := by
  have hfinal := run.shows_final
  unfold SetUp.AllOrNothing
  cases hfailure : run.failure with
  | none =>
    rw [hfailure] at hfinal
    simp only [true_or, iff_true]
    exact {
      head := hfinal.head
      node := congrArg (fun c => c.node.live) hfinal.conn
      threadData := congrArg (fun c => c.threadData.live) hfinal.conn
      started := congrArg Conn.started hfinal.conn }
  | some failure =>
    rw [hfailure] at hfinal
    -- after the rollback the socket is closed once, otherwise not at all
    have hsocket := congrArg Conn.socket hfinal.conn
    cases failure with
    | threadData | listNode =>
      simp only [reduceCtorEq, Option.some.injEq, or_self, iff_false]
      intro hrefused
      exact absurd (hrefused.socket.symm.trans hsocket) (by decide)
    | threadId =>
      simp only [reduceCtorEq, false_or, iff_true]
      exact {
        head := hfinal.head
        freed := by
          rw [hfinal.resources_eq]
          decide
        socket := hsocket }
    | create =>
      simp only [reduceCtorEq, Option.some.injEq, or_self, iff_false]
      intro hrefused
      have hhead : run.before.accepted :: run.before.head = run.before.head :=
        hfinal.head.symm.trans hrefused.head
      exact absurd hhead (List.cons_ne_self _ _)

theorem sound_of_guarded {s : Server} (htracked : Tracked s) (hguarded : Guarded s) : Sound s := by
  intro k hk
  have hheld := hguarded.held htracked hk
  exact ⟨by rw [hheld.threadData]; rfl, hguarded.listed k hk⟩

/-- A failed `pthread_create` leaves the node it was for in the list. -/
theorem creates_of_sound {s t : Server} {l : Label} (htracked : Tracked s)
    (hnext : s.next l = some t) (hsound : Sound t) : creates s l = true := by
  rcases Server.next_cases hnext with ⟨e, rfl, hmove⟩ | ⟨k, a, pool, rfl, _⟩ | ⟨rfl, _⟩
  · cases hpc : s.pc <;> simp only [creates, hpc]
    rename_i k
    obtain ⟨_, hin, hunstarted, hheld⟩ := htracked.atCreateThread hpc
    cases hmove with
    | createThread => rfl
    | @createThreadFails j hj =>
      obtain rfl : k = j := by simpa [hpc] using hj
      have hlive := (hsound k hin).1
      simp [Conn.threadDataDeinit, hheld.threadData, Resource.free, Resource.held,
        Resource.live] at hlive
    | exits =>
      have hcreated := (hsound k hin).2
      simp [hunstarted] at hcreated
    | _ hplace => simp [hpc] at hplace
  · rfl
  · rfl

/-- Taking a connection is all or nothing exactly if no call of the set-up fails
or the allocation of the thread id does; and in all states of a run the nodes of
the list point to live thread data with a thread exactly if thread creation
never fails in it. -/
theorem intake_iff (pair : ℕ → AesdSeekto) :
    (∀ run : SetUp pair,
      run.AllOrNothing ↔ run.failure = none ∨ run.failure = some .threadId) ∧
    ∀ ls, States Server.next Sound (Server.init pair) ls ↔
      Steps Server.next (fun s l => creates s l = true) (Server.init pair) ls := by
  refine ⟨SetUp.allOrNothing_iff, fun ls => ?_⟩
  exact @states_iff_steps _ _ _ _ (fun s => Tracked s ∧ Guarded s) _
    (fun s hs => sound_of_guarded hs.1 hs.2)
    (fun s l t hs hnext hc => ⟨hs.1.next hnext, hs.2.next hs.1 hnext hc⟩)
    (fun s l t hs hnext ht => creates_of_sound hs.1 hnext ht)
    _ _ ⟨tracked_init pair, guarded_init pair⟩

/-- The first connection; `pthread_create` fails for it. -/
theorem failed_create_leaves_node :
    (∃ run : SetUp fun _ => ⟨0, 0⟩, run.failure = some .create ∧ ¬ run.AllOrNothing) ∧
      ¬ States Server.next Sound (Server.init fun _ => ⟨0, 0⟩)
        [.main .accepted, .main .ok, .main .ok, .main .ok, .main .ok, .main .fail] := by
  constructor
  · refine ⟨{
      earlier := []
      before := Server.init fun _ => ⟨0, 0⟩
      during := [.main .ok, .main .ok, .main .ok, .main .ok, .main .fail]
      after := _
      failure := some .create
      reached := rfl
      waiting := rfl
      taken := rfl
      outcomes := rfl }, rfl, ?_⟩
    intro hrefused
    have hhead : [0] = ([] : List ℕ) := Refused.head hrefused
    exact absurd hhead (by decide)
  · intro h
    have hsound : Sound _ := h.last rfl
    exact absurd (hsound 0 (by decide)).1 (by decide)

end Aesd.Intake
