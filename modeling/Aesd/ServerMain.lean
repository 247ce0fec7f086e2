import Aesd.WorkerPool

/-!
The main thread of the socket server together with its workers: the loop of
`main` with `thread_data_init`, `thread_data_deinit`, `add_thread_to_list`,
`check_for_completed_threads` and `process_kill`. Connections are numbered as
they are accepted. A pointer into the thread list is the part of the list from
its node on. A call of `exit` ends every thread.
-/

namespace Aesd.ServerMain

open CharDriver EchoWorker WorkerPool

/-- A descriptor or a block of memory: whether it was obtained, and how often it
was given back. -/
structure Resource where
  taken : Bool := false
  released : ℕ := 0
  deriving DecidableEq, Repr

/-- Obtained and not given back. -/
def Resource.held : Resource := { taken := true }

/-- `free(NULL)` does nothing. -/
def Resource.free (r : Resource) : Resource :=
  if r.taken then { r with released := r.released + 1 } else r

def Resource.live (r : Resource) : Bool := r.taken && r.released == 0

/-- A connection with what is allocated for it: the `thread_data`, the thread id
it points to, and the node of the thread list. `stream` is the `datafd` of its
thread data and `complete` the `thread_complete_status`. -/
structure Conn where
  socket : Resource := {}
  threadData : Resource := {}
  ptid : Resource := {}
  node : Resource := {}
  stream : Option ℕ := none
  complete : Bool := false
  started : Bool := false
  joins : ℕ := 0
  deriving DecidableEq, Repr

namespace Conn

def threadDataDeinit (c : Conn) : Conn :=
  { c with ptid := c.ptid.free, socket := c.socket.free, threadData := c.threadData.free }

end Conn

/-- The calls that go to `param->datafd`. -/
def usesStream : Op → Bool
  | .write _ | .flush | .lseek _ _ | .ioctl _ | .read _ => true
  | _ => false

/-- What a call of the main thread comes back with. `exits` is a failure that
ends the process. -/
inductive Event
  | ok
  | fail
  | exits
  | accepted
  | timeout
  | selectError
  | garbage (status : Bool)
  deriving DecidableEq, Repr

/-- `sweep` and `sweepJoin` are in `check_for_completed_threads`, the places from
`killWalk` to `killMutex` in `process_kill`. -/
inductive MainPc
  | incoming
  | openStream (k : ℕ)
  | dataInit (k : ℕ)
  | idInit (k : ℕ)
  | addThread (k : ℕ)
  | createThread (k : ℕ)
  | checkSignal (timeout : Bool)
  | idle
  | sweep (rest : List ℕ)
  | sweepJoin (k : ℕ) (rest : List ℕ)
  | killWalk (rest : List ℕ)
  | killJoin (k : ℕ) (rest : List ℕ)
  | killReclaim (k : ℕ) (rest : List ℕ)
  | killStream
  | killSocket
  | killMutex
  | killed
  | exited
  deriving DecidableEq, Repr

/-- The places with a call whose failure goes to `ERROR_HANDLER`, or returns
from `main`. -/
def MainPc.mayExit : MainPc → Bool
  | .incoming | .idInit _ | .createThread _ | .killReclaim _ _ | .killSocket => true
  | _ => false

/-- `opened` counts the streams that `fopen` gave, `closes` the calls of `fclose`
on each of them. -/
structure Server where
  pc : MainPc := .incoming
  signalSign : Bool := false
  datafd : Option ℕ := none
  opened : ℕ := 0
  closes : ℕ → ℕ := fun _ => 0
  head : List ℕ := []
  accepted : ℕ := 0
  conn : ℕ → Conn := fun _ => {}
  pool : Pool
  mutexFreed : Bool := false

inductive Label
  | main (e : Event)
  | worker (k : ℕ) (a : Answer)
  | signal
  deriving DecidableEq, Repr

namespace Server

def init (pair : ℕ → AesdSeekto) : Server := { pool := Pool.init pair }

def IsOpen (s : Server) (n : ℕ) : Prop := n < s.opened ∧ s.closes n = 0

def goto (s : Server) (pc : MainPc) : Server := { s with pc }

def setConn (s : Server) (k : ℕ) (c : Conn) : Server :=
  { s with conn := Function.update s.conn k c }

/-- A new connection, numbered by its arrival. -/
def accept (s : Server) : Server :=
  { s.setConn s.accepted { socket := .held } with accepted := s.accepted + 1 }

def fopen (s : Server) : Server :=
  { s with datafd := some s.opened, opened := s.opened + 1 }

/-- `if(datafd) fclose(datafd);` -/
def fclose (s : Server) : Server :=
  match s.datafd with
  | some n => { s with closes := Function.update s.closes n (s.closes n + 1) }
  | none => s

def addThreadToList (s : Server) (k : ℕ) : Server :=
  { s.setConn k { s.conn k with node := .held } with head := k :: s.head }

/-- `tcp_close`, the three `free`s and `SLIST_REMOVE` for one node. -/
def reclaim (s : Server) (k : ℕ) : Server :=
  let c := s.conn k
  { s.setConn k { c with socket := c.socket.free, ptid := c.ptid.free
                         threadData := c.threadData.free, node := c.node.free } with
    head := s.head.erase k }

/-- The completion flag of a node. After `thread_data_deinit` the node points to
freed memory, and the read gives anything. -/
def status (s : Server) (k : ℕ) (e : Event) : Option Bool :=
  match (s.conn k).threadData.live, e with
  | true, .ok => some (s.conn k).complete
  | false, .garbage b => some b
  | _, _ => none

/-- `pthread_join` waits for the end of the thread. -/
def Joinable (s : Server) (k : ℕ) : Prop :=
  (s.conn k).started = true → (s.pool.worker k).pc = .done

instance (s : Server) (k : ℕ) : Decidable (s.Joinable k) :=
  inferInstanceAs (Decidable ((s.conn k).started = true → (s.pool.worker k).pc = .done))

/-- The main thread makes its next call. -/
def mainStep (s : Server) (e : Event) : Option Server :=
  match s.pc, e with
  | .incoming, .accepted => some (s.accept.goto (.openStream s.accepted))
  | .incoming, .timeout => some (s.goto (.checkSignal true))
  | .incoming, .selectError => some (s.goto (.checkSignal false))
  | .openStream k, .ok => some ((if s.datafd = none then s.fopen else s).goto (.dataInit k))
  | .openStream _, .fail => if s.datafd = none then some (s.goto .exited) else none
  | .dataInit k, .ok =>
    some ((s.setConn k { s.conn k with threadData := .held }).goto (.idInit k))
  | .dataInit _, .fail => some (s.goto (.checkSignal false))
  | .idInit k, .ok =>
    some ((s.setConn k { s.conn k with
      ptid := .held, stream := s.datafd, complete := false }).goto (.addThread k))
  | .idInit k, .fail =>
    some ((s.setConn k (s.conn k).threadDataDeinit).goto (.checkSignal false))
  | .addThread k, .ok => some ((s.addThreadToList k).goto (.createThread k))
  | .addThread _, .fail => some (s.goto (.checkSignal false))
  | .createThread k, .ok =>
    some ((s.setConn k { s.conn k with started := true }).goto (.checkSignal false))
  -- the node that was just added stays in the list
  | .createThread k, .fail =>
    some ((s.setConn k (s.conn k).threadDataDeinit).goto (.checkSignal false))
  | .checkSignal timeout, .ok =>
    some (s.goto (if s.signalSign then .killWalk s.head else if timeout then .idle else .incoming))
  -- `datafd` keeps its value
  | .idle, .ok => some (s.fclose.goto (.sweep s.head))
  | .sweep [], .ok => some (s.goto .incoming)
  | .sweep (k :: rest), e =>
    (s.status k e).map fun complete =>
      s.goto (if complete then .sweepJoin k rest else .sweep rest)
  | .sweepJoin k rest, .ok =>
    if s.Joinable k then
      some ((s.setConn k { s.conn k with
        joins := (s.conn k).joins + 1, complete := false }).goto (.sweep rest))
    else none
  | .killWalk [], .ok => some (s.goto .killStream)
  | .killWalk (k :: rest), e =>
    (s.status k e).map fun complete =>
      s.goto (if complete then .killJoin k rest else .killWalk rest)
  | .killJoin k rest, .ok =>
    if s.Joinable k then
      some ((s.setConn k { s.conn k with
        joins := (s.conn k).joins + 1 }).goto (.killReclaim k rest))
    else none
  | .killReclaim k rest, .ok => some ((s.reclaim k).goto (.killWalk rest))
  | .killStream, .ok => some (s.fclose.goto .killSocket)
  | .killSocket, .ok => some (s.goto .killMutex)
  | .killMutex, .ok => some ({ s with mutexFreed := true }.goto .killed)
  | .killed, .ok => some (s.goto .exited)
  | pc, .exits => if pc.mayExit then some (s.goto .exited) else none
  | _, _ => none

/-- The flag of worker `k` after the call it is about to make. -/
def noteComplete (s : Server) (k : ℕ) : Server :=
  match (s.pool.worker k).op with
  | some (.setComplete status) => s.setConn k { s.conn k with complete := status }
  | _ => s

def workerStep (s : Server) (k : ℕ) (a : Answer) : Option Server :=
  if (s.conn k).started = true ∧ s.pc ≠ .exited then
    (s.pool.next (k, a)).map fun pool => { s.noteComplete k with pool }
  else none

def next (s : Server) : Label → Option Server
  | .main e => s.mainStep e
  | .worker k a => s.workerStep k a
  | .signal => if s.pc ≠ .exited then some { s with signalSign := true } else none

section Fields

variable (s : Server) (k : ℕ) (c : Conn) (pc : MainPc)

@[simp] theorem goto_pc : (s.goto pc).pc = pc := rfl
@[simp] theorem goto_datafd : (s.goto pc).datafd = s.datafd := rfl
@[simp] theorem goto_opened : (s.goto pc).opened = s.opened := rfl
@[simp] theorem goto_closes : (s.goto pc).closes = s.closes := rfl
@[simp] theorem goto_head : (s.goto pc).head = s.head := rfl
@[simp] theorem goto_accepted : (s.goto pc).accepted = s.accepted := rfl
@[simp] theorem goto_conn : (s.goto pc).conn = s.conn := rfl
@[simp] theorem goto_pool : (s.goto pc).pool = s.pool := rfl

@[simp] theorem setConn_datafd : (s.setConn k c).datafd = s.datafd := rfl
@[simp] theorem setConn_closes : (s.setConn k c).closes = s.closes := rfl
@[simp] theorem setConn_pool : (s.setConn k c).pool = s.pool := rfl
@[simp] theorem setConn_conn (j : ℕ) :
    (s.setConn k c).conn j = if j = k then c else s.conn j := Function.update_apply ..

@[simp] theorem noteComplete_pc : (s.noteComplete k).pc = s.pc := by
  unfold noteComplete; split <;> rfl
@[simp] theorem noteComplete_signalSign : (s.noteComplete k).signalSign = s.signalSign := by
  unfold noteComplete; split <;> rfl
@[simp] theorem noteComplete_datafd : (s.noteComplete k).datafd = s.datafd := by
  unfold noteComplete; split <;> rfl
@[simp] theorem noteComplete_opened : (s.noteComplete k).opened = s.opened := by
  unfold noteComplete; split <;> rfl
@[simp] theorem noteComplete_closes : (s.noteComplete k).closes = s.closes := by
  unfold noteComplete; split <;> rfl
@[simp] theorem noteComplete_head : (s.noteComplete k).head = s.head := by
  unfold noteComplete; split <;> rfl
@[simp] theorem noteComplete_accepted : (s.noteComplete k).accepted = s.accepted := by
  unfold noteComplete; split <;> rfl

@[simp] theorem accept_datafd : s.accept.datafd = s.datafd := rfl
@[simp] theorem addThreadToList_datafd : (s.addThreadToList k).datafd = s.datafd := rfl
@[simp] theorem reclaim_datafd : (s.reclaim k).datafd = s.datafd := rfl
@[simp] theorem accept_conn (j : ℕ) : s.accept.conn j =
    if j = s.accepted then { socket := .held } else s.conn j := Function.update_apply ..
@[simp] theorem addThreadToList_conn (j : ℕ) : (s.addThreadToList k).conn j =
    if j = k then { s.conn k with node := .held } else s.conn j :=
  Function.update_apply ..
@[simp] theorem reclaim_conn (j : ℕ) : (s.reclaim k).conn j =
    if j = k then
      { s.conn k with socket := (s.conn k).socket.free, ptid := (s.conn k).ptid.free
                      threadData := (s.conn k).threadData.free, node := (s.conn k).node.free }
    else s.conn j := Function.update_apply ..

/-- Only the flag of the worker's own connection can change. -/
theorem noteComplete_conn (j : ℕ) : ∃ status,
    (s.noteComplete k).conn j = { s.conn j with complete := status } := by
  unfold noteComplete
  split
  · rename_i status _
    by_cases hj : j = k
    · exact ⟨status, by simp [hj]⟩
    · exact ⟨(s.conn j).complete, by simp [hj]⟩
  · exact ⟨(s.conn j).complete, rfl⟩

theorem noteComplete_conn_of_ne {k j : ℕ} (hj : j ≠ k) : (s.noteComplete k).conn j = s.conn j := by
  unfold noteComplete
  split <;> simp [hj]

@[simp] theorem fclose_datafd : s.fclose.datafd = s.datafd := by unfold fclose; split <;> simp_all
@[simp] theorem fclose_signalSign : s.fclose.signalSign = s.signalSign := by
  unfold fclose; split <;> rfl
@[simp] theorem fclose_opened : s.fclose.opened = s.opened := by unfold fclose; split <;> rfl
@[simp] theorem fclose_head : s.fclose.head = s.head := by unfold fclose; split <;> rfl
@[simp] theorem fclose_accepted : s.fclose.accepted = s.accepted := by unfold fclose; split <;> rfl
@[simp] theorem fclose_conn : s.fclose.conn = s.conn := by unfold fclose; split <;> rfl
@[simp] theorem fclose_pool : s.fclose.pool = s.pool := by unfold fclose; split <;> rfl

end Fields

/-- What a step of the main thread can be: one constructor for each way a call
comes back. -/
inductive Moves (s : Server) : Event → Server → Prop
  | accepted (hpc : s.pc = .incoming) :
      Moves s .accepted (s.accept.goto (.openStream s.accepted))
  | timeout (hpc : s.pc = .incoming) : Moves s .timeout (s.goto (.checkSignal true))
  | selectError (hpc : s.pc = .incoming) : Moves s .selectError (s.goto (.checkSignal false))
  | opened {k : ℕ} (hpc : s.pc = .openStream k) (hnull : s.datafd = none) :
      Moves s .ok (s.fopen.goto (.dataInit k))
  | alreadyOpen {k : ℕ} (hpc : s.pc = .openStream k) (hset : s.datafd ≠ none) :
      Moves s .ok (s.goto (.dataInit k))
  | openFails {k : ℕ} (hpc : s.pc = .openStream k) : Moves s .fail (s.goto .exited)
  | dataInit {k : ℕ} (hpc : s.pc = .dataInit k) :
      Moves s .ok ((s.setConn k { s.conn k with threadData := .held }).goto (.idInit k))
  | dataInitFails {k : ℕ} (hpc : s.pc = .dataInit k) : Moves s .fail (s.goto (.checkSignal false))
  | idInit {k : ℕ} (hpc : s.pc = .idInit k) :
      Moves s .ok ((s.setConn k { s.conn k with
        ptid := .held, stream := s.datafd, complete := false }).goto (.addThread k))
  | idInitFails {k : ℕ} (hpc : s.pc = .idInit k) :
      Moves s .fail ((s.setConn k (s.conn k).threadDataDeinit).goto (.checkSignal false))
  | addThread {k : ℕ} (hpc : s.pc = .addThread k) :
      Moves s .ok ((s.addThreadToList k).goto (.createThread k))
  | addThreadFails {k : ℕ} (hpc : s.pc = .addThread k) : Moves s .fail (s.goto (.checkSignal false))
  | createThread {k : ℕ} (hpc : s.pc = .createThread k) :
      Moves s .ok ((s.setConn k { s.conn k with started := true }).goto (.checkSignal false))
  | createThreadFails {k : ℕ} (hpc : s.pc = .createThread k) :
      Moves s .fail ((s.setConn k (s.conn k).threadDataDeinit).goto (.checkSignal false))
  | kill {timeout : Bool} (hpc : s.pc = .checkSignal timeout) (hsignal : s.signalSign = true) :
      Moves s .ok (s.goto (.killWalk s.head))
  | goIdle (hpc : s.pc = .checkSignal true) (hsignal : s.signalSign = false) :
      Moves s .ok (s.goto .idle)
  | again (hpc : s.pc = .checkSignal false) (hsignal : s.signalSign = false) :
      Moves s .ok (s.goto .incoming)
  | idle (hpc : s.pc = .idle) : Moves s .ok (s.fclose.goto (.sweep s.head))
  | swept (hpc : s.pc = .sweep []) : Moves s .ok (s.goto .incoming)
  | sweepComplete {e : Event} {k : ℕ} {rest : List ℕ} (hpc : s.pc = .sweep (k :: rest))
      (hstatus : s.status k e = some true) : Moves s e (s.goto (.sweepJoin k rest))
  | sweepRunning {e : Event} {k : ℕ} {rest : List ℕ} (hpc : s.pc = .sweep (k :: rest))
      (hstatus : s.status k e = some false) : Moves s e (s.goto (.sweep rest))
  | sweepJoin {k : ℕ} {rest : List ℕ} (hpc : s.pc = .sweepJoin k rest) (hjoin : s.Joinable k) :
      Moves s .ok ((s.setConn k { s.conn k with
        joins := (s.conn k).joins + 1, complete := false }).goto (.sweep rest))
  | walked (hpc : s.pc = .killWalk []) : Moves s .ok (s.goto .killStream)
  | walkComplete {e : Event} {k : ℕ} {rest : List ℕ} (hpc : s.pc = .killWalk (k :: rest))
      (hstatus : s.status k e = some true) : Moves s e (s.goto (.killJoin k rest))
  | walkRunning {e : Event} {k : ℕ} {rest : List ℕ} (hpc : s.pc = .killWalk (k :: rest))
      (hstatus : s.status k e = some false) : Moves s e (s.goto (.killWalk rest))
  | killJoin {k : ℕ} {rest : List ℕ} (hpc : s.pc = .killJoin k rest) (hjoin : s.Joinable k) :
      Moves s .ok ((s.setConn k { s.conn k with
        joins := (s.conn k).joins + 1 }).goto (.killReclaim k rest))
  | killReclaim {k : ℕ} {rest : List ℕ} (hpc : s.pc = .killReclaim k rest) :
      Moves s .ok ((s.reclaim k).goto (.killWalk rest))
  | killStream (hpc : s.pc = .killStream) : Moves s .ok (s.fclose.goto .killSocket)
  | killSocket (hpc : s.pc = .killSocket) : Moves s .ok (s.goto .killMutex)
  | killMutex (hpc : s.pc = .killMutex) : Moves s .ok ({ s with mutexFreed := true }.goto .killed)
  | killed (hpc : s.pc = .killed) : Moves s .ok (s.goto .exited)
  | exits (hpc : s.pc.mayExit = true) : Moves s .exits (s.goto .exited)

/-- The main thread moves no worker. -/
theorem Moves.pool {s t : Server} {e : Event} (h : s.Moves e t) : t.pool = s.pool := by
  cases h with
  | idle | killStream => simp
  | _ => rfl

theorem mainStep_moves {s t : Server} {e : Event} (h : s.mainStep e = some t) : s.Moves e t := by
  unfold mainStep at h
  split at h
  case h_1 hpc => cases h; exact Moves.accepted hpc
  case h_2 hpc => cases h; exact Moves.timeout hpc
  case h_3 hpc => cases h; exact Moves.selectError hpc
  case h_4 hpc =>
    cases h
    by_cases hnull : s.datafd = none
    · simpa only [hnull, if_true] using Moves.opened hpc hnull
    · simpa only [hnull, if_false] using Moves.alreadyOpen hpc hnull
  case h_5 hpc =>
    obtain ⟨_, ht⟩ := Option.ite_none_right_eq_some.mp h
    cases ht
    exact Moves.openFails hpc
  case h_6 hpc => cases h; exact Moves.dataInit hpc
  case h_7 hpc => cases h; exact Moves.dataInitFails hpc
  case h_8 hpc => cases h; exact Moves.idInit hpc
  case h_9 hpc => cases h; exact Moves.idInitFails hpc
  case h_10 hpc => cases h; exact Moves.addThread hpc
  case h_11 hpc => cases h; exact Moves.addThreadFails hpc
  case h_12 hpc => cases h; exact Moves.createThread hpc
  case h_13 hpc => cases h; exact Moves.createThreadFails hpc
  case h_14 timeout hpc =>
    cases h
    cases hsignal : s.signalSign with
    | true => exact Moves.kill hpc hsignal
    | false =>
      cases timeout with
      | true => exact Moves.goIdle hpc hsignal
      | false => exact Moves.again hpc hsignal
  case h_15 hpc => cases h; exact Moves.idle hpc
  case h_16 hpc => cases h; exact Moves.swept hpc
  case h_17 hpc =>
    obtain ⟨complete, hstatus, ht⟩ := Option.map_eq_some_iff.mp h
    cases ht
    cases complete with
    | true => exact Moves.sweepComplete hpc hstatus
    | false => exact Moves.sweepRunning hpc hstatus
  case h_18 hpc =>
    obtain ⟨hguard, ht⟩ := Option.ite_none_right_eq_some.mp h
    cases ht
    exact Moves.sweepJoin hpc hguard
  case h_19 hpc => cases h; exact Moves.walked hpc
  case h_20 hpc =>
    obtain ⟨complete, hstatus, ht⟩ := Option.map_eq_some_iff.mp h
    cases ht
    cases complete with
    | true => exact Moves.walkComplete hpc hstatus
    | false => exact Moves.walkRunning hpc hstatus
  case h_21 hpc =>
    obtain ⟨hguard, ht⟩ := Option.ite_none_right_eq_some.mp h
    cases ht
    exact Moves.killJoin hpc hguard
  case h_22 hpc => cases h; exact Moves.killReclaim hpc
  case h_23 hpc => cases h; exact Moves.killStream hpc
  case h_24 hpc => cases h; exact Moves.killSocket hpc
  case h_25 hpc => cases h; exact Moves.killMutex hpc
  case h_26 hpc => cases h; exact Moves.killed hpc
  case h_27 =>
    obtain ⟨hexit, ht⟩ := Option.ite_none_right_eq_some.mp h
    cases ht
    exact Moves.exits hexit
  case h_28 => cases h

/-- What a step of the server can be. -/
theorem next_cases {s t : Server} {l : Label} (h : s.next l = some t) :
    (∃ e, l = .main e ∧ s.Moves e t) ∨
      (∃ k a pool, l = .worker k a ∧ (s.conn k).started = true ∧ s.pc ≠ .exited ∧
        s.pool.next (k, a) = some pool ∧ t = { s.noteComplete k with pool }) ∨
      (l = .signal ∧ s.pc ≠ .exited ∧ t = { s with signalSign := true }) := by
  cases l with
  | main e => exact Or.inl ⟨e, rfl, mainStep_moves h⟩
  | worker k a =>
    obtain ⟨⟨hstarted, hpc⟩, hmap⟩ := Option.ite_none_right_eq_some.mp h
    obtain ⟨pool, hpool, rfl⟩ := Option.map_eq_some_iff.mp hmap
    exact Or.inr (Or.inl ⟨k, a, pool, rfl, hstarted, hpc, hpool, rfl⟩)
  | signal =>
    obtain ⟨hpc, ht⟩ := Option.ite_none_right_eq_some.mp h
    cases ht
    exact Or.inr (Or.inr ⟨rfl, hpc, rfl⟩)

end Server

end Aesd.ServerMain
