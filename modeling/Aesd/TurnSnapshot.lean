import Aesd.DeviceReads
import Aesd.SharedDevice

/-!
What one turn of a worker sees of the device. From its lock to its unlock a
worker is alone on the device, so `file_size` gives the length of the content,
the reads start where the turn has put the file position, and they deliver the
content from there to its end. A turn that fails on the way ends with the mutex
held, and then no worker gets to the device again.
-/

namespace Aesd.TurnSnapshot

open RingBuffer CharDriver DeviceStore DeviceReads EchoWorker WorkerPool SharedDevice Runs

/-- The packets written so far, in the order of the writes. -/
def packets (ls : List Step) : List (List Byte) :=
  ls.filterMap fun l =>
    match l.op, l.answer with
    | .write buffer, .ret r => if 0 ≤ r then some buffer else none
    | _, _ => none

/-- What a worker did on the device since it took the mutex: the packets it
wrote, the results of its two seeks, the file position after its ioctl, the size
arguments of its reads and the bytes they brought. -/
structure Record where
  written : List (List Byte) := []
  seeks : List ℤ := []
  ioctls : List ℤ := []
  sizes : List ℤ := []
  delivered : List Byte := []
  deriving DecidableEq, Repr

def Record.add (t : Record) (l : Step) : Record :=
  match l.op, l.answer with
  | .mutexLock, _ => {}
  | .write buffer, .ret r => if 0 ≤ r then { t with written := t.written ++ [buffer] } else t
  | .lseek _ _, .ret r => { t with seeks := t.seeks ++ [r] }
  | .ioctl _, _ => { t with ioctls := t.ioctls ++ [l.pos] }
  | .read size, .bytes data =>
    { t with sizes := t.sizes ++ [size], delivered := t.delivered ++ data }
  | .read size, _ => { t with sizes := t.sizes ++ [size] }
  | _, _ => t

/-- The turn worker `i` is in after the steps `ls`. -/
def turn (i : ℕ) (ls : List Step) : Record :=
  (ls.filter fun l => l.worker = i).foldl Record.add {}

theorem turn_concat_self (ls : List Step) (l : Step) :
    turn l.worker (ls ++ [l]) = (turn l.worker ls).add l := by
  simp [turn, List.filter_append]

theorem turn_concat_other {i : ℕ} (ls : List Step) {l : Step} (h : l.worker ≠ i) :
    turn i (ls ++ [l]) = turn i ls := by
  simp [turn, List.filter_append, h]

/-- The content at the end of a turn, as the turn has seen it. -/
structure Snapshot (t : Record) (packets : List (List Byte)) : Prop where
  kind : (t.written ≠ [] ∧ t.ioctls = []) ∨ (t.written = [] ∧ t.ioctls ≠ [])
  file_size : t.seeks = [((content packets).length : ℤ), 0] ∧
    t.sizes.head? = some ((content packets).length : ℤ)
  not_negative : ∀ size ∈ t.sizes, 0 ≤ size
  data : ∀ p ∈ t.written, packets.getLast? = some p ∧ t.delivered = content packets
  seek : ∀ pos ∈ t.ioctls, 0 ≤ pos ∧ t.delivered = (content packets).drop pos.toNat

theorem flatten_length_le {ps : List (List Byte)} {n : ℕ} (h : ∀ p ∈ ps, p.length ≤ n) :
    ps.flatten.length ≤ ps.length * n := by
  induction ps with
  | nil => simp
  | cons p ps ih =>
    have hp := h p (List.mem_cons_self ..)
    have hps := ih (fun q hq => h q (List.mem_cons_of_mem _ hq))
    rw [List.flatten_cons, List.length_append, List.length_cons, Nat.add_mul, Nat.one_mul]
    omega

theorem content_length_lt {pk : List (List Byte)} (h : ∀ p ∈ pk, p.length < BUFFER_SIZE) :
    (content pk).length < 2 ^ 31 := by
  have hlen : (pk.rtake 10).length ≤ 10 := by
    simp only [List.rtake, List.length_drop]
    omega
  have hle : (content pk).length ≤ (pk.rtake 10).length * BUFFER_SIZE :=
    flatten_length_le (fun p hp => (h p (List.mem_of_mem_drop hp)).le)
  exact (hle.trans (Nat.mul_le_mul_right _ hlen)).trans_lt (by decide)

theorem groupWrites_of_newline {pk : List (List Byte)} (h : ∀ p ∈ pk, newline ∈ p) :
    groupWrites pk = (pk, []) := by
  induction pk using List.reverseRecOn with
  | nil => rfl
  | append_singleton pk p ih =>
    have hp := h p (List.mem_append_right _ (List.mem_singleton_self p))
    rw [groupWrites_concat, ih (fun q hq => h q (List.mem_append_left _ hq)), pushWrite, if_pos hp]
    rfl

/-- The holder has left its loop body: nobody will get the mutex again. -/
def Dead (p : Pool) : Prop := ∃ i, p.holder = some i ∧ (p.worker i).pc.inside = false

theorem Dead.next {p p' : Pool} {l : ℕ × Answer} (h : Dead p) (hex : Exclusive p)
    (hnext : p.next l = some p') : Dead p' := by
  obtain ⟨i, hheld, hout⟩ := h
  obtain ⟨j, a⟩ := l
  obtain ⟨w, hmove, ⟨_, hfree, _⟩ | ⟨hop, _⟩ | ⟨hlock, _, rfl⟩⟩ := Pool.next_cases hnext
  · rw [hheld] at hfree
    cases hfree
  · have hj := hex j (inside_of_unlock hop)
    rw [hheld] at hj
    cases hj
    rw [inside_of_unlock hop] at hout
    cases hout
  · refine ⟨i, hheld, ?_⟩
    by_cases hij : i = j
    · subst hij
      rw [Pool.set_worker_self]
      exact outside_of_outside hmove hout hlock
    · rw [Pool.set_worker_of_ne _ hij]
      exact hout

/-- What the turn has written: its packet, unless it is a command. -/
def Wrote (command : Bool) (written pk : List (List Byte)) : Prop :=
  if command then written = [] else ∃ p, written = [p] ∧ pk.getLast? = some p

/-- A turn in its reads, which started at `start`. -/
structure Reading (t : Record) (pk : List (List Byte)) (w : Worker) (k : Kernel) (start : ℕ) :
    Prop where
  kind : (∃ p, t.written = [p] ∧ pk.getLast? = some p ∧ t.ioctls = [] ∧ start = 0) ∨
    (t.written = [] ∧ t.ioctls = [(start : ℤ)])
  seeks : t.seeks = [((content pk).length : ℤ), 0]
  pos : k.fPos sharedFile = (start + t.delivered.length : ℕ)
  le : start + t.delivered.length ≤ (content pk).length
  delivered : t.delivered = ((content pk).drop start).take t.delivered.length
  size : w.size = (content pk).length - t.delivered.length
  sizes : ∀ size ∈ t.sizes, 0 ≤ size
  first : t.sizes = [] ∧ t.delivered = [] ∨ t.sizes.head? = some ((content pk).length : ℤ)

/-- The holder of the mutex at its next call. -/
def InTurn (t : Record) (pk : List (List Byte)) (w : Worker) (k : Kernel) : Prop :=
  match w.pc with
  | .receive => k.dev.lock = false ∧ t = {}
  | .write =>
    k.dev.lock = false ∧ t = {} ∧ newline ∈ w.packet ∧ w.packet.length < BUFFER_SIZE
  | .flush => k.dev.lock = false ∧ ∃ written, Wrote false written pk ∧ t = { written }
  | .sizeEnd command => k.dev.lock = false ∧ ∃ written, Wrote command written pk ∧ t = { written }
  | .sizeSet command => k.dev.lock = false ∧ w.fileEnd = (content pk).length ∧
    ∃ written, Wrote command written pk ∧ t = { written, seeks := [((content pk).length : ℤ)] }
  | .ioctl => k.dev.lock = false ∧ k.fPos sharedFile = 0 ∧ w.size = (content pk).length ∧
    t = { seeks := [((content pk).length : ℤ), 0] }
  | .read => ∃ start, Reading t pk w k start
  | _ => k.dev.lock = false

/-- Nobody has failed inside its loop body so far. -/
structure Alive (ls : List Step) (s : System) : Prop where
  rep : ∃ adds, Represents s.kernel adds (packets ls) []
  good : ∀ p ∈ packets ls, newline ∈ p ∧ p.length < BUFFER_SIZE
  cleared : ∀ i, (s.pool.worker i).pc ∈ [Pc.start, .lock, .receive, .unlock] →
    (s.pool.worker i).rbuffer = []
  free : s.pool.holder = none → s.kernel.dev.lock = false
  holding : ∀ i, s.pool.holder = some i →
    InTurn (turn i ls) (packets ls) (s.pool.worker i) s.kernel

theorem packets_concat (ls : List Step) (l : Step) :
    packets (ls ++ [l]) = packets ls ++ packets [l] := List.filterMap_append ..

theorem ret_of_answerOf {op : Op} {reply : Reply} {r : ℤ} (h : answerOf op reply = some (.ret r))
    (hr : 0 ≤ r) : reply.ret = some r := by
  unfold answerOf at h
  split at h
  · cases h
  · rename_i q size hret
    rw [hret]
    split at h
    · cases h
      exact absurd hr (by decide)
    · split at h
      · rename_i hq
        cases h
        rw [hq]
      · cases h
  · rename_i q hret _
    rw [hret]
    split at h
    · cases h
      exact absurd hr (by decide)
    · cases h
      rfl

theorem bytes_of_answerOf {op : Op} {reply : Reply} {data : List Byte}
    (h : answerOf op reply = some (.bytes data)) :
    ∃ r, reply.ret = some r ∧ 0 < r ∧ reply.data = data := by
  unfold answerOf at h
  split at h
  · cases h
  · rename_i r size hret
    split at h
    · cases h
    · split at h
      · cases h
      · cases h
        exact ⟨r, hret, by omega, rfl⟩
  · cases h

/-- A worker that moves on to where the buffer has to be empty has emptied it. -/
theorem Alive.cleared_set {ls : List Step} {s : System} (h : Alive ls s) {i : ℕ} {w : Worker}
    (hclear : w.pc ∈ [Pc.start, .lock, .receive, .unlock] → w.rbuffer = []) (holder : Option ℕ)
    (j : ℕ) (hj : ((s.pool.set i w holder).worker j).pc ∈ [Pc.start, .lock, .receive, .unlock]) :
    ((s.pool.set i w holder).worker j).rbuffer = [] := by
  by_cases hji : j = i
  · rw [hji, Pool.set_worker_self] at hj ⊢
    exact hclear hj
  · rw [Pool.set_worker_of_ne _ hji] at hj ⊢
    exact h.cleared j hj

/-- The steps of workers outside their loop body: starting, taking the mutex, ending. -/
theorem Alive.outside {ls : List Step} {s t : System} {l : Step} (h : Alive ls s)
    (hnext : s.next l = some t) (hout : (s.pool.worker l.worker).pc.inside = false)
    (hnot : s.pool.holder ≠ some l.worker) : Alive (ls ++ [l]) t := by
  obtain ⟨i, op, a, env, pos⟩ := l
  obtain ⟨pool, kernel⟩ := t
  obtain ⟨hop, _, hpool, _⟩ := System.next_cases hnext
  obtain ⟨w, hmove, hmutex⟩ := Pool.next_cases hpool
  dsimp only at hop hout hnot hpool hmove hmutex
  have hquiet : driverCall op env = none ∧ packets [⟨i, op, a, env, pos⟩] = [] := by
    cases hmove <;> simp_all [Pc.inside, Worker.op] <;> subst hop <;> exact ⟨rfl, rfl⟩
  obtain rfl : kernel = s.kernel := System.next_quiet hnext hquiet.1
  have hpackets : packets (ls ++ [⟨i, op, a, env, pos⟩]) = packets ls := by
    rw [packets_concat, hquiet.2, List.append_nil]
  have hclear : w.pc ∈ [Pc.start, .lock, .receive, .unlock] → w.rbuffer = [] := by
    have hself := h.cleared i
    cases hmove <;> simp_all [Pc.inside]
  rcases hmutex with ⟨hlock, hfree, rfl⟩ | ⟨hunlock, _⟩ | ⟨hlock, _, rfl⟩
  · refine ⟨hpackets ▸ h.rep, hpackets ▸ h.good, h.cleared_set hclear _, by simp, ?_⟩
    intro j hj
    cases hj
    rw [hop] at hlock
    cases hlock
    have hstart : turn i (ls ++ [⟨i, .mutexLock, a, env, pos⟩]) = {} :=
      turn_concat_self ls ⟨i, .mutexLock, a, env, pos⟩
    rw [hstart, Pool.set_worker_self]
    have hpc := Worker.op_eq_mutexLock.mp hop
    cases hmove <;> simp_all [InTurn, h.free hfree]
  · rw [inside_of_unlock hunlock] at hout
    cases hout
  · refine ⟨hpackets ▸ h.rep, hpackets ▸ h.good, h.cleared_set hclear _, h.free, ?_⟩
    intro j hj
    have hji : j ≠ i := by
      rintro rfl
      exact hnot hj
    rw [turn_concat_other _ (Ne.symm hji), hpackets, Pool.set_worker_of_ne _ hji]
    exact h.holding j hj

theorem dead_of_outside {p : Pool} {i : ℕ} {w : Worker} (hi : p.holder = some i)
    (hout : w.pc.inside = false) : Dead (p.set i w p.holder) :=
  ⟨i, hi, by rw [Pool.set_worker_self]; exact hout⟩

/-- The holder moves on without failing. -/
theorem Alive.hold {ls : List Step} {s : System} (h : Alive ls s) {l : Step} {w : Worker}
    {kernel : Kernel} (hi : s.pool.holder = some l.worker)
    (hrep : ∃ adds, Represents kernel adds (packets (ls ++ [l])) [])
    (hgood : ∀ p ∈ packets [l], newline ∈ p ∧ p.length < BUFFER_SIZE)
    (hclear : w.pc ∈ [Pc.start, .lock, .receive, .unlock] → w.rbuffer = [])
    (hturn : InTurn ((turn l.worker ls).add l) (packets (ls ++ [l])) w kernel) :
    Alive (ls ++ [l]) ⟨s.pool.set l.worker w s.pool.holder, kernel⟩ := by
  refine ⟨hrep, ?_, h.cleared_set hclear _, ?_, ?_⟩
  · intro p hp
    rw [packets_concat, List.mem_append] at hp
    rcases hp with hp | hp
    · exact h.good p hp
    · exact hgood p hp
  · intro hnone
    simp only [Pool.set_holder, hi] at hnone
    cases hnone
  · intro j hj
    simp only [Pool.set_holder, hi] at hj
    cases hj
    rw [turn_concat_self, Pool.set_worker_self]
    exact hturn

/-- The same for a step that writes nothing to the device. -/
theorem Alive.hold_same {ls : List Step} {s : System} (h : Alive ls s) {l : Step} {w : Worker}
    {kernel : Kernel} (hi : s.pool.holder = some l.worker) (hpackets : packets [l] = [])
    (hsame : SameData s.kernel kernel)
    (hclear : w.pc ∈ [Pc.start, .lock, .receive, .unlock] → w.rbuffer = [])
    (hturn : InTurn ((turn l.worker ls).add l) (packets ls) w kernel) :
    Alive (ls ++ [l]) ⟨s.pool.set l.worker w s.pool.holder, kernel⟩ := by
  have hkeep : packets (ls ++ [l]) = packets ls := by
    rw [packets_concat, hpackets, List.append_nil]
  obtain ⟨adds, hrep⟩ := h.rep
  refine h.hold hi ⟨adds, ?_⟩ ?_ hclear ?_
  · rw [hkeep]
    exact hrep.congr hsame
  · rw [hpackets]
    simp
  · rw [hkeep]
    exact hturn

section Replies

variable {k : Kernel} {adds : List BufferEntry} {pk : List (List Byte)} {env : Env}

theorem seekEnd_reply (hrep : Represents k adds pk []) (hlen : (content pk).length < 2 ^ 31)
    {r : ℤ} (hans : answerOf (.lseek 0 SEEK_END) (aesdLlseek k sharedFile 0 SEEK_END env).1 =
      some (.ret r)) (hr : 0 ≤ r) :
    r = (content pk).length ∧ (aesdLlseek k sharedFile 0 SEEK_END env).2.dev.lock = false := by
  obtain ⟨hfree, htarget, hkernel⟩ := aesdLlseek_of_nonneg (ret_of_answerOf hans hr) hr
  rw [hkernel, Kernel.setPos_dev]
  refine ⟨?_, hfree⟩
  have hend : seekTarget k sharedFile 0 SEEK_END =
      some (loff (totalSize k.dev.circularBuffer + 0)) := rfl
  rw [hend, totalSize_eq hrep.retains (by omega), add_zero, loff_natCast (by omega)] at htarget
  exact (Option.some.inj htarget).symm

theorem seekSet_reply {r : ℤ}
    (hans : answerOf (.lseek 0 SEEK_SET) (aesdLlseek k sharedFile 0 SEEK_SET env).1 =
      some (.ret r)) (hr : 0 ≤ r) :
    r = 0 ∧ (aesdLlseek k sharedFile 0 SEEK_SET env).2.dev.lock = false ∧
      (aesdLlseek k sharedFile 0 SEEK_SET env).2.fPos sharedFile = 0 := by
  obtain ⟨hfree, htarget, hkernel⟩ := aesdLlseek_of_nonneg (ret_of_answerOf hans hr) hr
  have hset : seekTarget k sharedFile 0 SEEK_SET = some 0 := rfl
  rw [hset] at htarget
  cases htarget
  rw [hkernel, Kernel.setPos_dev, Kernel.setPos_fPos_self]
  exact ⟨rfl, hfree, rfl⟩

/-- A write that is answered with a positive count is the next packet. -/
theorem write_reply (hrep : Represents k adds pk []) (hgood : ∀ p ∈ pk, newline ∈ p)
    {p : List Byte} (hp : newline ∈ p) {r : ℤ}
    (hans : answerOf (.write p) (aesdWrite k sharedFile p env).1 = some (.ret r)) (hr : 0 ≤ r) :
    (aesdWrite k sharedFile p env).2.dev.lock = false ∧
      ∃ adds', Represents (aesdWrite k sharedFile p env).2 adds' (pk ++ [p]) [] := by
  have hret := ret_of_answerOf hans hr
  have hacc : accepted k (.write sharedFile p env) = [p] := by
    rw [accepted_write, hret]
    simp [hr]
  constructor
  · rcases aesdWrite_cases k sharedFile p env with ⟨_, hneg⟩ | ⟨_, _, _, _, _, heq⟩ |
      ⟨_, _, _, _, _, heq⟩
    · have hlt := hneg r hret
      omega
    · rw [heq]
      rfl
    · rw [heq]
      rfl
  · have hgroups := groupWrites_of_newline hgood
    have hgroups' : groupWrites (pk ++ [p]) = (pk ++ [p], []) := by
      apply groupWrites_of_newline
      intro q hq
      rcases List.mem_append.mp hq with hq | hq
      · exact hgood q hq
      · rw [List.mem_singleton.mp hq]
        exact hp
    have hrep' : Represents k adds (groupWrites pk).1 (groupWrites pk).2 := by
      rw [hgroups]
      exact hrep
    obtain ⟨adds', hnext⟩ := hrep'.step (.write sharedFile p env) (Or.inr (by simp [hacc]))
    rw [hacc, hgroups'] at hnext
    exact ⟨adds', hnext⟩

/-- An ioctl leaves the position at the start or moves it into the content. -/
theorem ioctl_reply (hrep : Represents k adds pk []) (hlen : (content pk).length < 2 ^ 31)
    (hpos : k.fPos sharedFile = 0) (env : Env) (pair : AesdSeekto) :
    ∃ start : ℕ, start ≤ (content pk).length ∧
      (aesdIoctl k sharedFile AESDCHAR_IOCSEEKTO pairAddress pair env).2.fPos sharedFile =
        start := by
  rcases aesdIoctl_cases hrep.retains sharedFile pairAddress pair env (by omega) with ⟨hsame, _⟩ |
    ⟨start, hlt, _, _, hkernel⟩
  · exact ⟨0, Nat.zero_le _, by rw [hsame, hpos]; rfl⟩
  · exact ⟨start, hlt.le, by rw [hkernel, Kernel.setPos_fPos_self]⟩

end Replies

namespace Reading

variable {t : Record} {pk : List (List Byte)} {w : Worker} {k : Kernel} {start : ℕ}
  {adds : List BufferEntry} {env : Env}

theorem size_nonneg (h : Reading t pk w k start) : 0 ≤ w.size := by
  have hle := h.le
  rw [h.size]
  omega

theorem sizes_concat (h : Reading t pk w k start) : ∀ size ∈ t.sizes ++ [w.size], 0 ≤ size := by
  intro size hsize
  rcases List.mem_append.mp hsize with hold | hnew
  · exact h.sizes size hold
  · rw [List.mem_singleton.mp hnew]
    exact h.size_nonneg

theorem head_sizes (h : Reading t pk w k start) :
    (t.sizes ++ [w.size]).head? = some ((content pk).length : ℤ) := by
  rcases h.first with ⟨hsizes, hnone⟩ | hhead
  · rw [hsizes, h.size, hnone]
    simp
  · cases hsizes : t.sizes with
    | nil => simp [hsizes] at hhead
    | cons size sizes =>
      rw [hsizes] at hhead
      simpa using hhead

/-- What the driver can answer to a read of the turn. -/
theorem reply (h : Reading t pk w k start) (env : Env) (hrep : Represents k adds pk [])
    (hlen : (content pk).length < 2 ^ 31) :
    (∀ ret, (aesdRead k sharedFile (toSize w.size) env).1.ret = some ret → ret < 0) ∨
    (∃ data, k.dev.lock = false ∧
      aesdRead k sharedFile (toSize w.size) env = (⟨some data.length, [.lock, .unlock], data⟩,
        k.setPos sharedFile (start + t.delivered.length + data.length : ℕ)) ∧
      data = (((content pk).drop start).drop t.delivered.length).take data.length ∧
      start + t.delivered.length + data.length ≤ (content pk).length ∧
      (data = [] → start + t.delivered.length = (content pk).length)) := by
  have hle := h.le
  rcases aesdRead_cases hrep.retains (toSize w.size) env h.pos (by omega) (by omega) with
    ⟨_, hneg⟩ | ⟨data, hfree, heq, hdata, _, hend⟩
  · exact Or.inl hneg
  · right
    have hlength := congrArg List.length hdata
    rw [List.length_take, List.length_drop] at hlength
    refine ⟨data, hfree, ?_, ?_, by omega, ?_⟩
    · rw [heq]
      rfl
    · rw [List.drop_drop]
      exact hdata
    · intro hnil
      rcases hend hnil with hzero | hle'
      · have hsize := toSize_of_nonneg h.size_nonneg (by rw [h.size]; omega)
        rw [hzero, h.size] at hsize
        omega
      · omega

/-- Bytes of a read continue the stretch. -/
theorem bytes (h : Reading t pk w k start) (hrep : Represents k adds pk [])
    (hlen : (content pk).length < 2 ^ 31) {data : List Byte}
    (hans : answerOf (.read w.size) (aesdRead k sharedFile (toSize w.size) env).1 =
      some (.bytes data)) :
    Reading { t with sizes := t.sizes ++ [w.size], delivered := t.delivered ++ data } pk
      (w.concat data) (aesdRead k sharedFile (toSize w.size) env).2 start := by
  obtain ⟨r, hret, hpos, hdata⟩ := bytes_of_answerOf hans
  rcases h.reply env hrep hlen with hneg | ⟨data', _, heq, hstretch, hle, _⟩
  · have hlt := hneg r hret
    omega
  · have hsame : data' = data := by rwa [heq] at hdata
    subst hsame
    have hsize : int32 (w.size - data'.length) = w.size - data'.length := by
      rw [h.size]
      exact int32_of_nonneg (by omega) (by omega)
    refine ⟨h.kind, h.seeks, ?_, ?_, ?_, ?_, ?_, Or.inr h.head_sizes⟩
    · rw [heq, Kernel.setPos_fPos_self, List.length_append, Nat.add_assoc]
    · rw [List.length_append]
      omega
    · rw [List.length_append, List.take_add, ← h.delivered, ← hstretch]
    · show int32 (w.size - data'.length) = (content pk).length - (t.delivered ++ data').length
      rw [hsize, h.size, List.length_append]
      omega
    · exact h.sizes_concat

/-- The read that reports the end completes the snapshot. -/
theorem endOfFile (h : Reading t pk w k start) (hrep : Represents k adds pk [])
    (hlen : (content pk).length < 2 ^ 31)
    (hans : answerOf (.read w.size) (aesdRead k sharedFile (toSize w.size) env).1 =
      some (.ret 0)) :
    k.dev.lock = false ∧ (aesdRead k sharedFile (toSize w.size) env).2.dev.lock = false ∧
      Snapshot { t with sizes := t.sizes ++ [w.size] } pk := by
  have hret := ret_of_answerOf hans le_rfl
  rcases h.reply env hrep hlen with hneg | ⟨data, hfree, heq, _, _, hend⟩
  · exact absurd (hneg 0 hret) (by decide)
  · rw [heq] at hret ⊢
    have hnil : data = [] := by
      have hzero : (data.length : ℤ) = 0 := Option.some.inj hret
      exact List.length_eq_zero_iff.mp (by omega)
    have hall : t.delivered = (content pk).drop start := by
      rw [h.delivered, List.take_of_length_le]
      have hlast := hend hnil
      rw [List.length_drop]
      omega
    refine ⟨hfree, hfree, ?_, ⟨h.seeks, h.head_sizes⟩, ?_, ?_, ?_⟩
    · rcases h.kind with ⟨p, hp, _, hioctls, _⟩ | ⟨hwritten, hioctls⟩
      · exact Or.inl ⟨by simp [hp], hioctls⟩
      · exact Or.inr ⟨hwritten, by simp [hioctls]⟩
    · exact h.sizes_concat
    · intro p hp
      rcases h.kind with ⟨q, hq, hlast, _, hstart⟩ | ⟨hwritten, _⟩
      · simp only [hq, List.mem_singleton] at hp
        rw [hp]
        refine ⟨hlast, ?_⟩
        rw [hall, hstart, List.drop_zero]
      · simp [hwritten] at hp
    · intro pos hpos
      rcases h.kind with ⟨_, _, _, hioctls, _⟩ | ⟨_, hioctls⟩
      · simp [hioctls] at hpos
      · simp only [hioctls, List.mem_singleton] at hpos
        rw [hpos]
        exact ⟨by omega, by simpa using hall⟩

/-- Before the first read. -/
theorem first_read
    (hkind : (∃ p, t.written = [p] ∧ pk.getLast? = some p ∧ t.ioctls = [] ∧ start = 0) ∨
      (t.written = [] ∧ t.ioctls = [(start : ℤ)]))
    (hnone : t.seeks = [((content pk).length : ℤ), 0] ∧ t.sizes = [] ∧ t.delivered = [])
    (hpos : k.fPos sharedFile = start) (hle : start ≤ (content pk).length)
    (hsize : w.size = (content pk).length) : Reading t pk w k start := by
  obtain ⟨hseeks, hsizes, hdelivered⟩ := hnone
  refine ⟨hkind, hseeks, ?_, ?_, ?_, ?_, ?_, Or.inl ⟨hsizes, hdelivered⟩⟩
  · simpa [hdelivered] using hpos
  · simpa [hdelivered] using hle
  · simp [hdelivered]
  · simp [hdelivered, hsize]
  · simp [hsizes]

end Reading

/-- The end of a turn: the mutex of the workers and that of the driver are free. -/
theorem Alive.release {ls : List Step} {s : System} (h : Alive ls s) {l : Step} {w : Worker}
    (hpackets : packets [l] = [])
    (hclear : w.pc ∈ [Pc.start, .lock, .receive, .unlock] → w.rbuffer = [])
    (hfree : s.kernel.dev.lock = false) :
    Alive (ls ++ [l]) ⟨s.pool.set l.worker w none, s.kernel⟩ := by
  have hkeep : packets (ls ++ [l]) = packets ls := by
    rw [packets_concat, hpackets, List.append_nil]
  exact ⟨hkeep ▸ h.rep, hkeep ▸ h.good, h.cleared_set hclear _, fun _ => hfree, by simp⟩

section Branches

variable {ls : List Step} {s : System} {i : ℕ} {env : Env} {pos : ℤ}

/-- The content of the device fits in an `int`. -/
theorem Alive.content_lt (h : Alive ls s) : (content (packets ls)).length < 2 ^ 31 :=
  content_length_lt fun p hp => (h.good p hp).2

/-- What was received is a packet or a command, or the turn ends. -/
theorem Alive.receive (h : Alive ls s) (hi : s.pool.holder = some i) {data past : List Byte}
    (hpc : (s.pool.worker i).pc = .receive) (hdata : data.length < BUFFER_SIZE) :
    Dead (s.pool.set i ((s.pool.worker i).store data past).dispatch s.pool.holder) ∨
      Alive (ls ++ [⟨i, .receive, .recv data past, env, pos⟩])
        ⟨s.pool.set i ((s.pool.worker i).store data past).dispatch s.pool.holder, s.kernel⟩ := by
  have hturn := h.holding i hi
  simp only [InTurn, hpc] at hturn
  have hbuf : (s.pool.worker i).rbuffer = [] := h.cleared i (by simp [hpc])
  have hstring := Worker.store_string hbuf data past
  rw [cstring, if_pos hdata] at hstring
  have hpacket := Worker.store_packet hbuf data past
  unfold Worker.dispatch
  by_cases hn : newline ∈ ((s.pool.worker i).store data past).string
  · right
    have hmem : newline ∈ data := by
      rw [hstring] at hn
      exact (List.takeWhile_prefix _).subset hn
    by_cases hc : COMMAND <+: ((s.pool.worker i).store data past).string
    · apply h.hold_same hi rfl (SameData.refl _) (by simp [hn, hc])
      simp only [hn, hc, if_true, InTurn]
      exact ⟨hturn.1, [], rfl, hturn.2⟩
    · apply h.hold_same hi rfl (SameData.refl _) (by simp [hn, hc])
      simp only [hn, hc, if_true, if_false, InTurn]
      refine ⟨hturn.1, hturn.2, ?_, ?_⟩
      · show newline ∈ ((s.pool.worker i).store data past).packet
        rw [hpacket]
        exact hmem
      · show ((s.pool.worker i).store data past).packet.length < BUFFER_SIZE
        rw [hpacket]
        exact hdata
  · left
    exact dead_of_outside hi (by simp [hn, Pc.inside])

/-- The seek to the end gives the size of the content. -/
theorem Alive.sizeEnd (h : Alive ls s) (hi : s.pool.holder = some i) {command : Bool} {r : ℤ}
    (hpc : (s.pool.worker i).pc = .sizeEnd command)
    (hans : answerOf (.lseek 0 SEEK_END) (aesdLlseek s.kernel sharedFile 0 SEEK_END env).1 =
      some (.ret r)) (hr : 0 ≤ r) :
    Alive (ls ++ [⟨i, .lseek 0 SEEK_END, .ret r, env, pos⟩])
      ⟨s.pool.set i { s.pool.worker i with fileEnd := int32 r, pc := .sizeSet command }
        s.pool.holder, (aesdLlseek s.kernel sharedFile 0 SEEK_END env).2⟩ := by
  have hturn := h.holding i hi
  have hlen := h.content_lt
  obtain ⟨adds, hrep⟩ := h.rep
  simp only [InTurn, hpc] at hturn
  obtain ⟨_, written, hwritten, heq⟩ := hturn
  obtain ⟨rfl, hfree⟩ := seekEnd_reply hrep hlen hans hr
  apply h.hold_same hi rfl (sameData_aesdLlseek ..) (by simp)
  simp only [InTurn]
  refine ⟨hfree, int32_of_nonneg (by omega) (by omega), written, hwritten, ?_⟩
  rw [heq]
  rfl

/-- The size is that of the content; on the write path the reads begin at the
start, on the command path the ioctl comes first. -/
theorem Alive.sizeSet (h : Alive ls s) (hi : s.pool.holder = some i) {command : Bool} {r : ℤ}
    (hpc : (s.pool.worker i).pc = .sizeSet command)
    (hans : answerOf (.lseek 0 SEEK_SET) (aesdLlseek s.kernel sharedFile 0 SEEK_SET env).1 =
      some (.ret r)) (hr : 0 ≤ r) :
    Dead (s.pool.set i ((s.pool.worker i).sized command r) s.pool.holder) ∨
      Alive (ls ++ [⟨i, .lseek 0 SEEK_SET, .ret r, env, pos⟩])
        ⟨s.pool.set i ((s.pool.worker i).sized command r) s.pool.holder,
          (aesdLlseek s.kernel sharedFile 0 SEEK_SET env).2⟩ := by
  have hturn := h.holding i hi
  have hlen := h.content_lt
  simp only [InTurn, hpc] at hturn
  obtain ⟨_, hend, written, hwritten, heq⟩ := hturn
  obtain ⟨rfl, hfree, hstart⟩ := seekSet_reply hans hr
  have hsize : int32 ((s.pool.worker i).fileEnd - int32 0) = (content (packets ls)).length := by
    rw [int32_of_nonneg le_rfl (by decide), sub_zero, hend]
    exact int32_of_nonneg (by omega) (by omega)
  cases command with
  | false =>
    obtain ⟨p, hp, hlast⟩ : ∃ p, written = [p] ∧ (packets ls).getLast? = some p := hwritten
    simp only [Worker.sized, hsize, Bool.false_eq_true, if_false, Worker.startRead]
    by_cases hempty : ((content (packets ls)).length : ℤ) ≤ 0
    · left
      exact dead_of_outside hi (by simp only [if_pos hempty, Pc.inside])
    · right
      rw [if_neg hempty]
      apply h.hold_same hi rfl (sameData_aesdLlseek ..) (by simp)
      simp only [InTurn]
      refine ⟨0, Reading.first_read (Or.inl ⟨p, ?_⟩) ?_ hstart (Nat.zero_le _) rfl⟩
      · rw [heq, hp]
        exact ⟨rfl, hlast, rfl, rfl⟩
      · rw [heq]
        exact ⟨rfl, rfl, rfl⟩
  | true =>
    right
    apply h.hold_same hi rfl (sameData_aesdLlseek ..) (by simp [Worker.sized])
    have hnone : written = [] := hwritten
    simp only [InTurn, Worker.sized, hsize, if_true]
    refine ⟨hfree, hstart, trivial, ?_⟩
    rw [heq, hnone]
    rfl

/-- The reads begin where the ioctl left the position. -/
theorem Alive.ioctl (h : Alive ls s) (hi : s.pool.holder = some i) {r : ℤ}
    (hpc : (s.pool.worker i).pc = .ioctl)
    (hpos : pos = (aesdIoctl s.kernel sharedFile AESDCHAR_IOCSEEKTO pairAddress
      (s.pool.worker i).pair env).2.fPos sharedFile) :
    Dead (s.pool.set i (s.pool.worker i).startRead s.pool.holder) ∨
      Alive (ls ++ [⟨i, .ioctl (s.pool.worker i).pair, .ret r, env, pos⟩])
        ⟨s.pool.set i (s.pool.worker i).startRead s.pool.holder,
          (aesdIoctl s.kernel sharedFile AESDCHAR_IOCSEEKTO pairAddress
            (s.pool.worker i).pair env).2⟩ := by
  have hturn := h.holding i hi
  obtain ⟨adds, hrep⟩ := h.rep
  simp only [InTurn, hpc] at hturn
  obtain ⟨_, hstart, hsize, heq⟩ := hturn
  obtain ⟨start, hle, hmoved⟩ := ioctl_reply hrep h.content_lt hstart env (s.pool.worker i).pair
  unfold Worker.startRead
  by_cases hempty : (s.pool.worker i).size ≤ 0
  · left
    exact dead_of_outside hi (by simp [hempty, Pc.inside])
  · right
    apply h.hold_same hi rfl (sameData_aesdIoctl ..) (by simp [hempty])
    simp only [InTurn, hempty, if_false]
    refine ⟨start, Reading.first_read (Or.inr ?_) ?_ hmoved hle hsize⟩
    · rw [heq]
      refine ⟨rfl, ?_⟩
      rw [← hmoved, ← hpos]
      rfl
    · rw [heq]
      exact ⟨rfl, rfl, rfl⟩

/-- A write that wrote is the next packet of the device. -/
theorem Alive.write (h : Alive ls s) (hi : s.pool.holder = some i) {r : ℤ}
    (hpc : (s.pool.worker i).pc = .write)
    (hans : answerOf (.write (s.pool.worker i).packet)
      (aesdWrite s.kernel sharedFile (s.pool.worker i).packet env).1 = some (.ret r)) :
    Dead (s.pool.set i { s.pool.worker i with pc := if r ≤ 0 then .finish else .flush }
        s.pool.holder) ∨
      Alive (ls ++ [⟨i, .write (s.pool.worker i).packet, .ret r, env, pos⟩])
        ⟨s.pool.set i { s.pool.worker i with pc := if r ≤ 0 then .finish else .flush }
          s.pool.holder,
          (aesdWrite s.kernel sharedFile (s.pool.worker i).packet env).2⟩ := by
  have hturn := h.holding i hi
  obtain ⟨adds, hrep⟩ := h.rep
  simp only [InTurn, hpc] at hturn
  obtain ⟨_, heq, hnew, hfits⟩ := hturn
  by_cases hr : r ≤ 0
  · left
    exact dead_of_outside hi (by simp [hr, Pc.inside])
  · right
    have hr0 : 0 ≤ r := by omega
    have hone : packets [⟨i, .write (s.pool.worker i).packet, .ret r, env, pos⟩] =
        [(s.pool.worker i).packet] := by simp [packets, hr0]
    obtain ⟨hfree, hnext⟩ := write_reply hrep (fun p hp => (h.good p hp).1) hnew hans hr0
    have hall : packets (ls ++ [⟨i, .write (s.pool.worker i).packet, .ret r, env, pos⟩]) =
        packets ls ++ [(s.pool.worker i).packet] := by rw [packets_concat, hone]
    apply h.hold hi
    · rw [hall]
      exact hnext
    · intro p hp
      rw [hone, List.mem_singleton] at hp
      rw [hp]
      exact ⟨hnew, hfits⟩
    · simp [hr]
    · simp only [InTurn, hr, if_false]
      refine ⟨hfree, [(s.pool.worker i).packet], ⟨_, rfl, ?_⟩, ?_⟩
      · rw [hall, List.getLast?_concat]
      · rw [heq]
        simp [Record.add, hr0]

/-- The bytes of a read go on where the last ones ended. -/
theorem Alive.bytes (h : Alive ls s) (hi : s.pool.holder = some i) {data : List Byte}
    (hpc : (s.pool.worker i).pc = .read)
    (hans : answerOf (.read (s.pool.worker i).size)
      (aesdRead s.kernel sharedFile (toSize (s.pool.worker i).size) env).1 = some (.bytes data)) :
    Alive (ls ++ [⟨i, .read (s.pool.worker i).size, .bytes data, env, pos⟩])
      ⟨s.pool.set i ((s.pool.worker i).concat data) s.pool.holder,
        (aesdRead s.kernel sharedFile (toSize (s.pool.worker i).size) env).2⟩ := by
  have hturn := h.holding i hi
  obtain ⟨adds, hrep⟩ := h.rep
  simp only [InTurn, hpc] at hturn
  obtain ⟨start, hreading⟩ := hturn
  have hpc' : ((s.pool.worker i).concat data).pc = .read := hpc
  apply h.hold_same hi rfl (sameData_aesdRead ..) (by simp [hpc'])
  simp only [InTurn, hpc']
  exact ⟨start, hreading.bytes hrep h.content_lt hans⟩

/-- After the end of the file only the send is left. -/
theorem Alive.endOfFile (h : Alive ls s) (hi : s.pool.holder = some i)
    (hpc : (s.pool.worker i).pc = .read)
    (hans : answerOf (.read (s.pool.worker i).size)
      (aesdRead s.kernel sharedFile (toSize (s.pool.worker i).size) env).1 = some (.ret 0)) :
    Alive (ls ++ [⟨i, .read (s.pool.worker i).size, .ret 0, env, pos⟩])
      ⟨s.pool.set i { s.pool.worker i with pc := .send } s.pool.holder,
        (aesdRead s.kernel sharedFile (toSize (s.pool.worker i).size) env).2⟩ := by
  have hturn := h.holding i hi
  obtain ⟨adds, hrep⟩ := h.rep
  simp only [InTurn, hpc] at hturn
  obtain ⟨start, hreading⟩ := hturn
  apply h.hold_same hi rfl (sameData_aesdRead ..) (by simp)
  exact (hreading.endOfFile hrep h.content_lt hans).2.1

end Branches

/-- A step inside the loop body goes on with the turn or ends with a failure. -/
theorem Alive.inside {ls : List Step} {s t : System} {l : Step} (h : Alive ls s)
    (hex : Exclusive s.pool) (hnext : s.next l = some t)
    (hin : (s.pool.worker l.worker).pc.inside = true) : Dead t.pool ∨ Alive (ls ++ [l]) t := by
  have hi : s.pool.holder = some l.worker := hex _ hin
  have hturn := h.holding _ hi
  have hcleared := h.cleared l.worker
  obtain ⟨pool, kernel⟩ := t
  obtain ⟨hop, hperm, hpool, hpos, _⟩ := System.next_cases hnext
  obtain ⟨w, hmove, hmutex⟩ := Pool.next_cases hpool
  obtain ⟨i, op, a, env, pos⟩ := l
  dsimp only at hi hturn hcleared hop hpool hpos hmove hmutex hin
  rcases hmutex with ⟨hlock, _⟩ | ⟨hunlock, rfl⟩ | ⟨hlock, hunlock, rfl⟩
  · rw [outside_at_lock hlock] at hin
    cases hin
  · right
    rw [hop] at hunlock
    cases hunlock
    obtain rfl : kernel = s.kernel := System.next_quiet hnext rfl
    have hfree : s.kernel.dev.lock = false := by
      rcases Worker.op_eq_mutexUnlock.mp hop with hpc | hpc <;> simpa [InTurn, hpc] using hturn
    refine @Alive.release _ _ h ⟨i, .mutexUnlock, a, env, pos⟩ _ rfl ?_ hfree
    intro hw
    rcases Worker.op_eq_mutexUnlock.mp hop with hpc | hpc <;>
      cases hmove <;> simp_all
  · cases hmove with
    | start hpc => simp [hpc, Pc.inside] at hin
    | lock hpc => simp [hpc, Pc.inside] at hin
    | finish hpc => simp [hpc, Pc.inside] at hin
    | ret hpc => simp [hpc, Pc.inside] at hin
    | unlock hpc => exact absurd (Worker.op_eq_mutexUnlock.mpr (Or.inl hpc)) hunlock
    | unlockExit hpc => exact absurd (Worker.op_eq_mutexUnlock.mpr (Or.inr hpc)) hunlock
    | receive hpc =>
      simp only [Worker.op, hpc, Option.some.injEq] at hop
      subst hop
      obtain rfl : kernel = s.kernel := System.next_quiet hnext rfl
      exact h.receive hi hpc (by simpa [Step.permitted] using hperm)
    | close hpc hr =>
      simp only [Worker.op, hpc, Option.some.injEq] at hop
      subst hop
      obtain rfl : kernel = s.kernel := System.next_quiet hnext rfl
      right
      apply h.hold_same hi rfl (SameData.refl _) (by simp)
      simp only [InTurn, hpc] at hturn
      exact hturn.1
    | @sizeEnd command r hpc hr =>
      simp only [Worker.op, hpc, Option.some.injEq] at hop
      subst hop
      have hne : r ≠ -1 := by simpa [Step.permitted] using hperm
      obtain ⟨hans, rfl⟩ : answerOf (.lseek 0 SEEK_END)
          (aesdLlseek s.kernel sharedFile 0 SEEK_END env).1 = some (.ret r) ∧
          kernel = (aesdLlseek s.kernel sharedFile 0 SEEK_END env).2 :=
        System.next_served hnext rfl
      exact Or.inr (h.sizeEnd hi hpc hans (by omega))
    | @sizeSet command r hpc hr =>
      simp only [Worker.op, hpc, Option.some.injEq] at hop
      subst hop
      have hne : r ≠ -1 := by simpa [Step.permitted] using hperm
      obtain ⟨hans, rfl⟩ : answerOf (.lseek 0 SEEK_SET)
          (aesdLlseek s.kernel sharedFile 0 SEEK_SET env).1 = some (.ret r) ∧
          kernel = (aesdLlseek s.kernel sharedFile 0 SEEK_SET env).2 :=
        System.next_served hnext rfl
      exact h.sizeSet hi hpc hans (by omega)
    | ioctl hpc =>
      simp only [Worker.op, hpc, Option.some.injEq] at hop
      subst hop
      obtain rfl : kernel = (aesdIoctl s.kernel sharedFile AESDCHAR_IOCSEEKTO pairAddress
          (s.pool.worker i).pair env).2 := (System.next_served hnext rfl).2
      exact h.ioctl hi hpc hpos
    | @write r hpc =>
      simp only [Worker.op, hpc, Option.some.injEq] at hop
      subst hop
      obtain ⟨hans, rfl⟩ : answerOf (.write (s.pool.worker i).packet)
          (aesdWrite s.kernel sharedFile (s.pool.worker i).packet env).1 = some (.ret r) ∧
          kernel = (aesdWrite s.kernel sharedFile (s.pool.worker i).packet env).2 :=
        System.next_served hnext rfl
      exact h.write hi hpc hans
    | flush hpc hr =>
      simp only [Worker.op, hpc, Option.some.injEq] at hop
      subst hop
      obtain rfl : kernel = s.kernel := System.next_quiet hnext rfl
      right
      apply h.hold_same hi rfl (SameData.refl _) (by simp)
      simp only [InTurn, hpc] at hturn
      exact hturn
    | @bytes data hpc hne hfits =>
      simp only [Worker.op, hpc, Option.some.injEq] at hop
      subst hop
      obtain ⟨hans, rfl⟩ : answerOf (.read (s.pool.worker i).size)
          (aesdRead s.kernel sharedFile (toSize (s.pool.worker i).size) env).1 =
            some (.bytes data) ∧
          kernel = (aesdRead s.kernel sharedFile (toSize (s.pool.worker i).size) env).2 :=
        System.next_served hnext rfl
      exact Or.inr (h.bytes hi hpc hans)
    | endOfFile hpc =>
      simp only [Worker.op, hpc, Option.some.injEq] at hop
      subst hop
      obtain ⟨hans, rfl⟩ : answerOf (.read (s.pool.worker i).size)
          (aesdRead s.kernel sharedFile (toSize (s.pool.worker i).size) env).1 = some (.ret 0) ∧
          kernel = (aesdRead s.kernel sharedFile (toSize (s.pool.worker i).size) env).2 :=
        System.next_served hnext rfl
      exact Or.inr (h.endOfFile hi hpc hans)
    | readError hpc => exact Or.inl (dead_of_outside hi rfl)
    | @send r hpc hr =>
      simp only [Worker.op, hpc, Option.some.injEq] at hop
      subst hop
      obtain rfl : kernel = s.kernel := System.next_quiet hnext rfl
      simp only [InTurn, hpc] at hturn
      by_cases hpos : r ≤ 0
      · left
        rw [if_pos hpos]
        exact dead_of_outside hi rfl
      · right
        rw [if_neg hpos]
        exact h.hold_same hi rfl (SameData.refl _) (fun _ => rfl) hturn

theorem alive_init (pair : ℕ → AesdSeekto) : Alive [] (System.init pair) where
  rep := ⟨[], represents_init⟩
  good := by simp [packets]
  cleared _ _ := rfl
  free _ := rfl
  holding i hi := by cases hi

/-- Every run is going on as it should or has stopped with the mutex held. -/
theorem alive_or_dead {pair : ℕ → AesdSeekto} {ls : List Step} {s : System}
    (hrun : exec System.next (System.init pair) ls = some s) : Dead s.pool ∨ Alive ls s := by
  have hstep : ∀ (ls : List Step) (s : System) (l : Step) (t : System),
      (Exclusive s.pool ∧ (Dead s.pool ∨ Alive ls s)) → s.next l = some t →
      (Exclusive t.pool ∧ (Dead t.pool ∨ Alive (ls ++ [l]) t)) := by
    rintro ls s l t ⟨hex, hs⟩ hnext
    obtain ⟨_, _, hpool, _⟩ := System.next_cases hnext
    refine ⟨hex.next hpool, ?_⟩
    rcases hs with hdead | halive
    · exact Or.inl (hdead.next hex hpool)
    · cases hin : (s.pool.worker l.worker).pc.inside with
      | true => exact halive.inside hex hnext hin
      | false =>
        by_cases hholds : s.pool.holder = some l.worker
        · have hdead : Dead s.pool := ⟨l.worker, hholds, hin⟩
          exact Or.inl (hdead.next hex hpool)
        · exact Or.inr (halive.outside hnext hin hholds)
  exact (@exec_history _ _ _ (fun ls s => Exclusive s.pool ∧ (Dead s.pool ∨ Alive ls s)) _
    ⟨exclusive_init pair, Or.inr (alive_init pair)⟩ hstep _ _ hrun).2

/-- A read that reports the end of the device completes the snapshot of its turn. -/
theorem snapshot_of_read {pair : ℕ → AesdSeekto} {ls : List Step} {l : Step} {s t : System}
    (hrun : exec System.next (System.init pair) ls = some s) (hnext : s.next l = some t)
    {size : ℤ} (hread : l.op = .read size) (hend : l.answer = .ret 0) :
    Snapshot (turn l.worker (ls ++ [l])) (packets ls) := by
  obtain ⟨hop, _, _, _, hkernel⟩ := System.next_cases hnext
  rw [hread] at hop hkernel
  have hpc : (s.pool.worker l.worker).pc = .read := by
    cases hpc : (s.pool.worker l.worker).pc <;> simp [Worker.op, hpc] at hop ⊢
  have hsize : (s.pool.worker l.worker).size = size := by simpa [Worker.op, hpc] using hop
  have hheld := exclusive_run hrun l.worker (by rw [hpc]; rfl)
  have halive : Alive ls s := by
    rcases alive_or_dead hrun with ⟨i, hi, hout⟩ | halive
    · rw [hheld] at hi
      cases hi
      rw [hpc] at hout
      cases hout
    · exact halive
  obtain ⟨adds, hrep⟩ := halive.rep
  have hturn := halive.holding _ hheld
  simp only [InTurn, hpc] at hturn
  obtain ⟨start, hreading⟩ := hturn
  have hans : answerOf (.read size) (aesdRead s.kernel sharedFile (toSize size) l.env).1 =
      some (.ret 0) := by
    rw [hend] at hkernel
    have hk := hkernel
    simp only [driverCall, perform, reduceCtorEq, false_and, Option.some.injEq, exists_eq_left',
      false_or] at hk
    exact hk.1
  rw [← hsize] at hans
  have hsnap := (hreading.endOfFile hrep
    (content_length_lt fun p hp => (halive.good p hp).2) hans).2.2
  have hadd : turn l.worker (ls ++ [l]) =
      { turn l.worker ls with
        sizes := (turn l.worker ls).sizes ++ [(s.pool.worker l.worker).size] } := by
    rw [turn_concat_self, Record.add, hread, hend, hsize]
  rw [hadd]
  exact hsnap

/-- In every run, a turn is alone on the device, and each turn that reads to the
end has seen the content as it was after its own packet. -/
theorem turns_are_snapshots (pair : ℕ → AesdSeekto) (ls : List Step) (s : System)
    (hrun : exec System.next (System.init pair) ls = some s) :
    NotInterleaved ls ∧
      ∀ pre l post, ls = pre ++ l :: post → (∃ size, l.op = .read size) → l.answer = .ret 0 →
        Snapshot (turn l.worker (pre ++ [l])) (packets pre) := by
  refine ⟨notInterleaved hrun, ?_⟩
  rintro pre l post rfl ⟨size, hread⟩ hend
  obtain ⟨u, hpre, hrest⟩ := exec_append_eq_some.mp hrun
  obtain ⟨v, hnext, _⟩ := exec_cons_eq_some.mp hrest
  exact snapshot_of_read hpre hnext hread hend

/-- One worker, one packet. -/
def onePacket : List Step :=
  [{ worker := 0, op := .setComplete false, answer := .ret 0, pos := 0 },
   { worker := 0, op := .mutexLock, answer := .ret 0, pos := 0 },
   { worker := 0, op := .receive, answer := .recv [97, 10] [], pos := 0 },
   { worker := 0, op := .write [97, 10], answer := .ret 2, pos := 2 },
   { worker := 0, op := .flush, answer := .ret 0, pos := 2 },
   { worker := 0, op := .lseek 0 SEEK_END, answer := .ret 2, pos := 2 },
   { worker := 0, op := .lseek 0 SEEK_SET, answer := .ret 0, pos := 0 },
   { worker := 0, op := .read 2, answer := .bytes [97, 10], pos := 2 },
   { worker := 0, op := .read 0, answer := .ret 0, pos := 2 }]

/-- A second worker starts meanwhile, and has the next turn. -/
def twoWorkers : List Step :=
  onePacket ++
    [{ worker := 1, op := .setComplete false, answer := .ret 0, pos := 2 },
     { worker := 0, op := .send [97, 10], answer := .ret 2, pos := 2 },
     { worker := 0, op := .mutexUnlock, answer := .ret 0, pos := 2 },
     { worker := 1, op := .mutexLock, answer := .ret 0, pos := 2 },
     { worker := 1, op := .receive, answer := .recv [98, 10] [], pos := 2 },
     { worker := 1, op := .write [98, 10], answer := .ret 2, pos := 4 },
     { worker := 1, op := .flush, answer := .ret 0, pos := 4 },
     { worker := 1, op := .lseek 0 SEEK_END, answer := .ret 4, pos := 4 },
     { worker := 1, op := .lseek 0 SEEK_SET, answer := .ret 0, pos := 0 },
     { worker := 1, op := .read 4, answer := .bytes [97, 10], pos := 2 },
     { worker := 1, op := .read 2, answer := .bytes [98, 10], pos := 4 },
     { worker := 1, op := .read 0, answer := .ret 0, pos := 4 }]

/-- The snapshots of both turns. -/
theorem snapshots_of_two_workers :
    Snapshot { written := [[97, 10]], seeks := [2, 0], sizes := [2, 0], delivered := [97, 10] }
        [[97, 10]] ∧
      Snapshot { written := [[98, 10]], seeks := [4, 0], sizes := [4, 2, 0]
                 delivered := [97, 10, 98, 10] } [[97, 10], [98, 10]] := by
  obtain ⟨s, hs⟩ := Option.isSome_iff_exists.mp
    (by decide : (exec System.next (System.init fun _ => ⟨0, 0⟩) twoWorkers).isSome = true)
  have hsnapshots := (turns_are_snapshots _ _ s hs).2
  exact ⟨hsnapshots (twoWorkers.take 8) { worker := 0, op := .read 0, answer := .ret 0, pos := 2 }
      (twoWorkers.drop 9) rfl ⟨0, rfl⟩ rfl,
    hsnapshots (twoWorkers.take 20) { worker := 1, op := .read 0, answer := .ret 0, pos := 4 } []
      rfl ⟨0, rfl⟩ rfl⟩

end Aesd.TurnSnapshot
