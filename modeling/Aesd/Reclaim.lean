import Aesd.Shutdown

/-!
What becomes of a finished connection. `check_for_completed_threads` joins its
thread and clears the completion flag, and neither closes nor frees anything;
`process_kill` closes and frees what it finds with the flag set. A connection
that no sweep has seen finished, and that finishes before the walk comes to its
node, is given back in full.
-/

namespace Aesd.Reclaim

open CharDriver EchoWorker WorkerPool ServerMain ThreadList Shutdown Runs

/-- Given back once. -/
def returned : Resource := { taken := true, released := 1 }

structure Reclaimed (s : Server) (k : ℕ) : Prop where
  unlisted : k ∉ s.head
  joined : (s.conn k).joins = 1
  socket : (s.conn k).socket = returned
  threadData : (s.conn k).threadData = returned
  ptid : (s.conn k).ptid = returned
  node : (s.conn k).node = returned

/-- After `param->thread_complete_status = true`. -/
def atEnd : Pc → Bool
  | .ret | .done => true
  | _ => false

def completed (w : Worker) : Bool := atEnd w.pc

/-- When a sweep is over, every thread that was joined is reclaimed; when
`process_kill` returns, every worker that has completed is. -/
def Reclaims (s : Server) : Label → Prop
  | .main _ =>
    match s.pc with
    | .sweep [] => ∀ k, (s.conn k).started = true → 0 < (s.conn k).joins → Reclaimed s k
    | .killMutex =>
      ∀ k, (s.conn k).started = true → completed (s.pool.worker k) = true → Reclaimed s k
    | _ => True
  | _ => True

/-- No sweep finds the flag of a thread set, and no thread sets its flag when
the walk of `process_kill` is already behind its node. -/
def completesInTime (s : Server) : Label → Bool
  | .main _ =>
    match s.pc with
    | .sweep (k :: _) => !((s.conn k).started && (s.conn k).complete)
    | _ => true
  | .worker k _ =>
    !((s.pool.worker k).pc == .finish && killing s.pc && s.pc != .killed &&
      decide (k ∉ remaining s.pc))
  | .signal => true

/-- `process_kill` has returned, or the process is gone. -/
def gone : MainPc → Bool
  | .killed | .exited => true
  | _ => false

/-- The connection that is being set up. -/
def settingUp : MainPc → Option ℕ
  | .openStream k | .dataInit k | .idInit k | .addThread k | .createThread k => some k
  | _ => none

/-- What is known about every connection while no sweep has joined a thread. -/
structure Accounted (s : Server) : Prop where
  unstarted : ∀ k, (s.conn k).started = false →
    (s.pool.worker k).pc = .start ∧ (s.conn k).complete = false
  flag : ∀ k, (s.conn k).started = true →
    ((s.conn k).complete = true ↔ completed (s.pool.worker k) = true)
  listed : ∀ k, (s.conn k).started = true → k ∈ s.head ∨ Reclaimed s k
  fresh : ∀ k, settingUp s.pc = some k → (s.conn k).joins = 0
  unjoined : ∀ k ∈ s.head, (s.conn k).started = true →
    (s.conn k).joins = 0 ∨ ∃ rest, s.pc = .killReclaim k rest
  sweeping : ∀ k rest, s.pc = .sweepJoin k rest → (s.conn k).started = false
  reclaiming : ∀ k rest, s.pc = .killReclaim k rest → (s.conn k).started = true →
    (s.conn k).joins = 1
  passed : killing s.pc = true → ∀ k, (s.conn k).started = true →
    completed (s.pool.worker k) = true → Reclaimed s k ∨ k ∈ remaining s.pc

theorem accounted_init (pair : ℕ → AesdSeekto) : Accounted (Server.init pair) where
  unstarted k _ := ⟨rfl, rfl⟩
  flag k hk := by simp [Server.init] at hk
  listed k hk := by simp [Server.init] at hk
  fresh k hk := by simp [Server.init, settingUp] at hk
  unjoined k hk := by simp [Server.init] at hk
  sweeping k rest hk := by simp [Server.init] at hk
  reclaiming k rest hk := by simp [Server.init] at hk
  passed hk := by simp [Server.init, killing] at hk

/-- What a reclaimed connection is does not depend on its flag. -/
theorem Reclaimed.congr {s t : Server} {k : ℕ} (h : Reclaimed s k) (hhead : k ∉ t.head)
    (hconn : ∃ status, t.conn k = { s.conn k with complete := status }) : Reclaimed t k := by
  obtain ⟨status, hc⟩ := hconn
  exact {
    unlisted := hhead
    joined := by rw [hc]; exact h.joined
    socket := by rw [hc]; exact h.socket
    threadData := by rw [hc]; exact h.threadData
    ptid := by rw [hc]; exact h.ptid
    node := by rw [hc]; exact h.node }

/-- What happens to a listed connection leaves the reclaimed ones as they are. -/
theorem Reclaimed.of_listed {s t : Server} {j k : ℕ} (h : Reclaimed s j) (hin : k ∈ s.head)
    (hhead : t.head ⊆ s.head) (hconn : ∀ i, i ≠ k → t.conn i = s.conn i) : Reclaimed t j := by
  have hjk : j ≠ k := by
    intro heq
    exact h.unlisted (heq ▸ hin)
  exact h.congr (fun hj => h.unlisted (hhead hj)) ⟨(s.conn j).complete, hconn j hjk⟩

theorem completed_moves {w w' : Worker} {a : Answer} (h : w.Moves a w') :
    completed w' = true ↔ completed w = true ∨ w.pc = .finish := by
  have hends : ∀ p : Pc, ∀ q ∈ p.successors, atEnd q = true ↔ atEnd p = true ∨ p = .finish := by
    intro p
    cases p with
    | sizeSet command => cases command <;> simp [Pc.successors, atEnd]
    | _ => simp [Pc.successors, atEnd]
  exact hends w.pc w'.pc h.pc_mem

/-- A joined connection that `process_kill` reclaims is reclaimed. -/
theorem reclaimed_self {s : Server} (htracked : Tracked s) {k : ℕ} (hin : k ∈ s.head)
    (hstarted : (s.conn k).started = true) (hjoins : (s.conn k).joins = 1) (pc : MainPc) :
    Reclaimed ((s.reclaim k).goto pc) k := by
  have hheld := htracked.owned k hin hstarted
  exact {
    unlisted := fun hk => (htracked.nodup.mem_erase_iff.mp hk).1 rfl
    joined := by simpa using hjoins
    socket := by simp [hheld.socket, Resource.free, Resource.held, returned]
    threadData := by simp [hheld.threadData, Resource.free, Resource.held, returned]
    ptid := by simp [hheld.ptid, Resource.free, Resource.held, returned]
    node := by simp [hheld.node, Resource.free, Resource.held, returned] }

/-- The flag that the next call of worker `k` leaves. -/
theorem complete_noteComplete {s : Server} {k : ℕ}
    (hflag : (s.conn k).complete = true ↔ completed (s.pool.worker k) = true) :
    ((s.noteComplete k).conn k).complete = true ↔
      completed (s.pool.worker k) = true ∨ (s.pool.worker k).pc = .finish := by
  unfold Server.noteComplete
  cases hpc : (s.pool.worker k).pc <;> simp_all [Worker.op, completed, atEnd]

namespace Accounted

variable {s t : Server}

/-- The places between which a step neither starts nor reclaims a connection. -/
structure Quiet (s : Server) (pc : MainPc) : Prop where
  source : ∀ k rest, s.pc ≠ .killReclaim k rest
  target : ∀ k rest, pc ≠ .killReclaim k rest
  sweeping : ∀ k rest, pc = .sweepJoin k rest → (s.conn k).started = false
  passed : killing pc = true → ∀ k, (s.conn k).started = true →
    completed (s.pool.worker k) = true → Reclaimed s k ∨ k ∈ remaining pc

/-- A step that changes only connections without a thread. -/
theorem keep (h : Accounted s) (hquiet : Quiet s t.pc) (hpool : t.pool = s.pool)
    (hhead : ∀ k, (s.conn k).started = true → (k ∈ t.head ↔ k ∈ s.head))
    (hstarted : ∀ k, (t.conn k).started = (s.conn k).started)
    (hconn : ∀ k, (s.conn k).started = true → t.conn k = s.conn k)
    (hcomplete : ∀ k, (s.conn k).started = false → (t.conn k).complete = false)
    (hfresh : ∀ k, settingUp t.pc = some k → (t.conn k).joins = 0) : Accounted t := by
  have hreclaimed : ∀ k, (s.conn k).started = true → Reclaimed s k → Reclaimed t k :=
    fun k hk hr => hr.congr (fun hin => hr.unlisted ((hhead k hk).mp hin)) ⟨_, hconn k hk⟩
  exact {
    unstarted := fun k hk => by
      rw [hstarted] at hk
      rw [hpool]
      exact ⟨(h.unstarted k hk).1, hcomplete k hk⟩
    flag := fun k hk => by
      rw [hstarted] at hk
      rw [hpool, hconn k hk]
      exact h.flag k hk
    listed := fun k hk => by
      rw [hstarted] at hk
      exact (h.listed k hk).imp (hhead k hk).mpr (hreclaimed k hk)
    fresh := hfresh
    unjoined := fun k hin hk => by
      rw [hstarted] at hk
      rw [hconn k hk]
      rcases h.unjoined k ((hhead k hk).mp hin) hk with h0 | ⟨rest, hpc⟩
      · exact Or.inl h0
      · exact absurd hpc (hquiet.source k rest)
    sweeping := fun k rest hpc => by
      rw [hstarted]
      exact hquiet.sweeping k rest hpc
    reclaiming := fun k rest hpc => absurd hpc (hquiet.target k rest)
    passed := fun hkilling k hk hcompleted => by
      rw [hstarted] at hk
      rw [hpool] at hcompleted
      exact (hquiet.passed hkilling k hk hcompleted).imp_left (hreclaimed k hk) }

/-- Going on to a place where nothing is joined or reclaimed. -/
theorem Quiet.plain {pc : MainPc} (hsource : ∀ k rest, s.pc ≠ .killReclaim k rest)
    (hkilling : killing pc = false) (hsweep : ∀ k rest, pc ≠ .sweepJoin k rest) : Quiet s pc where
  source := hsource
  target k rest hpc := by simp [hpc, killing] at hkilling
  sweeping k rest hpc := absurd hpc (hsweep k rest)
  passed hk := by simp [hkilling] at hk

/-- A step that leaves the connections and the list as they are. -/
theorem same (h : Accounted s) (hquiet : Quiet s t.pc) (hpool : t.pool = s.pool)
    (hhead : t.head = s.head) (hconn : t.conn = s.conn)
    (hfresh : ∀ k, settingUp t.pc = some k → settingUp s.pc = some k) : Accounted t :=
  h.keep hquiet hpool (fun k _ => by rw [hhead]) (fun k => by rw [hconn]) (fun k _ => by rw [hconn])
    (fun k hk => by rw [hconn]; exact (h.unstarted k hk).2)
    (fun k hk => by rw [hconn]; exact h.fresh k (hfresh k hk))

/-- A step that changes one connection without a thread. -/
theorem setConn (h : Accounted s) {k : ℕ} {c : Conn} {pc : MainPc}
    (hquiet : Quiet s pc) (hold : (s.conn k).started = false) (hstarted : c.started = false)
    (hcomplete : c.complete = false) (hfresh : ∀ j, settingUp pc = some j → j = k ∧ c.joins = 0) :
    Accounted ((s.setConn k c).goto pc) := by
  refine h.keep hquiet rfl (fun _ _ => Iff.rfl) (fun j => ?_) (fun j hj => ?_) (fun j hj => ?_)
    (fun j hj => ?_)
  · by_cases hjk : j = k <;> simp_all
  · have hjk : j ≠ k := by
      rintro rfl
      simp [hold] at hj
    simp [hjk]
  · by_cases hjk : j = k
    · simpa [hjk] using hcomplete
    · simpa [hjk] using (h.unstarted j hj).2
  · obtain ⟨rfl, hjoins⟩ := hfresh j hj
    simpa using hjoins

theorem accept (h : Accounted s) (htracked : Tracked s) (hpc : s.pc = .incoming) :
    Accounted (s.accept.goto (.openStream s.accepted)) := by
  obtain ⟨_, hfresh⟩ := htracked.fresh
  refine h.keep (Quiet.plain (by simp [hpc]) rfl (by simp)) rfl (fun _ _ => Iff.rfl) (fun j => ?_)
    (fun j hj => ?_) (fun j hj => ?_) (fun j hj => ?_)
  · by_cases hj : j = s.accepted <;> simp_all
  · have hne : j ≠ s.accepted := by
      rintro rfl
      simp [hfresh] at hj
    simp [hne]
  · by_cases hne : j = s.accepted
    · simp [hne]
    · simpa [hne] using (h.unstarted j hj).2
  · have hne : s.accepted = j := by simpa [settingUp] using hj
    simp [hne]

theorem addThread (h : Accounted s) {k : ℕ} (hpc : s.pc = .addThread k)
    (hstarted : (s.conn k).started = false) :
    Accounted ((s.addThreadToList k).goto (.createThread k)) := by
  have hother : ∀ j, (s.conn j).started = true → j ≠ k := by
    rintro j hj rfl
    simp [hstarted] at hj
  refine h.keep (Quiet.plain (by simp [hpc]) rfl (by simp)) rfl (fun j hj => ?_) (fun j => ?_)
    (fun j hj => ?_) (fun j hj => ?_) (fun j hj => ?_)
  · simp [Server.addThreadToList, hother j hj]
  · by_cases hjk : j = k <;> simp_all
  · simp [hother j hj]
  · have hcomplete := (h.unstarted j hj).2
    by_cases hjk : j = k <;> simp_all
  · obtain rfl : k = j := by simpa [settingUp] using hj
    simpa using h.fresh k (by simp [hpc, settingUp])

/-- A thread that is created has not set its flag. -/
theorem createThread (h : Accounted s) {k : ℕ} (hpc : s.pc = .createThread k) (hin : k ∈ s.head)
    (hstarted : (s.conn k).started = false) :
    Accounted ((s.setConn k { s.conn k with started := true }).goto (.checkSignal false)) := by
  obtain ⟨hstart, hcomplete⟩ := h.unstarted k hstarted
  have hjoins := h.fresh k (by simp [hpc, settingUp])
  exact {
    unstarted := fun j hj => by
      have hjk : j ≠ k := by
        rintro rfl
        simp at hj
      simpa [hjk] using h.unstarted j (by simpa [hjk] using hj)
    flag := fun j hj => by
      by_cases hjk : j = k
      · simp [hjk, hcomplete, completed, hstart, atEnd]
      · simpa [hjk] using h.flag j (by simpa [hjk] using hj)
    listed := fun j hj => by
      by_cases hjk : j = k
      · exact Or.inl (hjk ▸ hin)
      · exact (h.listed j (by simpa [hjk] using hj)).imp_right
          fun hr => hr.of_listed hin (List.Subset.refl _) fun i hi => by simp [hi]
    fresh := fun j hj => by simp [settingUp] at hj
    unjoined := fun j hjin hj => by
      by_cases hjk : j = k
      · simp [hjk, hjoins]
      · simpa [hjk, hpc] using h.unjoined j hjin (by simpa [hjk] using hj)
    sweeping := fun j rest hj => by simp at hj
    reclaiming := fun j rest hj => by simp at hj
    passed := fun hkilling => by simp [killing] at hkilling }

/-- The walk of `process_kill` waits for a thread with its flag set. -/
theorem killJoin (h : Accounted s) {k : ℕ} {rest : List ℕ} (hpc : s.pc = .killJoin k rest)
    (hin : k ∈ s.head) :
    Accounted ((s.setConn k { s.conn k with
      joins := (s.conn k).joins + 1 }).goto (.killReclaim k rest)) := by
  have hstarted : ∀ j, ((s.setConn k { s.conn k with
      joins := (s.conn k).joins + 1 }).conn j).started = (s.conn j).started := by
    intro j
    by_cases hjk : j = k <;> simp [hjk]
  have hreclaimed : ∀ j, Reclaimed s j → Reclaimed ((s.setConn k { s.conn k with
      joins := (s.conn k).joins + 1 }).goto (.killReclaim k rest)) j :=
    fun j hr => hr.of_listed hin (List.Subset.refl _) fun i hi => by simp [hi]
  exact {
    unstarted := fun j hj => by
      have hunstarted := h.unstarted j ((hstarted j).symm.trans hj)
      by_cases hjk : j = k <;> simp_all
    flag := fun j hj => by
      have hflag := h.flag j ((hstarted j).symm.trans hj)
      by_cases hjk : j = k <;> simp_all
    listed := fun j hj => (h.listed j ((hstarted j).symm.trans hj)).imp_right (hreclaimed j)
    fresh := fun j hj => by simp [settingUp] at hj
    unjoined := fun j hjin hj => by
      by_cases hjk : j = k
      · exact Or.inr ⟨rest, by simp [hjk]⟩
      · rcases h.unjoined j hjin ((hstarted j).symm.trans hj) with h0 | ⟨rest', hreclaim⟩
        · exact Or.inl (by simpa [hjk] using h0)
        · simp [hpc] at hreclaim
    sweeping := fun j rest hj => by simp at hj
    reclaiming := fun j rest' hj hjs => by
      obtain ⟨rfl, -⟩ : k = j ∧ rest = rest' := by simpa using hj
      rcases h.unjoined k hin ((hstarted k).symm.trans hjs) with h0 | ⟨rest', hreclaim⟩
      · simp [h0]
      · simp [hpc] at hreclaim
    passed := fun _ j hj hcompleted => by
      have hpassed := h.passed (by simp [hpc, killing]) j ((hstarted j).symm.trans hj) hcompleted
      simp only [hpc, remaining] at hpassed
      exact hpassed.imp_left (hreclaimed j) }

/-- The walk of `process_kill` gives back all that the connection has. -/
theorem reclaim (h : Accounted s) (htracked : Tracked s) {k : ℕ} {rest : List ℕ}
    (hpc : s.pc = .killReclaim k rest) (hin : k ∈ s.head) :
    Accounted ((s.reclaim k).goto (.killWalk rest)) := by
  have hstarted : ∀ j, ((s.reclaim k).conn j).started = (s.conn j).started := by
    intro j
    by_cases hjk : j = k <;> simp [hjk]
  have hself : (s.conn k).started = true → Reclaimed ((s.reclaim k).goto (.killWalk rest)) k :=
    fun hk => reclaimed_self htracked hin hk (h.reclaiming k rest hpc hk) _
  have hreclaimed : ∀ j, Reclaimed s j → Reclaimed ((s.reclaim k).goto (.killWalk rest)) j :=
    fun j hr => hr.of_listed hin (fun _ hj => List.mem_of_mem_erase hj) fun i hi => by simp [hi]
  exact {
    unstarted := fun j hj => by
      have hunstarted := h.unstarted j ((hstarted j).symm.trans hj)
      by_cases hjk : j = k <;> simp_all [Server.reclaim]
    flag := fun j hj => by
      have hflag := h.flag j ((hstarted j).symm.trans hj)
      by_cases hjk : j = k <;> simp_all [Server.reclaim]
    listed := fun j hj => by
      have hjs := (hstarted j).symm.trans hj
      by_cases hjk : j = k
      · subst hjk
        exact Or.inr (hself hjs)
      · exact (h.listed j hjs).imp (List.mem_erase_of_ne hjk).mpr (hreclaimed j)
    fresh := fun j hj => by simp [settingUp] at hj
    unjoined := fun j hjin hj => by
      obtain ⟨hjk, hjin⟩ := htracked.nodup.mem_erase_iff.mp hjin
      rcases h.unjoined j hjin ((hstarted j).symm.trans hj) with h0 | ⟨rest', hreclaim⟩
      · exact Or.inl (by simpa [hjk] using h0)
      · rw [hpc] at hreclaim
        cases hreclaim
        exact absurd rfl hjk
    sweeping := fun j rest hj => by simp at hj
    reclaiming := fun j rest' hj => by simp at hj
    passed := fun _ j hj hcompleted => by
      have hjs := (hstarted j).symm.trans hj
      have hpassed := h.passed (by simp [hpc, killing]) j hjs hcompleted
      simp only [hpc, remaining] at hpassed
      rcases hpassed with hr | hjin
      · exact Or.inl (hreclaimed j hr)
      · rcases List.mem_cons.mp hjin with rfl | hjin
        · exact Or.inl (hself hjs)
        · exact Or.inr hjin }

theorem moves (h : Accounted s) (htracked : Tracked s) {e : Event} (hmove : s.Moves e t)
    (htime : completesInTime s (.main e) = true) (hgone : gone t.pc = false) : Accounted t := by
  have hupcoming := htracked.upcoming
  cases hmove with
  | accepted hpc => exact h.accept htracked hpc
  | opened hpc =>
    exact h.same (Quiet.plain (by simp [hpc]) rfl (by simp)) rfl rfl rfl (by simp [hpc, settingUp])
  | @dataInit k hpc =>
    have hstarted := (htracked.atDataInit hpc).unstarted
    refine h.setConn (Quiet.plain (by simp [hpc]) rfl (by simp)) hstarted hstarted
      (h.unstarted k hstarted).2 fun j hj => ?_
    exact ⟨by simpa [settingUp] using hj.symm, h.fresh k (by simp [hpc, settingUp])⟩
  | @idInit k hpc =>
    have hstarted := (htracked.atIdInit hpc).1.unstarted
    refine h.setConn (Quiet.plain (by simp [hpc]) rfl (by simp)) hstarted hstarted rfl
      fun j hj => ?_
    exact ⟨by simpa [settingUp] using hj.symm, h.fresh k (by simp [hpc, settingUp])⟩
  | @idInitFails k hpc =>
    have hstarted := (htracked.atIdInit hpc).1.unstarted
    exact h.setConn (Quiet.plain (by simp [hpc]) rfl (by simp)) hstarted hstarted
      (h.unstarted k hstarted).2 (by simp [settingUp])
  | @createThreadFails k hpc =>
    obtain ⟨_, _, hstarted, _⟩ := htracked.atCreateThread hpc
    exact h.setConn (Quiet.plain (by simp [hpc]) rfl (by simp)) hstarted hstarted
      (h.unstarted k hstarted).2 (by simp [settingUp])
  | addThread hpc => exact h.addThread hpc (htracked.atAddThread hpc).1.unstarted
  | createThread hpc =>
    obtain ⟨_, hin, hstarted, _⟩ := htracked.atCreateThread hpc
    exact h.createThread hpc hin hstarted
  | kill hpc =>
    refine h.same ⟨by simp [hpc], by simp, by simp, fun _ k hk _ => ?_⟩ rfl rfl rfl
      (by simp [settingUp])
    exact (h.listed k hk).symm
  | idle hpc =>
    exact h.same (Quiet.plain (by simp [hpc]) rfl (by simp)) (by simp) (by simp)
      (by ext; simp) (by simp [settingUp])
  | @sweepComplete e k rest hpc hstatus =>
    refine h.same ⟨by simp [hpc], by simp, fun j rest' hj => ?_, by simp [killing]⟩ rfl rfl rfl
      (by simp [settingUp])
    obtain ⟨rfl, -⟩ : k = j ∧ rest = rest' := by simpa using hj
    by_contra hstarted
    have hs : (s.conn k).started = true := by simpa using hstarted
    have hin : k ∈ s.head := hupcoming.subset (by simp [hpc, remaining])
    have hflag := status_of_started htracked hin hs hstatus
    simp [completesInTime, hpc, hs, hflag] at htime
  | @sweepJoin k rest hpc hjoin =>
    have hstarted := h.sweeping k rest hpc
    exact h.setConn (Quiet.plain (by simp [hpc]) rfl (by simp)) hstarted hstarted rfl
      (by simp [settingUp])
  | walked hpc | killSocket hpc =>
    refine h.same ⟨by simp [hpc], by simp, by simp, fun _ k hk hcompleted => ?_⟩ rfl rfl rfl
      (by simp [settingUp])
    simpa [hpc, remaining] using h.passed (by simp [hpc, killing]) k hk hcompleted
  | killStream hpc =>
    refine h.same ⟨by simp [hpc], by simp, by simp, fun _ k hk hcompleted => ?_⟩ (by simp) (by simp)
      (by ext; simp) (by simp [settingUp])
    simpa [hpc, remaining] using h.passed (by simp [hpc, killing]) k hk hcompleted
  | walkComplete hpc =>
    refine h.same ⟨by simp [hpc], by simp, by simp, fun _ k hk hcompleted => ?_⟩ rfl rfl rfl
      (by simp [settingUp])
    simpa [hpc, remaining] using h.passed (by simp [hpc, killing]) k hk hcompleted
  | @walkRunning e k rest hpc hstatus =>
    refine h.same ⟨by simp [hpc], by simp, by simp, fun _ j hj hcompleted => ?_⟩ rfl rfl rfl
      (by simp [settingUp])
    have hin : k ∈ s.head := hupcoming.subset (by simp [hpc, remaining])
    have hpassed := h.passed (by simp [hpc, killing]) j hj hcompleted
    simp only [hpc, remaining, List.mem_cons] at hpassed
    rcases hpassed with hr | rfl | hrest
    · exact Or.inl hr
    · have hflag := status_of_started htracked hin hj hstatus
      simp [(h.flag j hj).mpr hcompleted] at hflag
    · exact Or.inr hrest
  | killJoin hpc => exact h.killJoin hpc (hupcoming.subset (by simp [hpc, remaining]))
  | killReclaim hpc => exact h.reclaim htracked hpc (hupcoming.subset (by simp [hpc, remaining]))
  | openFails | killMutex | killed | exits => simp [gone] at hgone
  | timeout hpc | selectError hpc | alreadyOpen hpc | dataInitFails hpc | addThreadFails hpc
  | goIdle hpc | again hpc | swept hpc | sweepRunning hpc =>
    exact h.same (Quiet.plain (by simp [hpc]) rfl (by simp)) rfl rfl rfl (by simp [hpc, settingUp])

theorem worker (h : Accounted s) {k : ℕ} {a : Answer} {pool : Pool}
    (hk : (s.conn k).started = true) (hpool : s.pool.next (k, a) = some pool)
    (htime : completesInTime s (.worker k a) = true) (hgone : gone s.pc = false) :
    Accounted { s.noteComplete k with pool } := by
  obtain ⟨hmove, hother⟩ := Pool.next_worker hpool
  have hconn := s.noteComplete_conn k
  have hstarted : ∀ j, ((s.noteComplete k).conn j).started = (s.conn j).started := by
    intro j
    obtain ⟨status, hc⟩ := hconn j
    rw [hc]
  have hjoins : ∀ j, ((s.noteComplete k).conn j).joins = (s.conn j).joins := by
    intro j
    obtain ⟨status, hc⟩ := hconn j
    rw [hc]
  have hreclaimed : ∀ j, Reclaimed s j → Reclaimed { s.noteComplete k with pool } j :=
    fun j hr => hr.congr (by simpa using hr.unlisted) (hconn j)
  exact {
    unstarted := fun j hj => by
      have hjs := (hstarted j).symm.trans hj
      have hjk : j ≠ k := by
        rintro rfl
        simp [hk] at hjs
      rw [hother j hjk]
      exact ⟨(h.unstarted j hjs).1, by simpa [Server.noteComplete_conn_of_ne s hjk] using
        (h.unstarted j hjs).2⟩
    flag := fun j hj => by
      have hflag := h.flag j ((hstarted j).symm.trans hj)
      by_cases hjk : j = k
      · subst hjk
        exact (complete_noteComplete hflag).trans (completed_moves hmove).symm
      · rw [hother j hjk]
        simpa [Server.noteComplete_conn_of_ne s hjk] using hflag
    listed := fun j hj => by
      simpa using (h.listed j ((hstarted j).symm.trans hj)).imp_right (hreclaimed j)
    fresh := fun j hj => by
      exact (hjoins j).trans (h.fresh j (by simpa using hj))
    unjoined := fun j hjin hj => by
      simpa [hjoins] using h.unjoined j (by simpa using hjin) ((hstarted j).symm.trans hj)
    sweeping := fun j rest hj => by
      exact (hstarted j).trans (h.sweeping j rest (by simpa using hj))
    reclaiming := fun j rest hj hjs => by
      exact (hjoins j).trans (h.reclaiming j rest (by simpa using hj) ((hstarted j).symm.trans hjs))
    passed := fun hkilling j hj hcompleted => by
      have hjs := (hstarted j).symm.trans hj
      have hkilling' : killing s.pc = true := by simpa using hkilling
      have hpassed := h.passed hkilling' j hjs
      have hcases : Reclaimed s j ∨ j ∈ remaining s.pc := by
        by_cases hjk : j = k
        · subst hjk
          rcases (completed_moves hmove).mp hcompleted with hbefore | hfinish
          · exact hpassed hbefore
          · have hrunning : s.pc ≠ .killed := by
              intro hpc
              simp [hpc, gone] at hgone
            exact Or.inr (by simpa [completesInTime, hfinish, hkilling', hrunning] using htime)
        · exact hpassed (by rwa [hother j hjk] at hcompleted)
      simpa using hcases.imp_left (hreclaimed j) }

/-- A state in which `process_kill` can still reclaim something keeps account. -/
theorem next (h : Accounted s) (htracked : Tracked s) {l : Label} (hnext : s.next l = some t)
    (htime : completesInTime s l = true) (hgone : gone s.pc = false) :
    gone t.pc = true ∨ Accounted t := by
  rcases Server.next_cases hnext with ⟨e, rfl, hmove⟩ | ⟨k, a, pool, rfl, hk, _, hpool, rfl⟩ |
    ⟨rfl, _, rfl⟩
  · cases ht : gone t.pc with
    | true => exact Or.inl rfl
    | false => exact Or.inr (h.moves htracked hmove htime ht)
  · exact Or.inr (h.worker hk hpool htime hgone)
  · exact Or.inr ⟨h.unstarted, h.flag, fun k hk => (h.listed k hk).imp_right
      fun hr => hr.congr hr.unlisted ⟨(s.conn k).complete, rfl⟩, h.fresh, h.unjoined, h.sweeping,
      h.reclaiming, fun hkilling k hk hc => (h.passed hkilling k hk hc).imp_left
        fun hr => hr.congr hr.unlisted ⟨(s.conn k).complete, rfl⟩⟩

theorem reclaims (h : Accounted s) (l : Label) : Reclaims s l := by
  cases l with
  | main e =>
    unfold Reclaims
    dsimp only
    split
    · rename_i hpc
      intro k hk hjoined
      rcases h.listed k hk with hin | hr
      · rcases h.unjoined k hin hk with h0 | ⟨rest, hreclaim⟩
        · omega
        · simp [hpc] at hreclaim
      · exact hr
    · rename_i hpc
      intro k hk hcompleted
      simpa [hpc, remaining] using h.passed (by simp [hpc, killing]) k hk hcompleted
    · trivial
  | worker k a => trivial
  | signal => trivial

end Accounted

/-- The invariant of a run: the account is kept until `process_kill` returns. -/
def Kept (s : Server) : Prop := Tracked s ∧ (gone s.pc = true ∨ Accounted s)

theorem kept_init (pair : ℕ → AesdSeekto) : Kept (Server.init pair) :=
  ⟨tracked_init pair, Or.inr (accounted_init pair)⟩

theorem gone_next {s t : Server} {l : Label} (hnext : s.next l = some t) (h : gone s.pc = true) :
    gone t.pc = true := by
  rcases Server.next_cases hnext with ⟨e, rfl, hmove⟩ | ⟨k, a, pool, rfl, _, _, _, rfl⟩ |
    ⟨rfl, _, rfl⟩
  · cases hmove with
    | killed | exits | openFails => rfl
    | _ => simp_all [gone]
  · simpa using h
  · exact h

theorem Kept.next {s t : Server} {l : Label} (h : Kept s) (hnext : s.next l = some t)
    (htime : completesInTime s l = true) : Kept t := by
  obtain ⟨htracked, hgone | haccounted⟩ := h
  · exact ⟨htracked.next hnext, Or.inl (gone_next hnext hgone)⟩
  · cases hgone : gone s.pc with
    | true => exact ⟨htracked.next hnext, Or.inl (gone_next hnext hgone)⟩
    | false => exact ⟨htracked.next hnext, haccounted.next htracked hnext htime hgone⟩

theorem Kept.reclaims {s : Server} (h : Kept s) (l : Label) : Reclaims s l := by
  obtain ⟨_, hgone | haccounted⟩ := h
  · unfold Reclaims
    cases l <;> cases hpc : s.pc <;> simp_all [gone]
  · exact haccounted.reclaims l

/-- In every run, with any number of connections that finish at any moments: if
no sweep finds a finished thread, and none finishes behind the walk of
`process_kill`, every finished connection is reclaimed, once, before
`process_kill` returns. -/
theorem finished_reclaimed (pair : ℕ → AesdSeekto) (ls : List Label)
    (h : Steps Server.next (fun s l => completesInTime s l = true) (Server.init pair) ls) :
    Steps Server.next Reclaims (Server.init pair) ls :=
  Steps.imp (fun _ l _ hs htime hnext => ⟨hs.next hnext htime, hs.reclaims l⟩) (kept_init pair) h

theorem two_connections_reclaimed :
    (∃ s, exec Server.next (Server.init fun _ => ⟨0, 0⟩) twoConnections = some s ∧
      s.pc = .exited) ∧
      Steps Server.next Reclaims (Server.init fun _ => ⟨0, 0⟩) twoConnections :=
  ⟨⟨_, rfl, rfl⟩, finished_reclaimed _ _ (by decide)⟩

/-- The worker ends, then an idle sweep joins it and leaves the rest. -/
theorem swept_and_leaked :
    ¬ ∀ (pair : ℕ → AesdSeekto) (ls : List Label),
      Steps Server.next Reclaims (Server.init pair) ls := by
  intro h
  have hrun := h (fun _ => ⟨0, 0⟩)
    ([.main .accepted, .main .ok, .main .ok, .main .ok, .main .ok, .main .ok, .main .ok,
      .worker 0 (.ret 0), .worker 0 (.ret 0), .worker 0 (.ret 0), .worker 0 (.ret 0),
      .worker 0 (.ret 0), .worker 0 (.ret 0), .main .timeout, .main .ok, .main .ok, .main .ok,
      .main .ok] ++ [.main .ok])
  have hlast : Reclaims _ (.main .ok) := hrun.step rfl rfl
  have hreclaimed := hlast 0 rfl (by decide)
  exact hreclaimed.unlisted (by decide)

end Aesd.Reclaim
