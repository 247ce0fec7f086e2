import Aesd.Reclaim

/-!
Reclaiming as long as thread creation succeeds. The worker clears its completion
flag when it starts and sets it when it ends; a sweep clears it again after the
join. So a thread with its flag set has not been joined, and `process_kill`,
which joins and reclaims the nodes with the flag set, meets each thread at most
once and only after its end. Its walk removes the node it stands on and comes to
every other node of the list once.
-/

namespace Aesd.JoinedOnce

open CharDriver EchoWorker WorkerPool ServerMain ThreadList Shutdown Reclaim Runs

/-- All that is obtained for a connection. -/
def resources (c : Conn) : List Resource := [c.socket, c.ptid, c.threadData, c.node]

/-- `pthread_create` succeeds. -/
def creates (s : Server) : Label → Bool
  | .main e =>
    match s.pc with
    | .createThread _ => e == .ok
    | _ => true
  | _ => true

/-- No thread is joined twice or before its end, nothing is given back twice or
before the thread of its connection has ended and been joined, and every listed
node has all that it points to. -/
structure Orderly (s : Server) : Prop where
  joined_once : ∀ k, (s.conn k).joins ≤ 1
  joined_ended : ∀ k, 0 < (s.conn k).joins →
    (s.conn k).started = true ∧ (s.pool.worker k).pc = .done
  released_once : ∀ k, ∀ r ∈ resources (s.conn k), r.released ≤ 1
  released_ended : ∀ k, (s.conn k).started = true → ∀ r ∈ resources (s.conn k), 0 < r.released →
    (s.conn k).joins = 1 ∧ (s.pool.worker k).pc = .done
  listed_live : ∀ k ∈ s.head, Held (s.conn k)

/-- The node that `add_thread_to_list` inserts. -/
def listed (s : Server) : Label → List ℕ
  | .main .ok =>
    match s.pc with
    | .addThread k => [k]
    | _ => []
  | _ => []

/-- The node that `process_kill` removes. -/
def removed (s : Server) : Label → List ℕ
  | .main .ok =>
    match s.pc with
    | .killReclaim k _ => [k]
    | _ => []
  | _ => []

/-- The node whose flag `process_kill` looks at. -/
def visited (s : Server) : Label → List ℕ
  | .main _ =>
    match s.pc with
    | .killWalk (k :: _) => [k]
    | _ => []
  | _ => []

/-- The nodes that the walk of `process_kill` has not come to. -/
def ahead : MainPc → List ℕ
  | .killWalk rest | .killJoin _ rest | .killReclaim _ rest => rest
  | _ => []

/-- How flag, thread, joins and list belong together. -/
structure Guarded (s : Server) : Prop where
  unstarted : ∀ k, (s.conn k).started = false →
    (s.pool.worker k).pc = .start ∧ (s.conn k).complete = false ∧ (s.conn k).joins = 0
  released : ∀ k, (s.conn k).started = false → ∀ r ∈ resources (s.conn k), r.released ≤ 1
  fresh : ∀ k, settingUp s.pc = some k → ∀ r ∈ resources (s.conn k), r.released = 0
  listed : ∀ k ∈ s.head, (s.conn k).started = true ∨ s.pc = .createThread k
  flag : ∀ k, (s.conn k).complete = true → completed (s.pool.worker k) = true
  joined : ∀ k, (s.conn k).joins ≤ 1 ∧
    (0 < (s.conn k).joins → (s.conn k).started = true ∧ (s.pool.worker k).pc = .done)
  unjoined : ∀ k ∈ s.head, (s.conn k).complete = true →
    (s.conn k).joins = 0 ∨ s.pc = .exited ∨ ∃ rest, s.pc = .killReclaim k rest
  chosen : ∀ k rest, s.pc = .sweepJoin k rest ∨ s.pc = .killJoin k rest →
    (s.conn k).complete = true
  reclaiming : ∀ k rest, s.pc = .killReclaim k rest →
    (s.conn k).started = true ∧ (s.conn k).joins = 1
  gone : ∀ k, (s.conn k).started = true → k ∉ s.head → Reclaimed s k

theorem guarded_init (pair : ℕ → AesdSeekto) : Guarded (Server.init pair) where
  unstarted k _ := ⟨rfl, rfl, rfl⟩
  released k _ r hr := by simp_all [Server.init, resources]
  fresh k hk := by simp [Server.init, settingUp] at hk
  listed k hk := by simp [Server.init] at hk
  flag k hk := by simp [Server.init] at hk
  joined k := by simp [Server.init]
  unjoined k hk := by simp [Server.init] at hk
  chosen k rest hk := by simp [Server.init] at hk
  reclaiming k rest hk := by simp [Server.init] at hk
  gone k hk := by simp [Server.init] at hk

/-- `thread_data_deinit` gives back what was not given back before. -/
theorem released_threadDataDeinit {c : Conn} (h : ∀ r ∈ resources c, r.released = 0) :
    ∀ r ∈ resources c.threadDataDeinit, r.released ≤ 1 := by
  have hfree : ∀ r : Resource, r.released = 0 → r.free.released ≤ 1 := by
    intro r hr
    unfold Resource.free
    split <;> simp [hr]
  simp only [resources, List.forall_mem_cons] at h
  obtain ⟨hsocket, hptid, hdata, hnode, _⟩ := h
  simp [resources, Conn.threadDataDeinit, hfree, hsocket, hptid, hdata, hnode]

/-- A worker whose flag is set after its call has completed. -/
theorem completed_of_noteComplete {s : Server} {k : ℕ} {a : Answer} {w : Worker}
    (hflag : (s.conn k).complete = true → completed (s.pool.worker k) = true)
    (hmove : (s.pool.worker k).Moves a w) (h : ((s.noteComplete k).conn k).complete = true) :
    completed w = true := by
  rw [completed_moves hmove]
  unfold Server.noteComplete at h
  cases hpc : (s.pool.worker k).pc <;> simp_all [Worker.op, completed, atEnd]

namespace Guarded

variable {s t : Server}

theorem started (h : Guarded s) {k : ℕ} (hk : (s.conn k).complete = true) :
    (s.conn k).started = true := by
  by_contra hstarted
  have hunstarted := h.unstarted k (by simpa using hstarted)
  simp [hk] at hunstarted

/-- A listed connection has everything that was obtained for it. -/
theorem held (h : Guarded s) (htracked : Tracked s) {k : ℕ} (hin : k ∈ s.head) :
    Held (s.conn k) := by
  rcases h.listed k hin with hstarted | hpc
  · exact htracked.owned k hin hstarted
  · exact (htracked.atCreateThread hpc).2.2.2

/-- A step that changes only connections without a thread. -/
theorem keep (h : Guarded s) (hpool : t.pool = s.pool)
    (hhead : ∀ k, (s.conn k).started = true → (k ∈ t.head ↔ k ∈ s.head))
    (hstarted : ∀ k, (t.conn k).started = (s.conn k).started)
    (hconn : ∀ k, (s.conn k).started = true → t.conn k = s.conn k)
    (hunstarted : ∀ k, (s.conn k).started = false →
      (t.conn k).complete = false ∧ (t.conn k).joins = 0 ∧
        ∀ r ∈ resources (t.conn k), r.released ≤ 1)
    (hfresh : ∀ k, settingUp t.pc = some k → ∀ r ∈ resources (t.conn k), r.released = 0)
    (hlisted : ∀ k ∈ t.head, (s.conn k).started = true ∨ t.pc = .createThread k)
    (hsource : ∀ k rest, s.pc = .killReclaim k rest → t.pc = .exited)
    (hexited : s.pc = .exited → t.pc = .exited)
    (hchosen : ∀ k rest, t.pc = .sweepJoin k rest ∨ t.pc = .killJoin k rest →
      (s.conn k).complete = true)
    (htarget : ∀ k rest, t.pc ≠ .killReclaim k rest) : Guarded t := by
  have hflag : ∀ k, (t.conn k).complete = true →
      (s.conn k).started = true ∧ t.conn k = s.conn k := by
    intro k hk
    have hs : (s.conn k).started = true := by
      by_contra hs
      have hcomplete := (hunstarted k (by simpa using hs)).1
      simp [hk] at hcomplete
    exact ⟨hs, hconn k hs⟩
  exact {
    unstarted := fun k hk => by
      rw [hstarted] at hk
      obtain ⟨hcomplete, hjoins, _⟩ := hunstarted k hk
      rw [hpool]
      exact ⟨(h.unstarted k hk).1, hcomplete, hjoins⟩
    released := fun k hk => by
      rw [hstarted] at hk
      exact (hunstarted k hk).2.2
    fresh := hfresh
    listed := fun k hk => by
      rw [hstarted]
      exact hlisted k hk
    flag := fun k hk => by
      obtain ⟨_, hsame⟩ := hflag k hk
      rw [hpool]
      exact h.flag k (hsame ▸ hk)
    joined := fun k => by
      rw [hstarted, hpool]
      by_cases hs : (s.conn k).started = true
      · rw [hconn k hs]
        exact h.joined k
      · have hjoins := (hunstarted k (by simpa using hs)).2.1
        simp [hjoins]
    unjoined := fun k hin hk => by
      obtain ⟨hs, hsame⟩ := hflag k hk
      rw [hsame]
      rcases h.unjoined k ((hhead k hs).mp hin) (hsame ▸ hk) with h0 | hpc | ⟨rest, hpc⟩
      · exact Or.inl h0
      · exact Or.inr (Or.inl (hexited hpc))
      · exact Or.inr (Or.inl (hsource k rest hpc))
    chosen := fun k rest hpc => by
      have hk := hchosen k rest hpc
      rwa [hconn k (h.started hk)]
    reclaiming := fun k rest hpc => absurd hpc (htarget k rest)
    gone := fun k hk hout => by
      rw [hstarted] at hk
      have hr := h.gone k hk fun hin => hout ((hhead k hk).mpr hin)
      exact hr.congr hout ⟨_, hconn k hk⟩ }

/-- A step that leaves the connections and the list as they are. -/
theorem same (h : Guarded s) (hpool : t.pool = s.pool) (hhead : t.head = s.head)
    (hconn : t.conn = s.conn) (hfresh : ∀ k, settingUp t.pc = some k → settingUp s.pc = some k)
    (hcreate : ∀ k, s.pc ≠ .createThread k)
    (hsource : ∀ k rest, s.pc = .killReclaim k rest → t.pc = .exited)
    (hexited : s.pc = .exited → t.pc = .exited)
    (hchosen : ∀ k rest, t.pc = .sweepJoin k rest ∨ t.pc = .killJoin k rest →
      (s.conn k).complete = true)
    (htarget : ∀ k rest, t.pc ≠ .killReclaim k rest) : Guarded t := by
  refine h.keep hpool (fun k _ => by rw [hhead]) (fun k => by rw [hconn]) (fun k _ => by rw [hconn])
    (fun k hk => ?_) (fun k hk => ?_) (fun k hk => ?_) hsource hexited hchosen htarget
  · rw [hconn]
    exact ⟨(h.unstarted k hk).2.1, (h.unstarted k hk).2.2, h.released k hk⟩
  · rw [hconn]
    exact h.fresh k (hfresh k hk)
  · rw [hhead] at hk
    exact Or.inl ((h.listed k hk).resolve_right (hcreate k))

/-- A step that changes one connection without a thread. -/
theorem setConn (h : Guarded s) {k : ℕ} {c : Conn} {pc : MainPc}
    (hold : (s.conn k).started = false) (hstarted : c.started = false)
    (hcomplete : c.complete = false) (hjoins : c.joins = 0)
    (hreleased : ∀ r ∈ resources c, r.released ≤ 1)
    (hfresh : ∀ j, settingUp pc = some j → j = k ∧ ∀ r ∈ resources c, r.released = 0)
    (hcreate : ∀ j, s.pc ≠ .createThread j) (hsource : ∀ j rest, s.pc ≠ .killReclaim j rest)
    (hexited : s.pc ≠ .exited)
    (hjoin : ∀ j rest, pc ≠ .sweepJoin j rest ∧ pc ≠ .killJoin j rest)
    (htarget : ∀ j rest, pc ≠ .killReclaim j rest) : Guarded ((s.setConn k c).goto pc) := by
  refine h.keep rfl (fun _ _ => Iff.rfl) (fun j => ?_) (fun j hj => ?_) (fun j hj => ?_)
    (fun j hj => ?_) (fun j hj => ?_) (fun j rest hpc => absurd hpc (hsource j rest))
    (fun hpc => absurd hpc hexited) (fun j rest hpc => ?_) htarget
  · by_cases hjk : j = k <;> simp_all
  · have hjk : j ≠ k := by
      rintro rfl
      simp [hold] at hj
    simp [hjk]
  · by_cases hjk : j = k
    · simpa [hjk] using ⟨hcomplete, hjoins, hreleased⟩
    · simpa [hjk] using ⟨(h.unstarted j hj).2.1, (h.unstarted j hj).2.2, h.released j hj⟩
  · obtain ⟨rfl, hnone⟩ := hfresh j hj
    simpa using hnone
  · exact Or.inl ((h.listed j hj).resolve_right (hcreate j))
  · rcases hpc with hpc | hpc
    · exact absurd hpc (hjoin j rest).1
    · exact absurd hpc (hjoin j rest).2

theorem accept (h : Guarded s) (htracked : Tracked s) (hpc : s.pc = .incoming) :
    Guarded (s.accept.goto (.openStream s.accepted)) := by
  obtain ⟨_, hfresh⟩ := htracked.fresh
  refine h.keep rfl (fun _ _ => Iff.rfl) (fun j => ?_) (fun j hj => ?_) (fun j hj => ?_)
    (fun j hj => ?_) (fun j hj => ?_) (by simp [hpc]) (by simp [hpc]) (by simp) (by simp)
  · by_cases hj : j = s.accepted <;> simp_all
  · have hne : j ≠ s.accepted := by
      rintro rfl
      simp [hfresh] at hj
    simp [hne]
  · by_cases hne : j = s.accepted
    · simp [hne, resources, Resource.held]
    · simpa [hne] using ⟨(h.unstarted j hj).2.1, (h.unstarted j hj).2.2, h.released j hj⟩
  · have hne : s.accepted = j := by simpa [settingUp] using hj
    simp [hne, resources, Resource.held]
  · exact Or.inl ((h.listed j hj).resolve_right (by simp [hpc]))

theorem addThread (h : Guarded s) {k : ℕ} (hpc : s.pc = .addThread k)
    (hstarted : (s.conn k).started = false) :
    Guarded ((s.addThreadToList k).goto (.createThread k)) := by
  have hother : ∀ j, (s.conn j).started = true → j ≠ k := by
    rintro j hj rfl
    simp [hstarted] at hj
  have hfresh := h.fresh k (by simp [hpc, settingUp])
  refine h.keep rfl (fun j hj => ?_) (fun j => ?_) (fun j hj => ?_) (fun j hj => ?_)
    (fun j hj => ?_) (fun j hj => ?_) (by simp [hpc]) (by simp [hpc]) (by simp) (by simp)
  · simp [Server.addThreadToList, hother j hj]
  · by_cases hjk : j = k <;> simp_all
  · simp [hother j hj]
  · have hold : (s.conn j).complete = false ∧ (s.conn j).joins = 0 ∧
        ∀ r ∈ resources (s.conn j), r.released ≤ 1 :=
      ⟨(h.unstarted j hj).2.1, (h.unstarted j hj).2.2, h.released j hj⟩
    by_cases hjk : j = k
    · subst hjk
      simp only [resources, List.forall_mem_cons] at hold
      simp [resources, hold, Resource.held]
    · simpa [hjk] using hold
  · obtain rfl : k = j := by simpa [settingUp] using hj
    simp only [resources, List.forall_mem_cons] at hfresh
    simp [resources, hfresh, Resource.held]
  · rcases List.mem_cons.mp hj with rfl | hin
    · exact Or.inr rfl
    · exact Or.inl ((h.listed j hin).resolve_right (by simp [hpc]))

/-- A thread that is created has not been joined. -/
theorem createThread (h : Guarded s) {k : ℕ} (hpc : s.pc = .createThread k) (hin : k ∈ s.head)
    (hstarted : (s.conn k).started = false) :
    Guarded ((s.setConn k { s.conn k with started := true }).goto (.checkSignal false)) := by
  obtain ⟨hstart, hcomplete, hjoins⟩ := h.unstarted k hstarted
  have hconn : ∀ j, j ≠ k →
      (s.setConn k { s.conn k with started := true }).conn j = s.conn j := by
    intro j hj
    simp [hj]
  exact {
    unstarted := fun j hj => by
      have hjk : j ≠ k := by
        rintro rfl
        simp at hj
      simpa [hjk] using h.unstarted j (by simpa [hjk] using hj)
    released := fun j hj => by
      have hjk : j ≠ k := by
        rintro rfl
        simp at hj
      simpa [hjk] using h.released j (by simpa [hjk] using hj)
    fresh := fun j hj => by simp [settingUp] at hj
    listed := fun j hj => by
      by_cases hjk : j = k
      · simp [hjk]
      · have hlisted := (h.listed j hj).resolve_right (by simp [hpc, Ne.symm hjk])
        simpa [hjk] using hlisted
    flag := fun j hj => by
      by_cases hjk : j = k
      · simp [hjk, hcomplete] at hj
      · exact h.flag j (by simpa [hjk] using hj)
    joined := fun j => by
      by_cases hjk : j = k
      · simp [hjk, hjoins]
      · simpa [hjk] using h.joined j
    unjoined := fun j hjin hj => by
      by_cases hjk : j = k
      · simp [hjk, hjoins]
      · simpa [hjk, hpc] using h.unjoined j hjin (by simpa [hjk] using hj)
    chosen := fun j rest hj => by simp at hj
    reclaiming := fun j rest hj => by simp at hj
    gone := fun j hj hout => by
      have hjk : j ≠ k := by
        rintro rfl
        exact hout hin
      exact (h.gone j (by simpa [hjk] using hj) hout).of_listed hin (List.Subset.refl _) hconn }

/-- Both loops join a thread whose flag is set, so one that was not joined. The
sweep clears the flag, the walk of `process_kill` goes on to reclaim the node. -/
theorem join (h : Guarded s) {k : ℕ} {status : Bool} {pc : MainPc}
    (hpc : ∃ rest, s.pc = .sweepJoin k rest ∨ s.pc = .killJoin k rest) (hin : k ∈ s.head)
    (hjoin : s.Joinable k)
    (hgoes : (status = false ∧ ∃ rest, pc = .sweep rest) ∨ ∃ rest, pc = .killReclaim k rest) :
    Guarded ((s.setConn k { s.conn k with
      joins := (s.conn k).joins + 1, complete := status }).goto pc) := by
  obtain ⟨rest, hpc⟩ := hpc
  have hcomplete := h.chosen k rest hpc
  have hstarted := h.started hcomplete
  have hdone := hjoin hstarted
  have hjoins : (s.conn k).joins = 0 := by
    rcases h.unjoined k hin hcomplete with h0 | hexited | ⟨rest', hreclaim⟩
    · exact h0
    · rcases hpc with hpc | hpc <;> simp [hpc] at hexited
    · rcases hpc with hpc | hpc <;> simp [hpc] at hreclaim
  have hsource : ∀ j, s.pc ≠ .createThread j := by
    intro j
    rcases hpc with hpc | hpc <;> simp [hpc]
  have hbusy : s.pc ≠ .exited ∧ ∀ j rest, s.pc ≠ .killReclaim j rest := by
    rcases hpc with hpc | hpc <;> simp [hpc]
  have hunstarted : ∀ j, ((s.setConn k { s.conn k with
      joins := (s.conn k).joins + 1, complete := status }).conn j).started = false → j ≠ k := by
    rintro j hj rfl
    simp [hstarted] at hj
  exact {
    unstarted := fun j hj => by
      have hjk := hunstarted j hj
      simpa [hjk] using h.unstarted j (by simpa [hjk] using hj)
    released := fun j hj => by
      have hjk := hunstarted j hj
      simpa [hjk] using h.released j (by simpa [hjk] using hj)
    fresh := fun j hj => by
      rcases hgoes with ⟨_, rest, rfl⟩ | ⟨rest, rfl⟩ <;> simp [settingUp] at hj
    listed := fun j hj => by
      have hlisted := (h.listed j hj).resolve_right (hsource j)
      by_cases hjk : j = k <;> simp_all
    flag := fun j hj => by
      by_cases hjk : j = k
      · simp [hjk, completed, hdone, atEnd]
      · exact h.flag j (by simpa [hjk] using hj)
    joined := fun j => by
      by_cases hjk : j = k
      · simp [hjk, hjoins, hstarted, hdone]
      · simpa [hjk] using h.joined j
    unjoined := fun j hjin hj => by
      by_cases hjk : j = k
      · rcases hgoes with ⟨rfl, _⟩ | ⟨rest, rfl⟩
        · simp [hjk] at hj
        · exact Or.inr (Or.inr ⟨rest, by simp [hjk]⟩)
      · rcases h.unjoined j hjin (by simpa [hjk] using hj) with h0 | hexited | ⟨rest, hreclaim⟩
        · exact Or.inl (by simpa [hjk] using h0)
        · exact absurd hexited hbusy.1
        · exact absurd hreclaim (hbusy.2 j rest)
    chosen := fun j rest hj => by
      rcases hgoes with ⟨_, rest, rfl⟩ | ⟨rest, rfl⟩ <;> simp at hj
    reclaiming := fun j rest hj => by
      rcases hgoes with ⟨_, rest, rfl⟩ | ⟨rest, rfl⟩
      · simp at hj
      · obtain ⟨rfl, -⟩ : k = j ∧ _ := by simpa using hj
        simp [hstarted, hjoins]
    gone := fun j hj hout => by
      have hjk : j ≠ k := by
        rintro rfl
        exact hout hin
      exact (h.gone j (by simpa [hjk] using hj) hout).of_listed hin (List.Subset.refl _)
        fun i hi => by simp [hi] }

/-- A node is reclaimed after its thread was joined. -/
theorem reclaim (h : Guarded s) (htracked : Tracked s) {k : ℕ} {rest : List ℕ}
    (hpc : s.pc = .killReclaim k rest) (hin : k ∈ s.head) :
    Guarded ((s.reclaim k).goto (.killWalk rest)) := by
  obtain ⟨hstarted, hjoins⟩ := h.reclaiming k rest hpc
  have hsame : ∀ j, ((s.reclaim k).conn j).started = (s.conn j).started ∧
      ((s.reclaim k).conn j).complete = (s.conn j).complete ∧
      ((s.reclaim k).conn j).joins = (s.conn j).joins := by
    intro j
    by_cases hjk : j = k <;> simp [hjk]
  have hother : ∀ j, (s.conn j).started = false → (s.reclaim k).conn j = s.conn j := by
    intro j hj
    have hjk : j ≠ k := by
      rintro rfl
      simp [hstarted] at hj
    simp [hjk]
  have hself : Reclaimed ((s.reclaim k).goto (.killWalk rest)) k :=
    reclaimed_self htracked hin hstarted hjoins _
  exact {
    unstarted := fun j hj => by
      rw [Server.goto_conn, (hsame j).1] at hj
      rw [Server.goto_conn, hother j hj]
      exact h.unstarted j hj
    released := fun j hj => by
      rw [Server.goto_conn, (hsame j).1] at hj
      rw [Server.goto_conn, hother j hj]
      exact h.released j hj
    fresh := fun j hj => by simp [settingUp] at hj
    listed := fun j hj => by
      rw [Server.goto_conn, (hsame j).1]
      exact Or.inl ((h.listed j (List.mem_of_mem_erase hj)).resolve_right (by simp [hpc]))
    flag := fun j hj => h.flag j ((hsame j).2.1 ▸ hj)
    joined := fun j => by
      rw [Server.goto_conn, (hsame j).1, (hsame j).2.2]
      exact h.joined j
    unjoined := fun j hjin hj => by
      obtain ⟨hjk, hjin⟩ := htracked.nodup.mem_erase_iff.mp hjin
      rw [Server.goto_conn, (hsame j).2.2]
      rcases h.unjoined j hjin ((hsame j).2.1 ▸ hj) with h0 | hexited | ⟨rest', hreclaim⟩
      · exact Or.inl h0
      · simp [hpc] at hexited
      · rw [hpc] at hreclaim
        cases hreclaim
        exact absurd rfl hjk
    chosen := fun j rest hj => by simp at hj
    reclaiming := fun j rest hj => by simp at hj
    gone := fun j hj hout => by
      rw [Server.goto_conn, (hsame j).1] at hj
      by_cases hjk : j = k
      · exact hjk ▸ hself
      · have hout' : j ∉ s.head := fun hjin => hout ((List.mem_erase_of_ne hjk).mpr hjin)
        exact (h.gone j hj hout').of_listed hin (fun _ hi => List.mem_of_mem_erase hi)
          fun i hi => by simp [hi] }

theorem moves (h : Guarded s) (htracked : Tracked s) {e : Event} (hmove : s.Moves e t)
    (hcreates : creates s (.main e) = true) : Guarded t := by
  have hupcoming := htracked.upcoming
  cases hmove with
  | accepted hpc => exact h.accept htracked hpc
  | opened hpc =>
    exact h.same rfl rfl rfl (by simp [hpc, settingUp]) (by simp [hpc]) (by simp [hpc])
      (by simp [hpc]) (by simp) (by simp)
  | @dataInit k hpc =>
    have hstarted := (htracked.atDataInit hpc).unstarted
    have hold := h.unstarted k hstarted
    have hfresh := h.fresh k (by simp [hpc, settingUp])
    simp only [resources, List.forall_mem_cons] at hfresh
    refine h.setConn hstarted hstarted hold.2.1 hold.2.2 ?_ (fun j hj => ?_)
      (by simp [hpc]) (by simp [hpc]) (by simp [hpc]) (by simp) (by simp)
    · simp [resources, hfresh, Resource.held]
    · exact ⟨by simpa [settingUp] using hj.symm, by simp [resources, hfresh, Resource.held]⟩
  | @idInit k hpc =>
    have hstarted := (htracked.atIdInit hpc).1.unstarted
    have hold := h.unstarted k hstarted
    have hfresh := h.fresh k (by simp [hpc, settingUp])
    simp only [resources, List.forall_mem_cons] at hfresh
    refine h.setConn hstarted hstarted rfl hold.2.2 ?_ (fun j hj => ?_)
      (by simp [hpc]) (by simp [hpc]) (by simp [hpc]) (by simp) (by simp)
    · simp [resources, hfresh, Resource.held]
    · exact ⟨by simpa [settingUp] using hj.symm, by simp [resources, hfresh, Resource.held]⟩
  | @idInitFails k hpc =>
    have hstarted := (htracked.atIdInit hpc).1.unstarted
    have hold := h.unstarted k hstarted
    have hfresh := h.fresh k (by simp [hpc, settingUp])
    refine h.setConn hstarted hstarted hold.2.1 hold.2.2 ?_
      (by simp [settingUp]) (by simp [hpc]) (by simp [hpc]) (by simp [hpc]) (by simp) (by simp)
    exact released_threadDataDeinit hfresh
  | addThread hpc => exact h.addThread hpc (htracked.atAddThread hpc).1.unstarted
  | createThread hpc =>
    obtain ⟨_, hin, hstarted, _⟩ := htracked.atCreateThread hpc
    exact h.createThread hpc hin hstarted
  | createThreadFails hpc => simp [creates, hpc] at hcreates
  | idle hpc =>
    exact h.same (by simp) (by simp) (by ext; simp) (by simp [settingUp]) (by simp [hpc])
      (by simp [hpc]) (by simp [hpc]) (by simp) (by simp)
  | killStream hpc =>
    exact h.same (by simp) (by simp) (by ext; simp) (by simp [settingUp]) (by simp [hpc])
      (by simp [hpc]) (by simp [hpc]) (by simp) (by simp)
  | @sweepComplete e k rest hpc hstatus | @walkComplete e k rest hpc hstatus =>
    have hin : k ∈ s.head := hupcoming.subset (by simp [hpc, remaining])
    have hstarted := (h.listed k hin).resolve_right (by simp [hpc])
    have hflag := status_of_started htracked hin hstarted hstatus
    refine h.same rfl rfl rfl (by simp [settingUp]) (by simp [hpc]) (by simp [hpc]) (by simp [hpc])
      (fun j rest' hj => ?_) (by simp)
    obtain ⟨rfl, -⟩ : k = j ∧ rest = rest' := by simpa using hj
    exact hflag
  | @sweepJoin k rest hpc hjoin =>
    exact h.join ⟨rest, Or.inl hpc⟩ (hupcoming.subset (by simp [hpc, remaining])) hjoin
      (Or.inl ⟨rfl, rest, rfl⟩)
  | @killJoin k rest hpc hjoin =>
    exact h.join ⟨rest, Or.inr hpc⟩ (hupcoming.subset (by simp [hpc, remaining])) hjoin
      (Or.inr ⟨rest, rfl⟩)
  | killReclaim hpc => exact h.reclaim htracked hpc (hupcoming.subset (by simp [hpc, remaining]))
  | exits hexit =>
    have hcreate : ∀ k, s.pc ≠ .createThread k := by
      intro k hpc
      simp [creates, hpc] at hcreates
    exact h.same rfl rfl rfl (by simp [settingUp]) hcreate (by simp) (by simp) (by simp) (by simp)
  | timeout hpc | selectError hpc | alreadyOpen hpc | openFails hpc | dataInitFails hpc
  | addThreadFails hpc | kill hpc | goIdle hpc | again hpc | swept hpc | sweepRunning hpc
  | walked hpc | walkRunning hpc | killSocket hpc | killMutex hpc | killed hpc =>
    exact h.same rfl rfl rfl (by simp [hpc, settingUp]) (by simp [hpc]) (by simp [hpc])
      (by simp [hpc]) (by simp) (by simp)

theorem worker (h : Guarded s) {k : ℕ} {a : Answer} {pool : Pool}
    (hk : (s.conn k).started = true) (hpool : s.pool.next (k, a) = some pool) :
    Guarded { s.noteComplete k with pool } := by
  obtain ⟨hmove, hother⟩ := Pool.next_worker hpool
  have hsame : ∀ j, ((s.noteComplete k).conn j).started = (s.conn j).started ∧
      ((s.noteComplete k).conn j).joins = (s.conn j).joins ∧
      resources ((s.noteComplete k).conn j) = resources (s.conn j) := by
    intro j
    obtain ⟨status, hc⟩ := s.noteComplete_conn k j
    rw [hc]
    exact ⟨rfl, rfl, rfl⟩
  have hne : ∀ j, (s.conn j).started = false → j ≠ k := by
    rintro j hj rfl
    simp [hk] at hj
  -- the flag of a worker that has completed is not written again
  have hcomplete : ∀ j, (s.conn j).complete = true →
      ((s.noteComplete k).conn j).complete = true := by
    intro j hj
    by_cases hjk : j = k
    · subst hjk
      have hatEnd := h.flag j hj
      unfold Server.noteComplete
      cases hpc : (s.pool.worker j).pc <;> simp_all [Worker.op, completed, atEnd]
    · rwa [Server.noteComplete_conn_of_ne s hjk]
  exact {
    unstarted := fun j hj => by
      have hjs := (hsame j).1.symm.trans hj
      have hjk := hne j hjs
      rw [hother j hjk]
      simpa [Server.noteComplete_conn_of_ne s hjk] using h.unstarted j hjs
    released := fun j hj => by
      rw [(hsame j).2.2]
      exact h.released j ((hsame j).1.symm.trans hj)
    fresh := fun j hj => by
      rw [(hsame j).2.2]
      exact h.fresh j (by simpa using hj)
    listed := fun j hj => by
      rw [(hsame j).1]
      simpa using h.listed j (by simpa using hj)
    flag := fun j hj => by
      by_cases hjk : j = k
      · subst hjk
        exact completed_of_noteComplete (h.flag j) hmove hj
      · rw [hother j hjk]
        exact h.flag j (by simpa [Server.noteComplete_conn_of_ne s hjk] using hj)
    joined := fun j => by
      rw [(hsame j).1, (hsame j).2.1]
      exact ⟨(h.joined j).1, fun hj =>
        ⟨((h.joined j).2 hj).1, done_of_next hpool ((h.joined j).2 hj).2⟩⟩
    unjoined := fun j hjin hj => by
      rw [(hsame j).2.1]
      have hjin' : j ∈ s.head := by simpa using hjin
      by_cases hjk : j = k
      · subst hjk
        by_cases hjoins : (s.conn j).joins = 0
        · exact Or.inl hjoins
        · -- a joined thread has ended and makes no call
          have hdone := ((h.joined j).2 (Nat.pos_of_ne_zero hjoins)).2
          exact absurd hdone hmove.not_done
      · simpa using h.unjoined j hjin' (by simpa [Server.noteComplete_conn_of_ne s hjk] using hj)
    chosen := fun j rest hj => hcomplete j (h.chosen j rest (by simpa using hj))
    reclaiming := fun j rest hj => by
      rw [(hsame j).1, (hsame j).2.1]
      exact h.reclaiming j rest (by simpa using hj)
    gone := fun j hj hout => by
      have hr := h.gone j ((hsame j).1.symm.trans hj) (by simpa using hout)
      exact hr.congr hout (s.noteComplete_conn k j) }

theorem next (h : Guarded s) (htracked : Tracked s) {l : Label} (hnext : s.next l = some t)
    (hcreates : creates s l = true) : Guarded t := by
  rcases Server.next_cases hnext with ⟨e, rfl, hmove⟩ | ⟨k, a, pool, rfl, hk, _, hpool, rfl⟩ |
    ⟨rfl, _, rfl⟩
  · exact h.moves htracked hmove hcreates
  · exact h.worker hk hpool
  · exact ⟨h.unstarted, h.released, h.fresh, h.listed, h.flag, h.joined, h.unjoined, h.chosen,
      h.reclaiming, fun k hk hout => (h.gone k hk hout).congr hout ⟨(s.conn k).complete, rfl⟩⟩

theorem orderly (h : Guarded s) (htracked : Tracked s) : Orderly s := by
  have hreturned : ∀ k, (s.conn k).started = true → k ∉ s.head →
      ∀ r ∈ resources (s.conn k), r.released = 1 := by
    intro k hk hout
    have hr := h.gone k hk hout
    simp [resources, hr.socket, hr.ptid, hr.threadData, hr.node, returned]
  have hkept : ∀ k ∈ s.head, ∀ r ∈ resources (s.conn k), r.released = 0 := by
    intro k hin
    have hheld := h.held htracked hin
    simp [resources, hheld.socket, hheld.ptid, hheld.threadData, hheld.node, Resource.held]
  exact {
    joined_once := fun k => (h.joined k).1
    joined_ended := fun k => (h.joined k).2
    released_once := fun k r hr => by
      by_cases hin : k ∈ s.head
      · exact (hkept k hin r hr).le.trans (Nat.zero_le 1)
      · cases hk : (s.conn k).started with
        | false => exact h.released k hk r hr
        | true => exact (hreturned k hk hin r hr).le
    released_ended := fun k hk r hr hpos => by
      have hout : k ∉ s.head := by
        intro hin
        have h0 := hkept k hin r hr
        omega
      have hjoins := (h.gone k hk hout).joined
      exact ⟨hjoins, ((h.joined k).2 (by omega)).2⟩
    listed_live := fun k hin => h.held htracked hin }

end Guarded

/-- The connection that is being set up and not yet in the list. -/
def unlisted : MainPc → Option ℕ
  | .openStream k | .dataInit k | .idInit k | .addThread k => some k
  | _ => none

/-- The list and the walk of `process_kill` after a run that inserted `ins`,
removed `del` and visited `seen`. -/
structure Walked (ins del seen : List ℕ) (s : Server) : Prop where
  nodup : ins.Nodup
  known : ∀ k ∈ ins, k < s.accepted
  new : ∀ k, unlisted s.pc = some k → k ∉ ins
  head_eq : s.head = ins.reverse.filter fun k => k ∉ del
  early : killing s.pc = false → s.pc ≠ .exited → del = [] ∧ seen = []
  along : killing s.pc = true → seen ++ ahead s.pc = ins.reverse
  seen_le : seen <+: ins.reverse

theorem walked_init (pair : ℕ → AesdSeekto) : Walked [] [] [] (Server.init pair) where
  nodup := List.nodup_nil
  known k hk := by simp at hk
  new k _ := List.not_mem_nil
  head_eq := rfl
  early _ _ := ⟨rfl, rfl⟩
  along h := by simp [Server.init, killing] at h
  seen_le := List.prefix_refl []

namespace Walked

variable {s t : Server} {ins del seen : List ℕ}

/-- A step that neither inserts, removes nor visits a node. -/
theorem keep (h : Walked ins del seen s) (hhead : t.head = s.head)
    (haccepted : s.accepted ≤ t.accepted)
    (hnew : ∀ k, unlisted t.pc = some k → unlisted s.pc = some k ∨ s.accepted ≤ k)
    (hearly : killing t.pc = false → t.pc ≠ .exited → killing s.pc = false ∧ s.pc ≠ .exited)
    (halong : killing t.pc = true → (killing s.pc = true ∧ ahead t.pc = ahead s.pc) ∨
      (killing s.pc = false ∧ s.pc ≠ .exited ∧ ahead t.pc = s.head)) : Walked ins del seen t where
  nodup := h.nodup
  known k hk := (h.known k hk).trans_le haccepted
  new k hk hin := by
    rcases hnew k hk with hold | hge
    · exact h.new k hold hin
    · exact absurd (h.known k hin) (by omega)
  head_eq := hhead.trans h.head_eq
  early hk hpc := h.early (hearly hk hpc).1 (hearly hk hpc).2
  along hk := by
    rcases halong hk with ⟨hkilling, hahead⟩ | ⟨hkilling, hpc, hahead⟩
    · rw [hahead]
      exact h.along hkilling
    · obtain ⟨rfl, rfl⟩ := h.early hkilling hpc
      rw [hahead, h.head_eq]
      simp
  seen_le := h.seen_le

/-- A step of another thread. -/
theorem stay (h : Walked ins del seen s) (hpc : t.pc = s.pc) (hhead : t.head = s.head)
    (haccepted : t.accepted = s.accepted) : Walked ins del seen t := by
  refine h.keep hhead haccepted.ge (fun k hk => Or.inl (hpc ▸ hk)) (fun hk he => ?_) fun hk => ?_
  · rw [hpc] at hk he
    exact ⟨hk, he⟩
  · rw [hpc] at hk ⊢
    exact Or.inl ⟨hk, rfl⟩

/-- `add_thread_to_list` inserts a connection that was never in the list. -/
theorem insert (h : Walked ins del seen s) {k : ℕ} (hpc : s.pc = .addThread k)
    (hknown : k < s.accepted) :
    Walked (ins ++ [k]) del seen ((s.addThreadToList k).goto (.createThread k)) := by
  have hout : k ∉ ins := h.new k (by simp [hpc, unlisted])
  obtain ⟨rfl, rfl⟩ := h.early (by simp [hpc, killing]) (by simp [hpc])
  have hhead := h.head_eq
  exact {
    nodup := by simpa using h.nodup.concat hout
    known := fun j hj => by
      rcases List.mem_append.mp hj with hj | hj
      · exact h.known j hj
      · obtain rfl := List.mem_singleton.mp hj
        exact hknown
    new := fun j hj => by simp [unlisted] at hj
    head_eq := by
      simp only [List.not_mem_nil, not_false_eq_true, decide_true, List.filter_true] at hhead
      simp [Server.addThreadToList, hhead]
    early := fun _ _ => ⟨rfl, rfl⟩
    along := fun hk => by simp [killing] at hk
    seen_le := List.nil_prefix }

/-- The walk of `process_kill` looks at the next node. -/
theorem visit (h : Walked ins del seen s) {k : ℕ} {rest : List ℕ} {pc : MainPc}
    (hpc : s.pc = .killWalk (k :: rest)) (hkilling : killing pc = true) (hahead : ahead pc = rest) :
    Walked ins del (seen ++ [k]) (s.goto pc) := by
  have halong := h.along (by simp [hpc, killing])
  simp only [hpc, ahead] at halong
  exact {
    nodup := h.nodup
    known := h.known
    new := fun j hj => by cases pc <;> simp_all [unlisted, killing]
    head_eq := h.head_eq
    early := fun hk _ => by simp [hkilling] at hk
    along := fun _ => by simpa [hahead] using halong
    seen_le := ⟨rest, by simpa using halong⟩ }

/-- `SLIST_REMOVE` takes out the node the walk stands on. -/
theorem remove (h : Walked ins del seen s) (htracked : Tracked s) {k : ℕ} {rest : List ℕ}
    (hpc : s.pc = .killReclaim k rest) :
    Walked ins (del ++ [k]) seen ((s.reclaim k).goto (.killWalk rest)) := by
  exact {
    nodup := h.nodup
    known := h.known
    new := fun j hj => by simp [unlisted] at hj
    head_eq := by
      have hhead : (s.reclaim k).head = s.head.filter fun j => j != k :=
        htracked.nodup.erase_eq_filter k
      rw [Server.goto_head, hhead, h.head_eq, List.filter_filter]
      apply List.filter_congr
      intro j _
      simp [bne, beq_eq_decide, and_comm]
    early := fun hk => by simp [killing] at hk
    along := fun _ => by simpa [hpc, ahead] using h.along (by simp [hpc, killing])
    seen_le := h.seen_le }

theorem moves (h : Walked ins del seen s) (htracked : Tracked s) {e : Event}
    (hmove : s.Moves e t) :
    Walked (ins ++ listed s (.main e)) (del ++ removed s (.main e)) (seen ++ visited s (.main e))
      t := by
  cases hmove with
  | @addThread k hpc =>
    have hpending := (htracked.atAddThread hpc).1
    simpa [listed, removed, visited, hpc] using h.insert hpc hpending.known
  | @walkComplete e k rest hpc =>
    have hvisit : Walked ins del (seen ++ [k]) (s.goto (.killJoin k rest)) := h.visit hpc rfl rfl
    cases e <;> simpa [listed, removed, visited, hpc] using hvisit
  | @walkRunning e k rest hpc =>
    have hvisit : Walked ins del (seen ++ [k]) (s.goto (.killWalk rest)) := h.visit hpc rfl rfl
    cases e <;> simpa [listed, removed, visited, hpc] using hvisit
  | @killReclaim k rest hpc =>
    simpa [listed, removed, visited, hpc] using h.remove htracked hpc
  | exits hexit =>
    have hvisited : visited s (.main .exits) = [] := by
      cases hpc : s.pc <;> simp_all [visited, MainPc.mayExit]
    have hquiet : Walked ins del seen (s.goto .exited) :=
      h.keep rfl le_rfl (by simp [unlisted]) (by simp) (by simp [killing])
    simpa [hvisited, listed, removed] using hquiet
  | accepted hpc =>
    have hquiet : Walked ins del seen (s.accept.goto (.openStream s.accepted)) :=
      h.keep rfl (Nat.le_succ _) (by simp [unlisted]) (by simp [hpc, killing]) (by simp [killing])
    simpa [listed, removed, visited, hpc] using hquiet
  | kill hpc =>
    have hquiet : Walked ins del seen (s.goto (.killWalk s.head)) :=
      h.keep rfl le_rfl (by simp [unlisted]) (by simp [killing]) (by simp [hpc, killing, ahead])
    simpa [listed, removed, visited, hpc] using hquiet
  | @sweepComplete e k rest hpc =>
    have hquiet : Walked ins del seen (s.goto (.sweepJoin k rest)) :=
      h.keep rfl le_rfl (by simp [unlisted]) (by simp [hpc, killing]) (by simp [killing])
    cases e <;> simpa [listed, removed, visited, hpc] using hquiet
  | @sweepRunning e k rest hpc =>
    have hquiet : Walked ins del seen (s.goto (.sweep rest)) :=
      h.keep rfl le_rfl (by simp [unlisted]) (by simp [hpc, killing]) (by simp [killing])
    cases e <;> simpa [listed, removed, visited, hpc] using hquiet
  | idle hpc =>
    have hquiet : Walked ins del seen (s.fclose.goto (.sweep s.head)) :=
      h.keep (by simp) (by simp) (by simp [unlisted]) (by simp [hpc, killing]) (by simp [killing])
    simpa [listed, removed, visited, hpc] using hquiet
  | killStream hpc =>
    have hquiet : Walked ins del seen (s.fclose.goto .killSocket) :=
      h.keep (by simp) (by simp) (by simp [unlisted]) (by simp [killing])
        (by simp [hpc, killing, ahead])
    simpa [listed, removed, visited, hpc] using hquiet
  | _ hpc =>
    simp only [listed, removed, visited, hpc, List.append_nil]
    exact h.keep rfl le_rfl (by simp [hpc, unlisted]) (by simp [hpc, killing])
      (by simp [hpc, killing, ahead])

/-- One step of the server. -/
theorem next (h : Walked ins del seen s) (htracked : Tracked s) {l : Label}
    (hnext : s.next l = some t) :
    Walked (ins ++ listed s l) (del ++ removed s l) (seen ++ visited s l) t := by
  rcases Server.next_cases hnext with ⟨e, rfl, hmove⟩ | ⟨k, a, pool, rfl, _, _, _, rfl⟩ |
    ⟨rfl, _, rfl⟩
  · exact h.moves htracked hmove
  · have hquiet : Walked ins del seen { s.noteComplete k with pool } :=
      h.stay (by simp) (by simp) (by simp)
    simpa [listed, removed, visited] using hquiet
  · have hquiet : Walked ins del seen { s with signalSign := true } :=
      h.stay rfl rfl rfl
    simpa [listed, removed, visited] using hquiet

end Walked

/-- What the steps of a run from the start put out. -/
def trace (pair : ℕ → AesdSeekto) (out : Server → Label → List ℕ) (ls : List Label) : List ℕ :=
  outputs Server.next out (Server.init pair) ls

/-- In every run in which thread creation succeeds: joins and releases are
orderly, the list consists of the inserted nodes that were not removed, newest
first, and the walk of `process_kill` visits each node once. -/
theorem reclaimed_in_order (pair : ℕ → AesdSeekto) (ls : List Label)
    (hcreates : Steps Server.next (fun s l => creates s l = true) (Server.init pair) ls)
    {s : Server} (hrun : exec Server.next (Server.init pair) ls = some s) :
    Orderly s ∧
    s.head = (trace pair listed ls).reverse.filter (fun k => k ∉ trace pair removed ls) ∧
    (trace pair visited ls).Nodup ∧
    trace pair visited ls <+: (trace pair listed ls).reverse ∧
    (killing s.pc = true →
      trace pair visited ls ++ ahead s.pc = (trace pair listed ls).reverse) := by
  have hinv : Tracked s ∧ Guarded s ∧
      Walked (trace pair listed ls) (trace pair removed ls) (trace pair visited ls) s := by
    refine @Steps.history _ _ _ (fun s l => creates s l = true) (fun ls s => Tracked s ∧ Guarded s ∧
      Walked (trace pair listed ls) (trace pair removed ls) (trace pair visited ls) s) _
      ⟨tracked_init pair, guarded_init pair, walked_init pair⟩ ?_ _ _ hcreates hrun
    rintro ls s l t hls ⟨htracked, hguarded, hwalked⟩ hc hnext
    refine ⟨htracked.next hnext, hguarded.next htracked hnext hc, ?_⟩
    simp only [trace, outputs_concat hls hnext]
    exact hwalked.next htracked hnext
  obtain ⟨htracked, hguarded, hwalked⟩ := hinv
  exact ⟨hguarded.orderly htracked, hwalked.head_eq,
    (List.nodup_reverse.mpr hwalked.nodup).sublist hwalked.seen_le.sublist, hwalked.seen_le,
    hwalked.along⟩

theorem two_connections_in_order :
    ∃ s, exec Server.next (Server.init fun _ => ⟨0, 0⟩) twoConnections = some s ∧
      Orderly s ∧ s.head = [] ∧ (s.conn 0).joins = 1 ∧ (s.conn 1).joins = 1 :=
  ⟨_, rfl, (reclaimed_in_order (fun _ => ⟨0, 0⟩) twoConnections (by decide) rfl).1, rfl, rfl, rfl⟩

end Aesd.JoinedOnce
