import Aesd.ServerMain
import Mathlib.Data.List.Nodup

/-!
The thread list: which connections are in it, what each of them still owns, and
how far a loop over it has come. A started thread is in the list until
`process_kill` has waited for its end and reclaimed its node.
-/

namespace Aesd.ThreadList

open CharDriver EchoWorker WorkerPool ServerMain Runs

/-- A connection that owns all that is allocated for it. -/
structure Held (c : Conn) : Prop where
  socket : c.socket = .held
  threadData : c.threadData = .held
  ptid : c.ptid = .held
  node : c.node = .held

/-- The nodes that the loop over the list still has to finish. -/
def remaining : MainPc → List ℕ
  | .sweep rest | .killWalk rest => rest
  | .sweepJoin k rest | .killJoin k rest | .killReclaim k rest => k :: rest
  | _ => []

/-- A connection whose thread is not created yet. -/
structure Pending (s : Server) (k : ℕ) : Prop where
  known : k < s.accepted
  unlisted : k ∉ s.head
  unstarted : (s.conn k).started = false
  socket : (s.conn k).socket = .held

/-- What the connection that is being set up owns. -/
def Prepared (s : Server) : Prop :=
  match s.pc with
  | .openStream k | .dataInit k => Pending s k
  | .idInit k => Pending s k ∧ (s.conn k).threadData = .held
  | .addThread k => Pending s k ∧ (s.conn k).threadData = .held ∧ (s.conn k).ptid = .held
  | .createThread k =>
    k < s.accepted ∧ k ∈ s.head ∧ (s.conn k).started = false ∧ Held (s.conn k)
  | _ => True

/-- The thread list in a state of the server. -/
structure Tracked (s : Server) : Prop where
  nodup : s.head.Nodup
  listed : ∀ k ∈ s.head, k < s.accepted
  known : ∀ k, (s.conn k).started = true → k < s.accepted
  ended : ∀ k, (s.conn k).started = true → k ∉ s.head → (s.pool.worker k).pc = .done
  owned : ∀ k ∈ s.head, (s.conn k).started = true → Held (s.conn k)
  upcoming : remaining s.pc <:+ s.head
  joined : ∀ k rest, s.pc = .killReclaim k rest → s.Joinable k
  prepared : Prepared s

theorem tracked_init (pair : ℕ → AesdSeekto) : Tracked (Server.init pair) where
  nodup := List.nodup_nil
  listed k hk := by simp [Server.init] at hk
  known k hk := by simp [Server.init] at hk
  ended k hk := by simp [Server.init] at hk
  owned k hk := by simp [Server.init] at hk
  upcoming := List.suffix_refl []
  joined k rest h := by simp [Server.init] at h
  prepared := trivial

/-- A worker that has ended stays where it is. -/
theorem done_of_next {p p' : Pool} {i k : ℕ} {a : Answer} (hnext : p.next (i, a) = some p')
    (hdone : (p.worker k).pc = .done) : (p'.worker k).pc = .done := by
  obtain ⟨hmove, hother⟩ := Pool.next_worker hnext
  by_cases hk : k = i
  · subst hk
    exact absurd hdone hmove.not_done
  · rw [hother k hk]
    exact hdone

/-- Taking a node out leaves the rest of the list behind it. -/
theorem suffix_erase {k : ℕ} {rest l : List ℕ} (hnodup : l.Nodup) (h : k :: rest <:+ l) :
    rest <:+ l.erase k := by
  obtain ⟨front, rfl⟩ := h
  have hfront : k ∉ front := by
    intro hk
    exact List.disjoint_of_nodup_append hnodup hk List.mem_cons_self
  rw [List.erase_append_right _ hfront, List.erase_cons_head]
  exact List.suffix_append front rest

/-- Accepting a connection changes no started one. -/
theorem started_of_accept {s : Server} {k : ℕ} (hk : (s.accept.conn k).started = true) :
    (s.conn k).started = true ∧ s.accept.conn k = s.conn k := by
  have hne : k ≠ s.accepted := by
    rintro rfl
    simp at hk
  simpa [hne] using hk

/-- The completion flags do not matter for the list. -/
theorem Prepared.congr {s t : Server} (h : Prepared s) (hpc : t.pc = s.pc) (hhead : t.head = s.head)
    (haccepted : t.accepted = s.accepted)
    (hconn : ∀ k, ∃ status, t.conn k = { s.conn k with complete := status }) : Prepared t := by
  have hpending : ∀ k, Pending s k → Pending t k := by
    intro k hk
    obtain ⟨status, hc⟩ := hconn k
    exact ⟨by rw [haccepted]; exact hk.known, by rw [hhead]; exact hk.unlisted,
      by rw [hc]; exact hk.unstarted, by rw [hc]; exact hk.socket⟩
  unfold Prepared at h ⊢
  rw [hpc]
  split
  · rename_i k hk
    simp only [hk] at h
    exact hpending k h
  · rename_i k hk
    simp only [hk] at h
    exact hpending k h
  · rename_i k hk
    obtain ⟨status, hc⟩ := hconn k
    simp only [hk] at h
    exact ⟨hpending k h.1, by rw [hc]; exact h.2⟩
  · rename_i k hk
    obtain ⟨status, hc⟩ := hconn k
    simp only [hk] at h
    exact ⟨hpending k h.1, by rw [hc]; exact h.2⟩
  · rename_i k hk
    obtain ⟨status, hc⟩ := hconn k
    simp only [hk] at h
    obtain ⟨hknown, hin, hunstarted, hheld⟩ := h
    rw [hhead, haccepted, hc]
    exact ⟨hknown, hin, hunstarted, ⟨hheld.socket, hheld.threadData, hheld.ptid, hheld.node⟩⟩
  · trivial

namespace Tracked

variable {s t : Server}

section SetUp

variable {k : ℕ}

theorem atOpenStream (h : Tracked s) (hpc : s.pc = .openStream k) : Pending s k := by
  simpa only [Prepared, hpc] using h.prepared

theorem atDataInit (h : Tracked s) (hpc : s.pc = .dataInit k) : Pending s k := by
  simpa only [Prepared, hpc] using h.prepared

theorem atIdInit (h : Tracked s) (hpc : s.pc = .idInit k) :
    Pending s k ∧ (s.conn k).threadData = .held := by
  simpa only [Prepared, hpc] using h.prepared

theorem atAddThread (h : Tracked s) (hpc : s.pc = .addThread k) :
    Pending s k ∧ (s.conn k).threadData = .held ∧ (s.conn k).ptid = .held := by
  simpa only [Prepared, hpc] using h.prepared

theorem atCreateThread (h : Tracked s) (hpc : s.pc = .createThread k) :
    k < s.accepted ∧ k ∈ s.head ∧ (s.conn k).started = false ∧ Held (s.conn k) := by
  simpa only [Prepared, hpc] using h.prepared

end SetUp

/-- A step that neither lists nor starts a connection. -/
theorem keep (h : Tracked s) (hhead : t.head = s.head) (haccepted : t.accepted = s.accepted)
    (hstarted : ∀ k, (t.conn k).started = true → (s.conn k).started = true)
    (hended : ∀ k, (s.pool.worker k).pc = .done → (t.pool.worker k).pc = .done)
    (hheld : ∀ k, (t.conn k).started = true → Held (s.conn k) → Held (t.conn k))
    (hupcoming : remaining t.pc <:+ s.head)
    (hjoined : ∀ k rest, t.pc = .killReclaim k rest → t.Joinable k)
    (hprepared : Prepared t) : Tracked t where
  nodup := by rw [hhead]; exact h.nodup
  listed := by rw [hhead, haccepted]; exact h.listed
  known k hk := by rw [haccepted]; exact h.known k (hstarted k hk)
  ended k hk hout := hended k (h.ended k (hstarted k hk) (by rwa [hhead] at hout))
  owned k hin hk := hheld k hk (h.owned k (by rwa [hhead] at hin) (hstarted k hk))
  upcoming := by rw [hhead]; exact hupcoming
  joined := hjoined
  prepared := hprepared

/-- A step that only goes on to a place outside the setup of a connection. -/
theorem goto (h : Tracked s) {pc : MainPc} (hupcoming : remaining pc <:+ s.head)
    (hjoined : ∀ k rest, pc ≠ .killReclaim k rest)
    (hprepared : Prepared (s.goto pc)) : Tracked (s.goto pc) :=
  h.keep rfl rfl (fun _ hk => hk) (fun _ hk => hk) (fun _ _ hk => hk) hupcoming
    (fun k rest hk => absurd hk (hjoined k rest)) hprepared

/-- A number that was not given to a connection yet. -/
theorem fresh (h : Tracked s) : s.accepted ∉ s.head ∧ (s.conn s.accepted).started = false := by
  constructor
  · intro hk
    exact absurd (h.listed _ hk) (Nat.lt_irrefl _)
  · by_contra hk
    exact absurd (h.known _ (by simpa using hk)) (Nat.lt_irrefl _)

theorem accept (h : Tracked s) : Tracked (s.accept.goto (.openStream s.accepted)) where
  nodup := h.nodup
  listed k hk := Nat.lt_succ_of_lt (h.listed k hk)
  known k hk := Nat.lt_succ_of_lt (h.known k (started_of_accept hk).1)
  ended k hk := h.ended k (started_of_accept hk).1
  owned k hin hk := by
    obtain ⟨hstarted, hsame⟩ := started_of_accept hk
    exact hsame.symm ▸ h.owned k hin hstarted
  upcoming := List.nil_suffix
  joined := by simp
  prepared := {
    known := Nat.lt_succ_self _
    unlisted := h.fresh.1
    unstarted := by simp
    socket := by simp }

/-- Changing a connection that is not started, without starting it. -/
theorem setConn (h : Tracked s) {k : ℕ} {c : Conn} {pc : MainPc}
    (hold : (s.conn k).started = false) (hnew : c.started = false)
    (hpc : remaining pc = []) (hjoined : ∀ k rest, pc ≠ .killReclaim k rest)
    (hprepared : Prepared ((s.setConn k c).goto pc)) : Tracked ((s.setConn k c).goto pc) := by
  have hother : ∀ j, ((s.setConn k c).conn j).started = true →
      (s.conn j).started = true ∧ (s.setConn k c).conn j = s.conn j := by
    intro j hj
    have hne : j ≠ k := by
      rintro rfl
      simp [hnew] at hj
    simpa [hne] using hj
  refine h.keep rfl rfl (fun j hj => (hother j hj).1) (fun _ hj => hj) (fun j hj hheld => ?_)
    (by simp [hpc]) (fun j rest hj => absurd hj (hjoined j rest)) hprepared
  exact (hother j hj).2.symm ▸ hheld

theorem Pending.setConn {k : ℕ} {c : Conn} {pc : MainPc} (h : Pending s k)
    (hstarted : c.started = false) (hsocket : c.socket = .held) :
    Pending ((s.setConn k c).goto pc) k where
  known := h.known
  unlisted := h.unlisted
  unstarted := by simpa using hstarted
  socket := by simpa using hsocket

/-- `add_thread_to_list` lists a connection that is not started. -/
theorem addThread (h : Tracked s) {k : ℕ} (hpending : Pending s k)
    (hdata : (s.conn k).threadData = .held) (hid : (s.conn k).ptid = .held) :
    Tracked ((s.addThreadToList k).goto (.createThread k)) := by
  have hother : ∀ j, ((s.addThreadToList k).conn j).started = true → j ≠ k := by
    rintro j hj rfl
    simp [hpending.unstarted] at hj
  exact {
    nodup := List.nodup_cons.mpr ⟨hpending.unlisted, h.nodup⟩
    listed := List.forall_mem_cons.mpr ⟨hpending.known, h.listed⟩
    known := fun j hj => h.known j (by simpa [hother j hj] using hj)
    ended := fun j hj hout => by
      have hne := hother j hj
      exact h.ended j (by simpa [hne] using hj) fun hin => hout (List.mem_cons_of_mem k hin)
    owned := fun j hin hj => by
      have hne := hother j hj
      have hin' : j ∈ s.head := (List.mem_cons.mp hin).resolve_left hne
      simpa [hne] using h.owned j hin' (by simpa [hne] using hj)
    upcoming := List.nil_suffix
    joined := by simp
    prepared := ⟨hpending.known, List.mem_cons_self, by simpa using hpending.unstarted,
      ⟨by simpa using hpending.socket, by simpa using hdata, by simpa using hid, by simp⟩⟩ }

/-- `pthread_create` starts a connection that is in the list. -/
theorem createThread (h : Tracked s) {k : ℕ} (hknown : k < s.accepted) (hin : k ∈ s.head)
    (hheld : Held (s.conn k)) :
    Tracked ((s.setConn k { s.conn k with started := true }).goto (.checkSignal false)) where
  nodup := h.nodup
  listed := h.listed
  known j hj := by
    by_cases hjk : j = k
    · exact hjk ▸ hknown
    · exact h.known j (by simpa [hjk] using hj)
  ended j hj hout := by
    have hjk : j ≠ k := by
      rintro rfl
      exact hout hin
    exact h.ended j (by simpa [hjk] using hj) hout
  owned j hjin hj := by
    by_cases hjk : j = k
    · subst hjk
      simpa using (⟨hheld.socket, hheld.threadData, hheld.ptid, hheld.node⟩ :
        Held { s.conn j with started := true })
    · simpa [hjk] using h.owned j hjin (by simpa [hjk] using hj)
  upcoming := List.nil_suffix
  joined := by simp
  prepared := trivial

/-- `pthread_join` changes nothing that the connection owns. -/
theorem join (h : Tracked s) {k : ℕ} {c : Conn} {pc : MainPc}
    (hc : { c with joins := (s.conn k).joins, complete := (s.conn k).complete } = s.conn k)
    (hupcoming : remaining pc <:+ s.head)
    (hjoined : ∀ j rest, pc = .killReclaim j rest → ((s.setConn k c).goto pc).Joinable j)
    (hprepared : Prepared ((s.setConn k c).goto pc)) : Tracked ((s.setConn k c).goto pc) := by
  refine h.keep rfl rfl (fun j hj => ?_) (fun _ hj => hj) (fun j hj hheld => ?_) hupcoming hjoined
    hprepared
  · by_cases hjk : j = k
    · subst hjk
      rw [← hc]
      simpa using hj
    · simpa [hjk] using hj
  · by_cases hjk : j = k
    · subst hjk
      rw [← hc] at hheld
      simpa using (⟨hheld.socket, hheld.threadData, hheld.ptid, hheld.node⟩ : Held c)
    · simpa [hjk] using hheld

/-- Reclaiming takes a connection whose thread has ended out of the list. -/
theorem reclaim (h : Tracked s) {k : ℕ} {rest : List ℕ} (hupcoming : k :: rest <:+ s.head)
    (hjoin : s.Joinable k) : Tracked ((s.reclaim k).goto (.killWalk rest)) := by
  have hstarted : ∀ j, ((s.reclaim k).conn j).started = true → (s.conn j).started = true := by
    intro j hj
    by_cases hjk : j = k <;> simp_all
  exact {
    nodup := h.nodup.erase k
    listed := fun j hj => h.listed j (List.mem_of_mem_erase hj)
    known := fun j hj => h.known j (hstarted j hj)
    ended := fun j hj hout => by
      by_cases hjk : j = k
      · subst hjk
        exact hjoin (hstarted j hj)
      · exact h.ended j (hstarted j hj) fun hin => hout ((List.mem_erase_of_ne hjk).mpr hin)
    owned := fun j hin hj => by
      obtain ⟨hne, hin'⟩ := h.nodup.mem_erase_iff.mp hin
      simpa [hne] using h.owned j hin' (hstarted j hj)
    upcoming := suffix_erase h.nodup hupcoming
    joined := by simp
    prepared := trivial }

theorem moves (h : Tracked s) {e : Event} (hmove : s.Moves e t) : Tracked t := by
  have hupcoming := h.upcoming
  cases hmove with
  | accepted => exact h.accept
  | @opened k hpc =>
    have hpending := h.atOpenStream hpc
    exact h.keep rfl rfl (fun _ hk => hk) (fun _ hk => hk) (fun _ _ hk => hk) List.nil_suffix
      (by simp) ⟨hpending.known, hpending.unlisted, hpending.unstarted, hpending.socket⟩
  | @alreadyOpen k hpc =>
    have hpending := h.atOpenStream hpc
    exact h.goto List.nil_suffix (by simp)
      ⟨hpending.known, hpending.unlisted, hpending.unstarted, hpending.socket⟩
  | @dataInit k hpc =>
    have hpending := h.atDataInit hpc
    refine h.setConn hpending.unstarted hpending.unstarted rfl (by simp) ?_
    exact ⟨Pending.setConn hpending hpending.unstarted hpending.socket, by simp⟩
  | @idInit k hpc =>
    obtain ⟨hpending, hdata⟩ := h.atIdInit hpc
    refine h.setConn hpending.unstarted hpending.unstarted rfl (by simp) ?_
    exact ⟨Pending.setConn hpending hpending.unstarted hpending.socket, by simpa using hdata,
      by simp⟩
  | @idInitFails k hpc =>
    have hunstarted := (h.atIdInit hpc).1.unstarted
    exact h.setConn hunstarted hunstarted rfl (by simp) trivial
  | @addThread k hpc =>
    obtain ⟨hpending, hdata, hid⟩ := h.atAddThread hpc
    exact h.addThread hpending hdata hid
  | @createThread k hpc =>
    obtain ⟨hknown, hin, _, hheld⟩ := h.atCreateThread hpc
    exact h.createThread hknown hin hheld
  | @createThreadFails k hpc =>
    obtain ⟨_, _, hunstarted, _⟩ := h.atCreateThread hpc
    exact h.setConn hunstarted hunstarted rfl (by simp) trivial
  | kill => exact h.goto (List.suffix_refl _) (by simp) trivial
  | idle =>
    exact h.keep (by simp) (by simp) (by simp) (by simp) (by simp) (List.suffix_refl _) (by simp)
      trivial
  | killStream =>
    exact h.keep (by simp) (by simp) (by simp) (by simp) (by simp) List.nil_suffix (by simp) trivial
  | killMutex =>
    exact h.keep rfl rfl (fun _ hk => hk) (fun _ hk => hk) (fun _ _ hk => hk) List.nil_suffix
      (by simp) trivial
  | @sweepComplete e k rest hpc | @walkComplete e k rest hpc =>
    exact h.goto (by simpa [hpc, remaining] using hupcoming) (by simp) trivial
  | @sweepRunning e k rest hpc | @walkRunning e k rest hpc =>
    simp only [hpc, remaining] at hupcoming
    exact h.goto ((List.suffix_cons k rest).trans hupcoming) (by simp) trivial
  | @sweepJoin k rest hpc hjoin =>
    simp only [hpc, remaining] at hupcoming
    exact h.join rfl ((List.suffix_cons k rest).trans hupcoming) (by simp) trivial
  | @killJoin k rest hpc hjoin =>
    simp only [hpc, remaining] at hupcoming
    refine h.join rfl hupcoming (fun j rest' hj => ?_) trivial
    obtain ⟨rfl, -⟩ : k = j ∧ rest = rest' := by simpa using hj
    simpa [Server.Joinable] using hjoin
  | @killReclaim k rest hpc =>
    simp only [hpc, remaining] at hupcoming
    exact h.reclaim hupcoming (h.joined k rest hpc)
  | _ => exact h.goto List.nil_suffix (by simp) trivial

/-- A call of a worker. -/
theorem worker (h : Tracked s) {k : ℕ} {a : Answer} {pool : Pool}
    (hpool : s.pool.next (k, a) = some pool) : Tracked { s.noteComplete k with pool } := by
  have hconn := s.noteComplete_conn k
  refine h.keep (by simp) (by simp) (fun j hj => ?_) (fun j hj => done_of_next hpool hj)
    (fun j _ hheld => ?_) (by simpa using h.upcoming) (fun j rest hj => ?_)
    (h.prepared.congr (by simp) (by simp) (by simp) hconn)
  · obtain ⟨status, hc⟩ := hconn j
    simpa [hc] using hj
  · obtain ⟨status, hc⟩ := hconn j
    rw [hc]
    exact ⟨hheld.socket, hheld.threadData, hheld.ptid, hheld.node⟩
  · obtain ⟨status, hc⟩ := hconn j
    intro hstarted
    have hjoin := h.joined j rest (by simpa using hj)
    exact done_of_next hpool (hjoin (by simpa [hc] using hstarted))

/-- Whatever step the server takes, the list stays in order. -/
theorem next (h : Tracked s) {l : Label} (hnext : s.next l = some t) : Tracked t := by
  rcases Server.next_cases hnext with ⟨e, rfl, hmove⟩ | ⟨k, a, pool, rfl, _, _, hpool, rfl⟩ |
    ⟨rfl, _, rfl⟩
  · exact h.moves hmove
  · exact h.worker hpool
  · exact h.keep rfl rfl (fun _ hk => hk) (fun _ hk => hk) (fun _ _ hk => hk) h.upcoming h.joined
      (h.prepared.congr rfl rfl rfl fun k => ⟨(s.conn k).complete, rfl⟩)

end Tracked

end Aesd.ThreadList
