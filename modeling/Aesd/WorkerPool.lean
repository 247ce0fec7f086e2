import Aesd.EchoWorker
import Aesd.Runs

/-!
Any number of workers that share one mutex. A step is a call of one worker with
its answer; `pthread_mutex_lock` is only answered while nobody holds the mutex.
A worker that stays in its loop body until an iteration gives the mutex back
keeps the discipline of the mutex. It leaves the body with the mutex held when
the received bytes have no newline, and whenever a write, the size of the
device, a read or a send stops the loop.
-/

namespace Aesd.WorkerPool

open CharDriver EchoWorker Runs

/-- `holder` is the owner of the mutex. -/
structure Pool where
  worker : ℕ → Worker
  holder : Option ℕ

namespace Pool

/-- No worker has started; each has its own uninitialised `pair`. -/
def init (pair : ℕ → AesdSeekto) : Pool where
  worker i := Worker.init (pair i)
  holder := none

def set (p : Pool) (i : ℕ) (w : Worker) (holder : Option ℕ) : Pool where
  worker := Function.update p.worker i w
  holder := holder

def next (p : Pool) (l : ℕ × Answer) : Option Pool :=
  match (p.worker l.1).step l.2, (p.worker l.1).op with
  | some w, some .mutexLock => if p.holder = none then some (p.set l.1 w (some l.1)) else none
  | some w, some .mutexUnlock => some (p.set l.1 w none)
  | some w, _ => some (p.set l.1 w p.holder)
  | none, _ => none

@[simp] theorem set_worker_self (p : Pool) (i : ℕ) (w : Worker) (holder : Option ℕ) :
    (p.set i w holder).worker i = w := by simp [set]

@[simp] theorem set_worker_of_ne (p : Pool) {i j : ℕ} (h : j ≠ i) (w : Worker)
    (holder : Option ℕ) : (p.set i w holder).worker j = p.worker j := by simp [set, h]

@[simp] theorem set_holder (p : Pool) (i : ℕ) (w : Worker) (holder : Option ℕ) :
    (p.set i w holder).holder = holder := rfl

/-- A step of the pool is a move of one worker and what it does to the mutex. -/
theorem next_cases {p p' : Pool} {i : ℕ} {a : Answer} (h : p.next (i, a) = some p') :
    ∃ w, (p.worker i).Moves a w ∧
      (((p.worker i).op = some .mutexLock ∧ p.holder = none ∧ p' = p.set i w (some i)) ∨
        ((p.worker i).op = some .mutexUnlock ∧ p' = p.set i w none) ∨
        ((p.worker i).op ≠ some .mutexLock ∧ (p.worker i).op ≠ some .mutexUnlock ∧
          p' = p.set i w p.holder)) := by
  unfold next at h
  cases hstep : (p.worker i).step a with
  | none => simp [hstep] at h
  | some w =>
    refine ⟨w, Worker.step_moves hstep, ?_⟩
    rw [hstep] at h
    dsimp only at h
    split at h
    · rename_i hw hop
      cases hw
      obtain ⟨hfree, hp⟩ := Option.ite_none_right_eq_some.mp h
      exact Or.inl ⟨hop, hfree, by simpa using hp.symm⟩
    · rename_i hw hop
      cases hw
      exact Or.inr (Or.inl ⟨hop, by simpa using h.symm⟩)
    · rename_i hw hlock hunlock
      cases hw
      exact Or.inr (Or.inr ⟨hlock, hunlock, by simpa using h.symm⟩)
    · cases h

/-- A step of the pool moves one worker. -/
theorem next_worker {p p' : Pool} {i : ℕ} {a : Answer} (h : p.next (i, a) = some p') :
    (p.worker i).Moves a (p'.worker i) ∧ ∀ j, j ≠ i → p'.worker j = p.worker j := by
  obtain ⟨w, hmove, ⟨_, _, rfl⟩ | ⟨_, rfl⟩ | ⟨_, _, rfl⟩⟩ := next_cases h <;>
    exact ⟨by simpa using hmove, fun j hj => set_worker_of_ne p hj w _⟩

end Pool

/-- The outcomes after which the worker is still in its loop body: a newline in
what it received, a write that wrote, a device that is not empty, no failed
read, a send that sent. -/
def StaysInBody (w : Worker) (a : Answer) : Prop :=
  match w.pc, a with
  | .receive, .recv data past => newline ∈ (w.store data past).string
  | .sizeSet false, .ret r => 0 < int32 (w.fileEnd - int32 r)
  | .ioctl, .ret _ => 0 < w.size
  | .write, .ret r => 0 < r
  | .read, .ret r => r ≠ -1
  | .send, .ret r => 0 < r
  | _, _ => True

theorem inside_dispatch (w : Worker) : w.dispatch.pc.inside = true ↔ newline ∈ w.string := by
  unfold Worker.dispatch
  by_cases hn : newline ∈ w.string
  · by_cases hc : COMMAND <+: w.string <;> simp [hn, hc, Pc.inside]
  · simp [hn, Pc.inside]

theorem inside_startRead (w : Worker) : w.startRead.pc.inside = true ↔ 0 < w.size := by
  unfold Worker.startRead
  by_cases hs : w.size ≤ 0
  · simp [hs, Pc.inside]
  · simp [hs, Pc.inside, Int.not_le.mp hs]

/-- A move of a worker in its loop body, other than an unlock, stays there
exactly for these outcomes. -/
theorem inside_iff {w w' : Worker} {a : Answer} (h : w.Moves a w') (hin : w.pc.inside = true)
    (hunlock : w.op ≠ some .mutexUnlock) : w'.pc.inside = true ↔ StaysInBody w a := by
  cases h with
  | start hpc => simp [hpc, Pc.inside] at hin
  | lock hpc => simp [hpc, Pc.inside] at hin
  | receive hpc => simp [StaysInBody, hpc, inside_dispatch]
  | close hpc => simp [StaysInBody, hpc, Pc.inside]
  | sizeEnd hpc => simp [StaysInBody, hpc, Pc.inside]
  | @sizeSet command r hpc =>
    cases command with
    | false => simp [StaysInBody, hpc, Worker.sized, inside_startRead]
    | true => simp [StaysInBody, hpc, Worker.sized, Pc.inside]
  | ioctl hpc => simp [StaysInBody, hpc, inside_startRead]
  | @write r hpc =>
    by_cases hr : r ≤ 0
    · simp [StaysInBody, hpc, hr, Pc.inside]
    · simp [StaysInBody, hpc, hr, Pc.inside, Int.not_le.mp hr]
  | flush hpc => simp [StaysInBody, hpc, Pc.inside]
  | bytes hpc => simp [StaysInBody, Worker.concat, hpc, Pc.inside]
  | endOfFile hpc => simp [StaysInBody, hpc, Pc.inside]
  | readError hpc => simp [StaysInBody, hpc, Pc.inside]
  | @send r hpc =>
    by_cases hr : r ≤ 0
    · simp [StaysInBody, hpc, hr, Pc.inside]
    · simp [StaysInBody, hpc, hr, Pc.inside, Int.not_le.mp hr]
  | unlock hpc => simp [hpc, Worker.op] at hunlock
  | unlockExit hpc => simp [hpc, Worker.op] at hunlock
  | finish hpc => simp [hpc, Pc.inside] at hin
  | ret hpc => simp [hpc, Pc.inside] at hin

theorem inside_of_lock {w w' : Worker} {a : Answer} (h : w.Moves a w')
    (hop : w.op = some .mutexLock) : w'.pc.inside = true := by
  cases h <;> simp_all [Worker.op, Pc.inside]

theorem outside_of_unlock {w w' : Worker} {a : Answer} (h : w.Moves a w')
    (hop : w.op = some .mutexUnlock) : w'.pc.inside = false := by
  cases h <;> simp_all [Worker.op, Pc.inside]

theorem outside_of_outside {w w' : Worker} {a : Answer} (h : w.Moves a w')
    (hout : w.pc.inside = false) (hop : w.op ≠ some .mutexLock) : w'.pc.inside = false := by
  cases h <;> simp_all [Worker.op, Pc.inside]

theorem staysInBody_of_outside {w : Worker} (hout : w.pc.inside = false) (a : Answer) :
    StaysInBody w a := by
  cases hpc : w.pc <;> cases a <;> simp_all [StaysInBody, Pc.inside]

theorem staysInBody_of_unlock {w : Worker} (hop : w.op = some .mutexUnlock) (a : Answer) :
    StaysInBody w a := by
  cases hpc : w.pc <;> cases a <;> simp_all [StaysInBody, Worker.op]

theorem inside_of_unlock {w : Worker} (hop : w.op = some .mutexUnlock) : w.pc.inside = true := by
  cases hpc : w.pc <;> simp_all [Worker.op, Pc.inside]

theorem outside_at_lock {w : Worker} (hop : w.op = some .mutexLock) : w.pc.inside = false := by
  cases hpc : w.pc <;> simp_all [Worker.op, Pc.inside]

/-- A move out of the loop body goes to the lock or behind the loop. -/
theorem outside_cases {w w' : Worker} {a : Answer} (h : w.Moves a w')
    (hout : w'.pc.inside = false) : w'.op = some .mutexLock ∨ w'.pc.left = true := by
  have hstart : w'.pc ≠ .start := by
    have hlater : ∀ p : Pc, ∀ q ∈ p.successors, q ≠ .start := by
      intro p
      cases p with
      | sizeSet command => cases command <;> simp [Pc.successors]
      | _ => simp [Pc.successors]
    exact hlater w.pc w'.pc h.pc_mem
  cases hpc : w'.pc <;> simp_all [Worker.op, Pc.inside, Pc.left]

/-- The discipline of the mutex in one state. -/
structure Disciplined (p : Pool) : Prop where
  lock_not_held : ∀ i, (p.worker i).op = some .mutexLock → p.holder ≠ some i
  unlock_held : ∀ i, (p.worker i).op = some .mutexUnlock → p.holder = some i
  left_not_held : ∀ i, (p.worker i).pc.left = true → p.holder ≠ some i
  free_outside : (∀ i, (p.worker i).pc.inside = false) → p.holder = none

/-- The holder is the one worker in its loop body. -/
def Balanced (p : Pool) : Prop := ∀ i, (p.worker i).pc.inside = true ↔ p.holder = some i

theorem balanced_init (pair : ℕ → AesdSeekto) : Balanced (Pool.init pair) := by
  intro i
  simp [Pool.init, Worker.init, Pc.inside]

theorem Balanced.disciplined {p : Pool} (h : Balanced p) : Disciplined p where
  lock_not_held i hop hheld := by
    have hin := (h i).mpr hheld
    rw [outside_at_lock hop] at hin
    cases hin
  unlock_held i hop := (h i).mp (inside_of_unlock hop)
  left_not_held i hleft hheld := by
    have hin := (h i).mpr hheld
    cases hpc : (p.worker i).pc <;> simp_all [Pc.inside, Pc.left]
  free_outside hout := by
    cases hholder : p.holder with
    | none => rfl
    | some i =>
      have hin := (h i).mpr hholder
      rw [hout i] at hin
      cases hin

/-- Moving one worker keeps the balance if the new holder fits its new place
and the others see no change. -/
theorem Balanced.set {p : Pool} (h : Balanced p) {i : ℕ} {w : Worker} {holder : Option ℕ}
    (hself : w.pc.inside = true ↔ holder = some i)
    (hother : ∀ j, j ≠ i → (holder = some j ↔ p.holder = some j)) :
    Balanced (p.set i w holder) := by
  intro j
  by_cases hj : j = i
  · subst hj
    simpa using hself
  · simpa [hj, hother j hj] using h j

theorem Balanced.next {p p' : Pool} {l : ℕ × Answer} (h : Balanced p) (hnext : p.next l = some p')
    (hstay : StaysInBody (p.worker l.1) l.2) : Balanced p' := by
  obtain ⟨i, a⟩ := l
  obtain ⟨w, hmove, ⟨hop, hfree, rfl⟩ | ⟨hop, rfl⟩ | ⟨hlock, hunlock, rfl⟩⟩ :=
    Pool.next_cases hnext
  · apply h.set
    · simp [inside_of_lock hmove hop]
    · intro j hj
      simp [hfree, hj.symm]
  · have hheld := (h i).mp (inside_of_unlock hop)
    apply h.set
    · simp [outside_of_unlock hmove hop]
    · intro j hj
      simp [hheld, hj.symm]
  · apply h.set
    · rw [← h i]
      cases hin : (p.worker i).pc.inside with
      | true => simpa [hin] using (inside_iff hmove hin hunlock).mpr hstay
      | false => simp [outside_of_outside hmove hin hlock]
    · simp

/-- Only the holder is in its loop body; this holds whatever the outcomes. -/
def Exclusive (p : Pool) : Prop := ∀ i, (p.worker i).pc.inside = true → p.holder = some i

theorem exclusive_init (pair : ℕ → AesdSeekto) : Exclusive (Pool.init pair) :=
  fun i hin => (balanced_init pair i).mp hin

theorem Exclusive.next {p p' : Pool} {l : ℕ × Answer} (h : Exclusive p)
    (hnext : p.next l = some p') : Exclusive p' := by
  obtain ⟨i, a⟩ := l
  obtain ⟨w, hmove, ⟨_, hfree, rfl⟩ | ⟨hop, rfl⟩ | ⟨hlock, _, rfl⟩⟩ := Pool.next_cases hnext
  · intro j hin
    by_cases hj : j = i
    · rw [hj, Pool.set_holder]
    · rw [Pool.set_worker_of_ne _ hj] at hin
      have hheld := h j hin
      rw [hfree] at hheld
      cases hheld
  · intro j hin
    by_cases hj : j = i
    · rw [hj, Pool.set_worker_self, outside_of_unlock hmove hop] at hin
      cases hin
    · rw [Pool.set_worker_of_ne _ hj] at hin
      have hi := h i (inside_of_unlock hop)
      rw [h j hin] at hi
      exact absurd (Option.some.inj hi) hj
  · intro j hin
    by_cases hj : j = i
    · rw [hj] at hin ⊢
      rw [Pool.set_worker_self] at hin
      apply h i
      by_contra hout
      rw [outside_of_outside hmove (by simpa using hout) hlock] at hin
      cases hin
    · rw [Pool.set_worker_of_ne _ hj] at hin
      exact h j hin

/-- The mutex passes to a worker only when that worker locks it. -/
theorem holder_next {p p' : Pool} {i j : ℕ} {a : Answer} (hnext : p.next (i, a) = some p')
    (hheld : p'.holder = some j) :
    p.holder = some j ∨ (i = j ∧ (p.worker i).op = some .mutexLock) := by
  obtain ⟨w, _, ⟨hop, _, rfl⟩ | ⟨_, rfl⟩ | ⟨_, _, rfl⟩⟩ := Pool.next_cases hnext
  · exact Or.inr ⟨Option.some.inj hheld, hop⟩
  · cases hheld
  · exact Or.inl hheld

/-- A step that leaves the loop body otherwise breaks the discipline. -/
theorem Balanced.staysInBody {p p' : Pool} {l : ℕ × Answer} (h : Balanced p)
    (hnext : p.next l = some p') (hd : Disciplined p') : StaysInBody (p.worker l.1) l.2 := by
  obtain ⟨i, a⟩ := l
  obtain ⟨w, hmove, ⟨hop, _, _⟩ | ⟨hop, _⟩ | ⟨_, hunlock, rfl⟩⟩ := Pool.next_cases hnext
  · exact staysInBody_of_outside (outside_at_lock hop) a
  · exact staysInBody_of_unlock hop a
  · cases hin : (p.worker i).pc.inside with
    | false => exact staysInBody_of_outside hin a
    | true =>
      have hheld : (p.set i w p.holder).holder = some i := (h i).mp hin
      rw [← inside_iff hmove hin hunlock]
      by_contra hout
      rcases outside_cases hmove (by simpa using hout) with hop | hleft
      · exact hd.lock_not_held i (by simpa using hop) hheld
      · exact hd.left_not_held i (by simpa using hleft) hheld

/-- Whatever the workers' steps and their outcomes: the discipline holds in
every state of a run exactly when each of its steps that can fail inside the
loop body does not. -/
theorem disciplined_iff (pair : ℕ → AesdSeekto) (ls : List (ℕ × Answer)) :
    States Pool.next Disciplined (Pool.init pair) ls ↔
      Steps Pool.next (fun p l => StaysInBody (p.worker l.1) l.2) (Pool.init pair) ls :=
  states_iff_steps (fun _ h => h.disciplined) (fun _ _ _ h hn hs => h.next hn hs)
    (fun _ _ _ h hn hd => h.staysInBody hn hd) (balanced_init pair)

/-- Three bytes without a newline: the worker waits for the mutex it holds. -/
theorem lock_while_held :
    ¬ ∀ (pair : ℕ → AesdSeekto) (ls : List (ℕ × Answer)),
      States Pool.next Disciplined (Pool.init pair) ls := by
  intro h
  have hrun := h (fun _ => ⟨0, 0⟩) [(0, .ret 0), (0, .ret 0), (0, .recv [97, 98, 99] [])]
  have hlast : Disciplined _ := hrun.last rfl
  exact hlast.lock_not_held 0 (by decide) (by decide)

end Aesd.WorkerPool
