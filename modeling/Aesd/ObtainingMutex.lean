import Aesd.ExclusiveUse
import Mathlib.Algebra.Ring.Int.Defs

/-!
The threading example. `start_thread_obtaining_mutex` starts a thread that runs
`threadfunc`: it sleeps, takes a mutex, sleeps again and gives the mutex back. A
process has any number of such threads on any number of mutexes, and a clock in
microseconds. The two waits are given in milliseconds and go to `usleep` as they
are, and what is compared with minus one is a thousand times its result.
-/

namespace Aesd.ObtainingMutex

open ExclusiveUse Runs

structure ThreadData where
  mutex : ℕ
  waitToObtainMs : ℤ
  waitToReleaseMs : ℤ
  threadCompleteSuccess : Bool := false
  deriving DecidableEq, Repr

/-- The calls of `threadfunc`. -/
inductive Pc
  | obtain
  | lock
  | release
  | unlock
  | done
  deriving DecidableEq, Repr

/-- `since` is when the call that the thread is in began. -/
structure Thread where
  param : ThreadData
  pc : Pc := .obtain
  since : ℕ
  deriving DecidableEq, Repr

/-- An `int` as a `useconds_t`. -/
def useconds (wait : ℤ) : ℕ := (wait % 2 ^ 32).toNat

/-- `usleep(...) * 1000 == -1` -/
def usleepFails (r : ℤ) : Bool := r * 1000 == -1

namespace Thread

def goto (t : Thread) (pc : Pc) (time : ℕ) : Thread := { t with pc, since := time }

def finish (t : Thread) (success : Bool) (time : ℕ) : Thread :=
  { param := { t.param with threadCompleteSuccess := success }, pc := .done, since := time }

/-- `threadfunc` from the return of a call on. -/
def resume (t : Thread) (r : ℤ) (time : ℕ) : Thread :=
  match t.pc with
  | .obtain => if usleepFails r then t.finish false time else t.goto .lock time
  | .lock => if r ≠ 0 then t.finish false time else t.goto .release time
  | .release => if usleepFails r then t.finish false time else t.goto .unlock time
  | .unlock => if r ≠ 0 then t.finish false time else t.finish true time
  | .done => t

end Thread

/-- `count` threads were created; `lost` counts the blocks that nothing points to
any more. -/
structure Process where
  thread : ℕ → Option Thread
  count : ℕ
  owner : ℕ → Option ℕ
  now : ℕ
  lost : ℕ

/-- A call of `start_thread_obtaining_mutex`: whether the `thread` argument is not
`NULL`, the other arguments, and what the calls in it come back with. -/
structure Call where
  thread : Bool := true
  mutex : Option ℕ
  waitToObtainMs : ℤ
  waitToReleaseMs : ℤ
  mallocThread : Bool := true
  mallocParam : Bool := true
  create : ℤ := 0

/-- `ret` is the return of the call that thread `i` is in. -/
inductive Label
  | start (c : Call)
  | ret (i : ℕ) (r : ℤ) (time : ℕ)

namespace Process

def init : Process where
  thread _ := none
  count := 0
  owner _ := none
  now := 0
  lost := 0

/-- `pthread_create` with `threadfunc`. -/
def create (p : Process) (param : ThreadData) : Process :=
  { p with thread := Function.update p.thread p.count (some { param, since := p.now })
           count := p.count + 1 }

def startThreadObtainingMutex (p : Process) (c : Call) : Bool × Process :=
  if c.thread = false ∧ c.mallocThread = false then (false, p)
  else
    -- what `thread_init` allocates is only known in here
    let p := if c.thread then p else { p with lost := p.lost + 1 }
    match c.mutex with
    | none => (false, p)
    | some mutex =>
      if c.mallocParam = false then (false, p)
      else if c.create ≠ 0 then (false, { p with lost := p.lost + 1 })
      else (true, p.create
        { mutex, waitToObtainMs := c.waitToObtainMs, waitToReleaseMs := c.waitToReleaseMs })

/-- What the calls of a thread can return at a time. A `usleep` that is not
interrupted takes its time, and `pthread_mutex_lock` waits for the mutex. -/
def returns (p : Process) (t : Thread) (r : ℤ) (time : ℕ) : Bool :=
  match t.pc with
  | .obtain => r == -1 || (r == 0 && t.since + useconds t.param.waitToObtainMs ≤ time)
  | .lock => 0 < r || (r == 0 && p.owner t.param.mutex == none)
  | .release => r == -1 || (r == 0 && t.since + useconds t.param.waitToReleaseMs ≤ time)
  | .unlock => 0 ≤ r
  | .done => false

/-- Who has the mutex of thread `i` after the call. -/
def ownerAfter (p : Process) (i : ℕ) (t : Thread) (r : ℤ) : ℕ → Option ℕ :=
  match t.pc with
  | .lock => if r = 0 then Function.update p.owner t.param.mutex (some i) else p.owner
  | .unlock => if r = 0 then Function.update p.owner t.param.mutex none else p.owner
  | _ => p.owner

def settle (p : Process) (i : ℕ) (t : Thread) (r : ℤ) (time : ℕ) : Process :=
  { p with thread := Function.update p.thread i (some (t.resume r time))
           owner := p.ownerAfter i t r
           now := time }

def next (p : Process) : Label → Option Process
  | .start c => some (p.startThreadObtainingMutex c).2
  | .ret i r time => (p.thread i).bind fun t =>
    if p.now ≤ time ∧ p.returns t r time = true then some (p.settle i t r time) else none

/-- Nothing can come back well any more. -/
def Halted (p : Process) : Prop := ∀ i time, p.next (.ret i 0 time) = none

end Process

/-- A failed `usleep` goes unnoticed, whatever it returns. -/
theorem usleepFails_eq_false (r : ℤ) : usleepFails r = false := by
  simp only [usleepFails, beq_eq_false_iff_ne]
  omega

/-- How a thread goes on. -/
inductive Thread.Resumes (t : Thread) (r : ℤ) (time : ℕ) : Thread → Prop
  | obtained (hpc : t.pc = .obtain) : Resumes t r time (t.goto .lock time)
  | locked (hpc : t.pc = .lock) (hr : r = 0) : Resumes t r time (t.goto .release time)
  | lockFails (hpc : t.pc = .lock) (hr : r ≠ 0) : Resumes t r time (t.finish false time)
  | released (hpc : t.pc = .release) : Resumes t r time (t.goto .unlock time)
  | unlocked (hpc : t.pc = .unlock) (hr : r = 0) : Resumes t r time (t.finish true time)
  | unlockFails (hpc : t.pc = .unlock) (hr : r ≠ 0) : Resumes t r time (t.finish false time)

theorem Thread.resumes {t : Thread} (hpc : t.pc ≠ .done) (r : ℤ) (time : ℕ) :
    t.Resumes r time (t.resume r time) := by
  unfold Thread.resume
  cases h : t.pc with
  | obtain => simpa [usleepFails_eq_false] using Resumes.obtained h
  | release => simpa [usleepFails_eq_false] using Resumes.released h
  | lock =>
    by_cases hr : r = 0
    · simpa [hr] using Resumes.locked h hr
    · simpa [hr] using Resumes.lockFails h hr
  | unlock =>
    by_cases hr : r = 0
    · simpa [hr] using Resumes.unlocked h hr
    · simpa [hr] using Resumes.unlockFails h hr
  | done => exact absurd h hpc

namespace Process

/-- Starting a thread touches no thread that is there and no mutex. -/
theorem start_cases (p : Process) (c : Call) :
    let q := (p.startThreadObtainingMutex c).2
    q.owner = p.owner ∧ q.now = p.now ∧
      ((q.thread = p.thread ∧ q.count = p.count) ∨
        ∃ t : Thread, t.pc = .obtain ∧ t.param.threadCompleteSuccess = false ∧
          q.thread = Function.update p.thread p.count (some t) ∧ q.count = p.count + 1) := by
  dsimp only
  unfold startThreadObtainingMutex
  split
  · exact ⟨rfl, rfl, Or.inl ⟨rfl, rfl⟩⟩
  · dsimp only
    split
    · split <;> exact ⟨rfl, rfl, Or.inl ⟨rfl, rfl⟩⟩
    · split
      · split <;> exact ⟨rfl, rfl, Or.inl ⟨rfl, rfl⟩⟩
      · split
        · split <;> exact ⟨rfl, rfl, Or.inl ⟨rfl, rfl⟩⟩
        · split <;> exact ⟨rfl, rfl, Or.inr ⟨_, rfl, rfl, rfl, rfl⟩⟩

/-- What a step can be. -/
theorem next_cases {p q : Process} {l : Label} (h : p.next l = some q) :
    (∃ c, l = .start c ∧ q = (p.startThreadObtainingMutex c).2) ∨
      ∃ i r time t, l = .ret i r time ∧ p.thread i = some t ∧ p.now ≤ time ∧
        p.returns t r time = true ∧ q = p.settle i t r time := by
  cases l with
  | start c => exact Or.inl ⟨c, rfl, (Option.some.inj h).symm⟩
  | ret i r time =>
    obtain ⟨t, ht, hq⟩ := Option.bind_eq_some_iff.mp h
    obtain ⟨⟨hnow, hreturns⟩, hq⟩ := Option.ite_none_right_eq_some.mp hq
    exact Or.inr ⟨i, r, time, t, rfl, ht, hnow, hreturns, (Option.some.inj hq).symm⟩

theorem pc_of_returns {p : Process} {t : Thread} {r : ℤ} {time : ℕ}
    (h : p.returns t r time = true) : t.pc ≠ .done := by
  intro hpc
  simp [returns, hpc] at h

/-- The thread whose mutex was unlocked by a step. -/
def unlocked (p : Process) : Label → List ℕ
  | .ret i r _ => match p.thread i with
    | some t => if t.pc = .unlock ∧ r = 0 then [i] else []
    | none => []
  | _ => []

/-- The mutex whose unlock failed in a step. -/
def unlockFailed (p : Process) : Label → List ℕ
  | .ret i r _ => match p.thread i with
    | some t => if t.pc = .unlock ∧ r ≠ 0 then [t.param.mutex] else []
    | none => []
  | _ => []

end Process

/-- A return in thread `i`. -/
def Label.returnIn (i : ℕ) : Label → Bool
  | .ret j _ _ => j == i
  | .start _ => false

/-- In the part of `threadfunc` between lock and unlock. -/
def Pc.holds : Pc → Bool
  | .release | .unlock => true
  | _ => false

/-- The calls that a thread still has to make. -/
def Pc.left : Pc → ℕ
  | .obtain => 4
  | .lock => 3
  | .release => 2
  | .unlock => 1
  | .done => 0

/-- Threads and mutexes after some steps, in which the threads `good` unlocked and
the mutexes `bad` were not unlocked. -/
structure Kept (good bad : List ℕ) (p : Process) : Prop where
  created : ∀ i, p.thread i ≠ none ↔ i < p.count
  owned : ∀ m i, p.owner m = some i → ∃ t, p.thread i = some t ∧ t.param.mutex = m ∧
    (t.pc.holds = true ∨ t.pc = .done ∧ m ∈ bad)
  holding : ∀ i t, p.thread i = some t → t.pc.holds = true → p.owner t.param.mutex = some i
  successful : ∀ i t, p.thread i = some t →
    (t.param.threadCompleteSuccess = true ↔ i ∈ good) ∧ (i ∈ good → t.pc = .done)
  known : ∀ i ∈ good, i < p.count
  lost : ∀ m ∈ bad, ∃ i t, p.owner m = some i ∧ p.thread i = some t ∧ t.pc = .done

theorem kept_init : Kept [] [] Process.init where
  created i := by simp [Process.init]
  owned m i h := by cases h
  holding i t h := by cases h
  successful i t h := by cases h
  known i h := by cases h
  lost m h := by cases h

namespace Kept

variable {good bad : List ℕ} {p : Process} {i : ℕ} {t t' : Thread}

theorem not_good (h : Kept good bad p) (ht : p.thread i = some t) (hpc : t.pc ≠ .done) :
    i ∉ good := fun hi => hpc ((h.successful i t ht).2 hi)

/-- Who owns a mutex and has not ended is between lock and unlock of it. -/
theorem holds_of_owner (h : Kept good bad p) (ht : p.thread i = some t) (hpc : t.pc ≠ .done)
    {m : ℕ} (hm : p.owner m = some i) : t.param.mutex = m ∧ t.pc.holds = true := by
  obtain ⟨u, hu, hmutex, hplace⟩ := h.owned m i hm
  rw [ht] at hu
  cases hu
  exact ⟨hmutex, hplace.resolve_right fun hdone => hpc hdone.1⟩

theorem start (h : Kept good bad p) (c : Call) :
    Kept good bad (p.startThreadObtainingMutex c).2 := by
  obtain ⟨howner, -, ⟨hthread, hcount⟩ | ⟨new, hpc, hfalse, hthread, hcount⟩⟩ := p.start_cases c
  · exact {
      created := by rw [hthread, hcount]; exact h.created
      owned := by rw [hthread, howner]; exact h.owned
      holding := by rw [hthread, howner]; exact h.holding
      successful := by rw [hthread]; exact h.successful
      known := by rw [hcount]; exact h.known
      lost := by rw [hthread, howner]; exact h.lost }
  · have hsame : ∀ i t, p.thread i = some t →
        (p.startThreadObtainingMutex c).2.thread i = some t := by
      intro i t ht
      have hi : i ≠ p.count := by
        intro hi
        have hlt := (h.created i).mp (by simp [ht])
        omega
      rw [hthread, Function.update_of_ne hi, ht]
    have hold : ∀ i t, (p.startThreadObtainingMutex c).2.thread i = some t →
        i = p.count ∧ t = new ∨ p.thread i = some t := by
      intro i t ht
      rw [hthread, Function.update_apply] at ht
      split at ht
      · exact Or.inl ⟨‹_›, (Option.some.inj ht).symm⟩
      · exact Or.inr ht
    exact {
      created := fun i => by
        rw [hthread, hcount, Function.update_apply]
        split
        · simp_all
        · rw [h.created]
          omega
      owned := fun m i hm => by
        rw [howner] at hm
        obtain ⟨t, ht, hplace⟩ := h.owned m i hm
        exact ⟨t, hsame i t ht, hplace⟩
      holding := fun i t ht hholds => by
        rw [howner]
        rcases hold i t ht with ⟨-, rfl⟩ | ht
        · simp [hpc, Pc.holds] at hholds
        · exact h.holding i t ht hholds
      successful := fun i t ht => by
        rcases hold i t ht with ⟨rfl, rfl⟩ | ht
        · have hnot : p.count ∉ good := fun hi => absurd (h.known _ hi) (Nat.lt_irrefl _)
          simp [hfalse, hnot]
        · exact h.successful i t ht
      known := fun i hi => by
        rw [hcount]
        exact Nat.lt_succ_of_lt (h.known i hi)
      lost := fun m hm => by
        obtain ⟨i, t, hi, ht, hdone⟩ := h.lost m hm
        exact ⟨i, t, by rw [howner]; exact hi, hsame i t ht, hdone⟩ }

/-- Thread `i` goes on to `t'`, and the mutexes to `owner`. -/
theorem settled (h : Kept good bad p) (ht : p.thread i = some t) (time : ℕ)
    {owner : ℕ → Option ℕ} {good' bad' : List ℕ}
    (hgood : ∀ j, j ∈ good' ↔ j ∈ good ∨ j = i ∧ t'.param.threadCompleteSuccess = true)
    (hsuccess : t'.param.threadCompleteSuccess = true → t'.pc = .done)
    (hpc : t.pc ≠ .done) (hbad : bad ⊆ bad')
    (howned : ∀ m j, owner m = some j → j ≠ i ∧ p.owner m = some j ∨ j = i ∧
      t'.param.mutex = m ∧ (t'.pc.holds = true ∨ t'.pc = .done ∧ m ∈ bad'))
    (hholding : t'.pc.holds = true → owner t'.param.mutex = some i)
    (hkept : ∀ m j, j ≠ i → p.owner m = some j → owner m = some j)
    (hlost : ∀ m ∈ bad', m ∈ bad ∨ owner m = some i ∧ t'.pc = .done) :
    Kept good' bad'
      { p with thread := Function.update p.thread i (some t'), owner, now := time } := by
  have hnot := h.not_good ht hpc
  have hother : ∀ j u, j ≠ i → (Function.update p.thread i (some t') j = some u ↔
      p.thread j = some u) := by
    intro j u hj
    rw [Function.update_of_ne hj]
  have hself : ∀ u, Function.update p.thread i (some t') i = some u ↔ t' = u := by
    intro u
    rw [Function.update_self, Option.some.injEq]
  exact {
    created := fun j => by
      rw [← h.created]
      by_cases hj : j = i
      · simp [hj, ht]
      · simp [hj]
    owned := fun m j hm => by
      rcases howned m j hm with ⟨hj, hbefore⟩ | ⟨rfl, hplace⟩
      · obtain ⟨u, hu, hmutex, hplace⟩ := h.owned m j hbefore
        exact ⟨u, (hother j u hj).mpr hu, hmutex, hplace.imp_right fun hd => ⟨hd.1, hbad hd.2⟩⟩
      · exact ⟨t', (hself t').mpr rfl, hplace⟩
    holding := fun j u hu hholds => by
      by_cases hj : j = i
      · subst hj
        obtain rfl := (hself u).mp hu
        exact hholding hholds
      · exact hkept _ j hj (h.holding j u ((hother j u hj).mp hu) hholds)
    successful := fun j u hu => by
      rw [hgood]
      by_cases hj : j = i
      · subst hj
        obtain rfl := (hself u).mp hu
        simpa [hnot] using hsuccess
      · simpa [hj] using h.successful j u ((hother j u hj).mp hu)
    known := fun j hj => by
      rcases (hgood j).mp hj with hj | ⟨rfl, -⟩
      · exact h.known j hj
      · exact (h.created j).mp (by simp [ht])
    lost := fun m hm => by
      rcases hlost m hm with hm | ⟨hm, hdone⟩
      · obtain ⟨j, u, hj, hu, hdone⟩ := h.lost m hm
        have hji : j ≠ i := by
          rintro rfl
          rw [ht] at hu
          cases hu
          exact hpc hdone
        exact ⟨j, u, hkept m j hji hj, (hother j u hji).mpr hu, hdone⟩
      · exact ⟨i, t', hm, (hself t').mpr rfl, hdone⟩ }

/-- A call of a thread that leaves the mutexes alone. -/
theorem quiet (h : Kept good bad p) (ht : p.thread i = some t) (t' : Thread) (time : ℕ)
    (hpc : t.pc ≠ .done) (hsuccess : t'.param.threadCompleteSuccess = false)
    (hmutex : t'.param.mutex = t.param.mutex) (hholds : t'.pc.holds = t.pc.holds) :
    Kept good bad { p with thread := Function.update p.thread i (some t'), now := time } := by
  refine h.settled ht time (by simp [hsuccess]) (by simp [hsuccess]) hpc (List.Subset.refl _)
    (fun m j hm => ?_) (fun hin => ?_) (fun m j _ hm => hm) fun m hm => Or.inl hm
  · by_cases hj : j = i
    · subst hj
      obtain ⟨hm', hin⟩ := h.holds_of_owner ht hpc hm
      exact Or.inr ⟨rfl, hmutex.trans hm', Or.inl (hholds.trans hin)⟩
    · exact Or.inl ⟨hj, hm⟩
  · rw [hmutex]
    exact h.holding i t ht (hholds.symm.trans hin)

/-- One step. -/
theorem step (h : Kept good bad p) {q : Process} {l : Label} (hnext : p.next l = some q) :
    Kept (good ++ p.unlocked l) (bad ++ p.unlockFailed l) q := by
  rcases Process.next_cases hnext with ⟨c, rfl, rfl⟩ | ⟨i, r, time, t, rfl, ht, _, hreturns, rfl⟩
  · simpa [Process.unlocked, Process.unlockFailed] using h.start c
  · have hpc := Process.pc_of_returns hreturns
    have hfalse : t.param.threadCompleteSuccess = false := by
      by_contra htrue
      exact h.not_good ht hpc ((h.successful i t ht).1.mp (by simpa using htrue))
    have hmove := Thread.resumes hpc r time
    unfold Process.settle Process.ownerAfter Process.unlocked Process.unlockFailed
    simp only [ht]
    generalize t.resume r time = t' at hmove ⊢
    cases hmove with
    | obtained hplace =>
      simpa [hplace] using h.quiet ht (t.goto .lock time) time hpc hfalse rfl
        (by simp [Thread.goto, hplace, Pc.holds])
    | released hplace =>
      simpa [hplace] using h.quiet ht (t.goto .unlock time) time hpc hfalse rfl
        (by simp [Thread.goto, hplace, Pc.holds])
    | lockFails hplace hr =>
      simpa [hplace, hr] using h.quiet ht (t.finish false time) time hpc rfl rfl
        (by simp [Thread.finish, hplace, Pc.holds])
    | locked hplace hr =>
      have hfree : p.owner t.param.mutex = none := by
        simpa [Process.returns, hplace, hr] using hreturns
      simp only [hplace, hr, reduceCtorEq, false_and, if_false, if_true, List.append_nil]
      refine h.settled ht time (by simp [Thread.goto, hfalse]) (by simp [Thread.goto, hfalse]) hpc
        (List.Subset.refl _) (fun m j hm => ?_) (fun _ => ?_) (fun m j hj hm => ?_)
        fun m hm => Or.inl hm
      · by_cases hmt : m = t.param.mutex
        · subst hmt
          rw [Function.update_self] at hm
          exact Or.inr ⟨(Option.some.inj hm).symm, rfl, Or.inl rfl⟩
        · rw [Function.update_of_ne hmt] at hm
          have hj : j ≠ i := by
            rintro rfl
            exact hmt (h.holds_of_owner ht hpc hm).1.symm
          exact Or.inl ⟨hj, hm⟩
      · exact Function.update_self ..
      · rw [Function.update_of_ne]
        · exact hm
        · rintro rfl
          rw [hfree] at hm
          cases hm
    | unlocked hplace hr =>
      have hown := h.holding i t ht (by simp [hplace, Pc.holds])
      simp only [hplace, hr, ne_eq, not_true_eq_false, and_false, and_self, if_false, if_true,
        List.append_nil]
      refine h.settled ht time (by simp [Thread.finish]) (fun _ => rfl) hpc
        (List.Subset.refl _) (fun m j hm => ?_) (fun hin => ?_) (fun m j hj hm => ?_)
        fun m hm => Or.inl hm
      · by_cases hmt : m = t.param.mutex
        · rw [hmt, Function.update_self] at hm
          cases hm
        · rw [Function.update_of_ne hmt] at hm
          have hj : j ≠ i := by
            rintro rfl
            exact hmt (h.holds_of_owner ht hpc hm).1.symm
          exact Or.inl ⟨hj, hm⟩
      · cases hin
      · rw [Function.update_of_ne]
        · exact hm
        · rintro rfl
          rw [hown] at hm
          exact hj (Option.some.inj hm).symm
    | unlockFails hplace hr =>
      have hown := h.holding i t ht (by simp [hplace, Pc.holds])
      simp only [hplace, hr, ne_eq, not_false_eq_true, and_false, and_self, if_false, if_true,
        List.append_nil]
      refine h.settled ht time (by simp [Thread.finish]) (fun _ => rfl) hpc
        (List.subset_append_left _ _) (fun m j hm => ?_) (fun hin => ?_) (fun m j _ hm => hm)
        fun m hm => ?_
      · by_cases hj : j = i
        · subst hj
          obtain ⟨rfl, -⟩ := h.holds_of_owner ht hpc hm
          exact Or.inr ⟨rfl, rfl, Or.inr ⟨rfl, by simp⟩⟩
        · exact Or.inl ⟨hj, hm⟩
      · cases hin
      · rcases List.mem_append.mp hm with hm | hm
        · exact Or.inl hm
        · rw [List.mem_singleton.mp hm]
          exact Or.inr ⟨hown, rfl⟩

end Kept

theorem kept_run {good bad : List ℕ} {p q : Process} {ls : List Label} (h : Kept good bad p)
    (hrun : exec Process.next p ls = some q) :
    Kept (good ++ outputs Process.next Process.unlocked p ls)
      (bad ++ outputs Process.next Process.unlockFailed p ls) q := by
  induction ls generalizing good bad p with
  | nil =>
    cases hrun
    simpa [outputs] using h
  | cons l ls ih =>
    obtain ⟨u, hl, hls⟩ := exec_cons_eq_some.mp hrun
    have hrest := ih (h.step hl) hls
    rw [outputs, outputs, hl]
    dsimp only
    rwa [← List.append_assoc, ← List.append_assoc]

/-- The calls that thread `i` still has to make; all four if it is not created yet. -/
def callsLeft (p : Process) (i : ℕ) : ℕ := ((p.thread i).map fun t => t.pc.left).getD 4

theorem left_resumes {t t' : Thread} {r : ℤ} {time : ℕ} (h : t.Resumes r time t') :
    t'.pc.left < t.pc.left := by
  cases h <;> simp_all [Thread.goto, Thread.finish, Pc.left]

/-- A return is one call less for its thread. -/
theorem callsLeft_step {good bad : List ℕ} {p q : Process} {l : Label} (h : Kept good bad p)
    (hnext : p.next l = some q) (i : ℕ) :
    callsLeft q i + (if l.returnIn i then 1 else 0) ≤ callsLeft p i := by
  rcases Process.next_cases hnext with ⟨c, rfl, rfl⟩ | ⟨j, r, time, t, rfl, ht, _, hreturns, rfl⟩
  · simp only [Label.returnIn, Bool.false_eq_true, if_false, Nat.add_zero]
    obtain ⟨-, -, ⟨hthread, -⟩ | ⟨new, hpc, -, hthread, -⟩⟩ := p.start_cases c
    · rw [callsLeft, hthread, callsLeft]
    · by_cases hi : i = p.count
      · have hnone : p.thread i = none := by
          by_contra hsome
          exact absurd ((h.created i).mp hsome) (by omega)
        simp [callsLeft, hthread, hi ▸ hnone, hi, hpc, Pc.left]
      · rw [callsLeft, hthread, Function.update_of_ne hi, callsLeft]
  · have hless := left_resumes (Thread.resumes (Process.pc_of_returns hreturns) r time)
    by_cases hj : j = i
    · subst hj
      simp only [callsLeft, Process.settle, Function.update_self, ht, Option.map_some,
        Option.getD_some, Label.returnIn, beq_self_eq_true, if_true]
      omega
    · simp [callsLeft, Process.settle, Label.returnIn, hj, Ne.symm hj]

theorem callsLeft_run {good bad : List ℕ} {p q : Process} {ls : List Label} (h : Kept good bad p)
    (hrun : exec Process.next p ls = some q) (i : ℕ) :
    callsLeft q i + ls.countP (Label.returnIn i) ≤ callsLeft p i := by
  induction ls generalizing good bad p with
  | nil =>
    cases hrun
    simp
  | cons l ls ih =>
    obtain ⟨u, hl, hls⟩ := exec_cons_eq_some.mp hrun
    have hstep := callsLeft_step h hl i
    have hrest := ih (h.step hl) hls
    rw [List.countP_cons]
    omega

/-- Nothing can come back well exactly if every thread has ended or waits for a
mutex that is owned. -/
theorem halted_iff {p : Process} : p.Halted ↔ ∀ i t, p.thread i = some t →
    t.pc = .done ∨ t.pc = .lock ∧ p.owner t.param.mutex ≠ none := by
  constructor
  · intro hhalted i t ht
    have hnone : ∀ time, p.now ≤ time → p.returns t 0 time = false := by
      intro time htime
      by_contra hreturns
      have hstop := hhalted i time
      simp [Process.next, ht, htime, hreturns] at hstop
    cases hpc : t.pc with
    | done => exact Or.inl rfl
    | lock =>
      have hwaits := hnone p.now (Nat.le_refl _)
      exact Or.inr ⟨rfl, fun hfree => by simp [Process.returns, hpc, hfree] at hwaits⟩
    | unlock =>
      have hwaits := hnone p.now (Nat.le_refl _)
      simp [Process.returns, hpc] at hwaits
    | obtain =>
      have hwaits := hnone (p.now + (t.since + useconds t.param.waitToObtainMs)) (by omega)
      simp [Process.returns, hpc] at hwaits
    | release =>
      have hwaits := hnone (p.now + (t.since + useconds t.param.waitToReleaseMs)) (by omega)
      simp [Process.returns, hpc] at hwaits
  · intro hplaces i time
    cases ht : p.thread i with
    | none => simp [Process.next, ht]
    | some t =>
      rcases hplaces i t ht with hdone | ⟨hlock, howned⟩
      · simp [Process.next, ht, Process.returns, hdone]
      · simp [Process.next, ht, Process.returns, hlock, howned]

/-- There, a thread that has not ended waits for a mutex whose owner has. -/
theorem Kept.blocked_iff {good bad : List ℕ} {p : Process} (h : Kept good bad p)
    (hhalted : p.Halted) {i : ℕ} {t : Thread} (ht : p.thread i = some t) :
    t.pc ≠ .done ↔ t.pc = .lock ∧ t.param.mutex ∈ bad := by
  have hplaces := halted_iff.mp hhalted
  constructor
  · intro hpc
    obtain ⟨hlock, howned⟩ := (hplaces i t ht).resolve_left hpc
    obtain ⟨j, hj⟩ := Option.ne_none_iff_exists'.mp howned
    obtain ⟨u, hu, -, hholds | ⟨-, hlost⟩⟩ := h.owned _ j hj
    · rcases hplaces j u hu with hdone | ⟨hwaits, -⟩
      · simp [hdone, Pc.holds] at hholds
      · simp [hwaits, Pc.holds] at hholds
    · exact ⟨hlock, hlost⟩
  · rintro ⟨hlock, -⟩ hdone
    rw [hdone] at hlock
    cases hlock

/-- Any number of threads on any number of mutexes, started at any moments, any
interleaving, any failures: a thread succeeds exactly if its unlock does; the calls
a thread has made and those it has still to make are at most four; and where nothing
can come back well any more, the threads that have not ended are those that wait for
a mutex whose unlock failed. -/
theorem blocked_by_failed_unlock (ls : List Label) (p : Process)
    (hrun : exec Process.next Process.init ls = some p) :
    (∀ i t, p.thread i = some t → (t.param.threadCompleteSuccess = true ↔
      i ∈ outputs Process.next Process.unlocked Process.init ls)) ∧
    (∀ i, callsLeft p i + ls.countP (Label.returnIn i) ≤ 4) ∧
    (p.Halted → ∀ i t, p.thread i = some t → (t.pc ≠ .done ↔ t.pc = .lock ∧
      t.param.mutex ∈ outputs Process.next Process.unlockFailed Process.init ls)) := by
  have hkept := kept_run kept_init hrun
  rw [List.nil_append, List.nil_append] at hkept
  exact ⟨fun i t ht => (hkept.successful i t ht).1, callsLeft_run kept_init hrun,
    fun hhalted i t ht => hkept.blocked_iff hhalted ht⟩

/-- Two threads on one mutex; the first cannot unlock it. -/
def failedUnlock : List Label :=
  [.start { mutex := some 0, waitToObtainMs := 5, waitToReleaseMs := 7 },
   .start { mutex := some 0, waitToObtainMs := 0, waitToReleaseMs := 0 },
   .ret 0 0 5, .ret 0 0 5, .ret 1 0 6, .ret 0 0 12, .ret 0 1 12]

theorem blocked_by_failed_unlock_two :
    ∃ p, exec Process.next Process.init failedUnlock = some p ∧ p.Halted ∧
      ∃ t, p.thread 1 = some t ∧ t.pc ≠ .done := by
  obtain ⟨p, hp, hplaces⟩ := Option.map_eq_some_iff.mp
    (by decide : (exec Process.next Process.init failedUnlock).map
      (fun p => (p.count, p.thread 0, p.thread 1, p.owner 0)) =
      some (2, some ⟨⟨0, 5, 7, false⟩, .done, 12⟩, some ⟨⟨0, 0, 0, false⟩, .lock, 6⟩, some 0))
  simp only [Prod.mk.injEq] at hplaces
  obtain ⟨hcount, hfirst, hsecond, howner⟩ := hplaces
  have hhalted : p.Halted := by
    refine halted_iff.mpr fun i t ht => ?_
    have hi := ((kept_run kept_init hp).created i).mp (by simp [ht])
    rw [hcount] at hi
    obtain rfl | rfl : i = 0 ∨ i = 1 := by omega
    · exact Or.inl (by simp_all)
    · exact Or.inr (by simp_all)
  refine ⟨p, hp, hhalted, _, hsecond, ?_⟩
  exact ((blocked_by_failed_unlock failedUnlock p hp).2.2 hhalted 1 _ hsecond).mpr
    ⟨rfl, by decide⟩

/-- The wait, in microseconds, that was asked for in a sleep with mutex `m`, when the
return shows it to be completed. -/
def Process.heldFor (m : ℕ) (p : Process) : Label → ℕ
  | .ret i r _ => match p.thread i with
    | some t =>
      if t.pc = .release ∧ t.param.mutex = m ∧ r = 0 then useconds t.param.waitToReleaseMs else 0
    | none => 0
  | _ => 0

/-- From when to when a return shows a thread to have slept with mutex `m`. -/
def Process.slept (m : ℕ) (p : Process) : Label → Option TimeSpan
  | .ret i r time => (p.thread i).bind fun t =>
    if t.pc = .release ∧ t.param.mutex = m ∧ r = 0 then some ⟨t.since, time⟩ else none
  | _ => none

/-- The completed sleeps with mutex `m`, in the order in which they ended. -/
def sleeps (m : ℕ) (ls : List Label) : List TimeSpan :=
  outputs Process.next (fun p l => (p.slept m l).toList) Process.init ls

/-- The sleep between lock and unlock as a use of mutex `m`. -/
def usage (m : ℕ) : Usage Process Label where
  now := Process.now
  since p := (p.owner m).bind fun i => (p.thread i).bind fun t =>
    if t.pc = .release then some t.since else none
  used := Process.slept m

theorem since_usage {m : ℕ} {p : Process} {start : ℕ} :
    (usage m).since p = some start ↔ ∃ i t, p.owner m = some i ∧ p.thread i = some t ∧
      t.pc = .release ∧ t.since = start := by
  simp [usage, Option.bind_eq_some_iff]

/-- What a thread gets or gives up is its own. -/
theorem owner_of_ownerAfter {p : Process} {i j m : ℕ} {t : Thread} {r : ℤ} (hj : j ≠ i)
    (h : p.ownerAfter i t r m = some j) : p.owner m = some j := by
  have hupdate : ∀ n o, o ≠ some j → Function.update p.owner n o m = some j →
      p.owner m = some j := by
    intro n o ho hm
    rw [Function.update_apply] at hm
    split at hm
    · exact absurd hm ho
    · exact hm
  cases hpc : t.pc <;> simp only [Process.ownerAfter, hpc] at h
  case lock =>
    split at h
    · exact hupdate _ _ (by simpa using Ne.symm hj) h
    · exact h
  case unlock =>
    split at h
    · exact hupdate _ _ (by simp) h
    · exact h
  all_goals exact h

theorem Kept.respects {good bad : List ℕ} {p q : Process} {l : Label} (h : Kept good bad p)
    (hnext : p.next l = some q) (m : ℕ) : (usage m).Respects p l q := by
  rcases Process.next_cases hnext with ⟨c, rfl, rfl⟩ | ⟨i, r, time, t, rfl, ht, hnow, hreturns, rfl⟩
  · obtain ⟨howner, htime, hthread⟩ := p.start_cases c
    refine ⟨htime.ge, fun i hi => absurd hi (Option.not_mem_none i), fun start hstart => ?_⟩
    refine Or.inr ⟨?_, rfl⟩
    obtain ⟨i, t, hi, ht, hplace⟩ := since_usage.mp hstart
    rw [howner] at hi
    obtain ⟨u, hu, -⟩ := h.owned m i hi
    have hsame : (p.startThreadObtainingMutex c).2.thread i = p.thread i := by
      rcases hthread with ⟨hthread, -⟩ | ⟨new, -, -, hthread, -⟩
      · rw [hthread]
      · have hlt := (h.created i).mp (by simp [hu])
        rw [hthread, Function.update_of_ne hlt.ne]
    rw [hsame] at ht
    exact since_usage.mpr ⟨i, t, hi, ht, hplace⟩
  · have hmove := Thread.resumes (Process.pc_of_returns hreturns) r time
    refine ⟨hnow, fun sleep hsleep => ?_, fun start hstart => ?_⟩
    · obtain ⟨u, hu, hsleep⟩ := Option.bind_eq_some_iff.mp hsleep
      rw [ht] at hu
      cases hu
      obtain ⟨⟨hpc, rfl, rfl⟩, hinterval⟩ := Option.ite_none_right_eq_some.mp hsleep
      cases hinterval
      have hslept : t.since + useconds t.param.waitToReleaseMs ≤ time := by
        simpa [Process.returns, hpc] using hreturns
      exact ⟨t.since, since_usage.mpr ⟨i, t, h.holding i t ht (by simp [hpc, Pc.holds]), ht, hpc,
        rfl⟩, Nat.le_refl _, (Nat.le_add_right _ _).trans hslept, Nat.le_refl _⟩
    · obtain ⟨j, u, hj, hu, hpc, hsince⟩ := since_usage.mp hstart
      by_cases hji : j = i
      · subst hji
        have hu' : t.resume r time = u := by simpa [Process.settle] using hu
        rw [hu'] at hmove
        cases hmove with
        | locked => exact Or.inl hsince.le
        | _ => cases hpc
      · have hbefore := owner_of_ownerAfter hji hj
        have hthread : p.thread j = some u := by simpa [Process.settle, hji] using hu
        refine Or.inr ⟨since_usage.mpr ⟨j, u, hbefore, hthread, hpc, hsince⟩, ?_⟩
        -- the mutex is with `j`
        have hother : ¬ (t.pc = .release ∧ t.param.mutex = m ∧ r = 0) := by
          rintro ⟨hrelease, rfl, -⟩
          have hi := h.holding i t ht (by simp [hrelease, Pc.holds])
          rw [hbefore] at hi
          exact hji (Option.some.inj hi)
        simp [usage, Process.slept, ht, hother]

theorem heldFor_le {p q : Process} {l : Label} (hnext : p.next l = some q) (m : ℕ) :
    p.heldFor m l ≤ ((p.slept m l).toList.map TimeSpan.length).sum := by
  rcases Process.next_cases hnext with ⟨c, rfl, rfl⟩ | ⟨i, r, time, t, rfl, ht, _, hreturns, rfl⟩
  · exact Nat.zero_le _
  · simp only [Process.heldFor, Process.slept, ht, Option.bind_some]
    split
    · rename_i hslept
      obtain ⟨hpc, -, rfl⟩ := hslept
      have hlong : t.since + useconds t.param.waitToReleaseMs ≤ time := by
        simpa [Process.returns, hpc] using hreturns
      simp only [Option.toList_some, List.map_singleton, List.sum_singleton, TimeSpan.length]
      omega
    · exact Nat.zero_le _

/-- Any number of threads, any interleaving: no two completed sleeps with the same
mutex overlap, so the waits that went to `usleep` for them add up, and every
millisecond asked for counts as a microsecond. -/
theorem holding_times_add_up (m : ℕ) (ls : List Label) (p : Process)
    (hrun : exec Process.next Process.init ls = some p) :
    Successive (sleeps m ls) p.now ∧
      (outputs Process.next (fun p l => [p.heldFor m l]) Process.init ls).sum ≤
        ((sleeps m ls).map TimeSpan.length).sum ∧
      ((sleeps m ls).map TimeSpan.length).sum ≤ p.now := by
  have hstep : ∀ p l q, (∃ good bad, Kept good bad p) → p.next l = some q →
      (∃ good bad, Kept good bad q) ∧ (usage m).Respects p l q := by
    rintro p l q ⟨good, bad, h⟩ hnext
    exact ⟨⟨_, _, h.step hnext⟩, h.respects hnext m⟩
  have hsuccessive : Successive (sleeps m ls) p.now :=
    (usage m).successive hstep ⟨[], [], kept_init⟩ rfl hrun
  exact ⟨hsuccessive, (usage m).sum_le_length (fun p l q hl => heldFor_le hl m) hrun,
    hsuccessive.sum_le⟩

/-- Two threads that sleep a thousand milliseconds each with one mutex. -/
def twoTurns : List Label :=
  [.start { mutex := some 0, waitToObtainMs := 0, waitToReleaseMs := 1000 },
   .start { mutex := some 0, waitToObtainMs := 0, waitToReleaseMs := 1000 },
   .ret 0 0 0, .ret 0 0 0, .ret 1 0 0, .ret 0 0 1000, .ret 0 0 1000, .ret 1 0 1000, .ret 1 0 2000,
   .ret 1 0 2000]

theorem holding_times_add_up_two :
    ∃ p, exec Process.next Process.init twoTurns = some p ∧ 1000 + 1000 ≤ p.now ∧
      Successive [⟨0, 1000⟩, ⟨1000, 2000⟩] p.now := by
  obtain ⟨p, hp⟩ := Option.isSome_iff_exists.mp
    (by decide : (exec Process.next Process.init twoTurns).isSome = true)
  have hwaits : (outputs Process.next (fun p l => [p.heldFor 0 l]) Process.init twoTurns).sum =
      1000 + 1000 := by decide
  have hsleeps : sleeps 0 twoTurns = [⟨0, 1000⟩, ⟨1000, 2000⟩] := by decide
  obtain ⟨hsuccessive, hle, hsum⟩ := holding_times_add_up 0 twoTurns p hp
  rw [hwaits] at hle
  rw [hsleeps] at hsuccessive
  exact ⟨p, hp, hle.trans hsum, hsuccessive⟩

end Aesd.ObtainingMutex
