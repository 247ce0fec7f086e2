import Aesd.CharDriver

/-!
Which calls give the device mutex back. A call that took the mutex releases it
exactly when it does not leave through one of the returns of `aesd_llseek` and
`aesd_ioctl` that skip `mutex_unlock`; nothing later releases a mutex lost that
way. So a whole run keeps the mutex free between calls if and only if each of
its calls avoids those returns.
-/

namespace Aesd.LockReturn

open CharDriver Runs

/-- The mutex was released exactly once if it was acquired, and not otherwise. -/
def Balanced (r : Reply) : Prop := r.lockOps = [] ∨ r.lockOps = [.lock, .unlock]

instance (r : Reply) : Decidable (Balanced r) := inferInstanceAs (Decidable (_ ∨ _))

/-- The call leaves before the mutex, or through a return that unlocks. -/
def ReleasesLock (k : Kernel) : Call → Prop
  | .read _ _ _ => True
  | .write _ _ _ => True
  | .llseek file off whence env =>
    env.interrupted = true ∨
      (whence = SEEK_SET ∧ 0 ≤ off) ∨
      (whence = SEEK_CUR ∧ 0 ≤ loff (k.fPos file + off)) ∨
      (whence = SEEK_END ∧ 0 ≤ loff (totalSize k.dev.circularBuffer + off))
  | .ioctl _ cmd arg seekto env =>
    ioctlError cmd env ≠ none ∨ env.interrupted = true ∨
      (arg ≠ 0 ∧ (env.copyFault = true ∨ cmd ≠ AESDCHAR_IOCSEEKTO ∨
        (seekto.writeCmd ≤ 9 ∧ seekto.writeCmdOffset.toNat <
          (k.dev.circularBuffer.slot seekto.writeCmd.toNat).size)))

theorem balanced_earlyReturn (k : Kernel) (ret : ℤ) : Balanced (earlyReturn k ret).1 := Or.inl rfl

theorem balanced_unlockReturn (k : Kernel) (ret : ℤ) (data : List Byte) :
    Balanced (unlockReturn k ret data).1 := Or.inr rfl

theorem not_balanced_lockedReturn (k : Kernel) (ret : ℤ) : ¬ Balanced (lockedReturn k ret).1 := by
  simp [Balanced, lockedReturn]

/-- A call is settled when it is balanced and leaves the mutex free. -/
def Settled (r : Reply × Kernel) : Prop := Balanced r.1 ∧ r.2.dev.lock = false

theorem settled_earlyReturn {k : Kernel} (hk : k.dev.lock = false) (ret : ℤ) :
    Settled (earlyReturn k ret) := ⟨balanced_earlyReturn k ret, hk⟩

theorem settled_unlockReturn (k : Kernel) (ret : ℤ) (data : List Byte) :
    Settled (unlockReturn k ret data) := ⟨balanced_unlockReturn k ret data, rfl⟩

theorem not_settled_lockedReturn (k : Kernel) (ret : ℤ) : ¬ Settled (lockedReturn k ret) :=
  fun h => not_balanced_lockedReturn k ret h.1

/-- On a free mutex the wait either is interrupted or leads into the rest of the call. -/
theorem settled_withLock {k : Kernel} (hk : k.dev.lock = false) (env : Env)
    (rest : Kernel → Reply × Kernel) :
    Settled (withLock k env rest) ↔ env.interrupted = true ∨ Settled (rest (k.setLock true)) := by
  rcases withLock_cases k env rest with ⟨hi, heq⟩ | ⟨_, hl, _⟩ | ⟨hi, _, heq⟩
  · rw [heq]
    exact ⟨fun _ => Or.inl hi, fun _ => settled_earlyReturn hk _⟩
  · rw [hk] at hl
    cases hl
  · rw [heq]
    simp [hi]

theorem settled_aesdRead {k : Kernel} (hk : k.dev.lock = false) (file count : ℕ) (env : Env) :
    Settled (aesdRead k file count env) := by
  unfold aesdRead
  split
  · exact settled_earlyReturn hk _
  · rw [settled_withLock hk]
    right
    split
    · exact settled_unlockReturn _ _ _
    · dsimp only
      split <;> split <;> exact settled_unlockReturn _ _ _

theorem settled_aesdWrite {k : Kernel} (hk : k.dev.lock = false) (file : ℕ) (buf : List Byte)
    (env : Env) : Settled (aesdWrite k file buf env) := by
  unfold aesdWrite
  split
  · exact settled_earlyReturn hk _
  · rw [settled_withLock hk]
    right
    split
    · exact settled_unlockReturn _ _ _
    · split
      all_goals exact settled_unlockReturn _ _ _

/-- The base is known and the sum, as the kernel computes it, is not negative. -/
theorem seekTarget_nonneg_iff (k : Kernel) (file : ℕ) (off whence : ℤ) :
    (∃ newpos, seekTarget k file off whence = some newpos ∧ 0 ≤ newpos) ↔
      (whence = SEEK_SET ∧ 0 ≤ off) ∨
      (whence = SEEK_CUR ∧ 0 ≤ loff (k.fPos file + off)) ∨
      (whence = SEEK_END ∧ 0 ≤ loff (totalSize k.dev.circularBuffer + off)) := by
  unfold seekTarget
  by_cases hset : whence = SEEK_SET
  · simp [hset, SEEK_SET, SEEK_CUR, SEEK_END]
  · by_cases hcur : whence = SEEK_CUR
    · simp [hcur, SEEK_SET, SEEK_CUR, SEEK_END]
    · by_cases hend : whence = SEEK_END
      · simp [hend, SEEK_SET, SEEK_CUR, SEEK_END]
      · simp [hset, hcur, hend]

theorem settled_aesdLlseek {k : Kernel} (hk : k.dev.lock = false) (file : ℕ) (off whence : ℤ)
    (env : Env) :
    Settled (aesdLlseek k file off whence env) ↔
      ReleasesLock k (.llseek file off whence env) := by
  unfold aesdLlseek
  rw [settled_withLock hk, ReleasesLock, ← seekTarget_nonneg_iff]
  have htarget : seekTarget (k.setLock true) file off whence = seekTarget k file off whence := rfl
  rw [htarget]
  cases seekTarget k file off whence with
  | none => simp [not_settled_lockedReturn]
  | some newpos =>
    by_cases hneg : newpos < 0
    · have hlt : ¬ 0 ≤ newpos := by omega
      simp [hneg, hlt, not_settled_lockedReturn]
    · have hge : 0 ≤ newpos := by omega
      simp [hneg, hge, settled_unlockReturn]

theorem settled_aesdIoctl {k : Kernel} (hk : k.dev.lock = false) (file : ℕ) (cmd : UInt32)
    (arg : UInt64) (seekto : AesdSeekto) (env : Env) :
    Settled (aesdIoctl k file cmd arg seekto env) ↔
      ReleasesLock k (.ioctl file cmd arg seekto env) := by
  unfold aesdIoctl
  unfold ReleasesLock
  cases herr : ioctlError cmd env with
  | some err => exact iff_of_true (settled_earlyReturn hk err) (Or.inl (by simp [herr]))
  | none =>
    simp only [herr, ne_eq, not_true_eq_false, false_or]
    rw [settled_withLock hk]
    apply or_congr_right
    by_cases harg : arg = 0
    · simp [harg, not_settled_lockedReturn]
    · by_cases hfault : env.copyFault = true
      · simp [harg, hfault, settled_unlockReturn]
      · by_cases hcmd : cmd = AESDCHAR_IOCSEEKTO
        · by_cases hwc : seekto.writeCmd > 9
          · simp [harg, hfault, hcmd, hwc, not_settled_lockedReturn, UInt32.not_le.mpr hwc]
          · have hle : seekto.writeCmd ≤ 9 := UInt32.not_lt.mp hwc
            by_cases hoff : (k.dev.circularBuffer.slot seekto.writeCmd.toNat).size ≤
                seekto.writeCmdOffset.toNat
            · simp [harg, hfault, hcmd, hle, hoff, not_settled_lockedReturn]
            · have hnlt : ¬ 9 < seekto.writeCmd := hwc
              simp [harg, hfault, hcmd, hle, hnlt, hoff, settled_unlockReturn,
                Nat.lt_of_not_le hoff]
        · simp [harg, hfault, hcmd, settled_unlockReturn]

/-- One call on a free mutex, whichever operation it is. -/
theorem settled_perform {k : Kernel} (hk : k.dev.lock = false) (c : Call) :
    Settled (perform k c) ↔ ReleasesLock k c := by
  cases c with
  | read file count env => exact iff_of_true (settled_aesdRead hk file count env) trivial
  | write file buf env => exact iff_of_true (settled_aesdWrite hk file buf env) trivial
  | llseek file off whence env => exact settled_aesdLlseek hk file off whence env
  | ioctl file cmd arg seekto env => exact settled_aesdIoctl hk file cmd arg seekto env

/-- The mutex is free before, between and after the calls, and each call gave
back what it took. -/
def LockGivenBack (k : Kernel) (calls : List Call) : Prop :=
  States next (fun k => k.dev.lock = false) k calls ∧
    Steps next (fun k c => Balanced (perform k c).1) k calls

theorem lockGivenBack_cons {k : Kernel} {c : Call} {cs : List Call} :
    LockGivenBack k (c :: cs) ↔ k.dev.lock = false ∧ Balanced (perform k c).1 ∧
      LockGivenBack (perform k c).2 cs := by
  unfold LockGivenBack
  rw [steps_cons]
  simp only [States, next, Option.some.injEq, forall_eq']
  tauto

/-- From a free mutex, a run gives the mutex back if and only if each of its
calls avoids the returns that skip the unlock. -/
theorem lockGivenBack_iff_from {k : Kernel} (hk : k.dev.lock = false) (calls : List Call) :
    LockGivenBack k calls ↔ Steps next ReleasesLock k calls := by
  induction calls generalizing k with
  | nil => exact iff_of_true ⟨hk, trivial⟩ trivial
  | cons c cs ih =>
    rw [lockGivenBack_cons]
    have hstep := settled_perform hk c
    constructor
    · rintro ⟨_, hbal, hrest⟩
      have hfree : (perform k c).2.dev.lock = false := hrest.1.head
      exact steps_cons.mpr ⟨hstep.mp ⟨hbal, hfree⟩, (ih hfree).mp hrest⟩
    · intro hsteps
      obtain ⟨hrel, hrest⟩ := steps_cons.mp hsteps
      have hset := hstep.mpr hrel
      exact ⟨hk, hset.1, (ih hset.2).mpr hrest⟩

theorem lockGivenBack_iff (calls : List Call) :
    LockGivenBack aesdInitModule calls ↔ Steps next ReleasesLock aesdInitModule calls :=
  lockGivenBack_iff_from rfl calls

/-- A seek to a negative position returns with the mutex held. -/
theorem lock_lost_by_negative_seek :
    ¬ ∀ calls : List Call, LockGivenBack aesdInitModule calls := by
  intro h
  have hrun := (h [.llseek 0 (-1) SEEK_SET {}]).1.last (exec_next _ _)
  exact absurd hrun (by decide)

end Aesd.LockReturn
