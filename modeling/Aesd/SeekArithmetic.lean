import Aesd.ReadToEnd
import Mathlib.Order.Bounds.Basic

/-!
The arithmetic of `aesd_llseek`. The sum of base and offset is taken modulo
2^64, unsigned for `SEEK_END` and signed for `SEEK_CUR`, and tested for its sign
only. For a base in the range of positions that test accepts exactly the sums
that did not wrap. The base of `SEEK_END`, summed over the physical slots, is
the first position at which a read reports the end.
-/

namespace Aesd.SeekArithmetic

open RingBuffer CharDriver DeviceStore DeviceReads RingIntact ReadToEnd

/-- Where an offset counts from. -/
def seekBase (k : Kernel) (file : ℕ) (whence : ℤ) : ℤ :=
  if whence = SEEK_SET then 0
  else if whence = SEEK_CUR then k.fPos file
  else (deviceBytes k).length

/-- A sum that fits is left as it is, a larger one comes out negative. -/
theorem loff_of_range {x : ℤ} (hlow : -2 ^ 63 ≤ x) (hhigh : x < 2 ^ 64) :
    (0 ≤ x ∧ x < 2 ^ 63 → loff x = x) ∧ (¬ (0 ≤ x ∧ x < 2 ^ 63) → loff x < 0) := by
  unfold loff
  constructor
  · intro hx
    rw [Int.bmod_eq_of_le] <;> omega
  · intro hx
    rw [Int.bmod_eq_emod]
    split <;> omega

section Llseek

variable {k : Kernel} {adds : List BufferEntry} {file : ℕ} {off whence : ℤ}

theorem totalSize_eq_length (h : Intact k adds) :
    totalSize k.dev.circularBuffer = (deviceBytes k).length := by
  have hlen := h.content_lt
  rw [totalSize_eq h.retains (by rw [h.content_eq]; omega), h.content_eq, deviceBytes]

/-- The three cases of the `switch` compute the sum of base and offset modulo 2^64. -/
theorem seekTarget_eq (h : Intact k adds)
    (hwhence : whence = SEEK_SET ∨ whence = SEEK_CUR ∨ whence = SEEK_END)
    (hlow : -2 ^ 63 ≤ off) (hhigh : off < 2 ^ 63) :
    seekTarget k file off whence = some (loff (seekBase k file whence + off)) := by
  rcases hwhence with rfl | rfl | rfl
  · have hoff : loff off = off := by
      unfold loff
      rw [Int.bmod_eq_of_le] <;> omega
    simp [seekTarget, seekBase, hoff]
  · simp [seekTarget, seekBase, SEEK_SET, SEEK_CUR]
  · simp [seekTarget, seekBase, SEEK_SET, SEEK_CUR, SEEK_END, totalSize_eq_length h]

/-- `aesd_llseek` on a free device. -/
theorem aesdLlseek_eq (hfree : k.dev.lock = false) {env : Env} (hwait : env.interrupted = false)
    {newpos : ℤ} (htarget : seekTarget k file off whence = some newpos) :
    aesdLlseek k file off whence env =
      if newpos < 0 then (⟨some (-EINVAL), [.lock], []⟩, k.setLock true)
      else (⟨some newpos, [.lock, .unlock], []⟩, k.setPos file newpos) := by
  have htarget' : seekTarget (k.setLock true) file off whence = some newpos := htarget
  unfold aesdLlseek withLock
  rw [if_neg (by simp [hwait]), if_neg (by simp [hfree])]
  dsimp only
  rw [htarget']
  dsimp only
  split
  · rfl
  · rw [unlockReturn, Kernel.setPos_setLock_of_free hfree]

/-- The length of the content is the first position that reads report as the end. -/
theorem isLeast_end (h : Intact k adds) (hfree : k.dev.lock = false) {request : Request}
    (hserved : Served request) :
    IsLeast {p : ℕ | p < 2 ^ 63 ∧
      (aesdRead (k.setPos file p) file request.count request.env).1.ret = some 0}
      (deviceBytes k).length := by
  have hat : ∀ p : ℕ, Intact (k.setPos file p) adds := fun p => h.congr ⟨rfl, rfl, rfl⟩
  have hlen : (deviceBytes k).length < 2 ^ 63 := h.content_lt
  constructor
  · refine ⟨hlen, ?_⟩
    rw [read_at_end (hat (deviceBytes k).length) hserved.access hserved.waits hfree (by simp) hlen
      le_rfl]
  · rintro p ⟨hp, hret⟩
    rcases read_cases (hat p) hserved hfree (k.setPos_fPos_self file p) hp with
      ⟨_, hcall⟩ | ⟨r, hcall⟩
    · rw [hcall] at hret
      cases hret
    · have hzero : r = 0 := by
        have hr := hcall.ret_eq.symm.trans hret
        simpa using hr
      exact hcall.at_end.mp hzero

end Llseek

/-- From any state that calls can leave, for any position, offset and whence:
`aesd_llseek` goes to the exact sum of base and offset if that is a position and
otherwise fails and stays; and the sum over the physical slots that `SEEK_END`
counts from is the first position at which a read reports the end. -/
theorem llseek_exact (calls : List Call) (file pos : ℕ) (hpos : pos < 2 ^ 63) {off whence : ℤ}
    (hlow : -2 ^ 63 ≤ off) (hhigh : off < 2 ^ 63)
    (hwhence : whence = SEEK_SET ∨ whence = SEEK_CUR ∨ whence = SEEK_END) (env : Env) :
    (env.interrupted = true → aesdLlseek (deviceAt calls file pos) file off whence env =
      (⟨some (-ERESTARTSYS), [], []⟩, deviceAt calls file pos)) ∧
    (env.interrupted = false →
      0 ≤ seekBase (deviceAt calls file pos) file whence + off ∧
        seekBase (deviceAt calls file pos) file whence + off < 2 ^ 63 →
      (aesdLlseek (deviceAt calls file pos) file off whence env).1.ret =
          some (seekBase (deviceAt calls file pos) file whence + off) ∧
        (aesdLlseek (deviceAt calls file pos) file off whence env).2 =
          deviceAt calls file (seekBase (deviceAt calls file pos) file whence + off)) ∧
    (env.interrupted = false →
      ¬ (0 ≤ seekBase (deviceAt calls file pos) file whence + off ∧
        seekBase (deviceAt calls file pos) file whence + off < 2 ^ 63) →
      (aesdLlseek (deviceAt calls file pos) file off whence env).1.ret = some (-EINVAL) ∧
        (aesdLlseek (deviceAt calls file pos) file off whence env).2.fPos =
          (deviceAt calls file pos).fPos) ∧
    totalSize (deviceAt calls file pos).dev.circularBuffer =
      (deviceBytes (deviceAt calls file pos)).length ∧
    ∀ request, Served request → IsLeast {p : ℕ | p < 2 ^ 63 ∧
      (aesdRead (deviceAt calls file p) file request.count request.env).1.ret = some 0}
      (totalSize (deviceAt calls file pos).dev.circularBuffer) := by
  obtain ⟨adds, h⟩ := intact_deviceAt calls file pos
  have hfree : (deviceAt calls file pos).dev.lock = false := rfl
  have hbase : 0 ≤ seekBase (deviceAt calls file pos) file whence ∧
      seekBase (deviceAt calls file pos) file whence < 2 ^ 63 := by
    have hlen : (deviceBytes (deviceAt calls file pos)).length < 2 ^ 63 := h.content_lt
    have hfile : (deviceAt calls file pos).fPos file = pos := by simp [deviceAt]
    unfold seekBase
    rw [hfile]
    split
    · omega
    · split <;> omega
  have htarget := @seekTarget_eq _ _ file off whence h hwhence hlow hhigh
  have hrange := @loff_of_range (seekBase (deviceAt calls file pos) file whence + off) (by omega)
    (by omega)
  refine ⟨fun hwait => ?_, fun hwait hfit => ?_, fun hwait hout => ?_, totalSize_eq_length h,
    fun request hserved => ?_⟩
  · unfold aesdLlseek withLock
    rw [if_pos hwait]
    rfl
  · rw [aesdLlseek_eq hfree hwait htarget, hrange.1 hfit, if_neg (by omega)]
    exact ⟨rfl, setPos_setPos ..⟩
  · rw [aesdLlseek_eq hfree hwait htarget, if_pos (hrange.2 hout)]
    exact ⟨rfl, rfl⟩
  · have hleast := @isLeast_end _ _ file h hfree request hserved
    rw [totalSize_eq_length h]
    simpa only [deviceAt, setPos_setPos] using hleast

/-- Three bytes stored, and `SEEK_END` with an offset of minus one and minus four. -/
theorem llseek_near_end :
    (aesdLlseek (deviceAt [.write 0 [104, 105, 10] {}] 0 7) 0 (-1) SEEK_END {}).1.ret = some 2 ∧
      (aesdLlseek (deviceAt [.write 0 [104, 105, 10] {}] 0 7) 0 (-4) SEEK_END {}).1.ret =
        some (-EINVAL) := by
  have hone := @llseek_exact [.write 0 [104, 105, 10] {}] 0 7 (by decide) (-1) SEEK_END (by decide)
    (by decide) (Or.inr (Or.inr rfl)) {}
  have hfour := @llseek_exact [.write 0 [104, 105, 10] {}] 0 7 (by decide) (-4) SEEK_END (by decide)
    (by decide) (Or.inr (Or.inr rfl)) {}
  exact ⟨(hone.2.1 rfl (by decide)).1, (hfour.2.2.1 rfl (by decide)).1⟩

end Aesd.SeekArithmetic
