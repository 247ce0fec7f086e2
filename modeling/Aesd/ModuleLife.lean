import Aesd.BlockOwnership
import Aesd.DeviceSpec
import Mathlib.Data.Finset.Insert

/-!
The module from one load to the next. Loading registers a device number and a
character device, or neither; unloading needs that no file is open, unregisters
both and frees the ring slots. What outlives a load is the heap. Over any number
of loads the live blocks are those the loaded device holds and the pending
buffers that earlier unloads have left, and no block is freed twice.
-/

namespace Aesd.ModuleLife

open Blocks RingBuffer CharDriver DeviceStore DeviceSpec BlockOwnership Runs

/-- `region` and `cdev`: the device number and the character device are registered. -/
structure Machine where
  kernel : Kernel
  loaded : Bool
  region : Bool
  cdev : Bool
  opened : Finset ℕ

inductive Event
  | load (region cdevAdd : ℤ)
  | unload
  | openFile (file : ℕ)
  | release (file : ℕ)
  | call (file : ℕ) (c : Call)

def Call.file : Call → ℕ
  | .read file _ _ => file
  | .write file _ _ => file
  | .llseek file _ _ _ => file
  | .ioctl file _ _ _ _ => file

namespace Machine

def init : Machine where
  kernel := CharDriver.aesdInitModule
  loaded := false
  region := false
  cdev := false
  opened := ∅

/-- `cdev_init`, the owner and the operations, and `cdev_add` with its result. -/
def aesdSetupCdev (m : Machine) (cdevAdd : ℤ) : ℤ × Machine :=
  (cdevAdd, if cdevAdd = 0 then { m with cdev := true } else m)

/-- `region` is the result of `alloc_chrdev_region`. -/
def aesdInitModule (m : Machine) (region cdevAdd : ℤ) : ℤ × Machine :=
  if region < 0 then (region, m)
  else
    -- the zeroed device, with its buffer and mutex initialised
    let m := { m with
      region := true
      kernel := { m.kernel with dev := CharDriver.aesdInitModule.dev } }
    let (result, m) := m.aesdSetupCdev cdevAdd
    (result, if result ≠ 0 then { m with region := false } else m)

def aesdCleanupModule (m : Machine) : Machine :=
  { m with cdev := false, kernel := CharDriver.aesdCleanupModule m.kernel, region := false }

/-- A new description starts at position zero. -/
def aesdOpen (m : Machine) (file : ℕ) : ℤ × Machine :=
  (0, { m with kernel := m.kernel.setPos file 0, opened := insert file m.opened })

def aesdRelease (m : Machine) (file : ℕ) : ℤ × Machine :=
  (0, { m with opened := m.opened.erase file })

/-- The module is the owner of its files, so it stays while one is open. The two
results of a load are zero or an error. -/
def next (m : Machine) : Event → Option Machine
  | .load region cdevAdd =>
    if m.loaded = false ∧ region ≤ 0 ∧ cdevAdd ≤ 0 then
      some { (m.aesdInitModule region cdevAdd).2 with
        loaded := decide ((m.aesdInitModule region cdevAdd).1 = 0) }
    else none
  | .unload =>
    if m.loaded = true ∧ m.opened = ∅ then some { m.aesdCleanupModule with loaded := false }
    else none
  | .openFile file =>
    if m.cdev = true ∧ file ∉ m.opened then some (m.aesdOpen file).2 else none
  | .release file => if file ∈ m.opened then some (m.aesdRelease file).2 else none
  | .call file c =>
    if file = Call.file c ∧ file ∈ m.opened then
      some { m with kernel := (perform m.kernel c).2 }
    else none

end Machine

def EventCopies : Event → Prop
  | .call _ c => Copies c
  | _ => True

instance : DecidablePred EventCopies := fun e => by
  unfold EventCopies
  cases e <;> infer_instance

/-- The pending buffer, which an unload does not free. -/
def leftBehind (m : Machine) : Event → List Ptr
  | .load _ _ => []
  | .unload => if m.kernel.dev.entry.size = 0 then [] else [m.kernel.dev.entry.buffptr]
  | .openFile _ => []
  | .release _ => []
  | .call _ _ => []

/-- What the device owns, if there is one. -/
def holding (m : Machine) : List Ptr := if m.loaded then held m.kernel else []

/-- The account of a loaded device next to blocks that nobody knows any more. -/
structure Accounted (k : Kernel) (leaked : List Ptr) : Prop where
  owns : Owns k.heap (held k ++ leaked)
  in_lt : k.dev.circularBuffer.inOffs < 10
  pending : k.dev.entry.buffptr.id? = none ↔ k.dev.entry.size = 0
  small : k.dev.entry.size < 2 ^ 63

namespace Accounted

variable {k k' : Kernel} {leaked : List Ptr}

theorem congr (h : Accounted k leaked) (hs : SameData k k') : Accounted k' leaked where
  owns := by
    unfold held
    rw [hs.heap_eq, hs.entry_eq, hs.ring_eq]
    exact h.owns
  in_lt := by rw [hs.ring_eq]; exact h.in_lt
  pending := by rw [hs.entry_eq]; exact h.pending
  small := by rw [hs.entry_eq]; exact h.small

/-- The block that `krealloc` gives takes the place of the pending one. -/
theorem append (h : Accounted k leaked) {buf : List Byte} {outcome : KreallocOutcome}
    {presult : Ptr} {heap : Heap (List Byte)} (hlen : buf.length < 2 ^ 63)
    (hk : krealloc k.heap k.dev.entry.buffptr (sizeAdd buf.length k.dev.entry.size) outcome =
      some (presult, heap)) : Accounted (appendBytes { k with heap } presult buf) leaked := by
  have hsmall := h.small
  have hsum : sizeAdd buf.length k.dev.entry.size = buf.length + k.dev.entry.size :=
    sizeAdd_of_lt (by omega)
  have hsum' : sizeAdd k.dev.entry.size buf.length = buf.length + k.dev.entry.size := by
    rw [sizeAdd_of_lt (by omega), Nat.add_comm]
  rw [hsum] at hk
  obtain ⟨howns, _, hzero, hpos⟩ := krealloc_spec h.owns hk
  refine ⟨howns.store _ _, h.in_lt, ?_, ?_⟩
  · change presult.id? = none ↔ sizeAdd k.dev.entry.size buf.length = 0
    rw [hsum']
    refine ⟨fun hnone => ?_, hzero⟩
    by_contra hne
    have hread := (hpos (Nat.pos_of_ne_zero hne)).2
    simp [Heap.read, hnone] at hread
  · change sizeAdd k.dev.entry.size buf.length < 2 ^ 63
    rw [hsum']
    rcases Nat.eq_zero_or_pos (buf.length + k.dev.entry.size) with hz | hlt
    · omega
    · exact (hpos hlt).1

/-- The committed entry goes into the ring, and what it replaced is freed. -/
theorem commit (h : Accounted k leaked) : Accounted (commitEntry k) leaked where
  owns := by
    have hperm := slotPtrs_addEntry k.dev.circularBuffer k.dev.entry h.in_lt
    have howns := h.owns.perm (hperm.append_right leaked)
    exact (Owns.cons_of_no_block rfl).mpr howns.free
  in_lt := by
    change (k.dev.circularBuffer.addEntry k.dev.entry).2.inOffs < 10
    unfold CircularBuffer.addEntry
    split <;> exact Nat.mod_lt _ (by decide)
  pending := iff_of_true rfl rfl
  small := Nat.two_pow_pos 63

theorem perform (h : Accounted k leaked) {c : Call} (hc : Copies c) :
    Accounted (CharDriver.perform k c).2 leaked := by
  cases c with
  | read file count env => exact h.congr (sameData_aesdRead k file count env)
  | llseek file off whence env => exact h.congr (sameData_aesdLlseek k file off whence env)
  | ioctl file cmd arg seekto env => exact h.congr (sameData_aesdIoctl k file cmd arg seekto env)
  | write file buf env =>
    change Accounted (aesdWrite k file buf env).2 leaked
    by_cases hreach : accessOk env buf.length = true ∧ env.interrupted = false ∧ k.dev.lock = false
    · obtain ⟨haccess, hwait, hfree⟩ := hreach
      have hlen : buf.length < 2 ^ 63 := by
        simp only [accessOk, Bool.and_eq_true, decide_eq_true_eq] at haccess
        exact haccess.2
      have hcopy : ¬ copyFaults env buf.length = true := by
        intro hfault
        rw [hc] at hfault
        cases hfault
      rw [aesdWrite_eq haccess hwait hfree]
      cases hk : krealloc k.heap k.dev.entry.buffptr (sizeAdd buf.length k.dev.entry.size)
          env.realloc with
      | none => exact h
      | some granted =>
        obtain ⟨presult, heap⟩ := granted
        dsimp only
        rw [if_neg hcopy]
        have happ := h.append hlen hk
        have haccepted : Accounted (acceptBytes { k with heap } presult buf) leaked := by
          unfold acceptBytes
          dsimp only
          split
          · exact happ.commit
          · exact happ
        exact haccepted.congr ⟨rfl, rfl, rfl⟩
    · obtain ⟨ret, _, heq⟩ := aesdWrite_early hreach
      rw [heq k file rfl]
      exact h

end Accounted

/-- A device that has just been set up holds no block. -/
theorem accounted_fresh {k : Kernel} {leaked : List Ptr} (h : Owns k.heap leaked) :
    Accounted { k with dev := CharDriver.aesdInitModule.dev } leaked where
  owns := by
    refine h.of_ids_eq ?_
    have hnone : ids (held CharDriver.aesdInitModule) = [] := by decide
    change ids leaked = ids (held CharDriver.aesdInitModule ++ leaked)
    rw [ids, ids, List.filterMap_append]
    change _ = ids (held CharDriver.aesdInitModule) ++ _
    rw [hnone, List.nil_append]
  in_lt := Nat.zero_lt_succ 9
  pending := iff_of_true rfl rfl
  small := Nat.two_pow_pos 63

/-- What holds between the events; `leaked` are the buffers left behind so far. -/
structure Sound (m : Machine) (leaked : List Ptr) : Prop where
  region : m.region = m.loaded
  cdev : m.cdev = m.loaded
  closed : m.loaded = false → m.opened = ∅
  device : m.loaded = true → Accounted m.kernel leaked
  heap : m.loaded = false → Owns m.kernel.heap leaked
  blocks : ∀ p ∈ leaked, p.id? ≠ none

theorem sound_init : Sound Machine.init [] where
  region := rfl
  cdev := rfl
  closed _ := rfl
  device h := by cases h
  heap _ := Owns.empty
  blocks := by simp

namespace Sound

variable {m t : Machine} {leaked : List Ptr}

/-- A load registers everything, or nothing and reports an error. -/
theorem load (h : Sound m leaked) {region cdevAdd : ℤ}
    (hnext : m.next (.load region cdevAdd) = some t) : Sound t leaked := by
  obtain ⟨⟨hunloaded, hregion, hadd⟩, ht⟩ := Option.ite_none_right_eq_some.mp hnext
  obtain rfl := Option.some.inj ht
  have hcdev : m.cdev = false := h.cdev.trans hunloaded
  have hnumber : m.region = false := h.region.trans hunloaded
  have hclosed := h.closed hunloaded
  have hheap := h.heap hunloaded
  unfold Machine.aesdInitModule Machine.aesdSetupCdev
  by_cases hneg : region < 0
  · have hne : region ≠ 0 := by omega
    simp only [hneg, if_true, hne, decide_false]
    exact ⟨hnumber, hcdev, fun _ => hclosed, fun hloaded => (by cases hloaded), fun _ => hheap,
      h.blocks⟩
  · by_cases hzero : cdevAdd = 0
    · simp only [hneg, if_false, hzero, if_true, ne_eq, not_true_eq_false, decide_true]
      exact ⟨rfl, rfl, fun hloaded => (by cases hloaded), fun _ => accounted_fresh hheap,
        fun hloaded => (by cases hloaded), h.blocks⟩
    · simp only [hneg, if_false, hzero, ne_eq, not_false_eq_true, if_true, decide_false]
      exact ⟨rfl, hcdev, fun _ => hclosed, fun hloaded => (by cases hloaded), fun _ => hheap,
        h.blocks⟩

/-- An unload frees what the ring holds and leaves a pending buffer behind. -/
theorem unload (h : Sound m leaked) (hnext : m.next .unload = some t) :
    Sound t (leaked ++ leftBehind m .unload) := by
  obtain ⟨⟨hloaded, hclosed⟩, ht⟩ := Option.ite_none_right_eq_some.mp hnext
  obtain rfl := Option.some.inj ht
  have hdevice := h.device hloaded
  have hfreed : Owns (CharDriver.aesdCleanupModule m.kernel).heap
      (m.kernel.dev.entry.buffptr :: leaked) := by
    apply owns_freeAll
    exact hdevice.owns.perm List.perm_middle.symm
  by_cases hsize : m.kernel.dev.entry.size = 0
  · have hleft : leftBehind m .unload = [] := if_pos hsize
    rw [hleft, List.append_nil]
    exact ⟨rfl, rfl, fun _ => hclosed, fun hl => (by cases hl),
      fun _ => (Owns.cons_of_no_block (hdevice.pending.mpr hsize)).mp hfreed, h.blocks⟩
  · have hleft : leftBehind m .unload = [m.kernel.dev.entry.buffptr] := if_neg hsize
    rw [hleft]
    refine ⟨rfl, rfl, fun _ => hclosed, fun hl => (by cases hl),
      fun _ => hfreed.perm (List.perm_append_singleton _ _).symm, ?_⟩
    refine List.forall_mem_append.mpr ⟨h.blocks, List.forall_mem_singleton.mpr ?_⟩
    exact fun hnone => hsize (hdevice.pending.mp hnone)

/-- Opening, releasing and calling leave the registration alone. -/
theorem step (h : Sound m leaked) {e : Event} (he : EventCopies e)
    (hnext : m.next e = some t) : Sound t (leaked ++ leftBehind m e) := by
  cases e with
  | load region cdevAdd =>
    rw [leftBehind, List.append_nil]
    exact h.load hnext
  | unload => exact h.unload hnext
  | openFile file =>
    obtain ⟨⟨hcdev, _⟩, ht⟩ := Option.ite_none_right_eq_some.mp hnext
    obtain rfl := Option.some.inj ht
    have hloaded : m.loaded = true := h.cdev.symm.trans hcdev
    rw [leftBehind, List.append_nil]
    refine ⟨h.region, h.cdev, fun hl => ?_, fun hl => (h.device hl).congr ⟨rfl, rfl, rfl⟩, h.heap,
      h.blocks⟩
    exact absurd (hloaded.symm.trans hl) (by decide)
  | release file =>
    obtain ⟨_, ht⟩ := Option.ite_none_right_eq_some.mp hnext
    obtain rfl := Option.some.inj ht
    rw [leftBehind, List.append_nil]
    refine ⟨h.region, h.cdev, fun hl => ?_, h.device, h.heap, h.blocks⟩
    change m.opened.erase file = ∅
    rw [h.closed hl, Finset.erase_empty]
  | call file c =>
    obtain ⟨⟨_, hopen⟩, ht⟩ := Option.ite_none_right_eq_some.mp hnext
    obtain rfl := Option.some.inj ht
    -- a file is open, so the module is loaded
    have hloaded : m.loaded = true := by
      by_contra hl
      rw [h.closed (by simpa using hl)] at hopen
      simp at hopen
    rw [leftBehind, List.append_nil]
    refine ⟨h.region, h.cdev, h.closed, fun hl => (h.device hl).perform he, fun hl => ?_, h.blocks⟩
    exact absurd (hloaded.symm.trans hl) (by decide)

end Sound

/-- Over any number of loads, failed or not, with any calls on open files whose
writes do not fault: what is registered is what a loaded module needs; the live
blocks are exactly those the loaded device holds and one pending buffer for each
unload that found one; and nothing is freed twice. -/
theorem leaks_of_unloads (events : List Event) (m : Machine)
    (hrun : exec Machine.next Machine.init events = some m)
    (hcopies : ∀ e ∈ events, EventCopies e) :
    m.region = m.loaded ∧ m.cdev = m.loaded ∧ (m.loaded = false → m.opened = ∅) ∧
      Owns m.kernel.heap
        (holding m ++ outputs Machine.next leftBehind Machine.init events) ∧
      ∀ p ∈ outputs Machine.next leftBehind Machine.init events, p.id? ≠ none := by
  have hsteps : Steps Machine.next (fun _ e => EventCopies e) Machine.init events :=
    Steps.of_labels hcopies
  have hsound : Sound m (outputs Machine.next leftBehind Machine.init events) := by
    refine @Steps.history _ _ _ _ (fun past s =>
      Sound s (outputs Machine.next leftBehind Machine.init past)) _ sound_init ?_ _ _ hsteps hrun
    intro past s e t hpast h he hnext
    rw [outputs_concat hpast hnext]
    exact h.step he hnext
  refine ⟨hsound.region, hsound.cdev, hsound.closed, ?_, hsound.blocks⟩
  unfold holding
  split
  · rename_i hloaded
    exact (hsound.device hloaded).owns
  · rename_i hloaded
    exact hsound.heap (by simpa using hloaded)

/-- A failed load, then two loads with an open command at the first unload. -/
def twoLoads : List Event :=
  [.load (-16) 0, .load 0 (-12), .load 0 0, .openFile 3,
    .call 3 (.write 3 [97, 10, 98] {}), .call 3 (.write 3 [99] {}), .release 3, .unload,
    .load 0 0, .openFile 3, .call 3 (.write 3 [100, 10] {})]

theorem leaks_of_two_loads : ∃ m, exec Machine.next Machine.init twoLoads = some m ∧
    Owns m.kernel.heap (holding m ++ [.block 1]) := by
  obtain ⟨m, hm⟩ := Option.isSome_iff_exists.mp
    (by decide : (exec Machine.next Machine.init twoLoads).isSome = true)
  have hleaked : outputs Machine.next leftBehind Machine.init twoLoads = [.block 1] := by decide
  have hlife := leaks_of_unloads twoLoads m hm (by decide)
  rw [hleaked] at hlife
  exact ⟨m, hm, hlife.2.2.2.1⟩

end Aesd.ModuleLife
