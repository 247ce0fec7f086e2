import Aesd.DeviceStore

/-!
Ownership of the command buffers from module load to unload. As long as user
copies do not fault, the ring slots and the pending entry own exactly the live
blocks in every state between operations, and nothing is freed twice. Unloading
frees the buffers of the ring slots only, so nothing stays allocated if and only
if no unterminated command is pending at that moment.
-/

namespace Aesd.BlockOwnership

open Blocks RingBuffer CharDriver DeviceStore Runs

/-- Releasing a list of held pointers one after another. -/
theorem owns_freeAll {heap : Heap (List Byte)} {rest : List Ptr} (entries : List BufferEntry)
    (ho : Owns heap (entries.map BufferEntry.buffptr ++ rest)) :
    Owns (entries.foldl (fun h e => h.free e.buffptr) heap) rest := by
  induction entries generalizing heap with
  | nil => exact ho
  | cons e es ih => exact ih ho.free

/-- Unloading leaves exactly the pending entry in the account. -/
theorem owns_aesdCleanupModule {k : Kernel} (ho : Owns k.heap (held k)) :
    Owns (aesdCleanupModule k).heap [k.dev.entry.buffptr] := by
  apply owns_freeAll
  exact ho.perm (List.perm_append_singleton _ _).symm

/-- In every state between operations the device owns exactly the live blocks,
each once, and nothing was freed twice; after unloading nothing is live. -/
def BlocksAccounted (calls : List Call) : Prop :=
  States next (fun k => Owns k.heap (held k)) aesdInitModule calls ∧
    (aesdCleanupModule (run aesdInitModule calls)).heap.freed.Nodup ∧
    ∀ id, ¬ (aesdCleanupModule (run aesdInitModule calls)).heap.Live id

theorem steps_copyFine {k : Kernel} {calls : List Call}
    (hcopy : ∀ c ∈ calls, c.env.copyFault = false) : Steps next CopyFine k calls := by
  induction calls generalizing k with
  | nil => trivial
  | cons c cs ih =>
    exact steps_cons.mpr ⟨Or.inl (hcopy c (List.mem_cons_self ..)),
      ih (fun d hd => hcopy d (List.mem_cons_of_mem _ hd))⟩

theorem states_owns {k : Kernel} {adds : List BufferEntry} {bufs : List (List Byte)}
    (h : Represents k adds (groupWrites bufs).1 (groupWrites bufs).2) {calls : List Call}
    (hc : Steps next CopyFine k calls) :
    States next (fun k => Owns k.heap (held k)) k calls := by
  induction calls generalizing k adds bufs with
  | nil => exact h.owns
  | cons c cs ih =>
    refine ⟨h.owns, ?_⟩
    intro t ht
    cases ht
    obtain ⟨hfine, hrest⟩ := steps_cons.mp hc
    obtain ⟨adds', h'⟩ := h.step c hfine
    exact ih h' hrest

/-- The pending entry holds no block exactly when it is empty. -/
theorem no_block_iff_size_zero {heap : Heap (List Byte)} {e : BufferEntry} {bytes : List Byte}
    (h : Holds heap e bytes) : e.buffptr.id? = none ↔ e.size = 0 := by
  rw [h.size_eq, List.length_eq_zero_iff]
  constructor
  · intro hnone
    by_contra hne
    have hread := h.read_eq hne
    simp [Heap.read, hnone] at hread
  · exact h.no_block

/-- With user copies succeeding, the blocks are accounted for from load to
unload if and only if no unterminated command is pending at unload. -/
theorem blocksAccounted_iff (calls : List Call)
    (hcopy : ∀ c ∈ calls, c.env.copyFault = false) :
    BlocksAccounted calls ↔ (run aesdInitModule calls).dev.entry.size = 0 := by
  have hinit : Represents aesdInitModule [] (groupWrites []).1 (groupWrites []).2 :=
    represents_init
  have hfine : Steps next CopyFine aesdInitModule calls := steps_copyFine hcopy
  obtain ⟨adds, hrep⟩ := hinit.along hfine
  have hclean := owns_aesdCleanupModule hrep.owns
  rw [← no_block_iff_size_zero hrep.pending_holds]
  constructor
  · intro hacc
    cases hid : (run aesdInitModule calls).dev.entry.buffptr.id? with
    | none => rfl
    | some id =>
      exfalso
      apply hacc.2.2 id
      rw [hclean.live_iff, ids_cons_of_block hid]
      exact List.mem_cons_self ..
  · intro hnone
    have hempty := (Owns.cons_of_no_block hnone).mp hclean
    exact ⟨states_owns hinit hfine, hclean.freed_once, hempty.none_live⟩

theorem blocksAccounted_terminated :
    BlocksAccounted [.write 0 [104, 105, 10] {}, .write 0 [106] {}, .write 0 [10] {}] :=
  (blocksAccounted_iff _ (by decide)).mpr (by decide)

/-- One unterminated write, then unload: its buffer is never freed. -/
theorem pending_block_leaks :
    ¬ ∀ calls : List Call, (∀ c ∈ calls, c.env.copyFault = false) → BlocksAccounted calls := by
  intro h
  have hacc := h [.write 0 [104] {}] (by decide)
  exact hacc.2.2 0 (by decide)

end Aesd.BlockOwnership
