import Aesd.DeviceStore

/-!
Device contents over whole runs. Along any run whose user copies do not fault,
the ring is the last ten closed groups of the accepted writes, the entries that
`out_offs` has moved past are the groups before them, and the pending entry is
the open group. For a run of successful writes these three parts put together
are all bytes written.
-/

namespace Aesd.DeviceContents

open RingBuffer CharDriver DeviceStore Runs

/-- What one call drops: the oldest entry, if `out_offs` has moved past it. -/
def evictedBy (k k' : Kernel) : List (List Byte) :=
  if k'.dev.circularBuffer.outOffs = k.dev.circularBuffer.outOffs then []
  else (ringBytes k).take 1

def evictedAlong : Kernel → List Call → List (List Byte)
  | _, [] => []
  | k, c :: cs => evictedBy k (perform k c).2 ++ evictedAlong (perform k c).2 cs

/-- The dropped entry is the next group in line. -/
theorem evictedBy_push {k k' : Kernel} {adds adds' : List BufferEntry}
    {bufs bufs' : List (List Byte)}
    (h : Represents k adds (groupWrites bufs).1 (groupWrites bufs).2)
    (h' : Represents k' adds' (groupWrites bufs').1 (groupWrites bufs').2)
    (hgroups : (groupWrites bufs').1 = (groupWrites bufs).1 ∨
      ∃ g, (groupWrites bufs').1 = (groupWrites bufs).1 ++ [g]) :
    (groupWrites bufs).1.rdrop 10 ++ evictedBy k k' = (groupWrites bufs').1.rdrop 10 := by
  have hout := h.fifo.out_eq
  have hout' := h'.fifo.out_eq
  rw [h.length_eq] at hout
  rw [h'.length_eq] at hout'
  unfold evictedBy
  rw [h.retains.ringBytes_eq, hout, hout']
  generalize (groupWrites bufs).1 = closed at *
  rcases hgroups with hsame | ⟨g, hmore⟩
  · rw [hsame, if_pos rfl, List.append_nil]
  · rw [hmore]
    simp only [List.length_append, List.length_singleton, List.rdrop, List.rtake]
    rcases Nat.lt_or_ge closed.length 10 with hlt | hge
    · have hzero : closed.length - 10 = 0 := by omega
      have hzero' : closed.length + 1 - 10 = 0 := by omega
      rw [hzero, hzero', if_pos rfl]
      simp
    · have hne : ¬ (closed.length + 1 - 10) % 10 = (closed.length - 10) % 10 := by omega
      have hsucc : closed.length + 1 - 10 = (closed.length - 10) + 1 := by omega
      rw [if_neg hne, hsucc, ← List.take_add, List.take_append_of_le_length (by omega)]

theorem pushWrite_closed (groups : List (List Byte) × List Byte) (buf : List Byte) :
    (pushWrite groups buf).1 = groups.1 ∨ ∃ g, (pushWrite groups buf).1 = groups.1 ++ [g] := by
  unfold pushWrite
  split
  · exact Or.inr ⟨_, rfl⟩
  · exact Or.inl rfl

/-- One call accepts nothing or one write. -/
theorem accepted_cases (k : Kernel) (c : Call) :
    accepted k c = [] ∨ ∃ buf, accepted k c = [buf] := by
  cases c with
  | write file buf env =>
    rw [accepted_write]
    split
    · exact Or.inr ⟨buf, rfl⟩
    · exact Or.inl rfl
  | read file count env => exact Or.inl rfl
  | llseek file off whence env => exact Or.inl rfl
  | ioctl file cmd arg seekto env => exact Or.inl rfl

theorem groupWrites_accepted (bufs : List (List Byte)) (k : Kernel) (c : Call) :
    (groupWrites (bufs ++ accepted k c)).1 = (groupWrites bufs).1 ∨
      ∃ g, (groupWrites (bufs ++ accepted k c)).1 = (groupWrites bufs).1 ++ [g] := by
  rcases accepted_cases k c with hnone | ⟨buf, hbuf⟩
  · rw [hnone, List.append_nil]
    exact Or.inl rfl
  · rw [hbuf, groupWrites_concat]
    exact pushWrite_closed _ buf

/-- Along a run the dropped entries continue the evicted prefix of the groups. -/
theorem evictedAlong_eq {k : Kernel} {adds : List BufferEntry} {bufs : List (List Byte)}
    (h : Represents k adds (groupWrites bufs).1 (groupWrites bufs).2) {calls : List Call}
    (hc : Steps next CopyFine k calls) :
    (groupWrites bufs).1.rdrop 10 ++ evictedAlong k calls =
      (groupWrites (bufs ++ acceptedWrites k calls)).1.rdrop 10 := by
  induction calls generalizing k adds bufs with
  | nil => simp [evictedAlong, acceptedWrites]
  | cons c cs ih =>
    obtain ⟨hfine, htail⟩ := steps_cons.mp hc
    obtain ⟨adds', h'⟩ := h.step c hfine
    have hone := evictedBy_push h h' (groupWrites_accepted bufs k c)
    have hrest := ih h' htail
    rw [List.append_assoc] at hrest
    rw [evictedAlong, ← List.append_assoc, hone]
    exact hrest

structure WriteCall where
  file : ℕ
  buf : List Byte
  env : Env

def WriteCall.call (w : WriteCall) : Call := .write w.file w.buf w.env

/-- The call returned, and not with an error. -/
def Succeeds (k : Kernel) (c : Call) : Prop := ∃ r, (perform k c).1.ret = some r ∧ 0 ≤ r

theorem accepted_of_succeeds {k : Kernel} {w : WriteCall} (h : Succeeds k w.call) :
    accepted k w.call = [w.buf] := by
  obtain ⟨r, hret, hr⟩ := h
  have hret' : (aesdWrite k w.file w.buf w.env).1.ret = some r := hret
  rw [WriteCall.call, accepted_write, hret']
  simp [hr]

theorem acceptedWrites_of_succeed {k : Kernel} {writes : List WriteCall}
    (h : Steps next Succeeds k (writes.map WriteCall.call)) :
    acceptedWrites k (writes.map WriteCall.call) = writes.map WriteCall.buf ∧
      Steps next CopyFine k (writes.map WriteCall.call) := by
  induction writes generalizing k with
  | nil => exact ⟨rfl, trivial⟩
  | cons w ws ih =>
    obtain ⟨hfirst, hrest⟩ := steps_cons.mp h
    have hacc := accepted_of_succeeds hfirst
    obtain ⟨htail, hfine⟩ := ih hrest
    refine ⟨?_, steps_cons.mpr ⟨Or.inr (by simp [hacc]), hfine⟩⟩
    rw [List.map_cons, acceptedWrites, hacc, htail]
    rfl

/-- After any successful writes from module load on: the ring is the last ten
closed groups, the pending entry is the open group, and evicted, retained and
pending bytes together are the bytes written, in order. -/
theorem contents_of_writes (writes : List WriteCall)
    (h : Steps next Succeeds aesdInitModule (writes.map WriteCall.call)) :
    ringBytes (run aesdInitModule (writes.map WriteCall.call)) =
      (groupWrites (writes.map WriteCall.buf)).1.rtake 10 ∧
    (run aesdInitModule (writes.map WriteCall.call)).dev.circularBuffer.fifo.map
        BufferEntry.size =
      ((groupWrites (writes.map WriteCall.buf)).1.rtake 10).map List.length ∧
    pendingBytes (run aesdInitModule (writes.map WriteCall.call)) =
      (groupWrites (writes.map WriteCall.buf)).2 ∧
    (run aesdInitModule (writes.map WriteCall.call)).dev.entry.size =
      (groupWrites (writes.map WriteCall.buf)).2.length ∧
    newline ∉ pendingBytes (run aesdInitModule (writes.map WriteCall.call)) ∧
    evictedAlong aesdInitModule (writes.map WriteCall.call) =
      (groupWrites (writes.map WriteCall.buf)).1.rdrop 10 ∧
    (evictedAlong aesdInitModule (writes.map WriteCall.call)).flatten ++
        (ringBytes (run aesdInitModule (writes.map WriteCall.call))).flatten ++
        pendingBytes (run aesdInitModule (writes.map WriteCall.call)) =
      (writes.map WriteCall.buf).flatten := by
  obtain ⟨hacc, hfine⟩ := acceptedWrites_of_succeed h
  have hinit : Represents aesdInitModule [] (groupWrites []).1 (groupWrites []).2 :=
    represents_init
  obtain ⟨adds, hrep⟩ := hinit.along hfine
  have hevict := evictedAlong_eq hinit hfine
  rw [hacc, List.nil_append] at hrep hevict
  have hevict' : evictedAlong aesdInitModule (writes.map WriteCall.call) =
      (groupWrites (writes.map WriteCall.buf)).1.rdrop 10 := by
    simpa [groupWrites] using hevict
  refine ⟨hrep.retains.ringBytes_eq, hrep.retains.fifo_sizes, hrep.pendingBytes_eq,
    hrep.pending_holds.size_eq, ?_, hevict', ?_⟩
  · rw [hrep.pendingBytes_eq]
    exact newline_not_mem_open _
  · rw [hevict', hrep.retains.ringBytes_eq, hrep.pendingBytes_eq, ← List.flatten_append]
    have hsplit : (groupWrites (writes.map WriteCall.buf)).1.rdrop 10 ++
        (groupWrites (writes.map WriteCall.buf)).1.rtake 10 =
          (groupWrites (writes.map WriteCall.buf)).1 := List.take_append_drop _ _
    rw [hsplit, groupWrites_flatten]

/-- A write without a newline, then one with the newline in its middle, through
two files. -/
theorem contents_of_two_writes :
    ringBytes (run aesdInitModule [.write 0 [104] {}, .write 1 [105, 10, 106] {}]) =
      [[104, 105, 10, 106]] :=
  (contents_of_writes [⟨0, [104], {}⟩, ⟨1, [105, 10, 106], {}⟩]
    (steps_cons.mpr ⟨⟨1, by decide, by decide⟩,
      steps_cons.mpr ⟨⟨3, by decide, by decide⟩, trivial⟩⟩)).1.trans (by decide)

end Aesd.DeviceContents
