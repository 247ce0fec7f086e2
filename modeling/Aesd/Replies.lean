import Aesd.TurnSnapshot

/-!
What the clients get. A worker collects its reads in the buffer of its reply
with `strcat`, which stops at zero bytes. If no packet contains one, a reply is
the content of the device at the end of the turn, or its rest from the position
of a seek. Replies to packets end with the packet, and each of them starts with
all earlier ones as long as nothing was evicted.
-/

namespace Aesd.Replies

open CharDriver DeviceReads EchoWorker WorkerPool SharedDevice TurnSnapshot Runs

def NoZero (pk : List (List Byte)) : Prop := ∀ p ∈ pk, 0 ∉ p

/-- What the buffer of the reply holds at the next call of its worker. -/
def Collected (t : Record) (pk : List (List Byte)) (w : Worker) : Prop :=
  match w.pc with
  | .read => (NoZero pk → w.sbuffer = t.delivered) ∧
    (w.overrun = false → w.sbuffer.length < BUFFER_SIZE)
  | .send => Snapshot t pk ∧ (NoZero pk → w.sbuffer = t.delivered) ∧
    (w.overrun = false → w.sbuffer.length < BUFFER_SIZE)
  | .finish | .ret | .done => True
  | _ => w.sbuffer = []

theorem zero_not_mem_content {pk : List (List Byte)} (h : NoZero pk) : 0 ∉ content pk := by
  intro hmem
  obtain ⟨p, hp, hzero⟩ := List.mem_flatten.mp hmem
  exact h p (List.mem_of_mem_drop hp) hzero

/-- The last packet is at the end of the content. -/
theorem suffix_content {pk : List (List Byte)} {p : List Byte} (h : pk.getLast? = some p) :
    p <:+ content pk := by
  obtain ⟨earlier, rfl⟩ := List.getLast?_eq_some_iff.mp h
  rw [content, List.rtake, List.drop_append_of_le_length (by simp), List.flatten_append,
    List.flatten_singleton]
  exact List.suffix_append _ _

/-- Before the first eviction the content only grows. -/
theorem content_prefix {pk pk' : List (List Byte)} (h : pk <+: pk') (hlen : pk'.length ≤ 10) :
    content pk <+: content pk' := by
  obtain ⟨more, rfl⟩ := h
  rw [List.length_append] at hlen
  have hall : (pk ++ more).length - 10 = 0 := by
    rw [List.length_append]
    omega
  have hfirst : pk.length - 10 = 0 := by omega
  rw [content, content, List.rtake, List.rtake, hall, hfirst, List.drop_zero, List.drop_zero,
    List.flatten_append]
  exact List.prefix_append _ _

section Move

variable {pair : ℕ → AesdSeekto} {ls : List Step} {l : Step} {s t : System}

theorem alive_of_inside (hrun : exec System.next (System.init pair) ls = some s) {i : ℕ}
    (hin : (s.pool.worker i).pc.inside = true) : Alive ls s := by
  rcases alive_or_dead hrun with ⟨j, hj, hout⟩ | halive
  · have hi := exclusive_run hrun i hin
    rw [hj] at hi
    cases hi
    rw [hin] at hout
    cases hout
  · exact halive

/-- What a worker in its reads has been given is part of the content. -/
theorem delivered_part (hrun : exec System.next (System.init pair) ls = some s) {i : ℕ}
    (hpc : (s.pool.worker i).pc = .read) :
    ∀ b ∈ (turn i ls).delivered, b ∈ content (packets ls) := by
  have hin : (s.pool.worker i).pc.inside = true := by
    rw [hpc]
    rfl
  have hturn := (alive_of_inside hrun hin).holding i (exclusive_run hrun i hin)
  simp only [InTurn, hpc] at hturn
  obtain ⟨start, hreading⟩ := hturn
  intro b hb
  rw [hreading.delivered] at hb
  exact List.mem_of_mem_drop (List.mem_of_mem_take hb)

/-- A turn that is about to read has been given nothing yet. -/
theorem nothing_delivered (hrun : exec System.next (System.init pair) ls = some s) {i : ℕ}
    (hpc : (s.pool.worker i).pc = .sizeSet false ∨ (s.pool.worker i).pc = .ioctl) :
    (turn i ls).delivered = [] := by
  have hin : (s.pool.worker i).pc.inside = true := by
    rcases hpc with hpc | hpc <;> rw [hpc] <;> rfl
  have hturn := (alive_of_inside hrun hin).holding i (exclusive_run hrun i hin)
  rcases hpc with hpc | hpc
  · simp only [InTurn, hpc] at hturn
    obtain ⟨_, _, written, _, heq⟩ := hturn
    rw [heq]
  · simp only [InTurn, hpc] at hturn
    rw [hturn.2.2.2]

theorem collected_of_empty {r : Record} {pk : List (List Byte)} {w : Worker}
    (hempty : w.sbuffer = []) (hread : w.pc ≠ .read) (hsend : w.pc ≠ .send) :
    Collected r pk w := by
  cases hpc : w.pc <;> simp_all [Collected]

theorem collected_startRead {r : Record} {pk : List (List Byte)} {w : Worker}
    (hempty : w.sbuffer = []) (hnone : r.delivered = []) : Collected r pk w.startRead := by
  rcases w.startRead_cases with heq | heq
  · rw [heq]
    trivial
  · rw [heq]
    refine ⟨fun _ => ?_, fun _ => ?_⟩
    · exact hempty.trans hnone.symm
    · show w.sbuffer.length < BUFFER_SIZE
      rw [hempty]
      decide

/-- A step of the worker itself. -/
theorem collected_move (hrun : exec System.next (System.init pair) ls = some s)
    (hnext : s.next l = some t)
    (h : Collected (turn l.worker ls) (packets ls) (s.pool.worker l.worker)) :
    Collected (turn l.worker (ls ++ [l])) (packets (ls ++ [l])) (t.pool.worker l.worker) := by
  have hrun' : exec System.next (System.init pair) (ls ++ [l]) = some t :=
    exec_concat_eq_some.mpr ⟨s, hrun, hnext⟩
  have hpart := @delivered_part _ _ _ hrun' l.worker
  have hnone := @nothing_delivered _ _ _ hrun l.worker
  have hsnap := @snapshot_of_read _ _ _ _ _ hrun hnext
  obtain ⟨hop, _, hpool, _⟩ := System.next_cases hnext
  have hmove := (Pool.next_worker hpool).1
  rw [turn_concat_self] at hpart hsnap ⊢
  rw [packets_concat] at hpart ⊢
  obtain ⟨i, op, a, env, pos⟩ := l
  dsimp only at *
  generalize t.pool.worker i = w' at *
  cases hmove with
  | start hpc | lock hpc | close hpc | sizeEnd hpc | flush hpc | unlock hpc =>
    simp only [Collected, hpc] at h ⊢
    exact h
  | unlockExit hpc | finish hpc | ret hpc | readError hpc => trivial
  | @receive data past hpc hne hlen =>
    simp only [Collected, hpc] at h
    have hmem := (Worker.Moves.receive hpc hne hlen : Worker.Moves _ (.recv data past) _).pc_mem
    rw [hpc] at hmem
    refine collected_of_empty h ?_ ?_ <;>
    · intro heq
      rw [heq] at hmem
      simp [Pc.successors] at hmem
  | @sizeSet command r hpc =>
    simp only [Collected, hpc] at h
    simp only [Worker.op, hpc, Option.some.injEq] at hop
    subst hop
    cases command with
    | true => exact h
    | false => exact collected_startRead h (hnone (Or.inl hpc))
  | ioctl hpc =>
    simp only [Collected, hpc] at h
    simp only [Worker.op, hpc, Option.some.injEq] at hop
    subst hop
    exact collected_startRead h (hnone (Or.inr hpc))
  | write hpc =>
    simp only [Collected, hpc] at h
    split
    · trivial
    · exact h
  | @bytes data hpc =>
    simp only [Collected, hpc] at h
    simp only [Worker.op, hpc, Option.some.injEq] at hop
    subst hop
    have hpc' : ((s.pool.worker i).concat data).pc = .read := hpc
    have hquiet : packets [⟨i, .read (s.pool.worker i).size, .bytes data, env, pos⟩] = [] := rfl
    rw [hquiet, List.append_nil] at hpart ⊢
    simp only [Collected, hpc']
    refine ⟨fun hnozero => ?_, fun hsafe => ?_⟩
    · have hdata : 0 ∉ data := by
        intro hmem
        exact zero_not_mem_content hnozero (hpart hpc' 0 (List.mem_append_right _ hmem))
      show (s.pool.worker i).sbuffer ++ untilNul data = (turn i ls).delivered ++ data
      rw [h.1 hnozero, untilNul_of_not_mem hdata]
    · simp only [Worker.concat, Bool.or_eq_false_iff, decide_eq_false_iff_not, not_le] at hsafe
      exact hsafe.2
  | endOfFile hpc =>
    simp only [Collected, hpc] at h
    simp only [Worker.op, hpc, Option.some.injEq] at hop
    subst hop
    have hquiet : packets [⟨i, .read (s.pool.worker i).size, .ret 0, env, pos⟩] = [] := rfl
    rw [hquiet, List.append_nil]
    exact ⟨hsnap rfl rfl, h⟩
  | send hpc =>
    split
    · trivial
    · rfl

/-- While a worker is in its loop body, no other worker writes. -/
theorem packets_of_other (hrun : exec System.next (System.init pair) ls = some s)
    (hnext : s.next l = some t) {i : ℕ} (hi : l.worker ≠ i)
    (hin : (s.pool.worker i).pc.inside = true) : packets (ls ++ [l]) = packets ls := by
  have hop := (System.next_cases hnext).1
  have hout : (s.pool.worker l.worker).pc.inside = false := by
    by_contra hl
    have hheld := exclusive_run hrun l.worker (by simpa using hl)
    rw [exclusive_run hrun i hin] at hheld
    exact hi (Option.some.inj hheld).symm
  have hquiet : packets [l] = [] := by
    obtain ⟨j, op, a, env, pos⟩ := l
    cases hpc : (s.pool.worker j).pc <;> simp_all [Worker.op, Pc.inside] <;> subst hop <;> rfl
  rw [packets_concat, hquiet, List.append_nil]

/-- A step of another worker. -/
theorem collected_other (hrun : exec System.next (System.init pair) ls = some s)
    (hnext : s.next l = some t) {i : ℕ} (hi : l.worker ≠ i)
    (h : Collected (turn i ls) (packets ls) (s.pool.worker i)) :
    Collected (turn i (ls ++ [l])) (packets (ls ++ [l])) (t.pool.worker i) := by
  have hpool := (System.next_cases hnext).2.2.1
  rw [turn_concat_other ls hi, (Pool.next_worker hpool).2 i (Ne.symm hi)]
  cases hin : (s.pool.worker i).pc.inside with
  | true =>
    rw [packets_of_other hrun hnext hi hin]
    exact h
  | false =>
    cases hpc : (s.pool.worker i).pc <;> simp_all [Collected, Pc.inside]

end Move

theorem collected_run {pair : ℕ → AesdSeekto} {ls : List Step} {s : System}
    (hrun : exec System.next (System.init pair) ls = some s) (i : ℕ) :
    Collected (turn i ls) (packets ls) (s.pool.worker i) := by
  have hall := @exec_history _ _ _
    (fun ls s => exec System.next (System.init pair) ls = some s ∧
      ∀ i, Collected (turn i ls) (packets ls) (s.pool.worker i)) _ ⟨rfl, fun i => rfl⟩
    (fun ls s l t h hnext => ⟨exec_concat_eq_some.mpr ⟨s, h.1, hnext⟩, fun i => by
      by_cases hi : l.worker = i
      · subst hi
        exact collected_move h.1 hnext (h.2 _)
      · exact collected_other h.1 hnext hi (h.2 i)⟩) _ _ hrun
  exact hall.2 i

/-- At a send: the turn has seen the content, and the buffer is what it was given. -/
theorem sent_of_run {pair : ℕ → AesdSeekto} {ls : List Step} {l : Step} {s t : System}
    (hrun : exec System.next (System.init pair) ls = some s) (hnext : s.next l = some t)
    {buffer : List Byte} (hsend : l.op = .send buffer) :
    Snapshot (turn l.worker ls) (packets ls) ∧
      (NoZero (packets ls) → buffer = (turn l.worker ls).delivered) ∧
      ((s.pool.worker l.worker).overrun = false → buffer.length < BUFFER_SIZE) := by
  have hop := (System.next_cases hnext).1
  rw [hsend] at hop
  have hpc : (s.pool.worker l.worker).pc = .send := by
    cases hpc : (s.pool.worker l.worker).pc <;> simp [Worker.op, hpc] at hop ⊢
  have hbuffer : (s.pool.worker l.worker).sbuffer = buffer := by
    simpa [Worker.op, hpc] using hop
  have hcollected := collected_run hrun l.worker
  simp only [Collected, hpc, hbuffer] at hcollected
  exact hcollected

/-- The worker that makes the step has kept inside its buffers so far. -/
def InBounds (s : System) (l : Step) : Prop := (s.pool.worker l.worker).overrun = false

instance (s : System) (l : Step) : Decidable (InBounds s l) := inferInstanceAs (Decidable (_ = _))

/-- What the turn of a worker sends: the content behind its packet, or the
content from the position of its seek on. -/
def Answers (t : Record) (pk : List (List Byte)) (buffer : List Byte) : Prop :=
  (∃ p ∈ t.written, p <:+ buffer ∧ buffer = content pk) ∨
    (t.written = [] ∧ ∃ pos ∈ t.ioctls, 0 ≤ pos ∧ buffer = (content pk).drop pos.toNat)

theorem answers_of_snapshot {t : Record} {pk : List (List Byte)} (h : Snapshot t pk) :
    Answers t pk t.delivered := by
  rcases h.kind with ⟨hwritten, _⟩ | ⟨hwritten, hioctls⟩
  · obtain ⟨p, hp⟩ := List.exists_mem_of_ne_nil _ hwritten
    obtain ⟨hlast, hall⟩ := h.data p hp
    exact Or.inl ⟨p, hp, hall ▸ suffix_content hlast, hall⟩
  · obtain ⟨pos, hpos⟩ := List.exists_mem_of_ne_nil _ hioctls
    exact Or.inr ⟨hwritten, pos, hpos, h.seek pos hpos⟩

/-- In every run of in-bounds steps over packets without zero bytes, as long as no
`lseek` fails and no `recv` fills the buffer: each reply fits its buffer and is the
content with the packet of its turn at the end, or the rest of the content from the
position sought; and until a packet is evicted each reply to a packet begins with
every earlier one, to whichever client. -/
theorem replies_are_content (pair : ℕ → AesdSeekto) (ls : List Step) (s : System)
    (hrun : exec System.next (System.init pair) ls = some s) (hnozero : NoZero (packets ls))
    (hbounds : Steps System.next InBounds (System.init pair) ls) :
    (∀ pre l post buffer, ls = pre ++ l :: post → l.op = .send buffer →
      buffer.length < BUFFER_SIZE ∧ Answers (turn l.worker pre) (packets pre) buffer) ∧
    ∀ pre l mid m post first second, ls = pre ++ l :: (mid ++ m :: post) →
      l.op = .send first → m.op = .send second →
      (turn l.worker pre).written ≠ [] → (turn m.worker (pre ++ l :: mid)).written ≠ [] →
      (packets (pre ++ l :: mid)).length ≤ 10 → first <+: second := by
  have hsend : ∀ pre l post buffer, ls = pre ++ l :: post → l.op = .send buffer →
      buffer.length < BUFFER_SIZE ∧ Answers (turn l.worker pre) (packets pre) buffer := by
    rintro pre l post buffer rfl hop
    obtain ⟨u, hpre, hrest⟩ := exec_append_eq_some.mp hrun
    obtain ⟨v, hnext, _⟩ := exec_cons_eq_some.mp hrest
    obtain ⟨hsnap, hbuffer, hfits⟩ := sent_of_run hpre hnext hop
    refine ⟨hfits (hbounds.step hpre hnext), ?_⟩
    rw [hbuffer fun p hp => hnozero p (by
      rw [packets, List.filterMap_append]
      exact List.mem_append_left _ hp)]
    exact answers_of_snapshot hsnap
  refine ⟨hsend, ?_⟩
  intro pre l mid m post first second hls hl hm hwl hwm hlen
  have hfirst := (hsend pre l _ first hls hl).2
  have hsecond := (hsend (pre ++ l :: mid) m post second (by simp [hls]) hm).2
  have hplain : ∀ {t : Record} {pk : List (List Byte)} {buffer : List Byte},
      t.written ≠ [] → Answers t pk buffer → buffer = content pk := by
    rintro t pk buffer hwritten (⟨p, _, _, hall⟩ | ⟨hnone, _⟩)
    · exact hall
    · exact absurd hnone hwritten
  rw [hplain hwl hfirst, hplain hwm hsecond]
  refine content_prefix ?_ hlen
  rw [packets, packets, List.filterMap_append]
  exact List.prefix_append _ _

def sendSecond : Step :=
  { worker := 1, op := .send [97, 10, 98, 10], answer := .ret 4, pos := 4 }

/-- The replies to two clients. -/
theorem replies_are_content_two :
    Answers (turn 1 twoWorkers) (packets twoWorkers) [97, 10, 98, 10] ∧
      ([97, 10] : List Byte) <+: [97, 10, 98, 10] := by
  obtain ⟨s, hs⟩ := Option.isSome_iff_exists.mp
    (by decide : (exec System.next (System.init fun _ => ⟨0, 0⟩)
      (twoWorkers ++ [sendSecond])).isSome = true)
  obtain ⟨hanswers, hextends⟩ := replies_are_content _ (twoWorkers ++ [sendSecond]) s hs
    (by unfold NoZero; decide) (by decide)
  refine ⟨(hanswers twoWorkers sendSecond [] _ rfl rfl).2, ?_⟩
  exact hextends (twoWorkers.take 10)
    { worker := 0, op := .send [97, 10], answer := .ret 2, pos := 2 } (twoWorkers.drop 11)
    sendSecond [] _ _ rfl rfl rfl (by decide) (by decide) (by decide)

end Aesd.Replies
