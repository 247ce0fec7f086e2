import Aesd.DeviceSpec
import Aesd.Replies
import Aesd.SeekNumbers
import Aesd.ServerFreeze

/-!
A seek from end to end. A client prints two numbers into a line; the worker that
receives the line scans the same two numbers, the driver takes them for a slot of
the ring and an offset in it, adds up the slots below, and the reply is the
content from there on. Slots and packets have the same numbers until the first
eviction. If the slot does not hold so many bytes the driver keeps its mutex and
there is no reply, to this client or to any other.
-/

namespace Aesd.SeekReplies

open RingBuffer CharDriver DeviceStore DeviceReads DeviceSpec EchoWorker WorkerPool SharedDevice
open TurnSnapshot Replies ServerFreeze SeekNumbers StreamPieces CyclicWindow Offsets Runs

/-- The digits of `n` as `%u` prints them. -/
def digits (n : ℕ) : List Byte := (Nat.toDigits 10 n).map fun c => c.toNat.toUInt8

/-- The line that asks for a position. -/
def seekLine (pair : AesdSeekto) : List Byte :=
  COMMAND ++ [colon] ++ digits pair.writeCmd.toNat ++ [comma] ++
    digits pair.writeCmdOffset.toNat ++ [newline]

theorem digits_of_lt {n : ℕ} (h : n < 10) : digits n = [(48 + n).toUInt8] := by
  rw [digits, Nat.toDigits_of_lt_base h, List.map_singleton, Nat.toNat_digitChar_of_lt_ten h]

theorem digits_of_ge {n : ℕ} (h : 10 ≤ n) :
    digits n = digits (n / 10) ++ [(48 + n % 10).toUInt8] := by
  rw [digits, Nat.toDigits_of_base_le (by decide) h, List.map_append, List.map_singleton,
    Nat.toNat_digitChar_of_lt_ten (Nat.mod_lt n (by decide)), digits]

theorem toNat_digit {d : ℕ} (h : d < 10) : (48 + d).toUInt8.toNat = 48 + d := by
  rw [Nat.toUInt8, UInt8.toNat_ofNat']
  omega

theorem isDigit_digit {d : ℕ} (h : d < 10) : isDigit (48 + d).toUInt8 = true := by
  have hd := toNat_digit h
  rw [isDigit, Bool.and_eq_true, decide_eq_true_eq, decide_eq_true_eq, UInt8.le_iff_toNat_le,
    UInt8.le_iff_toNat_le, hd]
  exact ⟨Nat.le_add_right 48 d, by change 48 + d ≤ 57; omega⟩

theorem decimal_digits (n : ℕ) : decimal (digits n) = n := by
  induction n using Nat.strong_induction_on with
  | _ n ih =>
    rcases Nat.lt_or_ge n 10 with hlt | hge
    · rw [digits_of_lt hlt, decimal, List.foldl_cons, List.foldl_nil, toNat_digit hlt]
      omega
    · have hmod := toNat_digit (Nat.mod_lt n (by decide : 0 < 10))
      have hrest := ih (n / 10) (by omega)
      unfold decimal at hrest ⊢
      rw [digits_of_ge hge, List.foldl_append, List.foldl_cons, List.foldl_nil, hrest, hmod]
      omega

theorem isDigit_of_mem_digits {n : ℕ} : ∀ b ∈ digits n, isDigit b = true := by
  induction n using Nat.strong_induction_on with
  | _ n ih =>
    rcases Nat.lt_or_ge n 10 with hlt | hge
    · rw [digits_of_lt hlt]
      exact List.forall_mem_singleton.mpr (isDigit_digit hlt)
    · rw [digits_of_ge hge]
      exact List.forall_mem_append.mpr ⟨ih (n / 10) (by omega),
        List.forall_mem_singleton.mpr (isDigit_digit (Nat.mod_lt n (by decide)))⟩

theorem digits_ne_nil (n : ℕ) : digits n ≠ [] := by
  simp [digits]

theorem isDigit_iff {d : Byte} : isDigit d = true ↔ 48 ≤ d.toNat ∧ d.toNat ≤ 57 := by
  rw [isDigit, Bool.and_eq_true, decide_eq_true_eq, decide_eq_true_eq, UInt8.le_iff_toNat_le,
    UInt8.le_iff_toNat_le]
  rfl

/-- A digit is neither white space nor a sign. -/
theorem afterSign_of_digit {d : Byte} (hd : isDigit d = true) (s : List Byte) :
    (d :: s).dropWhile isSpace = d :: s ∧ afterSign (d :: s) = d :: s := by
  have hrange := isDigit_iff.mp hd
  have hne : ∀ b : Byte, b.toNat < 48 → d ≠ b := by
    rintro b hb rfl
    omega
  have hspace : isSpace d = false := by
    have hle : ¬ d ≤ 13 := by
      rw [UInt8.le_iff_toNat_le]
      exact Nat.not_le.mpr (lt_of_lt_of_le (by decide) hrange.1)
    simp [isSpace, hle, hne 32 (by decide)]
  have hdrop : (d :: s).dropWhile isSpace = d :: s := List.dropWhile_cons_of_neg (by simp [hspace])
  refine ⟨hdrop, ?_⟩
  unfold afterSign
  rw [hdrop]
  simp [hne 45 (by decide), hne 43 (by decide)]

theorem scanInteger_digits (n : ℕ) {b : Byte} (hb : isDigit b = false) (rest : List Byte) :
    scanInteger (digits n ++ b :: rest) = some ((n : ℤ), b :: rest) := by
  obtain ⟨d, ds, hds⟩ := List.exists_cons_of_ne_nil (digits_ne_nil n)
  have hall := @isDigit_of_mem_digits n
  obtain ⟨hdrop, hsign⟩ :=
    afterSign_of_digit (hall d (by simp [hds])) (ds ++ b :: rest)
  rw [← List.cons_append, ← hds] at hdrop hsign
  have htake : (digits n ++ b :: rest).takeWhile isDigit = digits n := by
    rw [List.takeWhile_append_of_pos hall, List.takeWhile_cons_of_neg (by simp [hb]),
      List.append_nil]
  have hleft : (digits n ++ b :: rest).dropWhile isDigit = b :: rest := by
    rw [List.dropWhile_append_of_pos hall, List.dropWhile_cons_of_neg (by simp [hb])]
  have hminus : ((digits n ++ b :: rest).head? == some 45) = false := by
    have hrange := isDigit_iff.mp (hall d (by simp [hds]))
    rw [hds]
    simp only [List.cons_append, List.head?_cons, beq_eq_false_iff_ne, ne_eq, Option.some.injEq]
    rintro rfl
    exact absurd hrange.1 (by decide)
  unfold scanInteger
  rw [hsign, hdrop, htake, hleft, if_neg (digits_ne_nil n), hminus, decimal_digits]
  rfl

/-- Reading what was printed: the numbers are those of the pair, whatever follows the line. -/
theorem scanPair_seekLine (pair : AesdSeekto) (past : List Byte) :
    scanPair (seekLine pair ++ past) =
      some (((pair.writeCmd.toNat : ℤ), (pair.writeCmdOffset.toNat : ℤ)), newline :: past) := by
  have hsplit : seekLine pair ++ past = (COMMAND ++ [colon]) ++ (digits pair.writeCmd.toNat ++
      comma :: (digits pair.writeCmdOffset.toNat ++ newline :: past)) := by
    simp [seekLine]
  have hdrop : (seekLine pair ++ past).drop (COMMAND.length + 1) = digits pair.writeCmd.toNat ++
      comma :: (digits pair.writeCmdOffset.toNat ++ newline :: past) := by
    rw [hsplit]
    exact List.drop_left' rfl
  have hkey : (COMMAND ++ [colon]) <+: seekLine pair ++ past := by
    rw [hsplit]
    exact List.prefix_append _ _
  refine scanPair_eq_some.mpr
    ⟨hkey, digits pair.writeCmdOffset.toNat ++ newline :: past, ?_, ?_⟩
  · rw [hdrop]
    exact scanInteger_digits _ (by decide) _
  · exact scanInteger_digits _ (by decide) _

theorem sscanfPair_seekLine (pair old : AesdSeekto) (past : List Byte) :
    sscanfPair (seekLine pair ++ past) old = pair := by
  have hstored : ∀ n : UInt32, stored (n.toNat : ℤ) = n := by
    intro n
    have hn := stored_eq_iff.mpr (⟨by omega, by exact_mod_cast n.toNat_lt⟩ : Unsigned (n.toNat : ℤ))
    exact UInt32.toNat_inj.mp (by exact_mod_cast hn)
  rw [sscanfPair_of_some (scanPair_seekLine pair past), hstored, hstored]

theorem zero_not_mem_seekLine (pair : AesdSeekto) : 0 ∉ seekLine pair := by
  have hdigits : ∀ n, (0 : Byte) ∉ digits n := by
    intro n hmem
    exact absurd (isDigit_iff.mp (isDigit_of_mem_digits 0 hmem)).1 (by decide)
  simp only [seekLine, List.mem_append, hdigits, or_false]
  decide

/-- The packet in slot `j`. -/
def packetAt (pk : List (List Byte)) (j : ℕ) : List Byte := (latest 10 pk j).getD []

/-- Slot `write_cmd` holds more than `write_cmd_offset` bytes. -/
def Names (pk : List (List Byte)) (pair : AesdSeekto) : Prop :=
  pair.writeCmd.toNat < 10 ∧
    pair.writeCmdOffset.toNat < (packetAt pk pair.writeCmd.toNat).length

/-- Where the driver goes: behind the packets of the lower slots, wherever in the
content these are. -/
def position (pk : List (List Byte)) (pair : AesdSeekto) : ℕ :=
  ((List.range pair.writeCmd.toNat).map fun j => (packetAt pk j).length).sum +
    pair.writeCmdOffset.toNat

/-- The caller is not interrupted in its wait, and its pair can be copied. -/
def Kind (env : Env) : Prop :=
  env.userRange = true ∧ env.interrupted = false ∧ env.copyFault = false

instance (env : Env) : Decidable (Kind env) := inferInstanceAs (Decidable (_ ∧ _))

section Turn

variable {start : ℕ → AesdSeekto} {pair : AesdSeekto} {i : ℕ} {ls : List Step} {l : Step}
  {s t : System}

/-- The device of a run as a log of its packets. -/
def logOf (h : Alive ls s) : Log where
  commands := packets ls
  pending := []
  lost := s.kernel.dev.lock
  pos := s.kernel.fPos
  terminated p hp := (h.good p hp).1
  is_open := List.not_mem_nil

theorem shows_logOf (h : Alive ls s) : Shows s.kernel (logOf h) where
  represents := h.rep
  room := by
    have hlt := h.content_lt
    change (content (packets ls)).length + 0 < 2 ^ 63
    omega
  lock_eq := rfl
  pos_eq := rfl

/-- The ioctl of a caller that is not disturbed: it goes where the pair says, or
it keeps the mutex. -/
theorem ioctl_of_kind (h : Alive ls s) (hfree : s.kernel.dev.lock = false) {env : Env}
    (henv : Kind env) :
    (Names (packets ls) pair ∧
      (aesdIoctl s.kernel sharedFile AESDCHAR_IOCSEEKTO pairAddress pair env).2.fPos sharedFile =
        position (packets ls) pair) ∨
    (aesdIoctl s.kernel sharedFile AESDCHAR_IOCSEEKTO pairAddress pair env).2.dev.lock = true := by
  obtain ⟨hrange, hwait, hcopy⟩ := henv
  have hagrees := ((shows_logOf h).ioctl sharedFile AESDCHAR_IOCSEEKTO pairAddress pair env).2
  have herr : ioctlError AESDCHAR_IOCSEEKTO env = none := by
    unfold ioctlError
    rw [if_neg (by decide), if_neg (by decide), if_pos (by decide), if_pos hrange]
  have hlog : (logOf h).ioctl sharedFile AESDCHAR_IOCSEEKTO pairAddress pair env =
      if pair.writeCmd.toNat < 10 ∧
          pair.writeCmdOffset.toNat < ((logOf h).commandAt pair.writeCmd.toNat).length then
        ((logOf h).setPos sharedFile ↑(((List.range pair.writeCmd.toNat).map fun j =>
          ((logOf h).commandAt j).length).sum + pair.writeCmdOffset.toNat)).released 0 []
      else (logOf h).loses (-EINVAL) := by
    unfold Log.ioctl Log.locked
    rw [herr]
    dsimp only
    rw [if_neg (by simp [hwait]), if_neg (by simp [logOf, hfree]), if_neg (by decide),
      if_neg (by simp [hcopy]), if_pos rfl]
  rw [hlog] at hagrees
  by_cases hnames : pair.writeCmd.toNat < 10 ∧
      pair.writeCmdOffset.toNat < ((logOf h).commandAt pair.writeCmd.toNat).length
  · left
    rw [if_pos hnames] at hagrees
    refine ⟨hnames, ?_⟩
    rw [hagrees.pos_eq]
    exact Log.setPos_pos_self ..
  · right
    rw [if_neg hnames] at hagrees
    exact hagrees.lock_eq

/-- Only writes add packets. -/
theorem packets_concat_of_not_write (ls : List Step) (hwrite : ∀ buffer, l.op ≠ .write buffer) :
    packets (ls ++ [l]) = packets ls := by
  obtain ⟨i, op, a, env, pos⟩ := l
  have hquiet : packets [⟨i, op, a, env, pos⟩] = [] := by
    cases op with
    | write buffer => exact absurd rfl (hwrite buffer)
    | _ => rfl
  rw [packets_concat, hquiet, List.append_nil]

/-- A worker on the way from the line with the pair to its reply. -/
def Seeking (pair : AesdSeekto) (t : Record) (pk : List (List Byte)) (w : Worker) : Prop :=
  match w.pc with
  | .sizeEnd command | .sizeSet command => command = true ∧ seekLine pair <+: w.string
  | .ioctl => w.pair = pair
  | .read | .send => t.ioctls = [(position pk pair : ℤ)] ∧ Names pk pair
  | .start | .receive | .write | .flush => False
  | _ => True

theorem seeking_startRead {r : Record} {pk : List (List Byte)} {w : Worker}
    (hat : r.ioctls = [(position pk pair : ℤ)]) (hnames : Names pk pair) :
    Seeking pair r pk w.startRead := by
  rcases w.startRead_cases with heq | heq
  · rw [heq]
    trivial
  · rw [heq]
    exact ⟨hat, hnames⟩

/-- The line has arrived. -/
theorem seeking_of_receive (hrun : exec System.next (System.init start) ls = some s)
    (hnext : s.next l = some t) (hop : l.op = .receive) {past : List Byte}
    (hans : l.answer = .recv (seekLine pair) past) :
    Seeking pair (turn l.worker (ls ++ [l])) (packets (ls ++ [l])) (t.pool.worker l.worker) := by
  obtain ⟨hop', _, hpool, _⟩ := System.next_cases hnext
  rw [hop] at hop'
  have hpc : (s.pool.worker l.worker).pc = .receive := by
    cases hpc : (s.pool.worker l.worker).pc <;> simp [Worker.op, hpc] at hop' ⊢
  have hempty : (s.pool.worker l.worker).rbuffer = [] :=
    (alive_of_inside hrun (by rw [hpc]; rfl)).cleared _ (by simp [hpc])
  have hmove := (Pool.next_worker hpool).1
  rw [hans] at hmove
  have hstring := Worker.store_string hempty (seekLine pair) past
  have hprefix := prefix_cstring (zero_not_mem_seekLine pair) past
  have hline : newline ∈ cstring (seekLine pair) past := hprefix.subset (by simp [seekLine])
  have hcommand : COMMAND <+: cstring (seekLine pair) past := by
    refine List.IsPrefix.trans ?_ hprefix
    simp only [seekLine, List.append_assoc]
    exact List.prefix_append _ _
  generalize t.pool.worker l.worker = w at hmove
  cases hmove with
  | receive =>
    unfold Worker.dispatch
    rw [hstring, if_pos hline, if_pos hcommand]
    exact ⟨rfl, hstring ▸ hprefix⟩

/-- A step of the worker itself in the same turn. -/
theorem seeking_move (hrun : exec System.next (System.init start) ls = some s)
    (hnext : s.next l = some t) (hturn : l.op ≠ .mutexLock)
    (henv : ∀ p, l.op = .ioctl p → Kind l.env)
    (h : Seeking pair (turn l.worker ls) (packets ls) (s.pool.worker l.worker)) :
    Frozen t ∨
      Seeking pair (turn l.worker (ls ++ [l])) (packets (ls ++ [l])) (t.pool.worker l.worker) := by
  obtain ⟨hop, _, hpool, hpos, hkernel⟩ := System.next_cases hnext
  have halive := @alive_of_inside _ _ _ hrun l.worker
  have hholding := exclusive_run hrun l.worker
  have hmove := (Pool.next_worker hpool).1
  have hquiet := @packets_concat_of_not_write l ls
  rw [turn_concat_self]
  obtain ⟨i, op, a, env, pos⟩ := l
  dsimp only at *
  generalize t.pool.worker i = w' at *
  cases hmove with
  | start hpc | receive hpc | write hpc | flush hpc =>
    simp only [Seeking, hpc] at h
  | lock hpc => exact absurd (by simpa [Worker.op, hpc] using hop.symm) hturn
  | close hpc => exact Or.inr trivial
  | unlock hpc | unlockExit hpc | finish hpc | ret hpc | readError hpc => exact Or.inr trivial
  | sizeEnd hpc =>
    simp only [Seeking, hpc] at h
    exact Or.inr h
  | @sizeSet command r hpc =>
    simp only [Seeking, hpc] at h
    obtain ⟨rfl, past, hstring⟩ := h
    right
    change sscanfPair (s.pool.worker i).string (s.pool.worker i).pair = pair
    rw [← hstring]
    exact sscanfPair_seekLine pair _ past
  | ioctl hpc =>
    simp only [Seeking, hpc] at h
    simp only [Worker.op, hpc, Option.some.injEq] at hop
    subst hop
    have hin : (s.pool.worker i).pc.inside = true := by
      rw [hpc]
      rfl
    have hturn := (halive hin).holding i (hholding hin)
    simp only [InTurn, hpc] at hturn
    obtain ⟨hfree, _, _, hturn⟩ := hturn
    have hmoved : t.kernel = (aesdIoctl s.kernel sharedFile AESDCHAR_IOCSEEKTO pairAddress
        (s.pool.worker i).pair env).2 := by
      rcases hkernel with ⟨hnone, _⟩ | ⟨c, hcall, _, hkernel⟩
      · cases hnone
      · cases hcall
        exact hkernel
    rw [h] at hmoved
    rcases ioctl_of_kind (halive hin) hfree (henv _ rfl) with ⟨hnames, hat⟩ | hlost
    · right
      rw [hquiet (by simp)]
      have hsought : pos = position (packets ls) pair := by rw [hpos, hmoved, hat]
      refine seeking_startRead ?_ hnames
      rw [hturn]
      exact congrArg (fun p => [p]) hsought
    · left
      right
      rw [hmoved]
      exact hlost
  | bytes hpc | endOfFile hpc =>
    simp only [Seeking, hpc] at h
    simp only [Worker.op, hpc, Option.some.injEq] at hop
    subst hop
    right
    rw [hquiet (by simp)]
    simp only [Seeking, Worker.concat, hpc]
    exact h
  | send hpc =>
    right
    split
    · trivial
    · trivial

/-- A step of another worker. -/
theorem seeking_other (hrun : exec System.next (System.init start) ls = some s)
    (hnext : s.next l = some t) (hi : l.worker ≠ i)
    (h : Seeking pair (turn i ls) (packets ls) (s.pool.worker i)) :
    Seeking pair (turn i (ls ++ [l])) (packets (ls ++ [l])) (t.pool.worker i) := by
  have hpool := (System.next_cases hnext).2.2.1
  rw [turn_concat_other ls hi, (Pool.next_worker hpool).2 i (Ne.symm hi)]
  cases hin : (s.pool.worker i).pc.inside with
  | true =>
    rw [packets_of_other hrun hnext hi hin]
    exact h
  | false =>
    cases hpc : (s.pool.worker i).pc <;> simp_all [Seeking, Pc.inside]

/-- The turn goes on until the worker asks for its mutex again, and nothing
disturbs its ioctl. -/
def InOneTurn (i : ℕ) (l : Step) : Prop :=
  l.worker = i → l.op ≠ .mutexLock ∧ ∀ p, l.op = .ioctl p → Kind l.env

theorem seeking_run {pre mid : List Step} {recv : Step} {past : List Byte}
    (hrun : exec System.next (System.init start) (pre ++ recv :: mid) = some s)
    (hop : recv.op = .receive) (hans : recv.answer = .recv (seekLine pair) past)
    (hturn : ∀ l ∈ mid, InOneTurn recv.worker l) :
    Frozen s ∨ Seeking pair (turn recv.worker (pre ++ recv :: mid)) (packets (pre ++ recv :: mid))
      (s.pool.worker recv.worker) := by
  induction mid using List.reverseRecOn generalizing s with
  | nil =>
    obtain ⟨u, hpre, hrecv⟩ := exec_concat_eq_some.mp hrun
    exact Or.inr (seeking_of_receive hpre hrecv hop hans)
  | append_singleton mid l ih =>
    have hsplit : pre ++ recv :: (mid ++ [l]) = (pre ++ recv :: mid) ++ [l] := by simp
    rw [hsplit] at hrun ⊢
    obtain ⟨u, hmid, hnext⟩ := exec_concat_eq_some.mp hrun
    obtain ⟨hall, hl⟩ := List.forall_mem_append.mp hturn
    rcases ih hmid hall with hfrozen | hseeking
    · exact Or.inl (hfrozen.next (exclusive_run hmid) (System.next_eq_some.mp hnext).2)
    · by_cases hi : l.worker = recv.worker
      · obtain ⟨hlock, henv⟩ := hl l (List.mem_singleton_self l) hi
        rw [← hi] at hseeking ⊢
        exact seeking_move hmid hnext hlock henv hseeking
      · exact Or.inr (seeking_other hmid hnext hi hseeking)

end Turn

/-- As long as nothing was evicted, slot and packet number are the same. -/
theorem packetAt_of_le {pk : List (List Byte)} (hlen : pk.length ≤ 10) (j : ℕ) :
    packetAt pk j = pk.getD j [] := by
  unfold packetAt latest
  split
  · have hback : (pk.length - 1 - j) % 10 = pk.length - 1 - j := Nat.mod_eq_of_lt (by omega)
    have hidx : pk.length - 1 - (pk.length - 1 - j) = j := by omega
    rw [hback, hidx, List.getD_eq_getElem?_getD]
  · rw [List.getD_eq_getElem?_getD, List.getElem?_eq_none (by omega)]

/-- The rest of the content from the byte of a pair on. -/
theorem drop_position {pk : List (List Byte)} {pair : AesdSeekto} (hlen : pk.length ≤ 10)
    (hnames : Names pk pair) :
    ∃ packet, pk[pair.writeCmd.toNat]? = some packet ∧
      (content pk).drop (position pk pair) = packet.drop pair.writeCmdOffset.toNat ++
        (pk.drop (pair.writeCmd.toNat + 1)).flatten := by
  obtain ⟨_, hoff⟩ := hnames
  rw [packetAt_of_le hlen] at hoff
  have hcmd : pair.writeCmd.toNat < pk.length := by
    by_contra hge
    rw [List.getD_eq_default _ _ (Nat.le_of_not_lt hge)] at hoff
    cases hoff
  rw [List.getD_eq_getElem _ _ hcmd] at hoff
  have hstart : ((List.range pair.writeCmd.toNat).map fun j => (packetAt pk j).length) =
      (pk.map List.length).take pair.writeCmd.toNat := by
    apply List.ext_getElem
    · simp [hcmd.le]
    · intro j hj hj'
      have hlt : j < pk.length := by
        simp only [List.length_map, List.length_range] at hj
        omega
      simp [packetAt_of_le hlen, List.getElem?_eq_getElem hlt]
  have hlocate : locate (pk.map List.length) (position pk pair) =
      some (pair.writeCmd.toNat, pair.writeCmdOffset.toNat) := by
    rw [locate_eq_some_iff, position, hstart, List.take_add_one, List.getElem?_map,
      List.getElem?_eq_getElem hcmd, List.length_map]
    simp only [Option.map_some, Option.toList_some, List.sum_append, List.sum_singleton]
    omega
  obtain ⟨packet, hpacket, _, hdrop⟩ := drop_flatten_of_locate hlocate
  refine ⟨packet, hpacket, ?_⟩
  rw [content, List.rtake, Nat.sub_eq_zero_of_le hlen, List.drop_zero]
  exact hdrop

/-- Any in-bounds run in which no `lseek` fails and no `recv` fills the buffer, any
packets without zero bytes, any two numbers: a worker that receives the line for
them and sends a reply in the same turn, with an ioctl that is not disturbed, has
found enough bytes in slot `write_cmd`, and the reply is the content from the
position of the driver to its end; while at most ten packets were written that is
the rest of packet `write_cmd` and all later ones. -/
theorem seek_answered (start : ℕ → AesdSeekto) (pair : AesdSeekto) (pre mid : List Step)
    (recv send : Step) (past buffer : List Byte) (s : System)
    (hrun : exec System.next (System.init start) (pre ++ recv :: mid ++ [send]) = some s)
    (hbounds : Steps System.next InBounds (System.init start) (pre ++ recv :: mid ++ [send]))
    (hnozero : NoZero (packets (pre ++ recv :: mid)))
    (hop : recv.op = .receive) (hans : recv.answer = .recv (seekLine pair) past)
    (hturn : ∀ l ∈ mid, InOneTurn recv.worker l)
    (hworker : send.worker = recv.worker) (hsend : send.op = .send buffer) :
    Names (packets (pre ++ recv :: mid)) pair ∧ buffer.length < BUFFER_SIZE ∧
      buffer = (content (packets (pre ++ recv :: mid))).drop
        (position (packets (pre ++ recv :: mid)) pair) ∧
      ((packets (pre ++ recv :: mid)).length ≤ 10 → ∃ packet,
        (packets (pre ++ recv :: mid))[pair.writeCmd.toNat]? = some packet ∧
        buffer = packet.drop pair.writeCmdOffset.toNat ++
          ((packets (pre ++ recv :: mid)).drop (pair.writeCmd.toNat + 1)).flatten) := by
  obtain ⟨u, hmid, hnext⟩ := exec_concat_eq_some.mp hrun
  obtain ⟨hsnap, hbuffer, hfits⟩ := sent_of_run hmid hnext hsend
  have hpc : (u.pool.worker recv.worker).pc = .send := by
    have hop' := (System.next_cases hnext).1
    rw [hsend, hworker] at hop'
    cases hpc : (u.pool.worker recv.worker).pc <;> simp [Worker.op, hpc] at hop' ⊢
  rcases seeking_run hmid hop hans hturn with hfrozen | hseeking
  · -- a frozen server sends nothing
    have hreached := reached_run (System.exec_step_of_next hmid)
    rcases hfrozen.idle hreached (System.next_eq_some.mp hnext).2 with ⟨status, h⟩ | h | ⟨h, _⟩
    all_goals
      rw [hsend] at h
      cases h
  · simp only [Seeking, hpc] at hseeking
    obtain ⟨hat, hnames⟩ := hseeking
    rw [hworker] at hsnap hbuffer
    have hrest := hsnap.seek (position (packets (pre ++ recv :: mid)) pair) (by simp [hat])
    have hreply : buffer = (content (packets (pre ++ recv :: mid))).drop
        (position (packets (pre ++ recv :: mid)) pair) := by
      rw [hbuffer hnozero, hrest.2]
      rfl
    refine ⟨hnames, hfits (hbounds.step hmid hnext), hreply, fun hlen => ?_⟩
    obtain ⟨packet, hpacket, hdrop⟩ := drop_position hlen hnames
    exact ⟨packet, hpacket, hreply.trans hdrop⟩

def beforeSeek : List Step :=
  twoWorkers ++
    [sendSecond,
     { worker := 1, op := .mutexUnlock, answer := .ret 0, pos := 4 },
     { worker := 0, op := .mutexLock, answer := .ret 0, pos := 4 }]

def recvSeek : Step :=
  { worker := 0, op := .receive, answer := .recv (seekLine ⟨1, 0⟩) [], pos := 4 }

def seekCalls : List Step :=
  [{ worker := 0, op := .lseek 0 SEEK_END, answer := .ret 4, pos := 4 },
   { worker := 0, op := .lseek 0 SEEK_SET, answer := .ret 0, pos := 0 },
   { worker := 0, op := .ioctl ⟨1, 0⟩, answer := .ret 0, pos := 2 },
   { worker := 0, op := .read 4, answer := .bytes [98, 10], pos := 4 },
   { worker := 0, op := .read 2, answer := .ret 0, pos := 4 }]

def sendRest : Step := { worker := 0, op := .send [98, 10], answer := .ret 2, pos := 4 }

/-- Two packets, and a seek of the first client to the start of the second. -/
theorem seek_answered_second :
    ∃ packet, (packets (beforeSeek ++ recvSeek :: seekCalls))[1]? = some packet ∧
      [98, 10] = packet.drop 0 ++
        ((packets (beforeSeek ++ recvSeek :: seekCalls)).drop 2).flatten := by
  obtain ⟨s, hs⟩ := Option.isSome_iff_exists.mp
    (by decide : (exec System.next (System.init fun _ => ⟨0, 0⟩)
      (beforeSeek ++ recvSeek :: seekCalls ++ [sendRest])).isSome = true)
  have hlock : ∀ l ∈ seekCalls, l.op ≠ .mutexLock := by decide
  have henv : ∀ l ∈ seekCalls, Kind l.env := by decide
  exact (seek_answered (fun _ => ⟨0, 0⟩) ⟨1, 0⟩ beforeSeek seekCalls recvSeek sendRest []
    [98, 10] s hs (by decide) (by unfold NoZero; decide) rfl rfl
    (fun l hl _ => ⟨hlock l hl, fun _ _ => henv l hl⟩) rfl rfl).2.2.2 (by decide)

end Aesd.SeekReplies
