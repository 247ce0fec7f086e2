import Aesd.Runs
import Aesd.StreamPieces

/-!
Where the numbers of a seek come from. The pair of `tcp_echoback` is a local
that is neither initialised nor reset, and the result of `sscanf` is not looked
at, so a line that starts with the keyword always issues one `ioctl`. Its pair
is the line's own exactly if `sscanf` fills both numbers; a field it leaves
alone goes to the device as an earlier line, or the stack, has left it.
-/

namespace Aesd.SeekNumbers

open CharDriver EchoWorker Runs StreamPieces

def afterSign (s : List Byte) : List Byte :=
  let s := s.dropWhile isSpace
  if s.head? == some 45 || s.head? == some 43 then s.drop 1 else s

def decimal (digits : List Byte) : ℕ := digits.foldl (fun n d => n * 10 + (d.toNat - 48)) 0

/-- The number that `%u` reads, before it is converted, and what follows it. -/
def scanInteger (s : List Byte) : Option (ℤ × List Byte) :=
  let digits := (afterSign s).takeWhile isDigit
  if digits = [] then none
  else
    let n : ℤ := decimal digits
    some (if (s.dropWhile isSpace).head? == some 45 then -n else n,
      (afterSign s).dropWhile isDigit)

/-- The two numbers of `AESDCHAR_IOCSEEKTO:<unsigned>,<unsigned>`, and what follows them. -/
def scanPair (s : List Byte) : Option ((ℤ × ℤ) × List Byte) :=
  if (COMMAND ++ [colon]) <+: s then
    match scanInteger (s.drop (COMMAND.length + 1)) with
    | some (m, b :: s) =>
      if b = comma then (scanInteger s).map fun (n, rest) => ((m, n), rest) else none
    | _ => none
  else none

/-- The numbers of a line that matches. `ends` is what may follow them. -/
def numbersOf (ends : List Byte → Bool) (s : List Byte) : Option (ℤ × ℤ) :=
  ((scanPair s).filter fun (_, rest) => ends rest).map Prod.fst

/-- The values of an `unsigned int`. -/
def Unsigned (z : ℤ) : Prop := 0 ≤ z ∧ z < 2 ^ 32

/-- One `ioctl` with exactly these numbers, or none if there are none. -/
def Asks (numbers : Option (ℤ × ℤ)) (issued : List AesdSeekto) : Prop :=
  issued.map (fun pair => ((pair.writeCmd.toNat : ℤ), (pair.writeCmdOffset.toNat : ℤ))) =
    numbers.toList

/-- A line that one `recv` returns and `tcp_echoback` takes for a command. -/
structure SeekLine extends Line where
  keyword : COMMAND <+: toLine.bytes
  fits : toLine.bytes.length ≤ BUFFER_SIZE

/-- The `ioctl`s that the next call is. -/
def ioctls (w : Worker) (_ : Answer) : List AesdSeekto :=
  match w.op with
  | some (.ioctl pair) => [pair]
  | _ => []

def RecvsLine : Answer → Prop
  | .recv data _ => ∃ l : Line, data = l.bytes
  | _ => True

def Quiet : Answer → Prop
  | .recv _ _ => False
  | _ => True

/-- A worker that receives lines, one of them `line`, up to the end of the
iteration for it. `pair` is what the stack holds at the start. -/
structure SeekRun (line : SeekLine) where
  pair : AesdSeekto
  earlier : List Answer
  past : List Byte
  later : List Answer
  before : Worker
  after : Worker
  lines : ∀ a ∈ earlier, RecvsLine a
  reached : exec Worker.step (Worker.init pair) earlier = some before
  served : exec Worker.step before (.recv line.bytes past :: later) = some after
  quiet : ∀ a ∈ later, Quiet a
  ended : after.pc.inside = false

/-- The `ioctl`s issued for `line`. -/
def SeekRun.issued {line : SeekLine} (run : SeekRun line) : List AesdSeekto :=
  outputs Worker.step ioctls run.before (.recv line.bytes run.past :: run.later)

section Scan

variable {s t r : List Byte} {z m n : ℤ}

/-- What `%u` stores for a number: `strtoul` saturates, and 32 bits are kept. -/
def stored (z : ℤ) : UInt32 :=
  UInt32.ofNat (if 2 ^ 64 ≤ z.natAbs then 2 ^ 64 - 1
    else if z < 0 then 2 ^ 64 - z.natAbs else z.natAbs)

theorem stored_eq_iff : ((stored z).toNat : ℤ) = z ↔ Unsigned z := by
  unfold stored Unsigned
  rw [UInt32.toNat_ofNat']
  split
  · omega
  · split <;> omega

theorem stored_natCast (n : ℕ) :
    stored n = UInt32.ofNat (if 2 ^ 64 ≤ n then 2 ^ 64 - 1 else n) := by
  unfold stored
  rw [Int.natAbs_natCast, if_neg (Int.natCast_nonneg n).not_gt]

theorem stored_neg (n : ℕ) :
    stored (-n) = UInt32.ofNat (if 2 ^ 64 ≤ n then 2 ^ 64 - 1 else 2 ^ 64 - n) := by
  unfold stored
  rw [Int.natAbs_neg, Int.natAbs_natCast]
  rcases Nat.eq_zero_or_pos n with rfl | hn
  · rfl
  · have hneg : -(n : ℤ) < 0 := by omega
    rw [if_pos hneg]

theorem scanUnsigned_eq (s : List Byte) :
    scanUnsigned s = (scanInteger s).map fun (z, rest) => (stored z, rest) := by
  have hunfold : scanUnsigned s =
      if (afterSign s).takeWhile isDigit = [] then none
      else some (UInt32.ofNat
        (if 2 ^ 64 ≤ decimal ((afterSign s).takeWhile isDigit) then 2 ^ 64 - 1
          else if (s.dropWhile isSpace).head? == some 45 then
            2 ^ 64 - decimal ((afterSign s).takeWhile isDigit)
          else decimal ((afterSign s).takeWhile isDigit)), (afterSign s).dropWhile isDigit) := rfl
  rw [hunfold]
  unfold scanInteger
  dsimp only
  generalize decimal ((afterSign s).takeWhile isDigit) = n
  split
  · rfl
  · rw [Option.map_some]
    by_cases hsign : ((s.dropWhile isSpace).head? == some 45) = true
    · rw [if_pos hsign, if_pos hsign, stored_neg]
    · rw [if_neg hsign, if_neg hsign, stored_natCast]

theorem takeWhile_append_of_dropWhile {p : Byte → Bool} (h : s.dropWhile p ≠ []) :
    (s ++ t).takeWhile p = s.takeWhile p := by
  have hlen := congrArg List.length (@List.takeWhile_append_dropWhile _ p s)
  have hpos := List.length_pos_iff.mpr h
  rw [List.length_append] at hlen
  rw [List.takeWhile_append, if_neg (by omega)]

theorem dropWhile_append_of_dropWhile {p : Byte → Bool} (h : s.dropWhile p ≠ []) :
    (s ++ t).dropWhile p = s.dropWhile p ++ t := by
  rw [List.dropWhile_append, if_neg (by simpa using h)]

theorem afterSign_suffix (s : List Byte) : afterSign s <:+ s := by
  have hspace : s.dropWhile isSpace <:+ s := List.dropWhile_suffix isSpace
  unfold afterSign
  dsimp only
  split
  · exact (List.drop_suffix _ _).trans hspace
  · exact hspace

/-- What `%u` reads ends with a digit. -/
theorem scanInteger_split (h : scanInteger s = some (z, r)) :
    ∃ text d, isDigit d = true ∧ s = text ++ d :: r := by
  unfold scanInteger at h
  dsimp only at h
  split at h
  · cases h
  · rename_i hdigits
    cases h
    obtain ⟨front, hfront⟩ := afterSign_suffix s
    have hlast := List.dropLast_append_getLast hdigits
    refine ⟨front ++ ((afterSign s).takeWhile isDigit).dropLast,
      ((afterSign s).takeWhile isDigit).getLast hdigits, ?_, ?_⟩
    · exact List.mem_takeWhile_imp (List.getLast_mem hdigits)
    · rw [List.append_assoc, List.append_cons, hlast, List.takeWhile_append_dropWhile, hfront]

theorem afterSign_append (h : afterSign s ≠ []) : afterSign (s ++ t) = afterSign s ++ t := by
  have hspace : s.dropWhile isSpace ≠ [] := by
    rintro hnil
    simp [afterSign, hnil] at h
  unfold afterSign
  dsimp only
  rw [dropWhile_append_of_dropWhile hspace]
  obtain ⟨b, u, hu⟩ := List.exists_cons_of_ne_nil hspace
  rw [hu]
  simp only [List.cons_append, List.head?_cons, List.drop_one, List.tail_cons]
  split
  · rfl
  · rfl

/-- If something follows the number, more behind it changes nothing. -/
theorem scanInteger_append (h : scanInteger s = some (z, r)) (hr : r ≠ []) :
    scanInteger (s ++ t) = some (z, r ++ t) := by
  unfold scanInteger at h ⊢
  dsimp only at h ⊢
  split at h
  · cases h
  · rename_i hdigits
    cases h
    have hsign : afterSign s ≠ [] := fun hnil => hr (by rw [hnil]; rfl)
    have hspace : s.dropWhile isSpace ≠ [] := by
      intro hnil
      simp [afterSign, hnil] at hsign
    rw [afterSign_append hsign, takeWhile_append_of_dropWhile hr, if_neg hdigits,
      dropWhile_append_of_dropWhile hr, dropWhile_append_of_dropWhile hspace,
      List.head?_append_of_ne_nil _ hspace]

/-- A line that matches, taken apart as `sscanf` does. -/
theorem scanPair_eq_some {p : ℤ × ℤ} : scanPair s = some (p, r) ↔
    (COMMAND ++ [colon]) <+: s ∧ ∃ u, scanInteger (s.drop (COMMAND.length + 1)) =
      some (p.1, comma :: u) ∧ scanInteger u = some (p.2, r) := by
  unfold scanPair
  constructor
  · intro h
    split at h
    · rename_i hkey
      split at h
      · rename_i m b u hm
        split at h
        · rename_i hb
          obtain ⟨⟨n, rest⟩, hn, hp⟩ := Option.map_eq_some_iff.mp h
          cases hp
          exact ⟨hkey, u, hb ▸ hm, hn⟩
        · cases h
      · cases h
    · cases h
  · rintro ⟨hkey, u, hm, hn⟩
    simp only [hkey, hm, hn, if_true, Option.map_some]

theorem scanPair_split {p : ℤ × ℤ} (h : scanPair s = some (p, r)) :
    ∃ text d, isDigit d = true ∧ s = text ++ d :: r := by
  obtain ⟨_, u, hm, hn⟩ := scanPair_eq_some.mp h
  obtain ⟨front, d, _, hfront⟩ := scanInteger_split hm
  obtain ⟨text, e, he, htext⟩ := scanInteger_split hn
  refine ⟨s.take (COMMAND.length + 1) ++ (front ++ d :: comma :: text), e, he, ?_⟩
  conv_lhs => rw [← List.take_append_drop (COMMAND.length + 1) s, hfront, htext]
  simp

theorem scanPair_append {p : ℤ × ℤ} (h : scanPair s = some (p, r)) (hr : r ≠ []) :
    scanPair (s ++ t) = some (p, r ++ t) := by
  obtain ⟨hkey, u, hm, hn⟩ := scanPair_eq_some.mp h
  have hlen : COMMAND.length + 1 ≤ s.length := by simpa using hkey.length_le
  refine scanPair_eq_some.mpr ⟨hkey.trans (List.prefix_append s t), u ++ t, ?_, ?_⟩
  · rw [List.drop_append_of_le_length hlen]
    exact scanInteger_append hm (List.cons_ne_nil _ _)
  · exact scanInteger_append hn hr

/-- Both numbers are there: `sscanf` overwrites the whole pair. -/
theorem sscanfPair_of_some {p : ℤ × ℤ} (h : scanPair s = some (p, r)) (pair : AesdSeekto) :
    sscanfPair s pair = ⟨stored p.1, stored p.2⟩ := by
  obtain ⟨hkey, u, hm, hn⟩ := scanPair_eq_some.mp h
  unfold sscanfPair
  rw [if_pos hkey, scanUnsigned_eq, hm]
  simp only [Option.map_some, if_true]
  rw [scanUnsigned_eq, hn]
  rfl

/-- One of them is missing: the second field is what it was. -/
theorem sscanfPair_of_none (h : scanPair s = none) (pair : AesdSeekto) :
    (sscanfPair s pair).writeCmdOffset = pair.writeCmdOffset := by
  unfold sscanfPair
  split
  · rename_i hkey
    rw [scanUnsigned_eq]
    split
    · rfl
    · rfl
    · rename_i value b u hm
      split
      · rename_i hb
        obtain ⟨⟨m, rest⟩, hscan, hrest⟩ := Option.map_eq_some_iff.mp hm
        cases hrest
        rw [scanUnsigned_eq]
        cases hn : scanInteger u with
        | none => rfl
        | some q =>
          have hsome := (@scanPair_eq_some s q.2 (m, q.1)).mpr ⟨hkey, u, hb ▸ hscan, hn⟩
          rw [h] at hsome
          cases hsome
      · rfl
  · rfl

end Scan

section Iteration

variable {w t : Worker} {a : Answer} {line : SeekLine}

/-- A line has its newline inside the buffer, so the string starts with all of it. -/
theorem line_prefix_cstring (l : Line) (past : List Byte) : l.bytes <+: cstring l.bytes past :=
  prefix_cstring l.zero_not_mem past

/-- Where no packet is being handled, the receive buffer is empty. -/
def Cleared (w : Worker) : Prop :=
  w.pc ∈ [Pc.start, .lock, .receive, .unlock] → w.rbuffer = []

theorem Cleared.step (h : Cleared w) (ha : RecvsLine a) (hstep : w.step a = some t) :
    Cleared t := by
  unfold Cleared at h ⊢
  cases Worker.step_moves hstep with
  | start hpc => exact fun _ => h (by simp [hpc])
  | lock hpc => exact fun _ => h (by simp [hpc])
  | @receive data past hpc hne hlen =>
    obtain ⟨l, rfl⟩ := ha
    have hstring := Worker.store_string (h (by simp [hpc])) l.bytes past
    have hnl : newline ∈ (w.store l.bytes past).string := by
      rw [hstring]
      exact (line_prefix_cstring l past).subset (by simp [Line.bytes])
    unfold Worker.dispatch
    rw [if_pos hnl]
    split <;> simp
  | close hpc hr => simp
  | sizeEnd hpc hr => simp
  | @sizeSet command r hpc hr =>
    cases command
    · have hread := Worker.startRead_cases { w with size := int32 (w.fileEnd - int32 r) }
      rcases hread with hread | hread
      · simp [Worker.sized, hread]
      · simp [Worker.sized, hread]
    · simp [Worker.sized]
  | ioctl hpc hr =>
    rcases w.startRead_cases with hread | hread
    · simp [hread]
    · simp [hread]
  | write hpc hr =>
    dsimp only
    split <;> simp
  | flush hpc hr => simp
  | bytes hpc hne hlen => simp [Worker.concat, hpc]
  | endOfFile hpc => simp
  | readError hpc => simp
  | send hpc hr =>
    split
    · simp
    · exact fun _ => rfl
  | unlock hpc => exact fun _ => h (by simp [hpc])
  | unlockExit hpc => simp
  | finish hpc => simp
  | ret hpc => simp

/-- The `ioctl` that the iteration is still to issue. -/
def ahead (w : Worker) : List AesdSeekto :=
  match w.pc with
  | .sizeEnd true | .sizeSet true => [sscanfPair w.string w.pair]
  | .ioctl => [w.pair]
  | _ => []

theorem ahead_startRead (w : Worker) : ahead w.startRead = [] := by
  rcases w.startRead_cases with hread | hread
  · rw [hread]
    rfl
  · rw [hread]
    rfl

theorem ioctls_append_ahead (ha : Quiet a) (hstep : w.step a = some t) :
    ioctls w a ++ ahead t = ahead w := by
  unfold ioctls
  cases Worker.step_moves hstep with
  | start hpc => simp [Worker.op, ahead, hpc]
  | lock hpc => simp [Worker.op, ahead, hpc]
  | receive hpc hne hlen => cases ha
  | close hpc hr => simp [Worker.op, ahead, hpc]
  | @sizeEnd command r hpc hr => cases command <;> simp [Worker.op, ahead, hpc, Worker.string]
  | @sizeSet command r hpc hr =>
    cases command
    · have hw : ahead w = [] := by simp [ahead, hpc]
      have hread : ahead (w.sized false r) = [] :=
        ahead_startRead { w with size := int32 (w.fileEnd - int32 r) }
      rw [hw, hread]
      simp [Worker.op, hpc]
    · simp [Worker.op, ahead, hpc, Worker.sized, Worker.string]
  | ioctl hpc hr =>
    have hw : ahead w = [w.pair] := by simp [ahead, hpc]
    rw [hw, ahead_startRead]
    simp [Worker.op, hpc]
  | @write r hpc hr =>
    by_cases hfail : r ≤ 0
    · simp [Worker.op, ahead, hpc, hfail]
    · simp [Worker.op, ahead, hpc, hfail]
  | flush hpc hr => simp [Worker.op, ahead, hpc]
  | bytes hpc hne hlen => simp [Worker.op, ahead, hpc, Worker.concat]
  | endOfFile hpc => simp [Worker.op, ahead, hpc]
  | readError hpc => simp [Worker.op, ahead, hpc]
  | @send r hpc hr =>
    by_cases hfail : r ≤ 0
    · simp [Worker.op, ahead, hpc, hfail]
    · simp [Worker.op, ahead, hpc, hfail]
  | unlock hpc => simp [Worker.op, ahead, hpc]
  | unlockExit hpc => simp [Worker.op, ahead, hpc]
  | finish hpc => simp [Worker.op, ahead, hpc]
  | ret hpc => simp [Worker.op, ahead, hpc]

/-- Whatever came before, the line issues one `ioctl`, with what `sscanf` makes
of the pair that was there. -/
theorem SeekRun.issued_eq (run : SeekRun line) :
    run.issued = [sscanfPair (cstring line.bytes run.past) run.before.pair] := by
  obtain ⟨u, hrecv, hlater⟩ := exec_cons_eq_some.mp run.served
  have hcleared : Cleared run.before :=
    (Steps.states (C := fun _ a => RecvsLine a) (fun w a t hw ha hl => hw.step ha hl)
      (fun w hw => hw) (fun _ => rfl) (Steps.of_labels run.lines)).last run.reached
  have hmove := Worker.step_moves hrecv
  cases hmove with
  | receive hpc hne hlen =>
    have hstring := Worker.store_string (hcleared (by simp [hpc])) line.bytes run.past
    have hprefix := line_prefix_cstring line.toLine run.past
    have hnl : newline ∈ cstring line.bytes run.past :=
      hprefix.subset (by simp [Line.bytes])
    have hkey : COMMAND <+: cstring line.bytes run.past := line.keyword.trans hprefix
    have hahead : ahead ((run.before.store line.bytes run.past).dispatch) =
        [sscanfPair (cstring line.bytes run.past) run.before.pair] := by
      unfold Worker.dispatch
      rw [hstring, if_pos hnl, if_pos hkey, ← hstring]
      rfl
    have hstep : ∀ (w : Worker) (a : Answer) (t : Worker), True → Quiet a → w.step a = some t →
        True ∧ ioctls w a ++ ahead t = ahead w :=
      fun w a t _ ha hl => ⟨trivial, ioctls_append_ahead ha hl⟩
    obtain ⟨_, hout⟩ :=
      Steps.outputs_append_rest hstep trivial (Steps.of_labels run.quiet) hlater
    have hend : ahead run.after = [] := by
      have hended := run.ended
      unfold ahead
      split <;> simp_all [Pc.inside]
    rw [hend, List.append_nil, hahead] at hout
    unfold SeekRun.issued
    rw [outputs, hrecv]
    dsimp only
    rw [hout]
    simp [ioctls, Worker.op, hpc]

/-- A new thread can take the line at once, with any pair on its stack; here the
device is empty. -/
theorem exists_run (line : SeekLine) (pair : AesdSeekto) :
    ∃ run : SeekRun line, run.past = [] ∧ run.before.pair = pair := by
  have hnul := line_prefix_cstring line.toLine []
  have hnl : newline ∈ cstring line.bytes [] := hnul.subset (by simp [Line.bytes])
  have hkey : COMMAND <+: cstring line.bytes [] := line.keyword.trans hnul
  have hne : line.bytes ≠ [] := by simp [Line.bytes]
  have hfits := line.fits
  let before : Worker := { pair, pc := .receive }
  let asked : Worker := { before.store line.bytes [] with pc := .sizeEnd true }
  let after : Worker := ((asked.resume (.ret 0)).resume (.ret 0)).resume (.ret 0)
  have hstring : (before.store line.bytes []).string = cstring line.bytes [] :=
    Worker.store_string rfl _ _
  have hrecv : before.step (.recv line.bytes []) = some asked := by
    have hdispatch : (before.store line.bytes []).dispatch = asked := by
      unfold Worker.dispatch
      rw [hstring, if_pos hnl, if_pos hkey]
    have hadmits : Op.admits .receive (.recv line.bytes []) = true := by
      simp [Op.admits, hne, hfits]
    show (if Op.admits .receive (.recv line.bytes []) then
      some ((before.store line.bytes []).dispatch) else none) = some asked
    rw [hadmits, hdispatch]
    rfl
  refine ⟨{
    pair := pair
    earlier := [.ret 0, .ret 0]
    past := []
    later := [.ret 0, .ret 0, .ret 0]
    before := before
    after := after
    lines := by simp [RecvsLine]
    reached := rfl
    served := ?_
    quiet := by simp [Quiet]
    ended := rfl
  }, rfl, rfl⟩
  rw [exec_cons, hrecv]
  rfl

/-- The digits of a number end before the newline, so the memory behind the
buffer has no part in it. -/
theorem SeekRun.issued_of_some (run : SeekRun line) {p : ℤ × ℤ} {r : List Byte}
    (h : scanPair line.bytes = some (p, r)) : run.issued = [⟨stored p.1, stored p.2⟩] := by
  have hr : r ≠ [] := by
    rintro rfl
    obtain ⟨text, d, hd, hline⟩ := scanPair_split h
    have hlast : newline = d := by simpa [Line.bytes] using congrArg List.getLast? hline
    subst hlast
    exact absurd hd (by decide)
  obtain ⟨t, ht⟩ := line_prefix_cstring line.toLine run.past
  rw [run.issued_eq, ← ht, sscanfPair_of_some (scanPair_append h hr)]

/-- The second field of a line that does not match is the stack's. -/
theorem exists_issued_ne (h : scanPair line.bytes = none) :
    ∃ run run' : SeekRun line, run.issued ≠ run'.issued := by
  have hself : cstring line.bytes [] = line.bytes := by
    apply ((line_prefix_cstring line.toLine []).eq_of_length_le ?_).symm
    unfold cstring untilNul
    rw [List.append_nil, ite_self]
    exact (List.takeWhile_prefix _).length_le
  obtain ⟨run, hpast, hpair⟩ := exists_run line ⟨0, 0⟩
  obtain ⟨run', hpast', hpair'⟩ := exists_run line ⟨0, 1⟩
  refine ⟨run, run', fun heq => ?_⟩
  rw [run.issued_eq, run'.issued_eq, hpast, hpast', hself, hpair, hpair'] at heq
  have hoffset := congrArg AesdSeekto.writeCmdOffset (List.singleton_inj.mp heq)
  rw [sscanfPair_of_none h, sscanfPair_of_none h] at hoffset
  exact absurd hoffset (by decide)

theorem scanPair_of_numbersOf {ends : List Byte → Bool} {s : List Byte} {p : ℤ × ℤ}
    (h : numbersOf ends s = some p) : ∃ r, scanPair s = some (p, r) := by
  obtain ⟨⟨q, r⟩, hq, hqp⟩ := Option.map_eq_some_iff.mp h
  cases hqp
  exact ⟨r, (Option.filter_eq_some_iff.mp hq).1⟩

/-- In every run the line asks for exactly its own numbers if and only if it has
two, each of them an `unsigned int`; and all runs ask for the same if and only
if it has two. -/
theorem seek_own_numbers_iff (line : SeekLine) (ends : List Byte → Bool) :
    ((∀ run : SeekRun line, Asks (numbersOf ends line.bytes) run.issued) ↔
      ∃ m n, numbersOf ends line.bytes = some (m, n) ∧ Unsigned m ∧ Unsigned n) ∧
    ((∀ run run' : SeekRun line, run.issued = run'.issued) ↔
      (scanPair line.bytes).isSome) := by
  constructor
  · constructor
    · intro h
      obtain ⟨run, _, _⟩ := exists_run line ⟨0, 0⟩
      have hrun := h run
      cases hn : numbersOf ends line.bytes with
      | none =>
        rw [hn, run.issued_eq] at hrun
        cases hrun
      | some p =>
        obtain ⟨r, hr⟩ := scanPair_of_numbersOf hn
        rw [hn, run.issued_of_some hr] at hrun
        have hpair : (((stored p.1).toNat : ℤ), ((stored p.2).toNat : ℤ)) = p := by
          simpa [Asks] using hrun
        exact ⟨p.1, p.2, rfl, stored_eq_iff.mp (congrArg Prod.fst hpair),
          stored_eq_iff.mp (congrArg Prod.snd hpair)⟩
    · rintro ⟨m, n, hn, hm, hn'⟩ run
      obtain ⟨r, hr⟩ := scanPair_of_numbersOf hn
      rw [hn, run.issued_of_some hr]
      simp [Asks, stored_eq_iff.mpr hm, stored_eq_iff.mpr hn']
  · constructor
    · intro h
      by_contra hnone
      obtain ⟨run, run', hne⟩ := exists_issued_ne (Option.not_isSome_iff_eq_none.mp hnone)
      exact hne (h run run')
    · intro h run run'
      obtain ⟨⟨p, r⟩, hr⟩ := Option.isSome_iff_exists.mp h
      rw [run.issued_of_some hr, run'.issued_of_some hr]

end Iteration

/-- The keyword alone. -/
def bareKeyword : SeekLine where
  body := COMMAND
  no_newline := by decide
  no_nul := by decide
  keyword := by decide
  fits := by decide

/-- `AESDCHAR_IOCSEEKTO:1,2` -/
def seekOneTwo : Line where
  body := COMMAND ++ [58, 49, 44, 50]
  no_newline := by decide
  no_nul := by decide

/-- After a seek to byte 2 of command 1 the bare keyword is a seek to the same place. -/
def staleRun : SeekRun bareKeyword where
  pair := ⟨0, 0⟩
  earlier := [.ret 0, .ret 0, .recv seekOneTwo.bytes [], .ret 1, .ret 0, .ret 0, .bytes [97],
    .ret 0, .ret 1, .ret 0, .ret 0]
  past := []
  later := [.ret 0, .ret 0, .ret 0]
  before := { pc := .receive, rc := 23, pair := ⟨1, 2⟩, fileEnd := 1 }
  after := {
    pc := .finish, rc := 19, rbuffer := bareKeyword.bytes, pair := ⟨1, 2⟩ }
  lines := by simp [RecvsLine]
  reached := by decide +kernel
  served := by decide +kernel
  quiet := by simp [Quiet]
  ended := rfl

theorem stale_pair_issued :
    numbersOf (fun _ => true) bareKeyword.bytes = none ∧ staleRun.issued = [⟨1, 2⟩] ∧
      ¬ Asks (numbersOf (fun _ => true) bareKeyword.bytes) staleRun.issued ∧
      ∃ run : SeekRun bareKeyword, run.issued = [⟨0, 0⟩] := by
  have hnone : numbersOf (fun _ => true) bareKeyword.bytes = none := by decide +kernel
  have hissued : staleRun.issued = [⟨1, 2⟩] := by decide +kernel
  obtain ⟨run, hpast, hpair⟩ := exists_run bareKeyword ⟨0, 0⟩
  refine ⟨hnone, hissued, ?_, run, ?_⟩
  · rw [hnone, hissued]
    simp [Asks]
  · rw [run.issued_eq, hpast, hpair]
    decide +kernel

end Aesd.SeekNumbers
