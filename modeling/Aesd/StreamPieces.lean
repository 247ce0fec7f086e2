import Aesd.EchoWorker

/-!
A stream of newline-terminated lines and the chunks `recv` cuts it into. A worker
makes one call on the data file for each packet, a write or a seek; what comes of
the calls are the bytes written and the packets executed as seeks. Two cuts of
one stream come to the same if and only if the same pieces of it are seeks, and
make the same calls only if they are the same cut. A chunk without a newline ends
the calls, and so does one that leaves no terminator in the receive buffer.
-/

namespace Aesd.StreamPieces

open CharDriver EchoWorker

structure Line where
  body : List Byte
  no_newline : newline ∉ body
  no_nul : 0 ∉ body

def Line.bytes (l : Line) : List Byte := l.body ++ [newline]

theorem Line.zero_not_mem (l : Line) : 0 ∉ l.bytes := by
  intro hzero
  rcases List.mem_append.mp hzero with hbody | hend
  · exact l.no_nul hbody
  · exact absurd hend (by decide)

/-- What one `recv` returns. -/
structure Chunk where
  bytes : List Byte
  nonempty : bytes ≠ []
  fits : bytes.length ≤ BUFFER_SIZE

/-- The call on the data file that a packet leads to: a `write` of it, or an
`ioctl` with the pair scanned from it. -/
inductive FileCall
  | write (packet : List Byte)
  | ioctl (packet : List Byte) (pair : AesdSeekto)
  deriving DecidableEq, Repr

/-- A byte written to the data file, or a packet executed as a seek. -/
inductive Handled
  | byte (b : Byte)
  | seek (packet : List Byte) (pair : AesdSeekto)
  deriving DecidableEq, Repr

namespace FileCall

def packet : FileCall → List Byte
  | write packet => packet
  | ioctl packet _ => packet

def handled : FileCall → List Handled
  | write packet => packet.map .byte
  | ioctl packet pair => [.seek packet pair]

end FileCall

/-- Pieces of a stream taken one by one, each as a seek or as data. -/
def pieceCalls : AesdSeekto → List (List Byte) → List FileCall
  | _, [] => []
  | pair, piece :: pieces =>
    if COMMAND <+: piece then
      let pair := sscanfPair piece pair
      .ioctl piece pair :: pieceCalls pair pieces
    else .write piece :: pieceCalls pair pieces

def pieceEvents (pair : AesdSeekto) (pieces : List (List Byte)) : List Handled :=
  (pieceCalls pair pieces).flatMap FileCall.handled

/-- The pieces that start with the keyword, with their offsets in the stream. -/
def commandsAt : ℕ → List (List Byte) → List (ℕ × List Byte)
  | _, [] => []
  | off, piece :: pieces =>
    if COMMAND <+: piece then (off, piece) :: commandsAt (off + piece.length) pieces
    else commandsAt (off + piece.length) pieces

/-- The seeks among handled events, with the bytes handled before each. -/
def marks : ℕ → List Handled → List (ℕ × List Byte)
  | _, [] => []
  | off, .byte _ :: events => marks (off + 1) events
  | off, .seek packet _ :: events => (off, packet) :: marks (off + packet.length) events

/-- The events given by a stream and the places of its seeks. -/
def rebuild : ℕ → AesdSeekto → List (ℕ × List Byte) → List Byte → List Handled
  | _, _, [], stream => stream.map .byte
  | off, pair, (start, packet) :: rest, stream =>
    let pair' := sscanfPair packet pair
    (stream.take (start - off)).map .byte ++ .seek packet pair' ::
      rebuild (start + packet.length) pair' rest (stream.drop (start - off + packet.length))

theorem map_packet_pieceCalls (pair : AesdSeekto) (pieces : List (List Byte)) :
    (pieceCalls pair pieces).map FileCall.packet = pieces := by
  induction pieces generalizing pair with
  | nil => rfl
  | cons piece pieces ih =>
    unfold pieceCalls
    split
    · rw [List.map_cons, ih, FileCall.packet]
    · rw [List.map_cons, ih, FileCall.packet]

/-- The calls tell the pieces. -/
theorem pieceCalls_eq_iff (pair : AesdSeekto) {pieces pieces' : List (List Byte)} :
    pieceCalls pair pieces = pieceCalls pair pieces' ↔ pieces = pieces' := by
  constructor
  · intro h
    rw [← map_packet_pieceCalls pair pieces, h, map_packet_pieceCalls]
  · exact congrArg _

theorem pieceEvents_of_command {piece : List Byte} (h : COMMAND <+: piece) (pair : AesdSeekto)
    (pieces : List (List Byte)) :
    pieceEvents pair (piece :: pieces) =
      .seek piece (sscanfPair piece pair) :: pieceEvents (sscanfPair piece pair) pieces := by
  rw [pieceEvents, pieceCalls, if_pos h]
  rfl

theorem pieceEvents_of_data {piece : List Byte} (h : ¬ COMMAND <+: piece) (pair : AesdSeekto)
    (pieces : List (List Byte)) :
    pieceEvents pair (piece :: pieces) = piece.map .byte ++ pieceEvents pair pieces := by
  rw [pieceEvents, pieceCalls, if_neg h]
  rfl

theorem marks_bytes (off : ℕ) (bytes : List Byte) (events : List Handled) :
    marks off (bytes.map .byte ++ events) = marks (off + bytes.length) events := by
  induction bytes generalizing off with
  | nil => rfl
  | cons b bytes ih =>
    rw [List.map_cons, List.cons_append, marks, ih, List.length_cons]
    congr 1
    omega

theorem marks_pieceEvents (pair : AesdSeekto) (off : ℕ) (pieces : List (List Byte)) :
    marks off (pieceEvents pair pieces) = commandsAt off pieces := by
  induction pieces generalizing pair off with
  | nil => rfl
  | cons piece pieces ih =>
    unfold commandsAt
    by_cases hc : COMMAND <+: piece
    · rw [if_pos hc, pieceEvents_of_command hc, marks, ih]
    · rw [if_neg hc, pieceEvents_of_data hc, marks_bytes, ih]

theorem le_of_mem_commandsAt {off : ℕ} {pieces : List (List Byte)} {mark : ℕ × List Byte}
    (h : mark ∈ commandsAt off pieces) : off ≤ mark.1 := by
  induction pieces generalizing off with
  | nil => cases h
  | cons piece pieces ih =>
    unfold commandsAt at h
    split at h
    · rcases List.mem_cons.mp h with rfl | h
      · exact le_rfl
      · exact (Nat.le_add_right _ _).trans (ih h)
    · exact (Nat.le_add_right _ _).trans (ih h)

theorem rebuild_bytes (pair : AesdSeekto) (off : ℕ) (bytes stream : List Byte)
    (places : List (ℕ × List Byte)) (hplaces : ∀ p ∈ places, off + bytes.length ≤ p.1) :
    rebuild off pair places (bytes ++ stream) =
      bytes.map .byte ++ rebuild (off + bytes.length) pair places stream := by
  cases places with
  | nil => simp [rebuild]
  | cons place rest =>
    obtain ⟨start, packet⟩ := place
    have hat : off + bytes.length ≤ start := hplaces _ (List.mem_cons_self ..)
    have hsplit : start - off = bytes.length + (start - (off + bytes.length)) := by omega
    simp only [rebuild]
    rw [hsplit, List.take_length_add_append, Nat.add_assoc, List.drop_length_add_append,
      List.map_append, List.append_assoc]

theorem pieceEvents_eq_rebuild (pair : AesdSeekto) (off : ℕ) (pieces : List (List Byte)) :
    pieceEvents pair pieces = rebuild off pair (commandsAt off pieces) pieces.flatten := by
  induction pieces generalizing pair off with
  | nil => rfl
  | cons piece pieces ih =>
    unfold commandsAt
    by_cases hc : COMMAND <+: piece
    · rw [pieceEvents_of_command hc]
      simp only [hc, if_true, rebuild, Nat.sub_self, List.take_zero, List.map_nil, List.nil_append,
        Nat.zero_add, List.flatten_cons, List.drop_left]
      rw [ih]
    · rw [pieceEvents_of_data hc, if_neg hc, List.flatten_cons,
        rebuild_bytes pair off piece _ _ (fun p hp => le_of_mem_commandsAt hp), ← ih]

/-- Two cuts of one stream are handled alike exactly when the same pieces of it are seeks. -/
theorem pieceEvents_eq_iff (pair : AesdSeekto) {pieces pieces' : List (List Byte)}
    (hstream : pieces.flatten = pieces'.flatten) :
    pieceEvents pair pieces = pieceEvents pair pieces' ↔
      commandsAt 0 pieces = commandsAt 0 pieces' := by
  constructor
  · intro h
    rw [← marks_pieceEvents pair 0 pieces, h, marks_pieceEvents]
  · intro h
    rw [pieceEvents_eq_rebuild pair 0 pieces, h, hstream, ← pieceEvents_eq_rebuild]

/-- The chunks of a stream of lines have no zero bytes either. -/
theorem zero_not_mem_chunk {lines : List Line} {chunks : List Chunk}
    (hstream : (chunks.map Chunk.bytes).flatten = (lines.map Line.bytes).flatten) :
    ∀ c ∈ chunks, 0 ∉ c.bytes := by
  intro c hc hzero
  have hmem : (0 : Byte) ∈ (lines.map Line.bytes).flatten := by
    rw [← hstream]
    exact List.mem_flatten.mpr ⟨c.bytes, List.mem_map_of_mem hc, hzero⟩
  obtain ⟨bytes, hbytes, hz⟩ := List.mem_flatten.mp hmem
  obtain ⟨l, _, rfl⟩ := List.mem_map.mp hbytes
  exact l.zero_not_mem hz

/-- The chunk has a newline and leaves room for a terminator behind it. -/
def Chunk.Whole (c : Chunk) : Prop := newline ∈ c.bytes ∧ c.bytes.length < BUFFER_SIZE

instance (c : Chunk) : Decidable c.Whole := inferInstanceAs (Decidable (_ ∧ _))

/-- The calls for the chunks that `recv` has still to return. -/
def chunkCalls : AesdSeekto → List Chunk → List FileCall
  | _, [] => []
  | pair, c :: cs =>
    if c.Whole then
      if COMMAND <+: c.bytes then
        let pair := sscanfPair c.bytes pair
        .ioctl c.bytes pair :: chunkCalls pair cs
      else .write c.bytes :: chunkCalls pair cs
    else []

theorem chunkCalls_of_whole (pair : AesdSeekto) {chunks : List Chunk}
    (h : ∀ c ∈ chunks, c.Whole) :
    chunkCalls pair chunks = pieceCalls pair (chunks.map Chunk.bytes) := by
  induction chunks generalizing pair with
  | nil => rfl
  | cons c cs ih =>
    obtain ⟨hc, hcs⟩ := List.forall_mem_cons.mp h
    unfold chunkCalls
    rw [List.map_cons, pieceCalls, if_pos hc]
    simp only [ih _ hcs]

def Handled.weight : Handled → ℕ
  | .byte _ => 1
  | .seek packet _ => packet.length

def weigh (events : List Handled) : ℕ := (events.map Handled.weight).sum

theorem weigh_append (events events' : List Handled) :
    weigh (events ++ events') = weigh events + weigh events' := by simp [weigh]

theorem weigh_handled (call : FileCall) : weigh call.handled = call.packet.length := by
  cases call with
  | write packet =>
    have hone : Handled.weight ∘ Handled.byte = fun _ => 1 := rfl
    simp [FileCall.handled, FileCall.packet, weigh, hone]
  | ioctl packet pair => simp [FileCall.handled, FileCall.packet, weigh, Handled.weight]

theorem weigh_handled_calls (calls : List FileCall) :
    weigh (calls.flatMap FileCall.handled) =
      (calls.map FileCall.packet).flatten.length := by
  induction calls with
  | nil => rfl
  | cons call calls ih =>
    rw [List.flatMap_cons, weigh_append, weigh_handled, ih, List.map_cons, List.flatten_cons,
      List.length_append]

theorem weigh_pieceEvents (pair : AesdSeekto) (pieces : List (List Byte)) :
    weigh (pieceEvents pair pieces) = pieces.flatten.length := by
  rw [pieceEvents, weigh_handled_calls, map_packet_pieceCalls]

/-- The calls for chunks take the chunks from the first one on. -/
theorem map_packet_chunkCalls (pair : AesdSeekto) (chunks : List Chunk) :
    (chunkCalls pair chunks).map FileCall.packet =
      (chunks.takeWhile fun c => decide c.Whole).map Chunk.bytes := by
  induction chunks generalizing pair with
  | nil => rfl
  | cons c cs ih =>
    unfold chunkCalls
    by_cases hc : c.Whole
    · rw [if_pos hc, List.takeWhile_cons_of_pos (by simpa using hc)]
      split
      · rw [List.map_cons, ih, FileCall.packet, List.map_cons]
      · rw [List.map_cons, ih, FileCall.packet, List.map_cons]
    · rw [if_neg hc, List.takeWhile_cons_of_neg (by simpa using hc)]
      rfl

/-- Some of the first pieces that make up all bytes are all the pieces. -/
theorem eq_of_prefix_of_length {pieces pieces' : List (List Byte)} (hextends : pieces <+: pieces')
    (hne : ∀ piece ∈ pieces', piece ≠ [])
    (hlen : pieces.flatten.length = pieces'.flatten.length) : pieces = pieces' := by
  obtain ⟨rest, rfl⟩ := hextends
  rw [List.flatten_append, List.length_append] at hlen
  have hnil : rest.flatten = [] := List.length_eq_zero_iff.mp (by omega)
  cases rest with
  | nil => rw [List.append_nil]
  | cons piece rest =>
    exact absurd (List.append_eq_nil_iff.mp hnil).1 (hne piece (by simp))

/-- The first of the calls for the chunks that take all bytes are the calls for
all of them, and then every chunk is whole. -/
theorem all_of_length {pair : AesdSeekto} {chunks : List Chunk} {calls rest : List FileCall}
    (heq : calls ++ rest = chunkCalls pair chunks)
    (hlen : (calls.map FileCall.packet).flatten.length =
      (chunks.map Chunk.bytes).flatten.length) :
    calls.map FileCall.packet = chunks.map Chunk.bytes ∧ rest = [] ∧ ∀ c ∈ chunks, c.Whole := by
  have htaken := map_packet_chunkCalls pair chunks
  have hpre : chunks.takeWhile (fun c => decide c.Whole) <+: chunks := List.takeWhile_prefix _
  rw [← heq, List.map_append] at htaken
  have hfirst : calls.map FileCall.packet <+: chunks.map Chunk.bytes := by
    refine List.IsPrefix.trans ?_ (hpre.map Chunk.bytes)
    rw [← htaken]
    exact List.prefix_append _ _
  have hcalls := eq_of_prefix_of_length hfirst
    (by simpa using fun c _ => c.nonempty) hlen
  have hcount := congrArg List.length htaken
  have hle := hpre.length_le
  rw [hcalls] at hcount
  simp only [List.length_append, List.length_map] at hcount
  refine ⟨hcalls, List.length_eq_zero_iff.mp (by omega), fun c hc => ?_⟩
  rw [← hpre.eq_of_length (by omega)] at hc
  simpa using List.mem_takeWhile_imp hc

end Aesd.StreamPieces
