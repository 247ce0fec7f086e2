import Aesd.Delimited
import Aesd.DeviceContents

/-!
Commands and lines. A command is a group of whole writes, closed by the first one
that contains a newline; whatever that write has behind the newline belongs to the
same command. The commands are the lines of the bytes written exactly if the
groups that are still in the ring are lines and the group before them ends a line.
-/

namespace Aesd.CommandBoundaries

open CharDriver DeviceStore DeviceContents Delimited Runs

/-- What a sequence of writes leaves of a freshly loaded device. -/
def after (writes : List WriteCall) : Kernel := run aesdInitModule (writes.map WriteCall.call)

def written (writes : List WriteCall) : List Byte := (writes.map WriteCall.buf).flatten

/-- The groups that the writes make up, and the open one. -/
def groupsOf (writes : List WriteCall) : List (List Byte) × List Byte :=
  groupWrites (writes.map WriteCall.buf)

/-- The commands are the last ten lines of the bytes, each up to its newline, and
what follows the last newline is pending. -/
def HoldsLines (k : Kernel) (bytes : List Byte) : Prop :=
  ringBytes k = (split newline bytes).1.rtake 10 ∧ pendingBytes k = (split newline bytes).2

/-- The last ten groups are lines, and the group before them ends with a newline. -/
def CutAtLines (writes : List WriteCall) : Prop :=
  (∀ g ∈ (groupsOf writes).1.rtake 10, Terminated newline g) ∧
    ∀ g, ((groupsOf writes).1.rdrop 10).getLast? = some g → g.getLast? = some newline

theorem newline_mem_closed (bufs : List (List Byte)) :
    ∀ g ∈ (groupWrites bufs).1, newline ∈ g := by
  induction bufs using List.reverseRecOn with
  | nil => simp [groupWrites]
  | append_singleton bufs buf ih =>
    rw [groupWrites_concat]
    unfold pushWrite
    split
    · rename_i hbuf
      intro g hg
      rcases List.mem_append.mp hg with hold | hnew
      · exact ih g hold
      · rw [List.mem_singleton.mp hnew]
        exact List.mem_append_right _ hbuf
    · exact ih

/-- If no write goes on behind a newline, every group is a line. -/
theorem terminated_closed {bufs : List (List Byte)} (h : ∀ buf ∈ bufs, newline ∉ buf.dropLast) :
    ∀ g ∈ (groupWrites bufs).1, Terminated newline g := by
  induction bufs using List.reverseRecOn with
  | nil => simp [groupWrites]
  | append_singleton bufs buf ih =>
    have hold := ih fun b hb => h b (List.mem_append_left _ hb)
    have hlast := h buf (by simp)
    rw [groupWrites_concat]
    unfold pushWrite
    split
    · rename_i hbuf
      intro g hg
      rcases List.mem_append.mp hg with hin | hnew
      · exact hold g hin
      · have hne : buf ≠ [] := List.ne_nil_of_mem hbuf
        have hsplit := List.dropLast_append_getLast hne
        have hend : buf.getLast hne = newline := by
          rw [← hsplit, List.mem_append, List.mem_singleton] at hbuf
          exact (hbuf.resolve_left hlast).symm
        rw [hend] at hsplit
        refine ⟨(groupWrites bufs).2 ++ buf.dropLast, ?_, ?_⟩
        · rw [List.mem_append]
          exact fun hmem => hmem.elim (newline_not_mem_open bufs) hlast
        · rw [List.mem_singleton.mp hnew, List.append_assoc, hsplit]
    · exact hold

theorem cutAtLines_of_dropLast {writes : List WriteCall}
    (h : ∀ w ∈ writes, newline ∉ w.buf.dropLast) : CutAtLines writes := by
  have hlines : ∀ g ∈ (groupsOf writes).1, Terminated newline g := by
    apply terminated_closed
    intro buf hbuf
    obtain ⟨w, hw, rfl⟩ := List.mem_map.mp hbuf
    exact h w hw
  constructor
  · exact fun g hg => hlines g (List.mem_of_mem_drop hg)
  · exact fun g hg => (hlines g (List.mem_of_mem_take (List.mem_of_getLast? hg))).getLast?_eq

/-- Successful writes leave the last ten groups and the open one. -/
theorem groups_held {writes : List WriteCall}
    (h : Steps next Succeeds aesdInitModule (writes.map WriteCall.call)) :
    ringBytes (after writes) = (groupsOf writes).1.rtake 10 ∧
      pendingBytes (after writes) = (groupsOf writes).2 := by
  obtain ⟨hacc, hfine⟩ := acceptedWrites_of_succeed h
  have hinit : Represents aesdInitModule [] (groupWrites []).1 (groupWrites []).2 :=
    represents_init
  obtain ⟨adds, hrep⟩ := hinit.along hfine
  rw [hacc, List.nil_append] at hrep
  exact ⟨hrep.retains.ringBytes_eq, hrep.pendingBytes_eq⟩

theorem holdsLines_iff {writes : List WriteCall}
    (h : Steps next Succeeds aesdInitModule (writes.map WriteCall.call)) :
    HoldsLines (after writes) (written writes) ↔ CutAtLines writes := by
  obtain ⟨hring, hpending⟩ := groups_held h
  have hbytes : written writes = (groupsOf writes).1.flatten ++ (groupsOf writes).2 :=
    (groupWrites_flatten _).symm
  unfold HoldsLines CutAtLines
  rw [hring, hpending, hbytes]
  exact (and_congr eq_comm eq_comm).trans
    (rtake_split_eq_iff 10 (newline_mem_closed _) (newline_not_mem_open _))

/-- For all successful writes: the commands are the groups of the writes. They are
the lines of the bytes exactly if the writes are cut at the ends of lines, as they
are where no write goes on behind a newline; and any two such ways of cutting the
same bytes leave the same commands and the same pending bytes. -/
theorem commands_of_cuts (writes writes' : List WriteCall)
    (h : Steps next Succeeds aesdInitModule (writes.map WriteCall.call))
    (h' : Steps next Succeeds aesdInitModule (writes'.map WriteCall.call))
    (hsame : written writes = written writes') :
    (ringBytes (after writes) = (groupsOf writes).1.rtake 10 ∧
      pendingBytes (after writes) = (groupsOf writes).2) ∧
    (HoldsLines (after writes) (written writes) ↔ CutAtLines writes) ∧
    ((∀ w ∈ writes, newline ∉ w.buf.dropLast) → CutAtLines writes) ∧
    (CutAtLines writes → CutAtLines writes' →
      ringBytes (after writes) = ringBytes (after writes') ∧
        pendingBytes (after writes) = pendingBytes (after writes')) := by
  refine ⟨groups_held h, holdsLines_iff h, cutAtLines_of_dropLast, fun hcut hcut' => ?_⟩
  obtain ⟨hring, hpending⟩ := (holdsLines_iff h).mpr hcut
  obtain ⟨hring', hpending'⟩ := (holdsLines_iff h').mpr hcut'
  rw [hring, hpending, hring', hpending', hsame]
  exact ⟨rfl, rfl⟩

/-- Two lines, cut between them and cut inside the second. -/
theorem commands_of_two_cuts :
    ringBytes (after [⟨0, [97, 10], {}⟩, ⟨0, [98, 10], {}⟩]) =
      ringBytes (after [⟨0, [97, 10], {}⟩, ⟨0, [98], {}⟩, ⟨0, [10], {}⟩]) :=
  ((commands_of_cuts [⟨0, [97, 10], {}⟩, ⟨0, [98, 10], {}⟩]
    [⟨0, [97, 10], {}⟩, ⟨0, [98], {}⟩, ⟨0, [10], {}⟩]
    (steps_cons.mpr ⟨⟨2, by decide, by decide⟩,
      steps_cons.mpr ⟨⟨2, by decide, by decide⟩, trivial⟩⟩)
    (steps_cons.mpr ⟨⟨2, by decide, by decide⟩, steps_cons.mpr ⟨⟨1, by decide, by decide⟩,
      steps_cons.mpr ⟨⟨1, by decide, by decide⟩, trivial⟩⟩⟩) rfl).2.2.2
    (cutAtLines_of_dropLast (by decide)) (cutAtLines_of_dropLast (by decide))).1

/-- Two lines in one write are one command. -/
theorem two_lines_in_one_write :
    ¬ ∀ writes writes' : List WriteCall,
      Steps next Succeeds aesdInitModule (writes.map WriteCall.call) →
      Steps next Succeeds aesdInitModule (writes'.map WriteCall.call) →
      written writes = written writes' → ringBytes (after writes) = ringBytes (after writes') := by
  intro h
  have heq := h [⟨0, [97, 10, 98, 10], {}⟩] [⟨0, [97, 10], {}⟩, ⟨0, [98, 10], {}⟩]
    (steps_cons.mpr ⟨⟨4, by decide, by decide⟩, trivial⟩)
    (steps_cons.mpr ⟨⟨2, by decide, by decide⟩,
      steps_cons.mpr ⟨⟨2, by decide, by decide⟩, trivial⟩⟩)
    rfl
  exact absurd heq (by decide)

end Aesd.CommandBoundaries
