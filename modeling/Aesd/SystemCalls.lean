import Mathlib.Data.List.Count
import Mathlib.Tactic.Ring

/-!
Programs that start commands with `do_system`, `do_exec` and
`do_exec_redirect`. A child in which `execv` fails does not exit: it returns
false into its copy of the calling program and goes on with the rest of it,
while the parent waits for the copy and takes its exit status for that of the
command. What `waitpid` returns is not looked at: where it fails, the answer is
whatever the parent's variable held. The parent of a redirected command keeps the
output file open.
-/

namespace Aesd.SystemCalls

/-- A C string, and what is written to a file. -/
abbrev Text := List UInt8

/-- The status word of a process that a signal has ended. -/
abbrev Signal := { word : BitVec 8 // word &&& 0x7f ≠ 0 }

inductive Ending
  | exited (code : BitVec 8)
  | signaled (signal : Signal)
  deriving DecidableEq

def Ending.status : Ending → BitVec 32
  | exited code => code.setWidth 32 <<< 8
  | signaled signal => signal.val.setWidth 32

def WIFEXITED (status : BitVec 32) : Bool := status &&& 0x7f == 0

def WEXITSTATUS (status : BitVec 32) : BitVec 32 := (status &&& 0xff00) >>> 8

/-- The test on the status that all three functions make. -/
def exitedZero (status : BitVec 32) : Bool := WIFEXITED status && WEXITSTATUS status == 0

/-- `command[0]` and the rest of the arguments. -/
structure Command where
  path : Text
  arguments : List Text
  deriving DecidableEq

/-- `**command == '/'` -/
def Command.isAbsolute (command : Command) : Bool := command.path.head? == some 47

/-- The descriptors of a process, as many as it may have; an open one leads to a file. -/
abbrev Fds := List (Option Text)

def STDOUT_FILENO : ℕ := 1

namespace Fds

/-- The lowest descriptor that is not open. -/
def openFile (fds : Fds) (file : Text) : Option (ℕ × Fds) :=
  let fd := fds.idxOf none
  if fd < fds.length then some (fd, fds.set fd (some file)) else none

def close (fds : Fds) (fd : ℕ) : Fds := fds.set fd none

def dup2 (fds : Fds) (fd fd2 : ℕ) : Option Fds :=
  if fd2 < fds.length then some (fds.set fd2 (fds.getD fd none)) else none

def stdout (fds : Fds) : Option Text := fds.getD STDOUT_FILENO none

end Fds

/-- What the kernel does in one call. `execv` is how the command ends that the
child becomes, if it becomes one. `waitpidFails` is a `waitpid` that has seen the
child end but cannot report it, as when `SIGCHLD` is ignored; `status` is what the
parent's variable holds before `waitpid` writes to it. -/
structure Outcome where
  shell : Bool := true
  system : Option Ending := some (.exited 0)
  openFails : Bool := false
  forkFails : Bool := false
  dup2Fails : Bool := false
  execv : Option Ending := some (.exited 0)
  waitpidFails : Bool := false
  status : BitVec 32 := 0

/-- `int status; waitpid(pid, &status, 0);` for a child that ends like this. -/
def Outcome.waitpid (outcome : Outcome) (ended : Ending) : BitVec 32 :=
  if outcome.waitpidFails then outcome.status else ended.status

/-- What the kernel does in all calls to come: in one call, then in those of the
copy that the child may turn into, and in those of the process itself. -/
inductive Plan
  | rest
  | call (outcome : Outcome) (copy next : Plan)

namespace Plan

def outcome : Plan → Outcome
  | rest => {}
  | call outcome _ _ => outcome

def copy : Plan → Plan
  | rest => rest
  | call _ copy _ => copy

def next : Plan → Plan
  | rest => rest
  | call _ _ next => next

end Plan

/-- A call that has come back. `executed` is how the command ended, if it was
executed; `forked` tells that this process is the parent of a child. -/
structure Call where
  redirect : Bool
  forked : Bool
  executed : Option Ending
  answer : Bool
  deriving DecidableEq

inductive Event
  | printed (stdout : Option Text) (text : Text)
  | opened (file : Text)
  | executed (command : Command) (stdout : Option Text) (ending : Ending)
  | copyEnded (calls : List Call) (ending : Ending)
  deriving DecidableEq

/-- The rest of the life of a process: its calls, its end, the descriptors it
ends with, and what happens meanwhile, in its children too. -/
structure Life where
  calls : List Call
  ending : Ending
  fds : Fds
  events : List Event

/-- The call and the events that come before. -/
def Life.after (life : Life) (call : Call) (events : List Event) : Life :=
  { life with calls := call :: life.calls, events := events ++ life.events }

/-- What a process does with the answer of a call. -/
abbrev Rest := Bool → Fds → Plan → Life

/-- `system` of a null pointer asks for a shell. -/
def system (cmd : Option Text) (outcome : Outcome) : BitVec 32 :=
  match cmd with
  | none => if outcome.shell then 1 else 0
  | some _ => match outcome.system with
    | none => -1
    | some ending => ending.status

def systemAnswer (status : BitVec 32) : Bool := if status = -1 then false else exitedZero status

def doSystem (cmd : Option Text) (rest : Rest) (fds : Fds) (plan : Plan) : Life :=
  let answer := systemAnswer (system cmd plan.outcome)
  (rest answer fds plan.next).after
    ⟨false, false, cmd.bind fun _ => plan.outcome.system, answer⟩ []

/-- A child that returns false from the call into its copy of the caller. -/
def copyOf (redirect : Bool) (rest : Rest) (fds : Fds) (plan : Plan) : Life :=
  (rest false fds plan.copy).after ⟨redirect, false, none, false⟩ []

def copyEvents (copy : Life) : List Event := copy.events ++ [.copyEnded copy.calls copy.ending]

/-- What the child leads to: the end of the process, the end of the command if
it became one, and the events. -/
def execvOrCopy (redirect : Bool) (command : Command) (rest : Rest) (fds : Fds) (plan : Plan) :
    Ending × Option Ending × List Event :=
  match plan.outcome.execv with
  | some ending => (ending, some ending, [.executed command fds.stdout ending])
  | none =>
    let copy := copyOf redirect rest fds plan
    (copy.ending, none, copyEvents copy)

def doExec (command : Command) (rest : Rest) (fds : Fds) (plan : Plan) : Life :=
  if command.isAbsolute then
    if plan.outcome.forkFails then
      (rest false fds plan.next).after ⟨false, false, none, false⟩ []
    else
      let (ended, executed, events) := execvOrCopy false command rest fds plan
      let answer := exitedZero (plan.outcome.waitpid ended)
      (rest answer fds plan.next).after ⟨false, true, executed, answer⟩ events
  else (rest false fds plan.next).after ⟨false, false, none, false⟩ []

def redirectedChild (fd : ℕ) (command : Command) (rest : Rest) (fds : Fds) (plan : Plan) :
    Ending × Option Ending × List Event :=
  match if plan.outcome.dup2Fails then none else fds.dup2 fd STDOUT_FILENO with
  | none =>
    let copy := copyOf true rest (fds.close fd) plan
    (copy.ending, none, copyEvents copy)
  | some fds => execvOrCopy true command rest (fds.close fd) plan

def doExecRedirect (outputfile : Text) (command : Command) (rest : Rest) (fds : Fds)
    (plan : Plan) : Life :=
  if command.isAbsolute then
    match if plan.outcome.openFails then none else fds.openFile outputfile with
    | none => (rest false fds plan.next).after ⟨true, false, none, false⟩ []
    | some (fd, fds) =>
      if plan.outcome.forkFails then
        -- on to `waitpid(-1)`, which has no child to wait for
        let answer := exitedZero plan.outcome.status
        (rest answer (fds.close fd) plan.next).after ⟨true, false, none, answer⟩
          [.opened outputfile]
      else
        let (ended, executed, events) := redirectedChild fd command rest fds plan
        let answer := exitedZero (plan.outcome.waitpid ended)
        (rest answer fds plan.next).after ⟨true, true, executed, answer⟩
          (.opened outputfile :: events)
  else (rest false fds plan.next).after ⟨true, false, none, false⟩ []

/-- A program that calls the three functions and goes by their answers. -/
inductive Caller
  | done (ending : Ending)
  | print (text : Text) (next : Caller)
  | system (cmd : Option Text) (next : Bool → Caller)
  | exec (command : Command) (next : Bool → Caller)
  | execRedirect (outputfile : Text) (command : Command) (next : Bool → Caller)

namespace Caller

def run : Caller → Fds → Plan → Life
  | done ending, fds, _ => ⟨[], ending, fds, []⟩
  | print text next, fds, plan =>
    let life := next.run fds plan
    { life with events := .printed fds.stdout text :: life.events }
  | system cmd next, fds, plan => doSystem cmd (fun answer => (next answer).run) fds plan
  | exec command next, fds, plan => doExec command (fun answer => (next answer).run) fds plan
  | execRedirect outputfile command next, fds, plan =>
    doExecRedirect outputfile command (fun answer => (next answer).run) fds plan

end Caller

/-! ## How a call comes back -/

@[simp] theorem Life.after_ending (life : Life) (call : Call) (events : List Event) :
    (life.after call events).ending = life.ending := rfl
@[simp] theorem Life.after_calls (life : Life) (call : Call) (events : List Event) :
    (life.after call events).calls = call :: life.calls := rfl
@[simp] theorem Life.after_fds (life : Life) (call : Call) (events : List Event) :
    (life.after call events).fds = life.fds := rfl
@[simp] theorem Life.after_events (life : Life) (call : Call) (events : List Event) :
    (life.after call events).events = events ++ life.events := rfl

def Event.calls : Event → List Call
  | copyEnded calls _ => calls
  | _ => []

def Event.isCopyEnded : Event → Bool
  | copyEnded _ _ => true
  | _ => false

/-- How many processes come to an end of the calling program. -/
def Life.ends (life : Life) : ℕ := life.events.countP Event.isCopyEnded + 1

/-- The descriptors after a call: a redirected one that forked keeps a descriptor,
and one without a descriptor to keep answers false. -/
structure Kept (fds fds' : Fds) (call : Call) : Prop where
  length_eq : fds'.length = fds.length
  free_eq : fds'.count none + (if call.redirect && call.forked then 1 else 0) = fds.count none
  forked : call.executed.isSome = true → call.redirect = true → call.forked = true
  full : none ∉ fds → call.redirect = true → call.answer = false

theorem Kept.plain (fds : Fds) {call : Call} (h : call.redirect = false) : Kept fds fds call := by
  constructor <;> simp [h]

theorem Kept.refused (fds : Fds) {call : Call} (hforked : call.forked = false)
    (hexecuted : call.executed = none) (hfull : none ∉ fds → call.answer = false) :
    Kept fds fds call where
  length_eq := rfl
  free_eq := by simp [hforked]
  forked := by simp [hexecuted]
  full hno _ := hfull hno

theorem openFile_eq_some {fds fds' : Fds} {file : Text} {fd : ℕ}
    (h : fds.openFile file = some (fd, fds')) :
    ∃ hlt : fd < fds.length, fds[fd] = none ∧ fds' = fds.set fd (some file) := by
  unfold Fds.openFile at h
  dsimp only at h
  split at h
  · rename_i hlt
    cases h
    exact ⟨hlt, List.getElem_idxOf hlt, rfl⟩
  · cases h

/-- Closing gives the descriptors before the file was opened. -/
theorem close_openFile {fds fds' : Fds} {file : Text} {fd : ℕ}
    (h : fds.openFile file = some (fd, fds')) : fds'.close fd = fds := by
  obtain ⟨hlt, hfree, rfl⟩ := openFile_eq_some h
  unfold Fds.close
  rw [List.set_set, ← hfree, List.set_getElem_self]

theorem count_openFile {fds fds' : Fds} {file : Text} {fd : ℕ}
    (h : fds.openFile file = some (fd, fds')) :
    fds'.length = fds.length ∧ fds'.count none + 1 = fds.count none := by
  obtain ⟨hlt, hfree, rfl⟩ := openFile_eq_some h
  have hmem : 0 < fds.count none := List.count_pos_iff.mpr (hfree ▸ List.getElem_mem hlt)
  refine ⟨List.length_set, ?_⟩
  rw [List.count_set hlt, hfree]
  simp
  omega

/-- The command writes to the output file, unless the descriptor of that is the
one of the standard output: then `dup2` does nothing and the `close` takes it away. -/
theorem stdout_redirected {fds fds' : Fds} {file : Text} {fd : ℕ}
    (h : fds.openFile file = some (fd, fds')) (hlen : STDOUT_FILENO < fds.length) :
    (fds'.dup2 fd STDOUT_FILENO).map (fun child => (child.close fd).stdout) =
      some (if fd = STDOUT_FILENO then none else some file) := by
  obtain ⟨hlt, _, rfl⟩ := openFile_eq_some h
  unfold Fds.dup2 Fds.stdout Fds.close
  rw [if_pos (by simpa using hlen), Option.map_some, Option.some.injEq]
  by_cases hfd : fd = STDOUT_FILENO
  · subst hfd
    simp [List.getD_eq_getElem?_getD, hlen]
  · simp [List.getD_eq_getElem?_getD, hfd, hlen, hlt]

/-- A call that has left a copy of the caller behind, and one that has not. `may`:
it can answer true. -/
inductive Returns (may : Bool) (rest : Rest) (fds : Fds) (plan : Plan) : Life → Prop
  | plain {call : Call} {fds' : Fds} {events : List Event}
      (hmay : call.answer = true → may = true) (hkept : Kept fds fds' call)
      (hquiet : events.countP Event.isCopyEnded = 0) :
      Returns may rest fds plan ((rest call.answer fds' plan.next).after call events)
  | copied {call : Call} {fds' : Fds} (before : List Event) (redirect : Bool) (childFds : Fds)
      (hmay : call.answer = true → may = true) (hkept : Kept fds fds' call)
      (hquiet : before.countP Event.isCopyEnded = 0) :
      Returns may rest fds plan ((rest call.answer fds' plan.next).after call
        (before ++ copyEvents (copyOf redirect rest childFds plan)))

theorem doSystem_returns (cmd : Option Text) (rest : Rest) (fds : Fds) (plan : Plan) :
    Returns true rest fds plan (doSystem cmd rest fds plan) :=
  .plain (fun _ => rfl) (Kept.plain fds rfl) rfl

/-- The child became the command, or a copy of the caller. -/
theorem execvOrCopy_cases (redirect : Bool) (command : Command) (rest : Rest) (fds : Fds)
    (plan : Plan) :
    (∃ e, execvOrCopy redirect command rest fds plan =
        (e, some e, [.executed command fds.stdout e])) ∨
      execvOrCopy redirect command rest fds plan =
        ((copyOf redirect rest fds plan).ending, none,
          copyEvents (copyOf redirect rest fds plan)) := by
  unfold execvOrCopy
  cases plan.outcome.execv with
  | some e => exact Or.inl ⟨e, rfl⟩
  | none => exact Or.inr rfl

theorem doExec_cases (command : Command) (rest : Rest) (fds : Fds) (plan : Plan) :
    doExec command rest fds plan = (rest false fds plan.next).after ⟨false, false, none, false⟩ [] ∨
    command.isAbsolute = true ∧
      ((∃ e, doExec command rest fds plan =
          (rest (exitedZero (plan.outcome.waitpid e)) fds plan.next).after
            ⟨false, true, some e, exitedZero (plan.outcome.waitpid e)⟩
            [.executed command fds.stdout e]) ∨
        ∃ e, e = (copyOf false rest fds plan).ending ∧ doExec command rest fds plan =
          (rest (exitedZero (plan.outcome.waitpid e)) fds plan.next).after
            ⟨false, true, none, exitedZero (plan.outcome.waitpid e)⟩
            (copyEvents (copyOf false rest fds plan))) := by
  unfold doExec
  by_cases habs : command.isAbsolute = true
  · rw [if_pos habs]
    by_cases hfork : plan.outcome.forkFails = true
    · rw [if_pos hfork]
      exact Or.inl rfl
    · rw [if_neg hfork]
      refine Or.inr ⟨habs, ?_⟩
      rcases execvOrCopy_cases false command rest fds plan with ⟨e, heq⟩ | heq
      · rw [heq]
        exact Or.inl ⟨e, rfl⟩
      · rw [heq]
        exact Or.inr ⟨_, rfl, rfl⟩
  · rw [if_neg habs]
    exact Or.inl rfl

theorem doExec_returns (command : Command) (rest : Rest) (fds : Fds) (plan : Plan) :
    Returns command.isAbsolute rest fds plan (doExec command rest fds plan) := by
  rcases doExec_cases command rest fds plan with heq | ⟨habs, ⟨e, heq⟩ | ⟨e, _, heq⟩⟩
  · rw [heq]
    exact .plain (by simp) (Kept.plain fds rfl) rfl
  · rw [heq]
    exact .plain (fun _ => habs) (Kept.plain fds rfl) rfl
  · rw [heq]
    exact .copied [] false fds (fun _ => habs) (Kept.plain fds rfl) rfl

/-- The redirected child became the command, or a copy of the caller. -/
theorem redirectedChild_cases (fd : ℕ) (command : Command) (rest : Rest) (fds : Fds)
    (plan : Plan) :
    (∃ e stdout, redirectedChild fd command rest fds plan =
        (e, some e, [.executed command stdout e])) ∨
      ∃ childFds, redirectedChild fd command rest fds plan =
        ((copyOf true rest childFds plan).ending, none,
          copyEvents (copyOf true rest childFds plan)) := by
  unfold redirectedChild
  cases (if plan.outcome.dup2Fails then none else fds.dup2 fd STDOUT_FILENO) with
  | none => exact Or.inr ⟨fds.close fd, rfl⟩
  | some childFds =>
    rcases execvOrCopy_cases true command rest (childFds.close fd) plan with ⟨e, heq⟩ | heq
    · exact Or.inl ⟨e, _, heq⟩
    · exact Or.inr ⟨_, heq⟩

theorem doExecRedirect_returns (outputfile : Text) (command : Command) (rest : Rest) (fds : Fds)
    (plan : Plan) :
    Returns command.isAbsolute rest fds plan
      (doExecRedirect outputfile command rest fds plan) := by
  unfold doExecRedirect
  by_cases habs : command.isAbsolute = true
  · rw [if_pos habs]
    cases hopen : (if plan.outcome.openFails then none else fds.openFile outputfile) with
    | none => exact .plain (by simp) (Kept.refused fds rfl rfl fun _ => rfl) rfl
    | some opened =>
      obtain ⟨fd, fds'⟩ := opened
      have hfile : fds.openFile outputfile = some (fd, fds') := by
        split at hopen
        · cases hopen
        · exact hopen
      obtain ⟨hlength, hfree⟩ := count_openFile hfile
      have hsome : none ∈ fds := List.count_pos_iff.mp (by omega)
      dsimp only
      by_cases hfork : plan.outcome.forkFails = true
      · rw [if_pos hfork, close_openFile hfile]
        exact .plain (fun _ => habs) (Kept.refused fds rfl rfl fun hno => absurd hsome hno) rfl
      · rw [if_neg hfork]
        rcases redirectedChild_cases fd command rest fds' plan with ⟨e, stdout, heq⟩ | ⟨child, heq⟩
        · rw [heq]
          exact .plain (fun _ => habs)
            ⟨hlength, hfree, fun _ _ => rfl, fun hno => absurd hsome hno⟩ rfl
        · rw [heq]
          exact .copied [.opened outputfile] true child (fun _ => habs)
            ⟨hlength, hfree, fun _ _ => rfl, fun hno => absurd hsome hno⟩ rfl
  · rw [if_neg habs]
    exact .plain (by simp) (Kept.refused fds rfl rfl fun _ => rfl) rfl

/-! ## Which answers can be trusted -/

namespace Caller

end Caller

/-- `waitpid` never fails, in the process and in its copies. -/
def Plan.Waits : Plan → Prop
  | rest => True
  | call outcome copy next => outcome.waitpidFails = false ∧ copy.Waits ∧ next.Waits

namespace Plan.Waits

variable {plan : Plan}

theorem status (h : plan.Waits) (ended : Ending) : plan.outcome.waitpid ended = ended.status := by
  cases plan with
  | rest => rfl
  | call outcome copy next =>
    have hworks : outcome.waitpidFails = false := h.1
    simp [Plan.outcome, Outcome.waitpid, hworks]

theorem copy (h : plan.Waits) : plan.copy.Waits := by
  cases plan with
  | rest => trivial
  | call outcome copy next => exact h.2.1

theorem next (h : plan.Waits) : plan.next.Waits := by
  cases plan with
  | rest => trivial
  | call outcome copy next => exact h.2.2

end Plan.Waits

namespace Caller

/-- The program ends well in some environment where `waitpid` works. -/
def Succeeds (fds : Fds) (c : Caller) : Prop :=
  ∃ plan : Plan, plan.Waits ∧ (c.run fds plan).ending = .exited 0

/-- The first call may come back, with `waitpid` working, so that `c` goes on with `next`. -/
def GoesOn (fds : Fds) (c next : Caller) : Prop :=
  ∃ o : Outcome, o.waitpidFails = false ∧ ∀ plan, ∃ call events,
    c.run fds (.call o .rest plan) = (next.run fds plan).after call events

theorem GoesOn.succeeds {fds : Fds} {c next : Caller} (h : c.GoesOn fds next)
    (hnext : next.Succeeds fds) : c.Succeeds fds := by
  obtain ⟨o, hworks, ho⟩ := h
  obtain ⟨plan, hwaits, hend⟩ := hnext
  obtain ⟨call, events, heq⟩ := ho plan
  refine ⟨.call o .rest plan, ⟨hworks, trivial, hwaits⟩, ?_⟩
  rw [heq]
  exact hend

end Caller

theorem Life.ends_after (life : Life) (call : Call) (events : List Event) :
    (life.after call events).ends = events.countP Event.isCopyEnded + life.ends := by
  rw [ends, ends, after_events, List.countP_append, Nat.add_assoc]

theorem countP_copyEvents (copy : Life) :
    (copyEvents copy).countP Event.isCopyEnded = copy.ends := by
  rw [copyEvents, List.countP_append]
  rfl

theorem Returns.ends_le {may : Bool} {rest : Rest} {fds : Fds} {plan : Plan} {life : Life} {n : ℕ}
    (h : Returns may rest fds plan life)
    (hrest : ∀ answer fds plan, (rest answer fds plan).ends ≤ n) : life.ends ≤ n + n := by
  cases h with
  | plain _ _ hquiet =>
    rw [Life.ends_after, hquiet]
    exact Nat.add_le_add (Nat.zero_le n) (hrest _ _ _)
  | copied _ redirect childFds _ _ hquiet =>
    have hcopy : (copyOf redirect rest childFds plan).ends ≤ n := by
      rw [copyOf, Life.ends_after]
      exact (Nat.zero_add _).trans_le (hrest _ _ _)
    rw [Life.ends_after, List.countP_append, hquiet, Nat.zero_add, countP_copyEvents]
    exact Nat.add_le_add hcopy (hrest _ _ _)

namespace Caller

/-- The most calls of `do_exec` and `do_exec_redirect` on a way through the program. -/
def depth : Caller → ℕ
  | done _ => 0
  | print _ next => next.depth
  | system _ next => max (next true).depth (next false).depth
  | exec _ next | execRedirect _ _ next => max (next true).depth (next false).depth + 1

theorem ends_le (c : Caller) (fds : Fds) (plan : Plan) : (c.run fds plan).ends ≤ 2 ^ c.depth := by
  have hmax : ∀ {next : Bool → Caller}, (∀ answer fds plan,
      ((next answer).run fds plan).ends ≤ 2 ^ (next answer).depth) → ∀ answer fds plan,
      ((next answer).run fds plan).ends ≤ 2 ^ max (next true).depth (next false).depth := by
    intro next ih answer fds plan
    refine (ih answer fds plan).trans (Nat.pow_le_pow_right (by decide) ?_)
    cases answer with
    | false => exact le_max_right _ _
    | true => exact le_max_left _ _
  induction c generalizing fds plan with
  | done ending => exact le_rfl
  | print text next ih =>
    have hnext := ih fds plan
    simpa [run, depth, Life.ends, Event.isCopyEnded] using hnext
  | system cmd next ih =>
    rw [run, doSystem, Life.ends_after]
    exact (Nat.zero_add _).trans_le (hmax ih _ _ _)
  | exec command next ih =>
    rw [depth, pow_succ, Nat.mul_two]
    exact (doExec_returns command _ fds plan).ends_le (hmax ih)
  | execRedirect outputfile command next ih =>
    rw [depth, pow_succ, Nat.mul_two]
    exact (doExecRedirect_returns outputfile command _ fds plan).ends_le (hmax ih)

/-- Call `do_exec` on the commands in order, whatever it answers, and go on with `c`. -/
def attempts (commands : List Command) (c : Caller) : Caller :=
  commands.foldr (fun command c => .exec command fun _ => c) c

end Caller

/-- For `n` calls in a row every fork succeeds and every `execv` fails. -/
def Plan.Barren : ℕ → Plan → Prop
  | 0, _ => True
  | n + 1, plan => plan.outcome.forkFails = false ∧ plan.outcome.execv = none ∧
      plan.copy.Barren n ∧ plan.next.Barren n

theorem depth_attempts (commands : List Command) (c : Caller) :
    (Caller.attempts commands c).depth = c.depth + commands.length := by
  induction commands with
  | nil => rfl
  | cons command commands ih =>
    change max (Caller.attempts commands c).depth (Caller.attempts commands c).depth + 1 = _
    rw [max_self, ih, List.length_cons, Nat.add_assoc]

theorem doExec_of_barren {command : Command} (habs : command.isAbsolute = true) {plan : Plan}
    (hfork : plan.outcome.forkFails = false) (hexecv : plan.outcome.execv = none) (rest : Rest)
    (fds : Fds) :
    ∃ answer call, doExec command rest fds plan =
      (rest answer fds plan.next).after call (copyEvents (copyOf false rest fds plan)) := by
  rw [doExec, if_pos habs, if_neg (by simp [hfork]), execvOrCopy, hexecv]
  exact ⟨_, _, rfl⟩

/-- What the copy and the parent do adds up. -/
theorem attempts_doubles {f : Life → ℕ} (hnothing : ∀ life call, f (life.after call []) = f life)
    (hcopy : ∀ life call copy, f (life.after call (copyEvents copy)) = f copy + f life)
    {c : Caller} {fds : Fds} {m : ℕ} (hc : ∀ plan, f (c.run fds plan) = m)
    {commands : List Command} (habs : ∀ command ∈ commands, command.isAbsolute = true)
    {plan : Plan} (hbarren : plan.Barren commands.length) :
    f ((Caller.attempts commands c).run fds plan) = 2 ^ commands.length * m := by
  induction commands generalizing plan with
  | nil =>
    rw [List.length_nil, pow_zero, Nat.one_mul]
    exact hc plan
  | cons command commands ih =>
    obtain ⟨hfork, hexecv, hcopies, hnexts⟩ := hbarren
    obtain ⟨hcommand, hcommands⟩ := List.forall_mem_cons.mp habs
    obtain ⟨answer, call, heq⟩ := doExec_of_barren hcommand hfork hexecv
      (fun _ => (Caller.attempts commands c).run) fds
    change f (doExec command (fun _ => (Caller.attempts commands c).run) fds plan) = _
    rw [heq, hcopy, copyOf, hnothing, ih hcommands hcopies, ih hcommands hnexts, List.length_cons,
      pow_succ]
    ring

/-- After `n` commands with an absolute path, all of which are forked and none of
which can be executed, what the program does next is done by `2 ^ n` processes;
and in no environment by more. -/
theorem failed_commands_double (commands : List Command) (text : Text) (ending : Ending)
    (fds : Fds) (plan : Plan) (habs : ∀ command ∈ commands, command.isAbsolute = true)
    (hbarren : plan.Barren commands.length) :
    ((Caller.attempts commands (.print text (.done ending))).run fds plan).events.count
        (.printed fds.stdout text) = 2 ^ commands.length ∧
      ((Caller.attempts commands (.print text (.done ending))).run fds plan).ends =
        2 ^ commands.length ∧
      ∀ plan', ((Caller.attempts commands (.print text (.done ending))).run fds plan').ends ≤
        2 ^ commands.length := by
  refine ⟨?_, ?_, fun plan' => ?_⟩
  · have h := @attempts_doubles (fun life => life.events.count (.printed fds.stdout text))
      (fun _ _ => rfl) (fun life call copy => by simp [copyEvents]) (.print text (.done ending)) fds
      1 (fun _ => by simp [Caller.run]) commands habs plan hbarren
    rwa [Nat.mul_one] at h
  · have h := @attempts_doubles Life.ends
      (fun life call => (Life.ends_after ..).trans (Nat.zero_add _))
      (fun life call copy => by rw [Life.ends_after, countP_copyEvents])
      (.print text (.done ending)) fds 1 (fun _ => rfl) commands habs plan hbarren
    rwa [Nat.mul_one] at h
  · refine (Caller.ends_le _ fds plan').trans_eq ?_
    rw [depth_attempts]
    exact congrArg _ (Nat.zero_add _)

def missing : List Command := [⟨[47, 97], []⟩, ⟨[47, 98], []⟩]

def missingPlan : Plan :=
  .call { execv := none } (.call { execv := none } .rest .rest)
    (.call { execv := none } .rest .rest)

/-- Two commands that do not exist, and the line after them four times. -/
theorem failed_commands_double_two :
    ((Caller.attempts missing (.print [104, 105] (.done (.exited 0)))).run
        [some [48], some [49], some [50]] missingPlan).events.count
      (.printed (some [49]) [104, 105]) = 4 :=
  (failed_commands_double missing [104, 105] (.exited 0) [some [48], some [49], some [50]]
    missingPlan (by decide)
    ⟨rfl, rfl, ⟨rfl, rfl, trivial, trivial⟩, ⟨rfl, rfl, trivial, trivial⟩⟩).1

/-! ## Descriptors -/

/-- What the life of a process does to its descriptors. -/
structure Spends (fds : Fds) (life : Life) : Prop where
  length_eq : life.fds.length = fds.length
  free_eq : life.fds.count none + life.calls.countP (fun call => call.redirect && call.forked) =
    fds.count none
  forked : ∀ call ∈ life.calls, call.executed.isSome = true → call.redirect = true →
    call.forked = true
  full : none ∉ fds → ∀ call ∈ life.calls, call.redirect = true →
    call.answer = false ∧ call.executed = none

theorem Spends.after {fds fds' : Fds} {life : Life} {call : Call} (h : Spends fds' life)
    (hkept : Kept fds fds' call) (events : List Event) : Spends fds (life.after call events) where
  length_eq := h.length_eq.trans hkept.length_eq
  free_eq := by
    rw [Life.after_calls, Life.after_fds, List.countP_cons, ← Nat.add_assoc, h.free_eq]
    exact hkept.free_eq
  forked := List.forall_mem_cons.mpr ⟨hkept.forked, h.forked⟩
  full := by
    intro hno
    have hzero := List.count_eq_zero_of_not_mem hno
    have hfree := hkept.free_eq
    refine List.forall_mem_cons.mpr ⟨fun hredirect => ⟨hkept.full hno hredirect, ?_⟩, ?_⟩
    · by_contra hran
      have hforked := hkept.forked (Option.isSome_iff_ne_none.mpr hran) hredirect
      simp [hredirect, hforked] at hfree
      omega
    · exact h.full (List.count_eq_zero.mp (by omega))

theorem Returns.spends {may : Bool} {rest : Rest} {fds : Fds} {plan : Plan} {life : Life}
    (h : Returns may rest fds plan life)
    (hrest : ∀ answer fds plan, Spends fds (rest answer fds plan)) : Spends fds life := by
  cases h with
  | plain _ hkept _ => exact (hrest _ _ _).after hkept _
  | copied _ _ _ _ hkept _ => exact (hrest _ _ _).after hkept _

theorem Caller.spends (c : Caller) (fds : Fds) (plan : Plan) : Spends fds (c.run fds plan) := by
  induction c generalizing fds plan with
  | done ending => exact ⟨rfl, rfl, by simp [run], by simp [run]⟩
  | print text next ih =>
    obtain ⟨hlength, hfree, hforked, hfull⟩ := ih fds plan
    exact ⟨hlength, hfree, hforked, hfull⟩
  | system cmd next ih => exact (doSystem_returns cmd _ fds plan).spends ih
  | exec command next ih => exact (doExec_returns command _ fds plan).spends ih
  | execRedirect outputfile command next ih =>
    exact (doExecRedirect_returns outputfile command _ fds plan).spends ih

/-- In every run of every program a redirected command takes one of the free
descriptors of its process and never gives it back: no more commands are
redirected than descriptors were free, and when there is none left every call of
`do_exec_redirect` answers false. -/
theorem descriptors_run_out (c : Caller) (fds : Fds) (plan : Plan) :
    (c.run fds plan).fds.count none +
        (c.run fds plan).calls.countP (fun call => call.redirect && call.forked) =
          fds.count none ∧
      (c.run fds plan).calls.countP (fun call => call.redirect && call.executed.isSome) ≤
        fds.count none ∧
      (none ∉ fds → ∀ call ∈ (c.run fds plan).calls, call.redirect = true →
        call.answer = false ∧ call.executed = none) := by
  obtain ⟨_, hfree, hforked, hfull⟩ := c.spends fds plan
  refine ⟨hfree, ?_, hfull⟩
  calc (c.run fds plan).calls.countP (fun call => call.redirect && call.executed.isSome)
      ≤ (c.run fds plan).calls.countP (fun call => call.redirect && call.forked) := by
        refine List.countP_mono_left fun call hmem h => ?_
        simp only [Bool.and_eq_true] at h ⊢
        exact ⟨h.1, hforked call hmem h.2 h.1⟩
    _ ≤ fds.count none := hfree ▸ Nat.le_add_left _ _

/-- One free descriptor, and three commands that could all be executed. -/
example : ((Caller.execRedirect [111] ⟨[47, 97], []⟩ fun _ =>
      .execRedirect [112] ⟨[47, 98], []⟩ fun _ => .exec ⟨[47, 99], []⟩ fun _ =>
        .done (.exited 0)).run [some [48], some [49], none] .rest).calls.map Call.answer =
    [true, false, true] := by
  decide

end Aesd.SystemCalls
