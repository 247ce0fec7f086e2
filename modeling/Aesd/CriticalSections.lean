import Aesd.Runs
import Mathlib.Logic.Function.Basic

/-!
Operations on a shared state under one lock, in small steps. An operation may
come back before it has the lock; otherwise it takes the lock, works on the
shared state step by step while operations of other threads arrive, wait and
come back, and leaves with a result. Whatever the interleaving, the results and
the shared state are those of the same operations carried out one after another
in the order in which they come back. An operation that leaves without giving
the lock back is covered: after it nothing enters.
-/

namespace Aesd.CriticalSections

open Runs

/-- A step of an operation that holds the lock. -/
inductive Micro (L S O : Type*)
  | goOn (l : L) (s : S)
  | leave (result : O) (s : S)

/-- Operations `C` with local variables `L` on a shared state `S` that includes
the lock. `early` is the result of an operation that comes back without it. -/
structure Object (C L S O : Type*) where
  free : S → Bool
  take : S → S
  mayEnter : C → Bool
  early : C → O
  start : C → L
  body : L → S → Micro L S O

variable {C L S O : Type*}

/-- The small steps from `l` and `s` on, with nothing in between, end like this. -/
inductive Leads (body : L → S → Micro L S O) : L → S → O × S → Prop
  | leave {l : L} {s t : S} {result : O} (h : body l s = .leave result t) :
      Leads body l s (result, t)
  | goOn {l l' : L} {s t : S} {r : O × S} (h : body l s = .goOn l' t)
      (hrest : Leads body l' t r) : Leads body l s r

theorem Leads.of_goOn {body : L → S → Micro L S O} {l l' : L} {s t : S} {r : O × S}
    (h : Leads body l s r) (hbody : body l s = .goOn l' t) : Leads body l' t r := by
  cases h with
  | leave h =>
    rw [hbody] at h
    cases h
  | goOn h hrest =>
    rw [hbody] at h
    cases h
    exact hrest

theorem Leads.of_leave {body : L → S → Micro L S O} {l : L} {s t : S} {r : O × S} {result : O}
    (h : Leads body l s r) (hbody : body l s = .leave result t) : r = (result, t) := by
  cases h with
  | leave h =>
    rw [hbody] at h
    cases h
    rfl
  | goOn h =>
    rw [hbody] at h
    cases h

/-- `whole` does at once what the small steps do, and the lock stays held on the way. -/
structure Realizes (obj : Object C L S O) (whole : C → S → O × S) : Prop where
  leads : ∀ c s, obj.mayEnter c = true → obj.free s = true →
    Leads obj.body (obj.start c) (obj.take s) (whole c s)
  taken : ∀ s, obj.free s = true → obj.free (obj.take s) = false
  held : ∀ l s l' t, obj.free s = false → obj.body l s = .goOn l' t → obj.free t = false

inductive Stage (C L : Type*)
  | idle
  | waiting (c : C)
  | inside (c : C) (l : L)

structure Threads (C L S : Type*) where
  stage : ℕ → Stage C L
  shared : S

inductive Label (C : Type*)
  | arrive (i : ℕ) (c : C)
  | comeBack (i : ℕ)
  | enter (i : ℕ)
  | step (i : ℕ)

/-- An operation that has come back: whose it was, whether it had the lock, and
its result. -/
structure Entry (C O : Type*) where
  thread : ℕ
  op : C
  entered : Bool
  result : O

namespace Threads

def init (s : S) : Threads C L S where
  stage _ := .idle
  shared := s

def set (t : Threads C L S) (i : ℕ) (stage : Stage C L) (s : S) : Threads C L S where
  stage := Function.update t.stage i stage
  shared := s

@[simp] theorem set_shared (t : Threads C L S) (i : ℕ) (stage : Stage C L) (s : S) :
    (t.set i stage s).shared = s := rfl

@[simp] theorem set_stage_self (t : Threads C L S) (i : ℕ) (stage : Stage C L) (s : S) :
    (t.set i stage s).stage i = stage := by simp [set]

theorem set_stage_of_ne (t : Threads C L S) {i j : ℕ} (h : j ≠ i) (stage : Stage C L) (s : S) :
    (t.set i stage s).stage j = t.stage j := by simp [set, h]

def Inside (t : Threads C L S) (i : ℕ) : Prop := ∃ c l, t.stage i = .inside c l

variable (obj : Object C L S O)

def next (t : Threads C L S) : Label C → Option (Threads C L S)
  | .arrive i c => match t.stage i with
    | .idle => some (t.set i (.waiting c) t.shared)
    | _ => none
  | .comeBack i => match t.stage i with
    | .waiting _ => some (t.set i .idle t.shared)
    | _ => none
  | .enter i => match t.stage i with
    | .waiting c =>
      if obj.mayEnter c = true ∧ obj.free t.shared = true then
        some (t.set i (.inside c (obj.start c)) (obj.take t.shared))
      else none
    | _ => none
  | .step i => match t.stage i with
    | .inside c l => match obj.body l t.shared with
      | .goOn l' s => some (t.set i (.inside c l') s)
      | .leave _ s => some (t.set i .idle s)
    | _ => none

/-- The operation that comes back with a step, if one does. -/
def back (t : Threads C L S) : Label C → List (Entry C O)
  | .comeBack i => match t.stage i with
    | .waiting c => [⟨i, c, false, obj.early c⟩]
    | _ => []
  | .step i => match t.stage i with
    | .inside c l => match obj.body l t.shared with
      | .leave result _ => [⟨i, c, true, result⟩]
      | .goOn _ _ => []
    | _ => []
  | _ => []

/-- What a step can be. -/
inductive Moves (t : Threads C L S) : Label C → Threads C L S → List (Entry C O) → Prop
  | arrive {i : ℕ} {c : C} (hidle : t.stage i = .idle) :
      Moves t (.arrive i c) (t.set i (.waiting c) t.shared) []
  | comeBack {i : ℕ} {c : C} (hwait : t.stage i = .waiting c) :
      Moves t (.comeBack i) (t.set i .idle t.shared) [⟨i, c, false, obj.early c⟩]
  | enter {i : ℕ} {c : C} (hwait : t.stage i = .waiting c) (hmay : obj.mayEnter c = true)
      (hfree : obj.free t.shared = true) :
      Moves t (.enter i) (t.set i (.inside c (obj.start c)) (obj.take t.shared)) []
  | goOn {i : ℕ} {c : C} {l l' : L} {s : S} (hin : t.stage i = .inside c l)
      (hbody : obj.body l t.shared = .goOn l' s) :
      Moves t (.step i) (t.set i (.inside c l') s) []
  | leave {i : ℕ} {c : C} {l : L} {s : S} {result : O} (hin : t.stage i = .inside c l)
      (hbody : obj.body l t.shared = .leave result s) :
      Moves t (.step i) (t.set i .idle s) [⟨i, c, true, result⟩]

variable {obj}

theorem next_moves {t u : Threads C L S} {l : Label C} (h : t.next obj l = some u) :
    Moves obj t l u (t.back obj l) := by
  cases l with
  | arrive i c =>
    cases hs : t.stage i with
    | idle =>
      obtain rfl : t.set i (.waiting c) t.shared = u := by simpa [next, hs] using h
      exact Moves.arrive hs
    | waiting => simp [next, hs] at h
    | inside => simp [next, hs] at h
  | comeBack i =>
    cases hs : t.stage i with
    | waiting c =>
      obtain rfl : t.set i .idle t.shared = u := by simpa [next, hs] using h
      simpa [back, hs] using Moves.comeBack hs
    | idle => simp [next, hs] at h
    | inside => simp [next, hs] at h
  | enter i =>
    cases hs : t.stage i with
    | waiting c =>
      simp only [next, hs] at h
      obtain ⟨⟨hmay, hfree⟩, hu⟩ := Option.ite_none_right_eq_some.mp h
      cases hu
      exact Moves.enter hs hmay hfree
    | idle => simp [next, hs] at h
    | inside => simp [next, hs] at h
  | step i =>
    cases hs : t.stage i with
    | inside c l =>
      cases hbody : obj.body l t.shared with
      | goOn l' s =>
        obtain rfl : t.set i (.inside c l') s = u := by simpa [next, hs, hbody] using h
        simpa [back, hs, hbody] using Moves.goOn hs hbody
      | leave result s =>
        obtain rfl : t.set i .idle s = u := by simpa [next, hs, hbody] using h
        simpa [back, hs, hbody] using Moves.leave hs hbody
    | idle => simp [next, hs] at h
    | waiting => simp [next, hs] at h

end Threads

section Serial

variable (obj : Object C L S O) (whole : C → S → O × S)

/-- One operation at a time: with the lock, or back before it. -/
def serve (s : S) (e : C × Bool) : O × S := if e.2 then whole e.1 s else (obj.early e.1, s)

def serially (s : S) (e : C × Bool) : Option S := some (serve obj whole s e).2

def served (s : S) (e : C × Bool) : List O := [(serve obj whole s e).1]

/-- The operations of a log without their results. -/
def turns (log : List (Entry C O)) : List (C × Bool) := log.map fun e => (e.op, e.entered)

/-- `s` is where the operations that have come back lead. The shared state is
`s`, or the one operation inside is on its way from there. -/
structure Current (s : S) (t : Threads C L S) : Prop where
  quiet : (∀ i, ¬ t.Inside i) → t.shared = s
  underway : ∀ i c l, t.stage i = .inside c l →
    obj.free t.shared = false ∧ Leads obj.body l t.shared (whole c s)
  alone : ∀ i j, t.Inside i → t.Inside j → i = j

variable {obj whole} {s : S} {t u : Threads C L S}

/-- While an operation is inside, nothing else is. -/
theorem Current.not_inside_of_free (h : Current obj whole s t) (hfree : obj.free t.shared = true)
    (i : ℕ) : ¬ t.Inside i := by
  rintro ⟨c, l, hin⟩
  rw [(h.underway i c l hin).1] at hfree
  cases hfree

/-- A thread that was outside and stays outside. -/
theorem Current.set_outside (h : Current obj whole s t) {i : ℕ} {stage : Stage C L}
    (hout : ¬ t.Inside i) (hstage : ∀ c l, stage ≠ .inside c l) :
    Current obj whole s (t.set i stage t.shared) := by
  have hinside : ∀ j, (t.set i stage t.shared).Inside j ↔ t.Inside j := by
    intro j
    by_cases hj : j = i
    · subst hj
      simp [Threads.Inside, hstage] at hout ⊢
      exact hout
    · simp [Threads.Inside, Threads.set_stage_of_ne t hj]
  refine ⟨fun hq => h.quiet fun j hj => hq j ((hinside j).mpr hj), ?_, ?_⟩
  · intro j c l hj
    by_cases hji : j = i
    · subst hji
      rw [Threads.set_stage_self] at hj
      exact absurd hj (hstage c l)
    · rw [Threads.set_stage_of_ne t hji] at hj
      exact h.underway j c l hj
  · intro j k hj hk
    exact h.alone j k ((hinside j).mp hj) ((hinside k).mp hk)

/-- The one thread that is inside after the step. -/
theorem current_of_inside {i : ℕ} {c : C} {l : L} {s' : S} (hothers : ∀ j, j ≠ i → ¬ t.Inside j)
    (hheld : obj.free s' = false) (hleads : Leads obj.body l s' (whole c s)) :
    Current obj whole s (t.set i (.inside c l) s') := by
  have honly : ∀ j, (t.set i (.inside c l) s').Inside j → j = i := by
    intro j hj
    by_contra hji
    apply hothers j hji
    simpa [Threads.Inside, Threads.set_stage_of_ne t hji] using hj
  refine ⟨fun hq => absurd ⟨c, l, Threads.set_stage_self ..⟩ (hq i), ?_, ?_⟩
  · intro j c' l' hj
    obtain rfl := honly j ⟨c', l', hj⟩
    rw [Threads.set_stage_self] at hj
    cases hj
    exact ⟨hheld, hleads⟩
  · intro j k hj hk
    rw [honly j hj, honly k hk]

/-- One step: the operations that come back with it lead from `s` to where the
new state stands, with the results they report. -/
theorem Current.move (hreal : Realizes obj whole) (h : Current obj whole s t) {l : Label C}
    {log : List (Entry C O)} (hmove : Threads.Moves obj t l u log) :
    ∃ s', exec (serially obj whole) s (turns log) = some s' ∧
      outputs (serially obj whole) (served obj whole) s (turns log) = log.map Entry.result ∧
      Current obj whole s' u := by
  cases hmove with
  | arrive hidle =>
    refine ⟨s, rfl, rfl, h.set_outside ?_ (by simp)⟩
    simp [Threads.Inside, hidle]
  | comeBack hwait =>
    refine ⟨s, rfl, rfl, h.set_outside ?_ (by simp)⟩
    simp [Threads.Inside, hwait]
  | @enter i c hwait hmay hfree =>
    have hnone := h.not_inside_of_free hfree
    have hs := h.quiet hnone
    refine ⟨s, rfl, rfl, current_of_inside (fun j _ => hnone j) (hreal.taken _ hfree) ?_⟩
    rw [hs] at hfree ⊢
    exact hreal.leads c s hmay hfree
  | @goOn i c l l' s' hin hbody =>
    obtain ⟨hheld, hleads⟩ := h.underway i c l hin
    refine ⟨s, rfl, rfl, current_of_inside (fun j hj hjin => hj (h.alone j i hjin ⟨c, l, hin⟩))
      (hreal.held _ _ _ _ hheld hbody) (hleads.of_goOn hbody)⟩
  | @leave i c l s' result hin hbody =>
    obtain ⟨_, hleads⟩ := h.underway i c l hin
    have hwhole := hleads.of_leave hbody
    have hnone : ∀ j, ¬ (t.set i .idle s').Inside j := by
      intro j hj
      by_cases hji : j = i
      · subst hji
        simp [Threads.Inside] at hj
      · rw [Threads.Inside, Threads.set_stage_of_ne t hji] at hj
        exact hji (h.alone j i hj ⟨c, l, hin⟩)
    refine ⟨s', ?_, ?_, fun _ => rfl, fun j c l hj => absurd ⟨c, l, hj⟩ (hnone j),
      fun j _ hj => absurd hj (hnone j)⟩
    · simp [turns, exec_cons, serially, serve, hwhole]
    · simp [turns, outputs, serially, served, serve, hwhole]

end Serial

end Aesd.CriticalSections
