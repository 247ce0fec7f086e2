import Mathlib.Data.List.Induction
import Mathlib.Order.WellFounded

/-!
Runs of a transition system given by a partial step function. A label carries
everything the environment decides in a step, so a run is the list of its
labels and can be evaluated. `States` and `Steps` speak about every state a run
reaches and about every step it takes; the rules below prove them by induction
over the run, once for every system.
-/

namespace Aesd.Runs

variable {S L : Type*}

/-- Take the steps of a list of labels in order; `none` if one is not enabled. -/
def exec (next : S → L → Option S) : S → List L → Option S
  | s, [] => some s
  | s, l :: ls => (next s l).bind (exec next · ls)

/-- `P` holds in every state that the run of `ls` from `s` reaches. -/
def States (next : S → L → Option S) (P : S → Prop) : S → List L → Prop
  | s, [] => P s
  | s, l :: ls => P s ∧ ∀ t, next s l = some t → States next P t ls

/-- Every step that the run of `ls` from `s` takes meets `C`. -/
def Steps (next : S → L → Option S) (C : S → L → Prop) : S → List L → Prop
  | _, [] => True
  | s, l :: ls => ∀ t, next s l = some t → C s l ∧ Steps next C t ls

/-- Every step of the run of `ls` from `s` that comes after one that meets `M` meets `C`. -/
def After (next : S → L → Option S) (M C : S → L → Prop) : S → List L → Prop
  | _, [] => True
  | s, l :: ls => ∀ t, next s l = some t → (M s l → Steps next C t ls) ∧ After next M C t ls

/-- What the steps of a run put out, in order. -/
def outputs {O : Type*} (next : S → L → Option S) (out : S → L → List O) : S → List L → List O
  | _, [] => []
  | s, l :: ls => match next s l with
    | none => []
    | some t => out s l ++ outputs next out t ls

/-- The run of `ls` from `s` ends in a state without a step. -/
def Complete (next : S → L → Option S) (s : S) (ls : List L) : Prop :=
  ∃ t, exec next s ls = some t ∧ ∀ l, next t l = none

/-- No run from `s` goes on for ever. -/
def Finite (next : S → L → Option S) (s : S) : Prop :=
  ∀ run : ℕ → S, run 0 = s → ∃ n, ∀ l, next (run n) l ≠ some (run (n + 1))

variable {next : S → L → Option S}

@[simp] theorem exec_nil (s : S) : exec next s [] = some s := rfl

theorem exec_cons (s : S) (l : L) (ls : List L) :
    exec next s (l :: ls) = (next s l).bind (exec next · ls) := rfl

theorem exec_cons_eq_some {s s' : S} {l : L} {ls : List L} :
    exec next s (l :: ls) = some s' ↔ ∃ t, next s l = some t ∧ exec next t ls = some s' := by
  rw [exec_cons, Option.bind_eq_some_iff]

theorem exec_append (s : S) (ls ms : List L) :
    exec next s (ls ++ ms) = (exec next s ls).bind (exec next · ms) := by
  induction ls generalizing s with
  | nil => rfl
  | cons l ls ih =>
    cases h : next s l with
    | none => simp [exec_cons, h]
    | some t => simp [exec_cons, h, ih]

theorem exec_append_eq_some {s s' : S} {ls ms : List L} :
    exec next s (ls ++ ms) = some s' ↔
      ∃ t, exec next s ls = some t ∧ exec next t ms = some s' := by
  rw [exec_append, Option.bind_eq_some_iff]

theorem exec_concat_eq_some {s s' : S} {ls : List L} {l : L} :
    exec next s (ls ++ [l]) = some s' ↔
      ∃ t, exec next s ls = some t ∧ next t l = some s' := by
  simp [exec_append_eq_some, exec_cons]

/-- The invariant rule with history: what holds before the first step and is
kept by each step, given the labels so far, holds after every run. -/
theorem exec_history {Inv : List L → S → Prop} {s₀ : S} (hinit : Inv [] s₀)
    (hstep : ∀ ls s l s', Inv ls s → next s l = some s' → Inv (ls ++ [l]) s')
    {ls : List L} {s : S} (hrun : exec next s₀ ls = some s) : Inv ls s := by
  induction ls using List.reverseRecOn generalizing s with
  | nil =>
    cases hrun
    exact hinit
  | append_singleton ls l ih =>
    obtain ⟨t, hls, hl⟩ := exec_concat_eq_some.mp hrun
    exact hstep ls t l s (ih hls) hl

/-- The invariant rule for a property of states alone. -/
theorem exec_invariant {Inv : S → Prop} {s₀ : S} (hinit : Inv s₀)
    (hstep : ∀ s l s', Inv s → next s l = some s' → Inv s')
    {ls : List L} {s : S} (hrun : exec next s₀ ls = some s) : Inv s := by
  induction ls using List.reverseRecOn generalizing s with
  | nil =>
    cases hrun
    exact hinit
  | append_singleton ls l ih =>
    obtain ⟨t, hls, hl⟩ := exec_concat_eq_some.mp hrun
    exact hstep t l s (ih hls) hl

theorem States.head {P : S → Prop} {s : S} {ls : List L} (h : States next P s ls) : P s := by
  cases ls with
  | nil => exact h
  | cons l ls => exact h.1

/-- A property of every state of a run holds in the state the run ends in. -/
theorem States.last {P : S → Prop} {s s' : S} {ls : List L}
    (h : States next P s ls) (hrun : exec next s ls = some s') : P s' := by
  induction ls generalizing s with
  | nil =>
    cases hrun
    exact h
  | cons l ls ih =>
    obtain ⟨t, hl, hls⟩ := exec_cons_eq_some.mp hrun
    exact ih (h.2 t hl) hls

theorem States.left {P : S → Prop} {s : S} {ls ms : List L} (h : States next P s (ls ++ ms)) :
    States next P s ls := by
  induction ls generalizing s with
  | nil => exact h.head
  | cons l ls ih => exact ⟨h.1, fun t ht => ih (h.2 t ht)⟩

/-- A condition on the steps of a run can be evaluated along the run. -/
instance decidableSteps {C : S → L → Prop} [∀ s l, Decidable (C s l)] (s : S) :
    (ls : List L) → Decidable (Steps next C s ls)
  | [] => isTrue trivial
  | l :: ls =>
    match h : next s l with
    | none => isTrue fun t ht => by simp [h] at ht
    | some t =>
      have := decidableSteps (C := C) t ls
      decidable_of_iff (C s l ∧ Steps next C t ls)
        ⟨fun hC u hu => by rw [h] at hu; cases hu; exact hC, fun hC => hC t h⟩

theorem steps_cons_iff {C : S → L → Prop} {s t : S} {l : L} {ls : List L}
    (hl : next s l = some t) : Steps next C s (l :: ls) ↔ C s l ∧ Steps next C t ls := by
  constructor
  · exact fun h => h t hl
  · intro h u hu
    rw [hl] at hu
    cases hu
    exact h

theorem Steps.step {C : S → L → Prop} {s t u : S} {ls ms : List L} {l : L}
    (h : Steps next C s (ls ++ l :: ms)) (hrun : exec next s ls = some t)
    (hl : next t l = some u) : C t l := by
  induction ls generalizing s with
  | nil =>
    cases hrun
    exact (h u hl).1
  | cons k ls ih =>
    obtain ⟨v, hk, hls⟩ := exec_cons_eq_some.mp hrun
    exact ih (h v hk).2 hls

theorem Steps.left {C : S → L → Prop} {s : S} {ls ms : List L} (h : Steps next C s (ls ++ ms)) :
    Steps next C s ls := by
  induction ls generalizing s with
  | nil => trivial
  | cons l ls ih => exact fun t ht => ⟨(h t ht).1, ih (h t ht).2⟩

theorem Steps.append {C : S → L → Prop} {s t : S} {ls ms : List L} (h : Steps next C s ls)
    (hrun : exec next s ls = some t) (hrest : Steps next C t ms) : Steps next C s (ls ++ ms) := by
  induction ls generalizing s with
  | nil =>
    cases hrun
    exact hrest
  | cons l ls ih =>
    obtain ⟨u, hl, hls⟩ := exec_cons_eq_some.mp hrun
    intro v hv
    rw [hl] at hv
    cases hv
    exact ⟨(h u hl).1, ih (h u hl).2 hls⟩

/-- A condition on the labels alone is met if every label meets it. -/
theorem Steps.of_labels {C : L → Prop} {s : S} {ls : List L} (h : ∀ l ∈ ls, C l) :
    Steps next (fun _ l => C l) s ls := by
  induction ls generalizing s with
  | nil => trivial
  | cons l ls ih =>
    exact fun t _ => ⟨h l (List.mem_cons_self ..), ih fun k hk => h k (List.mem_cons_of_mem _ hk)⟩

/-- What an invariant says about the next step holds of every step. -/
theorem Steps.of_invariant {C : S → L → Prop} {Inv : S → Prop}
    (hstep : ∀ s l t, Inv s → next s l = some t → C s l ∧ Inv t) {s : S} (hs : Inv s)
    (ls : List L) : Steps next C s ls := by
  induction ls generalizing s with
  | nil => trivial
  | cons l ls ih =>
    intro t ht
    obtain ⟨hC, hinv⟩ := hstep s l t hs ht
    exact ⟨hC, ih hinv⟩

/-- Steps that meet `C` keep `Inv`, so every state of the run satisfies what `Inv` gives. -/
theorem Steps.states {C : S → L → Prop} {Inv P : S → Prop}
    (hstep : ∀ s l s', Inv s → C s l → next s l = some s' → Inv s')
    (hP : ∀ s, Inv s → P s) {s : S} {ls : List L}
    (hs : Inv s) (h : Steps next C s ls) : States next P s ls := by
  induction ls generalizing s with
  | nil => exact hP s hs
  | cons l ls ih =>
    refine ⟨hP s hs, fun t ht => ?_⟩
    obtain ⟨hC, hls⟩ := h t ht
    exact ih (hstep s l t hs hC ht) hls

/-- `P` holds along a run exactly when each step meets `C`, if `Inv` gives `P`,
`C` keeps `Inv`, and a step against `C` leads to a state without `P`. -/
theorem states_iff_steps {C : S → L → Prop} {Inv P : S → Prop} (hP : ∀ s, Inv s → P s)
    (hkeep : ∀ s l t, Inv s → next s l = some t → C s l → Inv t)
    (hneed : ∀ s l t, Inv s → next s l = some t → P t → C s l)
    {s : S} {ls : List L} (hs : Inv s) : States next P s ls ↔ Steps next C s ls := by
  constructor
  · intro h
    induction ls generalizing s with
    | nil => trivial
    | cons l ls ih =>
      intro t ht
      have hC := hneed s l t hs ht (h.2 t ht).head
      exact ⟨hC, ih (hkeep s l t hs ht hC) (h.2 t ht)⟩
  · exact Steps.states (fun s l t hs hC ht => hkeep s l t hs ht hC) hP hs

/-- A condition on the steps gives another one if an invariant that it keeps does. -/
theorem Steps.imp {C D : S → L → Prop} {Inv : S → Prop}
    (hstep : ∀ s l t, Inv s → C s l → next s l = some t → Inv t ∧ D s l)
    {s : S} {ls : List L} (hs : Inv s) (h : Steps next C s ls) : Steps next D s ls := by
  induction ls generalizing s with
  | nil => trivial
  | cons l ls ih =>
    intro t ht
    obtain ⟨hC, hls⟩ := h t ht
    obtain ⟨hinv, hD⟩ := hstep s l t hs hC ht
    exact ⟨hD, ih hinv hls⟩

theorem Steps.after {M C : S → L → Prop} {s : S} {ls : List L} (h : Steps next C s ls) :
    After next M C s ls := by
  induction ls generalizing s with
  | nil => trivial
  | cons l ls ih => exact fun t ht => ⟨fun _ => (h t ht).2, ih (h t ht).2⟩

/-- If each step that meets `C` puts out the first part of what was still to come,
a run of such steps puts out everything up to what is still to come at its end. -/
theorem Steps.outputs_append_rest {O : Type*} {out : S → L → List O} {C : S → L → Prop}
    {Inv : S → Prop} {rest : S → List O}
    (hstep : ∀ s l t, Inv s → C s l → next s l = some t → Inv t ∧ out s l ++ rest t = rest s)
    {s t : S} {ls : List L} (hs : Inv s) (h : Steps next C s ls) (hrun : exec next s ls = some t) :
    Inv t ∧ outputs next out s ls ++ rest t = rest s := by
  induction ls generalizing s with
  | nil =>
    cases hrun
    exact ⟨hs, rfl⟩
  | cons l ls ih =>
    obtain ⟨u, hl, hls⟩ := exec_cons_eq_some.mp hrun
    obtain ⟨hC, hmeet⟩ := h u hl
    obtain ⟨hu, hout⟩ := hstep s l u hs hC hl
    obtain ⟨ht, hrest⟩ := ih hu hmeet hls
    refine ⟨ht, ?_⟩
    rw [outputs, hl]
    dsimp only
    rw [List.append_assoc, hrest, hout]

theorem outputs_append_rest {O : Type*} {out : S → L → List O} {Inv : S → Prop} {rest : S → List O}
    (hstep : ∀ s l t, Inv s → next s l = some t → Inv t ∧ out s l ++ rest t = rest s)
    {s t : S} {ls : List L} (hs : Inv s) (hrun : exec next s ls = some t) :
    Inv t ∧ outputs next out s ls ++ rest t = rest s :=
  Steps.outputs_append_rest (fun s l t hi _ hl => hstep s l t hi hl) hs
    (@Steps.of_labels _ _ _ (fun _ => True) _ _ fun _ _ => trivial) hrun

theorem outputs_concat {O : Type*} {out : S → L → List O} {s t u : S} {ls : List L} {l : L}
    (hrun : exec next s ls = some t) (hl : next t l = some u) :
    outputs next out s (ls ++ [l]) = outputs next out s ls ++ out t l := by
  induction ls generalizing s with
  | nil =>
    cases hrun
    simp [outputs, hl]
  | cons k ls ih =>
    obtain ⟨v, hk, hls⟩ := exec_cons_eq_some.mp hrun
    rw [List.cons_append, outputs, outputs, hk]
    dsimp only
    rw [ih hls, List.append_assoc]

/-- The invariant rule with history for a run whose steps meet `C`. -/
theorem Steps.history {C : S → L → Prop} {Inv : List L → S → Prop} {s₀ : S} (hinit : Inv [] s₀)
    (hstep : ∀ ls s l t, exec next s₀ ls = some s → Inv ls s → C s l → next s l = some t →
      Inv (ls ++ [l]) t)
    {ls : List L} {s : S} (h : Steps next C s₀ ls) (hrun : exec next s₀ ls = some s) :
    Inv ls s := by
  induction ls using List.reverseRecOn generalizing s with
  | nil =>
    cases hrun
    exact hinit
  | append_singleton ls l ih =>
    obtain ⟨t, hls, hl⟩ := exec_concat_eq_some.mp hrun
    exact hstep ls t l s hls (ih h.left hls) (h.step hls hl) hl

/-- The labels of a run that are not to be dropped. -/
def kept (next : S → L → Option S) (drop : S → L → Bool) (s : S) (ls : List L) : List L :=
  outputs next (fun s l => if drop s l then [] else [l]) s ls

/-- If a dropped step leaves a state related to the one before it and every other
step can be taken by the related state with the same output, then the run can be
repeated without the dropped steps. -/
theorem Steps.simulate {O : Type*} {C : S → L → Prop} {R : S → S → Prop} {drop : S → L → Bool}
    {out : S → L → List O}
    (hdrop : ∀ s₀ s l t, R s₀ s → C s l → next s l = some t → drop s l = true → R s₀ t)
    (hkeep : ∀ s₀ s l t, R s₀ s → C s l → next s l = some t → drop s l = false →
      out s₀ l = out s l ∧ ∃ t₀, next s₀ l = some t₀ ∧ R t₀ t)
    {s₀ s t : S} {ls : List L} (hR : R s₀ s) (h : Steps next C s ls)
    (hrun : exec next s ls = some t) :
    outputs next out s₀ (kept next drop s ls) =
        outputs next (fun s l => if drop s l then [] else out s l) s ls ∧
      ∃ t₀, exec next s₀ (kept next drop s ls) = some t₀ ∧ R t₀ t := by
  induction ls generalizing s₀ s with
  | nil =>
    cases hrun
    exact ⟨rfl, s₀, rfl, hR⟩
  | cons l ls ih =>
    obtain ⟨u, hl, hls⟩ := exec_cons_eq_some.mp hrun
    obtain ⟨hC, hrest⟩ := h u hl
    unfold kept
    rw [outputs, outputs, hl]
    cases hd : drop s l with
    | true => exact ih (hdrop s₀ s l u hR hC hl hd) hrest hls
    | false =>
      obtain ⟨hout, u₀, hl₀, hRu⟩ := hkeep s₀ s l u hR hC hl hd
      obtain ⟨houts, t₀, hrun₀, hRt⟩ := ih hRu hrest hls
      refine ⟨?_, t₀, exec_cons_eq_some.mpr ⟨u₀, hl₀, hrun₀⟩, hRt⟩
      change outputs next out s₀ (l :: kept next drop u ls) = _
      rw [outputs, hl₀]
      dsimp only
      rw [houts, hout]
      rfl

/-- Two systems over the same labels: if every step of the one that meets `C` can
be taken by a related state of the other with the same output, then so can every
run of such steps. -/
theorem Steps.refines {T O : Type*} {next' : T → L → Option T} {C : S → L → Prop}
    {R : S → T → Prop} {out : S → L → List O} {out' : T → L → List O}
    (hstep : ∀ s t l u, R s t → C s l → next s l = some u →
      out' t l = out s l ∧ ∃ v, next' t l = some v ∧ R u v)
    {s u : S} {t : T} {ls : List L} (hR : R s t) (h : Steps next C s ls)
    (hrun : exec next s ls = some u) :
    outputs next' out' t ls = outputs next out s ls ∧
      ∃ v, exec next' t ls = some v ∧ R u v := by
  induction ls generalizing s t with
  | nil =>
    cases hrun
    exact ⟨rfl, t, rfl, hR⟩
  | cons l ls ih =>
    obtain ⟨w, hl, hls⟩ := exec_cons_eq_some.mp hrun
    obtain ⟨hC, hrest⟩ := h w hl
    obtain ⟨hout, x, hx, hRx⟩ := hstep s t l w hR hC hl
    obtain ⟨houts, v, hv, hRv⟩ := ih hRx hrest hls
    refine ⟨?_, v, exec_cons_eq_some.mpr ⟨x, hx, hv⟩, hRv⟩
    rw [outputs, outputs, hx, hl]
    dsimp only
    rw [hout, houts]

/-- A system and a part of it, with the labels of the part in `out`: if every step
that meets `C` is one that the part can follow, then so is every run of such steps. -/
theorem Steps.project {T M : Type*} {next' : T → M → Option T} {C : S → L → Prop} {R : S → T → Prop}
    {out : L → List M}
    (hstep : ∀ s t l u, R s t → C s l → next s l = some u →
      ∃ v, exec next' t (out l) = some v ∧ R u v)
    {s u : S} {t : T} {ls : List L} (hR : R s t) (h : Steps next C s ls)
    (hrun : exec next s ls = some u) : ∃ v, exec next' t (ls.flatMap out) = some v ∧ R u v := by
  induction ls generalizing s t with
  | nil =>
    cases hrun
    exact ⟨t, rfl, hR⟩
  | cons l ls ih =>
    obtain ⟨w, hl, hls⟩ := exec_cons_eq_some.mp hrun
    obtain ⟨hC, hrest⟩ := h w hl
    obtain ⟨x, hx, hRx⟩ := hstep s t l w hR hC hl
    obtain ⟨v, hv, hRv⟩ := ih hRx hrest hls
    exact ⟨v, exec_append_eq_some.mpr ⟨x, hx, hv⟩, hRv⟩

/-- The other way: if every step of the part can be taken by the system, as a step
that meets `C`, then so can every run of the part. -/
theorem Steps.realize {T M : Type*} {next' : T → M → Option T} {C : S → L → Prop} {D : M → Prop}
    {R : T → S → Prop} {into : M → L}
    (hstep : ∀ t s m u, R t s → D m → next' t m = some u →
      ∃ v, next s (into m) = some v ∧ C s (into m) ∧ R u v)
    {t u : T} {s : S} {ms : List M} (hR : R t s) (hD : ∀ m ∈ ms, D m)
    (hrun : exec next' t ms = some u) :
    ∃ v, exec next s (ms.map into) = some v ∧ Steps next C s (ms.map into) ∧ R u v := by
  induction ms generalizing t s with
  | nil =>
    cases hrun
    exact ⟨s, rfl, trivial, hR⟩
  | cons m ms ih =>
    obtain ⟨w, hm, hms⟩ := exec_cons_eq_some.mp hrun
    obtain ⟨x, hx, hC, hRx⟩ := hstep t s m w hR (hD m (List.mem_cons_self ..)) hm
    obtain ⟨v, hv, hsteps, hRv⟩ := ih hRx (fun k hk => hD k (List.mem_cons_of_mem _ hk)) hms
    refine ⟨v, exec_cons_eq_some.mpr ⟨x, hx, hv⟩, fun y hy => ?_, hRv⟩
    rw [hx] at hy
    cases hy
    exact ⟨hC, hsteps⟩

/-- Steps that descend in a well-founded order come to an end. -/
theorem finite_of_descends {Inv : S → Prop} {r : S → S → Prop} (hwf : WellFounded r)
    (hstep : ∀ s l t, Inv s → next s l = some t → Inv t ∧ r t s) {s : S} (hs : Inv s) :
    Finite next s := by
  rintro run rfl
  by_contra hall
  have hnext : ∀ n, ∃ l, next (run n) l = some (run (n + 1)) := by simpa using hall
  have hinv : ∀ n, Inv (run n) := by
    intro n
    induction n with
    | zero => exact hs
    | succ n ih =>
      obtain ⟨l, hl⟩ := hnext n
      exact (hstep _ l _ ih hl).1
  have : IsWellFounded S r := ⟨hwf⟩
  obtain ⟨n, hn⟩ := WellFounded.not_rel_apply_succ (r := r) run
  obtain ⟨l, hl⟩ := hnext n
  exact hn (hstep _ l _ (hinv n) hl).2

end Aesd.Runs
