import Mathlib.Logic.Relation

/-!
# Reachability of guarded step functions

A system is a partial step function `step : S → L → Option S`: a label names who moves and
what the environment answers, and `none` says the move is not possible. `Reach step ok s t`
says that `t` is reached from `s` by steps each of which meets the guard `ok` **in the state
before it**; with the trivial guard this is plain reachability. The guard is how a theorem says
"in every run whose steps all meet the condition".

* **`Reach.inv`** — the induction every safety theorem goes through: an invariant that holds
  initially and is kept by every guarded step holds in every state reached.
* **`reach_final`** — progress under a measure: a final state can be reached.
* **`Terminates`** — no run goes on for ever.
* **`exec`** — the executable counterpart, a list of labels run from a state under a decidable
  check; `reach_of_exec` turns a computed run into reachability, which is how concrete runs are
  exhibited, and `exec_inv` is the invariant induction for it.
-/

namespace Lts

variable {S L : Type*}

/-- `t` is reached from `s` by steps that each meet `ok` in the state they start from. -/
inductive Reach (step : S → L → Option S) (ok : S → L → Prop) (s : S) : S → Prop where
  | refl : Reach step ok s s
  | tail {t u : S} {l : L} (h : Reach step ok s t) (hok : ok t l) (hstep : step t l = some u) :
      Reach step ok s u

variable {step : S → L → Option S} {ok : S → L → Prop} {s t u : S}

theorem Reach.single {l : L} (hok : ok s l) (hstep : step s l = some t) : Reach step ok s t :=
  .tail .refl hok hstep

/-- Runs one after the other. -/
theorem Reach.trans (h1 : Reach step ok s t) (h2 : Reach step ok t u) : Reach step ok s u := by
  induction h2 with
  | refl => exact h1
  | tail _ hok hstep ih => exact .tail ih hok hstep

/-- Prepending a step to a run. -/
theorem Reach.head {l : L} (hok : ok s l) (hstep : step s l = some t) (h : Reach step ok t u) :
    Reach step ok s u :=
  (Reach.single hok hstep).trans h

/-- **Invariant induction.** What holds initially and is kept by every guarded step holds in
every state reached. -/
theorem Reach.inv {I : S → Prop} (h : Reach step ok s t) (hinit : I s)
    (hkeep : ∀ t l u, I t → ok t l → step t l = some u → I u) : I t := by
  induction h with
  | refl => exact hinit
  | tail _ hok hstep ih => exact hkeep _ _ _ ih hok hstep

/-- **Progress.** If from every state of the invariant that is not final some guarded step keeps the
invariant and makes the measure smaller, a final state can be reached. -/
theorem reach_final {I final : S → Prop} (μ : S → Nat)
    (hprogress : ∀ s, I s → ¬ final s → ∃ l t, ok s l ∧ step s l = some t ∧ I t ∧ μ t < μ s)
    (h : I s) : ∃ t, Reach step ok s t ∧ final t := by
  induction hm : μ s using Nat.strongRecOn generalizing s with
  | ind m ih =>
    subst hm
    by_cases hfinal : final s
    · exact ⟨s, .refl, hfinal⟩
    · obtain ⟨l, t, hok, hstep, ht, hlt⟩ := hprogress s h hfinal
      obtain ⟨u, hreach, hu⟩ := ih (μ t) hlt ht rfl
      exact ⟨u, .head hok hstep hreach, hu⟩

/-! ## Termination

A run that goes on for ever is a descending chain for the converse of the step relation, so that a
system terminates from the accessible states. A measure shows it; an invariant from which one can
always go on shows the contrary. -/

/-- No run of guarded steps from `s` goes on for ever. -/
def Terminates (step : S → L → Option S) (ok : S → L → Prop) (s : S) : Prop :=
  Acc (fun t s => ∃ l, ok s l ∧ step s l = some t) s

/-- A measure that every guarded step makes smaller, as long as the invariant holds. -/
theorem terminates_of_measure {I : S → Prop} (μ : S → Nat)
    (hstep : ∀ s l t, I s → ok s l → step s l = some t → I t ∧ μ t < μ s) (h : I s) :
    Terminates step ok s := by
  induction hm : μ s using Nat.strongRecOn generalizing s with
  | ind m ih =>
    subst hm
    refine Acc.intro s fun t ⟨l, hok, ht⟩ => ?_
    obtain ⟨hI, hlt⟩ := hstep s l t h hok ht
    exact ih (μ t) hlt hI rfl

/-- The same for a measure that is not read off the state alone: some measure of the state after the
step is smaller. -/
theorem terminates_of_rank {I : S → Nat → Prop}
    (hstep : ∀ s l t m, I s m → ok s l → step s l = some t → ∃ m', m' < m ∧ I t m') {m : Nat}
    (h : I s m) : Terminates step ok s := by
  induction m using Nat.strongRecOn generalizing s with
  | ind m ih =>
    refine Acc.intro s ?_
    rintro t ⟨l, hok, ht⟩
    obtain ⟨m', hlt, hm'⟩ := hstep s l t m h hok ht
    exact ih m' hlt hm'

/-- Two measures: every guarded step makes the first smaller, or the second and leaves the first. -/
theorem terminates_of_lex {I : S → Prop} (μ ν : S → Nat)
    (hstep : ∀ s l t, I s → ok s l → step s l = some t →
      I t ∧ (μ t < μ s ∨ μ t = μ s ∧ ν t < ν s)) (h : I s) : Terminates step ok s := by
  induction hm : μ s using Nat.strongRecOn generalizing s with
  | ind m ih =>
    induction hn : ν s using Nat.strongRecOn generalizing s with
    | ind n ih' =>
      refine Acc.intro s ?_
      rintro t ⟨l, hok, ht⟩
      obtain ⟨hI, hlt | ⟨heq, hlt⟩⟩ := hstep s l t h hok ht
      · exact ih (μ t) (hm ▸ hlt) hI rfl
      · exact ih' (ν t) (hn ▸ hlt) hI (heq.trans hm) rfl

/-- A run goes on for ever when there is always a step to a state from which it can go on. -/
theorem not_terminates {I : S → Prop}
    (hstep : ∀ s, I s → ∃ l t, ok s l ∧ step s l = some t ∧ I t) (h : I s) :
    ¬ Terminates step ok s := by
  intro hterm
  induction hterm with
  | intro s _ ih =>
    obtain ⟨l, t, hok, hs, ht⟩ := hstep s h
    exact ih t ⟨l, hok, hs⟩ ht

/-- A system that terminates and stops nowhere else reaches a final state. -/
theorem Terminates.reach_final {final : S → Prop} (h : Terminates step ok s)
    (hprogress : ∀ t, Reach step ok s t → final t ∨ ∃ l u, ok t l ∧ step t l = some u) :
    ∃ t, Reach step ok s t ∧ final t := by
  induction h with
  | intro s _ ih =>
    rcases hprogress s .refl with hfinal | ⟨l, t, hok, hstep⟩
    · exact ⟨s, .refl, hfinal⟩
    · obtain ⟨u, hreach, hu⟩ := ih t ⟨l, hok, hstep⟩ fun v hv => hprogress v (.head hok hstep hv)
      exact ⟨u, .head hok hstep hreach, hu⟩

/-! ## Computed runs

To exhibit a run it is computed from its labels. The check decides the guard, so the result of the
computation is a state that is reached under it. -/

/-- Run the labels in order, giving up at the first one that does not pass the check. -/
def exec (step : S → L → Option S) (check : S → L → Bool) : S → List L → Option S
  | s, [] => some s
  | s, l :: ls => if check s l then (step s l).bind fun t => exec step check t ls else none

/-- The first step of a computed run. -/
theorem exec_cons {check : S → L → Bool} {l : L} {ls : List L}
    (h : exec step check s (l :: ls) = some u) :
    check s l = true ∧ ∃ t, step s l = some t ∧ exec step check t ls = some u := by
  simp only [exec, Option.ite_none_right_eq_some] at h
  exact ⟨h.1, Option.bind_eq_some_iff.mp h.2⟩

/-- A run in two parts. -/
theorem exec_append {check : S → L → Bool} (s : S) (ls ms : List L) :
    exec step check s (ls ++ ms) =
      (exec step check s ls).bind fun t => exec step check t ms := by
  induction ls generalizing s with
  | nil => rfl
  | cons l ls ih =>
    simp only [List.cons_append, exec]
    split
    · simp only [ih, Option.bind_assoc]
    · rfl

/-- Invariant induction along a computed run, with the labels it is made of. -/
theorem exec_inv {check : S → L → Bool} {I : S → Prop} {ls : List L}
    (hrun : exec step check s ls = some t) (hinit : I s)
    (hkeep : ∀ t u, ∀ l ∈ ls, I t → step t l = some u → I u) : I t := by
  induction ls generalizing s with
  | nil =>
    cases hrun
    exact hinit
  | cons l ls ih =>
    obtain ⟨-, m, hstep, htail⟩ := exec_cons hrun
    refine ih htail (hkeep s m l List.mem_cons_self hinit hstep) fun t u l' hl' => ?_
    exact hkeep t u l' (List.mem_cons_of_mem l hl')

/-- A computed run is reachability under any guard the check decides. -/
theorem reach_of_exec {check : S → L → Bool} {ls : List L} (hrun : exec step check s ls = some t)
    (hcheck : ∀ s l, check s l = true → ok s l) : Reach step ok s t := by
  induction ls generalizing s with
  | nil =>
    cases hrun
    exact .refl
  | cons l ls ih =>
    obtain ⟨hok, m, hstep, htail⟩ := exec_cons hrun
    exact .head (hcheck _ _ hok) hstep (ih htail)

/-- A computed run, observed through `f` at its end. -/
theorem reach_of_exec_map {check : S → L → Bool} {ls : List L} {T : Type*} {f : S → T} {x : T}
    (hrun : (exec step check s ls).map f = some x)
    (hcheck : ∀ s l, check s l = true → ok s l) : ∃ t, Reach step ok s t ∧ f t = x := by
  obtain ⟨t, ht, hf⟩ := Option.map_eq_some_iff.mp hrun
  exact ⟨t, reach_of_exec ht hcheck, hf⟩

end Lts
