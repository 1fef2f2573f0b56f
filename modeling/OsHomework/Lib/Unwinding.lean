import OsHomework.Lib.Reach

/-!
# Unwinding — what a part of a system sees of the rest

`project s l` is what a step shows to some part of the system, `none` if the step does not concern
it; `observe s l` is what the part gets to see at a step that does. Two runs with the same visible
events need not have the same length or the same states. An unwinding relation is one that hidden
steps keep on either side, and that steps with the same event keep together and with the same
observation.

* **`Unwinding.observations_eq`** — two runs from related states with the same events have the same
  observations.
-/

namespace Lts

variable {S L E O : Type*}

section

variable (step : S → L → Option S) (project : S → L → Option E) (observe : S → L → O)

/-- The visible events of a run. -/
def events : S → List L → List E
  | _, [] => []
  | s, l :: ls => (project s l).toList ++ (step s l).elim [] fun t => events t ls

/-- What is observed at the visible steps of a run. -/
def observations : S → List L → List O
  | _, [] => []
  | s, l :: ls =>
    (if (project s l).isSome then [observe s l] else []) ++
      (step s l).elim [] fun t => observations t ls

structure Unwinding (R : S → S → Prop) : Prop where
  left : ∀ {s s' t l}, R s t → project s l = none → step s l = some s' → R s' t
  right : ∀ {s t t' m}, R s t → project t m = none → step t m = some t' → R s t'
  both : ∀ {s s' t t' l m e}, R s t → project s l = some e → project t m = some e →
    step s l = some s' → step t m = some t' → observe s l = observe t m ∧ R s' t'

end

variable {step : S → L → Option S} {project : S → L → Option E} {observe : S → L → O}
  {s t u : S} {l : L} {ls ms : List L} {e : E}

theorem events_hidden (hproject : project s l = none) (hstep : step s l = some t) :
    events step project s (l :: ls) = events step project t ls := by
  simp [events, hproject, hstep]

theorem events_visible (hproject : project s l = some e) (hstep : step s l = some t) :
    events step project s (l :: ls) = e :: events step project t ls := by
  simp [events, hproject, hstep]

theorem observations_hidden (hproject : project s l = none) (hstep : step s l = some t) :
    observations step project observe s (l :: ls) = observations step project observe t ls := by
  simp [observations, hproject, hstep]

theorem observations_visible (hproject : project s l = some e) (hstep : step s l = some t) :
    observations step project observe s (l :: ls) =
      observe s l :: observations step project observe t ls := by
  simp [observations, hproject, hstep]

variable {check : S → L → Bool} {R : S → S → Prop} {v : S}

/-- A run whose steps are all hidden has nothing to observe. -/
theorem observations_eq_nil (hrun : exec step check s ls = some u)
    (hevents : events step project s ls = []) : observations step project observe s ls = [] := by
  induction ls generalizing s with
  | nil => rfl
  | cons l ls ih =>
    obtain ⟨-, t, hstep, hrest⟩ := exec_cons hrun
    cases hproject : project s l with
    | none =>
      rw [events_hidden hproject hstep] at hevents
      rw [observations_hidden hproject hstep]
      exact ih hrest hevents
    | some e =>
      rw [events_visible hproject hstep] at hevents
      cases hevents

/-- **Two runs.** From related states, the same events give the same observations. -/
theorem Unwinding.observations_eq (h : Unwinding step project observe R) (hR : R s t)
    (hrun : exec step check s ls = some u) (hrun' : exec step check t ms = some v)
    (hevents : events step project s ls = events step project t ms) :
    observations step project observe s ls = observations step project observe t ms := by
  induction ls generalizing s t ms with
  | nil => exact (observations_eq_nil hrun' hevents.symm).symm
  | cons l ls ih =>
    obtain ⟨-, s', hstep, hrest⟩ := exec_cons hrun
    cases hproject : project s l with
    | none =>
      rw [events_hidden hproject hstep] at hevents
      rw [observations_hidden hproject hstep]
      exact ih (h.left hR hproject hstep) hrest hrun' hevents
    | some e =>
      rw [events_visible hproject hstep] at hevents
      rw [observations_visible hproject hstep]
      -- the other run makes hidden steps until it comes to the same event
      induction ms generalizing t with
      | nil => cases hevents
      | cons m ms ihm =>
        obtain ⟨-, t', hstep', hrest'⟩ := exec_cons hrun'
        cases hproject' : project t m with
        | none =>
          rw [events_hidden hproject' hstep'] at hevents
          rw [observations_hidden hproject' hstep']
          exact ihm (h.right hR hproject' hstep') hrest' hevents
        | some e' =>
          rw [events_visible hproject' hstep'] at hevents
          rw [observations_visible hproject' hstep']
          obtain ⟨rfl, htail⟩ := List.cons.inj hevents
          obtain ⟨hobserve, hR'⟩ := h.both hR hproject hproject' hstep hstep'
          rw [hobserve, ih hR' hrest hrest' htail]

end Lts
