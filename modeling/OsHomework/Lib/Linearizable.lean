import Mathlib.Logic.Function.Basic

/-!
# Linearizability by instants

A history is the list of calls and returns an observer of a shared object sees. It is linearizable
when every call that returned (and possibly some that did not) can be given an instant between its
call and its return, such that the calls taken in the order of their instants form a legal
sequential run. `Linearizable` says this with the instants written into the history: a list of
`Point`s whose calls and returns are the history and in which every thread goes round
call, commit, return.

* **`Linearized`** — the same with what a simulation proof has to carry along: the phase each thread
  is in and the effects so far. `Linearized.invoke`, `Linearized.commit` and `Linearized.respond`
  extend it by one point.
-/

namespace Linearize

/-- What an observer sees: thread `t` calls `c`, or its call returns `r`. -/
inductive Event (T C R : Type*) where
  | inv (t : T) (c : C)
  | res (t : T) (r : R)
  deriving DecidableEq

/-- The points of a history with instants: `commit` is the one at which a call takes effect. -/
inductive Point (T C R : Type*) where
  | inv (t : T) (c : C)
  | commit (t : T) (c : C) (r : R)
  | res (t : T) (r : R)

variable {T C R : Type*}

def Point.thread : Point T C R → T
  | .inv t _ => t
  | .commit t _ _ => t
  | .res t _ => t

/-- The part of a point the observer sees. -/
def Point.event? : Point T C R → Option (Event T C R)
  | .inv t c => some (.inv t c)
  | .commit _ _ _ => none
  | .res t r => some (.res t r)

/-- The call and result of an instant. -/
def Point.effect? : Point T C R → Option (C × R)
  | .commit _ c r => some (c, r)
  | _ => none

/-- Where a thread stands in its current call. -/
inductive Phase (C R : Type*) where
  | idle
  | called (c : C)
  | done (r : R)

/-- The points of thread `t` go round call, commit, return, and the last of them leaves it in the
given phase. The commit is one of the pending call, the return hands out the result committed. -/
inductive InPhase (t : T) : List (Point T C R) → Phase C R → Prop where
  | nil : InPhase t [] .idle
  | other {e : List (Point T C R)} {ph : Phase C R} {p : Point T C R} (h : InPhase t e ph)
      (hne : t ≠ p.thread) : InPhase t (e ++ [p]) ph
  | inv {e : List (Point T C R)} {c : C} (h : InPhase t e .idle) :
      InPhase t (e ++ [.inv t c]) (.called c)
  | commit {e : List (Point T C R)} {c : C} {r : R} (h : InPhase t e (.called c)) :
      InPhase t (e ++ [.commit t c r]) (.done r)
  | res {e : List (Point T C R)} {r : R} (h : InPhase t e (.done r)) :
      InPhase t (e ++ [.res t r]) .idle

/-- **Linearizability.** Instants can be put into the history such that every thread goes round
call, instant, return, and the calls in the order of their instants are legal. -/
def Linearizable (Legal : List (C × R) → Prop) (h : List (Event T C R)) : Prop :=
  ∃ e : List (Point T C R), e.filterMap Point.event? = h ∧ (∀ t, ∃ ph, InPhase t e ph) ∧
    Legal (e.filterMap Point.effect?)

/-- A history linearized so far: thread `t` is in phase `ph t`, and `cs` are the calls that have
taken effect. -/
def Linearized (Legal : List (C × R) → Prop) (h : List (Event T C R)) (ph : T → Phase C R)
    (cs : List (C × R)) : Prop :=
  ∃ e : List (Point T C R), e.filterMap Point.event? = h ∧ (∀ t, InPhase t e (ph t)) ∧
    e.filterMap Point.effect? = cs ∧ Legal cs

variable {Legal : List (C × R) → Prop} {h : List (Event T C R)} {ph : T → Phase C R}
  {cs : List (C × R)}

theorem Linearized.linearizable (hlin : Linearized Legal h ph cs) : Linearizable Legal h := by
  obtain ⟨e, hevents, hphase, heffects, hlegal⟩ := hlin
  exact ⟨e, hevents, fun t => ⟨ph t, hphase t⟩, heffects ▸ hlegal⟩

theorem linearized_nil (hlegal : Legal []) :
    Linearized Legal ([] : List (Event T C R)) (fun _ => .idle) [] :=
  ⟨[], rfl, fun _ => .nil, rfl, hlegal⟩

/-- Threads other than the one a point belongs to stay in their phase. -/
theorem inPhase_update [DecidableEq T] {e : List (Point T C R)} {p : Point T C R} {x : Phase C R}
    (hphase : ∀ t, InPhase t e (ph t)) (hself : InPhase p.thread (e ++ [p]) x) (t : T) :
    InPhase t (e ++ [p]) (Function.update ph p.thread x t) := by
  by_cases ht : t = p.thread
  · rw [ht, Function.update_self]
    exact hself
  · rw [Function.update_of_ne ht]
    exact (hphase t).other ht

variable [DecidableEq T] {t : T}

theorem Linearized.invoke (hlin : Linearized Legal h ph cs) (hidle : ph t = .idle) (c : C) :
    Linearized Legal (h ++ [.inv t c]) (Function.update ph t (.called c)) cs := by
  obtain ⟨e, hevents, hphase, heffects, hlegal⟩ := hlin
  refine ⟨e ++ [.inv t c], ?_, ?_, ?_, hlegal⟩
  · simp [List.filterMap_append, hevents, Point.event?]
  · exact inPhase_update (p := .inv t c) hphase (.inv (hidle ▸ hphase t))
  · simp [List.filterMap_append, heffects, Point.effect?]

theorem Linearized.commit {c : C} (hlin : Linearized Legal h ph cs) (hcalled : ph t = .called c)
    {r : R} (hlegal : Legal (cs ++ [(c, r)])) :
    Linearized Legal h (Function.update ph t (.done r)) (cs ++ [(c, r)]) := by
  obtain ⟨e, hevents, hphase, heffects, -⟩ := hlin
  refine ⟨e ++ [.commit t c r], ?_, ?_, ?_, hlegal⟩
  · simp [List.filterMap_append, hevents, Point.event?]
  · exact inPhase_update (p := .commit t c r) hphase (.commit (hcalled ▸ hphase t))
  · simp [List.filterMap_append, heffects, Point.effect?]

theorem Linearized.respond {r : R} (hlin : Linearized Legal h ph cs) (hdone : ph t = .done r) :
    Linearized Legal (h ++ [.res t r]) (Function.update ph t .idle) cs := by
  obtain ⟨e, hevents, hphase, heffects, hlegal⟩ := hlin
  refine ⟨e ++ [.res t r], ?_, ?_, ?_, hlegal⟩
  · simp [List.filterMap_append, hevents, Point.event?]
  · exact inPhase_update (p := .res t r) hphase (.res (hdone ▸ hphase t))
  · simp [List.filterMap_append, heffects, Point.effect?]

end Linearize
