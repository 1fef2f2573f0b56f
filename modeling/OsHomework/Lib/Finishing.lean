import Mathlib.Algebra.Order.BigOperators.Group.Finset
import OsHomework.Lib.Network

/-!
# Parties that exchange byte streams come to an end

Straight-line programs over bounded streams do not go on for ever, whoever moves and however few
bytes a transfer hands over: a step completes an action of some party, or leaves fewer bytes of one
to transfer.

* **`Move.advances`** — what a step does to the party that makes it.
* **`Net.terminates`** — every run of finitely many parties with something to do ends.
-/

namespace Network

open Lts

variable {R M B : Type} [DecidableEq R] {cap : R × R → Nat} {r : R} {p p' : Party R M B}
  {ch ch' : R × R → List B}

/-- The bytes of the first action that are still to be transferred. -/
def Party.remaining (p : Party R M B) : Nat :=
  match p.prog with
  | .send _ data :: _ => (data p.mem).length - p.off
  | .recv _ len _ :: _ => len - p.off
  | _ => 0

/-- A step completes an action, or transfers bytes of it. -/
theorem Move.advances (h : Move cap r p ch p' ch') :
    p'.prog.length < p.prog.length ∨
      p'.prog.length = p.prog.length ∧ p'.remaining < p.remaining := by
  cases h with
  | comp f rest hprog => exact .inl (by rw [hprog]; exact Nat.lt_succ_self _)
  | sent dst data rest hprog hend => exact .inl (by rw [hprog]; exact Nat.lt_succ_self _)
  | received src len put rest hprog hend => exact .inl (by rw [hprog]; exact Nat.lt_succ_self _)
  | send dst data rest k hprog hk hlen hcap =>
    refine .inr ⟨rfl, ?_⟩
    simp only [Party.remaining, hprog]
    omega
  | recv src len put rest k hprog hk hlen havail =>
    refine .inr ⟨rfl, ?_⟩
    simp only [Party.remaining, hprog]
    omega

/-- Changing one term of a sum. -/
theorem sum_update_lt {P : R → Party R M B} {A : Finset R} (f : Party R M B → Nat) (hr : r ∈ A)
    (hlt : f p' < f (P r)) : ∑ q ∈ A, f (Function.update P r p' q) < ∑ q ∈ A, f (P q) := by
  refine Finset.sum_lt_sum (fun q _ => ?_) ⟨r, hr, by rwa [Function.update_self]⟩
  by_cases hq : q = r
  · subst hq
    rw [Function.update_self]
    exact Nat.le_of_lt hlt
  · rw [Function.update_of_ne hq]

theorem sum_update_eq {P : R → Party R M B} (A : Finset R) (f : Party R M B → Nat)
    (heq : f p' = f (P r)) : ∑ q ∈ A, f (Function.update P r p' q) = ∑ q ∈ A, f (P q) := by
  refine Finset.sum_congr rfl fun q _ => ?_
  by_cases hq : q = r
  · subst hq
    rw [Function.update_self, heq]
  · rw [Function.update_of_ne hq]

/-- If only the parties of a finite set have a program, every run ends. -/
theorem Net.terminates (cap : R × R → Nat) {s : Net R M B} (A : Finset R)
    (hidle : ∀ r, r ∉ A → (s.party r).prog = []) :
    Terminates (Net.step cap) (fun _ _ => True) s := by
  refine terminates_of_lex (I := fun s => ∀ r, r ∉ A → (s.party r).prog = [])
    (fun s => ∑ r ∈ A, (s.party r).prog.length) (fun s => ∑ r ∈ A, (s.party r).remaining)
    (fun s l t hidle _ hstep => ?_) hidle
  obtain ⟨p', ch', hmove, rfl⟩ := move_of_step hstep
  have hmem : l.1 ∈ A := by
    by_contra hnot
    exact hmove.prog_ne_nil (hidle l.1 hnot)
  refine ⟨fun r hr => ?_, ?_⟩
  · have hne : r ≠ l.1 := fun heq => hr (heq ▸ hmem)
    show (Function.update s.party l.1 p' r).prog = []
    rw [Function.update_of_ne hne]
    exact hidle r hr
  · rcases hmove.advances with hlt | ⟨heq, hlt⟩
    · exact .inl (sum_update_lt (fun p => p.prog.length) hmem hlt)
    · exact .inr ⟨sum_update_eq A (fun p => p.prog.length) heq,
        sum_update_lt Party.remaining hmem hlt⟩

end Network
