import Mathlib.Logic.Function.Basic

/-!
# Tables — partial functions changed at one key

A table is a function `f : κ → Option β`, an entry is `f x = some y`, and one entry is set by
`Function.update f a (some b)`. The lemmas say what an entry of the changed table is and which
entries of the old one are still there.
-/

namespace Table

variable {κ β : Type*} [DecidableEq κ] {f : κ → Option β} {a x : κ} {b y : β}

/-- An entry of the changed table is the new one, or an old one under another key. -/
theorem of_update_eq_some (h : Function.update f a (some b) x = some y) :
    x = a ∧ y = b ∨ x ≠ a ∧ f x = some y := by
  by_cases hx : x = a
  · subst hx
    rw [Function.update_self] at h
    exact Or.inl ⟨rfl, (Option.some.inj h).symm⟩
  · rw [Function.update_of_ne hx] at h
    exact Or.inr ⟨hx, h⟩

/-- The keys of the changed table. -/
theorem update_ne_none_iff : Function.update f a (some b) x ≠ none ↔ f x ≠ none ∨ x = a := by
  by_cases hx : x = a
  · simp [hx]
  · simp [hx]

/-- What a table has stays there under some value. -/
theorem exists_update (h : ∃ y, f x = some y) (a : κ) (b : β) :
    ∃ y, Function.update f a (some b) x = some y := by
  by_cases hx : x = a
  · exact ⟨b, by rw [hx, Function.update_self]⟩
  · rw [Function.update_of_ne hx]
    exact h

/-- An entry stays as it is if the entry that is set is another one. -/
theorem update_eq_some_of_ne (h : f x = some y) (hne : x ≠ a) (o : Option β) :
    Function.update f a o x = some y := by
  rw [Function.update_of_ne hne, h]

end Table
