import Mathlib.Data.List.Basic

/-!
# The fields of a list

`fields sep xs` are the nonempty stretches of `xs` between separators, however many separators
stand between two of them.

* **`fields_append`** — a stretch without separators in front of a separator is the first field.
* **`fields_append_sep`** — the fields on both sides of a separator.
* **`fields_dropWhile`**, **`fields_append_forall`** — separators in front and at the end do not
  matter.
* **`fields_intercalate`** — fields that were joined with a separator.
-/

namespace Fields

variable {α : Type*} {sep : α → Bool}

/-- The stretches between separators, without the empty ones. -/
def fields (sep : α → Bool) (xs : List α) : List (List α) :=
  (xs.splitOnP sep).filter fun field => !field.isEmpty

@[simp] theorem fields_nil : fields sep [] = [] := by
  simp [fields]

/-- A separator in front. -/
theorem fields_cons {x : α} (hx : sep x = true) (xs : List α) :
    fields sep (x :: xs) = fields sep xs := by
  unfold fields
  rw [List.splitOnP_cons_eq_if_modifyHead, if_pos hx, List.filter_cons_of_neg]
  simp

/-- Separators in front do not matter. -/
theorem fields_dropWhile {p : α → Bool} (hp : ∀ x, p x = true → sep x = true) (xs : List α) :
    fields sep (xs.dropWhile p) = fields sep xs := by
  induction xs with
  | nil => rfl
  | cons x xs ih =>
    by_cases hx : p x = true
    · rw [List.dropWhile_cons_of_pos hx, ih, fields_cons (hp x hx)]
    · rw [List.dropWhile_cons_of_neg hx]

/-- A field in front that does not go on is the first one. -/
theorem fields_append {field rest : List α} (hne : field ≠ []) (hall : ∀ x ∈ field, sep x = false)
    (hrest : ∀ x ∈ rest.head?, sep x = true) :
    fields sep (field ++ rest) = field :: fields sep rest := by
  cases rest with
  | nil =>
    rw [List.append_nil, fields_nil]
    unfold fields
    rw [List.splitOnP_eq_singleton hall, List.filter_cons_of_pos (by simpa)]
    rfl
  | cons x rest =>
    have hx : sep x = true := hrest x rfl
    rw [fields_cons hx]
    unfold fields
    rw [List.splitOnP_append_cons_of_forall_mem hall x hx, List.filter_cons_of_pos (by simpa)]

/-- A separator ends a field whatever stands around it. -/
theorem fields_append_sep {x : α} (hx : sep x = true) (xs ys : List α) :
    fields sep (xs ++ x :: ys) = fields sep xs ++ fields sep ys := by
  unfold fields
  rw [List.splitOnP_append_cons xs ys hx, List.filter_append]

/-- Separators at the end do not matter. -/
theorem fields_append_forall {ys : List α} (hys : ∀ x ∈ ys, sep x = true) (xs : List α) :
    fields sep (xs ++ ys) = fields sep xs := by
  induction ys generalizing xs with
  | nil => rw [List.append_nil]
  | cons y ys ih =>
    have hnil := ih (fun x hx => hys x (List.mem_cons_of_mem y hx)) []
    rw [List.nil_append, fields_nil] at hnil
    rw [fields_append_sep (hys y List.mem_cons_self), hnil, List.append_nil]

/-- Fields that were joined with a separator. -/
theorem fields_intercalate {x : α} (hx : sep x = true) {xss : List (List α)}
    (hne : ∀ xs ∈ xss, xs ≠ []) (hall : ∀ xs ∈ xss, ∀ y ∈ xs, sep y = false) :
    fields sep ([x].intercalate xss) = xss := by
  induction xss with
  | nil => rfl
  | cons xs xss ih =>
    have hne' := fun ys hys => hne ys (List.mem_cons_of_mem xs hys)
    have hall' := fun ys hys => hall ys (List.mem_cons_of_mem xs hys)
    -- a field alone
    have hxs : fields sep xs = [xs] := by
      have happend : fields sep (xs ++ []) = xs :: fields sep [] :=
        fields_append (hne xs List.mem_cons_self) (hall xs List.mem_cons_self)
          (fun y hy => by cases hy)
      rwa [List.append_nil, fields_nil] at happend
    cases xss with
    | nil =>
      rw [List.intercalate_singleton]
      exact hxs
    | cons ys xss =>
      -- the first field, a separator, and the others
      rw [List.intercalate_cons_cons, List.append_assoc, List.singleton_append,
        fields_append_sep hx, hxs, ih hne' hall', List.singleton_append]

/-- What is in a joined list is the separator or in one of the fields. -/
theorem mem_of_mem_intercalate {x y : α} {xss : List (List α)} (h : y ∈ [x].intercalate xss) :
    y = x ∨ ∃ xs ∈ xss, y ∈ xs := by
  induction xss with
  | nil => cases h
  | cons xs xss ih =>
    cases xss with
    | nil =>
      rw [List.intercalate_singleton] at h
      exact .inr ⟨xs, List.mem_cons_self, h⟩
    | cons ys xss =>
      rw [List.intercalate_cons_cons, List.append_assoc, List.mem_append, List.mem_append,
        List.mem_singleton] at h
      rcases h with h | h | h
      · exact .inr ⟨xs, List.mem_cons_self, h⟩
      · exact .inl h
      · rcases ih h with h | ⟨zs, hzs, hy⟩
        · exact .inl h
        · exact .inr ⟨zs, List.mem_cons_of_mem xs hzs, hy⟩

/-- There is no separator in a field. -/
theorem forall_of_mem_fields {xs field : List α} (h : field ∈ fields sep xs) :
    ∀ x ∈ field, sep x = false := by
  -- a field is one of the stretches, so it is enough to speak of those
  replace h : field ∈ xs.splitOnP sep := (List.mem_filter.mp h).1
  induction xs generalizing field with
  | nil =>
    rw [List.splitOnP_nil, List.mem_singleton] at h
    subst h
    exact fun x hx => by cases hx
  | cons y ys ih =>
    rw [List.splitOnP_cons_eq_if_modifyHead] at h
    split at h
    next hy =>
      rcases List.mem_cons.mp h with rfl | h
      · exact fun x hx => by cases hx
      · exact ih h
    next hy =>
      cases hsplit : ys.splitOnP sep with
      | nil => exact absurd hsplit (List.splitOnP_ne_nil sep ys)
      | cons zs zss =>
        rw [hsplit] at h ih
        -- the first stretch gets one character more, which is no separator
        rcases List.mem_cons.mp h with rfl | h
        · intro x hx
          rcases List.mem_cons.mp hx with rfl | hx
          · exact Bool.eq_false_iff.mpr hy
          · exact ih List.mem_cons_self x hx
        · exact ih (List.mem_cons_of_mem zs h)

/-- Only the separators that occur matter. -/
theorem fields_congr {sep' : α → Bool} {xs : List α} (h : ∀ x ∈ xs, sep' x = sep x) :
    fields sep' xs = fields sep xs := by
  suffices xs.splitOnP sep' = xs.splitOnP sep by rw [fields, fields, this]
  induction xs with
  | nil => rfl
  | cons x xs ih =>
    rw [List.splitOnP_cons_eq_if_modifyHead, List.splitOnP_cons_eq_if_modifyHead,
      h x List.mem_cons_self, ih fun y hy => h y (List.mem_cons_of_mem x hy)]

end Fields
