import Mathlib.Data.List.Basic

/-!
# Singly linked chains

`Chain next p l`: following `next` from the pointer `p` visits exactly the cells `l`, in order, and
then reaches the null pointer. The cells of a chain are found again whatever is changed outside
them (`Chain.congr`), which is all a proof about several chains in one memory needs. `span` is the
number of cells still ahead, the measure of a walk.
-/

namespace LinkedList

variable {A : Type*} {next next' : A → Option A}

/-- Following `next` from `p` visits the cells `l` and ends. -/
def Chain (next : A → Option A) : Option A → List A → Prop
  | none, [] => True
  | some a, b :: l => a = b ∧ Chain next (next a) l
  | _, _ => False

/-- A chain that starts at the null pointer is empty. -/
theorem Chain.eq_nil {l : List A} (h : Chain next none l) : l = [] := by
  cases l with
  | nil => rfl
  | cons a l => exact h.elim

/-- A chain that starts at a cell consists of that cell and the chain that follows it. -/
theorem Chain.eq_cons {a : A} {l : List A} (h : Chain next (some a) l) :
    ∃ rest, l = a :: rest ∧ Chain next (next a) rest := by
  cases l with
  | nil => exact h.elim
  | cons b l =>
    obtain ⟨rfl, hrest⟩ := h
    exact ⟨l, rfl, hrest⟩

theorem chain_nil {p : Option A} : Chain next p [] ↔ p = none := by
  cases p with
  | none => simp [Chain]
  | some a => simp [Chain]

theorem chain_cons {p : Option A} {a : A} {l : List A} :
    Chain next p (a :: l) ↔ p = some a ∧ Chain next (next a) l := by
  cases p with
  | none => simp [Chain]
  | some b =>
    rw [Chain, Option.some_inj]
    exact ⟨fun h => ⟨h.1, h.1 ▸ h.2⟩, fun h => ⟨h.1, h.1 ▸ h.2⟩⟩

/-- The cells are determined by where the chain starts. -/
theorem Chain.unique {p : Option A} {l l' : List A} (h : Chain next p l) (h' : Chain next p l') :
    l = l' := by
  induction l generalizing p l' with
  | nil =>
    rw [chain_nil.mp h] at h'
    exact h'.eq_nil.symm
  | cons a l ih =>
    obtain ⟨hp, hrest⟩ := chain_cons.mp h
    rw [hp] at h'
    obtain ⟨rest, rfl, hrest'⟩ := h'.eq_cons
    rw [ih hrest hrest']

/-- A chain depends only on the links of its own cells. -/
theorem Chain.congr {p : Option A} {l : List A} (h : Chain next p l)
    (hnext : ∀ a ∈ l, next' a = next a) : Chain next' p l := by
  induction l generalizing p with
  | nil => exact chain_nil.mpr (chain_nil.mp h)
  | cons a l ih =>
    obtain ⟨hp, hrest⟩ := chain_cons.mp h
    refine chain_cons.mpr ⟨hp, ?_⟩
    rw [hnext a List.mem_cons_self]
    exact ih hrest fun b hb => hnext b (List.mem_cons_of_mem a hb)

open Classical in
/-- How many cells there are from `p` on, for a chain that ends. -/
noncomputable def span (next : A → Option A) (p : Option A) : Nat :=
  if h : ∃ l, Chain next p l then h.choose.length else 0

theorem Chain.span_eq {p : Option A} {l : List A} (h : Chain next p l) :
    span next p = l.length := by
  have hex : ∃ l, Chain next p l := ⟨l, h⟩
  rw [span, dif_pos hex, hex.choose_spec.unique h]

end LinkedList
