import Mathlib.Algebra.BigOperators.Group.Finset.Basic
import Mathlib.Data.List.Count

/-!
# Objects with a reference count

A heap says of every object how many references there are to it; `none` is memory that is not in
use, `some 0` an object whose last reference is gone and that waits to be freed. Whatever may not
happen to a count raises a fault: taking a reference to an object that has none, giving one back
twice, freeing an object that others refer to.

* **`Counts`** — the counts are the numbers of references that are really held.
* **`Deal`** — what one holder does, whatever the others hold: it turns a list of references into
  another one. The rules below say which lists the operations turn into which, `Deal.trans` puts
  them together.
* **`Held.step`** — a deal of one of finitely many holders keeps the counts right for all of them.
-/

namespace Counted

variable {X O : Type*}

/-- The counts, and whether something has been done to one that may not be done. -/
structure Heap (X : Type*) where
  count : X → Option Nat
  fault : Bool

variable [DecidableEq X]

namespace Heap

/-- The heap in which every object has the count of the references these holders have to it. -/
def counting (A : Finset O) (holds : O → List X) : Heap X where
  count := fun x =>
    if ∑ o ∈ A, (holds o).count x = 0 then none else some (∑ o ∈ A, (holds o).count x)
  fault := false

/-- Allocate `x` with one reference; memory in use is not handed out. -/
def new (h : Heap X) (x : X) : Option (Heap X) :=
  if h.count x = none then some { h with count := Function.update h.count x (some 1) } else none

/-- Take another reference. -/
def inc (h : Heap X) (x : X) : Heap X :=
  match h.count x with
  | some (n + 1) => { h with count := Function.update h.count x (some (n + 2)) }
  | _ => { h with fault := true }

/-- Give a reference back, and look no further. -/
def dec (h : Heap X) (x : X) : Heap X :=
  match h.count x with
  | some (n + 1) => { h with count := Function.update h.count x (some n) }
  | _ => { h with fault := true }

/-- Free the memory of an object nobody else refers to. -/
def free (h : Heap X) (x : X) : Heap X :=
  match h.count x with
  | some 0 | some 1 => { h with count := Function.update h.count x none }
  | _ => { h with fault := true }

/-- Give a reference back, and free the object if it was the last one. -/
def put (h : Heap X) (x : X) : Heap X :=
  match h.count x with
  | some 1 => { h with count := Function.update h.count x none }
  | some (n + 2) => { h with count := Function.update h.count x (some (n + 1)) }
  | _ => { h with fault := true }

variable {h h' : Heap X} {x y : X}

/-! What happens to one object does not touch the others. -/

theorem new_count_self (hnew : h.new x = some h') : h'.count x = some 1 := by
  unfold new at hnew
  split at hnew
  · cases hnew
    exact Function.update_self ..
  · cases hnew

theorem new_count_ne (hnew : h.new x = some h') (hne : y ≠ x) : h'.count y = h.count y := by
  unfold new at hnew
  split at hnew
  · cases hnew
    exact Function.update_of_ne hne _ _
  · cases hnew

theorem inc_count_ne (hne : y ≠ x) : (h.inc x).count y = h.count y := by
  unfold inc
  split
  · exact Function.update_of_ne hne _ _
  · rfl

theorem put_count_ne (hne : y ≠ x) : (h.put x).count y = h.count y := by
  unfold put
  split
  · exact Function.update_of_ne hne _ _
  · exact Function.update_of_ne hne _ _
  · rfl

theorem free_count_ne (hne : y ≠ x) : (h.free x).count y = h.count y := by
  unfold free
  split
  · exact Function.update_of_ne hne _ _
  · exact Function.update_of_ne hne _ _
  · rfl

end Heap

/-- `refs x` references to `x` are held, and `waste x` says who is about to free it. -/
structure Counts (h : Heap X) (refs waste : X → Nat) : Prop where
  count : ∀ x, h.count x = if refs x = 0 ∧ waste x = 0 then none else some (refs x)
  waste_of : ∀ x, waste x ≠ 0 → refs x = 0 ∧ waste x = 1
  no_fault : h.fault = false

variable {h h' h'' : Heap X} {refs waste refs' waste' : X → Nat} {x : X}

omit [DecidableEq X] in
/-- An object to which somebody refers has the count of its references. -/
theorem Counts.count_pos (hc : Counts h refs waste) (hx : refs x ≠ 0) :
    h.count x = some (refs x) := by
  rw [hc.count x, if_neg]
  exact fun hzero => hx hzero.1

/-- One object changes: what is to be shown of it. -/
theorem Counts.change (hc : Counts h refs waste) {c : Option Nat}
    (hsame : ∀ y, y ≠ x → refs' y = refs y ∧ waste' y = waste y)
    (hx : c = if refs' x = 0 ∧ waste' x = 0 then none else some (refs' x))
    (hwaste : waste' x ≠ 0 → refs' x = 0 ∧ waste' x = 1) :
    Counts { h with count := Function.update h.count x c } refs' waste' := by
  refine ⟨fun y => ?_, fun y => ?_, hc.no_fault⟩
  · by_cases hy : y = x
    -- the object that changes
    · subst hy
      rw [← hx]
      exact Function.update_self ..
    -- all others have the count they had
    · obtain ⟨hr, hw⟩ := hsame y hy
      rw [hr, hw, ← hc.count y]
      exact Function.update_of_ne hy _ _
  · by_cases hy : y = x
    · subst hy
      exact hwaste
    · obtain ⟨hr, hw⟩ := hsame y hy
      rw [hr, hw]
      exact hc.waste_of y

/-! ## What one holder does

A program takes and gives back references in an order of its own, and between two of its operations
the others may do anything. So what it does is described by the references it holds before and
after, for all references `r` of the others. The rules are then applied operation by operation, as
the program goes, and nothing has to be said about the others until the end. -/

/-- A holder with the references `xs` and the objects `ds` to free comes to hold `ys` and `ds'`,
while the others hold `r` and are about to free `w`. The counts stay right, and what is new to it
nobody else holds. -/
def Deal (h : Heap X) (xs ds : List X) (h' : Heap X) (ys ds' : List X) : Prop :=
  ∀ r w : X → Nat, Counts h (fun x => r x + xs.count x) (fun x => w x + ds.count x) →
    Counts h' (fun x => r x + ys.count x) (fun x => w x + ds'.count x) ∧
      ∀ x ∈ ys, x ∈ xs ∨ r x = 0

variable {xs ys zs ds ds' ds'' : List X}

theorem Deal.refl (h : Heap X) (xs ds : List X) : Deal h xs ds h xs ds :=
  fun _ _ hc => ⟨hc, fun _ hx => Or.inl hx⟩

/-- Deals one after the other. -/
theorem Deal.trans (hd : Deal h xs ds h' ys ds') (hd' : Deal h' ys ds' h'' zs ds'') :
    Deal h xs ds h'' zs ds'' := by
  intro r w hc
  obtain ⟨hc', hfresh⟩ := hd r w hc
  obtain ⟨hc'', hfresh'⟩ := hd' r w hc'
  refine ⟨hc'', fun x hx => ?_⟩
  rcases hfresh' x hx with hy | hnew
  · exact hfresh x hy
  · exact Or.inr hnew

/-- The order in which references are held does not matter. -/
theorem Deal.perm (hxs : xs.Perm ys) : Deal h xs ds h ys ds := by
  intro r w hc
  refine ⟨?_, fun x hx => Or.inl (hxs.mem_iff.mpr hx)⟩
  simpa only [hxs.count_eq] using hc

/-- Allocation: the object is in nobody else's hands. -/
theorem Deal.new (hnew : h.new x = some h') : Deal h xs ds h' (x :: xs) ds := by
  unfold Heap.new at hnew
  split at hnew
  · next hfree =>
    cases hnew
    intro r w hc
    -- an object that is not in use has no references
    have hnone := hc.count x
    rw [hfree] at hnone
    split at hnone
    · next hzero =>
      -- the counts: one reference more; and the holder is the only one
      refine ⟨hc.change (fun y hy => ?_) ?_ ?_, fun y hy => ?_⟩
      · simp [List.count_cons_of_ne (Ne.symm hy)]
      · simp only [List.count_cons_self]
        rw [if_neg (by omega)]
        congr 1
        omega
      · intro hw
        omega
      · rcases List.mem_cons.mp hy with rfl | hold
        · exact Or.inr (by omega)
        · exact Or.inl hold
    · cases hnone
  · cases hnew

/-- Another reference to an object of one's own. -/
theorem Deal.inc (hx : x ∈ xs) : Deal h xs ds (h.inc x) (x :: xs) ds := by
  intro r w hc
  have hpos : 0 < xs.count x := List.count_pos_iff.mpr hx
  have hcount := hc.count_pos (x := x) (by omega)
  -- with a reference of its own the object is alive, so its count is a successor
  obtain ⟨n, hn⟩ : ∃ n, r x + xs.count x = n + 1 := ⟨r x + xs.count x - 1, by omega⟩
  rw [hn] at hcount
  simp only [Heap.inc, hcount]
  refine ⟨hc.change (fun y hy => ?_) ?_ fun hw => ?_, fun y hy => ?_⟩
  · simp [List.count_cons_of_ne (Ne.symm hy)]
  · simp only [List.count_cons_self]
    rw [if_neg (by omega)]
    congr 1
    omega
  -- an object that waits to be freed has no reference
  · have hzero := (hc.waste_of x hw).1
    omega
  · rcases List.mem_cons.mp hy with rfl | hold
    · exact Or.inl hx
    · exact Or.inl hold

/-- What is left after a reference is given back was held before. -/
theorem Deal.of_cons
    (hcounts : ∀ r w : X → Nat,
      Counts h (fun y => r y + (x :: xs).count y) (fun y => w y + ds.count y) →
        Counts h' (fun y => r y + xs.count y) (fun y => w y + ds'.count y)) :
    Deal h (x :: xs) ds h' xs ds' :=
  fun r w hc => ⟨hcounts r w hc, fun _ hy => Or.inl (List.mem_cons_of_mem x hy)⟩

/-- Giving a reference back. -/
theorem Deal.put : Deal h (x :: xs) ds (h.put x) xs ds := by
  refine .of_cons fun r w hc => ?_
  have hcount := hc.count_pos (x := x) (by simp only [List.count_cons_self]; omega)
  simp only [List.count_cons_self] at hcount
  -- an object with a reference does not wait to be freed
  have hwaste : w x + ds.count x = 0 := by
    by_contra hw
    have hzero := (hc.waste_of x hw).1
    simp only [List.count_cons_self] at hzero
    omega
  have hsame : ∀ y, y ≠ x → r y + xs.count y = r y + (x :: xs).count y ∧
      w y + ds.count y = w y + ds.count y := by
    intro y hy
    simp [List.count_cons_of_ne (Ne.symm hy)]
  unfold Heap.put
  cases hm : r x + xs.count x with
  -- it was the last reference and the object is gone
  | zero =>
    rw [show r x + (xs.count x + 1) = 1 by omega] at hcount
    rw [hcount]
    exact hc.change hsame (by simp [hm, hwaste]) fun hw => absurd hwaste hw
  -- others are left
  | succ n =>
    rw [show r x + (xs.count x + 1) = n + 2 by omega] at hcount
    rw [hcount]
    exact hc.change hsame (by simp [hm]) fun hw => absurd hwaste hw

/-- Giving back a list of references. -/
theorem Deal.putAll : ∀ {h : Heap X} {xs : List X}, Deal h (xs ++ ys) ds (xs.foldl Heap.put h) ys ds
  | _, [] => .refl _ _ _
  | _, _ :: _ => .trans .put .putAll

/-- Freeing without a look at the count, where there is one reference only. -/
theorem Deal.free (hone : h.count x = some 1) : Deal h (x :: xs) ds (h.free x) xs ds := by
  have hput : h.free x = h.put x := by simp only [Heap.free, Heap.put, hone]
  rw [hput]
  exact .put

/-- The last reference is given back and the object waits to be freed. -/
theorem Deal.dec_last (hone : h.count x = some 1) :
    Deal h (x :: xs) ds (h.dec x) xs (x :: ds) := by
  refine .of_cons fun r w hc => ?_
  have hcount := hc.count_pos (x := x) (by simp only [List.count_cons_self]; omega)
  simp only [List.count_cons_self, hone, Option.some.injEq] at hcount
  have hwaste : w x + ds.count x = 0 := by
    by_contra hw
    have hzero := (hc.waste_of x hw).1
    simp only [List.count_cons_self] at hzero
    omega
  simp only [Heap.dec, hone]
  refine hc.change (fun y hy => ?_) ?_ fun hw => ?_
  -- the others are as they were
  · simp [List.count_cons_of_ne (Ne.symm hy)]
  -- of `x` there is no reference left, but somebody about to free it
  · simp only [List.count_cons_self]
    rw [if_neg (by omega)]
    congr 1
    omega
  · simp only [List.count_cons_self]
    omega

/-- A reference is given back and others are left. -/
theorem Deal.dec_more {n : Nat} (hmore : h.count x = some (n + 2)) :
    Deal h (x :: xs) ds (h.dec x) xs ds := by
  have hput : h.dec x = h.put x := by simp only [Heap.dec, Heap.put, hmore]
  rw [hput]
  exact .put

/-- A reference is given back, and who did it looks whether the object is to be freed. -/
theorem Deal.dec :
    Deal h (x :: xs) ds (h.dec x) xs (if h.count x = some 1 then x :: ds else ds) := by
  by_cases hone : h.count x = some 1
  · rw [if_pos hone]
    exact .dec_last hone
  · rw [if_neg hone]
    intro r w hc
    have hcount := hc.count_pos (x := x) (by simp only [List.count_cons_self]; omega)
    simp only [List.count_cons_self] at hcount
    obtain ⟨n, hn⟩ : ∃ n, r x + (xs.count x + 1) = n + 2 := by
      refine ⟨r x + xs.count x - 1, ?_⟩
      have hne : r x + (xs.count x + 1) ≠ 1 := fun heq => hone (by rw [hcount, heq])
      omega
    rw [hn] at hcount
    exact Deal.dec_more hcount r w hc

/-- Freeing an object that has waited for it. -/
theorem Deal.free_waste : Deal h xs (x :: ds) (h.free x) xs ds := by
  intro r w hc
  refine ⟨?_, fun y hy => Or.inl hy⟩
  obtain ⟨hzero, hone⟩ := hc.waste_of x (by simp only [List.count_cons_self]; omega)
  simp only [List.count_cons_self] at hone
  have hcount := hc.count x
  rw [hzero, if_neg (by simp)] at hcount
  simp only [Heap.free, hcount]
  refine hc.change (fun y hy => ?_) ?_ fun hw => ?_
  · simp [List.count_cons_of_ne (Ne.symm hy)]
  · rw [if_pos ⟨hzero, by omega⟩]
  · omega

/-! ## Finitely many holders

The counts are right when they are the sums over all holders. A deal of one of them is turned into a
fact about all by taking for `r` and `w` the sums over the others. -/

section

variable [DecidableEq O] {holds dead : O → List X}

/-- The counts are those of what the holders in `A` hold, and nobody else holds anything. -/
structure Held (h : Heap X) (A : Finset O) (holds dead : O → List X) : Prop where
  outside : ∀ o, o ∉ A → holds o = [] ∧ dead o = []
  counts : Counts h (fun x => ∑ o ∈ A, (holds o).count x) fun x => ∑ o ∈ A, (dead o).count x

omit [DecidableEq O] in
/-- The holders under other names. -/
theorem Heap.counting_map {O' : Type*} (A : Finset O) (f : O ↪ O') {holds : O → List X}
    {holds' : O' → List X} (hsame : ∀ o ∈ A, holds' (f o) = holds o) :
    Heap.counting (A.map f) holds' = Heap.counting A holds := by
  have hsum : ∀ x, ∑ o ∈ A.map f, (holds' o).count x = ∑ o ∈ A, (holds o).count x := by
    intro x
    rw [Finset.sum_map]
    exact Finset.sum_congr rfl fun o ho => by rw [hsame o ho]
  simp only [Heap.counting, hsum]

omit [DecidableEq O] in
/-- Counts that are computed from what is held are right. -/
theorem Held.counting {A : Finset O} (hout : ∀ o, o ∉ A → holds o = []) :
    Held (.counting A holds) A holds fun _ => [] := by
  refine ⟨fun o ho => ⟨hout o ho, rfl⟩, fun x => ?_, fun x hx => ?_, rfl⟩
  · simp [Heap.counting]
  · exact absurd (by simp) hx

/-- The sum over all holders after one of them has changed. -/
theorem sum_update (A : Finset O) {o : O} (ho : o ∈ A) (holds : O → List X) (ys : List X) (x : X) :
    ∑ o' ∈ A, (Function.update holds o ys o').count x =
      (∑ o' ∈ A.erase o, (holds o').count x) + ys.count x := by
  rw [← Finset.add_sum_erase A _ ho, Function.update_self, add_comm]
  congr 1
  refine Finset.sum_congr rfl fun o' ho' => ?_
  rw [Function.update_of_ne (Finset.ne_of_mem_erase ho')]

/-- The sum over all holders, one of them apart. -/
theorem sum_erase (A : Finset O) {o : O} (ho : o ∈ A) (holds : O → List X) (x : X) :
    ∑ o' ∈ A, (holds o').count x = (∑ o' ∈ A.erase o, (holds o').count x) + (holds o).count x := by
  rw [← Finset.add_sum_erase A _ ho, add_comm]

/-- **One step.** A deal of one holder keeps the counts right for all. -/
theorem Held.step {A : Finset O} {o : O} (hh : Held h A holds dead) (ho : o ∈ A)
    (hdeal : Deal h (holds o) (dead o) h' ys ds') :
    Held h' A (Function.update holds o ys) (Function.update dead o ds') := by
  refine ⟨fun o' ho' => ?_, ?_⟩
  · have hne : o' ≠ o := by
      rintro rfl
      exact ho' ho
    simpa only [Function.update_of_ne hne] using hh.outside o' ho'
  · have hc := hh.counts
    simp only [sum_erase A ho] at hc
    simp only [sum_update A ho]
    exact (hdeal _ _ hc).1

/-- What is new to the holder nobody else holds. -/
theorem Held.fresh {A : Finset O} {o o' : O} (hh : Held h A holds dead) (ho : o ∈ A)
    (hdeal : Deal h (holds o) (dead o) h' ys ds') (hne : o' ≠ o) (hx : x ∈ ys)
    (hx' : x ∈ holds o') : x ∈ holds o := by
  have hc := hh.counts
  simp only [sum_erase A ho] at hc
  refine ((hdeal _ _ hc).2 x hx).resolve_right fun hzero => ?_
  have hmem : o' ∈ A.erase o := by
    refine Finset.mem_erase.mpr ⟨hne, ?_⟩
    by_contra hout
    rw [(hh.outside o' hout).1] at hx'
    cases hx'
  have hpos : 0 < (holds o').count x := List.count_pos_iff.mpr hx'
  rw [← Finset.add_sum_erase (A.erase o) _ hmem] at hzero
  omega

/-- Who holds something is one of the holders. -/
theorem Held.of_mem {A : Finset O} {o : O} (hh : Held h A holds dead) (hx : x ∈ holds o) :
    o ∈ A := by
  by_contra ho
  rw [(hh.outside o ho).1] at hx
  cases hx

omit [DecidableEq O] in
/-- What is in use somebody holds, or is about to free. -/
theorem Held.exists_holder {A : Finset O} (hh : Held h A holds dead) (hx : h.count x ≠ none) :
    ∃ o, x ∈ holds o ∨ x ∈ dead o := by
  by_contra hnobody
  refine hx ?_
  rw [hh.counts.count x, if_pos]
  constructor
  · refine Finset.sum_eq_zero fun o _ => List.count_eq_zero_of_not_mem fun hmem => ?_
    exact hnobody ⟨o, Or.inl hmem⟩
  · refine Finset.sum_eq_zero fun o _ => List.count_eq_zero_of_not_mem fun hmem => ?_
    exact hnobody ⟨o, Or.inr hmem⟩

/-- An object with one reference has one holder. -/
theorem Held.unique {A : Finset O} {o o' : O} (hh : Held h A holds dead)
    (hone : h.count x = some 1) (hx : x ∈ holds o) (hx' : x ∈ holds o') : o = o' := by
  by_contra hne
  have hpos : 0 < (holds o).count x := List.count_pos_iff.mpr hx
  have hpos' : 0 < (holds o').count x := List.count_pos_iff.mpr hx'
  have hmem : o' ∈ A.erase o := Finset.mem_erase.mpr ⟨Ne.symm hne, hh.of_mem hx'⟩
  have htotal := hh.counts.count_pos (x := x) (by
    rw [sum_erase A (hh.of_mem hx)]
    omega)
  rw [hone, sum_erase A (hh.of_mem hx), ← Finset.add_sum_erase (A.erase o) _ hmem] at htotal
  have hsum := Option.some.inj htotal
  omega

/-- An object with one reference is not held twice. -/
theorem Held.not_twice {A : Finset O} {o : O} (hh : Held h A holds dead)
    (hone : h.count x = some 1) (hsplit : holds o = xs ++ ys) (hx : x ∈ xs) : x ∉ ys := by
  intro hy
  have hmem : x ∈ holds o := hsplit ▸ List.mem_append_left _ hx
  have hpos : 0 < xs.count x := List.count_pos_iff.mpr hx
  have hpos' : 0 < ys.count x := List.count_pos_iff.mpr hy
  have hsum : (holds o).count x = xs.count x + ys.count x := by rw [hsplit, List.count_append]
  have htotal := hh.counts.count_pos (x := x) (by
    rw [sum_erase A (hh.of_mem hmem)]
    omega)
  rw [hone, sum_erase A (hh.of_mem hmem)] at htotal
  have hcount := Option.some.inj htotal
  omega

/-- An object with one reference keeps it when somebody else deals. -/
theorem Held.count_one {A : Finset O} {o o' : O} (hh : Held h A holds dead) (ho : o ∈ A)
    (hdeal : Deal h (holds o) (dead o) h' ys ds') (hne : o' ≠ o) (hx : x ∈ holds o')
    (hone : h.count x = some 1) : h'.count x = some 1 := by
  have hnot : x ∉ holds o := fun hmem => hne (hh.unique hone hx hmem)
  have hnot' : x ∉ ys := fun hmem => hnot (hh.fresh ho hdeal hne hmem hx)
  have hpos : 0 < (holds o').count x := List.count_pos_iff.mpr hx
  have hmem : o' ∈ A.erase o := Finset.mem_erase.mpr ⟨hne, hh.of_mem hx⟩
  have hsum : (∑ u ∈ A.erase o, (holds u).count x) ≠ 0 := by
    rw [← Finset.add_sum_erase (A.erase o) _ hmem]
    omega
  have hbefore := hh.counts.count_pos (x := x) (by rw [sum_erase A ho]; omega)
  have hafter := (hh.step ho hdeal).counts.count_pos (x := x) (by rw [sum_update A ho]; omega)
  rw [sum_erase A ho, List.count_eq_zero_of_not_mem hnot] at hbefore
  rw [sum_update A ho, List.count_eq_zero_of_not_mem hnot'] at hafter
  rw [hafter, ← hone, hbefore]

/-- A holder more, who holds nothing yet. -/
theorem Held.grow {A : Finset O} (hh : Held h A holds dead) (o : O) :
    Held h (insert o A) holds dead := by
  by_cases ho : o ∈ A
  · rwa [Finset.insert_eq_of_mem ho]
  · obtain ⟨hholds, hdead⟩ := hh.outside o ho
    refine ⟨fun o' ho' => hh.outside o' fun hmem => ho' (Finset.mem_insert_of_mem hmem), ?_⟩
    simpa only [Finset.sum_insert ho, hholds, hdead, List.count_nil, zero_add] using hh.counts

/-- A holder deals and gives some of what it then has to another one. -/
theorem Held.give {A : Finset O} {o o' : O} (hh : Held h A holds dead) (hne : o' ≠ o)
    (hdeal : Deal h (holds o) (dead o) h' (ys ++ zs) ds') :
    Held h' (insert o' (insert o A))
      (Function.update (Function.update holds o ys) o' (zs ++ holds o'))
      (Function.update dead o ds') := by
  have hstep := ((hh.grow o).grow o').step (o := o) (by simp) hdeal
  have ho' : o' ∈ insert o' (insert o A) := Finset.mem_insert_self ..
  have ho : o ∈ (insert o' (insert o A)).erase o' := by simp [Ne.symm hne]
  refine ⟨fun q hq => ?_, ?_⟩
  -- nobody outside the larger set holds anything
  · have hout := hstep.outside q hq
    have hqo : q ≠ o := by
      rintro rfl
      simp at hq
    rw [Function.update_of_ne hqo] at hout
    rwa [Function.update_of_ne (by rintro rfl; exact hq ho'), Function.update_of_ne hqo]
  -- what `o` gives and `o'` gets cancels in the sum
  · have hsum : ∀ x, ∑ q ∈ insert o' (insert o A),
        (Function.update (Function.update holds o ys) o' (zs ++ holds o') q).count x =
          ∑ q ∈ insert o' (insert o A), (Function.update holds o (ys ++ zs) q).count x := by
      intro x
      rw [sum_update _ ho', sum_update _ ho, sum_erase _ ho', sum_update _ ho,
        Function.update_of_ne hne, List.count_append, List.count_append]
      omega
    simpa only [hsum] using hstep.counts

end

end Counted
