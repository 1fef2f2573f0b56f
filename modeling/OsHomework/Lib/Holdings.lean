import Mathlib.Data.List.Nodup
import Mathlib.Logic.Function.Basic

/-!
# Who holds what

A pool hands out handles, each of a kind, and never the same one twice. Giving back or using a
handle that is not out is a fault, which the pool remembers. Any number of owners share a pool.

* **`Holds`** — the handles that are out are those the owners hold, each has one owner, and there
  has been no fault.
* **`Deal`** — what an owner can do on its own: nothing, take a handle, give some of its own back.
  `Holds.deal` says that this is safe whatever the others hold.
* **`Holds.move`** — a handle that changes hands.
* **`HeldBy.step`** — locks: the holder is the one party that stands where it has the lock.
-/

namespace Holdings

variable {K O : Type*}

/-- `kind h` is the kind of the handle `h` while it is out. -/
structure Pool (K : Type*) where
  next : Nat
  kind : Nat → Option K
  fault : Bool

namespace Pool

/-- The pool that has handed out nothing. -/
def empty : Pool K where
  next := 0
  kind := fun _ => none
  fault := false

/-- Hand out the handle `p.next`. -/
def acquire (p : Pool K) (k : K) : Pool K :=
  { p with next := p.next + 1, kind := Function.update p.kind p.next (some k) }

variable [DecidableEq K]

/-- Give a handle back, with the kind it is taken for. -/
def release (p : Pool K) (x : Nat × K) : Pool K :=
  if p.kind x.1 = some x.2 then { p with kind := Function.update p.kind x.1 none }
  else { p with fault := true }

/-- Look at what a handle stands for. -/
def use (p : Pool K) (x : Nat × K) : Pool K :=
  if p.kind x.1 = some x.2 then p else { p with fault := true }

/-- Give several back, one after the other. -/
def releaseAll (p : Pool K) (xs : List (Nat × K)) : Pool K := xs.foldl release p

@[simp] theorem releaseAll_nil (p : Pool K) : p.releaseAll [] = p := rfl

@[simp] theorem releaseAll_cons (p : Pool K) (x : Nat × K) (xs : List (Nat × K)) :
    p.releaseAll (x :: xs) = (p.release x).releaseAll xs := rfl

theorem release_of_out {p : Pool K} {x : Nat × K} (hx : p.kind x.1 = some x.2) :
    p.release x = { p with kind := Function.update p.kind x.1 none } := if_pos hx

theorem use_of_out {p : Pool K} {x : Nat × K} (hx : p.kind x.1 = some x.2) : p.use x = p :=
  if_pos hx

end Pool

variable {p : Pool K} {holds : O → List (Nat × K)}

/-- What is out is what the owners hold. -/
structure Holds (p : Pool K) (holds : O → List (Nat × K)) : Prop where
  lt_next : ∀ h k, p.kind h = some k → h < p.next
  out_iff : ∀ x, p.kind x.1 = some x.2 ↔ ∃ o, x ∈ holds o
  nodup : ∀ o, (holds o).Nodup
  unique : ∀ {o o' x}, x ∈ holds o → x ∈ holds o' → o = o'
  no_fault : p.fault = false

/-- In the beginning nothing is out. -/
theorem holds_empty : Holds (Pool.empty : Pool K) (fun _ : O => []) where
  lt_next := fun h k hk => by cases hk
  out_iff := fun x => by simp [Pool.empty]
  nodup := fun o => List.nodup_nil
  unique := fun hx => by cases hx
  no_fault := rfl

/-- What an owner holds is out, with the kind it is held as. -/
theorem Holds.out {o : O} {x : Nat × K} (hholds : Holds p holds) (hx : x ∈ holds o) :
    p.kind x.1 = some x.2 :=
  (hholds.out_iff x).mpr ⟨o, hx⟩

/-- Nothing that is out has the number the next handle gets. -/
theorem Holds.next_notMem (hholds : Holds p holds) (o : O) (k : K) : (p.next, k) ∉ holds o := by
  intro hx
  exact Nat.lt_irrefl _ (hholds.lt_next _ _ (hholds.out hx))

/-- The order in which an owner keeps its handles does not matter. -/
theorem Holds.perm [DecidableEq O] {o : O} {own : List (Nat × K)} (hholds : Holds p holds)
    (hperm : (holds o).Perm own) : Holds p (Function.update holds o own) := by
  have hmem : ∀ o' x, x ∈ Function.update holds o own o' ↔ x ∈ holds o' := by
    intro o' x
    by_cases ho : o' = o
    · subst ho
      rw [Function.update_self]
      exact hperm.mem_iff.symm
    · rw [Function.update_of_ne ho]
  refine ⟨hholds.lt_next, fun x => ?_, fun o' => ?_, fun {o' o'' x} hx hx' => ?_, hholds.no_fault⟩
  · simp only [hmem]
    exact hholds.out_iff x
  · by_cases ho : o' = o
    · subst ho
      rw [Function.update_self]
      exact hperm.nodup_iff.mp (hholds.nodup o')
    · rw [Function.update_of_ne ho]
      exact hholds.nodup o'
  · exact hholds.unique ((hmem o' x).mp hx) ((hmem o'' x).mp hx')

/-- Taking a handle: its number has never been given away. -/
theorem Holds.take [DecidableEq O] {o : O} (hholds : Holds p holds) (k : K) :
    Holds (p.acquire k) (Function.update holds o ((p.next, k) :: holds o)) := by
  have hmem : ∀ o' x, x ∈ Function.update holds o ((p.next, k) :: holds o) o' ↔
      o' = o ∧ x = (p.next, k) ∨ x ∈ holds o' := by
    intro o' x
    by_cases ho : o' = o
    · subst ho
      simp
    · simp [ho]
  refine ⟨fun h k' hk => ?_, fun x => ?_, fun o' => ?_, fun {o' o'' x} hx hx' => ?_,
    hholds.no_fault⟩
  -- numbers below `next`
  · show h < p.next + 1
    by_cases hh : h = p.next
    · omega
    · have hold : p.kind h = some k' := by simpa [Pool.acquire, hh] using hk
      exact Nat.lt_succ_of_lt (hholds.lt_next h k' hold)
  -- what is out: the new handle, or one that was
  · obtain ⟨h, k'⟩ := x
    simp only [hmem, exists_or, exists_eq_left, ← hholds.out_iff, Pool.acquire]
    -- the number is new, so nothing with it was out
    by_cases hh : h = p.next
    · subst hh
      have hnone : p.kind p.next ≠ some k' := fun hk =>
        Nat.lt_irrefl _ (hholds.lt_next _ _ hk)
      simp [hnone, eq_comm]
    · simp [hh]
  · by_cases ho : o' = o
    · subst ho
      rw [Function.update_self]
      exact List.nodup_cons.mpr ⟨hholds.next_notMem o' k, hholds.nodup o'⟩
    · rw [Function.update_of_ne ho]
      exact hholds.nodup o'
  · -- only `o` can have the new handle
    -- each of the two owners has the handle as the new one or has had it
    rcases (hmem o' x).mp hx with ⟨rfl, rfl⟩ | hold
    · rcases (hmem o'' _).mp hx' with ⟨rfl, -⟩ | hold'
      · rfl
      · exact absurd hold' (hholds.next_notMem o'' k)
    · rcases (hmem o'' x).mp hx' with ⟨rfl, rfl⟩ | hold'
      · exact absurd hold (hholds.next_notMem o' k)
      · exact hholds.unique hold hold'

/-! ## What an owner does on its own

An owner can take a handle that nobody has and give back what is its own, in any order. Neither
needs to know what the others hold, so a program is safe in the company of any other if all it does
to the pool is such a deal. -/

variable [DecidableEq K]

/-- What an owner can do with a pool on its own, and to its list. -/
inductive Deal : Pool K → List (Nat × K) → Pool K → List (Nat × K) → Prop where
  | keep (p : Pool K) (own : List (Nat × K)) : Deal p own p own
  | take (p : Pool K) (own : List (Nat × K)) (k : K) :
      Deal p own (p.acquire k) ((p.next, k) :: own)
  | give (p : Pool K) {own : List (Nat × K)} (given rest : List (Nat × K))
      (hperm : own.Perm (given ++ rest)) : Deal p own (p.releaseAll given) rest
  | trans {p p' p'' : Pool K} {own own' own'' : List (Nat × K)} (hfirst : Deal p own p' own')
      (hsecond : Deal p' own' p'' own'') : Deal p own p'' own''

/-- Giving back the whole list, in any order. -/
theorem Deal.giveAll (p : Pool K) {own given : List (Nat × K)} (hperm : own.Perm given) :
    Deal p own (p.releaseAll given) [] :=
  .give p given [] (by rwa [List.append_nil])

/-- What an owner does with some of its handles it can do while it has more. -/
theorem Deal.append {p p' : Pool K} {own own' : List (Nat × K)} (hdeal : Deal p own p' own')
    (more : List (Nat × K)) : Deal p (own ++ more) p' (own' ++ more) := by
  induction hdeal with
  | keep p own => exact .keep p _
  | take p own k => exact .take p _ k
  | give p given rest hperm =>
    refine .give p given (rest ++ more) ?_
    rw [← List.append_assoc]
    exact hperm.append_right more
  | trans _ _ ih₁ ih₂ => exact ih₁.trans ih₂

variable [DecidableEq O]

/-- Giving back the first handle of a list. -/
theorem Holds.release {o : O} {x : Nat × K} {rest : List (Nat × K)} (hholds : Holds p holds)
    (hown : holds o = x :: rest) : Holds (p.release x) (Function.update holds o rest) := by
  have hx : x ∈ holds o := by rw [hown]; exact List.mem_cons_self
  have hnodup : (x :: rest).Nodup := hown ▸ hholds.nodup o
  -- everybody holds what it held, but for `x`
  have hmem : ∀ o' y, y ∈ Function.update holds o rest o' ↔ y ∈ holds o' ∧ y ≠ x := by
    intro o' y
    -- the owner itself, whose list has no handle twice
    by_cases ho : o' = o
    · subst ho
      rw [Function.update_self, hown, List.mem_cons]
      constructor
      · intro hy
        refine ⟨Or.inr hy, fun heq => ?_⟩
        subst heq
        exact (List.nodup_cons.mp hnodup).1 hy
      · intro hy
        exact hy.1.resolve_left hy.2
    -- another owner does not have it
    · rw [Function.update_of_ne ho]
      refine ⟨fun hy => ⟨hy, fun heq => ?_⟩, fun hy => hy.1⟩
      subst heq
      exact ho (hholds.unique hy hx)
  rw [Pool.release_of_out (hholds.out hx)]
  refine ⟨fun h k hk => ?_, fun y => ?_, fun o' => ?_, fun {o' o'' y} hy hy' => ?_,
    hholds.no_fault⟩
  -- numbers below `next`
  · by_cases hh : h = x.1
    · simp [hh] at hk
    · exact hholds.lt_next h k (by simpa [hh] using hk)
  · simp only [hmem, exists_and_right, ← hholds.out_iff]
    by_cases hh : y.1 = x.1
    · -- the number determines the kind
      have hkind : p.kind y.1 = some x.2 := by rw [hh]; exact hholds.out hx
      simp only [hh, Function.update_self, reduceCtorEq, false_iff, not_and, not_not]
      intro hy
      rw [← hh, hkind] at hy
      exact Prod.ext hh (Option.some.inj hy).symm
    · have hne : y ≠ x := fun heq => hh (by rw [heq])
      simp [hh, hne]
  · by_cases ho : o' = o
    · subst ho
      rw [Function.update_self]
      exact (List.nodup_cons.mp hnodup).2
    · rw [Function.update_of_ne ho]
      exact hholds.nodup o'
  · exact hholds.unique ((hmem o' y).mp hy).1 ((hmem o'' y).mp hy').1

/-- Giving back the front of a list. -/
theorem Holds.releaseAll {o : O} {given rest : List (Nat × K)} (hholds : Holds p holds)
    (hown : holds o = given ++ rest) :
    Holds (p.releaseAll given) (Function.update holds o rest) := by
  induction given generalizing p holds with
  | nil =>
    rw [List.nil_append] at hown
    rw [Pool.releaseAll_nil, ← hown, Function.update_eq_self]
    exact hholds
  | cons x given ih =>
    rw [Pool.releaseAll_cons]
    have hnext := ih (hholds.release hown) (Function.update_self o _ _)
    rwa [Function.update_idem] at hnext

/-- **Dealing is safe.** Whatever an owner does on its own, the handles that are out are still those
that are held, each by one owner, and there is no fault. -/
theorem Holds.deal {o : O} {p' : Pool K} {own own' : List (Nat × K)} (hholds : Holds p holds)
    (hown : holds o = own) (hdeal : Deal p own p' own') :
    Holds p' (Function.update holds o own') := by
  induction hdeal generalizing holds with
  | keep p own =>
    rw [← hown, Function.update_eq_self]
    exact hholds
  | take p own k =>
    subst hown
    exact hholds.take k
  | give p given rest hperm =>
    -- the given ones are brought to the front of the list
    subst hown
    have hsorted := (hholds.perm hperm).releaseAll (Function.update_self o _ _)
    rwa [Function.update_idem] at hsorted
  | trans _ _ ih₁ ih₂ =>
    have hboth := ih₂ (ih₁ hholds hown) (Function.update_self o _ _)
    rwa [Function.update_idem] at hboth

/-- A handle changes hands. -/
theorem Holds.move {o o' : O} {x : Nat × K} {rest : List (Nat × K)} (hholds : Holds p holds)
    (hne : o' ≠ o) (hown : holds o = x :: rest) :
    Holds p (Function.update (Function.update holds o rest) o' (x :: holds o')) := by
  have hx : x ∈ holds o := by rw [hown]; exact List.mem_cons_self
  have hnodup : (x :: rest).Nodup := hown ▸ hholds.nodup o
  have hx' : x ∉ holds o' := fun h => hne (hholds.unique h hx)
  -- everybody holds the same but for `x`
  have hmem : ∀ q y, y ∈ Function.update (Function.update holds o rest) o' (x :: holds o') q ↔
      q = o' ∧ y = x ∨ y ∈ holds q ∧ y ≠ x := by
    intro q y
    by_cases hq' : q = o'
    · subst hq'
      rw [Function.update_self, List.mem_cons]
      by_cases hy : y = x <;> simp [hy]
    · rw [Function.update_of_ne hq']
      by_cases hq : q = o
      · subst hq
        rw [Function.update_self, hown, List.mem_cons]
        have hxrest : x ∉ rest := (List.nodup_cons.mp hnodup).1
        by_cases hy : y = x <;> simp [hy, hq', hxrest]
      · rw [Function.update_of_ne hq]
        have hxq : x ∉ holds q := fun h => hq (hholds.unique h hx)
        by_cases hy : y = x <;> simp [hy, hq', hxq]
  refine ⟨hholds.lt_next, fun y => ?_, fun q => ?_, fun {q q' y} hy hy' => ?_, hholds.no_fault⟩
  -- what is out is what was out
  · simp only [hmem, exists_or, exists_eq_left, exists_and_right, ← hholds.out_iff]
    by_cases hy : y = x
    · simp [hy, hholds.out hx]
    · simp [hy]
  · by_cases hq' : q = o'
    · subst hq'
      rw [Function.update_self]
      exact List.nodup_cons.mpr ⟨hx', hholds.nodup q⟩
    · rw [Function.update_of_ne hq']
      by_cases hq : q = o
      · subst hq
        rw [Function.update_self]
        exact (List.nodup_cons.mp hnodup).2
      · rw [Function.update_of_ne hq]
        exact hholds.nodup q
  -- an owner of `x` now is the new one
  · rcases (hmem q y).mp hy with ⟨rfl, rfl⟩ | ⟨hold, hyx⟩
    · rcases (hmem q' _).mp hy' with ⟨rfl, -⟩ | ⟨-, hyx⟩
      · rfl
      · exact absurd rfl hyx
    · rcases (hmem q' y).mp hy' with ⟨-, rfl⟩ | ⟨hold', -⟩
      · exact absurd rfl hyx
      · exact hholds.unique hold hold'

/-! ## Locks

A lock is a handle of which there is one. Who holds it is not recorded apart but read off where the
parties stand in their programs; that the two agree is kept by every move of a party that locks
where the lock is free and unlocks where it has it. -/

/-- The holder of a lock is the one party that stands where it has it. -/
def HeldBy (holder : Option O) (has : O → Bool) : Prop := ∀ o, holder = some o ↔ has o = true

/-- What a party can do with a lock: leave it alone, take it when it is free, release its own. -/
inductive LockMove (o : O) : Option O → Bool → Option O → Bool → Prop where
  | keep (holder : Option O) (has : Bool) : LockMove o holder has holder has
  | lock : LockMove o none false (some o) true
  | unlock (holder : Option O) : LockMove o holder true none false

/-- **One step** of a party at the lock. -/
theorem HeldBy.step {o : O} {holder holder' : Option O} {has : O → Bool} {has' : Bool}
    (hheld : HeldBy holder has) (hmove : LockMove o holder (has o) holder' has') :
    HeldBy holder' (Function.update has o has') := by
  intro q
  generalize hmine : has o = mine at hmove
  by_cases hq : q = o
  · subst hq
    rw [Function.update_self]
    cases hmove with
    | keep => rw [← hmine]; exact hheld q
    | lock => simp
    | unlock => simp
  · rw [Function.update_of_ne hq]
    cases hmove with
    | keep => exact hheld q
    | lock =>
      -- nobody had the lock
      have hfree : has q ≠ true := fun hhas => by simpa using (hheld q).mpr hhas
      simp [hfree, Ne.symm hq]
    | unlock =>
      -- the lock was the party's, so nobody else stood where it has it
      have hother : has q ≠ true := by
        intro hhas
        have hsame := (hheld q).mpr hhas
        rw [(hheld o).mpr hmine] at hsame
        exact hq (Option.some.inj hsame).symm
      simp [hother]

end Holdings
