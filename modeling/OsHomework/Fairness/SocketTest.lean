import Mathlib.Data.Finset.Basic
import Mathlib.Data.Finset.Dedup
import Mathlib.Data.Finset.SDiff
import Mathlib.Logic.Function.Basic

/-!
# Fairness — the sockets of the test program

`create_sockets` fills an array from malloc with descriptors and stops at the first `socket` that
fails. `close_sockets` walks the whole array and closes every entry that is not negative. What lies
behind the entry of the failed call was never written.

* **`closeLoop_createLoop`** — the calls of `close` are those for the descriptors opened, and those
  for whatever malloc left behind the failure.
* **`closes_iff`** — so the two functions fit together exactly when that is negative.
-/

namespace OsHomework.Fairness

/-! ## The two functions

The array comes from `malloc`, so its entries are whatever they are; `mem` gives them, and `none` is
a failed allocation. Of the calls of `socket` only their results matter: a new descriptor is not
open before, and no two calls return the same one, since nothing is closed in between. `count` is an
`int`, and with a negative one both loops do nothing. -/

/-- The results of the calls of `socket` in a process with the descriptors `before`, by the number
of the call; `none` is -1. A new descriptor is one that is not open. -/
structure SocketCalls (before : Finset Nat) where
  result : Nat → Option Nat
  fresh : ∀ {i fd : Nat}, result i = some fd → fd ∉ before
  distinct : ∀ {i j fd : Nat}, result i = some fd → result j = some fd → i = j

/-- The loop of `create_sockets` from index `i` on: the array, and the descriptors opened. -/
def createLoop (socket : Nat → Option Nat) : Nat → Nat → (Nat → Int) → (Nat → Int) × List Nat
  | 0, _, sockFds => (sockFds, [])
  | left + 1, i, sockFds =>
    match socket i with
    | none => (Function.update sockFds i (-1), [])
    | some fd =>
      let (sockFds, opened) := createLoop socket left (i + 1) (Function.update sockFds i fd)
      (sockFds, fd :: opened)

/-- `create_sockets`, with what malloc returns: the pointer, and the descriptors opened. -/
def createSockets (socket : Nat → Option Nat) (mem : Option (Nat → Int)) (count : Int) :
    Option (Nat → Int) × List Nat :=
  match mem with
  | none => (none, [])
  | some sockFds =>
    let (sockFds, opened) := createLoop socket count.toNat 0 sockFds
    (some sockFds, opened)

/-- The loop of `close_sockets` from index `i` on: the arguments of its calls of `close`. -/
def closeLoop (sockFds : Nat → Int) : Nat → Nat → List Nat
  | 0, _ => []
  | left + 1, i =>
    if 0 ≤ sockFds i then (sockFds i).toNat :: closeLoop sockFds left (i + 1)
    else closeLoop sockFds left (i + 1)

def closeSockets (sockFds : Option (Nat → Int)) (count : Int) : List Nat :=
  match sockFds with
  | none => []
  | some sockFds => closeLoop sockFds count.toNat 0

/-- What is open after the calls of `close`; one for a descriptor that is not open has no effect. -/
def closeAll (opened : Finset Nat) (calls : List Nat) : Finset Nat :=
  calls.foldl Finset.erase opened

/-! ## The loops

Both loops run over the same indices in the same order, so the closing loop meets the entries of the
creating loop one after the other. Where `create_sockets` has stopped there is a -1, which is
skipped; behind it the closing loop reads on in memory that was never written. -/

section

variable {socket : Nat → Option Nat} {fds fds' : Nat → Int} {left i : Nat}

/-- The entries in front of the index are not touched. -/
theorem createLoop_of_lt {j : Nat} (hj : j < i) : (createLoop socket left i fds).1 j = fds j := by
  induction left generalizing i fds with
  | zero => rfl
  | succ left ih =>
    unfold createLoop
    split
    · exact Function.update_of_ne (Nat.ne_of_lt hj) _ _
    · rw [ih (Nat.lt_succ_of_lt hj), Function.update_of_ne (Nat.ne_of_lt hj)]

/-- The closing loop looks at the entries from its index on. -/
theorem closeLoop_congr (h : ∀ j, i ≤ j → fds j = fds' j) :
    closeLoop fds left i = closeLoop fds' left i := by
  induction left generalizing i with
  | zero => rfl
  | succ left ih =>
    rw [closeLoop, closeLoop, h i (Nat.le_refl i), ih fun j hj => h j (Nat.le_of_succ_le hj)]

/-- **The two loops**: what is closed is what was opened, and what the memory held behind the entry
of the failed call. -/
theorem closeLoop_createLoop (socket : Nat → Option Nat) (left i : Nat) (fds : Nat → Int) :
    closeLoop (createLoop socket left i fds).1 left i =
      (createLoop socket left i fds).2 ++
        closeLoop fds (left - (createLoop socket left i fds).2.length - 1)
          (i + (createLoop socket left i fds).2.length + 1) := by
  -- along the indices; the entry written now is not touched by the rest of the loop
  induction left generalizing i fds with
  | zero => rfl
  | succ left ih =>
    cases hsocket : socket i with
    | none =>
      simp only [createLoop, hsocket, closeLoop, Function.update_self]
      rw [if_neg (by decide)]
      -- the call fails here: behind this entry the memory is as `malloc` left it
      refine closeLoop_congr fun j hj => Function.update_of_ne ?_ _ _
      omega
    | some fd =>
      have hown : (createLoop socket left (i + 1) (Function.update fds i fd)).1 i = fd := by
        rw [createLoop_of_lt (Nat.lt_succ_self i), Function.update_self]
      have hrest := ih (i + 1) (Function.update fds i fd)
      simp only [createLoop, hsocket, closeLoop, hown, List.length_cons, List.cons_append]
      generalize createLoop socket left (i + 1) (Function.update fds i fd) = rest at hrest ⊢
      rw [if_pos (Int.natCast_nonneg fd), Int.toNat_natCast, hrest, Nat.add_sub_add_right,
        Nat.add_assoc i 1, Nat.add_comm 1]
      have hbehind : ∀ j, i + (rest.2.length + 1) + 1 ≤ j → Function.update fds i fd j = fds j :=
        fun j hj => Function.update_of_ne (by omega) _ _
      rw [closeLoop_congr hbehind]

/-- The loop stops at the first call that fails. -/
theorem createLoop_stop (socket : Nat → Option Nat) (left i : Nat) (fds : Nat → Int) :
    (createLoop socket left i fds).2.length ≤ left ∧
      (∀ m < (createLoop socket left i fds).2.length, socket (i + m) ≠ none) ∧
      ((createLoop socket left i fds).2.length < left →
        socket (i + (createLoop socket left i fds).2.length) = none) := by
  -- the number of descriptors is the index at which the loop stops
  induction left generalizing i fds with
  | zero => simp [createLoop]
  | succ left ih =>
    cases hsocket : socket i with
    | none =>
      simp only [createLoop, hsocket, List.length_nil]
      exact ⟨Nat.zero_le _, fun m hm => absurd hm (Nat.not_lt_zero m), fun _ => hsocket⟩
    | some fd =>
      obtain ⟨hle, hbefore, hstop⟩ := ih (i + 1) (Function.update fds i fd)
      simp only [createLoop, hsocket, List.length_cons]
      generalize createLoop socket left (i + 1) (Function.update fds i fd) = rest at *
      refine ⟨Nat.succ_le_succ hle, fun m hm => ?_, fun hlt => ?_⟩
      · cases m with
        | zero => simp [hsocket]
        | succ m =>
          have hne := hbefore m (Nat.lt_of_succ_lt_succ hm)
          rwa [Nat.add_assoc, Nat.add_comm 1] at hne
      · have hnone := hstop (Nat.lt_of_succ_lt_succ hlt)
        rwa [Nat.add_assoc, Nat.add_comm 1] at hnone

theorem mem_opened {fd : Nat} (h : fd ∈ (createLoop socket left i fds).2) :
    ∃ j, i ≤ j ∧ socket j = some fd := by
  induction left generalizing i fds with
  | zero => cases h
  | succ left ih =>
    cases hsocket : socket i with
    | none =>
      simp only [createLoop, hsocket] at h
      cases h
    | some fd' =>
      simp only [createLoop, hsocket] at h
      rcases List.mem_cons.mp h with rfl | h
      · exact ⟨i, Nat.le_refl i, hsocket⟩
      · obtain ⟨j, hj, hfd⟩ := ih h
        exact ⟨j, Nat.le_of_succ_le hj, hfd⟩

/-- What is closed are the entries in the range that are not negative. -/
theorem mem_closeLoop {fd : Nat} :
    fd ∈ closeLoop fds left i ↔ ∃ j, i ≤ j ∧ j < i + left ∧ fds j = fd := by
  -- the entry at `i` and those behind it
  induction left generalizing i with
  | zero =>
    constructor
    · intro h
      cases h
    · rintro ⟨j, hle, hlt, -⟩
      omega
  | succ left ih =>
    have hsplit : (∃ j, i ≤ j ∧ j < i + (left + 1) ∧ fds j = fd) ↔
        fds i = fd ∨ ∃ j, i + 1 ≤ j ∧ j < i + 1 + left ∧ fds j = fd := by
      constructor
      · rintro ⟨j, hle, hlt, hfd⟩
        rcases Nat.eq_or_lt_of_le hle with rfl | hbehind
        · exact Or.inl hfd
        · exact Or.inr ⟨j, hbehind, by omega, hfd⟩
      · rintro (hfd | ⟨j, hle, hlt, hfd⟩)
        · exact ⟨i, Nat.le_refl i, by omega, hfd⟩
        · exact ⟨j, by omega, by omega, hfd⟩
    rw [hsplit, ← ih, closeLoop]
    split
    · next hopen =>
      rw [List.mem_cons]
      refine or_congr_left ?_
      omega
    · next hneg => exact (or_iff_right (by omega)).symm

theorem closeAll_eq (opened : Finset Nat) (calls : List Nat) :
    closeAll opened calls = opened \ calls.toFinset := by
  induction calls generalizing opened with
  | nil => simp [closeAll]
  | cons fd calls ih =>
    have hcons : closeAll opened (fd :: calls) = closeAll (opened.erase fd) calls := rfl
    rw [hcons, ih]
    ext x
    simp only [Finset.mem_sdiff, Finset.mem_erase, List.toFinset_cons, Finset.mem_insert, not_or]
    tauto

end

/-! ## What the test closes

The test is written to run into the limit, so in its normal course the last entries are never
written. What is found there decides: a negative number does no harm, any other one is closed as if
it were a descriptor of the test. -/

/-- The call that `create_sockets` stops at. -/
def FirstFailure (socket : Nat → Option Nat) (k : Nat) : Prop :=
  socket k = none ∧ ∀ i < k, socket i ≠ none

/-- An entry behind the one of the failed call, with what malloc left there. -/
def Leftover (socket : Nat → Option Nat) (mem : Option (Nat → Int)) (count v : Int) : Prop :=
  ∃ fds ∈ mem, ∃ k j : Nat, FirstFailure socket k ∧ k < j ∧ j < count ∧ fds j = v

/-- The descriptors are closed, each once, and nothing else. -/
structure ClosesExactly (opened calls : List Nat) : Prop where
  once : calls.Nodup
  same : ∀ fd, fd ∈ calls ↔ fd ∈ opened

section

variable {before : Finset Nat}

/-- No two calls of `socket` return the same descriptor, so none is opened twice. -/
theorem SocketCalls.nodup (os : SocketCalls before) (left i : Nat) (fds : Nat → Int) :
    (createLoop os.result left i fds).2.Nodup := by
  induction left generalizing i fds with
  | zero => exact List.nodup_nil
  | succ left ih =>
    unfold createLoop
    split
    · exact List.nodup_nil
    · next fd hsocket =>
      refine List.nodup_cons.mpr ⟨fun hmem => ?_, ih _ _⟩
      obtain ⟨j, hj, hfd⟩ := mem_opened hmem
      have hsame := os.distinct hsocket hfd
      omega

/-- What is closed besides the descriptors opened. -/
theorem mem_behind {socket : Nat → Option Nat} {fds : Nat → Int} {count : Int} {fd : Nat} :
    fd ∈ closeLoop fds (count.toNat - (createLoop socket count.toNat 0 fds).2.length - 1)
        (0 + (createLoop socket count.toNat 0 fds).2.length + 1) ↔
      Leftover socket (some fds) count fd := by
  -- the loop stopped at `n`, and that is the first failure
  obtain ⟨hle, hbefore, hstop⟩ := createLoop_stop socket count.toNat 0 fds
  generalize (createLoop socket count.toNat 0 fds).2.length = n at *
  simp only [Nat.zero_add] at *
  rw [mem_closeLoop]
  constructor
  · rintro ⟨j, hj, hlt, hfd⟩
    exact ⟨fds, rfl, n, j, ⟨hstop (by omega), hbefore⟩, by omega, by omega, hfd⟩
  · rintro ⟨_, ⟨⟩, k, j, hfails, hkj, hj, hfd⟩
    -- the loop stopped at `k`
    have hkn : k = n := by
      rcases Nat.lt_trichotomy k n with hlt | heq | hlt
      · exact absurd hfails.1 (hbefore k hlt)
      · exact heq
      · exact absurd (hstop (by omega)) (hfails.2 n hlt)
    exact ⟨j, by omega, by omega, hfd⟩

/-- The calls of `close`: those for the descriptors opened, and the rest. -/
theorem closeSockets_createSockets (os : SocketCalls before) (mem : Option (Nat → Int))
    (count : Int) :
    ∃ behind, closeSockets (createSockets os.result mem count).1 count =
        (createSockets os.result mem count).2 ++ behind ∧
      (createSockets os.result mem count).2.Nodup ∧
      (∀ fd ∈ (createSockets os.result mem count).2, fd ∉ before) ∧
      ∀ fd : Nat, fd ∈ behind ↔ Leftover os.result mem count fd := by
  cases mem with
  | none =>
    refine ⟨[], rfl, List.nodup_nil, ?_, ?_⟩
    · intro fd hfd
      cases hfd
    · simp [Leftover]
  | some fds =>
    refine ⟨_, closeLoop_createLoop os.result count.toNat 0 fds, os.nodup .., fun fd hfd => ?_,
      fun fd => mem_behind⟩
    obtain ⟨j, -, hsocket⟩ := mem_opened hfd
    exact os.fresh hsocket

/-- **The two functions fit together** exactly when malloc left nothing but negative values behind
the entry of the failed call. What else was open before stays open exactly when none of it is left
there. -/
theorem closes_iff (os : SocketCalls before) (mem : Option (Nat → Int)) (count : Int) :
    (ClosesExactly (createSockets os.result mem count).2
        (closeSockets (createSockets os.result mem count).1 count) ↔
      ∀ v, Leftover os.result mem count v → v < 0) ∧
      (closeAll (before ∪ (createSockets os.result mem count).2.toFinset)
          (closeSockets (createSockets os.result mem count).1 count) = before ↔
        ∀ fd ∈ before, ¬ Leftover os.result mem count fd) := by
  obtain ⟨behind, hcalls, hnodup, hfresh, hbehind⟩ := closeSockets_createSockets os mem count
  generalize (createSockets os.result mem count).2 = opened at *
  rw [hcalls]
  constructor
  · constructor
    · intro h v hv
      by_contra hnonneg
      -- a value that is left over is closed as well, and if it is one that was opened, twice
      have hmem : v.toNat ∈ behind := (hbehind _).mpr (by rwa [Int.toNat_of_nonneg (by omega)])
      have hopened := (h.same _).mp (List.mem_append_right _ hmem)
      exact (List.nodup_append.mp h.once).2.2 _ hopened _ hmem rfl
    · intro h
      have hnone : behind = [] := by
        rw [List.eq_nil_iff_forall_not_mem]
        intro fd hfd
        have hneg := h fd ((hbehind fd).mp hfd)
        omega
      rw [hnone, List.append_nil]
      exact ⟨hnodup, fun fd => Iff.rfl⟩
  · rw [closeAll_eq]
    constructor
    · intro h fd hfd hleft
      rw [← h, Finset.mem_sdiff] at hfd
      refine hfd.2 (List.mem_toFinset.mpr ?_)
      exact List.mem_append_right _ ((hbehind fd).mpr hleft)
    · intro h
      ext fd
      simp only [Finset.mem_sdiff, Finset.mem_union, List.mem_toFinset, List.mem_append, hbehind]
      constructor
      · rintro ⟨hfd | hfd, hnot⟩
        · exact hfd
        · exact absurd (Or.inl hfd) hnot
      · intro hfd
        refine ⟨Or.inl hfd, ?_⟩
        rintro (hopened | hleft)
        · exact hfresh fd hopened hfd
        · exact h fd hfd hleft

end

/-- A thread with the limit 3 in a process with the standard descriptors. -/
def limited : SocketCalls {0, 1, 2} where
  result := fun i => if i < 3 then some (i + 3) else none
  fresh := by
    intro i fd h
    obtain ⟨-, heq⟩ := Option.ite_none_right_eq_some.mp h
    cases heq
    simp only [Finset.mem_insert, Finset.mem_singleton]
    omega
  distinct := by
    intro i j fd hi hj
    obtain ⟨-, hi⟩ := Option.ite_none_right_eq_some.mp hi
    obtain ⟨-, hj⟩ := Option.ite_none_right_eq_some.mp hj
    cases hi
    cases hj
    rfl

/-- The test asks for `limit + 2` sockets, so one entry is never written. Here it happens to be
negative. -/
theorem closes_iff_limited :
    ClosesExactly (createSockets limited.result (some fun _ => -1) 5).2
      (closeSockets (createSockets limited.result (some fun _ => -1) 5).1 5) := by
  rw [(closes_iff limited (some fun _ => -1) 5).1]
  rintro v ⟨fds, hfds, -, -, -, -, -, rfl⟩
  cases hfds
  exact Int.negSucc_lt_zero 0

/-- A 1 in the last entry: standard output is closed. -/
theorem not_closesExactly :
    (createSockets limited.result (some fun _ => 1) 5).2 = [3, 4, 5] ∧
      closeSockets (createSockets limited.result (some fun _ => 1) 5).1 5 = [3, 4, 5, 1] ∧
      closeAll ({0, 1, 2} ∪ [3, 4, 5].toFinset) [3, 4, 5, 1] = {0, 2} ∧
      ¬ ClosesExactly [3, 4, 5] [3, 4, 5, 1] := by
  refine ⟨rfl, by decide, by decide, fun h => ?_⟩
  have hmem := (h.same 1).mp (by decide)
  exact absurd hmem (by decide)

end OsHomework.Fairness
