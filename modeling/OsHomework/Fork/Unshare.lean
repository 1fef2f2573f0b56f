import OsHomework.Fork.Stages

/-!
# Fork — what an `unshare` under way holds

`ksys_unshare` keeps what it has made in four variables, and under `task_lock` swaps two of them
with the task's pointers, so that the labels at the end give back the new objects of a call that
fails and the old ones of a call that does not. For `fs` the meaning changes: after the swap the
variable has an object without users, or nothing.

* **`Unshare.refs`**, **`Unshare.dead`** — the references behind the variables, and the object that
  waits to be freed.
* **`unshareStep_goes`** — one step, as a deal. What is not given back at the end is what the call
  returns as lost, and that is the `nsproxy` at most.
-/

namespace OsHomework.Fork

open Counted

/-- The reference behind a variable. -/
def slotRef (s : Slot) (v : Option Nat) : List Obj := (v.map s.obj).toList

/-- The variable for `fs` has what the task had before. -/
def UnsharePc.committed : UnsharePc → Bool
  | .commitCreds => true
  | .badUnshareCleanupCred c | .badUnshareCleanupFd c | .badUnshareCleanupFs c => c
  | _ => false

def Unshare.refs (c : Unshare) : List Obj :=
  -- from `task_lock` on the variable for `fs` has no reference behind it
  (if c.pc.committed then [] else slotRef .fs c.newFs) ++
    (slotRef .files c.newFd ++ (slotRef .cred c.newCred ++ slotRef .nsproxy c.newNsproxy))

def Unshare.dead (c : Unshare) : List Obj :=
  if c.pc.committed then slotRef .fs c.newFs else []

/-- The variables that have no value yet, or no longer. -/
def Unshare.Null (c : Unshare) : Prop :=
  match c.pc with
  -- a variable is null until its step has run
  | .checkUnshareFlags | .unshareFs =>
    c.newFs = none ∧ c.newFd = none ∧ c.newCred = none ∧ c.newNsproxy = none
  | .unshareFd => c.newFd = none ∧ c.newCred = none ∧ c.newNsproxy = none
  | .unshareUserns => c.newCred = none ∧ c.newNsproxy = none
  | .unshareNsproxyNamespaces => c.newNsproxy = none
  -- all four may have a value here, also behind a failure
  | .setCredUcounts | .switchTaskNamespaces => True
  | .taskLock | .commitCreds => c.newNsproxy = none
  | .badUnshareCleanupCred _ => True
  -- the labels empty them one after the other
  | .badUnshareCleanupFd _ => c.newCred = none
  | .badUnshareCleanupFs _ => c.newFd = none ∧ c.newCred = none
  | .badUnshareOut => c.newFs = none ∧ c.newFd = none ∧ c.newCred = none

/-- What a call relies on: its null variables, and that the `fs` it has made is its own. -/
structure UnshareOk (h : Refs) (c : Unshare) : Prop where
  null : c.Null
  sole : c.pc.committed = false → ∀ a, c.newFs = some a → h.count (Slot.fs.obj a) = some 1

@[simp] theorem slotRef_none (s : Slot) : slotRef s none = [] := rfl

/-- How often a call refers to an object. -/
theorem Unshare.count_refs (c : Unshare) (x : Obj) :
    c.refs.count x = (if c.pc.committed then 0 else (slotRef .fs c.newFs).count x) +
      (slotRef .files c.newFd).count x + (slotRef .cred c.newCred).count x +
        (slotRef .nsproxy c.newNsproxy).count x := by
  unfold Unshare.refs
  split <;> simp only [List.count_append, List.count_nil] <;> omega

section

variable {cur : Ptrs} {h h' : Refs} {s : Slot} {v : Option Nat} {xs ys ds : List Obj}

/-- `unshare_fs` and the others: an object for a variable, or none. -/
theorem createVar_deal {mem : Option Nat} (hrun : createVar s mem h = some (v, h')) :
    Deal h xs ds h' (slotRef s v ++ xs) ds := by
  cases mem with
  | none =>
    cases hrun
    exact .refl _ _ _
  | some a =>
    obtain ⟨h₁, hnew, heq⟩ := Option.map_eq_some_iff.mp hrun
    cases heq
    exact .new hnew

/-- It leaves other objects alone. -/
theorem createVar_count {mem : Option Nat} {y : Obj} (hrun : createVar s mem h = some (v, h'))
    (hne : ∀ a, y ≠ s.obj a) : h'.count y = h.count y := by
  cases mem with
  | none =>
    cases hrun
    rfl
  | some a =>
    obtain ⟨h₁, hnew, heq⟩ := Option.map_eq_some_iff.mp hrun
    cases heq
    exact Heap.new_count_ne hnew (hne a)

/-- What has been made has one reference. -/
theorem createVar_count_self {mem : Option Nat} {a : Nat}
    (hrun : createVar s mem h = some (some a, h')) : h'.count (s.obj a) = some 1 := by
  cases mem with
  | none => cases hrun
  | some b =>
    obtain ⟨h₁, hnew, heq⟩ := Option.map_eq_some_iff.mp hrun
    cases heq
    exact Heap.new_count_self hnew

/-- The object behind a pointer of the task is given back. -/
theorem putSlot_deal : Deal h (slotRef s (cur s) ++ xs) ds (putSlot s cur h) xs ds := by
  unfold putSlot slotRef
  cases cur s with
  | none => exact .refl _ _ _
  | some x => exact .put

theorem putSlot_count {y : Obj} (hne : ∀ a, y ≠ s.obj a) :
    (putSlot s cur h).count y = h.count y := by
  unfold putSlot
  cases cur s with
  | none => rfl
  | some x => exact Heap.put_count_ne (hne x)

/-- References may be put in another order. -/
theorem deal_of_count (hcount : ∀ x, xs.count x = ys.count x) : Deal h xs ds h ys ds :=
  .perm (List.perm_iff_count.mpr hcount)

/-- A slot contributes the object behind it, if there is one. -/
theorem objects_cons (p : Ptrs) (s : Slot) (l : List Slot) :
    objects p (s :: l) = slotRef s (p s) ++ objects p l := by
  unfold objects slotRef
  rw [List.filterMap_cons]
  cases p s <;> rfl

/-- A variable and a pointer of the task change places. -/
theorem count_swap (cur : Ptrs) (hs : s ∈ taskSlots) (v : Option Nat) (x : Obj) :
    (objects cur taskSlots).count x + (slotRef s v).count x =
      (objects (Function.update cur s v) taskSlots).count x + (slotRef s (cur s)).count x := by
  -- the slots but for one, before and after, are the same
  have hsplit : ∀ p : Ptrs, (objects p taskSlots).Perm
      (slotRef s (p s) ++ objects p (taskSlots.erase s)) := by
    intro p
    rw [← objects_cons]
    exact (List.perm_cons_erase hs).filterMap _
  have hrest : objects (Function.update cur s v) (taskSlots.erase s) =
      objects cur (taskSlots.erase s) := by
    refine List.filterMap_congr fun t ht => ?_
    rw [Function.update_of_ne]
    rintro rfl
    have hnodup : taskSlots.Nodup := by decide
    exact hnodup.not_mem_erase ht
  have hold := (hsplit cur).count_eq x
  have hnew := (hsplit (Function.update cur s v)).count_eq x
  rw [Function.update_self, hrest] at hnew
  simp only [List.count_append] at hold hnew
  omega

/-! ## The steps

There are four kinds of steps, each with a lemma of its own: one that leaves everything as it is,
one that makes an object for a variable, one that installs an object in the task and gives the old
one back, and one that gives back the object of a variable. The section under `task_lock` is the
fifth and does two swaps at once. Lists of references are compared by counting, so that their order
does not matter. -/

/-- What a step of `ksys_unshare` does for the task that is in it. -/
structure UnshareGoes (cur : Ptrs) (h : Refs) (c : Unshare) (c' : Option Unshare) (cur' : Ptrs)
    (h' : Refs) (lost : List Obj) : Prop where
  deal : Deal h (objects cur taskSlots ++ c.refs) c.dead h'
    (objects cur' taskSlots ++ (c'.elim [] Unshare.refs ++ lost)) (c'.elim [] Unshare.dead)
  ok : ∀ u, c' = some u → UnshareOk h' u
  lost_nsproxy : ∀ x ∈ lost, x.1 = .nsproxy
  solid : ∀ t : Slot, t.solid = true → cur' t ≠ none
  same : ∀ t ∈ [Slot.signal, .sighand, .mm], cur' t = cur t

variable {c u : Unshare}

/-- The steps that leave the task as it is. -/
theorem UnshareGoes.stay (hcur : ∀ t : Slot, t.solid = true → cur t ≠ none)
    (hdeal : Deal h (objects cur taskSlots ++ c.refs) c.dead h' (objects cur taskSlots ++ u.refs)
      u.dead) (hok : UnshareOk h' u) : UnshareGoes cur h c (some u) cur h' [] := by
  refine ⟨?_, ?_, by rintro x ⟨⟩, hcur, fun _ _ => rfl⟩
  · simpa only [Option.elim_some, List.append_nil] using hdeal
  · rintro _ ⟨⟩
    exact hok

/-- An object is made for the variable of slot `s`. -/
theorem UnshareGoes.make {mem : Option Nat} (hcur : ∀ t : Slot, t.solid = true → cur t ≠ none)
    (hrun : createVar s mem h = some (v, h'))
    (hcount : ∀ x, u.refs.count x = (slotRef s v).count x + c.refs.count x)
    (hdead : u.dead = c.dead) (hok : UnshareOk h' u) : UnshareGoes cur h c (some u) cur h' [] := by
  refine .stay hcur ?_ hok
  rw [hdead]
  refine (createVar_deal hrun).trans (deal_of_count fun x => ?_)
  simp only [List.count_append, hcount]
  omega

/-- The object of a variable becomes the task's, and the task's old one is given back. -/
theorem UnshareGoes.install {a : Nat} (hcur : ∀ t : Slot, t.solid = true → cur t ≠ none)
    (hs : s ∈ taskSlots) (hother : s ∉ [Slot.signal, .sighand, .mm])
    (hcount : ∀ x, c.refs.count x = (slotRef s (some a)).count x + u.refs.count x)
    (hdead : u.dead = c.dead) (hok : UnshareOk (putSlot s cur h) u) :
    UnshareGoes cur h c (some u) (Function.update cur s (some a)) (putSlot s cur h) [] := by
  -- installing is a swap followed by a put
  refine ⟨?_, ?_, by rintro x ⟨⟩, fun t ht => ?_, fun t ht => ?_⟩
  · have hswap : Deal h (objects cur taskSlots ++ c.refs) c.dead h (slotRef s (cur s) ++
        (objects (Function.update cur s (some a)) taskSlots ++ u.refs)) c.dead := by
      refine deal_of_count fun x => ?_
      have hx := count_swap cur hs (some a) x
      simp only [List.count_append, hcount]
      omega
    simpa only [Option.elim_some, List.append_nil, hdead] using hswap.trans putSlot_deal
  · rintro _ ⟨⟩
    exact hok
  -- the slot that was changed has an object, the others are as before
  · by_cases hts : t = s
    · subst hts
      rw [Function.update_self]
      exact Option.some_ne_none a
    · rw [Function.update_of_ne hts]
      exact hcur t ht
  · rw [Function.update_of_ne (by rintro rfl; exact hother ht)]

/-- The object of a variable is given back. -/
theorem UnshareGoes.release {a : Nat} (hcur : ∀ t : Slot, t.solid = true → cur t ≠ none)
    (hcount : ∀ x, c.refs.count x = (slotRef s (some a)).count x + u.refs.count x)
    (hdead : u.dead = c.dead) (hok : UnshareOk (h.put (s.obj a)) u) :
    UnshareGoes cur h c (some u) cur (h.put (s.obj a)) [] := by
  refine .stay hcur ?_ hok
  have hfront : Deal h (objects cur taskSlots ++ c.refs) c.dead h
      (slotRef s (some a) ++ (objects cur taskSlots ++ u.refs)) c.dead := by
    refine deal_of_count fun x => ?_
    simp only [List.count_append, hcount]
    omega
  rw [hdead]
  exact hfront.trans .put

/-- The new `fs` has no other users, whatever happens to other objects. -/
theorem sole_of_count {newFs : Option Nat} (hs : s.obj 0 ≠ Slot.fs.obj 0)
    (hcount : ∀ y, (∀ a, y ≠ s.obj a) → h'.count y = h.count y)
    (hsole : ∀ a, newFs = some a → h.count (Slot.fs.obj a) = some 1) :
    ∀ a, newFs = some a → h'.count (Slot.fs.obj a) = some 1 := by
  intro a ha
  rw [hcount]
  · exact hsole a ha
  · intro b heq
    cases s <;> first | exact hs rfl | cases heq

/-- **The swap of `fs`.** What is left in the variable is dead, or nothing. -/
theorem swapFs_deal {newFs : Option Nat} {r : Option Nat × Ptrs × Refs} (hcur : cur .fs ≠ none)
    (hr : swapFs newFs cur h = r) :
    Deal h (objects cur taskSlots ++ (slotRef .fs newFs ++ xs)) [] r.2.2
      (objects r.2.1 taskSlots ++ xs) (slotRef .fs r.1) := by
  subst hr
  obtain ⟨fs, hfs⟩ := Option.ne_none_iff_exists'.mp hcur
  cases newFs with
  | none => exact .refl _ _ _
  | some new =>
    -- the new object becomes the task's, the old one loses a user
    have hswap : Deal h (objects cur taskSlots ++ (slotRef .fs (some new) ++ xs)) [] h
        (slotRef .fs (some fs) ++ (objects (Function.update cur .fs (some new)) taskSlots ++ xs))
        [] := by
      refine deal_of_count fun x => ?_
      have hx := count_swap cur (s := .fs) (by decide) (some new) x
      rw [hfs] at hx
      simp only [List.count_append]
      omega
    have hdec := hswap.trans .dec
    simp only [swapFs, hfs]
    -- only the last user has to free it
    by_cases hlast : h.count (Slot.fs.obj fs) = some 1
    · rw [if_pos hlast] at hdec ⊢
      exact hdec
    · rw [if_neg hlast] at hdec ⊢
      exact hdec

/-- At most the pointer to `fs` changes. -/
theorem swapFs_update (newFs : Option Nat) (cur : Ptrs) (h : Refs) :
    (swapFs newFs cur h).2.1 = cur ∨
      ∃ new, (swapFs newFs cur h).2.1 = Function.update cur .fs (some new) := by
  unfold swapFs
  split
  · exact Or.inl rfl
  · next new =>
    split
    · exact Or.inl rfl
    · exact Or.inr ⟨new, rfl⟩

/-- **The swap of `files`**, after which the variable has a reference still. -/
theorem swapFd_count {newFd : Option Nat} (cur : Ptrs) (x : Obj) :
    (objects cur taskSlots).count x + (slotRef .files newFd).count x =
      (objects (swapFd newFd cur).2 taskSlots).count x +
        (slotRef .files (swapFd newFd cur).1).count x := by
  cases newFd with
  | none => rfl
  | some new => exact count_swap cur (by decide) (some new) x

/-- The section under `task_lock`. -/
theorem taskLock_goes (hcur : ∀ t : Slot, t.solid = true → cur t ≠ none)
    (hpc : c.pc = .taskLock) (hnull : c.newNsproxy = none) :
    let fs := swapFs c.newFs cur h
    let fd := swapFd c.newFd fs.2.1
    UnshareGoes cur h c
      (some { c with newFs := fs.1, newFd := fd.1, pc := .commitCreds }) fd.2 fs.2.2 [] := by
  intro fs fd
  have hcommitted : c.pc.committed = false := by
    rw [hpc]
    rfl
  have hdead : c.dead = [] := by
    unfold Unshare.dead
    rw [hcommitted]
    rfl
  have hrefs : c.refs = slotRef .fs c.newFs ++
      (slotRef .files c.newFd ++ (slotRef .cred c.newCred ++ slotRef .nsproxy c.newNsproxy)) := by
    unfold Unshare.refs
    rw [hcommitted]
    rfl
  have hfs : ∀ t, t ≠ .fs → fs.2.1 t = cur t := by
    intro t ht
    rcases swapFs_update c.newFs cur h with hsame | ⟨new, hnew⟩
    · exact congrFun hsame t
    · exact (congrFun hnew t).trans (Function.update_of_ne ht _ _)
  have hfd : ∀ t, t ≠ .files → fd.2 t = fs.2.1 t := by
    intro t ht
    show (swapFd c.newFd fs.2.1).2 t = fs.2.1 t
    unfold swapFd
    split
    · rfl
    · exact Function.update_of_ne ht _ _
  refine ⟨?_, ?_, by rintro x ⟨⟩, fun t ht => ?_, fun t ht => ?_⟩
  -- the counts of `fs` and of `files` one after the other
  · rw [hrefs, hdead]
    refine (swapFs_deal (r := fs) (hcur .fs rfl) rfl).trans (deal_of_count fun x => ?_)
    have hx : (objects fs.2.1 taskSlots).count x + (slotRef .files c.newFd).count x =
        (objects fd.2 taskSlots).count x + (slotRef .files fd.1).count x := swapFd_count fs.2.1 x
    simp only [Option.elim_some, List.append_nil, List.count_append, Unshare.count_refs,
      UnsharePc.committed, if_true]
    omega
  · rintro _ ⟨⟩
    exact ⟨hnull, by rintro ⟨⟩⟩
  -- none of the pointers a task must have is `files`
  · rw [hfd t (by rintro rfl; cases ht)]
    by_cases htf : t = .fs
    · subst htf
      rcases swapFs_update c.newFs cur h with hsame | ⟨new, hnew⟩
      · rw [show fs.2.1 = cur from hsame]
        exact hcur .fs rfl
      · rw [show fs.2.1 = _ from hnew, Function.update_self]
        exact Option.some_ne_none new
    · rw [hfs t htf]
      exact hcur t ht
  -- the two slots are neither `signal` nor `sighand` nor `mm`
  · rw [hfd t (by rintro rfl; revert ht; decide), hfs t (by rintro rfl; revert ht; decide)]

variable {I : Type*} {e : Env I} {r : Option Unshare × Ptrs × Refs × List Obj}

/-- **One step** of `ksys_unshare`, wherever it stands. -/
theorem unshareStep_goes (hcur : ∀ t : Slot, t.solid = true → cur t ≠ none) (hok : UnshareOk h c)
    (hstep : unshareStep e cur h c = some r) : UnshareGoes cur h c r.1 r.2.1 r.2.2.1 r.2.2.2 := by
  obtain ⟨flags, newFs, newFd, newCred, newNsproxy, pc⟩ := c
  obtain ⟨hnull, hsole⟩ := hok
  cases pc with
  -- nothing has been made yet
  | checkUnshareFlags =>
    obtain ⟨rfl, rfl, rfl, rfl⟩ := hnull
    cases hstep
    refine .stay hcur ?_ ⟨?_, by rintro - _ ⟨⟩⟩
    · split <;> exact .refl _ _ _
    · split <;> simp [Unshare.Null]
  | unshareFs =>
    obtain ⟨rfl, rfl, rfl, rfl⟩ := hnull
    simp only [unshareStep] at hstep
    split at hstep
    · cases hstep
      exact .stay hcur (.refl _ _ _) ⟨⟨rfl, rfl, rfl⟩, by rintro - _ ⟨⟩⟩
    · obtain ⟨⟨v, h₁⟩, hrun, rfl⟩ := Option.map_eq_some_iff.mp hstep
      -- the new `fs` has no user but this call
      refine .make hcur hrun (fun x => ?_) ?_ ⟨?_, ?_⟩
      · cases v <;> simp [Unshare.count_refs, UnsharePc.committed]
      · cases v <;> rfl
      · cases v <;> exact ⟨rfl, rfl, rfl⟩
      -- made in this step
      · rintro - a rfl
        exact createVar_count_self hrun
  | unshareFd =>
    obtain ⟨rfl, rfl, rfl⟩ := hnull
    simp only [unshareStep] at hstep
    split at hstep
    · obtain ⟨⟨v, h₁⟩, hrun, rfl⟩ := Option.map_eq_some_iff.mp hstep
      refine .make hcur hrun (fun x => ?_) ?_ ⟨?_, fun _ => ?_⟩
      · cases v <;> simp [Unshare.count_refs, UnsharePc.committed, Nat.add_comm]
      · cases v <;> rfl
      · cases v <;> exact ⟨rfl, rfl⟩
      · exact sole_of_count (by decide) (fun _ => createVar_count hrun) (hsole rfl)
    · cases hstep
      exact .stay hcur (.refl _ _ _) ⟨⟨rfl, rfl⟩, hsole⟩
  | unshareUserns =>
    obtain ⟨rfl, rfl⟩ := hnull
    -- a user namespace needs new credentials, and those are made here
    simp only [unshareStep] at hstep
    split at hstep
    · obtain ⟨⟨v, h₁⟩, hrun, rfl⟩ := Option.map_eq_some_iff.mp hstep
      refine .make hcur hrun (fun x => ?_) ?_ ⟨?_, fun _ => ?_⟩
      · cases v <;> simp [Unshare.count_refs, UnsharePc.committed, Nat.add_comm]
      · cases v <;> rfl
      · cases v <;> rfl
      · exact sole_of_count (by decide) (fun _ => createVar_count hrun) (hsole rfl)
    · cases hstep
      exact .stay hcur (.refl _ _ _) ⟨rfl, hsole⟩
  | unshareNsproxyNamespaces =>
    obtain rfl : newNsproxy = none := hnull
    -- the new namespaces, or none if no flag asks for them
    simp only [unshareStep] at hstep
    split at hstep
    · obtain ⟨⟨v, h₁⟩, hrun, rfl⟩ := Option.map_eq_some_iff.mp hstep
      refine .make hcur hrun (fun x => ?_) ?_ ⟨?_, fun _ => ?_⟩
      · cases v <;> simp [Unshare.count_refs, UnsharePc.committed, Nat.add_comm]
      · cases v <;> rfl
      · cases v <;> trivial
      · exact sole_of_count (by decide) (fun _ => createVar_count hrun) (hsole rfl)
    · cases hstep
      exact .stay hcur (.refl _ _ _) ⟨trivial, hsole⟩
  | setCredUcounts =>
    -- it fails or succeeds, and takes nothing
    simp only [unshareStep] at hstep
    split at hstep <;>
    · cases hstep
      exact .stay hcur (.refl _ _ _) ⟨trivial, hsole⟩
  | switchTaskNamespaces =>
    -- the task's old namespaces are put, the variable is empty from here on
    cases newNsproxy with
    | none =>
      cases hstep
      exact .stay hcur (.refl _ _ _) ⟨rfl, hsole⟩
    | some new =>
      cases hstep
      refine .install hcur (by decide) (by decide) (fun x => ?_) rfl ⟨rfl, fun _ => ?_⟩
      · simp [Unshare.count_refs, UnsharePc.committed, Nat.add_comm]
      · exact sole_of_count (by decide) (fun _ => putSlot_count) (hsole rfl)
  | taskLock =>
    cases hstep
    exact taskLock_goes hcur rfl hnull
  | commitCreds =>
    -- the task's old credentials are given back; the variable is empty then
    obtain rfl : newNsproxy = none := hnull
    cases newCred with
    | none =>
      cases hstep
      exact .stay hcur (.refl _ _ _) ⟨trivial, hsole⟩
    | some new =>
      cases hstep
      refine .install hcur (by decide) (by decide) (fun x => ?_) rfl ⟨trivial, by rintro ⟨⟩⟩
      simp [Unshare.count_refs, UnsharePc.committed, Nat.add_comm]
  | badUnshareCleanupCred committed =>
    -- on the way out of a failure this is the new one, otherwise there is none left
    cases newCred with
    | none =>
      cases hstep
      exact .stay hcur (.refl _ _ _) ⟨rfl, hsole⟩
    | some new =>
      cases hstep
      refine .release hcur (fun x => ?_) rfl ⟨rfl, fun hc => ?_⟩
      -- whether or not the pointers have been swapped, the credentials are counted
      · cases committed <;>
          simp only [Unshare.count_refs, UnsharePc.committed, slotRef_none, List.count_nil,
            Bool.false_eq_true, if_false, if_true] <;>
          omega
      · exact sole_of_count (by decide) (fun _ hne => Heap.put_count_ne (hne new)) (hsole hc)
  | badUnshareCleanupFd committed =>
    obtain rfl : newCred = none := hnull
    cases newFd with
    | none =>
      cases hstep
      exact .stay hcur (.refl _ _ _) ⟨⟨rfl, rfl⟩, hsole⟩
    | some fd =>
      cases hstep
      refine .release hcur (fun x => ?_) rfl ⟨⟨rfl, rfl⟩, fun hc => ?_⟩
      · cases committed <;>
          simp only [Unshare.count_refs, UnsharePc.committed, slotRef_none, List.count_nil,
            Bool.false_eq_true, if_false, if_true] <;>
          omega
      · exact sole_of_count (by decide) (fun _ hne => Heap.put_count_ne (hne fd)) (hsole hc)
  | badUnshareCleanupFs committed =>
    obtain ⟨rfl, rfl⟩ := hnull
    cases newFs with
    | none =>
      cases hstep
      refine .stay hcur ?_ ⟨⟨rfl, rfl, rfl⟩, by rintro - _ ⟨⟩⟩
      cases committed <;> exact .refl _ _ _
    | some fs =>
      cases hstep
      refine .stay hcur ?_ ⟨⟨rfl, rfl, rfl⟩, by rintro - _ ⟨⟩⟩
      -- an `fs` without users is freed, or the new one that nobody has seen
      cases committed with
      | true => exact .free_waste
      | false =>
        exact (Deal.perm List.perm_middle).trans (.free (hsole rfl fs rfl))
  | badUnshareOut =>
    obtain ⟨rfl, rfl, rfl⟩ := hnull
    cases hstep
    -- the namespaces of a call that failed late are nobody's now
    refine ⟨?_, by rintro _ ⟨⟩, fun x hx => ?_, hcur, fun _ _ => rfl⟩
    · cases newNsproxy <;> exact .refl _ _ _
    · obtain ⟨a, -, rfl⟩ := List.mem_map.mp hx
      rfl

end

end OsHomework.Fork
