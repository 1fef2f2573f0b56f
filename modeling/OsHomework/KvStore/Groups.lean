import Mathlib.Data.List.Induction
import OsHomework.Lib.Table
import OsHomework.KvStore.Alone

/-!
# KvStore — one store per thread group

`copy_process` copies the whole `task_struct`, pointers included, and much later either points the
new task to its creator's arrays (`CLONE_THREAD`) or gives it arrays of its own. All nodes live in
one memory. Calls are atomic here.

* **`KernelInv`** — tasks share a store exactly when they are of one thread group, and the chains of
  different stores have no node in common.
* **`read_own_group`** — over any tree of tasks and any order of calls, a read returns what its own
  thread group wrote last, and -1 if the group never wrote the key.
-/

namespace OsHomework.KvStore

open LinkedList Lts Table

/-! ## Tasks

`task_struct` has two pointers that the patch adds, and the thread group a task belongs to. The root
of the tree stands for a task that was created as the leader of its group. Allocations succeed here;
what happens when they do not is the subject of `Ledger`. -/

/-- The fields of `task_struct` the store deals with. -/
structure Task where
  tgid : Nat
  kvStore : Nat
  kvLocks : Nat

/-- The tasks by pid, the arrays of list heads and of locks by address, the nodes, and the calls
that have returned, oldest first. -/
structure Kernel where
  task : Nat → Option Task
  heads : Nat → Option (Int → Option Addr)
  locks : Nat → Option (Int → Option Nat)
  node : Addr → Option KvNode
  hist : List (Nat × Call × Int)

/-- The root of the tree: a leader made without `CLONE_THREAD`, so with a store of its own. -/
def kernelInit : Kernel where
  task := Function.update (fun _ => none) 0 (some ⟨0, 0, 0⟩)
  heads := Function.update (fun _ => none) 0 (some (initTaskKvStore Nat).first)
  locks := Function.update (fun _ => none) 0 (some (initTaskKvStore Nat).lock)
  node := fun _ => none
  hist := []

/-- The rest of `copy_process` for a task without `CLONE_THREAD`: `init_task_kv_store`, with the
addresses kmalloc_array returns. -/
def Kernel.initTaskKvStore (k : Kernel) (p : Task) (kvStore kvLocks : Nat) :
    Option (Task × Kernel) :=
  -- kmalloc never hands out memory that is in use
  if k.heads kvStore = none ∧ k.locks kvLocks = none then
    some ({ p with kvStore := kvStore, kvLocks := kvLocks }, { k with
      heads := Function.update k.heads kvStore (some (KvStore.initTaskKvStore Nat).first)
      locks := Function.update k.locks kvLocks (some (KvStore.initTaskKvStore Nat).lock) })
  else none

/-- `copy_process`, called by the task `current`; `pid` is the new pid. -/
def Kernel.copyProcess (k : Kernel) (current : Nat) (cloneThread : Bool)
    (pid kvStore kvLocks : Nat) : Option Kernel :=
  match k.task current, k.task pid with
  | some cur, none =>
    -- `*dst = *src`: all fields, the two pointers among them
    let p := cur
    if cloneThread then
      let p := { p with kvStore := cur.kvStore, kvLocks := cur.kvLocks }
      let p := { p with tgid := cur.tgid }
      some { k with task := Function.update k.task pid (some p) }
    else
      (k.initTaskKvStore p kvStore kvLocks).map fun (p, k) =>
        { k with task := Function.update k.task pid (some { p with tgid := pid }) }
  | _, _ => none

/-- A system call of the task `current`, run to its end. The arrays are those its pointers lead to;
`mem` is what a kmalloc of the call returns. -/
def Kernel.call (k : Kernel) (current : Nat) (c : Call) (mem : Addr) (fuel : Nat) :
    Option Kernel := do
  let cur ← k.task current
  let first ← k.heads cur.kvStore
  let lock ← k.locks cur.kvLocks
  if k.node mem = none then
    let (r, st) ← Pc.runTo current (some mem) fuel (.spinLock c) ⟨first, k.node, lock⟩
    some { k with
      heads := Function.update k.heads cur.kvStore (some st.first)
      locks := Function.update k.locks cur.kvLocks (some st.lock)
      node := st.node
      hist := k.hist ++ [(current, c, r)] }
  else none

inductive KernelLabel where
  | copyProcess (current : Nat) (cloneThread : Bool) (pid kvStore kvLocks : Nat)
  | call (current : Nat) (c : Call) (mem : Addr) (fuel : Nat)

def kernelStep (k : Kernel) : KernelLabel → Option Kernel
  | .copyProcess current cloneThread pid kvStore kvLocks =>
    k.copyProcess current cloneThread pid kvStore kvLocks
  | .call current c mem fuel => k.call current c mem fuel

/-- Calls are made with keys from 0 on. -/
def NonnegCalls (_ : Kernel) : KernelLabel → Prop
  | .call _ c _ _ => 0 ≤ c.key
  | .copyProcess .. => True

/-- The thread group of a task. -/
def tgidOf (task : Nat → Option Task) (t : Nat) : Option Nat := (task t).map (·.tgid)

/-- The calls made by the tasks of a thread group. -/
def groupCalls (task : Nat → Option Task) (hist : List (Nat × Call × Int)) (g : Option Nat) :
    List (Call × Int) :=
  (hist.filter fun e => tgidOf task e.1 = g).map (·.2)

/-! ## The invariant

Sharing is an equivalence: two tasks have the same `kv_store` pointer exactly if they have the same
tgid. With the stores kept apart, a call of one task acts on the map of its group and leaves the
maps of all others as they are. `copy_process` is treated once for threads and processes, as adding
a task with pointers to arrays that are there or new. -/

/-- `ch` has the chains of every store. -/
structure KernelInv (k : Kernel) (ch : Nat → Chains) : Prop where
  heads : ∀ t T, k.task t = some T → ∃ first, k.heads T.kvStore = some first
  locks : ∀ t T, k.task t = some T → ∃ lock, k.locks T.kvLocks = some lock
  free : ∀ l lock, k.locks l = some lock → ∀ b, lock b = none
  leader : ∀ t T, k.task t = some T → k.task T.tgid ≠ none
  group : ∀ t u T U, k.task t = some T → k.task u = some U →
    (T.kvStore = U.kvStore ↔ T.tgid = U.tgid)
  wf : ∀ p first, k.heads p = some first → WellFormed first k.node (ch p)
  apart : ∀ p q, k.heads p ≠ none → k.heads q ≠ none → ∀ b b', ∀ a ∈ ch p b, a ∈ ch q b' → p = q
  callers : ∀ e ∈ k.hist, k.task e.1 ≠ none
  written : ∀ e ∈ k.hist, ∀ key value, e.2.1 = .writeKv key value → e.2.2 = 0
  legal : ∀ g, Legal (groupCalls k.task k.hist (some g))
  represents : ∀ t T, k.task t = some T →
    Represents k.node (ch T.kvStore) (contents (groupCalls k.task k.hist (some T.tgid)))

/-- The one task there is at the start. -/
theorem kernelInit_task {t : Nat} {T : Task} (h : kernelInit.task t = some T) :
    t = 0 ∧ T = ⟨0, 0, 0⟩ := by
  simp only [kernelInit] at h
  exact (of_update_eq_some h).resolve_right (by simp)

/-- The root alone. -/
theorem kernelInv_init : KernelInv kernelInit fun _ _ => [] := by
  have hheads : ∀ p first, kernelInit.heads p = some first → p = 0 ∧ first = fun _ => none := by
    intro p first h
    simp only [kernelInit] at h
    exact (of_update_eq_some h).resolve_right (by simp)
  refine ⟨?_, ?_, ?_, ?_, ?_, ?_, ?_, ?_, ?_, fun _ => .nil, ?_⟩
  -- the root has its arrays, and is its own leader
  · rintro t T h
    obtain ⟨rfl, rfl⟩ := kernelInit_task h
    exact ⟨(initTaskKvStore Nat).first, rfl⟩
  · rintro t T h
    obtain ⟨rfl, rfl⟩ := kernelInit_task h
    exact ⟨(initTaskKvStore Nat).lock, rfl⟩
  · intro l lock h b
    simp only [kernelInit] at h
    obtain ⟨-, rfl⟩ := (of_update_eq_some h).resolve_right (by simp)
    rfl
  · rintro t T h
    obtain ⟨rfl, rfl⟩ := kernelInit_task h
    rw [h]
    simp
  · rintro t u T U ht hu
    obtain ⟨rfl, rfl⟩ := kernelInit_task ht
    obtain ⟨rfl, rfl⟩ := kernelInit_task hu
    simp
  -- one empty store, no calls
  · rintro p first h
    obtain ⟨rfl, rfl⟩ := hheads p first h
    exact wellFormed_nil _
  · intro p q _ _ b b' a ha
    cases ha
  · intro e he
    cases he
  · intro e he
    cases he
  · exact fun t T _ => represents_nil _

/-- What the calls of a group are does not depend on tasks that have called nothing. -/
theorem groupCalls_congr {task task' : Nat → Option Task} {hist : List (Nat × Call × Int)}
    {g : Option Nat} (h : ∀ e ∈ hist, task' e.1 = task e.1) :
    groupCalls task' hist g = groupCalls task hist g := by
  unfold groupCalls
  congr 1
  refine List.filter_congr fun e he => ?_
  rw [tgidOf, tgidOf, h e he]

theorem groupCalls_concat (task : Nat → Option Task) (hist : List (Nat × Call × Int)) (t : Nat)
    (c : Call) (r : Int) (g : Option Nat) :
    groupCalls task (hist ++ [(t, c, r)]) g =
      if tgidOf task t = g then groupCalls task hist g ++ [(c, r)] else groupCalls task hist g := by
  unfold groupCalls
  by_cases hg : tgidOf task t = g <;> simp [List.filter_append, hg]

section

variable {k k' : Kernel} {ch : Nat → Chains}

/-- The arrays of the kernel, or these and new ones: what was there stays, what is new is empty and
nobody holds a lock of it. -/
structure Extends (k : Kernel) (ch : Nat → Chains) (heads : Nat → Option (Int → Option Addr))
    (locks : Nat → Option (Int → Option Nat)) (ch' : Nat → Chains) : Prop where
  heads_old : ∀ q, k.heads q ≠ none → heads q = k.heads q ∧ ch' q = ch q
  heads_new : ∀ q, k.heads q = none → ∀ first, heads q = some first →
    first = (fun _ => none) ∧ ch' q = fun _ => []
  locks_old : ∀ l, k.locks l ≠ none → locks l = k.locks l
  locks_new : ∀ l, k.locks l = none → ∀ lock, locks l = some lock → ∀ b, lock b = none

theorem extends_self (k : Kernel) (ch : Nat → Chains) : Extends k ch k.heads k.locks ch := by
  refine ⟨fun _ _ => ⟨rfl, rfl⟩, fun q hq first hfirst => ?_, fun _ _ => rfl,
    fun l hl lock hlock => ?_⟩
  · rw [hq] at hfirst
    cases hfirst
  · rw [hl] at hlock
    cases hlock

/-- `init_task_kv_store` on places that are not in use. -/
theorem extends_alloc {kvStore kvLocks : Nat} (hheads : k.heads kvStore = none)
    (hlocks : k.locks kvLocks = none) (ch : Nat → Chains) :
    Extends k ch (Function.update k.heads kvStore (some fun _ => none))
      (Function.update k.locks kvLocks (some fun _ => none))
      (Function.update ch kvStore fun _ => []) where
  heads_old := by
    intro q hq
    have hne : q ≠ kvStore := by
      rintro rfl
      exact hq hheads
    exact ⟨Function.update_of_ne hne _ _, Function.update_of_ne hne _ _⟩
  heads_new := by
    intro q hq first hfirst
    obtain ⟨rfl, rfl⟩ := (of_update_eq_some hfirst).resolve_right (by simp [hq])
    exact ⟨rfl, Function.update_self ..⟩
  locks_old := by
    intro l hl
    refine Function.update_of_ne ?_ _ _
    rintro rfl
    exact hl hlocks
  locks_new := by
    intro l hl lock hlock b
    obtain ⟨rfl, rfl⟩ := (of_update_eq_some hlock).resolve_right (by simp [hl])
    rfl

section

variable {heads : Nat → Option (Int → Option Addr)} {locks : Nat → Option (Int → Option Nat)}
  {ch' : Nat → Chains}

theorem KernelInv.free_of_extends (h : KernelInv k ch) (hext : Extends k ch heads locks ch')
    {l : Nat} {lock : Int → Option Nat} (hl : locks l = some lock) (b : Int) : lock b = none := by
  cases hold : k.locks l with
  | none => exact hext.locks_new l hold lock hl b
  | some lock' =>
    rw [hext.locks_old l (by simp [hold])] at hl
    exact h.free l lock hl b

theorem KernelInv.wf_of_extends (h : KernelInv k ch) (hext : Extends k ch heads locks ch')
    {q : Nat} {first : Int → Option Addr} (hq : heads q = some first) :
    WellFormed first k.node (ch' q) := by
  cases hold : k.heads q with
  | none =>
    obtain ⟨rfl, hch⟩ := hext.heads_new q hold first hq
    rw [hch]
    exact wellFormed_nil _
  | some first' =>
    obtain ⟨heq, hch⟩ := hext.heads_old q (by simp [hold])
    rw [hch]
    exact h.wf q first (heq ▸ hq)

/-- A new store has no nodes yet. -/
theorem Extends.used (hext : Extends k ch heads locks ch') {q : Nat} {b : Int} {a : Addr}
    (hq : heads q ≠ none) (ha : a ∈ ch' q b) : k.heads q ≠ none ∧ a ∈ ch q b := by
  have hold : k.heads q ≠ none := by
    intro hnone
    obtain ⟨first, hfirst⟩ := Option.ne_none_iff_exists'.mp hq
    rw [(hext.heads_new q hnone first hfirst).2] at ha
    cases ha
  rw [(hext.heads_old q hold).2] at ha
  exact ⟨hold, ha⟩

/-- The tasks there were find their arrays as before. -/
theorem KernelInv.task_of_extends (h : KernelInv k ch) (hext : Extends k ch heads locks ch')
    {t : Nat} {T : Task} (ht : k.task t = some T) :
    (∃ first, heads T.kvStore = some first) ∧ (∃ lock, locks T.kvLocks = some lock) ∧
      ch' T.kvStore = ch T.kvStore := by
  obtain ⟨first, hfirst⟩ := h.heads t T ht
  obtain ⟨lock, hlock⟩ := h.locks t T ht
  obtain ⟨heads_eq, ch_eq⟩ := hext.heads_old T.kvStore (by simp [hfirst])
  have locks_eq := hext.locks_old T.kvLocks (by simp [hlock])
  exact ⟨⟨first, heads_eq.trans hfirst⟩, ⟨lock, locks_eq.trans hlock⟩, ch_eq⟩

end

/-- A new task and, if it has any, its new arrays: what is to be shown. -/
theorem KernelInv.newTask (h : KernelInv k ch) {pid : Nat} {p : Task}
    {heads : Nat → Option (Int → Option Addr)} {locks : Nat → Option (Int → Option Nat)}
    {ch' : Nat → Chains} (hpid : k.task pid = none) (hext : Extends k ch heads locks ch')
    (hp : (∃ first, heads p.kvStore = some first) ∧ ∃ lock, locks p.kvLocks = some lock)
    (hleader : p.tgid = pid ∨ k.task p.tgid ≠ none)
    (hgroup : ∀ u U, k.task u = some U → (p.kvStore = U.kvStore ↔ p.tgid = U.tgid))
    (hrep : Represents k.node (ch' p.kvStore) (contents (groupCalls k.task k.hist (some p.tgid)))) :
    KernelInv { k with
      task := Function.update k.task pid (some p), heads := heads, locks := locks } ch' := by
  have htask : ∀ t T, Function.update k.task pid (some p) t = some T →
      t = pid ∧ T = p ∨ t ≠ pid ∧ k.task t = some T := fun t T => of_update_eq_some
  -- whoever has called something is an old task
  have hcaller : ∀ e ∈ k.hist, Function.update k.task pid (some p) e.1 = k.task e.1 := by
    intro e he
    refine Function.update_of_ne ?_ _ _
    intro heq
    exact h.callers e he (heq ▸ hpid)
  have hcalls : ∀ g, groupCalls (Function.update k.task pid (some p)) k.hist g =
      groupCalls k.task k.hist g := fun g => groupCalls_congr hcaller
  refine ⟨?_, ?_, fun l lock hl b => h.free_of_extends hext hl b, ?_, ?_,
    fun q first hq => h.wf_of_extends hext hq, ?_, ?_, h.written, ?_, ?_⟩
  -- arrays of the new task and of the old ones
  · intro t T ht
    rcases htask t T ht with ⟨-, rfl⟩ | ⟨-, ht⟩
    · exact hp.1
    · exact (h.task_of_extends hext ht).1
  · intro t T ht
    rcases htask t T ht with ⟨-, rfl⟩ | ⟨-, ht⟩
    · exact hp.2
    · exact (h.task_of_extends hext ht).2.1
  · intro t T ht
    dsimp only
    by_cases hg : T.tgid = pid
    · rw [hg, Function.update_self]
      simp
    · rw [Function.update_of_ne hg]
      rcases htask t T ht with ⟨-, rfl⟩ | ⟨-, ht⟩
      · exact hleader.resolve_left hg
      · exact h.leader t T ht
  · -- the new task against an old one is the only case that is not known
    intro t u T U ht hu
    rcases htask t T ht with ⟨-, rfl⟩ | ⟨-, ht'⟩ <;> rcases htask u U hu with ⟨-, rfl⟩ | ⟨-, hu'⟩
    · simp
    · exact hgroup u U hu'
    · rw [eq_comm, hgroup t T ht', eq_comm]
    · exact h.group t u T U ht' hu'
  -- new stores are empty, so no node is in two
  · intro q q' hq hq' b b' a ha ha'
    obtain ⟨hold, hmem⟩ := hext.used hq ha
    obtain ⟨hold', hmem'⟩ := hext.used hq' ha'
    exact h.apart q q' hold hold' b b' a hmem hmem'
  · intro e he
    dsimp only
    rw [hcaller e he]
    exact h.callers e he
  -- the calls of each group, and what they have left, are as before
  · intro g
    rw [hcalls]
    exact h.legal g
  · intro t T ht
    rw [hcalls]
    rcases htask t T ht with ⟨-, rfl⟩ | ⟨-, ht⟩
    · exact hrep
    · rw [(h.task_of_extends hext ht).2.2]
      exact h.represents t T ht

/-- A thread has the pointers of its creator and is of its group. -/
theorem KernelInv.newThread (h : KernelInv k ch) {current pid : Nat} {cur : Task}
    (hcur : k.task current = some cur) (hpid : k.task pid = none) :
    KernelInv { k with task := Function.update k.task pid (some cur) } ch := by
  refine h.newTask hpid (extends_self k ch) ?_ ?_ ?_ ?_
  · exact ⟨h.heads current cur hcur, h.locks current cur hcur⟩
  · exact Or.inr (h.leader current cur hcur)
  · exact fun u U hu => h.group current u cur U hcur hu
  · exact h.represents current cur hcur

/-- A process has new arrays and is the first of its group. -/
theorem KernelInv.newProcess (h : KernelInv k ch) {pid kvStore kvLocks : Nat}
    (hpid : k.task pid = none) (hheads : k.heads kvStore = none) (hlocks : k.locks kvLocks = none) :
    KernelInv { k with
      task := Function.update k.task pid (some ⟨pid, kvStore, kvLocks⟩)
      heads := Function.update k.heads kvStore (some fun _ => none)
      locks := Function.update k.locks kvLocks (some fun _ => none) }
        (Function.update ch kvStore fun _ => []) := by
  refine h.newTask hpid (extends_alloc hheads hlocks ch) ?_ (Or.inl rfl) ?_ ?_
  · exact ⟨⟨_, Function.update_self ..⟩, ⟨_, Function.update_self ..⟩⟩
  · -- nobody uses the new arrays, and nobody is of the new group
    intro u U hu
    refine ⟨fun heq => ?_, fun heq => ?_⟩
    · obtain ⟨first, hfirst⟩ := h.heads u U hu
      rw [← heq, hheads] at hfirst
      cases hfirst
    · exact absurd (heq ▸ hpid) (h.leader u U hu)
  · -- the new group has called nothing
    have hnone : groupCalls k.task k.hist (some pid) = [] := by
      rw [groupCalls, List.map_eq_nil_iff, List.filter_eq_nil_iff]
      intro e he heq
      obtain ⟨T, hT⟩ := Option.ne_none_iff_exists'.mp (h.callers e he)
      simp only [tgidOf, hT, Option.map_some, decide_eq_true_eq, Option.some.injEq] at heq
      exact h.leader e.1 T hT (heq ▸ hpid)
    rw [hnone, Function.update_self]
    exact represents_nil _

/-- What `copy_process` leaves: a task with the pointers and the group of its creator, or one with
new arrays that is its own group. -/
theorem copyProcess_cases {current pid kvStore kvLocks : Nat} {cloneThread : Bool}
    (hstep : k.copyProcess current cloneThread pid kvStore kvLocks = some k') :
    k.task pid = none ∧ ∃ cur, k.task current = some cur ∧
      (cloneThread = true ∧ k' = { k with task := Function.update k.task pid (some cur) } ∨
        cloneThread = false ∧ k.heads kvStore = none ∧ k.locks kvLocks = none ∧
          k' = { k with
            task := Function.update k.task pid (some ⟨pid, kvStore, kvLocks⟩)
            heads := Function.update k.heads kvStore (some fun _ => none)
            locks := Function.update k.locks kvLocks (some fun _ => none) }) := by
  unfold Kernel.copyProcess at hstep
  split at hstep
  · next cur hcur hpid =>
    refine ⟨hpid, cur, hcur, ?_⟩
    cases cloneThread with
    | true =>
      cases hstep
      exact Or.inl ⟨rfl, rfl⟩
    | false =>
      simp only [Bool.false_eq_true, if_false, Kernel.initTaskKvStore] at hstep
      split at hstep
      · next hunused =>
        cases hstep
        exact Or.inr ⟨rfl, hunused.1, hunused.2, rfl⟩
      · cases hstep
  · cases hstep

/-- A call that returns. -/
theorem call_cases {current fuel : Nat} {c : Call} {mem : Addr}
    (hstep : k.call current c mem fuel = some k') :
    ∃ cur first lock r st, k.task current = some cur ∧ k.heads cur.kvStore = some first ∧
      k.locks cur.kvLocks = some lock ∧ k.node mem = none ∧
      Pc.runTo current (some mem) fuel (.spinLock c) ⟨first, k.node, lock⟩ = some (r, st) ∧
      k' = { k with
        heads := Function.update k.heads cur.kvStore (some st.first)
        locks := Function.update k.locks cur.kvLocks (some st.lock)
        node := st.node
        hist := k.hist ++ [(current, c, r)] } := by
  unfold Kernel.call at hstep
  obtain ⟨cur, hcur, hstep⟩ := Option.bind_eq_some_iff.mp hstep
  obtain ⟨first, hfirst, hstep⟩ := Option.bind_eq_some_iff.mp hstep
  obtain ⟨lock, hlock, hstep⟩ := Option.bind_eq_some_iff.mp hstep
  split at hstep
  · next hmem =>
    obtain ⟨⟨r, st⟩, hrun, hstep⟩ := Option.bind_eq_some_iff.mp hstep
    exact ⟨cur, first, lock, r, st, hcur, hfirst, hlock, hmem, hrun, (Option.some.inj hstep).symm⟩
  · cases hstep

/-- What a thread group has written. -/
def Kernel.groupMap (k : Kernel) (g : Nat) : Int → Option Int :=
  contents (groupCalls k.task k.hist (some g))

theorem KernelInv.stores (h : KernelInv k ch) : Stores k.heads k.node ch := ⟨h.wf, h.apart⟩

/-- The call of a task is one of its group's calls and of no other's. -/
theorem groupCalls_called {task : Nat → Option Task} {hist : List (Nat × Call × Int)} {t : Nat}
    {T : Task} (ht : task t = some T) (c : Call) (r : Int) (g : Nat) :
    groupCalls task (hist ++ [(t, c, r)]) (some g) =
      if T.tgid = g then groupCalls task hist (some g) ++ [(c, r)]
      else groupCalls task hist (some g) := by
  rw [groupCalls_concat]
  simp only [tgidOf, ht, Option.map_some, Option.some.injEq]

/-- The answer is the one the group's map gives. -/
theorem KernelInv.legal_called (h : KernelInv k ch) (g : Nat) (c : Call) :
    Legal (groupCalls k.task k.hist (some g) ++ [(c, c.answer (k.groupMap g))]) := by
  cases c with
  | readKv key => exact (h.legal g).read key
  | writeKv key value => exact (h.legal g).written key value

/-- A call acts on the map of its group and on no other. -/
theorem KernelInv.called (h : KernelInv k ch) {current : Nat} {cur : Task}
    {first : Int → Option Addr} {lock : Int → Option Nat} {c : Call} {st : Store Nat} {ch' : Chains}
    (hcur : k.task current = some cur) (hfirst : k.heads cur.kvStore = some first)
    (hlock : k.locks cur.kvLocks = some lock)
    (hcalled : Called c (k.groupMap cur.tgid) (ch cur.kvStore) ⟨first, k.node, lock⟩ st ch') :
    KernelInv { k with
      heads := Function.update k.heads cur.kvStore (some st.first)
      locks := Function.update k.locks cur.kvLocks (some st.lock)
      node := st.node
      hist := k.hist ++ [(current, c, c.answer (k.groupMap cur.tgid))] }
        (Function.update ch cur.kvStore ch') := by
  have hused : k.heads cur.kvStore ≠ none := by simp [hfirst]
  have hstores := h.stores.called hused hcalled
  refine ⟨?_, ?_, ?_, h.leader, h.group, hstores.wf, hstores.apart, ?_, ?_, ?_, ?_⟩ <;> dsimp only
  · exact fun t T ht => exists_update (h.heads t T ht) _ _
  · exact fun t T ht => exists_update (h.locks t T ht) _ _
  -- the lock that was taken has been released
  · intro l lock' hl
    rcases of_update_eq_some hl with ⟨rfl, rfl⟩ | ⟨-, hl⟩
    · rw [hcalled.lock_eq]
      exact h.free _ _ hlock
    · exact h.free l lock' hl
  · intro e he
    rcases List.mem_append.mp he with he | he
    · exact h.callers e he
    · rw [List.mem_singleton.mp he]
      simp [hcur]
  -- a write that returns has been given memory
  · intro e he key value hwrite
    rcases List.mem_append.mp he with he | he
    · exact h.written e he key value hwrite
    · rw [List.mem_singleton.mp he] at hwrite ⊢
      rw [show c = .writeKv key value from hwrite]
      rfl
  -- the call is appended to the calls of one group
  · intro g
    rw [groupCalls_called hcur]
    by_cases hg : cur.tgid = g
    · rw [if_pos hg, ← hg]
      exact h.legal_called cur.tgid c
    · rw [if_neg hg]
      exact h.legal g
  · intro t T ht
    rw [groupCalls_called hcur]
    by_cases hg : cur.tgid = T.tgid
    · -- a task of the caller's group has the caller's store
      rw [if_pos hg, (h.group t current T cur ht hcur).mpr hg.symm, Function.update_self, ← hg,
        contents_concat]
      exact hcalled.represents
    -- the store of another group has not changed
    · have hs : T.kvStore ≠ cur.kvStore := fun hs =>
        hg ((h.group t current T cur ht hcur).mp hs).symm
      obtain ⟨first', hfirst'⟩ := h.heads t T ht
      rw [if_neg hg, Function.update_of_ne hs]
      exact (h.represents t T ht).congr (h.stores.others_same hused hcalled hs (by simp [hfirst']))

/-- In every state of the invariant a call of a task returns what its group's map answers. -/
theorem KernelInv.call_returns (h : KernelInv k ch) {current : Nat} {cur : Task} {mem : Addr}
    (hcur : k.task current = some cur) (hmem : k.node mem = none) (c : Call) :
    ∃ first lock st ch', k.heads cur.kvStore = some first ∧ k.locks cur.kvLocks = some lock ∧
      Leads current (some mem) (.spinLock c) ⟨first, k.node, lock⟩
        (.ret (c.answer (k.groupMap cur.tgid))) st ∧
      Called c (k.groupMap cur.tgid) (ch cur.kvStore) ⟨first, k.node, lock⟩ st ch' := by
  obtain ⟨first, hfirst⟩ := h.heads current cur hcur
  obtain ⟨lock, hlock⟩ := h.locks current cur hcur
  have hmem' : (⟨first, k.node, lock⟩ : Store Nat).node mem = none := hmem
  obtain ⟨st, ch', hleads, hcalled⟩ := call_alone current c hmem' (h.free _ _ hlock _)
    (h.wf _ _ hfirst) (h.represents current cur hcur)
  exact ⟨first, lock, st, ch', hfirst, hlock, hleads, hcalled⟩

/-- **One step.** -/
theorem KernelInv.step (h : KernelInv k ch) {l : KernelLabel} (hstep : kernelStep k l = some k') :
    ∃ ch', KernelInv k' ch' := by
  cases l with
  | copyProcess current cloneThread pid kvStore kvLocks =>
    -- a thread or a process
    obtain ⟨hpid, cur, hcur, hthread | hprocess⟩ := copyProcess_cases hstep
    · obtain ⟨-, rfl⟩ := hthread
      exact ⟨ch, h.newThread hcur hpid⟩
    · obtain ⟨-, hheads, hlocks, rfl⟩ := hprocess
      exact ⟨_, h.newProcess hpid hheads hlocks⟩
  | call current c mem fuel =>
    obtain ⟨cur, first, lock, r, st, hcur, hfirst, hlock, hmem, hrun, rfl⟩ := call_cases hstep
    -- the call returns, and always what the map answers
    obtain ⟨first', lock', st', ch', hfirst', hlock', hleads, hcalled⟩ := h.call_returns hcur hmem c
    obtain rfl : first = first' := Option.some.inj (hfirst.symm.trans hfirst')
    obtain rfl : lock = lock' := Option.some.inj (hlock.symm.trans hlock')
    obtain ⟨rfl, rfl⟩ := Prod.mk.inj (hleads.unique hrun)
    exact ⟨_, h.called hcur hfirst hlock hcalled⟩

end

/-! ## What a read returns

The map of a group is defined by folding over its calls. What the last write to a key was can also
be found by going back through the history of all calls; that is how the result is stated. -/

/-- The value the call writes to the key. -/
def Call.writtenTo (key : Int) : Call → Option Int
  | .writeKv key' value => if key' = key then some value else none
  | .readKv _ => none

/-- The value most recently written to the key by a task of the thread group. -/
def lastWritten (task : Nat → Option Task) (hist : List (Nat × Call × Int)) (g : Option Nat)
    (key : Int) : Option Int :=
  hist.reverse.findSome? fun e => if tgidOf task e.1 = g then e.2.1.writtenTo key else none

/-- The map a group's calls leave has the values written last. -/
theorem contents_groupCalls (task : Nat → Option Task) {hist : List (Nat × Call × Int)}
    (hwritten : ∀ e ∈ hist, ∀ key value, e.2.1 = .writeKv key value → e.2.2 = 0) (g : Option Nat)
    (key : Int) : contents (groupCalls task hist g) key = lastWritten task hist g key := by
  induction hist using List.reverseRecOn with
  | nil => rfl
  | append_singleton hist e ih =>
    obtain ⟨t, c, r⟩ := e
    have hrest := ih fun e he => hwritten e (List.mem_append_left _ he)
    have hlast : ∀ key value, c = .writeKv key value → r = 0 :=
      hwritten (t, c, r) (List.mem_append_right _ (List.mem_singleton_self _))
    -- the last call decides if it is a write to the key by this group
    have hfind : lastWritten task (hist ++ [(t, c, r)]) g key =
        ((if tgidOf task t = g then c.writtenTo key else none).or
          (lastWritten task hist g key)) := by
      simp only [lastWritten, List.reverse_append, List.reverse_singleton, List.singleton_append,
        List.findSome?_cons]
      cases (if tgidOf task t = g then c.writtenTo key else none) <;> rfl
    rw [groupCalls_concat, hfind]
    by_cases hg : tgidOf task t = g
    · rw [if_pos hg, if_pos hg, contents_concat, ← hrest]
      cases c with
      | readKv key' => rfl
      | writeKv key' value =>
        obtain rfl := hlast key' value rfl
        simp only [effect, if_true, Call.writtenTo]
        by_cases hkey : key' = key
        · subst hkey
          simp
        · simp [hkey, Function.update_of_ne (Ne.symm hkey)]
    · rw [if_neg hg, if_neg hg, hrest, Option.none_or]

/-- An element of a list is its last one or lies in the list before it. -/
theorem concat_eq_append_cons {α : Type*} {ds cs cs' : List α} {x a : α}
    (h : ds ++ [x] = cs ++ a :: cs') : ds = cs ∧ x = a ∨ ∃ ds', ds = cs ++ a :: ds' := by
  rcases List.eq_nil_or_concat' cs' with rfl | ⟨ds', y, rfl⟩
  · obtain ⟨rfl, hx⟩ := List.append_inj' h rfl
    exact Or.inl ⟨rfl, (List.cons.inj hx).1⟩
  · rw [← List.cons_append, ← List.append_assoc] at h
    exact Or.inr ⟨ds', (List.append_inj' h rfl).1⟩

/-- A read in a legal run returns the value of the map at that point. -/
theorem Legal.read_eq {l : List (Call × Int)} (h : Legal l) {cs cs' : List (Call × Int)}
    {key r : Int} (hl : l = cs ++ (.readKv key, r) :: cs') : r = (contents cs key).getD (-1) := by
  induction h generalizing cs' with
  | nil => simp at hl
  | read _ key' ih =>
    rcases concat_eq_append_cons hl with ⟨rfl, hx⟩ | ⟨ds, hds⟩
    · cases hx
      rfl
    · exact ih hds
  | written _ key' value ih =>
    rcases concat_eq_append_cons hl with ⟨-, hx⟩ | ⟨ds, hds⟩
    · cases hx
    · exact ih hds
  | refused _ key' value ih =>
    rcases concat_eq_append_cons hl with ⟨-, hx⟩ | ⟨ds, hds⟩
    · cases hx
    · exact ih hds

/-- A read in the history of the kernel. -/
theorem KernelInv.read_eq {k : Kernel} {ch : Nat → Chains} (h : KernelInv k ch)
    {pre post : List (Nat × Call × Int)} {t : Nat} {key r : Int}
    (hhist : k.hist = pre ++ (t, .readKv key, r) :: post) :
    r = (lastWritten k.task pre (tgidOf k.task t) key).getD (-1) := by
  have hmem : (t, Call.readKv key, r) ∈ k.hist := by simp [hhist]
  obtain ⟨T, hT⟩ := Option.ne_none_iff_exists'.mp (h.callers _ hmem)
  have hg : tgidOf k.task t = some T.tgid := by rw [tgidOf, hT, Option.map_some]
  have hsplit : groupCalls k.task k.hist (some T.tgid) =
      groupCalls k.task pre (some T.tgid) ++
        (.readKv key, r) :: groupCalls k.task post (some T.tgid) := by
    simp [hhist, groupCalls, List.filter_append, hg]
  have hpre : ∀ e ∈ pre, ∀ key value, e.2.1 = .writeKv key value → e.2.2 = 0 := fun e he =>
    h.written e (by rw [hhist]; exact List.mem_append_left _ he)
  rw [(h.legal T.tgid).read_eq hsplit, contents_groupCalls k.task hpre, hg]

/-- **A store per thread group.** Over any tree of tasks made by `copy_process` and any order of
calls: each `read_kv` has returned the value most recently written to the key by a task of the
caller's thread group, and -1 if none of the group had written it; every call of a task returns; and
a task made without `CLONE_THREAD` is the first of its group and starts with empty lists. -/
theorem read_own_group (k : Kernel) (h : Reach kernelStep NonnegCalls kernelInit k) :
    (∀ pre t key r post, k.hist = pre ++ (t, .readKv key, r) :: post →
        r = (lastWritten k.task pre (tgidOf k.task t) key).getD (-1)) ∧
      (∀ t T c mem, k.task t = some T → 0 ≤ c.key → k.node mem = none →
        ∃ fuel k', kernelStep k (.call t c mem fuel) = some k') ∧
      ∀ current pid kvStore kvLocks k',
        kernelStep k (.copyProcess current false pid kvStore kvLocks) = some k' →
          k'.task pid = some ⟨pid, kvStore, kvLocks⟩ ∧ k'.heads kvStore = some fun _ => none := by
  obtain ⟨ch, hinv⟩ : ∃ ch, KernelInv k ch :=
    h.inv (I := fun k => ∃ ch, KernelInv k ch) ⟨_, kernelInv_init⟩ fun _ _ _ ⟨_, hinv⟩ _ hstep =>
      hinv.step hstep
  refine ⟨fun pre t key r post => hinv.read_eq, ?_, ?_⟩
  -- enough fuel is there for every call
  · intro t T c mem ht _ hmem
    obtain ⟨first, lock, st, ch', hfirst, hlock, hleads, -⟩ := hinv.call_returns ht hmem c
    obtain ⟨fuel, hrun⟩ := hleads.runTo_eq
    have hdone : (k.call t c mem fuel).isSome := by
      simp [Kernel.call, ht, hfirst, hlock, hmem, hrun]
    obtain ⟨k', hk'⟩ := Option.isSome_iff_exists.mp hdone
    exact ⟨fuel, k', hk'⟩
  · intro current pid kvStore kvLocks k' hstep
    obtain ⟨-, cur, -, ⟨hthread, -⟩ | ⟨-, -, -, rfl⟩⟩ := copyProcess_cases hstep
    · cases hthread
    · exact ⟨Function.update_self .., Function.update_self ..⟩

instance (k : Kernel) (l : KernelLabel) : Decidable (NonnegCalls k l) :=
  match l with
  | .call _ c _ _ => inferInstanceAs (Decidable (0 ≤ c.key))
  | .copyProcess _ _ _ _ _ => isTrue trivial

/-- Task 0 writes 7 to key 5, makes a process and a thread, and both read the key. -/
def familyRun : List KernelLabel :=
  [.call 0 (.writeKv 5 7) 100 20, .copyProcess 0 false 1 1 1, .copyProcess 0 true 2 2 2,
    .call 1 (.readKv 5) 101 20, .call 2 (.readKv 5) 101 20]

theorem read_own_group_family :
    ∃ k, Reach kernelStep NonnegCalls kernelInit k ∧
      k.hist = [(0, .writeKv 5 7, 0), (1, .readKv 5, -1), (2, .readKv 5, 7)] ∧
      -1 = (lastWritten k.task [(0, .writeKv 5 7, 0)] (tgidOf k.task 1) 5).getD (-1) := by
  have hrun : (exec kernelStep (fun k l => decide (NonnegCalls k l)) kernelInit familyRun).map
      Kernel.hist = some [(0, .writeKv 5 7, 0), (1, .readKv 5, -1), (2, .readKv 5, 7)] := by
    decide +kernel
  obtain ⟨k, hreach, hhist⟩ := reach_of_exec_map hrun fun _ _ h => of_decide_eq_true h
  exact ⟨k, hreach, hhist, (read_own_group k hreach).1 [(0, .writeKv 5 7, 0)] 1 5 (-1) _ hhist⟩

end OsHomework.KvStore
