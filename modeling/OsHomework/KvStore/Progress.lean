import Mathlib.Algebra.Order.BigOperators.Group.Finset
import OsHomework.KvStore.Census
import OsHomework.KvStore.Parallel

/-!
# KvStore — every call returns

A thread spins until its bucket's lock is free, and walks a chain that others may have made longer
before it got the lock. Neither can go on for ever: whoever has a lock can go on (it takes no second
one), and a chain grows only by nodes of writes that are still under way.

* **`Pc.ahead`** — a bound on the operations a call has ahead of it, `Shape.ahead_self` and
  `Shape.ahead_other`: an operation makes it smaller for its own thread and larger for nobody.
* **`Shape.exists_not_waiting`** — somebody does not wait.
* **`calls_return`** — from every state of the kernel all runs without new calls end, and they end
  with every call returned.
-/

namespace OsHomework.KvStore

open LinkedList Lts

/-! ## How much a call has ahead of it

The bound counts the operations from the program counter to the return, with the longest way taken
at each branch, and the nodes of the chain that is still to be walked. While a thread waits for the
lock the chain may become longer, by one node for each write under way. The bound therefore contains
these as well, and an insertion moves one unit from the one to the other. -/

/-- The nodes the call may still put into a chain. -/
def Pc.adds : Pc → Nat
  | .spinLock (.writeKv _ _) | .head (.writeKv _ _) | .forEach (.writeKv _ _) _ => 1
  | .kmalloc _ _ | .hlistAddHead _ _ _ => 1
  | _ => 0

section

variable {T : Type}

/-- The operations a call has ahead of it once it has the lock, at most, when the calls under way
can make a chain longer by `adds` nodes. -/
noncomputable def Pc.ahead (st : Store T) (adds : Nat) : Pc → Nat
  | .idle => 0
  | .ret _ => 1
  | .spinUnlock _ _ | .loadValue _ _ => 2
  | .setValue _ _ _ | .hlistAddHead _ _ _ | .spinUnlockHit _ _ => 3
  | .kmalloc _ _ => 4
  | .forEach _ pos => 5 + span (nextOf st.node) pos
  | .head c => 6 + span (nextOf st.node) (st.first (bucket c.key)) + adds
  | .spinLock c => 7 + span (nextOf st.node) (st.first (bucket c.key)) + adds

variable {st st' : Store T} {pc : T → Pc} {t : T} {pc' : Pc} {ch : Chains}

/-- The walk from the head of a list sees its whole chain. -/
theorem Shape.span_first (h : Shape st pc ch) (b : Int) :
    span (nextOf st.node) (st.first b) = (ch b).length := (h.wf.chain b).span_eq

/-- A node that is added to a chain was one that could be added. -/
theorem Move.length_le (hmove : Move t st (pc t) pc' st') (ch : Chains) (b : Int) :
    ((pc t).grow ch b).length + pc'.adds ≤ (ch b).length + (pc t).adds := by
  generalize pc t = p at hmove
  cases hmove with
  | acquire c hfree => cases c <;> exact le_rfl
  | enter c => cases c <;> exact le_rfl
  | next c p n hnode hkey => cases c <;> exact le_rfl
  | addHead key value a n hnode =>
    by_cases hb : b = bucket key
    · subst hb
      simp [Pc.grow, Pc.adds]
    · simp [Pc.grow, Pc.adds, hb]
  | _ => simp [Pc.grow, Pc.adds]

/-- A walk sees nothing of what the others do. -/
theorem Shape.span_walk (h : Shape st pc ch) (hmove : Move t st (pc t) pc' st') {c : Call}
    {pos : Option Addr} (hknows : Knows st.node ch (.forEach c pos)) :
    span (nextOf st'.node) pos = span (nextOf st.node) pos := by
  obtain ⟨seen, rest, hch, hchain, -⟩ := hknows
  have hafter : Chain (nextOf st'.node) pos rest := by
    refine hchain.congr fun a ha => h.wf.nextOf_eq (h.sameLinks hmove) (b := bucket c.key) ?_
    rw [hch]
    exact List.mem_append_right _ ha
  rw [hchain.span_eq, hafter.span_eq]

/-- **Somebody does not wait**: a thread in a call, or the one that holds the lock it waits for. -/
theorem Shape.exists_not_waiting (h : Shape st pc ch) (hbusy : pc t ≠ .idle) :
    ∃ u, pc u ≠ .idle ∧ ∀ c, pc u = .spinLock c → st.lock (bucket c.key) = none := by
  by_cases hwait : ∃ c, pc t = .spinLock c ∧ st.lock (bucket c.key) ≠ none
  · obtain ⟨c, -, hlock⟩ := hwait
    obtain ⟨u, hu⟩ := Option.ne_none_iff_exists'.mp hlock
    have hheld := (h.held _ u).mp hu
    refine ⟨u, ?_, fun c' hc' => ?_⟩
    · intro hidle
      rw [hidle] at hheld
      cases hheld
    · rw [hc'] at hheld
      cases hheld
  · refine ⟨t, hbusy, fun c hc => ?_⟩
    by_contra hlock
    exact hwait ⟨c, hc, hlock⟩

/-- A thread that does not wait and whose node is there can go on, even without memory. -/
theorem Pc.step_isSome {p : Pc} (hnode : ∀ a, p.pointer = some a → ∃ n, st.node a = some n)
    (hfree : ∀ c, p = .spinLock c → st.lock (bucket c.key) = none) (hbusy : p ≠ .idle)
    (hret : ∀ r, p ≠ .ret r) : ∃ r, p.step t none st = some r := by
  -- one case for each program counter; only the lock and the nodes can be in the way
  cases p with
  | idle => exact absurd rfl hbusy
  | ret r => exact absurd rfl (hret r)
  | spinLock c => exact ⟨_, if_pos (hfree c rfl)⟩
  | forEach c pos =>
    cases pos with
    | none => cases c <;> exact ⟨_, rfl⟩
    | some a =>
      obtain ⟨n, hn⟩ := hnode a rfl
      by_cases hkey : n.key = c.key
      · cases c with
        | writeKv key value => exact ⟨_, by simp [Pc.step, hn, hkey]; rfl⟩
        | readKv key => exact ⟨_, by simp [Pc.step, hn, hkey]; rfl⟩
      · exact ⟨_, by simp [Pc.step, hn, hkey]; rfl⟩
  | setValue key value a =>
    obtain ⟨n, hn⟩ := hnode a rfl
    exact ⟨_, by simp [Pc.step, hn]; rfl⟩
  | hlistAddHead key value a =>
    obtain ⟨n, hn⟩ := hnode a rfl
    exact ⟨_, by simp [Pc.step, hn]; rfl⟩
  | loadValue key a =>
    obtain ⟨n, hn⟩ := hnode a rfl
    exact ⟨_, by simp [Pc.step, hn]; rfl⟩
  | _ => exact ⟨_, rfl⟩

variable [DecidableEq T]

/-- The chain of a bucket, with the nodes that can still be added to it, does not get longer. -/
theorem Shape.span_le (h : Shape st pc ch) (hmove : Move t st (pc t) pc' st') {m m' : Nat}
    (hm : m' + (pc t).adds = m + pc'.adds) (b : Int) :
    span (nextOf st'.node) (st'.first b) + m' ≤ span (nextOf st.node) (st.first b) + m := by
  rw [h.span_first, (h.step hmove).span_first]
  have hle := hmove.length_le ch b
  omega

/-- **The others** have no more ahead of them than before. -/
theorem Shape.ahead_other (h : Shape st pc ch) (hmove : Move t st (pc t) pc' st') {m m' : Nat}
    (hm : m' + (pc t).adds = m + pc'.adds) (u : T) : (pc u).ahead st' m' ≤ (pc u).ahead st m := by
  have hknows := h.knows u
  generalize pc u = p at hknows
  cases p with
  | spinLock c =>
    have hle := h.span_le hmove hm (bucket c.key)
    simp only [Pc.ahead]
    omega
  | head c =>
    have hle := h.span_le hmove hm (bucket c.key)
    simp only [Pc.ahead]
    omega
  | forEach c pos => simp only [Pc.ahead, h.span_walk hmove hknows, le_refl]
  | _ => exact le_rfl

/-- **The thread itself** has less ahead of it. -/
theorem Shape.ahead_self (h : Shape st pc ch) (hmove : Move t st (pc t) pc' st') {m m' : Nat}
    (hm : m' + (pc t).adds = m + pc'.adds) : pc'.ahead st' m' < (pc t).ahead st m := by
  have hknows := h.knows t
  have hspan := h.span_le hmove hm
  generalize pc t = p at hmove hknows hm hspan
  cases hmove with
  -- the chain may have grown, by nodes that were counted
  | acquire c hfree =>
    have hle := hspan (bucket c.key)
    simp only [Pc.ahead]
    omega
  | enter c =>
    simp only [Pc.ahead]
    omega
  | next c p n hnode hkey =>
    -- one node less to walk
    obtain ⟨seen, rest, -, hchain, -⟩ := hknows
    obtain ⟨rest, rfl, htail⟩ := hchain.eq_cons
    rw [nextOf_of_node hnode] at htail
    simp only [Pc.ahead, hchain.span_eq, htail.span_eq, List.length_cons]
    omega
  | hitWrite key value p n hnode hkey =>
    simp only [Pc.ahead]
    omega
  | hitRead key p n hnode hkey =>
    simp only [Pc.ahead]
    omega
  | missWrite key value =>
    simp only [Pc.ahead]
    omega
  | missRead key =>
    simp only [Pc.ahead]
    omega
  | _ => simp only [Pc.ahead, Nat.reduceLT]

/-! ## One store

In the machine of one store the number of nodes that can still be added is a sum over the threads.
Exactly the thread that moves changes its part. -/

/-- What the thread `t` has ahead of it; `A` are the threads that may be in a call. -/
noncomputable def KvState.ahead (s : KvState T) (A : Finset T) (t : T) : Nat :=
  (s.pc t).ahead s.store (∑ u ∈ A, (s.pc u).adds)

/-- The nodes that can still be added, after one thread has moved. -/
theorem sum_adds_update (pc : T → Pc) (pc' : Pc) {A : Finset T} (ht : t ∈ A) :
    (∑ u ∈ A, (Function.update pc t pc' u).adds) + (pc t).adds =
      (∑ u ∈ A, (pc u).adds) + pc'.adds := by
  have hothers : ∑ u ∈ A.erase t, (Function.update pc t pc' u).adds =
      ∑ u ∈ A.erase t, (pc u).adds := by
    refine Finset.sum_congr rfl fun u hu => ?_
    rw [Function.update_of_ne (Finset.ne_of_mem_erase hu)]
  rw [← Finset.add_sum_erase A (fun u => (Function.update pc t pc' u).adds) ht,
    ← Finset.add_sum_erase A (fun u => (pc u).adds) ht, hothers, Function.update_self]
  omega

/-- A step brings its thread nearer to its return, and takes nobody further away from it. -/
theorem ahead_of_kvStep {s s' : KvState T} {a : Action} {A : Finset T} (hsim : Simulates s)
    (ht : t ∈ A) (ha : a.IsRun) (hstep : kvStep s (t, a) = some s') :
    s'.ahead A t < s.ahead A t ∧ ∀ u, u ≠ t → s'.ahead A u ≤ s.ahead A u := by
  obtain ⟨ch, -, hshape, -⟩ := hsim
  rcases kvStep_cases hstep with ⟨c, hpc, -⟩ | ⟨r, hpc, rfl⟩ | ⟨pc', st', hmove, rfl⟩
  -- a new call is not among these steps
  · cases a with
    | run mem =>
      have hidle : s.pc t = .idle := hpc
      simp [kvStep, hidle, Pc.step] at hstep
    | invoke c => exact ha.elim
  -- a return adds no node
  · have hret : s.pc t = .ret r := hpc
    have hsum := sum_adds_update s.pc .idle ht
    rw [hret] at hsum
    have hsame : (∑ u ∈ A, (Function.update s.pc t .idle u).adds) = ∑ u ∈ A, (s.pc u).adds := hsum
    simp only [KvState.ahead, hsame]
    refine ⟨?_, fun u hu => ?_⟩
    · simp [hret, Pc.ahead]
    · simp [hu]
  -- an operation, by the two lemmas above
  · have hsum := sum_adds_update s.pc pc' ht
    simp only [KvState.ahead]
    refine ⟨?_, fun u hu => ?_⟩
    · rw [Function.update_self]
      exact hshape.ahead_self hmove hsum
    · rw [Function.update_of_ne hu]
      exact hshape.ahead_other hmove hsum u

end

/-! ## The kernel

Each task has its bound in the store of its group, and the groups do not see each other's steps. So
the sum over all tasks decreases with every step, and that nobody can go on means that nobody is in
a call. Tasks come from `copy_process` only, one at a time, which makes the sum finite. -/

/-- The label is an operation or a return of a call that has begun. -/
def ParallelLabel.IsRun : ParallelLabel → Prop
  | .run _ _ => True
  | _ => False

/-- What a task has ahead of it in the store of its group. -/
noncomputable def Parallel.ahead (s : Parallel) (owner : Addr → Option Nat) (A : Finset Nat)
    (t : Nat) : Nat :=
  match s.kernel.task t with
  | some T => (s.view owner T).ahead A t
  | none => 0

/-- A task that exists. -/
theorem Parallel.ahead_of_task {s : Parallel} {owner : Addr → Option Nat} {A : Finset Nat} {t : Nat}
    {T : Task} (ht : s.kernel.task t = some T) :
    s.ahead owner A t = (s.view owner T).ahead A t := by
  rw [Parallel.ahead, ht]

/-- A step of a call that has begun makes the sum over all tasks smaller. -/
theorem ParallelInv.ahead_lt {s s' : Parallel} {owner owner' : Addr → Option Nat} {A : Finset Nat}
    {t : Nat} {T : Task} (h : ParallelInv s owner) (htask : s'.kernel.task = s.kernel.task)
    (ht : s.kernel.task t = some T) (hmem : t ∈ A)
    (hstep : GroupStep s s' owner owner' t T Action.IsRun) :
    ∑ u ∈ A, s'.ahead owner' A u < ∑ u ∈ A, s.ahead owner A u := by
  -- the tasks of the group have at most what they had, the other groups do not notice
  refine Finset.sum_lt_sum (fun u _ => ?_) ⟨t, hmem, ?_⟩
  · cases hu : s.kernel.task u with
    | none => simp [Parallel.ahead, htask, hu]
    | some U =>
      rw [Parallel.ahead_of_task hu, Parallel.ahead_of_task (by rw [htask, hu])]
      by_cases hg : T.tgid = U.tgid
      · obtain ⟨a, ha, hkv⟩ := hstep.own u U hu hg
        obtain ⟨hself, hothers⟩ := ahead_of_kvStep (h.simulates hu) hmem ha hkv
        by_cases hut : u = t
        · rw [hut]
          exact hself.le
        · exact hothers u hut
      · rw [hstep.other u U hu hg]
  -- the task itself has less
  · rw [Parallel.ahead_of_task ht, Parallel.ahead_of_task (by rw [htask, ht])]
    obtain ⟨a, ha, hkv⟩ := hstep.own t T ht rfl
    exact (ahead_of_kvStep (h.simulates ht) hmem ha hkv).1

/-- A call that is not at its return goes on with its next operation. -/
theorem parallelStep_run {s : Parallel} {t : Nat} {mem : Option Addr} {r : Pc × Kernel}
    (hret : ∀ r, s.pc t ≠ .ret r) (hprim : s.kernel.prim t mem (s.pc t) = some r) :
    parallelStep s (.run t mem) =
      some { s with kernel := r.2, pc := Function.update s.pc t r.1 } := by
  simp only [parallelStep]
  rw [hprim, Option.map_some]

/-- As long as a task is in a call, some task can go on. -/
theorem ParallelInv.exists_run {s : Parallel} {owner : Addr → Option Nat} (h : ParallelInv s owner)
    {t : Nat} (hbusy : s.pc t ≠ .idle) : ∃ u s', parallelStep s (.run u none) = some s' := by
  have hlive : s.kernel.task t ≠ none := fun hnone => hbusy (h.idle t hnone)
  obtain ⟨T, ht⟩ := Option.ne_none_iff_exists'.mp hlive
  obtain ⟨ch, -, hshape, -⟩ := h.simulates ht
  obtain ⟨u, hu, hfree⟩ := hshape.exists_not_waiting (t := t) (by rwa [view_pc_self ht])
  -- the task that does not wait is of the same group
  have hgroup : tgidOf s.kernel.task u = some T.tgid := by
    by_contra hne
    exact hu (if_neg hne)
  obtain ⟨U, hU, htgid⟩ := Option.map_eq_some_iff.mp hgroup
  have hpc : (s.view owner T).pc u = s.pc u := if_pos hgroup
  rw [hpc] at hu hfree
  -- it is at its return, or its next operation has all it needs
  by_cases hret : ∃ r, s.pc u = .ret r
  · obtain ⟨r, hr⟩ := hret
    exact ⟨u, _, by simp only [parallelStep, hr]; rfl⟩
  · have hlocks := (h.sameLocks u t U T hU ht).mpr htgid
    obtain ⟨first, hfirst⟩ := Option.ne_none_iff_exists'.mp (h.heads u U hU)
    obtain ⟨lock, hlock⟩ := Option.ne_none_iff_exists'.mp (h.locks u U hU)
    have hnode : ∀ a, (s.pc u).pointer = some a → ∃ n, s.kernel.node a = some n := by
      intro a ha
      have hknows := hshape.knows u
      rw [hpc] at hknows
      obtain ⟨n, hn⟩ := hknows.pointer hshape.wf ha
      exact ⟨n, (ownNodes_eq_some.mp hn).2⟩
    have hgo : ∀ c, s.pc u = .spinLock c → lock (bucket c.key) = none := by
      intro c hc
      have hnone := hfree c hc
      simpa [Parallel.view, Store.part, Kernel.store, ← hlocks, hlock] using hnone
    have hstep : ∃ r, (s.pc u).step u none ⟨first, s.kernel.node, lock⟩ = some r :=
      Pc.step_isSome hnode hgo hu fun r hr => hret ⟨r, hr⟩
    obtain ⟨⟨pc', st'⟩, hstep⟩ := hstep
    have hprim : ∃ r, s.kernel.prim u none (s.pc u) = some r :=
      ⟨_, by simp only [Kernel.prim, hU, hfirst, hlock, Option.bind_eq_bind, Option.bind_some,
        hstep]; rfl⟩
    obtain ⟨r, hprim⟩ := hprim
    exact ⟨u, _, parallelStep_run (fun r hr => hret ⟨r, hr⟩) hprim⟩

/-- There are finitely many tasks. -/
theorem finite_tasks {s : Parallel} (h : Reach parallelStep NonnegInvokes parallelInit s) :
    ∃ A : Finset Nat, ∀ t, s.kernel.task t ≠ none → t ∈ A := by
  refine h.inv (I := fun s => ∃ A : Finset Nat, ∀ t, s.kernel.task t ≠ none → t ∈ A) ⟨{0}, ?_⟩ ?_
  · intro t ht
    obtain ⟨T, hT⟩ := Option.ne_none_iff_exists'.mp ht
    exact Finset.mem_singleton.mpr (kernelInit_task hT).1
  · rintro s l s' ⟨A, hA⟩ - hstep
    -- `copy_process` adds one task, the others none
    cases l with
    | copyProcess current cloneThread pid kvStore kvLocks =>
      simp only [parallelStep] at hstep
      split at hstep
      · obtain ⟨k, hcopy, rfl⟩ := Option.map_eq_some_iff.mp hstep
        refine ⟨insert pid A, fun t ht => ?_⟩
        rw [Finset.mem_insert]
        by_cases hpid : t = pid
        · exact Or.inl hpid
        · refine Or.inr (hA t ?_)
          obtain ⟨-, cur, -, ⟨-, rfl⟩ | ⟨-, -, -, rfl⟩⟩ := copyProcess_cases hcopy
          · simpa [hpid] using ht
          · simpa [hpid] using ht
      · cases hstep
    | invoke t c =>
      simp only [parallelStep] at hstep
      split at hstep
      · cases hstep
        exact ⟨A, hA⟩
      · cases hstep
    | run t mem =>
      simp only [parallelStep] at hstep
      split at hstep
      · cases hstep
        exact ⟨A, hA⟩
      · obtain ⟨⟨pc', k'⟩, hprim, rfl⟩ := Option.map_eq_some_iff.mp hstep
        obtain ⟨T, st', -, -, rfl⟩ := prim_cases hprim
        exact ⟨A, hA⟩

/-- A step that is an operation or a return. -/
theorem ParallelInv.run_of_isRun {s s' : Parallel} {owner : Addr → Option Nat} {l : ParallelLabel}
    (h : ParallelInv s owner) (hl : l.IsRun) (hstep : parallelStep s l = some s') :
    ∃ owner' t T, ParallelInv s' owner' ∧ s'.kernel.task = s.kernel.task ∧
      s.kernel.task t = some T ∧ GroupStep s s' owner owner' t T Action.IsRun := by
  cases l with
  | run t mem =>
    obtain ⟨owner', T, hrest⟩ := h.run hstep
    exact ⟨owner', t, T, hrest⟩
  | copyProcess current cloneThread pid kvStore kvLocks => exact hl.elim
  | invoke t c => exact hl.elim

/-- **Every call returns.** From every state the kernel can reach, with any number of tasks of any
thread groups inside their calls and kmalloc failing where it likes, no run goes on for ever without
new calls; and where it cannot go on, every call has returned. -/
theorem calls_return (s : Parallel) (h : Reach parallelStep NonnegInvokes parallelInit s) :
    Terminates parallelStep (fun _ l => l.IsRun) s ∧
      ∀ s', Reach parallelStep (fun _ l => l.IsRun) s s' →
        (∀ l, l.IsRun → parallelStep s' l = none) → ∀ t, s'.pc t = .idle := by
  obtain ⟨owner, hinv⟩ : ∃ owner, ParallelInv s owner :=
    h.inv (I := fun s => ∃ owner, ParallelInv s owner) ⟨_, parallelInv_init⟩
      fun _ _ _ ⟨_, hinv⟩ hok hstep => hinv.step hok hstep
  obtain ⟨A, hA⟩ := finite_tasks h
  constructor
  -- the sum over the tasks decreases
  · refine terminates_of_rank (I := fun s m => ∃ owner, ParallelInv s owner ∧
      (∀ t, s.kernel.task t ≠ none → t ∈ A) ∧ m = ∑ u ∈ A, s.ahead owner A u) ?_
      ⟨owner, hinv, hA, rfl⟩
    rintro s₁ l s₂ m ⟨owner₁, hinv₁, hA₁, rfl⟩ hl hstep
    obtain ⟨owner₂, t, T, hinv₂, htask, ht, hgroup⟩ := hinv₁.run_of_isRun hl hstep
    refine ⟨_, hinv₁.ahead_lt htask ht (hA₁ t (by simp [ht])) hgroup, owner₂, hinv₂, ?_, rfl⟩
    rw [htask]
    exact hA₁
  · intro s' hreach hstuck t
    -- a state in which nobody can go on is still one of the invariant
    have hlater : ∃ owner', ParallelInv s' owner' := by
      refine hreach.inv (I := fun s => ∃ owner, ParallelInv s owner) ⟨owner, hinv⟩ ?_
      rintro s₁ l s₂ ⟨owner₁, hinv₁⟩ hl hstep
      obtain ⟨owner₂, -, -, hinv₂, -⟩ := hinv₁.run_of_isRun hl hstep
      exact ⟨owner₂, hinv₂⟩
    obtain ⟨owner', hinv'⟩ := hlater
    by_contra hbusy
    obtain ⟨u, s'', hstep⟩ := hinv'.exists_run hbusy
    rw [hstuck (.run u none) trivial] at hstep
    cases hstep

/-- Two threads that write the same key, one of them inside the critical section. -/
theorem calls_return_two_writers :
    ∃ s, Reach parallelStep NonnegInvokes parallelInit s ∧
      s.events = [.inv 0 (.writeKv 5 7), .inv 1 (.writeKv 5 9)] ∧
      Terminates parallelStep (fun _ l => l.IsRun) s := by
  have hrun : (exec parallelStep (fun s l => decide (NonnegInvokes s l)) parallelInit
      [.copyProcess 0 true 1 1 1, .invoke 0 (.writeKv 5 7), .invoke 1 (.writeKv 5 9), .run 0 none,
        .run 0 none]).map Parallel.events =
      some [.inv 0 (.writeKv 5 7), .inv 1 (.writeKv 5 9)] := by decide +kernel
  obtain ⟨s, hreach, hs⟩ := reach_of_exec_map hrun fun _ _ h => of_decide_eq_true h
  exact ⟨s, hreach, hs, (calls_return s hreach).1⟩

end OsHomework.KvStore
