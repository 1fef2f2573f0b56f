import OsHomework.Lib.Table
import OsHomework.KvStore.Bounds
import OsHomework.KvStore.Groups
import OsHomework.KvStore.Linearize

/-!
# KvStore — many thread groups at once, one memory operation at a time

Tasks of any number of thread groups are inside `write_kv` and `read_kv` at the same time while
others make new tasks. The nodes of all stores come out of one memory, so a pointer that went astray
in one group would end in another group's chain. Nothing is freed when a task exits
(`cleanup_task_kv_store` is not called), so a task that is gone is one that does nothing more.

* **`Move.part`** — an operation seen from the nodes of its own group is the same operation, and the
  other groups do not see it at all.
* **`ParallelInv.step`** — so, for each group, what the kernel does is a run of the machine of one
  store, or nothing.
* **`group_refines`** — the refinement over whole runs, and with it every group's own history is
  linearizable.
-/

namespace OsHomework.KvStore

open Linearize Lts Table

/-! ## The machine

The tasks, arrays and nodes are those of `Groups`; what is new is a program counter for every task.
A call finds the arrays anew at each operation, through the pointers of its task, which do not
change while it runs. -/

/-- The kernel's memory, where each task stands in its system call, and the calls and returns of all
tasks. The calls are not atomic here: the kernel's own list of finished ones stays empty. -/
structure Parallel where
  kernel : Kernel
  pc : Nat → Pc
  events : List (Event Nat Call Int)

def parallelInit : Parallel where
  kernel := kernelInit
  pc := fun _ => .idle
  events := []

inductive ParallelLabel where
  | copyProcess (current : Nat) (cloneThread : Bool) (pid kvStore kvLocks : Nat)
  | invoke (current : Nat) (c : Call)
  | run (current : Nat) (mem : Option Addr)

/-- One operation of a call of the task `current`, on the arrays its pointers lead to. -/
def Kernel.prim (k : Kernel) (current : Nat) (mem : Option Addr) (pc : Pc) :
    Option (Pc × Kernel) := do
  let cur ← k.task current
  let first ← k.heads cur.kvStore
  let lock ← k.locks cur.kvLocks
  let (pc, st) ← pc.step current mem ⟨first, k.node, lock⟩
  some (pc, { k with
    heads := Function.update k.heads cur.kvStore (some st.first)
    locks := Function.update k.locks cur.kvLocks (some st.lock)
    node := st.node })

def parallelStep (s : Parallel) : ParallelLabel → Option Parallel
  | .copyProcess current cloneThread pid kvStore kvLocks =>
    -- a task is in one system call at a time
    match s.pc current with
    | .idle =>
      (s.kernel.copyProcess current cloneThread pid kvStore kvLocks).map fun k =>
        { s with kernel := k }
    | _ => none
  | .invoke current c =>
    match s.kernel.task current, s.pc current with
    | some _, .idle =>
      some { s with
        pc := Function.update s.pc current (.spinLock c)
        events := s.events ++ [.inv current c] }
    | _, _ => none
  | .run current mem =>
    match s.pc current with
    | .ret r =>
      some { s with
        pc := Function.update s.pc current .idle
        events := s.events ++ [.res current r] }
    | pc => (s.kernel.prim current mem pc).map fun r =>
      { s with kernel := r.2, pc := Function.update s.pc current r.1 }

/-- Calls are made with keys from 0 on. -/
def NonnegInvokes (_ : Parallel) : ParallelLabel → Prop
  | .invoke _ c => 0 ≤ c.key
  | _ => True

instance (s : Parallel) (l : ParallelLabel) : Decidable (NonnegInvokes s l) := by
  unfold NonnegInvokes; split <;> infer_instance

/-! ## What a thread group sees

The memory has no notion of whose a node is. `owner` supplies one: a node belongs to the group whose
thread has allocated it. What a group sees are its own nodes, and the events of its own threads. -/

/-- The task an event belongs to. -/
def caller : Event Nat Call Int → Nat
  | .inv t _ => t
  | .res t _ => t

/-- The calls and returns of a thread group. -/
def groupEvents (task : Nat → Option Task) (events : List (Event Nat Call Int)) (g : Nat) :
    List (Event Nat Call Int) :=
  events.filter fun e => tgidOf task (caller e) = some g

/-- The nodes that belong to the group `g`; `owner` says whose memory an address is. -/
def ownNodes (owner : Addr → Option Nat) (g : Nat) (node : Addr → Option KvNode) :
    Addr → Option KvNode :=
  fun a => if owner a = some g then node a else none

/-- The store with the nodes of one group only. -/
def Store.part {T : Type} (st : Store T) (owner : Addr → Option Nat) (g : Nat) : Store T :=
  { st with node := ownNodes owner g st.node }

/-- The arrays a task's pointers lead to. -/
def Kernel.store (k : Kernel) (T : Task) : Store Nat where
  first := (k.heads T.kvStore).getD fun _ => none
  node := k.node
  lock := (k.locks T.kvLocks).getD fun _ => none

/-- The kernel as the thread group of a task sees it: its store, its nodes, its threads and what
they have called. -/
def Parallel.view (s : Parallel) (owner : Addr → Option Nat) (T : Task) : KvState Nat where
  store := (s.kernel.store T).part owner T.tgid
  pc := fun t => if tgidOf s.kernel.task t = some T.tgid then s.pc t else .idle
  hist := groupEvents s.kernel.task s.events T.tgid

section

variable {owner : Addr → Option Nat} {g g' : Nat} {node : Addr → Option KvNode} {a : Addr}
  {n : KvNode}

theorem ownNodes_eq_some :
    ownNodes owner g node a = some n ↔ owner a = some g ∧ node a = some n := by
  simp [ownNodes]

/-- Writing a node of the group. -/
theorem ownNodes_update (hown : owner a = some g) :
    ownNodes owner g (Function.update node a (some n)) =
      Function.update (ownNodes owner g node) a (some n) := by
  funext x
  by_cases hx : x = a
  · subst hx
    simp [ownNodes, hown]
  · simp [ownNodes, hx]

/-- The other groups do not see it. -/
theorem ownNodes_update_other (hown : owner a = some g) (hne : g' ≠ g) :
    ownNodes owner g' (Function.update node a (some n)) = ownNodes owner g' node := by
  funext x
  by_cases hx : x = a
  · subst hx
    simp [ownNodes, hown, hne.symm]
  · simp [ownNodes, hx]

/-- A new node of the group. -/
theorem ownNodes_alloc :
    ownNodes (Function.update owner a (some g)) g (Function.update node a (some n)) =
      Function.update (ownNodes owner g node) a (some n) := by
  funext x
  by_cases hx : x = a
  · subst hx
    simp [ownNodes]
  · simp [ownNodes, hx]

theorem ownNodes_alloc_other (hfresh : node a = none) (hne : g' ≠ g) :
    ownNodes (Function.update owner a (some g)) g' (Function.update node a (some n)) =
      ownNodes owner g' node := by
  funext x
  by_cases hx : x = a
  · subst hx
    simp [ownNodes, hfresh, hne.symm]
  · simp [ownNodes, hx]

/-! ## One operation, seen from the groups

An operation touches at most one node. If that belongs to the group of the thread, the operation is
possible on the part of the memory that the group sees, with the same result; a node that is
allocated becomes the group's. -/

/-- The node a thread is about to touch. -/
def Pc.pointer : Pc → Option Addr
  | .forEach _ pos => pos
  | .setValue _ _ p | .hlistAddHead _ _ p | .spinUnlockHit _ p | .loadValue _ p => some p
  | _ => none

/-- A thread touches nodes that are there. -/
theorem Knows.pointer {first : Int → Option Addr} {ch : Chains} {pc : Pc} (h : Knows node ch pc)
    (hwf : WellFormed first node ch) (hp : pc.pointer = some a) : ∃ n, node a = some n := by
  have hmem : ∀ {b}, a ∈ ch b → ∃ n, node a = some n := by
    intro b ha
    obtain ⟨n, hn, -⟩ := hwf.mem_node ha
    exact ⟨n, hn⟩
  cases pc with
  -- what a thread has found is in a chain, what it has made is its own
  | forEach c pos =>
    cases hp
    exact hmem h.mem_of_pos
  | setValue key value p =>
    cases hp
    exact hmem h.1
  | spinUnlockHit key p =>
    cases hp
    exact hmem h.1
  | loadValue key p =>
    cases hp
    exact hmem h.1
  | hlistAddHead key value p =>
    cases hp
    obtain ⟨-, ⟨nx, hnode⟩, -⟩ := h
    exact ⟨_, hnode⟩
  | _ => cases hp

/-- The owners after a thread of the group `g` has come to `pc`: a node it has just allocated is the
group's. -/
def grant (owner : Addr → Option Nat) (g : Nat) (pc : Pc) : Addr → Option Nat :=
  match pc.unlinked with
  | some a => Function.update owner a (some g)
  | none => owner

variable {T : Type} {t : T} {st st' : Store T} {pc pc' : Pc}

/-- **An operation belongs to one group.** Seen from its own nodes it is the same operation, the
other groups see nothing of it. -/
theorem Move.part (h : Move t st pc pc' st') (hown : ∀ a, pc.pointer = some a → owner a = some g) :
    Move t (st.part owner g) pc pc' (st'.part (grant owner g pc') g) ∧
      ∀ g', g' ≠ g → ownNodes (grant owner g pc') g' st'.node = ownNodes owner g' st.node := by
  -- a node of the group is there for the group as well
  have hsees : ∀ {a n}, pc.pointer = some a → st.node a = some n →
      (st.part owner g).node a = some n := fun hp hn => ownNodes_eq_some.mpr ⟨hown _ hp, hn⟩
  cases h with
  | acquire c hfree => exact ⟨.acquire c hfree, fun _ _ => rfl⟩
  | enter c => exact ⟨.enter c, fun _ _ => rfl⟩
  | next c p n hnode hkey => exact ⟨.next c p n (hsees rfl hnode) hkey, fun _ _ => rfl⟩
  | hitWrite key value p n hnode hkey =>
    exact ⟨.hitWrite key value p n (hsees rfl hnode) hkey, fun _ _ => rfl⟩
  | hitRead key p n hnode hkey => exact ⟨.hitRead key p n (hsees rfl hnode) hkey, fun _ _ => rfl⟩
  | missWrite key value => exact ⟨.missWrite key value, fun _ _ => rfl⟩
  | missRead key => exact ⟨.missRead key, fun _ _ => rfl⟩
  | nomem key value => exact ⟨.nomem key value, fun _ _ => rfl⟩
  | release c r => exact ⟨.release c r, fun _ _ => rfl⟩
  | releaseHit key p => exact ⟨.releaseHit key p, fun _ _ => rfl⟩
  | loadValue key p n hnode => exact ⟨.loadValue key p n (hsees rfl hnode), fun _ _ => rfl⟩
  -- the node that is written is the group's, before and after
  | setValue key value p n hnode =>
    refine ⟨?_, fun g' hne => ownNodes_update_other (hown p rfl) hne⟩
    have hmove := Move.setValue (t := t) key value p n (hsees rfl hnode)
    rwa [Store.setNode, Store.part, ← ownNodes_update (hown p rfl)] at hmove
  -- memory that was not in use was nobody's
  | alloc key value a hfresh =>
    refine ⟨?_, fun g' hne => ownNodes_alloc_other hfresh hne⟩
    have hmove : Move t (st.part owner g) (.kmalloc key value) (.hlistAddHead key value a) _ :=
      .alloc key value a (by simp [Store.part, ownNodes, hfresh])
    rwa [Store.setNode, Store.part, ← ownNodes_alloc] at hmove
  | addHead key value a n hnode =>
    refine ⟨?_, fun g' hne => ownNodes_update_other (hown a rfl) hne⟩
    have hmove := Move.addHead (t := t) key value a n (hsees rfl hnode)
    rwa [Store.addHead, Store.setNode, Store.part, ← ownNodes_update (hown a rfl)] at hmove

/-- Every operation is the step of a thread, for some answer of kmalloc. -/
theorem step_of_move (h : Move t st pc pc' st') : ∃ mem, pc.step t mem st = some (pc', st') := by
  cases h with
  | acquire c hfree => exact ⟨none, by simp [Pc.step, hfree]⟩
  | next c p n hnode hkey => exact ⟨none, by simp [Pc.step, hnode, hkey]⟩
  | hitWrite key value p n hnode hkey =>
    exact ⟨none, by simp [Pc.step, hnode, Call.key, hkey]⟩
  | hitRead key p n hnode hkey => exact ⟨none, by simp [Pc.step, hnode, Call.key, hkey]⟩
  | setValue key value p n hnode => exact ⟨none, by simp [Pc.step, hnode]⟩
  | alloc key value a hfresh => exact ⟨some a, by simp [Pc.step, hfresh]⟩
  | addHead key value a n hnode => exact ⟨none, by simp [Pc.step, hnode]⟩
  | loadValue key p n hnode => exact ⟨none, by simp [Pc.step, hnode]⟩
  | _ => exact ⟨none, rfl⟩

/-- An operation is a step of the machine of one store. -/
theorem kvStep_of_move [DecidableEq T] {s : KvState T} (h : Move t s.store (s.pc t) pc' st') :
    ∃ mem, kvStep s (t, .run mem) =
      some { s with store := st', pc := Function.update s.pc t pc' } := by
  obtain ⟨mem, hstep⟩ := step_of_move h
  refine ⟨mem, ?_⟩
  cases hpc : s.pc t with
  | ret r =>
    rw [hpc] at hstep
    cases hstep
  | _ =>
    rw [hpc] at hstep
    simp only [kvStep, hpc, hstep, Option.map_some]

end

/-! ## The invariant

That the view of each group is a reachable state of the machine of one store is part of the
invariant, and from it comes everything about chains and locks. The rest is about tasks and their
pointers. -/

/-- Tasks of one group have the same two arrays, tasks of different groups have none in common, and
each group's part of the kernel is a state of the machine of one store. -/
structure ParallelInv (s : Parallel) (owner : Addr → Option Nat) : Prop where
  heads : ∀ t T, s.kernel.task t = some T → s.kernel.heads T.kvStore ≠ none
  locks : ∀ t T, s.kernel.task t = some T → s.kernel.locks T.kvLocks ≠ none
  leader : ∀ t T, s.kernel.task t = some T → s.kernel.task T.tgid ≠ none
  sameStore : ∀ t u T U, s.kernel.task t = some T → s.kernel.task u = some U →
    (T.kvStore = U.kvStore ↔ T.tgid = U.tgid)
  sameLocks : ∀ t u T U, s.kernel.task t = some T → s.kernel.task u = some U →
    (T.kvLocks = U.kvLocks ↔ T.tgid = U.tgid)
  idle : ∀ t, s.kernel.task t = none → s.pc t = .idle
  callers : ∀ e ∈ s.events, s.kernel.task (caller e) ≠ none
  owners : ∀ a g, owner a = some g → s.kernel.task g ≠ none
  view : ∀ t T, s.kernel.task t = some T →
    Reach kvStep NonnegKeys (kvInit Nat) (s.view owner T)

/-- At the beginning there is one group. -/
theorem parallelInv_init : ParallelInv parallelInit fun _ => none := by
  have hroot : ∀ t T, parallelInit.kernel.task t = some T → t = 0 ∧ T = ⟨0, 0, 0⟩ :=
    fun t T => kernelInit_task
  refine ⟨?_, ?_, ?_, ?_, ?_, fun _ _ => rfl, by simp [parallelInit], by simp, ?_⟩
  · rintro t T h
    obtain ⟨rfl, rfl⟩ := hroot t T h
    simp [parallelInit, kernelInit]
  · rintro t T h
    obtain ⟨rfl, rfl⟩ := hroot t T h
    simp [parallelInit, kernelInit]
  · rintro t T h
    obtain ⟨rfl, rfl⟩ := hroot t T h
    simp [parallelInit, kernelInit]
  · rintro t u T U ht hu
    obtain ⟨rfl, rfl⟩ := hroot t T ht
    obtain ⟨rfl, rfl⟩ := hroot u U hu
    simp
  · rintro t u T U ht hu
    obtain ⟨rfl, rfl⟩ := hroot t T ht
    obtain ⟨rfl, rfl⟩ := hroot u U hu
    simp
  · rintro t T h
    obtain ⟨rfl, rfl⟩ := hroot t T h
    -- the root has the initial store
    have hview : parallelInit.view (fun _ => none) ⟨0, 0, 0⟩ = kvInit Nat := by
      rw [Parallel.view, kvInit, KvState.mk.injEq]
      exact ⟨rfl, funext fun _ => ite_self _, rfl⟩
    rw [hview]
    exact .refl

section

variable {s s' : Parallel} {owner : Addr → Option Nat}

/-- The chains of a group, and what its threads know about them. -/
theorem ParallelInv.simulates (h : ParallelInv s owner) {t : Nat} {T : Task}
    (ht : s.kernel.task t = some T) : Simulates (s.view owner T) :=
  (h.view t T ht).inv simulates_kvInit fun _ _ _ hsim _ hstep => hsim.step hstep

theorem view_pc_self {t : Nat} {T : Task} (ht : s.kernel.task t = some T) :
    (s.view owner T).pc t = s.pc t := by
  simp [Parallel.view, tgidOf, ht]

/-- The node a task is about to touch is its own group's. -/
theorem ParallelInv.owns (h : ParallelInv s owner) {t : Nat} {T : Task}
    (ht : s.kernel.task t = some T) {a : Addr} (hp : (s.pc t).pointer = some a) :
    owner a = some T.tgid := by
  obtain ⟨ch, -, hshape, -⟩ := h.simulates ht
  have hknows := hshape.knows t
  rw [view_pc_self ht] at hknows
  obtain ⟨n, hn⟩ := hknows.pointer hshape.wf hp
  exact (ownNodes_eq_some.mp hn).1

/-! ## Calls and returns

These change no memory. The history of a group is the history of all tasks with the events of others
left out, so an event of a task is appended to the history of its group and to no other. -/

theorem groupEvents_concat (task : Nat → Option Task) (events : List (Event Nat Call Int))
    (e : Event Nat Call Int) (g : Nat) :
    groupEvents task (events ++ [e]) g =
      if tgidOf task (caller e) = some g then groupEvents task events g ++ [e]
      else groupEvents task events g := by
  unfold groupEvents
  by_cases hg : tgidOf task (caller e) = some g <;> simp [List.filter_append, hg]

/-- What the threads of a group are at, when a task moves on. -/
theorem view_pc_update (owner : Addr → Option Nat) {t : Nat} {T U : Task}
    (ht : s.kernel.task t = some T) (pc : Pc) :
    (fun u => if tgidOf s.kernel.task u = some U.tgid then Function.update s.pc t pc u else .idle) =
      if T.tgid = U.tgid then Function.update (s.view owner U).pc t pc
      else (s.view owner U).pc := by
  have htgid : tgidOf s.kernel.task t = some T.tgid := by simp [tgidOf, ht]
  split
  · next heq =>
    -- the task is one of this group
    funext u
    by_cases hu : u = t
    · subst hu
      simp [htgid, heq]
    · simp [Parallel.view, hu]
  · next hne =>
    -- it is not
    funext u
    by_cases hu : u = t
    · subst hu
      simp [Parallel.view, htgid, hne]
    · simp [Parallel.view, hu]

/-- A task of the group of `T` moves: the machine of its own group takes a step of that task, the
others stay as they are. -/
structure GroupStep (s s' : Parallel) (owner owner' : Addr → Option Nat) (t : Nat) (T : Task)
    (ok : Action → Prop) : Prop where
  own : ∀ u U, s.kernel.task u = some U → T.tgid = U.tgid →
    ∃ a, ok a ∧ kvStep (s.view owner U) (t, a) = some (s'.view owner' U)
  other : ∀ u U, s.kernel.task u = some U → T.tgid ≠ U.tgid →
    s'.view owner' U = s.view owner U

theorem GroupStep.view {owner' : Addr → Option Nat} {t : Nat} {T : Task} {ok : Action → Prop}
    (hstep : GroupStep s s' owner owner' t T ok) (h : ParallelInv s owner)
    (hok : ∀ v a, ok a → NonnegKeys v (t, a)) {u : Nat} {U : Task} (hu : s.kernel.task u = some U) :
    Reach kvStep NonnegKeys (kvInit Nat) (s'.view owner' U) := by
  by_cases hg : T.tgid = U.tgid
  · obtain ⟨a, ha, hkv⟩ := hstep.own u U hu hg
    exact (h.view u U hu).tail (hok _ a ha) hkv
  · rw [hstep.other u U hu hg]
    exact h.view u U hu

/-- A task calls or returns. -/
theorem groupStep_event (owner : Addr → Option Nat) {t : Nat} {T : Task} (pc : Pc)
    (e : Event Nat Call Int) {a : Action} (ht : s.kernel.task t = some T) (he : caller e = t)
    (hstep : ∀ v : KvState Nat, v.pc t = s.pc t → kvStep v (t, a) =
      some { v with pc := Function.update v.pc t pc, hist := v.hist ++ [e] }) :
    GroupStep s { s with pc := Function.update s.pc t pc, events := s.events ++ [e] } owner owner
      t T (· = a) := by
  have htgid : tgidOf s.kernel.task (caller e) = some T.tgid := by simp [tgidOf, he, ht]
  constructor
  · intro u U hu hg
    have hpc : (s.view owner U).pc t = s.pc t := by simp [Parallel.view, tgidOf, ht, hg]
    refine ⟨a, rfl, (hstep _ hpc).trans ?_⟩
    simp only [Parallel.view, view_pc_update owner ht, hg, groupEvents_concat, htgid, if_true]
  · intro u U hu hg
    simp only [Parallel.view, view_pc_update owner ht, hg, groupEvents_concat, htgid, if_false,
      Option.some.injEq]

/-- A call or a return leaves the pointers as they are. -/
theorem ParallelInv.event (h : ParallelInv s owner) {t : Nat} {T : Task} {pc : Pc}
    {e : Event Nat Call Int} (ht : s.kernel.task t = some T) (he : caller e = t)
    (hview : ∀ u U, s.kernel.task u = some U → Reach kvStep NonnegKeys (kvInit Nat) (Parallel.view
      { s with pc := Function.update s.pc t pc, events := s.events ++ [e] } owner U)) :
    ParallelInv { s with pc := Function.update s.pc t pc, events := s.events ++ [e] } owner := by
  refine ⟨h.heads, h.locks, h.leader, h.sameStore, h.sameLocks, ?_, ?_, h.owners, hview⟩
  · intro u hu
    have hne : u ≠ t := by
      rintro rfl
      rw [ht] at hu
      cases hu
    simpa [hne] using h.idle u hu
  · intro x hx
    rcases List.mem_append.mp hx with hx | hx
    · exact h.callers x hx
    · rw [List.mem_singleton.mp hx, he, ht]
      simp

/-! ## Operations

The thread's node is its group's, because in the view of the group the thread has found it. So one
operation is one step for its group and none for the others, which have other arrays and other
nodes. -/

/-- **Inversion** of an operation. -/
theorem prim_cases {k k' : Kernel} {t : Nat} {mem : Option Addr} {pc pc' : Pc}
    (h : k.prim t mem pc = some (pc', k')) :
    ∃ T st', k.task t = some T ∧
      Move t (k.store T) pc pc' st' ∧ k' = { k with
        heads := Function.update k.heads T.kvStore (some st'.first)
        locks := Function.update k.locks T.kvLocks (some st'.lock)
        node := st'.node } := by
  obtain ⟨T, ht, h⟩ := Option.bind_eq_some_iff.mp h
  obtain ⟨first, hfirst, h⟩ := Option.bind_eq_some_iff.mp h
  obtain ⟨lock, hlock, h⟩ := Option.bind_eq_some_iff.mp h
  obtain ⟨⟨p, st'⟩, hstep, h⟩ := Option.bind_eq_some_iff.mp h
  cases h
  have hstore : k.store T = ⟨first, k.node, lock⟩ := by simp [Kernel.store, hfirst, hlock]
  refine ⟨T, st', ht, ?_, rfl⟩
  rw [hstore]
  exact move_of_step hstep

/-- The action is an operation or a return. -/
def Action.IsRun : Action → Prop
  | .run _ => True
  | .invoke _ => False

/-- **One operation** of one task, wherever the others stand: its own group takes the same step, the
other groups do not notice. -/
theorem groupStep_prim (h : ParallelInv s owner) {t : Nat} {T : Task} {pc' : Pc} {st' : Store Nat}
    (ht : s.kernel.task t = some T) (hmove : Move t (s.kernel.store T) (s.pc t) pc' st') :
    GroupStep s { s with
      kernel := { s.kernel with
        heads := Function.update s.kernel.heads T.kvStore (some st'.first)
        locks := Function.update s.kernel.locks T.kvLocks (some st'.lock)
        node := st'.node }
      pc := Function.update s.pc t pc' } owner (grant owner T.tgid pc') t T Action.IsRun := by
  obtain ⟨hown, hothers⟩ := hmove.part fun a => h.owns ht
  constructor
  -- the own group: same arrays, and the same operation on its nodes
  · intro u U hu hg
    have hs := (h.sameStore t u T U ht hu).mpr hg
    have hl := (h.sameLocks t u T U ht hu).mpr hg
    have hpc : (s.view owner U).pc t = s.pc t := by simp [Parallel.view, tgidOf, ht, hg]
    have hstore : (s.view owner U).store = (s.kernel.store T).part owner T.tgid := by
      simp only [Parallel.view, Kernel.store, hs, hl, hg]
    rw [← hstore, ← hpc] at hown
    obtain ⟨mem, hstep⟩ := kvStep_of_move hown
    refine ⟨.run mem, trivial, hstep.trans ?_⟩
    simp only [Parallel.view, view_pc_update owner ht, hg, if_true, Kernel.store, hs, hl,
      Function.update_self, Option.getD_some, Store.part]
  -- another group: other arrays, other nodes
  · intro u U hu hg
    have hs := fun heq => hg ((h.sameStore t u T U ht hu).mp heq)
    have hl := fun heq => hg ((h.sameLocks t u T U ht hu).mp heq)
    simp only [Parallel.view, view_pc_update owner ht, hg, if_false, Kernel.store, Store.part,
      hothers _ (Ne.symm hg), Function.update_of_ne (Ne.symm hs),
      Function.update_of_ne (Ne.symm hl)]

/-- An operation keeps the invariant, with the node it has allocated given to its group. -/
theorem ParallelInv.prim (h : ParallelInv s owner) {t : Nat} {T : Task} {pc' : Pc}
    {st' : Store Nat} (ht : s.kernel.task t = some T)
    (hmove : Move t (s.kernel.store T) (s.pc t) pc' st') :
    ParallelInv { s with
      kernel := { s.kernel with
        heads := Function.update s.kernel.heads T.kvStore (some st'.first)
        locks := Function.update s.kernel.locks T.kvLocks (some st'.lock)
        node := st'.node }
      pc := Function.update s.pc t pc' } (grant owner T.tgid pc') := by
  refine ⟨fun u U hu => ?_, fun u U hu => ?_, h.leader, h.sameStore, h.sameLocks, ?_, h.callers, ?_,
    fun u U hu => ?_⟩
  · exact update_ne_none_iff.mpr (Or.inl (h.heads u U hu))
  · exact update_ne_none_iff.mpr (Or.inl (h.locks u U hu))
  -- a task that does not exist is in no call
  · intro u hu
    have hne : u ≠ t := by
      rintro rfl
      exact absurd hu (by simp [ht])
    simpa [hne] using h.idle u hu
  -- the new node is owned by a group that exists
  · intro a g hg
    cases hnew : pc'.unlinked with
    | none =>
      rw [grant, hnew] at hg
      exact h.owners a g hg
    | some b =>
      rw [grant, hnew] at hg
      rcases of_update_eq_some hg with ⟨-, rfl⟩ | ⟨-, hold⟩
      · exact h.leader t T ht
      · exact h.owners a g hold
  · refine (groupStep_prim h ht hmove).view h (fun v a ha => ?_) hu
    cases a with
    | run mem => trivial
    | invoke c => exact ha.elim

/-- A run label of a task: an operation or a return. -/
theorem ParallelInv.run (h : ParallelInv s owner) {t : Nat} {mem : Option Addr}
    (hstep : parallelStep s (.run t mem) = some s') :
    ∃ owner' T, ParallelInv s' owner' ∧ s'.kernel.task = s.kernel.task ∧
      s.kernel.task t = some T ∧ GroupStep s s' owner owner' t T Action.IsRun := by
  simp only [parallelStep] at hstep
  split at hstep
  -- a return
  · next r hpc =>
    cases hstep
    have hlive : s.kernel.task t ≠ none := by
      intro hnone
      rw [h.idle t hnone] at hpc
      cases hpc
    obtain ⟨T, ht⟩ := Option.ne_none_iff_exists'.mp hlive
    have hgroup : GroupStep s _ owner owner t T (· = .run none) :=
      groupStep_event owner .idle (.res t r) ht rfl fun v hv => by simp only [kvStep, hv, hpc]
    refine ⟨owner, T, h.event ht rfl fun u U hu => ?_, rfl, ht, fun u U hu hg => ?_, hgroup.other⟩
    · exact hgroup.view h (fun v a ha => by rw [ha]; trivial) hu
    · obtain ⟨a, rfl, hkv⟩ := hgroup.own u U hu hg
      exact ⟨.run none, trivial, hkv⟩
  -- an operation
  · obtain ⟨⟨pc', k'⟩, hprim, rfl⟩ := Option.map_eq_some_iff.mp hstep
    obtain ⟨T, st', ht, hmove, rfl⟩ := prim_cases hprim
    exact ⟨_, T, h.prim ht hmove, rfl, ht, groupStep_prim h ht hmove⟩

/-! ## New tasks

`copy_process` gives a thread the arrays of its group. A process gets arrays that nobody uses and is
alone in a group that has not existed before, so what it sees is the initial state. -/

/-- A task that has called nothing makes no difference to a group's threads and history, whatever
group it comes to. -/
theorem view_newTask {pid : Nat} {p : Task} (h : ParallelInv s owner)
    (hpid : s.kernel.task pid = none) (g : Nat) :
    (∀ t, (if tgidOf (Function.update s.kernel.task pid (some p)) t = some g then s.pc t
        else .idle) = if tgidOf s.kernel.task t = some g then s.pc t else .idle) ∧
      groupEvents (Function.update s.kernel.task pid (some p)) s.events g =
        groupEvents s.kernel.task s.events g := by
  constructor
  · intro t
    by_cases ht : t = pid
    · subst ht
      simp [h.idle t hpid]
    · simp [tgidOf, ht]
  · unfold groupEvents
    refine List.filter_congr fun e he => ?_
    have hne : caller e ≠ pid := by
      intro heq
      exact h.callers e he (heq ▸ hpid)
    simp [tgidOf, hne]

/-- A new task and, if it has any, its new arrays: what is to be shown. -/
theorem ParallelInv.newTask (h : ParallelInv s owner) {pid : Nat} {p : Task}
    {heads : Nat → Option (Int → Option Addr)} {locks : Nat → Option (Int → Option Nat)}
    (hpid : s.kernel.task pid = none)
    (hheads : ∀ q, s.kernel.heads q ≠ none → heads q = s.kernel.heads q)
    (hlocks : ∀ q, s.kernel.locks q ≠ none → locks q = s.kernel.locks q)
    (hp : heads p.kvStore ≠ none ∧ locks p.kvLocks ≠ none)
    (hleader : p.tgid = pid ∨ s.kernel.task p.tgid ≠ none)
    (hstore : ∀ u U, s.kernel.task u = some U → (p.kvStore = U.kvStore ↔ p.tgid = U.tgid))
    (hlock : ∀ u U, s.kernel.task u = some U → (p.kvLocks = U.kvLocks ↔ p.tgid = U.tgid))
    (hview : Reach kvStep NonnegKeys (kvInit Nat) (Parallel.view { s with
      kernel := { s.kernel with
        task := Function.update s.kernel.task pid (some p), heads := heads, locks := locks } }
      owner p)) :
    ParallelInv { s with
      kernel := { s.kernel with
        task := Function.update s.kernel.task pid (some p), heads := heads, locks := locks } }
      owner := by
  have htask : ∀ t T, Function.update s.kernel.task pid (some p) t = some T →
      t = pid ∧ T = p ∨ t ≠ pid ∧ s.kernel.task t = some T := fun t T => of_update_eq_some
  have hlive : ∀ t, s.kernel.task t ≠ none → Function.update s.kernel.task pid (some p) t ≠ none :=
    fun t ht => update_ne_none_iff.mpr (Or.inl ht)
  refine ⟨?_, ?_, ?_, ?_, ?_, ?_, fun e he => hlive _ (h.callers e he),
    fun a g hg => hlive _ (h.owners a g hg), ?_⟩
  -- arrays of the new task and of the old ones
  · intro t T ht
    rcases htask t T ht with ⟨-, rfl⟩ | ⟨-, ht'⟩
    · exact hp.1
    · exact (hheads _ (h.heads t T ht')).trans_ne (h.heads t T ht')
  · intro t T ht
    rcases htask t T ht with ⟨-, rfl⟩ | ⟨-, ht'⟩
    · exact hp.2
    · exact (hlocks _ (h.locks t T ht')).trans_ne (h.locks t T ht')
  · intro t T ht
    rcases htask t T ht with ⟨-, rfl⟩ | ⟨-, ht'⟩
    · exact update_ne_none_iff.mpr hleader.symm
    · exact hlive _ (h.leader t T ht')
  -- pointers agree exactly within a group: the new task against each of the others
  · intro t u T U ht hu
    rcases htask t T ht with ⟨-, rfl⟩ | ⟨-, ht'⟩ <;> rcases htask u U hu with ⟨-, rfl⟩ | ⟨-, hu'⟩
    · simp
    · exact hstore u U hu'
    · rw [eq_comm, hstore t T ht', eq_comm]
    · exact h.sameStore t u T U ht' hu'
  · intro t u T U ht hu
    rcases htask t T ht with ⟨-, rfl⟩ | ⟨-, ht'⟩ <;> rcases htask u U hu with ⟨-, rfl⟩ | ⟨-, hu'⟩
    · simp
    · exact hlock u U hu'
    · rw [eq_comm, hlock t T ht', eq_comm]
    · exact h.sameLocks t u T U ht' hu'
  · intro t ht
    by_cases hne : t = pid
    · rw [hne] at ht ⊢
      simp at ht
    · exact h.idle t (by simpa [hne] using ht)
  -- what the new task sees, and that the others see what they saw
  · intro t T ht
    rcases htask t T ht with ⟨-, rfl⟩ | ⟨-, ht'⟩
    · exact hview
    · obtain ⟨hpcs, hevents⟩ := view_newTask (p := p) h hpid T.tgid
      have hsame : Parallel.view { s with
          kernel := { s.kernel with
            task := Function.update s.kernel.task pid (some p), heads := heads, locks := locks } }
          owner T = s.view owner T := by
        simp only [Parallel.view, hpcs, hevents, Kernel.store, hheads _ (h.heads t T ht'),
          hlocks _ (h.locks t T ht')]
      rw [hsame]
      exact h.view t T ht'

/-- A new task keeps the invariant. -/
theorem ParallelInv.copyProcess (h : ParallelInv s owner) {current pid kvStore kvLocks : Nat}
    {cloneThread : Bool} {k' : Kernel}
    (hcopy : s.kernel.copyProcess current cloneThread pid kvStore kvLocks = some k') :
    ParallelInv { s with kernel := k' } owner := by
  obtain ⟨hpid, cur, hcur, ⟨-, rfl⟩ | ⟨-, hheads, hlocks, rfl⟩⟩ := copyProcess_cases hcopy
  · -- a thread sees what its creator's group sees
    refine h.newTask hpid (fun _ _ => rfl) (fun _ _ => rfl)
      ⟨h.heads current cur hcur, h.locks current cur hcur⟩ (Or.inr (h.leader current cur hcur))
      (fun u U hu => h.sameStore current u cur U hcur hu)
      (fun u U hu => h.sameLocks current u cur U hcur hu) ?_
    obtain ⟨hpcs, hevents⟩ := view_newTask (p := cur) h hpid cur.tgid
    have hsame : Parallel.view { s with
        kernel := { s.kernel with task := Function.update s.kernel.task pid (some cur) } }
        owner cur = s.view owner cur := by
      simp only [Parallel.view, hpcs, hevents, Kernel.store]
    rw [hsame]
    exact h.view current cur hcur
  · -- a process begins with what `init_task_kv_store` leaves
    have hnew : ∀ u U, s.kernel.task u = some U → U.kvStore ≠ kvStore ∧ U.kvLocks ≠ kvLocks ∧
        U.tgid ≠ pid := by
      intro u U hu
      refine ⟨?_, ?_, ?_⟩
      · rintro rfl
        exact h.heads u U hu hheads
      · rintro rfl
        exact h.locks u U hu hlocks
      · rintro rfl
        exact h.leader u U hu hpid
    -- old arrays stay where they are
    refine h.newTask hpid ?_ ?_ (by simp) (Or.inl rfl) ?_ ?_ ?_
    · rintro q hq
      refine Function.update_of_ne ?_ _ _
      rintro rfl
      exact hq hheads
    · rintro q hq
      refine Function.update_of_ne ?_ _ _
      rintro rfl
      exact hq hlocks
    -- no task is of the new group, and none has the new arrays
    · intro u U hu
      obtain ⟨hs, -, hg⟩ := hnew u U hu
      exact iff_of_false (Ne.symm hs) (Ne.symm hg)
    · intro u U hu
      obtain ⟨-, hl, hg⟩ := hnew u U hu
      exact iff_of_false (Ne.symm hl) (Ne.symm hg)
    -- the view of the new group has no nodes, no threads in a call and no events
    · obtain ⟨hpcs, hevents⟩ := view_newTask (p := ⟨pid, kvStore, kvLocks⟩) h hpid pid
      have hgroup : ∀ t, tgidOf s.kernel.task t ≠ some pid := by
        intro t ht
        obtain ⟨U, hU, htgid⟩ := Option.map_eq_some_iff.mp ht
        exact (hnew t U hU).2.2 htgid
      have hnodes : ownNodes owner pid s.kernel.node = fun _ => none := by
        funext a
        refine if_neg fun ha => ?_
        exact h.owners a pid ha hpid
      have hquiet : groupEvents s.kernel.task s.events pid = [] := by simp [groupEvents, hgroup]
      have hinit : Parallel.view { s with
          kernel := { s.kernel with
            task := Function.update s.kernel.task pid (some ⟨pid, kvStore, kvLocks⟩)
            heads := Function.update s.kernel.heads kvStore (some fun _ => none)
            locks := Function.update s.kernel.locks kvLocks (some fun _ => none) } }
          owner ⟨pid, kvStore, kvLocks⟩ = kvInit Nat := by
        simp only [Parallel.view, hpcs, hevents, hquiet, Kernel.store, Store.part, hnodes, hgroup,
          if_false, Function.update_self, Option.getD_some]
        rfl
      rw [hinit]
      exact .refl

end

/-! ## Whole runs

By induction over the run. As each group's view is a run of the machine of one store, what holds of
that machine holds of each group. -/

/-- **One step.** -/
theorem ParallelInv.step {s s' : Parallel} {owner : Addr → Option Nat} {l : ParallelLabel}
    (h : ParallelInv s owner) (hok : NonnegInvokes s l) (hstep : parallelStep s l = some s') :
    ∃ owner', ParallelInv s' owner' := by
  cases l with
  | copyProcess current cloneThread pid kvStore kvLocks =>
    simp only [parallelStep] at hstep
    split at hstep
    · obtain ⟨k, hcopy, rfl⟩ := Option.map_eq_some_iff.mp hstep
      exact ⟨owner, h.copyProcess hcopy⟩
    · cases hstep
  | invoke t c =>
    simp only [parallelStep] at hstep
    split at hstep
    · next T ht hpc =>
      cases hstep
      have hgroup : GroupStep s _ owner owner t T (· = .invoke c) :=
        groupStep_event owner (.spinLock c) (.inv t c) ht rfl fun v hv => by
          simp only [kvStep, hv, hpc]
      refine ⟨owner, h.event ht rfl fun u U hu => ?_⟩
      exact hgroup.view h (fun v a ha => by rw [ha]; exact hok) hu
    · cases hstep
  | run t mem =>
    obtain ⟨owner', -, h', -⟩ := h.run hstep
    exact ⟨owner', h'⟩

/-- **Thread groups do not meet.** In every run of tasks of any number of thread groups, with their
calls interleaved one memory operation at a time and new tasks made in between, the kernel's memory
can be divided among the groups such that what each group sees is a run of the machine of one store
by its own threads alone; and the calls of each group, with those of all others left out, are
linearizable. -/
theorem group_refines (s : Parallel) (h : Reach parallelStep NonnegInvokes parallelInit s) :
    ∃ owner, ∀ t T, s.kernel.task t = some T →
      Reach kvStep NonnegKeys (kvInit Nat) (s.view owner T) ∧
        Linearizable Legal (groupEvents s.kernel.task s.events T.tgid) := by
  obtain ⟨owner, hinv⟩ : ∃ owner, ParallelInv s owner :=
    h.inv (I := fun s => ∃ owner, ParallelInv s owner) ⟨_, parallelInv_init⟩
      fun _ _ _ ⟨_, hinv⟩ hok hstep => hinv.step hok hstep
  refine ⟨owner, fun t T ht => ⟨hinv.view t T ht, ?_⟩⟩
  obtain ⟨ch, cs, -, -, hlin⟩ := hinv.simulates ht
  exact hlin.linearizable

/-- A process and a thread are made; then the three tasks write the same key at the same time, and
the thread waits for the lock its creator holds. -/
def threeWriters : List ParallelLabel :=
  [.copyProcess 0 false 1 1 1, .copyProcess 0 true 2 2 2, .invoke 0 (.writeKv 5 7),
    .invoke 1 (.writeKv 5 8), .invoke 2 (.writeKv 5 9)] ++
    (List.replicate 6 [ParallelLabel.run 0 (some 0), .run 1 (some 1)]).flatten ++
    List.replicate 6 (.run 2 none) ++ [.run 0 none, .invoke 0 (.readKv 5)] ++
    List.replicate 6 (.run 0 none)

theorem group_refines_threeWriters :
    ∃ s T, Reach parallelStep NonnegInvokes parallelInit s ∧ s.kernel.task 2 = some T ∧
      groupEvents s.kernel.task s.events T.tgid = [.inv 0 (.writeKv 5 7), .inv 2 (.writeKv 5 9),
        .res 2 0, .res 0 0, .inv 0 (.readKv 5), .res 0 9] ∧
      Linearizable Legal (groupEvents s.kernel.task s.events T.tgid) := by
  have hrun : (exec parallelStep (fun s l => decide (NonnegInvokes s l)) parallelInit
      threeWriters).map (fun s => ((s.kernel.task 2).map (·.tgid),
        groupEvents s.kernel.task s.events 0)) =
      some (some 0, [.inv 0 (.writeKv 5 7), .inv 2 (.writeKv 5 9), .res 2 0, .res 0 0,
        .inv 0 (.readKv 5), .res 0 9]) := by decide +kernel
  obtain ⟨s, hreach, hs⟩ := reach_of_exec_map hrun fun _ _ h => of_decide_eq_true h
  obtain ⟨htgid, hevents⟩ := Prod.mk.inj hs
  obtain ⟨T, hT, hg⟩ := Option.map_eq_some_iff.mp htgid
  obtain ⟨owner, hgroups⟩ := group_refines s hreach
  exact ⟨s, T, hreach, hT, by rw [hg]; exact hevents, (hgroups 2 T hT).2⟩

end OsHomework.KvStore
