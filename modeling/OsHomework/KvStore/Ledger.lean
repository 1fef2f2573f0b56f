import OsHomework.KvStore.Bounds
import OsHomework.KvStore.Groups

/-!
# KvStore — what is allocated and who can reach it

`copy_process` allocates the two arrays of a new group leader, `write_kv` allocates nodes. Nothing
frees them: `free_task` does not look at the two pointers, neither do the error labels of
`copy_process`, and `cleanup_task_kv_store`, which would free the arrays, is not called. The result
of `init_task_kv_store` is ignored as well: with the locks missing the task goes on with a pointer
to an array that has been freed.

* **`LedgerInv.step`** — the steps that balance: they allocate for somebody who stays, and free a
  task whose arrays another one has too.
* **`balanced_of_ledgerOk`** — in every run of such steps the arrays and nodes that are allocated
  are those that a task can reach.
* **`ownStore_iff`** — when a new process has arrays of its own.
* **`ledgerStep_ledger`** — with allocations that succeed this is the model with one store per
  thread group; `balanced_of_kernel` is what follows for it.
-/

namespace OsHomework.KvStore

open LinkedList Lts Table

/-! ## Tasks, arrays and nodes

Here the two allocations may fail, a `copy_process` may fail before and after them, and tasks exit
and are freed. A task that has exited keeps its `task_struct` until `free_task`, with the pointers
in it. A call through a null pointer or into memory that has been freed has no next state. -/

/-- The fields of a `task_struct` that matter here; `none` is the null pointer. -/
structure TaskStruct where
  alive : Bool
  kvStore : Option Nat
  kvLocks : Option Nat
  deriving DecidableEq

/-- The tasks that have not been freed, and the memory that is allocated. -/
structure Ledger where
  task : Nat → Option TaskStruct
  heads : Nat → Option (Int → Option Addr)
  locks : Nat → Option (Int → Option Nat)
  node : Addr → Option KvNode

/-- `init_task` alone, whose pointers nobody has set. -/
def ledgerInit : Ledger where
  task := Function.update (fun _ => none) 0 (some ⟨true, none, none⟩)
  heads := fun _ => none
  locks := fun _ => none
  node := fun _ => none

/-- `init_task_kv_store`; `storeMem` and `locksMem` are what the two calls of kmalloc_array
return. -/
def Ledger.initTaskKvStore (k : Ledger) (p : TaskStruct) (storeMem locksMem : Option Nat) :
    Option (TaskStruct × Ledger) :=
  match storeMem with
  | none => some ({ p with kvStore := none }, k)
  | some a =>
    -- kmalloc never hands out memory that is in use
    if k.heads a = none then
      match locksMem with
      -- `kfree(task->kv_store)`, and the pointer stays
      | none => some ({ p with kvStore := some a, kvLocks := none }, k)
      | some l =>
        if k.locks l = none then
          some ({ p with kvStore := some a, kvLocks := some l }, { k with
            heads := Function.update k.heads a (some (KvStore.initTaskKvStore Nat).first)
            locks := Function.update k.locks l (some (KvStore.initTaskKvStore Nat).lock) })
        else none
    else none

/-- How a `copy_process` ends: at an error label in front of the store's initialisation, at one
behind it, or with a new task. -/
inductive CopyEnd where
  | early
  | late
  | ok
  deriving DecidableEq

def Ledger.copyProcess (k : Ledger) (current : Nat) (cloneThread : Bool) (pid : Nat)
    (how : CopyEnd) (storeMem locksMem : Option Nat) : Option Ledger :=
  match k.task current, k.task pid with
  | some cur, none =>
    if cur.alive then
      -- `*dst = *src`: all fields, the two pointers among them
      let p := cur
      match how with
      | .early => some k
      | .late =>
        -- the labels free the task and leave its pointers alone
        if cloneThread then some k else (k.initTaskKvStore p storeMem locksMem).map (·.2)
      | .ok =>
        if cloneThread then
          let p := { p with kvStore := cur.kvStore, kvLocks := cur.kvLocks }
          some { k with task := Function.update k.task pid (some p) }
        else
          (k.initTaskKvStore p storeMem locksMem).map fun (p, k) =>
            { k with task := Function.update k.task pid (some p) }
    else none
  | _, _ => none

/-- A system call of the task `current`, run to its end; `mem` is what its kmalloc returns. With a
null pointer or one to memory that is not allocated there is no next state. -/
def Ledger.call (k : Ledger) (current : Nat) (c : Call) (mem : Option Addr) (fuel : Nat) :
    Option Ledger := do
  let cur ← k.task current
  let a ← cur.kvStore
  let l ← cur.kvLocks
  let first ← k.heads a
  let lock ← k.locks l
  if cur.alive = true ∧ ∀ x ∈ mem, k.node x = none then
    let (_, st) ← Pc.runTo current mem fuel (.spinLock c) ⟨first, k.node, lock⟩
    some { k with
      heads := Function.update k.heads a (some st.first)
      locks := Function.update k.locks l (some st.lock)
      node := st.node }
  else none

/-- `do_exit`: the pointers stay. -/
def Ledger.exit (k : Ledger) (t : Nat) : Option Ledger := do
  let T ← k.task t
  if T.alive then
    some { k with task := Function.update k.task t (some { T with alive := false }) }
  else none

/-- `free_task` on a dead task. -/
def Ledger.freeTask (k : Ledger) (t : Nat) : Option Ledger := do
  let T ← k.task t
  if T.alive then none else some { k with task := Function.update k.task t none }

inductive LedgerLabel where
  | copyProcess (current : Nat) (cloneThread : Bool) (pid : Nat) (how : CopyEnd)
      (storeMem locksMem : Option Nat)
  | call (current : Nat) (c : Call) (mem : Option Addr) (fuel : Nat)
  | exit (t : Nat)
  | freeTask (t : Nat)

def ledgerStep (k : Ledger) : LedgerLabel → Option Ledger
  | .copyProcess current cloneThread pid how storeMem locksMem =>
    k.copyProcess current cloneThread pid how storeMem locksMem
  | .call current c mem fuel => k.call current c mem fuel
  | .exit t => k.exit t
  | .freeTask t => k.freeTask t

/-! ## Balance

Memory is in balance when everything allocated can be reached from some `task_struct`, and the other
way round every pointer leads to something that is allocated. The steps that keep this are named;
the others leak or leave a dangling pointer, each in its own way. -/

/-- Some task that has not been freed has the pointer. -/
def Points (f : TaskStruct → Option Nat) (task : Nat → Option TaskStruct) (a : Nat) : Prop :=
  ∃ t T, task t = some T ∧ f T = some a

/-- A node on one of the 1024 lists of the array at `a`. -/
def Ledger.Listed (k : Ledger) (a : Nat) (x : Addr) : Prop :=
  ∃ first b l, k.heads a = some first ∧ (0 ≤ b ∧ b < kvBuckets) ∧
    Chain (nextOf k.node) (first b) l ∧ x ∈ l

/-- What is allocated is what a task that has not been freed can reach. -/
structure Balanced (k : Ledger) : Prop where
  heads : ∀ a, k.heads a ≠ none ↔ Points TaskStruct.kvStore k.task a
  locks : ∀ l, k.locks l ≠ none ↔ Points TaskStruct.kvLocks k.task l
  nodes : ∀ x, k.node x ≠ none ↔ ∃ a, Points TaskStruct.kvStore k.task a ∧ k.Listed a x

/-- Another task has the pointer of the task `t` too, if it is not null. -/
def Ledger.Shared (k : Ledger) (f : TaskStruct → Option Nat) (t : Nat) : Prop :=
  ∀ T a, k.task t = some T → f T = some a → ∃ u U, u ≠ t ∧ k.task u = some U ∧ f U = some a

/-- The steps that balance. A leader that gets its store gets the locks too and stays, or gets
neither; a task is freed while others have its arrays. Keys are those whose list is in the array. -/
def LedgerOk (k : Ledger) : LedgerLabel → Prop
  | .copyProcess _ cloneThread _ how storeMem locksMem =>
    cloneThread = true ∨ how = .early ∨ storeMem = none ∨ (locksMem ≠ none ↔ how = .ok)
  | .call _ c _ _ => IndexKey c.key
  | .exit _ => True
  | .freeTask t => k.Shared TaskStruct.kvStore t ∧ k.Shared TaskStruct.kvLocks t

/-! ## The invariant

`Balanced` follows the pointers, the invariant has the chains themselves, so that a call is known to
terminate and to link a node into its own store only. That every node is in a chain whose index is
inside the array needs the condition on keys. -/

/-- `ch` has the chains of every store. -/
structure LedgerInv (k : Ledger) (ch : Nat → Chains) : Prop where
  heads : ∀ a, k.heads a ≠ none ↔ Points TaskStruct.kvStore k.task a
  locks : ∀ l, k.locks l ≠ none ↔ Points TaskStruct.kvLocks k.task l
  free : ∀ l lock, k.locks l = some lock → ∀ b, lock b = none
  stores : Stores k.heads k.node ch
  represents : ∀ a, k.heads a ≠ none → ∃ m, Represents k.node (ch a) m
  inArray : ∀ a b x, k.heads a ≠ none → x ∈ ch a b → 0 ≤ b ∧ b < kvBuckets
  placed : ∀ x, k.node x ≠ none → ∃ a b, k.heads a ≠ none ∧ x ∈ ch a b

section

variable {k k' : Ledger} {ch : Nat → Chains} {f : TaskStruct → Option Nat}
  {task : Nat → Option TaskStruct}

/-- The pointers of `init_task` are null. -/
theorem not_points_init (hf : f ⟨true, none, none⟩ = none) (a : Nat) :
    ¬ Points f ledgerInit.task a := by
  rintro ⟨t, T, ht, hT⟩
  simp only [ledgerInit] at ht
  obtain ⟨-, rfl⟩ := (of_update_eq_some ht).resolve_right (by simp)
  rw [hf] at hT
  cases hT

/-- Nothing is allocated. -/
theorem ledgerInv_init : LedgerInv ledgerInit fun _ _ => [] := by
  refine ⟨fun a => ?_, fun l => ?_, ?_, ⟨?_, ?_⟩, ?_, ?_, ?_⟩
  · exact ⟨fun h => absurd rfl h, fun h => absurd h (not_points_init rfl a)⟩
  · exact ⟨fun h => absurd rfl h, fun h => absurd h (not_points_init rfl l)⟩
  · intro l lock hl
    cases hl
  · intro p first hp
    cases hp
  · intro p q hp
    exact absurd rfl hp
  · intro a ha
    exact absurd rfl ha
  · intro a b x ha
    exact absurd rfl ha
  · intro x hx
    exact absurd rfl hx

/-- The chains are what the pointers lead along. -/
theorem LedgerInv.listed_iff (h : LedgerInv k ch) {a : Nat} {x : Addr} (ha : k.heads a ≠ none) :
    k.Listed a x ↔ ∃ b, x ∈ ch a b := by
  obtain ⟨first, hfirst⟩ := Option.ne_none_iff_exists'.mp ha
  have hwf := h.stores.wf a first hfirst
  constructor
  · rintro ⟨first', b, l, hfirst', -, hchain, hx⟩
    rw [hfirst] at hfirst'
    cases hfirst'
    rw [hchain.unique (hwf.chain b)] at hx
    exact ⟨b, hx⟩
  · rintro ⟨b, hx⟩
    exact ⟨first, b, ch a b, hfirst, h.inArray a b x ha hx, hwf.chain b, hx⟩

theorem LedgerInv.balanced (h : LedgerInv k ch) : Balanced k := by
  refine ⟨h.heads, h.locks, fun x => ⟨fun hx => ?_, ?_⟩⟩
  · obtain ⟨a, b, ha, hmem⟩ := h.placed x hx
    exact ⟨a, (h.heads a).mp ha, (h.listed_iff ha).mpr ⟨b, hmem⟩⟩
  · rintro ⟨a, hpoints, hlisted⟩
    have ha := (h.heads a).mpr hpoints
    obtain ⟨b, hmem⟩ := (h.listed_iff ha).mp hlisted
    exact h.stores.node_ne_none ha hmem

/-! ## Changes of the task table

Whether an array is reachable depends on the set of all pointers. A step that changes the table of
tasks is in order if it leaves that set as it is. -/

/-- The tasks change, but not which pointers there are. -/
theorem LedgerInv.tasks (h : LedgerInv k ch)
    (hheads : ∀ a, Points TaskStruct.kvStore task a ↔ Points TaskStruct.kvStore k.task a)
    (hlocks : ∀ l, Points TaskStruct.kvLocks task l ↔ Points TaskStruct.kvLocks k.task l) :
    LedgerInv { k with task := task } ch where
  heads := fun a => (h.heads a).trans (hheads a).symm
  locks := fun l => (h.locks l).trans (hlocks l).symm
  free := h.free
  stores := h.stores
  represents := h.represents
  inArray := h.inArray
  placed := h.placed

/-- The entry of `t` and the others. -/
theorem points_update {t a : Nat} {x : Option TaskStruct} :
    Points f (Function.update task t x) a ↔
      (∃ T, x = some T ∧ f T = some a) ∨ ∃ u U, u ≠ t ∧ task u = some U ∧ f U = some a := by
  constructor
  · rintro ⟨u, U, hu, hU⟩
    by_cases hut : u = t
    · rw [hut, Function.update_self] at hu
      exact Or.inl ⟨U, hu, hU⟩
    · rw [Function.update_of_ne hut] at hu
      exact Or.inr ⟨u, U, hut, hu, hU⟩
  · rintro (⟨T, rfl, hT⟩ | ⟨u, U, hut, hu, hU⟩)
    · exact ⟨t, T, Function.update_self .., hT⟩
    · exact ⟨u, U, update_eq_some_of_ne hu hut _, hU⟩

theorem points_iff_at (t : Nat) {a : Nat} :
    Points f task a ↔ (∃ T, task t = some T ∧ f T = some a) ∨
      ∃ u U, u ≠ t ∧ task u = some U ∧ f U = some a := by
  rw [← points_update, Function.update_eq_self]

/-- A new task brings its own pointer. -/
theorem points_new {pid : Nat} (hpid : task pid = none) (p : TaskStruct) (a : Nat) :
    Points f (Function.update task pid (some p)) a ↔ Points f task a ∨ f p = some a := by
  rw [points_update, points_iff_at pid]
  simp [hpid, or_comm]

/-- A new task with the pointer of one that is there. -/
theorem points_copy {pid current : Nat} {cur p : TaskStruct} (hpid : task pid = none)
    (hcur : task current = some cur) (hp : f p = f cur ∨ f p = none) (a : Nat) :
    Points f (Function.update task pid (some p)) a ↔ Points f task a := by
  rw [points_new hpid]
  refine ⟨fun h => h.elim id fun hpa => ?_, Or.inl⟩
  rcases hp with hp | hp
  · exact ⟨current, cur, hcur, hp ▸ hpa⟩
  · rw [hp] at hpa
    cases hpa

/-- A task that keeps its pointer. -/
theorem points_same {t : Nat} {T T' : TaskStruct} (ht : task t = some T) (hf : f T' = f T)
    (a : Nat) : Points f (Function.update task t (some T')) a ↔ Points f task a := by
  rw [points_update, points_iff_at t]
  simp [ht, hf]

/-- A task that goes while another one has its pointer. -/
theorem points_freed {t : Nat} (hshared : k.Shared f t) (a : Nat) :
    Points f (Function.update k.task t none) a ↔ Points f k.task a := by
  rw [points_update, points_iff_at t]
  constructor
  · rintro (⟨T, hT, -⟩ | hother)
    · cases hT
    · exact Or.inr hother
  · rintro (⟨T, ht, hT⟩ | hother)
    · exact Or.inr (hshared T a ht hT)
    · exact Or.inr hother

/-! ## New arrays and calls

The two places where memory is allocated: the arrays of a new leader, to which its own pointers
lead, and the node of a `write_kv`, which is put on a list before the call ends. -/

/-- A new leader with arrays of its own. -/
theorem LedgerInv.newLeader (h : LedgerInv k ch) {pid a l : Nat} {p : TaskStruct}
    (hpid : k.task pid = none) (ha : k.heads a = none)
    (hstore : p.kvStore = some a) (hlocks : p.kvLocks = some l) :
    LedgerInv ⟨Function.update k.task pid (some p), Function.update k.heads a (some fun _ => none),
      Function.update k.locks l (some fun _ => none), k.node⟩
      (Function.update ch a fun _ => []) := by
  have hused : ∀ x, k.heads x ≠ none → x ≠ a := by
    rintro x hx rfl
    exact hx ha
  refine ⟨fun x => ?_, fun x => ?_, ?_, h.stores.alloc ha, ?_, ?_, ?_⟩ <;> dsimp only
  -- arrays: the new ones have the new task
  · rw [update_ne_none_iff, points_new hpid, h.heads x, hstore, Option.some.injEq, eq_comm]
  · rw [update_ne_none_iff, points_new hpid, h.locks x, hlocks, Option.some.injEq, eq_comm]
  · intro x lock hx b
    rcases of_update_eq_some hx with ⟨-, rfl⟩ | ⟨-, hx⟩
    · rfl
    · exact h.free x lock hx b
  · intro x hx
    -- the lists are empty, so no node is on them
    by_cases hxa : x = a
    · rw [hxa, Function.update_self]
      exact ⟨_, represents_nil _⟩
    · rw [Function.update_of_ne hxa] at hx ⊢
      exact h.represents x hx
  · intro x b y hx hy
    by_cases hxa : x = a
    · rw [hxa, Function.update_self] at hy
      cases hy
    · rw [Function.update_of_ne hxa] at hx hy
      exact h.inArray x b y hx hy
  -- every node is where it was
  · intro y hy
    obtain ⟨x, b, hx, hmem⟩ := h.placed y hy
    refine ⟨x, b, update_ne_none_iff.mpr (Or.inl hx), ?_⟩
    rwa [Function.update_of_ne (hused x hx)]

/-- A call on the store at `a`, with a key whose list is inside the array. -/
theorem LedgerInv.called (h : LedgerInv k ch) {a l : Nat} {first : Int → Option Addr}
    {lock : Int → Option Nat} {c : Call} {m : Int → Option Int} {st : Store Nat} {ch' : Chains}
    (hfirst : k.heads a = some first) (hlock : k.locks l = some lock) (hkey : IndexKey c.key)
    (hcalled : Called c m (ch a) ⟨first, k.node, lock⟩ st ch') :
    LedgerInv ⟨k.task, Function.update k.heads a (some st.first),
      Function.update k.locks l (some st.lock), st.node⟩ (Function.update ch a ch') := by
  have ha : k.heads a ≠ none := by simp [hfirst]
  have hl : k.locks l ≠ none := by simp [hlock]
  -- a call allocates no array
  have hheads : ∀ x, Function.update k.heads a (some st.first) x ≠ none ↔ k.heads x ≠ none := by
    intro x
    rw [update_ne_none_iff]
    exact ⟨fun hx => hx.elim id fun hxa => hxa ▸ ha, Or.inl⟩
  refine ⟨fun x => (hheads x).trans (h.heads x), fun x => ?_, ?_, h.stores.called ha hcalled,
    ?_, ?_, ?_⟩ <;> dsimp only
  · rw [update_ne_none_iff, ← h.locks x]
    exact ⟨fun hx => hx.elim id fun hxl => hxl ▸ hl, Or.inl⟩
  · intro x lock' hx
    rcases of_update_eq_some hx with ⟨-, rfl⟩ | ⟨-, hx⟩
    · rw [hcalled.lock_eq]
      exact h.free l lock hlock
    · exact h.free x lock' hx
  · intro x hx
    by_cases hxa : x = a
    · rw [hxa, Function.update_self]
      exact ⟨_, hcalled.represents⟩
    · rw [Function.update_of_ne hxa]
      have hold := (hheads x).mp hx
      -- the nodes of the other stores are unchanged
      obtain ⟨m', hm'⟩ := h.represents x hold
      exact ⟨m', hm'.congr (h.stores.others_same ha hcalled hxa hold)⟩
  · intro x b y hx hy
    by_cases hxa : x = a
    · rw [hxa, Function.update_self] at hy
      -- the node that was linked is on the list of its key, and that is inside the array
      by_cases hb : b = bucket c.key
      · rw [hb]
        exact (bucket_inBounds_iff c.key).mpr hkey
      · rw [hcalled.elsewhere b hb] at hy
        exact h.inArray a b y ha hy
    · rw [Function.update_of_ne hxa] at hy
      exact h.inArray x b y ((hheads x).mp hx) hy
  · intro y hy
    -- a node is on a list: an old one is where it was, a new one is on that list
    rcases hcalled.placed y hy with hold | hnew
    · obtain ⟨x, b, hx, hmem⟩ := h.placed y hold
      refine ⟨x, b, (hheads x).mpr hx, ?_⟩
      by_cases hxa : x = a
      · rw [hxa] at hmem ⊢
        rw [Function.update_self]
        exact hcalled.kept b y hmem
      · rwa [Function.update_of_ne hxa]
    · refine ⟨a, bucket c.key, (hheads a).mpr ha, ?_⟩
      rwa [Function.update_self]

/-! ## One step

`init_task_kv_store` has three ends, `copy_process` three as well. Of the nine combinations those
are in order in which the arrays, if they are allocated, have a task that stays, and the task, if it
stays, has a pointer to what is there. -/

/-- How `init_task_kv_store` ends: without a store, with a pointer to one that is freed again, or
with both arrays. -/
theorem initTaskKvStore_cases {p p' : TaskStruct} {storeMem locksMem : Option Nat}
    (h : k.initTaskKvStore p storeMem locksMem = some (p', k')) :
    (storeMem = none ∧ p' = { p with kvStore := none } ∧ k' = k) ∨
      (storeMem ≠ none ∧ locksMem = none ∧ p' = { p with kvStore := storeMem, kvLocks := none } ∧
        k' = k) ∨
      ∃ a l, storeMem = some a ∧ locksMem = some l ∧ k.heads a = none ∧
        p' = { p with kvStore := some a, kvLocks := some l } ∧
        k' = { k with
          heads := Function.update k.heads a (some fun _ => none)
          locks := Function.update k.locks l (some fun _ => none) } := by
  unfold Ledger.initTaskKvStore at h
  cases storeMem with
  | none =>
    cases h
    exact Or.inl ⟨rfl, rfl, rfl⟩
  | some a =>
    -- the first array is there
    right
    obtain ⟨ha, h⟩ := Option.ite_none_right_eq_some.mp h
    cases locksMem with
    | none =>
      cases h
      exact Or.inl ⟨Option.some_ne_none a, rfl, rfl, rfl⟩
    | some l =>
      obtain ⟨-, h⟩ := Option.ite_none_right_eq_some.mp h
      cases h
      exact Or.inr ⟨a, l, rfl, rfl, ha, rfl, rfl⟩

/-- What a `copy_process` leaves that balances: nothing, a task with pointers its creator has too,
or one with new arrays. -/
theorem copyProcess_ok_cases {current pid : Nat} {cloneThread : Bool} {how : CopyEnd}
    {storeMem locksMem : Option Nat}
    (hok : LedgerOk k (.copyProcess current cloneThread pid how storeMem locksMem))
    (hstep : k.copyProcess current cloneThread pid how storeMem locksMem = some k') :
    k' = k ∨ k.task pid = none ∧
      ((∃ cur p, k.task current = some cur ∧ (p.kvStore = cur.kvStore ∨ p.kvStore = none) ∧
          p.kvLocks = cur.kvLocks ∧ k' = { k with task := Function.update k.task pid (some p) }) ∨
        ∃ p a l, k.heads a = none ∧ p.kvStore = some a ∧ p.kvLocks = some l ∧
          k' = ⟨Function.update k.task pid (some p), Function.update k.heads a (some fun _ => none),
            Function.update k.locks l (some fun _ => none), k.node⟩) := by
  unfold Ledger.copyProcess at hstep
  split at hstep
  · next cur hcur hpid =>
    split at hstep
    · cases how with
      | early =>
        cases hstep
        exact Or.inl rfl
      | late =>
        left
        cases cloneThread with
        -- a thread has nothing allocated for it
        | true =>
          cases hstep
          rfl
        | false =>
          obtain ⟨⟨p', k₁⟩, hinit, rfl⟩ := Option.map_eq_some_iff.mp hstep
          -- without an array the ledger is as it was
          rcases initTaskKvStore_cases hinit with ⟨-, -, hk⟩ | ⟨-, -, -, hk⟩ | hboth
          · exact hk
          · exact hk
          · -- a task that fails with both arrays does not balance
            obtain ⟨a, l, rfl, rfl, -⟩ := hboth
            simp [LedgerOk] at hok
      | ok =>
        right
        refine ⟨hpid, ?_⟩
        cases cloneThread with
        | true =>
          cases hstep
          exact Or.inl ⟨cur, _, hcur, Or.inl rfl, rfl, rfl⟩
        | false =>
          obtain ⟨⟨p', k₁⟩, hinit, rfl⟩ := Option.map_eq_some_iff.mp hstep
          -- null and the creator's locks, a dangling pointer, or both arrays
          rcases initTaskKvStore_cases hinit with ⟨-, rfl, rfl⟩ | ⟨hstore, hlocks, -, -⟩ | hboth
          · exact Or.inl ⟨cur, { cur with kvStore := none }, hcur, Or.inr rfl, rfl, rfl⟩
          · simp [LedgerOk, hstore, hlocks] at hok
          · obtain ⟨a, l, -, -, ha, rfl, rfl⟩ := hboth
            exact Or.inr ⟨_, a, l, ha, rfl, rfl, rfl⟩
    · cases hstep
  · cases hstep

/-- A call returns, with or without memory for a node. -/
theorem LedgerInv.call (h : LedgerInv k ch) {current fuel : Nat} {c : Call} {mem : Option Addr}
    (hkey : IndexKey c.key) (hstep : k.call current c mem fuel = some k') :
    ∃ ch', LedgerInv k' ch' := by
  simp only [Ledger.call, Option.bind_eq_bind, Option.bind_eq_some_iff,
    Option.ite_none_right_eq_some] at hstep
  obtain ⟨cur, hcur, a, ha, l, hl, first, hfirst, lock, hlock, ⟨-, hmem⟩, ⟨r, st⟩, hrun, heq⟩ :=
    hstep
  cases heq
  obtain ⟨m, hm⟩ := h.represents a (by simp [hfirst])
  -- the locks are free and the chains are lists, so the call returns
  have hfresh : ∀ x ∈ mem, (⟨first, k.node, lock⟩ : Store Nat).node x = none := hmem
  obtain ⟨r', st', hleads, hcases⟩ := call_leads current c hfresh (h.free l lock hlock _)
    (h.stores.wf a first hfirst) hm
  obtain ⟨rfl, rfl⟩ := Prod.mk.inj (hleads.unique hrun)
  rcases hcases with ⟨ch', -, hcalled⟩ | ⟨-, -, rfl⟩
  · exact ⟨_, h.called hfirst hlock hkey hcalled⟩
  -- a write without memory has changed nothing
  · refine ⟨ch, ?_⟩
    dsimp only
    rw [← hfirst, ← hlock, Function.update_eq_self, Function.update_eq_self]
    exact h

/-- **One step** that balances. -/
theorem LedgerInv.step (h : LedgerInv k ch) {l : LedgerLabel} (hok : LedgerOk k l)
    (hstep : ledgerStep k l = some k') : ∃ ch', LedgerInv k' ch' := by
  cases l with
  | copyProcess current cloneThread pid how storeMem locksMem =>
    rcases copyProcess_ok_cases hok hstep with rfl | ⟨hpid, hcopied | hleader⟩
    · exact ⟨ch, h⟩
    · obtain ⟨cur, p, hcur, hstore, hlocks, rfl⟩ := hcopied
      exact ⟨ch, h.tasks (points_copy hpid hcur hstore) (points_copy hpid hcur (Or.inl hlocks))⟩
    · obtain ⟨p, a, l, ha, hstore, hlocks, rfl⟩ := hleader
      exact ⟨_, h.newLeader hpid ha hstore hlocks⟩
  | call current c mem fuel => exact h.call hok hstep
  | exit t =>
    obtain ⟨T, ht, hstep⟩ := Option.bind_eq_some_iff.mp hstep
    split at hstep
    · cases hstep
      exact ⟨ch, h.tasks (points_same ht rfl) (points_same ht rfl)⟩
    · cases hstep
  | freeTask t =>
    obtain ⟨T, ht, hstep⟩ := Option.bind_eq_some_iff.mp hstep
    split at hstep
    · cases hstep
    · cases hstep
      exact ⟨ch, h.tasks (points_freed hok.1) (points_freed hok.2)⟩

end

/-- **The ledger balances** in every state of every run whose steps balance: arrays and nodes are
allocated exactly as long as a task can reach them. -/
theorem balanced_of_ledgerOk (k : Ledger) (hrun : Reach ledgerStep LedgerOk ledgerInit k) :
    Balanced k := by
  obtain ⟨ch, hinv⟩ := hrun.inv (I := fun k => ∃ ch, LedgerInv k ch) ⟨_, ledgerInv_init⟩
    fun _ _ _ ⟨_, h⟩ hok hstep => h.step hok hstep
  exact hinv.balanced

/-- A process is created and writes a key; a thread of it is created and exits. -/
def threadExits : List LedgerLabel :=
  [.copyProcess 0 false 1 .ok (some 0) (some 0), .call 1 (.writeKv 7 9) (some 0) 10,
    .copyProcess 1 true 2 .ok none none, .exit 2]

/-- `LedgerOk` for the steps that free no task. -/
def ledgerCheck : LedgerLabel → Bool
  | .copyProcess _ cloneThread _ how storeMem locksMem =>
    decide (cloneThread = true ∨ how = .early ∨ storeMem = none ∨ (locksMem ≠ none ↔ how = .ok))
  | .call _ c _ _ => decide (IndexKey c.key)
  | .exit _ => true
  | .freeTask _ => false

theorem ledgerOk_of_check {k : Ledger} {l : LedgerLabel} (h : ledgerCheck l = true) :
    LedgerOk k l := by
  cases l with
  | copyProcess current cloneThread pid how storeMem locksMem =>
    show _ ∨ _ ∨ _ ∨ _
    exact of_decide_eq_true h
  | call current c mem fuel =>
    show IndexKey c.key
    exact of_decide_eq_true h
  | exit t => trivial
  | freeTask t => cases h

/-- The thread's task is freed; the node its group has written is still allocated. -/
theorem balanced_thread_freed :
    ∃ k, Reach ledgerStep LedgerOk ledgerInit k ∧ k.task 2 = none ∧ (k.node 0).isSome = true ∧
      Balanced k := by
  -- the run up to the exit is computed, the last step is not: its condition is about all tasks
  have hexits : (exec ledgerStep (fun _ l => ledgerCheck l) ledgerInit threadExits).map
      (fun k => (k.task 1, k.task 2, (k.node 0).isSome)) =
      some (some ⟨true, some 0, some 0⟩, some ⟨false, some 0, some 0⟩, true) := by
    decide +kernel
  obtain ⟨k, hrun, hobs⟩ := reach_of_exec_map hexits fun k l h => ledgerOk_of_check (k := k) h
  simp only [Prod.mk.injEq] at hobs
  obtain ⟨hleader, hthread, hnode⟩ := hobs
  have hfree : ledgerStep k (.freeTask 2) =
      some { k with task := Function.update k.task 2 none } := by
    simp [ledgerStep, Ledger.freeTask, hthread]
  have hshared : ∀ f : TaskStruct → Option Nat,
      f ⟨true, some 0, some 0⟩ = f ⟨false, some 0, some 0⟩ → k.Shared f 2 := by
    intro f hf T a hT ha
    rw [hthread] at hT
    cases hT
    exact ⟨1, _, by decide, hleader, hf.trans ha⟩
  have hok : LedgerOk k (.freeTask 2) := ⟨hshared _ rfl, hshared _ rfl⟩
  have hfreed := hrun.tail hok hfree
  exact ⟨_, hfreed, by simp, hnode, balanced_of_ledgerOk _ hfreed⟩

/-- Three runs after which the ledger does not balance. A process that has exited is freed, and its
arrays stay; the creation of a process fails behind `init_task_kv_store`, with the same result; the
locks cannot be allocated, and the new process has a pointer to an array that is not there. -/
theorem not_balanced :
    (∃ k, Reach ledgerStep (fun _ _ => True) ledgerInit k ∧ k.heads 0 ≠ none ∧
        ¬ Points TaskStruct.kvStore k.task 0 ∧ ¬ Balanced k) ∧
      (∃ k, ledgerStep ledgerInit (.copyProcess 0 false 1 .late (some 0) (some 0)) = some k ∧
        k.heads 0 ≠ none ∧ ¬ Points TaskStruct.kvStore k.task 0 ∧ ¬ Balanced k) ∧
      ∃ k, ledgerStep ledgerInit (.copyProcess 0 false 1 .ok (some 0) none) = some k ∧
        k.heads 0 = none ∧ Points TaskStruct.kvStore k.task 0 ∧ ¬ Balanced k := by
  have hinit : ¬ Points TaskStruct.kvStore ledgerInit.task 0 := not_points_init rfl 0
  refine ⟨?_, ?_, ?_⟩
  -- the process exits
  · have hrun : exec ledgerStep (fun _ _ => true) ledgerInit
        [.copyProcess 0 false 1 .ok (some 0) (some 0), .exit 1, .freeTask 1] = some _ := rfl
    have hpoints : ¬ Points TaskStruct.kvStore (Function.update (Function.update
        (Function.update ledgerInit.task 1 (some ⟨true, some 0, some 0⟩)) 1
        (some ⟨false, some 0, some 0⟩)) 1 none) 0 := by
      rw [Function.update_idem, Function.update_idem, points_update]
      rintro (⟨T, hT, -⟩ | ⟨u, U, -, hu, hU⟩)
      · cases hT
      · exact hinit ⟨u, U, hu, hU⟩
    refine ⟨_, reach_of_exec hrun fun _ _ _ => trivial, ?_, hpoints, fun hbalanced => ?_⟩
    · simp
    · exact hpoints ((hbalanced.heads 0).mp (by simp))
  -- `copy_process` fails late
  · refine ⟨_, rfl, ?_, hinit, fun hbalanced => ?_⟩
    · simp
    · exact hinit ((hbalanced.heads 0).mp (by simp))
  -- the locks are missing
  · have hpoints : Points TaskStruct.kvStore
        (Function.update ledgerInit.task 1 (some ⟨true, some 0, none⟩)) 0 :=
      ⟨1, _, Function.update_self .., rfl⟩
    exact ⟨_, rfl, rfl, hpoints, fun hbalanced => (hbalanced.heads 0).mpr hpoints rfl⟩

/-! ## The arrays of a new process

Since the result of `init_task_kv_store` is not looked at, a process is created whatever becomes of
the allocations. What it then has is determined by them alone. -/

/-- The task `pid` has two arrays as `init_task_kv_store` leaves them, and no other task points to
either of them. -/
def Ledger.OwnStore (k : Ledger) (pid : Nat) : Prop :=
  ∃ T a l, k.task pid = some T ∧ T.kvStore = some a ∧ T.kvLocks = some l ∧
    k.heads a = some (KvStore.initTaskKvStore Nat).first ∧
    k.locks l = some (KvStore.initTaskKvStore Nat).lock ∧
    ∀ u U, u ≠ pid → k.task u = some U → U.kvStore ≠ some a ∧ U.kvLocks ≠ some l

/-- A process that has been created: `init_task_kv_store` ran on a copy of its creator, and its
result played no part. -/
theorem copyProcess_process {k k' : Ledger} {current pid : Nat} {storeMem locksMem : Option Nat}
    (h : k.copyProcess current false pid .ok storeMem locksMem = some k') :
    k.task pid = none ∧ ∃ cur p k₁, k.task current = some cur ∧
      k.initTaskKvStore cur storeMem locksMem = some (p, k₁) ∧
      k' = { k₁ with task := Function.update k.task pid (some p) } := by
  unfold Ledger.copyProcess at h
  split at h
  · next cur hcur hpid =>
    split at h
    · obtain ⟨⟨p, k₁⟩, hinit, rfl⟩ := Option.map_eq_some_iff.mp h
      -- `init_task_kv_store` leaves the table of tasks alone
      have htask : k₁.task = k.task := by
        rcases initTaskKvStore_cases hinit with ⟨-, -, rfl⟩ | ⟨-, -, -, rfl⟩ | hboth
        · rfl
        · rfl
        · obtain ⟨a, l, -, -, -, -, rfl⟩ := hboth
          rfl
      refine ⟨hpid, cur, p, k₁, hcur, hinit, ?_⟩
      dsimp only
      rw [htask]
    · cases h
  · cases h

/-- **A new process has a store of its own** exactly when both arrays could be allocated, in memory
that no task points to. -/
theorem ownStore_iff (k k' : Ledger) (current pid : Nat) (storeMem locksMem : Option Nat)
    (h : k.copyProcess current false pid .ok storeMem locksMem = some k') :
    k'.OwnStore pid ↔ ∃ a l, storeMem = some a ∧ locksMem = some l ∧
      ¬ Points TaskStruct.kvStore k.task a ∧ ¬ Points TaskStruct.kvLocks k.task l := by
  obtain ⟨hpid, cur, p, k₁, -, hinit, rfl⟩ := copyProcess_process h
  constructor
  · rintro ⟨T, a, l, hT, ha, hl, hheads, -, halone⟩
    cases (Function.update_self pid _ _).symm.trans hT
    -- every task of `k` is still there, and is not the new one
    have hold : ∀ u U, k.task u = some U → U.kvStore ≠ some a ∧ U.kvLocks ≠ some l := by
      intro u U hu
      have hne : u ≠ pid := by
        rintro rfl
        cases hpid.symm.trans hu
      exact halone u U hne ((Function.update_of_ne hne _ _).trans hu)
    rcases initTaskKvStore_cases hinit with ⟨-, rfl, -⟩ | ⟨-, -, rfl, -⟩ | hboth
    · cases ha
    · cases hl
    · obtain ⟨a', l', rfl, rfl, -, rfl, -⟩ := hboth
      cases ha
      cases hl
      exact ⟨_, _, rfl, rfl, fun ⟨u, U, hu, hU⟩ => (hold u U hu).1 hU,
        fun ⟨u, U, hu, hU⟩ => (hold u U hu).2 hU⟩
  · rintro ⟨a, l, rfl, rfl, hstore, hlocks⟩
    rcases initTaskKvStore_cases hinit with ⟨hnone, -⟩ | ⟨-, hnone, -⟩ | hboth
    · cases hnone
    · cases hnone
    · obtain ⟨a', l', ha, hl, -, rfl, rfl⟩ := hboth
      cases ha
      cases hl
      refine ⟨_, a, l, Function.update_self .., rfl, rfl, Function.update_self ..,
        Function.update_self .., ?_⟩
      intro u U hne hu
      have hu : k.task u = some U := (Function.update_of_ne hne _ _).symm.trans hu
      exact ⟨fun hU => hstore ⟨u, U, hu, hU⟩, fun hU => hlocks ⟨u, U, hu, hU⟩⟩

/-- The first process gets both arrays. -/
theorem ownStore_first :
    ∃ k, ledgerInit.copyProcess 0 false 1 .ok (some 0) (some 0) = some k ∧ k.OwnStore 1 := by
  refine ⟨_, rfl, ?_⟩
  rw [ownStore_iff ledgerInit _ 0 1 (some 0) (some 0) rfl]
  exact ⟨0, 0, rfl, rfl, not_points_init rfl 0, not_points_init rfl 0⟩

/-- The new task is returned although an allocation failed. Without the first array its pointer to
the lists is null and the locks are its creator's; without the second one its pointer to the lists
goes to memory that has been freed. -/
theorem not_ownStore :
    (∃ k k', ledgerInit.copyProcess 0 false 1 .ok (some 0) (some 0) = some k ∧
        k.copyProcess 1 false 2 .ok none (some 1) = some k' ∧
        k'.task 1 = some ⟨true, some 0, some 0⟩ ∧ k'.task 2 = some ⟨true, none, some 0⟩ ∧
        ¬ k'.OwnStore 2) ∧
      ∃ k, ledgerInit.copyProcess 0 false 1 .ok (some 0) none = some k ∧
        k.task 1 = some ⟨true, some 0, none⟩ ∧ k.heads 0 = none ∧ ¬ k.OwnStore 1 := by
  refine ⟨⟨_, _, rfl, rfl, rfl, rfl, ?_⟩, ⟨_, rfl, rfl, rfl, ?_⟩⟩
  · rintro ⟨T, a, l, hT, ha, -⟩
    cases hT
    cases ha
  · rintro ⟨T, a, l, hT, -, hl, -⟩
    cases hT
    cases hl

/-! ## Allocations that succeed

The model of thread groups and their stores has no null pointers, no exits and no failing
allocations. It is this one with every task alive and both arrays there, step by step, so what holds
of the ledger holds of its runs too. -/

def Kernel.ledger (k : Kernel) : Ledger where
  task := fun t => (k.task t).map fun T => ⟨true, some T.kvStore, some T.kvLocks⟩
  heads := k.heads
  locks := k.locks
  node := k.node

/-- Both calls of kmalloc_array, and that of `write_kv`, return memory. -/
def KernelLabel.ledger : KernelLabel → LedgerLabel
  | .copyProcess current cloneThread pid kvStore kvLocks =>
    .copyProcess current cloneThread pid .ok (some kvStore) (some kvLocks)
  | .call current c mem fuel => .call current c (some mem) fuel

theorem Kernel.ledger_task_update (k : Kernel) (t : Nat) (T : Task) :
    (fun u => (Function.update k.task t (some T) u).map
      fun T => (⟨true, some T.kvStore, some T.kvLocks⟩ : TaskStruct)) =
      Function.update k.ledger.task t (some ⟨true, some T.kvStore, some T.kvLocks⟩) := by
  funext u
  by_cases hu : u = t
  · subst hu
    simp
  · simp [hu, Kernel.ledger]

/-- `copy_process` with both allocations. -/
theorem ledgerStep_copyProcess (k : Kernel) (current : Nat) (cloneThread : Bool)
    (pid kvStore kvLocks : Nat) :
    k.ledger.copyProcess current cloneThread pid .ok (some kvStore) (some kvLocks) =
      (k.copyProcess current cloneThread pid kvStore kvLocks).map Kernel.ledger := by
  cases hcur : k.task current with
  | none => simp [Ledger.copyProcess, Kernel.copyProcess, Kernel.ledger, hcur]
  | some cur =>
    cases hpid : k.task pid with
    | some T => simp [Ledger.copyProcess, Kernel.copyProcess, Kernel.ledger, hcur, hpid]
    | none =>
      have hcur' : k.ledger.task current = some ⟨true, some cur.kvStore, some cur.kvLocks⟩ := by
        simp [Kernel.ledger, hcur]
      have hpid' : k.ledger.task pid = none := by simp [Kernel.ledger, hpid]
      -- both find the same tasks, and from here on the definitions are compared
      simp only [Ledger.copyProcess, Kernel.copyProcess, hcur, hpid, hcur', hpid', if_true]
      cases cloneThread with
      | true =>
        simp only [if_true, Option.map_some, Option.some.injEq]
        unfold Kernel.ledger
        rw [Kernel.ledger_task_update]
        rfl
      | false =>
        -- the two addresses are free in the one if they are in the other
        have hheads : k.ledger.heads = k.heads := rfl
        have hlocks : k.ledger.locks = k.locks := rfl
        simp only [Bool.false_eq_true, if_false, Ledger.initTaskKvStore, Kernel.initTaskKvStore,
          hheads, hlocks]
        by_cases hstore : k.heads kvStore = none
        · by_cases hlock : k.locks kvLocks = none
          · simp only [hstore, hlock, and_self, if_true, Option.map_some, Option.some.injEq]
            unfold Kernel.ledger
            rw [Kernel.ledger_task_update]
            rfl
          · simp [hstore, hlock]
        · simp [hstore]

/-- A call with memory for its node. -/
theorem ledgerStep_call (k : Kernel) (current : Nat) (c : Call) (mem : Addr) (fuel : Nat) :
    k.ledger.call current c (some mem) fuel = (k.call current c mem fuel).map Kernel.ledger := by
  -- one case for each way in which a call can fail to start
  cases hcur : k.task current with
  | none => simp [Ledger.call, Kernel.call, Kernel.ledger, hcur]
  | some cur =>
    cases hfirst : k.heads cur.kvStore with
    | none => simp [Ledger.call, Kernel.call, Kernel.ledger, hcur, hfirst]
    | some first =>
      cases hlock : k.locks cur.kvLocks with
      | none => simp [Ledger.call, Kernel.call, Kernel.ledger, hcur, hfirst, hlock]
      | some lock =>
        by_cases hmem : k.node mem = none
        · cases hrun : Pc.runTo current (some mem) fuel (.spinLock c) ⟨first, k.node, lock⟩ with
          | none => simp [Ledger.call, Kernel.call, Kernel.ledger, hcur, hfirst, hlock, hmem, hrun]
          | some r =>
            simp [Ledger.call, Kernel.call, Kernel.ledger, hcur, hfirst, hlock, hmem, hrun]
        · simp [Ledger.call, Kernel.call, Kernel.ledger, hcur, hmem]

/-- **One step of the one is one step of the other.** -/
theorem ledgerStep_ledger (k : Kernel) (l : KernelLabel) :
    ledgerStep k.ledger l.ledger = (kernelStep k l).map Kernel.ledger := by
  cases l with
  | copyProcess current cloneThread pid kvStore kvLocks =>
    exact ledgerStep_copyProcess k current cloneThread pid kvStore kvLocks
  | call current c mem fuel => exact ledgerStep_call k current c mem fuel

/-- At the start the root has the one pair of arrays there is. -/
theorem ledgerInv_kernelInit : LedgerInv kernelInit.ledger fun _ _ => [] := by
  have htask : kernelInit.ledger.task 0 = some ⟨true, some 0, some 0⟩ := rfl
  have honly : ∀ t T, kernelInit.ledger.task t = some T → T = ⟨true, some 0, some 0⟩ := by
    intro t T hT
    obtain ⟨T₀, hT₀, rfl⟩ := Option.map_eq_some_iff.mp hT
    rw [(kernelInit_task hT₀).2]
  have hheads : ∀ a, kernelInit.heads a ≠ none ↔ a = 0 := by
    intro a
    by_cases ha : a = 0 <;> simp [kernelInit, ha]
  have hlocks : ∀ a, kernelInit.locks a ≠ none ↔ a = 0 := by
    intro a
    by_cases ha : a = 0 <;> simp [kernelInit, ha]
  have hinv := kernelInv_init
  refine ⟨fun a => ?_, fun l => ?_, hinv.free, ⟨hinv.wf, hinv.apart⟩, fun a _ => ?_, ?_, ?_⟩
  -- the arrays at address 0 are those of the root
  · refine (hheads a).trans ⟨?_, ?_⟩
    · rintro rfl
      exact ⟨0, _, htask, rfl⟩
    · rintro ⟨t, T, hT, ha⟩
      rw [honly t T hT] at ha
      exact (Option.some.inj ha).symm
  · refine (hlocks l).trans ⟨?_, ?_⟩
    · rintro rfl
      exact ⟨0, _, htask, rfl⟩
    · rintro ⟨t, T, hT, hl⟩
      rw [honly t T hT] at hl
      exact (Option.some.inj hl).symm
  · exact ⟨_, represents_nil _⟩
  · intro a b x _ hx
    cases hx
  · intro x hx
    exact absurd rfl hx

/-- With allocations that succeed and keys from 0 on, nothing is leaked and nothing dangles: the
steps are balanced. -/
theorem balanced_of_kernel {k : Kernel} (h : Reach kernelStep NonnegCalls kernelInit k) :
    Balanced k.ledger := by
  have hinv : ∃ ch, LedgerInv k.ledger ch := by
    refine h.inv (I := fun k => ∃ ch, LedgerInv k.ledger ch) ⟨_, ledgerInv_kernelInit⟩ ?_
    rintro k l k' ⟨ch, hch⟩ hok hstep
    have hledger : ledgerStep k.ledger l.ledger = some k'.ledger := by
      rw [ledgerStep_ledger, hstep]
      rfl
    refine hch.step ?_ hledger
    cases l with
    | copyProcess current cloneThread pid kvStore kvLocks =>
      exact Or.inr (Or.inr (Or.inr (by simp)))
    | call current c mem fuel => exact Or.inl hok
  obtain ⟨ch, hch⟩ := hinv
  exact hch.balanced

end OsHomework.KvStore
