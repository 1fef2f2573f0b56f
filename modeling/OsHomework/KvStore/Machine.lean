import OsHomework.Lib.Linearizable
import OsHomework.Lib.Reach

/-!
# KvStore — `write_kv` and `read_kv` as step machines over pointers

The memory of one `kv_store`: 1024 list heads, 1024 spinlocks and the `kv_node`s kmalloc has handed
out. A thread runs its system call one memory operation at a time: take the bucket's lock, walk the
chain node by node, update the node found or allocate one and put it at the head, release. `read_kv`
releases the lock on a hit *before* it loads `node->value`.

* **`Pc.step`** — one operation of a call, for every program counter of the two functions.
* **`Move`** — the same as a relation, one constructor per operation; `move_of_step` is its only use
  of `Pc.step`.
* **`kvStep`** — any number of threads, each calling what it likes, with the history of calls and
  returns.
-/

namespace OsHomework.KvStore

open Linearize

/-- A pointer to a `kv_node`. -/
abbrev Addr := Nat

/-- `struct kv_node`, its `hlist_node` reduced to the forward link. -/
structure KvNode where
  key : Int
  value : Int
  next : Option Addr
  deriving DecidableEq

/-- The two system calls with their arguments. -/
inductive Call where
  | writeKv (key value : Int)
  | readKv (key : Int)
  deriving DecidableEq

def Call.key : Call → Int
  | .writeKv key _ => key
  | .readKv key => key

/-- `int bucket = key % 1024;`, with C's remainder. -/
def bucket (key : Int) : Int := key.tmod 1024

/-- The arrays `kv_store` and `kv_locks` and the nodes in use. An index outside 0..1023 stands for
memory that is not part of the arrays. -/
structure Store (T : Type) where
  first : Int → Option Addr
  node : Addr → Option KvNode
  lock : Int → Option T

/-- The store `init_task_kv_store` leaves: empty lists, free locks. -/
def initTaskKvStore (T : Type) : Store T where
  first := fun _ => none
  node := fun _ => none
  lock := fun _ => none

/-- Where a thread stands: before the named operation of its call. -/
inductive Pc where
  | idle
  | spinLock (c : Call)
  | head (c : Call)
  | forEach (c : Call) (pos : Option Addr)
  | setValue (key value : Int) (node : Addr)
  | kmalloc (key value : Int)
  | hlistAddHead (key value : Int) (node : Addr)
  | spinUnlock (c : Call) (result : Int)
  | spinUnlockHit (key : Int) (node : Addr)
  | loadValue (key : Int) (node : Addr)
  | ret (result : Int)

section

variable {T : Type}

/-- The lock of bucket `b` changes hands. -/
def Store.setLock (st : Store T) (b : Int) (holder : Option T) : Store T :=
  { st with lock := Function.update st.lock b holder }

/-- `*node = n`. -/
def Store.setNode (st : Store T) (a : Addr) (n : KvNode) : Store T :=
  { st with node := Function.update st.node a (some n) }

/-- `hlist_add_head(&node->node, head)`, where `*node` was `n` before. -/
def Store.addHead (st : Store T) (b : Int) (a : Addr) (n : KvNode) : Store T :=
  { (st.setNode a { n with next := st.first b }) with
    first := Function.update st.first b (some a) }

/-- The operation at `pc`, run by thread `t`; `mem` is what a call of kmalloc returns. -/
def Pc.step (t : T) (mem : Option Addr) (st : Store T) : Pc → Option (Pc × Store T)
  | .idle => none
  | .spinLock c =>
    -- spins until the lock is free
    if st.lock (bucket c.key) = none then some (.head c, st.setLock (bucket c.key) (some t))
    else none
  | .head c => some (.forEach c (st.first (bucket c.key)), st)
  | .forEach c pos =>
    match pos with
    | none =>
      match c with
      | .writeKv key value => some (.kmalloc key value, st)
      | .readKv key => some (.spinUnlock (.readKv key) (-1), st)
    | some p => do
      let n ← st.node p
      if n.key = c.key then
        match c with
        | .writeKv key value => some (.setValue key value p, st)
        | .readKv key => some (.spinUnlockHit key p, st)
      else some (.forEach c n.next, st)
  | .setValue key value p => do
    let n ← st.node p
    some (.spinUnlock (.writeKv key value) 0, st.setNode p { n with value := value })
  | .kmalloc key value =>
    match mem with
    | none => some (.spinUnlock (.writeKv key value) (-1), st)
    | some a =>
      -- kmalloc never hands out memory that is in use
      if st.node a = none then some (.hlistAddHead key value a, st.setNode a ⟨key, value, none⟩)
      else none
  | .hlistAddHead key value a => do
    let n ← st.node a
    some (.spinUnlock (.writeKv key value) 0, st.addHead (bucket key) a n)
  | .spinUnlock c r => some (.ret r, st.setLock (bucket c.key) none)
  | .spinUnlockHit key p => some (.loadValue key p, st.setLock (bucket key) none)
  | .loadValue _ p => do
    let n ← st.node p
    some (.ret n.value, st)
  | .ret _ => none

/-! ## What one operation can do

The relation forgets what kmalloc was told to return and keeps what it did: it failed, or handed out
memory that was not in use. Each proof about operations is a case split on `Move`, in which the
memory that is read is already known. -/

/-- Everything one operation of thread `t` can do. -/
inductive Move (t : T) (st : Store T) : Pc → Pc → Store T → Prop where
  | acquire (c : Call) (hfree : st.lock (bucket c.key) = none) :
      Move t st (.spinLock c) (.head c) (st.setLock (bucket c.key) (some t))
  | enter (c : Call) : Move t st (.head c) (.forEach c (st.first (bucket c.key))) st
  | next (c : Call) (p : Addr) (n : KvNode) (hnode : st.node p = some n) (hkey : n.key ≠ c.key) :
      Move t st (.forEach c (some p)) (.forEach c n.next) st
  | hitWrite (key value : Int) (p : Addr) (n : KvNode) (hnode : st.node p = some n)
      (hkey : n.key = key) :
      Move t st (.forEach (.writeKv key value) (some p)) (.setValue key value p) st
  | hitRead (key : Int) (p : Addr) (n : KvNode) (hnode : st.node p = some n) (hkey : n.key = key) :
      Move t st (.forEach (.readKv key) (some p)) (.spinUnlockHit key p) st
  | missWrite (key value : Int) :
      Move t st (.forEach (.writeKv key value) none) (.kmalloc key value) st
  | missRead (key : Int) :
      Move t st (.forEach (.readKv key) none) (.spinUnlock (.readKv key) (-1)) st
  | setValue (key value : Int) (p : Addr) (n : KvNode) (hnode : st.node p = some n) :
      Move t st (.setValue key value p) (.spinUnlock (.writeKv key value) 0)
        (st.setNode p { n with value := value })
  | nomem (key value : Int) :
      Move t st (.kmalloc key value) (.spinUnlock (.writeKv key value) (-1)) st
  | alloc (key value : Int) (a : Addr) (hfresh : st.node a = none) :
      Move t st (.kmalloc key value) (.hlistAddHead key value a) (st.setNode a ⟨key, value, none⟩)
  | addHead (key value : Int) (a : Addr) (n : KvNode) (hnode : st.node a = some n) :
      Move t st (.hlistAddHead key value a) (.spinUnlock (.writeKv key value) 0)
        (st.addHead (bucket key) a n)
  | release (c : Call) (r : Int) :
      Move t st (.spinUnlock c r) (.ret r) (st.setLock (bucket c.key) none)
  | releaseHit (key : Int) (p : Addr) :
      Move t st (.spinUnlockHit key p) (.loadValue key p) (st.setLock (bucket key) none)
  | loadValue (key : Int) (p : Addr) (n : KvNode) (hnode : st.node p = some n) :
      Move t st (.loadValue key p) (.ret n.value) st

/-- **Inversion** of an operation. -/
theorem move_of_step {t : T} {mem : Option Addr} {st st' : Store T} {pc pc' : Pc}
    (h : pc.step t mem st = some (pc', st')) : Move t st pc pc' st' := by
  cases pc with
  | idle => cases h
  | ret r => cases h
  | head c => cases h; exact .enter c
  | spinUnlock c r => cases h; exact .release c r
  | spinUnlockHit key p => cases h; exact .releaseHit key p
  | spinLock c =>
    simp only [Pc.step, Option.ite_none_right_eq_some, Option.some.injEq, Prod.mk.injEq] at h
    obtain ⟨hfree, rfl, rfl⟩ := h
    exact .acquire c hfree
  -- the walk: at its end, at a node with the key, or at another node
  | forEach c pos =>
    cases pos with
    | none =>
      cases c with
      | writeKv key value => cases h; exact .missWrite key value
      | readKv key => cases h; exact .missRead key
    | some p =>
      obtain ⟨n, hnode, h⟩ := Option.bind_eq_some_iff.mp h
      by_cases hkey : n.key = c.key
      · rw [if_pos hkey] at h
        cases c with
        | writeKv key value => cases h; exact .hitWrite key value p n hnode hkey
        | readKv key => cases h; exact .hitRead key p n hnode hkey
      · rw [if_neg hkey] at h
        cases h
        exact .next c p n hnode hkey
  | setValue key value p =>
    obtain ⟨n, hnode, h⟩ := Option.bind_eq_some_iff.mp h
    cases h
    exact .setValue key value p n hnode
  | kmalloc key value =>
    cases mem with
    | none => cases h; exact .nomem key value
    | some a =>
      simp only [Pc.step, Option.ite_none_right_eq_some, Option.some.injEq, Prod.mk.injEq] at h
      obtain ⟨hfresh, rfl, rfl⟩ := h
      exact .alloc key value a hfresh
  | hlistAddHead key value a =>
    obtain ⟨n, hnode, h⟩ := Option.bind_eq_some_iff.mp h
    cases h
    exact .addHead key value a n hnode
  | loadValue key p =>
    obtain ⟨n, hnode, h⟩ := Option.bind_eq_some_iff.mp h
    cases h
    exact .loadValue key p n hnode

/-! ## Threads that share a store

Threads of a thread group share the two arrays. Each is idle or inside one call; the history records
calls and returns in the order in which they happen, which is what linearizability is about. A key
below 0 leads out of the arrays, and `NonnegKeys` leaves such calls out where a result needs it. -/

/-- The store, the threads that share it, and what has been called and returned so far. -/
structure KvState (T : Type) where
  store : Store T
  pc : T → Pc
  hist : List (Event T Call Int)

def kvInit (T : Type) : KvState T where
  store := initTaskKvStore T
  pc := fun _ => .idle
  hist := []

/-- What moves a thread: a new system call, or the next operation of the current one. -/
inductive Action where
  | invoke (c : Call)
  | run (mem : Option Addr)

variable [DecidableEq T]

def kvStep (s : KvState T) (l : T × Action) : Option (KvState T) :=
  match s.pc l.1, l.2 with
  | .idle, .invoke c =>
    some { s with pc := Function.update s.pc l.1 (.spinLock c), hist := s.hist ++ [.inv l.1 c] }
  | .ret r, .run _ =>
    some { s with pc := Function.update s.pc l.1 .idle, hist := s.hist ++ [.res l.1 r] }
  | pc, .run mem =>
    (pc.step l.1 mem s.store).map fun r =>
      { s with store := r.2, pc := Function.update s.pc l.1 r.1 }
  | _, .invoke _ => none

/-- Calls are made with keys from 0 on. -/
def NonnegKeys (_ : KvState T) (l : T × Action) : Prop :=
  match l.2 with
  | .invoke c => 0 ≤ c.key
  | .run _ => True

instance (s : KvState T) (l : T × Action) : Decidable (NonnegKeys s l) := by
  unfold NonnegKeys; split <;> infer_instance

/-- A step of the system is a call, a return, or one operation of one thread. -/
theorem kvStep_cases {s s' : KvState T} {l : T × Action} (h : kvStep s l = some s') :
    (∃ c, s.pc l.1 = .idle ∧ s' = { s with
        pc := Function.update s.pc l.1 (.spinLock c), hist := s.hist ++ [.inv l.1 c] }) ∨
      (∃ r, s.pc l.1 = .ret r ∧ s' = { s with
        pc := Function.update s.pc l.1 .idle, hist := s.hist ++ [.res l.1 r] }) ∨
      ∃ pc' st', Move l.1 s.store (s.pc l.1) pc' st' ∧
        s' = { s with store := st', pc := Function.update s.pc l.1 pc' } := by
  unfold kvStep at h
  split at h
  · next c hpc _ => exact Or.inl ⟨c, hpc, (Option.some.inj h).symm⟩
  · next r _ hpc _ => exact Or.inr (Or.inl ⟨r, hpc, (Option.some.inj h).symm⟩)
  · obtain ⟨⟨pc', st'⟩, hstep, rfl⟩ := Option.map_eq_some_iff.mp h
    exact Or.inr (Or.inr ⟨pc', st', move_of_step hstep, rfl⟩)
  · cases h

end

end OsHomework.KvStore
