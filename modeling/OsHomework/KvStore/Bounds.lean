import OsHomework.KvStore.Machine

/-!
# KvStore — which elements of the two arrays the calls touch

`init_task_kv_store` allocates 1024 list heads and 1024 locks, and both system calls index them with
`key % 1024`. C's remainder takes the sign of the key, and nothing looks at the key before.

* **`Pc.accesses`** — the array elements the operation at a program counter touches;
  `Pc.step_congr` and `Move.elsewhere` say that these are all.
* **`accesses_inBounds_iff`** — the accesses of a run of any number of threads stay inside the
  arrays exactly when each call's key is non-negative or a multiple of 1024; calls with equal keys
  use the same bucket in any case.
-/

namespace OsHomework.KvStore

open Lts

/-- The number of elements `init_task_kv_store` asks kmalloc_array for, twice. -/
def kvBuckets : Int := 1024

/-- An element of one of the two arrays of a task. -/
inductive Access where
  | kvStore (i : Int)
  | kvLocks (i : Int)

def Access.index : Access → Int
  | .kvStore i => i
  | .kvLocks i => i

/-- The element is one of those that were allocated. -/
def Access.InBounds (a : Access) : Prop := 0 ≤ a.index ∧ a.index < kvBuckets

/-- The elements the operation at `pc` touches. -/
def Pc.accesses : Pc → List Access
  | .spinLock c => [.kvLocks (bucket c.key)]
  | .head c => [.kvStore (bucket c.key)]
  | .hlistAddHead key _ _ => [.kvStore (bucket key)]
  | .spinUnlock c _ => [.kvLocks (bucket c.key)]
  | .spinUnlockHit key _ => [.kvLocks (bucket key)]
  | _ => []

/-- The key of the call in progress. -/
def Pc.key : Pc → Option Int
  | .spinLock c | .head c | .forEach c _ | .spinUnlock c _ => some c.key
  | .setValue key _ _ | .kmalloc key _ | .hlistAddHead key _ _ | .spinUnlockHit key _
  | .loadValue key _ => some key
  | .idle | .ret _ => none

/-! ## The accesses are all there are

`Pc.accesses` is a table written by hand. Two results tie it to the machine: an operation does the
same in two stores that agree on the elements listed, and it leaves every other element alone. So no
element is used that is not in the table. -/

section

variable {T : Type} {t : T} {mem : Option Addr} {st st₂ st' : Store T} {pc pc' : Pc}

/-- Two stores with the same nodes agree on the elements. -/
def AgreeOn (as : List Access) (st st₂ : Store T) : Prop :=
  ∀ a ∈ as, match a with
    | .kvStore i => st.first i = st₂.first i
    | .kvLocks i => st.lock i = st₂.lock i

/-- What the operation does next depends on no other element. -/
theorem Pc.step_congr (hnode : st.node = st₂.node) (hagree : AgreeOn pc.accesses st st₂) :
    (pc.step t mem st).map Prod.fst = (pc.step t mem st₂).map Prod.fst := by
  cases pc with
  | spinLock c =>
    have hlock : st.lock (bucket c.key) = st₂.lock (bucket c.key) := hagree _ (.head _)
    simp only [Pc.step, hlock]
    split <;> rfl
  | head c =>
    have hfirst : st.first (bucket c.key) = st₂.first (bucket c.key) := hagree _ (.head _)
    simp only [Pc.step, hfirst, Option.map_some]
  -- nodes are not part of the arrays
  | forEach c pos =>
    cases pos with
    | none => cases c <;> rfl
    | some p =>
      simp only [Pc.step, hnode]
      cases st₂.node p with
      | none => rfl
      | some n =>
        simp only [Option.bind_eq_bind, Option.bind_some]
        cases c <;> dsimp only <;> split <;> rfl
  | kmalloc key value =>
    cases mem with
    | none => rfl
    | some a =>
      simp only [Pc.step, hnode]
      split <;> rfl
  | setValue key value p => simp only [Pc.step, hnode]; cases st₂.node p <;> rfl
  | hlistAddHead key value a => simp only [Pc.step, hnode]; cases st₂.node a <;> rfl
  | loadValue key p => simp only [Pc.step, hnode]; cases st₂.node p <;> rfl
  | _ => rfl

/-- The operation changes no other element. -/
theorem Move.elsewhere (h : Move t st pc pc' st') :
    (∀ i, .kvStore i ∉ pc.accesses → st'.first i = st.first i) ∧
      ∀ i, .kvLocks i ∉ pc.accesses → st'.lock i = st.lock i := by
  -- a store to one element leaves the others
  have hother : ∀ {β : Type} (f : Int → β) (b : Int) (x : β) (i : Int), i ≠ b →
      Function.update f b x i = f i := fun f b x i hi => Function.update_of_ne hi x f
  cases h with
  | acquire c hfree =>
    refine ⟨fun i _ => rfl, fun i hi => hother _ _ _ _ ?_⟩
    simpa [Pc.accesses] using hi
  | release c r =>
    refine ⟨fun i _ => rfl, fun i hi => hother _ _ _ _ ?_⟩
    simpa [Pc.accesses] using hi
  | releaseHit key p =>
    refine ⟨fun i _ => rfl, fun i hi => hother _ _ _ _ ?_⟩
    simpa [Pc.accesses] using hi
  | addHead key value a n hnode =>
    refine ⟨fun i hi => hother _ _ _ _ ?_, fun i _ => rfl⟩
    simpa [Pc.accesses] using hi
  | _ => exact ⟨fun i _ => rfl, fun i _ => rfl⟩

/-- The key of a call does not change while it runs. -/
theorem Move.key_eq (h : Move t st pc pc' st') : pc'.key = pc.key ∨ pc'.key = none := by
  cases h <;> first | exact Or.inl rfl | exact Or.inr rfl

end

/-! ## The index

Every index is the remainder of the key of the call that is in progress. -/

/-- The one place where an index comes from. -/
theorem index_of_mem_accesses {pc : Pc} {a : Access} (h : a ∈ pc.accesses) :
    ∃ key, pc.key = some key ∧ a.index = bucket key := by
  cases pc <;> simp only [Pc.accesses, List.mem_singleton, List.not_mem_nil] at h <;>
    first | exact h.elim | (subst h; exact ⟨_, rfl, rfl⟩)

/-- The keys whose remainder is not negative. -/
def IndexKey (key : Int) : Prop := 0 ≤ key ∨ (1024 : Int) ∣ key

instance (key : Int) : Decidable (IndexKey key) := inferInstanceAs (Decidable (_ ∨ _))

/-- C's remainder is never 1024 or more; it is negative for every other key. -/
theorem bucket_inBounds_iff (key : Int) :
    0 ≤ bucket key ∧ bucket key < kvBuckets ↔ IndexKey key := by
  unfold bucket kvBuckets IndexKey
  rcases Int.le_total 0 key with hkey | hkey
  · rw [Int.tmod_eq_emod_of_nonneg hkey]
    omega
  · have hneg : key.tmod 1024 = -((-key) % 1024) := by
      rw [← Int.tmod_eq_emod_of_nonneg (by omega), Int.neg_tmod, Int.neg_neg]
    rw [hneg]
    omega

/-! ## Runs of threads

The condition on keys is one about the calls a run makes, the result one about what it touches at
any time. From left to right it is enough to look at a call right after it was made, when it goes
for its lock. From right to left the keys of the calls in progress are carried through the run. -/

section

variable {T : Type} [DecidableEq T]

/-- The key of every call that has been made meets `P`. -/
def KeysMeet (P : Int → Prop) (s : KvState T) : Prop := ∀ t key, (s.pc t).key = some key → P key

omit [DecidableEq T] in
theorem KeysMeet.init (P : Int → Prop) : KeysMeet P (kvInit T) := by
  intro t key hkey
  cases hkey

/-- A call starts with its lock. -/
theorem kvStep_invoke {s s' : KvState T} {t : T} {c : Call}
    (h : kvStep s (t, .invoke c) = some s') : s'.pc = Function.update s.pc t (.spinLock c) := by
  unfold kvStep at h
  split at h
  · next hact =>
    cases h
    cases hact
    rfl
  · next hact => cases hact
  · next hact _ => cases hact
  · cases h

/-- The operations of a call go on with its key. -/
theorem kvStep_run_key {s s' : KvState T} {t : T} {mem : Option Addr}
    (h : kvStep s (t, .run mem) = some s') :
    ∃ pc', s'.pc = Function.update s.pc t pc' ∧ (pc'.key = (s.pc t).key ∨ pc'.key = none) := by
  rcases kvStep_cases h with ⟨c, hidle, rfl⟩ | ⟨r, -, rfl⟩ | ⟨pc', st', hmove, rfl⟩
  · -- an idle thread has no operation to run
    simp [kvStep, hidle, Pc.step] at h
  · exact ⟨_, rfl, Or.inr rfl⟩
  · exact ⟨pc', rfl, hmove.key_eq⟩

/-- One step adds at most the key of the call it makes. -/
theorem KeysMeet.step {P : Int → Prop} {s s' : KvState T} {l : T × Action} (h : KeysMeet P s)
    (hcall : ∀ c, l.2 = .invoke c → P c.key) (hstep : kvStep s l = some s') : KeysMeet P s' := by
  -- one thread has moved, the others are in the calls they were in
  have hupdate : ∀ pc', s'.pc = Function.update s.pc l.1 pc' →
      (∀ key, pc'.key = some key → P key) → KeysMeet P s' := by
    intro pc' hpc hpc' t key hkey
    rw [hpc] at hkey
    by_cases ht : t = l.1
    · rw [ht, Function.update_self] at hkey
      exact hpc' key hkey
    · rw [Function.update_of_ne ht] at hkey
      exact h t key hkey
  obtain ⟨t, act⟩ := l
  cases act with
  | invoke c =>
    -- the key of a new call meets `P` by assumption
    apply hupdate _ (kvStep_invoke hstep)
    intro key hkey
    cases hkey
    exact hcall c rfl
  | run mem =>
    obtain ⟨pc', hpc, hkeys⟩ := kvStep_run_key hstep
    -- an operation has the key of its call
    apply hupdate pc' hpc
    intro key hkey
    rcases hkeys with heq | hnone
    · exact h t key (heq ▸ hkey)
    · rw [hnone] at hkey
      cases hkey

/-- A state of the run that the labels make, the first and the last included. -/
def Visits (ls : List (T × Action)) (s : KvState T) : Prop :=
  ∃ ls', ls' <+: ls ∧ exec kvStep (fun _ _ => true) (kvInit T) ls' = some s

/-- Right after a call that the run makes, the caller is at the lock of its bucket. -/
theorem visits_of_invoke {ls : List (T × Action)} {s : KvState T}
    (hrun : exec kvStep (fun _ _ => true) (kvInit T) ls = some s) {t : T} {c : Call}
    (hcall : (t, .invoke c) ∈ ls) : ∃ s', Visits ls s' ∧ s'.pc t = .spinLock c := by
  obtain ⟨pre, post, rfl⟩ := List.append_of_mem hcall
  rw [exec_append] at hrun
  obtain ⟨s₁, hpre, hrest⟩ := Option.bind_eq_some_iff.mp hrun
  obtain ⟨s₂, hstep, -⟩ := Option.bind_eq_some_iff.mp hrest
  refine ⟨s₂, ⟨pre ++ [(t, .invoke c)], ⟨post, by simp⟩, ?_⟩, ?_⟩
  · rw [exec_append, hpre, Option.bind_some]
    simp only [exec, if_true, hstep, Option.bind_some]
  · rw [kvStep_invoke hstep, Function.update_self]

/-- In every state of the run, whatever a thread is about to touch was allocated. -/
def AccessesInBounds (ls : List (T × Action)) : Prop :=
  ∀ s, Visits ls s → ∀ t, ∀ a ∈ (s.pc t).accesses, a.InBounds

/-- Calls with the same key use the same bucket, at whatever moments of the run. -/
def SameKeySameBucket (ls : List (T × Action)) : Prop :=
  ∀ s s', Visits ls s → Visits ls s' → ∀ t u, (s.pc t).key = (s'.pc u).key →
    ∀ a ∈ (s.pc t).accesses, ∀ a' ∈ (s'.pc u).accesses, a.index = a'.index

/-- The bucket is a function of the key. -/
theorem sameKeySameBucket (ls : List (T × Action)) : SameKeySameBucket ls := by
  intro s s' _ _ t u hkey a ha a' ha'
  obtain ⟨key, hk, hi⟩ := index_of_mem_accesses ha
  obtain ⟨key', hk', hi'⟩ := index_of_mem_accesses ha'
  rw [hk, hk', Option.some.injEq] at hkey
  rw [hi, hi', hkey]

/-- **Index bounds.** In a run of any number of threads the elements touched lie inside the two
arrays, and calls with equal keys use the same bucket, exactly when every call of the run has a key
that is non-negative or a multiple of 1024. -/
theorem accesses_inBounds_iff {ls : List (T × Action)} {s : KvState T}
    (hrun : exec kvStep (fun _ _ => true) (kvInit T) ls = some s) :
    AccessesInBounds ls ∧ SameKeySameBucket ls ↔
      ∀ t c, (t, .invoke c) ∈ ls → IndexKey c.key := by
  constructor
  · intro h t c hcall
    -- the call takes its lock first, and the index of that is the bucket
    obtain ⟨s', hvisits, hpc⟩ := visits_of_invoke hrun hcall
    have hlock : (Access.kvLocks (bucket c.key)).InBounds :=
      h.1 s' hvisits t _ (by rw [hpc]; exact List.mem_singleton_self _)
    exact (bucket_inBounds_iff c.key).mp hlock
  · intro h
    refine ⟨?_, sameKeySameBucket ls⟩
    rintro s' ⟨ls', hprefix, hls'⟩ t a ha
    -- all calls so far have such keys
    have hkeys : KeysMeet IndexKey s' := by
      refine exec_inv (I := KeysMeet IndexKey) hls' (KeysMeet.init _) ?_
      intro s₁ s₂ l hl hs₁ hstep
      refine hs₁.step (fun c hc => ?_) hstep
      exact h l.1 c (hc ▸ hprefix.subset hl)
    obtain ⟨key, hkey, hindex⟩ := index_of_mem_accesses ha
    unfold Access.InBounds
    rw [hindex, bucket_inBounds_iff]
    exact hkeys t key hkey

end

/-- Two threads write keys of one bucket, one of them a negative multiple of 1024. -/
theorem accesses_inBounds_same_bucket :
    AccessesInBounds [(true, Action.invoke (.writeKv 0 7)), (false, .invoke (.writeKv (-1024) 8))] ∧
      SameKeySameBucket
        [(true, Action.invoke (.writeKv 0 7)), (false, .invoke (.writeKv (-1024) 8))] := by
  refine (accesses_inBounds_iff rfl).mpr fun t c hcall => ?_
  rcases List.mem_cons.mp hcall with hfirst | hrest
  · cases hfirst
    decide
  · cases List.mem_singleton.mp hrest
    decide

/-- `read_kv(-1)` goes for the lock in front of the first one. -/
theorem read_negative_key :
    ¬ (AccessesInBounds [((), Action.invoke (.readKv (-1)))] ∧
      SameKeySameBucket [((), Action.invoke (.readKv (-1)))]) := by
  intro h
  have hlock : (Access.kvLocks (-1)).InBounds :=
    h.1 _ ⟨_, List.prefix_rfl, rfl⟩ () _ (List.mem_singleton_self _)
  exact absurd hlock.1 (by decide)

end OsHomework.KvStore
