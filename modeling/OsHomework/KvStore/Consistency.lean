import OsHomework.KvStore.Linearize
import OsHomework.KvStore.User

/-!
# KvStore — what the consistency test can find

The test program lets its threads write and read random keys and keeps a table of what it expects
the store to hold. The table has a mutex of its own and is brought up to date *after* `write_kv` has
returned, so between the two the table and the store disagree, and two writes of a key can reach the
store in one order and the table in the other. The store is linearizable; what the test reports is
its own doing.

An operation on a key lasts from the call until the table has been accessed. `raced` remembers the
keys on which a write overlapped another operation.

* **`testStep`** — the threads of the test over the store, one memory operation or one mutex
  operation at a time.
* **`OnKey`** — what the table, the store and the threads know of a key without such an overlap.
* **`reports_of_reach`** — every inconsistency reported is one of a key in `raced`, and for the
  other keys the table is what the store holds.
-/

namespace OsHomework.KvStore

open Linearize Lts

/-! ## The program

An iteration draws a key and, for a write, a value; calls the store; takes the mutex; writes the
table or reads it; releases the mutex; and after a read compares outside of the mutex. Whether a
call overlaps another one is not known to the program. `raced` is a history variable that is set
when a call begins, and no step looks at it. -/

def numIterations : Nat := 1000
def maxKey : Int := 2048

/-- What a thread has to do with `expected_values`, under the mutex. -/
inductive Job where
  | store (k v : Int)
  | load (k readValue : Int)

/-- Where a thread of the test stands in an iteration. -/
inductive TestPc where
  | next
  | calling (c : Call)
  | lock (job : Job)
  | critical (job : Job)
  /-- with the key, the value read and the value expected where they are to be compared -/
  | unlock (read : Option (Int × Int × Int))
  | compare (k readValue expectedValue : Int)

/-- What the test prints. -/
inductive Report where
  | errorWriting (k : Int)
  | inconsistent (k expectedValue readValue : Int)
  deriving DecidableEq

/-- The store and the calls on it, and the variables of the test. -/
structure Test (n : Nat) where
  kv : KvState (Fin n)
  mutex : Option (Fin n)
  expected : Int → Int
  pc : Fin n → TestPc
  i : Fin n → Nat
  reports : List Report
  /-- the keys on which a write overlapped another operation -/
  raced : Int → Bool

def testInit (n : Nat) : Test n where
  kv := kvInit (Fin n)
  mutex := none
  expected := fun _ => -1
  pc := fun _ => .next
  i := fun _ => 0
  reports := []
  raced := fun _ => false

def Call.isWrite : Call → Bool
  | .writeKv _ _ => true
  | .readKv _ => false

/-- The key of the operation that is going on, and whether it is a write. -/
def TestPc.op : TestPc → Option (Int × Bool)
  | .calling c => some (c.key, c.isWrite)
  | .lock (.store k _) | .critical (.store k _) => some (k, true)
  | .lock (.load k _) | .critical (.load k _) => some (k, false)
  | _ => none

section

variable {n : Nat}

/-- Another thread is in an operation on the key of `c`, and one of the two is a write. -/
def Test.conflicts (s : Test n) (t : Fin n) (c : Call) : Bool :=
  (List.finRange n).any fun u =>
    u ≠ t ∧ ((s.pc u).op = some (c.key, true) ∨
      c.isWrite = true ∧ (s.pc u).op = some (c.key, false))

/-- The iteration is over. -/
def Test.finish (s : Test n) (t : Fin n) : Test n :=
  { s with pc := Function.update s.pc t .next, i := Function.update s.i t (s.i t + 1) }

/-- A call has returned `result` to the test. -/
def Test.returned (s : Test n) (t : Fin n) (c : Call) (result : Int) : Test n :=
  match c with
  | .writeKv k v =>
    if result ≠ -1 then { s with pc := Function.update s.pc t (.lock (.store k v)) }
    else { s.finish t with reports := s.reports ++ [.errorWriting k] }
  | .readKv k => { s with pc := Function.update s.pc t (.lock (.load k result)) }

inductive TestAction where
  /-- the random numbers of an iteration and the call that they lead to -/
  | draw (c : Call)
  | run (mem : Option Addr)

def testStep (s : Test n) (l : Fin n × TestAction) : Option (Test n) :=
  let t := l.1
  match s.pc t, l.2 with
  | .next, .draw c =>
    if s.i t < numIterations then
      (kvStep s.kv (t, .invoke c)).map fun kv =>
        { s with
          kv := kv
          pc := Function.update s.pc t (.calling c)
          raced := if s.conflicts t c then Function.update s.raced c.key true else s.raced }
    else none
  | .calling c, .run mem =>
    (kvStep s.kv (t, .run mem)).map fun kv =>
      match s.kv.pc t with
      | .ret r => { s.returned t c (toInt (syscall r).1) with kv := kv }
      | _ => { s with kv := kv }
  | .lock job, .run _ =>
    if s.mutex = none then
      some { s with mutex := some t, pc := Function.update s.pc t (.critical job) }
    else none
  | .critical (.store k v), .run _ =>
    some { s with
      expected := Function.update s.expected k v
      pc := Function.update s.pc t (.unlock none) }
  | .critical (.load k readValue), .run _ =>
    some { s with pc := Function.update s.pc t (.unlock (some (k, readValue, s.expected k))) }
  | .unlock none, .run _ => some { s.finish t with mutex := none }
  | .unlock (some (k, readValue, expectedValue)), .run _ =>
    some { s with
      mutex := none, pc := Function.update s.pc t (.compare k readValue expectedValue) }
  | .compare k readValue expectedValue, .run _ =>
    some { s.finish t with
      reports := if readValue ≠ -1 ∧ readValue ≠ expectedValue then
        s.reports ++ [.inconsistent k expectedValue readValue] else s.reports }
  | _, _ => none

/-- `k = rand() % MAX_KEY` and `v = rand()`. -/
def RandArgs (_ : Test n) (l : Fin n × TestAction) : Prop :=
  match l.2 with
  | .draw (.writeKv k v) => (0 ≤ k ∧ k < maxKey) ∧ 0 ≤ v ∧ v < 2 ^ 31
  | .draw (.readKv k) => 0 ≤ k ∧ k < maxKey
  | .run _ => True

instance (s : Test n) (l : Fin n × TestAction) : Decidable (RandArgs s l) := by
  unfold RandArgs; split <;> infer_instance

/-! ## What one step can do

Inversion of a step, with the state of the store machine as a whole: what the store does inside a
call is the subject of `Linearize`. -/

/-- Everything thread `t` can do next. -/
inductive TestMove (s : Test n) (t : Fin n) : TestAction → Test n → Prop where
  | draw (c : Call) (kv : KvState (Fin n)) (hpc : s.pc t = .next)
      (hkv : kvStep s.kv (t, .invoke c) = some kv) :
      TestMove s t (.draw c) { s with
        kv := kv
        pc := Function.update s.pc t (.calling c)
        raced := if s.conflicts t c then Function.update s.raced c.key true else s.raced }
  | work (c : Call) (mem : Option Addr) (kv : KvState (Fin n)) (hpc : s.pc t = .calling c)
      (hbusy : ∀ r, s.kv.pc t ≠ .ret r) (hkv : kvStep s.kv (t, .run mem) = some kv) :
      TestMove s t (.run mem) { s with kv := kv }
  | returned (c : Call) (mem : Option Addr) (r : Int) (kv : KvState (Fin n))
      (hpc : s.pc t = .calling c) (hret : s.kv.pc t = .ret r)
      (hkv : kvStep s.kv (t, .run mem) = some kv) :
      TestMove s t (.run mem) { s.returned t c (toInt (syscall r).1) with kv := kv }
  | lock (job : Job) (mem : Option Addr) (hpc : s.pc t = .lock job) :
      TestMove s t (.run mem)
        { s with mutex := some t, pc := Function.update s.pc t (.critical job) }
  | store (k v : Int) (mem : Option Addr) (hpc : s.pc t = .critical (.store k v)) :
      TestMove s t (.run mem) { s with
        expected := Function.update s.expected k v
        pc := Function.update s.pc t (.unlock none) }
  | load (k r : Int) (mem : Option Addr) (hpc : s.pc t = .critical (.load k r)) :
      TestMove s t (.run mem)
        { s with pc := Function.update s.pc t (.unlock (some (k, r, s.expected k))) }
  | unlockStore (mem : Option Addr) (hpc : s.pc t = .unlock none) :
      TestMove s t (.run mem) { s.finish t with mutex := none }
  | unlockLoad (k r e : Int) (mem : Option Addr) (hpc : s.pc t = .unlock (some (k, r, e))) :
      TestMove s t (.run mem)
        { s with mutex := none, pc := Function.update s.pc t (.compare k r e) }
  | compare (k r e : Int) (mem : Option Addr) (hpc : s.pc t = .compare k r e) :
      TestMove s t (.run mem) { s.finish t with
        reports := if r ≠ -1 ∧ r ≠ e then s.reports ++ [.inconsistent k e r] else s.reports }

/-- **Inversion** of a step of the test. -/
theorem testMove_of_step {s s' : Test n} {l : Fin n × TestAction} (h : testStep s l = some s') :
    TestMove s l.1 l.2 s' := by
  obtain ⟨t, a⟩ := l
  simp only [testStep] at h
  -- one case for each row of `testStep`
  split at h
  · next c hpc =>
    split at h
    · obtain ⟨kv, hkv, rfl⟩ := Option.map_eq_some_iff.mp h
      exact .draw c kv hpc hkv
    · cases h
  · next c mem hpc =>
    obtain ⟨kv, hkv, rfl⟩ := Option.map_eq_some_iff.mp h
    split
    · next r hret => exact .returned c mem r kv hpc hret hkv
    · next hbusy => exact .work c mem kv hpc hbusy hkv
  · next job mem hpc =>
    split at h
    · cases h
      exact .lock job mem hpc
    · cases h
  · next k v mem hpc =>
    cases h
    exact .store k v mem hpc
  · next k r mem hpc =>
    cases h
    exact .load k r mem hpc
  · next mem hpc =>
    cases h
    exact .unlockStore mem hpc
  · next k r e mem hpc =>
    cases h
    exact .unlockLoad k r e mem hpc
  · next k r e mem hpc =>
    cases h
    exact .compare k r e mem hpc
  · cases h

/-! ## A key without a race

For a key on which no write has overlapped another operation there is at most one writer at a time,
and no reader beside it. Outside of a write the table and the store agree, so what a reader has got
from the store is what it will find in the table. `Local` says this thread by thread, for each place
at which a thread can be. -/

/-- What `read_kv` finds in the map. -/
def valueOf (m : Int → Option Int) (k : Int) : Int := (m k).getD (-1)

/-- What a thread in phase `ph` of its call, at `pc`, knows of key `k`, for which the store has `x`
and the table has `e`. -/
def Local (x e k : Int) (ph : Phase Call Int) (pc : TestPc) : Prop :=
  match pc with
  | .calling c => c.key = k →
    match ph with
    | .idle => False
    | .called _ => x = e
    | .done r =>
      match c with
      | .writeKv _ v => r = 0 ∧ x = v ∨ r = -1 ∧ x = e
      | .readKv _ => r = x ∧ x = e
  | .lock (.store k' v) | .critical (.store k' v) => k' = k → x = v
  | .lock (.load k' r) | .critical (.load k' r) => k' = k → r = x ∧ x = e
  | .unlock (some (k', r, e')) | .compare k' r e' => k' = k → r = e'
  | _ => True

/-- The table and the store agree on key `k` unless the one writer of the key is about to bring the
table up to date, and the readers have read what they expect. -/
structure OnKey (pc : Fin n → TestPc) (ph : Fin n → Phase Call Int) (x e k : Int) : Prop where
  alone : ∀ u v w, (pc u).op = some (k, true) → (pc v).op = some (k, w) → u = v
  synced : (∀ u, (pc u).op ≠ some (k, true)) → x = e
  each : ∀ u, Local x e k (ph u) (pc u)

variable {pc : Fin n → TestPc} {ph : Fin n → Phase Call Int} {x e k : Int}

/-- A thread that is not in an operation on the key does not depend on its values. -/
theorem Local.of_op_ne {p : TestPc} {ph : Phase Call Int} (h : Local x e k ph p)
    (hop : ∀ w, p.op ≠ some (k, w)) (x' e' : Int) : Local x' e' k ph p := by
  unfold Local at h ⊢
  split
  · next c => exact fun hkey => absurd (by rw [← hkey]; rfl) (hop c.isWrite)
  · next k' v => exact fun hkey => absurd (by rw [← hkey]; rfl) (hop true)
  · next k' v => exact fun hkey => absurd (by rw [← hkey]; rfl) (hop true)
  · next k' r => exact fun hkey => absurd (by rw [← hkey]; rfl) (hop false)
  · next k' r => exact fun hkey => absurd (by rw [← hkey]; rfl) (hop false)
  · exact h
  · exact h
  · trivial

/-- One thread moves within its operation or ends it, and only a writer of the key changes the
values. -/
theorem OnKey.move (h : OnKey pc ph x e k) {t : Fin n} (p' : TestPc) (ph' : Phase Call Int)
    (x' e' : Int) (hsame : x' = x ∧ e' = e ∨ (pc t).op = some (k, true))
    (hop : ∀ w, p'.op = some (k, w) → (pc t).op = some (k, w)) (hlocal : Local x' e' k ph' p')
    (hsync : (pc t).op = some (k, true) → p'.op ≠ some (k, true) → x' = e') :
    OnKey (Function.update pc t p') (Function.update ph t ph') x' e' k := by
  -- nobody has entered an operation on the key
  have hold : ∀ u w, (Function.update pc t p' u).op = some (k, w) → (pc u).op = some (k, w) := by
    intro u w hu
    by_cases hut : u = t
    · subst hut
      rw [Function.update_self] at hu
      exact hop w hu
    · rwa [Function.update_of_ne hut] at hu
  refine ⟨fun u v w hu hv => h.alone u v w (hold u true hu) (hold v w hv), fun hnone => ?_,
    fun u => ?_⟩
  -- no writer is left: either it was `t` and it has finished, or there was none before
  · by_cases hwrites : (pc t).op = some (k, true)
    · refine hsync hwrites ?_
      have ht := hnone t
      rwa [Function.update_self] at ht
    · obtain ⟨rfl, rfl⟩ := hsame.resolve_right hwrites
      refine h.synced fun u hu => ?_
      have hut : u ≠ t := by
        rintro rfl
        exact hwrites hu
      exact hnone u (by rwa [Function.update_of_ne hut])
  · by_cases hut : u = t
    · subst hut
      rwa [Function.update_self, Function.update_self]
    -- the values change under a single writer, and beside it nobody is on the key
    · rw [Function.update_of_ne hut, Function.update_of_ne hut]
      rcases hsame with ⟨rfl, rfl⟩ | hwrites
      · exact h.each u
      · refine (h.each u).of_op_ne (fun w hu => hut ?_) x' e'
        exact (h.alone t u w hwrites hu).symm

/-- A call begins, and conflicts with none that is going on. -/
theorem OnKey.begin (h : OnKey pc ph x e k) {t : Fin n} {c : Call} (hidle : (pc t).op = none)
    (hfree : c.key = k → ∀ u, u ≠ t → (pc u).op ≠ some (k, true) ∧
      (c.isWrite = true → (pc u).op ≠ some (k, false))) :
    OnKey (Function.update pc t (.calling c)) (Function.update ph t (.called c)) x e k := by
  by_cases hkey : c.key = k
  -- a call on this key: nobody writes it, so store and table agree
  · have hfree := hfree hkey
    have hsync : x = e := by
      refine h.synced fun u hu => ?_
      by_cases hut : u = t
      · rw [hut, hidle] at hu
        cases hu
      · exact (hfree u hut).1 hu
    refine ⟨fun u v w hu hv => ?_, fun _ => hsync, fun u => ?_⟩
    · -- nobody else is on the key, or both are readers
      have honly : ∀ u, (Function.update pc t (.calling c) u).op = some (k, true) → u = t := by
        intro u hu
        by_contra hut
        rw [Function.update_of_ne hut] at hu
        exact (hfree u hut).1 hu
      obtain rfl := honly u hu
      by_contra hne
      rw [Function.update_self] at hu
      rw [Function.update_of_ne (Ne.symm hne)] at hv
      have hwrite : c.isWrite = true := (Prod.ext_iff.mp (Option.some.inj hu)).2
      cases w with
      | true => exact (hfree v (Ne.symm hne)).1 hv
      | false => exact (hfree v (Ne.symm hne)).2 hwrite hv
    · by_cases hut : u = t
      · subst hut
        rw [Function.update_self, Function.update_self]
        exact fun _ => hsync
      · rw [Function.update_of_ne hut, Function.update_of_ne hut]
        exact h.each u
  -- a call on another key
  · have hother : ∀ w, (TestPc.calling c).op ≠ some (k, w) :=
      fun w hw => hkey (Prod.ext_iff.mp (Option.some.inj hw)).1
    refine h.move _ _ x e (Or.inl ⟨rfl, rfl⟩) (fun w hw => absurd hw (hother w)) (fun hk => ?_) ?_
    · exact absurd hk hkey
    · intro hwrites
      rw [hidle] at hwrites
      cases hwrites

/-! ## The invariant

The store machine is carried along with its chains and the calls that have taken effect, since the
value of a key is defined by these. The values are ones that `rand()` returns, which are no error
codes for libc, so the wrappers hand them on unchanged. -/

/-- The values that `rand()` returns. -/
def IsRand (v : Int) : Prop := 0 ≤ v ∧ v < 2 ^ 31

/-- The test and the store are at corresponding places. -/
def Coupled (ph : Phase Call Int) (p : TestPc) : Prop :=
  match p with
  | .calling c => (ph = .called c ∨ ∃ r, ph = .done r) ∧ ∀ k v, c = .writeKv k v → IsRand v
  | _ => ph = .idle

structure TestInv (s : Test n) (ch : Chains) (cs : List (Call × Int)) : Prop where
  shape : Shape s.kv.store s.kv.pc ch
  represents : Represents s.kv.store.node ch (contents cs)
  legal : Legal cs
  rand : ∀ k v, contents cs k = some v → IsRand v
  coupled : ∀ u, Coupled (s.kv.pc u).phase (s.pc u)
  onKey : ∀ k, s.raced k = false →
    OnKey s.pc (Pc.phase ∘ s.kv.pc) (valueOf (contents cs) k) (s.expected k) k
  reported : ∀ k e r, .inconsistent k e r ∈ s.reports → s.raced k = true

theorem testInv_init (n : Nat) : TestInv (testInit n) (fun _ => []) [] where
  shape := shape_init (Fin n)
  represents := fun key value => by simp [contents]
  legal := .nil
  rand := fun k v h => by cases h
  coupled := fun _ => rfl
  onKey := by
    refine fun k _ => ⟨fun u v w hu => ?_, fun _ => rfl, fun _ => trivial⟩
    cases hu
  reported := fun k e r h => by cases h

/-- The last call of a legal sequence. -/
theorem Legal.last {cs : List (Call × Int)} {c : Call} {r : Int} (h : Legal (cs ++ [(c, r)])) :
    (∃ k, c = .readKv k ∧ r = valueOf (contents cs) k) ∨
      ∃ k v, c = .writeKv k v ∧ (r = 0 ∨ r = -1) := by
  generalize hl : cs ++ [(c, r)] = l at h
  cases h with
  | nil => simp at hl
  -- the last call of the list is the one that was added
  | read h key =>
    obtain ⟨rfl, hlast⟩ := List.append_inj' hl rfl
    cases hlast
    exact Or.inl ⟨key, rfl, rfl⟩
  | written h key value =>
    obtain ⟨rfl, hlast⟩ := List.append_inj' hl rfl
    cases hlast
    exact Or.inr ⟨key, value, rfl, Or.inl rfl⟩
  | refused h key value =>
    obtain ⟨rfl, hlast⟩ := List.append_inj' hl rfl
    cases hlast
    exact Or.inr ⟨key, value, rfl, Or.inr rfl⟩

/-- The wrapper hands on what the store returns for such values. -/
theorem user_value {r : Int} (h : r = -1 ∨ IsRand r) : toInt (syscall r).1 = r := by
  rcases h with rfl | ⟨hpos, hlt⟩
  · rfl
  · rw [user_result ⟨by omega, hlt⟩, if_neg]
    rintro ⟨-, hneg⟩
    omega

variable {s s' : Test n} {t : Fin n} {ch : Chains} {cs : List (Call × Int)}

/-- A key has a value that was drawn, or is missing. -/
theorem TestInv.valueOf_cases (h : TestInv s ch cs) (k : Int) :
    valueOf (contents cs) k = -1 ∨ IsRand (valueOf (contents cs) k) := by
  unfold valueOf
  cases hk : contents cs k with
  | none => exact Or.inl rfl
  | some v => exact Or.inr (h.rand k v hk)

/-- A thread comes out of its call, or moves outside of one: the store is as it was. -/
theorem TestInv.outside (h : TestInv s ch cs) (hheld : (s.kv.pc t).held = none)
    (hist : List (Event (Fin n) Call Int)) (p' : TestPc) (mutex : Option (Fin n))
    (expected : Int → Int) (i : Fin n → Nat) (reports : List Report)
    (hcoupled : Coupled .idle p')
    (hsame : ∀ k, expected k = s.expected k ∨ (s.pc t).op = some (k, true))
    (hop : ∀ k w, p'.op = some (k, w) → (s.pc t).op = some (k, w))
    (hlocal : ∀ k, s.raced k = false → Local (valueOf (contents cs) k) (expected k) k .idle p')
    (hsync : ∀ k, s.raced k = false → (s.pc t).op = some (k, true) → p'.op ≠ some (k, true) →
      valueOf (contents cs) k = expected k)
    (hreported : ∀ k e r, .inconsistent k e r ∈ reports → s.raced k = true) :
    TestInv { s with
      kv := { s.kv with pc := Function.update s.kv.pc t .idle, hist := hist }
      mutex := mutex, expected := expected, pc := Function.update s.pc t p', i := i
      reports := reports } ch cs where
  shape := h.shape.stay hheld.symm rfl trivial
  represents := h.represents
  legal := h.legal
  rand := h.rand
  coupled := by
    intro u
    show Coupled (Function.update s.kv.pc t .idle u).phase (Function.update s.pc t p' u)
    by_cases hu : u = t
    · subst hu
      rw [Function.update_self, Function.update_self]
      exact hcoupled
    · rw [Function.update_of_ne hu, Function.update_of_ne hu]
      exact h.coupled u
  onKey := by
    -- for each key one thread has moved
    intro k hk
    have hmove := (h.onKey k hk).move p' .idle (valueOf (contents cs) k) (expected k)
      ((hsame k).imp (fun he => ⟨rfl, he⟩) id) (hop k) (hlocal k hk) (hsync k hk)
    show OnKey _ (Pc.phase ∘ Function.update s.kv.pc t .idle) _ _ k
    rwa [Function.comp_update]
  reported := hreported

/-- A thread of the test that is not in a call. -/
theorem TestInv.idle (h : TestInv s ch cs) (hpc : ∀ c, s.pc t ≠ .calling c) :
    s.kv.pc t = .idle := by
  have hphase : (s.kv.pc t).phase = .idle := by
    have hcoupled := h.coupled t
    unfold Coupled at hcoupled
    split at hcoupled
    · next c heq => exact absurd heq (hpc c)
    · exact hcoupled
  cases hp : s.kv.pc t with
  | idle => rfl
  | _ => rw [hp] at hphase; cases hphase

/-- The same outside of a call. -/
theorem TestInv.quiet (h : TestInv s ch cs) (hpc : ∀ c, s.pc t ≠ .calling c) (p' : TestPc)
    (mutex : Option (Fin n)) (expected : Int → Int) (i : Fin n → Nat) (reports : List Report)
    (hcoupled : Coupled .idle p')
    (hsame : ∀ k, expected k = s.expected k ∨ (s.pc t).op = some (k, true))
    (hop : ∀ k w, p'.op = some (k, w) → (s.pc t).op = some (k, w))
    (hlocal : ∀ k, s.raced k = false → Local (valueOf (contents cs) k) (expected k) k .idle p')
    (hsync : ∀ k, s.raced k = false → (s.pc t).op = some (k, true) → p'.op ≠ some (k, true) →
      valueOf (contents cs) k = expected k)
    (hreported : ∀ k e r, .inconsistent k e r ∈ reports → s.raced k = true) :
    TestInv { s with
      mutex := mutex, expected := expected, pc := Function.update s.pc t p', i := i
      reports := reports } ch cs := by
  have hidle := h.idle hpc
  have hkv : { s.kv with pc := Function.update s.kv.pc t .idle, hist := s.kv.hist } = s.kv := by
    rw [← hidle, Function.update_eq_self]
  have hstep := h.outside (by rw [hidle]; rfl) s.kv.hist p' mutex expected i reports hcoupled hsame
    hop hlocal hsync hreported
  rwa [hkv] at hstep

/-- An iteration begins. -/
theorem TestInv.draw (h : TestInv s ch cs) {c : Call} {kv : KvState (Fin n)}
    (hrand : ∀ k v, c = .writeKv k v → IsRand v) (hpc : s.pc t = .next)
    (hkv : kvStep s.kv (t, .invoke c) = some kv) :
    TestInv { s with
      kv := kv
      pc := Function.update s.pc t (.calling c)
      raced := if s.conflicts t c then Function.update s.raced c.key true else s.raced } ch cs := by
  have hidle := h.idle (t := t) fun c hc => by rw [hpc] at hc; cases hc
  simp only [kvStep, hidle, Option.some.injEq] at hkv
  subst hkv
  -- a key that is not marked now was not marked before, and the call did not conflict on it
  have hraced : ∀ k, (if s.conflicts t c then Function.update s.raced c.key true
      else s.raced) k = false → s.raced k = false ∧ (c.key = k → s.conflicts t c = false) := by
    intro k hk
    split at hk
    · by_cases hkey : k = c.key
      · rw [hkey, Function.update_self] at hk
        cases hk
      · rw [Function.update_of_ne hkey] at hk
        exact ⟨hk, fun heq => absurd heq.symm hkey⟩
    · next hnone => exact ⟨hk, fun _ => Bool.eq_false_iff.mpr hnone⟩
  refine ⟨h.shape.stay (by rw [hidle]; rfl) rfl trivial, h.represents, h.legal, h.rand, fun u => ?_,
    fun k hk => ?_, fun k e r hmem => ?_⟩
  -- the call and the store machine start together
  · show Coupled (Function.update s.kv.pc t (.spinLock c) u).phase
      (Function.update s.pc t (.calling c) u)
    by_cases hu : u = t
    · subst hu
      rw [Function.update_self, Function.update_self]
      exact ⟨Or.inl rfl, hrand⟩
    · rw [Function.update_of_ne hu, Function.update_of_ne hu]
      exact h.coupled u
  -- on an unmarked key the call conflicts with nobody
  · obtain ⟨hold, hfree⟩ := hraced k hk
    have hop : (s.pc t).op = none := by rw [hpc]; rfl
    have hbegin := (h.onKey k hold).begin (c := c) hop fun hkey u hut => by
      have hnone := hfree hkey
      rw [Test.conflicts, List.any_eq_false] at hnone
      have hu := hnone u (List.mem_finRange u)
      rw [decide_eq_true_iff, hkey] at hu
      exact ⟨fun hw => hu ⟨hut, Or.inl hw⟩, fun hwrite hr => hu ⟨hut, Or.inr ⟨hwrite, hr⟩⟩⟩
    show OnKey _ (Pc.phase ∘ Function.update s.kv.pc t (.spinLock c)) _ _ k
    rw [Function.comp_update]
    exact hbegin
  · have hold := h.reported k e r hmem
    show (if s.conflicts t c then Function.update s.raced c.key true else s.raced) k = true
    cases hnew : (if s.conflicts t c then Function.update s.raced c.key true else s.raced) k with
    | true => rfl
    | false => rw [(hraced k hnew).1] at hold; cases hold

/-- The store works on a call. -/
theorem TestInv.work (h : TestInv s ch cs) {c : Call} {mem : Option Addr} {kv : KvState (Fin n)}
    (hpc : s.pc t = .calling c) (hbusy : ∀ r, s.kv.pc t ≠ .ret r)
    (hkv : kvStep s.kv (t, .run mem) = some kv) :
    ∃ ch' cs', TestInv { s with kv := kv } ch' cs' := by
  have hcoupled := h.coupled t
  rw [hpc] at hcoupled
  obtain ⟨hphase, hrand⟩ := hcoupled
  rcases kvStep_cases hkv with ⟨c', hidle, -⟩ | ⟨r, hret, -⟩ | ⟨pc', st', hmove, rfl⟩
  · rw [hidle] at hphase
    rcases hphase with hcalled | ⟨r, hdone⟩
    · cases hcalled
    · cases hdone
  · exact absurd hret (hbusy r)
  -- the thread is in its call as long as the store has not returned
  have hcoupledTo : ∀ {p' : Pc}, (p'.phase = .called c ∨ ∃ r, p'.phase = .done r) → ∀ u,
      Coupled (Function.update s.kv.pc t p' u).phase (s.pc u) := by
    intro p' hp' u
    by_cases hu : u = t
    · subst hu
      rw [Function.update_self, hpc]
      exact ⟨hp', hrand⟩
    · rw [Function.update_of_ne hu]
      exact h.coupled u
  rcases h.shape.effect h.represents h.legal hmove with
    ⟨hsame, hrep⟩ | ⟨c', r, hcalled, hdone, hlegal, hrep⟩
  -- no call takes effect: the map and the phases are as they were
  · refine ⟨_, cs, h.shape.step hmove, hrep, h.legal, h.rand,
      hcoupledTo (by rw [hsame]; exact hphase), fun k hk => ?_, h.reported⟩
    have honKey := h.onKey k hk
    show OnKey s.pc (Pc.phase ∘ Function.update s.kv.pc t pc') _ _ k
    rw [Function.comp_update, hsame]
    rwa [← Function.comp_apply (f := Pc.phase), Function.update_eq_self]
  · -- the instant of the call
    obtain rfl : c' = c := by
      rcases hphase with hcalled' | ⟨r', hdone'⟩
      · rw [hcalled] at hcalled'
        cases hcalled'
        rfl
      · rw [hcalled] at hdone'
        cases hdone'
    have hagree : ∀ k, s.raced k = false → c'.key = k →
        valueOf (contents cs) k = s.expected k := by
      intro k hk hkey
      have hlocal := (h.onKey k hk).each t
      rw [hpc, Function.comp_apply, hcalled] at hlocal
      exact hlocal hkey
    -- all that is left to say of a key is what the call has done to it
    have hafter : ∀ {cs' : List (Call × Int)}, (∀ k v, contents cs' k = some v → IsRand v) →
        Legal cs' → Represents st'.node ((s.kv.pc t).grow ch) (contents cs') →
        (∀ k, s.raced k = false → valueOf (contents cs') k = valueOf (contents cs) k ∨
          (s.pc t).op = some (k, true)) →
        (∀ k, s.raced k = false → Local (valueOf (contents cs') k) (s.expected k) k (.done r)
          (.calling c')) →
        TestInv { s with kv := { s.kv with store := st', pc := Function.update s.kv.pc t pc' } }
          ((s.kv.pc t).grow ch) cs' := by
      intro cs' hrand' hlegal' hrep' hvalues hlocals
      refine ⟨h.shape.step hmove, hrep', hlegal', hrand', hcoupledTo (Or.inr ⟨r, hdone⟩),
        fun k hk => ?_, h.reported⟩
      have honKey := (h.onKey k hk).move (s.pc t) (.done r) _ (s.expected k)
        ((hvalues k hk).imp (fun hx => ⟨hx, rfl⟩) id) (fun w hw => hw)
        (by rw [hpc]; exact hlocals k hk) fun hw hn => absurd hw hn
      rw [Function.update_eq_self] at honKey
      show OnKey s.pc (Pc.phase ∘ Function.update s.kv.pc t pc') _ _ k
      rwa [Function.comp_update, hdone]
    rcases hlegal.last with ⟨k₀, rfl, hr⟩ | ⟨k₀, v, rfl, rfl | rfl⟩
    -- a read has got what the map holds, and the table holds the same
    · refine ⟨_, _, hafter ?_ hlegal hrep (fun k _ => Or.inl ?_) fun k hk hkey => ?_⟩
      · rw [contents_read]
        exact h.rand
      · rw [contents_read]
      · rw [contents_read]
        obtain rfl : k₀ = k := hkey
        exact ⟨hr, hagree k₀ hk rfl⟩
    -- a write has made the store differ from the table, for its own key
    · refine ⟨_, _, hafter ?_ hlegal hrep (fun k _ => ?_) fun k hk hkey => Or.inl ⟨rfl, ?_⟩⟩
      · rw [contents_written]
        intro k' v' hv'
        by_cases hk' : k' = k₀
        · rw [hk', Function.update_self] at hv'
          cases hv'
          exact hrand k₀ v rfl
        · rw [Function.update_of_ne hk'] at hv'
          exact h.rand k' v' hv'
      · by_cases hk' : k = k₀
        · right
          rw [hpc, hk']
          rfl
        · left
          rw [contents_written, valueOf, Function.update_of_ne hk']
          rfl
      · obtain rfl : k₀ = k := hkey
        rw [contents_written, valueOf, Function.update_self]
        rfl
    -- a write without memory has changed nothing
    · refine ⟨_, _, hafter ?_ hlegal hrep (fun k _ => Or.inl ?_) fun k hk hkey =>
        Or.inr ⟨rfl, ?_⟩⟩
      · rw [contents_refused]
        exact h.rand
      · rw [contents_refused]
      · rw [contents_refused]
        exact hagree k hk hkey

/-- A call returns to the test. -/
theorem TestInv.returned (h : TestInv s ch cs) {c : Call} {mem : Option Addr} {r : Int}
    {kv : KvState (Fin n)} (hpc : s.pc t = .calling c) (hret : s.kv.pc t = .ret r)
    (hkv : kvStep s.kv (t, .run mem) = some kv) :
    TestInv { s.returned t c (toInt (syscall r).1) with kv := kv } ch cs := by
  simp only [kvStep, hret, Option.some.injEq] at hkv
  subst hkv
  have hheld : (s.kv.pc t).held = none := by rw [hret]; rfl
  have hop : (s.pc t).op = some (c.key, c.isWrite) := by rw [hpc]; rfl
  -- what the thread knows of its key when the call has taken effect
  have hlocal : ∀ k, s.raced k = false →
      Local (valueOf (contents cs) k) (s.expected k) k (.done r) (.calling c) := by
    intro k hk
    have heach := (h.onKey k hk).each t
    rwa [hpc, Function.comp_apply, hret] at heach
  cases c with
  | readKv k₀ =>
    -- the value read is handed on as it is
    refine h.outside hheld _ (.lock (.load k₀ _)) _ _ _ _ rfl (fun k => Or.inl rfl)
      (fun k w hw => ?_) (fun k hk hkey => ?_) (fun k _ hwrites => ?_) h.reported
    · rw [hop]
      exact hw
    · obtain ⟨rfl, hagree⟩ := hlocal k hk hkey
      exact ⟨user_value (h.valueOf_cases k), hagree⟩
    · rw [hop] at hwrites
      cases hwrites
  | writeKv k₀ v =>
    -- the result tells whether the store has the value
    have hresult : ∀ k, s.raced k = false → k₀ = k →
        toInt (syscall r).1 = 0 ∧ valueOf (contents cs) k = v ∨
          toInt (syscall r).1 = -1 ∧ valueOf (contents cs) k = s.expected k := by
      intro k hk hkey
      rcases hlocal k hk hkey with ⟨rfl, hx⟩ | ⟨rfl, hx⟩
      · exact Or.inl ⟨rfl, hx⟩
      · exact Or.inr ⟨rfl, hx⟩
    unfold Test.returned
    simp only
    split
    -- the table is still to be brought up to date
    · next hok =>
      refine h.outside hheld _ (.lock (.store k₀ v)) _ _ _ _ rfl (fun k => Or.inl rfl)
        (fun k w hw => ?_) (fun k hk hkey => ?_) (fun k _ hwrites hn => ?_) h.reported
      · rw [hop]
        exact hw
      · rcases hresult k hk hkey with ⟨-, hx⟩ | ⟨hfailed, -⟩
        · exact hx
        · exact absurd hfailed hok
      · rw [hop] at hwrites
        exact absurd hwrites hn
    -- the write had no effect, and the iteration ends here
    · next hfailed =>
      refine h.outside hheld _ .next _ _ _ _ rfl (fun k => Or.inl rfl) (fun k w hw => ?_)
        (fun k hk => trivial) (fun k hk hwrites _ => ?_) fun k e r hmem => ?_
      · cases hw
      · rw [hop] at hwrites
        have hkey : k₀ = k := (Prod.ext_iff.mp (Option.some.inj hwrites)).1
        rcases hresult k hk hkey with ⟨hzero, -⟩ | ⟨-, hx⟩
        · rw [hzero] at hfailed
          exact absurd (by decide) hfailed
        · exact hx
      · rcases List.mem_append.mp hmem with hold | hnew
        · exact h.reported k e r hold
        · cases List.mem_singleton.mp hnew

/-- **One step** of the test. -/
theorem TestInv.move (h : TestInv s ch cs) {a : TestAction} (hmove : TestMove s t a s')
    (hrand : ∀ k v, a = .draw (.writeKv k v) → IsRand v) :
    ∃ ch' cs', TestInv s' ch' cs' := by
  cases hmove with
  | draw c kv hpc hkv =>
    exact ⟨ch, cs, h.draw (fun k v hc => hrand k v (by rw [hc])) hpc hkv⟩
  | work c mem kv hpc hbusy hkv => exact h.work hpc hbusy hkv
  | returned c mem r kv hpc hret hkv => exact ⟨ch, cs, h.returned hpc hret hkv⟩
  | lock job mem hpc =>
    -- the operation goes on, with the mutex
    have hnot : ∀ c, s.pc t ≠ .calling c := fun c hc => by rw [hpc] at hc; cases hc
    have hop : (s.pc t).op = (TestPc.critical job).op := by
      rw [hpc]
      cases job <;> rfl
    refine ⟨ch, cs, h.quiet hnot _ _ _ _ _ rfl (fun k => Or.inl rfl) (fun k w hw => ?_)
      (fun k hk => ?_) (fun k _ hw hn => ?_) h.reported⟩
    · rw [hop]
      exact hw
    · have hlocal := (h.onKey k hk).each t
      rw [hpc] at hlocal
      cases job <;> exact hlocal
    · rw [hop] at hw
      exact absurd hw hn
  | store k₀ v mem hpc =>
    have hnot : ∀ c, s.pc t ≠ .calling c := fun c hc => by rw [hpc] at hc; cases hc
    have hop : (s.pc t).op = some (k₀, true) := by rw [hpc]; rfl
    refine ⟨ch, cs, h.quiet hnot _ _ _ _ _ rfl (fun k => ?_) (fun k w hw => ?_)
      (fun k hk => trivial) (fun k hk hw _ => ?_) h.reported⟩
    · by_cases hk : k = k₀
      · right
        rw [hop, hk]
      · exact Or.inl (Function.update_of_ne hk _ _)
    · cases hw
    · -- the table gets the value that the store has since the call took effect
      rw [hop] at hw
      obtain rfl : k₀ = k := (Prod.ext_iff.mp (Option.some.inj hw)).1
      have hlocal := (h.onKey k₀ hk).each t
      rw [hpc] at hlocal
      rw [Function.update_self]
      exact hlocal rfl
  | load k₀ r mem hpc =>
    -- at this moment the table has the value that was read
    have hnot : ∀ c, s.pc t ≠ .calling c := fun c hc => by rw [hpc] at hc; cases hc
    have hop : (s.pc t).op = some (k₀, false) := by rw [hpc]; rfl
    refine ⟨ch, cs, h.quiet hnot _ _ _ _ _ rfl (fun k => Or.inl rfl) (fun k w hw => ?_)
      (fun k hk hkey => ?_) (fun k _ hw _ => ?_) h.reported⟩
    · cases hw
    · have hlocal := (h.onKey k hk).each t
      rw [hpc] at hlocal
      obtain ⟨hr, hagree⟩ := hlocal hkey
      rw [hr, hagree, hkey]
    · rw [hop] at hw
      cases hw
  | unlockStore mem hpc =>
    have hnot : ∀ c, s.pc t ≠ .calling c := fun c hc => by rw [hpc] at hc; cases hc
    refine ⟨ch, cs, h.quiet hnot .next none _ _ _ rfl (fun k => Or.inl rfl) (fun k w hw => ?_)
      (fun k hk => trivial) (fun k _ hw _ => ?_) h.reported⟩
    · cases hw
    -- the operation was over before the mutex was released
    · rw [hpc] at hw
      cases hw
  | unlockLoad k₀ r e mem hpc =>
    have hnot : ∀ c, s.pc t ≠ .calling c := fun c hc => by rw [hpc] at hc; cases hc
    refine ⟨ch, cs, h.quiet hnot _ _ _ _ _ rfl (fun k => Or.inl rfl) (fun k w hw => ?_)
      (fun k hk => ?_) (fun k _ hw _ => ?_) h.reported⟩
    · cases hw
    · have hlocal := (h.onKey k hk).each t
      rwa [hpc] at hlocal
    · rw [hpc] at hw
      cases hw
  | compare k₀ r e mem hpc =>
    have hnot : ∀ c, s.pc t ≠ .calling c := fun c hc => by rw [hpc] at hc; cases hc
    refine ⟨ch, cs, h.quiet hnot .next _ _ _ _ rfl (fun k => Or.inl rfl) (fun k w hw => ?_)
      (fun k hk => trivial) (fun k _ hw _ => ?_) fun k e' r' hmem => ?_⟩
    · cases hw
    · rw [hpc] at hw
      cases hw
    · split at hmem
      · next hdiffer =>
        rcases List.mem_append.mp hmem with hold | hnew
        · exact h.reported k e' r' hold
        · -- without a race the two values were the same
          cases List.mem_singleton.mp hnew
          cases hraced : s.raced k₀ with
          | true => rfl
          | false =>
            have hlocal := (h.onKey k₀ hraced).each t
            rw [hpc] at hlocal
            exact absurd (hlocal rfl) hdiffer.2
      · exact h.reported k e' r' hmem

/-- For any number of threads and every interleaving of the test with the store, with kmalloc
failing where it likes: an inconsistency is reported only for a key on which a `write_kv` overlapped
another operation of the test, and for every other key that is not being written
`expected_values` is what the store holds. -/
theorem reports_of_reach (n : Nat) (s : Test n) (h : Reach testStep RandArgs (testInit n) s) :
    (∀ k e r, .inconsistent k e r ∈ s.reports → s.raced k = true) ∧
      ∃ ch m, Shape s.kv.store s.kv.pc ch ∧ Represents s.kv.store.node ch m ∧
        ∀ k, s.raced k = false → (∀ u, (s.pc u).op ≠ some (k, true)) →
          (m k).getD (-1) = s.expected k := by
  have hinv : ∃ ch cs, TestInv s ch cs := by
    refine h.inv (I := fun s => ∃ ch cs, TestInv s ch cs) ⟨_, _, testInv_init n⟩ ?_
    rintro s l s' ⟨ch, cs, hinv⟩ hok hstep
    refine hinv.move (testMove_of_step hstep) fun k v hdraw => ?_
    unfold RandArgs at hok
    rw [hdraw] at hok
    exact hok.2
  obtain ⟨ch, cs, hinv⟩ := hinv
  exact ⟨hinv.reported, ch, contents cs, hinv.shape, hinv.represents,
    fun k hk hnone => (hinv.onKey k hk).synced hnone⟩

end

/-- Two writes of key 5 reach the store in one order and the table in the other; then the key is
read. -/
def swappedRun : List (Fin 2 × TestAction) :=
  (0, .draw (.writeKv 5 1)) :: List.replicate 7 (0, .run (some 0)) ++
    (1, .draw (.writeKv 5 2)) :: List.replicate 9 (1, .run none) ++
    List.replicate 3 (0, .run none) ++
    (0, .draw (.readKv 5)) :: List.replicate 10 (0, .run none)

/-- A false alarm: the store holds what was written last, and the test reports it. -/
theorem reports_of_swapped :
    ∃ s, Reach testStep RandArgs (testInit 2) s ∧ s.reports = [.inconsistent 5 1 2] ∧
      s.raced 5 = true := by
  have hrun : (exec testStep (fun s l => decide (RandArgs s l)) (testInit 2) swappedRun).map
      Test.reports = some [.inconsistent 5 1 2] := by decide +kernel
  obtain ⟨s, hreach, hreports⟩ := reach_of_exec_map hrun fun s l h => of_decide_eq_true h
  refine ⟨s, hreach, hreports, (reports_of_reach 2 s hreach).1 5 1 2 ?_⟩
  rw [hreports]
  exact List.mem_singleton_self _

end OsHomework.KvStore
