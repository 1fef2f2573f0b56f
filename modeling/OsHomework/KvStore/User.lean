import Mathlib.Algebra.Group.Int.Defs
import Mathlib.Algebra.Group.Nat.Defs
import OsHomework.KvStore.Alone
import OsHomework.KvStore.Bounds

/-!
# KvStore — the calls as user space sees them

A value crosses three encodings on its way back: an `int` in the node, the `long` result of the
system call, which error codes share, and what libc's `syscall` makes of that. The wrappers of
`kv.h` add nothing. A key that has no node is reported as -1.

* **`UserInv`** — over any history of calls, some of whose allocations may fail, the store holds
  the values of the last successful writes.
* **`readsBack_iff`** — a value can be read back, and told from a missing key, exactly if it is not
  between -4095 and -1.
-/

namespace OsHomework.KvStore

open Lts

/-! ## The wrappers

`syscall` reports results between -4095 and -1 by returning -1 and setting errno, whatever the
number meant to the kernel. The last conversion is from `long` to `int` and keeps every `int`. -/

/-- The kernel results that stand for an error. -/
def IsErrno (r : Int) : Prop := -4095 ≤ r ∧ r ≤ -1

instance (r : Int) : Decidable (IsErrno r) := inferInstanceAs (Decidable (_ ∧ _))

/-- libc's `syscall`: the result, and errno where it is set. -/
def syscall (r : Int) : Int × Option Int := if IsErrno r then (-1, some (-r)) else (r, none)

/-- A `long` returned from a function of type `int`. -/
def toInt (r : Int) : Int := r.bmod (2 ^ 32)

/-- `return syscall(SYS_…, …);`, the body of both wrappers; `mem` is what a kmalloc of the call
returns. -/
def userCall (t : Nat) (mem : Option Addr) (fuel : Nat) (st : Store Nat) (c : Call) :
    Option (Int × Store Nat) :=
  (Pc.runTo t mem fuel (.spinLock c) st).map fun x => (toInt (syscall x.1).1, x.2)

def userWriteKv (t : Nat) (mem : Option Addr) (fuel : Nat) (st : Store Nat) (k v : Int) :
    Option (Int × Store Nat) :=
  userCall t mem fuel st (.writeKv k v)

def userReadKv (t : Nat) (mem : Option Addr) (fuel : Nat) (st : Store Nat) (k : Int) :
    Option (Int × Store Nat) :=
  userCall t mem fuel st (.readKv k)

def IsInt (n : Int) : Prop := -2 ^ 31 ≤ n ∧ n < 2 ^ 31

instance (n : Int) : Decidable (IsInt n) := inferInstanceAs (Decidable (_ ∧ _))

theorem toInt_of_isInt {n : Int} (h : IsInt n) : toInt n = n := by
  unfold IsInt at h
  unfold toInt
  rw [Int.bmod_eq_of_le] <;> omega

/-- What user space gets of a result of type `int`. -/
theorem user_result {r : Int} (h : IsInt r) :
    toInt (syscall r).1 = if IsErrno r then -1 else r := by
  unfold syscall
  split
  · rfl
  · exact toInt_of_isInt h

/-! ## Histories

The process runs one call after the other here; that any interleaving gives a history of the same
map is the subject of `Linearize`. Allocations may fail, so a write may return -1. User space then
sees the same -1, and its record of which writes succeeded agrees with that of the kernel. -/

/-- The store of a process and its calls with what the wrappers returned, oldest first. -/
structure UserState where
  store : Store Nat
  hist : List (Call × Int)

def userInit : UserState where
  store := initTaskKvStore Nat
  hist := []

/-- A call of thread `t` of the process. -/
structure UserCall where
  t : Nat
  call : Call
  mem : Option Addr
  fuel : Nat

def userStep (s : UserState) (l : UserCall) : Option UserState :=
  -- kmalloc never hands out memory that is in use
  if l.mem.all fun a => (s.store.node a).isNone then
    (userCall l.t l.mem l.fuel s.store l.call).map fun x =>
      { store := x.2, hist := s.hist ++ [(l.call, x.1)] }
  else none

/-- The arguments of a call. -/
def Call.args : Call → List Int
  | .writeKv key value => [key, value]
  | .readKv key => [key]

/-- The arguments are ints, and the key does not lead out of the arrays. -/
def IntArgs (_ : UserState) (l : UserCall) : Prop :=
  (∀ n ∈ l.call.args, IsInt n) ∧ IndexKey l.call.key

instance (s : UserState) (l : UserCall) : Decidable (IntArgs s l) :=
  inferInstanceAs (Decidable (_ ∧ _))

/-- The store holds the values of the last successful writes, all of them ints. -/
structure UserInv (s : UserState) (ch : Chains) : Prop where
  wf : WellFormed s.store.first s.store.node ch
  free : ∀ b, s.store.lock b = none
  represents : Represents s.store.node ch (contents s.hist)
  isInt : ∀ key value, contents s.hist key = some value → IsInt value

theorem userInv_init : UserInv userInit fun _ => [] where
  wf := wellFormed_nil _
  free := fun _ => rfl
  represents := represents_nil _
  isInt := by
    intro key value h
    cases h

/-- What the kernel may answer: what the map says, or -1 to a write. -/
def Answers (m : Int → Option Int) (c : Call) (r : Int) : Prop :=
  r = c.answer m ∨ (∃ key value, c = .writeKv key value) ∧ r = -1

/-- The call of a process returns and leaves the map it should. -/
theorem UserInv.returns {s : UserState} {ch : Chains} (h : UserInv s ch) (t : Nat) (c : Call)
    {mem : Option Addr} (hmem : mem.all fun a => (s.store.node a).isNone) :
    ∃ r st' ch', Leads t mem (.spinLock c) s.store (.ret r) st' ∧ Answers (contents s.hist) c r ∧
      WellFormed st'.first st'.node ch' ∧ st'.lock = s.store.lock ∧
      Represents st'.node ch' (effect (contents s.hist) (c, r)) := by
  have hnone : ∀ a ∈ mem, s.store.node a = none := by
    intro a ha
    rw [ha] at hmem
    exact Option.isNone_iff_eq_none.mp hmem
  obtain ⟨r, st', hleads, hcases⟩ := call_leads t c hnone (h.free _) h.wf h.represents
  rcases hcases with ⟨ch', rfl, hcalled⟩ | ⟨⟨key, value, rfl⟩, rfl, rfl⟩
  · exact ⟨_, st', ch', hleads, Or.inl rfl, hcalled.wf, hcalled.lock_eq, hcalled.represents⟩
  · exact ⟨-1, _, ch, hleads, Or.inr ⟨⟨key, value, rfl⟩, rfl⟩, h.wf, rfl, h.represents⟩

/-- The wrappers keep a write's result, so user space sees the same map as the kernel. -/
theorem effect_user {m : Int → Option Int} {c : Call} {r : Int} (h : Answers m c r) :
    effect m (c, toInt (syscall r).1) = effect m (c, r) := by
  cases c with
  | readKv key => rfl
  | writeKv key value =>
    rcases h with rfl | ⟨-, rfl⟩
    · rfl
    · rfl

/-- **One call** of the process. -/
theorem UserInv.step {s s' : UserState} {ch : Chains} {l : UserCall} (h : UserInv s ch)
    (hargs : IntArgs s l) (hstep : userStep s l = some s') : ∃ ch', UserInv s' ch' := by
  obtain ⟨t, c, mem, fuel⟩ := l
  simp only [userStep, userCall, Option.ite_none_right_eq_some, Option.map_map] at hstep
  obtain ⟨hmem, hrun⟩ := hstep
  obtain ⟨⟨r, st⟩, hkernel, rfl⟩ := Option.map_eq_some_iff.mp hrun
  obtain ⟨r', st', ch', hleads, hanswers, hwf, hlock, hrep⟩ := h.returns t c hmem
  obtain ⟨rfl, rfl⟩ := Prod.mk.inj (hleads.unique hkernel)
  -- the record of user space and that of the kernel have the same effect on the map
  have hcontents : contents (s.hist ++ [(c, toInt (syscall r).1)]) =
      effect (contents s.hist) (c, r) := by
    rw [contents_concat, effect_user hanswers]
  refine ⟨ch', hwf, fun b => ?_, ?_, ?_⟩
  · show st.lock b = none
    rw [hlock]
    exact h.free b
  · show Represents st.node ch' (contents (s.hist ++ [(c, toInt (syscall r).1)]))
    rw [hcontents]
    exact hrep
  · show ∀ key value, contents (s.hist ++ [(c, toInt (syscall r).1)]) key = some value → IsInt value
    rw [hcontents]
    intro key value hvalue
    -- a write stores an `int`, a read stores nothing
    cases c with
    | readKv key' => exact h.isInt key value hvalue
    | writeKv key' value' =>
      simp only [effect] at hvalue
      split at hvalue
      · by_cases hkey : key = key'
        · rw [hkey, Function.update_self] at hvalue
          cases hvalue
          exact hargs.1 value (by simp [Call.args])
        · rw [Function.update_of_ne hkey] at hvalue
          exact h.isInt key value hvalue
      · exact h.isInt key value hvalue

theorem UserInv.of_reach {s : UserState} (h : Reach userStep IntArgs userInit s) :
    ∃ ch, UserInv s ch :=
  h.inv (I := fun s => ∃ ch, UserInv s ch) ⟨_, userInv_init⟩
    fun _ _ _ ⟨_, hinv⟩ hargs hstep => hinv.step hargs hstep

/-! ## Reading back

What a read returns is a function of the map. It is the value itself unless libc takes it for an
error, and then it is what a missing key gives. -/

/-- `read_kv(k)` can return `r`. -/
def UserReads (s : UserState) (k r : Int) : Prop :=
  ∃ t mem fuel st', userReadKv t mem fuel s.store k = some (r, st')

/-- What user space gets for a key. -/
def userValue (s : UserState) (k : Int) : Int :=
  toInt (syscall ((contents s.hist k).getD (-1))).1

/-- A read returns, and always the same. -/
theorem UserInv.userReads_iff {s : UserState} {ch : Chains} (h : UserInv s ch) (k r : Int) :
    UserReads s k r ↔ r = userValue s k := by
  -- a read never gets as far as kmalloc
  have hreads : ∀ t mem, ∃ st', Leads t mem (.spinLock (.readKv k)) s.store
      (.ret ((contents s.hist k).getD (-1))) st' := by
    intro t mem
    rcases call_or_kmalloc t mem (.readKv k) (h.free _) h.wf h.represents with
      ⟨st', hleads, -⟩ | ⟨key, value, hwrite, -⟩
    · exact ⟨st', hleads⟩
    · cases hwrite
  constructor
  · rintro ⟨t, mem, fuel, st', hrun⟩
    obtain ⟨x, hkernel, hx⟩ := Option.map_eq_some_iff.mp hrun
    obtain ⟨st'', hleads⟩ := hreads t mem
    cases hleads.unique hkernel
    exact (Prod.mk.inj hx).1.symm
  · rintro rfl
    obtain ⟨st', hleads⟩ := hreads 0 none
    obtain ⟨fuel, hrun⟩ := hleads.runTo_eq
    exact ⟨0, none, fuel, st', Option.map_eq_some_iff.mpr ⟨_, hrun, rfl⟩⟩

/-- A key that was never written reads as -1. -/
theorem userValue_absent {s : UserState} {k : Int} (h : contents s.hist k = none) :
    userValue s k = -1 := by
  rw [userValue, h]
  rfl

/-- A key that was written reads as its value, if that is not one of the errors. -/
theorem userValue_written {s : UserState} {k v : Int} (h : contents s.hist k = some v)
    (hv : IsInt v) : userValue s k = if IsErrno v then -1 else v := by
  rw [userValue, h]
  exact user_result hv

/-- `v` can be read back from the key `k`, whatever else was called before: every history whose last
successful write to `k` wrote `v` is followed by reads of `k` that return `v`, and by reads of keys
that were never written that return something else. -/
def ReadsBack (k v : Int) : Prop :=
  ∀ s, Reach userStep IntArgs userInit s → contents s.hist k = some v →
    (∀ r, UserReads s k r ↔ r = v) ∧
      ∀ k', IsInt k' → 0 ≤ k' → contents s.hist k' = none →
        ∀ r r', UserReads s k r → UserReads s k' r' → r' ≠ r

/-- The shortest history that writes `v` to `k`. -/
theorem reach_single_write {k v : Int} (hk : IsInt k) (hk0 : 0 ≤ k) (hv : IsInt v) :
    ∃ s, Reach userStep IntArgs userInit s ∧ s.hist = [(.writeKv k v, 0)] := by
  obtain ⟨st', ch', hleads, -⟩ := call_alone 0 (.writeKv k v) (a := 0) rfl (userInv_init.free _)
    userInv_init.wf userInv_init.represents
  obtain ⟨fuel, hrun⟩ := hleads.runTo_eq
  have hstep : userStep userInit ⟨0, .writeKv k v, some 0, fuel⟩ =
      some ⟨st', [(.writeKv k v, 0)]⟩ := by
    have hcall : userCall 0 (some 0) fuel userInit.store (.writeKv k v) = some (0, st') :=
      Option.map_eq_some_iff.mpr ⟨_, hrun, rfl⟩
    show (userCall 0 (some 0) fuel userInit.store (.writeKv k v)).map _ = _
    rw [hcall]
    rfl
  have hargs : IntArgs userInit ⟨0, .writeKv k v, some 0, fuel⟩ :=
    ⟨by simp [Call.args, hk, hv], Or.inl hk0⟩
  exact ⟨_, .single hargs hstep, rfl⟩

/-- **Reading back.** User space reads a value back, and can tell it from a missing key, exactly if
the value is not one that libc takes for an error. -/
theorem readsBack_iff {k v : Int} (hk : IsInt k) (hk0 : 0 ≤ k) (hv : IsInt v) :
    ReadsBack k v ↔ ¬ IsErrno v := by
  constructor
  · intro h herr
    obtain ⟨s, hreach, hhist⟩ := reach_single_write hk hk0 hv
    obtain ⟨ch, hinv⟩ := UserInv.of_reach hreach
    have hself : contents s.hist k = some v := by
      rw [hhist]
      simp [contents, effect]
    -- some other key was never written
    obtain ⟨k', hk', hk'0, hne⟩ : ∃ k', IsInt k' ∧ 0 ≤ k' ∧ k' ≠ k := by
      unfold IsInt
      by_cases h0 : k = 0
      · exact ⟨1, by omega, by omega, by omega⟩
      · exact ⟨0, by omega, by omega, by omega⟩
    have habsent : contents s.hist k' = none := by
      rw [hhist]
      simp [contents, effect, Function.update_of_ne hne]
    have hvalue : userValue s k = -1 := by rw [userValue_written hself hv, if_pos herr]
    refine (h s hreach hself).2 k' hk' hk'0 habsent (-1) (-1) ?_ ?_ rfl
    · exact (hinv.userReads_iff k _).mpr hvalue.symm
    · exact (hinv.userReads_iff k' _).mpr (userValue_absent habsent).symm
  · intro hok s hreach hself
    obtain ⟨ch, hinv⟩ := UserInv.of_reach hreach
    have hvalue : userValue s k = v := by rw [userValue_written hself hv, if_neg hok]
    refine ⟨fun r => by rw [hinv.userReads_iff, hvalue], ?_⟩
    intro k' _ _ habsent r r' hr hr' heq
    rw [hinv.userReads_iff, hvalue] at hr
    rw [hinv.userReads_iff, userValue_absent habsent] at hr'
    -- -1 is one of libc's errors
    apply hok
    unfold IsErrno
    omega

/-- The value 7 can be read back from key 5. -/
theorem readsBack_seven : ReadsBack 5 7 :=
  (readsBack_iff (by unfold IsInt; omega) (by omega) (by unfold IsInt; omega)).mpr
    (by unfold IsErrno; omega)

/-- The calls of a computed run. -/
def writeMinusFive : List UserCall := [⟨0, .writeKv 3 (-5), some 0, 20⟩]

/-- Writing -5 to key 3 succeeds; a read of it then returns -1, as does a read of key 4, which was
never written. -/
theorem minus_five_not_read_back : ¬ ReadsBack 3 (-5) := by
  intro h
  have hrun : (exec userStep (fun s l => decide (IntArgs s l)) userInit writeMinusFive).map
      (fun s => (s.hist, (userReadKv 0 none 20 s.store 3).map Prod.fst,
        (userReadKv 0 none 20 s.store 4).map Prod.fst)) =
        some ([(.writeKv 3 (-5), 0)], some (-1), some (-1)) := by
    decide +kernel
  obtain ⟨s, hreach, hobs⟩ := reach_of_exec_map hrun fun _ _ h => of_decide_eq_true h
  obtain ⟨hhist, hreads⟩ := Prod.mk.inj hobs
  obtain ⟨x, hread, hx⟩ := Option.map_eq_some_iff.mp (Prod.mk.inj hreads).1
  have hself : contents s.hist 3 = some (-5) := by
    rw [hhist]
    rfl
  -- the read of key 3 returned -1, not -5
  have heq : x.1 = -5 := ((h s hreach hself).1 x.1).mp ⟨0, none, 20, x.2, hread⟩
  omega

end OsHomework.KvStore
