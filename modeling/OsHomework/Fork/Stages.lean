import OsHomework.Fork.CopyProcess

/-!
# Fork — what a `copy_process` under way holds

`Stage.held` and `Label.held` say for which slots a call has a reference of its own when it comes to
a stage or a label. That the table of jumps fits is one line (`Stage.held_fail`): a stage that fails
jumps to the label that gives back what the stages before it have taken.

* **`Takes`** — everything a stage can do to its slot: make an object, take a reference to the
  creator's, or nothing. `Stage.run_fills` finds it for every stage.
* **`Ready`** — what the stages and labels rely on: the pointers the new task still has from its
  creator, which of them are not null, and that nobody else refers to what is freed without a look
  at a count.
* **`Stage.goes`** and **`Label.goes`** — one stage and one label, as deals.
-/

namespace OsHomework.Fork

open Counted

/-! ## The tables

What a call holds is determined by where it stands. The stages fill the slots of a task in one order
and the labels empty them in the reverse one, so both tables are tails of a single list. With them
the question whether every jump goes to the right label is one about two tables, and it is decided
by going through the stages. -/

/-- The slots for which a call has a reference. A thread is counted in its group when it becomes
visible, and there is no file without `CLONE_PIDFD`. -/
def counted (flags : CloneFlags) : Slot → Bool
  | .signal => !flags.thread
  | .fd | .pidfile | .pidRef => flags.pidfd
  | _ => true

/-- The references for some slots. -/
def refs (flags : CloneFlags) (p : Ptrs) (slots : List Slot) : List Obj :=
  slots.filterMap fun s => if counted flags s then (p s).map s.obj else none

/-- The slots of the task but for the first `n`, and the node of the delayed signals. -/
def taken (n : Nat) : List Slot := taskSlots.drop n ++ [.delayed]

/-- What a call holds when it comes to a stage. -/
def Stage.held : Stage → List Slot
  -- nothing at the start, then the node on the list of delayed signals
  | .hlistAddHead => []
  | .taskSigpending | .allocTaskStruct => [.delayed]
  | .allocThreadStack => taken 17
  | .memcgChargeKernelStack | .archDupTaskStruct | .scsPrepare | .copyCreds => taken 16
  | .incRlimitUcounts => taken 15
  | .isUcountsOverlimit | .maxThreads | .delayacctTskInit => taken 14
  | .mpolDup => taken 13
  | .schedFork | .perfEventInitTask => taken 12
  | .auditAlloc => taken 11
  | .securityTaskAlloc => taken 10
  | .copySemundo | .copyFiles => taken 9
  | .copyFs => taken 8
  | .copySighand => taken 7
  | .copySignal => taken 6
  | .copyMm => taken 5
  | .copyNamespaces => taken 4
  | .copyIo => taken 3
  | .copyThread => taken 2
  | .allocPid => taken 1
  | .getUnusedFdFlags => taken 0
  -- the pidfd: a descriptor, then the file and the pid it refers to
  | .anonInodeGetfile => .fd :: taken 0
  | .putUser | .cgroupCanFork => .pidfile :: .pidRef :: .fd :: taken 0
  | .writeLockIrq | .pidnsAdding | .fatalSignalPending | .attachPid =>
    .cgroup :: .pidfile :: .pidRef :: .fd :: taken 0
  -- the new task has its references itself now
  | .fdInstall => [.cgroup, .pidfile, .pidRef, .fd]
  | .cgroupPostFork => [.cgroup]

/-- What a call holds when it comes to a label. -/
def Label.held : Label → List Slot
  | .badForkCancelCgroup => .cgroup :: .pidfile :: .pidRef :: .fd :: taken 0
  -- one label for the file, the pid and the descriptor
  | .badForkPutPidfd => .pidfile :: .pidRef :: .fd :: taken 0
  | .badForkFreePid => taken 0
  | .badForkCleanupThread => taken 1
  | .badForkCleanupIo => taken 2
  | .badForkCleanupNamespaces => taken 3
  | .badForkCleanupMm => taken 4
  | .badForkCleanupSignal => taken 5
  | .badForkCleanupSighand => taken 6
  | .badForkCleanupFs => taken 7
  | .badForkCleanupFiles => taken 8
  | .badForkCleanupSemundo | .badForkCleanupSecurity => taken 9
  | .badForkCleanupAudit => taken 10
  | .badForkCleanupPerf => taken 11
  | .badForkCleanupPolicy => taken 12
  | .badForkCleanupThreadgroupLock => taken 13
  | .badForkCleanupCount => taken 14
  -- `free_task` puts the stack and frees the task struct
  | .badForkFree | .freeStack => taken 16
  | .freeTsk => taken 17
  | .forkOut => [.delayed]

/-- The slot a stage fills. -/
def Stage.slot : Stage → Option Slot
  | .hlistAddHead => some .delayed
  | .allocTaskStruct => some .taskStruct
  | .allocThreadStack => some .stack
  | .copyCreds => some .cred
  | .incRlimitUcounts => some .nproc
  | .delayacctTskInit => some .delays
  | .mpolDup => some .mempolicy
  | .perfEventInitTask => some .perf
  | .auditAlloc => some .audit
  | .securityTaskAlloc => some .security
  | .copyFiles => some .files
  | .copyFs => some .fs
  | .copySighand => some .sighand
  | .copySignal => some .signal
  | .copyMm => some .mm
  | .copyNamespaces => some .nsproxy
  | .copyIo => some .ioContext
  | .copyThread => some .thread
  | .allocPid => some .pid
  | .getUnusedFdFlags => some .fd
  | .cgroupCanFork => some .cgroup
  | _ => none

/-- The stages that end in `Stage.run`, but for the one that fills two slots. -/
def Stage.plain : Stage → Bool
  | .anonInodeGetfile | .writeLockIrq | .attachPid | .fdInstall | .cgroupPostFork => false
  | _ => true

/-- A stage adds its slot. -/
theorem Stage.held_next {st : Stage} (hplain : st.plain = true) :
    st.next.held = st.slot.toList ++ st.held := by
  cases st <;> first | rfl | cases hplain

/-- A slot is filled once. -/
theorem Stage.slot_notMem {st : Stage} {s : Slot} (hs : st.slot = some s) : s ∉ st.held := by
  cases st <;> first | (cases hs; decide) | cases hs

/-- The stages that cannot fail. -/
def Stage.sure : Stage → Bool
  | .hlistAddHead | .incRlimitUcounts => true
  | _ => false

/-- **The jumps fit.** The label gives back what the stages before have taken. -/
theorem Stage.held_fail {st : Stage} (hplain : st.plain = true) (hsure : st.sure = false) :
    st.fail.held = st.held := by
  cases st <;> first | rfl | (cases hplain; done) | cases hsure

/-- The new task's pointers are its creator's, but for what has been made for it. -/
def Stage.dup : Stage → Bool
  | .hlistAddHead | .taskSigpending | .allocTaskStruct | .allocThreadStack
  | .memcgChargeKernelStack | .archDupTaskStruct | .fdInstall | .cgroupPostFork => false
  | _ => true

def CopyPc.held : CopyPc → List Slot
  | .stage st => st.held
  | .label l => l.held

def CopyPc.dup : CopyPc → Bool
  | .stage st => st.dup
  | .label _ => false

/-! ## What the stages rely on

A slot that is not held yet contains the creator's pointer, and a slot that is held a reference of
the call. This distinction is not in the program, where both are just pointers of `p`, and it is
what `Ready` keeps track of. `sole` marks the objects that are freed without a look at the count. -/

/-- The pointers that are the creator's until their stage has run. -/
def Slot.copied : Slot → Bool
  | .taskStruct | .stack => false
  | s => s.inTask

/-- The slots with which the new task shares its creator's object. -/
def inherits (flags : CloneFlags) : Slot → Bool
  -- `CLONE_FILES` and the others
  | .files => flags.files
  | .fs => flags.fs
  | .sighand => flags.sighand
  | .signal => flags.thread
  | .mm => flags.vm
  | _ => false

/-- The slots whose objects have no second reference as long as the call holds them. -/
def sole (flags : CloneFlags) : Slot → Bool
  | .delayed | .taskStruct | .stack | .nproc | .delays | .perf | .audit | .security => true
  | .sighand => !flags.sighand
  | .signal => !flags.thread
  | .fd | .cgroup => true
  | _ => false

/-- The pointers of a call that holds references for `held`; `dup` says that the task struct has
been copied. -/
structure Ready (flags : CloneFlags) (cur p : Ptrs) (h : Refs) (dup : Bool) (held : List Slot) :
    Prop where
  copied : dup = true → ∀ s, s.copied = true → s ∉ held → p s = cur s
  inherit : ∀ s ∈ held, inherits flags s = true → p s = cur s
  solid : ∀ s ∈ held, s.solid = true → p s ≠ none
  sole : ∀ s ∈ held, sole flags s = true → counted flags s = true →
    ∀ a, p s = some a → h.count (s.obj a) = some 1

/-- Everything a stage can do to its slot. -/
structure Takes (flags : CloneFlags) (cur p : Ptrs) (h : Refs) (s : Slot) (p' : Ptrs) (h' : Refs) :
    Prop where
  off : ∀ t, t ≠ s → p' t = p t
  inherit : inherits flags s = true → p' s = cur s
  solid : s.solid = true → p' s ≠ none
  -- nothing, a reference to the creator's object, or an object of its own
  how : (h' = h ∧ (counted flags s = true → p' s = none)) ∨
    (∃ x, p' s = some x ∧ cur s = some x ∧ sole flags s = false ∧ counted flags s = true ∧
      s ∈ taskSlots ∧ h' = h.inc (s.obj x)) ∨
    ∃ a, p' s = some a ∧ counted flags s = true ∧ h.new (s.obj a) = some h'

section

variable {flags : CloneFlags} {cur p p' : Ptrs} {h h' : Refs} {s t : Slot} {dup : Bool}
  {held : List Slot}

/-- References depend on the held slots only. -/
theorem refs_congr (hp : ∀ s ∈ held, p' s = p s) : refs flags p' held = refs flags p held := by
  unfold refs
  exact List.filterMap_congr fun s hs => by rw [hp s hs]

/-- A slot that is not counted, or null, adds nothing. -/
theorem refs_cons_none (hnone : counted flags s = true → p s = none) :
    refs flags p (s :: held) = refs flags p held := by
  unfold refs
  rw [List.filterMap_cons]
  split
  · rfl
  · next hsome =>
    split at hsome
    · next hc =>
      rw [hnone hc] at hsome
      cases hsome
    · cases hsome

/-- A slot that is counted adds its object. -/
theorem refs_cons_some {a : Nat} (hc : counted flags s = true) (ha : p s = some a) :
    refs flags p (s :: held) = s.obj a :: refs flags p held := by
  unfold refs
  rw [List.filterMap_cons, if_pos hc, ha]
  rfl

/-- A counted slot that is held gives a reference. -/
theorem mem_refs {a : Nat} (hs : s ∈ held) (hc : counted flags s = true) (ha : p s = some a) :
    s.obj a ∈ refs flags p held := by
  unfold refs
  refine List.mem_filterMap.mpr ⟨s, hs, ?_⟩
  rw [if_pos hc, ha]
  rfl

/-- A pointer of a task gives a reference. -/
theorem mem_objects {a : Nat} (hs : s ∈ held) (ha : p s = some a) : s.obj a ∈ objects p held := by
  unfold objects
  refine List.mem_filterMap.mpr ⟨s, hs, ?_⟩
  rw [ha]
  rfl

/-- Objects of different slots are different, but for the two references to a pid. -/
theorem obj_ne {a b : Nat} (hsole : sole flags t = true) (hne : t ≠ s) : t.obj b ≠ s.obj a := by
  intro heq
  have hfst : (t.obj b).1 = (s.obj a).1 := congrArg Prod.fst heq
  cases t <;> first
    | (cases hsole; done)
    | (cases s <;> first | exact hne rfl | cases hfst)

/-- A stage, as a deal of a task that holds `T` besides. -/
theorem Takes.deal (ht : Takes flags cur p h s p' h') (hs : s ∉ held) :
    Deal h (objects cur taskSlots ++ refs flags p held) [] h'
      (objects cur taskSlots ++ refs flags p' (s :: held)) [] := by
  have hsame : refs flags p' held = refs flags p held :=
    refs_congr fun t hmem => ht.off t (by rintro rfl; exact hs hmem)
  rcases ht.how with ⟨rfl, hnone⟩ | ⟨x, hx, hcur, -, hc, hin, rfl⟩ | ⟨a, ha, hc, hnew⟩
  · rw [refs_cons_none hnone, hsame]
    exact .refl _ _ _
  · rw [refs_cons_some hc hx, hsame]
    refine (Deal.inc (List.mem_append_left _ (mem_objects hin hcur))).trans (.perm ?_)
    exact List.perm_middle.symm
  · rw [refs_cons_some hc ha, hsame]
    exact (Deal.new hnew).trans (.perm List.perm_middle.symm)

/-- What the next stage relies on. -/
theorem Takes.ready (ht : Takes flags cur p h s p' h') (hr : Ready flags cur p h dup held)
    (hs : s ∉ held) : Ready flags cur p' h' dup (s :: held) := by
  have hoff : ∀ t ∈ held, p' t = p t := fun t hmem => ht.off t (by rintro rfl; exact hs hmem)
  refine ⟨fun hdup t htc hnot => ?_, fun t hmem hi => ?_, fun t hmem hsolid => ?_,
    fun t hmem hsole hc b hb => ?_⟩
  -- what is not held yet is as before
  · rw [List.mem_cons, not_or] at hnot
    rw [ht.off t hnot.1]
    exact hr.copied hdup t htc hnot.2
  -- an inherited pointer is still the creator's
  · rcases List.mem_cons.mp hmem with rfl | hold
    · exact ht.inherit hi
    · rw [hoff t hold]
      exact hr.inherit t hold hi
  -- a slot that must not be null is not
  · rcases List.mem_cons.mp hmem with rfl | hold
    · exact ht.solid hsolid
    · rw [hoff t hold]
      exact hr.solid t hold hsolid
  -- the slot itself: what is freed later without a look has just been made
  · rcases List.mem_cons.mp hmem with rfl | hold
    · rcases ht.how with ⟨-, hnone⟩ | ⟨x, -, -, hnot, -⟩ | ⟨a, ha, -, hnew⟩
      · rw [hnone hc] at hb
        cases hb
      · rw [hsole] at hnot
        cases hnot
      · rw [ha] at hb
        cases hb
        exact Heap.new_count_self hnew
    -- an older one: the stage made another object or took a reference to another
    · have hne : t ≠ s := by
        rintro rfl
        exact hs hold
      rw [hoff t hold] at hb
      have hone := hr.sole t hold hsole hc b hb
      rcases ht.how with ⟨rfl, -⟩ | ⟨x, -, -, -, -, -, rfl⟩ | ⟨a, -, -, hnew⟩
      · exact hone
      · rw [Heap.inc_count_ne (obj_ne hsole hne), hone]
      · rw [Heap.new_count_ne hnew (obj_ne hsole hne), hone]

/-! ## The stages

One lemma for each callee says which of the three things it has done to its slot. A failure leaves
the heap alone and may leave any pointer in the slot: nobody looks at it any more, because the label
that is jumped to is behind the one for this slot. -/

/-- What comes out of a callee that fills `s`. -/
def Fills (flags : CloneFlags) (cur p : Ptrs) (h : Refs) (s : Slot) (r : Bool × Ptrs × Refs) :
    Prop :=
  r.1 = true ∧ Takes flags cur p h s r.2.1 r.2.2 ∨
    r.1 = false ∧ r.2.2 = h ∧ ∀ t, t ≠ s → r.2.1 t = p t

variable {q : Ptrs} {mem : Option Nat} {ok share : Bool} {r : Bool × Ptrs × Refs}

/-- A slot that is left alone, or set to NULL. -/
theorem fills_nothing (hoff : ∀ t, t ≠ s → q t = p t) (hi : inherits flags s = true → q s = cur s)
    (hsolid : s.solid = true → q s ≠ none) (hnone : counted flags s = true → q s = none) :
    Fills flags cur p h s (true, q, h) := Or.inl ⟨rfl, hoff, hi, hsolid, Or.inl ⟨rfl, hnone⟩⟩

/-- A reference to the creator's object. -/
theorem fills_share {x : Nat} (hoff : ∀ t, t ≠ s → q t = p t) (hx : q s = some x)
    (hcur : cur s = some x) (hsole : sole flags s = false) (hc : counted flags s = true)
    (hin : s ∈ taskSlots) : Fills flags cur p h s (true, q, h.inc (s.obj x)) := by
  refine Or.inl ⟨rfl, hoff, fun _ => hx.trans hcur.symm, fun _ hnull => ?_,
    Or.inr (Or.inl ⟨x, hx, hcur, hsole, hc, hin, rfl⟩)⟩
  exact Option.some_ne_none x (hx.symm.trans hnull)

/-- A failure, with whatever pointer it leaves in the slot. -/
theorem fills_fail (hoff : ∀ t, t ≠ s → q t = p t) : Fills flags cur p h s (false, q, h) :=
  Or.inr ⟨rfl, rfl, hoff⟩

theorem update_off (p : Ptrs) (s : Slot) (v : Option Nat) (t : Slot) (hne : t ≠ s) :
    Function.update p s v t = p t := Function.update_of_ne hne _ _

/-- A callee that makes an object. -/
theorem create_fills (hoff : ∀ t, t ≠ s → q t = p t) (hi : inherits flags s = false)
    (hc : counted flags s = true) (hrun : create s mem q h = some r) :
    Fills flags cur p h s r := by
  cases mem with
  | none =>
    cases hrun
    exact fills_fail hoff
  | some a =>
    obtain ⟨h', hnew, rfl⟩ := Option.map_eq_some_iff.mp hrun
    have hself : Function.update q s (some a) s = some a := Function.update_self ..
    refine Or.inl ⟨rfl, fun t hne => ?_, fun hin => ?_, fun _ hnull => ?_,
      Or.inr (Or.inr ⟨a, hself, hc, hnew⟩)⟩
    · exact (update_off q s _ t hne).trans (hoff t hne)
    · rw [hi] at hin
      cases hin
    · exact Option.some_ne_none a (hself.symm.trans hnull)

/-- A callee that is not left without memory does not fail. -/
theorem create_sure (hi : inherits flags s = false) (hc : counted flags s = true)
    (hrun : (if mem = none then none else create s mem p h) = some r) :
    Fills flags cur p h s r ∧ r.1 = true := by
  split at hrun
  · cases hrun
  · next hmem =>
    refine ⟨create_fills (fun _ _ => rfl) hi hc hrun, ?_⟩
    obtain ⟨a, rfl⟩ := Option.ne_none_iff_exists'.mp hmem
    obtain ⟨h', -, rfl⟩ := Option.map_eq_some_iff.mp hrun
    rfl

/-- A callee that may do without an object. -/
theorem createOpt_fills (hi : inherits flags s = false) (hc : counted flags s = true)
    (hsolid : s.solid = false) (hrun : createOpt s mem p h = some r) : Fills flags cur p h s r := by
  cases mem with
  | none =>
    cases hrun
    refine fills_nothing (update_off p s none) (fun hin => ?_) (fun hin => ?_) fun _ => ?_
    · rw [hi] at hin
      cases hin
    · rw [hsolid] at hin
      cases hin
    · exact Function.update_self ..
  | some a =>
    have hcreate : create s (some a) p h = some r := hrun
    exact create_fills (fun _ _ => rfl) hi hc hcreate

/-- `copy_creds` and `copy_namespaces`: a reference to what the copied pointer points to. -/
theorem getRef_fills (hp : p s = cur s) (hcur : cur s ≠ none) (hsole : sole flags s = false)
    (hc : counted flags s = true) (hin : s ∈ taskSlots) :
    Fills flags cur p h s (true, p, getRef s p h) := by
  obtain ⟨x, hx⟩ := Option.ne_none_iff_exists'.mp hcur
  unfold getRef
  rw [hp, hx]
  exact fills_share (fun _ _ => rfl) (hp.trans hx) hx hsole hc hin

/-- Threads may share their credentials; others copy them. -/
theorem copyCreds_fills (hp : p .cred = cur .cred) (hcur : cur .cred ≠ none)
    (hrun : copyCreds share mem p h = some r) : Fills flags cur p h .cred r := by
  unfold copyCreds at hrun
  split at hrun
  · cases hrun
    exact getRef_fills hp hcur rfl rfl (by decide)
  · exact create_fills (fun _ _ => rfl) rfl rfl hrun

theorem mpolDup_fills (hrun : mpolDup mem p h = some r) : Fills flags cur p h .mempolicy r := by
  unfold mpolDup at hrun
  split at hrun
  · next hnull =>
    cases hrun
    exact fills_nothing (fun _ _ => rfl) (by rintro ⟨⟩) (by rintro ⟨⟩) fun _ => hnull
  · exact create_fills (update_off p _ _) rfl rfl hrun

/-- `copy_files`: shared, copied, or none for a task without files. -/
theorem copyFiles_fills (hp : p .files = cur .files)
    (hrun : copyFiles flags mem cur p h = some r) : Fills flags cur p h .files r := by
  unfold copyFiles at hrun
  split at hrun
  · next hnull =>
    cases hrun
    exact fills_nothing (fun _ _ => rfl) (fun _ => hp) (by rintro ⟨⟩) fun _ => hp.trans hnull
  · next oldf hold =>
    split at hrun
    · cases hrun
      exact fills_share (fun _ _ => rfl) (hp.trans hold) hold rfl rfl (by decide)
    · next hflag => exact create_fills (fun _ _ => rfl) (Bool.not_eq_true _ ▸ hflag) rfl hrun

/-- `copy_fs`: shared, if `in_exec` allows it, or copied. -/
theorem copyFs_fills (hp : p .fs = cur .fs) (hcur : cur .fs ≠ none)
    (hrun : copyFs flags ok mem cur p h = some r) : Fills flags cur p h .fs r := by
  unfold copyFs at hrun
  split at hrun
  · next hnull => exact absurd hnull hcur
  · next fs hfs =>
    split at hrun
    · split at hrun
      · cases hrun
        exact fills_share (fun _ _ => rfl) (hp.trans hfs) hfs rfl rfl (by decide)
      · cases hrun
        exact fills_fail fun _ _ => rfl
    · next hflag => exact create_fills (update_off p _ _) (Bool.not_eq_true _ ▸ hflag) rfl hrun

/-- `copy_sighand`: shared or copied. -/
theorem copySighand_fills (hp : p .sighand = cur .sighand) (hcur : cur .sighand ≠ none)
    (hrun : copySighand flags mem cur p h = some r) : Fills flags cur p h .sighand r := by
  unfold copySighand at hrun
  split at hrun
  · next hflag =>
    split at hrun
    · next hnull => exact absurd hnull hcur
    · next sighand hsighand =>
      cases hrun
      refine fills_share (fun _ _ => rfl) (hp.trans hsighand) hsighand ?_ rfl (by decide)
      show (!flags.sighand) = false
      rw [hflag]
      rfl
  · next hflag => exact create_fills (update_off p _ _) (Bool.not_eq_true _ ▸ hflag) rfl hrun

/-- A thread has its group's signal struct, and no reference to it yet. -/
theorem copySignal_fills (hp : p .signal = cur .signal) (hcur : cur .signal ≠ none)
    (hrun : copySignal flags mem p h = some r) : Fills flags cur p h .signal r := by
  -- for a thread nothing is taken here: it is counted in its group at the end
  unfold copySignal at hrun
  split at hrun
  · next hflag =>
    cases hrun
    refine fills_nothing (fun _ _ => rfl) (fun _ => hp) (fun _ => hp ▸ hcur) fun hc => ?_
    change (!flags.thread) = true at hc
    rw [hflag] at hc
    cases hc
  · next hflag =>
    refine create_fills (update_off p _ _) (Bool.not_eq_true _ ▸ hflag) ?_ hrun
    show (!flags.thread) = true
    rw [Bool.not_eq_true] at hflag
    rw [hflag]
    rfl

/-- `copy_mm`: none, shared or copied. -/
theorem copyMm_fills (hrun : copyMm flags mem cur p h = some r) : Fills flags cur p h .mm r := by
  unfold copyMm at hrun
  simp only at hrun
  -- `tsk->mm = NULL` first, and then one of three
  split at hrun
  -- a kernel thread has no address space
  · next hnull =>
    cases hrun
    refine fills_nothing (update_off p _ _) (fun _ => ?_) (by rintro ⟨⟩) fun _ => ?_
    · rw [Function.update_self, hnull]
    · exact Function.update_self ..
  · next oldmm hold =>
    split at hrun
    · cases hrun
      refine fills_share (fun t hne => ?_) (Function.update_self ..) hold rfl rfl (by decide)
      rw [update_off _ _ _ t hne, update_off _ _ _ t hne]
    · next hflag => exact create_fills (update_off p _ _) (Bool.not_eq_true _ ▸ hflag) rfl hrun

theorem copyNamespaces_fills (hp : p .nsproxy = cur .nsproxy) (hcur : cur .nsproxy ≠ none)
    (hrun : copyNamespaces share mem p h = some r) : Fills flags cur p h .nsproxy r := by
  unfold copyNamespaces at hrun
  split at hrun
  · cases hrun
    exact getRef_fills hp hcur rfl rfl (by decide)
  · exact create_fills (fun _ _ => rfl) rfl rfl hrun

/-- `copy_io`: none, shared or copied. -/
theorem copyIo_fills (hrun : copyIo flags ok mem cur p h = some r) :
    Fills flags cur p h .ioContext r := by
  -- no io context, or one whose priority is not valid: the slot stays null
  have hnothing : Fills flags cur p h .ioContext (true, Function.update p .ioContext none, h) :=
    fills_nothing (update_off p _ _) (by rintro ⟨⟩) (by rintro ⟨⟩) fun _ =>
      Function.update_self ..
  unfold copyIo at hrun
  simp only at hrun
  split at hrun
  -- the creator has none
  · cases hrun
    exact hnothing
  · next ioc hioc =>
    split at hrun
    -- `CLONE_IO`
    · cases hrun
      refine fills_share (fun t hne => ?_) (Function.update_self ..) hioc rfl rfl (by decide)
      rw [update_off _ _ _ t hne, update_off _ _ _ t hne]
    -- a copy, if the priority is valid
    · split at hrun
      · exact create_fills (update_off p _ _) rfl rfl hrun
      · cases hrun
        exact hnothing

theorem copyThread_fills (hrun : copyThread ok cur p h = some r) :
    Fills flags cur p h .thread r := by
  unfold copyThread at hrun
  simp only at hrun
  split at hrun
  · split at hrun
    · cases hrun
      exact fills_nothing (update_off p _ _) (by rintro ⟨⟩) (by rintro ⟨⟩) fun _ =>
        Function.update_self ..
    · next bitmap hbitmap =>
      cases hrun
      refine fills_share (fun t hne => ?_) (Function.update_self ..) hbitmap rfl rfl (by decide)
      rw [update_off _ _ _ t hne, update_off _ _ _ t hne]
  · cases hrun
    exact fills_fail (update_off p _ _)

variable {I : Type*} {e : Env I} {initPid : Bool} {st : Stage}

/-- Every stage with a slot fills it. -/
theorem Stage.run_fills (hs : st.slot = some s) (hr : Ready flags cur p h st.dup st.held)
    (hcur : ∀ t : Slot, t.solid = true → cur t ≠ none)
    (hstart : st = .hlistAddHead → p .delayed = none)
    (hrun : st.run e flags initPid cur p h = some r) :
    Fills flags cur p h s r ∧ (r.1 = false → st.sure = false) := by
  -- where the creator's pointer is looked at, the task has been copied and the slot not been filled
  have hcopied : st.dup = true → s.copied = true → p s = cur s := fun hdup hc =>
    hr.copied hdup s hc (Stage.slot_notMem hs)
  cases st <;> cases hs
  case hlistAddHead =>
    -- a thread does not take part in the list of delayed signals
    simp only [Stage.run] at hrun
    split at hrun
    · cases hrun
      exact ⟨fills_nothing (fun _ _ => rfl) (by rintro ⟨⟩) (by rintro ⟨⟩) fun _ => hstart rfl,
        by rintro ⟨⟩⟩
    · obtain ⟨hfills, hok⟩ := create_sure rfl rfl hrun
      exact ⟨hfills, fun hfail => absurd hok (by rw [hfail]; decide)⟩
  case incRlimitUcounts =>
    obtain ⟨hfills, hok⟩ := create_sure rfl rfl hrun
    exact ⟨hfills, fun hfail => absurd hok (by rw [hfail]; decide)⟩
  all_goals refine ⟨?_, fun _ => rfl⟩
  -- stages that make an object or fail
  case allocTaskStruct => exact create_fills (fun _ _ => rfl) rfl rfl hrun
  case allocThreadStack => exact create_fills (fun _ _ => rfl) rfl rfl hrun
  -- stages that look at the creator's pointer
  case copyCreds => exact copyCreds_fills (hcopied rfl rfl) (hcur _ rfl) hrun
  case delayacctTskInit => exact createOpt_fills rfl rfl rfl hrun
  case mpolDup => exact mpolDup_fills hrun
  case perfEventInitTask | auditAlloc =>
    simp only [Stage.run] at hrun
    split at hrun
    · exact createOpt_fills rfl rfl rfl hrun
    · cases hrun
      exact fills_fail fun _ _ => rfl
  case securityTaskAlloc => exact create_fills (fun _ _ => rfl) rfl rfl hrun
  case copyFiles => exact copyFiles_fills (hcopied rfl rfl) hrun
  case copyFs => exact copyFs_fills (hcopied rfl rfl) (hcur _ rfl) hrun
  case copySighand => exact copySighand_fills (hcopied rfl rfl) (hcur _ rfl) hrun
  case copySignal => exact copySignal_fills (hcopied rfl rfl) (hcur _ rfl) hrun
  case copyMm => exact copyMm_fills hrun
  case copyNamespaces => exact copyNamespaces_fills (hcopied rfl rfl) (hcur _ rfl) hrun
  case copyIo => exact copyIo_fills hrun
  case copyThread => exact copyThread_fills hrun
  case allocPid =>
    -- the idle task has the pid it is given
    simp only [Stage.run] at hrun
    split at hrun
    · cases hrun
      exact fills_nothing (update_off p _ _) (by rintro ⟨⟩) (by rintro ⟨⟩) fun _ =>
        Function.update_self ..
    · exact create_fills (fun _ _ => rfl) rfl rfl hrun
  case getUnusedFdFlags =>
    -- without `CLONE_PIDFD` there is no descriptor, and it does not count
    simp only [Stage.run] at hrun
    split at hrun
    · next hflag => exact create_fills (fun _ _ => rfl) rfl hflag hrun
    · next hflag =>
      cases hrun
      exact fills_nothing (fun _ _ => rfl) (by rintro ⟨⟩) (by rintro ⟨⟩) fun hc => absurd hc hflag
  case cgroupCanFork => exact create_fills (fun _ _ => rfl) rfl rfl hrun

/-- The other stages change no count and none of the pointers the call answers for. -/
theorem Stage.run_slotless (hplain : st.plain = true) (hs : st.slot = none)
    (hrun : st.run e flags initPid cur p h = some r) :
    r.2.2 = h ∧ (∀ t ∈ st.held, r.2.1 t = p t) ∧
      (st.next.dup = true → (∀ t : Slot, t.copied = true → t ∉ st.held → r.2.1 t = cur t) ∨
        st.dup = true ∧ r.2.1 = p) := by
  -- `arch_dup_task_struct` is the one that makes the pointers the creator's
  cases st <;> first | (cases hplain; done) | (cases hs; done) | skip
  case archDupTaskStruct =>
    cases hrun
    refine ⟨rfl, fun t ht => ?_, fun _ => Or.inl fun t ht _ => ?_⟩
    -- what was there before `arch_dup_task_struct` is kept
    · have hmem : t ∈ [Slot.stack, .taskStruct, .delayed] := ht
      simp only [List.mem_cons, List.not_mem_nil, or_false] at hmem
      rcases hmem with rfl | rfl | rfl <;> rfl
    · cases t <;> first | rfl | cases ht
  case putUser =>
    -- `put_user` writes to user space only
    cases hrun
    exact ⟨rfl, fun _ _ => rfl, fun _ => Or.inr ⟨rfl, rfl⟩⟩
  all_goals
    cases hrun
    refine ⟨rfl, fun _ _ => rfl, fun hdup => ?_⟩
    first | (cases hdup; done) | exact Or.inr ⟨rfl, rfl⟩

/-- The call goes on with `p'` and `h'`, and holds references for `held'`. -/
structure Goes (flags : CloneFlags) (cur p : Ptrs) (h : Refs) (held : List Slot) (p' : Ptrs)
    (h' : Refs) (dup : Bool) (held' : List Slot) : Prop where
  deal : Deal h (objects cur taskSlots ++ refs flags p held) [] h'
    (objects cur taskSlots ++ refs flags p' held') []
  ready : Ready flags cur p' h' dup held'

theorem Ready.congr (hr : Ready flags cur p h dup held) (hp : ∀ t ∈ held, p' t = p t)
    {dup' : Bool} (hcopied : dup' = true → ∀ t : Slot, t.copied = true → t ∉ held → p' t = cur t) :
    Ready flags cur p' h dup' held := by
  refine ⟨hcopied, fun t ht hi => ?_, fun t ht hsolid => ?_, fun t ht hsole hc a ha => ?_⟩
  · rw [hp t ht]
    exact hr.inherit t ht hi
  · rw [hp t ht]
    exact hr.solid t ht hsolid
  · rw [hp t ht] at ha
    exact hr.sole t ht hsole hc a ha

/-- At the labels less and less is held. -/
theorem Ready.sub {held' : List Slot} (hr : Ready flags cur p h dup held)
    (hsub : ∀ t ∈ held', t ∈ held) : Ready flags cur p h false held' :=
  ⟨by rintro ⟨⟩, fun t ht => hr.inherit t (hsub t ht), fun t ht => hr.solid t (hsub t ht),
    fun t ht => hr.sole t (hsub t ht)⟩

/-- Nothing the call answers for has changed. -/
theorem Goes.same (hr : Ready flags cur p h dup held) (hp : ∀ t ∈ held, p' t = p t) {dup' : Bool}
    (hcopied : dup' = true → ∀ t : Slot, t.copied = true → t ∉ held → p' t = cur t) :
    Goes flags cur p h held p' h dup' held := by
  refine ⟨?_, hr.congr hp hcopied⟩
  rw [refs_congr hp]
  exact .refl _ _ _

/-- The task struct is copied by a stage without a slot. -/
theorem Stage.dup_next (hplain : st.plain = true) (hs : st.slot = some s)
    (hdup : st.next.dup = true) : st.dup = true := by
  cases st <;> first | rfl | (cases hdup; done) | cases hs

/-- **One stage.** It ends with references for the slots of the next stage, or of the label it jumps
to. -/
theorem Stage.goes (hplain : st.plain = true) (hr : Ready flags cur p h st.dup st.held)
    (hcur : ∀ t : Slot, t.solid = true → cur t ≠ none)
    (hstart : st = .hlistAddHead → p .delayed = none)
    (hrun : st.run e flags initPid cur p h = some r) :
    Goes flags cur p h st.held r.2.1 r.2.2
      (if r.1 then CopyPc.stage st.next else .label st.fail).dup
      (if r.1 then CopyPc.stage st.next else .label st.fail).held := by
  cases hs : st.slot with
  -- a check, or a callee that takes nothing
  | none =>
    obtain ⟨hheap, hp, hdup⟩ := Stage.run_slotless hplain hs hrun
    have hnext := Stage.held_next hplain
    rw [hs] at hnext
    rw [hheap]
    cases hok : r.1 with
    | true =>
      show Goes flags cur p h st.held r.2.1 h st.next.dup st.next.held
      rw [hnext]
      refine .same hr hp fun hd t htc hnot => ?_
      rcases hdup hd with hcopy | ⟨hbefore, hsame⟩
      · exact hcopy t htc hnot
      · rw [hsame]
        exact hr.copied hbefore t htc hnot
    | false =>
      have hsure : st.sure = false := by
        cases st <;> first | rfl | cases hs
      show Goes flags cur p h st.held r.2.1 h false st.fail.held
      rw [Stage.held_fail hplain hsure]
      exact .same hr hp (by rintro ⟨⟩)
  | some s =>
    -- a stage with a slot, which succeeds and holds it or fails and does not
    obtain ⟨hfills, hsure⟩ := Stage.run_fills hs hr hcur hstart hrun
    have hnot := Stage.slot_notMem hs
    have hnext := Stage.held_next hplain
    rw [hs] at hnext
    rcases hfills with ⟨hok, ht⟩ | ⟨hok, hheap, hoff⟩
    · rw [hok]
      show Goes flags cur p h st.held r.2.1 r.2.2 st.next.dup st.next.held
      rw [hnext]
      refine ⟨ht.deal hnot, ht.ready (hr.congr (fun _ _ => rfl) fun hd => ?_) hnot⟩
      exact hr.copied (Stage.dup_next hplain hs hd)
    · rw [hok, hheap]
      show Goes flags cur p h st.held r.2.1 h false st.fail.held
      rw [Stage.held_fail hplain (hsure hok)]
      exact .same hr (fun t ht => hoff t (by rintro rfl; exact hnot ht)) (by rintro ⟨⟩)

/-- One after the other. -/
theorem Goes.trans {p'' : Ptrs} {h'' : Refs} {held' held'' : List Slot} {dup' : Bool}
    (hg : Goes flags cur p h held p' h' dup held')
    (hg' : Goes flags cur p' h' held' p'' h'' dup' held'') :
    Goes flags cur p h held p'' h'' dup' held'' := ⟨hg.deal.trans hg'.deal, hg'.ready⟩

/-! ## The labels

Going down the labels the held slots become fewer, by one each time but for the pidfd, where one
label gives back three. That freeing without a look is right follows from `Ready.sole`, and that
`sighand` and `signal` are not null from `Ready.solid`. -/

/-- A reference less, whose object was given back and not another. -/
theorem Ready.tail (hr : Ready flags cur p h dup (s :: held))
    (hcount : ∀ y, (∀ a, y ≠ s.obj a) → h'.count y = h.count y) (hs : s ∉ held) :
    Ready flags cur p h' false held := by
  refine ⟨by rintro ⟨⟩, fun t ht => hr.inherit t (List.mem_cons_of_mem s ht),
    fun t ht => hr.solid t (List.mem_cons_of_mem s ht), fun t ht hsole hc a ha => ?_⟩
  rw [hcount]
  · exact hr.sole t (List.mem_cons_of_mem s ht) hsole hc a ha
  · exact fun b => obj_ne hsole (by rintro rfl; exact hs ht)

/-- A label that has nothing to give back. -/
theorem goes_skip (hr : Ready flags cur p h dup (s :: held)) (hs : s ∉ held)
    (hnone : counted flags s = true → p s = none) :
    Goes flags cur p h (s :: held) p h false held := by
  refine ⟨?_, hr.tail (fun _ _ => rfl) hs⟩
  rw [refs_cons_none hnone]
  exact .refl _ _ _

/-- A label that puts a reference. -/
theorem goes_put {x : Nat} (hr : Ready flags cur p h dup (s :: held)) (hs : s ∉ held)
    (hc : counted flags s = true) (hx : p s = some x) :
    Goes flags cur p h (s :: held) p (h.put (s.obj x)) false held := by
  refine ⟨?_, hr.tail (fun y hne => Heap.put_count_ne (hne x)) hs⟩
  rw [refs_cons_some hc hx]
  exact (Deal.perm List.perm_middle).trans .put

/-- A label that frees an object without a look at its count. -/
theorem goes_free {x : Nat} (hr : Ready flags cur p h dup (s :: held)) (hs : s ∉ held)
    (hc : counted flags s = true) (hsole : sole flags s = true) (hx : p s = some x) :
    Goes flags cur p h (s :: held) p (h.free (s.obj x)) false held := by
  refine ⟨?_, hr.tail (fun y hne => Heap.free_count_ne (hne x)) hs⟩
  rw [refs_cons_some hc hx]
  exact (Deal.perm List.perm_middle).trans (.free (hr.sole s List.mem_cons_self hsole hc x hx))

/-- A label that looks whether there is something to put. -/
theorem goes_putSlot (hr : Ready flags cur p h dup (s :: held)) (hs : s ∉ held)
    (hc : counted flags s = true) :
    Goes flags cur p h (s :: held) p (putSlot s p h) false held := by
  unfold putSlot
  cases hx : p s with
  | none => exact goes_skip hr hs fun _ => hx
  | some x => exact goes_put hr hs hc hx

/-- The same for freeing. -/
theorem goes_freeSlot (hr : Ready flags cur p h dup (s :: held)) (hs : s ∉ held)
    (hc : counted flags s = true) (hsole : sole flags s = true) :
    Goes flags cur p h (s :: held) p (freeSlot s p h) false held := by
  unfold freeSlot
  cases hx : p s with
  | none => exact goes_skip hr hs fun _ => hx
  | some x => exact goes_free hr hs hc hsole hx

/-- The slots the next label does not have to look after; `fork_out` is the last. -/
def Label.after : Label → List Slot
  | .forkOut => []
  | l => l.next.held

/-- **One label.** What it does not give back is left for the next. -/
theorem Label.goes {l : Label} (hr : Ready flags cur p h dup l.held) :
    Goes flags cur p h l.held p (l.drop flags p h) false l.after := by
  cases l
  case badForkCancelCgroup => exact goes_freeSlot hr (by decide) rfl rfl
  case badForkPutPidfd =>
    simp only [Label.drop]
    split
    -- the file, the pid behind it and the descriptor, in this order
    · next hflag =>
      have hfile := goes_putSlot hr (by decide) hflag
      have hpid := hfile.trans (goes_putSlot hfile.ready (by decide) hflag)
      exact hpid.trans (goes_freeSlot hpid.ready (by decide) hflag rfl)
    · next hflag =>
      have hfile := goes_skip hr (by decide) fun hc => absurd hc hflag
      have hpid := hfile.trans (goes_skip hfile.ready (by decide) fun hc => absurd hc hflag)
      exact hpid.trans (goes_skip hpid.ready (by decide) fun hc => absurd hc hflag)
  -- `free_signal_struct`: a process owns the only reference
  case badForkCleanupSignal =>
    simp only [Label.drop]
    split
    · next hflag =>
      -- a thread: the group has the struct, and no reference was taken
      refine goes_skip hr (by decide) fun hc => ?_
      change (!flags.thread) = true at hc
      rw [hflag] at hc
      cases hc
    · next hflag =>
      have hown : (!flags.thread) = true := by
        rw [Bool.not_eq_true] at hflag
        rw [hflag]
        rfl
      split
      · next hnull => exact absurd hnull (hr.solid .signal List.mem_cons_self rfl)
      · next signal hsignal => exact goes_free hr (by decide) hown hown hsignal
  case badForkCleanupSighand =>
    -- `__cleanup_sighand` dereferences the pointer
    simp only [Label.drop]
    split
    · next hnull => exact absurd hnull (hr.solid .sighand List.mem_cons_self rfl)
    · next sighand hsighand => exact goes_put hr (by decide) rfl hsighand
  case badForkCleanupSemundo => exact .same hr (fun _ _ => rfl) (by rintro ⟨⟩)
  case badForkCleanupCount =>
    -- the count of processes, then the credentials
    have hnproc := goes_freeSlot hr (by decide) rfl rfl
    exact hnproc.trans (goes_putSlot hnproc.ready (by decide) rfl)
  case badForkFree =>
    -- the stack, then the task struct
    have hstack := goes_putSlot hr (by decide) rfl
    exact hstack.trans (goes_freeSlot hstack.ready (by decide) rfl rfl)
  case badForkCleanupSecurity | badForkCleanupAudit | badForkCleanupPerf
    | badForkCleanupThreadgroupLock | freeStack | freeTsk | forkOut =>
    exact goes_freeSlot hr (by decide) rfl rfl
  all_goals exact goes_putSlot hr (by decide) rfl

/-- A slot whose object nobody relies on. -/
theorem Ready.cons (hr : Ready flags cur p h dup held) (hi : inherits flags s = false)
    (hsolid : s.solid = false) (hsole : Fork.sole flags s = false) :
    Ready flags cur p h dup (s :: held) := by
  refine ⟨fun hdup t htc hnot => hr.copied hdup t htc fun ht => hnot (List.mem_cons_of_mem s ht),
    fun t ht => ?_, fun t ht => ?_, fun t ht => ?_⟩ <;>
    rcases List.mem_cons.mp ht with rfl | hold
  · rw [hi]
    rintro ⟨⟩
  · exact hr.inherit t hold
  · rw [hsolid]
    rintro ⟨⟩
  · exact hr.solid t hold
  · rw [hsole]
    rintro ⟨⟩
  · exact hr.sole t hold

/-- The call's variables once there is a file, with the pid it refers to. -/
def withPidfile (p : Ptrs) (a : Nat) (pid : Option Nat) : Ptrs :=
  Function.update (Function.update p .pidfile (some a)) .pidRef pid

/-- The other variables are as before. -/
theorem withPidfile_off {a : Nat} {pid : Option Nat} (href : t ≠ .pidRef) (hfile : t ≠ .pidfile) :
    withPidfile p a pid t = p t := by
  unfold withPidfile
  rw [update_off _ _ _ t href, update_off _ _ _ t hfile]

theorem withPidfile_held {a : Nat} {pid : Option Nat} :
    ∀ t ∈ Slot.fd :: taken 0, withPidfile p a pid t = p t := by
  intro t ht
  refine withPidfile_off ?_ ?_ <;>
  · rintro rfl
    revert ht
    decide

/-- What the next stages rely on. -/
theorem withPidfile_ready {a : Nat} {pid : Option Nat}
    (hr : Ready flags cur p h true (.fd :: taken 0))
    (hcount : ∀ t b, sole flags t = true → h'.count (t.obj b) = h.count (t.obj b)) :
    Ready flags cur (withPidfile p a pid) h' true (.pidfile :: .pidRef :: .fd :: taken 0) := by
  refine Ready.cons (Ready.cons ?_ rfl rfl rfl) rfl rfl rfl
  have hsame : Ready flags cur (withPidfile p a pid) h true (.fd :: taken 0) := by
    refine hr.congr withPidfile_held fun _ t htc hnot => ?_
    rw [withPidfile_off (by rintro rfl; cases htc) (by rintro rfl; cases htc)]
    exact hr.copied rfl t htc hnot
  refine ⟨hsame.copied, hsame.inherit, hsame.solid, fun t ht hsole hc b hb => ?_⟩
  rw [hcount t b hsole]
  exact hsame.sole t ht hsole hc b hb

/-- An object that is freed without a look is in a slot of its own. -/
theorem not_sole_ne (hsole : sole flags t = true) (hs : sole flags s = false) : t ≠ s := by
  rintro rfl
  rw [hsole] at hs
  cases hs

/-- The stage that fills two slots, or puts the descriptor of the stage before. -/
theorem anonInodeGetfile_goes (hflag : flags.pidfd = true)
    (hr : Ready flags cur p h true (.fd :: taken 0)) (hrun : anonInodeGetfile mem p h = some r) :
    Goes flags cur p h (.fd :: taken 0) r.2.1 r.2.2 r.1
      (if r.1 then .pidfile :: .pidRef :: .fd :: taken 0 else taken 0) := by
  cases mem with
  -- no file: the descriptor is put here and not at a label
  | none =>
    simp only [anonInodeGetfile] at hrun
    split at hrun
    · next hnull =>
      -- there is no descriptor either
      cases hrun
      exact goes_skip hr (by decide) fun _ => hnull
    · next fd hfd =>
      cases hrun
      have hfree := goes_free hr (by decide) hflag rfl hfd
      refine hfree.trans (.same hfree.ready (fun t ht => update_off p _ _ t ?_) (by rintro ⟨⟩))
      rintro rfl
      revert ht
      decide
  | some a =>
    -- a file: it refers to the pid from now on
    obtain ⟨h₁, hnew, heq⟩ := Option.map_eq_some_iff.mp hrun
    have hfile : Deal h (objects cur taskSlots ++ refs flags p (.fd :: taken 0)) [] h₁
        (Slot.pidfile.obj a :: (objects cur taskSlots ++ refs flags p (.fd :: taken 0))) [] :=
      .new hnew
    -- what is freed without a look is something else
    have hcount : ∀ t b, sole flags t = true → h₁.count (t.obj b) = h.count (t.obj b) :=
      fun t b hsole => Heap.new_count_ne hnew (obj_ne hsole (not_sole_ne hsole rfl))
    have hslot : ∀ pid, withPidfile p a pid .pidfile = some a := fun _ => rfl
    have hfileCounted : counted flags .pidfile = true := hflag
    have hrefCounted : counted flags .pidRef = true := hflag
    simp only at heq
    split at heq
    · next hnull =>
      -- no pid: the file refers to none
      cases heq
      refine ⟨?_, withPidfile_ready hr hcount⟩
      show Deal h _ [] h₁ (objects cur taskSlots ++ refs flags (withPidfile p a none)
        (.pidfile :: .pidRef :: .fd :: taken 0)) []
      have href : counted flags .pidRef = true → withPidfile p a none .pidRef = none :=
        fun _ => rfl
      rw [refs_cons_some hfileCounted (hslot none), refs_cons_none href,
        refs_congr withPidfile_held]
      exact hfile.trans (.perm List.perm_middle.symm)
    · next pid hpid =>
      cases heq
      refine ⟨?_, withPidfile_ready hr fun t b hsole => ?_⟩
      · show Deal h _ [] (h₁.inc (Slot.pidRef.obj pid)) (objects cur taskSlots ++
          refs flags (withPidfile p a (some pid)) (.pidfile :: .pidRef :: .fd :: taken 0)) []
        have href : withPidfile p a (some pid) .pidRef = some pid := rfl
        rw [refs_cons_some hfileCounted (hslot _), refs_cons_some hrefCounted href,
          refs_congr withPidfile_held]
        -- the pid is the call's own
        have hmem : Slot.pid.obj pid ∈ refs flags p (.fd :: taken 0) :=
          mem_refs (by decide) rfl hpid
        refine hfile.trans ((Deal.inc (x := Slot.pidRef.obj pid) ?_).trans (.perm ?_))
        · exact List.mem_cons_of_mem _ (List.mem_append_right _ hmem)
        · exact (List.Perm.swap _ _ _).trans ((List.perm_middle.symm.cons _).trans
            List.perm_middle.symm)
      · rw [Heap.inc_count_ne (obj_ne hsole (not_sole_ne hsole rfl))]
        exact hcount t b hsole

end

end OsHomework.Fork
