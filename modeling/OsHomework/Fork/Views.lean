import OsHomework.Fairness.Machine
import OsHomework.Fork.References
import OsHomework.KvStore.Ledger

/-!
# Fork — the other models of `copy_process`

`copy_process` is modelled in three places: with all its stages and reference counts here, with the
fields of `configure_socket_fairness` and the point at which the task becomes known to others, and
with the arrays of the key-value store and what becomes of them. Each of the two others is a view of
the one here: the stages in between do nothing it knows of, and a failure is one of its ends.

* **`Milestone`** — what the others see of a `copy_process` under way.
* **`Turn`** — everything a step can do to tasks, thread groups and milestones;
  `turn_of_step` is the only use of the stages.
* **`Mirrors.turn`**, **`fairness_of_fork`** — each step is at most one step of the model of
  `configure_socket_fairness`, with the same thread groups.
* **`Tracks.turn`**, **`ledger_of_fork`** — each `copy_process` is one step of the ledger: with a
  new task, or an end in front of or behind the store's initialisation. Threads of a group have
  the arrays in common.
-/

namespace OsHomework.Fork

open Lts

/-! ## Milestones

`dup_task_struct` has copied the creator's fields, the three fields of the socket limits are reset,
`alloc_lock` is initialised, `copy_signal` has run, and the two pointers of the store are set. The
last comes after the pidfd has been handed to user space. -/

/-- What `copy_process` has done last with the new task, of what matters elsewhere. -/
inductive Milestone where
  | dupTaskStruct
  | resetFields
  | spinLockInit
  | copySignal
  | initTaskKvStore
  deriving DecidableEq

/-- The order of the milestones. -/
def Milestone.next : Milestone → Option Milestone
  | .dupTaskStruct => some .resetFields
  | .resetFields => some .spinLockInit
  | .spinLockInit => some .copySignal
  | .copySignal => some .initTaskKvStore
  | .initTaskKvStore => none

/-- What has been done in front of a stage; there is no task yet, or it is somebody's no longer, in
front of the first stages, behind the locked section and at the labels. -/
def CopyPc.done : CopyPc → Option Milestone
  | .stage st =>
    match st with
    -- there is no copy of the task yet
    | .hlistAddHead | .taskSigpending | .allocTaskStruct | .allocThreadStack
    | .memcgChargeKernelStack | .archDupTaskStruct => none
    | .scsPrepare => some .dupTaskStruct
    | .copyCreds | .incRlimitUcounts | .isUcountsOverlimit | .maxThreads | .delayacctTskInit =>
      some .resetFields
    | .mpolDup | .schedFork | .perfEventInitTask | .auditAlloc | .securityTaskAlloc
    | .copySemundo | .copyFiles | .copyFs | .copySighand | .copySignal => some .spinLockInit
    | .copyMm | .copyNamespaces | .copyIo | .copyThread | .allocPid | .getUnusedFdFlags
    | .anonInodeGetfile | .putUser => some .copySignal
    | .cgroupCanFork | .writeLockIrq | .pidnsAdding | .fatalSignalPending | .attachPid =>
      some .initTaskKvStore
    -- the task is attached, and its creator has nothing to do with it
    | .fdInstall | .cgroupPostFork => none
  | .label _ => none

/-- A stage that succeeds leaves the milestone as it is or goes on to the next one. -/
theorem done_next {st : Stage} (hst : st ≠ .attachPid) :
    CopyPc.done (.stage st.next) = CopyPc.done (.stage st) ∨
      (CopyPc.done (.stage st) = none ∧
        CopyPc.done (.stage st.next) = some .dupTaskStruct) ∨
      ∃ m m', CopyPc.done (.stage st) = some m ∧ m.next = some m' ∧
        CopyPc.done (.stage st.next) = some m' := by
  cases st <;>
    first
    | exact absurd rfl hst
    | exact Or.inl rfl
    | exact Or.inr (Or.inl ⟨rfl, rfl⟩)
    | exact Or.inr (Or.inr ⟨_, _, rfl, rfl, rfl⟩)

/-- The milestone of a call, with whether it makes a thread. -/
def Call.making : Call → Option (Bool × Milestone)
  | .copy c => c.pc.done.map (c.flags.thread, ·)
  | .unshare _ => none

/-- What there is to see: the signal struct of every task and the milestones of the calls. -/
structure View (I : Type*) where
  signal : I → Option (Option Nat)
  making : I → Option (Bool × Milestone)

/-- What the others see of the system. -/
def Sys.view {I : Type*} (s : Sys I) : View I where
  signal := fun i => (s.task i).map (· .signal)
  making := fun i => (s.call i).bind Call.making

/-! ## What a step shows

Of a step of the system the two other models need only this: a task went, a task under way passed a
milestone or was given up, or it became a task among the others. In the last case the signal struct
of the new task is its creator's, for a thread, or belongs to nobody else. That is where the
reference counts come in: a struct that two tasks had by accident would make them a group. -/

section

variable {I : Type*} [DecidableEq I]

/-- Everything a step can do to what is seen. -/
inductive Turn (v : View I) : View I → Prop where
  | stay : Turn v v
  | exit (i : I) (hidle : v.making i = none) :
      Turn v ⟨Function.update v.signal i none, v.making⟩
  | dup (i : I) (thread : Bool) (hi : v.signal i ≠ none) (hidle : v.making i = none) :
      Turn v ⟨v.signal, Function.update v.making i (some (thread, .dupTaskStruct))⟩
  | next (i : I) (thread : Bool) (m m' : Milestone) (hmaking : v.making i = some (thread, m))
      (hnext : m.next = some m') :
      Turn v ⟨v.signal, Function.update v.making i (some (thread, m'))⟩
  | giveUp (i : I) (thread : Bool) (m : Milestone) (hi : v.signal i ≠ none)
      (hmaking : v.making i = some (thread, m)) :
      Turn v ⟨v.signal, Function.update v.making i none⟩
  | attach (i child : I) (thread : Bool) (signal : Option Nat)
      (hmaking : v.making i = some (thread, .initTaskKvStore)) (hi : v.signal i ≠ none)
      (hchild : v.signal child = none)
      (hthread : thread = true → v.signal i = some signal)
      (hprocess : thread = false → ∀ j, v.signal j ≠ some signal) :
      Turn v ⟨Function.update v.signal child (some signal), Function.update v.making i none⟩

variable {s s' : Sys I} {i : I} {e : Env I} {cur : Ptrs}

/-- A step of a call that leaves all tasks alone, from one milestone to another. -/
theorem Turn.of_done {c : Copy} (c' : Copy) (hcur : s.task i = some cur)
    (hcall : s.call i = some (.copy c)) (htask : s'.task = s.task)
    (hcall' : s'.call = Function.update s.call i (some (.copy c')))
    (hflags : c'.flags = c.flags)
    (hdone : c'.pc.done = c.pc.done ∨ c'.pc.done = none ∨
      (c.pc.done = none ∧ c'.pc.done = some .dupTaskStruct) ∨
      ∃ m m', c.pc.done = some m ∧ m.next = some m' ∧ c'.pc.done = some m') :
    Turn s.view s'.view := by
  -- only the milestone of `i` can have changed
  have hsignal : s.view.signal i ≠ none := by simp [Sys.view, hcur]
  have hmaking : s.view.making i = c.pc.done.map (c.flags.thread, ·) := by
    simp [Sys.view, hcall, Call.making]
  have hview : s'.view = ⟨s.view.signal, Function.update s.view.making i
      (c'.pc.done.map (c.flags.thread, ·))⟩ := by
    have hnew : s'.view.making =
        Function.update s.view.making i (c'.pc.done.map (c.flags.thread, ·)) := by
      funext j
      by_cases hj : j = i
      · subst hj
        simp [Sys.view, hcall', Call.making, hflags]
      · simp [Sys.view, hcall', hj]
    rw [← hnew]
    simp [Sys.view, htask]
  rw [hview]
  -- it is the same, the task was given up, it has just been copied, or it got one milestone further
  rcases hdone with hsame | hnone | ⟨hbefore, hafter⟩ | ⟨m, m', hbefore, hnext, hafter⟩
  · rw [hsame, ← hmaking, Function.update_eq_self]
    exact .stay
  -- given up, unless there was nothing
  · rw [hnone]
    cases hc : c.pc.done with
    | none =>
      rw [hc] at hmaking
      show Turn s.view ⟨s.view.signal, Function.update s.view.making i none⟩
      have hidle : s.view.making i = none := hmaking
      rw [← hidle, Function.update_eq_self]
      exact .stay
    | some m =>
      rw [hc] at hmaking
      exact .giveUp i c.flags.thread m hsignal hmaking
  · rw [hafter]
    rw [hbefore] at hmaking
    exact .dup i c.flags.thread hsignal hmaking
  · rw [hafter]
    rw [hbefore] at hmaking
    exact .next i c.flags.thread m m' hmaking hnext

/-- A call that ends has been showing nothing for a while. -/
theorem Turn.of_end {c : Copy} (hcall : s.call i = some (.copy c)) (hdone : c.pc.done = none)
    (htask : s'.task = s.task) (hcall' : s'.call = Function.update s.call i none) :
    Turn s.view s'.view := by
  have hmaking : s'.view.making = s.view.making := by
    funext j
    by_cases hj : j = i
    · subst hj
      simp [Sys.view, hcall, hcall', Call.making, hdone]
    · simp [Sys.view, hcall', hj]
  have hview : s'.view = s.view := by
    show View.mk (fun j => (s'.task j).map (· .signal)) s'.view.making = s.view
    rw [hmaking, htask]
    rfl
  rw [hview]
  exact .stay

/-- A call that begins shows nothing yet. -/
theorem view_setCall {c : Call} (hidle : s.call i = none) (hc : c.making = none) :
    (s.setCall i (some c)).view = s.view := by
  have hmaking : (s.setCall i (some c)).view.making = s.view.making := by
    funext j
    by_cases hj : j = i
    · subst hj
      simp [Sys.view, Sys.setCall, hidle, hc]
    · simp [Sys.view, Sys.setCall, hj]
  show View.mk s.view.signal (s.setCall i (some c)).view.making = s.view
  rw [hmaking]

/-- The last stage of the locked section: the task is there, with its creator's signal struct or
with one that nobody else has. -/
theorem turn_of_attachPid {child : I} {c : Copy} (hinv : s.Inv) (hcur : s.task i = some cur)
    (hcall : s.call i = some (.copy c)) (hpc : c.pc = .stage .attachPid)
    (hstep : s.attachPid i child c = some s') : Turn s.view s'.view := by
  have hready := (hinv.ok i cur _ hcur hcall).ready
  -- at this stage the call holds the signal struct
  have hheld : Slot.signal ∈ c.pc.held := by rw [hpc]; decide
  unfold Sys.attachPid at hstep
  split at hstep
  · cases hstep
  · next hnew =>
    cases hstep
    -- the call has shown the last milestone and shows none now; the child shows its signal struct
    have hview : s.view.making i = some (c.flags.thread, .initTaskKvStore) := by
      simp [Sys.view, hcall, Call.making, hpc, CopyPc.done]
    have hmaking : (fun j => ((Function.update s.call i
        (some (Call.copy { c with
          p := fun t => if t.inTask ∨ t = .delayed then none else c.p t
          pc := .stage .fdInstall }))) j).bind Call.making) =
        Function.update s.view.making i none := by
      funext j
      by_cases hj : j = i
      · subst hj
        simp [Call.making, CopyPc.done]
      · simp [Sys.view, hj]
    have hsignal : (fun j => (Function.update s.task child
        (some fun t => if t.inTask then c.p t else none) j).map (· .signal)) =
        Function.update s.view.signal child (some (c.p .signal)) := by
      funext j
      by_cases hj : j = child
      · subst hj
        simp [Slot.inTask]
      · simp [Sys.view, hj]
    show Turn s.view ⟨fun j => (Function.update s.task child
        (some fun t => if t.inTask then c.p t else none) j).map (· .signal), _⟩
    rw [hsignal]
    show Turn s.view ⟨_, fun j => ((Function.update s.call i
        (some (Call.copy { c with
          p := fun t => if t.inTask ∨ t = .delayed then none else c.p t
          pc := .stage .fdInstall }))) j).bind Call.making⟩
    rw [hmaking]
    refine .attach i child c.flags.thread (c.p .signal) hview ?_ ?_ ?_ ?_
    · simp [Sys.view, hcur]
    · simp [Sys.view, hnew]
    -- a thread has inherited the struct of its creator
    · intro hthread
      have hsame : c.p .signal = cur .signal := hready.inherit .signal hheld hthread
      simp [Sys.view, hcur, hsame]
    -- the struct of a process is counted once, so no task has it
    · intro hprocess j hj
      obtain ⟨q, hq, hsignal⟩ := Option.map_eq_some_iff.mp hj
      have hown : (!c.flags.thread) = true := by rw [hprocess]; rfl
      exact hinv.not_shared hcur hcall hheld rfl hown hown (by decide) hq hsignal.symm

/-- All the steps of `copy_process`: a plain stage, the stages around the locked section, a label.
-/
theorem turn_of_copyStep {c : Copy} (hinv : s.Inv) (hcur : s.task i = some cur)
    (hcall : s.call i = some (.copy c)) (hstep : s.copyStep i e cur c = some s') :
    Turn s.view s'.view := by
  obtain ⟨flags, initPid, p, pc⟩ := c
  cases pc with
  | stage st =>
    -- stages that can fail
    by_cases hplain : st.plain = true ∨ st = .anonInodeGetfile
    · have hst : st ≠ .attachPid := by
        rintro rfl
        rcases hplain with hplain | hplain <;> cases hplain
      have hrun : (st.run e flags initPid cur p s.heap).map (fun r =>
          { s.setCall i (some (.copy ⟨flags, initPid, r.2.1,
            if r.1 then .stage st.next else .label st.fail⟩)) with heap := r.2.2 }) = some s' := by
        rcases hplain with hplain | rfl
        · cases st <;> first | exact hstep | cases hplain
        · exact hstep
      obtain ⟨⟨ok, p', h'⟩, -, rfl⟩ := Option.map_eq_some_iff.mp hrun
      refine Turn.of_done ⟨flags, initPid, p', if ok then .stage st.next else .label st.fail⟩
        hcur hcall rfl rfl rfl ?_
      cases ok with
      -- a failure is an error label
      | false => exact Or.inr (Or.inl rfl)
      | true =>
        rcases done_next hst with hsame | hnext
        · exact Or.inl hsame
        · exact Or.inr (Or.inr hnext)
    · cases st <;>
        first | exact absurd (Or.inl rfl) hplain | exact absurd (Or.inr rfl) hplain | skip
      -- the locked section and what is behind it
      case writeLockIrq =>
        obtain ⟨-, hstep⟩ := Option.ite_none_right_eq_some.mp hstep
        cases hstep
        exact Turn.of_done _ hcur hcall rfl rfl rfl (Or.inl rfl)
      case attachPid => exact turn_of_attachPid hinv hcur hcall rfl hstep
      case fdInstall =>
        cases hstep
        exact Turn.of_done _ hcur hcall rfl rfl rfl (Or.inl rfl)
      case cgroupPostFork =>
        cases hstep
        exact Turn.of_end hcall rfl rfl rfl
  | label l =>
    -- at the labels there is nothing to see any more
    by_cases hcancel : l = .badForkCancelCgroup
    · subst hcancel
      cases hstep
      exact Turn.of_done _ hcur hcall rfl rfl rfl (Or.inl rfl)
    · by_cases hout : l = .forkOut
      · subst hout
        cases hstep
        exact Turn.of_end hcall rfl rfl rfl
      · have hnext : some { s.setCall i (some (.copy ⟨flags, initPid, p, .label l.next⟩)) with
            heap := l.drop flags p s.heap } = some s' := by
          cases l <;> first | exact absurd rfl hcancel | exact absurd rfl hout | exact hstep
        cases hnext
        exact Turn.of_done _ hcur hcall rfl rfl rfl (Or.inl rfl)

/-- `ksys_unshare` changes no task's signal struct. -/
theorem turn_of_unshare {c : Unshare} (hinv : s.Inv) (hcur : s.task i = some cur)
    (hcall : s.call i = some (.unshare c)) {r : Option Unshare × Ptrs × Refs × List Obj}
    (hstep : unshareStep e cur s.heap c = some r)
    (htask' : s'.task = Function.update s.task i (some r.2.1))
    (hcall' : s'.call = Function.update s.call i (r.1.map .unshare)) : Turn s.view s'.view := by
  -- of the pointers it exchanges none is the signal struct
  have hgoes := unshareStep_goes (hinv.solid i cur hcur) (hinv.ok i cur _ hcur hcall) hstep
  have hsignal : r.2.1 .signal = cur .signal := hgoes.same .signal (by decide)
  have hview : s'.view = s.view := by
    have hsame : s'.view.signal = s.view.signal := by
      funext j
      by_cases hj : j = i
      · subst hj
        simp [Sys.view, htask', hcur, hsignal]
      · simp [Sys.view, htask', hj]
    have hmaking : s'.view.making = s.view.making := by
      funext j
      by_cases hj : j = i
      · subst hj
        cases hr : r.1 <;> simp [Sys.view, hcall', hcall, hr, Call.making]
      · simp [Sys.view, hcall', hj]
    show View.mk s'.view.signal s'.view.making = s.view
    rw [hsame, hmaking]
  rw [hview]
  exact .stay

/-- A task that exits is in no call, so it was not making another. -/
theorem turn_of_exit (hstep : s.exit i = some s') : Turn s.view s'.view := by
  unfold Sys.exit at hstep
  split at hstep
  · next p hp hcall =>
    cases hstep
    have hsignal : (fun j => (Function.update s.task i none j).map (· .signal)) =
        Function.update s.view.signal i none := by
      funext j
      by_cases hj : j = i
      · subst hj
        simp
      · simp [Sys.view, hj]
    show Turn s.view ⟨fun j => (Function.update s.task i none j).map (· .signal), s.view.making⟩
    rw [hsignal]
    refine .exit i ?_
    simp [Sys.view, hcall]
  · cases hstep

/-- **One step, as it is seen elsewhere.** -/
theorem turn_of_step (hinv : s.Inv) {l : SysLabel I} (hstep : s.step l = some s') :
    Turn s.view s'.view := by
  cases sysMove_of_step hstep with
  | refused => exact .stay
  -- a call that begins has not made a task yet
  | beginCopy i cur flags initPid hcur hcall hthread hsighand =>
    rw [view_setCall hcall rfl]
    exact .stay
  | beginUnshare i cur flags hcur hcall =>
    rw [view_setCall hcall rfl]
    exact .stay
  | copy i e cur c _ hcur hcall hcopy => exact turn_of_copyStep hinv hcur hcall hcopy
  | unshare i e cur c r hcur hcall hr => exact turn_of_unshare hinv hcur hcall hr rfl rfl
  | exit i _ hexit => exact turn_of_exit hexit

/-! ## The socket limits

`Fairness` names tasks by address and never frees one. `α` and `β` are the addresses of a task and
of the task its `copy_process` is making; no address from `n` on is in use, and pids are given out
in the same way. A task that exits is forgotten here and stays there. -/

/-- The stage of `Fairness` a milestone is; it knows nothing of the store. -/
def Milestone.stage : Milestone → Fairness.Stage
  | .dupTaskStruct => .dupTaskStruct
  | .resetFields => .resetFields
  | .spinLockInit => .spinLockInit
  | .copySignal | .initTaskKvStore => .copySignal

/-- Attaching the task is no milestone but a turn of its own. -/
theorem Milestone.stage_ne (m : Milestone) : m.stage ≠ .attachPid := by
  cases m <;> decide

/-- The signal struct of the task at an address. -/
def signalAt (f : Fairness.Sys) (a : Nat) : Option Nat := (f.tasks a).map (·.task.signal)

/-- The tasks of `v` are attached in `f`, those being made are at the stage of their milestone, and
tasks are in one thread group here if they are there. -/
structure Mirrors (α β : I → Nat) (n : Nat) (v : View I) (f : Fairness.Sys) : Prop where
  used : ∀ a e, f.tasks a = some e → a < n ∧ e.task.signal < n
  pids : ∀ k : Nat, n ≤ k → f.pidTask k = none
  attached : ∀ i, v.signal i ≠ none → ∃ e, f.tasks (α i) = some e ∧ e.Attached
  caller : ∀ i, v.making i ≠ none → v.signal i ≠ none
  making : ∀ i thread m, v.making i = some (thread, m) → ∃ e, f.tasks (β i) = some e ∧
    e.stage = m.stage ∧
    some e.task.signal = if thread = false ∧ m.stage = .copySignal then some (β i)
      else signalAt f (α i)
  apart : ∀ i j, v.making i ≠ none → v.making j ≠ none → β i = β j → i = j
  unused : ∀ i j, v.signal i ≠ none → v.making j ≠ none → signalAt f (α i) ≠ some (β j)
  group : ∀ i j x y, v.signal i = some x → v.signal j = some y →
    (signalAt f (α i) = signalAt f (α j) ↔ x = y)

variable {α β : I → Nat} {n : Nat} {v v' : View I} {f f' : Fairness.Sys}

omit [DecidableEq I] in
/-- A task being made is none of those that are there. -/
theorem Mirrors.ne (h : Mirrors α β n v f) {j : I} (hi : v.signal i ≠ none)
    (hj : v.making j ≠ none) : α i ≠ β j := by
  intro heq
  obtain ⟨⟨thread, m⟩, hm⟩ := Option.ne_none_iff_exists'.mp hj
  obtain ⟨e, he, hattached⟩ := h.attached i hi
  obtain ⟨e', he', hstage, -⟩ := h.making j thread m hm
  rw [heq, he'] at he
  cases he
  exact m.stage_ne (hstage.symm.trans hattached)

/-- A task exits: what was known of the others is known still. -/
theorem Mirrors.exit (h : Mirrors α β n v f) (hidle : v.making i = none) :
    Mirrors α β n ⟨Function.update v.signal i none, v.making⟩ f := by
  -- a task fewer: whatever was known of the others is known still
  have hof : ∀ {j x}, Function.update v.signal i none j = some x → v.signal j = some x := by
    intro j x hj
    by_cases hji : j = i
    · rw [hji, Function.update_self] at hj
      cases hj
    · rwa [Function.update_of_ne hji] at hj
  have hne : ∀ {j}, Function.update v.signal i none j ≠ none → v.signal j ≠ none := by
    intro j hj
    obtain ⟨x, hx⟩ := Option.ne_none_iff_exists'.mp hj
    rw [hof hx]
    exact Option.some_ne_none x
  refine ⟨h.used, h.pids, fun j hj => h.attached j (hne hj), fun j hj => ?_, h.making, h.apart,
    fun j k hj hk => h.unused j k (hne hj) hk,
    fun j k x y hj hk => h.group j k x y (hof hj) (hof hk)⟩
  -- a task that is making another one is in a call and does not exit
  have hji : j ≠ i := by
    rintro rfl
    exact hj hidle
  show Function.update v.signal i none j ≠ none
  rw [Function.update_of_ne hji]
  exact h.caller j hj

/-- One address changes that is no task's and no signal struct of one: the entry of the task that
`i` is making. -/
theorem Mirrors.set (h : Mirrors α β n v f) {a n' : Nat} {x : Option Fairness.Entry}
    {y : Option (Bool × Milestone)} (hn : n ≤ n') (hi : v.signal i ≠ none)
    (hα : ∀ j, v.signal j ≠ none → α j ≠ a ∧ signalAt f (α j) ≠ some a)
    (hβ : ∀ j, j ≠ i → v.making j ≠ none → β j ≠ a)
    (hx : ∀ e, x = some e → a < n' ∧ e.task.signal < n')
    (hy : ∀ thread m, y = some (thread, m) → ∃ e, x = some e ∧ e.stage = m.stage ∧
      some e.task.signal = if thread = false ∧ m.stage = .copySignal then some a
        else signalAt f (α i)) :
    Mirrors α (Function.update β i a) n' ⟨v.signal, Function.update v.making i y⟩
      { f with tasks := Function.update f.tasks a x } := by
  -- the addresses of tasks are not `a`, so their signal structs are as before
  have hsame : ∀ j, v.signal j ≠ none →
      signalAt { f with tasks := Function.update f.tasks a x } (α j) = signalAt f (α j) := by
    intro j hj
    unfold signalAt
    dsimp only
    rw [Function.update_of_ne (hα j hj).1]
  refine ⟨fun b e he => ?_, fun k hk => h.pids k (hn.trans hk), fun j hj => ?_, fun j hj => ?_,
    fun j thread m hj => ?_, fun j k hj hk heq => ?_, fun j k hj hk => ?_,
    fun j k x y hj hk => ?_⟩
  -- addresses in use
  · dsimp only at he
    by_cases hb : b = a
    · rw [hb, Function.update_self] at he
      rw [hb]
      exact hx e he
    · rw [Function.update_of_ne hb] at he
      obtain ⟨hlt, hsignal⟩ := h.used b e he
      exact ⟨hlt.trans_le hn, hsignal.trans_le hn⟩
  -- tasks, and the callers
  · obtain ⟨e, he, hattached⟩ := h.attached j hj
    exact ⟨e, (Function.update_of_ne (hα j hj).1 ..).trans he, hattached⟩
  · dsimp only at hj
    by_cases hji : j = i
    · rw [hji]
      exact hi
    · rw [Function.update_of_ne hji] at hj
      exact h.caller j hj
  -- tasks being made: that of `i` is as `hy` says, those of others are at other addresses
  · dsimp only at hj
    by_cases hji : j = i
    · subst hji
      rw [Function.update_self] at hj
      obtain ⟨e, he, hstage, hsignal⟩ := hy thread m hj
      rw [Function.update_self, hsame j hi]
      exact ⟨e, (Function.update_self ..).trans he, hstage, hsignal⟩
    · rw [Function.update_of_ne hji] at hj ⊢
      have hmaking : v.making j ≠ none := by
        rw [hj]
        exact Option.some_ne_none _
      obtain ⟨e, he, hstage, hsignal⟩ := h.making j thread m hj
      rw [hsame j (h.caller j hmaking)]
      exact ⟨e, (Function.update_of_ne (hβ j hji hmaking) ..).trans he, hstage, hsignal⟩
  -- no two at one address
  · dsimp only at hj hk
    by_cases hji : j = i <;> by_cases hki : k = i
    · rw [hji, hki]
    · rw [hji, Function.update_self, Function.update_of_ne hki] at heq
      rw [Function.update_of_ne hki] at hk
      exact absurd heq.symm (hβ k hki hk)
    · rw [hki, Function.update_self, Function.update_of_ne hji] at heq
      rw [Function.update_of_ne hji] at hj
      exact absurd heq (hβ j hji hj)
    · rw [Function.update_of_ne hji, Function.update_of_ne hki] at heq
      rw [Function.update_of_ne hji] at hj
      rw [Function.update_of_ne hki] at hk
      exact h.apart j k hj hk heq
  -- the address of a task being made is not a signal struct of another, nor do groups change
  · dsimp only at hk
    rw [hsame j hj]
    by_cases hki : k = i
    · rw [hki, Function.update_self]
      exact (hα j hj).2
    · rw [Function.update_of_ne hki] at hk ⊢
      exact h.unused j k hj hk
  · rw [hsame j (by rw [hj]; exact Option.some_ne_none x),
      hsame k (by rw [hk]; exact Option.some_ne_none y)]
    exact h.group j k x y hj hk

/-- `dup_task_struct` takes an address that is not in use. -/
theorem Mirrors.dup (h : Mirrors α β n v f) (thread : Bool) (hi : v.signal i ≠ none) :
    ∃ f', f.step (.dupTaskStruct (α i) n) = some f' ∧
      Mirrors α (Function.update β i n) (n + 1)
        ⟨v.signal, Function.update v.making i (some (thread, .dupTaskStruct))⟩ f' := by
  -- the creator is attached there
  obtain ⟨cur, hcur, hattached⟩ := h.attached i hi
  -- `n` is beyond all addresses in use
  have hfree : f.tasks n = none := by
    by_contra hused
    obtain ⟨e, he⟩ := Option.ne_none_iff_exists'.mp hused
    exact absurd (h.used n e he).1 (Nat.lt_irrefl n)
  refine ⟨⟨Function.update f.tasks n (some ⟨cur.task, .dupTaskStruct, false, none⟩), f.pidTask,
    f.calls⟩, ?_, h.set (Nat.le_succ n) hi ?_ ?_ ?_ ?_⟩
  · simp [Fairness.Sys.step, hcur, hattached, hfree]
  -- nobody is at `n`, and no signal struct is
  · intro j hj
    obtain ⟨e, he, -⟩ := h.attached j hj
    obtain ⟨ha, hsignal⟩ := h.used (α j) e he
    refine ⟨ha.ne, fun heq => ?_⟩
    simp only [signalAt, he, Option.map_some, Option.some.injEq] at heq
    omega
  -- nor is it the address of a task that somebody else is making
  · intro j hji hj
    obtain ⟨⟨thread', m⟩, hm⟩ := Option.ne_none_iff_exists'.mp hj
    obtain ⟨e, he, -⟩ := h.making j thread' m hm
    exact (h.used (β j) e he).1.ne
  · rintro e ⟨⟩
    exact ⟨Nat.lt_succ_self n, Nat.lt_succ_of_lt (h.used (α i) cur hcur).2⟩
  -- the copy has the signal struct of its creator for the moment
  · rintro thread' m ⟨⟩
    refine ⟨_, rfl, rfl, ?_⟩
    rw [if_neg (by rintro ⟨-, ⟨⟩⟩)]
    simp [signalAt, hcur]

/-- The entry of a task being made changes. -/
theorem Mirrors.at_making (h : Mirrors α β n v f) {thread : Bool} {m : Milestone}
    {x : Option Fairness.Entry} {y : Option (Bool × Milestone)}
    (hi : v.making i = some (thread, m)) (hx : ∀ e, x = some e → e.task.signal < n)
    (hy : ∀ thread m, y = some (thread, m) → ∃ e, x = some e ∧ e.stage = m.stage ∧
      some e.task.signal = if thread = false ∧ m.stage = .copySignal then some (β i)
        else signalAt f (α i)) :
    Mirrors α β n ⟨v.signal, Function.update v.making i y⟩
      { f with tasks := Function.update f.tasks (β i) x } := by
  have hmaking : v.making i ≠ none := by
    rw [hi]
    exact Option.some_ne_none _
  obtain ⟨e, he, -⟩ := h.making i thread m hi
  have hset := h.set (a := β i) (x := x) (y := y) (Nat.le_refl n) (h.caller i hmaking)
    (fun j hj => ⟨h.ne hj hmaking, h.unused j i hj hmaking⟩)
    (fun j hji hj heq => hji (h.apart j i hj hmaking heq))
    (fun e' he' => ⟨(h.used (β i) e he).1, hx e' he'⟩) hy
  rwa [Function.update_eq_self] at hset

/-- The next operation of `copy_process`, up to `copy_signal`. -/
theorem copyProcess_milestone (a : Nat) (thread : Bool) {m m' : Milestone} {e : Fairness.Entry}
    (hstage : e.stage = m.stage) (hnext : m.next = some m') (hkv : m' ≠ .initTaskKvStore) :
    m.stage ≠ .copySignal ∧ ∃ e', e.copyProcess a thread = some e' ∧ e'.stage = m'.stage ∧
      e'.task.signal = if thread = false ∧ m'.stage = .copySignal then a else e.task.signal := by
  cases m with
  -- `dup_task_struct` is followed by the reset of the three fields
  | dupTaskStruct =>
    cases hnext
    refine ⟨by decide, { e with
      task := { e.task with maxSocketAllowed := 0, priorityLevel := 0, socketCount := 0 }
      stage := .resetFields }, ?_, rfl, ?_⟩
    · simp only [Fairness.Entry.copyProcess, hstage, Milestone.stage]
    · rw [if_neg (by rintro ⟨-, ⟨⟩⟩)]
  | resetFields =>
    -- `spin_lock_init(&p->alloc_lock)`
    cases hnext
    refine ⟨by decide, { e with task := { e.task with allocLock := none }, stage := .spinLockInit },
      ?_, rfl, ?_⟩
    · simp only [Fairness.Entry.copyProcess, hstage, Milestone.stage]
    · rw [if_neg (by rintro ⟨-, ⟨⟩⟩)]
  | spinLockInit =>
    -- `copy_signal`: a process gets a struct of its own, named by the task's address
    cases hnext
    refine ⟨by decide, { e with
      task := { e.task with signal := if thread then e.task.signal else a }
      stage := .copySignal }, ?_, rfl, ?_⟩
    · simp only [Fairness.Entry.copyProcess, hstage, Milestone.stage]
    · cases thread <;> rfl
  | copySignal =>
    -- what follows is the store's
    cases hnext
    exact absurd rfl hkv
  | initTaskKvStore => cases hnext

/-- An operation of `copy_process`; of the store nothing is seen. -/
theorem Mirrors.next (h : Mirrors α β n v f) {thread : Bool} {m m' : Milestone}
    (hi : v.making i = some (thread, m)) (hnext : m.next = some m') :
    ∃ f', (f' = f ∨ f.step (.copyProcess (β i) thread) = some f') ∧
      Mirrors α β n ⟨v.signal, Function.update v.making i (some (thread, m'))⟩ f' := by
  obtain ⟨e, he, hstage, hsignal⟩ := h.making i thread m hi
  obtain ⟨hlt, hsignalLt⟩ := h.used (β i) e he
  -- `init_task_kv_store` is nothing there, so the entry stays
  by_cases hkv : m' = .initTaskKvStore
  · subst hkv
    have hm : m.stage = Milestone.initTaskKvStore.stage := by
      cases m <;> first | rfl | cases hnext
    have hsame : f = { f with tasks := Function.update f.tasks (β i) (some e) } := by
      rw [← he, Function.update_eq_self]
    refine ⟨f, Or.inl rfl, ?_⟩
    rw [hsame]
    refine h.at_making hi ?_ ?_
    · rintro _ ⟨⟩
      exact hsignalLt
    · rintro _ _ ⟨⟩
      rw [← hm]
      exact ⟨e, rfl, hstage, hsignal⟩
  -- any other operation is a step, and `copy_signal` gives a process its own address as struct
  · obtain ⟨hm, e', he', hstage', hsignal'⟩ :=
      copyProcess_milestone (β i) thread hstage hnext hkv
    rw [if_neg fun hif => hm hif.2] at hsignal
    refine ⟨{ f with tasks := Function.update f.tasks (β i) (some e') }, Or.inr ?_,
      h.at_making hi ?_ ?_⟩
    · simp only [Fairness.Sys.step, he, Option.bind_eq_bind, Option.bind_some, he']
    · rintro _ ⟨⟩
      rw [hsignal']
      split
      · exact hlt
      · exact hsignalLt
    · rintro _ _ ⟨⟩
      refine ⟨e', rfl, hstage', ?_⟩
      rw [hsignal', ← hsignal, apply_ite some]

/-- An error label: the task was nobody's. -/
theorem Mirrors.giveUp (h : Mirrors α β n v f) {thread : Bool} {m : Milestone}
    (hi : v.making i = some (thread, m)) :
    ∃ f', f.step (.badFork (β i)) = some f' ∧
      Mirrors α β n ⟨v.signal, Function.update v.making i none⟩ f' := by
  obtain ⟨e, he, hstage, -⟩ := h.making i thread m hi
  have hhidden : ¬ e.Attached := fun hattached => m.stage_ne (hstage.symm.trans hattached)
  refine ⟨{ f with tasks := Function.update f.tasks (β i) none }, ?_, h.at_making hi ?_ ?_⟩
  · simp [Fairness.Sys.step, he, hhidden]
  · rintro _ ⟨⟩
  · rintro _ _ ⟨⟩

/-- `attach_pid`, with a pid that is not in use. -/
theorem Mirrors.attach (h : Mirrors α β n v f) {child : I} {thread : Bool} {signal : Option Nat}
    (hi : v.making i = some (thread, .initTaskKvStore)) (hchild : v.signal child = none)
    (hthread : thread = true → v.signal i = some signal)
    (hprocess : thread = false → ∀ j, v.signal j ≠ some signal) :
    ∃ f', f.step (.attachPid (β i) n) = some f' ∧
      Mirrors (Function.update α child (β i)) β (n + 1)
        ⟨Function.update v.signal child (some signal), Function.update v.making i none⟩ f' := by
  have hmaking : v.making i ≠ none := by
    rw [hi]
    exact Option.some_ne_none _
  obtain ⟨e, he, hstage, hsignal⟩ := h.making i thread _ hi
  have hsome : ∀ {j x}, v.signal j = some x → v.signal j ≠ none := by
    intro j x hj
    rw [hj]
    exact Option.some_ne_none x
  have hold : ∀ {j}, v.signal j ≠ none → j ≠ child := by
    rintro j hj rfl
    exact hj hchild
  -- the state after the step: the entry is attached and the pid leads to it
  let f' : Fairness.Sys := ⟨Function.update f.tasks (β i) (some { e with stage := .attachPid }),
    Function.update f.pidTask n (some (β i)), f.calls⟩
  have hnew : f'.tasks (β i) = some { e with stage := .attachPid } := Function.update_self ..
  have hother : ∀ {a}, a ≠ β i → f'.tasks a = f.tasks a := fun ha => Function.update_of_ne ha ..
  have hsame : ∀ {j}, v.signal j ≠ none → signalAt f' (α j) = signalAt f (α j) := by
    intro j hj
    unfold signalAt
    rw [hother (h.ne hj hmaking)]
  have hself : signalAt f' (β i) = if thread = false then some (β i) else signalAt f (α i) := by
    unfold signalAt at hsignal ⊢
    rw [hnew]
    simpa [Milestone.stage] using hsignal
  -- the new task is in the group of its creator, or in one of its own
  have hgroup : ∀ {j y}, v.signal j = some y →
      (signalAt f' (β i) = signalAt f' (α j) ↔ signal = y) := by
    intro j y hj
    rw [hself, hsame (hsome hj)]
    cases thread with
    | true => exact h.group i j signal y (hthread rfl) hj
    | false =>
      refine ⟨fun heq => absurd heq.symm (h.unused j i (hsome hj) hmaking), ?_⟩
      rintro rfl
      exact absurd hj (hprocess rfl j)
  refine ⟨f', ?_, ⟨fun a e' he' => ?_, fun k hk => ?_, fun j hj => ?_, fun j hj => ?_,
    fun j thread' m hj => ?_, fun j k hj hk => ?_, fun j k hj hk => ?_,
    fun j k x y hj hk => ?_⟩⟩
  -- the step itself: the task has got as far as `copy_signal` and the pid is free
  · have hfree : f.pidTask n = none := h.pids n (Nat.le_refl n)
    have hcopied : e.stage = .copySignal := hstage
    simp only [Fairness.Sys.step, he, Option.bind_eq_bind, Option.bind_some, hcopied, hfree,
      and_self, if_true]
    rfl
  -- addresses in use, and pids
  · by_cases ha : a = β i
    · rw [ha, hnew] at he'
      cases he'
      obtain ⟨hlt, hsignalLt⟩ := h.used (β i) e he
      rw [ha]
      exact ⟨Nat.lt_succ_of_lt hlt, Nat.lt_succ_of_lt hsignalLt⟩
    · rw [hother ha] at he'
      obtain ⟨hlt, hsignalLt⟩ := h.used a e' he'
      exact ⟨Nat.lt_succ_of_lt hlt, Nat.lt_succ_of_lt hsignalLt⟩
  · have hkn : (k : Int) ≠ n := by omega
    exact (Function.update_of_ne hkn ..).trans (h.pids k (Nat.le_of_succ_le hk))
  -- the new task is attached and the old ones still are
  · dsimp only at hj
    by_cases hjc : j = child
    · rw [hjc, Function.update_self]
      exact ⟨_, hnew, rfl⟩
    · rw [Function.update_of_ne hjc] at hj ⊢
      rw [hother (h.ne hj hmaking)]
      exact h.attached j hj
  -- nobody calls who was not there before
  · dsimp only at hj ⊢
    by_cases hji : j = i
    · rw [hji, Function.update_self] at hj
      exact absurd rfl hj
    · rw [Function.update_of_ne hji] at hj
      rw [Function.update_of_ne (hold (h.caller j hj))]
      exact h.caller j hj
  -- other tasks being made: they are at other addresses, and their creators are as before
  · dsimp only at hj
    by_cases hji : j = i
    · rw [hji, Function.update_self] at hj
      cases hj
    · rw [Function.update_of_ne hji] at hj
      have hj' : v.making j ≠ none := by
        rw [hj]
        exact Option.some_ne_none _
      have hβ : β j ≠ β i := fun heq => hji (h.apart j i hj' hmaking heq)
      rw [Function.update_of_ne (hold (h.caller j hj')), hsame (h.caller j hj'), hother hβ]
      exact h.making j thread' m hj
  -- no two at one address, of those that are left
  · dsimp only at hj hk
    by_cases hji : j = i
    · rw [hji, Function.update_self] at hj
      exact absurd rfl hj
    · by_cases hki : k = i
      · rw [hki, Function.update_self] at hk
        exact absurd rfl hk
      · rw [Function.update_of_ne hji] at hj
        rw [Function.update_of_ne hki] at hk
        exact h.apart j k hj hk
  -- the signal struct of the new task is at its own address or its creator's
  · dsimp only at hj hk
    by_cases hki : k = i
    · rw [hki, Function.update_self] at hk
      exact absurd rfl hk
    · rw [Function.update_of_ne hki] at hk
      by_cases hjc : j = child
      · rw [hjc, Function.update_self, hself]
        split
        · exact fun heq => hki (h.apart i k hmaking hk (Option.some.inj heq)).symm
        · exact h.unused i k (h.caller i hmaking) hk
      · rw [Function.update_of_ne hjc] at hj ⊢
        rw [hsame hj]
        exact h.unused j k hj hk
  -- groups: one of the two may be the new task
  · dsimp only at hj hk
    by_cases hjc : j = child <;> by_cases hkc : k = child
    · rw [hjc, Function.update_self] at hj
      rw [hkc, Function.update_self] at hk
      rw [hjc, hkc]
      exact ⟨fun _ => Option.some.inj (hj.symm.trans hk), fun _ => rfl⟩
    · rw [hjc, Function.update_self] at hj
      rw [Function.update_of_ne hkc] at hk
      cases hj
      rw [hjc, Function.update_self, Function.update_of_ne hkc]
      exact hgroup hk
    · rw [hkc, Function.update_self] at hk
      rw [Function.update_of_ne hjc] at hj
      cases hk
      rw [hkc, Function.update_self, Function.update_of_ne hjc, eq_comm, hgroup hj, eq_comm]
    · rw [Function.update_of_ne hjc] at hj ⊢
      rw [Function.update_of_ne hkc] at hk ⊢
      rw [hsame (hsome hj), hsame (hsome hk)]
      exact h.group j k x y hj hk

/-- **One step, in the model of the socket limits**: it does one thing there or nothing. -/
theorem Mirrors.turn (h : Mirrors α β n v f) (hturn : Turn v v') :
    ∃ α' β' n' f', (f' = f ∨ ∃ l, f.step l = some f') ∧ Mirrors (I := I) α' β' n' v' f' := by
  cases hturn with
  | stay => exact ⟨α, β, n, f, Or.inl rfl, h⟩
  | exit i hidle => exact ⟨α, β, n, f, Or.inl rfl, h.exit hidle⟩
  | dup i thread hi hidle =>
    obtain ⟨f', hstep, h'⟩ := h.dup thread hi
    exact ⟨α, Function.update β i n, n + 1, f', Or.inr ⟨_, hstep⟩, h'⟩
  | next i thread m m' hi hnext =>
    obtain ⟨f', hstep, h'⟩ := h.next hi hnext
    exact ⟨α, β, n, f', hstep.imp_right fun hstep => ⟨_, hstep⟩, h'⟩
  | giveUp i thread m hsignal hi =>
    obtain ⟨f', hstep, h'⟩ := h.giveUp hi
    exact ⟨α, β, n, f', Or.inr ⟨_, hstep⟩, h'⟩
  | attach i child thread signal hi hsignal hchild hthread hprocess =>
    obtain ⟨f', hstep, h'⟩ := h.attach hi hchild hthread hprocess
    exact ⟨Function.update α child (β i), β, n + 1, f', Or.inr ⟨_, hstep⟩, h'⟩

/-- What of an entry matters here. -/
def shape (e : Fairness.Entry) : Fairness.Stage × Nat := (e.stage, e.task.signal)

/-- An entry that keeps its stage and its signal struct. -/
theorem shape_update {tasks : Fairness.Tasks} {t : Nat} {e e' : Fairness.Entry}
    (he : tasks t = some e) (hshape : shape e' = shape e) (a : Nat) :
    (Function.update tasks t (some e') a).map shape = (tasks a).map shape := by
  by_cases ha : a = t
  · rw [ha, Function.update_self, he, Option.map_some, hshape, Option.map_some]
  · rw [Function.update_of_ne ha]

/-- A call writes the limits of a task and its lock, nothing else. -/
theorem shape_call {c : Nat} {pidTask : Int → Option Nat} {tasks tasks' : Fairness.Tasks}
    {k k' : Fairness.Call} (hmove : Fairness.CallMove c pidTask tasks k k' tasks') (a : Nat) :
    (tasks' a).map shape = (tasks a).map shape := by
  cases hmove with
  | invalid | valid | noTask | found | denied | allowed => rfl
  | lock t e hpc he | storeMax t e hpc he | storePriority t e hpc he | unlock t e hpc he =>
    refine shape_update he ?_ a
    rfl

omit [DecidableEq I] in
/-- **Calls of `configure_socket_fairness` in between** change nothing of this. -/
theorem Mirrors.call (h : Mirrors α β n v f) {c : Nat} {capable : Bool}
    (hstep : f.step (.run c capable) = some f') : Mirrors α β n v f' := by
  obtain ⟨k, -, hstep⟩ := Option.bind_eq_some_iff.mp hstep
  obtain ⟨⟨k', tasks'⟩, hk, hstep⟩ := Option.bind_eq_some_iff.mp hstep
  cases hstep
  -- an entry keeps its stage and its signal struct
  have hshape := shape_call (Fairness.callMove_of_step hk)
  have hback : ∀ {a e'}, tasks' a = some e' → ∃ e, f.tasks a = some e ∧ shape e = shape e' := by
    intro a e' he'
    have ha := hshape a
    rw [he'] at ha
    exact Option.map_eq_some_iff.mp ha.symm
  have hforth : ∀ {a e}, f.tasks a = some e → ∃ e', tasks' a = some e' ∧ shape e' = shape e := by
    intro a e he
    have ha := hshape a
    rw [he] at ha
    exact Option.map_eq_some_iff.mp ha
  have hsignal : ∀ a, signalAt ⟨tasks', f.pidTask,
      Function.update f.calls c (some k')⟩ a = signalAt f a := by
    intro a
    have ha := congrArg (Option.map Prod.snd) (hshape a)
    rwa [Option.map_map, Option.map_map] at ha
  refine ⟨fun a e' he' => ?_, h.pids, fun i hi => ?_, h.caller, fun i thread m hi => ?_, h.apart,
    fun i j hi hj => ?_, fun i j x y hi hj => ?_⟩
  -- with that each part is as before
  · obtain ⟨e, he, hsame⟩ := hback he'
    have hlt := h.used a e he
    rwa [show e.task.signal = e'.task.signal from congrArg Prod.snd hsame] at hlt
  · obtain ⟨e, he, hattached⟩ := h.attached i hi
    obtain ⟨e', he', hsame⟩ := hforth he
    exact ⟨e', he', (congrArg Prod.fst hsame).trans hattached⟩
  · obtain ⟨e, he, hstage, hsig⟩ := h.making i thread m hi
    obtain ⟨e', he', hsame⟩ := hforth he
    refine ⟨e', he', (congrArg Prod.fst hsame).trans hstage, ?_⟩
    rw [hsignal, show e'.task.signal = e.task.signal from congrArg Prod.snd hsame]
    exact hsig
  · rw [hsignal]
    exact h.unused i j hi hj
  · rw [hsignal, hsignal]
    exact h.group i j x y hi hj

/-- One task at the beginning, at the address of `init_task`. -/
theorem Mirrors.init {P : Population I} {root : I} (hroot : P.tasks = {root}) :
    Mirrors (fun _ => 0) (fun _ => 0) 1 (Sys.start P).view Fairness.Sys.init := by
  -- at the beginning there is one task
  have htask : ∀ {i x}, (Sys.start P).view.signal i = some x → i = root := by
    intro i x hi
    simp only [Sys.view, Sys.start, hroot, Finset.mem_singleton] at hi
    by_contra hne
    rw [if_neg hne] at hi
    cases hi
  refine ⟨fun a e he => ?_, fun k hk => rfl, fun i hi => ⟨_, rfl, rfl⟩, fun i hi => absurd rfl hi,
    fun i thread m hi => ?_, fun i j hi => absurd rfl hi, fun i j hi hj => absurd rfl hj,
    fun i j x y hi hj => ?_⟩
  -- the only address in use is 0
  · by_cases ha : a = 0
    · subst ha
      cases he
      exact ⟨Nat.one_pos, Nat.one_pos⟩
    · simp [Fairness.Sys.init, ha] at he
  -- the root is in no call
  · cases hi
  · have hij : i = j := (htask hi).trans (htask hj).symm
    subst hij
    exact ⟨fun _ => Option.some.inj (hi.symm.trans hj), fun _ => rfl⟩

/-- **The model of the socket limits goes along with every run.** -/
theorem fairness_of_fork {P : Population I} {root : I} (hroot : P.tasks = {root}) {s : Sys I}
    (hreach : Reach Sys.step (fun _ _ => True) (Sys.start P) s) :
    ∃ α β n f, Reach Fairness.Sys.step (fun _ _ => True) Fairness.Sys.init f ∧
      Mirrors (I := I) α β n s.view f := by
  induction hreach with
  | refl => exact ⟨fun _ => 0, fun _ => 0, 1, _, .refl, Mirrors.init hroot⟩
  | tail ht _ hstep ih =>
    obtain ⟨α, β, n, f, hf, hmirrors⟩ := ih
    obtain ⟨α', β', n', f', hf', hmirrors'⟩ :=
      hmirrors.turn (turn_of_step (Sys.Inv.of_reach ht) hstep)
    refine ⟨α', β', n', f', ?_, hmirrors'⟩
    rcases hf' with rfl | ⟨m, hm⟩
    · exact hf
    · exact hf.tail trivial hm

end

/-! ## The store

Here tasks have the same names on both sides. The ledger does a whole `copy_process` at once, at the
stage that decides: where the task is attached, or at the error that comes behind the store's
initialisation. In front of it an error has no effect, and neither has any stage. -/

open KvStore

/-- The tasks are the same and alive, and threads of a group have one pair of arrays. -/
structure Tracks (v : View Nat) (k : Ledger) : Prop where
  task : ∀ t, v.signal t ≠ none ↔ k.task t ≠ none
  alive : ∀ t T, k.task t = some T → T.alive = true
  bounded : ∃ n, ∀ t, n ≤ t → k.task t = none
  arrays : ∀ t u x T U, v.signal t = some x → v.signal u = some x →
    k.task t = some T → k.task u = some U → T.kvStore = U.kvStore ∧ T.kvLocks = U.kvLocks

/-- The two allocations return memory that is not in use, or fail. -/
structure MayReturn (k : Ledger) (storeMem locksMem : Option Nat) : Prop where
  store : ∀ a, storeMem = some a → k.heads a = none
  locks : ∀ l, locksMem = some l → k.locks l = none

section

variable {v v' : View Nat} {k k' : Ledger} {storeMem locksMem : Option Nat}

/-- Memory given, `init_task_kv_store` always comes to an end, and it touches no other task. -/
theorem initTaskKvStore_total (hmem : MayReturn k storeMem locksMem) (p : TaskStruct) :
    ∃ q k', k.initTaskKvStore p storeMem locksMem = some (q, k') ∧ q.alive = p.alive ∧
      k'.task = k.task := by
  unfold Ledger.initTaskKvStore
  cases storeMem with
  | none => exact ⟨_, _, rfl, rfl, rfl⟩
  | some a =>
    simp only [hmem.store a rfl, if_true]
    cases locksMem with
    | none => exact ⟨_, _, rfl, rfl, rfl⟩
    | some l =>
      simp only [hmem.locks l rfl, if_true]
      exact ⟨_, _, rfl, rfl, rfl⟩

/-- A task that is there, on both sides. -/
theorem Tracks.exists_task (h : Tracks v k) {t : Nat} (ht : v.signal t ≠ none) :
    ∃ T, k.task t = some T ∧ T.alive = true := by
  obtain ⟨T, hT⟩ := Option.ne_none_iff_exists'.mp ((h.task t).mp ht)
  exact ⟨T, hT, h.alive t T hT⟩

/-- An error behind the store's initialisation: the arrays may stay, the tasks are as before. -/
theorem Tracks.late (h : Tracks v k) {i : Nat} (hi : v.signal i ≠ none) (thread : Bool)
    (hmem : MayReturn k storeMem locksMem) :
    ∃ pid k', ledgerStep k (.copyProcess i thread pid .late storeMem locksMem) = some k' ∧
      k'.task = k.task := by
  obtain ⟨cur, hcur, halive⟩ := h.exists_task hi
  obtain ⟨n, hn⟩ := h.bounded
  obtain ⟨q, k', hinit, -, htask⟩ := initTaskKvStore_total hmem cur
  have hfree : k.task n = none := hn n (Nat.le_refl n)
  cases thread with
  | true => exact ⟨n, k, by simp [ledgerStep, Ledger.copyProcess, hcur, hfree, halive], rfl⟩
  | false =>
    exact ⟨n, k', by simp [ledgerStep, Ledger.copyProcess, hcur, hfree, halive, hinit], htask⟩

/-- `do_exit` and `free_task`. -/
theorem Tracks.exit (h : Tracks v k) (i : Nat) :
    ∃ k', Reach ledgerStep (fun _ _ => True) k k' ∧
      Tracks ⟨Function.update v.signal i none, v.making⟩ k' := by
  -- the task is gone, after however many steps
  have htracks : Tracks ⟨Function.update v.signal i none, v.making⟩
      { k with task := Function.update k.task i none } := by
    have hold : ∀ {t x}, Function.update v.signal i none t = some x → v.signal t = some x := by
      intro t x ht
      by_cases hti : t = i
      · rw [hti, Function.update_self] at ht
        cases ht
      · rwa [Function.update_of_ne hti] at ht
    have holdTask : ∀ {t T}, Function.update k.task i none t = some T → k.task t = some T := by
      intro t T ht
      by_cases hti : t = i
      · rw [hti, Function.update_self] at ht
        cases ht
      · rwa [Function.update_of_ne hti] at ht
    obtain ⟨n, hn⟩ := h.bounded
    refine ⟨fun t => ?_, fun t T ht => h.alive t T (holdTask ht), ⟨n, fun t ht => ?_⟩,
      fun t u x T U ht hu hT hU =>
        h.arrays t u x T U (hold ht) (hold hu) (holdTask hT) (holdTask hU)⟩
    · by_cases hti : t = i
      · simp [hti]
      · simpa [hti] using h.task t
    · by_cases hti : t = i
      · simp [hti]
      · simpa [hti] using hn t ht
  -- an exit of nobody does nothing; otherwise there are two steps, `do_exit` and `free_task`
  by_cases hi : v.signal i = none
  · have hnone : k.task i = none := not_not.mp fun hne => (h.task i).mpr hne hi
    rw [← hnone, Function.update_eq_self] at htracks
    exact ⟨k, .refl, htracks⟩
  · obtain ⟨T, hT, halive⟩ := h.exists_task hi
    have hexit : ledgerStep k (.exit i) =
        some { k with task := Function.update k.task i (some { T with alive := false }) } := by
      simp [ledgerStep, Ledger.exit, hT, halive]
    refine ⟨_, .tail (.single trivial hexit) trivial (l := .freeTask i) ?_, htracks⟩
    simp [ledgerStep, Ledger.freeTask]

/-- A task with the creator's arrays and signal struct, or one whose signal struct nobody has. -/
theorem Tracks.new (h : Tracks v k) {child : Nat} {signal : Option Nat} {p : TaskStruct}
    {making : Nat → Option (Bool × Milestone)} (hk : k'.task = k.task) (halive : p.alive = true)
    (harrays : ∀ j T, v.signal j = some signal → k.task j = some T →
      p.kvStore = T.kvStore ∧ p.kvLocks = T.kvLocks) :
    Tracks ⟨Function.update v.signal child (some signal), making⟩
      { k' with task := Function.update k'.task child (some p) } := by
  rw [hk]
  obtain ⟨n, hn⟩ := h.bounded
  refine ⟨fun t => ?_, fun t T hT => ?_, ⟨max n (child + 1), fun t ht => ?_⟩,
    fun t u x T U ht hu hT hU => ?_⟩
  -- the tasks are the same: the new one is on both sides
  · by_cases htc : t = child
    · simp [htc]
    · simpa [htc] using h.task t
  -- all of them are alive
  · dsimp only at hT
    rcases Table.of_update_eq_some hT with ⟨-, rfl⟩ | ⟨-, hT⟩
    · exact halive
    · exact h.alive t T hT
  -- and have numbers below some bound
  · have htc : t ≠ child := by omega
    simpa [htc] using hn t (by omega)
  -- two tasks with one signal struct, of which one may be new
  · dsimp only at ht hu hT hU
    rcases Table.of_update_eq_some ht with ⟨htc, hx⟩ | ⟨htc, ht⟩ <;>
      rcases Table.of_update_eq_some hu with ⟨huc, hy⟩ | ⟨huc, hu⟩
    · rw [htc, Function.update_self] at hT
      rw [huc, Function.update_self] at hU
      cases hT
      cases hU
      exact ⟨rfl, rfl⟩
    · rw [htc, Function.update_self] at hT
      rw [Function.update_of_ne huc] at hU
      cases hT
      rw [hx] at hu
      exact harrays u U hu hU
    · rw [huc, Function.update_self] at hU
      rw [Function.update_of_ne htc] at hT
      cases hU
      rw [hy] at ht
      have hsame := harrays t T ht hT
      exact ⟨hsame.1.symm, hsame.2.symm⟩
    · rw [Function.update_of_ne htc] at hT
      rw [Function.update_of_ne huc] at hU
      exact h.arrays t u x T U ht hu hT hU

/-- A new task, with its creator's arrays or with what `init_task_kv_store` made of them. -/
theorem Tracks.attach (h : Tracks v k) {i child : Nat} {thread : Bool} {signal : Option Nat}
    {making : Nat → Option (Bool × Milestone)} (hi : v.signal i ≠ none)
    (hchild : v.signal child = none)
    (hthread : thread = true → v.signal i = some signal)
    (hprocess : thread = false → ∀ j, v.signal j ≠ some signal)
    (hmem : MayReturn k storeMem locksMem) :
    ∃ k', ledgerStep k (.copyProcess i thread child .ok storeMem locksMem) = some k' ∧
      Tracks ⟨Function.update v.signal child (some signal), making⟩ k' := by
  obtain ⟨cur, hcur, halive⟩ := h.exists_task hi
  have hfree : k.task child = none := not_not.mp fun hne => (h.task child).mpr hne hchild
  cases thread with
  | true =>
    refine ⟨{ k with task := Function.update k.task child (some cur) }, ?_,
      h.new rfl halive fun j T hj hT => h.arrays i j signal cur T (hthread rfl) hj hcur hT⟩
    simp only [ledgerStep, Ledger.copyProcess, hcur, hfree]
    rw [if_pos halive, if_pos trivial]
  | false =>
    obtain ⟨q, k', hinit, hq, htask⟩ := initTaskKvStore_total hmem cur
    refine ⟨{ k' with task := Function.update k'.task child (some q) }, ?_,
      h.new htask (hq.trans halive) fun j T hj => absurd hj (hprocess rfl j)⟩
    simp [ledgerStep, Ledger.copyProcess, hcur, hfree, halive, hinit]

/-- **One step, in the ledger**, whatever the two allocations return there. -/
theorem Tracks.turn (h : Tracks v k) (hturn : Turn v v') (hmem : MayReturn k storeMem locksMem) :
    ∃ k', Reach ledgerStep (fun _ _ => True) k k' ∧ Tracks v' k' := by
  cases hturn with
  | stay => exact ⟨k, .refl, h⟩
  | exit i hidle => exact h.exit i
  | dup i thread hi hidle => exact ⟨k, .refl, h.task, h.alive, h.bounded, h.arrays⟩
  | next i thread m m' hi hnext => exact ⟨k, .refl, h.task, h.alive, h.bounded, h.arrays⟩
  | giveUp i thread m hi hmaking =>
    -- with the arrays initialised a failure is a step of the ledger, before that it is none
    by_cases hm : m = .initTaskKvStore
    · obtain ⟨pid, k', hstep, htask⟩ := h.late hi thread hmem
      refine ⟨k', .single trivial hstep, ?_, ?_, ?_, ?_⟩ <;> rw [htask]
      · exact h.task
      · exact h.alive
      · exact h.bounded
      · exact h.arrays
    · exact ⟨k, .refl, h.task, h.alive, h.bounded, h.arrays⟩
  | attach i child thread signal hmaking hi hchild hthread hprocess =>
    obtain ⟨k', hstep, h'⟩ := h.attach hi hchild hthread hprocess hmem
    exact ⟨k', .single trivial hstep, h'⟩

/-- **The ledger goes along with every run.** -/
theorem ledger_of_fork {P : Population Nat} (hroot : P.tasks = {0}) {s : Sys Nat}
    (hreach : Reach Sys.step (fun _ _ => True) (Sys.start P) s) :
    ∃ k, Reach ledgerStep (fun _ _ => True) ledgerInit k ∧ Tracks s.view k := by
  have hinit : Tracks (Sys.start P).view ledgerInit := by
    have htask : ∀ {t T}, ledgerInit.task t = some T → T = ⟨true, none, none⟩ := by
      intro t T hT
      simp only [ledgerInit] at hT
      exact ((Table.of_update_eq_some hT).resolve_right (by simp)).2
    -- at the beginning there is one task, without arrays
    refine ⟨fun t => ?_, fun t T hT => ?_, ⟨1, fun t ht => ?_⟩, fun t u x T U ht hu hT hU => ?_⟩
    · by_cases ht : t = 0 <;> simp [Sys.view, Sys.start, hroot, ledgerInit, ht]
    · rw [htask hT]
    · have hne : t ≠ 0 := by omega
      simp [ledgerInit, hne]
    · rw [htask hT, htask hU]
      exact ⟨rfl, rfl⟩
  induction hreach with
  | refl => exact ⟨ledgerInit, .refl, hinit⟩
  | tail ht _ hstep ih =>
    obtain ⟨k, hk, htracks⟩ := ih
    -- the allocations may just as well fail
    have hnone : MayReturn k none none := ⟨by rintro _ ⟨⟩, by rintro _ ⟨⟩⟩
    obtain ⟨k', hk', htracks'⟩ := htracks.turn (turn_of_step (Sys.Inv.of_reach ht) hstep) hnone
    exact ⟨k', hk.trans hk', htracks'⟩

end

end OsHomework.Fork
