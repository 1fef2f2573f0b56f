import Mathlib.Logic.Function.Basic

/-!
# Fairness — `configure_socket_fairness` and the creation of tasks

Any number of calls of `configure_socket_fairness` run concurrently, one operation at a time: the
checks, `task_lock`, the two stores, `task_unlock`. In between tasks are created by `copy_process`:
`dup_task_struct` copies all fields of the creator, also in the middle of an update and with the
lock in whatever state, then the three fields are reset, the lock is initialised, and only
`attach_pid` makes the task known to `find_task_by_vpid`.

`copy_process` has stages here only where one of the fields changes; `Fork.Views` shows that this is
what remains of all of them.

* **`Call.step`**, **`Entry.copyProcess`** — the operations of the two.
* **`CallMove`**, **`Move`** — what one operation can do, to its call and to the system.
-/

namespace OsHomework.Fairness

/-! ## Tasks

The lock of a task is one of its fields, with the number of the call that holds it. A task is known
by its address, and what `copy_process` has done to it so far is kept next to it. Tasks are not
freed here: what a call does to a task that exits under its hands is not the subject. -/

/-- The fields of `task_struct` that matter: `signal` is the address of the `signal_struct` that the
threads of a group share, `allocLock` the call that holds the lock. -/
structure Task where
  maxSocketAllowed : Int
  priorityLevel : Int
  socketCount : Int
  signal : Nat
  allocLock : Option Nat
  deriving DecidableEq

def Task.pair (t : Task) : Int × Int := (t.maxSocketAllowed, t.priorityLevel)

/-- How far `copy_process` has come with a task: what it did last. -/
inductive Stage where
  | dupTaskStruct
  | resetFields
  | spinLockInit
  | copySignal
  | attachPid
  deriving DecidableEq

/-- A task and its creation. The last two fields are kept for the theorems only: whether a call has
written the task since it was created, and which one released its lock last. -/
structure Entry where
  task : Task
  stage : Stage
  updated : Bool
  lastReleaser : Option Nat
  deriving DecidableEq

/-- The creation of the task is complete. -/
def Entry.Attached (e : Entry) : Prop := e.stage = .attachPid

instance (e : Entry) : Decidable e.Attached := inferInstanceAs (Decidable (_ = _))

/-- The next thing `copy_process` does with the task at `p`, up to `attach_pid`. -/
def Entry.copyProcess (p : Nat) (cloneThread : Bool) (e : Entry) : Option Entry :=
  match e.stage with
  | .dupTaskStruct => some { e with
      task := { e.task with maxSocketAllowed := 0, priorityLevel := 0, socketCount := 0 }
      stage := .resetFields }
  | .resetFields =>
    some { e with task := { e.task with allocLock := none }, stage := .spinLockInit }
  | .spinLockInit =>
    -- without CLONE_THREAD the task gets a `signal_struct` of its own
    some { e with
      task := { e.task with signal := if cloneThread then e.task.signal else p }
      stage := .copySignal }
  | .copySignal => none
  | .attachPid => none

/-! ## Calls

`configure_socket_fairness` is cut at every access to shared memory. The two stores are separate
steps, so a copy or another call can come between them. `find_task_by_vpid` and the check of the
permission come before the lock, as in the source; what they found is only known to have been true
then. -/

structure Args where
  caller : Nat
  pid : Int
  maxSocketAllowed : Int
  priorityLevel : Int
  deriving DecidableEq

def Args.pair (a : Args) : Int × Int := (a.maxSocketAllowed, a.priorityLevel)

def Args.Valid (a : Args) : Prop := 0 ≤ a.maxSocketAllowed ∧ 0 ≤ a.priorityLevel

/-- Where a call stands: before the named operation, on the task found. -/
inductive Pc where
  | validate
  | findTask
  | permission (t : Nat)
  | taskLock (t : Nat)
  | setMaxSocketAllowed (t : Nat)
  | setPriorityLevel (t : Nat)
  | taskUnlock (t : Nat)
  | ret (r : Int)
  deriving DecidableEq

/-- A call: what `capable` answered, and, for the theorems only, the tasks it has changed. -/
structure Call where
  args : Args
  pc : Pc
  capable : Bool
  changed : List Nat
  deriving DecidableEq

abbrev Tasks := Nat → Option Entry

/-- The operation of call `c` at its program counter; `capable` is what `capable(CAP_SYS_ADMIN)`
answers. -/
def Call.step (c : Nat) (capable : Bool) (pidTask : Int → Option Nat) (tasks : Tasks) (k : Call) :
    Option (Call × Tasks) :=
  match k.pc with
  | .validate =>
    if k.args.maxSocketAllowed < 0 ∨ k.args.priorityLevel < 0 then
      some ({ k with pc := .ret (-22) }, tasks)
    else some ({ k with pc := .findTask }, tasks)
  | .findTask =>
    match pidTask k.args.pid with
    | none => some ({ k with pc := .ret (-3) }, tasks)
    | some t => some ({ k with pc := .permission t }, tasks)
  | .permission t => do
    let current ← tasks k.args.caller
    let e ← tasks t
    if capable = false ∧ current.task.signal ≠ e.task.signal then
      some ({ k with pc := .ret (-1) }, tasks)
    else some ({ k with pc := .taskLock t, capable := capable }, tasks)
  | .taskLock t => do
    let e ← tasks t
    -- spins until the lock is free
    if e.task.allocLock = none then
      some ({ k with pc := .setMaxSocketAllowed t, changed := t :: k.changed },
        Function.update tasks t (some { e with task := { e.task with allocLock := some c } }))
    else none
  | .setMaxSocketAllowed t => do
    let e ← tasks t
    some ({ k with pc := .setPriorityLevel t }, Function.update tasks t (some { e with
      task := { e.task with maxSocketAllowed := k.args.maxSocketAllowed }, updated := true }))
  | .setPriorityLevel t => do
    let e ← tasks t
    some ({ k with pc := .taskUnlock t }, Function.update tasks t (some { e with
      task := { e.task with priorityLevel := k.args.priorityLevel }, updated := true }))
  | .taskUnlock t => do
    let e ← tasks t
    some ({ k with pc := .ret 0 }, Function.update tasks t (some { e with
      task := { e.task with allocLock := none }, lastReleaser := some c }))
  | .ret _ => none

/-! ## The system

Creations of tasks are not tied to calls: `dup_task_struct` may copy any attached task at any
moment, and the following operations of `copy_process` come one at a time, in order, with anything
in between. `badFork` stands for all error labels, at any stage in front of `attach_pid`. -/

/-- Tasks by address, what `find_task_by_vpid` knows, and the calls. -/
structure Sys where
  tasks : Tasks
  pidTask : Int → Option Nat
  calls : Nat → Option Call

/-- `init_task`, whose fields are zero as those of every static object. -/
def initTask : Entry := ⟨⟨0, 0, 0, 0, none⟩, .attachPid, false, none⟩

/-- `init_task` is there and cannot be found by a pid. -/
def Sys.init : Sys where
  tasks := Function.update (fun _ => none) 0 (some initTask)
  pidTask := fun _ => none
  calls := fun _ => none

inductive Label where
  | invoke (c : Nat) (args : Args)
  | run (c : Nat) (capable : Bool)
  | dupTaskStruct (current p : Nat)
  | copyProcess (p : Nat) (cloneThread : Bool)
  | attachPid (p : Nat) (pid : Int)
  | badFork (p : Nat)
  deriving DecidableEq

def Sys.step (s : Sys) : Label → Option Sys
  | .invoke c args => do
    let current ← s.tasks args.caller
    if current.Attached ∧ s.calls c = none then
      some { s with calls := Function.update s.calls c (some ⟨args, .validate, false, []⟩) }
    else none
  | .run c capable => do
    let k ← s.calls c
    let (k', tasks') ← k.step c capable s.pidTask s.tasks
    some { s with tasks := tasks', calls := Function.update s.calls c (some k') }
  | .dupTaskStruct current p => do
    let cur ← s.tasks current
    if cur.Attached ∧ s.tasks p = none then
      some { s with
        tasks := Function.update s.tasks p (some ⟨cur.task, .dupTaskStruct, false, none⟩) }
    else none
  | .copyProcess p cloneThread => do
    let e ← s.tasks p
    let e' ← e.copyProcess p cloneThread
    some { s with tasks := Function.update s.tasks p (some e') }
  | .attachPid p pid => do
    let e ← s.tasks p
    if e.stage = .copySignal ∧ s.pidTask pid = none then
      some { s with
        tasks := Function.update s.tasks p (some { e with stage := .attachPid })
        pidTask := Function.update s.pidTask pid (some p) }
    else none
  | .badFork p => do
    -- one of the error labels: nobody has seen the task yet
    let e ← s.tasks p
    if e.Attached then none else some { s with tasks := Function.update s.tasks p none }

/-! ## What one operation can do

The step function takes the state apart in the order of the program; proofs want it the other way
round, with a case for each thing that can happen and the facts that hold then. The two relations
are that, and every proof about the system goes through them. -/

/-- Everything one operation of call `c` can do. -/
inductive CallMove (c : Nat) (pidTask : Int → Option Nat) (tasks : Tasks) (k : Call) :
    Call → Tasks → Prop where
  | invalid (hpc : k.pc = .validate) : CallMove c pidTask tasks k { k with pc := .ret (-22) } tasks
  | valid (hpc : k.pc = .validate) (hvalid : k.args.Valid) :
      CallMove c pidTask tasks k { k with pc := .findTask } tasks
  | noTask (hpc : k.pc = .findTask) : CallMove c pidTask tasks k { k with pc := .ret (-3) } tasks
  | found (t : Nat) (hpc : k.pc = .findTask) (hpid : pidTask k.args.pid = some t) :
      CallMove c pidTask tasks k { k with pc := .permission t } tasks
  | denied (t : Nat) (hpc : k.pc = .permission t) :
      CallMove c pidTask tasks k { k with pc := .ret (-1) } tasks
  | allowed (t : Nat) (capable : Bool) (current e : Entry) (hpc : k.pc = .permission t)
      (hcurrent : tasks k.args.caller = some current) (he : tasks t = some e)
      (hallowed : capable = true ∨ current.task.signal = e.task.signal) :
      CallMove c pidTask tasks k { k with pc := .taskLock t, capable := capable } tasks
  | lock (t : Nat) (e : Entry) (hpc : k.pc = .taskLock t) (he : tasks t = some e)
      (hfree : e.task.allocLock = none) :
      CallMove c pidTask tasks k
        { k with pc := .setMaxSocketAllowed t, changed := t :: k.changed }
        (Function.update tasks t (some { e with task := { e.task with allocLock := some c } }))
  | storeMax (t : Nat) (e : Entry) (hpc : k.pc = .setMaxSocketAllowed t) (he : tasks t = some e) :
      CallMove c pidTask tasks k { k with pc := .setPriorityLevel t }
        (Function.update tasks t (some { e with
          task := { e.task with maxSocketAllowed := k.args.maxSocketAllowed }, updated := true }))
  | storePriority (t : Nat) (e : Entry) (hpc : k.pc = .setPriorityLevel t)
      (he : tasks t = some e) :
      CallMove c pidTask tasks k { k with pc := .taskUnlock t }
        (Function.update tasks t (some { e with
          task := { e.task with priorityLevel := k.args.priorityLevel }, updated := true }))
  | unlock (t : Nat) (e : Entry) (hpc : k.pc = .taskUnlock t) (he : tasks t = some e) :
      CallMove c pidTask tasks k { k with pc := .ret 0 }
        (Function.update tasks t (some { e with
          task := { e.task with allocLock := none }, lastReleaser := some c }))

theorem callMove_of_step {c : Nat} {capable : Bool} {pidTask : Int → Option Nat}
    {tasks tasks' : Tasks} {k k' : Call} (h : k.step c capable pidTask tasks = some (k', tasks')) :
    CallMove c pidTask tasks k k' tasks' := by
  unfold Call.step at h
  split at h
  · next hpc =>
    split at h
    · cases h
      exact .invalid hpc
    · next hvalid =>
      cases h
      refine .valid hpc ?_
      unfold Args.Valid
      omega
  · next hpc =>
    split at h
    · cases h
      exact .noTask hpc
    · next t hpid =>
      cases h
      exact .found t hpc hpid
  · next t hpc =>
    obtain ⟨current, hcurrent, h⟩ := Option.bind_eq_some_iff.mp h
    obtain ⟨e, he, h⟩ := Option.bind_eq_some_iff.mp h
    split at h
    · cases h
      exact .denied t hpc
    · next hallowed =>
      cases h
      refine .allowed t capable current e hpc hcurrent he ?_
      cases capable with
      | true => exact Or.inl rfl
      | false => exact Or.inr (not_not.mp fun hne => hallowed ⟨rfl, hne⟩)
  · next t hpc =>
    obtain ⟨e, he, h⟩ := Option.bind_eq_some_iff.mp h
    split at h
    · next hfree =>
      cases h
      exact .lock t e hpc he hfree
    · cases h
  · next t hpc =>
    obtain ⟨e, he, h⟩ := Option.bind_eq_some_iff.mp h
    cases h
    exact .storeMax t e hpc he
  · next t hpc =>
    obtain ⟨e, he, h⟩ := Option.bind_eq_some_iff.mp h
    cases h
    exact .storePriority t e hpc he
  · next t hpc =>
    obtain ⟨e, he, h⟩ := Option.bind_eq_some_iff.mp h
    cases h
    exact .unlock t e hpc he
  · cases h

/-- Everything one step of the system can do. -/
inductive Move (s : Sys) : Sys → Prop where
  | invoke (c : Nat) (args : Args) (current : Entry) (hcurrent : s.tasks args.caller = some current)
      (hattached : current.Attached) (hfree : s.calls c = none) :
      Move s { s with calls := Function.update s.calls c (some ⟨args, .validate, false, []⟩) }
  | call (c : Nat) (k k' : Call) (tasks' : Tasks) (hk : s.calls c = some k)
      (hmove : CallMove c s.pidTask s.tasks k k' tasks') :
      Move s { s with tasks := tasks', calls := Function.update s.calls c (some k') }
  | dup (p : Nat) (t : Task) (hp : s.tasks p = none) :
      Move s { s with
        tasks := Function.update s.tasks p (some ⟨t, .dupTaskStruct, false, none⟩) }
  | copy (p : Nat) (cloneThread : Bool) (e e' : Entry) (he : s.tasks p = some e)
      (hcopy : e.copyProcess p cloneThread = some e') :
      Move s { s with tasks := Function.update s.tasks p (some e') }
  | attach (p : Nat) (pid : Int) (e : Entry) (he : s.tasks p = some e)
      (hstage : e.stage = .copySignal) :
      Move s { s with
        tasks := Function.update s.tasks p (some { e with stage := .attachPid })
        pidTask := Function.update s.pidTask pid (some p) }
  | badFork (p : Nat) (e : Entry) (he : s.tasks p = some e) (hhidden : ¬ e.Attached) :
      Move s { s with tasks := Function.update s.tasks p none }

theorem move_of_step {s s' : Sys} {l : Label} (h : s.step l = some s') : Move s s' := by
  cases l with
  | invoke c args =>
    obtain ⟨current, hcurrent, h⟩ := Option.bind_eq_some_iff.mp h
    obtain ⟨⟨hattached, hfree⟩, h⟩ := Option.ite_none_right_eq_some.mp h
    cases h
    exact .invoke c args current hcurrent hattached hfree
  | run c capable =>
    obtain ⟨k, hk, h⟩ := Option.bind_eq_some_iff.mp h
    obtain ⟨⟨k', tasks'⟩, hstep, h⟩ := Option.bind_eq_some_iff.mp h
    cases h
    exact .call c k k' tasks' hk (callMove_of_step hstep)
  | dupTaskStruct current p =>
    obtain ⟨cur, -, h⟩ := Option.bind_eq_some_iff.mp h
    obtain ⟨⟨-, hp⟩, h⟩ := Option.ite_none_right_eq_some.mp h
    cases h
    exact .dup p cur.task hp
  | copyProcess p cloneThread =>
    obtain ⟨e, he, h⟩ := Option.bind_eq_some_iff.mp h
    obtain ⟨e', hcopy, h⟩ := Option.bind_eq_some_iff.mp h
    cases h
    exact .copy p cloneThread e e' he hcopy
  | attachPid p pid =>
    obtain ⟨e, he, h⟩ := Option.bind_eq_some_iff.mp h
    obtain ⟨⟨hstage, -⟩, h⟩ := Option.ite_none_right_eq_some.mp h
    cases h
    exact .attach p pid e he hstage
  | badFork p =>
    obtain ⟨e, he, h⟩ := Option.bind_eq_some_iff.mp h
    obtain ⟨hhidden, h⟩ := Option.ite_none_left_eq_some.mp h
    cases h
    exact .badFork p e he hhidden

end OsHomework.Fairness
