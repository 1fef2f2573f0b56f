import OsHomework.Lib.Counted

/-!
# Fork — `copy_process` and `ksys_unshare` as step machines over reference counts

`copy_process` builds a task in some thirty stages. Most of them take a reference to an object of
the creator or make a new object; each can fail, and then jumps to the label behind which everything
taken so far is given back. `ksys_unshare` does the same for the calling task itself. Any number of
tasks are in these calls at the same time, and one stage or one label is one step.

A task is known by its pointers, one for each `Slot`. The new task's are a copy of the creator's
(`*dst = *src` in `arch_dup_task_struct`) until the stage for the slot has run, so at the labels the
order is everything: an object that is put too early is the creator's.

* **`Stage.run`** — the stages up to the one that makes the task visible, `Stage.fail` the label
  each of them jumps to.
* **`Label.drop`** — what is given back at a label, `Label.next` the label behind it.
* **`unshareStep`** — `ksys_unshare`, with `unshare_fs` and `unshare_fd`.
* **`Sys.step`** — all of it at once, and tasks that exit.

Callees in other files answer through `Env`. The key-value arrays and the socket limits are not
counted and have models of their own, of which `Fork.Views` shows that they go along with this one.
Error codes are left out, and what has no slot: fields that own nothing, and of those that do the
System V undo list, the seccomp filter, the tty of a signal struct and the cpu mask.
-/

namespace OsHomework.Fork

open Counted

/-! ## Objects

An object is known by its kind and its address, and the kind is the slot it is made for. The counts
of all objects are in one heap, which also records that something has gone wrong: a reference taken
to an object that was freed, one given back that nobody has, a null pointer dereferenced. Slots that
only a call uses, such as the descriptor of a pidfd, are treated like the fields of a task. -/

/-- The places of a task, and of a call that makes one, that hold a reference. -/
inductive Slot where
  | delayed | taskStruct | stack | cred | nproc | delays | mempolicy | perf | audit | security
  | files | fs | sighand | signal | mm | nsproxy | ioContext | thread | pid
  | fd | pidfile | pidRef | cgroup
  deriving DecidableEq

/-- An object: its kind and its address. -/
abbrev Obj := Slot × Nat

/-- The object a slot points to. A pidfd's file refers to the same `struct pid` the task does. -/
def Slot.obj : Slot → Nat → Obj
  | .pidRef, a => (.pid, a)
  | s, a => (s, a)

/-- The pointers of a task; `none` is the null pointer. -/
abbrev Ptrs := Slot → Option Nat

abbrev Refs := Heap Obj

/-- The slots that are fields of `task_struct`, or the task itself; the rest belong to the call. -/
def Slot.inTask : Slot → Bool
  | .delayed | .fd | .pidfile | .pidRef | .cgroup => false
  | _ => true

/-- The flags `copy_process` and `ksys_unshare` look at. `newOther` stands for the namespaces that
make no further difference, `unknown` for bits `unshare` does not accept. -/
structure CloneFlags where
  vm : Bool
  fs : Bool
  files : Bool
  sighand : Bool
  pidfd : Bool
  parent : Bool
  thread : Bool
  newns : Bool
  detached : Bool
  io : Bool
  newuser : Bool
  newpid : Bool
  newOther : Bool
  unknown : Bool
  deriving DecidableEq

/-- What the rest of the kernel answers at a step: whether a check or a callee that takes nothing
succeeds, the address of what a callee allocates (`none` if it fails), whether a callee of another
file takes a reference to the creator's object instead of making a new one, and where a new task
goes. -/
structure Env (I : Type*) where
  ok : Bool
  mem : Option Nat
  share : Bool
  threadGroupEmpty : Bool
  singleThreaded : Bool
  child : I

/-! ## The stages of `copy_process`

Each stage returns whether it succeeds, with the pointers and the heap after it. A callee of this
file is written out; of a callee of another file only what it does to the slot is known, and `Env`
says which of the possibilities happens. The order in which a callee clears the copied pointer
matters: `copy_fs`, for instance, is left with the creator's pointer if it fails before it has
assigned its own, and the label it jumps to must not put that one. -/

/-- A null pointer is dereferenced. -/
def oops (h : Refs) : Refs := { h with fault := true }

/-- A callee that allocates into the slot `s`. -/
def create (s : Slot) (mem : Option Nat) (p : Ptrs) (h : Refs) : Option (Bool × Ptrs × Refs) :=
  match mem with
  | none => some (false, p, h)
  | some a => (h.new (s.obj a)).map fun h => (true, Function.update p s (some a), h)

/-- A callee that may have nothing to allocate. -/
def createOpt (s : Slot) (mem : Option Nat) (p : Ptrs) (h : Refs) : Option (Bool × Ptrs × Refs) :=
  match mem with
  | none => some (true, Function.update p s none, h)
  | some a => create s (some a) p h

/-- Another reference to what `s` points to. -/
def getRef (s : Slot) (p : Ptrs) (h : Refs) : Refs :=
  match p s with
  | none => oops h
  | some x => h.inc (s.obj x)

/-- `arch_dup_task_struct`: `*dst = *src`, and the stack is put back. -/
def archDupTaskStruct (cur p : Ptrs) : Ptrs := fun s =>
  match s with
  | .taskStruct | .stack => p s
  | s => if s.inTask then cur s else p s

/-- `copy_creds`, of another file: threads share, unless they have keyrings of their own. -/
def copyCreds (share : Bool) (mem : Option Nat) (p : Ptrs) (h : Refs) :
    Option (Bool × Ptrs × Refs) :=
  if share then some (true, p, getRef .cred p h) else create .cred mem p h

/-- `mpol_dup(p->mempolicy)`; with an error the pointer is set to NULL. -/
def mpolDup (mem : Option Nat) (p : Ptrs) (h : Refs) : Option (Bool × Ptrs × Refs) :=
  match p .mempolicy with
  | none => some (true, p, h)
  | some _ => create .mempolicy mem (Function.update p .mempolicy none) h

def copyFiles (flags : CloneFlags) (mem : Option Nat) (cur p : Ptrs) (h : Refs) :
    Option (Bool × Ptrs × Refs) :=
  match cur .files with
  | none => some (true, p, h)
  | some oldf =>
    if flags.files then some (true, p, h.inc (Slot.files.obj oldf)) else create .files mem p h

/-- `copy_fs`; `ok` is `!fs->in_exec`. -/
def copyFs (flags : CloneFlags) (ok : Bool) (mem : Option Nat) (cur p : Ptrs) (h : Refs) :
    Option (Bool × Ptrs × Refs) :=
  match cur .fs with
  | none => some (true, p, oops h)
  | some fs =>
    if flags.fs then
      if ok then some (true, p, h.inc (Slot.fs.obj fs)) else some (false, p, h)
    else create .fs mem (Function.update p .fs none) h

def copySighand (flags : CloneFlags) (mem : Option Nat) (cur p : Ptrs) (h : Refs) :
    Option (Bool × Ptrs × Refs) :=
  if flags.sighand then
    match cur .sighand with
    | none => some (true, p, oops h)
    | some sighand => some (true, p, h.inc (Slot.sighand.obj sighand))
  else create .sighand mem (Function.update p .sighand none) h

def copySignal (flags : CloneFlags) (mem : Option Nat) (p : Ptrs) (h : Refs) :
    Option (Bool × Ptrs × Refs) :=
  if flags.thread then some (true, p, h)
  else create .signal mem (Function.update p .signal none) h

def copyMm (flags : CloneFlags) (mem : Option Nat) (cur p : Ptrs) (h : Refs) :
    Option (Bool × Ptrs × Refs) :=
  let p := Function.update p .mm none
  match cur .mm with
  | none => some (true, p, h)
  | some oldmm =>
    if flags.vm then
      some (true, Function.update p .mm (some oldmm), h.inc (Slot.mm.obj oldmm))
    else create .mm mem p h

/-- `copy_namespaces`, of another file. -/
def copyNamespaces (share : Bool) (mem : Option Nat) (p : Ptrs) (h : Refs) :
    Option (Bool × Ptrs × Refs) :=
  if share then some (true, p, getRef .nsproxy p h) else create .nsproxy mem p h

/-- `copy_io`; `ok` is `ioprio_valid(ioc->ioprio)`. -/
def copyIo (flags : CloneFlags) (ok : Bool) (mem : Option Nat) (cur p : Ptrs) (h : Refs) :
    Option (Bool × Ptrs × Refs) :=
  -- `p->io_context = NULL` stands further up
  let p := Function.update p .ioContext none
  match cur .ioContext with
  | none => some (true, p, h)
  | some ioc =>
    if flags.io then
      some (true, Function.update p .ioContext (some ioc), h.inc (Slot.ioContext.obj ioc))
    else if ok then create .ioContext mem p h
    else some (true, p, h)

/-- `copy_thread`, of another file: the io bitmap is shared. -/
def copyThread (ok : Bool) (cur p : Ptrs) (h : Refs) : Option (Bool × Ptrs × Refs) :=
  let p := Function.update p .thread none
  if ok then
    match cur .thread with
    | none => some (true, p, h)
    | some bitmap =>
      some (true, Function.update p .thread (some bitmap), h.inc (Slot.thread.obj bitmap))
  else some (false, p, h)

/-- `anon_inode_getfile` for the pidfd and `get_pid`; if there is no file the descriptor is put. -/
def anonInodeGetfile (mem : Option Nat) (p : Ptrs) (h : Refs) : Option (Bool × Ptrs × Refs) :=
  match mem with
  | none =>
    match p .fd with
    | none => some (false, p, h)
    | some fd => some (false, Function.update p .fd none, h.free (Slot.fd.obj fd))
  | some a => (h.new (Slot.pidfile.obj a)).map fun h =>
    let q := Function.update p .pidfile (some a)
    match p .pid with
    | none => (true, Function.update q .pidRef none, h)
    | some pid => (true, Function.update q .pidRef (some pid), h.inc (Slot.pidRef.obj pid))

/-- The stages, each named after the call whose result it looks at. -/
inductive Stage where
  | hlistAddHead | taskSigpending
  | allocTaskStruct | allocThreadStack | memcgChargeKernelStack | archDupTaskStruct | scsPrepare
  | copyCreds | incRlimitUcounts | isUcountsOverlimit | maxThreads | delayacctTskInit | mpolDup
  | schedFork | perfEventInitTask | auditAlloc | securityTaskAlloc | copySemundo
  | copyFiles | copyFs | copySighand | copySignal | copyMm | copyNamespaces | copyIo | copyThread
  | allocPid | getUnusedFdFlags | anonInodeGetfile | putUser | cgroupCanFork
  | writeLockIrq | pidnsAdding | fatalSignalPending | attachPid | fdInstall | cgroupPostFork
  deriving DecidableEq

/-- The labels at the end of `copy_process`, and the two of `dup_task_struct`. -/
inductive Label where
  | badForkCancelCgroup | badForkPutPidfd | badForkFreePid | badForkCleanupThread
  | badForkCleanupIo | badForkCleanupNamespaces | badForkCleanupMm | badForkCleanupSignal
  | badForkCleanupSighand | badForkCleanupFs | badForkCleanupFiles | badForkCleanupSemundo
  | badForkCleanupSecurity | badForkCleanupAudit | badForkCleanupPerf | badForkCleanupPolicy
  | badForkCleanupThreadgroupLock | badForkCleanupCount | badForkFree | freeStack | freeTsk
  | forkOut
  deriving DecidableEq

/-- What follows a stage that succeeds. -/
def Stage.next : Stage → Stage
  | .hlistAddHead => .taskSigpending
  | .taskSigpending => .allocTaskStruct
  | .allocTaskStruct => .allocThreadStack
  | .allocThreadStack => .memcgChargeKernelStack
  | .memcgChargeKernelStack => .archDupTaskStruct
  | .archDupTaskStruct => .scsPrepare
  | .scsPrepare => .copyCreds
  | .copyCreds => .incRlimitUcounts
  | .incRlimitUcounts => .isUcountsOverlimit
  | .isUcountsOverlimit => .maxThreads
  | .maxThreads => .delayacctTskInit
  | .delayacctTskInit => .mpolDup
  | .mpolDup => .schedFork
  | .schedFork => .perfEventInitTask
  | .perfEventInitTask => .auditAlloc
  | .auditAlloc => .securityTaskAlloc
  | .securityTaskAlloc => .copySemundo
  | .copySemundo => .copyFiles
  | .copyFiles => .copyFs
  | .copyFs => .copySighand
  | .copySighand => .copySignal
  | .copySignal => .copyMm
  | .copyMm => .copyNamespaces
  | .copyNamespaces => .copyIo
  | .copyIo => .copyThread
  | .copyThread => .allocPid
  | .allocPid => .getUnusedFdFlags
  | .getUnusedFdFlags => .anonInodeGetfile
  | .anonInodeGetfile => .putUser
  | .putUser => .cgroupCanFork
  | .cgroupCanFork => .writeLockIrq
  | .writeLockIrq => .pidnsAdding
  | .pidnsAdding => .fatalSignalPending
  | .fatalSignalPending => .attachPid
  | .attachPid => .fdInstall
  | .fdInstall | .cgroupPostFork => .cgroupPostFork

/-- Where a stage that fails jumps to. -/
def Stage.fail : Stage → Label
  | .hlistAddHead | .taskSigpending | .allocTaskStruct => .forkOut
  | .allocThreadStack => .freeTsk
  | .memcgChargeKernelStack | .archDupTaskStruct | .scsPrepare => .freeStack
  | .copyCreds | .incRlimitUcounts => .badForkFree
  | .isUcountsOverlimit | .maxThreads | .delayacctTskInit => .badForkCleanupCount
  | .mpolDup => .badForkCleanupThreadgroupLock
  | .schedFork | .perfEventInitTask => .badForkCleanupPolicy
  | .auditAlloc => .badForkCleanupPerf
  | .securityTaskAlloc => .badForkCleanupAudit
  | .copySemundo => .badForkCleanupSecurity
  | .copyFiles => .badForkCleanupSemundo
  | .copyFs => .badForkCleanupFiles
  | .copySighand => .badForkCleanupFs
  | .copySignal => .badForkCleanupSighand
  | .copyMm => .badForkCleanupSignal
  | .copyNamespaces => .badForkCleanupMm
  | .copyIo => .badForkCleanupNamespaces
  | .copyThread => .badForkCleanupIo
  | .allocPid => .badForkCleanupThread
  | .getUnusedFdFlags | .anonInodeGetfile => .badForkFreePid
  | .putUser | .cgroupCanFork => .badForkPutPidfd
  | _ => .badForkCancelCgroup

/-- The stages up to the locked section. `initPid` says that the pid is `&init_struct_pid`. -/
def Stage.run {I : Type*} (e : Env I) (flags : CloneFlags) (initPid : Bool) (cur p : Ptrs)
    (h : Refs) : Stage → Option (Bool × Ptrs × Refs)
  | .hlistAddHead =>
    -- the node is on the stack of the call
    if flags.thread then some (true, p, h)
    -- `hlist_add_head` cannot fail
    else if e.mem = none then none else create .delayed e.mem p h
  | .allocTaskStruct => create .taskStruct e.mem p h
  | .allocThreadStack => create .stack e.mem p h
  | .archDupTaskStruct => some (e.ok, Fork.archDupTaskStruct cur p, h)
  | .copyCreds => Fork.copyCreds e.share e.mem p h
  | .incRlimitUcounts => if e.mem = none then none else create .nproc e.mem p h
  | .delayacctTskInit => createOpt .delays e.mem p h
  | .mpolDup => Fork.mpolDup e.mem p h
  | .perfEventInitTask =>
    if e.ok then createOpt .perf e.mem p h else some (false, p, h)
  | .auditAlloc => if e.ok then createOpt .audit e.mem p h else some (false, p, h)
  | .securityTaskAlloc => create .security e.mem p h
  | .copyFiles => Fork.copyFiles flags e.mem cur p h
  | .copyFs => Fork.copyFs flags e.ok e.mem cur p h
  | .copySighand => Fork.copySighand flags e.mem cur p h
  | .copySignal => Fork.copySignal flags e.mem p h
  | .copyMm => Fork.copyMm flags e.mem cur p h
  | .copyNamespaces => Fork.copyNamespaces e.share e.mem p h
  | .copyIo => Fork.copyIo flags e.ok e.mem cur p h
  | .copyThread => Fork.copyThread e.ok cur p h
  | .allocPid =>
    if initPid then some (true, Function.update p .pid none, h) else create .pid e.mem p h
  | .getUnusedFdFlags => if flags.pidfd then create .fd e.mem p h else some (true, p, h)
  | .anonInodeGetfile =>
    if flags.pidfd then Fork.anonInodeGetfile e.mem p h else some (true, p, h)
  | .putUser => some (if flags.pidfd then e.ok else true, p, h)
  | .cgroupCanFork => create .cgroup e.mem p h
  -- a check, or a callee that takes nothing the model knows of
  | _ => some (e.ok, p, h)

/-! ## The labels

The labels are one long fall-through, so a jump to one of them runs all those below it. Each gives
back the slot of one stage, the stages taken backwards. Some put a reference and let the count
decide, others free the object without looking: that is only right if nobody else can have a
reference. -/

/-- Give back what a slot points to, if anything. -/
def putSlot (s : Slot) (p : Ptrs) (h : Refs) : Refs :=
  match p s with
  | none => h
  | some x => h.put (s.obj x)

/-- Free what a slot points to, without a look at any count. -/
def freeSlot (s : Slot) (p : Ptrs) (h : Refs) : Refs :=
  match p s with
  | none => h
  | some x => h.free (s.obj x)

def Label.next : Label → Label
  | .badForkCancelCgroup => .badForkPutPidfd
  | .badForkPutPidfd => .badForkFreePid
  | .badForkFreePid => .badForkCleanupThread
  | .badForkCleanupThread => .badForkCleanupIo
  | .badForkCleanupIo => .badForkCleanupNamespaces
  | .badForkCleanupNamespaces => .badForkCleanupMm
  | .badForkCleanupMm => .badForkCleanupSignal
  | .badForkCleanupSignal => .badForkCleanupSighand
  | .badForkCleanupSighand => .badForkCleanupFs
  | .badForkCleanupFs => .badForkCleanupFiles
  | .badForkCleanupFiles => .badForkCleanupSemundo
  | .badForkCleanupSemundo => .badForkCleanupSecurity
  | .badForkCleanupSecurity => .badForkCleanupAudit
  | .badForkCleanupAudit => .badForkCleanupPerf
  | .badForkCleanupPerf => .badForkCleanupPolicy
  | .badForkCleanupPolicy => .badForkCleanupThreadgroupLock
  | .badForkCleanupThreadgroupLock => .badForkCleanupCount
  | .badForkCleanupCount => .badForkFree
  | .badForkFree => .forkOut
  | .freeStack => .freeTsk
  | .freeTsk | .forkOut => .forkOut

def Label.drop (flags : CloneFlags) (p : Ptrs) (h : Refs) : Label → Refs
  | .badForkCancelCgroup => freeSlot .cgroup p h
  | .badForkPutPidfd =>
    if flags.pidfd then
      -- `fput` frees the file, and that puts the pid
      freeSlot .fd p (putSlot .pidRef p (putSlot .pidfile p h))
    else h
  | .badForkFreePid => putSlot .pid p h
  | .badForkCleanupThread => putSlot .thread p h
  | .badForkCleanupIo => putSlot .ioContext p h
  | .badForkCleanupNamespaces => putSlot .nsproxy p h
  | .badForkCleanupMm => putSlot .mm p h
  | .badForkCleanupSignal =>
    if flags.thread then h
    else match p .signal with
      | none => oops h
      | some signal => h.free (Slot.signal.obj signal)
  | .badForkCleanupSighand =>
    match p .sighand with
    | none => oops h
    | some sighand => h.put (Slot.sighand.obj sighand)
  | .badForkCleanupFs => putSlot .fs p h
  | .badForkCleanupFiles => putSlot .files p h
  | .badForkCleanupSemundo => h
  | .badForkCleanupSecurity => freeSlot .security p h
  | .badForkCleanupAudit => freeSlot .audit p h
  | .badForkCleanupPerf => freeSlot .perf p h
  | .badForkCleanupPolicy => putSlot .mempolicy p h
  | .badForkCleanupThreadgroupLock => freeSlot .delays p h
  | .badForkCleanupCount => putSlot .cred p (freeSlot .nproc p h)
  | .badForkFree => freeSlot .taskStruct p (putSlot .stack p h)
  | .freeStack => freeSlot .stack p h
  | .freeTsk => freeSlot .taskStruct p h
  | .forkOut => freeSlot .delayed p h

/-! ## `ksys_unshare`

Four variables are filled one after the other. From `switch_task_namespaces` on they are installed
in the task, and the same labels then clean up what the task had before. For the namespaces there is
no label: `switch_task_namespaces` is the only thing that ever gives `new_nsproxy` back, and when
`set_cred_ucounts` fails it is not reached. -/

/-- Where `ksys_unshare` stands. At the labels `committed` says that they were not jumped to: the
variables then hold what the task has had before. -/
inductive UnsharePc where
  | checkUnshareFlags | unshareFs | unshareFd | unshareUserns | unshareNsproxyNamespaces
  | setCredUcounts | switchTaskNamespaces | taskLock | commitCreds
  | badUnshareCleanupCred (committed : Bool)
  | badUnshareCleanupFd (committed : Bool)
  | badUnshareCleanupFs (committed : Bool)
  | badUnshareOut
  deriving DecidableEq

structure Unshare where
  flags : CloneFlags
  newFs : Option Nat
  newFd : Option Nat
  newCred : Option Nat
  newNsproxy : Option Nat
  pc : UnsharePc

/-- What is to be unshared with what: `CLONE_NEWUSER`, `CLONE_VM`, `CLONE_SIGHAND` and `CLONE_NEWNS`
bring other flags with them. -/
def unshareFlags (flags : CloneFlags) : CloneFlags :=
  let flags := if flags.newuser then { flags with thread := true, fs := true } else flags
  let flags := if flags.vm then { flags with sighand := true } else flags
  let flags := if flags.sighand then { flags with thread := true } else flags
  if flags.newns then { flags with fs := true } else flags

def checkUnshareFlags (flags : CloneFlags) (threadGroupEmpty singleThreaded : Bool)
    (sighandCount : Option Nat) : Bool :=
  if flags.unknown then false
  else if (flags.thread || flags.sighand || flags.vm) && !threadGroupEmpty then false
  else if (flags.sighand || flags.vm) && decide (1 < sighandCount.getD 0) then false
  else if flags.vm && !singleThreaded then false
  else true

/-- The count of what a slot of the task points to. -/
def countOf (h : Refs) (cur : Ptrs) (s : Slot) : Option Nat :=
  (cur s).bind fun x => h.count (s.obj x)

/-- An object made for a variable of `ksys_unshare`. -/
def createVar (s : Slot) (mem : Option Nat) (h : Refs) : Option (Option Nat × Refs) :=
  match mem with
  | none => some (none, h)
  | some a => (h.new (s.obj a)).map fun h => (some a, h)

/-- Under `task_lock`: `--fs->users`, and the variable takes the old one if that was the last. -/
def swapFs (newFs : Option Nat) (cur : Ptrs) (h : Refs) : Option Nat × Ptrs × Refs :=
  match newFs with
  | none => (none, cur, h)
  | some new =>
    match cur .fs with
    | none => (none, cur, oops h)
    | some fs =>
      (if h.count (Slot.fs.obj fs) = some 1 then some fs else none,
        Function.update cur .fs (some new), h.dec (Slot.fs.obj fs))

/-- Under `task_lock`: the task's files and the variable change places. -/
def swapFd (newFd : Option Nat) (cur : Ptrs) : Option Nat × Ptrs :=
  match newFd with
  | none => (none, cur)
  | some new => (cur .files, Function.update cur .files (some new))

/-- A step of `ksys_unshare`; the result is what is left of the call, the task's pointers, the heap
and what nobody points to any more. -/
def unshareStep {I : Type*} (e : Env I) (cur : Ptrs) (h : Refs) (c : Unshare) :
    Option (Option Unshare × Ptrs × Refs × List Obj) :=
  match c.pc with
  | .checkUnshareFlags =>
    let ok := checkUnshareFlags c.flags e.threadGroupEmpty e.singleThreaded (countOf h cur .sighand)
    some (some { c with pc := if ok then .unshareFs else .badUnshareOut }, cur, h, [])
  | .unshareFs =>
    if c.flags.fs = false ∨ cur .fs = none ∨ countOf h cur .fs = some 1 then
      some (some { c with pc := .unshareFd }, cur, h, [])
    else (createVar .fs e.mem h).map fun (newFs, h) =>
      let pc := if newFs = none then .badUnshareOut else .unshareFd
      (some { c with newFs := newFs, pc := pc }, cur, h, [])
  | .unshareFd =>
    if c.flags.files = true ∧ 1 < (countOf h cur .files).getD 0 then
      (createVar .files e.mem h).map fun (newFd, h) =>
        let pc := if newFd = none then .badUnshareCleanupFs false else .unshareUserns
        (some { c with newFd := newFd, pc := pc }, cur, h, [])
    else some (some { c with pc := .unshareUserns }, cur, h, [])
  | .unshareUserns =>
    if c.flags.newuser then
      (createVar .cred e.mem h).map fun (newCred, h) =>
        let pc := if newCred = none then .badUnshareCleanupFd false else .unshareNsproxyNamespaces
        (some { c with newCred := newCred, pc := pc }, cur, h, [])
    else some (some { c with pc := .unshareNsproxyNamespaces }, cur, h, [])
  | .unshareNsproxyNamespaces =>
    if c.flags.newns || c.flags.newpid || c.flags.newOther then
      (createVar .nsproxy e.mem h).map fun (newNsproxy, h) =>
        let pc := if newNsproxy = none then .badUnshareCleanupCred false else .setCredUcounts
        (some { c with newNsproxy := newNsproxy, pc := pc }, cur, h, [])
    else some (some { c with pc := .setCredUcounts }, cur, h, [])
  | .setCredUcounts =>
    if c.newCred = none ∨ e.ok = true then
      some (some { c with pc := .switchTaskNamespaces }, cur, h, [])
    else some (some { c with pc := .badUnshareCleanupCred false }, cur, h, [])
  | .switchTaskNamespaces =>
    match c.newNsproxy with
    | none => some (some { c with pc := .taskLock }, cur, h, [])
    | some new =>
      some (some { c with newNsproxy := none, pc := .taskLock },
        Function.update cur .nsproxy (some new), putSlot .nsproxy cur h, [])
  | .taskLock =>
    let (newFs, cur, h) := swapFs c.newFs cur h
    let (newFd, cur) := swapFd c.newFd cur
    some (some { c with newFs := newFs, newFd := newFd, pc := .commitCreds }, cur, h, [])
  | .commitCreds =>
    match c.newCred with
    | none => some (some { c with pc := .badUnshareCleanupCred true }, cur, h, [])
    | some new =>
      some (some { c with newCred := none, pc := .badUnshareCleanupCred true },
        Function.update cur .cred (some new), putSlot .cred cur h, [])
  | .badUnshareCleanupCred committed =>
    let h := match c.newCred with
      | none => h
      | some new => h.put (Slot.cred.obj new)
    some (some { c with newCred := none, pc := .badUnshareCleanupFd committed }, cur, h, [])
  | .badUnshareCleanupFd committed =>
    let h := match c.newFd with
      | none => h
      | some fd => h.put (Slot.files.obj fd)
    some (some { c with newFd := none, pc := .badUnshareCleanupFs committed }, cur, h, [])
  | .badUnshareCleanupFs _ =>
    let h := match c.newFs with
      | none => h
      | some fs => h.free (Slot.fs.obj fs)
    some (some { c with newFs := none, pc := .badUnshareOut }, cur, h, [])
  | .badUnshareOut =>
    -- nothing gives `new_nsproxy` back
    some (none, cur, h, c.newNsproxy.toList.map Slot.nsproxy.obj)

/-! ## All tasks at once

A task is in at most one call. `tasklist_lock` is the only lock that is modelled; between
`write_lock_irq` and the end of the locked section nobody else is in that section. A new task takes
over the pointers that the call has gathered, and what is left to the call are the pidfd and the
cgroup. -/

/-- Where `copy_process` stands. -/
inductive CopyPc where
  | stage (st : Stage)
  | label (l : Label)

/-- A `copy_process` under way; `p` has the pointers of the new task and of the call. -/
structure Copy where
  flags : CloneFlags
  initPid : Bool
  p : Ptrs
  pc : CopyPc

inductive Call where
  | copy (c : Copy)
  | unshare (c : Unshare)

/-- The tasks with their pointers, the calls they are in, the holder of `tasklist_lock`, and what is
referred to from elsewhere: the files of pidfds, and what has been lost. -/
structure Sys (I : Type*) where
  heap : Refs
  task : I → Option Ptrs
  call : I → Option Call
  tasklist : Option I
  outside : List Obj

/-- The checks at the beginning of `copy_process`. -/
def copyFlagsValid (flags : CloneFlags) (unkillable pidNsDiffers timeNsDiffers : Bool) : Bool :=
  if flags.newns && flags.fs then false
  else if flags.newuser && flags.fs then false
  else if flags.thread && !flags.sighand then false
  else if flags.sighand && !flags.vm then false
  else if flags.parent && unkillable then false
  else if flags.thread && (flags.newuser || flags.newpid || pidNsDiffers) then false
  else if (flags.thread || flags.vm) && timeNsDiffers then false
  else if flags.pidfd && (flags.detached || flags.thread) then false
  else true

/-- The flags of `fork_idle`, whose pid is `&init_struct_pid`. -/
def idleFlags : CloneFlags :=
  ⟨true, false, false, false, false, false, false, false, false, false, false, false, false, false⟩

inductive SysLabel (I : Type*) where
  | copyProcess (i : I) (flags : CloneFlags) (unkillable pidNsDiffers timeNsDiffers : Bool)
  | forkIdle (i : I)
  | unshare (i : I) (flags : CloneFlags)
  | prim (i : I) (e : Env I)
  | exit (i : I)

/-- The slots of a task, in the order in which `copy_process` fills them. -/
def taskSlots : List Slot :=
  [.pid, .thread, .ioContext, .nsproxy, .mm, .signal, .sighand, .fs, .files, .security, .audit,
    .perf, .mempolicy, .delays, .nproc, .cred, .stack, .taskStruct]

/-- The objects some slots point to. -/
def objects (p : Ptrs) (slots : List Slot) : List Obj := slots.filterMap fun s => (p s).map s.obj

section

variable {I : Type*} [DecidableEq I]

def Sys.setCall (s : Sys I) (i : I) (c : Option Call) : Sys I :=
  { s with call := Function.update s.call i c }

/-- The locked section's last stage: the task becomes visible, and a thread is counted in its
group. -/
def Sys.attachPid (s : Sys I) (i child : I) (c : Copy) : Option (Sys I) :=
  match s.task child with
  | some _ => none
  | none =>
    let h := if c.flags.thread then getRef .signal c.p s.heap else s.heap
    -- `hlist_del_init(&delayed.node)`
    let h := freeSlot .delayed c.p h
    let p : Ptrs := fun t => if t.inTask then c.p t else none
    let rest : Ptrs := fun t => if t.inTask ∨ t = .delayed then none else c.p t
    some { s with
      heap := h
      task := Function.update s.task child (some p)
      call := Function.update s.call i (some (.copy { c with p := rest, pc := .stage .fdInstall }))
      tasklist := none }

def Sys.copyStep (s : Sys I) (i : I) (e : Env I) (cur : Ptrs) (c : Copy) : Option (Sys I) :=
  match c.pc with
  | .stage .writeLockIrq =>
    if s.tasklist = none then
      some { s.setCall i (some (.copy { c with pc := .stage .pidnsAdding })) with
        tasklist := some i }
    else none
  | .stage .attachPid => s.attachPid i e.child c
  | .stage .fdInstall =>
    let installed := if c.flags.pidfd then objects c.p [.pidfile, .pidRef, .fd] else []
    let p : Ptrs := fun t => if t = .cgroup then c.p t else none
    some { s.setCall i (some (.copy { c with p := p, pc := .stage .cgroupPostFork })) with
      outside := installed ++ s.outside }
  | .stage .cgroupPostFork => some { s.setCall i none with heap := freeSlot .cgroup c.p s.heap }
  -- the remaining stages differ only in what `Stage.run` does to their slot
  | .stage st =>
    (st.run e c.flags c.initPid cur c.p s.heap).map fun (ok, p, h) =>
      let pc := if ok then .stage st.next else .label st.fail
      { s.setCall i (some (.copy { c with p := p, pc := pc })) with heap := h }
  | .label .badForkCancelCgroup =>
    some { s.setCall i (some (.copy { c with pc := .label .badForkPutPidfd })) with
      heap := Label.drop c.flags c.p s.heap .badForkCancelCgroup
      tasklist := none }
  | .label .forkOut => some { s.setCall i none with heap := Label.drop c.flags c.p s.heap .forkOut }
  | .label l =>
    some { s.setCall i (some (.copy { c with pc := .label l.next })) with
      heap := l.drop c.flags c.p s.heap }

/-- `do_exit` and `__put_task_struct`, of a task that is in no call: everything is put. -/
def Sys.exit (s : Sys I) (i : I) : Option (Sys I) :=
  match s.task i, s.call i with
  | some p, none => some { s with
      heap := (objects p taskSlots).foldl Heap.put s.heap
      task := Function.update s.task i none }
  | _, _ => none

def Sys.step (s : Sys I) : SysLabel I → Option (Sys I)
  | .copyProcess i flags unkillable pidNsDiffers timeNsDiffers =>
    match s.task i, s.call i with
    | some _, none =>
      if copyFlagsValid flags unkillable pidNsDiffers timeNsDiffers then
        some (s.setCall i (some (.copy ⟨flags, false, fun _ => none, .stage .hlistAddHead⟩)))
      -- an invalid combination of flags is refused before anything is taken
      else some s
    | _, _ => none
  | .forkIdle i =>
    match s.task i, s.call i with
    | some _, none =>
      some (s.setCall i (some (.copy ⟨idleFlags, true, fun _ => none, .stage .hlistAddHead⟩)))
    | _, _ => none
  | .unshare i flags =>
    match s.task i, s.call i with
    | some _, none =>
      some (s.setCall i
        (some (.unshare ⟨unshareFlags flags, none, none, none, none, .checkUnshareFlags⟩)))
    | _, _ => none
  | .prim i e =>
    match s.task i, s.call i with
    | some cur, some (.copy c) => s.copyStep i e cur c
    | some cur, some (.unshare c) =>
      (unshareStep e cur s.heap c).map fun (c, cur, h, lost) =>
        { s.setCall i (c.map .unshare) with
          heap := h, task := Function.update s.task i (some cur), outside := lost ++ s.outside }
    | _, _ => none
  | .exit i => s.exit i

end

/-! ## Where a run begins

Results about runs hold from any population, not only from a single task with everything null: tasks
may already share what tasks share. The two conditions are those that `copy_process` itself
establishes for new tasks, by refusing the combinations of flags that would break them. -/

/-- The pointers of a task that are never null. -/
def Slot.solid : Slot → Bool
  | .cred | .fs | .sighand | .signal | .nsproxy => true
  | _ => false

/-- The tasks there are when a run begins. Each has whatever pointers it has: with an address space,
an io context, a memory policy and an io bitmap, or without. They may share; threads share the
handlers, and who shares handlers shares the address space. -/
structure Population (I : Type*) where
  tasks : Finset I
  ptrs : I → Ptrs
  solid : ∀ i ∈ tasks, ∀ t : Slot, t.solid = true → ptrs i t ≠ none
  sighand : ∀ i ∈ tasks, ∀ j ∈ tasks,
    ptrs i .signal = ptrs j .signal → ptrs i .sighand = ptrs j .sighand
  mm : ∀ i ∈ tasks, ∀ j ∈ tasks, ptrs i .sighand = ptrs j .sighand → ptrs i .mm = ptrs j .mm

/-- Nobody is in a call, and every object has the count of the pointers to it. -/
def Sys.start {I : Type*} [DecidableEq I] (P : Population I) : Sys I where
  heap := .counting P.tasks fun i => objects (P.ptrs i) taskSlots
  task := fun i => if i ∈ P.tasks then some (P.ptrs i) else none
  call := fun _ => none
  tasklist := none
  outside := []

end OsHomework.Fork
