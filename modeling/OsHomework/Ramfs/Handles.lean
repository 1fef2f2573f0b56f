import OsHomework.Lib.Holdings
import OsHomework.Ramfs.Bind

/-!
# Ramfs — what the calls own, and what they wait for

Every call into the persistence code takes things from the kernel and has to give them back: memory,
open files, references to paths and dentries, the mutex around `ramfs_sync_dir` and the lock of the
directory's inode. `ramfs_file_flush` alone has eleven places at which it can give up, behind four
labels. The string `ramfs_sync_dir` points to belongs to nobody in particular.

Any number of calls run at once, one primitive at a time: writes and reads of `/proc/fs/ramfs/bind`,
writes of `/proc/fs/ramfs/sync`, and flushes from `fsync`. The results of the primitives are the
environment's, and so is what the directory looks like at each of them. A flush goes on as
`Act.step` says. The code behind a label runs in one step with the primitive that failed.

* **`Sys.step`** — the calls, the pool of what they have taken, and the locks.
* **`FlushFrame.prim_deal`** — what a primitive of a flush takes, or what the way out gives back.
-/

namespace OsHomework.Ramfs.Handles

open ByteFile Holdings Lts

/-- What the kernel hands out. -/
inductive Kind where
  | memory
  | file
  | path
  | dentry
  deriving DecidableEq

/-- What stands for a piece of memory, a file, a path or a dentry. -/
abbrev Handle := Nat

/-- What a pointer owns; `none` is the null pointer, or a local that is not set yet. -/
def held (k : Kind) (x : Option Handle) : List (Handle × Kind) := (x.map (·, k)).toList

/-- A `struct file *`: null, an error pointer, or a file. -/
inductive FilePtr where
  | null
  | err
  | file (h : Handle)

/-- A file pointer owns its file, if there is one. -/
def FilePtr.held : FilePtr → List (Handle × Kind)
  | .file h => [(h, .file)]
  | _ => []

/-- The file behind the pointer. -/
def FilePtr.handle : FilePtr → Option Handle
  | .file h => some h
  | _ => none

/-- What a primitive looks at or writes to, without giving it back. -/
abbrev Uses := List (Option Handle × Kind)

/-- The memory, file, path or dentry behind each pointer is used. A pointer that is not set, and one
to something that has been given back, is a fault. -/
def usePtrs (xs : Uses) (p : Pool Kind) : Pool Kind :=
  xs.foldl (fun p x => x.1.elim { p with fault := true } fun h => p.use (h, x.2)) p

/-- `kfree`; there is nothing to do for a null pointer. -/
def kfree (x : Option Handle) (p : Pool Kind) : Pool Kind := p.releaseAll (held .memory x)

/-- `path_put` of a path that has been obtained. -/
def pathPut (x : Option Handle) (p : Pool Kind) : Pool Kind := p.releaseAll (held .path x)

/-- `dput` of a dentry. -/
def dput (x : Option Handle) (p : Pool Kind) : Pool Kind := p.releaseAll (held .dentry x)

/-- `if (f && !IS_ERR(f)) filp_close(f, NULL);` -/
def filpClose (x : FilePtr) (p : Pool Kind) : Pool Kind := p.releaseAll x.held

/-! ## `ramfs_file_flush`

The program counters and their order are those of `Act.step`. What is added is what each of the
locals points to. The labels at the end of the function are entered at different heights, each
giving back what was taken since the one below it; a null pointer and an error pointer give back
nothing. -/

/-- The locals of `ramfs_file_flush` that own something. -/
structure FlushFrame where
  tempPath : Option Handle := none
  filepath : Option Handle := none
  syncFile : FilePtr := .null
  readFile : FilePtr := .null
  buf : Option Handle := none
  tmpPath : Option Handle := none
  -- `old_path` and `new_dir_path` are structures, put by `path_put`
  oldPath : Option Handle := none
  newDirPath : Option Handle := none
  newDentry : Option Handle := none

namespace FlushFrame

/-- Everything the locals own, what was taken last in front. -/
def owned (f : FlushFrame) : List (Handle × Kind) :=
  held .dentry f.newDentry ++ held .path f.newDirPath ++ held .path f.oldPath ++
    held .memory f.tmpPath ++ held .memory f.buf ++ f.readFile.held ++ f.syncFile.held ++
    held .memory f.filepath ++ held .memory f.tempPath

/-- The label `out_free_path`. -/
def outFreePath (f : FlushFrame) (p : Pool Kind) : Pool Kind :=
  kfree f.tempPath (kfree f.filepath p)

/-- The label `out_close_file`. -/
def outCloseFile (f : FlushFrame) (p : Pool Kind) : Pool Kind :=
  f.outFreePath (filpClose f.syncFile p)

/-- The label `out_close_read_file`. -/
def outCloseReadFile (f : FlushFrame) (p : Pool Kind) : Pool Kind :=
  f.outCloseFile (filpClose f.readFile p)

/-- The label `out_free_buf`. -/
def outFreeBuf (f : FlushFrame) (p : Pool Kind) : Pool Kind :=
  f.outCloseReadFile (kfree f.buf p)

/-- What the code between one program counter and the next takes and gives back. From an error on,
which leads to `ret`, that is the code of the branch and of the label it jumps to. -/
def prim (f : FlushFrame) (p : Pool Kind) : Pc → Pc → FlushFrame × Pool Kind
  | .kstrdup, .ret _ => ({}, p)
  | .kstrdup, _ => ({ f with tempPath := some p.next }, p.acquire .memory)
  | .kmallocPath, .ret _ => ({}, kfree f.tempPath p)
  | .kmallocPath, _ => ({ f with filepath := some p.next }, p.acquire .memory)
  -- an error pointer is not closed
  | .openTmp, .ret _ => ({}, { f with syncFile := .err }.outFreePath p)
  | .openTmp, _ => ({ f with syncFile := .file p.next }, p.acquire .file)
  | .dPath, .ret _ => ({}, f.outCloseFile p)
  -- the read file is an error pointer here, and the label closes the sync file only
  | .openRead, .ret _ => ({}, { f with readFile := .err }.outCloseFile p)
  | .openRead, _ => ({ f with readFile := .file p.next }, p.acquire .file)
  | .kmallocBuf, .ret _ => ({}, f.outCloseReadFile p)
  | .kmallocBuf, _ => ({ f with buf := some p.next }, p.acquire .memory)
  | .copy, .ret _ => ({}, f.outFreeBuf p)
  | .write _, .ret _ => ({}, f.outFreeBuf p)
  | .fsync, .ret _ => ({}, f.outFreeBuf p)
  -- both are set to null, so that no label closes them again
  | .close, _ =>
    ({ f with syncFile := .null, readFile := .null }, filpClose f.readFile (filpClose f.syncFile p))
  | .kmallocTmp, .ret _ => ({}, f.outFreeBuf p)
  | .kmallocTmp, _ => ({ f with tmpPath := some p.next }, p.acquire .memory)
  | .lookupTmp, .ret _ => ({}, f.outFreeBuf (kfree f.tmpPath p))
  | .lookupTmp, _ => ({ f with oldPath := some p.next }, p.acquire .path)
  | .lookupDir, .ret _ => ({}, f.outFreeBuf (kfree f.tmpPath (pathPut f.oldPath p)))
  | .lookupDir, _ => ({ f with newDirPath := some p.next }, p.acquire .path)
  | .lookupNew, .ret _ =>
    ({}, f.outFreeBuf (kfree f.tmpPath (pathPut f.newDirPath (pathPut f.oldPath p))))
  | .lookupNew, _ => ({ f with newDentry := some p.next }, p.acquire .dentry)
  | .rename, _ =>
    -- the end of the block and of the function, whatever `vfs_rename` has returned
    let p := kfree f.tmpPath (pathPut f.newDirPath (pathPut f.oldPath (dput f.newDentry p)))
    ({}, kfree f.tempPath (kfree f.filepath (kfree f.buf p)))
  | _, _ => (f, p)

/-- What the locals are used for between one program counter and the next: the strings that are
printed into or looked up, the files of the transfers, and the paths and dentries of the rename. -/
def uses (f : FlushFrame) : Pc → Uses
  | .openTmp => [(f.filepath, .memory), (f.tempPath, .memory)]
  | .copy => [(f.readFile.handle, .file), (f.buf, .memory)]
  | .write _ => [(f.syncFile.handle, .file), (f.buf, .memory)]
  | .fsync => [(f.syncFile.handle, .file)]
  -- the final path is printed right after the two files are closed
  | .close => [(f.filepath, .memory), (f.tempPath, .memory)]
  | .lookupTmp => [(f.tmpPath, .memory), (f.tempPath, .memory)]
  | .lookupDir => [(f.tempPath, .memory)]
  | .lookupNew => [(f.newDirPath, .path)]
  | .rename => [(f.oldPath, .path), (f.newDirPath, .path), (f.newDentry, .dentry)]
  | _ => []

end FlushFrame

/-! ## The other calls

The writes of the two proc files have locals of the same kind. A write to the sync file opens a file
and calls the flush, after which it closes the file again: while the flush runs both hold something.
-/

/-- The locals of `ramfs_proc_bind_write`, and of the `ramfs_bind` it calls. -/
structure BindFrame where
  kbuf : Option Handle := none
  ramfsPath : Option Handle := none
  syncPath : Option Handle := none
  path : Option Handle := none
  newDir : Option Handle := none

/-- What a bind write owns, what was taken last in front. -/
def BindFrame.owned (f : BindFrame) : List (Handle × Kind) :=
  held .memory f.newDir ++ held .path f.path ++ held .memory f.syncPath ++
    held .memory f.ramfsPath ++ held .memory f.kbuf

/-- The label `out` of `ramfs_proc_bind_write`. -/
def BindFrame.out (f : BindFrame) (p : Pool Kind) : Pool Kind :=
  kfree f.syncPath (kfree f.ramfsPath (kfree f.kbuf p))

/-- Where `ramfs_proc_bind_write` stands, and `ramfs_bind` inside it. -/
inductive BindPc where
  | kmallocKbuf
  | kmallocRamfsPath
  | kmallocSyncPath
  | copyFromUser
  | parseMountPath
  | kernPath
  | checkMode
  | mutexLock
  | kstrdup
  | assign
  | mutexUnlock
  | loadSyncDir
  | print (dir : Option Handle)
  deriving DecidableEq

/-- The string that is printed at the end is not among the locals; `bindStep` accounts for it. -/
def BindFrame.uses (f : BindFrame) : BindPc → Uses
  | .copyFromUser => [(f.kbuf, .memory)]
  | .parseMountPath => [(f.kbuf, .memory), (f.ramfsPath, .memory), (f.syncPath, .memory)]
  | .kernPath | .kstrdup => [(f.syncPath, .memory)]
  | .checkMode => [(f.path, .path)]
  | _ => []

/-- The locals of `ramfs_proc_sync_write`. -/
structure SyncFrame where
  kbuf : Option Handle := none
  path : Option Handle := none
  targetFile : FilePtr := .null

/-- What a write to the sync file owns. -/
def SyncFrame.owned (f : SyncFrame) : List (Handle × Kind) :=
  f.targetFile.held ++ held .path f.path ++ held .memory f.kbuf

/-- Where `ramfs_proc_sync_write` stands before the flush. -/
inductive SyncPc where
  | kmallocKbuf
  | copyFromUser
  | kernPath
  | dentryOpen

/-- What it uses. -/
def SyncFrame.uses (f : SyncFrame) : SyncPc → Uses
  | .kmallocKbuf => []
  | .copyFromUser | .kernPath => [(f.kbuf, .memory)]
  | .dentryOpen => [(f.path, .path)]

/-- Where `ramfs_proc_bind_read` stands. -/
inductive ReadPc where
  | mutexLock
  | format
  | mutexUnlock

/-- Where a flush stands besides its program counter: with or without one of the two locks. -/
inductive FlushPhase where
  | mutexLock
  | inMutex
  | mutexUnlock
  | run
  | inodeLocked
  deriving DecidableEq

/-- A flush, from `ramfs_fsync` or from a write to the sync file. `dir` is the inode that
`new_dir_path` leads to, once it has been looked up. -/
structure FlushCall where
  caller : Option SyncFrame
  phase : FlushPhase
  act : Act
  frame : FlushFrame
  dir : Node

/-- A flush owns what its locals point to, and keeps what its caller has. -/
def FlushCall.owned (c : FlushCall) : List (Handle × Kind) :=
  c.frame.owned ++ c.caller.elim [] SyncFrame.owned

/-- Until the flush has returned, its caller's file is used throughout: for the name, the path and
the size. -/
def FlushCall.uses (c : FlushCall) : Uses :=
  match c.act.pc with
  | .ret _ => []
  | pc => c.frame.uses pc ++ c.caller.elim [] fun f => [(f.targetFile.handle, .file)]

/-- The calls into the persistence code. -/
inductive Call where
  | bindWrite (pc : BindPc) (frame : BindFrame)
  | bindRead (pc : ReadPc)
  | syncWrite (pc : SyncPc) (frame : SyncFrame)
  | flush (c : FlushCall)

/-- What a call owns. -/
def Call.owned : Call → List (Handle × Kind)
  | .bindWrite _ f => f.owned
  | .bindRead _ => []
  | .syncWrite _ f => f.owned
  | .flush c => c.owned

/-- What a call uses at its program counter. -/
def Call.uses : Call → Uses
  | .bindWrite pc f => f.uses pc
  | .bindRead _ => []
  | .syncWrite pc f => f.uses pc
  | .flush c => c.uses

/-- Entry of `ramfs_file_flush` on a ramfs file: the next thing is the mutex. -/
def FlushCall.enter (caller : Option SyncFrame) (name : Name) : FlushCall where
  caller := caller
  phase := .mutexLock
  act := ramfsFileFlush true true name
  frame := {}
  dir := 0

/-! ## Steps

A step is one primitive, with what the code does between it and the next one. Before the primitive
is made the pointers it goes through are used, which is a fault if one of them leads nowhere.
Waiting for a lock is a step that is not there. -/

/-- What the environment answers to a primitive: its result, the content of the file and the state
of the directory at that moment, the inode a path leads to, and the file that was opened. -/
structure Env where
  outcome : Outcome
  src : Bytes
  vol : Volume
  dir : Node
  onRamfs : Bool
  name : Name

/-- What the calls share. `stale` says that memory was printed after it had been freed. -/
structure Shared (I : Type*) where
  pool : Pool Kind
  syncDir : Option Handle
  mutex : Option I
  dirLock : Node → Option I
  stale : Bool

variable {I : Type*}

/-- The kernel hands something out. -/
def Shared.take (s : Shared I) (k : Kind) : Shared I := { s with pool := s.pool.acquire k }

/-- Something is given back, or used. -/
def Shared.drop (s : Shared I) (give : Pool Kind → Pool Kind) : Shared I :=
  { s with pool := give s.pool }

/-- `mutex_lock(&ramfs_sync_mutex)` by the call `i`; there is no step while somebody else has it. -/
def Shared.mutexLock (s : Shared I) (i : I) : Option (Shared I) :=
  match s.mutex with
  | none => some { s with mutex := some i }
  | some _ => none

/-- The memory behind a pointer is read. -/
def Shared.read (s : Shared I) (x : Option Handle) : Shared I :=
  match x with
  | none => s
  | some h => { s with pool := s.pool.use (h, .memory) }

/-- One primitive of `ramfs_proc_bind_write`. -/
def bindStep (i : I) (ok : Bool) (s : Shared I) (f : BindFrame) :
    BindPc → Option (Option Call × Shared I)
  | .kmallocKbuf =>
    if ok then
      some (some (.bindWrite .kmallocRamfsPath { f with kbuf := some s.pool.next }), s.take .memory)
    -- nothing has been taken yet
    else some (none, s)
  | .kmallocRamfsPath =>
    if ok then
      some (some (.bindWrite .kmallocSyncPath { f with ramfsPath := some s.pool.next }),
        s.take .memory)
    else some (none, s.drop (kfree f.kbuf))
  | .kmallocSyncPath =>
    if ok then
      some (some (.bindWrite .copyFromUser { f with syncPath := some s.pool.next }), s.take .memory)
    -- the first two are freed in place, without the label
    else some (none, s.drop (kfree f.ramfsPath ∘ kfree f.kbuf))
  | .copyFromUser =>
    if ok then some (some (.bindWrite .parseMountPath f), s) else some (none, s.drop f.out)
  | .parseMountPath =>
    if ok then some (some (.bindWrite .kernPath f), s) else some (none, s.drop f.out)
  -- `ramfs_bind` begins
  | .kernPath =>
    if ok then some (some (.bindWrite .checkMode { f with path := some s.pool.next }), s.take .path)
    else some (none, s.drop f.out)
  | .checkMode =>
    if ok then some (some (.bindWrite .mutexLock f), s)
    else some (none, s.drop (f.out ∘ pathPut f.path))
  | .mutexLock => (s.mutexLock i).map fun s => (some (.bindWrite .kstrdup f), s)
  | .kstrdup =>
    if ok then
      some (some (.bindWrite .assign { f with newDir := some s.pool.next }), s.take .memory)
    -- the mutex is released on the error path as well
    else some (none, { s with mutex := none }.drop (f.out ∘ pathPut f.path))
  -- `kfree(ramfs_sync_dir); ramfs_sync_dir = new_dir;` and with that the string has a new owner
  | .assign =>
    some (some (.bindWrite .mutexUnlock { f with newDir := none }),
      { s.drop (kfree s.syncDir) with syncDir := f.newDir })
  | .mutexUnlock => some (some (.bindWrite .loadSyncDir f), { s with mutex := none })
  -- the argument of `pr_info` is the global, read without the mutex
  | .loadSyncDir => some (some (.bindWrite (.print s.syncDir) f), s)
  | .print dir =>
    let gone := match dir with
      | none => false
      | some h => s.pool.kind h ≠ some .memory
    some (none, { s with stale := s.stale || gone }.drop (f.out ∘ pathPut f.path))

/-- One primitive of `ramfs_proc_bind_read`; `copy_to_user` comes after the mutex is released. -/
def readStep (i : I) (s : Shared I) : ReadPc → Option (Option Call × Shared I)
  | .mutexLock => (s.mutexLock i).map fun s => (some (.bindRead .format), s)
  | .format => some (some (.bindRead .mutexUnlock), s.read s.syncDir)
  | .mutexUnlock => some (none, { s with mutex := none })

/-- One primitive of `ramfs_proc_sync_write` up to the flush. -/
def syncStep (e : Env) (s : Shared I) (f : SyncFrame) : SyncPc → Option (Option Call × Shared I)
  | .kmallocKbuf =>
    if e.outcome.isOk then
      some (some (.syncWrite .copyFromUser { f with kbuf := some s.pool.next }), s.take .memory)
    else some (none, s)
  | .copyFromUser =>
    if e.outcome.isOk then some (some (.syncWrite .kernPath f), s)
    else some (none, s.drop (kfree f.kbuf))
  | .kernPath =>
    if e.outcome.isOk then
      some (some (.syncWrite .dentryOpen { f with path := some s.pool.next }), s.take .path)
    else some (none, s.drop (kfree f.kbuf))
  | .dentryOpen =>
    if e.outcome.isOk then
      let f' : SyncFrame := { f with path := none, targetFile := .file s.pool.next }
      let s' := (s.take .file).drop (pathPut f.path)
      -- a file of another file system: `ramfs_file_flush` returns 0 at once
      if e.onRamfs then some (some (.flush (.enter (some f') e.name)), s')
      else some (none, s'.drop (kfree f'.kbuf ∘ filpClose f'.targetFile))
    else some (none, s.drop (kfree f.kbuf ∘ pathPut f.path))

/-- One primitive of `ramfs_file_flush`, or one of its lock operations. -/
def flushStep (i : I) (e : Env) (s : Shared I) (c : FlushCall) :
    Option (Option Call × Shared I) :=
  match c.phase with
  | .mutexLock => (s.mutexLock i).map fun s => (some (.flush { c with phase := .inMutex }), s)
  | .inMutex =>
    -- without a bound directory the flush returns 0, still in the mutex
    match s.syncDir with
    | none =>
      let act := ramfsFileFlush true false c.act.name
      some (some (.flush { c with phase := .mutexUnlock, act := act }), s)
    | some h =>
      (c.act.step e.src e.outcome e.vol).map fun r =>
        -- the string is copied while it cannot be freed
        let t := c.frame.prim (s.pool.use (h, .memory)) c.act.pc r.1.pc
        (some (.flush { c with phase := .mutexUnlock, act := r.1, frame := t.1 }),
          { s with pool := t.2 })
  | .mutexUnlock => some (some (.flush { c with phase := .run }), { s with mutex := none })
  | .run =>
    match c.act.pc with
    | .ret _ =>
      -- back in `ramfs_fsync` or in `ramfs_proc_sync_write`
      match c.caller with
      | none => some (none, s)
      | some f => some (none, s.drop (kfree f.kbuf ∘ filpClose f.targetFile))
    | .lookupNew =>
      -- `inode_lock(dir_inode)`
      match s.dirLock c.dir with
      | none =>
        some (some (.flush { c with phase := .inodeLocked }),
          { s with dirLock := Function.update s.dirLock c.dir (some i) })
      | some _ => none
    | pc =>
      (c.act.step e.src e.outcome e.vol).map fun r =>
        let t := c.frame.prim s.pool pc r.1.pc
        -- the inode whose lock will be taken
        let dir := if pc = .lookupDir then e.dir else c.dir
        (some (.flush { c with act := r.1, frame := t.1, dir := dir }), { s with pool := t.2 })
  | .inodeLocked =>
    (c.act.step e.src e.outcome e.vol).map fun r =>
      let t := c.frame.prim s.pool c.act.pc r.1.pc
      match r.1.pc with
      -- the lock is released on success and on failure
      | .ret _ =>
        (some (.flush { c with phase := .run, act := r.1, frame := t.1 }),
          { s with pool := t.2, dirLock := Function.update s.dirLock c.dir none })
      | _ => (some (.flush { c with act := r.1, frame := t.1 }), { s with pool := t.2 })

/-- One primitive of a call. -/
def Call.step (i : I) (e : Env) (s : Shared I) : Call → Option (Option Call × Shared I)
  | .bindWrite pc f => bindStep i e.outcome.isOk s f pc
  | .bindRead pc => readStep i s pc
  | .syncWrite pc f => syncStep e s f pc
  | .flush c => flushStep i e s c

/-- The calls that are running, and what they share. -/
structure Sys (I : Type*) where
  shared : Shared I
  calls : I → Option Call

/-- Nothing bound, nobody in a call. -/
def Sys.start : Sys I where
  shared := ⟨.empty, none, none, fun _ => none, false⟩
  calls := fun _ => none

/-- A call begins, or one makes a step. -/
inductive Label (I : Type*) where
  | bindWrite (i : I)
  | bindRead (i : I)
  | syncWrite (i : I)
  | fsync (i : I) (name : Name)
  | prim (i : I) (e : Env)

/-- A call begins. -/
def Sys.enter [DecidableEq I] (s : Sys I) (i : I) (c : Call) : Option (Sys I) :=
  match s.calls i with
  -- a call is made by somebody who is not in one
  | none => some { s with calls := Function.update s.calls i (some c) }
  | some _ => none

/-- One step of the system. -/
def Sys.step [DecidableEq I] (s : Sys I) : Label I → Option (Sys I)
  | .bindWrite i => s.enter i (.bindWrite .kmallocKbuf {})
  | .bindRead i => s.enter i (.bindRead .mutexLock)
  | .syncWrite i => s.enter i (.syncWrite .kmallocKbuf {})
  | .fsync i name => s.enter i (.flush (.enter none name))
  | .prim i e =>
    (s.calls i).bind fun c =>
      -- the pointers are used before the primitive has its result
      (c.step i e (s.shared.drop (usePtrs c.uses))).map fun r =>
        { shared := r.2, calls := Function.update s.calls i r.1 }

/-- Which locals of a flush own something at a program counter. -/
def FlushFrame.Shape (f : FlushFrame) : Pc → Prop
  | .kstrdup => f = {}
  | .kmallocPath => ∃ t, f = { tempPath := some t }
  | .openTmp => ∃ t p, f = { tempPath := some t, filepath := some p }
  | .dPath | .openRead =>
    ∃ t p s, f = { tempPath := some t, filepath := some p, syncFile := .file s }
  | .kmallocBuf => ∃ t p s r,
    f = { tempPath := some t, filepath := some p, syncFile := .file s, readFile := .file r }
  | .copy | .write _ | .fsync | .close => ∃ t p s r b,
    f = { tempPath := some t, filepath := some p, syncFile := .file s, readFile := .file r,
          buf := some b }
  | .kmallocTmp => ∃ t p b, f = { tempPath := some t, filepath := some p, buf := some b }
  | .lookupTmp => ∃ t p b m,
    f = { tempPath := some t, filepath := some p, buf := some b, tmpPath := some m }
  | .lookupDir => ∃ t p b m o,
    f = { tempPath := some t, filepath := some p, buf := some b, tmpPath := some m,
          oldPath := some o }
  | .lookupNew => ∃ t p b m o d,
    f = { tempPath := some t, filepath := some p, buf := some b, tmpPath := some m,
          oldPath := some o, newDirPath := some d }
  | .rename => ∃ t p b m o d n,
    f = { tempPath := some t, filepath := some p, buf := some b, tmpPath := some m,
          oldPath := some o, newDirPath := some d, newDentry := some n }
  | .ret _ => f = {}

/-- The program counters that can follow when nothing fails. -/
inductive Next : Pc → Pc → Prop where
  | quiet {p q : Pc} (hnext : p.quietNext = some q) : Next p q
  | openTmp : Next .openTmp .dPath
  | kmallocBuf : Next .kmallocBuf .copy
  | read (buf : Bytes) : Next .copy (.write buf)
  | leave : Next .copy .fsync
  | write (buf : Bytes) : Next (.write buf) .copy
  | fsync : Next .fsync .close

/-- A step goes on, or it is the last one; `filp_close` is never the last one. -/
theorem next_of_step {src : Bytes} {o : Outcome} {a a' : Act} {v v' : Volume}
    (h : a.step src o v = some (a', v')) :
    Next a.pc a'.pc ∨ (∃ code, a'.pc = .ret code) ∧ a.pc ≠ .close := by
  -- the results of `filp_close` are not looked at
  by_cases hclose : a.pc = .close
  · left
    simp only [Act.step, hclose, Option.some.injEq, Prod.mk.injEq] at h
    rw [← h.1, hclose]
    exact .quiet rfl
  by_cases hadv : Advances a o
  · cases move_of_step hadv h with
    | fail e hrun => exact Or.inr ⟨⟨_, rfl⟩, hclose⟩
    | quiet p hpc => exact Or.inl (.quiet hpc)
    | openTmp hpc => rw [hpc]; exact Or.inl .openTmp
    | begin hpc => rw [hpc]; exact Or.inl .kmallocBuf
    | read n hpc => rw [hpc]; exact Or.inl (.read _)
    | leave hpc hend => rw [hpc]; exact Or.inl .leave
    | write buf n hpc hn hle => rw [hpc]; exact Or.inl (.write _)
    | fsync hpc => rw [hpc]; exact Or.inl .fsync
    | rename hpc => exact Or.inr ⟨⟨0, rfl⟩, hclose⟩
  · rcases idle_of_step hadv h with ⟨hpc, -, rfl, -⟩ | ⟨buf, hpc, rfl, -⟩
    · rw [hpc]; exact Or.inl .leave
    · rw [hpc]; exact Or.inl (.write _)

namespace FlushFrame

variable {f : FlushFrame} {q q' : Pc}

/-- Going on takes what the next program counter needs. -/
theorem prim_next (p : Pool Kind) (hshape : f.Shape q) (hnext : Next q q') :
    Deal p f.owned (f.prim p q q').2 (f.prim p q q').1.owned ∧ (f.prim p q q').1.Shape q' := by
  cases hnext with
  -- one thing more is taken
  | openTmp =>
    obtain ⟨t, a, rfl⟩ := hshape
    exact ⟨.take p _ .file, t, a, _, rfl⟩
  | kmallocBuf =>
    obtain ⟨t, a, s, r, rfl⟩ := hshape
    exact ⟨.take p _ .memory, t, a, s, r, _, rfl⟩
  -- the transfers take nothing
  | read buf => exact ⟨.keep p _, hshape⟩
  | leave => exact ⟨.keep p _, hshape⟩
  | write buf => exact ⟨.keep p _, hshape⟩
  | fsync => exact ⟨.keep p _, hshape⟩
  | quiet hquiet =>
    cases q with
    | kstrdup =>
      cases hquiet
      obtain rfl := hshape
      exact ⟨.take p _ .memory, _, rfl⟩
    | kmallocPath =>
      cases hquiet
      obtain ⟨t, rfl⟩ := hshape
      exact ⟨.take p _ .memory, t, _, rfl⟩
    | dPath =>
      cases hquiet
      exact ⟨.keep p _, hshape⟩
    | openRead =>
      cases hquiet
      obtain ⟨t, a, s, rfl⟩ := hshape
      exact ⟨.take p _ .file, t, a, s, _, rfl⟩
    | close =>
      cases hquiet
      obtain ⟨t, a, s, r, b, rfl⟩ := hshape
      -- the two files are given back from the middle of the list
      refine ⟨.give p [(s, .file), (r, .file)] _ ?_, t, a, b, rfl⟩
      -- the buffer stays behind
      exact (List.reverse_perm [(s, Kind.file), (r, .file), (b, .memory)]).append_right _
    | kmallocTmp =>
      cases hquiet
      obtain ⟨t, a, b, rfl⟩ := hshape
      exact ⟨.take p _ .memory, t, a, b, _, rfl⟩
    | lookupTmp =>
      cases hquiet
      obtain ⟨t, a, b, m, rfl⟩ := hshape
      exact ⟨.take p _ .path, t, a, b, m, _, rfl⟩
    | lookupDir =>
      cases hquiet
      obtain ⟨t, a, b, m, o, rfl⟩ := hshape
      exact ⟨.take p _ .path, t, a, b, m, o, _, rfl⟩
    | lookupNew =>
      cases hquiet
      obtain ⟨t, a, b, m, o, d, rfl⟩ := hshape
      exact ⟨.take p _ .dentry, t, a, b, m, o, d, _, rfl⟩
    | _ => cases hquiet

/-- The way out, from wherever it begins, gives back all that is owned. -/
theorem prim_ret (p : Pool Kind) (hshape : f.Shape q) (hclose : q ≠ .close) (code : Int) :
    Deal p f.owned (f.prim p q (.ret code)).2 [] ∧
      (f.prim p q (.ret code)).1.Shape (.ret code) := by
  cases q with
  | close => exact absurd rfl hclose
  | ret code' =>
    obtain rfl := hshape
    exact ⟨.keep p _, rfl⟩
  | kstrdup =>
    obtain rfl := hshape
    exact ⟨.keep p _, rfl⟩
  -- the labels give back in the order of the list
  | kmallocPath =>
    obtain ⟨t, rfl⟩ := hshape
    exact ⟨.giveAll p (.refl (owned _)), rfl⟩
  | openTmp =>
    obtain ⟨t, a, rfl⟩ := hshape
    exact ⟨.giveAll p (.refl (owned _)), rfl⟩
  | dPath =>
    obtain ⟨t, a, s, rfl⟩ := hshape
    exact ⟨.giveAll p (.refl (owned _)), rfl⟩
  | openRead =>
    obtain ⟨t, a, s, rfl⟩ := hshape
    exact ⟨.giveAll p (.refl (owned _)), rfl⟩
  | kmallocBuf =>
    obtain ⟨t, a, s, r, rfl⟩ := hshape
    exact ⟨.giveAll p (.refl (owned _)), rfl⟩
  | copy =>
    obtain ⟨t, a, s, r, b, rfl⟩ := hshape
    exact ⟨.giveAll p (.refl (owned _)), rfl⟩
  | write buf =>
    obtain ⟨t, a, s, r, b, rfl⟩ := hshape
    exact ⟨.giveAll p (.refl (owned _)), rfl⟩
  | fsync =>
    obtain ⟨t, a, s, r, b, rfl⟩ := hshape
    exact ⟨.giveAll p (.refl (owned _)), rfl⟩
  | kmallocTmp =>
    obtain ⟨t, a, b, rfl⟩ := hshape
    exact ⟨.giveAll p (.refl (owned _)), rfl⟩
  | lookupTmp =>
    obtain ⟨t, a, b, m, rfl⟩ := hshape
    exact ⟨.giveAll p (.refl (owned _)), rfl⟩
  | lookupDir =>
    obtain ⟨t, a, b, m, o, rfl⟩ := hshape
    exact ⟨.giveAll p (.refl (owned _)), rfl⟩
  | lookupNew =>
    -- the two paths are put in the order in which they were taken
    obtain ⟨t, a, b, m, o, d, rfl⟩ := hshape
    refine ⟨.giveAll p (?_ : List.Perm _ [(o, Kind.path), (d, .path), (m, .memory), (b, .memory),
      (a, .memory), (t, .memory)]), rfl⟩
    exact .swap _ _ _
  | rename =>
    obtain ⟨t, a, b, m, o, d, n, rfl⟩ := hshape
    refine ⟨.giveAll p (?_ : List.Perm _ [(n, Kind.dentry), (o, .path), (d, .path), (m, .memory),
      (b, .memory), (a, .memory), (t, .memory)]), rfl⟩
    exact .cons _ (.swap _ _ _)

/-- **One primitive of a flush.** It takes what the rest of the function counts on, or it is the
last one and everything is given back. -/
theorem prim_deal {src : Bytes} {o : Outcome} {a a' : Act} {v v' : Volume} (p : Pool Kind)
    (hshape : f.Shape a.pc) (h : a.step src o v = some (a', v')) :
    Deal p f.owned (f.prim p a.pc a'.pc).2 (f.prim p a.pc a'.pc).1.owned ∧
      (f.prim p a.pc a'.pc).1.Shape a'.pc := by
  rcases next_of_step h with hnext | ⟨⟨code, hret⟩, hclose⟩
  · exact prim_next p hshape hnext
  · rw [hret]
    obtain ⟨hdeal, hgone⟩ := prim_ret p hshape hclose code
    refine ⟨?_, hgone⟩
    have hnothing : (f.prim p a.pc (.ret code)).1 = {} := hgone
    rw [hnothing]
    exact hdeal

end FlushFrame

end OsHomework.Ramfs.Handles
