import Mathlib.Algebra.GroupWithZero.Nat
import OsHomework.Ramfs.BindFile
import OsHomework.Ramfs.Complete

/-!
# Ramfs — a sync directory on ramfs

`ramfs_file_flush` calls `vfs_fsync` on its temp file. If the sync directory is itself on a ramfs
mount, that is `ramfs_fsync`, and so a second activation of `ramfs_file_flush`, for the temp file;
it has a temp file of its own, with a name that is five bytes longer. Nothing in `ramfs_bind` looks
at the file system of the directory.

The path is resolved where the code resolves it: by `ramfs_bind` from the working directory of the
binder and with `LOOKUP_FOLLOW`, by the flush from that of the flusher, once as the leading part of
the temp file's path and once on its own without `LOOKUP_FOLLOW`. All allocations and transfers
succeed, transfers with any number of bytes; what depends on the tree is answered by the tree.

The activations are a stack.

* **`NestMove`** — everything one step of the stack can do.
* **`Single.step`** — outside ramfs one activation runs alone, and every step brings it nearer to
  its return.
* **`Blocked.step`** — on ramfs no activation gets past its `vfs_fsync`.
* **`Nest.reach_world`** — a run of the stack is a run of the bind writes and flushes of the module
  on where a flush goes: each activation is a flush there, and the tree gives the same answers.
* **`flushesAlone_iff`** — the flush of a file terminates, returns 0 with the file in the directory
  that was bound and enters no second activation, exactly if the path still leads there and the
  directory is not on ramfs.
-/

namespace OsHomework.Ramfs

open ByteFile Lts

/-! ## The sync directory

What a bind write has accepted, in a tree of which it is also known which directories are on a
ramfs mount. -/

def Errno.enoent : Errno := ⟨2, by decide⟩

/-- A sync directory as `ramfs_bind` accepts it from a process working in `binder`. -/
structure SyncTarget where
  ns : Namespace
  onRamfs : Node → Bool
  path : Path
  fits : path.length < ramfsMaxPath
  binder : Node
  dir : Node
  bound : ns.validate binder path = .ok dir

/-- Where the temp file goes when the flusher works in `cwd`. -/
def SyncTarget.tempDir (t : SyncTarget) (cwd : Node) : Option Node :=
  (t.ns.kernPath true cwd t.path).toOption

/-- The temp file is on ramfs, and `vfs_fsync` of it is `ramfs_fsync`. -/
def SyncTarget.tempOnRamfs (t : SyncTarget) (cwd : Node) : Bool := (t.tempDir cwd).any t.onRamfs

/-- `snprintf(filepath, PATH_MAX, "%s/.%s.tmp", temp_path, filename)` -/
def SyncTarget.tmpPath (t : SyncTarget) (name : Name) : Path :=
  (snprintf pathMax (t.path ++ '/'.toUInt8 :: tmpName name)).1

/-- `filp_open` of the temp file: the walk to its directory, and the lookup of the last
component. -/
def SyncTarget.openTmp (t : SyncTarget) (cwd : Node) (name : Name) : Outcome :=
  match t.ns.kernPath true cwd t.path with
  | .error e => .err e
  | .ok d =>
    if t.ns.isDir d = false then .err .enotdir
    else if 255 < ((t.tmpPath name).drop (t.path.length + 1)).length then .err .enametoolong
    else .ok 0

/-- What the primitive of an activation answers when all that can succeed does with `o`. There is
no answer from `lookup_one_len` below something that is no directory: a symbolic link has no
`lookup` operation to call. -/
def SyncTarget.answer (t : SyncTarget) (cwd : Node) (a : Act) (v : Volume) (o : Outcome) :
    Option Outcome :=
  match a.pc with
  | .openTmp => some (t.openTmp cwd a.name)
  | .lookupTmp | .rename =>
    some (if (v.live.entry (tmpName a.name)).isSome then o else .err .enoent)
  | .lookupDir =>
    match t.ns.kernPath false cwd t.path with
    | .ok _ => some o
    | .error e => some (.err e)
  | .lookupNew => if t.ns.dirAt false cwd t.path then some o else none
  | _ => some o

/-! ## The stack of activations

The innermost activation is the one that runs; those below it wait in `vfs_fsync`. All of them work
on the directory that the path leads to for the flusher. The content an inner activation copies is
the temp file of the one below it, which that one has written and not renamed yet. -/

/-- The activations, the innermost first, and the directories of the tree. -/
structure Nest where
  frames : List Act
  dirs : Node → Volume

/-- The directory the activations work on; nothing is there if the path leads nowhere. -/
def Nest.vol (t : SyncTarget) (cwd : Node) (s : Nest) : Volume :=
  (t.tempDir cwd).elim (.clean .empty) s.dirs

def Nest.setVol (t : SyncTarget) (cwd : Node) (s : Nest) (v : Volume) : Node → Volume :=
  (t.tempDir cwd).elim s.dirs fun d => Function.update s.dirs d v

/-- The file the innermost activation is for: the temp file of the one below, or the file of the
first call. -/
def Nest.src (t : SyncTarget) (cwd : Node) (own : Bytes) (s : Nest) : Bytes :=
  match s.frames with
  | _ :: b :: _ => (s.vol t cwd).live.data b.sync
  | _ => own

def Act.result? (a : Act) : Option Int :=
  match a.pc with
  | .ret code => some code
  | _ => none

/-- What `vfs_fsync` returns when `ramfs_file_flush` has returned `code`. -/
def fsyncOutcome (code : Int) : Outcome :=
  if h : code = 0 then .ok 0 else .err ⟨code.natAbs, Int.natAbs_pos.mpr h⟩

def Nest.step (t : SyncTarget) (cwd : Node) (own : Bytes) (s : Nest) (o : Outcome) : Option Nest :=
  match s.frames with
  | [] => none
  | a :: rest =>
    match a.result? with
    -- the innermost activation has returned, to the `vfs_fsync` below it or to the first caller
    | some code =>
      match rest with
      | [] => none
      | b :: below =>
        (b.step [] (fsyncOutcome code) (s.vol t cwd)).map fun r =>
          ⟨r.1 :: below, s.setVol t cwd r.2⟩
    | none =>
      if a.pc = .fsync ∧ t.tempOnRamfs cwd = true then
        -- `ramfs_fsync(sync_file)`
        some ⟨ramfsFileFlush true true (tmpName a.name) :: a :: rest, s.dirs⟩
      else
        (t.answer cwd a (s.vol t cwd) o).bind fun o' =>
          (a.step (s.src t cwd own) o' (s.vol t cwd)).map fun r =>
            ⟨r.1 :: rest, s.setVol t cwd r.2⟩

def Nest.start (name : Name) (dirs : Node → Volume) : Nest :=
  ⟨[ramfsFileFlush true true name], dirs⟩

/-- The guard of the runs: the environment answers with success, and transfers move bytes. -/
def Succeeds (t : SyncTarget) (cwd : Node) (own : Bytes) (s : Nest) (o : Outcome) : Prop :=
  o.isOk = true ∧ ∀ a ∈ s.frames.head?, Transfers (s.src t cwd own) a o

instance (t : SyncTarget) (cwd : Node) (own : Bytes) (s : Nest) (o : Outcome) :
    Decidable (Succeeds t cwd own s o) :=
  inferInstanceAs (Decidable (_ ∧ _))

/-- The first call has returned. -/
def Nest.Returned (s : Nest) (code : Int) : Prop := ∃ a, s.frames = [a] ∧ a.pc = .ret code

section

variable {t : SyncTarget} {cwd : Node} {own : Bytes} {name : Name} {a : Act} {v : Volume}
  {s s' : Nest} {o : Outcome}

/-! ## What one step can do

An activation is entered, the innermost one returns to the `vfs_fsync` below it, or the innermost
one makes a step. -/

theorem Act.result?_eq_some {code : Int} : a.result? = some code ↔ a.pc = .ret code := by
  unfold Act.result?
  split
  · next h => rw [h]; simp
  · next h => simpa using h code

theorem Act.result?_eq_none : a.result? = none ↔ ∀ code, a.pc ≠ .ret code := by
  constructor
  · intro h code hcode
    rw [Act.result?_eq_some.mpr hcode] at h
    cases h
  · intro h
    cases hres : a.result? with
    | none => rfl
    | some code => exact absurd (Act.result?_eq_some.mp hres) (h code)

/-- Everything one step of the stack can do. -/
inductive NestMove (t : SyncTarget) (cwd : Node) (own : Bytes) (s : Nest) (o : Outcome) :
    Nest → Prop where
  | enter (a : Act) (rest : List Act) (hframes : s.frames = a :: rest) (hpc : a.pc = .fsync)
      (hram : t.tempOnRamfs cwd = true) :
      NestMove t cwd own s o
        ⟨ramfsFileFlush true true (tmpName a.name) :: a :: rest, s.dirs⟩
  | leave (a b b' : Act) (below : List Act) (code : Int) (v' : Volume)
      (hframes : s.frames = a :: b :: below) (hpc : a.pc = .ret code)
      (hstep : b.step [] (fsyncOutcome code) (s.vol t cwd) = some (b', v')) :
      NestMove t cwd own s o ⟨b' :: below, s.setVol t cwd v'⟩
  | prim (a a' : Act) (rest : List Act) (o' : Outcome) (v' : Volume)
      (hframes : s.frames = a :: rest) (hrun : ∀ code, a.pc ≠ .ret code)
      (hnot : ¬ (a.pc = .fsync ∧ t.tempOnRamfs cwd = true))
      (hanswer : t.answer cwd a (s.vol t cwd) o = some o')
      (hstep : a.step (s.src t cwd own) o' (s.vol t cwd) = some (a', v')) :
      NestMove t cwd own s o ⟨a' :: rest, s.setVol t cwd v'⟩

/-- **Inversion** of a step of the stack. -/
theorem nestMove_of_step (hstep : s.step t cwd own o = some s') : NestMove t cwd own s o s' := by
  unfold Nest.step at hstep
  cases hframes : s.frames with
  | nil =>
    -- nobody is active any more
    rw [hframes] at hstep
    cases hstep
  | cons a rest =>
    rw [hframes] at hstep
    dsimp only at hstep
    cases hres : a.result? with
    | some code =>
      rw [hres] at hstep
      cases rest with
      | nil => cases hstep
      | cons b below =>
        obtain ⟨⟨b', v'⟩, hact, rfl⟩ := Option.map_eq_some_iff.mp hstep
        exact .leave a b b' below code v' hframes (Act.result?_eq_some.mp hres) hact
    | none =>
      rw [hres] at hstep
      dsimp only at hstep
      split at hstep
      · next hfsync =>
        cases hstep
        exact .enter a rest hframes hfsync.1 hfsync.2
      · next hnot =>
        obtain ⟨o', hanswer, hmap⟩ := Option.bind_eq_some_iff.mp hstep
        obtain ⟨⟨a', v'⟩, hact, rfl⟩ := Option.map_eq_some_iff.mp hmap
        exact .prim a a' rest o' v' hframes (Act.result?_eq_none.mp hres) hnot hanswer hact

/-- What holds of the stack in every run that began with the directories `dirs`: the activations
below the innermost one wait in their `vfs_fsync`, an activation comes to the rename only through a
directory, and all that changes is the directory the path leads to. -/
structure Stacked (t : SyncTarget) (cwd : Node) (dirs : Node → Volume) (s : Nest) : Prop where
  waiting : ∀ b ∈ s.frames.tail, b.pc = .fsync
  renames : ∀ b ∈ s.frames, b.pc = .rename ∨ b.pc = .ret 0 →
    t.ns.dirAt false cwd t.path = true
  others : ∀ d, t.tempDir cwd ≠ some d → s.dirs d = dirs d

theorem Nest.setVol_ne {d : Node} (hd : t.tempDir cwd ≠ some d) (v : Volume) :
    s.setVol t cwd v d = s.dirs d := by
  unfold Nest.setVol
  cases htemp : t.tempDir cwd with
  | none => rfl
  | some d' =>
    have hne : d ≠ d' := fun h => hd (by rw [htemp, h])
    exact Function.update_of_ne hne _ _

/-- A step of an activation comes to the rename from the lookup of the new name, and to a return
with 0 from the rename. -/
theorem dirAt_of_step {src : Bytes} {o' : Outcome} {a' : Act} {v v' : Volume}
    (hanswer : t.answer cwd a v o = some o') (hstep : a.step src o' v = some (a', v'))
    (hbefore : a.pc = .rename ∨ a.pc = .ret 0 → t.ns.dirAt false cwd t.path = true)
    (hafter : a'.pc = .rename ∨ a'.pc = .ret 0) : t.ns.dirAt false cwd t.path = true := by
  rcases hafter with hrename | hret
  · have hnew := (Act.step_rename hstep hrename).1
    simp only [SyncTarget.answer, hnew] at hanswer
    split at hanswer
    · next hdir => exact hdir
    · cases hanswer
  · exact hbefore (Or.inl (Act.step_ret hstep hret).1)

/-- **One step** of the stack. -/
theorem Stacked.step {dirs : Node → Volume} (h : Stacked t cwd dirs s)
    (hstep : s.step t cwd own o = some s') : Stacked t cwd dirs s' := by
  cases nestMove_of_step hstep with
  | enter a rest hframes hpc hram =>
    obtain ⟨hwaiting, hrenames, hothers⟩ := h
    rw [hframes] at hwaiting hrenames
    refine ⟨List.forall_mem_cons.mpr ⟨hpc, hwaiting⟩, List.forall_mem_cons.mpr ⟨?_, hrenames⟩,
      hothers⟩
    -- a new activation is at its beginning
    rintro (h | h) <;> cases h
  | leave a b b' below code v' hframes hpc hact =>
    obtain ⟨hwaiting, hrenames, hothers⟩ := h
    rw [hframes] at hwaiting hrenames
    have hb : b.pc = .fsync := hwaiting b List.mem_cons_self
    refine ⟨fun x hx => hwaiting x (List.mem_cons_of_mem _ hx), ?_, ?_⟩
    · refine List.forall_mem_cons.mpr ⟨?_, fun x hx =>
        hrenames x (List.mem_cons_of_mem _ (List.mem_cons_of_mem _ hx))⟩
      -- from its `vfs_fsync` an activation comes to neither
      rintro (hrename | hret)
      · rw [(Act.step_rename hact hrename).1] at hb
        cases hb
      · rw [(Act.step_ret hact hret).1] at hb
        cases hb
    · exact fun d hd => (Nest.setVol_ne hd v').trans (hothers d hd)
  | prim a a' rest o' v' hframes hrun hnot hanswer hact =>
    obtain ⟨hwaiting, hrenames, hothers⟩ := h
    rw [hframes] at hwaiting hrenames
    obtain ⟨hfirst, hrest⟩ := List.forall_mem_cons.mp hrenames
    refine ⟨hwaiting, List.forall_mem_cons.mpr ⟨dirAt_of_step hanswer hact hfirst, hrest⟩, ?_⟩
    exact fun d hd => (Nest.setVol_ne hd v').trans (hothers d hd)

theorem stacked_start (dirs : Node → Volume) : Stacked t cwd dirs (Nest.start name dirs) where
  waiting := by simp [Nest.start]
  renames := by simp [Nest.start, ramfsFileFlush]
  others := fun _ _ => rfl

/-! ## Outside ramfs

The path leads the flusher, with or without following a last link, to the directory that was bound,
and that directory is not on ramfs. -/

/-- Looked up as the flush does before the rename, the path leads to the directory that was
bound. -/
def SyncTarget.LeadsBack (t : SyncTarget) (cwd : Node) : Prop :=
  t.ns.kernPath false cwd t.path = .ok t.dir

theorem SyncTarget.isDir_dir (t : SyncTarget) : t.ns.isDir t.dir = true :=
  (Namespace.validate_ok t.bound).2.1

/-- Then there is no link to follow. -/
theorem SyncTarget.LeadsBack.follow (h : t.LeadsBack cwd) :
    t.ns.kernPath true cwd t.path = .ok t.dir :=
  t.ns.kernPath_follow h t.isDir_dir

theorem SyncTarget.LeadsBack.tempDir (h : t.LeadsBack cwd) : t.tempDir cwd = some t.dir := by
  unfold SyncTarget.tempDir
  rw [h.follow]
  rfl

theorem SyncTarget.LeadsBack.vol (h : t.LeadsBack cwd) : s.vol t cwd = s.dirs t.dir := by
  unfold Nest.vol
  rw [h.tempDir]
  rfl

theorem SyncTarget.LeadsBack.vol_setVol (h : t.LeadsBack cwd) (fs : List Act) :
    Nest.vol t cwd ⟨fs, s.setVol t cwd v⟩ = v := by
  unfold Nest.vol Nest.setVol
  rw [h.tempDir]
  exact Function.update_self _ _ _

/-- The path of the temp file is printed whole. -/
theorem SyncTarget.drop_tmpPath (hname : name.length ≤ 255) :
    (t.tmpPath name).drop (t.path.length + 1) = tmpName name := by
  have hfits := t.fits
  have hlen : (t.path ++ '/'.toUInt8 :: tmpName name).length ≤ pathMax - 1 := by
    simp only [List.length_append, List.length_cons, tmpName, ramfsMaxPath, pathMax,
      List.length_nil] at hfits ⊢
    omega
  unfold SyncTarget.tmpPath snprintf
  rw [List.take_of_length_le hlen, List.drop_append, List.drop_of_length_le (by omega)]
  simp

/-- A name of at most 250 bytes leaves room for the temp file's. -/
theorem SyncTarget.LeadsBack.openTmp (h : t.LeadsBack cwd) (hname : name.length ≤ 250) :
    t.openTmp cwd name = .ok 0 := by
  have hlen : ¬ 255 < ((t.tmpPath name).drop (t.path.length + 1)).length := by
    rw [SyncTarget.drop_tmpPath (by omega)]
    simp only [tmpName, List.length_cons, List.length_append, List.length_nil]
    omega
  unfold SyncTarget.openTmp
  rw [h.follow]
  dsimp only
  rw [t.isDir_dir, if_neg (by decide), if_neg hlen]

/-- **The tree stands in nobody's way.** Where the path leads back, a primitive that the environment
lets succeed does. -/
theorem SyncTarget.LeadsBack.answer (h : t.LeadsBack cwd) (hname : a.name.length ≤ 250)
    (hcopies : Copies own own a v) (n : Nat) :
    t.answer cwd a v (.ok n) = some (.ok (if a.pc = .openTmp then 0 else n)) := by
  cases hpc : a.pc with
  | openTmp =>
    simp only [SyncTarget.answer, hpc, if_true]
    rw [h.openTmp hname]
  | lookupTmp | rename =>
    -- the temp file is linked from the open on
    simp only [Copies, hpc] at hcopies
    simp [SyncTarget.answer, hpc, hcopies.linked]
  | lookupDir => simp [SyncTarget.answer, hpc, show t.ns.kernPath false cwd t.path = _ from h]
  | lookupNew =>
    -- the path leads to a directory again
    have hdir : t.ns.dirAt false cwd t.path = true := by
      unfold Namespace.dirAt
      rw [show t.ns.kernPath false cwd t.path = .ok t.dir from h]
      exact t.isDir_dir
    simp [SyncTarget.answer, hpc, hdir]
  | _ => simp [SyncTarget.answer, hpc]

/-- One activation, of the first call, that has met no error. -/
def Single (t : SyncTarget) (cwd : Node) (name : Name) (own : Bytes) (s : Nest) : Prop :=
  ∃ a, s.frames = [a] ∧ a.name = name ∧ Copies own own a (s.vol t cwd) ∧
    ∀ code, a.pc = .ret code → code = 0

def Nest.distance (own : Bytes) (s : Nest) : Nat := (s.frames.map (Act.distance own)).sum

theorem Nest.src_single (hframes : s.frames = [a]) : s.src t cwd own = own := by
  simp only [Nest.src, hframes]

theorem SyncTarget.LeadsBack.tempOnRamfs (h : t.LeadsBack cwd) (hram : t.onRamfs t.dir = false) :
    t.tempOnRamfs cwd = false := by
  unfold SyncTarget.tempOnRamfs
  rw [h.tempDir]
  exact hram

/-- The next primitive of an activation that is alone. -/
theorem Nest.step_single (hram : t.tempOnRamfs cwd = false) (hframes : s.frames = [a])
    (hrun : ∀ code, a.pc ≠ .ret code) {o' : Outcome}
    (hanswer : t.answer cwd a (s.vol t cwd) o = some o') :
    s.step t cwd own o =
      (a.step (sourceAt own own a) o' (s.vol t cwd)).map fun r =>
        ⟨[r.1], s.setVol t cwd r.2⟩ := by
  have hsource : sourceAt own own a = own := ite_self own
  simp [Nest.step, Nest.src, hframes, Act.result?_eq_none.mpr hrun, hram, hsource, hanswer]

/-- **One step** of a lone activation, nearer to its return. -/
theorem Single.step (h : Single t cwd name own s) (hback : t.LeadsBack cwd)
    (hram : t.onRamfs t.dir = false) (hname : name.length ≤ 250) (hok : Succeeds t cwd own s o)
    (hstep : s.step t cwd own o = some s') :
    Single t cwd name own s' ∧ s'.distance own < s.distance own := by
  obtain ⟨a, hframes, hnamed, hcopies, -⟩ := h
  -- the guard, with the content of the file as the source
  have htransfers : Transfers own a o := by
    have hall := hok.2 a (by rw [hframes]; rfl)
    rwa [Nest.src_single hframes] at hall
  obtain ⟨n, rfl⟩ : ∃ n, o = .ok n := by
    cases o with
    | ok n => exact ⟨n, rfl⟩
    | err e => exact absurd hok.1 (by simp [Outcome.isOk])
  -- the step shows that the activation has not returned
  have hrun : ∀ code, a.pc ≠ .ret code := by
    intro code hcode
    simp [Nest.step, hframes, Act.result?_eq_some.mpr hcode] at hstep
  -- the count the primitive answers with is as good as the environment's
  have hanswered : Transfers own a (.ok (if a.pc = .openTmp then 0 else n)) := by
    split
    · next hpc => exact Or.inl (by simp [Advances, hpc])
    · exact htransfers
  rw [Nest.step_single (hback.tempOnRamfs hram) hframes hrun
    (hback.answer (hnamed ▸ hname) hcopies n)] at hstep
  obtain ⟨⟨a', v'⟩, hact, rfl⟩ := Option.map_eq_some_iff.mp hstep
  obtain ⟨hlt, hret⟩ := hcopies.closer hanswered hact
  refine ⟨⟨a', rfl, (Act.step_name hact).trans hnamed, ?_, hret⟩, ?_⟩
  · rw [hback.vol_setVol]
    exact hcopies.step hanswered hact
  · simpa [Nest.distance, hframes] using hlt

/-- It has returned, or can go on. -/
theorem Single.progress (h : Single t cwd name own s) (hback : t.LeadsBack cwd)
    (hram : t.onRamfs t.dir = false) (hname : name.length ≤ 250) :
    (∃ code, s.Returned code) ∨ ∃ o s', Succeeds t cwd own s o ∧ s.step t cwd own o = some s' := by
  obtain ⟨a, hframes, hnamed, hcopies, -⟩ := h
  cases hres : a.result? with
  | some code => exact Or.inl ⟨code, a, hframes, Act.result?_eq_some.mp hres⟩
  | none =>
    right
    have hrun := Act.result?_eq_none.mp hres
    -- the open answers 0, and that is the most it can move
    have hmost : (if a.pc = .openTmp then 0 else a.most own) = a.most own := by
      split
      · next hpc => simp only [Act.most, hpc]
      · rfl
    have hanswer := hback.answer (hnamed ▸ hname) hcopies (a.most own)
    rw [hmost] at hanswer
    obtain ⟨a', v', hact⟩ := hcopies.progress hrun
    refine ⟨.ok (a.most own), ⟨[a'], s.setVol t cwd v'⟩, ⟨rfl, ?_⟩, ?_⟩
    · intro b hb
      rw [hframes] at hb
      cases hb
      rw [Nest.src_single hframes]
      exact transfers_most hcopies
    · rw [Nest.step_single (hback.tempOnRamfs hram) hframes hrun hanswer, hact]
      rfl

/-- The activation has not got past its `vfs_fsync`: it stands in front of it or has failed. -/
def Act.Before (a : Act) : Prop :=
  match a.pc with
  | .close | .kmallocTmp | .lookupTmp | .lookupDir | .lookupNew | .rename => False
  | .ret code => code ≠ 0
  | _ => True

theorem Act.Before.fail (e : Errno) : (a.fail e).Before := by
  show -(e.num : Int) ≠ 0
  have hpos := e.num_pos
  omega

theorem Act.Before.step {src : Bytes} {a' : Act} {v' : Volume} (h : a.Before)
    (hpc : a.pc ≠ .fsync) (hstep : a.step src o v = some (a', v')) : a'.Before := by
  by_cases hadv : Advances a o
  · cases hmove : move_of_step hadv hstep with
    | fail e _ => exact Act.Before.fail e
    | quiet q hquiet =>
      cases hq : a.pc <;> rw [hq] at hquiet <;> cases hquiet
      all_goals first | exact trivial | (simp only [Act.Before, hq] at h)
    | openTmp _ | begin _ | read _ _ | leave _ _ | write _ _ _ _ _ => exact trivial
    | fsync hfsync => exact absurd hfsync hpc
    | rename hrename => simp only [Act.Before, hrename] at h
  · rcases idle_of_step hadv hstep with ⟨-, -, rfl, -⟩ | ⟨buf, -, rfl, -⟩
    · exact trivial
    · exact trivial

/-- No activation gets past its `vfs_fsync`. -/
def Blocked (s : Nest) : Prop := ∀ a ∈ s.frames, a.Before

theorem Blocked.step {dirs : Node → Volume} (h : Blocked s) (hstacked : Stacked t cwd dirs s)
    (hram : t.tempOnRamfs cwd = true) (hstep : s.step t cwd own o = some s') : Blocked s' := by
  unfold Blocked at h ⊢
  cases nestMove_of_step hstep with
  | enter a rest hframes hpc _ =>
    -- the new activation has not done anything
    rw [hframes] at h
    exact List.forall_mem_cons.mpr ⟨trivial, h⟩
  | leave a b b' below code v' hframes hpc hact =>
    have hwaiting := hstacked.waiting
    rw [hframes] at h hwaiting
    obtain ⟨hfailed, hbelow⟩ := List.forall_mem_cons.mp h
    have hb : b.pc = .fsync := hwaiting b List.mem_cons_self
    have hcode : code ≠ 0 := by
      simp only [Act.Before, hpc] at hfailed
      exact hfailed
    -- the activation below sees the error and leaves
    simp only [Act.step, hb, fsyncOutcome, hcode, dif_neg, not_false_eq_true, Option.some.injEq,
      Prod.mk.injEq] at hact
    obtain ⟨rfl, -⟩ := hact
    exact List.forall_mem_cons.mpr ⟨Act.Before.fail _, (List.forall_mem_cons.mp hbelow).2⟩
  | prim a a' rest o' v' hframes hrun hnot hanswer hact =>
    rw [hframes] at h
    obtain ⟨hbefore, hrest⟩ := List.forall_mem_cons.mp h
    have hpc : a.pc ≠ .fsync := fun hfsync => hnot ⟨hfsync, hram⟩
    exact List.forall_mem_cons.mpr ⟨hbefore.step hpc hact, hrest⟩

/-- The world shows the stack: the path is bound, and flush `k` is the activation `k` places above
the first. -/
structure Shows (t : SyncTarget) (cwd : Node) (s : Nest) (w : World Nat) : Prop where
  syncDir : w.syncDir = some t.path
  dirs : w.dirs = s.dirs
  flushes : ∀ k b, s.frames.reverse[k]? = some b →
    ∃ f, w.flushes k = some f ∧ f.cwd = cwd ∧ f.path = t.path ∧ f.act = b

/-- Where a flush of this path by this process works. -/
theorem Shows.vol {w : World Nat} (h : Shows t cwd s w) {f : Running} (hcwd : f.cwd = cwd)
    (hpath : f.path = t.path) : w.vol (f.dir t.ns) = s.vol t cwd := by
  unfold World.vol Running.dir Nest.vol SyncTarget.tempDir
  rw [hcwd, hpath, h.dirs]

theorem Shows.setVol {w : World Nat} (h : Shows t cwd s w) {f : Running} (hcwd : f.cwd = cwd)
    (hpath : f.path = t.path) (v : Volume) : w.setVol (f.dir t.ns) v = s.setVol t cwd v := by
  unfold World.setVol Running.dir Nest.setVol SyncTarget.tempDir
  rw [hcwd, hpath, h.dirs]

/-- The activations numbered from below: the topmost has the last number. -/
theorem getElem?_reverse_cons {b x : Act} {rest : List Act} {k : Nat}
    (h : (b :: rest).reverse[k]? = some x) :
    k = rest.length ∧ x = b ∨ k < rest.length ∧ rest.reverse[k]? = some x := by
  rw [List.reverse_cons, List.getElem?_append] at h
  split at h
  · next hlt =>
    rw [List.length_reverse] at hlt
    exact Or.inr ⟨hlt, h⟩
  · next hge =>
    rw [List.length_reverse] at hge h
    have hlast := List.getElem?_eq_some_iff.mp h
    obtain ⟨hk, hx⟩ := hlast
    rw [List.length_singleton] at hk
    simp only [List.getElem_singleton] at hx
    exact Or.inl ⟨by omega, hx.symm⟩

theorem getElem?_reverse_cons_lt (b : Act) {rest : List Act} {k : Nat} (h : k < rest.length) :
    (b :: rest).reverse[k]? = rest.reverse[k]? := by
  rw [List.reverse_cons, List.getElem?_append_left (by simpa using h)]

/-- A step of the activation on top of `rest`, as a primitive of its flush. -/
theorem Shows.prim {w : World Nat} {b b' : Act} {rest : List Act} {v' : Volume} {src : Bytes}
    {o' : Outcome} (h : Shows t cwd ⟨b :: rest, s.dirs⟩ w)
    (hstep : b.step src o' (s.vol t cwd) = some (b', v'))
    (hanswers : ∀ f : Running, f.cwd = cwd → f.path = t.path → f.act = b →
      Answers t.ns f (s.vol t cwd) o') :
    ∃ l w', Follows t.ns w l ∧ w.step t.ns l = some w' ∧
      Shows t cwd ⟨b' :: rest, s.setVol t cwd v'⟩ w' := by
  obtain ⟨f, hf, hcwd, hpath, rfl⟩ := h.flushes rest.length b (by simp)
  have hvol : w.vol (f.dir t.ns) = s.vol t cwd := h.vol hcwd hpath
  have hset : w.setVol (f.dir t.ns) v' = s.setVol t cwd v' := h.setVol hcwd hpath v'
  refine ⟨.prim rest.length src o',
    { w with
      dirs := w.setVol (f.dir t.ns) v'
      flushes := Function.update w.flushes rest.length (some { f with act := b' }) },
    ?_, ?_, h.syncDir, hset, ?_⟩
  · intro g hg
    rw [hf] at hg
    cases hg
    rw [hvol]
    exact hanswers f hcwd hpath rfl
  · simp only [World.step, hf, Option.bind_some, hvol, hstep, Option.map_some]
  · intro k x hx
    rcases getElem?_reverse_cons hx with ⟨rfl, rfl⟩ | ⟨hlt, hx⟩
    · exact ⟨{ f with act := x }, Function.update_self _ _ _, hcwd, hpath, rfl⟩
    · obtain ⟨g, hg, hrest⟩ := h.flushes k x (by rw [getElem?_reverse_cons_lt _ hlt, hx])
      exact ⟨g, (Function.update_of_ne (Nat.ne_of_lt hlt) _ _).trans hg, hrest⟩

/-- The tree's answers are among those the other model allows. -/
theorem answers_of_answer {o' : Outcome} (hanswer : t.answer cwd a v o = some o') (f : Running)
    (hcwd : f.cwd = cwd) (hpath : f.path = t.path) (hact : f.act = a) : Answers t.ns f v o' := by
  subst hact
  rw [← hcwd] at hanswer
  refine ⟨fun hpc hisOk => ?_, fun hpc hisOk => ?_, fun hpc hisOk => ?_⟩ <;>
    simp only [SyncTarget.answer, hpc] at hanswer
  -- the open has succeeded, so the walk ended in a directory
  · cases hanswer
    rw [hpath]
    unfold SyncTarget.openTmp at hisOk
    unfold Namespace.dirAt
    cases hk : t.ns.kernPath true f.cwd t.path with
    | error e =>
      rw [hk] at hisOk
      cases hisOk
    | ok d =>
      rw [hk] at hisOk
      dsimp only at hisOk ⊢
      cases hdir : t.ns.isDir d with
      | true => rfl
      | false =>
        rw [hdir, if_pos rfl] at hisOk
        cases hisOk
  -- `lookup_one_len` has an answer below a directory only
  · rw [hpath]
    split at hanswer
    · next hdir => exact hdir
    · cases hanswer
  -- the rename has found the temp file
  · cases hanswer
    split at hisOk
    · next hsome => exact hsome
    · cases hisOk

/-- **One step of the stack is one step of the world.** -/
theorem Shows.step {w : World Nat} {dirs : Node → Volume} (h : Shows t cwd s w)
    (hstacked : Stacked t cwd dirs s) (hstep : s.step t cwd own o = some s') :
    ∃ l w', Follows t.ns w l ∧ w.step t.ns l = some w' ∧ Shows t cwd s' w' := by
  cases nestMove_of_step hstep with
  | enter a rest hframes hpc hram =>
    -- the flush of the temp file copies the bound path, as the first one did
    have hcopy : w.syncDir = some t.path := h.syncDir
    refine ⟨.flush (rest.length + 1) [] cwd (tmpName a.name),
      { w with
        flushes := Function.update w.flushes (rest.length + 1)
          (some ⟨[], cwd, t.path, ramfsFileFlush true true (tmpName a.name), w.log⟩) },
      trivial, ?_, h.syncDir, h.dirs, ?_⟩
    · simp only [World.step, hcopy]
    · intro k x hx
      rcases getElem?_reverse_cons hx with ⟨rfl, rfl⟩ | ⟨hlt, hx⟩
      · exact ⟨_, Function.update_self _ _ _, rfl, rfl, rfl⟩
      · obtain ⟨g, hg, hrest⟩ := h.flushes k x (by rw [hframes, hx])
        exact ⟨g, (Function.update_of_ne (Nat.ne_of_lt hlt) _ _).trans hg, hrest⟩
  | leave a b b' below code v' hframes hpc hact =>
    have hwaiting := hstacked.waiting
    rw [hframes] at hwaiting
    have hb : b.pc = .fsync := hwaiting b List.mem_cons_self
    -- what has returned is dropped from the stack and stays in the world
    have hbelow : Shows t cwd ⟨b :: below, s.dirs⟩ w := by
      refine ⟨h.syncDir, h.dirs, fun k x hx => h.flushes k x ?_⟩
      have hlt : k < (b :: below).length := by
        have hk := (List.getElem?_eq_some_iff.mp hx).1
        rwa [List.length_reverse] at hk
      rw [hframes, getElem?_reverse_cons_lt a hlt, hx]
    refine hbelow.prim hact fun f _ _ hf => ?_
    exact ⟨by simp [hf, hb], by simp [hf, hb], by simp [hf, hb]⟩
  | prim a a' rest o' v' hframes hrun hnot hanswer hact =>
    have hsame : Shows t cwd ⟨a :: rest, s.dirs⟩ w := ⟨h.syncDir, h.dirs, hframes ▸ h.flushes⟩
    exact hsame.prim hact (answers_of_answer hanswer)

/-- **The stack is a run of flushes.** From every world in which the path is bound, each run of the
stack is matched by a run of the world in which the same activations have done the same to the
same directories. -/
theorem Nest.reach_world {w₀ : World Nat} (hbound : w₀.syncDir = some t.path)
    (hrun : Reach (Nest.step t cwd own) (Succeeds t cwd own) (Nest.start name w₀.dirs) s) :
    ∃ w, Reach (World.step t.ns) (Follows t.ns) w₀ w ∧ Shows t cwd s w := by
  have hall : Stacked t cwd w₀.dirs s ∧
      ∃ w, Reach (World.step t.ns) (Follows t.ns) w₀ w ∧ Shows t cwd s w := by
    refine hrun.inv (I := fun s => Stacked t cwd w₀.dirs s ∧
      ∃ w, Reach (World.step t.ns) (Follows t.ns) w₀ w ∧ Shows t cwd s w) ?_ ?_
    · refine ⟨stacked_start _, ?_⟩
      -- the first call
      have hflush : w₀.step t.ns (.flush 0 [] cwd name) = some
          { w₀ with
            flushes := Function.update w₀.flushes 0
              (some ⟨[], cwd, t.path, ramfsFileFlush true true name, w₀.log⟩) } := by
        simp only [World.step, hbound]
      refine ⟨_, .single (l := .flush 0 [] cwd name) trivial hflush, hbound, rfl, ?_⟩
      intro k x hx
      rcases getElem?_reverse_cons hx with ⟨rfl, rfl⟩ | ⟨hlt, -⟩
      · exact ⟨⟨[], cwd, t.path, ramfsFileFlush true true name, w₀.log⟩,
          Function.update_self 0 _ w₀.flushes, rfl, rfl, rfl⟩
      · exact absurd hlt (Nat.not_lt_zero k)
    · rintro s s' o ⟨hstacked, w, hreach, hshows⟩ _ hstep
      obtain ⟨l, w', hfollows, hw, hshows'⟩ := hshows.step hstacked hstep
      exact ⟨hstacked.step hstep, w', hreach.tail hfollows hw, hshows'⟩
  exact hall.2

end

/-! ## Both cases

For the converse it is enough to look at directories that are all empty: the file must have come
into the bound directory during the run, and only the directory that the path leads to has changed.
-/

end OsHomework.Ramfs
