import Mathlib.Data.List.DropRight
import Mathlib.Logic.Function.Basic
import OsHomework.Lib.ByteFile

/-!
# Gptfs — the file system of `gptfs.py`

Every session is a directory with the three files `input`, `output` and `error`, created by `mkdir`
in the root. The dictionaries `files`, `file_attrs` and `locks` are functions on path strings; a
method returns what the Python method returns or raises, with the object as it leaves it. A method
that takes a lock holds it from its first access of the file to its return, so a call is one step.

* **`GPTfs.Wf.effect`** — the effects a call can have on an object whose dictionaries have the keys
  the sessions ask for; **`Effect.wf`** — no call breaks that.
-/

namespace OsHomework.Gptfs

open ByteFile

abbrev Str := List Char

/-- The error numbers the methods raise. -/
inductive Errno where
  | enoent
  | eperm
  | einval
  deriving DecidableEq

/-- `FuseOSError(errno)`, or the `KeyError` of a dictionary without the key. -/
inductive PyError where
  | fuseOSError (errno : Errno)
  | keyError
  deriving DecidableEq

structure Attr where
  stMode : Nat
  stNlink : Nat
  stSize : Nat
  stCtime : Nat
  stMtime : Nat
  stAtime : Nat
  stUid : Nat
  stGid : Nat
  deriving DecidableEq

structure GPTfs where
  files : Str → Option Bytes
  fileAttrs : Str → Option Attr
  locks : Str → Bool
  sessions : List Str
  uid : Nat
  gid : Nat

/-! ## Paths

`_full_path` adds the slash if it is missing, and the other two functions split what is left when
all slashes at both ends are stripped. FUSE only ever passes absolute paths, but the methods do not
rely on it, and neither do the results: they are about any string. -/

/-- `_full_path` -/
def fullPath (path : Str) : Str := if path.head? = some '/' then path else '/' :: path

/-- `path.strip('/')` -/
def strip (path : Str) : Str := (path.dropWhile (· == '/')).rdropWhile (· == '/')

/-- `_get_session_from_path` -/
def getSessionFromPath (path : Str) : Option Str := ((strip path).splitOn '/').head?

/-- `_get_file_from_path` -/
def getFileFromPath (path : Str) : Option Str := ((strip path).splitOn '/')[1]?

def inputName : Str := "input".toList
def outputName : Str := "output".toList
def errorName : Str := "error".toList

/-- The files of a session. -/
def sessionFiles : List Str := [inputName, outputName, errorName]

/-- The path of a session's directory. -/
def sessionPath (sessionId : Str) : Str := '/' :: sessionId

/-- The path of a file of a session. -/
def filePath (sessionId name : Str) : Str := sessionPath sessionId ++ '/' :: name

/-! ## The constructor and `_initialize_session`

Only `mkdir` creates anything. A session appears with its three files at once, each of them empty,
with attributes and a lock of its own; the directory has attributes and no lock. -/

def sIfdir : Nat := 0o040000
def sIfreg : Nat := 0o100000

/-- The attributes of a new directory. -/
def dirAttr (uid gid now : Nat) : Attr where
  stMode := sIfdir ||| 0o755
  stNlink := 2
  stSize := 0
  stCtime := now
  stMtime := now
  stAtime := now
  stUid := uid
  stGid := gid

/-- The attributes of a new file. -/
def fileAttr (uid gid now : Nat) : Attr where
  stMode := sIfreg ||| 0o644
  stNlink := 1
  stSize := 0
  stCtime := now
  stMtime := now
  stAtime := now
  stUid := uid
  stGid := gid

/-- `__init__` -/
def GPTfs.init (uid gid now : Nat) : GPTfs where
  files := fun _ => none
  fileAttrs := Function.update (fun _ => none) ['/'] (some (dirAttr uid gid now))
  locks := fun _ => false
  sessions := []
  uid := uid
  gid := gid

/-- One iteration of the loop over the files of a new session. -/
def GPTfs.createFile (now : Nat) (fs : GPTfs) (path : Str) : GPTfs :=
  { fs with
    files := Function.update fs.files path (some [])
    fileAttrs := Function.update fs.fileAttrs path (some (fileAttr fs.uid fs.gid now))
    locks := Function.update fs.locks path true }

/-- `_initialize_session` -/
def GPTfs.initializeSession (fs : GPTfs) (sessionId : Str) (now : Nat) : GPTfs :=
  if sessionId ∈ fs.sessions then fs
  else
    let dir := { fs with
      fileAttrs := Function.update fs.fileAttrs (sessionPath sessionId)
        (some (dirAttr fs.uid fs.gid now)) }
    let full := (sessionFiles.map (filePath sessionId)).foldl (createFile now) dir
    { full with sessions := full.sessions ++ [sessionId] }

/-! ## The FUSE methods

Each method returns what the Python code returns, or the exception it ends with. `KeyError` is among
them: `setContent` stores the content first and looks up the attributes afterwards, so an object
with a missing key would be left half changed. That this does not happen is a result about the keys,
below. -/

def GPTfs.getattr (fs : GPTfs) (path : Str) : Except PyError Attr :=
  match fs.fileAttrs (fullPath path) with
  | none => .error (.fuseOSError .enoent)
  | some attr => .ok attr

def GPTfs.readdir (fs : GPTfs) (path : Str) : Except PyError (List Str) :=
  if fullPath path = ['/'] then .ok (['.'] :: ['.', '.'] :: fs.sessions)
  else
    match getSessionFromPath (fullPath path) with
    | none => .error (.fuseOSError .enoent)
    | some sessionId =>
      if sessionId ∈ fs.sessions then .ok (['.'] :: ['.', '.'] :: sessionFiles)
      else .error (.fuseOSError .enoent)

def GPTfs.mkdir (fs : GPTfs) (path : Str) (now : Nat) : Except PyError Nat × GPTfs :=
  if (fullPath path).count '/' ≠ 1 then (.error (.fuseOSError .eperm), fs)
  else if strip (fullPath path) = [] then (.error (.fuseOSError .einval), fs)
  else (.ok 0, fs.initializeSession (strip (fullPath path)) now)

def GPTfs.openFile (fs : GPTfs) (path : Str) : Except PyError Nat :=
  match fs.fileAttrs (fullPath path) with
  | none => .error (.fuseOSError .enoent)
  | some _ => .ok 0

def GPTfs.read (fs : GPTfs) (path : Str) (size offset : Nat) : Except PyError Bytes :=
  match fs.files (fullPath path) with
  | none => .error (.fuseOSError .enoent)
  -- `data[offset:offset + size]`
  | some data => .ok ((data.take (offset + size)).drop offset)

/-- `files[path] = content`, then `st_size` and `st_mtime` of `file_attrs[path]`. -/
def GPTfs.setContent (fs : GPTfs) (path : Str) (content : Bytes) (size now : Nat) :
    Except PyError Unit × GPTfs :=
  let stored := { fs with files := Function.update fs.files path (some content) }
  match fs.fileAttrs path with
  | none => (.error .keyError, stored)
  | some attr =>
    (.ok (), { stored with
      fileAttrs := Function.update fs.fileAttrs path
        (some { attr with stSize := size, stMtime := now }) })

/-- The content after a write: `content[:offset] + data`, and what lies behind. -/
def newContent (content data : Bytes) (offset : Nat) : Bytes :=
  if offset + data.length < content.length then
    content.take offset ++ data ++ content.drop (offset + data.length)
  else content.take offset ++ data

/-- The number of bytes written and the session for which a worker thread is started. -/
def GPTfs.write (fs : GPTfs) (path : Str) (data : Bytes) (offset now : Nat) :
    Except PyError (Nat × Option Str) × GPTfs :=
  match fs.files (fullPath path) with
  -- the check for `enoent` comes before the one for the name
  | none => (.error (.fuseOSError .enoent), fs)
  | some content =>
    if getFileFromPath (fullPath path) ≠ some inputName then (.error (.fuseOSError .eperm), fs)
    else
      let new := newContent content data offset
      match fs.setContent (fullPath path) new new.length now with
      | (.error e, fs') => (.error e, fs')
      | (.ok _, fs') => (.ok (data.length, getSessionFromPath (fullPath path)), fs')

def GPTfs.truncate (fs : GPTfs) (path : Str) (length now : Nat) : Except PyError Unit × GPTfs :=
  match fs.files (fullPath path) with
  | none => (.error (.fuseOSError .enoent), fs)
  | some content =>
    if getFileFromPath (fullPath path) ≠ some inputName then (.error (.fuseOSError .eperm), fs)
    else fs.setContent (fullPath path) (content.take length) length now

def GPTfs.utimens (fs : GPTfs) (path : Str) (times : Option (Nat × Nat)) (now : Nat) :
    Except PyError Unit × GPTfs :=
  match fs.fileAttrs (fullPath path) with
  | none => (.error (.fuseOSError .enoent), fs)
  | some attr =>
    let (atime, mtime) := times.getD (now, now)
    (.ok (), { fs with
      fileAttrs := Function.update fs.fileAttrs (fullPath path)
        (some { attr with stAtime := atime, stMtime := mtime }) })

/-- The methods with their arguments; the last five are refused whatever they are given. -/
inductive Op where
  | getattr (path : Str)
  | readdir (path : Str)
  | mkdir (path : Str) (mode : Nat)
  | openFile (path : Str) (flags : Nat)
  | read (path : Str) (size offset : Nat)
  | write (path : Str) (data : Bytes) (offset : Nat)
  | truncate (path : Str) (length : Nat)
  | utimens (path : Str) (times : Option (Nat × Nat))
  | create (path : Str) (mode : Nat)
  | unlink (path : Str)
  | rmdir (path : Str)
  | chmod (path : Str) (mode : Nat)
  | chown (path : Str) (uid gid : Nat)
  deriving DecidableEq

inductive Reply where
  | attr (attr : Attr)
  | entries (names : List Str)
  | number (n : Nat)
  | bytes (data : Bytes)
  | nothing
  deriving DecidableEq

/-- A call: what it returns or raises, the object after it, and the session it starts a worker
for. -/
def GPTfs.call (fs : GPTfs) (op : Op) (now : Nat) : Except PyError Reply × GPTfs × Option Str :=
  match op with
  | .getattr path => ((fs.getattr path).map .attr, fs, none)
  | .readdir path => ((fs.readdir path).map .entries, fs, none)
  | .mkdir path _ => ((fs.mkdir path now).1.map .number, (fs.mkdir path now).2, none)
  | .openFile path _ => ((fs.openFile path).map .number, fs, none)
  | .read path size offset => ((fs.read path size offset).map .bytes, fs, none)
  | .write path data offset =>
    match fs.write path data offset now with
    | (.error e, fs') => (.error e, fs', none)
    | (.ok (n, session), fs') => (.ok (.number n), fs', session)
  | .truncate path length =>
    ((fs.truncate path length now).1.map fun _ => .nothing, (fs.truncate path length now).2, none)
  | .utimens path times =>
    ((fs.utimens path times now).1.map fun _ => .nothing, (fs.utimens path times now).2, none)
  | .create _ _ | .unlink _ | .rmdir _ | .chmod _ _ | .chown _ _ _ =>
    (.error (.fuseOSError .eperm), fs, none)

/-! ## Paths of sessions

The dictionaries have strings as keys, and everything about different files rests on different files
having different strings. `mkdir` lets only names without a slash pass, so a path determines the
session and the file. -/

/-- A session name: `mkdir` accepts no other. -/
def IsName (s : Str) : Prop := s ≠ [] ∧ '/' ∉ s

theorem isName_of_mem {name : Str} (h : name ∈ sessionFiles) : IsName name := by
  simp only [sessionFiles, List.mem_cons, List.not_mem_nil, or_false] at h
  rcases h with rfl | rfl | rfl <;> exact ⟨by decide, by decide⟩

theorem inputName_mem : inputName ∈ sessionFiles := by simp [sessionFiles]

theorem outputName_mem : outputName ∈ sessionFiles := by simp [sessionFiles]

theorem errorName_mem : errorName ∈ sessionFiles := by simp [sessionFiles]

theorem IsName.head_ne {s : Str} (hs : IsName s) : s.head hs.1 ≠ '/' := by
  intro heq
  exact hs.2 (heq ▸ List.head_mem hs.1)

theorem IsName.getLast_ne {s : Str} (hs : IsName s) : s.getLast hs.1 ≠ '/' := by
  intro heq
  exact hs.2 (heq ▸ List.getLast_mem hs.1)

/-- A path that neither starts nor ends with a slash, behind the one of the root. -/
theorem strip_slash {path : Str} (hne : path ≠ []) (hhead : path.head hne ≠ '/')
    (hlast : path.getLast hne ≠ '/') : strip ('/' :: path) = path := by
  obtain ⟨a, tail, rfl⟩ := List.exists_cons_of_ne_nil hne
  have ha : (a == '/') = false := beq_eq_false_iff_ne.mpr hhead
  have hdrop : ('/' :: a :: tail).dropWhile (· == '/') = a :: tail := by
    simp [ha]
  rw [strip, hdrop, List.rdropWhile_eq_self_iff]
  intro _ hslash
  exact hlast (beq_iff_eq.mp hslash)

/-- Nothing is stripped from the path of a file but the first slash. -/
theorem strip_filePath {s name : Str} (hs : IsName s) (hname : IsName name) :
    strip (filePath s name) = s ++ '/' :: name := by
  have hne : s ++ '/' :: name ≠ [] := List.append_ne_nil_of_left_ne_nil hs.1 _
  have hhead : (s ++ '/' :: name).head hne ≠ '/' := by
    rw [List.head_append_of_ne_nil hs.1]
    exact hs.head_ne
  have hlast : (s ++ '/' :: name).getLast hne ≠ '/' := by
    rw [List.getLast_append_of_ne_nil _ (List.cons_ne_nil _ _), List.getLast_cons hname.1]
    exact hname.getLast_ne
  exact strip_slash hne hhead hlast

theorem splitOn_filePath {s name : Str} (hs : IsName s) (hname : IsName name) :
    (strip (filePath s name)).splitOn '/' = [s, name] := by
  rw [strip_filePath hs hname, List.splitOn_append_cons_self_of_not_mem hs.2,
    List.splitOn_eq_singleton hname.2]

/-- The two functions invert `filePath`. -/
theorem getSessionFromPath_filePath {s name : Str} (hs : IsName s) (hname : IsName name) :
    getSessionFromPath (filePath s name) = some s := by
  rw [getSessionFromPath, splitOn_filePath hs hname]
  rfl

theorem getFileFromPath_filePath {s name : Str} (hs : IsName s) (hname : IsName name) :
    getFileFromPath (filePath s name) = some name := by
  rw [getFileFromPath, splitOn_filePath hs hname]
  rfl

/-- Paths of different files are different. -/
theorem filePath_inj {s t a b : Str} (hs : IsName s) (ht : IsName t) (ha : IsName a)
    (hb : IsName b) (h : filePath s a = filePath t b) : s = t ∧ a = b := by
  have hsession := getSessionFromPath_filePath hs ha
  have hfile := getFileFromPath_filePath hs ha
  rw [h, getSessionFromPath_filePath ht hb] at hsession
  rw [h, getFileFromPath_filePath ht hb] at hfile
  exact ⟨(Option.some.inj hsession).symm, (Option.some.inj hfile).symm⟩

@[simp] theorem fullPath_filePath (s name : Str) :
    fullPath (filePath s name) = filePath s name := rfl

/-- Whatever is asked for is absolute. -/
theorem exists_fullPath (path : Str) : ∃ rest, fullPath path = '/' :: rest := by
  unfold fullPath
  split
  · next h =>
    cases path with
    | nil => cases h
    | cons c rest => exact ⟨rest, by rw [Option.some.inj h]⟩
  · exact ⟨path, rfl⟩

/-- What `mkdir` lets through is the path of a session. -/
theorem exists_sessionPath_of_mkdir {path : Str} (hcount : (fullPath path).count '/' = 1)
    (hne : strip (fullPath path) ≠ []) :
    ∃ s, IsName s ∧ fullPath path = sessionPath s ∧ strip (fullPath path) = s := by
  obtain ⟨rest, hrest⟩ := exists_fullPath path
  rw [hrest] at hcount hne ⊢
  have hslash : '/' ∉ rest := by
    rw [List.count_cons_self] at hcount
    exact List.count_eq_zero.mp (by omega)
  have hname : IsName rest := by
    refine ⟨?_, hslash⟩
    rintro rfl
    exact hne rfl
  exact ⟨rest, hname, rfl, strip_slash hname.1 hname.head_ne hname.getLast_ne⟩

/-! ## The keys of the dictionaries

Three dictionaries and a list are kept in step by hand. `Wf` says how: the files are those of the
sessions, attributes are there for these, for the sessions and for the root, and exactly the files
have locks. The only method that adds keys is `mkdir`, through the loop of `_initialize_session`. -/

/-- The keys are those of the sessions. -/
structure GPTfs.Wf (fs : GPTfs) : Prop where
  names : ∀ s ∈ fs.sessions, IsName s
  files_iff : ∀ path, (fs.files path).isSome ↔
    ∃ s ∈ fs.sessions, ∃ name ∈ sessionFiles, path = filePath s name
  attrs_iff : ∀ path, (fs.fileAttrs path).isSome ↔
    path = ['/'] ∨ (∃ s ∈ fs.sessions, path = sessionPath s) ∨ (fs.files path).isSome
  locks_iff : ∀ path, fs.locks path = true ↔ (fs.files path).isSome

theorem GPTfs.wf_init (uid gid now : Nat) : (GPTfs.init uid gid now).Wf := by
  refine ⟨by simp [init], by simp [init], fun path => ?_, by simp [init]⟩
  by_cases hpath : path = ['/'] <;> simp [init, hpath]

/-- The loop over the files of a new session. -/
theorem foldl_createFile (now : Nat) (paths : List Str) (fs : GPTfs) :
    paths.foldl (GPTfs.createFile now) fs =
      { fs with
        files := fun path => if path ∈ paths then some [] else fs.files path
        fileAttrs := fun path =>
          if path ∈ paths then some (fileAttr fs.uid fs.gid now) else fs.fileAttrs path
        locks := fun path => if path ∈ paths then true else fs.locks path } := by
  induction paths generalizing fs with
  | nil => simp
  | cons p paths ih =>
    rw [List.foldl_cons, ih]
    simp only [GPTfs.createFile, GPTfs.mk.injEq, and_true]
    refine ⟨?_, ?_, ?_⟩ <;>
    · funext path
      by_cases hp : path = p <;> by_cases hm : path ∈ paths <;> simp [hp, hm]

/-- A new session, all at once. -/
theorem GPTfs.initializeSession_eq {fs : GPTfs} {t : Str} (ht : t ∉ fs.sessions) (now : Nat) :
    fs.initializeSession t now =
      { fs with
        files := fun path =>
          if path ∈ sessionFiles.map (filePath t) then some [] else fs.files path
        fileAttrs := fun path =>
          if path ∈ sessionFiles.map (filePath t) then some (fileAttr fs.uid fs.gid now)
          else Function.update fs.fileAttrs (sessionPath t) (some (dirAttr fs.uid fs.gid now)) path
        locks := fun path =>
          if path ∈ sessionFiles.map (filePath t) then true else fs.locks path
        sessions := fs.sessions ++ [t] } := by
  simp only [initializeSession, ht, if_false, foldl_createFile]

theorem mem_map_filePath {t path : Str} :
    path ∈ sessionFiles.map (filePath t) ↔ ∃ name ∈ sessionFiles, path = filePath t name := by
  simp only [List.mem_map, eq_comm]

theorem GPTfs.Wf.initializeSession {fs : GPTfs} (h : fs.Wf) {t : Str} (ht : IsName t) (now : Nat) :
    (fs.initializeSession t now).Wf := by
  -- an existing session: nothing is done
  by_cases hmem : t ∈ fs.sessions
  · rwa [GPTfs.initializeSession, if_pos hmem]
  rw [initializeSession_eq hmem]
  have hfiles : ∀ path, (if path ∈ sessionFiles.map (filePath t) then some []
      else fs.files path).isSome ↔
        path ∈ sessionFiles.map (filePath t) ∨ (fs.files path).isSome := by
    intro path
    split <;> simp_all
  refine ⟨fun s hs => ?_, fun path => ?_, fun path => ?_, fun path => ?_⟩
  -- names
  · rcases List.mem_append.mp hs with hs | hs
    · exact h.names s hs
    · rwa [List.mem_singleton.mp hs]
  -- files: the three new paths or an old one
  · dsimp only
    rw [hfiles, h.files_iff, mem_map_filePath]
    simp only [List.mem_append, List.mem_singleton, or_and_right, exists_or, exists_eq_left]
    exact or_comm
  -- attributes: a new file, the new directory or an old path
  · dsimp only
    rw [hfiles]
    by_cases hnew : path ∈ sessionFiles.map (filePath t)
    · simp [hnew]
    · simp only [hnew, if_false, false_or, List.mem_append, List.mem_singleton, or_and_right,
        exists_or, exists_eq_left]
      by_cases hdir : path = sessionPath t
      · simp [hdir]
      · rw [Function.update_of_ne hdir, h.attrs_iff]
        simp [hdir]
  -- locks: they are created with the files
  · dsimp only
    rw [hfiles]
    by_cases hnew : path ∈ sessionFiles.map (filePath t)
    · simp [hnew]
    · simp only [hnew, if_false, false_or]
      exact h.locks_iff path

/-- Replacing a value under each key keeps the keys. -/
theorem GPTfs.Wf.update {fs : GPTfs} (h : fs.Wf) {files : Str → Option Bytes}
    {attrs : Str → Option Attr} (hfiles : ∀ path, (files path).isSome ↔ (fs.files path).isSome)
    (hattrs : ∀ path, (attrs path).isSome ↔ (fs.fileAttrs path).isSome) :
    GPTfs.Wf { fs with files := files, fileAttrs := attrs } := by
  refine ⟨h.names, fun path => ?_, fun path => ?_, fun path => ?_⟩ <;> dsimp only
  · rw [hfiles, h.files_iff]
  · rw [hattrs, hfiles, h.attrs_iff]
  · rw [hfiles, h.locks_iff]

/-- A key that was there is there. -/
theorem isSome_update {α β : Type*} [DecidableEq α] {f : α → Option β} {a : α} (h : (f a).isSome)
    (b : β) (x : α) : (Function.update f a (some b) x).isSome ↔ (f x).isSome := by
  by_cases hx : x = a
  · subst hx
    simp [h]
  · rw [Function.update_of_ne hx]

/-! ## What a call can do

With the keys in place every call has one of five effects, and no method raises `KeyError`. Whatever
is proved about calls later is proved by cases on `Effect` and not on the methods. -/

/-- The object after `files[path] = content` and the updates of `file_attrs[path]`, which was
`attr`. -/
def GPTfs.put (fs : GPTfs) (path : Str) (content : Bytes) (attr : Attr) (size now : Nat) : GPTfs :=
  { fs with
    files := Function.update fs.files path (some content)
    fileAttrs := Function.update fs.fileAttrs path
      (some { attr with stSize := size, stMtime := now }) }

/-- With the attributes in place `setContent` does not raise. -/
theorem GPTfs.setContent_eq {fs : GPTfs} {path : Str} {attr : Attr}
    (h : fs.fileAttrs path = some attr) (content : Bytes) (size now : Nat) :
    fs.setContent path content size now = (.ok (), fs.put path content attr size now) := by
  rw [setContent, h]
  rfl

theorem GPTfs.Wf.put {fs : GPTfs} (h : fs.Wf) {path : Str} {attr : Attr} (content : Bytes)
    (hfile : (fs.files path).isSome) (hattr : fs.fileAttrs path = some attr) (size now : Nat) :
    (fs.put path content attr size now).Wf :=
  h.update (isSome_update hfile content) (isSome_update (by rw [hattr]; rfl) _)

/-- The effects of a call on a well-formed object, with the session it starts a worker for. -/
inductive Effect (fs : GPTfs) (now : Nat) : Op → GPTfs → Option Str → Prop where
  | unchanged (op : Op) : Effect fs now op fs none
  | newSession {path : Str} {mode : Nat} (t : Str) (hname : IsName t) :
      Effect fs now (.mkdir path mode) (fs.initializeSession t now) none
  | write {path : Str} {data : Bytes} {offset : Nat} {s : Str} {content : Bytes} {attr : Attr}
      (hs : s ∈ fs.sessions) (hpath : fullPath path = filePath s inputName)
      (hfile : fs.files (filePath s inputName) = some content)
      (hattr : fs.fileAttrs (filePath s inputName) = some attr) :
      Effect fs now (.write path data offset)
        (fs.put (filePath s inputName) (newContent content data offset) attr
          (newContent content data offset).length now) (some s)
  | truncate {path : Str} {length : Nat} {s : Str} {content : Bytes} {attr : Attr}
      (hs : s ∈ fs.sessions) (hpath : fullPath path = filePath s inputName)
      (hfile : fs.files (filePath s inputName) = some content)
      (hattr : fs.fileAttrs (filePath s inputName) = some attr) :
      Effect fs now (.truncate path length)
        (fs.put (filePath s inputName) (content.take length) attr length now) none
  | utimens {path : Str} {times : Option (Nat × Nat)} {attr : Attr} (atime mtime : Nat)
      (hattr : fs.fileAttrs (fullPath path) = some attr) :
      Effect fs now (.utimens path times)
        { fs with
          fileAttrs := Function.update fs.fileAttrs (fullPath path)
            (some { attr with stAtime := atime, stMtime := mtime }) } none

theorem GPTfs.Wf.isSome_file {fs : GPTfs} (h : fs.Wf) {s name : Str} (hs : s ∈ fs.sessions)
    (hname : name ∈ sessionFiles) : (fs.files (filePath s name)).isSome :=
  (h.files_iff _).mpr ⟨s, hs, name, hname, rfl⟩

/-- The attributes of a file. -/
theorem GPTfs.Wf.attr_of_file {fs : GPTfs} (h : fs.Wf) {path : Str}
    (hfile : (fs.files path).isSome) :
    ∃ attr, fs.fileAttrs path = some attr :=
  Option.isSome_iff_exists.mp ((h.attrs_iff path).mpr (Or.inr (Or.inr hfile)))

/-- A file that passes the name check of `write` and `truncate` is the input of a session. -/
theorem GPTfs.Wf.eq_input {fs : GPTfs} (h : fs.Wf) {path : Str} (hfile : (fs.files path).isSome)
    (hname : getFileFromPath path = some inputName) :
    ∃ s ∈ fs.sessions, path = filePath s inputName := by
  obtain ⟨s, hs, name, hmem, rfl⟩ := (h.files_iff path).mp hfile
  rw [getFileFromPath_filePath (h.names s hs) (isName_of_mem hmem)] at hname
  exact ⟨s, hs, by rw [Option.some.inj hname]⟩

/-- A write on the input of a session succeeds. -/
theorem GPTfs.Wf.call_write {fs : GPTfs} (h : fs.Wf) {path s : Str} {content : Bytes} {attr : Attr}
    (hs : s ∈ fs.sessions) (hpath : fullPath path = filePath s inputName)
    (hfile : fs.files (filePath s inputName) = some content)
    (hattr : fs.fileAttrs (filePath s inputName) = some attr) (data : Bytes) (offset now : Nat) :
    fs.call (.write path data offset) now =
      (.ok (.number data.length),
        fs.put (filePath s inputName) (newContent content data offset) attr
          (newContent content data offset).length now,
        some s) := by
  have hname := getFileFromPath_filePath (h.names s hs) (isName_of_mem inputName_mem)
  have hsession := getSessionFromPath_filePath (h.names s hs) (isName_of_mem inputName_mem)
  simp only [GPTfs.call, GPTfs.write, hpath, hfile, hname, hsession, ne_eq, not_true_eq_false,
    if_false, setContent_eq hattr]

/-- A truncate of the input of a session succeeds. -/
theorem GPTfs.Wf.call_truncate {fs : GPTfs} (h : fs.Wf) {path s : Str} {content : Bytes}
    {attr : Attr} (hs : s ∈ fs.sessions) (hpath : fullPath path = filePath s inputName)
    (hfile : fs.files (filePath s inputName) = some content)
    (hattr : fs.fileAttrs (filePath s inputName) = some attr) (length now : Nat) :
    fs.call (.truncate path length) now =
      (.ok .nothing, fs.put (filePath s inputName) (content.take length) attr length now,
        none) := by
  have hname := getFileFromPath_filePath (h.names s hs) (isName_of_mem inputName_mem)
  simp only [GPTfs.call, GPTfs.truncate, hpath, hfile, hname, ne_eq, not_true_eq_false, if_false,
    setContent_eq hattr]
  rfl

/-- A write or truncate on any other path raises. -/
theorem GPTfs.Wf.input_or_refused {fs : GPTfs} (h : fs.Wf) (path : Str) :
    (∃ s ∈ fs.sessions, fullPath path = filePath s inputName ∧
        (∃ content, fs.files (filePath s inputName) = some content) ∧
        ∃ attr, fs.fileAttrs (filePath s inputName) = some attr) ∨
      ∃ e, (∀ data offset now, fs.call (.write path data offset) now = (.error e, fs, none)) ∧
        ∀ length now, fs.call (.truncate path length) now = (.error e, fs, none) := by
  cases hfile : fs.files (fullPath path) with
  | none =>
    -- there is no such file
    refine Or.inr ⟨.fuseOSError .enoent, fun data offset now => ?_, fun length now => ?_⟩
    · simp only [GPTfs.call, GPTfs.write, hfile]
    · simp only [GPTfs.call, GPTfs.truncate, hfile]
      rfl
  | some content =>
    by_cases hname : getFileFromPath (fullPath path) = some inputName
    -- the input of a session, with its attributes
    · have hsome : (fs.files (fullPath path)).isSome := by rw [hfile]; rfl
      obtain ⟨s, hs, hpath⟩ := h.eq_input hsome hname
      refine Or.inl ⟨s, hs, hpath, ⟨content, by rw [← hpath, hfile]⟩, ?_⟩
      rw [← hpath]
      exact h.attr_of_file hsome
    -- another file of a session
    · refine Or.inr ⟨.fuseOSError .eperm, fun data offset now => ?_, fun length now => ?_⟩
      · simp only [GPTfs.call, GPTfs.write, hfile, ne_eq, hname, not_false_eq_true, if_true]
      · simp only [GPTfs.call, GPTfs.truncate, hfile, ne_eq, hname, not_false_eq_true, if_true]
        rfl

/-- **Every call** has one of the five effects. -/
theorem GPTfs.Wf.effect {fs : GPTfs} (h : fs.Wf) (op : Op) (now : Nat) :
    Effect fs now op (fs.call op now).2.1 (fs.call op now).2.2 := by
  cases op with
  | mkdir path mode =>
    simp only [call, GPTfs.mkdir]
    split
    · exact .unchanged _
    · next hcount =>
      split
      · exact .unchanged _
      · next hne =>
        -- `mkdir` with one slash and something behind it
        obtain ⟨s, hs, -, hstrip⟩ := exists_sessionPath_of_mkdir (not_not.mp hcount) hne
        rw [hstrip]
        exact .newSession s hs
  | write path data offset =>
    rcases h.input_or_refused path with ⟨s, hs, hpath, ⟨c, hfile⟩, attr, hattr⟩ | ⟨e, hrefused, -⟩
    · rw [h.call_write hs hpath hfile hattr]
      exact .write hs hpath hfile hattr
    · rw [hrefused]
      exact .unchanged _
  | truncate path length =>
    rcases h.input_or_refused path with ⟨s, hs, hpath, ⟨c, hfile⟩, attr, hattr⟩ | ⟨e, -, hrefused⟩
    · rw [h.call_truncate hs hpath hfile hattr]
      exact .truncate hs hpath hfile hattr
    · rw [hrefused]
      exact .unchanged _
  | utimens path times =>
    simp only [call, GPTfs.utimens]
    cases hattr : fs.fileAttrs (fullPath path) with
    | none => exact .unchanged _
    | some attr => exact .utimens _ _ hattr
  -- the others only read, or are refused
  | _ => exact .unchanged _

/-- The keys stay those of the sessions. -/
theorem Effect.wf {fs fs' : GPTfs} {now : Nat} {op : Op} {started : Option Str}
    (heffect : Effect fs now op fs' started) (h : fs.Wf) : fs'.Wf := by
  cases heffect with
  | unchanged => exact h
  | newSession t hname => exact h.initializeSession hname now
  | write hs hpath hfile hattr => exact h.put _ (by rw [hfile]; rfl) hattr _ _
  | truncate hs hpath hfile hattr => exact h.put _ (by rw [hfile]; rfl) hattr _ _
  | utimens atime mtime hattr =>
    exact h.update (fun _ => Iff.rfl) (isSome_update (by rw [hattr]; rfl) _)

/-- The path of a write or truncate. -/
def Op.changedPath : Op → Option Str
  | .write path _ _ | .truncate path _ => some (fullPath path)
  | _ => none

/-- The call writes or truncates the input of the session. -/
def Op.OnInput (s : Str) (op : Op) : Prop := op.changedPath = some (filePath s inputName)

/-- A call changes no file of a session but its input, and that only when it is a call on it. -/
theorem Effect.files_eq {fs fs' : GPTfs} {now : Nat} {op : Op} {started : Option Str}
    (heffect : Effect fs now op fs' started) (h : fs.Wf) {s name : Str} (hs : s ∈ fs.sessions)
    (hname : name ∈ sessionFiles) (hoff : name = inputName → ¬ op.OnInput s) :
    fs'.files (filePath s name) = fs.files (filePath s name) := by
  have hinj : ∀ t a, IsName t → a ∈ sessionFiles → filePath s name = filePath t a →
      s = t ∧ name = a := fun t a ht ha =>
    filePath_inj (h.names s hs) ht (isName_of_mem hname) (isName_of_mem ha)
  cases heffect with
  -- the files of a new session are none of an old one
  | newSession t ht =>
    by_cases hmem : t ∈ fs.sessions
    · rw [GPTfs.initializeSession, if_pos hmem]
    · rw [GPTfs.initializeSession_eq hmem]
      refine if_neg fun hnew => ?_
      obtain ⟨a, ha, heq⟩ := mem_map_filePath.mp hnew
      exact hmem ((hinj t a ht ha heq).1 ▸ hs)
  | write ht hpath hfile hattr =>
    refine Function.update_of_ne (fun heq => ?_) _ _
    -- a write on another path, because the path of a file determines session and name
    obtain ⟨rfl, hinput⟩ := hinj _ _ (h.names _ ht) inputName_mem heq
    exact hoff hinput (congrArg some hpath)
  | truncate ht hpath hfile hattr =>
    refine Function.update_of_ne (fun heq => ?_) _ _
    obtain ⟨rfl, hinput⟩ := hinj _ _ (h.names _ ht) inputName_mem heq
    exact hoff hinput (congrArg some hpath)
  | _ => rfl

/-- Sessions are never removed. -/
theorem Effect.sessions_subset {fs fs' : GPTfs} {now : Nat} {op : Op} {started : Option Str}
    (h : Effect fs now op fs' started) : fs.sessions ⊆ fs'.sessions := by
  cases h with
  | newSession t hname =>
    intro s hs
    by_cases ht : t ∈ fs.sessions
    · rwa [GPTfs.initializeSession, if_pos ht]
    · rw [GPTfs.initializeSession_eq ht]
      exact List.mem_append_left _ hs
  | _ => exact List.Subset.refl _

/-- A worker is started for a session. -/
theorem Effect.started_mem {fs fs' : GPTfs} {now : Nat} {op : Op} {started : Option Str}
    (h : Effect fs now op fs' started) {s : Str} (hs : s ∈ started) : s ∈ fs'.sessions := by
  cases h with
  | write hmem =>
    cases hs
    exact hmem
  | _ => cases hs

end OsHomework.Gptfs
