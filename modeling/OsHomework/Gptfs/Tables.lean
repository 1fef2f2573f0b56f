import OsHomework.Gptfs.Workers

/-!
# Gptfs — the dictionaries agree with each other

`GPTfs.Wf` names the keys of the dictionaries. Beside the keys, a directory and a file differ by
the type bits of `st_mode`, which no call and no thread changes, and the set of sessions holds each
name once. Together they make the answers of the methods agree: a directory is the root or a
session, and `readdir` lists what `getattr` accepts one level below it.

* **`Sys.typed_of_reach`** — in every reachable state the directories are the paths that are no
  files.
* **`tables_agree`** — the keys of the three dictionaries, the listing of every directory, the lock
  of every file, and `mkdir` of a session that exists.
-/

namespace OsHomework.Gptfs

open Lts ByteFile

/-! ## The type of a path

What the kernel takes for a directory is decided by the mode that `getattr` returns. `childPath` is
the path under which it then asks for an entry; `fullPath` of it does not depend on whether the path
of the directory itself was written with its slash. -/

/-- The type bits of `st_mode`. -/
def sIfmt : Nat := 0o170000

/-- `S_ISDIR(attr['st_mode'])` -/
def Attr.isDir (attr : Attr) : Bool := attr.stMode &&& sIfmt == sIfdir

/-- Only the mode decides. -/
theorem Attr.isDir_congr {attr attr' : Attr} (h : attr'.stMode = attr.stMode) :
    attr'.isDir = attr.isDir := by
  unfold isDir
  rw [h]

theorem dirAttr_isDir (uid gid now : Nat) : (dirAttr uid gid now).isDir = true := by
  show ((sIfdir ||| 0o755) &&& sIfmt == sIfdir) = true
  decide

theorem fileAttr_isDir (uid gid now : Nat) : (fileAttr uid gid now).isDir = false := by
  show ((sIfreg ||| 0o644) &&& sIfmt == sIfdir) = false
  decide

/-- The path of the entry `name` of the directory `path`. -/
def childPath (path name : Str) : Str :=
  if path = ['/'] then '/' :: name else path ++ '/' :: name

/-- The absolute path of an entry. -/
theorem fullPath_childPath (path name : Str) :
    fullPath (childPath path name) =
      if fullPath path = ['/'] then '/' :: name else fullPath path ++ '/' :: name := by
  cases path with
  | nil => rfl
  | cons c rest =>
    by_cases hc : c = '/'
    · subst hc
      have hfull : fullPath ('/' :: rest) = '/' :: rest := rfl
      rw [hfull]
      unfold childPath
      split <;> rfl
    · -- `path` has no leading slash, so neither has the path of the entry
      have hfull : ∀ tail, fullPath (c :: tail) = '/' :: c :: tail := by
        intro tail
        unfold fullPath
        rw [List.head?_cons, if_neg]
        intro heq
        exact hc (Option.some.inj heq)
      have hroot : c :: rest ≠ ['/'] := by
        intro heq
        exact hc (List.cons.inj heq).1
      unfold childPath
      rw [if_neg hroot, hfull, List.cons_append, hfull, if_neg]
      · rfl
      · intro heq
        cases heq

/-- A session and a file never have one path: only the latter has two slashes. -/
theorem sessionPath_ne_filePath {t : Str} (ht : IsName t) (s name : Str) :
    sessionPath t ≠ filePath s name := by
  intro heq
  have htail : t = s ++ '/' :: name := (List.cons.inj heq).2
  apply ht.2
  rw [htail]
  exact List.mem_append_right _ (List.mem_cons_self ..)

theorem filePath_ne_root (s name : Str) : filePath s name ≠ ['/'] := by
  intro heq
  have htail : s ++ '/' :: name = [] := (List.cons.inj heq).2
  cases (List.append_eq_nil_iff.mp htail).2

theorem getSessionFromPath_sessionPath {s : Str} (hs : IsName s) :
    getSessionFromPath (sessionPath s) = some s := by
  have hstrip : strip (sessionPath s) = s := strip_slash hs.1 hs.head_ne hs.getLast_ne
  rw [getSessionFromPath, hstrip, List.splitOn_eq_singleton hs.2]
  rfl

/-! ## What no step changes

The mode is set when a path is created and no method writes it again. The list of sessions is only
appended to, behind a test that the name is not in it. Both are checked once for each effect of a
call and for the two stores of a thread. -/

/-- The type bits tell the files from the directories, and no session is listed twice. -/
structure GPTfs.Typed (fs : GPTfs) : Prop where
  isDir_iff : ∀ path attr, fs.fileAttrs path = some attr →
    (attr.isDir = true ↔ ¬ (fs.files path).isSome)
  nodup : fs.sessions.Nodup

theorem GPTfs.typed_init (uid gid now : Nat) : (GPTfs.init uid gid now).Typed := by
  refine ⟨fun path attr hattr => ?_, List.nodup_nil⟩
  dsimp only [init] at hattr
  have hdir : attr = dirAttr uid gid now := by
    by_cases hpath : path = ['/']
    · subst hpath
      rw [Function.update_self] at hattr
      exact (Option.some.inj hattr).symm
    · rw [Function.update_of_ne hpath] at hattr
      cases hattr
  rw [hdir, dirAttr_isDir]
  simp [init]

/-- New attributes under a key with the mode of the old ones. -/
theorem GPTfs.Typed.update {fs : GPTfs} (h : fs.Typed) {key : Str} {old new : Attr}
    {files : Str → Option Bytes} (hold : fs.fileAttrs key = some old)
    (hmode : new.stMode = old.stMode)
    (hfiles : ∀ path, (files path).isSome ↔ (fs.files path).isSome) :
    GPTfs.Typed { fs with
      files := files, fileAttrs := Function.update fs.fileAttrs key (some new) } := by
  refine ⟨fun path attr hattr => ?_, h.nodup⟩
  dsimp only at hattr ⊢
  rw [hfiles]
  by_cases hpath : path = key
  · subst hpath
    rw [Function.update_self] at hattr
    cases hattr
    rw [Attr.isDir_congr hmode]
    exact h.isDir_iff path old hold
  · rw [Function.update_of_ne hpath] at hattr
    exact h.isDir_iff path attr hattr

theorem GPTfs.Typed.put {fs : GPTfs} (h : fs.Typed) {path : Str} {attr : Attr} (content : Bytes)
    (hfile : (fs.files path).isSome) (hattr : fs.fileAttrs path = some attr) (size now : Nat) :
    (fs.put path content attr size now).Typed :=
  h.update hattr rfl (isSome_update hfile content)

/-- A new session adds a directory and three files, each with its type. -/
theorem GPTfs.Typed.initializeSession {fs : GPTfs} (h : fs.Typed) (hwf : fs.Wf) {t : Str}
    (ht : IsName t) (now : Nat) : (fs.initializeSession t now).Typed := by
  by_cases hmem : t ∈ fs.sessions
  · rwa [GPTfs.initializeSession, if_pos hmem]
  rw [initializeSession_eq hmem]
  constructor
  -- three new files, one new directory, or an old path
  · intro path attr hattr
    dsimp only at hattr ⊢
    by_cases hnew : path ∈ sessionFiles.map (filePath t)
    · rw [if_pos hnew] at hattr ⊢
      cases hattr
      rw [fileAttr_isDir]
      simp
    rw [if_neg hnew] at hattr ⊢
    by_cases hdir : path = sessionPath t
    · subst hdir
      rw [Function.update_self] at hattr
      cases hattr
      rw [dirAttr_isDir, hwf.files_iff]
      -- the path of a session is not the path of a file
      simp only [true_iff]
      rintro ⟨s, -, name, -, heq⟩
      exact sessionPath_ne_filePath ht s name heq
    · rw [Function.update_of_ne hdir] at hattr
      exact h.isDir_iff path attr hattr
  -- the name is new
  · rw [List.nodup_append]
    refine ⟨h.nodup, List.pairwise_singleton _ t, fun s hs s' hs' heq => ?_⟩
    rw [heq, List.mem_singleton.mp hs'] at hs
    exact hmem hs

theorem Effect.typed {fs fs' : GPTfs} {now : Nat} {op : Op} {started : Option Str}
    (heffect : Effect fs now op fs' started) (hwf : fs.Wf) (h : fs.Typed) : fs'.Typed := by
  cases heffect with
  | unchanged => exact h
  | newSession t hname => exact h.initializeSession hwf hname now
  | write hs hpath hfile hattr => exact h.put _ (by rw [hfile]; rfl) hattr _ _
  | truncate hs hpath hfile hattr => exact h.put _ (by rw [hfile]; rfl) hattr _ _
  | utimens atime mtime hattr => exact h.update hattr rfl fun _ => Iff.rfl

/-- One step leaves the types as they are. -/
theorem Sys.Wf.typed_step {σ σ' : Sys} {l : Label} (hwf : σ.Wf) (h : σ.fs.Typed)
    (hstep : σ.step l = some σ') : σ'.fs.Typed := by
  cases hwf.move hstep with
  | call heffect => exact heffect.typed hwf.fs_wf h
  | read hw => exact h
  | answer hw => exact h
  | storeOutput hw hattr =>
    have hs := hwf.session _ (List.mem_of_getElem? hw)
    exact h.put _ (hwf.fs_wf.isSome_file hs outputName_mem) hattr _ _
  | storeError hw hattr =>
    have hs := hwf.session _ (List.mem_of_getElem? hw)
    exact h.put _ (hwf.fs_wf.isSome_file hs errorName_mem) hattr _ _

/-- In every state that is reached, keys and types are right. -/
theorem Sys.typed_of_reach {uid gid now : Nat} {ok : Sys → Label → Prop} {σ : Sys}
    (hreach : Reach Sys.step ok (Sys.init uid gid now) σ) : σ.Wf ∧ σ.fs.Typed := by
  have hstep : ∀ (σ : Sys) (l : Label) (σ' : Sys), σ.Wf ∧ σ.fs.Typed → ok σ l →
      σ.step l = some σ' → σ'.Wf ∧ σ'.fs.Typed := by
    intro σ l σ' h _ hstep
    exact ⟨h.1.step hstep, h.1.typed_step h.2 hstep⟩
  exact hreach.inv ⟨Sys.wf_init uid gid now, GPTfs.typed_init uid gid now⟩ hstep

/-! ## The listing of a directory

From the keys and the types the answers of `readdir` and `getattr` are compared. In both directions:
each listed name can be asked for, and what can be asked for one level below is listed. -/

theorem GPTfs.getattr_eq_ok {fs : GPTfs} {path : Str} {attr : Attr} :
    fs.getattr path = .ok attr ↔ fs.fileAttrs (fullPath path) = some attr := by
  unfold getattr
  cases fs.fileAttrs (fullPath path) <;> simp

theorem GPTfs.exists_getattr {fs : GPTfs} {path : Str} :
    (∃ attr, fs.getattr path = .ok attr) ↔ (fs.fileAttrs (fullPath path)).isSome := by
  simp only [getattr_eq_ok, Option.isSome_iff_exists]

/-- What `getattr` reports as a directory is the root or a session. -/
theorem GPTfs.Wf.directory {fs : GPTfs} (hwf : fs.Wf) (h : fs.Typed) {path : Str} {attr : Attr}
    (hattr : fs.getattr path = .ok attr) (hdir : attr.isDir = true) :
    fullPath path = ['/'] ∨ ∃ s ∈ fs.sessions, fullPath path = sessionPath s := by
  have hsome := getattr_eq_ok.mp hattr
  have hfile := (h.isDir_iff _ _ hsome).mp hdir
  rcases (hwf.attrs_iff _).mp (by rw [hsome]; rfl) with hroot | hsession | hmem
  · exact Or.inl hroot
  · exact Or.inr hsession
  · exact absurd hmem hfile

/-- A path with one slash exists if it is a session's. -/
theorem GPTfs.Wf.attrs_sessionPath {fs : GPTfs} (hwf : fs.Wf) {name : Str} (hname : IsName name) :
    (fs.fileAttrs (sessionPath name)).isSome ↔ name ∈ fs.sessions := by
  rw [hwf.attrs_iff, hwf.files_iff]
  constructor
  · rintro (hroot | ⟨s, hs, heq⟩ | ⟨s, -, a, -, heq⟩)
    · exact absurd (List.cons.inj hroot).2 hname.1
    · rwa [(List.cons.inj heq).2]
    · exact absurd heq (sessionPath_ne_filePath hname s a)
  · intro hmem
    exact Or.inr (Or.inl ⟨name, hmem, rfl⟩)

/-- Below a session exactly the three files exist. -/
theorem GPTfs.Wf.attrs_filePath {fs : GPTfs} (hwf : fs.Wf) {s name : Str} (hs : s ∈ fs.sessions)
    (hname : IsName name) : (fs.fileAttrs (filePath s name)).isSome ↔ name ∈ sessionFiles := by
  rw [hwf.attrs_iff, hwf.files_iff]
  constructor
  · rintro (hroot | ⟨t, ht, heq⟩ | ⟨t, ht, a, ha, heq⟩)
    · exact absurd hroot (filePath_ne_root s name)
    · exact absurd heq.symm (sessionPath_ne_filePath (hwf.names t ht) s name)
    · rwa [(filePath_inj (hwf.names s hs) (hwf.names t ht) hname (isName_of_mem ha) heq).2]
  · intro hmem
    exact Or.inr (Or.inr ⟨s, hs, name, hmem, rfl⟩)

/-- The root lists the sessions. -/
theorem GPTfs.readdir_root {fs : GPTfs} {path : Str} (hpath : fullPath path = ['/']) :
    fs.readdir path = .ok (['.'] :: ['.', '.'] :: fs.sessions) := by
  rw [readdir, if_pos hpath]

/-- A session lists its files. -/
theorem GPTfs.Wf.readdir_session {fs : GPTfs} (hwf : fs.Wf) {path s : Str} (hs : s ∈ fs.sessions)
    (hpath : fullPath path = sessionPath s) :
    fs.readdir path = .ok (['.'] :: ['.', '.'] :: sessionFiles) := by
  have hroot : sessionPath s ≠ ['/'] := by
    intro heq
    exact (hwf.names s hs).1 (List.cons.inj heq).2
  simp only [readdir, hpath, hroot, if_false, getSessionFromPath_sessionPath (hwf.names s hs), hs,
    if_true]

/-- The names after the two dots: each once, and exactly those of the paths one level below that
`getattr` accepts. -/
def GPTfs.Lists (fs : GPTfs) (path : Str) : Prop :=
  ∃ names, fs.readdir path = .ok (['.'] :: ['.', '.'] :: names) ∧ names.Nodup ∧
    ∀ name, name ∈ names ↔ IsName name ∧ ∃ attr, fs.getattr (childPath path name) = .ok attr

theorem GPTfs.Wf.lists_directory {fs : GPTfs} (hwf : fs.Wf) (h : fs.Typed) {path : Str}
    {attr : Attr} (hattr : fs.getattr path = .ok attr) (hdir : attr.isDir = true) :
    fs.Lists path := by
  rcases hwf.directory h hattr hdir with hroot | ⟨s, hs, hpath⟩
  -- the root: its entries are the sessions
  · refine ⟨fs.sessions, readdir_root hroot, h.nodup, fun name => ?_⟩
    have hchild : fullPath (childPath path name) = sessionPath name := by
      rw [fullPath_childPath, if_pos hroot]
      rfl
    rw [exists_getattr, hchild]
    constructor
    · intro hmem
      exact ⟨hwf.names name hmem, (hwf.attrs_sessionPath (hwf.names name hmem)).mpr hmem⟩
    · intro hmem
      exact (hwf.attrs_sessionPath hmem.1).mp hmem.2
  -- a session: its entries are the three files
  · have hne : sessionPath s ≠ ['/'] := by
      intro heq
      exact (hwf.names s hs).1 (List.cons.inj heq).2
    refine ⟨sessionFiles, hwf.readdir_session hs hpath, by decide, fun name => ?_⟩
    have hchild : fullPath (childPath path name) = filePath s name := by
      rw [fullPath_childPath, hpath, if_neg hne]
      rfl
    rw [exists_getattr, hchild]
    constructor
    · intro hmem
      exact ⟨isName_of_mem hmem, (hwf.attrs_filePath hs (isName_of_mem hmem)).mpr hmem⟩
    · intro hmem
      exact (hwf.attrs_filePath hs hmem.1).mp hmem.2

/-- `mkdir` of a session that exists. -/
theorem GPTfs.mkdir_again {fs : GPTfs} {path : Str} (h : strip (fullPath path) ∈ fs.sessions)
    (now : Nat) : (fs.mkdir path now).2 = fs := by
  unfold mkdir
  split
  · rfl
  · split
    · rfl
    · rw [initializeSession, if_pos h]

/-- In every state reachable from the fresh object, by calls on arbitrary paths and by steps of the
threads: `files` and `locks` have the three paths of every session as keys, `file_attrs` has these,
the root and the sessions; every directory lists what lies below it; every file has its lock; and a
`mkdir` that names a session leaves the object as it is. -/
theorem tables_agree (uid gid now : Nat) (σ : Sys)
    (hreach : Reach Sys.step (fun _ _ => True) (Sys.init uid gid now) σ) :
    (∀ path, (σ.fs.files path).isSome ↔
        ∃ s ∈ σ.fs.sessions, ∃ name ∈ [inputName, outputName, errorName],
          path = filePath s name) ∧
      (∀ path, σ.fs.locks path = true ↔
        ∃ s ∈ σ.fs.sessions, ∃ name ∈ [inputName, outputName, errorName],
          path = filePath s name) ∧
      (∀ path, (σ.fs.fileAttrs path).isSome ↔
        path = ['/'] ∨ (∃ s ∈ σ.fs.sessions, path = sessionPath s) ∨
          ∃ s ∈ σ.fs.sessions, ∃ name ∈ [inputName, outputName, errorName],
            path = filePath s name) ∧
      (∀ path attr, σ.fs.getattr path = .ok attr → attr.isDir = true → σ.fs.Lists path) ∧
      (∀ path, (σ.fs.files (fullPath path)).isSome → σ.fs.locks (fullPath path) = true) ∧
      ∀ path later, strip (fullPath path) ∈ σ.fs.sessions →
        (σ.fs.mkdir path later).2 = σ.fs := by
  obtain ⟨⟨hwf, -⟩, htyped⟩ := Sys.typed_of_reach hreach
  have hfiles := hwf.files_iff
  unfold sessionFiles at hfiles
  refine ⟨hfiles, fun path => ?_, fun path => ?_, fun path attr => hwf.lists_directory htyped,
    fun path => (hwf.locks_iff _).mpr, fun path later hmem => GPTfs.mkdir_again hmem later⟩
  · rw [hwf.locks_iff, hfiles]
  · rw [hwf.attrs_iff, hfiles]

/-- After one `mkdir` the root lists the session and the session its three files. -/
theorem tables_agree_oneSession :
    Reach Sys.step (fun _ _ => True) (Sys.init 0 0 0) oneSession ∧
      oneSession.fs.Lists ['/'] ∧ oneSession.fs.Lists ['s'] := by
  have hreach : Reach Sys.step (fun _ _ => True) (Sys.init 0 0 0) oneSession :=
    oneSession_reach trivial
  obtain ⟨-, -, -, hlists, -, -⟩ := tables_agree 0 0 0 oneSession hreach
  exact ⟨hreach, hlists ['/'] (dirAttr 0 0 0) rfl (dirAttr_isDir 0 0 0),
    hlists ['s'] (dirAttr 0 0 0) rfl (dirAttr_isDir 0 0 0)⟩

end OsHomework.Gptfs
