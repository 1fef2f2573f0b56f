import OsHomework.Lib.Unwinding
import OsHomework.Gptfs.Tables

/-!
# Gptfs — sessions do not see each other

The dictionaries are shared by all sessions, and a worker finds its session again in a path. Still
a session is on its own: what the calls on its paths return is determined by these calls and the
steps and answers of its own threads, in their order. Times are left out on both sides; they are
the only thing a call brings along that is not its own.

* **`getSessionFromPath_of_under`** — a path below a session leads to that session and no other.
* **`SameFs.call`**, **`sameFs_call_of_not_under`** — a call below the session does the same to two
  objects that agree there; any other call changes nothing there.
* **`session_isolated`** — two runs with the same steps of a session have the same replies for it,
  whatever else happens in them.
-/

namespace OsHomework.Gptfs

open ByteFile Lts

/-! ## What concerns a session

To compare two runs, the part of a run that belongs to a session has to be named without mentioning
the rest. Calls are told by their path. Threads are numbered over all sessions, so a thread is
counted anew among those of its session; that number is the same in both runs. -/

/-- The full path is the session's directory or below it. -/
def Under (t path : Str) : Prop := path = sessionPath t ∨ sessionPath t ++ ['/'] <+: path

instance (t path : Str) : Decidable (Under t path) := inferInstanceAs (Decidable (_ ∨ _))

def Op.path : Op → Str
  | .getattr path | .readdir path | .mkdir path _ | .openFile path _ | .read path _ _
  | .write path _ _ | .truncate path _ | .utimens path _ | .create path _ | .unlink path
  | .rmdir path | .chmod path _ | .chown path _ _ => path

/-- A thread without the time it stores. -/
def WorkerPc.timeless : WorkerPc → WorkerPc
  | .storeOutput inputData outputData errorData _ => .storeOutput inputData outputData errorData 0
  | .storeError errorData _ => .storeError errorData 0
  | pc => pc

/-- The threads of a session, in the order in which they were started. -/
def threads (t : Str) (workers : List Worker) : List WorkerPc :=
  (workers.filter fun w => w.sessionId == t).map fun w => w.pc.timeless

/-- The number among the session's threads that the `i`-th thread has, if it is one of them. -/
def Sys.rank (t : Str) (σ : Sys) (i : Nat) : Option Nat :=
  match σ.workers[i]? with
  | some w => if w.sessionId = t then some (threads t (σ.workers.take i)).length else none
  | none => none

/-- A step of the session: a call on one of its paths, or a step or an API result of one of its
threads. -/
inductive Event where
  | call (op : Op)
  | run (j : Nat)
  | answer (j : Nat) (outputData errorData : Bytes)
  deriving DecidableEq

/-- The session's part of a step. -/
def project (t : Str) (σ : Sys) : Label → Option Event
  | .call op _ => if Under t (fullPath op.path) then some (.call op) else none
  | .run i => (σ.rank t i).map .run
  | .answer i outputData errorData _ => (σ.rank t i).map fun j => .answer j outputData errorData

/-- A reply, of attributes the size. -/
inductive View where
  | size (n : Nat)
  | entries (names : List Str)
  | number (n : Nat)
  | bytes (data : Bytes)
  | nothing
  deriving DecidableEq

def Reply.view : Reply → View
  | .attr a => .size a.stSize
  | .entries names => .entries names
  | .number n => .number n
  | .bytes data => .bytes data
  | .nothing => .nothing

/-- What a call returns or raises; the steps of threads return nothing to anybody. -/
def observe (σ : Sys) : Label → Option (Except PyError View)
  | .call op now => some ((σ.fs.call op now).1.map Reply.view)
  | .run _ | .answer .. => none

/-! ## Paths below a session

`Under` is about strings, `_get_session_from_path` about what is left after stripping and splitting.
They agree on every path that starts with the name of a session, also on those that are no file and
on those with more slashes than needed. -/

section

variable {s t path name : Str}

theorem under_filePath (t name : Str) : Under t (filePath t name) := by
  right
  rw [filePath, List.prefix_append_right_inj]
  exact ⟨name, rfl⟩

/-- Behind the name of the session there is nothing, or a slash and anything. -/
theorem Under.cases (h : Under t path) :
    ∃ rest, path = '/' :: (t ++ rest) ∧ ∀ c ∈ rest.head?, c = '/' := by
  rcases h with rfl | ⟨rest, rfl⟩
  · exact ⟨[], by simp [sessionPath], by simp⟩
  · exact ⟨'/' :: rest, by simp [sessionPath], by simp⟩

/-- Slashes at the end are behind the name. -/
theorem rdropWhile_append (ht : IsName t) (rest : Str) :
    ∃ more, (t ++ rest).rdropWhile (· == '/') = t ++ more ∧ more <+: rest := by
  -- stripping from the right stops at the name at the latest, which does not end in a slash
  induction rest using List.reverseRecOn with
  | nil =>
    refine ⟨[], ?_, List.nil_prefix⟩
    rw [List.append_nil, List.rdropWhile_eq_self_iff]
    intro _ hslash
    exact ht.getLast_ne (beq_iff_eq.mp hslash)
  | append_singleton rest c ih =>
    rw [← List.append_assoc]
    by_cases hc : (c == '/') = true
    · rw [List.rdropWhile_concat, if_pos hc]
      obtain ⟨more, hmore, hprefix⟩ := ih
      exact ⟨more, hmore, hprefix.trans (List.prefix_append rest [c])⟩
    · rw [List.rdropWhile_concat, if_neg hc]
      exact ⟨rest ++ [c], by rw [List.append_assoc], List.prefix_rfl⟩

/-- A path below a session leads to that session. -/
theorem getSessionFromPath_of_under (ht : IsName t) (h : Under t path) :
    getSessionFromPath path = some t := by
  obtain ⟨rest, rfl, hrest⟩ := h.cases
  obtain ⟨more, hmore, hprefix⟩ := rdropWhile_append ht rest
  -- the name does not begin with one either
  have hdrop : ('/' :: (t ++ rest)).dropWhile (· == '/') = t ++ rest := by
    obtain ⟨c, tail, rfl⟩ := List.exists_cons_of_ne_nil ht.1
    have hc : (c == '/') = false := beq_eq_false_iff_ne.mpr ht.head_ne
    simp [hc]
  rw [getSessionFromPath, strip, hdrop, hmore]
  cases more with
  | nil =>
    rw [List.append_nil, List.splitOn_eq_singleton ht.2]
    rfl
  | cons c more =>
    -- what is left behind the name starts as the path did
    obtain ⟨tail, rfl⟩ := hprefix
    rw [hrest c rfl, List.splitOn_append_cons_self_of_not_mem ht.2]
    rfl

/-- A file is below its own session only. -/
theorem under_filePath_iff (hs : IsName s) (ht : IsName t) (hname : IsName name) :
    Under t (filePath s name) ↔ s = t := by
  constructor
  · intro h
    have hsession := getSessionFromPath_of_under ht h
    rw [getSessionFromPath_filePath hs hname] at hsession
    exact Option.some.inj hsession
  · rintro rfl
    exact under_filePath s name

theorem under_sessionPath_iff (hs : IsName s) (ht : IsName t) :
    Under t (sessionPath s) ↔ s = t := by
  constructor
  · intro h
    have hsession := getSessionFromPath_of_under ht h
    rw [getSessionFromPath_sessionPath hs] at hsession
    exact Option.some.inj hsession
  · rintro rfl
    exact Or.inl rfl

theorem Under.ne_root (h : Under t path) (ht : IsName t) : path ≠ ['/'] := by
  obtain ⟨rest, rfl, -⟩ := h.cases
  intro heq
  exact ht.1 (List.append_eq_nil_iff.mp (List.cons.inj heq).2).1

end

/-! ## The object as a session sees it

Two objects are compared below one session only: whether it exists, the contents and the sizes.
Times, owners and modes are left out, since they differ between runs and no method looks at them. -/

/-- The two objects agree on everything below the session, times apart. -/
structure SameFs (t : Str) (fs gs : GPTfs) : Prop where
  session : t ∈ fs.sessions ↔ t ∈ gs.sessions
  files : ∀ path, Under t path → fs.files path = gs.files path
  sizes : ∀ path, Under t path →
    (fs.fileAttrs path).map Attr.stSize = (gs.fileAttrs path).map Attr.stSize

section

variable {s t key path : Str} {fs gs hs : GPTfs} {attr attr' : Attr} {content : Bytes}
  {size now now' : Nat}

theorem SameFs.refl (t : Str) (fs : GPTfs) : SameFs t fs fs :=
  ⟨Iff.rfl, fun _ _ => rfl, fun _ _ => rfl⟩

theorem SameFs.symm (h : SameFs t fs gs) : SameFs t gs fs :=
  ⟨h.session.symm, fun path hpath => (h.files path hpath).symm,
    fun path hpath => (h.sizes path hpath).symm⟩

theorem SameFs.trans (h : SameFs t fs gs) (h' : SameFs t gs hs) : SameFs t fs hs :=
  ⟨h.session.trans h'.session, fun path hpath => (h.files path hpath).trans (h'.files path hpath),
    fun path hpath => (h.sizes path hpath).trans (h'.sizes path hpath)⟩

/-- Both have attributes for a path, of the same size, or neither has. -/
theorem SameFs.attrs (h : SameFs t fs gs) (hpath : Under t path) :
    (fs.fileAttrs path = none ∧ gs.fileAttrs path = none) ∨
      ∃ attr attr', fs.fileAttrs path = some attr ∧ gs.fileAttrs path = some attr' ∧
        attr.stSize = attr'.stSize := by
  have hsizes := h.sizes path hpath
  cases hfs : fs.fileAttrs path with
  | none =>
    rw [hfs] at hsizes
    exact Or.inl ⟨rfl, Option.map_eq_none_iff.mp hsizes.symm⟩
  | some attr =>
    rw [hfs, Option.map_some] at hsizes
    obtain ⟨attr', hgs, hsize⟩ := Option.map_eq_some_iff.mp hsizes.symm
    exact Or.inr ⟨attr, attr', rfl, hgs, hsize.symm⟩

/-- New attributes under one key. -/
theorem SameFs.setAttr (h : SameFs t fs gs) (hsize : attr.stSize = attr'.stSize) :
    SameFs t { fs with fileAttrs := Function.update fs.fileAttrs key (some attr) }
      { gs with fileAttrs := Function.update gs.fileAttrs key (some attr') } := by
  refine ⟨h.session, h.files, fun path hpath => ?_⟩
  dsimp only
  by_cases hkey : path = key
  · rw [hkey, Function.update_self, Function.update_self, Option.map_some, Option.map_some, hsize]
  · rw [Function.update_of_ne hkey, Function.update_of_ne hkey]
    exact h.sizes path hpath

/-- The same content under one key. -/
theorem SameFs.put (h : SameFs t fs gs) :
    SameFs t (fs.put key content attr size now) (gs.put key content attr' size now') := by
  have hattr : SameFs t
      { fs with
        fileAttrs := Function.update fs.fileAttrs key
          (some { attr with stSize := size, stMtime := now }) }
      { gs with
        fileAttrs := Function.update gs.fileAttrs key
          (some { attr' with stSize := size, stMtime := now' }) } := h.setAttr rfl
  refine ⟨h.session, fun path hpath => ?_, hattr.sizes⟩
  dsimp only [GPTfs.put]
  by_cases hkey : path = key
  · rw [hkey, Function.update_self, Function.update_self]
  · rw [Function.update_of_ne hkey, Function.update_of_ne hkey]
    exact h.files path hpath

/-! ## Other keys

A change under a key of another session is invisible. That is all that is used of the other
sessions, and it comes down to their paths not being below this one. -/

/-- New attributes elsewhere. -/
theorem sameFs_setAttr_of_not_under (hkey : ¬ Under t key) :
    SameFs t { fs with fileAttrs := Function.update fs.fileAttrs key (some attr) } fs := by
  refine ⟨Iff.rfl, fun _ _ => rfl, fun path hpath => ?_⟩
  have hne : path ≠ key := by
    rintro rfl
    exact hkey hpath
  dsimp only
  rw [Function.update_of_ne hne]

/-- New content elsewhere. -/
theorem sameFs_put_of_not_under (hkey : ¬ Under t key) :
    SameFs t (fs.put key content attr size now) fs := by
  refine ⟨Iff.rfl, fun path hpath => ?_, (sameFs_setAttr_of_not_under hkey).sizes⟩
  have hne : path ≠ key := by
    rintro rfl
    exact hkey hpath
  dsimp only [GPTfs.put]
  rw [Function.update_of_ne hne]

/-- A new session has its own paths. -/
theorem sameFs_initializeSession_of_ne (hs : IsName s) (ht : IsName t) (hne : s ≠ t) :
    SameFs t (fs.initializeSession s now) fs := by
  by_cases hmem : s ∈ fs.sessions
  · rw [GPTfs.initializeSession, if_pos hmem]
    exact .refl t fs
  rw [GPTfs.initializeSession_eq hmem]
  -- neither the files of the new session nor its directory are below this one
  have hnew : ∀ path, Under t path → path ∉ sessionFiles.map (filePath s) := by
    intro path hpath hmap
    obtain ⟨name, hname, rfl⟩ := mem_map_filePath.mp hmap
    exact hne ((under_filePath_iff hs ht (isName_of_mem hname)).mp hpath)
  refine ⟨?_, fun path hpath => ?_, fun path hpath => ?_⟩
  · simp [Ne.symm hne]
  · exact if_neg (hnew path hpath)
  · have hdir : path ≠ sessionPath s := by
      rintro rfl
      exact hne ((under_sessionPath_iff hs ht).mp hpath)
    dsimp only
    rw [if_neg (hnew path hpath), Function.update_of_ne hdir]

/-- The session itself starts alike. -/
theorem SameFs.initializeSession (h : SameFs t fs gs) :
    SameFs t (fs.initializeSession t now) (gs.initializeSession t now') := by
  by_cases hmem : t ∈ fs.sessions
  · rw [GPTfs.initializeSession, if_pos hmem, GPTfs.initializeSession, if_pos (h.session.mp hmem)]
    exact h
  rw [GPTfs.initializeSession_eq hmem,
    GPTfs.initializeSession_eq fun hgs => hmem (h.session.mpr hgs)]
  refine ⟨by simp, fun path hpath => ?_, fun path hpath => ?_⟩
  -- the three files are empty in both
  · dsimp only
    split
    · rfl
    · exact h.files path hpath
  · dsimp only
    -- and so are their sizes, and that of the directory
    split
    · rfl
    · by_cases hdir : path = sessionPath t
      · rw [hdir, Function.update_self, Function.update_self]
        rfl
      · rw [Function.update_of_ne hdir, Function.update_of_ne hdir]
        exact h.sizes path hpath

/-! ## Calls

Method by method: on two objects that agree below the session a call on a path of it returns the
same and leaves objects that agree. A method reads at most the files and attributes of its path and
whether the session exists, and `mkdir` and `write` find the session again in the path. -/

/-- What two calls return to the session, leave there, and start for it. -/
structure SameCall (t : Str) (x y : Except PyError Reply × GPTfs × Option Str) : Prop where
  reply : x.1.map Reply.view = y.1.map Reply.view
  fs : SameFs t x.2.1 y.2.1
  started : x.2.2 = y.2.2
  own : ∀ u ∈ x.2.2, u = t

/-- Calls that change nothing. -/
theorem SameFs.answered (h : SameFs t fs gs) {r r' : Except PyError Reply}
    (hreply : r.map Reply.view = r'.map Reply.view) : SameCall t (r, fs, none) (r', gs, none) :=
  ⟨hreply, h, rfl, fun _ hu => by cases hu⟩

/-- `getattr` returns the size, times apart. -/
theorem SameFs.getattr (h : SameFs t fs gs) (hpath : Under t (fullPath path)) :
    ((fs.getattr path).map Reply.attr).map Reply.view =
      ((gs.getattr path).map Reply.attr).map Reply.view := by
  unfold GPTfs.getattr
  rcases h.attrs hpath with ⟨hfs, hgs⟩ | ⟨attr, attr', hfs, hgs, hsize⟩
  · rw [hfs, hgs]
  · rw [hfs, hgs]
    show Except.ok (View.size attr.stSize) = Except.ok (View.size attr'.stSize)
    rw [hsize]

theorem SameFs.openFile (h : SameFs t fs gs) (hpath : Under t (fullPath path)) :
    fs.openFile path = gs.openFile path := by
  unfold GPTfs.openFile
  rcases h.attrs hpath with ⟨hfs, hgs⟩ | ⟨attr, attr', hfs, hgs, -⟩
  · rw [hfs, hgs]
  · rw [hfs, hgs]

/-- `readdir` below a session asks only whether the session exists. -/
theorem SameFs.readdir (h : SameFs t fs gs) (ht : IsName t) (hpath : Under t (fullPath path)) :
    fs.readdir path = gs.readdir path := by
  unfold GPTfs.readdir
  rw [if_neg (hpath.ne_root ht), if_neg (hpath.ne_root ht), getSessionFromPath_of_under ht hpath]
  dsimp only
  simp only [h.session]

theorem SameFs.read (h : SameFs t fs gs) (hpath : Under t (fullPath path)) (size offset : Nat) :
    fs.read path size offset = gs.read path size offset := by
  unfold GPTfs.read
  rw [h.files _ hpath]

/-- A `mkdir` on the session's own path makes this session or none. -/
theorem SameFs.mkdir (h : SameFs t fs gs) (ht : IsName t) (hpath : Under t (fullPath path))
    (mode : Nat) :
    SameCall t (fs.call (.mkdir path mode) now) (gs.call (.mkdir path mode) now') := by
  simp only [GPTfs.call, GPTfs.mkdir]
  split
  · exact h.answered rfl
  · next hcount =>
    split
    · exact h.answered rfl
    · next hne =>
      obtain ⟨s, hs, hfull, hstrip⟩ := exists_sessionPath_of_mkdir (not_not.mp hcount) hne
      rw [hfull] at hpath
      obtain rfl := (under_sessionPath_iff hs ht).mp hpath
      rw [hstrip]
      exact ⟨rfl, h.initializeSession, rfl, fun _ hu => by cases hu⟩

/-- A write on a path of the session. -/
theorem SameFs.write (h : SameFs t fs gs) (hfs : fs.Wf) (hgs : gs.Wf) (ht : IsName t)
    (hpath : Under t (fullPath path)) (data : Bytes) (offset : Nat) :
    SameCall t (fs.call (.write path data offset) now)
      (gs.call (.write path data offset) now') := by
  have hsame := h.files _ hpath
  simp only [GPTfs.call, GPTfs.write, ← hsame]
  cases hfile : fs.files (fullPath path) with
  | none => exact h.answered rfl
  | some content =>
    by_cases hname : getFileFromPath (fullPath path) = some inputName
    -- both have the file, hence both have attributes for it
    · obtain ⟨attr, hattr⟩ := hfs.attr_of_file (by rw [hfile]; rfl)
      obtain ⟨attr', hattr'⟩ := hgs.attr_of_file (by rw [← hsame, hfile]; rfl)
      simp only [hname, ne_eq, not_true_eq_false, if_false, GPTfs.setContent_eq hattr,
        GPTfs.setContent_eq hattr', getSessionFromPath_of_under ht hpath]
      refine ⟨rfl, h.put, rfl, fun u hu => ?_⟩
      cases hu
      rfl
    -- another file than the input is refused in both
    · simp only [hname, ne_eq, not_false_eq_true, if_true]
      exact h.answered rfl

theorem SameFs.truncate (h : SameFs t fs gs) (hfs : fs.Wf) (hgs : gs.Wf)
    (hpath : Under t (fullPath path)) (length : Nat) :
    SameCall t (fs.call (.truncate path length) now) (gs.call (.truncate path length) now') := by
  have hsame := h.files _ hpath
  simp only [GPTfs.call, GPTfs.truncate, ← hsame]
  cases hfile : fs.files (fullPath path) with
  | none => exact h.answered rfl
  | some content =>
    dsimp only
    split
    · exact h.answered rfl
    · obtain ⟨attr, hattr⟩ := hfs.attr_of_file (by rw [hfile]; rfl)
      obtain ⟨attr', hattr'⟩ := hgs.attr_of_file (by rw [← hsame, hfile]; rfl)
      rw [GPTfs.setContent_eq hattr, GPTfs.setContent_eq hattr']
      exact ⟨rfl, h.put, rfl, fun _ hu => by cases hu⟩

theorem SameFs.utimens (h : SameFs t fs gs) (hpath : Under t (fullPath path))
    (times : Option (Nat × Nat)) :
    SameCall t (fs.call (.utimens path times) now) (gs.call (.utimens path times) now') := by
  simp only [GPTfs.call, GPTfs.utimens]
  rcases h.attrs hpath with ⟨hfs, hgs⟩ | ⟨attr, attr', hfs, hgs, hsize⟩
  · rw [hfs, hgs]
    exact h.answered rfl
  · rw [hfs, hgs]
    exact ⟨rfl, h.setAttr hsize, rfl, fun _ hu => by cases hu⟩

/-- **A call below the session** does the same to two objects that agree there. -/
theorem SameFs.call (h : SameFs t fs gs) (hfs : fs.Wf) (hgs : gs.Wf) (ht : IsName t) {op : Op}
    (hpath : Under t (fullPath op.path)) : SameCall t (fs.call op now) (gs.call op now') := by
  cases op with
  | getattr path => exact h.answered (h.getattr hpath)
  | readdir path =>
    have hsame : fs.readdir path = gs.readdir path := h.readdir ht hpath
    exact h.answered (by rw [hsame])
  | mkdir path mode => exact h.mkdir ht hpath mode
  | openFile path flags =>
    have hsame : fs.openFile path = gs.openFile path := h.openFile hpath
    exact h.answered (by rw [hsame])
  | read path size offset =>
    have hsame : fs.read path size offset = gs.read path size offset := h.read hpath size offset
    exact h.answered (by rw [hsame])
  | write path data offset => exact h.write hfs hgs ht hpath data offset
  | truncate path length => exact h.truncate hfs hgs hpath length
  | utimens path times => exact h.utimens hpath times
  | create | unlink | rmdir | chmod | chown => exact h.answered rfl

/-- **Any other call** changes nothing there, and starts no thread of the session. -/
theorem sameFs_call_of_not_under (hfs : fs.Wf) (ht : IsName t) {op : Op}
    (hpath : ¬ Under t (fullPath op.path)) (now : Nat) :
    SameFs t (fs.call op now).2.1 fs ∧ ∀ u ∈ (fs.call op now).2.2, u ≠ t := by
  have hquiet : ∀ u ∈ (none : Option Str), u ≠ t := fun _ hu => by cases hu
  cases op with
  | mkdir path mode =>
    simp only [GPTfs.call, GPTfs.mkdir]
    split
    · exact ⟨.refl t fs, hquiet⟩
    · next hcount =>
      split
      · exact ⟨.refl t fs, hquiet⟩
      · next hne =>
        obtain ⟨s, hs, hfull, hstrip⟩ := exists_sessionPath_of_mkdir (not_not.mp hcount) hne
        rw [hstrip]
        -- a session of another name
        refine ⟨sameFs_initializeSession_of_ne hs ht ?_, hquiet⟩
        rintro rfl
        rw [Op.path, hfull] at hpath
        exact hpath (Or.inl rfl)
  | write path data offset =>
    -- of a write only its effect matters: nothing, or new content under the key of its path
    have heffect := hfs.effect (.write path data offset) now
    generalize (fs.call (.write path data offset) now).2.1 = fs' at heffect ⊢
    generalize (fs.call (.write path data offset) now).2.2 = started at heffect ⊢
    cases heffect with
    | unchanged => exact ⟨.refl t fs, hquiet⟩
    | write hs hfull hfile hattr =>
      rw [Op.path, hfull] at hpath
      refine ⟨sameFs_put_of_not_under hpath, ?_⟩
      rintro u ⟨⟩ rfl
      exact hpath (under_filePath _ _)
  | truncate path length =>
    have heffect := hfs.effect (.truncate path length) now
    generalize (fs.call (.truncate path length) now).2.1 = fs' at heffect ⊢
    generalize (fs.call (.truncate path length) now).2.2 = started at heffect ⊢
    cases heffect with
    | unchanged => exact ⟨.refl t fs, hquiet⟩
    | truncate hs hfull hfile hattr =>
      rw [Op.path, hfull] at hpath
      exact ⟨sameFs_put_of_not_under hpath, hquiet⟩
  | utimens path times =>
    -- new times under a key of another session
    simp only [GPTfs.call, GPTfs.utimens]
    cases fs.fileAttrs (fullPath path) with
    | none => exact ⟨.refl t fs, hquiet⟩
    | some attr => exact ⟨sameFs_setAttr_of_not_under hpath, hquiet⟩
  | _ => exact ⟨.refl t fs, hquiet⟩

end

/-! ## Threads

A step changes one entry of the list of all threads. In the list of the session's threads this is an
entry, at the place given by `rank`, or nothing. -/

section

variable {t : Str} {ws : List Worker} {i : Nat} {w : Worker} {pc : WorkerPc}

theorem threads_append (t : Str) (ws vs : List Worker) :
    threads t (ws ++ vs) = threads t ws ++ threads t vs := by
  rw [threads, List.filter_append, List.map_append]
  rfl

theorem threads_cons_self (hw : w.sessionId = t) (ws : List Worker) :
    threads t (w :: ws) = w.pc.timeless :: threads t ws := by
  rw [threads, List.filter_cons_of_pos (by simpa using hw)]
  rfl

theorem threads_cons_of_ne (hw : w.sessionId ≠ t) (ws : List Worker) :
    threads t (w :: ws) = threads t ws := by
  rw [threads, List.filter_cons_of_neg (by simpa using hw)]
  rfl

/-- The list around the thread that moves. -/
theorem eq_take_append (hi : ws[i]? = some w) :
    ws = ws.take i ++ w :: ws.drop (i + 1) ∧
      ∀ v, ws.set i v = ws.take i ++ v :: ws.drop (i + 1) := by
  obtain ⟨hlt, rfl⟩ := List.getElem?_eq_some_iff.mp hi
  refine ⟨?_, fun v => ?_⟩
  · rw [← List.drop_eq_getElem_cons hlt, List.take_append_drop]
  · rw [List.set_eq_take_append_cons_drop, if_pos hlt]

/-- A thread of another session moves. -/
theorem threads_set_of_ne (hi : ws[i]? = some w) (hw : w.sessionId ≠ t) :
    threads t (ws.set i ⟨w.sessionId, pc⟩) = threads t ws := by
  obtain ⟨hws, hset⟩ := eq_take_append hi
  have hleft : threads t (ws.set i ⟨w.sessionId, pc⟩) =
      threads t (ws.take i) ++ threads t (ws.drop (i + 1)) := by
    rw [hset, threads_append, threads_cons_of_ne (w := ⟨w.sessionId, pc⟩) hw]
  have hright : threads t ws = threads t (ws.take i) ++ threads t (ws.drop (i + 1)) := by
    conv_lhs => rw [hws]
    rw [threads_append, threads_cons_of_ne hw]
  rw [hleft, hright]

/-- A thread of the session moves. -/
theorem threads_set_self (hi : ws[i]? = some w) (hw : w.sessionId = t) :
    (threads t ws)[(threads t (ws.take i)).length]? = some w.pc.timeless ∧
      threads t (ws.set i ⟨w.sessionId, pc⟩) =
        (threads t ws).set (threads t (ws.take i)).length pc.timeless := by
  obtain ⟨hws, hset⟩ := eq_take_append hi
  have hsplit : threads t ws =
      threads t (ws.take i) ++ w.pc.timeless :: threads t (ws.drop (i + 1)) := by
    conv_lhs => rw [hws]
    rw [threads_append, threads_cons_self hw]
  refine ⟨?_, ?_⟩
  · rw [hsplit]
    simp
  · rw [hset, threads_append, threads_cons_self (w := ⟨w.sessionId, pc⟩) hw, hsplit]
    simp

/-- New threads of other sessions. -/
theorem threads_started {started : Option Str} (h : ∀ u ∈ started, u ≠ t) :
    threads t (started.toList.map fun u => ⟨u, .readInput⟩) = [] := by
  cases started with
  | none => rfl
  | some u =>
    show threads t [⟨u, .readInput⟩] = []
    rw [threads_cons_of_ne (w := ⟨u, .readInput⟩) (h u rfl)]
    rfl

end

/-! ## Steps

With calls and threads treated, the three conditions of `Unwinding` remain: a step of others changes
nothing for the session, and steps with the same event keep two systems alike and return the same.
-/

section

variable {t : Str} {σ σ' τ τ' : Sys} {i j : Nat}

theorem Sys.step_call (σ : Sys) (op : Op) (now : Nat) :
    σ.step (.call op now) = some ⟨(σ.fs.call op now).2.1,
      σ.workers ++ (σ.fs.call op now).2.2.toList.map fun u => ⟨u, .readInput⟩⟩ := rfl

theorem Sys.rank_eq_none {w : Worker} (hw : σ.workers[i]? = some w) (h : σ.rank t i = none) :
    w.sessionId ≠ t := by
  intro heq
  simp [Sys.rank, hw, heq] at h

theorem Sys.rank_eq_some {w : Worker} (hw : σ.workers[i]? = some w) (h : σ.rank t i = some j) :
    w.sessionId = t ∧ (threads t (σ.workers.take i)).length = j := by
  simp only [Sys.rank, hw, Option.ite_none_right_eq_some, Option.some.injEq] at h
  exact h

/-- A step that does not concern the session leaves its part as it is. -/
theorem Sys.Wf.hidden {l : Label} (h : σ.Wf) (ht : IsName t) (hproject : project t σ l = none)
    (hstep : σ.step l = some σ') :
    SameFs t σ'.fs σ.fs ∧ threads t σ'.workers = threads t σ.workers := by
  -- stores of threads of other sessions go to other paths
  have hother : ∀ {u name : Str}, u ∈ σ.fs.sessions → u ≠ t → name ∈ sessionFiles →
      ¬ Under t (filePath u name) := by
    intro u name hu hne hname hunder
    exact hne ((under_filePath_iff (h.fs_wf.names u hu) ht (isName_of_mem hname)).mp hunder)
  cases l with
  | call op now =>
    have hpath : ¬ Under t (fullPath op.path) := by
      intro hunder
      simp [project, hunder] at hproject
    obtain ⟨hfs, hstarted⟩ := sameFs_call_of_not_under h.fs_wf ht hpath now
    rw [Sys.step_call, Option.some.injEq] at hstep
    subst hstep
    refine ⟨hfs, ?_⟩
    rw [threads_append, threads_started hstarted, List.append_nil]
  | answer i out err now =>
    cases h.move hstep with
    | answer hw =>
      have hne := Sys.rank_eq_none hw (Option.map_eq_none_iff.mp hproject)
      exact ⟨.refl t σ.fs, threads_set_of_ne hw hne⟩
  | run i =>
    have hrank : σ.rank t i = none := Option.map_eq_none_iff.mp hproject
    cases h.move hstep with
    | read hw => exact ⟨.refl t σ.fs, threads_set_of_ne hw (Sys.rank_eq_none hw hrank)⟩
    | storeOutput hw hattr =>
      have hne := Sys.rank_eq_none hw hrank
      have hmem := h.session _ (List.mem_of_getElem? hw)
      exact ⟨sameFs_put_of_not_under (hother hmem hne outputName_mem), threads_set_of_ne hw hne⟩
    | storeError hw hattr =>
      have hne := Sys.rank_eq_none hw hrank
      have hmem := h.session _ (List.mem_of_getElem? hw)
      exact ⟨sameFs_put_of_not_under (hother hmem hne errorName_mem), threads_set_of_ne hw hne⟩

/-- What the `j`-th thread of the session does under a lock. -/
inductive Turn (t : Str) (j : Nat) (σ σ' : Sys) : Prop where
  | read (hpc : (threads t σ.workers)[j]? = some .readInput) (hfs : σ'.fs = σ.fs)
      (hset : threads t σ'.workers = (threads t σ.workers).set j
        (afterRead ((σ.fs.files (filePath t inputName)).getD [])).timeless)
  | storeOutput {q : Str} {out err : Bytes} {attr : Attr} {now : Nat}
      (hpc : (threads t σ.workers)[j]? = some (.storeOutput q out err 0))
      (hfs : σ'.fs = σ.fs.put (filePath t outputName) out attr out.length now)
      (hset : threads t σ'.workers = (threads t σ.workers).set j (.storeError err 0))
  | storeError {err : Bytes} {attr : Attr} {now : Nat}
      (hpc : (threads t σ.workers)[j]? = some (.storeError err 0))
      (hfs : σ'.fs = σ.fs.put (filePath t errorName) err attr err.length now)
      (hset : threads t σ'.workers = (threads t σ.workers).set j .ended)

/-- **Inversion** of a step of a thread, in terms of the session alone. -/
theorem Sys.Wf.turn (h : σ.Wf) (hrank : σ.rank t i = some j) (hstep : σ.step (.run i) = some σ') :
    Turn t j σ σ' := by
  cases h.move hstep with
  | read hw =>
    obtain ⟨rfl, rfl⟩ := Sys.rank_eq_some hw hrank
    obtain ⟨hpc, hset⟩ := threads_set_self hw rfl
    exact .read hpc rfl hset
  | storeOutput hw hattr =>
    obtain ⟨rfl, rfl⟩ := Sys.rank_eq_some hw hrank
    obtain ⟨hpc, hset⟩ := threads_set_self hw rfl
    exact .storeOutput hpc rfl hset
  | storeError hw hattr =>
    obtain ⟨rfl, rfl⟩ := Sys.rank_eq_some hw hrank
    obtain ⟨hpc, hset⟩ := threads_set_self hw rfl
    exact .storeError hpc rfl hset

/-- Two systems that a session cannot tell apart. -/
structure Same (t : Str) (σ τ : Sys) : Prop where
  left_wf : σ.Wf
  right_wf : τ.Wf
  fs : SameFs t σ.fs τ.fs
  threads_eq : threads t σ.workers = threads t τ.workers

/-- The same turn in two systems that are alike. -/
theorem Same.turn (h : Same t σ τ) (hturn : Turn t j σ σ') (hturn' : Turn t j τ τ') :
    SameFs t σ'.fs τ'.fs ∧ threads t σ'.workers = threads t τ'.workers := by
  -- all that a thread reads is the input
  have hinput := h.fs.files (filePath t inputName) (under_filePath t inputName)
  cases hturn with
  | read hpc hfs hset =>
    rw [h.threads_eq] at hpc
    cases hturn' with
    | read hpc' hfs' hset' =>
      rw [hfs, hfs', hset, hset', h.threads_eq, hinput]
      exact ⟨h.fs, rfl⟩
    | storeOutput hpc' | storeError hpc' => cases hpc.symm.trans hpc'
  | storeOutput hpc hfs hset =>
    rw [h.threads_eq] at hpc
    cases hturn' with
    | storeOutput hpc' hfs' hset' =>
      cases hpc.symm.trans hpc'
      rw [hfs, hfs', hset, hset', h.threads_eq]
      exact ⟨h.fs.put, rfl⟩
    | read hpc' | storeError hpc' => cases hpc.symm.trans hpc'
  | storeError hpc hfs hset =>
    rw [h.threads_eq] at hpc
    cases hturn' with
    | storeError hpc' hfs' hset' =>
      cases hpc.symm.trans hpc'
      rw [hfs, hfs', hset, hset', h.threads_eq]
      exact ⟨h.fs.put, rfl⟩
    -- a thread stands at one place, so the two cannot do different things
    | read hpc' | storeOutput hpc' => cases hpc.symm.trans hpc'

/-- The return of an API call of the session's `j`-th thread. -/
theorem Sys.Wf.answered {out err : Bytes} {now : Nat} (h : σ.Wf) (hrank : σ.rank t i = some j)
    (hstep : σ.step (.answer i out err now) = some σ') :
    ∃ q, (threads t σ.workers)[j]? = some (.callApi q) ∧ σ'.fs = σ.fs ∧
      threads t σ'.workers = (threads t σ.workers).set j (.storeOutput q out err 0) := by
  cases h.move hstep with
  | answer hw =>
    obtain ⟨rfl, rfl⟩ := Sys.rank_eq_some hw hrank
    obtain ⟨hpc, hset⟩ := threads_set_self hw rfl
    exact ⟨_, hpc, rfl, hset⟩

/-- Steps with the same event keep the two systems alike and return the same. -/
theorem Same.both {l m : Label} {e : Event} (h : Same t σ τ) (ht : IsName t)
    (hl : project t σ l = some e) (hm : project t τ m = some e) (hstep : σ.step l = some σ')
    (hstep' : τ.step m = some τ') : observe σ l = observe τ m ∧ Same t σ' τ' := by
  -- the events determine what kind of step it is, and the number of the thread
  have hwf := h.left_wf.step hstep
  have hwf' := h.right_wf.step hstep'
  cases l with
  | call op now =>
    simp only [project, Option.ite_none_right_eq_some, Option.some.injEq] at hl
    obtain ⟨hunder, rfl⟩ := hl
    cases m with
    | call op' now' =>
      simp only [project, Option.ite_none_right_eq_some, Option.some.injEq, Event.call.injEq] at hm
      obtain ⟨-, rfl⟩ := hm
      have hcall : SameCall t (σ.fs.call op' now) (τ.fs.call op' now') :=
        h.fs.call h.left_wf.fs_wf h.right_wf.fs_wf ht hunder
      rw [Sys.step_call, Option.some.injEq] at hstep hstep'
      subst hstep hstep'
      -- the call starts a thread in both or in neither
      refine ⟨congrArg some hcall.reply, hwf, hwf', hcall.fs, ?_⟩
      rw [threads_append, threads_append, h.threads_eq, hcall.started]
    | run i' =>
      obtain ⟨_, -, heq⟩ := Option.map_eq_some_iff.mp hm
      cases heq
    | answer i' out' err' now' =>
      obtain ⟨_, -, heq⟩ := Option.map_eq_some_iff.mp hm
      cases heq
  | run i =>
    obtain ⟨j, hrank, rfl⟩ := Option.map_eq_some_iff.mp hl
    cases m with
    | call op' now' => simp [project] at hm
    | run i' =>
      obtain ⟨j', hrank', heq⟩ := Option.map_eq_some_iff.mp hm
      cases heq
      obtain ⟨hfs, hthreads⟩ :=
        h.turn (h.left_wf.turn hrank hstep) (h.right_wf.turn hrank' hstep')
      exact ⟨rfl, hwf, hwf', hfs, hthreads⟩
    | answer i' out' err' now' =>
      obtain ⟨_, -, heq⟩ := Option.map_eq_some_iff.mp hm
      cases heq
  | answer i out err now =>
    obtain ⟨j, hrank, rfl⟩ := Option.map_eq_some_iff.mp hl
    cases m with
    | call op' now' => simp [project] at hm
    | run i' =>
      obtain ⟨_, -, heq⟩ := Option.map_eq_some_iff.mp hm
      cases heq
    | answer i' out' err' now' =>
      obtain ⟨j', hrank', heq⟩ := Option.map_eq_some_iff.mp hm
      cases heq
      obtain ⟨q, hpc, hfs, hset⟩ := h.left_wf.answered hrank hstep
      -- the thread has asked for the same in both, and the answer is part of the event
      obtain ⟨q', hpc', hfs', hset'⟩ := h.right_wf.answered hrank' hstep'
      rw [h.threads_eq] at hpc
      cases hpc.symm.trans hpc'
      refine ⟨rfl, hwf, hwf', ?_, ?_⟩
      · rw [hfs, hfs']
        exact h.fs
      · rw [hset, hset', h.threads_eq]

/-- What a session sees is determined by its own steps. -/
theorem unwinding_same (ht : IsName t) : Unwinding Sys.step (project t) observe (Same t) where
  left := by
    intro σ σ' τ l h hproject hstep
    obtain ⟨hfs, hthreads⟩ := h.left_wf.hidden ht hproject hstep
    exact ⟨h.left_wf.step hstep, h.right_wf, hfs.trans h.fs, hthreads.trans h.threads_eq⟩
  right := by
    intro σ τ τ' m h hproject hstep
    obtain ⟨hfs, hthreads⟩ := h.right_wf.hidden ht hproject hstep
    exact ⟨h.left_wf, h.right_wf.step hstep, h.fs.trans hfs.symm, h.threads_eq.trans hthreads.symm⟩
  both := fun h hl hm hstep hstep' => h.both ht hl hm hstep hstep'

end

/-- Two new file systems, whoever mounts them. -/
theorem same_init {t : Str} (ht : IsName t) (uid gid now uid' gid' now' : Nat) :
    Same t (Sys.init uid gid now) (Sys.init uid' gid' now') := by
  refine ⟨Sys.wf_init uid gid now, Sys.wf_init uid' gid' now', ⟨Iff.rfl, fun _ _ => rfl, ?_⟩, rfl⟩
  intro path hpath
  have hroot := hpath.ne_root ht
  simp only [Sys.init, GPTfs.init, Function.update_of_ne hroot]

/-- **Isolation.** Two runs in which the calls below `/t`, the steps of the threads of `t` and the
API's results for them are the same, in their order, return the same for these calls: contents,
sizes and errors. The other sessions may do in each run what they like. -/
theorem session_isolated (t : Str) (ht : IsName t) (uid gid now uid' gid' now' : Nat)
    (ls ms : List Label) (σ τ : Sys)
    (hrun : exec Sys.step (fun _ _ => true) (Sys.init uid gid now) ls = some σ)
    (hrun' : exec Sys.step (fun _ _ => true) (Sys.init uid' gid' now') ms = some τ)
    (hevents : events Sys.step (project t) (Sys.init uid gid now) ls =
      events Sys.step (project t) (Sys.init uid' gid' now') ms) :
    observations Sys.step (project t) observe (Sys.init uid gid now) ls =
      observations Sys.step (project t) observe (Sys.init uid' gid' now') ms :=
  (unwinding_same ht).observations_eq (same_init ht uid gid now uid' gid' now') hrun hrun' hevents

/-- A session asks and reads the answer. -/
def aloneRun : List Label :=
  [.call (.mkdir (sessionPath ['a']) 0) 1, .call (.write (filePath ['a'] inputName) [104] 0) 2,
    .run 0, .answer 0 [7, 8] [] 3, .run 0, .run 0,
    .call (.read (filePath ['a'] outputName) 10 0) 4,
    .call (.getattr (filePath ['a'] outputName)) 5]

/-- The same beside another session that asks too. -/
def besideRun : List Label :=
  [.call (.mkdir (sessionPath ['b']) 0) 1, .call (.write (filePath ['b'] inputName) [105] 0) 2,
    .call (.mkdir (sessionPath ['a']) 0) 3, .run 0,
    .call (.write (filePath ['a'] inputName) [104] 0) 4, .run 1, .answer 0 [9] [9] 5,
    .answer 1 [7, 8] [] 6, .run 0, .run 1, .run 1, .run 0,
    .call (.read (filePath ['a'] outputName) 10 0) 7,
    .call (.getattr (filePath ['a'] outputName)) 8]

theorem session_isolated_beside :
    events Sys.step (project ['a']) (Sys.init 0 0 0) aloneRun =
        events Sys.step (project ['a']) (Sys.init 1 1 9) besideRun ∧
      observations Sys.step (project ['a']) observe (Sys.init 0 0 0) aloneRun =
        observations Sys.step (project ['a']) observe (Sys.init 1 1 9) besideRun := by
  have hevents : events Sys.step (project ['a']) (Sys.init 0 0 0) aloneRun =
      events Sys.step (project ['a']) (Sys.init 1 1 9) besideRun := by
    decide +kernel
  have hrun : (exec Sys.step (fun _ _ => true) (Sys.init 0 0 0) aloneRun).isSome = true := by
    decide +kernel
  have hrun' : (exec Sys.step (fun _ _ => true) (Sys.init 1 1 9) besideRun).isSome = true := by
    decide +kernel
  obtain ⟨σ, hσ⟩ := Option.isSome_iff_exists.mp hrun
  obtain ⟨τ, hτ⟩ := Option.isSome_iff_exists.mp hrun'
  exact ⟨hevents, session_isolated ['a'] ⟨by decide, by decide⟩ 0 0 0 1 1 9 aloneRun besideRun σ τ
    hσ hτ hevents⟩

end OsHomework.Gptfs
