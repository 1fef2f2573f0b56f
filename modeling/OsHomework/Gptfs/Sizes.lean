import OsHomework.Gptfs.Tables

/-!
# Gptfs — the size a file reports

`getattr` reports the `st_size` of the dictionary, `read` slices the content. A `write` and the
threads store the length of the content they store beside it; `truncate` stores the length it was
given, and a slice never lengthens the content.

* **`Sys.Wf.sized_step_iff`** — the steps that keep size and content together: all but a `truncate`
  beyond the end of an input.
* **`sized_of_shortens`** — in every run of such steps a read of `st_size` bytes is the whole file.
-/

namespace OsHomework.Gptfs

open Lts ByteFile

/-- `st_size` is the length of the content, for every file. -/
def GPTfs.Sized (fs : GPTfs) : Prop :=
  ∀ path content attr, fs.files path = some content → fs.fileAttrs path = some attr →
    attr.stSize = content.length

/-- The step is no `truncate` of an input to more than its length. -/
def Shortens (σ : Sys) : Label → Prop
  | .call (.truncate path length) _ =>
    ∀ s ∈ σ.fs.sessions, fullPath path = filePath s inputName →
      ∀ content ∈ σ.fs.files (filePath s inputName), length ≤ content.length
  | _ => True

theorem GPTfs.sized_init (uid gid now : Nat) : (GPTfs.init uid gid now).Sized := by
  intro path content attr hfile
  cases hfile

/-- A store keeps sizes right when it stores the length of its content. -/
theorem GPTfs.Sized.put_iff {fs : GPTfs} (h : fs.Sized) (path : Str) (content : Bytes) (attr : Attr)
    (size now : Nat) : (fs.put path content attr size now).Sized ↔ size = content.length := by
  constructor
  · intro hput
    exact hput path content _ (Function.update_self ..) (Function.update_self ..)
  · rintro rfl p c a hfile hattr
    dsimp only [GPTfs.put] at hfile hattr
    by_cases hp : p = path
    · subst hp
      rw [Function.update_self] at hfile hattr
      cases hfile
      cases hattr
      rfl
    · rw [Function.update_of_ne hp] at hfile hattr
      exact h p c a hfile hattr

/-- New files have the size they report, and the others keep theirs. -/
theorem GPTfs.Sized.initializeSession {fs : GPTfs} (h : fs.Sized) (hwf : fs.Wf) {t : Str}
    (ht : IsName t) (now : Nat) : (fs.initializeSession t now).Sized := by
  by_cases hmem : t ∈ fs.sessions
  · rwa [GPTfs.initializeSession, if_pos hmem]
  rw [initializeSession_eq hmem]
  intro path content attr hfile hattr
  dsimp only at hfile hattr
  -- a new file: empty, and of size 0
  by_cases hnew : path ∈ sessionFiles.map (filePath t)
  · rw [if_pos hnew] at hfile hattr
    cases hfile
    cases hattr
    rfl
  rw [if_neg hnew] at hfile hattr
  -- the attributes of the new directory are nobody's: its path is not the path of a file
  have hdir : path ≠ sessionPath t := by
    rintro rfl
    obtain ⟨s, -, name, -, heq⟩ := (hwf.files_iff _).mp (by rw [hfile]; rfl)
    exact sessionPath_ne_filePath ht s name heq
  rw [Function.update_of_ne hdir] at hattr
  exact h path content attr hfile hattr

/-- New times under a key leave the sizes. -/
theorem GPTfs.Sized.touch {fs : GPTfs} (h : fs.Sized) {key : Str} {old new : Attr}
    (hold : fs.fileAttrs key = some old) (hsize : new.stSize = old.stSize) :
    GPTfs.Sized { fs with fileAttrs := Function.update fs.fileAttrs key (some new) } := by
  intro path content attr hfile hattr
  dsimp only at hfile hattr
  by_cases hpath : path = key
  · subst hpath
    rw [Function.update_self] at hattr
    cases hattr
    rw [hsize]
    exact h path content old hfile hold
  · rw [Function.update_of_ne hpath] at hattr
    exact h path content attr hfile hattr

/-- A call of any other method. -/
theorem Effect.sized {fs fs' : GPTfs} {now : Nat} {op : Op} {started : Option Str}
    (heffect : Effect fs now op fs' started) (hwf : fs.Wf) (h : fs.Sized)
    (hop : ∀ path length, op ≠ .truncate path length) : fs'.Sized := by
  cases heffect with
  | unchanged => exact h
  | newSession t hname => exact h.initializeSession hwf hname now
  | write hs hpath hfile hattr => exact (h.put_iff ..).mpr rfl
  | truncate hs hpath hfile hattr => exact absurd rfl (hop _ _)
  | utimens atime mtime hattr => exact h.touch hattr rfl

/-- `truncate` on any path. -/
theorem Sys.Wf.sized_truncate_iff {σ : Sys} (hwf : σ.Wf) (h : σ.fs.Sized) (path : Str)
    (length now : Nat) :
    (σ.fs.call (.truncate path length) now).2.1.Sized ↔
      Shortens σ (.call (.truncate path length) now) := by
  rcases hwf.fs_wf.input_or_refused path with
    ⟨s, hs, hpath, ⟨content, hfile⟩, attr, hattr⟩ | ⟨e, -, hrefused⟩
  -- `content[:length]` has `length` bytes only if there are so many
  · rw [hwf.fs_wf.call_truncate hs hpath hfile hattr, h.put_iff, List.length_take]
    constructor
    · intro hlength t _ ht c hc
      rw [← ht, hpath, hfile] at hc
      cases hc
      omega
    · intro hshort
      have hle := hshort s hs hpath content hfile
      omega
  · rw [hrefused]
    refine iff_of_true h fun s hs hpath content hfile => ?_
    -- an input is not refused
    obtain ⟨attr, hattr⟩ := hwf.fs_wf.attr_of_file (hwf.fs_wf.isSome_file hs inputName_mem)
    have hcall := hrefused length now
    rw [hwf.fs_wf.call_truncate hs hpath hfile hattr] at hcall
    cases hcall

/-- **One step** from a state whose sizes are right leaves them right exactly when it does not
truncate an input beyond its end. -/
theorem Sys.Wf.sized_step_iff {σ σ' : Sys} {l : Label} (hwf : σ.Wf) (h : σ.fs.Sized)
    (hstep : σ.step l = some σ') : σ'.fs.Sized ↔ Shortens σ l := by
  cases hwf.move hstep with
  | @call op now fs started heffect =>
    cases op with
    -- the effect does not tell whether it was refused, the call does
    | truncate path length =>
      have hfs := congrArg (fun o : Option Sys => o.map Sys.fs) hstep
      have hfs : (σ.fs.call (.truncate path length) now).2.1 = fs := Option.some.inj hfs
      rw [← hfs]
      exact hwf.sized_truncate_iff h path length now
    | _ =>
      refine iff_of_true (heffect.sized hwf.fs_wf h ?_) trivial
      intro path length heq
      cases heq
  | read hw => exact iff_of_true h trivial
  | answer hw => exact iff_of_true h trivial
  | storeOutput hw hattr => exact iff_of_true ((h.put_iff ..).mpr rfl) trivial
  | storeError hw hattr => exact iff_of_true ((h.put_iff ..).mpr rfl) trivial

/-- A file whose size is right is read as a whole, and not beyond its end. -/
theorem GPTfs.Wf.read_stSize {fs : GPTfs} (hwf : fs.Wf) (h : fs.Sized) {path : Str}
    {content : Bytes} (hfile : fs.files path = some content) :
    ∃ attr, fs.getattr path = .ok attr ∧ attr.stSize = content.length ∧
      fs.read path attr.stSize 0 = .ok content := by
  obtain ⟨s, -, name, -, rfl⟩ := (hwf.files_iff path).mp (by rw [hfile]; rfl)
  obtain ⟨attr, hattr⟩ := hwf.attr_of_file (by rw [hfile]; rfl)
  have hsize := h _ content attr hfile hattr
  have hfull : fullPath (filePath s name) = filePath s name := rfl
  refine ⟨attr, GPTfs.getattr_eq_ok.mpr hattr, hsize, ?_⟩
  simp only [GPTfs.read, hfull, hfile, hsize, Nat.zero_add, List.take_length, List.drop_zero]

/-- In every run without a `truncate` beyond the end of an input, the size of every file is the
length of its content, and a read of that many bytes returns the whole file; the first step that is
such a `truncate` breaks it. -/
theorem sized_of_shortens (uid gid now : Nat) (σ : Sys)
    (hreach : Reach Sys.step Shortens (Sys.init uid gid now) σ) :
    (∀ path content, σ.fs.files path = some content →
        ∃ attr, σ.fs.getattr path = .ok attr ∧ attr.stSize = content.length ∧
          σ.fs.read path attr.stSize 0 = .ok content) ∧
      ∀ l σ', σ.step l = some σ' → (σ'.fs.Sized ↔ Shortens σ l) := by
  obtain ⟨hwf, hsized⟩ : σ.Wf ∧ σ.fs.Sized := by
    refine hreach.inv (I := fun σ => σ.Wf ∧ σ.fs.Sized)
      ⟨Sys.wf_init uid gid now, GPTfs.sized_init uid gid now⟩ ?_
    intro σ l σ' h hok hstep
    exact ⟨h.1.step hstep, (h.1.sized_step_iff h.2 hstep).mpr hok⟩
  exact ⟨fun path content hfile => hwf.fs_wf.read_stSize hsized hfile,
    fun l σ' hstep => hwf.sized_step_iff hsized hstep⟩

/-- A session is made, its input written and cut. -/
def writtenAndCut : List Label :=
  [.call (.mkdir ['s'] 0) 0, .call (.write (filePath ['s'] inputName) [97, 98] 0) 0,
    .call (.truncate (filePath ['s'] inputName) 1) 0]

/-- `Shortens` for the sessions and files there are. -/
instance (σ : Sys) (l : Label) : Decidable (Shortens σ l) := by
  unfold Shortens
  split <;> infer_instance

theorem sized_of_shortens_cut :
    ∃ σ, Reach Sys.step Shortens (Sys.init 0 0 0) σ ∧
      ∃ attr, σ.fs.getattr (filePath ['s'] inputName) = .ok attr ∧ attr.stSize = 1 ∧
        σ.fs.read (filePath ['s'] inputName) attr.stSize 0 = .ok [97] := by
  have hrun : (exec Sys.step (fun σ l => decide (Shortens σ l)) (Sys.init 0 0 0) writtenAndCut).map
      (fun σ => σ.fs.files (filePath ['s'] inputName)) = some (some [97]) := by
    decide +kernel
  obtain ⟨σ, hreach, hfile⟩ := reach_of_exec_map hrun fun σ l h => of_decide_eq_true h
  exact ⟨σ, hreach, (sized_of_shortens 0 0 0 σ hreach).1 _ _ hfile⟩

/-- The empty input of a new session is truncated to three bytes: it reports a size of 3 and there
is nothing to read. -/
theorem not_sized :
    ∃ σ, oneSession.step (.call (.truncate (filePath ['s'] inputName) 3) 0) = some σ ∧
      Reach Sys.step (fun _ _ => True) (Sys.init 0 0 0) σ ∧
      ∃ attr, σ.fs.getattr (filePath ['s'] inputName) = .ok attr ∧ attr.stSize = 3 ∧
        σ.fs.read (filePath ['s'] inputName) attr.stSize 0 = .ok [] := by
  have hstep : oneSession.step (.call (.truncate (filePath ['s'] inputName) 3) 0) = some _ := rfl
  exact ⟨_, hstep, (oneSession_reach trivial).tail trivial hstep, _, rfl, rfl, rfl⟩

end OsHomework.Gptfs
