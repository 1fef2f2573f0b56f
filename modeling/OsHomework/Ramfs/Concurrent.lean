import OsHomework.Lib.Reach
import OsHomework.Ramfs.Flush

/-!
# Ramfs — concurrent flushes

Any number of activations of `ramfs_file_flush` run at once over one sync directory, one primitive
at a time and in any order. All flushes of one name share the temp path `.<name>.tmp`, which is
reopened with `O_TRUNC` and looked up again by path for the rename, so an activation can publish
an inode another one has just emptied (`overlapping_flush_publishes_truncated`).

The persisted entry is whole in every run in which each open finds the temp path free
(`OpensAlone`): no other activation of that name between its open and its rename, the temp name not
itself the name of a flushed file, and no other name or temp name of a flushed file linked to the
inode found there. `Inv` is the invariant that carries this over the interleaving.
-/

namespace OsHomework.Ramfs

open ByteFile Lts

/-- A regular ramfs file whose content does not change while the flushes run. -/
structure RamFile where
  name : Name
  content : Bytes

/-- The shared volume and the activations. -/
structure FlushState (ι : Type) where
  vol : Volume
  act : ι → Act

section

variable {ι : Type} [DecidableEq ι] (files : ι → RamFile)

/-- Every activation stands at the entry of `ramfs_file_flush`, the directory is on disk. -/
def flushInit (d : SyncDir) : FlushState ι where
  vol := .clean d
  act := fun i => ramfsFileFlush true true (files i).name

/-- Activation `i` runs one primitive with the given outcome. -/
def flushStep (s : FlushState ι) (l : ι × Outcome) : Option (FlushState ι) :=
  ((s.act l.1).step (files l.1).content l.2 s.vol).map fun r =>
    { vol := r.2, act := Function.update s.act l.1 r.1 }

/-- The names the flushes deal in: those of the files, and those of their temp files. -/
def Watched (n : Name) : Prop := ∃ i, n = (files i).name ∨ n = tmpName (files i).name

/-- The temp path of activation `i` is free for it to open: nobody else of that name is between
open and rename, no flushed file is named like the temp file, and no other of the names in play is
a link to the inode found there (if any). -/
structure OpensAlone (s : FlushState ι) (i : ι) : Prop where
  no_overlap : ∀ j, j ≠ i → (s.act j).InUse → (files j).name ≠ (files i).name
  not_persisted : ∀ j, (files j).name ≠ tmpName (files i).name
  sole_link : SoleLink (Watched files) s.vol.live (tmpName (files i).name)

/-- The transfer contract of the VFS. -/
def Contract (s : FlushState ι) (l : ι × Outcome) : Prop := Advances (s.act l.1) l.2

instance (s : FlushState ι) (l : ι × Outcome) : Decidable (Contract s l) :=
  inferInstanceAs (Decidable (Advances _ _))

/-- The transfer contract, and every open that succeeds finds its temp path free. -/
def Exclusive (s : FlushState ι) (l : ι × Outcome) : Prop :=
  Contract s l ∧ ((s.act l.1).pc = .openTmp → l.2.isOk = true → OpensAlone files s l.1)

/-- A reader of `<dir>/<name>` finds what was there initially or all of a source file of that
name. -/
def Whole (d : SyncDir) (s : FlushState ι) (n : Name) : Prop :=
  s.vol.live.content n = d.content n ∨
    ∃ j, (files j).name = n ∧ s.vol.live.content n = some (files j).content

/-! ## The invariant

Each activation knows what is in its temp file (`good`), because no two of one name have theirs open
at once (`apart`) and no temp name is the name of a file that somebody else publishes (`clear`).
These are what an open has to establish; every other step keeps them, since it touches the
activation's own temp file only. -/

/-- What holds between any two primitives. -/
structure Inv (d : SyncDir) (s : FlushState ι) : Prop where
  name_eq : ∀ i, (s.act i).name = (files i).name
  good : ∀ i, (s.act i).Good (Watched files) (files i).content s.vol
  apart : ∀ i j, i ≠ j → (s.act i).InUse → (s.act j).InUse → (files i).name ≠ (files j).name
  clear : ∀ i j, (s.act i).InUse → (files j).name ≠ tmpName (files i).name
  whole : ∀ i, Whole files d s (files i).name

variable {files}

omit [DecidableEq ι] in
/-- Before the first primitive. -/
theorem inv_flushInit (d : SyncDir) : Inv files d (flushInit files d) where
  name_eq := fun _ => rfl
  good := fun _ => trivial
  apart := fun _ _ _ h => h.elim
  clear := fun _ _ h => h.elim
  whole := fun _ => Or.inl rfl

/-- A step under the guard. Either the activation touches the volume, and if it opens its temp file
now it does so alone, or nothing changes there: the open may have failed. -/
theorem Exclusive.move {s s' : FlushState ι} {l : ι × Outcome} (hok : Exclusive files s l)
    (h : flushStep files s l = some s') :
    ∃ a', Move (files l.1).content (s.act l.1) s.vol a' s'.vol ∧
      s'.act = Function.update s.act l.1 a' ∧
      (((s.act l.1).InUse ∨ (s.act l.1).pc = .openTmp) ∧
          ((s.act l.1).pc = .openTmp → OpensAlone files s l.1) ∨
        s'.vol = s.vol ∧ ¬ a'.InUse) := by
  obtain ⟨⟨a', v'⟩, hstep, rfl⟩ := Option.map_eq_some_iff.mp h
  refine ⟨a', move_of_step hok.1 hstep, rfl, ?_⟩
  by_cases huse : (s.act l.1).InUse
  · refine Or.inl ⟨Or.inl huse, fun hpc => ?_⟩
    simp [Act.InUse, hpc] at huse
  · by_cases hopen : (s.act l.1).pc = .openTmp ∧ l.2.isOk = true
    · exact Or.inl ⟨Or.inr hopen.1, fun hpc => hok.2 hpc hopen.2⟩
    · exact Or.inr (Act.step_idle hstep huse hopen)

omit [DecidableEq ι] in
/-- What the moving activation may rely on: if it touches the volume at all, no flushed file is
named like its temp file, and nobody else has that file open. -/
theorem Inv.free {d : SyncDir} {s : FlushState ι} {i : ι} (hinv : Inv files d s)
    (hopen : (s.act i).pc = .openTmp → OpensAlone files s i)
    (htouch : (s.act i).InUse ∨ (s.act i).pc = .openTmp) :
    (∀ j, (files j).name ≠ tmpName (files i).name) ∧
      ∀ j, j ≠ i → (s.act j).InUse → (files i).name ≠ (files j).name := by
  rcases htouch with huse | hpc
  · exact ⟨fun j => hinv.clear i j huse, fun j hj => hinv.apart i j hj.symm huse⟩
  · exact ⟨(hopen hpc).not_persisted, fun j hj huse => ((hopen hpc).no_overlap j hj huse).symm⟩

section

variable {d : SyncDir} {s s' : FlushState ι} {i : ι} {a' : Act}

/-- A step does not change for which file a flush was called. -/
theorem Inv.name_eq_update (hinv : Inv files d s)
    (hmove : Move (files i).content (s.act i) s.vol a' s'.vol)
    (hact : s'.act = Function.update s.act i a') (j : ι) : (s'.act j).name = (files j).name := by
  by_cases hj : j = i
  · subst hj
    rw [hact, Function.update_self, hmove.name_eq, hinv.name_eq]
  · rw [hact, Function.update_of_ne hj, hinv.name_eq]

/-- A step of an activation that has its temp file open or opens it. -/
theorem Inv.step_of_touch (hinv : Inv files d s)
    (hmove : Move (files i).content (s.act i) s.vol a' s'.vol)
    (hact : s'.act = Function.update s.act i a')
    (hsole : (s.act i).pc = .openTmp →
      SoleLink (Watched files) s.vol.live (tmpName (s.act i).name))
    (hclear : ∀ j, (files j).name ≠ tmpName (files i).name)
    (hapart : ∀ j, j ≠ i → (s.act j).InUse → (files i).name ≠ (files j).name) :
    Inv files d s' := by
  -- each activation knows what it knew
  refine ⟨hinv.name_eq_update hmove hact, ?_, ?_, ?_, ?_⟩
  · intro j
    by_cases hj : j = i
    · subst hj
      rw [hact, Function.update_self]
      exact hmove.good (hinv.good j) hsole
    · rw [hact, Function.update_of_ne hj]
      refine (hinv.good j).of_owns fun c huse howns => ?_
      -- another one: the step does not touch its temp file
      refine hmove.owns_other (hinv.good i) hsole howns ⟨i, Or.inr (by rw [hinv.name_eq])⟩
        ⟨j, Or.inr (by rw [hinv.name_eq])⟩ ?_ ?_
      · rw [hinv.name_eq, hinv.name_eq]
        exact hapart j hj huse
      · rw [hinv.name_eq, hinv.name_eq]
        exact hinv.clear j i huse
  -- no two with one name have it open
  · intro j k hjk hj hk
    rw [hact] at hj hk
    by_cases hji : j = i
    · subst hji
      rw [Function.update_of_ne (Ne.symm hjk)] at hk
      exact hapart k (Ne.symm hjk) hk
    · rw [Function.update_of_ne hji] at hj
      by_cases hki : k = i
      · subst hki
        exact (hapart j hji hj).symm
      · rw [Function.update_of_ne hki] at hk
        exact hinv.apart j k hjk hj hk
  · intro j k hj
    by_cases hji : j = i
    · subst hji
      exact hclear k
    · rw [hact, Function.update_of_ne hji] at hj
      exact hinv.clear j k hj
  · intro k
    -- the entry changes only when `i` publishes its own complete source under its own name
    rcases hmove.content (hinv.good i) hsole (n := (files k).name) ⟨k, Or.inl rfl⟩
        (by rw [hinv.name_eq]; exact hclear k) with hsame | ⟨hnm, -, hsrc⟩
    · rcases hinv.whole k with hold | ⟨j, hj, hc⟩
      · exact Or.inl (hsame.trans hold)
      · exact Or.inr ⟨j, hj, hsame.trans hc⟩
    · exact Or.inr ⟨i, by rw [hnm, hinv.name_eq], hsrc⟩

/-- A step with nothing open and nothing opened: the volume is untouched. -/
theorem Inv.step_of_idle (hinv : Inv files d s)
    (hmove : Move (files i).content (s.act i) s.vol a' s'.vol)
    (hact : s'.act = Function.update s.act i a') (hvol : s'.vol = s.vol) (hidle : ¬ a'.InUse) :
    Inv files d s' := by
  -- nobody has opened anything
  have huse : ∀ j, (s'.act j).InUse → (s.act j).InUse := by
    intro j hj
    rw [hact] at hj
    by_cases hji : j = i
    · subst hji
      rw [Function.update_self] at hj
      exact absurd hj hidle
    · rwa [Function.update_of_ne hji] at hj
  refine ⟨hinv.name_eq_update hmove hact, ?_,
    fun j k hjk hj hk => hinv.apart j k hjk (huse j hj) (huse k hk),
    fun j k hj => hinv.clear j k (huse j hj), ?_⟩
  · intro j
    by_cases hj : j = i
    · subst hj
      rw [hact, Function.update_self]
      exact Act.good_of_not_inUse hidle
    · rw [hact, Function.update_of_ne hj, hvol]
      exact hinv.good j
  · intro k
    rw [Whole, hvol]
    exact hinv.whole k

end

/-- **One primitive** of any activation. -/
theorem Inv.step {d : SyncDir} {s s' : FlushState ι} {l : ι × Outcome} (hinv : Inv files d s)
    (hok : Exclusive files s l) (h : flushStep files s l = some s') : Inv files d s' := by
  obtain ⟨a', hmove, hact, ⟨htouch, hopen⟩ | ⟨hvol, hidle⟩⟩ := hok.move h
  · obtain ⟨hclear, hapart⟩ := hinv.free hopen htouch
    refine hinv.step_of_touch hmove hact (fun hpc => ?_) hclear hapart
    rw [hinv.name_eq]
    exact (hopen hpc).sole_link
  · exact hinv.step_of_idle hmove hact hvol hidle

/-- **Concurrent flushes publish whole files.** In every run in which each open that succeeds finds
its temp path free, at every moment the persisted entry of every flushed name is what it was
initially or all of a source file of that name. -/
theorem whole_of_exclusive (files : ι → RamFile) (d : SyncDir) (s : FlushState ι)
    (h : Reach (flushStep files) (Exclusive files) (flushInit files d) s) (i : ι) :
    Whole files d s (files i).name :=
  (h.inv (inv_flushInit d) fun _ _ _ hinv hok hstep => hinv.step hok hstep).whole i

end

/-- The files `f` and `g`, flushed in lockstep. -/
def lockstepFiles : Bool → RamFile
  | true => ⟨['f'.toUInt8], [1]⟩
  | false => ⟨['g'.toUInt8], [2, 3]⟩

/-- One primitive of each in turn. -/
def lockstepRun : List (Bool × Outcome) :=
  (List.replicate 16 [(true, Outcome.ok 1), (false, .ok 1)]).flatten

/-- Both files are persisted. -/
theorem whole_of_exclusive_lockstep :
    ∃ s, Reach (flushStep lockstepFiles) (Exclusive lockstepFiles)
        (flushInit lockstepFiles .empty) s ∧
      s.vol.live.content ['f'.toUInt8] = some [1] ∧
      Whole lockstepFiles .empty s (lockstepFiles true).name := by
  -- an open that finds no entry finds its temp path free
  have hrun : (exec (flushStep lockstepFiles)
      (fun s l => decide (Contract s l ∧ ((s.act l.1).pc = .openTmp →
        s.vol.live.entry (tmpName (lockstepFiles l.1).name) = none)))
      (flushInit lockstepFiles .empty) lockstepRun).map (·.vol.live.content ['f'.toUInt8])
        = some (some [1]) := by decide +kernel
  have hnames : ∀ i j, j ≠ i → (lockstepFiles j).name ≠ (lockstepFiles i).name := by decide
  have htmps : ∀ i j, (lockstepFiles j).name ≠ tmpName (lockstepFiles i).name := by decide
  obtain ⟨s, hreach, hcontent⟩ := reach_of_exec_map hrun fun s l h =>
    (⟨(of_decide_eq_true h).1, fun hpc _ => ⟨fun j hj _ => hnames l.1 j hj, htmps l.1, by
      intro i m _ hi
      rw [(of_decide_eq_true h).2 hpc] at hi
      cases hi⟩⟩ : Exclusive lockstepFiles s l)
  exact ⟨s, hreach, hcontent, whole_of_exclusive lockstepFiles .empty s hreach true⟩

/-- Two flushes of the one-byte file `f`, the second of which opens the temp file when the first
has closed it and has not yet looked it up (nor locked the directory). -/
def twoFlushes : Bool → RamFile := fun _ => ⟨['f'.toUInt8], [1]⟩

/-- The second flush opens the temp file between the close and the lookup of the first. -/
def overlappingRun : List (Bool × Outcome) :=
  List.replicate 12 (true, .ok 1) ++ List.replicate 3 (false, .ok 1) ++
    List.replicate 4 (true, .ok 1)

/-- The first flush publishes the inode the second one has just emptied: the entry is neither
absent, as it was initially, nor the one-byte content. -/
theorem overlapping_flush_publishes_truncated :
    ∃ s, Reach (flushStep twoFlushes) Contract (flushInit twoFlushes .empty) s ∧
      s.vol.live.content ['f'.toUInt8] = some [] ∧
      ¬ Whole twoFlushes .empty s ['f'.toUInt8] := by
  have hrun : (exec (flushStep twoFlushes) (fun s l => decide (Contract s l))
      (flushInit twoFlushes .empty) overlappingRun).map (·.vol.live.content ['f'.toUInt8])
        = some (some []) := by decide +kernel
  obtain ⟨s, hreach, hcontent⟩ := reach_of_exec_map hrun fun s l h => of_decide_eq_true h
  refine ⟨s, hreach, hcontent, ?_⟩
  rintro (h | ⟨j, -, h⟩)
  · rw [hcontent] at h
    exact absurd h (by decide)
  · rw [hcontent] at h
    exact absurd h (by cases j <;> decide)

end OsHomework.Ramfs
