import Mathlib.Data.List.Induction
import OsHomework.Lib.Reach
import OsHomework.Ramfs.Flush

/-!
# Ramfs — one flush against failures and crashes

A single activation runs alone on a file of content `c`. Every primitive may fail, reads and writes
may be short, and the machine may crash between any two primitives. `SafeAt` is what is wanted of
the entry `<dir>/<name>` at every such point: it holds what it held before or exactly `c`, what it
held before if a negative code is returned, `c` if 0 is.

The directory may be in any state when the flush begins: other names may lead to the same files, and
of what was done to it before, some may not be on disk yet. The temp file is opened with `O_TRUNC`
but without `O_EXCL`, so a stale `.<name>.tmp` that is another link of the entry's file is emptied
in place together with it, and so is one that becomes the entry again when a crash loses a rename.

* **`CrashInv`** — what a flush has changed of the volume so far: nothing but the temp file, and
  updates of the directory that only take effect with `c` on disk.
* **`CrashInv.oldOrNew`** — then every crash shows the old content or `c`.
* **`SoloInv.step`**, **`EmptyInv.step`** — a run with a temp file of its own, and the one harmless
  case of a shared one: an empty file and nothing to write.
* **`flushSafe_iff`** — the entry is safe exactly when it was before the flush (`Settled`) and the
  temp file is not the entry's, neither now nor after a crash (`TempApart`).
-/

namespace OsHomework.Ramfs

open ByteFile Lts

/-- One activation running alone. -/
def soloStep (c : Bytes) (s : Act × Volume) (o : Outcome) : Option (Act × Volume) :=
  s.1.step c o s.2

def SoloContract (s : Act × Volume) (o : Outcome) : Prop := Advances s.1 o

instance (s : Act × Volume) (o : Outcome) : Decidable (SoloContract s o) :=
  inferInstanceAs (Decidable (Advances _ _))

theorem move_of_soloStep {c : Bytes} {s t : Act × Volume} {o : Outcome} (hok : SoloContract s o)
    (hstep : soloStep c s o = some t) : Move c s.1 s.2 t.1 t.2 :=
  move_of_step hok hstep

/-- The flush begins, on a directory in any state. -/
def soloInit (name : Name) (v : Volume) : Act × Volume := (ramfsFileFlush true true name, v)

/-- The entry holds what it held before the flush, or exactly the content flushed. -/
def OldOrNew (name : Name) (c : Bytes) (d : SyncDir) (img : Snapshot) : Prop :=
  img.content name = d.content name ∨ img.content name = some c

/-- What is wanted of the entry at every point of a flush. -/
structure SafeAt (name : Name) (c : Bytes) (d : SyncDir) (s : Act × Volume) : Prop where
  running : OldOrNew name c d s.2.live.toSnapshot
  crashed : ∀ img, CrashImage s.2 img → OldOrNew name c d img
  failed : ∀ code, s.1.pc = .ret code → code < 0 → s.2.live.content name = d.content name
  succeeded : s.1.pc = .ret 0 → s.2.live.content name = some c

/-- The flush of `c` under `name` into the volume `v` is safe at every point of every run. -/
def FlushSafe (name : Name) (c : Bytes) (v : Volume) : Prop :=
  ∀ s, Reach (soloStep c) SoloContract (soloInit name v) s → SafeAt name c v.live s

/-! ## When it is safe

Before the flush has done anything a crash may already show something else than the running kernel
does: an update of the directory is lost, or data that was never synced. That is no fault of the
flush, but the entry is not safe then. What the flush itself touches is the inode that the open of
the temp file ends up with. -/

/-- A crash before the first step shows what the entry holds, or `c`. -/
def Settled (name : Name) (c : Bytes) (v : Volume) : Prop :=
  ∀ img, CrashImage v img → OldOrNew name c v.live img

/-- After a crash the name may lead to the inode, with some of the pending updates lost. -/
def Volume.MayLead (v : Volume) (n : Name) (i : Ino) : Prop :=
  ∃ kept : List DirUpdate,
    kept.Sublist v.pending ∧ kept.foldl DirUpdate.apply v.diskEntry n = some i

/-- The inode behind the temp file. -/
def Volume.tempIno (v : Volume) (name : Name) : Ino := v.live.openIno (tmpName name)

/-- The temp file is not the file of the entry, now or after a crash; or both are empty, and so is
the source. -/
structure TempApart (name : Name) (c : Bytes) (v : Volume) : Prop where
  now : v.live.entry name = some (v.tempIno name) → v.live.data (v.tempIno name) = [] ∧ c = []
  later : v.MayLead name (v.tempIno name) → v.diskData (v.tempIno name) = [] ∧ c = []

/-! ## Crash images

Which of the pending updates survive is the crash's choice, so the updates that a flush adds must be
harmless one by one: the link of the temp file does not touch the entry, and the rename onto it
comes when `c` is on disk. -/

/-- An update that does not take `name` away: it leaves it alone or makes it lead to another
inode. -/
def DirUpdate.Spares (name : Name) : DirUpdate → Prop
  | .link n _ => n ≠ name
  | .rename old _ _ => old ≠ name

/-- Whichever such updates survive, the name leads where it led or where one of them has renamed
to. -/
theorem foldl_spares {name : Name} {us : List DirUpdate} (hus : ∀ u ∈ us, u.Spares name)
    (e : Name → Option Ino) :
    us.foldl DirUpdate.apply e name = e name ∨
      ∃ old i, .rename old name i ∈ us ∧ us.foldl DirUpdate.apply e name = some i := by
  induction us using List.reverseRecOn with
  -- induction from the end, since the last update decides
  | nil => exact Or.inl rfl
  | append_singleton us u ih =>
    rw [List.foldl_append, List.foldl_cons, List.foldl_nil]
    have hu := hus u (by simp)
    -- an update elsewhere leaves the decision to the ones before it
    have helse : ∀ w : Option Ino, w = us.foldl DirUpdate.apply e name →
        w = e name ∨ ∃ old i, .rename old name i ∈ us ++ [u] ∧ w = some i := by
      rintro w rfl
      rcases ih fun w hw => hus w (by simp [hw]) with h | ⟨old, i, hmem, h⟩
      · exact Or.inl h
      · exact Or.inr ⟨old, i, by simp [hmem], h⟩
    cases u with
    -- a link under another name
    | link n i => exact helse _ (Function.update_of_ne (Ne.symm hu) _ _)
    | rename old new i =>
      by_cases hnew : name = new
      · subst hnew
        exact Or.inr ⟨old, i, by simp, by simp [DirUpdate.apply]⟩
      · refine helse _ ?_
        rw [DirUpdate.apply, Function.update_of_ne hnew, Function.update_of_ne (Ne.symm hu)]

/-- A link made under another name. -/
def DirUpdate.Elsewhere (name : Name) : DirUpdate → Prop
  | .link n _ => n ≠ name
  | .rename _ _ _ => False

/-- An update that leaves `name` alone, or makes it lead to an inode whose data on disk is `c`. -/
def DirUpdate.Harmless (name : Name) (c : Bytes) (v : Volume) : DirUpdate → Prop
  | .link n _ => n ≠ name
  | .rename old new i => old ≠ name ∧ new = name ∧ v.Durable i c

variable {name : Name} {c : Bytes} {a a' : Act} {v₀ v v' : Volume}

theorem DirUpdate.Harmless.spares {u : DirUpdate} (h : u.Harmless name c v) : u.Spares name := by
  cases u with
  | link n i => exact h
  | rename old new i => exact h.1

theorem DirUpdate.Elsewhere.harmless {u : DirUpdate} (h : u.Elsewhere name) (v : Volume) :
    u.Harmless name c v := by
  cases u with
  | link n i => exact h
  | rename old new i => exact h.elim

/-- The two volumes hold the same in every inode but `i`, live and on disk. -/
def Volume.SameOff (i : Ino) (v w : Volume) : Prop :=
  ∀ j, j ≠ i → w.dirty j = v.dirty j ∧ w.diskData j = v.diskData j ∧ w.live.data j = v.live.data j

theorem Volume.SameOff.refl (i : Ino) (v : Volume) : v.SameOff i v := fun _ _ => ⟨rfl, rfl, rfl⟩

theorem Volume.SameOff.trans {i : Ino} {w x : Volume} (h : v.SameOff i w) (h' : w.SameOff i x) :
    v.SameOff i x := by
  intro j hj
  obtain ⟨hdirty, hdisk, hlive⟩ := h j hj
  obtain ⟨hdirty', hdisk', hlive'⟩ := h' j hj
  exact ⟨hdirty'.trans hdirty, hdisk'.trans hdisk, hlive'.trans hlive⟩

theorem Volume.sameOff_openTrunc (v : Volume) (n : Name) :
    v.SameOff (v.live.openIno n) (v.openTrunc n) := fun _ hj =>
  ⟨Function.update_of_ne hj _ _, rfl, v.live.openTrunc_data_ne hj⟩

theorem Volume.sameOff_write (v : Volume) (i : Ino) (pos : Nat) (buf : Bytes) :
    v.SameOff i (v.write i pos buf) := fun _ hj =>
  ⟨Function.update_of_ne hj _ _, rfl, v.live.write_data_ne hj pos buf⟩

theorem Volume.sameOff_fsync (v : Volume) (i : Ino) : v.SameOff i (v.fsync i) := fun _ hj =>
  ⟨Function.update_of_ne hj _ _, Function.update_of_ne hj _ _, rfl⟩

/-- What a flush that began on `v₀` has changed of the volume so far. -/
structure CrashInv (name : Name) (c : Bytes) (v₀ v : Volume) : Prop where
  disk_eq : v.diskEntry = v₀.diskEntry
  added : ∃ us, v.pending = v₀.pending ++ us ∧ ∀ u ∈ us, u.Harmless name c v
  others : v₀.SameOff (v₀.tempIno name) v
  temp : v = v₀ ∨ (v₀.MayLead name (v₀.tempIno name) →
    c = [] ∧ v.diskData (v₀.tempIno name) = [] ∧ v.live.data (v₀.tempIno name) = [])

theorem crashInv_init (name : Name) (c : Bytes) (v : Volume) : CrashInv name c v v where
  disk_eq := rfl
  added := ⟨[], (List.append_nil _).symm, by simp⟩
  others := Volume.SameOff.refl _ _
  temp := Or.inl rfl

/-- What is left of a crash when the flush's own updates and its temp file are taken out of it. -/
def Volume.crashBefore (v₀ : Volume) (name : Name) (kept : List DirUpdate) (img : Snapshot) :
    Snapshot where
  entry := kept.foldl DirUpdate.apply v₀.diskEntry
  data := Function.update img.data (v₀.tempIno name) (v₀.diskData (v₀.tempIno name))

theorem content_crashBefore {kept : List DirUpdate} {img : Snapshot}
    (hentry : kept.foldl DirUpdate.apply v₀.diskEntry name = img.entry name)
    (hne : img.entry name ≠ some (v₀.tempIno name)) :
    (v₀.crashBefore name kept img).content name = img.content name := by
  unfold Snapshot.content
  show Option.map _ (kept.foldl DirUpdate.apply v₀.diskEntry name) = _
  rw [hentry]
  cases he : img.entry name with
  | none => rfl
  | some i =>
    have hi : i ≠ v₀.tempIno name := fun h => hne (by rw [he, h])
    have hdata : (v₀.crashBefore name kept img).data i = img.data i := Function.update_of_ne hi _ _
    rw [Option.map_some, Option.map_some, hdata]

/-- It is a crash that could have come before the flush. -/
theorem CrashInv.crashImage (hinv : CrashInv name c v₀ v) {img : Snapshot}
    (himg : CrashImage v img) {kept : List DirUpdate} (hkept : kept.Sublist v₀.pending) :
    CrashImage v₀ (v₀.crashBefore name kept img) where
  entry_kept := ⟨kept, hkept, rfl⟩
  data_kept := by
    intro j hclean
    unfold Volume.crashBefore
    by_cases hj : j = v₀.tempIno name
    -- the temp file, with what was on disk before the flush
    · subst hj
      exact Function.update_self _ _ _
    -- an inode that the flush does not touch
    · obtain ⟨hdirty, hdisk, -⟩ := hinv.others j hj
      show Function.update _ _ _ j = _
      rw [Function.update_of_ne hj, himg.data_kept j (hdirty.trans hclean), hdisk]
  data_length := by
    intro j
    by_cases hj : j = v₀.tempIno name
    · subst hj
      have hdata : (v₀.crashBefore name kept img).data (v₀.tempIno name) =
          v₀.diskData (v₀.tempIno name) := Function.update_self _ _ _
      rw [hdata]
      exact Nat.le_max_left _ _
    · obtain ⟨-, hdisk, hlive⟩ := hinv.others j hj
      have hdata : (v₀.crashBefore name kept img).data j = img.data j :=
        Function.update_of_ne hj _ _
      rw [hdata, ← hdisk, ← hlive]
      exact himg.data_length j

/-- **A crash during the flush shows the old content or the new one**, if a crash before it would
have. -/
theorem CrashInv.oldOrNew (hinv : CrashInv name c v₀ v) (hsettled : Settled name c v₀)
    {img : Snapshot} (himg : CrashImage v img) : OldOrNew name c v₀.live img := by
  rcases hinv.temp with rfl | htemp
  -- nothing has happened yet
  · exact hsettled img himg
  obtain ⟨us, hpending, hus⟩ := hinv.added
  obtain ⟨kept, hsub, hentry⟩ := himg.entry_kept
  -- the updates that survive are some from before the flush and some of its own
  rw [hpending, List.sublist_append_iff] at hsub
  obtain ⟨before, own, rfl, hbefore, hown⟩ := hsub
  rw [List.foldl_append, hinv.disk_eq] at hentry
  rcases foldl_spares (fun u hu => (hus u (hown.subset hu)).spares)
    (before.foldl DirUpdate.apply v₀.diskEntry) with h | ⟨old, i, hmem, h⟩
  · rw [← hentry] at h
    by_cases hback : img.entry name = some (v₀.tempIno name)
    · -- the crash brings back the inode that the flush uses as its temp file
      obtain ⟨hc, hdisk, hlive⟩ := htemp ⟨before, hbefore, h.symm.trans hback⟩
      have hlen := himg.data_length (v₀.tempIno name)
      rw [hdisk, hlive] at hlen
      have hdata : img.data (v₀.tempIno name) = [] :=
        List.eq_nil_of_length_eq_zero (Nat.le_zero.mp hlen)
      right
      rw [Snapshot.content, hback, Option.map_some, hdata, hc]
    · rw [OldOrNew, ← content_crashBefore h.symm hback]
      exact hsettled _ (hinv.crashImage himg hbefore)
  · -- the rename survives: its inode was fsynced before it
    right
    obtain ⟨-, -, hi, hc⟩ := hus _ (hown.subset hmem)
    rw [Snapshot.content, hentry, h, Option.map_some, himg.data_kept i hi, hc]

/-! ## What every flush does to the volume

The same whether or not the temp file is the entry's own: one inode changes, and the directory
updates added before the return are links of other names. -/

/-- The program counters before the temp file is opened. -/
def Pc.BeforeOpen : Pc → Prop
  | .kstrdup | .kmallocPath | .openTmp => True
  | _ => False

/-- The program counters between the fsync and the return. -/
def Pc.AfterSync : Pc → Prop
  | .close | .kmallocTmp | .lookupTmp | .lookupDir | .lookupNew | .rename => True
  | _ => False

/-- What holds at every point of a lone flush that began on `v₀`. -/
structure FlushInv (name : Name) (c : Bytes) (v₀ : Volume) (a : Act) (v : Volume) : Prop where
  name_eq : a.name = name
  fresh : a.pc.BeforeOpen → v = v₀
  sync_eq : a.InUse → a.sync = v₀.tempIno name
  links : (∀ code, a.pc ≠ .ret code) →
    ∃ us, v.pending = v₀.pending ++ us ∧ ∀ u ∈ us, u.Elsewhere name
  crash : CrashInv name c v₀ v

theorem flushInv_init (name : Name) (c : Bytes) (v : Volume) :
    FlushInv name c v (ramfsFileFlush true true name) v where
  name_eq := rfl
  fresh := fun _ => rfl
  sync_eq := fun h => h.elim
  links := fun _ => ⟨[], (List.append_nil _).symm, by simp⟩
  crash := crashInv_init name c v

/-- Before the return the updates added are harmless on every volume. -/
theorem FlushInv.added_harmless (hinv : FlushInv name c v₀ a v) (hrun : ∀ code, a.pc ≠ .ret code)
    (w : Volume) : ∃ us, v.pending = v₀.pending ++ us ∧ ∀ u ∈ us, u.Harmless name c w := by
  obtain ⟨us, hpending, hus⟩ := hinv.links hrun
  exact ⟨us, hpending, fun u hu => (hus u hu).harmless w⟩

/-- Steps that leave the volume alone and keep the open file. -/
theorem FlushInv.stay (hinv : FlushInv name c v₀ a v) (hname : a'.name = a.name)
    (hrun : ∀ code, a.pc ≠ .ret code) (hfresh : a'.pc.BeforeOpen → a.pc.BeforeOpen)
    (huse : a'.InUse → a.InUse ∧ a'.sync = a.sync) : FlushInv name c v₀ a' v where
  name_eq := hname.trans hinv.name_eq
  fresh := fun h => hinv.fresh (hfresh h)
  sync_eq := fun h => (huse h).2.trans (hinv.sync_eq (huse h).1)
  links := fun _ => hinv.links hrun
  crash := hinv.crash

theorem FlushInv.openTmp (hinv : FlushInv name c v₀ a v) (hapart : TempApart name c v₀)
    (hpc : a.pc = .openTmp) :
    FlushInv name c v₀ { a with pc := .dPath, sync := v.live.openIno (tmpName a.name) }
      (v.openTrunc (tmpName a.name)) := by
  obtain rfl := hinv.fresh (by simp [hpc, Pc.BeforeOpen])
  rw [hinv.name_eq]
  -- the only update the open can add is the creation of the temp file
  have hlinks : ∃ us, (v.openTrunc (tmpName name)).pending = v.pending ++ us ∧
      ∀ u ∈ us, u.Elsewhere name := by
    by_cases hsome : (v.live.entry (tmpName name)).isSome
    · exact ⟨[], by simp [Volume.openTrunc, hsome], by simp⟩
    · refine ⟨[.link (tmpName name) (v.live.openIno (tmpName name))], ?_, ?_⟩
      · simp [Volume.openTrunc, hsome]
      · intro u hu
        rw [List.mem_singleton.mp hu]
        exact tmpName_ne_self name
  refine ⟨rfl, fun h => h.elim, fun _ => rfl, fun _ => hlinks, ?_⟩
  obtain ⟨us, hpending, hus⟩ := hlinks
  refine ⟨rfl, ⟨us, hpending, fun u hu => (hus u hu).harmless _⟩, v.sameOff_openTrunc _, Or.inr ?_⟩
  intro hlead
  obtain ⟨hdisk, hc⟩ := hapart.later hlead
  exact ⟨hc, hdisk, v.live.openTrunc_data_self _⟩

theorem FlushInv.write (hinv : FlushInv name c v₀ a v) (hapart : TempApart name c v₀) {buf : Bytes}
    (hpc : a.pc = .write buf) (hc : c ≠ []) (n : Nat) :
    FlushInv name c v₀ { a with pc := .copy, pos := a.pos + n }
      (v.write a.sync a.pos (buf.take n)) := by
  have hrun : ∀ code, a.pc ≠ .ret code := by simp [hpc]
  have hsync := hinv.sync_eq (by simp [Act.InUse, hpc])
  refine ⟨hinv.name_eq, fun h => h.elim, fun _ => hsync, fun _ => hinv.links hrun, ?_⟩
  refine ⟨hinv.crash.disk_eq, hinv.added_harmless hrun _, ?_, Or.inr ?_⟩
  · rw [hsync]
    exact hinv.crash.others.trans (v.sameOff_write _ _ _)
  · exact fun hlead => absurd (hapart.later hlead).2 hc

theorem FlushInv.fsync (hinv : FlushInv name c v₀ a v) (hapart : TempApart name c v₀)
    (hpc : a.pc = .fsync) (hdata : v.live.data a.sync = c) :
    FlushInv name c v₀ { a with pc := .close } (v.fsync a.sync) := by
  have hrun : ∀ code, a.pc ≠ .ret code := by simp [hpc]
  have hsync := hinv.sync_eq (by simp [Act.InUse, hpc])
  refine ⟨hinv.name_eq, fun h => h.elim, fun _ => hsync, fun _ => hinv.links hrun, ?_⟩
  refine ⟨hinv.crash.disk_eq, hinv.added_harmless hrun _, ?_, Or.inr ?_⟩
  · rw [hsync]
    exact hinv.crash.others.trans (v.sameOff_fsync _)
  · intro hlead
    have hc := (hapart.later hlead).2
    rw [← hsync]
    refine ⟨hc, ?_, hdata.trans hc⟩
    show Function.update v.diskData a.sync (v.live.data a.sync) a.sync = []
    rw [Function.update_self, hdata, hc]

/-! ## A temp file of its own

The temp name leads to a new inode, or to one that the entry does not lead to. Then the entry is
not touched before the rename, and the rename gives it an inode with `c` in it, on disk. -/

/-- What holds at every point if the temp file is not the entry's. -/
structure SoloInv (name : Name) (c : Bytes) (v₀ : Volume) (a : Act) (v : Volume) : Prop
    extends FlushInv name c v₀ a v where
  good : a.Good (· = name) c v
  synced : a.pc.AfterSync → v.Durable a.sync c
  unpublished : (∀ code, a.pc ≠ .ret code) → v.live.content name = v₀.live.content name
  returned : ∀ code, a.pc = .ret code →
    code < 0 ∧ v.live.content name = v₀.live.content name ∨ code = 0 ∧ v.live.content name = some c

theorem soloInv_init : SoloInv name c v (ramfsFileFlush true true name) v where
  toFlushInv := flushInv_init name c v
  good := trivial
  synced := fun h => h.elim
  unpublished := fun _ => rfl
  returned := by simp [ramfsFileFlush]

theorem SoloInv.sole (hinv : SoloInv name c v₀ a v)
    (hown : v₀.live.entry name ≠ some (v₀.tempIno name)) (hpc : a.pc = .openTmp) :
    SoleLink (· = name) v.live (tmpName a.name) := by
  rw [hinv.fresh (by simp [hpc, Pc.BeforeOpen]), hinv.name_eq]
  rintro i m rfl htmp hm
  refine absurd ?_ hown
  rw [Volume.tempIno, SyncDir.openIno, htmp, hm]
  rfl

theorem SoloInv.name_ne_tmp (hinv : SoloInv name c v₀ a v) : name ≠ tmpName a.name := by
  rw [hinv.name_eq]
  exact (tmpName_ne_self name).symm

/-- Only the rename changes the content of the entry. -/
theorem SoloInv.content_same (hinv : SoloInv name c v₀ a v)
    (hown : v₀.live.entry name ≠ some (v₀.tempIno name)) (hmove : Move c a v a' v')
    (hrun : ∀ code, a.pc ≠ .ret code) (hpc : a.pc ≠ .rename) :
    v'.live.content name = v₀.live.content name := by
  rcases hmove.content hinv.good (hinv.sole hown) rfl hinv.name_ne_tmp with h | ⟨-, h, -⟩
  · exact h.trans (hinv.unpublished hrun)
  · exact absurd h hpc

/-- Steps that leave the volume alone keep the invariant, if they only move the program counter
forward or return an error. -/
theorem SoloInv.stay (hinv : SoloInv name c v₀ a v) (hgood : a'.Good (· = name) c v)
    (hname : a'.name = a.name) (hrun : ∀ code, a.pc ≠ .ret code)
    (hfresh : a'.pc.BeforeOpen → a.pc.BeforeOpen)
    (huse : a'.InUse → a.InUse ∧ a'.sync = a.sync)
    (hsync : a'.pc.AfterSync → a.pc.AfterSync ∧ a'.sync = a.sync)
    (hret : ∀ code, a'.pc = .ret code → code < 0) : SoloInv name c v₀ a' v where
  toFlushInv := hinv.toFlushInv.stay hname hrun hfresh huse
  good := hgood
  synced := by
    intro h
    obtain ⟨hafter, heq⟩ := hsync h
    rw [heq]
    exact hinv.synced hafter
  unpublished := fun _ => hinv.unpublished hrun
  returned := fun code h => Or.inl ⟨hret code h, hinv.unpublished hrun⟩

theorem SoloInv.rename (hinv : SoloInv name c v₀ a v) (hapart : TempApart name c v₀)
    (hpc : a.pc = .rename) :
    SoloInv name c v₀ { a with pc := .ret 0 } (v.rename (tmpName a.name) a.name) := by
  have howns : Owns (· = name) a v c := by simpa [Act.Good, hpc] using hinv.good
  have hdurable := hinv.synced (by simp [hpc, Pc.AfterSync])
  have hsync := hinv.sync_eq (by simp [Act.InUse, hpc])
  -- what the rename adds to the pending updates, if anything, leads to data on disk
  have hadded : ∃ us, (v.rename (tmpName a.name) a.name).pending = v₀.pending ++ us ∧
      ∀ u ∈ us, u.Harmless name c (v.rename (tmpName a.name) a.name) := by
    obtain ⟨us, hpending, hus⟩ := hinv.added_harmless (by simp [hpc])
      (v.rename (tmpName a.name) a.name)
    simp only [Volume.rename, howns.linked]
    split
    · exact ⟨us, hpending, hus⟩
    · refine ⟨us ++ [.rename (tmpName a.name) a.name a.sync], ?_, ?_⟩
      · rw [hpending, List.append_assoc]
      · intro u hu
        rcases List.mem_append.mp hu with h | h
        · exact hus u h
        · rw [List.mem_singleton.mp h, hinv.name_eq]
          exact ⟨tmpName_ne_self name, rfl, hdurable⟩
  refine ⟨⟨hinv.name_eq, fun h => h.elim, fun h => h.elim, fun h => absurd rfl (h 0), ?_⟩, trivial,
    fun h => h.elim, fun h => absurd rfl (h 0), ?_⟩
  -- a crash from now on
  · refine ⟨hinv.crash.disk_eq, hadded, ?_, ?_⟩
    · intro j hj
      rw [Volume.rename_live, SyncDir.rename_data]
      exact hinv.crash.others j hj
    · right
      intro hlead
      have hc := (hapart.later hlead).2
      rw [Volume.rename_live, SyncDir.rename_data, ← hsync]
      exact ⟨hc, hdurable.2.trans hc, howns.holds.trans hc⟩
  -- the running kernel: the entry has the content
  · rintro code ⟨⟩
    right
    rw [Volume.rename_live, Snapshot.content, SyncDir.rename_data, ← hinv.name_eq,
      SyncDir.rename_entry_target howns.linked, Option.map_some, howns.holds]
    exact ⟨rfl, rfl⟩

/-- **One step** of a flush with a temp file of its own. -/
theorem SoloInv.step (hinv : SoloInv name c v₀ a v) (hapart : TempApart name c v₀)
    (hown : v₀.live.entry name ≠ some (v₀.tempIno name)) (hmove : Move c a v a' v') :
    SoloInv name c v₀ a' v' := by
  have hgood := hmove.good hinv.good (hinv.sole hown)
  have hsame := hinv.content_same hown hmove
  cases hmove with
  | fail e hrun =>
    -- an error leaves the directory as it is
    refine hinv.stay hgood rfl hrun (fun h => h.elim) (fun h => h.elim) (fun h => h.elim) ?_
    rintro code ⟨⟩
    have := e.num_pos
    omega
  | quiet p hpc =>
    -- the primitives without effect on the volume
    refine hinv.stay hgood rfl ?_ ?_ ?_ ?_ ?_ <;>
      cases hq : a.pc <;> rw [hq] at hpc <;> cases hpc <;>
        simp [Pc.BeforeOpen, Pc.AfterSync, Act.InUse, hq]
  | openTmp hpc =>
    refine ⟨hinv.toFlushInv.openTmp hapart hpc, hgood, fun h => h.elim,
      fun _ => hsame (by simp [hpc]) (by simp [hpc]), ?_⟩
    rintro code ⟨⟩
  | begin hpc =>
    exact hinv.stay hgood rfl (by simp [hpc]) (fun h => h.elim)
      (fun _ => ⟨by simp [Act.InUse, hpc], rfl⟩) (fun h => h.elim) (by simp)
  | read n hpc =>
    exact hinv.stay hgood rfl (by simp [hpc]) (fun h => h.elim)
      (fun _ => ⟨by simp [Act.InUse, hpc], rfl⟩) (fun h => h.elim) (by simp)
  | leave hpc hend =>
    exact hinv.stay hgood rfl (by simp [hpc]) (fun h => h.elim)
      (fun _ => ⟨by simp [Act.InUse, hpc], rfl⟩) (fun h => h.elim) (by simp)
  | write buf n hpc hn hle =>
    -- a chunk of the source that is not empty
    have hc : c ≠ [] := by
      rintro rfl
      have hgood := hinv.good
      simp only [Act.Good, hpc] at hgood
      obtain ⟨⟨k, rfl⟩, -, -⟩ := hgood
      simp [pread] at hle
      omega
    refine ⟨hinv.toFlushInv.write hapart hpc hc n, hgood, fun h => h.elim,
      fun _ => hsame (by simp [hpc]) (by simp [hpc]), ?_⟩
    rintro code ⟨⟩
  | fsync hpc =>
    have howns : Owns (· = name) a v c := by simpa [Act.Good, hpc] using hinv.good
    refine ⟨hinv.toFlushInv.fsync hapart hpc howns.holds, hgood, ?_,
      fun _ => hsame (by simp [hpc]) (by simp [hpc]), ?_⟩
    · intro _
      have hdurable := v.durable_fsync a.sync
      rwa [howns.holds] at hdurable
    · rintro code ⟨⟩
  | rename hpc => exact hinv.rename hapart hpc

theorem SoloInv.safeAt (hinv : SoloInv name c v₀ a v) (hsettled : Settled name c v₀) :
    SafeAt name c v₀.live (a, v) where
  running := by
    -- the entry changes with the return only
    by_cases hret : ∃ code, a.pc = .ret code
    · obtain ⟨code, hret⟩ := hret
      rcases hinv.returned code hret with ⟨-, h⟩ | ⟨-, h⟩
      · exact Or.inl h
      · exact Or.inr h
    · exact Or.inl (hinv.unpublished fun code h => hret ⟨code, h⟩)
  crashed := fun _ himg => hinv.crash.oldOrNew hsettled himg
  failed := by
    intro code hret hneg
    rcases hinv.returned code hret with ⟨-, h⟩ | ⟨hzero, -⟩
    · exact h
    · omega
  succeeded := by
    intro hret
    rcases hinv.returned 0 hret with ⟨hneg, -⟩ | ⟨-, h⟩
    · omega
    · exact h

theorem flushSafe_of_own (hsettled : Settled name c v) (hapart : TempApart name c v)
    (hown : v.live.entry name ≠ some (v.tempIno name)) : FlushSafe name c v := by
  intro s hreach
  have hinv : SoloInv name c v s.1 s.2 :=
    hreach.inv (I := fun s => SoloInv name c v s.1 s.2) soloInv_init
      fun _ _ _ hinv hok hstep => hinv.step hapart hown (move_of_soloStep hok hstep)
  exact hinv.safeAt hsettled

/-! ## Links of one file

The entry leads to the temp file's inode. The open empties it, so it has to be empty already, and
the first byte written would show, so there must be none. -/

/-- What holds at every point of a flush of an empty file onto an empty file that the temp name
leads to as well: nothing a reader sees ever changes. -/
structure EmptyInv (name : Name) (v₀ : Volume) (a : Act) (v : Volume) : Prop
    extends FlushInv name [] v₀ a v where
  entry_eq : v.live.entry = v₀.live.entry
  data_nil : v.live.data (v₀.tempIno name) = []
  buf_nil : ∀ buf, a.pc = .write buf → buf = []

theorem EmptyInv.stay (hinv : EmptyInv name v₀ a v) (hname : a'.name = a.name)
    (hrun : ∀ code, a.pc ≠ .ret code) (hfresh : a'.pc.BeforeOpen → a.pc.BeforeOpen)
    (huse : a'.InUse → a.InUse ∧ a'.sync = a.sync)
    (hbuf : ∀ buf, a'.pc = .write buf → buf = []) : EmptyInv name v₀ a' v where
  toFlushInv := hinv.toFlushInv.stay hname hrun hfresh huse
  entry_eq := hinv.entry_eq
  data_nil := hinv.data_nil
  buf_nil := hbuf

/-- An inode that a name leads to and that an open of `n` ends up with is one that `n` leads to: a
new one is nobody's. -/
theorem SyncDir.entry_of_openIno {d : SyncDir} {n m : Name}
    (h : d.entry m = some (d.openIno n)) : d.entry n = some (d.openIno n) := by
  cases hn : d.entry n with
  | some i => rw [openIno, hn]; rfl
  | none =>
    have hlt := d.entry_lt h
    rw [openIno, hn] at hlt
    exact absurd hlt (Nat.lt_irrefl _)

/-- Renaming between two links of one inode does nothing. -/
theorem Volume.rename_same {old new : Name} {i : Ino} (hold : v.live.entry old = some i)
    (hnew : v.live.entry new = some i) : v.rename old new = v := by
  have hlive : v.live.rename old new = v.live := by
    unfold SyncDir.rename
    split
    · rfl
    · next j hj =>
      rw [hold] at hj
      rw [if_pos (hnew.trans hj)]
  simp [Volume.rename, hlive, hold, hnew]

/-- **One step** of a flush of nothing onto an empty file. -/
theorem EmptyInv.step (hapart : TempApart name [] v₀)
    (hlink : v₀.live.entry name = some (v₀.tempIno name)) (hinv : EmptyInv name v₀ a v)
    (hmove : Move [] a v a' v') : EmptyInv name v₀ a' v' := by
  have htmp := SyncDir.entry_of_openIno hlink
  cases hmove with
  | fail e hrun =>
    exact hinv.stay rfl hrun (fun h => h.elim) (fun h => h.elim) (by simp [Act.fail])
  | quiet p hpc =>
    refine hinv.stay rfl ?_ ?_ ?_ ?_ <;>
      cases hq : a.pc <;> rw [hq] at hpc <;> cases hpc <;> simp [Act.InUse, Pc.BeforeOpen, hq]
  | begin hpc =>
    exact hinv.stay rfl (by simp [hpc]) (fun h => h.elim)
      (fun _ => ⟨by simp [Act.InUse, hpc], rfl⟩) (by simp)
  | read n hpc =>
    exact hinv.stay rfl (by simp [hpc]) (fun h => h.elim)
      (fun _ => ⟨by simp [Act.InUse, hpc], rfl⟩) (by simp [pread])
  | leave hpc hend =>
    exact hinv.stay rfl (by simp [hpc]) (fun h => h.elim)
      (fun _ => ⟨by simp [Act.InUse, hpc], rfl⟩) (by simp)
  | write buf n hpc hn hle =>
    -- there is nothing to write
    rw [hinv.buf_nil buf hpc] at hle
    exact absurd hle (Nat.not_le.mpr hn)
  | openTmp hpc =>
    refine ⟨hinv.toFlushInv.openTmp hapart hpc, ?_, ?_, by simp⟩
    · rw [hinv.fresh (by simp [hpc, Pc.BeforeOpen]), hinv.name_eq]
      show Function.update _ _ _ = _
      -- the name leads to this inode already
      rw [← htmp, Function.update_eq_self]
    · rw [hinv.fresh (by simp [hpc, Pc.BeforeOpen]), hinv.name_eq]
      exact v₀.live.openTrunc_data_self _
  | fsync hpc =>
    have hsync := hinv.sync_eq (by simp [Act.InUse, hpc])
    refine ⟨hinv.toFlushInv.fsync hapart hpc ?_, hinv.entry_eq, hinv.data_nil, by simp⟩
    rw [hsync, hinv.data_nil]
  | rename hpc =>
    -- the rename finds two links of one inode
    have hsame : v.rename (tmpName a.name) a.name = v := by
      rw [hinv.name_eq]
      exact Volume.rename_same ((congrFun hinv.entry_eq _).trans htmp)
        ((congrFun hinv.entry_eq _).trans hlink)
    rw [hsame]
    exact hinv.stay rfl (by simp [hpc]) (fun h => h.elim) (fun h => h.elim) (by simp)

theorem EmptyInv.safeAt (hlink : v₀.live.entry name = some (v₀.tempIno name))
    (hnil : v₀.live.data (v₀.tempIno name) = []) (hsettled : Settled name [] v₀)
    (hinv : EmptyInv name v₀ a v) : SafeAt name [] v₀.live (a, v) := by
  have hold : v₀.live.content name = some [] := by
    rw [Snapshot.content, hlink, Option.map_some, hnil]
  have hnow : v.live.content name = some [] := by
    rw [Snapshot.content, hinv.entry_eq, hlink, Option.map_some, hinv.data_nil]
  exact ⟨Or.inr hnow, fun img himg => hinv.crash.oldOrNew hsettled himg,
    fun _ _ _ => hnow.trans hold.symm, fun _ => hnow⟩

theorem flushSafe_of_empty (hsettled : Settled name [] v) (hapart : TempApart name [] v)
    (hlink : v.live.entry name = some (v.tempIno name)) : FlushSafe name [] v := by
  intro s hreach
  have hnil := (hapart.now hlink).1
  have hinit : EmptyInv name v (ramfsFileFlush true true name) v :=
    ⟨flushInv_init name [] v, rfl, hnil, by simp [ramfsFileFlush]⟩
  have hinv : EmptyInv name v s.1 s.2 :=
    hreach.inv (I := fun s => EmptyInv name v s.1 s.2) hinit
      fun _ _ _ hinv hok hstep => hinv.step hapart hlink (move_of_soloStep hok hstep)
  exact hinv.safeAt hlink hnil hsettled

/-! ## Why nothing less will do

Three short runs: up to the open of the temp file, from there to a failure, and up to the first
byte written. At the end of each the entry holds something else if the condition fails. -/

/-- The run up to the open of the temp file. -/
theorem reach_opened (name : Name) (c : Bytes) (v : Volume) :
    Reach (soloStep c) SoloContract (soloInit name v)
      (⟨name, .dPath, 0, 0, v.tempIno name⟩, v.openTrunc (tmpName name)) := by
  have hdup : Reach (soloStep c) SoloContract (soloInit name v)
      (⟨name, .kmallocPath, 0, 0, 0⟩, v) := .single (l := .ok 0) trivial rfl
  have hpath : Reach (soloStep c) SoloContract (soloInit name v)
      (⟨name, .openTmp, 0, 0, 0⟩, v) := hdup.tail (l := .ok 0) trivial rfl
  exact hpath.tail (l := .ok 0) trivial rfl

/-- A run in which the first write moves one byte. -/
theorem reach_wrote (name : Name) (b : UInt8) (cs : Bytes) (v : Volume) :
    Reach (soloStep (b :: cs)) SoloContract (soloInit name v)
      (⟨name, .copy, cs.length + 1, 1, v.tempIno name⟩,
        (v.openTrunc (tmpName name)).write (v.tempIno name) 0 [b]) := by
  have hopen := reach_opened name (b :: cs) v
  generalize v.openTrunc (tmpName name) = w at hopen ⊢
  generalize v.tempIno name = i at hopen ⊢
  have hread : Reach (soloStep (b :: cs)) SoloContract (soloInit name v)
      (⟨name, .openRead, 0, 0, i⟩, w) := hopen.tail (l := .ok 0) trivial rfl
  have hbuf : Reach (soloStep (b :: cs)) SoloContract (soloInit name v)
      (⟨name, .kmallocBuf, 0, 0, i⟩, w) := hread.tail (l := .ok 0) trivial rfl
  have hloop : Reach (soloStep (b :: cs)) SoloContract (soloInit name v)
      (⟨name, .copy, cs.length + 1, 0, i⟩, w) := hbuf.tail (l := .ok 0) trivial rfl
  have hfetched : Reach (soloStep (b :: cs)) SoloContract (soloInit name v)
      (⟨name, .write [b], cs.length + 1, 0, i⟩, w) := by
    refine hloop.tail (l := .ok 1) (fun _ => Nat.one_pos) ?_
    simp [soloStep, Act.step, pageSize, pread]
  exact hfetched.tail (l := .ok 1) Nat.one_pos rfl

/-- A run in which `d_path` fails right after the open. -/
theorem reach_open_failed (name : Name) (c : Bytes) (v : Volume) :
    Reach (soloStep c) SoloContract (soloInit name v)
      (⟨name, .ret (-5), 0, 0, v.tempIno name⟩, v.openTrunc (tmpName name)) :=
  (reach_opened name c v).tail (l := .err .eio) trivial rfl

/-- If the entry leads to the temp file, a failure right after the open leaves it emptied. -/
theorem data_nil_of_flushSafe (hlink : v.live.entry name = some (v.tempIno name))
    (hsafe : FlushSafe name c v) : v.live.data (v.tempIno name) = [] := by
  have hfail := (hsafe _ (reach_open_failed name c v)).failed (-5) rfl (by decide)
  have hne : name ≠ tmpName name := (tmpName_ne_self name).symm
  rw [Volume.openTrunc_live, Snapshot.content, SyncDir.openTrunc_entry_ne _ hne, Snapshot.content,
    hlink, Option.map_some, Option.map_some, Volume.tempIno, SyncDir.openTrunc_data_self] at hfail
  exact (Option.some.inj hfail).symm

/-- If it is empty, a failure after the first byte leaves that byte in the entry. -/
theorem content_nil_of_flushSafe (hlink : v.live.entry name = some (v.tempIno name))
    (hnil : v.live.data (v.tempIno name) = []) (hsafe : FlushSafe name c v) : c = [] := by
  cases c with
  | nil => rfl
  | cons b cs =>
    exfalso
    have hne : name ≠ tmpName name := (tmpName_ne_self name).symm
    have hold : v.live.content name = some [] := by
      rw [Snapshot.content, hlink, Option.map_some, hnil]
    have hwrote := reach_wrote name b cs v
    have hnow : ((v.openTrunc (tmpName name)).write (v.tempIno name) 0 [b]).live.content name =
        some [b] := by
      simp only [Volume.write_live, Volume.openTrunc_live, Snapshot.content, SyncDir.write_entry,
        SyncDir.openTrunc_entry_ne _ hne, hlink, Option.map_some]
      rw [SyncDir.write_data_self, Volume.tempIno, SyncDir.openTrunc_data_self]
      rfl
    generalize (v.openTrunc (tmpName name)).write (v.tempIno name) 0 [b] = w at hwrote hnow
    generalize v.tempIno name = j at hwrote
    -- the next primitive to fail is the read of a second byte, or the fsync if there is none
    have hfailed : ∃ a, Reach (soloStep (b :: cs)) SoloContract (soloInit name v) (a, w) ∧
        a.pc = .ret (-5) := by
      cases cs with
      | nil =>
        have hsync : Reach (soloStep [b]) SoloContract (soloInit name v)
            (⟨name, .fsync, 1, 1, j⟩, w) :=
          hwrote.tail (l := .ok 1) (fun _ => Nat.one_pos) rfl
        exact ⟨_, hsync.tail (l := .err .eio) trivial rfl, rfl⟩
      | cons b' cs' =>
        have hread : soloStep (b :: b' :: cs') (⟨name, .copy, (b' :: cs').length + 1, 1, j⟩, w)
            (.err .eio) = some (⟨name, .ret (-5), (b' :: cs').length + 1, 1, j⟩, w) := by
          simp [soloStep, Act.step, Act.fail, Errno.eio]
        exact ⟨_, hwrote.tail (l := .err .eio) trivial hread, rfl⟩
    obtain ⟨a, hreach, hret⟩ := hfailed
    have hfail := (hsafe _ hreach).failed (-5) hret (by decide)
    rw [hnow, hold] at hfail
    cases hfail

/-- Of any two contents, some file of one byte is neither. -/
theorem exists_other_byte (x y : Option Bytes) : ∃ b : UInt8, some [b] ≠ x ∧ some [b] ≠ y := by
  by_contra hnone
  have hone : ∀ b : UInt8, some [b] = x ∨ some [b] = y := by
    intro b
    by_contra hb
    exact hnone ⟨b, fun h => hb (Or.inl h), fun h => hb (Or.inr h)⟩
  -- of three bytes two would be the same content
  rcases hone 0 with h0 | h0 <;> rcases hone 1 with h1 | h1 <;> rcases hone 2 with h2 | h2 <;>
    first
    | exact absurd (h0.trans h1.symm) (by decide)
    | exact absurd (h0.trans h2.symm) (by decide)
    | exact absurd (h1.trans h2.symm) (by decide)

/-- The temp file's data is not on disk, and a crash may show anything of one byte in it. -/
theorem not_safeAt_of_dirty {s : Act × Volume} {d : SyncDir} {i : Ino}
    (hlead : s.2.MayLead name i) (hdirty : s.2.dirty i = true)
    (hroom : 0 < (s.2.diskData i).length ∨ 0 < (s.2.live.data i).length) :
    ¬ SafeAt name c d s := by
  -- the crash that puts the byte there, and keeps the updates that lead to the inode
  intro hsafe
  obtain ⟨kept, hsub, hentry⟩ := hlead
  obtain ⟨b, hold, hnew⟩ := exists_other_byte (d.content name) (some c)
  have himg : CrashImage s.2 ⟨kept.foldl DirUpdate.apply s.2.diskEntry,
      Function.update s.2.diskData i [b]⟩ := by
    refine ⟨⟨kept, hsub, rfl⟩, ?_, ?_⟩
    · intro j hclean
      have hj : j ≠ i := by
        rintro rfl
        rw [hdirty] at hclean
        cases hclean
      exact Function.update_of_ne hj _ _
    · intro j
      by_cases hj : j = i
      · subst hj
        simp only [Function.update_self, List.length_singleton]
        omega
      · simp only [Function.update_of_ne hj]
        exact Nat.le_max_left _ _
  have hcontent : Snapshot.content ⟨kept.foldl DirUpdate.apply s.2.diskEntry,
      Function.update s.2.diskData i [b]⟩ name = some [b] := by
    simp only [Snapshot.content, hentry, Option.map_some, Function.update_self]
  rcases hsafe.crashed _ himg with h | h
  · exact hold (hcontent.symm.trans h)
  · exact hnew (hcontent.symm.trans h)

/-- The open loses none of the updates from before it. -/
theorem Volume.MayLead.openTrunc {n : Name} {i : Ino} (h : v.MayLead n i) (m : Name) :
    (v.openTrunc m).MayLead n i := by
  obtain ⟨kept, hsub, hentry⟩ := h
  refine ⟨kept, ?_, hentry⟩
  simp only [Volume.openTrunc]
  split
  · exact hsub
  · exact hsub.trans (List.sublist_append_left _ _)

/-- If a crash may bring the temp file's inode back as the entry, it has to be empty on disk and
there must be nothing to write. -/
theorem later_of_flushSafe (hsafe : FlushSafe name c v) (hlead : v.MayLead name (v.tempIno name)) :
    v.diskData (v.tempIno name) = [] ∧ c = [] := by
  have hopened := hlead.openTrunc (tmpName name)
  constructor
  · by_contra hdisk
    refine not_safeAt_of_dirty hopened ?_ (Or.inl (List.length_pos_iff.mpr hdisk))
      (hsafe _ (reach_opened name c v))
    exact Function.update_self _ _ _
  · cases c with
    | nil => rfl
    | cons b cs =>
      refine absurd (hsafe _ (reach_wrote name b cs v)) (not_safeAt_of_dirty hopened ?_ (Or.inr ?_))
      · exact Function.update_self _ _ _
      · simp [Volume.tempIno, pwrite]

theorem tempApart_of_flushSafe (hsafe : FlushSafe name c v) : TempApart name c v := by
  refine ⟨fun hlink => ?_, later_of_flushSafe hsafe⟩
  have hnil := data_nil_of_flushSafe hlink hsafe
  exact ⟨hnil, content_nil_of_flushSafe hlink hnil hsafe⟩

theorem flushSafe_of_tempApart (hsettled : Settled name c v) (hapart : TempApart name c v) :
    FlushSafe name c v := by
  by_cases hlink : v.live.entry name = some (v.tempIno name)
  · obtain ⟨-, rfl⟩ := hapart.now hlink
    exact flushSafe_of_empty hsettled hapart hlink
  · exact flushSafe_of_own hsettled hapart hlink

/-- **One flush is all or nothing, whatever fails and wherever the machine stops, exactly when the
entry was safe before it and the temp file is not the entry's**, now or after a crash (or all of it
is empty). -/
theorem flushSafe_iff (name : Name) (c : Bytes) (v : Volume) :
    FlushSafe name c v ↔ Settled name c v ∧ TempApart name c v := by
  constructor
  · intro hsafe
    exact ⟨(hsafe _ .refl).crashed, tempApart_of_flushSafe hsafe⟩
  · rintro ⟨hsettled, hapart⟩
    exact flushSafe_of_tempApart hsettled hapart

/-! ## A directory that is on disk

Then the condition is about the two names alone. -/

/-- The temp name and the file's own name are links of one inode. -/
def Aliased (d : SyncDir) (name : Name) : Prop :=
  ∃ i, d.entry (tmpName name) = some i ∧ d.entry name = some i

theorem aliased_iff {d : SyncDir} :
    Aliased d name ↔ d.entry name = some (d.openIno (tmpName name)) := by
  constructor
  · rintro ⟨i, htmp, hname⟩
    rw [hname, SyncDir.openIno, htmp]
    rfl
  · exact fun hname => ⟨_, SyncDir.entry_of_openIno hname, hname⟩

theorem settled_clean (d : SyncDir) : Settled name c (.clean d) := by
  intro img himg
  obtain ⟨kept, hsub, hentry⟩ := himg.entry_kept
  obtain rfl := List.sublist_nil.mp hsub
  have hdata : img.data = d.data := funext fun i => himg.data_kept i rfl
  left
  rw [Snapshot.content, hentry, hdata]
  rfl

/-- On a directory with nothing pending: not two links of one file, or empty and nothing to
write. -/
theorem flushSafe_clean (d : SyncDir) :
    FlushSafe name c (.clean d) ↔ ¬ Aliased d name ∨ (d.content name = some [] ∧ c = []) := by
  rw [aliased_iff]
  constructor
  · intro hsafe
    have hapart := tempApart_of_flushSafe hsafe
    by_cases hlink : d.entry name = some (d.openIno (tmpName name))
    · obtain ⟨hdata, hc⟩ := hapart.now hlink
      have hold : d.content name = some [] := by
        rw [Snapshot.content, hlink, Option.map_some]
        exact congrArg some hdata
      exact Or.inr ⟨hold, hc⟩
    · exact Or.inl hlink
  · intro h
    have hempty : d.entry name = some (d.openIno (tmpName name)) →
        d.data (d.openIno (tmpName name)) = [] ∧ c = [] := by
      intro hlink
      rcases h with hna | ⟨hold, hc⟩
      · exact absurd hlink hna
      · rw [Snapshot.content, hlink, Option.map_some] at hold
        exact ⟨Option.some.inj hold, hc⟩
    -- what a crash may lead to is what is there
    refine flushSafe_of_tempApart (settled_clean d) ⟨hempty, ?_⟩
    rintro ⟨kept, hsub, hlead⟩
    obtain rfl := List.sublist_nil.mp hsub
    exact hempty hlead

/-- A directory in which `f` and `.f.tmp` are two links of a file that holds one byte. -/
def linkedDir : SyncDir where
  entry := fun n => if n = [102] ∨ n = tmpName [102] then some 0 else none
  data := fun _ => [1]
  next := 1
  entry_lt := by
    intro n i h
    simp only [Option.ite_none_right_eq_some, Option.some.injEq] at h
    exact h.2 ▸ Nat.one_pos

/-- The open of the temp file empties the entry, `d_path` fails, and the function returns `-EIO`
with the previous content gone. -/
theorem failed_flush_empties_linked_entry :
    ∃ s, Reach (soloStep [2]) SoloContract (soloInit [102] (.clean linkedDir)) s ∧
      s.1.pc = .ret (-5) ∧ linkedDir.content [102] = some [1] ∧
        s.2.live.content [102] = some [] := by
  refine ⟨_, reach_open_failed [102] [2] (.clean linkedDir), rfl, ?_, ?_⟩ <;> decide

end OsHomework.Ramfs
