import Mathlib.Logic.Function.Basic
import OsHomework.Lib.ByteFile

/-!
# Ramfs — the sync directory as the VFS shows it

`ramfs_file_flush` touches the sync directory only through a handful of VFS primitives: an
`O_CREAT|O_TRUNC` open by name, positional writes on the opened inode, `vfs_fsync`, a lookup by
path and `vfs_rename`. This module gives them a state:

* **`SyncDir`** — what the running kernel sees: names lead to inodes, inodes hold bytes. Two names
  may lead to one inode (hard links), so truncating in place is visible under every name of it.
* **`Volume`** — the same directory with its durable part: the data each inode had at its last
  fsync, and the directory updates a crash may still lose. `CrashImage` says what is found after
  a crash.
-/

namespace OsHomework.Ramfs

open ByteFile

/-- The bytes of `dentry->d_name.name`. -/
abbrev Name := List UInt8

abbrev Ino := Nat

/-- `.<name>.tmp`, the last component of the temp path. -/
def tmpName (name : Name) : Name :=
  '.'.toUInt8 :: (name ++ ['.'.toUInt8, 't'.toUInt8, 'm'.toUInt8, 'p'.toUInt8])

theorem tmpName_ne_self (name : Name) : tmpName name ≠ name := by
  intro h
  have hlen := congrArg List.length h
  simp [tmpName] at hlen
  omega

theorem tmpName_injective : Function.Injective tmpName := by
  intro n m h
  simpa [tmpName] using h

/-- Names lead to inodes, inodes hold bytes. -/
structure Snapshot where
  entry : Name → Option Ino
  data : Ino → Bytes

/-- What a reader of `<dir>/<n>` finds, `none` if there is no such entry. -/
def Snapshot.content (d : Snapshot) (n : Name) : Option Bytes := (d.entry n).map d.data

/-- The live directory. Inode numbers from `next` on are not in use. -/
structure SyncDir extends Snapshot where
  next : Ino
  entry_lt : ∀ {n i}, entry n = some i → i < next

namespace SyncDir

/-- A directory without entries. -/
def empty : SyncDir where
  entry := fun _ => none
  data := fun _ => []
  next := 0
  entry_lt := by simp

/-- The inode an `O_CREAT` open of `n` ends up with. -/
def openIno (d : SyncDir) (n : Name) : Ino := (d.entry n).getD d.next

/-- `filp_open(n, O_WRONLY | O_CREAT | O_TRUNC)`: an existing inode is emptied in place, a missing
one is created under a fresh number. -/
def openTrunc (d : SyncDir) (n : Name) : SyncDir where
  entry := Function.update d.entry n (some (d.openIno n))
  data := Function.update d.data (d.openIno n) []
  next := if (d.entry n).isSome then d.next else d.next + 1
  entry_lt := by
    intro m i h
    by_cases hm : m = n
    · subst hm
      rw [Function.update_self, Option.some.injEq, openIno] at h
      cases he : d.entry m with
      -- a missing entry takes the next number
      | none =>
        rw [he, Option.getD_none] at h
        exact h ▸ Nat.lt_succ_self _
      -- an existing one keeps its inode
      | some j =>
        rw [he, Option.getD_some] at h
        exact h ▸ d.entry_lt he
    · have hlt := d.entry_lt (by simpa [hm] using h : d.entry m = some i)
      split
      · exact hlt
      · exact Nat.lt_succ_of_lt hlt

/-- `kernel_write` of `buf` at position `pos` of the inode. -/
def write (d : SyncDir) (i : Ino) (pos : Nat) (buf : Bytes) : SyncDir :=
  { d with data := Function.update d.data i (pwrite (d.data i) pos buf) }

/-- `vfs_rename` of the inode currently found at `old` onto `new`. Two links of one inode are left
alone (`vfs_rename` returns 0 when source and target are the same inode). -/
def rename (d : SyncDir) (old new : Name) : SyncDir :=
  match h : d.entry old with
  -- nothing is there to be moved
  | none => d
  | some i =>
    if d.entry new = some i then d
    else
      { d with
        entry := Function.update (Function.update d.entry old none) new (some i)
        entry_lt := by
          intro m j hj
          by_cases hm : m = new
          · subst hm
            simp at hj
            exact hj ▸ d.entry_lt h
          · by_cases hm' : m = old
            · subst hm'
              simp [hm] at hj
            · exact d.entry_lt (by simpa [hm, hm'] using hj) }

@[simp] theorem openTrunc_entry_self (d : SyncDir) (n : Name) :
    (d.openTrunc n).entry n = some (d.openIno n) := by simp [openTrunc]

theorem openTrunc_entry_ne (d : SyncDir) {n m : Name} (h : m ≠ n) :
    (d.openTrunc n).entry m = d.entry m := by simp [openTrunc, h]

@[simp] theorem openTrunc_data_self (d : SyncDir) (n : Name) :
    (d.openTrunc n).data (d.openIno n) = [] := by simp [openTrunc]

theorem openTrunc_data_ne (d : SyncDir) {n : Name} {i : Ino} (h : i ≠ d.openIno n) :
    (d.openTrunc n).data i = d.data i := by simp [openTrunc, h]

@[simp] theorem write_entry (d : SyncDir) (i : Ino) (pos : Nat) (buf : Bytes) :
    (d.write i pos buf).entry = d.entry := rfl

@[simp] theorem write_data_self (d : SyncDir) (i : Ino) (pos : Nat) (buf : Bytes) :
    (d.write i pos buf).data i = pwrite (d.data i) pos buf := by simp [write]

theorem write_data_ne (d : SyncDir) {i j : Ino} (h : j ≠ i) (pos : Nat) (buf : Bytes) :
    (d.write i pos buf).data j = d.data j := by simp [write, h]

@[simp] theorem rename_data (d : SyncDir) (old new : Name) :
    (d.rename old new).data = d.data := by
  unfold rename
  split
  · rfl
  · split <;> rfl

theorem rename_of_none {d : SyncDir} {old new : Name} (h : d.entry old = none) :
    d.rename old new = d := by
  unfold rename
  split
  · rfl
  · next h' => rw [h] at h'; cases h'

theorem rename_entry_of_some {d : SyncDir} {old new : Name} {i : Ino} (h : d.entry old = some i) :
    (d.rename old new).entry =
      if d.entry new = some i then d.entry
      else Function.update (Function.update d.entry old none) new (some i) := by
  unfold rename
  split
  · next h' => rw [h] at h'; cases h'
  · next j h' =>
    rw [h] at h'
    cases h'
    split <;> rfl

/-- Renaming an entry whose inode is not also linked at the target: the target takes the inode. -/
theorem rename_entry_target {d : SyncDir} {old new : Name} {i : Ino} (h : d.entry old = some i) :
    (d.rename old new).entry new = some i := by
  rw [rename_entry_of_some h]
  split
  · assumption
  · rw [Function.update_self]

/-- The old name is gone, unless the two names were links of one inode. -/
theorem rename_entry_old {d : SyncDir} {old new : Name} {i : Ino} (h : d.entry old = some i)
    (hne : old ≠ new) :
    (d.rename old new).entry old = none ∨
      d.entry new = some i ∧ (d.rename old new).entry old = some i := by
  rw [rename_entry_of_some h]
  split
  · next hnew => exact Or.inr ⟨hnew, h⟩
  · rw [Function.update_of_ne hne, Function.update_self]
    exact Or.inl rfl

theorem rename_entry_ne (d : SyncDir) {old new m : Name} (hold : m ≠ old) (hnew : m ≠ new) :
    (d.rename old new).entry m = d.entry m := by
  cases ho : d.entry old with
  | none => rw [rename_of_none ho]
  | some i =>
    rw [rename_entry_of_some ho]
    split
    · rfl
    · rw [Function.update_of_ne hnew, Function.update_of_ne hold]

/-- A rename makes no new link but the one of the moved inode at the target. -/
theorem rename_entry_cases {d : SyncDir} {old new m : Name} {i : Ino}
    (h : (d.rename old new).entry m = some i) :
    d.entry m = some i ∨ (m = new ∧ d.entry old = some i) := by
  cases ho : d.entry old with
  | none =>
    -- nothing has been moved
    rw [rename_of_none ho] at h
    exact Or.inl h
  | some j =>
    rw [rename_entry_of_some ho] at h
    split at h
    · exact Or.inl h
    -- the target has the inode, the old name has none, the others are as they were
    · by_cases hnew : m = new
      · rw [hnew, Function.update_self] at h
        exact Or.inr ⟨hnew, h⟩
      · rw [Function.update_of_ne hnew] at h
        by_cases hold : m = old
        · rw [hold, Function.update_self] at h
          cases h
        · rw [Function.update_of_ne hold] at h
          exact Or.inl h

end SyncDir

/-! ## Durable state and crashes

The data of an inode comes to disk with its fsync, the entries of a directory at some time that
nobody is told: `ramfs_file_flush` never syncs the directory. So a crash may lose any of the
directory updates, but each is atomic, and those that survive are in their order. -/

/-- One atomic update of the directory. -/
inductive DirUpdate where
  | link (n : Name) (i : Ino)
  | rename (old new : Name) (i : Ino)

/-- The directory after the update. -/
def DirUpdate.apply (e : Name → Option Ino) : DirUpdate → (Name → Option Ino)
  | .link n i => Function.update e n (some i)
  | .rename old new i => Function.update (Function.update e old none) new (some i)

/-- The live directory together with what is already on disk: the directory as it was when
`pending` was empty, the updates made since (oldest first), and for each inode its data as of the
last fsync, with a mark on the inodes changed since then. -/
structure Volume where
  live : SyncDir
  diskEntry : Name → Option Ino
  pending : List DirUpdate
  diskData : Ino → Bytes
  dirty : Ino → Bool

namespace Volume

/-- A directory all of which is on disk. -/
def clean (d : SyncDir) : Volume where
  live := d
  diskEntry := d.entry
  pending := []
  diskData := d.data
  dirty := fun _ => false

def openTrunc (v : Volume) (n : Name) : Volume where
  live := v.live.openTrunc n
  diskEntry := v.diskEntry
  -- the entry of a new file is an update that a crash may lose
  pending := if (v.live.entry n).isSome then v.pending
    else v.pending ++ [.link n (v.live.openIno n)]
  diskData := v.diskData
  dirty := Function.update v.dirty (v.live.openIno n) true

def write (v : Volume) (i : Ino) (pos : Nat) (buf : Bytes) : Volume :=
  { v with live := v.live.write i pos buf, dirty := Function.update v.dirty i true }

/-- `vfs_fsync`: the data of the inode, and only that, is on disk. -/
def fsync (v : Volume) (i : Ino) : Volume :=
  { v with
    diskData := Function.update v.diskData i (v.live.data i)
    dirty := Function.update v.dirty i false }

def rename (v : Volume) (old new : Name) : Volume :=
  { v with
    live := v.live.rename old new
    -- two links of one inode: no update
    pending := match v.live.entry old with
      | none => v.pending
      | some i =>
        if v.live.entry new = some i then v.pending else v.pending ++ [.rename old new i] }

@[simp] theorem clean_live (d : SyncDir) : (clean d).live = d := rfl
@[simp] theorem openTrunc_live (v : Volume) (n : Name) :
    (v.openTrunc n).live = v.live.openTrunc n := rfl
@[simp] theorem write_live (v : Volume) (i : Ino) (pos : Nat) (buf : Bytes) :
    (v.write i pos buf).live = v.live.write i pos buf := rfl
@[simp] theorem rename_live (v : Volume) (old new : Name) :
    (v.rename old new).live = v.live.rename old new := rfl

/-- The data of inode `i` that survives a crash is `c`, and all of it does. -/
def Durable (v : Volume) (i : Ino) (c : Bytes) : Prop := v.dirty i = false ∧ v.diskData i = c

theorem Durable.openTrunc {v : Volume} {i : Ino} {c : Bytes} (h : v.Durable i c) {n : Name}
    (hi : i ≠ v.live.openIno n) : (v.openTrunc n).Durable i c :=
  ⟨(Function.update_of_ne hi _ _).trans h.1, h.2⟩

theorem Durable.write {v : Volume} {i j : Ino} {c : Bytes} (h : v.Durable i c) (hi : i ≠ j)
    (pos : Nat) (buf : Bytes) : (v.write j pos buf).Durable i c :=
  ⟨(Function.update_of_ne hi _ _).trans h.1, h.2⟩

theorem Durable.fsync {v : Volume} {i j : Ino} {c : Bytes} (h : v.Durable i c) (hi : i ≠ j) :
    (v.fsync j).Durable i c :=
  ⟨(Function.update_of_ne hi _ _).trans h.1, (Function.update_of_ne hi _ _).trans h.2⟩

theorem durable_fsync (v : Volume) (i : Ino) : (v.fsync i).Durable i (v.live.data i) := by
  simp [Durable, Volume.fsync]

end Volume

/-- What may be found after a crash: any of the pending directory updates may be lost, fsynced data
survives, and an inode changed since its last fsync holds anything that is no longer than what it
held then or holds now. -/
structure CrashImage (v : Volume) (img : Snapshot) : Prop where
  entry_kept : ∃ kept : List DirUpdate,
    kept.Sublist v.pending ∧ img.entry = kept.foldl DirUpdate.apply v.diskEntry
  data_kept : ∀ i, v.dirty i = false → img.data i = v.diskData i
  data_length : ∀ i,
    (img.data i).length ≤ max (v.diskData i).length (v.live.data i).length

end OsHomework.Ramfs
