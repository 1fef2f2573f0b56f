import OsHomework.Ramfs.Volume

/-!
# Ramfs — `ramfs_file_flush` as a step machine

One activation of `ramfs_file_flush` is a record of its locals (`Act`) with a program counter that
stands before the next primitive the function calls. `Act.step` runs one primitive: the outcome
(`ok n`, with the byte count where there is one, or an errno) is the environment's choice, every
failure exit of the function is an arm, and the copy loop is the pair `copy`/`write`.

* **`Move`** — everything one step can do, said once; `move_of_step` is its only use of `step`.
* **`Act.Good`** — what an activation knows about its temp file at each program counter, provided
  no other name of interest led to the temp inode when it was opened.
* **`Move.good`**, **`Move.content`**, **`Move.owns_other`** — the three facts the theorems about
  single, successive and concurrent flushes are built from.
-/

namespace OsHomework.Ramfs

open ByteFile

/-- `PAGE_SIZE`, the length of the copy buffer. -/
def pageSize : Nat := 4096

/-- A positive error number; functions return it negated. -/
structure Errno where
  num : Nat
  num_pos : 0 < num

/-- The errors that the function makes itself. -/
def Errno.enomem : Errno := ⟨12, by decide⟩
def Errno.eio : Errno := ⟨5, by decide⟩

/-- What a primitive answers: success with a byte count, or an error. -/
inductive Outcome where
  | ok (n : Nat)
  | err (e : Errno)

/-- The primitive has succeeded. -/
def Outcome.isOk : Outcome → Bool
  | .ok _ => true
  | .err _ => false

/-- Where `ramfs_file_flush` stands: before the named primitive, or returned. -/
inductive Pc where
  | kstrdup
  | kmallocPath
  | openTmp
  | dPath
  | openRead
  | kmallocBuf
  | copy
  | write (buf : Bytes)
  | fsync
  | close
  | kmallocTmp
  | lookupTmp
  | lookupDir
  | lookupNew
  | rename
  | ret (code : Int)
  deriving DecidableEq

/-- The locals of one activation: `filename`, `size`, `pos` and the inode behind `sync_file`. -/
structure Act where
  name : Name
  pc : Pc
  size : Nat
  pos : Nat
  sync : Ino

/-- Entry of `ramfs_file_flush`: a file that is not on ramfs, or no bound sync directory, ends the
call with 0 before anything is touched. -/
def ramfsFileFlush (onRamfs bound : Bool) (name : Name) : Act where
  name := name
  pc := if onRamfs && bound then .kstrdup else .ret 0
  size := 0
  pos := 0
  sync := 0

namespace Act

/-- Leave through an error label. -/
def fail (a : Act) (e : Errno) : Act := { a with pc := .ret (-(e.num : Int)) }

/-- A primitive without effect on the directory. -/
def call (a : Act) (v : Volume) (next : Pc) : Outcome → Act × Volume
  | .ok _ => ({ a with pc := next }, v)
  | .err e => (a.fail e, v)

/-- An allocation: failure is `-ENOMEM` whatever the allocator says. -/
def alloc (a : Act) (v : Volume) (next : Pc) : Outcome → Act × Volume
  | .ok _ => ({ a with pc := next }, v)
  | .err _ => (a.fail .enomem, v)

/-- One primitive of `ramfs_file_flush`. `src` is what `read_file` holds at this moment. -/
def step (src : Bytes) (o : Outcome) (a : Act) (v : Volume) : Option (Act × Volume) :=
  match a.pc with
  | .kstrdup => some (a.alloc v .kmallocPath o)
  | .kmallocPath => some (a.alloc v .openTmp o)
  | .openTmp =>
    match o with
    -- `O_CREAT | O_TRUNC`: the inode found under the temp name is emptied
    | .ok _ =>
      some ({ a with pc := .dPath, sync := v.live.openIno (tmpName a.name) },
        v.openTrunc (tmpName a.name))
    | .err e => some (a.fail e, v)
  | .dPath => some (a.call v .openRead o)
  | .openRead => some (a.call v .kmallocBuf o)
  | .kmallocBuf =>
    -- `size = i_size_read(inode)` is sampled just before the buffer is allocated
    match o with
    | .ok _ => some ({ a with pc := .copy, size := src.length, pos := 0 }, v)
    | .err _ => some (a.fail .enomem, v)
  | .copy =>
    if a.pos < a.size then
      match o with
      | .ok n =>
        -- not more than the buffer, the size and the file have
        if n ≤ min pageSize (a.size - a.pos) ∧ n ≤ src.length - a.pos then
          -- `if (bytes_read == 0) break;`
          if n = 0 then some ({ a with pc := .fsync }, v)
          else some ({ a with pc := .write (pread src a.pos n) }, v)
        else none
      | .err e => some (a.fail e, v)
    else some ({ a with pc := .fsync }, v)
  | .write buf =>
    match o with
    | .ok n =>
      if n ≤ buf.length then
        some ({ a with pc := .copy, pos := a.pos + n }, v.write a.sync a.pos (buf.take n))
      else none
    | .err e => some (a.fail e, v)
  | .fsync =>
    match o with
    | .ok _ => some ({ a with pc := .close }, v.fsync a.sync)
    | .err e => some (a.fail e, v)
  -- the results of `filp_close` are ignored
  | .close => some ({ a with pc := .kmallocTmp }, v)
  | .kmallocTmp => some (a.alloc v .lookupTmp o)
  | .lookupTmp =>
    match o with
    | .ok _ =>
      if (v.live.entry (tmpName a.name)).isSome then some ({ a with pc := .lookupDir }, v) else none
    | .err e => some (a.fail e, v)
  -- `inode_lock` on the directory from here to the rename is left out: it only orders the last two
  -- primitives of different activations
  | .lookupDir => some (a.call v .lookupNew o)
  | .lookupNew => some (a.call v .rename o)
  | .rename =>
    match o with
    | .ok _ => some ({ a with pc := .ret 0 }, v.rename (tmpName a.name) a.name)
    | .err e => some (a.fail e, v)
  | .ret _ => none

/-- The activation has opened its temp file and has neither renamed it nor given up. -/
def InUse (a : Act) : Prop :=
  match a.pc with
  | .kstrdup | .kmallocPath | .openTmp | .ret _ => False
  | _ => True

instance (a : Act) : Decidable a.InUse := by unfold InUse; split <;> infer_instance

end Act

/-- The contract of `kernel_read` and `kernel_write` on an unchanged file: a transfer that succeeds
moves at least one byte. -/
def Advances (a : Act) (o : Outcome) : Prop :=
  match a.pc, o with
  | .copy, .ok n => a.pos < a.size → 0 < n
  | .write _, .ok n => 0 < n
  | _, _ => True

instance (a : Act) (o : Outcome) : Decidable (Advances a o) := by
  unfold Advances; split <;> infer_instance

/-! ## What one step can do

Most primitives only move the program counter, and all can fail. What is left are six that do
something to the locals or to the directory. With the contract of the transfers `move_of_step` turns
a step into one of these, and every invariant is then shown by cases on `Move`. -/

/-- The program counters without effect on the directory, with the one that follows. -/
def Pc.quietNext : Pc → Option Pc
  | .kstrdup => some .kmallocPath
  | .kmallocPath => some .openTmp
  | .dPath => some .openRead
  | .openRead => some .kmallocBuf
  | .close => some .kmallocTmp
  | .kmallocTmp => some .lookupTmp
  | .lookupTmp => some .lookupDir
  | .lookupDir => some .lookupNew
  | .lookupNew => some .rename
  | _ => none

/-- Everything one step of an activation that meets the transfer contract can do. -/
inductive Move (src : Bytes) (a : Act) (v : Volume) : Act → Volume → Prop where
  | fail (e : Errno) (hrun : ∀ code, a.pc ≠ .ret code) : Move src a v (a.fail e) v
  | quiet (p : Pc) (hpc : a.pc.quietNext = some p) : Move src a v { a with pc := p } v
  | openTmp (hpc : a.pc = .openTmp) :
      Move src a v { a with pc := .dPath, sync := v.live.openIno (tmpName a.name) }
        (v.openTrunc (tmpName a.name))
  | begin (hpc : a.pc = .kmallocBuf) :
      Move src a v { a with pc := .copy, size := src.length, pos := 0 } v
  | read (n : Nat) (hpc : a.pc = .copy) : Move src a v { a with pc := .write (pread src a.pos n) } v
  | leave (hpc : a.pc = .copy) (hend : a.size ≤ a.pos) : Move src a v { a with pc := .fsync } v
  | write (buf : Bytes) (n : Nat) (hpc : a.pc = .write buf) (hn : 0 < n) (hle : n ≤ buf.length) :
      Move src a v { a with pc := .copy, pos := a.pos + n } (v.write a.sync a.pos (buf.take n))
  | fsync (hpc : a.pc = .fsync) : Move src a v { a with pc := .close } (v.fsync a.sync)
  | rename (hpc : a.pc = .rename) :
      Move src a v { a with pc := .ret 0 } (v.rename (tmpName a.name) a.name)

variable {src : Bytes} {o : Outcome} {a a' : Act} {v v' : Volume}

/-- Every quiet primitive can fail. -/
theorem move_of_fail {p : Pc} (hpc : a.pc.quietNext = some p) (e : Errno) :
    Move src a v (a.fail e) v := by
  refine .fail e fun code hret => ?_
  rw [hret] at hpc
  cases hpc

/-- A primitive that is only called. -/
theorem move_of_call {p : Pc} (hpc : a.pc.quietNext = some p)
    (h : some (a.call v p o) = some (a', v')) : Move src a v a' v' := by
  cases o with
  | ok n =>
    cases h
    exact .quiet p hpc
  | err e =>
    cases h
    exact move_of_fail hpc e

/-- An allocation. -/
theorem move_of_alloc {p : Pc} (hpc : a.pc.quietNext = some p)
    (h : some (a.alloc v p o) = some (a', v')) : Move src a v a' v' := by
  cases o with
  | ok n =>
    cases h
    exact .quiet p hpc
  | err e =>
    cases h
    exact move_of_fail hpc .enomem

/-- **Inversion** of a step within the contract. -/
theorem move_of_step (hadv : Advances a o) (h : a.step src o v = some (a', v')) :
    Move src a v a' v' := by
  unfold Act.step at h
  cases hpc : a.pc with
  -- the quiet ones
  | kstrdup => rw [hpc] at h; exact move_of_alloc (by rw [hpc]; rfl) h
  | kmallocPath => rw [hpc] at h; exact move_of_alloc (by rw [hpc]; rfl) h
  | dPath => rw [hpc] at h; exact move_of_call (by rw [hpc]; rfl) h
  | openRead => rw [hpc] at h; exact move_of_call (by rw [hpc]; rfl) h
  | kmallocTmp => rw [hpc] at h; exact move_of_alloc (by rw [hpc]; rfl) h
  | lookupDir => rw [hpc] at h; exact move_of_call (by rw [hpc]; rfl) h
  | lookupNew => rw [hpc] at h; exact move_of_call (by rw [hpc]; rfl) h
  | ret code => rw [hpc] at h; cases h
  | close =>
    rw [hpc] at h
    cases h
    exact .quiet _ (by rw [hpc]; rfl)
  -- those with an effect on the directory
  | openTmp =>
    rw [hpc] at h
    cases o with
    | ok n => cases h; exact .openTmp hpc
    | err e => cases h; exact .fail e (by simp [hpc])
  | kmallocBuf =>
    rw [hpc] at h
    cases o with
    | ok n => cases h; exact .begin hpc
    | err e => cases h; exact .fail .enomem (by simp [hpc])
  | fsync =>
    rw [hpc] at h
    cases o with
    | ok n => cases h; exact .fsync hpc
    | err e => cases h; exact .fail e (by simp [hpc])
  | rename =>
    rw [hpc] at h
    cases o with
    | ok n => cases h; exact .rename hpc
    | err e => cases h; exact .fail e (by simp [hpc])
  | lookupTmp =>
    rw [hpc] at h
    cases o with
    -- the temp file is looked up by its path
    | ok n =>
      simp only [Option.ite_none_right_eq_some, Option.some.injEq, Prod.mk.injEq] at h
      obtain ⟨-, rfl, rfl⟩ := h
      exact .quiet _ (by rw [hpc]; rfl)
    | err e => cases h; exact .fail e (by simp [hpc])
  | write buf =>
    rw [hpc] at h
    cases o with
    | ok n =>
      simp only [Option.ite_none_right_eq_some, Option.some.injEq, Prod.mk.injEq] at h
      obtain ⟨hle, rfl, rfl⟩ := h
      exact .write buf n hpc (by simpa [Advances, hpc] using hadv) hle
    | err e => cases h; exact .fail e (by simp [hpc])
  | copy =>
    rw [hpc] at h
    by_cases hlt : a.pos < a.size
    · simp only [hlt, if_true] at h
      cases o with
      | ok n =>
        -- the contract leaves no way to the `break`
        have hn : n ≠ 0 := by
          have hpos : 0 < n := by simpa [Advances, hpc, hlt] using hadv
          omega
        simp only [Option.ite_none_right_eq_some, hn, if_false, Option.some.injEq,
          Prod.mk.injEq] at h
        obtain ⟨-, rfl, rfl⟩ := h
        exact .read n hpc
      | err e => cases h; exact .fail e (by simp [hpc])
    · simp only [hlt, if_false, Option.some.injEq, Prod.mk.injEq] at h
      obtain ⟨rfl, rfl⟩ := h
      exact .leave hpc (Nat.le_of_not_lt hlt)

/-- The two steps outside the transfer contract: the read of no bytes, which ends the loop, and a
write of no bytes. -/
theorem idle_of_step (hidle : ¬ Advances a o) (h : a.step src o v = some (a', v')) :
    (a.pc = .copy ∧ a.pos < a.size ∧ a' = { a with pc := .fsync } ∧ v' = v) ∨
      ∃ buf, a.pc = .write buf ∧ a' = { a with pc := .copy } ∧ v' = v.write a.sync a.pos [] := by
  cases o with
  | err e => exact absurd (by unfold Advances; split <;> simp_all) hidle
  | ok n =>
    -- of the successes only those of the two transfers can be outside the contract
    cases hpc : a.pc with
    | copy =>
      left
      simp only [Advances, hpc, not_forall, Nat.not_lt, Nat.le_zero] at hidle
      obtain ⟨hlt, rfl⟩ := hidle
      simp only [Act.step, hpc, hlt, if_true, Nat.zero_le, and_self, Option.some.injEq,
        Prod.mk.injEq] at h
      exact ⟨rfl, hlt, h.1.symm, h.2.symm⟩
    | write buf =>
      simp only [Advances, hpc, Nat.not_lt, Nat.le_zero] at hidle
      subst hidle
      simp only [Act.step, hpc, Nat.zero_le, if_true, Nat.add_zero, List.take_zero,
        Option.some.injEq, Prod.mk.injEq] at h
      exact Or.inr ⟨buf, rfl, h.1.symm, h.2.symm⟩
    | _ => exact absurd (by simp [Advances, hpc]) hidle

/-! ## What an activation knows about its temp file

`W` is the set of names a theorem watches: what it says about links holds among them. -/

variable {W : Name → Prop}

/-- No watched name but `n` leads to the inode `n` leads to. -/
def SoleLink (W : Name → Prop) (d : SyncDir) (n : Name) : Prop :=
  ∀ i m, W m → d.entry n = some i → d.entry m = some i → m = n

/-- The temp path leads to the inode the activation has open, no other watched name does, and that
inode holds `c`. -/
structure Owns (W : Name → Prop) (a : Act) (v : Volume) (c : Bytes) : Prop where
  linked : v.live.entry (tmpName a.name) = some a.sync
  sole : ∀ m, W m → v.live.entry m = some a.sync → m = tmpName a.name
  holds : v.live.data a.sync = c

/-- What is known at each program counter: the temp file is empty before the loop, holds the first
`pos` bytes of the source inside it and all of the source after it. -/
def Act.Good (W : Name → Prop) (src : Bytes) (a : Act) (v : Volume) : Prop :=
  match a.pc with
  | .kstrdup | .kmallocPath | .openTmp | .ret _ => True
  | .dPath | .openRead | .kmallocBuf => Owns W a v []
  | .copy => a.size = src.length ∧ Owns W a v (src.take a.pos)
  | .write buf =>
    (∃ n, buf = pread src a.pos n) ∧ a.size = src.length ∧ Owns W a v (src.take a.pos)
  | .fsync | .close | .kmallocTmp | .lookupTmp | .lookupDir | .lookupNew | .rename => Owns W a v src

/-- What is owned depends on the name, the inode and the live directory. -/
theorem Owns.congr {b : Act} {c : Bytes} (h : Owns W a v c) (hname : b.name = a.name)
    (hsync : b.sync = a.sync) (hlive : v'.live = v.live) : Owns W b v' c where
  linked := by rw [hname, hsync, hlive]; exact h.linked
  sole := by rw [hname, hsync, hlive]; exact h.sole
  holds := by rw [hsync, hlive]; exact h.holds

/-- An inode that a watched name leads to is not the one an open finds under another name. -/
theorem SyncDir.openIno_ne {d : SyncDir} {n m : Name} {i : Ino} (hsole : SoleLink W d n) (hW : W m)
    (hm : d.entry m = some i) (hne : m ≠ n) : i ≠ d.openIno n := by
  cases hn : d.entry n with
  | none =>
    rw [openIno, hn]
    exact Nat.ne_of_lt (d.entry_lt hm)
  | some j =>
    rw [openIno, hn]
    rintro rfl
    exact hne (hsole _ m hW hn hm)

/-- Opening a temp file no other watched name leads to gives the activation an empty file of its
own. -/
theorem owns_openTrunc (hsole : SoleLink W v.live (tmpName a.name)) :
    Owns W { a with pc := .dPath, sync := v.live.openIno (tmpName a.name) }
      (v.openTrunc (tmpName a.name)) [] where
  linked := by simp
  sole := by
    intro m hW hm
    by_contra hne
    rw [Volume.openTrunc_live, SyncDir.openTrunc_entry_ne _ hne] at hm
    exact SyncDir.openIno_ne hsole hW hm hne rfl
  holds := by simp

/-- A write on the owned inode keeps it owned. -/
theorem Owns.write {c : Bytes} (h : Owns W a v c) (pos : Nat) (buf : Bytes) :
    Owns W { a with pc := .copy, pos := pos } (v.write a.sync a.pos buf) (pwrite c a.pos buf) where
  linked := h.linked
  sole := h.sole
  holds := by simp [h.holds]

/-- Every step keeps what the activation knows, if no other watched name leads to the temp file it
opens. -/
theorem Move.good (hmove : Move src a v a' v') (hgood : a.Good W src v)
    (hsole : a.pc = .openTmp → SoleLink W v.live (tmpName a.name)) : a'.Good W src v' := by
  cases hmove with
  | fail e _ => trivial
  | quiet p hpc =>
    -- the temp file is as it was
    cases hq : a.pc <;> rw [hq] at hpc <;> cases hpc <;> first
      | trivial
      | (simp only [Act.Good, hq] at hgood
         exact hgood.congr rfl rfl rfl)
  | openTmp hpc => exact owns_openTrunc (hsole hpc)
  | begin hpc =>
    simp only [Act.Good, hpc] at hgood
    exact ⟨rfl, hgood.congr rfl rfl rfl⟩
  | read n hpc =>
    simp only [Act.Good, hpc] at hgood
    exact ⟨⟨n, rfl⟩, hgood.1, hgood.2.congr rfl rfl rfl⟩
  | leave hpc hend =>
    simp only [Act.Good, hpc] at hgood
    -- the size is reached, so everything has been copied
    have hall : src.take a.pos = src := List.take_of_length_le (hgood.1 ▸ hend)
    exact (hall ▸ hgood.2).congr rfl rfl rfl
  | write buf n hpc _ hle =>
    simp only [Act.Good, hpc] at hgood
    obtain ⟨⟨k, rfl⟩, hsize, howns⟩ := hgood
    -- the bytes written are again a chunk of the source, read at the same position
    have hchunk : (pread src a.pos k).take n = pread src a.pos n := by
      have hk : n ≤ k := by simp [pread] at hle; omega
      rw [pread, pread, List.take_take, Nat.min_eq_left hk]
    refine ⟨hsize, ?_⟩
    rw [hchunk]
    have hwrite := howns.write (a.pos + n) (pread src a.pos n)
    rwa [pwrite_take_pread] at hwrite
  | fsync hpc =>
    simp only [Act.Good, hpc] at hgood
    exact hgood.congr rfl rfl rfl
  | rename hpc => trivial

/-- An activation that has its temp file open owns it, with some content. -/
theorem Act.Good.owns (hgood : a.Good W src v) (huse : a.InUse) :
    Owns W a v (v.live.data a.sync) := by
  have howns : ∃ c, Owns W a v c := by
    cases hpc : a.pc <;> simp only [Act.Good, Act.InUse, hpc] at hgood huse
    case copy => exact ⟨_, hgood.2⟩
    case write => exact ⟨_, hgood.2.2⟩
    all_goals exact ⟨_, hgood⟩
  obtain ⟨c, h⟩ := howns
  exact { h with holds := rfl }

/-- What is known about an owned file carries over to any volume in which it is still owned with
the same content. -/
theorem Act.Good.of_owns (hgood : a.Good W src v)
    (howns : ∀ c, a.InUse → Owns W a v c → Owns W a v' c) : a.Good W src v' := by
  cases hpc : a.pc <;> simp only [Act.Good, Act.InUse, hpc] at hgood howns ⊢
  case copy => exact ⟨hgood.1, howns _ trivial hgood.2⟩
  case write => exact ⟨hgood.1, hgood.2.1, howns _ trivial hgood.2.2⟩
  all_goals exact howns _ trivial hgood

/-- No step changes the name. -/
theorem Move.name_eq (hmove : Move src a v a' v') : a'.name = a.name := by
  cases hmove <;> rfl

/-- Nor does one outside the contract. -/
theorem Act.step_name (h : a.step src o v = some (a', v')) : a'.name = a.name := by
  by_cases hadv : Advances a o
  · exact (move_of_step hadv h).name_eq
  · rcases idle_of_step hadv h with ⟨-, -, rfl, -⟩ | ⟨buf, -, rfl, -⟩ <;> rfl

/-- Only the rename returns 0, and it is a rename. -/
theorem Act.step_ret (h : a.step src o v = some (a', v')) (hret : a'.pc = .ret 0) :
    a.pc = .rename ∧ (∃ n, o = .ok n) ∧ v' = v.rename (tmpName a.name) a.name := by
  by_cases hadv : Advances a o
  · cases hmove : move_of_step hadv h with
    | rename hpc =>
      refine ⟨hpc, ?_, rfl⟩
      -- an error returns a negative number, never 0
      cases o with
      | ok n => exact ⟨n, rfl⟩
      | err e =>
        simp only [Act.step, hpc, Option.some.injEq, Prod.mk.injEq] at h
        have hcode := congrArg Act.pc h.1
        have hpos := e.num_pos
        simp only [Act.fail, Pc.ret.injEq] at hcode
        omega
    | fail e _ =>
      have hpos := e.num_pos
      simp only [Act.fail, Pc.ret.injEq] at hret
      omega
    | quiet p hpc => cases hq : a.pc <;> rw [hq] at hpc <;> cases hpc <;> cases hret
    | _ => cases hret
  · rcases idle_of_step hadv h with ⟨-, -, rfl, -⟩ | ⟨buf, -, rfl, -⟩ <;> cases hret

/-- The rename comes after a successful `lookup_one_len`. -/
theorem Act.step_rename (h : a.step src o v = some (a', v')) (hpc' : a'.pc = .rename) :
    a.pc = .lookupNew ∧ ∃ n, o = .ok n := by
  by_cases hadv : Advances a o
  · cases hmove : move_of_step hadv h with
    | quiet p hpc =>
      cases hq : a.pc <;> rw [hq] at hpc <;> cases hpc <;> cases hpc'
      refine ⟨rfl, ?_⟩
      cases o with
      | ok n => exact ⟨n, rfl⟩
      | err e =>
        simp only [Act.step, hq, Act.call, Option.some.injEq, Prod.mk.injEq] at h
        cases congrArg Act.pc h.1
    | _ => cases hpc'
  · rcases idle_of_step hadv h with ⟨-, -, rfl, -⟩ | ⟨buf, -, rfl, -⟩ <;> cases hpc'

/-- A primitive of an activation that neither has its temp file open nor opens it now: the volume is
as before, and still nothing is open. An open that fails is one of these. -/
theorem Act.step_idle (h : a.step src o v = some (a', v')) (huse : ¬ a.InUse)
    (hopen : ¬ (a.pc = .openTmp ∧ o.isOk = true)) : v' = v ∧ ¬ a'.InUse := by
  cases hpc : a.pc with
  | kstrdup | kmallocPath =>
    simp only [Act.step, hpc] at h
    cases o <;> cases h <;> exact ⟨rfl, id⟩
  | openTmp =>
    simp only [Act.step, hpc] at h
    cases o with
    | ok n => exact absurd ⟨hpc, rfl⟩ hopen
    | err e =>
      cases h
      exact ⟨rfl, id⟩
  | ret code =>
    simp only [Act.step, hpc] at h
    cases h
  | _ => exact absurd (by simp [Act.InUse, hpc]) huse

/-- With no temp file open there is nothing to know. -/
theorem Act.good_of_not_inUse (huse : ¬ a.InUse) : a.Good W src v := by
  cases hpc : a.pc <;> simp_all [Act.InUse, Act.Good]

/-- **The frame of one step.** Under every watched name but the temp name a reader finds what was
there before, except that the rename puts all of the source under the file's own name. -/
theorem Move.content (hmove : Move src a v a' v') (hgood : a.Good W src v)
    (hsole : a.pc = .openTmp → SoleLink W v.live (tmpName a.name)) {n : Name} (hW : W n)
    (hn : n ≠ tmpName a.name) :
    v'.live.content n = v.live.content n ∨
      n = a.name ∧ a.pc = .rename ∧ v'.live.content n = some src := by
  cases hmove with
  | openTmp hpc =>
    left
    -- the inode that is emptied is not one that a watched name leads to
    rw [Volume.openTrunc_live, Snapshot.content, SyncDir.openTrunc_entry_ne _ hn, Snapshot.content]
    cases he : v.live.entry n with
    | none => rfl
    | some i =>
      rw [Option.map_some, Option.map_some,
        SyncDir.openTrunc_data_ne _ (SyncDir.openIno_ne (hsole hpc) hW he hn)]
  | write buf k hpc _ _ =>
    left
    have howns := hgood.owns (by simp [Act.InUse, hpc])
    simp only [Volume.write_live, Snapshot.content, SyncDir.write_entry]
    cases he : v.live.entry n with
    | none => rfl
    | some i =>
      -- nor is the inode that is written to
      have hi : i ≠ a.sync := fun h => hn (howns.sole n hW (h ▸ he))
      rw [Option.map_some, Option.map_some, SyncDir.write_data_ne _ hi]
  | rename hpc =>
    simp only [Act.Good, hpc] at hgood
    simp only [Volume.rename_live, Snapshot.content, SyncDir.rename_data]
    -- the rename changes two names, of which the temp name is not meant
    by_cases hname : n = a.name
    · right
      subst hname
      rw [SyncDir.rename_entry_target hgood.linked, Option.map_some, hgood.holds]
      exact ⟨rfl, hpc, rfl⟩
    · left
      rw [SyncDir.rename_entry_ne _ hn hname]
  | _ => exact Or.inl rfl

/-- **Flushes of other files do not interfere.** A step of `a` leaves alone the temp file another
activation `b` owns, unless the two share a name or `b`'s temp name is `a`'s own name. -/
theorem Move.owns_other {b : Act} {c : Bytes} (hmove : Move src a v a' v')
    (hgood : a.Good W src v) (hsole : a.pc = .openTmp → SoleLink W v.live (tmpName a.name))
    (hb : Owns W b v c) (hWa : W (tmpName a.name)) (hWb : W (tmpName b.name))
    (hname : a.name ≠ b.name) (htmp : a.name ≠ tmpName b.name) : Owns W b v' c := by
  have htmps : tmpName b.name ≠ tmpName a.name := fun h => hname (tmpName_injective h).symm
  cases hmove with
  | openTmp hpc =>
    -- the other's temp file is another inode
    have hino := SyncDir.openIno_ne (hsole hpc) hWb hb.linked htmps
    refine ⟨?_, ?_, ?_⟩
    · rw [Volume.openTrunc_live, SyncDir.openTrunc_entry_ne _ htmps, hb.linked]
    · intro m hW hm
      rw [Volume.openTrunc_live] at hm
      -- a link that the open makes is to its own inode
      by_cases hma : m = tmpName a.name
      · subst hma
        rw [SyncDir.openTrunc_entry_self] at hm
        exact absurd (Option.some.inj hm).symm hino
      · rw [SyncDir.openTrunc_entry_ne _ hma] at hm
        exact hb.sole m hW hm
    · rw [Volume.openTrunc_live, SyncDir.openTrunc_data_ne _ hino, hb.holds]
  | write buf k hpc _ _ =>
    have howns := hgood.owns (by simp [Act.InUse, hpc])
    have hino : b.sync ≠ a.sync := fun h => htmps (howns.sole _ hWb (h ▸ hb.linked))
    refine ⟨hb.linked, hb.sole, ?_⟩
    rw [Volume.write_live, SyncDir.write_data_ne _ hino, hb.holds]
  | rename hpc =>
    refine ⟨?_, ?_, ?_⟩
    · rw [Volume.rename_live, SyncDir.rename_entry_ne _ htmps htmp.symm, hb.linked]
    · intro m hW hm
      rcases SyncDir.rename_entry_cases hm with hm | ⟨-, hm⟩
      · exact hb.sole m hW hm
      -- a link that the rename makes is to the temp inode of `a`
      · exact absurd (hb.sole _ hWa hm).symm htmps
    · rw [Volume.rename_live, SyncDir.rename_data, hb.holds]
  | _ => exact hb.congr rfl rfl rfl

end OsHomework.Ramfs
