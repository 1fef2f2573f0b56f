import OsHomework.Ramfs.Writers

/-!
# Ramfs — how far a flush gets, and what it copies

`ramfs_file_flush` takes the length to copy from the inode of the file it was called for, and the
bytes from a second handle that it opens by path. This module follows a flush with one content for
each of the two: `own` gives the length, `read` the bytes.

* **`Copies.step`** — every primitive, short transfers included, keeps what is known of the temp
  file; a flush that returns 0 leaves the first `own.length` bytes of `read` under the file's name.
* **`Copies.closer`**, **`Copies.progress`** — every success of a primitive brings the flush nearer
  to its return, and at every program counter there is one.
* **`copyLoop_terminates`** — the loop alone, under any results: it ends as long as no write
  returns 0.
-/

namespace OsHomework.Ramfs

open ByteFile Lts

/-- What the primitive at the program counter looks at: the size is that of the flushed file. -/
def sourceAt (own read : Bytes) (a : Act) : Bytes := if a.pc = .kmallocBuf then own else read

/-- What is known at each program counter when `own` is the flushed file and `read` the one that is
read. -/
def Copies (own read : Bytes) (a : Act) (v : Volume) : Prop :=
  match a.pc with
  | .kstrdup | .kmallocPath | .openTmp => True
  | .dPath | .openRead | .kmallocBuf => Tmp a v []
  -- the position is inside what is read, and the temp file holds what is in front of it
  | .copy => Tmp a v (read.take a.pos) ∧ a.size = own.length ∧ a.pos ≤ a.size ∧
      a.pos ≤ read.length
  | .write buf => Tmp a v (read.take a.pos) ∧ a.size = own.length ∧
      (∃ n, buf = pread read a.pos n) ∧ 0 < buf.length ∧ a.pos + buf.length ≤ a.size
  | .fsync | .close | .kmallocTmp | .lookupTmp | .lookupDir | .lookupNew | .rename =>
    Tmp a v (read.take own.length)
  | .ret code => code = 0 → v.live.content a.name = some (read.take own.length)

section

variable {own read : Bytes} {a a' : Act} {v v' : Volume} {o : Outcome}

/-- What is read inside the loop is a chunk of the file that is read, and of the size asked for. -/
theorem Act.step_copy {src buf : Bytes} (hpc : a.pc = .copy)
    (h : a.step src o v = some (a', v')) (hbuf : a'.pc = .write buf) :
    (∃ n, buf = pread src a.pos n) ∧ 0 < buf.length ∧ a.pos + buf.length ≤ a.size := by
  simp only [Act.step, hpc] at h
  split at h
  · next hlt =>
    cases o with
    | err e =>
      cases h
      -- an error or the end of the loop is no write
      cases hbuf
    | ok n =>
      dsimp only at h
      split at h
      · next hn =>
        split at h
        · cases h
          cases hbuf
        -- bytes were read
        · next hne =>
          cases h
          cases hbuf
          refine ⟨⟨n, rfl⟩, ?_, ?_⟩ <;> simp only [pread, List.length_take, List.length_drop] <;>
            omega
      · cases h
  · cases h
    cases hbuf

/-- The loop is left when the size is reached or at the end of what is read. -/
theorem Copies.leave (h : Copies own read a v) (hpc : a.pc = .copy)
    (hend : a.size ≤ a.pos ∨ read.length ≤ a.pos) :
    Copies own read { a with pc := .fsync } v := by
  simp only [Copies, hpc] at h
  obtain ⟨htmp, hsize, hle, hread⟩ := h
  have hall : read.take a.pos = read.take own.length := by
    rcases hend with hend | hend
    · rw [show a.pos = own.length by omega]
    · rw [List.take_of_length_le hend, List.take_of_length_le (by omega)]
  rw [hall] at htmp
  exact htmp.congr rfl rfl rfl

/-- **One primitive** of the flush. -/
theorem Copies.step (h : Copies own read a v) (hok : Transfers read a o)
    (hstep : a.step (sourceAt own read a) o v = some (a', v')) : Copies own read a' v' := by
  by_cases hadv : Advances a o
  · cases hmove : move_of_step hadv hstep with
    | fail e _ =>
      -- an error returns a negative number
      intro hzero
      have hpos := e.num_pos
      omega
    | quiet q hpc =>
      -- the primitives without effect
      cases hq : a.pc <;> rw [hq] at hpc <;> cases hpc <;> simp only [Copies, hq] at h ⊢
      all_goals exact h.congr rfl rfl rfl
    | openTmp hpc => exact owns_openTrunc fun _ _ hW => hW.elim
    | begin hpc =>
      simp only [Copies, hpc] at h
      -- the size is that of the flushed file
      have hsrc : sourceAt own read a = own := if_pos hpc
      rw [hsrc]
      exact ⟨h.congr rfl rfl rfl, rfl, Nat.zero_le _, Nat.zero_le _⟩
    | read n hpc =>
      have hchunk := Act.step_copy hpc hstep rfl
      -- the bytes are those of the file that is read
      have hsrc : sourceAt own read a = read := if_neg (by simp [hpc])
      rw [hsrc] at hchunk ⊢
      simp only [Copies, hpc] at h
      exact ⟨h.1.congr rfl rfl rfl, h.2.1, hchunk⟩
    | leave hpc hend => exact h.leave hpc (Or.inl hend)
    | write buf n hpc _ hle =>
      simp only [Copies, hpc] at h
      obtain ⟨htmp, hsize, ⟨k, rfl⟩, hpos, hfits⟩ := h
      have hk : n ≤ k ∧ a.pos + n ≤ read.length := by
        simp only [pread, List.length_take, List.length_drop] at hle
        omega
      -- the bytes written are the next ones of the file that is read
      have hwrite := htmp.write (a.pos + n) ((pread read a.pos k).take n)
      have hchunk : (pread read a.pos k).take n = pread read a.pos n := by
        rw [pread, pread, List.take_take, Nat.min_eq_left hk.1]
      rw [hchunk, pwrite_take_pread] at hwrite
      rw [hchunk]
      exact ⟨hwrite, hsize, by show a.pos + n ≤ a.size; omega, hk.2⟩
    | fsync hpc =>
      simp only [Copies, hpc] at h
      exact h.congr rfl rfl rfl
    | rename hpc =>
      simp only [Copies, hpc] at h
      -- the temp file is now the file
      intro _
      rw [Volume.rename_live, Snapshot.content, SyncDir.rename_entry_target h.linked,
        SyncDir.rename_data, Option.map_some, h.holds]
  -- outside the contract there is the read of no bytes, at the end of what is read
  · obtain ⟨hpc, hend⟩ := hok.resolve_left hadv
    rcases idle_of_step hadv hstep with ⟨-, -, rfl, rfl⟩ | ⟨buf, hwrite, -, -⟩
    · exact h.leave hpc (Or.inr hend)
    · rw [hpc] at hwrite
      cases hwrite

/-! ## Progress

From every state of the flush some successes lead to its return: at most two for each byte that is
left and one for each other primitive. The source being shorter than its size said is no obstacle,
since a read at the end of the file leaves the loop. -/

/-- How far a flush is from its return when `own` is the flushed file: two primitives for each byte
that is left to copy, at most, and one for each other place. -/
def Act.distance (own : Bytes) (a : Act) : Nat :=
  match a.pc with
  | .kstrdup => 2 * own.length + 16
  | .kmallocPath => 2 * own.length + 15
  | .openTmp => 2 * own.length + 14
  | .dPath => 2 * own.length + 13
  | .openRead => 2 * own.length + 12
  | .kmallocBuf => 2 * own.length + 11
  | .copy => 2 * (a.size - a.pos) + 10
  | .write _ => 2 * (a.size - a.pos) + 9
  | .fsync => 8
  | .close => 7
  | .kmallocTmp => 6
  | .lookupTmp => 5
  | .lookupDir => 4
  | .lookupNew => 3
  | .rename => 2
  | .ret _ => 0

/-- The success of a primitive that is chosen: transfers move as much as they can. -/
def Act.most (read : Bytes) (a : Act) : Nat :=
  match a.pc with
  | .copy => min (min pageSize (a.size - a.pos)) (read.length - a.pos)
  | .write buf => buf.length
  | _ => 0

/-- These results keep to the contract. -/
theorem transfers_most (h : Copies own read a v) : Transfers read a (.ok (a.most read)) := by
  unfold Transfers Advances Act.most
  cases hpc : a.pc with
  | copy =>
    simp only [pageSize, true_and]
    omega
  | write buf =>
    simp only [Copies, hpc] at h
    exact Or.inl h.2.2.2.1
  | _ => exact Or.inl trivial

/-- A successful primitive brings the flush nearer to its return, and the only value it lets it
return is 0. -/
theorem Copies.closer {n : Nat} (h : Copies own read a v) (hok : Transfers read a (.ok n))
    (hstep : a.step (sourceAt own read a) (.ok n) v = some (a', v')) :
    a'.distance own < a.distance own ∧ ∀ code, a'.pc = .ret code → code = 0 := by
  cases hpc : a.pc with
  | ret code =>
    simp only [Act.step, hpc] at hstep
    cases hstep
  -- the primitives without effect, and those with one that is not counted
  | kstrdup | kmallocPath | openTmp | dPath | openRead | fsync | close | kmallocTmp | lookupDir
  | lookupNew =>
    simp only [Act.step, hpc, Act.call, Act.alloc, Option.some.injEq, Prod.mk.injEq] at hstep
    obtain ⟨rfl, -⟩ := hstep
    refine ⟨by simp [Act.distance, hpc], ?_⟩
    intro code hcode
    cases hcode
  | kmallocBuf =>
    simp only [Act.step, hpc, sourceAt, if_true, Option.some.injEq, Prod.mk.injEq] at hstep
    obtain ⟨rfl, -⟩ := hstep
    refine ⟨by simp [Act.distance, hpc], ?_⟩
    intro code hcode
    cases hcode
  | lookupTmp =>
    simp only [Act.step, hpc, Option.ite_none_right_eq_some, Option.some.injEq,
      Prod.mk.injEq] at hstep
    obtain ⟨-, rfl, -⟩ := hstep
    refine ⟨by simp [Act.distance, hpc], ?_⟩
    intro code hcode
    cases hcode
  | rename =>
    simp only [Act.step, hpc, Option.some.injEq, Prod.mk.injEq] at hstep
    obtain ⟨rfl, -⟩ := hstep
    refine ⟨by simp [Act.distance, hpc], ?_⟩
    intro code hcode
    cases hcode
    rfl
  | write buf =>
    simp only [Copies, hpc] at h
    obtain ⟨-, -, -, -, hfits⟩ := h
    -- a write that succeeds moves at least one byte
    have hn : 0 < n := by simpa [Transfers, Advances, hpc] using hok
    simp only [Act.step, hpc, Option.ite_none_right_eq_some, Option.some.injEq,
      Prod.mk.injEq] at hstep
    obtain ⟨hle, rfl, -⟩ := hstep
    refine ⟨?_, ?_⟩
    · simp only [Act.distance, hpc]
      omega
    · intro code hcode
      cases hcode
  | copy =>
    simp only [Act.step, hpc] at hstep
    -- a chunk is read, the end is found, or the loop is left
    split at hstep
    · split at hstep
      · split at hstep <;> cases hstep
        all_goals
          refine ⟨by simp only [Act.distance, hpc]; omega, ?_⟩
          intro code hcode
          cases hcode
      · cases hstep
    · cases hstep
      refine ⟨by simp only [Act.distance, hpc]; omega, ?_⟩
      intro code hcode
      cases hcode

/-- **Progress.** A flush that has not returned can make a successful step. -/
theorem Copies.progress (h : Copies own read a v) (hrun : ∀ code, a.pc ≠ .ret code) :
    ∃ a' v', a.step (sourceAt own read a) (.ok (a.most read)) v = some (a', v') := by
  cases hpc : a.pc with
  | ret code => exact absurd hpc (hrun code)
  | kstrdup | kmallocPath | openTmp | dPath | openRead | kmallocBuf | fsync | close | kmallocTmp
  | lookupDir | lookupNew | rename =>
    exact ⟨_, _, by simp only [Act.step, hpc]; rfl⟩
  | lookupTmp =>
    -- the temp file is where the flush has put it
    simp only [Copies, hpc] at h
    exact ⟨_, _, by simp only [Act.step, hpc, h.linked, Option.isSome_some, if_true]; rfl⟩
  | write buf =>
    exact ⟨_, _, by simp only [Act.step, Act.most, hpc, Nat.le_refl, if_true]; rfl⟩
  | copy =>
    have hsrc : sourceAt own read a = read := if_neg (by simp [hpc])
    have hfits : a.most read ≤ min pageSize (a.size - a.pos) ∧
        a.most read ≤ read.length - a.pos := by
      simp only [Act.most, hpc]
      omega
    simp only [Act.step, hpc, hsrc, hfits, and_self, if_true]
    split
    · split
      · exact ⟨_, _, rfl⟩
      · exact ⟨_, _, rfl⟩
    · exact ⟨_, _, rfl⟩

/-! ## The copy loop

The loop under results that keep to no contract but the counts. A read of 0 bytes breaks it, an
error leaves the function, and every other result moves the position, but for one: a write that
returns 0 leaves everything as it was. -/

/-- The activation is inside the loop: at its head, or with bytes to write. -/
def Act.InLoop (a : Act) : Prop :=
  match a.pc with
  | .copy | .write _ => True
  | _ => False

/-- One primitive of the loop, with what `read_file` holds at this moment and what the primitive
returns. -/
def loopStep (s : Act × Volume) (l : Bytes × Outcome) : Option (Act × Volume) :=
  s.1.step l.1 l.2 s.2

/-- A result that `kernel_read` and `kernel_write` may have: an error, or a count that is at most
the one asked for. -/
def Act.MayReturn (a : Act) : Outcome → Prop
  | .err _ => True
  | .ok n =>
    match a.pc with
    | .copy => n ≤ min pageSize (a.size - a.pos)
    | .write buf => n ≤ buf.length
    | _ => True

/-- The loop takes every such result, for a file that has the bytes to read. -/
theorem loopStep_mayReturn (s : Act × Volume) (hloop : s.1.InLoop) (hret : s.1.MayReturn o) :
    ∃ src t, loopStep s (src, o) = some t := by
  obtain ⟨a, v⟩ := s
  cases hpc : a.pc with
  | copy =>
    cases o with
    | err e =>
      refine ⟨[], ?_⟩
      simp only [loopStep, Act.step, hpc]
      split
      · exact ⟨_, rfl⟩
      · exact ⟨_, rfl⟩
    | ok n =>
      simp only [Act.MayReturn, hpc] at hret
      -- a file that is long enough for the bytes that were read
      refine ⟨List.replicate (a.pos + n) 0, ?_⟩
      have hn : n ≤ min pageSize (a.size - a.pos) ∧
          n ≤ (List.replicate (a.pos + n) (0 : UInt8)).length - a.pos := by
        simp only [List.length_replicate]
        omega
      simp only [loopStep, Act.step, hpc, hn, and_self, if_true]
      split
      · split
        · exact ⟨_, rfl⟩
        · exact ⟨_, rfl⟩
      · exact ⟨_, rfl⟩
  | write buf =>
    cases o with
    | err e => exact ⟨[], _, by simp only [loopStep, Act.step, hpc]; rfl⟩
    | ok n =>
      simp only [Act.MayReturn, hpc] at hret
      exact ⟨[], _, by simp only [loopStep, Act.step, hpc, hret, if_true]; rfl⟩
  | _ => simp [Act.InLoop, hpc] at hloop

/-- Bytes are written only in front of the size. -/
def Act.Behind (a : Act) : Prop := ∀ buf, a.pc = .write buf → a.pos < a.size

/-- A primitive of the loop brings the flush nearer to its return, unless it is a write of
nothing. -/
theorem Act.Behind.closer {src : Bytes} (h : a.Behind) (hloop : a.InLoop)
    (hwrite : ∀ buf, a.pc = .write buf → o ≠ .ok 0) (hstep : a.step src o v = some (a', v')) :
    a'.Behind ∧ a'.distance [] < a.distance [] := by
  cases hpc : a.pc with
  | copy =>
    refine ⟨fun buf hbuf => ?_, ?_⟩
    -- a chunk is never empty, so its position is in front of the size
    · have hchunk := Act.step_copy hpc hstep hbuf
      have hkept : a'.pos = a.pos ∧ a'.size = a.size := by
        simp only [Act.step, hpc] at hstep
        repeat' split at hstep
        all_goals cases hstep
        all_goals exact ⟨rfl, rfl⟩
      omega
    · simp only [Act.step, hpc] at hstep
      repeat' split at hstep
      all_goals cases hstep
      all_goals simp only [Act.distance, Act.fail, hpc]
      all_goals omega
  | write buf =>
    have hlt := h buf hpc
    simp only [Act.step, hpc] at hstep
    cases o with
    | err e =>
      cases hstep
      refine ⟨fun _ hbuf => ?_, ?_⟩
      · cases hbuf
      · simp [Act.distance, Act.fail, hpc]
    | ok n =>
      -- the write moves the position
      have hn : n ≠ 0 := fun hzero => hwrite buf hpc (by rw [hzero])
      obtain ⟨-, heq⟩ := Option.ite_none_right_eq_some.mp hstep
      cases heq
      refine ⟨fun _ hbuf => ?_, ?_⟩
      · cases hbuf
      · simp only [Act.distance, hpc]
        omega
  | _ => simp [Act.InLoop, hpc] at hloop

/-- **The copy loop ends** in every run in which no write returns 0, and it is not stuck before. -/
theorem copyLoop_terminates (a : Act) (v : Volume) (hpc : a.pc = .copy) :
    Terminates loopStep
        (fun s l => s.1.InLoop ∧ ∀ buf, s.1.pc = .write buf → l.2 ≠ .ok 0) (a, v) ∧
      ∀ s o, s.1.InLoop → s.1.MayReturn o → ∃ src t, loopStep s (src, o) = some t := by
  have hbehind : a.Behind := by
    intro buf hbuf
    rw [hpc] at hbuf
    cases hbuf
  refine ⟨?_, fun s o hloop hret => loopStep_mayReturn s hloop hret⟩
  refine terminates_of_measure (I := fun s => s.1.Behind) (fun s => s.1.distance []) ?_ hbehind
  intro s l t h hok hstep
  exact h.closer hok.1 hok.2 hstep

/-- A flush of one byte at the head of the loop. -/
def oneByte : Act := ⟨[102], .copy, 1, 0, 0⟩

/-- The loop of a flush of one byte. -/
theorem copyLoop_terminates_oneByte :
    Terminates loopStep
      (fun s l => s.1.InLoop ∧ ∀ buf, s.1.pc = .write buf → l.2 ≠ .ok 0)
      (oneByte, .clean .empty) :=
  (copyLoop_terminates oneByte (.clean .empty) rfl).1

/-- While every write returns 0 the loop reads the same byte over and over. -/
theorem copyLoop_not_terminates :
    ¬ Terminates loopStep (fun s l => s.1.InLoop ∧ s.1.MayReturn l.2) (oneByte, .clean .empty) := by
  refine not_terminates
    (I := fun s => s.1 = oneByte ∨ s.1 = { oneByte with pc := .write [7] }) ?_ (Or.inl rfl)
  rintro ⟨a, w⟩ (rfl | rfl)
  · have hread : 1 ≤ min pageSize (1 - 0) := by decide
    exact ⟨([7], .ok 1), _, ⟨trivial, hread⟩, rfl, Or.inr rfl⟩
  · exact ⟨([7], .ok 0), _, ⟨trivial, Nat.zero_le _⟩, rfl, Or.inl rfl⟩

end

end OsHomework.Ramfs
