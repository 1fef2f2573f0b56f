import OsHomework.Lib.Reach
import OsHomework.Ramfs.Flush

/-!
# Ramfs — a flush of a file that is being changed

`ramfs_file_flush` takes no lock on the file it copies. Its size is read once, each chunk is read
when its turn comes, and a read of no bytes ends the loop: the copy of a file that others write and
truncate meanwhile is no state the file ever had. What is left is said of single bytes: a byte that
stays as it is during the whole flush is in the copy.

The state adds the source to the activation and the volume; between any two primitives it may become
anything.

* **`Carries.step`** — at every program counter: what has been copied so far has the byte, or the
  loop has not come to it.
* **`stable_byte_persists`** — the result for whole runs.
-/

namespace OsHomework.Ramfs

open ByteFile Lts

/-- The flushed file as it is now, the flush and the sync directory. -/
structure Shared where
  src : Bytes
  act : Act
  vol : Volume

/-- A primitive of the flush, or a write or truncation that leaves `c` in the source. -/
inductive Turn where
  | flush (o : Outcome)
  | source (c : Bytes)

def Shared.step (s : Shared) : Turn → Option Shared
  | .flush o => (s.act.step s.src o s.vol).map fun t => { s with act := t.1, vol := t.2 }
  | .source c => some { s with src := c }

/-- The contract of `kernel_read` and `kernel_write` on a file that changes: a transfer that
succeeds moves at least one byte, but for a read at or behind the end. -/
def Transfers (src : Bytes) (a : Act) (o : Outcome) : Prop :=
  Advances a o ∨ a.pc = .copy ∧ src.length ≤ a.pos

instance (src : Bytes) (a : Act) (o : Outcome) : Decidable (Transfers src a o) :=
  inferInstanceAs (Decidable (_ ∨ _))

/-- The guard of the runs: the primitives keep their contract and byte `p` of the source is `b`. -/
def Steady (p : Nat) (b : UInt8) (s : Shared) : Turn → Prop
  | .flush o => s.src[p]? = some b ∧ Transfers s.src s.act o
  | .source _ => s.src[p]? = some b

instance (p : Nat) (b : UInt8) (s : Shared) (t : Turn) : Decidable (Steady p b s t) := by
  unfold Steady; split <;> infer_instance

/-! ## The byte on its way

The temp file only grows at its end during the loop. A byte of the source below `pos` has therefore
been copied when it was there, and is not touched again; one above `pos` is still to come. As it
does not change, it does not matter when it is read. -/

/-- The temp file of the activation, whatever other names lead to it. -/
abbrev Tmp (a : Act) (v : Volume) (out : Bytes) : Prop := Owns (fun _ => False) a v out

/-- What is known of byte `p` at each program counter. Inside the loop the temp file ends at `pos`,
and has the byte if the loop is past it; a chunk that is to be written has it in its place. Behind
the loop the temp file has the byte if the size that was read covers it. -/
def Carries (p : Nat) (b : UInt8) (a : Act) (v : Volume) : Prop :=
  match a.pc with
  | .kstrdup | .kmallocPath | .openTmp => True
  | .dPath | .openRead | .kmallocBuf => Tmp a v []
  | .copy => ∃ out, Tmp a v out ∧ out.length = a.pos ∧ (p < a.pos → out[p]? = some b)
  | .write buf =>
    (∃ out, Tmp a v out ∧ out.length = a.pos ∧ (p < a.pos → out[p]? = some b)) ∧
      (a.pos ≤ p → p - a.pos < buf.length → buf[p - a.pos]? = some b)
  | .fsync | .close | .kmallocTmp | .lookupTmp | .lookupDir | .lookupNew | .rename =>
    ∃ out, Tmp a v out ∧ (p < a.size → out[p]? = some b)
  | .ret code => code = 0 → p < a.size → ∃ out, v.live.content a.name = some out ∧ out[p]? = some b

section

variable {p : Nat} {b : UInt8} {src : Bytes} {a a' : Act} {v v' : Volume}

/-- The chunk read at `pos` has the byte of the source. -/
theorem getElem?_pread {n : Nat} (hsrc : src[p]? = some b) (hpos : a.pos ≤ p)
    (hn : p - a.pos < (pread src a.pos n).length) : (pread src a.pos n)[p - a.pos]? = some b := by
  have hlt : p - a.pos < n := by
    simp only [pread, List.length_take] at hn
    omega
  rw [pread, List.getElem?_take_of_lt hlt, List.getElem?_drop, Nat.add_sub_cancel' hpos, hsrc]

/-- A write that takes the loop past the byte puts it into the temp file. -/
theorem getElem?_append_chunk {out buf : Bytes} {n : Nat} (hlen : out.length = a.pos)
    (hc : p < a.pos → out[p]? = some b)
    (hbuf : a.pos ≤ p → p - a.pos < buf.length → buf[p - a.pos]? = some b) (hn : n ≤ buf.length)
    (hp : p < a.pos + n) : (out ++ buf.take n)[p]? = some b := by
  rcases Nat.lt_or_ge p a.pos with hlt | hge
  · rw [List.getElem?_append_left (by omega), hc hlt]
  · rw [List.getElem?_append_right (by omega), hlen, List.getElem?_take_of_lt (by omega)]
    exact hbuf hge (by omega)

/-- The loop ends with the byte in the temp file, however it ends. -/
theorem Carries.leave (h : Carries p b a v) (hpc : a.pc = .copy) (hend : p < a.size → p < a.pos) :
    Carries p b { a with pc := .fsync } v := by
  simp only [Carries, hpc] at h
  obtain ⟨out, htmp, -, hc⟩ := h
  exact ⟨out, htmp.congr rfl rfl rfl, fun hp => hc (hend hp)⟩

/-- A step of the flush other than a read that finds nothing. -/
theorem Carries.move (h : Carries p b a v) (hsrc : src[p]? = some b) (hmove : Move src a v a' v') :
    Carries p b a' v' := by
  cases hmove with
  | fail e _ =>
    -- an error code is not 0
    intro hzero
    have hpos := e.num_pos
    omega
  | quiet q hpc =>
    -- the primitives without effect, in front of the loop and behind it
    cases hq : a.pc <;> rw [hq] at hpc <;> cases hpc <;> simp only [Carries, hq] at h ⊢
    case dPath.refl | openRead.refl => exact h.congr rfl rfl rfl
    all_goals
      obtain ⟨out, htmp, hc⟩ := h
      exact ⟨out, htmp.congr rfl rfl rfl, hc⟩
  | openTmp hpc => exact owns_openTrunc fun _ _ hW => hW.elim
  | begin hpc =>
    simp only [Carries, hpc] at h
    exact ⟨[], h.congr rfl rfl rfl, rfl, fun hp => absurd hp (Nat.not_lt_zero p)⟩
  | read n hpc =>
    simp only [Carries, hpc] at h
    obtain ⟨out, htmp, hlen, hc⟩ := h
    exact ⟨⟨out, htmp.congr rfl rfl rfl, hlen, hc⟩, getElem?_pread hsrc⟩
  | leave hpc hend => exact h.leave hpc fun hp => Nat.lt_of_lt_of_le hp hend
  | write buf n hpc _ hle =>
    simp only [Carries, hpc] at h
    obtain ⟨⟨out, htmp, hlen, hc⟩, hbuf⟩ := h
    -- the temp file ends at `pos`, so the write appends
    have hwrite := htmp.write (a.pos + n) (buf.take n)
    rw [← hlen, pwrite_end, hlen] at hwrite
    refine ⟨_, hwrite, ?_, getElem?_append_chunk hlen hc hbuf hle⟩
    rw [List.length_append, List.length_take, hlen, Nat.min_eq_left hle]
  | fsync hpc =>
    simp only [Carries, hpc] at h
    obtain ⟨out, htmp, hc⟩ := h
    exact ⟨out, htmp.congr rfl rfl rfl, hc⟩
  | rename hpc =>
    simp only [Carries, hpc] at h
    obtain ⟨out, htmp, hc⟩ := h
    -- the entry is the temp file now
    intro _ hp
    refine ⟨out, ?_, hc hp⟩
    rw [Volume.rename_live, Snapshot.content, SyncDir.rename_entry_target htmp.linked,
      SyncDir.rename_data, Option.map_some, htmp.holds]

/-- **One primitive** keeps what is known of the byte. A read of no bytes ends the loop early, but
only at or behind the end of the source, which is behind the byte. -/
theorem Carries.step {o : Outcome} (h : Carries p b a v) (hsrc : src[p]? = some b)
    (hok : Transfers src a o) (hstep : a.step src o v = some (a', v')) : Carries p b a' v' := by
  by_cases hadv : Advances a o
  · exact h.move hsrc (move_of_step hadv hstep)
  · obtain ⟨hpc, hend⟩ := hok.resolve_left hadv
    have hp : p < src.length := (List.getElem?_eq_some_iff.mp hsrc).1
    rcases idle_of_step hadv hstep with ⟨-, -, rfl, rfl⟩ | ⟨buf, hwrite, -, -⟩
    · exact h.leave hpc fun _ => by omega
    · rw [hpc] at hwrite
      cases hwrite

end

/-! ## Whole runs

A turn of a writer changes the source and nothing else. The guard says that the byte is still there
before each turn. -/

/-- What stays the same, and what is known of the byte. -/
structure CarriesInv (p : Nat) (b : UInt8) (name : Name) (s : Shared) : Prop where
  name_eq : s.act.name = name
  carries : Carries p b s.act s.vol

/-- **One turn** of the flush or of a writer. -/
theorem CarriesInv.step {p : Nat} {b : UInt8} {name : Name} {s s' : Shared} {t : Turn}
    (h : CarriesInv p b name s) (hok : Steady p b s t) (hstep : s.step t = some s') :
    CarriesInv p b name s' := by
  cases t with
  | source c =>
    cases hstep
    exact ⟨h.name_eq, h.carries⟩
  | flush o =>
    obtain ⟨⟨a', v'⟩, hact, rfl⟩ := Option.map_eq_some_iff.mp hstep
    exact ⟨(Act.step_name hact).trans h.name_eq, h.carries.step hok.1 hok.2 hact⟩

/-- **Stable bytes are copied.** Whatever writers and truncaters do to the source between the
primitives of one flush, however short the reads and writes: if byte `p`, below the size read at the
start of the copy, is there with value `b` during the whole flush, then a flush that returns 0
leaves a file with `b` at position `p`. -/
theorem stable_byte_persists (p : Nat) (b : UInt8) (name : Name) (src : Bytes) (v : Volume)
    (s : Shared)
    (hrun : Reach Shared.step (Steady p b) ⟨src, ramfsFileFlush true true name, v⟩ s)
    (hret : s.act.pc = .ret 0) (hp : p < s.act.size) :
    ∃ out, s.vol.live.content name = some out ∧ out[p]? = some b := by
  have hinv : CarriesInv p b name s :=
    hrun.inv (I := CarriesInv p b name) ⟨rfl, trivial⟩ fun _ _ _ h hok hstep => h.step hok hstep
  have hcarries := hinv.carries
  simp only [Carries, hret, hinv.name_eq] at hcarries
  exact hcarries trivial hp

/-- A two-byte file loses its second byte when the size has been read: the loop copies the first
byte and stops at the read that finds nothing. -/
def truncatedMeanwhile : List Turn :=
  List.replicate 6 (.flush (.ok 1)) ++ [.source [7]] ++ List.replicate 2 (.flush (.ok 1)) ++
    List.replicate 8 (.flush (.ok 0))

theorem stable_byte_persists_truncated :
    ∃ s : Shared, Reach Shared.step (Steady 0 7)
        ⟨[7, 9], ramfsFileFlush true true ['f'.toUInt8], .clean .empty⟩ s ∧
      s.act.size = 2 ∧ ∃ out, s.vol.live.content ['f'.toUInt8] = some out ∧ out[0]? = some 7 := by
  have hcomputed : (exec Shared.step (fun s t => decide (Steady 0 7 s t))
      ⟨[7, 9], ramfsFileFlush true true ['f'.toUInt8], .clean .empty⟩ truncatedMeanwhile).map
      (fun s => (s.act.pc, s.act.size)) = some (.ret 0, 2) := by
    decide +kernel
  obtain ⟨s, hrun, hobs⟩ := reach_of_exec_map hcomputed fun _ _ h =>
    (of_decide_eq_true h : Steady 0 7 _ _)
  simp only [Prod.mk.injEq] at hobs
  obtain ⟨hret, hsize⟩ := hobs
  exact ⟨s, hrun, hsize, stable_byte_persists 0 7 _ _ _ s hrun hret (by rw [hsize]; decide)⟩

end OsHomework.Ramfs
