import Mathlib.Algebra.Group.Nat.Defs
import OsHomework.Lib.CString

/-!
# Mmap — `file_mmap_write`

The function writes a string into a file through a shared mapping of its first `offset + length`
bytes, after it has lengthened the file if need be. `offset + content_len` is a sum of two
`size_t`; the same sum is compared with the size, passed to `ftruncate` and to `mmap`, while
`memcpy` goes to `map + offset`.

* **`fileMmapWrite_eq_pwrite`** — when the sum is an `off_t` and no system call fails, the call is a
  write of the string at the offset.
* **`runWrites_eq`** — so is any sequence of calls.
* **`safe_iff`** — when a call that fails before its `memcpy` leaves the file, and `memcpy` keeps to
  the mapping.
-/

namespace OsHomework.Mmap

open ByteFile CString

/-- `strlen`, with the bytes in front of some terminator given. -/
def strlen (s : Bytes) : Nat := (cString s).length

/-- The sum of two `size_t`. -/
def sizeSum (a b : Nat) : Nat := (a + b) % 2 ^ 64

/-- Which of the system calls succeed when their arguments are valid. -/
structure MmapEnv where
  openFile : Bool
  fstat : Bool
  ftruncate : Bool
  mmap : Bool
  msync : Bool
  munmap : Bool

/-- `ftruncate` to a length given as a `size_t`: one that is negative as an `off_t` is refused. -/
def MmapEnv.truncated (env : MmapEnv) (file : Bytes) (length : Nat) : Option Bytes :=
  if env.ftruncate = true ∧ length < 2 ^ 63 then some (resize file length) else none

/-- `mmap` of `length` bytes; an empty mapping is refused. -/
def MmapEnv.maps (env : MmapEnv) (length : Nat) : Bool := env.mmap && decide (0 < length)

/-- A `memcpy` of `len` bytes to the address `dst` bytes behind the start of a mapping of `mapLen`
bytes. -/
structure Memcpy where
  mapLen : Nat
  dst : Nat
  len : Nat
  deriving DecidableEq

/-- Every byte goes to an address of the mapping; addresses are 64-bit numbers. -/
def Memcpy.Inside (m : Memcpy) : Prop := ∀ k < m.len, (m.dst + k) % 2 ^ 64 < m.mapLen

/-- The file behind a shared mapping while bytes are copied to the mapping, in the order of their
addresses. What misses the mapping does not reach the file. -/
def memcpy (mapLen : Nat) : Nat → Bytes → Bytes → Bytes
  | _, [], file => file
  | dst, b :: src, file =>
    memcpy mapLen ((dst + 1) % 2 ^ 64) src (if dst < mapLen then file.set dst b else file)

/-- How a call ends: its value, the file, and the `memcpy` if it came to that. -/
structure WriteEnd where
  ret : Int
  file : Bytes
  copy : Option Memcpy
  deriving DecidableEq

def fileMmapWrite (env : MmapEnv) (file : Bytes) (offset : Nat) (content : Bytes) : WriteEnd :=
  if env.openFile = false then ⟨-1, file, none⟩
  else if env.fstat = false then ⟨-1, file, none⟩
  else
    -- `size_t content_len = strlen(content)`, and the sum is taken once
    let contentLen := strlen content
    let total := sizeSum offset contentLen
    match if file.length < total then env.truncated file total else some file with
    | none => ⟨-1, file, none⟩
    | some file =>
      if env.maps total = false then ⟨-1, file, none⟩
      else
        let copy := some ⟨total, offset, contentLen⟩
        let file := memcpy total offset (content.take contentLen) file
        if env.msync = false then ⟨-1, file, copy⟩
        else if env.munmap = false then ⟨-1, file, copy⟩
        else ⟨0, file, copy⟩

/-! ## The copy

Byte by byte, as `memcpy` goes through its addresses. As long as the copy keeps to the mapping, and
the file reaches to the end of it, the bytes copied replace those of the file. -/

/-- A copy inside the mapping, which the file reaches as far as. -/
theorem memcpy_eq {mapLen dst : Nat} {src file : Bytes} (hinside : dst + src.length ≤ mapLen)
    (hlt : mapLen < 2 ^ 64) (hfile : mapLen ≤ file.length) :
    memcpy mapLen dst src file = file.take dst ++ src ++ file.drop (dst + src.length) := by
  -- the bytes in front of `dst` are final, those behind are still the file's
  induction src generalizing dst file with
  | nil => simp [memcpy]
  | cons b src ih =>
    rw [List.length_cons] at hinside ⊢
    -- neither the address nor the sum wraps
    have hnext : (dst + 1) % 2 ^ 64 = dst + 1 := Nat.mod_eq_of_lt (by omega)
    have hdst : dst < mapLen := by omega
    have hfront : (file.set dst b).take (dst + 1) = file.take dst ++ [b] := by
      rw [List.take_add_one, List.take_set_of_le (Nat.le_refl _), List.getElem?_set_self (by omega)]
      rfl
    have hback : (file.set dst b).drop (dst + 1 + src.length) =
        file.drop (dst + (src.length + 1)) := by
      rw [List.drop_set_of_lt (by omega)]
      congr 1
      omega
    rw [memcpy, if_pos hdst, hnext, ih (by omega) (by rw [List.length_set]; exact hfile), hfront,
      hback]
    simp

/-- A string without a NUL is copied whole. -/
theorem strlen_of_notMem {content : Bytes} (hnul : 0 ∉ content) :
    strlen content = content.length := by
  rw [strlen, cString_eq_self hnul]

/-! ## Calls that succeed

Two ways lead to the copy. The file is long enough, or it is lengthened first, and then the zeros
between its old end and the offset are the gap that a positional write leaves. -/

/-- Every system call succeeds on valid arguments. -/
def MmapEnv.fine : MmapEnv := ⟨true, true, true, true, true, true⟩

/-- What a positional write does: the length is the larger one, the content stands at its place, a
gap is filled with zeros, and every other byte stays. -/
structure WrittenAt (old : Bytes) (offset : Nat) (content new : Bytes) : Prop where
  length : new.length = max old.length (offset + content.length)
  placed : ∀ i < content.length, new[offset + i]? = content[i]?
  gap : ∀ i, old.length ≤ i → i < offset → new[i]? = some 0
  kept : ∀ i < old.length, i < offset ∨ offset + content.length ≤ i → new[i]? = old[i]?

/-- The library's positional write has these properties. -/
theorem writtenAt_pwrite {content : Bytes} (hne : content ≠ []) (old : Bytes) (offset : Nat) :
    WrittenAt old offset content (pwrite old offset content) := by
  refine ⟨length_pwrite hne old offset, fun i hi => ?_, fun i hold hi => ?_, fun i hold hi => ?_⟩
  · rw [getElem?_pwrite hne, if_neg (by omega), if_pos (by omega), Nat.add_sub_cancel_left]
  · rw [getElem?_pwrite hne, if_pos hi, List.getElem?_eq_none hold, Option.getD_none]
  · rw [getElem?_pwrite hne]
    rcases hi with hi | hi
    · rw [if_pos hi, List.getElem?_eq_getElem hold, Option.getD_some]
    · rw [if_neg (by omega), if_neg (by omega)]

/-- **One call** is a write at the offset. -/
theorem fileMmapWrite_eq_pwrite {content : Bytes} {offset : Nat} (hne : content ≠ [])
    (hnul : 0 ∉ content) (hlt : offset + content.length < 2 ^ 63) (file : Bytes) :
    fileMmapWrite .fine file offset content =
      ⟨0, pwrite file offset content,
        some ⟨offset + content.length, offset, content.length⟩⟩ := by
  have htotal : sizeSum offset content.length = offset + content.length :=
    Nat.mod_eq_of_lt (by omega)
  have hpos : 0 < offset + content.length := by
    have := List.length_pos_of_ne_nil hne
    omega
  have hmaps : MmapEnv.fine.maps (offset + content.length) = true := by
    simp only [MmapEnv.maps, MmapEnv.fine, hpos, decide_true, Bool.and_self]
  -- the copy goes into a file that has room for it
  have hcopy : ∀ c : Bytes, offset + content.length ≤ c.length →
      memcpy (offset + content.length) offset content c =
        c.take offset ++ content ++ c.drop (offset + content.length) :=
    fun c hc => memcpy_eq (Nat.le_refl _) (by omega) hc
  simp only [fileMmapWrite, strlen_of_notMem hnul, htotal, List.take_length]
  by_cases hgrow : file.length < offset + content.length
  -- the file is lengthened: behind the copy nothing is left of it
  · have hlength : (resize file (offset + content.length)).length = offset + content.length := by
      simp only [resize, List.length_append, List.length_take, List.length_replicate]
      omega
    have hend : (resize file (offset + content.length)).drop (offset + content.length) = [] :=
      List.drop_of_length_le (Nat.le_of_eq hlength)
    have htruncated : MmapEnv.fine.truncated file (offset + content.length) =
        some (resize file (offset + content.length)) := if_pos ⟨rfl, hlt⟩
    simp only [hgrow, if_true, htruncated, hmaps, hcopy _ (Nat.le_of_eq hlength.symm), hend,
      List.append_nil, pwrite_eq_of_resize file offset hne hgrow]
    rfl
  -- the file has room
  · simp only [hgrow, if_false, hmaps, hcopy _ (Nat.le_of_not_lt hgrow),
      pwrite_of_le (show offset ≤ file.length by omega)]
    rfl

/-- Calls on one file, one after the other: their values, and the file at the end. -/
def runWrites (env : MmapEnv) : Bytes → List (Nat × Bytes) → List Int × Bytes
  | file, [] => ([], file)
  | file, (offset, content) :: calls =>
    let r := fileMmapWrite env file offset content
    let (rets, last) := runWrites env r.file calls
    (r.ret :: rets, last)

/-- **Any sequence of calls** is the sequence of writes: every call returns 0, and the file at the
end is the one that seeking to each offset and writing there gives. -/
theorem runWrites_eq (calls : List (Nat × Bytes))
    (hcalls : ∀ w ∈ calls, w.2 ≠ [] ∧ 0 ∉ w.2 ∧ w.1 + w.2.length < 2 ^ 63) (file : Bytes) :
    runWrites .fine file calls =
        (calls.map fun _ => 0, calls.foldl (fun c w => pwrite c w.1 w.2) file) ∧
      ∀ w ∈ calls, ∀ c, WrittenAt c w.1 w.2 (pwrite c w.1 w.2) := by
  refine ⟨?_, fun w hw c => writtenAt_pwrite (hcalls w hw).1 c w.1⟩
  induction calls generalizing file with
  | nil => rfl
  | cons w calls ih =>
    obtain ⟨hne, hnul, hlt⟩ := hcalls w (List.mem_cons_self ..)
    simp only [runWrites, fileMmapWrite_eq_pwrite hne hnul hlt, List.map_cons, List.foldl_cons,
      ih fun v hv => hcalls v (List.mem_cons_of_mem _ hv)]

/-- A write across the end of the file, then one behind a gap. -/
theorem runWrites_eq_gap :
    runWrites .fine [1, 2, 3] [(2, [65, 66]), (6, [67])] = ([0, 0], [1, 2, 65, 66, 0, 0, 67]) :=
  (runWrites_eq [(2, [65, 66]), (6, [67])] (by decide) [1, 2, 3]).1

/-! ## Calls that fail

The function gives up at the first system call that fails, without undoing what it has done. Up to
the `mmap` that is at most the `ftruncate`. If the sum has wrapped, the mapping is shorter than what
is copied into it, and nobody notices. -/

/-- A call that returns -1 before its `memcpy` leaves the file as it was, and `memcpy` keeps to the
mapping. -/
structure Safe (env : MmapEnv) (file : Bytes) (offset : Nat) (content : Bytes) : Prop where
  unchanged : (fileMmapWrite env file offset content).ret = -1 →
    (fileMmapWrite env file offset content).copy = none →
    (fileMmapWrite env file offset content).file = file
  inside : ∀ m ∈ (fileMmapWrite env file offset content).copy, m.Inside

/-- The call gets to its `mmap` of `total` bytes. -/
def MapsNext (env : MmapEnv) (file : Bytes) (total : Nat) : Prop :=
  env.openFile = true ∧ env.fstat = true ∧
    (file.length < total → env.ftruncate = true ∧ total < 2 ^ 63)

/-- The sum does not wrap when bytes are copied, and no `mmap` fails behind an `ftruncate`. -/
structure SafeArgs (env : MmapEnv) (file : Bytes) (offset : Nat) (content : Bytes) : Prop where
  mmap : MapsNext env file (sizeSum offset (strlen content)) →
    file.length < sizeSum offset (strlen content) → env.mmap = true
  sum : MapsNext env file (sizeSum offset (strlen content)) →
    env.maps (sizeSum offset (strlen content)) = true → offset + strlen content < 2 ^ 64

/-- The file that is mapped. -/
theorem mapped_of_room {env : MmapEnv} {file : Bytes} {total : Nat}
    (h : file.length < total → env.ftruncate = true ∧ total < 2 ^ 63) :
    (if file.length < total then env.truncated file total else some file) =
      some (if file.length < total then resize file total else file) := by
  split
  · next hgrow => exact if_pos (h hgrow)
  · rfl

theorem mapped_of_not_room {env : MmapEnv} {file : Bytes} {total : Nat}
    (h : ¬ (file.length < total → env.ftruncate = true ∧ total < 2 ^ 63)) :
    (if file.length < total then env.truncated file total else some file) = none := by
  rw [Classical.not_imp] at h
  rw [if_pos h.1]
  exact if_neg h.2

/-- A call ends in front of its `mmap` with the file as it was, at its `mmap` with the file resized
if that was needed, or behind its `memcpy`. -/
theorem fileMmapWrite_cases (env : MmapEnv) (file : Bytes) (offset : Nat) (content : Bytes) :
    (¬ MapsNext env file (sizeSum offset (strlen content)) ∧
        fileMmapWrite env file offset content = ⟨-1, file, none⟩) ∨
      (MapsNext env file (sizeSum offset (strlen content)) ∧
        env.maps (sizeSum offset (strlen content)) = false ∧
        fileMmapWrite env file offset content =
          ⟨-1, if file.length < sizeSum offset (strlen content) then
            resize file (sizeSum offset (strlen content)) else file, none⟩) ∨
      MapsNext env file (sizeSum offset (strlen content)) ∧
        env.maps (sizeSum offset (strlen content)) = true ∧
        (fileMmapWrite env file offset content).copy =
          some ⟨sizeSum offset (strlen content), offset, strlen content⟩ := by
  unfold fileMmapWrite
  dsimp only
  generalize sizeSum offset (strlen content) = total
  cases hopen : env.openFile with
  | false =>
    -- `open` fails
    refine Or.inl ⟨fun hnext => ?_, rfl⟩
    cases hopen.symm.trans hnext.1
  | true =>
    cases hfstat : env.fstat with
    | false =>
      -- `fstat` fails
      refine Or.inl ⟨fun hnext => ?_, rfl⟩
      cases hfstat.symm.trans hnext.2.1
    | true =>
      simp only [Bool.true_eq_false, if_false]
      by_cases hsize : file.length < total → env.ftruncate = true ∧ total < 2 ^ 63
      · rw [mapped_of_room hsize]
        have hnext : MapsNext env file total := ⟨hopen, hfstat, hsize⟩
        cases hmaps : env.maps total with
        | false => exact Or.inr (Or.inl ⟨hnext, rfl, rfl⟩)
        | true =>
          refine Or.inr (Or.inr ⟨hnext, rfl, ?_⟩)
          dsimp only
          rw [if_neg (by decide)]
          split
          · rfl
          · split <;> rfl
      -- `ftruncate` fails, or is given a negative length
      · rw [mapped_of_not_room hsize]
        exact Or.inl ⟨fun hnext => hsize hnext.2.2, rfl⟩

/-- Whether `memcpy` keeps to the mapping. -/
theorem inside_iff {offset len : Nat} (hoffset : offset < 2 ^ 64) (hlen : len < 2 ^ 64) :
    (Memcpy.mk (sizeSum offset len) offset len).Inside ↔ offset + len < 2 ^ 64 := by
  unfold Memcpy.Inside sizeSum
  dsimp only
  constructor
  · intro hinside
    by_contra hwrap
    -- the very first byte is behind the mapping
    have hfirst := hinside 0 (by omega)
    omega
  · intro hlt k hk
    omega

/-- **When a call is safe**: exactly when the sum does not wrap where it is used for a copy, and no
`mmap` fails behind an `ftruncate`. -/
theorem safe_iff (env : MmapEnv) (file : Bytes) (offset : Nat) (content : Bytes)
    (hoffset : offset < 2 ^ 64) (hcontent : content.length < 2 ^ 64) :
    Safe env file offset content ↔ SafeArgs env file offset content := by
  have hlen : strlen content < 2 ^ 64 := Nat.lt_of_le_of_lt (length_cString_le content) hcontent
  rcases fileMmapWrite_cases env file offset content with
    ⟨hnext, heq⟩ | ⟨hnext, hmaps, heq⟩ | ⟨hnext, hmaps, hcopy⟩
  -- the call ends in front of its `mmap`
  · refine iff_of_true ⟨fun _ _ => by rw [heq], fun m hm => ?_⟩
      ⟨fun h => absurd h hnext, fun h => absurd h hnext⟩
    rw [heq] at hm
    cases hm
  -- the `mmap` fails
  · constructor
    · intro hsafe
      refine ⟨fun _ hgrow => ?_, fun _ h => ?_⟩
      · -- the file has been resized, and its length tells
        have hfile := hsafe.unchanged (by rw [heq]) (by rw [heq])
        rw [heq, if_pos hgrow] at hfile
        have hlength := congrArg List.length hfile
        simp only [resize, List.length_append, List.length_take, List.length_replicate] at hlength
        omega
      · rw [hmaps] at h
        cases h
    · intro hargs
      have hgrow : ¬ file.length < sizeSum offset (strlen content) := by
        intro hgrow
        have hmmap := hargs.mmap hnext hgrow
        simp only [MmapEnv.maps, hmmap, Bool.true_and, decide_eq_false_iff_not] at hmaps
        omega
      rw [if_neg hgrow] at heq
      refine ⟨fun _ _ => by rw [heq], fun m hm => ?_⟩
      rw [heq] at hm
      cases hm
  -- the copy is made, so all depends on where it goes
  · have hinside : Safe env file offset content ↔
        (Memcpy.mk (sizeSum offset (strlen content)) offset (strlen content)).Inside := by
      constructor
      · intro hsafe
        exact hsafe.inside _ hcopy
      · intro hin
        refine ⟨fun _ hnone => ?_, fun m hm => ?_⟩
        · rw [hcopy] at hnone
          cases hnone
        · rw [hcopy] at hm
          cases hm
          exact hin
    rw [hinside, inside_iff hoffset hlen]
    constructor
    · intro hlt
      refine ⟨fun _ _ => ?_, fun _ _ => hlt⟩
      exact (Bool.and_eq_true_iff.mp hmaps).1
    · intro hargs
      exact hargs.sum hnext hmaps

/-- An append, with an `msync` that fails behind the copy. -/
theorem safe_iff_append :
    fileMmapWrite ⟨true, true, true, true, false, true⟩ [1] 1 [65] =
        ⟨-1, [1, 65], some ⟨2, 1, 1⟩⟩ ∧
      Safe ⟨true, true, true, true, false, true⟩ [1] 1 [65] := by
  refine ⟨by decide +kernel, ?_⟩
  rw [safe_iff ⟨true, true, true, true, false, true⟩ [1] 1 [65] (by decide) (by decide)]
  exact ⟨fun _ _ => rfl, fun _ _ => by decide⟩

/-- Two calls that are not safe. The `mmap` fails behind the `ftruncate`, and the file stays longer
by three bytes; the sum wraps to 1, one byte is mapped, and the copy goes to the address in front of
the mapping. -/
theorem not_safe :
    (fileMmapWrite ⟨true, true, true, false, true, true⟩ [1] 3 [65] = ⟨-1, [1, 0, 0, 0], none⟩ ∧
        ¬ Safe ⟨true, true, true, false, true, true⟩ [1] 3 [65]) ∧
      fileMmapWrite .fine [1] (2 ^ 64 - 1) [65, 66] =
          ⟨0, [66], some ⟨1, 2 ^ 64 - 1, 2⟩⟩ ∧
        ¬ Safe .fine [1] (2 ^ 64 - 1) [65, 66] := by
  have hgrown : fileMmapWrite ⟨true, true, true, false, true, true⟩ [1] 3 [65] =
      ⟨-1, [1, 0, 0, 0], none⟩ := by decide +kernel
  have hwrapped : fileMmapWrite .fine [1] (2 ^ 64 - 1) [65, 66] =
      ⟨0, [66], some ⟨1, 2 ^ 64 - 1, 2⟩⟩ := by decide +kernel
  refine ⟨⟨hgrown, fun hsafe => ?_⟩, hwrapped, fun hsafe => ?_⟩
  · have hfile := hsafe.unchanged (by rw [hgrown]) (by rw [hgrown])
    rw [hgrown] at hfile
    cases hfile
  · have hinside := hsafe.inside ⟨1, 2 ^ 64 - 1, 2⟩ (by rw [hwrapped]; rfl)
    exact absurd (hinside 0 (by decide)) (by decide)

end OsHomework.Mmap
