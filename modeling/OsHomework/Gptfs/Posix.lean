import OsHomework.Gptfs.Workers

/-!
# Gptfs — the input file against a POSIX byte file

`write` slices `content[:offset] + data` and `truncate` slices `content[:length]`. Neither fills
with zero bytes, so the two agree with a POSIX file exactly as long as no write starts behind the
end and no truncate asks for more than there is.

* **`reads_posix_iff`** — over any sequence of changes, with reads placed anywhere, all answers are
  those of the POSIX file if and only if every change is in range.
-/

namespace OsHomework.Gptfs

open ByteFile Lts

/-! ## Calls on one file

The program under consideration is a sequence of calls on one input file. A change is a write or a
truncate; reads are put anywhere between the changes to observe the content. -/

/-- A change of the file. -/
inductive Change where
  | write (data : Bytes) (offset : Nat)
  | truncate (length : Nat)

/-- A call on the file: a change or a read. -/
inductive FileCall where
  | change (ch : Change)
  | read (size offset : Nat)

def FileCall.change? : FileCall → Option Change
  | .change ch => some ch
  | .read _ _ => none

/-- The changes of a sequence of calls, each with the time it is made at. -/
def changesOf (calls : List (FileCall × Nat)) : List Change := calls.filterMap (·.1.change?)

def FileCall.op (path : Str) : FileCall → Op
  | .change (.write data offset) => .write path data offset
  | .change (.truncate length) => .truncate path length
  | .read size offset => .read path size offset

/-- The answers of the file system to calls on `path`. -/
def answers (path : Str) : GPTfs → List (FileCall × Nat) → List (Except PyError Reply)
  | _, [] => []
  | fs, (c, now) :: calls =>
    (fs.call (c.op path) now).1 :: answers path (fs.call (c.op path) now).2.1 calls

/-! ## The POSIX file

The same sequence on a POSIX file, with the operations of `ByteFile`: a write behind the end fills
the gap with zero bytes, and so does a truncate that lengthens. `InRange` has neither. -/

/-- The POSIX file after a change. -/
def Change.apply (c : Bytes) : Change → Bytes
  | .write data offset => pwrite c offset data
  | .truncate length => resize c length

def FileCall.apply (c : Bytes) : FileCall → Bytes
  | .change ch => ch.apply c
  | .read _ _ => c

/-- What a call returns on the POSIX file. -/
def FileCall.reply (c : Bytes) : FileCall → Reply
  | .change (.write data _) => .number data.length
  | .change (.truncate _) => .nothing
  | .read size offset => .bytes (pread c offset size)

/-- The answers of the POSIX file. -/
def posixAnswers : Bytes → List (FileCall × Nat) → List (Except PyError Reply)
  | _, [] => []
  | c, (call, _) :: calls => .ok (call.reply c) :: posixAnswers (call.apply c) calls

/-- The change neither starts behind the end of the file nor asks for more than there is. -/
def Change.InRange (c : Bytes) : Change → Prop
  | .write data offset => data = [] ∨ offset ≤ c.length
  | .truncate length => length ≤ c.length

/-- Each change is in range of the POSIX file before it. -/
def InRange : Bytes → List Change → Prop
  | _, [] => True
  | c, ch :: chs => ch.InRange c ∧ InRange (ch.apply c) chs

/-! ## One change

For one change the question is whether two contents are equal, and out of range already their
lengths differ. -/

/-- The content `write` and `truncate` compute. -/
def Change.sliced (c : Bytes) : Change → Bytes
  | .write data offset => newContent c data offset
  | .truncate length => c.take length

/-- The condition in the source makes no difference: behind the end there is nothing to append. -/
theorem newContent_eq (c data : Bytes) (offset : Nat) :
    newContent c data offset = c.take offset ++ data ++ c.drop (offset + data.length) := by
  unfold newContent
  split
  · rfl
  · rw [List.drop_of_length_le (by omega), List.append_nil]

/-- **The slices are the POSIX operations exactly in range.** -/
theorem sliced_eq_apply_iff (c : Bytes) (ch : Change) :
    ch.sliced c = ch.apply c ↔ ch.InRange c := by
  cases ch with
  | write data offset =>
    simp only [Change.sliced, Change.apply, Change.InRange, newContent_eq]
    constructor
    -- out of range, the gap is missing from the slice
    · intro heq
      by_contra hnot
      push Not at hnot
      have hlen := congrArg List.length heq
      simp only [pwrite, hnot.1, if_false, List.length_append, List.length_take, List.length_drop,
        List.length_replicate] at hlen
      omega
    · rintro (rfl | hle)
      · simp
      · rw [pwrite_of_le hle]
  | truncate length =>
    simp only [Change.sliced, Change.apply, Change.InRange, resize]
    -- a slice is never longer than the content
    constructor
    · intro heq
      have hlen := congrArg List.length heq
      simp only [List.length_append, List.length_take, List.length_replicate] at hlen
      omega
    · intro hle
      rw [Nat.sub_eq_zero_of_le hle, List.replicate_zero, List.append_nil]

/-! ## Sequences

In range the contents stay equal, call by call. Conversely, at the first change that is out of range
a read of everything shows the difference, and the statement allows a read at that place. -/

variable {fs : GPTfs} {s : Str} {c : Bytes}

/-- A slice is what `pread` returns. -/
theorem call_read (hfile : fs.files (filePath s inputName) = some c) (size offset now : Nat) :
    fs.call (.read (filePath s inputName) size offset) now =
      (.ok (.bytes (pread c offset size)), fs, none) := by
  have hread : fs.read (filePath s inputName) size offset = .ok (pread c offset size) := by
    rw [GPTfs.read, fullPath_filePath, hfile, pread]
    simp only [List.drop_take, Nat.add_sub_cancel_left]
  simp only [GPTfs.call, hread]
  rfl

/-- A change of the input answers as the POSIX file does and leaves the slice. -/
theorem GPTfs.Wf.call_change (h : fs.Wf) (hs : s ∈ fs.sessions)
    (hfile : fs.files (filePath s inputName) = some c) (ch : Change) (now : Nat) :
    (fs.call ((FileCall.change ch).op (filePath s inputName)) now).1 =
        .ok ((FileCall.change ch).reply c) ∧
      (fs.call ((FileCall.change ch).op (filePath s inputName)) now).2.1.files
        (filePath s inputName) = some (ch.sliced c) := by
  obtain ⟨attr, hattr⟩ := h.attr_of_file (by rw [hfile]; rfl : (fs.files _).isSome)
  cases ch with
  | write data offset =>
    rw [FileCall.op, h.call_write hs rfl hfile hattr]
    exact ⟨rfl, Function.update_self ..⟩
  | truncate length =>
    rw [FileCall.op, h.call_truncate hs rfl hfile hattr]
    exact ⟨rfl, Function.update_self ..⟩

/-- In range all answers are equal, by induction on the calls. -/
theorem answers_of_inRange (h : fs.Wf) (hs : s ∈ fs.sessions)
    (hfile : fs.files (filePath s inputName) = some c) (calls : List (FileCall × Nat))
    (hrange : InRange c (changesOf calls)) :
    answers (filePath s inputName) fs calls = posixAnswers c calls := by
  induction calls generalizing fs c with
  | nil => rfl
  | cons call calls ih =>
    obtain ⟨call, now⟩ := call
    cases call with
    -- a read: the contents are equal and stay as they are
    | read size offset =>
      rw [answers, posixAnswers, FileCall.op, call_read hfile]
      exact congrArg _ (ih h hs hfile hrange)
    -- a change: in range the slice is what POSIX has
    | change ch =>
      obtain ⟨hreply, hfile'⟩ := h.call_change hs hfile ch now
      rw [(sliced_eq_apply_iff c ch).mpr hrange.1] at hfile'
      rw [answers, posixAnswers, hreply]
      refine congrArg _ (ih ((h.effect _ now).wf h) ((h.effect _ now).sessions_subset hs) hfile' ?_)
      exact hrange.2

/-- The other direction, by induction on the changes. -/
theorem inRange_of_answers (h : fs.Wf) (hs : s ∈ fs.sessions)
    (hfile : fs.files (filePath s inputName) = some c) (chs : List Change)
    (hagree : ∀ calls, changesOf calls = chs →
      answers (filePath s inputName) fs calls = posixAnswers c calls) : InRange c chs := by
  induction chs generalizing fs c with
  | nil => trivial
  | cons ch chs ih =>
    obtain ⟨-, hfile'⟩ := h.call_change hs hfile ch 0
    -- a read right after the change compares the whole contents
    have heq : ch.sliced c = ch.apply c := by
      refine eq_of_pread_eq fun off len => ?_
      have hanswers := hagree
        ((.change ch, 0) :: (.read len off, 0) :: chs.map fun ch => (.change ch, 0)) (by
          simp [changesOf, FileCall.change?, List.filterMap_map])
      simp only [answers, posixAnswers] at hanswers
      obtain ⟨-, hread, -⟩ := List.cons.inj hanswers |>.imp_right List.cons.inj
      rw [show (FileCall.read len off).op (filePath s inputName) =
        .read (filePath s inputName) len off from rfl, call_read hfile'] at hread
      exact Reply.bytes.inj (Except.ok.inj hread)
    refine ⟨(sliced_eq_apply_iff c ch).mp heq, ?_⟩
    -- the rest of the changes, from the content both have now
    rw [heq] at hfile'
    refine ih ((h.effect _ 0).wf h) ((h.effect _ 0).sessions_subset hs) hfile' ?_
    intro calls hcalls
    have hanswers := hagree ((.change ch, 0) :: calls) (by
      rw [← hcalls]
      rfl)
    exact (List.cons.inj hanswers).2

/-- **The input file is a POSIX byte file exactly in range.** In every state the mounted file system
reaches, for every session and every sequence of changes of its input: the answers to these changes
and to reads placed anywhere between them are those of the POSIX file with the same content, if and
only if no write starts behind the end of the file and no truncate asks for more than there is. -/
theorem reads_posix_iff (uid gid now : Nat) (σ : Sys)
    (hreach : Reach Sys.step (fun _ _ => True) (Sys.init uid gid now) σ) (s : Str)
    (hs : s ∈ σ.fs.sessions) :
    ∃ c, σ.fs.files (filePath s inputName) = some c ∧
      ∀ chs, (∀ calls, changesOf calls = chs →
          answers (filePath s inputName) σ.fs calls = posixAnswers c calls) ↔ InRange c chs := by
  have hwf := (Sys.wf_init uid gid now).of_reach hreach
  obtain ⟨c, hfile⟩ := Option.isSome_iff_exists.mp (hwf.fs_wf.isSome_file hs inputName_mem)
  refine ⟨c, hfile, fun chs => ⟨inRange_of_answers hwf.fs_wf hs hfile chs, ?_⟩⟩
  rintro hrange calls rfl
  exact answers_of_inRange hwf.fs_wf hs hfile calls hrange

/-- Overwriting, appending and cutting, with reads in between. -/
def inRangeCalls : List (FileCall × Nat) :=
  [(.change (.write [1, 2] 0), 0), (.change (.write [3] 1), 0), (.read 4 0, 0),
    (.change (.write [4] 2), 0), (.read 4 1, 0), (.change (.truncate 1), 0), (.read 4 0, 0)]

/-- The session `s` right after its creation. -/
theorem reads_posix_iff_oneSession :
    ['s'] ∈ oneSession.fs.sessions ∧
      answers (filePath ['s'] inputName) oneSession.fs inRangeCalls =
        posixAnswers [] inRangeCalls := by
  have hs : ['s'] ∈ oneSession.fs.sessions := by decide
  obtain ⟨c, hfile, hiff⟩ := reads_posix_iff 0 0 0 oneSession (oneSession_reach trivial) ['s'] hs
  have hc : c = [] := Option.some.inj (hfile.symm.trans (by decide))
  subst hc
  refine ⟨hs, (hiff (changesOf inRangeCalls)).mpr ?_ inRangeCalls rfl⟩
  simp [changesOf, inRangeCalls, FileCall.change?, InRange, Change.InRange, Change.apply, pwrite]

/-- On a new file a write at offset 2 puts its byte at offset 0, and a truncate to length 2 leaves
the file empty. -/
theorem gap_is_not_filled :
    answers (filePath ['s'] inputName) oneSession.fs
        [(.change (.write [1] 2), 0), (.read 4 0, 0)] =
          [.ok (.number 1), .ok (.bytes [1])] ∧
      posixAnswers [] [(.change (.write [1] 2), 0), (.read 4 0, 0)] =
          [.ok (.number 1), .ok (.bytes [0, 0, 1])] ∧
      answers (filePath ['s'] inputName) oneSession.fs
        [(.change (.truncate 2), 0), (.read 4 0, 0)] = [.ok .nothing, .ok (.bytes [])] ∧
      posixAnswers [] [(.change (.truncate 2), 0), (.read 4 0, 0)] =
          [.ok .nothing, .ok (.bytes [0, 0])] := by
  decide +kernel

end OsHomework.Gptfs
