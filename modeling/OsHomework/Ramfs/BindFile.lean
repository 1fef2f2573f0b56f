import Mathlib.Algebra.Group.Int.Defs
import OsHomework.Lib.Fields
import OsHomework.Lib.Table
import OsHomework.Ramfs.Bind

/-!
# Ramfs — the file `/proc/fs/ramfs/bind`

Writes set the bound directory, reads print it. A write ends early at one of five places; a read
formats the whole text each time and hands out the part at the reader's offset, with an `int`
length, a signed 64-bit offset and an unsigned count.

* **`parseMountPath_tokens`** — the parser finds the first two tokens of the input.
* **`BindInv.step`** — the string is the second token of the last successful write, and a reader
  that no such write has disturbed has received what stands in front of its offset.
* **`bindFile_correct`** — for every sequence of writes and reads: failed writes change nothing,
  successful ones bind the second token, and a reader that gets 0 has received the whole text.
-/

namespace OsHomework.Ramfs

open ByteFile Fields Lts Table

/-! ## Tokens

What the parser finds is described without it: the stretches of the input that consist of token
bytes. The parser is stricter, since it refuses a newline in front of a token. -/

/-- The tokens of a text: what stands between blanks, ends of lines and NULs. -/
def tokens (buffer : Bytes) : List Path := fields (fun b => !inToken b) buffer

/-- A token that is parsed is the first one of the text. -/
theorem parseToken_tokens {buffer rest : Bytes} {token : Path}
    (h : parseToken buffer = .ok (token, rest)) : tokens buffer = token :: tokens rest := by
  have hne := (parseToken_ok h).1
  -- the token is the longest stretch behind the blanks
  have htoken : token = (buffer.dropWhile isBlank).takeWhile inToken ∧
      rest = (buffer.dropWhile isBlank).dropWhile inToken := by
    simp only [parseToken] at h
    split at h
    · cases h
    · split at h
      · cases h
      · cases h
        exact ⟨rfl, rfl⟩
  have hsplit : token ++ rest = buffer.dropWhile isBlank := by
    rw [htoken.1, htoken.2, List.takeWhile_append_dropWhile]
  -- blanks are no token bytes, so skipping them changes no field
  have hblank : ∀ b, isBlank b = true → (!inToken b) = true := by
    intro b hb
    simp [inToken, hb]
  unfold tokens
  rw [← fields_dropWhile hblank buffer, ← hsplit]
  apply fields_append hne
  -- the token consists of token bytes
  · intro b hb
    rw [htoken.1] at hb
    rw [List.all_eq_true.mp List.all_takeWhile b hb]
    rfl
  -- and ends where it cannot go on
  · intro b hb
    have hnot := List.head?_dropWhile_not inToken (buffer.dropWhile isBlank)
    rw [← htoken.2, hb] at hnot
    simpa using hnot

/-- The two paths of an accepted line are its first two tokens. -/
theorem parseMountPath_tokens {buffer : Bytes} {ramfsPath syncPath : Path}
    (h : parseMountPath buffer = .ok (ramfsPath, syncPath)) :
    ∃ more, tokens buffer = ramfsPath :: syncPath :: more := by
  unfold parseMountPath at h
  obtain ⟨⟨first, rest⟩, hfirst, h⟩ := ok_of_bind h
  obtain ⟨⟨second, rest'⟩, hsecond, h⟩ := ok_of_bind h
  cases h
  exact ⟨tokens rest', by rw [parseToken_tokens hfirst, parseToken_tokens hsecond]⟩

/-! ## The two operations

A read mixes an `int`, a `loff_t` and a `size_t`, so that its comparison is one of unsigned numbers.
With an offset that is not negative and a text that fits the buffer it is the plain one. -/

/-- The bytes of a literal. -/
def literal (s : String) : Bytes := s.toList.map Char.toUInt8

/-- What the file reads as. -/
def bindText : Option Path → Bytes
  | none => literal "No sync directory bound\n"
  | some syncDir => syncDir ++ literal "\n"

/-- `snprintf` of a text into a buffer: what the buffer holds in front of the NUL, and the length
the text has. -/
def snprintf (size : Nat) (text : Bytes) : Bytes × Int := (text.take (size - 1), text.length)

/-- A signed 64-bit number where an unsigned one is needed. -/
def toUnsigned (n : Int) : Nat := (n % 2 ^ 64).toNat

/-- What a read returns, the bytes it delivers, and the offset it leaves. -/
structure ReadResult where
  ret : Int
  data : Bytes
  ppos : Int

/-- `ramfs_proc_bind_read`; `copyToUser` says whether the bytes could be delivered. -/
def ramfsProcBindRead (syncDir : Option Path) (count : Nat) (copyToUser : Bool) (ppos : Int) :
    ReadResult :=
  let (temp, len) := snprintf pathMax (bindText syncDir)
  -- behind the end there is nothing to read, at any count
  if len ≤ ppos then ⟨0, [], ppos⟩
  else
    -- the comparison is one of unsigned numbers
    let count := if toUnsigned (len - ppos) < count then toUnsigned (len - ppos) else count
    if !copyToUser then ⟨-14, [], ppos⟩
    else ⟨count, (temp.drop ppos.toNat).take count, ppos + count⟩

/-- What a write returns and the string it leaves. -/
def bindWrite (ns : Namespace) (env : BindEnv) (cwd : Node) (buf : Bytes) (syncDir : Option Path) :
    Int × Option Path :=
  match ramfsProcBindWrite ns env cwd buf with
  | .error e => (-e.num, syncDir)
  | .ok syncPath => (buf.length, some syncPath)

/-- A write that returns a negative number leaves the string, one that does not returns the number
of its bytes and makes the string its second token. -/
theorem bindWrite_cases (ns : Namespace) (env : BindEnv) (cwd : Node) (buf : Bytes)
    (syncDir : Option Path) :
    ((bindWrite ns env cwd buf syncDir).1 < 0 ∧
        (bindWrite ns env cwd buf syncDir).2 = syncDir) ∨
      ((bindWrite ns env cwd buf syncDir).1 = buf.length ∧
        ∃ token, (tokens buf)[1]? = some token ∧ token.length < ramfsMaxPath ∧
          (bindWrite ns env cwd buf syncDir).2 = some token) := by
  unfold bindWrite
  cases h : ramfsProcBindWrite ns env cwd buf with
  | error e =>
    have hpos := e.num_pos
    exact Or.inl ⟨by dsimp only; omega, rfl⟩
  | ok token =>
    obtain ⟨ramfsPath, dir, hparse, -⟩ := ramfsProcBindWrite_ok h
    obtain ⟨more, htokens⟩ := parseMountPath_tokens hparse
    refine Or.inr ⟨rfl, token, ?_, (parseMountPath_ok hparse).2.2, rfl⟩
    rw [htokens]
    rfl

/-- The text of a string that was accepted fits the buffer it is formatted into. -/
theorem length_bindText_lt {syncDir : Option Path}
    (h : ∀ path ∈ syncDir, path.length < ramfsMaxPath) :
    (bindText syncDir).length < pathMax := by
  cases syncDir with
  | none => decide
  | some path =>
    have hpath : path.length < 256 := h path rfl
    have htext : (bindText (some path)).length = path.length + 1 := by
      unfold bindText
      rw [List.length_append]
      rfl
    rw [htext]
    unfold pathMax
    omega

/-- What a read at offset `n` does when the text fits: nothing behind the end, else it delivers what
is there and was asked for. -/
theorem ramfsProcBindRead_eq {syncDir : Option Path} (hfits : (bindText syncDir).length < pathMax)
    (count n : Nat) (copyToUser : Bool) :
    ramfsProcBindRead syncDir count copyToUser n =
      if (bindText syncDir).length ≤ n then ⟨0, [], n⟩
      else if copyToUser then
        ⟨((((bindText syncDir).drop n).take count).length : Nat),
          ((bindText syncDir).drop n).take count,
          (n + (((bindText syncDir).drop n).take count).length : Nat)⟩
      else ⟨-14, [], n⟩ := by
  unfold ramfsProcBindRead snprintf
  generalize bindText syncDir = text at hfits
  have htemp : text.take (pathMax - 1) = text := List.take_of_length_le (by omega)
  simp only [htemp, Int.ofNat_le, Int.toNat_natCast]
  by_cases hend : text.length ≤ n
  -- at the end
  · rw [if_pos hend, if_pos hend]
  · rw [if_neg hend, if_neg hend]
    -- the length fits an `int`, so the unsigned difference is the plain one
    have hleft : toUnsigned (text.length - n) = text.length - n := by
      unfold toUnsigned
      unfold pathMax at hfits
      omega
    -- what is delivered is what is left, or as much as was asked for
    have hcount : (if text.length - n < count then text.length - n else count) =
        ((text.drop n).take count).length := by
      rw [List.length_take, List.length_drop]
      split <;> omega
    have hdata : (text.drop n).take ((text.drop n).take count).length =
        (text.drop n).take count := by
      rw [List.length_take, ← List.take_eq_take_min]
    rw [hleft, hcount, hdata]
    cases copyToUser with
    | false => rfl
    | true => rfl

/-! ## Writers and readers

A reader goes through the text in several reads, between which the text may change. What it has
received is then a mixture, and nothing is said about it; a reader that no successful write has come
between has the whole text when it gets 0. -/

/-- A reader: its offset, what it has received since it was at offset 0, and whether no write has
succeeded since then. -/
structure Reader where
  ppos : Int
  got : Bytes
  undisturbed : Bool

/-- The bound string, the readers, and the writes so far with what they returned, oldest first. -/
structure BindFile (R : Type*) where
  syncDir : Option Path
  readers : R → Option Reader
  log : List (Bytes × Int)

/-- A write, a reader that begins at offset 0, or one of its reads. -/
inductive BindLabel (R : Type*) where
  | write (ns : Namespace) (env : BindEnv) (cwd : Node) (buf : Bytes)
  | start (r : R)
  | read (r : R) (count : Nat) (copyToUser : Bool)

variable {R : Type*} [DecidableEq R]

/-- Nothing bound and nobody reading. -/
def BindFile.init : BindFile R where
  syncDir := none
  readers := fun _ => none
  log := []

/-- One call on the file. -/
def BindFile.step (s : BindFile R) : BindLabel R → Option (BindFile R)
  | .write ns env cwd buf =>
    let w := bindWrite ns env cwd buf s.syncDir
    some {
      -- a write that succeeds disturbs every reader that is under way
      syncDir := w.2
      readers := fun r => (s.readers r).map fun x =>
        { x with undisturbed := x.undisturbed && decide (w.1 < 0) }
      log := s.log ++ [(buf, w.1)] }
  | .start r => some { s with readers := Function.update s.readers r (some ⟨0, [], true⟩) }
  | .read r count copyToUser =>
    (s.readers r).map fun x =>
      let y := ramfsProcBindRead s.syncDir count copyToUser x.ppos
      { s with
        readers := Function.update s.readers r
          (some { x with ppos := y.ppos, got := x.got ++ y.data }) }

/-- The string of the last successful write, by what it was given. -/
def lastBound (log : List (Bytes × Int)) : Option Path :=
  (log.reverse.find? fun w => 0 ≤ w.2).bind fun w => (tokens w.1)[1]?

/-- One write more. -/
theorem lastBound_concat (log : List (Bytes × Int)) (buf : Bytes) (ret : Int) :
    lastBound (log ++ [(buf, ret)]) = if 0 ≤ ret then (tokens buf)[1]? else lastBound log := by
  unfold lastBound
  rw [List.reverse_append, List.reverse_singleton, List.singleton_append, List.find?_cons]
  by_cases h : 0 ≤ ret
  · simp [h]
  · simp [h]

/-- The offset of a reader is not negative, and an undisturbed reader has received what stands in
front of it. -/
structure Reader.Ok (syncDir : Option Path) (x : Reader) : Prop where
  ppos_nonneg : 0 ≤ x.ppos
  received : x.undisturbed = true →
    x.ppos = x.got.length ∧ x.got <+: bindText syncDir

/-- The bound string fits, is that of the last successful write, and is what the readers have seen.
-/
structure BindInv (s : BindFile R) : Prop where
  fits : ∀ path ∈ s.syncDir, path.length < ramfsMaxPath
  syncDir_eq : s.syncDir = lastBound s.log
  readers : ∀ r, ∀ x ∈ s.readers r, x.Ok s.syncDir

omit [DecidableEq R] in
/-- The invariant before the first call. -/
theorem bindInv_init : BindInv (BindFile.init : BindFile R) where
  fits := fun path hpath => absurd hpath (Option.not_mem_none path)
  syncDir_eq := rfl
  readers := fun _ x hx => absurd hx (Option.not_mem_none x)

/-- A read moves the reader on by what it delivers. -/
theorem Reader.Ok.read {syncDir : Option Path} {x : Reader} (h : x.Ok syncDir)
    (hfits : ∀ path ∈ syncDir, path.length < ramfsMaxPath) (count : Nat) (copyToUser : Bool) :
    Reader.Ok syncDir { x with
      ppos := (ramfsProcBindRead syncDir count copyToUser x.ppos).ppos
      got := x.got ++ (ramfsProcBindRead syncDir count copyToUser x.ppos).data } := by
  obtain ⟨n, hn⟩ := Int.eq_ofNat_of_zero_le h.ppos_nonneg
  rw [hn, ramfsProcBindRead_eq (length_bindText_lt hfits)]
  split
  -- at the end of the text nothing is delivered
  · refine ⟨Int.natCast_nonneg n, fun hundisturbed => ?_⟩
    rw [List.append_nil, ← hn]
    exact h.received hundisturbed
  · split
    · refine ⟨Int.natCast_nonneg _, fun hundisturbed => ?_⟩
      obtain ⟨hpos, hprefix⟩ := h.received hundisturbed
      obtain rfl : n = x.got.length := by omega
      refine ⟨by rw [List.length_append], ?_⟩
      -- what was received, then the next piece of the text
      obtain ⟨rest, hrest⟩ := hprefix
      rw [← hrest, List.drop_left]
      exact (List.prefix_append_right_inj _).mpr (List.take_prefix count rest)
    -- nor if the bytes cannot be copied
    · refine ⟨Int.natCast_nonneg n, fun hundisturbed => ?_⟩
      rw [List.append_nil, ← hn]
      exact h.received hundisturbed

/-- **One call** keeps the invariant. -/
theorem BindInv.step {s s' : BindFile R} {l : BindLabel R} (h : BindInv s)
    (hstep : s.step l = some s') : BindInv s' := by
  cases l with
  | write ns env cwd buf =>
    cases hstep
    rcases bindWrite_cases ns env cwd buf s.syncDir with
      ⟨hneg, hsame⟩ | ⟨hret, token, htoken, hlength, hnew⟩
    -- a write that fails
    · refine ⟨?_, ?_, ?_⟩ <;> dsimp only
      · rw [hsame]
        exact h.fits
      · rw [hsame, lastBound_concat, if_neg (by omega)]
        exact h.syncDir_eq
      · intro r x hx
        obtain ⟨y, hy, rfl⟩ := Option.map_eq_some_iff.mp hx
        have hok := h.readers r y hy
        refine ⟨hok.ppos_nonneg, fun hundisturbed => ?_⟩
        rw [hsame]
        exact hok.received (Bool.and_eq_true_iff.mp hundisturbed).1
    -- a write that succeeds
    · refine ⟨?_, ?_, ?_⟩ <;> dsimp only
      · rw [hnew]
        intro path hpath
        cases hpath
        exact hlength
      · rw [hnew, lastBound_concat, if_pos (by omega), htoken]
      · intro r x hx
        obtain ⟨y, hy, rfl⟩ := Option.map_eq_some_iff.mp hx
        refine ⟨(h.readers r y hy).ppos_nonneg, fun hundisturbed => ?_⟩
        -- a successful write disturbs every reader
        have hnot := of_decide_eq_true (Bool.and_eq_true_iff.mp hundisturbed).2
        omega
  | start r =>
    cases hstep
    refine ⟨h.fits, h.syncDir_eq, ?_⟩
    intro r' x hx
    rcases of_update_eq_some hx with ⟨-, rfl⟩ | ⟨-, hx⟩
    -- a reader that starts
    · exact ⟨Int.le_refl 0, fun _ => ⟨rfl, List.nil_prefix⟩⟩
    · exact h.readers r' x hx
  | read r count copyToUser =>
    obtain ⟨x, hx, rfl⟩ := Option.map_eq_some_iff.mp hstep
    refine ⟨h.fits, h.syncDir_eq, ?_⟩
    intro r' x' hx'
    -- the reader itself, and the others
    rcases of_update_eq_some hx' with ⟨-, rfl⟩ | ⟨-, hx'⟩
    · exact (h.readers r x hx).read h.fits count copyToUser
    · exact h.readers r' x' hx'

/-- What a reader that gets 0 has received. -/
theorem Reader.Ok.complete {syncDir : Option Path} {x : Reader} (h : x.Ok syncDir)
    (hfits : ∀ path ∈ syncDir, path.length < ramfsMaxPath) {count : Nat} (hcount : 0 < count)
    {copyToUser : Bool} (hundisturbed : x.undisturbed = true)
    (hret : (ramfsProcBindRead syncDir count copyToUser x.ppos).ret = 0) :
    x.got = bindText syncDir := by
  obtain ⟨hpos, hprefix⟩ := h.received hundisturbed
  rw [hpos, ramfsProcBindRead_eq (length_bindText_lt hfits)] at hret
  split at hret
  · next hend => exact hprefix.eq_of_length_le hend
  · next hend =>
    split at hret
    · -- there was something to deliver
      simp only [List.length_take, List.length_drop] at hret
      omega
    · cases hret

/-- A read delivers as many bytes as it says, and not more than were asked for. -/
theorem ramfsProcBindRead_bounded {syncDir : Option Path}
    (hfits : ∀ path ∈ syncDir, path.length < ramfsMaxPath) (count : Nat) (copyToUser : Bool)
    {ppos : Int} (hppos : 0 ≤ ppos) :
    (ramfsProcBindRead syncDir count copyToUser ppos).ret ≤ count ∧
      (ramfsProcBindRead syncDir count copyToUser ppos).data.length =
        (ramfsProcBindRead syncDir count copyToUser ppos).ret.toNat := by
  obtain ⟨n, rfl⟩ := Int.eq_ofNat_of_zero_le hppos
  rw [ramfsProcBindRead_eq (length_bindText_lt hfits)]
  split
  · exact ⟨Int.natCast_nonneg count, rfl⟩
  · split
    · refine ⟨?_, rfl⟩
      simp only [List.length_take]
      omega
    · refine ⟨?_, rfl⟩
      show (-14 : Int) ≤ count
      omega

/-- **The bind file.** After every sequence of writes, with whatever answers of the kernel, and of
reads:
- a write that returns a negative number leaves the bound string, and one that does not returns its
  count and makes the string the second token of its input;
- the string is that of the last successful write;
- a read delivers as many bytes as it returns, never more than its count, and a reader whose read
  with a positive count returns 0, with no successful write since it was at offset 0, has received
  exactly the text of the last successful write, or the message for none. -/
theorem bindFile_correct (s : BindFile R) (h : Reach BindFile.step (fun _ _ => True) .init s) :
    (∀ ns env cwd buf,
      ((bindWrite ns env cwd buf s.syncDir).1 < 0 →
        (bindWrite ns env cwd buf s.syncDir).2 = s.syncDir) ∧
      (0 ≤ (bindWrite ns env cwd buf s.syncDir).1 →
        (bindWrite ns env cwd buf s.syncDir).1 = buf.length ∧
          ∃ token, (tokens buf)[1]? = some token ∧
            (bindWrite ns env cwd buf s.syncDir).2 = some token)) ∧
    s.syncDir = lastBound s.log ∧
    ∀ r x count copyToUser, s.readers r = some x → 0 < count →
      (ramfsProcBindRead s.syncDir count copyToUser x.ppos).ret ≤ count ∧
      (ramfsProcBindRead s.syncDir count copyToUser x.ppos).data.length =
        (ramfsProcBindRead s.syncDir count copyToUser x.ppos).ret.toNat ∧
      (x.undisturbed = true → (ramfsProcBindRead s.syncDir count copyToUser x.ppos).ret = 0 →
        x.got = bindText (lastBound s.log)) := by
  have hinv : BindInv s := h.inv bindInv_init fun _ _ _ hinv _ hstep => hinv.step hstep
  refine ⟨?_, hinv.syncDir_eq, ?_⟩
  -- the writes
  · intro ns env cwd buf
    rcases bindWrite_cases ns env cwd buf s.syncDir with
      ⟨hneg, hsame⟩ | ⟨hret, token, htoken, -, hnew⟩
    · exact ⟨fun _ => hsame, fun hnonneg => by omega⟩
    · exact ⟨fun hneg => by omega, fun _ => ⟨hret, token, htoken, hnew⟩⟩
  -- the reads
  · intro r x count copyToUser hx hcount
    have hok := hinv.readers r x hx
    obtain ⟨hle, hlength⟩ :=
      ramfsProcBindRead_bounded hinv.fits count copyToUser hok.ppos_nonneg
    refine ⟨hle, hlength, fun hundisturbed hret => ?_⟩
    rw [← hinv.syncDir_eq]
    exact hok.complete hinv.fits hcount hundisturbed hret

/-- `/a` is bound, and a reader takes two bytes and then the rest. -/
def bindAndRead : List (BindLabel Unit) :=
  [.write twoDirs ⟨true, true, true, true, true⟩ 0 (literal " /m\t/a\n"), .start (),
    .read () 2 true, .read () 5 true]

/-- The reader of that run has the whole text. -/
theorem bindFile_correct_run :
    ∃ (s : BindFile Unit) (x : Reader), Reach BindFile.step (fun _ _ => True) .init s ∧
      s.readers () = some x ∧ x.undisturbed = true ∧ s.syncDir = some (literal "/a") ∧
      x.got = bindText (lastBound s.log) := by
  have hrun : (exec BindFile.step (fun _ _ => true) (.init : BindFile Unit) bindAndRead).map
      (fun s => (s.syncDir, (s.readers ()).map fun x => decide (x.undisturbed = true ∧
        (ramfsProcBindRead s.syncDir 1 true x.ppos).ret = 0))) =
        some (some (literal "/a"), some true) := by
    decide +kernel
  obtain ⟨s, hreach, hobs⟩ := reach_of_exec_map hrun fun _ _ _ => trivial
  obtain ⟨hsync, hreader⟩ := Prod.mk.inj hobs
  obtain ⟨x, hx, hread⟩ := Option.map_eq_some_iff.mp hreader
  obtain ⟨hundisturbed, hret⟩ := of_decide_eq_true hread
  have hcorrect := (bindFile_correct s hreach).2.2 () x 1 true hx Nat.one_pos
  exact ⟨s, x, hreach, hx, hundisturbed, hsync, hcorrect.2.2 hundisturbed hret⟩

end OsHomework.Ramfs
