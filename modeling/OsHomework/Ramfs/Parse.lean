import Mathlib.Data.List.TakeWhile
import OsHomework.Ramfs.Bind

/-!
# Ramfs — `parse_mount_path`, byte by byte

`parse_mount_path` scans its buffer with one cursor in four loops, two that skip blanks and two that
copy a token. This module runs the loops one iteration at a time over a buffer in memory, with the
two output buffers as they were before, and says which byte each iteration reads and writes.

* **`Parse.Move`** — what one step can be.
* **`ParseInv.step`** — at every point of a run, what is left to do gives the answer of
  `parseMountPath` on the whole line: the loops compute that function.
* **`parseMountPath_eq_ok_iff`**, **`parseMountPath_eq_enametoolong_iff`** — which lines it accepts
  and which it refuses as too long, as a grammar of blanks and tokens.
* **`parse_exact`** — every run returns, its value and outputs are those the grammar gives, and it
  stays inside the three buffers.
-/

namespace OsHomework.Ramfs

open ByteFile Lts

/-! ## The four loops

The cursor `i` goes through the line once; `j` begins again for each token. A step is one test of a
loop with its body, or the statements between two loops. What the output buffers held before is kept
where nothing is written. -/

/-- The two tokens of a line, and the buffers they are copied to. -/
inductive Token where
  | ramfsPath
  | syncPath
  deriving DecidableEq

/-- Where a call stands: in a loop that skips blanks, in one that copies a token, behind that loop,
or returned. -/
inductive ParsePc where
  | skip (t : Token)
  | copy (t : Token)
  | terminate (t : Token)
  | ret (code : Int)
  deriving DecidableEq

/-- A call: its program counter, the two indices and the output buffers. -/
structure Parse where
  pc : ParsePc
  i : Nat
  j : Nat
  out : Token → Nat → UInt8

/-- A call, with what the output buffers hold before it. -/
def Parse.start (out : Token → Nat → UInt8) : Parse := ⟨.skip .ramfsPath, 0, 0, out⟩

/-- `path[k] = b` -/
def Parse.store (p : Parse) (t : Token) (b : UInt8) : Parse :=
  { p with out := Function.update p.out t (Function.update (p.out t) p.j b) }

@[simp] theorem Parse.store_pc (p : Parse) (t : Token) (b : UInt8) : (p.store t b).pc = p.pc := rfl

@[simp] theorem Parse.store_out_self (p : Parse) (t : Token) (b : UInt8) :
    (p.store t b).out t = Function.update (p.out t) p.j b :=
  Function.update_self ..

@[simp] theorem Parse.store_out_ramfsPath (p : Parse) (b : UInt8) :
    (p.store .syncPath b).out .ramfsPath = p.out .ramfsPath := rfl

/-- The test of a loop, with its body if it is entered, or the statements between two loops. -/
def Parse.step (buffer : Nat → UInt8) (p : Parse) : Option Parse :=
  match p.pc with
  | .skip t =>
    if isBlank (buffer p.i) then some { p with i := p.i + 1 }
    -- the copying loop starts at the beginning of its buffer
    else some { p with pc := .copy t, j := 0 }
  | .copy t =>
    if inToken (buffer p.i) then
      -- the check is made before the byte is stored
      if ramfsMaxPath - 1 ≤ p.j then some { p with pc := .ret (-(Errno.enametoolong.num : Int)) }
      else some { p.store t (buffer p.i) with i := p.i + 1, j := p.j + 1 }
    else some { p with pc := .terminate t }
  | .terminate t =>
    -- `path[j] = 0`, also if nothing was copied
    let p := p.store t 0
    if p.j = 0 then some { p with pc := .ret (-(Errno.einval.num : Int)) }
    else
      match t with
      | .ramfsPath => some { p with pc := .skip .syncPath }
      | .syncPath => some { p with pc := .ret 0 }
  | .ret _ => none

/-- The index of `buffer` that a step reads. -/
def Parse.reads (p : Parse) : Option Nat :=
  match p.pc with
  | .skip _ | .copy _ => some p.i
  | .terminate _ | .ret _ => none

/-- The output and its index that a step writes. -/
def Parse.writes (buffer : Nat → UInt8) (p : Parse) : Option (Token × Nat) :=
  match p.pc with
  | .copy t => if inToken (buffer p.i) ∧ p.j < ramfsMaxPath - 1 then some (t, p.j) else none
  | .terminate t => some (t, p.j)
  | .skip _ | .ret _ => none

/-- What one step can be. -/
inductive Parse.Move (buffer : Nat → UInt8) (p : Parse) : Parse → Prop where
  | blank {t : Token} (hpc : p.pc = .skip t) (hblank : isBlank (buffer p.i) = true) :
    Move buffer p { p with i := p.i + 1 }
  | skipped {t : Token} (hpc : p.pc = .skip t) (hblank : ¬ isBlank (buffer p.i) = true) :
    Move buffer p { p with pc := .copy t, j := 0 }
  | tooLong {t : Token} (hpc : p.pc = .copy t) (htoken : inToken (buffer p.i) = true)
      (hlong : ramfsMaxPath - 1 ≤ p.j) :
    Move buffer p { p with pc := .ret (-(Errno.enametoolong.num : Int)) }
  | copied {t : Token} (hpc : p.pc = .copy t) (htoken : inToken (buffer p.i) = true)
      (hroom : p.j < ramfsMaxPath - 1) :
    Move buffer p { p.store t (buffer p.i) with i := p.i + 1, j := p.j + 1 }
  | tokenEnd {t : Token} (hpc : p.pc = .copy t) (htoken : ¬ inToken (buffer p.i) = true) :
    Move buffer p { p with pc := .terminate t }
  | empty {t : Token} (hpc : p.pc = .terminate t) (hj : p.j = 0) :
    Move buffer p { p.store t 0 with pc := .ret (-(Errno.einval.num : Int)) }
  | next (hpc : p.pc = .terminate .ramfsPath) (hj : p.j ≠ 0) :
    Move buffer p { p.store .ramfsPath 0 with pc := .skip .syncPath }
  | done (hpc : p.pc = .terminate .syncPath) (hj : p.j ≠ 0) :
    Move buffer p { p.store .syncPath 0 with pc := .ret 0 }

/-- **Inversion** of a step. -/
theorem Parse.move_of_step {buffer : Nat → UInt8} {p p' : Parse} (h : p.step buffer = some p') :
    p.Move buffer p' := by
  unfold Parse.step at h
  split at h
  · next t hpc =>
    split at h
    · next hblank =>
      cases h
      exact .blank hpc hblank
    · next hblank =>
      cases h
      exact .skipped hpc hblank
  · next t hpc =>
    split at h
    · next htoken =>
      split at h
      · next hlong =>
        cases h
        exact .tooLong hpc htoken hlong
      · next hlong =>
        cases h
        exact .copied hpc htoken (Nat.lt_of_not_le hlong)
    · next htoken =>
      cases h
      exact .tokenEnd hpc htoken
  · next t hpc =>
    dsimp only at h
    split at h
    · next hj =>
      cases h
      exact .empty hpc hj
    · next hj =>
      cases t with
      | ramfsPath =>
        cases h
        exact .next hpc hj
      | syncPath =>
        cases h
        exact .done hpc hj
  · cases h

/-- The memory from `buffer` on: the text, its NUL, and whatever lies behind. -/
def stringAt (text : Bytes) (beyond : Nat → UInt8) (k : Nat) : UInt8 :=
  (text ++ [0])[k]?.getD (beyond k)

/-- The buffer holds the string `s`, with its NUL. -/
def IsString (q : Nat → UInt8) (s : Path) : Prop :=
  (List.range s.length).map q = s ∧ q s.length = 0

/-! ## Memory

The text ends with a NUL, which no loop passes: it is neither blank nor part of a token. So as long
as a byte passes the test of a loop the cursor is inside the text. -/

section

variable {text : Bytes} {beyond : Nat → UInt8} {i j : Nat} {q : Nat → UInt8}

/-- The NUL behind the text. -/
theorem stringAt_length (text : Bytes) (beyond : Nat → UInt8) :
    stringAt text beyond text.length = 0 := by
  simp [stringAt]

/-- The text from the cursor on. -/
theorem drop_eq_stringAt_cons (beyond : Nat → UInt8) (h : i < text.length) :
    text.drop i = stringAt text beyond i :: text.drop (i + 1) := by
  have hget : stringAt text beyond i = text[i] := by
    rw [stringAt, List.getElem?_append_left h, List.getElem?_eq_getElem h, Option.getD_some]
  rw [hget, List.drop_eq_getElem_cons h]

/-- A byte that passes a test which the NUL does not pass belongs to the text. -/
theorem lt_of_stringAt {f : UInt8 → Bool} (hzero : f 0 = false) (hle : i ≤ text.length)
    (h : f (stringAt text beyond i) = true) : i < text.length := by
  refine Nat.lt_of_le_of_ne hle fun heq => ?_
  rw [heq, stringAt_length, hzero] at h
  cases h

/-- The byte that ends a loop, or the end of the text. -/
theorem head_drop_of_stringAt {f : UInt8 → Bool} (h : ¬ f (stringAt text beyond i) = true) :
    ∀ b ∈ (text.drop i).head?, f b = false := by
  intro b hb
  rcases Nat.lt_or_ge i text.length with hlt | hge
  · rw [drop_eq_stringAt_cons beyond hlt, List.head?_cons] at hb
    cases hb
    exact Bool.eq_false_iff.mpr h
  · rw [List.drop_eq_nil_of_le hge] at hb
    cases hb

/-- A store behind the first `i` bytes. -/
theorem map_range_update_of_le (h : i ≤ j) (b : UInt8) :
    (List.range i).map (Function.update q j b) = (List.range i).map q := by
  refine List.map_congr_left fun k hk => Function.update_of_ne ?_ _ _
  have := List.mem_range.mp hk
  omega

/-- The first `j` bytes and one more. -/
theorem map_range_update_succ (b : UInt8) :
    (List.range (j + 1)).map (Function.update q j b) = (List.range j).map q ++ [b] := by
  rw [List.range_succ, List.map_append, map_range_update_of_le (Nat.le_refl j), List.map_singleton,
    Function.update_self]

/-- What has been copied is a string once it is terminated. -/
theorem isString_terminated (q : Nat → UInt8) (j : Nat) :
    IsString (Function.update q j 0) ((List.range j).map q) := by
  have hlength : ((List.range j).map q).length = j := by simp
  -- what is left to do from here
  refine ⟨?_, ?_⟩
  · rw [hlength, map_range_update_of_le (Nat.le_refl j)]
  · rw [hlength, Function.update_self]

end

/-! ## The loops compute `parseMountPath`

`parseMountPath` takes tokens off a list. In the middle of the loops its answer is still to be had
from the rest of the list and from what has been copied: the invariant says that this answer is the
one for the whole line. A step changes how much has been copied and how much is left, and not the
answer. -/

/-- `parse_mount_path` in the middle of a token of which `done` has been copied. -/
def tokenFrom (done : Path) (rest : Bytes) : Except Errno (Path × Bytes) :=
  let token := done ++ rest.takeWhile inToken
  -- the check for length comes before the one for an empty token
  if ramfsMaxPath ≤ token.length then .error .enametoolong
  else if token = [] then .error .einval
  else .ok (token, rest.dropWhile inToken)

section

variable {done : Path} {rest : Bytes} {b : UInt8}

/-- A blank in front does not matter. -/
theorem parseToken_blank (h : isBlank b = true) : parseToken (b :: rest) = parseToken rest := by
  rw [parseToken, parseToken, List.dropWhile_cons_of_pos h]

/-- Behind the blanks the token begins. -/
theorem parseToken_eq_tokenFrom (h : ∀ b ∈ rest.head?, isBlank b = false) :
    parseToken rest = tokenFrom [] rest := by
  have hdrop : rest.dropWhile isBlank = rest := by
    cases rest with
    | nil => rfl
    | cons b rest => exact List.dropWhile_cons_of_neg (by simp [h b rfl])
  rw [parseToken, tokenFrom, hdrop, List.nil_append]

/-- One byte is copied. -/
theorem tokenFrom_cons (h : inToken b = true) :
    tokenFrom done (b :: rest) = tokenFrom (done ++ [b]) rest := by
  rw [tokenFrom, tokenFrom, List.takeWhile_cons_of_pos h, List.dropWhile_cons_of_pos h,
    List.append_assoc, List.singleton_append]

/-- One byte more than the buffer has room for. -/
theorem tokenFrom_long (h : inToken b = true) (hdone : ramfsMaxPath - 1 ≤ done.length) :
    tokenFrom done (b :: rest) = .error .enametoolong := by
  refine if_pos ?_
  rw [List.takeWhile_cons_of_pos h, List.length_append, List.length_cons]
  omega

/-- The token has been copied. -/
theorem tokenFrom_end (h : ∀ b ∈ rest.head?, inToken b = false)
    (hdone : done.length < ramfsMaxPath) :
    tokenFrom done rest = if done = [] then .error .einval else .ok (done, rest) := by
  have hempty : rest.takeWhile inToken = [] ∧ rest.dropWhile inToken = rest := by
    cases rest with
    | nil => exact ⟨rfl, rfl⟩
    | cons b rest =>
      have hb : ¬ inToken b = true := by simp [h b rfl]
      exact ⟨List.takeWhile_cons_of_neg hb, List.dropWhile_cons_of_neg hb⟩
  rw [tokenFrom, hempty.1, hempty.2, List.append_nil, if_neg (Nat.not_le.mpr hdone)]

end

/-- What is done with a token: the first one is followed by the second, the second one returned with
the first, which stands in its buffer. -/
inductive Continues (out : Token → Nat → UInt8) :
    Token → (Path × Bytes → Except Errno (Path × Path)) → Prop where
  | ramfsPath : Continues out .ramfsPath fun (ramfsPath, rest) => do
      let (syncPath, _) ← parseToken rest
      return (ramfsPath, syncPath)
  | syncPath (ramfsPath : Path) (h : IsString (out .ramfsPath) ramfsPath) :
      Continues out .syncPath fun (syncPath, _) => return (ramfsPath, syncPath)

/-- A store in one buffer leaves the other one as it is. -/
theorem Continues.store {p : Parse} {t : Token} {k : Path × Bytes → Except Errno (Path × Path)}
    (h : Continues p.out t k) (b : UInt8) : Continues (p.store t b).out t k := by
  cases h with
  | ramfsPath => exact .ramfsPath
  | syncPath ramfsPath h =>
    refine .syncPath ramfsPath ?_
    rwa [Parse.store_out_ramfsPath]

/-- What a run has established: the rest of the line, with what has been copied, has the answer of
the whole line. -/
structure ParseInv (text : Bytes) (p : Parse) : Prop where
  inside : p.i ≤ text.length
  fits : p.j < ramfsMaxPath
  answer : match p.pc with
    | .skip t => ∃ k, Continues p.out t k ∧
        parseMountPath text = parseToken (text.drop p.i) >>= k
    | .copy t => ∃ k, Continues p.out t k ∧
        parseMountPath text = tokenFrom ((List.range p.j).map (p.out t)) (text.drop p.i) >>= k
    | .terminate t => (∀ b ∈ (text.drop p.i).head?, inToken b = false) ∧
        ∃ k, Continues p.out t k ∧
          parseMountPath text = tokenFrom ((List.range p.j).map (p.out t)) (text.drop p.i) >>= k
    | .ret code =>
      (code = 0 ∧ ∃ r s, IsString (p.out .ramfsPath) r ∧ IsString (p.out .syncPath) s ∧
          parseMountPath text = .ok (r, s)) ∨
        ∃ e : Errno, code = -(e.num : Int) ∧ parseMountPath text = .error e

section

variable {text : Bytes} {beyond : Nat → UInt8} {p p' : Parse}

/-- Before the first step the whole line is left. -/
theorem parseInv_start (text : Bytes) (out : Token → Nat → UInt8) :
    ParseInv text (Parse.start out) where
  inside := Nat.zero_le _
  fits := Nat.zero_lt_succ _
  answer := ⟨_, .ramfsPath, rfl⟩

/-- The token that is terminated, and what is left to do with it. -/
theorem ParseInv.terminated (h : ParseInv text p) {t : Token} (hpc : p.pc = .terminate t) :
    IsString ((p.store t 0).out t) ((List.range p.j).map (p.out t)) ∧
      ∃ k, Continues p.out t k ∧ parseMountPath text =
        (if p.j = 0 then .error .einval
          else .ok ((List.range p.j).map (p.out t), text.drop p.i)) >>= k := by
  have hanswer := h.answer
  rw [hpc] at hanswer
  obtain ⟨hend, k, hk, hanswer⟩ := hanswer
  have hlength : ((List.range p.j).map (p.out t)).length = p.j := by simp
  rw [tokenFrom_end hend (by rw [hlength]; exact h.fits)] at hanswer
  refine ⟨?_, k, hk, ?_⟩
  · rw [Parse.store_out_self]
    exact isString_terminated (p.out t) p.j
  · simpa only [← List.length_eq_zero_iff, hlength] using hanswer

/-- **One step** leaves the answer as it is. -/
theorem ParseInv.step (h : ParseInv text p) (hstep : p.step (stringAt text beyond) = some p') :
    ParseInv text p' := by
  have hanswer := h.answer
  cases Parse.move_of_step hstep with
  | blank hpc hblank =>
    -- a blank is not the NUL, so there is a next byte
    have hlt := lt_of_stringAt (by decide) h.inside hblank
    refine ⟨hlt, h.fits, ?_⟩
    simp only [hpc, drop_eq_stringAt_cons beyond hlt, parseToken_blank hblank] at hanswer ⊢
    exact hanswer
  | skipped hpc hblank =>
    rw [hpc] at hanswer
    obtain ⟨k, hk, hanswer⟩ := hanswer
    refine ⟨h.inside, Nat.zero_lt_succ _, k, hk, ?_⟩
    -- no blank is left, and the token begins with nothing copied
    rw [hanswer, parseToken_eq_tokenFrom (head_drop_of_stringAt hblank)]
    rfl
  | tooLong hpc htoken hlong =>
    rw [hpc] at hanswer
    obtain ⟨k, -, hanswer⟩ := hanswer
    refine ⟨h.inside, h.fits, Or.inr ⟨.enametoolong, rfl, ?_⟩⟩
    rw [hanswer, drop_eq_stringAt_cons beyond (lt_of_stringAt (by decide) h.inside htoken),
      tokenFrom_long htoken (by simpa using hlong)]
    rfl
  | @copied t hpc htoken hroom =>
    rw [hpc] at hanswer
    obtain ⟨k, hk, hanswer⟩ := hanswer
    have hlt := lt_of_stringAt (by decide) h.inside htoken
    -- one byte more is copied and one less is to come
    have hcopied : ((List.range (p.j + 1)).map ((p.store t (stringAt text beyond p.i)).out t)) =
        (List.range p.j).map (p.out t) ++ [stringAt text beyond p.i] := by
      rw [Parse.store_out_self, map_range_update_succ]
    rw [drop_eq_stringAt_cons beyond hlt, tokenFrom_cons htoken, ← hcopied] at hanswer
    refine ⟨hlt, Nat.add_lt_of_lt_sub hroom, ?_⟩
    simp only [Parse.store_pc, hpc]
    exact ⟨k, hk.store _, hanswer⟩
  | tokenEnd hpc htoken =>
    rw [hpc] at hanswer
    -- the byte that ends the token is known where it is terminated
    exact ⟨h.inside, h.fits, head_drop_of_stringAt htoken, hanswer⟩
  | empty hpc hj =>
    obtain ⟨-, k, -, hanswer⟩ := h.terminated hpc
    refine ⟨h.inside, h.fits, Or.inr ⟨.einval, rfl, ?_⟩⟩
    rw [hanswer, if_pos hj]
    rfl
  | next hpc hj =>
    -- the first token is a string in its buffer, and the second is still to come
    obtain ⟨hstring, k, hk, hanswer⟩ := h.terminated hpc
    rw [if_neg hj] at hanswer
    cases hk
    exact ⟨h.inside, h.fits, _, .syncPath _ hstring, hanswer⟩
  | done hpc hj =>
    -- both tokens are strings in their buffers
    obtain ⟨hstring, k, hk, hanswer⟩ := h.terminated hpc
    rw [if_neg hj] at hanswer
    cases hk with
    | syncPath ramfsPath hramfs =>
      exact ⟨h.inside, h.fits, Or.inl ⟨rfl, ramfsPath, _, hramfs, hstring, hanswer⟩⟩

/-! ## Every run returns, inside the buffers

Each step moves the cursor or goes on to the next loop. The cursor stays in the text, and the index
into an output buffer below its size, by the check in front of each store. -/

/-- How many of the loops and of the statements behind them are still to come. -/
def ParsePc.ahead : ParsePc → Nat
  | .skip .ramfsPath => 6
  | .copy .ramfsPath => 5
  | .terminate .ramfsPath => 4
  | .skip .syncPath => 3
  | .copy .syncPath => 2
  | .terminate .syncPath => 1
  | .ret _ => 0

/-- A step leaves a loop or moves the cursor. -/
theorem ParseInv.closer (h : ParseInv text p) (hstep : p.step (stringAt text beyond) = some p') :
    p'.pc.ahead + (text.length - p'.i) < p.pc.ahead + (text.length - p.i) := by
  cases Parse.move_of_step hstep with
  | blank hpc hblank =>
    -- the cursor moves
    have hlt := lt_of_stringAt (by decide) h.inside hblank
    dsimp only
    omega
  | copied hpc htoken hroom =>
    have hlt := lt_of_stringAt (by decide) h.inside htoken
    dsimp only [Parse.store]
    omega
  -- a loop is left
  | @skipped t hpc _ | @tooLong t hpc _ _ | @tokenEnd t hpc _ | @empty t hpc _ =>
    rw [hpc]
    cases t <;> simp [ParsePc.ahead, Parse.store]
  | next hpc _ | done hpc _ =>
    rw [hpc]
    simp [ParsePc.ahead, Parse.store]

/-- A call that has not returned goes on. -/
theorem Parse.progress (buffer : Nat → UInt8) (p : Parse) :
    (∃ code, p.pc = .ret code) ∨ ∃ p', p.step buffer = some p' := by
  cases hpc : p.pc with
  | ret code => exact Or.inl ⟨code, rfl⟩
  | skip t | copy t | terminate t =>
    right
    simp only [Parse.step, hpc]
    repeat' split
    all_goals exact ⟨_, rfl⟩

/-- Reads are inside the text or at its NUL. -/
theorem ParseInv.reads_le (h : ParseInv text p) : ∀ k ∈ p.reads, k ≤ text.length := by
  intro k hk
  unfold Parse.reads at hk
  split at hk
  · cases hk
    exact h.inside
  · cases hk
    exact h.inside
  · cases hk
  · cases hk

/-- Writes are inside the output buffer. -/
theorem ParseInv.writes_lt (h : ParseInv text p) :
    ∀ t k, p.writes (stringAt text beyond) = some (t, k) → k < ramfsMaxPath := by
  intro t k hk
  unfold Parse.writes at hk
  split at hk
  · obtain ⟨-, heq⟩ := Option.ite_none_right_eq_some.mp hk
    cases heq
    exact h.fits
  · cases hk
    exact h.fits
  · cases hk
  · cases hk

/-- A step depends on the byte that it reads and on no other. -/
theorem Parse.step_congr {buffer buffer' : Nat → UInt8}
    (h : ∀ k ∈ p.reads, buffer k = buffer' k) : p.step buffer = p.step buffer' := by
  cases hpc : p.pc with
  | skip t | copy t =>
    have hi : buffer p.i = buffer' p.i := h p.i (by simp only [Parse.reads, hpc]; rfl)
    simp only [Parse.step, hpc, hi]
  | terminate t | ret code => simp only [Parse.step, hpc]

/-- A store changes one byte of one buffer. -/
theorem Parse.store_out_of_ne {t u : Token} {k : Nat} (b : UInt8) (h : (t, p.j) ≠ (u, k)) :
    (p.store t b).out u k = p.out u k := by
  by_cases hu : u = t
  · subst hu
    rw [Parse.store_out_self]
    refine Function.update_of_ne (fun heq => ?_) _ _
    exact h (by rw [heq])
  · exact congrFun (Function.update_of_ne hu _ _) k

/-- A step changes what it writes and nothing else. -/
theorem Parse.step_out_eq {buffer : Nat → UInt8} (hstep : p.step buffer = some p') {u : Token}
    {k : Nat} (hk : p.writes buffer ≠ some (u, k)) : p'.out u k = p.out u k := by
  have hstore : ∀ {t : Token} (b : UInt8), p.writes buffer = some (t, p.j) →
      (p.store t b).out u k = p.out u k := by
    intro t b hwrites
    rw [hwrites] at hk
    exact Parse.store_out_of_ne b fun heq => hk (by rw [heq])
  cases Parse.move_of_step hstep with
  | blank _ _ | skipped _ _ | tooLong _ _ _ | tokenEnd _ _ => rfl
  | copied hpc htoken hroom =>
    exact hstore _ (by simp only [Parse.writes, hpc, htoken, hroom, and_self, if_true])
  | empty hpc _ | next hpc _ | done hpc _ => exact hstore 0 (by simp only [Parse.writes, hpc])

end

/-! ## The grammar of a line

Which lines are accepted, without a parser: blanks, a token, blanks, a token. Blanks and tokens
exclude each other and a token is as long as possible, so that a line is divided in one way only. -/

/-- `text` is blanks, the longest run of token bytes behind them, and the rest. -/
structure TokenAt (text blanks token rest : Bytes) : Prop where
  eq : text = blanks ++ (token ++ rest)
  blank : ∀ b ∈ blanks, isBlank b = true
  inside : ∀ b ∈ token, inToken b = true
  longest : ∀ b ∈ rest.head?, inToken b = false

/-- A token that fits its buffer. -/
def IsToken (token : Path) : Prop :=
  (∀ b ∈ token, inToken b = true) ∧ 1 ≤ token.length ∧ token.length ≤ 255

/-- Blanks, a token, at least one blank, a token, and a rest that does not go on with it. -/
def Line (text : Bytes) (t₁ t₂ : Path) : Prop :=
  ∃ b₁ b₂ r, text = b₁ ++ (t₁ ++ (b₂ ++ (t₂ ++ r))) ∧ (∀ b ∈ b₁, isBlank b = true) ∧ IsToken t₁ ∧
    b₂ ≠ [] ∧ (∀ b ∈ b₂, isBlank b = true) ∧ IsToken t₂ ∧
    ∀ b ∈ r.head?, isBlank b = true ∨ b = '\n'.toUInt8

/-- The first token does not fit its buffer, or it does and the second one does not. -/
def TooLong (text : Bytes) : Prop :=
  (∃ b₁ t₁ r, TokenAt text b₁ t₁ r ∧ 255 < t₁.length) ∨
    ∃ b₁ t₁ r₁ b₂ t₂ r₂, TokenAt text b₁ t₁ r₁ ∧ IsToken t₁ ∧ TokenAt r₁ b₂ t₂ r₂ ∧
      255 < t₂.length

section

variable {text blanks token rest : Bytes}

/-- Blanks and token bytes exclude each other. -/
theorem not_isBlank_of_inToken {b : UInt8} (h : inToken b = true) : isBlank b = false := by
  simp only [inToken, Bool.and_eq_true, Bool.not_eq_true'] at h
  exact h.1.2

/-- A non-empty token determines how the text is divided. -/
theorem TokenAt.scan (h : TokenAt text blanks token rest) (hne : token ≠ []) :
    text.dropWhile isBlank = token ++ rest ∧ (token ++ rest).takeWhile inToken = token ∧
      (token ++ rest).dropWhile inToken = rest := by
  refine ⟨?_, ?_, ?_⟩
  · rw [h.eq, List.dropWhile_append_of_pos h.blank]
    obtain ⟨b, tail, rfl⟩ := List.exists_cons_of_ne_nil hne
    have hb := not_isBlank_of_inToken (h.inside b (List.mem_cons_self ..))
    exact List.dropWhile_cons_of_neg (by simp [hb])
  · rw [List.takeWhile_append_of_pos h.inside]
    cases rest with
    | nil => simp
    | cons b rest => simp [h.longest b rfl]
  · rw [List.dropWhile_append_of_pos h.inside]
    cases rest with
    | nil => rfl
    | cons b rest => exact List.dropWhile_cons_of_neg (by simp [h.longest b rfl])

/-- The answer for a text that begins with a token. -/
theorem TokenAt.parseToken (h : TokenAt text blanks token rest) (hne : token ≠ []) :
    parseToken text =
      if 255 < token.length then .error .enametoolong else .ok (token, rest) := by
  obtain ⟨hdrop, htake, hrest⟩ := h.scan hne
  simp only [Ramfs.parseToken, hdrop, htake, hrest, hne, if_false]
  rfl

/-- What `parse_mount_path` finds where it looks for a token. -/
theorem tokenAt_scan (text : Bytes) :
    TokenAt text (text.takeWhile isBlank) ((text.dropWhile isBlank).takeWhile inToken)
      ((text.dropWhile isBlank).dropWhile inToken) where
  eq := by rw [List.takeWhile_append_dropWhile, List.takeWhile_append_dropWhile]
  blank := fun b hb => List.mem_takeWhile_imp hb
  inside := fun b hb => List.mem_takeWhile_imp hb
  longest := fun b hb => by
    have hnot := List.head?_dropWhile_not inToken (text.dropWhile isBlank)
    rw [hb] at hnot
    exact hnot

/-- The three answers that the token can have. -/
theorem parseToken_cases (text : Bytes) :
    ∃ blanks token rest, TokenAt text blanks token rest ∧
      (255 < token.length ∧ parseToken text = .error .enametoolong ∨
        token = [] ∧ parseToken text = .error .einval ∨
        IsToken token ∧ parseToken text = .ok (token, rest)) := by
  have hat := tokenAt_scan text
  refine ⟨_, _, _, hat, ?_⟩
  simp only [parseToken]
  split
  · next hlong => exact Or.inl ⟨hlong, rfl⟩
  · next hfits =>
    split
    · next hempty => exact Or.inr (Or.inl ⟨hempty, rfl⟩)
    · next hne =>
      have hle := Nat.le_of_lt_succ (Nat.lt_of_not_le hfits)
      exact Or.inr (Or.inr ⟨⟨hat.inside, List.length_pos_of_ne_nil hne, hle⟩, rfl⟩)

/-- A token is found exactly where there is one that fits. -/
theorem parseToken_eq_ok_iff :
    parseToken text = .ok (token, rest) ↔
      ∃ blanks, TokenAt text blanks token rest ∧ IsToken token := by
  constructor
  · intro h
    obtain ⟨blanks, _, _, hat, ⟨-, heq⟩ | ⟨-, heq⟩ | ⟨htoken, heq⟩⟩ := parseToken_cases text
    · cases heq.symm.trans h
    · cases heq.symm.trans h
    · cases heq.symm.trans h
      exact ⟨blanks, hat, htoken⟩
  · rintro ⟨blanks, hat, htoken⟩
    rw [hat.parseToken (List.ne_nil_of_length_pos htoken.2.1),
      if_neg (Nat.not_lt.mpr htoken.2.2)]

/-- And it is too long exactly where there is one that does not. -/
theorem parseToken_eq_enametoolong_iff :
    parseToken text = .error .enametoolong ↔
      ∃ blanks token rest, TokenAt text blanks token rest ∧ 255 < token.length := by
  constructor
  · intro h
    obtain ⟨_, _, _, hat, ⟨hlong, -⟩ | ⟨-, heq⟩ | ⟨-, heq⟩⟩ := parseToken_cases text
    · exact ⟨_, _, _, hat, hlong⟩
    · cases heq.symm.trans h
    · cases heq.symm.trans h
  · rintro ⟨blanks, token, rest, hat, hlong⟩
    rw [hat.parseToken (List.ne_nil_of_length_pos (by omega)), if_pos hlong]

/-- There are no other errors. -/
theorem parseToken_error {e : Errno} (h : parseToken text = .error e) :
    e = .enametoolong ∨ e = .einval := by
  obtain ⟨_, _, _, -, ⟨-, heq⟩ | ⟨-, heq⟩ | ⟨-, heq⟩⟩ := parseToken_cases text
  · cases heq.symm.trans h
    exact Or.inl rfl
  · cases heq.symm.trans h
    exact Or.inr rfl
  · cases heq.symm.trans h

/-- The first token is found. -/
theorem parseMountPath_of_ok (h : parseToken text = .ok (token, rest)) :
    parseMountPath text = (parseToken rest).map fun second => (token, second.1) := by
  rw [parseMountPath, h]
  show (parseToken rest >>= fun second => pure (token, second.1)) = _
  cases parseToken rest <;> rfl

/-- The first token is not found. -/
theorem parseMountPath_of_error {e : Errno} (h : parseToken text = .error e) :
    parseMountPath text = .error e := by
  rw [parseMountPath, h]
  rfl

/-- The line is accepted with these paths exactly when it has this form. -/
theorem parseMountPath_eq_ok_iff (hnul : 0 ∉ text) {t₁ t₂ : Path} :
    parseMountPath text = .ok (t₁, t₂) ↔ Line text t₁ t₂ := by
  constructor
  -- the two tokens are found, and what lies between them is not empty
  · intro h
    unfold parseMountPath at h
    obtain ⟨⟨first, r₁⟩, hfirst, h⟩ := ok_of_bind h
    obtain ⟨⟨second, r₂⟩, hsecond, h⟩ := ok_of_bind h
    cases h
    obtain ⟨b₁, hat₁, htoken₁⟩ := parseToken_eq_ok_iff.mp hfirst
    obtain ⟨b₂, hat₂, htoken₂⟩ := parseToken_eq_ok_iff.mp hsecond
    have hb₂ : b₂ ≠ [] := by
      -- the first token would go on with the second
      rintro rfl
      obtain ⟨b, tail, rfl⟩ := List.exists_cons_of_ne_nil (List.ne_nil_of_length_pos htoken₂.2.1)
      have hlongest := hat₁.longest b (by rw [hat₂.eq]; rfl)
      rw [htoken₂.1 b (List.mem_cons_self ..)] at hlongest
      cases hlongest
    have heq := hat₁.eq
    -- the byte behind the second token is blank or a newline, since there is no NUL in the text
    rw [hat₂.eq] at heq
    refine ⟨b₁, b₂, r₂, heq, hat₁.blank, htoken₁, hb₂, hat₂.blank, htoken₂, fun b hb => ?_⟩
    have hmem : b ∈ text := by
      rw [heq]
      simp [List.mem_of_mem_head? hb]
    have hzero : b ≠ 0 := fun h => hnul (h ▸ hmem)
    have hlongest := hat₂.longest b hb
    simp only [inToken, Bool.and_eq_false_iff, Bool.not_eq_false', decide_eq_false_iff_not, ne_eq,
      not_not] at hlongest
    tauto
  · rintro ⟨b₁, b₂, r, heq, hb₁, htoken₁, hne, hb₂, htoken₂, hrest⟩
    -- the other direction: the second token in the rest of the first
    have hat₂ : TokenAt (b₂ ++ (t₂ ++ r)) b₂ t₂ r := by
      refine ⟨rfl, hb₂, htoken₂.1, fun b hb => ?_⟩
      rcases hrest b hb with hblank | rfl
      · simp [inToken, hblank]
      · decide
    have hat₁ : TokenAt text b₁ t₁ (b₂ ++ (t₂ ++ r)) := by
      refine ⟨heq, hb₁, htoken₁.1, fun b hb => ?_⟩
      -- the blank behind the first token ends it
      obtain ⟨b', tail, rfl⟩ := List.exists_cons_of_ne_nil hne
      cases hb
      simp [inToken, hb₂ b (List.mem_cons_self ..)]
    rw [parseMountPath_of_ok (parseToken_eq_ok_iff.mpr ⟨b₁, hat₁, htoken₁⟩),
      parseToken_eq_ok_iff.mpr ⟨b₂, hat₂, htoken₂⟩]
    rfl

/-- The line is refused as too long exactly when a token does not fit. -/
theorem parseMountPath_eq_enametoolong_iff :
    parseMountPath text = .error .enametoolong ↔ TooLong text := by
  constructor
  · intro h
    -- the first token is too long, or the second is
    cases hfirst : parseToken text with
    | error e =>
      rw [parseMountPath_of_error hfirst] at h
      cases h
      exact Or.inl (parseToken_eq_enametoolong_iff.mp hfirst)
    | ok first =>
      obtain ⟨t₁, r₁⟩ := first
      obtain ⟨b₁, hat₁, htoken₁⟩ := parseToken_eq_ok_iff.mp hfirst
      rw [parseMountPath_of_ok hfirst] at h
      cases hsecond : parseToken r₁ with
      | error e =>
        rw [hsecond] at h
        cases h
        obtain ⟨b₂, t₂, r₂, hlong⟩ := parseToken_eq_enametoolong_iff.mp hsecond
        exact Or.inr ⟨b₁, t₁, r₁, b₂, t₂, r₂, hat₁, htoken₁, hlong⟩
      | ok second =>
        rw [hsecond] at h
        cases h
  · rintro (hlong | ⟨b₁, t₁, r₁, b₂, t₂, r₂, hat₁, htoken₁, hlong⟩)
    · exact parseMountPath_of_error (parseToken_eq_enametoolong_iff.mpr hlong)
    · rw [parseMountPath_of_ok (parseToken_eq_ok_iff.mpr ⟨b₁, hat₁, htoken₁⟩),
        parseToken_eq_enametoolong_iff.mpr ⟨b₂, t₂, r₂, hlong⟩]
      rfl

/-- A line is refused for one of two reasons. -/
theorem parseMountPath_error {e : Errno} (h : parseMountPath text = .error e) :
    e = .enametoolong ∨ e = .einval := by
  cases hfirst : parseToken text with
  | error e₁ =>
    rw [parseMountPath_of_error hfirst] at h
    cases h
    exact parseToken_error hfirst
  | ok first =>
    rw [parseMountPath_of_ok hfirst] at h
    cases hsecond : parseToken first.2 with
    | error e₂ =>
      rw [hsecond] at h
      cases h
      exact parseToken_error hsecond
    | ok second =>
      rw [hsecond] at h
      cases h

end

/-! ## The call

The loops and the grammar put together, for whatever memory lies behind the three buffers. -/

/-- One step of a call on the string `text`. -/
def parseStep (text : Bytes) (beyond : Nat → UInt8) (p : Parse) (_ : Unit) : Option Parse :=
  p.step (stringAt text beyond)

/-- What a call on `text` returns and leaves in the output buffers. -/
structure ParseResult (text : Bytes) (code : Int) (out : Token → Nat → UInt8) : Prop where
  ok_iff : code = 0 ↔ ∃ t₁ t₂, Line text t₁ t₂
  paths : ∀ t₁ t₂, Line text t₁ t₂ → IsString (out .ramfsPath) t₁ ∧ IsString (out .syncPath) t₂
  enametoolong_iff : code = -36 ↔ TooLong text
  einval_iff : code = -22 ↔ (¬ ∃ t₁ t₂, Line text t₁ t₂) ∧ ¬ TooLong text

/-- What a call that has returned has answered. -/
theorem ParseInv.result {text : Bytes} {p : Parse} {code : Int} (h : ParseInv text p)
    (hnul : 0 ∉ text) (hpc : p.pc = .ret code) : ParseResult text code p.out := by
  have hanswer := h.answer
  rw [hpc] at hanswer
  -- the grammar and the function accept the same lines
  have hline : (∃ t₁ t₂, Line text t₁ t₂) ↔ ∃ t₁ t₂, parseMountPath text = .ok (t₁, t₂) := by
    simp only [parseMountPath_eq_ok_iff hnul]
  rcases hanswer with ⟨rfl, r, s, hr, hs, hok⟩ | ⟨e, rfl, herror⟩
  -- accepted
  · have hshort : ¬ TooLong text := by
      rw [← parseMountPath_eq_enametoolong_iff, hok]
      exact fun heq => by cases heq
    have haccepted : ∃ t₁ t₂, Line text t₁ t₂ := hline.mpr ⟨r, s, hok⟩
    refine ⟨by simp [haccepted], fun t₁ t₂ hform => ?_, by simp [hshort], by simp [haccepted]⟩
    rw [← parseMountPath_eq_ok_iff hnul, hok] at hform
    cases hform
    exact ⟨hr, hs⟩
  -- refused: too long, or one of the tokens is missing
  · have hrefused : ¬ ∃ t₁ t₂, Line text t₁ t₂ := by
      rw [hline, herror]
      rintro ⟨_, _, heq⟩
      cases heq
    have hpaths : ∀ t₁ t₂, Line text t₁ t₂ →
        IsString (p.out .ramfsPath) t₁ ∧ IsString (p.out .syncPath) t₂ :=
      fun t₁ t₂ hform => absurd ⟨t₁, t₂, hform⟩ hrefused
    rcases parseMountPath_error herror with rfl | rfl
    · have hlong : TooLong text := parseMountPath_eq_enametoolong_iff.mp herror
      exact ⟨by simp [hrefused, Errno.enametoolong], hpaths, by simp [hlong, Errno.enametoolong],
        by simp [hlong, Errno.enametoolong]⟩
    · have hshort : ¬ TooLong text := by
        rw [← parseMountPath_eq_enametoolong_iff, herror]
        exact fun heq => by cases heq
      exact ⟨by simp [hrefused, Errno.einval], hpaths, by simp [hshort, Errno.einval],
        by simp [hrefused, hshort, Errno.einval]⟩

/-- **Every call** on a NUL-terminated buffer returns, with the value and the paths that the form of
the line gives; on its way it reads nothing behind the NUL and writes nothing behind index 255 of
either output, whatever the memory holds there. -/
theorem parse_exact (text : Bytes) (hnul : 0 ∉ text) (beyond : Nat → UInt8)
    (out : Token → Nat → UInt8) :
    Terminates (parseStep text beyond) (fun _ _ => True) (Parse.start out) ∧
      (∃ p code, Reach (parseStep text beyond) (fun _ _ => True) (Parse.start out) p ∧
        p.pc = .ret code) ∧
      ∀ p, Reach (parseStep text beyond) (fun _ _ => True) (Parse.start out) p →
        (∀ k ∈ p.reads, k ≤ text.length) ∧
        (∀ buffer, (∀ k ≤ text.length, buffer k = stringAt text beyond k) →
          p.step buffer = p.step (stringAt text beyond)) ∧
        (∀ t k, p.writes (stringAt text beyond) = some (t, k) → k ≤ 255) ∧
        (∀ t k, 255 < k → p.out t k = out t k) ∧
        ∀ code, p.pc = .ret code → ParseResult text code p.out := by
  have hinv : ∀ p, Reach (parseStep text beyond) (fun _ _ => True) (Parse.start out) p →
      ParseInv text p ∧ ∀ t k, 255 < k → p.out t k = out t k := by
    intro p hreach
    refine hreach.inv (I := fun p => ParseInv text p ∧ ∀ t k, 255 < k → p.out t k = out t k)
      ⟨parseInv_start text out, fun _ _ _ => rfl⟩ ?_
    intro p _ p' h _ hstep
    -- what lies behind the buffers is never written
    refine ⟨h.1.step hstep, fun t k hk => ?_⟩
    rw [← h.2 t k hk]
    refine Parse.step_out_eq hstep fun hwrites => ?_
    have hlt := h.1.writes_lt t k hwrites
    have : ramfsMaxPath = 256 := rfl
    omega
  have hterm : Terminates (parseStep text beyond) (fun _ _ => True) (Parse.start out) := by
    refine terminates_of_measure (I := ParseInv text)
      (fun p => p.pc.ahead + (text.length - p.i)) ?_ (parseInv_start text out)
    intro p _ p' h _ hstep
    exact ⟨h.step hstep, h.closer hstep⟩
  have hprogress : ∀ p, Reach (parseStep text beyond) (fun _ _ => True) (Parse.start out) p →
      (∃ code, p.pc = .ret code) ∨ ∃ l p', True ∧ parseStep text beyond p l = some p' := by
    intro p _
    rcases p.progress (stringAt text beyond) with hret | ⟨p', hstep⟩
    · exact Or.inl hret
    · exact Or.inr ⟨(), p', trivial, hstep⟩
  obtain ⟨q, hq, code, hcode⟩ := hterm.reach_final hprogress
  refine ⟨hterm, ⟨q, code, hq, hcode⟩, fun p hreach => ?_⟩
  obtain ⟨h, hout⟩ := hinv p hreach
  refine ⟨h.reads_le, fun buffer hbuffer => ?_, fun t k hk => ?_, hout,
    fun code hcode => h.result hnul hcode⟩
  · exact Parse.step_congr fun k hk => hbuffer k (h.reads_le k hk)
  · exact Nat.le_of_lt_succ (h.writes_lt t k hk)

/-- The line `a b`. -/
theorem parse_exact_line :
    ∃ p, Reach (parseStep [97, 32, 98] fun _ => 7) (fun _ _ => True) (Parse.start fun _ _ => 9) p ∧
      p.pc = .ret 0 ∧ IsString (p.out .ramfsPath) [97] ∧ IsString (p.out .syncPath) [98] := by
  obtain ⟨-, ⟨p, code, hreach, hcode⟩, hall⟩ :=
    parse_exact [97, 32, 98] (by decide) (fun _ => 7) fun _ _ => 9
  obtain ⟨-, -, -, -, hresult⟩ := hall p hreach
  have htoken : ∀ b, inToken b = true → IsToken [b] := by
    intro b hb
    exact ⟨List.forall_mem_singleton.mpr hb, Nat.le_refl 1, by simp⟩
  have hline : Line [97, 32, 98] [97] [98] :=
    ⟨[], [32], [], rfl, List.forall_mem_nil _, htoken 97 rfl, List.cons_ne_nil _ _,
      List.forall_mem_singleton.mpr rfl, htoken 98 rfl, by simp⟩
  have hzero : code = 0 := (hresult code hcode).ok_iff.mpr ⟨_, _, hline⟩
  rw [hzero] at hcode
  exact ⟨p, hreach, hcode, (hresult 0 hcode).paths _ _ hline⟩

end OsHomework.Ramfs
