import Mathlib.Logic.Function.Basic
import OsHomework.Lib.Reach

/-!
# Parties that exchange byte streams

Any number of parties, each with a straight-line program and a memory of its own, over one FIFO
stream of bounded capacity per ordered pair. A send hands over some of the remaining bytes, as many
as fit; a receive takes some of the bytes that are there and stores them one after the other. Both
are repeated until the message is complete, and only then does the program go on.

* **`Net.step`** — one such step of one party.
* **`Move`** — everything a step can do, as a relation on the party and the streams.
* **`Move.of_longer`** — a party that does not read a stream makes the same moves when the stream
  has fewer bytes waiting in front.
-/

namespace Network

variable {R M B : Type}

/-- One action of a program: send a message that depends on the memory, receive one of a given
length, storing byte `i` with `put i`, compute, or give up. -/
inductive Act (R M B : Type) where
  | send (dst : R) (data : M → List B)
  | recv (src : R) (len : Nat) (put : Nat → B → M → M)
  | comp (f : M → M)
  | abort

/-- The rest of a party's program, how many bytes of its first action are done, and the memory. -/
structure Party (R M B : Type) where
  prog : List (Act R M B)
  off : Nat
  mem : M

/-- The parties and what is in transit from one to the other. -/
structure Net (R M B : Type) where
  party : R → Party R M B
  chan : R × R → List B

/-- Store a chunk of bytes from offset `off` on. -/
def putAll (put : Nat → B → M → M) : Nat → List B → M → M
  | _, [], m => m
  | off, b :: bs, m => putAll put (off + 1) bs (put off b m)

theorem putAll_append (put : Nat → B → M → M) (off : Nat) (bs cs : List B) (m : M) :
    putAll put off (bs ++ cs) m = putAll put (off + bs.length) cs (putAll put off bs m) := by
  induction bs generalizing off m with
  | nil => rfl
  | cons b bs ih =>
    rw [List.cons_append, putAll, ih, putAll, List.length_cons]
    congr 1
    omega

variable [DecidableEq R]

/-- Party `l.1` makes a step; `l.2` is the number of bytes a transfer moves. -/
def Net.step (cap : R × R → Nat) (s : Net R M B) (l : R × Nat) : Option (Net R M B) :=
  let p := s.party l.1
  match p.prog with
  | [] => none
  | .abort :: _ => none
  | .comp f :: rest => some { s with party := Function.update s.party l.1 ⟨rest, 0, f p.mem⟩ }
  | .send dst data :: rest =>
    let c := (l.1, dst)
    -- `send` is called again until everything is handed over
    if p.off < (data p.mem).length then
      if 0 < l.2 ∧ p.off + l.2 ≤ (data p.mem).length ∧ (s.chan c).length + l.2 ≤ cap c then
        some
          { party := Function.update s.party l.1 { p with off := p.off + l.2 }
            chan := Function.update s.chan c (s.chan c ++ ((data p.mem).drop p.off).take l.2) }
      else none
    else some { s with party := Function.update s.party l.1 ⟨rest, 0, p.mem⟩ }
  | .recv src len put :: rest =>
    let c := (src, l.1)
    -- and `recv` until everything is there
    if p.off < len then
      if 0 < l.2 ∧ p.off + l.2 ≤ len ∧ l.2 ≤ (s.chan c).length then
        some
          { party := Function.update s.party l.1
              { p with off := p.off + l.2, mem := putAll put p.off ((s.chan c).take l.2) p.mem }
            chan := Function.update s.chan c ((s.chan c).drop l.2) }
      else none
    else some { s with party := Function.update s.party l.1 ⟨rest, 0, p.mem⟩ }

/-- All programs have run to their end. -/
def Net.Final (s : Net R M B) : Prop := ∀ r, (s.party r).prog = []

/-! ## What one step can do

The step function in the form in which it is used: one constructor for each thing that happens, with
its conditions. `move_of_step` and `step_of_move` say that the two are the same. -/

variable {cap : R × R → Nat} {r : R} {p p' : Party R M B} {ch ch' : R × R → List B}

/-- Everything a step of party `r` can do. -/
inductive Move (cap : R × R → Nat) (r : R) (p : Party R M B) (ch : R × R → List B) :
    Party R M B → (R × R → List B) → Prop where
  | comp (f : M → M) (rest : List (Act R M B)) (hprog : p.prog = .comp f :: rest) :
      Move cap r p ch ⟨rest, 0, f p.mem⟩ ch
  | send (dst : R) (data : M → List B) (rest : List (Act R M B)) (k : Nat)
      (hprog : p.prog = .send dst data :: rest) (hk : 0 < k)
      (hlen : p.off + k ≤ (data p.mem).length) (hcap : (ch (r, dst)).length + k ≤ cap (r, dst)) :
      Move cap r p ch { p with off := p.off + k }
        (Function.update ch (r, dst) (ch (r, dst) ++ ((data p.mem).drop p.off).take k))
  | sent (dst : R) (data : M → List B) (rest : List (Act R M B))
      (hprog : p.prog = .send dst data :: rest) (hend : (data p.mem).length ≤ p.off) :
      Move cap r p ch ⟨rest, 0, p.mem⟩ ch
  | recv (src : R) (len : Nat) (put : Nat → B → M → M) (rest : List (Act R M B)) (k : Nat)
      (hprog : p.prog = .recv src len put :: rest) (hk : 0 < k) (hlen : p.off + k ≤ len)
      (havail : k ≤ (ch (src, r)).length) :
      Move cap r p ch
        { p with off := p.off + k, mem := putAll put p.off ((ch (src, r)).take k) p.mem }
        (Function.update ch (src, r) ((ch (src, r)).drop k))
  | received (src : R) (len : Nat) (put : Nat → B → M → M) (rest : List (Act R M B))
      (hprog : p.prog = .recv src len put :: rest) (hend : len ≤ p.off) :
      Move cap r p ch ⟨rest, 0, p.mem⟩ ch

/-- **Inversion** of a step. -/
theorem move_of_step {s t : Net R M B} {l : R × Nat} (h : s.step cap l = some t) :
    ∃ p' ch', Move cap l.1 (s.party l.1) s.chan p' ch' ∧
      t = ⟨Function.update s.party l.1 p', ch'⟩ := by
  simp only [Net.step] at h
  split at h
  · cases h
  · cases h
  · next f rest hprog =>
    cases h
    exact ⟨_, _, .comp f rest hprog, rfl⟩
  · next dst data rest hprog =>
    split at h
    · simp only [Option.ite_none_right_eq_some, Option.some.injEq] at h
      obtain ⟨⟨hk, hlen, hcap⟩, rfl⟩ := h
      exact ⟨_, _, .send dst data rest l.2 hprog hk hlen hcap, rfl⟩
    · next hend =>
      cases h
      exact ⟨_, _, .sent dst data rest hprog (by omega), rfl⟩
  · next src len put rest hprog =>
    split at h
    · simp only [Option.ite_none_right_eq_some, Option.some.injEq] at h
      obtain ⟨⟨hk, hlen, havail⟩, rfl⟩ := h
      exact ⟨_, _, .recv src len put rest l.2 hprog hk hlen havail, rfl⟩
    · next hend =>
      cases h
      exact ⟨_, _, .received src len put rest hprog (by omega), rfl⟩

/-- Every move is a step, with the number of bytes it moves. -/
theorem step_of_move {s : Net R M B} (h : Move cap r (s.party r) s.chan p' ch') :
    ∃ k, s.step cap (r, k) = some ⟨Function.update s.party r p', ch'⟩ := by
  cases h with
  | comp f rest hprog => exact ⟨0, by rw [Net.step, hprog]⟩
  | send dst data rest k hprog hk hlen hcap =>
    refine ⟨k, ?_⟩
    simp only [Net.step, hprog]
    rw [if_pos (by omega), if_pos ⟨hk, hlen, hcap⟩]
  | sent dst data rest hprog hend =>
    refine ⟨0, ?_⟩
    simp only [Net.step, hprog]
    rw [if_neg (by omega)]
  | recv src len put rest k hprog hk hlen havail =>
    refine ⟨k, ?_⟩
    simp only [Net.step, hprog]
    rw [if_pos (by omega), if_pos ⟨hk, hlen, havail⟩]
  | received src len put rest hprog hend =>
    refine ⟨0, ?_⟩
    simp only [Net.step, hprog]
    rw [if_neg (by omega)]

/-! ## The frame of a step

What a step of one party leaves alone, and what it does not depend on. A party sees a stream from
one end only: as sender it does not know what is in front, as receiver not what is behind. -/

/-- A party at the end of its program makes no move. -/
theorem Move.prog_ne_nil (h : Move cap r p ch p' ch') : p.prog ≠ [] := by
  cases h with
  | comp f rest hprog => simp [hprog]
  | send dst data rest k hprog => simp [hprog]
  | sent dst data rest hprog => simp [hprog]
  | recv src len put rest k hprog => simp [hprog]
  | received src len put rest hprog => simp [hprog]

/-- A party leaves alone the streams it has no end of. -/
theorem Move.chan_eq (h : Move cap r p ch p' ch') {c : R × R} (hsrc : c.1 ≠ r) (hdst : c.2 ≠ r) :
    ch' c = ch c := by
  cases h with
  | send dst => exact Function.update_of_ne (fun hc => hsrc (by rw [hc])) _ _
  | recv src => exact Function.update_of_ne (fun hc => hdst (by rw [hc])) _ _
  | _ => rfl

/-- A party that does not read the stream `c` makes the same move when the stream lacks the bytes
`w` it has in front. -/
theorem Move.of_longer {c : R × R} {w : List B} (h : Move cap r p ch p' ch') (hc : c.2 ≠ r)
    {rest : List B} (hch : ch c = w ++ rest) :
    ∃ rest', Move cap r p (Function.update ch c rest) p' (Function.update ch' c rest') ∧
      ch' c = w ++ rest' := by
  cases h with
  | comp f prog hprog => exact ⟨rest, .comp f prog hprog, hch⟩
  | sent dst data prog hprog hend => exact ⟨rest, .sent dst data prog hprog hend, hch⟩
  | received src len put prog hprog hend => exact ⟨rest, .received src len put prog hprog hend, hch⟩
  | recv src len put prog k hprog hk hlen havail =>
    -- it reads another stream
    have hne : (src, r) ≠ c := fun heq => hc (by rw [← heq])
    have hmove : Move cap r p (Function.update ch c rest) _ _ :=
      .recv src len put prog k hprog hk hlen (by rwa [Function.update_of_ne hne])
    rw [Function.update_of_ne hne, Function.update_comm hne.symm] at hmove
    refine ⟨rest, hmove, ?_⟩
    rw [Function.update_of_ne hne.symm, hch]
  | send dst data prog k hprog hk hlen hcap =>
    -- it writes to this one: behind everything that is there, for which there is room then as well
    by_cases heq : (r, dst) = c
    · subst heq
      have hroom : (Function.update ch (r, dst) rest (r, dst)).length + k ≤ cap (r, dst) := by
        rw [hch, List.length_append] at hcap
        rw [Function.update_self]
        omega
      have hmove : Move cap r p (Function.update ch (r, dst) rest) _ _ :=
        .send dst data prog k hprog hk hlen hroom
      rw [Function.update_self, Function.update_idem] at hmove
      refine ⟨rest ++ ((data p.mem).drop p.off).take k, by rwa [Function.update_idem], ?_⟩
      rw [Function.update_self, hch, List.append_assoc]
    · have hmove : Move cap r p (Function.update ch c rest) _ _ :=
        .send dst data prog k hprog hk hlen (by rwa [Function.update_of_ne heq])
      rw [Function.update_of_ne heq, Function.update_comm (Ne.symm heq)] at hmove
      refine ⟨rest, hmove, ?_⟩
      rw [Function.update_of_ne (Ne.symm heq), hch]

end Network
