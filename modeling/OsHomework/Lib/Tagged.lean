import Mathlib.Data.List.Nodup
import OsHomework.Lib.Choreography

/-!
# Which send a byte comes from

The bytes on a stream carry no hint of the message they belong to. To say that no message is taken
for another, the programs are given labels and run once more with every byte *tagged*: a send
writes its label, the length of its message and the position next to each byte, and a receive notes
for each byte it takes what it expects there and what it got. Tags are never looked at, so a run
with tags is a run without them.

* **`Net.Erases`**, **`tagged_of_reach`** — every run of the programs is a run with tags, the tags
  forgotten.
* **`receipts_match`** — in every run of a labelled choreography each byte received is the byte
  expected: of the same step, of a message of the same length, at the same position.
* **`sendsTo_eq_recvsFrom`** — on every stream the receives of one end are, in program order, the
  sends of the other.
-/

namespace Network

variable {R M B L : Type}

/-- Position `pos` in a message of `len` bytes of step `step`. -/
structure Tag (L : Type) where
  step : L
  len : Nat
  pos : Nat
  deriving DecidableEq

/-- For every byte received the tag the receiver expected and the tag the byte had. -/
abbrev Receipts (L : Type) := List (Tag L × Tag L)

/-- The bytes of a message with their tags. -/
def tagBytes (σ : L) (bs : List B) : List (B × Tag L) :=
  bs.mapIdx fun i b => (b, ⟨σ, bs.length, i⟩)

theorem length_tagBytes (σ : L) (bs : List B) : (tagBytes σ bs).length = bs.length :=
  List.length_mapIdx

theorem map_fst_tagBytes (σ : L) (bs : List B) : (tagBytes σ bs).map Prod.fst = bs := by
  refine List.ext_getElem ?_ fun i _ hi => ?_
  · rw [List.length_map, length_tagBytes]
  · simp only [tagBytes, List.getElem_map, List.getElem_mapIdx]

/-- Store a byte and note its tag. -/
def putTagged (σ : L) (len : Nat) (put : Nat → B → M → M) (i : Nat) (b : B × Tag L)
    (m : M × Receipts L) : M × Receipts L :=
  (put i b.1 m.1, m.2 ++ [(⟨σ, len, i⟩, b.2)])

/-- An action of step `σ` over tagged bytes. -/
def Act.tag (σ : L) : Act R M B → Act R (M × Receipts L) (B × Tag L)
  | .send dst data => .send dst fun m => tagBytes σ (data m.1)
  | .recv src len put => .recv src len (putTagged σ len put)
  | .comp f => .comp fun m => (f m.1, m.2)
  | .abort => .abort

/-- A program whose actions have labels, over tagged bytes. -/
def tagProg (prog : List (L × Act R M B)) : List (Act R (M × Receipts L) (B × Tag L)) :=
  prog.map fun a => a.2.tag a.1

/-- The parties before their programs. -/
def ofProgs (prog : R → List (Act R M B)) (m : R → M) : Net R M B where
  party := fun r => ⟨prog r, 0, m r⟩
  chan := fun _ => []

/-! ## Forgetting the tags

The programs over tagged bytes are made for the proofs only. That they speak about the programs
without tags is a simulation: whatever the programs do, the tagged ones can do the same, with the
same bytes in the same chunks. -/

/-- `p` is `q` without tags. -/
structure Party.Erases (q : Party R (M × Receipts L) (B × Tag L)) (p : Party R M B) : Prop where
  prog : ∃ prog : List (L × Act R M B), q.prog = tagProg prog ∧ p.prog = prog.map Prod.snd
  off : q.off = p.off
  mem : q.mem.1 = p.mem

/-- The same for all parties and all streams. -/
structure Net.Erases (t : Net R (M × Receipts L) (B × Tag L)) (s : Net R M B) : Prop where
  party : ∀ r, (t.party r).Erases (s.party r)
  chan : List.map Prod.fst ∘ t.chan = s.chan

/-- What is stored does not depend on tags. -/
theorem putAll_putTagged_fst (σ : L) (len : Nat) (put : Nat → B → M → M) (off : Nat)
    (bs : List (B × Tag L)) (m : M × Receipts L) :
    (putAll (putTagged σ len put) off bs m).1 = putAll put off (bs.map Prod.fst) m.1 := by
  induction bs generalizing off m with
  | nil => rfl
  | cons b bs ih => exact ih (off + 1) _

/-- The first action of a program without tags is one of the program with tags. -/
theorem Party.Erases.cons {q : Party R (M × Receipts L) (B × Tag L)} {p : Party R M B}
    (h : q.Erases p) {a : Act R M B} {rest : List (Act R M B)} (hprog : p.prog = a :: rest) :
    ∃ (σ : L) (prog : List (L × Act R M B)),
      q.prog = a.tag σ :: tagProg prog ∧ rest = prog.map Prod.snd := by
  obtain ⟨prog, hq, hp⟩ := h.prog
  rw [hp, List.map_eq_cons_iff] at hprog
  obtain ⟨⟨σ, a⟩, prog, rfl, rfl, hrest⟩ := hprog
  exact ⟨σ, prog, hq, hrest.symm⟩

variable [DecidableEq R] {cap : R × R → Nat} {r : R}

/-- Every move without tags can be made with them. -/
theorem Move.tag {p p₁ : Party R M B} {ch ch₁ : R × R → List B}
    {q : Party R (M × Receipts L) (B × Tag L)} {tch : R × R → List (B × Tag L)}
    (h : Move cap r p ch p₁ ch₁) (hparty : q.Erases p) (hchan : List.map Prod.fst ∘ tch = ch) :
    ∃ q₁ tch₁, Move cap r q tch q₁ tch₁ ∧ q₁.Erases p₁ ∧ List.map Prod.fst ∘ tch₁ = ch₁ := by
  obtain ⟨hoff, hmem⟩ := And.intro hparty.off hparty.mem
  -- tags change no length
  have hlength : ∀ c, (tch c).length = (ch c).length := fun c => by
    rw [← hchan, Function.comp_apply, List.length_map]
  cases h with
  | comp f rest hprog =>
    obtain ⟨σ, prog, hq, rfl⟩ := hparty.cons hprog
    exact ⟨_, _, .comp _ _ hq, ⟨⟨prog, rfl, rfl⟩, rfl, congrArg f hmem⟩, hchan⟩
  | send dst data rest k hprog hk hlen hcap =>
    obtain ⟨σ, prog, hq, rfl⟩ := hparty.cons hprog
    -- as many bytes are left to be sent
    have hdata : (tagBytes σ (data q.mem.1)).length = (data p.mem).length := by
      rw [length_tagBytes, hmem]
    refine ⟨_, _, .send dst _ _ k hq hk (by rw [hdata, hoff]; exact hlen)
      (by rw [hlength]; exact hcap), ⟨⟨(σ, .send dst data) :: prog, hq, hprog⟩, ?_, hmem⟩, ?_⟩
    · rw [hoff]
    -- the chunk without its tags is the chunk
    · rw [Function.comp_update, hchan, List.map_append, List.map_take, List.map_drop,
        map_fst_tagBytes, hmem, hoff, ← hchan, Function.comp_apply]
  | sent dst data rest hprog hend =>
    obtain ⟨σ, prog, hq, rfl⟩ := hparty.cons hprog
    refine ⟨_, _, .sent dst _ _ hq ?_, ⟨⟨prog, rfl, rfl⟩, rfl, hmem⟩, hchan⟩
    rw [length_tagBytes, hmem, hoff]
    exact hend
  | recv src len put rest k hprog hk hlen havail =>
    obtain ⟨σ, prog, hq, rfl⟩ := hparty.cons hprog
    refine ⟨_, _, .recv src len _ _ k hq hk (by rw [hoff]; exact hlen)
      (by rw [hlength]; exact havail), ⟨⟨(σ, .recv src len put) :: prog, hq, hprog⟩, ?_, ?_⟩, ?_⟩
    · rw [hoff]
    -- what is stored is the same, and the tags are noted besides
    · rw [putAll_putTagged_fst, List.map_take, hoff, hmem, ← hchan, Function.comp_apply]
    · rw [Function.comp_update, hchan, List.map_drop, ← hchan, Function.comp_apply]
  | received src len put rest hprog hend =>
    obtain ⟨σ, prog, hq, rfl⟩ := hparty.cons hprog
    exact ⟨_, _, .received src len _ _ hq (by rw [hoff]; exact hend),
      ⟨⟨prog, rfl, rfl⟩, rfl, hmem⟩, hchan⟩

/-- Every run without tags is one with tags. -/
theorem tagged_of_reach {prog : R → List (L × Act R M B)} {m : R → M} {s : Net R M B}
    (h : Lts.Reach (Net.step cap) (fun _ _ => True)
      (ofProgs (fun r => (prog r).map Prod.snd) m) s) :
    ∃ t, Lts.Reach (Net.step cap) (fun _ _ => True)
      (ofProgs (fun r => tagProg (prog r)) fun r => (m r, [])) t ∧ t.Erases s := by
  refine h.inv (I := fun s => ∃ t, Lts.Reach (Net.step cap) (fun _ _ => True)
    (ofProgs (fun r => tagProg (prog r)) fun r => (m r, [])) t ∧ t.Erases s)
    ⟨_, .refl, fun r => ⟨⟨prog r, rfl, rfl⟩, rfl, rfl⟩, rfl⟩ ?_
  rintro s l s' ⟨t, hreach, hparty, hchan⟩ _ hstep
  obtain ⟨p, ch, hmove, rfl⟩ := move_of_step hstep
  obtain ⟨q, tch, htagged, hq, htch⟩ := hmove.tag (hparty l.1) hchan
  -- the tagged party makes the same move, with the same number of bytes
  obtain ⟨k, hk⟩ := step_of_move htagged
  refine ⟨_, hreach.tail trivial hk, fun r => ?_, htch⟩
  show (Function.update t.party l.1 q r).Erases (Function.update s.party l.1 p r)
  -- the party that moved, and the others
  by_cases hr : r = l.1
  · rw [hr, Function.update_self, Function.update_self]
    exact hq
  · rw [Function.update_of_ne hr, Function.update_of_ne hr]
    exact hparty r

/-! ## Labelled choreographies

With tags a choreography is again a choreography, so its runs are known. That the tags expected are
the tags that came is a property of memories that each event keeps: a message that arrives from its
first byte on has the tags of its own positions. -/

/-- The program of party `r`, its actions with the labels of their events. -/
def labelledProj (r : R) (G : List (L × Ev R M B)) : List (L × Act R M B) :=
  G.flatMap fun e => (e.2.proj r).map (e.1, ·)

/-- A message with tags. -/
def Msg.tag (σ : L) (x : Msg R M B) : Msg R (M × Receipts L) (B × Tag L) where
  src := x.src
  dst := x.dst
  src_ne_dst := x.src_ne_dst
  data := fun m => tagBytes σ (x.data m.1)
  len := x.len
  length_data := fun m => by rw [length_tagBytes, x.length_data]
  put := putTagged σ x.len x.put

/-- An event with tags. -/
def Ev.tag (σ : L) : Ev R M B → Ev R (M × Receipts L) (B × Tag L)
  | .msg x => .msg (x.tag σ)
  | .comp r f => .comp r fun m => (f m.1, m.2)

/-- Tags and shares commute. -/
theorem Ev.proj_tag (r : R) (σ : L) (e : Ev R M B) :
    (e.tag σ).proj r = (e.proj r).map (Act.tag σ) := by
  cases e with
  | msg x =>
    simp only [Ev.tag, Ev.proj, Msg.tag]
    split
    · rfl
    · split <;> rfl
  | comp q f =>
    simp only [Ev.tag, Ev.proj]
    split <;> rfl

/-- The tagged programs are those of the tagged choreography. -/
theorem tagProg_labelledProj (r : R) (G : List (L × Ev R M B)) :
    tagProg (labelledProj r G) = proj r (G.map fun e => e.2.tag e.1) := by
  rw [tagProg, labelledProj, proj, List.map_flatMap, List.flatMap_map]
  refine List.flatMap_congr fun e _ => ?_
  rw [Ev.proj_tag, List.map_map]
  rfl

/-- Without labels the programs are those of the choreography. -/
theorem map_snd_labelledProj (r : R) (G : List (L × Ev R M B)) :
    (labelledProj r G).map Prod.snd = proj r (G.map Prod.snd) := by
  rw [labelledProj, proj, List.map_flatMap, List.flatMap_map]
  refine List.flatMap_congr fun e _ => ?_
  rw [List.map_map]
  exact List.map_id _

/-- What is expected is what came. -/
def AllMatch (m : M × Receipts L) : Prop := ∀ e ∈ m.2, e.1 = e.2

/-- Bytes that carry the tags of positions `off`, `off + 1`, … are those expected there. -/
theorem allMatch_putAll {σ : L} {len : Nat} {put : Nat → B → M → M} {off : Nat}
    {bs : List (B × Tag L)} {m : M × Receipts L}
    (hbs : ∀ i (hi : i < bs.length), bs[i].2 = ⟨σ, len, off + i⟩) (hm : AllMatch m) :
    AllMatch (putAll (putTagged σ len put) off bs m) := by
  induction bs generalizing off m with
  | nil => exact hm
  | cons b bs ih =>
    refine ih (fun i hi => ?_) ?_
    · have hnext := hbs (i + 1) (Nat.succ_lt_succ hi)
      rwa [List.getElem_cons_succ, ← Nat.add_assoc, Nat.add_right_comm] at hnext
    · intro e he
      rcases List.mem_append.mp he with he | he
      · exact hm e he
      · have hfirst : b.2 = ⟨σ, len, off⟩ := hbs 0 (Nat.zero_lt_succ _)
        rw [List.mem_singleton.mp he, hfirst]

omit [DecidableEq R] in
/-- Every event keeps the tags in agreement. -/
theorem Ev.keeps_allMatch (σ : L) (e : Ev R M B) : (e.tag σ).Keeps AllMatch := by
  cases e with
  | msg x =>
    intro msrc mdst b hm
    refine allMatch_putAll (fun i hi => ?_) hm
    simp only [Msg.tag, tagBytes, List.getElem_take, List.getElem_mapIdx, x.length_data,
      Nat.zero_add]
  | comp q f => exact fun m hm => hm

/-- **No byte is taken for another.** In every run of a labelled choreography with tags. -/
theorem receipts_match (G : List (L × Ev R M B)) (m : R → M)
    {t : Net R (M × Receipts L) (B × Tag L)}
    (h : Lts.Reach (Net.step cap) (fun _ _ => True)
      (ofProgs (fun r => tagProg (labelledProj r G)) fun r => (m r, [])) t) :
    ∀ r, AllMatch (t.party r).mem := by
  have hstart : ofProgs (fun r => tagProg (labelledProj r G)) (fun r => (m r, [])) =
      start (G.map fun e => e.2.tag e.1) fun r => (m r, []) := by
    simp only [ofProgs, start, tagProg_labelledProj]
  rw [hstart] at h
  refine (sim_of_reach h).mem_inv (fun e he => ?_) fun r e he => absurd he List.not_mem_nil
  obtain ⟨a, -, rfl⟩ := List.mem_map.mp he
  exact Ev.keeps_allMatch a.1 a.2

/-! ## The two ends of a stream

The programs of sender and receiver are shares of one list, hence agree on the order of the messages
between them. -/

/-- The labels of the sends to a party, in program order. -/
def sendsTo (dst : R) (prog : List (L × Act R M B)) : List L :=
  prog.flatMap fun a => match a.2 with
    | .send d _ => if d = dst then [a.1] else []
    | _ => []

/-- The labels of the receives from a party. -/
def recvsFrom (src : R) (prog : List (L × Act R M B)) : List L :=
  prog.flatMap fun a => match a.2 with
    | .recv s _ _ => if s = src then [a.1] else []
    | _ => []

theorem sendsTo_append (dst : R) (prog prog' : List (L × Act R M B)) :
    sendsTo dst (prog ++ prog') = sendsTo dst prog ++ sendsTo dst prog' := List.flatMap_append

/-- A send of `src` to `dst` is a message from the one to the other. -/
theorem sendsTo_msg (src dst : R) (σ : L) (x : Msg R M B) :
    sendsTo dst (((Ev.msg x).proj src).map (σ, ·)) =
      if src = x.src ∧ dst = x.dst then [σ] else [] := by
  rw [Ev.proj]
  by_cases hsrc : src = x.src
  · rw [if_pos hsrc, List.map_singleton, sendsTo, List.flatMap_singleton]
    by_cases hdst : dst = x.dst
    · rw [if_pos ⟨hsrc, hdst⟩]
      exact if_pos hdst.symm
    · rw [if_neg fun h => hdst h.2]
      exact if_neg (Ne.symm hdst)
  · have hmsg : ¬ (src = x.src ∧ dst = x.dst) := fun h => hsrc h.1
    rw [if_neg hsrc, if_neg hmsg]
    split <;> rfl

/-- And so is a receive of `dst` from `src`. -/
theorem recvsFrom_msg {src dst : R} (hne : src ≠ dst) (σ : L) (x : Msg R M B) :
    recvsFrom src (((Ev.msg x).proj dst).map (σ, ·)) =
      if src = x.src ∧ dst = x.dst then [σ] else [] := by
  rw [Ev.proj]
  -- a party that sends the message does not receive it
  by_cases hsend : dst = x.src
  · rw [if_pos hsend, if_neg fun h => hne (h.1.trans hsend.symm)]
    rfl
  · rw [if_neg hsend]
    by_cases hdst : dst = x.dst
    · rw [if_pos hdst, List.map_singleton, recvsFrom, List.flatMap_singleton]
      by_cases hsrc : src = x.src
      · rw [if_pos ⟨hsrc, hdst⟩]
        exact if_pos hsrc.symm
      · rw [if_neg fun h => hsrc h.1]
        exact if_neg (Ne.symm hsrc)
    · rw [if_neg hdst, if_neg fun h => hdst h.2]
      rfl

/-- **Both ends** of a stream have the messages in the same order. -/
theorem sendsTo_eq_recvsFrom {src dst : R} (hne : src ≠ dst) (G : List (L × Ev R M B)) :
    sendsTo dst (labelledProj src G) = recvsFrom src (labelledProj dst G) := by
  rw [sendsTo, recvsFrom, labelledProj, labelledProj, List.flatMap_assoc, List.flatMap_assoc]
  refine List.flatMap_congr fun e _ => ?_
  obtain ⟨σ, e⟩ := e
  cases e with
  | comp q f =>
    simp only [Ev.proj]
    split <;> split <;> rfl
  | msg x => exact (sendsTo_msg src dst σ x).trans (recvsFrom_msg hne σ x).symm

/-! ## Choreographies made of steps

A protocol is a list of steps that are choreographies. The label of a step distinguishes the
messages on a stream as long as no step uses the stream twice. -/

/-- The steps of a protocol one after the other, each part with the label of its step. -/
def labelled {α : Type} (steps : List (L × List α)) : List (L × α) :=
  steps.flatMap fun p => p.2.map (p.1, ·)

/-- The program of a party, step by step. -/
theorem labelledProj_labelled (r : R) (steps : List (L × List (Ev R M B))) :
    labelledProj r (labelled steps) = labelled (steps.map fun p => (p.1, proj r p.2)) := by
  rw [labelledProj, labelled, labelled, List.flatMap_assoc, List.flatMap_map]
  refine List.flatMap_congr fun p _ => ?_
  rw [List.flatMap_map, proj, List.map_flatMap]

/-- The streams a choreography uses, message by message. -/
def links (G : List (Ev R M B)) : List (R × R) :=
  G.flatMap fun
    | .msg x => [(x.src, x.dst)]
    | .comp _ _ => []

omit [DecidableEq R] in
theorem links_append (G H : List (Ev R M B)) : links (G ++ H) = links G ++ links H :=
  List.flatMap_append

omit [DecidableEq R] in
theorem links_cons (e : Ev R M B) (G : List (Ev R M B)) : links (e :: G) = links [e] ++ links G :=
  links_append [e] G

omit [DecidableEq R] in
theorem links_flatMap {α : Type} (xs : List α) (f : α → List (Ev R M B)) :
    links (xs.flatMap f) = xs.flatMap fun x => links (f x) := by
  rw [links, List.flatMap_assoc]
  rfl

/-- A step labels the sends on a stream once for every message on it. -/
theorem sendsTo_step (src dst : R) (σ : L) (G : List (Ev R M B)) :
    sendsTo dst ((proj src G).map (σ, ·)) = List.replicate ((links G).count (src, dst)) σ := by
  induction G with
  | nil => rfl
  | cons e G ih =>
    rw [proj_cons, List.map_append, sendsTo_append, ih, links_cons, List.count_append,
      List.replicate_add]
    congr 1
    -- one event: a computation sends nothing, a message once or not at all
    cases e with
    | comp q f =>
      simp only [Ev.proj]
      split <;> rfl
    | msg x =>
      simp only [Ev.proj, sendsTo, links]
      by_cases hsrc : src = x.src
      · subst hsrc
        by_cases hdst : x.dst = dst
        · simp [hdst]
        · simp [hdst]
      -- the message is on another stream
      · have hne : (x.src, x.dst) ≠ (src, dst) := fun h => hsrc (Prod.ext_iff.mp h).1.symm
        have hcount : [(x.src, x.dst)].count (src, dst) = 0 :=
          List.count_eq_zero.mpr fun h => hne (List.mem_singleton.mp h).symm
        rw [if_neg hsrc]
        show _ = List.replicate ([(x.src, x.dst)].count (src, dst)) σ
        rw [hcount]
        split <;> rfl

/-- **The label of a send tells it from every other send on its stream**, if the steps have
different labels and no step uses a stream twice. -/
theorem nodup_sendsTo {steps : List (L × List (Ev R M B))} (hlabels : (steps.map Prod.fst).Nodup)
    (hlinks : ∀ p ∈ steps, (links p.2).Nodup) (src dst : R) :
    (sendsTo dst (labelledProj src (labelled steps))).Nodup := by
  refine List.Nodup.sublist ?_ hlabels
  rw [labelledProj_labelled]
  clear hlabels
  induction steps with
  | nil => exact List.Sublist.refl _
  | cons p steps ih =>
    obtain ⟨hp, hlinks⟩ := List.forall_mem_cons.mp hlinks
    rw [List.map_cons, labelled, List.flatMap_cons, sendsTo_append, ← labelled, sendsTo_step,
      List.map_cons, ← List.singleton_append]
    refine List.Sublist.append ?_ (ih hlinks)
    exact (List.replicate_sublist_replicate p.1).mpr (List.nodup_iff_count_le_one.mp hp _)

end Network
