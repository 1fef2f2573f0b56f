import OsHomework.Lib.Network

/-!
# Choreographies over byte streams

A choreography is the list of messages and local computations of a protocol in *one* order in which
it could happen. Each party's program is its share of the list (`proj`). Run over streams the
parties drift apart: some are still sending what others have long been waiting for, and bytes of
several messages queue up on one stream. The result is nevertheless that of the list, message by
message.

* **`Sim`** — the states a choreography can be in, by recursion over the list: a message is
  complete, or some of it is still to be sent or to be received; completing it in one go leads to a
  state of the rest of the list.
* **`Sim.step`** — every step of every party stays among them.
* **`Sim.progress`**, **`Sim.final`** — none of them but the last is stuck, and the last one is the
  result of the list.
* **`choreography_correct`** — the three together, for every state reached.
* **`Sim.mem_inv`** — a property of memories that every event keeps holds at every moment.
-/

namespace Network

variable {R M B : Type} [DecidableEq R]

/-- A message between two different parties whose length does not depend on the sender's memory. -/
structure Msg (R M B : Type) where
  src : R
  dst : R
  src_ne_dst : src ≠ dst
  data : M → List B
  len : Nat
  length_data : ∀ m, (data m).length = len
  put : Nat → B → M → M

/-- One event of a choreography. -/
inductive Ev (R M B : Type) where
  | msg (x : Msg R M B)
  | comp (r : R) (f : M → M)

/-- The share of party `r` in an event. -/
def Ev.proj (r : R) : Ev R M B → List (Act R M B)
  | .msg x => if r = x.src then [.send x.dst x.data]
    else if r = x.dst then [.recv x.src x.len x.put] else []
  | .comp q f => if r = q then [.comp f] else []

/-- The program of party `r`. -/
def proj (r : R) (G : List (Ev R M B)) : List (Act R M B) := G.flatMap (Ev.proj r)

/-- The memory of the receiver after the message. -/
def Msg.stored (x : Msg R M B) (m : R → M) : M := putAll x.put 0 (x.data (m x.src)) (m x.dst)

/-- The memories after an event. -/
def Ev.apply (m : R → M) : Ev R M B → (R → M)
  | .msg x => Function.update m x.dst (x.stored m)
  | .comp r f => Function.update m r (f (m r))

/-- The memories after a choreography. -/
def runEvs (G : List (Ev R M B)) (m : R → M) : R → M := G.foldl Ev.apply m

/-- Choreographies one behind the other. -/
theorem runEvs_append_apply (G H : List (Ev R M B)) (m : R → M) (r : R) :
    runEvs (G ++ H) m r = runEvs H (runEvs G m) r := by
  unfold runEvs
  rw [List.foldl_append]

theorem proj_cons (r : R) (e : Ev R M B) (G : List (Ev R M B)) :
    proj r (e :: G) = e.proj r ++ proj r G := rfl

theorem proj_comp_self (r : R) (f : M → M) (G : List (Ev R M B)) :
    proj r (.comp r f :: G) = .comp f :: proj r G := by
  simp [proj_cons, Ev.proj]

theorem proj_msg_src (x : Msg R M B) (G : List (Ev R M B)) :
    proj x.src (.msg x :: G) = .send x.dst x.data :: proj x.src G := by
  simp [proj_cons, Ev.proj]

theorem proj_msg_dst (x : Msg R M B) (G : List (Ev R M B)) :
    proj x.dst (.msg x :: G) = .recv x.src x.len x.put :: proj x.dst G := by
  simp [proj_cons, Ev.proj, x.src_ne_dst.symm]

theorem proj_msg_other {x : Msg R M B} {r : R} (hsrc : r ≠ x.src) (hdst : r ≠ x.dst)
    (G : List (Ev R M B)) : proj r (.msg x :: G) = proj r G := by
  simp [proj_cons, Ev.proj, hsrc, hdst]

/-- The parties before a choreography. -/
def start (G : List (Ev R M B)) (m : R → M) : Net R M B where
  party := fun r => ⟨proj r G, 0, m r⟩
  chan := fun _ => []

/-! ## The states of a choreography

A party may be many events ahead of another one, so that a state cannot be described by one position
in the list. It is described from the front: for the first event of the list it says how far either
end is, and what is then left, with that event completed, is a state of the rest of the list. That
the parties are out of step shows as several events in a row of which one end only is through.

The bytes of a message that is sent and not received stand at the front of the stream. Those behind
them belong to later messages, of which the rest of the list gives an account. -/

/-- The sender of `x` with `a` bytes handed over. -/
def Msg.sending (x : Msg R M B) (G : List (Ev R M B)) (m : R → M) (a : Nat) : Party R M B :=
  ⟨.send x.dst x.data :: proj x.src G, a, m x.src⟩

/-- The receiver of `x` with `b` bytes stored. -/
def Msg.receiving (x : Msg R M B) (G : List (Ev R M B)) (m : R → M) (b : Nat) : Party R M B :=
  ⟨.recv x.src x.len x.put :: proj x.dst G, b,
    putAll x.put 0 ((x.data (m x.src)).take b) (m x.dst)⟩

/-- The sender and the receiver of `x` when they are through with it. -/
def Msg.srcDone (x : Msg R M B) (G : List (Ev R M B)) (m : R → M) : Party R M B :=
  ⟨proj x.src G, 0, m x.src⟩

/-- The receiver, with the whole message stored. -/
def Msg.dstDone (x : Msg R M B) (G : List (Ev R M B)) (m : R → M) : Party R M B :=
  ⟨proj x.dst G, 0, x.stored m⟩

/-- The states the choreography can be in when it started from the memories `m`. For each message at
the head of the list: neither end is through with it, only the sender is, only the receiver is, or
both are; completing it leads to a state of the rest. -/
inductive Sim : List (Ev R M B) → (R → M) → (R → Party R M B) → (R × R → List B) → Prop where
  | nil {m : R → M} {P : R → Party R M B} {ch : R × R → List B} (hP : ∀ r, P r = ⟨[], 0, m r⟩)
      (hch : ∀ c, ch c = []) : Sim [] m P ch
  | compTodo {r : R} {f : M → M} {G : List (Ev R M B)} {m : R → M} {P : R → Party R M B}
      {ch : R × R → List B} (hP : P r = ⟨.comp f :: proj r G, 0, m r⟩)
      -- the rest of the list is in a state in which the event is complete
      (h : Sim G (Function.update m r (f (m r))) (Function.update P r ⟨proj r G, 0, f (m r)⟩) ch) :
      Sim (.comp r f :: G) m P ch
  | compDone {r : R} {f : M → M} {G : List (Ev R M B)} {m : R → M} {P : R → Party R M B}
      {ch : R × R → List B} (h : Sim G (Function.update m r (f (m r))) P ch) :
      Sim (.comp r f :: G) m P ch
  | todo {x : Msg R M B} {G : List (Ev R M B)} {m : R → M} {P : R → Party R M B}
      -- `a` bytes are handed over and `b` of them taken, so what lies between is in transit
      {ch : R × R → List B} (a b : Nat) (hab : b ≤ a) (ha : a ≤ x.len)
      (hsrc : P x.src = x.sending G m a) (hdst : P x.dst = x.receiving G m b)
      (hch : ch (x.src, x.dst) = ((x.data (m x.src)).take a).drop b)
      (h : Sim G (Function.update m x.dst (x.stored m))
        (Function.update (Function.update P x.src (x.srcDone G m)) x.dst (x.dstDone G m))
        (Function.update ch (x.src, x.dst) [])) :
      Sim (.msg x :: G) m P ch
  | sent {x : Msg R M B} {G : List (Ev R M B)} {m : R → M} {P : R → Party R M B}
      -- `rest` are bytes of later messages on the same stream
      {ch : R × R → List B} (b : Nat) (hb : b ≤ x.len) (rest : List B)
      (hdst : P x.dst = x.receiving G m b)
      (hch : ch (x.src, x.dst) = (x.data (m x.src)).drop b ++ rest)
      (h : Sim G (Function.update m x.dst (x.stored m))
        (Function.update P x.dst (x.dstDone G m)) (Function.update ch (x.src, x.dst) rest)) :
      Sim (.msg x :: G) m P ch
  -- the sender has not yet noticed that all its bytes are handed over
  | received {x : Msg R M B} {G : List (Ev R M B)} {m : R → M} {P : R → Party R M B}
      {ch : R × R → List B} (hsrc : P x.src = x.sending G m x.len)
      (h : Sim G (Function.update m x.dst (x.stored m))
        (Function.update P x.src (x.srcDone G m)) ch) :
      Sim (.msg x :: G) m P ch
  | done {x : Msg R M B} {G : List (Ev R M B)} {m : R → M} {P : R → Party R M B}
      {ch : R × R → List B} (h : Sim G (Function.update m x.dst (x.stored m)) P ch) :
      Sim (.msg x :: G) m P ch

/-- The start is a state of the choreography. -/
theorem sim_start (G : List (Ev R M B)) (m : R → M) :
    Sim G m (start G m).party (start G m).chan := by
  induction G generalizing m with
  | nil => exact .nil (fun _ => rfl) fun _ => rfl
  | cons e G ih =>
    cases e with
    | comp r f =>
      refine .compTodo (by simp [start, proj_cons, Ev.proj]) ?_
      -- the first event completed leaves the parties before the rest of the list
      have hparty : Function.update (start (.comp r f :: G) m).party r ⟨proj r G, 0, f (m r)⟩ =
          (start G (Function.update m r (f (m r)))).party := by
        funext q
        by_cases hq : q = r
        · subst hq
          simp [start]
        · simp [start, proj_cons, Ev.proj, hq]
      rw [hparty]
      exact ih _
    | msg x =>
      -- nothing is handed over yet
      refine .todo 0 0 (Nat.le_refl 0) (Nat.zero_le _) ?_ ?_ rfl ?_
      · simp only [start, Msg.sending, proj_msg_src]
      · simp only [start, Msg.receiving, proj_msg_dst]
        rfl
      · have hparty : Function.update (Function.update (start (.msg x :: G) m).party x.src
            (x.srcDone G m)) x.dst (x.dstDone G m) =
              (start G (Function.update m x.dst (x.stored m))).party := by
          funext q
          by_cases hdst : q = x.dst
          · subst hdst
            simp [start, Msg.dstDone]
          · by_cases hsrc : q = x.src
            · subst hsrc
              simp [start, Msg.srcDone, x.src_ne_dst]
            · simp [start, hdst, hsrc, proj_msg_other hsrc hdst]
        have hchan : Function.update (start (.msg x :: G) m).chan (x.src, x.dst) [] =
            (start G (Function.update m x.dst (x.stored m))).chan :=
          Function.update_eq_self (x.src, x.dst) (fun _ => [])
        rw [hparty, hchan]
        exact ih _

/-! ## Nothing is stuck, and the end is the result of the list

Both are read off the first event that is not complete. Its sender either has room or has its bytes
taken by the receiver, and its receiver either has bytes waiting or a sender that can go on.
Positive capacities are all that is needed, so no cycle of parties waits for each other. -/

variable {cap : R × R → Nat} {G : List (Ev R M B)} {m : R → M} {P : R → Party R M B}
  {ch : R × R → List B}

/-- **The end.** All parties are through with every message, so the memories are those of the list.
-/
theorem Sim.final (h : Sim G m P ch) (hfinal : ∀ r, (P r).prog = []) :
    (∀ r, (P r).mem = runEvs G m r) ∧ ∀ c, ch c = [] := by
  induction h with
  | nil hP hch => exact ⟨fun r => by rw [hP r]; rfl, hch⟩
  -- a party with something left to do is not through
  | compTodo hP =>
    have hprog := congrArg Party.prog hP
    rw [hfinal] at hprog
    cases hprog
  | compDone _ ih => exact ih hfinal
  | todo _ _ _ _ hsrc =>
    have hprog := congrArg Party.prog hsrc
    rw [hfinal] at hprog
    cases hprog
  | sent _ _ _ hdst =>
    have hprog := congrArg Party.prog hdst
    rw [hfinal] at hprog
    cases hprog
  | received hsrc =>
    have hprog := congrArg Party.prog hsrc
    rw [hfinal] at hprog
    cases hprog
  | done _ ih => exact ih hfinal

/-- A receiver with bytes of its message waiting can take one. -/
theorem move_receiving {x : Msg R M B} {b : Nat} (hdst : P x.dst = x.receiving G m b)
    (hb : b < x.len) (havail : 0 < (ch (x.src, x.dst)).length) :
    ∃ p' ch', Move cap x.dst (P x.dst) ch p' ch' := by
  rw [hdst]
  exact ⟨_, _, .recv x.src x.len x.put _ 1 rfl Nat.one_pos hb havail⟩

/-- A receiver with its message complete can go on. -/
theorem move_received {x : Msg R M B} {b : Nat} (hdst : P x.dst = x.receiving G m b)
    (hb : x.len ≤ b) : ∃ p' ch', Move cap x.dst (P x.dst) ch p' ch' := by
  rw [hdst]
  exact ⟨_, _, .received x.src x.len x.put _ rfl hb⟩

/-- A sender with its message handed over can go on. -/
theorem move_sent {x : Msg R M B} {a : Nat} (hsrc : P x.src = x.sending G m a) (ha : x.len ≤ a) :
    ∃ p' ch', Move cap x.src (P x.src) ch p' ch' := by
  rw [hsrc]
  exact ⟨_, _, .sent x.dst x.data _ rfl (by rw [x.length_data]; exact ha)⟩

/-- **Progress.** Somebody can move, unless all are through. -/
theorem Sim.progress (hcap : ∀ c, 0 < cap c) (h : Sim G m P ch) :
    (∀ r, (P r).prog = []) ∨ ∃ r p' ch', Move cap r (P r) ch p' ch' := by
  induction h with
  | nil hP => exact Or.inl fun r => by rw [hP r]
  | compTodo hP => exact Or.inr ⟨_, _, _, .comp _ _ (by rw [hP])⟩
  | compDone _ ih => exact ih
  | @todo x G m P ch a b hab ha hsrc hdst hch =>
    right
    have hlen : (ch (x.src, x.dst)).length = a - b := by
      simp [hch, x.length_data, Nat.min_eq_left ha]
    -- bytes are in transit and can be taken
    by_cases hba : b < a
    · exact ⟨x.dst, move_receiving hdst (by omega) (by omega)⟩
    · by_cases halen : a < x.len
      · -- everything handed over so far has been taken, so there is room
        have hroom := hcap (x.src, x.dst)
        refine ⟨x.src, ?_⟩
        rw [hsrc]
        exact ⟨_, _, .send x.dst x.data _ 1 rfl Nat.one_pos
          (by rw [x.length_data]; exact halen) (by omega)⟩
      · exact ⟨x.src, move_sent hsrc (by omega)⟩
  | @sent x G m P ch b hb rest hdst hch =>
    right
    by_cases hlt : b < x.len
    · refine ⟨x.dst, move_receiving hdst hlt ?_⟩
      simp [hch, x.length_data]
      omega
    · exact ⟨x.dst, move_received hdst (by omega)⟩
  | received hsrc => exact Or.inr ⟨_, move_sent hsrc (Nat.le_refl _)⟩
  | done _ ih => exact ih

/-! ## Every step stays among the states

A move belongs to the first event in which the party has not done its share. For the events in front
of that it is the move of a party that has no part in them or is through with its part, and it can
be made as well in the state in which they are complete: this is where `Move.of_longer` is used, the
bytes in front of the stream being those that the completion takes away. -/

variable {r : R} {p' : Party R M B} {ch' : R × R → List B}

/-- A chunk of the waiting bytes continues what the receiver has stored. -/
theorem putAll_take_drop (put : Nat → B → M → M) (w : List B) {b k : Nat} (hle : b + k ≤ w.length)
    (mem : M) :
    putAll put b ((w.drop b).take k) (putAll put 0 (w.take b) mem) =
      putAll put 0 (w.take (b + k)) mem := by
  rw [List.take_add, putAll_append, List.length_take, Nat.min_eq_left (by omega), Nat.zero_add]

/-- A chunk that is handed over joins the bytes in transit. -/
theorem take_append_chunk (w : List B) {a b k : Nat} (hab : b ≤ a) (hle : a + k ≤ w.length) :
    (w.take a).drop b ++ (w.drop a).take k = (w.take (a + k)).drop b := by
  rw [List.take_add, List.drop_append_of_le_length]
  rw [List.length_take]
  omega

/-- The first of the bytes in transit. -/
theorem take_of_take_drop (w : List B) {a b k : Nat} (hle : b + k ≤ a) :
    ((w.take a).drop b).take k = (w.drop b).take k := by
  rw [List.drop_take, List.take_take, Nat.min_eq_left (by omega)]

/-- The sender of a message neither end is through with. -/
theorem Sim.step_todo_src {x : Msg R M B} {a b : Nat} (hab : b ≤ a) (ha : a ≤ x.len)
    (hsrc : P x.src = x.sending G m a) (hdst : P x.dst = x.receiving G m b)
    (hch : ch (x.src, x.dst) = ((x.data (m x.src)).take a).drop b)
    (h : Sim G (Function.update m x.dst (x.stored m))
      (Function.update (Function.update P x.src (x.srcDone G m)) x.dst (x.dstDone G m))
      (Function.update ch (x.src, x.dst) []))
    (hmove : Move cap x.src (P x.src) ch p' ch') :
    Sim (.msg x :: G) m (Function.update P x.src p') ch' := by
  have hdst' : Function.update P x.src p' x.dst = x.receiving G m b := by
    rw [Function.update_of_ne x.src_ne_dst.symm, hdst]
  rw [hsrc] at hmove
  cases hmove with
  | comp f rest hprog => cases hprog
  | recv src len put rest k hprog => cases hprog
  | received src len put rest hprog => cases hprog
  | send dst data rest k hprog hk hlen hcap =>
    cases hprog
    have hlen' : a + k ≤ x.len := by rw [← x.length_data (m x.src)]; exact hlen
    -- a chunk more is handed over
    refine .todo (a + k) b (by omega) hlen' (Function.update_self ..) hdst' ?_ ?_
    · rw [Function.update_self, hch]
      exact take_append_chunk _ hab hlen
    · rwa [Function.update_idem, Function.update_idem]
  | sent dst data rest hprog hend =>
    cases hprog
    have hall : (x.data (m x.src)).take a = x.data (m x.src) := List.take_of_length_le hend
    -- the message is out, with nothing of another one behind it
    rw [hall] at hch
    refine .sent b (by omega) [] hdst' (by rw [hch, List.append_nil]) ?_
    exact h

/-- The receiver of a message neither end is through with. -/
theorem Sim.step_todo_dst {x : Msg R M B} {a b : Nat} (hab : b ≤ a) (ha : a ≤ x.len)
    (hsrc : P x.src = x.sending G m a) (hdst : P x.dst = x.receiving G m b)
    (hch : ch (x.src, x.dst) = ((x.data (m x.src)).take a).drop b)
    (h : Sim G (Function.update m x.dst (x.stored m))
      (Function.update (Function.update P x.src (x.srcDone G m)) x.dst (x.dstDone G m))
      (Function.update ch (x.src, x.dst) []))
    (hmove : Move cap x.dst (P x.dst) ch p' ch') :
    Sim (.msg x :: G) m (Function.update P x.dst p') ch' := by
  have hsrc' : Function.update P x.dst p' x.src = x.sending G m a := by
    rw [Function.update_of_ne x.src_ne_dst, hsrc]
  have hlen := x.length_data (m x.src)
  -- in the completed state the order of the two parties does not matter
  rw [Function.update_comm x.src_ne_dst] at h
  rw [hdst] at hmove
  cases hmove with
  | comp f rest hprog => cases hprog
  | send dst data rest k hprog => cases hprog
  | sent dst data rest hprog => cases hprog
  | recv src len put rest k hprog hk hle havail =>
    cases hprog
    -- a receiver takes no more than what is handed over
    have hka : b + k ≤ a := by
      rw [hch, List.length_drop, List.length_take] at havail
      omega
    refine .todo a (b + k) hka ha hsrc' ?_ ?_ ?_
    · rw [Function.update_self, hch, take_of_take_drop _ hka]
      simp only [Msg.receiving]
      rw [putAll_take_drop _ _ (by omega)]
    · rw [Function.update_self, hch, List.drop_drop]
    · rwa [Function.update_comm x.src_ne_dst, Function.update_idem, Function.update_idem]
  | received src len put rest hprog hend =>
    cases hprog
    have hend' : x.len ≤ b := hend
    -- everything was handed over and taken, so nothing is in transit
    obtain rfl : a = x.len := by omega
    have hempty : ch (x.src, x.dst) = [] := by
      rw [hch, List.drop_eq_nil_iff, List.length_take]
      omega
    refine .received hsrc' ?_
    have hall : (x.data (m x.src)).take b = x.data (m x.src) := List.take_of_length_le (by omega)
    rw [← hempty, Function.update_eq_self] at h
    simp only [Msg.receiving, hall]
    rwa [Function.update_comm x.src_ne_dst.symm] at h ⊢

/-- The receiver of a message whose sender is through with it. -/
theorem Sim.step_sent_dst {x : Msg R M B} {b : Nat} (hb : b ≤ x.len) {rest : List B}
    (hdst : P x.dst = x.receiving G m b)
    (hch : ch (x.src, x.dst) = (x.data (m x.src)).drop b ++ rest)
    (h : Sim G (Function.update m x.dst (x.stored m))
      (Function.update P x.dst (x.dstDone G m)) (Function.update ch (x.src, x.dst) rest))
    (hmove : Move cap x.dst (P x.dst) ch p' ch') :
    Sim (.msg x :: G) m (Function.update P x.dst p') ch' := by
  have hlen := x.length_data (m x.src)
  rw [hdst] at hmove
  cases hmove with
  | comp f prog hprog => cases hprog
  | send dst data prog k hprog => cases hprog
  | sent dst data prog hprog => cases hprog
  | recv src len put prog k hprog hk hle havail =>
    cases hprog
    have hle' : b + k ≤ x.len := hle
    have hk' : k ≤ ((x.data (m x.src)).drop b).length := by
      rw [List.length_drop]
      omega
    -- what it takes is in front of the bytes of later messages
    refine .sent (b + k) hle' rest ?_ ?_ ?_
    · rw [Function.update_self, hch, List.take_append_of_le_length hk']
      simp only [Msg.receiving]
      rw [putAll_take_drop _ _ (by omega)]
    · rw [Function.update_self, hch, List.drop_append_of_le_length hk', List.drop_drop]
    · rwa [Function.update_idem, Function.update_idem]
  | received src len put prog hprog hend =>
    cases hprog
    have hend' : x.len ≤ b := hend
    have hnone : (x.data (m x.src)).drop b = [] := by
      rw [List.drop_eq_nil_iff]
      omega
    have hall : (x.data (m x.src)).take b = x.data (m x.src) := List.take_of_length_le (by omega)
    -- the stream holds bytes of later messages only
    rw [hnone, List.nil_append] at hch
    refine .done ?_
    rw [← hch, Function.update_eq_self] at h
    simp only [Msg.receiving, hall]
    exact h

/-- **One step** of any party leads to a state of the choreography. -/
theorem Sim.step (h : Sim G m P ch) (hmove : Move cap r (P r) ch p' ch') :
    Sim G m (Function.update P r p') ch' := by
  induction h generalizing p' ch' with
  | nil hP =>
    exact absurd (by rw [hP r]) hmove.prog_ne_nil
  | @compTodo q f G m P ch hP h ih =>
    by_cases hr : r = q
    · subst hr
      rw [hP] at hmove
      cases hmove with
      | comp f rest hprog =>
        cases hprog
        exact .compDone h
      | send dst data rest k hprog => cases hprog
      | sent dst data rest hprog => cases hprog
      | recv src len put rest k hprog => cases hprog
      | received src len put rest hprog => cases hprog
    -- another party: it moves in the rest of the list
    · refine .compTodo (by rw [Function.update_of_ne (Ne.symm hr), hP]) ?_
      rw [Function.update_comm hr]
      exact ih (by rwa [Function.update_of_ne hr])
  | compDone _ ih => exact .compDone (ih hmove)
  | @todo x G m P ch a b hab ha hsrc hdst hch h ih =>
    by_cases hrs : r = x.src
    · subst hrs
      exact Sim.step_todo_src hab ha hsrc hdst hch h hmove
    · by_cases hrd : r = x.dst
      · subst hrd
        exact Sim.step_todo_dst hab ha hsrc hdst hch h hmove
      · -- a party that has no part in the message
        have hsame := hmove.chan_eq (c := (x.src, x.dst)) (Ne.symm hrs) (Ne.symm hrd)
        obtain ⟨rest', hmove', hrest⟩ := hmove.of_longer (c := (x.src, x.dst)) (Ne.symm hrd)
          (List.append_nil _).symm
        rw [hsame, List.self_eq_append_right] at hrest
        subst hrest
        refine .todo a b hab ha (by rw [Function.update_of_ne (Ne.symm hrs), hsrc])
          (by rw [Function.update_of_ne (Ne.symm hrd), hdst]) (by rw [hsame, hch]) ?_
        rw [Function.update_comm hrs, Function.update_comm hrd]
        refine ih ?_
        rwa [Function.update_of_ne hrd, Function.update_of_ne hrs]
  | @sent x G m P ch b hb rest hdst hch h ih =>
    by_cases hrd : r = x.dst
    · subst hrd
      exact Sim.step_sent_dst hb hdst hch h hmove
    · -- also the sender, who may already be sending the next message behind this one
      obtain ⟨rest', hmove', hrest⟩ := hmove.of_longer (c := (x.src, x.dst)) (Ne.symm hrd) hch
      refine .sent b hb rest' (by rw [Function.update_of_ne (Ne.symm hrd), hdst]) hrest ?_
      rw [Function.update_comm hrd]
      exact ih (by rwa [Function.update_of_ne hrd])
  | @received x G m P ch hsrc h ih =>
    by_cases hrs : r = x.src
    · subst hrs
      rw [hsrc] at hmove
      cases hmove with
      | comp f rest hprog => cases hprog
      | recv src len put rest k hprog => cases hprog
      | received src len put rest hprog => cases hprog
      | send dst data rest k hprog hk hlen =>
        cases hprog
        -- there is nothing left to hand over
        have hlen' : x.len + k ≤ x.len := by rw [← x.length_data (m x.src)] at *; exact hlen
        omega
      | sent dst data rest hprog hend =>
        cases hprog
        exact .done h
    · refine .received (by rw [Function.update_of_ne (Ne.symm hrs), hsrc]) ?_
      rw [Function.update_comm hrs]
      exact ih (by rwa [Function.update_of_ne hrs])
  | done _ ih => exact .done (ih hmove)

/-- Every state reached is one of those a choreography can be in. -/
theorem sim_of_reach {s : Net R M B}
    (h : Lts.Reach (Net.step cap) (fun _ _ => True) (start G m) s) : Sim G m s.party s.chan := by
  refine h.inv (I := fun s => Sim G m s.party s.chan) (sim_start G m) ?_
  intro s l t hsim _ hstep
  obtain ⟨p', ch', hmove, rfl⟩ := move_of_step hstep
  exact hsim.step hmove

/-- **A choreography is correct over byte streams.** In every state reached from its start, over
streams of any positive capacities: either some party can make a step, or all are through; and when
all are through the memories are those of the list and nothing is in transit. -/
theorem choreography_correct (hcap : ∀ c, 0 < cap c) (G : List (Ev R M B)) (m : R → M)
    {s : Net R M B} (h : Lts.Reach (Net.step cap) (fun _ _ => True) (start G m) s) :
    (¬ s.Final → ∃ l t, s.step cap l = some t) ∧
      (s.Final → (∀ r, (s.party r).mem = runEvs G m r) ∧ ∀ c, s.chan c = []) := by
  have hsim := sim_of_reach h
  refine ⟨fun hnot => ?_, fun hfinal => hsim.final hfinal⟩
  rcases hsim.progress hcap with hfinal | ⟨r, p', ch', hmove⟩
  · exact absurd hfinal hnot
  · obtain ⟨k, hstep⟩ := step_of_move hmove
    exact ⟨(r, k), _, hstep⟩

/-! ## Properties of the memories along the way

A property of one memory at a time holds at every moment, not only at the end, if it survives
messages of which some bytes only have come. -/

/-- The event keeps a property of memories, also when only some bytes of a message have come. -/
def Ev.Keeps (I : M → Prop) : Ev R M B → Prop
  | .msg x => ∀ msrc mdst b, I mdst → I (putAll x.put 0 ((x.data msrc).take b) mdst)
  | .comp _ f => ∀ m, I m → I (f m)

/-- What all events keep holds of every memory at every moment. -/
theorem Sim.mem_inv {I : M → Prop} (h : Sim G m P ch) (hG : ∀ e ∈ G, e.Keeps I)
    (hm : ∀ r, I (m r)) : ∀ r, I (P r).mem := by
  have hupdate : ∀ {m : R → M} {q : R} {y : M}, (∀ r, I (m r)) → I y →
      ∀ r, I (Function.update m q y r) := fun {m q y} hm hy =>
    (Function.forall_update_iff m fun _ z => I z).mpr ⟨hy, fun r _ => hm r⟩
  -- a party of which only the memory of the rest is known, seen through an update of another one
  have hother : ∀ {P : R → Party R M B} {q : R} {y : Party R M B} {r : R}, r ≠ q →
      I (Function.update P q y r).mem → I (P r).mem := fun hr h => by
    rwa [Function.update_of_ne hr] at h
  have hstored : ∀ (x : Msg R M B) (m : R → M), (Ev.msg x).Keeps I → (∀ r, I (m r)) →
      I (x.stored m) := fun x m hx hm => by
    have hall := hx (m x.src) (m x.dst) (x.data (m x.src)).length (hm x.dst)
    rwa [List.take_length] at hall
  induction h with
  | nil hP => exact fun r => by rw [hP r]; exact hm r
  | @compTodo q f G m P ch hP h ih =>
    obtain ⟨he, hG⟩ := List.forall_mem_cons.mp hG
    intro r
    by_cases hr : r = q
    · rw [hr, hP]
      exact hm q
    · exact hother hr (ih hG (hupdate hm (he _ (hm q))) r)
  | @compDone q f G m P ch h ih =>
    obtain ⟨he, hG⟩ := List.forall_mem_cons.mp hG
    exact ih hG (hupdate hm (he _ (hm q)))
  | @todo x G m P ch a b hab ha hsrc hdst hch h ih =>
    obtain ⟨he, hG⟩ := List.forall_mem_cons.mp hG
    intro r
    -- the receiver has some of the bytes of the message
    by_cases hrd : r = x.dst
    · rw [hrd, hdst]
      exact he _ _ b (hm x.dst)
    · by_cases hrs : r = x.src
      · rw [hrs, hsrc]
        exact hm x.src
      · exact hother hrs (hother hrd (ih hG (hupdate hm (hstored x m he hm)) r))
  | @sent x G m P ch b hb rest hdst hch h ih =>
    obtain ⟨he, hG⟩ := List.forall_mem_cons.mp hG
    intro r
    by_cases hrd : r = x.dst
    · rw [hrd, hdst]
      exact he _ _ b (hm x.dst)
    · exact hother hrd (ih hG (hupdate hm (hstored x m he hm)) r)
  | @received x G m P ch hsrc h ih =>
    obtain ⟨he, hG⟩ := List.forall_mem_cons.mp hG
    intro r
    by_cases hrs : r = x.src
    · rw [hrs, hsrc]
      exact hm x.src
    · exact hother hrs (ih hG (hupdate hm (hstored x m he hm)) r)
  | @done x G m P ch h ih =>
    obtain ⟨he, hG⟩ := List.forall_mem_cons.mp hG
    exact ih hG (hupdate hm (hstored x m he hm))

/-! ## What a party has computed when it is half way

A party that is through with its share of the first events has the memory of the list after these,
wherever the others are. -/

/-- What is left of a program is never more than the party's share. -/
theorem Sim.length_le (h : Sim G m P ch) (r : R) : (P r).prog.length ≤ (proj r G).length := by
  -- through an update of another party, and the share in the event at the head
  have hcons : ∀ (e : Ev R M B) (G : List (Ev R M B)),
      (proj r (e :: G)).length = (e.proj r).length + (proj r G).length := fun e G => by
    rw [proj_cons, List.length_append]
  induction h with
  | nil hP => rw [hP r]; exact Nat.zero_le _
  | @compTodo q f G m P ch hP h ih =>
    by_cases hr : r = q
    · subst hr
      exact Nat.le_of_eq (by rw [hP, proj_comp_self])
    · rw [Function.update_of_ne hr] at ih
      rw [hcons]
      omega
  | @compDone q f G m P ch h ih =>
    rw [hcons]
    omega
  | @todo x G m P ch a b hab ha hsrc hdst hch h ih =>
    by_cases hrd : r = x.dst
    -- it has not done its share of this event, so that what is left is the whole of it
    · subst hrd
      exact Nat.le_of_eq (by rw [hdst, proj_msg_dst]; rfl)
    · by_cases hrs : r = x.src
      · subst hrs
        exact Nat.le_of_eq (by rw [hsrc, proj_msg_src]; rfl)
      · rw [Function.update_of_ne hrd, Function.update_of_ne hrs] at ih
        rw [hcons]
        omega
  | @sent x G m P ch b hb rest hdst hch h ih =>
    by_cases hrd : r = x.dst
    · subst hrd
      exact Nat.le_of_eq (by rw [hdst, proj_msg_dst]; rfl)
    · rw [Function.update_of_ne hrd] at ih
      rw [hcons]
      omega
  | @received x G m P ch hsrc h ih =>
    by_cases hrs : r = x.src
    · subst hrs
      exact Nat.le_of_eq (by rw [hsrc, proj_msg_src]; rfl)
    · rw [Function.update_of_ne hrs] at ih
      rw [hcons]
      omega
  | @done x G m P ch h ih =>
    rw [hcons]
    omega

/-- A party that has done nothing yet has the memory it started with. -/
theorem Sim.mem_of_full (h : Sim G m P ch) {r : R}
    (hlen : (proj r G).length ≤ (P r).prog.length) (hoff : (P r).off = 0) : (P r).mem = m r := by
  induction h with
  | nil hP => rw [hP r]
  | @compTodo q f G m P ch hP h ih =>
    by_cases hr : r = q
    · rw [hr, hP]
    · rw [Function.update_of_ne hr, Function.update_of_ne hr] at ih
      rw [proj_cons, Ev.proj, if_neg hr, List.nil_append] at hlen
      exact ih hlen hoff
  | @compDone q f G m P ch h ih =>
    have hle := h.length_le r
    by_cases hr : r = q
    -- its share of this event is done, so what is left is shorter
    · subst hr
      rw [proj_comp_self, List.length_cons] at hlen
      omega
    · rw [Function.update_of_ne hr] at ih
      rw [proj_cons, Ev.proj, if_neg hr, List.nil_append] at hlen
      exact ih hlen hoff
  | @todo x G m P ch a b hab ha hsrc hdst hch h ih =>
    by_cases hrd : r = x.dst
    · subst hrd
      rw [hdst] at hoff ⊢
      obtain rfl : b = 0 := hoff
      rfl
    · by_cases hrs : r = x.src
      · rw [hrs, hsrc]
        rfl
      · rw [Function.update_of_ne hrd, Function.update_of_ne hrs, Function.update_of_ne hrd] at ih
        rw [proj_msg_other hrs hrd] at hlen
        exact ih hlen hoff
  | @sent x G m P ch b hb rest hdst hch h ih =>
    have hle := h.length_le r
    by_cases hrd : r = x.dst
    -- it has stored nothing of the message
    · subst hrd
      rw [hdst] at hoff ⊢
      obtain rfl : b = 0 := hoff
      rfl
    · rw [Function.update_of_ne hrd] at hle
      rw [Function.update_of_ne hrd, Function.update_of_ne hrd] at ih
      by_cases hrs : r = x.src
      -- the sender is through with the message, so what is left is shorter
      · subst hrs
        rw [proj_msg_src, List.length_cons] at hlen
        omega
      · rw [proj_msg_other hrs hrd] at hlen
        exact ih hlen hoff
  | @received x G m P ch hsrc h ih =>
    have hle := h.length_le r
    by_cases hrs : r = x.src
    · rw [hrs, hsrc]
      rfl
    · rw [Function.update_of_ne hrs] at hle
      rw [Function.update_of_ne hrs] at ih
      by_cases hrd : r = x.dst
      · subst hrd
        rw [proj_msg_dst, List.length_cons] at hlen
        omega
      · rw [Function.update_of_ne hrd] at ih
        rw [proj_msg_other hrs hrd] at hlen
        exact ih hlen hoff
  | @done x G m P ch h ih =>
    have hle := h.length_le r
    by_cases hrs : r = x.src
    · subst hrs
      rw [proj_msg_src, List.length_cons] at hlen
      omega
    · by_cases hrd : r = x.dst
      · subst hrd
        rw [proj_msg_dst, List.length_cons] at hlen
        omega
      · rw [Function.update_of_ne hrd] at ih
        rw [proj_msg_other hrs hrd] at hlen
        exact ih hlen hoff

/-- **Half way.** A party that has its share in `G₂` before it has computed what `G₁` says. -/
theorem Sim.mem_at {G₁ G₂ : List (Ev R M B)} (h : Sim (G₁ ++ G₂) m P ch) {r : R}
    (hprog : (P r).prog.length = (proj r G₂).length) (hoff : (P r).off = 0) :
    (P r).mem = runEvs G₁ m r := by
  induction G₁ generalizing m P ch with
  | nil => exact h.mem_of_full (Nat.le_of_eq hprog.symm) hoff
  | cons e G₁ ih =>
    -- a party that takes part in the event at the head has done so
    have hlong : ∀ {a : Act R M B}, proj r (e :: (G₁ ++ G₂)) = a :: proj r (G₁ ++ G₂) →
        (P r).prog ≠ a :: proj r (G₁ ++ G₂) := by
      intro a _ heq
      rw [heq, List.length_cons] at hprog
      unfold proj at hprog
      rw [List.flatMap_append, List.length_append] at hprog
      omega
    rw [List.cons_append] at h
    show (P r).mem = runEvs G₁ (Ev.apply m e) r
    cases h with
    | @compTodo q f _ _ _ _ hP h =>
      by_cases hr : r = q
      · subst hr
        -- its share of the event at the head is still in front of it
        exact absurd (by rw [hP]) (hlong (proj_comp_self r f _))
      -- the event does not concern the party, and neither does its completion
      · have hsame := Function.update_of_ne hr ⟨proj q (G₁ ++ G₂), 0, f (m q)⟩ P
        rw [← hsame] at hprog hoff ⊢
        exact ih h hprog hoff
    | compDone h => exact ih h hprog hoff
    | @todo x _ _ _ _ a b hab ha hsrc hdst hch h =>
      by_cases hrd : r = x.dst
      · subst hrd
        exact absurd (by rw [hdst]; rfl) (hlong (proj_msg_dst x _))
      · by_cases hrs : r = x.src
        · subst hrs
          exact absurd (by rw [hsrc]; rfl) (hlong (proj_msg_src x _))
        · have hsame := (Function.update_of_ne hrd (x.dstDone (G₁ ++ G₂) m)
            (Function.update P x.src (x.srcDone (G₁ ++ G₂) m))).trans
            (Function.update_of_ne hrs (x.srcDone (G₁ ++ G₂) m) P)
          rw [← hsame] at hprog hoff ⊢
          exact ih h hprog hoff
    | @sent x _ _ _ _ b hb rest hdst hch h =>
      by_cases hrd : r = x.dst
      · subst hrd
        exact absurd (by rw [hdst]; rfl) (hlong (proj_msg_dst x _))
      · have hsame := Function.update_of_ne hrd (x.dstDone (G₁ ++ G₂) m) P
        rw [← hsame] at hprog hoff ⊢
        exact ih h hprog hoff
    | @received x _ _ _ _ hsrc h =>
      by_cases hrs : r = x.src
      · subst hrs
        exact absurd (by rw [hsrc]; rfl) (hlong (proj_msg_src x _))
      · have hsame := Function.update_of_ne hrs (x.srcDone (G₁ ++ G₂) m) P
        rw [← hsame] at hprog hoff ⊢
        exact ih h hprog hoff
    | done h => exact ih h hprog hoff

/-! ## What a choreography leaves alone

A part of the memory that no event stores to, given by a function `f` that reads it. -/

/-- The event does not change what `f` reads off a memory. -/
def Ev.Frames {β : Type*} (f : M → β) : Ev R M B → Prop
  | .msg x => ∀ i b m, f (x.put i b m) = f m
  | .comp _ g => ∀ m, f (g m) = f m

theorem putAll_frames {β : Type*} {f : M → β} {put : Nat → B → M → M}
    (hput : ∀ i b m, f (put i b m) = f m) (off : Nat) (bs : List B) (m : M) :
    f (putAll put off bs m) = f m := by
  induction bs generalizing off m with
  | nil => rfl
  | cons b bs ih => exact (ih (off + 1) _).trans (hput off b m)

/-- A map between memories that stores bytes as the other one does. -/
theorem putAll_hom {N : Type} {f : N → M} {put : Nat → B → M → M} {put' : Nat → B → N → N}
    (hput : ∀ i b y, put i b (f y) = f (put' i b y)) (off : Nat) (bs : List B) (y : N) :
    putAll put off bs (f y) = f (putAll put' off bs y) := by
  induction bs generalizing off y with
  | nil => rfl
  | cons b bs ih => rw [putAll, putAll, hput, ih]

/-- **Frame** of a whole choreography. -/
theorem runEvs_frames {β : Type*} {f : M → β} (hG : ∀ e ∈ G, e.Frames f) (r : R) :
    f (runEvs G m r) = f (m r) := by
  induction G generalizing m with
  | nil => rfl
  | cons e G ih =>
    obtain ⟨he, hG⟩ := List.forall_mem_cons.mp hG
    show f (runEvs G (Ev.apply m e) r) = f (m r)
    rw [ih hG]
    cases e with
    | msg x =>
      simp only [Ev.apply]
      by_cases hr : r = x.dst
      · subst hr
        rw [Function.update_self]
        exact putAll_frames he 0 _ _
      · rw [Function.update_of_ne hr]
    | comp q g =>
      simp only [Ev.apply]
      by_cases hr : r = q
      · subst hr
        rw [Function.update_self]
        exact he _
      · rw [Function.update_of_ne hr]

/-! ## Programs that use a part of the memory

A protocol written for a memory `M` runs as well in a larger one `N`, of which `get` and `set`
select the part. Its choreography computes there what it computed, so that protocols with memories
of their own can be put one behind the other. -/

section Over

variable {N : Type} (get : N → M) (set : M → N → N)

/-- The action on the part of the memory that `get` and `set` select. -/
def Act.over : Act R M B → Act R N B
  | .send dst data => .send dst fun m => data (get m)
  | .recv src len put => .recv src len fun i b m => set (put i b (get m)) m
  | .comp f => .comp fun m => set (f (get m)) m
  | .abort => .abort

/-- The event on the part of the memory. -/
def Ev.over : Ev R M B → Ev R N B
  | .msg x => .msg
    { src := x.src
      dst := x.dst
      src_ne_dst := x.src_ne_dst
      data := fun m => x.data (get m)
      len := x.len
      length_data := fun m => x.length_data (get m)
      put := fun i b m => set (x.put i b (get m)) m }
  | .comp r f => .comp r fun m => set (f (get m)) m

/-- Each party's program is the one it had, on the part of the memory. -/
theorem proj_over (r : R) (G : List (Ev R M B)) :
    proj r (G.map (Ev.over get set)) = (proj r G).map (Act.over get set) := by
  rw [proj, proj, List.flatMap_map, List.map_flatMap]
  congr 1
  funext e
  cases e with
  | msg x =>
    simp only [Ev.over, Ev.proj]
    split
    · rfl
    · split <;> rfl
  | comp q f =>
    simp only [Ev.over, Ev.proj]
    split <;> rfl

variable {get set}

/-- What a choreography over a part of the memory computes there. -/
theorem runEvs_over (hget : ∀ a n, get (set a n) = a) (G : List (Ev R M B)) (n : R → N) (r : R) :
    get (runEvs (G.map (Ev.over get set)) n r) = runEvs G (fun r => get (n r)) r := by
  induction G generalizing n with
  | nil => rfl
  | cons e G ih =>
    have happly : (fun r => get (Ev.apply n (e.over get set) r)) =
        Ev.apply (fun r => get (n r)) e := by
      funext q
      cases e with
      | msg x =>
        simp only [Ev.over, Ev.apply]
        by_cases hq : q = x.dst
        · subst hq
          rw [Function.update_self, Function.update_self]
          -- storing through `get` and `set` is storing in the part
          exact (putAll_hom (fun i b y => (hget (x.put i b (get y)) y).symm) 0 _ _).symm
        · rw [Function.update_of_ne hq, Function.update_of_ne hq]
      | comp p f =>
        simp only [Ev.over, Ev.apply]
        by_cases hq : q = p
        · subst hq
          rw [Function.update_self, Function.update_self, hget]
        · rw [Function.update_of_ne hq, Function.update_of_ne hq]
    rw [List.map_cons]
    show get (runEvs (G.map (Ev.over get set)) (Ev.apply n (e.over get set)) r) =
      runEvs G (Ev.apply (fun r => get (n r)) e) r
    rw [ih, happly]

end Over

end Network
