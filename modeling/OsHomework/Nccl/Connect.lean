import Mathlib.Data.Fintype.Card

/-!
# Nccl — `establish_connections`

Each rank first acts as a server: once for every higher rank it opens a listening socket on its
port, accepts one connection, receives the peer's rank over it, files the connection under that rank
and closes the listening socket. Then it connects to every lower rank in turn and sends its own
rank. A connection is named by its two ends (client, server), as a rank connects to each lower rank
once.

* **`establishStep`** — one operation of a rank; `World` has the ranks, the listening sockets and
  the connections.
* **`Orderly`** — the guard: no two connections come in on one listening socket.
* **`EstInv`** — what holds in every orderly run: a client's program counter says how its
  connections stand, and a server has on file as many peers as its loop has served.
-/

namespace OsHomework.Nccl

/-- Where a rank stands in `establish_connections`; `i` is the loop variable. -/
inductive ConnectPc (n : Nat) where
  | listen (i : Fin n)
  | accept (i : Fin n)
  | recvRank (i client : Fin n)
  | closeServer (i : Fin n)
  | connect (i : Fin n)
  | sendRank (i : Fin n)
  | done
  deriving DecidableEq

/-- A connection: not made yet, open (the client has sent its rank or not), or reset. -/
inductive Conn where
  | absent
  | opened (sent : Bool)
  | reset
  deriving DecidableEq

/-- The `backlog` argument of `listen`. -/
def backlog : Nat := 10

/-- `queue r` is the listening socket of rank `r` with the clients queued on it, `conn (c, r)` the
connection of client `c` to server `r`, `sockets (r, j)` the entry `sockets[j]` of rank `r`. -/
structure World (n : Nat) where
  pc : Fin n → ConnectPc n
  queue : Fin n → Option (List (Fin n))
  conn : Fin n × Fin n → Conn
  sockets : Fin n × Fin n → Option (Fin n × Fin n)

variable {n : Nat}

/-- The client loop from its start. -/
def clientStart (r : Fin n) : ConnectPc n :=
  if h : 0 < r.val then .connect ⟨0, by omega⟩ else .done

/-- The server loop after iteration `i`. -/
def serverNext (r i : Fin n) : ConnectPc n :=
  if h : i.val + 1 < n then .listen ⟨i.val + 1, h⟩ else clientStart r

/-- The client loop after iteration `i`. -/
def clientNext (r i : Fin n) : ConnectPc n :=
  if h : i.val + 1 < r.val then .connect ⟨i.val + 1, by omega⟩ else .done

/-- Entry of `establish_connections` on every rank. -/
def worldInit (n : Nat) : World n where
  pc := fun r => serverNext r r
  queue := fun _ => none
  conn := fun _ => .absent
  sockets := fun _ => none

/-- Sending the rank: a client whose connection was reset does not notice. -/
def Conn.send : Conn → Conn
  | .opened _ => .opened true
  | c => c

/-- The next operation of rank `r`. `none` means that it waits: for a connection, for the peer's
rank, or (retrying) for a listening socket with room. -/
def establishStep (s : World n) (r : Fin n) : Option (World n) :=
  match s.pc r with
  -- a new listening socket, on which nobody is queued
  | .listen i =>
    some { s with
      pc := Function.update s.pc r (.accept i)
      queue := Function.update s.queue r (some []) }
  | .accept i =>
    -- `accept` takes the first in the queue
    match s.queue r with
    | some (c :: q) =>
      some { s with
        pc := Function.update s.pc r (.recvRank i c)
        queue := Function.update s.queue r (some q) }
    | _ => none
  -- the value received is the rank of the client, which has sent it or not yet
  | .recvRank i c =>
    if s.conn (c, r) = .opened true then
      some { s with
        pc := Function.update s.pc r (.closeServer i)
        sockets := Function.update s.sockets (r, c) (some (c, r)) }
    else none
  | .closeServer i =>
    some { s with
      pc := Function.update s.pc r (serverNext r i)
      queue := Function.update s.queue r none
      -- whoever is still queued is reset
      conn := fun k => if k.2 = r ∧ k.1 ∈ (s.queue r).getD [] then .reset else s.conn k }
  | .connect i =>
    match s.queue i with
    -- a `connect` succeeds as soon as the queue has room, accepted or not
    | some q =>
      if q.length < backlog then
        some { s with
          pc := Function.update s.pc r (.sendRank i)
          queue := Function.update s.queue i (some (q ++ [r]))
          conn := Function.update s.conn (r, i) (.opened false) }
      else none
    | none => none
  | .sendRank i =>
    some { s with
      pc := Function.update s.pc r (clientNext r i)
      conn := Function.update s.conn (r, i) (s.conn (r, i)).send
      sockets := Function.update s.sockets (r, i) (some (r, i)) }
  | .done => none

/-- A connect succeeds only on a listening socket whose owner is at its accept, with nothing queued:
no other connection has come in on this listening socket. -/
def Orderly (s : World n) (r : Fin n) : Prop :=
  -- nothing is said of the other operations
  ∀ i, s.pc r = .connect i → ∀ q ∈ s.queue i, q = [] ∧ ∃ j, s.pc i = .accept j

/-- All ranks have returned. -/
def World.AllDone (s : World n) : Prop := ∀ r, s.pc r = .done

/-- The entries of a pair are the two ends of one live connection. -/
def Matched (s : World n) (i j : Fin n) : Prop :=
  ∃ k, s.sockets (i, j) = some k ∧ s.sockets (j, i) = some k ∧ (∃ b, s.conn k = .opened b) ∧
    (k = (i, j) ∨ k = (j, i))

/-! ## The invariant of orderly runs

Connections are made by clients only, so how the connection of a client to a server stands can be
read off the client's program counter (`conn_eq`), and with it the client's entry in its table. The
server's side is told in terms of that: a connection that is made has its client waiting or on file,
one of the two (`reached`, `fresh`), and the server has as many peers on file as its loop has been
around (`count`). `QueueOk` is what an orderly run is about: no more than one client is ever queued.
-/

/-- The clients a server at `pc` with the listening socket `q` has accepted or queued but not yet on
file. -/
def waitingOf (pc : ConnectPc n) (q : Option (List (Fin n))) : List (Fin n) :=
  match pc with
  | .recvRank _ c => c :: q.getD []
  | _ => q.getD []

/-- The clients that server `i` has accepted or queued. -/
def waiting (s : World n) (i : Fin n) : List (Fin n) := waitingOf (s.pc i) (s.queue i)

/-- What the program counter of client `c` says about its connection to server `i`. -/
def ConnectPc.view (c i : Fin n) : ConnectPc n → Conn
  -- the clients' loop goes upward, so those below the loop variable are made
  | .connect k => if i.val < k.val then .opened true else .absent
  | .sendRank k =>
    if i.val < k.val then .opened true else if i = k then .opened false else .absent
  | .done => if i.val < c.val then .opened true else .absent
  | _ => .absent

/-- The client's table entry for the connection `k`: filed once the rank is sent. -/
def Conn.entry (k : Fin n × Fin n) : Conn → Option (Fin n × Fin n)
  | .opened true => some k
  | _ => none

/-- How many peers server `i` has on file. -/
def ConnectPc.served (i : Fin n) : ConnectPc n → Nat
  | .listen j | .accept j | .recvRank j _ => j.val - (i.val + 1)
  -- the peer accepted in this iteration is on file already
  | .closeServer j => j.val - i.val
  | _ => n - (i.val + 1)

/-- The loop variable is in the range of the loop. -/
def ConnectPc.InRange (r : Fin n) : ConnectPc n → Prop
  | .listen j | .accept j | .recvRank j _ | .closeServer j => r.val < j.val
  | .connect k | .sendRank k => k.val < r.val
  | .done => True

/-- The listening socket as the program counter has it. -/
def QueueOk (q : Option (List (Fin n))) : ConnectPc n → Prop
  | .accept _ => ∃ l, q = some l ∧ l.length ≤ 1
  | .recvRank _ _ | .closeServer _ => q = some []
  | _ => q = none

/-- The peers rank `i` has on file. -/
def filed (s : World n) (i : Fin n) : Finset (Fin n) :=
  Finset.univ.filter fun c => i.val < c.val ∧ s.sockets (i, c) ≠ none

/-- **The invariant**: program counters, listening sockets, connections and the entries of both
ends. -/
structure EstInv (s : World n) : Prop where
  in_range : ∀ r, (s.pc r).InRange r
  queue_ok : ∀ r, QueueOk (s.queue r) (s.pc r)
  conn_eq : ∀ c i, s.conn (c, i) = (s.pc c).view c i
  client_entry : ∀ c i, i.val < c.val → s.sockets (c, i) = (s.conn (c, i)).entry (c, i)
  server_entry : ∀ i c, i.val < c.val → s.sockets (i, c) = none ∨ s.sockets (i, c) = some (c, i)
  reached : ∀ i c, i.val < c.val →
    (s.conn (c, i) ≠ .absent ↔ c ∈ waiting s i ∨ s.sockets (i, c) ≠ none)
  fresh : ∀ i c, c ∈ waiting s i → i.val < c.val ∧ s.sockets (i, c) = none
  count : ∀ i, (filed s i).card = (s.pc i).served i

theorem inRange_clientStart (r : Fin n) : (clientStart r).InRange r := by
  unfold clientStart
  split
  · assumption
  · trivial

/-- A client that has not begun has made no connection. -/
theorem view_clientStart (r i : Fin n) : (clientStart r).view r i = .absent := by
  unfold clientStart
  split
  · simp [ConnectPc.view]
  · next h => simp [ConnectPc.view, show ¬ i.val < r.val by omega]

theorem served_clientStart (r : Fin n) : (clientStart r).served r = n - (r.val + 1) := by
  unfold clientStart
  split <;> rfl

theorem queueOk_clientStart (r : Fin n) : QueueOk none (clientStart r) := by
  unfold clientStart
  split <;> rfl

theorem inRange_serverNext {r i : Fin n} (h : r.val ≤ i.val) : (serverNext r i).InRange r := by
  unfold serverNext
  split
  · exact Nat.lt_succ_of_le h
  · exact inRange_clientStart r

/-- A server has made none either. -/
theorem view_serverNext (r i k : Fin n) : (serverNext r i).view r k = .absent := by
  unfold serverNext
  split
  · rfl
  · exact view_clientStart r k

/-- The next iteration begins with one peer more on file. -/
theorem served_serverNext {r i : Fin n} (h : r.val ≤ i.val) :
    (serverNext r i).served r = i.val - r.val := by
  unfold serverNext
  split
  · simp only [ConnectPc.served]
    omega
  · rw [served_clientStart]
    omega

theorem queueOk_serverNext (r i : Fin n) : QueueOk none (serverNext r i) := by
  unfold serverNext
  split
  · rfl
  · exact queueOk_clientStart r

theorem waitingOf_serverNext (r i : Fin n) : waitingOf (serverNext r i) none = [] := by
  unfold serverNext clientStart
  split
  · rfl
  · split <;> rfl

theorem inRange_clientNext {r i : Fin n} : (clientNext r i).InRange r := by
  unfold clientNext
  split
  · assumption
  · trivial

/-- The next iteration of the client loop has one connection more behind it. -/
theorem view_clientNext {r i : Fin n} (h : i.val < r.val) (k : Fin n) :
    (clientNext r i).view r k = if k.val ≤ i.val then .opened true else .absent := by
  unfold clientNext
  split
  · simp only [ConnectPc.view, Nat.lt_succ_iff]
  · simp [ConnectPc.view, show k.val < r.val ↔ k.val ≤ i.val by omega]

theorem served_clientNext (r i : Fin n) : (clientNext r i).served r = n - (r.val + 1) := by
  unfold clientNext
  split <;> rfl

theorem queueOk_clientNext (r i : Fin n) : QueueOk none (clientNext r i) := by
  unfold clientNext
  split <;> rfl

theorem waitingOf_clientNext (r i : Fin n) : waitingOf (clientNext r i) none = [] := by
  unfold clientNext
  split <;> rfl

/-- The entry of `establish_connections`. -/
theorem estInv_init : EstInv (worldInit n) := by
  have hwait : ∀ i, waiting (worldInit n) i = [] := fun i => waitingOf_serverNext i i
  refine ⟨fun r => inRange_serverNext (Nat.le_refl _), fun r => queueOk_serverNext r r, ?_, ?_, ?_,
    ?_, ?_, ?_⟩
  · exact fun c i => (view_serverNext c c i).symm
  -- nobody has a connection or an entry yet
  · exact fun c i _ => rfl
  · exact fun i c _ => Or.inl rfl
  · intro i c _
    rw [hwait]
    simp [worldInit]
  · intro i c hc
    rw [hwait] at hc
    cases hc
  -- the loop has not been around, and nobody is on file
  · intro i
    show _ = (serverNext i i).served i
    rw [served_serverNext (Nat.le_refl _), Nat.sub_self, Finset.card_eq_zero]
    simp [filed, worldInit]

/-! ## One lemma per kind of step

The parts of the invariant that a step does not concern are carried over by the `_update` lemmas:
the program counter of one rank changes, and what is read off it is what was. That leaves a lemma
for the server's steps that neither make nor file a connection, and one each for filing, connecting
and sending the rank. -/

/-- Entries of other ranks. -/
theorem update_of_fst_ne {α : Type} (f : Fin n × Fin n → α) {i r : Fin n} (hi : i ≠ r)
    (a c : Fin n) (v : α) : Function.update f (r, c) v (i, a) = f (i, a) :=
  Function.update_of_ne (fun heq => hi (Prod.mk.inj heq).1) v f

/-- Entries for other peers. -/
theorem update_of_snd_ne {α : Type} (f : Fin n × Fin n → α) {a c : Fin n} (ha : a ≠ c)
    (i r : Fin n) (v : α) : Function.update f (r, c) v (i, a) = f (i, a) :=
  Function.update_of_ne (fun heq => ha (Prod.mk.inj heq).2) v f

variable {s : World n} {r : Fin n}

theorem EstInv.in_range_update (h : EstInv s) {p : ConnectPc n} (hp : p.InRange r) :
    ∀ i, (Function.update s.pc r p i).InRange i :=
  (Function.forall_update_iff s.pc fun i p => p.InRange i).mpr ⟨hp, fun i _ => h.in_range i⟩

theorem EstInv.queue_ok_update (h : EstInv s) {p : ConnectPc n} (hp : QueueOk (s.queue r) p) :
    ∀ i, QueueOk (s.queue i) (Function.update s.pc r p i) :=
  (Function.forall_update_iff s.pc fun i p => QueueOk (s.queue i) p).mpr
    ⟨hp, fun i _ => h.queue_ok i⟩

theorem EstInv.conn_eq_update (h : EstInv s) {p : ConnectPc n}
    (hp : ∀ i, p.view r i = (s.pc r).view r i) :
    ∀ c i, s.conn (c, i) = (Function.update s.pc r p c).view c i :=
  (Function.forall_update_iff s.pc fun c p => ∀ i, s.conn (c, i) = p.view c i).mpr
    ⟨fun i => (h.conn_eq r i).trans (hp i).symm, fun c _ => h.conn_eq c⟩

/-- The client `r` moves on together with its connection to `k`. -/
theorem EstInv.conn_eq_set (h : EstInv s) {p : ConnectPc n} {k : Fin n} {x : Conn}
    (hk : p.view r k = x) (hother : ∀ i, i ≠ k → p.view r i = (s.pc r).view r i) :
    ∀ c i, Function.update s.conn (r, k) x (c, i) = (Function.update s.pc r p c).view c i := by
  intro c i
  by_cases hc : c = r
  · subst hc
    rw [Function.update_self]
    by_cases hi : i = k
    · rw [hi, Function.update_self, hk]
    · rw [update_of_snd_ne _ hi, hother i hi, h.conn_eq]
  · rw [update_of_fst_ne _ hc, Function.update_of_ne hc, h.conn_eq]

theorem EstInv.count_update (h : EstInv s) {p : ConnectPc n} (hp : p.served r = (s.pc r).served r) :
    ∀ i, (filed s i).card = (Function.update s.pc r p i).served i :=
  (Function.forall_update_iff s.pc fun i p => (filed s i).card = p.served i).mpr
    ⟨(h.count r).trans hp.symm, fun i _ => h.count i⟩

/-- A server step that neither makes nor files a connection. -/
theorem EstInv.serverMove (h : EstInv s) {p' : ConnectPc n} {q' : Option (List (Fin n))}
    (hrange : p'.InRange r) (hq : QueueOk q' p') (hview : ∀ i, p'.view r i = (s.pc r).view r i)
    (hwait : waitingOf p' q' = waiting s r) (hserved : p'.served r = (s.pc r).served r) :
    EstInv { s with pc := Function.update s.pc r p', queue := Function.update s.queue r q' } := by
  -- what waits at any server is what waited
  have hw : ∀ i, waitingOf (Function.update s.pc r p' i) (Function.update s.queue r q' i) =
      waiting s i := by
    intro i
    by_cases hi : i = r
    · subst hi
      rw [Function.update_self, Function.update_self, hwait]
    · rw [Function.update_of_ne hi, Function.update_of_ne hi, waiting]
  refine ⟨h.in_range_update hrange, ?_, h.conn_eq_update hview, h.client_entry, h.server_entry, ?_,
    ?_, h.count_update hserved⟩ <;> dsimp only [waiting]
  · intro i
    by_cases hi : i = r
    · subst hi
      rwa [Function.update_self, Function.update_self]
    · rw [Function.update_of_ne hi, Function.update_of_ne hi]
      exact h.queue_ok i
  · intro i c hlt
    rw [hw]
    exact h.reached i c hlt
  · intro i c hc
    rw [hw] at hc
    exact h.fresh i c hc

/-- The server `r` has one more peer on file. -/
theorem filed_insert {r c : Fin n} (hlt : r.val < c.val) (p : Fin n → ConnectPc n)
    (k : Fin n × Fin n) :
    filed { s with pc := p, sockets := Function.update s.sockets (r, c) (some k) } r =
      insert c (filed s r) := by
  ext a
  by_cases ha : a = c
  · subst ha
    simpa [filed] using hlt
  · simp [filed, ha]

/-- The peers on file at another server. -/
theorem filed_of_ne {r i : Fin n} (hi : i ≠ r) (c : Fin n) (p : Fin n → ConnectPc n)
    (k : Fin n × Fin n) :
    filed { s with pc := p, sockets := Function.update s.sockets (r, c) (some k) } i =
      filed s i := by
  ext a
  simp [filed, update_of_fst_ne s.sockets hi]

/-- The server files the connection it has accepted. -/
theorem EstInv.file (h : EstInv s) {j c : Fin n} (hpc : s.pc r = .recvRank j c)
    (hsent : s.conn (c, r) = .opened true) :
    EstInv { s with
      pc := Function.update s.pc r (.closeServer j)
      sockets := Function.update s.sockets (r, c) (some (c, r)) } := by
  have hrange := h.in_range r
  have hqueue := h.queue_ok r
  rw [hpc] at hrange hqueue
  -- at the `recv` nobody is queued, so the accepted client is all that waits
  have hqueue' : s.queue r = some [] := hqueue
  have hwait : waiting s r = [c] := by rw [waiting, hpc, hqueue']; rfl
  obtain ⟨hlt, hnone⟩ := h.fresh r c (by rw [hwait]; simp)
  -- afterwards nobody waits at this server
  have hw : ∀ i, waitingOf (Function.update s.pc r (.closeServer j) i) (s.queue i) =
      if i = r then [] else waiting s i := by
    intro i
    by_cases hi : i = r
    · subst hi
      rw [Function.update_self, hqueue', if_pos rfl]
      rfl
    · rw [Function.update_of_ne hi, if_neg hi, waiting]
  -- entries filed by clients lie on the other side of the table
  have hclient : ∀ a i : Fin n, i.val < a.val → (a, i) ≠ (r, c) := by
    rintro a i hai heq
    obtain ⟨rfl, rfl⟩ := Prod.mk.inj heq
    omega
  refine ⟨h.in_range_update hrange, h.queue_ok_update hqueue,
    h.conn_eq_update (fun i => by rw [hpc]; rfl), ?_, ?_, ?_, ?_, ?_⟩ <;> dsimp only [waiting]
  · intro a i hai
    rw [Function.update_of_ne (hclient a i hai)]
    exact h.client_entry a i hai
  · intro i a hia
    by_cases heq : (i, a) = (r, c)
    · obtain ⟨rfl, rfl⟩ := Prod.mk.inj heq
      rw [Function.update_self]
      exact Or.inr rfl
    · rw [Function.update_of_ne heq]
      exact h.server_entry i a hia
  · intro i a hia
    rw [hw]
    -- `c` has been waiting and is on file now
    by_cases hi : i = r
    · subst hi
      have hreached := h.reached i a hia
      rw [hwait] at hreached
      by_cases ha : a = c
      · subst ha
        simp [hsent]
      · rw [update_of_snd_ne _ ha, if_pos rfl, hreached]
        simp [ha]
    · rw [update_of_fst_ne _ hi, if_neg hi]
      exact h.reached i a hia
  · intro i a ha
    rw [hw] at ha
    by_cases hi : i = r
    · rw [if_pos hi] at ha
      cases ha
    · rw [if_neg hi] at ha
      rw [update_of_fst_ne _ hi]
      exact h.fresh i a ha
  · intro i
    -- one peer more is on file, as the loop counts
    have hcount := h.count i
    by_cases hi : i = r
    · subst hi
      have hnot : c ∉ filed s i := by simp [filed, hnone]
      rw [filed_insert hlt, Finset.card_insert_of_notMem hnot, hcount, hpc, Function.update_self]
      have hrange' : i.val < j.val := hrange
      simp only [ConnectPc.served]
      omega
    · rw [filed_of_ne hi, hcount, Function.update_of_ne hi]

/-- An orderly connect. -/
theorem EstInv.connect (h : EstInv s) {k : Fin n} (hpc : s.pc r = .connect k)
    (hqueue : s.queue k = some []) {j : Fin n} (haccept : s.pc k = .accept j) :
    EstInv { s with
      pc := Function.update s.pc r (.sendRank k)
      queue := Function.update s.queue k (some [r])
      conn := Function.update s.conn (r, k) (.opened false) } := by
  -- clients connect to lower ranks only
  have hlt : k.val < r.val := by
    have hrange := h.in_range r
    rwa [hpc] at hrange
  have hkr : k ≠ r := by
    rintro rfl
    omega
  -- a rank in its client loop has no listening socket of its own
  have hrqueue : s.queue r = none := by
    have hq := h.queue_ok r
    rwa [hpc] at hq
  -- the client is about to make this connection, so it is not there
  have habsent : s.conn (r, k) = .absent := by
    rw [h.conn_eq, hpc]
    simp [ConnectPc.view]
  -- the new client waits at its server, and nothing else changes in what waits
  have hw : ∀ i, waitingOf (Function.update s.pc r (.sendRank k) i)
      (Function.update s.queue k (some [r]) i) = if i = k then [r] else waiting s i := by
    intro i
    by_cases hi : i = k
    · subst hi
      rw [Function.update_of_ne hkr, Function.update_self, haccept, if_pos rfl]
      rfl
    · rw [Function.update_of_ne hi, if_neg hi]
      by_cases hir : i = r
      · subst hir
        rw [Function.update_self, waiting, hpc, hrqueue]
        rfl
      · rw [Function.update_of_ne hir, waiting]
  have hnowait : waiting s k = [] := by rw [waiting, haccept, hqueue]; rfl
  -- a connection that is not made yet cannot be on file
  have hnone : s.sockets (k, r) = none := by
    by_contra hsome
    exact (h.reached k r hlt).mpr (Or.inr hsome) habsent
  refine ⟨h.in_range_update hlt, ?_, ?_, ?_, h.server_entry, ?_, ?_,
    h.count_update (by rw [hpc]; rfl)⟩ <;> dsimp only [waiting]
  -- the queue of the server has one client, the others are as they were
  · intro i
    by_cases hi : i = k
    · subst hi
      rw [Function.update_self, Function.update_of_ne hkr, haccept]
      exact ⟨[r], rfl, Nat.le_refl 1⟩
    · rw [Function.update_of_ne hi]
      by_cases hir : i = r
      · subst hir
        rwa [Function.update_self]
      · rw [Function.update_of_ne hir]
        exact h.queue_ok i
  · apply h.conn_eq_set
    · simp [ConnectPc.view]
    · intro i hi
      rw [hpc]
      simp [ConnectPc.view, hi]
  -- the client files its end later, when it has sent its rank
  · intro c i hic
    by_cases heq : (c, i) = (r, k)
    · obtain ⟨rfl, rfl⟩ := Prod.mk.inj heq
      rw [Function.update_self, h.client_entry c i hic, habsent]
      rfl
    · rw [Function.update_of_ne heq]
      exact h.client_entry c i hic
  -- a connection that is made has its client waiting or on file
  · intro i c hic
    rw [hw]
    by_cases hi : i = k
    · subst hi
      by_cases hc : c = r
      · subst hc
        simp
      · have hreached := h.reached i c hic
        rw [hnowait] at hreached
        rw [update_of_fst_ne _ hc, if_pos rfl, hreached]
        simp [hc]
    · rw [update_of_snd_ne _ hi, if_neg hi]
      exact h.reached i c hic
  · intro i c hc
    rw [hw] at hc
    by_cases hi : i = k
    · subst hi
      rw [if_pos rfl, List.mem_singleton] at hc
      subst hc
      exact ⟨hlt, hnone⟩
    · rw [if_neg hi] at hc
      exact h.fresh i c hc

/-- The client sends its rank and files its end. -/
theorem EstInv.sendRank (h : EstInv s) {k : Fin n} (hpc : s.pc r = .sendRank k) :
    EstInv { s with
      pc := Function.update s.pc r (clientNext r k)
      conn := Function.update s.conn (r, k) (s.conn (r, k)).send
      sockets := Function.update s.sockets (r, k) (some (r, k)) } := by
  have hlt : k.val < r.val := by
    have hrange := h.in_range r
    rwa [hpc] at hrange
  have hqueue : s.queue r = none := by
    have hq := h.queue_ok r
    rwa [hpc] at hq
  -- the connection is there and the rank is not sent
  have hopen : s.conn (r, k) = .opened false := by
    rw [h.conn_eq, hpc]
    simp [ConnectPc.view]
  have hw : ∀ i, waitingOf (Function.update s.pc r (clientNext r k) i) (s.queue i) =
      waiting s i := by
    intro i
    by_cases hi : i = r
    · subst hi
      rw [Function.update_self, waiting, hqueue, waitingOf_clientNext, hpc]
      rfl
    · rw [Function.update_of_ne hi, waiting]
  -- entries filed by servers lie on the other side of the table
  have hserver : ∀ i c : Fin n, i.val < c.val → (i, c) ≠ (r, k) := by
    rintro i c hic heq
    obtain ⟨rfl, rfl⟩ := Prod.mk.inj heq
    omega
  have hfiled : ∀ i, filed { s with
      pc := Function.update s.pc r (clientNext r k)
      conn := Function.update s.conn (r, k) (s.conn (r, k)).send
      sockets := Function.update s.sockets (r, k) (some (r, k)) } i = filed s i := by
    intro i
    refine Finset.filter_congr fun c _ => ?_
    refine and_congr_right fun hic => ?_
    dsimp only
    rw [Function.update_of_ne (hserver i c hic)]
  refine ⟨h.in_range_update inRange_clientNext,
    h.queue_ok_update (by rw [hqueue]; exact queueOk_clientNext r k), ?_, ?_, ?_, ?_, ?_, ?_⟩ <;>
    dsimp only [waiting]
  -- the loop variable moves past the server, as the connection gets its rank
  · apply h.conn_eq_set
    · simp [view_clientNext hlt, hopen, Conn.send]
    · intro i hi
      have hle : i.val ≤ k.val ↔ i.val < k.val := by
        have hne := Fin.val_ne_of_ne hi
        omega
      rw [view_clientNext hlt, hpc]
      simp only [ConnectPc.view, hi, if_false, hle]
  -- the client files its end
  · intro c i hic
    by_cases heq : (c, i) = (r, k)
    · obtain ⟨rfl, rfl⟩ := Prod.mk.inj heq
      rw [Function.update_self, Function.update_self, hopen]
      rfl
    · rw [Function.update_of_ne heq, Function.update_of_ne heq]
      exact h.client_entry c i hic
  · intro i c hic
    rw [Function.update_of_ne (hserver i c hic)]
    exact h.server_entry i c hic
  · intro i c hic
    -- sending the rank neither opens a connection nor takes one from a queue
    rw [hw, Function.update_of_ne (hserver i c hic), ← h.reached i c hic]
    by_cases heq : (c, i) = (r, k)
    · rw [heq, Function.update_self, hopen]
      simp [Conn.send]
    · rw [Function.update_of_ne heq]
  · intro i c hc
    rw [hw] at hc
    obtain ⟨hic, hnone⟩ := h.fresh i c hc
    rw [Function.update_of_ne (hserver i c hic)]
    exact ⟨hic, hnone⟩
  -- the peers that servers have on file are the same
  · intro i
    rw [hfiled]
    exact h.count_update (by rw [hpc, served_clientNext]; rfl) i

/-- **One step** of an orderly run. -/
theorem EstInv.step {s' : World n} (h : EstInv s) (hok : Orderly s r)
    (hstep : establishStep s r = some s') : EstInv s' := by
  have hrange := h.in_range r
  have hqueue := h.queue_ok r
  unfold establishStep at hstep
  cases hpc : s.pc r with
  | listen i =>
    rw [hpc] at hstep hrange hqueue
    cases hstep
    have hnone : s.queue r = none := hqueue
    refine h.serverMove hrange ⟨[], rfl, Nat.zero_le 1⟩ ?_ ?_ ?_
    · rw [hpc]; exact fun _ => rfl
    · rw [waiting, hpc, hnone]; rfl
    · rw [hpc]; rfl
  | accept i =>
    rw [hpc] at hstep hrange hqueue
    obtain ⟨l, hl, hlen⟩ := hqueue
    rw [hl] at hstep
    cases l with
    | nil => cases hstep
    | cons c q =>
      -- nobody else is queued, or the close would reset them
      obtain rfl : q = [] := by
        rw [List.length_cons] at hlen
        exact List.length_eq_zero_iff.mp (by omega)
      cases hstep
      refine h.serverMove hrange rfl ?_ ?_ ?_
      · rw [hpc]; exact fun _ => rfl
      · rw [waiting, hpc, hl]; rfl
      · rw [hpc]; rfl
  | recvRank i c =>
    rw [hpc] at hstep
    simp only [Option.ite_none_right_eq_some, Option.some.injEq] at hstep
    obtain ⟨hsent, rfl⟩ := hstep
    exact h.file hpc hsent
  | closeServer i =>
    rw [hpc] at hstep hrange hqueue
    -- nobody is queued, so the close resets nobody
    have hempty : s.queue r = some [] := hqueue
    have hle : r.val ≤ i.val := Nat.le_of_lt hrange
    simp only [hempty, Option.getD_some, List.not_mem_nil, and_false, if_false,
      Option.some.injEq] at hstep
    subst hstep
    refine h.serverMove (inRange_serverNext hle) (queueOk_serverNext r i) ?_ ?_ ?_
    · intro k
      rw [hpc, view_serverNext]
      rfl
    · rw [waitingOf_serverNext, waiting, hpc, hempty]
      rfl
    · rw [hpc, served_serverNext hle]
      rfl
  | connect k =>
    cases hq : s.queue k with
    | none =>
      simp only [hpc, hq] at hstep
      cases hstep
    | some q =>
      -- the guard: nobody is queued, and the server is at its accept
      obtain ⟨rfl, j, haccept⟩ := hok k hpc q hq
      simp only [hpc, hq] at hstep
      cases hstep
      exact h.connect hpc hq haccept
  | sendRank k =>
    rw [hpc] at hstep
    cases hstep
    exact h.sendRank hpc
  | done => rw [hpc] at hstep; cases hstep

end OsHomework.Nccl
