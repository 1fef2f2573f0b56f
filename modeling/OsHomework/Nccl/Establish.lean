import Mathlib.Algebra.BigOperators.Fin
import Mathlib.Algebra.Order.BigOperators.Group.Finset
import OsHomework.Lib.Reach
import OsHomework.Nccl.Connect

/-!
# Nccl — when all ranks get connected

Several peers may be queued on one listening socket when its owner, having accepted one of them,
closes it: the others are reset, their clients do not notice, and the owner waits for connections
that are never made again (`queued_peer_is_reset`). In orderly runs this does not happen.

* **`EstInv.progress`** — some rank can make an orderly step as long as not all have returned.
* **`establish_of_orderly`** — in every run in which a connect succeeds only on a listening socket
  whose owner is at its accept and has nothing queued, every rank can still return, and when all
  have, the two table entries of every pair are the two ends of one live connection.
-/

namespace OsHomework.Nccl

open Lts

variable {n : Nat} {s : World n} {r : Fin n}

/-! ## Somebody can always go on

Suppose nobody can. Then each rank is at an accept with nothing queued, at a connect without a
listening socket, or done. A client that waits for its server is excluded, since the server either
listens or has everybody on file. So all that is left wait at an accept; the highest of them has
been connected to by everyone above it, and its count says that it is through with its loop. -/

/-- A server with every higher rank on file has counted all of them. -/
theorem EstInv.served_of_all (h : EstInv s) {i : Fin n}
    (hall : ∀ c : Fin n, i.val < c.val → s.sockets (i, c) ≠ none) :
    (s.pc i).served i = n - (i.val + 1) := by
  rw [← h.count i]
  have hfiled : filed s i = Finset.Ioi i := by
    ext c
    simp only [filed, Finset.mem_filter, Finset.mem_univ, true_and, Finset.mem_Ioi]
    exact ⟨fun hc => hc.1, fun hc => ⟨hc, hall c hc⟩⟩
  rw [hfiled, Fin.card_Ioi]
  omega

/-- A server that is through with its loop has every higher rank on file. -/
theorem EstInv.all_of_served (h : EstInv s) {i : Fin n}
    (hserved : (s.pc i).served i = n - (i.val + 1)) {c : Fin n} (hc : i.val < c.val) :
    s.sockets (i, c) ≠ none := by
  have hsub : filed s i ⊆ Finset.Ioi i := by
    intro a ha
    simp only [filed, Finset.mem_filter] at ha
    exact Finset.mem_Ioi.mpr ha.2.1
  have hcard : (Finset.Ioi i).card ≤ (filed s i).card := by
    rw [h.count i, hserved, Fin.card_Ioi]
    omega
  have hmem : c ∈ filed s i := by
    rw [Finset.eq_of_subset_of_card_le hsub hcard]
    exact Finset.mem_Ioi.mpr hc
  simp only [filed, Finset.mem_filter] at hmem
  exact hmem.2.2

/-- The rank can make an orderly step. -/
def CanMove (s : World n) (r : Fin n) : Prop :=
  Orderly s r ∧ ∃ s', establishStep s r = some s'

/-- A step that is not a connect is orderly. -/
theorem canMove_of_ne_connect (hpc : ∀ i, s.pc r ≠ .connect i)
    (hstep : (establishStep s r).isSome) : CanMove s r :=
  ⟨fun i hi => absurd hi (hpc i), Option.isSome_iff_exists.mp hstep⟩

/-- If nobody can move, no server waits for a rank: the client it waits for is about to send it. -/
theorem EstInv.not_recvRank_of_stuck (h : EstInv s) (hstuck : ∀ r, ¬ CanMove s r) (r i c : Fin n) :
    s.pc r ≠ .recvRank i c := by
  intro hpc
  have hmem : c ∈ waiting s r := by simp [waiting, waitingOf, hpc]
  obtain ⟨hlt, hnone⟩ := h.fresh r c hmem
  have hopen : s.conn (c, r) ≠ .absent := (h.reached r c hlt).mpr (Or.inl hmem)
  -- the rank was sent, and the server can go on
  by_cases hsent : s.conn (c, r) = .opened true
  · refine hstuck r (canMove_of_ne_connect (by simp [hpc]) ?_)
    simp [establishStep, hpc, hsent]
  · have hview := h.conn_eq c r
    cases hpcc : s.pc c with
    -- the client is about to send it
    | sendRank k =>
      refine hstuck c (canMove_of_ne_connect (by simp [hpcc]) ?_)
      simp [establishStep, hpcc]
    -- in all other states of the client the connection would be made and sent, or not be there
    | connect k =>
      rw [hpcc] at hview
      simp only [ConnectPc.view] at hview
      split at hview
      · exact hsent hview
      · exact hopen hview
    | done =>
      rw [hpcc] at hview
      exact hsent (hview.trans (if_pos hlt))
    | _ =>
      rw [hpcc] at hview
      exact hopen hview

/-- If nobody can move, every rank waits at its accept with nothing queued, waits for a listening
socket, or has returned. -/
theorem EstInv.cases_of_stuck (h : EstInv s) (hstuck : ∀ r, ¬ CanMove s r) (r : Fin n) :
    (∃ i, s.pc r = .accept i ∧ waiting s r = []) ∨ (∃ k, s.pc r = .connect k) ∨ s.pc r = .done := by
  cases hpc : s.pc r with
  | listen i =>
    refine absurd (canMove_of_ne_connect (by simp [hpc]) ?_) (hstuck r)
    simp [establishStep, hpc]
  | accept i =>
    left
    -- at an accept: with a client queued it could go on
    obtain ⟨l, hl, -⟩ := (hpc ▸ h.queue_ok r : QueueOk (s.queue r) (.accept i))
    cases l with
    | nil => exact ⟨i, rfl, by rw [waiting, hpc, hl]; rfl⟩
    | cons c q =>
      refine absurd (canMove_of_ne_connect (by simp [hpc]) ?_) (hstuck r)
      simp [establishStep, hpc, hl]
  | recvRank i c => exact absurd hpc (h.not_recvRank_of_stuck hstuck r i c)
  | closeServer i =>
    refine absurd (canMove_of_ne_connect (by simp [hpc]) ?_) (hstuck r)
    simp [establishStep, hpc]
  | connect k => exact Or.inr (Or.inl ⟨k, rfl⟩)
  | sendRank k =>
    refine absurd (canMove_of_ne_connect (by simp [hpc]) ?_) (hstuck r)
    simp [establishStep, hpc]
  | done => exact Or.inr (Or.inr rfl)

/-- If nobody can move, nobody waits for a listening socket. -/
theorem EstInv.not_connect_of_stuck (h : EstInv s) (hstuck : ∀ r, ¬ CanMove s r) (r k : Fin n) :
    s.pc r ≠ .connect k := by
  intro hconnect
  have hlt : k.val < r.val := by
    have hrange := h.in_range r
    rwa [hconnect] at hrange
  have habsent : s.conn (r, k) = .absent := by
    rw [h.conn_eq, hconnect]
    simp [ConnectPc.view]
  rcases h.cases_of_stuck hstuck k with ⟨i, haccept, hwait⟩ | hclient
  · -- its server is ready to accept
    obtain ⟨l, hl, -⟩ := (haccept ▸ h.queue_ok k : QueueOk (s.queue k) (.accept i))
    have hnil : l = [] := by simpa [waiting, waitingOf, haccept, hl] using hwait
    subst hnil
    refine hstuck r ⟨?_, ?_⟩
    · intro k' hk' q hq
      rw [hconnect] at hk'
      cases hk'
      rw [hl] at hq
      cases hq
      exact ⟨rfl, i, haccept⟩
    · simp only [establishStep, hconnect, hl]
      exact ⟨_, rfl⟩
  · -- its server has everybody on file, also this rank
    have hserved : (s.pc k).served k = n - (k.val + 1) := by
      rcases hclient with ⟨k', hk'⟩ | hdone
      · rw [hk']; rfl
      · rw [hdone]; rfl
    exact (h.reached k r hlt).mpr (Or.inr (h.all_of_served hserved hlt)) habsent

/-- If nobody can move, a rank that has not returned waits at its accept, with nothing queued. -/
theorem EstInv.accept_of_stuck (h : EstInv s) (hstuck : ∀ r, ¬ CanMove s r) (hr : s.pc r ≠ .done) :
    ∃ i, s.pc r = .accept i ∧ waiting s r = [] := by
  rcases h.cases_of_stuck hstuck r with haccept | ⟨k, hconnect⟩ | hdone
  · exact haccept
  · exact absurd hconnect (h.not_connect_of_stuck hstuck r k)
  · exact absurd hdone hr

/-- **Progress** in orderly runs. -/
theorem EstInv.progress (h : EstInv s) (hnot : ¬ s.AllDone) : ∃ r, CanMove s r := by
  by_contra hstuck
  push Not at hstuck
  -- take the highest rank that has not returned: all above it have connected to it
  -- somebody has not returned
  have hex : (Finset.univ.filter fun r => s.pc r ≠ .done).Nonempty := by
    by_contra hempty
    refine hnot fun r => ?_
    by_contra hr
    exact hempty ⟨r, by simp [hr]⟩
  obtain ⟨r, hr, hmax⟩ := Finset.exists_max_image _ id hex
  simp only [Finset.mem_filter, Finset.mem_univ, true_and, id] at hr hmax
  obtain ⟨i, hpc, hwait⟩ := h.accept_of_stuck hstuck hr
  have hall : ∀ c : Fin n, r.val < c.val → s.sockets (r, c) ≠ none := by
    intro c hc
    -- the ranks above have returned
    have hdone : s.pc c = .done := by
      by_contra hne
      exact absurd (hmax c hne) (by simpa using hc)
    -- so their connections are made
    have hopen : s.conn (c, r) ≠ .absent := by
      rw [h.conn_eq, hdone]
      simp [ConnectPc.view, hc]
    rcases (h.reached r c hc).mp hopen with hw | hsome
    -- nobody waits at this rank, so they are on file
    · rw [hwait] at hw
      cases hw
    · exact hsome
  have hserved := h.served_of_all hall
  have hrange := h.in_range r
  rw [hpc] at hserved hrange
  simp only [ConnectPc.served, ConnectPc.InRange] at hserved hrange
  have := i.isLt
  omega

/-! ## The runs are bounded

No rank retries an operation that has an effect, so a rank has a bounded number of operations left.
With progress this gives a run to the end from every state. -/

/-- The operations rank `r` has left, at most. -/
def ConnectPc.left (r : Fin n) : ConnectPc n → Nat
  -- four operations for each higher rank and two for each lower one
  | .listen j => 4 * (n - j.val) + 2 * r.val
  | .accept j => 4 * (n - j.val) + 2 * r.val - 1
  | .recvRank j _ => 4 * (n - j.val) + 2 * r.val - 2
  | .closeServer j => 4 * (n - j.val) + 2 * r.val - 3
  | .connect i => 2 * (r.val - i.val)
  | .sendRank i => 2 * (r.val - i.val) - 1
  | .done => 0

/-- The operations all ranks have left. -/
def World.left (s : World n) : Nat := ∑ r, (s.pc r).left r

/-- The end of an iteration of the server loop. -/
theorem left_serverNext (r i : Fin n) :
    (serverNext r i).left r < (ConnectPc.closeServer i).left r := by
  have hi := i.isLt
  unfold serverNext clientStart
  split
  · simp only [ConnectPc.left]
    omega
  · split <;> simp only [ConnectPc.left] <;> omega

/-- The end of an iteration of the client loop. -/
theorem left_clientNext {r i : Fin n} (h : i.val < r.val) :
    (clientNext r i).left r < (ConnectPc.sendRank i).left r := by
  unfold clientNext
  split <;> simp only [ConnectPc.left] <;> omega

/-- A step moves its own rank only, and forward. -/
theorem left_lt_of_step {s' : World n} (hrange : (s.pc r).InRange r)
    (hstep : establishStep s r = some s') :
    ∃ p, s'.pc = Function.update s.pc r p ∧ p.left r < (s.pc r).left r := by
  unfold establishStep at hstep
  cases hpc : s.pc r with
  | listen i =>
    simp only [hpc] at hstep
    cases hstep
    have hi := i.isLt
    exact ⟨_, rfl, by simp only [ConnectPc.left]; omega⟩
  | accept i =>
    simp only [hpc] at hstep
    have hi := i.isLt
    split at hstep
    · cases hstep
      exact ⟨_, rfl, by simp only [ConnectPc.left]; omega⟩
    · cases hstep
  | recvRank i c =>
    simp only [hpc] at hstep
    have hi := i.isLt
    split at hstep
    · cases hstep
      exact ⟨_, rfl, by simp only [ConnectPc.left]; omega⟩
    · cases hstep
  | closeServer i =>
    simp only [hpc] at hstep
    cases hstep
    exact ⟨_, rfl, left_serverNext r i⟩
  | connect i =>
    rw [hpc] at hrange
    simp only [hpc] at hstep
    simp only [ConnectPc.InRange] at hrange
    split at hstep
    · split at hstep
      · cases hstep
        exact ⟨_, rfl, by simp only [ConnectPc.left]; omega⟩
      · cases hstep
    · cases hstep
  | sendRank i =>
    rw [hpc] at hrange
    simp only [hpc] at hstep
    cases hstep
    exact ⟨_, rfl, left_clientNext hrange⟩
  | done =>
    simp only [hpc] at hstep
    cases hstep

/-- A step makes the number of operations that are left smaller. -/
theorem World.left_lt {s' : World n} (hrange : (s.pc r).InRange r)
    (hstep : establishStep s r = some s') : s'.left < s.left := by
  obtain ⟨p, hpc, hlt⟩ := left_lt_of_step hrange hstep
  unfold World.left
  rw [hpc]
  refine Finset.sum_lt_sum (fun i _ => ?_) ⟨r, Finset.mem_univ r, ?_⟩
  · by_cases hi : i = r
    · subst hi
      rw [Function.update_self]
      exact hlt.le
    · rw [Function.update_of_ne hi]
  · rwa [Function.update_self]

/-! ## All connections are made

At the end every client has made all its connections, and nobody waits, so each of them is on file
at its server as well. -/

/-- From every state of an orderly run all ranks can return. -/
theorem EstInv.finish (h : EstInv s) : ∃ t, Reach establishStep Orderly s t ∧ t.AllDone := by
  refine reach_final World.left (fun s (h : EstInv s) hnot => ?_) h
  obtain ⟨r, hok, s', hstep⟩ := h.progress hnot
  exact ⟨r, s', hok, hstep, h.step hok hstep, World.left_lt (h.in_range r) hstep⟩

/-- When all have returned, client `c` and server `i` hold the ends of the connection they made. -/
theorem EstInv.ends (h : EstInv s) (hdone : s.AllDone) {i c : Fin n} (hlt : i.val < c.val) :
    s.conn (c, i) = .opened true ∧ s.sockets (c, i) = some (c, i) ∧
      s.sockets (i, c) = some (c, i) := by
  have hopen : s.conn (c, i) = .opened true := by
    rw [h.conn_eq, hdone c]
    exact if_pos hlt
  have hclient : s.sockets (c, i) = some (c, i) := by
    rw [h.client_entry c i hlt, hopen]
    -- nobody waits when all have returned, so who has connected is on file
    rfl
  have hqueue : s.queue i = none := by
    have hq := h.queue_ok i
    rwa [hdone i] at hq
  have hwait : waiting s i = [] := by
    rw [waiting, hdone i, hqueue]
    rfl
  have hfiled : s.sockets (i, c) ≠ none := by
    have hreached := (h.reached i c hlt).mp (by rw [hopen]; simp)
    rw [hwait] at hreached
    exact hreached.resolve_left (by simp)
  exact ⟨hopen, hclient, (h.server_entry i c hlt).resolve_left hfiled⟩

/-- The entries of any pair, whichever of the two is the client. -/
theorem EstInv.matched (h : EstInv s) (hdone : s.AllDone) {i j : Fin n} (hne : i ≠ j) :
    Matched s i j := by
  rcases Nat.lt_or_gt_of_ne (Fin.val_ne_of_ne hne) with hlt | hgt
  · obtain ⟨hconn, hclient, hserver⟩ := h.ends hdone hlt
    exact ⟨(j, i), hserver, hclient, ⟨true, hconn⟩, Or.inr rfl⟩
  · obtain ⟨hconn, hclient, hserver⟩ := h.ends hdone hgt
    exact ⟨(i, j), hclient, hserver, ⟨true, hconn⟩, Or.inl rfl⟩

/-- **`establish_connections`.** In every run in which a connect succeeds only on a listening socket
whose owner is at its accept with nothing queued, all ranks can still return, and when they have,
the entries of every pair are the two ends of one live connection. -/
theorem establish_of_orderly (n : Nat) (s : World n)
    (h : Reach establishStep Orderly (worldInit n) s) :
    (∃ t, Reach establishStep Orderly s t ∧ t.AllDone) ∧
      (s.AllDone → ∀ i j, i ≠ j → Matched s i j) := by
  have hinv : EstInv s := h.inv estInv_init fun _ _ _ hi hok hstep => hi.step hok hstep
  exact ⟨hinv.finish, fun hdone _ _ hne => hinv.matched hdone hne⟩

instance (s : World n) (r : Fin n) : Decidable (Orderly s r) :=
  decidable_of_iff (∀ i, s.pc r = .connect i →
      (s.queue i).all fun q => decide (q = [] ∧ ∃ j, s.pc i = .accept j)) (by
    simp only [Orderly, Option.all_eq_true, Option.mem_def, decide_eq_true_eq])

/-- Three ranks: rank 2 connects to rank 0 and is served, then to rank 1, then rank 1 to rank 0. -/
def threeOrderly : List (Fin 3) :=
  [0, 2, 2, 0, 0, 0, 0, 1, 2, 2, 1, 1, 1, 1, 1, 0, 0, 0]

/-- A whole orderly run, computed. -/
theorem establish_of_orderly_three :
    ∃ s, Reach establishStep Orderly (worldInit 3) s ∧ s.AllDone ∧
      ∀ i j, i ≠ j → Matched s i j := by
  have hrun : (exec establishStep (fun s r => decide (Orderly s r)) (worldInit 3)
      threeOrderly).map (fun s => (s.pc 0, s.pc 1, s.pc 2)) = some (.done, .done, .done) := by
    decide +kernel
  obtain ⟨s, hreach, hobs⟩ := reach_of_exec_map hrun fun _ _ h => of_decide_eq_true h
  simp only [Prod.mk.injEq] at hobs
  have hdone : s.AllDone := fun r =>
    match r with
    | 0 => hobs.1
    | 1 => hobs.2.1
    | 2 => hobs.2.2
  exact ⟨s, hreach, hdone, (establish_of_orderly 3 s hreach).2 hdone⟩

/-- Three ranks: rank 2 connects to rank 0 and to rank 1, and rank 1, served, connects to rank 0 as
well, on the listening socket on which rank 2 is queued; rank 0 accepts rank 2 and closes. -/
def threeQueued : List (Fin 3) :=
  [0, 2, 2, 1, 2, 2, 1, 1, 1, 1, 1, 0, 0, 0, 0]

/-- Rank 0 has closed the listening socket on which rank 1 was queued, opened another and waits for
a second connection; rank 1 has returned and nobody connects any more. -/
theorem queued_peer_is_reset :
    ∃ s, Reach establishStep (fun _ _ => True) (worldInit 3) s ∧
      s.pc 0 = .accept 2 ∧ s.pc 1 = .done ∧ s.pc 2 = .done ∧ s.conn (1, 0) = .reset ∧
      ∀ r, establishStep s r = none := by
  have hrun : (exec establishStep (fun _ _ => true) (worldInit 3) threeQueued).map
      (fun s => decide (s.pc 0 = .accept 2 ∧ s.pc 1 = .done ∧ s.pc 2 = .done ∧
        s.conn (1, 0) = .reset ∧ s.queue 0 = some [])) = some true := by
    decide +kernel
  obtain ⟨s, hreach, hobs⟩ := reach_of_exec_map hrun fun _ _ _ => trivial
  obtain ⟨h0, h1, h2, hconn, hqueue⟩ := of_decide_eq_true hobs
  refine ⟨s, hreach, h0, h1, h2, hconn, fun r => ?_⟩
  match r with
  | 0 => simp [establishStep, h0, hqueue]
  | 1 => simp [establishStep, h1]
  | 2 => simp [establishStep, h2]

end OsHomework.Nccl
