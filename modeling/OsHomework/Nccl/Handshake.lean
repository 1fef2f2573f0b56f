import Mathlib.Algebra.Group.Nat.Defs
import Mathlib.Data.Finset.Card
import Mathlib.Order.Interval.Finset.Nat
import OsHomework.Lib.Reach

/-!
# Nccl — what the handshake values do to the table

One rank `r` of `establish_connections`, among peers that may send anything. Once for every higher
rank it accepts a connection, receives 4 bytes and uses them as the index its table gets the socket
at; then it files one connection for every lower rank. Any call may fail, which ends the process.
The operating system hands out descriptors that are not open.

`Handshake.stored` keeps the indices and the sockets stored so far, `Handshake.received` the values
received, for the theorems only: no step reads them.

* **`HandshakeInv.step`** — what is stored, and where, at every point of a run.
* **`handshake_iff`** — a table that is returned is complete, and was filled without a store outside
  or onto an entry already set, exactly when the values received are different ranks above `r`.
-/

namespace OsHomework.Nccl

open Lts

/-! ## One rank

The peers are not modelled: what `accept` and `recv` return may be anything. `sockets` is memory and
has no length, so that a store behind the table has somewhere to go. An `int` that is used as an
index is converted to `size_t`, by which a negative number becomes a very large one. -/

/-- The head of an iteration, the end of the function, or the end of the process. -/
inductive HandshakePc where
  | server (i : Nat)
  | client (i : Nat)
  | ret
  | exit
  deriving DecidableEq

/-- `sockets` is the memory from the start of the table on. -/
structure Handshake where
  pc : HandshakePc
  sockets : Nat → Int
  opened : List Nat
  stored : List (Nat × Nat)
  received : List Int32

/-- What the system calls of one iteration of the server loop return; `none` and `false` are
errors. -/
structure ServerCalls where
  socket : Option Nat
  setsockopt : Bool
  bind : Bool
  listen : Bool
  accept : Option Nat
  recv : Option Int32

/-- The same for the client loop, with the number of times `connect` fails before it succeeds. -/
structure ClientCalls where
  socket : Option Nat
  inetPton : Bool
  connectFails : Nat
  send : Bool

/-- An `int` as the index of a vector. -/
def tableIndex (v : Int32) : Nat := v.toInt64.toUInt64.toNat

/-- The heads of the two loops. -/
def clientHead (r i : Nat) : HandshakePc := if i < r then .client i else .ret

/-- The head of the server loop, which goes over into the client loop. -/
def serverHead (n r i : Nat) : HandshakePc := if i < n then .server i else clientHead r 0

/-- `std::vector<int> sockets(nodes.size(), -1)`; `beyond` is what memory holds behind it, `opened`
the descriptors the process has already. -/
def Handshake.start (n r : Nat) (beyond : Nat → Int) (opened : List Nat) : Handshake where
  pc := serverHead n r (r + 1)
  sockets := fun k => if k < n then -1 else beyond k
  opened := opened
  stored := []
  received := []

/-- `TCP_CHECK` of a condition that does not hold. -/
def Handshake.fail (s : Handshake) : Handshake := { s with pc := .exit }

/-- `sockets[k] = fd` -/
def Handshake.file (s : Handshake) (k fd : Nat) : Handshake :=
  { s with
    sockets := Function.update s.sockets k fd
    opened := fd :: s.opened
    stored := s.stored ++ [(k, fd)] }

/-- One iteration of the server loop. The listening socket is open only inside it. -/
def Handshake.serve (n r : Nat) (s : Handshake) (i : Nat) (calls : ServerCalls) :
    Option Handshake :=
  match calls.socket with
  | none => some s.fail
  | some serverFd =>
    -- the descriptor of the listening socket is new, and so is that of the connection
    if serverFd ∈ s.opened then none
    else if !calls.setsockopt || !calls.bind || !calls.listen then some s.fail
    else
      match calls.accept with
      | none => some s.fail
      | some newSocket =>
        if newSocket ∈ serverFd :: s.opened then none
        else
          match calls.recv with
          | none => some s.fail
          | some connectingRank =>
            -- no check of the value is made
            some { s.file (tableIndex connectingRank) newSocket with
              pc := serverHead n r (i + 1)
              received := s.received ++ [connectingRank] }

/-- One iteration of the client loop; the twelfth failure of `connect` gives up. -/
def Handshake.connect (r : Nat) (s : Handshake) (i : Nat) (calls : ClientCalls) :
    Option Handshake :=
  match calls.socket with
  | none => some s.fail
  | some clientFd =>
    if clientFd ∈ s.opened then none
    else if !calls.inetPton || decide (12 ≤ calls.connectFails) || !calls.send then some s.fail
    else some { s.file i clientFd with pc := clientHead r (i + 1) }

/-- Which loop, with what its calls return. -/
inductive HandshakeLabel where
  | server (calls : ServerCalls)
  | client (calls : ClientCalls)

/-- One iteration of either loop. -/
def handshakeStep (n r : Nat) (s : Handshake) (l : HandshakeLabel) : Option Handshake :=
  match s.pc, l with
  | .server i, .server calls => s.serve n r i calls
  | .client i, .client calls => s.connect r i calls
  | _, _ => none

/-- What one iteration can do: end the process, or file a socket that was not open. -/
inductive Handshake.Move (n r : Nat) (s : Handshake) : Handshake → Prop where
  | fail (hrun : s.pc ≠ .ret ∧ s.pc ≠ .exit) : Handshake.Move n r s s.fail
  | serve {i newSocket : Nat} {connectingRank : Int32} (hpc : s.pc = .server i)
      (hfresh : newSocket ∉ s.opened) :
      Handshake.Move n r s { s.file (tableIndex connectingRank) newSocket with
        pc := serverHead n r (i + 1)
        received := s.received ++ [connectingRank] }
  | connect {i clientFd : Nat} (hpc : s.pc = .client i) (hfresh : clientFd ∉ s.opened) :
      Handshake.Move n r s { s.file i clientFd with pc := clientHead r (i + 1) }

/-- **Inversion** of the server loop: of its ways through, one files a socket. -/
theorem Handshake.move_of_serve {n r i : Nat} {s s' : Handshake} {calls : ServerCalls}
    (hpc : s.pc = .server i) (hstep : s.serve n r i calls = some s') :
    Handshake.Move n r s s' := by
  have hfail : Handshake.Move n r s s.fail := .fail (by simp [hpc])
  unfold Handshake.serve at hstep
  split at hstep
  · cases hstep
    exact hfail
  · split at hstep
    -- a descriptor that is open is not handed out again
    · cases hstep
    -- one of the calls fails, and `TCP_CHECK` exits
    split at hstep
    · cases hstep
      exact hfail
    split at hstep
    · cases hstep
      exact hfail
    · split at hstep
      · cases hstep
      · next hfresh =>
        split at hstep
        · cases hstep
          exact hfail
        · cases hstep
          exact .serve hpc fun hmem => hfresh (List.mem_cons_of_mem _ hmem)

/-- And of the client loop. -/
theorem Handshake.move_of_connect {n r i : Nat} {s s' : Handshake} {calls : ClientCalls}
    (hpc : s.pc = .client i) (hstep : s.connect r i calls = some s') :
    Handshake.Move n r s s' := by
  have hfail : Handshake.Move n r s s.fail := .fail (by simp [hpc])
  unfold Handshake.connect at hstep
  split at hstep
  · cases hstep
    exact hfail
  · split at hstep
    · cases hstep
    · next hfresh =>
      split at hstep
      · cases hstep
        exact hfail
      · cases hstep
        exact .connect hpc hfresh

/-- **Inversion** of a step. -/
theorem move_of_handshakeStep {n r : Nat} {s s' : Handshake} {l : HandshakeLabel}
    (hstep : handshakeStep n r s l = some s') : Handshake.Move n r s s' := by
  unfold handshakeStep at hstep
  split at hstep
  · next hpc => exact Handshake.move_of_serve hpc hstep
  · next hpc => exact Handshake.move_of_connect hpc hstep
  · cases hstep

/-! ## What is wanted

What a caller needs of the table, that all stores went to entries that were free, and the condition
on what the peers send. The theorem says that the third is the same as the first two. -/

/-- Entry `r` is -1, the others are open sockets, all different. -/
structure TableOk (n r : Nat) (s : Handshake) : Prop where
  own : s.sockets r = -1
  socket : ∀ i < n, i ≠ r → ∃ fd ∈ s.opened, s.sockets i = (fd : Int)
  distinct : ∀ i < n, ∀ j < n, i ≠ r → j ≠ r → i ≠ j → s.sockets i ≠ s.sockets j

/-- Every store went to an entry of the table, and to one that was not set. -/
structure StoresOk (n : Nat) (s : Handshake) : Prop where
  inside : ∀ p ∈ s.stored, p.1 < n
  once : (s.stored.map (·.1)).Nodup

/-- The values received are different ranks above `r`. -/
structure HigherRanks (n r : Nat) (received : List Int32) : Prop where
  range : ∀ v ∈ received, r < tableIndex v ∧ tableIndex v < n
  distinct : (received.map tableIndex).Nodup

/-! ## What is stored

The indices stored at are known at every moment: the values received, in order, and then the lower
ranks from 0 up. What the memory holds follows from the list of stores, as long as no index is in it
twice. -/

/-- How many values have been received and how many lower ranks connected to. -/
def HandshakePc.Counts (n r : Nat) (served connected : Nat) : HandshakePc → Prop
  | .server i => i < n ∧ served + r + 1 = i ∧ connected = 0
  | .client i => i < r ∧ served + r + 1 = n ∧ connected = i
  | .ret => served + r + 1 = n ∧ connected = r
  | .exit => connected ≤ r

structure HandshakeInv (n r : Nat) (beyond : Nat → Int) (s : Handshake) : Prop where
  indices : ∃ connected, s.pc.Counts n r s.received.length connected ∧
    s.stored.map (·.1) = s.received.map tableIndex ++ List.range connected
  opened : ∀ p ∈ s.stored, p.2 ∈ s.opened
  fds : (s.stored.map (·.2)).Nodup
  unset : ∀ k, k ∉ s.stored.map (·.1) → s.sockets k = if k < n then -1 else beyond k
  set : (s.stored.map (·.1)).Nodup → ∀ p ∈ s.stored, s.sockets p.1 = p.2

section

variable {n r : Nat} {beyond : Nat → Int} {s s' : Handshake}

/-- The client loop has connected to `i` lower ranks when it comes to `i`. -/
theorem counts_clientHead {served i : Nat} (hserved : served + r + 1 = n) (hi : i ≤ r) :
    (clientHead r i).Counts n r served i := by
  unfold clientHead
  split
  · next hlt => exact ⟨hlt, hserved, rfl⟩
  · next hge =>
    have hlast : i = r := by omega
    exact ⟨hserved, hlast⟩

/-- The server loop has received a value for each rank between `r` and `i`. -/
theorem counts_serverHead {served i : Nat} (hi : i ≤ n) (hserved : served + r + 1 = i) :
    (serverHead n r i).Counts n r served 0 := by
  unfold serverHead
  split
  · next hlt => exact ⟨hlt, hserved, rfl⟩
  · next hge => exact counts_clientHead (by omega) (Nat.zero_le r)

theorem counts_le {pc : HandshakePc} {served connected : Nat}
    (h : pc.Counts n r served connected) : connected ≤ r := by
  cases pc with
  | server i =>
    have hnone := h.2.2
    omega
  | client i =>
    have hlt := h.1
    have hall := h.2.2
    omega
  | ret => exact Nat.le_of_eq h.2
  | exit => exact h

/-- The table before the loops. -/
theorem handshakeInv_start (hr : r < n) (beyond : Nat → Int) (opened : List Nat) :
    HandshakeInv n r beyond (Handshake.start n r beyond opened) where
  indices := ⟨0, counts_serverHead hr (by simp [Handshake.start]), rfl⟩
  opened := fun p hp => by cases hp
  fds := List.nodup_nil
  unset := fun _ _ => rfl
  set := fun _ p hp => by cases hp

theorem HandshakeInv.fail (h : HandshakeInv n r beyond s) : HandshakeInv n r beyond s.fail := by
  refine ⟨?_, h.opened, h.fds, h.unset, h.set⟩
  obtain ⟨connected, hcounts, heq⟩ := h.indices
  exact ⟨connected, counts_le hcounts, heq⟩

/-- A new socket is stored, and whatever else happens keeps the counts. -/
theorem HandshakeInv.file (h : HandshakeInv n r beyond s) {k fd : Nat} (hfresh : fd ∉ s.opened)
    {pc : HandshakePc} {received : List Int32}
    (hindices : ∃ connected, pc.Counts n r received.length connected ∧
      s.stored.map (·.1) ++ [k] = received.map tableIndex ++ List.range connected) :
    HandshakeInv n r beyond { s.file k fd with pc := pc, received := received } := by
  have hmap : (s.stored ++ [(k, fd)]).map (·.1) = s.stored.map (·.1) ++ [k] := by simp
  -- the descriptors in the table are open, so the new one is none of them
  have hnew : fd ∉ s.stored.map (·.2) := by
    intro hmem
    obtain ⟨p, hp, rfl⟩ := List.mem_map.mp hmem
    exact hfresh (h.opened p hp)
  refine ⟨?_, ?_, ?_, ?_, ?_⟩
  -- the indices: those given
  · obtain ⟨connected, hcounts, heq⟩ := hindices
    exact ⟨connected, hcounts, hmap.trans heq⟩
  -- every descriptor stored is open
  · intro p hp
    rcases List.mem_append.mp hp with hp | hp
    · exact List.mem_cons_of_mem _ (h.opened p hp)
    · rw [List.mem_singleton.mp hp]
      exact List.mem_cons_self ..
  -- and none is stored twice
  · show ((s.stored ++ [(k, fd)]).map (·.2)).Nodup
    rw [List.map_append, List.nodup_append]
    refine ⟨h.fds, List.nodup_singleton _, fun a ha b hb heq => ?_⟩
    rw [heq, List.mem_singleton.mp hb] at ha
    exact hnew ha
  -- an entry without a store is as in the beginning
  · intro k' hk'
    have hk' : k' ∉ s.stored.map (·.1) ++ [k] := fun hmem => hk' (hmap ▸ hmem)
    rw [List.mem_append, not_or, List.mem_singleton] at hk'
    exact (Function.update_of_ne hk'.2 _ _).trans (h.unset k' hk'.1)
  -- an entry with one store has the descriptor of that store
  · intro honce p hp
    have honce : (s.stored.map (·.1) ++ [k]).Nodup := hmap ▸ honce
    rw [List.nodup_append] at honce
    obtain ⟨hold, -, hdisjoint⟩ := honce
    rcases List.mem_append.mp hp with hp | hp
    · have hne : p.1 ≠ k := hdisjoint _ (List.mem_map_of_mem hp) _ (List.mem_singleton_self k)
      exact (Function.update_of_ne hne _ _).trans (h.set hold p hp)
    · rw [List.mem_singleton.mp hp]
      exact Function.update_self ..

/-- **One step** keeps the account of what is stored. -/
theorem HandshakeInv.step (h : HandshakeInv n r beyond s) {l : HandshakeLabel}
    (hstep : handshakeStep n r s l = some s') : HandshakeInv n r beyond s' := by
  obtain ⟨connected, hcounts, heq⟩ := h.indices
  cases move_of_handshakeStep hstep with
  | fail hrun => exact h.fail
  | @serve i newSocket connectingRank hpc hfresh =>
    rw [hpc] at hcounts
    -- the server loop: another value received, no lower rank connected to yet
    obtain ⟨hlt, hserved, rfl⟩ := hcounts
    refine h.file hfresh ⟨0, counts_serverHead hlt ?_, ?_⟩
    · rw [List.length_append, List.length_singleton]
      omega
    · rw [heq, List.range_zero, List.append_nil, List.append_nil, List.map_append,
        List.map_singleton]
  | @connect i clientFd hpc hfresh =>
    rw [hpc] at hcounts
    -- the client loop: the indices are those of the lower ranks in order
    obtain ⟨hlt, hserved, rfl⟩ := hcounts
    refine h.file hfresh ⟨connected + 1, counts_clientHead hserved hlt, ?_⟩
    rw [heq, List.range_succ, List.append_assoc]
    rfl

/-! ## The table that is returned

One direction counts: as many different ranks above `r` as there are leave none of them out. For the
other one, a value at or below `r` would be stored to again by the client loop, or leave the rank's
own entry set. -/

/-- Different ranks above `r` are stored at different entries, none of them `r` or a lower one. -/
theorem HandshakeInv.storesOk (h : HandshakeInv n r beyond s) (hr : r < n)
    (hranks : HigherRanks n r s.received) : StoresOk n s ∧ r ∉ s.stored.map (·.1) := by
  obtain ⟨connected, hcounts, heq⟩ := h.indices
  have hle := counts_le hcounts
  have hhigher : ∀ k ∈ s.received.map tableIndex, r < k ∧ k < n := by
    intro k hk
    obtain ⟨v, hv, rfl⟩ := List.mem_map.mp hk
    exact hranks.range v hv
  refine ⟨⟨fun p hp => ?_, ?_⟩, fun hown => ?_⟩
  -- inside: the values are ranks, and the lower ranks are below `r`
  · have hmem : p.1 ∈ s.stored.map (·.1) := List.mem_map_of_mem hp
    rw [heq] at hmem
    rcases List.mem_append.mp hmem with hmem | hmem
    · exact (hhigher _ hmem).2
    · have := List.mem_range.mp hmem
      omega
  -- once: the values are above `r`, the lower ranks below
  · rw [heq, List.nodup_append]
    refine ⟨hranks.distinct, List.nodup_range, fun a ha b hb => ?_⟩
    have hlow := List.mem_range.mp hb
    have hhigh := (hhigher a ha).1
    omega
  -- the own entry is none of them
  · rw [heq] at hown
    rcases List.mem_append.mp hown with hmem | hmem
    · exact Nat.lt_irrefl r (hhigher r hmem).1
    · have := List.mem_range.mp hmem
      omega

/-- As many different ranks above `r` as there are: all of them. -/
theorem HigherRanks.mem {received : List Int32} (h : HigherRanks n r received)
    (hcount : received.length + r + 1 = n) {i : Nat} (hlow : r < i) (hhigh : i < n) :
    i ∈ received.map tableIndex := by
  have hsubset : (received.map tableIndex).toFinset ⊆ Finset.Ioo r n := by
    intro k hk
    obtain ⟨v, hv, rfl⟩ := List.mem_map.mp (List.mem_toFinset.mp hk)
    exact Finset.mem_Ioo.mpr (h.range v hv)
  have hcard : (Finset.Ioo r n).card ≤ (received.map tableIndex).toFinset.card := by
    rw [List.toFinset_card_of_nodup h.distinct, List.length_map, Nat.card_Ioo]
    omega
  have hmem : i ∈ Finset.Ioo r n := Finset.mem_Ioo.mpr ⟨hlow, hhigh⟩
  rw [← Finset.eq_of_subset_of_card_le hsubset hcard] at hmem
  exact List.mem_toFinset.mp hmem

/-- The table is complete if the values are ranks above `r`, all different. -/
theorem HandshakeInv.tableOk (h : HandshakeInv n r beyond s) (hr : r < n) (hpc : s.pc = .ret)
    (hranks : HigherRanks n r s.received) : TableOk n r s := by
  obtain ⟨hstores, hown⟩ := h.storesOk hr hranks
  -- every entry but `r` has been stored
  have hset : ∀ i < n, i ≠ r → ∃ fd, (i, fd) ∈ s.stored := by
    intro i hi hne
    obtain ⟨connected, hcounts, heq⟩ := h.indices
    rw [hpc] at hcounts
    have hmem : i ∈ s.stored.map (·.1) := by
      rw [heq, hcounts.2]
      -- a lower rank was connected to, a higher one is among the values received
      rcases Nat.lt_or_gt_of_ne hne with hlow | hhigh
      · exact List.mem_append_right _ (List.mem_range.mpr hlow)
      · exact List.mem_append_left _ (hranks.mem hcounts.1 hhigh hi)
    obtain ⟨p, hp, rfl⟩ := List.mem_map.mp hmem
    exact ⟨p.2, hp⟩
  refine ⟨?_, fun i hi hne => ?_, fun i hi j hj hir hjr hij heq => ?_⟩
  · rw [h.unset r hown, if_pos hr]
  · obtain ⟨fd, hfd⟩ := hset i hi hne
    exact ⟨fd, h.opened _ hfd, h.set hstores.once _ hfd⟩
  -- entries with one descriptor are one store
  · obtain ⟨fd, hfd⟩ := hset i hi hir
    obtain ⟨fd', hfd'⟩ := hset j hj hjr
    rw [h.set hstores.once _ hfd, h.set hstores.once _ hfd'] at heq
    have hsame := List.inj_on_of_nodup_map h.fds hfd hfd' (Int.ofNat.inj heq)
    exact hij (congrArg Prod.fst hsame)

/-- A complete table, filled by stores to entries that were not set, was filled by ranks above
`r`. -/
theorem HandshakeInv.higherRanks (h : HandshakeInv n r beyond s) (hpc : s.pc = .ret)
    (htable : TableOk n r s) (hstores : StoresOk n s) : HigherRanks n r s.received := by
  obtain ⟨connected, hcounts, heq⟩ := h.indices
  rw [hpc] at hcounts
  have honce := hstores.once
  rw [heq, hcounts.2, List.nodup_append] at honce
  refine ⟨fun v hv => ?_, honce.1⟩
  have hmem : tableIndex v ∈ s.received.map tableIndex := List.mem_map_of_mem hv
  have hstored : tableIndex v ∈ s.stored.map (·.1) := by
    rw [heq]
    exact List.mem_append_left _ hmem
  obtain ⟨p, hp, hindex⟩ := List.mem_map.mp hstored
  have hinside := hstores.inside p hp
  -- a lower rank is stored once more by the client loop
  have hlow : ¬ tableIndex v < r := by
    intro hlt
    exact honce.2.2 _ hmem _ (List.mem_range.mpr hlt) rfl
  -- a socket at the rank's own entry is not -1
  have hown : tableIndex v ≠ r := by
    intro heqr
    have hsocket := h.set hstores.once p hp
    rw [hindex, heqr, htable.own] at hsocket
    omega
  omega

end

/-! ## The two loops

Both loops are bounded and each call returns, so the process ends, by `exit` or by returning the
table. -/

/-- How many iterations are left, at most. -/
def HandshakePc.left (n r : Nat) : HandshakePc → Nat
  | .server i => (n - i) + r + 2
  | .client i => (r - i) + 1
  | .ret | .exit => 0

theorem left_clientHead_le (n r i : Nat) : (clientHead r i).left n r ≤ r - i + 1 := by
  unfold clientHead
  split
  · exact Nat.le_refl _
  · exact Nat.zero_le _

theorem left_serverHead_lt (n r i : Nat) :
    (serverHead n r (i + 1)).left n r < (HandshakePc.server i).left n r := by
  unfold serverHead
  split
  · simp only [HandshakePc.left]
    omega
  · have hle := left_clientHead_le n r 0
    show _ < n - i + r + 2
    omega

/-- Every iteration leaves fewer of them. -/
theorem left_lt_of_handshakeStep {n r : Nat} {s s' : Handshake} {l : HandshakeLabel}
    (hstep : handshakeStep n r s l = some s') : s'.pc.left n r < s.pc.left n r := by
  cases move_of_handshakeStep hstep with
  | fail hrun =>
    show 0 < s.pc.left n r
    cases hpc : s.pc with
    | server i | client i => exact Nat.succ_pos _
    | ret => exact absurd hpc hrun.1
    | exit => exact absurd hpc hrun.2
  | serve hpc hfresh =>
    rw [hpc]
    exact left_serverHead_lt n r _
  | @connect i clientFd hpc hfresh =>
    rw [hpc]
    show (clientHead r (i + 1)).left n r < r - i + 1
    unfold clientHead
    split
    · simp only [HandshakePc.left]
      omega
    · exact Nat.succ_pos _

/-- A process that has not ended and not returned makes its next call. -/
theorem handshake_progress (n r : Nat) (s : Handshake) :
    s.pc = .ret ∨ s.pc = .exit ∨ ∃ l s', handshakeStep n r s l = some s' := by
  cases hpc : s.pc with
  | ret => exact Or.inl rfl
  | exit => exact Or.inr (Or.inl rfl)
  | server i =>
    refine Or.inr (Or.inr ⟨.server ⟨none, true, true, true, none, none⟩, s.fail, ?_⟩)
    simp only [handshakeStep, hpc, Handshake.serve]
  | client i =>
    refine Or.inr (Or.inr ⟨.client ⟨none, true, 0, true⟩, s.fail, ?_⟩)
    simp only [handshakeStep, hpc, Handshake.connect]

/-- **One rank among arbitrary peers** exits or returns. As long as the values it receives are
different ranks above its own, it stores inside the table and never onto an entry already set; and a
table that it returns is complete, with its own entry free, after such stores only, exactly when
all the values were that. -/
theorem handshake_iff (n r : Nat) (hr : r < n) (beyond : Nat → Int) (opened : List Nat) :
    Terminates (handshakeStep n r) (fun _ _ => True) (Handshake.start n r beyond opened) ∧
      ∀ s, Reach (handshakeStep n r) (fun _ _ => True) (Handshake.start n r beyond opened) s →
        (s.pc = .ret ∨ s.pc = .exit ∨ ∃ l s', handshakeStep n r s l = some s') ∧
        (HigherRanks n r s.received → StoresOk n s) ∧
        (s.pc = .ret → (TableOk n r s ∧ StoresOk n s ↔ HigherRanks n r s.received)) := by
  refine ⟨?_, fun s hreach => ⟨handshake_progress n r s, ?_⟩⟩
  · refine terminates_of_measure (I := fun _ => True) (fun s => s.pc.left n r) ?_ trivial
    intro s l s' _ _ hstep
    exact ⟨trivial, left_lt_of_handshakeStep hstep⟩
  · have hinv : HandshakeInv n r beyond s :=
      hreach.inv (handshakeInv_start hr beyond opened) fun _ _ _ h _ hstep => h.step hstep
    refine ⟨fun hranks => (hinv.storesOk hr hranks).1, fun hpc => ⟨fun h => ?_, fun hranks => ?_⟩⟩
    · exact hinv.higherRanks hpc h.1 h.2
    · exact ⟨hinv.tableOk hr hpc hranks, (hinv.storesOk hr hranks).1⟩

/-- An iteration of the server loop in which a peer sends `v`. -/
def accepted (serverFd newSocket : Nat) (v : Int32) : HandshakeLabel :=
  .server ⟨some serverFd, true, true, true, some newSocket, some v⟩

/-- A rank whose process has the descriptors 0, 1 and 2. -/
def Handshake.fresh (n r : Nat) : Handshake := .start n r (fun _ => 7) [0, 1, 2]

/-- Rank 0 of two, whose peer sends 1. -/
theorem handshake_iff_two :
    ∃ s, Reach (handshakeStep 2 0) (fun _ _ => True) (.fresh 2 0) s ∧
      s.pc = .ret ∧ TableOk 2 0 s ∧ StoresOk 2 s := by
  have hrun : (exec (handshakeStep 2 0) (fun _ _ => true) (.fresh 2 0) [accepted 3 4 1]).map
      (fun s => (s.pc, s.received)) = some (.ret, [1]) := by
    decide +kernel
  obtain ⟨s, hreach, hobs⟩ := reach_of_exec_map hrun fun _ _ _ => trivial
  obtain ⟨hpc, hreceived⟩ := Prod.mk.inj hobs
  obtain ⟨-, -, hiff⟩ := (handshake_iff 2 0 (by decide) (fun _ => 7) [0, 1, 2]).2 s hreach
  refine ⟨s, hreach, hpc, (hiff hpc).mpr ?_⟩
  rw [hreceived]
  refine ⟨fun v hv => ?_, List.nodup_singleton _⟩
  rw [List.mem_singleton.mp hv]
  decide

/-- Three values that are filed all the same. A peer sends -1 to rank 0 of two, and the store goes
far behind the table; it sends 0, the rank's own entry, and entry 1 stays unset; two peers of three
send 1, and the second connection replaces the first. -/
theorem handshake_not_ok :
    (∃ s, Reach (handshakeStep 2 0) (fun _ _ => True) (.fresh 2 0) s ∧ s.pc = .ret ∧
        s.stored = [(2 ^ 64 - 1, 4)] ∧ ¬ StoresOk 2 s) ∧
      (∃ s, Reach (handshakeStep 2 0) (fun _ _ => True) (.fresh 2 0) s ∧ s.pc = .ret ∧
        s.sockets 0 = 4 ∧ s.sockets 1 = -1 ∧ ¬ TableOk 2 0 s) ∧
      ∃ s, Reach (handshakeStep 3 0) (fun _ _ => True) (.fresh 3 0) s ∧ s.pc = .ret ∧
        s.stored = [(1, 4), (1, 5)] ∧ s.sockets 2 = -1 ∧ ¬ StoresOk 3 s := by
  refine ⟨?_, ?_, ?_⟩
  -- -1 as an index
  · have hrun : (exec (handshakeStep 2 0) (fun _ _ => true) (.fresh 2 0) [accepted 3 4 (-1)]).map
        (fun s => (s.pc, s.stored)) = some (.ret, [(2 ^ 64 - 1, 4)]) := by
      decide +kernel
    obtain ⟨s, hreach, hobs⟩ := reach_of_exec_map hrun fun _ _ _ => trivial
    obtain ⟨hpc, hstored⟩ := Prod.mk.inj hobs
    refine ⟨s, hreach, hpc, hstored, fun hok => ?_⟩
    have hinside := hok.inside (2 ^ 64 - 1, 4) (by rw [hstored]; exact List.mem_singleton_self _)
    dsimp only at hinside
    omega
  -- the rank's own entry
  · have hrun : (exec (handshakeStep 2 0) (fun _ _ => true) (.fresh 2 0) [accepted 3 4 0]).map
        (fun s => (s.pc, s.sockets 0, s.sockets 1)) = some (.ret, 4, -1) := by
      decide +kernel
    obtain ⟨s, hreach, hobs⟩ := reach_of_exec_map hrun fun _ _ _ => trivial
    simp only [Prod.mk.injEq] at hobs
    refine ⟨s, hreach, hobs.1, hobs.2.1, hobs.2.2, fun hok => ?_⟩
    have hown := hok.own
    rw [hobs.2.1] at hown
    exact absurd hown (by decide)
  -- the same value twice
  · have hrun : (exec (handshakeStep 3 0) (fun _ _ => true) (.fresh 3 0)
        [accepted 3 4 1, accepted 3 5 1]).map
        (fun s => (s.pc, s.stored, s.sockets 2)) = some (.ret, [(1, 4), (1, 5)], -1) := by
      decide +kernel
    obtain ⟨s, hreach, hobs⟩ := reach_of_exec_map hrun fun _ _ _ => trivial
    simp only [Prod.mk.injEq] at hobs
    refine ⟨s, hreach, hobs.1, hobs.2.1, hobs.2.2, fun hok => ?_⟩
    have honce := hok.once
    rw [hobs.2.1] at honce
    exact absurd honce (by decide)

end OsHomework.Nccl
