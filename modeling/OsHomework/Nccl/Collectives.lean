import Mathlib.Data.List.Range
import OsHomework.Lib.Choreography

/-!
# Nccl — `tcp_broadcast` and `tcp_allreduce`

The collectives of the TCP test program. Every rank runs a straight-line program of `tcp_send` and
`tcp_recv` loops over the sockets of its table; a float is the four bytes it is in memory, and
adding floats is an arbitrary operation on these, so that the order of the additions matters.

* **`tcpBroadcast`**, **`tcpAllreduce`** — the program of one rank, from its socket table.
* **`broadcastEvs`**, **`allreduceEvs`** — the same as choreographies; `proj_broadcastEvs` and
  `proj_allreduceEvs` say that each rank's program is its share.
* **`collectives_correct`** — over byte streams of any positive capacity no state is stuck, every
  rank ends up with the sum taken in rank order, or with the root's data, and nothing is left in
  transit.
-/

namespace OsHomework.Nccl

open Network Lts

abbrev Rank := Nat

/-- A block of memory, by byte offset. -/
abbrev Buf := Nat → UInt8

/-- The object representation of a `float`. -/
abbrev Float4 := Fin 4 → UInt8

/-- The buffers of a rank. -/
inductive BufName where
  | sendbuf
  | recvbuf
  | tempBuf
  deriving DecidableEq

/-- The memory of a rank. -/
abbrev RankMem := BufName → Buf

/-- `buf[j]`. -/
def elem (b : Buf) (j : Nat) : Float4 := fun i => b (4 * j + i)

/-- `buf[j] = v`. -/
def setElem (b : Buf) (j : Nat) (v : Float4) : Buf := fun x =>
  if x / 4 = j then v ⟨x % 4, Nat.mod_lt _ (by decide)⟩ else b x

/-- The first `size` bytes of a buffer. -/
def bytesOf (size : Nat) (b : Buf) : List UInt8 := (List.range size).map b

/-- Store byte `i` of a buffer. -/
def putByte (name : BufName) (i : Nat) (byte : UInt8) (m : RankMem) : RankMem :=
  Function.update m name (Function.update (m name) i byte)

/-- `tcp_send(sock, buf, size)`; on an invalid socket the program exits. -/
def tcpSend (sock : Option Rank) (name : BufName) (size : Nat) : Act Rank RankMem UInt8 :=
  match sock with
  | some dst => .send dst fun m => bytesOf size (m name)
  | none => .abort

/-- `tcp_recv(sock, buf, size)`. -/
def tcpRecv (sock : Option Rank) (name : BufName) (size : Nat) : Act Rank RankMem UInt8 :=
  match sock with
  | some src => .recv src size (putByte name)
  | none => .abort

/-- `tcp_broadcast(data, count, root, my_rank, sockets)`. -/
def tcpBroadcast (name : BufName) (count root myRank : Nat) (sockets : List (Option Rank)) :
    List (Act Rank RankMem UInt8) :=
  if myRank = root then
    (List.range sockets.length).flatMap fun i =>
      -- entry `root` is skipped, and so is one without a socket
      if i ≠ root ∧ (sockets.getD i none).isSome then
        [tcpSend (sockets.getD i none) name (count * 4)]
      else []
  else [tcpRecv (sockets.getD root none) name (count * 4)]

/-- `memcpy(recvbuf, sendbuf, size)`. -/
def copyBuf (size : Nat) (m : RankMem) : RankMem :=
  Function.update m .recvbuf fun x => if x < size then m .sendbuf x else m .recvbuf x

/-- `for (j = 0; j < count; j++) recvbuf[j] += temp_buf[j];` -/
def accumulate (add : Float4 → Float4 → Float4) (count : Nat) (m : RankMem) : RankMem :=
  (List.range count).foldl (fun m j =>
    Function.update m .recvbuf
      (setElem (m .recvbuf) j (add (elem (m .recvbuf) j) (elem (m .tempBuf) j)))) m

/-- `tcp_allreduce(sendbuf, recvbuf, count, my_rank, sockets)`. -/
def tcpAllreduce (add : Float4 → Float4 → Float4) (count myRank : Nat)
    (sockets : List (Option Rank)) : List (Act Rank RankMem UInt8) :=
  .comp (copyBuf (count * 4)) ::
    -- rank 0 collects, in the order of the ranks
    ((if myRank = 0 then
        (List.range' 1 (sockets.length - 1)).flatMap fun i =>
          [tcpRecv (sockets.getD i none) .tempBuf (count * 4), .comp (accumulate add count)]
      else [tcpSend (sockets.getD 0 none) .recvbuf (count * 4)]) ++
      tcpBroadcast .recvbuf count 0 myRank sockets)

/-- A complete socket table: a connection to every other rank, -1 at the rank's own place. -/
def completeTable (n myRank : Nat) : List (Option Rank) :=
  (List.range n).map fun i => if i = myRank then none else some i

/-- The `n` ranks before their programs. -/
def launch (n : Nat) (prog : Rank → List (Act Rank RankMem UInt8)) (x : Rank → RankMem) :
    Net Rank RankMem UInt8 where
  party := fun r => ⟨if r < n then prog r else [], 0, x r⟩
  chan := fun _ => []

/-! ## The programs as choreographies

The programs of the ranks are loops over socket tables. As a list of events they are easier to read:
for the broadcast a message to each rank, for the allreduce the copies, a message and an addition
for each rank, and a broadcast. That each rank's program is its share of the list is shown for every
rank, with its own socket table. -/

/-- A message of `size` bytes from one buffer to another. -/
def bufMsg (src dst : Rank) (hne : src ≠ dst) (from_ to_ : BufName) (size : Nat) :
    Msg Rank RankMem UInt8 where
  src := src
  dst := dst
  src_ne_dst := hne
  data := fun m => bytesOf size (m from_)
  len := size
  length_data := by simp [bytesOf]
  put := putByte to_

/-- `root` sends to each of the others, in the order of the ranks. -/
def broadcastEvs (name : BufName) (n count root : Nat) : List (Ev Rank RankMem UInt8) :=
  (List.range n).flatMap fun i =>
    if h : i = root then [] else [.msg (bufMsg root i (Ne.symm h) name name (count * 4))]

/-- Ranks `1 … k` send to rank 0, which adds what it gets before the next one. -/
def reduceEvs (add : Float4 → Float4 → Float4) (k count : Nat) : List (Ev Rank RankMem UInt8) :=
  (List.range k).flatMap fun i =>
    [.msg (bufMsg (i + 1) 0 (Nat.succ_ne_zero i) .recvbuf .tempBuf (count * 4)),
      .comp 0 (accumulate add count)]

/-- The copies at the beginning. -/
def copyEvs (n count : Nat) : List (Ev Rank RankMem UInt8) :=
  (List.range n).map fun r => .comp r (copyBuf (count * 4))

/-- `tcp_allreduce` on all ranks. -/
def allreduceEvs (add : Float4 → Float4 → Float4) (n count : Nat) :
    List (Ev Rank RankMem UInt8) :=
  copyEvs n count ++ (reduceEvs add (n - 1) count ++ broadcastEvs .recvbuf n count 0)

/-- The entries of a complete table. -/
theorem completeTable_getD {n myRank i : Nat} (hi : i < n) (hne : i ≠ myRank) :
    (completeTable n myRank).getD i none = some i := by
  simp [completeTable, List.getD_eq_getElem?_getD, hi, hne]

/-- The one place of a loop at which something happens. -/
theorem flatMap_range_single {α : Type} (n r : Nat) (xs : List α) :
    ((List.range n).flatMap fun i => if i = r then xs else []) = if r < n then xs else [] := by
  induction n with
  | zero => simp
  | succ n ih =>
    rw [List.range_succ, List.flatMap_append, ih]
    by_cases hr : r < n
    · have hne : n ≠ r := by omega
      simp [hr, hne, Nat.lt_succ_of_lt hr]
    · by_cases heq : n = r
      · subst heq
        simp
      · have hnot : ¬ r < n + 1 := by omega
        simp [hr, heq, hnot]

theorem proj_append (r : Rank) (G H : List (Ev Rank RankMem UInt8)) :
    proj r (G ++ H) = proj r G ++ proj r H := List.flatMap_append

/-- **`tcp_broadcast`** is the share of each rank in the broadcast. -/
theorem proj_broadcastEvs (name : BufName) {n count root : Nat} (hroot : root < n) (r : Rank) :
    proj r (broadcastEvs name n count root) =
      if r < n then tcpBroadcast name count root r (completeTable n r) else [] := by
  rw [proj, broadcastEvs, List.flatMap_assoc]
  by_cases hr : r = root
  · -- the root's share is its loop of sends
    subst hr
    rw [if_pos hroot, tcpBroadcast, if_pos rfl, completeTable, List.length_map, List.length_range]
    refine List.flatMap_congr fun i hi => ?_
    have hin := List.mem_range.mp hi
    by_cases hir : i = r
    · simp [hir]
    · have hsock := completeTable_getD hin hir
      rw [completeTable] at hsock
      rw [dif_neg hir, hsock, if_pos ⟨hir, rfl⟩]
      simp [Ev.proj, bufMsg, tcpSend]
  · -- any other rank takes part in one message only, the one to itself
    have hshare : ∀ i, (if h : i = root then []
        else [Ev.msg (bufMsg root i (Ne.symm h) name name (count * 4))]).flatMap (Ev.proj r) =
          if i = r then [.recv root (count * 4) (putByte name)] else [] := by
      intro i
      by_cases hi : i = root
      · have hir : root ≠ r := Ne.symm hr
        simp [hi, hir]
      · rw [dif_neg hi]
        by_cases hir : i = r
        · subst hir
          simp [Ev.proj, bufMsg, hr]
        · simp [Ev.proj, bufMsg, hr, hir, Ne.symm hir]
    simp only [hshare]
    rw [flatMap_range_single]
    -- ranks that do not exist have no program
    by_cases hrn : r < n
    · rw [if_pos hrn, if_pos hrn, tcpBroadcast, if_neg hr, completeTable_getD hroot (Ne.symm hr)]
      rfl
    · rw [if_neg hrn, if_neg hrn]

/-- Each rank makes its own copy. -/
theorem proj_copyEvs (n count : Nat) (r : Rank) :
    proj r (copyEvs n count) = if r < n then [.comp (copyBuf (count * 4))] else [] := by
  rw [proj, copyEvs, List.flatMap_map, ← flatMap_range_single]
  refine List.flatMap_congr fun i _ => ?_
  by_cases hi : i = r
  · simp [Ev.proj, hi]
  · simp [Ev.proj, hi, Ne.symm hi]

/-- Rank 0 receives from all others and adds. -/
theorem proj_reduceEvs_zero (add : Float4 → Float4 → Float4) {n count : Nat} :
    proj 0 (reduceEvs add (n - 1) count) =
      (List.range' 1 (n - 1)).flatMap fun i =>
        [tcpRecv ((completeTable n 0).getD i none) .tempBuf (count * 4),
          .comp (accumulate add count)] := by
  rw [proj, reduceEvs, List.flatMap_assoc, List.range'_eq_map_range, List.flatMap_map]
  refine List.flatMap_congr fun i hi => ?_
  have hin := List.mem_range.mp hi
  rw [completeTable_getD (by omega) (by omega), Nat.add_comm 1 i]
  simp [Ev.proj, bufMsg, tcpRecv]

/-- Any other rank sends once. -/
theorem proj_reduceEvs_succ (add : Float4 → Float4 → Float4) (k count r : Nat) :
    proj (r + 1) (reduceEvs add k count) =
      if r < k then [.send 0 fun m => bytesOf (count * 4) (m .recvbuf)] else [] := by
  rw [proj, reduceEvs, List.flatMap_assoc, ← flatMap_range_single]
  refine List.flatMap_congr fun i _ => ?_
  by_cases hi : i = r
  · simp [Ev.proj, bufMsg, hi]
  · simp [Ev.proj, bufMsg, hi, Ne.symm hi]

/-- **`tcp_allreduce`** is the share of each rank in the allreduce. -/
theorem proj_allreduceEvs (add : Float4 → Float4 → Float4) {n : Nat} (hn : 0 < n) (count : Nat)
    (r : Rank) :
    proj r (allreduceEvs add n count) =
      if r < n then tcpAllreduce add count r (completeTable n r) else [] := by
  rw [allreduceEvs, proj_append, proj_append, proj_copyEvs, proj_broadcastEvs _ hn]
  have hlen : (completeTable n r).length = n := by simp [completeTable]
  cases r with
  -- rank 0 receives and adds, and is the root of the broadcast
  | zero =>
    rw [if_pos hn, if_pos hn, if_pos hn, tcpAllreduce, if_pos rfl, hlen, proj_reduceEvs_zero]
    rfl
  -- any other rank sends its buffer and waits for the result
  | succ r =>
    rw [proj_reduceEvs_succ]
    by_cases hr : r + 1 < n
    · rw [if_pos hr, if_pos hr, if_pos hr, if_pos (by omega), tcpAllreduce, if_neg (by omega),
        completeTable_getD hn (by omega)]
      rfl
    · rw [if_neg hr, if_neg hr, if_neg hr, if_neg (by omega)]
      rfl

/-! ## What the choreographies compute

The events are run one after the other on the memories of all ranks, by induction over the loop of
the source. Only bytes below `count * 4` are ever stored, which is where the elements of a buffer
are. -/

/-- The buffer after `size` bytes of another one have been stored in it. -/
def overwrite (size : Nat) (src dst : Buf) : Buf := fun x => if x < size then src x else dst x

/-- The bytes of a message are stored one by one. -/
theorem putAll_bytesOf (name : BufName) (size : Nat) (src : Buf) (m : RankMem) :
    putAll (putByte name) 0 (bytesOf size src) m =
      Function.update m name (overwrite size src (m name)) := by
  induction size with
  -- no byte
  | zero =>
    have hsame : overwrite 0 src (m name) = m name := by
      funext x
      simp [overwrite]
    rw [hsame, Function.update_eq_self]
    rfl
  | succ size ih =>
    -- one byte more, at the end
    have hbytes : bytesOf (size + 1) src = bytesOf size src ++ [src size] := by
      simp [bytesOf, List.range_succ]
    have hlen : (bytesOf size src).length = size := by simp [bytesOf]
    rw [hbytes, putAll_append, ih, hlen, Nat.zero_add]
    simp only [putAll, putByte, Function.update_self, Function.update_idem]
    congr 1
    funext x
    by_cases hx : x = size
    · subst hx
      simp [overwrite]
    · have hlt : x < size + 1 ↔ x < size := by omega
      simp [overwrite, Function.update_of_ne hx, hlt]

/-- What a message does to the receiver's buffer. -/
theorem bufMsg_stored {src dst : Rank} (hne : src ≠ dst) (from_ to_ : BufName) (size : Nat)
    (m : Rank → RankMem) :
    (bufMsg src dst hne from_ to_ size).stored m =
      Function.update (m dst) to_ (overwrite size (m src from_) (m dst to_)) :=
  putAll_bytesOf to_ size (m src from_) (m dst)

theorem runEvs_append (G H : List (Ev Rank RankMem UInt8)) (m : Rank → RankMem) :
    runEvs (G ++ H) m = runEvs H (runEvs G m) := List.foldl_append

/-- After the broadcast every rank but the root has the root's bytes in its buffer. -/
theorem runEvs_broadcastEvs (name : BufName) (n count root : Nat) (m : Rank → RankMem) (r : Nat) :
    runEvs (broadcastEvs name n count root) m r =
      if r < n ∧ r ≠ root then
        Function.update (m r) name (overwrite (count * 4) (m root name) (m r name))
      else m r := by
  induction n generalizing r with
  | zero => rfl
  | succ n ih =>
    have hsplit : broadcastEvs name (n + 1) count root = broadcastEvs name n count root ++
        if h : n = root then [] else [.msg (bufMsg root n (Ne.symm h) name name (count * 4))] := by
      simp [broadcastEvs, List.range_succ]
    rw [hsplit, runEvs_append]
    -- the root does not send to itself
    by_cases hroot : n = root
    · have hiff : r < n + 1 ∧ r ≠ root ↔ r < n ∧ r ≠ root := by omega
      rw [dif_pos hroot]
      simp only [hiff]
      exact ih r
    · rw [dif_neg hroot]
      -- the root still has its data, and the new receiver what it had
      have hdata : runEvs (broadcastEvs name n count root) m root = m root := by
        rw [ih, if_neg (by simp)]
      have hnew : runEvs (broadcastEvs name n count root) m n = m n := by
        rw [ih, if_neg (by simp)]
      show Function.update _ n _ r = _
      rw [bufMsg_stored, hdata, hnew]
      by_cases hrn : r = n
      · subst hrn
        rw [Function.update_self, if_pos ⟨Nat.lt_succ_self r, hroot⟩]
      · have hiff : r < n + 1 ∧ r ≠ root ↔ r < n ∧ r ≠ root := by omega
        rw [Function.update_of_ne hrn, ih]
        simp only [hiff]

/-- After the copies. -/
theorem runEvs_copyEvs (n count : Nat) (m : Rank → RankMem) (r : Nat) :
    runEvs (copyEvs n count) m r = if r < n then copyBuf (count * 4) (m r) else m r := by
  induction n generalizing r with
  | zero => rfl
  | succ n ih =>
    have hsplit : copyEvs (n + 1) count = copyEvs n count ++ [.comp n (copyBuf (count * 4))] := by
      simp [copyEvs, List.range_succ]
    have hnew : runEvs (copyEvs n count) m n = m n := by rw [ih, if_neg (by simp)]
    rw [hsplit, runEvs_append]
    show Function.update _ n _ r = _
    rw [hnew]
    by_cases hrn : r = n
    · subst hrn
      rw [Function.update_self, if_pos (Nat.lt_succ_self r)]
    · have hiff : r < n + 1 ↔ r < n := by omega
      rw [Function.update_of_ne hrn, ih]
      simp only [hiff]

/-- Writing one element. -/
theorem elem_setElem (b : Buf) (j i : Nat) (v : Float4) :
    elem (setElem b j v) i = if i = j then v else elem b i := by
  funext k
  have hdiv : (4 * i + k.val) / 4 = i := by omega
  have hmod : (4 * i + k.val) % 4 = k.val := by omega
  by_cases hij : i = j
  · simp [elem, setElem, hij ▸ hdiv, hij ▸ hmod, hij]
  · simp [elem, setElem, hdiv, hij]

/-- The accumulation loop adds element by element, and touches only `recvbuf`. -/
theorem accumulate_spec (add : Float4 → Float4 → Float4) (count : Nat) (m : RankMem) :
    (∀ name, name ≠ .recvbuf → accumulate add count m name = m name) ∧
      ∀ j, elem (accumulate add count m .recvbuf) j =
        if j < count then add (elem (m .recvbuf) j) (elem (m .tempBuf) j)
        else elem (m .recvbuf) j := by
  induction count with
  | zero => exact ⟨fun _ _ => rfl, fun _ => rfl⟩
  | succ count ih =>
    obtain ⟨hother, helem⟩ := ih
    have hsplit : accumulate add (count + 1) m =
        Function.update (accumulate add count m) .recvbuf
          (setElem (accumulate add count m .recvbuf) count
            (add (elem (accumulate add count m .recvbuf) count)
              (elem (accumulate add count m .tempBuf) count))) := by
      simp [accumulate, List.range_succ]
    refine ⟨fun name hname => ?_, fun j => ?_⟩
    · rw [hsplit, Function.update_of_ne hname, hother name hname]
    · -- earlier rounds have left element `count` alone, this one touches no other
      rw [hsplit, Function.update_self, elem_setElem, helem, hother .tempBuf (by decide), helem]
      by_cases hj : j = count
      · subst hj
        simp
      · have hiff : j < count + 1 ↔ j < count := by omega
        simp only [hj, if_false, hiff]

/-- The elements among the bytes that were stored. -/
theorem elem_overwrite {count j : Nat} (hj : j < count) (src dst : Buf) :
    elem (overwrite (count * 4) src dst) j = elem src j := by
  funext k
  have hlt : 4 * j + k.val < count * 4 := by omega
  simp [elem, overwrite, hlt]

/-- `((x_0[j] + x_1[j]) + x_2[j]) + ... + x_k[j]`. -/
def sumInRankOrder (add : Float4 → Float4 → Float4) (x : Rank → Buf) (j k : Nat) : Float4 :=
  (List.range k).foldl (fun acc i => add acc (elem (x (i + 1)) j)) (elem (x 0) j)

/-- After the reduce phase rank 0 has the sum over the ranks it has heard from, and nobody else has
changed. -/
theorem runEvs_reduceEvs (add : Float4 → Float4 → Float4) (k count : Nat) (m : Rank → RankMem) :
    (∀ r, r ≠ 0 → runEvs (reduceEvs add k count) m r = m r) ∧
      runEvs (reduceEvs add k count) m 0 .sendbuf = m 0 .sendbuf ∧
      ∀ j < count, elem (runEvs (reduceEvs add k count) m 0 .recvbuf) j =
        sumInRankOrder add (fun r => m r .recvbuf) j k := by
  induction k with
  | zero => exact ⟨fun _ _ => rfl, rfl, fun _ _ => rfl⟩
  | succ k ih =>
    obtain ⟨hother, hsend, hsum⟩ := ih
    set m' := runEvs (reduceEvs add k count) m with hm'
    -- one more round: the buffer of rank `k + 1` arrives in `temp_buf` and is added
    have hsplit : runEvs (reduceEvs add (k + 1) count) m =
        Function.update (Function.update m' 0 (Function.update (m' 0) .tempBuf
          (overwrite (count * 4) (m' (k + 1) .recvbuf) (m' 0 .tempBuf)))) 0
            (accumulate add count (Function.update (m' 0) .tempBuf
              (overwrite (count * 4) (m' (k + 1) .recvbuf) (m' 0 .tempBuf)))) := by
      have happend : reduceEvs add (k + 1) count = reduceEvs add k count ++
          [.msg (bufMsg (k + 1) 0 (Nat.succ_ne_zero k) .recvbuf .tempBuf (count * 4)),
            .comp 0 (accumulate add count)] := by
        simp [reduceEvs, List.range_succ]
      rw [happend, runEvs_append, ← hm']
      simp only [runEvs, List.foldl_cons, List.foldl_nil, Ev.apply, bufMsg_stored]
      simp [bufMsg]
    rw [hsplit, Function.update_idem]
    obtain ⟨hacc, helem⟩ := accumulate_spec add count (Function.update (m' 0) .tempBuf
      (overwrite (count * 4) (m' (k + 1) .recvbuf) (m' 0 .tempBuf)))
    refine ⟨fun r hr => ?_, ?_, fun j hj => ?_⟩
    · rw [Function.update_of_ne hr, hother r hr]
    · rw [Function.update_self, hacc .sendbuf (by decide), Function.update_of_ne (by decide), hsend]
    · rw [Function.update_self, helem, if_pos hj, Function.update_of_ne (by decide),
        Function.update_self, elem_overwrite hj, hsum j hj, hother (k + 1) (Nat.succ_ne_zero k)]
      simp [sumInRankOrder, List.range_succ]

/-- What the allreduce choreography computes. -/
theorem runEvs_allreduceEvs (add : Float4 → Float4 → Float4) {n : Nat} (hn : 0 < n) (count : Nat)
    (x : Rank → RankMem) {r : Nat} (hr : r < n) :
    runEvs (allreduceEvs add n count) x r .sendbuf = x r .sendbuf ∧
      ∀ j < count, elem (runEvs (allreduceEvs add n count) x r .recvbuf) j =
        sumInRankOrder add (fun r => x r .sendbuf) j (n - 1) := by
  -- first every rank copies its `sendbuf`
  set m₁ := runEvs (copyEvs n count) x with hm₁
  have hcopy : ∀ r < n, m₁ r = copyBuf (count * 4) (x r) := by
    intro r hr
    rw [hm₁, runEvs_copyEvs, if_pos hr]
  obtain ⟨hother, hsend, hsum⟩ := runEvs_reduceEvs add (n - 1) count m₁
  have hrecv : ∀ r < n, ∀ j < count, elem (m₁ r .recvbuf) j = elem (x r .sendbuf) j := by
    intro r hr j hj
    rw [hcopy r hr]
    exact elem_overwrite hj _ _
  -- what rank 0 has added up then is the sum of the `sendbuf`s
  have hsum' : ∀ j < count, elem (runEvs (reduceEvs add (n - 1) count) m₁ 0 .recvbuf) j =
      sumInRankOrder add (fun r => x r .sendbuf) j (n - 1) := by
    intro j hj
    rw [hsum j hj, sumInRankOrder, sumInRankOrder, hrecv 0 hn j hj]
    refine List.foldl_ext _ _ _ fun acc i hi => ?_
    rw [hrecv (i + 1) (by have := List.mem_range.mp hi; omega) j hj]
  rw [allreduceEvs, runEvs_append, ← hm₁, runEvs_append, runEvs_broadcastEvs]
  by_cases hzero : r = 0
  · -- rank 0 has the sum and is the root of the broadcast
    subst hzero
    rw [if_neg (by simp)]
    refine ⟨?_, hsum'⟩
    rw [hsend, hcopy 0 hn]
    exact Function.update_of_ne (by decide) _ _
  -- any other rank has received it in the broadcast
  · rw [if_pos ⟨hr, hzero⟩]
    refine ⟨?_, fun j hj => ?_⟩
    · rw [Function.update_of_ne (by decide), hother r hzero, hcopy r hr]
      exact Function.update_of_ne (by decide) _ _
    · rw [Function.update_self, elem_overwrite hj, hsum' j hj]

/-! ## The collectives over byte streams

The two parts together. The theorem about choreographies takes the result of the list for the result
of every run, whatever the ranks, the chunks and the capacities are. -/

/-- What is wanted of `tcp_allreduce`: a state reached is not stuck unless all ranks have returned,
and then every rank has the sum, its `sendbuf` unchanged, and nothing is in transit. -/
def AllreduceCorrect (add : Float4 → Float4 → Float4) (n count : Nat) (cap : Rank × Rank → Nat)
    (x : Rank → RankMem) : Prop :=
  ∀ s, Reach (Net.step cap) (fun _ _ => True)
      (launch n (fun r => tcpAllreduce add count r (completeTable n r)) x) s →
    (¬ s.Final → ∃ l t, s.step cap l = some t) ∧
      (s.Final → (∀ r < n,
          (∀ j < count, elem ((s.party r).mem .recvbuf) j =
            sumInRankOrder add (fun r => x r .sendbuf) j (n - 1)) ∧
          (s.party r).mem .sendbuf = x r .sendbuf) ∧
        ∀ c, s.chan c = [])

/-- What is wanted of `tcp_broadcast` of a buffer from `root`: the same, with the root's data on
every rank. -/
def BroadcastCorrect (name : BufName) (n count root : Nat) (cap : Rank × Rank → Nat)
    (x : Rank → RankMem) : Prop :=
  ∀ s, Reach (Net.step cap) (fun _ _ => True)
      (launch n (fun r => tcpBroadcast name count root r (completeTable n r)) x) s →
    (¬ s.Final → ∃ l t, s.step cap l = some t) ∧
      (s.Final → (∀ r < n, ∀ j < count,
          elem ((s.party r).mem name) j = elem (x root name) j) ∧
        ∀ c, s.chan c = [])

/-- Ranks whose programs are the shares of a choreography start where it starts. -/
theorem launch_eq_start {n : Nat} {prog : Rank → List (Act Rank RankMem UInt8)}
    {G : List (Ev Rank RankMem UInt8)} (hproj : ∀ r, proj r G = if r < n then prog r else [])
    (x : Rank → RankMem) : launch n prog x = start G x := by
  simp only [launch, start, hproj]

/-- **The collectives are correct over TCP.** For every world size and element count, all buffers
and all stream capacities, `tcp_allreduce` never gets stuck and leaves the sum in rank order on
every rank, and `tcp_broadcast` never gets stuck and leaves the root's data on every rank. -/
theorem collectives_correct (add : Float4 → Float4 → Float4) (n count : Nat) (hn : 1 ≤ n)
    (cap : Rank × Rank → Nat) (hcap : ∀ c, 0 < cap c) (x : Rank → RankMem) :
    AllreduceCorrect add n count cap x ∧
      ∀ name, ∀ root < n, BroadcastCorrect name n count root cap x := by
  refine ⟨fun s hs => ?_, fun name root hroot s hs => ?_⟩
  -- the allreduce
  · rw [launch_eq_start (proj_allreduceEvs add hn count)] at hs
    obtain ⟨hprogress, hresult⟩ := choreography_correct hcap _ x hs
    refine ⟨hprogress, fun hfinal => ?_⟩
    obtain ⟨hmem, hchan⟩ := hresult hfinal
    refine ⟨fun r hr => ?_, hchan⟩
    rw [hmem r]
    exact (runEvs_allreduceEvs add hn count x hr).symm
  -- the broadcast
  · rw [launch_eq_start (proj_broadcastEvs name hroot)] at hs
    obtain ⟨hprogress, hresult⟩ := choreography_correct hcap _ x hs
    refine ⟨hprogress, fun hfinal => ?_⟩
    obtain ⟨hmem, hchan⟩ := hresult hfinal
    refine ⟨fun r hr j hj => ?_, hchan⟩
    rw [hmem r, runEvs_broadcastEvs]
    by_cases hzero : r = root
    · rw [if_neg (by simp [hzero]), hzero]
    · rw [if_pos ⟨hr, hzero⟩, Function.update_self, elem_overwrite hj]

/-- An operation on floats: byte by byte. -/
def addBytes (a b : Float4) : Float4 := fun i => a i + b i

/-- Two ranks with one float each. -/
def twoRanks : Rank → RankMem := fun r _ i => UInt8.ofNat (10 * r + i)

/-- Who moves, and how many bytes: short sends, short receives, rank 1 ahead of rank 0 and back. -/
def twoRanksRun : List (Rank × Nat) :=
  [(1, 0), (1, 3), (0, 0), (0, 2), (1, 1), (0, 2), (0, 0), (0, 0), (1, 0), (0, 2), (1, 1), (0, 2),
    (1, 3), (0, 0), (1, 0)]

/-- A run of the allreduce with short transfers, computed. -/
theorem collectives_correct_twoRanks :
    (∃ s, Reach (Net.step fun _ => 3) (fun _ _ => True)
        (launch 2 (fun r => tcpAllreduce addBytes 1 r (completeTable 2 r)) twoRanks) s ∧
      (s.party 0).prog.isEmpty ∧ (s.party 1).prog.isEmpty ∧
      bytesOf 4 ((s.party 1).mem .recvbuf) = [10, 12, 14, 16]) ∧
    AllreduceCorrect addBytes 2 1 (fun _ => 3) twoRanks ∧
      ∀ name, ∀ root < 2, BroadcastCorrect name 2 1 root (fun _ => 3) twoRanks := by
  have hrun : (exec (Net.step fun _ => 3) (fun _ _ => true)
      (launch 2 (fun r => tcpAllreduce addBytes 1 r (completeTable 2 r)) twoRanks) twoRanksRun).map
        (fun s => ((s.party 0).prog.isEmpty, (s.party 1).prog.isEmpty,
          bytesOf 4 ((s.party 1).mem .recvbuf))) = some (true, true, [10, 12, 14, 16]) := by
    decide +kernel
  obtain ⟨s, hreach, hobs⟩ := reach_of_exec_map hrun fun _ _ _ => trivial
  simp only [Prod.mk.injEq] at hobs
  exact ⟨⟨s, hreach, hobs⟩,
    collectives_correct addBytes 2 1 (by decide) (fun _ => 3) (fun _ => by decide) twoRanks⟩

end OsHomework.Nccl
