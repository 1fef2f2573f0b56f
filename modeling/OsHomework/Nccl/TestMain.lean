import Mathlib.Data.List.Nodup
import OsHomework.Lib.Tagged
import OsHomework.Nccl.Collectives

/-!
# Nccl — `tcp_test_main`

What the ranks do once every rank has a complete socket table: a barrier, and for every size a
barrier, four broadcasts, a report of the times to rank 0, a barrier, four allreduces and another
report. Signals, times and payload all go over the same streams without a header. A program is cut
into the steps of the protocol, so that every `tcp_send` and `tcp_recv` has the step it belongs to.

The times, the random numbers and what `malloc` returns are those of an arbitrary `Bench`.

* **`tcpTestMain`** — the program of one rank; **`testMainEvs`** the same as a choreography.
* **`tcpTestMain_in_step`** — no state but the last is stuck, and every byte received is, in every
  state reached, the byte of the `tcp_send` of the same step at the same position of a message of
  the same length.
-/

namespace OsHomework.Nccl

open Network Lts

/-! ## Memory

The collectives use three buffers; `tcp_test_main` has more variables that go over the streams. A
variable is the bytes it is in memory, and the collectives are lifted to the larger memory. -/

/-- The variables of `tcp_test_main` that are sent or received. -/
inductive VarName where
  | buf (name : BufName)
  | signal
  | elapsed
  | remoteElapsed
  | maxElapsed
  deriving DecidableEq

/-- The memory of a rank. -/
abbrev MainMem := VarName → Buf

/-- The part of the memory that the collectives use. -/
def MainMem.bufs (m : MainMem) : RankMem := fun name => m (.buf name)

/-- The memory with other buffers. -/
def MainMem.withBufs (bufs : RankMem) (m : MainMem) : MainMem
  | .buf name => bufs name
  | v => m v

/-- A collective inside `tcp_test_main`. -/
def inMain (acts : List (Act Rank RankMem UInt8)) : List (Act Rank MainMem UInt8) :=
  acts.map (Act.over MainMem.bufs MainMem.withBufs)

/-- Store byte `i` of a variable. -/
def putVar (v : VarName) (i : Nat) (byte : UInt8) (m : MainMem) : MainMem :=
  Function.update m v (Function.update (m v) i byte)

/-- `v = b` -/
def setVar (v : VarName) (b : Buf) (m : MainMem) : MainMem := Function.update m v b

/-- `tcp_send(sock, &v, size)` -/
def sendVar (sock : Option Rank) (v : VarName) (size : Nat) : Act Rank MainMem UInt8 :=
  match sock with
  | some dst => .send dst fun m => bytesOf size (m v)
  | none => .abort

/-- `tcp_recv(sock, &v, size)` -/
def recvVar (sock : Option Rank) (v : VarName) (size : Nat) : Act Rank MainMem UInt8 :=
  match sock with
  | some src => .recv src size (putVar v)
  | none => .abort

/-- The `int` 1. -/
def intOne : Buf := fun i => if i = 0 then 1 else 0

/-! ## The program

The source in the order of its statements, with the label of a step on each stretch. Values that
come from clocks, from `rand` and from `malloc` are parameters, one for each round and rank, so that
whatever is proved holds whatever they are. -/

/-- What the program takes from its surroundings. -/
structure Bench where
  /-- `+` on `float` -/
  add : Float4 → Float4 → Float4
  /-- `remote_elapsed > max_elapsed` -/
  later : Buf → Buf → Bool
  /-- the buffers that `malloc` returns in a round -/
  malloc : Nat → Rank → RankMem
  /-- rank 0's random numbers -/
  random : Nat → Buf
  /-- `(float)(my_rank + 1) / world_size` -/
  share : Rank → Float4
  broadcastElapsed : Nat → Rank → Buf
  allreduceElapsed : Nat → Rank → Buf

/-- The steps of the protocol; `i` counts the three warm-up calls and the timed one. -/
inductive Step where
  | start
  | broadcastBarrier (s : Nat)
  | broadcast (s i : Nat)
  | broadcastReport (s : Nat)
  | allreduceBarrier (s : Nat)
  | allreduce (s i : Nat)
  | allreduceReport (s : Nat)
  deriving DecidableEq

/-- Rank 0 waits for a signal of every other rank, then gives each of them one. -/
def barrier (myRank : Rank) (sockets : List (Option Rank)) : List (Act Rank MainMem UInt8) :=
  let others := List.range' 1 (sockets.length - 1)
  if myRank = 0 then
    -- first one signal from every rank, then one to every rank
    others.flatMap (fun i => [recvVar (sockets.getD i none) .signal 4]) ++
      .comp (setVar .signal intOne) ::
        others.flatMap fun i => [sendVar (sockets.getD i none) .signal 4]
  else
    [.comp (setVar .signal intOne), sendVar (sockets.getD 0 none) .signal 4,
      recvVar (sockets.getD 0 none) .signal 4]

/-- `if (remote_elapsed > max_elapsed) max_elapsed = remote_elapsed;` -/
def keepLater (later : Buf → Buf → Bool) (m : MainMem) : MainMem :=
  if later (m .remoteElapsed) (m .maxElapsed) then setVar .maxElapsed (m .remoteElapsed) m else m

/-- `elapsed` is taken; rank 0 collects those of the others. -/
def report (later : Buf → Buf → Bool) (time : Rank → Buf) (myRank : Rank)
    (sockets : List (Option Rank)) : List (Act Rank MainMem UInt8) :=
  .comp (setVar .elapsed (time myRank)) ::
    if myRank = 0 then
      .comp (fun m => setVar .maxElapsed (m .elapsed) m) ::
        (List.range' 1 (sockets.length - 1)).flatMap fun i =>
          [recvVar (sockets.getD i none) .remoteElapsed 8, .comp (keepLater later)]
    else [sendVar (sockets.getD 0 none) .elapsed 8]

/-- New buffers, `sendbuf` with random numbers on rank 0 and zeros elsewhere. -/
def newBuffers (bench : Bench) (s myRank : Nat) (m : MainMem) : MainMem :=
  m.withBufs (Function.update (bench.malloc s myRank) .sendbuf
    (if myRank = 0 then bench.random s else fun _ => 0))

theorem byteOfFloat_lt (x : Nat) : x % 4 < 4 := Nat.mod_lt x (by decide)

/-- `sendbuf[i] = (float)(my_rank + 1) / world_size` -/
def fillShare (bench : Bench) (count myRank : Nat) (m : MainMem) : MainMem :=
  m.withBufs (Function.update m.bufs .sendbuf fun x =>
    if x < count * 4 then bench.share myRank ⟨x % 4, byteOfFloat_lt x⟩
    else m.bufs .sendbuf x)

/-- The round for the size with index `s`. -/
def testRound (bench : Bench) (s count myRank : Nat) (sockets : List (Option Rank)) :
    List (Step × List (Act Rank MainMem UInt8)) :=
  -- `sendbuf` is allocated and filled before the barrier
  (.broadcastBarrier s, .comp (newBuffers bench s myRank) :: barrier myRank sockets) ::
    ((List.range 4).map fun i =>
      (.broadcast s i, inMain (tcpBroadcast .sendbuf count 0 myRank sockets))) ++
    [(.broadcastReport s, report bench.later (bench.broadcastElapsed s) myRank sockets),
      (.allreduceBarrier s,
        -- the numbers to be added are stored between the barrier and the allreduces
        barrier myRank sockets ++ [.comp (fillShare bench count myRank)])] ++
    ((List.range 4).map fun i =>
      (.allreduce s i, inMain (tcpAllreduce bench.add count myRank sockets))) ++
    [(.allreduceReport s, report bench.later (bench.allreduceElapsed s) myRank sockets)]

/-- `tcp_test_main` of rank `myRank` from the first barrier on; `counts[s]` is the number of floats
of round `s`. -/
def tcpTestMain (bench : Bench) (counts : List Nat) (myRank : Rank)
    (sockets : List (Option Rank)) : List (Step × List (Act Rank MainMem UInt8)) :=
  (.start, barrier myRank sockets) ::
    (List.range counts.length).flatMap fun s =>
      testRound bench s (counts.getD s 0) myRank sockets

/-- The programs of `n` ranks with complete socket tables, each action with its step. -/
def rankProg (bench : Bench) (counts : List Nat) (n : Nat) (r : Rank) :
    List (Step × Act Rank MainMem UInt8) :=
  -- there are `n` ranks, others have no program
  if r < n then labelled (tcpTestMain bench counts r (completeTable n r)) else []

/-- The ranks before the first barrier. -/
def launchMain (bench : Bench) (counts : List Nat) (n : Nat) (x : Rank → MainMem) :
    Net Rank MainMem UInt8 :=
  ofProgs (fun r => (rankProg bench counts n r).map Prod.snd) x

/-- The same with tagged bytes. -/
def launchTagged (bench : Bench) (counts : List Nat) (n : Nat) (x : Rank → MainMem) :
    Net Rank (MainMem × Receipts Step) (UInt8 × Tag Step) :=
  ofProgs (fun r => tagProg (rankProg bench counts n r)) fun r => (x r, [])

/-! ## The program as a choreography

One order in which everything could happen: of a barrier, the signals of all other ranks before
those of rank 0. -/

/-- A message of `size` bytes from one variable to another. -/
def varMsg (src dst : Rank) (hne : src ≠ dst) (from_ to_ : VarName) (size : Nat) :
    Msg Rank MainMem UInt8 where
  src := src
  dst := dst
  src_ne_dst := hne
  data := fun m => bytesOf size (m from_)
  len := size
  length_data := fun m => by simp [bytesOf]
  put := putVar to_

/-- Ranks `1 … k` each send to rank 0, which does something after each message. -/
def gatherEvs (k : Nat) (from_ to_ : VarName) (size : Nat) (after : List (MainMem → MainMem)) :
    List (Ev Rank MainMem UInt8) :=
  (List.range k).flatMap fun i =>
    .msg (varMsg (i + 1) 0 (Nat.succ_ne_zero i) from_ to_ size) :: after.map (.comp 0)

/-- Rank 0 sends to each of the ranks `1 … k`. -/
def scatterEvs (k : Nat) (v : VarName) (size : Nat) : List (Ev Rank MainMem UInt8) :=
  (List.range k).flatMap fun i => [.msg (varMsg 0 (i + 1) (Nat.succ_ne_zero i).symm v v size)]

/-- Every rank below `n` computes. -/
def everyEvs (n : Nat) (f : Rank → MainMem → MainMem) : List (Ev Rank MainMem UInt8) :=
  (List.range n).flatMap fun r => [.comp r (f r)]

/-- The ranks `1 … k` compute. -/
def othersEvs (k : Nat) (f : MainMem → MainMem) : List (Ev Rank MainMem UInt8) :=
  (List.range k).flatMap fun i => [.comp (i + 1) f]

/-- The other ranks have their signal ready, rank 0 has to wait for theirs first. -/
def barrierEvs (n : Nat) : List (Ev Rank MainMem UInt8) :=
  othersEvs (n - 1) (setVar .signal intOne) ++ (gatherEvs (n - 1) .signal .signal 4 [] ++
    .comp 0 (setVar .signal intOne) :: scatterEvs (n - 1) .signal 4)

/-- Every rank takes its time, and rank 0 hears the others. -/
def reportEvs (later : Buf → Buf → Bool) (time : Rank → Buf) (n : Nat) :
    List (Ev Rank MainMem UInt8) :=
  everyEvs n (fun r => setVar .elapsed (time r)) ++
    .comp 0 (fun m => setVar .maxElapsed (m .elapsed) m) ::
      gatherEvs (n - 1) .elapsed .remoteElapsed 8 [keepLater later]

/-- The choreography of a collective. -/
def inMainEvs (G : List (Ev Rank RankMem UInt8)) : List (Ev Rank MainMem UInt8) :=
  G.map (Ev.over MainMem.bufs MainMem.withBufs)

/-- The steps of a round. -/
def roundEvs (bench : Bench) (n s count : Nat) : List (Step × List (Ev Rank MainMem UInt8)) :=
  (.broadcastBarrier s, everyEvs n (newBuffers bench s) ++ barrierEvs n) ::
    ((List.range 4).map fun i => (.broadcast s i, inMainEvs (broadcastEvs .sendbuf n count 0))) ++
    [(.broadcastReport s, reportEvs bench.later (bench.broadcastElapsed s) n),
      (.allreduceBarrier s, barrierEvs n ++ everyEvs n (fillShare bench count))] ++
    ((List.range 4).map fun i => (.allreduce s i, inMainEvs (allreduceEvs bench.add n count))) ++
    [(.allreduceReport s, reportEvs bench.later (bench.allreduceElapsed s) n)]

/-- `tcp_test_main` on all ranks. -/
def testMainEvs (bench : Bench) (counts : List Nat) (n : Nat) :
    List (Step × List (Ev Rank MainMem UInt8)) :=
  (.start, barrierEvs n) ::
    (List.range counts.length).flatMap fun s => roundEvs bench n s (counts.getD s 0)

/-! ## Each rank's program is its share

The loops are of two kinds. Rank 0 goes through all other ranks, any other rank takes part in one
iteration only. -/

/-- A loop in which rank `q` takes part once. -/
theorem proj_loop_once {q r k : Nat} {f : Nat → List (Ev Rank MainMem UInt8)}
    {acts : List (Act Rank MainMem UInt8)} (hself : proj q (f r) = acts)
    (hother : ∀ i, i ≠ r → proj q (f i) = []) :
    proj q ((List.range k).flatMap f) = if r < k then acts else [] := by
  rw [proj, List.flatMap_assoc, ← flatMap_range_single]
  refine List.flatMap_congr fun i _ => ?_
  split
  · next hi => rw [hi, ← hself, proj]
  · next hi => exact hother i hi

/-- A loop in which rank 0 has to do with one other rank after the other. -/
theorem proj_loop_zero {k : Nat} {f : Nat → List (Ev Rank MainMem UInt8)}
    {g : Nat → List (Act Rank MainMem UInt8)} (h : ∀ i < k, proj 0 (f i) = g (1 + i)) :
    proj 0 ((List.range k).flatMap f) = (List.range' 1 k).flatMap g := by
  rw [proj, List.flatMap_assoc, List.range'_eq_map_range, List.flatMap_map]
  exact List.flatMap_congr fun i hi => h i (List.mem_range.mp hi)

theorem proj_append_main (r : Rank) (G H : List (Ev Rank MainMem UInt8)) :
    proj r (G ++ H) = proj r G ++ proj r H := List.flatMap_append

/-- A complete table has an entry for every rank. -/
theorem length_completeTable (n r : Nat) : (completeTable n r).length = n := by
  simp [completeTable]

/-- What each rank computes on its own. -/
theorem proj_everyEvs (n : Nat) (f : Rank → MainMem → MainMem) (r : Rank) :
    proj r (everyEvs n f) = if r < n then [.comp (f r)] else [] := by
  refine proj_loop_once (by simp [proj, Ev.proj]) fun i hi => ?_
  simp [proj, Ev.proj, Ne.symm hi]

/-- Any other rank sends once. -/
theorem proj_gatherEvs_succ (k : Nat) (from_ to_ : VarName) (size : Nat)
    (after : List (MainMem → MainMem)) (r : Nat) :
    proj (r + 1) (gatherEvs k from_ to_ size after) =
      if r < k then [.send 0 fun m => bytesOf size (m from_)] else [] := by
  refine proj_loop_once (by simp [proj, Ev.proj, varMsg]) fun i hi => ?_
  simp [proj, Ev.proj, varMsg, Ne.symm hi]

/-- Rank 0 receives from one rank after the other. -/
theorem proj_gatherEvs_zero (n : Nat) (from_ to_ : VarName) (size : Nat)
    (after : List (MainMem → MainMem)) :
    proj 0 (gatherEvs (n - 1) from_ to_ size after) =
      (List.range' 1 (n - 1)).flatMap fun i =>
        recvVar ((completeTable n 0).getD i none) to_ size :: after.map .comp := by
  refine proj_loop_zero fun i hi => ?_
  rw [completeTable_getD (by omega) (by omega), Nat.add_comm 1 i]
  have hafter : (after.map (Ev.comp (B := UInt8) 0)).flatMap (Ev.proj 0) = after.map .comp := by
    rw [List.flatMap_map, List.map_eq_flatMap]
    rfl
  simp [proj, Ev.proj, varMsg, recvVar, hafter]

/-- Any other rank receives once. -/
theorem proj_scatterEvs_succ (k : Nat) (v : VarName) (size r : Nat) :
    proj (r + 1) (scatterEvs k v size) = if r < k then [.recv 0 size (putVar v)] else [] := by
  refine proj_loop_once (by simp [proj, Ev.proj, varMsg]) fun i hi => ?_
  simp [proj, Ev.proj, varMsg, Ne.symm hi]

/-- Rank 0 sends to one rank after the other. -/
theorem proj_scatterEvs_zero (n : Nat) (v : VarName) (size : Nat) :
    proj 0 (scatterEvs (n - 1) v size) =
      (List.range' 1 (n - 1)).flatMap fun i =>
        [sendVar ((completeTable n 0).getD i none) v size] := by
  refine proj_loop_zero fun i hi => ?_
  rw [completeTable_getD (by omega) (by omega), Nat.add_comm 1 i]
  simp [proj, Ev.proj, varMsg, sendVar]

theorem proj_othersEvs_zero (k : Nat) (f : MainMem → MainMem) : proj 0 (othersEvs k f) = [] := by
  rw [proj, othersEvs, List.flatMap_assoc, List.flatMap_eq_nil_iff]
  exact fun i _ => rfl

theorem proj_othersEvs_succ (k : Nat) (f : MainMem → MainMem) (r : Nat) :
    proj (r + 1) (othersEvs k f) = if r < k then [.comp f] else [] := by
  refine proj_loop_once (by simp [proj, Ev.proj]) fun i hi => ?_
  simp [proj, Ev.proj, Ne.symm hi]

/-- What rank 0 alone computes. -/
theorem proj_comp_zero (f : MainMem → MainMem) (G : List (Ev Rank MainMem UInt8)) (r : Nat) :
    proj 0 (.comp 0 f :: G) = .comp f :: proj 0 G ∧ proj (r + 1) (.comp 0 f :: G) =
      proj (r + 1) G := by
  simp [proj_cons, Ev.proj]

/-- The share of a rank in a barrier. -/
theorem proj_barrierEvs {n : Nat} (hn : 0 < n) (r : Rank) :
    proj r (barrierEvs n) = if r < n then barrier r (completeTable n r) else [] := by
  rw [barrierEvs, proj_append_main, proj_append_main]
  cases r with
  -- rank 0
  | zero =>
    rw [if_pos hn, (proj_comp_zero _ _ 0).1, proj_othersEvs_zero, proj_gatherEvs_zero,
      proj_scatterEvs_zero, barrier, if_pos rfl, length_completeTable]
    rfl
  -- another rank, if there is one of that number
  | succ r =>
    rw [(proj_comp_zero _ _ r).2, proj_othersEvs_succ, proj_gatherEvs_succ, proj_scatterEvs_succ]
    by_cases hr : r + 1 < n
    · have hlt : r < n - 1 := by omega
      rw [if_pos hlt, if_pos hlt, if_pos hlt, if_pos hr, barrier, if_neg (Nat.succ_ne_zero r),
        completeTable_getD hn (Nat.succ_ne_zero r).symm]
      rfl
    · have hnot : ¬ r < n - 1 := by omega
      rw [if_neg hnot, if_neg hnot, if_neg hnot, if_neg hr]
      rfl

/-- The share of a rank in a report. -/
theorem proj_reportEvs (later : Buf → Buf → Bool) (time : Rank → Buf) {n : Nat} (hn : 0 < n)
    (r : Rank) :
    proj r (reportEvs later time n) =
      if r < n then report later time r (completeTable n r) else [] := by
  rw [reportEvs, proj_append_main, proj_everyEvs]
  cases r with
  | zero =>
    rw [if_pos hn, if_pos hn, (proj_comp_zero _ _ 0).1, proj_gatherEvs_zero, report, if_pos rfl,
      length_completeTable]
    rfl
  | succ r =>
    rw [(proj_comp_zero _ _ r).2, proj_gatherEvs_succ]
    by_cases hr : r + 1 < n
    · rw [if_pos hr, if_pos hr, if_pos (by omega), report, if_neg (Nat.succ_ne_zero r),
        completeTable_getD hn (Nat.succ_ne_zero r).symm]
      rfl
    · rw [if_neg hr, if_neg hr, if_neg (by omega)]
      rfl

/-- The share of a rank in a collective. -/
theorem proj_inMainEvs (r : Rank) (G : List (Ev Rank RankMem UInt8)) :
    proj r (inMainEvs G) = inMain (proj r G) := proj_over _ _ r G

/-- The share of a rank in every step of a round. -/
theorem map_proj_roundEvs (bench : Bench) {n : Nat} (hn : 0 < n) (s count : Nat) {r : Rank}
    (hr : r < n) :
    (roundEvs bench n s count).map (fun p => (p.1, proj r p.2)) =
      testRound bench s count r (completeTable n r) := by
  simp only [roundEvs, testRound, List.map_cons, List.map_append, List.map_map, List.map_nil,
    Function.comp_def, proj_append_main, proj_everyEvs, proj_barrierEvs hn, proj_reportEvs _ _ hn,
    proj_inMainEvs, proj_broadcastEvs _ hn, proj_allreduceEvs _ hn, if_pos hr]
  rfl

/-- A rank the program is not started on has no share. -/
theorem map_proj_roundEvs_outside (bench : Bench) {n : Nat} (hn : 0 < n) (s count : Nat) {r : Rank}
    (hr : ¬ r < n) :
    (roundEvs bench n s count).map (fun p => (p.1, proj r p.2)) =
      (roundEvs bench n s count).map fun p => (p.1, []) := by
  simp only [roundEvs, List.map_cons, List.map_append, List.map_map, List.map_nil,
    Function.comp_def, proj_append_main, proj_everyEvs, proj_barrierEvs hn, proj_reportEvs _ _ hn,
    proj_inMainEvs, proj_broadcastEvs _ hn, proj_allreduceEvs _ hn, if_neg hr, inMain,
    List.append_nil]

/-- Steps without actions. -/
theorem labelled_map_nil {L α β : Type} (steps : List (L × List α)) :
    labelled (steps.map fun p => (p.1, ([] : List β))) = [] := by
  rw [labelled, List.flatMap_map, List.flatMap_eq_nil_iff]
  exact fun _ _ => rfl

/-- Every rank's program is its share of the choreography. -/
theorem labelledProj_testMainEvs (bench : Bench) (counts : List Nat) {n : Nat} (hn : 0 < n)
    (r : Rank) :
    labelledProj r (labelled (testMainEvs bench counts n)) = rankProg bench counts n r := by
  rw [labelledProj_labelled, rankProg]
  by_cases hr : r < n
  · rw [if_pos hr, testMainEvs, List.map_cons, List.map_flatMap, proj_barrierEvs hn, if_pos hr]
    simp only [map_proj_roundEvs bench hn _ _ hr]
    rfl
  · have hnone : (testMainEvs bench counts n).map (fun p => (p.1, proj r p.2)) =
        (testMainEvs bench counts n).map fun p => (p.1, []) := by
      simp only [testMainEvs, List.map_cons, List.map_flatMap, proj_barrierEvs hn, if_neg hr,
        map_proj_roundEvs_outside bench hn _ _ hr]
    rw [hnone, labelled_map_nil, if_neg hr]

/-! ## Steps and streams

Within a step no stream is used for two messages, and no two steps have the same label. So the label
of a send tells it from all others on its stream. -/

/-- The streams of a gathering lead to rank 0. -/
theorem links_gatherEvs (k : Nat) (from_ to_ : VarName) (size : Nat)
    (after : List (MainMem → MainMem)) :
    links (gatherEvs k from_ to_ size after) = (List.range k).map fun i => (i + 1, 0) := by
  have hafter : links (after.map (Ev.comp (R := Rank) (B := UInt8) 0)) = [] := by
    rw [links, List.flatMap_map, List.flatMap_eq_nil_iff]
    exact fun _ _ => rfl
  have hone : ∀ i, links (.msg (varMsg (i + 1) 0 (Nat.succ_ne_zero i) from_ to_ size) ::
      after.map (.comp 0)) = [(i + 1, 0)] := by
    intro i
    rw [links_cons, hafter]
    rfl
  rw [gatherEvs, links_flatMap]
  simp only [hone]
  exact List.map_eq_flatMap.symm

/-- Those of a scattering lead away from it. -/
theorem links_scatterEvs (k : Nat) (v : VarName) (size : Nat) :
    links (scatterEvs k v size) = (List.range k).map fun i => (0, i + 1) := by
  rw [scatterEvs, links_flatMap, List.map_eq_flatMap]
  rfl

theorem links_everyEvs (n : Nat) (f : Rank → MainMem → MainMem) : links (everyEvs n f) = [] := by
  rw [everyEvs, links_flatMap, List.flatMap_eq_nil_iff]
  exact fun _ _ => rfl

theorem links_othersEvs (k : Nat) (f : MainMem → MainMem) : links (othersEvs k f) = [] := by
  rw [othersEvs, links_flatMap, List.flatMap_eq_nil_iff]
  exact fun _ _ => rfl

theorem links_inMainEvs (G : List (Ev Rank RankMem UInt8)) : links (inMainEvs G) = links G := by
  rw [links, links, inMainEvs, List.flatMap_map]
  refine List.flatMap_congr fun e _ => ?_
  cases e <;> rfl

/-- Those of a broadcast lead from the root to the others. -/
theorem links_broadcastEvs (name : BufName) (n count root : Nat) :
    links (broadcastEvs name n count root) =
      ((List.range n).filter fun i => i ≠ root).map fun i => (root, i) := by
  rw [broadcastEvs, links_flatMap]
  induction List.range n with
  | nil => rfl
  | cons i is ih =>
    rw [List.flatMap_cons, ih]
    by_cases hi : i = root
    · simp [hi, links]
    · simp [hi, links, bufMsg]

/-- Those of the reduction lead to rank 0. -/
theorem links_reduceEvs (add : Float4 → Float4 → Float4) (k count : Nat) :
    links (reduceEvs add k count) = (List.range k).map fun i => (i + 1, 0) := by
  rw [reduceEvs, links_flatMap, List.map_eq_flatMap]
  rfl

theorem links_copyEvs (n count : Nat) : links (copyEvs n count) = [] := by
  rw [links, copyEvs, List.flatMap_map, List.flatMap_eq_nil_iff]
  exact fun _ _ => rfl

/-- One message from every other rank to rank 0, then messages from rank 0. -/
theorem nodup_gather_append (k : Nat) {back : List (Rank × Rank)} (hback : back.Nodup)
    (hzero : ∀ c ∈ back, c.1 = 0) :
    (((List.range k).map fun i => (i + 1, 0)) ++ back).Nodup := by
  refine List.Nodup.append ?_ hback ?_
  · exact List.nodup_range.map fun i j h => Nat.succ_injective (Prod.ext_iff.mp h).1
  · intro c hgather hc
    obtain ⟨i, -, rfl⟩ := List.mem_map.mp hgather
    exact Nat.succ_ne_zero i (hzero _ hc)

/-- In a barrier every stream is used once at most. -/
theorem nodup_links_barrierEvs (n : Nat) : (links (barrierEvs n)).Nodup := by
  rw [barrierEvs, links_append, links_othersEvs, links_append, links_cons, links_gatherEvs,
    links_scatterEvs]
  refine nodup_gather_append (n - 1) ?_ fun c hc => ?_
  · exact List.nodup_range.map fun i j h => Nat.succ_injective (Prod.ext_iff.mp h).2
  · obtain ⟨i, -, rfl⟩ := List.mem_map.mp hc
    rfl

theorem nodup_links_reportEvs (later : Buf → Buf → Bool) (time : Rank → Buf) (n : Nat) :
    (links (reportEvs later time n)).Nodup := by
  rw [reportEvs, links_append, links_everyEvs, links_cons, links_gatherEvs]
  have hgather := nodup_gather_append (n - 1) List.nodup_nil fun c hc => absurd hc List.not_mem_nil
  rwa [List.append_nil] at hgather

theorem nodup_links_broadcastEvs (name : BufName) (n count root : Nat) :
    (links (broadcastEvs name n count root)).Nodup := by
  rw [links_broadcastEvs]
  exact (List.nodup_range.filter _).map fun i j h => (Prod.ext_iff.mp h).2

theorem nodup_links_allreduceEvs (add : Float4 → Float4 → Float4) (n count : Nat) :
    (links (allreduceEvs add n count)).Nodup := by
  rw [allreduceEvs, links_append, links_copyEvs, links_append, links_reduceEvs]
  refine nodup_gather_append (n - 1) (nodup_links_broadcastEvs _ _ _ _) fun c hc => ?_
  rw [links_broadcastEvs] at hc
  obtain ⟨i, -, rfl⟩ := List.mem_map.mp hc
  rfl

/-- No step sends twice on a stream. -/
theorem nodup_links_testMainEvs (bench : Bench) (counts : List Nat) (n : Nat) :
    ∀ p ∈ testMainEvs bench counts n, (links p.2).Nodup := by
  intro p hp
  rcases List.mem_cons.mp hp with rfl | hp
  · exact nodup_links_barrierEvs n
  · obtain ⟨s, -, hp⟩ := List.mem_flatMap.mp hp
    simp only [roundEvs, List.mem_append, List.mem_cons, List.mem_map, List.not_mem_nil,
      or_false] at hp
    -- the six kinds of steps in a round
    rcases hp with (((rfl | ⟨i, -, rfl⟩) | rfl | rfl) | ⟨i, -, rfl⟩) | rfl
    · rw [links_append, links_everyEvs]
      exact nodup_links_barrierEvs n
    · rw [links_inMainEvs]
      exact nodup_links_broadcastEvs _ _ _ _
    · exact nodup_links_reportEvs _ _ n
    · rw [links_append, links_everyEvs, List.append_nil]
      exact nodup_links_barrierEvs n
    · rw [links_inMainEvs]
      exact nodup_links_allreduceEvs _ _ _
    · exact nodup_links_reportEvs _ _ n

/-- The round a step belongs to. -/
def Step.round : Step → Option Nat
  | .start => none
  | .broadcastBarrier s | .broadcast s _ | .broadcastReport s | .allreduceBarrier s
  | .allreduce s _ | .allreduceReport s => some s

/-- The steps of a round. -/
def roundSteps (s : Nat) : List Step :=
  [.broadcastBarrier s, .broadcast s 0, .broadcast s 1, .broadcast s 2, .broadcast s 3,
    .broadcastReport s, .allreduceBarrier s, .allreduce s 0, .allreduce s 1, .allreduce s 2,
    .allreduce s 3, .allreduceReport s]

/-- A step is in one round. -/
theorem round_of_mem {s : Nat} {σ : Step} (h : σ ∈ roundSteps s) : σ.round = some s := by
  simp only [roundSteps, List.mem_cons, List.not_mem_nil, or_false] at h
  rcases h with rfl | rfl | rfl | rfl | rfl | rfl | rfl | rfl | rfl | rfl | rfl | rfl <;> rfl

/-- No two steps of the program have the same label. -/
theorem nodup_steps (bench : Bench) (counts : List Nat) (n : Nat) :
    ((testMainEvs bench counts n).map Prod.fst).Nodup := by
  have hsteps : (testMainEvs bench counts n).map Prod.fst =
      .start :: (List.range counts.length).flatMap roundSteps := by
    rw [testMainEvs, List.map_cons, List.map_flatMap]
    rfl
  rw [hsteps, List.nodup_cons, List.nodup_flatMap]
  refine ⟨fun hstart => ?_, fun s _ => ?_, List.nodup_range.imp fun {s t} hne => ?_⟩
  · obtain ⟨s, -, hs⟩ := List.mem_flatMap.mp hstart
    exact nomatch round_of_mem hs
  · simp [roundSteps]
  · intro σ hs ht
    exact hne (Option.some.inj ((round_of_mem hs).symm.trans (round_of_mem ht)))

/-- For every world size, list of sizes, capacities and initial memories, in every state that the
ranks reach from complete socket tables: if not all of them are through, one can make a step; and
the state is that of a run with tagged bytes in which every byte received was sent by the
`tcp_send` of the same step, at the same position of a message of the same length. On every stream
the steps of the sends are, in program order, those of the receives, and no two are the same. -/
theorem tcpTestMain_in_step (bench : Bench) (counts : List Nat) (n : Nat) (hn : 1 ≤ n)
    (cap : Rank × Rank → Nat) (hcap : ∀ c, 0 < cap c) (x : Rank → MainMem)
    (s : Net Rank MainMem UInt8)
    (hreach : Reach (Net.step cap) (fun _ _ => True) (launchMain bench counts n x) s) :
    (¬ s.Final → ∃ l s', s.step cap l = some s') ∧
      (∃ t, Reach (Net.step cap) (fun _ _ => True) (launchTagged bench counts n x) t ∧
        t.Erases s ∧ ∀ r, AllMatch (t.party r).mem) ∧
      ∀ src dst, src ≠ dst →
        sendsTo dst (rankProg bench counts n src) = recvsFrom src (rankProg bench counts n dst) ∧
        (sendsTo dst (rankProg bench counts n src)).Nodup := by
  have hshare : rankProg bench counts n =
      fun r => labelledProj r (labelled (testMainEvs bench counts n)) :=
    funext fun r => (labelledProj_testMainEvs bench counts hn r).symm
  rw [launchMain] at hreach
  rw [launchTagged, hshare]
  rw [hshare] at hreach
  refine ⟨?_, ?_, fun src dst hne => ⟨sendsTo_eq_recvsFrom hne _, ?_⟩⟩
  -- progress, by the theorem about choreographies
  · have hstart : ofProgs (fun r => (labelledProj r (labelled (testMainEvs bench counts n))).map
        Prod.snd) x = start ((labelled (testMainEvs bench counts n)).map Prod.snd) x := by
      simp only [ofProgs, start, map_snd_labelledProj]
    rw [hstart] at hreach
    exact (choreography_correct hcap _ x hreach).1
  -- a run with tags, in which every byte is the one expected
  · obtain ⟨t, ht, herases⟩ := tagged_of_reach hreach
    exact ⟨t, ht, herases, receipts_match _ x ht⟩
  · exact nodup_sendsTo (nodup_steps bench counts n) (nodup_links_testMainEvs bench counts n)
      src dst

/-- Nothing is added, and no time passes. -/
def idleBench : Bench where
  add := fun a _ => a
  later := fun _ _ => false
  malloc := fun _ _ _ _ => 0
  random := fun _ _ => 0
  share := fun _ _ => 0
  broadcastElapsed := fun _ _ _ => 0
  allreduceElapsed := fun _ _ _ => 0

/-- Two ranks, one size: rank 1 is in the first barrier with two bytes of its signal sent, of which
rank 0 has taken one. -/
theorem tcpTestMain_in_step_twoRanks :
    ∃ s, Reach (Net.step fun _ => 3) (fun _ _ => True)
        (launchMain idleBench [1] 2 fun _ _ _ => 0) s ∧
      ((s.party 0).off, (s.party 1).off, s.chan (1, 0)) = (1, 2, [0]) ∧
      (∃ l s', s.step (fun _ => 3) l = some s') ∧
      (∃ t, Reach (Net.step fun _ => 3) (fun _ _ => True)
          (launchTagged idleBench [1] 2 fun _ _ _ => 0) t ∧
        t.Erases s ∧ ∀ r, AllMatch (t.party r).mem) := by
  have hrun : (exec (Net.step fun _ => 3) (fun _ _ => true)
      (launchMain idleBench [1] 2 fun _ _ _ => 0) [(1, 0), (1, 2), (0, 1)]).map
        (fun s => (decide ((s.party 0).prog.length = 0), (s.party 0).off, (s.party 1).off,
          s.chan (1, 0))) = some (false, 1, 2, [0]) := by
    decide +kernel
  obtain ⟨s, hreach, hobs⟩ := reach_of_exec_map hrun fun _ _ _ => trivial
  obtain ⟨hempty, hobs⟩ := Prod.mk.inj hobs
  have hnot : ¬ s.Final := fun hfinal => of_decide_eq_false hempty (by rw [hfinal 0]; rfl)
  obtain ⟨hprogress, htagged, -⟩ := tcpTestMain_in_step idleBench [1] 2 (by decide) (fun _ => 3)
    (fun _ => by decide) (fun _ _ _ => 0) s hreach
  exact ⟨s, hreach, hobs, hprogress hnot, htagged⟩

end OsHomework.Nccl
