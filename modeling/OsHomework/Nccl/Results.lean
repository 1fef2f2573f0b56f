import OsHomework.Lib.Finishing
import OsHomework.Nccl.TestMain

/-!
# Nccl — what `tcp_test_main` finds out

The ranks drift apart by whole steps, and yet what a rank has in its memory when it is through with
a step is what the choreography says. So the numbers of rank 0 are on every rank after each of the
four broadcasts of a round, every rank's check of the allreduce succeeds, and the time that rank 0
prints is the longest of all ranks.

* **`Through`** — a rank between two steps; `mem_of_round` its memory then.
* **`collectives_of_reach`** — the data after every broadcast and every allreduce, and the check.
* **`report_of_reach`** — the times reported.
* **`tcpTestMain_finishes`** — every run ends, with all ranks done and nothing in transit.
-/

namespace OsHomework.Nccl

open Network Lts

/-! ## Between two steps

What a rank knows when it is through with a step, while others are steps ahead or behind. The
choreography theorem gives the memory of a party that has a given rest of its program; here the rest
is given by the name of the step. -/

/-- The steps after `σ`. -/
def stepsAfter {α : Type} (σ : Step) (steps : List (Step × α)) : List (Step × α) :=
  -- each step occurs once, so the first one with its label is it
  (steps.dropWhile fun p => p.1 ≠ σ).tail

/-- Rank `r` is through with step `σ` and has not begun the next one: the actions left of its
straight-line program are those of the steps after `σ`. -/
def Through (bench : Bench) (counts : List Nat) (n : Nat) (s : Net Rank MainMem UInt8) (r : Rank)
    (σ : Step) : Prop :=
  (s.party r).prog.length =
      ((stepsAfter σ (tcpTestMain bench counts r (completeTable n r))).flatMap Prod.snd).length ∧
    (s.party r).off = 0

instance (bench : Bench) (counts : List Nat) (n : Nat) (s : Net Rank MainMem UInt8) (r : Rank)
    (σ : Step) : Decidable (Through bench counts n s r σ) :=
  inferInstanceAs (Decidable (_ ∧ _))

/-- `float expected_sum = 0; for (i = 0; i < world_size; i++) expected_sum += (float)(i + 1) /
world_size;` -/
def expectedSum (bench : Bench) (zero : Float4) (worldSize : Nat) : Float4 :=
  (List.range worldSize).foldl (fun sum i => bench.add sum (bench.share i)) zero

/-- `allreduce_correct`; `far a b` is `fabs(a - b) > 1e-5`. -/
def allreduceCorrect (far : Float4 → Float4 → Bool) (expected : Float4) (count : Nat)
    (recvbuf : Buf) : Bool :=
  (List.range count).all fun i => !far (elem recvbuf i) expected

/-- Where no two steps have the same label, the steps after one of them are those that follow. -/
theorem stepsAfter_of_split {α : Type} {σ : Step} {x : α} {steps a b : List (Step × α)}
    (hnodup : (steps.map Prod.fst).Nodup) (hsplit : steps = a ++ (σ, x) :: b) :
    stepsAfter σ steps = b := by
  subst hsplit
  have hbefore : ∀ p ∈ a, p.1 ≠ σ := by
    intro p hp heq
    rw [List.map_append, List.map_cons, List.nodup_middle, List.nodup_cons] at hnodup
    have hlabel : p.1 ∈ a.map Prod.fst := List.mem_map_of_mem hp
    rw [heq] at hlabel
    exact hnodup.1 (List.mem_append_left _ hlabel)
  unfold stepsAfter
  rw [List.dropWhile_append_of_pos (fun p hp => decide_eq_true (hbefore p hp)),
    List.dropWhile_cons_of_neg (by simp)]
  rfl

/-- A rank's program, step by step, is its share of the steps. -/
theorem tcpTestMain_eq_map (bench : Bench) (counts : List Nat) {n : Nat} (hn : 0 < n) {r : Rank}
    (hr : r < n) :
    tcpTestMain bench counts r (completeTable n r) =
      (testMainEvs bench counts n).map fun p => (p.1, proj r p.2) := by
  rw [testMainEvs, List.map_cons, List.map_flatMap, proj_barrierEvs hn, if_pos hr]
  simp only [map_proj_roundEvs bench hn _ _ hr]
  rfl

/-- The events of labelled steps. -/
theorem map_snd_labelled {α : Type} (steps : List (Step × List α)) :
    (labelled steps).map Prod.snd = steps.flatMap Prod.snd := by
  rw [labelled, List.map_flatMap]
  refine List.flatMap_congr fun p _ => ?_
  rw [List.map_map]
  exact List.map_id p.2

/-- The ranks start as the choreography does. -/
theorem launchMain_eq_start (bench : Bench) (counts : List Nat) {n : Nat} (hn : 0 < n)
    (x : Rank → MainMem) :
    launchMain bench counts n x = start ((testMainEvs bench counts n).flatMap Prod.snd) x := by
  simp only [launchMain, ofProgs, start, ← labelledProj_testMainEvs bench counts hn,
    map_snd_labelledProj, map_snd_labelled]

section Reached

variable {bench : Bench} {counts : List Nat} {n : Nat} {cap : Rank × Rank → Nat}
  {x : Rank → MainMem} {s : Net Rank MainMem UInt8}

/-- **The memory** of a rank that is through with a step is the one after the events up to it. -/
theorem mem_of_through (hn : 0 < n)
    (hreach : Reach (Net.step cap) (fun _ _ => True) (launchMain bench counts n x) s)
    {a b : List (Step × List (Ev Rank MainMem UInt8))} {σ : Step}
    {evs : List (Ev Rank MainMem UInt8)} (hsplit : testMainEvs bench counts n = a ++ (σ, evs) :: b)
    {r : Rank} (hr : r < n) (hthrough : Through bench counts n s r σ) :
    (s.party r).mem = runEvs ((a ++ [(σ, evs)]).flatMap Prod.snd) x r := by
  rw [launchMain_eq_start bench counts hn] at hreach
  -- every state reached is one of the choreography
  have hsim := sim_of_reach hreach
  have hevs : (testMainEvs bench counts n).flatMap Prod.snd =
      (a ++ [(σ, evs)]).flatMap Prod.snd ++ b.flatMap Prod.snd := by
    rw [← List.flatMap_append, List.append_assoc, List.singleton_append, hsplit]
  -- the program of the rank is cut at the same place as the choreography
  have hafter : stepsAfter σ (tcpTestMain bench counts r (completeTable n r)) =
      b.map fun p => (p.1, proj r p.2) := by
    refine stepsAfter_of_split (a := a.map fun p => (p.1, proj r p.2)) (x := proj r evs) ?_ ?_
    · rw [tcpTestMain_eq_map bench counts hn hr, List.map_map]
      exact nodup_steps bench counts n
    · rw [tcpTestMain_eq_map bench counts hn hr, hsplit, List.map_append, List.map_cons]
  rw [hevs] at hsim
  refine hsim.mem_at ?_ hthrough.2
  rw [hthrough.1, hafter, List.flatMap_map, proj, List.flatMap_assoc]
  rfl

/-- The steps of round `k` in the program. -/
theorem testMainEvs_round {k : Nat} (hk : k < counts.length)
    {pre post : List (Step × List (Ev Rank MainMem UInt8))} {σ : Step}
    {evs : List (Ev Rank MainMem UInt8)}
    (hround : roundEvs bench n k (counts.getD k 0) = pre ++ (σ, evs) :: post) :
    ∃ a b, testMainEvs bench counts n = (a ++ pre) ++ (σ, evs) :: b := by
  obtain ⟨before, rest, hrange⟩ := List.append_of_mem (List.mem_range.mpr hk)
  refine ⟨(.start, barrierEvs n) :: before.flatMap fun s => roundEvs bench n s (counts.getD s 0),
    post ++ rest.flatMap fun s => roundEvs bench n s (counts.getD s 0), ?_⟩
  rw [testMainEvs, hrange, List.flatMap_append, List.flatMap_cons, hround]
  simp only [List.cons_append, List.append_assoc]

/-- The memory of a rank that is through with a step of round `k`: what the steps of the round
computed from the memories at its beginning. -/
theorem mem_of_round (hn : 0 < n)
    (hreach : Reach (Net.step cap) (fun _ _ => True) (launchMain bench counts n x) s) {k : Nat}
    (hk : k < counts.length) {pre post : List (Step × List (Ev Rank MainMem UInt8))} {σ : Step}
    {evs : List (Ev Rank MainMem UInt8)}
    (hround : roundEvs bench n k (counts.getD k 0) = pre ++ (σ, evs) :: post) :
    ∃ m, ∀ r < n, Through bench counts n s r σ →
      (s.party r).mem = runEvs (pre.flatMap Prod.snd ++ evs) m r := by
  obtain ⟨a, b, hsplit⟩ := testMainEvs_round hk hround
  refine ⟨runEvs (a.flatMap Prod.snd) x, fun r hr hthrough => ?_⟩
  rw [mem_of_through hn hreach hsplit hr hthrough, ← runEvs_append_apply]
  simp only [List.flatMap_append, List.flatMap_cons, List.flatMap_nil, List.append_nil,
    List.append_assoc]

end Reached

/-! ## What the steps compute

Barriers and reports use variables of their own, so that the buffers of a round change by its
collectives only. These are repeated, and every repetition leaves what the first one has left. -/

/-- What every rank computes for itself. -/
theorem runEvs_everyEvs (n : Nat) (f : Rank → MainMem → MainMem) (m : Rank → MainMem) (r : Nat) :
    runEvs (everyEvs n f) m r = if r < n then f r (m r) else m r := by
  induction n generalizing r with
  | zero => rfl
  | succ n ih =>
    have hsplit : everyEvs (n + 1) f = everyEvs n f ++ [.comp n (f n)] := by
      simp [everyEvs, List.range_succ]
    -- the ranks below have not touched the memory of rank `n`
    have hnew : runEvs (everyEvs n f) m n = m n := by rw [ih, if_neg (Nat.lt_irrefl n)]
    rw [hsplit, runEvs_append_apply]
    show Function.update _ n _ r = _
    rw [hnew]
    by_cases hrn : r = n
    · subst hrn
      rw [Function.update_self, if_pos (Nat.lt_succ_self r)]
    · have hiff : r < n + 1 ↔ r < n := by omega
      rw [Function.update_of_ne hrn, ih]
      simp only [hiff]

/-- A barrier leaves the buffers alone. -/
theorem barrierEvs_frames (n : Nat) :
    ∀ e ∈ barrierEvs n, e.Frames MainMem.bufs := by
  intro e he
  simp only [barrierEvs, othersEvs, gatherEvs, scatterEvs, List.map_nil, List.mem_append,
    List.mem_cons, List.mem_flatMap, List.not_mem_nil, or_false] at he
  rcases he with ⟨i, -, rfl⟩ | ⟨i, -, rfl⟩ | rfl | ⟨i, -, rfl⟩
  · exact fun m => rfl
  · exact fun i b m => rfl
  · exact fun m => rfl
  · exact fun i b m => rfl

/-- The part of the memory that the collectives use. -/
theorem bufs_withBufs (bufs : RankMem) (m : MainMem) : (m.withBufs bufs).bufs = bufs := rfl

/-- The same collective several times. -/
def repeated (times : Nat) (G : List (Ev Rank RankMem UInt8)) : List (Ev Rank MainMem UInt8) :=
  (List.range times).flatMap fun _ => inMainEvs G

/-- One collective more. -/
theorem bufs_runEvs_repeated_succ (times : Nat) (G : List (Ev Rank RankMem UInt8))
    (m : Rank → MainMem) (r : Rank) :
    (runEvs (repeated (times + 1) G) m r).bufs =
      runEvs G (fun r => (runEvs (repeated times G) m r).bufs) r := by
  have hsplit : repeated (times + 1) G = repeated times G ++ inMainEvs G := by
    simp [repeated, List.range_succ]
  rw [hsplit, runEvs_append_apply]
  exact runEvs_over bufs_withBufs G _ r

/-- After any number of broadcasts but none, every rank has what rank 0 had. -/
theorem elem_sendbuf_repeated {n count : Nat} (m : Rank → MainMem) (times : Nat)
    {r j : Nat} (hr : r < n) (hj : j < count) :
    elem ((runEvs (repeated (times + 1) (broadcastEvs .sendbuf n count 0)) m r).bufs .sendbuf) j =
      elem ((m 0).bufs .sendbuf) j := by
  -- one broadcast, from any memories
  have hone : ∀ b : Rank → RankMem,
      elem (runEvs (broadcastEvs .sendbuf n count 0) b r .sendbuf) j = elem (b 0 .sendbuf) j := by
    intro b
    rw [runEvs_broadcastEvs]
    by_cases hzero : r = 0
    · rw [if_neg (by simp [hzero]), hzero]
    · rw [if_pos ⟨hr, hzero⟩, Function.update_self, elem_overwrite hj]
  -- rank 0 keeps its own
  have hroot : ∀ times, (runEvs (repeated times (broadcastEvs .sendbuf n count 0)) m 0).bufs =
      (m 0).bufs := by
    intro times
    induction times with
    | zero => rfl
    | succ times ih => rw [bufs_runEvs_repeated_succ, runEvs_broadcastEvs, if_neg (by simp), ih]
  rw [bufs_runEvs_repeated_succ, hone, hroot]

/-- The sum depends on the elements only. -/
theorem sumInRankOrder_congr {add : Float4 → Float4 → Float4} {b b' : Rank → Buf} {j k : Nat}
    (h : ∀ r : Nat, r ≤ k → elem (b r) j = elem (b' r) j) :
    sumInRankOrder add b j k = sumInRankOrder add b' j k := by
  unfold sumInRankOrder
  rw [h 0 (Nat.zero_le k)]
  refine List.foldl_ext _ _ _ fun acc i hi => ?_
  rw [h (i + 1) (List.mem_range.mp hi)]

/-- After any number of allreduces but none, every rank has the sum of what was to be added. -/
theorem elem_recvbuf_repeated (add : Float4 → Float4 → Float4) {n count : Nat} (hn : 0 < n)
    (m : Rank → MainMem) (times : Nat) {r j : Nat} (hr : r < n) (hj : j < count) :
    elem ((runEvs (repeated (times + 1) (allreduceEvs add n count)) m r).bufs .recvbuf) j =
      sumInRankOrder add (fun r => (m r).bufs .sendbuf) j (n - 1) := by
  have hsend : ∀ times, ∀ q < n,
      (runEvs (repeated times (allreduceEvs add n count)) m q).bufs .sendbuf =
        (m q).bufs .sendbuf := by
    intro times
    induction times with
    | zero => exact fun q _ => rfl
    | succ times ih =>
      intro q hq
      rw [bufs_runEvs_repeated_succ, (runEvs_allreduceEvs add hn count _ hq).1, ih q hq]
  rw [bufs_runEvs_repeated_succ, (runEvs_allreduceEvs add hn count _ hr).2 j hj]
  refine sumInRankOrder_congr fun q hq => ?_
  show elem ((runEvs (repeated times (allreduceEvs add n count)) m q).bufs .sendbuf) j = _
  rw [hsend times q (by omega)]

/-- The sum that the ranks expect is the one that rank 0 takes, since nothing is added to 0. -/
theorem sumInRankOrder_shares {bench : Bench} {zero : Float4} {n j : Nat} (hn : 0 < n)
    (hzero : bench.add zero (bench.share 0) = bench.share 0) {b : Rank → Buf}
    (hshare : ∀ r < n, elem (b r) j = bench.share r) :
    sumInRankOrder bench.add b j (n - 1) = expectedSum bench zero n := by
  obtain ⟨k, rfl⟩ : ∃ k, n = k + 1 := ⟨n - 1, by omega⟩
  unfold sumInRankOrder expectedSum
  rw [List.range_succ_eq_map, List.foldl_cons, hzero, List.foldl_map, hshare 0 hn,
    Nat.add_sub_cancel]
  refine List.foldl_ext _ _ _ fun acc i hi => ?_
  rw [hshare (i + 1) (by have := List.mem_range.mp hi; omega)]

/-- Every element is the rank's share. -/
theorem elem_fillShare (bench : Bench) {count j : Nat} (hj : j < count) (r : Rank) (m : MainMem) :
    elem ((fillShare bench count r m).bufs .sendbuf) j = bench.share r := by
  funext i
  have hlt : 4 * j + i.val < count * 4 := by omega
  have hmod : (4 * j + i.val) % 4 = i.val := by omega
  simp [elem, fillShare, bufs_withBufs, hlt, hmod]

/-! ## The report

Rank 0 begins with its own time and takes over each later one. Of the times no more is known than
that `>` compares their values, and that a value depends on eight bytes. -/

section Report

variable {T : Type*} [LinearOrder T] {val : Buf → T} {later : Buf → Buf → Bool}

/-- `t` is the longest of the times of `n` ranks, of which `val` is the value. -/
def Longest (val : Buf → T) (time : Rank → Buf) (n : Nat) (t : Buf) : Prop :=
  (∀ r : Nat, r < n → val (time r) ≤ val t) ∧ ∃ r : Nat, r < n ∧ val t = val (time r)

/-- One more rank is heard. -/
theorem Longest.hear {time : Rank → Buf} {k : Nat} {t t' : Buf} (h : Longest val time k t)
    (hlater : ∀ a b, later a b = true ↔ val b < val a) (ht' : val t' = val (time k)) :
    Longest val time (k + 1) (if later t' t then t' else t) := by
  obtain ⟨hle, q, hq, heq⟩ := h
  by_cases hlt : later t' t = true
  -- a later time is taken over
  · rw [if_pos hlt]
    have hgt := (hlater t' t).mp hlt
    refine ⟨fun r hr => ?_, k, Nat.lt_succ_self k, ht'⟩
    rcases Nat.lt_succ_iff_lt_or_eq.mp hr with hr | rfl
    · exact (hle r hr).trans hgt.le
    · exact ht'.ge
  -- any other is not, and the old one is still the longest
  · rw [if_neg hlt]
    have hge := not_lt.mp fun hgt => hlt ((hlater t' t).mpr hgt)
    refine ⟨fun r hr => ?_, q, Nat.lt_succ_of_lt hq, heq⟩
    rcases Nat.lt_succ_iff_lt_or_eq.mp hr with hr | rfl
    · exact hle r hr
    · exact ht'.ge.trans hge

/-- Receiving the bytes of another variable. -/
theorem putAll_putVar (v : VarName) (size : Nat) (src : Buf) (m : MainMem) :
    putAll (putVar v) 0 (bytesOf size src) m =
      Function.update m v (overwrite size src (m v)) := by
  -- the variable is stored to as a buffer is
  have hstore : ∀ i byte (b : RankMem), putVar v i byte (Function.update m v (b .sendbuf)) =
      Function.update m v (putByte .sendbuf i byte b .sendbuf) := by
    intro i byte b
    simp [putVar, putByte]
  have hall := putAll_hom (f := fun b : RankMem => Function.update m v (b .sendbuf)) hstore 0
    (bytesOf size src) fun _ => m v
  rw [Function.update_eq_self, putAll_bytesOf, Function.update_self] at hall
  exact hall

/-- Rank 0 hears the other ranks one after the other. -/
theorem runEvs_gather_longest (hlater : ∀ a b, later a b = true ↔ val b < val a)
    (hval : ∀ a b : Buf, (∀ i < 8, a i = b i) → val a = val b) {time : Rank → Buf}
    {m : Rank → MainMem} (hmax : m 0 .maxElapsed = time 0) (k : Nat)
    (htime : ∀ r : Nat, 0 < r → r ≤ k → m r .elapsed = time r) :
    (∀ r : Nat, r ≠ 0 →
      runEvs (gatherEvs k .elapsed .remoteElapsed 8 [keepLater later]) m r = m r) ∧
    Longest val time (k + 1)
      (runEvs (gatherEvs k .elapsed .remoteElapsed 8 [keepLater later]) m 0 .maxElapsed) := by
  induction k with
  | zero =>
    -- rank 0 has heard nobody and has its own time
    refine ⟨fun _ _ => rfl, fun r hr => ?_, 0, Nat.one_pos, congrArg val hmax⟩
    obtain rfl : r = 0 := by omega
    exact (congrArg val hmax).ge
  | succ k ih =>
    -- the first `k` of the others
    obtain ⟨hother, hlongest⟩ := ih fun r hpos hr => htime r hpos (Nat.le_succ_of_le hr)
    set m' := runEvs (gatherEvs k .elapsed .remoteElapsed 8 [keepLater later]) m with hm'
    have hsplit : gatherEvs (k + 1) .elapsed .remoteElapsed 8 [keepLater later] =
        gatherEvs k .elapsed .remoteElapsed 8 [keepLater later] ++
          [.msg (varMsg (k + 1) 0 (Nat.succ_ne_zero k) .elapsed .remoteElapsed 8),
            .comp 0 (keepLater later)] := by
      simp [gatherEvs, List.range_succ]
    -- the time of rank `k + 1` arrives, and is compared
    set heard := Function.update (m' 0) .remoteElapsed
      (overwrite 8 (m' (k + 1) .elapsed) (m' 0 .remoteElapsed)) with hheard
    have hrun : ∀ r, runEvs (gatherEvs (k + 1) .elapsed .remoteElapsed 8 [keepLater later]) m r =
        Function.update m' 0 (keepLater later heard) r := by
      intro r
      have hstored : (varMsg (k + 1) 0 (Nat.succ_ne_zero k) .elapsed .remoteElapsed 8).stored m' =
          heard := putAll_putVar _ _ _ _
      rw [hsplit, runEvs_append_apply, ← hm']
      simp only [runEvs, List.foldl_cons, List.foldl_nil, Ev.apply, hstored]
      simp [varMsg]
    refine ⟨fun r hr => ?_, ?_⟩
    · rw [hrun, Function.update_of_ne hr, hother r hr]
    -- what has arrived has the value of the time of rank `k + 1`
    · have hvalue : val (heard .remoteElapsed) = val (time (k + 1)) := by
        refine hval _ _ fun i hi => ?_
        rw [hheard, Function.update_self, hother (k + 1) (Nat.succ_ne_zero k),
          htime (k + 1) (Nat.succ_pos k) (Nat.le_refl _)]
        exact if_pos hi
      -- and is compared with what was the longest so far
      have hkept : keepLater later heard .maxElapsed =
          if later (heard .remoteElapsed) (m' 0 .maxElapsed) then heard .remoteElapsed
          else m' 0 .maxElapsed := by
        have hold : heard .maxElapsed = m' 0 .maxElapsed := rfl
        unfold keepLater
        rw [hold]
        split
        · exact Function.update_self _ _ _
        · exact hold
      rw [hrun, Function.update_self, hkept]
      exact hlongest.hear hlater hvalue

/-- After a report rank 0 has the longest time of all ranks. -/
theorem runEvs_reportEvs_longest (hlater : ∀ a b, later a b = true ↔ val b < val a)
    (hval : ∀ a b : Buf, (∀ i < 8, a i = b i) → val a = val b) (time : Rank → Buf) {n : Nat}
    (hn : 0 < n) (m : Rank → MainMem) :
    Longest val time n (runEvs (reportEvs later time n) m 0 .maxElapsed) := by
  unfold reportEvs
  rw [runEvs_append_apply]
  set taken := runEvs (everyEvs n fun r => setVar .elapsed (time r)) m with htaken
  -- each rank takes its own time
  have helapsed : ∀ r : Nat, r < n → taken r .elapsed = time r := by
    intro r hr
    rw [htaken, runEvs_everyEvs, if_pos hr]
    rfl
  obtain ⟨k, rfl⟩ : ∃ k, n = k + 1 := ⟨n - 1, by omega⟩
  refine (runEvs_gather_longest (m := Function.update taken 0
    (setVar .maxElapsed (taken 0 .elapsed) (taken 0))) hlater hval ?_ k fun r hpos hr => ?_).2
  · rw [Function.update_self]
    exact helapsed 0 hn
  · rw [Function.update_of_ne (Nat.pos_iff_ne_zero.mp hpos)]
    exact helapsed r (Nat.lt_succ_of_le hr)

end Report

/-! ## Every run

The results for all ranks, all sizes and all interleavings. -/

section Runs

variable (bench : Bench) (n k count : Nat)

/-- A round up to one of its broadcasts. -/
theorem roundEvs_broadcast {i : Nat} (hi : i < 4) :
    ∃ post, roundEvs bench n k count =
      ((.broadcastBarrier k, everyEvs n (newBuffers bench k) ++ barrierEvs n) ::
        (List.range i).map fun i =>
          (.broadcast k i, inMainEvs (broadcastEvs .sendbuf n count 0))) ++
        (.broadcast k i, inMainEvs (broadcastEvs .sendbuf n count 0)) :: post := by
  obtain rfl | rfl | rfl | rfl : i = 0 ∨ i = 1 ∨ i = 2 ∨ i = 3 := by omega
  all_goals exact ⟨_, rfl⟩

/-- A round up to one of its allreduces. -/
theorem roundEvs_allreduce {i : Nat} (hi : i < 4) :
    ∃ hist post, roundEvs bench n k count =
      (hist ++ (.allreduceBarrier k, barrierEvs n ++ everyEvs n (fillShare bench count)) ::
        (List.range i).map fun i => (.allreduce k i, inMainEvs (allreduceEvs bench.add n count))) ++
        (.allreduce k i, inMainEvs (allreduceEvs bench.add n count)) :: post := by
  refine ⟨(roundEvs bench n k count).take 6, ?_⟩
  obtain rfl | rfl | rfl | rfl : i = 0 ∨ i = 1 ∨ i = 2 ∨ i = 3 := by omega
  all_goals exact ⟨_, rfl⟩

/-- The events of `i` collectives and one more. -/
theorem flatMap_range_snd (step : Nat → Step) (G : List (Ev Rank RankMem UInt8)) (i : Nat) :
    ((List.range i).map fun i => (step i, inMainEvs G)).flatMap Prod.snd ++ inMainEvs G =
      repeated (i + 1) G := by
  simp [repeated, List.range_succ, List.flatMap_map]

/-- The numbers of rank 0 after the broadcasts of a round. -/
theorem sendbuf_of_broadcasts (m : Rank → MainMem) (i : Nat) {r j : Nat} (hr : r < n)
    (hj : j < count) :
    elem ((runEvs (everyEvs n (newBuffers bench k) ++ (barrierEvs n ++
      repeated (i + 1) (broadcastEvs .sendbuf n count 0))) m r).bufs .sendbuf) j =
        elem (bench.random k) j := by
  rw [runEvs_append_apply, runEvs_append_apply, elem_sendbuf_repeated _ i hr hj,
    runEvs_frames (barrierEvs_frames n), runEvs_everyEvs, if_pos (by omega)]
  rfl

/-- The sum after the allreduces of a round. -/
theorem recvbuf_of_allreduces {zero : Float4}
    (hzero : bench.add zero (bench.share 0) = bench.share 0) (m : Rank → MainMem) (i : Nat)
    {r j : Nat} (hr : r < n) (hj : j < count) :
    elem ((runEvs (everyEvs n (fillShare bench count) ++
      repeated (i + 1) (allreduceEvs bench.add n count)) m r).bufs .recvbuf) j =
        expectedSum bench zero n := by
  have hn : 0 < n := by omega
  rw [runEvs_append_apply, elem_recvbuf_repeated bench.add hn _ i hr hj]
  refine sumInRankOrder_shares hn hzero fun q hq => ?_
  rw [runEvs_everyEvs, if_pos hq]
  exact elem_fillShare bench hj q (m q)

/-- For every world size, list of sizes, stream capacities and initial memories, in every state
reached: a rank that is through with one of the four broadcasts of a round has rank 0's random
numbers in its `sendbuf`, and a rank that is through with one of the four allreduces has the sum it
expects at every place of its `recvbuf`, to the bit, so that its check succeeds. -/
theorem collectives_of_reach (counts : List Nat) (hn : 1 ≤ n) (cap : Rank × Rank → Nat)
    (x : Rank → MainMem) (zero : Float4) (hzero : bench.add zero (bench.share 0) = bench.share 0)
    (far : Float4 → Float4 → Bool) (hfar : ∀ a, far a a = false) (s : Net Rank MainMem UInt8)
    (hreach : Reach (Net.step cap) (fun _ _ => True) (launchMain bench counts n x) s)
    (hk : k < counts.length) (i : Nat) (hi : i < 4) (r : Rank) (hr : r < n) :
    (Through bench counts n s r (.broadcast k i) → ∀ j < counts.getD k 0,
      elem ((s.party r).mem (.buf .sendbuf)) j = elem (bench.random k) j) ∧
    (Through bench counts n s r (.allreduce k i) →
      (∀ j < counts.getD k 0,
        elem ((s.party r).mem (.buf .recvbuf)) j = expectedSum bench zero n) ∧
      allreduceCorrect far (expectedSum bench zero n) (counts.getD k 0)
        ((s.party r).mem (.buf .recvbuf)) = true) := by
  refine ⟨fun hthrough j hj => ?_, fun hthrough => ?_⟩
  -- the broadcasts of the round, and this one
  · obtain ⟨post, hround⟩ := roundEvs_broadcast bench n k (counts.getD k 0) hi
    obtain ⟨m, hmem⟩ := mem_of_round hn hreach hk hround
    rw [hmem r hr hthrough, List.flatMap_cons, List.append_assoc, flatMap_range_snd,
      List.append_assoc]
    exact sendbuf_of_broadcasts bench n k _ m i hr hj
  -- the allreduces, behind the barrier and the filling of the buffers
  · obtain ⟨hist, post, hround⟩ := roundEvs_allreduce bench n k (counts.getD k 0) hi
    obtain ⟨m, hmem⟩ := mem_of_round hn hreach hk hround
    have hsum : ∀ j < counts.getD k 0,
        elem ((s.party r).mem (.buf .recvbuf)) j = expectedSum bench zero n := by
      intro j hj
      rw [hmem r hr hthrough, List.flatMap_append, List.flatMap_cons, List.append_assoc,
        List.append_assoc, flatMap_range_snd, List.append_assoc, runEvs_append_apply,
        runEvs_append_apply]
      exact recvbuf_of_allreduces bench n _ hzero _ i hr hj
    refine ⟨hsum, List.all_eq_true.mpr fun j hj => ?_⟩
    -- equal numbers are not far from each other
    rw [hsum j (List.mem_range.mp hj), hfar]
    rfl

/-- Bytes are added one by one, and the first byte of a time counts. -/
def byteBench : Bench where
  add := addBytes
  later := fun a b => decide ((b 0).toNat < (a 0).toNat)
  malloc := fun _ _ _ _ => 0
  random := fun _ i => UInt8.ofNat (7 + i)
  share := fun r _ => UInt8.ofNat (r + 1)
  broadcastElapsed := fun _ r _ => UInt8.ofNat (5 + r)
  allreduceElapsed := fun _ r _ => UInt8.ofNat (9 - r)

/-- Whose turn it is, and for how many steps. -/
def takeTurns (turns : List (Rank × Nat)) : List (Rank × Nat) :=
  turns.flatMap fun t => List.replicate t.2 (t.1, 4)

/-- Two ranks up to the end of the broadcasts, and from there to the fourth allreduce. -/
def broadcastTurns : List (Rank × Nat) :=
  [(1, 3), (0, 4), (1, 6), (0, 6), (1, 2), (0, 2), (1, 2), (0, 2), (1, 2), (0, 2), (1, 2), (0, 2),
    (1, 7), (0, 4), (1, 2), (0, 3)]

/-- From the end of the broadcasts to the end of the allreduces. -/
def allreduceTurns : List (Rank × Nat) :=
  [(0, 4), (1, 6), (0, 7), (1, 5), (0, 6), (1, 5), (0, 6), (1, 5), (0, 6), (1, 2)]

/-- Rank 1 checks the fourth allreduce of the only round. -/
theorem collectives_of_twoRanks :
    ∃ s, Reach (Net.step fun _ => 8) (fun _ _ => True)
        (launchMain byteBench [1] 2 fun _ _ _ => 0) s ∧
      Through byteBench [1] 2 s 1 (.allreduce 0 3) ∧
      elem ((s.party 1).mem (.buf .recvbuf)) 0 = expectedSum byteBench (fun _ => 0) 2 ∧
      allreduceCorrect (fun a b => a ≠ b) (expectedSum byteBench (fun _ => 0) 2) 1
        ((s.party 1).mem (.buf .recvbuf)) = true := by
  have hrun : (exec (Net.step fun _ => 8) (fun _ _ => true)
      (launchMain byteBench [1] 2 fun _ _ _ => 0)
      (takeTurns (broadcastTurns ++ allreduceTurns))).map
        (fun s => decide (Through byteBench [1] 2 s 1 (.allreduce 0 3))) = some true := by
    decide +kernel
  obtain ⟨s, hreach, hobs⟩ := reach_of_exec_map hrun fun _ _ _ => trivial
  have hthrough := of_decide_eq_true hobs
  obtain ⟨hsum, hcorrect⟩ := (collectives_of_reach byteBench 2 0 [1] (by decide) (fun _ => 8)
    (fun _ _ _ => 0) (fun _ => 0) (by decide) (fun a b => a ≠ b) (fun a => by simp) s hreach
    (by decide) 3 (by decide) 1 (by decide)).2 hthrough
  exact ⟨s, hreach, hthrough, hsum 0 (by decide), hcorrect⟩

/-- For every world size and interleaving, in every state reached: when rank 0 is through with a
report, `max_elapsed` is the longest time of all ranks for that collective, where `val` is the value
of a `double`, which the comparison compares. -/
theorem report_of_reach {T : Type} [LinearOrder T] (val : Buf → T)
    (hval : ∀ a b : Buf, (∀ i < 8, a i = b i) → val a = val b)
    (hlater : ∀ a b, bench.later a b = true ↔ val b < val a) (counts : List Nat) (hn : 1 ≤ n)
    (cap : Rank × Rank → Nat) (x : Rank → MainMem) (s : Net Rank MainMem UInt8)
    (hreach : Reach (Net.step cap) (fun _ _ => True) (launchMain bench counts n x) s)
    (hk : k < counts.length) :
    (Through bench counts n s 0 (.broadcastReport k) →
      Longest val (bench.broadcastElapsed k) n ((s.party 0).mem .maxElapsed)) ∧
    (Through bench counts n s 0 (.allreduceReport k) →
      Longest val (bench.allreduceElapsed k) n ((s.party 0).mem .maxElapsed)) := by
  refine ⟨fun hthrough => ?_, fun hthrough => ?_⟩
  · have hround : roundEvs bench n k (counts.getD k 0) =
        (roundEvs bench n k (counts.getD k 0)).take 5 ++
          (.broadcastReport k, reportEvs bench.later (bench.broadcastElapsed k) n) ::
            (roundEvs bench n k (counts.getD k 0)).drop 6 := rfl
    obtain ⟨m, hmem⟩ := mem_of_round hn hreach hk hround
    rw [hmem 0 hn hthrough, runEvs_append_apply]
    exact runEvs_reportEvs_longest hlater hval _ hn _
  · have hround : roundEvs bench n k (counts.getD k 0) =
        (roundEvs bench n k (counts.getD k 0)).take 11 ++
          (.allreduceReport k, reportEvs bench.later (bench.allreduceElapsed k) n) ::
            (roundEvs bench n k (counts.getD k 0)).drop 12 := rfl
    obtain ⟨m, hmem⟩ := mem_of_round hn hreach hk hround
    rw [hmem 0 hn hthrough, runEvs_append_apply]
    exact runEvs_reportEvs_longest hlater hval _ hn _

/-- Rank 1 took 6 and rank 0 took 5. -/
theorem report_of_twoRanks :
    ∃ s, Reach (Net.step fun _ => 8) (fun _ _ => True)
        (launchMain byteBench [1] 2 fun _ _ _ => 0) s ∧
      Through byteBench [1] 2 s 0 (.broadcastReport 0) ∧
      Longest (fun b => (b 0).toNat) (byteBench.broadcastElapsed 0) 2
        ((s.party 0).mem .maxElapsed) := by
  have hrun : (exec (Net.step fun _ => 8) (fun _ _ => true)
      (launchMain byteBench [1] 2 fun _ _ _ => 0) (takeTurns broadcastTurns)).map
        (fun s => decide (Through byteBench [1] 2 s 0 (.broadcastReport 0))) = some true := by
    decide +kernel
  obtain ⟨s, hreach, hobs⟩ := reach_of_exec_map hrun fun _ _ _ => trivial
  have hthrough := of_decide_eq_true hobs
  refine ⟨s, hreach, hthrough, (report_of_reach byteBench 2 0 (fun b => (b 0).toNat)
    (fun a b h => by rw [h 0 (by decide)]) (fun a b => decide_eq_true_iff) [1] (by decide)
    (fun _ => 8) (fun _ _ _ => 0) s hreach (by decide)).1 hthrough⟩

/-- Every run of `tcp_test_main` on all ranks ends, whoever moves and however the streams cut the
messages, and a run that has ended has every rank through with its program and nothing in
transit. -/
theorem tcpTestMain_finishes (counts : List Nat) (hn : 1 ≤ n) (cap : Rank × Rank → Nat)
    (hcap : ∀ c, 0 < cap c) (x : Rank → MainMem) :
    Terminates (Net.step cap) (fun _ _ => True) (launchMain bench counts n x) ∧
      ∀ s, Reach (Net.step cap) (fun _ _ => True) (launchMain bench counts n x) s →
        (∀ l, s.step cap l = none) → s.Final ∧ ∀ c, s.chan c = [] := by
  refine ⟨Net.terminates cap (Finset.range n) fun r hr => ?_, fun s hreach hstuck => ?_⟩
  · have hout : ¬ r < n := fun h => hr (Finset.mem_range.mpr h)
    show (rankProg bench counts n r).map Prod.snd = []
    rw [rankProg, if_neg hout]
    rfl
  · rw [launchMain_eq_start bench counts hn] at hreach
    obtain ⟨hprogress, hresult⟩ := choreography_correct hcap _ x hreach
    by_cases hfinal : s.Final
    · exact ⟨hfinal, (hresult hfinal).2⟩
    · obtain ⟨l, t, hstep⟩ := hprogress hfinal
      rw [hstuck l] at hstep
      cases hstep

/-- Two ranks with room for three bytes on each stream do come to the end. -/
theorem tcpTestMain_finishes_twoRanks :
    ∃ s, Reach (Net.step fun _ => 3) (fun _ _ => True)
        (launchMain byteBench [1] 2 fun _ _ _ => 0) s ∧ s.Final ∧ ∀ c, s.chan c = [] := by
  obtain ⟨hterm, hend⟩ := tcpTestMain_finishes byteBench 2 [1] (by decide) (fun _ => 3)
    (fun _ => by decide) fun _ _ _ => 0
  obtain ⟨s, hreach, hstuck⟩ := hterm.reach_final
    fun t _ => by
      by_cases hstuck : ∀ l, t.step (fun _ => 3) l = none
      · exact .inl hstuck
      · obtain ⟨l, hl⟩ := not_forall.mp hstuck
        obtain ⟨u, hu⟩ := Option.ne_none_iff_exists'.mp hl
        exact .inr ⟨l, u, trivial, hu⟩
  exact ⟨s, hreach, hend s hreach hstuck⟩

end Runs

end OsHomework.Nccl
