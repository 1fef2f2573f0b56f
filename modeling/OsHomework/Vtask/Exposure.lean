import OsHomework.Vtask.Pid

/-!
# Vtask — what `[vtask]` lets user space read

The five pages in front show whole physical pages: the one the `task_struct` starts in and the four
behind it, with everything else that lies there. The info page comes from `alloc_page`, which does
not clear it; `vtask_fault` writes the first 32 bytes.

* **`Shows.step`** — whatever happens, an entry shows the pages of the task that installed it.
* **`readVtask_struct`**, **`readVtask_info`** — the bytes user space reads, in the five pages and
  in the record.
* **`readVtask_congr`** — two kernels with the same five physical pages show the same there and in
  the record.
-/

namespace OsHomework.Vtask

open ByteMem Lts

variable {L : Layout} {k k' : Kernel}

/-- The size of `struct my_task_info`. -/
def taskInfoSize : Nat := 32

/-- Byte `i` of the info record. -/
def infoByte (L : Layout) (phys i : Nat) : UInt8 := storeTaskInfo L phys 0 (fun _ => 0) i

/-- The record does not depend on the page nor on what was there before. -/
theorem storeTaskInfo_byte (L : Layout) (phys page : Nat) (mem : Nat → UInt8) {i : Nat}
    (hi : i < taskInfoSize) : storeTaskInfo L phys page mem (page + i) = infoByte L phys i := by
  -- the four stores go to the same places, seen from the start of the page
  have hsub : ∀ off, page + i - (page + off) = i - (0 + off) := fun off => by omega
  have hin : ∀ off, (page + off ≤ page + i ∧ page + i < page + off + 8) ↔
      (0 + off ≤ i ∧ i < 0 + off + 8) := fun off => by omega
  have hfirst := hin 0
  have hsubfirst := hsub 0
  simp only [Nat.add_zero] at hfirst hsubfirst
  simp only [infoByte, storeTaskInfo, store, hin, hsub, hfirst, hsubfirst]
  rw [taskInfoSize] at hi
  -- one case for each of the four fields, the last one first
  split
  · rfl
  · split
    · rfl
    · split
      · rfl
      · rw [if_pos (by omega), if_pos (by omega)]

/-! ## What the entries show

As in the module on pids, an entry belongs to the task whose fault installed it. Here it is the page
as a whole that matters, and all 32 bytes of the record. Both stay, since the memory in use is not
written again. -/

/-- The entry shows a page of the `task_struct` of the task that installed it, or its record. -/
inductive EntryShows (L : Layout) (mem : Nat → UInt8) (used : List (Nat × Nat)) (T : Task)
    (p : Nat) (e : Pte) : Prop where
  | struct (hp : p < taskStructPageNumber) (hpfn : e.pfn = T.phys / pageSize + p)
  | info (hp : p = taskStructPageNumber) (hused : (e.pfn * pageSize, pageSize) ∈ used)
      (hbytes : ∀ i < taskInfoSize, mem (e.pfn * pageSize + i) = infoByte L T.phys i)

/-- What is in use is not written to. -/
theorem EntryShows.mono {mem mem' : Nat → UInt8} {used used' : List (Nat × Nat)} {T : Task}
    {p : Nat} {e : Pte} (h : EntryShows L mem used T p e) (hmem : Preserves used mem mem')
    (hused : ∀ r ∈ used, r ∈ used') : EntryShows L mem' used' T p e := by
  cases h with
  | struct hp hpfn => exact .struct hp hpfn
  | info hp hu hbytes =>
    refine .info hp (hused _ hu) fun i hi => ?_
    have hpage : taskInfoSize ≤ pageSize := by decide
    rw [← hbytes i hi]
    exact hmem _ hu _ (Nat.le_add_right _ _) (by dsimp only; omega)

/-- Every entry of every mm shows pages of the task that installed it. -/
def Shows (L : Layout) (k : Kernel) : Prop :=
  ∀ m p e, (k.mm m).pte p = some e →
    ∃ T, k.task e.byTask = some T ∧ EntryShows L k.mem k.used T p e

theorem shows_vtaskInit (mem : Nat → UInt8) : Shows L (vtaskInit mem) := by
  intro m p e he
  cases he

theorem Shows.created (h : Shows L k) {id phys : Nat} {origin : Origin} {pid : UInt32}
    {img : Nat → UInt8} (hk : Created L k id origin phys pid img k') : Shows L k' := by
  intro m p e he
  obtain ⟨m', he'⟩ := hk.entry_old he
  obtain ⟨T, hT, hshows⟩ := h m' p e he'
  exact ⟨T, hk.task_kept hT, hshows.mono hk.preserves hk.used_subset⟩

/-- The entry a fault installs. -/
theorem vtaskFault_entryShows {id pgoff : Nat} {task : Task} {page : Option Nat} {r : Fault}
    {mem : Nat → UInt8} {used : List (Nat × Nat)}
    (h : vtaskFault L id task pgoff page mem = some r)
    (hused : ∀ f ∈ r.alloc, (f * pageSize, pageSize) ∈ used) :
    EntryShows L r.mem used task pgoff r.pte := by
  rcases vtaskFault_cases h with ⟨hlt, rfl⟩ | ⟨hinfo, f, -, rfl⟩
  · exact .struct hlt rfl
  · exact .info hinfo (hused f rfl) fun i hi => storeTaskInfo_byte L _ _ _ hi

/-- A fault installs an entry of its own, and writes to a page that was free. -/
theorem Shows.faulted (h : Shows L k) {id pgoff : Nat} {page : Option Nat} {task : Task}
    {r : Fault} (hk : Faulted L k id pgoff page k' task r) : Shows L k' := by
  intro m p e he
  rcases hk.entry_cases he with he | ⟨rfl, rfl⟩
  · obtain ⟨T, hT, hshows⟩ := h m p e he
    exact ⟨T, by rw [hk.task_eq, hT], hshows.mono hk.preserves hk.used_subset⟩
  · have hbyTask : r.pte.byTask = id := (vtaskFault_entryOk hk.result hk.alloc_used).1
    refine ⟨task, by rw [hk.task_eq, hbyTask, hk.alive], ?_⟩
    rw [hk.mem_eq]
    exact vtaskFault_entryShows hk.result hk.alloc_used

/-- **One step.** -/
theorem Shows.step {l : Nat × Action} (h : Shows L k) (hstep : vtaskStep L k l = some k') :
    Shows L k' := by
  rcases vtaskStep_cases hstep with ⟨id, origin, phys, pid, img, hk, -⟩ |
    ⟨pgoff, page, task, r, hk⟩ | ⟨task, info, ht, rfl⟩ | ⟨task, pc, -, ht, hpc, rfl⟩
  · exact h.created hk
  · exact h.faulted hk
  · exact h
  · exact h

theorem shows_of_reach {mem : Nat → UInt8}
    (h : Reach (vtaskStep L) (fun _ _ => True) (vtaskInit mem) k) : Shows L k :=
  h.inv (shows_vtaskInit mem) fun _ _ _ hshows _ hstep => hshows.step hstep

/-! ## What user space reads

The task has faulted in each of the six pages itself, so that every entry is one of its own
`task_struct`. What the pages show then depends on physical memory alone, apart from the rest of the
info page. -/

theorem pageSize_pos : 0 < pageSize := by decide

/-- Byte `x` of the `[vtask]` area, as user space reads it. -/
def Kernel.readVtask (k : Kernel) (mm x : Nat) : Option UInt8 :=
  ((k.mm mm).translate ((k.mm mm).vtask * pageSize + x)).map k.mem

/-- Task `t` has faulted in all pages of its `[vtask]` area. -/
structure FaultedIn (k : Kernel) (t : Nat) (T : Task) : Prop where
  alive : k.task t = some T
  own : ∀ p ≤ taskStructPageNumber, ∃ e, (k.mm T.mm).pte p = some e ∧ e.byTask = t

section Reads

variable {t : Nat} {T : Task}

/-- The entry of page `p` shows what it should. -/
theorem FaultedIn.entry (h : FaultedIn k t T) (hshows : Shows L k) {p : Nat}
    (hp : p ≤ taskStructPageNumber) :
    ∃ e, (k.mm T.mm).pte p = some e ∧ EntryShows L k.mem k.used T p e := by
  obtain ⟨e, he, hby⟩ := h.own p hp
  obtain ⟨T', hT', hentry⟩ := hshows T.mm p e he
  rw [hby, h.alive, Option.some.injEq] at hT'
  subst hT'
  exact ⟨e, he, hentry⟩

/-- A byte of page `p`, through its entry. -/
theorem readVtask_page {p x : Nat} {e : Pte} (he : (k.mm T.mm).pte p = some e)
    (hx : x < pageSize) :
    k.readVtask T.mm (p * pageSize + x) = some (k.mem (e.pfn * pageSize + x)) := by
  rw [Kernel.readVtask, ← Nat.add_assoc, ← Nat.add_mul, Mm.translate_eq _ hx, he]
  rfl

/-- The first five pages are the physical pages from the start of the `task_struct` on. -/
theorem readVtask_struct (h : FaultedIn k t T) (hshows : Shows L k) {x : Nat}
    (hx : x < taskStructPageNumber * pageSize) :
    k.readVtask T.mm x = some (k.mem (T.phys / pageSize * pageSize + x)) := by
  have hp : x / pageSize < taskStructPageNumber := Nat.div_lt_of_lt_mul (by rwa [Nat.mul_comm])
  have hsplit : x / pageSize * pageSize + x % pageSize = x := by
    rw [Nat.mul_comm]
    exact Nat.div_add_mod x pageSize
  obtain ⟨e, he, hentry⟩ := h.entry hshows (Nat.le_of_lt hp)
  have hread := readVtask_page he (Nat.mod_lt x pageSize_pos)
  rw [hsplit] at hread
  cases hentry with
  | struct _ hpfn => rw [hread, hpfn, Nat.add_mul, Nat.add_assoc, hsplit]
  | info hinfo => omega

/-- The record on the sixth page. -/
theorem readVtask_info (h : FaultedIn k t T) (hshows : Shows L k) {i : Nat}
    (hi : i < taskInfoSize) :
    k.readVtask T.mm (taskStructPageNumber * pageSize + i) = some (infoByte L T.phys i) := by
  have hpage : taskInfoSize ≤ pageSize := by decide
  obtain ⟨e, he, hentry⟩ := h.entry hshows (Nat.le_refl _)
  rw [readVtask_page he (by omega)]
  cases hentry with
  | struct hlt => exact absurd hlt (Nat.lt_irrefl _)
  | info _ _ hbytes => rw [hbytes i hi]

end Reads

/-- For every layout and any two kernels, reached by any runs: if the tasks that have faulted in all
their pages have their `task_struct` at the same address, and the physical pages from the one it
starts in are the same, user space reads the same in the five pages and in the info record. -/
theorem readVtask_congr (L : Layout) (mem₁ mem₂ : Nat → UInt8) (k₁ k₂ : Kernel)
    (hreach₁ : Reach (vtaskStep L) (fun _ _ => True) (vtaskInit mem₁) k₁)
    (hreach₂ : Reach (vtaskStep L) (fun _ _ => True) (vtaskInit mem₂) k₂)
    (t₁ t₂ : Nat) (T₁ T₂ : Task) (h₁ : FaultedIn k₁ t₁ T₁) (h₂ : FaultedIn k₂ t₂ T₂)
    (hphys : T₁.phys = T₂.phys)
    (hpages : ∀ x < taskStructPageNumber * pageSize,
      k₁.mem (T₁.phys / pageSize * pageSize + x) = k₂.mem (T₁.phys / pageSize * pageSize + x)) :
    ∀ x < taskStructPageNumber * pageSize + taskInfoSize,
      (k₁.readVtask T₁.mm x).isSome ∧ k₁.readVtask T₁.mm x = k₂.readVtask T₂.mm x := by
  intro x hx
  have hshows₁ := shows_of_reach hreach₁
  have hshows₂ := shows_of_reach hreach₂
  by_cases hstruct : x < taskStructPageNumber * pageSize
  · rw [readVtask_struct h₁ hshows₁ hstruct, readVtask_struct h₂ hshows₂ hstruct, ← hphys,
      hpages x hstruct]
    exact ⟨rfl, rfl⟩
  · obtain ⟨i, rfl⟩ := Nat.exists_eq_add_of_le (Nat.le_of_not_lt hstruct)
    have hi : i < taskInfoSize := by omega
    rw [readVtask_info h₁ hshows₁ hi, readVtask_info h₂ hshows₂ hi, hphys]
    exact ⟨rfl, rfl⟩

/-! ## Two kernels that differ outside the `task_struct`

The first pair differs in the `task_struct` of another process, which cannot be seen. The second
differs behind the own `task_struct`, in the page it ends in, and behind the record, in a page that
was allocated and not cleared; both can be seen. -/

/-- Process 41 with its `task_struct` at 8192 faults in all its pages; its record gets page 50. -/
def faultAll : List (Nat × Action) :=
  parentStart :: (1, .fault 5 (some 50)) :: (List.range 5).map fun p => (1, .fault p none)

/-- Where the `task_struct` of task 1 is, its mm, and who installed the six entries. -/
def pagesOf (k : Kernel) : Option (Nat × Nat) × List (Option Nat) :=
  ((k.task 1).map fun T => (T.phys, T.mm),
    (List.range 6).map fun p => ((k.mm 1).pte p).map (·.byTask))

theorem faultedIn_of_pagesOf (h : pagesOf k = (some (8192, 1), List.replicate 6 (some 1))) :
    ∃ T, FaultedIn k 1 T ∧ T.phys = 8192 ∧ T.mm = 1 := by
  obtain ⟨htask, howners⟩ := Prod.mk.inj h
  obtain ⟨T, hT, hpair⟩ := Option.map_eq_some_iff.mp htask
  obtain ⟨hphys, hmm⟩ := Prod.mk.inj hpair
  refine ⟨T, ⟨hT, fun p hp => ?_⟩, hphys, hmm⟩
  have hown : ((k.mm 1).pte p).map (·.byTask) = some 1 := by
    have hmem := List.mem_map_of_mem (f := fun p => ((k.mm 1).pte p).map (·.byTask))
      (List.mem_range.mpr (Nat.lt_succ_of_le hp))
    exact List.eq_of_mem_replicate (howners ▸ hmem)
  obtain ⟨e, he, hby⟩ := Option.map_eq_some_iff.mp hown
  exact ⟨e, by rw [hmm, he], hby⟩

/-- Another process, with its `task_struct` at 40960. -/
def otherProcess : Nat × Action := (2, .process 200 ⟨0, pageSize_pos⟩ 40960 42 fun _ => 7)

/-- Task 1 reads the same before and after another process is created. -/
theorem readVtask_congr_otherProcess :
    ∃ k₁ k₂ T₁ T₂, FaultedIn k₁ 1 T₁ ∧ FaultedIn k₂ 1 T₂ ∧ k₁.mem 40960 = 0 ∧ k₂.mem 40960 = 7 ∧
      ∀ x < taskStructPageNumber * pageSize + taskInfoSize,
        (k₁.readVtask T₁.mm x).isSome ∧ k₁.readVtask T₁.mm x = k₂.readVtask T₂.mm x := by
  have hrun : (exec (vtaskStep smallLayout) (fun _ _ => true) (vtaskInit fun _ => 0) faultAll).map
      (fun k => decide (pagesOf k = (some (8192, 1), List.replicate 6 (some 1)) ∧ k.mem 40960 = 0 ∧
        (vtaskStep smallLayout k otherProcess).map pagesOf =
          some (some (8192, 1), List.replicate 6 (some 1)))) = some true := by
    decide +kernel
  obtain ⟨k₁, hreach₁, hobs⟩ := reach_of_exec_map hrun fun _ _ _ => trivial
  obtain ⟨hpages₁, hbyte, hobs₂⟩ := of_decide_eq_true hobs
  obtain ⟨k₂, hstep, hpages₂⟩ := Option.map_eq_some_iff.mp hobs₂
  obtain ⟨T₁, h₁, hphys₁, -⟩ := faultedIn_of_pagesOf hpages₁
  obtain ⟨T₂, h₂, hphys₂, -⟩ := faultedIn_of_pagesOf hpages₂
  have hcreated : Created smallLayout k₁ 2 _ 40960 42 (fun _ => 7) k₂ := created_of_create hstep
  -- what the new process has written to memory
  have hmem : ∀ x, k₂.mem x = store (fun x => if 40960 ≤ x ∧ x < 40960 + 64 then 7 else k₁.mem x)
      (40960 + 8) 4 42 x := fun x => by
    rw [hcreated.mem_eq]
    rfl
  refine ⟨k₁, k₂, T₁, T₂, h₁, h₂, hbyte, ?_, ?_⟩
  · rw [hmem, store, if_neg (by omega), if_pos (by omega)]
  refine readVtask_congr smallLayout (fun _ => 0) (fun _ => 0) k₁ k₂ hreach₁
    (hreach₁.tail trivial hstep) 1 1 T₁ T₂ h₁ h₂ (by rw [hphys₁, hphys₂]) fun x hx => ?_
  simp only [hphys₁, pageSize, taskStructPageNumber] at hx ⊢
  rw [hmem, store, if_neg (by omega), if_neg (by omega)]

/-- A byte of the page the `task_struct` is in, right behind it, and one of the page that
`alloc_page` returns. -/
def dirtyMem : Nat → UInt8 := fun x =>
  if x = 8192 + 64 then 1 else if x = 50 * 4096 + 32 then 7 else 0

/-- Two kernels that agree on the `task_struct` of task 1, each with all pages faulted in: user
space reads the byte behind the `task_struct`, and the byte behind the info record. -/
theorem vtask_shows_more :
    ∃ k₁ k₂ T₁ T₂, Reach (vtaskStep smallLayout) (fun _ _ => True) (vtaskInit fun _ => 0) k₁ ∧
      Reach (vtaskStep smallLayout) (fun _ _ => True) (vtaskInit dirtyMem) k₂ ∧
      FaultedIn k₁ 1 T₁ ∧ FaultedIn k₂ 1 T₂ ∧ T₁.phys = T₂.phys ∧
      (∀ i < smallLayout.size, k₁.mem (T₁.phys + i) = k₂.mem (T₁.phys + i)) ∧
      k₁.readVtask T₁.mm 64 ≠ k₂.readVtask T₂.mm 64 ∧
      k₁.readVtask T₁.mm (5 * 4096 + 32) ≠ k₂.readVtask T₂.mm (5 * 4096 + 32) := by
  -- both runs are computed, and differ in the two bytes only
  have hrun : ∀ mem, mem = (fun _ => 0) ∨ mem = dirtyMem →
      (exec (vtaskStep smallLayout) (fun _ _ => true) (vtaskInit mem) faultAll).map
        (fun k => (pagesOf k, (List.range 64).map fun i => k.mem (8192 + i),
          k.readVtask 1 64, k.readVtask 1 (5 * 4096 + 32))) =
        some ((some (8192, 1), List.replicate 6 (some 1)),
          (List.range 64).map fun i => if i = 8 then 41 else 0,
          some (mem (8192 + 64)), some (mem (50 * 4096 + 32))) := by
    rintro mem (rfl | rfl) <;> decide +kernel
  obtain ⟨k₁, hreach₁, hobs₁⟩ := reach_of_exec_map (hrun _ (Or.inl rfl)) fun _ _ _ => trivial
  obtain ⟨k₂, hreach₂, hobs₂⟩ := reach_of_exec_map (hrun _ (Or.inr rfl)) fun _ _ _ => trivial
  obtain ⟨hpages₁, hstruct₁, hbehind₁, hrecord₁⟩ := by simpa only [Prod.mk.injEq] using hobs₁
  obtain ⟨hpages₂, hstruct₂, hbehind₂, hrecord₂⟩ := by simpa only [Prod.mk.injEq] using hobs₂
  obtain ⟨T₁, h₁, hphys₁, hmm₁⟩ := faultedIn_of_pagesOf hpages₁
  obtain ⟨T₂, h₂, hphys₂, hmm₂⟩ := faultedIn_of_pagesOf hpages₂
  refine ⟨k₁, k₂, T₁, T₂, hreach₁, hreach₂, h₁, h₂, by rw [hphys₁, hphys₂], fun i hi => ?_, ?_, ?_⟩
  · rw [hphys₁]
    exact List.map_inj_left.mp (hstruct₁.trans hstruct₂.symm) i (List.mem_range.mpr hi)
  · rw [hmm₁, hmm₂, hbehind₁, hbehind₂]
    decide
  · rw [hmm₁, hmm₂, hrecord₁, hrecord₂]
    decide

end OsHomework.Vtask
