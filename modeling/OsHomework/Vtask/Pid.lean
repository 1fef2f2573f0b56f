import OsHomework.Vtask.Machine

/-!
# Vtask — whose pid a call returns

`vtask_fault` fills a page from `current`, but the entry lives in the mm: another thread of the mm
goes through it, and so does every child the mm is copied to. A call that goes through such entries
reads somebody else's `task_struct` (`forked_child_returns_parent_pid`).

* **`own_pid_of_ownEntries`** — in every run in which each load of a call goes through entries the
  calling task's own faults installed, every call that returns 0 has the caller's own pid.
-/

namespace OsHomework.Vtask

open ByteMem Lts

variable {L : Layout}

/-! ## Addresses

`[vtask]` starts at a page, so an address in it is a page number and an offset, and the entry is
found by the first. -/

/-- The info record is on the last page of `[vtask]`. -/
theorem vinfoStartAddr_vdata (m : Mm) :
    vinfoStartAddr m.vdata = (m.vtask + taskStructPageNumber) * pageSize := by
  have hoff := m.vdataOff_lt
  simp only [vinfoStartAddr, Mm.vdata, taskStructPageNumber, pageSize] at hoff ⊢
  omega

/-- A user address of `[vtask]`, split into its page and the offset in it. -/
theorem Mm.translate_eq (m : Mm) {p x : Nat} (hx : x < pageSize) :
    m.translate ((m.vtask + p) * pageSize + x) =
      (m.pte p).map fun e => e.pfn * pageSize + x := by
  have hdiv : ((m.vtask + p) * pageSize + x) / pageSize - m.vtask = p := by
    simp only [pageSize] at hx ⊢
    omega
  have hmod : ((m.vtask + p) * pageSize + x) % pageSize = x := by
    simp only [pageSize] at hx ⊢
    omega
  have hle : m.vtask * pageSize ≤ (m.vtask + p) * pageSize + x := by
    simp only [pageSize]
    omega
  rw [Mm.translate, if_pos hle, hdiv, hmod]

/-- Byte `j` behind the user pointer to the `task_struct`: its page, and the offset in it. -/
theorem taskStructPtr_split (m : Mm) (phys j : Nat) :
    m.vtask * pageSize + phys % pageSize + j =
      (m.vtask + (phys % pageSize + j) / pageSize) * pageSize +
        (phys % pageSize + j) % pageSize := by
  simp only [pageSize]
  omega

/-! ## What the entries and the memory hold

The memory in use is written once: the `task_struct` when its task is created, the record when its
page is handed out. So what an entry showed when it was installed it shows for ever, of the task
that installed it. A call knows nothing but the pointer it has computed. -/

/-- The memory in use is left alone. -/
def Preserves (used : List (Nat × Nat)) (mem mem' : Nat → UInt8) : Prop :=
  ∀ r ∈ used, ∀ x, r.1 ≤ x → x < r.1 + r.2 → mem' x = mem x

/-- Writes to a range that is free. -/
theorem preserves_of_outside {used : List (Nat × Nat)} {mem mem' : Nat → UInt8} {start len : Nat}
    (hfree : Free used start len) (hout : ∀ x, x < start ∨ start + len ≤ x → mem' x = mem x) :
    Preserves used mem mem' := by
  intro r hr x hle hlt
  rcases hfree r hr with h | h
  · exact hout x (Or.inr (by omega))
  · exact hout x (Or.inl (by omega))

/-- The `task_struct` is in memory and holds the pid. -/
structure StructOk (L : Layout) (mem : Nat → UInt8) (used : List (Nat × Nat)) (T : Task) :
    Prop where
  mem_used : (T.phys, L.size) ∈ used
  pid_eq : load mem (T.phys + L.pidOff) 4 = T.pid.toNat

/-- The entry shows the page of the `task_struct` of the task that installed it, or the info page
with that task's offset. -/
inductive EntryOk (mem : Nat → UInt8) (used : List (Nat × Nat)) (T : Task) (p : Nat) (e : Pte) :
    Prop where
  | struct (hp : p < taskStructPageNumber) (hpfn : e.pfn = T.phys / pageSize + p)
  | info (hp : p = taskStructPageNumber) (hused : (e.pfn * pageSize, pageSize) ∈ used)
      (hoffset : load mem (e.pfn * pageSize) 8 = T.phys % pageSize)

theorem StructOk.mono {mem mem' : Nat → UInt8} {used used' : List (Nat × Nat)} {T : Task}
    (h : StructOk L mem used T) (hmem : Preserves used mem mem')
    (hused : ∀ r ∈ used, r ∈ used') : StructOk L mem' used' T := by
  refine ⟨hused _ h.mem_used, ?_⟩
  rw [← h.pid_eq]
  have hfits := L.pid_fits
  exact load_congr fun x hle hlt => hmem _ h.mem_used x (by dsimp; omega) (by dsimp; omega)

theorem EntryOk.mono {mem mem' : Nat → UInt8} {used used' : List (Nat × Nat)} {T : Task} {p : Nat}
    {e : Pte} (h : EntryOk mem used T p e) (hmem : Preserves used mem mem')
    (hused : ∀ r ∈ used, r ∈ used') : EntryOk mem' used' T p e := by
  cases h with
  | struct hp hpfn => exact .struct hp hpfn
  | info hp hu hoffset =>
    refine .info hp (hused _ hu) ?_
    rw [← hoffset]
    have hpage : 8 ≤ pageSize := by decide
    exact load_congr fun x hle hlt => hmem _ hu x hle (by dsimp only; omega)

/-- What a task knows inside a call that goes through its own entries. -/
def PcOk (m : Mm) (T : Task) : TaskPc → Prop
  | .pid ptr => ptr = m.vtask * pageSize + T.phys % pageSize
  | .ret code pid => code = 0 → pid = some T.pid.toNat
  | _ => True

structure Inv (L : Layout) (k : Kernel) : Prop where
  mm_live : ∀ {t T}, k.task t = some T → k.task T.mm ≠ none
  struct_ok : ∀ {t T}, k.task t = some T → StructOk L k.mem k.used T
  entry_ok : ∀ {m p e}, (k.mm m).pte p = some e →
    ∃ T, k.task e.byTask = some T ∧ EntryOk k.mem k.used T p e
  pc_ok : ∀ {t T}, k.task t = some T → PcOk (k.mm T.mm) T (k.pc t)

theorem inv_vtaskInit (mem : Nat → UInt8) : Inv L (vtaskInit mem) := by
  refine ⟨?_, ?_, ?_, ?_⟩ <;> intros <;> rename_i h <;> cases h

/-! ## Creation

A new task takes memory that was free and brings no entry that was not in some mm before. The mms of
the tasks there were do not change, since an mm is known by the id of its first task. -/

variable {k k' : Kernel}

section

variable {id phys : Nat} {origin : Origin} {pid : UInt32} {img : Nat → UInt8}

/-- A creation writes to free memory. -/
theorem Created.preserves (h : Created L k id origin phys pid img k') :
    Preserves k.used k.mem k'.mem := by
  refine preserves_of_outside h.free fun x hx => ?_
  have hfits := L.pid_fits
  rw [h.mem_eq, store, if_neg (by omega), if_neg (by omega)]

theorem Created.used_subset (h : Created L k id origin phys pid img k') :
    ∀ r ∈ k.used, r ∈ k'.used := by
  intro r hr
  rw [h.used_eq]
  exact List.mem_cons_of_mem _ hr

/-- The tasks there were stay. -/
theorem Created.task_kept (h : Created L k id origin phys pid img k') {t : Nat} {T : Task}
    (hT : k.task t = some T) : k'.task t = some T := by
  have ht : t ≠ id := by
    rintro rfl
    rw [h.id_new] at hT
    cases hT
  rw [h.task_eq, Function.update_of_ne ht, hT]

/-- A task is the new one or was there before. -/
theorem Created.task_cases (h : Created L k id origin phys pid img k') {t : Nat} {T : Task}
    (hT : k'.task t = some T) :
    t = id ∧ T = ⟨pid, phys, (origin.mm k id).1⟩ ∨ t ≠ id ∧ k.task t = some T := by
  rw [h.task_eq] at hT
  by_cases ht : t = id
  · subst ht
    rw [Function.update_self] at hT
    exact Or.inl ⟨rfl, (Option.some.inj hT).symm⟩
  · rw [Function.update_of_ne ht] at hT
    exact Or.inr ⟨ht, hT⟩

/-- The mm of a new task has only entries some mm had before. -/
theorem pte_of_origin {p : Nat} {e : Pte} (h : (origin.mm k id).2.pte p = some e) :
    ∃ m, (k.mm m).pte p = some e := by
  cases origin with
  | process => cases h
  | thread parent => exact ⟨_, h⟩
  | fork parent => exact ⟨_, h⟩

/-- Every entry was in some mm before. -/
theorem Created.entry_old (h : Created L k id origin phys pid img k') {m p : Nat} {e : Pte}
    (he : (k'.mm m).pte p = some e) : ∃ m', (k.mm m').pte p = some e := by
  rw [h.mm_eq] at he
  by_cases hm : m = (origin.mm k id).1
  · rw [hm, Function.update_self] at he
    exact pte_of_origin he
  · rw [Function.update_of_ne hm] at he
    exact ⟨m, he⟩

/-- The mms of the other tasks stay as they are, and the mm of the new task is its own or that of a
live task. -/
theorem origin_mm (h : Inv L k) (hid : k.task id = none)
    (horigin : ∀ parent, origin = .thread parent ∨ origin = .fork parent →
      ∃ t, k.task t = some parent) :
    (∀ {t T}, k.task t = some T →
        Function.update k.mm (origin.mm k id).1 (origin.mm k id).2 T.mm = k.mm T.mm) ∧
      ((origin.mm k id).1 = id ∨ k.task (origin.mm k id).1 ≠ none) := by
  -- a fresh id names no mm yet
  have hother : ∀ {t T}, k.task t = some T → T.mm ≠ id := by
    intro t T hT heq
    exact h.mm_live hT (heq ▸ hid)
  cases origin with
  | process vtask vdataOff =>
    refine ⟨?_, Or.inl rfl⟩
    intro t T hT
    exact Function.update_of_ne (hother hT) _ _
  | thread parent =>
    obtain ⟨t, ht⟩ := horigin parent (Or.inl rfl)
    refine ⟨?_, Or.inr (h.mm_live ht)⟩
    intro u T _
    rw [Origin.mm, Function.update_eq_self]
  | fork parent =>
    refine ⟨?_, Or.inl rfl⟩
    intro t T hT
    exact Function.update_of_ne (hother hT) _ _

/-- A creation keeps the invariant. -/
theorem Inv.created (h : Inv L k) (hk : Created L k id origin phys pid img k')
    (horigin : ∀ parent, origin = .thread parent ∨ origin = .fork parent →
      ∃ t, k.task t = some parent) : Inv L k' := by
  obtain ⟨hmms, hmm⟩ := origin_mm h hk.id_new horigin
  have hlive : ∀ m, k.task m ≠ none → k'.task m ≠ none := by
    intro m hm
    obtain ⟨T, hT⟩ := Option.ne_none_iff_exists'.mp hm
    simp [hk.task_kept hT]
  refine ⟨?_, ?_, ?_, ?_⟩
  -- the mm of every task has its first task
  · intro t T hT
    rcases hk.task_cases hT with ⟨-, rfl⟩ | ⟨-, hT⟩
    · rcases hmm with heq | hold
      · simp [hk.task_eq, heq]
      · exact hlive _ hold
    · exact hlive _ (h.mm_live hT)
  · intro t T hT
    rcases hk.task_cases hT with ⟨-, rfl⟩ | ⟨-, hT⟩
    · -- the pid is stored last, over the image
      refine ⟨by simp [hk.used_eq], ?_⟩
      rw [hk.mem_eq, load_store_self]
      exact Nat.mod_eq_of_lt pid.toNat_lt
    · exact (h.struct_ok hT).mono hk.preserves hk.used_subset
  -- entries come from the mm of the parent, or there are none
  · intro m p e he
    obtain ⟨m', he'⟩ := hk.entry_old he
    obtain ⟨T, hT, hok⟩ := h.entry_ok he'
    exact ⟨T, hk.task_kept hT, hok.mono hk.preserves hk.used_subset⟩
  -- the new task is in no call
  · intro t T hT
    rcases hk.task_cases hT with ⟨rfl, -⟩ | ⟨ht, hT⟩
    · rw [hk.pc_eq, Function.update_self]
      trivial
    · rw [hk.pc_eq, Function.update_of_ne ht, hk.mm_eq, hmms hT]
      exact h.pc_ok hT

end

/-! ## Page faults

A fault installs one entry, of the faulting task, in the mm it shares with others. -/

/-- A fault that succeeds is on a page of the `task_struct`, or on the page behind it, for which it
allocates one. -/
theorem vtaskFault_cases {id pgoff : Nat} {task : Task} {page : Option Nat} {r : Fault}
    {mem : Nat → UInt8} (h : vtaskFault L id task pgoff page mem = some r) :
    (pgoff < taskStructPageNumber ∧
        r = { pte := ⟨task.phys / pageSize + pgoff, id⟩, alloc := none, mem := mem }) ∨
      pgoff = taskStructPageNumber ∧ ∃ f, page = some f ∧
        r = { pte := ⟨f, id⟩, alloc := some f
              mem := storeTaskInfo L task.phys (f * pageSize) mem } := by
  unfold vtaskFault at h
  split at h
  · cases h
  · next hle =>
    split at h
    · next hlt => exact Or.inl ⟨hlt, (Option.some.inj h).symm⟩
    · next hge =>
      obtain ⟨f, hf, rfl⟩ := Option.map_eq_some_iff.mp h
      exact Or.inr ⟨by omega, f, hf, rfl⟩

/-- A fault writes only to the page it allocates. -/
theorem vtaskFault_preserves {id pgoff : Nat} {task : Task} {page : Option Nat} {r : Fault}
    {mem : Nat → UInt8} {used : List (Nat × Nat)} (h : vtaskFault L id task pgoff page mem = some r)
    (hfree : ∀ f ∈ r.alloc, Free used (f * pageSize) pageSize) : Preserves used mem r.mem := by
  rcases vtaskFault_cases h with ⟨-, rfl⟩ | ⟨-, f, -, rfl⟩
  · exact fun _ _ _ _ _ => rfl
  · refine preserves_of_outside (hfree f rfl) fun x hx => ?_
    have hpage : 32 ≤ pageSize := by decide
    simp only [storeTaskInfo, store]
    rw [if_neg (by omega), if_neg (by omega), if_neg (by omega), if_neg (by omega)]

/-- The offset field of the info record. -/
theorem load_storeTaskInfo (L : Layout) (phys page : Nat) (mem : Nat → UInt8) :
    load (storeTaskInfo L phys page mem) page 8 = phys % pageSize := by
  simp only [storeTaskInfo]
  rw [load_store_disjoint (by omega), load_store_disjoint (by omega),
    load_store_disjoint (by omega), load_store_self]
  exact Nat.mod_eq_of_lt (Nat.lt_trans (Nat.mod_lt _ (by decide)) (by decide))

/-- The entry a fault installs is one of the faulting task. -/
theorem vtaskFault_entryOk {id pgoff : Nat} {task : Task} {page : Option Nat} {r : Fault}
    {mem : Nat → UInt8} {used : List (Nat × Nat)}
    (h : vtaskFault L id task pgoff page mem = some r)
    (hused : ∀ f ∈ r.alloc, (f * pageSize, pageSize) ∈ used) :
    r.pte.byTask = id ∧ EntryOk r.mem used task pgoff r.pte := by
  rcases vtaskFault_cases h with ⟨hlt, rfl⟩ | ⟨hinfo, f, -, rfl⟩
  · exact ⟨rfl, .struct hlt rfl⟩
  · refine ⟨rfl, .info hinfo (hused f rfl) ?_⟩
    exact load_storeTaskInfo L _ _ _

section

variable {id pgoff : Nat} {page : Option Nat} {task : Task} {r : Fault}

theorem Faulted.preserves (h : Faulted L k id pgoff page k' task r) :
    Preserves k.used k.mem k'.mem := by
  rw [h.mem_eq]
  exact vtaskFault_preserves h.result h.free

theorem Faulted.used_subset (h : Faulted L k id pgoff page k' task r) :
    ∀ r ∈ k.used, r ∈ k'.used := by
  intro r hr
  rw [h.used_eq]
  exact List.mem_append_right _ hr

theorem Faulted.alloc_used (h : Faulted L k id pgoff page k' task r) :
    ∀ f ∈ r.alloc, (f * pageSize, pageSize) ∈ k'.used := by
  intro f hf
  rw [h.used_eq, Option.mem_def.mp hf]
  exact List.mem_append_left _ (List.mem_singleton.mpr rfl)

/-- An entry was there or is the one the fault installs. -/
theorem Faulted.entry_cases (h : Faulted L k id pgoff page k' task r) {m p : Nat} {e : Pte}
    (he : (k'.mm m).pte p = some e) : (k.mm m).pte p = some e ∨ p = pgoff ∧ e = r.pte := by
  rw [h.mm_eq] at he
  by_cases hm : m = task.mm
  · subst hm
    rw [Function.update_self, Mm.setPte_pte] at he
    by_cases hp : p = pgoff
    · subst hp
      rw [Function.update_self] at he
      exact Or.inr ⟨rfl, (Option.some.inj he).symm⟩
    · rw [Function.update_of_ne hp] at he
      exact Or.inl he
  · rw [Function.update_of_ne hm] at he
    exact Or.inl he

/-- A fault keeps the invariant. -/
theorem Inv.faulted (h : Inv L k) (hk : Faulted L k id pgoff page k' task r) : Inv L k' := by
  have hentry : r.pte.byTask = id ∧ EntryOk k'.mem k'.used task pgoff r.pte := by
    rw [hk.mem_eq]
    exact vtaskFault_entryOk hk.result hk.alloc_used
  refine ⟨?_, ?_, ?_, ?_⟩
  · rw [hk.task_eq]
    exact h.mm_live
  · intro t T hT
    rw [hk.task_eq] at hT
    exact (h.struct_ok hT).mono hk.preserves hk.used_subset
  -- the entry that is new belongs to the task that has faulted
  · intro m p e he
    rw [hk.task_eq]
    rcases hk.entry_cases he with he | ⟨rfl, rfl⟩
    · obtain ⟨T, hT, hok⟩ := h.entry_ok he
      exact ⟨T, hT, hok.mono hk.preserves hk.used_subset⟩
    · exact ⟨task, by rw [hentry.1, hk.alive], hentry.2⟩
  · intro t T hT
    rw [hk.task_eq] at hT
    have hpc := h.pc_ok hT
    rw [hk.pc_eq, hk.mm_eq]
    by_cases hm : T.mm = task.mm
    · rw [hm] at hpc ⊢
      rw [Function.update_self]
      -- the new entry does not move `[vtask]`
      cases hq : k.pc t <;> rw [hq] at hpc <;> exact hpc
    · rwa [Function.update_of_ne hm]

end

/-! ## The call

Three loads: `judge`, `offset`, the pid. The guard is about the entries that a load goes through.
With the offset from the own record the pointer is to the own `task_struct`, and with the own pages
the four bytes behind it are those of the own pid, also where they lie on two pages. -/

/-- Each load of a call goes through entries the caller's own faults installed. -/
def OwnEntries (L : Layout) (k : Kernel) (l : Nat × Action) : Prop :=
  match l.2 with
  | .load => ∀ task ∈ k.task l.1, ∀ r ∈ (k.pc l.1).loads L (k.mm task.mm), ∀ i < r.2,
      ∀ e ∈ (k.mm task.mm).pte ((r.1 + i) / pageSize - (k.mm task.mm).vtask), e.byTask = l.1
  | _ => True

instance (L : Layout) (k : Kernel) (l : Nat × Action) : Decidable (OwnEntries L k l) := by
  unfold OwnEntries; split <;> infer_instance

variable {t : Nat} {task : Task}

/-- The load of `offset` through the caller's own info page. -/
theorem Inv.offset_eq (h : Inv L k) (hown : OwnEntries L k (t, .load)) (ht : k.task t = some task)
    (hpc : k.pc t = .offset) {value : Nat}
    (hload : loadVia (k.mm task.mm).translate k.mem (vinfoStartAddr (k.mm task.mm).vdata) 8
      = some value) : value = task.phys % pageSize := by
  set m := k.mm task.mm with hm
  have hpage : 8 ≤ pageSize := by decide
  rw [vinfoStartAddr_vdata] at hload
  have hbyte : ∀ i < 8, m.translate ((m.vtask + taskStructPageNumber) * pageSize + i) =
      (m.pte taskStructPageNumber).map fun e => e.pfn * pageSize + i := fun i hi =>
    m.translate_eq (by omega)
  obtain ⟨x, hx⟩ := isSome_of_loadVia hload 0 (by decide)
  rw [hbyte 0 (by decide)] at hx
  obtain ⟨e, he, -⟩ := Option.map_eq_some_iff.mp hx
  -- by the guard, with the page of the load worked out
  have hby : e.byTask = t := by
    refine hown task ht (_, 8) (by rw [hpc]; rfl) 0 (Nat.succ_pos 7) e ?_
    rw [Option.mem_def, ← hm, vinfoStartAddr_vdata, ← he]
    congr 1
    simp only [pageSize, taskStructPageNumber]
    omega
  -- the task that installed the entry is the caller
  obtain ⟨T, hT, hok⟩ := h.entry_ok he
  rw [hby, ht] at hT
  cases hT
  cases hok with
  | struct hp _ => exact absurd hp (Nat.lt_irrefl _)
  | info _ _ hoffset =>
    rw [loadVia_eq_load (p := e.pfn * pageSize) fun i hi => by rw [hbyte i hi, he]; rfl] at hload
    rw [← hoffset]
    exact (Option.some.inj hload).symm

/-- The load of the pid through the caller's own pages. -/
theorem Inv.pid_eq (h : Inv L k) (hown : OwnEntries L k (t, .load)) (ht : k.task t = some task)
    {ptr : Nat} (hpc : k.pc t = .pid ptr) {value : Nat}
    (hload : loadVia (k.mm task.mm).translate k.mem (ptr + L.pidOff) 4 = some value) :
    value = task.pid.toNat := by
  have hptr := h.pc_ok ht
  rw [hpc] at hptr
  set m := k.mm task.mm with hm
  -- each of the four bytes lies in a page that shows the page of the caller's own `task_struct`
  have hbyte : ∀ i < 4, m.translate (ptr + L.pidOff + i) = some (task.phys + L.pidOff + i) := by
    intro i hi
    set j := task.phys % pageSize + (L.pidOff + i) with hj
    have haddr : ptr + L.pidOff + i = (m.vtask + j / pageSize) * pageSize + j % pageSize := by
      rw [hj, ← taskStructPtr_split, show ptr = _ from hptr]
      ring
    have hmod : j % pageSize < pageSize := Nat.mod_lt _ (by decide)
    obtain ⟨x, hx⟩ := isSome_of_loadVia hload i hi
    rw [haddr, m.translate_eq hmod] at hx ⊢
    obtain ⟨e, he, -⟩ := Option.map_eq_some_iff.mp hx
    -- by the guard
    have hby : e.byTask = t := by
      refine hown task ht (_, 4) (by rw [hpc]; rfl) i hi e ?_
      rw [Option.mem_def, ← hm, haddr, ← he]
      congr 1
      simp only [pageSize] at hmod ⊢
      omega
    obtain ⟨T, hT, hok⟩ := h.entry_ok he
    rw [hby, ht] at hT
    cases hT
    have hfits := L.pid_fits
    have hsize := L.size_le
    have hphys := Nat.div_add_mod task.phys pageSize
    have hlt : task.phys % pageSize < pageSize := Nat.mod_lt _ (by decide)
    rw [he, Option.map_some]
    congr 1
    cases hok with
    | struct _ hpfn =>
      rw [hpfn, hj]
      simp only [pageSize] at *
      omega
    | info hp _ _ =>
      simp only [pageSize, taskStructPageNumber] at *
      omega
  rw [loadVia_eq_load hbyte] at hload
  rw [← (h.struct_ok ht).pid_eq]
  exact (Option.some.inj hload).symm

/-- What a call knows after a load. -/
theorem Inv.loaded (h : Inv L k) (hown : OwnEntries L k (t, .load)) (ht : k.task t = some task)
    {pc : TaskPc} (hstep : (k.pc t).step L (k.mm task.mm) k.mem = some pc) :
    PcOk (k.mm task.mm) task pc := by
  obtain ⟨⟨addr, len⟩, hloads, hstep⟩ := Option.bind_eq_some_iff.mp hstep
  obtain ⟨value, hload, hstep⟩ := Option.bind_eq_some_iff.mp hstep
  cases hstep
  cases hpc : k.pc t with
  -- no load is made outside of a call
  | idle => rw [hpc] at hloads; cases hloads
  | ret code pid => rw [hpc] at hloads; cases hloads
  -- a mark that is wrong ends the call with -1
  | judge =>
    simp only [TaskPc.next]
    split
    · intro hcode
      cases hcode
    · trivial
  | offset =>
    rw [hpc] at hloads
    obtain ⟨rfl, rfl⟩ := Prod.mk.inj (Option.some.inj hloads)
    have hvalue := h.offset_eq hown ht hpc hload
    simp only [TaskPc.next, PcOk]
    rw [vinfoStartAddr_vdata, hvalue]
    simp only [pageSize, taskStructPageNumber]
    omega
  | pid ptr =>
    rw [hpc] at hloads
    obtain ⟨rfl, rfl⟩ := Prod.mk.inj (Option.some.inj hloads)
    intro _
    rw [h.pid_eq hown ht hpc hload]

/-- Only the program counter of task `t` moves. -/
theorem Inv.move (h : Inv L k) (ht : k.task t = some task) {pc : TaskPc}
    (hpc : PcOk (k.mm task.mm) task pc) : Inv L { k with pc := Function.update k.pc t pc } := by
  refine ⟨h.mm_live, h.struct_ok, h.entry_ok, ?_⟩
  intro u T hT
  dsimp only at hT ⊢
  by_cases hu : u = t
  · subst hu
    rw [ht] at hT
    cases hT
    rwa [Function.update_self]
  · rw [Function.update_of_ne hu]
    exact h.pc_ok hT

/-- **One step.** -/
theorem Inv.step {l : Nat × Action} (h : Inv L k) (hown : OwnEntries L k l)
    (hstep : vtaskStep L k l = some k') : Inv L k' := by
  obtain ⟨t, act⟩ := l
  rcases vtaskStep_cases hstep with ⟨id, origin, phys, pid, img, hk, horigin⟩ |
    ⟨pgoff, page, task, r, hk⟩ | ⟨task, info, ht, rfl⟩ | ⟨task, pc, rfl, ht, hpc, rfl⟩
  · exact h.created hk horigin
  · exact h.faulted hk
  -- the call starts with an error or in front of its first load
  · refine h.move ht ?_
    simp only [vdsoGetTaskStructInfo]
    split
    · intro hcode
      cases hcode
    · split
      · intro hcode
        cases hcode
      · trivial
  · exact h.move ht (h.loaded hown ht hpc)

/-- **A call that goes through the caller's own entries returns the caller's pid.** In every run in
which each load of a call goes through entries installed by faults of the calling task itself,
whatever tasks are created, forked and faulting in between. -/
theorem own_pid_of_ownEntries (L : Layout) (mem : Nat → UInt8) (k : Kernel)
    (h : Reach (vtaskStep L) (OwnEntries L) (vtaskInit mem) k) (t : Nat) (task : Task)
    (ht : k.task t = some task) (pid : Option Nat) (hret : k.pc t = .ret 0 pid) :
    pid = some task.pid.toNat := by
  have hinv : Inv L k := h.inv (inv_vtaskInit mem) fun _ _ _ hinv hok hstep => hinv.step hok hstep
  have hpc := hinv.pc_ok ht
  rw [hret] at hpc
  exact hpc rfl

/-! ## A child that is forked before and after the first fault

Both runs create the same two tasks. They differ in who has faulted first. -/

/-- A `task_struct` of 64 bytes with the pid at offset 8. -/
def smallLayout : Layout := ⟨64, 8, by decide, by decide⟩

/-- Process 41, and the pages its child with pid 42 will need. -/
def parentStart : Nat × Action := (1, .process 100 ⟨0, Nat.zero_lt_succ _⟩ 8192 41 fun _ => 0)

def forkChild : Nat × Action := (1, .fork 2 16400 42 fun _ => 0)

/-- A task faults in the info page (frame `page`) and the first page. -/
def faultIn (t page : Nat) : List (Nat × Action) := [(t, .fault 5 (some page)), (t, .fault 0 none)]

def callInfo (t : Nat) : List (Nat × Action) :=
  (t, .call true) :: List.replicate 3 (t, .load)

/-- The child faults itself. -/
theorem own_pid_of_ownEntries_child :
    ∃ k, Reach (vtaskStep smallLayout) (OwnEntries smallLayout) (vtaskInit fun _ => 0) k ∧
      ∃ task, k.task 2 = some task ∧ task.pid = 42 ∧ k.pc 2 = .ret 0 (some 42) ∧
        some 42 = some task.pid.toNat := by
  have hrun : (exec (vtaskStep smallLayout) (fun k l => decide (OwnEntries smallLayout k l))
      (vtaskInit fun _ => 0) ([parentStart, forkChild] ++ faultIn 2 50 ++ callInfo 2)).map
        (fun k => (k.pc 2, (k.task 2).map (·.pid))) = some (.ret 0 (some 42), some 42) := by
    decide +kernel
  obtain ⟨k, hreach, hobs⟩ := reach_of_exec_map hrun fun k l h => of_decide_eq_true h
  obtain ⟨hpc, htask⟩ := Prod.mk.inj hobs
  obtain ⟨task, ht, hpid⟩ := Option.map_eq_some_iff.mp htask
  exact ⟨k, hreach, task, ht, hpid, hpc,
    own_pid_of_ownEntries smallLayout (fun _ => 0) k hreach 2 task ht _ hpc⟩

/-- The parent calls `get_task_struct_info`, forks, and the child calls it: the child's copy of the
entries leads to the parent's `task_struct`, and the call returns 0 with the parent's pid. -/
theorem forked_child_returns_parent_pid :
    ∃ k, Reach (vtaskStep smallLayout) (fun _ _ => True) (vtaskInit fun _ => 0) k ∧
      ∃ task, k.task 2 = some task ∧ task.pid = 42 ∧ k.pc 2 = .ret 0 (some 41) := by
  have hrun : (exec (vtaskStep smallLayout) (fun _ _ => true) (vtaskInit fun _ => 0)
      ([parentStart] ++ faultIn 1 50 ++ callInfo 1 ++ [forkChild] ++ callInfo 2)).map
        (fun k => (k.pc 2, (k.task 2).map (·.pid))) = some (.ret 0 (some 41), some 42) := by
    decide +kernel
  obtain ⟨k, hreach, hobs⟩ := reach_of_exec_map hrun fun _ _ _ => trivial
  obtain ⟨hpc, htask⟩ := Prod.mk.inj hobs
  obtain ⟨task, ht, hpid⟩ := Option.map_eq_some_iff.mp htask
  exact ⟨k, hreach, task, ht, hpid, hpc⟩

end OsHomework.Vtask
