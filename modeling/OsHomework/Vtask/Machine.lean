import Mathlib.Logic.Function.Basic
import OsHomework.Lib.ByteMem
import OsHomework.Lib.Reach

/-!
# Vtask — the `[vtask]` area and `get_task_struct_info`

Every mm has a special mapping `[vtask]` of six pages right below `[vvar]`: five pages that show the
physical pages a `task_struct` lies in, and one page with an info record. The pages are filled in
lazily, by `vtask_fault`, from the task that happens to be running. `__vdso_get_task_struct_info` is
user code: it reads the record, computes where in the first page the `task_struct` starts, and loads
the pid from there.

* **`vtaskFault`** — the fault handler on byte-addressed physical memory.
* **`TaskPc.step`** — the loads of `__vdso_get_task_struct_info`, one at a time, each through the
  page table entries of the mm.
* **`vtaskStep`** — tasks are created (as a process, as a thread, or by fork), fault and call in any
  order. Threads share the entries of their mm, fork copies those that are present.
-/

namespace OsHomework.Vtask

open ByteMem

/-- `PAGE_SIZE`. -/
def pageSize : Nat := 4096

/-- `TASK_STRUCT_PAGE_NUMBER`. -/
def taskStructPageNumber : Nat := 5

/-- `sizeof(struct task_struct)` and `offsetof(struct task_struct, pid)`. -/
structure Layout where
  size : Nat
  pidOff : Nat
  pid_fits : pidOff + 4 ≤ size
  size_le : size ≤ 4 * pageSize

/-- A task: its pid, the physical address of its `task_struct`, and its mm. -/
structure Task where
  pid : UInt32
  phys : Nat
  mm : Nat

/-- A page table entry. `byTask` is not in the hardware: it remembers whose fault installed the
entry, and goes along when fork copies it. -/
structure Pte where
  pfn : Nat
  byTask : Nat

/-- The part of an mm that matters here: the page number `[vtask]` starts at, the offset of the
vDSO data in the first page of `[vvar]`, and the entries of the six pages. -/
structure Mm where
  vtask : Nat
  vdataOff : Nat
  vdataOff_lt : vdataOff < pageSize
  pte : Nat → Option Pte

/-- `__arch_get_vdso_data()`, a pointer into the page after `[vtask]`. -/
def Mm.vdata (m : Mm) : Nat := (m.vtask + taskStructPageNumber + 1) * pageSize + m.vdataOff

/-- The physical address behind a user address in `[vtask]`. -/
def Mm.translate (m : Mm) (v : Nat) : Option Nat :=
  if m.vtask * pageSize ≤ v then
    (m.pte (v / pageSize - m.vtask)).map fun e => e.pfn * pageSize + v % pageSize
  else none

/-- Install an entry. -/
def Mm.setPte (m : Mm) (p : Nat) (e : Pte) : Mm :=
  { m with pte := Function.update m.pte p (some e) }

@[simp] theorem Mm.setPte_pte (m : Mm) (p : Nat) (e : Pte) :
    (m.setPte p e).pte = Function.update m.pte p (some e) := rfl

/-- `struct my_task_info`, with the four fields at 0, 8, 16 and 24. -/
def storeTaskInfo (L : Layout) (phys : Nat) (page : Nat) (mem : Nat → UInt8) : Nat → UInt8 :=
  let mem := store mem page 8 (phys % pageSize)
  let mem := store mem (page + 8) 8 6
  let mem := store mem (page + 16) 8 L.size
  store mem (page + 24) 8 114514

/-- What a successful fault leaves: the entry installed, the page allocated for it, the memory. -/
structure Fault where
  pte : Pte
  alloc : Option Nat
  mem : Nat → UInt8

/-- `vtask_fault` at page `pgoff`, run by task `id`; `page` is what alloc_page returns. `none` is a
failed fault. -/
def vtaskFault (L : Layout) (id : Nat) (task : Task) (pgoff : Nat) (page : Option Nat)
    (mem : Nat → UInt8) : Option Fault :=
  -- `pgoff error`
  if taskStructPageNumber < pgoff then none
  -- a page of the `task_struct`, entered by its frame number
  else if pgoff < taskStructPageNumber then
    some { pte := ⟨task.phys / pageSize + pgoff, id⟩, alloc := none, mem := mem }
  else page.map fun f =>
    { pte := ⟨f, id⟩, alloc := some f, mem := storeTaskInfo L task.phys (f * pageSize) mem }

/-- Where a task stands in `__vdso_get_task_struct_info`: before the load of `judge`, of `offset`,
of the pid behind `task_struct_ptr`, or returned, with what it put into `info->pid`. -/
inductive TaskPc where
  | idle
  | judge
  | offset
  | pid (taskStructPtr : Nat)
  | ret (code : Int) (pid : Option Nat)
  deriving DecidableEq

/-- The page of `[vtask]` below the vDSO data: `(vdata >> PAGE_SHIFT << PAGE_SHIFT) - PAGE_SIZE`. -/
def vinfoStartAddr (vdata : Nat) : Nat := vdata / pageSize * pageSize - pageSize

/-- Entry of `__vdso_get_task_struct_info`, up to its first load. -/
def vdsoGetTaskStructInfo (info : Bool) (m : Mm) : TaskPc :=
  if info = false then .ret (-1) none
  else if m.vdata = 0 then .ret (-22) none
  else .judge

/-- The user address and the number of bytes of the next load. -/
def TaskPc.loads (L : Layout) (m : Mm) : TaskPc → Option (Nat × Nat)
  | .judge => some (vinfoStartAddr m.vdata + 24, 8)
  | .offset => some (vinfoStartAddr m.vdata, 8)
  | .pid ptr => some (ptr + L.pidOff, 4)
  | _ => none

/-- What the function does with the value loaded. -/
def TaskPc.next (m : Mm) (value : Nat) : TaskPc → TaskPc
  | .judge => if value ≠ 114514 then .ret (-1) none else .offset
  | .offset => .pid (vinfoStartAddr m.vdata - taskStructPageNumber * pageSize + value)
  | .pid _ => .ret 0 (some value)
  | pc => pc

/-- The next load of the call. A load from a page that is not present is not possible: the task
faults first. -/
def TaskPc.step (L : Layout) (m : Mm) (mem : Nat → UInt8) (pc : TaskPc) : Option TaskPc := do
  let (addr, len) ← pc.loads L m
  let value ← loadVia m.translate mem addr len
  some (pc.next m value)

/-! ## Tasks that are created, fault and call

Memory is never freed: a `task_struct` and a page handed out by the allocator are in use from then
on. What goes wrong with entries that outlive their task is another matter and not modelled. An
entry that is present stays; `[vtask]` has no handler that would take it away. -/

/-- Physical memory, the ranges of it that are in use (start and length), the tasks, the mms, and
where each task stands. -/
structure Kernel where
  mem : Nat → UInt8
  used : List (Nat × Nat)
  task : Nat → Option Task
  mm : Nat → Mm
  pc : Nat → TaskPc

/-- A fresh mm: nothing of `[vtask]` is present. -/
def Mm.fresh (vtask vdataOff : Nat) (h : vdataOff < pageSize) : Mm :=
  ⟨vtask, vdataOff, h, fun _ => none⟩

def vtaskInit (mem : Nat → UInt8) : Kernel where
  mem := mem
  used := []
  task := fun _ => none
  mm := fun _ => .fresh 0 0 (by decide)
  pc := fun _ => .idle

/-- The range is free. -/
def Free (used : List (Nat × Nat)) (start len : Nat) : Prop :=
  ∀ r ∈ used, start + len ≤ r.1 ∨ r.1 + r.2 ≤ start

instance (used : List (Nat × Nat)) (start len : Nat) : Decidable (Free used start len) := by
  unfold Free; infer_instance

/-- How a task comes about: as a process with a fresh mm, as a thread of a task, or by fork. -/
inductive Origin where
  | process (vtask : Nat) (vdataOff : Fin pageSize)
  | thread (parent : Task)
  | fork (parent : Task)

/-- The mm of the new task `id`, and its content if it is a new one. -/
def Origin.mm (k : Kernel) (id : Nat) : Origin → Nat × Mm
  | .process vtask vdataOff => (id, .fresh vtask vdataOff vdataOff.isLt)
  | .thread parent => (parent.mm, k.mm parent.mm)
  -- `copy_page_range` copies the entries that are present
  | .fork parent => (id, k.mm parent.mm)

inductive Action where
  | process (vtask : Nat) (vdataOff : Fin pageSize) (phys : Nat) (pid : UInt32) (img : Nat → UInt8)
  | thread (child phys : Nat) (pid : UInt32) (img : Nat → UInt8)
  | fork (child phys : Nat) (pid : UInt32) (img : Nat → UInt8)
  | fault (pgoff : Nat) (page : Option Nat)
  | call (info : Bool)
  | load

/-- A new task `id` at `phys`: the `task_struct` gets some content, its pid field the pid. -/
def Kernel.create (L : Layout) (k : Kernel) (id : Nat) (origin : Origin) (phys : Nat) (pid : UInt32)
    (img : Nat → UInt8) : Option Kernel :=
  if (k.task id).isNone ∧ Free k.used phys L.size then
    let mm := origin.mm k id
    some
      { mem := store (fun x => if phys ≤ x ∧ x < phys + L.size then img (x - phys) else k.mem x)
          (phys + L.pidOff) 4 pid.toNat
        used := (phys, L.size) :: k.used
        task := Function.update k.task id (some ⟨pid, phys, mm.1⟩)
        mm := Function.update k.mm mm.1 mm.2
        pc := Function.update k.pc id .idle }
  else none

/-- A page fault of task `id`, at a page whose entry is absent. The page allocator hands out pages
that are not in use. -/
def Kernel.fault (L : Layout) (k : Kernel) (id pgoff : Nat) (page : Option Nat) :
    Option Kernel := do
  let task ← k.task id
  let m := k.mm task.mm
  let r ← vtaskFault L id task pgoff page k.mem
  if (m.pte pgoff).isNone ∧ ∀ f ∈ r.alloc, Free k.used (f * pageSize) pageSize then
    some
      { k with
        mem := r.mem
        used := (r.alloc.map fun f => (f * pageSize, pageSize)).toList ++ k.used
        mm := Function.update k.mm task.mm (m.setPte pgoff r.pte) }
  else none

/-- One step, taken by task `l.1` (the new task itself, for a process). -/
def vtaskStep (L : Layout) (k : Kernel) (l : Nat × Action) : Option Kernel :=
  match l.2 with
  | .process vtask vdataOff phys pid img => k.create L l.1 (.process vtask vdataOff) phys pid img
  | .thread child phys pid img => do
    let parent ← k.task l.1
    k.create L child (.thread parent) phys pid img
  | .fork child phys pid img => do
    let parent ← k.task l.1
    k.create L child (.fork parent) phys pid img
  | .fault pgoff page => k.fault L l.1 pgoff page
  | .call info => do
    let task ← k.task l.1
    -- a task makes one call at a time
    match k.pc l.1 with
    | .idle | .ret _ _ =>
      some { k with pc := Function.update k.pc l.1 (vdsoGetTaskStructInfo info (k.mm task.mm)) }
    | _ => none
  | .load => do
    let task ← k.task l.1
    let pc ← (k.pc l.1).step L (k.mm task.mm) k.mem
    some { k with pc := Function.update k.pc l.1 pc }

/-! ## What one step can do

Creations and faults are kept as records of what they leave, field by field, since every invariant
of the following modules has to go through them. -/

/-- What the creation of task `id` leaves. -/
structure Created (L : Layout) (k : Kernel) (id : Nat) (origin : Origin) (phys : Nat) (pid : UInt32)
    (img : Nat → UInt8) (k' : Kernel) : Prop where
  id_new : k.task id = none
  free : Free k.used phys L.size
  mem_eq : k'.mem =
    store (fun x => if phys ≤ x ∧ x < phys + L.size then img (x - phys) else k.mem x)
      (phys + L.pidOff) 4 pid.toNat
  used_eq : k'.used = (phys, L.size) :: k.used
  task_eq : k'.task = Function.update k.task id (some ⟨pid, phys, (origin.mm k id).1⟩)
  mm_eq : k'.mm = Function.update k.mm (origin.mm k id).1 (origin.mm k id).2
  pc_eq : k'.pc = Function.update k.pc id .idle

/-- What a page fault of task `id` leaves. -/
structure Faulted (L : Layout) (k : Kernel) (id pgoff : Nat) (page : Option Nat) (k' : Kernel)
    (task : Task) (r : Fault) : Prop where
  alive : k.task id = some task
  result : vtaskFault L id task pgoff page k.mem = some r
  absent : (k.mm task.mm).pte pgoff = none
  free : ∀ f ∈ r.alloc, Free k.used (f * pageSize) pageSize
  mem_eq : k'.mem = r.mem
  used_eq : k'.used = (r.alloc.map fun f => (f * pageSize, pageSize)).toList ++ k.used
  task_eq : k'.task = k.task
  mm_eq : k'.mm = Function.update k.mm task.mm ((k.mm task.mm).setPte pgoff r.pte)
  pc_eq : k'.pc = k.pc

variable {L : Layout} {k k' : Kernel}

/-- **Inversion** of a creation. -/
theorem created_of_create {id phys : Nat} {origin : Origin} {pid : UInt32} {img : Nat → UInt8}
    (h : k.create L id origin phys pid img = some k') :
    Created L k id origin phys pid img k' := by
  simp only [Kernel.create, Option.ite_none_right_eq_some, Option.some.injEq] at h
  obtain ⟨⟨hnone, hfree⟩, rfl⟩ := h
  exact ⟨Option.isNone_iff_eq_none.mp hnone, hfree, rfl, rfl, rfl, rfl, rfl⟩

/-- **Inversion** of a fault. -/
theorem faulted_of_fault {id pgoff : Nat} {page : Option Nat}
    (h : k.fault L id pgoff page = some k') : ∃ task r, Faulted L k id pgoff page k' task r := by
  obtain ⟨task, htask, h⟩ := Option.bind_eq_some_iff.mp h
  obtain ⟨r, hr, h⟩ := Option.bind_eq_some_iff.mp h
  simp only [Option.ite_none_right_eq_some, Option.some.injEq] at h
  obtain ⟨⟨habsent, hfree⟩, rfl⟩ := h
  exact ⟨task, r, htask, hr, Option.isNone_iff_eq_none.mp habsent, hfree, rfl, rfl, rfl, rfl, rfl⟩

/-- A step is a creation (from a live parent, if it has one), a fault, or a move inside a call. -/
theorem vtaskStep_cases {l : Nat × Action} (h : vtaskStep L k l = some k') :
    (∃ id origin phys pid img, Created L k id origin phys pid img k' ∧
        ∀ parent, origin = .thread parent ∨ origin = .fork parent → ∃ t, k.task t = some parent) ∨
      (∃ pgoff page task r, Faulted L k l.1 pgoff page k' task r) ∨
      (∃ task info, k.task l.1 = some task ∧ k' = { k with
        pc := Function.update k.pc l.1 (vdsoGetTaskStructInfo info (k.mm task.mm)) }) ∨
      (∃ task pc, l.2 = .load ∧ k.task l.1 = some task ∧
        (k.pc l.1).step L (k.mm task.mm) k.mem = some pc ∧
        k' = { k with pc := Function.update k.pc l.1 pc }) := by
  obtain ⟨t, act⟩ := l
  cases act with
  | process vtask vdataOff phys pid img =>
    exact Or.inl ⟨t, _, phys, pid, img, created_of_create h, by simp⟩
  | thread child phys pid img =>
    obtain ⟨parent, hparent, h⟩ := Option.bind_eq_some_iff.mp h
    refine Or.inl ⟨child, _, phys, pid, img, created_of_create h, ?_⟩
    rintro p (⟨⟨⟩⟩ | ⟨⟨⟩⟩)
    exact ⟨t, hparent⟩
  | fork child phys pid img =>
    obtain ⟨parent, hparent, h⟩ := Option.bind_eq_some_iff.mp h
    refine Or.inl ⟨child, _, phys, pid, img, created_of_create h, ?_⟩
    rintro p (⟨⟨⟩⟩ | ⟨⟨⟩⟩)
    exact ⟨t, hparent⟩
  | fault pgoff page =>
    obtain ⟨task, r, hfault⟩ := faulted_of_fault h
    exact Or.inr (Or.inl ⟨pgoff, page, task, r, hfault⟩)
  | call info =>
    obtain ⟨task, htask, h⟩ := Option.bind_eq_some_iff.mp h
    split at h <;> cases h <;> exact Or.inr (Or.inr (Or.inl ⟨task, info, htask, rfl⟩))
  | load =>
    obtain ⟨task, htask, h⟩ := Option.bind_eq_some_iff.mp h
    obtain ⟨pc, hpc, h⟩ := Option.bind_eq_some_iff.mp h
    cases h
    exact Or.inr (Or.inr (Or.inr ⟨task, pc, rfl, htask, hpc, rfl⟩))

end OsHomework.Vtask
