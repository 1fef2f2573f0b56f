import OsHomework.Vtask.Map
import OsHomework.Vtask.Pid

/-!
# Vtask — two computations of one layout

The kernel places `[vtask]` below `[vvar]` and fills its pages by their number in the area. User
code starts from a pointer into the first page of `[vvar]` and computes back. Both sides work on
64-bit addresses; here every sum and difference is taken modulo `2 ^ 64`, as in `map_vdso`.

* **`vinfoAddr_eq`**, **`next_offset`** — as long as nothing wraps, these are the addresses of
  `__vdso_get_task_struct_info`.
* **`task_struct_visible`** — the info page is the one `vtask_fault` fills with the record, and
  every byte of the `task_struct` is seen at its offset from `task_struct_ptr`.
-/

namespace OsHomework.Vtask

open ByteMem

/-! ## The two sides

`map_vdso` and the vDSO function are compiled apart and share the constants only. On the user side
everything is computed from `vdata`; on the kernel side a page of the area is known by its number,
which the fault handler gets as `vmf->pgoff`. -/

/-- `vinfo_start_addr` -/
def vinfoAddr (vdata : Nat) : Nat := (vdata / pageSize * pageSize + (2 ^ 64 - pageSize)) % 2 ^ 64

/-- `vinfo_start_addr - TASK_STRUCT_PAGE_NUMBER * PAGE_SIZE + the_info->offset` -/
def taskStructPtr (vinfo offset : Nat) : Nat :=
  (vinfo + (2 ^ 64 - taskStructPageNumber * pageSize) + offset) % 2 ^ 64

/-- `vmf->pgoff` of a fault at `address`. -/
def Vma.pgoff (v : Vma) (address : Nat) : Nat := (address + (2 ^ 64 - v.start)) % 2 ^ 64 / pageSize

/-- The record is found where `__vdso_get_task_struct_info` looks for it. -/
theorem vinfoAddr_eq {vdata : Nat} (hpage : pageSize ≤ vdata) (hlt : vdata < 2 ^ 64) :
    vinfoAddr vdata = vinfoStartAddr vdata := by
  simp only [vinfoAddr, vinfoStartAddr, pageSize] at hpage ⊢
  omega

/-- The pointer is the one `__vdso_get_task_struct_info` loads the pid through. -/
theorem next_offset (m : Mm) {offset : Nat} (hoffset : offset < pageSize)
    (hlt : m.vdata < 2 ^ 64) :
    TaskPc.offset.next m offset = .pid (taskStructPtr (vinfoAddr m.vdata) offset) := by
  have hoff := m.vdataOff_lt
  simp only [TaskPc.next, taskStructPtr, vinfoAddr, vinfoStartAddr, Mm.vdata, taskStructPageNumber,
    pageSize] at hoffset hlt hoff ⊢
  congr 1
  omega

/-! ## They agree

With each sum taken modulo `2 ^ 64` the two sides agree wherever the areas are, also across the end
of the address space. A `task_struct` has at most four pages and may start anywhere in its first
one, so five pages are enough. -/

section

variable {addr : Nat}

/-- `[vtask]` starts where `get_unmapped_area` has found room. -/
theorem vtaskVma_start (haddr : addr < 2 ^ 64) : (vtaskVma addr).start = addr := by
  simp only [vtaskVma, shifted, vtaskLen, taskStructPageNumber, pageSize]
  omega

/-- Moved by whole pages, an address of a page stays one. -/
theorem shifted_aligned (haligned : addr % pageSize = 0) : shifted addr % pageSize = 0 := by
  simp only [shifted, vtaskLen, taskStructPageNumber, pageSize] at haligned ⊢
  omega

/-- The page below the vDSO data is the last one of `[vtask]`. -/
theorem vinfoAddr_vvar {image : VdsoImage} (haligned : addr % pageSize = 0) {vdataOff : Nat}
    (hvdata : vdataOff < pageSize) :
    vinfoAddr ((vvarVma image addr).start + vdataOff) =
      (addr + taskStructPageNumber * pageSize) % 2 ^ 64 := by
  have hstart := shifted_aligned haligned
  simp only [vinfoAddr, vvarVma, shifted, vtaskLen, taskStructPageNumber, pageSize] at *
  omega

/-- Byte `x` of `[vtask]` lies in page `x / PAGE_SIZE`. -/
theorem pgoff_vtaskVma (haddr : addr < 2 ^ 64) {x : Nat} (hx : x < 2 ^ 64) :
    (vtaskVma addr).pgoff ((addr + x) % 2 ^ 64) = x / pageSize := by
  rw [Vma.pgoff, vtaskVma_start haddr]
  congr 1
  omega

/-- The pointer to byte `f` is `offset + f` behind the start of `[vtask]`. -/
theorem taskStructPtr_vinfoAddr (offset f : Nat) :
    (taskStructPtr ((addr + taskStructPageNumber * pageSize) % 2 ^ 64) offset + f) % 2 ^ 64 =
      (addr + (offset + f)) % 2 ^ 64 := by
  simp only [taskStructPtr, taskStructPageNumber, pageSize]
  omega

end

/-- The mark of a record that has been filled in. -/
theorem load_storeTaskInfo_judge (L : Layout) (phys page : Nat) (mem : Nat → UInt8) :
    load (storeTaskInfo L phys page mem) (page + 24) 8 = 114514 := by
  simp only [storeTaskInfo]
  rw [load_store_self]
  rfl

/-- A fault on one of the first five pages. -/
theorem vtaskFault_of_lt {L : Layout} {id pgoff : Nat} {task : Task} {page : Option Nat}
    {mem : Nat → UInt8} (h : pgoff < taskStructPageNumber) :
    vtaskFault L id task pgoff page mem =
      some { pte := ⟨task.phys / pageSize + pgoff, id⟩, alloc := none, mem := mem } := by
  rw [vtaskFault, if_neg (Nat.not_lt.mpr (Nat.le_of_lt h)), if_pos h]

/-- The page that holds byte `f` of a `task_struct` at `phys`, counted from its first page, and the
place of the byte in it. -/
theorem page_of_field (phys f : Nat) :
    (phys / pageSize + (phys % pageSize + f) / pageSize) * pageSize +
      (phys % pageSize + f) % pageSize = phys + f := by
  simp only [pageSize]
  omega

/-- **The layouts agree.** Wherever `map_vdso` has placed `[vvar]`, with the vDSO data in its first
page: the info address is the page of `[vtask]` that `vtask_fault` fills with the record, and the
byte at `task_struct_ptr + f` lies in one of the five pages in front of it, the one whose frame,
installed by `vtask_fault`, has that byte at the physical address of the `task_struct` plus `f`. -/
theorem task_struct_visible (image : VdsoImage) (addr vdataOff : Nat) (haddr : addr < 2 ^ 64)
    (haligned : addr % pageSize = 0) (hvdata : vdataOff < pageSize) (L : Layout) (task : Task)
    (f : Nat) (hf : f < L.size) (vinfo address : Nat)
    (hvinfo : vinfo = vinfoAddr ((vvarVma image addr).start + vdataOff))
    (haddress : address = (taskStructPtr vinfo (task.phys % pageSize) + f) % 2 ^ 64) :
    (vtaskVma addr).pgoff vinfo = taskStructPageNumber ∧ vinfo % pageSize = 0 ∧
      (∀ id page mem, ∃ r,
        vtaskFault L id task taskStructPageNumber (some page) mem = some r ∧ r.pte.pfn = page ∧
          load r.mem (page * pageSize) 8 = task.phys % pageSize ∧
          load r.mem (page * pageSize + 24) 8 = 114514) ∧
      (vtaskVma addr).pgoff address < taskStructPageNumber ∧
      ∀ id page mem, ∃ r,
        vtaskFault L id task ((vtaskVma addr).pgoff address) page mem = some r ∧
          r.pte.pfn * pageSize + address % pageSize = task.phys + f := by
  rw [vinfoAddr_vvar haligned hvdata] at hvinfo
  rw [hvinfo, taskStructPtr_vinfoAddr] at haddress
  have hsize := L.size_le
  have hoffset : task.phys % pageSize < pageSize := Nat.mod_lt _ (by decide)
  -- the byte is in front of the info page
  have hlt : task.phys % pageSize + f < taskStructPageNumber * pageSize := by
    simp only [taskStructPageNumber, pageSize] at *
    omega
  -- its page, seen from the area
  have hpage : (vtaskVma addr).pgoff address = (task.phys % pageSize + f) / pageSize := by
    rw [haddress]
    exact pgoff_vtaskVma haddr (Nat.lt_trans hlt (by decide))
  have hfive : (task.phys % pageSize + f) / pageSize < taskStructPageNumber :=
    Nat.div_lt_of_lt_mul (by rwa [Nat.mul_comm])
  -- its place in the page
  have hinpage : address % pageSize = (task.phys % pageSize + f) % pageSize := by
    simp only [haddress, pageSize] at haligned ⊢
    omega
  refine ⟨?_, ?_, fun id page mem => ?_, ?_, fun id page mem => ?_⟩
  -- the info address is in the last page of the area, and at its start
  · rw [hvinfo, pgoff_vtaskVma haddr (by decide)]
    rfl
  · simp only [hvinfo, taskStructPageNumber, pageSize] at haligned ⊢
    omega
  · exact ⟨_, rfl, rfl, load_storeTaskInfo L _ _ _, load_storeTaskInfo_judge L _ _ _⟩
  · rw [hpage]
    exact hfive
  · rw [hpage]
    refine ⟨_, vtaskFault_of_lt hfive, ?_⟩
    rw [hinpage]
    exact page_of_field task.phys f

/-- A `task_struct` that starts near the end of a page, and a byte of it on the next one. -/
theorem task_struct_visible_crossing :
    ∃ vinfo address, vinfo = vinfoAddr ((vvarVma smallImage 4096000).start + 128) ∧
      address = (taskStructPtr vinfo (12250 % pageSize) + 60) % 2 ^ 64 ∧
      (vtaskVma 4096000).pgoff address < taskStructPageNumber ∧
      ∀ id page mem, ∃ r,
        vtaskFault smallLayout id ⟨41, 12250, 1⟩ ((vtaskVma 4096000).pgoff address) page mem =
          some r ∧ r.pte.pfn * pageSize + address % pageSize = 12310 := by
  refine ⟨_, _, rfl, rfl, ?_⟩
  obtain ⟨-, -, -, hvisible⟩ := task_struct_visible smallImage 4096000 128 (by decide) (by decide)
    (by decide) smallLayout ⟨41, 12250, 1⟩ 60 (by decide) _ _ rfl rfl
  exact hvisible

end OsHomework.Vtask
