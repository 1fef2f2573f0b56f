import OsHomework.Vtask.Addresses
import OsHomework.Vtask.Areas
import OsHomework.Vtask.Once

/-!
# Vtask — moving the areas

User space may move special mappings with `mremap`. For `[vdso]` the kernel then calls
`vdso_mremap`, which writes the new address to the context; `[vvar]` and `[vtask]` have no such
handler, and nobody updates `context.vtask`. The code of `__vdso_get_task_struct_info` finds its
data relative to itself: it looks for `[vtask]` in front of where `[vdso]` is now.

`mremap` is not part of the repository; of it is assumed that it moves a mapping as a whole to a
place where there is none, and calls the handler.

* **`Moved`** — what every run keeps: the sizes of the areas, and that the context knows `[vdso]`.
* **`info_found_iff`** — over every run, the info page is found exactly if `[vtask]` is as far in
  front of `[vdso]` as `map_vdso` placed it.
-/

namespace OsHomework.Vtask

open Lts

/-! ## Moves

A move keeps the length and the kind of a mapping. What the code in `[vdso]` computes is relative to
its own address; the distance to its data was fixed when the image was built. -/

/-- `vdso_mremap`, for a 64-bit image: there is no landing pad to be fixed. -/
def vdsoMremap (newStart : Nat) (mm : MapState) : MapState := { mm with vdso := newStart }

/-- The `mremap` field of a special mapping. -/
def Mapping.mremap : Mapping → Nat → MapState → MapState
  | .vdso => vdsoMremap
  -- `vvar_mapping` and `vtask_mapping` have no `mremap`
  | _ => fun _ mm => mm

/-- What user space does: it unmaps a range or moves a mapping. -/
inductive MoveAction where
  | munmap (start len : Nat)
  | mremap (v : Vma) (newStart : Nat)

/-- Where a mapping can be moved. -/
def Fits (taskSize : Nat) (vmas : Finset Vma) (v : Vma) (newStart : Nat) : Prop :=
  Removable taskSize { v with start := newStart } ∧
    ∀ w ∈ vmas.erase v, w.Apart { v with start := newStart }

instance (taskSize : Nat) (vmas : Finset Vma) (v : Vma) (newStart : Nat) :
    Decidable (Fits taskSize vmas v newStart) :=
  inferInstanceAs (Decidable (_ ∧ _))

def moveStep (taskSize : Nat) (doMunmap : Munmap) (mm : MapState) : MoveAction → Option MapState
  | .munmap start len => some { mm with vmas := doMunmap mm.vmas start len }
  | .mremap v newStart =>
    if v ∈ mm.vmas ∧ Fits taskSize mm.vmas v newStart then
      some (v.mapping.mremap newStart
        { mm with vmas := insert { v with start := newStart } (mm.vmas.erase v) })
    else none

/-- `__arch_get_vdso_data()` in a `[vdso]` mapping: an address at a fixed distance from the code, in
what is the first page of `[vvar]` where `map_vdso` has put it. -/
def archGetVdsoData (image : VdsoImage) (vdso : Vma) (vdataOff : Nat) : Nat :=
  (vdso.start + (2 ^ 64 - image.vvarLen) + vdataOff) % 2 ^ 64

/-- The record that `__vdso_get_task_struct_info` looks for is the last page of the mapping. -/
def FindsInfo (image : VdsoImage) (vdso vtask : Vma) (vdataOff : Nat) : Prop :=
  let vinfo := vinfoAddr (archGetVdsoData image vdso vdataOff)
  vtask.start ≤ vinfo ∧ vinfo < vtask.start + vtask.len ∧
    vtask.pgoff vinfo = taskStructPageNumber

/-! ## What every run keeps

A mapping of one of the three kinds is one of those installed, perhaps elsewhere. So its length is
known, and with it how far it reaches; there is one `[vdso]`, which makes the field of the context
meaningful. -/

/-- The length of the areas of an image. -/
def VdsoImage.lenOf (image : VdsoImage) : Mapping → Nat
  | .vdso => image.size
  | .vvar => image.vvarLen
  | .vtask => vtaskLen
  | .other _ => 0

/-- The areas have the lengths they were installed with and start at user pages, and the context
says where `[vdso]` is. `vtask` is where `[vtask]` was installed. -/
structure Moved (taskSize vtask : Nat) (image : VdsoImage) (mm : MapState) : Prop where
  whole : ∀ v ∈ mm.vmas, v.mapping.Special → v.len = image.lenOf v.mapping
  user : ∀ v ∈ mm.vmas, v.mapping.Special → v.start % pageSize = 0 ∧ v.start + v.len ≤ taskSize
  one : ∀ v ∈ mm.vmas, ∀ w ∈ mm.vmas, v.mapping = .vdso → w.mapping = .vdso → v = w
  vdso : ∀ v ∈ mm.vmas, v.mapping = .vdso → mm.vdso = v.start
  image : mm.vdsoImage = some image
  vtask : mm.vtask = vtask

section

variable {taskSize vtask : Nat} {doMunmap : Munmap} {image : VdsoImage} {mm mm' : MapState}

/-- Special mappings that are left were there before. -/
theorem Moved.subset (h : Moved taskSize vtask image mm) {vmas : Finset Vma}
    (hsub : ∀ v ∈ vmas, v.mapping.Special → v ∈ mm.vmas) :
    Moved taskSize vtask image { mm with vmas := vmas } where
  whole := fun v hv hs => h.whole v (hsub v hv hs) hs
  user := fun v hv hs => h.user v (hsub v hv hs) hs
  one := fun v hv w hw hvk hwk =>
    h.one v (hsub v hv (Or.inl hvk)) w (hsub w hw (Or.inl hwk)) hvk hwk
  vdso := fun v hv hk => h.vdso v (hsub v hv (Or.inl hk)) hk
  image := h.image
  vtask := h.vtask

theorem Moved.mremap (h : Moved taskSize vtask image mm) {v : Vma} {newStart : Nat}
    (hv : v ∈ mm.vmas) (hfits : Fits taskSize mm.vmas v newStart) :
    Moved taskSize vtask image (v.mapping.mremap newStart
      { mm with vmas := insert { v with start := newStart } (mm.vmas.erase v) }) := by
  obtain ⟨⟨haligned, -, hend⟩, -⟩ := hfits
  -- the handler changes the context only
  have hcontext : ∀ mm : MapState, (v.mapping.mremap newStart mm).vmas = mm.vmas ∧
      (v.mapping.mremap newStart mm).vdsoImage = mm.vdsoImage ∧
      (v.mapping.mremap newStart mm).vtask = mm.vtask := by
    intro mm
    cases v.mapping <;> exact ⟨rfl, rfl, rfl⟩
  obtain ⟨hvmas, himage, hvtask⟩ :=
    hcontext { mm with vmas := insert { v with start := newStart } (mm.vmas.erase v) }
  have hmem : ∀ w ∈ insert { v with start := newStart } (mm.vmas.erase v),
      w = { v with start := newStart } ∨ w ≠ v ∧ w ∈ mm.vmas := by
    intro w hw
    rw [Finset.mem_insert, Finset.mem_erase] at hw
    exact hw
  -- of `[vdso]` mappings there is the moved one or, if it was another, the one there was
  have hvdso : ∀ w ∈ mm.vmas, w ≠ v → w.mapping = .vdso → v.mapping ≠ .vdso :=
    fun w hw hne hwk hvk => hne (h.one w hw v hv hwk hvk)
  refine ⟨fun w hw hs => ?_, fun w hw hs => ?_, fun w hw u hu hwk huk => ?_, fun w hw hk => ?_,
    himage.trans h.image, hvtask.trans h.vtask⟩
  -- the lengths: a move keeps them
  · rw [hvmas] at hw
    rcases hmem w hw with rfl | ⟨-, hold⟩
    · exact h.whole v hv hs
    · exact h.whole w hold hs
  -- where the mappings are
  · rw [hvmas] at hw
    rcases hmem w hw with rfl | ⟨-, hold⟩
    · exact ⟨haligned, hend⟩
    · exact h.user w hold hs
  -- one `[vdso]`
  · rw [hvmas] at hw hu
    rcases hmem w hw with rfl | ⟨hwv, hwold⟩
    · rcases hmem u hu with rfl | ⟨huv, huold⟩
      · rfl
      · exact absurd hwk (hvdso u huold huv huk)
    · rcases hmem u hu with rfl | ⟨-, huold⟩
      · exact absurd huk (hvdso w hwold hwv hwk)
      · exact h.one w hwold u huold hwk huk
  -- the context
  · rw [hvmas] at hw
    rcases hmem w hw with rfl | ⟨hwv, hold⟩
    · have hkind : v.mapping = .vdso := hk
      rw [hkind]
      rfl
    · have hother := hvdso w hold hwv hk
      have hsame : ∀ mm : MapState, (v.mapping.mremap newStart mm).vdso = mm.vdso := by
        intro mm
        cases hkind : v.mapping with
        | vdso => exact absurd hkind hother
        | _ => rfl
      rw [hsame]
      exact h.vdso w hold hk

/-- **One step** of user space. -/
theorem Moved.step (h : Moved taskSize vtask image mm) (hwhole : Whole doMunmap) {l : MoveAction}
    (hstep : moveStep taskSize doMunmap mm l = some mm') : Moved taskSize vtask image mm' := by
  cases l with
  | munmap start len =>
    cases hstep
    exact h.subset (hwhole mm.vmas start len)
  | mremap v newStart =>
    simp only [moveStep, Option.ite_none_right_eq_some, Option.some.injEq] at hstep
    obtain ⟨⟨hv, hfits⟩, rfl⟩ := hstep
    exact h.mremap hv hfits

/-- A call of `map_vdso` that returns 0 has installed all three areas. -/
theorem mapVdso_of_zero {x : MapInput} (hlt : x.addr < 2 ^ 64) (hpage : x.addr % pageSize = 0)
    (hok : (mapVdso doMunmap image x mm).1 = 0) :
    (mapVdso doMunmap image x mm).2 =
      { vmas := insert (vtaskVma x.addr) (insert (vvarVma image x.addr)
          (insert (vdsoVma image x.addr) mm.vmas))
        vdso := (vdsoVma image x.addr).start, vdsoImage := some image
        vtask := (vtaskVma x.addr).start } := by
  obtain ⟨hlock, hvdso, hvvar, hvtask⟩ := (mapVdso_eq_zero_iff hlt hpage).mp hok
  unfold mapVdso
  simp only [isErrValue_shifted_of_page hlt hpage, hlock, hvdso, hvvar, hvtask,
    Bool.false_eq_true, if_false]

/-- The areas as `map_vdso` leaves them. -/
theorem moved_mapVdso {x : MapInput} (hlt : x.addr < 2 ^ 64) (hpage : x.addr % pageSize = 0)
    (hfresh : ¬ mm.HasSpecial)
    (hok : (mapVdso doMunmap image x mm).1 = 0)
    (hplace : ∀ v ∈ areas image x.addr, Removable taskSize v) :
    Moved taskSize (vtaskVma x.addr).start image (mapVdso doMunmap image x mm).2 := by
  rw [mapVdso_of_zero hlt hpage hok]
  have hmem : ∀ v ∈ insert (vtaskVma x.addr) (insert (vvarVma image x.addr)
      (insert (vdsoVma image x.addr) mm.vmas)), v.mapping.Special → v ∈ areas image x.addr := by
    intro v hv hspecial
    simp only [areas, Finset.mem_insert, Finset.mem_singleton] at hv ⊢
    -- one of the three, or a mapping that was there before and is not special
    rcases hv with rfl | rfl | rfl | hold
    · exact Or.inr (Or.inr rfl)
    · exact Or.inr (Or.inl rfl)
    · exact Or.inl rfl
    · exact absurd ⟨v, hold, hspecial⟩ hfresh
  have hlens : ∀ v ∈ areas image x.addr, v.len = image.lenOf v.mapping := by
    intro v hv
    simp only [areas, Finset.mem_insert, Finset.mem_singleton] at hv
    rcases hv with rfl | rfl | rfl <;> rfl
  have hvdso : ∀ v ∈ areas image x.addr, v.mapping = .vdso → v = vdsoVma image x.addr := by
    intro v hv hk
    simp only [areas, Finset.mem_insert, Finset.mem_singleton] at hv
    rcases hv with rfl | rfl | rfl
    · rfl
    · cases hk
    · cases hk
  refine ⟨fun v hv hs => hlens v (hmem v hv hs), fun v hv hs => ?_, fun v hv w hw hvk hwk => ?_,
    fun v hv hk => ?_, rfl, rfl⟩
  · obtain ⟨haligned, -, hend⟩ := hplace v (hmem v hv hs)
    exact ⟨haligned, hend⟩
  · rw [hvdso v (hmem v hv (Or.inl hvk)) hvk, hvdso w (hmem w hw (Or.inl hwk)) hwk]
  · rw [hvdso v (hmem v hv (Or.inl hk)) hk]

/-- The page in front of the vDSO data, for a `[vdso]` anywhere in user space. -/
theorem vinfoAddr_archGetVdsoData {v : Vma} {vdataOff : Nat} (haligned : v.start % pageSize = 0)
    (hoff : vdataOff < pageSize) (hvvar : image.vvarLen ≤ 2 ^ 64) :
    vinfoAddr (archGetVdsoData image v vdataOff) =
      (v.start + (2 ^ 64 - image.vvarLen) + (2 ^ 64 - pageSize)) % 2 ^ 64 := by
  have hvvarAligned := image.vvarLen_aligned
  simp only [vinfoAddr, archGetVdsoData, pageSize] at *
  omega

/-- The record is found exactly if the distance is right. -/
theorem findsInfo_iff {v w : Vma} {vdataOff : Nat} (hoff : vdataOff < pageSize)
    (htask : taskSize ≤ 2 ^ 47) (hvvar : image.vvarLen ≤ 2 ^ 47)
    (hv : v.start % pageSize = 0 ∧ v.start + v.len ≤ taskSize)
    (hw : w.start % pageSize = 0 ∧ w.start + w.len ≤ taskSize) (hlen : w.len = vtaskLen) :
    FindsInfo image v w vdataOff ↔ v.start = w.start + vtaskLen + image.vvarLen := by
  have hvvarAligned := image.vvarLen_aligned
  unfold FindsInfo
  rw [vinfoAddr_archGetVdsoData hv.1 hoff (by omega), hlen]
  simp only [Vma.pgoff, vtaskLen, taskStructPageNumber, pageSize] at *
  omega

end

/-- For every run of `munmap` and `mremap` calls from a successful `map_vdso`: the context says
where `[vdso]` is, and of `[vtask]` where it was installed, whether or not it is still there; and
`__vdso_get_task_struct_info` finds its record in a `[vtask]` mapping if and only if `[vdso]` is at
the distance from it at which `map_vdso` placed the two. -/
theorem info_found_iff (taskSize : Nat) (htask : taskSize ≤ 2 ^ 47) (doMunmap : Munmap)
    (hwhole : Whole doMunmap) (image : VdsoImage) (hvvar : image.vvarLen ≤ 2 ^ 47) (x : MapInput)
    (hlt : x.addr < 2 ^ 64) (hpage : x.addr % pageSize = 0) (mm₀ mm : MapState)
    (hfresh : ¬ mm₀.HasSpecial)
    (hok : (mapVdso doMunmap image x mm₀).1 = 0)
    (hplace : ∀ v ∈ areas image x.addr, Removable taskSize v)
    (hreach : Reach (moveStep taskSize doMunmap) (fun _ _ => True)
      (mapVdso doMunmap image x mm₀).2 mm) (vdataOff : Nat) (hoff : vdataOff < pageSize) :
    (∀ v ∈ mm.vmas, v.mapping = .vdso → mm.vdso = v.start) ∧
      mm.vtask = (vtaskVma x.addr).start ∧
      ∀ v ∈ mm.vmas, v.mapping = .vdso → ∀ w ∈ mm.vmas, w.mapping = .vtask →
        (FindsInfo image v w vdataOff ↔ v.start = w.start + vtaskLen + image.vvarLen) := by
  have hmoved : Moved taskSize (vtaskVma x.addr).start image mm :=
    hreach.inv (moved_mapVdso hlt hpage hfresh hok hplace)
      fun _ _ _ h _ hstep => h.step hwhole hstep
  refine ⟨hmoved.vdso, hmoved.vtask, fun v hv hvk w hw hwk => ?_⟩
  have hwspecial : w.mapping.Special := Or.inr (Or.inr hwk)
  have hlen : w.len = vtaskLen := by rw [hmoved.whole w hw hwspecial, hwk]; rfl
  exact findsInfo_iff hoff htask hvvar (hmoved.user v hv (Or.inl hvk)) (hmoved.user w hw hwspecial)
    hlen

/-- `[vdso]` is moved, and `[vvar]` and `[vtask]` stay behind. -/
def moveVdsoRun : List MoveAction :=
  [.mremap (vdsoVma smallImage 65536) 1048576]

theorem info_lost_after_move :
    ∃ mm, Reach (moveStep userSize (removeWhole userSize)) (fun _ _ => True)
        (mapVdso (removeWhole userSize) smallImage ⟨false, 65536, none, none, none⟩ emptyMm).2 mm ∧
      mm.vdso = 1048576 ∧
      ∃ v ∈ mm.vmas, v.mapping = .vdso ∧ ∃ w ∈ mm.vmas, w.mapping = .vtask ∧
        ¬ FindsInfo smallImage v w 128 := by
  have hrun : (exec (moveStep userSize (removeWhole userSize)) (fun _ _ => true)
      (mapVdso (removeWhole userSize) smallImage ⟨false, 65536, none, none, none⟩ emptyMm).2
      moveVdsoRun).map (fun mm => decide (⟨1048576, smallImage.size, .vdso⟩ ∈ mm.vmas ∧
        vtaskVma 65536 ∈ mm.vmas)) = some true := by
    decide +kernel
  obtain ⟨mm, hreach, hobs⟩ := reach_of_exec_map hrun fun _ _ _ => trivial
  obtain ⟨hvdso, hvtask⟩ := of_decide_eq_true hobs
  have hplace : ∀ v ∈ areas smallImage 65536, Removable userSize v := by decide +kernel
  have hfresh : ¬ emptyMm.HasSpecial := by decide
  obtain ⟨hcontext, -, hfinds⟩ := info_found_iff userSize (by decide) (removeWhole userSize)
    (whole_removeWhole userSize) smallImage (by decide) ⟨false, 65536, none, none, none⟩
    (by decide) (by decide) emptyMm mm hfresh (by decide) hplace hreach 128 (by decide)
  refine ⟨mm, hreach, hcontext _ hvdso rfl, _, hvdso, rfl, _, hvtask, rfl, fun hfound => ?_⟩
  exact absurd ((hfinds _ hvdso rfl _ hvtask rfl).mp hfound) (by decide)

end OsHomework.Vtask
