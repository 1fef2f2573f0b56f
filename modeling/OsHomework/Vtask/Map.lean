import Mathlib.Data.Finset.Basic
import OsHomework.Vtask.Machine

/-!
# Vtask — `map_vdso`

`map_vdso` asks `get_unmapped_area` for room for `[vvar]` and `[vdso]`, moves the address up by the
length of `[vtask]`, and installs the three mappings, taking back the earlier ones when a later one
fails. The address is moved before it is tested for an error. Addresses are 64-bit numbers, with
every sum taken modulo `2 ^ 64`.

`_install_special_mapping` and `do_munmap` are not part of the repository. Each call of the first
succeeds or fails as the caller of the model says; the second is a parameter, of which `MunmapSpec`
says what `map_vdso` relies on.

* **`mapVdso_ok_iff`** — on which inputs a failed call leaves the mm as it was and an error of
  `get_unmapped_area` is returned.
-/

namespace OsHomework.Vtask

/-! ## Mappings

An mm is the set of its mappings, together with the fields of its context. Lengths and starts are
those of a 64-bit kernel. Errors are the last 4095 values of an unsigned long, and `map_vdso`
returns an `int`. -/

/-- Which `vm_special_mapping` a mapping belongs to. -/
inductive Mapping where
  | vdso
  | vvar
  | vtask
  | other (id : Nat)
  deriving DecidableEq

structure Vma where
  start : Nat
  len : Nat
  mapping : Mapping
  deriving DecidableEq

/-- The two mappings share no address. -/
def Vma.Apart (v w : Vma) : Prop := v.start + v.len ≤ w.start ∨ w.start + w.len ≤ v.start

instance (v w : Vma) : Decidable (v.Apart w) :=
  inferInstanceAs (Decidable (_ ∨ _))

/-- `struct vdso_image`: `size` is a multiple of the page size, `sym_vvar_start` the negative offset
to the `[vvar]` area in front, here with its sign changed. -/
structure VdsoImage where
  size : Nat
  vvarLen : Nat
  size_pos : 0 < size
  size_aligned : size % pageSize = 0
  vvarLen_pos : 0 < vvarLen
  vvarLen_aligned : vvarLen % pageSize = 0

/-- The mappings of an mm, and the fields of its context that `map_vdso` sets. -/
structure MapState where
  vmas : Finset Vma
  vdso : Nat
  vdsoImage : Option VdsoImage
  vtask : Nat

/-- An error number of the kernel's error range. -/
structure ErrorNumber where
  val : Nat
  pos : 1 ≤ val
  le : val ≤ 4095

/-- `IS_ERR_VALUE` -/
def isErrValue (x : Nat) : Bool := 2 ^ 64 - 4095 ≤ x

/-- An error number as a 64-bit value. -/
def ErrorNumber.value (e : ErrorNumber) : Nat := 2 ^ 64 - e.val

/-- A 64-bit value assigned to an `int`. -/
def toInt (x : Nat) : Int := (x : Int).bmod (2 ^ 32)

/-! ## `map_vdso`

`addr` is the address that `get_unmapped_area` has returned, `shifted addr` what the variable `addr`
holds afterwards. All three mappings are given relative to the latter. -/

/-- `vtask_len` -/
def vtaskLen : Nat := taskStructPageNumber * pageSize + pageSize

/-- The address after `addr += vtask_len`. -/
def shifted (addr : Nat) : Nat := (addr + vtaskLen) % 2 ^ 64

/-- The three mappings for the address that `get_unmapped_area` returned. -/
def vdsoVma (image : VdsoImage) (addr : Nat) : Vma :=
  ⟨(shifted addr + image.vvarLen) % 2 ^ 64, image.size, .vdso⟩

def vvarVma (image : VdsoImage) (addr : Nat) : Vma := ⟨shifted addr, image.vvarLen, .vvar⟩

def vtaskVma (addr : Nat) : Vma := ⟨(shifted addr + (2 ^ 64 - vtaskLen)) % 2 ^ 64, vtaskLen, .vtask⟩

/-- What the kernel does during a call: the lock is given up because of a signal, the value of
`get_unmapped_area`, and the errors of the three installations. -/
structure MapInput where
  interrupted : Bool
  addr : Nat
  installVdso : Option ErrorNumber
  installVvar : Option ErrorNumber
  installVtask : Option ErrorNumber

/-- `do_munmap` as a function on the mappings, given the start and the length. -/
abbrev Munmap := Finset Vma → Nat → Nat → Finset Vma

/-- The value returned and the mm as the call leaves it. -/
def mapVdso (doMunmap : Munmap) (image : VdsoImage) (x : MapInput) (mm : MapState) :
    Int × MapState :=
  -- `mmap_write_lock_killable` fails with `-EINTR`
  if x.interrupted then (-4, mm)
  -- `IS_ERR_VALUE(addr)`, behind the addition
  else if isErrValue (shifted x.addr) then (toInt (shifted x.addr), mm)
  else
    let vdso := vdsoVma image x.addr
    let vvar := vvarVma image x.addr
    let vtask := vtaskVma x.addr
    match x.installVdso with
    | some e => (-e.val, mm)
    | none =>
      let vmas := insert vdso mm.vmas
      match x.installVvar with
      -- `[vdso]` is taken back
      | some e => (-e.val, { mm with vmas := doMunmap vmas vdso.start vdso.len })
      | none =>
        let vmas := insert vvar vmas
        match x.installVtask with
        -- both are taken back
        | some e =>
          let vmas := doMunmap vmas vdso.start vdso.len
          (-e.val, { mm with vmas := doMunmap vmas vvar.start vvar.len })
        | none =>
          (0, { vmas := insert vtask vmas, vdso := vdso.start, vdsoImage := some image,
                vtask := vtask.start })

/-! ## What the rest of the kernel does

`do_munmap` has a result that `map_vdso` ignores. If it refuses the range, the mapping stays
although the call has failed. -/

/-- A range that `do_munmap` accepts: it refuses (`-EINVAL`) a start inside a page, an empty range
and one that ends behind the user addresses. -/
def Removable (taskSize : Nat) (v : Vma) : Prop :=
  v.start % pageSize = 0 ∧ 0 < v.len ∧ v.start + v.len ≤ taskSize

instance (taskSize : Nat) (v : Vma) : Decidable (Removable taskSize v) :=
  inferInstanceAs (Decidable (_ ∧ _ ∧ _))

/-- No mapping has an address of `v`. -/
def Clear (vmas : Finset Vma) (v : Vma) : Prop := ∀ w ∈ vmas, w.Apart v

/-- What `map_vdso` relies on: a refused `do_munmap` changes nothing, and one over the whole of a
mapping that shares no address with others removes this mapping. -/
structure MunmapSpec (taskSize : Nat) (doMunmap : Munmap) : Prop where
  refused : ∀ vmas v, ¬ Removable taskSize v → doMunmap vmas v.start v.len = vmas
  removes : ∀ vmas v, Removable taskSize v → Clear vmas v →
    doMunmap (insert v vmas) v.start v.len = vmas

/-- What `get_unmapped_area` returns is an error or the address of a page, and an installation
succeeds only where there is no mapping. -/
structure MapInput.Possible (image : VdsoImage) (mm : MapState) (x : MapInput) : Prop where
  addr_lt : x.addr < 2 ^ 64
  addr_ok : isErrValue x.addr ∨ x.addr % pageSize = 0
  vdso_clear : x.installVdso = none → Clear mm.vmas (vdsoVma image x.addr)
  vvar_clear : x.installVdso = none → x.installVvar = none →
    Clear (insert (vdsoVma image x.addr) mm.vmas) (vvarVma image x.addr)

/-! ## Failed calls

An error of `get_unmapped_area` is a number near `2 ^ 64`. Moved up by `vtask_len` it wraps to a
small address that does not start a page, so the test misses it and the installations are tried
there. What was installed can then not be taken back. -/

/-- A call that fails leaves the mm as it was, and an error of `get_unmapped_area` is returned
without a mapping installed. -/
structure MapVdsoOk (doMunmap : Munmap) (image : VdsoImage) (x : MapInput) (mm : MapState) :
    Prop where
  unchanged : (mapVdso doMunmap image x mm).1 ≠ 0 → (mapVdso doMunmap image x mm).2 = mm
  error : x.interrupted = false → isErrValue x.addr →
    (mapVdso doMunmap image x mm).1 = toInt x.addr ∧ (mapVdso doMunmap image x mm).2 = mm

section Rollback

variable {taskSize : Nat} {doMunmap : Munmap} {image : VdsoImage} {x : MapInput} {mm : MapState}
  {vmas : Finset Vma} {v w : Vma}

/-- A mapping that has addresses is not among those it is clear of. -/
theorem Clear.notMem (h : Clear vmas v) (hlen : 0 < v.len) : v ∉ vmas := by
  intro hv
  rcases h v hv with hend | hend
  · omega
  · omega

theorem Vma.Apart.symm (h : v.Apart w) : w.Apart v := Or.symm h

/-- Taking back one mapping restores the mappings exactly if the range is accepted. -/
theorem MunmapSpec.restores_iff (h : MunmapSpec taskSize doMunmap) (hclear : Clear vmas v)
    (hlen : 0 < v.len) :
    doMunmap (insert v vmas) v.start v.len = vmas ↔ Removable taskSize v := by
  constructor
  · intro hrestored
    by_contra hnot
    rw [h.refused _ v hnot] at hrestored
    exact hclear.notMem hlen (hrestored ▸ Finset.mem_insert_self v vmas)
  · exact fun hremovable => h.removes vmas v hremovable hclear

/-- The same for two mappings, taken back one after the other. -/
theorem MunmapSpec.restores_both_iff (h : MunmapSpec taskSize doMunmap) (hv : Clear vmas v)
    (hw : Clear (insert v vmas) w) (hvlen : 0 < v.len) (hwlen : 0 < w.len) :
    doMunmap (doMunmap (insert w (insert v vmas)) v.start v.len) w.start w.len = vmas ↔
      Removable taskSize v ∧ Removable taskSize w := by
  -- the two mappings are apart from each other, whichever was installed first
  have hwv : Clear (insert w vmas) v := by
    intro u hu
    rcases Finset.mem_insert.mp hu with rfl | hu
    · exact (hw v (Finset.mem_insert_self v vmas)).symm
    · exact hv u hu
  have hw' : Clear vmas w := fun u hu => hw u (Finset.mem_insert_of_mem hu)
  by_cases hremovable : Removable taskSize v
  · rw [Finset.insert_comm, h.removes _ v hremovable hwv, h.restores_iff hw' hwlen]
    exact ⟨fun hr => ⟨hremovable, hr⟩, fun hr => hr.2⟩
  · -- `v` stays behind, whatever the second call does
    refine ⟨fun hrestored => absurd ?_ (hv.notMem hvlen), fun hr => absurd hr.1 hremovable⟩
    rw [h.refused _ v hremovable] at hrestored
    by_cases hr : Removable taskSize w
    · rw [h.removes _ w hr hw] at hrestored
      exact hrestored ▸ Finset.mem_insert_self v vmas
    · rw [h.refused _ w hr] at hrestored
      exact hrestored ▸ Finset.mem_insert_of_mem (Finset.mem_insert_self v vmas)

/-- The test for an error never succeeds: an error moved up by `vtask_len` is a small number, and
the address of a page stays one. -/
theorem not_isErrValue_shifted {addr : Nat} (hlt : addr < 2 ^ 64)
    (h : isErrValue addr ∨ addr % pageSize = 0) : isErrValue (shifted addr) = false := by
  simp only [isErrValue, decide_eq_true_eq, pageSize] at h
  refine decide_eq_false ?_
  simp only [shifted, vtaskLen, taskStructPageNumber, pageSize]
  omega

/-- Moved errors do not start a page. -/
theorem not_removable_of_isErrValue {addr : Nat} (hlt : addr < 2 ^ 64) (h : isErrValue addr) :
    ¬ Removable taskSize (vdsoVma image addr) ∧ ¬ Removable taskSize (vvarVma image addr) := by
  have haligned := image.vvarLen_aligned
  simp only [isErrValue, decide_eq_true_eq] at h
  constructor
  · rintro ⟨hstart, -⟩
    simp only [vdsoVma, shifted, vtaskLen, taskStructPageNumber, pageSize] at hstart haligned
    omega
  · rintro ⟨hstart, -⟩
    simp only [vvarVma, shifted, vtaskLen, taskStructPageNumber, pageSize] at hstart
    omega

/-- The mm with other mappings is the mm only if the mappings are the same. -/
theorem MapState.with_vmas_eq_iff : { mm with vmas := vmas } = mm ↔ vmas = mm.vmas := by
  constructor
  · exact fun h => congrArg MapState.vmas h
  · rintro rfl
    rfl

/-- A call that fails with `e`. -/
theorem mapVdsoOk_of_failed {e : ErrorNumber} {mm' : MapState} (hlock : x.interrupted = false)
    (hcall : mapVdso doMunmap image x mm = (-(e.val : Int), mm')) :
    MapVdsoOk doMunmap image x mm ↔
      mm' = mm ∧ (isErrValue x.addr → -(e.val : Int) = toInt x.addr) := by
  have hne : -(e.val : Int) ≠ 0 := by
    have hpos := e.pos
    omega
  constructor
  · intro hok
    have hunchanged := hok.unchanged
    have herror := hok.error hlock
    rw [hcall] at hunchanged herror
    exact ⟨hunchanged hne, fun herr => (herror herr).1⟩
  · rintro ⟨rfl, herror⟩
    refine ⟨fun _ => by rw [hcall], fun _ herr => ?_⟩
    rw [hcall]
    exact ⟨herror herr, rfl⟩

/-- The call when the lock is taken and the first installation fails. -/
theorem mapVdso_of_vdso {e : ErrorNumber} (hpossible : x.Possible image mm)
    (hlock : x.interrupted = false) (hvdso : x.installVdso = some e) :
    mapVdso doMunmap image x mm = (-(e.val : Int), mm) := by
  simp only [mapVdso, hlock, not_isErrValue_shifted hpossible.addr_lt hpossible.addr_ok,
    Bool.false_eq_true, if_false, hvdso]

/-- The call when the second one fails. -/
theorem mapVdso_of_vvar {e : ErrorNumber} (hpossible : x.Possible image mm)
    (hlock : x.interrupted = false) (hvdso : x.installVdso = none)
    (hvvar : x.installVvar = some e) :
    mapVdso doMunmap image x mm = (-(e.val : Int),
      { mm with
        vmas := doMunmap (insert (vdsoVma image x.addr) mm.vmas)
          (vdsoVma image x.addr).start (vdsoVma image x.addr).len }) := by
  simp only [mapVdso, hlock, not_isErrValue_shifted hpossible.addr_lt hpossible.addr_ok,
    Bool.false_eq_true, if_false, hvdso, hvvar]

/-- The call when the third one fails. -/
theorem mapVdso_of_vtask {e : ErrorNumber} (hpossible : x.Possible image mm)
    (hlock : x.interrupted = false) (hvdso : x.installVdso = none) (hvvar : x.installVvar = none)
    (hvtask : x.installVtask = some e) :
    mapVdso doMunmap image x mm = (-(e.val : Int),
      { mm with
        vmas := doMunmap (doMunmap
          (insert (vvarVma image x.addr) (insert (vdsoVma image x.addr) mm.vmas))
          (vdsoVma image x.addr).start (vdsoVma image x.addr).len)
          (vvarVma image x.addr).start (vvarVma image x.addr).len }) := by
  simp only [mapVdso, hlock, not_isErrValue_shifted hpossible.addr_lt hpossible.addr_ok,
    Bool.false_eq_true, if_false, hvdso, hvvar, hvtask]

/-- The call when all three succeed returns 0. -/
theorem mapVdso_installed (hpossible : x.Possible image mm) (hlock : x.interrupted = false)
    (hvdso : x.installVdso = none) (hvvar : x.installVvar = none)
    (hvtask : x.installVtask = none) : (mapVdso doMunmap image x mm).1 = 0 := by
  simp only [mapVdso, hlock, not_isErrValue_shifted hpossible.addr_lt hpossible.addr_ok,
    Bool.false_eq_true, if_false, hvdso, hvvar, hvtask]

/-- An error is not 0 as an `int` either. -/
theorem toInt_ne_zero {addr : Nat} (hlt : addr < 2 ^ 64) (h : isErrValue addr) :
    toInt addr ≠ 0 := by
  simp only [isErrValue, decide_eq_true_eq] at h
  intro hzero
  have hdvd := Int.dvd_of_bmod_eq_zero hzero
  omega

end Rollback

/-- The answers of the kernel under which a failed call is undone and an error returned. An error of
`get_unmapped_area` has to be met again, as the error of the first installation; mappings that are
taken back have to lie where `do_munmap` accepts them. -/
def MapInput.Recoverable (taskSize : Nat) (image : VdsoImage) (x : MapInput) : Prop :=
  match x.installVdso, x.installVvar, x.installVtask with
  | some e, _, _ => isErrValue x.addr → -(e.val : Int) = toInt x.addr
  | none, some _, _ => isErrValue x.addr = false ∧ Removable taskSize (vdsoVma image x.addr)
  | none, none, some _ =>
    isErrValue x.addr = false ∧ Removable taskSize (vdsoVma image x.addr) ∧
      Removable taskSize (vvarVma image x.addr)
  | none, none, none => isErrValue x.addr = false

/-- For every image, mm and answer of the kernel: a failed call leaves the mm as it was and an error
of `get_unmapped_area` is returned with nothing installed, if and only if the call is interrupted
before it asks, or the answers are recoverable. -/
theorem mapVdso_ok_iff (taskSize : Nat) (doMunmap : Munmap) (image : VdsoImage) (x : MapInput)
    (mm : MapState) (hmunmap : MunmapSpec taskSize doMunmap) (hpossible : x.Possible image mm) :
    MapVdsoOk doMunmap image x mm ↔ x.interrupted = true ∨ x.Recoverable taskSize image := by
  have hbad : isErrValue x.addr → ¬ Removable taskSize (vdsoVma image x.addr) := fun herr =>
    (not_removable_of_isErrValue hpossible.addr_lt herr).1
  cases hlock : x.interrupted with
  -- the lock was not taken
  | true =>
    have hcall : mapVdso doMunmap image x mm = (-4, mm) := by
      rw [mapVdso, hlock, if_pos rfl]
    refine iff_of_true ⟨fun _ => by rw [hcall], fun hnot => ?_⟩ (Or.inl rfl)
    rw [hlock] at hnot
    cases hnot
  | false =>
    simp only [Bool.false_eq_true, false_or]
    cases hvdso : x.installVdso with
    | some e =>
      -- nothing is installed; only the number returned can be wrong
      rw [mapVdsoOk_of_failed hlock (mapVdso_of_vdso hpossible hlock hvdso)]
      simp only [MapInput.Recoverable, hvdso, true_and]
    | none =>
      have hclear := hpossible.vdso_clear hvdso
      cases hvvar : x.installVvar with
      -- `[vvar]` fails, with `[vdso]` to be taken back
      | some e =>
        rw [mapVdsoOk_of_failed hlock (mapVdso_of_vvar hpossible hlock hvdso hvvar),
          MapState.with_vmas_eq_iff, hmunmap.restores_iff hclear image.size_pos]
        simp only [MapInput.Recoverable, hvdso, hvvar]
        constructor
        · exact fun h => ⟨Bool.eq_false_iff.mpr fun herr => hbad herr h.1, h.1⟩
        · exact fun h => ⟨h.2, fun herr => absurd h.2 (hbad herr)⟩
      | none =>
        cases hvtask : x.installVtask with
        -- `[vtask]` fails, with both to be taken back
        | some e =>
          rw [mapVdsoOk_of_failed hlock (mapVdso_of_vtask hpossible hlock hvdso hvvar hvtask),
            MapState.with_vmas_eq_iff, hmunmap.restores_both_iff hclear
              (hpossible.vvar_clear hvdso hvvar) image.size_pos image.vvarLen_pos]
          simp only [MapInput.Recoverable, hvdso, hvvar, hvtask]
          constructor
          · exact fun h => ⟨Bool.eq_false_iff.mpr fun herr => hbad herr h.1.1, h.1⟩
          · exact fun h => ⟨h.2, fun herr => absurd h.2.1 (hbad herr)⟩
        | none =>
          -- 0 is returned: right unless there was an error
          have hret : (mapVdso doMunmap image x mm).1 = 0 :=
            mapVdso_installed hpossible hlock hvdso hvvar hvtask
          simp only [MapInput.Recoverable, hvdso, hvvar, hvtask]
          constructor
          · refine fun hok => Bool.eq_false_iff.mpr fun herr => ?_
            refine toInt_ne_zero hpossible.addr_lt herr ?_
            rw [← (hok.error hlock herr).1, hret]
          · refine fun hno => ⟨fun hne => absurd hret hne, fun _ herr => ?_⟩
            rw [hno] at herr
            cases herr

/-- `do_munmap` that removes every mapping it meets. -/
def removeRange (taskSize : Nat) : Munmap := fun vmas start len =>
  if Removable taskSize ⟨start, len, .other 0⟩ then
    vmas.filter fun w => w.Apart ⟨start, len, .other 0⟩
  else vmas

theorem removeRange_spec (taskSize : Nat) : MunmapSpec taskSize (removeRange taskSize) where
  refused := fun vmas v hnot => if_neg hnot
  removes := by
    intro vmas v hremovable hclear
    have hrange : Removable taskSize ⟨v.start, v.len, .other 0⟩ := hremovable
    have hself : ¬ v.Apart ⟨v.start, v.len, .other 0⟩ := by
      have hlen := hremovable.2.1
      simp only [Vma.Apart]
      omega
    rw [removeRange, if_pos hrange, Finset.filter_insert, if_neg hself]
    exact Finset.filter_true_of_mem hclear

/-- An image of two pages with four pages of `[vvar]`, an mm without mappings, and the size of the
user addresses. -/
def smallImage : VdsoImage :=
  ⟨8192, 16384, Nat.zero_lt_succ _, rfl, Nat.zero_lt_succ _, rfl⟩

def emptyMm : MapState := ⟨∅, 0, none, 0⟩

def userSize : Nat := 2 ^ 47 - 4096

def enomem : ErrorNumber := ⟨12, Nat.succ_le_succ (Nat.zero_le _), Nat.le_of_ble_eq_true rfl⟩

/-- The third installation fails: the first two are taken back. -/
theorem mapVdso_ok_after_vtask :
    MapVdsoOk (removeRange userSize) smallImage ⟨false, 65536, none, none, some enomem⟩ emptyMm :=
  (mapVdso_ok_iff userSize (removeRange userSize) smallImage _ emptyMm (removeRange_spec userSize)
    ⟨by decide, Or.inr rfl, fun _ _ hw => absurd hw (Finset.notMem_empty _),
      fun _ _ w hw => by
        rw [emptyMm, Finset.insert_empty, Finset.mem_singleton] at hw
        rw [hw]
        decide⟩).mpr
    (Or.inr ⟨rfl, by decide, by decide⟩)

/-- `get_unmapped_area` returns `-ENOMEM`, which becomes the address 24564: the mappings are
installed there and 0 is returned. -/
theorem mapVdso_misses_error :
    (mapVdso (removeRange userSize) smallImage ⟨false, 2 ^ 64 - 12, none, none, none⟩ emptyMm).1 =
        0 ∧
      ¬ MapVdsoOk (removeRange userSize) smallImage ⟨false, 2 ^ 64 - 12, none, none, none⟩
        emptyMm := by
  refine ⟨by decide, fun hok => ?_⟩
  have hret := (hok.error rfl (by decide)).1
  revert hret
  decide

end OsHomework.Vtask
