import OsHomework.Vtask.Map

/-!
# Vtask — the layout `map_vdso` makes and the room it asked for

`map_vdso` (and `map_vdso_randomized` before it) reckons with `image->size - image->sym_vvar_start`
bytes, the lengths of `[vdso]` and `[vvar]`. `[vtask]` then takes the first `vtask_len` bytes of
what was found, and the other two are moved up by as much.

* **`adjacent_of_room`** — the three areas are aligned and adjacent, and together end
  `vtask_len` behind the end of the interval that was reported as free.
* **`mapVdso_layout`** — so no successful call keeps to that interval; what it fills is longer by
  `vtask_len`.
-/

namespace OsHomework.Vtask

/-- `image->size - image->sym_vvar_start`, the length passed to `get_unmapped_area`. -/
def requestedLen (image : VdsoImage) : Nat := image.size + image.vvarLen

/-- The three areas start at pages, `[vvar]` follows `[vtask]` and `[vdso]` follows `[vvar]`. -/
structure Adjacent (vtask vvar vdso : Vma) : Prop where
  vtask_aligned : vtask.start % pageSize = 0
  vvar_aligned : vvar.start % pageSize = 0
  vdso_aligned : vdso.start % pageSize = 0
  vtask_vvar : vtask.start + vtask.len = vvar.start
  vvar_vdso : vvar.start + vvar.len = vdso.start

/-- Areas one behind the other share no address. -/
theorem Adjacent.apart {vtask vvar vdso : Vma} (h : Adjacent vtask vvar vdso) :
    vtask.Apart vvar ∧ vvar.Apart vdso ∧ vtask.Apart vdso := by
  have hfirst := h.vtask_vvar
  have hsecond := h.vvar_vdso
  unfold Vma.Apart
  omega

/-- The area lies in the interval of length `len` at `start`. -/
def Vma.Inside (v : Vma) (start len : Nat) : Prop :=
  start ≤ v.start ∧ v.start + v.len ≤ start + len

/-- What is wanted in an interval: aligned, disjoint and adjacent areas that lie in it. -/
structure AreaLayout (start len : Nat) (vtask vvar vdso : Vma) : Prop
    extends Adjacent vtask vvar vdso where
  apart : vtask.Apart vvar ∧ vvar.Apart vdso ∧ vtask.Apart vdso
  vtask_inside : vtask.Inside start len
  vvar_inside : vvar.Inside start len
  vdso_inside : vdso.Inside start len

/-- Aligned, disjoint and adjacent areas that fill the `len` bytes from `start` on. -/
structure Filled (start len : Nat) (vtask vvar vdso : Vma) : Prop
    extends Adjacent vtask vvar vdso where
  apart : vtask.Apart vvar ∧ vvar.Apart vdso ∧ vtask.Apart vdso
  starts : vtask.start = start
  ends : vdso.start + vdso.len = start + len

/-- A call that returns 0 has installed three areas in the wanted layout, in the interval that
`get_unmapped_area` reported as free. -/
def LayoutOk (doMunmap : Munmap) (image : VdsoImage) (x : MapInput) (mm : MapState) : Prop :=
  (mapVdso doMunmap image x mm).1 = 0 →
    (mapVdso doMunmap image x mm).2.vmas =
        insert (vtaskVma x.addr) (insert (vvarVma image x.addr)
          (insert (vdsoVma image x.addr) mm.vmas)) ∧
      AreaLayout x.addr (requestedLen image) (vtaskVma x.addr) (vvarVma image x.addr)
        (vdsoVma image x.addr)

/-- The answers of the kernel with which the call installs the three areas. -/
def MapInput.Installs (x : MapInput) : Prop :=
  x.interrupted = false ∧ x.installVdso = none ∧ x.installVvar = none ∧ x.installVtask = none

section

variable {doMunmap : Munmap} {image : VdsoImage} {x : MapInput} {mm : MapState}

/-- The address of a page stays one when it is moved. -/
theorem isErrValue_shifted_of_page (hlt : x.addr < 2 ^ 64) (hpage : x.addr % pageSize = 0) :
    isErrValue (shifted x.addr) = false :=
  not_isErrValue_shifted hlt (Or.inr hpage)

/-- 0 is returned exactly when the three areas are installed. -/
theorem mapVdso_eq_zero_iff (hlt : x.addr < 2 ^ 64) (hpage : x.addr % pageSize = 0) :
    (mapVdso doMunmap image x mm).1 = 0 ↔ x.Installs := by
  have herrno : ∀ e : ErrorNumber, -(e.val : Int) ≠ 0 := by
    intro e
    have hpos := e.pos
    omega
  unfold MapInput.Installs mapVdso
  simp only [isErrValue_shifted_of_page hlt hpage, Bool.false_eq_true, if_false]
  cases x.interrupted with
  | true => simp
  | false =>
    cases x.installVdso with
    | some e => simpa using herrno e
    | none =>
      cases x.installVvar with
      | some e => simpa using herrno e
      | none =>
        cases x.installVtask with
        | some e => simpa using herrno e
        | none => simp

theorem mapVdso_vmas_of_installs (hlt : x.addr < 2 ^ 64) (hpage : x.addr % pageSize = 0)
    (h : x.Installs) : (mapVdso doMunmap image x mm).2.vmas =
      insert (vtaskVma x.addr) (insert (vvarVma image x.addr)
        (insert (vdsoVma image x.addr) mm.vmas)) := by
  obtain ⟨hlock, hvdso, hvvar, hvtask⟩ := h
  unfold mapVdso
  simp only [isErrValue_shifted_of_page hlt hpage, hlock, hvdso, hvvar, hvtask,
    Bool.false_eq_true, if_false]

/-- Where the areas go if the addresses do not run over the end of the 64 bits. -/
theorem starts_of_room (hroom : x.addr + vtaskLen + requestedLen image ≤ 2 ^ 64) :
    (vtaskVma x.addr).start = x.addr ∧ (vvarVma image x.addr).start = x.addr + vtaskLen ∧
      (vdsoVma image x.addr).start = x.addr + vtaskLen + image.vvarLen := by
  have hsize := image.size_pos
  unfold requestedLen at hroom
  have hshift : shifted x.addr = x.addr + vtaskLen := by
    unfold shifted
    exact Nat.mod_eq_of_lt (by omega)
  refine ⟨?_, hshift, ?_⟩
  · simp only [vtaskVma, hshift, vtaskLen, taskStructPageNumber, pageSize] at hroom ⊢
    omega
  · simp only [vdsoVma, hshift]
    exact Nat.mod_eq_of_lt (by omega)

/-- The areas of a page are one behind the other from it on, and end `vtask_len` behind the
requested interval. -/
theorem adjacent_of_room (hpage : x.addr % pageSize = 0)
    (hroom : x.addr + vtaskLen + requestedLen image ≤ 2 ^ 64) :
    Adjacent (vtaskVma x.addr) (vvarVma image x.addr) (vdsoVma image x.addr) ∧
      (vtaskVma x.addr).start = x.addr ∧
      (vdsoVma image x.addr).start + (vdsoVma image x.addr).len =
        x.addr + requestedLen image + vtaskLen := by
  obtain ⟨hvtask, hvvar, hvdso⟩ := starts_of_room hroom
  have haligned := image.vvarLen_aligned
  have hlen : vtaskLen % pageSize = 0 := by decide
  simp only [pageSize] at hpage haligned hlen
  refine ⟨⟨?_, ?_, ?_, ?_, ?_⟩, hvtask, ?_⟩
  · rw [hvtask]
    exact hpage
  · rw [hvvar]
    show _ % 4096 = 0
    omega
  · rw [hvdso]
    show _ % 4096 = 0
    omega
  · rw [hvtask, hvvar]
    rfl
  · rw [hvvar, hvdso]
    rfl
  · rw [hvdso]
    show x.addr + vtaskLen + image.vvarLen + image.size = x.addr + requestedLen image + vtaskLen
    unfold requestedLen
    omega

/-- Adjacent areas do not fit into the interval: `[vvar]` and `[vdso]` alone would fill it. -/
theorem not_areaLayout : ¬ AreaLayout x.addr (requestedLen image) (vtaskVma x.addr)
    (vvarVma image x.addr) (vdsoVma image x.addr) := by
  intro h
  have hlen : 0 < (vtaskVma x.addr).len := by
    show 0 < vtaskLen
    decide
  have hstart : x.addr ≤ (vtaskVma x.addr).start := h.vtask_inside.1
  have hend : (vdsoVma image x.addr).start + image.size ≤ x.addr + (image.size + image.vvarLen) :=
    h.vdso_inside.2
  have hvtask : (vtaskVma x.addr).start + (vtaskVma x.addr).len = (vvarVma image x.addr).start :=
    h.vtask_vvar
  have hvvar : (vvarVma image x.addr).start + image.vvarLen = (vdsoVma image x.addr).start :=
    h.vvar_vdso
  omega

end

/-- **The layout.** For every image, mm and page that `get_unmapped_area` returns: that a call
which returns 0 keeps to the interval it asked for holds exactly if the call does not get that far,
because it is interrupted or one of the three installations fails. A call that does get that far
fills an interval that is longer by `vtask_len`, if the 64 bits have room for it. -/
theorem mapVdso_layout (doMunmap : Munmap) (image : VdsoImage) (x : MapInput) (mm : MapState)
    (hlt : x.addr < 2 ^ 64) (hpage : x.addr % pageSize = 0) :
    (LayoutOk doMunmap image x mm ↔ ¬ x.Installs) ∧
      (x.Installs → x.addr + vtaskLen + requestedLen image ≤ 2 ^ 64 →
        (mapVdso doMunmap image x mm).1 = 0 ∧
        (mapVdso doMunmap image x mm).2.vmas =
          insert (vtaskVma x.addr) (insert (vvarVma image x.addr)
            (insert (vdsoVma image x.addr) mm.vmas)) ∧
        Filled x.addr (requestedLen image + vtaskLen) (vtaskVma x.addr) (vvarVma image x.addr)
          (vdsoVma image x.addr)) := by
  have hret : (mapVdso doMunmap image x mm).1 = 0 ↔ x.Installs := mapVdso_eq_zero_iff hlt hpage
  refine ⟨⟨?_, ?_⟩, ?_⟩
  · exact fun hok hinstalls => not_areaLayout (hok (hret.mpr hinstalls)).2
  · exact fun hnot hzero => absurd (hret.mp hzero) hnot
  · intro hinstalls hroom
    obtain ⟨hadjacent, hstart, hend⟩ := adjacent_of_room hpage hroom
    refine ⟨hret.mpr hinstalls, mapVdso_vmas_of_installs hlt hpage hinstalls, ?_⟩
    exact ⟨hadjacent, hadjacent.apart, hstart, hend.trans (Nat.add_assoc _ _ _)⟩

/-- A call whose last installation fails, and one in which all three succeed. -/
theorem mapVdso_layout_small :
    LayoutOk (removeRange userSize) smallImage ⟨false, 65536, none, none, some enomem⟩ emptyMm ∧
      Filled 65536 49152 (vtaskVma 65536) (vvarVma smallImage 65536)
        (vdsoVma smallImage 65536) := by
  constructor
  · apply (mapVdso_layout (removeRange userSize) smallImage
      ⟨false, 65536, none, none, some enomem⟩ emptyMm (by decide) (by decide)).1.mpr
    exact fun h => Option.some_ne_none _ h.2.2.2
  · exact ((mapVdso_layout (removeRange userSize) smallImage ⟨false, 65536, none, none, none⟩
      emptyMm (by decide) (by decide)).2 ⟨rfl, rfl, rfl, rfl⟩ (by decide)).2.2

/-- With the small image `get_unmapped_area` is asked for 24576 bytes. If it finds them at 65536,
the call returns 0, and `[vdso]` starts 16384 bytes behind the interval. -/
theorem layout_overruns :
    (mapVdso (removeRange userSize) smallImage ⟨false, 65536, none, none, none⟩ emptyMm).1 = 0 ∧
      (vdsoVma smallImage 65536).start = 65536 + requestedLen smallImage + 16384 ∧
      ¬ LayoutOk (removeRange userSize) smallImage ⟨false, 65536, none, none, none⟩ emptyMm := by
  refine ⟨by decide, by decide, fun hok => ?_⟩
  have hinside : (vdsoVma smallImage 65536).Inside 65536 (requestedLen smallImage) :=
    (hok (by decide)).2.vdso_inside
  exact absurd hinside.2 (by decide)

end OsHomework.Vtask
