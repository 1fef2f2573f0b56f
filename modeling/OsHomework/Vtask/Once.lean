import Mathlib.Data.Finset.Card
import OsHomework.Lib.Reach
import OsHomework.Vtask.Map

/-!
# Vtask — mapping the areas again

`map_vdso_once` refuses if a `[vdso]` or a `[vvar]` mapping is left in the mm; `[vtask]`, which
`map_vdso` installs as well, is not looked for. It looks under the mmap lock, drops the lock and
calls `map_vdso`, which takes it again. User space can unmap what it likes at any time, and other
threads of the process can make requests of their own between the two locked sections.

`do_munmap` is not part of the repository; of it `Whole` is assumed: special mappings cannot be
split, so what is left of them was there before.

* **`mapVdso_special`** — what `map_vdso` adds, on every path.
* **`OnceInv.step`** — a request that has passed the check is the only one, and it finds the mm
  without special mappings.
* **`atMostOne_of_guarded`** — over every run in which requests do not overlap and none is made
  while `[vtask]` alone is left, there is at most one mapping of each kind, and a request while one
  is left is refused.
-/

namespace OsHomework.Vtask

open Lts

/-! ## `map_vdso_once`

A request is two steps of the thread that makes it, one for each section under the mmap lock. What
`map_vdso` installs is decided by the mm as it is when the second section begins. -/

/-- A mapping of the kind is in the mm. -/
def MapState.Has (mm : MapState) (k : Mapping) : Prop := ∃ v ∈ mm.vmas, v.mapping = k

instance (mm : MapState) (k : Mapping) : Decidable (mm.Has k) :=
  inferInstanceAs (Decidable (∃ v ∈ mm.vmas, _))

/-- The mm and its threads `T`: the image of a request that has passed the check and has not called
`map_vdso` yet, and the value of the last request that has returned. -/
structure OnceState (T : Type) where
  mm : MapState
  passed : T → Option VdsoImage
  returned : T → Option Int

/-- After the call of `map_vdso` at exec, no request has been made. -/
def OnceState.start (T : Type) (mm : MapState) : OnceState T := ⟨mm, fun _ => none, fun _ => none⟩

/-- What user space does: it unmaps a range, or a thread asks for the mappings. -/
inductive OnceAction (T : Type) where
  | munmap (start len : Nat)
  | check (t : T) (image : VdsoImage)
  | map (t : T) (x : MapInput)

def onceStep {T : Type} [DecidableEq T] (doMunmap : Munmap) (s : OnceState T) :
    OnceAction T → Option (OnceState T)
  | .munmap start len => some { s with mm := { s.mm with vmas := doMunmap s.mm.vmas start len } }
  | .check t image =>
    match s.passed t with
    | some _ => none
    | none =>
      -- the loop over the areas, from `mmap_write_lock` to `mmap_write_unlock`
      if ∃ v ∈ s.mm.vmas, v.mapping = .vdso ∨ v.mapping = .vvar then
        some { s with returned := Function.update s.returned t (some (-17)) }
      else some { s with passed := Function.update s.passed t (some image) }
  | .map t x =>
    match s.passed t with
    | none => none
    | some image =>
      let (ret, mm) := mapVdso doMunmap image x s.mm
      some ⟨mm, Function.update s.passed t none, Function.update s.returned t (some ret)⟩

/-! ## Special mappings

The three kinds are treated alike: `map_vdso` adds areas of its own call only, so from an mm
without any of them it makes at most one of each. -/

def Mapping.Special (k : Mapping) : Prop := k = .vdso ∨ k = .vvar ∨ k = .vtask

instance (k : Mapping) : Decidable k.Special := inferInstanceAs (Decidable (_ ∨ _ ∨ _))

/-- One of the three is in the mm. -/
def MapState.HasSpecial (mm : MapState) : Prop := ∃ v ∈ mm.vmas, v.mapping.Special

instance (mm : MapState) : Decidable mm.HasSpecial :=
  inferInstanceAs (Decidable (∃ v ∈ mm.vmas, _))

/-- Never more than one `[vdso]`, one `[vvar]` and one `[vtask]`. -/
def AtMostOne (mm : MapState) : Prop :=
  ∀ k : Mapping, k.Special → (mm.vmas.filter fun v => v.mapping = k).card ≤ 1

/-- Special mappings are not split: unmapping leaves of them only what was there. -/
def Whole (doMunmap : Munmap) : Prop :=
  ∀ vmas start len, ∀ v ∈ doMunmap vmas start len, v.mapping.Special → v ∈ vmas

theorem atMostOne_iff (mm : MapState) :
    AtMostOne mm ↔
      ∀ v ∈ mm.vmas, ∀ w ∈ mm.vmas, v.mapping.Special → v.mapping = w.mapping → v = w := by
  unfold AtMostOne
  constructor
  · intro h v hv w hw hspecial heq
    refine Finset.card_le_one.mp (h v.mapping hspecial) v ?_ w ?_
    · exact Finset.mem_filter.mpr ⟨hv, rfl⟩
    · exact Finset.mem_filter.mpr ⟨hw, heq.symm⟩
  · intro h k hspecial
    refine Finset.card_le_one.mpr fun v hv w hw => ?_
    obtain ⟨hmem, rfl⟩ := Finset.mem_filter.mp hv
    obtain ⟨hmem', heq⟩ := Finset.mem_filter.mp hw
    exact h v hmem w hmem' hspecial heq.symm

section

variable {doMunmap : Munmap} {image : VdsoImage} {x : MapInput} {mm mm' : MapState}

theorem AtMostOne.subset (h : AtMostOne mm)
    (hsub : ∀ v ∈ mm'.vmas, v.mapping.Special → v ∈ mm.vmas) : AtMostOne mm' := by
  rw [atMostOne_iff] at h ⊢
  intro v hv w hw hspecial heq
  exact h v (hsub v hv hspecial) w (hsub w hw (heq ▸ hspecial)) hspecial heq

/-- The areas of a call. -/
def areas (image : VdsoImage) (addr : Nat) : Finset Vma :=
  {vdsoVma image addr, vvarVma image addr, vtaskVma addr}

/-- They are of three kinds. -/
theorem eq_of_mem_areas {addr : Nat} {v w : Vma} (hv : v ∈ areas image addr)
    (hw : w ∈ areas image addr) (heq : v.mapping = w.mapping) : v = w := by
  simp only [areas, Finset.mem_insert, Finset.mem_singleton] at hv hw
  rcases hv with rfl | rfl | rfl <;> rcases hw with rfl | rfl | rfl <;> cases heq <;> rfl

/-- What `map_vdso` adds, however far it gets: areas of this call only. -/
theorem mapVdso_special (hwhole : Whole doMunmap) {v : Vma}
    (hv : v ∈ (mapVdso doMunmap image x mm).2.vmas) (hspecial : v.mapping.Special) :
    v ∈ mm.vmas ∨ v ∈ areas image x.addr := by
  simp only [areas, Finset.mem_insert, Finset.mem_singleton]
  unfold mapVdso at hv
  split at hv
  · exact Or.inl hv
  · split at hv
    · exact Or.inl hv
    · dsimp only at hv
      split at hv
      · exact Or.inl hv
      · split at hv
        · -- `[vdso]` is taken back
          have hmem := hwhole _ _ _ v hv hspecial
          rw [Finset.mem_insert] at hmem
          exact hmem.symm.imp_right Or.inl
        · split at hv
          · -- `[vdso]` and `[vvar]` are taken back
            have hmem := hwhole _ _ _ v (hwhole _ _ _ v hv hspecial) hspecial
            rw [Finset.mem_insert, Finset.mem_insert] at hmem
            rcases hmem with hvvar | hvdso | hold
            · exact Or.inr (Or.inr (Or.inl hvvar))
            · exact Or.inr (Or.inl hvdso)
            · exact Or.inl hold
          · simp only [Finset.mem_insert] at hv
            rcases hv with hvtask | hvvar | hvdso | hold
            · exact Or.inr (Or.inr (Or.inr hvtask))
            · exact Or.inr (Or.inr (Or.inl hvvar))
            · exact Or.inr (Or.inl hvdso)
            · exact Or.inl hold

/-- From an mm without special mappings, one of each at most. -/
theorem atMostOne_mapVdso (hwhole : Whole doMunmap) (hnone : ¬ mm.HasSpecial) :
    AtMostOne (mapVdso doMunmap image x mm).2 := by
  have hnew : ∀ v ∈ (mapVdso doMunmap image x mm).2.vmas, v.mapping.Special →
      v ∈ areas image x.addr := by
    intro v hv hspecial
    apply (mapVdso_special hwhole hv hspecial).resolve_left
    exact fun hold => hnone ⟨v, hold, hspecial⟩
  rw [atMostOne_iff]
  intro v hv w hw hspecial heq
  exact eq_of_mem_areas (hnew v hv hspecial) (hnew w hw (heq ▸ hspecial)) heq

/-- The condition under which the check of `map_vdso_once` sees what it has to: `[vtask]` is not
left alone. -/
def NotVtaskAlone (mm : MapState) : Prop := mm.Has .vtask → mm.Has .vdso ∨ mm.Has .vvar

instance (mm : MapState) : Decidable (NotVtaskAlone mm) := inferInstanceAs (Decidable (_ → _))

/-- Then a special mapping is seen by the check. -/
theorem NotVtaskAlone.seen (hguard : NotVtaskAlone mm) (h : mm.HasSpecial) :
    ∃ v ∈ mm.vmas, v.mapping = .vdso ∨ v.mapping = .vvar := by
  obtain ⟨v, hv, hvdso | hvvar | hvtask⟩ := h
  · exact ⟨v, hv, Or.inl hvdso⟩
  · exact ⟨v, hv, Or.inr hvvar⟩
  · rcases hguard ⟨v, hv, hvtask⟩ with ⟨w, hw, hvdso⟩ | ⟨w, hw, hvvar⟩
    · exact ⟨w, hw, Or.inl hvdso⟩
    · exact ⟨w, hw, Or.inr hvvar⟩

end

/-! ## Runs

The check answers for the mm at the time of the check. For the answer to hold at the time of the
call, nobody else may install mappings in between; unmapping does no harm. -/

section

variable {T : Type} {doMunmap : Munmap} {s s' : OnceState T}

/-- A request begins only when no other is between its two sections, and when `[vtask]` is not left
alone. -/
def Guarded (s : OnceState T) : OnceAction T → Prop
  | .check _ _ => NotVtaskAlone s.mm ∧ ∀ t, s.passed t = none
  | _ => True

instance (s : OnceState T) (l : OnceAction T) [Decidable (∀ t, s.passed t = none)] :
    Decidable (Guarded s l) :=
  match l with
  | .munmap _ _ => isTrue trivial
  | .check _ _ => inferInstanceAs (Decidable (_ ∧ _))
  | .map _ _ => isTrue trivial

/-- At most one mapping of each kind, and none while a request is between its two sections, which
then is the only one. -/
structure OnceInv (s : OnceState T) : Prop where
  one : AtMostOne s.mm
  none_left : ∀ t, s.passed t ≠ none → ¬ s.mm.HasSpecial
  sole : ∀ t t', s.passed t ≠ none → s.passed t' ≠ none → t = t'

theorem onceInv_start {mm : MapState} (h : AtMostOne mm) : OnceInv (OnceState.start T mm) where
  one := h
  none_left := fun _ hpassed => absurd rfl hpassed
  sole := fun _ _ hpassed => absurd rfl hpassed

theorem OnceInv.munmap (hinv : OnceInv s) (hwhole : Whole doMunmap) (start len : Nat) :
    OnceInv { s with mm := { s.mm with vmas := doMunmap s.mm.vmas start len } } where
  one := hinv.one.subset (hwhole s.mm.vmas start len)
  none_left := by
    rintro t hpassed ⟨v, hv, hspecial⟩
    exact hinv.none_left t hpassed ⟨v, hwhole _ _ _ v hv hspecial, hspecial⟩
  sole := hinv.sole

variable [DecidableEq T]

/-- A request made while one of the three is left is refused. -/
theorem onceStep_refused (doMunmap : Munmap) {t : T} {image : VdsoImage}
    (hguard : Guarded s (.check t image)) (h : s.mm.HasSpecial) :
    onceStep doMunmap s (.check t image) =
      some { s with returned := Function.update s.returned t (some (-17)) } := by
  simp only [onceStep, hguard.2 t]
  rw [if_pos (hguard.1.seen h)]

/-- A request passes the check: it is the first, and there is nothing to see. -/
theorem OnceInv.pass (hinv : OnceInv s) {t : T} {image : VdsoImage}
    (hfirst : ∀ t, s.passed t = none) (hnone : ¬ s.mm.HasSpecial) :
    OnceInv { s with passed := Function.update s.passed t (some image) } where
  one := hinv.one
  none_left := fun _ _ => hnone
  sole := by
    have honly : ∀ u, Function.update s.passed t (some image) u ≠ none → u = t := by
      intro u hu
      by_contra hne
      rw [Function.update_of_ne hne] at hu
      exact hu (hfirst u)
    intro u u' hu hu'
    rw [honly u hu, honly u' hu']

/-- The request that has passed the check calls `map_vdso`. -/
theorem OnceInv.map (hinv : OnceInv s) (hwhole : Whole doMunmap) {t : T} {image : VdsoImage}
    (hpassed : s.passed t = some image) (x : MapInput) (returned : T → Option Int) :
    OnceInv ⟨(mapVdso doMunmap image x s.mm).2, Function.update s.passed t none, returned⟩ := by
  have hsome : s.passed t ≠ none := by simp [hpassed]
  -- nobody is left between the sections
  have hidle : ∀ u, Function.update s.passed t none u = none := by
    intro u
    by_cases hu : u = t
    · rw [hu, Function.update_self]
    · rw [Function.update_of_ne hu]
      by_contra hne
      exact hu (hinv.sole u t hne hsome)
  exact ⟨atMostOne_mapVdso hwhole (hinv.none_left t hsome), fun u hu => absurd (hidle u) hu,
    fun u _ hu => absurd (hidle u) hu⟩

theorem OnceInv.step (hinv : OnceInv s) (hwhole : Whole doMunmap) {l : OnceAction T}
    (hguard : Guarded s l) (hstep : onceStep doMunmap s l = some s') : OnceInv s' := by
  cases l with
  | munmap start len =>
    cases hstep
    exact hinv.munmap hwhole start len
  | check t image =>
    by_cases hspecial : s.mm.HasSpecial
    · rw [onceStep_refused doMunmap hguard hspecial] at hstep
      cases hstep
      exact { hinv with }
    · have hunseen : ¬ ∃ v ∈ s.mm.vmas, v.mapping = .vdso ∨ v.mapping = .vvar := by
        rintro ⟨v, hv, hvdso | hvvar⟩
        · exact hspecial ⟨v, hv, Or.inl hvdso⟩
        · exact hspecial ⟨v, hv, Or.inr (Or.inl hvvar)⟩
      simp only [onceStep, hguard.2 t, if_neg hunseen, Option.some.injEq] at hstep
      subst hstep
      exact hinv.pass hguard.2 hspecial
  | map t x =>
    cases hpassed : s.passed t with
    | none => simp [onceStep, hpassed] at hstep
    | some image =>
      simp only [onceStep, hpassed, Option.some.injEq] at hstep
      subst hstep
      exact hinv.map hwhole hpassed x _

end

/-- **One of each.** In every run from a call of `map_vdso` in which requests do not overlap and
are made only when `[vtask]` is not left alone, the mm has at most one mapping of each kind, and
such a request is refused with `-EEXIST`, and changes nothing, while any of the three is left. -/
theorem atMostOne_of_guarded {T : Type} [DecidableEq T] (doMunmap : Munmap)
    (hwhole : Whole doMunmap) (image : VdsoImage) (x : MapInput) (mm₀ : MapState)
    (hfresh : ¬ mm₀.HasSpecial) (s : OnceState T)
    (hreach : Reach (onceStep doMunmap) Guarded
      (OnceState.start T (mapVdso doMunmap image x mm₀).2) s) :
    AtMostOne s.mm ∧ ∀ t image', Guarded s (.check t image') → s.mm.HasSpecial →
      onceStep doMunmap s (.check t image') =
        some { s with returned := Function.update s.returned t (some (-17)) } := by
  have hinv : OnceInv s := by
    apply hreach.inv (onceInv_start (atMostOne_mapVdso hwhole hfresh))
    exact fun _ _ _ h hguard hstep => h.step hwhole hguard hstep
  exact ⟨hinv.one, fun _ _ hguard hspecial => onceStep_refused doMunmap hguard hspecial⟩

/-- A `do_munmap` that removes the mappings it meets and refuses to cut a special one. -/
def removeWhole (taskSize : Nat) : Munmap := fun vmas start len =>
  if ∀ v ∈ vmas, v.mapping.Special →
      v.Apart ⟨start, len, .other 0⟩ ∨ start ≤ v.start ∧ v.start + v.len ≤ start + len then
    removeRange taskSize vmas start len
  else vmas

theorem whole_removeWhole (taskSize : Nat) : Whole (removeWhole taskSize) := by
  intro vmas start len v hv _
  unfold removeWhole removeRange at hv
  split at hv
  · split at hv
    · exact (Finset.mem_filter.mp hv).1
    · exact hv
  · exact hv

/-- A process of two threads after exec. -/
def execState : OnceState Bool :=
  .start Bool
    (mapVdso (removeWhole userSize) smallImage ⟨false, 65536, none, none, none⟩ emptyMm).2

/-- All three areas are unmapped, and one thread asks for them again, elsewhere. -/
def remapRun : List (OnceAction Bool) :=
  [.munmap 65536 49152, .check false smallImage, .map false ⟨false, 1048576, none, none, none⟩]

theorem atMostOne_remapped :
    ∃ s, Reach (onceStep (removeWhole userSize)) Guarded execState s ∧ s.mm.HasSpecial ∧
      AtMostOne s.mm ∧
      onceStep (removeWhole userSize) s (.check true smallImage) =
        some { s with returned := Function.update s.returned true (some (-17)) } := by
  have hrun : (exec (onceStep (removeWhole userSize)) (fun s l => decide (Guarded s l))
      execState remapRun).map
        (fun s => decide (s.mm.HasSpecial ∧ Guarded s (.check true smallImage))) = some true := by
    decide +kernel
  obtain ⟨s, hreach, hobs⟩ := reach_of_exec_map hrun fun _ _ h => of_decide_eq_true h
  obtain ⟨hspecial, hguard⟩ := of_decide_eq_true hobs
  have hfresh : ¬ emptyMm.HasSpecial := by decide
  obtain ⟨hone, hrefused⟩ := atMostOne_of_guarded (removeWhole userSize)
    (whole_removeWhole userSize) smallImage ⟨false, 65536, none, none, none⟩ emptyMm hfresh s
    hreach
  exact ⟨s, hreach, hspecial, hone, hrefused _ _ hguard hspecial⟩

/-- `[vvar]` and `[vdso]` are unmapped and `[vtask]` is kept. The next request installs another. -/
def keepVtaskRun : List (OnceAction Bool) :=
  [.munmap 90112 24576, .check false smallImage, .map false ⟨false, 1048576, none, none, none⟩]

/-- All three are unmapped, and the two threads both look before either has called `map_vdso`. -/
def overlapRun : List (OnceAction Bool) :=
  [.munmap 65536 49152, .check false smallImage, .check true smallImage,
    .map false ⟨false, 65536, none, none, none⟩, .map true ⟨false, 1048576, none, none, none⟩]

/-- Either half of the condition is needed: one thread's request installs a second `[vtask]`, and
two overlapping ones a second `[vdso]`. -/
theorem second_vtask :
    (∃ s, Reach (onceStep (removeWhole userSize)) (fun _ _ => True) execState s ∧
      (s.mm.vmas.filter fun v => v.mapping = .vtask).card = 2 ∧ ¬ AtMostOne s.mm) ∧
    ∃ s, Reach (onceStep (removeWhole userSize)) (fun s _ => NotVtaskAlone s.mm) execState s ∧
      (s.mm.vmas.filter fun v => v.mapping = .vdso).card = 2 ∧ ¬ AtMostOne s.mm := by
  have halone : (exec (onceStep (removeWhole userSize)) (fun _ _ => true) execState
      keepVtaskRun).map (fun s => (s.mm.vmas.filter fun v => v.mapping = .vtask).card) =
        some 2 := by
    decide +kernel
  have hoverlap : (exec (onceStep (removeWhole userSize)) (fun s _ => decide (NotVtaskAlone s.mm))
      execState overlapRun).map (fun s => (s.mm.vmas.filter fun v => v.mapping = .vdso).card) =
        some 2 := by
    decide +kernel
  obtain ⟨s, hreach, hobs⟩ := reach_of_exec_map halone fun _ _ _ => trivial
  obtain ⟨s', hreach', hobs'⟩ := reach_of_exec_map hoverlap fun _ _ h => of_decide_eq_true h
  refine ⟨⟨s, hreach, hobs, fun h => ?_⟩, s', hreach', hobs', fun h => ?_⟩
  · have hone := h .vtask (Or.inr (Or.inr rfl))
    omega
  · have hone := h .vdso (Or.inl rfl)
    omega

end OsHomework.Vtask
