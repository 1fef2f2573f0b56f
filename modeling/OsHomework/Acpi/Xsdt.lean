import OsHomework.Acpi.Table
import OsHomework.Lib.Reach

/-!
# Acpi — the walk over the XSDT

`UefiMain` of the viewer looks for the first ACPI table of the system, follows it to the XSDT and
prints the header of every table the XSDT has an entry for. It takes the length of the XSDT from its
header, subtracts the size of the header in 64-bit unsigned arithmetic and divides by the size of an
entry; the first entry is read once more in front of the loop, for the FADT.

* **`Walk.step`** — one entry of the configuration table, the read in front of the loop, one
  iteration.
* **`WalkInv.step`** — which entries have been read after how many iterations.
* **`reach_iteration`** — the loop does as many iterations as it has computed.
* **`walk_inside_iff`** — the walk stays in the XSDT exactly when that has room for an entry.
-/

namespace OsHomework.Acpi

open Lts

/-! ## The program

Pointers are 64-bit numbers, and so is the number of entries: the length of the XSDT is a `UINT32`,
but `sizeof` has the type `UINTN`, so the subtraction is done in 64 bits and wraps around when the
length is smaller than the header. One step is one entry of the configuration table, the reads in
front of the loop, or one iteration. A state keeps the addresses that have been read as entries. -/

/-- A number of `n` bytes behind a pointer. -/
def Memory.load (mem : Memory) (p : UInt64) (n : Nat) : UInt64 :=
  .ofNat (ByteMem.load (mem.at p) 0 n)

def offsetXsdtAddress : UInt64 := 24
def offsetFirmwareCtrl : UInt64 := 36
def offsetXDsdt : UInt64 := 140

/-- `XSDT->Length` -/
def xsdtLength (mem : Memory) (xsdt : UInt64) : UInt32 := .ofNat (tableLength (mem.at xsdt))

/-- `(XSDT->Length - sizeof(EFI_ACPI_DESCRIPTION_HEADER)) / sizeof(UINT64)` -/
def entryCount (length : UInt32) : UInt64 := (length.toUInt64 - 36) / 8

inductive WalkPc where
  | search (rest : List ConfigurationTable)
  | first
  | loop
  | ended

/-- The variables of `UefiMain`; `printed` are the tables whose headers have been printed, `slots`
the entries of the XSDT that have been read. -/
structure Walk where
  pc : WalkPc
  xsdt : UInt64
  entryCount : UInt64
  j : UInt64
  entryPtr : UInt64
  facs : UInt64
  dsdt : UInt64
  printed : List UInt64
  slots : List UInt64

def Walk.start (configTab : List ConfigurationTable) : Walk :=
  ⟨.search configTab, 0, 0, 0, 0, 0, 0, [], []⟩

def Walk.step (mem : Memory) (w : Walk) : Option Walk :=
  match w.pc with
  | .search [] => some { w with pc := .ended }
  | .search (t :: rest) =>
    if t.isAcpi then
      let xsdt := mem.load (t.vendorTable + offsetXsdtAddress) 8
      some { w with
        pc := .first
        xsdt := xsdt
        entryCount := Acpi.entryCount (xsdtLength mem xsdt)
        entryPtr := xsdt + 36
        printed := w.printed ++ [xsdt] }
    else some { w with pc := .search rest }
  | .first =>
    let fadt := mem.load w.entryPtr 8
    some { w with
      pc := .loop
      facs := mem.load (fadt + offsetFirmwareCtrl) 4
      dsdt := mem.load (fadt + offsetXDsdt) 8
      slots := w.slots ++ [w.entryPtr] }
  | .loop =>
    if w.j < w.entryCount then
      let entry := mem.load w.entryPtr 8
      some { w with
        j := w.j + 1
        entryPtr := w.entryPtr + 8
        printed :=
          if entry = 0 then w.printed
          else if w.j = 0 then w.printed ++ [entry, w.facs, w.dsdt]
          else w.printed ++ [entry]
        slots := w.slots ++ [w.entryPtr] }
    else some { w with pc := .ended }
  | .ended => none

def uefiMain (mem : Memory) (w : Walk) (_ : Unit) : Option Walk := w.step mem

/-- The states of `UefiMain` on a configuration table. -/
def UefiReach (mem : Memory) (configTab : List ConfigurationTable) (w : Walk) : Prop :=
  Reach (uefiMain mem) (fun _ _ => True) (.start configTab) w

/-! ## What the walk may read

Two things can go wrong independently. An entry may be read where the table has already ended
(`SlotsInside`), and the loop may be set to do more iterations than the table has bytes for
(`IterationsBounded`). Both refer to the length in the header, which is all the program knows of the
table. -/

/-- The XSDT of the first ACPI table. -/
def findXsdt (mem : Memory) (configTab : List ConfigurationTable) : Option UInt64 :=
  (configTab.find? (·.isAcpi)).map fun t => mem.load (t.vendorTable + offsetXsdtAddress) 8

/-- The eight bytes at `p` are bytes of the table, behind its header. -/
def SlotInside (xsdt : UInt64) (length : UInt32) (p : UInt64) : Prop :=
  ∀ k < 8, ∃ o, headerLength ≤ o ∧ o < length.toNat ∧ p + .ofNat k = xsdt + .ofNat o

def Walk.SlotsInside (mem : Memory) (w : Walk) : Prop :=
  ∀ p ∈ w.slots, SlotInside w.xsdt (xsdtLength mem w.xsdt) p

/-- `j` counts the iterations done. -/
def Walk.IterationsBounded (mem : Memory) (w : Walk) : Prop :=
  w.j.toNat ≤ (xsdtLength mem w.xsdt).toNat / 8

/-! ## Slots and counts

The arithmetic, apart from the program. The only two lengths that matter are 36, below which the
difference wraps around, and 44, the header and one entry. -/

/-- The entry with number `i`. -/
def slotAt (xsdt : UInt64) (i : Nat) : UInt64 := xsdt + .ofNat (36 + 8 * i)

theorem slotAt_succ (xsdt : UInt64) (i : Nat) : slotAt xsdt (i + 1) = slotAt xsdt i + 8 := by
  have hsum : 36 + 8 * (i + 1) = 36 + 8 * i + 8 := by omega
  rw [slotAt, slotAt, hsum, UInt64.ofNat_add, ← add_assoc]
  rfl

/-- A slot that ends in front of the end of the table. -/
theorem slotInside_slotAt {xsdt : UInt64} {length : UInt32} {i : Nat}
    (h : 36 + 8 * (i + 1) ≤ length.toNat) : SlotInside xsdt length (slotAt xsdt i) := by
  intro k hk
  refine ⟨36 + 8 * i + k, Nat.le_add_right_of_le (Nat.le_add_right 36 _), by omega, ?_⟩
  rw [slotAt, UInt64.ofNat_add (36 + 8 * i), add_assoc]

/-- The first slot, if the table ends inside it. -/
theorem not_slotInside_first {xsdt : UInt64} {length : UInt32} (h : length.toNat < 44) :
    ¬ SlotInside xsdt length (slotAt xsdt 0) := by
  intro hinside
  obtain ⟨o, -, ho, heq⟩ := hinside 7 (by omega)
  -- the last byte of the slot is at offset 43
  have hlast : slotAt xsdt 0 + .ofNat 7 = xsdt + .ofNat 43 := by
    rw [slotAt, add_assoc]
    rfl
  have hoffset : UInt64.ofNat o = .ofNat 43 := (add_left_cancel (hlast.symm.trans heq)).symm
  have hnat := congrArg UInt64.toNat hoffset
  rw [UInt64.toNat_ofNat', UInt64.toNat_ofNat', Nat.mod_eq_of_lt (by omega)] at hnat
  omega

/-- A counter in front of its bound does not overflow. -/
theorem toNat_succ_of_lt {j count : UInt64} (h : j < count) : (j + 1).toNat = j.toNat + 1 := by
  have hlt := UInt64.lt_iff_toNat_lt.mp h
  have hsize := count.toNat_lt
  have h1 : (1 : UInt64).toNat = 1 := rfl
  rw [UInt64.toNat_add, h1, Nat.mod_eq_of_lt (by omega)]

section

variable {length : UInt32}

theorem toNat_entryCount (h : 36 ≤ length.toNat) :
    (entryCount length).toNat = (length.toNat - 36) / 8 := by
  have hle : (36 : UInt64) ≤ length.toUInt64 := by
    rw [UInt64.le_iff_toNat_le, UInt32.toNat_toUInt64]
    exact h
  rw [entryCount, UInt64.toNat_div, UInt64.toNat_sub_of_le _ _ hle, UInt32.toNat_toUInt64]
  rfl

/-- The difference wraps around if the table is shorter than its header. -/
theorem five_le_entryCount (h : length.toNat < 36) : 5 ≤ (entryCount length).toNat := by
  have h36 : (36 : UInt64).toNat = 36 := rfl
  have h8 : (8 : UInt64).toNat = 8 := rfl
  rw [entryCount, UInt64.toNat_div, UInt64.toNat_sub, UInt32.toNat_toUInt64, h36, h8]
  omega

end

/-! ## Runs

The walk is deterministic and reads the entries in order, so an invariant says it all: where the
pointer is after `j` iterations, and which addresses have been read by then. The first slot occurs
twice in the list as soon as an iteration has been done, once for the read in front of the loop. -/

section

variable {mem : Memory} {configTab : List ConfigurationTable} {w w' : Walk}

/-- On the XSDT, in front of the entry with number `j`. -/
structure OnXsdt (mem : Memory) (configTab : List ConfigurationTable) (w : Walk) : Prop where
  found : findXsdt mem configTab = some w.xsdt
  count : w.entryCount = entryCount (xsdtLength mem w.xsdt)
  entry : w.entryPtr = slotAt w.xsdt w.j.toNat
  bound : w.j.toNat ≤ w.entryCount.toNat

/-- The first entry has been read, and then those of the iterations. -/
structure Walked (mem : Memory) (configTab : List ConfigurationTable) (w : Walk) : Prop
    extends OnXsdt mem configTab w where
  slots : w.slots = slotAt w.xsdt 0 :: (List.range w.j.toNat).map (slotAt w.xsdt)

/-- Nothing has been read. -/
structure Unread (w : Walk) : Prop where
  j : w.j = 0
  slots : w.slots = []

def WalkInv (mem : Memory) (configTab : List ConfigurationTable) (w : Walk) : Prop :=
  match w.pc with
  | .search rest => findXsdt mem rest = findXsdt mem configTab ∧ Unread w
  | .first => OnXsdt mem configTab w ∧ Unread w
  | .loop => Walked mem configTab w
  | .ended => Unread w ∨ Walked mem configTab w

/-- One iteration. -/
theorem Walked.next (h : Walked mem configTab w) (hj : w.j < w.entryCount) (printed : List UInt64) :
    Walked mem configTab { w with
      j := w.j + 1, entryPtr := w.entryPtr + 8, printed, slots := w.slots ++ [w.entryPtr] } := by
  have hlt := UInt64.lt_iff_toNat_lt.mp hj
  have hsucc := toNat_succ_of_lt hj
  refine ⟨⟨h.found, h.count, ?_, ?_⟩, ?_⟩
  · show w.entryPtr + 8 = slotAt w.xsdt (w.j + 1).toNat
    rw [hsucc, slotAt_succ, h.entry]
  · show (w.j + 1).toNat ≤ w.entryCount.toNat
    omega
  · show w.slots ++ [w.entryPtr] = _ :: (List.range (w.j + 1).toNat).map (slotAt w.xsdt)
    rw [hsucc, List.range_succ, List.map_append, h.slots, h.entry]
    rfl

/-- **Every step** reads the entries in order. -/
theorem WalkInv.step (h : WalkInv mem configTab w) (hstep : w.step mem = some w') :
    WalkInv mem configTab w' := by
  unfold Walk.step at hstep
  split at hstep
  next hpc =>
    -- no ACPI table
    cases hstep
    simp only [WalkInv, hpc] at h
    exact .inl ⟨h.2.j, h.2.slots⟩
  next t rest hpc =>
    simp only [WalkInv, hpc] at h
    obtain ⟨hfind, hunread⟩ := h
    split at hstep
    next hacpi =>
      -- the search ends here, in front of the entry with number 0
      cases hstep
      rw [findXsdt, List.find?_cons_of_pos hacpi] at hfind
      refine ⟨⟨hfind.symm, rfl, ?_, ?_⟩, hunread.j, hunread.slots⟩
      · show _ = slotAt _ w.j.toNat
        rw [hunread.j]
        rfl
      · show w.j.toNat ≤ _
        rw [hunread.j]
        exact Nat.zero_le _
    next hacpi =>
      cases hstep
      rw [findXsdt, List.find?_cons_of_neg hacpi] at hfind
      exact ⟨hfind, hunread.j, hunread.slots⟩
  next hpc =>
    cases hstep
    simp only [WalkInv, hpc] at h
    obtain ⟨hxsdt, hunread⟩ := h
    -- the first entry, whatever `entryCount` is
    refine ⟨⟨hxsdt.found, hxsdt.count, hxsdt.entry, hxsdt.bound⟩, ?_⟩
    show w.slots ++ [w.entryPtr] = _ :: (List.range w.j.toNat).map _
    rw [hunread.slots, hxsdt.entry, hunread.j]
    rfl
  next hpc =>
    simp only [WalkInv, hpc] at h
    split at hstep
    next hj =>
      cases hstep
      have hnext := h.next hj
      simpa only [WalkInv, hpc] using hnext _
    next hj =>
      cases hstep
      exact .inr ⟨⟨h.found, h.count, h.entry, h.bound⟩, h.slots⟩
  next => cases hstep

theorem WalkInv.of_reach (h : UefiReach mem configTab w) : WalkInv mem configTab w :=
  h.inv ⟨rfl, rfl, rfl⟩ fun _ _ _ hinv _ hstep => hinv.step hstep

theorem WalkInv.walked (h : WalkInv mem configTab w) (hpc : w.pc = .loop) :
    Walked mem configTab w := by
  simpa only [WalkInv, hpc] using h

theorem WalkInv.unread (h : WalkInv mem configTab w) (hpc : w.pc = .first) : Unread w := by
  simp only [WalkInv, hpc] at h
  exact h.2

/-- Either nothing has been read yet or the walk is on the XSDT. -/
theorem WalkInv.unread_or_walked (h : WalkInv mem configTab w) :
    Unread w ∨ Walked mem configTab w := by
  unfold WalkInv at h
  split at h
  next => exact .inl h.2
  next => exact .inl h.2
  next => exact .inr h
  next => exact h

end

/-! ## The end of a run

The loop counts up to a 64-bit number, however wrong that number is; so the program always comes to
an end, and it reaches every number of iterations up to it. The second is what the counterexamples
of the next section need: they are states of real runs, not only states that the invariant allows.
-/

/-- The rest of the configuration table, then the iterations. -/
def Walk.measure (w : Walk) : Nat :=
  match w.pc with
  | .search rest => UInt64.size + 2 + rest.length
  | .first => UInt64.size + 1
  | .loop => UInt64.size - w.j.toNat
  | .ended => 0

theorem Walk.measure_step {mem : Memory} {w w' : Walk} (hstep : w.step mem = some w') :
    w'.measure < w.measure := by
  -- the measure counts what is left, the search first: it is above every count of iterations
  have hsize := w.j.toNat_lt_size
  unfold Walk.step at hstep
  split at hstep
  next hpc =>
    cases hstep
    simp only [measure, hpc]
    omega
  next t rest hpc =>
    split at hstep <;> cases hstep <;> simp only [measure, hpc, List.length_cons] <;> omega
  next hpc =>
    cases hstep
    simp only [measure, hpc]
    omega
  next hpc =>
    split at hstep
    next hj =>
      cases hstep
      simp only [measure, hpc, toNat_succ_of_lt hj]
      omega
    next =>
      cases hstep
      simp only [measure, hpc]
      omega
  next => cases hstep

theorem uefiMain_terminates (mem : Memory) (configTab : List ConfigurationTable) :
    Terminates (uefiMain mem) (fun _ _ => True) (.start configTab) :=
  terminates_of_measure (I := fun _ => True) Walk.measure
    (fun _ _ _ _ _ hstep => ⟨trivial, Walk.measure_step hstep⟩) trivial

section

variable {mem : Memory} {configTab : List ConfigurationTable} {xsdt : UInt64}

/-- The search reaches the XSDT. -/
theorem reach_first {w : Walk} (hpc : w.pc = .search configTab)
    (hxsdt : findXsdt mem configTab = some xsdt) :
    ∃ w', Reach (uefiMain mem) (fun _ _ => True) w w' ∧ w'.pc = .first ∧ w'.xsdt = xsdt := by
  -- entries that are not of ACPI are passed over one by one
  induction configTab generalizing w with
  | nil => cases hxsdt
  | cons t rest ih =>
    by_cases hacpi : t.isAcpi
    · rw [findXsdt, List.find?_cons_of_pos hacpi] at hxsdt
      have hstep : ∃ w', uefiMain mem w () = some w' ∧ w'.pc = .first ∧
          some w'.xsdt = some xsdt := by
        rw [← hxsdt]
        simp [uefiMain, Walk.step, hpc, hacpi]
      obtain ⟨w', hstep, hfirst, hw'⟩ := hstep
      exact ⟨w', .single trivial hstep, hfirst, Option.some.inj hw'⟩
    · rw [findXsdt, List.find?_cons_of_neg hacpi] at hxsdt
      obtain ⟨w', hreach, hw'⟩ := ih (w := { w with pc := .search rest }) rfl hxsdt
      have hstep : uefiMain mem w () = some { w with pc := .search rest } := by
        simp [uefiMain, Walk.step, hpc, hacpi]
      exact ⟨w', .head trivial hstep hreach, hw'⟩

/-- **The iterations**: the loop gets as far as the count that was computed. -/
theorem reach_iteration (hxsdt : findXsdt mem configTab = some xsdt) {n : Nat}
    (hn : n ≤ (entryCount (xsdtLength mem xsdt)).toNat) :
    ∃ w, UefiReach mem configTab w ∧ Walked mem configTab w ∧ w.pc = .loop ∧ w.xsdt = xsdt ∧
      w.j.toNat = n := by
  suffices ∃ w, UefiReach mem configTab w ∧ w.pc = .loop ∧ w.xsdt = xsdt ∧ w.j.toNat = n by
    obtain ⟨w, hreach, hpc, hw⟩ := this
    exact ⟨w, hreach, (WalkInv.of_reach hreach).walked hpc, hpc, hw⟩
  -- one iteration more for each number; the invariant says where the state then stands
  induction n with
  | zero =>
    obtain ⟨w, hreach, hpc, hw⟩ := reach_first (w := .start configTab) rfl hxsdt
    have hunread := (WalkInv.of_reach hreach).unread hpc
    have hstep : ∃ w', uefiMain mem w () = some w' ∧ w'.pc = .loop ∧ w'.xsdt = w.xsdt ∧
        w'.j = w.j := by
      simp [uefiMain, Walk.step, hpc]
    obtain ⟨w', hstep, hpc', hw', hj⟩ := hstep
    refine ⟨w', .tail hreach trivial hstep, hpc', hw'.trans hw, ?_⟩
    rw [hj, hunread.j]
    rfl
  | succ n ih =>
    obtain ⟨w, hreach, hpc, hw, hj⟩ := ih (Nat.le_of_succ_le hn)
    have hwalked := (WalkInv.of_reach hreach).walked hpc
    -- the count has not been reached, so the loop goes on
    have hlt : w.j < w.entryCount := by
      rw [UInt64.lt_iff_toNat_lt, hj, hwalked.count, hw]
      exact hn
    have hstep : ∃ w', uefiMain mem w () = some w' ∧ w'.pc = .loop ∧ w'.xsdt = w.xsdt ∧
        w'.j = w.j + 1 := by
      simp [uefiMain, Walk.step, hpc, hlt]
    obtain ⟨w', hstep, hpc', hw', hj'⟩ := hstep
    refine ⟨w', .tail hreach trivial hstep, hpc', hw'.trans hw, ?_⟩
    rw [hj', toNat_succ_of_lt hlt, hj]

end

/-! ## The walk and the table

The two bounds come apart. Between 36 and 43 bytes the number of iterations is zero and right, and
only the read in front of the loop leaves the table. Below 36 the number is huge. -/

section

variable {mem : Memory} {configTab : List ConfigurationTable} {w : Walk}

theorem Unread.slotsInside (h : Unread w) : w.SlotsInside mem := by
  intro p hp
  rw [h.slots] at hp
  cases hp

theorem Unread.iterationsBounded (h : Unread w) : w.IterationsBounded mem := by
  rw [Walk.IterationsBounded, h.j]
  exact Nat.zero_le _

theorem Walked.slotsInside (h : Walked mem configTab w)
    (hlength : 44 ≤ (xsdtLength mem w.xsdt).toNat) : w.SlotsInside mem := by
  have hbound := h.bound
  rw [h.count, toNat_entryCount (by omega)] at hbound
  intro p hp
  rw [h.slots, List.mem_cons, List.mem_map] at hp
  obtain rfl | ⟨i, hi, rfl⟩ := hp
  · exact slotInside_slotAt hlength
  · have hlt := List.mem_range.mp hi
    exact slotInside_slotAt (by omega)

/-- The read in front of the loop leaves a table that has no room for an entry. -/
theorem Walked.not_slotsInside (h : Walked mem configTab w)
    (hlength : (xsdtLength mem w.xsdt).toNat < 44) : ¬ w.SlotsInside mem := by
  intro hinside
  have hmem : slotAt w.xsdt 0 ∈ w.slots := by
    rw [h.slots]
    exact List.mem_cons_self
  exact not_slotInside_first hlength (hinside _ hmem)

theorem Walked.iterationsBounded (h : Walked mem configTab w)
    (hlength : 36 ≤ (xsdtLength mem w.xsdt).toNat) : w.IterationsBounded mem := by
  have hbound := h.bound
  rw [h.count, toNat_entryCount hlength] at hbound
  rw [Walk.IterationsBounded]
  omega

end

/-- **The walk over the XSDT** reads entries inside the table only, and does not do more iterations
than the table has room for, exactly when the length of the XSDT allows for one entry. With a length
between that and the header it is the read in front of the loop that leaves the table; with a
shorter one the number of iterations is wrong as well. The walk always comes to an end. -/
theorem walk_inside_iff (mem : Memory) (configTab : List ConfigurationTable) :
    ((∀ w, UefiReach mem configTab w → w.SlotsInside mem ∧ w.IterationsBounded mem) ↔
        ∀ xsdt, findXsdt mem configTab = some xsdt → 44 ≤ (xsdtLength mem xsdt).toNat) ∧
      ((∀ w, UefiReach mem configTab w → w.IterationsBounded mem) ↔
        ∀ xsdt, findXsdt mem configTab = some xsdt → 36 ≤ (xsdtLength mem xsdt).toNat) ∧
      Terminates (uefiMain mem) (fun _ _ => True) (.start configTab) := by
  refine ⟨⟨fun h xsdt hxsdt => ?_, fun h w hreach => ?_⟩,
    ⟨fun h xsdt hxsdt => ?_, fun h w hreach => ?_⟩, uefiMain_terminates mem configTab⟩
  · -- the state in front of the loop
    obtain ⟨w, hreach, hwalked, -, rfl, -⟩ := reach_iteration hxsdt (Nat.zero_le _)
    exact Nat.le_of_not_lt fun hlt => hwalked.not_slotsInside hlt (h w hreach).1
  · rcases (WalkInv.of_reach hreach).unread_or_walked with hunread | hwalked
    · exact ⟨hunread.slotsInside, hunread.iterationsBounded⟩
    · have hlength := h w.xsdt hwalked.found
      exact ⟨hwalked.slotsInside hlength, hwalked.iterationsBounded (by omega)⟩
  · -- the state after five iterations
    refine Nat.le_of_not_lt fun hlt => ?_
    obtain ⟨w, hreach, -, -, rfl, hj⟩ := reach_iteration hxsdt (five_le_entryCount hlt)
    have hbound := h w hreach
    rw [Walk.IterationsBounded, hj] at hbound
    omega
  · rcases (WalkInv.of_reach hreach).unread_or_walked with hunread | hwalked
    · exact hunread.iterationsBounded
    · exact hwalked.iterationsBounded (h w.xsdt hwalked.found)

/-- One ACPI table at 4096 whose XSDT, at 8192, has the given length. -/
def memWithLength (length : UInt8) : Memory := fun p =>
  if p = 4121 then 32 else if p = 8196 then length else 0

/-- An XSDT with one entry. -/
theorem walk_inside_oneEntry :
    ∀ w, UefiReach (memWithLength 44) [⟨.acpi20, 4096⟩] w →
      w.SlotsInside (memWithLength 44) ∧ w.IterationsBounded (memWithLength 44) := by
  have hfind : findXsdt (memWithLength 44) [⟨.acpi20, 4096⟩] = some 8192 := by decide +kernel
  refine (walk_inside_iff _ _).1.mpr fun xsdt hxsdt => ?_
  rw [hfind] at hxsdt
  cases hxsdt
  decide +kernel

/-- An XSDT that is only a header is read behind its end; over one that is a byte shorter the loop
does five iterations, and more. -/
theorem not_walk_inside :
    (∃ w, UefiReach (memWithLength 36) [⟨.acpi20, 4096⟩] w ∧
      xsdtLength (memWithLength 36) w.xsdt = 36 ∧ ¬ w.SlotsInside (memWithLength 36)) ∧
    ∃ w, UefiReach (memWithLength 35) [⟨.acpi20, 4096⟩] w ∧
      xsdtLength (memWithLength 35) w.xsdt = 35 ∧ ¬ w.SlotsInside (memWithLength 35) ∧
      ¬ w.IterationsBounded (memWithLength 35) := by
  have hfind36 : findXsdt (memWithLength 36) [⟨.acpi20, 4096⟩] = some 8192 := by decide +kernel
  have hfind35 : findXsdt (memWithLength 35) [⟨.acpi20, 4096⟩] = some 8192 := by decide +kernel
  have hlength36 : xsdtLength (memWithLength 36) 8192 = 36 := by decide +kernel
  have hlength35 : xsdtLength (memWithLength 35) 8192 = 35 := by decide +kernel
  constructor
  · obtain ⟨w, hreach, hwalked, -, hw, -⟩ := reach_iteration hfind36 (Nat.zero_le _)
    rw [← hw] at hlength36
    refine ⟨w, hreach, hlength36, hwalked.not_slotsInside ?_⟩
    rw [hlength36]
    decide
  · obtain ⟨w, hreach, hwalked, -, hw, hj⟩ := reach_iteration (n := 5) hfind35 (by
      rw [hlength35]
      exact five_le_entryCount (by decide))
    rw [← hw] at hlength35
    refine ⟨w, hreach, hlength35, hwalked.not_slotsInside ?_, ?_⟩
    · rw [hlength35]
      decide
    · rw [Walk.IterationsBounded, hj, hlength35]
      decide

end OsHomework.Acpi
