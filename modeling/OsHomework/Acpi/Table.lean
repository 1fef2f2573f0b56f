import Mathlib.Data.UInt
import Mathlib.Tactic.Abel
import OsHomework.Lib.ByteMem

/-!
# Acpi — tables and their checksums

One UEFI application creates an ACPI table of its own, with `CalculateChecksum` for the checksum
byte in its header; another one sums the bytes of a table it finds, in `ChangeACPITable`, and
reports whether the sum is zero. Both sums wrap around at eight bits.

* **`byteSum_update`** — the sum of a table with one byte changed.
* **`checksum_correct`** — the checksum of the first makes the sum of the second zero, no other one
  does, and afterwards no byte can change without the sum.
-/

namespace OsHomework.Acpi

open ByteMem

/-! ## Tables in memory

A table is the function from offsets to bytes that a pointer to it gives. Its length is not known
from outside but is a field of its header, four bytes little-endian at offset 4; both programs
believe it. All sums are over `UInt8`, in which the carry of the C sums is lost in the same way. -/

abbrev Memory := UInt64 → UInt8

/-- The bytes from a pointer on. -/
def Memory.at (mem : Memory) (p : UInt64) : Nat → UInt8 := fun i => mem (p + .ofNat i)

/-- The fields of `EFI_ACPI_DESCRIPTION_HEADER`, which is 36 bytes long. -/
def headerLength : Nat := 36
def offsetLength : Nat := 4
def offsetChecksum : Nat := 9

/-- `Header->Length` -/
def tableLength (table : Nat → UInt8) : Nat := load table offsetLength 4

/-- The loop over the first bytes of a table, in both programs. -/
def byteSum (buffer : Nat → UInt8) : Nat → UInt8
  | 0 => 0
  | size + 1 => byteSum buffer size + buffer size

/-! ## `MyAddAcpi`

The table is filled field by field over zeroed memory, in the order of the source, and gets its
checksum last. What is behind the 80 bytes is not touched; `pool` stands for it. -/

/-- `(UINT8) (0x100 - Sum)`, where the difference is an `int`. -/
def calculateChecksum (buffer : Nat → UInt8) (size : Nat) : UInt8 :=
  UInt8.ofNat (0x100 - (byteSum buffer size).toNat)

/-- `Header.Checksum = 0;` and then the checksum of the whole table. -/
def setChecksum (table : Nat → UInt8) : Nat → UInt8 :=
  let table := Function.update table offsetChecksum 0
  Function.update table offsetChecksum (calculateChecksum table (tableLength table))

/-- Bytes copied to an offset. -/
def copyBytes (table : Nat → UInt8) (offset : Nat) (bytes : List UInt8) : Nat → UInt8 := fun i =>
  if i < offset then table i else (bytes[i - offset]?).getD (table i)

/-- `sizeof (MY_CUSTOM_ACPI_TABLE)`, which is packed. -/
def sizeofCustomTable : Nat := headerLength + 4 + 8 + 32

def asciiBytes (s : String) : List UInt8 := s.toList.map fun c => UInt8.ofNat c.toNat

/-- `CreateCustomAcpiTable`, with what `AllocateZeroPool` returns: the table behind the pointer. -/
def createCustomAcpiTable (pool : Option (Nat → UInt8)) : Option (Nat → UInt8) :=
  match pool with
  | none => none
  | some pool =>
    let table := fun i => if i < sizeofCustomTable then 0 else pool i
    let table := copyBytes table 0 (asciiBytes "MYTB")
    let table := store table offsetLength 4 sizeofCustomTable
    let table := store table 8 1 1
    let table := store table 24 4 1
    let table := copyBytes table 10 (asciiBytes "MYOEMD")
    -- `AsciiStrCpyS` copies the NUL as well, onto the first byte of `OemRevision`
    let table := copyBytes table 16 (asciiBytes "MYCUSTOM" ++ [0])
    let table := store table 28 4 0x12345678
    let table := store table 32 4 1
    let table := store table 36 4 0xDEADBEEF
    let table := store table 40 8 0x0123456789ABCDEF
    -- 28 bytes: without the last one
    let table := copyBytes table 48 ((asciiBytes "Hello from custom ACPI table!").take 28)
    some (setChecksum table)

/-! ## `MyAcpiView`

The configuration table of the system has entries of several vendors; an index counts only those of
ACPI. `ChangeACPITable` may first copy another table over the one it has found, and then reports
what it finds there, with the sum. -/

/-- The vendor GUID of an entry of the configuration table. -/
inductive VendorGuid where
  | acpi
  | acpi20
  | other
  deriving DecidableEq

structure ConfigurationTable where
  vendorGuid : VendorGuid
  vendorTable : UInt64

def ConfigurationTable.isAcpi (t : ConfigurationTable) : Bool :=
  t.vendorGuid = .acpi || t.vendorGuid = .acpi20

/-- The loop of `ChangeACPITable` over the configuration table. -/
def findTable : List ConfigurationTable → Nat → Option UInt64
  | [], _ => none
  | t :: configTab, tableIndex =>
    if t.isAcpi then
      if tableIndex = 0 then some t.vendorTable else findTable configTab (tableIndex - 1)
    else findTable configTab tableIndex

def copyMem (mem : Memory) (dst src : UInt64) (n : Nat) : Memory := fun p =>
  if (p - dst).toNat < n then mem (src + (p - dst)) else mem p

/-- The sum that decides what is reported. -/
def verifySum (table : Nat → UInt8) : UInt8 := byteSum table (tableLength table)

/-- What is printed at the end of `ChangeACPITable`. -/
structure Report where
  address : UInt64
  length : Nat
  checksum : UInt8
  deriving DecidableEq

def Report.valid (r : Report) : Bool := r.checksum = 0

def changeACPITable (mem : Memory) (configTab : List ConfigurationTable) (tableIndex : Nat)
    (newTable : Option UInt64) : Memory × Option Report :=
  match findTable configTab tableIndex with
  | none => (mem, none)
  | some currentTable =>
    if currentTable = 0 then (mem, none)
    else
      let mem := match newTable with
        | none => mem
        | some newTable => copyMem mem currentTable newTable (tableLength (mem.at newTable))
      (mem, some ⟨currentTable, tableLength (mem.at currentTable), verifySum (mem.at currentTable)⟩)

/-! ## Sums

The sum is a fold, so a change of one byte inside the length changes the sum by the difference of
the two bytes. The four bytes of the length itself are different: changing them changes how much is
summed, and nothing is said about them. -/

section

variable {table table' : Nat → UInt8} {k n : Nat} {b : UInt8}

theorem byteSum_congr (h : ∀ i < n, table' i = table i) : byteSum table' n = byteSum table n := by
  induction n with
  | zero => rfl
  | succ n ih =>
    rw [byteSum, byteSum, h n (Nat.lt_succ_self n), ih fun i hi => h i (Nat.lt_succ_of_lt hi)]

/-- **One byte changed**: the sum changes by the difference. -/
theorem byteSum_update (hk : k < n) :
    byteSum (Function.update table k b) n = byteSum table n + (b - table k) := by
  induction n with
  | zero => exact absurd hk (Nat.not_lt_zero k)
  | succ n ih =>
    rw [byteSum, byteSum]
    rcases Nat.lt_or_eq_of_le (Nat.le_of_lt_succ hk) with hlt | rfl
    · rw [ih hlt, Function.update_of_ne (Nat.ne_of_gt hlt)]
      abel
    · have hfront : ∀ i < k, Function.update table k b i = table i :=
        fun i hi => Function.update_of_ne (Nat.ne_of_lt hi) _ _
      rw [byteSum_congr hfront, Function.update_self]
      abel

/-- `0x100 - Sum` is the negative of the sum once it is cut to a byte, also when the sum is zero. -/
theorem calculateChecksum_eq_neg (table : Nat → UInt8) (n : Nat) :
    calculateChecksum table n = -byteSum table n := by
  rw [calculateChecksum, ← UInt8.toNat_inj, UInt8.toNat_ofNat', UInt8.toNat_neg]

/-- The length is in bytes 4 to 7. -/
theorem tableLength_congr (h : ∀ i, 4 ≤ i → i < 8 → table' i = table i) :
    tableLength table' = tableLength table :=
  load_congr h

theorem tableLength_update (hk : ¬ (4 ≤ k ∧ k < 8)) :
    tableLength (Function.update table k b) = tableLength table := by
  refine tableLength_congr fun i hle hlt => Function.update_of_ne ?_ _ _
  rintro rfl
  exact hk ⟨hle, hlt⟩

theorem verifySum_update (hfield : ¬ (4 ≤ k ∧ k < 8)) (hk : k < tableLength table) :
    verifySum (Function.update table k b) = verifySum table + (b - table k) := by
  rw [verifySum, tableLength_update hfield, byteSum_update hk, verifySum]

/-- What is reported depends on the bytes of the table. -/
theorem verifySum_congr (hn : 8 ≤ tableLength table)
    (h : ∀ i < tableLength table, table' i = table i) :
    tableLength table' = tableLength table ∧ verifySum table' = verifySum table := by
  have hlength : tableLength table' = tableLength table :=
    tableLength_congr fun i _ hi => h i (by omega)
  exact ⟨hlength, by rw [verifySum, verifySum, hlength, byteSum_congr h]⟩

/-! ## The checksum

With the checksum byte at zero the sum is some `s`; what is stored is `-s`. Everything about the
checksum is arithmetic in the group of the bytes from there on. -/

theorem setChecksum_eq (table : Nat → UInt8) :
    setChecksum table = Function.update table offsetChecksum
      (-verifySum (Function.update table offsetChecksum 0)) := by
  rw [setChecksum, calculateChecksum_eq_neg, Function.update_idem]
  rfl

theorem tableLength_setChecksum (table : Nat → UInt8) :
    tableLength (setChecksum table) = tableLength table := by
  rw [setChecksum_eq, tableLength_update (by decide)]

/-- The sum with any checksum byte. -/
theorem verifySum_checksum (hn : headerLength ≤ tableLength table) (b : UInt8) :
    verifySum (Function.update table offsetChecksum b) =
      verifySum (Function.update table offsetChecksum 0) + b := by
  have hk : offsetChecksum < tableLength (Function.update table offsetChecksum 0) := by
    rw [tableLength_update (by decide)]
    exact Nat.lt_of_lt_of_le (by decide) hn
  have hsum := verifySum_update (b := b) (by decide) hk
  rwa [Function.update_idem, Function.update_self, sub_zero] at hsum

theorem verifySum_setChecksum (hn : headerLength ≤ tableLength table) :
    verifySum (setChecksum table) = 0 := by
  rw [setChecksum_eq, verifySum_checksum hn, add_neg_cancel]

end

/-- **The checksum** that the one program stores is the one that the other finds valid, it is the
only one, and with it no single byte of the table can change, the length apart, without being
noticed. -/
theorem checksum_correct (table : Nat → UInt8) (hn : headerLength ≤ tableLength table) :
    verifySum (setChecksum table) = 0 ∧
      (∀ mem configTab tableIndex a, findTable configTab tableIndex = some a → a ≠ 0 →
        (∀ i < tableLength table, mem.at a i = setChecksum table i) →
        ∃ r, (changeACPITable mem configTab tableIndex none).2 = some r ∧
          r.length = tableLength table ∧ r.valid = true) ∧
      (∀ b, verifySum (Function.update table offsetChecksum b) = 0 ↔
        b = setChecksum table offsetChecksum) ∧
      ∀ i < tableLength table, ¬ (4 ≤ i ∧ i < 8) → ∀ b, b ≠ setChecksum table i →
        verifySum (Function.update (setChecksum table) i b) ≠ 0 := by
  have hlength := tableLength_setChecksum table
  have hzero := verifySum_setChecksum hn
  refine ⟨hzero, ?_, fun b => ?_, fun i hi hfield b hb => ?_⟩
  -- the viewer reads the same bytes, so it finds the same length and the same sum
  · intro mem configTab tableIndex a hfind ha himage
    rw [← hlength] at himage hn ⊢
    obtain ⟨hlen, hsum⟩ := verifySum_congr (Nat.le_trans (by decide) hn) himage
    refine ⟨⟨a, tableLength (mem.at a), verifySum (mem.at a)⟩, ?_, hlen, ?_⟩
    · simp only [changeACPITable, hfind, ha, if_false]
    · rw [Report.valid, hsum, hzero]
      rfl
  -- `s + b = 0` has one solution
  · rw [verifySum_checksum hn, setChecksum_eq, Function.update_self, add_comm]
    exact eq_neg_iff_add_eq_zero.symm
  -- a byte that is not the one of the table shifts the sum away from zero
  · rw [verifySum_update hfield (by rwa [hlength]), hzero, zero_add]
    exact sub_ne_zero.mpr hb

/-- The table that `MyAddAcpi` creates, wherever its memory comes from, is found valid. -/
theorem createCustomAcpiTable_valid (pool : Nat → UInt8) :
    ∃ table, createCustomAcpiTable (some pool) = some table ∧
      tableLength table = sizeofCustomTable ∧ verifySum table = 0 := by
  have hlength : ∀ table, createCustomAcpiTable (some pool) = some table →
      tableLength table = sizeofCustomTable := by
    rintro _ ⟨⟩
    rw [tableLength_setChecksum]
    rfl
  refine ⟨_, rfl, hlength _ rfl, verifySum_setChecksum ?_⟩
  rw [← tableLength_setChecksum, hlength _ rfl]
  decide

/-- A header without anything behind it, whose other bytes count up. -/
def countingHeader : Nat → UInt8 := store UInt8.ofNat offsetLength 4 36

/-- Its checksum is found valid at address 16 through the configuration table; with the checksum of
the bytes left at zero, or with another first byte, the sum is not zero. -/
theorem checksum_correct_header :
    headerLength ≤ tableLength countingHeader ∧ verifySum (setChecksum countingHeader) = 0 ∧
      (∃ r, (changeACPITable (fun p => setChecksum countingHeader (p - 16).toNat)
          [⟨.other, 8⟩, ⟨.acpi20, 16⟩] 0 none).2 = some r ∧ r.length = 36 ∧ r.valid = true) ∧
      verifySum (Function.update countingHeader offsetChecksum 0) ≠ 0 ∧
      verifySum (Function.update (setChecksum countingHeader) 0 83) ≠ 0 := by
  have hlength : tableLength countingHeader = 36 := by decide
  obtain ⟨hzero, hfound, honly, hbyte⟩ := checksum_correct countingHeader (by decide)
  refine ⟨by decide, hzero, ?_, ?_, ?_⟩
  · have himage : ∀ i < tableLength countingHeader,
        Memory.at (fun p => setChecksum countingHeader (p - 16).toNat) 16 i =
          setChecksum countingHeader i := by
      rw [hlength]
      decide +kernel
    obtain ⟨r, hr, hlen, hvalid⟩ :=
      hfound _ [⟨.other, 8⟩, ⟨.acpi20, 16⟩] 0 16 rfl (by decide) himage
    exact ⟨r, hr, hlen.trans hlength, hvalid⟩
  · rw [Ne, honly 0]
    decide +kernel
  · refine hbyte 0 ?_ (by decide) 83 ?_
    · rw [hlength]
      decide
    · decide +kernel

end OsHomework.Acpi
