import OsHomework.Acpi.Table
import OsHomework.Lib.CString
import OsHomework.Lib.Hex

/-!
# Acpi — the driver that shows the table

`mytb_reader` looks the MYTB table up, checks the length its header gives, and keeps a pointer to
it; four sysfs files then show its fields. Three of them have a fixed width. The message is printed
with `%s`, as if the field always had a NUL in it.

The memory a pointer leads to is the list of the bytes that can be read from there on; a scan that
gets to its end faults.

* **`show_append_of_ne`** — a field of fixed width does not depend on what is behind the table.
* **`show_agrees_iff`** — the message does not either exactly when there is a NUL in its field.
* **`show_createCustomAcpiTable`** — what is shown of the table that `MyAddAcpi` creates.
-/

namespace OsHomework.Acpi

open ByteFile ByteMem CString

/-! ## The driver

`acpi_find_mytb_table` is the only check there is: the length in the header must be at least the
size of the structure. Afterwards the pointer is used as one to a `struct mytb_table`, and nothing
looks at the length again. `acpi_get_table` maps the table into kernel memory, so what can be read
from the pointer on is not only the table; this is why a pointer is a list that goes on behind the
80 bytes, and why a `%s` can leave the structure. -/

inductive Errno where
  | enodev
  | einval
  deriving DecidableEq

/-- `sizeof(struct mytb_table)`, which is packed. -/
def sizeofMytbTable : Nat := 80

def offsetData1 : Nat := 36
def offsetData2 : Nat := 40
def offsetMessage : Nat := 48

/-- The byte at an offset of the table. -/
def byteAt (table : Bytes) : Nat → UInt8 := fun i => (table[i]?).getD 0

/-- `acpi_find_mytb_table`, with the table that `acpi_get_table` finds: what `mytb` is set to. -/
def acpiFindMytbTable (table : Option Bytes) : Except Errno Bytes :=
  match table with
  | none => .error .enodev
  | some table =>
    if tableLength (byteAt table) < sizeofMytbTable then .error .einval else .ok table

/-- How a show function ends. -/
inductive Shown where
  | error (e : Errno)
  | output (text : Bytes)
  | fault
  deriving DecidableEq

/-- `if (!mytb) return -EINVAL;` in front of the `sprintf` of each file. -/
def withMytb (mytb : Option Bytes) (print : Bytes → Shown) : Shown :=
  match mytb with
  | none => .error .einval
  | some table => print table

/-- `sprintf(buf, "0x%0[width]X\n", n)` -/
def printHex (width n : Nat) : Shown :=
  .output (asciiBytes "0x" ++ (Hex.format width n).map (fun c => UInt8.ofNat c.toNat) ++
    asciiBytes "\n")

def messageShow (mytb : Option Bytes) : Shown :=
  withMytb mytb fun table =>
    let message := table.drop offsetMessage
    if 0 ∈ message then .output (cString message ++ asciiBytes "\n") else .fault

def data1Show (mytb : Option Bytes) : Shown :=
  withMytb mytb fun table => printHex 8 (load (byteAt table) offsetData1 4)

def data2Show (mytb : Option Bytes) : Shown :=
  withMytb mytb fun table => printHex 16 (load (byteAt table) offsetData2 8)

def signatureShow (mytb : Option Bytes) : Shown :=
  withMytb mytb fun table => .output (cString (table.take 4) ++ asciiBytes "\n")

/-- `mytb_attrs` -/
inductive Attr where
  | message
  | data1
  | data2
  | signature
  deriving DecidableEq

def Attr.sysfsShow : Attr → Option Bytes → Shown
  | .message => messageShow
  | .data1 => data1Show
  | .data2 => data2Show
  | .signature => signatureShow

/-- A file read after the table has been looked for. -/
def readAttr (attr : Attr) (mem : Bytes) : Shown :=
  attr.sysfsShow (acpiFindMytbTable (some mem)).toOption

/-! ## Accepted tables

From here on a table is one that the driver has accepted, together with whatever is behind it in
memory. The two properties are what a user of the sysfs files expects: the files are about the table
(`Agrees`), and the message is the message (`MessageInside`). The three files of fixed width need
nothing for that. -/

/-- The bytes of a table that is accepted. -/
structure MytbTable where
  bytes : Bytes
  size : bytes.length = sizeofMytbTable
  accepted : acpiFindMytbTable (some bytes) = .ok bytes

def MytbTable.message (t : MytbTable) : Bytes := t.bytes.drop offsetMessage

/-- Whatever is behind the table, every file shows the same. -/
def MytbTable.Agrees (t : MytbTable) : Prop :=
  ∀ mem mem', t.bytes <+: mem → t.bytes <+: mem' → ∀ attr, readAttr attr mem = readAttr attr mem'

/-- What is shown as the message is a part of its field, with a newline. -/
def MytbTable.MessageInside (t : MytbTable) : Prop :=
  ∀ mem text, t.bytes <+: mem → readAttr .message mem = .output text →
    ∃ s, s <+: t.message ∧ text = s ++ asciiBytes "\n"

section

variable (t : MytbTable) (rest : Bytes)

theorem load_byteAt_append {a n : Nat} (h : a + n ≤ sizeofMytbTable) :
    load (byteAt (t.bytes ++ rest)) a n = load (byteAt t.bytes) a n := by
  refine load_congr fun i _ hlt => ?_
  have hi : i < t.bytes.length := t.size ▸ Nat.lt_of_lt_of_le hlt h
  rw [byteAt, byteAt, List.getElem?_append_left hi]

/-- The length is in the part that is always there, so what is behind the table does not change the
check. -/
theorem acpiFindMytbTable_append :
    acpiFindMytbTable (some (t.bytes ++ rest)) = .ok (t.bytes ++ rest) := by
  have hlength : tableLength (byteAt (t.bytes ++ rest)) = tableLength (byteAt t.bytes) :=
    load_byteAt_append t rest (by decide)
  have haccepted := t.accepted
  simp only [acpiFindMytbTable] at haccepted ⊢
  rw [hlength]
  split at haccepted
  next => cases haccepted
  next h => rw [if_neg h]

theorem readAttr_append (attr : Attr) :
    readAttr attr (t.bytes ++ rest) = attr.sysfsShow (some (t.bytes ++ rest)) := by
  rw [readAttr, acpiFindMytbTable_append]
  rfl

/-- **The other files**: what they show is in the table. -/
theorem show_append_of_ne {attr : Attr} (hne : attr ≠ .message) :
    attr.sysfsShow (some (t.bytes ++ rest)) = attr.sysfsShow (some t.bytes) := by
  cases attr with
  | message => exact absurd rfl hne
  | data1 =>
    show printHex 8 _ = printHex 8 _
    rw [load_byteAt_append t rest (by decide)]
  | data2 =>
    show printHex 16 _ = printHex 16 _
    rw [load_byteAt_append t rest (by decide)]
  | signature =>
    show Shown.output (cString ((t.bytes ++ rest).take 4) ++ _) = _
    rw [List.take_append_of_le_length (by rw [t.size]; decide)]
    rfl

/-! ## The message

`%s` stops at the first NUL it meets, in the field or behind it. With a NUL in the field the rest of
the memory does not matter. Without one two memories tell the difference: in one the NUL follows at
once, in the other a byte later. -/

/-- The scan starts in the field and goes on behind the table. -/
theorem messageShow_append :
    messageShow (some (t.bytes ++ rest)) =
      if 0 ∈ t.message ++ rest then .output (cString (t.message ++ rest) ++ asciiBytes "\n")
      else .fault := by
  have hdrop : (t.bytes ++ rest).drop offsetMessage = t.message ++ rest :=
    List.drop_append_of_le_length (by rw [t.size]; decide)
  rw [messageShow, withMytb, hdrop]

theorem messageShow_of_mem (h : 0 ∈ t.message) :
    messageShow (some (t.bytes ++ rest)) = .output (cString t.message ++ asciiBytes "\n") := by
  rw [messageShow_append, if_pos (List.mem_append_left rest h), cString_append_of_mem h]

/-- Without a NUL in the field, the first byte behind the table is shown if it is not one. -/
theorem messageShow_of_notMem (h : 0 ∉ t.message) {s : Bytes} (hs : 0 ∉ s) :
    messageShow (some (t.bytes ++ (s ++ [0]))) =
      .output (t.message ++ s ++ asciiBytes "\n") := by
  have hall : 0 ∉ t.message ++ s := by
    rw [List.mem_append]
    exact fun hmem => hmem.elim h hs
  rw [messageShow_append, ← List.append_assoc, cString_append hall,
    if_pos (List.mem_append_right _ (List.mem_singleton_self 0))]

end

section

variable {t : MytbTable}

theorem MytbTable.messageInside_of_mem (h : 0 ∈ t.message) : t.MessageInside := by
  rintro _ text ⟨rest, rfl⟩ hread
  rw [readAttr_append] at hread
  have hshown := (messageShow_of_mem t rest h).symm.trans hread
  exact ⟨cString t.message, List.takeWhile_prefix _, (Shown.output.inj hshown).symm⟩

/-- A NUL right behind the table, and one byte later. -/
theorem MytbTable.not_agrees (h : 0 ∉ t.message) : ¬ t.Agrees := by
  intro hagrees
  have hread := hagrees _ _ (List.prefix_append _ ([] ++ [0])) (List.prefix_append _ ([1] ++ [0]))
    .message
  rw [readAttr_append, readAttr_append] at hread
  have hshown := (messageShow_of_notMem t h List.not_mem_nil).symm.trans
    (hread.trans (messageShow_of_notMem t h (s := [1]) (by decide)))
  have hlength := congrArg List.length (Shown.output.inj hshown)
  simp at hlength

theorem MytbTable.not_messageInside (h : 0 ∉ t.message) : ¬ t.MessageInside := by
  intro hinside
  obtain ⟨s, hs, htext⟩ := hinside _ _ (List.prefix_append _ ([1] ++ [0]))
    ((readAttr_append t _ .message).trans (messageShow_of_notMem t h (by decide)))
  rw [← List.append_cancel_right htext] at hs
  have hlength := hs.length_le
  simp at hlength

end

/-- **What the files show** is a function of the table exactly when there is a NUL among the 32
bytes of the message, and exactly then no byte from behind the field is shown. The other three files
do not depend on that. -/
theorem show_agrees_iff (t : MytbTable) :
    (t.Agrees ↔ 0 ∈ t.message) ∧ (t.MessageInside ↔ 0 ∈ t.message) ∧
      ∀ mem mem', t.bytes <+: mem → t.bytes <+: mem' →
        ∀ attr, attr ≠ .message → readAttr attr mem = readAttr attr mem' := by
  have hother : ∀ mem mem', t.bytes <+: mem → t.bytes <+: mem' →
      ∀ attr, attr ≠ .message → readAttr attr mem = readAttr attr mem' := by
    rintro _ _ ⟨rest, rfl⟩ ⟨rest', rfl⟩ attr hne
    rw [readAttr_append, readAttr_append, show_append_of_ne t rest hne,
      show_append_of_ne t rest' hne]
  -- a table that fails to have the NUL is refuted by the memories of the two lemmas above
  refine ⟨⟨fun h => Classical.not_not.mp fun hnul => MytbTable.not_agrees hnul h, ?_⟩,
    ⟨fun h => Classical.not_not.mp fun hnul => MytbTable.not_messageInside hnul h,
      MytbTable.messageInside_of_mem⟩, hother⟩
  rintro h _ _ ⟨rest, rfl⟩ ⟨rest', rfl⟩ attr
  by_cases hattr : attr = .message
  · subst hattr
    rw [readAttr_append, readAttr_append]
    exact (messageShow_of_mem t rest h).trans (messageShow_of_mem t rest' h).symm
  · exact hother _ _ (List.prefix_append ..) (List.prefix_append ..) attr hattr

/-- A table whose message is 31 times `A` and then one more byte. -/
def tableBytes (last : UInt8) : Bytes :=
  asciiBytes "MYTB" ++ [80, 0, 0, 0] ++ List.replicate 71 65 ++ [last]

theorem tableLength_tableBytes (last : UInt8) :
    tableLength (byteAt (tableBytes last)) = sizeofMytbTable :=
  rfl

def tableOf (last : UInt8) : MytbTable where
  bytes := tableBytes last
  size := rfl
  accepted := by rw [acpiFindMytbTable, tableLength_tableBytes, if_neg (Nat.lt_irrefl _)]

theorem show_agrees_terminated : (tableOf 0).Agrees :=
  (show_agrees_iff (tableOf 0)).1.mpr (by decide +kernel)

/-- With `B` and a NUL behind a message of 32 times `A`, the `B` is shown. -/
theorem not_show_agrees :
    ¬ (tableOf 65).Agrees ∧ ¬ (tableOf 65).MessageInside ∧
      readAttr .message ((tableOf 65).bytes ++ [66, 0]) =
        .output (List.replicate 32 65 ++ asciiBytes "B\n") := by
  have hnul : 0 ∉ (tableOf 65).message := by decide +kernel
  refine ⟨MytbTable.not_agrees hnul, MytbTable.not_messageInside hnul, ?_⟩
  rw [readAttr_append]
  exact messageShow_of_notMem (tableOf 65) hnul (s := [66]) (by decide)

/-! ## The table of `MyAddAcpi`

The application that creates the table copies 28 bytes of its text into a field of 32 that it has
zeroed before, so the case without a NUL does not arise for it. Both programs are here run one after
the other: the table is created, found, accepted and shown. -/

/-- The table as the driver finds it. -/
def image (table : Nat → UInt8) : Bytes := (List.range sizeofMytbTable).map table

/-- Reading a field in the part of a table that begins at `a`. -/
theorem load_byteAt_drop (table : Bytes) (a k n : Nat) :
    load (byteAt (table.drop a)) k n = load (byteAt table) (a + k) n := by
  induction n generalizing k with
  | zero => rfl
  | succ n ih =>
    rw [load, load, ih, byteAt, byteAt, List.getElem?_drop]
    rfl

/-- The fields of the table that was created. -/
theorem image_createCustomAcpiTable (pool : Nat → UInt8) :
    ∃ table, createCustomAcpiTable (some pool) = some table ∧
      (image table).take 4 = asciiBytes "MYTB" ∧
      tableLength (byteAt (image table)) = sizeofMytbTable ∧
      (image table).drop offsetData1 =
        [0xEF, 0xBE, 0xAD, 0xDE] ++ [0xEF, 0xCD, 0xAB, 0x89, 0x67, 0x45, 0x23, 0x01] ++
          asciiBytes "Hello from custom ACPI table" ++ [0, 0, 0, 0] :=
  ⟨_, rfl, rfl, rfl, rfl⟩

/-- **From the application to the driver**: what the files show of the table that was created,
whatever is behind it. -/
theorem show_createCustomAcpiTable (pool : Nat → UInt8) :
    ∃ t : MytbTable, (createCustomAcpiTable (some pool)).map image = some t.bytes ∧
      ∀ mem, t.bytes <+: mem →
        readAttr .signature mem = .output (asciiBytes "MYTB\n") ∧
        readAttr .data1 mem = .output (asciiBytes "0xDEADBEEF\n") ∧
        readAttr .data2 mem = .output (asciiBytes "0x0123456789ABCDEF\n") ∧
        readAttr .message mem = .output (asciiBytes "Hello from custom ACPI table\n") := by
  obtain ⟨table, hcreate, hsignature, hlength, hfields⟩ := image_createCustomAcpiTable pool
  have hdata1 : load (byteAt (image table)) offsetData1 4 = 0xDEADBEEF := by
    rw [← Nat.add_zero offsetData1, ← load_byteAt_drop, hfields]
    decide +kernel
  have hdata2 : load (byteAt (image table)) offsetData2 8 = 0x0123456789ABCDEF := by
    rw [show offsetData2 = offsetData1 + 4 from rfl, ← load_byteAt_drop, hfields]
    decide +kernel
  have hmessage : (image table).drop offsetMessage =
      asciiBytes "Hello from custom ACPI table" ++ [0, 0, 0, 0] := by
    rw [show offsetMessage = offsetData1 + 12 from rfl, ← List.drop_drop, hfields]
    decide
  -- the table is accepted: its length field is the size of the structure
  let t : MytbTable :=
    { bytes := image table
      size := by rw [image, List.length_map, List.length_range]
      accepted := by rw [acpiFindMytbTable, hlength, if_neg (Nat.lt_irrefl _)] }
  refine ⟨t, by rw [hcreate, Option.map_some], ?_⟩
  rintro _ ⟨rest, rfl⟩
  have hfixed {attr : Attr} (hne : attr ≠ .message) :
      readAttr attr (t.bytes ++ rest) = attr.sysfsShow (some (image table)) :=
    (readAttr_append t rest attr).trans (show_append_of_ne t rest hne)
  have hnul : 0 ∈ t.message := by
    rw [MytbTable.message, hmessage]
    decide
  -- the first three files read the table only; the message ends at the NUL in its field
  refine ⟨?_, ?_, ?_, ?_⟩
  · rw [hfixed (by decide), Attr.sysfsShow, signatureShow, withMytb, hsignature]
    decide
  · rw [hfixed (by decide), Attr.sysfsShow, data1Show, withMytb, hdata1]
    decide +kernel
  · rw [hfixed (by decide), Attr.sysfsShow, data2Show, withMytb, hdata2]
    decide +kernel
  · rw [readAttr_append, Attr.sysfsShow, messageShow_of_mem t rest hnul, MytbTable.message,
      hmessage]
    decide

end OsHomework.Acpi
