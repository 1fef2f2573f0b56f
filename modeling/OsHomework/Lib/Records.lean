import OsHomework.Lib.ByteMem

/-!
# Records with a length in their header, end to end in memory

A writer copies records, a header of fixed size and a body, one behind the other. A reader knows
where the first one starts and finds each further one with the length in the header before it.

* **`Format`** — how a header is stored and read back, and the length of the body it announces.
* **`walk_holds`** — over memory that holds the records, the reader finds the headers and bodies
  that were written, in order.
* **`walk_le`** — and it stays inside them.
-/

namespace Records

/-! ## Byte strings in memory

Memory is a function of the address. `Holds` is what a copy establishes and what a read needs, and
it can be split wherever a byte string can. -/

/-- The bytes `bs` stand in memory from `a` on. -/
def Holds (mem : Nat → UInt8) (a : Nat) (bs : List UInt8) : Prop :=
  ∀ i (hi : i < bs.length), mem (a + i) = bs[i]

/-- Copy `bs` to `a`. -/
def copy (mem : Nat → UInt8) (a : Nat) (bs : List UInt8) : Nat → UInt8 := fun x =>
  if h : a ≤ x ∧ x - a < bs.length then bs[x - a] else mem x

/-- The `n` bytes from `a` on. -/
def read (mem : Nat → UInt8) (a n : Nat) : List UInt8 := (List.range n).map fun i => mem (a + i)

variable {mem : Nat → UInt8} {a b : Nat} {bs cs : List UInt8}

/-- Two byte strings one behind the other. -/
theorem holds_append :
    Holds mem a (bs ++ cs) ↔ Holds mem a bs ∧ Holds mem (a + bs.length) cs := by
  constructor
  · refine fun h => ⟨fun i hi => ?_, fun i hi => ?_⟩
    -- the front
    · rw [h i (by rw [List.length_append]; omega), List.getElem_append_left hi]
    · have hin : bs.length + i < (bs ++ cs).length := by
        rw [List.length_append]
        omega
      -- the rest, whose positions are counted from the end of the front
      rw [Nat.add_assoc, h _ hin, List.getElem_append_right (by omega)]
      simp only [Nat.add_sub_cancel_left]
  · rintro ⟨hbs, hcs⟩ i hi
    rw [List.length_append] at hi
    -- an address is in one of the two
    by_cases hlt : i < bs.length
    · rw [hbs i hlt, List.getElem_append_left hlt]
    · have hback := hcs (i - bs.length) (by omega)
      rw [show a + bs.length + (i - bs.length) = a + i by omega] at hback
      rw [hback, List.getElem_append_right (by omega)]

/-- What was copied is there. -/
theorem holds_copy : Holds (copy mem a bs) a bs := by
  intro i hi
  rw [copy, dif_pos ⟨Nat.le_add_right a i, by omega⟩]
  simp only [Nat.add_sub_cancel_left]

/-- A copy behind a byte string leaves it alone. -/
theorem Holds.copy_behind (h : Holds mem a bs) (hb : a + bs.length ≤ b) :
    Holds (copy mem b cs) a bs := by
  intro i hi
  rw [copy, dif_neg (by omega), h i hi]

theorem length_read (mem : Nat → UInt8) (a n : Nat) : (read mem a n).length = n := by
  rw [read, List.length_map, List.length_range]

/-- Reading gives back what is there. -/
theorem Holds.read_eq (h : Holds mem a bs) : read mem a bs.length = bs := by
  refine List.ext_getElem (length_read mem a bs.length) fun i _ hi => ?_
  simp only [read, List.getElem_map, List.getElem_range]
  exact h i hi

/-- The `n` bytes of a number, least significant first. -/
def leBytes (n v : Nat) : List UInt8 := (List.range n).map fun i => UInt8.ofNat (v / 256 ^ i)

theorem length_leBytes (n v : Nat) : (leBytes n v).length = n := by
  rw [leBytes, List.length_map, List.length_range]

/-- A number that was stored is loaded again. -/
theorem Holds.load_eq {n v : Nat} (h : Holds mem a (leBytes n v)) :
    ByteMem.load mem a n = v % 256 ^ n := by
  refine ByteMem.load_digits fun i hi => ?_
  rw [h i (by rwa [length_leBytes])]
  simp only [leBytes, List.getElem_map, List.getElem_range]

/-! ## Records

A reader has no list of the records, only an address. That it finds the next one depends on the
header it has read before: the proofs go along the list of records, the address moving with it. -/

/-- How headers of type `H` are stored, and the length of the body a header announces. -/
structure Format (H : Type) where
  size : Nat
  encode : H → List UInt8
  length_encode : ∀ h, (encode h).length = size
  load : (Nat → UInt8) → Nat → H
  load_encode : ∀ mem a h, Holds mem a (encode h) → load mem a = h
  bodyLen : H → Nat

variable {H : Type} {F : Format H}

/-- A header with the body it announces. -/
structure Record (F : Format H) where
  header : H
  body : List UInt8
  length_body : body.length = F.bodyLen header

def Record.bytes (r : Record F) : List UInt8 := F.encode r.header ++ r.body

/-- The records one behind the other. -/
def layout (rs : List (Record F)) : List UInt8 := rs.flatMap Record.bytes

/-- The length of a record is what its header says. -/
theorem Record.length_bytes (r : Record F) : r.bytes.length = F.size + F.bodyLen r.header := by
  rw [Record.bytes, List.length_append, F.length_encode, r.length_body]

/-- A record more at the end. -/
theorem layout_concat (rs : List (Record F)) (r : Record F) :
    layout (rs ++ [r]) = layout rs ++ r.bytes := by
  simp [layout]

theorem length_layout (rs : List (Record F)) :
    (layout rs).length = (rs.map fun r => F.size + F.bodyLen r.header).sum := by
  induction rs with
  | nil => rfl
  | cons r rs ih =>
    rw [layout, List.flatMap_cons, List.length_append, r.length_bytes, List.map_cons,
      List.sum_cons, ← ih]
    rfl

/-- Where the reader finds the headers of `n` records from `a` on, with what they say. -/
def walk (F : Format H) (mem : Nat → UInt8) : Nat → Nat → List (Nat × H)
  | _, 0 => []
  | a, n + 1 => (a, F.load mem a) :: walk F mem (a + F.size + F.bodyLen (F.load mem a)) n

/-- The two parts of a record in memory, and the records behind it. -/
theorem holds_layout_cons {r : Record F} {rs : List (Record F)}
    (h : Holds mem a (layout (r :: rs))) :
    F.load mem a = r.header ∧ Holds mem (a + F.size) r.body ∧
      Holds mem (a + F.size + F.bodyLen r.header) (layout rs) := by
  rw [layout, List.flatMap_cons, holds_append, r.length_bytes, Record.bytes, holds_append,
    F.length_encode, ← Nat.add_assoc] at h
  exact ⟨F.load_encode mem a r.header h.1.1, h.1.2, h.2⟩

theorem walk_holds {rs : List (Record F)} (h : Holds mem a (layout rs)) :
    (walk F mem a rs.length).map (fun x => (x.2, read mem (x.1 + F.size) (F.bodyLen x.2))) =
      rs.map fun r => (r.header, r.body) := by
  induction rs generalizing a with
  | nil => rfl
  | cons r rs ih =>
    obtain ⟨hheader, hbody, hrest⟩ := holds_layout_cons h
    have hread : read mem (a + F.size) (F.bodyLen r.header) = r.body := by
      rw [← r.length_body]
      exact hbody.read_eq
    rw [List.length_cons, walk, List.map_cons, List.map_cons, hheader, hread, ih hrest]

theorem walk_le {rs : List (Record F)} (h : Holds mem a (layout rs)) :
    ∀ x ∈ walk F mem a rs.length, x.1 + F.size + F.bodyLen x.2 ≤ a + (layout rs).length := by
  induction rs generalizing a with
  | nil => exact fun _ hx => absurd hx List.not_mem_nil
  | cons r rs ih =>
    obtain ⟨hheader, -, hrest⟩ := holds_layout_cons h
    have hlen : (layout (r :: rs)).length = F.size + F.bodyLen r.header + (layout rs).length := by
      rw [layout, List.flatMap_cons, List.length_append, r.length_bytes]
      rfl
    rw [List.length_cons, walk, hheader, hlen]
    intro x hx
    -- the first record ends where the others begin
    rcases List.mem_cons.mp hx with rfl | hx
    · show a + F.size + F.bodyLen r.header ≤ _
      omega
    · have hle := ih hrest x hx
      omega

end Records
