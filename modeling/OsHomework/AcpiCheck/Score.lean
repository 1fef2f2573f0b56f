import Mathlib.Algebra.Field.Rat
import OsHomework.AcpiCheck.RoundTrip

/-!
# AcpiCheck — the score of an answer

`compare_tables` looks up each table of the system in the answer and compares three fields of the
header; that the bytes are different is only printed. The tables of the system are named after the
files that `acpidump` writes, those of the answer after the four characters of a header line.

* **`take_withStray`** — the first line of a dump is read back whatever the others hold, and the
  three fields are in it.
* **`signature_of_mem`** — the signatures of an answer are four word characters, whatever its
  text is.
* **`correct_listings`** — the tables of an answer of listings that are counted.
* **`perfect_score_iff`** — when there is an answer that gets all of the score.
-/

namespace OsHomework.AcpiCheck

open ByteFile Regex

abbrev Tables := List (Text × TableInfo)

/-! ## `get_system_acpi_tables`

The directory is given with the bytes of its files, in the order in which `os.listdir` lists them. A
key is the file name without its extension, in upper case, and is not compared with the signature in
the file. `upper` is the `str.upper` of Python, of which nothing is assumed. -/

section

variable (py : PyChars) (upper : Text → Text)

/-- `f.endswith(".dat")` -/
def isDat (filename : Text) : Bool := ['.', 'd', 'a', 't'].isSuffixOf filename

/-- `filename[:-4].upper()` -/
def fileSignature (filename : Text) : Text := upper (filename.take (filename.length - 4))

/-- What is done for a file, whose name and bytes are given. -/
def addFile (acc : Tables × List String) (file : Text × Bytes) : Tables × List String :=
  let name := String.ofList file.1
  -- `struct.unpack` gets exactly the 36 bytes it wants
  if 36 ≤ file.2.length then
    (setTable (fileSignature upper file.1) (tableInfo py ['N', '/', 'A'] file.2) acc.1,
      acc.2 ++
        if ((file.2.drop 10).take 6).all (· < 128) then []
        else ["Warning: OEM ID in " ++ name ++
          " contains non-ASCII bytes. Decoded using 'latin1'."])
  else (acc.1, acc.2 ++ ["File " ++ name ++ " is too short to parse ACPI table header."])

/-- The dictionary that is returned for the files of the directory, and the lines that are
printed. -/
def getSystemAcpiTables (dir : List (Text × Bytes)) : Tables × List String :=
  (dir.filter fun file => isDat file.1).foldl (addFile py upper) ([], [])

end

/-! ## `compare_tables`

Every table of the system is looked up by its key. The address is not compared in practice, because
tables of the system have `N/A` for it. Five lines may be printed below `Incorrect`, but only four
of the five comparisons decide, and the content is not among them. -/

/-- `str.lower`, of hexadecimal digits -/
def lower (s : Text) : Text := s.map Char.toLower

def addressMatch (sysInfo studInfo : TableInfo) : Bool :=
  sysInfo.address = studInfo.address || sysInfo.address = ['N', '/', 'A']

def lengthMatch (sysInfo studInfo : TableInfo) : Bool := sysInfo.length = studInfo.length

def oemIdMatch (sysInfo studInfo : TableInfo) : Bool := sysInfo.oemId = studInfo.oemId

def checksumMatch (sysInfo studInfo : TableInfo) : Bool :=
  lower sysInfo.checksum = lower studInfo.checksum

def contentMatch (sysInfo studInfo : TableInfo) : Bool := sysInfo.data = studInfo.data

/-- The table is counted. -/
def isCorrect (sysInfo studInfo : TableInfo) : Bool :=
  addressMatch sysInfo studInfo && lengthMatch sysInfo studInfo &&
    oemIdMatch sysInfo studInfo && checksumMatch sysInfo studInfo

/-- The lines below `Incorrect`. -/
def mismatches (sysInfo studInfo : TableInfo) : List String :=
  (if addressMatch sysInfo studInfo then []
    else ["\tPhysical address mismatch. System: " ++ String.ofList sysInfo.address ++
      ", Student: " ++ String.ofList studInfo.address]) ++
  (if lengthMatch sysInfo studInfo then []
    else ["\tTable length mismatch. System: " ++ toString sysInfo.length ++
      ", Student: " ++ toString studInfo.length]) ++
  (if oemIdMatch sysInfo studInfo then []
    else ["\tOEM ID mismatch. System: '" ++ String.ofList sysInfo.oemId ++
      "', Student: '" ++ String.ofList studInfo.oemId ++ "'"]) ++
  (if checksumMatch sysInfo studInfo then []
    else ["\tChecksum mismatch. System: " ++ String.ofList sysInfo.checksum ++
      ", Student: " ++ String.ofList studInfo.checksum]) ++
  (if contentMatch sysInfo studInfo then [] else ["\tTable content mismatch."])

/-- One round of the loop: the tables counted so far and the lines printed so far. -/
def compareTable (studentTables : Tables) (acc : Nat × List String) (table : Text × TableInfo) :
    Nat × List String :=
  let name := String.ofList table.1
  match studentTables.lookup table.1 with
  | none => (acc.1, acc.2 ++ ["Table " ++ name ++ ": Not found in Answer output."])
  | some studInfo =>
    if isCorrect table.2 studInfo then (acc.1 + 1, acc.2 ++ ["Table " ++ name ++ ": Correct"])
    else
      (acc.1, acc.2 ++ ("Table " ++ name ++ ": Incorrect") :: mismatches table.2 studInfo)

/-- The tables that are counted, and the lines that are printed for the tables. -/
def compareTables (systemTables studentTables : Tables) : Nat × List String :=
  systemTables.foldl (compareTable studentTables) (0, [])

/-- `score`, before it is rounded -/
def score (systemTables studentTables : Tables) : ℚ :=
  if systemTables.length > 0 then
    ((compareTables systemTables studentTables).1 / systemTables.length) * 100
  else 0

/-- The table of the answer is there and is counted. -/
def counted (studentTables : Tables) (table : Text × TableInfo) : Bool :=
  (studentTables.lookup table.1).any (isCorrect table.2)

/-- A round of the loop adds one or nothing, whatever it prints. -/
theorem compareTable_fst (studentTables : Tables) (acc : Nat × List String)
    (table : Text × TableInfo) :
    (compareTable studentTables acc table).1 =
      acc.1 + if counted studentTables table then 1 else 0 := by
  unfold compareTable counted
  cases hlookup : studentTables.lookup table.1 with
  | none => rfl
  | some studInfo =>
    show _ = acc.1 + if isCorrect table.2 studInfo then 1 else 0
    by_cases hcorrect : isCorrect table.2 studInfo = true
    · simp [hcorrect]
    · simp [hcorrect]

/-- **The count** is that of the tables that are found and correct. -/
theorem compareTables_fst (systemTables studentTables : Tables) :
    (compareTables systemTables studentTables).1 = systemTables.countP (counted studentTables) := by
  have hfold : ∀ acc : Nat × List String,
      (systemTables.foldl (compareTable studentTables) acc).1 =
        acc.1 + systemTables.countP (counted studentTables) := by
    induction systemTables with
    | nil => exact fun acc => rfl
    | cons table systemTables ih =>
      intro acc
      rw [List.foldl_cons, ih, compareTable_fst, List.countP_cons]
      omega
  have hzero := hfold (0, [])
  rw [Nat.zero_add] at hzero
  exact hzero

theorem score_eq_hundred_iff (systemTables studentTables : Tables) :
    score systemTables studentTables = 100 ↔
      systemTables ≠ [] ∧ ∀ table ∈ systemTables, counted studentTables table = true := by
  by_cases hnil : systemTables = []
  · subst hnil
    simp [score]
  · have hpos : 0 < systemTables.length := List.length_pos_iff.mpr hnil
    have hne : (systemTables.length : ℚ) ≠ 0 := Nat.cast_ne_zero.mpr (by omega)
    rw [score, if_pos hpos, compareTables_fst, ← List.countP_eq_length, and_iff_right hnil]
    -- the quotient is one exactly when every table is counted
    constructor
    · intro hscore
      have hone : (systemTables.countP (counted studentTables) : ℚ) / systemTables.length = 1 := by
        linarith
      rw [div_eq_one_iff_eq hne] at hone
      exact_mod_cast hone
    · intro hcount
      rw [hcount, div_self hne, one_mul]

/-! ## The fields that are compared

The three fields lie in the first sixteen bytes of a table, that is in the first line of its dump.
Stray words come behind the bytes of a line, so the fields are read back correctly from every dump,
also from one whose content is not. -/

variable {py : PyChars} {upper : Text → Text}

/-- The first line of a dump is read back: words of its column come behind it. -/
theorem take_withStray {data : Bytes} (hlength : 16 ≤ data.length) :
    (withStray data).take 16 = data.take 16 := by
  have hcount : (data.length + 15) / 16 = (data.length + 15) / 16 - 1 + 1 := by omega
  have hfront : (data.take 16).length = 16 := by
    rw [List.length_take]
    omega
  rw [withStray, chunks, hcount, List.range_succ_eq_map, List.map_cons, List.flatMap_cons,
    List.append_assoc]
  show (data.take 16 ++ _).take 16 = data.take 16
  exact List.take_left' hfront

/-- `Length`, `OEMID` and `Checksum` are the same. -/
def sameHeader (py : PyChars) (a b : Bytes) : Bool :=
  ByteMem.load (fun i => (a[i]?).getD 0) 4 4 = ByteMem.load (fun i => (b[i]?).getD 0) 4 4 &&
    decodeOemId py ((a.drop 10).take 6) = decodeOemId py ((b.drop 10).take 6) &&
    (a[9]?).getD 0 = (b[9]?).getD 0

/-- Checksums are compared as text in lower case, which is as good as comparing the bytes. -/
theorem lower_format_inj {a b : UInt8} :
    lower (Hex.format 2 a.toNat) = lower (Hex.format 2 b.toNat) ↔ a = b := by
  have hall : ∀ n < 256, Hex.byteOf (lower (Hex.format 2 n)) = UInt8.ofNat n := by decide +kernel
  have hbyte (c : UInt8) : Hex.byteOf (lower (Hex.format 2 c.toNat)) = c := by
    rw [hall c.toNat c.toNat_lt, UInt8.ofNat_toNat]
  constructor
  · intro h
    rw [← hbyte a, h, hbyte b]
  · exact fun h => congrArg (fun c : UInt8 => lower (Hex.format 2 c.toNat)) h

/-- A table of the system has no address, so the address is not compared. -/
theorem isCorrect_tableInfo (a b : Bytes) (address : Text) :
    isCorrect (tableInfo py ['N', '/', 'A'] a) (tableInfo py address b) = sameHeader py a b := by
  have haddress :
      addressMatch (tableInfo py ['N', '/', 'A'] a) (tableInfo py address b) = true := by
    show (_ || decide (['N', '/', 'A'] = ['N', '/', 'A'])) = true
    rw [decide_eq_true rfl, Bool.or_true]
  have hchecksum : checksumMatch (tableInfo py ['N', '/', 'A'] a) (tableInfo py address b) =
      decide ((a[9]?).getD 0 = (b[9]?).getD 0) :=
    decide_eq_decide.mpr lower_format_inj
  rw [isCorrect, haddress, hchecksum, Bool.true_and]
  rfl

/-- Only the first sixteen bytes matter for the three fields. -/
theorem sameHeader_congr {a b b' : Bytes} (h : b'.take 16 = b.take 16) :
    sameHeader py a b' = sameHeader py a b := by
  have hbyte {i : Nat} (hi : i < 16) : b'[i]? = b[i]? := by
    rw [← List.getElem?_take_of_lt hi, h, List.getElem?_take_of_lt hi]
  have hload : ByteMem.load (fun i => (b'[i]?).getD 0) 4 4 =
      ByteMem.load (fun i => (b[i]?).getD 0) 4 4 :=
    ByteMem.load_congr fun x _ hlt => congrArg (Option.getD · 0) (hbyte (by omega))
  have hoem : (b'.drop 10).take 6 = (b.drop 10).take 6 := by
    show (b'.drop 10).take (16 - 10) = (b.drop 10).take (16 - 10)
    rw [← List.drop_take, ← List.drop_take, h]
  rw [sameHeader, hload, hoem, hbyte (by decide), sameHeader]

theorem sameHeader_self (a : Bytes) : sameHeader py a a = true := by
  simp [sameHeader]

/-- **A listing** is counted for the fields of its own data, with words in the column or not. -/
theorem isCorrect_listing (a : Bytes) {t : Listing py} (hlength : 36 ≤ t.data.length) :
    isCorrect (tableInfo py ['N', '/', 'A'] a) t.info = sameHeader py a t.data := by
  have htake : (withStray (t.data.take 65536)).take 16 = t.data.take 16 := by
    rw [take_withStray (by rw [List.length_take]; omega), List.take_take]
    rfl
  rw [Listing.info, isCorrect_tableInfo, sameHeader_congr htake]

/-! ## The tables of the system

The dictionary of the system has one entry per key, in which the address is `N/A` and the data has a
header. The loop over the files keeps this, whatever the files are called. -/

theorem mem_setTable {signature : Text} {info : TableInfo} {tables : Tables}
    {table : Text × TableInfo} (h : table ∈ setTable signature info tables) :
    table = (signature, info) ∨ table ∈ tables := by
  induction tables with
  | nil => exact .inl (List.mem_singleton.mp h)
  | cons head tables ih =>
    obtain ⟨key, value⟩ := head
    rw [setTable] at h
    split at h
    next hkey =>
      subst hkey
      exact (List.mem_cons.mp h).imp_right (List.mem_cons_of_mem _)
    next =>
      rcases List.mem_cons.mp h with rfl | htail
      · exact .inr List.mem_cons_self
      · exact (ih htail).imp_right (List.mem_cons_of_mem _)

theorem nodup_setTable {signature : Text} {info : TableInfo} {tables : Tables}
    (h : (tables.map Prod.fst).Nodup) : ((setTable signature info tables).map Prod.fst).Nodup := by
  induction tables with
  | nil => exact List.nodup_singleton signature
  | cons head tables ih =>
    obtain ⟨key, value⟩ := head
    rw [setTable]
    split
    next => exact h
    next hkey =>
      rw [List.map_cons, List.nodup_cons] at h ⊢
      refine ⟨fun hmem => ?_, ih h.2⟩
      obtain ⟨table, htable, hfst⟩ := List.mem_map.mp hmem
      -- a key found twice would be the new one or one of the old ones
      rcases mem_setTable htable with rfl | hold
      · exact hkey hfst.symm
      · exact h.1 (List.mem_map.mpr ⟨table, hold, hfst⟩)

/-- What the dictionary of the system holds: one table for each key, with at least a header and
without an address. -/
structure SystemInv (py : PyChars) (tables : Tables) : Prop where
  nodup : (tables.map Prod.fst).Nodup
  length : ∀ table ∈ tables, 36 ≤ table.2.data.length
  info : ∀ table ∈ tables, table.2 = tableInfo py ['N', '/', 'A'] table.2.data

theorem SystemInv.addFile {acc : Tables × List String} (h : SystemInv py acc.1)
    (file : Text × Bytes) : SystemInv py (addFile py upper acc file).1 := by
  by_cases hlength : 36 ≤ file.2.length
  · have htables : (AcpiCheck.addFile py upper acc file).1 =
        setTable (fileSignature upper file.1) (tableInfo py ['N', '/', 'A'] file.2) acc.1 := by
      simp only [AcpiCheck.addFile, if_pos hlength]
    rw [htables]
    -- the new entry has what it needs, and the others are those from before
    refine ⟨nodup_setTable h.nodup, fun table htable => ?_, fun table htable => ?_⟩
    · rcases mem_setTable htable with rfl | hold
      · exact hlength
      · exact h.length table hold
    · rcases mem_setTable htable with rfl | hold
      · rfl
      · exact h.info table hold
  · have htables : (AcpiCheck.addFile py upper acc file).1 = acc.1 := by
      simp only [AcpiCheck.addFile, if_neg hlength]
    rw [htables]
    exact h

theorem systemInv_getSystemAcpiTables (dir : List (Text × Bytes)) :
    SystemInv py (getSystemAcpiTables py upper dir).1 := by
  have hfold (files : List (Text × Bytes)) : ∀ acc : Tables × List String, SystemInv py acc.1 →
      SystemInv py (files.foldl (addFile py upper) acc).1 := by
    induction files with
    | nil => exact fun _ h => h
    | cons file files ih => exact fun acc h => ih _ (h.addFile file)
  exact hfold _ ([], []) ⟨List.nodup_nil, fun _ h => absurd h List.not_mem_nil,
    fun _ h => absurd h List.not_mem_nil⟩

/-! ## The signatures of an answer

This is about arbitrary text, not only about listings. Whatever is written into an answer, a key of
the dictionary went through `(\w{4})`, and there is no other way into the dictionary. -/

/-- Four word characters. -/
def isSignature (py : PyChars) (s : Text) : Bool := s.length = 4 && s.all py.word

/-- The first group of a header is what `\w{4}` has matched. -/
theorem isSignature_of_header {sec signature address : Text}
    (h : (matchStart (headerPattern py) sec).map (·.groups) = some [signature, address]) :
    isSignature py signature = true := by
  obtain ⟨e, hfirst, hgroups⟩ := Option.map_eq_some_iff.mp h
  have hmem : e ∈ ends (headerPattern py) ⟨none, sec, []⟩ := List.mem_of_head? hfirst
  rw [headerPattern, ends_seq_of_eq ends_textStart, ends_seq, List.mem_flatMap] at hmem
  obtain ⟨f, hf, hrest⟩ := hmem
  obtain ⟨xs, hlength, hword, hf⟩ := mem_ends_group_rep hf
  have hprefix : f.groups <+: e.groups := groups_prefix_of_mem_ends hrest
  rw [hf, hgroups] at hprefix
  have hsignature : xs = signature := by
    obtain ⟨more, hmore⟩ := hprefix
    exact (List.cons.inj hmore).1
  subst hsignature
  rw [isSignature, decide_eq_true hlength, Bool.true_and, List.all_eq_true]
  exact hword

theorem isSignature_of_parseSection {sec : Text} {table : Text × TableInfo}
    (h : (parseSection py sec).1 = some table) : isSignature py table.1 = true := by
  -- a section is dropped when it is blank, has no header, is not hexadecimal or is too short
  unfold parseSection at h
  split at h
  next => cases h
  next =>
    split at h
    next signature address hheader =>
      simp only at h
      split at h
      next => cases h
      next data _ =>
        split at h
        next =>
          cases h
          exact isSignature_of_header hheader
        next => cases h
    next => cases h

/-- **The signatures of an answer**, whatever its text is. -/
theorem signature_of_mem {content : Text} {table : Text × TableInfo}
    (h : table ∈ (parseStudentOutput py content).1) : isSignature py table.1 = true := by
  have hfold (secs : List Text) : ∀ acc : Tables × List String,
      (∀ table ∈ acc.1, isSignature py table.1 = true) →
      ∀ table ∈ (secs.foldl (addSection py) acc).1, isSignature py table.1 = true := by
    -- section after section: each adds one key at most
    induction secs with
    | nil => exact fun _ h => h
    | cons sec secs ih =>
      intro acc hacc
      refine ih _ fun table htable => ?_
      have htables : (addSection py acc sec).1 =
          (parseSection py sec).1.elim acc.1 fun t => setTable t.1 t.2 acc.1 := rfl
      rw [htables] at htable
      cases hsec : (parseSection py sec).1 with
      | none =>
        rw [hsec] at htable
        exact hacc table htable
      | some added =>
        rw [hsec] at htable
        rcases mem_setTable htable with rfl | hold
        · exact isSignature_of_parseSection hsec
        · exact hacc table hold
  exact hfold (split (sectionPattern py) content) ([], [])
    (fun _ hnone => absurd hnone List.not_mem_nil) table h

/-- What is found in a dictionary is in it. -/
theorem mem_of_lookup {tables : Tables} {s : Text} {info : TableInfo}
    (h : tables.lookup s = some info) : (s, info) ∈ tables := by
  obtain ⟨front, back, htables, -⟩ := List.lookup_eq_some_iff.mp h
  rw [htables]
  exact List.mem_append_right front List.mem_cons_self

/-! ## Scores

For an answer of listings the count can be computed from the data alone. The other direction, that
there is an answer with a full score, is shown with the most natural answer: a dump of each table.
It is printed with any address and is counted although its content may be read back wrongly. -/

/-- Nothing is found for a signature that is not listed. -/
theorem lookup_parseStudentOutput_of_notMem {ts : List (Listing py)} {s : Text}
    (hs : s ∉ ts.map Listing.signature) :
    (parseStudentOutput py (ts.flatMap Listing.text)).1.lookup s = none := by
  rw [parseStudentOutput, split_listings, List.foldl_cons, lookup_foldl_of_notMem hs]
  rfl

theorem counted_listings {tables : Tables} (hinv : SystemInv py tables) {ts : List (Listing py)}
    (hts : (ts.map Listing.signature).Nodup) (hlength : ∀ t ∈ ts, 36 ≤ t.data.length)
    {table : Text × TableInfo} (htable : table ∈ tables) :
    counted (parseStudentOutput py (ts.flatMap Listing.text)).1 table =
      ts.any fun t => t.signature = table.1 && sameHeader py table.2.data t.data := by
  -- a table that is listed is found and compared, another one is not found
  by_cases hlisted : table.1 ∈ ts.map Listing.signature
  · obtain ⟨t, ht, hsignature⟩ := List.mem_map.mp hlisted
    -- it is the only listing with this signature
    have honly : ∀ u ∈ ts, u.signature = table.1 → u = t := fun u hu hsame =>
      List.inj_on_of_nodup_map hts hu ht (hsame.trans hsignature.symm)
    have hcorrect : isCorrect table.2 t.info = sameHeader py table.2.data t.data := by
      rw [hinv.info table htable]
      exact isCorrect_listing _ (hlength t ht)
    rw [counted, ← hsignature, lookup_parseStudentOutput hts ht (hlength t ht), Option.any_some,
      hcorrect, Bool.eq_iff_iff, List.any_eq_true]
    constructor
    · intro hsame
      refine ⟨t, ht, ?_⟩
      rw [decide_eq_true rfl, Bool.true_and]
      exact hsame
    · rintro ⟨u, hu, hsame⟩
      rw [Bool.and_eq_true, decide_eq_true_eq] at hsame
      rw [honly u hu (hsame.1.trans hsignature)] at hsame
      exact hsame.2
  · rw [counted, lookup_parseStudentOutput_of_notMem hlisted, Option.any_none, eq_comm,
      List.any_eq_false]
    intro t ht hsame
    rw [Bool.and_eq_true, decide_eq_true_eq] at hsame
    exact hlisted (List.mem_map.mpr ⟨t, ht, hsame.1⟩)

/-- **The count of an answer of listings** is that of the tables of the system that are listed with
the same length, OEM id and checksum. Nothing else of the data counts. -/
theorem correct_listings (dir : List (Text × Bytes)) (ts : List (Listing py))
    (hts : (ts.map Listing.signature).Nodup) (hlength : ∀ t ∈ ts, 36 ≤ t.data.length) :
    (compareTables (getSystemAcpiTables py upper dir).1
        (parseStudentOutput py (ts.flatMap Listing.text)).1).1 =
      (getSystemAcpiTables py upper dir).1.countP fun table =>
        ts.any fun t => t.signature = table.1 && sameHeader py table.2.data t.data := by
  rw [compareTables_fst]
  refine List.countP_congr fun table htable => ?_
  rw [counted_listings (systemInv_getSystemAcpiTables dir) hts hlength htable]

/-- The files `facp.dat` and `ssdt1.dat`. -/
def twoFiles : List (Text × Bytes) :=
  [(['f', 'a', 'c', 'p', '.', 'd', 'a', 't'], List.replicate 36 0),
    (['s', 's', 'd', 't', '1', '.', 'd', 'a', 't'], List.replicate 36 0)]

/-- A listing that is different from the seventeenth byte on is counted. -/
theorem correct_listings_front :
    (compareTables (getSystemAcpiTables .ascii (List.map Char.toUpper) twoFiles).1
      (parseStudentOutput .ascii ([facp (List.replicate 16 0 ++ List.replicate 20 0x41)].flatMap
        Listing.text)).1).1 = 1 := by
  rw [correct_listings twoFiles [facp (List.replicate 16 0 ++ List.replicate 20 0x41)]
    (List.nodup_singleton _) fun t ht => by rw [List.mem_singleton.mp ht]; decide]
  decide +kernel

/-- There are listings of the tables. -/
theorem exists_listings {tables : Tables} (h : ∀ table ∈ tables, isSignature py table.1 = true) :
    ∃ ts : List (Listing py), ts.map (fun t => (t.signature, t.data)) =
      tables.map fun table => (table.1, table.2.data) := by
  -- an address must be there; any word will do
  induction tables with
  | nil => exact ⟨[], rfl⟩
  | cons table tables ih =>
    obtain ⟨ts, hts⟩ := ih fun table htable => h table (List.mem_cons_of_mem _ htable)
    have hsignature := h table List.mem_cons_self
    rw [isSignature, Bool.and_eq_true, decide_eq_true_eq, List.all_eq_true] at hsignature
    have hzero : py.word '0' = true := py.word_of_isDigit (by decide)
    let t : Listing py :=
      { signature := table.1
        signature_length := hsignature.1
        signature_word := hsignature.2
        address := ['0']
        address_ne := List.cons_ne_nil _ _
        address_word := fun c hc => List.mem_singleton.mp hc ▸ hzero
        remark := []
        remark_head := fun c hc => by cases hc
        remark_line := fun c hc => by cases hc
        data := table.2.data }
    refine ⟨t :: ts, ?_⟩
    rw [List.map_cons, List.map_cons, hts]

/-- The dumps of the tables themselves are all counted. -/
theorem counted_dumps {tables : Tables} (hinv : SystemInv py tables) {ts : List (Listing py)}
    (hts : ts.map (fun t => (t.signature, t.data)) =
      tables.map fun table => (table.1, table.2.data)) :
    ∀ table ∈ tables,
      counted (parseStudentOutput py (ts.flatMap Listing.text)).1 table = true := by
  have hsignatures : ts.map Listing.signature = tables.map Prod.fst := by
    have hfst := congrArg (List.map Prod.fst) hts
    rw [List.map_map, List.map_map] at hfst
    exact hfst
  have hfrom : ∀ t ∈ ts, ∃ table ∈ tables, (table.1, table.2.data) = (t.signature, t.data) :=
    fun t ht => List.mem_map.mp (hts ▸ List.mem_map.mpr ⟨t, ht, rfl⟩)
  have hlength : ∀ t ∈ ts, 36 ≤ t.data.length := by
    intro t ht
    obtain ⟨table, htable, heq⟩ := hfrom t ht
    rw [Prod.mk.injEq] at heq
    rw [← heq.2]
    exact hinv.length table htable
  intro table htable
  rw [counted_listings hinv (hsignatures ▸ hinv.nodup) hlength htable, List.any_eq_true]
  obtain ⟨t, ht, heq⟩ := List.mem_map.mp (hts ▸ List.mem_map.mpr ⟨table, htable, rfl⟩ :
    (table.1, table.2.data) ∈ ts.map fun t => (t.signature, t.data))
  rw [Prod.mk.injEq] at heq
  refine ⟨t, ht, ?_⟩
  rw [heq.1, heq.2, decide_eq_true rfl, Bool.true_and]
  exact sameHeader_self _

/-- Every signature found in a text is four word characters. So **all of the score** can be had, by
any text, exactly when all tables of the system are named by four word characters: one that comes
from `ssdt1.dat` is never found. -/
theorem perfect_score_iff (dir : List (Text × Bytes)) :
    (∀ content, ∀ table ∈ (parseStudentOutput py content).1, isSignature py table.1 = true) ∧
      ((∃ content,
        score (getSystemAcpiTables py upper dir).1 (parseStudentOutput py content).1 = 100) ↔
        (getSystemAcpiTables py upper dir).1 ≠ [] ∧
          ∀ table ∈ (getSystemAcpiTables py upper dir).1, isSignature py table.1 = true) := by
  refine ⟨fun content table => signature_of_mem, ?_⟩
  constructor
  -- a table that is counted has been found, and its key is one of an answer
  · rintro ⟨content, hscore⟩
    obtain ⟨hne, hall⟩ := (score_eq_hundred_iff _ _).mp hscore
    refine ⟨hne, fun table htable => ?_⟩
    have hcounted := hall table htable
    unfold counted at hcounted
    cases hlookup : (parseStudentOutput py content).1.lookup table.1 with
    | none =>
      rw [hlookup] at hcounted
      cases hcounted
    | some info =>
      have hsignature := signature_of_mem (mem_of_lookup hlookup)
      exact hsignature
  -- the dumps of the tables are such an answer
  · rintro ⟨hne, hall⟩
    obtain ⟨ts, hts⟩ := exists_listings hall
    exact ⟨ts.flatMap Listing.text, (score_eq_hundred_iff _ _).mpr
      ⟨hne, counted_dumps (systemInv_getSystemAcpiTables dir) hts⟩⟩

end OsHomework.AcpiCheck
