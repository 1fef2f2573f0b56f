import OsHomework.AcpiCheck.Lines

/-!
# AcpiCheck — what is recovered from a dump

The words of a line of the dump are the sixteen bytes and the words of the ASCII column. A word of
the column that is two hexadecimal digits is taken for one more byte.

* **`lineBytes_columns`** — the words of a line that are taken for bytes.
* **`unhexlify_hexData`** — the bytes of a listing: those of the first 65536 bytes of its data, with
  the words of the column between them.
* **`lookup_parseStudentOutput`** — the table that an answer has for each of its listings.
* **`recovers_iff`** — when it has the data of the listing.
-/

namespace OsHomework.AcpiCheck

open ByteFile Fields Regex

variable {py : PyChars}

/-! ## Words

A line is stripped and split at white space, and each word is matched against two digits with `^`
and `$` around them. `$` also matches in front of a final newline, but no word has one. What is left
over are the bytes in order, followed by the words of the ASCII column that happen to be two digits.
-/

/-- Nothing is stripped from a text without white space. -/
theorem strip_eq_self {s : Text} (h : ∀ c ∈ s, py.space c = false) : strip py s = s := by
  have hfront : s.dropWhile py.space = s := by
    cases s with
    | nil => rfl
    | cons c cs => rw [List.dropWhile_cons_of_neg (by simp [h c List.mem_cons_self])]
  rw [strip, hfront, List.rdropWhile_eq_self_iff]
  intro hne
  rw [h _ (List.getLast_mem hne)]
  exact Bool.false_ne_true

theorem fields_strip (s : Text) : fields py.space (strip py s) = fields py.space s := by
  have hend : ∀ c ∈ (s.dropWhile py.space).rtakeWhile py.space, py.space c = true :=
    fun _ hc => List.mem_rtakeWhile_imp hc
  have hfields := fields_append_forall hend (strip py s)
  rw [strip, List.rdropWhile_append_rtakeWhile] at hfields
  rw [strip, ← hfields, fields_dropWhile fun _ h => h]

theorem isSome_matchStart_bytePattern {s : Text} (h : ∀ c ∈ s, newline c = false) :
    (matchStart bytePattern s).isSome = Hex.isPair s := by
  -- the empty word and a single character have no match
  rcases s with _ | ⟨a, _ | ⟨b, rest⟩⟩
  · rfl
  · simp [matchStart, first, bytePattern, ends, Re.textStart, Re.rep, Hex.isPair]
  · -- two digits are matched, and the end of the text
    have hrep : ends (.rep 2 Hex.isDigit) ⟨none, a :: b :: rest, []⟩ =
        if Hex.isDigit a && Hex.isDigit b then [⟨some b, rest, []⟩] else [] := by
      cases ha : Hex.isDigit a <;> cases hb : Hex.isDigit b <;> simp [Re.rep, ends, ha, hb]
    rw [matchStart, first, bytePattern, ends_seq_of_eq ends_textStart, ends_seq, hrep]
    cases rest with
    | nil =>
      cases hpair : Hex.isDigit a && Hex.isDigit b <;> simp [ends, Re.textEnd, Hex.isPair, hpair]
    | cons c cs =>
      have hc : newline c = false := h c (by simp)
      cases Hex.isDigit a && Hex.isDigit b <;> simp [ends, Re.textEnd, Hex.isPair, hc]

/-- The words of the ASCII column that are two hexadecimal digits. -/
def strayWords (chunk : Bytes) : List Text :=
  (fields (· == ' ') (asciiChars chunk)).filter Hex.isPair

/-- In the ASCII column a blank is the only white space. -/
theorem fields_asciiChars (chunk : Bytes) :
    fields py.space (asciiChars chunk) = fields (· == ' ') (asciiChars chunk) := by
  refine fields_congr fun c hc => ?_
  obtain ⟨hlow, hhigh⟩ := toNat_of_mem_asciiChars hc
  rw [py.space_ascii c (Nat.lt_of_le_of_lt hhigh (by decide))]
  have hblank : c = ' ' ↔ c.toNat = 32 := by
    rw [← Char.toNat_inj]
    rfl
  rw [Bool.eq_iff_iff]
  simp only [Bool.or_eq_true, Bool.and_eq_true, decide_eq_true_eq, beq_iff_eq, hblank]
  omega

theorem fields_columns (chunk : Bytes) :
    fields py.space (columns chunk) =
      (chunk.map fun b => Hex.format 2 b.toNat) ++ fields (· == ' ') (asciiChars chunk) := by
  have hpad : ∀ c ∈ List.replicate (47 - (hexBytes chunk).length) ' ', py.space c = true := by
    intro c hc
    rw [List.eq_of_mem_replicate hc]
    exact py.space_blank
  have hwords : fields py.space (hexBytes chunk) = chunk.map fun b => Hex.format 2 b.toNat := by
    refine fields_intercalate py.space_blank (fun s hs => ?_) (fun s hs c hc => ?_)
    · obtain ⟨b, -, rfl⟩ := List.mem_map.mp hs
      exact List.ne_nil_of_length_pos (by rw [Hex.length_format b.toNat_lt]; decide)
    · obtain ⟨b, -, rfl⟩ := List.mem_map.mp hs
      exact py.space_of_word c (py.word_of_isDigit (Hex.isDigit_of_mem_format hc))
  rw [columns, fields_append_sep py.space_blank, List.rightpad, fields_append_forall hpad, hwords,
    fields_asciiChars]

/-- **The words of a line** that are taken for bytes. -/
theorem lineBytes_columns (chunk : Bytes) :
    lineBytes py (columns chunk) =
      (chunk.map fun b => Hex.format 2 b.toNat) ++ strayWords chunk := by
  have hpattern : ∀ s ∈ fields py.space (columns chunk),
      (matchStart bytePattern s).isSome = Hex.isPair s := by
    intro s hs
    refine isSome_matchStart_bytePattern fun c hc => ?_
    exact py.newline_of_not_space (forall_of_mem_fields hs c hc)
  have hbytes : ∀ s ∈ chunk.map fun b => Hex.format 2 b.toNat, Hex.isPair s = true := by
    intro s hs
    obtain ⟨b, -, rfl⟩ := List.mem_map.mp hs
    exact Hex.isPair_format b
  rw [lineBytes, fields_strip, List.filter_congr hpattern, fields_columns, List.filter_append,
    List.filter_eq_self.mpr hbytes, strayWords]

/-! ## Chunks

The chunks put together are the data again, and leaving out the lines with a long offset is the same
as dumping only the first 65536 bytes. This way a lost line does not have to be followed through the
parser. -/

/-- The chunks make up the data. -/
theorem flatMap_chunks (data : Bytes) : ((chunks data).flatMap fun l => l.2) = data := by
  have htake (n : Nat) :
      ((List.range n).flatMap fun k => (data.drop (16 * k)).take 16) = data.take (16 * n) := by
    induction n with
    | zero => rfl
    | succ n ih =>
      rw [List.range_succ, List.flatMap_append, ih, List.flatMap_singleton, Nat.mul_succ,
        List.take_add]
  rw [chunks, List.flatMap_map, htake, List.take_of_length_le (by omega)]

/-- Offsets below 65536 are those of the first 4096 lines. -/
theorem range_filter_offset (n : Nat) :
    ((List.range n).filter fun k => 16 * k < 65536) = List.range (min n 4096) := by
  induction n with
  | zero => rfl
  | succ n ih =>
    rw [List.range_succ, List.filter_append, ih]
    by_cases hn : n < 4096
    · rw [List.filter_cons_of_pos (by simp; omega), Nat.min_eq_left (Nat.le_of_lt hn),
        Nat.min_eq_left hn, List.range_succ]
      rfl
    · rw [List.filter_cons_of_neg (by simp; omega), Nat.min_eq_right (Nat.le_of_not_lt hn),
        Nat.min_eq_right (by omega)]
      exact List.append_nil _

/-- The lines with a short offset are those of the first bytes. -/
theorem filter_chunks (data : Bytes) :
    (chunks data).filter (·.1 < 65536) = chunks (data.take 65536) := by
  have hcount : ((data.take 65536).length + 15) / 16 = min ((data.length + 15) / 16) 4096 := by
    rw [List.length_take]
    omega
  rw [chunks, List.filter_map, chunks, hcount, ← range_filter_offset]
  refine List.map_congr_left fun k hk => ?_
  have hlt : 16 * k < 65536 := of_decide_eq_true (List.mem_filter.mp hk).2
  rw [List.drop_take, List.take_take, Nat.min_eq_left (by omega)]

/-! ## The bytes of a listing

Everything from the text to the bytes: the words of all lines are joined, stripped and decoded in
pairs. Since every word has exactly two digits, the pairs of the decoder are the words, and a stray
word becomes a byte between two lines. It makes the data longer, which is how it is always noticed.
-/

/-- The data with the words of the column between its lines. -/
def withStray (data : Bytes) : Bytes :=
  (chunks data).flatMap fun l => l.2 ++ (strayWords l.2).map Hex.byteOf

/-- The words of a listing that are taken for bytes. -/
def bytePairs (data : Bytes) : List Text :=
  (chunks data).flatMap fun l => (l.2.map fun b => Hex.format 2 b.toNat) ++ strayWords l.2

theorem isPair_of_mem_bytePairs {data : Bytes} {s : Text} (hs : s ∈ bytePairs data) :
    Hex.isPair s = true := by
  obtain ⟨l, -, hl⟩ := List.mem_flatMap.mp hs
  rcases List.mem_append.mp hl with hbyte | hstray
  · obtain ⟨b, -, rfl⟩ := List.mem_map.mp hbyte
    exact Hex.isPair_format b
  · exact (List.mem_filter.mp hstray).2

theorem map_byteOf_bytePairs (data : Bytes) :
    (bytePairs data).map Hex.byteOf = withStray data := by
  rw [bytePairs, List.map_flatMap, withStray]
  refine List.flatMap_congr fun l _ => ?_
  have hbytes : (l.2.map fun b => Hex.format 2 b.toNat).map Hex.byteOf = l.2 := by
    rw [List.map_map]
    exact (List.map_congr_left fun b _ => Hex.byteOf_format b).trans (List.map_id l.2)
  rw [List.map_append, hbytes]

theorem hexData_listing (t : Listing py) :
    hexData py t.text = (bytePairs (t.data.take 65536)).flatten := by
  -- what is joined are the words of all lines that are found
  have hdata : ((findAll (linePattern py) t.text).flatMap fun line =>
      (lineBytes py line).flatten) = (bytePairs (t.data.take 65536)).flatten := by
    rw [findAll_listing, filter_chunks, List.flatMap_map]
    simp only [lineBytes_columns]
    rw [bytePairs, List.flatMap_def, List.flatMap_def, List.flatten_flatten, List.map_map]
    rfl
  -- all of it is digits
  have hdigit : ∀ c ∈ (bytePairs (t.data.take 65536)).flatten, Hex.isDigit c = true := by
    intro c hc
    obtain ⟨s, hs, hcs⟩ := List.mem_flatten.mp hc
    exact (Hex.isPair_iff.mp (isPair_of_mem_bytePairs hs)).2 c hcs
  have hne {d : Char} (hd : Hex.isDigit d = false) :
      ∀ c ∈ (bytePairs (t.data.take 65536)).flatten, decide (c ≠ d) = true := by
    intro c hc
    rw [decide_eq_true_eq]
    rintro rfl
    rw [hdigit c hc] at hd
    cases hd
  -- there are only digits, so nothing is stripped or replaced
  have hspace : ∀ c ∈ (bytePairs (t.data.take 65536)).flatten, py.space c = false :=
    fun c hc => py.space_of_word c (py.word_of_isDigit (hdigit c hc))
  rw [hexData, hdata, strip_eq_self hspace,
    List.filter_eq_self.mpr (hne (by decide)), List.filter_eq_self.mpr (hne (by decide))]

/-- **The bytes of a listing** are those of its first 65536 bytes, with the words of the column. -/
theorem unhexlify_hexData (t : Listing py) :
    unhexlify (hexData py t.text) = .ok (withStray (t.data.take 65536)) := by
  have hpairs : ∀ s ∈ bytePairs (t.data.take 65536), Hex.isPair s = true :=
    fun s hs => isPair_of_mem_bytePairs hs
  have heven : ¬ (bytePairs (t.data.take 65536)).flatten.length % 2 = 1 := by
    rw [Hex.length_flatten_of_isPair hpairs]
    omega
  rw [unhexlify, hexData_listing, if_neg heven, Hex.decode_flatten hpairs, map_byteOf_bytePairs]

theorem length_withStray (data : Bytes) :
    (withStray data).length =
      data.length + ((chunks data).flatMap fun l => strayWords l.2).length := by
  have hlength (lines : List (Nat × Bytes)) :
      (lines.flatMap fun l => l.2 ++ (strayWords l.2).map Hex.byteOf).length =
        (lines.flatMap fun l => l.2).length + (lines.flatMap fun l => strayWords l.2).length := by
    induction lines with
    | nil => rfl
    | cons l lines ih =>
      simp only [List.flatMap_cons, List.length_append, List.length_map, ih]
      omega
  rw [withStray, hlength, flatMap_chunks]

/-- No word of the ASCII column is two hexadecimal digits. -/
def NoStray (data : Bytes) : Prop :=
  ∀ l ∈ chunks data, ∀ s ∈ fields (· == ' ') (asciiChars l.2), Hex.isPair s = false

/-- **Nothing between the lines** exactly when there is no such word. -/
theorem withStray_eq_self_iff (data : Bytes) : withStray data = data ↔ NoStray data := by
  have hnone : NoStray data ↔ ∀ l ∈ chunks data, strayWords l.2 = [] := by
    simp only [NoStray, strayWords, List.filter_eq_nil_iff, Bool.not_eq_true]
  rw [hnone]
  constructor
  · -- every such word makes the text longer
    intro h
    have hlength := length_withStray data
    rw [h] at hlength
    exact List.flatMap_eq_nil_iff.mp (List.eq_nil_of_length_eq_zero (by omega))
  · intro h
    have hlines : withStray data = (chunks data).flatMap fun l => l.2 := by
      refine List.flatMap_congr fun l hl => ?_
      rw [h l hl]
      exact List.append_nil l.2
    rw [hlines, flatMap_chunks]

/-! ## Answers

The dictionary keeps the last table for a signature. With different signatures a listing is found
again whatever else is in the answer, provided the data has at least the 36 bytes of a header; a
shorter one is dropped with a message. -/

theorem strip_listing_ne (t : Listing py) : strip py t.text ≠ [] := by
  obtain ⟨c, cs, hsignature⟩ := List.exists_cons_of_length_eq_add_one t.signature_length
  have htext : t.text = c :: (cs ++ ([' ', '@', ' '] ++ (t.address ++ t.remark)) ++
      '\n' :: hexdump t.data) := by
    rw [Listing.text, Listing.header, hsignature]
    rfl
  have hc : py.space c = false := py.space_of_word c (t.signature_word c (by simp [hsignature]))
  rw [strip, htext, List.dropWhile_cons_of_neg (by simp [hc]), ne_eq, List.rdropWhile_eq_nil_iff]
  intro hall
  have hspace := hall c List.mem_cons_self
  rw [hc] at hspace
  cases hspace

/-- The table that a listing is taken for. -/
def Listing.info (t : Listing py) : TableInfo :=
  tableInfo py t.address (withStray (t.data.take 65536))

/-- A listing that is long enough adds its table. -/
theorem parseSection_listing (t : Listing py) :
    (parseSection py t.text).1 =
      if 36 ≤ t.info.data.length then some (t.signature, t.info) else none := by
  have hstrip : (strip py t.text).isEmpty = false := by
    rw [Bool.eq_false_iff, ne_eq, List.isEmpty_iff]
    exact strip_listing_ne t
  simp only [parseSection, hstrip, matchStart_listing, unhexlify_hexData]
  by_cases hlength : 36 ≤ t.info.data.length
  · rw [if_pos hlength]
    exact congrArg Prod.fst (if_pos hlength)
  · rw [if_neg hlength]
    exact congrArg Prod.fst (if_neg hlength)

theorem Listing.length_info (t : Listing py) (hlength : 36 ≤ t.data.length) :
    36 ≤ t.info.data.length := by
  show 36 ≤ (withStray (t.data.take 65536)).length
  rw [length_withStray, List.length_take]
  omega

theorem lookup_cons_eq (key s : Text) (value : TableInfo) (tables : List (Text × TableInfo)) :
    ((key, value) :: tables).lookup s = if s = key then some value else tables.lookup s := by
  by_cases hs : s = key
  · rw [if_pos hs, hs, List.lookup_cons_self]
  · rw [if_neg hs, List.lookup_cons, beq_eq_false_iff_ne.mpr hs]

theorem lookup_setTable (signature : Text) (info : TableInfo) (tables : List (Text × TableInfo))
    (s : Text) :
    (setTable signature info tables).lookup s =
      if s = signature then some info else tables.lookup s := by
  induction tables with
  | nil => rw [setTable, lookup_cons_eq]
  | cons t tables ih =>
    obtain ⟨key, value⟩ := t
    rw [setTable]
    -- the key is there: its value is replaced in place
    by_cases hkey : key = signature
    · rw [if_pos hkey, hkey, lookup_cons_eq, lookup_cons_eq]
      split
      next => rfl
      next => rfl
    -- another key: the search goes on behind it
    · rw [if_neg hkey, lookup_cons_eq, lookup_cons_eq, ih]
      by_cases hs : s = key
      · rw [if_pos hs, if_pos hs, if_neg (hs ▸ hkey)]
      · rw [if_neg hs, if_neg hs]

/-- What a listing adds to the dictionary. -/
theorem lookup_addSection (acc : List (Text × TableInfo) × List String) (t : Listing py)
    (s : Text) :
    (addSection py acc t.text).1.lookup s =
      if s = t.signature ∧ 36 ≤ t.info.data.length then some t.info else acc.1.lookup s := by
  have htable : (addSection py acc t.text).1 =
      (parseSection py t.text).1.elim acc.1 fun u => setTable u.1 u.2 acc.1 := rfl
  rw [htable, parseSection_listing]
  by_cases hlength : 36 ≤ t.info.data.length
  · rw [if_pos hlength, Option.elim_some, lookup_setTable]
    simp [hlength]
  · rw [if_neg hlength, Option.elim_none, if_neg fun h => hlength h.2]

/-- Listings with other signatures. -/
theorem lookup_foldl_of_notMem {ts : List (Listing py)} {s : Text}
    (hs : s ∉ ts.map Listing.signature) (acc : List (Text × TableInfo) × List String) :
    ((ts.map Listing.text).foldl (addSection py) acc).1.lookup s = acc.1.lookup s := by
  induction ts generalizing acc with
  | nil => rfl
  | cons t ts ih =>
    rw [List.map_cons, List.mem_cons, not_or] at hs
    rw [List.map_cons, List.foldl_cons, ih hs.2, lookup_addSection, if_neg fun h => hs.1 h.1]

/-- **The table of a listing** in the answer, whatever the other listings are. -/
theorem lookup_parseStudentOutput {ts : List (Listing py)}
    (hts : (ts.map Listing.signature).Nodup) {t : Listing py} (ht : t ∈ ts)
    (hlength : 36 ≤ t.data.length) :
    (parseStudentOutput py (ts.flatMap Listing.text)).1.lookup t.signature = some t.info := by
  have hfold : ∀ acc, ((ts.map Listing.text).foldl (addSection py) acc).1.lookup t.signature =
      some t.info := by
    -- the listings in front have other signatures, those behind do not overwrite it
    induction ts with
    | nil => cases ht
    | cons u ts ih =>
      intro acc
      rw [List.map_cons, List.nodup_cons] at hts
      rw [List.map_cons, List.foldl_cons]
      rcases List.mem_cons.mp ht with rfl | ht
      · rw [lookup_foldl_of_notMem hts.1, lookup_addSection, if_pos ⟨rfl, t.length_info hlength⟩]
      · exact ih hts.2 ht _
  -- the section in front of the first header line is empty and adds nothing
  rw [parseStudentOutput, split_listings, List.foldl_cons]
  exact hfold _

/-! ## The round trip

Printing and parsing do not undo each other, and the two reasons are independent. For data of at
most 65536 bytes the stray words are the only one. For longer data the tail is lost in any case, and
a stray word cannot make up for it. -/

/-- The answer has the data of the listing. -/
def Recovers (ts : List (Listing py)) (t : Listing py) : Prop :=
  ((parseStudentOutput py (ts.flatMap Listing.text)).1.lookup t.signature).map (·.data) =
    some t.data

theorem recovers_iff_withStray {ts : List (Listing py)} (hts : (ts.map Listing.signature).Nodup)
    {t : Listing py} (ht : t ∈ ts) (hlength : 36 ≤ t.data.length) :
    Recovers ts t ↔ withStray (t.data.take 65536) = t.data := by
  rw [Recovers, lookup_parseStudentOutput hts ht hlength, Option.map_some, Option.some_inj]
  rfl

/-- The lines behind the first 65536 bytes are lost. -/
theorem withStray_take_ne {data : Bytes} (hlong : 65536 < data.length)
    (hstray : NoStray (data.take 65536)) : withStray (data.take 65536) ≠ data := by
  rw [(withStray_eq_self_iff _).mpr hstray]
  intro hdata
  have hlength := congrArg List.length hdata
  rw [List.length_take] at hlength
  omega

/-- **The data of a listing** with offsets of four digits is recovered exactly when no word of the
ASCII column is two hexadecimal digits. Of a longer one without such words it is not. -/
theorem recovers_iff (ts : List (Listing py)) (hts : (ts.map Listing.signature).Nodup)
    (t : Listing py) (ht : t ∈ ts) (hlength : 36 ≤ t.data.length) :
    (t.data.length ≤ 65536 → (Recovers ts t ↔ NoStray t.data)) ∧
      (65536 < t.data.length → NoStray (t.data.take 65536) → ¬ Recovers ts t) := by
  rw [recovers_iff_withStray hts ht hlength]
  refine ⟨fun hshort => ?_, withStray_take_ne⟩
  rw [List.take_of_length_le hshort]
  exact withStray_eq_self_iff t.data

/-- The classes of characters for ASCII text. -/
def PyChars.ascii : PyChars where
  word c := c.isAlphanum || c == '_'
  space c := (9 ≤ c.toNat && c.toNat ≤ 13) || (28 ≤ c.toNat && c.toNat ≤ 32)
  word_ascii _ _ := rfl
  space_ascii _ _ := rfl
  space_of_word c hc := by
    have hascii : ∀ n < 33, ((Char.ofNat n).isAlphanum || Char.ofNat n == '_') = false := by decide
    rw [Bool.eq_false_iff]
    intro hspace
    simp only [Bool.or_eq_true, Bool.and_eq_true, decide_eq_true_eq] at hspace
    have hword := hascii c.toNat (by omega)
    rw [Char.ofNat_toNat, hc] at hword
    cases hword

/-- A listing `FACP @ 0x7FE1000`. -/
def facp (data : Bytes) : Listing .ascii where
  signature := ['F', 'A', 'C', 'P']
  signature_length := rfl
  signature_word := List.all_eq_true.mp rfl
  address := ['0', 'x', '7', 'F', 'E', '1', '0', '0', '0']
  address_ne := by decide
  address_word := List.all_eq_true.mp rfl
  remark := []
  remark_head c hc := by cases hc
  remark_line c hc := by cases hc
  data := data

theorem recovers_zeros :
    Recovers [facp (List.replicate 36 0)] (facp (List.replicate 36 0)) := by
  have hstray : NoStray (List.replicate 36 0) := by
    unfold NoStray
    decide +kernel
  exact ((recovers_iff [facp (List.replicate 36 0)] (List.nodup_singleton _) _
    (List.mem_singleton_self _) (by decide)).1 (by decide)).mpr hstray

theorem noStray_blanks (n : Nat) : NoStray (List.replicate n 0x20) := by
  intro l hl s hs
  obtain ⟨k, -, rfl⟩ := List.mem_map.mp hl
  -- the column is blank, so it has no words at all
  have hcolumn : ∀ c ∈ asciiChars (((List.replicate n 0x20).drop (16 * k)).take 16),
      (c == ' ') = true := by
    intro c hc
    obtain ⟨b, hb, rfl⟩ := List.mem_map.mp hc
    rw [List.eq_of_mem_replicate (List.mem_of_mem_drop (List.mem_of_mem_take hb))]
    decide
  have hfields := fields_append_forall hcolumn []
  rw [List.nil_append, fields_nil] at hfields
  rw [hfields] at hs
  cases hs

/-- Data with `41` in the ASCII column, and data with a fifth digit in its last offset. -/
theorem not_recovers :
    ¬ Recovers [facp ([0x34, 0x31, 0x20] ++ List.replicate 33 0)]
        (facp ([0x34, 0x31, 0x20] ++ List.replicate 33 0)) ∧
      ¬ Recovers [facp (List.replicate 65537 0x20)] (facp (List.replicate 65537 0x20)) := by
  have halone (data : Bytes) (hlength : 36 ≤ data.length) :
      Recovers [facp data] (facp data) ↔ withStray (data.take 65536) = data :=
    @recovers_iff_withStray _ [facp data] (List.nodup_singleton _) _ (List.mem_singleton_self _)
      hlength
  constructor
  -- the word `41` becomes a byte of its own
  · rw [halone _ (by decide)]
    decide +kernel
  -- the last byte is on a line with the offset 10000
  · have hlong : 65536 < (List.replicate 65537 (0x20 : UInt8)).length := by
      rw [List.length_replicate]
      decide
    have hstray : NoStray ((List.replicate 65537 (0x20 : UInt8)).take 65536) := by
      rw [List.take_replicate]
      exact noStray_blanks _
    rw [halone _ (Nat.le_trans (by decide) (Nat.le_of_lt hlong))]
    exact withStray_take_ne hlong hstray

end OsHomework.AcpiCheck
