import OsHomework.AcpiCheck.Parse

/-!
# AcpiCheck — what the patterns find in a dump

A header line and the lines of a dump below it: where the text is split, what the header says, and
which lines are found. The offset of a line is a fixed number of digits for the parser, and at least
that number for the printer.

* **`split_listings`** — the sections are the listings.
* **`matchStart_listing`** — the signature and the address.
* **`findAll_listing`** — the lines of the dump that are found are those with an offset below
  65536.
-/

namespace OsHomework.AcpiCheck

open ByteFile Regex

/-! ## Characters

What the printer writes is in ASCII, where the classes are known. Two facts matter below: no
character of a line is a newline, and hexadecimal digits are word characters. -/

section

variable (py : PyChars) {c : Char} {chunk : Bytes}

theorem isAlphanum_of_isDigit (hc : Hex.isDigit c = true) :
    c.toNat < 128 ∧ c.isAlphanum = true := by
  have hascii : ∀ n < 128, Hex.isDigit (Char.ofNat n) = true →
      (Char.ofNat n).isAlphanum = true := by decide
  have hlt : c.toNat < 128 := by
    have hf : 'f'.val.toNat = 102 := rfl
    have hF : 'F'.val.toNat = 70 := rfl
    have h9 : '9'.val.toNat = 57 := rfl
    simp only [Hex.isDigit, Bool.or_eq_true, Bool.and_eq_true, decide_eq_true_eq, Char.le_def,
      UInt32.le_iff_toNat_le] at hc
    show c.val.toNat < 128
    omega
  have halnum := hascii c.toNat hlt
  rw [Char.ofNat_toNat] at halnum
  exact ⟨hlt, halnum hc⟩

theorem PyChars.word_of_isDigit (hc : Hex.isDigit c = true) : py.word c = true := by
  obtain ⟨hascii, halnum⟩ := isAlphanum_of_isDigit hc
  rw [py.word_ascii c hascii, halnum, Bool.true_or]

theorem PyChars.space_newline : py.space '\n' = true := py.space_ascii '\n' (by decide)

theorem PyChars.space_blank : py.space ' ' = true := py.space_ascii ' ' (by decide)

theorem PyChars.word_of_space (hc : py.space c = true) : py.word c = false := by
  rw [Bool.eq_false_iff]
  intro hword
  rw [py.space_of_word c hword] at hc
  cases hc

theorem PyChars.newline_of_not_space (hc : py.space c = false) : newline c = false := by
  rw [newline, beq_eq_false_iff_ne]
  rintro rfl
  rw [py.space_newline] at hc
  cases hc

theorem toNat_of_mem_asciiChars (hc : c ∈ asciiChars chunk) : 32 ≤ c.toNat ∧ c.toNat ≤ 126 := by
  have hprintable : ∀ n < 127, (Char.ofNat n).toNat = n := by decide
  obtain ⟨b, -, rfl⟩ := List.mem_map.mp hc
  split
  next hb =>
    have hlow := UInt8.le_iff_toNat_le.mp hb.1
    have hhigh := UInt8.le_iff_toNat_le.mp hb.2
    rw [hprintable b.toNat (Nat.lt_succ_of_le hhigh)]
    exact ⟨hlow, hhigh⟩
  next => decide

theorem isDigit_of_mem_hexBytes (hc : c ∈ hexBytes chunk) : c = ' ' ∨ Hex.isDigit c = true := by
  rcases Fields.mem_of_mem_intercalate hc with h | ⟨s, hs, hmem⟩
  · exact .inl h
  · obtain ⟨b, -, rfl⟩ := List.mem_map.mp hs
    exact .inr (Hex.isDigit_of_mem_format hmem)

theorem newline_of_isDigit (hc : Hex.isDigit c = true) : newline c = false := by
  rw [newline, beq_eq_false_iff_ne]
  rintro rfl
  cases hc

theorem newline_columns : ∀ c ∈ columns chunk, newline c = false := by
  intro c hc
  rw [columns, List.rightpad, List.mem_append, List.mem_append, List.mem_cons] at hc
  -- a digit, a blank of the padding, the blank between the columns, or a printable character
  rcases hc with (hhex | hpad) | rfl | hascii
  · rcases isDigit_of_mem_hexBytes hhex with rfl | hdigit
    · rfl
    · exact newline_of_isDigit hdigit
  · rw [List.eq_of_mem_replicate hpad]
    rfl
  · rfl
  · rw [newline, beq_eq_false_iff_ne]
    rintro rfl
    have hlow := (toNat_of_mem_asciiChars hascii).1
    revert hlow
    decide

/-- A line is one line: the newline is only behind it. -/
theorem newline_dumpLine (i : Nat) : ∀ c ∈ dumpLine i chunk, newline c = false := by
  intro c hc
  rw [dumpLine, List.mem_append, List.mem_append] at hc
  rcases hc with hoffset | hcolon | hcolumns
  · exact newline_of_isDigit (Hex.isDigit_of_mem_format hoffset)
  · simp only [List.mem_cons, List.not_mem_nil, or_false] at hcolon
    rcases hcolon with rfl | rfl <;> rfl
  · exact newline_columns c hcolumns

end

/-! ## Offsets

`{i:04X}` is four digits for an offset below 65536 and more digits from there on. The parser has
`\w{4}: `, so a longer offset does not fit. In both cases a line begins with four digits and then
something that is not a blank, which is enough to tell it from a header line. -/

section

variable {i : Nat} (chunk : Bytes)

/-- An offset of four digits. -/
theorem length_offset (hi : i < 65536) : (Hex.format 4 i).length = 4 := Hex.length_format hi

/-- A longer offset: behind four digits there is another one. -/
theorem dumpLine_long (hi : 65536 ≤ i) :
    ∃ w c rest, dumpLine i chunk = w ++ c :: rest ∧ w.length = 4 ∧
      (∀ d ∈ w, Hex.isDigit d = true) ∧ Hex.isDigit c = true := by
  have hlength : 4 < (Hex.format 4 i).length := Hex.lt_length_format hi
  have hdigit {d : Char} (hd : d ∈ Hex.format 4 i) := Hex.isDigit_of_mem_format hd
  refine ⟨(Hex.format 4 i).take 4, (Hex.format 4 i)[4],
    (Hex.format 4 i).drop 5 ++ ([':', ' '] ++ columns chunk), ?_,
    List.length_take_of_le (Nat.le_of_lt hlength), fun d hd => hdigit (List.mem_of_mem_take hd),
    hdigit (List.getElem_mem hlength)⟩
  rw [dumpLine, ← List.cons_append, List.getElem_cons_drop, ← List.append_assoc (List.take 4 _),
    List.take_append_drop]

/-- In front of the colon or of a fifth digit there are four digits. -/
theorem dumpLine_front (i : Nat) :
    ∃ w c rest, dumpLine i chunk = w ++ c :: rest ∧ w.length = 4 ∧
      (∀ d ∈ w, Hex.isDigit d = true) ∧ c ≠ ' ' := by
  rcases Nat.lt_or_ge i 65536 with hi | hi
  · exact ⟨Hex.format 4 i, ':', _, rfl, length_offset hi, fun d hd => Hex.isDigit_of_mem_format hd,
      by decide⟩
  · obtain ⟨w, c, rest, hline, hlength, hw, hc⟩ := dumpLine_long chunk hi
    refine ⟨w, c, rest, hline, hlength, hw, ?_⟩
    rintro rfl
    cases hc

end

/-! ## Listings

What an answer is made of: a header line, which may have a remark behind the address, and the dump
of some data. The fields say just what the two patterns need. The address must end where the remark
begins, so a remark does not begin with a word character. -/

/-- A header line, which may go on behind the address, and the data that is dumped below it. -/
structure Listing (py : PyChars) where
  signature : Text
  signature_length : signature.length = 4
  signature_word : ∀ c ∈ signature, py.word c = true
  address : Text
  address_ne : address ≠ []
  address_word : ∀ c ∈ address, py.word c = true
  remark : Text
  remark_head : ∀ c ∈ remark.head?, py.word c = false
  remark_line : ∀ c ∈ remark, newline c = false
  data : Bytes

variable {py : PyChars}

def Listing.header (t : Listing py) : Text :=
  t.signature ++ ([' ', '@', ' '] ++ (t.address ++ t.remark))

def Listing.text (t : Listing py) : Text := t.header ++ '\n' :: hexdump t.data

theorem Listing.header_ne (t : Listing py) : t.header ≠ [] := by
  intro h
  have hnil : t.signature = [] := (List.append_eq_nil_iff.mp h).1
  have hlength := t.signature_length
  rw [hnil] at hlength
  cases hlength

theorem PyChars.newline_of_word {c : Char} (hc : py.word c = true) : newline c = false :=
  py.newline_of_not_space (py.space_of_word c hc)

theorem Listing.newline_header (t : Listing py) : ∀ c ∈ t.header, newline c = false := by
  intro c hc
  rw [header, List.mem_append, List.mem_append, List.mem_append] at hc
  rcases hc with hsignature | hat | haddress | hremark
  · exact PyChars.newline_of_word (t.signature_word c hsignature)
  · simp only [List.mem_cons, List.not_mem_nil, or_false] at hat
    rcases hat with rfl | rfl | rfl <;> rfl
  · exact PyChars.newline_of_word (t.address_word c haddress)
  · exact t.remark_line c hremark

/-! ## Sections

The section pattern is a look-ahead behind `^`. It can only match at the beginning of a line, and
there it looks at seven characters; a line of a dump has a digit or a colon where the header has its
blank. So the text is split in front of the header lines and nowhere else, and `re.split` puts an
empty section first. -/

section

variable {prev : Option Char} (hprev : prev.all newline = true)

include hprev

/-- In front of a header line. -/
theorem ends_sectionPattern_header (t : Listing py) (rest : Text) :
    ends (sectionPattern py) ⟨prev, t.header ++ rest, []⟩ = [⟨prev, t.header ++ rest, []⟩] := by
  have hinner : ends (.seq (.lineStart newline) (.seq (.rep 4 py.word) (.lit [' ', '@', ' '])))
      ⟨prev, t.header ++ rest, []⟩ =
        [⟨prevAfter (prevAfter prev t.signature) [' ', '@', ' '],
          t.address ++ t.remark ++ rest, []⟩] := by
    rw [ends_seq_of_eq (ends_lineStart hprev), Listing.header, List.append_assoc,
      ends_seq_of_eq (ends_rep t.signature_length t.signature_word), List.append_assoc, ends_lit]
  rw [sectionPattern, ends_ahead, hinner]
  rfl

/-- In front of any other line with four word characters. -/
theorem ends_sectionPattern_of_ne {w : Text} (hlength : w.length = 4)
    (hw : ∀ d ∈ w, py.word d = true) {c : Char} (hc : c ≠ ' ') (rest : Text) :
    ends (sectionPattern py) ⟨prev, w ++ c :: rest, []⟩ = [] := by
  have hlit : ends (.lit [' ', '@', ' ']) ⟨prevAfter prev w, c :: rest, []⟩ = [] := by
    refine ends_lit_of_ne ?_
    rintro ⟨⟩
    exact hc rfl
  rw [sectionPattern, ends_ahead, ends_seq_of_eq (ends_lineStart hprev),
    ends_seq_of_eq (ends_rep hlength hw), hlit]
  rfl

end

/-- A match of the section pattern can only begin where a line begins. -/
theorem lineAnchored_sectionPattern : LineAnchored newline (sectionPattern py) :=
  lineAnchored_seq.ahead

/-- No section starts in a dump. -/
theorem scan_section_dumpLines (lines : List (Nat × Bytes)) (rest : Text) :
    scan (sectionPattern py) 0 (some '\n') (dumpLines lines ++ rest) =
      (dumpLines lines).map .char ++ scan (sectionPattern py) 0 (some '\n') rest := by
  induction lines with
  | nil => rfl
  | cons l lines ih =>
    obtain ⟨w, c, tail, hline, hlength, hw, hc⟩ := dumpLine_front l.2 l.1
    have hends : ends (sectionPattern py)
        ⟨some '\n', dumpLine l.1 l.2 ++ '\n' :: (dumpLines lines ++ rest), []⟩ = [] := by
      rw [hline, List.append_assoc, List.cons_append]
      exact ends_sectionPattern_of_ne rfl hlength (fun d hd => py.word_of_isDigit (hw d hd)) hc _
    have hsplit : dumpLines (l :: lines) ++ rest =
        dumpLine l.1 l.2 ++ '\n' :: (dumpLines lines ++ rest) := by
      simp [dumpLines]
    rw [hsplit, scan_line lineAnchored_sectionPattern (newline_dumpLine l.1) hends, ih]
    simp [dumpLines]

/-- **A listing** is one section. -/
theorem scan_section_listing {prev : Option Char} (hprev : prev.all newline = true)
    (t : Listing py) (rest : Text) :
    scan (sectionPattern py) 0 prev (t.text ++ rest) =
      .found [] :: t.text.map .char ++ scan (sectionPattern py) 0 (some '\n') rest := by
  rw [Listing.text, List.append_assoc, List.cons_append,
    scan_line_empty lineAnchored_sectionPattern t.header_ne t.newline_header
      (ends_sectionPattern_header hprev t _), hexdump, scan_section_dumpLines]
  simp

theorem ends_sectionPattern_nil (prev : Option Char) :
    ends (sectionPattern py) ⟨prev, [], []⟩ = [] := by
  by_cases hprev : prev.all newline = true
  · rw [sectionPattern, ends_ahead, ends_seq_of_eq (ends_lineStart hprev)]
    rfl
  · exact lineAnchored_sectionPattern _ (Bool.eq_false_iff.mpr hprev)

/-- **The sections** are the listings, behind an empty one. -/
theorem split_listings (ts : List (Listing py)) :
    split (sectionPattern py) (ts.flatMap Listing.text) = [] :: ts.map Listing.text := by
  have hscan : ∀ prev : Option Char, prev.all newline = true →
      scan (sectionPattern py) 0 prev (ts.flatMap Listing.text) =
        marked (ts.map Listing.text) := by
    induction ts with
    | nil =>
      intro prev _
      rw [List.flatMap_nil, scan, if_pos rfl, foundAt_of_nil (ends_sectionPattern_nil prev)]
      rfl
    | cons t ts ih =>
      intro prev hprev
      rw [List.flatMap_cons, scan_section_listing hprev, ih (some '\n') rfl]
      rfl
  exact split_of_scan (hscan none rfl)

/-! ## Headers

The first group is the signature and the second the longest run of word characters behind `@`.
Matching is greedy and from the left, and nothing is tried again once the rest has matched. -/

/-- **The header** of a listing. -/
theorem matchStart_listing (t : Listing py) :
    (matchStart (headerPattern py) t.text).map (·.groups) = some [t.signature, t.address] := by
  -- the address ends at the remark, or at the end of the line
  have hbehind : ∀ c ∈ (t.remark ++ '\n' :: hexdump t.data).head?, py.word c = false := by
    cases hremark : t.remark with
    | nil =>
      rintro c ⟨⟩
      exact py.word_of_space py.space_newline
    | cons d ds =>
      rintro c ⟨⟩
      exact t.remark_head d (by rw [hremark]; rfl)
  have htext : t.text =
      t.signature ++ ([' ', '@', ' '] ++ (t.address ++ (t.remark ++ '\n' :: hexdump t.data))) := by
    simp [Listing.text, Listing.header]
  have hmatch : first (headerPattern py) ⟨none, t.text, []⟩ =
      some ⟨prevAfter (prevAfter (prevAfter none t.signature) [' ', '@', ' ']) t.address,
        t.remark ++ '\n' :: hexdump t.data, [] ++ [t.signature] ++ [t.address]⟩ := by
    rw [htext, headerPattern]
    exact first_seq (first_of_eq ends_textStart) (first_seq
      (first_group (first_of_eq (ends_rep t.signature_length t.signature_word))) (first_seq
      (first_of_eq ends_lit) (first_group (first_plus t.address_ne t.address_word hbehind))))
  rw [matchStart, hmatch]
  rfl

/-! ## Lines

The line pattern is tried at the beginning of every line of the section, the header line included:
that one has its blank where the pattern wants a colon. A line that is found contributes everything
behind the colon up to the end of the line, both columns of it. -/

section

variable {prev : Option Char} (hprev : prev.all newline = true)

include hprev

/-- Up to the characters behind the offset. -/
theorem ends_linePattern {w : Text} (hlength : w.length = 4) (hw : ∀ d ∈ w, py.word d = true)
    (rest : Text) :
    ends (linePattern py) ⟨prev, w ++ rest, []⟩ =
      ends (.seq (.lit [':', ' ']) (.seq (.group (.plus dot)) (.lineEnd newline)))
        ⟨prevAfter prev w, rest, []⟩ := by
  -- the offset begins with a word character, so `\s*` takes nothing
  have hspace : ∀ c ∈ (w ++ rest).head?, py.space c = false := by
    intro c hc
    obtain ⟨d, ds, rfl⟩ := List.exists_cons_of_length_eq_add_one hlength
    have hd : c = d := (Option.some.inj hc).symm
    rw [hd]
    exact py.space_of_word d (hw d List.mem_cons_self)
  rw [linePattern, ends_seq_of_eq (ends_lineStart hprev),
    ends_seq_of_eq (ends_star_of_false hspace), ends_seq_of_eq (ends_rep hlength hw)]

/-- **A line of the dump** with a short offset is a match. -/
theorem first_linePattern {i : Nat} (hi : i < 65536) (chunk : Bytes) (rest : Text) :
    first (linePattern py) ⟨prev, dumpLine i chunk ++ '\n' :: rest, []⟩ =
      some ⟨prevAfter prev (dumpLine i chunk), '\n' :: rest, [columns chunk]⟩ := by
  have hword : ∀ d ∈ Hex.format 4 i, py.word d = true :=
    fun d hd => py.word_of_isDigit (Hex.isDigit_of_mem_format hd)
  have hne : columns chunk ≠ [] := List.append_ne_nil_of_right_ne_nil _ (List.cons_ne_nil _ _)
  have hdot : ∀ c ∈ columns chunk, dot c = true := by
    intro c hc
    rw [dot, newline_columns c hc]
    rfl
  have hend : ∀ c ∈ ('\n' :: rest).head?, dot c = false := by
    rintro c ⟨⟩
    rfl
  rw [first, dumpLine, List.append_assoc, List.append_assoc,
    ends_linePattern hprev (length_offset hi) hword, prevAfter_append, prevAfter_append]
  exact first_seq (first_of_eq ends_lit) (first_seq (first_group (first_plus hne hdot hend))
    (first_of_eq (ends_check rfl)))

/-- In front of any other line with four word characters. -/
theorem ends_linePattern_of_ne {w : Text} (hlength : w.length = 4)
    (hw : ∀ d ∈ w, py.word d = true) {c : Char} (hc : c ≠ ':') (rest : Text) :
    ends (linePattern py) ⟨prev, w ++ c :: rest, []⟩ = [] := by
  rw [ends_linePattern hprev hlength hw]
  refine ends_seq_of_nil (ends_lit_of_ne ?_)
  rintro ⟨⟩
  exact hc rfl

end

theorem lineAnchored_linePattern : LineAnchored newline (linePattern py) := lineAnchored_seq

/-- The line of a chunk, if it is found. -/
theorem found_dumpLine (i : Nat) (chunk : Bytes) (rest : Text) :
    (scan (linePattern py) 0 (some '\n') (dumpLine i chunk ++ '\n' :: rest)).filterMap
        Token.group? =
      (if i < 65536 then [columns chunk] else []) ++
        (scan (linePattern py) 0 (some '\n') rest).filterMap Token.group? := by
  split
  next hi =>
    have hne : dumpLine i chunk ≠ [] :=
      List.append_ne_nil_of_right_ne_nil _ (List.cons_ne_nil _ _)
    rw [scan_found lineAnchored_linePattern hne (newline_dumpLine i)
      (first_linePattern rfl hi chunk rest)]
    rfl
  next hi =>
    obtain ⟨w, c, tail, hline, hlength, hw, hc⟩ := dumpLine_long chunk (Nat.le_of_not_lt hi)
    -- where the pattern has its colon there is a fifth digit
    have hcolon : c ≠ ':' := by
      rintro rfl
      cases hc
    have hends : ends (linePattern py) ⟨some '\n', dumpLine i chunk ++ '\n' :: rest, []⟩ = [] := by
      rw [hline, List.append_assoc, List.cons_append]
      exact ends_linePattern_of_ne rfl hlength (fun d hd => py.word_of_isDigit (hw d hd)) hcolon _
    rw [scan_line lineAnchored_linePattern (newline_dumpLine i) hends, List.filterMap_append,
      filterMap_group?]

/-- The lines of a dump, one after the other, and those of them that are found. -/
theorem found_dumpLines (lines : List (Nat × Bytes)) :
    (scan (linePattern py) 0 (some '\n') (dumpLines lines)).filterMap Token.group? =
      (lines.filter (·.1 < 65536)).map fun l => columns l.2 := by
  -- line after line; the scan stands at the beginning of a line each time
  induction lines with
  | nil =>
    -- at the end of the text the pattern finds no offset
    have hends : ends (linePattern py) ⟨some '\n', [], []⟩ = [] := by
      rw [linePattern, ends_seq_of_eq (ends_lineStart rfl)]
      rfl
    rw [dumpLines, List.flatMap_nil, scan, if_pos rfl, foundAt_of_nil hends]
    rfl
  | cons l lines ih =>
    have hsplit : dumpLines (l :: lines) = dumpLine l.1 l.2 ++ '\n' :: dumpLines lines := by
      simp [dumpLines]
    rw [hsplit, found_dumpLine, ih]
    by_cases hl : l.1 < 65536
    · rw [if_pos hl, List.filter_cons_of_pos (by simpa using hl)]
      rfl
    · rw [if_neg hl, List.filter_cons_of_neg (by simpa using hl)]
      rfl

/-- **The lines that are found** are those with a short offset. -/
theorem findAll_listing (t : Listing py) :
    findAll (linePattern py) t.text =
      ((chunks t.data).filter (·.1 < 65536)).map fun l => columns l.2 := by
  -- behind the signature there is a blank and no colon
  have hends : ends (linePattern py) ⟨none, t.header ++ '\n' :: hexdump t.data, []⟩ = [] := by
    rw [Listing.header, List.append_assoc]
    exact ends_linePattern_of_ne rfl t.signature_length t.signature_word (by decide) _
  rw [findAll, Listing.text, scan_line lineAnchored_linePattern t.newline_header hends,
    List.filterMap_append, filterMap_group?, List.nil_append]
  exact found_dumpLines (chunks t.data)

end OsHomework.AcpiCheck
