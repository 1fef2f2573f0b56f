import Mathlib.Data.List.DropRight
import OsHomework.Lib.ByteFile
import OsHomework.Lib.ByteMem
import OsHomework.Lib.Fields
import OsHomework.Lib.Hex
import OsHomework.Lib.Regex

/-!
# AcpiCheck — the dumps of the exercise and their parser

The checker of the exercise prints the tables of the system as hexadecimal dumps, in
`print_system_tables`, and reads the answer with `parse_student_output`. The parser looks for the
header lines of tables and the lines of dumps with regular expressions, and takes for a byte every
word of a line that is two hexadecimal digits.

* **`hexdump`** — the lines that are printed.
* **`parseStudentOutput`** — the dictionary that is returned, and what is printed on the way.
-/

namespace OsHomework.AcpiCheck

open ByteFile Regex

abbrev Text := List Char

/-! ## Characters

`\w` and `\s` are about Unicode in Python 3, and the tables behind them are not part of the program.
They are parameters here, fixed on ASCII, where all text of the printer lies, and with the one law
that the proofs use beyond it: no character is in both classes. -/

/-- The classes of characters of the regular expressions and of `str`, which are given for ASCII
here. -/
structure PyChars where
  word : Char → Bool
  space : Char → Bool
  word_ascii : ∀ c, c.toNat < 128 → word c = (c.isAlphanum || c == '_')
  space_ascii : ∀ c, c.toNat < 128 →
    space c = ((9 ≤ c.toNat && c.toNat ≤ 13) || (28 ≤ c.toNat && c.toNat ≤ 32))
  space_of_word : ∀ c, word c = true → space c = false

def newline (c : Char) : Bool := c == '\n'

/-- `.` -/
def dot (c : Char) : Bool := !newline c

/-! ## `print_system_tables`

One line for sixteen bytes: the offset with at least four digits, the bytes padded to 47 columns,
and the same bytes as characters. The last column has no delimiters of its own, and this is what the
parser later stumbles over. -/

/-- The chunks of sixteen bytes with their offsets. -/
def chunks (data : Bytes) : List (Nat × Bytes) :=
  (List.range ((data.length + 15) / 16)).map fun k => (16 * k, (data.drop (16 * k)).take 16)

def hexBytes (chunk : Bytes) : Text :=
  [' '].intercalate (chunk.map fun byte => Hex.format 2 byte.toNat)

def asciiChars (chunk : Bytes) : Text :=
  chunk.map fun byte => if 32 ≤ byte ∧ byte ≤ 126 then Char.ofNat byte.toNat else '.'

/-- `{hex_bytes:<47} {ascii_chars}` -/
def columns (chunk : Bytes) : Text :=
  (hexBytes chunk).rightpad 47 ' ' ++ ' ' :: asciiChars chunk

/-- `f"{i:04X}: {hex_bytes:<47} {ascii_chars}"` -/
def dumpLine (i : Nat) (chunk : Bytes) : Text := Hex.format 4 i ++ ([':', ' '] ++ columns chunk)

def dumpLines (lines : List (Nat × Bytes)) : Text :=
  lines.flatMap fun l => dumpLine l.1 l.2 ++ ['\n']

def hexdump (data : Bytes) : Text := dumpLines (chunks data)

/-! ## `parse_student_output`

The text is split in front of every header line, so that what comes before the first one is a
section too. From a section the lines of a dump are taken wherever they are, and from a line the
words that look like a byte. Every function returns what is printed along with its result, in the
order of the source; the dictionary is a list with the insertion order of Python. -/

structure TableInfo where
  address : Text
  length : Nat
  oemId : Text
  checksum : Text
  data : Bytes
  deriving DecidableEq

/-- `binascii.unhexlify`, with the text of the exception. -/
def unhexlify (hexData : Text) : Except String Bytes :=
  if hexData.length % 2 = 1 then .error "Odd-length string"
  else
    match Hex.decode hexData with
    | none => .error "Non-hexadecimal digit found"
    | some data => .ok data

section

variable (py : PyChars)

/-- `(?=^\w{4} @ )` -/
def sectionPattern : Re Char :=
  .ahead (.seq (.lineStart newline) (.seq (.rep 4 py.word) (.lit [' ', '@', ' '])))

/-- `^(\w{4}) @ (\w+)` -/
def headerPattern : Re Char :=
  .seq .textStart (.seq (.group (.rep 4 py.word)) (.seq (.lit [' ', '@', ' '])
    (.group (.plus py.word))))

/-- `^\s*\w{4}: (.+)$` -/
def linePattern : Re Char :=
  .seq (.lineStart newline) (.seq (.star py.space) (.seq (.rep 4 py.word) (.seq (.lit [':', ' '])
    (.seq (.group (.plus dot)) (.lineEnd newline)))))

/-- `^[0-9A-Fa-f]{2}$` -/
def bytePattern : Re Char := .seq .textStart (.seq (.rep 2 Hex.isDigit) (.textEnd newline))

/-- `str.strip` -/
def strip (s : Text) : Text := (s.dropWhile py.space).rdropWhile py.space

/-- The words of a line that look like bytes. -/
def lineBytes (line : Text) : List Text :=
  (Fields.fields py.space (strip py line)).filter fun byte => (matchStart bytePattern byte).isSome

def hexData (sec : Text) : Text :=
  let data := (findAll (linePattern py) sec).flatMap fun line => (lineBytes py line).flatten
  ((strip py data).filter (· ≠ ' ')).filter (· ≠ '\n')

/-- `oem_id_raw.decode(..).rstrip("\x00").strip()`; ASCII and Latin-1 agree on ASCII. -/
def decodeOemId (raw : Bytes) : Text :=
  strip py ((raw.map fun b => Char.ofNat b.toNat).rdropWhile (· == '\x00'))

/-- What a table is taken for, from the fields of its header. -/
def tableInfo (address : Text) (data : Bytes) : TableInfo where
  address := address
  length := ByteMem.load (fun i => (data[i]?).getD 0) 4 4
  oemId := decodeOemId py ((data.drop 10).take 6)
  checksum := Hex.format 2 ((data[9]?).getD 0).toNat
  data := data

/-- What is done for a section: a table that it adds, and the lines that are printed. -/
def parseSection (sec : Text) : Option (Text × TableInfo) × List String :=
  if (strip py sec).isEmpty then (none, [])
  else
    match (matchStart (headerPattern py) sec).map (·.groups) with
    | some [signature, address] =>
      let name := String.ofList signature
      match unhexlify (hexData py sec) with
      | .error e => (none, ["Error decoding hex data for table " ++ name ++ ": " ++ e])
      | .ok data =>
        -- `struct.unpack` gets exactly the 36 bytes it wants
        if 36 ≤ data.length then
          (some (signature, tableInfo py address data),
            if ((data.drop 10).take 6).all (· < 128) then []
            else ["Warning: OEM ID in student table " ++ name ++
              " contains non-ASCII bytes. Decoded using 'latin1'."])
        else (none, ["Answer table " ++ name ++ " is too short to parse ACPI table header."])
    | _ => (none, [])

/-- `student_tables[signature] = ..` -/
def setTable (signature : Text) (info : TableInfo) :
    List (Text × TableInfo) → List (Text × TableInfo)
  | [] => [(signature, info)]
  | (key, value) :: tables =>
    if key = signature then (key, info) :: tables
    else (key, value) :: setTable signature info tables

def addSection (acc : List (Text × TableInfo) × List String) (sec : Text) :
    List (Text × TableInfo) × List String :=
  let (table, printed) := parseSection py sec
  (table.elim acc.1 fun t => setTable t.1 t.2 acc.1, acc.2 ++ printed)

/-- The dictionary that is returned, and the lines that are printed. -/
def parseStudentOutput (content : Text) : List (Text × TableInfo) × List String :=
  (split (sectionPattern py) content).foldl (addSection py) ([], [])

end

end OsHomework.AcpiCheck
