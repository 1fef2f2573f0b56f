import Mathlib.Data.Nat.Digits.Lemmas
import Mathlib.Data.UInt

/-!
# Hexadecimal numbers

* **`length_format`**, **`lt_length_format`** — a number that fits into its width and one that does
  not.
* **`decode_flatten`** — decoding a text that is made of pairs of digits.
* **`byteOf_format`** — the pair of a byte stands for that byte.
-/

namespace Hex

/-- A digit below 16. -/
def upper (d : Nat) : Char := (Nat.digitChar d).toUpper

/-- `n` in upper case, with zeros in front up to `width` digits. -/
def format (width n : Nat) : List Char :=
  List.leftpad width '0' ((Nat.digits 16 n).reverse.map upper)

/-- A hexadecimal digit in either case. -/
def isDigit (c : Char) : Bool :=
  ('0' ≤ c && c ≤ '9') || ('A' ≤ c && c ≤ 'F') || ('a' ≤ c && c ≤ 'f')

/-- What a digit stands for. -/
def value (c : Char) : Nat :=
  if c ≤ '9' then c.toNat - '0'.toNat
  else if c ≤ 'F' then c.toNat - 'A'.toNat + 10
  else c.toNat - 'a'.toNat + 10

/-- Two digits and nothing else. -/
def isPair : List Char → Bool
  | [a, b] => isDigit a && isDigit b
  | _ => false

/-- What two digits stand for. -/
def byteOf : List Char → UInt8
  | [a, b] => UInt8.ofNat (16 * value a + value b)
  | _ => 0

/-- The bytes of a text of pairs. -/
def decode : List Char → Option (List UInt8)
  | [] => some []
  | [_] => none
  | a :: b :: rest => if isPair [a, b] then (decode rest).map (byteOf [a, b] :: ·) else none

/-! ## Digits

A number is as long as its width, or longer if it needs more digits. That a formatted text has
digits only is all a reader of it relies on. -/

theorem isDigit_upper {d : Nat} (hd : d < 16) : isDigit (upper d) = true := by
  revert d
  decide

theorem isDigit_of_mem_format {width n : Nat} {c : Char} (hc : c ∈ format width n) :
    isDigit c = true := by
  rw [format, List.leftpad, List.mem_append] at hc
  rcases hc with hc | hc
  · rw [List.eq_of_mem_replicate hc]
    decide
  · obtain ⟨d, hd, rfl⟩ := List.mem_map.mp hc
    exact isDigit_upper (Nat.digits_lt_base (by decide) (List.mem_reverse.mp hd))

/-- Zeros are put in front up to the width, and no digit is taken away. -/
theorem length_format_eq (width n : Nat) :
    (format width n).length = max width (Nat.digits 16 n).length := by
  rw [format, List.length_leftpad, List.length_map, List.length_reverse]

theorem length_format {width n : Nat} (h : n < 16 ^ width) : (format width n).length = width := by
  rw [length_format_eq, Nat.max_eq_left]
  exact (Nat.digits_length_le_iff (by decide) n).mpr h

theorem lt_length_format {width n : Nat} (h : 16 ^ width ≤ n) :
    width < (format width n).length := by
  rw [length_format_eq]
  exact Nat.lt_of_lt_of_le ((Nat.lt_digits_length_iff (by decide) n).mpr h) (Nat.le_max_right ..)

/-! ## Pairs

Two digits make a byte. A text of pairs is decoded in one way, wherever it was cut before it was
joined. -/

/-- A pair is a text of two digits. -/
theorem isPair_iff {s : List Char} :
    isPair s = true ↔ s.length = 2 ∧ ∀ c ∈ s, isDigit c = true := by
  unfold isPair
  split
  next a b => simp
  next h =>
    refine ⟨Bool.noConfusion, fun hs => ?_⟩
    obtain ⟨a, b, rfl⟩ := List.length_eq_two.mp hs.1
    exact absurd rfl (h a b)

/-- Two characters for each pair. -/
theorem length_flatten_of_isPair {pairs : List (List Char)} (h : ∀ s ∈ pairs, isPair s = true) :
    pairs.flatten.length = 2 * pairs.length := by
  induction pairs with
  | nil => rfl
  | cons s pairs ih =>
    rw [List.flatten_cons, List.length_append, List.length_cons,
      (isPair_iff.mp (h s List.mem_cons_self)).1, ih fun s hs => h s (List.mem_cons_of_mem _ hs)]
    omega

/-- **A text of pairs** is decoded pair by pair. -/
theorem decode_flatten {pairs : List (List Char)} (h : ∀ s ∈ pairs, isPair s = true) :
    decode pairs.flatten = some (pairs.map byteOf) := by
  induction pairs with
  | nil => rfl
  | cons s pairs ih =>
    have hs := h s List.mem_cons_self
    obtain ⟨a, b, rfl⟩ := List.length_eq_two.mp (isPair_iff.mp hs).1
    rw [List.flatten_cons, List.cons_append, List.cons_append, List.nil_append, decode, if_pos hs,
      ih fun s hs => h s (List.mem_cons_of_mem _ hs)]
    rfl

/-- A byte is formatted as a pair. -/
theorem isPair_format (b : UInt8) : isPair (format 2 b.toNat) = true := by
  rw [isPair_iff]
  exact ⟨length_format b.toNat_lt, fun c hc => isDigit_of_mem_format hc⟩

theorem byteOf_format (b : UInt8) : byteOf (format 2 b.toNat) = b := by
  have hall : ∀ n < 256, byteOf (format 2 n) = UInt8.ofNat n := by decide +kernel
  rw [hall b.toNat b.toNat_lt, UInt8.ofNat_toNat]

end Hex
