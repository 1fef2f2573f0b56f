import Mathlib.Data.Nat.Basic
import Mathlib.Tactic.Ring

/-!
# Little-endian numbers in byte-addressed memory

`load mem a n` is the number the `n` bytes from `a` on stand for, `store` puts one there, and
`loadVia` reads through an address translation that may be undefined at some of the bytes.

* **`load_store_self`**, **`load_store_disjoint`** — reading back what was stored, and reading
  elsewhere.
* **`loadVia_eq_load`** — a read through a translation that maps the bytes to consecutive ones is a
  read at the image.
-/

namespace ByteMem

/-- The `n`-byte number at `a`. -/
def load (mem : Nat → UInt8) : Nat → Nat → Nat
  | _, 0 => 0
  | a, n + 1 => (mem a).toNat + 256 * load mem (a + 1) n

/-- Write the `n`-byte number `v` at `a`. -/
def store (mem : Nat → UInt8) (a n v : Nat) : Nat → UInt8 := fun x =>
  if a ≤ x ∧ x < a + n then UInt8.ofNat (v / 256 ^ (x - a)) else mem x

/-- The `n`-byte number at the virtual address `a`, if all of it is mapped. -/
def loadVia (tr : Nat → Option Nat) (mem : Nat → UInt8) : Nat → Nat → Option Nat
  | _, 0 => some 0
  | a, n + 1 => do
    let p ← tr a
    let rest ← loadVia tr mem (a + 1) n
    some ((mem p).toNat + 256 * rest)

variable {mem mem' : Nat → UInt8} {a n : Nat}

/-- A load depends only on the bytes it reads. -/
theorem load_congr (h : ∀ x, a ≤ x → x < a + n → mem' x = mem x) :
    load mem' a n = load mem a n := by
  induction n generalizing a with
  | zero => rfl
  | succ n ih =>
    rw [load, load, h a (Nat.le_refl a) (by omega), ih fun x hle hlt => h x (by omega) (by omega)]

theorem load_store_disjoint {b m v : Nat} (h : a + n ≤ b ∨ b + m ≤ a) :
    load (store mem b m v) a n = load mem a n := by
  refine load_congr fun x hle hlt => ?_
  rw [store, if_neg (by omega)]

/-- The bytes of a number are those of its quotients. -/
theorem load_digits {v : Nat} (h : ∀ i < n, mem (a + i) = UInt8.ofNat (v / 256 ^ i)) :
    load mem a n = v % 256 ^ n := by
  induction n generalizing a v with
  | zero => simp [load, Nat.mod_one]
  | succ n ih =>
    have htail : load mem (a + 1) n = v / 256 % 256 ^ n := by
      refine ih fun i hi => ?_
      rw [show a + 1 + i = a + (i + 1) by ring, h (i + 1) (by omega), Nat.div_div_eq_div_mul,
        pow_succ']
    have hhead : (mem a).toNat = v % 256 := by
      have h0 := h 0 (by omega)
      simp only [Nat.add_zero, pow_zero, Nat.div_one] at h0
      rw [h0, UInt8.toNat_ofNat']
    rw [load, htail, hhead, pow_succ', Nat.mod_mul]

theorem load_store_self (mem : Nat → UInt8) (a n v : Nat) :
    load (store mem a n v) a n = v % 256 ^ n := by
  refine load_digits fun i hi => ?_
  rw [store, if_pos (by omega), show a + i - a = i by omega]

/-- A read through a translation that maps the bytes to consecutive ones. -/
theorem loadVia_eq_load {tr : Nat → Option Nat} {p : Nat} (h : ∀ i < n, tr (a + i) = some (p + i)) :
    loadVia tr mem a n = some (load mem p n) := by
  induction n generalizing a p with
  | zero => rfl
  | succ n ih =>
    have hrest : loadVia tr mem (a + 1) n = some (load mem (p + 1) n) := by
      refine ih fun i hi => ?_
      rw [show a + 1 + i = a + (i + 1) by ring, h (i + 1) (by omega),
        show p + (i + 1) = p + 1 + i by ring]
    have hfirst : tr a = some p := h 0 (by omega)
    rw [loadVia, hfirst, Option.bind_eq_bind, Option.bind_some, hrest]
    rfl

/-- A read succeeds only if every byte is mapped. -/
theorem isSome_of_loadVia {tr : Nat → Option Nat} {v : Nat} (h : loadVia tr mem a n = some v) :
    ∀ i < n, ∃ p, tr (a + i) = some p := by
  induction n generalizing a v with
  | zero => simp
  | succ n ih =>
    obtain ⟨p, hp, h⟩ := Option.bind_eq_some_iff.mp h
    obtain ⟨rest, hrest, -⟩ := Option.bind_eq_some_iff.mp h
    intro i hi
    cases i with
    | zero => exact ⟨p, hp⟩
    | succ i =>
      rw [show a + (i + 1) = a + 1 + i by ring]
      exact ih hrest i (by omega)

end ByteMem
