import Mathlib.Data.List.TakeWhile
import OsHomework.Lib.ByteFile

/-!
# Strings in memory

A string ends at the first NUL of the memory it lies in.
-/

namespace CString

open ByteFile

/-- The string at the start of `mem`; all of `mem` if there is no NUL. -/
def cString (mem : Bytes) : Bytes := mem.takeWhile (· ≠ 0)

theorem length_cString_le (mem : Bytes) : (cString mem).length ≤ mem.length :=
  (List.takeWhile_prefix _).length_le

theorem zero_notMem_cString (mem : Bytes) : 0 ∉ cString mem := by
  intro h
  have hne := List.mem_takeWhile_imp h
  simp at hne

theorem forall_ne_zero {s : Bytes} (h : 0 ∉ s) : ∀ b ∈ s, decide (b ≠ 0) = true := by
  intro b hb
  rw [decide_eq_true_eq]
  rintro rfl
  exact h hb

/-- A string in front of its NUL. -/
theorem cString_append {s : Bytes} (h : 0 ∉ s) (rest : Bytes) : cString (s ++ 0 :: rest) = s := by
  rw [cString, List.takeWhile_append_of_pos (forall_ne_zero h),
    List.takeWhile_cons_of_neg (by simp), List.append_nil]

/-- What is behind a NUL does not matter. -/
theorem cString_append_of_mem {s : Bytes} (h : 0 ∈ s) (rest : Bytes) :
    cString (s ++ rest) = cString s := by
  obtain ⟨front, back, rfl, hfront⟩ := List.eq_append_cons_of_mem h
  rw [List.append_assoc, List.cons_append, cString_append hfront, cString_append hfront]

theorem cString_eq_self {s : Bytes} (h : 0 ∉ s) : cString s = s :=
  List.takeWhile_eq_self_iff.mpr (forall_ne_zero h)

end CString
