import Mathlib.Data.List.Basic

/-!
# Byte files

The content of a regular file is a list of bytes. The three positional operations are the POSIX
ones: `pread` returns what is there, `pwrite` places its data at an offset and fills a gap between
the old end and the offset with zero bytes (an empty write changes nothing), `resize` keeps the
common prefix and extends with zero bytes.
-/

namespace ByteFile

abbrev Bytes := List UInt8

/-- The bytes at `[off, off + len)`, as far as the file goes. -/
def pread (c : Bytes) (off len : Nat) : Bytes := (c.drop off).take len

/-- Place `data` at `off`. -/
def pwrite (c : Bytes) (off : Nat) (data : Bytes) : Bytes :=
  if data = [] then c
  else c.take off ++ List.replicate (off - c.length) 0 ++ data ++ c.drop (off + data.length)

/-- Set the length of the file. -/
def resize (c : Bytes) (len : Nat) : Bytes := c.take len ++ List.replicate (len - c.length) 0

@[simp] theorem pwrite_nil (c : Bytes) (off : Nat) : pwrite c off [] = c := by simp [pwrite]

/-- A write that starts inside the file (or at its end) leaves no gap to fill. -/
theorem pwrite_of_le {c : Bytes} {off : Nat} (hoff : off ≤ c.length) (data : Bytes) :
    pwrite c off data = c.take off ++ data ++ c.drop (off + data.length) := by
  by_cases hnil : data = []
  · subst hnil
    simp
  · simp [pwrite, hnil, Nat.sub_eq_zero_of_le hoff]

/-- A write at the end of the file appends. -/
theorem pwrite_end (c data : Bytes) : pwrite c c.length data = c ++ data := by
  rw [pwrite_of_le (Nat.le_refl _), List.take_length, List.drop_of_length_le (by omega),
    List.append_nil]

theorem length_pwrite {data : Bytes} (hne : data ≠ []) (c : Bytes) (off : Nat) :
    (pwrite c off data).length = max c.length (off + data.length) := by
  simp only [pwrite, hne, if_false, List.length_append, List.length_take, List.length_replicate,
    List.length_drop]
  omega

/-- Byte by byte: what was in front, with zeros behind the old end, the data, what was behind. -/
theorem getElem?_pwrite {data : Bytes} (hne : data ≠ []) (old : Bytes) (off i : Nat) :
    (pwrite old off data)[i]? =
      if i < off then some (old[i]?.getD 0) else if i < off + data.length then data[i - off]?
      else old[i]? := by
  have hfront : (old.take off ++ List.replicate (off - old.length) 0).length = off := by
    simp only [List.length_append, List.length_take, List.length_replicate]
    omega
  simp only [pwrite, hne, if_false]
  split
  · next hi =>
    rw [List.append_assoc, List.getElem?_append_left (by omega)]
    rcases Nat.lt_or_ge i old.length with hlt | hge
    · rw [List.getElem?_append_left (by rw [List.length_take]; omega), List.getElem?_take_of_lt hi,
        List.getElem?_eq_getElem hlt, Option.getD_some]
    · rw [List.getElem?_append_right (by rw [List.length_take]; omega), List.length_take,
        List.getElem?_replicate, if_pos (by omega), List.getElem?_eq_none hge, Option.getD_none]
  · next hi =>
    split
    · next hlt =>
      rw [List.append_assoc, List.getElem?_append_right (by omega), hfront,
        List.getElem?_append_left (by omega)]
    · next hge =>
      rw [List.getElem?_append_right (by rw [List.length_append]; omega), List.length_append,
        hfront, List.getElem?_drop]
      congr 1
      omega

/-- **The copy step.** Writing the next `k` bytes of `src` at the end of a file that holds the
first `pos` bytes of `src` makes it hold the first `pos + k`. -/
theorem pwrite_take_pread (src : Bytes) (pos k : Nat) :
    pwrite (src.take pos) pos (pread src pos k) = src.take (pos + k) := by
  rcases Nat.lt_or_ge pos src.length with hlt | hge
  · have hlen : (src.take pos).length = pos := by
      rw [List.length_take]
      omega
    have htail : (src.take pos).drop (pos + (pread src pos k).length) = [] :=
      List.drop_of_length_le (by omega)
    rw [pwrite_of_le (by omega), htail, List.append_nil, List.take_take, Nat.min_self, pread,
      ← List.take_add]
  · have hempty : pread src pos k = [] := by simp [pread, List.drop_of_length_le hge]
    rw [hempty, pwrite_nil, List.take_of_length_le hge, List.take_of_length_le (by omega)]

/-- A file is resized to hold the data and the data placed: this is a write at an offset. -/
theorem pwrite_eq_of_resize (c : Bytes) (off : Nat) {data : Bytes} (hne : data ≠ [])
    (hlt : c.length < off + data.length) :
    pwrite c off data = (resize c (off + data.length)).take off ++ data := by
  have htake : c.take (off + data.length) = c := List.take_of_length_le (by omega)
  have hdrop : c.drop (off + data.length) = [] := List.drop_of_length_le (by omega)
  rw [pwrite, if_neg hne, resize, htake, hdrop, List.append_nil, List.take_append,
    List.take_replicate]
  congr 4
  omega

/-- Two files on which every read agrees are equal. -/
theorem eq_of_pread_eq {c c' : Bytes} (h : ∀ off len, pread c off len = pread c' off len) :
    c = c' := by
  have hall := h 0 (max c.length c'.length)
  simp only [pread, List.drop_zero] at hall
  rwa [List.take_of_length_le (Nat.le_max_left _ _),
    List.take_of_length_le (Nat.le_max_right _ _)] at hall

end ByteFile
