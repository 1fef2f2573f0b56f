import OsHomework.Lib.CString
import OsHomework.Lib.Reach

/-!
# Xattr — `get_xattr` beside calls that change the attribute

`get_xattr` asks for the length of the value, allocates a buffer for it, fetches the value and puts
the terminator behind the length it was told first. The attribute may change in between. The length
that the fetch returns is only compared with -1.

`XattrState.held` keeps the values the attribute has had since the call began, for the theorems
only: no step reads it.

* **`HeldInv.step`** — what is known at each point of a call whose fetch does not find a shorter
  value.
* **`getXattr_held`** — such a call returns null or a value the attribute held during the call.
-/

namespace OsHomework.Xattr

open ByteFile CString Lts

/-! ## The calls

A thread is inside `get_xattr` while others set and remove the attribute. Each system call is one
step; so is malloc, which returns memory with any content. The size 0 has a meaning of its own:
`getxattr` then answers with the length and writes nothing. -/

/-- `getxattr`: the length returned, and the buffer. `none` is -1, for an attribute that is not
there or a value that does not fit. -/
def getxattr (attr : Option Bytes) (buf : Bytes) (size : Nat) : Option (Nat × Bytes) :=
  match attr with
  | none => none
  | some v =>
    -- a size of 0 asks for the length
    if size = 0 then some (v.length, buf)
    else if v.length ≤ size then some (v.length, v ++ buf.drop v.length)
    else none

/-- `set_xattr`, with the result of `setxattr`: the value returned, and the attribute. -/
def setXattr (ok : Bool) (value : Bytes) (attr : Option Bytes) : Int × Option Bytes :=
  if ok then (1, some (cString value)) else (-1, attr)

def removeXattr (ok : Bool) (attr : Option Bytes) : Int × Option Bytes :=
  if ok then (1, none) else (-1, attr)

/-- Where a call of `get_xattr` stands, with its local variables; `ret` has null or the memory
behind the pointer returned. -/
inductive GetPc where
  | query
  | malloc (valueLen : Nat)
  | fetch (valueLen : Nat) (value : Bytes)
  | ret (value : Option Bytes)
  deriving DecidableEq

/-- The next call of `get_xattr`; `mem` is what malloc returns, with whatever the memory holds. -/
def GetPc.next (attr mem : Option Bytes) : GetPc → Option GetPc
  | .query =>
    match getxattr attr [] 0 with
    | none => some (.ret none)
    | some (valueLen, _) => some (.malloc valueLen)
  | .malloc valueLen =>
    match mem with
    | none => some (.ret none)
    -- `malloc(value_len + 1)`
    | some value => if value.length = valueLen + 1 then some (.fetch valueLen value) else none
  | .fetch valueLen value =>
    match getxattr attr value valueLen with
    | none => some (.ret none)
    -- `value[value_len] = '\0'`
    | some (_, value) => some (.ret (some (value.set valueLen 0)))
  | .ret _ => none

structure XattrState where
  attr : Option Bytes
  pc : GetPc
  held : List Bytes
  deriving DecidableEq

inductive XattrLabel where
  | get (mem : Option Bytes)
  | set (ok : Bool) (value : Bytes)
  | remove (ok : Bool)

/-- The attribute when `get_xattr` is called. -/
def XattrState.start (attr : Option Bytes) : XattrState := ⟨attr, .query, attr.toList⟩

/-- The attribute changes; what it holds after the return is not recorded. -/
def XattrState.change (s : XattrState) (attr : Option Bytes) : XattrState :=
  match s.pc with
  | .ret _ => { s with attr := attr }
  | _ => { s with attr := attr, held := s.held ++ attr.toList }

def xattrStep (s : XattrState) : XattrLabel → Option XattrState
  | .get mem => (s.pc.next s.attr mem).map fun pc => { s with pc := pc }
  | .set ok value => some (s.change (setXattr ok value s.attr).2)
  | .remove ok => some (s.change (removeXattr ok s.attr).2)

/-! ## What a call knows

`value_len` is the length of a value the attribute has had. What the fetch finds may be another
value. A longer one does not fit and the call returns null, one of the same length is taken over
whole; a shorter one leaves bytes of the buffer in front of the terminator. -/

/-- The fetch finds no value, or one that is not shorter than the one whose length was asked for. -/
def NotShorter (s : XattrState) : XattrLabel → Prop
  | .get _ => ∀ valueLen value, s.pc = .fetch valueLen value → valueLen ≠ 0 →
      ∀ v ∈ s.attr, valueLen ≤ v.length
  | _ => True

/-- What is known at each point: the length asked for is that of a value held. -/
def GetPc.Knows (held : List Bytes) : GetPc → Prop
  | .query => True
  | .malloc valueLen => ∃ v ∈ held, v.length = valueLen
  | .fetch valueLen value => (∃ v ∈ held, v.length = valueLen) ∧ value.length = valueLen + 1
  | .ret value => ∀ mem ∈ value, cString mem ∈ held

structure HeldInv (s : XattrState) : Prop where
  nul_free : ∀ v ∈ s.held, 0 ∉ v
  attr_nul_free : ∀ v ∈ s.attr, 0 ∉ v
  attr_held : (∀ value, s.pc ≠ .ret value) → ∀ v ∈ s.attr, v ∈ s.held
  knows : s.pc.Knows s.held

section

variable {s s' : XattrState} {held : List Bytes}

/-- More values held do not take away what is known. -/
theorem GetPc.Knows.mono {pc : GetPc} {more : List Bytes} (h : pc.Knows held) :
    pc.Knows (held ++ more) := by
  cases pc with
  | query => trivial
  | malloc valueLen =>
    obtain ⟨v, hv, hlen⟩ := h
    exact ⟨v, List.mem_append_left _ hv, hlen⟩
  | fetch valueLen value =>
    obtain ⟨⟨v, hv, hlen⟩, hvalue⟩ := h
    exact ⟨⟨v, List.mem_append_left _ hv, hlen⟩, hvalue⟩
  | ret value => exact fun mem hmem => List.mem_append_left _ (h mem hmem)

theorem heldInv_start {attr : Option Bytes} (hattr : ∀ v ∈ attr, 0 ∉ v) :
    HeldInv (XattrState.start attr) := by
  refine ⟨fun v hv => hattr v (Option.mem_toList.mp hv), hattr, fun _ v hv => ?_, trivial⟩
  exact Option.mem_toList.mpr hv

/-- The attribute changes to a value without a NUL. -/
theorem HeldInv.change (h : HeldInv s) {attr : Option Bytes} (hattr : ∀ v ∈ attr, 0 ∉ v) :
    HeldInv (s.change attr) := by
  unfold XattrState.change
  split
  · next value hpc =>
    exact ⟨h.nul_free, hattr, fun hrun => absurd hpc (hrun value), h.knows⟩
  · refine ⟨fun v hv => ?_, hattr, fun _ v hv => ?_, h.knows.mono⟩
    · rcases List.mem_append.mp hv with hv | hv
      · exact h.nul_free v hv
      · exact hattr v (Option.mem_toList.mp hv)
    · exact List.mem_append_right _ (Option.mem_toList.mpr hv)

/-- The buffer after a fetch that found as many bytes as had been asked for. -/
theorem cString_fetched {v value : Bytes} (hnul : 0 ∉ v) (hlen : value.length = v.length + 1) :
    cString ((v ++ value.drop v.length).set v.length 0) = v := by
  obtain ⟨b, hb⟩ : ∃ b, value.drop v.length = [b] := by
    rw [← List.length_eq_one_iff, List.length_drop]
    omega
  rw [hb, List.set_append_right _ _ (Nat.le_refl _), Nat.sub_self, List.set_cons_zero]
  exact cString_append hnul []

/-- What a fetch that finds no shorter value leaves behind the pointer. -/
theorem cString_getxattr {v value buf : Bytes} {valueLen ret : Nat} (hv : v ∈ held)
    (hnul : ∀ v ∈ held, 0 ∉ v) (hasked : ∃ w ∈ held, w.length = valueLen)
    (hlen : value.length = valueLen + 1) (hlonger : valueLen ≠ 0 → valueLen ≤ v.length)
    (h : getxattr (some v) value valueLen = some (ret, buf)) :
    cString (buf.set valueLen 0) ∈ held := by
  simp only [getxattr] at h
  split at h
  · next hzero =>
    -- a size of 0 asks for the length once more, and the empty value was held at the first question
    cases h
    subst hzero
    obtain ⟨w, hw, hwlen⟩ := hasked
    obtain ⟨b, rfl⟩ := List.length_eq_one_iff.mp hlen
    rw [List.length_eq_zero_iff.mp hwlen] at hw
    exact hw
  · next hne =>
    -- the value fits and is not shorter
    obtain ⟨hfits, heq⟩ := Option.ite_none_right_eq_some.mp h
    cases heq
    have hsame : valueLen = v.length := Nat.le_antisymm (hlonger hne) hfits
    subst hsame
    rw [cString_fetched (hnul v hv) hlen]
    exact hv

/-- **One call** made by `get_xattr`. -/
theorem GetPc.Knows.next {pc pc' : GetPc} {attr mem : Option Bytes} (h : pc.Knows held)
    (hheld : ∀ v ∈ attr, v ∈ held) (hnul : ∀ v ∈ held, 0 ∉ v)
    (hlonger : ∀ valueLen value, pc = .fetch valueLen value → valueLen ≠ 0 →
      ∀ v ∈ attr, valueLen ≤ v.length)
    (hnext : pc.next attr mem = some pc') : pc'.Knows held := by
  have hnull : (GetPc.ret none).Knows held := fun mem hmem => by cases hmem
  cases pc with
  | query =>
    -- the length of the value that is there now
    cases attr with
    | none =>
      cases hnext
      exact hnull
    | some v =>
      cases hnext
      exact ⟨v, hheld v rfl, rfl⟩
  | malloc valueLen =>
    cases mem with
    | none =>
      cases hnext
      exact hnull
    | some value =>
      obtain ⟨hlen, heq⟩ := Option.ite_none_right_eq_some.mp hnext
      cases heq
      exact ⟨h, hlen⟩
  | fetch valueLen value =>
    simp only [GetPc.next] at hnext
    -- the attribute is gone, or has become too long
    split at hnext
    · cases hnext
      exact hnull
    · next ret buf hget =>
      cases hnext
      cases attr with
      | none => cases hget
      | some v =>
        intro mem hmem
        cases hmem
        have hlonger := fun hne => hlonger valueLen value rfl hne v rfl
        exact cString_getxattr (hheld v rfl) hnul h.1 h.2 hlonger hget
  | ret value => cases hnext

/-- A step of `get_xattr` changes its program counter only. -/
theorem HeldInv.get (h : HeldInv s) {mem : Option Bytes} (hok : NotShorter s (.get mem))
    (hstep : xattrStep s (.get mem) = some s') : HeldInv s' := by
  obtain ⟨pc, hnext, rfl⟩ := Option.map_eq_some_iff.mp hstep
  have hrun : ∀ value, s.pc ≠ .ret value := by
    intro value hpc
    rw [hpc] at hnext
    cases hnext
  have hheld := h.attr_held hrun
  exact ⟨h.nul_free, h.attr_nul_free, fun _ => hheld, h.knows.next hheld h.nul_free hok hnext⟩

/-- **One step** of any thread. -/
theorem HeldInv.step {l : XattrLabel} (h : HeldInv s) (hok : NotShorter s l)
    (hstep : xattrStep s l = some s') : HeldInv s' := by
  cases l with
  | get mem => exact h.get hok hstep
  | set ok value =>
    cases hstep
    refine h.change fun v hv => ?_
    -- what `setxattr` stores is a string
    cases ok with
    | false => exact h.attr_nul_free v hv
    | true =>
      cases hv
      exact zero_notMem_cString value
  | remove ok =>
    cases hstep
    refine h.change fun v hv => ?_
    cases ok with
    | false => exact h.attr_nul_free v hv
    | true => cases hv

/-- How many calls `get_xattr` still makes. -/
def GetPc.left : GetPc → Nat
  | .query => 3
  | .malloc _ => 2
  | .fetch _ _ => 1
  | .ret _ => 0

/-- A call that has not returned goes on, whatever malloc returns. -/
theorem GetPc.progress (attr mem : Option Bytes) (pc : GetPc)
    (hmem : ∀ valueLen, pc = .malloc valueLen → ∀ value ∈ mem, value.length = valueLen + 1) :
    (∃ value, pc = .ret value) ∨ ∃ pc', pc.next attr mem = some pc' ∧ pc'.left < pc.left := by
  cases pc with
  | query =>
    right
    simp only [GetPc.next]
    split
    · exact ⟨_, rfl, by decide⟩
    · exact ⟨_, rfl, by simp [GetPc.left]⟩
  | malloc valueLen =>
    right
    cases mem with
    | none => exact ⟨_, rfl, by simp [GetPc.left]⟩
    | some value =>
      exact ⟨_, if_pos (hmem valueLen rfl value rfl), by simp [GetPc.left]⟩
  | fetch valueLen value =>
    right
    simp only [GetPc.next]
    split
    · exact ⟨_, rfl, by simp [GetPc.left]⟩
    · exact ⟨_, rfl, by simp [GetPc.left]⟩
  | ret value => exact Or.inl ⟨value, rfl⟩

end

/-- **In every run** in which the fetch finds no value, or one that is not shorter than the one
whose length was asked for: `get_xattr` returns null or a string that the attribute held during the
call, whatever the buffer held before, and until it returns it goes on. -/
theorem getXattr_held (attr : Option Bytes) (hattr : ∀ v ∈ attr, 0 ∉ v) (s : XattrState)
    (hreach : Reach xattrStep NotShorter (XattrState.start attr) s) :
    (∀ value, s.pc = .ret value → value = none ∨ ∃ mem, value = some mem ∧ cString mem ∈ s.held) ∧
      ∀ mem, (∀ valueLen, s.pc = .malloc valueLen → ∀ value ∈ mem, value.length = valueLen + 1) →
        (∃ value, s.pc = .ret value) ∨
          ∃ s', xattrStep s (.get mem) = some s' ∧ s'.pc.left < s.pc.left := by
  have hinv : HeldInv s :=
    hreach.inv (heldInv_start hattr) fun _ _ _ h hok hstep => h.step hok hstep
  constructor
  · intro value hpc
    have hknows := hinv.knows
    rw [hpc] at hknows
    cases value with
    | none => exact Or.inl rfl
    | some mem => exact Or.inr ⟨mem, rfl, hknows mem rfl⟩
  · intro mem hmem
    rcases s.pc.progress s.attr mem hmem with hret | ⟨pc, hnext, hleft⟩
    · exact Or.inl hret
    · exact Or.inr ⟨{ s with pc := pc }, by rw [xattrStep, hnext]; rfl, hleft⟩

/-- The value is replaced by one of the same length between the two calls of `getxattr`. -/
theorem getXattr_held_replaced :
    ∃ s, Reach xattrStep NotShorter (XattrState.start (some [97, 98])) s ∧
      s.pc = .ret (some [99, 100, 0]) ∧
      ∃ mem, some [99, 100, 0] = some mem ∧ cString mem ∈ s.held := by
  have hquery : Reach xattrStep NotShorter (XattrState.start (some [97, 98]))
      ⟨some [97, 98], .malloc 2, [[97, 98]]⟩ := by
    refine .single (l := .get none) (fun _ _ hpc => ?_) rfl
    cases hpc
  have hmalloc : Reach xattrStep NotShorter (XattrState.start (some [97, 98]))
      ⟨some [97, 98], .fetch 2 [120, 120, 120], [[97, 98]]⟩ := by
    refine hquery.tail (l := .get (some [120, 120, 120])) (fun _ _ hpc => ?_) rfl
    cases hpc
  have hset : Reach xattrStep NotShorter (XattrState.start (some [97, 98]))
      ⟨some [99, 100], .fetch 2 [120, 120, 120], [[97, 98], [99, 100]]⟩ :=
    hmalloc.tail (l := .set true [99, 100]) trivial rfl
  have hfetch : Reach xattrStep NotShorter (XattrState.start (some [97, 98]))
      ⟨some [99, 100], .ret (some [99, 100, 0]), [[97, 98], [99, 100]]⟩ := by
    refine hset.tail (l := .get none) (fun _ _ hpc _ v hv => ?_) rfl
    cases hpc
    cases hv
    decide
  refine ⟨_, hfetch, rfl, ?_⟩
  have hheld := (getXattr_held (some [97, 98]) (by decide) _ hfetch).1 _ rfl
  exact hheld.resolve_left (by decide)

/-- It is replaced by a shorter one. -/
def shortened : List XattrLabel :=
  [.get none, .get (some [120, 120, 120]), .set true [99], .get none]

/-- The string returned ends with a byte that the buffer held before. -/
theorem getXattr_not_held :
    ∃ s, Reach xattrStep (fun _ _ => True) (XattrState.start (some [97, 98])) s ∧
      s.pc = .ret (some [99, 120, 0]) ∧ s.held = [[97, 98], [99]] ∧
      cString [99, 120, 0] = [99, 120] ∧ [99, 120] ∉ s.held := by
  have hrun : exec xattrStep (fun _ _ => true) (XattrState.start (some [97, 98])) shortened =
      some ⟨some [99], .ret (some [99, 120, 0]), [[97, 98], [99]]⟩ := by decide +kernel
  exact ⟨_, reach_of_exec hrun fun _ _ _ => trivial, rfl, rfl, by decide, by decide⟩

end OsHomework.Xattr
