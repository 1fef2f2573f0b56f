import OsHomework.Ramfs.BindFile
import OsHomework.Ramfs.Complete

/-!
# Ramfs — reading the file back by its path

`ramfs_file_flush` does not read through the file it is given. It prints the path of its dentry with
`d_path` and opens that string again. While files are created, unlinked and renamed, an open file
may have lost its name: `d_path` then prints the last one with " (deleted)" behind it, and that is a
name like any other.

The name space of a ramfs mount is modelled with its dentries: each has a parent, a name, and is
hashed as long as it can be looked up. Paths are those below the mount; what is in front is the same
for all.

* **`filpOpen_dPath`** — the path of a hashed dentry leads to that dentry.
* **`persists_own_iff`** — in every name space that can be reached a flush that returns 0 has
  persisted the content of its own file, exactly if the file is still linked, or no regular file is
  found under the printed path, or that file begins with the content of the flushed one.
-/

namespace OsHomework.Ramfs

open ByteFile Fields Lts

/-! ## The name space

Dentries are never reused: a removed one stays in the list, unhashed, since a file may be open on
it. `write` stands for whatever changes the content of a file. The operations are those of the VFS
on a file system like ramfs, in which a dentry has no other source than its directory. -/

/-- A dentry with its inode; the inodes here have one dentry each. -/
structure Dentry where
  name : Name
  parent : Nat
  isDir : Bool
  hashed : Bool
  data : Bytes
  deriving DecidableEq

/-- All dentries, the root first; a dentry is known by its position. -/
abbrev Tree := List Dentry

/-- The root of the mount, its own parent. -/
def rootDentry : Dentry := ⟨[], 0, true, true, []⟩

/-- The separator of paths. -/
def slash : UInt8 := '/'.toUInt8

/-- What can be the name of a file: `.` and `..` cannot. -/
def ValidName (name : Name) : Prop :=
  name ≠ [] ∧ name.length ≤ 255 ∧ slash ∉ name ∧ 0 ∉ name ∧ name ≠ literal "." ∧
    name ≠ literal ".."

instance (name : Name) : Decidable (ValidName name) :=
  inferInstanceAs (Decidable (_ ∧ _ ∧ _ ∧ _ ∧ _ ∧ _))

/-- The lookup of a name in a directory. -/
def Tree.child (t : Tree) (p : Nat) (name : Name) : Option Nat :=
  t.findIdx? fun e => e.hashed && e.parent == p && e.name == name

/-- No name in the directory can be looked up. -/
def Tree.Empty (t : Tree) (p : Nat) : Prop := ∀ e ∈ t, e.hashed = true → e.parent ≠ p

instance (t : Tree) (p : Nat) : Decidable (t.Empty p) :=
  inferInstanceAs (Decidable (∀ e ∈ t, _))

/-- The dentries on the way up to the root, if it is not longer than the fuel. -/
def Tree.climb (t : Tree) : Nat → Nat → Option (List Nat)
  | 0, _ => none
  -- the root is its own parent
  | fuel + 1, d =>
    if d = 0 then some [0]
    else do
      let e ← t[d]?
      let up ← Tree.climb t fuel e.parent
      return d :: up

/-- The operations on the name space. -/
inductive NameOp where
  | create (parent : Nat) (name : Name) (isDir : Bool)
  | unlink (d : Nat)
  | rename (d newParent : Nat) (newName : Name) (fuel : Nat)
  | write (d : Nat) (c : Bytes)
  deriving DecidableEq

/-- One operation, if it is possible. -/
def Tree.step (t : Tree) : NameOp → Option Tree
  | .create p name isDir => do
    let q ← t[p]?
    -- the parent is a directory that can be found, and the name is free
    if q.hashed = true ∧ q.isDir = true ∧ ValidName name ∧ t.child p name = none then
      some (t ++ [⟨name, p, isDir, true, []⟩])
    else none
  | .unlink d => do
    let e ← t[d]?
    -- nothing is removed that something is below
    if d ≠ 0 ∧ e.hashed = true ∧ t.Empty d then some (t.set d { e with hashed := false }) else none
  | .rename d p name fuel => do
    let e ← t[d]?
    let q ← t[p]?
    let up ← t.climb fuel p
    -- a directory does not move below itself
    if d ≠ 0 ∧ e.hashed = true ∧ q.hashed = true ∧ q.isDir = true ∧ ValidName name ∧ d ∉ up then
      match t.child p name with
      | none => some (t.set d { e with parent := p, name := name })
      | some x =>
        -- onto itself: nothing happens
        if x = d then some t
        else do
          let f ← t[x]?
          -- the target goes, if it is of the same kind and empty
          if f.isDir = e.isDir ∧ t.Empty x then
            some ((t.set x { f with hashed := false }).set d { e with parent := p, name := name })
          else none
    else none
  | .write d c => do
    let e ← t[d]?
    if e.isDir = false then some (t.set d { e with data := c }) else none

/-! ## Printing a path and opening it

`d_path` goes up from the dentry by its parents and does not look at whether they can still be
found; `filp_open` goes down from the root by names and sees hashed dentries only. Going up needs
fuel, which a mount with finitely many dentries has enough of; what follows holds for any. -/

/-- The names on the way from the root. -/
def Tree.names (t : Tree) : Nat → Nat → Option (List Name)
  | 0, _ => none
  | fuel + 1, d =>
    if d = 0 then some []
    else do
      let e ← t[d]?
      let ns ← Tree.names t fuel e.parent
      return ns ++ [e.name]

/-- Names as a path: each with a slash in front. -/
def printPath (ns : List Name) : Path := ns.flatMap fun n => slash :: n

/-- `d_path`; `room` is what the path of the mount point leaves of `PATH_MAX`. -/
def Tree.dPath (t : Tree) (room fuel d : Nat) : Option Path := do
  let e ← t[d]?
  let ns ← t.names fuel d
  -- the way up is the same for a removed dentry
  let path := printPath ns ++ if e.hashed then [] else literal " (deleted)"
  if path.length < room then some path else none

/-- The walk from a directory along names, none of which is `.` or `..`. -/
def Tree.walk (t : Tree) (d : Nat) : List Name → Option Nat
  | [] => some d
  | n :: ns => do
    let e ← t[d]?
    if e.isDir then (t.child d n).bind fun x => Tree.walk t x ns else none

/-- `filp_open(path, O_RDONLY)`, as far as the name space decides it. -/
-- empty names between two slashes do not count
def Tree.filpOpen (t : Tree) (path : Path) : Option Nat :=
  t.walk 0 (fields (fun b => b == slash) path)

/-! ## The dentries keep together

For the way up and the way down to be the same every dentry on the way must be found under its name
in its parent. That is so for the hashed ones, because nothing is removed that something is below
and no name is given twice in a directory. -/

/-- What is true of every name space: the way up from a hashed dentry goes through hashed
directories, and no two hashed dentries have their name in common. -/
structure Tree.Wf (t : Tree) : Prop where
  root : t[0]? = some rootDentry
  named : ∀ (d : Nat) (e : Dentry), t[d]? = some e → d ≠ 0 → ValidName e.name
  up : ∀ (d : Nat) (e : Dentry), t[d]? = some e → e.hashed = true →
    ∃ q : Dentry, t[e.parent]? = some q ∧ q.hashed = true ∧ q.isDir = true
  unique : ∀ (d d' : Nat) (e e' : Dentry), t[d]? = some e → t[d']? = some e' →
    e.hashed = true → e'.hashed = true → e.parent = e'.parent → e.name = e'.name → d = d'

section

variable {t t' : Tree} {d p x : Nat} {e e' q : Dentry} {name : Name} {ns : List Name}

/-- An entry after a dentry has changed. -/
theorem of_getElem?_set (h : (t.set d e')[x]? = some e) :
    x = d ∧ e = e' ∨ x ≠ d ∧ t[x]? = some e := by
  rw [List.getElem?_set] at h
  split at h
  · next heq =>
    split at h
    · cases h
      exact Or.inl ⟨heq.symm, rfl⟩
    · cases h
  · next hne => exact Or.inr ⟨fun heq => hne heq.symm, h⟩

theorem getElem?_set_of_some (h : t[d]? = some e) : (t.set d e')[d]? = some e' := by
  rw [List.getElem?_set, if_pos rfl, if_pos (List.getElem?_eq_some_iff.mp h).1]

/-- A name that is free. -/
theorem Tree.child_eq_none (h : t.child p name = none) (hx : t[x]? = some e)
    (hhashed : e.hashed = true) (hparent : e.parent = p) : e.name ≠ name := by
  intro hname
  have hmiss := List.findIdx?_eq_none_iff.mp h e (List.mem_of_getElem? hx)
  simp [hhashed, hparent, hname] at hmiss

/-- What is found has the name. -/
theorem Tree.of_child_eq_some (h : t.child p name = some x) :
    ∃ e, t[x]? = some e ∧ e.hashed = true ∧ e.parent = p ∧ e.name = name := by
  obtain ⟨hlt, hmatch, -⟩ := List.findIdx?_eq_some_iff_getElem.mp h
  simp only [Bool.and_eq_true, beq_iff_eq] at hmatch
  exact ⟨t[x], List.getElem?_eq_getElem hlt, hmatch.1.1, hmatch.1.2, hmatch.2⟩

/-- A hashed dentry is found under its name. -/
theorem Tree.Wf.child_of_hashed (h : t.Wf) (hd : t[d]? = some e) (hhashed : e.hashed = true) :
    t.child e.parent e.name = some d := by
  cases hchild : t.child e.parent e.name with
  | none => exact absurd rfl (Tree.child_eq_none hchild hd hhashed rfl)
  | some x =>
    obtain ⟨f, hx, hf, hparent, hname⟩ := Tree.of_child_eq_some hchild
    rw [h.unique x d f e hx hd hf hhashed hparent hname]

/-- A dentry other than the root is changed. It may be unhashed if nothing is left below it, and
moved to a name that is free. -/
theorem Tree.Wf.set (h : t.Wf) (hd : t[d]? = some e) (hne : d ≠ 0) (hname : ValidName e'.name)
    (hdir : e'.isDir = e.isDir) (hempty : e'.hashed = false → t.Empty d)
    (hup : e'.hashed = true → ∃ q, t[e'.parent]? = some q ∧ q.hashed = true ∧ q.isDir = true)
    (hfree : e'.hashed = true → ∀ x f, t[x]? = some f → f.hashed = true →
      f.parent = e'.parent → f.name = e'.name → x = d) : Tree.Wf (t.set d e') := by
  -- a hashed directory of the old name space that something is below is one of the new
  have hkeep : ∀ (x : Nat) (f : Dentry), t[x]? = some f → f.hashed = true → f.isDir = true →
      (e'.hashed = true ∨ x ≠ d) →
      ∃ q, (t.set d e')[x]? = some q ∧ q.hashed = true ∧ q.isDir = true := by
    intro x f hx hf hfdir hwhich
    by_cases heq : x = d
    · subst heq
      -- the directory is the one that changes, and it stays a directory
      rw [hd] at hx
      cases hx
      exact ⟨e', getElem?_set_of_some hd, hwhich.resolve_right (fun hc => hc rfl), hdir ▸ hfdir⟩
    · exact ⟨f, by rw [List.getElem?_set_ne (Ne.symm heq)]; exact hx, hf, hfdir⟩
  refine ⟨?_, ?_, ?_, ?_⟩
  · rw [List.getElem?_set_ne hne]
    exact h.root
  -- valid names
  · intro x f hx hx0
    rcases of_getElem?_set hx with ⟨-, rfl⟩ | ⟨-, hx⟩
    · exact hname
    · exact h.named x f hx hx0
  -- the parent of each is hashed and a directory
  · intro x f hx hf
    rcases of_getElem?_set hx with ⟨-, rfl⟩ | ⟨-, hx⟩
    · obtain ⟨q, hq, hqh, hqd⟩ := hup hf
      exact hkeep _ q hq hqh hqd (Or.inl hf)
    · obtain ⟨q, hq, hqh, hqd⟩ := h.up x f hx hf
      refine hkeep _ q hq hqh hqd ?_
      -- a dentry that is removed is no parent
      cases hhashed : e'.hashed with
      | true => exact Or.inl rfl
      | false => exact Or.inr (hempty hhashed f (List.mem_of_getElem? hx) hf)
  -- one name, one dentry
  · intro x y f g hx hy hf hg hparent hnames
    rcases of_getElem?_set hx with ⟨rfl, rfl⟩ | ⟨-, hxold⟩ <;>
      rcases of_getElem?_set hy with ⟨rfl, rfl⟩ | ⟨-, hyold⟩
    · rfl
    · exact (hfree hf y g hyold hg hparent.symm hnames.symm).symm
    · exact hfree hg x f hxold hf hparent hnames
    · exact h.unique x y f g hxold hyold hf hg hparent hnames

/-- A new dentry under a name that is free. -/
theorem Tree.Wf.create (h : t.Wf) (hp : t[p]? = some q) (hhashed : q.hashed = true)
    (hdir : q.isDir = true) (hname : ValidName name) (hfree : t.child p name = none) (b : Bool) :
    Tree.Wf (t ++ [⟨name, p, b, true, []⟩]) := by
  -- what was there is there, at the same position
  have hold : ∀ (x : Nat) (f : Dentry), t[x]? = some f →
      (t ++ [⟨name, p, b, true, []⟩])[x]? = some f := by
    intro x f hx
    rw [List.getElem?_append_left (List.getElem?_eq_some_iff.mp hx).1]
    exact hx
  -- and everything else is the new one
  have hcases : ∀ (x : Nat) (f : Dentry), (t ++ [⟨name, p, b, true, []⟩])[x]? = some f →
      t[x]? = some f ∨ x = t.length ∧ f = ⟨name, p, b, true, []⟩ := by
    intro x f hx
    rw [List.getElem?_append] at hx
    split at hx
    · exact Or.inl hx
    · next hge =>
      obtain ⟨hlt, rfl⟩ := List.getElem?_eq_some_iff.mp hx
      simp only [List.length_singleton] at hlt
      exact Or.inr ⟨by omega, by simp⟩
  refine ⟨hold 0 _ h.root, ?_, ?_, ?_⟩
  · intro x f hx hx0
    rcases hcases x f hx with hx | ⟨-, rfl⟩
    · exact h.named x f hx hx0
    · exact hname
  · intro x f hx hf
    rcases hcases x f hx with hx | ⟨-, rfl⟩
    · obtain ⟨q', hq', hup⟩ := h.up x f hx hf
      exact ⟨q', hold _ _ hq', hup⟩
    · exact ⟨q, hold _ _ hp, hhashed, hdir⟩
  · intro x y f g hx hy hf hg hparent hnames
    rcases hcases x f hx with hx | ⟨rfl, rfl⟩ <;> rcases hcases y g hy with hy | ⟨rfl, rfl⟩
    · exact h.unique x y f g hx hy hf hg hparent hnames
    · exact absurd hnames (Tree.child_eq_none hfree hx hf hparent)
    · exact absurd hnames.symm (Tree.child_eq_none hfree hy hg hparent.symm)
    · rfl

/-- A hashed dentry gets another parent and a name that no other one has there. -/
theorem Tree.Wf.rename (h : t.Wf) (hd : t[d]? = some e) (hp : t[p]? = some q) (hne : d ≠ 0)
    (hhashed : e.hashed = true) (hqh : q.hashed = true) (hqd : q.isDir = true)
    (hname : ValidName name)
    (hfree : ∀ (x : Nat) (f : Dentry), t[x]? = some f → f.hashed = true → f.parent = p →
      f.name = name → x = d) :
    Tree.Wf (t.set d { e with parent := p, name := name }) := by
  refine h.set hd hne hname rfl ?_ (fun _ => ⟨q, hp, hqh, hqd⟩) (fun _ => hfree)
  intro hunhashed
  rw [show e.hashed = false from hunhashed] at hhashed
  cases hhashed

/-- A dentry that nothing is below can be removed. -/
theorem Tree.Wf.unhash (h : t.Wf) (hd : t[d]? = some e) (hne : d ≠ 0) (hempty : t.Empty d) :
    Tree.Wf (t.set d { e with hashed := false }) := by
  refine h.set hd hne (h.named d e hd hne) rfl (fun _ => hempty) ?_ ?_
  · intro hc
    cases hc
  · intro hc
    cases hc

/-- A file gets another content. -/
theorem Tree.Wf.write (h : t.Wf) (hd : t[d]? = some e) (hfile : e.isDir = false) (c : Bytes) :
    Tree.Wf (t.set d { e with data := c }) := by
  have hne : d ≠ 0 := by
    intro h0
    rw [h0, h.root] at hd
    cases hd
    cases hfile
  refine h.set hd hne (h.named d e hd hne) rfl ?_ (h.up d e hd) ?_
  · -- nothing is below a dentry that is not hashed
    intro hunhashed f hmem hf hparent
    obtain ⟨x, hx⟩ := List.mem_iff_getElem?.mp hmem
    obtain ⟨q, hq, hqh, -⟩ := h.up x f hx hf
    rw [hparent, hd] at hq
    cases hq
    rw [show e.hashed = false from hunhashed] at hqh
    cases hqh
  · intro hhashed x f hx hf hparent hnames
    exact h.unique x d f e hx hd hf hhashed hparent hnames

/-- A hashed dentry takes the place of another one, which nothing is below. -/
theorem Tree.Wf.replace (h : t.Wf) (hd : t[d]? = some e) (hp : t[p]? = some q) (hne : d ≠ 0)
    (hhashed : e.hashed = true) (hqh : q.hashed = true) (hqd : q.isDir = true)
    (hname : ValidName name) (hchild : t.child p name = some x) (hx : t[x]? = some e')
    (hxd : x ≠ d) (hempty : t.Empty x) :
    Tree.Wf ((t.set x { e' with hashed := false }).set d { e with parent := p, name := name }) := by
  -- the target is found under the name it is replaced in
  obtain ⟨f, hx', hf, hparent, hnames⟩ := Tree.of_child_eq_some hchild
  rw [hx] at hx'
  cases hx'
  -- it is not the root, which has no name
  have hx0 : x ≠ 0 := by
    intro h0
    rw [h0, h.root] at hx
    cases hx
    exact hname.1 hnames.symm
  -- so the new parent is not the target
  have hpx : p ≠ x := fun heq => hempty e' (List.mem_of_getElem? hx) hf (hparent.trans heq)
  refine (h.unhash hx hx0 hempty).rename ?_ (q := q) ?_ hne hhashed hqh hqd hname ?_
  · rw [List.getElem?_set_ne hxd]
    exact hd
  · rw [List.getElem?_set_ne (Ne.symm hpx)]
    exact hp
  -- with the target removed the name is free
  · intro y g hy hg hgparent hgname
    rcases of_getElem?_set hy with ⟨-, rfl⟩ | ⟨hyx, hy⟩
    · cases hg
    · exact absurd (h.unique y x g e' hy hx hg hf (hgparent.trans hparent.symm)
        (hgname.trans hnames.symm)) hyx

/-- **One operation** keeps the name space well formed. -/
theorem Tree.Wf.step {op : NameOp} (h : t.Wf) (hstep : t.step op = some t') : t'.Wf := by
  cases op with
  | create p name isDir =>
    simp only [Tree.step, Option.bind_eq_bind, Option.bind_eq_some_iff,
      Option.ite_none_right_eq_some, Option.some.injEq] at hstep
    obtain ⟨q, hp, ⟨hhashed, hdir, hname, hfree⟩, rfl⟩ := hstep
    exact h.create hp hhashed hdir hname hfree isDir
  | unlink d =>
    simp only [Tree.step, Option.bind_eq_bind, Option.bind_eq_some_iff,
      Option.ite_none_right_eq_some, Option.some.injEq] at hstep
    obtain ⟨e, hd, ⟨hne, -, hempty⟩, rfl⟩ := hstep
    exact h.unhash hd hne hempty
  | write d c =>
    simp only [Tree.step, Option.bind_eq_bind, Option.bind_eq_some_iff,
      Option.ite_none_right_eq_some, Option.some.injEq] at hstep
    obtain ⟨e, hd, hfile, rfl⟩ := hstep
    exact h.write hd hfile c
  | rename d p name fuel =>
    simp only [Tree.step, Option.bind_eq_bind, Option.bind_eq_some_iff,
      Option.ite_none_right_eq_some] at hstep
    obtain ⟨e, hd, q, hp, up, -, ⟨hne, hhashed, hqh, hqd, hname, -⟩, hstep⟩ := hstep
    cases hchild : t.child p name with
    -- a free name
    | none =>
      simp only [hchild, Option.some.injEq] at hstep
      subst hstep
      refine h.rename hd hp hne hhashed hqh hqd hname fun x f hx hf hparent hnames => ?_
      exact absurd hnames (Tree.child_eq_none hchild hx hf hparent)
    | some x =>
      simp only [hchild] at hstep
      -- the dentry has that name already
      split at hstep
      · cases hstep
        exact h
      -- the name of another one
      · next hxd =>
        simp only [Option.bind_eq_some_iff, Option.ite_none_right_eq_some,
          Option.some.injEq] at hstep
        obtain ⟨f, hx, ⟨-, hempty⟩, rfl⟩ := hstep
        exact h.replace hd hp hne hhashed hqh hqd hname hchild hx hxd hempty

/-- The root alone. -/
theorem Tree.Wf.initial : Tree.Wf [rootDentry] := by
  have honly : ∀ (d : Nat) (e : Dentry), ([rootDentry] : Tree)[d]? = some e →
      d = 0 ∧ e = rootDentry := by
    intro d e h
    obtain ⟨hlt, rfl⟩ := List.getElem?_eq_some_iff.mp h
    simp only [List.length_singleton] at hlt
    exact ⟨by omega, by simp⟩
  refine ⟨rfl, ?_, ?_, ?_⟩
  · intro d e h hne
    exact absurd (honly d e h).1 hne
  · intro d e h _
    exact ⟨rootDentry, by rw [(honly d e h).2]; rfl, rfl, rfl⟩
  · intro d d' e e' h h' _ _ _ _
    rw [(honly d e h).1, (honly d' e' h').1]

/-- Every name space that can be reached is well formed. -/
theorem Tree.Wf.of_reach (h : Reach Tree.step (fun _ _ => True) [rootDentry] t) : t.Wf :=
  h.inv (I := Tree.Wf) .initial fun _ _ _ hwf _ hstep => hwf.step hstep

/-! ## A printed path leads back

The names on the way up are valid, so that the path falls apart into the same names where it is
opened, and each of them leads one dentry further down. -/

/-- A walk in two parts. -/
theorem Tree.walk_append (ms : List Name) :
    t.walk d (ns ++ ms) = (t.walk d ns).bind fun x => t.walk x ms := by
  induction ns generalizing d with
  | nil => rfl
  | cons n ns ih =>
    simp only [List.cons_append, Tree.walk, Option.bind_eq_bind, Option.bind_assoc]
    congr 1
    funext e
    split
    · simp only [Option.bind_assoc, ih]
    · rfl

/-- The names in a path are valid. -/
theorem Tree.Wf.names_valid {fuel : Nat} (h : t.Wf) (hns : t.names fuel d = some ns) :
    ∀ n ∈ ns, ValidName n := by
  induction fuel generalizing d ns with
  | zero => cases hns
  | succ fuel ih =>
    unfold Tree.names at hns
    split at hns
    · cases hns
      simp
    · next hne =>
      simp only [Option.bind_eq_bind, Option.bind_eq_some_iff, Option.pure_def,
        Option.some.injEq] at hns
      obtain ⟨e, hd, up, hup, rfl⟩ := hns
      intro n hn
      rcases List.mem_append.mp hn with hn | hn
      · exact ih hup n hn
      · rw [List.mem_singleton.mp hn]
        exact h.named d e hd hne

/-- The names on the way to a hashed dentry lead to it. -/
theorem Tree.Wf.walk_names {fuel : Nat} (h : t.Wf) (hns : t.names fuel d = some ns)
    (hd : t[d]? = some e) (hhashed : e.hashed = true) : t.walk 0 ns = some d := by
  induction fuel generalizing d e ns with
  | zero => cases hns
  | succ fuel ih =>
    unfold Tree.names at hns
    split at hns
    · next h0 =>
      cases hns
      rw [h0]
      rfl
    · simp only [Option.bind_eq_bind, Option.bind_eq_some_iff, Option.pure_def,
        Option.some.injEq] at hns
      obtain ⟨e', hd', up, hup, rfl⟩ := hns
      rw [hd] at hd'
      cases hd'
      obtain ⟨q, hq, hqh, hqd⟩ := h.up d e hd hhashed
      -- the parent is found, and in it the name
      rw [Tree.walk_append, ih hup hq hqh]
      simp [Tree.walk, hq, hqd, h.child_of_hashed hd hhashed]

/-- A path falls apart into the names it was made of. -/
theorem fields_printPath (hns : ∀ n ∈ ns, ValidName n) :
    fields (fun b => b == slash) (printPath ns) = ns := by
  induction ns with
  | nil => rfl
  | cons n ns ih =>
    have hn := hns n List.mem_cons_self
    have hcons : printPath (n :: ns) = slash :: (n ++ printPath ns) := rfl
    -- the first name ends at the next slash
    rw [hcons, fields_cons (x := slash) (by simp), fields_append hn.1,
      ih fun m hm => hns m (List.mem_cons_of_mem n hm)]
    -- no slash in a name
    · intro b hb
      rw [beq_eq_false_iff_ne]
      intro heq
      rw [heq] at hb
      exact hn.2.2.1 hb
    -- behind it the path is at its end or goes on with a slash
    · intro b hb
      cases ns with
      | nil => cases hb
      | cons m ns =>
        cases hb
        exact beq_self_eq_true slash

/-- **Reopening by path.** The path of a hashed dentry leads to that dentry. -/
theorem Tree.Wf.filpOpen_dPath {room fuel : Nat} {path : Path} (h : t.Wf) (hd : t[d]? = some e)
    (hhashed : e.hashed = true) (hpath : t.dPath room fuel d = some path) :
    t.filpOpen path = some d := by
  simp only [Tree.dPath, Option.bind_eq_bind, hd, Option.bind_some, hhashed, if_true,
    List.append_nil, Option.bind_eq_some_iff, Option.ite_none_right_eq_some,
    Option.some.injEq] at hpath
  obtain ⟨ns, hns, -, rfl⟩ := hpath
  unfold Tree.filpOpen
  rw [fields_printPath (h.names_valid hns)]
  exact h.walk_names hns hd hhashed

end

/-! ## The flush of an open file

The flush takes the size from its own file and the bytes from whatever it finds under the path. What
it has persisted is therefore the beginning of what it has found, and the question is when that is
the content of its own file. A directory can be opened as well but not read. -/

/-- What `filp_open` finds under the path that `d_path` prints; nothing, if the path does not fit or
leads nowhere. -/
def Tree.Finds (t : Tree) (room f : Nat) (found : Option Dentry) : Prop :=
  ∃ fuel, found = (t.dPath room fuel f).bind fun path => (t.filpOpen path).bind fun g => t[g]?

/-- The bytes that can be read from what was found. -/
def foundData (found : Option Dentry) : Bytes := (found.map Dentry.data).getD []

/-- One primitive of the flush of a file with the content `own`. -/
def reopenStep (own : Bytes) (found : Option Dentry) (s : Act × Volume) (o : Outcome) :
    Option (Act × Volume) :=
  s.1.step (sourceAt own (foundData found) s.1) o s.2

/-- The contract of the primitives: transfers move bytes up to the end of what is read, nothing is
opened if nothing was found, and a directory cannot be read. -/
def Reopens (found : Option Dentry) (s : Act × Volume) (o : Outcome) : Prop :=
  Transfers (foundData found) s.1 o ∧
    (s.1.pc = .openRead → o.isOk = true → found.isSome = true) ∧
    (s.1.pc = .copy → s.1.pos < s.1.size → o.isOk = true → ∀ g ∈ found, g.isDir = false)

instance (found : Option Dentry) (s : Act × Volume) (o : Outcome) : Decidable (Reopens found s o) :=
  inferInstanceAs (Decidable (_ ∧ _ ∧ _))

/-- Every flush of the file `f` that returns 0 has persisted its own content `e.data`. -/
def PersistsOwn (t : Tree) (room f : Nat) (e : Dentry) : Prop :=
  ∀ found, t.Finds room f found → ∀ (v : Volume) (s : Act × Volume),
    Reach (reopenStep e.data found) (Reopens found) (ramfsFileFlush true true e.name, v) s →
    s.1.pc = .ret 0 → s.2.live.content e.name = some e.data

/-- What was found can be read as far as needed. -/
def Serves (own : Bytes) (found : Option Dentry) : Prop :=
  ∃ g, found = some g ∧ (g.isDir = true → own = [])

/-- What is known of the second handle at each program counter. -/
def Handle (own : Bytes) (found : Option Dentry) (a : Act) : Prop :=
  match a.pc with
  -- nothing has been opened
  | .kstrdup | .kmallocPath | .openTmp | .dPath | .openRead => True
  | .kmallocBuf => found.isSome = true
  | .copy => ∃ g, found = some g ∧ (g.isDir = true → a.pos = 0)
  | .write _ => ∃ g, found = some g ∧ g.isDir = false
  | .fsync | .close | .kmallocTmp | .lookupTmp | .lookupDir | .lookupNew | .rename =>
    Serves own found
  | .ret code => code = 0 → Serves own found

section

variable {own : Bytes} {found : Option Dentry} {a a' : Act} {v v' : Volume} {o : Outcome}

/-- Without success the second handle is not opened and not read. -/
theorem Act.step_read_ok {src : Bytes} (hpc : a.pc = .openRead ∨ a.pc = .copy ∧ a.pos < a.size)
    (hstep : a.step src o v = some (a', v')) : o.isOk = true ∨ ∃ e, a' = a.fail e := by
  cases o with
  | ok n => exact Or.inl rfl
  | err e =>
    right
    rcases hpc with hpc | ⟨hpc, hlt⟩
    · simp only [Act.step, hpc, Act.call, Option.some.injEq, Prod.mk.injEq] at hstep
      exact ⟨e, hstep.1.symm⟩
    · simp only [Act.step, hpc, hlt, if_true, Option.some.injEq, Prod.mk.injEq] at hstep
      exact ⟨e, hstep.1.symm⟩

/-- An error says nothing. -/
theorem Handle.fail (e : Errno) : Handle own found (a.fail e) := by
  intro hzero
  have hpos := e.num_pos
  omega

/-- The loop is left: a directory only if there was nothing to copy. -/
theorem Handle.leave (h : Handle own found a) (hc : Copies own (foundData found) a v)
    (hpc : a.pc = .copy) (hend : a.size ≤ a.pos ∨ ∀ g ∈ found, g.isDir = false) :
    Serves own found := by
  simp only [Handle, hpc] at h
  simp only [Copies, hpc] at hc
  obtain ⟨g, rfl, hpos⟩ := h
  refine ⟨g, rfl, fun hdir => ?_⟩
  rcases hend with hend | hend
  · have hlen : own.length = 0 := by
      have hzero := hpos hdir
      omega
    exact List.length_eq_zero_iff.mp hlen
  · rw [hend g rfl] at hdir
    cases hdir

/-- **One primitive** of the flush, as far as the second handle goes. -/
theorem Handle.step (h : Handle own found a) (hc : Copies own (foundData found) a v)
    (hok : Reopens found (a, v) o)
    (hstep : reopenStep own found (a, v) o = some (a', v')) : Handle own found a' := by
  obtain ⟨htransfers, hopen, hread⟩ := hok
  by_cases hadv : Advances a o
  · cases hmove : move_of_step hadv hstep with
    | fail e _ => exact Handle.fail e
    | quiet q hpc =>
      -- the second handle is opened, if there is something to open
      cases hq : a.pc with
      | openRead =>
        rw [hq] at hpc
        cases hpc
        rcases Act.step_read_ok (Or.inl hq) hstep with hisOk | ⟨e, hfail⟩
        · exact hopen hq hisOk
        · rw [hfail]
          exact Handle.fail e
      -- in all other quiet steps the handle stays
      | _ =>
        rw [hq] at hpc
        cases hpc
        all_goals first | exact trivial | (simp only [Handle, hq] at h; exact h)
    | openTmp hpc => exact trivial
    | begin hpc =>
      -- the copy begins: nothing has been read
      simp only [Handle, hpc] at h
      obtain ⟨g, rfl⟩ := Option.isSome_iff_exists.mp h
      exact ⟨g, rfl, fun _ => rfl⟩
    | read n hpc =>
      simp only [Handle, hpc] at h
      obtain ⟨g, rfl, -⟩ := h
      have hchunk := Act.step_copy hpc hstep rfl
      -- a read that gives bytes is not one of a directory
      have hlt : a.pos < a.size := by omega
      rcases Act.step_read_ok (Or.inr ⟨hpc, hlt⟩) hstep with hisOk | ⟨e, hfail⟩
      · exact ⟨g, rfl, hread hpc hlt hisOk g rfl⟩
      · cases congrArg Act.pc hfail
    | leave hpc hend => exact h.leave hc hpc (Or.inl hend)
    | write buf n hpc _ _ =>
      simp only [Handle, hpc] at h
      -- what has been written came from a regular file
      obtain ⟨g, rfl, hreg⟩ := h
      exact ⟨g, rfl, fun hdir => by rw [hreg] at hdir; cases hdir⟩
    | fsync hpc =>
      simp only [Handle, hpc] at h
      exact h
    | rename hpc =>
      simp only [Handle, hpc] at h
      exact fun _ => h
  -- a read at the end of the file, by which the loop is left
  · obtain ⟨hpc, -⟩ := htransfers.resolve_left hadv
    rcases idle_of_step hadv hstep with ⟨-, hlt, rfl, rfl⟩ | ⟨buf, hwrite, -, -⟩
    · rcases Act.step_read_ok (Or.inr ⟨hpc, hlt⟩) hstep with hisOk | ⟨e, hfail⟩
      · exact h.leave hc hpc (Or.inr (hread hpc hlt hisOk))
      · cases congrArg Act.pc hfail
    · rw [hpc] at hwrite
      cases hwrite

/-- What is known of a flush of a file with this name and content. -/
structure ReopenInv (name : Name) (own : Bytes) (found : Option Dentry) (s : Act × Volume) :
    Prop where
  name_eq : s.1.name = name
  copies : Copies own (foundData found) s.1 s.2
  handle : Handle own found s.1

/-- **One primitive** of the flush. -/
theorem ReopenInv.step {name : Name} {s s' : Act × Volume} (h : ReopenInv name own found s)
    (hok : Reopens found s o) (hstep : reopenStep own found s o = some s') :
    ReopenInv name own found s' where
  name_eq := (Act.step_name hstep).trans h.name_eq
  copies := h.copies.step hok.1 hstep
  handle := h.handle.step h.copies hok hstep

/-- A flush that returns 0 has found something, and persisted as much of it as its own file is
long. -/
theorem persisted_of_ret {name : Name} {s : Act × Volume}
    (hrun : Reach (reopenStep own found) (Reopens found) (ramfsFileFlush true true name, v) s)
    (hret : s.1.pc = .ret 0) :
    ∃ g, found = some g ∧ (g.isDir = true → own = []) ∧
      s.2.live.content name = some (g.data.take own.length) := by
  have hinv : ReopenInv name own found s :=
    hrun.inv (I := ReopenInv name own found) ⟨rfl, trivial, trivial⟩
      fun _ _ _ h hok hstep => h.step hok hstep
  have hhandle := hinv.handle
  have hcopies := hinv.copies
  simp only [Handle, hret] at hhandle
  simp only [Copies, hret, hinv.name_eq] at hcopies
  obtain ⟨g, rfl, hdir⟩ := hhandle trivial
  exact ⟨g, rfl, hdir, hcopies trivial⟩

/-- A flush that has found a regular file can return 0. -/
theorem exists_ret (own : Bytes) (name : Name) (v : Volume) {g : Dentry} (hreg : g.isDir = false) :
    ∃ s, Reach (reopenStep own (some g)) (Reopens (some g)) (ramfsFileFlush true true name, v) s ∧
      s.1.pc = .ret 0 := by
  have hstart : Copies own g.data (ramfsFileFlush true true name) v ∧
      ∀ code, (ramfsFileFlush true true name).pc = .ret code → code = 0 :=
    ⟨trivial, fun code hcode => by cases hcode⟩
  -- every primitive succeeds and moves as much as it can
  refine reach_final (I := fun s : Act × Volume => Copies own g.data s.1 s.2 ∧
    ∀ code, s.1.pc = .ret code → code = 0) (fun s => s.1.distance own) ?_ hstart
  intro s ⟨hcopies, hzero⟩ hrun
  have hpc : ∀ code, s.1.pc ≠ .ret code := by
    intro code hcode
    rw [hzero code hcode] at hcode
    exact hrun hcode
  obtain ⟨a', v', hstep⟩ := hcopies.progress hpc
  have htransfers := transfers_most hcopies
  obtain ⟨hlt, hret⟩ := hcopies.closer htransfers hstep
  refine ⟨.ok (s.1.most g.data), (a', v'), ⟨htransfers, fun _ _ => rfl, ?_⟩, hstep,
    ⟨hcopies.step htransfers hstep, hret⟩, hlt⟩
  intro _ _ _ g' hg'
  cases hg'
  exact hreg

end

/-- **The flush persists its own file.** In every name space that creations, removals, renames and
writes lead to, for every file: each flush that returns 0 has persisted the file's own content,
exactly if the file is linked, or a regular file that is found under the path printed for it begins
with that content. -/
theorem persists_own_iff (room : Nat) (t : Tree)
    (hreach : Reach Tree.step (fun _ _ => True) [rootDentry] t) (f : Nat) (e : Dentry)
    (hf : t[f]? = some e) :
    PersistsOwn t room f e ↔
      e.hashed = true ∨ ∀ g, t.Finds room f (some g) → g.isDir = false → e.data <+: g.data := by
  constructor
  · intro hown
    right
    intro g hfinds hreg
    -- the flush that succeeds has persisted the beginning of what it has found
    obtain ⟨s, hrun, hret⟩ := exists_ret e.data e.name (.clean .empty) hreg
    obtain ⟨g', hg', -, hcontent⟩ := persisted_of_ret hrun hret
    cases hg'
    rw [hown _ hfinds _ s hrun hret, Option.some.injEq] at hcontent
    rw [hcontent]
    exact List.take_prefix _ _
  · intro hcond found hfinds v s hrun hret
    obtain ⟨g, rfl, hdir, hcontent⟩ := persisted_of_ret hrun hret
    have hprefix : e.data <+: g.data := by
      rcases hcond with hhashed | hcond
      · -- the path leads to the file itself
        obtain ⟨fuel, hfound⟩ := hfinds
        obtain ⟨path, hpath, hopen⟩ := Option.bind_eq_some_iff.mp hfound.symm
        rw [(Tree.Wf.of_reach hreach).filpOpen_dPath hf hhashed hpath, Option.bind_some,
          hf] at hopen
        cases hopen
        exact List.prefix_rfl
      · cases hreg : g.isDir with
        | false => exact hcond g hfinds hreg
        -- a directory: then the flushed file is empty
        | true =>
          rw [hdir hreg]
          exact List.nil_prefix
    rw [hcontent, ← List.prefix_iff_eq_take.mp hprefix]

/-- Two files in the root, one under the name that is printed for the other once that is gone. -/
def twins (hashed : Bool) : Tree :=
  [rootDentry, ⟨literal "f", 0, false, hashed, [1, 2]⟩,
    ⟨literal "f (deleted)", 0, false, true, [7, 7]⟩]

/-- How the two files come about. -/
def makeTwins : List NameOp :=
  [.create 0 (literal "f") false, .write 1 [1, 2], .create 0 (literal "f (deleted)") false,
    .write 2 [7, 7]]

/-- While the file is linked the other one does not matter. -/
theorem persists_own_linked :
    Reach Tree.step (fun _ _ => True) [rootDentry] (twins true) ∧
      PersistsOwn (twins true) 4096 1 ⟨literal "f", 0, false, true, [1, 2]⟩ := by
  have hrun : exec Tree.step (fun _ _ => true) [rootDentry] makeTwins = some (twins true) := by
    decide +kernel
  have hreach : Reach Tree.step (fun _ _ => True) [rootDentry] (twins true) :=
    reach_of_exec hrun fun _ _ _ => trivial
  exact ⟨hreach, (persists_own_iff 4096 (twins true) hreach 1 _ rfl).mpr (Or.inl rfl)⟩

/-- When it has been removed, the flush of the open file returns 0 and persists the other one's
content under its name. -/
theorem removed_not_persisted :
    Reach Tree.step (fun _ _ => True) [rootDentry] (twins false) ∧
      (∃ s : Act × Volume, Reach (reopenStep [1, 2] (twins false)[2]?) (Reopens (twins false)[2]?)
          (ramfsFileFlush true true (literal "f"), .clean .empty) s ∧
        s.1.pc = .ret 0 ∧ s.2.live.content (literal "f") = some [7, 7]) ∧
      ¬ PersistsOwn (twins false) 4096 1 ⟨literal "f", 0, false, false, [1, 2]⟩ := by
  -- the file is created, then removed
  have htree : exec Tree.step (fun _ _ => true) [rootDentry] (makeTwins ++ [.unlink 1]) =
      some (twins false) := by
    decide +kernel
  -- and flushed
  have hflush : (exec (reopenStep [1, 2] (twins false)[2]?)
      (fun s o => decide (Reopens (twins false)[2]? s o))
      (ramfsFileFlush true true (literal "f"), .clean .empty) (List.replicate 16 (.ok 2))).map
      (fun s => (s.1.pc, s.2.live.content (literal "f"))) = some (.ret 0, some [7, 7]) := by
    decide +kernel
  obtain ⟨s, hrun, hobs⟩ := reach_of_exec_map hflush fun _ _ h => of_decide_eq_true h
  simp only [Prod.mk.injEq] at hobs
  refine ⟨reach_of_exec htree fun _ _ _ => trivial, ⟨s, hrun, hobs⟩, fun hown => ?_⟩
  have hfinds : (twins false).Finds 4096 1 (twins false)[2]? := ⟨2, by decide +kernel⟩
  have hcontent := hown _ hfinds _ s hrun hobs.1
  rw [hobs.2] at hcontent
  exact absurd hcontent (by decide)

end OsHomework.Ramfs
