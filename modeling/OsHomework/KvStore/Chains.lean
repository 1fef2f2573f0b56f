import OsHomework.Lib.Chain
import OsHomework.KvStore.Machine

/-!
# KvStore — the chains stay well formed

What holds of the pointers of a store at every moment, whatever the threads do: each bucket's list
ends, its nodes have pairwise different keys of that bucket, a bucket's lock is held by exactly the
thread that is inside its critical section, and every thread knows what its program counter says it
has found out (`Knows`): how far it has walked without a hit, that the node it is about to update
or load is in its chain, that the node it is about to link is nobody else's.

* **`Shape.step`** — every operation of every thread keeps all of this. The chains change only at
  `hlist_add_head` (`Pc.grow`), so nodes never leave them; that is what makes the load after the
  unlock in `read_kv` safe.
-/

namespace OsHomework.KvStore

open LinkedList

/-- The cells of each bucket's chain, in order. -/
abbrev Chains := Int → List Addr

variable {node node' : Addr → Option KvNode} {ch ch' : Chains}

def keyOf (node : Addr → Option KvNode) (a : Addr) : Option Int := (node a).map (·.key)

def nextOf (node : Addr → Option KvNode) (a : Addr) : Option Addr := (node a).bind (·.next)

theorem keyOf_of_node {a : Addr} {n : KvNode} (h : node a = some n) :
    keyOf node a = some n.key := by
  rw [keyOf, h, Option.map_some]

theorem nextOf_of_node {a : Addr} {n : KvNode} (h : node a = some n) : nextOf node a = n.next := by
  rw [nextOf, h, Option.bind_some]

/-- The bucket whose critical section the thread is in. -/
def Pc.held : Pc → Option Int
  | .head c | .forEach c _ | .spinUnlock c _ => some (bucket c.key)
  | .setValue key _ _ | .kmalloc key _ | .hlistAddHead key _ _ | .spinUnlockHit key _ =>
    some (bucket key)
  | _ => none

/-- The node the thread has allocated and not yet put into a chain. -/
def Pc.unlinked : Pc → Option Addr
  | .hlistAddHead _ _ a => some a
  | _ => none

/-- What the operation does to the chains. -/
def Pc.grow : Pc → Chains → Chains
  | .hlistAddHead key _ a, ch => Function.update ch (bucket key) (a :: ch (bucket key))
  | _, ch => ch

/-- No node of the chain has the key. -/
def Absent (node : Addr → Option KvNode) (l : List Addr) (key : Int) : Prop :=
  ∀ a ∈ l, keyOf node a ≠ some key

/-- What a thread has found out at each program counter. -/
def Knows (node : Addr → Option KvNode) (ch : Chains) : Pc → Prop
  | .forEach c pos =>
    ∃ seen rest, ch (bucket c.key) = seen ++ rest ∧ Chain (nextOf node) pos rest ∧
      Absent node seen c.key
  | .setValue key _ p | .spinUnlockHit key p | .loadValue key p =>
    p ∈ ch (bucket key) ∧ keyOf node p = some key
  | .kmalloc key _ => Absent node (ch (bucket key)) key
  | .hlistAddHead key value a =>
    Absent node (ch (bucket key)) key ∧ (∃ nx, node a = some ⟨key, value, nx⟩) ∧ ∀ b, a ∉ ch b
  | _ => True

/-- The lists end, and the nodes of a list have pairwise different keys of its bucket. -/
structure WellFormed (first : Int → Option Addr) (node : Addr → Option KvNode) (ch : Chains) :
    Prop where
  chain : ∀ b, Chain (nextOf node) (first b) (ch b)
  mem_node : ∀ {b a}, a ∈ ch b → ∃ n, node a = some n ∧ bucket n.key = b
  key_inj : ∀ {b a a'}, a ∈ ch b → a' ∈ ch b → keyOf node a = keyOf node a' → a = a'
  nodup : ∀ b, (ch b).Nodup

/-- The invariant of a store and the threads that share it. -/
structure Shape {T : Type} (st : Store T) (pc : T → Pc) (ch : Chains) : Prop where
  wf : WellFormed st.first st.node ch
  held : ∀ b t, st.lock b = some t ↔ (pc t).held = some b
  knows : ∀ t, Knows st.node ch (pc t)
  own : ∀ t u a, (pc t).unlinked = some a → (pc u).unlinked = some a → t = u

/-- The store `init_task_kv_store` leaves, before any call. -/
theorem shape_init (T : Type) : Shape (initTaskKvStore T) (fun _ => .idle) fun _ => [] := by
  refine ⟨⟨fun _ => trivial, by simp, by simp, by simp⟩, ?_, fun _ => trivial, ?_⟩
  · simp [initTaskKvStore, Pc.held]
  · simp [Pc.unlinked]

/-! ## Chains under the three kinds of store

Memory changes in three ways: the value of a node in a chain, a node that is in no chain, and the
head of a chain together with a node that is in none. The first two keep keys and links of all nodes
in the chains (`SameLinks`), and with them everything that is said about the chains. The third adds
one node whose key is new. -/

/-- Only the keys of the nodes in the list matter. -/
theorem Absent.congr {l : List Addr} {key : Int} (h : Absent node l key)
    (hkey : ∀ a ∈ l, keyOf node' a = keyOf node a) : Absent node' l key := by
  intro a ha
  rw [hkey a ha]
  exact h a ha

/-- The nodes of the chains keep their keys and links. -/
def SameLinks (node node' : Addr → Option KvNode) (ch : Chains) : Prop :=
  ∀ b, ∀ a ∈ ch b, ∀ n, node a = some n →
    ∃ n', node' a = some n' ∧ n'.key = n.key ∧ n'.next = n.next

/-- Nodes outside the chains may change at will. -/
theorem sameLinks_of_eq (h : ∀ b, ∀ a ∈ ch b, node' a = node a) : SameLinks node node' ch :=
  fun b a ha n hn => ⟨n, (h b a ha).trans hn, rfl, rfl⟩

/-- The value of a node is neither its key nor its link. -/
theorem sameLinks_setValue {p : Addr} {n : KvNode} (hn : node p = some n) (value : Int) :
    SameLinks node (Function.update node p (some { n with value := value })) ch := by
  intro b a _ k hk
  by_cases ha : a = p
  · subst ha
    rw [hn] at hk
    cases hk
    exact ⟨_, Function.update_self .., rfl, rfl⟩
  · exact ⟨k, by rw [Function.update_of_ne ha, hk], rfl, rfl⟩

/-- A change outside the chains. -/
theorem update_node_of_out {a : Addr} (hout : ∀ b, a ∉ ch b) (o : Option KvNode) :
    ∀ b, ∀ x ∈ ch b, Function.update node a o x = node x := by
  intro b x hx
  refine Function.update_of_ne ?_ _ _
  rintro rfl
  exact hout b hx

/-- A member of the longer chain is the new node or an old one. -/
theorem mem_addHead {b b' : Int} {a x : Addr} (hx : x ∈ Function.update ch b (a :: ch b) b') :
    b' = b ∧ x = a ∨ x ∈ ch b' := by
  by_cases hb : b' = b
  · subst hb
    rw [Function.update_self] at hx
    exact (List.mem_cons.mp hx).imp_left fun hxa => ⟨rfl, hxa⟩
  · rw [Function.update_of_ne hb] at hx
    exact Or.inr hx

/-- Memory that is not in use is in no chain. -/
theorem WellFormed.out_of_fresh {first : Int → Option Addr} (h : WellFormed first node ch)
    {a : Addr} (hfresh : node a = none) (b : Int) : a ∉ ch b := by
  intro ha
  obtain ⟨n, hn, -⟩ := h.mem_node ha
  rw [hfresh] at hn
  cases hn

section

variable {first : Int → Option Addr} (h : WellFormed first node ch)
  (hsame : SameLinks node node' ch)

include h hsame

theorem WellFormed.keyOf_eq {b : Int} {a : Addr} (ha : a ∈ ch b) :
    keyOf node' a = keyOf node a := by
  obtain ⟨n, hn, -⟩ := h.mem_node ha
  obtain ⟨n', hn', hkey, -⟩ := hsame b a ha n hn
  rw [keyOf_of_node hn, keyOf_of_node hn', hkey]

theorem WellFormed.nextOf_eq {b : Int} {a : Addr} (ha : a ∈ ch b) :
    nextOf node' a = nextOf node a := by
  obtain ⟨n, hn, -⟩ := h.mem_node ha
  obtain ⟨n', hn', -, hnext⟩ := hsame b a ha n hn
  rw [nextOf_of_node hn, nextOf_of_node hn', hnext]

/-- Well-formedness depends on keys and links alone. -/
theorem WellFormed.congr : WellFormed first node' ch := by
  refine ⟨?_, ?_, ?_, h.nodup⟩
  · intro b
    exact (h.chain b).congr fun a ha => h.nextOf_eq hsame ha
  · intro b a ha
    obtain ⟨n, hn, hb⟩ := h.mem_node ha
    obtain ⟨n', hn', hkey, -⟩ := hsame b a ha n hn
    exact ⟨n', hn', by rw [hkey, hb]⟩
  · intro b a a' ha ha' heq
    rw [h.keyOf_eq hsame ha, h.keyOf_eq hsame ha'] at heq
    exact h.key_inj ha ha' heq

end

/-- Putting a node with a new key at the head of its bucket's chain keeps the chains well formed. -/
theorem WellFormed.addHead {first : Int → Option Addr} (h : WellFormed first node ch) {a : Addr}
    {n : KvNode} (hout : ∀ b, a ∉ ch b) (habsent : Absent node (ch (bucket n.key)) n.key) :
    WellFormed (Function.update first (bucket n.key) (some a))
      (Function.update node a (some { n with next := first (bucket n.key) }))
      (Function.update ch (bucket n.key) (a :: ch (bucket n.key))) := by
  set node' := Function.update node a (some { n with next := first (bucket n.key) }) with hnode'
  have hself : node' a = some { n with next := first (bucket n.key) } := Function.update_self ..
  have hother : ∀ b, ∀ x ∈ ch b, node' x = node x := update_node_of_out hout _
  have hold : WellFormed first node' ch := h.congr (sameLinks_of_eq hother)
  -- the key of the new node is none of the old ones
  have hnew : keyOf node' a = some n.key := by rw [keyOf_of_node hself]
  have hkeys : ∀ x ∈ ch (bucket n.key), keyOf node' x ≠ keyOf node' a := by
    intro x hx
    rw [hnew, keyOf, hother _ x hx]
    exact habsent x hx
  refine ⟨?_, ?_, ?_, ?_⟩
  -- the list of the bucket is longer by one, the others are unchanged
  · intro b
    by_cases hb : b = bucket n.key
    · subst hb
      rw [Function.update_self, Function.update_self]
      refine ⟨rfl, ?_⟩
      rw [nextOf_of_node hself]
      exact hold.chain _
    · rw [Function.update_of_ne hb, Function.update_of_ne hb]
      exact hold.chain b
  -- the new node has a key of this bucket
  · intro b x hx
    rcases mem_addHead hx with ⟨rfl, rfl⟩ | hx
    · exact ⟨_, hself, rfl⟩
    · exact hold.mem_node hx
  · intro b x y hx hy heq
    -- only the new node's own chain has a new pair of nodes to compare
    by_cases hb : b = bucket n.key
    · subst hb
      rw [Function.update_self] at hx hy
      rcases List.mem_cons.mp hx with hxa | hx <;> rcases List.mem_cons.mp hy with hya | hy
      · rw [hxa, hya]
      · exact absurd (hxa ▸ heq).symm (hkeys y hy)
      · exact absurd (hya ▸ heq) (hkeys x hx)
      · exact hold.key_inj hx hy heq
    · rw [Function.update_of_ne hb] at hx hy
      exact hold.key_inj hx hy heq
  -- it was in no chain before
  · intro b
    by_cases hb : b = bucket n.key
    · subst hb
      rw [Function.update_self]
      exact List.nodup_cons.mpr ⟨hout _, h.nodup _⟩
    · rw [Function.update_of_ne hb]
      exact h.nodup b

/-! ## What a thread knows survives the steps of the others

A thread relies on what it has found in memory that others write to as well. `Knows.frame` says
which changes do no harm. That the others make no different ones is due to the locks: the chain a
thread walks does not grow while it holds the lock, and after it has released it, it only needs that
the node it has found is still there. -/

/-- The node a thread looks at in its walk is in the chain. -/
theorem Knows.mem_of_pos {c : Call} {p : Addr} (h : Knows node ch (.forEach c (some p))) :
    p ∈ ch (bucket c.key) := by
  obtain ⟨seen, rest, hch, hchain, -⟩ := h
  obtain ⟨rest, rfl, -⟩ := hchain.eq_cons
  rw [hch]
  simp

/-- A node the thread has not linked yet is allocated and in no chain. -/
theorem Knows.of_unlinked {pc : Pc} {a : Addr} (h : Knows node ch pc) (ha : pc.unlinked = some a) :
    node a ≠ none ∧ ∀ b, a ∉ ch b := by
  cases pc with
  | hlistAddHead key value x =>
    cases ha
    obtain ⟨-, ⟨nx, hnode⟩, hout⟩ := h
    exact ⟨by simp [hnode], hout⟩
  | _ => cases ha

/-- A thread keeps what it knows if the chains keep their nodes, keys and links, if the chain it has
locked does not grow, and if the node it has not linked yet is left alone. -/
theorem Knows.frame {first : Int → Option Addr} {pc : Pc} (h : Knows node ch pc)
    (hwf : WellFormed first node ch) (hsame : SameLinks node node' ch)
    (hsub : ∀ b, ∀ a ∈ ch b, a ∈ ch' b) (hheld : ∀ b, pc.held = some b → ch' b = ch b)
    (hown : ∀ a, pc.unlinked = some a → node' a = node a ∧ ∀ b, a ∉ ch' b) :
    Knows node' ch' pc := by
  cases pc with
  -- what has been walked and what is left are parts of a chain that is locked
  | forEach c pos =>
    obtain ⟨seen, rest, hch, hchain, habsent⟩ := h
    have hmem : ∀ a ∈ seen ++ rest, a ∈ ch (bucket c.key) := fun a ha => hch ▸ ha
    refine ⟨seen, rest, (hheld _ rfl).trans hch, ?_, ?_⟩
    · exact hchain.congr fun a ha => hwf.nextOf_eq hsame (hmem a (List.mem_append_right _ ha))
    · exact habsent.congr fun a ha => hwf.keyOf_eq hsame (hmem a (List.mem_append_left _ ha))
  -- the node is still in the chain, and keys do not change
  | setValue key value p => exact ⟨hsub _ p h.1, (hwf.keyOf_eq hsame h.1).trans h.2⟩
  | spinUnlockHit key p => exact ⟨hsub _ p h.1, (hwf.keyOf_eq hsame h.1).trans h.2⟩
  | loadValue key p => exact ⟨hsub _ p h.1, (hwf.keyOf_eq hsame h.1).trans h.2⟩
  | kmalloc key value =>
    simp only [Knows, hheld _ rfl]
    exact Absent.congr h fun a ha => hwf.keyOf_eq hsame ha
  -- the node is this thread's own
  | hlistAddHead key value a =>
    obtain ⟨habsent, ⟨nx, hnode⟩, hout⟩ := h
    obtain ⟨heq, hout'⟩ := hown a rfl
    refine ⟨?_, ⟨nx, heq.trans hnode⟩, hout'⟩
    rw [hheld _ rfl]
    exact habsent.congr fun x hx => hwf.keyOf_eq hsame hx
  | _ => trivial

section

variable {T : Type} [DecidableEq T] {st st' : Store T} {pc : T → Pc} {t : T} {pc' : Pc}

omit [DecidableEq T] in
/-- Two threads are never in the critical section of one bucket. -/
theorem Shape.held_inj (h : Shape st pc ch) {u : T} {b : Int} (ht : (pc t).held = some b)
    (hu : (pc u).held = some b) : u = t := by
  have hlock := (h.held b t).mpr ht
  rw [(h.held b u).mpr hu] at hlock
  exact Option.some.inj hlock

/-- Thread `t` moves to `pc'` in a new store: what is to be shown. -/
theorem Shape.move (h : Shape st pc ch) (hwf : WellFormed st'.first st'.node ch')
    (hheld : ∀ b u, st'.lock b = some u ↔ (Function.update pc t pc' u).held = some b)
    (hself : Knows st'.node ch' pc') (hothers : ∀ u, u ≠ t → Knows st'.node ch' (pc u))
    (hown : ∀ u, u ≠ t → ∀ a, pc'.unlinked = some a → (pc u).unlinked ≠ some a) :
    Shape st' (Function.update pc t pc') ch' := by
  refine ⟨hwf, hheld, ?_, ?_⟩
  · exact (Function.forall_update_iff pc fun _ p => Knows st'.node ch' p).mpr ⟨hself, hothers⟩
  · intro u w a hua hwa
    -- only the new pair, of `t` and another thread, is not covered by what held before
    by_cases hu : u = t
    · by_cases hw : w = t
      · rw [hu, hw]
      · rw [hu, Function.update_self] at hua
        rw [Function.update_of_ne hw] at hwa
        exact absurd hwa (hown w hw a hua)
    · rw [Function.update_of_ne hu] at hua
      by_cases hw : w = t
      · rw [hw, Function.update_self] at hwa
        exact absurd hua (hown u hu a hwa)
      · rw [Function.update_of_ne hw] at hwa
        exact h.own u w a hua hwa

/-- The locks fit if none changes and the thread stays in the critical section it is in. -/
theorem Shape.held_same (h : Shape st pc ch) (hheld : pc'.held = (pc t).held) (b : Int) (u : T) :
    st.lock b = some u ↔ (Function.update pc t pc' u).held = some b := by
  rw [h.held b u]
  by_cases hu : u = t
  · rw [hu, Function.update_self, hheld]
  · rw [Function.update_of_ne hu]

/-- The locks fit if the thread changes one lock and has nothing to do with the others. -/
theorem Shape.held_setLock (h : Shape st pc ch) {b₀ : Int} {l : Option T}
    (hbefore : ∀ b, b ≠ b₀ → (pc t).held ≠ some b) (hafter : ∀ b, b ≠ b₀ → pc'.held ≠ some b)
    (hself : l = some t ↔ pc'.held = some b₀)
    (hother : ∀ u, u ≠ t → (l = some u ↔ (pc u).held = some b₀)) (b : Int) (u : T) :
    (st.setLock b₀ l).lock b = some u ↔ (Function.update pc t pc' u).held = some b := by
  simp only [Store.setLock]
  by_cases hb : b = b₀
  · rw [hb, Function.update_self]
    by_cases hu : u = t
    · rw [hu, Function.update_self]
      exact hself
    · rw [Function.update_of_ne hu]
      exact hother u hu
  · rw [Function.update_of_ne hb, h.held b u]
    by_cases hu : u = t
    · rw [hu, Function.update_self]
      exact iff_of_false (hbefore b hb) (hafter b hb)
    · rw [Function.update_of_ne hu]

/-- The locks fit if the thread enters the critical section whose free lock it takes. -/
theorem Shape.held_acquire (h : Shape st pc ch) {b₀ : Int} (hfree : st.lock b₀ = none)
    (hbefore : (pc t).held = none) (hafter : pc'.held = some b₀) :
    ∀ b u, (st.setLock b₀ (some t)).lock b = some u ↔
      (Function.update pc t pc' u).held = some b := by
  refine h.held_setLock ?_ ?_ ?_ ?_
  · simp [hbefore]
  · intro b hb
    simpa [hafter] using Ne.symm hb
  · simp [hafter]
  · intro u hu
    rw [← h.held b₀ u, hfree]
    simp [Ne.symm hu]

/-- The locks fit if the thread leaves the critical section whose lock it releases. -/
theorem Shape.held_release (h : Shape st pc ch) {b₀ : Int} (hbefore : (pc t).held = some b₀)
    (hafter : pc'.held = none) :
    ∀ b u, (st.setLock b₀ none).lock b = some u ↔ (Function.update pc t pc' u).held = some b := by
  refine h.held_setLock ?_ ?_ ?_ ?_
  · intro b hb
    simpa [hbefore] using Ne.symm hb
  · simp [hafter]
  · simp [hafter]
  · intro u hu
    simp only [reduceCtorEq, false_iff]
    exact fun hheld => hu (h.held_inj hbefore hheld)

/-- An operation that changes no memory. -/
theorem Shape.stay (h : Shape st pc ch) (hheld : pc'.held = (pc t).held)
    (hlinked : pc'.unlinked = none) (hself : Knows st.node ch pc') :
    Shape st (Function.update pc t pc') ch :=
  h.move h.wf (h.held_same hheld) hself (fun u _ => h.knows u) (by simp [hlinked])

/-- `node->value = value` on a node of a chain. -/
theorem Shape.setValue (h : Shape st pc ch) {key value : Int} {p : Addr} {n : KvNode}
    (hpc : pc t = .setValue key value p) (hnode : st.node p = some n) :
    Shape (st.setNode p { n with value := value })
      (Function.update pc t (.spinUnlock (.writeKv key value) 0)) ch := by
  have hmem : p ∈ ch (bucket key) := by
    have hknows := h.knows t
    rw [hpc] at hknows
    exact hknows.1
  have hsame : SameLinks st.node (st.setNode p { n with value := value }).node ch :=
    sameLinks_setValue hnode value
  refine h.move (h.wf.congr hsame) (h.held_same (by rw [hpc]; rfl)) trivial ?_
    (by simp [Pc.unlinked])
  intro u _
  refine (h.knows u).frame h.wf hsame (fun _ _ ha => ha) (fun _ _ => rfl) fun a ha => ?_
  -- a node nobody has linked yet is not the one found in the chain
  have hout := ((h.knows u).of_unlinked ha).2
  refine ⟨Function.update_of_ne ?_ _ _, hout⟩
  rintro rfl
  exact hout _ hmem

/-- kmalloc and the initialisation of the new node. -/
theorem Shape.alloc (h : Shape st pc ch) {key value : Int} {a : Addr}
    (hpc : pc t = .kmalloc key value) (hfresh : st.node a = none) :
    Shape (st.setNode a ⟨key, value, none⟩) (Function.update pc t (.hlistAddHead key value a))
      ch := by
  have hout : ∀ b, a ∉ ch b := h.wf.out_of_fresh hfresh
  have hsame : SameLinks st.node (st.setNode a ⟨key, value, none⟩).node ch :=
    sameLinks_of_eq (update_node_of_out hout _)
  have hne : ∀ u x, (pc u).unlinked = some x → x ≠ a := by
    rintro u x hx rfl
    exact ((h.knows u).of_unlinked hx).1 hfresh
  refine h.move (h.wf.congr hsame) (h.held_same (by rw [hpc]; rfl)) ?_ ?_ ?_
  -- the thread now has a node of its own, beside what it knew about the chain
  · have hknows := h.knows t
    rw [hpc] at hknows
    refine ⟨?_, ⟨none, Function.update_self ..⟩, hout⟩
    exact Absent.congr hknows fun x hx => h.wf.keyOf_eq hsame hx
  · intro u _
    refine (h.knows u).frame h.wf hsame (fun _ _ hx => hx) (fun _ _ => rfl) fun x hx => ?_
    exact ⟨Function.update_of_ne (hne u x hx) _ _, ((h.knows u).of_unlinked hx).2⟩
  · rintro u - x ⟨⟩ hx
    exact hne u a hx rfl

/-- `hlist_add_head` of the new node. -/
theorem Shape.addHead (h : Shape st pc ch) {key value : Int} {a : Addr} {n : KvNode}
    (hpc : pc t = .hlistAddHead key value a) (hnode : st.node a = some n) :
    Shape (st.addHead (bucket key) a n)
      (Function.update pc t (.spinUnlock (.writeKv key value) 0))
      (Function.update ch (bucket key) (a :: ch (bucket key))) := by
  have hknows := h.knows t
  rw [hpc] at hknows
  obtain ⟨habsent, ⟨nx, hnew⟩, hout⟩ := hknows
  obtain rfl : n = ⟨key, value, nx⟩ := by
    rw [hnode] at hnew
    exact Option.some.inj hnew
  have hsame : SameLinks st.node (st.addHead (bucket key) a ⟨key, value, nx⟩).node ch :=
    sameLinks_of_eq (update_node_of_out hout _)
  refine h.move (h.wf.addHead (n := ⟨key, value, nx⟩) hout habsent)
    (h.held_same (by rw [hpc]; rfl)) trivial ?_ (by simp [Pc.unlinked])
  intro u hu
  refine (h.knows u).frame h.wf hsame ?_ ?_ ?_
  -- no node leaves its chain
  · intro b x hx
    by_cases hb : b = bucket key
    · subst hb
      rw [Function.update_self]
      exact List.mem_cons_of_mem _ hx
    · rwa [Function.update_of_ne hb]
  · intro b hb
    -- `u` holds the lock of a bucket, so it is not the one `t` holds
    refine Function.update_of_ne ?_ _ _
    rintro rfl
    exact hu (h.held_inj (by rw [hpc]; rfl) hb)
  -- each thread links its own node
  · intro x hx
    have hxa : x ≠ a := by
      rintro rfl
      exact hu (h.own u t x hx (by rw [hpc]; rfl))
    refine ⟨Function.update_of_ne hxa _ _, fun b hb => ?_⟩
    have hxout := ((h.knows u).of_unlinked hx).2
    rcases mem_addHead hb with ⟨-, hb⟩ | hb
    · exact hxa hb
    · exact hxout b hb

/-- A change of the locks alone. -/
theorem Shape.relock (h : Shape st pc ch) {b₀ : Int} {holder : Option T}
    (hheld : ∀ b u, (st.setLock b₀ holder).lock b = some u ↔
      (Function.update pc t pc' u).held = some b)
    (hlinked : pc'.unlinked = none) (hself : Knows st.node ch pc') :
    Shape (st.setLock b₀ holder) (Function.update pc t pc') ch :=
  h.move h.wf hheld hself (fun u _ => h.knows u) (by simp [hlinked])

/-- **The chains stay well formed.** One operation of one thread keeps the invariant, with the
chains it leaves. -/
theorem Shape.step (h : Shape st pc ch) (hmove : Move t st (pc t) pc' st') :
    Shape st' (Function.update pc t pc') ((pc t).grow ch) := by
  have hknows := h.knows t
  generalize hpc : pc t = p at hmove hknows
  cases hmove with
  | acquire c hfree =>
    exact h.relock (h.held_acquire hfree (by rw [hpc]; rfl) rfl) rfl trivial
  | enter c =>
    exact h.stay (by rw [hpc]; rfl) rfl ⟨[], ch _, rfl, h.wf.chain _, by simp [Absent]⟩
  | next c p n hnode hkey =>
    -- one node further without a hit
    obtain ⟨seen, rest, hch, hchain, habsent⟩ := hknows
    obtain ⟨rest, rfl, htail⟩ := hchain.eq_cons
    rw [nextOf_of_node hnode] at htail
    refine h.stay (by rw [hpc]; rfl) rfl ⟨seen ++ [p], rest, by simp [hch], htail, ?_⟩
    intro a ha
    rcases List.mem_append.mp ha with ha | ha
    · exact habsent a ha
    · rw [List.mem_singleton.mp ha, keyOf_of_node hnode]
      simpa using hkey
  | hitWrite key value p n hnode hkey =>
    exact h.stay (by rw [hpc]; rfl) rfl ⟨Knows.mem_of_pos hknows, by rw [keyOf_of_node hnode, hkey]⟩
  | hitRead key p n hnode hkey =>
    exact h.stay (by rw [hpc]; rfl) rfl ⟨Knows.mem_of_pos hknows, by rw [keyOf_of_node hnode, hkey]⟩
  | missWrite key value =>
    -- the end of the chain: all of it has been seen
    obtain ⟨seen, rest, hch, hchain, habsent⟩ := hknows
    rw [hchain.eq_nil, List.append_nil] at hch
    refine h.stay (by rw [hpc]; rfl) rfl ?_
    rw [Knows, show ch (bucket key) = seen from hch]
    exact habsent
  | missRead key => exact h.stay (by rw [hpc]; rfl) rfl trivial
  | setValue key value p n hnode => exact h.setValue hpc hnode
  | nomem key value => exact h.stay (by rw [hpc]; rfl) rfl trivial
  | alloc key value a hfresh => exact h.alloc hpc hfresh
  | addHead key value a n hnode => exact h.addHead hpc hnode
  | release c r => exact h.relock (h.held_release (by rw [hpc]; rfl) rfl) rfl trivial
  | releaseHit key p => exact h.relock (h.held_release (by rw [hpc]; rfl) rfl) rfl hknows
  | loadValue key p n hnode => exact h.stay (by rw [hpc]; rfl) rfl trivial

end

end OsHomework.KvStore
