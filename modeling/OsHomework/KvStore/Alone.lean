import OsHomework.KvStore.Linearize
import OsHomework.Lib.Table

/-!
# KvStore — a call that runs alone

`Pc.runTo` runs the operations of one call to its return, with nobody else in between. `Leads` is
the same without the fuel, one operation after the other.

* **`leads_locked`** — lock and walk: the call stops at the node with its key or has seen that there
  is none.
* **`call_alone`** — what the call returns, and what it does to its store and to the rest of the
  memory.
* **`Stores.called`** — a call on one of several stores keeps them apart.
-/

namespace OsHomework.KvStore

open LinkedList Table

/-! ## Running a call to its return

The length of the walk depends on the store, so the function has fuel. `Leads` does away with it:
the rest of the run is the same whatever fuel is left. Runs are put together from pieces this way,
and at the end some amount of fuel is enough. -/

variable {T : Type}

/-- The operations of a call, at most `fuel` of them, until it returns. -/
def Pc.runTo (t : T) (mem : Option Addr) : Nat → Pc → Store T → Option (Int × Store T)
  | 0, _, _ => none
  | fuel + 1, pc, st =>
    match pc with
    | .ret r => some (r, st)
    | pc =>
      match pc.step t mem st with
      | none => none
      | some (pc', st') => runTo t mem fuel pc' st'

variable {t : T} {mem : Option Addr} {pc pc' pc'' : Pc} {st st' st'' : Store T}

/-- One operation takes one unit of fuel. -/
theorem Pc.runTo_succ {fuel : Nat} (h : pc.step t mem st = some (pc', st')) :
    pc.runTo t mem (fuel + 1) st = pc'.runTo t mem fuel st' := by
  cases pc with
  | ret r => cases h
  | _ => simp only [Pc.runTo, h]

/-- More fuel changes nothing. -/
theorem Pc.runTo_add {fuel : Nat} {x : Int × Store T} (h : pc.runTo t mem fuel st = some x)
    (k : Nat) : pc.runTo t mem (fuel + k) st = some x := by
  induction fuel generalizing pc st with
  | zero => cases h
  | succ fuel ih =>
    rw [Nat.add_right_comm]
    cases hstep : pc.step t mem st with
    | some r =>
      -- the call goes on, with one unit of fuel less in both
      obtain ⟨pc', st'⟩ := r
      rw [Pc.runTo_succ hstep] at h ⊢
      exact ih h
    | none =>
      -- a return, or the call is stuck and has no result
      cases pc with
      | ret r => exact h
      | _ =>
        simp only [Pc.runTo, hstep] at h
        cases h

/-- The operations lead from one program counter and store to another. -/
def Leads (t : T) (mem : Option Addr) (pc : Pc) (st : Store T) (pc' : Pc) (st' : Store T) : Prop :=
  ∃ n, ∀ fuel, pc.runTo t mem (fuel + n) st = pc'.runTo t mem fuel st'

theorem Leads.refl : Leads t mem pc st pc st := ⟨0, fun _ => rfl⟩

theorem Leads.head (h : pc.step t mem st = some (pc', st'))
    (hrest : Leads t mem pc' st' pc'' st'') : Leads t mem pc st pc'' st'' := by
  obtain ⟨n, hn⟩ := hrest
  refine ⟨n + 1, fun fuel => ?_⟩
  rw [← Nat.add_assoc, Pc.runTo_succ h, hn]

theorem Leads.trans (h : Leads t mem pc st pc' st') (hrest : Leads t mem pc' st' pc'' st'') :
    Leads t mem pc st pc'' st'' := by
  obtain ⟨n, hn⟩ := h
  obtain ⟨k, hk⟩ := hrest
  refine ⟨k + n, fun fuel => ?_⟩
  rw [← Nat.add_assoc, hn, hk]

theorem Leads.runTo_eq {r : Int} (h : Leads t mem pc st (.ret r) st') :
    ∃ fuel, pc.runTo t mem fuel st = some (r, st') := by
  obtain ⟨n, hn⟩ := h
  exact ⟨1 + n, hn 1⟩

/-- A call that returns returns what it leads to, whatever the fuel. -/
theorem Leads.unique {r : Int} {fuel : Nat} {x : Int × Store T}
    (h : Leads t mem pc st (.ret r) st') (hx : pc.runTo t mem fuel st = some x) : x = (r, st') := by
  obtain ⟨n, hn⟩ := h.runTo_eq
  have heq := Pc.runTo_add hx n
  rw [Nat.add_comm, Pc.runTo_add hn fuel] at heq
  exact (Option.some.inj heq).symm

/-- Where the walk goes on a hit. -/
def Call.hit (p : Addr) : Call → Pc
  | .writeKv key value => .setValue key value p
  | .readKv key => .spinUnlockHit key p

/-- Where the walk goes at the end of the list. -/
def Call.miss : Call → Pc
  | .writeKv key value => .kmalloc key value
  | .readKv key => .spinUnlock (.readKv key) (-1)

/-- The walk stops at a node with the key, or has seen that there is none. -/
theorem leads_walk (t : T) (mem : Option Addr) (st : Store T) (c : Call) {pos : Option Addr}
    {l : List Addr} (hchain : Chain (nextOf st.node) pos l)
    (hnodes : ∀ a ∈ l, ∃ n, st.node a = some n) :
    (∃ p ∈ l, keyOf st.node p = some c.key ∧ Leads t mem (.forEach c pos) st (c.hit p) st) ∨
      (Absent st.node l c.key ∧ Leads t mem (.forEach c pos) st c.miss st) := by
  induction l generalizing pos with
  | nil =>
    obtain rfl := chain_nil.mp hchain
    refine Or.inr ⟨fun a ha => absurd ha List.not_mem_nil, ?_⟩
    cases c <;> exact .head rfl .refl
  | cons a l ih =>
    obtain ⟨rfl, hrest⟩ := chain_cons.mp hchain
    obtain ⟨n, hn⟩ := hnodes a (by simp)
    -- the walk stops here or goes on with the rest of the chain
    by_cases hkey : n.key = c.key
    · refine Or.inl ⟨a, by simp, by rw [keyOf_of_node hn, hkey], .head ?_ .refl⟩
      cases c <;> simp [Pc.step, hn, hkey, Call.hit]
    · have hstep : (Pc.forEach c (some a)).step t mem st = some (.forEach c n.next, st) := by
        simp [Pc.step, hn, hkey]
      rw [nextOf_of_node hn] at hrest
      rcases ih hrest fun x hx => hnodes x (by simp [hx]) with
        ⟨p, hp, hpkey, hleads⟩ | ⟨habsent, hleads⟩
      · exact Or.inl ⟨p, by simp [hp], hpkey, .head hstep hleads⟩
      · refine Or.inr ⟨fun x hx => ?_, .head hstep hleads⟩
        rcases List.mem_cons.mp hx with rfl | hx
        · rw [keyOf_of_node hn]
          exact fun heq => hkey (Option.some.inj heq)
        · exact habsent x hx

/-! ## What the call does

Three ways through the code end in a return: the key has a node, it has none and the call is a read,
or it has none and a node is put at the head of its list. `Called` says what all of them have in
common: the answer is that of a map, and in memory nothing changes but a node of the own chains or
one that was not in use. -/

/-- What a call answers to the map. -/
def Call.answer (m : Int → Option Int) : Call → Int
  | .writeKv _ _ => 0
  | .readKv key => (m key).getD (-1)

/-- What a call has done to its own chains, which held the map `m`, and to the rest of the
memory. -/
structure Called (c : Call) (m : Int → Option Int) (ch : Chains) (st st' : Store T) (ch' : Chains) :
    Prop where
  wf : WellFormed st'.first st'.node ch'
  represents : Represents st'.node ch' (effect m (c, c.answer m))
  lock_eq : st'.lock = st.lock
  others : ∀ a, st.node a ≠ none → (∀ b, a ∉ ch b) → st'.node a = st.node a
  grown : ∀ b, ∀ a ∈ ch' b, a ∈ ch b ∨ st.node a = none
  kept : ∀ b, ∀ a ∈ ch b, a ∈ ch' b
  elsewhere : ∀ b, b ≠ bucket c.key → ch' b = ch b
  placed : ∀ a, st'.node a ≠ none → st.node a ≠ none ∨ a ∈ ch' (bucket c.key)

/-- Taking a free lock and giving it back. -/
theorem setLock_setLock (b : Int) (holder : Option T) (hfree : st.lock b = none) :
    (st.setLock b holder).setLock b none = st := by
  simp only [Store.setLock, Function.update_idem, ← hfree, Function.update_eq_self]

variable {ch : Chains} {m : Int → Option Int}

/-- The walk of a call that has just taken its lock. -/
theorem leads_locked (t : T) (mem : Option Addr) (c : Call) (hfree : st.lock (bucket c.key) = none)
    (hwf : WellFormed st.first st.node ch) :
    (∃ p ∈ ch (bucket c.key), keyOf st.node p = some c.key ∧
        Leads t mem (.spinLock c) st (c.hit p) (st.setLock (bucket c.key) (some t))) ∨
      (Absent st.node (ch (bucket c.key)) c.key ∧
        Leads t mem (.spinLock c) st c.miss (st.setLock (bucket c.key) (some t))) := by
  have hlock : (Pc.spinLock c).step t mem st =
      some (.head c, st.setLock (bucket c.key) (some t)) := by simp [Pc.step, hfree]
  have hnodes : ∀ a ∈ ch (bucket c.key), ∃ n, st.node a = some n := by
    intro a ha
    obtain ⟨n, hn, -⟩ := hwf.mem_node ha
    exact ⟨n, hn⟩
  rcases leads_walk t mem (st.setLock (bucket c.key) (some t)) c (hwf.chain _) hnodes with
    ⟨p, hp, hkey, hleads⟩ | ⟨habsent, hleads⟩
  · exact Or.inl ⟨p, hp, hkey, .head hlock (.head rfl hleads)⟩
  · exact Or.inr ⟨habsent, .head hlock (.head rfl hleads)⟩

/-- `read_kv` has found the node: unlock, then load. -/
theorem leads_read_hit {key : Int} {p : Addr} {n : KvNode} (hfree : st.lock (bucket key) = none)
    (hn : st.node p = some n) :
    Leads t mem (.spinUnlockHit key p) (st.setLock (bucket key) (some t)) (.ret n.value) st := by
  have hunlock : (Pc.spinUnlockHit key p).step t mem (st.setLock (bucket key) (some t)) =
      some (.loadValue key p, st) := by
    simp only [Pc.step, setLock_setLock _ _ hfree]
  have hload : (Pc.loadValue key p).step t mem st = some (.ret n.value, st) := by
    simp [Pc.step, hn]
  exact .head hunlock (.head hload .refl)

/-- The unlock at the end of a call. -/
theorem leads_unlock {c : Call} {r : Int} (hfree : st.lock (bucket c.key) = none) :
    Leads t mem (.spinUnlock c r) (st.setLock (bucket c.key) (some t)) (.ret r) st := by
  have hunlock : (Pc.spinUnlock c r).step t mem (st.setLock (bucket c.key) (some t)) =
      some (.ret r, st) := by
    simp only [Pc.step, setLock_setLock _ _ hfree]
  exact .head hunlock .refl

/-- `write_kv` has found the node: store the value, then unlock. -/
theorem leads_write_hit {key value : Int} {p : Addr} {n : KvNode}
    (hfree : st.lock (bucket key) = none) (hn : st.node p = some n) :
    Leads t mem (.setValue key value p) (st.setLock (bucket key) (some t)) (.ret 0)
      (st.setNode p { n with value := value }) := by
  have hstore : (Pc.setValue key value p).step t mem (st.setLock (bucket key) (some t)) =
      some (.spinUnlock (.writeKv key value) 0,
        (st.setNode p { n with value := value }).setLock (bucket key) (some t)) := by
    simp only [Pc.step, Store.setLock, hn]
    rfl
  exact .head hstore (leads_unlock hfree)

/-- `write_kv` has found no node: allocate one, put it at the head, then unlock. -/
theorem leads_write_miss {key value : Int} {a : Addr} (hfree : st.lock (bucket key) = none)
    (hmem : st.node a = none) :
    Leads t (some a) (.kmalloc key value) (st.setLock (bucket key) (some t)) (.ret 0)
      (st.addHead (bucket key) a ⟨key, value, none⟩) := by
  have halloc : (Pc.kmalloc key value).step t (some a) (st.setLock (bucket key) (some t)) =
      some (.hlistAddHead key value a,
        (st.setNode a ⟨key, value, none⟩).setLock (bucket key) (some t)) := by
    simp only [Pc.step, Store.setLock, hmem, if_true]
    rfl
  have hlink : (Pc.hlistAddHead key value a).step t (some a)
      ((st.setNode a ⟨key, value, none⟩).setLock (bucket key) (some t)) =
        some (.spinUnlock (.writeKv key value) 0,
          (st.addHead (bucket key) a ⟨key, value, none⟩).setLock (bucket key) (some t)) := by
    simp [Pc.step, Store.setLock, Store.setNode, Store.addHead]
  exact .head halloc (.head hlink (leads_unlock hfree))

/-- A call that needs no memory, whatever kmalloc would return: a read, or a write of a key that has
a node. Any other call gets as far as its kmalloc. -/
theorem call_or_kmalloc (t : T) (mem : Option Addr) (c : Call)
    (hfree : st.lock (bucket c.key) = none) (hwf : WellFormed st.first st.node ch)
    (hrep : Represents st.node ch m) :
    (∃ st', Leads t mem (.spinLock c) st (.ret (c.answer m)) st' ∧ Called c m ch st st' ch) ∨
      ∃ key value, c = .writeKv key value ∧ Absent st.node (ch (bucket key)) key ∧
        Leads t mem (.spinLock c) st (.kmalloc key value)
          (st.setLock (bucket key) (some t)) := by
  have hread : ∀ key, Called (.readKv key) m ch st st ch := fun key =>
    ⟨hwf, hrep, rfl, fun _ _ _ => rfl, fun _ _ ha => Or.inl ha, fun _ _ ha => ha, fun _ _ => rfl,
      fun _ ha => Or.inl ha⟩
  rcases leads_locked t mem c hfree hwf with ⟨p, hp, hkey, hleads⟩ | ⟨habsent, hleads⟩
  -- a hit
  · obtain ⟨n, hn, -⟩ := hwf.mem_node hp
    left
    cases c with
    | readKv key =>
      have hsome : m key = some n.value := hrep.eq_some hp hn hkey
      have hanswer : (Call.readKv key).answer m = n.value := by
        rw [Call.answer, hsome, Option.getD_some]
      rw [hanswer]
      exact ⟨st, hleads.trans (leads_read_hit hfree hn), hread key⟩
    | writeKv key value =>
      rw [keyOf_of_node hn] at hkey
      refine ⟨st.setNode p { n with value := value }, hleads.trans (leads_write_hit hfree hn), ?_⟩
      refine ⟨hwf.congr (sameLinks_setValue hn value), ?_, rfl, ?_, fun _ _ hx => Or.inl hx,
        fun _ _ hx => hx, fun _ _ => rfl, ?_⟩
      -- the node has another value now, and it is the one of the key
      · exact hrep.setValue hwf hp hn (Option.some.inj hkey) value
      · intro x _ hx
        refine Function.update_of_ne ?_ _ _
        rintro rfl
        exact hx _ hp
      · intro x hx
        left
        by_cases hxp : x = p
        · rw [hxp, hn]
          simp
        · have hsame : (st.setNode p { n with value := value }).node x = st.node x :=
            Function.update_of_ne hxp _ _
          rwa [hsame] at hx
  -- no node has the key
  · cases c with
    | readKv key =>
      left
      have hnone : m key = none := hrep.eq_none habsent
      have hanswer : (Call.readKv key).answer m = -1 := by
        rw [Call.answer, hnone, Option.getD_none]
      rw [hanswer]
      exact ⟨st, hleads.trans (leads_unlock hfree), hread key⟩
    | writeKv key value => exact Or.inr ⟨key, value, rfl, habsent, hleads⟩

/-- **A call that runs alone.** On a well-formed store whose lock is free and that holds the map
`m`, the call returns what the map answers and leaves the map it makes; nodes outside the chains of
this store are left alone, and the chains grow by fresh nodes only. -/
theorem call_alone (t : T) (c : Call) {a : Addr} (hmem : st.node a = none)
    (hfree : st.lock (bucket c.key) = none) (hwf : WellFormed st.first st.node ch)
    (hrep : Represents st.node ch m) :
    ∃ st' ch', Leads t (some a) (.spinLock c) st (.ret (c.answer m)) st' ∧
      Called c m ch st st' ch' := by
  rcases call_or_kmalloc t (some a) c hfree hwf hrep with
    ⟨st', hleads, hcalled⟩ | ⟨key, value, rfl, habsent, hleads⟩
  · exact ⟨st', ch, hleads, hcalled⟩
  · have hout : ∀ b, a ∉ ch b := hwf.out_of_fresh hmem
    refine ⟨_, Function.update ch (bucket key) (a :: ch (bucket key)),
      hleads.trans (leads_write_miss hfree hmem), ?_⟩
    -- the only node that changes is one that was not in use
    refine ⟨hwf.addHead (n := ⟨key, value, none⟩) hout habsent, ?_, rfl, ?_, ?_, ?_, ?_, ?_⟩
    · exact hrep.addHead (n := ⟨key, value, st.first (bucket key)⟩) hout habsent rfl rfl
    · intro x hx _
      refine Function.update_of_ne ?_ _ _
      rintro rfl
      exact hx hmem
    · intro b x hx
      rcases mem_addHead hx with ⟨-, rfl⟩ | hx
      · exact Or.inr hmem
      · exact Or.inl hx
    · intro b x hx
      by_cases hb : b = bucket key
      · subst hb
        rw [Function.update_self]
        exact List.mem_cons_of_mem a hx
      · rwa [Function.update_of_ne hb]
    · exact fun b hb => Function.update_of_ne hb _ _
    · intro x hx
      by_cases hxa : x = a
      · right
        rw [hxa]
        show a ∈ Function.update ch (bucket key) (a :: ch (bucket key)) (bucket key)
        rw [Function.update_self]
        exact List.mem_cons_self
      · left
        have hsame : (st.addHead (bucket key) a ⟨key, value, none⟩).node x = st.node x :=
          Function.update_of_ne hxa _ _
        rwa [hsame] at hx

/-- A call whose kmalloc fails returns what it would have returned without one, or is a write that
returns -1 and leaves the store as it was. -/
theorem call_no_memory (t : T) (c : Call) (hfree : st.lock (bucket c.key) = none)
    (hwf : WellFormed st.first st.node ch) (hrep : Represents st.node ch m) :
    (∃ st', Leads t none (.spinLock c) st (.ret (c.answer m)) st' ∧ Called c m ch st st' ch) ∨
      ∃ key value, c = .writeKv key value ∧ Leads t none (.spinLock c) st (.ret (-1)) st := by
  rcases call_or_kmalloc t none c hfree hwf hrep with hdone | ⟨key, value, rfl, -, hleads⟩
  · exact Or.inl hdone
  · have hrefused : Leads t none (.kmalloc key value) (st.setLock (bucket key) (some t))
        (.ret (-1)) st := .head rfl (leads_unlock (c := .writeKv key value) hfree)
    exact Or.inr ⟨key, value, rfl, hleads.trans hrefused⟩

/-- Whatever its kmalloc returns, a call that runs alone returns: with the map's answer, or as a
write that has got no memory and changed nothing. -/
theorem call_leads (t : T) (c : Call) {mem : Option Addr} (hmem : ∀ a ∈ mem, st.node a = none)
    (hfree : st.lock (bucket c.key) = none) (hwf : WellFormed st.first st.node ch)
    (hrep : Represents st.node ch m) :
    ∃ r st', Leads t mem (.spinLock c) st (.ret r) st' ∧
      ((∃ ch', r = c.answer m ∧ Called c m ch st st' ch') ∨
        (∃ key value, c = .writeKv key value) ∧ r = -1 ∧ st' = st) := by
  cases mem with
  | some a =>
    obtain ⟨st', ch', hleads, hcalled⟩ := call_alone t c (hmem a rfl) hfree hwf hrep
    exact ⟨_, st', hleads, Or.inl ⟨ch', rfl, hcalled⟩⟩
  | none =>
    rcases call_no_memory t c hfree hwf hrep with ⟨st', hleads, hcalled⟩ | ⟨key, value, rfl, hleads⟩
    · exact ⟨_, st', hleads, Or.inl ⟨ch, rfl, hcalled⟩⟩
    · exact ⟨-1, st, hleads, Or.inr ⟨⟨key, value, rfl⟩, rfl, rfl⟩⟩

/-! ## Several stores in one memory

The nodes of all stores come from one kmalloc. Two stores never have a node in common, and a call on
one of them keeps it so: what it links was not in use before, and what it writes to was its own. -/

theorem wellFormed_nil (node : Addr → Option KvNode) :
    WellFormed (fun _ => none) node fun _ => [] :=
  ⟨fun _ => trivial, by simp, by simp, by simp⟩

theorem represents_nil (node : Addr → Option KvNode) :
    Represents node (fun _ => []) (contents []) := by
  intro key value
  simp [contents]

/-- The stores by address, with their chains: each is well formed, and no node is in two of them. -/
structure Stores (heads : Nat → Option (Int → Option Addr)) (node : Addr → Option KvNode)
    (ch : Nat → Chains) : Prop where
  wf : ∀ p first, heads p = some first → WellFormed first node (ch p)
  apart : ∀ p q, heads p ≠ none → heads q ≠ none → ∀ b b', ∀ a ∈ ch p b, a ∈ ch q b' → p = q

section

variable {heads : Nat → Option (Int → Option Addr)} {node : Addr → Option KvNode}
  {chs : Nat → Chains} {p : Nat} {first : Int → Option Addr} {lock : Int → Option T} {c : Call}
  {ch' : Chains}

theorem Stores.node_ne_none (h : Stores heads node chs) {q : Nat} (hq : heads q ≠ none) {b : Int}
    {a : Addr} (ha : a ∈ chs q b) : node a ≠ none := by
  obtain ⟨first, hfirst⟩ := Option.ne_none_iff_exists'.mp hq
  obtain ⟨n, hn, -⟩ := (h.wf q first hfirst).mem_node ha
  simp [hn]

/-- A call on the store `p` leaves the nodes of the other stores alone. -/
theorem Stores.others_same (h : Stores heads node chs) (hp : heads p ≠ none)
    (hcalled : Called c m (chs p) ⟨first, node, lock⟩ st' ch') {q : Nat} (hne : q ≠ p)
    (hq : heads q ≠ none) : ∀ b, ∀ a ∈ chs q b, st'.node a = node a := by
  intro b a ha
  refine hcalled.others a (h.node_ne_none hq ha) fun b' ha' => ?_
  exact hne (h.apart q p hq hp b b' a ha ha')

/-- After a call on the store `p` the stores still have no node in common: what is new in a chain
was not in use. -/
theorem Stores.apart_called (h : Stores heads node chs)
    (hcalled : Called c m (chs p) ⟨first, node, lock⟩ st' ch') {q q' : Nat}
    (hq : heads q ≠ none) (hq' : heads q' ≠ none) {b b' : Int} {a : Addr}
    (ha : a ∈ Function.update chs p ch' q b) (ha' : a ∈ Function.update chs p ch' q' b') :
    q = q' := by
  -- what is in a chain of `p` and was not before is new memory
  have hchain : ∀ r b, a ∈ Function.update chs p ch' r b → a ∈ chs r b ∨ r = p ∧ node a = none := by
    intro r b hr
    by_cases hrp : r = p
    · subst hrp
      rw [Function.update_self] at hr
      exact (hcalled.grown b a hr).imp_right fun hnone => ⟨rfl, hnone⟩
    · rw [Function.update_of_ne hrp] at hr
      exact Or.inl hr
  rcases hchain q b ha with hold | ⟨rfl, hnone⟩
  · rcases hchain q' b' ha' with hold' | ⟨-, hnone⟩
    · exact h.apart q q' hq hq' b b' a hold hold'
    · exact absurd hnone (h.node_ne_none hq hold)
  · rcases hchain q' b' ha' with hold' | ⟨rfl, -⟩
    · exact absurd hnone (h.node_ne_none hq' hold')
    · rfl

/-- A new store is empty. -/
theorem Stores.alloc (h : Stores heads node chs) (hp : heads p = none) :
    Stores (Function.update heads p (some fun _ => none)) node
      (Function.update chs p fun _ => []) := by
  -- the new store has no nodes
  have hold : ∀ q b a, a ∈ Function.update chs p (fun _ => []) q b → q ≠ p ∧ a ∈ chs q b := by
    intro q b a ha
    by_cases hqp : q = p
    · rw [hqp, Function.update_self] at ha
      cases ha
    · rw [Function.update_of_ne hqp] at ha
      exact ⟨hqp, ha⟩
  refine ⟨?_, ?_⟩
  · intro q first hq
    rcases of_update_eq_some hq with ⟨rfl, rfl⟩ | ⟨hqp, hq⟩
    · rw [Function.update_self]
      exact wellFormed_nil _
    · rw [Function.update_of_ne hqp]
      exact h.wf q first hq
  · intro q q' hq hq' b b' a ha ha'
    obtain ⟨hqp, ha⟩ := hold q b a ha
    obtain ⟨hqp', ha'⟩ := hold q' b' a ha'
    rw [Function.update_of_ne hqp] at hq
    rw [Function.update_of_ne hqp'] at hq'
    exact h.apart q q' hq hq' b b' a ha ha'

/-- A call keeps the stores apart and well formed. -/
theorem Stores.called (h : Stores heads node chs) (hp : heads p ≠ none)
    (hcalled : Called c m (chs p) ⟨first, node, lock⟩ st' ch') :
    Stores (Function.update heads p (some st'.first)) st'.node (Function.update chs p ch') := by
  have hheads : ∀ q, Function.update heads p (some st'.first) q ≠ none → heads q ≠ none := by
    intro q hq
    exact (update_ne_none_iff.mp hq).elim id fun hqp => hqp ▸ hp
  refine ⟨?_, ?_⟩
  · intro q first' hq
    rcases of_update_eq_some hq with ⟨rfl, rfl⟩ | ⟨hqp, hq⟩
    · rw [Function.update_self]
      exact hcalled.wf
    · rw [Function.update_of_ne hqp]
      exact (h.wf q first' hq).congr
        (sameLinks_of_eq (h.others_same hp hcalled hqp (by simp [hq])))
  · intro q q' hq hq' b b' a ha ha'
    exact h.apart_called hcalled (hheads q hq) (hheads q' hq') ha ha'

end

end OsHomework.KvStore
