import Mathlib.Data.List.Dedup
import OsHomework.KvStore.Bounds
import OsHomework.KvStore.Chains

/-!
# KvStore — a node for every key written

A run of any number of threads is observed together with the keys at whose `hlist_add_head` it has
been. The walk and the insertion of a `write_kv` are inside one critical section, so a key is
inserted at most once, into the chain of its bucket, and stays there.

* **`Shape.grows`** — one operation keeps every node in its chain and its key.
* **`CensusInv.step`** — the nodes in the chains are those of the keys inserted.
* **`census_of_reach`** — so in every run the chains are finite lists without a repetition, with one
  node for each key inserted.
-/

namespace OsHomework.KvStore

open LinkedList Lts

/-- The key that the operation puts into a chain. -/
def Pc.inserts : Pc → List Int
  | .hlistAddHead key _ _ => [key]
  | _ => []

/-- A run, and the keys whose insertion has been completed. -/
structure Census (T : Type) where
  state : KvState T
  inserted : List Int

def censusInit (T : Type) : Census T := ⟨kvInit T, []⟩

/-- The nodes of the 1024 chains. -/
def nodes (ch : Chains) : List Addr := (List.range 1024).flatMap fun b : Nat => ch b

theorem mem_nodes_iff {ch : Chains} {a : Addr} : a ∈ nodes ch ↔ ∃ b : Nat, b < 1024 ∧ a ∈ ch b := by
  simp only [nodes, List.mem_flatMap, List.mem_range]

/-! ## One operation

No operation removes a node from a chain or changes its key, and only `hlist_add_head` adds one. The
keys in the chains are those of the nodes inserted so far. -/

/-- Every node stays in its chain and keeps its key. -/
def Grows (node node' : Addr → Option KvNode) (ch ch' : Chains) : Prop :=
  ∀ b, ∀ a ∈ ch b, a ∈ ch' b ∧ keyOf node' a = keyOf node a

theorem Grows.refl (node : Addr → Option KvNode) (ch : Chains) : Grows node node ch ch :=
  fun _ _ ha => ⟨ha, rfl⟩

theorem Grows.trans {node node' node'' : Addr → Option KvNode} {ch ch' ch'' : Chains}
    (h : Grows node node' ch ch') (h' : Grows node' node'' ch' ch'') :
    Grows node node'' ch ch'' := by
  intro b a ha
  obtain ⟨hmem, hkey⟩ := h b a ha
  obtain ⟨hmem', hkey'⟩ := h' b a hmem
  exact ⟨hmem', hkey'.trans hkey⟩

section

variable {T : Type} {st st' : Store T} {pc : T → Pc} {t : T} {pc' : Pc} {ch : Chains}

/-- The links of the chains change at their heads only. -/
theorem Shape.sameLinks (h : Shape st pc ch) (hmove : Move t st (pc t) pc' st') :
    SameLinks st.node st'.node ch := by
  have hknows := h.knows t
  generalize pc t = p at hmove hknows
  cases hmove with
  | setValue key value p n hnode => exact sameLinks_setValue hnode value
  | alloc key value a hfresh =>
    exact sameLinks_of_eq (update_node_of_out (h.wf.out_of_fresh hfresh) _)
  | addHead key value a n hnode =>
    obtain ⟨-, -, hout⟩ := hknows
    exact sameLinks_of_eq (update_node_of_out hout _)
  | _ => exact sameLinks_of_eq fun _ _ _ => rfl

/-- Chains only get longer. -/
theorem Pc.mem_grow {p : Pc} {b : Int} {a : Addr} (ha : a ∈ ch b) : a ∈ p.grow ch b := by
  cases p with
  | hlistAddHead key value x =>
    by_cases hb : b = bucket key
    · subst hb
      rw [Pc.grow, Function.update_self]
      exact List.mem_cons_of_mem x ha
    · rwa [Pc.grow, Function.update_of_ne hb]
  | _ => exact ha

/-- **One operation** keeps every node in its chain and its key. -/
theorem Shape.grows (h : Shape st pc ch) (hmove : Move t st (pc t) pc' st') :
    Grows st.node st'.node ch ((pc t).grow ch) := by
  intro b a ha
  exact ⟨Pc.mem_grow ha, h.wf.keyOf_eq (h.sameLinks hmove) ha⟩

/-- The keys of the nodes in the chains are these. -/
def Listed (node : Addr → Option KvNode) (ch : Chains) (keys : List Int) : Prop :=
  ∀ key, key ∈ keys ↔ ∃ a ∈ ch (bucket key), keyOf node a = some key

/-- A node with its key is put at the head of its chain. -/
theorem Listed.addHead {node : Addr → Option KvNode} {keys : List Int} (h : Listed node ch keys)
    {a : Addr} {key : Int} (hkey : keyOf node a = some key) :
    Listed node (Function.update ch (bucket key) (a :: ch (bucket key))) (keys ++ [key]) := by
  intro k
  rw [List.mem_append, List.mem_singleton, h k]
  constructor
  -- an old key is where it was, the new one at the head of its chain
  · rintro (⟨x, hx, hxk⟩ | rfl)
    · by_cases hb : bucket k = bucket key
      · rw [hb] at hx ⊢
        exact ⟨x, by rw [Function.update_self]; exact List.mem_cons_of_mem a hx, hxk⟩
      · exact ⟨x, by rwa [Function.update_of_ne hb], hxk⟩
    · exact ⟨a, by rw [Function.update_self]; exact List.mem_cons_self, hkey⟩
  -- a node of the longer chain is the new one, or was there before
  · rintro ⟨x, hx, hxk⟩
    rcases mem_addHead hx with ⟨-, rfl⟩ | hx
    · rw [hkey] at hxk
      exact Or.inr (Option.some.inj hxk).symm
    · exact Or.inl ⟨x, hx, hxk⟩

/-- Only `hlist_add_head` adds a key to the chains. -/
theorem Shape.listed {keys : List Int} (h : Shape st pc ch) (hmove : Move t st (pc t) pc' st')
    (hl : Listed st.node ch keys) :
    Listed st'.node ((pc t).grow ch) (keys ++ (pc t).inserts) := by
  -- on the nodes from before the keys are the same
  have hold : Listed st'.node ch keys := by
    intro key
    rw [hl key]
    refine exists_congr fun a => and_congr_right fun ha => ?_
    rw [h.wf.keyOf_eq (h.sameLinks hmove) ha]
  have hknows := h.knows t
  generalize pc t = p at hmove hknows
  cases hmove with
  -- the node that is linked has the key it was made with
  | addHead key value a n hnode =>
    obtain ⟨-, ⟨nx, hnew⟩, -⟩ := hknows
    rw [hnode] at hnew
    cases hnew
    exact hold.addHead (keyOf_of_node (Function.update_self ..))
  | _ =>
    show Listed _ ch (keys ++ [])
    rwa [List.append_nil]

end

/-! ## Whole runs

`censusStep` is the machine with a list that nothing reads. The invariant has the shape of the
chains, so that the keys of a chain are pairwise different, and that every key is in the chain of
its bucket. -/

section

variable {T : Type} [DecidableEq T] {c c' : Census T} {l : T × Action} {ch : Chains}

def censusStep (c : Census T) (l : T × Action) : Option (Census T) :=
  (kvStep c.state l).map fun s => ⟨s, c.inserted ++ (c.state.pc l.1).inserts⟩

/-- What holds in every run: the calls and the insertions have non-negative keys, and the chains
have nodes for the keys inserted. -/
structure CensusInv (c : Census T) (ch : Chains) : Prop where
  shape : Shape c.state.store c.state.pc ch
  keys : KeysMeet (0 ≤ ·) c.state
  inserted : ∀ key ∈ c.inserted, 0 ≤ key
  listed : Listed c.state.store.node ch c.inserted

omit [DecidableEq T] in
theorem censusInv_init : CensusInv (censusInit T) fun _ => [] where
  shape := shape_init T
  keys := .init _
  inserted := by simp [censusInit]
  listed := by simp [Listed, censusInit]

/-- **Every step** keeps the invariant, and every node in its chain. -/
theorem CensusInv.step (h : CensusInv c ch) (hok : NonnegKeys c.state l)
    (hstep : censusStep c l = some c') :
    ∃ ch', CensusInv c' ch' ∧ Grows c.state.store.node c'.state.store.node ch ch' := by
  obtain ⟨s', hkv, rfl⟩ := Option.map_eq_some_iff.mp hstep
  -- calls have non-negative keys, and a key is inserted by the call that was made with it
  have hkeys : KeysMeet (0 ≤ ·) s' := by
    refine h.keys.step (fun call hcall => ?_) hkv
    simpa only [NonnegKeys, hcall] using hok
  have hinserted : ∀ key ∈ c.inserted ++ (c.state.pc l.1).inserts, 0 ≤ key := by
    intro key hkey
    rcases List.mem_append.mp hkey with hkey | hkey
    · exact h.inserted key hkey
    · apply h.keys l.1 key
      generalize c.state.pc l.1 = p at hkey
      cases p with
      | hlistAddHead k value a => rw [List.mem_singleton.mp hkey]; rfl
      | _ => cases hkey
  rcases kvStep_cases hkv with ⟨call, hpc, rfl⟩ | ⟨r, hpc, rfl⟩ | ⟨pc', st', hmove, rfl⟩
  -- a call or a return: the store is as it was
  · refine ⟨ch, ⟨h.shape.stay (by rw [hpc]; rfl) rfl trivial, hkeys, hinserted, ?_⟩, .refl _ _⟩
    simpa only [hpc, Pc.inserts, List.append_nil] using h.listed
  · refine ⟨ch, ⟨h.shape.stay (by rw [hpc]; rfl) rfl trivial, hkeys, hinserted, ?_⟩, .refl _ _⟩
    simpa only [hpc, Pc.inserts, List.append_nil] using h.listed
  -- an operation, which may insert
  · refine ⟨_, ⟨h.shape.step hmove, hkeys, hinserted, ?_⟩, h.shape.grows hmove⟩
    exact h.shape.listed hmove h.listed

/-- Calls are made with keys from 0 on. -/
def NonnegCensus (c : Census T) (l : T × Action) : Prop := NonnegKeys c.state l

/-- Whole runs: the invariant, and that nodes stay. -/
theorem CensusInv.of_reach (h : CensusInv c ch) (hreach : Reach censusStep NonnegCensus c c') :
    ∃ ch', CensusInv c' ch' ∧ Grows c.state.store.node c'.state.store.node ch ch' := by
  refine hreach.inv (I := fun c' => ∃ ch', CensusInv c' ch' ∧
    Grows c.state.store.node c'.state.store.node ch ch') ⟨ch, h, .refl _ _⟩ ?_
  rintro c₁ l c₂ ⟨ch₁, h₁, hgrows₁⟩ hok hstep
  obtain ⟨ch₂, h₂, hgrows₂⟩ := h₁.step hok hstep
  exact ⟨ch₂, h₂, hgrows₁.trans hgrows₂⟩

/-! ## The chains of a run

The number of nodes is compared with the number of different keys: both lists are without repetition
and have the same members, so they are permutations of each other. This needs that no node is in two
chains, which follows from the key deciding the chain. -/

/-- The chains are finite and without a cycle, the nodes are in the chains of their keys, no two
have the same key, and there are as many as keys inserted. -/
structure Counted (c : Census T) (ch : Chains) : Prop where
  chain : ∀ b, Chain (nextOf c.state.store.node) (c.state.store.first b) (ch b)
  acyclic : ∀ b, (ch b).Nodup
  place : ∀ b, ∀ a ∈ ch b, ∃ n, c.state.store.node a = some n ∧ 0 ≤ n.key ∧ b = n.key % 1024
  unique : ∀ b b', ∀ a ∈ ch b, ∀ a' ∈ ch b',
    keyOf c.state.store.node a = keyOf c.state.store.node a' → a = a'
  count : (nodes ch).length = c.inserted.dedup.length

omit [DecidableEq T] in
/-- A node of a chain has a key that was inserted, and the key says which chain. -/
theorem CensusInv.place (h : CensusInv c ch) {b : Int} {a : Addr} (ha : a ∈ ch b) :
    ∃ n, c.state.store.node a = some n ∧ n.key ∈ c.inserted ∧ 0 ≤ n.key ∧ b = n.key % 1024 := by
  obtain ⟨n, hnode, rfl⟩ := h.shape.wf.mem_node ha
  have hmem : n.key ∈ c.inserted := (h.listed n.key).mpr ⟨a, ha, keyOf_of_node hnode⟩
  have hnonneg : 0 ≤ n.key := h.inserted n.key hmem
  exact ⟨n, hnode, hmem, hnonneg, Int.tmod_eq_emod_of_nonneg hnonneg⟩

omit [DecidableEq T] in
/-- Nodes with the same key are in the same chain, where keys are different. -/
theorem CensusInv.unique (h : CensusInv c ch) {b b' : Int} {a a' : Addr} (ha : a ∈ ch b)
    (ha' : a' ∈ ch b') (heq : keyOf c.state.store.node a = keyOf c.state.store.node a') :
    a = a' := by
  obtain ⟨n, hnode, -, -, hb⟩ := h.place ha
  obtain ⟨n', hnode', -, -, hb'⟩ := h.place ha'
  -- the same key has the same chain
  have hkey : n.key = n'.key := by
    rw [keyOf_of_node hnode, keyOf_of_node hnode'] at heq
    exact Option.some.inj heq
  rw [hb', ← hkey, ← hb] at ha'
  exact h.shape.wf.key_inj ha ha' heq

omit [DecidableEq T] in
theorem CensusInv.mem_nodes (h : CensusInv c ch) {b : Int} {a : Addr} (ha : a ∈ ch b) :
    a ∈ nodes ch := by
  obtain ⟨n, -, -, -, hb⟩ := h.place ha
  refine mem_nodes_iff.mpr ⟨b.toNat, by omega, ?_⟩
  rwa [Int.toNat_of_nonneg (by omega)]

omit [DecidableEq T] in
/-- No node is in two chains, or twice in one. -/
theorem CensusInv.nodup_nodes (h : CensusInv c ch) : (nodes ch).Nodup := by
  rw [nodes, List.nodup_flatMap]
  refine ⟨fun b _ => h.shape.wf.nodup b, (List.nodup_range (n := 1024)).imp ?_⟩
  intro b b' hne a ha ha'
  obtain ⟨n, hnode, -, -, hb⟩ := h.place ha
  obtain ⟨n', hnode', -, -, hb'⟩ := h.place ha'
  cases hnode.symm.trans hnode'
  exact hne (Int.ofNat.inj (hb.trans hb'.symm))

omit [DecidableEq T] in
/-- The keys of the nodes are the keys inserted, each once. -/
theorem CensusInv.keys_perm (h : CensusInv c ch) :
    ((nodes ch).map (keyOf c.state.store.node)).Perm (c.inserted.dedup.map some) := by
  have hchain : ∀ a ∈ nodes ch, ∃ b, a ∈ ch b := by
    intro a ha
    obtain ⟨b, -, hb⟩ := mem_nodes_iff.mp ha
    exact ⟨b, hb⟩
  -- nodes with equal keys are one node
  have hnodup : ((nodes ch).map (keyOf c.state.store.node)).Nodup := by
    refine h.nodup_nodes.map_on fun a ha a' ha' heq => ?_
    obtain ⟨b, hb⟩ := hchain a ha
    obtain ⟨b', hb'⟩ := hchain a' ha'
    exact h.unique hb hb' heq
  have hdedup : (c.inserted.dedup.map some).Nodup :=
    (List.nodup_dedup _).map fun _ _ => Option.some.inj
  refine (List.perm_ext_iff_of_nodup hnodup hdedup).mpr fun o => ?_
  rw [List.mem_map, List.mem_map]
  constructor
  -- a node in a chain was inserted, and conversely
  · rintro ⟨a, ha, rfl⟩
    obtain ⟨b, hb⟩ := hchain a ha
    obtain ⟨n, hnode, hmem, -⟩ := h.place hb
    exact ⟨n.key, List.mem_dedup.mpr hmem, (keyOf_of_node hnode).symm⟩
  · rintro ⟨key, hkey, rfl⟩
    obtain ⟨a, ha, hak⟩ := (h.listed key).mp (List.mem_dedup.mp hkey)
    exact ⟨a, h.mem_nodes ha, hak⟩

omit [DecidableEq T] in
theorem CensusInv.counted (h : CensusInv c ch) : Counted c ch where
  chain := h.shape.wf.chain
  acyclic := h.shape.wf.nodup
  place := fun b a ha => by
    obtain ⟨n, hnode, -, hrest⟩ := h.place ha
    exact ⟨n, hnode, hrest⟩
  unique := fun b b' a ha a' ha' heq => h.unique ha ha' heq
  count := by
    have hlength := h.keys_perm.length_eq
    rwa [List.length_map, List.length_map] at hlength

/-- **In every run** of threads that call `write_kv` and `read_kv` with keys from 0 on, with kmalloc
failing where it likes: the chains are finite and acyclic, each node is in the chain of its key, no
two nodes have the same key, there are as many nodes as different keys inserted; and whatever
happens next, each node stays in its chain and keeps its key. -/
theorem census_of_reach (c : Census T)
    (hreach : Reach censusStep NonnegCensus (censusInit T) c) :
    ∃ ch, Counted c ch ∧
      ∀ c', Reach censusStep NonnegCensus c c' →
        ∃ ch', Counted c' ch' ∧ Grows c.state.store.node c'.state.store.node ch ch' := by
  obtain ⟨ch, h, -⟩ := censusInv_init.of_reach hreach
  refine ⟨ch, h.counted, fun c' hlater => ?_⟩
  obtain ⟨ch', h', hgrows⟩ := h.of_reach hlater
  exact ⟨ch', h'.counted, hgrows⟩

end

/-- Two threads call `write_kv` with the same new key: one inserts a node, the other waits for the
lock and then finds it. -/
def twoWriters : List (Bool × Action) :=
  [(true, Action.invoke (.writeKv 5 7)), (false, Action.invoke (.writeKv 5 9))] ++
    List.replicate 6 (true, Action.run (some 0)) ++ List.replicate 5 (false, Action.run none)

theorem census_of_reach_twoWriters :
    ∃ c, Reach censusStep NonnegCensus (censusInit Bool) c ∧ c.inserted = [5] ∧
      ∃ ch, Counted c ch ∧ (nodes ch).length = 1 := by
  have hrun : (exec censusStep (fun c l => decide (NonnegKeys c.state l)) (censusInit Bool)
      twoWriters).map Census.inserted = some [5] := by decide +kernel
  obtain ⟨c, hreach, hinserted⟩ := reach_of_exec_map hrun fun c l h => of_decide_eq_true h
  obtain ⟨ch, hcounted, -⟩ := census_of_reach c hreach
  refine ⟨c, hreach, hinserted, ch, hcounted, ?_⟩
  rw [hcounted.count, hinserted]
  rfl

end OsHomework.KvStore
