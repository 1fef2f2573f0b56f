import OsHomework.KvStore.Chains

/-!
# KvStore — every history is linearizable

The sequential object is a finite map from int to int: `contents cs` is what the calls `cs`, taken
one after the other, leave in it, and `Legal cs` says that each of them returned what it should. The
instants of the concurrent calls are

* the store to `node->value`, or `hlist_add_head`, for a `write_kv` that returns 0;
* the failed kmalloc for one that returns -1;
* the end of the walk, under the lock, for a `read_kv` that misses;
* the load of `node->value`, *after* the unlock, for one that hits. It is still the value of the
  map then, since nodes never leave their chain and only the value in them changes.

* **`kv_linearizable`** — the theorem, for any number of threads and every run.
-/

namespace OsHomework.KvStore

open Linearize Lts

/-- What a call that took effect does to the map. -/
def effect (m : Int → Option Int) : Call × Int → (Int → Option Int)
  | (.writeKv key value, r) => if r = 0 then Function.update m key (some value) else m
  | (.readKv _, _) => m

/-- The map after the calls, in order, from the empty one. -/
def contents (cs : List (Call × Int)) : Int → Option Int := cs.foldl effect fun _ => none

/-- The calls in this order are a run of the map: a read returns the value of the latest successful
write of its key or -1, a write returns 0, or -1 and has no effect. -/
inductive Legal : List (Call × Int) → Prop where
  | nil : Legal []
  | read {cs : List (Call × Int)} (h : Legal cs) (key : Int) :
      Legal (cs ++ [(.readKv key, (contents cs key).getD (-1))])
  | written {cs : List (Call × Int)} (h : Legal cs) (key value : Int) :
      Legal (cs ++ [(.writeKv key value, 0)])
  | refused {cs : List (Call × Int)} (h : Legal cs) (key value : Int) :
      Legal (cs ++ [(.writeKv key value, -1)])

variable {cs : List (Call × Int)}

/-- The calls act one after the other. -/
theorem contents_concat (cs : List (Call × Int)) (x : Call × Int) :
    contents (cs ++ [x]) = effect (contents cs) x := by
  simp [contents]

@[simp] theorem contents_read (key r : Int) :
    contents (cs ++ [(.readKv key, r)]) = contents cs := by simp [contents, effect]

@[simp] theorem contents_refused (key value : Int) :
    contents (cs ++ [(.writeKv key value, -1)]) = contents cs := by simp [contents, effect]

@[simp] theorem contents_written (key value : Int) :
    contents (cs ++ [(.writeKv key value, 0)]) =
      Function.update (contents cs) key (some value) := by simp [contents, effect]

/-- The chains hold the map: a key has the value of the node with that key in its bucket. -/
def Represents (node : Addr → Option KvNode) (ch : Chains) (m : Int → Option Int) : Prop :=
  ∀ key value, m key = some value ↔
    ∃ a ∈ ch (bucket key), ∃ n, node a = some n ∧ n.key = key ∧ n.value = value

variable {node node' : Addr → Option KvNode} {ch : Chains} {m : Int → Option Int}
  {first : Int → Option Addr}

/-- Only nodes of the chains hold part of the map. -/
theorem Represents.congr (h : Represents node ch m) (hsame : ∀ b, ∀ a ∈ ch b, node' a = node a) :
    Represents node' ch m := by
  intro key value
  rw [h key value]
  constructor
  · rintro ⟨a, ha, n, hn, hkey⟩
    exact ⟨a, ha, n, (hsame _ a ha).trans hn, hkey⟩
  · rintro ⟨a, ha, n, hn, hkey⟩
    exact ⟨a, ha, n, (hsame _ a ha).symm.trans hn, hkey⟩

/-- A walk without a hit: the key is not in the map. -/
theorem Represents.eq_none (h : Represents node ch m) {key : Int}
    (habsent : Absent node (ch (bucket key)) key) : m key = none := by
  cases hm : m key with
  | none => rfl
  | some value =>
    obtain ⟨a, ha, n, hn, hkey, -⟩ := (h key value).mp hm
    exact absurd (by rw [keyOf_of_node hn, hkey]) (habsent a ha)

/-- A hit: the node's value is that of the key in the map. -/
theorem Represents.eq_some (h : Represents node ch m) {key : Int} {p : Addr} {n : KvNode}
    (hmem : p ∈ ch (bucket key)) (hnode : node p = some n) (hkey : keyOf node p = some key) :
    m key = some n.value := by
  rw [keyOf_of_node hnode] at hkey
  exact (h key n.value).mpr ⟨p, hmem, n, hnode, Option.some.inj hkey, rfl⟩

/-- Storing a value in the node found is a write to the map. -/
theorem Represents.setValue (h : Represents node ch m) (hwf : WellFormed first node ch)
    {key : Int} {p : Addr} {n : KvNode} (hmem : p ∈ ch (bucket key)) (hnode : node p = some n)
    (hkey : n.key = key) (value : Int) :
    Represents (Function.update node p (some { n with value := value })) ch
      (Function.update m key (some value)) := by
  intro k v
  -- the key that is written: its node is in the chain, once
  by_cases hk : k = key
  · subst hk
    rw [Function.update_self]
    constructor
    · rintro ⟨⟩
      exact ⟨p, hmem, _, Function.update_self .., hkey, rfl⟩
    · rintro ⟨a, ha, n', hn', hkey', rfl⟩
      -- keys are unique in a chain, so the node found is the one just written
      have hap : a = p := by
        by_contra hne
        rw [Function.update_of_ne hne] at hn'
        exact hne (hwf.key_inj ha hmem
          (by rw [keyOf_of_node hn', keyOf_of_node hnode, hkey', hkey]))
      subst hap
      rw [Function.update_self] at hn'
      cases hn'
      rfl
  · rw [Function.update_of_ne hk, h k v]
    -- nodes of other keys are left alone
    constructor
    · rintro ⟨a, ha, n', hn', hkey', hv⟩
      refine ⟨a, ha, n', ?_, hkey', hv⟩
      rw [Function.update_of_ne, hn']
      rintro rfl
      rw [hnode] at hn'
      cases hn'
      exact hk (hkey'.symm.trans hkey)
    · rintro ⟨a, ha, n', hn', hkey', hv⟩
      have hap : a ≠ p := by
        rintro rfl
        rw [Function.update_self] at hn'
        cases hn'
        exact hk (hkey'.symm.trans hkey)
      rw [Function.update_of_ne hap] at hn'
      exact ⟨a, ha, n', hn', hkey', hv⟩

/-- Linking a node with a new key is a write to the map. -/
theorem Represents.addHead (h : Represents node ch m) {key value : Int} {a : Addr} {n : KvNode}
    (hout : ∀ b, a ∉ ch b) (habsent : Absent node (ch (bucket key)) key) (hkey : n.key = key)
    (hvalue : n.value = value) :
    Represents (Function.update node a (some n))
      (Function.update ch (bucket key) (a :: ch (bucket key)))
      (Function.update m key (some value)) := by
  have hold : Represents (Function.update node a (some n)) ch m :=
    h.congr (update_node_of_out hout _)
  intro k v
  by_cases hk : k = key
  -- the key that is written: no other node of the chain has it
  · subst hk
    rw [Function.update_self, Function.update_self]
    constructor
    · rintro ⟨⟩
      exact ⟨a, by simp, n, Function.update_self .., hkey, hvalue⟩
    · rintro ⟨x, hx, n', hn', hkey', rfl⟩
      rcases List.mem_cons.mp hx with rfl | hx
      · rw [Function.update_self] at hn'
        cases hn'
        rw [hvalue]
      · have hxa : x ≠ a := fun hxa => hout _ (hxa ▸ hx)
        rw [Function.update_of_ne hxa] at hn'
        exact absurd (by rw [keyOf_of_node hn', hkey']) (habsent x hx)
  -- another key: the new node does not have it, whether or not it is in the same chain
  · rw [Function.update_of_ne hk, hold k v]
    by_cases hb : bucket k = bucket key
    · rw [hb, Function.update_self]
      constructor
      · rintro ⟨x, hx, hrest⟩
        exact ⟨x, List.mem_cons_of_mem _ hx, hrest⟩
      · rintro ⟨x, hx, n', hn', hkey', hv⟩
        rcases List.mem_cons.mp hx with rfl | hx
        · rw [Function.update_self] at hn'
          cases hn'
          exact absurd (hkey'.symm.trans hkey) hk
        · exact ⟨x, hx, n', hn', hkey', hv⟩
    · rw [Function.update_of_ne hb]

/-! ## The simulation

A call has not taken effect yet, or has a result that is still to be returned: that is its phase,
and it can be read off the program counter. At every operation the phase stays or the call takes
effect, and then the map changes as that of the sequential object. The library makes a linearization
of the history out of this. -/

/-- Where a thread stands in its call, by its program counter. -/
def Pc.phase : Pc → Phase Call Int
  | .idle => .idle
  | .spinLock c | .head c | .forEach c _ => .called c
  | .setValue key value _ | .kmalloc key value | .hlistAddHead key value _ =>
    .called (.writeKv key value)
  | .spinUnlockHit key _ | .loadValue key _ => .called (.readKv key)
  | .spinUnlock _ r | .ret r => .done r

/-- One operation either leaves the map and the thread's phase alone, or is the instant of its
call. -/
theorem Shape.effect {T : Type} {st st' : Store T} {pc : T → Pc} {t : T} {pc' : Pc}
    (h : Shape st pc ch) (hrep : Represents st.node ch (contents cs)) (hlegal : Legal cs)
    (hmove : Move t st (pc t) pc' st') :
    (pc'.phase = (pc t).phase ∧ Represents st'.node ((pc t).grow ch) (contents cs)) ∨
      ∃ c r, (pc t).phase = .called c ∧ pc'.phase = .done r ∧ Legal (cs ++ [(c, r)]) ∧
        Represents st'.node ((pc t).grow ch) (contents (cs ++ [(c, r)])) := by
  have hknows := h.knows t
  generalize hpc : pc t = p at hmove hknows
  cases hmove with
  -- the walk has come to its end under the lock, so the key is nowhere
  | missRead key =>
    right
    obtain ⟨seen, rest, hch, hchain, habsent⟩ := hknows
    rw [hchain.eq_nil, List.append_nil] at hch
    have hnone : contents cs key = none := hrep.eq_none (by
      rw [show ch (bucket key) = seen from hch]
      exact habsent)
    refine ⟨.readKv key, -1, rfl, rfl, ?_, ?_⟩
    · have hread := hlegal.read key
      rwa [hnone] at hread
    · rw [contents_read]
      exact hrep
  -- the node is in its chain still, so its value is that of the map at this moment
  | loadValue key p n hnode =>
    right
    have hsome : contents cs key = some n.value := hrep.eq_some hknows.1 hnode hknows.2
    refine ⟨.readKv key, n.value, rfl, rfl, ?_, ?_⟩
    · have hread := hlegal.read key
      rwa [hsome] at hread
    · rw [contents_read]
      exact hrep
  -- `write_kv` on a key that has a node
  | setValue key value p n hnode =>
    right
    obtain ⟨hmem, hkey⟩ := hknows
    rw [keyOf_of_node hnode] at hkey
    refine ⟨.writeKv key value, 0, rfl, rfl, hlegal.written key value, ?_⟩
    rw [contents_written]
    exact hrep.setValue h.wf hmem hnode (Option.some.inj hkey) value
  -- kmalloc has failed and nothing changes
  | nomem key value =>
    right
    refine ⟨.writeKv key value, -1, rfl, rfl, hlegal.refused key value, ?_⟩
    rw [contents_refused]
    exact hrep
  -- `write_kv` on a new key
  | addHead key value a n hnode =>
    right
    obtain ⟨habsent, ⟨nx, hnew⟩, hout⟩ := hknows
    rw [hnode] at hnew
    cases hnew
    refine ⟨.writeKv key value, 0, rfl, rfl, hlegal.written key value, ?_⟩
    rw [contents_written]
    exact hrep.addHead hout habsent rfl rfl
  -- memory that was not in use is in no chain
  | alloc key value a hfresh =>
    left
    refine ⟨rfl, hrep.congr fun b x hx => ?_⟩
    have hxa : x ≠ a := by
      rintro rfl
      obtain ⟨n, hn, -⟩ := h.wf.mem_node hx
      rw [hfresh] at hn
      cases hn
    exact Function.update_of_ne hxa _ _
  | _ => exact Or.inl ⟨rfl, hrep⟩

section

variable {T : Type} [DecidableEq T]

/-- The store represents a map reached by the calls that have taken effect. -/
def Simulates (s : KvState T) : Prop :=
  ∃ ch cs, Shape s.store s.pc ch ∧ Represents s.store.node ch (contents cs) ∧
    Linearized Legal s.hist (Pc.phase ∘ s.pc) cs

omit [DecidableEq T] in
theorem simulates_kvInit : Simulates (kvInit T) := by
  refine ⟨fun _ => [], [], shape_init T, ?_, linearized_nil .nil⟩
  intro key value
  simp [contents]

/-- **One step** of a call, a return or an operation. -/
theorem Simulates.step {s s' : KvState T} {l : T × Action} (h : Simulates s)
    (hstep : kvStep s l = some s') : Simulates s' := by
  obtain ⟨ch, cs, hshape, hrep, hlin⟩ := h
  rcases kvStep_cases hstep with ⟨c, hpc, rfl⟩ | ⟨r, hpc, rfl⟩ | ⟨pc', st', hmove, rfl⟩
  -- a call
  · refine ⟨ch, cs, hshape.stay (by rw [hpc]; rfl) rfl trivial, hrep, ?_⟩
    rw [Function.comp_update]
    exact hlin.invoke (by rw [Function.comp_apply, hpc]; rfl) c
  -- a return
  · refine ⟨ch, cs, hshape.stay (by rw [hpc]; rfl) rfl trivial, hrep, ?_⟩
    rw [Function.comp_update]
    exact hlin.respond (by rw [Function.comp_apply, hpc]; rfl)
  -- an operation: the phase stays, or the call has its instant here
  · obtain ⟨-, -, -, -, hlegal⟩ := id hlin
    rcases hshape.effect hrep hlegal hmove with ⟨hphase, hrep'⟩ | ⟨c, r, hcalled, hdone, hl, hrep'⟩
    · refine ⟨_, cs, hshape.step hmove, hrep', ?_⟩
      rwa [Function.comp_update, hphase, ← Function.comp_apply (f := Pc.phase),
        Function.update_eq_self]
    · refine ⟨_, _, hshape.step hmove, hrep', ?_⟩
      rw [Function.comp_update, hdone]
      exact hlin.commit hcalled hl

/-- **The key-value store is linearizable.** For any number of threads that share one store and any
interleaving of their operations, with kmalloc failing where it likes, the calls can be given
instants between call and return at which they act on a finite map. -/
theorem kv_linearizable (s : KvState T) (h : Reach kvStep NonnegKeys (kvInit T) s) :
    Linearizable Legal s.hist := by
  have hsim : Simulates s := h.inv simulates_kvInit fun _ _ _ hsim _ hstep => hsim.step hstep
  obtain ⟨ch, cs, -, -, hlin⟩ := hsim
  exact hlin.linearizable

end

/-- One thread writes 7 and then 9 to key 5, another reads it: the read finds the node, drops the
lock, and loads the value after the second write has stored it. -/
def lateLoadRun : List (Bool × Action) :=
  (true, .invoke (.writeKv 5 7)) :: List.replicate 7 (true, .run (some 0)) ++
    (false, .invoke (.readKv 5)) :: List.replicate 4 (false, .run none) ++
    (true, .invoke (.writeKv 5 9)) :: List.replicate 6 (true, .run none) ++
    List.replicate 2 (false, .run none)

theorem kv_linearizable_lateLoad :
    ∃ s, Reach kvStep NonnegKeys (kvInit Bool) s ∧
      s.hist = [.inv true (.writeKv 5 7), .res true 0, .inv false (.readKv 5),
        .inv true (.writeKv 5 9), .res true 0, .res false 9] ∧
      Linearizable Legal s.hist := by
  have hrun : (exec kvStep (fun s l => decide (NonnegKeys s l)) (kvInit Bool) lateLoadRun).map
      KvState.hist = some [.inv true (.writeKv 5 7), .res true 0, .inv false (.readKv 5),
        .inv true (.writeKv 5 9), .res true 0, .res false 9] := by decide +kernel
  obtain ⟨s, hreach, hhist⟩ := reach_of_exec_map hrun fun s l h => of_decide_eq_true h
  exact ⟨s, hreach, hhist, kv_linearizable s hreach⟩

end OsHomework.KvStore
