import OsHomework.Lib.Holdings
import OsHomework.Lib.Reach
import OsHomework.Fork.Unshare

/-!
# Fork — every reference is counted

Any number of tasks call `copy_process`, `fork_idle` and `unshare` and exit, in any interleaving of
the stages, the labels and the steps of `ksys_unshare`, with every callee failing when it likes.

* **`Sys.Inv`** — the counts are the numbers of references the tasks and the calls have, with what
  each call relies on, and the holder of `tasklist_lock` is the call that stands in the locked
  section.
* **`Sys.Inv.act`** — what a task does to itself keeps it, if it is a deal.
* **`references_of_reach`** — no count goes wrong, in any run. What no task and no call refers to is
  a pidfd's, or an `nsproxy` that an `unshare` has lost.
* **`threads_of_reach`** — threads of a group have the signal handlers in common, and tasks with
  common handlers the address space.
-/

namespace OsHomework.Fork

open Counted Lts
open Holdings (HeldBy LockMove)

/-! ## What everybody holds

The references of a task are those behind its pointers, and those of the call it is in. Everything
else in the kernel is one more holder, with the objects behind pidfds and the lost ones. The
invariant has the counts as the number of references over all holders; besides, it has what each
call relies on and the two facts about thread groups that the flags guarantee. -/

/-- The references of a call. -/
def Call.refs : Call → List Obj
  | .copy c => Fork.refs c.flags c.p c.pc.held
  | .unshare c => c.refs

/-- The object that a call still has to free. -/
def Call.dead : Call → List Obj
  | .copy _ => []
  | .unshare c => c.dead

/-- What a task refers to, with what the call it is in has taken. -/
def taskRefs (t : Option Ptrs) (c : Option Call) : List Obj :=
  t.elim [] (objects · taskSlots) ++ c.elim [] Call.refs

/-- The holders are the tasks, and the rest of the kernel. -/
def Sys.holds {I : Type*} (s : Sys I) : Option I → List Obj
  | none => s.outside
  | some i => taskRefs (s.task i) (s.call i)

def Sys.dead {I : Type*} (s : Sys I) : Option I → List Obj
  | none => []
  | some i => (s.call i).elim [] Call.dead

/-- The section under `tasklist_lock`. -/
def CopyPc.locked : CopyPc → Bool
  | .stage .pidnsAdding | .stage .fatalSignalPending | .stage .attachPid => true
  | .label .badForkCancelCgroup => true
  | _ => false

def Call.locked : Call → Bool
  | .copy c => c.pc.locked
  | .unshare _ => false

/-- What a `copy_process` relies on. The flags have passed the checks at its beginning. -/
structure CopyOk (cur : Ptrs) (h : Refs) (c : Copy) : Prop where
  ready : Ready c.flags cur c.p h c.pc.dup c.pc.held
  start : c.pc = .stage .hlistAddHead → c.p .delayed = none
  sighand_of_thread : c.flags.thread = true → c.flags.sighand = true
  vm_of_sighand : c.flags.sighand = true → c.flags.vm = true

def Call.Ok (cur : Ptrs) (h : Refs) : Call → Prop
  | .copy c => CopyOk cur h c
  | .unshare c => UnshareOk h c

/-- Threads share the handlers, and who shares handlers shares the address space. -/
structure Grouped (p q : Ptrs) : Prop where
  sighand : p .signal = q .signal → p .sighand = q .sighand
  mm : p .sighand = q .sighand → p .mm = q .mm

theorem Grouped.refl (p : Ptrs) : Grouped p p := ⟨fun _ => rfl, fun _ => rfl⟩

theorem Grouped.symm {p q : Ptrs} (h : Grouped p q) : Grouped q p :=
  ⟨fun heq => (h.sighand heq.symm).symm, fun heq => (h.mm heq.symm).symm⟩

/-- **The invariant.** -/
structure Sys.Inv {I : Type*} [DecidableEq I] (s : Sys I) : Prop where
  held : ∃ A, Held s.heap A s.holds s.dead
  caller : ∀ i c, s.call i = some c → s.task i ≠ none
  solid : ∀ i cur, s.task i = some cur → ∀ t : Slot, t.solid = true → cur t ≠ none
  ok : ∀ i cur c, s.task i = some cur → s.call i = some c → c.Ok cur s.heap
  outside : ∀ x ∈ s.outside, x.1 ∈ [Slot.fd, .pidfile, .pid, .nsproxy]
  grouped : ∀ i j p q, s.task i = some p → s.task j = some q → Grouped p q
  locked : HeldBy s.tasklist fun i => (s.call i).any Call.locked

/-- What a call relies on are its own references. -/
theorem Call.Ok.congr {cur : Ptrs} {h h' : Refs} {c : Call} (hok : c.Ok cur h)
    (hcount : ∀ x ∈ c.refs, h.count x = some 1 → h'.count x = some 1) : c.Ok cur h' := by
  cases c with
  | copy c =>
    have hready := hok.ready
    refine ⟨⟨hready.copied, hready.inherit, hready.solid, fun t ht hsole hc a ha => ?_⟩, hok.start,
      hok.sighand_of_thread, hok.vm_of_sighand⟩
    exact hcount _ (mem_refs ht hc ha) (hready.sole t ht hsole hc a ha)
  | unshare c =>
    refine ⟨hok.null, fun hc a ha => hcount _ ?_ (hok.sole hc a ha)⟩
    show Slot.fs.obj a ∈ c.refs
    unfold Unshare.refs
    rw [hc, ha]
    exact List.mem_append_left _ List.mem_cons_self

section

variable {I : Type*} [DecidableEq I]

/-- The holders when one task and its call have changed. -/
theorem Sys.holds_update (s : Sys I) (i : I) (t : Option Ptrs) (c : Option Call) (h : Refs)
    (tasklist : Option I) (outside : List Obj) :
    Sys.holds ⟨h, Function.update s.task i t, Function.update s.call i c, tasklist, outside⟩ =
      Function.update (Function.update s.holds (some i) (taskRefs t c)) none outside := by
  funext o
  cases o with
  | none => rw [Function.update_self, Sys.holds]
  | some j =>
    rw [Function.update_of_ne (Option.some_ne_none j)]
    by_cases hj : j = i
    · subst hj
      simp only [Sys.holds, Function.update_self]
    · have hne : some j ≠ some i := fun heq => hj (Option.some.inj heq)
      simp only [Sys.holds, Function.update_of_ne hj, Function.update_of_ne hne]

/-- What is still to be freed, when one call has changed. -/
theorem Sys.dead_update (s : Sys I) (i : I) (task : I → Option Ptrs) (c : Option Call) (h : Refs)
    (tasklist : Option I) (outside : List Obj) :
    Sys.dead ⟨h, task, Function.update s.call i c, tasklist, outside⟩ =
      Function.update s.dead (some i) (c.elim [] Call.dead) := by
  funext o
  cases o with
  | none => rw [Function.update_of_ne (Option.some_ne_none i).symm, Sys.dead, Sys.dead]
  | some j =>
    by_cases hj : j = i
    · subst hj
      simp only [Sys.dead, Function.update_self]
    · have hne : some j ≠ some i := fun heq => hj (Option.some.inj heq)
      simp only [Sys.dead, Function.update_of_ne hj, Function.update_of_ne hne]

variable {s : Sys I} {i : I} {cur cur' : Ptrs} {h' : Refs} {c' : Option Call}
  {ys ds' lost : List Obj}

/-- The other calls do not notice. -/
theorem Sys.Inv.others (hinv : s.Inv)
    (hdeal : Deal s.heap (s.holds (some i)) (s.dead (some i)) h' ys ds') {j : I} (hne : j ≠ i)
    {p : Ptrs} {c : Call} (hp : s.task j = some p) (hc : s.call j = some c) : c.Ok p h' := by
  refine (hinv.ok j p c hp hc).congr fun x hx hone => ?_
  obtain ⟨A, hheld⟩ := hinv.held
  have hother : some j ≠ some i := fun heq => hne (Option.some.inj heq)
  refine (hheld.grow (some i)).count_one (Finset.mem_insert_self ..) hdeal hother ?_ hone
  show x ∈ taskRefs (s.task j) (s.call j)
  rw [hc]
  exact List.mem_append_right _ hx

/-- The lock, after the call of one task has moved. -/
theorem Sys.Inv.lock (hinv : s.Inv) {tasklist : Option I}
    (hlock : LockMove i s.tasklist ((s.call i).any Call.locked) tasklist (c'.any Call.locked)) :
    HeldBy tasklist fun j => (Function.update s.call i c' j).any Call.locked := by
  have hstep := hinv.locked.step hlock
  intro j
  rw [hstep j]
  by_cases hj : j = i
  · subst hj
    simp only [Function.update_self]
  · simp only [Function.update_of_ne hj]

/-- **What a task does to itself.** It may also let go of references. -/
theorem Sys.Inv.act (hinv : s.Inv) (hcur : s.task i = some cur) {tasklist : Option I}
    (hdeal : Deal s.heap (s.holds (some i)) (s.dead (some i)) h' (taskRefs (some cur') c' ++ lost)
      (c'.elim [] Call.dead))
    (hok : ∀ c, c' = some c → c.Ok cur' h') (hsolid : ∀ t : Slot, t.solid = true → cur' t ≠ none)
    (hsame : ∀ t ∈ [Slot.signal, .sighand, .mm], cur' t = cur t)
    (hlost : ∀ x ∈ lost, x.1 ∈ [Slot.fd, .pidfile, .pid, .nsproxy])
    (hlock : LockMove i s.tasklist ((s.call i).any Call.locked) tasklist (c'.any Call.locked)) :
    Sys.Inv ⟨h', Function.update s.task i (some cur'), Function.update s.call i c', tasklist,
      lost ++ s.outside⟩ := by
  -- what is known of a task after the step
  have htask : ∀ {j p}, Function.update s.task i (some cur') j = some p →
      j = i ∧ p = cur' ∨ j ≠ i ∧ s.task j = some p := by
    intro j p hp
    by_cases hj : j = i
    · subst hj
      rw [Function.update_self] at hp
      exact Or.inl ⟨rfl, (Option.some.inj hp).symm⟩
    · rw [Function.update_of_ne hj] at hp
      exact Or.inr ⟨hj, hp⟩
  have hbefore : ∀ {j p}, Function.update s.task i (some cur') j = some p →
      ∃ p₀, s.task j = some p₀ ∧ ∀ t ∈ [Slot.signal, .sighand, .mm], p t = p₀ t := by
    intro j p hp
    rcases htask hp with ⟨rfl, rfl⟩ | ⟨-, hold⟩
    · exact ⟨cur, hcur, hsame⟩
    · exact ⟨p, hold, fun _ _ => rfl⟩
  refine ⟨?_, fun j c hc => ?_, fun j p hp => ?_, fun j p c hp hc => ?_, fun x hx => ?_,
    fun j k p q hp hq => ?_, hinv.lock hlock⟩
  -- the counts: a deal of this task and the kernel
  · obtain ⟨A, hheld⟩ := hinv.held
    have hgive := hheld.give (Option.some_ne_none i).symm hdeal
    refine ⟨insert none (insert (some i) A), ?_⟩
    rw [Sys.holds_update, Sys.dead_update]
    exact hgive
  -- a call has a task
  · by_cases hj : j = i
    · subst hj
      simp
    · simp only [Function.update_of_ne hj] at hc ⊢
      exact hinv.caller j c hc
  · rcases htask hp with ⟨-, rfl⟩ | ⟨-, hold⟩
    · exact hsolid
    · exact hinv.solid j p hold
  -- what the calls rely on: this one by assumption, the others because it was a deal of somebody
  -- else
  · rcases htask hp with ⟨rfl, rfl⟩ | ⟨hj, hold⟩
    · simp only [Function.update_self] at hc
      exact hok c hc
    · simp only [Function.update_of_ne hj] at hc
      exact hinv.others hdeal hj hold hc
  · rcases List.mem_append.mp hx with hnew | hold
    · exact hlost x hnew
    · exact hinv.outside x hold
  -- thread groups: the three pointers have not changed
  · obtain ⟨p₀, hp₀, hpsame⟩ := hbefore hp
    obtain ⟨q₀, hq₀, hqsame⟩ := hbefore hq
    have hgroup := hinv.grouped j k p₀ q₀ hp₀ hq₀
    have hsignal : Slot.signal ∈ [Slot.signal, .sighand, .mm] := by decide
    have hsighand : Slot.sighand ∈ [Slot.signal, .sighand, .mm] := by decide
    have hmm : Slot.mm ∈ [Slot.signal, .sighand, .mm] := by decide
    refine ⟨fun heq => ?_, fun heq => ?_⟩
    · rw [hpsame _ hsignal, hqsame _ hsignal] at heq
      rw [hpsame _ hsighand, hqsame _ hsighand]
      exact hgroup.sighand heq
    · rw [hpsame _ hsighand, hqsame _ hsighand] at heq
      rw [hpsame _ hmm, hqsame _ hmm]
      exact hgroup.mm heq

/-- The same for a step that leaves the task's pointers alone. -/
theorem Sys.Inv.call (hinv : s.Inv) (hcur : s.task i = some cur) {tasklist : Option I}
    (hdeal : Deal s.heap (s.holds (some i)) (s.dead (some i)) h' (taskRefs (some cur) c' ++ lost)
      (c'.elim [] Call.dead))
    (hok : ∀ c, c' = some c → c.Ok cur h')
    (hlost : ∀ x ∈ lost, x.1 ∈ [Slot.fd, .pidfile, .pid, .nsproxy])
    (hlock : LockMove i s.tasklist ((s.call i).any Call.locked) tasklist (c'.any Call.locked)) :
    Sys.Inv ⟨h', s.task, Function.update s.call i c', tasklist, lost ++ s.outside⟩ := by
  have hsame : Function.update s.task i (some cur) = s.task := by
    rw [← hcur, Function.update_eq_self]
  have hact := hinv.act hcur hdeal hok (hinv.solid i cur hcur) (fun _ _ => rfl) hlost hlock
  rwa [hsame] at hact

omit [DecidableEq I] in
theorem Sys.holds_some {c : Call} (hcur : s.task i = some cur) (hcall : s.call i = some c) :
    s.holds (some i) = objects cur taskSlots ++ c.refs := by
  simp only [Sys.holds, taskRefs, hcur, hcall, Option.elim_some]

omit [DecidableEq I] in
theorem Sys.dead_some {c : Call} (hcall : s.call i = some c) : s.dead (some i) = c.dead := by
  simp only [Sys.dead, hcall, Option.elim_some]

/-! ## Beginning a call, and the end of a task

A call that begins holds nothing, so nothing changes. A task that exits gives back all its
references; it is in no call then, because exiting is something a task does itself. -/

/-- A call that has taken nothing yet. -/
theorem Sys.Inv.begin (hinv : s.Inv) {c : Call} (hcur : s.task i = some cur)
    (hcall : s.call i = none) (hrefs : c.refs = []) (hdead : c.dead = [])
    (hok : c.Ok cur s.heap) (hlocked : c.locked = false) : (s.setCall i (some c)).Inv := by
  show Sys.Inv ⟨s.heap, s.task, Function.update s.call i (some c), s.tasklist, [] ++ s.outside⟩
  refine hinv.call hcur ?_ ?_ (by rintro x ⟨⟩) ?_
  -- neither the task nor the call has got anything
  · have hholds : s.holds (some i) = taskRefs (some cur) (some c) ++ [] := by
      simp only [Sys.holds, taskRefs, hcur, hcall, hrefs, Option.elim_some, Option.elim_none,
        List.append_nil]
    have hnone : s.dead (some i) = (some c).elim [] Call.dead := by
      simp only [Sys.dead, hcall, hdead, Option.elim_some, Option.elim_none]
    rw [hholds, hnone]
    exact .refl _ _ _
  · rintro _ ⟨⟩
    exact hok
  · have hsame : (s.call i).any Call.locked = (some c).any Call.locked := by
      rw [hcall, Option.any_some, hlocked]
      rfl
    rw [hsame]
    exact .keep _ _

/-- `exit`: all references of the task are given back. -/
theorem Sys.Inv.exit {s' : Sys I} (hinv : s.Inv) (hstep : s.exit i = some s') : s'.Inv := by
  unfold Sys.exit at hstep
  split at hstep
  · next p hp hcall =>
    cases hstep
    -- all references of the task are put, and the call has none
    have hdeal : Deal s.heap (s.holds (some i)) (s.dead (some i))
        ((objects p taskSlots).foldl Heap.put s.heap) ([] ++ []) [] := by
      have hholds : s.holds (some i) = objects p taskSlots ++ [] := by
        simp only [Sys.holds, taskRefs, hp, hcall, Option.elim_some, Option.elim_none]
      have hnone : s.dead (some i) = [] := by
        simp only [Sys.dead, hcall, Option.elim_none]
      rw [hholds, hnone]
      exact .putAll
    have htask : ∀ {j q}, Function.update s.task i none j = some q → j ≠ i ∧ s.task j = some q := by
      intro j q hq
      by_cases hj : j = i
      · subst hj
        rw [Function.update_self] at hq
        cases hq
      · rw [Function.update_of_ne hj] at hq
        exact ⟨hj, hq⟩
    have hsame : Function.update s.call i none = s.call := by
      rw [← hcall, Function.update_eq_self]
    refine ⟨?_, fun j c hc => ?_, fun j q hq => hinv.solid j q (htask hq).2, fun j q c hq hc => ?_,
      hinv.outside, fun j k q r hq hr => ?_, hinv.locked⟩
    -- the counts, with the task as a holder of nothing
    · obtain ⟨A, hheld⟩ := hinv.held
      have hgive := hheld.give (Option.some_ne_none i).symm hdeal
      refine ⟨insert none (insert (some i) A), ?_⟩
      have hholds := Sys.holds_update s i none none ((objects p taskSlots).foldl Heap.put s.heap)
        s.tasklist s.outside
      have hnone := Sys.dead_update s i (Function.update s.task i none) none
        ((objects p taskSlots).foldl Heap.put s.heap) s.tasklist s.outside
      rw [hsame] at hholds hnone
      rw [hholds, hnone]
      exact hgive
    -- it was in no call, so calls are those of others
    · have hj : j ≠ i := by
        rintro rfl
        rw [show s.call j = some c from hc] at hcall
        cases hcall
      simp only [Function.update_of_ne hj]
      exact hinv.caller j c hc
    -- the others do not notice, and groups only become smaller
    · obtain ⟨hj, hold⟩ := htask hq
      exact hinv.others hdeal hj hold hc
    · exact hinv.grouped j k q r (htask hq).2 (htask hr).2
  · cases hstep

/-! ## A step of `ksys_unshare`

This is the only call that changes the pointers of a task that already runs. It never touches the
signal struct, the handlers or the address space, so thread groups stay as they are. -/

/-- A step of `ksys_unshare` keeps the invariant. -/
theorem Sys.Inv.unshare (hinv : s.Inv) {c : Unshare} (hcur : s.task i = some cur)
    (hcall : s.call i = some (.unshare c)) {e : Env I}
    {r : Option Unshare × Ptrs × Refs × List Obj} (hstep : unshareStep e cur s.heap c = some r) :
    Sys.Inv ⟨r.2.2.1, Function.update s.task i (some r.2.1),
      Function.update s.call i (r.1.map .unshare), s.tasklist, r.2.2.2 ++ s.outside⟩ := by
  have hgoes := unshareStep_goes (hinv.solid i cur hcur) (hinv.ok i cur _ hcur hcall) hstep
  refine hinv.act hcur ?_ ?_ hgoes.solid hgoes.same (fun x hx => ?_) ?_
  -- the deal, with what is left of the call
  · rw [Sys.holds_some hcur hcall, Sys.dead_some hcall]
    have hdeal := hgoes.deal
    rw [← List.append_assoc] at hdeal
    cases hr : r.1 with
    | none =>
      rw [hr] at hdeal
      exact hdeal
    | some u =>
      rw [hr] at hdeal
      exact hdeal
  -- what the rest of the call relies on
  · intro c' hc'
    obtain ⟨u, hu, rfl⟩ := Option.map_eq_some_iff.mp hc'
    exact hgoes.ok u hu
  · rw [hgoes.lost_nsproxy x hx]
    decide
  -- no step of `ksys_unshare` is in the locked section
  · have hbefore : (s.call i).any Call.locked = false := by
      rw [hcall]
      rfl
    have hafter : (r.1.map Call.unshare).any Call.locked = false := by
      cases r.1 <;> rfl
    rw [hbefore, hafter]
    exact .keep _ _

/-! ## A step of `copy_process`

Most stages change only what the call holds, and `Goes` has all that is needed. Those that do more
have a lemma each: `anon_inode_getfile` fills two slots at once, `fd_install` hands the file of the
pidfd over to user space, and at `attach_pid` the new task becomes visible and the lock is
released. -/

/-- The call goes on as `Goes` says. -/
theorem Sys.Inv.goes (hinv : s.Inv) {c : Copy} (hcur : s.task i = some cur)
    (hcall : s.call i = some (.copy c)) {p' : Ptrs} {pc' : CopyPc} {tasklist : Option I}
    (hgoes : Goes c.flags cur c.p s.heap c.pc.held p' h' pc'.dup pc'.held)
    (hstart : pc' ≠ .stage .hlistAddHead)
    (hlock : LockMove i s.tasklist c.pc.locked tasklist pc'.locked) :
    Sys.Inv ⟨h', s.task, Function.update s.call i (some (.copy { c with p := p', pc := pc' })),
      tasklist, s.outside⟩ := by
  have hok := hinv.ok i cur _ hcur hcall
  show Sys.Inv ⟨h', s.task, Function.update s.call i (some (.copy { c with p := p', pc := pc' })),
    tasklist, [] ++ s.outside⟩
  refine hinv.call hcur ?_ ?_ (by rintro x ⟨⟩) ?_
  · rw [Sys.holds_some hcur hcall, Sys.dead_some hcall, List.append_nil]
    exact hgoes.deal
  · rintro _ ⟨⟩
    exact ⟨hgoes.ready, fun heq => absurd heq hstart, hok.sighand_of_thread, hok.vm_of_sighand⟩
  · rw [hcall]
    exact hlock

/-- The call returns, with nothing left. -/
theorem Sys.Inv.done (hinv : s.Inv) {c : Copy} (hcur : s.task i = some cur)
    (hcall : s.call i = some (.copy c))
    (hgoes : Goes c.flags cur c.p s.heap c.pc.held c.p h' false [])
    (hlocked : c.pc.locked = false) :
    Sys.Inv ⟨h', s.task, Function.update s.call i none, s.tasklist, s.outside⟩ := by
  show Sys.Inv ⟨h', s.task, Function.update s.call i none, s.tasklist, [] ++ s.outside⟩
  refine hinv.call hcur ?_ (by rintro _ ⟨⟩) (by rintro x ⟨⟩) ?_
  · rw [Sys.holds_some hcur hcall, Sys.dead_some hcall, List.append_nil]
    exact hgoes.deal
  · rw [hcall, Option.any_some, Call.locked, hlocked]
    exact .keep _ _

/-- The locked section is entered and left by stages of their own. -/
theorem Stage.locked_next {st : Stage} (hst : st.plain = true) :
    (CopyPc.stage st.next).locked = (CopyPc.stage st).locked := by
  cases st <;> first | rfl | cases hst

theorem Stage.locked_fail {st : Stage} (hst : st.plain = true) :
    (CopyPc.label st.fail).locked = (CopyPc.stage st).locked := by
  cases st <;> first | rfl | cases hst

theorem Stage.next_ne (st : Stage) : CopyPc.stage st.next ≠ .stage .hlistAddHead := by
  cases st <;> exact fun heq => Stage.noConfusion (CopyPc.stage.inj heq)

variable {e : Env I} {s' : Sys I} {flags : CloneFlags} {initPid : Bool} {p : Ptrs}

/-- The stages before the locked section, and the checks in it. -/
theorem Sys.Inv.plainStage (hinv : s.Inv) {st : Stage} (hplain : st.plain = true)
    (hcur : s.task i = some cur) (hcall : s.call i = some (.copy ⟨flags, initPid, p, .stage st⟩))
    (hstep : s.copyStep i e cur ⟨flags, initPid, p, .stage st⟩ = some s') : s'.Inv := by
  have hok := hinv.ok i cur _ hcur hcall
  -- all these stages go through `Stage.run`
  have hrun : (st.run e flags initPid cur p s.heap).map (fun r =>
      { s.setCall i (some (.copy ⟨flags, initPid, r.2.1,
        if r.1 then .stage st.next else .label st.fail⟩)) with heap := r.2.2 }) = some s' := by
    cases st <;> first | (cases hplain; done) | exact hstep
  obtain ⟨r, hr, rfl⟩ := Option.map_eq_some_iff.mp hrun
  have hgoes := Stage.goes hplain hok.ready (hinv.solid i cur hcur)
    (fun heq => hok.start (congrArg CopyPc.stage heq)) hr
  refine hinv.goes hcur hcall hgoes ?_ ?_
  -- the first stage is never come back to
  · split
    · exact Stage.next_ne st
    · rintro ⟨⟩
  -- a plain stage neither takes nor releases the lock
  · have hlocked : (if r.1 then CopyPc.stage st.next else .label st.fail).locked =
        (CopyPc.stage st).locked := by
      split
      · exact Stage.locked_next hplain
      · exact Stage.locked_fail hplain
    rw [hlocked]
    exact .keep _ _

/-- The stage with the file of the pidfd. -/
theorem Sys.Inv.anonInodeGetfile (hinv : s.Inv) (hcur : s.task i = some cur)
    (hcall : s.call i = some (.copy ⟨flags, initPid, p, .stage .anonInodeGetfile⟩))
    (hstep : s.copyStep i e cur ⟨flags, initPid, p, .stage .anonInodeGetfile⟩ = some s') :
    s'.Inv := by
  have hready := (hinv.ok i cur _ hcur hcall).ready
  obtain ⟨r, hr, rfl⟩ := Option.map_eq_some_iff.mp hstep
  have hgoes : Goes flags cur p s.heap (.fd :: taken 0) r.2.1 r.2.2 r.1
      (if r.1 then .pidfile :: .pidRef :: .fd :: taken 0 else taken 0) := by
    -- with `CLONE_PIDFD` the two slots are filled, otherwise they do not count
    simp only [Stage.run] at hr
    split at hr
    · next hflag => exact anonInodeGetfile_goes hflag hready hr
    · next hflag =>
      cases hr
      have hfile : counted flags .pidfile = true → p .pidfile = none := fun hc => absurd hc hflag
      have href : counted flags .pidRef = true → p .pidRef = none := fun hc => absurd hc hflag
      refine ⟨?_, (hready.cons rfl rfl rfl).cons rfl rfl rfl⟩
      rw [if_pos rfl, refs_cons_none hfile, refs_cons_none href]
      exact .refl _ _ _
  obtain ⟨ok, p', h'⟩ := r
  cases ok with
  | true => exact hinv.goes hcur hcall hgoes (by rintro ⟨⟩) (.keep _ _)
  | false => exact hinv.goes hcur hcall hgoes (by rintro ⟨⟩) (.keep _ _)

/-- The references for slots of two lists. -/
theorem refs_append (flags : CloneFlags) (p : Ptrs) (l l' : List Slot) :
    refs flags p (l ++ l') = refs flags p l ++ refs flags p l' := List.filterMap_append ..

/-- Where all slots are counted, the references are the objects. -/
theorem refs_eq_objects {l : List Slot} (hc : ∀ t ∈ l, counted flags t = true) :
    refs flags p l = objects p l := List.filterMap_congr fun t ht => if_pos (hc t ht)

/-- The pidfd becomes visible, and with it the references behind it. -/
theorem Sys.Inv.fdInstall (hinv : s.Inv) (hcur : s.task i = some cur)
    (hcall : s.call i = some (.copy ⟨flags, initPid, p, .stage .fdInstall⟩))
    (hstep : s.copyStep i e cur ⟨flags, initPid, p, .stage .fdInstall⟩ = some s') : s'.Inv := by
  have hok := hinv.ok i cur _ hcur hcall
  -- the three slots of the pidfd count exactly with `CLONE_PIDFD`
  have hpidfd : ∀ t ∈ [Slot.pidfile, .pidRef, .fd], counted flags t = flags.pidfd ∧
      ∀ a, (t.obj a).1 ∈ [Slot.fd, .pidfile, .pid, .nsproxy] := by
    intro t ht
    simp only [List.mem_cons, List.not_mem_nil, or_false] at ht
    rcases ht with rfl | rfl | rfl <;> exact ⟨rfl, fun a => by simp [Slot.obj]⟩
  have hinstalled : refs flags p [.pidfile, .pidRef, .fd] =
      if flags.pidfd then objects p [.pidfile, .pidRef, .fd] else [] := by
    split
    · next hflag => exact refs_eq_objects fun t ht => (hpidfd t ht).1.trans hflag
    · next hflag =>
      refine List.filterMap_eq_nil_iff.mpr fun t ht => if_neg ?_
      rw [(hpidfd t ht).1]
      exact hflag
  cases hstep
  refine hinv.call hcur ?_ ?_ (fun x hx => ?_) ?_
  -- the references of the file go outside, the cgroup stays
  · rw [Sys.holds_some hcur hcall, Sys.dead_some hcall]
    have hsplit : refs flags p [.cgroup, .pidfile, .pidRef, .fd] =
        refs flags p [.cgroup] ++ refs flags p [.pidfile, .pidRef, .fd] := refs_append flags p [_] _
    show Deal s.heap (objects cur taskSlots ++ refs flags p [.cgroup, .pidfile, .pidRef, .fd]) []
      s.heap (objects cur taskSlots ++ refs flags p [.cgroup] ++ _) []
    rw [hsplit, hinstalled, List.append_assoc]
    exact .refl _ _ _
  -- the call has the cgroup left
  · rintro _ ⟨⟩
    have hsub : ∀ t ∈ [Slot.cgroup], t ∈ Stage.fdInstall.held := by decide
    have hready : Ready flags cur p s.heap false [.cgroup] := hok.ready.sub hsub
    refine ⟨hready.congr (fun t ht => ?_) (by rintro ⟨⟩), by rintro ⟨⟩, hok.sighand_of_thread,
      hok.vm_of_sighand⟩
    exact if_pos (List.mem_singleton.mp ht)
  · split at hx
    · obtain ⟨t, ht, hxt⟩ := List.mem_filterMap.mp hx
      obtain ⟨a, -, rfl⟩ := Option.map_eq_some_iff.mp hxt
      exact (hpidfd t ht).2 a
    · cases hx
  · rw [hcall]
    exact .keep _ _

/-! ## The new task

When the task becomes visible its references change hands: what the call has gathered belongs to a
task of its own from now on. Only for a thread a count changes, that of the signal struct. That the
new task fits into the thread groups is where the flags come in, and where it is needed that an
object made for this call cannot be in the hands of any task. -/

section

variable {h : Refs} {dup : Bool}

/-- One slot. -/
theorem refs_singleton {t : Slot} (hc : counted flags t = true) :
    refs flags p [t] = slotRef t (p t) := by
  cases hp : p t with
  | none => exact refs_cons_none fun _ => hp
  | some a => exact refs_cons_some hc hp

/-- A thread has not been counted so far. -/
theorem count_objects (flags : CloneFlags) (p : Ptrs) (x : Obj) :
    (objects p taskSlots).count x = (refs flags p taskSlots).count x +
      (if flags.thread then (slotRef .signal (p .signal)).count x else 0) := by
  -- the signal struct apart, everything is counted already
  have hobjects : (objects p taskSlots).count x =
      (slotRef .signal (p .signal)).count x + (objects p (taskSlots.erase .signal)).count x := by
    rw [← List.count_append, ← objects_cons]
    exact ((List.perm_cons_erase (by decide)).filterMap _).count_eq x
  have hrefs : (refs flags p taskSlots).count x =
      (refs flags p [.signal]).count x + (refs flags p (taskSlots.erase .signal)).count x := by
    rw [← List.count_append, ← refs_append]
    exact ((List.perm_cons_erase (by decide)).filterMap _).count_eq x
  have hcounted : refs flags p (taskSlots.erase .signal) = objects p (taskSlots.erase .signal) := by
    refine refs_eq_objects fun t ht => ?_
    cases t <;> first | rfl | exact absurd ht (by decide)
  rw [hobjects, hrefs, hcounted]
  split
  · next hflag =>
    -- a thread: not among the references of the call, but one of the task
    have hnone : counted flags .signal = true → p .signal = none := by
      intro hc
      change (!flags.thread) = true at hc
      rw [hflag] at hc
      cases hc
    rw [refs_cons_none hnone]
    show _ = 0 + _ + _
    omega
  · next hflag =>
    -- a process: counted from the beginning
    have hc : counted flags .signal = true := by
      show (!flags.thread) = true
      rw [Bool.not_eq_true] at hflag
      rw [hflag]
      rfl
    rw [refs_singleton hc]
    rfl

/-- What is left to the call when the task has become visible. -/
def leftover : List Slot := [.cgroup, .pidfile, .pidRef, .fd]

/-- A thread's signal struct gets another reference. -/
theorem countThread_deal (hcur : cur .signal ≠ none)
    (hr : Ready flags cur p h dup (leftover ++ taken 0)) :
    Deal h (objects cur taskSlots ++ refs flags p (leftover ++ taken 0)) []
      (if flags.thread then getRef .signal p h else h)
      (slotRef .delayed (p .delayed) ++
        (objects cur taskSlots ++ refs flags p leftover ++ objects p taskSlots)) [] := by
  have hsplit : refs flags p (leftover ++ taken 0) =
      refs flags p leftover ++ (refs flags p taskSlots ++ slotRef .delayed (p .delayed)) := by
    rw [refs_append, show taken 0 = taskSlots ++ [.delayed] from rfl, refs_append,
      refs_singleton rfl]
  split
  -- for a thread one reference more, which the new task has
  · next hflag =>
    have hsame : p .signal = cur .signal := hr.inherit .signal (by decide) hflag
    obtain ⟨a, ha⟩ := Option.ne_none_iff_exists'.mp hcur
    rw [ha] at hsame
    simp only [getRef, hsame]
    refine (Deal.inc (List.mem_append_left _ (mem_objects (by decide) ha))).trans
      (deal_of_count fun x => ?_)
    have hx := count_objects flags p x
    have hone : slotRef .signal (some a) = [Slot.signal.obj a] := rfl
    rw [if_pos hflag, hsame, hone] at hx
    rw [hsplit, ← List.singleton_append]
    simp only [List.count_append]
    omega
  -- for a process nothing changes but the owner
  · next hflag =>
    refine deal_of_count fun x => ?_
    have hx := count_objects flags p x
    rw [if_neg hflag] at hx
    rw [hsplit]
    simp only [List.count_append]
    omega

/-- The node on the stack is taken off the list. -/
theorem attachPid_deal (hcur : cur .signal ≠ none)
    (hr : Ready flags cur p h dup (leftover ++ taken 0)) :
    Deal h (objects cur taskSlots ++ refs flags p (leftover ++ taken 0)) []
      (freeSlot .delayed p (if flags.thread then getRef .signal p h else h))
      (objects cur taskSlots ++ refs flags p leftover ++ objects p taskSlots) [] := by
  refine (countThread_deal hcur hr).trans ?_
  unfold freeSlot
  cases hp : p .delayed with
  | none => exact .refl _ _ _
  | some a =>
    refine Deal.free ?_
    have hone := hr.sole .delayed (by decide) rfl rfl a hp
    split
    · unfold getRef
      split
      · exact hone
      · rw [Heap.inc_count_ne (by rintro ⟨⟩), hone]
    · exact hone

/-- The objects the call still relies on are others. -/
theorem attachPid_count {t : Slot} (ht : t ∈ leftover) (hsole : sole flags t = true) (a : Nat) :
    (freeSlot .delayed p (if flags.thread then getRef .signal p h else h)).count (t.obj a) =
      h.count (t.obj a) := by
  have hdelayed : t ≠ .delayed := by
    rintro rfl
    exact absurd ht (by decide)
  have hsignal : t ≠ .signal := by
    rintro rfl
    exact absurd ht (by decide)
  -- the node that is freed is another object
  have hfree : ∀ h₁ : Refs, (freeSlot .delayed p h₁).count (t.obj a) = h₁.count (t.obj a) := by
    intro h₁
    unfold freeSlot
    split
    · rfl
    · exact Heap.free_count_ne (obj_ne hsole hdelayed)
  rw [hfree]
  split
  · unfold getRef
    split
    · rfl
    · exact Heap.inc_count_ne (obj_ne hsole hsignal)
  · rfl

end

/-- What only the call refers to, no task has. -/
theorem Sys.Inv.not_shared (hinv : s.Inv) {c : Copy} (hcur : s.task i = some cur)
    (hcall : s.call i = some (.copy c)) {t : Slot} (ht : t ∈ c.pc.held) (hsolid : t.solid = true)
    (hsole : sole c.flags t = true) (hc : counted c.flags t = true) (hslot : t ∈ taskSlots)
    {j : I} {q : Ptrs} (hq : s.task j = some q) : c.p t ≠ q t := by
  intro heq
  have hready := (hinv.ok i cur _ hcur hcall).ready
  obtain ⟨A, hheld⟩ := hinv.held
  -- the object has one reference, and both of them would have one
  obtain ⟨a, ha⟩ := Option.ne_none_iff_exists'.mp (hready.solid t ht hsolid)
  have hone := hready.sole t ht hsole hc a ha
  have hmine : t.obj a ∈ refs c.flags c.p c.pc.held := mem_refs ht hc ha
  have htheirs : t.obj a ∈ objects q taskSlots := mem_objects hslot (heq.symm.trans ha)
  have hholds : t.obj a ∈ s.holds (some i) := by
    rw [Sys.holds_some hcur hcall]
    exact List.mem_append_right _ hmine
  have hother : t.obj a ∈ s.holds (some j) := by
    simp only [Sys.holds, taskRefs, hq, Option.elim_some]
    exact List.mem_append_left _ htheirs
  -- the only holder would be the creator, with two references
  obtain rfl : i = j := Option.some.inj (hheld.unique hone hholds hother)
  obtain rfl : cur = q := Option.some.inj (hcur.symm.trans hq)
  exact hheld.not_twice hone (Sys.holds_some hcur hcall) htheirs hmine

/-- The new task and any other one. -/
theorem Sys.Inv.grouped_new (hinv : s.Inv) {c : Copy} (hpc : c.pc = .stage .attachPid)
    (hcur : s.task i = some cur) (hcall : s.call i = some (.copy c)) {j : I} {q : Ptrs}
    (hq : s.task j = some q) : Grouped c.p q := by
  have hok := hinv.ok i cur _ hcur hcall
  have hgroup := hinv.grouped i j cur q hcur hq
  have hheld : ∀ t ∈ taskSlots, t ∈ c.pc.held := by
    rw [hpc]
    -- at this stage all slots of the task are held
    decide
  have hsighandHeld := hheld .sighand (by decide)
  have hinherit : ∀ t ∈ taskSlots, inherits c.flags t = true → c.p t = cur t := fun t ht =>
    hok.ready.inherit t (hheld t ht)
  refine ⟨fun heq => ?_, fun heq => ?_⟩
  -- one signal struct: of two threads, whose creator shares the handlers, or of nobody else
  · cases hthread : c.flags.thread with
    | false =>
      have hown : (!c.flags.thread) = true := by rw [hthread]; rfl
      exact absurd heq
        (hinv.not_shared hcur hcall (hheld .signal (by decide)) rfl hown hown (by decide) hq)
    | true =>
      rw [hinherit .signal (by decide) hthread] at heq
      rw [hinherit .sighand (by decide) (hok.sighand_of_thread hthread)]
      exact hgroup.sighand heq
  -- common handlers: the creator shares the address space, or nobody else has them
  · cases hflag : c.flags.sighand with
    | false =>
      have hown : (!c.flags.sighand) = true := by rw [hflag]; rfl
      exact absurd heq (hinv.not_shared hcur hcall hsighandHeld rfl hown rfl (by decide) hq)
    | true =>
      rw [hinherit .sighand (by decide) hflag] at heq
      rw [hinherit .mm (by decide) (hok.vm_of_sighand hflag)]
      exact hgroup.mm heq

/-- **A new task.** The creator gives it what its call has gathered. -/
theorem Sys.Inv.spawn {child : I} {q : Ptrs} {tasklist : Option I} (hinv : s.Inv)
    (hcur : s.task i = some cur) (hnew : s.task child = none)
    (hdeal : Deal s.heap (s.holds (some i)) (s.dead (some i)) h'
      (taskRefs (some cur) c' ++ objects q taskSlots) (c'.elim [] Call.dead))
    (hok : ∀ c, c' = some c → c.Ok cur h') (hsolid : ∀ t : Slot, t.solid = true → q t ≠ none)
    (hgroup : ∀ j r, s.task j = some r → Grouped q r)
    (hlock : LockMove i s.tasklist ((s.call i).any Call.locked) tasklist (c'.any Call.locked)) :
    Sys.Inv ⟨h', Function.update s.task child (some q), Function.update s.call i c', tasklist,
      s.outside⟩ := by
  -- the number was not in use, so it is another task's and in no call
  have hci : child ≠ i := by
    rintro rfl
    rw [hcur] at hnew
    cases hnew
  have hidle : s.call child = none := by
    by_contra hbusy
    obtain ⟨c, hc⟩ := Option.ne_none_iff_exists'.mp hbusy
    exact hinv.caller child c hc hnew
  have htask : ∀ {j r}, Function.update s.task child (some q) j = some r →
      j = child ∧ r = q ∨ j ≠ child ∧ s.task j = some r := by
    intro j r hr
    by_cases hj : j = child
    · subst hj
      rw [Function.update_self] at hr
      exact Or.inl ⟨rfl, (Option.some.inj hr).symm⟩
    · rw [Function.update_of_ne hj] at hr
      exact Or.inr ⟨hj, hr⟩
  refine ⟨?_, fun j c hc => ?_, fun j r hr => ?_, fun j r c hr hc => ?_, hinv.outside,
    fun j k r u hr hu => ?_, hinv.lock hlock⟩
  -- the counts: the creator gives, the child has had nothing
  · obtain ⟨A, hheld⟩ := hinv.held
    have hsome : some child ≠ some i := fun heq => hci (Option.some.inj heq)
    have hgive := hheld.give hsome hdeal
    refine ⟨insert (some child) (insert (some i) A), ?_⟩
    rw [Sys.dead_update]
    -- the holders after the step: the creator with what is left of the call, and the child
    have hholds : Sys.holds ⟨h', Function.update s.task child (some q), Function.update s.call i c',
        tasklist, s.outside⟩ = Function.update (Function.update s.holds (some i)
          (taskRefs (some cur) c')) (some child) (objects q taskSlots ++ s.holds (some child)) := by
      funext o
      cases o with
      | none => rfl
      | some j =>
        by_cases hjc : j = child
        · subst hjc
          simp only [Sys.holds, Function.update_self, Function.update_of_ne hci, taskRefs, hnew,
            hidle, Option.elim_some, Option.elim_none, List.append_nil]
        · by_cases hji : j = i
          · subst hji
            simp only [Sys.holds, Function.update_self, Function.update_of_ne hsome.symm,
              Function.update_of_ne hjc, hcur]
          · have hne : some j ≠ some child := fun heq => hjc (Option.some.inj heq)
            have hne' : some j ≠ some i := fun heq => hji (Option.some.inj heq)
            simp only [Sys.holds, Function.update_of_ne hne, Function.update_of_ne hne',
              Function.update_of_ne hjc, Function.update_of_ne hji]
    rw [hholds]
    exact hgive
  -- a call has a task: that of the creator, or an old one
  · by_cases hjc : j = child
    · subst hjc
      simp
    · simp only [Function.update_of_ne hjc]
      by_cases hji : j = i
      · subst hji
        rw [hcur]
        exact Option.some_ne_none cur
      · simp only [Function.update_of_ne hji] at hc
        exact hinv.caller j c hc
  · rcases htask hr with ⟨-, rfl⟩ | ⟨-, hold⟩
    · exact hsolid
    · exact hinv.solid j r hold
  -- the new task is in no call
  · rcases htask hr with ⟨rfl, -⟩ | ⟨-, hold⟩
    · simp only [Function.update_of_ne hci, hidle] at hc
      cases hc
    · by_cases hji : j = i
      · subst hji
        simp only [Function.update_self] at hc
        obtain rfl : cur = r := Option.some.inj (hcur.symm.trans hold)
        exact hok c hc
      · simp only [Function.update_of_ne hji] at hc
        exact hinv.others hdeal hji hold hc
  -- the new task against itself, against the others, and the others among themselves
  · rcases htask hr with ⟨-, rfl⟩ | ⟨-, hold⟩
    · rcases htask hu with ⟨-, rfl⟩ | ⟨-, hold'⟩
      · exact .refl _
      · exact hgroup k u hold'
    · rcases htask hu with ⟨-, rfl⟩ | ⟨-, hold'⟩
      · exact (hgroup j r hold).symm
      · exact hinv.grouped j k r u hold hold'

/-- **The task becomes visible.** -/
theorem Sys.Inv.attachPid {child : I} (hinv : s.Inv) (hcur : s.task i = some cur)
    (hcall : s.call i = some (.copy ⟨flags, initPid, p, .stage .attachPid⟩))
    (hstep : s.attachPid i child ⟨flags, initPid, p, .stage .attachPid⟩ = some s') : s'.Inv := by
  have hok := hinv.ok i cur _ hcur hcall
  have hready : Ready flags cur p s.heap true (leftover ++ taken 0) := hok.ready
  unfold Sys.attachPid at hstep
  split at hstep
  · cases hstep
  · next hnew =>
    cases hstep
    -- the two halves of the pointers
    have hobjects : objects (fun t => if t.inTask then p t else none) taskSlots =
        objects p taskSlots := by
      refine List.filterMap_congr fun t ht => ?_
      have hin : t.inTask = true := by
        revert t
        decide
      simp only [hin, if_true]
    have hrest : ∀ t ∈ leftover, (if t.inTask ∨ t = .delayed then none else p t) = p t := by
      intro t ht
      rw [if_neg]
      revert t
      decide
    refine hinv.spawn hcur hnew ?_ ?_ ?_ ?_ ?_
    -- the gathered references, dealt to the creator and the child
    · rw [Sys.holds_some hcur hcall, Sys.dead_some hcall, hobjects]
      have hdeal := attachPid_deal (hinv.solid i cur hcur .signal rfl) hready
      rw [← refs_congr hrest] at hdeal
      exact hdeal
    -- what is left to the call: the cgroup and the pidfd
    · rintro _ ⟨⟩
      have hleft : Ready flags cur p s.heap false leftover :=
        hready.sub fun t ht => List.mem_append_left _ ht
      have hsame : Ready flags cur (fun t => if t.inTask ∨ t = .delayed then none else p t) s.heap
          false leftover := hleft.congr hrest (by rintro ⟨⟩)
      refine ⟨⟨hsame.copied, hsame.inherit, hsame.solid, fun t ht hsole hc a ha => ?_⟩,
        by rintro ⟨⟩, hok.sighand_of_thread, hok.vm_of_sighand⟩
      rw [attachPid_count ht hsole]
      exact hsame.sole t ht hsole hc a ha
    -- what a task must have, it has
    · intro t ht
      have hp : p t ≠ none := hready.solid t (by cases t <;> decide) ht
      cases t <;> first | exact hp | cases ht
    -- thread groups, by the counts
    · intro j r hr
      have hgroup := hinv.grouped_new rfl hcur hcall hr
      exact ⟨hgroup.sighand, hgroup.mm⟩
    · rw [hcall]
      exact .unlock _

/-! ## All steps

What is left is to go through the labels of the system. From the invariant the two results are read
off: counts are right in every state, and between calls nothing is in use that no one refers to but
what is behind a pidfd or lost. -/

theorem Label.next_held {l : Label} (hl : l ≠ .forkOut) : l.after = l.next.held := by
  cases l <;> first | rfl | exact absurd rfl hl

/-- A step of `copy_process` keeps the invariant. -/
theorem Sys.Inv.copyStep (hinv : s.Inv) {c : Copy} (hcur : s.task i = some cur)
    (hcall : s.call i = some (.copy c)) (hstep : s.copyStep i e cur c = some s') : s'.Inv := by
  obtain ⟨flags, initPid, p, pc⟩ := c
  have hready := (hinv.ok i cur _ hcur hcall).ready
  cases pc with
  | stage st =>
    by_cases hplain : st.plain = true
    -- stages that are in `Stage.run`
    · exact hinv.plainStage hplain hcur hcall hstep
    · cases st <;> first | exact absurd rfl hplain | skip
      case anonInodeGetfile => exact hinv.anonInodeGetfile hcur hcall hstep
      -- the lock must be free
      case writeLockIrq =>
        simp only [Sys.copyStep] at hstep
        split at hstep
        · next hfree =>
          cases hstep
          have hgoes := Goes.same hready (fun _ _ => rfl) hready.copied
          refine hinv.goes hcur hcall hgoes (by rintro ⟨⟩) ?_
          rw [hfree]
          exact .lock
        · cases hstep
      case attachPid => exact hinv.attachPid hcur hcall hstep
      case fdInstall => exact hinv.fdInstall hcur hcall hstep
      -- the last stage ends the call
      case cgroupPostFork =>
        cases hstep
        exact hinv.done hcur hcall (goes_freeSlot hready (by decide) rfl rfl) rfl
  | label l =>
    -- a label, of which the first releases the lock and the last ends the call
    have hgoes := Label.goes hready
    by_cases hcancel : l = .badForkCancelCgroup
    · subst hcancel
      cases hstep
      exact hinv.goes hcur hcall hgoes (by rintro ⟨⟩) (.unlock _)
    · by_cases hout : l = .forkOut
      · subst hout
        cases hstep
        exact hinv.done hcur hcall hgoes rfl
      · have hnext : some { s.setCall i (some (.copy ⟨flags, initPid, p, .label l.next⟩)) with
            heap := l.drop flags p s.heap } = some s' := by
          cases l <;> first | exact absurd rfl hcancel | exact absurd rfl hout | exact hstep
        cases hnext
        rw [Label.next_held hout] at hgoes
        refine hinv.goes hcur hcall hgoes (by rintro ⟨⟩) ?_
        have hlocked : (CopyPc.label l.next).locked = (CopyPc.label l).locked := by
          cases l <;> first | rfl | exact absurd rfl hcancel
        rw [hlocked]
        exact .keep _ _

/-- What the checks of the flags guarantee. -/
theorem copyFlagsValid_spec {unkillable pidNsDiffers timeNsDiffers : Bool}
    (hvalid : copyFlagsValid flags unkillable pidNsDiffers timeNsDiffers = true) :
    (flags.thread = true → flags.sighand = true) ∧ (flags.sighand = true → flags.vm = true) := by
  refine ⟨fun hthread => ?_, fun hsighand => ?_⟩
  · by_contra hnot
    simp [copyFlagsValid, hthread, hnot] at hvalid
  · by_contra hnot
    simp [copyFlagsValid, hsighand, hnot] at hvalid

/-- Nothing is held before the first stage. -/
theorem CopyOk.first (cur : Ptrs) (h : Refs) (hthread : flags.thread = true → flags.sighand = true)
    (hsighand : flags.sighand = true → flags.vm = true) :
    CopyOk cur h ⟨flags, initPid, fun _ => none, .stage .hlistAddHead⟩ :=
  ⟨⟨by rintro ⟨⟩, by rintro _ ⟨⟩, by rintro _ ⟨⟩, by rintro _ ⟨⟩⟩, fun _ => rfl, hthread, hsighand⟩

/-- Everything one step of the system can do. -/
inductive SysMove (s : Sys I) : Sys I → Prop where
  | refused : SysMove s s
  | beginCopy (i : I) (cur : Ptrs) (flags : CloneFlags) (initPid : Bool)
      (hcur : s.task i = some cur) (hcall : s.call i = none)
      (hthread : flags.thread = true → flags.sighand = true)
      (hsighand : flags.sighand = true → flags.vm = true) :
      SysMove s (s.setCall i
        (some (.copy ⟨flags, initPid, fun _ => none, .stage .hlistAddHead⟩)))
  | beginUnshare (i : I) (cur : Ptrs) (flags : CloneFlags) (hcur : s.task i = some cur)
      (hcall : s.call i = none) :
      SysMove s (s.setCall i (some (.unshare ⟨flags, none, none, none, none, .checkUnshareFlags⟩)))
  | copy (i : I) (e : Env I) (cur : Ptrs) (c : Copy) (s' : Sys I) (hcur : s.task i = some cur)
      (hcall : s.call i = some (.copy c)) (hstep : s.copyStep i e cur c = some s') : SysMove s s'
  | unshare (i : I) (e : Env I) (cur : Ptrs) (c : Unshare)
      (r : Option Unshare × Ptrs × Refs × List Obj) (hcur : s.task i = some cur)
      (hcall : s.call i = some (.unshare c)) (hstep : unshareStep e cur s.heap c = some r) :
      SysMove s { s.setCall i (r.1.map .unshare) with
        heap := r.2.2.1
        task := Function.update s.task i (some r.2.1)
        outside := r.2.2.2 ++ s.outside }
  | exit (i : I) (s' : Sys I) (hstep : s.exit i = some s') : SysMove s s'

/-- **Inversion** of a step of the system. -/
theorem sysMove_of_step {l : SysLabel I} (hstep : s.step l = some s') : SysMove s s' := by
  cases l with
  | copyProcess i flags unkillable pidNsDiffers timeNsDiffers =>
    simp only [Sys.step] at hstep
    split at hstep
    · next cur hcur hcall =>
      split at hstep
      · next hvalid =>
        -- the flags have been checked, the two combinations among them
        cases hstep
        obtain ⟨hthread, hsighand⟩ := copyFlagsValid_spec hvalid
        exact .beginCopy i _ flags false hcur hcall hthread hsighand
      -- invalid flags: `-EINVAL`, and nothing has happened
      · cases hstep
        exact .refused
    · cases hstep
  | forkIdle i =>
    simp only [Sys.step] at hstep
    split at hstep
    · next cur hcur hcall =>
      cases hstep
      -- the flags of the idle task are fixed
      exact .beginCopy i _ idleFlags true hcur hcall (by decide) (by decide)
    · cases hstep
  | unshare i flags =>
    simp only [Sys.step] at hstep
    split at hstep
    · next cur hcur hcall =>
      cases hstep
      exact .beginUnshare i _ _ hcur hcall
    · cases hstep
  | prim i e =>
    simp only [Sys.step] at hstep
    split at hstep
    · next cur c hcur hcall => exact .copy i e cur c s' hcur hcall hstep
    · next cur c hcur hcall =>
      obtain ⟨r, hr, rfl⟩ := Option.map_eq_some_iff.mp hstep
      exact .unshare i e cur c r hcur hcall hr
    · cases hstep
  | exit i => exact .exit i s' hstep

/-- **One step** of the system. -/
theorem Sys.Inv.step (hinv : s.Inv) {l : SysLabel I} (hstep : s.step l = some s') : s'.Inv := by
  cases sysMove_of_step hstep with
  | refused => exact hinv
  | beginCopy i cur flags initPid hcur hcall hthread hsighand =>
    exact hinv.begin hcur hcall rfl rfl (CopyOk.first cur s.heap hthread hsighand) rfl
  | beginUnshare i cur flags hcur hcall =>
    refine hinv.begin hcur hcall rfl rfl ?_ rfl
    exact ⟨⟨rfl, rfl, rfl, rfl⟩, by rintro - _ ⟨⟩⟩
  | copy i e cur c _ hcur hcall hcopy => exact hinv.copyStep hcur hcall hcopy
  | unshare i e cur c r hcur hcall hr => exact hinv.unshare hcur hcall hr
  | exit i _ hexit => exact hinv.exit hexit

/-- At the beginning every pointer of every task is a reference. -/
theorem Sys.Inv.start (P : Population I) : (Sys.start P).Inv := by
  have htask : ∀ {j p}, (Sys.start P).task j = some p → j ∈ P.tasks ∧ p = P.ptrs j := by
    intro j p hp
    simp only [Sys.start, Option.ite_none_right_eq_some, Option.some.injEq] at hp
    exact ⟨hp.1, hp.2.symm⟩
  refine ⟨⟨P.tasks.map .some, ?_⟩, by rintro i c ⟨⟩, fun j p hp => ?_, by rintro i p c - ⟨⟩,
    by rintro x ⟨⟩, fun j k p q hp hq => ?_, fun i => ?_⟩
  -- at the beginning the counts are just those of the pointers
  · have hdead : (Sys.start P).dead = fun _ => [] := by
      funext o
      cases o <;> rfl
    have hheap : (Sys.start P).heap = .counting (P.tasks.map .some) (Sys.start P).holds := by
      refine (Heap.counting_map P.tasks .some fun i hi => ?_).symm
      simp [Sys.holds, Sys.start, taskRefs, hi]
    rw [hheap, hdead]
    refine Held.counting fun o ho => ?_
    cases o with
    | none => rfl
    | some i =>
      have hi : i ∉ P.tasks := fun hi => ho (Finset.mem_map_of_mem _ hi)
      simp [Sys.holds, Sys.start, taskRefs, hi]
  · obtain ⟨hj, rfl⟩ := htask hp
    exact P.solid j hj
  · obtain ⟨hj, rfl⟩ := htask hp
    obtain ⟨hk, rfl⟩ := htask hq
    exact ⟨P.sighand j hj k hk, P.mm j hj k hk⟩
  · simp [Sys.start]

/-- The invariant holds in every run. -/
theorem Sys.Inv.of_reach {P : Population I}
    (hreach : Reach Sys.step (fun _ _ => True) (Sys.start P) s) : s.Inv :=
  hreach.inv (Sys.Inv.start P) fun _ _ _ ht _ hstep => ht.step hstep

/-- **Every reference is counted.** From any tasks, in every run, however the calls interleave and
wherever they fail, no reference is given back twice or taken to an object that is gone, nothing is
freed that somebody else refers to, and no null pointer is dereferenced. Between calls the objects
in use are those of the tasks, those behind pidfds, and the `nsproxy` of an `unshare` that failed
late. -/
theorem references_of_reach {P : Population I}
    (hreach : Reach Sys.step (fun _ _ => True) (Sys.start P) s) :
    s.heap.fault = false ∧ (∃ A, Held s.heap A s.holds s.dead) ∧
      HeldBy s.tasklist (fun i => (s.call i).any Call.locked) ∧
      (∀ x ∈ s.outside, x.1 ∈ [Slot.fd, .pidfile, .pid, .nsproxy]) ∧
      ((∀ i, s.call i = none) → ∀ x, s.heap.count x ≠ none →
        x ∈ s.outside ∨ ∃ i cur, s.task i = some cur ∧ x ∈ objects cur taskSlots) := by
  have hinv := Sys.Inv.of_reach hreach
  obtain ⟨A, hheld⟩ := hinv.held
  refine ⟨hheld.counts.no_fault, ⟨A, hheld⟩, hinv.locked, hinv.outside, fun hidle x hx => ?_⟩
  -- an object in use has a holder; between calls that is a task or the kernel
  obtain ⟨o, hmem⟩ := hheld.exists_holder hx
  cases o with
  | none => exact Or.inl (hmem.resolve_right (by rintro ⟨⟩))
  | some i =>
    simp only [Sys.holds, Sys.dead, taskRefs, hidle i, Option.elim_none, List.append_nil,
      List.not_mem_nil, or_false] at hmem
    cases hcur : s.task i with
    | none =>
      rw [hcur] at hmem
      cases hmem
    | some cur =>
      rw [hcur] at hmem
      exact Or.inr ⟨i, cur, hcur, hmem⟩

end

/-- A task that has everything a task can have. -/
def fullTask : Ptrs := fun s => if s.inTask then some 0 else none

def oneTask : Population Bool where
  tasks := {false}
  ptrs := fun _ => fullTask
  solid := fun _ _ t ht => by cases t <;> first | (cases ht; done) | exact Option.some_ne_none 0
  sighand := fun _ _ _ _ _ => rfl
  mm := fun _ _ _ _ _ => rfl

/-- Everything succeeds, with memory at `a`. -/
def goodEnv (a : Nat) (ok : Bool) : Env Bool := ⟨ok, some a, false, true, true, true⟩

def noFlags : CloneFlags := { idleFlags with vm := false }

/-- A fork, and an `unshare` of the child that fails in `set_cred_ucounts`. -/
def forkAndUnshare : List (SysLabel Bool) :=
  [.copyProcess false noFlags false false false] ++
    List.replicate 37 (.prim false (goodEnv 1 true)) ++
    [.unshare true { noFlags with newuser := true, newns := true }] ++
    List.replicate 5 (.prim true (goodEnv 2 true)) ++
    List.replicate 5 (.prim true (goodEnv 2 false))

/-- The child has an address space, a policy and an io context of its own and its creator's io
bitmap. The namespaces made for the `unshare` are in use, and no task refers to them. -/
theorem references_of_forkAndUnshare :
    ∃ s : Sys Bool, Reach Sys.step (fun _ _ => True) (Sys.start oneTask) s ∧
      s.heap.fault = false ∧ s.outside = [(.nsproxy, 2)] ∧ s.heap.count (.nsproxy, 2) = some 1 ∧
      (∀ t ∈ [Slot.mm, .mempolicy, .ioContext], s.heap.count (t, 0) = some 1 ∧
        s.heap.count (t, 1) = some 1) ∧ s.heap.count (.thread, 0) = some 2 ∧
      (∀ i, s.call i = none) ∧ ∀ i cur, s.task i = some cur → cur .nsproxy ≠ some 2 := by
  have hrun : (exec Sys.step (fun _ _ => true) (Sys.start oneTask) forkAndUnshare).map
      (fun s => decide (s.outside = [(.nsproxy, 2)] ∧ s.heap.count (.nsproxy, 2) = some 1 ∧
        (∀ t ∈ [Slot.mm, .mempolicy, .ioContext], s.heap.count (t, 0) = some 1 ∧
          s.heap.count (t, 1) = some 1) ∧ s.heap.count (.thread, 0) = some 2 ∧
        (∀ i, (s.call i).isNone) ∧ ∀ i, (s.task i).map (· .nsproxy) ≠ some (some 2))) =
      some true := by
    decide +kernel
  obtain ⟨s, hreach, hs⟩ := reach_of_exec_map hrun fun _ _ _ => trivial
  obtain ⟨houtside, hcount, hown, hbitmap, hidle, htask⟩ := of_decide_eq_true hs
  refine ⟨s, hreach, (references_of_reach hreach).1, houtside, hcount, hown, hbitmap, fun i => ?_,
    fun i cur hcur hns => ?_⟩
  · exact Option.isNone_iff_eq_none.mp (hidle i)
  · refine htask i ?_
    rw [hcur]
    exact congrArg some hns

end OsHomework.Fork
