import OsHomework.Fairness.Machine
import OsHomework.Lib.Reach
import OsHomework.Lib.Table

/-!
# Fairness — two fields, one call

The two fields of a task are stored one after the other. The lock keeps other calls away in between;
a task that is copied in the middle of an update gets both fields reset before anybody can find it.

* **`Inv.move`** — a call that holds a lock is the only one to write the task, and everything a call
  has checked stays true.
* **`pair_of_free_lock`** — whenever a task's lock is free its two fields are the arguments of one
  call, the last to release the lock, or (0, 0) if there was none.
-/

namespace OsHomework.Fairness

open Lts Table

/-! ## The invariant

The lock is a field of the task, so it can be copied along with the task, and a copy of a locked
task says that a call holds a lock it never took. Such a copy is hidden until its lock has been
initialised; so the invariant speaks about locks of attached tasks only, and about each stage of a
hidden one separately. For an attached task a lock that is taken and a call that stands between
`task_lock` and `task_unlock` imply each other. -/

/-- The task at `t` is there and complete. -/
def IsAttached (tasks : Tasks) (t : Nat) : Prop := ∃ e, tasks t = some e ∧ e.Attached

/-- `same_thread_group` of two tasks that are complete. -/
def SameThreadGroup (tasks : Tasks) (t u : Nat) : Prop :=
  ∃ e e', tasks t = some e ∧ e.Attached ∧ tasks u = some e' ∧ e'.Attached ∧
    e.task.signal = e'.task.signal

/-- The caller had `CAP_SYS_ADMIN` or is in the target's thread group. -/
def Authorised (tasks : Tasks) (k : Call) (t : Nat) : Prop :=
  k.capable = true ∨ SameThreadGroup tasks k.args.caller t

/-- The task at `t` is locked by call `c` and meets `P`. -/
def Holding (tasks : Tasks) (c t : Nat) (P : Entry → Prop) : Prop :=
  ∃ e, tasks t = some e ∧ e.Attached ∧ e.task.allocLock = some c ∧ P e

/-- The task whose lock the call holds. -/
def Pc.held : Pc → Option Nat
  | .setMaxSocketAllowed t | .setPriorityLevel t | .taskUnlock t => some t
  | _ => none

/-- What a call has found out and done at each program counter. -/
def CallOk (tasks : Tasks) (c : Nat) (k : Call) : Prop :=
  match k.pc with
  | .validate => k.changed = []
  | .findTask => k.args.Valid ∧ k.changed = []
  | .permission t => k.args.Valid ∧ k.changed = [] ∧ IsAttached tasks t
  | .taskLock t => k.args.Valid ∧ k.changed = [] ∧ IsAttached tasks t ∧ Authorised tasks k t
  | .setMaxSocketAllowed t =>
    k.args.Valid ∧ Authorised tasks k t ∧ t ∈ k.changed ∧ Holding tasks c t fun _ => True
  | .setPriorityLevel t =>
    k.args.Valid ∧ Authorised tasks k t ∧ t ∈ k.changed ∧ Holding tasks c t fun e =>
      e.task.maxSocketAllowed = k.args.maxSocketAllowed
  | .taskUnlock t =>
    k.args.Valid ∧ Authorised tasks k t ∧ t ∈ k.changed ∧ Holding tasks c t fun e =>
      e.task.pair = k.args.pair ∧ e.updated = true
  | .ret r => r = 0 ∨ (r = -22 ∨ r = -3 ∨ r = -1) ∧ k.changed = []

/-- What is to hold of a task whose lock is free. -/
structure Settled (tasks : Tasks) (calls : Nat → Option Call) (t : Nat) (e : Entry) : Prop where
  reset : e.updated = false → e.task.pair = (0, 0)
  written : e.updated = true → ∃ c k, e.lastReleaser = some c ∧ calls c = some k ∧
    k.pc = .ret 0 ∧ e.task.pair = k.args.pair ∧ k.args.Valid ∧ Authorised tasks k t

/-- What holds of a task at each stage. -/
def EntryOk (tasks : Tasks) (calls : Nat → Option Call) (t : Nat) (e : Entry) : Prop :=
  match e.stage with
  | .dupTaskStruct => e.updated = false
  | .resetFields => e.updated = false ∧ e.task.pair = (0, 0)
  | .spinLockInit | .copySignal =>
    e.updated = false ∧ e.task.pair = (0, 0) ∧ e.task.allocLock = none
  | .attachPid =>
    (e.task.allocLock = none → Settled tasks calls t e) ∧
      ∀ c, e.task.allocLock = some c → ∃ k, calls c = some k ∧ k.pc.held = some t

structure Inv (s : Sys) : Prop where
  calls : ∀ c k, s.calls c = some k → CallOk s.tasks c k
  entries : ∀ t e, s.tasks t = some e → EntryOk s.tasks s.calls t e
  pids : ∀ pid t, s.pidTask pid = some t → IsAttached s.tasks t
  callers : ∀ c k, s.calls c = some k → IsAttached s.tasks k.args.caller

/-! ## What stays true

What a call has checked is about tasks that other calls and creations go on changing. But a task
that is attached never goes away in this model and never changes its thread group, and the fields of
a locked task are nobody else's business. `Keeps` is that part, common to all steps. -/

/-- Tasks that are complete stay where they are, in their thread group. -/
def Keeps (tasks tasks' : Tasks) : Prop :=
  ∀ t e, tasks t = some e → e.Attached →
    ∃ e', tasks' t = some e' ∧ e'.Attached ∧ e'.task.signal = e.task.signal

section

variable {tasks tasks' : Tasks} {calls calls' : Nat → Option Call} {c t : Nat} {k : Call}
  {e : Entry}

theorem Keeps.refl : Keeps tasks tasks := fun _ e he hattached => ⟨e, he, hattached, rfl⟩

/-- A task that was hidden may become anything. -/
theorem Keeps.hidden {p : Nat} (hp : ∀ e, tasks p = some e → ¬ e.Attached) (x : Option Entry) :
    Keeps tasks (Function.update tasks p x) := by
  intro t e he hattached
  have htp : t ≠ p := by
    rintro rfl
    exact hp e he hattached
  exact ⟨e, by rw [Function.update_of_ne htp, he], hattached, rfl⟩

/-- A task keeps its stage and its thread group. -/
theorem Keeps.write {e' : Entry} (he : tasks t = some e) (hstage : e'.stage = e.stage)
    (hsignal : e'.task.signal = e.task.signal) :
    Keeps tasks (Function.update tasks t (some e')) := by
  intro u f hf hattached
  by_cases hut : u = t
  · subst hut
    rw [he] at hf
    cases hf
    exact ⟨e', Function.update_self .., hstage.trans hattached, hsignal⟩
  · exact ⟨f, by rw [Function.update_of_ne hut, hf], hattached, rfl⟩

theorem IsAttached.keep (h : IsAttached tasks t) (hkeeps : Keeps tasks tasks') :
    IsAttached tasks' t := by
  obtain ⟨e, he, hattached⟩ := h
  obtain ⟨e', he', hattached', -⟩ := hkeeps t e he hattached
  exact ⟨e', he', hattached'⟩

theorem Authorised.keep (h : Authorised tasks k t) (hkeeps : Keeps tasks tasks') :
    Authorised tasks' k t := by
  rcases h with hcapable | ⟨e, f, he, hea, hf, hfa, hsame⟩
  · exact Or.inl hcapable
  · obtain ⟨e', he', hea', hes⟩ := hkeeps _ e he hea
    obtain ⟨f', hf', hfa', hfs⟩ := hkeeps _ f hf hfa
    exact Or.inr ⟨e', f', he', hea', hf', hfa', by rw [hes, hfs, hsame]⟩

theorem Holding.keep {P : Entry → Prop} (h : Holding tasks c t P) (hsame : tasks' t = tasks t) :
    Holding tasks' c t P := by
  obtain ⟨e, he, hrest⟩ := h
  exact ⟨e, hsame.trans he, hrest⟩

/-- A call keeps what it knows if nobody else touches the task it has locked. -/
theorem CallOk.keep (h : CallOk tasks c k) (hkeeps : Keeps tasks tasks')
    (hheld : ∀ t, k.pc.held = some t → tasks' t = tasks t) : CallOk tasks' c k := by
  unfold CallOk at h ⊢
  cases hpc : k.pc with
  | validate | findTask | ret r => simpa only [hpc] using h
  | permission t =>
    simp only [hpc] at h ⊢
    exact ⟨h.1, h.2.1, h.2.2.keep hkeeps⟩
  | taskLock t =>
    simp only [hpc] at h ⊢
    exact ⟨h.1, h.2.1, h.2.2.1.keep hkeeps, h.2.2.2.keep hkeeps⟩
  | setMaxSocketAllowed t | setPriorityLevel t | taskUnlock t =>
    simp only [hpc] at h ⊢
    exact ⟨h.1, h.2.1.keep hkeeps, h.2.2.1, h.2.2.2.keep (hheld t (by rw [hpc]; rfl))⟩

/-- A call that holds a lock: the task has it down as the holder. -/
theorem CallOk.holder (h : CallOk tasks c k) (hheld : k.pc.held = some t) :
    Holding tasks c t fun _ => True := by
  unfold CallOk at h
  cases hpc : k.pc with
  | setMaxSocketAllowed u | setPriorityLevel u | taskUnlock u =>
    simp only [hpc, Pc.held, Option.some.injEq] at h hheld
    subst hheld
    obtain ⟨e, he, hattached, hlock, -⟩ := h.2.2.2
    exact ⟨e, he, hattached, hlock, trivial⟩
  | _ =>
    rw [hpc] at hheld
    cases hheld

theorem Settled.keep (h : Settled tasks calls t e) (hkeeps : Keeps tasks tasks')
    (hret : ∀ c k, calls c = some k → k.pc = .ret 0 → calls' c = some k) :
    Settled tasks' calls' t e := by
  refine ⟨h.reset, fun hupdated => ?_⟩
  obtain ⟨c, k, hlast, hk, hpc, hpair, hvalid, hauth⟩ := h.written hupdated
  exact ⟨c, k, hlast, hret c k hk hpc, hpc, hpair, hvalid, hauth.keep hkeeps⟩

/-- What is to be shown of a task that is complete. -/
theorem EntryOk.of_attached (hattached : e.Attached)
    (hfree : e.task.allocLock = none → Settled tasks calls t e)
    (hheld : ∀ c, e.task.allocLock = some c → ∃ k, calls c = some k ∧ k.pc.held = some t) :
    EntryOk tasks calls t e := by
  unfold EntryOk
  rw [show e.stage = .attachPid from hattached]
  exact ⟨hfree, hheld⟩

/-- A task keeps its properties if calls that have returned stay as they are and the holder of its
lock holds on to it. -/
theorem EntryOk.keep (h : EntryOk tasks calls t e) (hkeeps : Keeps tasks tasks')
    (hret : ∀ c k, calls c = some k → k.pc = .ret 0 → calls' c = some k)
    (hheld : ∀ c k, calls c = some k → k.pc.held = some t → calls' c = some k) :
    EntryOk tasks' calls' t e := by
  unfold EntryOk at h ⊢
  cases hstage : e.stage with
  | attachPid =>
    simp only [hstage] at h ⊢
    refine ⟨fun hfree => (h.1 hfree).keep hkeeps hret, fun c hc => ?_⟩
    obtain ⟨k, hk, hkt⟩ := h.2 c hc
    exact ⟨k, hheld c k hk hkt, hkt⟩
  | _ => simpa only [hstage] using h

end

/-! ## One step

A step touches one call and one task. Steps that create a task touch one that nobody can find
(`Inv.hidden`), checks touch no task (`Inv.silent`), and the four operations between lock and unlock
touch the task whose lock the call has (`Inv.write`). Each operation of the source is then one short
case. -/

section

variable {s s' : Sys} {c t : Nat} {k k' : Call} {e e' : Entry}

/-- A task that nobody can find changes, appears or goes away. -/
theorem Inv.hidden (h : Inv s) {p : Nat} (hp : ∀ e, s.tasks p = some e → ¬ e.Attached)
    (x : Option Entry)
    (hx : ∀ e, x = some e → EntryOk (Function.update s.tasks p x) s.calls p e)
    {pidTask' : Int → Option Nat}
    (hpids : ∀ pid t, pidTask' pid = some t → IsAttached (Function.update s.tasks p x) t) :
    Inv ⟨Function.update s.tasks p x, pidTask', s.calls⟩ := by
  have hkeeps : Keeps s.tasks (Function.update s.tasks p x) := .hidden hp x
  refine ⟨?_, ?_, hpids, fun c k hk => (h.callers c k hk).keep hkeeps⟩
  -- a call holds locks of attached tasks only, so it does not notice
  · intro c k hk
    refine (h.calls c k hk).keep hkeeps fun t ht => ?_
    obtain ⟨e, he, hattached, -⟩ := (h.calls c k hk).holder ht
    refine Function.update_of_ne ?_ _ _
    rintro rfl
    exact hp e he hattached
  -- the entry itself is a premise; the others keep what they had
  · show ∀ t e, Function.update s.tasks p x t = some e → _
    intro t e he
    by_cases htp : t = p
    · subst htp
      rw [Function.update_self] at he
      exact hx e he
    · rw [Function.update_of_ne htp] at he
      exact (h.entries t e he).keep hkeeps (fun _ _ hk _ => hk) fun _ _ hk _ => hk

/-- A call that goes on with its arguments is still made by a task that is complete. -/
theorem Inv.callers_update (h : Inv s) (hk : s.calls c = some k) (hargs : k'.args = k.args)
    {c₂ : Nat} {k₂ : Call} (hk₂ : Function.update s.calls c (some k') c₂ = some k₂) :
    IsAttached s.tasks k₂.args.caller := by
  rcases of_update_eq_some hk₂ with ⟨-, rfl⟩ | ⟨-, hold⟩
  · rw [hargs]
    exact h.callers c k hk
  · exact h.callers c₂ k₂ hold

/-- What a call that is not the running one does not notice. -/
theorem update_calls_of_pc {calls : Nat → Option Call} (hk : calls c = some k) (k' : Call)
    {c₂ : Nat} {k₂ : Call} (hk₂ : calls c₂ = some k₂) (hpc : k₂.pc ≠ k.pc) :
    Function.update calls c (some k') c₂ = some k₂ := by
  refine update_eq_some_of_ne hk₂ ?_ _
  rintro rfl
  rw [hk] at hk₂
  cases hk₂
  exact hpc rfl

/-- What is true of a task that is not locked by the call that takes a step. -/
theorem EntryOk.update_calls {tasks tasks' : Nat → Option Entry} {calls : Nat → Option Call}
    (h : EntryOk tasks calls t e) (hkeeps : Keeps tasks tasks') (hk : calls c = some k)
    (hrun : k.pc ≠ .ret 0) (hheld : k.pc.held ≠ some t) (k' : Call) :
    EntryOk tasks' (Function.update calls c (some k')) t e := by
  refine h.keep hkeeps ?_ ?_
  · intro c₂ k₂ hk₂ hpc
    apply update_calls_of_pc hk k' hk₂
    rw [hpc]
    exact hrun.symm
  · intro c₂ k₂ hk₂ hpc
    apply update_calls_of_pc hk k' hk₂
    intro hsame
    rw [hsame] at hpc
    exact hheld hpc

/-- A call makes a step that changes no task. -/
theorem Inv.silent (h : Inv s) (hk : s.calls c = some k) (hheld : k.pc.held = none)
    (hrun : k.pc ≠ .ret 0) (hargs : k'.args = k.args) (hk' : CallOk s.tasks c k') :
    Inv { s with calls := Function.update s.calls c (some k') } := by
  refine ⟨?_, ?_, h.pids, fun c₂ k₂ hk₂ => h.callers_update hk hargs hk₂⟩
  · intro c₂ k₂ hk₂
    rcases of_update_eq_some hk₂ with ⟨rfl, rfl⟩ | ⟨-, hold⟩
    · exact hk'
    · exact h.calls c₂ k₂ hold
  · intro t e he
    exact (h.entries t e he).update_calls .refl hk hrun (by simp [hheld]) k'

/-- A call writes to the task at `t`, whose lock nobody else has. -/
theorem Inv.write (h : Inv s) (hk : s.calls c = some k) (he : s.tasks t = some e)
    (hlock : ∀ c₂, e.task.allocLock = some c₂ → c₂ = c) (hheld : ∀ u, k.pc.held = some u → u = t)
    (hrun : k.pc ≠ .ret 0) (hargs : k'.args = k.args) (hstage : e'.stage = e.stage)
    (hsignal : e'.task.signal = e.task.signal)
    (hk' : CallOk (Function.update s.tasks t (some e')) c k')
    (he' : EntryOk (Function.update s.tasks t (some e')) (Function.update s.calls c (some k'))
      t e') :
    Inv { s with
      tasks := Function.update s.tasks t (some e')
      calls := Function.update s.calls c (some k') } := by
  have hkeeps : Keeps s.tasks (Function.update s.tasks t (some e')) := .write he hstage hsignal
  refine ⟨?_, ?_, fun pid u hu => (h.pids pid u hu).keep hkeeps,
    fun c₂ k₂ hk₂ => (h.callers_update hk hargs hk₂).keep hkeeps⟩
  -- the call itself is a premise
  · intro c₂ k₂ hk₂
    rcases of_update_eq_some hk₂ with ⟨rfl, rfl⟩ | ⟨hc, hold⟩
    · exact hk'
    · refine (h.calls c₂ k₂ hold).keep hkeeps fun u hu => ?_
      -- another call cannot hold the lock of `t`
      refine Function.update_of_ne ?_ _ _
      rintro rfl
      obtain ⟨f, hf, -, hfc, -⟩ := (h.calls c₂ k₂ hold).holder hu
      rw [he] at hf
      cases hf
      exact hc (hlock c₂ hfc)
  · intro u f hf
    rcases of_update_eq_some hf with ⟨rfl, rfl⟩ | ⟨hut, hold⟩
    · exact he'
    · have hother : k.pc.held ≠ some u := fun hu => hut (hheld u hu)
      exact (h.entries u f hold).update_calls hkeeps hk hrun hother k'

/-- The task a call has locked, after a store to it. -/
theorem Inv.store (h : Inv s) (hk : s.calls c = some k) (hheld : k.pc.held = some t)
    (he : s.tasks t = some e) (hheld' : k'.pc.held = some t) (hargs : k'.args = k.args)
    (hstage : e'.stage = e.stage) (hsignal : e'.task.signal = e.task.signal)
    (hlock : e'.task.allocLock = e.task.allocLock)
    (hk' : CallOk (Function.update s.tasks t (some e')) c k') :
    Inv { s with
      tasks := Function.update s.tasks t (some e')
      calls := Function.update s.calls c (some k') } := by
  -- the task is locked by this very call
  obtain ⟨f, hf, hattached, hfc, -⟩ := (h.calls c k hk).holder hheld
  rw [he] at hf
  cases hf
  refine h.write hk he ?_ ?_ ?_ hargs hstage hsignal hk' ?_
  · intro c₂ hc₂
    exact Option.some.inj (hc₂.symm.trans hfc)
  · intro u hu
    exact Option.some.inj (hu.symm.trans hheld)
  · intro hret
    rw [hret] at hheld
    cases hheld
  · refine .of_attached (hstage.trans hattached) (fun hfree => ?_) fun c₂ hc₂ => ?_
    · rw [hlock, hfc] at hfree
      cases hfree
    · rw [hlock, hfc] at hc₂
      cases hc₂
      exact ⟨k', Function.update_self .., hheld'⟩

/-- The caller may change the task. -/
theorem Inv.allowed (h : Inv s) (hk : s.calls c = some k) {capable : Bool} {current : Entry}
    (hpc : k.pc = .permission t) (hcurrent : s.tasks k.args.caller = some current)
    (he : s.tasks t = some e) (hallowed : capable = true ∨ current.task.signal = e.task.signal) :
    Inv { s with
      calls := Function.update s.calls c
        (some { k with pc := .taskLock t, capable := capable }) } := by
  have hcall := h.calls c k hk
  unfold CallOk at hcall
  rw [hpc] at hcall
  obtain ⟨hvalid, hchanged, hattached⟩ := hcall
  -- a check reads the task without its lock; what it found stays true because signals never change
  refine h.silent hk (by rw [hpc]; rfl) (by simp [hpc]) rfl ?_
  refine ⟨hvalid, hchanged, hattached, hallowed.imp_right fun hsame => ?_⟩
  obtain ⟨f, hf, hfa⟩ := h.callers c k hk
  obtain ⟨g, hg, hga⟩ := hattached
  rw [hcurrent] at hf
  rw [he] at hg
  cases hf
  cases hg
  exact ⟨current, e, hcurrent, hfa, he, hga, hsame⟩

/-- The lock is taken: nobody had it. -/
theorem Inv.taskLock (h : Inv s) (hk : s.calls c = some k) (hpc : k.pc = .taskLock t)
    (he : s.tasks t = some e) (hfree : e.task.allocLock = none) :
    Inv { s with
      tasks := Function.update s.tasks t
        (some { e with task := { e.task with allocLock := some c } })
      calls := Function.update s.calls c
        (some { k with pc := .setMaxSocketAllowed t, changed := t :: k.changed }) } := by
  have hcall := h.calls c k hk
  unfold CallOk at hcall
  rw [hpc] at hcall
  obtain ⟨hvalid, -, ⟨f, hf, hattached⟩, hauth⟩ := hcall
  rw [he] at hf
  cases hf
  -- nobody held the lock, and this call held no other
  refine h.write hk he ?_ ?_ (by simp [hpc]) rfl rfl rfl ?_ ?_
  · intro c₂ hc₂
    rw [hfree] at hc₂
    cases hc₂
  · intro u hu
    rw [hpc] at hu
    cases hu
  · refine ⟨hvalid, hauth.keep (.write he rfl rfl), List.mem_cons_self, ?_⟩
    exact ⟨_, Function.update_self .., hattached, rfl, trivial⟩
  · refine .of_attached hattached (fun hnone => ?_) fun c₂ hc₂ => ?_
    · cases hnone
    · cases hc₂
      exact ⟨_, Function.update_self .., rfl⟩

/-- The lock is released: the pair is the one of this call. -/
theorem Inv.taskUnlock (h : Inv s) (hk : s.calls c = some k) (hpc : k.pc = .taskUnlock t)
    (he : s.tasks t = some e) :
    Inv { s with
      tasks := Function.update s.tasks t
        (some { e with task := { e.task with allocLock := none }, lastReleaser := some c })
      calls := Function.update s.calls c (some { k with pc := .ret 0 }) } := by
  have hcall := h.calls c k hk
  unfold CallOk at hcall
  rw [hpc] at hcall
  obtain ⟨hvalid, hauth, hchanged, f, hf, hattached, hlock, hpair, hupdated⟩ := hcall
  rw [he] at hf
  cases hf
  -- with the lock free again the task must be settled: its pair is the one just stored
  refine h.write hk he ?_ ?_ (by simp [hpc]) rfl rfl rfl (Or.inl rfl) ?_
  · intro c₂ hc₂
    exact Option.some.inj (hc₂.symm.trans hlock)
  · intro u hu
    rw [hpc] at hu
    exact (Option.some.inj hu).symm
  · refine .of_attached hattached (fun _ => ⟨fun hnot => ?_, fun _ => ?_⟩) fun c₂ hc₂ => ?_
    · rw [show e.updated = false from hnot] at hupdated
      cases hupdated
    · exact ⟨c, _, rfl, Function.update_self .., rfl, hpair, hvalid,
        hauth.keep (.write he rfl rfl)⟩
    · cases hc₂

/-- An operation of a call keeps the invariant. -/
theorem Inv.callMove (h : Inv s) (hk : s.calls c = some k) {tasks' : Tasks}
    (hmove : CallMove c s.pidTask s.tasks k k' tasks') :
    Inv { s with tasks := tasks', calls := Function.update s.calls c (some k') } := by
  have hcall := h.calls c k hk
  unfold CallOk at hcall
  cases hmove with
  | invalid hpc =>
    rw [hpc] at hcall
    refine h.silent hk (by rw [hpc]; rfl) (by simp [hpc]) rfl ?_
    exact Or.inr ⟨Or.inl rfl, hcall⟩
  | valid hpc hvalid =>
    -- the arguments are checked before anything else
    rw [hpc] at hcall
    refine h.silent hk (by rw [hpc]; rfl) (by simp [hpc]) rfl ?_
    exact ⟨hvalid, hcall⟩
  | noTask hpc =>
    rw [hpc] at hcall
    refine h.silent hk (by rw [hpc]; rfl) (by simp [hpc]) rfl ?_
    exact Or.inr ⟨Or.inr (Or.inl rfl), hcall.2⟩
  | found t hpc hpid =>
    rw [hpc] at hcall
    refine h.silent hk (by rw [hpc]; rfl) (by simp [hpc]) rfl ?_
    exact ⟨hcall.1, hcall.2, h.pids _ t hpid⟩
  | denied t hpc =>
    rw [hpc] at hcall
    refine h.silent hk (by rw [hpc]; rfl) (by simp [hpc]) rfl ?_
    exact Or.inr ⟨Or.inr (Or.inr rfl), hcall.2.1⟩
  | allowed t capable current e hpc hcurrent he hallowed =>
    exact h.allowed hk hpc hcurrent he hallowed
  | lock t e hpc he hfree => exact h.taskLock hk hpc he hfree
  | storeMax t e hpc he =>
    rw [hpc] at hcall
    obtain ⟨hvalid, hauth, hchanged, f, hf, hattached, hlock, -⟩ := hcall
    rw [he] at hf
    cases hf
    refine h.store hk (by rw [hpc]; rfl) he rfl rfl rfl rfl rfl ?_
    refine ⟨hvalid, hauth.keep (.write he rfl rfl), hchanged, ?_⟩
    exact ⟨_, Function.update_self .., hattached, hlock, rfl⟩
  | storePriority t e hpc he =>
    rw [hpc] at hcall
    obtain ⟨hvalid, hauth, hchanged, f, hf, hattached, hlock, hmax⟩ := hcall
    rw [he] at hf
    cases hf
    refine h.store hk (by rw [hpc]; rfl) he rfl rfl rfl rfl rfl ?_
    refine ⟨hvalid, hauth.keep (.write he rfl rfl), hchanged, ?_⟩
    refine ⟨_, Function.update_self .., hattached, hlock, ?_, rfl⟩
    -- the first store is still there
    show (e.task.maxSocketAllowed, k.args.priorityLevel) = k.args.pair
    rw [hmax]
    rfl
  | unlock t e hpc he => exact h.taskUnlock hk hpc he

/-- What `copy_process` does to a task that nobody can find yet. -/
theorem EntryOk.copyProcess {tasks tasks' : Tasks} {calls : Nat → Option Call} {p : Nat}
    {cloneThread : Bool} (h : EntryOk tasks calls p e)
    (hcopy : e.copyProcess p cloneThread = some e') : EntryOk tasks' calls p e' := by
  unfold EntryOk at h
  unfold Entry.copyProcess at hcopy
  split at hcopy
  · next hstage =>
    rw [hstage] at h
    cases hcopy
    exact ⟨h, rfl⟩
  · next hstage =>
    rw [hstage] at h
    cases hcopy
    exact ⟨h.1, h.2, rfl⟩
  · next hstage =>
    rw [hstage] at h
    cases hcopy
    exact ⟨h.1, h.2.1, h.2.2⟩
  · cases hcopy
  · cases hcopy

/-- Only tasks that are not attached are still being worked on. -/
theorem Entry.not_attached_of_copyProcess {p : Nat} {cloneThread : Bool}
    (h : e.copyProcess p cloneThread = some e') : ¬ e.Attached := by
  intro hattached
  unfold Entry.copyProcess at h
  rw [show e.stage = .attachPid from hattached] at h
  cases h

/-- The pids of a system in which a task that nobody can find has changed. -/
theorem Inv.pids_hidden (h : Inv s) {p : Nat} (hp : ∀ e, s.tasks p = some e → ¬ e.Attached)
    (x : Option Entry) (pid : Int) (t : Nat) (ht : s.pidTask pid = some t) :
    IsAttached (Function.update s.tasks p x) t :=
  (h.pids pid t ht).keep (.hidden hp x)

/-- A new call. -/
theorem Inv.invoke (h : Inv s) {args : Args} {current : Entry}
    (hcurrent : s.tasks args.caller = some current) (hattached : current.Attached)
    (hfree : s.calls c = none) :
    Inv { s with calls := Function.update s.calls c (some ⟨args, .validate, false, []⟩) } := by
  -- the other calls are where they were
  have hold : ∀ c₂ k₂, s.calls c₂ = some k₂ →
      Function.update s.calls c (some ⟨args, .validate, false, []⟩) c₂ = some k₂ := by
    intro c₂ k₂ hk₂
    refine update_eq_some_of_ne hk₂ ?_ _
    rintro rfl
    rw [hfree] at hk₂
    cases hk₂
  refine ⟨?_, ?_, h.pids, ?_⟩
  · intro c₂ k₂ hk₂
    rcases of_update_eq_some hk₂ with ⟨-, rfl⟩ | ⟨-, hk₂⟩
    · exact rfl
    · exact h.calls c₂ k₂ hk₂
  · intro t e he
    exact (h.entries t e he).keep .refl (fun c₂ k₂ hk₂ _ => hold c₂ k₂ hk₂)
      fun c₂ k₂ hk₂ _ => hold c₂ k₂ hk₂
  · intro c₂ k₂ hk₂
    rcases of_update_eq_some hk₂ with ⟨-, rfl⟩ | ⟨-, hk₂⟩
    · exact ⟨current, hcurrent, hattached⟩
    · exact h.callers c₂ k₂ hk₂

/-- A task becomes known; nobody has locked or written it before. -/
theorem Inv.attachPid (h : Inv s) {p : Nat} (he : s.tasks p = some e)
    (hstage : e.stage = .copySignal) (hhidden : ∀ f, s.tasks p = some f → ¬ f.Attached)
    (pid : Int) :
    Inv { s with
      tasks := Function.update s.tasks p (some { e with stage := .attachPid })
      pidTask := Function.update s.pidTask pid (some p) } := by
  have hentry := h.entries p e he
  unfold EntryOk at hentry
  rw [hstage] at hentry
  obtain ⟨hupdated, hpair, hlock⟩ := hentry
  -- the task has been reset and its lock initialised, so it is settled from the start
  refine h.hidden hhidden _ (fun f hf => ?_) ?_
  · cases hf
    refine .of_attached rfl (fun _ => ⟨fun _ => hpair, fun hwritten => ?_⟩) fun c hc => ?_
    · rw [show e.updated = true from hwritten] at hupdated
      cases hupdated
    · rw [show e.task.allocLock = some c from hc] at hlock
      cases hlock
  · intro pid' t ht
    rcases of_update_eq_some ht with ⟨-, rfl⟩ | ⟨-, ht⟩
    · exact ⟨_, Function.update_self .., rfl⟩
    · exact h.pids_hidden hhidden _ pid' t ht

/-- **Every step** keeps the invariant. -/
theorem Inv.move (h : Inv s) (hmove : Move s s') : Inv s' := by
  have hhide : ∀ {p : Nat} {e : Entry}, s.tasks p = some e → ¬ e.Attached →
      ∀ f, s.tasks p = some f → ¬ f.Attached := by
    intro p e he hnot f hf
    rw [he] at hf
    cases hf
    exact hnot
  cases hmove with
  | invoke c args current hcurrent hattached hfree => exact h.invoke hcurrent hattached hfree
  | call c k k' tasks' hk hcall => exact h.callMove hk hcall
  -- the copy may carry a lock and a half-written pair, but it is hidden
  | dup p t hp =>
    have hhidden : ∀ e, s.tasks p = some e → ¬ e.Attached := by
      intro e he
      rw [hp] at he
      cases he
    refine h.hidden hhidden _ (fun e he => ?_) (h.pids_hidden hhidden _)
    cases he
    rfl
  | copy p cloneThread e e' he hcopy =>
    have hhidden := hhide he (Entry.not_attached_of_copyProcess hcopy)
    refine h.hidden hhidden _ (fun f hf => ?_) (h.pids_hidden hhidden _)
    cases hf
    exact (h.entries p e he).copyProcess hcopy
  | attach p pid e he hstage =>
    have hnot : ¬ e.Attached := by
      rw [Entry.Attached, hstage]
      decide
    exact h.attachPid he hstage (hhide he hnot) pid
  | badFork p e he hnot =>
    -- error labels: the task goes away without having been seen
    have hhidden := hhide he hnot
    refine h.hidden hhidden _ (fun f hf => ?_) (h.pids_hidden hhidden _)
    cases hf

theorem inv_init : Inv Sys.init := by
  refine ⟨?_, ?_, ?_, ?_⟩
  · intro c k hk
    cases hk
  · intro t e he
    simp only [Sys.init] at he
    rcases of_update_eq_some he with ⟨-, rfl⟩ | ⟨-, hnone⟩
    · refine .of_attached rfl (fun _ => ⟨fun _ => rfl, fun hwritten => ?_⟩) fun c hc => ?_
      · cases hwritten
      · cases hc
    · cases hnone
  · intro pid t ht
    cases ht
  · intro c k hk
    cases hk

theorem Inv.of_reach (h : Reach Sys.step (fun _ _ => True) Sys.init s) : Inv s :=
  h.inv inv_init fun _ _ _ hinv _ hstep => hinv.move (move_of_step hstep)

/-! ## What a call changes

`changed` is not part of the program. That a call has changed nothing is only worth saying if every
write is recorded there, and this is what is shown here: a task that is different afterwards is in
the list, and nothing is ever removed from it. -/

/-- A call writes no task but those it has down as changed. -/
theorem CallMove.changed {pidTask : Int → Option Nat} {tasks tasks' : Tasks}
    (hmove : CallMove c pidTask tasks k k' tasks') (hok : CallOk tasks c k)
    (hne : tasks' t ≠ tasks t) : t ∈ k'.changed := by
  have hself : ∀ (u : Nat) (x : Option Entry), Function.update tasks u x t ≠ tasks t → t = u :=
    fun u x hx => by_contra fun htu => hx (Function.update_of_ne htu ..)
  unfold CallOk at hok
  cases hmove with
  | lock u e hpc he hfree =>
    rw [hself u _ hne]
    exact List.mem_cons_self
  | storeMax u e hpc he | storePriority u e hpc he | unlock u e hpc he =>
    rw [hpc] at hok
    rw [hself u _ hne]
    exact hok.2.2.1
  | _ => exact absurd rfl hne

/-- What a call has down as changed stays there. -/
theorem CallMove.changed_subset {pidTask : Int → Option Nat} {tasks tasks' : Tasks}
    (hmove : CallMove c pidTask tasks k k' tasks') : k.changed ⊆ k'.changed := by
  cases hmove with
  | lock u e hpc he hfree => exact List.subset_cons_self u k.changed
  | _ => exact List.Subset.refl k.changed

/-- The number of sockets of a task is no call's business. -/
theorem CallMove.socketCount_eq {pidTask : Int → Option Nat} {tasks tasks' : Tasks}
    (hmove : CallMove c pidTask tasks k k' tasks') (t : Nat) :
    (tasks' t).map (·.task.socketCount) = (tasks t).map (·.task.socketCount) := by
  have hwrite : ∀ (u : Nat) (e e' : Entry), tasks u = some e →
      e'.task.socketCount = e.task.socketCount →
      (Function.update tasks u (some e') t).map (·.task.socketCount) =
        (tasks t).map (·.task.socketCount) := by
    intro u e e' he heq
    by_cases htu : t = u
    · rw [htu, Function.update_self, he, Option.map_some, Option.map_some, heq]
    · rw [Function.update_of_ne htu]
  cases hmove with
  | lock u e hpc he hfree => exact hwrite u e _ he rfl
  | storeMax u e hpc he | storePriority u e hpc he | unlock u e hpc he =>
    exact hwrite u e _ he rfl
  | _ => rfl

end

/-- **A pair from one call.** In every state that any number of calls and creations of tasks can
reach:
- a task that is complete and whose lock is free has the pair (0, 0) if no call has written it
  since it was created, and otherwise the non-negative arguments of the call that released the lock
  last, whose caller had `CAP_SYS_ADMIN` or is in the thread group of the task;
- a call that has returned something else than 0 has returned `-EINVAL`, `-ESRCH` or `-EPERM` and
  has changed no task;
- the next operation of a call writes only tasks that count as changed by it from then on, and no
  task's `socket_count`. -/
theorem pair_of_free_lock (s : Sys) (h : Reach Sys.step (fun _ _ => True) Sys.init s) :
    (∀ t e, s.tasks t = some e → e.Attached → e.task.allocLock = none →
        Settled s.tasks s.calls t e) ∧
      (∀ c k r, s.calls c = some k → k.pc = .ret r → r ≠ 0 →
        (r = -22 ∨ r = -3 ∨ r = -1) ∧ k.changed = []) ∧
      ∀ c capable s', s.step (.run c capable) = some s' →
        (∃ k k', s.calls c = some k ∧ s'.calls c = some k' ∧ k.changed ⊆ k'.changed ∧
            ∀ t, s'.tasks t ≠ s.tasks t → t ∈ k'.changed) ∧
          ∀ t, (s'.tasks t).map (·.task.socketCount) = (s.tasks t).map (·.task.socketCount) := by
  have hinv := Inv.of_reach h
  refine ⟨?_, ?_, ?_⟩
  -- a free lock: the entry is settled
  · intro t e he hattached hfree
    have hentry := hinv.entries t e he
    unfold EntryOk at hentry
    rw [show e.stage = .attachPid from hattached] at hentry
    exact hentry.1 hfree
  -- an error: nothing was locked before it
  · intro c k r hk hpc hne
    have hcall := hinv.calls c k hk
    unfold CallOk at hcall
    rw [hpc] at hcall
    exact hcall.resolve_left hne
  · intro c capable s' hstep
    obtain ⟨k, hk, hrest⟩ := Option.bind_eq_some_iff.mp hstep
    obtain ⟨⟨k', tasks'⟩, hcall, hs'⟩ := Option.bind_eq_some_iff.mp hrest
    cases hs'
    have hmove := callMove_of_step hcall
    refine ⟨⟨k, k', hk, Function.update_self .., hmove.changed_subset, fun t hne => ?_⟩,
      hmove.socketCount_eq⟩
    exact hmove.changed (hinv.calls c k hk) hne

/-- Task 0 makes a process, finds it under pid 7 and sets its pair to (4, 2). A second call of the
process itself is between its two stores when the process is copied once more. -/
def configureRun : List Label :=
  [.dupTaskStruct 0 1, .copyProcess 1 false, .copyProcess 1 false, .copyProcess 1 false,
    .attachPid 1 7, .invoke 0 ⟨0, 7, 4, 2⟩, .run 0 true, .run 0 true, .run 0 true, .run 0 true,
    .run 0 true, .run 0 true, .run 0 true, .invoke 1 ⟨1, 7, 9, 9⟩, .run 1 false, .run 1 false,
    .run 1 false, .run 1 false, .run 1 false, .dupTaskStruct 1 2, .copyProcess 2 false,
    .copyProcess 2 false, .copyProcess 2 false, .attachPid 2 8, .run 1 false, .run 1 false]

theorem pair_of_free_lock_run :
    ∃ s e, Reach Sys.step (fun _ _ => True) Sys.init s ∧ s.tasks 1 = some e ∧ e.updated = true ∧
      Settled s.tasks s.calls 1 e := by
  have hrun : (exec Sys.step (fun _ _ => true) Sys.init configureRun).map (fun s =>
      s.tasks 1) = some (some ⟨⟨9, 9, 0, 1, none⟩, .attachPid, true, some 1⟩) := by
    decide +kernel
  obtain ⟨s, hreach, he⟩ := reach_of_exec_map hrun fun _ _ _ => trivial
  exact ⟨s, _, hreach, he, rfl, (pair_of_free_lock s hreach).1 1 _ he rfl rfl⟩

end OsHomework.Fairness
