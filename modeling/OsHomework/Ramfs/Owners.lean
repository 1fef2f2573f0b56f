import OsHomework.Lib.Table
import OsHomework.Ramfs.Handles

/-!
# Ramfs — nothing is lost and nobody waits for ever

The calls of `Handles` seen together.

* **`CallSpec`** — everything a step of a call does to the pool and the locks; `spec_of_step`.
* **`OwnInv.step`** — what is out is held by a call that is still running, or is the string that is
  bound; a lock is held by a call that is going to release it.
* **`Call.uses_owned`** — what a call uses at a program counter is among what it owns there.
* **`handles_of_reach`** — so in every run nothing is leaked, nothing is freed twice, nothing is
  used that is gone and nobody waits for ever.
* **`print_of_undisturbed`** — the one place that reads what others may have freed.
-/

namespace OsHomework.Ramfs.Handles

open ByteFile Holdings Lts

variable {I : Type*}

/-! ## What a step of a call does

A call holds what its local variables point to, and which of them are set is determined by where it
stands (`Shape`). So is whether it has a lock. With that a step is described without its program
counter: what it does to the pool is a deal of its owner, what it does to a lock a lock move. All
that comes later uses this description only. -/

/-- Which locals of a bind write own something at a program counter. -/
def BindFrame.Shape (f : BindFrame) : BindPc → Prop
  -- nothing has been allocated
  | .kmallocKbuf => f = {}
  | .kmallocRamfsPath => ∃ k, f = { kbuf := some k }
  | .kmallocSyncPath => ∃ k r, f = { kbuf := some k, ramfsPath := some r }
  | .copyFromUser | .parseMountPath | .kernPath => ∃ k r y,
    f = { kbuf := some k, ramfsPath := some r, syncPath := some y }
  -- `kern_path` and `kstrdup` have gone well
  | .assign => ∃ k r y p d,
    f = { kbuf := some k, ramfsPath := some r, syncPath := some y, path := some p,
          newDir := some d }
  | _ => ∃ k r y p, f = { kbuf := some k, ramfsPath := some r, syncPath := some y, path := some p }

/-- The same for a write to the sync file. -/
def SyncFrame.Shape (f : SyncFrame) : SyncPc → Prop
  | .kmallocKbuf => f = {}
  | .copyFromUser | .kernPath => ∃ k, f = { kbuf := some k }
  | .dentryOpen => ∃ k p, f = { kbuf := some k, path := some p }

/-- What a write to the sync file has while the flush runs. -/
def SyncFrame.Opened (f : SyncFrame) : Prop := ∃ k t, f = { kbuf := some k, targetFile := .file t }

/-- The program counters that go with the phases of a flush. -/
def FlushPhase.Fits : FlushPhase → Pc → Prop
  -- the bound directory is copied in the mutex, everything else happens outside
  | .mutexLock, pc | .inMutex, pc => pc = .kstrdup
  | .mutexUnlock, pc | .run, pc => pc ≠ .kstrdup ∧ pc ≠ .rename
  | .inodeLocked, pc => pc = .lookupNew ∨ pc = .rename

/-- Where a call stands fits what it has. -/
def Call.Wf : Call → Prop
  | .bindWrite pc f => f.Shape pc
  | .bindRead _ => True
  | .syncWrite pc f => f.Shape pc
  | .flush c => c.phase.Fits c.act.pc ∧ c.frame.Shape c.act.pc ∧ ∀ f ∈ c.caller, f.Opened

/-- The call stands between a `mutex_lock` and the `mutex_unlock` behind it. -/
def Call.inMutex : Call → Bool
  -- of a bind write the statements between lock and unlock, of a read the formatting
  | .bindWrite .kstrdup _ | .bindWrite .assign _ | .bindWrite .mutexUnlock _ => true
  | .bindRead .format | .bindRead .mutexUnlock => true
  | .flush c => c.phase = .inMutex ∨ c.phase = .mutexUnlock
  | _ => false

/-- The call has the inode `n` locked. -/
def Call.hasInode (n : Node) : Call → Bool
  | .flush c => c.phase = .inodeLocked ∧ c.dir = n
  | _ => false

/-- The same for a call that may be over. -/
def ownedOf (c : Option Call) : List (Handle × Kind) := c.elim [] Call.owned

/-- The call, if there is one, is inside the mutex. -/
def inMutexOf (c : Option Call) : Bool := c.any Call.inMutex

/-- It has the inode locked. -/
def hasInodeOf (n : Node) (c : Option Call) : Bool := c.any (Call.hasInode n)

/-- Everything that can happen to the call `i` in a step: it deals with the pool on its own, or it
exchanges the bound string for one of its own; and it takes and releases the two locks in turn. -/
structure CallSpec (i : I) (c : Option Call) (s : Shared I) (c' : Option Call) (s' : Shared I) :
    Prop where
  -- the deal of an owner, or the exchange of the bound string for the call's own copy
  deal : (Deal s.pool (ownedOf c) s'.pool (ownedOf c') ∧ s'.syncDir = s.syncDir) ∨
    ∃ h, ownedOf c = (h, .memory) :: ownedOf c' ∧ s'.pool = kfree s.syncDir s.pool ∧
      s'.syncDir = some h
  mutex : LockMove i s.mutex (inMutexOf c) s'.mutex (inMutexOf c')
  dirLock : ∀ n, LockMove i (s.dirLock n) (hasInodeOf n c) (s'.dirLock n) (hasInodeOf n c')
  wf : ∀ d ∈ c', d.Wf

variable {i : I} {s s' : Shared I} {c c' : Option Call}

/-- A step that has to do with the pool only. -/
theorem CallSpec.of_pool {p : Pool Kind} {stale : Bool}
    (hdeal : Deal s.pool (ownedOf c) p (ownedOf c')) (hmutex : inMutexOf c' = inMutexOf c)
    (hinode : ∀ n, hasInodeOf n c' = hasInodeOf n c) (hwf : ∀ d ∈ c', d.Wf) :
    CallSpec i c s c' { s with pool := p, stale := stale } where
  deal := Or.inl ⟨hdeal, rfl⟩
  mutex := by
    rw [hmutex]
    exact .keep _ _
  dirLock := fun n => by
    rw [hinode n]
    exact .keep _ _
  wf := hwf

/-- A step that takes or releases the mutex. -/
theorem CallSpec.of_mutex {p : Pool Kind} {mutex : Option I}
    (hdeal : Deal s.pool (ownedOf c) p (ownedOf c'))
    (hmutex : LockMove i s.mutex (inMutexOf c) mutex (inMutexOf c'))
    (hinode : ∀ n, hasInodeOf n c' = hasInodeOf n c) (hwf : ∀ d ∈ c', d.Wf) :
    CallSpec i c s c' { s with pool := p, mutex := mutex } where
  deal := Or.inl ⟨hdeal, rfl⟩
  mutex := hmutex
  dirLock := fun n => by
    rw [hinode n]
    exact .keep _ _
  wf := hwf

/-- A lock that was taken was free. -/
theorem mutexLock_eq_some (h : s.mutexLock i = some s') :
    s.mutex = none ∧ s' = { s with mutex := some i } := by
  unfold Shared.mutexLock at h
  split at h
  · next hfree =>
    cases h
    exact ⟨hfree, rfl⟩
  · cases h

/-- The result of a `mutex_lock` that goes through. -/
theorem CallSpec.of_mutexLock {d : Call}
    (h : (s.mutexLock i).map (fun s => (some d, s)) = some (c', s')) (howned : d.owned = ownedOf c)
    (hbefore : inMutexOf c = false) (hafter : d.inMutex = true)
    (hinode : ∀ n, d.hasInode n = hasInodeOf n c) (hwf : d.Wf) : CallSpec i c s c' s' := by
  obtain ⟨t, hlock, heq⟩ := Option.map_eq_some_iff.mp h
  obtain ⟨hfree, rfl⟩ := mutexLock_eq_some hlock
  cases heq
  refine .of_mutex ?_ ?_ hinode ?_
  · show Deal s.pool (ownedOf c) s.pool d.owned
    rw [howned]
    exact .keep _ _
  · show LockMove i s.mutex (inMutexOf c) (some i) d.inMutex
    rw [hfree, hbefore, hafter]
    exact .lock
  · intro d' hd'
    cases hd'
    exact hwf

/-- **One step of a bind write.** -/
theorem spec_of_bindStep {ok : Bool} {f : BindFrame} {pc : BindPc} (hwf : f.Shape pc)
    (h : bindStep i ok s f pc = some (c', s')) : CallSpec i (some (.bindWrite pc f)) s c' s' := by
  cases pc with
  | kmallocKbuf =>
    obtain rfl := hwf
    -- success allocates one thing more, failure frees what there is
    cases ok with
    | true =>
      cases h
      exact .of_pool (.take _ _ _) rfl (fun _ => rfl) fun d hd => by cases hd; exact ⟨_, rfl⟩
    | false =>
      cases h
      exact .of_pool (.keep _ _) rfl (fun _ => rfl)
        fun d hd => by cases hd
  | kmallocRamfsPath =>
    obtain ⟨k, rfl⟩ := hwf
    cases ok with
    | true =>
      cases h
      exact .of_pool (.take _ _ _) rfl (fun _ => rfl) fun d hd => by cases hd; exact ⟨k, _, rfl⟩
    | false =>
      cases h
      exact .of_pool (.giveAll _ (.refl _)) rfl (fun _ => rfl)
        fun d hd => by cases hd
  | kmallocSyncPath =>
    obtain ⟨k, r, rfl⟩ := hwf
    cases ok with
    | true =>
      cases h
      exact .of_pool (.take _ _ _) rfl (fun _ => rfl) fun d hd => by cases hd; exact ⟨k, r, _, rfl⟩
    | false =>
      cases h
      -- the cleanup frees in the opposite order
      exact .of_pool (.giveAll _ (.swap _ _ _)) rfl (fun _ => rfl)
        fun d hd => by cases hd
  | copyFromUser =>
    cases ok with
    | true =>
      cases h
      exact .of_pool (.keep _ _) rfl (fun _ => rfl) fun d hd => by cases hd; exact hwf
    | false =>
      cases h
      obtain ⟨k, r, y, rfl⟩ := hwf
      exact .of_pool (.giveAll _ (List.reverse_perm _).symm) rfl (fun _ => rfl)
        fun d hd => by cases hd
  | parseMountPath =>
    cases ok with
    | true =>
      cases h
      exact .of_pool (.keep _ _) rfl (fun _ => rfl) fun d hd => by cases hd; exact hwf
    | false =>
      cases h
      obtain ⟨k, r, y, rfl⟩ := hwf
      exact .of_pool (.giveAll _ (List.reverse_perm _).symm) rfl (fun _ => rfl)
        fun d hd => by cases hd
  | kernPath =>
    obtain ⟨k, r, y, rfl⟩ := hwf
    cases ok with
    | true =>
      cases h
      exact .of_pool (.take _ _ _) rfl (fun _ => rfl) fun d hd => by
        cases hd; exact ⟨k, r, y, _, rfl⟩
    | false =>
      cases h
      exact .of_pool (.giveAll _ (List.reverse_perm _).symm) rfl (fun _ => rfl)
        fun d hd => by cases hd
  | checkMode =>
    cases ok with
    | true =>
      cases h
      exact .of_pool (.keep _ _) rfl (fun _ => rfl) fun d hd => by cases hd; exact hwf
    | false =>
      cases h
      obtain ⟨k, r, y, p, rfl⟩ := hwf
      -- `path_put` comes first, then the buffers
      exact .of_pool (.giveAll _ (.cons _ (List.reverse_perm _).symm)) rfl (fun _ => rfl)
        fun d hd => by cases hd
  | mutexLock => exact .of_mutexLock h rfl rfl rfl (fun _ => rfl) hwf
  | kstrdup =>
    obtain ⟨k, r, y, p, rfl⟩ := hwf
    cases ok with
    | true =>
      cases h
      exact .of_pool (.take _ _ _) rfl (fun _ => rfl) fun d hd => by
        cases hd; exact ⟨k, r, y, p, _, rfl⟩
    | false =>
      cases h
      -- the error path unlocks
      exact .of_mutex (.giveAll _ (.cons _ (List.reverse_perm _).symm)) (.unlock _) (fun _ => rfl)
        fun d hd => by cases hd
  | assign =>
    obtain ⟨k, r, y, p, d, rfl⟩ := hwf
    cases h
    -- the one step in which something changes its owner: the old string is freed, the copy is bound
    exact ⟨Or.inr ⟨d, rfl, rfl, rfl⟩, .keep _ _, fun n => .keep _ _, fun d' hd' => by
      cases hd'; exact ⟨k, r, y, p, rfl⟩⟩
  | mutexUnlock =>
    cases h
    exact .of_mutex (.keep _ _) (.unlock _) (fun _ => rfl) fun d hd => by cases hd; exact hwf
  | loadSyncDir =>
    cases h
    exact .of_pool (.keep _ _) rfl (fun _ => rfl) fun d hd => by cases hd; exact hwf
  | print dir =>
    obtain ⟨k, r, y, p, rfl⟩ := hwf
    cases h
    -- the last step frees everything but the string that is bound
    exact .of_pool (.giveAll _ (.cons _ (List.reverse_perm _).symm)) rfl (fun _ => rfl)
      fun d hd => by cases hd

/-- Reading a string that is out changes nothing. -/
theorem read_of_out {x : Option Handle} (hout : ∀ h ∈ x, s.pool.kind h = some .memory) :
    s.read x = s := by
  cases x with
  | none => rfl
  | some h =>
    have huse : s.pool.use (h, .memory) = s.pool := Pool.use_of_out (hout h rfl)
    simp only [Shared.read, huse]

/-- One step of a read of the bind file. What it formats is bound, hence out. -/
theorem spec_of_readStep {pc : ReadPc} (hsync : ∀ h ∈ s.syncDir, s.pool.kind h = some .memory)
    (h : readStep i s pc = some (c', s')) : CallSpec i (some (.bindRead pc)) s c' s' := by
  cases pc with
  | mutexLock => exact .of_mutexLock h rfl rfl rfl (fun _ => rfl) trivial
  | format =>
    rw [readStep, read_of_out hsync] at h
    cases h
    exact .of_pool (.keep _ _) rfl (fun _ => rfl) fun d hd => by cases hd; trivial
  | mutexUnlock =>
    cases h
    exact .of_mutex (.keep _ _) (.unlock _) (fun _ => rfl) fun d hd => by cases hd

/-- **One step of a write to the sync file.** -/
theorem spec_of_syncStep {e : Env} {f : SyncFrame} {pc : SyncPc} (hwf : f.Shape pc)
    (h : syncStep e s f pc = some (c', s')) : CallSpec i (some (.syncWrite pc f)) s c' s' := by
  -- an error at any point frees what has been obtained so far
  cases hok : e.outcome.isOk with
  | false =>
    cases pc with
    | kmallocKbuf =>
      obtain rfl := hwf
      simp only [syncStep, hok] at h
      cases h
      exact .of_pool (.keep _ _) rfl (fun _ => rfl)
        fun d hd => by cases hd
    | copyFromUser =>
      obtain ⟨k, rfl⟩ := hwf
      simp only [syncStep, hok] at h
      cases h
      exact .of_pool (.giveAll _ (.refl _)) rfl (fun _ => rfl)
        fun d hd => by cases hd
    | kernPath =>
      obtain ⟨k, rfl⟩ := hwf
      simp only [syncStep, hok] at h
      cases h
      exact .of_pool (.giveAll _ (.refl _)) rfl (fun _ => rfl)
        fun d hd => by cases hd
    | dentryOpen =>
      obtain ⟨k, p, rfl⟩ := hwf
      simp only [syncStep, hok] at h
      cases h
      exact .of_pool (.giveAll _ (.refl _)) rfl (fun _ => rfl)
        fun d hd => by cases hd
  | true =>
    -- success
    cases pc with
    | kmallocKbuf =>
      obtain rfl := hwf
      simp only [syncStep, hok, if_true] at h
      cases h
      exact .of_pool (.take _ _ _) rfl (fun _ => rfl) fun d hd => by cases hd; exact ⟨_, rfl⟩
    | copyFromUser =>
      simp only [syncStep, hok, if_true] at h
      cases h
      exact .of_pool (.keep _ _) rfl (fun _ => rfl) fun d hd => by cases hd; exact hwf
    | kernPath =>
      obtain ⟨k, rfl⟩ := hwf
      simp only [syncStep, hok, if_true] at h
      cases h
      exact .of_pool (.take _ _ _) rfl (fun _ => rfl) fun d hd => by cases hd; exact ⟨k, _, rfl⟩
    | dentryOpen =>
      obtain ⟨k, p, rfl⟩ := hwf
      -- the file is opened, then the path is put
      have hopen : Deal s.pool (SyncFrame.owned { kbuf := some k, path := some p })
          (pathPut (some p) (s.pool.acquire .file))
          (SyncFrame.owned { kbuf := some k, targetFile := .file s.pool.next }) :=
        (Deal.take s.pool _ .file).trans (.give _ [(p, Kind.path)] _ (.swap _ _ _))
      cases hram : e.onRamfs with
      -- the file is on the ramfs, so it is flushed
      | true =>
        simp only [syncStep, hok, hram, if_true] at h
        cases h
        refine .of_pool hopen rfl (fun _ => rfl) fun d hd => ?_
        cases hd
        exact ⟨rfl, rfl, fun f hf => by cases hf; exact ⟨k, _, rfl⟩⟩
      -- on any other file system the call ends here, with the file closed
      | false =>
        simp only [syncStep, hok, hram] at h
        cases h
        exact .of_pool (hopen.trans (.giveAll _ (.refl _))) rfl (fun _ => rfl)
          fun d hd => by cases hd

/-! ## The steps of a flush

The primitives of a flush have been looked at already, and `prim_deal` says what each of them does
to the locals. What is new here is around them: the mutex in which the bound directory is read, the
lock of the directory from the lookup of the new name to the end of the rename, and the write to the
sync file that cleans up after the flush. -/

/-- The flush comes back to its first primitive never. -/
theorem Next.ne_kstrdup {q q' : Pc} (hnext : Next q q') : q' ≠ .kstrdup := by
  rintro rfl
  cases hnext with
  | quiet hquiet => cases q <;> cases hquiet

/-- The rename is entered from one place only. -/
theorem Next.lookupNew_of_rename {q : Pc} (hnext : Next q .rename) : q = .lookupNew := by
  cases hnext with
  | quiet hquiet => cases q <;> first | rfl | cases hquiet

theorem fits_ret (code : Int) : FlushPhase.run.Fits (.ret code) := ⟨by simp, by simp⟩

/-- The program counter after a step, but for the one step to the rename. -/
theorem fits_run_of_step {src : Bytes} {o : Outcome} {a a' : Act} {v v' : Volume}
    (hpc : a.pc ≠ .lookupNew) (h : a.step src o v = some (a', v')) :
    FlushPhase.run.Fits a'.pc := by
  rcases next_of_step h with hnext | ⟨⟨code, hret⟩, -⟩
  · exact ⟨hnext.ne_kstrdup, fun hrename => hpc (hrename ▸ hnext).lookupNew_of_rename⟩
  · rw [hret]
    exact fits_ret code

/-- A primitive of a flush as a deal of the whole call. -/
theorem FlushCall.deal_of_step {src : Bytes} {o : Outcome} {a' : Act} {v v' : Volume}
    {c d : FlushCall} {p : Pool Kind} (hshape : c.frame.Shape c.act.pc)
    (h : c.act.step src o v = some (a', v')) (hcaller : d.caller = c.caller)
    (hframe : d.frame = (c.frame.prim p c.act.pc a'.pc).1) :
    Deal p c.owned (c.frame.prim p c.act.pc a'.pc).2 d.owned := by
  unfold owned
  rw [hcaller, hframe]
  exact (FlushFrame.prim_deal p hshape h).1.append _

/-- In its main phase a flush makes its next primitive. -/
theorem flushStep_run {e : Env} {c : FlushCall} (hphase : c.phase = .run)
    (hret : ∀ code, c.act.pc ≠ .ret code) (hlookup : c.act.pc ≠ .lookupNew) :
    flushStep i e s c = (c.act.step e.src e.outcome e.vol).map fun r =>
      (some (.flush { c with
        act := r.1
        frame := (c.frame.prim s.pool c.act.pc r.1.pc).1
        dir := if c.act.pc = .lookupDir then e.dir else c.dir }),
      { s with pool := (c.frame.prim s.pool c.act.pc r.1.pc).2 }) := by
  unfold flushStep
  rw [hphase]
  cases hpc : c.act.pc with
  | ret code => exact absurd hpc (hret code)
  | lookupNew => exact absurd hpc hlookup
  | _ => rfl

/-- The main phase, which ends with the lock of the directory or with the flush. -/
theorem spec_of_run {e : Env} {c : FlushCall} (hphase : c.phase = .run) (hwf : (Call.flush c).Wf)
    (h : flushStep i e s c = some (c', s')) : CallSpec i (some (.flush c)) s c' s' := by
  obtain ⟨hfits, hshape, hcaller⟩ := hwf
  rw [hphase] at hfits
  by_cases hret : ∃ code, c.act.pc = .ret code
  · -- the flush is over; its caller still has to clean up
    obtain ⟨code, hpc⟩ := hret
    -- a flush that has returned has given everything back
    have hgone : c.frame = {} := by simpa only [hpc, FlushFrame.Shape] using hshape
    have hmutex : inMutexOf (some (.flush c)) = false := by simp [inMutexOf, Call.inMutex, hphase]
    have hinode : ∀ n, hasInodeOf n (some (.flush c)) = false := by
      simp [hasInodeOf, Call.hasInode, hphase]
    simp only [flushStep, hphase, hpc] at h
    cases hc : c.caller with
    -- an `fsync` has nothing else
    | none =>
      rw [hc] at h
      cases h
      have howned : ownedOf (some (.flush c)) = [] := by
        simp only [ownedOf, Option.elim_some, Call.owned, FlushCall.owned, hgone, hc]
        rfl
      refine .of_pool ?_ hmutex.symm (fun n => (hinode n).symm)
        fun d hd => by cases hd
      rw [howned]
      exact .keep _ _
    -- a write to the sync file has its buffer and the file it opened
    | some f =>
      rw [hc] at h
      cases h
      obtain ⟨k, t, rfl⟩ := hcaller f hc
      have howned : ownedOf (some (.flush c)) = [(t, .file), (k, .memory)] := by
        simp only [ownedOf, Option.elim_some, Call.owned, FlushCall.owned, hgone, hc]
        rfl
      refine .of_pool ?_ hmutex.symm (fun n => (hinode n).symm) fun d hd => by cases hd
      rw [howned]
      exact .giveAll _ (.refl _)
  · have hret : ∀ code, c.act.pc ≠ .ret code := fun code hpc => hret ⟨code, hpc⟩
    by_cases hlookup : c.act.pc = .lookupNew
    · -- `inode_lock`
      simp only [flushStep, hphase, hlookup] at h
      split at h
      · next hfree =>
        cases h
        refine ⟨Or.inl ⟨.keep _ _, rfl⟩, ?_, fun n => ?_, fun d hd => ?_⟩
        · simp only [inMutexOf, Option.any_some, Call.inMutex, hphase]
          exact .keep _ _
        · simp only [hasInodeOf, Option.any_some, Call.hasInode, hphase]
          by_cases hn : c.dir = n
          · subst hn
            -- the lock was free
            simp only [hfree, Function.update_self]
            exact .lock
          · simp only [hn, Function.update_of_ne (Ne.symm hn)]
            exact .keep _ _
        · cases hd
          exact ⟨Or.inl hlookup, hshape, hcaller⟩
      · cases h
    · rw [flushStep_run hphase hret hlookup] at h
      obtain ⟨⟨a', v'⟩, hstep, heq⟩ := Option.map_eq_some_iff.mp h
      cases heq
      refine .of_pool (FlushCall.deal_of_step hshape hstep rfl rfl) ?_ (fun n => ?_) fun d hd => ?_
      · simp [inMutexOf, Call.inMutex, hphase]
      · simp [hasInodeOf, Call.hasInode, hphase]
      · cases hd
        refine ⟨?_, (FlushFrame.prim_deal _ hshape hstep).2, hcaller⟩
        rw [hphase]
        exact fits_run_of_step hlookup hstep

/-- The two primitives under the lock of the directory. -/
theorem spec_of_inodeLocked {e : Env} {c : FlushCall} (hphase : c.phase = .inodeLocked)
    (hwf : (Call.flush c).Wf) (h : flushStep i e s c = some (c', s')) :
    CallSpec i (some (.flush c)) s c' s' := by
  obtain ⟨hfits, hshape, hcaller⟩ := hwf
  rw [hphase] at hfits
  simp only [flushStep, hphase] at h
  obtain ⟨⟨a', v'⟩, hstep, heq⟩ := Option.map_eq_some_iff.mp h
  have hmutex : inMutexOf (some (.flush c)) = false := by simp [inMutexOf, Call.inMutex, hphase]
  obtain ⟨hdeal, hshape'⟩ := FlushFrame.prim_deal s.pool hshape hstep
  rcases next_of_step hstep with hnext | ⟨⟨code, hret⟩, -⟩
  · -- the name was looked up; the lock stays for the rename
    have hrename : a'.pc = .rename := by
      rcases hfits with hpc | hpc
      · rw [hpc] at hnext
        cases hnext with
        | quiet hquiet => exact (Option.some.inj hquiet).symm
      · rw [hpc] at hnext
        cases hnext with
        | quiet hquiet => cases hquiet
    simp only [hrename] at heq hshape'
    cases heq
    refine .of_pool ?_ ?_ (fun n => ?_) fun d hd => ?_
    · rw [← hrename]
      exact FlushCall.deal_of_step hshape hstep rfl (by rw [hrename])
    · simp [inMutexOf, Call.inMutex, hphase]
    · simp [hasInodeOf, Call.hasInode, hphase]
    · cases hd
      refine ⟨Or.inr hrename, ?_, hcaller⟩
      show FlushFrame.Shape _ a'.pc
      rw [hrename]
      exact hshape'
  -- the rename is done or something has failed, and the directory is unlocked
  · simp only [hret] at heq hshape'
    cases heq
    refine ⟨Or.inl ⟨?_, rfl⟩, ?_, fun n => ?_, fun d hd => ?_⟩
    · rw [← hret]
      exact FlushCall.deal_of_step hshape hstep rfl (by rw [hret])
    · show LockMove i s.mutex (inMutexOf (some (.flush c))) s.mutex _
      rw [hmutex]
      exact .keep _ _
    · simp only [hasInodeOf, Option.any_some, Call.hasInode, hphase]
      by_cases hn : c.dir = n
      · subst hn
        simp only [Function.update_self]
        exact .unlock _
      · simp only [hn, Function.update_of_ne (Ne.symm hn)]
        exact .keep _ _
    · cases hd
      refine ⟨?_, ?_, hcaller⟩
      · show FlushPhase.run.Fits a'.pc
        rw [hret]
        exact fits_ret code
      · show FlushFrame.Shape _ a'.pc
        rw [hret]
        exact hshape'

/-- **One step of a flush.** -/
theorem spec_of_flushStep {e : Env} {c : FlushCall} (hwf : (Call.flush c).Wf)
    (hsync : ∀ h ∈ s.syncDir, s.pool.kind h = some .memory)
    (h : flushStep i e s c = some (c', s')) : CallSpec i (some (.flush c)) s c' s' := by
  cases hphase : c.phase with
  | run => exact spec_of_run hphase hwf h
  | inodeLocked => exact spec_of_inodeLocked hphase hwf h
  | mutexLock =>
    obtain ⟨hfits, hshape, hcaller⟩ := hwf
    simp only [flushStep, hphase] at h
    refine .of_mutexLock h rfl ?_ rfl (fun n => ?_) ⟨?_, hshape, hcaller⟩
    · simp [inMutexOf, Call.inMutex, hphase]
    · simp [hasInodeOf, Call.hasInode, hphase]
    · rw [hphase] at hfits
      exact hfits
  | mutexUnlock =>
    obtain ⟨hfits, hshape, hcaller⟩ := hwf
    simp only [flushStep, hphase] at h
    cases h
    refine .of_mutex (.keep _ _) ?_ (fun n => ?_) fun d hd => ?_
    · simp only [inMutexOf, Option.any_some, Call.inMutex, hphase]
      exact .unlock _
    · simp [hasInodeOf, Call.hasInode, hphase]
    · cases hd
      rw [hphase] at hfits
      exact ⟨hfits, hshape, hcaller⟩
  | inMutex =>
    obtain ⟨hfits, hshape, hcaller⟩ := hwf
    rw [hphase] at hfits
    have hpc : c.act.pc = .kstrdup := hfits
    simp only [flushStep, hphase] at h
    split at h
    · -- nothing is bound
      cases h
      refine .of_pool (.keep _ _) ?_ (fun n => ?_) fun d hd => ?_
      · simp [inMutexOf, Call.inMutex, hphase]
      · simp [hasInodeOf, Call.hasInode, hphase]
      · cases hd
        refine ⟨fits_ret 0, ?_, hcaller⟩
        rw [hpc] at hshape
        exact hshape
    · next b hb =>
      -- the bound string is out, so reading it is no fault
      have huse : s.pool.use (b, .memory) = s.pool := Pool.use_of_out (hsync b (by simp [hb]))
      rw [huse] at h
      obtain ⟨⟨a', v'⟩, hstep, heq⟩ := Option.map_eq_some_iff.mp h
      cases heq
      refine .of_pool (FlushCall.deal_of_step hshape hstep rfl rfl) ?_ (fun n => ?_) fun d hd => ?_
      · simp [inMutexOf, Call.inMutex, hphase]
      · simp [hasInodeOf, Call.hasInode, hphase]
      · cases hd
        have hnext : a'.pc ≠ .kstrdup ∧ a'.pc ≠ .rename :=
          fits_run_of_step (by rw [hpc]; decide) hstep
        exact ⟨hnext, (FlushFrame.prim_deal _ hshape hstep).2, hcaller⟩

/-- **One step of a call.** -/
theorem spec_of_step {e : Env} {c : Call} (hwf : c.Wf)
    (hsync : ∀ h ∈ s.syncDir, s.pool.kind h = some .memory)
    (h : c.step i e s = some (c', s')) : CallSpec i (some c) s c' s' := by
  cases c with
  | bindWrite pc f => exact spec_of_bindStep hwf h
  | bindRead pc => exact spec_of_readStep hsync h
  | syncWrite pc f => exact spec_of_syncStep hwf h
  | flush c => exact spec_of_flushStep hwf hsync h

/-! ## What is used

What a call uses is its own: every pointer it goes through at a program counter is set there, and
nothing it stands for has been given back. -/

/-- What a bind write uses is its own. -/
theorem BindFrame.uses_owned {f : BindFrame} {pc : BindPc} (hshape : f.Shape pc) :
    ∀ x ∈ f.uses pc, ∃ h, x.1 = some h ∧ (h, x.2) ∈ f.owned := by
  cases pc with
  | copyFromUser | parseMountPath | kernPath =>
    obtain ⟨k, r, y, rfl⟩ := hshape
    simp [BindFrame.uses, BindFrame.owned, held]
  | checkMode | kstrdup =>
    obtain ⟨k, r, y, p, rfl⟩ := hshape
    simp [BindFrame.uses, BindFrame.owned, held]
  | _ => simp [BindFrame.uses]

/-- And what a write to the sync file uses. -/
theorem SyncFrame.uses_owned {f : SyncFrame} {pc : SyncPc} (hshape : f.Shape pc) :
    ∀ x ∈ f.uses pc, ∃ h, x.1 = some h ∧ (h, x.2) ∈ f.owned := by
  cases pc with
  | kmallocKbuf => simp [SyncFrame.uses]
  | copyFromUser | kernPath =>
    obtain ⟨k, rfl⟩ := hshape
    simp [SyncFrame.uses, SyncFrame.owned, FilePtr.held, held]
  | dentryOpen =>
    obtain ⟨k, p, rfl⟩ := hshape
    simp [SyncFrame.uses, SyncFrame.owned, FilePtr.held, held]

/-- And a flush. -/
theorem FlushFrame.uses_owned {f : FlushFrame} {pc : Pc} (hshape : f.Shape pc) :
    ∀ x ∈ f.uses pc, ∃ h, x.1 = some h ∧ (h, x.2) ∈ f.owned := by
  cases pc with
  | openTmp =>
    -- one case for each program counter that goes through a pointer
    obtain ⟨t, p, rfl⟩ := hshape
    simp [FlushFrame.uses, FlushFrame.owned, FilePtr.held, held]
  | copy | write buf | fsync | close =>
    obtain ⟨t, p, y, r, b, rfl⟩ := hshape
    simp [FlushFrame.uses, FlushFrame.owned, FilePtr.held, FilePtr.handle, held]
  | lookupTmp =>
    obtain ⟨t, p, b, m, rfl⟩ := hshape
    simp [FlushFrame.uses, FlushFrame.owned, FilePtr.held, held]
  | lookupDir =>
    obtain ⟨t, p, b, m, o, rfl⟩ := hshape
    simp [FlushFrame.uses, FlushFrame.owned, FilePtr.held, held]
  | lookupNew =>
    obtain ⟨t, p, b, m, o, d, rfl⟩ := hshape
    simp [FlushFrame.uses, FlushFrame.owned, FilePtr.held, held]
  | rename =>
    obtain ⟨t, p, b, m, o, d, n, rfl⟩ := hshape
    simp [FlushFrame.uses, FlushFrame.owned, FilePtr.held, held]
  | _ => simp [FlushFrame.uses]

/-- A flush uses also the file that its caller has opened. -/
theorem FlushCall.uses_owned {c : FlushCall} (hwf : (Call.flush c).Wf) :
    ∀ x ∈ c.uses, ∃ h, x.1 = some h ∧ (h, x.2) ∈ c.owned := by
  obtain ⟨-, hshape, hcaller⟩ := hwf
  intro x hx
  by_cases hret : ∃ code, c.act.pc = .ret code
  -- a flush that has returned uses nothing
  · obtain ⟨code, hpc⟩ := hret
    simp [FlushCall.uses, hpc] at hx
  · have hall : x ∈ c.frame.uses c.act.pc ++
        c.caller.elim [] fun f => [(f.targetFile.handle, .file)] := by
      unfold FlushCall.uses at hx
      split at hx
      · next code hpc => exact absurd ⟨code, hpc⟩ hret
      · exact hx
    unfold FlushCall.owned
    rcases List.mem_append.mp hall with hown | hfile
    -- its own locals
    · obtain ⟨h, hptr, hmem⟩ := FlushFrame.uses_owned hshape x hown
      exact ⟨h, hptr, List.mem_append_left _ hmem⟩
    · -- the file that the write to the sync file has opened
      cases hc : c.caller with
      | none => simp [hc] at hfile
      | some f =>
        obtain ⟨k, t, rfl⟩ := hcaller f hc
        simp only [hc, Option.elim_some, List.mem_singleton] at hfile
        subst hfile
        exact ⟨t, rfl, List.mem_append_right _ List.mem_cons_self⟩

theorem Call.uses_owned {c : Call} (hwf : c.Wf) :
    ∀ x ∈ c.uses, ∃ h, x.1 = some h ∧ (h, x.2) ∈ c.owned := by
  cases c with
  | bindWrite pc f => exact BindFrame.uses_owned hwf
  | bindRead pc => simp [Call.uses]
  | syncWrite pc f => exact SyncFrame.uses_owned hwf
  | flush c => exact FlushCall.uses_owned hwf

/-- Using what is out changes nothing. -/
theorem usePtrs_of_out {p : Pool Kind} {xs : Uses}
    (hout : ∀ x ∈ xs, ∃ h, x.1 = some h ∧ p.kind h = some x.2) : usePtrs xs p = p := by
  induction xs with
  | nil => rfl
  | cons x xs ih =>
    obtain ⟨hfirst, hrest⟩ := List.forall_mem_cons.mp hout
    obtain ⟨h, hptr, hkind⟩ := hfirst
    have hx : x.1.elim { p with fault := true } (fun h => p.use (h, x.2)) = p := by
      rw [hptr]
      exact Pool.use_of_out hkind
    show usePtrs xs (x.1.elim { p with fault := true } fun h => p.use (h, x.2)) = p
    rw [hx]
    exact ih hrest

/-! ## The message of `ramfs_bind`

Apart from what a call owns there is one pointer that it reads without owning it: after it has
released the mutex `ramfs_bind` loads `ramfs_sync_dir` again and prints the string. What a step can
do to that pointer and to the string behind it is said by a specification of its own. -/

/-- What a step has to do with the message. -/
structure PrintSpec (c : Call) (s : Shared I) (c' : Option Call) (s' : Shared I) : Prop where
  load : ∀ dir f, c' = some (.bindWrite (.print dir) f) → dir = s'.syncDir
  stale : s'.stale = true →
    s.stale = true ∨ ∃ h f, c = .bindWrite (.print (some h)) f ∧ s.pool.kind h ≠ some .memory
  syncDir : s'.syncDir = s.syncDir ∨ ∃ f, c = .bindWrite .assign f

/-- A step of another call. -/
theorem PrintSpec.of_other {c : Call} {s s' : Shared I} {c' : Option Call}
    (hcall : ∀ dir f, c' ≠ some (.bindWrite (.print dir) f)) (hstale : s'.stale = s.stale)
    (hsync : s'.syncDir = s.syncDir) : PrintSpec c s c' s' where
  load := fun dir f hc => absurd hc (hcall dir f)
  stale := fun h => Or.inl (hstale ▸ h)
  syncDir := Or.inl hsync

/-- A bind write loads, assigns and prints. -/
theorem printSpec_of_bindStep {ok : Bool} {f : BindFrame} {pc : BindPc}
    (h : bindStep i ok s f pc = some (c', s')) : PrintSpec (.bindWrite pc f) s c' s' := by
  cases pc with
  | loadSyncDir =>
    -- the pointer is that of this moment
    cases h
    exact ⟨fun dir f hc => (by cases hc; rfl), Or.inl, Or.inl rfl⟩
  | assign =>
    -- the bound string is replaced
    cases h
    exact ⟨fun dir f hc => (by cases hc), Or.inl, Or.inr ⟨f, rfl⟩⟩
  | print dir =>
    cases h
    -- something stale is printed if the memory behind the pointer is not in use
    refine ⟨fun dir f hc => (by cases hc), fun hstale => ?_, Or.inl rfl⟩
    rcases Bool.or_eq_true_iff.mp hstale with hbefore | hgone
    · exact Or.inl hbefore
    · cases dir with
      | none => cases hgone
      | some b => exact Or.inr ⟨b, f, rfl, of_decide_eq_true hgone⟩
  | mutexLock =>
    obtain ⟨t, hlock, heq⟩ := Option.map_eq_some_iff.mp h
    obtain ⟨-, rfl⟩ := mutexLock_eq_some hlock
    cases heq
    exact .of_other (fun dir f hc => by cases hc) rfl rfl
  | mutexUnlock =>
    cases h
    exact .of_other (fun dir f hc => by cases hc) rfl rfl
  | _ =>
    cases ok <;> cases h <;> exact .of_other (fun dir f hc => by cases hc) rfl rfl

/-- A flush does none of this. -/
theorem printSpec_of_flushStep {e : Env} {c : FlushCall} (h : flushStep i e s c = some (c', s')) :
    PrintSpec (.flush c) s c' s' := by
  -- a flush stays a flush until it is over, and has nothing to do with the rest
  have hother : (∀ dir f, c' ≠ some (.bindWrite (.print dir) f)) ∧ s'.stale = s.stale ∧
      s'.syncDir = s.syncDir := by
    unfold flushStep at h
    -- phase by phase, none of which writes to the global variable
    split at h
    · obtain ⟨t, hlock, heq⟩ := Option.map_eq_some_iff.mp h
      obtain ⟨-, rfl⟩ := mutexLock_eq_some hlock
      cases heq
      exact ⟨fun dir f hc => (by cases hc), rfl, rfl⟩
    · split at h
      · cases h
        exact ⟨fun dir f hc => (by cases hc), rfl, rfl⟩
      · obtain ⟨r, -, heq⟩ := Option.map_eq_some_iff.mp h
        cases heq
        exact ⟨fun dir f hc => (by cases hc), rfl, rfl⟩
    · cases h
      exact ⟨fun dir f hc => (by cases hc), rfl, rfl⟩
    · split at h
      · split at h <;> cases h <;> exact ⟨fun dir f hc => (by cases hc), rfl, rfl⟩
      · split at h <;> cases h
        exact ⟨fun dir f hc => (by cases hc), rfl, rfl⟩
      · obtain ⟨r, -, heq⟩ := Option.map_eq_some_iff.mp h
        cases heq
        exact ⟨fun dir f hc => (by cases hc), rfl, rfl⟩
    · obtain ⟨r, -, heq⟩ := Option.map_eq_some_iff.mp h
      dsimp only at heq
      split at heq <;> cases heq <;> exact ⟨fun dir f hc => (by cases hc), rfl, rfl⟩
  exact .of_other hother.1 hother.2.1 hother.2.2

/-- **The message**, as far as one step of any call has to do with it. -/
theorem printSpec_of_step {e : Env} {c : Call} (h : c.step i e s = some (c', s')) :
    PrintSpec c s c' s' := by
  cases c with
  | bindWrite pc f => exact printSpec_of_bindStep h
  | flush c => exact printSpec_of_flushStep h
  | bindRead pc =>
    cases pc with
    | mutexLock =>
      obtain ⟨t, hlock, heq⟩ := Option.map_eq_some_iff.mp h
      obtain ⟨-, rfl⟩ := mutexLock_eq_some hlock
      cases heq
      exact .of_other (fun dir f hc => by cases hc) rfl rfl
    | format =>
      cases h
      have hread : (s.read s.syncDir).stale = s.stale ∧ (s.read s.syncDir).syncDir = s.syncDir := by
        unfold Shared.read
        split <;> exact ⟨rfl, rfl⟩
      exact .of_other (fun dir f hc => by cases hc) hread.1 hread.2
    | mutexUnlock =>
      cases h
      exact .of_other (fun dir f hc => by cases hc) rfl rfl
  | syncWrite pc f =>
    have hother : (∀ dir f, c' ≠ some (.bindWrite (.print dir) f)) ∧ s'.stale = s.stale ∧
        s'.syncDir = s.syncDir := by
      -- the four program counters, with and without an error
      cases pc <;> simp only [Call.step, syncStep] at h <;> split at h <;>
        first
        | (cases h; exact ⟨fun dir f hc => (by cases hc), rfl, rfl⟩)
        | (split at h <;> cases h <;> exact ⟨fun dir f hc => (by cases hc), rfl, rfl⟩)
    exact .of_other hother.1 hother.2.1 hother.2.2

/-! ## All calls together

The owners are the calls and the global variable. Nothing is said about how a call came to where it
is: what is out is what somebody holds, and who has a lock stands where it has it. -/

/-- The owners: each call, and `ramfs_sync_dir`. -/
def Sys.holds (s : Sys I) : Option I → List (Handle × Kind)
  | none => held .memory s.shared.syncDir
  | some i => ownedOf (s.calls i)

/-- What holds in every state. -/
structure OwnInv (s : Sys I) : Prop where
  holds : Holds s.shared.pool s.holds
  mutex : HeldBy s.shared.mutex fun i => inMutexOf (s.calls i)
  dirLock : ∀ n, HeldBy (s.shared.dirLock n) fun i => hasInodeOf n (s.calls i)
  wf : ∀ i, ∀ c ∈ s.calls i, c.Wf

/-- In the beginning nobody has anything. -/
theorem ownInv_start : OwnInv (Sys.start : Sys I) where
  holds := by
    have hnothing : (Sys.start : Sys I).holds = fun _ => [] := by
      funext o
      cases o <;> rfl
    rw [hnothing]
    exact holds_empty
  mutex := fun i => by simp [Sys.start, inMutexOf]
  dirLock := fun n i => by simp [Sys.start, hasInodeOf]
  wf := fun i c hc => by cases hc

/-- The bound string is allocated. -/
theorem OwnInv.syncDir_out {s : Sys I} (hinv : OwnInv s) :
    ∀ h ∈ s.shared.syncDir, s.shared.pool.kind h = some .memory := by
  intro h hh
  refine hinv.holds.out (x := (h, .memory)) (o := none) ?_
  show (h, Kind.memory) ∈ held .memory s.shared.syncDir
  rw [Option.mem_def.mp hh]
  exact List.mem_singleton_self _

/-- Nothing a call uses has been given back. -/
theorem OwnInv.drop_uses {s : Sys I} (hinv : OwnInv s) {i : I} {c : Call}
    (hc : s.calls i = some c) : s.shared.drop (usePtrs c.uses) = s.shared := by
  have hpool : usePtrs c.uses s.shared.pool = s.shared.pool := by
    refine usePtrs_of_out fun x hx => ?_
    obtain ⟨h, hptr, hmem⟩ := Call.uses_owned (hinv.wf i c hc) x hx
    refine ⟨h, hptr, hinv.holds.out (x := (h, x.2)) (o := some i) ?_⟩
    show (h, x.2) ∈ ownedOf (s.calls i)
    rw [hc]
    exact hmem
  unfold Shared.drop
  rw [hpool]

/-- A property of all calls after one of them has changed. -/
theorem any_update [DecidableEq I] (calls : I → Option Call) (i : I) (c' : Option Call)
    (P : Option Call → Bool) :
    (fun j => P (Function.update calls i c' j)) =
      Function.update (fun j => P (calls j)) i (P c') := by
  funext j
  by_cases hj : j = i
  · subst hj
    simp
  · simp [hj]

/-! ## Waiting

A call waits for the mutex or for the lock of one directory, and in neither place does it hold the
other: it releases the mutex before it locks a directory. So there is no cycle, and whoever has a
lock can go on. Every other primitive can at least fail. -/

variable [DecidableEq I]

/-- What everybody holds after a step of the call `i`. -/
theorem holds_update (shared : Shared I) (calls : I → Option Call) (i : I) (c' : Option Call) :
    Sys.holds ⟨shared, Function.update calls i c'⟩ =
      Function.update (Sys.holds ⟨shared, calls⟩) (some i) (ownedOf c') := by
  funext o
  cases o with
  | none => rw [Function.update_of_ne (by simp)]; rfl
  | some j =>
    by_cases hj : j = i
    · subst hj
      simp [Sys.holds]
    · have hne : some j ≠ some i := fun heq => hj (Option.some.inj heq)
      rw [Function.update_of_ne hne]
      simp only [Sys.holds, Function.update_of_ne hj]

/-- The step of one call, with the others as they are. -/
theorem OwnInv.of_spec {s : Sys I} {c' : Option Call} {shared' : Shared I} (hinv : OwnInv s)
    (hspec : CallSpec i (s.calls i) s.shared c' shared') :
    OwnInv ⟨shared', Function.update s.calls i c'⟩ where
  holds := by
    rw [holds_update]
    rcases hspec.deal with ⟨hdeal, hsync⟩ | ⟨h, howned, hpool, hsync⟩
    -- nothing is done to the global variable
    · have hsame : Sys.holds ⟨shared', s.calls⟩ = s.holds := by
        funext o
        cases o with
        | none => simp [Sys.holds, hsync]
        | some j => rfl
      rw [hsame]
      exact hinv.holds.deal rfl hdeal
    · -- the old string is freed, then the new one goes over to `ramfs_sync_dir`
      have hne (j : I) : some j ≠ none := Option.some_ne_none j
      have hfreed : Holds shared'.pool (Function.update s.holds none []) := by
        rw [hpool]
        exact hinv.holds.deal rfl (.giveAll _ (.refl _))
      have hmoved := hfreed.move (hne i).symm
        ((Function.update_of_ne (hne i) [] s.holds).trans howned)
      convert hmoved using 1
      funext o
      cases o with
      | none => simp [Sys.holds, hsync, held]
      -- the call that has bound the string, and the others
      | some j =>
        rw [Function.update_of_ne (hne j)]
        by_cases hj : j = i
        · subst hj
          simp only [Function.update_self]
        · have hji : some j ≠ some i := fun heq => hj (Option.some.inj heq)
          rw [Function.update_of_ne hji, Function.update_of_ne hji, Function.update_of_ne (hne j)]
          rfl
  mutex := by
    have hmove := hinv.mutex.step hspec.mutex
    rw [← any_update s.calls i c' inMutexOf] at hmove
    exact hmove
  dirLock := fun n => by
    have hmove := (hinv.dirLock n).step (hspec.dirLock n)
    rw [← any_update s.calls i c' (hasInodeOf n)] at hmove
    exact hmove
  wf := fun j d hd => by
    by_cases hj : j = i
    · subst hj
      exact hspec.wf d (by simpa using hd)
    · exact hinv.wf j d (by simpa [hj] using hd)

/-- A call that begins owns nothing and has no lock. -/
theorem OwnInv.enter {s s' : Sys I} {c : Call} (hinv : OwnInv s) (h : s.enter i c = some s')
    (howned : c.owned = []) (hmutex : c.inMutex = false) (hinode : ∀ n, c.hasInode n = false)
    (hwf : c.Wf) : OwnInv s' := by
  unfold Sys.enter at h
  split at h
  · next hidle =>
    cases h
    refine hinv.of_spec ?_
    rw [hidle]
    refine .of_pool ?_ hmutex hinode fun d hd => ?_
    · show Deal s.shared.pool [] s.shared.pool c.owned
      rw [howned]
      exact .keep _ _
    · cases hd
      exact hwf
  · cases h

/-- The step of a call, taken apart. -/
theorem prim_eq_some {s s' : Sys I} {e : Env} (hinv : OwnInv s)
    (h : s.step (.prim i e) = some s') :
    ∃ c c' shared', s.calls i = some c ∧ c.step i e s.shared = some (c', shared') ∧
      s' = ⟨shared', Function.update s.calls i c'⟩ := by
  obtain ⟨c, hc, h⟩ := Option.bind_eq_some_iff.mp h
  rw [hinv.drop_uses hc] at h
  obtain ⟨⟨c', shared'⟩, hstep, heq⟩ := Option.map_eq_some_iff.mp h
  exact ⟨c, c', shared', hc, hstep, heq.symm⟩

/-- **Every step** keeps the account of what is out and who has the locks. -/
theorem OwnInv.step {s s' : Sys I} {l : Label I} (hinv : OwnInv s) (h : s.step l = some s') :
    OwnInv s' := by
  cases l with
  | bindWrite i => exact hinv.enter h rfl rfl (fun _ => rfl) rfl
  | bindRead i => exact hinv.enter h rfl rfl (fun _ => rfl) trivial
  | syncWrite i => exact hinv.enter h rfl rfl (fun _ => rfl) rfl
  | fsync i name =>
    refine hinv.enter h rfl rfl (fun _ => rfl) ⟨rfl, rfl, fun f hf => ?_⟩
    cases hf
  | prim i e =>
    obtain ⟨c, c', shared', hc, hstep, rfl⟩ := prim_eq_some hinv h
    refine hinv.of_spec ?_
    rw [hc]
    exact spec_of_step (hinv.wf i c hc) hinv.syncDir_out hstep

/-- Everything goes well, for an empty file whose temp file is there. -/
def Env.good : Env where
  outcome := .ok 0
  src := []
  vol := (Volume.clean .empty).openTrunc (tmpName ['f'.toUInt8])
  dir := 0
  onRamfs := true
  name := ['f'.toUInt8]

/-- A bind write of the call `i`, up to where it has loaded the pointer it is going to print. -/
def bindRun (i : I) : List (Label I) := .bindWrite i :: List.replicate 12 (.prim i .good)

/-- No bind write replaces the string while another one stands between loading the pointer and
printing what it points to. -/
def Undisturbed (s : Sys I) : Label I → Prop
  | .prim i _ => (∃ f, s.calls i = some (.bindWrite .assign f)) →
      ∀ j dir f, s.calls j ≠ some (.bindWrite (.print dir) f)
  | _ => True

/-- In runs in which nobody is disturbed a loaded pointer is still the one that is bound. -/
structure PrintInv (s : Sys I) : Prop where
  own : OwnInv s
  print : ∀ i dir f, s.calls i = some (.bindWrite (.print dir) f) → dir = s.shared.syncDir
  fresh : s.shared.stale = false

/-- A call that begins does not print. -/
theorem PrintInv.enter {s s' : Sys I} {c : Call} (hinv : PrintInv s) (hown : OwnInv s')
    (h : s.enter i c = some s') (hc : ∀ dir f, c ≠ .bindWrite (.print dir) f) : PrintInv s' := by
  unfold Sys.enter at h
  split at h
  · cases h
    refine ⟨hown, fun j dir f hj => ?_, hinv.fresh⟩
    rcases Table.of_update_eq_some hj with ⟨-, heq⟩ | ⟨-, hbefore⟩
    · exact absurd heq.symm (hc dir f)
    · exact hinv.print j dir f hbefore
  · cases h

/-- **One step** of a run in which no bind write disturbs another. -/
theorem PrintInv.step {s s' : Sys I} {l : Label I} (hinv : PrintInv s) (hok : Undisturbed s l)
    (h : s.step l = some s') : PrintInv s' := by
  have hown := hinv.own.step h
  cases l with
  | prim i e =>
    obtain ⟨c, c', shared', hc, hstep, rfl⟩ := prim_eq_some hinv.own h
    have hspec := printSpec_of_step hstep
    refine ⟨hown, fun j dir f hj => ?_, ?_⟩
    -- the call itself, if it loads the pointer in this step
    · by_cases hji : j = i
      · subst hji
        exact hspec.load dir f (by simpa using hj)
      -- another call that has loaded it: nobody is allowed to replace the string now
      · have hbefore : s.calls j = some (.bindWrite (.print dir) f) := by simpa [hji] using hj
        rcases hspec.syncDir with hsame | ⟨g, rfl⟩
        · exact (hinv.print j dir f hbefore).trans hsame.symm
        · exact absurd hbefore (hok ⟨g, hc⟩ j dir f)
    -- a stale print would have printed something that is not bound
    · by_contra hstale
      rcases hspec.stale (by simpa using hstale) with hbefore | ⟨b, f, rfl, hgone⟩
      · rw [hinv.fresh] at hbefore
        cases hbefore
      · exact hgone (hinv.own.syncDir_out b (hinv.print i _ f hc).symm)
  | bindWrite i => exact hinv.enter hown h fun dir f hc => by cases hc
  | bindRead i => exact hinv.enter hown h fun dir f hc => by cases hc
  | syncWrite i => exact hinv.enter hown h fun dir f hc => by cases hc
  | fsync i name => exact hinv.enter hown h fun dir f hc => by cases hc

/-- **The message.** `ramfs_bind` prints through the global after it has released the mutex. What it
prints is allocated in every run in which no other bind write replaces the string between its load
of the pointer and the print; two bind writes at once can make it print freed memory. -/
theorem print_of_undisturbed :
    (∀ s : Sys I, Reach Sys.step Undisturbed Sys.start s → s.shared.stale = false) ∧
      ∃ s : Sys Bool, Reach Sys.step (fun _ _ => True) Sys.start s ∧ s.shared.stale = true := by
  constructor
  · intro s h
    have hinv : PrintInv s := by
      refine h.inv ⟨ownInv_start, fun i dir f hc => (by cases hc), rfl⟩ fun t l u ht hok hstep => ?_
      exact ht.step hok hstep
    exact hinv.fresh
  · have hrun : (exec Sys.step (fun _ _ => true) (Sys.start : Sys Bool)
        (bindRun true ++ bindRun false ++ [.prim true .good])).map
          (fun s => s.shared.stale) = some true := by
      decide +kernel
    exact reach_of_exec_map hrun fun _ _ _ => trivial

/-- A bind write alone is not disturbed. -/
theorem print_of_single_bind :
    ∃ s : Sys Unit, Reach Sys.step Undisturbed Sys.start s ∧ s.shared.syncDir = some 4 ∧
      s.shared.stale = false := by
  have hrun : (exec Sys.step (fun _ _ => true) (Sys.start : Sys Unit)
      (bindRun () ++ [.prim () .good])).map (·.shared.syncDir) = some (some 4) := by
    decide +kernel
  obtain ⟨s, hreach, hs⟩ := reach_of_exec_map hrun fun t l _ => by
    show Undisturbed t l
    cases l with
    | prim i e =>
      rintro ⟨f, hf⟩ j dir g hg
      rw [hf] at hg
      cases hg
    | _ => trivial
  exact ⟨s, hreach, hs, print_of_undisturbed.1 s hreach⟩

end OsHomework.Ramfs.Handles
