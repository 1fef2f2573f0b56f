import Mathlib.Data.List.Basic
import OsHomework.Lib.Reach
import OsHomework.Gptfs.Files

/-!
# Gptfs — the worker threads

Every write on the input of a session starts a thread that runs `_process_input`: it reads the input
under its lock, calls the API, stores the output under its lock and then the error under its lock.
Threads are never ordered: nothing ties a thread's stores to the version of the input it read. The
API may take any time and return any pair; the guard `Answers api` makes it a function of the
prompt.

* **`output_of_last_write`** — once no thread of the session runs, the output belongs to the content
  the last write left or to a prompt that some thread had read before that write and not yet stored
  the answer to.
-/

namespace OsHomework.Gptfs

open ByteFile Lts

/-! ## Text

The thread decodes what it has read and gives up on a blank prompt, so both functions of the Python
library are needed as they are: a write may end in the middle of a character, and what counts as
white space is not only ASCII. -/

/-- `decode('utf-8')` with `need` continuation bytes missing of a character that has the bits `acc`
so far and is at least `least`. -/
def decodeFrom (need acc least : Nat) : Bytes → Option Str
  | [] => if need = 0 then some [] else none
  | b :: bs =>
    let b := b.toNat
    if need = 0 then
      if b < 0x80 then (decodeFrom 0 0 0 bs).map (Char.ofNat b :: ·)
      else if 0xc0 ≤ b ∧ b < 0xe0 then decodeFrom 1 (b - 0xc0) 0x80 bs
      else if 0xe0 ≤ b ∧ b < 0xf0 then decodeFrom 2 (b - 0xe0) 0x800 bs
      else if 0xf0 ≤ b ∧ b < 0xf8 then decodeFrom 3 (b - 0xf0) 0x10000 bs
      else none
    else if 0x80 ≤ b ∧ b < 0xc0 then
      let acc := acc * 0x40 + (b - 0x80)
      if need = 1 then
        -- overlong forms, surrogates and values above 0x10ffff are refused
        if least ≤ acc ∧ acc.isValidChar then
          (decodeFrom 0 0 0 bs).map (Char.ofNat acc :: ·)
        else none
      else decodeFrom (need - 1) acc least bs
    else none

/-- `data.decode('utf-8')`, `none` where it raises `UnicodeDecodeError`. -/
def decodeUtf8 (data : Bytes) : Option Str := decodeFrom 0 0 0 data

/-- The characters `str.strip` removes. -/
def isSpace (c : Char) : Bool :=
  let n := c.toNat
  (9 ≤ n && n ≤ 13) || (0x1c ≤ n && n ≤ 0x20) || n == 0x85 || n == 0xa0 || n == 0x1680 ||
    (0x2000 ≤ n && n ≤ 0x200a) || n == 0x2028 || n == 0x2029 || n == 0x202f || n == 0x205f ||
    n == 0x3000

/-- `not text.strip()` -/
def isBlank (text : Str) : Bool := text.all isSpace

/-! ## `_process_input`

Of the function four points are visible to others, the accesses of the object: the read of the
input, the two stores, and between them the return of the API call. Between two of these points a
thread holds no lock, and anything can happen. -/

/-- Where a thread stands, with its local variables. -/
inductive WorkerPc where
  | readInput
  | callApi (inputData : Str)
  | storeOutput (inputData : Str) (outputData errorData : Bytes) (now : Nat)
  | storeError (errorData : Bytes) (now : Nat)
  | ended
  deriving DecidableEq

structure Worker where
  sessionId : Str
  pc : WorkerPc
  deriving DecidableEq

/-- The thread after it has read `data`; undecodable data raises, blank data returns. -/
def afterRead (data : Bytes) : WorkerPc :=
  match decodeUtf8 data with
  | none => .ended
  | some inputData => if isBlank inputData then .ended else .callApi inputData

/-- A step under a lock; `none` when the thread waits for the API or has ended. An exception ends
the thread. -/
def Worker.run (w : Worker) (fs : GPTfs) : Option (GPTfs × WorkerPc) :=
  match w.pc with
  | .readInput =>
    some (fs, afterRead ((fs.files (filePath w.sessionId inputName)).getD []))
  | .callApi _ => none
  | .storeOutput _ outputData errorData now =>
    match fs.setContent (filePath w.sessionId outputName) outputData outputData.length now with
    | (.error _, fs') => some (fs', .ended)
    | (.ok _, fs') => some (fs', .storeError errorData now)
  | .storeError errorData now =>
    some ((fs.setContent (filePath w.sessionId errorName) errorData errorData.length now).2, .ended)
  | .ended => none

/-! ## The mounted file system

FUSE runs the methods one after the other or in parallel; as each holds the lock of its file, they
are steps either way. Threads are numbered in the order in which they were started and stay in the
list when they have ended. -/

/-- The object and the threads started so far. -/
structure Sys where
  fs : GPTfs
  workers : List Worker

/-- A call, a step of the `i`-th thread, or the return of its API call. -/
inductive Label where
  | call (op : Op) (now : Nat)
  | run (i : Nat)
  | answer (i : Nat) (outputData errorData : Bytes) (now : Nat)
  deriving DecidableEq

def Sys.init (uid gid now : Nat) : Sys := ⟨GPTfs.init uid gid now, []⟩

def Sys.step (σ : Sys) : Label → Option Sys
  | .call op now =>
    let (_, fs, started) := σ.fs.call op now
    some ⟨fs, σ.workers ++ started.toList.map fun s => ⟨s, .readInput⟩⟩
  | .run i =>
    match σ.workers[i]? with
    | none => none
    | some w => (w.run σ.fs).map fun (fs, pc) => ⟨fs, σ.workers.set i { w with pc := pc }⟩
  | .answer i outputData errorData now =>
    match σ.workers[i]? with
    | some ⟨s, .callApi inputData⟩ =>
      some { σ with
        workers := σ.workers.set i ⟨s, .storeOutput inputData outputData errorData now⟩ }
    | _ => none

/-- The prompt a thread has sent to the API. -/
def WorkerPc.calling : WorkerPc → Option Str
  | .callApi inputData => some inputData
  | _ => none

/-- The API is a function of the prompt. -/
def Answers (api : Str → Bytes × Bytes) (σ : Sys) : Label → Prop
  | .answer i outputData errorData _ =>
    ∀ w ∈ σ.workers[i]?, ∀ q ∈ w.pc.calling, (outputData, errorData) = api q
  | _ => True

/-- The step is no write or truncate on the input of the session. -/
def OffInput (s : Str) : Label → Prop
  | .call op _ => ¬ op.OnInput s
  | _ => True

/-- No thread of the session runs. -/
def Sys.Quiet (σ : Sys) (s : Str) : Prop := ∀ w ∈ σ.workers, w.sessionId = s → w.pc = .ended

/-- A thread of the session has read the prompt `q` and has not stored the output. -/
def WorkerPc.InFlight (q : Str) : WorkerPc → Prop
  | .callApi inputData | .storeOutput inputData _ _ _ => inputData = q
  | _ => False

def Sys.InFlight (σ : Sys) (s q : Str) : Prop :=
  ∃ w ∈ σ.workers, w.sessionId = s ∧ w.pc.InFlight q

/-! ## What a step can do

`Move` is the inverse of `step` for a state whose keys are in place. The results about threads are
proved by cases on it, five in all, and never look at `Worker.run` again. -/

/-- The object is well formed and the threads belong to sessions. -/
structure Sys.Wf (σ : Sys) : Prop where
  fs_wf : σ.fs.Wf
  session : ∀ w ∈ σ.workers, w.sessionId ∈ σ.fs.sessions

/-- The steps of a well-formed system. -/
inductive Sys.Move (σ : Sys) : Label → Sys → Prop where
  | call {op : Op} {now : Nat} {fs : GPTfs} {started : Option Str}
      (heffect : Effect σ.fs now op fs started) :
      Sys.Move σ (.call op now)
        ⟨fs, σ.workers ++ started.toList.map fun s => ⟨s, .readInput⟩⟩
  | read {i : Nat} {s : Str} (hw : σ.workers[i]? = some ⟨s, .readInput⟩) :
      Sys.Move σ (.run i) { σ with
        workers := σ.workers.set i
          ⟨s, afterRead ((σ.fs.files (filePath s inputName)).getD [])⟩ }
  | answer {i : Nat} {s q : Str} {out err : Bytes} {now : Nat}
      (hw : σ.workers[i]? = some ⟨s, .callApi q⟩) :
      Sys.Move σ (.answer i out err now) { σ with
        workers := σ.workers.set i ⟨s, .storeOutput q out err now⟩ }
  | storeOutput {i : Nat} {s q : Str} {out err : Bytes} {now : Nat} {attr : Attr}
      (hw : σ.workers[i]? = some ⟨s, .storeOutput q out err now⟩)
      (hattr : σ.fs.fileAttrs (filePath s outputName) = some attr) :
      Sys.Move σ (.run i) ⟨σ.fs.put (filePath s outputName) out attr out.length now,
        σ.workers.set i ⟨s, .storeError err now⟩⟩
  | storeError {i : Nat} {s : Str} {err : Bytes} {now : Nat} {attr : Attr}
      (hw : σ.workers[i]? = some ⟨s, .storeError err now⟩)
      (hattr : σ.fs.fileAttrs (filePath s errorName) = some attr) :
      Sys.Move σ (.run i) ⟨σ.fs.put (filePath s errorName) err attr err.length now,
        σ.workers.set i ⟨s, .ended⟩⟩

/-- **Inversion** of a step. -/
theorem Sys.Wf.move {σ σ' : Sys} {l : Label} (h : σ.Wf) (hstep : σ.step l = some σ') :
    Sys.Move σ l σ' := by
  cases l with
  | call op now =>
    cases hstep
    exact .call (h.fs_wf.effect op now)
  | answer i out err now =>
    simp only [step] at hstep
    split at hstep
    -- the thread was waiting
    · next hw =>
      cases hstep
      exact .answer hw
    · cases hstep
  | run i =>
    simp only [step] at hstep
    cases hw : σ.workers[i]? with
    | none =>
      rw [hw] at hstep
      cases hstep
    | some w =>
      rw [hw] at hstep
      obtain ⟨s, pc⟩ := w
      -- the session exists, so the files have attributes and no store raises
      have hs : s ∈ σ.fs.sessions := h.session _ (List.mem_of_getElem? hw)
      cases pc with
      | readInput =>
        cases hstep
        exact .read hw
      | callApi q => cases hstep
      | storeOutput q out err now =>
        obtain ⟨attr, hattr⟩ := h.fs_wf.attr_of_file
          (h.fs_wf.isSome_file hs outputName_mem)
        simp only [Worker.run, GPTfs.setContent_eq hattr, Option.map_some] at hstep
        cases hstep
        exact .storeOutput hw hattr
      | storeError err now =>
        obtain ⟨attr, hattr⟩ := h.fs_wf.attr_of_file
          (h.fs_wf.isSome_file hs errorName_mem)
        simp only [Worker.run, GPTfs.setContent_eq hattr, Option.map_some] at hstep
        cases hstep
        exact .storeError hw hattr
      | ended => cases hstep

theorem Sys.wf_init (uid gid now : Nat) : (Sys.init uid gid now).Wf :=
  ⟨GPTfs.wf_init uid gid now, fun _ hw => by cases hw⟩

/-- A thread that moves on keeps its session. -/
theorem Sys.Wf.session_set {σ : Sys} (h : σ.Wf) {i : Nat} {w : Worker} {pc : WorkerPc}
    (hw : σ.workers[i]? = some w) :
    ∀ v ∈ σ.workers.set i ⟨w.sessionId, pc⟩, v.sessionId ∈ σ.fs.sessions := by
  intro v hv
  rcases List.mem_or_eq_of_mem_set hv with hv | rfl
  · exact h.session v hv
  · exact h.session w (List.mem_of_getElem? hw)

/-- Every step leaves the object well formed and the threads with their sessions. -/
theorem Sys.Wf.step {σ σ' : Sys} {l : Label} (h : σ.Wf) (hstep : σ.step l = some σ') : σ'.Wf := by
  cases h.move hstep with
  | call heffect =>
    refine ⟨?_, fun w hw => ?_⟩
    · exact heffect.wf h.fs_wf
    -- threads from before belong to sessions still, and a new one to the session that was written
    -- to
    · rcases List.mem_append.mp hw with hw | hw
      · exact heffect.sessions_subset (h.session w hw)
      · obtain ⟨s, hs, rfl⟩ := List.mem_map.mp hw
        exact heffect.started_mem (Option.mem_toList.mp hs)
  | read hw => exact ⟨h.fs_wf, h.session_set hw⟩
  | answer hw => exact ⟨h.fs_wf, h.session_set hw⟩
  | storeOutput hw hattr =>
    have hs := h.session _ (List.mem_of_getElem? hw)
    exact ⟨h.fs_wf.put _ (h.fs_wf.isSome_file hs outputName_mem) hattr _ _, h.session_set hw⟩
  | storeError hw hattr =>
    have hs := h.session _ (List.mem_of_getElem? hw)
    exact ⟨h.fs_wf.put _ (h.fs_wf.isSome_file hs errorName_mem) hattr _ _, h.session_set hw⟩

theorem Sys.Wf.of_reach {σ τ : Sys} {ok : Sys → Label → Prop} (h : σ.Wf)
    (hreach : Reach Sys.step ok σ τ) : τ.Wf :=
  hreach.inv h fun _ _ _ hwf _ hstep => hwf.step hstep

/-! ## The answer that stays

The output of a session is overwritten by each of its threads, in the order in which they get their
answers. After a write that is the last one, every thread that has not read yet will read the final
content, so what can still be stored is the answer to the final prompt or to one that was read
before. `LastInv` says that, and that an answer is still to come or is there already. -/

/-- Every answer that waits to be stored is the API's. -/
def Sys.Answered (api : Str → Bytes × Bytes) (σ : Sys) : Prop :=
  ∀ w ∈ σ.workers, ∀ q out err now, w.pc = .storeOutput q out err now → (out, err) = api q

/-- One step of a run in which the API is a function of the prompt. -/
theorem Sys.Answered.step {api : Str → Bytes × Bytes} {σ σ' : Sys} {l : Label} (h : σ.Wf)
    (hans : σ.Answered api) (hok : Answers api σ l) (hstep : σ.step l = some σ') :
    σ'.Answered api := by
  -- the other threads are unchanged
  have hset : ∀ {i : Nat} {w : Worker}, (∀ q out err now, w.pc = .storeOutput q out err now →
      (out, err) = api q) → ∀ v ∈ σ.workers.set i w, ∀ q out err now,
        v.pc = .storeOutput q out err now → (out, err) = api q := by
    intro i w hw v hv
    rcases List.mem_or_eq_of_mem_set hv with hv | rfl
    · exact hans v hv
    · exact hw
  cases h.move hstep with
  | call heffect =>
    intro w hw q out err now hpc
    rcases List.mem_append.mp hw with hw | hw
    · exact hans w hw q out err now hpc
    · obtain ⟨s, -, rfl⟩ := List.mem_map.mp hw
      cases hpc
  | read hw =>
    -- after the read a thread is waiting or has ended
    refine hset fun q out err now hpc => ?_
    simp only [afterRead] at hpc
    split at hpc
    · cases hpc
    · split at hpc <;> cases hpc
  | answer hw =>
    -- the only step that adds an answer, and it is the one the API gives
    refine hset fun q out err now hpc => ?_
    cases hpc
    exact hok _ hw _ rfl
  | storeOutput hw hattr => exact hset fun q out err now hpc => by cases hpc
  | storeError hw hattr => exact hset fun q out err now hpc => by cases hpc

/-- A thread that does not move stays in the list. -/
theorem mem_set_of_ne {α : Type*} {l : List α} {i : Nat} {a b c : α} (ha : l[i]? = some a)
    (hc : c ∈ l) (hne : c ≠ a) : c ∈ l.set i b := by
  obtain ⟨j, hj⟩ := List.mem_iff_getElem?.mp hc
  have hij : i ≠ j := by
    rintro rfl
    rw [ha] at hj
    exact hne (Option.some.inj hj).symm
  exact List.mem_iff_getElem?.mpr ⟨j, by rw [List.getElem?_set_ne hij, hj]⟩

/-- The thread that moves is in the list. -/
theorem mem_set_self {α : Type*} {l : List α} {i : Nat} {a : α} (ha : l[i]? = some a) (b : α) :
    b ∈ l.set i b :=
  List.mem_set (List.getElem?_eq_some_iff.mp ha).1 b

/-- The prompts whose answer may stay: the final one, and those in flight at the last write. -/
def Sys.MayStay (σ : Sys) (s q p : Str) : Prop := p = q ∨ σ.InFlight s p

/-- After the last operation on the input of `s`, made in state `σ` and leaving the content `c` with
the prompt `q`: an answer that may stay is stored, or a thread will still store one. -/
structure LastInv (api : Str → Bytes × Bytes) (σ : Sys) (s q : Str) (c : Bytes) (τ : Sys) :
    Prop where
  wf : τ.Wf
  session : s ∈ τ.fs.sessions
  input : τ.fs.files (filePath s inputName) = some c
  answered : τ.Answered api
  prompts : ∀ p, τ.InFlight s p → σ.MayStay s q p
  output : (∃ w ∈ τ.workers, w.sessionId = s ∧ w.pc = .readInput) ∨ (∃ p, τ.InFlight s p) ∨
    ∃ p, σ.MayStay s q p ∧ τ.fs.files (filePath s outputName) = some (api p).1

section LastWrite

variable {api : Str → Bytes × Bytes} {σ τ τ' : Sys} {s q : Str} {c : Bytes}

theorem afterRead_of_decode (hdecode : decodeUtf8 c = some q) (hblank : isBlank q = false) :
    afterRead c = .callApi q := by
  simp [afterRead, hdecode, hblank]

/-- A store into a file of some session leaves the other files of a session. -/
theorem Sys.Wf.put_files_ne (h : τ.Wf) {t name name' : Str} {content : Bytes} {attr : Attr}
    {size now : Nat} (hs : s ∈ τ.fs.sessions) (ht : t ∈ τ.fs.sessions) (hname : name ∈ sessionFiles)
    (hname' : name' ∈ sessionFiles) (hne : s = t → name ≠ name') :
    (τ.fs.put (filePath t name') content attr size now).files (filePath s name) =
      τ.fs.files (filePath s name) := by
  refine Function.update_of_ne (fun heq => ?_) _ _
  obtain ⟨hst, hnames⟩ := filePath_inj (h.fs_wf.names s hs) (h.fs_wf.names t ht)
    (isName_of_mem hname) (isName_of_mem hname') heq
  exact hne hst hnames

/-- A call that is not on this input: the files of the session are as before, and the thread it may
start has no prompt yet. -/
theorem LastInv.call {op : Op} {now : Nat} {fs : GPTfs} {started : Option Str}
    (h : LastInv api σ s q c τ) (heffect : Effect τ.fs now op fs started) (hoff : ¬ op.OnInput s)
    (hwf : Sys.Wf ⟨fs, τ.workers ++ started.toList.map fun s => ⟨s, .readInput⟩⟩)
    (hans : Sys.Answered api ⟨fs, τ.workers ++ started.toList.map fun s => ⟨s, .readInput⟩⟩) :
    LastInv api σ s q c ⟨fs, τ.workers ++ started.toList.map fun s => ⟨s, .readInput⟩⟩ := by
  have hfile : ∀ name ∈ sessionFiles, fs.files (filePath s name) = τ.fs.files (filePath s name) :=
    fun name hname => heffect.files_eq h.wf.fs_wf h.session hname fun _ => hoff
  refine ⟨hwf, heffect.sessions_subset h.session, ?_, hans, ?_, ?_⟩
  · rw [hfile _ inputName_mem, h.input]
  · rintro p ⟨w, hw, hsession, hflight⟩
    rcases List.mem_append.mp hw with hw | hw
    · exact h.prompts p ⟨w, hw, hsession, hflight⟩
    · obtain ⟨t, -, rfl⟩ := List.mem_map.mp hw
      cases hflight
  · rcases h.output with ⟨w, hw, hread⟩ | ⟨p, w, hw, hflight⟩ | ⟨p, hstay, hout⟩
    · exact Or.inl ⟨w, List.mem_append_left _ hw, hread⟩
    · exact Or.inr (Or.inl ⟨p, w, List.mem_append_left _ hw, hflight⟩)
    · exact Or.inr (Or.inr ⟨p, hstay, by rw [hfile _ outputName_mem, hout]⟩)

/-- A thread moves from `w` to `w'` and the files of the session stay. -/
theorem LastInv.set {fs : GPTfs} {i : Nat} {w w' : Worker} (h : LastInv api σ s q c τ)
    (hw : τ.workers[i]? = some w) (hwf : Sys.Wf ⟨fs, τ.workers.set i w'⟩)
    (hans : Sys.Answered api ⟨fs, τ.workers.set i w'⟩) (hs : s ∈ fs.sessions)
    (hinput : fs.files (filePath s inputName) = τ.fs.files (filePath s inputName))
    (houtput : fs.files (filePath s outputName) = τ.fs.files (filePath s outputName))
    (hprompt : ∀ p, w'.sessionId = s → w'.pc.InFlight p → σ.MayStay s q p)
    (hread : w.sessionId = s → w.pc = .readInput → w'.sessionId = s ∧ w'.pc.InFlight q)
    (hkeep : ∀ p, w.sessionId = s → w.pc.InFlight p → w'.sessionId = s ∧ w'.pc.InFlight p) :
    LastInv api σ s q c ⟨fs, τ.workers.set i w'⟩ := by
  refine ⟨hwf, hs, by rw [hinput, h.input], hans, ?_, ?_⟩
  · rintro p ⟨v, hv, hsession, hflight⟩
    rcases List.mem_or_eq_of_mem_set hv with hv | rfl
    · exact h.prompts p ⟨v, hv, hsession, hflight⟩
    · exact hprompt p hsession hflight
  · rcases h.output with ⟨v, hv, hsession, hpc⟩ | ⟨p, v, hv, hsession, hflight⟩ | ⟨p, hstay, hout⟩
    · -- the thread that was to read has read, or another one still is to
      by_cases hvw : v = w
      · subst hvw
        exact Or.inr (Or.inl ⟨q, w', mem_set_self hw w', hread hsession hpc⟩)
      · exact Or.inl ⟨v, mem_set_of_ne hw hv hvw, hsession, hpc⟩
    · by_cases hvw : v = w
      · subst hvw
        exact Or.inr (Or.inl ⟨p, w', mem_set_self hw w', hkeep p hsession hflight⟩)
      · exact Or.inr (Or.inl ⟨p, v, mem_set_of_ne hw hv hvw, hsession, hflight⟩)
    · exact Or.inr (Or.inr ⟨p, hstay, by rw [houtput, hout]⟩)

/-- **One step** after the last write. -/
theorem LastInv.step {l : Label} (hread : afterRead c = .callApi q) (h : LastInv api σ s q c τ)
    (hok : Answers api τ l) (hoff : OffInput s l) (hstep : τ.step l = some τ') :
    LastInv api σ s q c τ' := by
  have hwf := h.wf.step hstep
  have hans := h.answered.step h.wf hok hstep
  cases h.wf.move hstep with
  | call heffect => exact h.call heffect hoff hwf hans
  | read hw =>
    -- it reads the final content, so its prompt is the final one
    refine h.set hw hwf hans h.session rfl rfl ?_ ?_ ?_
    · rintro p rfl hflight
      rw [h.input, Option.getD_some, hread] at hflight
      exact Or.inl hflight.symm
    · rintro rfl -
      rw [h.input, Option.getD_some, hread]
      exact ⟨rfl, rfl⟩
    · exact fun p _ hflight => hflight.elim
  | answer hw =>
    -- the prompt stays in flight until its answer is stored
    refine h.set hw hwf hans h.session rfl rfl ?_ ?_ ?_
    · exact fun p hs hflight => h.prompts p ⟨_, List.mem_of_getElem? hw, hs, hflight⟩
    · exact fun _ hpc => by cases hpc
    · exact fun p hs hflight => ⟨hs, hflight⟩
  | @storeOutput i t p out err now attr hw hattr =>
    have ht := h.wf.session _ (List.mem_of_getElem? hw)
    by_cases hst : s = t
    · -- the answer of this thread is the one that stays for now
      subst hst
      refine ⟨hwf, h.session, ?_, hans, ?_, Or.inr (Or.inr ⟨p, ?_, ?_⟩)⟩
      · rw [h.wf.put_files_ne h.session ht inputName_mem outputName_mem fun _ => by decide, h.input]
      · rintro p' ⟨v, hv, hsession, hflight⟩
        rcases List.mem_or_eq_of_mem_set hv with hv | rfl
        · exact h.prompts p' ⟨v, hv, hsession, hflight⟩
        · cases hflight
      -- what it stores was asked for, hence may stay
      · exact h.prompts p ⟨_, List.mem_of_getElem? hw, rfl, rfl⟩
      · have hout := h.answered _ (List.mem_of_getElem? hw) p out err now rfl
        rw [← hout]
        exact Function.update_self ..
    · -- a thread of another session stores into another file
      refine h.set hw hwf hans h.session ?_ ?_ ?_ ?_ ?_
      · exact h.wf.put_files_ne h.session ht inputName_mem outputName_mem fun _ => by decide
      · exact h.wf.put_files_ne h.session ht outputName_mem outputName_mem fun heq => absurd heq hst
      · exact fun _ hs => absurd hs.symm hst
      · exact fun hs => absurd hs.symm hst
      · exact fun _ hs => absurd hs.symm hst
  | storeError hw hattr =>
    have ht := h.wf.session _ (List.mem_of_getElem? hw)
    -- the error is another file, and the thread has nothing more to store
    refine h.set hw hwf hans h.session ?_ ?_ ?_ ?_ ?_
    · exact h.wf.put_files_ne h.session ht inputName_mem errorName_mem fun _ => by decide
    · exact h.wf.put_files_ne h.session ht outputName_mem errorName_mem fun _ => by decide
    · exact fun _ _ hflight => hflight.elim
    · exact fun _ hpc => by cases hpc
    · exact fun _ _ hflight => hflight.elim

/-- The write itself: its thread has not read yet, and what is in flight was in flight before. -/
theorem lastInv_of_write (h : σ.Wf) (hans : σ.Answered api) (hs : s ∈ σ.fs.sessions) {path : Str}
    (hpath : fullPath path = filePath s inputName) {data : Bytes} {offset time : Nat} {σ₁ : Sys}
    (hwrite : σ.step (.call (.write path data offset) time) = some σ₁)
    (hc : σ₁.fs.files (filePath s inputName) = some c) (q : Str) : LastInv api σ s q c σ₁ := by
  obtain ⟨content, hfile⟩ := Option.isSome_iff_exists.mp (h.fs_wf.isSome_file hs inputName_mem)
  obtain ⟨attr, hattr⟩ := h.fs_wf.attr_of_file (h.fs_wf.isSome_file hs inputName_mem)
  have hwf := h.step hwrite
  have hok : Answers api σ (.call (.write path data offset) time) := trivial
  have hans' := hans.step h hok hwrite
  simp only [Sys.step, h.fs_wf.call_write hs hpath hfile hattr, Option.toList_some,
    List.map_cons, List.map_nil, Option.some.injEq] at hwrite
  subst hwrite
  refine ⟨hwf, hs, hc, hans', ?_, Or.inl ⟨_, List.mem_append_right _ (List.mem_singleton_self _),
    rfl, rfl⟩⟩
  rintro p ⟨w, hw, hsession, hflight⟩
  -- the thread just started has no prompt yet
  rcases List.mem_append.mp hw with hw | hw
  · exact Or.inr ⟨w, hw, hsession, hflight⟩
  · rw [List.mem_singleton.mp hw] at hflight
    cases hflight

/-- With no thread left, the answer is stored. -/
theorem LastInv.output_of_quiet (h : LastInv api σ s q c τ) (hquiet : τ.Quiet s) :
    ∃ p, σ.MayStay s q p ∧ τ.fs.files (filePath s outputName) = some (api p).1 := by
  rcases h.output with ⟨w, hw, hsession, hpc⟩ | ⟨p, w, hw, hsession, hflight⟩ | hstored
  · rw [hquiet w hw hsession] at hpc
    cases hpc
  · rw [hquiet w hw hsession] at hflight
    cases hflight
  · exact hstored

/-- **The answer that stays.** Take any run, any session and a write on its input that leaves the
content `c`, valid UTF-8 for the prompt `q` and not blank. However the threads go on, with no
further write or truncate on this input: once no thread of the session runs, the output is the API's
output component for `q` or for a prompt in flight at that write, one that a thread had read before
and not yet stored the output for. -/
theorem output_of_last_write (api : Str → Bytes × Bytes) (uid gid now : Nat) (σ : Sys)
    (hreach : Reach Sys.step (Answers api) (Sys.init uid gid now) σ) (s : Str)
    (hs : s ∈ σ.fs.sessions) (path : Str) (hpath : fullPath path = filePath s inputName)
    (data : Bytes) (offset time : Nat) (σ₁ : Sys)
    (hwrite : σ.step (.call (.write path data offset) time) = some σ₁) (c : Bytes)
    (hc : σ₁.fs.files (filePath s inputName) = some c) (q : Str) (hdecode : decodeUtf8 c = some q)
    (hblank : isBlank q = false) (τ : Sys)
    (hrest : Reach Sys.step (fun σ l => Answers api σ l ∧ OffInput s l) σ₁ τ)
    (hquiet : τ.Quiet s) :
    ∃ p, (p = q ∨ σ.InFlight s p) ∧ τ.fs.files (filePath s outputName) = some (api p).1 := by
  obtain ⟨hwf, hans⟩ : σ.Wf ∧ σ.Answered api := by
    refine hreach.inv (I := fun σ => σ.Wf ∧ σ.Answered api) ⟨Sys.wf_init uid gid now, ?_⟩ ?_
    · exact fun _ hw => by cases hw
    · exact fun _ _ _ h hok hstep => ⟨h.1.step hstep, h.2.step h.1 hok hstep⟩
  have hstart := lastInv_of_write hwf hans hs hpath hwrite hc q
  have hend : LastInv api σ s q c τ := hrest.inv hstart fun _ _ _ h hok hstep =>
    h.step (afterRead_of_decode hdecode hblank) hok.1 hok.2 hstep
  exact hend.output_of_quiet hquiet

end LastWrite

/-! ## Two writes on one session

Runs with one and with two writes. In the second one the answer that stays is that of the first
prompt, although the input holds the second. -/

/-- A fresh file system in which the session `s` has been made. -/
def oneSession : Sys := ⟨(GPTfs.init 0 0 0).initializeSession ['s'] 0, []⟩

/-- The session is made by one call. -/
theorem oneSession_reach {ok : Sys → Label → Prop}
    (hok : ok (Sys.init 0 0 0) (.call (.mkdir ['s'] 0) 0)) :
    Reach Sys.step ok (Sys.init 0 0 0) oneSession := by
  have hstep : (Sys.init 0 0 0).step (.call (.mkdir ['s'] 0) 0) = some oneSession := rfl
  exact .single hok hstep

/-- The API answers every prompt with its first character as a byte. -/
def firstByte (q : Str) : Bytes × Bytes := ((q.take 1).map fun ch => UInt8.ofNat ch.toNat, [])

instance (api : Str → Bytes × Bytes) (σ : Sys) (l : Label) : Decidable (Answers api σ l) :=
  match l with
  | .call _ _ | .run _ => isTrue trivial
  | .answer i outputData errorData _ =>
    inferInstanceAs (Decidable (∀ w ∈ σ.workers[i]?, ∀ q ∈ w.pc.calling,
      (outputData, errorData) = api q))

instance (s : Str) (l : Label) : Decidable (OffInput s l) :=
  match l with
  | .call op _ => inferInstanceAs (Decidable (¬ op.changedPath = some (filePath s inputName)))
  | .run _ | .answer _ _ _ _ => isTrue trivial

/-- One write, whose thread runs to its end. -/
theorem output_of_last_write_once :
    ∃ σ₁ τ, oneSession.step (.call (.write (filePath ['s'] inputName) [98] 0) 0) = some σ₁ ∧
      Reach Sys.step (fun σ l => Answers firstByte σ l ∧ OffInput ['s'] l) σ₁ τ ∧
      ∃ p, (p = ['b'] ∨ oneSession.InFlight ['s'] p) ∧
        τ.fs.files (filePath ['s'] outputName) = some (firstByte p).1 := by
  -- the write, then the four steps of its thread
  have hwrite : oneSession.step (.call (.write (filePath ['s'] inputName) [98] 0) 0) =
      some ⟨(oneSession.fs.call (.write (filePath ['s'] inputName) [98] 0) 0).2.1,
        [⟨['s'], .readInput⟩]⟩ := rfl
  have hrun : (exec Sys.step (fun σ l => decide (Answers firstByte σ l ∧ OffInput ['s'] l))
      ⟨(oneSession.fs.call (.write (filePath ['s'] inputName) [98] 0) 0).2.1,
        [⟨['s'], .readInput⟩]⟩
      [.run 0, .answer 0 [98] [] 0, .run 0, .run 0]).map (·.workers) =
        some [⟨['s'], .ended⟩] := by
    decide +kernel
  obtain ⟨τ, hrest, hworkers⟩ := reach_of_exec_map hrun fun _ _ h => of_decide_eq_true h
  have hquiet : τ.Quiet ['s'] := by
    intro w hw _
    rw [hworkers, List.mem_singleton] at hw
    rw [hw]
  refine ⟨_, τ, hwrite, hrest, output_of_last_write firstByte 0 0 0 oneSession
    (oneSession_reach trivial) ['s'] (by decide) _ rfl [98] 0 0 _ hwrite [98] ?_ ['b'] ?_ ?_ τ
    hrest hquiet⟩
  · decide +kernel
  · decide +kernel
  · decide +kernel

/-- Two writes; the thread of the first stores its answer last. -/
def staleRun : Option Sys :=
  (exec Sys.step (fun σ l => decide (Answers firstByte σ l)) (Sys.init 0 0 0)
    [.call (.mkdir ['s'] 0) 0, .call (.write (filePath ['s'] inputName) [97] 0) 0, .run 0]).bind
  fun σ => (σ.step (.call (.write (filePath ['s'] inputName) [98] 0) 0)).bind fun σ₁ =>
    exec Sys.step (fun σ l => decide (Answers firstByte σ l ∧ OffInput ['s'] l)) σ₁
      [.run 1, .answer 1 [98] [] 0, .run 1, .run 1, .answer 0 [97] [] 0, .run 0, .run 0]

/-- The thread of the first write reads `a` and waits for the API, the second write leaves `b`, its
thread stores the answer to `b` and ends, and then the first thread stores the answer to `a`. -/
theorem stale_answer_stays :
    ∃ σ σ₁ τ, Reach Sys.step (Answers firstByte) (Sys.init 0 0 0) σ ∧
      σ.step (.call (.write (filePath ['s'] inputName) [98] 0) 0) = some σ₁ ∧
      Reach Sys.step (fun σ l => Answers firstByte σ l ∧ OffInput ['s'] l) σ₁ τ ∧ τ.Quiet ['s'] ∧
      τ.fs.files (filePath ['s'] inputName) = some [98] ∧ decodeUtf8 [98] = some ['b'] ∧
      isBlank ['b'] = false ∧ τ.fs.files (filePath ['s'] outputName) = some [97] ∧
      some [97] ≠ some (firstByte ['b']).1 := by
  have hrun : staleRun.map (fun τ => (τ.workers, τ.fs.files (filePath ['s'] inputName),
      τ.fs.files (filePath ['s'] outputName))) =
        some ([⟨['s'], .ended⟩, ⟨['s'], .ended⟩], some [98], some [97]) := by
    decide +kernel
  obtain ⟨τ, hτ, hobs⟩ := Option.map_eq_some_iff.mp hrun
  obtain ⟨σ, hσ, hrest⟩ := Option.bind_eq_some_iff.mp hτ
  obtain ⟨σ₁, hwrite, hrest⟩ := Option.bind_eq_some_iff.mp hrest
  simp only [Prod.mk.injEq] at hobs
  obtain ⟨hworkers, hinput, houtput⟩ := hobs
  refine ⟨σ, σ₁, τ, reach_of_exec hσ fun _ _ h => of_decide_eq_true h, hwrite,
    reach_of_exec hrest fun _ _ h => of_decide_eq_true h, ?_, hinput, ?_, ?_, houtput, ?_⟩
  · intro w hw _
    rw [hworkers] at hw
    simp only [List.mem_cons, List.not_mem_nil, or_false, or_self] at hw
    rw [hw]
  · decide +kernel
  · decide +kernel
  · decide +kernel

end OsHomework.Gptfs
