import OsHomework.Gptfs.Workers

/-!
# Gptfs — where the answers come from

`Hist` runs the system and writes down what the state alone does not show: the contents each input
has had, the API call each thread has made, and which thread stored the output and the error of a
session last. Nothing of this is read by a step.

* **`Traced.step`** — every stored answer, and every answer still to be stored, is one that the API
  returned for a prompt the input of the session once held.
* **`Ordered.step`** — which threads are between their two stores, and what that says about the last
  ones.
* **`last_stores_stay`** — the pair that remains when no thread of a session runs.
* **`answers_of_prompts`** — every state of every run.
-/

namespace OsHomework.Gptfs

open ByteFile Lts

/-- A call of `_call_gpt_api` that has returned, made by a thread of the session, with the contents
the input of the session had had by then. -/
structure ApiCall where
  session : Str
  prompt : Str
  outputData : Bytes
  errorData : Bytes
  inputs : List Bytes
  deriving DecidableEq

/-- The system with its history. `crossed s` is set when a thread of `s` stores its output while
another thread of `s` has stored its output and not yet its error. -/
structure Hist where
  sys : Sys
  inputs : Str → List Bytes
  calls : Nat → Option ApiCall
  outputBy : Str → Option Nat
  errorBy : Str → Option Nat
  crossed : Str → Bool

def Hist.init (uid gid now : Nat) : Hist where
  sys := Sys.init uid gid now
  inputs := fun _ => []
  calls := fun _ => none
  outputBy := fun _ => none
  errorBy := fun _ => none
  crossed := fun _ => false

def WorkerPc.isStoreError : WorkerPc → Bool
  | .storeError _ _ => true
  | _ => false

/-- The history goes on with the system state `σ`. -/
def Hist.seen (h : Hist) (σ : Sys) : Hist :=
  { h with
    sys := σ
    inputs := fun s => (σ.fs.files (filePath s inputName)).toList ++ h.inputs s }

/-- The history after the step `l` to the system state `σ`. -/
def Hist.after (h : Hist) (l : Label) (σ : Sys) : Hist :=
  match l with
  | .call _ _ => h.seen σ
  | .answer i outputData errorData _ =>
    match h.sys.workers[i]? with
    | some ⟨s, .callApi q⟩ =>
      { h.seen σ with
        calls := Function.update h.calls i (some ⟨s, q, outputData, errorData, h.inputs s⟩) }
    | _ => h.seen σ
  | .run i =>
    match h.sys.workers[i]? with
    | some ⟨s, .storeOutput _ _ _ _⟩ =>
      { h.seen σ with
        outputBy := Function.update h.outputBy s (some i)
        crossed := Function.update h.crossed s
          (h.crossed s || h.sys.workers.any fun w => w.sessionId = s && w.pc.isStoreError) }
    | some ⟨s, .storeError _ _⟩ =>
      { h.seen σ with errorBy := Function.update h.errorBy s (some i) }
    | _ => h.seen σ

def Hist.step (h : Hist) (l : Label) : Option Hist := (h.sys.step l).map (h.after l)

/-! ## Prompts and answers

The account of one thread: before the API has answered there is no call on record, afterwards there
is one, and what the thread still has to store are its components. A file that threads store into
shows the component of the call of whoever stored last. Nothing more is needed to trace every byte
of an output back to a content of the input. -/

/-- The prompt is one of the contents, as text. -/
def PromptIn (q : Str) (inputs : List Bytes) : Prop := ∃ c ∈ inputs, decodeUtf8 c = some q

/-- What the API call recorded for a thread has to do with where the thread stands. -/
def Owes (call : Option ApiCall) : Option Worker → Prop
  | none => call = none
  | some w =>
    match w.pc with
    | .readInput | .callApi _ => call = none
    | .storeOutput _ outputData errorData _ =>
      ∃ a, call = some a ∧ a.session = w.sessionId ∧ a.outputData = outputData ∧
        a.errorData = errorData
    | .storeError errorData _ =>
      ∃ a, call = some a ∧ a.session = w.sessionId ∧ a.errorData = errorData
    | .ended => True

/-- A file of a session that threads store into: it is empty, or has the component of the call of
the thread that stored last. -/
def Hist.Stored (h : Hist) (s name : Str) (component : ApiCall → Bytes) (last : Option Nat) :
    Prop :=
  match last with
  | none => h.sys.fs.files (filePath s name) = some []
  | some i => ∃ a, h.calls i = some a ∧ a.session = s ∧
      h.sys.fs.files (filePath s name) = some (component a)

structure Traced (h : Hist) : Prop where
  wf : h.sys.Wf
  input : ∀ s c, h.sys.fs.files (filePath s inputName) = some c → c ∈ h.inputs s
  asking : ∀ w ∈ h.sys.workers, ∀ q ∈ w.pc.calling, PromptIn q (h.inputs w.sessionId)
  prompted : ∀ i a, h.calls i = some a → PromptIn a.prompt a.inputs
  owed : ∀ i, Owes (h.calls i) h.sys.workers[i]?
  unknown : ∀ s, s ∉ h.sys.fs.sessions → h.outputBy s = none ∧ h.errorBy s = none
  output : ∀ s ∈ h.sys.fs.sessions, h.Stored s outputName (·.outputData) (h.outputBy s)
  error : ∀ s ∈ h.sys.fs.sessions, h.Stored s errorName (·.errorData) (h.errorBy s)

/-- Nothing has been asked or stored. -/
theorem traced_init (uid gid now : Nat) : Traced (Hist.init uid gid now) := by
  refine ⟨Sys.wf_init uid gid now, ?_, ?_, ?_, fun i => rfl, fun s _ => ⟨rfl, rfl⟩, ?_, ?_⟩
  · exact fun s c hc => by cases hc
  · exact fun w hw => by cases hw
  · exact fun i a ha => by cases ha
  · exact fun s hs => by cases hs
  · exact fun s hs => by cases hs

/-- A file of a session that is not its input is left alone by every call, but for the one that
makes the session. -/
theorem Effect.answer_file {fs fs' : GPTfs} {now : Nat} {op : Op} {started : Option Str}
    (heffect : Effect fs now op fs' started) (h : fs.Wf) {s name : Str} (hs : s ∈ fs'.sessions)
    (hname : name ∈ sessionFiles) (hne : name ≠ inputName) :
    s ∈ fs.sessions ∧ fs'.files (filePath s name) = fs.files (filePath s name) ∨
      s ∉ fs.sessions ∧ fs'.files (filePath s name) = some [] := by
  by_cases hold : s ∈ fs.sessions
  · exact Or.inl ⟨hold, heffect.files_eq h hold hname fun heq => absurd heq hne⟩
  · refine Or.inr ⟨hold, ?_⟩
    cases heffect with
    | newSession t ht =>
      by_cases hmem : t ∈ fs.sessions
      · rw [GPTfs.initializeSession, if_pos hmem] at hs
        exact absurd hs hold
      · rw [GPTfs.initializeSession_eq hmem] at hs ⊢
        -- a session that was not there is the one that `mkdir` made
        have hst : s = t := by
          rcases List.mem_append.mp hs with hs | hs
          · exact absurd hs hold
          · exact List.mem_singleton.mp hs
        exact if_pos (mem_map_filePath.mpr ⟨name, hname, by rw [hst]⟩)
    | _ => exact absurd hs hold

/-! ## The steps of a history

For each kind of step there is a lemma. Steps of threads go through `Traced.thread`, which leaves
only what is particular to the step: what the thread asks for or owes afterwards, and the file it
has stored into. -/

section

variable {h h' : Hist} {σ : Sys} {i : Nat} {s q : Str} {out err : Bytes} {now : Nat}

theorem Hist.after_read (hw : h.sys.workers[i]? = some ⟨s, .readInput⟩) (σ : Sys) :
    h.after (.run i) σ = h.seen σ := by
  simp only [Hist.after, hw]

theorem Hist.after_answer (hw : h.sys.workers[i]? = some ⟨s, .callApi q⟩) (σ : Sys) :
    h.after (.answer i out err now) σ =
      { h.seen σ with
        calls := Function.update h.calls i (some ⟨s, q, out, err, h.inputs s⟩) } := by
  simp only [Hist.after, hw]

theorem Hist.after_storeOutput (hw : h.sys.workers[i]? = some ⟨s, .storeOutput q out err now⟩)
    (σ : Sys) :
    h.after (.run i) σ =
      { h.seen σ with
        outputBy := Function.update h.outputBy s (some i)
        crossed := Function.update h.crossed s
          (h.crossed s || h.sys.workers.any fun w => w.sessionId = s && w.pc.isStoreError) } := by
  simp only [Hist.after, hw]

theorem Hist.after_storeError (hw : h.sys.workers[i]? = some ⟨s, .storeError err now⟩) (σ : Sys) :
    h.after (.run i) σ =
      { h.seen σ with errorBy := Function.update h.errorBy s (some i) } := by
  simp only [Hist.after, hw]

/-- A prompt stays one. -/
theorem PromptIn.mono (hp : PromptIn q (h.inputs s)) (hinputs : h'.inputs = (h.seen σ).inputs) :
    PromptIn q (h'.inputs s) := by
  obtain ⟨c, hc, hdecode⟩ := hp
  refine ⟨c, ?_, hdecode⟩
  rw [hinputs]
  exact List.mem_append_right _ hc

/-- A stored answer stays one, as long as its file and the calls do. -/
theorem Hist.Stored.mono {name : Str} {component : ApiCall → Bytes} {last : Option Nat}
    (hst : h.Stored s name component last)
    (hfile : h'.sys.fs.files (filePath s name) = h.sys.fs.files (filePath s name))
    (hcalls : ∀ i a, h.calls i = some a → h'.calls i = some a) :
    h'.Stored s name component last := by
  cases last with
  | none => exact hfile.trans hst
  | some i =>
    obtain ⟨a, ha, hsession, hcontent⟩ := hst
    exact ⟨a, hcalls i a ha, hsession, hfile.trans hcontent⟩

/-- The `i`-th thread moves from `w` to `w'`; only its own API call may be new. -/
theorem Traced.thread {w w' : Worker} (ht : Traced h) (hwf : h'.sys.Wf)
    (hinputs : h'.inputs = (h.seen h'.sys).inputs) (hw : h.sys.workers[i]? = some w)
    (hworkers : h'.sys.workers = h.sys.workers.set i w')
    (hcalls : ∀ j, j ≠ i → h'.calls j = h.calls j)
    (hasks : ∀ q ∈ w'.pc.calling, PromptIn q (h'.inputs w'.sessionId))
    (hprompted : ∀ a, h'.calls i = some a → PromptIn a.prompt a.inputs)
    (howes : Owes (h'.calls i) (some w'))
    (hunknown : ∀ s, s ∉ h'.sys.fs.sessions → h'.outputBy s = none ∧ h'.errorBy s = none)
    (houtput : ∀ s ∈ h'.sys.fs.sessions, h'.Stored s outputName (·.outputData) (h'.outputBy s))
    (herror : ∀ s ∈ h'.sys.fs.sessions, h'.Stored s errorName (·.errorData) (h'.errorBy s)) :
    Traced h' := by
  refine ⟨hwf, fun s c hc => ?_, fun v hv q hq => ?_, fun j a ha => ?_, fun j => ?_, hunknown,
    houtput, herror⟩
  -- the new content of an input is on record, and so are the old ones
  · rw [hinputs]
    simp only [Hist.seen, hc, Option.toList_some]
    exact List.mem_append_left _ (List.mem_singleton_self c)
  -- the thread that moved asks for what it has just read
  · rw [hworkers] at hv
    rcases List.mem_or_eq_of_mem_set hv with hv | rfl
    · exact (ht.asking v hv q hq).mono hinputs
    · exact hasks q hq
  · by_cases hj : j = i
    · subst hj
      exact hprompted a ha
    · rw [hcalls j hj] at ha
      exact ht.prompted j a ha
  -- what it owes has to be shown, the others owe what they owed
  · rw [hworkers]
    by_cases hj : j = i
    · subst hj
      rw [List.getElem?_set_self (List.getElem?_eq_some_iff.mp hw).1]
      exact howes
    · rw [List.getElem?_set_ne (Ne.symm hj), hcalls j hj]
      exact ht.owed j

/-- A call starts at most one thread, and touches no output and no error. -/
theorem Traced.call {op : Op} {fs : GPTfs} {started : Option Str} (ht : Traced h)
    (heffect : Effect h.sys.fs now op fs started)
    (hwf : Sys.Wf ⟨fs, h.sys.workers ++ started.toList.map fun s => ⟨s, .readInput⟩⟩) :
    Traced (h.seen ⟨fs, h.sys.workers ++ started.toList.map fun s => ⟨s, .readInput⟩⟩) := by
  have hstored : ∀ s ∈ fs.sessions, ∀ name ∈ sessionFiles, name ≠ inputName →
      ∀ component last, (s ∈ h.sys.fs.sessions → h.Stored s name component last) →
      (s ∉ h.sys.fs.sessions → last = none) →
      (h.seen ⟨fs, h.sys.workers ++ started.toList.map fun s => ⟨s, .readInput⟩⟩).Stored s name
        component last := by
    -- a session from before keeps its files, a new one has empty ones and nobody has stored there
    intro s hs name hname hne component last hold hnew
    rcases heffect.answer_file ht.wf.fs_wf hs hname hne with ⟨hmem, hfile⟩ | ⟨hmem, hfile⟩
    · exact (hold hmem).mono hfile fun _ _ ha => ha
    · rw [hnew hmem]
      exact hfile
  refine ⟨hwf, fun s c hc => ?_, fun w hw q hq => ?_, ht.prompted, fun i => ?_, fun s hs => ?_,
    fun s hs => ?_, fun s hs => ?_⟩
  · simp only [Hist.seen] at hc ⊢
    rw [hc]
    exact List.mem_append_left _ (List.mem_singleton_self c)
  -- a new thread asks for nothing yet
  · rcases List.mem_append.mp hw with hw | hw
    · exact (ht.asking w hw q hq).mono rfl
    · obtain ⟨t, -, rfl⟩ := List.mem_map.mp hw
      cases hq
  · -- a thread that has just been started has made no call
    show Owes (h.calls i) (h.sys.workers ++ started.toList.map fun s => ⟨s, .readInput⟩)[i]?
    have howed := ht.owed i
    rcases Nat.lt_or_ge i h.sys.workers.length with hlt | hge
    · rwa [List.getElem?_append_left hlt]
    · rw [List.getElem?_eq_none hge] at howed
      rw [List.getElem?_append_right hge]
      cases hnew : (started.toList.map fun s => (⟨s, .readInput⟩ : Worker))[
          i - h.sys.workers.length]? with
      | none => exact howed
      | some w =>
        obtain ⟨t, -, rfl⟩ := List.mem_map.mp (List.mem_of_getElem? hnew)
        exact howed
  · exact ht.unknown s fun hmem => hs (heffect.sessions_subset hmem)
  · exact hstored s hs _ outputName_mem (by decide) _ _ (ht.output s) fun hmem =>
      (ht.unknown s hmem).1
  · exact hstored s hs _ errorName_mem (by decide) _ _ (ht.error s) fun hmem =>
      (ht.unknown s hmem).2

/-- A thread that has read its input ends, or asks for what it has read. -/
theorem afterRead_cases (data : Bytes) :
    afterRead data = .ended ∨ ∃ q, afterRead data = .callApi q ∧ decodeUtf8 data = some q := by
  unfold afterRead
  split
  · exact Or.inl rfl
  · next text hdecode =>
    split
    · exact Or.inl rfl
    · exact Or.inr ⟨text, rfl, hdecode⟩

/-- The thread has read the input. -/
theorem Traced.read (ht : Traced h) (hw : h.sys.workers[i]? = some ⟨s, .readInput⟩)
    (hwf : Sys.Wf { h.sys with
      workers := h.sys.workers.set i
        ⟨s, afterRead ((h.sys.fs.files (filePath s inputName)).getD [])⟩ }) :
    Traced (h.seen { h.sys with
      workers := h.sys.workers.set i
        ⟨s, afterRead ((h.sys.fs.files (filePath s inputName)).getD [])⟩ }) := by
  have hs := ht.wf.session _ (List.mem_of_getElem? hw)
  obtain ⟨c, hc⟩ := Option.isSome_iff_exists.mp (ht.wf.fs_wf.isSome_file hs inputName_mem)
  have hnone : h.calls i = none := by
    have howed := ht.owed i
    rwa [hw] at howed
  refine ht.thread hwf rfl hw rfl (fun _ _ => rfl) (fun q hq => ?_) (ht.prompted i) ?_ ht.unknown
    (fun t hmem => (ht.output t hmem).mono rfl fun _ _ ha => ha)
    fun t hmem => (ht.error t hmem).mono rfl fun _ _ ha => ha
  -- the prompt is the text of the content that was read, and that is on record
  · rw [hc, Option.getD_some] at hq
    rcases afterRead_cases c with hend | ⟨text, hcall, hdecode⟩
    · rw [hend] at hq
      cases hq
    · rw [hcall] at hq
      cases hq
      exact PromptIn.mono ⟨c, ht.input s c hc, hdecode⟩ rfl
  -- it has not called the API yet, or never will
  · show Owes (h.calls i) (some ⟨s, afterRead ((h.sys.fs.files (filePath s inputName)).getD [])⟩)
    rcases afterRead_cases ((h.sys.fs.files (filePath s inputName)).getD []) with
      hend | ⟨text, hcall, -⟩
    · rw [hend]
      trivial
    · rw [hcall]
      exact hnone

/-- The API has answered. -/
theorem Traced.answer (ht : Traced h) (hw : h.sys.workers[i]? = some ⟨s, .callApi q⟩)
    (hwf : Sys.Wf { h.sys with
      workers := h.sys.workers.set i ⟨s, .storeOutput q out err now⟩ }) :
    Traced { h.seen { h.sys with
        workers := h.sys.workers.set i ⟨s, .storeOutput q out err now⟩ } with
      calls := Function.update h.calls i (some ⟨s, q, out, err, h.inputs s⟩) } := by
  -- the thread has made no call before
  have hcalls : ∀ j a, h.calls j = some a →
      Function.update h.calls i (some ⟨s, q, out, err, h.inputs s⟩) j = some a := by
    intro j a ha
    have hj : j ≠ i := by
      rintro rfl
      have howed := ht.owed j
      rw [hw] at howed
      cases howed.symm.trans ha
    rw [Function.update_of_ne hj, ha]
  refine ht.thread hwf rfl hw rfl (fun j hj => Function.update_of_ne hj _ _) (fun q hq => ?_)
    (fun a ha => ?_) ⟨_, Function.update_self .., rfl, rfl, rfl⟩ ht.unknown
    (fun t hmem => (ht.output t hmem).mono rfl hcalls)
    fun t hmem => (ht.error t hmem).mono rfl hcalls
  -- it does not ask any more
  · cases hq
  -- the call is the one for the prompt it was asking with
  · have hself : Function.update h.calls i (some ⟨s, q, out, err, h.inputs s⟩) i = some a := ha
    rw [Function.update_self] at hself
    cases hself
    exact ht.asking _ (List.mem_of_getElem? hw) q rfl

/-- No thread has stored for a session that does not exist, one more store for `s` included. -/
theorem Hist.update_unknown {last : Str → Option Nat} {t : Str}
    (hs : s ∈ h.sys.fs.sessions) (hmem : t ∉ h.sys.fs.sessions) (hnone : last t = none) :
    Function.update last s (some i) t = none := by
  have hts : t ≠ s := by
    intro heq
    exact hmem (heq ▸ hs)
  rw [Function.update_of_ne hts, hnone]

/-- The `i`-th thread stores the component of its call into a file of its session; in the other
sessions the file is as it was. -/
theorem Traced.stored_put (ht : Traced h) {name : Str} {component : ApiCall → Bytes} {a : ApiCall}
    {last : Str → Option Nat} {attr : Attr} {size : Nat} (hs : s ∈ h.sys.fs.sessions)
    (hname : name ∈ sessionFiles) (hcall : h.calls i = some a) (hsession : a.session = s)
    (hfs : h'.sys.fs = h.sys.fs.put (filePath s name) (component a) attr size now)
    (hcalls : h'.calls = h.calls)
    (hold : ∀ t ∈ h.sys.fs.sessions, h.Stored t name component (last t)) :
    ∀ t ∈ h.sys.fs.sessions, h'.Stored t name component (Function.update last s (some i) t) := by
  intro t hmem
  by_cases hts : t = s
  · subst hts
    rw [Function.update_self]
    refine ⟨a, by rw [hcalls, hcall], hsession, ?_⟩
    rw [hfs]
    exact Function.update_self ..
  · rw [Function.update_of_ne hts]
    refine (hold t hmem).mono ?_ fun j b hb => by rw [hcalls, hb]
    rw [hfs]
    exact ht.wf.put_files_ne hmem hs hname hname fun heq => absurd heq hts

/-- The thread stores its output. -/
theorem Traced.storeOutput {attr : Attr} (ht : Traced h)
    (hw : h.sys.workers[i]? = some ⟨s, .storeOutput q out err now⟩)
    (hwf : Sys.Wf ⟨h.sys.fs.put (filePath s outputName) out attr out.length now,
      h.sys.workers.set i ⟨s, .storeError err now⟩⟩) (crossed : Str → Bool) :
    Traced { h.seen ⟨h.sys.fs.put (filePath s outputName) out attr out.length now,
        h.sys.workers.set i ⟨s, .storeError err now⟩⟩ with
      outputBy := Function.update h.outputBy s (some i)
      crossed := crossed } := by
  have hs := ht.wf.session _ (List.mem_of_getElem? hw)
  -- its call is on record, and the two values are its components
  obtain ⟨a, hcall, hsession, rfl, rfl⟩ :
      ∃ a, h.calls i = some a ∧ a.session = s ∧ a.outputData = out ∧ a.errorData = err := by
    have howed := ht.owed i
    rwa [hw] at howed
  refine ht.thread hwf rfl hw rfl (fun _ _ => rfl) (fun q hq => ?_) (ht.prompted i)
    ⟨a, hcall, hsession, rfl⟩ (fun t hmem => ?_) ?_ fun t hmem => ?_
  · cases hq
  · obtain ⟨hout, herr⟩ := ht.unknown t hmem
    exact ⟨Hist.update_unknown hs hmem hout, herr⟩
  · exact ht.stored_put hs outputName_mem hcall hsession rfl rfl ht.output
  -- the error of no session has changed
  · refine (ht.error t hmem).mono ?_ fun _ _ ha => ha
    exact ht.wf.put_files_ne hmem hs errorName_mem outputName_mem fun _ => by decide

/-- The thread stores its error. -/
theorem Traced.storeError {attr : Attr} (ht : Traced h)
    (hw : h.sys.workers[i]? = some ⟨s, .storeError err now⟩)
    (hwf : Sys.Wf ⟨h.sys.fs.put (filePath s errorName) err attr err.length now,
      h.sys.workers.set i ⟨s, .ended⟩⟩) :
    Traced { h.seen ⟨h.sys.fs.put (filePath s errorName) err attr err.length now,
        h.sys.workers.set i ⟨s, .ended⟩⟩ with
      errorBy := Function.update h.errorBy s (some i) } := by
  have hs := ht.wf.session _ (List.mem_of_getElem? hw)
  obtain ⟨a, hcall, hsession, rfl⟩ :
      ∃ a, h.calls i = some a ∧ a.session = s ∧ a.errorData = err := by
    have howed := ht.owed i
    rwa [hw] at howed
  refine ht.thread hwf rfl hw rfl (fun _ _ => rfl) (fun q hq => ?_) (ht.prompted i) trivial
    (fun t hmem => ?_) (fun t hmem => ?_) ?_
  · cases hq
  · obtain ⟨hout, herr⟩ := ht.unknown t hmem
    exact ⟨hout, Hist.update_unknown hs hmem herr⟩
  · refine (ht.output t hmem).mono ?_ fun _ _ ha => ha
    exact ht.wf.put_files_ne hmem hs outputName_mem errorName_mem fun _ => by decide
  · exact ht.stored_put hs errorName_mem hcall hsession rfl rfl ht.error

/-- **One step** of a call, a thread or the API keeps the account. -/
theorem Traced.step {l : Label} (ht : Traced h) (hstep : h.step l = some h') : Traced h' := by
  obtain ⟨σ, hσ, rfl⟩ := Option.map_eq_some_iff.mp hstep
  have hwf := ht.wf.step hσ
  cases ht.wf.move hσ with
  | call heffect => exact ht.call heffect hwf
  | read hw =>
    rw [Hist.after_read hw]
    exact ht.read hw hwf
  | answer hw =>
    rw [Hist.after_answer hw]
    exact ht.answer hw hwf
  | storeOutput hw hattr =>
    rw [Hist.after_storeOutput hw]
    exact ht.storeOutput hw hwf _
  | storeError hw hattr =>
    rw [Hist.after_storeError hw]
    exact ht.storeError hw hwf

/-! ## The two stores of a thread

Output and error are stored under different locks, one after the other, so another thread can come
in between. `InOrder` keeps, for one session, which threads are between their stores and what
follows for the two threads that stored last. It knows nothing of files: a session is four values.
-/

/-- The `i`-th thread, one of the session, has stored its output and not its error. -/
def Sys.Between (σ : Sys) (s : Str) (i : Nat) : Prop :=
  ∃ w, σ.workers[i]? = some w ∧ w.sessionId = s ∧ w.pc.isStoreError = true

/-- `crossed` is set by a test of all threads. -/
theorem Sys.any_iff_between (σ : Sys) (s : Str) :
    (σ.workers.any fun w => w.sessionId = s && w.pc.isStoreError) = true ↔ ∃ i, σ.Between s i := by
  simp only [List.any_eq_true, Bool.and_eq_true, decide_eq_true_eq, Sys.Between,
    List.mem_iff_getElem?]
  constructor
  · rintro ⟨w, ⟨i, hi⟩, hw⟩
    exact ⟨i, w, hi, hw⟩
  · rintro ⟨i, w, hi, hw⟩
    exact ⟨w, ⟨i, hi⟩, hw⟩

/-- Who is between two stores after a thread has moved. -/
theorem Sys.between_set {w w' : Worker} {fs : GPTfs} {j : Nat}
    (hw : σ.workers[i]? = some w) :
    Sys.Between ⟨fs, σ.workers.set i w'⟩ s j ↔
      (j = i ∧ w'.sessionId = s ∧ w'.pc.isStoreError = true) ∨ j ≠ i ∧ σ.Between s j := by
  by_cases hj : j = i
  · subst hj
    have hself := List.getElem?_set_self (a := w') (List.getElem?_eq_some_iff.mp hw).1
    simp [Sys.Between, hself]
  · simp [Sys.Between, List.getElem?_set_ne (Ne.symm hj), hj]

/-- A thread that has just been started is not between its stores. -/
theorem Sys.between_append {fs : GPTfs} {started : Option Str} :
    Sys.Between ⟨fs, σ.workers ++ started.toList.map fun s => ⟨s, .readInput⟩⟩ s i ↔
      σ.Between s i := by
  constructor
  · rintro ⟨w, hi, hsession, hpc⟩
    rcases Nat.lt_or_ge i σ.workers.length with hlt | hge
    · rw [List.getElem?_append_left hlt] at hi
      exact ⟨w, hi, hsession, hpc⟩
    · rw [List.getElem?_append_right hge] at hi
      obtain ⟨t, -, rfl⟩ := List.mem_map.mp (List.mem_of_getElem? hi)
      cases hpc
  · rintro ⟨w, hi, hw⟩
    have hlt := (List.getElem?_eq_some_iff.mp hi).1
    exact ⟨w, (List.getElem?_append_left hlt).trans hi, hw⟩

end

/-- Who stored last, for one session: the threads between their two stores, the last ones to store
the output and the error, and whether an output was ever stored between the two stores of another
thread. If not, the last stores are those of one thread. -/
structure InOrder (between : Nat → Prop) (output error : Option Nat) (crossed : Bool) : Prop where
  error_none : output = none → error = none
  between_some : ∀ i, between i → output ≠ none
  some_or : output ≠ none → error ≠ none ∨ ∃ i, between i
  last_between : crossed = false → ∀ i, between i → output = some i
  last_same : crossed = false → (∀ i, ¬ between i) → output = error

section

variable {between between' : Nat → Prop} {output error : Option Nat} {crossed : Bool} {i : Nat}

theorem InOrder.congr (h : InOrder between output error crossed)
    (hb : ∀ j, between' j ↔ between j) : InOrder between' output error crossed := by
  have heq : between' = between := funext fun j => propext (hb j)
  rwa [heq]

/-- A thread stores its output, with nobody between its stores unless that is marked. -/
theorem inOrder_storeOutput (between : Nat → Prop) (error : Option Nat)
    (hb : ∀ j, between' j ↔ j = i ∨ between j)
    (hcrossed : crossed = false → ∀ j, ¬ between j) :
    InOrder between' (some i) error crossed where
  error_none := fun hnone => by cases hnone
  between_some := fun _ _ hnone => by cases hnone
  some_or := fun _ => Or.inr ⟨i, (hb i).mpr (Or.inl rfl)⟩
  last_between := by
    intro hc j hj
    rcases (hb j).mp hj with rfl | hj
    · rfl
    · exact absurd hj (hcrossed hc j)
  last_same := fun _ hno => absurd ((hb i).mpr (Or.inl rfl)) (hno i)

/-- A thread that is between its stores stores its error. -/
theorem InOrder.storeError (h : InOrder between output error crossed) (hi : between i)
    (hb : ∀ j, between' j ↔ j ≠ i ∧ between j) : InOrder between' output (some i) crossed where
  error_none := fun hnone => absurd hnone (h.between_some i hi)
  between_some := fun j hj => h.between_some j ((hb j).mp hj).2
  some_or := fun _ => Or.inl fun hnone => by cases hnone
  last_between := fun hc j hj => h.last_between hc j ((hb j).mp hj).2
  last_same := fun hc _ => h.last_between hc i hi

end

/-- Every session is in order. -/
def Ordered (h : Hist) : Prop :=
  ∀ s, InOrder (h.sys.Between s) (h.outputBy s) (h.errorBy s) (h.crossed s)

theorem ordered_init (uid gid now : Nat) : Ordered (Hist.init uid gid now) := by
  intro s
  have hnot : ∀ i, ¬ (Sys.init uid gid now).Between s i := by
    rintro i ⟨w, hw, -⟩
    cases hw
  refine ⟨fun _ => rfl, fun i hi => absurd hi (hnot i), fun hsome => absurd rfl hsome,
    fun _ i hi => absurd hi (hnot i), fun _ _ => rfl⟩

section

variable {h h' : Hist} {i : Nat} {s : Str}

theorem Sys.not_between {σ : Sys} {w : Worker} (hw : σ.workers[i]? = some w)
    (hpc : w.pc.isStoreError = false) (s : Str) : ¬ σ.Between s i := by
  rintro ⟨v, hv, -, hbetween⟩
  rw [hw] at hv
  cases hv
  rw [hpc] at hbetween
  cases hbetween

/-- A thread moves on and is not between its stores any more. -/
theorem Sys.between_leave {σ : Sys} {w w' : Worker} {fs : GPTfs} {j : Nat}
    (hw : σ.workers[i]? = some w) (hnew : w'.pc.isStoreError = false) :
    Sys.Between ⟨fs, σ.workers.set i w'⟩ s j ↔ j ≠ i ∧ σ.Between s j := by
  rw [Sys.between_set hw, hnew]
  simp only [Bool.false_eq_true, and_false, false_or]

/-- A thread moves and is between its stores neither before nor after. -/
theorem Sys.between_set_of_not {σ : Sys} {w w' : Worker} {fs : GPTfs} {j : Nat}
    (hw : σ.workers[i]? = some w) (hold : w.pc.isStoreError = false)
    (hnew : w'.pc.isStoreError = false) :
    Sys.Between ⟨fs, σ.workers.set i w'⟩ s j ↔ σ.Between s j := by
  rw [Sys.between_leave hw hnew]
  constructor
  · exact And.right
  · intro hj
    refine ⟨?_, hj⟩
    rintro rfl
    exact Sys.not_between hw hold s hj

/-- A thread has stored its output. -/
theorem Sys.between_enter {σ : Sys} {w w' : Worker} {fs : GPTfs} {j : Nat}
    (hw : σ.workers[i]? = some w) (hold : w.pc.isStoreError = false)
    (hnew : w'.pc.isStoreError = true) :
    Sys.Between ⟨fs, σ.workers.set i w'⟩ s j ↔ (j = i ∧ w'.sessionId = s) ∨ σ.Between s j := by
  rw [Sys.between_set hw]
  constructor
  · rintro (⟨hj, hsession, -⟩ | ⟨-, hj⟩)
    · exact Or.inl ⟨hj, hsession⟩
    · exact Or.inr hj
  · rintro (⟨hj, hsession⟩ | hj)
    · exact Or.inl ⟨hj, hsession, hnew⟩
    · refine Or.inr ⟨?_, hj⟩
      rintro rfl
      exact Sys.not_between hw hold s hj

/-- **One step** keeps every session in order. -/
theorem Ordered.step {l : Label} (ho : Ordered h) (ht : Traced h) (hstep : h.step l = some h') :
    Ordered h' := by
  obtain ⟨σ, hσ, rfl⟩ := Option.map_eq_some_iff.mp hstep
  intro t
  cases ht.wf.move hσ with
  | call heffect => exact (ho t).congr fun j => Sys.between_append
  | read hw =>
    rw [Hist.after_read hw]
    refine (ho t).congr fun j => Sys.between_set_of_not hw rfl ?_
    rcases afterRead_cases ((h.sys.fs.files (filePath _ inputName)).getD []) with
      hend | ⟨q, hcall, -⟩
    · rw [hend]
      rfl
    · rw [hcall]
      rfl
  | answer hw =>
    rw [Hist.after_answer hw]
    exact (ho t).congr fun j => Sys.between_set_of_not hw rfl rfl
  | @storeOutput i s q out err now attr hw hattr =>
    rw [Hist.after_storeOutput hw]
    -- the session of the thread: it is between its stores now, alone unless that is marked
    by_cases hts : t = s
    · subst hts
      dsimp only [Hist.seen]
      rw [Function.update_self, Function.update_self]
      refine inOrder_storeOutput (h.sys.Between t) (h.errorBy t) (fun j => ?_) fun hc j hj => ?_
      · rw [Sys.between_enter hw rfl rfl]
        simp only [and_true]
      · have hnobody := (Bool.or_eq_false_iff.mp hc).2
        rw [← Bool.not_eq_true, Sys.any_iff_between] at hnobody
        exact hnobody ⟨j, hj⟩
    -- any other session has the same threads between their stores
    · dsimp only [Hist.seen]
      rw [Function.update_of_ne hts, Function.update_of_ne hts]
      refine (ho t).congr fun j => ?_
      rw [Sys.between_enter hw rfl rfl]
      simp only [Ne.symm hts, and_false, false_or]
  | @storeError i s err now attr hw hattr =>
    rw [Hist.after_storeError hw]
    -- the session of the thread: it was between its stores and is not any more
    by_cases hts : t = s
    · subst hts
      dsimp only [Hist.seen]
      rw [Function.update_self]
      exact (ho t).storeError ⟨_, hw, rfl, rfl⟩ fun j => Sys.between_leave hw rfl
    · dsimp only [Hist.seen]
      rw [Function.update_of_ne hts]
      refine (ho t).congr fun j => (Sys.between_leave hw rfl).trans ⟨And.right, fun hj => ⟨?_, hj⟩⟩
      -- the thread that stored is one of another session
      rintro rfl
      obtain ⟨v, hv, hsession, -⟩ := hj
      rw [hw] at hv
      cases hv
      exact hts hsession.symm

end

/-! ## Whole runs

Both accounts hold in every state of every run, whatever the API returns and however long it takes.
The two runs on fixed labels show the case in which the last two stores are one thread's and the
case in which they are not. -/

/-- The two accounts together. -/
structure HistInv (h : Hist) : Prop where
  traced : Traced h
  ordered : Ordered h

/-- Both accounts, after any number of steps. -/
theorem histInv_of_reach {uid gid now : Nat} {h : Hist}
    (hreach : Reach Hist.step (fun _ _ => True) (Hist.init uid gid now) h) : HistInv h :=
  hreach.inv (I := HistInv) ⟨traced_init uid gid now, ordered_init uid gid now⟩
    fun _ _ _ hinv _ hstep => ⟨hinv.traced.step hstep, hinv.ordered.step hinv.traced hstep⟩

/-- Threads that have ended are not between their stores. -/
theorem Sys.Quiet.not_between {σ : Sys} {s : Str} (hquiet : σ.Quiet s) (i : Nat) :
    ¬ σ.Between s i := by
  rintro ⟨w, hw, hsession, hpc⟩
  rw [hquiet w (List.mem_of_getElem? hw) hsession] at hpc
  cases hpc

/-- **The pair that remains.** In any run, once no thread of a session runs: both files are the
initial empty ones, or the output is the output component of the API call of the thread that stored
its output last and the error the error component of the call of the thread that stored its error
last. They are one thread's, unless some thread stored its output between the two stores of
another. -/
theorem last_stores_stay (uid gid now : Nat) (h : Hist)
    (hreach : Reach Hist.step (fun _ _ => True) (Hist.init uid gid now) h) (s : Str)
    (hs : s ∈ h.sys.fs.sessions) (hquiet : h.sys.Quiet s) :
    (h.outputBy s = none ∧ h.errorBy s = none ∧
        h.sys.fs.files (filePath s outputName) = some [] ∧
        h.sys.fs.files (filePath s errorName) = some []) ∨
      ∃ i j a b, h.outputBy s = some i ∧ h.errorBy s = some j ∧
        h.calls i = some a ∧ a.session = s ∧ h.calls j = some b ∧ b.session = s ∧
        h.sys.fs.files (filePath s outputName) = some a.outputData ∧
        h.sys.fs.files (filePath s errorName) = some b.errorData ∧
        (h.crossed s = false → i = j) := by
  obtain ⟨htraced, hordered⟩ := histInv_of_reach hreach
  have horder := hordered s
  have houtput := htraced.output s hs
  have herror := htraced.error s hs
  have hno : ∀ i, ¬ h.sys.Between s i := hquiet.not_between
  -- an error is stored only after an output
  cases hout : h.outputBy s with
  | none =>
    have herr := horder.error_none hout
    rw [hout] at houtput
    rw [herr] at herror
    exact Or.inl ⟨rfl, herr, houtput, herror⟩
  | some i =>
    rw [hout] at houtput
    obtain ⟨a, ha, hsession, hcontent⟩ := houtput
    -- the thread that stored the output has stored its error since, as nobody is between the two
    cases herr : h.errorBy s with
    | none =>
      rcases horder.some_or (by rw [hout]; exact Option.some_ne_none i) with hsome | ⟨j, hj⟩
      · exact absurd herr hsome
      · exact absurd hj (hno j)
    | some j =>
      rw [herr] at herror
      obtain ⟨b, hb, hsession', hcontent'⟩ := herror
      refine Or.inr ⟨i, j, a, b, rfl, rfl, ha, hsession, hb, hsession', hcontent, hcontent', ?_⟩
      intro hc
      -- nobody ever came in between, so they are one thread's
      have hsame := horder.last_same hc hno
      rw [hout, herr] at hsame
      exact Option.some.inj hsame

/-- Two writes on a session. The first thread has read `a`, the second `b`; the API answers the
first with an error and the second with an output. -/
def twoAsked : List Label :=
  [.call (.mkdir ['s'] 0) 0, .call (.write (filePath ['s'] inputName) [97] 0) 0, .run 0,
    .call (.write (filePath ['s'] inputName) [98] 0) 0, .run 1, .answer 0 [] [1] 0,
    .answer 1 [98] [] 0]

def twoThreads (stores : List Nat) : Option Hist :=
  exec Hist.step (fun _ _ => true) (Hist.init 0 0 0) (twoAsked ++ stores.map .run)

theorem quiet_of_workers {σ : Sys} (hworkers : σ.workers = [⟨['s'], .ended⟩, ⟨['s'], .ended⟩]) :
    σ.Quiet ['s'] := by
  intro w hw _
  rw [hworkers] at hw
  simp only [List.mem_cons, List.not_mem_nil, or_false, or_self] at hw
  rw [hw]

/-- One thread after the other: the pair of the second one stays. -/
theorem last_stores_stay_inTurn :
    ∃ h : Hist, Reach Hist.step (fun _ _ => True) (Hist.init 0 0 0) h ∧ h.sys.Quiet ['s'] ∧
      ∃ a, h.calls 1 = some a ∧
        h.sys.fs.files (filePath ['s'] outputName) = some a.outputData ∧
        h.sys.fs.files (filePath ['s'] errorName) = some a.errorData := by
  have hcomputed : (twoThreads [0, 0, 1, 1]).map (fun h =>
      decide (h.sys.workers = [⟨['s'], .ended⟩, ⟨['s'], .ended⟩] ∧ h.sys.fs.sessions = [['s']] ∧
        h.outputBy ['s'] = some 1 ∧ h.crossed ['s'] = false)) = some true := by
    decide +kernel
  obtain ⟨h, hreach, hobs⟩ := reach_of_exec_map hcomputed fun _ _ _ => trivial
  obtain ⟨hworkers, hsessions, hout, hcrossed⟩ := of_decide_eq_true hobs
  have hquiet := quiet_of_workers hworkers
  refine ⟨h, hreach, hquiet, ?_⟩
  rcases last_stores_stay 0 0 0 h hreach ['s'] (by rw [hsessions]; decide) hquiet with
    ⟨hnone, -⟩ | ⟨i, j, a, b, hi, hj, ha, -, hb, -, hcontent, hcontent', hsame⟩
  · rw [hout] at hnone
    cases hnone
  · have hij := hsame hcrossed
    subst hij
    rw [hout] at hi
    cases hi
    rw [ha] at hb
    cases hb
    exact ⟨a, ha, hcontent, hcontent'⟩

/-- The second thread stores its output and its error between the two stores of the first: its
output remains, with the error of the first. No call has returned that pair. -/
theorem mixed_pair_stays :
    ∃ h : Hist, Reach Hist.step (fun _ _ => True) (Hist.init 0 0 0) h ∧ h.sys.Quiet ['s'] ∧
      h.sys.fs.files (filePath ['s'] outputName) = some [98] ∧
      h.sys.fs.files (filePath ['s'] errorName) = some [1] ∧
      ∀ i a, h.calls i = some a → (a.outputData, a.errorData) ≠ ([98], [1]) := by
  have hcomputed : (twoThreads [0, 1, 1, 0]).map (fun h =>
      decide (h.sys.workers = [⟨['s'], .ended⟩, ⟨['s'], .ended⟩] ∧
        h.sys.fs.files (filePath ['s'] outputName) = some [98] ∧
        h.sys.fs.files (filePath ['s'] errorName) = some [1] ∧
        (h.calls 0).map (fun a => (a.outputData, a.errorData)) = some ([], [1]) ∧
        (h.calls 1).map (fun a => (a.outputData, a.errorData)) = some ([98], []))) =
      some true := by
    decide +kernel
  obtain ⟨h, hreach, hobs⟩ := reach_of_exec_map hcomputed fun _ _ _ => trivial
  obtain ⟨hworkers, hout, herr, hfirst, hsecond⟩ := of_decide_eq_true hobs
  refine ⟨h, hreach, quiet_of_workers hworkers, hout, herr, fun i a ha => ?_⟩
  -- only the two threads have made calls, and neither returned this pair
  have howed := (histInv_of_reach hreach).traced.owed i
  rw [hworkers] at howed
  rcases i with _ | _ | i
  · rw [ha, Option.map_some, Option.some.injEq] at hfirst
    rw [hfirst]
    decide
  · rw [ha, Option.map_some, Option.some.injEq] at hsecond
    rw [hsecond]
    decide
  · -- there is no third thread
    cases ha.symm.trans howed

/-- A call that raises leaves the object as it was and starts no thread. -/
theorem GPTfs.Wf.call_raise {fs : GPTfs} (h : fs.Wf) {op : Op} {now : Nat} {e : PyError}
    (hraise : (fs.call op now).1 = .error e) : (fs.call op now).2 = (fs, none) := by
  cases op with
  | mkdir path mode =>
    simp only [call, GPTfs.mkdir] at hraise ⊢
    split at hraise
    · next hcount => rw [if_pos hcount]
    · next hcount =>
      rw [if_neg hcount]
      split at hraise
      · next hempty => rw [if_pos hempty]
      · cases hraise
  | write path data offset =>
    rcases h.input_or_refused path with ⟨s, hs, hpath, ⟨c, hfile⟩, attr, hattr⟩ | ⟨e', hrefused, -⟩
    · rw [h.call_write hs hpath hfile hattr] at hraise
      cases hraise
    · rw [hrefused]
  | truncate path length =>
    rcases h.input_or_refused path with ⟨s, hs, hpath, ⟨c, hfile⟩, attr, hattr⟩ | ⟨e', -, hrefused⟩
    · rw [h.call_truncate hs hpath hfile hattr] at hraise
      cases hraise
    · rw [hrefused]
  | utimens path times =>
    simp only [call, GPTfs.utimens] at hraise ⊢
    cases hattr : fs.fileAttrs (fullPath path) with
    | none => rfl
    | some attr =>
      rw [hattr] at hraise
      cases hraise
  | _ => rfl

/-- The origin of what a thread has stored. -/
theorem Traced.origin {h : Hist} (ht : Traced h) {s name : Str} {component : ApiCall → Bytes}
    {last : Option Nat} (hst : h.Stored s name component last) :
    ∃ c, h.sys.fs.files (filePath s name) = some c ∧
      (c = [] ∨ ∃ i a, h.calls i = some a ∧ a.session = s ∧ c = component a ∧
        PromptIn a.prompt a.inputs) := by
  cases last with
  | none => exact ⟨[], hst, Or.inl rfl⟩
  | some i =>
    obtain ⟨a, ha, hsession, hcontent⟩ := hst
    exact ⟨_, hcontent, Or.inr ⟨i, a, ha, hsession, rfl, ht.prompted i a ha⟩⟩

/-- **Where answers come from.** In every state of every run: the output of a session is empty or
the output component, and its error empty or the error component, of an API call made for the
session with a prompt its input had held before; and a call that raises `FuseOSError` changes
nothing. -/
theorem answers_of_prompts (uid gid now : Nat) (h : Hist)
    (hreach : Reach Hist.step (fun _ _ => True) (Hist.init uid gid now) h) :
    (∀ s ∈ h.sys.fs.sessions,
      (∃ c, h.sys.fs.files (filePath s outputName) = some c ∧
        (c = [] ∨ ∃ i a, h.calls i = some a ∧ a.session = s ∧ c = a.outputData ∧
          PromptIn a.prompt a.inputs)) ∧
      ∃ c, h.sys.fs.files (filePath s errorName) = some c ∧
        (c = [] ∨ ∃ i a, h.calls i = some a ∧ a.session = s ∧ c = a.errorData ∧
          PromptIn a.prompt a.inputs)) ∧
    ∀ op time e, (h.sys.fs.call op time).1 = .error (.fuseOSError e) →
      (h.sys.fs.call op time).2 = (h.sys.fs, none) := by
  have htraced := (histInv_of_reach hreach).traced
  refine ⟨fun s hs => ⟨?_, ?_⟩, fun op time e hraise => ?_⟩
  · exact htraced.origin (htraced.output s hs)
  · exact htraced.origin (htraced.error s hs)
  · exact htraced.wf.fs_wf.call_raise hraise

/-- The output stored by the second of two threads, seen while the first is between its stores. -/
theorem answers_of_prompts_twoThreads :
    ∃ h : Hist, Reach Hist.step (fun _ _ => True) (Hist.init 0 0 0) h ∧
      h.sys.fs.files (filePath ['s'] outputName) = some [98] ∧
      ∃ i a, h.calls i = some a ∧ a.session = ['s'] ∧ [98] = a.outputData ∧
        PromptIn a.prompt a.inputs := by
  have hcomputed : (twoThreads [0, 1]).map (fun h =>
      decide (h.sys.fs.sessions = [['s']] ∧
        h.sys.fs.files (filePath ['s'] outputName) = some [98])) = some true := by
    decide +kernel
  obtain ⟨h, hreach, hobs⟩ := reach_of_exec_map hcomputed fun _ _ _ => trivial
  obtain ⟨hsessions, hout⟩ := of_decide_eq_true hobs
  obtain ⟨hanswers, -⟩ := answers_of_prompts 0 0 0 h hreach
  obtain ⟨⟨c, hc, horigin⟩, -⟩ := hanswers ['s'] (by rw [hsessions]; decide)
  rw [hout] at hc
  cases hc
  refine ⟨h, hreach, hout, ?_⟩
  rcases horigin with hempty | hcall
  · cases hempty
  · exact hcall

end OsHomework.Gptfs
