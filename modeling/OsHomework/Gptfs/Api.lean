import OsHomework.Gptfs.Workers

/-!
# Gptfs — `_call_gpt_api` and what a worker leaves

The API call turns everything that can go wrong inside its `try` into an error text. The worker
decodes the input before that, outside of any handler: an input that is not UTF-8 ends the thread
with an exception that nobody catches.

* **`callGptApi_cases`** — the pair returned is a message without an error, or an error text that is
  not empty.
* **`reports_iff`** — a worker that finds an input that is not blank runs to its end and stores such
  a pair, whatever other steps come in between, exactly if the input can be decoded.
-/

namespace OsHomework.Gptfs

open ByteFile Lts

/-! ## `_call_gpt_api`

The request goes to the outside world, so `ApiEnv` says what comes of each prompt. Taking the
response apart is the program's own work and is written out: the answer is JSON of any shape, each
of the four subscriptions may raise, and so may the encoding, since a JSON string can hold a lone
surrogate. A body that cannot be parsed is an exception of `requests`, or another one, depending on
the version. -/

/-- What `response.json()` returns. A string is a list of code points, surrogates among them; of two
members with one key the later one counts. -/
inductive Json where
  | null
  | bool (b : Bool)
  | num (text : Str)
  | str (text : List Nat)
  | arr (items : List Json)
  | obj (members : List (Str × Json))

/-- `value[key]`, `none` where it raises. -/
def Json.item (key : Str) : Json → Option Json
  | .obj members => (members.reverse.find? fun m => m.1 == key).map (·.2)
  | _ => none

/-- `value[0]`; the first character of a string is a string. -/
def Json.first : Json → Option Json
  | .arr (item :: _) => some item
  | .str (point :: _) => some (.str [point])
  | _ => none

/-- `text.encode('utf-8')` -/
def encodeUtf8 (text : Str) : Bytes := text.flatMap String.utf8EncodeChar

/-- The same for any code points: surrogates cannot be encoded. -/
def encodePoints (points : List Nat) : Option Bytes :=
  if ∀ p ∈ points, p.isValidChar then some (encodeUtf8 (points.map Char.ofNat)) else none

/-- `result['choices'][0]['message']['content'].encode('utf-8')` -/
def Json.message (result : Json) : Option Bytes := do
  let choices ← result.item "choices".toList
  let choice ← choices.first
  let message ← choice.item "message".toList
  let content ← message.item "content".toList
  match content with
  | .str points => encodePoints points
  | _ => none

/-- What comes of the request: an exception of `requests` or another one, with its text, or a
response. -/
inductive Post where
  | raises (ofRequests : Bool) (text : Str)
  | response (statusCode : Nat) (text : Str) (json : Except (Bool × Str) Json)

/-- The configuration and the outside world: the key, what a request with a prompt leads to, and the
text of an exception that is raised when the response is taken apart. -/
structure ApiEnv where
  apiKey : Str
  post : Str → Post
  exceptionText : Str

def keyNotFound : Str :=
  "Error: DeepSeek API key not found. Please set the DEEPSEEK_API_KEY environment variable.".toList

/-- The two `except` clauses. -/
def caught (ofRequests : Bool) (text : Str) : Bytes :=
  if ofRequests then encodeUtf8 ("Network Error: ".toList ++ text)
  else encodeUtf8 ("Unexpected Error: ".toList ++ text)

/-- `_call_gpt_api`: the output and the error. -/
def callGptApi (env : ApiEnv) (prompt : Str) : Bytes × Bytes :=
  if env.apiKey = [] then ([], encodeUtf8 keyNotFound)
  else
    match env.post prompt with
    | .raises ofRequests text => ([], caught ofRequests text)
    | .response statusCode text json =>
      if statusCode = 200 then
        match json with
        | .error (ofRequests, text) => ([], caught ofRequests text)
        | .ok result =>
          match result.message with
          | some message => (message, [])
          | none => ([], caught false env.exceptionText)
      else
        let errorMsg := "API Error: ".toList ++ Nat.toDigits 10 statusCode ++ " - ".toList ++ text
        ([], encodeUtf8 errorMsg)

/-- The call succeeds: there is a key, and the response has a message. -/
def ApiEnv.Succeeds (env : ApiEnv) (prompt : Str) : Prop :=
  env.apiKey ≠ [] ∧ ∃ text result message,
    env.post prompt = .response 200 text (.ok result) ∧ result.message = some message

/-- An encoded text is as little empty as the text. -/
theorem encodeUtf8_ne_nil {text : Str} (h : text ≠ []) : encodeUtf8 text ≠ [] := by
  obtain ⟨c, rest, rfl⟩ := List.exists_cons_of_ne_nil h
  rw [encodeUtf8, List.flatMap_cons]
  exact List.append_ne_nil_of_left_ne_nil String.utf8EncodeChar_ne_nil _

/-- Both handlers put a word in front of the text, so the error is there even for an exception
without one. -/
theorem caught_ne_nil (ofRequests : Bool) (text : Str) : caught ofRequests text ≠ [] := by
  unfold caught
  split
  · exact encodeUtf8_ne_nil (List.append_ne_nil_of_left_ne_nil (by decide) text)
  · exact encodeUtf8_ne_nil (List.append_ne_nil_of_left_ne_nil (by decide) text)

/-- A success has no error, and a failure has one. -/
theorem callGptApi_cases (env : ApiEnv) (prompt : Str) :
    (env.Succeeds prompt ∧ (callGptApi env prompt).2 = []) ∨
      ¬ env.Succeeds prompt ∧ (callGptApi env prompt).1 = [] ∧ (callGptApi env prompt).2 ≠ [] := by
  unfold callGptApi
  split
  -- no key: the request is never made
  · next hkey =>
    exact Or.inr ⟨fun h => h.1 hkey, rfl, encodeUtf8_ne_nil (by decide)⟩
  · next hkey =>
    split
    -- the request raises
    · next ofRequests text hpost =>
      refine Or.inr ⟨?_, rfl, caught_ne_nil _ _⟩
      rintro ⟨-, t, result, message, hresponse, -⟩
      cases hpost.symm.trans hresponse
    · next statusCode text json hpost =>
      split
      · next hstatus =>
        subst hstatus
        split
        -- the body is not JSON
        · next ofRequests text' =>
          refine Or.inr ⟨?_, rfl, caught_ne_nil _ _⟩
          rintro ⟨-, t, result, message, hresponse, -⟩
          cases hpost.symm.trans hresponse
        · next result =>
          split
          -- the message is there and can be encoded
          · next message hmessage =>
            exact Or.inl ⟨⟨hkey, text, result, message, hpost, hmessage⟩, rfl⟩
          -- the response has another shape, or its message cannot be encoded
          · next hmessage =>
            refine Or.inr ⟨?_, rfl, caught_ne_nil false env.exceptionText⟩
            rintro ⟨-, t, result', message, hresponse, hsome⟩
            cases hpost.symm.trans hresponse
            cases hmessage.symm.trans hsome
      -- another status
      · next hstatus =>
        refine Or.inr ⟨?_, rfl, encodeUtf8_ne_nil ?_⟩
        · rintro ⟨-, t, result, message, hresponse, -⟩
          cases hpost.symm.trans hresponse
          exact hstatus rfl
        · rw [List.append_assoc, List.append_assoc]
          exact List.append_ne_nil_of_left_ne_nil (by decide) _

/-! ## The steps of a worker

A thread that is going to store a pair needs three more steps of its own, and anything may happen in
between. `Later` says that a property holds however long the others go on, so what is nested in it
is stated step by step without a run of the whole system having to be named. -/

/-- The steps of the `i`-th thread. -/
def Label.OfWorker (i : Nat) : Label → Prop
  | .call _ _ => False
  | .run j => j = i
  | .answer j _ _ _ => j = i

/-- `P` holds in every state that calls and other threads lead to. -/
def Later (i : Nat) (σ : Sys) (P : Sys → Prop) : Prop :=
  ∀ τ, Reach Sys.step (fun _ l => ¬ l.OfWorker i) σ τ → P τ

/-- The thread can store the error and end. -/
def StoresError (i : Nat) (s : Str) (err : Bytes) (τ : Sys) : Prop :=
  ∃ σ, τ.step (.run i) = some σ ∧ σ.fs.files (filePath s errorName) = some err ∧
    σ.workers[i]? = some ⟨s, .ended⟩

/-- The thread can store the output, and the error later. -/
def StoresOutput (i : Nat) (s : Str) (out err : Bytes) (τ : Sys) : Prop :=
  ∃ σ, τ.step (.run i) = some σ ∧ σ.fs.files (filePath s outputName) = some out ∧
    Later i σ (StoresError i s err)

/-- The API can return the pair at any time, and it will be stored. -/
def TakesAnswer (i : Nat) (s : Str) (out err : Bytes) (τ : Sys) : Prop :=
  ∀ now, ∃ σ, τ.step (.answer i out err now) = some σ ∧ Later i σ (StoresOutput i s out err)

/-- The thread `i`, about to read, waits for the API with the prompt `q` after its next step, and
stores what comes of it, with an error text if that is a failure. -/
def Reports (env : ApiEnv) (i : Nat) (s q : Str) (σ : Sys) : Prop :=
  (¬ env.Succeeds q → (callGptApi env q).2 ≠ []) ∧
    ∃ σ', σ.step (.run i) = some σ' ∧ σ'.workers[i]? = some ⟨s, .callApi q⟩ ∧
      Later i σ' (TakesAnswer i s (callGptApi env q).1 (callGptApi env q).2)

section

variable {σ τ : Sys} {i : Nat} {s q : Str}

/-- The steps of the others leave a thread where it is. -/
theorem Sys.Wf.step_worker {l : Label} {w : Worker} (hwf : σ.Wf) (hl : ¬ l.OfWorker i)
    (hw : σ.workers[i]? = some w) (hstep : σ.step l = some τ) : τ.workers[i]? = some w := by
  have hset : ∀ {j : Nat} {v : Worker}, ¬ j = i → (σ.workers.set j v)[i]? = some w := by
    intro j v hne
    rw [List.getElem?_set_ne hne, hw]
  cases hwf.move hstep with
  | call heffect =>
    rw [List.getElem?_append_left (List.getElem?_eq_some_iff.mp hw).1, hw]
  | read _ | answer _ | storeOutput _ _ | storeError _ _ => exact hset hl

/-- So a thread is still there later, in a well-formed state. -/
theorem Sys.Wf.later {w : Worker} {P : Sys → Prop} (hwf : σ.Wf) (hw : σ.workers[i]? = some w)
    (hP : ∀ τ : Sys, τ.Wf → τ.workers[i]? = some w → P τ) : Later i σ P := by
  intro τ hreach
  have hinv : τ.Wf ∧ τ.workers[i]? = some w := by
    refine hreach.inv (I := fun τ => τ.Wf ∧ τ.workers[i]? = some w) ⟨hwf, hw⟩ ?_
    intro τ l τ' h hl hstep
    exact ⟨h.1.step hstep, h.1.step_worker hl h.2 hstep⟩
  exact hP τ hinv.1 hinv.2

/-- The state that a thread was put in is the one it is in. -/
theorem getElem?_set_some {α : Type*} {l : List α} {a : α} (h : l[i]? = some a) (b : α) :
    (l.set i b)[i]? = some b :=
  List.getElem?_set_self (List.getElem?_eq_some_iff.mp h).1

/-- The thread reads the input, and what it does next is determined by the bytes. -/
theorem Sys.step_read (hw : σ.workers[i]? = some ⟨s, .readInput⟩) :
    σ.step (.run i) = some { σ with
      workers := σ.workers.set i
        ⟨s, afterRead ((σ.fs.files (filePath s inputName)).getD [])⟩ } := by
  simp only [Sys.step, hw, Worker.run, Option.map_some]

/-- The last step of a thread. -/
theorem Sys.Wf.storesError {err : Bytes} {now : Nat} (hwf : σ.Wf)
    (hw : σ.workers[i]? = some ⟨s, .storeError err now⟩) : StoresError i s err σ := by
  have hs := hwf.session _ (List.mem_of_getElem? hw)
  obtain ⟨attr, hattr⟩ := hwf.fs_wf.attr_of_file (hwf.fs_wf.isSome_file hs errorName_mem)
  have hstep : σ.step (.run i) = some ⟨σ.fs.put (filePath s errorName) err attr err.length now,
      σ.workers.set i ⟨s, .ended⟩⟩ := by
    simp only [Sys.step, hw, Worker.run, GPTfs.setContent_eq hattr, Option.map_some]
  exact ⟨_, hstep, Function.update_self .., getElem?_set_some hw _⟩

/-- The step before the last one. -/
theorem Sys.Wf.storesOutput {out err : Bytes} {now : Nat} (hwf : σ.Wf)
    (hw : σ.workers[i]? = some ⟨s, .storeOutput q out err now⟩) : StoresOutput i s out err σ := by
  have hs := hwf.session _ (List.mem_of_getElem? hw)
  obtain ⟨attr, hattr⟩ := hwf.fs_wf.attr_of_file (hwf.fs_wf.isSome_file hs outputName_mem)
  have hstep : σ.step (.run i) = some ⟨σ.fs.put (filePath s outputName) out attr out.length now,
      σ.workers.set i ⟨s, .storeError err now⟩⟩ := by
    simp only [Sys.step, hw, Worker.run, GPTfs.setContent_eq hattr, Option.map_some]
  exact ⟨_, hstep, Function.update_self .., (hwf.step hstep).later (getElem?_set_some hw _)
    fun τ hτ hwτ => hτ.storesError hwτ⟩

/-- The pair may come whenever it comes. -/
theorem Sys.Wf.takesAnswer (hwf : σ.Wf) (hw : σ.workers[i]? = some ⟨s, .callApi q⟩)
    (out err : Bytes) : TakesAnswer i s out err σ := by
  intro now
  have hstep : σ.step (.answer i out err now) = some { σ with
      workers := σ.workers.set i ⟨s, .storeOutput q out err now⟩ } := by
    simp only [Sys.step, hw]
  exact ⟨_, hstep, (hwf.step hstep).later (getElem?_set_some hw _)
    fun τ hτ hwτ => hτ.storesOutput hwτ⟩

/-- **A worker reports** on every input that is not blank and can be decoded, and on no other; the
prompt is the input's text. -/
theorem reports_iff (env : ApiEnv) (uid gid now : Nat) (σ : Sys)
    (hreach : Reach Sys.step (fun _ _ => True) (Sys.init uid gid now) σ) (i : Nat) (s : Str)
    (hw : σ.workers[i]? = some ⟨s, .readInput⟩) (c : Bytes)
    (hc : σ.fs.files (filePath s inputName) = some c)
    (hblank : ∀ q, decodeUtf8 c = some q → isBlank q = false) (q : Str) :
    Reports env i s q σ ↔ decodeUtf8 c = some q := by
  have hwf : σ.Wf := (Sys.wf_init uid gid now).of_reach hreach
  have hread := Sys.step_read hw
  rw [hc, Option.getD_some] at hread
  constructor
  -- the step is determined, so the prompt that is waited with is the decoded input
  · rintro ⟨-, σ', hstep, hcalls, -⟩
    rw [hread] at hstep
    cases hstep
    have hprompt : afterRead c = .callApi q :=
      congrArg Worker.pc (Option.some.inj ((getElem?_set_some hw _).symm.trans hcalls))
    cases hdecode : decodeUtf8 c with
    | some q' =>
      rw [afterRead_of_decode hdecode (hblank q' hdecode)] at hprompt
      cases hprompt
      rfl
    | none =>
      -- the thread has ended, and no answer is waited for
      simp only [afterRead, hdecode] at hprompt
      cases hprompt
  · intro hdecode
    -- it waits for the API, and from there on each of its steps can be taken at any time
    rw [afterRead_of_decode hdecode (hblank q hdecode)] at hread
    refine ⟨fun hfailed => ?_, _, hread, getElem?_set_some hw _, (hwf.step hread).later
      (getElem?_set_some hw _) fun τ hτ hwτ => hτ.takesAnswer hwτ _ _⟩
    rcases callGptApi_cases env q with ⟨hok, -⟩ | ⟨-, -, herror⟩
    · exact absurd hok hfailed
    · exact herror

end

/-- The session `s` with `a` written to its input and a thread started for it. -/
def oneWrite : List Label :=
  [.call (.mkdir ['s'] 0) 0, .call (.write (filePath ['s'] inputName) [97] 0) 0]

/-- The API cannot be reached. -/
def offline : ApiEnv := ⟨['k'], fun _ => .raises true "down".toList, []⟩

theorem reports_iff_oneWrite :
    ∃ σ, Reach Sys.step (fun _ _ => True) (Sys.init 0 0 0) σ ∧
      Reports offline 0 ['s'] ['a'] σ := by
  have hrun : (exec Sys.step (fun _ _ => true) (Sys.init 0 0 0) oneWrite).map
      (fun σ => (σ.workers[0]?, σ.fs.files (filePath ['s'] inputName))) =
      some (some ⟨['s'], .readInput⟩, some [97]) := by
    decide +kernel
  obtain ⟨σ, hreach, hobs⟩ := reach_of_exec_map hrun fun _ _ _ => trivial
  obtain ⟨hw, hc⟩ := Prod.mk.inj hobs
  refine ⟨σ, hreach, ?_⟩
  rw [reports_iff offline 0 0 0 σ hreach 0 ['s'] hw [97] hc]
  · decide
  · intro q hq
    cases hq
    decide

/-- The input `a` has been answered with `A`. Then the first two bytes of a character of three are
appended, and the thread of that write runs. -/
def cutCharacter : List Label :=
  oneWrite ++ [.run 0, .answer 0 [65] [] 0, .run 0, .run 0,
    .call (.write (filePath ['s'] inputName) [0xe4, 0xbd] 1) 0, .run 1]

/-- It has ended without a trace: the output is the old answer, and the error is empty. -/
theorem not_reports :
    (∃ σ, Reach Sys.step (fun _ _ => True) (Sys.init 0 0 0) σ ∧
      σ.workers[1]? = some ⟨['s'], .ended⟩ ∧
      σ.fs.files (filePath ['s'] inputName) = some [97, 0xe4, 0xbd] ∧
      σ.fs.files (filePath ['s'] outputName) = some [65] ∧
      σ.fs.files (filePath ['s'] errorName) = some []) ∧
      decodeUtf8 [97, 0xe4, 0xbd] = none := by
  have hrun : (exec Sys.step (fun _ _ => true) (Sys.init 0 0 0) cutCharacter).map
      (fun σ => (σ.workers[1]?, σ.fs.files (filePath ['s'] inputName),
        σ.fs.files (filePath ['s'] outputName), σ.fs.files (filePath ['s'] errorName))) =
      some (some ⟨['s'], .ended⟩, some [97, 0xe4, 0xbd], some [65], some []) := by
    decide +kernel
  obtain ⟨σ, hreach, hobs⟩ := reach_of_exec_map hrun fun _ _ _ => trivial
  simp only [Prod.mk.injEq] at hobs
  exact ⟨⟨σ, hreach, hobs⟩, by decide⟩

end OsHomework.Gptfs
