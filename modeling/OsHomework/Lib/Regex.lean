import Mathlib.Data.List.Basic

/-!
# Patterns with backtracking

A pattern is matched at a place of a text. `ends` lists the places where a match can end in the
order in which a backtracking matcher tries them, so that a repetition takes as much as it can
first; the match that is found is the head of that list.

`scan` walks over a text from left to right, as searching for all matches or splitting at them does:
behind a match it goes on where the match ended.

* **`first_seq`**, **`ends_seq_of_eq`** — patterns in sequence, if the first alternative of the
  front succeeds, or if it has only one.
* **`first_star`** — a repetition takes all it can.
* **`groups_prefix_of_mem_ends`**, **`mem_ends_group_rep`** — what the groups of any match are.
* **`scan_line`**, **`scan_found`** — a pattern for the start of lines, over a line where it does
  not match and over one that it matches as a whole.
-/

namespace Regex

variable {α : Type*}

/-- What is in front of a place of a text, what is behind it, and the groups captured so far. -/
structure Place (α : Type*) where
  prev : Option α
  rest : List α
  groups : List (List α)

/-- Patterns: a character of a class, repetitions of it, a condition on the place, sequences,
groups, look ahead. -/
inductive Re (α : Type*) where
  | cls (p : α → Bool)
  | star (p : α → Bool)
  | check (p : Option α → List α → Bool)
  | seq (r s : Re α)
  | group (r : Re α)
  | ahead (r : Re α)

/-! ## Forms of patterns

What a line or a text begins or ends with is a check of the place and takes no character. A newline
is whatever the user of the patterns says. -/

section

variable (newline : α → Bool)

/-- The start of the text. -/
def Re.textStart : Re α := .check fun prev _ => prev.isNone

/-- The start of a line. -/
def Re.lineStart : Re α := .check fun prev _ => prev.all newline

/-- The end of a line. -/
def Re.lineEnd : Re α := .check fun _ rest => rest.head?.all newline

/-- The end of the text, or a newline that ends it. -/
def Re.textEnd : Re α := .check fun _ rest => rest.all newline && rest.length ≤ 1

end

/-- One or more characters. -/
def Re.plus (p : α → Bool) : Re α := .seq (.cls p) (.star p)

/-- Exactly `n` characters. -/
-- `n` times the class
def Re.rep : Nat → (α → Bool) → Re α
  | 0, _ => .check fun _ _ => true
  | n + 1, p => .seq (.cls p) (rep n p)

/-- The given characters. -/
def Re.lit [BEq α] : List α → Re α
  | [] => .check fun _ _ => true
  | c :: cs => .seq (.cls (· == c)) (lit cs)

/-! ## Matching

All possible ends are listed, not only the one that is found, since a sequence whose second part
fails goes back to the next end of its first part. A look ahead has at most one end: once it has
succeeded it is not tried again. -/

/-- The ends of a repetition, the longest first. -/
def starEnds (p : α → Bool) (prev : Option α) (groups : List (List α)) : List α → List (Place α)
  | [] => [⟨prev, [], groups⟩]
  | c :: cs =>
    if p c then starEnds p (some c) groups cs ++ [⟨prev, c :: cs, groups⟩]
    else [⟨prev, c :: cs, groups⟩]

/-- The ends of the matches at a place, in the order in which they are tried. -/
def ends : Re α → Place α → List (Place α)
  | .cls p, a =>
    match a.rest with
    | [] => []
    | c :: cs => if p c then [⟨some c, cs, a.groups⟩] else []
  | .star p, a => starEnds p a.prev a.groups a.rest
  | .check p, a => if p a.prev a.rest then [a] else []
  | .seq r s, a => (ends r a).flatMap (ends s)
  -- the characters that the match has taken
  | .group r, a =>
    (ends r a).map fun e =>
      { e with groups := e.groups ++ [a.rest.take (a.rest.length - e.rest.length)] }
  | .ahead r, a => (ends r a).head?.toList.map fun e => { a with groups := e.groups }

/-- The end of the match that is found. -/
def first (r : Re α) (a : Place α) : Option (Place α) := (ends r a).head?

/-- The match at the start of a text. -/
def matchStart (r : Re α) (text : List α) : Option (Place α) := first r ⟨none, text, []⟩

/-! ## Searching

A search tries every place from left to right. Behind a match that is not empty it goes on where the
match ended, behind an empty one with the next character; the characters it passes by are kept as
they are. -/

/-- The matches of a search that begin at a place. Behind an empty one the search tries once more
for one that is not. -/
def foundAt (r : Re α) (a : Place α) : List (Place α) :=
  match first r a with
  | none => []
  | some e =>
    if e.rest.length < a.rest.length then [e]
    else e :: ((ends r a).find? fun e => e.rest.length < a.rest.length).toList

/-- A text is made of matches and of the characters that are in none. -/
inductive Token (α : Type*) where
  | char (c : α)
  | found (groups : List (List α))

/-- The text cut up by a search; `skip` characters are in the last match. -/
def scan (r : Re α) (skip : Nat) (prev : Option α) : List α → List (Token α)
  | [] => if skip = 0 then (foundAt r ⟨prev, [], []⟩).map (.found ·.groups) else []
  | c :: cs =>
    if skip = 0 then
      let found := foundAt r ⟨prev, c :: cs, []⟩
      -- the last one is the longest
      let length := (found.getLast?.map fun e => cs.length + 1 - e.rest.length).getD 0
      found.map (.found ·.groups) ++ (if length = 0 then [.char c] else []) ++
        scan r (length - 1) (some c) cs
    else scan r (skip - 1) (some c) cs

/-- The group a search reports. -/
def Token.group? : Token α → Option (List α)
  | .char _ => none
  | .found groups => groups.head?

/-- The character, if the token is one. -/
def Token.char? : Token α → Option α
  | .char c => some c
  | .found _ => none

/-- The first group of every match. -/
def findAll (r : Re α) (text : List α) : List (List α) :=
  (scan r 0 none text).filterMap Token.group?

/-- The stretches between the matches. -/
def split (r : Re α) (text : List α) : List (List α) :=
  ((scan r 0 none text).splitOnP fun t => t.char?.isNone).map (·.filterMap Token.char?)

/-! ## Rules for matching

A pattern that can end in one place only is computed by `ends_…` lemmas, a pattern with a repetition
in it by `first_…` lemmas, which need the repetition to be followed by something it cannot take. -/

section

variable {p : α → Bool} {r s : Re α} {a e f : Place α}
  {prev : Option α} {c : α} {xs rest : List α} {groups : List (List α)}

/-- The character in front of the place behind `xs`. -/
def prevAfter (prev : Option α) (xs : List α) : Option α := xs.foldl (fun _ c => some c) prev

theorem prevAfter_append (prev : Option α) (xs ys : List α) :
    prevAfter prev (xs ++ ys) = prevAfter (prevAfter prev xs) ys :=
  List.foldl_append

theorem ends_seq (r s : Re α) (a : Place α) : ends (.seq r s) a = (ends r a).flatMap (ends s) :=
  rfl

theorem ends_star (p : α → Bool) (a : Place α) :
    ends (.star p) a = starEnds p a.prev a.groups a.rest :=
  rfl

theorem ends_ahead (r : Re α) (a : Place α) :
    ends (.ahead r) a = (ends r a).head?.toList.map fun e => { a with groups := e.groups } :=
  rfl

theorem ends_check {p : Option α → List α → Bool} (h : p a.prev a.rest = true) :
    ends (.check p) a = [a] :=
  if_pos h

theorem ends_check_of_false {p : Option α → List α → Bool} (h : p a.prev a.rest = false) :
    ends (.check p) a = [] :=
  if_neg (Bool.eq_false_iff.mp h)

theorem ends_textStart : ends .textStart ⟨none, rest, groups⟩ = [⟨none, rest, groups⟩] :=
  ends_check rfl

theorem ends_lineStart {newline : α → Bool} (h : prev.all newline = true) :
    ends (.lineStart newline) ⟨prev, rest, groups⟩ = [⟨prev, rest, groups⟩] :=
  ends_check h

/-- A front with one end. -/
theorem ends_seq_of_eq (h : ends r a = [e]) : ends (.seq r s) a = ends s e := by
  rw [ends_seq, h, List.flatMap_singleton]

/-- A front that does not match. -/
theorem ends_seq_of_nil (h : ends r a = []) : ends (.seq r s) a = [] := by
  rw [ends_seq, h, List.flatMap_nil]

/-- The first end of the front, if the rest goes on from there. -/
theorem first_seq (hr : first r a = some e) (hs : first s e = some f) :
    first (.seq r s) a = some f := by
  obtain ⟨es, hes⟩ := List.head?_eq_some_iff.mp hr
  rw [first, ends_seq, hes, List.flatMap_cons, List.head?_append]
  rw [first] at hs
  rw [hs]
  rfl

theorem ends_cls (hc : p c = true) :
    ends (.cls p) ⟨prev, c :: rest, groups⟩ = [⟨some c, rest, groups⟩] :=
  if_pos hc

theorem ends_cls_of_false (hc : ∀ c ∈ rest.head?, p c = false) :
    ends (.cls p) ⟨prev, rest, groups⟩ = [] := by
  cases rest with
  | nil => rfl
  | cons c cs => exact if_neg (Bool.eq_false_iff.mp (hc c rfl))

/-- A repetition that cannot take anything. -/
theorem ends_star_of_false (h : ∀ c ∈ rest.head?, p c = false) :
    ends (.star p) ⟨prev, rest, groups⟩ = [⟨prev, rest, groups⟩] := by
  cases rest with
  | nil => rfl
  | cons c cs => exact if_neg (Bool.eq_false_iff.mp (h c rfl))

/-- **A repetition** takes all it can. -/
theorem first_star (hxs : ∀ c ∈ xs, p c = true) (hrest : ∀ c ∈ rest.head?, p c = false) :
    first (.star p) ⟨prev, xs ++ rest, groups⟩ = some ⟨prevAfter prev xs, rest, groups⟩ := by
  induction xs generalizing prev with
  | nil =>
    rw [first, List.nil_append, ends_star_of_false hrest]
    rfl
  | cons c cs ih =>
    have hfirst : first (.star p) ⟨some c, cs ++ rest, groups⟩ =
        some ⟨prevAfter (some c) cs, rest, groups⟩ :=
      ih fun d hd => hxs d (List.mem_cons_of_mem c hd)
    rw [first, ends_star] at hfirst
    rw [first, ends_star, List.cons_append, starEnds, if_pos (hxs c List.mem_cons_self),
      List.head?_append, hfirst]
    rfl

theorem first_plus (hne : xs ≠ []) (hxs : ∀ c ∈ xs, p c = true)
    (hrest : ∀ c ∈ rest.head?, p c = false) :
    first (.plus p) ⟨prev, xs ++ rest, groups⟩ = some ⟨prevAfter prev xs, rest, groups⟩ := by
  obtain ⟨c, cs, rfl⟩ := List.exists_cons_of_ne_nil hne
  rw [first, Re.plus, List.cons_append, ends_seq_of_eq (ends_cls (hxs c List.mem_cons_self))]
  exact first_star (fun d hd => hxs d (List.mem_cons_of_mem c hd)) hrest

/-- A group captures what the pattern in it has taken. -/
theorem first_group
    (h : first r ⟨prev, xs ++ rest, groups⟩ = some ⟨prevAfter prev xs, rest, groups⟩) :
    first (.group r) ⟨prev, xs ++ rest, groups⟩ =
      some ⟨prevAfter prev xs, rest, groups ++ [xs]⟩ := by
  have hmap : first (.group r) ⟨prev, xs ++ rest, groups⟩ =
      (first r ⟨prev, xs ++ rest, groups⟩).map fun e => { e with
        groups := e.groups ++ [(xs ++ rest).take ((xs ++ rest).length - e.rest.length)] } :=
    List.head?_map
  rw [hmap, h]
  simp

theorem first_of_eq (h : ends r a = [e]) : first r a = some e := by
  rw [first, h, List.head?_singleton]

/-- Exactly `n` characters, and no other end. -/
theorem ends_rep {n : Nat} (hlength : xs.length = n) (hxs : ∀ c ∈ xs, p c = true) :
    ends (.rep n p) ⟨prev, xs ++ rest, groups⟩ = [⟨prevAfter prev xs, rest, groups⟩] := by
  induction xs generalizing n prev with
  | nil =>
    subst hlength
    rfl
  | cons c cs ih =>
    subst hlength
    rw [List.length_cons, Re.rep, List.cons_append,
      ends_seq_of_eq (ends_cls (hxs c List.mem_cons_self)),
      ih rfl fun d hd => hxs d (List.mem_cons_of_mem c hd)]
    rfl

/-- A literal matches itself. -/
theorem ends_lit [BEq α] [LawfulBEq α] :
    ends (.lit xs) ⟨prev, xs ++ rest, groups⟩ = [⟨prevAfter prev xs, rest, groups⟩] := by
  induction xs generalizing prev with
  | nil => rfl
  | cons c cs ih =>
    have hc : ends (.cls (· == c)) ⟨prev, c :: (cs ++ rest), groups⟩ =
        [⟨some c, cs ++ rest, groups⟩] :=
      ends_cls (beq_self_eq_true c)
    rw [Re.lit, List.cons_append, ends_seq_of_eq hc, ih]
    rfl

/-- A literal does not match where its first character is not. -/
theorem ends_lit_of_ne [BEq α] [LawfulBEq α] (hc : c ∉ rest.head?) :
    ends (.lit (c :: xs)) ⟨prev, rest, groups⟩ = [] := by
  refine ends_seq_of_nil (ends_cls_of_false fun d hd => beq_eq_false_iff_ne.mpr ?_)
  rintro rfl
  exact hc hd

/-! ### What a match can be

Conversely, what is known of any match, whichever alternative it comes from. -/

/-- One character was taken. -/
theorem mem_ends_cls (h : e ∈ ends (.cls p) a) :
    ∃ c, (p c = true ∧ a.rest = c :: e.rest) ∧ e.groups = a.groups := by
  obtain ⟨prev, rest, groups⟩ := a
  cases rest with
  | nil => cases h
  | cons c cs =>
    by_cases hc : p c = true
    · rw [ends_cls hc] at h
      rw [List.mem_singleton.mp h]
      exact ⟨c, ⟨hc, rfl⟩, rfl⟩
    · rw [ends_cls_of_false fun d hd => (Option.some_inj.mp hd) ▸ Bool.eq_false_iff.mpr hc] at h
      cases h

theorem mem_ends_check {p : Option α → List α → Bool} (h : e ∈ ends (.check p) a) : e = a := by
  rw [ends] at h
  split at h
  next => exact List.mem_singleton.mp h
  next => cases h

theorem groups_of_mem_starEnds (h : e ∈ starEnds p prev groups rest) : e.groups = groups := by
  induction rest generalizing prev with
  | nil => rw [List.mem_singleton.mp h]
  | cons c cs ih =>
    rw [starEnds] at h
    split at h
    next =>
      rcases List.mem_append.mp h with hlong | hempty
      · exact ih hlong
      · rw [List.mem_singleton.mp hempty]
    next => rw [List.mem_singleton.mp h]

/-- Groups are only added. -/
theorem groups_prefix_of_mem_ends (h : e ∈ ends r a) : a.groups <+: e.groups := by
  induction r generalizing a e with
  | cls p =>
    obtain ⟨c, -, hgroups⟩ := mem_ends_cls h
    exact ⟨[], by rw [List.append_nil, hgroups]⟩
  | star p => exact ⟨[], by rw [List.append_nil, groups_of_mem_starEnds h]⟩
  | check p => exact ⟨[], by rw [List.append_nil, mem_ends_check h]⟩
  | seq r s ihr ihs =>
    obtain ⟨f, hf, he⟩ := List.mem_flatMap.mp h
    -- the groups of the front are there when the rest begins
    exact (ihr hf).trans (ihs he)
  | group r ih =>
    obtain ⟨f, hf, rfl⟩ := List.mem_map.mp h
    exact (ih hf).trans (List.prefix_append ..)
  | ahead r ih =>
    obtain ⟨f, hf, rfl⟩ := List.mem_map.mp h
    -- a look ahead keeps the groups of the match it has seen
    have hprefix : a.groups <+: f.groups := ih (List.mem_of_head? (Option.mem_toList.mp hf))
    exact hprefix

/-- Exactly `n` characters of the class were taken, and no group was captured. -/
theorem mem_ends_rep {n : Nat} (h : e ∈ ends (.rep n p) a) :
    e.groups = a.groups ∧
      ∃ xs, xs.length = n ∧ (∀ c ∈ xs, p c = true) ∧ a.rest = xs ++ e.rest := by
  induction n generalizing a with
  | zero =>
    rw [mem_ends_check h]
    exact ⟨rfl, [], rfl, fun _ hc => absurd hc List.not_mem_nil, rfl⟩
  | succ n ih =>
    obtain ⟨f, hf, he⟩ := List.mem_flatMap.mp h
    obtain ⟨c, ⟨hc, hrest⟩, hgroups⟩ := mem_ends_cls hf
    obtain ⟨hgroups', xs, hlength, hxs, hrest'⟩ := ih he
    refine ⟨hgroups'.trans hgroups, c :: xs, congrArg (· + 1) hlength, ?_, ?_⟩
    · exact List.forall_mem_cons.mpr ⟨hc, hxs⟩
    · rw [hrest, hrest', List.cons_append]

/-- What a group of exactly `n` characters captures. -/
theorem mem_ends_group_rep {n : Nat} (h : e ∈ ends (.group (.rep n p)) a) :
    ∃ xs, xs.length = n ∧ (∀ c ∈ xs, p c = true) ∧ e.groups = a.groups ++ [xs] := by
  obtain ⟨f, hf, rfl⟩ := List.mem_map.mp h
  obtain ⟨hgroups, xs, hlength, hxs, hrest⟩ := mem_ends_rep hf
  refine ⟨xs, hlength, hxs, ?_⟩
  show f.groups ++ [a.rest.take (a.rest.length - f.rest.length)] = a.groups ++ [xs]
  rw [hgroups, hrest, List.length_append, Nat.add_sub_cancel, List.take_left]

end

/-! ## Rules for searching

Patterns that match at the start of lines only are searched line by line: what happens inside a line
is known without looking at it. -/

section

variable {newline : α → Bool} {r : Re α} {a e : Place α} {prev : Option α} {c n : α}
  {xs cs rest : List α} {groups : List (List α)}

/-- The pattern matches at the start of lines only. -/
def LineAnchored (newline : α → Bool) (r : Re α) : Prop :=
  ∀ a, a.prev.all newline = false → ends r a = []

/-- A pattern that begins with the start of a line. -/
theorem lineAnchored_seq : LineAnchored newline (.seq (.lineStart newline) r) := by
  intro a ha
  exact ends_seq_of_nil (ends_check_of_false ha)

theorem LineAnchored.ahead (h : LineAnchored newline r) : LineAnchored newline (.ahead r) := by
  intro a ha
  rw [ends_ahead, h a ha]
  rfl

theorem foundAt_of_nil (h : ends r a = []) : foundAt r a = [] := by
  rw [foundAt, first, h]
  rfl

/-- A character that no match begins at. -/
theorem scan_char (h : ends r ⟨prev, c :: cs, []⟩ = []) :
    scan r 0 prev (c :: cs) = .char c :: scan r 0 (some c) cs := by
  simp [scan, foundAt_of_nil h]

/-- Inside a line the character in front is no newline. -/
theorem prevAfter_all (hc : newline c = false) (hcs : ∀ d ∈ cs, newline d = false) :
    (prevAfter (some c) cs).all newline = false := by
  induction cs generalizing c with
  | nil => exact hc
  | cons d cs ih =>
    exact ih (hcs d List.mem_cons_self) fun e he => hcs e (List.mem_cons_of_mem d he)

/-- An empty match, in front of the next character. -/
theorem scan_empty (h : ends r ⟨prev, c :: cs, []⟩ = [⟨prev, c :: cs, groups⟩]) :
    scan r 0 prev (c :: cs) = .found groups :: .char c :: scan r 0 (some c) cs := by
  simp [scan, foundAt, first, h]

/-- The characters of a match are passed over. -/
theorem scan_skip (xs : List α) :
    scan r xs.length prev (xs ++ rest) = scan r 0 (prevAfter prev xs) rest := by
  induction xs generalizing prev with
  | nil => rfl
  | cons c cs ih =>
    rw [List.cons_append, scan, List.length_cons, if_neg (Nat.succ_ne_zero _), Nat.add_sub_cancel,
      ih]
    rfl

section

variable (hanchored : LineAnchored newline r)

include hanchored

/-- From the inside of a line to the next one. -/
theorem scan_inside (hc : newline c = false) (hcs : ∀ d ∈ cs, newline d = false) :
    scan r 0 (some c) (cs ++ n :: rest) =
      (cs ++ [n]).map .char ++ scan r 0 (some n) rest := by
  induction cs generalizing c with
  | nil => exact scan_char (hanchored ⟨some c, _, _⟩ hc)
  | cons d cs ih =>
    rw [List.cons_append, scan_char (hanchored ⟨some c, _, _⟩ hc),
      ih (hcs d List.mem_cons_self) fun e he => hcs e (List.mem_cons_of_mem d he)]
    rfl

/-- **A line without a match.** -/
theorem scan_line (hxs : ∀ d ∈ xs, newline d = false)
    (hends : ends r ⟨prev, xs ++ n :: rest, []⟩ = []) :
    scan r 0 prev (xs ++ n :: rest) = (xs ++ [n]).map .char ++ scan r 0 (some n) rest := by
  cases xs with
  | nil => exact scan_char hends
  | cons c cs =>
    rw [List.cons_append] at hends ⊢
    rw [scan_char hends, scan_inside hanchored (hxs c List.mem_cons_self)
      fun d hd => hxs d (List.mem_cons_of_mem c hd)]
    rfl

/-- **A line with an empty match** at its start. -/
theorem scan_line_empty (hne : xs ≠ []) (hxs : ∀ d ∈ xs, newline d = false)
    (hends : ends r ⟨prev, xs ++ n :: rest, []⟩ = [⟨prev, xs ++ n :: rest, groups⟩]) :
    scan r 0 prev (xs ++ n :: rest) =
      .found groups :: (xs ++ [n]).map .char ++ scan r 0 (some n) rest := by
  obtain ⟨c, cs, rfl⟩ := List.exists_cons_of_ne_nil hne
  rw [List.cons_append] at hends ⊢
  rw [scan_empty hends, scan_inside hanchored (hxs c List.mem_cons_self)
    fun d hd => hxs d (List.mem_cons_of_mem c hd)]
  rfl

/-- **A line that is a match** as a whole. -/
theorem scan_found (hne : xs ≠ []) (hxs : ∀ d ∈ xs, newline d = false)
    (hfirst : first r ⟨prev, xs ++ n :: rest, []⟩ =
      some ⟨prevAfter prev xs, n :: rest, groups⟩) :
    scan r 0 prev (xs ++ n :: rest) = .found groups :: .char n :: scan r 0 (some n) rest := by
  obtain ⟨c, cs, rfl⟩ := List.exists_cons_of_ne_nil hne
  rw [List.cons_append] at hfirst ⊢
  -- the match takes the line up to its newline
  have hlength : (cs ++ n :: rest).length + 1 - (n :: rest).length = cs.length + 1 := by
    rw [List.length_append]
    omega
  have hlt : (n :: rest).length < (c :: (cs ++ n :: rest)).length := by
    rw [List.length_cons (a := c), List.length_append]
    omega
  -- it is not empty, so the search does not try again at this place
  have hfound : foundAt r ⟨prev, c :: (cs ++ n :: rest), []⟩ =
      [⟨prevAfter (some c) cs, n :: rest, groups⟩] := by
    rw [foundAt, hfirst]
    exact if_pos hlt
  -- the place behind the match is inside the line
  have hbehind : ends r ⟨prevAfter (some c) cs, n :: rest, []⟩ = [] :=
    hanchored ⟨_, _, _⟩ (prevAfter_all (hxs c List.mem_cons_self)
      fun d hd => hxs d (List.mem_cons_of_mem c hd))
  rw [scan, if_pos rfl, hfound]
  simp only [List.getLast?_singleton, Option.map_some, Option.getD_some, hlength,
    Nat.succ_ne_zero, if_false, Nat.add_sub_cancel, scan_skip, scan_char hbehind]
  rfl

end

/-- Texts, each with an empty match in front of it. -/
def marked (texts : List (List α)) : List (Token α) :=
  texts.flatMap fun text => Token.found [] :: text.map Token.char

theorem filterMap_char? (xs : List α) : (xs.map Token.char).filterMap Token.char? = xs := by
  rw [List.filterMap_map]
  exact List.filterMap_some

theorem filterMap_group? (xs : List α) : (xs.map Token.char).filterMap Token.group? = [] := by
  rw [List.filterMap_map]
  exact List.filterMap_none xs

/-- The stretches between the marks are the texts. -/
theorem pieces_marked (xs : List α) (texts : List (List α)) :
    ((xs.map Token.char ++ marked texts).splitOnP fun t => t.char?.isNone).map
      (·.filterMap Token.char?) = xs :: texts := by
  have hsep (xs : List α) : ∀ t ∈ xs.map Token.char, t.char?.isNone = false := by
    intro t ht
    obtain ⟨c, -, rfl⟩ := List.mem_map.mp ht
    rfl
  -- over the texts, with what is in front of the first mark
  induction texts generalizing xs with
  | nil =>
    rw [marked, List.flatMap_nil, List.append_nil, List.splitOnP_eq_singleton (hsep xs)]
    exact congrArg (· :: []) (filterMap_char? xs)
  | cons text texts ih =>
    have hmarked : marked (text :: texts) =
        .found [] :: (text.map Token.char ++ marked texts) := by
      rw [marked, List.flatMap_cons, List.cons_append, marked]
    rw [hmarked, List.splitOnP_append_cons_of_forall_mem (hsep xs) (.found []) rfl, List.map_cons,
      ih, filterMap_char?]

/-- **Splitting** at the empty matches. -/
theorem split_of_scan {text : List α} {texts : List (List α)}
    (h : scan r 0 none text = marked texts) : split r text = [] :: texts := by
  rw [split, h]
  exact pieces_marked [] texts

end

end Regex
