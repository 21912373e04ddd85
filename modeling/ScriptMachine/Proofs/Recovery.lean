import Mathlib.Data.List.SplitBy
import ScriptMachine.Proofs.Passing

/-!
# Errors stay in their functions

A list of tokens falls into segments, one for each `fn` and perhaps one before the first
(`segments`). When a function cannot be read, reading resumes at the next segment, wherever in
its own segment it failed, since it has not passed another `fn` up to there. So functions are read
as if each segment stood alone: what stands behind a function does not matter
(`readFunction_of_front`), and a segment is reported once at most.

* `readFunctions_segments`: what is read from a cursor on, segment by segment.
* `readFunctions_positions`: errors are reported from left to right.
* `Sweep.attempt`: reading as a loop that collects functions and errors; every attempt takes a
  token (`Sweep.remaining_of_attempt`), so that it ends (`Sweep.attempt_after`).
* `Script.ofTokens_segments`: all this together.
-/

namespace ScriptMachine

open Cursor

variable {c c' : Cursor}

/-! ## A function and what stands behind it -/

theorem span_of_readFunction {read : Read Function c.remaining} (h : readFunction c = .ok read) :
    read.value.span = c.span.merge read.cursor.previous := by
  rw [readFunction] at h
  split at h
  · obtain ⟨name, -, h⟩ := Grammar.read_of_bind h
    obtain ⟨opening, -, h⟩ := Grammar.read_of_bind h
    obtain ⟨params, -, h⟩ := Grammar.read_of_bind h
    obtain ⟨body, -, h⟩ := Grammar.read_of_bind h
    obtain rfl := Except.ok.inj h
    rfl
  · cases h

theorem peek_of_readFunction {read : Read Function c.remaining} (h : readFunction c = .ok read) :
    c.peek = some (.keyword .function) := by
  rw [readFunction] at h
  split at h
  · assumption
  · cases h

/-- What a function is read from: its `fn`, and no other one. -/
theorem takes_of_readFunction {read : Read Function c.remaining} (h : readFunction c = .ok read) :
    ∃ span ts, c.Takes ((.keyword .function, span) :: ts) read.cursor ∧
      ∀ t ∈ ts, t.1.startsFunction = false := by
  have hpeek := peek_of_readFunction h
  have hkeeps := keeps_readFunction hpeek
  rw [h] at hkeeps
  obtain ⟨ts, htakes, hts⟩ := hkeeps
  obtain ⟨span, hfirst⟩ := takes_advance hpeek
  exact ⟨span, ts, hfirst.append htakes, hts⟩

/-- The place of a function is that of its tokens. -/
theorem span_eq_of_takes {read : Read Function c.remaining} (h : readFunction c = .ok read)
    {t : Token × Span} {ts : List (Token × Span)} (hc : c.Takes (t :: ts) read.cursor) :
    read.value.span = t.2.merge (ts.foldl (fun _ t => t.2) t.2) := by
  have hspan : c.span = t.2 := by
    rw [Cursor.span, hc.rest]
    rfl
  rw [span_of_readFunction h, hspan, hc.previous]
  rfl

/-- A function is read from its own tokens, with anything behind them. -/
theorem readFunction_of_front {read : Read Function c.remaining} (h : readFunction c = .ok read)
    {ts rest : List (Token × Span)} (hc : c.rest = ts ++ read.cursor.rest)
    (hc' : c'.rest = ts ++ rest) :
    ∃ read', readFunction c' = .ok read' ∧ read'.value = read.value ∧ read'.cursor.rest = rest := by
  obtain ⟨span, more, htakes, -⟩ := takes_of_readFunction h
  obtain rfl := List.append_cancel_right (hc.symm.trans htakes.rest)
  -- The tokens are a phrase of the grammar, so that they are read elsewhere, too.
  obtain ⟨phrase, hphrase, hfunction⟩ := Grammar.takes_readFunction h
  have hahead : c'.ahead = phrase ++ rest.map Prod.fst := by
    rw [Cursor.ahead, hc, List.map_append] at hphrase
    rw [Cursor.ahead, hc', List.map_append, List.append_cancel_right hphrase]
  obtain ⟨span', cursor, progress, hread', hrest⟩ := hfunction.reads hahead
  obtain ⟨_, more', htakes', -⟩ := takes_of_readFunction hread'
  -- What is left has the same length, so it is the same.
  have hlength : cursor.rest.length = rest.length := by
    simpa [Cursor.ahead] using congrArg List.length hrest
  obtain ⟨hsame, rfl⟩ := List.append_inj' (hc'.symm.trans htakes'.rest) hlength.symm
  refine ⟨_, hread', ?_, rfl⟩
  have hspan : read.value.span = span' := by
    rw [span_eq_of_takes h htakes]
    exact (span_eq_of_takes hread' (hsame ▸ htakes')).symm
  rw [← hspan]
  rfl

/-! ## Segments -/

/-- The tokens, cut in front of every `fn`. -/
def segments (tokens : List (Token × Span)) : List (List (Token × Span)) :=
  tokens.splitBy fun _ t => !t.1.startsFunction

/-- Tokens that start with a `fn`, or none at all: a segment ends before them. -/
def AtSegment (ts : List (Token × Span)) : Prop := ∀ t ∈ ts.head?, t.1.startsFunction = true

section Segments

variable {t : Token × Span} {ts ts' rest rest' : List (Token × Span)}

theorem segments_append (hts : ∀ t ∈ ts, t.1.startsFunction = false) (hrest : AtSegment rest) :
    segments (t :: ts ++ rest) = (t :: ts) :: segments rest := by
  have hchain : (t :: ts).IsChain fun _ t => (!t.1.startsFunction) = true := by
    clear hrest
    induction ts generalizing t with
    | nil => exact .singleton t
    | cons x ts ih =>
      obtain ⟨hx, hts⟩ := List.forall_mem_cons.1 hts
      exact .cons_cons (by rw [hx]; rfl) (ih hts)
  rw [segments, List.splitBy_append fun _ _ x hx => by rw [hrest x hx]; rfl,
    List.splitBy_of_isChain (List.cons_ne_nil t ts) hchain]
  rfl

/-- Where the next segment starts is determined. -/
theorem dropWhile_segment (hts : ∀ t ∈ ts, t.1.startsFunction = false) (hrest : AtSegment rest) :
    (ts ++ rest).dropWhile (fun t => !t.1.startsFunction) = rest := by
  rw [List.dropWhile_append_of_pos fun t ht => by rw [hts t ht]; rfl]
  cases rest with
  | nil => rfl
  | cons t rest => rw [List.dropWhile_cons_of_neg (by simp [hrest t rfl])]

theorem rest_eq_of_append (h : ts ++ rest = ts' ++ rest')
    (hts : ∀ t ∈ ts, t.1.startsFunction = false) (hrest : AtSegment rest)
    (hts' : ∀ t ∈ ts', t.1.startsFunction = false) (hrest' : AtSegment rest') : rest = rest' := by
  rw [← dropWhile_segment hts hrest, h, dropWhile_segment hts' hrest']

/-- Tokens without a `fn` do not reach into the next segment. -/
theorem left_of_append (h : ts ++ rest = ts' ++ rest')
    (hts' : ∀ t ∈ ts', t.1.startsFunction = false) (hrest : AtSegment rest) :
    ∃ left, ts = ts' ++ left ∧ rest' = left ++ rest := by
  obtain ⟨more, rfl, hmore⟩ | ⟨left, hleft, hrest'⟩ := List.append_eq_append_iff.1 h
  · cases more with
    | nil => exact ⟨[], by simp, hmore.symm⟩
    | cons t more =>
      have ht := hts' t (List.mem_append_right _ List.mem_cons_self)
      rw [hrest t (hmore ▸ rfl)] at ht
      exact nomatch ht
  · exact ⟨left, hleft, hrest'⟩

/-- The first segment of some tokens. -/
theorem exists_segment (ts : List (Token × Span)) :
    ∃ front rest, ts = front ++ rest ∧ (∀ t ∈ front, t.1.startsFunction = false) ∧
      AtSegment rest := by
  induction ts with
  | nil => exact ⟨[], [], rfl, nofun, nofun⟩
  | cons t ts ih =>
    cases ht : t.1.startsFunction with
    | true => exact ⟨[], t :: ts, rfl, nofun, fun x hx => Option.some.inj hx ▸ ht⟩
    | false =>
      obtain ⟨front, rest, rfl, hfront, hrest⟩ := ih
      exact ⟨t :: front, rest, rfl, List.forall_mem_cons.2 ⟨ht, hfront⟩, hrest⟩

end Segments

/-! ## Where reading resumes -/

theorem passes_skipToFunction (c : Cursor) : c.Passes (skipToFunction c) := by
  fun_induction skipToFunction c with
  | case1 c hpeek => exact .refl c
  | case2 c t hne hpeek hlt ih => exact (passes_advance hpeek (beq_false_of_ne hne)).trans ih
  | case3 c hpeek => exact .refl c

theorem atSegment_skipToFunction (c : Cursor) : AtSegment (skipToFunction c).rest := by
  fun_induction skipToFunction c with
  | case1 c hpeek =>
    intro t ht
    rw [peek, Option.mem_def.1 ht] at hpeek
    exact beq_of_eq (Option.some.inj hpeek)
  | case2 c t hne hpeek hlt ih => exact ih
  | case3 c hpeek =>
    intro t ht
    rw [peek, Option.mem_def.1 ht] at hpeek
    cases hpeek

/-- A failure at another token than `fn` is reported at once. -/
theorem readFunction_of_peek {t : Token} (hpeek : c.peek = some t)
    (ht : t.startsFunction = false) :
    readFunction c = c.fail (.notFunction (some t)) := by
  rw [readFunction]
  split
  · next hfn =>
    obtain rfl := Option.some.inj (hpeek.symm.trans hfn)
    cases ht
  · rw [hpeek]

/-- After a failure, reading resumes at the next segment, and not before the error. -/
theorem resume_of_failure {t : Token} {failure : Failure} (hpeek : c.peek = some t)
    (h : readFunction c = .error failure) :
    c.advance.Passes (resume c failure.cursor) ∧ AtSegment (resume c failure.cursor).rest ∧
      c.position ≤ failure.error.position ∧
      failure.error.position ≤ (resume c failure.cursor).position ∧
      (t.startsFunction = true → c.position < failure.error.position) := by
  obtain ⟨span, htakes⟩ := takes_advance hpeek
  have hnext : c.advance.position = c.position + 1 := htakes.position
  cases ht : t.startsFunction with
  | false =>
    rw [readFunction_of_peek hpeek ht] at h
    obtain rfl := Except.error.inj h
    rw [resume, if_pos rfl]
    have hskip := passes_skipToFunction c.advance
    refine ⟨hskip, atSegment_skipToFunction _, Nat.le_refl _, ?_, nofun⟩
    exact Nat.le_trans (hnext ▸ Nat.le_succ _) hskip.position_le
  | true =>
    obtain rfl := eq_of_beq ht
    have hkeeps := keeps_readFunction hpeek
    rw [h] at hkeeps
    obtain ⟨hpasses, hle, hle'⟩ := hkeeps
    -- The first token was taken, so reading goes on from where it stopped.
    have hmoved : failure.cursor.position ≠ c.position := by omega
    rw [resume, if_neg hmoved]
    have hskip := passes_skipToFunction failure.cursor
    have hle'' := hskip.position_le
    exact ⟨hpasses.trans hskip, atSegment_skipToFunction _, by omega, by omega, fun _ => by omega⟩

/-- A failed attempt has taken a token, too. -/
theorem remaining_resume_lt {t : Token} {failure : Failure} (hpeek : c.peek = some t)
    (h : readFunction c = .error failure) :
    (resume c failure.cursor).remaining < c.remaining := by
  obtain ⟨⟨ts, htakes, -⟩, -⟩ := resume_of_failure hpeek h
  have hlength := congrArg List.length htakes.rest
  rw [List.length_append] at hlength
  have hlt := remaining_advance_lt hpeek
  simp only [remaining] at hlt ⊢
  omega

/-! ## Reading segment by segment -/

/-- A segment that is reported: its function cannot be read, as when it has no `fn`, or something
    is left behind it. -/
def isFaulty (segment : List (Token × Span)) : Bool :=
  match readFunction (start segment) with
  | .ok f => !f.cursor.rest.isEmpty
  | .error _ => true

/-- Whether a segment is that of a function. -/
def isHeaded (segment : List (Token × Span)) : Bool := segment.head?.any (·.1.startsFunction)

/-- The function of a segment that stands alone. -/
def functionOf (segment : List (Token × Span)) : Option Function :=
  match readFunction (start segment) with
  | .ok f => some f.value
  | .error _ => none

section Reading

variable {t : Token × Span} {ts rest : List (Token × Span)}

theorem peek_of_rest (hc : c.rest = t :: ts) : c.peek = some t.1 := by
  rw [peek, hc]
  rfl

/-- Tokens before the first `fn` are reported, and there is no function in them. -/
theorem headless (ht : t.1.startsFunction = false) :
    isFaulty (t :: ts) = true ∧ functionOf (t :: ts) = none := by
  have hread := @readFunction_of_peek (start (t :: ts)) _ rfl ht
  rw [isFaulty, functionOf, hread]
  exact ⟨rfl, rfl⟩

/-- A failure in a segment is one of the segment alone, and ends with it. -/
theorem segment_of_failure {failure : Failure} (hc : c.rest = t :: ts ++ rest)
    (hts : ∀ t ∈ ts, t.1.startsFunction = false) (hrest : AtSegment rest)
    (h : readFunction c = .error failure) :
    isFaulty (t :: ts) = true ∧ functionOf (t :: ts) = none ∧
      (resume c failure.cursor).rest = rest := by
  have hfails : ∃ failure', readFunction (start (t :: ts)) = .error failure' := by
    cases hread : readFunction (start (t :: ts)) with
    | error failure' => exact ⟨failure', rfl⟩
    | ok read =>
      obtain ⟨span, more, htakes, -⟩ := takes_of_readFunction hread
      have hrest' : t :: ts = _ ++ read.cursor.rest := htakes.rest
      rw [hrest', List.append_assoc] at hc
      obtain ⟨read', hread', -⟩ := readFunction_of_front hread hrest' hc
      exact nomatch h.symm.trans hread'
  obtain ⟨failure', hfails⟩ := hfails
  refine ⟨by rw [isFaulty, hfails], by rw [functionOf, hfails], ?_⟩
  obtain ⟨⟨more, htakes, hmore⟩, hat, -⟩ := resume_of_failure (peek_of_rest hc) h
  have hadvance : c.advance.rest = ts ++ rest := by
    rw [advance, hc]
    rfl
  exact rest_eq_of_append (htakes.rest.symm.trans hadvance) hmore hat hts hrest

/-- A function that is read in a segment is that of the segment alone, and reading goes on in
    what the segment has left. -/
theorem segment_of_success {read : Read Function c.remaining} (hc : c.rest = t :: ts ++ rest)
    (hts : ∀ t ∈ ts, t.1.startsFunction = false) (hrest : AtSegment rest)
    (h : readFunction c = .ok read) :
    functionOf (t :: ts) = some read.value ∧ ∃ left, (∀ t ∈ left, t.1.startsFunction = false) ∧
      isFaulty (t :: ts) = !left.isEmpty ∧ read.cursor.rest = left ++ rest := by
  obtain ⟨span, more, htakes, hmore⟩ := takes_of_readFunction h
  obtain ⟨rfl, htail⟩ := List.cons.inj (hc.symm.trans htakes.rest)
  obtain ⟨left, rfl, hleft⟩ := left_of_append htail hmore hrest
  have hfront : (start ((.keyword .function, span) :: (more ++ left))).rest =
      (.keyword .function, span) :: more ++ left := rfl
  obtain ⟨alone, halone, hvalue, hleft'⟩ := readFunction_of_front h htakes.rest hfront
  refine ⟨?_, left, fun t ht => hts t (List.mem_append_right _ ht), ?_, hleft⟩
  · simp only [functionOf, halone, hvalue]
  · simp only [isFaulty, halone, hleft']

/-- What a function leaves of its segment is one more fault, and no function. -/
theorem segments_left (hts : ∀ t ∈ ts, t.1.startsFunction = false) (hrest : AtSegment rest) :
    (segments (ts ++ rest)).countP isFaulty =
        (segments rest).countP isFaulty + (if !ts.isEmpty then 1 else 0) ∧
      (segments (ts ++ rest)).filterMap functionOf = (segments rest).filterMap functionOf := by
  cases ts with
  | nil => exact ⟨rfl, rfl⟩
  | cons t ts =>
    obtain ⟨ht, hts⟩ := List.forall_mem_cons.1 hts
    obtain ⟨hfaulty, hnone⟩ := headless ht
    rw [segments_append hts hrest, List.countP_cons_of_pos hfaulty,
      List.filterMap_cons_none hnone]
    exact ⟨rfl, rfl⟩

end Reading

theorem readFunctions_zero (c : Cursor) : readFunctions 0 c = ⟨⟨[]⟩, []⟩ := by
  rw [readFunctions.eq_def]
  cases c.peek <;> rfl

theorem readFunctions_failure {allowed : Nat} {t : Token} {failure : Failure}
    (hpeek : c.peek = some t) (h : readFunction c = .error failure) :
    readFunctions (allowed + 1) c =
      ⟨(readFunctions allowed (resume c failure.cursor)).script,
        failure.error :: (readFunctions allowed (resume c failure.cursor)).errors⟩ := by
  rw [readFunctions.eq_def, hpeek]
  dsimp only
  rw [h]

/-- Every faulty segment is reported, as long as errors are allowed, and with errors to spare,
    every function of a segment is read. -/
theorem readFunctions_segments (allowed : Nat) (c : Cursor) :
    (readFunctions allowed c).errors.length = min allowed ((segments c.rest).countP isFaulty) ∧
      ((segments c.rest).countP isFaulty < allowed →
        (readFunctions allowed c).script.functions = (segments c.rest).filterMap functionOf) := by
  cases allowed with
  | zero =>
    rw [readFunctions_zero, Nat.zero_min]
    exact ⟨rfl, nofun⟩
  | succ allowed =>
    cases hc : c.rest with
    | nil =>
      rw [readFunctions_nil (by rw [ahead, hc]; rfl)]
      exact ⟨rfl, fun _ => rfl⟩
    | cons t ts =>
      obtain ⟨ts, rest, rfl, hts, hrest⟩ := exists_segment ts
      rw [← List.cons_append] at hc ⊢
      rw [segments_append hts hrest]
      cases hread : readFunction c with
      | ok read =>
        obtain ⟨hfunction, left, hleft, hfaulty, hcursor⟩ :=
          segment_of_success hc hts hrest hread
        have := read.progress
        obtain ⟨hlength, hfunctions⟩ := readFunctions_segments (allowed + 1) read.cursor
        obtain ⟨hcount, hsame⟩ := segments_left hleft hrest
        rw [hcursor, hcount] at hlength hfunctions
        rw [readFunctions_cons hread, List.countP_cons, hfaulty,
          List.filterMap_cons_some hfunction, ← hsame, ← hcursor]
        exact ⟨hlength, fun hlt => congrArg (read.value :: ·) (hcursor ▸ hfunctions hlt)⟩
      | error failure =>
        obtain ⟨hfaulty, hnone, hresume⟩ := segment_of_failure hc hts hrest hread
        have := remaining_resume_lt (peek_of_rest hc) hread
        obtain ⟨hlength, hfunctions⟩ := readFunctions_segments allowed (resume c failure.cursor)
        rw [hresume] at hlength hfunctions
        rw [readFunctions_failure (peek_of_rest hc) hread, List.countP_cons_of_pos hfaulty,
          List.filterMap_cons_none hnone, List.length_cons, hlength, Nat.add_min_add_right]
        exact ⟨rfl, fun hlt => hfunctions (Nat.lt_of_add_lt_add_right hlt)⟩
termination_by c.remaining

/-- Errors are reported from left to right, and none at a `fn`. -/
theorem readFunctions_positions (allowed : Nat) (c : Cursor) :
    (readFunctions allowed c).errors.Pairwise (fun e e' => e.position < e'.position) ∧
      ∀ e ∈ (readFunctions allowed c).errors, c.position ≤ e.position ∧
        (AtSegment c.rest → c.position < e.position) := by
  cases allowed with
  | zero =>
    rw [readFunctions_zero]
    exact ⟨.nil, List.forall_mem_nil _⟩
  | succ allowed =>
    cases hc : c.rest with
    | nil =>
      rw [readFunctions_nil (by rw [ahead, hc]; rfl)]
      exact ⟨.nil, List.forall_mem_nil _⟩
    | cons t ts =>
      cases hread : readFunction c with
      | ok read =>
        have := read.progress
        obtain ⟨hsorted, hfrom⟩ := readFunctions_positions (allowed + 1) read.cursor
        obtain ⟨span, more, htakes, -⟩ := takes_of_readFunction hread
        have hposition : c.position < read.cursor.position := by
          rw [htakes.position, List.length_cons]
          omega
        rw [readFunctions_cons hread]
        refine ⟨hsorted, fun e he => ?_⟩
        have hlt := Nat.lt_of_lt_of_le hposition (hfrom e he).1
        exact ⟨Nat.le_of_lt hlt, fun _ => hlt⟩
      | error failure =>
        have hpeek := peek_of_rest hc
        obtain ⟨hpasses, hat, hle, hle', hlt⟩ := resume_of_failure hpeek hread
        have := remaining_resume_lt hpeek hread
        obtain ⟨hsorted, hfrom⟩ := readFunctions_positions allowed (resume c failure.cursor)
        have hbehind : ∀ e ∈ (readFunctions allowed (resume c failure.cursor)).errors,
            failure.error.position < e.position := fun e he =>
          Nat.lt_of_le_of_lt hle' ((hfrom e he).2 hat)
        rw [readFunctions_failure hpeek hread]
        refine ⟨.cons hbehind hsorted, List.forall_mem_cons.2 ⟨⟨hle, fun h => hlt (h t rfl)⟩, ?_⟩⟩
        intro e he
        have hlt' := Nat.lt_of_le_of_lt hle (hbehind e he)
        exact ⟨Nat.le_of_lt hlt', fun _ => hlt'⟩
termination_by c.remaining

/-! ## The loop -/

/-- How far reading has come: what it has found, and where it goes on. -/
structure Sweep where
  functions : List Function
  errors : List ParseError
  cursor : Cursor

namespace Sweep

variable {s s' : Sweep}

/-- Before the first token. -/
def start (tokens : List (Token × Span)) : Sweep := ⟨[], [], Cursor.start tokens⟩

/-- One attempt at a function; none is made behind the last token, nor after the last error that
    is allowed. -/
def attempt (s : Sweep) : Option Sweep :=
  if s.errors.length < maxErrors then
    s.cursor.peek.map fun _ =>
      match readFunction s.cursor with
      | .ok f => { s with functions := s.functions ++ [f.value], cursor := f.cursor }
      | .error failure =>
        { s with errors := s.errors ++ [failure.error], cursor := resume s.cursor failure.cursor }
  else none

/-- At most `n` attempts, one after the other. -/
def after (s : Sweep) : Nat → Sweep
  | 0 => s
  | n + 1 =>
    match s.attempt with
    | some s' => s'.after n
    | none => s

/-- What reading gives that has come so far. -/
def outcome (s : Sweep) : Parsed :=
  let rest := readFunctions (maxErrors - s.errors.length) s.cursor
  ⟨⟨s.functions ++ rest.script.functions⟩, s.errors ++ rest.errors⟩

/-- The two ways an attempt goes. -/
theorem attempt_cases (h : s.attempt = some s') :
    ∃ t allowed, s.cursor.peek = some t ∧ maxErrors - s.errors.length = allowed + 1 ∧
      ((∃ read, readFunction s.cursor = .ok read ∧
          s' = ⟨s.functions ++ [read.value], s.errors, read.cursor⟩) ∨
        ∃ failure, readFunction s.cursor = .error failure ∧
          s' = ⟨s.functions, s.errors ++ [failure.error], resume s.cursor failure.cursor⟩) := by
  rw [attempt] at h
  split at h
  · next hlt =>
    obtain ⟨t, hpeek, rfl⟩ := Option.map_eq_some_iff.1 h
    refine ⟨t, maxErrors - s.errors.length - 1, hpeek, by omega, ?_⟩
    cases hread : readFunction s.cursor with
    | ok read => exact .inl ⟨read, rfl, rfl⟩
    | error failure => exact .inr ⟨failure, rfl, rfl⟩
  · exact nomatch h

/-- Every attempt takes a token, whether it fails or not. -/
theorem remaining_of_attempt (h : s.attempt = some s') :
    s'.cursor.remaining < s.cursor.remaining := by
  obtain ⟨t, allowed, hpeek, -, ⟨read, -, rfl⟩ | ⟨failure, hread, rfl⟩⟩ := attempt_cases h
  · exact read.progress
  · exact remaining_resume_lt hpeek hread

theorem outcome_of_attempt (h : s.attempt = some s') : s'.outcome = s.outcome := by
  obtain ⟨t, allowed, hpeek, hallowed, ⟨read, hread, rfl⟩ | ⟨failure, hread, rfl⟩⟩ :=
    attempt_cases h
  · simp only [outcome, hallowed, readFunctions_cons hread, List.append_assoc,
      List.singleton_append]
  · have hallowed' : maxErrors - (s.errors ++ [failure.error]).length = allowed := by
      rw [List.length_append, List.length_singleton]
      omega
    simp only [outcome, hallowed, hallowed', readFunctions_failure hpeek hread, List.append_assoc,
      List.singleton_append]

theorem outcome_of_end (h : s.attempt = none) : s.outcome = ⟨⟨s.functions⟩, s.errors⟩ := by
  have hrest : readFunctions (maxErrors - s.errors.length) s.cursor = ⟨⟨[]⟩, []⟩ := by
    rw [attempt] at h
    split at h
    · next hlt =>
      rw [Option.map_eq_none_iff, peek_eq_head, List.head?_eq_none_iff] at h
      rw [← Nat.sub_add_cancel (Nat.sub_pos_of_lt hlt), readFunctions_nil h]
    · next hlt => rw [Nat.sub_eq_zero_of_le (Nat.le_of_not_lt hlt), readFunctions_zero]
  simp only [outcome, hrest, List.append_nil]

theorem outcome_after (s : Sweep) (n : Nat) : (s.after n).outcome = s.outcome := by
  induction n generalizing s with
  | zero => rfl
  | succ n ih =>
    rw [after]
    split
    · next s' h => rw [ih, outcome_of_attempt h]
    · rfl

/-- There are no more attempts than tokens. -/
theorem attempt_after {n : Nat} (hn : s.cursor.remaining ≤ n) : (s.after n).attempt = none := by
  induction n generalizing s with
  | zero =>
    rw [after, Option.eq_none_iff_forall_ne_some]
    intro s' h
    have hlt := remaining_of_attempt h
    omega
  | succ n ih =>
    rw [after]
    split
    · next s' h =>
      have hlt := remaining_of_attempt h
      exact ih (by omega)
    · assumption

end Sweep

namespace Script

variable {tokens segment : List (Token × Span)}

/-- A segment that stands alone is read as it is among others. -/
theorem functions_of_segment (h : segment ∈ segments tokens) :
    (ofTokens segment).script.functions = (functionOf segment).toList := by
  have hne : segment ≠ [] := fun hnil => List.nil_notMem_splitBy _ tokens (hnil ▸ h)
  have halone : segments (Cursor.start segment).rest = [segment] :=
    List.splitBy_of_isChain hne (List.isChain_of_mem_splitBy h)
  have hcount : (segments (Cursor.start segment).rest).countP isFaulty < maxErrors := by
    rw [halone]
    exact Nat.lt_of_le_of_lt List.countP_le_length (show 1 < maxErrors by decide)
  rw [ofTokens, (readFunctions_segments maxErrors _).2 hcount, halone,
    List.filterMap_eq_flatMap_toList, List.flatMap_singleton]

/-- Only segments that start with a `fn` give functions. -/
theorem filterMap_functionOf (tokens : List (Token × Span)) :
    (segments tokens).filterMap functionOf =
      ((segments tokens).filter isHeaded).flatMap
        fun segment => (ofTokens segment).script.functions := by
  have hheaded : ∀ segment ∈ segments tokens,
      functionOf segment = if isHeaded segment then functionOf segment else none := by
    intro segment hsegment
    cases hhead : isHeaded segment with
    | true => rfl
    | false =>
      cases segment with
      | nil => exact absurd hsegment (List.nil_notMem_splitBy _ tokens)
      | cons t ts => exact (headless hhead).2
  calc (segments tokens).filterMap functionOf
    _ = ((segments tokens).filter isHeaded).filterMap functionOf := by
      rw [List.filterMap_filter, ← List.filterMap_congr hheaded]
    _ = ((segments tokens).filter isHeaded).flatMap fun segment => (functionOf segment).toList :=
      List.filterMap_eq_flatMap_toList ..
    _ = _ := by
      refine List.flatMap_congr fun segment hsegment => ?_
      rw [functions_of_segment (List.mem_of_mem_filter hsegment)]

/-- Errors stay in their functions. Cut in front of every `fn`, every segment that is not exactly a
    function is reported once, up to the limit; below the limit, the functions are those of the
    segments on their own. The errors come from left to right, and reading ends after no more
    attempts than there are tokens. -/
theorem ofTokens_segments (tokens : List (Token × Span)) :
    (ofTokens tokens).errors.length = min maxErrors ((segments tokens).countP isFaulty) ∧
      ((ofTokens tokens).errors.length < maxErrors →
        (ofTokens tokens).script.functions =
          ((segments tokens).filter isHeaded).flatMap
            fun segment => (ofTokens segment).script.functions) ∧
      (ofTokens tokens).errors.Pairwise (fun e e' => e.position < e'.position) ∧
      ∃ last, (Sweep.start tokens).after tokens.length = last ∧ last.attempt = none ∧
        ofTokens tokens = ⟨⟨last.functions⟩, last.errors⟩ := by
  obtain ⟨hlength, hfunctions⟩ := readFunctions_segments maxErrors (Cursor.start tokens)
  have hend : ((Sweep.start tokens).after tokens.length).attempt = none :=
    Sweep.attempt_after (Nat.le_refl _)
  refine ⟨hlength, fun hlt => ?_, (readFunctions_positions maxErrors _).1, _, rfl, hend, ?_⟩
  · rw [← filterMap_functionOf]
    exact hfunctions (by rw [ofTokens] at hlt; omega)
  · rw [← Sweep.outcome_of_end hend, Sweep.outcome_after]
    rfl

/-- The tokens of `;fn f(){};fn g(fn h(){}`: of the three functions, that of `g` is not closed,
    and only that of `h` is alone in its segment. -/
def damaged : List (Token × Span) :=
  [(.symbol .semicolon, ⟨0, 1⟩),
   (.keyword .function, ⟨1, 3⟩), (.ident "f", ⟨4, 5⟩), (.symbol .leftParen, ⟨5, 6⟩),
   (.symbol .rightParen, ⟨6, 7⟩), (.symbol .leftBrace, ⟨7, 8⟩), (.symbol .rightBrace, ⟨8, 9⟩),
   (.symbol .semicolon, ⟨9, 10⟩),
   (.keyword .function, ⟨10, 12⟩), (.ident "g", ⟨13, 14⟩), (.symbol .leftParen, ⟨14, 15⟩),
   (.keyword .function, ⟨15, 17⟩), (.ident "h", ⟨18, 19⟩), (.symbol .leftParen, ⟨19, 20⟩),
   (.symbol .rightParen, ⟨20, 21⟩), (.symbol .leftBrace, ⟨21, 22⟩), (.symbol .rightBrace, ⟨22, 23⟩)]

theorem damaged_errors : (ofTokens damaged).errors.map (·.position) = [0, 7, 11] := by
  cbv

theorem ofTokens_segments_damaged :
    (ofTokens damaged).errors.length < maxErrors ∧ (segments damaged).countP isFaulty = 3 ∧
      (ofTokens damaged).script.functions =
        ((segments damaged).filter isHeaded).flatMap
          fun segment => (ofTokens segment).script.functions := by
  have hthree : (ofTokens damaged).errors.length = 3 := by
    rw [← List.length_map, damaged_errors]
    rfl
  have hlt : (ofTokens damaged).errors.length < maxErrors := hthree ▸ (by decide)
  obtain ⟨hlength, hfunctions, -⟩ := ofTokens_segments damaged
  exact ⟨hlt, by omega, hfunctions hlt⟩

end Script

end ScriptMachine
