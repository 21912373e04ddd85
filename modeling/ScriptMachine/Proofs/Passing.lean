import ScriptMachine.Proofs.Recognition

/-!
# Readers do not pass the start of a function

Behind its first token, reading a function takes no `fn`, at whatever depth of the tree it
succeeds or fails. This is seen reader by reader: each of them looks at a token before it takes
it, and there is none that takes a `fn`. With this goes where errors stand, namely at a token that
the reader came to.

* `Cursor.Passes`: a cursor is reached from another one without taking a `fn`.
* `Keeps`: however reading ends, it ends at such a cursor; the lemmas follow the readers.
* `keeps_readFunction`: reading a function, once its first token was taken.
-/

namespace ScriptMachine

/-- The token that a function starts with. -/
def Token.startsFunction (t : Token) : Bool := t == .keyword .function

/-! ## Cursors on the way -/

/-- Between two cursors, exactly the tokens `ts` were taken. -/
structure Cursor.Takes (c : Cursor) (ts : List (Token × Span)) (c' : Cursor) : Prop where
  rest : c.rest = ts ++ c'.rest
  position : c'.position = c.position + ts.length
  previous : c'.previous = ts.foldl (fun _ t => t.2) c.previous

/-- Between two cursors, no `fn` was taken. -/
def Cursor.Passes (c c' : Cursor) : Prop :=
  ∃ ts, c.Takes ts c' ∧ ∀ t ∈ ts, t.1.startsFunction = false

namespace Cursor

variable {c c' c'' : Cursor} {ts ts' : List (Token × Span)} {t : Token}

theorem Takes.nil (c : Cursor) : c.Takes [] c := ⟨rfl, rfl, rfl⟩

theorem Takes.append (h : c.Takes ts c') (h' : c'.Takes ts' c'') : c.Takes (ts ++ ts') c'' := by
  refine ⟨?_, ?_, ?_⟩
  · rw [h.rest, h'.rest, List.append_assoc]
  · rw [h'.position, h.position, List.length_append, Nat.add_assoc]
  · rw [h'.previous, h.previous, List.foldl_append]

/-- Taking the next token. -/
theorem takes_advance (h : c.peek = some t) : ∃ span, c.Takes [(t, span)] c.advance := by
  obtain ⟨position, previous, rest⟩ := c
  obtain ⟨⟨_, span⟩, hx, rfl⟩ := Option.map_eq_some_iff.1 h
  obtain ⟨ts, rfl⟩ := List.head?_eq_some_iff.1 hx
  exact ⟨span, rfl, rfl, rfl⟩

theorem Passes.refl (c : Cursor) : c.Passes c := ⟨[], .nil c, nofun⟩

theorem Passes.trans (h : c.Passes c') (h' : c'.Passes c'') : c.Passes c'' := by
  obtain ⟨ts, htakes, hts⟩ := h
  obtain ⟨ts', htakes', hts'⟩ := h'
  exact ⟨ts ++ ts', htakes.append htakes', List.forall_mem_append.2 ⟨hts, hts'⟩⟩

theorem Passes.position_le (h : c.Passes c') : c.position ≤ c'.position := by
  obtain ⟨ts, htakes, -⟩ := h
  rw [htakes.position]
  exact Nat.le_add_right _ _

theorem passes_advance (h : c.peek = some t) (ht : t.startsFunction = false) :
    c.Passes c.advance := by
  obtain ⟨span, htakes⟩ := takes_advance h
  exact ⟨_, htakes, fun x hx => List.mem_singleton.1 hx ▸ ht⟩

end Cursor

open Cursor

variable {α β : Type} {n m : Nat} {c : Cursor} {t : Token}

/-- Reading from `c` has taken no `fn`, and an error is at a place that it came to. -/
def Keeps (c : Cursor) (r : Except Failure (Read α n)) : Prop :=
  match r with
  | .ok read => c.Passes read.cursor
  | .error failure => c.Passes failure.cursor ∧ c.position ≤ failure.error.position ∧
      failure.error.position ≤ failure.cursor.position

namespace Keeps

theorem pure {a : α} {c' : Cursor} {progress : c'.remaining < n} (h : c.Passes c') :
    Keeps c (Pure.pure ⟨a, c', progress⟩) := h

theorem fail (c : Cursor) (problem : ParseProblem) :
    Keeps c (c.fail problem : Except Failure (Read α n)) :=
  ⟨.refl c, Nat.le_refl _, Nat.le_refl _⟩

/-- Reading after some tokens. -/
theorem behind {c' : Cursor} {r : Except Failure (Read α n)} (hc : c.Passes c') (h : Keeps c' r) :
    Keeps c r := by
  cases r with
  | ok read => exact hc.trans h
  | error failure =>
    obtain ⟨hpasses, hle, hle'⟩ := h
    exact ⟨hc.trans hpasses, Nat.le_trans hc.position_le hle, hle'⟩

/-- Reading after the next token, which is no `fn`. -/
theorem next {r : Except Failure (Read α n)} (hpeek : c.peek = some t)
    (ht : t.startsFunction = false) (h : Keeps c.advance r) : Keeps c r :=
  .behind (passes_advance hpeek ht) h

theorem bind {r : Except Failure (Read α n)} {f : Read α n → Except Failure (Read β m)}
    (h : Keeps c r) (h' : ∀ read, Keeps read.cursor (f read)) : Keeps c (r >>= f) := by
  cases r with
  | ok read => exact .behind h (h' read)
  | error failure => exact h

end Keeps

theorem keeps_expectSymbol (s : Symbol) (c : Cursor) : Keeps c (c.expectSymbol s) := by
  rw [expectSymbol, expect]
  split
  · next t hpeek =>
    split
    · next ht => exact .next hpeek (ht ▸ rfl) (.pure (.refl _))
    · exact .fail c _
  · exact .fail c _

theorem keeps_expectName (c : Cursor) : Keeps c c.expectName := by
  rw [expectName]
  split
  · next hpeek => exact .next hpeek rfl (.pure (.refl _))
  · exact .fail c _

/-! ## Expressions -/

theorem keeps_readFields (object : Expr) (c : Cursor) : Keeps c (readFields object c) := by
  rw [readFields]
  split
  · next hpeek =>
    have := remaining_advance_lt hpeek
    refine .next hpeek rfl (.bind (keeps_expectName _) fun field => ?_)
    have := field.progress
    exact .bind (keeps_readFields _ field.cursor) fun all => .pure (.refl _)
  · exact .pure (.refl c)
termination_by c.remaining

/-- An operator is no `fn`. -/
theorem passes_operator {level : Nat} {op : BinaryOp} (h : operatorAt level c = some op) :
    c.Passes c.advance := by
  rw [operatorAt] at h
  split at h
  · next hpeek => exact passes_advance hpeek rfl
  · cases h

mutual

theorem keeps_readLevel (level : Nat) (c : Cursor) : Keeps c (readLevel level c) := by
  rw [readLevel]
  split
  · refine .bind (keeps_readLevel (level + 1) c) fun first => ?_
    have := first.progress
    exact .bind (keeps_readChain level first.value first.cursor) fun all => .pure (.refl _)
  · exact keeps_readOperand c
termination_by 20 * c.remaining + 4 + (6 - level)

theorem keeps_readChain (level : Nat) (left : Expr) (c : Cursor) :
    Keeps c (readChain level left c) := by
  rw [readChain]
  split
  · next op hop =>
    have := remaining_advance_lt_of_operatorAt hop
    refine .behind (passes_operator hop) (.bind (keeps_readLevel (level + 1) c.advance) ?_)
    intro right
    have := right.progress
    exact .bind (keeps_readChain level _ right.cursor) fun all => .pure (.refl _)
  · exact .pure (.refl c)
termination_by 20 * c.remaining + 3

theorem keeps_readOperand (c : Cursor) : Keeps c (readOperand c) := by
  rw [readOperand]
  split
  · next hpeek =>
    have := remaining_advance_lt hpeek
    exact .next hpeek rfl (.bind (keeps_readOperand c.advance) fun operand => .pure (.refl _))
  · next hpeek =>
    have := remaining_advance_lt hpeek
    refine .next hpeek rfl ?_
    split
    · next hnumber => exact .next hnumber rfl (.pure (.refl _))
    · next hnumber => exact .next hnumber rfl (.pure (.refl _))
    · exact .bind (keeps_readOperand c.advance) fun operand => .pure (.refl _)
  · refine .bind (keeps_readAtom c) fun atom => ?_
    exact .bind (keeps_readFields _ atom.cursor) fun all => .pure (.refl _)
termination_by 20 * c.remaining + 2

theorem keeps_readAtom (c : Cursor) : Keeps c (readAtom c) := by
  rw [readAtom]
  split
  · next hpeek =>
    split
    · exact .next hpeek rfl (.pure (.refl _))
    · exact .fail c _
  · next hpeek => exact .next hpeek rfl (.pure (.refl _))
  · next hpeek => exact .next hpeek rfl (.pure (.refl _))
  · next hpeek => exact .next hpeek rfl (.pure (.refl _))
  · next hpeek => exact .next hpeek rfl (.pure (.refl _))
  · next hpeek =>
    exact .next hpeek rfl (.bind (keeps_expectName _) fun name => .pure (.refl _))
  · next hpeek =>
    have := remaining_advance_lt hpeek
    refine .next hpeek rfl (.bind (keeps_readLevel 0 c.advance) fun inner => ?_)
    exact .bind (keeps_expectSymbol _ inner.cursor) fun closing => .pure (.refl _)
  · next hpeek =>
    have := remaining_advance_lt hpeek
    refine .next hpeek rfl (.bind (keeps_expectName _) fun name => ?_)
    have := name.progress
    exact .bind (keeps_readArgs name.cursor) fun args => .pure (.refl _)
  · next hpeek =>
    have := remaining_advance_lt hpeek
    refine .next hpeek rfl ?_
    dsimp only
    split
    · exact .bind (keeps_readArgs c.advance) fun args => .pure (.refl _)
    · exact .pure (.refl _)
  · exact .fail c _
termination_by 20 * c.remaining + 1

theorem keeps_readArgs (c : Cursor) : Keeps c (readArgs c) := by
  rw [readArgs]
  refine .bind (keeps_expectSymbol _ c) fun opening => ?_
  have := opening.progress
  dsimp only
  split
  · next hpeek => exact .next hpeek rfl (.pure (.refl _))
  · exact .bind (keeps_readMoreArgs opening.cursor) fun args => .pure (.refl _)
termination_by 20 * c.remaining

theorem keeps_readMoreArgs (c : Cursor) : Keeps c (readMoreArgs c) := by
  rw [readMoreArgs]
  refine .bind (keeps_readLevel 0 c) fun first => ?_
  have := first.progress
  dsimp only
  split
  · next hpeek => exact .next hpeek rfl (.pure (.refl _))
  · refine .bind (keeps_expectSymbol _ first.cursor) fun comma => ?_
    have := comma.progress
    exact .bind (keeps_readMoreArgs comma.cursor) fun others => .pure (.refl _)
termination_by 20 * c.remaining + 15

end

/-! ## Statements -/

mutual

theorem keeps_readStmt (c : Cursor) : Keeps c (readStmt c) := by
  rw [readStmt]
  split
  · next hpeek =>
    have := remaining_advance_lt hpeek
    refine .next hpeek rfl (.bind (keeps_readBranch c.advance) fun first => ?_)
    have := first.progress
    exact .bind (keeps_readBranches first.cursor) fun others => .pure (.refl _)
  · next hpeek =>
    have := remaining_advance_lt hpeek
    refine .next hpeek rfl (.bind (keeps_readLevel 0 c.advance) fun condition => ?_)
    have := condition.progress
    exact .bind (keeps_readBlock condition.cursor) fun body => .pure (.refl _)
  · next hpeek =>
    refine .next hpeek rfl ?_
    split
    · next hclosing => exact .next hclosing rfl (.pure (.refl _))
    · refine .bind (keeps_readLevel 0 c.advance) fun value => ?_
      exact .bind (keeps_expectSymbol _ value.cursor) fun closing => .pure (.refl _)
  · next hpeek =>
    refine .next hpeek rfl ?_
    split
    · next hassign =>
      refine .next hassign rfl (.bind (keeps_readLevel 0 _) fun value => ?_)
      exact .bind (keeps_expectSymbol _ value.cursor) fun closing => .pure (.refl _)
    · refine .bind (keeps_readArgs c.advance) fun args => ?_
      exact .bind (keeps_expectSymbol _ args.cursor) fun closing => .pure (.refl _)
  · next hpeek =>
    refine .next hpeek rfl (.bind (keeps_expectName _) fun name => ?_)
    refine .bind (keeps_readArgs name.cursor) fun args => ?_
    exact .bind (keeps_expectSymbol _ args.cursor) fun closing => .pure (.refl _)
  · exact .fail c _
termination_by 4 * c.remaining

theorem keeps_readBranch (c : Cursor) : Keeps c (readBranch c) := by
  rw [readBranch]
  refine .bind (keeps_readLevel 0 c) fun condition => ?_
  have := condition.progress
  exact .bind (keeps_readBlock condition.cursor) fun body => .pure (.refl _)
termination_by 4 * c.remaining + 2

theorem keeps_readBranches (c : Cursor) : Keeps c (readBranches c) := by
  rw [readBranches]
  split
  · next hpeek =>
    have := remaining_advance_lt hpeek
    refine .next hpeek rfl (.bind (keeps_readBranch c.advance) fun first => ?_)
    have := first.progress
    exact .bind (keeps_readBranches first.cursor) fun others => .pure (.refl _)
  · next hpeek =>
    have := remaining_advance_lt hpeek
    exact .next hpeek rfl (.bind (keeps_readBlock c.advance) fun body => .pure (.refl _))
  · exact .pure (.refl c)
termination_by 4 * c.remaining + 3

theorem keeps_readBlock (c : Cursor) : Keeps c (readBlock c) := by
  rw [readBlock]
  refine .bind (keeps_expectSymbol _ c) fun opening => ?_
  have := opening.progress
  exact .bind (keeps_readStmts opening.cursor) fun body => .pure (.refl _)
termination_by 4 * c.remaining + 1

theorem keeps_readStmts (c : Cursor) : Keeps c (readStmts c) := by
  rw [readStmts]
  split
  · next hpeek => exact .next hpeek rfl (.pure (.refl _))
  · exact .fail c _
  · refine .bind (keeps_readStmt c) fun first => ?_
    have := first.progress
    exact .bind (keeps_readStmts first.cursor) fun others => .pure (.refl _)
termination_by 4 * c.remaining + 1

end

/-! ## Functions -/

/-- A parameter that is there already is an error at its name, behind which reading stops. -/
theorem keeps_readMoreParams (function : String) (before : List String) (c : Cursor) :
    Keeps c (readMoreParams function before c) := by
  have hname := keeps_expectName c
  rw [readMoreParams]
  cases hparam : c.expectName with
  | error failure =>
    rw [hparam] at hname
    exact hname
  | ok param =>
    rw [hparam] at hname
    have := param.progress
    change Keeps c (if param.value ∈ before then _ else _)
    split
    · exact ⟨hname, Nat.le_refl _, hname.position_le⟩
    · refine .behind hname ?_
      dsimp only
      split
      · next hpeek => exact .next hpeek rfl (.pure (.refl _))
      · refine .bind (keeps_expectSymbol _ param.cursor) fun comma => ?_
        have := comma.progress
        exact .bind (keeps_readMoreParams function _ comma.cursor) fun all => .pure (.refl _)
termination_by c.remaining

theorem keeps_readParams (function : String) (c : Cursor) : Keeps c (readParams function c) := by
  rw [readParams]
  split
  · next hpeek => exact .next hpeek rfl (.pure (.refl _))
  · exact keeps_readMoreParams function [] c

/-- Reading a function passes no other `fn` than its first token. -/
theorem keeps_readFunction (h : c.peek = some (.keyword .function)) :
    Keeps c.advance (readFunction c) := by
  rw [readFunction]
  split
  · refine .bind (keeps_expectName _) fun name => ?_
    refine .bind (keeps_expectSymbol _ name.cursor) fun opening => ?_
    refine .bind (keeps_readParams _ opening.cursor) fun params => ?_
    exact .bind (keeps_readBlock params.cursor) fun body => .pure (.refl _)
  · next hpeek => exact absurd h (hpeek ·)

end ScriptMachine
