import ScriptMachine.Proofs.Spelling

/-!
# Patterns

What a script is made of is given by patterns: a fixed word for each keyword and each symbol, the
forms of numbers, texts and names, and the two things that are skipped, blanks and comments
(`Pattern.Matches`). Several patterns may match at one place; the longest match counts
(`Longest`), and of a keyword and a name of the same characters the keyword (`Token.Reads`).

The scan takes characters in the order of their classes and knows no patterns. That it takes the
longest match all the same is the subject here.

* `Pattern.Matches.starts`: the first character tells which patterns can match.
* `Lexeme.Fits`: what may be found at a place: the longest match of a token or of something that
  is skipped, an integer that is too large, or nothing that any pattern matches.
* `fits_lexeme`: what the scan finds at a place fits there.
-/

namespace ScriptMachine

/-- What the source is made of. -/
inductive Pattern where
  | keyword (k : Keyword)
  | symbol (s : Symbol)
  | float | int | text | word
  | blanks | comment

/-- Characters of one class, at least one. -/
def IsRun (p : Char → Bool) (cs : List Char) : Prop := cs ≠ [] ∧ ∀ c ∈ cs, p c = true

namespace Pattern

/-- Do the characters have the form of the pattern? -/
def Matches : Pattern → List Char → Prop
  | keyword k, cs => cs = k.spelling.toList
  | symbol s, cs => cs = s.spelling.toList
  | float, cs => ∃ whole fraction, cs = whole ++ '.' :: fraction ∧
      IsRun isDigit whole ∧ IsRun isDigit fraction
  | int, cs => IsRun isDigit cs
  | text, cs => ∃ content, cs = '"' :: (content ++ ['"']) ∧ '"' ∉ content
  | word, cs => ∃ c rest, cs = c :: rest ∧ isNameStart c = true ∧ ∀ d ∈ rest, isNamePart d = true
  | blanks, cs => IsRun isBlank cs
  | comment, cs => ∃ rest, cs = '/' :: '/' :: rest ∧ '\n' ∉ rest

/-- Is what matches the pattern skipped? -/
def Skips : Pattern → Prop
  | blanks | comment => True
  | _ => False

/-- The characters that a match can start with. -/
def starts : Pattern → Char → Bool
  | keyword _, c | word, c => isNameStart c
  | symbol s, c => s.spelling.toList.head? == some c
  | float, c | int, c => isDigit c
  | text, c => c == '"'
  | blanks, c => isBlank c
  | comment, c => c == '/'

end Pattern

/-- Do the characters stand for the token? A number has the value that its digits write, a text
    what stands between its quotes, and a name is not a keyword. -/
def Token.Reads : Token → List Char → Prop
  | .keyword k, cs => Pattern.Matches (.keyword k) cs
  | .symbol s, cs => Pattern.Matches (.symbol s) cs
  | .float x, cs => ∃ whole fraction, cs = whole ++ '.' :: fraction ∧
      IsRun isDigit whole ∧ IsRun isDigit fraction ∧
      x = Binary32.ofDecimal (digitsValue (whole ++ fraction)) (-fraction.length)
  | .int n, cs => Pattern.Matches .int cs ∧ n = digitsValue cs ∧ n ≤ maxInteger
  | .text s, cs => cs = '"' :: (s.toList ++ ['"']) ∧ '"' ∉ s.toList
  | .ident name, cs => cs = name.toList ∧ Pattern.Matches .word cs ∧
      ∀ k : Keyword, k.spelling ≠ name

/-- The pattern of a token. -/
def Token.pattern : Token → Pattern
  | .keyword k => .keyword k
  | .symbol s => .symbol s
  | .float _ => .float
  | .int _ => .int
  | .text _ => .text
  | .ident _ => .word

theorem Token.Reads.matches {t : Token} {cs : List Char} (h : t.Reads cs) :
    t.pattern.Matches cs := by
  cases t with
  | keyword k => exact h
  | symbol s => exact h
  | float x =>
    obtain ⟨whole, fraction, heq, hwhole, hfraction, -⟩ := h
    exact ⟨whole, fraction, heq, hwhole, hfraction⟩
  | int n => exact h.1
  | text s => exact ⟨s.toList, h.1, h.2⟩
  | ident name => exact h.2.1

/-- No beginning of the source that matches a pattern is longer than what is taken. -/
def Longest (taken source : List Char) : Prop :=
  ∀ (p : Pattern) (cs : List Char), p.Matches cs → cs <+: source → cs.length ≤ taken.length

/-- What a place may hold: the lexeme, the characters taken for it, and the source from there. -/
inductive Lexeme.Fits : Lexeme → List Char → List Char → Prop where
  | skipped {p taken source} : Pattern.Skips p → p.Matches taken → Longest taken source →
      Fits .skipped taken source
  | token {t taken source} : Token.Reads t taken → Longest taken source →
      Fits (.token t) taken source
  | tooLarge {taken source} : Pattern.Matches .int taken → maxInteger < digitsValue taken →
      Longest taken source → Fits .bad taken source
  | stray {taken source} : (∀ p cs, Pattern.Matches p cs → ¬cs <+: source) →
      Fits .bad taken source

namespace Lexeme.Fits

variable {taken source : List Char}

theorem skipped_cases (h : Lexeme.skipped.Fits taken source) :
    (Pattern.Matches .blanks taken ∨ Pattern.Matches .comment taken) ∧ Longest taken source := by
  cases h with
  | @skipped p _ _ hskips hmatches hlongest =>
    refine ⟨?_, hlongest⟩
    cases p with
    | blanks => exact .inl hmatches
    | comment => exact .inr hmatches
    | _ => exact hskips.elim

theorem token_cases {t : Token} (h : (Lexeme.token t).Fits taken source) :
    t.Reads taken ∧ Longest taken source := by
  cases h with
  | token hreads hlongest => exact ⟨hreads, hlongest⟩

theorem bad_cases (h : Lexeme.bad.Fits taken source) :
    (∀ p cs, Pattern.Matches p cs → ¬cs <+: source) ∨
      Pattern.Matches .int taken ∧ maxInteger < digitsValue taken ∧ Longest taken source := by
  cases h with
  | tooLarge hmatches hlarge hlongest => exact .inr ⟨hmatches, hlarge, hlongest⟩
  | stray hnone => exact .inl hnone

end Lexeme.Fits

/-! ## First characters -/

section Starts

variable {p : Pattern} {c : Char} {cs ds : List Char}

/-- A match starts with a character of its class. -/
theorem Pattern.Matches.starts (h : p.Matches cs) :
    ∃ c rest, cs = c :: rest ∧ p.starts c = true := by
  cases p with
  | keyword k =>
    obtain rfl : cs = k.spelling.toList := h
    cases k <;> exact ⟨_, _, rfl, rfl⟩
  | symbol s =>
    obtain rfl : cs = s.spelling.toList := h
    cases s <;> exact ⟨_, _, rfl, rfl⟩
  | float =>
    obtain ⟨whole, fraction, rfl, ⟨hne, hwhole⟩, -⟩ := h
    obtain ⟨c, whole, rfl⟩ := List.exists_cons_of_ne_nil hne
    exact ⟨c, _, rfl, hwhole c List.mem_cons_self⟩
  | int =>
    obtain ⟨c, rest, rfl⟩ := List.exists_cons_of_ne_nil h.1
    exact ⟨c, rest, rfl, h.2 c List.mem_cons_self⟩
  | text =>
    obtain ⟨content, rfl, -⟩ := h
    exact ⟨'"', _, rfl, rfl⟩
  | word =>
    obtain ⟨c, rest, rfl, hc, -⟩ := h
    exact ⟨c, rest, rfl, hc⟩
  | blanks =>
    obtain ⟨c, rest, rfl⟩ := List.exists_cons_of_ne_nil h.1
    exact ⟨c, rest, rfl, h.2 c List.mem_cons_self⟩
  | comment =>
    obtain ⟨rest, rfl, -⟩ := h
    exact ⟨'/', _, rfl, rfl⟩

theorem Pattern.Matches.starts_of_isPrefix (h : p.Matches ds) (hds : ds <+: c :: cs) :
    p.starts c = true := by
  obtain ⟨d, rest, rfl, hd⟩ := h.starts
  rwa [← (List.cons_prefix_cons.1 hds).1]

/-- No symbol starts as something else does. -/
theorem Symbol.starts_plain {s : Symbol} (h : Pattern.starts (.symbol s) c = true) :
    isBlank c = false ∧ isDigit c = false ∧ isNameStart c = false ∧ c ≠ '"' := by
  have hc : s.spelling.toList.head? = some c := by simpa [Pattern.starts] using h
  cases s <;> (obtain rfl := Option.some.inj hc; decide)

theorem not_isNameStart_of_isBlank (hc : isBlank c = true) : isNameStart c = false := by
  refine Bool.eq_false_iff.2 fun hname => ?_
  have hpart : isNamePart c = true := by simp [isNamePart, hname]
  exact absurd hc (Bool.eq_false_iff.1 (not_isBlank_of_isNamePart hpart))

theorem not_isDigit_of_isBlank (hc : isBlank c = true) : isDigit c = false := by
  refine Bool.eq_false_iff.2 fun hdigit => ?_
  have hpart : isNamePart c = true := by simp [isNamePart, hdigit]
  exact absurd hc (Bool.eq_false_iff.1 (not_isBlank_of_isNamePart hpart))

theorem eq_blanks_of_starts (hc : isBlank c = true) (h : p.starts c = true) : p = .blanks := by
  cases p with
  | symbol s => exact absurd hc (Bool.eq_false_iff.1 (Symbol.starts_plain h).1)
  | keyword k => exact absurd h (Bool.eq_false_iff.1 (not_isNameStart_of_isBlank hc))
  | word => exact absurd h (Bool.eq_false_iff.1 (not_isNameStart_of_isBlank hc))
  | float => exact absurd h (Bool.eq_false_iff.1 (not_isDigit_of_isBlank hc))
  | int => exact absurd h (Bool.eq_false_iff.1 (not_isDigit_of_isBlank hc))
  | text =>
    obtain rfl : c = '"' := by simpa [Pattern.starts] using h
    exact absurd hc (by decide)
  | comment =>
    obtain rfl : c = '/' := by simpa [Pattern.starts] using h
    exact absurd hc (by decide)
  | blanks => rfl

theorem eq_number_of_starts (hc : isDigit c = true) (h : p.starts c = true) :
    p = .float ∨ p = .int := by
  have hpart : isNamePart c = true := by simp [isNamePart, hc]
  have hname (h : isNameStart c = true) : False :=
    absurd hc (Bool.eq_false_iff.1 (not_isDigit_of_isNameStart h))
  cases p with
  | symbol s => exact absurd hc (Bool.eq_false_iff.1 (Symbol.starts_plain h).2.1)
  | keyword k => exact (hname h).elim
  | word => exact (hname h).elim
  | blanks => exact absurd h (Bool.eq_false_iff.1 (not_isBlank_of_isNamePart hpart))
  | text =>
    obtain rfl : c = '"' := by simpa [Pattern.starts] using h
    exact absurd hc (by decide)
  | comment =>
    obtain rfl : c = '/' := by simpa [Pattern.starts] using h
    exact absurd hc (by decide)
  | float => exact .inl rfl
  | int => exact .inr rfl

theorem eq_word_of_starts (hc : isNameStart c = true) (h : p.starts c = true) :
    p = .word ∨ ∃ k, p = .keyword k := by
  have hpart : isNamePart c = true := by simp [isNamePart, hc]
  cases p with
  | symbol s => exact absurd hc (Bool.eq_false_iff.1 (Symbol.starts_plain h).2.2.1)
  | float => exact absurd h (Bool.eq_false_iff.1 (not_isDigit_of_isNameStart hc))
  | int => exact absurd h (Bool.eq_false_iff.1 (not_isDigit_of_isNameStart hc))
  | blanks => exact absurd h (Bool.eq_false_iff.1 (not_isBlank_of_isNamePart hpart))
  | text =>
    obtain rfl : c = '"' := by simpa [Pattern.starts] using h
    exact absurd hc (by decide)
  | comment =>
    obtain rfl : c = '/' := by simpa [Pattern.starts] using h
    exact absurd hc (by decide)
  | word => exact .inl rfl
  | keyword k => exact .inr ⟨k, rfl⟩

theorem eq_text_of_starts (h : p.starts '"' = true) : p = .text := by
  cases p with
  | symbol s => exact absurd rfl (Symbol.starts_plain h).2.2.2
  | text => rfl
  | keyword k => exact absurd (show isNameStart '"' = true from h) (by decide)
  | _ => exact absurd h (by decide)

/-- Whatever is neither a blank nor a letter nor a digit nor a quote starts a symbol or a
    comment. -/
theorem eq_symbol_of_starts (hblank : isBlank c = false) (hdigit : isDigit c = false)
    (hname : isNameStart c = false) (hquote : c ≠ '"') (h : p.starts c = true) :
    (∃ s, p = .symbol s) ∨ p = .comment ∧ c = '/' := by
  cases p with
  | symbol s => exact .inl ⟨s, rfl⟩
  | comment => exact .inr ⟨rfl, by simpa [Pattern.starts] using h⟩
  | keyword k => exact absurd h (Bool.eq_false_iff.1 hname)
  | word => exact absurd h (Bool.eq_false_iff.1 hname)
  | float => exact absurd h (Bool.eq_false_iff.1 hdigit)
  | int => exact absurd h (Bool.eq_false_iff.1 hdigit)
  | blanks => exact absurd h (Bool.eq_false_iff.1 hblank)
  | text => exact absurd (by simpa [Pattern.starts] using h) hquote

end Starts

/-! ## Runs -/

section Runs

variable {p : Char → Bool} {c : Char} {cs ds : List Char}

theorem take_length_takeWhile (p : Char → Bool) (cs : List Char) :
    cs.take (cs.takeWhile p).length = cs.takeWhile p :=
  (List.prefix_iff_eq_take.1 (List.takeWhile_prefix p)).symm

/-- A beginning of one class is no longer than the longest one. -/
theorem length_le_of_isPrefix (hds : ∀ d ∈ ds, p d = true) (h : ds <+: cs) :
    ds.length ≤ (cs.takeWhile p).length := by
  obtain ⟨rest, rfl⟩ := h
  rw [List.takeWhile_append_of_pos hds, List.length_append]
  exact Nat.le_add_right _ _

theorem isRun_cons_takeWhile (hc : p c = true) : IsRun p (c :: cs.takeWhile p) := by
  refine ⟨List.cons_ne_nil _ _, fun d hd => ?_⟩
  rcases List.mem_cons.1 hd with rfl | hd
  · exact hc
  · exact List.all_eq_true.1 List.all_takeWhile d hd

end Runs

/-! ## Lexemes -/

section Lexemes

variable {c : Char} {cs : List Char}

theorem fits_blanks (hc : isBlank c = true) :
    Lexeme.skipped.Fits (c :: cs.takeWhile isBlank) (c :: cs) := by
  have hrun : (c :: cs).takeWhile isBlank = c :: cs.takeWhile isBlank :=
    List.takeWhile_cons_of_pos hc
  refine .skipped (p := .blanks) trivial (isRun_cons_takeWhile hc) fun p ds hds hfront => ?_
  obtain rfl := eq_blanks_of_starts hc (hds.starts_of_isPrefix hfront)
  rw [← hrun]
  exact length_le_of_isPrefix hds.2 hfront

/-- A number with a fraction has the digits of the source before and behind its point. -/
theorem float_isPrefix {ds : List Char} (hds : Pattern.Matches .float ds) (h : ds <+: cs) :
    ∃ rest, cs.dropWhile isDigit = '.' :: rest ∧ (rest.takeWhile isDigit) ≠ [] ∧
      ds.length ≤ (cs.takeWhile isDigit).length + 1 + (rest.takeWhile isDigit).length := by
  obtain ⟨whole, fraction, rfl, ⟨-, hwhole⟩, hne, hfraction⟩ := hds
  obtain ⟨behind, rfl⟩ := h
  have hpoint : ('.' :: fraction ++ behind).head?.any isDigit = false := rfl
  have hlength := length_le_of_isPrefix hfraction (List.prefix_append fraction behind)
  rw [List.append_assoc, dropWhile_append_of_head hwhole hpoint,
    takeWhile_append_of_head hwhole hpoint]
  refine ⟨fraction ++ behind, rfl, ?_, ?_⟩
  · rw [← List.length_pos_iff] at hne ⊢
    exact Nat.lt_of_lt_of_le hne hlength
  · simp only [List.length_append, List.length_cons] at hlength ⊢
    omega

theorem fits_integer (hc : isDigit c = true)
    (hfloat : ∀ ds, Pattern.Matches .float ds → ¬ds <+: c :: cs) :
    (if digitsValue (c :: cs.takeWhile isDigit) ≤ maxInteger
      then Lexeme.token (.int (digitsValue (c :: cs.takeWhile isDigit))) else .bad).Fits
      (c :: cs.takeWhile isDigit) (c :: cs) := by
  have hrun : (c :: cs).takeWhile isDigit = c :: cs.takeWhile isDigit :=
    List.takeWhile_cons_of_pos hc
  have hmatches : Pattern.Matches .int (c :: cs.takeWhile isDigit) := isRun_cons_takeWhile hc
  have hlongest : Longest (c :: cs.takeWhile isDigit) (c :: cs) := by
    intro p ds hds hfront
    rcases eq_number_of_starts hc (hds.starts_of_isPrefix hfront) with rfl | rfl
    · exact absurd hfront (hfloat ds hds)
    · rw [← hrun]
      exact length_le_of_isPrefix hds.2 hfront
  split
  · next hn => exact .token ⟨hmatches, rfl, hn⟩ hlongest
  · next hn => exact .tooLarge hmatches (Nat.lt_of_not_le hn) hlongest

theorem fits_numberLexeme (hc : isDigit c = true) :
    (numberLexeme c cs).1.Fits (c :: cs.take (numberLexeme c cs).2) (c :: cs) := by
  have hrun : (c :: cs).takeWhile isDigit = c :: cs.takeWhile isDigit :=
    List.takeWhile_cons_of_pos hc
  have hdrop : (c :: cs).dropWhile isDigit = cs.dropWhile isDigit := by
    rw [List.dropWhile_cons, if_pos hc]
  simp only [numberLexeme]
  split
  · next rest hrest =>
    split
    · next hnone =>
      -- A point without digits behind it does not belong to the number.
      rw [take_length_takeWhile]
      refine fits_integer hc fun ds hds hfront => ?_
      obtain ⟨rest', hrest', hne, -⟩ := float_isPrefix hds hfront
      rw [hdrop, hrest] at hrest'
      obtain rfl : rest = rest' := (List.cons.inj hrest').2
      exact hne (List.isEmpty_iff.1 hnone)
    · next hsome =>
      have hnumber : cs.takeWhile isDigit ++ '.' :: rest.takeWhile isDigit <+: cs := by
        refine ⟨rest.dropWhile isDigit, ?_⟩
        rw [List.append_assoc, List.cons_append, List.takeWhile_append_dropWhile, ← hrest,
          List.takeWhile_append_dropWhile]
      have htake : cs.take ((cs.takeWhile isDigit).length + 1 + (rest.takeWhile isDigit).length) =
          cs.takeWhile isDigit ++ '.' :: rest.takeWhile isDigit := by
        rw [List.prefix_iff_eq_take.1 hnumber, List.length_append, List.length_cons,
          Nat.add_right_comm, Nat.add_assoc]
      have hfraction : IsRun isDigit (rest.takeWhile isDigit) :=
        ⟨fun h => hsome (List.isEmpty_iff.2 h), List.all_eq_true.1 List.all_takeWhile⟩
      rw [htake]
      refine .token ⟨c :: cs.takeWhile isDigit, rest.takeWhile isDigit, rfl,
        isRun_cons_takeWhile hc, hfraction, rfl⟩ fun p ds hds hfront => ?_
      simp only [List.length_cons, List.length_append]
      rcases eq_number_of_starts hc (hds.starts_of_isPrefix hfront) with rfl | rfl
      · obtain ⟨rest', hrest', -, hlength⟩ := float_isPrefix hds hfront
        rw [hdrop, hrest] at hrest'
        obtain rfl : rest = rest' := (List.cons.inj hrest').2
        rw [hrun, List.length_cons] at hlength
        omega
      · have hlength := length_le_of_isPrefix hds.2 hfront
        rw [hrun, List.length_cons] at hlength
        omega
  · next hpoint =>
    rw [take_length_takeWhile]
    refine fits_integer hc fun ds hds hfront => ?_
    obtain ⟨rest, hrest, -⟩ := float_isPrefix hds hfront
    exact hpoint rest (hdrop ▸ hrest)

/-- Of a keyword and a name of the same characters, the keyword is read. -/
theorem reads_wordToken (name : String) (h : Pattern.Matches .word name.toList) :
    (wordToken name).Reads name.toList := by
  rw [wordToken]
  split
  · next k hk =>
    have hspelling : k.spelling = name := by simpa using List.find?_some hk
    exact congrArg String.toList hspelling.symm
  · next hnone =>
    refine ⟨rfl, h, fun k hk => ?_⟩
    have hmem : k ∈ Keyword.all := by cases k <;> decide
    exact absurd hk (by simpa using List.find?_eq_none.1 hnone k hmem)

theorem fits_wordLexeme (hc : isNameStart c = true) :
    (wordLexeme c cs).1.Fits (c :: cs.take (wordLexeme c cs).2) (c :: cs) := by
  have hpart : isNamePart c = true := by simp [isNamePart, hc]
  have hrun : (c :: cs).takeWhile isNamePart = c :: cs.takeWhile isNamePart :=
    List.takeWhile_cons_of_pos hpart
  have hreads := reads_wordToken (String.ofList (c :: cs.takeWhile isNamePart)) (by
    rw [String.toList_ofList]
    exact ⟨c, _, rfl, hc, List.all_eq_true.1 List.all_takeWhile⟩)
  rw [String.toList_ofList] at hreads
  simp only [wordLexeme, take_length_takeWhile]
  refine .token hreads fun p ds hds hfront => ?_
  have hparts : ∀ d ∈ ds, isNamePart d = true := by
    rcases eq_word_of_starts hc (hds.starts_of_isPrefix hfront) with rfl | ⟨k, rfl⟩
    · obtain ⟨d, rest, rfl, hd, hrest⟩ := hds
      exact List.forall_mem_cons.2 ⟨by simp [isNamePart, hd], hrest⟩
    · obtain rfl : ds = k.spelling.toList := hds
      cases k <;> exact List.all_eq_true.1 rfl
  rw [← hrun]
  exact length_le_of_isPrefix hparts hfront

theorem fits_textLexeme :
    (textLexeme cs).1.Fits ('"' :: cs.take (textLexeme cs).2) ('"' :: cs) := by
  have hcontent : '"' ∉ cs.takeWhile (· != '"') := fun hmem => by
    simpa using List.all_eq_true.1 List.all_takeWhile _ hmem
  rw [textLexeme]
  split
  · next hlength =>
    have htext : cs.takeWhile (· != '"') ++ ['"'] <+: cs := by
      have happend := List.takeWhile_append_dropWhile (p := (· != '"')) (l := cs)
      cases hdrop : cs.dropWhile (· != '"') with
      | nil =>
        rw [hdrop, List.append_nil] at happend
        rw [happend] at hlength
        omega
      | cons d rest =>
        have hd := List.head?_dropWhile_not (· != '"') cs
        rw [hdrop] at hd happend
        obtain rfl : d = '"' := by simpa using hd
        exact ⟨rest, by rw [List.append_assoc]; exact happend⟩
    have htake : cs.take ((cs.takeWhile (· != '"')).length + 1) =
        cs.takeWhile (· != '"') ++ ['"'] := by
      rw [List.prefix_iff_eq_take.1 htext, List.length_append]
      rfl
    rw [htake]
    refine .token ⟨by rw [String.toList_ofList], by rwa [String.toList_ofList]⟩
      fun p ds hds hfront => ?_
    obtain rfl := eq_text_of_starts (hds.starts_of_isPrefix hfront)
    obtain ⟨content, rfl, hquote⟩ := hds
    have hle : content.length ≤ (cs.takeWhile (· != '"')).length := by
      refine length_le_of_isPrefix (fun d hd => ?_)
        ((List.prefix_append _ _).trans (List.cons_prefix_cons.1 hfront).2)
      exact bne_iff_ne.2 fun heq => hquote (heq ▸ hd)
    simp only [List.length_cons, List.length_append, List.length_nil]
    omega
  · next hlength =>
    -- Without a second quote no text matches, and nothing else starts with a quote.
    refine .stray fun p ds hds hfront => ?_
    obtain rfl := eq_text_of_starts (hds.starts_of_isPrefix hfront)
    obtain ⟨content, rfl, -⟩ := hds
    have hmem : '"' ∈ cs :=
      (List.cons_prefix_cons.1 hfront).2.subset (List.mem_append_right _ List.mem_cons_self)
    have hall : cs.takeWhile (· != '"') = cs :=
      (List.takeWhile_prefix _).eq_of_length_le (Nat.le_of_not_lt hlength)
    rw [hall] at hcontent
    exact hcontent hmem

theorem Symbol.length_spelling_le (s : Symbol) : s.spelling.toList.length ≤ 2 := by
  cases s <;> decide

theorem fits_comment (hcs : cs.head? = some '/') :
    Lexeme.skipped.Fits ('/' :: cs.takeWhile (· != '\n')) ('/' :: cs) := by
  obtain ⟨rest, rfl⟩ : ∃ rest, cs = '/' :: rest := by
    cases cs with
    | nil => cases hcs
    | cons d rest => exact ⟨rest, by rw [Option.some.inj hcs]⟩
  have hrun : ('/' :: '/' :: rest).takeWhile (· != '\n') =
      '/' :: ('/' :: rest).takeWhile (· != '\n') := List.takeWhile_cons_of_pos rfl
  have hmatches : Pattern.Matches .comment ('/' :: ('/' :: rest).takeWhile (· != '\n')) := by
    refine ⟨rest.takeWhile (· != '\n'), rfl, fun hmem => ?_⟩
    simpa using List.all_eq_true.1 List.all_takeWhile _ hmem
  refine .skipped (p := .comment) trivial hmatches fun p ds hds hfront => ?_
  rcases eq_symbol_of_starts (by decide) (by decide) (by decide) (by decide)
    (hds.starts_of_isPrefix hfront) with ⟨s, rfl⟩ | ⟨rfl, -⟩
  · obtain rfl : ds = s.spelling.toList := hds
    exact Nat.le_trans s.length_spelling_le (Nat.le_add_left 2 _)
  · obtain ⟨body, rfl, hbody⟩ := hds
    rw [← hrun]
    refine length_le_of_isPrefix (fun d hd => ?_) hfront
    simp only [List.mem_cons] at hd
    rcases hd with rfl | rfl | hd
    · rfl
    · rfl
    · exact bne_iff_ne.2 fun heq => hbody (heq ▸ hd)

/-- Symbols are tried in the order of their lengths, the longest first. -/
theorem Symbol.all_descending :
    Symbol.all.Pairwise fun a b => b.spelling.toList.length ≤ a.spelling.toList.length := by
  decide

theorem fits_symbolLexeme (hblank : isBlank c = false) (hdigit : isDigit c = false)
    (hname : isNameStart c = false) (hquote : c ≠ '"')
    (hcomment : ¬(c = '/' ∧ cs.head? = some '/')) :
    (symbolLexeme c cs).1.Fits (c :: cs.take (symbolLexeme c cs).2) (c :: cs) := by
  have hsymbol {p : Pattern} {ds : List Char} (hds : p.Matches ds) (hfront : ds <+: c :: cs) :
      ∃ s, s ∈ Symbol.all ∧ ds = s.spelling.toList ∧
        s.spelling.toList.isPrefixOf (c :: cs) = true := by
    rcases eq_symbol_of_starts hblank hdigit hname hquote (hds.starts_of_isPrefix hfront) with
      ⟨s, rfl⟩ | ⟨rfl, rfl⟩
    · obtain rfl : ds = s.spelling.toList := hds
      exact ⟨s, by cases s <;> decide, rfl, List.isPrefixOf_iff_prefix.2 hfront⟩
    · obtain ⟨rest, rfl, -⟩ := hds
      obtain ⟨rest', hrest'⟩ := (List.cons_prefix_cons.1 hfront).2
      exact absurd ⟨rfl, by rw [← hrest']; rfl⟩ hcomment
  rw [symbolLexeme]
  split
  · next s hs =>
    obtain ⟨hfound, longer, shorter, hall, hlonger⟩ := List.find?_eq_some_iff_append.1 hs
    have hfront : s.spelling.toList <+: c :: cs := List.isPrefixOf_iff_prefix.1 hfound
    have htake : c :: cs.take (s.spelling.length - 1) = s.spelling.toList := by
      have hpos : s.spelling.length = s.spelling.length - 1 + 1 := by cases s <;> rfl
      rw [List.prefix_iff_eq_take.1 hfront, String.length_toList, hpos]
      rfl
    rw [htake]
    refine .token rfl fun p ds hds hds' => ?_
    obtain ⟨s', hs', rfl, hfront'⟩ := hsymbol hds hds'
    rw [hall] at hs'
    have hdescending := Symbol.all_descending
    rw [hall, List.pairwise_append, List.pairwise_cons] at hdescending
    rcases List.mem_append.1 hs' with hs' | hs'
    · have hnot := hlonger s' hs'
      rw [hfront'] at hnot
      cases hnot
    · rcases List.mem_cons.1 hs' with rfl | hs'
      · exact Nat.le_refl _
      · exact hdescending.2.1.1 s' hs'
  · next hnone =>
    refine .stray fun p ds hds hfront => ?_
    obtain ⟨s, hs, -, hfront⟩ := hsymbol hds hfront
    exact List.find?_eq_none.1 hnone s hs hfront

/-- **The longest match is taken.** What the scan finds at a place fits there. -/
theorem fits_lexeme (c : Char) (cs : List Char) :
    (lexeme c cs).1.Fits (c :: cs.take (lexeme c cs).2) (c :: cs) := by
  rw [lexeme]
  split
  · next hblank =>
    rw [take_length_takeWhile]
    exact fits_blanks hblank
  · next hblank =>
    split
    · next hdigit => exact fits_numberLexeme hdigit
    · next hdigit =>
      split
      · next hname => exact fits_wordLexeme hname
      · next hname =>
        split
        · next hquote =>
          obtain rfl : c = '"' := by simpa using hquote
          exact fits_textLexeme
        · next hquote =>
          split
          · next hcomment =>
            obtain ⟨rfl, hcs⟩ : c = '/' ∧ cs.head? = some '/' := by simpa using hcomment
            rw [take_length_takeWhile]
            exact fits_comment hcs
          · next hcomment =>
            simp only [Bool.not_eq_true] at hblank hdigit hname
            exact fits_symbolLexeme hblank hdigit hname (by simpa using hquote)
              (by simpa using hcomment)

end Lexemes

end ScriptMachine
