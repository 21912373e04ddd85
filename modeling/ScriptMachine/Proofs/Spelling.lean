import ScriptMachine.Token.Scan

/-!
# Spelling

Tokens can be written down as a text again. A token has a spelling of its own
(`Token.spelling`), and tokens are written one directly behind the other, with a blank only
where a token would otherwise run into the text behind it (`Token.runsInto`, `spell`): a word
into further letters and digits, an integer into digits or a fraction, an operator into a
longer one, a slash into a comment.

* `lexeme_spelling`: at the spelling of a token that does not run on, the scan takes this
  token and no more.
* `scan_spell`: the scan of the written tokens finds these tokens, and no errors.

Numbers with a fraction have no spelling here.
-/

namespace ScriptMachine

/-- Can the word be a name? It starts as a name does, goes on so, and is not a keyword. -/
def isName (word : String) : Bool :=
  match word.toList with
  | [] => false
  | c :: cs => isNameStart c && cs.all isNamePart && Keyword.all.all fun k => k.spelling != word

/-- The character that makes something longer of the symbol. -/
def Symbol.extension? : Symbol → Option Char
  | assign | bang | less | greater => some '='
  | slash => some '/'
  | _ => none

namespace Token

/-- The characters by which a token is written. -/
def spelling : Token → List Char
  | keyword k => k.spelling.toList
  | symbol s => s.spelling.toList
  | float _ => []
  | int n => Nat.toDigits 10 n
  | text s => '"' :: (s.toList ++ ['"'])
  | ident name => name.toList

/-- Is the token one that its spelling stands for? -/
def isSpellable : Token → Bool
  | keyword _ | symbol _ => true
  | float _ => false
  | int n => n ≤ maxInteger
  | text s => s.toList.all (· != '"')
  | ident name => isName name

/-- Would the token go on with the text behind it? -/
def runsInto : Token → List Char → Bool
  | keyword _, rest | ident _, rest => rest.head?.any isNamePart
  | symbol s, rest => rest.head?.any fun c => s.extension? == some c
  | int _, rest => rest.head?.any isDigit || (rest.head? == some '.' && rest.tail.head?.any isDigit)
  | float _, _ | text _, _ => false

theorem runsInto_blank (t : Token) (rest : List Char) : t.runsInto (' ' :: rest) = false := by
  cases t with
  | symbol s => cases s <;> rfl
  | _ => rfl

end Token

/-- The text of tokens. -/
def spell : List Token → List Char
  | [] => []
  | t :: ts =>
    let rest := spell ts
    t.spelling ++ if t.runsInto rest then ' ' :: rest else rest

/-! ## Single tokens -/

section Lexemes

variable {c : Char} {cs rest : List Char}

/-- The longest run of a class, in front of something that is not of the class. -/
theorem takeWhile_append_of_head {p : Char → Bool} (hcs : ∀ c ∈ cs, p c = true)
    (hrest : rest.head?.any p = false) : (cs ++ rest).takeWhile p = cs := by
  rw [List.takeWhile_append_of_pos hcs]
  cases rest with
  | nil => simp
  | cons d rest =>
    have hd : p d = false := hrest
    simp [hd]

theorem dropWhile_append_of_head {p : Char → Bool} (hcs : ∀ c ∈ cs, p c = true)
    (hrest : rest.head?.any p = false) : (cs ++ rest).dropWhile p = rest := by
  rw [List.dropWhile_append_of_pos hcs]
  cases rest with
  | nil => simp
  | cons d rest =>
    have hd : p d = false := hrest
    simp [hd]

theorem not_isBlank_of_isNamePart (hc : isNamePart c = true) : isBlank c = false := by
  have hblank (h : isBlank c = true) : c = ' ' ∨ c = '\t' ∨ c = '\r' ∨ c = '\n' := by
    simpa [isBlank, or_assoc] using h
  rcases Bool.eq_false_or_eq_true (isBlank c) with h | h
  · rcases hblank h with rfl | rfl | rfl | rfl <;> revert hc <;> decide
  · exact h

theorem not_isDigit_of_isNameStart (hc : isNameStart c = true) : isDigit c = false := by
  simp only [isNameStart, isDigit, Bool.or_eq_true, Bool.and_eq_true, decide_eq_true_eq,
    beq_iff_eq, Bool.and_eq_false_iff, decide_eq_false_iff_not, Char.le_def] at hc ⊢
  rcases hc with (⟨hA, -⟩ | ⟨ha, -⟩) | rfl
  · exact .inr fun h => absurd (UInt32.le_trans hA h) (by decide)
  · exact .inr fun h => absurd (UInt32.le_trans ha h) (by decide)
  · exact .inr (by decide)

/-- At a letter stands a word. -/
theorem lexeme_of_isNameStart (hc : isNameStart c = true) : lexeme c cs = wordLexeme c cs := by
  have hpart : isNamePart c = true := by simp [isNamePart, hc]
  simp [lexeme, not_isBlank_of_isNamePart hpart, not_isDigit_of_isNameStart hc, hc]

/-- At a digit stands a number. -/
theorem lexeme_of_isDigit (hc : isDigit c = true) : lexeme c cs = numberLexeme c cs := by
  have hpart : isNamePart c = true := by simp [isNamePart, hc]
  simp [lexeme, not_isBlank_of_isNamePart hpart, hc]

/-- A word that nothing goes on with. -/
theorem wordLexeme_append (hcs : ∀ c ∈ cs, isNamePart c = true)
    (hrest : rest.head?.any isNamePart = false) :
    wordLexeme c (cs ++ rest) = (.token (wordToken (String.ofList (c :: cs))), cs.length) := by
  rw [wordLexeme, takeWhile_append_of_head hcs hrest]

theorem wordToken_of_isName {name : String} (hname : isName name = true) :
    wordToken name = .ident name := by
  rw [isName] at hname
  split at hname
  · cases hname
  · have hkeywords := (Bool.and_eq_true_iff.1 hname).2
    have hnone : Keyword.all.find? (·.spelling == name) = none := by
      refine List.find?_eq_none.2 fun k hk => ?_
      simpa using List.all_eq_true.1 hkeywords k hk
    rw [wordToken, hnone]

/-- An integer that no digit and no fraction goes on with. -/
theorem numberLexeme_append (hcs : ∀ c ∈ cs, isDigit c = true)
    (hn : digitsValue (c :: cs) ≤ maxInteger) (hrest : rest.head?.any isDigit = false)
    (hpoint : (rest.head? == some '.' && rest.tail.head?.any isDigit) = false) :
    numberLexeme c (cs ++ rest) = (.token (.int (digitsValue (c :: cs))), cs.length) := by
  simp only [numberLexeme, takeWhile_append_of_head hcs hrest, dropWhile_append_of_head hcs hrest,
    if_pos hn]
  split
  · next rest' =>
    have hfraction : rest'.takeWhile isDigit = [] := by
      cases rest' with
      | nil => rfl
      | cons d rest' =>
        have hd : isDigit d = false := by simpa using hpoint
        simp [hd]
    rw [hfraction]
    rfl
  · rfl

theorem isDigit_of_mem_toDigits {n : Nat} (hc : c ∈ Nat.toDigits 10 n) : isDigit c = true := by
  have hdigit := Nat.isDigit_of_mem_toDigits (by decide) (by decide) hc
  simpa [Char.isDigit, isDigit, Char.le_def] using hdigit

theorem digitsValue_toDigits (n : Nat) : digitsValue (Nat.toDigits 10 n) = n :=
  Nat.ofDigitChars_toDigits (by decide) (by decide)

/-- A text ends with the first double quote. -/
theorem textLexeme_append (hcs : ∀ c ∈ cs, (c != '"') = true) :
    textLexeme (cs ++ '"' :: rest) = (.token (.text (String.ofList cs)), cs.length + 1) := by
  have hcontent : (cs ++ '"' :: rest).takeWhile (· != '"') = cs := takeWhile_append_of_head hcs rfl
  rw [textLexeme, hcontent, if_pos (by simp)]

theorem symbolLexeme_eq {s : Symbol}
    (h : Symbol.all.find? (fun s => s.spelling.toList.isPrefixOf (c :: cs)) = some s) :
    symbolLexeme c cs = (.token (.symbol s), s.spelling.length - 1) := by
  rw [symbolLexeme, h]

/-- The longest symbol is taken. -/
theorem lexeme_symbol (s : Symbol) (hrest : Token.runsInto (.symbol s) rest = false) :
    ∃ c cs, s.spelling.toList = c :: cs ∧
      lexeme c (cs ++ rest) = (.token (.symbol s), cs.length) := by
  -- Only the symbols that a further character makes longer look at the text behind them.
  have hne {d : Char} (h : s.extension? = some d) : rest.head? ≠ some d := by
    intro hhead
    simp [Token.runsInto, hhead, h] at hrest
  have hequal (h : s.extension? = some '=') : ['='].isPrefixOf rest = false := by
    cases rest with
    | nil => rfl
    | cons d rest =>
      have hd : ('=' == d) = false := beq_false_of_ne fun heq => hne h (congrArg some heq.symm)
      rw [List.isPrefixOf, hd, Bool.false_and]
  cases s with
  | assign =>
    exact ⟨'=', [], rfl, symbolLexeme_eq (by simp [Symbol.all, Symbol.spelling, hequal rfl])⟩
  | bang =>
    exact ⟨'!', [], rfl, symbolLexeme_eq (by simp [Symbol.all, Symbol.spelling, hequal rfl])⟩
  | less =>
    exact ⟨'<', [], rfl, symbolLexeme_eq (by simp [Symbol.all, Symbol.spelling, hequal rfl])⟩
  | greater =>
    exact ⟨'>', [], rfl, symbolLexeme_eq (by simp [Symbol.all, Symbol.spelling, hequal rfl])⟩
  | slash =>
    have hcomment : ¬('/' == '/' && rest.head? == some '/') = true := by simpa using hne rfl
    refine ⟨'/', [], rfl, ?_⟩
    change (if ('/' == '/' && rest.head? == some '/') = true then _ else symbolLexeme '/' rest) = _
    rw [if_neg hcomment]
    rfl
  | _ => exact ⟨_, _, rfl, rfl⟩

theorem lexeme_keyword (k : Keyword) (hrest : Token.runsInto (.keyword k) rest = false) :
    ∃ c cs, k.spelling.toList = c :: cs ∧
      lexeme c (cs ++ rest) = (.token (.keyword k), cs.length) := by
  have hword {c : Char} {cs : List Char} (hk : k.spelling = String.ofList (c :: cs))
      (hc : isNameStart c = true) (hcs : cs.all isNamePart = true) :
      ∃ c cs, k.spelling.toList = c :: cs ∧
        lexeme c (cs ++ rest) = (.token (.keyword k), cs.length) := by
    refine ⟨c, cs, by rw [hk, String.toList_ofList], ?_⟩
    rw [lexeme_of_isNameStart hc, wordLexeme_append (List.all_eq_true.1 hcs) hrest, ← hk]
    cases k <;> rfl
  cases k <;> exact hword rfl rfl rfl

theorem lexeme_ident {name : String} (hname : isName name = true)
    (hrest : Token.runsInto (.ident name) rest = false) :
    ∃ c cs, name.toList = c :: cs ∧
      lexeme c (cs ++ rest) = (.token (.ident name), cs.length) := by
  have htoken := wordToken_of_isName hname
  rw [isName] at hname
  split at hname
  · cases hname
  · next c cs hlist =>
    obtain ⟨⟨hc, hcs⟩, -⟩ : (isNameStart c = true ∧ ∀ c ∈ cs, isNamePart c = true) ∧ _ := by
      simpa only [Bool.and_eq_true, List.all_eq_true] using hname
    have hofList : String.ofList (c :: cs) = name := by rw [← hlist, String.ofList_toList]
    refine ⟨c, cs, hlist, ?_⟩
    rw [lexeme_of_isNameStart hc, wordLexeme_append hcs hrest, hofList, htoken]

theorem lexeme_int {n : Nat} (hn : n ≤ maxInteger) (hrest : Token.runsInto (.int n) rest = false) :
    ∃ c cs, Nat.toDigits 10 n = c :: cs ∧
      lexeme c (cs ++ rest) = (.token (.int n), cs.length) := by
  obtain ⟨hdigit, hpoint⟩ := Bool.or_eq_false_iff.1 hrest
  have hvalue := digitsValue_toDigits n
  have hdigits (c : Char) (hc : c ∈ Nat.toDigits 10 n) := isDigit_of_mem_toDigits hc
  rcases hlist : Nat.toDigits 10 n with _ | ⟨c, cs⟩
  · exact absurd hlist Nat.toDigits_ne_nil
  · rw [hlist] at hvalue hdigits
    refine ⟨c, cs, rfl, ?_⟩
    rw [lexeme_of_isDigit (hdigits c List.mem_cons_self),
      numberLexeme_append (fun d hd => hdigits d (List.mem_cons_of_mem c hd)) (hvalue ▸ hn) hdigit
        hpoint, hvalue]

theorem lexeme_text {s : String} (hs : ∀ c ∈ s.toList, (c != '"') = true) :
    lexeme '"' (s.toList ++ ['"'] ++ rest) = (.token (.text s), (s.toList ++ ['"']).length) := by
  rw [List.append_assoc, List.singleton_append]
  change textLexeme _ = _
  rw [textLexeme_append hs, String.ofList_toList, List.length_append]
  rfl

/-- At the spelling of a token that does not run into the text behind it, the scan takes the
    token and no more. -/
theorem lexeme_spelling {t : Token} (ht : t.isSpellable = true) (hrest : t.runsInto rest = false) :
    ∃ c cs, t.spelling = c :: cs ∧ lexeme c (cs ++ rest) = (.token t, cs.length) := by
  cases t with
  | keyword k => exact lexeme_keyword k hrest
  | symbol s => exact lexeme_symbol s hrest
  | float x => exact nomatch ht
  | int n => exact lexeme_int (of_decide_eq_true ht) hrest
  | text s => exact ⟨'"', _, rfl, lexeme_text (List.all_eq_true.1 ht)⟩
  | ident name => exact lexeme_ident ht hrest

end Lexemes

/-! ## Sequences of tokens -/

/-- What a scan finds, without the places. -/
def Scan.found (s : Scan) : List Token := s.tokens.map Prod.fst

/-- No spelling starts with a blank. -/
theorem head_spell_not_blank {ts : List Token} (hts : ∀ t ∈ ts, t.isSpellable = true) :
    (spell ts).head?.any isBlank = false := by
  cases ts with
  | nil => rfl
  | cons t ts =>
    obtain ⟨c, cs, hspelling, hlexeme⟩ :=
      lexeme_spelling (hts t List.mem_cons_self) (t.runsInto_blank [])
    rw [spell, hspelling]
    refine Bool.eq_false_iff.2 fun (hblank : isBlank c = true) => ?_
    rw [lexeme, if_pos hblank] at hlexeme
    exact nomatch hlexeme

/-- A token at the front of a text. -/
theorem scanFrom_token {c : Char} {cs rest : List Char} {t : Token}
    (h : lexeme c (cs ++ rest) = (.token t, cs.length)) (offset : Nat) :
    ∃ span stop, scanFrom offset (c :: (cs ++ rest)) =
      { scanFrom stop rest with tokens := (t, span) :: (scanFrom stop rest).tokens } := by
  rw [scanFrom]
  simp only [h, List.drop_left, List.take_left]
  exact ⟨_, _, rfl⟩

/-- A blank at the front of a text that does not start with one. -/
theorem scanFrom_blank {rest : List Char} (hrest : rest.head?.any isBlank = false) (offset : Nat) :
    ∃ stop, scanFrom offset (' ' :: rest) = scanFrom stop rest := by
  have hlexeme : lexeme ' ' rest = (.skipped, 0) := by
    have hnone : ([] ++ rest).takeWhile isBlank = [] :=
      takeWhile_append_of_head (fun c hc => absurd hc List.not_mem_nil) hrest
    rw [List.nil_append] at hnone
    rw [lexeme, if_pos (by rfl), hnone]
    rfl
  rw [scanFrom]
  simp only [hlexeme, List.drop_zero]
  exact ⟨_, rfl⟩

theorem scanFrom_spell {ts : List Token} (hts : ∀ t ∈ ts, t.isSpellable = true) (offset : Nat) :
    (scanFrom offset (spell ts)).found = ts ∧ (scanFrom offset (spell ts)).errors = [] := by
  induction ts generalizing offset with
  | nil =>
    rw [spell, scanFrom]
    exact ⟨rfl, rfl⟩
  | cons t ts ih =>
    have hts' : ∀ t ∈ ts, t.isSpellable = true := fun t ht => hts t (List.mem_cons_of_mem _ ht)
    -- Whatever stands behind the token, a blank or the next one, does not become part of it.
    have hgap : ∃ gap, spell (t :: ts) = t.spelling ++ gap ∧ t.runsInto gap = false ∧
        ∀ offset, ∃ stop, scanFrom offset gap = scanFrom stop (spell ts) := by
      cases hruns : t.runsInto (spell ts) with
      | true =>
        exact ⟨' ' :: spell ts, by rw [spell, hruns]; rfl, t.runsInto_blank _,
          scanFrom_blank (head_spell_not_blank hts')⟩
      | false => exact ⟨spell ts, by rw [spell, hruns]; rfl, hruns, fun offset => ⟨offset, rfl⟩⟩
    obtain ⟨gap, hspell, hruns, hgap⟩ := hgap
    obtain ⟨c, cs, hspelling, hlexeme⟩ := lexeme_spelling (hts t List.mem_cons_self) hruns
    obtain ⟨span, stop, hscan⟩ := scanFrom_token hlexeme offset
    obtain ⟨stop', hstop'⟩ := hgap stop
    obtain ⟨hfound, herrors⟩ := ih hts' stop'
    rw [hspell, hspelling, List.cons_append, hscan, hstop']
    exact ⟨congrArg (t :: ·) hfound, herrors⟩

/-- The scan of written tokens finds these tokens, and no errors. -/
theorem scan_spell {ts : List Token} (hts : ∀ t ∈ ts, t.isSpellable = true) :
    (scan (String.ofList (spell ts))).found = ts ∧ (scan (String.ofList (spell ts))).errors = [] := by
  rw [scan, String.toList_ofList]
  exact scanFrom_spell hts 0

end ScriptMachine
