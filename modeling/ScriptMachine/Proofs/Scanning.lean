import ScriptMachine.Proofs.Patterns

/-!
# What a scan finds

A scan cuts the source into parts, each of them the longest match at its place or something that
no pattern matches (`Cut`); what it returns are the parts that are not skipped. Spans count bytes,
and a span holds a text if the source is made of the text before it, that text, and the text behind
it (`Span.Holds`): so a span that holds a text lies inside the source and between characters.

* `cut_scanFrom`: a scan cuts the source, from any place to its end.
* `scan_exact`: the spans of tokens and errors follow one another and lie apart, what stands in no
  span is a run of blanks or a comment, every token is the longest match at its place and carries
  the value of its characters, and an error stands where no pattern matches, or for an integer
  that is too large.
-/

namespace ScriptMachine

/-! ## Spans of a text -/

/-- The span holds a text of the source, which is not empty. -/
structure Span.Holds (span : Span) (source before text behind : String) : Prop where
  eq : source = before ++ (text ++ behind)
  start : span.start = before.utf8ByteSize
  stop : span.stop = span.start + text.utf8ByteSize
  nonempty : text ≠ ""

/-- Two spans have no byte in common. -/
def Span.Apart (a b : Span) : Prop := a.stop ≤ b.start ∨ b.stop ≤ a.start

/-- Does the span have the byte? -/
def Span.Has (span : Span) (k : Nat) : Prop := span.start ≤ k ∧ k < span.stop

section Spans

variable {span : Span} {source before text behind : String}

theorem Span.Holds.start_lt_stop (h : span.Holds source before text behind) :
    span.start < span.stop := by
  have hpos : text.utf8ByteSize ≠ 0 := mt String.utf8ByteSize_eq_zero_iff.1 h.nonempty
  have := h.stop
  omega

theorem Span.Holds.stop_le (h : span.Holds source before text behind) :
    span.stop ≤ source.utf8ByteSize := by
  rw [h.stop, h.start, h.eq, String.utf8ByteSize_append, String.utf8ByteSize_append]
  omega

/-- The bytes of characters are those of their text. -/
theorem byteLength_eq (cs : List Char) : byteLength cs = (String.ofList cs).utf8ByteSize := by
  induction cs with
  | nil => rfl
  | cons c cs ih =>
    rw [String.ofList_cons, String.utf8ByteSize_append, String.utf8ByteSize_singleton, ← ih]
    rfl

theorem byteLength_append (cs ds : List Char) :
    byteLength (cs ++ ds) = byteLength cs + byteLength ds := by
  rw [byteLength_eq, byteLength_eq, byteLength_eq, String.ofList_append, String.utf8ByteSize_append]

theorem holds_of_append {taken before rest : List Char}
    (h : source.toList = before ++ (taken ++ rest)) (hne : taken ≠ []) :
    Span.Holds ⟨byteLength before, byteLength before + byteLength taken⟩ source
      (String.ofList before) (String.ofList taken) (String.ofList rest) := by
  refine ⟨?_, byteLength_eq before, congrArg _ (byteLength_eq taken), ?_⟩
  · rw [← String.ofList_append, ← String.ofList_append, ← h, String.ofList_toList]
  · rwa [Ne, String.ofList_eq_empty_iff]

theorem fits_texts {l : Lexeme} {taken rest : List Char} (h : l.Fits taken (taken ++ rest)) :
    l.Fits (String.ofList taken).toList (String.ofList taken ++ String.ofList rest).toList := by
  rwa [String.toList_append, String.toList_ofList, String.toList_ofList]

end Spans

/-! ## The parts of a source -/

/-- The spans of what a scan returns. -/
def Scan.spans (s : Scan) : List Span := s.tokens.map Prod.snd ++ s.errors.map ScanError.span

theorem Scan.mem_spans_token {s : Scan} {t : Token} {span other : Span} :
    other ∈ spans { s with tokens := (t, span) :: s.tokens } ↔ other = span ∨ other ∈ s.spans :=
  List.mem_cons

theorem Scan.mem_spans_error {s : Scan} {e : ScanError} {other : Span} :
    other ∈ spans { s with errors := e :: s.errors } ↔ other = e.span ∨ other ∈ s.spans := by
  simp only [spans, List.map_cons, List.mem_append, List.mem_cons]
  exact or_left_comm

/-- The source from a byte on is cut into parts, and the scan has those that are not skipped. -/
inductive Cut (source : String) : Nat → Scan → Prop where
  | done : Cut source source.utf8ByteSize ⟨[], []⟩
  | skipped {span before text behind s} : Span.Holds span source before text behind →
      Lexeme.skipped.Fits text.toList (text ++ behind).toList → Cut source span.stop s →
      Cut source span.start s
  | token {t span before text behind s} : Span.Holds span source before text behind →
      (Lexeme.token t).Fits text.toList (text ++ behind).toList → Cut source span.stop s →
      Cut source span.start { s with tokens := (t, span) :: s.tokens }
  | bad {span before text behind s} : Span.Holds span source before text behind →
      Lexeme.bad.Fits text.toList (text ++ behind).toList → Cut source span.stop s →
      Cut source span.start { s with errors := ⟨span, text⟩ :: s.errors }

theorem cut_scanFrom {source : String} (before : List Char) :
    (cs : List Char) → source.toList = before ++ cs →
      Cut source (byteLength before) (scanFrom (byteLength before) cs)
  | [], h => by
    have hend : byteLength before = source.utf8ByteSize := by
      rw [byteLength_eq, ← List.append_nil before, ← h, String.ofList_toList]
    rw [scanFrom, hend]
    exact .done
  | c :: cs, h => by
    have hcs : c :: cs = c :: cs.take (lexeme c cs).2 ++ cs.drop (lexeme c cs).2 := by
      rw [List.cons_append, List.take_append_drop]
    have hfits := fits_lexeme c cs
    have htaken : c :: cs.take (lexeme c cs).2 ≠ [] := List.cons_ne_nil _ _
    -- What is taken and what is left are all that matters of the lexeme from here on.
    rw [scanFrom]
    generalize c :: cs.take (lexeme c cs).2 = taken at hcs hfits htaken ⊢
    rw [hcs] at h hfits
    have hrest := cut_scanFrom (before ++ taken) (cs.drop (lexeme c cs).2) (by
      rw [h, List.append_assoc])
    rw [byteLength_append] at hrest
    have htexts := fits_texts hfits
    have hholds := holds_of_append h htaken
    cases hfound : (lexeme c cs).1 with
    | skipped => exact .skipped hholds (hfound ▸ htexts) hrest
    | token t => exact .token hholds (hfound ▸ htexts) hrest
    | bad => exact .bad hholds (hfound ▸ htexts) hrest
termination_by cs => cs.length
decreasing_by simp +arith [List.length_drop]

namespace Cut

variable {source : String} {a : Nat} {s : Scan}

/-- The parts that are returned stand behind the place where the cut starts. -/
theorem start_le (h : Cut source a s) {span : Span} (hspan : span ∈ s.spans) : a ≤ span.start := by
  induction h with
  | done => cases hspan
  | skipped hholds _ _ ih => exact Nat.le_trans (Nat.le_of_lt hholds.start_lt_stop) (ih hspan)
  | token hholds _ _ ih =>
    rcases Scan.mem_spans_token.1 hspan with rfl | hspan
    · exact Nat.le_refl _
    · exact Nat.le_trans (Nat.le_of_lt hholds.start_lt_stop) (ih hspan)
  | bad hholds _ _ ih =>
    rcases Scan.mem_spans_error.1 hspan with rfl | hspan
    · exact Nat.le_refl _
    · exact Nat.le_trans (Nat.le_of_lt hholds.start_lt_stop) (ih hspan)

theorem token_start_le (h : Cut source a s) {t : Token} {span : Span} (ht : (t, span) ∈ s.tokens) :
    a ≤ span.start :=
  h.start_le (List.mem_append_left _ (List.mem_map_of_mem ht))

theorem error_start_le (h : Cut source a s) {e : ScanError} (he : e ∈ s.errors) :
    a ≤ e.span.start :=
  h.start_le (List.mem_append_right _ (List.mem_map_of_mem he))

theorem tokens_ordered (h : Cut source a s) :
    s.tokens.Pairwise fun t u => t.2.stop ≤ u.2.start := by
  induction h with
  | done => exact .nil
  | skipped _ _ _ ih => exact ih
  | token _ _ hrest ih => exact .cons (fun _ ht => hrest.token_start_le ht) ih
  | bad _ _ _ ih => exact ih

theorem errors_ordered (h : Cut source a s) :
    s.errors.Pairwise fun e f => e.span.stop ≤ f.span.start := by
  induction h with
  | done => exact .nil
  | skipped _ _ _ ih => exact ih
  | token _ _ _ ih => exact ih
  | bad _ _ hrest ih => exact .cons (fun _ he => hrest.error_start_le he) ih

theorem apart (h : Cut source a s) {t : Token} {span : Span} (ht : (t, span) ∈ s.tokens)
    {e : ScanError} (he : e ∈ s.errors) : span.Apart e.span := by
  induction h with
  | done => cases ht
  | skipped _ _ _ ih => exact ih ht he
  | token _ _ hrest ih =>
    rcases List.mem_cons.1 ht with heq | ht
    · cases heq
      exact .inl (hrest.error_start_le he)
    · exact ih ht he
  | bad _ _ hrest ih =>
    rcases List.mem_cons.1 he with rfl | he
    · exact .inr (hrest.token_start_le ht)
    · exact ih ht he

theorem token_fits (h : Cut source a s) {t : Token} {span : Span} (ht : (t, span) ∈ s.tokens) :
    ∃ before text behind, span.Holds source before text behind ∧
      (Lexeme.token t).Fits text.toList (text ++ behind).toList := by
  induction h with
  | done => cases ht
  | skipped _ _ _ ih => exact ih ht
  | token hholds hfits _ ih =>
    rcases List.mem_cons.1 ht with heq | ht
    · cases heq
      exact ⟨_, _, _, hholds, hfits⟩
    · exact ih ht
  | bad _ _ _ ih => exact ih ht

theorem error_fits (h : Cut source a s) {e : ScanError} (he : e ∈ s.errors) :
    ∃ before behind, e.span.Holds source before e.snippet behind ∧
      Lexeme.bad.Fits e.snippet.toList (e.snippet ++ behind).toList := by
  induction h with
  | done => cases he
  | skipped _ _ _ ih => exact ih he
  | token _ _ _ ih => exact ih he
  | bad hholds hfits _ ih =>
    rcases List.mem_cons.1 he with rfl | he
    · exact ⟨_, _, hholds, hfits⟩
    · exact ih he

/-- Every part that is returned has a text. -/
theorem holds (h : Cut source a s) {span : Span} (hspan : span ∈ s.spans) :
    ∃ before text behind, span.Holds source before text behind := by
  rcases List.mem_append.1 hspan with hspan | hspan
  · obtain ⟨⟨t, span⟩, ht, rfl⟩ := List.mem_map.1 hspan
    obtain ⟨before, text, behind, hholds, -⟩ := h.token_fits ht
    exact ⟨before, text, behind, hholds⟩
  · obtain ⟨e, he, rfl⟩ := List.mem_map.1 hspan
    obtain ⟨before, behind, hholds, -⟩ := h.error_fits he
    exact ⟨before, e.snippet, behind, hholds⟩

/-- The byte is one of a part that is returned, or of one from `a` on that is skipped and lies
    apart from those. -/
def Covered (source : String) (a : Nat) (s : Scan) (k : Nat) : Prop :=
  (∃ span ∈ s.spans, span.Has k) ∨
    ∃ (span : Span) (before text behind : String), span.Holds source before text behind ∧
      span.Has k ∧ a ≤ span.start ∧ Lexeme.skipped.Fits text.toList (text ++ behind).toList ∧
      ∀ other ∈ s.spans, span.Apart other

/-- One more part is returned, in front of all others. -/
theorem Covered.kept {s' : Scan} {k : Nat} {span : Span} {before text behind : String}
    (hholds : span.Holds source before text behind)
    (hmem : ∀ other, other ∈ s'.spans ↔ other = span ∨ other ∈ s.spans) (hk : span.start ≤ k)
    (hrest : span.stop ≤ k → Covered source span.stop s k) : Covered source span.start s' k := by
  by_cases hstop : span.stop ≤ k
  · -- The byte is one of the rest. A part that is skipped there starts behind the new part.
    rcases hrest hstop with ⟨span', hspan', hhas⟩ |
      ⟨span', before', text', behind', hholds', hhas, hle, hfits, hapart⟩
    · exact .inl ⟨span', (hmem span').2 (.inr hspan'), hhas⟩
    · refine .inr ⟨span', before', text', behind', hholds', hhas,
        Nat.le_trans (Nat.le_of_lt hholds.start_lt_stop) hle, hfits, fun other hother => ?_⟩
      rcases (hmem other).1 hother with rfl | hother
      · exact .inr hle
      · exact hapart other hother
  · exact .inl ⟨span, (hmem span).2 (.inl rfl), hk, Nat.lt_of_not_le hstop⟩

theorem covered (h : Cut source a s) {k : Nat} (hk : a ≤ k) (hend : k < source.utf8ByteSize) :
    Covered source a s k := by
  induction h with
  | done => omega
  | @skipped span before text behind s hholds hfits hrest ih =>
    by_cases hstop : span.stop ≤ k
    · rcases ih hstop with hin | ⟨span', before', text', behind', hholds', hhas, hle, hrest'⟩
      · exact .inl hin
      · exact .inr ⟨span', before', text', behind', hholds', hhas,
          Nat.le_trans (Nat.le_of_lt hholds.start_lt_stop) hle, hrest'⟩
    · exact .inr ⟨span, before, text, behind, hholds, ⟨hk, Nat.lt_of_not_le hstop⟩, Nat.le_refl _,
        hfits, fun other hother => .inl (hrest.start_le hother)⟩
  | token hholds _ _ ih => exact .kept hholds (fun _ => Scan.mem_spans_token) hk ih
  | bad hholds _ _ ih => exact .kept hholds (fun _ => Scan.mem_spans_error) hk ih

end Cut

/-! ## The whole scan -/

/-- A scan of the source that is the longest match at every place and loses nothing. -/
structure Scan.Exact (source : String) (s : Scan) : Prop where
  /-- Tokens stand in the order of the source, one behind the other. -/
  tokens_ordered : s.tokens.Pairwise fun t u => t.2.stop ≤ u.2.start
  /-- So do errors. -/
  errors_ordered : s.errors.Pairwise fun e f => e.span.stop ≤ f.span.start
  apart : ∀ t span, (t, span) ∈ s.tokens → ∀ e ∈ s.errors, span.Apart e.span
  /-- No span is empty. -/
  nonempty : ∀ span ∈ s.spans, span.start < span.stop ∧ span.stop ≤ source.utf8ByteSize
  /-- A token has the form and the value of its characters, and nothing longer matches there. -/
  token : ∀ t span, (t, span) ∈ s.tokens → ∃ before text behind,
    span.Holds source before text behind ∧ t.pattern.Matches text.toList ∧ t.Reads text.toList ∧
      Longest text.toList (text ++ behind).toList
  /-- An error has the text of its span, at which no pattern matches, or an integer that is too
      large. -/
  error : ∀ e ∈ s.errors, ∃ before behind, e.span.Holds source before e.snippet behind ∧
    ((∀ p cs, Pattern.Matches p cs → ¬cs <+: (e.snippet ++ behind).toList) ∨
      Pattern.Matches .int e.snippet.toList ∧ maxInteger < digitsValue e.snippet.toList ∧
        Longest e.snippet.toList (e.snippet ++ behind).toList)
  /-- A byte outside of all spans is one of a run of blanks or of a comment, which lies outside of
      them too. -/
  skipped : ∀ k < source.utf8ByteSize, (∀ span ∈ s.spans, ¬span.Has k) →
    ∃ (span : Span) (before text behind : String), span.Holds source before text behind ∧
      span.Has k ∧ (Pattern.Matches .blanks text.toList ∨ Pattern.Matches .comment text.toList) ∧
      Longest text.toList (text ++ behind).toList ∧ ∀ other ∈ s.spans, span.Apart other

/-- **The scan is exact.** For every source it takes the longest match at each place, and returns
    everything that is not a run of blanks or a comment. -/
theorem scan_exact (source : String) : (scan source).Exact source := by
  have hcut : Cut source 0 (scan source) := cut_scanFrom [] source.toList rfl
  refine ⟨hcut.tokens_ordered, hcut.errors_ordered, fun _ _ ht _ he => hcut.apart ht he,
    fun span hspan => ?_, fun t span ht => ?_, fun e he => ?_, fun k hk hout => ?_⟩
  · obtain ⟨before, text, behind, hholds⟩ := hcut.holds hspan
    exact ⟨hholds.start_lt_stop, hholds.stop_le⟩
  · obtain ⟨before, text, behind, hholds, hfits⟩ := hcut.token_fits ht
    obtain ⟨hreads, hlongest⟩ := hfits.token_cases
    exact ⟨before, text, behind, hholds, hreads.matches, hreads, hlongest⟩
  · obtain ⟨before, behind, hholds, hfits⟩ := hcut.error_fits he
    exact ⟨before, behind, hholds, hfits.bad_cases⟩
  · rcases hcut.covered (Nat.zero_le k) hk with ⟨span, hspan, hhas⟩ |
      ⟨span, before, text, behind, hholds, hhas, -, hfits, hapart⟩
    · exact absurd hhas (hout span hspan)
    · obtain ⟨hmatches, hlongest⟩ := hfits.skipped_cases
      exact ⟨span, before, text, behind, hholds, hhas, hmatches, hlongest, hapart⟩

end ScriptMachine
