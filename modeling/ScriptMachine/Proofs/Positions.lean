import ScriptMachine.Text.Lines
import ScriptMachine.Proofs.Reader
import Mathlib.Data.List.DropRight

/-!
# Positions

Lines and columns are found by walking over the characters of a source. Here they are compared
with the bytes of the source. A line stands between two line feeds, or before the first, or behind
the last one (`IsLine`); the bytes before it tell its number and its first offset, so there is one
line for each number (`IsLine.before_unique`).

* `isLine_reached`: the starts of lines up to an offset lead to the line that the offset is on.
* `isLine_splitLines`: the pieces between the line feeds are the lines.
* `positions_exact`: the position of an offset is found by counting, positions are ordered as
  their offsets, and the text of a line is what stands on it, without the carriage returns at its
  end.

A character of several bytes contains neither a line feed nor a carriage return
(`eq_of_mem_utf8EncodeChar`).
-/

namespace ScriptMachine.Text

/-- The byte that ends a line. -/
def feedByte : UInt8 := 10

/-- The byte that is dropped at the end of a line. -/
def returnByte : UInt8 := 13

/-! ## The bytes of characters -/

/-- The bytes of characters. -/
def encoded (cs : List Char) : Bytes := cs.flatMap String.utf8EncodeChar

@[simp] theorem encoded_nil : encoded [] = [] := rfl

@[simp] theorem encoded_cons (c : Char) (cs : List Char) :
    encoded (c :: cs) = String.utf8EncodeChar c ++ encoded cs := rfl

@[simp] theorem encoded_append (cs ds : List Char) :
    encoded (cs ++ ds) = encoded cs ++ encoded ds := List.flatMap_append

theorem textBytes_ofList (cs : List Char) : textBytes (String.ofList cs) = encoded cs := by
  rw [Program.textBytes_eq, String.toByteArray_ofList, List.utf8Encode, encoded,
    List.data_toByteArray]

theorem textBytes_eq_encoded (s : String) : textBytes s = encoded s.toList := by
  rw [← textBytes_ofList, String.ofList_toList]

/-- A byte below 128 is a character of its own. -/
theorem eq_of_mem_utf8EncodeChar {b : UInt8} {c : Char} (hb : b.toNat < 128)
    (h : b ∈ String.utf8EncodeChar c) : c.toNat = b.toNat := by
  have hsmall {k n : Nat} (hn : 128 ≤ n + k ∧ n + k < 256) : (UInt8.ofNat (n + k)).toNat = n + k :=
    Nat.mod_eq_of_lt hn.2
  simp only [String.utf8EncodeChar] at h
  split at h
  · next hc =>
    rw [List.mem_singleton.1 h, UInt8.toNat_ofNat']
    exact (Nat.mod_eq_of_lt (Nat.lt_of_le_of_lt hc (by decide))).symm
  · -- All bytes of a longer character have their highest bit set.
    exfalso
    split at h
    · simp only [List.mem_cons, List.not_mem_nil, or_false] at h
      rcases h with rfl | rfl <;> rw [hsmall (by omega)] at hb <;> omega
    · split at h <;> simp only [List.mem_cons, List.not_mem_nil, or_false] at h
      · rcases h with rfl | rfl | rfl <;> rw [hsmall (by omega)] at hb <;> omega
      · rcases h with rfl | rfl | rfl | rfl <;> rw [hsmall (by omega)] at hb <;> omega

theorem feedByte_notMem {c : Char} (hc : c ≠ '\n') : feedByte ∉ String.utf8EncodeChar c :=
  fun h => hc (Char.toNat_inj.1 (eq_of_mem_utf8EncodeChar (by decide) h))

/-! ## Lines of bytes -/

/-- The line with the given number: the bytes before it, those on it without its line feed, and
    those behind it. -/
structure IsLine (bs : Bytes) (line : Nat) (before content behind : Bytes) : Prop where
  eq : bs = before ++ (content ++ behind)
  number : line = 1 + before.count feedByte
  starts : before = [] ∨ before.getLast? = some feedByte
  whole : feedByte ∉ content
  ends : behind = [] ∨ behind.head? = some feedByte

section Lines

variable {bs before before' content content' behind behind' : Bytes} {line offset : Nat}

theorem eq_of_isPrefix (h : before <+: before')
    (hcount : before'.count feedByte ≤ before.count feedByte)
    (hlast : before' = [] ∨ before'.getLast? = some feedByte) : before = before' := by
  obtain ⟨between, rfl⟩ := h
  rcases List.eq_nil_or_concat between with rfl | ⟨init, b, rfl⟩
  · rw [List.append_nil]
  · exfalso
    rw [List.concat_eq_append] at hlast hcount
    have hb : b = feedByte := by simpa using hlast
    simp only [List.count_append, hb, List.count_singleton_self] at hcount
    omega

/-- There is one line for each number. -/
theorem IsLine.before_unique (h : IsLine bs line before content behind)
    (h' : IsLine bs line before' content' behind') : before = before' := by
  have hcount : before.count feedByte = before'.count feedByte := by
    have := h.number.symm.trans h'.number
    omega
  have hp : before <+: bs := ⟨_, h.eq.symm⟩
  have hp' : before' <+: bs := ⟨_, h'.eq.symm⟩
  rcases List.prefix_or_prefix_of_prefix hp hp' with hle | hle
  · exact eq_of_isPrefix hle hcount.ge h'.starts
  · exact (eq_of_isPrefix hle hcount.le h.starts).symm

/-- The line feeds before an offset on the line, or past the end, are those before the line. -/
theorem IsLine.count_take (h : IsLine bs line before content behind)
    (hstart : before.length ≤ offset)
    (hstop : offset ≤ before.length + content.length ∨ behind = []) :
    (bs.take offset).count feedByte = before.count feedByte := by
  obtain ⟨k, rfl⟩ := Nat.exists_eq_add_of_le hstart
  rw [h.eq, List.take_append, List.take_of_length_le (Nat.le_add_right _ _), List.count_append,
    Nat.add_sub_cancel_left]
  have hnone : feedByte ∉ (content ++ behind).take k := by
    intro hmem
    rcases hstop with hk | rfl
    · rw [List.take_append_of_le_length (by omega)] at hmem
      exact h.whole (List.mem_of_mem_take hmem)
    · rw [List.append_nil] at hmem
      exact h.whole (List.mem_of_mem_take hmem)
  rw [List.count_eq_zero_of_not_mem hnone, Nat.add_zero]

/-- From a place on a line, the starts of lines up to an offset lead to the line of the offset. -/
theorem isLine_reached (offset : Nat) (cs : List Char) (before content : Bytes)
    (hstarts : before = [] ∨ before.getLast? = some feedByte) (hwhole : feedByte ∉ content)
    (hoffset : before.length ≤ offset) :
    let reached := (startsAfter (before.length + content.length) cs).takeWhile (· ≤ offset)
    ∃ before' content' behind,
      IsLine (before ++ (content ++ encoded cs)) (1 + before.count feedByte + reached.length)
        before' content' behind ∧
      before'.length = reached.getLastD before.length ∧ before'.length ≤ offset ∧
      (offset ≤ before'.length + content'.length ∨ behind = []) := by
  induction cs generalizing before content with
  | nil =>
    exact ⟨before, content, [], ⟨by simp, rfl, hstarts, hwhole, .inl rfl⟩, rfl, hoffset, .inr rfl⟩
  | cons c cs ih =>
    by_cases hc : c = '\n'
    · subst hc
      have hsize : '\n'.utf8Size = 1 := rfl
      simp only [startsAfter, hsize, if_true, encoded_cons]
      by_cases hnext : before.length + content.length + 1 ≤ offset
      · -- The line feed is before the offset: the walk goes on with the next line.
        have hbs : before ++ (content ++ (String.utf8EncodeChar '\n' ++ encoded cs)) =
            (before ++ content ++ [feedByte]) ++ ([] ++ encoded cs) := by simp; rfl
        have hlength : (before ++ content ++ [feedByte]).length =
            before.length + content.length + 1 := by simp; omega
        have hcount : (before ++ content ++ [feedByte]).count feedByte =
            before.count feedByte + 1 := by
          simp [List.count_eq_zero_of_not_mem hwhole]
        have hline := ih (before ++ content ++ [feedByte]) [] (.inr (by simp)) List.not_mem_nil
          (hlength ▸ hnext)
        rw [hlength, hcount, List.length_nil, Nat.add_zero] at hline
        rw [List.takeWhile_cons_of_pos (by simpa using hnext), List.getLastD_cons, hbs,
          List.length_cons]
        obtain ⟨before', content', behind, hline, hrest⟩ := hline
        refine ⟨before', content', behind, ?_, hrest⟩
        convert hline using 1
        omega
      · rw [List.takeWhile_cons_of_neg (by simpa using hnext)]
        exact ⟨before, content, feedByte :: encoded cs,
          ⟨rfl, rfl, hstarts, hwhole, .inr rfl⟩, rfl, hoffset, .inl (by omega)⟩
    · have hlength : (content ++ String.utf8EncodeChar c).length = content.length + c.utf8Size := by
        rw [List.length_append, String.length_utf8EncodeChar]
      have hwhole' : feedByte ∉ content ++ String.utf8EncodeChar c := by
        rw [List.mem_append, not_or]
        exact ⟨hwhole, feedByte_notMem hc⟩
      have hline := ih before _ hstarts hwhole' hoffset
      rw [hlength, ← Nat.add_assoc, List.append_assoc] at hline
      simp only [startsAfter, if_neg hc, encoded_cons]
      exact hline

/-! ## Pieces of a text -/

theorem IsLine.behind_feed (h : IsLine bs line before content behind) :
    IsLine (feedByte :: bs) (line + 1) (feedByte :: before) content behind := by
  refine ⟨congrArg _ h.eq, ?_, .inr ?_, h.whole, h.ends⟩
  · rw [h.number, List.count_cons_self, Nat.add_assoc]
  · rcases h.starts with rfl | hlast
    · rfl
    · rw [List.getLast?_cons, hlast]
      rfl

/-- The first line, with something put in front of it. -/
theorem IsLine.extend_first (h : IsLine bs 1 before content behind) {more : Bytes}
    (hmore : feedByte ∉ more) : IsLine (more ++ bs) 1 [] (more ++ content) behind := by
  have hbefore : before = [] := by
    refine (eq_of_isPrefix List.nil_prefix ?_ h.starts).symm
    have := h.number
    simp only [List.count_nil]
    omega
  refine ⟨?_, rfl, .inl rfl, ?_, h.ends⟩
  · rw [h.eq, hbefore, List.nil_append, List.nil_append, List.append_assoc]
  · rw [List.mem_append, not_or]
    exact ⟨hmore, h.whole⟩

/-- Any further line, with something put in front of the first one. -/
theorem IsLine.extend_before (h : IsLine bs (line + 2) before content behind) {more : Bytes}
    (hmore : feedByte ∉ more) : IsLine (more ++ bs) (line + 2) (more ++ before) content behind := by
  refine ⟨?_, ?_, .inr ?_, h.whole, h.ends⟩
  · rw [h.eq, List.append_assoc]
  · rw [List.count_append, List.count_eq_zero_of_not_mem hmore, Nat.zero_add]
    exact h.number
  · rcases h.starts with rfl | hlast
    · have hnumber : line + 2 = 1 := h.number
      omega
    · rw [List.getLast?_append, hlast]
      rfl

theorem length_splitLines (cs : List Char) :
    (splitLines cs).length = 1 + (encoded cs).count feedByte := by
  induction cs with
  | nil => rfl
  | cons c cs ih =>
    by_cases hc : c = '\n'
    · subst hc
      have hcount : (encoded ('\n' :: cs)).count feedByte = (encoded cs).count feedByte + 1 :=
        List.count_cons_self
      rw [splitLines, if_pos rfl, List.length_cons, ih, hcount]
      rfl
    · have hcount : (encoded (c :: cs)).count feedByte = (encoded cs).count feedByte := by
        rw [encoded_cons, List.count_append, List.count_eq_zero_of_not_mem (feedByte_notMem hc),
          Nat.zero_add]
      rw [splitLines, if_neg hc, hcount]
      cases hlines : splitLines cs with
      | nil =>
        rw [hlines, List.length_nil] at ih
        omega
      | cons l ls => rw [← ih, hlines, List.length_cons, List.length_cons]

/-- The pieces between the line feeds are the lines. -/
theorem isLine_splitLines {cs piece : List Char} {n : Nat} (h : (splitLines cs)[n]? = some piece) :
    ∃ before behind, IsLine (encoded cs) (n + 1) before (encoded piece) behind := by
  induction cs generalizing n piece with
  | nil =>
    obtain ⟨rfl, rfl⟩ : n = 0 ∧ [] = piece := by
      cases n <;> simp_all [splitLines]
    exact ⟨[], [], rfl, rfl, .inl rfl, List.not_mem_nil, .inl rfl⟩
  | cons c cs ih =>
    by_cases hc : c = '\n'
    · subst hc
      rw [splitLines, if_pos rfl] at h
      cases n with
      | zero =>
        obtain rfl : [] = piece := by simpa using h
        exact ⟨[], _, rfl, rfl, .inl rfl, List.not_mem_nil, .inr rfl⟩
      | succ n =>
        obtain ⟨before, behind, hline⟩ := ih (by simpa using h)
        exact ⟨_, _, hline.behind_feed⟩
    · rw [splitLines, if_neg hc] at h
      have hc' := feedByte_notMem hc
      split at h
      · next hnil =>
        have := length_splitLines cs
        simp [hnil] at this
        omega
      · next l ls hlines =>
        cases n with
        | zero =>
          obtain rfl : c :: l = piece := by simpa using h
          have hl : (splitLines cs)[0]? = some l := by rw [hlines, List.getElem?_cons_zero]
          obtain ⟨before, behind, hline⟩ := ih hl
          exact ⟨_, _, hline.extend_first hc'⟩
        | succ n =>
          have hpiece : (splitLines cs)[n + 1]? = some piece := by
            rwa [hlines, List.getElem?_cons_succ]
          obtain ⟨before, behind, hline⟩ := ih hpiece
          exact ⟨_, _, hline.extend_before hc'⟩

end Lines

/-! ## Carriage returns -/

theorem withoutReturns_eq (cs : List Char) : withoutReturns cs = cs.rdropWhile (· == '\r') := rfl

theorem encoded_withoutReturns (cs : List Char) :
    ∃ k, encoded cs = encoded (withoutReturns cs) ++ List.replicate k returnByte := by
  have hreturns : cs.rtakeWhile (· == '\r') =
      List.replicate (cs.rtakeWhile (· == '\r')).length '\r' :=
    List.eq_replicate_iff.2 ⟨rfl, fun c hc => by simpa using List.mem_rtakeWhile_imp hc⟩
  have hencoded (k : Nat) : encoded (List.replicate k '\r') = List.replicate k returnByte := by
    induction k with
    | zero => rfl
    | succ k ih => exact congrArg (returnByte :: ·) ih
  refine ⟨(cs.rtakeWhile (· == '\r')).length, ?_⟩
  rw [← hencoded, ← hreturns, ← encoded_append, withoutReturns_eq,
    List.rdropWhile_append_rtakeWhile]

theorem getLast?_withoutReturns (cs : List Char) :
    (encoded (withoutReturns cs)).getLast? ≠ some returnByte := by
  rcases List.eq_nil_or_concat (withoutReturns cs) with hnil | ⟨init, c, hconcat⟩
  · simp [hnil]
  · have hc : c ≠ '\r' := by
      have hne : cs.rdropWhile (· == '\r') ≠ [] := by
        rw [← withoutReturns_eq, hconcat]
        simp
      have hlast := List.rdropWhile_last_not (· == '\r') cs hne
      simp only [← withoutReturns_eq, hconcat] at hlast
      simpa using hlast
    intro hreturn
    rw [hconcat, List.concat_eq_append, encoded_append, List.getLast?_append] at hreturn
    have hmem : returnByte ∈ String.utf8EncodeChar c := by
      have hne : String.utf8EncodeChar c ≠ [] := by
        rw [← List.length_pos_iff, String.length_utf8EncodeChar]
        exact c.utf8Size_pos
      obtain ⟨b, hb⟩ := List.getLast?_isSome.2 hne |> Option.isSome_iff_exists.1
      have hlast : (encoded [c]).getLast? = some b := by simpa using hb
      rw [hlast, Option.some_or] at hreturn
      exact List.mem_of_getLast? (hb.trans hreturn)
    exact hc (Char.toNat_inj.1 (eq_of_mem_utf8EncodeChar (by decide) hmem))

/-! ## Positions and lines of a source -/

/-- One position stands before another. -/
def Position.Before (p q : Position) : Prop :=
  p.line < q.line ∨ p.line = q.line ∧ p.column < q.column

theorem Position.Before.asymm {p q : Position} (h : p.Before q) : ¬q.Before p := by
  simp only [Position.Before] at h ⊢
  omega

variable (source : String)

theorem isLine_locate (offset : Nat) :
    ∃ before content behind,
      IsLine (textBytes source) (locate source offset).line before content behind ∧
      before.length ≤ offset ∧ (offset ≤ before.length + content.length ∨ behind = []) ∧
      (locate source offset).column = 1 + (offset - before.length) := by
  obtain ⟨before, content, behind, hline, hstart, hle, hstop⟩ :=
    isLine_reached offset source.toList [] [] (.inl rfl) List.not_mem_nil (Nat.zero_le _)
  have hreached : (lineStarts source).takeWhile (· ≤ offset) =
      0 :: (startsAfter 0 source.toList).takeWhile (· ≤ offset) :=
    List.takeWhile_cons_of_pos (by simp)
  refine ⟨before, content, behind, ?_, hle, hstop, ?_⟩
  · rw [textBytes_eq_encoded, locate, hreached, List.length_cons, Nat.add_comm]
    exact hline
  · rw [locate, hreached, List.getLastD_cons, hstart, Nat.add_comm]
    rfl

theorem line_locate (offset : Nat) :
    (locate source offset).line = 1 + ((textBytes source).take offset).count feedByte := by
  obtain ⟨before, content, behind, hline, hle, hstop, -⟩ := isLine_locate source offset
  rw [hline.count_take hle hstop]
  exact hline.number

/-- Positions are ordered as their offsets. -/
theorem before_locate {a b : Nat} (h : a < b) : (locate source a).Before (locate source b) := by
  have hlines : (locate source a).line ≤ (locate source b).line := by
    rw [line_locate, line_locate]
    exact Nat.add_le_add_left ((List.take_prefix_take_left h.le).sublist.count_le _) 1
  rcases hlines.lt_or_eq with hlt | heq
  · exact .inl hlt
  · -- On the same line both columns are counted from the same offset.
    obtain ⟨before, content, behind, hline, hle, -, hcolumn⟩ := isLine_locate source a
    obtain ⟨before', content', behind', hline', hle', -, hcolumn'⟩ := isLine_locate source b
    obtain rfl := hline.before_unique (heq ▸ hline')
    exact .inr ⟨heq, by omega⟩

theorem locate_injective {a b : Nat} (h : locate source a = locate source b) : a = b := by
  rcases Nat.lt_trichotomy a b with hlt | heq | hgt
  · have hbefore := before_locate source hlt
    rw [h] at hbefore
    exact absurd hbefore hbefore.asymm
  · exact heq
  · have hbefore := before_locate source hgt
    rw [h] at hbefore
    exact absurd hbefore hbefore.asymm

theorem lt_of_before {a b : Nat} (h : (locate source a).Before (locate source b)) : a < b := by
  rcases Nat.lt_trichotomy a b with hlt | rfl | hgt
  · exact hlt
  · exact absurd h h.asymm
  · exact absurd h (before_locate source hgt).asymm

theorem isLine_lineText {line : Nat} (hfirst : 1 ≤ line)
    (hlast : line ≤ 1 + (textBytes source).count feedByte) :
    ∃ before content behind k, IsLine (textBytes source) line before content behind ∧
      content = textBytes (lineText source line) ++ List.replicate k returnByte ∧
      (textBytes (lineText source line)).getLast? ≠ some returnByte := by
  obtain ⟨n, rfl⟩ := Nat.exists_eq_add_of_le' hfirst
  rw [textBytes_eq_encoded] at hlast
  have hn : n < (splitLines source.toList).length := by
    rw [length_splitLines]
    omega
  obtain ⟨piece, hpiece⟩ : ∃ piece, (splitLines source.toList)[n]? = some piece :=
    ⟨_, List.getElem?_eq_getElem hn⟩
  obtain ⟨before, behind, hline⟩ := isLine_splitLines hpiece
  obtain ⟨k, hk⟩ := encoded_withoutReturns piece
  have htext : textBytes (lineText source (n + 1)) = encoded (withoutReturns piece) := by
    rw [lineText, hpiece, Option.getD_some, textBytes_ofList]
  refine ⟨before, encoded piece, behind, k, ?_, ?_, ?_⟩
  · rw [textBytes_eq_encoded]
    exact hline
  · rw [htext, hk]
  · rw [htext]
    exact getLast?_withoutReturns piece

theorem lineText_of_lt {line : Nat} (h : 1 + (textBytes source).count feedByte < line) :
    lineText source line = "" := by
  obtain ⟨n, rfl⟩ : ∃ n, line = n + 1 := Nat.exists_eq_add_of_le' (by omega)
  rw [textBytes_eq_encoded, ← length_splitLines] at h
  rw [lineText, List.getElem?_eq_none (by omega)]
  rfl

/-- **Positions are exact.** The line of an offset, also of one past the end, is one more than the
    number of line feeds before it, and its column is one more than its distance from the start of
    that line; so positions are ordered as their offsets, and no two offsets have the same one.
    The text of a line is what stands on it, without the carriage returns at its end; there is
    none for other numbers. -/
theorem positions_exact :
    (∀ offset, (locate source offset).line =
        1 + ((textBytes source).take offset).count feedByte ∧
      ∃ before content behind,
        IsLine (textBytes source) (locate source offset).line before content behind ∧
        before.length ≤ offset ∧
        (locate source offset).column = 1 + (offset - before.length)) ∧
    (∀ a b, locate source a = locate source b → a = b) ∧
    (∀ a b, a < b ↔ (locate source a).Before (locate source b)) ∧
    (∀ line, 1 ≤ line → line ≤ 1 + (textBytes source).count feedByte →
      ∃ before content behind k, IsLine (textBytes source) line before content behind ∧
        content = textBytes (lineText source line) ++ List.replicate k returnByte ∧
        (textBytes (lineText source line)).getLast? ≠ some returnByte) ∧
    ∀ line, line = 0 ∨ 1 + (textBytes source).count feedByte < line →
      lineText source line = "" := by
  refine ⟨fun offset => ⟨line_locate source offset, ?_⟩, fun a b => locate_injective source,
    fun a b => ⟨before_locate source, lt_of_before source⟩, fun line => isLine_lineText source, ?_⟩
  · obtain ⟨before, content, behind, hline, hle, -, hcolumn⟩ := isLine_locate source offset
    exact ⟨before, content, behind, hline, hle, hcolumn⟩
  · rintro line (rfl | hline)
    · rfl
    · exact lineText_of_lt source hline

/-- Two carriage returns behind a character of two bytes, an offset inside of that character, and
    one past the end of the second line. -/
theorem positions_exact_returns :
    (locate "é\r\r\nx" 1).Before (locate "é\r\r\nx" 9) ∧
      (∃ before content behind k, IsLine (textBytes "é\r\r\nx") 1 before content behind ∧
        content = textBytes (lineText "é\r\r\nx" 1) ++ List.replicate k returnByte ∧
        (textBytes (lineText "é\r\r\nx" 1)).getLast? ≠ some returnByte) ∧
      lineText "é\r\r\nx" 3 = "" := by
  obtain ⟨-, -, horder, hlines, hnone⟩ := positions_exact "é\r\r\nx"
  exact ⟨(horder 1 9).1 (by decide), hlines 1 (by decide) (by decide +kernel),
    hnone 3 (.inr (by decide +kernel))⟩

end ScriptMachine.Text
