import ScriptMachine.Proofs.Canonical

/-!
# Where a stored program ends

The reader of stored programs takes its bytes from the front and asks for no more of them than
it needs. So a reader that succeeds (`Exact`) would also have succeeded with anything else
behind the bytes that it took, and if some of these were missing, then it would have found out
before it looked at anything else: it never judges what it has before all of it is there, and
what it judged before was good.

* `Exact.bind`: readers one after the other are exact if each of them is, so that it remains to
  see how a given number of bytes is taken (`exact_bytes`).
* `readBytes_exact`: the reader of programs is exact, at every byte at which a stored program
  can be cut.
-/

namespace ScriptMachine.Program

variable {α β : Type}

/-- At the offset, the reader makes `a` of the bytes `bs` whatever follows them, and of less
    than these bytes nothing: some are found to be missing, and no later than at the cut. -/
structure Needs (r : ByteReader α) (offset : Nat) (bs : Bytes) (a : α) : Prop where
  whole : ∀ rest, r.run ⟨offset, bs ++ rest⟩ = .ok (a, ⟨offset + bs.length, rest⟩)
  cut : ∀ j < bs.length, ∃ stop ≤ offset + j,
    r.run ⟨offset, bs.take j⟩ = .error (.unexpectedEnd stop)

/-- A reader that succeeds needed the bytes that it has taken. -/
def Exact (r : ByteReader α) : Prop :=
  ∀ c a c', r.run c = .ok (a, c') → ∃ bs, c.Takes bs c' ∧ Needs r c.offset bs a

/-! ## Readers one after the other -/

theorem exact_pure (a : α) : Exact (pure a : ByteReader α) := by
  intro c b c' h
  obtain ⟨rfl, rfl⟩ := ByteReader.pure_eq_ok h
  exact ⟨[], .nil c', fun _ => rfl, nofun⟩

theorem exact_throw (e : FormatError) : Exact (throw e : ByteReader α) := nofun

theorem exact_offset : Exact ByteReader.offset := by
  intro c n c' h
  obtain ⟨rfl, rfl⟩ := ByteReader.offset_eq_ok h
  exact ⟨[], .nil c', fun _ => rfl, nofun⟩

theorem exact_bytes (n : Nat) : Exact (ByteReader.bytes n) := by
  intro c taken c' h
  obtain ⟨rfl, htakes⟩ := ByteReader.bytes_eq_ok h
  refine ⟨taken, htakes, Answers.bytes taken c.offset, fun j hj => ⟨c.offset, by omega, ?_⟩⟩
  -- The bytes that are left are all taken, and are still too few.
  have hshort : ((taken.take j).take taken.length).length < taken.length := by
    simp only [List.length_take]
    omega
  have hget : (get : ByteReader ByteCursor).run ⟨c.offset, taken.take j⟩ = .ok (_, _) := rfl
  rw [ByteReader.bytes, ByteReader.bind_of_ok hget]
  dsimp only
  rw [if_pos hshort]
  rfl

theorem Exact.bind {r : ByteReader α} {f : α → ByteReader β} (hr : Exact r)
    (hf : ∀ a, Exact (f a)) : Exact (r >>= f) := by
  intro c b c' h
  obtain ⟨a, c₁, hfirst, hsecond⟩ := ByteReader.bind_eq_ok h
  obtain ⟨bs, htakes, hneeds⟩ := hr _ _ _ hfirst
  obtain ⟨bs', htakes', hneeds'⟩ := hf a _ _ _ hsecond
  rw [htakes.offset] at hneeds'
  refine ⟨bs ++ bs', htakes.append htakes', fun rest => ?_, fun j hj => ?_⟩
  · rw [List.append_assoc, ByteReader.bind_of_ok (hneeds.whole _), hneeds'.whole,
      List.length_append, Nat.add_assoc]
  · rw [List.take_append]
    rcases Nat.lt_or_ge j bs.length with hlt | hge
    · -- The first reader misses bytes.
      obtain ⟨stop, hstop, hcut⟩ := hneeds.cut j hlt
      refine ⟨stop, hstop, ?_⟩
      rw [Nat.sub_eq_zero_of_le (Nat.le_of_lt hlt), List.take_zero, List.append_nil,
        StateT.run_bind, hcut]
      rfl
    · -- The first reader has all of its bytes, and the second one misses some.
      rw [List.length_append] at hj
      obtain ⟨stop, hstop, hcut⟩ := hneeds'.cut (j - bs.length) (by omega)
      refine ⟨stop, by omega, ?_⟩
      rw [List.take_of_length_le hge, ByteReader.bind_of_ok (hneeds.whole _), hcut]

theorem Exact.ite {p : Prop} [Decidable p] {r r' : ByteReader α} (hr : Exact r)
    (hr' : Exact r') : Exact (if p then r else r') := by
  split
  · exact hr
  · exact hr'

/-- A check that may refuse what was read takes no bytes. -/
theorem Exact.unless {p : Prop} [Decidable p] {r : ByteReader α} (hr : Exact r) (e : FormatError)
    (f : PUnit → ByteReader α) : Exact (if p then throw e >>= f else r) :=
  .ite nofun hr

theorem Exact.times {item : ByteReader α} (h : Exact item) (n : Nat) :
    Exact (ByteReader.times item n) := by
  induction n with
  | zero => exact exact_pure []
  | succ n ih => exact h.bind fun _ => ih.bind fun _ => exact_pure _

/-! ## The parts of a stored program -/

theorem exact_int : Exact ByteReader.int := (exact_bytes 4).bind fun _ => exact_pure _

theorem exact_length (kind : LengthKind) : Exact (ByteReader.length kind) := by
  refine exact_offset.bind fun start => exact_int.bind fun n => ?_
  exact (exact_pure _).unless _ _

theorem exact_string : Exact ByteReader.string := by
  refine (exact_length .string).bind fun n => exact_offset.bind fun start => ?_
  refine (exact_bytes n).bind fun raw => ?_
  split
  · exact exact_pure _
  · exact exact_throw _

theorem exact_instruction : Exact ByteReader.instruction := by
  refine (exact_bytes 8).bind fun raw => ?_
  dsimp only
  split
  · exact exact_pure _
  · exact exact_throw _

theorem exact_name (count : Nat) : Exact (ByteReader.name count) := by
  refine exact_int.bind fun id => exact_string.bind fun name => ?_
  exact (exact_pure _).unless _ _

theorem exact_entry (id : Nat) : Exact (ByteReader.entry id) := by
  refine exact_offset.bind fun start => (exact_bytes 1).bind fun marker => ?_
  refine .ite ?_ (.ite ?_ (exact_throw _))
  · refine (exact_length _).bind fun count => (exact_instruction.times count).bind fun code => ?_
    exact (exact_pure _).unless _ _
  · exact exact_string.bind fun file => exact_string.bind fun name => exact_pure _

theorem exact_entries (id n : Nat) : Exact (ByteReader.entries id n) := by
  induction n generalizing id with
  | zero => exact exact_pure []
  | succ n ih => exact (exact_entry id).bind fun _ => (ih (id + 1)).bind fun _ => exact_pure _

theorem exact_program : Exact ByteReader.program := by
  refine (exact_bytes _).bind fun found => .unless ?_ _ _
  refine (exact_length _).bind fun stringCount => (exact_string.times _).bind fun strings => ?_
  refine (exact_length _).bind fun count => ((exact_name count).times count).bind fun names => ?_
  exact (exact_entries 0 count).bind fun functions => exact_pure _

/-! ## Programs -/

/-- **The reader knows where a program ends.** If a program is read from bytes, then the bytes
    that were taken are read as the same program whatever follows them, and if they are cut
    anywhere before their end, what is left is refused for the bytes that are missing, at an
    offset that is not behind the cut. -/
theorem readBytes_exact {b : Bytes} {p : Program} (h : ofBytes b = .ok p) :
    ∃ c, readBytes b = .ok (p, c) ∧ c.offset ≤ b.length ∧ c.rest = b.drop c.offset ∧
      (∀ s, ofBytes (b.take c.offset ++ s) = .ok p) ∧
      ∀ j < c.offset, ∃ stop ≤ j, ofBytes (b.take j) = .error (.unexpectedEnd stop) := by
  cases hread : readBytes b with
  | error e =>
    rw [ofBytes, hread] at h
    cases h
  | ok pc =>
    obtain ⟨q, c⟩ := pc
    rw [ofBytes, hread] at h
    obtain rfl : q = p := Except.ok.inj h
    obtain ⟨bs, htakes, hneeds⟩ := exact_program _ _ _ hread
    have hrest : b = bs ++ c.rest := htakes.rest
    have hoffset : c.offset = bs.length := htakes.offset.trans (Nat.zero_add _)
    refine ⟨c, rfl, ?_, ?_, fun s => ?_, fun j hj => ?_⟩
    · rw [hrest, List.length_append]
      omega
    · rw [hrest, hoffset, List.drop_left]
    · rw [htakes.eq_take, ofBytes, readBytes, hneeds.whole s]
      rfl
    · obtain ⟨stop, hstop, hcut⟩ := hneeds.cut j (hoffset ▸ hj)
      refine ⟨stop, Nat.zero_add j ▸ hstop, ?_⟩
      have htake : b.take j = bs.take j := by
        rw [hrest, List.take_append_of_le_length (by omega)]
      rw [htake, ofBytes, readBytes, hcut]
      rfl

theorem readBytes_exact_twoFunctions :
    ofBytes (twoFunctions.stored [("f", 0), ("g", 1)] ++ [255]) = .ok twoFunctions ∧
      (∀ s, ofBytes (twoFunctions.stored [("f", 0), ("g", 1)] ++ s) = .ok twoFunctions) ∧
      ∀ j < (twoFunctions.stored [("f", 0), ("g", 1)]).length, ∃ stop ≤ j,
        ofBytes ((twoFunctions.stored [("f", 0), ("g", 1)]).take j) =
          .error (.unexpectedEnd stop) := by
  have hread := twoFunctions_lists.1.readBytes_stored [255]
  have hok : ofBytes (twoFunctions.stored [("f", 0), ("g", 1)] ++ [255]) = .ok twoFunctions := by
    rw [ofBytes, hread]
    rfl
  obtain ⟨c, hc, -, -, hwhole, hcut⟩ := readBytes_exact hok
  obtain ⟨-, rfl⟩ := Prod.mk.inj (Except.ok.inj (hread.symm.trans hc))
  refine ⟨hok, fun s => ?_, fun j hj => ?_⟩
  · have hs := hwhole s
    rwa [List.take_left] at hs
  · obtain ⟨stop, hstop, hj'⟩ := hcut j hj
    rw [List.take_append_of_le_length (Nat.le_of_lt hj)] at hj'
    exact ⟨stop, hstop, hj'⟩

end ScriptMachine.Program
