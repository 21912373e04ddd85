import ScriptMachine.Program.Binary

/-!
# What readers make of written bytes

The reader of stored programs takes its input piece by piece, so what it makes of
a written program follows from what it makes of the pieces. A reader *answers* a
piece (`Answers`) if it gives the same result wherever the piece stands and
whatever comes behind it: a value, in which case exactly the piece is taken, or an
error. Answers go together like the readers do (`Answers.bind`, `Answers.fail`,
`Answers.times`).

The pieces of a stored program are numbers, texts and instructions:

* `bigEndianValue_bigEndian`: the bytes of a number that fits read back as it;
* `answers_string`: a text behind its length reads back, whatever its characters;
* `answers_instruction`: so does every instruction, with any payload.
-/

namespace ScriptMachine.Program

variable {α β : Type}

/-- The reader `r` makes `x` of the bytes `bs`: wherever they stand and whatever
    follows them, and if `x` is a value, then nothing but these bytes is taken. -/
def Answers (r : ByteReader α) (bs : Bytes) (x : Except FormatError α) : Prop :=
  ∀ offset rest, r.run ⟨offset, bs ++ rest⟩ = x.map fun a => (a, ⟨offset + bs.length, rest⟩)

namespace Answers

/-- Reading nothing. -/
theorem pure (a : α) : Answers (Pure.pure a) [] (.ok a) := fun _ _ => rfl

/-- One piece behind another. -/
theorem bind {r : ByteReader α} {f : α → ByteReader β} {bs bs' : Bytes} {a : α}
    {x : Except FormatError β} (h : Answers r bs (.ok a)) (h' : Answers (f a) bs' x) :
    Answers (r >>= f) (bs ++ bs') x := by
  intro offset rest
  rw [StateT.run_bind, List.append_assoc, h offset (bs' ++ rest)]
  have hnext := h' (offset + bs.length) rest
  simpa [Except.map, Bind.bind, Except.bind, Nat.add_assoc] using hnext

/-- A piece that is refused. -/
theorem fail {r : ByteReader α} {f : α → ByteReader β} {bs : Bytes} {e : FormatError}
    (h : Answers r bs (.error e)) : Answers (r >>= f) bs (.error e) := by
  intro offset rest
  rw [StateT.run_bind, h offset rest]
  rfl

/-- What is refused is refused with anything behind it. -/
theorem before {r : ByteReader α} {bs : Bytes} {e : FormatError} (h : Answers r bs (.error e))
    (bs' : Bytes) : Answers r (bs ++ bs') (.error e) := by
  intro offset rest
  rw [List.append_assoc]
  exact h offset (bs' ++ rest)

/-- A last piece, after which only the result remains to be settled. -/
theorem last {r : ByteReader α} {f : α → ByteReader β} {bs : Bytes} {a : α}
    {x : Except FormatError β} (h : Answers r bs (.ok a)) (h' : Answers (f a) [] x) :
    Answers (r >>= f) bs x := by
  have hall := h.bind h'
  rwa [List.append_nil] at hall

/-- Looking at the offset takes nothing. -/
theorem offset {f : Nat → ByteReader β} {bs : Bytes} {x : Except FormatError β}
    (h : ∀ n, Answers (f n) bs x) : Answers (ByteReader.offset >>= f) bs x := by
  intro offset rest
  rw [← h offset offset rest]
  rfl

/-- A piece of known length. -/
theorem bytes (bs : Bytes) : Answers (ByteReader.bytes bs.length) bs (.ok bs) := by
  intro offset rest
  have htake : (bs ++ rest).take bs.length = bs := List.take_left
  have hdrop : (bs ++ rest).drop bs.length = rest := List.drop_left
  simp [ByteReader.bytes, htake, hdrop]
  rfl

/-- Things of one kind, each of which is taken as it is or refused: the first that
    is refused decides. -/
theorem times {item : ByteReader α} {write : β → Bytes} {check : β → Except FormatError α}
    {xs : List β} (h : ∀ x ∈ xs, Answers item (write x) (check x)) :
    Answers (ByteReader.times item xs.length) (xs.flatMap write) (xs.mapM check) := by
  induction xs with
  | nil => exact .pure []
  | cons x xs ih =>
    have hx := h x List.mem_cons_self
    have hxs := ih fun y hy => h y (List.mem_cons_of_mem x hy)
    rw [List.length_cons, ByteReader.times, List.flatMap_cons, List.mapM_cons]
    -- After a refusal nothing is read, so what would follow does not matter.
    cases hc : check x with
    | error e =>
      rw [hc] at hx
      exact hx.fail.before _
    | ok a =>
      rw [hc] at hx
      refine hx.bind ?_
      cases hcs : xs.mapM check with
      | error e =>
        rw [hcs] at hxs
        exact hxs.fail
      | ok as =>
        rw [hcs] at hxs
        exact hxs.last (.pure (a :: as))

/-- Things of one kind, all of which are taken as they are. -/
theorem all {item : ByteReader α} {write : α → Bytes} {xs : List α}
    (h : ∀ x ∈ xs, Answers item (write x) (.ok x)) :
    Answers (ByteReader.times item xs.length) (xs.flatMap write) (.ok xs) := by
  have htimes : Answers (ByteReader.times item xs.length) (xs.flatMap write) (xs.mapM Pure.pure) :=
    Answers.times h
  rw [List.mapM_pure, List.map_id'] at htimes
  exact htimes

end Answers

/-! ## Numbers -/

theorem length_bigEndian (count n : Nat) : (bigEndian count n).length = count := by
  induction count with
  | zero => rfl
  | succ count ih => rw [bigEndian, List.length_cons, ih]

/-- Reading on from a number that has been read so far. -/
theorem foldl_bigEndian (count n m : Nat) :
    (bigEndian count n).foldl (fun n b => 256 * n + b.toNat) m =
      Nat.pow 256 count * m + n % Nat.pow 256 count := by
  induction count generalizing m with
  | zero => simp [bigEndian, Nat.mod_one]
  | succ count ih =>
    have hsplit : n % Nat.pow 256 (count + 1) =
        n % Nat.pow 256 count + Nat.pow 256 count * (n / Nat.pow 256 count % 256) := Nat.mod_mul
    have hpow : Nat.pow 256 (count + 1) = Nat.pow 256 count * 256 := rfl
    rw [bigEndian, List.foldl_cons, ih, UInt8.toNat_ofNat', hsplit, hpow]
    grind

/-- The bytes of a number that fits into them read back as the number. -/
theorem bigEndianValue_bigEndian {count n : Nat} (h : n < Nat.pow 256 count) :
    ByteReader.bigEndianValue (bigEndian count n) = n := by
  rw [ByteReader.bigEndianValue, foldl_bigEndian, Nat.mul_zero, Nat.zero_add, Nat.mod_eq_of_lt h]

/-- A length reads back as itself only if it fits into the four bytes as a signed
    number. -/
def lengthLimit : Nat := 2147483648

theorem answers_int {n : Nat} (h : n < lengthLimit) :
    Answers ByteReader.int (lengthBytes n) (.ok (n : Int)) := by
  have hn : n < 2147483648 := h
  have hvalue : ByteReader.bigEndianValue (lengthBytes n) = n :=
    bigEndianValue_bigEndian (Nat.lt_trans hn (by decide))
  -- Below the limit the sign bit is not set.
  have hint : (BitVec.ofNat 32 n).toInt = (n : Int) := by
    rw [BitVec.toInt_ofNat', Int.bmod_eq_of_le] <;> omega
  have hbytes : Answers (ByteReader.bytes 4) (lengthBytes n) (.ok (lengthBytes n)) := by
    have hall := Answers.bytes (lengthBytes n)
    rwa [lengthBytes, length_bigEndian] at hall
  refine hbytes.last ?_
  rw [hvalue, hint]
  exact .pure _

theorem answers_length {n : Nat} (h : n < lengthLimit) (kind : LengthKind) :
    Answers (ByteReader.length kind) (lengthBytes n) (.ok n) := by
  refine Answers.offset fun start => ?_
  refine (answers_int h).last ?_
  rw [if_neg (by omega)]
  exact .pure _

/-! ## Texts -/

theorem toList_loop_eq (bs : ByteArray) (i : Nat) (r : List UInt8) :
    ByteArray.toList.loop bs i r = r.reverse ++ bs.data.toList.drop i := by
  fun_induction ByteArray.toList.loop bs i r with
  | case1 i r hi ih =>
    have hlen : i < bs.data.toList.length := hi
    rw [ih, List.reverse_cons, List.append_assoc, List.drop_eq_getElem_cons hlen,
      ByteArray.get!, Array.getElem_toList, getElem!_pos bs.data i hi]
    rfl
  | case2 i r hi =>
    have hlen : bs.data.toList.length ≤ i := Nat.le_of_not_lt hi
    rw [List.drop_eq_nil_of_le hlen, List.append_nil]

/-- The bytes of a text are those of its representation. -/
theorem textBytes_eq (s : String) : textBytes s = s.toByteArray.data.toList := by
  rw [textBytes, String.toUTF8_eq_toByteArray, ByteArray.toList, toList_loop_eq]
  rfl

theorem fromUTF8?_textBytes (s : String) :
    String.fromUTF8? ⟨(textBytes s).toArray⟩ = some s := by
  have harray : (⟨(textBytes s).toArray⟩ : ByteArray) = s.toByteArray := by
    rw [textBytes_eq]
  rw [harray, String.fromUTF8?, dif_pos s.isValidUTF8]
  rfl

/-- A text behind its length reads back, whatever its characters are. -/
theorem answers_string {s : String} (h : (textBytes s).length < lengthLimit) :
    Answers ByteReader.string (stringBytes s) (.ok s) := by
  refine (answers_length h .string).bind (Answers.offset fun start => ?_)
  refine (Answers.bytes (textBytes s)).last ?_
  rw [fromUTF8?_textBytes]
  exact .pure s

/-! ## Instructions -/

theorem ofCode?_code (op : Opcode) : Opcode.ofCode? op.code = some op := by
  cases op <;> rfl

/-- The stored form of an instruction stands for that instruction only. -/
theorem ofWord_word (i : Instruction) : Instruction.ofWord i.word = .ok i := by
  have hcode : i.word.extractLsb' 56 8 = i.opcode.code := BitVec.extractLsb'_append_eq_left
  have hdata : i.word.setWidth 56 = i.data := BitVec.setWidth_append_eq_right
  rw [Instruction.ofWord, hcode, hdata, ofCode?_code]

theorem answers_instruction (i : Instruction) :
    Answers ByteReader.instruction (instructionBytes i) (.ok i) := by
  have hvalue : ByteReader.bigEndianValue (instructionBytes i) = i.word.toNat :=
    bigEndianValue_bigEndian i.word.isLt
  have hbytes : Answers (ByteReader.bytes 8) (instructionBytes i) (.ok (instructionBytes i)) := by
    have hall := Answers.bytes (instructionBytes i)
    rwa [instructionBytes, length_bigEndian] at hall
  refine hbytes.last ?_
  simp only [hvalue, BitVec.ofNat_toNat, BitVec.setWidth_eq, ofWord_word]
  exact .pure i

end ScriptMachine.Program
