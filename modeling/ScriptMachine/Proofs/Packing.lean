import ScriptMachine.Proofs.Canonical
import ScriptMachine.Proofs.Run

/-!
# Instructions in words

A word of sixty-four bits has room for the code of an operation, in its highest byte, and for
fifty-six bits of payload below. An integer that an instruction is to carry may have any bits in
that highest byte: a negative one has all of them set. They are cut off, and the code is put in
their place (`Instruction.packed`); whatever is read later is found among the bits that were kept.

* `word_ofInt`: the word of an instruction is its code and the integer packed together.
* `ofWord_eq_error_iff`: the words of no instruction are those with an unknown highest byte.
* `getLsbD_setData_of_lt`, `getLsbD_setData_of_le`: another payload changes its own bits only.
* `words_lossless`: words and instructions determine each other.
-/

namespace ScriptMachine

/-! ## Codes -/

namespace Opcode

theorem mem_all (op : Opcode) : op ∈ all := by
  cases op <;> decide

theorem ofCode?_eq_none_iff {code : BitVec 8} :
    ofCode? code = none ↔ ∀ op : Opcode, op.code ≠ code := by
  rw [ofCode?, List.find?_eq_none]
  constructor
  · intro h op hop
    exact h op op.mem_all (beq_iff_eq.2 hop)
  · intro h op _ hop
    exact h op (beq_iff_eq.1 hop)

end Opcode

namespace Instruction

variable {w : BitVec 64} {k : Nat}

/-! ## The layout of a word -/

/-- The bits of a word that are left for the payload. -/
def payloadMask : BitVec 64 := BitVec.allOnes 64 >>> 8

/-- The word with the given code in its highest byte, and below it what the other word has there. -/
def packed (code : BitVec 8) (payload : BitVec 64) : BitVec 64 :=
  code.setWidth 64 <<< 56 ||| (payload &&& payloadMask)

theorem getLsbD_payloadMask (k : Nat) : payloadMask.getLsbD k = decide (k < 56) := by
  rw [payloadMask, BitVec.getLsbD_ushiftRight, BitVec.getLsbD_allOnes, decide_eq_decide]
  omega

theorem getLsbD_packed (code : BitVec 8) (payload : BitVec 64) (k : Nat) :
    (packed code payload).getLsbD k =
      if k < 56 then payload.getLsbD k else code.getLsbD (k - 56) := by
  rw [packed, BitVec.getLsbD_or, BitVec.getLsbD_and, getLsbD_payloadMask, BitVec.getLsbD_shiftLeft]
  split
  · next hk => simp [hk]
  · next hk =>
    -- The shift leaves the code room in the highest byte, and no bit of a code is beyond that.
    by_cases hhigh : k < 64
    · have hroom : k - 56 < 64 := by omega
      simp [hk, hhigh, hroom]
    · have hbeyond : code.getLsbD (k - 56) = false := BitVec.getLsbD_of_ge code _ (by omega)
      simp [hk, hhigh, hbeyond]

theorem getLsbD_word (i : Instruction) (k : Nat) :
    i.word.getLsbD k = if k < 56 then i.data.getLsbD k else i.opcode.code.getLsbD (k - 56) := by
  rw [word, BitVec.getLsbD_append]

theorem data_ofInt (op : Opcode) (d : Int) : (ofInt op d).data = (BitVec.ofInt 64 d).setWidth 56 :=
  (setWidth_ofInt (by decide) d).symm

/-- The word of an instruction is its code and the integer packed together. -/
theorem word_ofInt (op : Opcode) (d : Int) :
    (ofInt op d).word = packed op.code (BitVec.ofInt 64 d) := by
  apply BitVec.eq_of_getLsbD_eq
  intro k _
  rw [getLsbD_word, getLsbD_packed, data_ofInt, opcode_ofInt, BitVec.getLsbD_setWidth]
  split
  · next hk => simp [hk]
  · rfl

/-! ## Words of no instruction -/

theorem toNat_highByte (w : BitVec 64) : (w.extractLsb' 56 8).toNat = (w >>> 56).toNat := by
  have hlt := w.isLt
  rw [BitVec.extractLsb'_toNat, BitVec.toNat_ushiftRight]
  omega

/-- A word stands for no instruction exactly if its highest byte is the code of no operation. -/
theorem ofWord_eq_error_iff {e : FormatError} :
    ofWord w = .error e ↔
      e = .unknownOpcode (w >>> 56).toNat ∧ ∀ op : Opcode, op.code.toNat ≠ (w >>> 56).toNat := by
  have hcodes : (∀ op : Opcode, op.code.toNat ≠ (w >>> 56).toNat) ↔
      Opcode.ofCode? (w.extractLsb' 56 8) = none := by
    simp only [Opcode.ofCode?_eq_none_iff, ← toNat_highByte, ne_eq, BitVec.toNat_inj]
  rw [hcodes, ofWord]
  cases Opcode.ofCode? (w.extractLsb' 56 8) with
  | none => simp only [toNat_highByte, Except.error.injEq, and_true, eq_comm]
  | some op => simp

/-! ## Another payload -/

/-- The new bits of the payload are those of the integer. -/
theorem getLsbD_setData_of_lt (i : Instruction) (d : Int) (h : k < 56) :
    (i.setData d).word.getLsbD k = (BitVec.ofInt 64 d).getLsbD k := by
  rw [setData, word_ofInt, getLsbD_packed, if_pos h]

/-- The highest byte stays as it is. -/
theorem getLsbD_setData_of_le (i : Instruction) (d : Int) (h : 56 ≤ k) :
    (i.setData d).word.getLsbD k = i.word.getLsbD k := by
  rw [setData, word_ofInt, getLsbD_packed, getLsbD_word, if_neg (by omega), if_neg (by omega)]

/-! ## Indices and numbers as integers -/

/-- An index is carried like any other integer. -/
theorem ofNat_eq_ofInt (op : Opcode) (n : Nat) : ofNat op n = ofInt op n := by
  rw [ofNat, ofInt, BitVec.ofInt_natCast]

/-- The bits of a number are carried like the integer that they write, without a sign. -/
theorem ofFloat_eq_ofInt (op : Opcode) (x : Binary32) : ofFloat op x = ofInt op x.bits.toNat := by
  rw [← ofNat_eq_ofInt, ofFloat, ofNat, BitVec.ofNat_toNat]

/-- **Words lose nothing.** The word of an instruction is its code and the integer that it carries
    packed together, and stands for that instruction again; a word that stands for an instruction
    is the word of it, and the words that stand for none are those whose highest byte is the code
    of no operation. Another payload leaves the operation and the whole highest byte alone. What an
    instruction was given, a signed integer, an index of thirty-two bits or the bits of a number,
    is found in it again. -/
theorem words_lossless :
    (∀ op d, (ofInt op d).word = packed op.code (BitVec.ofInt 64 d) ∧
      ofWord (ofInt op d).word = .ok (ofInt op d)) ∧
    (∀ w i, ofWord w = .ok i → i.word = w) ∧
    (∀ w e, ofWord w = .error e ↔
      e = .unknownOpcode (w >>> 56).toNat ∧ ∀ op : Opcode, op.code.toNat ≠ (w >>> 56).toNat) ∧
    (∀ i d, (setData i d).opcode = i.opcode ∧
      (∀ k, 56 ≤ k → (setData i d).word.getLsbD k = i.word.getLsbD k) ∧
      ∀ k, k < 56 → (setData i d).word.getLsbD k = (BitVec.ofInt 64 d).getLsbD k) ∧
    (∀ op (n : Int32), (ofInt op n.toInt).int = n) ∧
    (∀ op (k : Nat), ofNat op k = ofInt op k ∧ (k < 4294967296 → (ofNat op k).index = k)) ∧
    ∀ op x, ofFloat op x = ofInt op x.bits.toNat ∧ (ofFloat op x).float.bits = x.bits := by
  refine ⟨?_, ?_, ?_, ?_, int_ofInt, ?_, ?_⟩
  · intro op d
    exact ⟨word_ofInt op d, Program.ofWord_word _⟩
  · intro w i h
    exact Program.word_of_ofWord h
  · intro w e
    exact ofWord_eq_error_iff
  · intro i d
    exact ⟨rfl, fun k => getLsbD_setData_of_le i d, fun k => getLsbD_setData_of_lt i d⟩
  · intro op k
    exact ⟨ofNat_eq_ofInt op k, index_ofNat op⟩
  · intro op x
    exact ⟨ofFloat_eq_ofInt op x, by rw [float_ofFloat]⟩

/-- A negative integer, which fills the payload, the largest index, and a payload that is replaced
    by one with all bits set, those beyond it too. -/
theorem words_lossless_negative :
    ofWord 0x01FFFFFFFFFFFF85 = .ok (ofInt .pushInt (-123)) ∧
      (ofInt .pushInt (-123)).word = 0x01FFFFFFFFFFFF85 ∧
      (ofNat .jump 4294967295).index = 4294967295 ∧
      (setData (ofNat .jump 7) (-1)).word.getLsbD 60 = (ofNat .jump 7).word.getLsbD 60 ∧
      (setData (ofNat .jump 7) (-1)).word.getLsbD 55 = true := by
  obtain ⟨-, hword, -, hdata, -, hindex, -⟩ := words_lossless
  have hread : ofWord 0x01FFFFFFFFFFFF85 = .ok (ofInt .pushInt (-123)) := by decide
  obtain ⟨-, hkept, hnew⟩ := hdata (ofNat .jump 7) (-1)
  exact ⟨hread, hword _ _ hread, (hindex .jump 4294967295).2 (by decide), hkept 60 (by decide),
    (hnew 55 (by decide)).trans (by decide)⟩

end Instruction

end ScriptMachine
