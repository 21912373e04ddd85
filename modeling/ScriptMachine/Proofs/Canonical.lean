import Mathlib.Data.List.Nodup
import ScriptMachine.Proofs.Stored

/-!
# Programs that were read are written again

A reader that succeeds has taken the bytes that its result is written with, and nothing
else (`ByteCursor.Takes`). This holds for whatever bytes there are, also for such that no
writer has left behind, as every number, text and instruction has one written form only:

* `bigEndian_bigEndianValue`: bytes are those of the number that they write;
* `word_of_ofWord`: a word that stands for an instruction is the word of it;
* `string_eq_ok`, `instruction_eq_ok`, `name_eq_ok`, `entry_eq_ok`: one lemma for each thing
  that is read, from which `readBytes_eq_ok` follows for programs.

The name table is the only part of a stored program that may be written in several ways:
its entries may stand in any order, and a name may be listed more than once, in which case
the program keeps the last number that it was listed with. So it is the name table of the
bytes (`nameTable`) that decides what is written for a program that was read
(`toBytes_of_readBytes`).
-/

namespace ScriptMachine.Program

variable {α β : Type}

/-! ## What a reader has taken -/

/-- Between two cursors, exactly the bytes `bs` were taken. -/
structure ByteCursor.Takes (c : ByteCursor) (bs : Bytes) (c' : ByteCursor) : Prop where
  rest : c.rest = bs ++ c'.rest
  offset : c'.offset = c.offset + bs.length

namespace ByteCursor.Takes

variable {c c' c'' : ByteCursor} {bs bs' : Bytes}

theorem nil (c : ByteCursor) : c.Takes [] c := ⟨rfl, rfl⟩

theorem append (h : c.Takes bs c') (h' : c'.Takes bs' c'') : c.Takes (bs ++ bs') c'' := by
  refine ⟨?_, ?_⟩
  · rw [h.rest, h'.rest, List.append_assoc]
  · rw [h'.offset, h.offset, List.length_append, Nat.add_assoc]

/-- From the start of some bytes, what was taken is their front. -/
theorem eq_take {b : Bytes} (h : Takes ⟨0, b⟩ bs c) : b.take c.offset = bs := by
  have hrest : b = bs ++ c.rest := h.rest
  have hoffset : c.offset = bs.length := h.offset.trans (Nat.zero_add _)
  rw [hrest, hoffset, List.take_left]

end ByteCursor.Takes

namespace ByteReader

variable {c c' : ByteCursor}

/-- Two readers one after the other succeed only if both of them do. -/
theorem bind_eq_ok {r : ByteReader α} {f : α → ByteReader β} {b : β}
    (h : (r >>= f).run c = .ok (b, c')) :
    ∃ a c₁, r.run c = .ok (a, c₁) ∧ (f a).run c₁ = .ok (b, c') := by
  rw [StateT.run_bind] at h
  cases hr : r.run c with
  | error e =>
    rw [hr] at h
    exact nomatch h
  | ok x =>
    rw [hr] at h
    exact ⟨x.1, x.2, rfl, h⟩

theorem bind_of_ok {r : ByteReader α} {f : α → ByteReader β} {a : α} (h : r.run c = .ok (a, c')) :
    (r >>= f).run c = (f a).run c' := by
  rw [StateT.run_bind, h]
  rfl

theorem pure_eq_ok {a b : α} (h : (pure a : ByteReader α).run c = .ok (b, c')) : b = a ∧ c' = c := by
  obtain ⟨rfl, rfl⟩ := Prod.mk.inj (Except.ok.inj h)
  exact ⟨rfl, rfl⟩

theorem bytes_eq_ok {n : Nat} {bs : Bytes} (h : (bytes n).run c = .ok (bs, c')) :
    bs.length = n ∧ c.Takes bs c' := by
  obtain ⟨c₁, c₂, hget, h⟩ := bind_eq_ok h
  obtain ⟨rfl, rfl⟩ := Prod.mk.inj (Except.ok.inj hget)
  by_cases hshort : (c.rest.take n).length < n
  · rw [if_pos hshort] at h
    exact nomatch h
  · rw [if_neg hshort] at h
    obtain ⟨rfl, rfl⟩ := Prod.mk.inj (Except.ok.inj h)
    have hlength : (c.rest.take n).length = n :=
      Nat.le_antisymm (List.length_take_le n c.rest) (Nat.not_lt.1 hshort)
    exact ⟨hlength, (List.take_append_drop n c.rest).symm, by rw [hlength]⟩

theorem offset_eq_ok {n : Nat} (h : offset.run c = .ok (n, c')) : n = c.offset ∧ c' = c := by
  obtain ⟨rfl, rfl⟩ := Prod.mk.inj (Except.ok.inj h)
  exact ⟨rfl, rfl⟩

end ByteReader

/-! ## Numbers, texts and instructions -/

theorem foldl_bytes (bs : Bytes) (m : Nat) :
    bs.foldl (fun n b => 256 * n + b.toNat) m =
      Nat.pow 256 bs.length * m + ByteReader.bigEndianValue bs := by
  induction bs generalizing m with
  | nil => simp [ByteReader.bigEndianValue]
  | cons b bs ih =>
    have hpow : Nat.pow 256 (bs.length + 1) = Nat.pow 256 bs.length * 256 := rfl
    rw [ByteReader.bigEndianValue, List.foldl_cons, List.foldl_cons, ih, ih, List.length_cons, hpow]
    grind

theorem bigEndianValue_cons (b : UInt8) (bs : Bytes) :
    ByteReader.bigEndianValue (b :: bs) =
      Nat.pow 256 bs.length * b.toNat + ByteReader.bigEndianValue bs := by
  rw [ByteReader.bigEndianValue, List.foldl_cons, foldl_bytes, Nat.mul_zero, Nat.zero_add]

theorem bigEndianValue_lt (bs : Bytes) : ByteReader.bigEndianValue bs < Nat.pow 256 bs.length := by
  induction bs with
  | nil => exact Nat.zero_lt_one
  | cons b bs ih =>
    have hb : b.toNat + 1 ≤ 256 := b.toNat_lt
    have hpow : Nat.pow 256 (bs.length + 1) = Nat.pow 256 bs.length * 256 := rfl
    rw [bigEndianValue_cons, List.length_cons, hpow]
    calc Nat.pow 256 bs.length * b.toNat + ByteReader.bigEndianValue bs
        < Nat.pow 256 bs.length * b.toNat + Nat.pow 256 bs.length := Nat.add_lt_add_left ih _
      _ = Nat.pow 256 bs.length * (b.toNat + 1) := rfl
      _ ≤ Nat.pow 256 bs.length * 256 := Nat.mul_le_mul_left _ hb

/-- Bytes of higher places do not matter. -/
theorem bigEndian_mul_add (count k n : Nat) :
    bigEndian count (Nat.pow 256 count * k + n) = bigEndian count n := by
  induction count generalizing k with
  | zero => rfl
  | succ count ih =>
    have hpow : Nat.pow 256 (count + 1) * k = Nat.pow 256 count * (256 * k) := by
      rw [← Nat.mul_assoc]
      rfl
    have hpos : 0 < Nat.pow 256 count := Nat.pow_pos (by decide)
    rw [bigEndian, bigEndian, hpow, ih, Nat.mul_add_div hpos]
    congr 1
    rw [← UInt8.toNat_inj, UInt8.toNat_ofNat', UInt8.toNat_ofNat', Nat.mul_add_mod]

/-- Bytes are those of the number that they write. -/
theorem bigEndian_bigEndianValue (bs : Bytes) :
    bigEndian bs.length (ByteReader.bigEndianValue bs) = bs := by
  induction bs with
  | nil => rfl
  | cons b bs ih =>
    have hpos : 0 < Nat.pow 256 bs.length := Nat.pow_pos (by decide)
    rw [List.length_cons, bigEndian, bigEndianValue_cons, bigEndian_mul_add, ih,
      Nat.mul_add_div hpos, Nat.div_eq_of_lt (bigEndianValue_lt bs), Nat.add_zero, UInt8.ofNat_toNat]

/-- A word that stands for an instruction is the word of that instruction. -/
theorem word_of_ofWord {w : BitVec 64} {i : Instruction} (h : Instruction.ofWord w = .ok i) :
    i.word = w := by
  rw [Instruction.ofWord] at h
  cases hcode : Opcode.ofCode? (w.extractLsb' 56 8) with
  | none =>
    rw [hcode] at h
    cases h
  | some opcode =>
    rw [hcode] at h
    obtain rfl := Except.ok.inj h
    have hfound : opcode.code = w.extractLsb' 56 8 := by
      simpa using List.find?_some hcode
    rw [Instruction.word, hfound]
    ext k hk
    rw [BitVec.getElem_append]
    split
    · rw [BitVec.getElem_setWidth, BitVec.getLsbD_eq_getElem hk]
    · next hhigh =>
      rw [BitVec.getElem_extractLsb', Nat.add_sub_cancel' (Nat.not_lt.1 hhigh),
        BitVec.getLsbD_eq_getElem hk]

namespace ByteReader

variable {c c' : ByteCursor}

/-- A number that is not negative was written as a length. -/
theorem int_eq_ok {n : Int} (h : int.run c = .ok (n, c')) (hn : 0 ≤ n) :
    n.toNat < lengthLimit ∧ c.Takes (lengthBytes n.toNat) c' := by
  obtain ⟨bs, c₁, hbytes, h⟩ := bind_eq_ok h
  obtain ⟨hvalue, rfl⟩ := pure_eq_ok h
  obtain ⟨hlength, htakes⟩ := bytes_eq_ok hbytes
  have hlt : bigEndianValue bs < 4294967296 := by
    have hlt := bigEndianValue_lt bs
    rwa [hlength] at hlt
  -- The sign bit is not set, so the number is the one that the bytes write.
  have hsame : n.toNat = bigEndianValue bs ∧ bigEndianValue bs < lengthLimit := by
    rw [BitVec.toInt_ofNat'] at hvalue
    have hlimit : lengthLimit = 2147483648 := rfl
    have hpow : (2 : Nat) ^ 32 = 4294967296 := rfl
    rw [hpow] at hvalue
    by_cases hsign : bigEndianValue bs < 2147483648
    · rw [Int.bmod_eq_of_le (by omega) (by omega)] at hvalue
      omega
    · have hneg : ((bigEndianValue bs : Nat) : Int).bmod 4294967296 < 0 := by
        rw [Int.bmod_def]
        split <;> omega
      omega
  refine ⟨hsame.1 ▸ hsame.2, ?_⟩
  rwa [hsame.1, lengthBytes, ← hlength, bigEndian_bigEndianValue]

theorem length_eq_ok {kind : LengthKind} {n : Nat} (h : (length kind).run c = .ok (n, c')) :
    n < lengthLimit ∧ c.Takes (lengthBytes n) c' := by
  obtain ⟨start, c₀, hoffset, h⟩ := bind_eq_ok h
  obtain ⟨rfl, rfl⟩ := offset_eq_ok hoffset
  obtain ⟨k, c₁, hint, h⟩ := bind_eq_ok h
  by_cases hk : k < 0
  · rw [if_pos hk] at h
    exact nomatch h
  · rw [if_neg hk] at h
    obtain ⟨rfl, rfl⟩ := pure_eq_ok h
    exact int_eq_ok hint (Int.not_lt.1 hk)

theorem string_eq_ok {s : String} (h : string.run c = .ok (s, c')) :
    (textBytes s).length < lengthLimit ∧ c.Takes (stringBytes s) c' := by
  obtain ⟨n, c₁, hlength, h⟩ := bind_eq_ok h
  obtain ⟨start, c₂, hoffset, h⟩ := bind_eq_ok h
  obtain ⟨rfl, rfl⟩ := offset_eq_ok hoffset
  obtain ⟨raw, c₃, hraw, h⟩ := bind_eq_ok h
  obtain ⟨hlimit, htakes⟩ := length_eq_ok hlength
  obtain ⟨hsize, htakes'⟩ := bytes_eq_ok hraw
  rw [← hsize] at hlimit htakes
  by_cases hvalid : ByteArray.IsValidUTF8 ⟨raw.toArray⟩
  · have hsome : String.fromUTF8? ⟨raw.toArray⟩ = some (String.fromUTF8 _ hvalid) := dif_pos hvalid
    rw [hsome] at h
    obtain ⟨rfl, rfl⟩ := pure_eq_ok h
    -- The text consists of the bytes that were read.
    have htext : textBytes (String.fromUTF8 ⟨raw.toArray⟩ hvalid) = raw := textBytes_eq _
    rw [stringBytes, htext]
    exact ⟨hlimit, htakes.append htakes'⟩
  · have hnone : String.fromUTF8? ⟨raw.toArray⟩ = none := dif_neg hvalid
    rw [hnone] at h
    exact nomatch h

theorem instruction_eq_ok {i : Instruction} (h : instruction.run c = .ok (i, c')) :
    c.Takes (instructionBytes i) c' := by
  obtain ⟨bs, c₁, hbytes, h⟩ := bind_eq_ok h
  obtain ⟨hlength, htakes⟩ := bytes_eq_ok hbytes
  have hlt := bigEndianValue_lt bs
  rw [hlength] at hlt
  cases hword : Instruction.ofWord (BitVec.ofNat 64 (bigEndianValue bs)) with
  | error e =>
    simp only [hword] at h
    exact nomatch h
  | ok i' =>
    simp only [hword] at h
    obtain ⟨rfl, rfl⟩ := pure_eq_ok h
    have hvalue : i.word.toNat = bigEndianValue bs := by
      rw [word_of_ofWord hword, BitVec.toNat_ofNat, Nat.mod_eq_of_lt hlt]
    rwa [instructionBytes, hvalue, ← hlength, bigEndian_bigEndianValue]

/-! ## Tables -/

/-- Things of one kind, each of which was written as `write` does it. -/
theorem times_eq_ok {item : ByteReader α} {write : α → Bytes} {good : α → Prop}
    (hitem : ∀ {c a c'}, item.run c = .ok (a, c') → good a ∧ c.Takes (write a) c') {n : Nat}
    {as : List α} (h : (times item n).run c = .ok (as, c')) :
    as.length = n ∧ (∀ a ∈ as, good a) ∧ c.Takes (as.flatMap write) c' := by
  induction n generalizing c as with
  | zero =>
    obtain ⟨rfl, rfl⟩ := pure_eq_ok h
    exact ⟨rfl, fun a ha => absurd ha List.not_mem_nil, .nil _⟩
  | succ n ih =>
    obtain ⟨a, c₁, hfirst, h⟩ := bind_eq_ok h
    obtain ⟨others, c₂, hothers, h⟩ := bind_eq_ok h
    obtain ⟨rfl, rfl⟩ := pure_eq_ok h
    obtain ⟨ha, htakes⟩ := hitem hfirst
    obtain ⟨hlength, hgood, htakes'⟩ := ih hothers
    exact ⟨congrArg (· + 1) hlength, List.forall_mem_cons.2 ⟨ha, hgood⟩, htakes.append htakes'⟩

theorem name_eq_ok {count : Nat} {n : String × Nat} (h : (name count).run c = .ok (n, c')) :
    (n.2 < count ∧ (textBytes n.1).length < lengthLimit ∧ n.2 < lengthLimit) ∧
      c.Takes (lengthBytes n.2 ++ stringBytes n.1) c' := by
  obtain ⟨id, c₁, hint, h⟩ := bind_eq_ok h
  obtain ⟨text, c₂, hstring, h⟩ := bind_eq_ok h
  obtain ⟨htext, htakes'⟩ := string_eq_ok hstring
  by_cases hid : id < 0 ∨ (count : Int) ≤ id
  · rw [if_pos hid] at h
    exact nomatch h
  · rw [if_neg hid] at h
    obtain ⟨rfl, rfl⟩ := pure_eq_ok h
    obtain ⟨hlimit, htakes⟩ := int_eq_ok hint (by omega)
    exact ⟨⟨by dsimp only; omega, htext, hlimit⟩, htakes.append htakes'⟩

/-- A function that was read can be written and loaded. -/
theorem entry_eq_ok {id : Nat} {e : FunctionEntry} (h : (entry id).run c = .ok (e, c')) :
    (e ≠ .unset ∧ e.Storable ∧ e.slots ≤ maxLocals) ∧ c.Takes (entryBytes e) c' := by
  obtain ⟨start, c₀, hoffset, h⟩ := bind_eq_ok h
  obtain ⟨rfl, rfl⟩ := offset_eq_ok hoffset
  obtain ⟨bs, c₁, hmarker, h⟩ := bind_eq_ok h
  obtain ⟨hlength, htakes⟩ := bytes_eq_ok hmarker
  obtain ⟨marker, rfl⟩ := List.length_eq_one_iff.1 hlength
  simp only [ofNat_bigEndianValue_singleton] at h
  by_cases hcompiled : marker = compiledMarker
  · subst hcompiled
    rw [if_pos rfl] at h
    obtain ⟨count, c₂, hcount, h⟩ := bind_eq_ok h
    obtain ⟨code, c₃, hcode, hend⟩ := bind_eq_ok h
    obtain ⟨hlimit, htakes₂⟩ := length_eq_ok hcount
    obtain ⟨hsize, -, htakes₃⟩ :=
      times_eq_ok (fun h => ⟨True.intro, instruction_eq_ok h⟩) hcode
    by_cases hslots : maxLocals < (Body.ofCode code.toArray).slots
    · rw [if_pos hslots] at hend
      exact nomatch hend
    · rw [if_neg hslots] at hend
      obtain ⟨rfl, rfl⟩ := pure_eq_ok hend
      rw [← hsize] at hlimit htakes₂
      exact ⟨⟨nofun, hlimit, Nat.not_lt.1 hslots⟩, htakes.append (htakes₂.append htakes₃)⟩
  · rw [if_neg hcompiled] at h
    by_cases himported : marker = importedMarker
    · subst himported
      rw [if_pos rfl] at h
      obtain ⟨file, c₂, hfile, h⟩ := bind_eq_ok h
      obtain ⟨name, c₃, hname, h⟩ := bind_eq_ok h
      obtain ⟨rfl, rfl⟩ := pure_eq_ok h
      obtain ⟨hlimit, htakes₂⟩ := string_eq_ok hfile
      obtain ⟨hlimit', htakes₃⟩ := string_eq_ok hname
      exact ⟨⟨nofun, ⟨hlimit, hlimit'⟩, Nat.zero_le _⟩, htakes.append (htakes₂.append htakes₃)⟩
    · rw [if_neg himported] at h
      exact nomatch h

theorem entries_eq_ok {id n : Nat} {es : List FunctionEntry}
    (h : (entries id n).run c = .ok (es, c')) :
    es.length = n ∧ (∀ e ∈ es, e ≠ .unset ∧ e.Storable ∧ e.slots ≤ maxLocals) ∧
      c.Takes (es.flatMap entryBytes) c' := by
  induction n generalizing id c es with
  | zero =>
    obtain ⟨rfl, rfl⟩ := pure_eq_ok h
    exact ⟨rfl, fun e he => absurd he List.not_mem_nil, .nil _⟩
  | succ n ih =>
    obtain ⟨e, c₁, hfirst, h⟩ := bind_eq_ok h
    obtain ⟨others, c₂, hothers, h⟩ := bind_eq_ok h
    obtain ⟨rfl, rfl⟩ := pure_eq_ok h
    obtain ⟨he, htakes⟩ := entry_eq_ok hfirst
    obtain ⟨hlength, hgood, htakes'⟩ := ih hothers
    exact ⟨congrArg (· + 1) hlength, List.forall_mem_cons.2 ⟨he, hgood⟩, htakes.append htakes'⟩

/-- Takes the name table of a stored program: its names as they stand there, one after the
    other. -/
def nameTable : ByteReader (Table String Nat) := do
  let _ ← bytes magic.length
  let stringCount ← length .stringTable
  let _ ← times string stringCount
  let functionCount ← length .functionTable
  times (name functionCount) functionCount

end ByteReader

/-- The name table of a stored program at the front of some bytes. -/
def nameTable (b : Bytes) : Except FormatError (Table String Nat) :=
  (ByteReader.nameTable.run ⟨0, b⟩).map Prod.fst

/-! ## Names -/

/-- The names that a program has after its name table was read: a name that is listed more
    than once stands for the last number that it is listed with. -/
def namesOf (names : Table String Nat) : Table String Nat :=
  names.foldl (fun t (n, id) => t.insert n id) []

/-- Putting names into a table adds at most one entry for each of them, and adds one for
    each of them only if they are different from each other and from those in the table. -/
theorem length_foldl_insert (names t : Table String Nat) (ht : t.keys.Nodup) :
    (names.foldl (fun t (n, id) => t.insert n id) t).length ≤ t.length + names.length ∧
      ((names.foldl (fun t (n, id) => t.insert n id) t).length = t.length + names.length →
        (t ++ names).keys.Nodup) := by
  induction names generalizing t with
  | nil => exact ⟨Nat.le_refl _, fun _ => by rwa [List.append_nil]⟩
  | cons n names ih =>
    obtain ⟨name, id⟩ := n
    change (names.foldl _ (t.insert name id)).length ≤ _ ∧
      ((names.foldl _ (t.insert name id)).length = _ → _)
    rw [List.length_cons]
    by_cases hmem : name ∈ t.keys
    · -- The name takes the place of an old one, so an entry is missing in the end.
      have hkeys := Table.keys_insert_of_mem (a := id) hmem
      have hlength : (t.insert name id).length = t.length := by
        simpa [Table.keys] using congrArg List.length hkeys
      obtain ⟨hle, -⟩ := ih (t.insert name id) (hkeys ▸ ht)
      rw [hlength] at hle
      exact ⟨by omega, fun heq => absurd heq (by omega)⟩
    · have hinsert : t.insert name id = t ++ [(name, id)] := Table.insert_of_notMem hmem
      obtain ⟨hle, hall⟩ := ih (t.insert name id) (Table.nodup_keys_insert ht name id)
      rw [hinsert, List.length_append, List.length_singleton] at hle
      rw [hinsert, List.length_append, List.length_singleton, ← List.append_cons] at hall
      rw [hinsert]
      exact ⟨by omega, fun heq => hall (by omega)⟩

theorem namesOf_of_nodup {names : Table String Nat} (h : names.keys.Nodup) : namesOf names = names :=
  foldl_insert_eq names [] h

/-- As many names are kept as are listed exactly if none is listed twice. -/
theorem length_namesOf_eq_iff (names : Table String Nat) :
    (namesOf names).length = names.length ↔ names.keys.Nodup := by
  constructor
  · intro heq
    exact (length_foldl_insert names [] List.nodup_nil).2 (heq.trans (Nat.zero_add _).symm)
  · intro hnodup
    rw [namesOf_of_nodup hnodup]

/-- Names that are listed by ascending numbers are written in that order, however the
    program keeps them. -/
theorem namesById_of_ascending {p : Program} {names : Table String Nat} (hperm : p.names.Perm names)
    (hids : (names.map Prod.snd).Pairwise (· < ·)) : p.namesById = names := by
  have hlt : names.Pairwise fun a b => a.2 < b.2 := List.pairwise_map.1 hids
  have hsorted : p.namesById.Pairwise fun a b => a.2 ≤ b.2 := by
    have hsort : p.namesById.Pairwise fun a b => decide (a.2 ≤ b.2) = true := by
      refine List.pairwise_mergeSort (fun a b c hab hbc => ?_) (fun a b => ?_) p.names
      · exact decide_eq_true (Nat.le_trans (of_decide_eq_true hab) (of_decide_eq_true hbc))
      · simp only [Bool.or_eq_true, decide_eq_true_eq]
        omega
    exact hsort.imp of_decide_eq_true
  have hperm' := (namesById_perm p).trans hperm
  refine List.Perm.eq_of_pairwise (fun a b ha hb hab hba => ?_) hsorted
    (hlt.imp Nat.le_of_lt) hperm'
  -- Two entries of one number are the same entry, since the numbers ascend.
  have hnodup : (names.map Prod.snd).Nodup := hids.imp Nat.ne_of_lt
  exact List.inj_on_of_nodup_map hnodup (hperm'.mem_iff.1 ha) hb (Nat.le_antisymm hab hba)

/-! ## Programs -/

/-- The stored form of a program, with a name table that lists the given names. -/
def stored (p : Program) (names : Table String Nat) : Bytes :=
  magic ++ (lengthBytes p.strings.size ++ (p.strings.toList.flatMap stringBytes ++
    (lengthBytes names.length ++ (names.flatMap (fun n => lengthBytes n.2 ++ stringBytes n.1) ++
      p.functions.toList.flatMap entryBytes))))

/-- The numbers in the stored form of a program fit into their bytes, its name table has an
    entry for every function, and neither the names nor the functions are such that they
    would be refused. -/
structure Lists (p : Program) (names : Table String Nat) : Prop where
  count : names.length = p.functions.size
  named : ∀ n ∈ names, n.2 < p.functions.size ∧ (textBytes n.1).length < lengthLimit ∧
    n.2 < lengthLimit
  strings : p.strings.size < lengthLimit
  texts : ∀ s ∈ p.strings, (textBytes s).length < lengthLimit
  functions : p.functions.size < lengthLimit
  entries : ∀ e ∈ p.functions, e ≠ .unset ∧ e.Storable ∧ e.slots ≤ maxLocals

/-- The program `p` was read from `b` up to the cursor `c`, and the name table in `b` lists
    `names`. -/
structure ReadFrom (b : Bytes) (p : Program) (c : ByteCursor) (names : Table String Nat) : Prop
    extends p.Lists names where
  table : nameTable b = .ok names
  kept : p.names = namesOf names
  takes : ByteCursor.Takes ⟨0, b⟩ (p.stored names) c

theorem readBytes_eq_ok {b : Bytes} {p : Program} {c : ByteCursor}
    (h : readBytes b = .ok (p, c)) : ∃ names, ReadFrom b p c names := by
  rw [readBytes] at h
  obtain ⟨found, c₁, hmagic, h⟩ := ByteReader.bind_eq_ok h
  by_cases hbad : found ≠ magic
  · rw [if_pos hbad] at h
    cases h
  rw [if_neg hbad] at h
  obtain ⟨stringCount, c₂, hstringCount, h⟩ := ByteReader.bind_eq_ok h
  obtain ⟨strings, c₃, hstrings, h⟩ := ByteReader.bind_eq_ok h
  obtain ⟨functionCount, c₄, hfunctionCount, h⟩ := ByteReader.bind_eq_ok h
  obtain ⟨names, c₅, hnames, h⟩ := ByteReader.bind_eq_ok h
  obtain ⟨functions, c₆, hfunctions, h⟩ := ByteReader.bind_eq_ok h
  obtain ⟨rfl, rfl⟩ := ByteReader.pure_eq_ok h
  have htable : nameTable b = .ok names := by
    rw [nameTable, ByteReader.nameTable, ByteReader.bind_of_ok hmagic,
      ByteReader.bind_of_ok hstringCount, ByteReader.bind_of_ok hstrings,
      ByteReader.bind_of_ok hfunctionCount, hnames]
    rfl
  obtain ⟨-, htakes₁⟩ := ByteReader.bytes_eq_ok hmagic
  obtain ⟨hlimit₂, htakes₂⟩ := ByteReader.length_eq_ok hstringCount
  obtain ⟨hlength₃, hgood₃, htakes₃⟩ := ByteReader.times_eq_ok ByteReader.string_eq_ok hstrings
  obtain ⟨hlimit₄, htakes₄⟩ := ByteReader.length_eq_ok hfunctionCount
  obtain ⟨hlength₅, hgood₅, htakes₅⟩ := ByteReader.times_eq_ok ByteReader.name_eq_ok hnames
  obtain ⟨hlength₆, hgood₆, htakes₆⟩ := ByteReader.entries_eq_ok hfunctions
  rw [Decidable.not_not.1 hbad] at htakes₁
  rw [← hlength₃] at hlimit₂ htakes₂
  rw [← hlength₅] at htakes₄
  rw [← hlength₆] at hlimit₄ hlength₅ hgood₅
  exact ⟨names, {
    table := htable
    kept := rfl
    takes := htakes₁.append (htakes₂.append (htakes₃.append (htakes₄.append
      (htakes₅.append htakes₆))))
    count := hlength₅
    named := hgood₅
    strings := hlimit₂
    texts := fun s hs => hgood₃ s (List.mem_toArray.1 hs)
    functions := hlimit₄
    entries := fun e he => hgood₆ e (List.mem_toArray.1 he) }⟩

section Lists

variable {p : Program} {names : Table String Nat}

theorem Lists.answers_strings (h : p.Lists names) :
    Answers (ByteReader.times ByteReader.string p.strings.size)
      (p.strings.toList.flatMap stringBytes) (.ok p.strings.toList) :=
  Answers.all fun s hs => answers_string (h.texts s (Array.mem_toList_iff.1 hs))

theorem Lists.answers_names (h : p.Lists names) :
    Answers (ByteReader.times (ByteReader.name names.length) names.length)
      (names.flatMap fun n => lengthBytes n.2 ++ stringBytes n.1) (.ok names) := by
  refine Answers.all fun n hn => ?_
  obtain ⟨hid, htext, hlimit⟩ := h.named n hn
  have hname := answers_name names.length htext hlimit
  rwa [checkName, if_neg (Nat.not_le.2 (h.count ▸ hid))] at hname

theorem Lists.nameTable_stored (h : p.Lists names) (rest : Bytes) :
    nameTable (p.stored names ++ rest) = .ok names := by
  have hanswers : Answers ByteReader.nameTable (magic ++ (lengthBytes p.strings.size ++
      (p.strings.toList.flatMap stringBytes ++ (lengthBytes names.length ++
        names.flatMap (fun n => lengthBytes n.2 ++ stringBytes n.1))))) (.ok names) := by
    refine (Answers.bytes magic).bind ((answers_length h.strings .stringTable).bind ?_)
    refine h.answers_strings.bind ?_
    exact (answers_length (h.count ▸ h.functions) .functionTable).bind h.answers_names
  have hrun := hanswers 0 (p.functions.toList.flatMap entryBytes ++ rest)
  simp only [List.append_assoc] at hrun
  simp only [nameTable, stored, List.append_assoc, hrun]
  rfl

/-- Whatever a name table lists, the stored form of a program is read if nothing else is
    wrong with it. -/
theorem Lists.answers_program (h : p.Lists names) :
    Answers ByteReader.program (p.stored names) (.ok { p with names := namesOf names }) := by
  have hentries : Answers (ByteReader.entries 0 p.functions.size)
      (p.functions.toList.flatMap entryBytes) (.ok p.functions.toList) := by
    have hset : ∀ e ∈ p.functions.toList, e ≠ .unset ∧ e.Storable := fun e he =>
      ⟨(h.entries e (Array.mem_toList_iff.1 he)).1, (h.entries e (Array.mem_toList_iff.1 he)).2.1⟩
    have hall := answers_entries 0 hset
    have hchecked : p.functions.toList.zipIdx.mapM checkEntry = .ok p.functions.toList.zipIdx := by
      rcases mapM_check checkEntry (fun e => e.1.slots ≤ maxLocals)
        (fun e => .tooManyLocals e.2 (e.1.slots - 1) maxLocals)
        (fun e he => if_neg (Nat.not_lt.2 he)) (fun e he => if_pos (Nat.not_le.1 he))
        p.functions.toList.zipIdx with ⟨-, hok⟩ | ⟨e, hmem, hbad, -⟩
      · exact hok
      · have hfst : e.1 ∈ p.functions.toList.zipIdx.map Prod.fst := List.mem_map_of_mem hmem
        rw [List.zipIdx_map_fst, Array.mem_toList_iff] at hfst
        exact absurd (h.entries e.1 hfst).2.2 hbad
    rw [hchecked] at hall
    change Answers _ _ (.ok (p.functions.toList.zipIdx.map Prod.fst)) at hall
    rwa [List.zipIdx_map_fst] at hall
  refine (Answers.bytes magic).bind ?_
  simp only [ne_eq, not_true, if_false]
  refine (answers_length h.strings .stringTable).bind (h.answers_strings.bind ?_)
  refine (answers_length (h.count ▸ h.functions) .functionTable).bind (h.answers_names.bind ?_)
  rw [h.count]
  exact hentries.last (.pure _)

theorem Lists.readBytes_stored (h : p.Lists names) (rest : Bytes) :
    readBytes (p.stored names ++ rest) =
      .ok ({ p with names := namesOf names }, ⟨(p.stored names).length, rest⟩) := by
  rw [readBytes, h.answers_program 0 rest, Nat.zero_add]
  rfl

end Lists

namespace ReadFrom

variable {b : Bytes} {p : Program} {c : ByteCursor} {names order : Table String Nat}

/-- If the name table lists no name twice, the program can be written and read back. -/
theorem storable (h : ReadFrom b p c names) (hnodup : names.keys.Nodup)
    (horder : order.Perm p.names) : Storable { p with names := order } := by
  refine ⟨h.strings, h.texts, h.functions, fun n hn => ?_, fun e he => (h.entries e he).2.1⟩
  have hmem := horder.mem_iff.1 hn
  rw [h.kept, namesOf_of_nodup hnodup] at hmem
  exact (h.named n hmem).2

theorem loadable (h : ReadFrom b p c names) (hnodup : names.keys.Nodup)
    (horder : order.Perm p.names) : Loadable { p with names := order } := by
  refine ⟨fun n hn => ?_, fun e he => (h.entries e he).2.2⟩
  have hmem := horder.mem_iff.1 hn
  rw [h.kept, namesOf_of_nodup hnodup] at hmem
  exact (h.named n hmem).1

/-- The number of names decides whether the program is written. -/
theorem exists_toBytes_iff (h : ReadFrom b p c names) (horder : order.Perm p.names) :
    (∃ b', toBytes { p with names := order } = .ok b') ↔ names.keys.Nodup := by
  rw [← length_namesOf_eq_iff, ← h.kept, h.count, ← horder.length_eq]
  constructor
  · rintro ⟨b', hb'⟩
    exact (toBytes_eq_ok hb').1.symm
  · intro hsize
    exact exists_toBytes hsize.symm fun e he => (h.entries e he).1

theorem toBytes_eq_mismatch (h : ReadFrom b p c names) (horder : order.Perm p.names)
    (hnodup : ¬names.keys.Nodup) :
    toBytes { p with names := order } =
      .error (.tableMismatch p.functions.size p.names.length) := by
  rw [← length_namesOf_eq_iff, ← h.kept, h.count, ← horder.length_eq] at hnodup
  rw [← horder.length_eq]
  exact if_pos (Ne.symm hnodup)

/-- What was written for the program is read as the same program. -/
theorem ofBytes_eq (h : ReadFrom b p c names) (hnodup : names.keys.Nodup)
    (horder : order.Perm p.names) {b' : Bytes} (hb' : toBytes { p with names := order } = .ok b') :
    ∃ q, ofBytes b' = .ok q ∧ q.strings = p.strings ∧ q.functions = p.functions ∧
      q.names.Perm p.names := by
  have hkeys : order.keys.Nodup := by
    rw [h.kept, namesOf_of_nodup hnodup] at horder
    exact (horder.map Prod.fst).nodup_iff.2 hnodup
  have hload := h.loadable hnodup horder
  rw [ofBytes_eq_checked (h.storable hnodup horder) hb']
  rcases checked_eq (p := { p with names := order }) hkeys with
    ⟨-, hok⟩ | ⟨n, hn, hid, -⟩ | ⟨id, e, he, hslots, -⟩
  · exact ⟨_, hok, rfl, rfl, (namesById_perm { p with names := order }).trans horder⟩
  · exact absurd (hload.names n hn) (Nat.not_lt.2 hid)
  · exact absurd (hload.slots e (Array.mem_of_getElem? he)) (Nat.not_le.2 hslots)

/-- With ascending numbers, the bytes that were read are written again. -/
theorem toBytes_eq_take (h : ReadFrom b p c names) (hnodup : names.keys.Nodup)
    (hids : (names.map Prod.snd).Pairwise (· < ·)) (horder : order.Perm p.names) :
    toBytes { p with names := order } = .ok (b.take c.offset) := by
  have hperm : order.Perm names := by
    rwa [h.kept, namesOf_of_nodup hnodup] at horder
  obtain ⟨b', hb'⟩ := (h.exists_toBytes_iff horder).2 hnodup
  obtain ⟨-, -, rfl⟩ := toBytes_eq_ok hb'
  rw [hb', h.takes.eq_take, stored, ← hperm.length_eq,
    namesById_of_ascending (p := { p with names := order }) hperm hids]

end ReadFrom

/-- **Programs that were read are written again.** Let `p` be read from the front of `b`,
    and let the program keep its names in any order. It can be written if and only if the
    name table in `b` lists no name twice, and else is refused since it has fewer names than
    functions. What is written is read as the same program. If, besides, the name table
    lists its numbers in ascending order, then the bytes that are written are those that
    were read. -/
theorem toBytes_of_readBytes {b : Bytes} {p : Program} {c : ByteCursor}
    (h : readBytes b = .ok (p, c)) :
    ∃ names, nameTable b = .ok names ∧ b = b.take c.offset ++ c.rest ∧
      ∀ order : Table String Nat, order.Perm p.names →
        ((∃ b', toBytes { p with names := order } = .ok b') ↔ names.keys.Nodup) ∧
        (¬names.keys.Nodup → toBytes { p with names := order } =
          .error (.tableMismatch p.functions.size p.names.length)) ∧
        (∀ b', toBytes { p with names := order } = .ok b' →
          ∃ q, ofBytes b' = .ok q ∧ q.strings = p.strings ∧ q.functions = p.functions ∧
            q.names.Perm p.names) ∧
        (names.keys.Nodup → (names.map Prod.snd).Pairwise (· < ·) →
          toBytes { p with names := order } = .ok (b.take c.offset)) := by
  obtain ⟨names, hread⟩ := readBytes_eq_ok h
  refine ⟨names, hread.table, ?_, fun order horder => ⟨hread.exists_toBytes_iff horder,
    hread.toBytes_eq_mismatch horder, fun b' hb' => ?_, fun hnodup hids =>
    hread.toBytes_eq_take hnodup hids horder⟩⟩
  · rw [hread.takes.eq_take]
    exact hread.takes.rest
  · exact hread.ofBytes_eq ((hread.exists_toBytes_iff horder).1 ⟨b', hb'⟩) horder hb'

/-- A program of two functions, one of which is in another file. -/
def twoFunctions : Program where
  strings := #["é"]
  functions := #[.compiled (.ofCode #[.bare .pushUnit, .bare .ret]), .imported "lib" "far"]
  names := [("f", 0), ("g", 1)]

/-- The program can be stored with names in ascending order, and with one name for both of
    its functions. -/
theorem twoFunctions_lists : twoFunctions.Lists [("f", 0), ("g", 1)] ∧
    twoFunctions.Lists [("f", 1), ("f", 0)] := by
  have hentries : ∀ e ∈ twoFunctions.functions,
      e ≠ .unset ∧ e.Storable ∧ e.slots ≤ maxLocals := by
    intro e he
    simp only [twoFunctions, List.mem_toArray, List.mem_cons, List.not_mem_nil, or_false] at he
    rcases he with rfl | rfl
    · exact ⟨nofun, (by decide : 2 < lengthLimit), by decide⟩
    · exact ⟨nofun, (by decide +kernel : (textBytes "lib").length < lengthLimit ∧
        (textBytes "far").length < lengthLimit), by decide⟩
  exact ⟨⟨rfl, by decide +kernel, by decide, by decide +kernel, by decide, hentries⟩,
    ⟨rfl, by decide +kernel, by decide, by decide +kernel, by decide, hentries⟩⟩

theorem toBytes_of_readBytes_ascending :
    (∃ c, readBytes (twoFunctions.stored [("f", 0), ("g", 1)] ++ [255]) = .ok (twoFunctions, c) ∧
      twoFunctions.toBytes = .ok (twoFunctions.stored [("f", 0), ("g", 1)])) ∧
      ∃ c, readBytes (twoFunctions.stored [("f", 1), ("f", 0)] ++ [255]) =
          .ok ({ twoFunctions with names := [("f", 0)] }, c) ∧
        toBytes { twoFunctions with names := [("f", 0)] } = .error (.tableMismatch 2 1) := by
  have hread := twoFunctions_lists.1.readBytes_stored [255]
  have hread' := twoFunctions_lists.2.readBytes_stored [255]
  obtain ⟨names, hnames, -, hall⟩ := toBytes_of_readBytes hread
  obtain ⟨names', hnames', -, hall'⟩ := toBytes_of_readBytes hread'
  obtain rfl := Except.ok.inj ((twoFunctions_lists.1.nameTable_stored _).symm.trans hnames)
  obtain rfl := Except.ok.inj ((twoFunctions_lists.2.nameTable_stored _).symm.trans hnames')
  have hwritten := (hall _ (.refl _)).2.2.2 (by decide) (by decide)
  rw [List.take_left] at hwritten
  exact ⟨⟨_, hread, hwritten⟩, _, hread', (hall' _ (.refl _)).2.1 (by decide)⟩

end ScriptMachine.Program
