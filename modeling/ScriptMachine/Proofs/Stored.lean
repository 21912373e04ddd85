import ScriptMachine.Proofs.Reader
import ScriptMachine.Proofs.Table

/-!
# Stored programs and what is read from them

Writing asks for less than reading: a program is written if its tables fit
together, but it is read back only if every name stands for a function of the
table and no function has too many local slots. That is all the difference. If the
numbers of a program fit into their bytes (`Storable`), then what was written is
read as the same program exactly if the program is `Loadable`, and otherwise it is
refused for one of these two reasons (`ofBytes_toBytes`).

The names of a program have no order of their own: they are written in the order
of their function numbers, and names of one number in the order in which the table
happens to list them. Reading gives them in that order, whichever it is.
-/

namespace ScriptMachine

/-- The numbers in the stored form of a function fit into their bytes. -/
def FunctionEntry.Storable : FunctionEntry → Prop
  | .unset => True
  | .compiled body => body.code.size < Program.lengthLimit
  | .imported file name =>
    (textBytes file).length < Program.lengthLimit ∧ (textBytes name).length < Program.lengthLimit

/-- The number of local slots that a function addresses. -/
def FunctionEntry.slots : FunctionEntry → Nat
  | .compiled body => body.slots
  | _ => 0

/-- A body is determined by its instructions. -/
theorem Body.ofCode_code (body : Body) : Body.ofCode body.code = body := by
  obtain ⟨code, slots, rfl⟩ := body
  rfl

namespace Program

variable {α : Type}

/-- The numbers in the stored form of a program fit into their bytes. -/
structure Storable (p : Program) : Prop where
  strings : p.strings.size < lengthLimit
  texts : ∀ s ∈ p.strings, (textBytes s).length < lengthLimit
  functions : p.functions.size < lengthLimit
  names : ∀ n ∈ p.names, (textBytes n.1).length < lengthLimit ∧ n.2 < lengthLimit
  entries : ∀ e ∈ p.functions, e.Storable

/-- Every name stands for a function of the table, and no function has too many
    local slots. -/
structure Loadable (p : Program) : Prop where
  names : ∀ n ∈ p.names, n.2 < p.functions.size
  slots : ∀ e ∈ p.functions, e.slots ≤ maxLocals

/-! ## Checks -/

/-- Things that are taken as they are, unless one of them is refused. -/
theorem mapM_check (check : α → Except FormatError α) (good : α → Prop)
    (refusal : α → FormatError) (hgood : ∀ a, good a → check a = .ok a)
    (hbad : ∀ a, ¬good a → check a = .error (refusal a)) (as : List α) :
    ((∀ a ∈ as, good a) ∧ as.mapM check = .ok as) ∨
      ∃ a ∈ as, ¬good a ∧ as.mapM check = .error (refusal a) := by
  induction as with
  | nil => exact .inl ⟨fun _ h => absurd h List.not_mem_nil, rfl⟩
  | cons a as ih =>
    by_cases ha : good a
    · rw [List.mapM_cons, hgood a ha]
      rcases ih with ⟨has, hm⟩ | ⟨b, hb, hbg, hm⟩
      · refine .inl ⟨fun b hb => ?_, by rw [hm]; rfl⟩
        rcases List.mem_cons.1 hb with rfl | hb
        · exact ha
        · exact has b hb
      · exact .inr ⟨b, List.mem_cons_of_mem a hb, hbg, by rw [hm]; rfl⟩
    · refine .inr ⟨a, List.mem_cons_self, ha, ?_⟩
      rw [List.mapM_cons, hbad a ha]
      rfl

/-- A name as it is read: its number must be that of a function. -/
def checkName (count : Nat) (n : String × Nat) : Except FormatError (String × Nat) :=
  if count ≤ n.2 then .error (.functionIdOutOfRange n.2) else .ok n

/-- A function as it is read, given with its number: it must not have too many
    local slots. -/
def checkEntry (e : FunctionEntry × Nat) : Except FormatError (FunctionEntry × Nat) :=
  if maxLocals < e.1.slots then .error (.tooManyLocals e.2 (e.1.slots - 1) maxLocals) else .ok e

theorem answers_name {n : String × Nat} (count : Nat) (htext : (textBytes n.1).length < lengthLimit)
    (hid : n.2 < lengthLimit) :
    Answers (ByteReader.name count) (lengthBytes n.2 ++ stringBytes n.1) (checkName count n) := by
  refine (answers_int hid).bind ((answers_string htext).last ?_)
  -- The number is checked after the text was read, so both are there.
  by_cases hn : count ≤ n.2
  · rw [if_pos (.inr (by omega)), checkName, if_pos hn]
    exact fun _ _ => rfl
  · rw [if_neg (by omega), checkName, if_neg hn]
    exact .pure _

theorem ofNat_bigEndianValue_singleton (b : UInt8) :
    UInt8.ofNat (ByteReader.bigEndianValue [b]) = b := by
  simp [ByteReader.bigEndianValue]

theorem answers_entry {e : FunctionEntry} (id : Nat) (hset : e ≠ .unset) (he : e.Storable) :
    Answers (ByteReader.entry id) (entryBytes e) ((checkEntry (e, id)).map Prod.fst) := by
  refine Answers.offset fun start => ?_
  cases e with
  | unset => exact absurd rfl hset
  | compiled body =>
    have hcode : Answers (ByteReader.times ByteReader.instruction body.code.size)
        (body.code.toList.flatMap instructionBytes) (.ok body.code.toList) :=
      Answers.all fun i _ => answers_instruction i
    refine (Answers.bytes [compiledMarker]).bind ?_
    simp only [ofNat_bigEndianValue_singleton]
    refine (answers_length he .instruction).bind (hcode.last ?_)
    simp only [Array.toArray_toList, Body.ofCode_code]
    by_cases hslots : maxLocals < body.slots
    · rw [if_pos hslots, checkEntry, FunctionEntry.slots, if_pos hslots]
      exact fun _ _ => rfl
    · rw [if_neg hslots, checkEntry, FunctionEntry.slots, if_neg hslots]
      exact .pure _
  | imported file name =>
    refine (Answers.bytes [importedMarker]).bind ?_
    simp only [ofNat_bigEndianValue_singleton]
    exact (answers_string he.1).bind ((answers_string he.2).last (.pure _))

/-- The functions from the number `id` on; the first that is refused decides. -/
theorem answers_entries {es : List FunctionEntry} (id : Nat)
    (h : ∀ e ∈ es, e ≠ .unset ∧ e.Storable) :
    Answers (ByteReader.entries id es.length) (es.flatMap entryBytes)
      (((es.zipIdx id).mapM checkEntry).map (·.map Prod.fst)) := by
  induction es generalizing id with
  | nil => exact .pure []
  | cons e es ih =>
    have he := answers_entry id (h e List.mem_cons_self).1 (h e List.mem_cons_self).2
    have hes := ih (id + 1) fun e' he' => h e' (List.mem_cons_of_mem e he')
    rw [List.length_cons, ByteReader.entries, List.flatMap_cons, List.zipIdx_cons, List.mapM_cons]
    -- Whatever refuses this function hides those behind it.
    cases hc : checkEntry (e, id) with
    | error err =>
      rw [hc] at he
      exact he.fail.before _
    | ok a =>
      rw [hc] at he
      refine he.bind ?_
      cases hcs : (es.zipIdx (id + 1)).mapM checkEntry with
      | error err =>
        rw [hcs] at hes
        exact hes.fail
      | ok as =>
        rw [hcs] at hes
        exact hes.last (.pure _)

/-! ## Names -/

/-- Different names that are put into a table one after the other stand there in
    that order. -/
theorem foldl_insert_eq (ns t : Table String Nat) (h : (t ++ ns).keys.Nodup) :
    ns.foldl (fun t (n, id) => t.insert n id) t = t ++ ns := by
  induction ns generalizing t with
  | nil => rw [List.foldl_nil, List.append_nil]
  | cons n ns ih =>
    obtain ⟨name, id⟩ := n
    -- So the name is put behind the others and not in the place of one of them.
    have hn : name ∉ t.keys := by
      intro hmem
      rw [Table.keys_append, List.nodup_append] at h
      exact h.2.2 name hmem name (List.mem_map_of_mem List.mem_cons_self) rfl
    rw [List.append_cons] at h
    change ns.foldl _ (t.insert name id) = _
    rw [Table.insert_of_notMem hn, ih _ h, ← List.append_cons]

theorem namesById_perm (p : Program) : p.namesById.Perm p.names := List.mergeSort_perm _ _

/-! ## Programs -/

/-- What is made of a written program: its names and its functions are looked at
    one after the other. -/
def checked (p : Program) : Except FormatError Program := do
  let names ← p.namesById.mapM (checkName p.functions.size)
  let functions ← p.functions.toList.zipIdx.mapM checkEntry
  return {
    strings := p.strings
    functions := (functions.map Prod.fst).toArray
    names := names.foldl (fun t (n, id) => t.insert n id) [] }

/-- The conditions under which a program is written, and what is written then. -/
theorem toBytes_eq_ok {p : Program} {b : Bytes} (h : p.toBytes = .ok b) :
    p.functions.size = p.names.length ∧ (∀ e ∈ p.functions, e ≠ .unset) ∧
      b = magic ++ (lengthBytes p.strings.size ++ (p.strings.toList.flatMap stringBytes ++
        (lengthBytes p.names.length ++
        (p.namesById.flatMap (fun n => lengthBytes n.2 ++ stringBytes n.1) ++
        p.functions.toList.flatMap entryBytes)))) := by
  rw [toBytes] at h
  split at h
  · cases h
  · next hsize =>
    split at h
    · cases h
    · next hset =>
      refine ⟨Decidable.not_not.1 hsize, fun e he heq => ?_, ?_⟩
      · have := Array.findIdx?_eq_none_iff.1 hset e he
        simp [heq] at this
      · obtain rfl := Except.ok.inj h
        simp only [List.append_assoc]

/-- A program is written if there are as many names as functions and every place of
    the function table is filled. -/
theorem exists_toBytes {p : Program} (hsize : p.functions.size = p.names.length)
    (hset : ∀ e ∈ p.functions, e ≠ .unset) : ∃ b, p.toBytes = .ok b := by
  have hnone : p.functions.findIdx? (· == .unset) = none :=
    Array.findIdx?_eq_none_iff.2 fun e he => beq_false_of_ne (hset e he)
  rw [toBytes, if_neg (not_not_intro hsize), hnone]
  exact ⟨_, rfl⟩

theorem answers_program {p : Program} {b : Bytes} (hp : p.Storable) (hb : p.toBytes = .ok b) :
    Answers ByteReader.program b p.checked := by
  obtain ⟨hsize, hset, rfl⟩ := toBytes_eq_ok hb
  have hstrings : Answers (ByteReader.times ByteReader.string p.strings.size)
      (p.strings.toList.flatMap stringBytes) (.ok p.strings.toList) :=
    Answers.all fun s hs => answers_string (hp.texts s (Array.mem_toList_iff.1 hs))
  have hnames : Answers (ByteReader.times (ByteReader.name p.functions.size) p.namesById.length)
      (p.namesById.flatMap fun n => lengthBytes n.2 ++ stringBytes n.1)
      (p.namesById.mapM (checkName p.functions.size)) := by
    refine Answers.times fun n hn => ?_
    obtain ⟨htext, hid⟩ := hp.names n ((namesById_perm p).mem_iff.1 hn)
    exact answers_name p.functions.size htext hid
  have hentries : Answers (ByteReader.entries 0 p.functions.size)
      (p.functions.toList.flatMap entryBytes)
      ((p.functions.toList.zipIdx.mapM checkEntry).map (·.map Prod.fst)) :=
    answers_entries 0 fun e he =>
      ⟨hset e (Array.mem_toList_iff.1 he), hp.entries e (Array.mem_toList_iff.1 he)⟩
  refine (Answers.bytes magic).bind ?_
  simp only [ne_eq, not_true, if_false]
  refine (answers_length hp.strings .stringTable).bind (hstrings.bind ?_)
  rw [← hsize]
  refine (answers_length hp.functions .functionTable).bind ?_
  rw [(namesById_perm p).length_eq, ← hsize] at hnames
  rw [checked]
  cases hn : p.namesById.mapM (checkName p.functions.size) with
  | error e =>
    rw [hn] at hnames
    exact hnames.fail.before _
  | ok names =>
    rw [hn] at hnames
    refine hnames.bind ?_
    cases he : p.functions.toList.zipIdx.mapM checkEntry with
    | error e =>
      rw [he] at hentries
      exact hentries.fail
    | ok functions =>
      rw [he] at hentries
      exact hentries.last (.pure _)

/-- What is read from a written program. -/
theorem ofBytes_eq_checked {p : Program} {b : Bytes} (hp : p.Storable) (hb : p.toBytes = .ok b) :
    ofBytes b = p.checked := by
  have hrun := answers_program hp hb 0 []
  rw [List.append_nil] at hrun
  rw [ofBytes, readBytes, hrun]
  cases p.checked <;> rfl

/-- A program passes the checks as it is, with its names in their order, or it is
    refused for one of two reasons. -/
theorem checked_eq {p : Program} (hkeys : p.names.keys.Nodup) :
    (p.Loadable ∧ p.checked = .ok { p with names := p.namesById }) ∨
      (∃ n ∈ p.names, p.functions.size ≤ n.2 ∧ p.checked = .error (.functionIdOutOfRange n.2)) ∨
      ∃ id e, p.functions[id]? = some e ∧ maxLocals < e.slots ∧
        p.checked = .error (.tooManyLocals id (e.slots - 1) maxLocals) := by
  have hperm := namesById_perm p
  have hnames := mapM_check (checkName p.functions.size) (fun n => n.2 < p.functions.size)
    (fun n => .functionIdOutOfRange n.2) (fun n hn => if_neg (Nat.not_le.2 hn))
    (fun n hn => if_pos (Nat.not_lt.1 hn)) p.namesById
  have hentries := mapM_check checkEntry (fun e => e.1.slots ≤ maxLocals)
    (fun e => .tooManyLocals e.2 (e.1.slots - 1) maxLocals)
    (fun e he => if_neg (Nat.not_lt.2 he)) (fun e he => if_pos (Nat.not_le.1 he))
    p.functions.toList.zipIdx
  -- Names come first: a function is refused only if all names are good.
  rcases hnames with ⟨hgood, hn⟩ | ⟨n, hmem, hbad, hn⟩
  · rcases hentries with ⟨hslots, he⟩ | ⟨⟨e, id⟩, hmem, hbad, he⟩
    · refine .inl ⟨⟨fun n hn => hgood n (hperm.mem_iff.2 hn), fun e he => ?_⟩, ?_⟩
      · obtain ⟨id, hid⟩ := List.mem_iff_getElem?.1 (Array.mem_toList_iff.2 he)
        exact hslots (e, id) (List.mk_mem_zipIdx_iff_getElem?.2 hid)
      · have hfold := foldl_insert_eq p.namesById [] ((hperm.map Prod.fst).nodup_iff.2 hkeys)
        have hfst : p.functions.toList.zipIdx.map Prod.fst = p.functions.toList :=
          List.zipIdx_map_fst 0 p.functions.toList
        rw [checked, hn, he]
        change Except.ok (Program.mk _ _ _) = _
        rw [hfst, hfold, Array.toArray_toList, List.nil_append]
    · refine .inr (.inr ⟨id, e, ?_, Nat.not_le.1 hbad, ?_⟩)
      · rw [← Array.getElem?_toList]
        exact List.mk_mem_zipIdx_iff_getElem?.1 hmem
      · rw [checked, hn, he]
        rfl
  · refine .inr (.inl ⟨n, hperm.mem_iff.1 hmem, Nat.not_lt.1 hbad, ?_⟩)
    rw [checked, hn]
    rfl

/-- **Stored programs read back.** What was written for a program, whichever way
    its names are ordered, is read as the same program if and only if the program
    is loadable. Otherwise it is refused for a name without a function or for a
    function with too many local slots. -/
theorem ofBytes_toBytes {p : Program} {order : Table String Nat} {b : Bytes}
    (hkeys : p.names.keys.Nodup) (hp : p.Storable) (horder : order.Perm p.names)
    (hb : toBytes { p with names := order } = .ok b) :
    ((∃ q, ofBytes b = .ok q ∧ q.strings = p.strings ∧ q.functions = p.functions ∧
        q.names.Perm p.names) ↔ p.Loadable) ∧
      (¬p.Loadable →
        (∃ n ∈ p.names, p.functions.size ≤ n.2 ∧
          ofBytes b = .error (.functionIdOutOfRange n.2)) ∨
        ∃ id e, p.functions[id]? = some e ∧ maxLocals < e.slots ∧
          ofBytes b = .error (.tooManyLocals id (e.slots - 1) maxLocals)) := by
  have hkeys' : order.keys.Nodup := (horder.map Prod.fst).nodup_iff.2 hkeys
  have hp' : Storable { p with names := order } :=
    ⟨hp.strings, hp.texts, hp.functions, fun n hn => hp.names n (horder.mem_iff.1 hn), hp.entries⟩
  rw [ofBytes_eq_checked hp' hb]
  rcases checked_eq (p := { p with names := order }) hkeys' with
    ⟨hload, hok⟩ | ⟨n, hn, hid, herr⟩ | ⟨id, e, he, hslots, herr⟩
  · have hload' : p.Loadable := ⟨fun n hn => hload.names n (horder.mem_iff.2 hn), hload.slots⟩
    refine ⟨⟨fun _ => hload', fun _ => ⟨_, hok, rfl, rfl, ?_⟩⟩, fun h => absurd hload' h⟩
    exact (namesById_perm { p with names := order }).trans horder
  · refine ⟨⟨fun ⟨q, hq, _⟩ => ?_, fun h => ?_⟩, fun _ => .inl ⟨n, horder.mem_iff.1 hn, hid, herr⟩⟩
    · rw [herr] at hq
      cases hq
    · exact absurd (h.names n (horder.mem_iff.1 hn)) (Nat.not_lt.2 hid)
  · refine ⟨⟨fun ⟨q, hq, _⟩ => ?_, fun h => ?_⟩, fun _ => .inr ⟨id, e, he, hslots, herr⟩⟩
    · rw [herr] at hq
      cases hq
    · exact absurd (h.slots e (Array.mem_of_getElem? he)) (Nat.not_le.2 hslots)

/-- Two names for one function, listed in either order, beside a function of
    another file that no name stands for. -/
def sharedName : Program where
  strings := #["é"]
  functions := #[.compiled (.ofCode #[.bare .pushUnit, .bare .ret]), .imported "lib" "far"]
  names := [("g", 0), ("f", 0)]

theorem sharedName_storable : sharedName.Storable where
  strings := by decide
  texts := by decide +kernel
  functions := by decide
  names := by decide +kernel
  entries := by
    intro e he
    simp only [sharedName, List.mem_toArray, List.mem_cons, List.not_mem_nil, or_false] at he
    rcases he with rfl | rfl
    · exact (by decide : 2 < lengthLimit)
    · exact (by decide +kernel : (textBytes "lib").length < lengthLimit ∧
        (textBytes "far").length < lengthLimit)

theorem ofBytes_toBytes_sharedName :
    ∃ b, toBytes { sharedName with names := [("f", 0), ("g", 0)] } = .ok b ∧
      ∃ q, ofBytes b = .ok q ∧ q.strings = sharedName.strings ∧
        q.functions = sharedName.functions ∧ q.names.Perm sharedName.names := by
  have horder : List.Perm [("f", 0), ("g", 0)] sharedName.names := .swap _ _ _
  have hload : sharedName.Loadable := ⟨by decide, by decide⟩
  obtain ⟨b, hb⟩ := exists_toBytes (p := { sharedName with names := [("f", 0), ("g", 0)] }) rfl
    (by decide)
  exact ⟨b, hb, (ofBytes_toBytes (by decide) sharedName_storable horder hb).1.2 hload⟩

end Program

end ScriptMachine
