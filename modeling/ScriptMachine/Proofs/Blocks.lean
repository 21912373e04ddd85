import ScriptMachine.Proofs.Deeds
import ScriptMachine.Proofs.Places

/-!
# Code that keeps to itself

What the code of an expression and that of a block leave alone, read off from the code.

The code of an expression never takes more operands than it has pushed, and in the end it has
pushed one (`height`, `ExprCode.height_eq`); all slots that it reads were given out before
(`ExprCode.index_lt`). The code of a block stores only into slots that were given out in the
block, and its jumps lead to places inside of the block or right behind it (`Confined`,
`stmtsCode_confined`). So control can never run off the code of a function
(`Program.Closed`).
-/

namespace ScriptMachine

/-! ## Operands of expressions -/

/-- The number of operands behind some instructions of an expression, if there were `h` before.
    None of them may take more than there are. -/
def height (h : Nat) : List Instruction → Option Nat
  | [] => some h
  | i :: code =>
    match i.takes? with
    | some n => if n ≤ h then height (h - n + 1) code else none
    | none => none

theorem height_append (h : Nat) (code codes : List Instruction) :
    height h (code ++ codes) = (height h code).bind fun h => height h codes := by
  induction code generalizing h with
  | nil => rfl
  | cons i code ih =>
    simp only [List.cons_append, height]
    cases i.takes? with
    | none => rfl
    | some n =>
      dsimp only
      split
      · exact ih _
      · rfl

/-- An instruction that takes some of the operands. -/
theorem height_single {h n : Nat} {i : Instruction} (hi : i.takes? = some n) (hn : n ≤ h) :
    height h [i] = some (h - n + 1) := by
  simp [height, hi, hn]

/-- In code that never takes too much, every instruction finds its operands. -/
theorem exists_takes {h r k j : Nat} {code : List Instruction} {i : Instruction}
    (hcode : height h code = some r) (hi : code[j]? = some i)
    (hj : height h (code.take j) = some k) :
    ∃ n, i.takes? = some n ∧ n ≤ k ∧ height h (code.take (j + 1)) = some (k - n + 1) := by
  obtain ⟨hlt, hget⟩ := List.getElem?_eq_some_iff.1 hi
  have hsplit : code = code.take j ++ i :: code.drop (j + 1) := by
    rw [← hget, ← List.drop_eq_getElem_cons hlt, List.take_append_drop]
  rw [hsplit, height_append, hj, Option.bind_some, height] at hcode
  split at hcode
  · next n hn =>
    split at hcode
    · next hle =>
      refine ⟨n, hn, hle, ?_⟩
      rw [List.take_add_one, hi, height_append, hj, Option.bind_some]
      exact height_single hn hle
    · cases hcode
  · cases hcode

section Height

variable {ids : String → Option Nat} {texts : Array String} {slots : Slots}

theorem LiteralCode.takes?_eq {l : Literal} {i : Instruction} (h : LiteralCode texts l i) :
    i.takes? = some 0 := by
  cases l with
  | int | float | bool =>
    obtain rfl := h
    rfl
  | text =>
    obtain ⟨id, -, rfl⟩ := h
    rfl

theorem BinaryOp.height_code (op : BinaryOp) (h : Nat) :
    height (h + 2) op.code = some (h + 1) := by
  cases op <;> simp [code, height, Instruction.takes?, BinaryOp.opcode, Opcode.operation?]

theorem CalleeCode.height_eq {argCount : Nat} {kind : CallKind} {name : String}
    {code : List Instruction} (hcode : CalleeCode ids texts slots argCount kind name code)
    (hcount : argCount < 4294967296) (h : Nat) : height (h + argCount) code = some (h + 1) := by
  cases hcode <;>
    simp [height, Instruction.takes?, Instruction.index_ofNat _ hcount]

mutual

/-- The code of an expression pushes one operand. -/
theorem ExprCode.height_eq : {e : Expr} → {code : List Instruction} →
    ExprCode ids texts slots e code → code.length < 4294967296 → (h : Nat) →
    height h code = some (h + 1)
  | _, _, .literal hl, _, h => height_single hl.takes?_eq (Nat.zero_le h)
  | _, _, .ident _, _, h | _, _, .functionRef _, _, h => height_single rfl (Nat.zero_le h)
  | _, _, .call hargs htail, hlength, h => by
    rw [List.length_append] at hlength
    have hcount := hargs.length_le
    rw [height_append, hargs.height_eq (by omega) h, Option.bind_some]
    exact htail.height_eq (by omega) h
  | _, _, .binary hleft hright, hlength, h => by
    rw [List.length_append, List.length_append] at hlength
    rw [height_append, hleft.height_eq (by omega) h, Option.bind_some, height_append,
      hright.height_eq (by omega) (h + 1), Option.bind_some]
    exact BinaryOp.height_code _ h
  | _, _, .not he, hlength, h => by
    rw [List.length_append] at hlength
    rw [height_append, he.height_eq (by omega) h, Option.bind_some]
    exact height_single rfl (Nat.le_add_left 1 h)
  | _, _, .negate he, hlength, h => by
    rw [List.length_append] at hlength
    rw [height_append, he.height_eq (by omega) h, Option.bind_some]
    simp [height, Instruction.takes?, Opcode.operation?]

theorem ExprsCode.height_eq : {es : List Expr} → {code : List Instruction} →
    ExprsCode ids texts slots es code → code.length < 4294967296 → (h : Nat) →
    height h code = some (h + es.length)
  | _, _, .nil, _, _ => rfl
  | _, _, .cons he hes, hlength, h => by
    rw [List.length_append] at hlength
    rw [height_append, he.height_eq (by omega) h, Option.bind_some,
      hes.height_eq (by omega) (h + 1), List.length_cons, Nat.add_right_comm, Nat.add_assoc]

end

/-- An expression reads only slots that were given out before. -/
theorem ExprCode.index_lt {names : List String} {e : Expr} {code : List Instruction}
    {i : Instruction} (hcode : ExprCode ids texts slots e code) (hnamed : slots.Named names)
    (hnames : names.length ≤ 4294967296) (hi : i ∈ code) (hop : i.opcode = .getLocal) :
    i.index < slots.next := by
  obtain ⟨x, k, hk, rfl⟩ := (hcode.plain hi).read hop
  obtain ⟨-, hlt, -⟩ := hnamed.resolve hk
  have hle := hnamed.next_le
  rwa [Instruction.index_ofNat _ (by omega)]

end Height

/-! ## Slots of a block -/

/-- The slots of the innermost block are among those that were given out from `bound` on, and so
    are those that are given out next. -/
structure Slots.From (bound : Nat) (slots : Slots) : Prop where
  le_next : bound ≤ slots.next
  innermost : ∃ block outer, slots.blocks = block :: outer ∧
    ∀ x k, (x, k) ∈ block → bound ≤ k ∧ k < slots.next

section From

variable {bound : Nat} {slots slots' : Slots}

/-- A block that is entered gives out its own slots. -/
theorem Slots.From.enterBlock (h : bound ≤ slots.next) : slots.enterBlock.From bound :=
  ⟨h, [], slots.blocks, rfl, fun _ _ hk => nomatch hk⟩

theorem Slots.From.declare {x : String} {k : Nat} (h : slots.From bound)
    (hk : slots.declare x = (k, slots')) : bound ≤ k ∧ k < slots'.next ∧ slots'.From bound := by
  obtain ⟨block, outer, hblocks, hblock⟩ := h.innermost
  unfold Slots.declare at hk
  rw [hblocks] at hk
  dsimp only at hk
  split at hk
  · next slot hslot =>
    obtain ⟨rfl, rfl⟩ := Prod.mk.inj hk
    obtain ⟨hle, hlt⟩ := hblock x slot (Table.mem_of_get? hslot)
    exact ⟨hle, hlt, h⟩
  · obtain ⟨rfl, rfl⟩ := Prod.mk.inj hk
    refine ⟨h.le_next, Nat.lt_succ_self _, Nat.le_succ_of_le h.le_next, _, _, rfl, fun y k hk => ?_⟩
    rcases Table.mem_insert hk with heq | hk
    · obtain ⟨-, rfl⟩ := Prod.mk.inj heq
      exact ⟨h.le_next, Nat.lt_succ_self _⟩
    · obtain ⟨hle, hlt⟩ := hblock y k hk
      exact ⟨hle, Nat.lt_succ_of_lt hlt⟩

/-- The blocks are the same, and further slots were given out. -/
theorem Slots.From.mono (h : slots.From bound) (hblocks : slots'.blocks = slots.blocks)
    (hnext : slots.next ≤ slots'.next) : slots'.From bound := by
  obtain ⟨block, outer, hslots, hblock⟩ := h.innermost
  refine ⟨Nat.le_trans h.le_next hnext, block, outer, hblocks.trans hslots, fun x k hk => ?_⟩
  obtain ⟨hle, hlt⟩ := hblock x k hk
  exact ⟨hle, Nat.lt_of_lt_of_le hlt hnext⟩

variable {ids : String → Option Nat} {texts : Array String} {start : Nat} {stmt : Stmt}
  {stmts : List Stmt} {branches : List Branch} {code : List Instruction}

/-- Behind a block the slots are those from before it, but that some were given out. -/
theorem StmtsCode.leaveBlock_from (h : StmtsCode ids texts slots.enterBlock start stmts code slots')
    (hfrom : slots.From bound) :
    slots.next ≤ slots'.leaveBlock.next ∧ slots'.leaveBlock.From bound := by
  obtain ⟨block, outer, hblocks, -⟩ := hfrom.innermost
  obtain ⟨inner, hinner, hnext⟩ := StmtsCode.slots_eq stmts h (congrArg ([] :: ·) hblocks)
  have hle : slots.next ≤ slots'.leaveBlock.next := by
    rw [next_leaveBlock, hnext]
    exact Nat.le_add_right ..
  refine ⟨hle, hfrom.mono ?_ hle⟩
  rw [Slots.leaveBlock_eq hinner, hblocks]

theorem BranchesCode.next_from (h : BranchesCode ids texts slots start branches code slots')
    (hfrom : slots.From bound) : slots.next ≤ slots'.next ∧ slots'.From bound := by
  obtain ⟨block, outer, hblocks, -⟩ := hfrom.innermost
  obtain ⟨hblocks', hnext⟩ := BranchesCode.slots_eq branches h hblocks
  have hle : slots.next ≤ slots'.next := by
    rw [hnext]
    exact Nat.le_add_right ..
  exact ⟨hle, hfrom.mono (hblocks'.trans hblocks.symm) hle⟩

/-- A statement gives out slots in the innermost block. -/
theorem StmtCode.next_from (h : StmtCode ids texts slots start stmt code slots')
    (hfrom : slots.From bound) : slots.next ≤ slots'.next ∧ slots'.From bound := by
  obtain ⟨block, outer, hblocks, -⟩ := hfrom.innermost
  obtain ⟨-, -, -, hnext⟩ := StmtCode.slots_eq stmt h hblocks
  cases h with
  | assign hslot _ => exact ⟨by rw [hnext]; exact Nat.le_add_right .., (hfrom.declare hslot).2.2⟩
  | loop _ hbody => exact hbody.leaveBlock_from hfrom
  | choose h => exact h.next_from hfrom
  | call | giveUnit | give => exact ⟨Nat.le_refl _, hfrom⟩

theorem StmtsCode.next_from (h : StmtsCode ids texts slots start stmts code slots')
    (hfrom : slots.From bound) : slots.next ≤ slots'.next ∧ slots'.From bound := by
  induction stmts generalizing slots start code with
  | nil =>
    cases h
    exact ⟨Nat.le_refl _, hfrom⟩
  | cons stmt stmts ih =>
    cases h with
    | cons h hs =>
      obtain ⟨hle, hfrom'⟩ := h.next_from hfrom
      obtain ⟨hle', hfrom''⟩ := ih hs hfrom'
      exact ⟨Nat.le_trans hle hle', hfrom''⟩

end From

/-! ## Code that keeps to itself -/

/-- An instruction that stores only into slots from `bound` on and jumps only to places from `lo`
    to `hi`; if the code that it belongs to is free of calls of the host, then it is none. -/
structure Confined (bound lo hi : Nat) (free : Bool) (i : Instruction) : Prop where
  store : i.opcode = .setLocal → bound ≤ i.index
  jump : i.opcode.isJump = true → lo ≤ i.index ∧ i.index ≤ hi
  internal : free = true → i.opcode ≠ .external

section Confined

variable {ids : String → Option Nat} {texts : Array String} {bound lo hi : Nat} {free : Bool}
  {i : Instruction} {slots : Slots}

theorem Confined.mono {lo' hi' : Nat} {free' : Bool} (h : Confined bound lo hi free i)
    (hlo : lo' ≤ lo) (hhi : hi ≤ hi') (hfree : free' = true → free = true) :
    Confined bound lo' hi' free' i := by
  refine ⟨h.store, fun hjump => ?_, fun hfree' => h.internal (hfree hfree')⟩
  obtain ⟨hle, hle'⟩ := h.jump hjump
  exact ⟨Nat.le_trans hlo hle, Nat.le_trans hle' hhi⟩

theorem Plain.confined (h : Plain slots free i) : Confined bound lo hi free i :=
  ⟨fun hop => absurd hop h.opcode_ne, fun hjump => by simp [h.isJump] at hjump, h.internal⟩

theorem confined_bare {opcode : Opcode} (hop : opcode = .pushUnit ∨ opcode = .ret) :
    Confined bound lo hi free (.bare opcode) := by
  rcases hop with rfl | rfl
  all_goals
    refine ⟨fun h => ?_, fun h => ?_, fun _ h => ?_⟩
    all_goals cases h

theorem confined_jump {opcode : Opcode} {target : Nat} (hop : opcode.isJump = true)
    (htarget : target < 4294967296) (hlo : lo ≤ target) (hhi : target ≤ hi) :
    Confined bound lo hi free (.ofNat opcode target) := by
  refine ⟨fun h => ?_, fun _ => ?_, fun _ h => ?_⟩
  · rw [Instruction.opcode_ofNat] at h
    simp [h, Opcode.isJump] at hop
  · rw [Instruction.index_ofNat _ htarget]
    exact ⟨hlo, hhi⟩
  · rw [Instruction.opcode_ofNat] at h
    simp [h, Opcode.isJump] at hop

mutual

/-- A statement stores into slots of the innermost block only, and does not jump elsewhere. -/
theorem stmtCode_confined : {slots slots' : Slots} → {start : Nat} → {stmt : Stmt} →
    {code : List Instruction} → StmtCode ids texts slots start stmt code slots' →
    slots.From bound → start + code.length < 4294967296 → slots'.next ≤ 4294967296 →
    ∀ i ∈ code, Confined bound start (start + code.length) stmt.hostFree i
  | _, _, _, .assign x e, _, .assign hslot he, hfrom, _, hnext, i, hi => by
    rw [Stmt.hostFree]
    rcases List.mem_append.1 hi with hi | hi
    · exact (he.plain hi).confined
    · obtain rfl := List.mem_singleton.1 hi
      obtain ⟨hle, hlt, -⟩ := hfrom.declare hslot
      refine ⟨fun _ => ?_, nofun, nofun⟩
      rwa [Instruction.index_ofNat _ (by omega)]
  | slots, _, start, .loop c body, _, @StmtCode.loop _ _ _ _ _ _ _ test code hc hbody, hfrom, hsize,
      hnext, i, hi => by
    rw [stop_of_guarded] at hsize ⊢
    rw [next_leaveBlock] at hnext
    have hinner := stmtsCode_confined hbody (.enterBlock hfrom.le_next) (by omega) hnext
    have hfree := Bool.and_eq_true c.hostFree (Stmt.allHostFree body)
    rw [Stmt.hostFree]
    simp only [List.mem_append, List.mem_cons, List.not_mem_nil, or_false] at hi
    rcases hi with hi | rfl | hi | rfl
    · exact ((hc.plain hi).mono fun h => (hfree ▸ h).1).confined
    · exact confined_jump rfl (by omega) (by omega) (by simp)
    · exact (hinner i hi).mono (by omega) (by simp) fun h => (hfree ▸ h).2
    · exact confined_jump rfl (by omega) (Nat.le_refl _) (by omega)
  | _, _, _, .choose branches, _, .choose h, hfrom, hsize, hnext, i, hi => by
    rw [Stmt.hostFree]
    exact branchesCode_confined h hfrom hsize hnext i hi
  | _, _, _, .call kind x args, _, .call hargs htail, _, _, _, i, hi => by
    rw [Stmt.hostFree]
    exact ((ExprCode.call hargs htail).plain hi).confined
  | _, _, _, .give none, _, .giveUnit, _, _, _, i, hi => by
    simp only [List.mem_cons, List.not_mem_nil, or_false] at hi
    rcases hi with rfl | rfl
    · exact confined_bare (.inl rfl)
    · exact confined_bare (.inr rfl)
  | _, _, _, .give (some e), _, .give he, _, _, _, i, hi => by
    rw [Stmt.hostFree]
    rcases List.mem_append.1 hi with hi | hi
    · exact (he.plain hi).confined
    · obtain rfl := List.mem_singleton.1 hi
      exact confined_bare (.inr rfl)

theorem stmtsCode_confined : {slots slots' : Slots} → {start : Nat} → {stmts : List Stmt} →
    {code : List Instruction} → StmtsCode ids texts slots start stmts code slots' →
    slots.From bound → start + code.length < 4294967296 → slots'.next ≤ 4294967296 →
    ∀ i ∈ code, Confined bound start (start + code.length) (Stmt.allHostFree stmts) i
  | _, _, _, [], _, .nil, _, _, _, i, hi => absurd hi List.not_mem_nil
  | _, _, _, stmt :: stmts, _, .cons h hs, hfrom, hsize, hnext, i, hi => by
    obtain ⟨-, hfrom'⟩ := h.next_from hfrom
    obtain ⟨hle, -⟩ := hs.next_from hfrom'
    have hfree := Bool.and_eq_true stmt.hostFree (Stmt.allHostFree stmts)
    rw [List.length_append, ← Nat.add_assoc] at hsize ⊢
    rw [Stmt.allHostFree]
    rcases List.mem_append.1 hi with hi | hi
    · have hstmt := stmtCode_confined h hfrom (by omega) (by omega) i hi
      exact hstmt.mono (Nat.le_refl _) (by omega) fun h => (hfree ▸ h).1
    · have hstmts := stmtsCode_confined hs hfrom' hsize hnext i hi
      exact hstmts.mono (by omega) (Nat.le_refl _) fun h => (hfree ▸ h).2

theorem branchesCode_confined : {slots slots' : Slots} → {start : Nat} → {branches : List Branch} →
    {code : List Instruction} → BranchesCode ids texts slots start branches code slots' →
    slots.From bound → start + code.length < 4294967296 → slots'.next ≤ 4294967296 →
    ∀ i ∈ code, Confined bound start (start + code.length) (Stmt.branchesHostFree branches) i
  | _, _, _, [.mk guard body], _, .last h, hfrom, hsize, hnext, i, hi => by
    rw [next_leaveBlock] at hnext
    have hbody := stmtsCode_confined h (.enterBlock hfrom.le_next) hsize hnext i hi
    refine hbody.mono (Nat.le_refl _) (Nat.le_refl _) fun hfree => ?_
    cases guard <;> simp_all [Stmt.branchesHostFree]
  | _, _, start, .mk (.when c) body :: branch :: rest, _,
      @BranchesCode.cons _ _ _ _ _ _ _ _ _ _ test code codes hc hbody hrest, hfrom, hsize, hnext, i,
      hi => by
    obtain ⟨-, hfrom'⟩ := hbody.leaveBlock_from hfrom
    obtain ⟨hle, -⟩ := hrest.next_from hfrom'
    rw [next_leaveBlock] at hle
    rw [stop_of_guarded] at hsize ⊢
    have hbody' := stmtsCode_confined hbody (.enterBlock hfrom.le_next) (by omega) (by omega)
    have hrest' := branchesCode_confined hrest hfrom' (by omega) hnext
    rw [Stmt.branchesHostFree]
    simp only [List.mem_append, List.mem_cons] at hi
    rcases hi with hi | rfl | hi | rfl | hi
    · refine Plain.confined ((hc.plain hi).mono fun hfree => ?_)
      simp_all
    · exact confined_jump rfl (by omega) (by omega) (by omega)
    · refine (hbody' i hi).mono (by omega) (by omega) fun hfree => ?_
      simp_all
    · exact confined_jump rfl (by omega) (by omega) (Nat.le_refl _)
    · refine (hrest' i hi).mono (by omega) (Nat.le_refl _) fun hfree => ?_
      simp_all

end

end Confined

/-! ## Programs that keep to themselves -/

namespace Program

/-- All code has less instructions than jumps can address. -/
def Short (p : Program) : Prop :=
  ∀ (id : Nat) (body : Body), p.functions[id]? = some (.compiled body) → body.code.size < 4294967296

/-- Nothing calls the host, functions have code, and control does not run off it. -/
structure Closed (p : Program) : Prop where
  internal : ∀ {id ip : Nat} {i : Instruction}, p.instruction? id ip = some i →
    i.opcode ≠ .external
  entry : ∀ {id : Nat} {body : Body}, p.function? id = some (.compiled body) →
    (p.instruction? id 0).isSome
  onward : ∀ {id ip ip' : Nat} {i : Instruction}, p.instruction? id ip = some i →
    Reaches i ip ip' → (p.instruction? id ip').isSome

end Program

namespace Draft

variable {code : List Instruction} {i : Instruction}

theorem mem_completed (h : i ∈ completed code) :
    i ∈ code ∨ i = .bare .pushUnit ∨ i = .bare .ret := by
  unfold completed at h
  split at h
  · exact .inl h
  · simpa using h

theorem length_le_completed : code.length ≤ (completed code).length := by
  unfold completed
  split
  · exact Nat.le_refl _
  · exact List.length_append ▸ Nat.le_add_right ..

/-- Code without any instruction does not count as ending with a return. -/
theorem completed_length_pos : 0 < (completed code).length := by
  unfold completed
  split
  · next hends =>
    refine List.length_pos_iff.2 ?_
    rintro rfl
    cases hends
  · simp

end Draft

namespace Script

variable {s : Script} {p : Program} {id : Nat} {f : Function}

/-- Control does not run off the code of a function: it is completed by a return, unless it cannot
    come to an end otherwise. -/
theorem reaches_lt_completed {code : List Instruction} {i : Instruction} {ip ip' : Nat}
    (hcode : ∀ i ∈ code, i.opcode.isJump = true → i.index ≤ code.length)
    (hi : (Draft.completed code)[ip]? = some i) (h : Program.Reaches i ip ip') :
    ip' < (Draft.completed code).length := by
  unfold Draft.completed at hi ⊢
  split
  · next hends =>
    rw [if_pos hends] at hi
    exact reaches_lt_length hends hi h
  · next hends =>
    rw [if_neg hends, List.getElem?_append] at hi
    rw [List.length_append]
    split at hi
    · next hlt =>
      rcases h with ⟨-, -, rfl⟩ | ⟨hjump, rfl⟩
      · exact Nat.lt_of_le_of_lt hlt (by simp)
      · have hle := hcode i (List.mem_of_getElem? hi) hjump
        exact Nat.lt_of_le_of_lt hle (by simp)
    · -- Behind the code there are two instructions, of which the second returns.
      match hip : ip - code.length with
      | 0 =>
        obtain rfl : Instruction.bare .pushUnit = i := by simpa [hip] using hi
        rcases h with ⟨-, -, rfl⟩ | ⟨hjump, -⟩
        · simp only [List.length_cons, List.length_nil]
          omega
        · cases hjump
      | 1 =>
        obtain rfl : Instruction.bare .ret = i := by simpa [hip] using hi
        rcases h with ⟨hret, -⟩ | ⟨hjump, -⟩
        · exact absurd rfl hret
        · cases hjump
      | n + 2 => simp [hip] at hi

/-- The parameters are bound in the outermost block. -/
theorem from_ofParams (params : List String) : (Slots.ofParams params).From 0 := by
  have hfold : ∀ (params : List String) {slots : Slots}, slots.From 0 →
      (params.foldl (fun s x => (s.declare x).2) slots).From 0 := by
    intro params
    induction params with
    | nil => exact id
    | cons x params ih => exact fun h => ih (h.declare rfl).2.2
  exact hfold params ⟨Nat.zero_le _, [], [], rfl, fun _ _ hk => nomatch hk⟩

/-- The code of a function keeps to itself. -/
theorem Compiled.exists_confined (hs : s.Compiled p) (hslots : s.Addressable) (hshort : p.Short)
    (hf : s.functions[id]? = some f) :
    ∃ code, (∀ ip, p.instruction? id ip = (Draft.completed code)[ip]?) ∧
      ∀ i ∈ code, Confined 0 0 code.length (Stmt.allHostFree f.body) i := by
  obtain ⟨code, slots, hcode, hbody, -, hinstruction⟩ := hs.exists_code hf
  obtain ⟨-, rfl⟩ := hcode.size_after
  have hsize : 0 + code.length < 4294967296 := by
    have hlt : (Draft.completed code).length < 4294967296 := hshort id _ hbody
    have hle : code.length ≤ (Draft.completed code).length := Draft.length_le_completed
    omega
  have hconfined := stmtsCode_confined hcode (from_ofParams f.params) hsize
    (hslots f (List.mem_of_getElem? hf))
  rw [Nat.zero_add] at hconfined
  exact ⟨code, hinstruction, hconfined⟩

/-- The program of a script without calls of the host is closed. -/
theorem Compiled.closed (hs : s.Compiled p) (hfree : s.hostFree = true) (hslots : s.Addressable)
    (hshort : p.Short) : p.Closed := by
  have hfunction : ∀ {id : Nat} {body : Body}, p.function? id = some (.compiled body) →
      ∃ code, (∀ ip, p.instruction? id ip = (Draft.completed code)[ip]?) ∧
        ∀ i ∈ code, Confined 0 0 code.length true i := by
    intro id body hbody
    obtain ⟨hlt, -⟩ := Array.getElem?_eq_some_iff.1 hbody
    rw [hs.size] at hlt
    have hf := List.getElem?_eq_getElem hlt
    rw [hostFree, List.all_eq_true] at hfree
    have hfree' := hfree _ (List.getElem_mem hlt)
    obtain ⟨code, hinstruction, hconfined⟩ := hs.exists_confined hslots hshort hf
    rw [hfree'] at hconfined
    exact ⟨code, hinstruction, hconfined⟩
  have hsome : ∀ {id ip : Nat} {i : Instruction}, p.instruction? id ip = some i →
      ∃ body, p.function? id = some (.compiled body) := by
    intro id ip i hi
    unfold Program.instruction? at hi
    split at hi
    · next body hbody => exact ⟨body, hbody⟩
    · cases hi
  refine ⟨fun {id ip i} hi => ?_, fun {id body} hbody => ?_, fun {id ip ip' i} hi hreaches => ?_⟩
  · obtain ⟨body, hbody⟩ := hsome hi
    obtain ⟨code, hinstruction, hconfined⟩ := hfunction hbody
    rw [hinstruction] at hi
    rcases Draft.mem_completed (List.mem_of_getElem? hi) with hmem | rfl | rfl
    · exact (hconfined i hmem).internal rfl
    · nofun
    · nofun
  · obtain ⟨code, hinstruction, hconfined⟩ := hfunction hbody
    rw [hinstruction, List.getElem?_eq_getElem Draft.completed_length_pos]
    rfl
  · obtain ⟨body, hbody⟩ := hsome hi
    obtain ⟨code, hinstruction, hconfined⟩ := hfunction hbody
    rw [hinstruction] at hi ⊢
    have hlt := reaches_lt_completed (fun i hi hjump => ((hconfined i hi).jump hjump).2) hi hreaches
    rw [List.getElem?_eq_getElem hlt]
    rfl

end Script

end ScriptMachine
