import ScriptMachine.Proofs.Operands
import ScriptMachine.Proofs.Scopes

/-!
# Places in the code of a function

Where in the code of a function its parts are to be found: the variables that it reads and
those that it stores into, its loops and its blocks. All this is computed from the tree, with
the slots that are given out up to there (`Stmt.spots`), so that one can speak of a loop or
of a variable of a function while a process executes its code.

* `stmtsCode_stands`: each part stands at its place.
* `stmtsCode_listed`: slots are stored into at places of assignments only.
* `Slots.Named`, `Stmt.allNamed`: slots belong to one name each, and a place sees only slots
  that were given out before.
* `Script.Compiled.placed`: all this together, for the functions of a script that is compiled.
-/

namespace ScriptMachine

/-- A part of a function that has a place in its code. -/
inductive Part where
  /-- A variable is read. -/
  | read (name : String)
  /-- A value is stored into a variable. -/
  | store (name : String)
  | loop (condition : Expr) (body : List Stmt)
  /-- The body of a loop or of a branch. -/
  | block (body : List Stmt)

/-- A part with the index of its first instruction, and the slots that it finds there. -/
structure Spot where
  start : Nat
  slots : Slots
  part : Part

/-! ## Where parts are -/

namespace Expr

mutual

/-- The number of instructions of an expression. -/
def size : Expr → Nat
  | .literal _ | .ident _ | .functionRef _ => 1
  | .call _ _ args => allSize args + 2
  | .binary op left right => left.size + (right.size + op.code.length)
  | .not e => e.size + 1
  | .negate e => e.size + 2
  | .access _ _ => 0

/-- The number of instructions of expressions. -/
def allSize : List Expr → Nat
  | [] => 0
  | e :: es => e.size + allSize es

end

variable (ids : String → Option Nat) (slots : Slots)

mutual

/-- The places at which an expression reads variables; `ids` has the functions, which are no
    variables. -/
def spots (start : Nat) : Expr → List Spot
  | .ident x => [⟨start, slots, .read x⟩]
  | .call .internal x args =>
    allSpots start args ++
      if ids x = none then [⟨start + allSize args, slots, .read x⟩] else []
  | .call .external _ args => allSpots start args
  | .binary _ left right => left.spots start ++ right.spots (start + left.size)
  | .not e | .negate e => e.spots start
  | .literal _ | .functionRef _ | .access _ _ => []

/-- The places at which expressions read variables. -/
def allSpots (start : Nat) : List Expr → List Spot
  | [] => []
  | e :: es => e.spots start ++ allSpots (start + e.size) es

end

end Expr

namespace Stmt

mutual

/-- The number of instructions of a statement. -/
def size : Stmt → Nat
  | .assign _ e => e.size + 1
  | .loop c body => c.size + (allSize body + 1 + 1)
  | .choose branches => branchesSize branches
  | .call _ _ args => Expr.allSize args + 2
  | .give none => 2
  | .give (some e) => e.size + 1

/-- The number of instructions of statements. -/
def allSize : List Stmt → Nat
  | [] => 0
  | s :: ss => s.size + allSize ss

/-- The number of instructions of branches; the last one needs no test. -/
def branchesSize : List Branch → Nat
  | [] => 0
  | [.mk _ body] => allSize body
  | .mk (.when c) body :: rest => c.size + (allSize body + (branchesSize rest + 1) + 1)
  | .mk .otherwise _ :: _ => 0

end

mutual

/-- The slots behind a statement. -/
def after (slots : Slots) : Stmt → Slots
  | .assign x _ => (slots.declare x).2
  | .loop _ body => (allAfter slots.enterBlock body).leaveBlock
  | .choose branches => branchesAfter slots branches
  | .call .. | .give _ => slots

/-- The slots behind statements. -/
def allAfter (slots : Slots) : List Stmt → Slots
  | [] => slots
  | s :: ss => allAfter (s.after slots) ss

/-- The slots behind branches. -/
def branchesAfter (slots : Slots) : List Branch → Slots
  | [] => slots
  | .mk _ body :: rest => branchesAfter (allAfter slots.enterBlock body).leaveBlock rest

end

variable (ids : String → Option Nat)

mutual

/-- The spots of a statement. -/
def spots (slots : Slots) (start : Nat) : Stmt → List Spot
  | .assign x e =>
    e.spots ids (slots.declare x).2 start ++ [⟨start + e.size, (slots.declare x).2, .store x⟩]
  | .loop c body =>
    ⟨start, slots, .loop c body⟩ :: (c.spots ids slots start ++
      ⟨start + c.size + 1, slots, .block body⟩ ::
        allSpots slots.enterBlock (start + c.size + 1) body)
  | .choose branches => branchesSpots slots start branches
  | .call kind x args => (Expr.call kind x args).spots ids slots start
  | .give none => []
  | .give (some e) => e.spots ids slots start

/-- The spots of statements. -/
def allSpots (slots : Slots) (start : Nat) : List Stmt → List Spot
  | [] => []
  | s :: ss => s.spots slots start ++ allSpots (s.after slots) (start + s.size) ss

/-- The spots of branches. -/
def branchesSpots (slots : Slots) (start : Nat) : List Branch → List Spot
  | [] => []
  | [.mk _ body] => ⟨start, slots, .block body⟩ :: allSpots slots.enterBlock start body
  | .mk (.when c) body :: rest =>
    c.spots ids slots start ++ ⟨start + c.size + 1, slots, .block body⟩ ::
      (allSpots slots.enterBlock (start + c.size + 1) body ++
        branchesSpots (allAfter slots.enterBlock body).leaveBlock
          (start + c.size + 1 + allSize body + 1) rest)
  | .mk .otherwise _ :: _ => []

end

end Stmt

/-- The slots behind the part. -/
def Spot.after (l : Spot) : Slots :=
  match l.part with
  | .read _ | .store _ => l.slots
  | .loop c body => (Stmt.loop c body).after l.slots
  | .block body => Stmt.allAfter l.slots.enterBlock body

/-- The spots of a function of a script. -/
def Function.spots (s : Script) (f : Function) : List Spot :=
  Stmt.allSpots s.functionId? (.ofParams f.params) 0 f.body

/-! ## Sizes and slots of code -/

section Code

variable {ids : String → Option Nat} {texts : Array String} {slots slots' : Slots}

theorem CalleeCode.length_eq {argCount : Nat} {kind : CallKind} {name : String}
    {code : List Instruction} (h : CalleeCode ids texts slots argCount kind name code) :
    code.length = 2 := by
  cases h with
  | ofFunction | ofVariable | ofHost => rfl

mutual

theorem ExprCode.length_eq : {e : Expr} → {code : List Instruction} →
    ExprCode ids texts slots e code → code.length = e.size
  | _, _, .literal _ | _, _, .ident _ | _, _, .functionRef _ => by simp [Expr.size]
  | _, _, .call hargs htail => by
    rw [List.length_append, hargs.length_eq, htail.length_eq, Expr.size]
  | _, _, .binary hleft hright => by
    rw [List.length_append, List.length_append, hleft.length_eq, hright.length_eq, Expr.size]
  | _, _, .not h => by rw [List.length_append, h.length_eq, Expr.size]; rfl
  | _, _, .negate h => by rw [List.length_append, h.length_eq, Expr.size]; rfl

theorem ExprsCode.length_eq : {es : List Expr} → {code : List Instruction} →
    ExprsCode ids texts slots es code → code.length = Expr.allSize es
  | _, _, .nil => by simp [Expr.allSize]
  | _, _, .cons h hs => by rw [List.length_append, h.length_eq, hs.length_eq, Expr.allSize]

end

mutual

/-- The code of a statement has its size, and leaves the slots behind it. -/
theorem StmtCode.size_after : {slots slots' : Slots} → {start : Nat} → {stmt : Stmt} →
    {code : List Instruction} → StmtCode ids texts slots start stmt code slots' →
    code.length = stmt.size ∧ slots' = stmt.after slots
  | _, _, _, _, _, .assign hslot he => by
    rw [List.length_append, he.length_eq, Stmt.size, Stmt.after, hslot]
    exact ⟨rfl, rfl⟩
  | _, _, _, _, _, .loop hc hbody => by
    obtain ⟨hlength, rfl⟩ := hbody.size_after
    rw [Stmt.size, Stmt.after]
    refine ⟨?_, rfl⟩
    simp only [List.length_append, List.length_cons, hc.length_eq, hlength]
    rfl
  | _, _, _, _, _, .choose h => by
    rw [Stmt.size, Stmt.after]
    exact h.size_after
  | _, _, _, _, _, .call hargs htail => by
    rw [List.length_append, hargs.length_eq, htail.length_eq, Stmt.size, Stmt.after]
    exact ⟨rfl, rfl⟩
  | _, _, _, _, _, .giveUnit => by
    rw [Stmt.size, Stmt.after]
    exact ⟨rfl, rfl⟩
  | _, _, _, _, _, .give he => by
    rw [List.length_append, he.length_eq, Stmt.size, Stmt.after]
    exact ⟨rfl, rfl⟩

theorem StmtsCode.size_after : {slots slots' : Slots} → {start : Nat} → {stmts : List Stmt} →
    {code : List Instruction} → StmtsCode ids texts slots start stmts code slots' →
    code.length = Stmt.allSize stmts ∧ slots' = Stmt.allAfter slots stmts
  | _, _, _, _, _, .nil => by
    rw [Stmt.allSize, Stmt.allAfter]
    exact ⟨rfl, rfl⟩
  | _, _, _, _, _, .cons h hs => by
    obtain ⟨hlength, rfl⟩ := h.size_after
    obtain ⟨hlength', rfl⟩ := hs.size_after
    rw [List.length_append, hlength, hlength', Stmt.allSize, Stmt.allAfter]
    exact ⟨rfl, rfl⟩

theorem BranchesCode.size_after : {slots slots' : Slots} → {start : Nat} →
    {branches : List Branch} → {code : List Instruction} →
    BranchesCode ids texts slots start branches code slots' →
    code.length = Stmt.branchesSize branches ∧ slots' = Stmt.branchesAfter slots branches
  | _, _, _, _, _, .last h => by
    obtain ⟨hlength, rfl⟩ := h.size_after
    rw [Stmt.branchesSize, Stmt.branchesAfter, Stmt.branchesAfter]
    exact ⟨hlength, rfl⟩
  | _, _, _, _, _, .cons hc hbody hrest => by
    obtain ⟨hlength, rfl⟩ := hbody.size_after
    obtain ⟨hlength', rfl⟩ := hrest.size_after
    rw [Stmt.branchesSize, Stmt.branchesAfter]
    · refine ⟨?_, rfl⟩
      simp only [List.length_append, List.length_cons, hc.length_eq, hlength, hlength']
    · simp

end

end Code

/-! ## Parts stand at their places -/

section Stands

variable {p : Program} {id : Nat} {ids : String → Option Nat} {slots : Slots}

/-- The code of the part is to be found at the place, in a function of the program. -/
def Spot.Stands (p : Program) (id : Nat) (ids : String → Option Nat) (l : Spot) : Prop :=
  match l.part with
  | .read x => ∃ k, l.slots.resolve x = some k ∧
      p.instruction? id l.start = some (.ofNat .getLocal k)
  | .store x => ∃ k, l.slots.resolve x = some k ∧
      p.instruction? id l.start = some (.ofNat .setLocal k)
  | .loop c body => ∃ code slots',
      StmtCode ids p.strings l.slots l.start (.loop c body) code slots' ∧ p.HasCode id l.start code
  | .block body => ∃ code slots',
      StmtsCode ids p.strings l.slots.enterBlock l.start body code slots' ∧
        p.HasCode id l.start code

/-- A name that was declared is found in the slot that it got. -/
theorem Slots.resolve_declare (slots : Slots) (x : String) :
    (slots.declare x).2.resolve x = some (slots.declare x).1 := by
  unfold declare
  split
  · simp [resolve, Table.get?]
  · next block rest hblocks =>
    split
    · next slot hslot => simp [resolve, hblocks, hslot]
    · simp [resolve, Table.get?_insert_self]

/-- A value that is called may be that of a variable. -/
theorem CalleeCode.stands {argCount : Nat} {name : String} {code : List Instruction} {ip : Nat}
    (h : CalleeCode ids p.strings slots argCount .internal name code) (hcode : p.HasCode id ip code)
    (hid : ids name = none) : Spot.Stands p id ids ⟨ip, slots, .read name⟩ := by
  cases h with
  | ofFunction hid' => simp [hid] at hid'
  | @ofVariable _ slot _ hslot => exact ⟨slot, hslot, hcode.head⟩

mutual

theorem exprCode_stands : {e : Expr} → {code : List Instruction} → {start : Nat} →
    ExprCode ids p.strings slots e code → p.HasCode id start code →
    ∀ l ∈ e.spots ids slots start, l.Stands p id ids
  | _, _, _, .literal _, _, l, hl | _, _, _, .functionRef _, _, l, hl => by
    simp [Expr.spots] at hl
  | _, _, _, .ident hslot, hcode, l, hl => by
    rw [Expr.spots, List.mem_singleton] at hl
    exact hl ▸ ⟨_, hslot, hcode.head⟩
  | .call .internal x args, _, _, .call hargs htail, hcode, l, hl => by
    rw [Expr.spots, List.mem_append] at hl
    rcases hl with hl | hl
    · exact exprsCode_stands hargs hcode.left l hl
    · split at hl
      · next hid =>
        rw [List.mem_singleton] at hl
        exact hl ▸ htail.stands (hargs.length_eq ▸ hcode.right) hid
      · cases hl
  | .call .external _ _, _, _, .call hargs _, hcode, l, hl => by
    rw [Expr.spots] at hl
    exact exprsCode_stands hargs hcode.left l hl
  | _, _, _, .binary hleft hright, hcode, l, hl => by
    rw [Expr.spots, List.mem_append] at hl
    rcases hl with hl | hl
    · exact exprCode_stands hleft hcode.left l hl
    · exact exprCode_stands hright (hleft.length_eq ▸ hcode.right.left) l hl
  | _, _, _, .not h, hcode, l, hl | _, _, _, .negate h, hcode, l, hl => by
    rw [Expr.spots] at hl
    exact exprCode_stands h hcode.left l hl

theorem exprsCode_stands : {es : List Expr} → {code : List Instruction} → {start : Nat} →
    ExprsCode ids p.strings slots es code → p.HasCode id start code →
    ∀ l ∈ Expr.allSpots ids slots start es, l.Stands p id ids
  | _, _, _, .nil, _, l, hl => by simp [Expr.allSpots] at hl
  | _, _, _, .cons h hs, hcode, l, hl => by
    rw [Expr.allSpots, List.mem_append] at hl
    rcases hl with hl | hl
    · exact exprCode_stands h hcode.left l hl
    · exact exprsCode_stands hs (h.length_eq ▸ hcode.right) l hl

end

mutual

/-- The parts of a statement stand at their places. -/
theorem stmtCode_stands : {slots slots' : Slots} → {stmt : Stmt} → {code : List Instruction} →
    {start : Nat} → StmtCode ids p.strings slots start stmt code slots' →
    p.HasCode id start code → ∀ l ∈ stmt.spots ids slots start, l.Stands p id ids
  | slots, _, .assign x e, _, start, .assign hslot he, hcode, l, hl => by
    have hdeclare := slots.resolve_declare x
    rw [Stmt.spots, List.mem_append, List.mem_singleton] at hl
    rw [hslot] at hl hdeclare
    rcases hl with hl | hl
    · exact exprCode_stands he hcode.left l hl
    · exact hl ▸ ⟨_, hdeclare, he.length_eq ▸ hcode.right.head⟩
  | _, _, _, _, _, .loop hc hbody, hcode, l, hl => by
    have hbody' := hcode.right.tail.left
    have hloop := StmtCode.loop hc hbody
    rw [hc.length_eq] at hbody hbody'
    simp only [Stmt.spots, List.mem_cons, List.mem_append] at hl
    rcases hl with hl | hl | hl | hl
    · exact hl ▸ ⟨_, _, hloop, hcode⟩
    · exact exprCode_stands hc hcode.left l hl
    · exact hl ▸ ⟨_, _, hbody, hbody'⟩
    · exact stmtsCode_stands hbody hbody' l hl
  | _, _, _, _, _, .choose h, hcode, l, hl => by
    rw [Stmt.spots] at hl
    exact branchesCode_stands h hcode l hl
  | _, _, _, _, _, .call hargs htail, hcode, l, hl => by
    rw [Stmt.spots] at hl
    exact exprCode_stands (.call hargs htail) hcode l hl
  | _, _, _, _, _, .giveUnit, _, l, hl => by simp [Stmt.spots] at hl
  | _, _, _, _, _, .give he, hcode, l, hl => by
    rw [Stmt.spots] at hl
    exact exprCode_stands he hcode.left l hl

theorem stmtsCode_stands : {slots slots' : Slots} → {stmts : List Stmt} →
    {code : List Instruction} → {start : Nat} →
    StmtsCode ids p.strings slots start stmts code slots' → p.HasCode id start code →
    ∀ l ∈ Stmt.allSpots ids slots start stmts, l.Stands p id ids
  | _, _, _, _, _, .nil, _, l, hl => by simp [Stmt.allSpots] at hl
  | _, _, _, _, _, .cons h hs, hcode, l, hl => by
    have hcode' := hcode.right
    obtain ⟨hlength, rfl⟩ := h.size_after
    rw [hlength] at hs hcode'
    rw [Stmt.allSpots, List.mem_append] at hl
    rcases hl with hl | hl
    · exact stmtCode_stands h hcode.left l hl
    · exact stmtsCode_stands hs hcode' l hl

theorem branchesCode_stands : {slots slots' : Slots} → {branches : List Branch} →
    {code : List Instruction} → {start : Nat} →
    BranchesCode ids p.strings slots start branches code slots' → p.HasCode id start code →
    ∀ l ∈ Stmt.branchesSpots ids slots start branches, l.Stands p id ids
  | _, _, _, _, _, .last h, hcode, l, hl => by
    rw [Stmt.branchesSpots, List.mem_cons] at hl
    rcases hl with hl | hl
    · exact hl ▸ ⟨_, _, h, hcode⟩
    · exact stmtsCode_stands h hcode l hl
  | _, _, _, _, _, .cons hc hbody hrest, hcode, l, hl => by
    have hbody' := hcode.right.tail.left
    have hrest' := hcode.right.tail.right.tail
    obtain ⟨hlength, rfl⟩ := hbody.size_after
    rw [hc.length_eq] at hbody hbody' hrest hrest'
    rw [hlength] at hrest hrest'
    rw [Stmt.branchesSpots] at hl
    · simp only [List.mem_append, List.mem_cons] at hl
      rcases hl with hl | hl | hl | hl
      · exact exprCode_stands hc hcode.left l hl
      · exact hl ▸ ⟨_, _, hbody, hbody'⟩
      · exact stmtsCode_stands hbody hbody' l hl
      · exact branchesCode_stands hrest hrest' l hl
    · simp

end

/-! ## Instructions of expressions -/

/-- An instruction of an expression stores nothing and does not move control, it reads slots of
    variables only, and if the expression is free of calls of the host then it is none. -/
structure Plain (slots : Slots) (free : Bool) (i : Instruction) : Prop where
  opcode_ne : i.opcode ≠ .setLocal
  isJump : i.opcode.isJump = false
  read : i.opcode = .getLocal → ∃ x k, slots.resolve x = some k ∧ i = .ofNat .getLocal k
  internal : free = true → i.opcode ≠ .external

theorem Plain.mono {free free' : Bool} {i : Instruction} (h : Plain slots free i)
    (hfree : free' = true → free = true) : Plain slots free' i :=
  { h with internal := fun hfree' => h.internal (hfree hfree') }

/-- Most instructions of expressions neither read slots nor call the host. -/
theorem plain_of_opcode {free : Bool} {i : Instruction} (hstore : i.opcode ≠ .setLocal)
    (hjump : i.opcode.isJump = false) (hread : i.opcode ≠ .getLocal)
    (hexternal : i.opcode ≠ .external) : Plain slots free i :=
  ⟨hstore, hjump, fun h => absurd h hread, fun _ => hexternal⟩

theorem plain_read {x : String} {k : Nat} (h : slots.resolve x = some k) (free : Bool) :
    Plain slots free (.ofNat .getLocal k) :=
  ⟨nofun, rfl, fun _ => ⟨x, k, h, rfl⟩, nofun⟩

theorem LiteralCode.plain {texts : Array String} {l : Literal} {i : Instruction}
    (h : LiteralCode texts l i) (free : Bool) : Plain slots free i := by
  cases l with
  | int | float | bool =>
    obtain rfl := h
    exact plain_of_opcode nofun rfl nofun nofun
  | text t =>
    obtain ⟨k, -, rfl⟩ := h
    exact plain_of_opcode nofun rfl nofun nofun

variable {texts : Array String} {i : Instruction}

theorem CalleeCode.plain {argCount : Nat} {kind : CallKind} {name : String}
    {code : List Instruction} (h : CalleeCode ids texts slots argCount kind name code)
    (args : List Expr) (hi : i ∈ code) : Plain slots (Expr.call kind name args).hostFree i := by
  cases h with
  | ofFunction =>
    simp only [List.mem_cons, List.not_mem_nil, or_false] at hi
    rcases hi with rfl | rfl <;> exact plain_of_opcode nofun rfl nofun nofun
  | ofVariable _ hslot =>
    simp only [List.mem_cons, List.not_mem_nil, or_false] at hi
    rcases hi with rfl | rfl
    · exact plain_read hslot _
    · exact plain_of_opcode nofun rfl nofun nofun
  | ofHost =>
    simp only [List.mem_cons, List.not_mem_nil, or_false] at hi
    rcases hi with rfl | rfl
    · exact plain_of_opcode nofun rfl nofun nofun
    · exact ⟨nofun, rfl, nofun, fun hfree => by simp [Expr.hostFree] at hfree⟩

theorem BinaryOp.plain {op : BinaryOp} {free : Bool} (hi : i ∈ op.code) : Plain slots free i := by
  cases op <;> simp [code, opcode] at hi <;>
    rcases hi with rfl | rfl <;> exact plain_of_opcode nofun rfl nofun nofun

mutual

theorem ExprCode.plain : {e : Expr} → {code : List Instruction} →
    ExprCode ids texts slots e code → i ∈ code → Plain slots e.hostFree i
  | _, _, .literal h, hi => by
    obtain rfl := List.mem_singleton.1 hi
    exact h.plain _
  | _, _, .ident hslot, hi => by
    obtain rfl := List.mem_singleton.1 hi
    exact plain_read hslot _
  | _, _, .functionRef _, hi => by
    obtain rfl := List.mem_singleton.1 hi
    exact plain_of_opcode nofun rfl nofun nofun
  | .call kind _ args, _, .call hargs htail, hi => by
    rcases List.mem_append.1 hi with hi | hi
    · refine (hargs.plain hi).mono fun hfree => ?_
      cases kind <;> simp_all [Expr.hostFree]
    · exact htail.plain args hi
  | .binary _ left right, _, .binary hleft hright, hi => by
    have hfree := Bool.and_eq_true left.hostFree right.hostFree
    rw [Expr.hostFree]
    simp only [List.mem_append] at hi
    rcases hi with hi | hi | hi
    · exact (hleft.plain hi).mono fun h => (hfree ▸ h).1
    · exact (hright.plain hi).mono fun h => (hfree ▸ h).2
    · exact BinaryOp.plain hi
  | _, _, .not h, hi => by
    rw [Expr.hostFree]
    rcases List.mem_append.1 hi with hi | hi
    · exact h.plain hi
    · obtain rfl := List.mem_singleton.1 hi
      exact plain_of_opcode nofun rfl nofun nofun
  | _, _, .negate h, hi => by
    rw [Expr.hostFree]
    rcases List.mem_append.1 hi with hi | hi
    · exact h.plain hi
    · simp only [List.mem_cons, List.not_mem_nil, or_false] at hi
      rcases hi with rfl | rfl <;> exact plain_of_opcode nofun rfl nofun nofun

theorem ExprsCode.plain : {es : List Expr} → {code : List Instruction} →
    ExprsCode ids texts slots es code → i ∈ code → Plain slots (Expr.allHostFree es) i
  | _, _, .nil, hi => absurd hi List.not_mem_nil
  | e :: es, _, .cons h hs, hi => by
    have hfree := Bool.and_eq_true e.hostFree (Expr.allHostFree es)
    rw [Expr.allHostFree]
    rcases List.mem_append.1 hi with hi | hi
    · exact (h.plain hi).mono fun h => (hfree ▸ h).1
    · exact (hs.plain hi).mono fun h => (hfree ▸ h).2

end

/-! ## Stores -/

/-- What holds of the instructions of a piece of code, each at its index. -/
def Along (P : Nat → Instruction → Prop) (start : Nat) (code : List Instruction) : Prop :=
  ∀ k i, code[k]? = some i → P (start + k) i

section Along

variable {P Q : Nat → Instruction → Prop} {start : Nat} {code codes : List Instruction}

@[simp] theorem along_nil : Along P start [] := fun _ _ h => nomatch h

@[simp] theorem along_cons :
    Along P start (i :: code) ↔ P start i ∧ Along P (start + 1) code := by
  constructor
  · refine fun h => ⟨h 0 i rfl, fun k j hj => ?_⟩
    have := h (k + 1) j hj
    rwa [Nat.add_assoc, Nat.add_comm 1]
  · rintro ⟨hi, hcode⟩ (_ | k) j hj
    · exact Option.some.inj hj ▸ hi
    · have := hcode k j hj
      rwa [Nat.add_assoc, Nat.add_comm 1] at this

theorem along_append :
    Along P start (code ++ codes) ↔ Along P start code ∧ Along P (start + code.length) codes := by
  induction code generalizing start with
  | nil => simp
  | cons i code ih =>
    rw [List.cons_append, along_cons, along_cons, ih, and_assoc, List.length_cons,
      Nat.add_right_comm, ← Nat.add_assoc]

theorem Along.mono (h : Along P start code) (hPQ : ∀ ip i, P ip i → Q ip i) :
    Along Q start code := fun k i hi => hPQ _ i (h k i hi)

theorem along_of_mem (h : ∀ i ∈ code, ∀ ip, P ip i) : Along P start code :=
  fun _ i hi => h i (List.mem_of_getElem? hi) _

end Along

/-- An instruction stores only if the spots say so. -/
def Listed (ls : List Spot) (ip : Nat) (i : Instruction) : Prop :=
  i.opcode = .setLocal → ∃ l ∈ ls, ∃ x, l.start = ip ∧ l.part = .store x

theorem Listed.mono {ls ls' : List Spot} (hsub : ls ⊆ ls') (ip : Nat) (i : Instruction)
    (h : Listed ls ip i) : Listed ls' ip i := by
  intro hop
  obtain ⟨l, hl, hstore⟩ := h hop
  exact ⟨l, hsub hl, hstore⟩

theorem ExprCode.listed {e : Expr} {code : List Instruction} (h : ExprCode ids texts slots e code)
    (ls : List Spot) (start : Nat) : Along (Listed ls) start code :=
  along_of_mem fun _ hi _ hop => absurd hop (h.plain hi).opcode_ne

mutual

/-- Only assignments store. -/
theorem stmtCode_listed : {slots slots' : Slots} → {start : Nat} → {stmt : Stmt} →
    {code : List Instruction} → StmtCode ids texts slots start stmt code slots' →
    Along (Listed (stmt.spots ids slots start)) start code
  | slots, _, start, .assign x e, _, .assign _ he => by
    refine along_append.2 ⟨he.listed _ _, along_cons.2 ⟨fun _ => ?_, along_nil⟩⟩
    refine ⟨⟨start + e.size, (slots.declare x).2, .store x⟩, ?_, x, ?_, rfl⟩
    · rw [Stmt.spots]
      exact List.mem_append_right _ (List.mem_singleton.2 rfl)
    · rw [he.length_eq]
  | _, _, start, .loop c body, _, .loop hc hbody => by
    refine along_append.2 ⟨hc.listed _ _, along_cons.2 ⟨nofun, along_append.2 ⟨?_, ?_⟩⟩⟩
    · refine (stmtsCode_listed hbody).mono (Listed.mono fun l hl => ?_)
      rw [hc.length_eq] at hl
      rw [Stmt.spots]
      exact List.mem_cons_of_mem _ (List.mem_append_right _ (List.mem_cons_of_mem _ hl))
    · exact along_cons.2 ⟨nofun, along_nil⟩
  | _, _, _, .choose branches, _, .choose h => by
    rw [Stmt.spots]
    exact branchesCode_listed h
  | _, _, start, .call _ _ _, _, .call hargs htail => (ExprCode.call hargs htail).listed _ _
  | _, _, _, .give none, _, .giveUnit => along_cons.2 ⟨nofun, along_cons.2 ⟨nofun, along_nil⟩⟩
  | _, _, _, .give (some _), _, .give he =>
    along_append.2 ⟨he.listed _ _, along_cons.2 ⟨nofun, along_nil⟩⟩

theorem stmtsCode_listed : {slots slots' : Slots} → {start : Nat} → {stmts : List Stmt} →
    {code : List Instruction} → StmtsCode ids texts slots start stmts code slots' →
    Along (Listed (Stmt.allSpots ids slots start stmts)) start code
  | _, _, _, [], _, .nil => along_nil
  | _, _, start, stmt :: stmts, _, .cons h hs => by
    have hstmt := stmtCode_listed h
    have hstmts := stmtsCode_listed hs
    obtain ⟨hlength, rfl⟩ := h.size_after
    rw [Stmt.allSpots]
    refine along_append.2 ⟨hstmt.mono (Listed.mono (List.subset_append_left _ _)), ?_⟩
    rw [hlength] at hstmts ⊢
    exact hstmts.mono (Listed.mono (List.subset_append_right _ _))

theorem branchesCode_listed : {slots slots' : Slots} → {start : Nat} → {branches : List Branch} →
    {code : List Instruction} → BranchesCode ids texts slots start branches code slots' →
    Along (Listed (Stmt.branchesSpots ids slots start branches)) start code
  | _, _, _, [.mk _ body], _, .last h => by
    rw [Stmt.branchesSpots]
    exact (stmtsCode_listed h).mono (Listed.mono (List.subset_cons_self _ _))
  | _, _, start, .mk (.when c) body :: branch :: rest, _, .cons hc hbody hrest => by
    have hbody' := stmtsCode_listed hbody
    have hrest' := branchesCode_listed hrest
    obtain ⟨hlength, rfl⟩ := hbody.size_after
    refine along_append.2 ⟨hc.listed _ _, along_cons.2 ⟨nofun, along_append.2 ⟨?_,
      along_cons.2 ⟨nofun, ?_⟩⟩⟩⟩
    · refine hbody'.mono (Listed.mono fun l hl => ?_)
      rw [hc.length_eq] at hl
      rw [Stmt.branchesSpots]
      · exact List.mem_append_right _ (List.mem_cons_of_mem _ (List.mem_append_left _ hl))
      · simp
    · refine hrest'.mono (Listed.mono fun l hl => ?_)
      rw [hc.length_eq, hlength] at hl
      rw [Stmt.branchesSpots]
      · exact List.mem_append_right _ (List.mem_cons_of_mem _ (List.mem_append_right _ hl))
      · simp

end

end Stands

/-! ## Names of slots -/

/-- The slots that are bound were given out, each to one of the names, which are listed by
    slots. The first slot is reserved, and never bound. -/
structure Slots.Named (names : List String) (slots : Slots) : Prop where
  pos : 0 < slots.next
  next_le : slots.next ≤ names.length
  bound : ∀ block ∈ slots.blocks, ∀ x k, (x, k) ∈ block →
    0 < k ∧ k < slots.next ∧ names[k]? = some x

section Named

variable {ids : String → Option Nat} {names more : List String} {slots : Slots}

theorem Slots.Named.resolve (h : slots.Named names) {x : String} {k : Nat}
    (hk : slots.resolve x = some k) : 0 < k ∧ k < slots.next ∧ names[k]? = some x := by
  obtain ⟨block, hblock, hget⟩ := List.exists_of_findSome?_eq_some hk
  exact h.bound block hblock x k (Table.mem_of_get? hget)

theorem Slots.Named.append (h : slots.Named names) (more : List String) :
    slots.Named (names ++ more) := by
  have hle := h.next_le
  refine ⟨h.pos, by rw [List.length_append]; omega, fun block hblock x k hk => ?_⟩
  obtain ⟨hpos, hlt, hname⟩ := h.bound block hblock x k hk
  exact ⟨hpos, hlt, by rw [List.getElem?_append_left (by omega), hname]⟩

theorem Slots.Named.enterBlock (h : slots.Named names) : slots.enterBlock.Named names := by
  refine ⟨h.pos, h.next_le, fun block hblock x k hk => ?_⟩
  rcases List.mem_cons.1 hblock with rfl | hblock
  · cases hk
  · exact h.bound block hblock x k hk

theorem Slots.Named.leaveBlock (h : slots.Named names) : slots.leaveBlock.Named names := by
  unfold Slots.leaveBlock
  split
  · next inner outer rest hblocks =>
    refine ⟨h.pos, h.next_le, fun block hblock => ?_⟩
    exact h.bound block (hblocks ▸ List.mem_cons_of_mem _ hblock)
  · exact h

/-- A name that gets the next slot. -/
theorem Slots.Named.give (h : slots.Named names) (hlength : names.length = slots.next) {x : String}
    {blocks : List (Table String Nat)}
    (hblocks : ∀ block ∈ blocks, ∀ y k, (y, k) ∈ block →
      (∃ block ∈ slots.blocks, (y, k) ∈ block) ∨ y = x ∧ k = slots.next) :
    Slots.Named (names ++ [x]) ⟨blocks, slots.next + 1⟩ := by
  refine ⟨Nat.succ_pos _, by simp [hlength], fun block hblock y k hk => ?_⟩
  rcases hblocks block hblock y k hk with ⟨block', hblock', hk'⟩ | ⟨rfl, rfl⟩
  · obtain ⟨hpos, hlt, hname⟩ := h.bound block' hblock' y k hk'
    exact ⟨hpos, Nat.lt_succ_of_lt hlt, by rw [List.getElem?_append_left (by omega), hname]⟩
  · exact ⟨h.pos, Nat.lt_succ_self _, by simp [← hlength]⟩

/-- A name that is declared has a slot already, or gets the next one. -/
theorem Slots.Named.declare (h : slots.Named names) (hlength : names.length = slots.next)
    (x : String) : ∃ more, (slots.declare x).2.Named (names ++ more) ∧
      (names ++ more).length = (slots.declare x).2.next := by
  unfold Slots.declare
  split
  · refine ⟨[x], h.give hlength fun block hblock y k hk => .inr ?_, by simp [hlength]⟩
    obtain rfl := List.mem_singleton.1 hblock
    exact Prod.mk.inj (List.mem_singleton.1 hk)
  · next block rest hblocks =>
    split
    · exact ⟨[], by simpa using h, by simpa using hlength⟩
    · refine ⟨[x], h.give hlength fun block' hblock' y k hk => ?_, by simp [hlength]⟩
      rw [hblocks]
      rcases List.mem_cons.1 hblock' with rfl | hblock'
      · rcases Table.mem_insert hk with heq | hk
        · exact .inr (Prod.mk.inj heq)
        · exact .inl ⟨block, List.mem_cons_self, hk⟩
      · exact .inl ⟨block', List.mem_cons_of_mem _ hblock', hk⟩

mutual

/-- An expression only reads, and finds the same slots everywhere. -/
theorem Expr.eq_of_mem_spots : {e : Expr} → {start : Nat} → {l : Spot} →
    l ∈ e.spots ids slots start → ∃ ip x, l = ⟨ip, slots, .read x⟩
  | .literal _, _, _, hl | .functionRef _, _, _, hl | .access _ _, _, _, hl => by
    simp [spots] at hl
  | .ident x, _, _, hl => by
    rw [spots, List.mem_singleton] at hl
    exact ⟨_, x, hl⟩
  | .call .internal x args, _, _, hl => by
    rw [spots, List.mem_append] at hl
    rcases hl with hl | hl
    · exact eq_of_mem_allSpots hl
    · split at hl
      · exact ⟨_, x, List.mem_singleton.1 hl⟩
      · cases hl
  | .call .external _ args, _, _, hl => by
    rw [spots] at hl
    exact eq_of_mem_allSpots hl
  | .binary _ left right, _, _, hl => by
    rw [spots, List.mem_append] at hl
    rcases hl with hl | hl
    · exact eq_of_mem_spots hl
    · exact eq_of_mem_spots hl
  | .not e, _, _, hl | .negate e, _, _, hl => by
    rw [spots] at hl
    exact eq_of_mem_spots hl

theorem Expr.eq_of_mem_allSpots : {es : List Expr} → {start : Nat} → {l : Spot} →
    l ∈ allSpots ids slots start es → ∃ ip x, l = ⟨ip, slots, .read x⟩
  | [], _, _, hl => by simp [allSpots] at hl
  | e :: es, _, _, hl => by
    rw [allSpots, List.mem_append] at hl
    rcases hl with hl | hl
    · exact eq_of_mem_spots hl
    · exact eq_of_mem_allSpots hl

end

/-- The slots before and behind a part are given to the names. -/
structure Spot.Named (names : List String) (l : Spot) : Prop where
  before : l.slots.Named names
  behind : l.after.Named names

theorem Spot.Named.append {l : Spot} (h : l.Named names) (more : List String) :
    l.Named (names ++ more) := ⟨h.before.append more, h.behind.append more⟩

theorem Expr.named_spots (h : slots.Named names) {e : Expr} {start : Nat} {l : Spot}
    (hl : l ∈ e.spots ids slots start) : l.Named names := by
  obtain ⟨ip, x, rfl⟩ := eq_of_mem_spots hl
  exact ⟨h, h⟩

theorem next_leaveBlock (slots : Slots) : slots.leaveBlock.next = slots.next := by
  unfold Slots.leaveBlock
  split <;> rfl

mutual

/-- The names of the slots go on behind a statement, and all its spots have them. -/
theorem Stmt.named : (stmt : Stmt) → {slots : Slots} → {names : List String} →
    slots.Named names → names.length = slots.next → ∃ more,
      (stmt.after slots).Named (names ++ more) ∧ (names ++ more).length = (stmt.after slots).next ∧
      ∀ start, ∀ l ∈ stmt.spots ids slots start, l.Named (names ++ more)
  | .assign x e, slots, names, h, hlength => by
    obtain ⟨more, hnamed, hnext⟩ := h.declare hlength x
    refine ⟨more, by rwa [after], by rwa [after], fun start l hl => ?_⟩
    rw [spots, List.mem_append, List.mem_singleton] at hl
    rcases hl with hl | hl
    · exact Expr.named_spots hnamed hl
    · exact hl ▸ ⟨hnamed, hnamed⟩
  | .loop c body, slots, names, h, hlength => by
    obtain ⟨more, hnamed, hnext, hspots⟩ := Stmt.allNamed body h.enterBlock hlength
    refine ⟨more, ?_, ?_, fun start l hl => ?_⟩
    · rw [after]
      exact hnamed.leaveBlock
    · rw [after, next_leaveBlock]
      exact hnext
    · simp only [spots, List.mem_cons, List.mem_append] at hl
      rcases hl with hl | hl | hl | hl
      · refine hl ▸ ⟨h.append more, ?_⟩
        simp only [Spot.after, after]
        exact hnamed.leaveBlock
      · exact Expr.named_spots (h.append more) hl
      · exact hl ▸ ⟨h.append more, hnamed⟩
      · exact hspots _ l hl
  | .choose branches, slots, names, h, hlength => by
    obtain ⟨more, hnamed, hnext, hspots⟩ := Stmt.branchesNamed branches h hlength
    refine ⟨more, by rwa [after], by rwa [after], fun start l hl => ?_⟩
    rw [spots] at hl
    exact hspots start l hl
  | .call kind x args, slots, names, h, hlength => by
    refine ⟨[], by simpa [after] using h, by simpa [after] using hlength, fun start l hl => ?_⟩
    rw [spots] at hl
    exact Expr.named_spots (h.append []) hl
  | .give none, slots, names, h, hlength => by
    refine ⟨[], by simpa [after] using h, by simpa [after] using hlength, fun start l hl => ?_⟩
    simp [spots] at hl
  | .give (some e), slots, names, h, hlength => by
    refine ⟨[], by simpa [after] using h, by simpa [after] using hlength, fun start l hl => ?_⟩
    rw [spots] at hl
    exact Expr.named_spots (h.append []) hl

theorem Stmt.allNamed : (stmts : List Stmt) → {slots : Slots} → {names : List String} →
    slots.Named names → names.length = slots.next → ∃ more,
      (allAfter slots stmts).Named (names ++ more) ∧
      (names ++ more).length = (allAfter slots stmts).next ∧
      ∀ start, ∀ l ∈ allSpots ids slots start stmts, l.Named (names ++ more)
  | [], slots, names, h, hlength =>
    ⟨[], by simpa [allAfter] using h, by simpa [allAfter] using hlength,
      fun start l hl => by simp [allSpots] at hl⟩
  | stmt :: stmts, slots, names, h, hlength => by
    obtain ⟨more, hnamed, hnext, hspots⟩ := Stmt.named stmt h hlength
    obtain ⟨more', hnamed', hnext', hspots'⟩ := Stmt.allNamed stmts hnamed hnext
    rw [List.append_assoc] at hnamed' hnext'
    refine ⟨more ++ more', by rwa [allAfter], by rwa [allAfter], fun start l hl => ?_⟩
    rw [allSpots, List.mem_append] at hl
    rcases hl with hl | hl
    · rw [← List.append_assoc]
      exact (hspots start l hl).append more'
    · rw [← List.append_assoc]
      exact hspots' _ l hl

theorem Stmt.branchesNamed : (branches : List Branch) → {slots : Slots} → {names : List String} →
    slots.Named names → names.length = slots.next → ∃ more,
      (branchesAfter slots branches).Named (names ++ more) ∧
      (names ++ more).length = (branchesAfter slots branches).next ∧
      ∀ start, ∀ l ∈ branchesSpots ids slots start branches, l.Named (names ++ more)
  | [], slots, names, h, hlength =>
    ⟨[], by simpa [branchesAfter] using h, by simpa [branchesAfter] using hlength,
      fun start l hl => by simp [branchesSpots] at hl⟩
  | .mk guard body :: rest, slots, names, h, hlength => by
    obtain ⟨more, hnamed, hnext, hspots⟩ := Stmt.allNamed body h.enterBlock hlength
    obtain ⟨more', hnamed', hnext', hspots'⟩ :=
      Stmt.branchesNamed rest hnamed.leaveBlock (hnext.trans (next_leaveBlock _).symm)
    rw [List.append_assoc] at hnamed' hnext'
    refine ⟨more ++ more', by rwa [branchesAfter], by rwa [branchesAfter], fun start l hl => ?_⟩
    have hblock : ∀ start, Spot.Named (names ++ (more ++ more')) ⟨start, slots, .block body⟩ := by
      intro start
      rw [← List.append_assoc]
      exact ⟨(h.append more).append more', hnamed.append more'⟩
    have hbody : ∀ start, ∀ l ∈ allSpots ids slots.enterBlock start body,
        l.Named (names ++ (more ++ more')) := by
      intro start l hl
      rw [← List.append_assoc]
      exact (hspots start l hl).append more'
    cases rest with
    | nil =>
      rw [branchesSpots, List.mem_cons] at hl
      rcases hl with hl | hl
      · exact hl ▸ hblock _
      · exact hbody _ l hl
    | cons branch rest =>
      cases guard with
      | otherwise => simp [branchesSpots] at hl
      | when c =>
        rw [branchesSpots] at hl
        · simp only [List.mem_append, List.mem_cons] at hl
          rcases hl with hl | hl | hl | hl
          · exact Expr.named_spots (h.append _) hl
          · exact hl ▸ hblock _
          · exact hbody _ l hl
          · rw [← List.append_assoc]
            exact hspots' _ l hl
        · simp

end

/-- The names of the first slots are those of the parameters; the slot that is reserved has
    none. -/
theorem Slots.named_ofParams (params : List String) :
    ∃ names, (ofParams params).Named names ∧ names.length = (ofParams params).next := by
  have hfold : ∀ (params : List String) {slots : Slots} {names : List String},
      slots.Named names → names.length = slots.next → ∃ names,
        (params.foldl (fun s x => (s.declare x).2) slots).Named names ∧
          names.length = (params.foldl (fun s x => (s.declare x).2) slots).next := by
    intro params
    induction params with
    | nil => exact fun h hlength => ⟨_, h, hlength⟩
    | cons x params ih =>
      intro slots names h hlength
      obtain ⟨more, hnamed, hnext⟩ := h.declare hlength x
      exact ih hnamed hnext
  have hnew : (Slots.new Draft.reservedSlots).Named [""] := by
    refine ⟨Nat.one_pos, Nat.le_refl 1, fun block hblock x k hk => ?_⟩
    obtain rfl := List.mem_singleton.1 hblock
    cases hk
  exact hfold params hnew rfl

end Named

/-! ## Functions of a script -/

namespace Script

/-- Instructions can address the slots of every function. -/
def Addressable (s : Script) : Prop :=
  ∀ f ∈ s.functions, (Stmt.allAfter (.ofParams f.params) f.body).next ≤ 4294967296

instance (s : Script) : Decidable s.Addressable :=
  inferInstanceAs (Decidable (∀ f ∈ s.functions,
    (Stmt.allAfter (.ofParams f.params) f.body).next ≤ 4294967296))

/-- What is known of the spots of the function with the number `id`. -/
structure Placed (s : Script) (p : Program) (id : Nat) (f : Function) : Prop where
  stands : ∀ l ∈ f.spots s, l.Stands p id s.functionId?
  stored : ∀ ip i, p.instruction? id ip = some i → Listed (f.spots s) ip i
  named : ∃ names, names.length ≤ 4294967296 ∧ ∀ l ∈ f.spots s, l.Named names

variable {s : Script} {p : Program} {id : Nat} {f : Function}

/-- All code of a function is generated, but for a return at its end. -/
theorem Compiled.exists_code (hs : s.Compiled p) (hf : s.functions[id]? = some f) :
    ∃ code slots, StmtsCode s.functionId? p.strings (.ofParams f.params) 0 f.body code slots ∧
      p.functions[id]? = some (.compiled (.ofCode (Draft.completed code).toArray)) ∧
      p.HasCode id 0 code ∧ ∀ ip, p.instruction? id ip = (Draft.completed code)[ip]? := by
  obtain ⟨code, slots, hcode, hbody⟩ := hs.code id f hf
  have hall := Program.hasCode_ofCode hbody
  refine ⟨code, slots, hcode, hbody, ?_, fun ip => ?_⟩
  · unfold Draft.completed at hall
    split at hall
    · exact hall
    · exact hall.left
  · rw [Program.instruction?, Program.function?, hbody]
    simp [Body.ofCode]

/-- The spots of a function of a script that is compiled. -/
theorem Compiled.placed (hs : s.Compiled p) (hslots : s.Addressable)
    (hf : s.functions[id]? = some f) : s.Placed p id f := by
  obtain ⟨code, slots, hcode, -, hhas, hinstruction⟩ := hs.exists_code hf
  have hlisted : Along (Listed (f.spots s)) 0 (Draft.completed code) := by
    unfold Draft.completed
    split
    · exact stmtsCode_listed hcode
    · refine along_append.2 ⟨stmtsCode_listed hcode, ?_⟩
      exact along_cons.2 ⟨nofun, along_cons.2 ⟨nofun, along_nil⟩⟩
  refine ⟨stmtsCode_stands hcode hhas, fun ip i hi => ?_, ?_⟩
  · rw [hinstruction] at hi
    exact Nat.zero_add ip ▸ hlisted ip i hi
  · obtain ⟨names, hnamed, hlength⟩ := Slots.named_ofParams f.params
    obtain ⟨more, -, hnext, hspots⟩ := Stmt.allNamed f.body hnamed hlength
    exact ⟨names ++ more, hnext ▸ hslots f (List.mem_of_getElem? hf), hspots 0⟩

end Script

end ScriptMachine
