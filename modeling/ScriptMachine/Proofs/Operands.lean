import ScriptMachine.Proofs.Layout
import ScriptMachine.Proofs.Run

/-!
# Operands of generated code

At every place of a function there is something to be said about the operands that an
instruction finds there: so many of them were pushed by the expressions that are under
way, and the name of a function of the host is a text. This is the *shape* of the
stack. Below the operands that a shape speaks of there may lie any others, which
statements have left behind.

An instruction that is executed in a shape takes what it needs from it, and leads to
other places in other shapes (`Program.Checked`). A place is *safe* in a shape if it
belongs to a set of places, each with its shape, in which every instruction is checked
and leads back into the set (`Program.Safe`); so safety is what goes on forever.

* `Program.Safe.intro`, `Program.Safe.checked`, `Program.Safe.again`: safety step by
  step, and once around a loop.
* `exprCode_checked`, `stmtCode_safe`: code is safe at its start if what comes behind it
  is.
* `Script.Compiled.safe`: all functions of a compiled script are safe.
-/

namespace ScriptMachine

/-! ## Shapes -/

/-- What is known of an operand. -/
inductive Kind where
  | any
  | text
deriving DecidableEq

/-- Is this an operand of the kind? -/
def Kind.Holds : Kind → Value → Prop
  | .any, _ => True
  | .text, v => v.type = .string

/-- What is known of the last operands that were pushed, the last one first. -/
abbrev Shape := List Kind

namespace Shape

/-- The stack has this shape. -/
def Holds : Shape → List Value → Prop
  | [], _ => True
  | _ :: _, [] => False
  | k :: shape, v :: stack => k.Holds v ∧ Holds shape stack

/-- Every stack of the one shape has the other one, too. -/
def Refines (shape shape' : Shape) : Prop := ∀ stack, shape.Holds stack → shape'.Holds stack

theorem Refines.refl (shape : Shape) : shape.Refines shape := fun _ h => h

theorem refines_nil (shape : Shape) : shape.Refines [] := fun _ _ => trivial

theorem refines_any (k : Kind) (shape : Shape) : Refines (k :: shape) (.any :: shape)
  | [], h => h.elim
  | _ :: _, h => ⟨trivial, h.2⟩

theorem Holds.exists_cons {k : Kind} {shape : Shape} {stack : List Value}
    (h : Holds (k :: shape) stack) :
    ∃ v rest, stack = v :: rest ∧ k.Holds v ∧ shape.Holds rest := by
  cases stack with
  | nil => exact h.elim
  | cons v rest => exact ⟨v, rest, rfl, h.1, h.2⟩

/-- The operands of a shape, with what lies below them. -/
theorem Holds.exists_append {shape shape' : Shape} {stack : List Value}
    (h : Holds (shape ++ shape') stack) :
    ∃ front rest, stack = front ++ rest ∧ front.length = shape.length ∧ shape'.Holds rest := by
  induction shape generalizing stack with
  | nil => exact ⟨[], stack, rfl, rfl, h⟩
  | cons k shape ih =>
    obtain ⟨v, rest, rfl, -, hrest⟩ := Holds.exists_cons h
    obtain ⟨front, rest', rfl, hlength, hrest'⟩ := ih hrest
    exact ⟨v :: front, rest', rfl, congrArg (· + 1) hlength, hrest'⟩

end Shape

/-! ## Safe places -/

namespace Program

variable {p : Program} {id ip : Nat} {shape shape' : Shape} {R R' : Nat → Shape → Prop}
  {i : Instruction}

/-- A set of places and shapes contains one that is not more special. -/
def Into (R : Nat → Shape → Prop) (ip : Nat) (shape : Shape) : Prop :=
  ∃ shape', shape.Refines shape' ∧ R ip shape'

/-- An instruction finds its operands, its numbers are in range, and it leads into a
    set of places and shapes. -/
def Leads (p : Program) (R : Nat → Shape → Prop) (ip : Nat) (shape : Shape) (i : Instruction) :
    Prop :=
  match i.opcode with
  | .pushInt | .pushFloat | .pushBool | .pushUnit | .getLocal => Into R (ip + 1) (.any :: shape)
  | .pushString => i.index < p.strings.size ∧ Into R (ip + 1) (.text :: shape)
  | .pushFunction => i.index < p.functions.size ∧ Into R (ip + 1) (.any :: shape)
  | .add | .sub | .mul | .div | .and | .or | .gt | .lt | .gte | .lte | .eq =>
    ∃ k k' rest, shape = k :: k' :: rest ∧ Into R (ip + 1) (.any :: rest)
  | .not => ∃ k rest, shape = k :: rest ∧ Into R (ip + 1) (.any :: rest)
  | .setLocal => i.index < maxLocals ∧ ∃ k rest, shape = k :: rest ∧ Into R (ip + 1) rest
  | .jump => Into R i.index shape
  | .jumpUnless => ∃ k rest, shape = k :: rest ∧ Into R (ip + 1) rest ∧ Into R i.index rest
  | .call => ∃ k args rest, shape = k :: (args ++ rest) ∧ args.length = i.index ∧
      Into R (ip + 1) (.any :: rest)
  | .external => ∃ args rest, shape = .text :: (args ++ rest) ∧ args.length = i.index ∧
      Into R (ip + 1) (.any :: rest)
  | .ret => ∃ k rest, shape = k :: rest
  | .nop | .jumpIf | .invalid => False

/-- There is an instruction at a place, and it leads into a set. -/
def Checked (p : Program) (id : Nat) (R : Nat → Shape → Prop) (ip : Nat) (shape : Shape) : Prop :=
  ∃ i, p.instruction? id ip = some i ∧ p.Leads R ip shape i

/-- An instruction leads from one place to another one. -/
def Reaches (i : Instruction) (ip ip' : Nat) : Prop :=
  (i.opcode ≠ .ret ∧ i.opcode ≠ .jump ∧ ip' = ip + 1) ∨ (i.opcode.isJump ∧ ip' = i.index)

theorem Into.mono (h : Into R ip shape) (hR : ∀ shape, R ip shape → R' ip shape) :
    Into R' ip shape := by
  obtain ⟨shape', hrefines, hshape'⟩ := h
  exact ⟨shape', hrefines, hR shape' hshape'⟩

/-- Only the places that an instruction leads to matter. -/
theorem Leads.mono (h : p.Leads R ip shape i)
    (hR : ∀ ip' shape, Reaches i ip ip' → R ip' shape → R' ip' shape) :
    p.Leads R' ip shape i := by
  -- Most instructions lead only to the one behind them.
  have hnext (hret : i.opcode ≠ .ret) (hjump : i.opcode ≠ .jump) {shape : Shape}
      (h : Into R (ip + 1) shape) : Into R' (ip + 1) shape :=
    h.mono fun _ => hR _ _ (.inl ⟨hret, hjump, rfl⟩)
  obtain ⟨opcode, data⟩ := i
  cases opcode <;> simp only [Leads] at h ⊢
  case pushInt | pushFloat | pushBool | pushUnit | getLocal => exact hnext (by simp) (by simp) h
  case pushString | pushFunction => exact ⟨h.1, hnext (by simp) (by simp) h.2⟩
  case add | sub | mul | div | and | or | gt | lt | gte | lte | eq =>
    obtain ⟨k, k', rest, hshape, hinto⟩ := h
    exact ⟨k, k', rest, hshape, hnext (by simp) (by simp) hinto⟩
  case not =>
    obtain ⟨k, rest, hshape, hinto⟩ := h
    exact ⟨k, rest, hshape, hnext (by simp) (by simp) hinto⟩
  case setLocal =>
    obtain ⟨hindex, k, rest, hshape, hinto⟩ := h
    exact ⟨hindex, k, rest, hshape, hnext (by simp) (by simp) hinto⟩
  case jump => exact h.mono fun _ => hR _ _ (.inr ⟨rfl, rfl⟩)
  case jumpUnless =>
    obtain ⟨k, rest, hshape, hinto, hjump⟩ := h
    exact ⟨k, rest, hshape, hnext (by simp) (by simp) hinto,
      hjump.mono fun _ => hR _ _ (.inr ⟨rfl, rfl⟩)⟩
  case call =>
    obtain ⟨k, args, rest, hshape, hlength, hinto⟩ := h
    exact ⟨k, args, rest, hshape, hlength, hnext (by simp) (by simp) hinto⟩
  case external =>
    obtain ⟨args, rest, hshape, hlength, hinto⟩ := h
    exact ⟨args, rest, hshape, hlength, hnext (by simp) (by simp) hinto⟩
  case ret => exact h

/-- The instructions go on forever from a place and a shape on, or until control comes
    out of them. -/
def Safe (p : Program) (id : Nat) (out : Nat → Shape → Prop) (ip : Nat) (shape : Shape) : Prop :=
  ∃ R : Nat → Shape → Prop, R ip shape ∧
    ∀ ip shape, R ip shape → out ip shape ∨ p.Checked id R ip shape

/-- The instructions go on forever. -/
abbrev Forever (p : Program) (id : Nat) : Nat → Shape → Prop := p.Safe id fun _ _ => False

variable {out out' : Nat → Shape → Prop}

theorem Checked.mono (h : p.Checked id R ip shape) (hR : ∀ ip shape, R ip shape → R' ip shape) :
    p.Checked id R' ip shape := by
  obtain ⟨i, hi, hleads⟩ := h
  exact ⟨i, hi, hleads.mono fun ip' shape _ => hR ip' shape⟩

theorem Safe.mono (h : p.Safe id out ip shape) (hout : ∀ ip shape, out ip shape → out' ip shape) :
    p.Safe id out' ip shape := by
  obtain ⟨R, hstart, hR⟩ := h
  exact ⟨R, hstart, fun ip shape hip => (hR ip shape hip).imp_left (hout ip shape)⟩

theorem Safe.of_out (h : out ip shape) : p.Safe id out ip shape :=
  ⟨out, h, fun _ _ h => .inl h⟩

/-- Control comes out of a safe place, or goes on to safe places. -/
theorem Safe.checked (h : p.Safe id out ip shape) :
    out ip shape ∨ p.Checked id (p.Safe id out) ip shape := by
  obtain ⟨R, hstart, hR⟩ := h
  exact (hR ip shape hstart).imp_right fun h => h.mono fun ip shape hip => ⟨R, hip, hR⟩

/-- A place from which control goes on to safe places is safe. -/
theorem Safe.intro (h : p.Checked id (p.Safe id out) ip shape) : p.Safe id out ip shape := by
  -- The safe places and this one are such a set.
  refine ⟨fun ip' shape' => p.Safe id out ip' shape' ∨ (ip' = ip ∧ shape' = shape),
    .inr ⟨rfl, rfl⟩, fun ip' shape' hip => ?_⟩
  rcases hip with hsafe | ⟨rfl, rfl⟩
  · exact hsafe.checked.imp_right fun h => h.mono fun _ _ => .inl
  · exact .inr (h.mono fun _ _ => .inl)

/-- The start of a loop is safe if control that comes back to it counts as coming out.
    There must be an instruction at the start, or nothing would be said. -/
theorem Safe.again
    (h : p.Checked id (p.Safe id fun ip' shape' => out ip' shape' ∨ (ip' = ip ∧ shape' = shape)) ip
      shape) :
    p.Safe id out ip shape := by
  refine ⟨p.Safe id fun ip' shape' => out ip' shape' ∨ (ip' = ip ∧ shape' = shape),
    .of_out (.inr ⟨rfl, rfl⟩), fun ip' shape' hip => ?_⟩
  -- Control that has come out at the start goes around once more.
  rcases hip.checked with (hout | ⟨rfl, rfl⟩) | hchecked
  · exact .inl hout
  · exact .inr h
  · exact .inr hchecked

theorem Safe.into (h : p.Safe id out ip shape) : Into (p.Safe id out) ip shape :=
  ⟨shape, .refl shape, h⟩

/-- Operands that nobody needs can be left behind. -/
theorem Safe.leaving (h : p.Safe id out ip []) : Into (p.Safe id out) ip shape :=
  ⟨[], Shape.refines_nil shape, h⟩

end Program

/-! ## Code of expressions -/

section Expr

open Program

variable {p : Program} {id : Nat} {ids : String → Option Nat} {slots : Slots} {ip : Nat}
  {shape : Shape} {R out : Nat → Shape → Prop} {i : Instruction} {code : List Instruction}

/-- A constant is pushed. -/
theorem LiteralCode.leads {l : Literal} (hp : p.Fits) (h : LiteralCode p.strings l i)
    (hinto : Into R (ip + 1) (.any :: shape)) : p.Leads R ip shape i := by
  cases l with
  | int | float | bool =>
    obtain rfl := h
    exact hinto
  | text t =>
    obtain ⟨n, hn, rfl⟩ := h
    obtain ⟨hlt, -⟩ := Array.getElem?_eq_some_iff.1 hn
    refine ⟨?_, ?_⟩
    · rwa [Instruction.index_ofNat _ (Nat.lt_trans hlt hp.strings)]
    · obtain ⟨shape', hrefines, hshape'⟩ := hinto
      exact ⟨shape', fun stack hstack => hrefines stack (Shape.refines_any _ _ stack hstack), hshape'⟩

/-- An operator takes two operands and leaves one. -/
theorem BinaryOp.checked (op : BinaryOp) (hcode : p.HasCode id ip op.code)
    (hinto : Into (p.Safe id out) (ip + op.code.length) (.any :: shape)) :
    p.Checked id (p.Safe id out) ip (.any :: .any :: shape) := by
  unfold code at hcode hinto
  split at hcode
  · -- The operator is the negation of another one.
    next hop =>
    rw [if_pos hop] at hinto
    have hnot : p.Checked id (p.Safe id out) (ip + 1) (.any :: shape) :=
      ⟨_, hcode.tail.head, _, _, rfl, hinto⟩
    exact ⟨_, hcode.head, _, _, _, rfl, (Safe.intro hnot).into⟩
  · next hop =>
    rw [if_neg hop] at hinto
    refine ⟨_, hcode.head, ?_⟩
    cases op <;> exact ⟨_, _, _, rfl, hinto⟩

/-- A call of a value takes it and the arguments, and leaves one operand. -/
theorem checked_call {argCount : Nat} (hi : p.instruction? id ip = some (.ofNat .call argCount))
    (hcount : argCount < 4294967296) (hinto : Into (p.Safe id out) (ip + 1) (.any :: shape)) :
    p.Checked id (p.Safe id out) ip (.any :: (List.replicate argCount .any ++ shape)) := by
  refine ⟨_, hi, _, _, _, rfl, ?_, hinto⟩
  rw [List.length_replicate, Instruction.index_ofNat _ hcount]

/-- A call takes its arguments and leaves one operand. -/
theorem CalleeCode.checked {kind : CallKind} {name : String} {argCount : Nat} (hp : p.Fits)
    (hids : ∀ name n, ids name = some n → n < p.functions.size)
    (h : CalleeCode ids p.strings slots argCount kind name code) (hcode : p.HasCode id ip code)
    (hcount : argCount < 4294967296)
    (hinto : Into (p.Safe id out) (ip + code.length) (.any :: shape)) :
    p.Checked id (p.Safe id out) ip (List.replicate argCount .any ++ shape) := by
  cases h with
  | @ofFunction _ n hn =>
    have hlt := hids name n hn
    have hcall := checked_call hcode.tail.head hcount hinto
    exact ⟨_, hcode.head, by rwa [Instruction.index_ofNat _ (Nat.lt_trans hlt hp.functions)],
      (Safe.intro hcall).into⟩
  | ofVariable _ _ =>
    have hcall := checked_call hcode.tail.head hcount hinto
    exact ⟨_, hcode.head, (Safe.intro hcall).into⟩
  | @ofHost _ n hn =>
    obtain ⟨hlt, -⟩ := Array.getElem?_eq_some_iff.1 hn
    -- The name was pushed right before, so it is known to be a text.
    have hcall : p.Checked id (p.Safe id out) (ip + 1)
        (.text :: (List.replicate argCount .any ++ shape)) := by
      refine ⟨_, hcode.tail.head, _, _, rfl, ?_, hinto⟩
      rw [List.length_replicate, Instruction.index_ofNat _ hcount]
    exact ⟨_, hcode.head, by rwa [Instruction.index_ofNat _ (Nat.lt_trans hlt hp.strings)],
      (Safe.intro hcall).into⟩

mutual

/-- The code of an expression is safe at its start if the code behind it is, once there
    is one operand more. -/
theorem exprCode_checked (hp : p.Fits)
    (hids : ∀ name n, ids name = some n → n < p.functions.size) :
    (e : Expr) → {code : List Instruction} → {ip : Nat} → {shape : Shape} →
    ExprCode ids p.strings slots e code → p.HasCode id ip code → code.length < 4294967296 →
    Into (p.Safe id out) (ip + code.length) (.any :: shape) →
    p.Checked id (p.Safe id out) ip shape
  | .literal _, _, _, _, .literal h, hcode, _, hinto => ⟨_, hcode.head, h.leads hp hinto⟩
  | .ident _, _, _, _, .ident _, hcode, _, hinto => ⟨_, hcode.head, hinto⟩
  | .functionRef name, _, _, _, .functionRef hid, hcode, _, hinto => by
    have hlt := hids name _ hid
    exact ⟨_, hcode.head, by rwa [Instruction.index_ofNat _ (Nat.lt_trans hlt hp.functions)], hinto⟩
  | .call _ _ args, _, _, _, .call hargs htail, hcode, hsize, hinto => by
    rw [List.length_append] at hsize hinto
    have hcount := hargs.length_le
    rw [← Nat.add_assoc] at hinto
    refine exprsCode_checked hp hids args hargs hcode.left (by omega) ?_
    exact htail.checked hp hids hcode.right (by omega) hinto
  | .binary op left right, _, _, _, .binary hleft hright, hcode, hsize, hinto => by
    -- From the last instruction to the first.
    simp only [List.length_append] at hsize hinto
    rw [← Nat.add_assoc, ← Nat.add_assoc] at hinto
    have hop := op.checked hcode.right.right hinto
    have hright := exprCode_checked hp hids right hright hcode.right.left (by omega)
      (Safe.intro hop).into
    exact exprCode_checked hp hids left hleft hcode.left (by omega) (Safe.intro hright).into
  | .not e, _, ip, shape, @ExprCode.not _ _ _ _ code he, hcode, hsize, hinto => by
    rw [List.length_append] at hsize hinto
    have hnot : p.Checked id (p.Safe id out) (ip + code.length) (.any :: shape) :=
      ⟨_, hcode.right.head, _, _, rfl, hinto⟩
    exact exprCode_checked hp hids e he hcode.left (by omega) (Safe.intro hnot).into
  | .negate e, _, ip, shape, @ExprCode.negate _ _ _ _ code he, hcode, hsize, hinto => by
    rw [List.length_append] at hsize hinto
    -- A negation multiplies by minus one.
    have hmul : p.Checked id (p.Safe id out) (ip + code.length + 1) (.any :: .any :: shape) :=
      ⟨_, hcode.right.tail.head, _, _, _, rfl, hinto⟩
    have hpush : p.Checked id (p.Safe id out) (ip + code.length) (.any :: shape) :=
      ⟨_, hcode.right.head, (Safe.intro hmul).into⟩
    exact exprCode_checked hp hids e he hcode.left (by omega) (Safe.intro hpush).into

/-- Expressions one behind the other leave an operand each. -/
theorem exprsCode_checked (hp : p.Fits)
    (hids : ∀ name n, ids name = some n → n < p.functions.size) :
    (es : List Expr) → {code : List Instruction} → {ip : Nat} → {shape : Shape} →
    ExprsCode ids p.strings slots es code → p.HasCode id ip code → code.length < 4294967296 →
    p.Checked id (p.Safe id out) (ip + code.length) (List.replicate es.length .any ++ shape) →
    p.Checked id (p.Safe id out) ip shape
  | [], _, _, _, .nil, _, _, hchecked => hchecked
  | e :: es, _, ip, shape, .cons he hes, hcode, hsize, hchecked => by
    rw [List.length_append] at hsize hchecked
    rw [← Nat.add_assoc, List.length_cons, List.replicate_succ', List.append_assoc] at hchecked
    have hes := exprsCode_checked hp hids es hes hcode.right (by omega) hchecked
    exact exprCode_checked hp hids e he hcode.left (by omega) (Safe.intro hes).into

end

end Expr

/-! ## Code of statements -/

section Stmt

open Program

variable {p : Program} {id : Nat} {ids : String → Option Nat}

/-- A test goes on behind itself or at the target of its jump. -/
theorem safe_test {slots : Slots} {out : Nat → Shape → Prop} {c : Expr} {test : List Instruction}
    {start target : Nat} (hp : p.Fits) (hids : ∀ name n, ids name = some n → n < p.functions.size)
    (hc : ExprCode ids p.strings slots c test) (hcode : p.HasCode id start test)
    (hjump : p.instruction? id (start + test.length) = some (.ofNat .jumpUnless target))
    (hsize : start + test.length < 4294967296) (htarget : target < 4294967296)
    (hnext : p.Safe id out (start + test.length + 1) []) (hsafe : p.Safe id out target []) :
    p.Checked id (p.Safe id out) start [] := by
  have hbranch : p.Checked id (p.Safe id out) (start + test.length) [.any] := by
    refine ⟨_, hjump, _, _, rfl, hnext.into, ?_⟩
    rw [Instruction.index_ofNat _ htarget]
    exact hsafe.into
  exact exprCode_checked hp hids c hc hcode (by omega) (Safe.intro hbranch).into

theorem checked_jump {out : Nat → Shape → Prop} {ip target : Nat}
    (hi : p.instruction? id ip = some (.ofNat .jump target)) (htarget : target < 4294967296)
    (hsafe : p.Safe id out target []) : p.Checked id (p.Safe id out) ip [] := by
  refine ⟨_, hi, ?_⟩
  have hinto := hsafe.into
  rwa [← Instruction.index_ofNat .jump htarget] at hinto

theorem safe_ret {out : Nat → Shape → Prop} {ip : Nat} {k : Kind} {shape : Shape}
    (hi : p.instruction? id ip = some (.bare .ret)) : p.Safe id out ip (k :: shape) :=
  .intro ⟨_, hi, k, shape, rfl⟩

theorem checked_giveUnit {out : Nat → Shape → Prop} {ip : Nat} {shape : Shape}
    (hcode : p.HasCode id ip [.bare .pushUnit, .bare .ret]) :
    p.Checked id (p.Safe id out) ip shape :=
  ⟨_, hcode.head, (safe_ret hcode.tail.head).into⟩

mutual

/-- The code of a statement is safe at its start if the code behind it is. Nothing is
    assumed of the operands, as statements find those that others have left behind. -/
theorem stmtCode_safe (hp : p.Fits)
    (hids : ∀ name n, ids name = some n → n < p.functions.size) :
    (stmt : Stmt) → {slots slots' : Slots} → {start : Nat} → {code : List Instruction} →
    {out : Nat → Shape → Prop} → StmtCode ids p.strings slots start stmt code slots' →
    p.HasCode id start code → start + code.length < 4294967296 →
    p.Safe id out (start + code.length) [] → p.Safe id out start []
  | .assign _ e, _, _, start, _, out, @StmtCode.assign _ _ _ _ _ _ _ _ code _ he, hcode, hsize,
      hsafe => by
    rw [List.length_append] at hsize hsafe
    have hset : p.Checked id (p.Safe id out) (start + code.length) [.any] :=
      ⟨_, hcode.right.head, hp.index_lt hcode.right.head rfl, _, _, rfl, hsafe.into⟩
    exact .intro (exprCode_checked hp hids e he hcode.left (by omega) (Safe.intro hset).into)
  | .loop c body, _, _, start, _, out, @StmtCode.loop _ _ _ _ _ _ _ test code hc hbody, hcode, hsize,
      hsafe => by
    have hbody' := hcode.right.tail
    rw [stop_of_guarded] at hsize hsafe
    -- Inside of the loop, its start counts as a way out.
    refine .again (safe_test hp hids hc hcode.left hcode.right.head (by omega) (by omega) ?_
      (hsafe.mono fun _ _ => Or.inl))
    refine stmtsCode_safe hp hids body hbody hbody'.left (by omega) (.intro ?_)
    exact checked_jump hbody'.right.head (by omega) (.of_out (.inr ⟨rfl, rfl⟩))
  | .choose branches, _, _, _, _, _, .choose h, hcode, hsize, hsafe =>
    branchesCode_safe hp hids branches h hcode hsize hsafe
  | .call _ _ args, _, _, _, _, _, .call hargs htail, hcode, hsize, hsafe => by
    rw [List.length_append] at hsize hsafe
    rw [← Nat.add_assoc] at hsafe
    have hcount := hargs.length_le
    refine .intro (exprsCode_checked hp hids args hargs hcode.left (by omega) ?_)
    -- The value of the call stays behind.
    exact htail.checked hp hids hcode.right (by omega) hsafe.leaving
  | .give none, _, _, _, _, _, .giveUnit, hcode, _, _ => .intro (checked_giveUnit hcode)
  | .give (some e), _, _, _, _, _, .give he, hcode, hsize, _ => by
    rw [List.length_append] at hsize
    exact .intro (exprCode_checked hp hids e he hcode.left (by omega) (safe_ret hcode.right.head).into)

theorem stmtsCode_safe (hp : p.Fits)
    (hids : ∀ name n, ids name = some n → n < p.functions.size) :
    (stmts : List Stmt) → {slots slots' : Slots} → {start : Nat} → {code : List Instruction} →
    {out : Nat → Shape → Prop} → StmtsCode ids p.strings slots start stmts code slots' →
    p.HasCode id start code → start + code.length < 4294967296 →
    p.Safe id out (start + code.length) [] → p.Safe id out start []
  | [], _, _, _, _, _, .nil, _, _, hsafe => hsafe
  | stmt :: stmts, _, _, _, _, _, .cons h hs, hcode, hsize, hsafe => by
    rw [List.length_append, ← Nat.add_assoc] at hsize hsafe
    have hstmts := stmtsCode_safe hp hids stmts hs hcode.right hsize hsafe
    exact stmtCode_safe hp hids stmt h hcode.left (by omega) hstmts

theorem branchesCode_safe (hp : p.Fits)
    (hids : ∀ name n, ids name = some n → n < p.functions.size) :
    (branches : List Branch) → {slots slots' : Slots} → {start : Nat} →
    {code : List Instruction} → {out : Nat → Shape → Prop} →
    BranchesCode ids p.strings slots start branches code slots' →
    p.HasCode id start code → start + code.length < 4294967296 →
    p.Safe id out (start + code.length) [] → p.Safe id out start []
  | [.mk _ body], _, _, _, _, _, .last h, hcode, hsize, hsafe =>
    stmtsCode_safe hp hids body h hcode hsize hsafe
  | .mk (.when c) body :: branch :: branches, _, _, start, _, _,
      @BranchesCode.cons _ _ _ _ _ _ _ _ _ _ test code codes hc hbody hrest, hcode, hsize, hsafe => by
    have hbody' := hcode.right.tail
    have hrest' := hbody'.right.tail
    rw [stop_of_guarded] at hsize hsafe
    have hlater := branchesCode_safe hp hids (branch :: branches) hrest hrest' (by omega) hsafe
    refine .intro (safe_test hp hids hc hcode.left hcode.right.head (by omega) (by omega) ?_ hlater)
    refine stmtsCode_safe hp hids body hbody hbody'.left (by omega) (.intro ?_)
    exact checked_jump hbody'.right.head (by omega) hsafe

end

/-! ## Functions -/

/-- Code that counts as ending with a return leads nowhere behind itself. -/
theorem reaches_lt_length {code : List Instruction} {i : Instruction} {ip ip' : Nat}
    (hends : Draft.endsWithReturn code = true) (hi : code[ip]? = some i) (h : Reaches i ip ip') :
    ip' < code.length := by
  obtain ⟨hlast, hjumps⟩ := Bool.and_eq_true_iff.1 hends
  obtain ⟨hlt, hget⟩ := List.getElem?_eq_some_iff.1 hi
  rcases h with ⟨hret, -, rfl⟩ | ⟨hjump, rfl⟩
  · -- Only the last instruction is followed by nothing, and that one returns.
    refine Nat.lt_of_le_of_ne hlt fun hend => hret ?_
    have hilast : code.getLast? = some i := by
      rw [List.getLast?_eq_getElem?, ← hend, Nat.add_sub_cancel, hi]
    simpa [hilast] using hlast
  · have hmem : i ∈ code := hget ▸ List.getElem_mem hlt
    rw [Bool.not_eq_true', List.any_eq_false] at hjumps
    simpa [hjump] using hjumps i hmem

/-- Behind code that counts as ending with a return there need not be anything. -/
theorem Program.Safe.within {code : List Instruction} (hcode : p.HasCode id 0 code)
    (hends : Draft.endsWithReturn code = true)
    (h : p.Safe id (fun ip _ => ip = code.length) 0 []) : p.Forever id 0 [] := by
  obtain ⟨R, hstart, hR⟩ := h
  have hpos : 0 < code.length := by
    refine List.length_pos_iff.2 ?_
    rintro rfl
    simp [Draft.endsWithReturn] at hends
  refine ⟨fun ip shape => R ip shape ∧ ip < code.length, ⟨hstart, hpos⟩,
    fun ip shape ⟨hip, hlt⟩ => .inr ?_⟩
  obtain ⟨i, hi, hleads⟩ := (hR ip shape hip).resolve_left (Nat.ne_of_lt hlt)
  have hget := hcode ip _ (List.getElem?_eq_getElem hlt)
  rw [Nat.zero_add, hi, ← List.getElem?_eq_getElem hlt] at hget
  exact ⟨i, hi, hleads.mono fun ip' shape' hreaches hip' =>
    ⟨hip', reaches_lt_length hends hget.symm hreaches⟩⟩

end Stmt

namespace Script

variable {s : Script} {p : Program} {id : Nat}

/-- The number of a function is one of the program. -/
theorem Compiled.functionId?_lt (hs : s.Compiled p) {name : String} {n : Nat}
    (h : s.functionId? name = some n) : n < p.functions.size := by
  obtain ⟨hlt, -⟩ := List.idxOf?_eq_some_iff.1 h
  rw [hs.size]
  simpa using hlt

/-- All functions of a compiled script are safe. -/
theorem Compiled.safe (hs : s.Compiled p) (hp : p.Fits) (hid : id < p.functions.size) :
    p.Forever id 0 [] := by
  rw [hs.size] at hid
  obtain ⟨code, slots', hcode, hbody⟩ := hs.code id _ (List.getElem?_eq_getElem hid)
  have hsize : (Draft.completed code).length < 4294967296 := by
    simpa [Body.ofCode] using (hp.bodies id _ hbody).1
  have hplaced := Program.hasCode_ofCode hbody
  have hids : ∀ name n, s.functionId? name = some n → n < p.functions.size := fun _ _ =>
    hs.functionId?_lt
  unfold Draft.completed at hsize hplaced
  split at hsize
  · -- No return was added, since no control comes out of the code.
    next hends =>
    rw [if_pos hends] at hplaced
    refine Program.Safe.within hplaced hends ?_
    exact stmtsCode_safe hp hids _ hcode hplaced (by omega) (.of_out (Nat.zero_add _))
  · next hends =>
    rw [if_neg hends] at hplaced
    rw [List.length_append] at hsize
    refine stmtsCode_safe hp hids _ hcode hplaced.left (by omega) (.intro ?_)
    exact checked_giveUnit hplaced.right

end Script

end ScriptMachine
