import ScriptMachine.Proofs.Run
import ScriptMachine.Proofs.Scopes

/-!
# Code does what its tree means

A process that executes the code of a tree goes along with the evaluation of the
tree (`Process.Follows`): where evaluation is done, it arrives behind the code with
the same value; where evaluation is a fault, it comes to the same fault; and where
the fuel of evaluation was used up, it has made at least as many steps.

* `eval_follows`: the code of an expression, which leaves its value on the stack.
* `exec_follows`: the code of a statement. Whatever lies on the stack stays there,
  and the results of calls that stand as statements are added to it, so nothing is
  said about the stack.
* `execAll_fallsOff`: code whose last instruction returns is never left at its end.

Functions that are called are a parameter here (`Process.Invokes`).
-/

namespace ScriptMachine

/-- The frame at another place and with another stack. -/
def Frame.moved (f : Frame) (ip : Nat) (stack : List Value) : Frame :=
  { f with ip := ip, stack := stack }

theorem operation?_opcode {op : BinaryOp} (h : op ≠ .notEquals) :
    op.opcode.operation? = some op.apply := by
  cases op <;> first | rfl | exact absurd rfl h

namespace Process

variable {host : Host Unit} {handle : Handle} {m n : Nat} {p q : Process} {α β : Type}

/-- A process goes along with an evaluation. After so many units of fuel, it has made
    as many steps at least. -/
def Follows (host : Host Unit) (handle : Handle) (n : Nat) (p : Process) (r : Result α)
    (post : α → Process → Prop) : Prop :=
  match r with
  | .done a => ∃ k q, Steps host handle k p q ∧ post a q
  | .fault e => Faults host handle p e
  | .unfinished => ∃ k q, n ≤ k ∧ Steps host handle k p q
  | .meaningless => False

section Follows

variable {r : Result α} {f : α → Result β} {post post' : α → Process → Prop}
  {postβ : β → Process → Prop}

theorem follows_done {a : α} (h : post a p) : Follows host handle n p (.done a) post :=
  ⟨0, p, .refl p, h⟩

theorem follows_fault {e : Fault} (hframes : p.frames ≠ [])
    (h : p.next host handle = .error (.fault e)) :
    Follows host handle n p (.fault e) post :=
  ⟨0, p, .refl p, hframes, h⟩

theorem Follows.mono (h : Follows host handle n p r post) (hmn : m ≤ n) :
    Follows host handle m p r post := by
  cases r with
  | done | fault | meaningless => exact h
  | unfinished =>
    obtain ⟨k, q, hk, hq⟩ := h
    exact ⟨k, q, Nat.le_trans hmn hk, hq⟩

/-- Going on by some steps where evaluation is done. -/
theorem Follows.extend (h : Follows host handle n p r post)
    (hpost : ∀ a q, post a q → ∃ k q', Steps host handle k q q' ∧ post' a q') :
    Follows host handle n p r post' := by
  cases r with
  | done a =>
    obtain ⟨k, q, hq, ha⟩ := h
    obtain ⟨l, q', hq', ha'⟩ := hpost a q ha
    exact ⟨_, q', hq.trans hq', ha'⟩
  | fault | unfinished | meaningless => exact h

theorem Follows.imp (h : Follows host handle n p r post) (hpost : ∀ a q, post a q → post' a q) :
    Follows host handle n p r post' :=
  h.extend fun a q ha => ⟨0, q, .refl q, hpost a q ha⟩

theorem Follows.ofSteps {k : Nat} (hk : Steps host handle k p q)
    (h : Follows host handle (n - k) q r post) : Follows host handle n p r post := by
  cases r with
  | done a =>
    obtain ⟨l, q', hl, ha⟩ := h
    exact ⟨_, q', hk.trans hl, ha⟩
  | fault e =>
    obtain ⟨l, q', hl, he⟩ := h
    exact ⟨_, q', hk.trans hl, he⟩
  | unfinished =>
    obtain ⟨l, q', hle, hl⟩ := h
    exact ⟨_, q', by omega, hk.trans hl⟩
  | meaningless => exact h

/-- One step makes up for one unit of fuel. -/
theorem Follows.next_pred (hnext : p.next host handle = .ok q)
    (h : Follows host handle (n - 1) q r post) : Follows host handle n p r post :=
  .ofSteps (.single hnext) h

theorem Follows.next (hnext : p.next host handle = .ok q) (h : Follows host handle n q r post) :
    Follows host handle n p r post :=
  .next_pred hnext (h.mono (Nat.sub_le n 1))

/-- Going along with one evaluation and then with another one. -/
theorem Follows.bind_of_eq (h : Follows host handle n p r post)
    (hf : ∀ a q, r = .done a → post a q → Follows host handle n q (f a) postβ) :
    Follows host handle n p (r >>= f) postβ := by
  cases r with
  | done a =>
    obtain ⟨k, q, hk, ha⟩ := h
    exact .ofSteps hk ((hf a q rfl ha).mono (Nat.sub_le n k))
  | fault | unfinished | meaningless => exact h

theorem Follows.bind (h : Follows host handle n p r post)
    (hf : ∀ a q, post a q → Follows host handle n q (f a) postβ) :
    Follows host handle n p (r >>= f) postβ :=
  h.bind_of_eq fun a q _ => hf a q

end Follows

/-- A process that enters a function goes along with its invocation, and is given
    the value in the end. -/
def Invokes (host : Host Unit) (handle : Handle) (n : Nat) (p : Process) (id : Nat)
    (args : List Value) (r : Result Value) : Prop :=
  match p.entered id args with
  | .error e => r = .fault e
  | .ok callee =>
    Follows host handle n (p.onFrames (callee :: p.frames)) r fun v q => q = p.deliver v

/-! ## Single instructions -/

variable {rest : List Frame} {f : Frame} {i : Instruction} {v w : Value} {stack : List Value}

theorem push_follows {x : Except Fault Value} (hp : p.Quiet)
    (hi : p.program.instruction? f.function f.ip = some i) (hx : p.pushed? f i = some x) :
    Follows host handle n (p.onFrames (f :: rest)) (.ofExcept x) fun v q =>
      q = p.onFrames (f.moved (f.ip + 1) (v :: f.stack) :: rest) := by
  cases x with
  | ok v => exact .next (next_push hp hi hx) (follows_done rfl)
  | error e => exact follows_fault (List.cons_ne_nil f rest) (next_push_fault hi hx)

theorem operation_follows {op : Value → Value → Except Fault Value} (hp : p.Quiet)
    (hi : p.program.instruction? f.function f.ip = some i) (hop : i.opcode.operation? = some op)
    (hf : f.stack = w :: v :: stack) :
    Follows host handle n (p.onFrames (f :: rest)) (.ofExcept (op v w)) fun u q =>
      q = p.onFrames (f.moved (f.ip + 1) (u :: stack) :: rest) := by
  cases hu : op v w with
  | ok u => exact .next (next_operation hp hi hop hf hu) (follows_done rfl)
  | error e => exact follows_fault (List.cons_ne_nil f rest) (next_operation_fault hi hop hf hu)

theorem not_follows (hp : p.Quiet) (hi : p.program.instruction? f.function f.ip = some i)
    (hop : i.opcode = .not) (hf : f.stack = v :: stack) :
    Follows host handle n (p.onFrames (f :: rest)) (.ofExcept v.not) fun u q =>
      q = p.onFrames (f.moved (f.ip + 1) (u :: stack) :: rest) := by
  cases hu : v.not with
  | ok u => exact .next (next_not hp hi hop hf hu) (follows_done rfl)
  | error e => exact follows_fault (List.cons_ne_nil f rest) (next_not_fault hi hop hf hu)

/-- The instructions of an operator. -/
theorem binaryOp_follows {op : BinaryOp} {ip : Nat} (hp : p.Quiet)
    (hcode : p.program.HasCode f.function f.ip op.code) (hip : ip = f.ip + op.code.length)
    (hf : f.stack = w :: v :: stack) :
    Follows host handle n (p.onFrames (f :: rest)) (.ofExcept (op.apply v w)) fun u q =>
      q = p.onFrames (f.moved ip (u :: stack) :: rest) := by
  subst hip
  by_cases hop : op = .notEquals
  · subst hop
    exact .next (next_operation hp hcode.head rfl hf rfl)
      (not_follows (f := f.moved (f.ip + 1) (v.equals w :: stack)) hp hcode.tail.head rfl rfl)
  · have hcode' : op.code = [.bare op.opcode] := by rw [BinaryOp.code, if_neg hop]
    rw [hcode'] at hcode ⊢
    exact operation_follows hp hcode.head (operation?_opcode hop) hf

/-- A conditional jump goes along with a test. -/
theorem jumpUnless_follows {target : Nat} (hp : p.Quiet)
    (hi : p.program.instruction? f.function f.ip = some (.ofNat .jumpUnless target))
    (htarget : target < 4294967296) (hf : f.stack = v :: stack) :
    Follows host handle n (p.onFrames (f :: rest)) (Expr.truth v) fun b q =>
      q = p.onFrames (f.moved (if b then f.ip + 1 else target) stack :: rest) := by
  cases v with
  | boolean b =>
    have hindex : (Instruction.ofNat .jumpUnless target).index = target :=
      Instruction.index_ofNat _ htarget
    refine .next (next_jumpUnless hp hi rfl hf) (follows_done ?_)
    rw [hindex]
    rfl
  | int | float | string | functionRef | unit =>
    exact follows_fault (List.cons_ne_nil f rest)
      (next_jumpUnless_fault hi rfl hf (by simp [Value.type]))

/-- A call goes along with an invocation. -/
theorem call_follows {call : Nat → List Value → Result Value} {args : List Value} (hp : p.Quiet)
    (hcall : ∀ caller id args, Invokes host handle (n - 1) (p.onFrames (caller :: rest)) id args
      (call id args))
    (hi : p.program.instruction? f.function f.ip = some (.ofNat .call args.length))
    (hargs : args.length < 4294967296) (hf : f.stack = v :: (args.reverse ++ stack)) :
    Follows host handle n (p.onFrames (f :: rest)) (Expr.apply call v args) fun u q =>
      q = p.onFrames (f.moved (f.ip + 1) (u :: stack) :: rest) := by
  cases v with
  | functionRef id =>
    have hindex : args.length = (Instruction.ofNat .call args.length).index :=
      (Instruction.index_ofNat _ hargs).symm
    have hinvokes := hcall (f.moved (f.ip + 1) stack) id args
    unfold Invokes at hinvokes
    cases hentered : (p.onFrames (f.moved (f.ip + 1) stack :: rest)).entered id args with
    | error e =>
      rw [hentered] at hinvokes
      rw [Expr.apply, hinvokes]
      exact follows_fault (List.cons_ne_nil f rest)
        (next_call_enter_fault hi rfl hf hindex ((entered_onFrames rfl id args).trans hentered))
    | ok callee =>
      rw [hentered] at hinvokes
      exact .next_pred
        (next_call hp hi rfl hf hindex ((entered_onFrames rfl id args).trans hentered)) hinvokes
  | int | float | string | boolean | unit =>
    exact follows_fault (List.cons_ne_nil f rest) (next_call_fault hi rfl hf (by simp [Value.type]))

/-! ## Expressions -/

/-- A process can execute code of a script: its numbers fit into instructions. -/
structure Runs (s : Script) (p : Process) : Prop where
  quiet : p.Quiet
  strings : p.program.strings.size ≤ 4294967296
  functions : s.functions.length ≤ 4294967296

section Expr

variable {s : Script} {slots : Slots} {a : Activation} {call : Nat → List Value → Result Value}

theorem pushed?_literal {l : Literal} (hp : Runs s p)
    (h : LiteralCode p.program.strings l i) : p.pushed? f i = some (.ok l.value) := by
  cases l with
  | int n =>
    obtain rfl := h
    simp [pushed?, Instruction.int_ofInt, Literal.value]
  | float x =>
    obtain rfl := h
    simp [pushed?, Instruction.float_ofFloat, Literal.value]
  | bool b =>
    obtain rfl := h
    simp only [pushed?, Instruction.opcode_ofNat, Instruction.data_ofBool, Literal.value]
  | text t =>
    obtain ⟨id, hid, rfl⟩ := h
    obtain ⟨hlt, -⟩ := Array.getElem?_eq_some_iff.1 hid
    have hindex : (Instruction.ofNat .pushString id).index = id :=
      Instruction.index_ofNat _ (Nat.lt_of_lt_of_le hlt hp.strings)
    simp only [pushed?, Instruction.opcode_ofNat, hindex, string, Program.string?, hid, Literal.value]
    rfl

/-- Reading the slot of a name is reading the name. -/
theorem pushed?_getLocal {x : String} {slot : Nat} (hx : a.Sees slots f.locals x)
    (hslot : slots.resolve x = some slot) :
    ∃ r, p.pushed? f (.ofNat .getLocal slot) = some r ∧ a.read x = .ofExcept r := by
  rw [hx.resolve, Option.map_eq_some_iff] at hslot
  obtain ⟨var, hvar, rfl⟩ := hslot
  have hindex : (Instruction.ofNat .getLocal var.number).index = var.number :=
    Instruction.index_ofNat _ (hx.bounded var hvar)
  have hvalue := hx.value var hvar
  refine ⟨_, rfl, ?_⟩
  simp only [Activation.read, hvar, Result.ofOption, Result.done_bind, getLocal, onFrames_frames,
    hindex, ← hvalue, slotValue]
  rcases f.locals[var.number]? with _ | _ | v
  · rfl
  · rfl
  · rfl

theorem functionId_lt (hp : Runs s p) {name : String} {id : Nat} (hid : s.functionId? name = some id) :
    id < 4294967296 := by
  obtain ⟨hlt, -⟩ := List.idxOf?_eq_some_iff.1 hid
  rw [List.length_map] at hlt
  exact Nat.lt_of_lt_of_le hlt hp.functions

theorem pushed?_pushFunction (hp : Runs s p) {name : String} {id : Nat}
    (hid : s.functionId? name = some id) :
    p.pushed? f (.ofNat .pushFunction id) = some (.ok (.functionRef id)) := by
  simp [pushed?, Instruction.index_ofNat _ (functionId_lt hp hid)]

/-- The name of a callee is looked up by one instruction. -/
theorem pushed?_callee {name : String} {tail : List Instruction} {argCount : Nat} (hp : Runs s p)
    (h : CalleeCode s.functionId? p.program.strings slots argCount .internal name tail)
    (hname : s.functionId? name = none → a.Sees slots f.locals name) :
    ∃ i r, tail = [i, .ofNat .call argCount] ∧ p.pushed? f i = some r ∧
      Expr.callee s a name = .ofExcept r := by
  cases h with
  | ofFunction hid =>
    refine ⟨_, _, rfl, pushed?_pushFunction hp hid, ?_⟩
    rw [Expr.callee, hid]
    rfl
  | ofVariable hid hslot =>
    obtain ⟨r, hr, hread⟩ := pushed?_getLocal (p := p) (hname hid) hslot
    exact ⟨_, r, rfl, hr, by rw [Expr.callee, hid, ← hread]⟩

/-- The instructions of a call. -/
theorem callee_follows {name : String} {tail : List Instruction} {args : List Value} {ip : Nat}
    (hp : Runs s p)
    (hcall : ∀ caller id args, Invokes host handle (n - 1) (p.onFrames (caller :: rest)) id args
      (call id args))
    (h : CalleeCode s.functionId? p.program.strings slots args.length .internal name tail)
    (hcode : p.program.HasCode f.function f.ip tail) (hip : ip = f.ip + tail.length)
    (hargs : args.length < 4294967296)
    (hname : s.functionId? name = none → a.Sees slots f.locals name)
    (hf : f.stack = args.reverse ++ stack) :
    Follows host handle n (p.onFrames (f :: rest))
      (Expr.callee s a name >>= fun g => Expr.apply call g args) fun v q =>
        q = p.onFrames (f.moved ip (v :: stack) :: rest) := by
  obtain ⟨i, r, rfl, hr, hcallee⟩ := pushed?_callee hp h hname
  subst hip
  rw [hcallee]
  refine .bind (push_follows hp.quiet hcode.head hr) fun g q hq => ?_
  subst hq
  exact call_follows hp.quiet hcall hcode.tail.head hargs (by rw [← hf]; rfl)

mutual

/-- The code of an expression pushes its value. -/
theorem eval_follows (hp : Runs s p)
    (hcall : ∀ caller id args, Invokes host handle (n - 1) (p.onFrames (caller :: rest)) id args
      (call id args)) :
    (e : Expr) → {f : Frame} → {code : List Instruction} → {ip : Nat} → e.hostFree = true →
    ExprCode s.functionId? p.program.strings slots e code →
    p.program.HasCode f.function f.ip code → ip = f.ip + code.length → code.length < 4294967296 →
    (∀ x ∈ e.reads s, a.Sees slots f.locals x) →
    Follows host handle n (p.onFrames (f :: rest)) (e.eval s call a) fun v q =>
      q = p.onFrames (f.moved ip (v :: f.stack) :: rest)
  | .literal l, f, _, _, _, .literal h, hcode, rfl, _, _ => by
    rw [Expr.eval]
    exact push_follows hp.quiet hcode.head (pushed?_literal hp h)
  | .ident x, f, _, _, _, .ident hslot, hcode, rfl, _, hreads => by
    obtain ⟨r, hr, hread⟩ := pushed?_getLocal (hreads x (by simp [Expr.reads])) hslot
    rw [Expr.eval, hread]
    exact push_follows hp.quiet hcode.head hr
  | .functionRef x, f, _, _, _, .functionRef hid, hcode, rfl, _, _ => by
    rw [Expr.eval, hid]
    exact push_follows hp.quiet hcode.head (pushed?_pushFunction hp hid)
  | .call .internal x args, f, _, _, hfree, .call hargs htail, hcode, hip, hsize, hreads => by
    rw [Expr.eval]
    rw [Expr.hostFree] at hfree
    rw [List.length_append] at hsize hip
    have hcount := hargs.length_le
    refine .bind (evalAll_follows hp hcall args hfree hargs hcode.left rfl (by omega)
      fun y hy => hreads y (by rw [Expr.reads]; exact List.mem_append_left _ hy))
        fun vs q ⟨hlength, hq⟩ => ?_
    subst hq
    rw [← hlength] at htail hcount
    refine callee_follows hp hcall htail hcode.right (by rw [hip, ← Nat.add_assoc]; rfl) (by omega)
      (fun hid => hreads x ?_) rfl
    rw [Expr.reads, hid]
    exact List.mem_append_right _ (by simp)
  | .binary op left right, f, _, _, hfree, .binary hleft hright, hcode, hip, hsize, hreads => by
    rw [Expr.hostFree, Bool.and_eq_true] at hfree
    simp only [List.length_append] at hsize hip
    rw [Expr.eval]
    refine .bind (eval_follows hp hcall left hfree.1 hleft hcode.left rfl (by omega)
      fun y hy => hreads y (by rw [Expr.reads]; exact List.mem_append_left _ hy))
        fun v q hq => ?_
    subst hq
    refine .bind (eval_follows hp hcall right hfree.2 hright hcode.right.left rfl (by omega)
      fun y hy => hreads y (by rw [Expr.reads]; exact List.mem_append_right _ hy))
        fun w q hq => ?_
    subst hq
    exact binaryOp_follows hp.quiet hcode.right.right
      (by rw [hip, ← Nat.add_assoc, ← Nat.add_assoc]; rfl) rfl
  | .not e, f, _, _, hfree, .not he, hcode, hip, hsize, hreads => by
    rw [Expr.hostFree] at hfree
    rw [List.length_append] at hsize hip
    rw [Expr.eval]
    refine .bind (eval_follows hp hcall e hfree he hcode.left rfl (by omega)
      fun y hy => hreads y (by rwa [Expr.reads])) fun v q hq => ?_
    subst hq hip
    exact not_follows hp.quiet hcode.right.head rfl rfl
  | .negate e, f, _, _, hfree, .negate he, hcode, hip, hsize, hreads => by
    rw [Expr.hostFree] at hfree
    rw [List.length_append] at hsize hip
    rw [Expr.eval]
    refine .bind (eval_follows hp hcall e hfree he hcode.left rfl (by omega)
      fun y hy => hreads y (by rwa [Expr.reads])) fun v q hq => ?_
    subst hq hip
    -- Minus one is pushed, and the value is multiplied with it.
    refine .next (next_push hp.quiet hcode.right.head rfl) ?_
    exact operation_follows hp.quiet hcode.right.tail.head rfl rfl

theorem evalAll_follows (hp : Runs s p)
    (hcall : ∀ caller id args, Invokes host handle (n - 1) (p.onFrames (caller :: rest)) id args
      (call id args)) :
    (es : List Expr) → {f : Frame} → {code : List Instruction} → {ip : Nat} →
    Expr.allHostFree es = true → ExprsCode s.functionId? p.program.strings slots es code →
    p.program.HasCode f.function f.ip code → ip = f.ip + code.length → code.length < 4294967296 →
    (∀ x ∈ Expr.allReads s es, a.Sees slots f.locals x) →
    Follows host handle n (p.onFrames (f :: rest)) (Expr.evalAll s call a es) fun vs q =>
      vs.length = es.length ∧ q = p.onFrames (f.moved ip (vs.reverse ++ f.stack) :: rest)
  | [], f, _, _, _, .nil, _, rfl, _, _ => follows_done ⟨rfl, rfl⟩
  | e :: es, f, _, _, hfree, .cons he hes, hcode, hip, hsize, hreads => by
    rw [Expr.allHostFree, Bool.and_eq_true] at hfree
    rw [List.length_append] at hsize hip
    rw [Expr.evalAll]
    refine .bind (eval_follows hp hcall e hfree.1 he hcode.left rfl (by omega)
      fun y hy => hreads y (by rw [Expr.allReads]; exact List.mem_append_left _ hy))
        fun v q hq => ?_
    subst hq
    refine .bind (evalAll_follows hp hcall es hfree.2 hes hcode.right rfl (by omega)
      fun y hy => hreads y (by rw [Expr.allReads]; exact List.mem_append_right _ hy))
        fun vs q ⟨hlength, hq⟩ => ?_
    subst hq
    refine follows_done ⟨by rw [List.length_cons, hlength, List.length_cons], ?_⟩
    rw [hip, ← Nat.add_assoc, List.reverse_cons, List.append_assoc]
    rfl

end

end Expr

/-! ## Statements -/

/-- A process can execute the body of a function with `params` parameters that
    introduces `decls`. -/
structure RunsBody (s : Script) (p : Process) (id params : Nat) (decls : List (String × Expr)) :
    Prop extends Runs s p where
  numbers : params + decls.length < 4294967296
  slots : ∀ ip i, p.program.instruction? id ip = some i → i.opcode = .setLocal →
    i.index < maxLocals

section Stmt

variable {s : Script} {id params : Nat} {decls : List (String × Expr)} {slots slots' : Slots}
  {a : Activation} {call : Nat → List Value → Result Value}

/-- Where statements lead: behind their code, with slots that match what was
    assigned, or out of the function. -/
def Arrives (s : Script) (params : Nat) (decls : List (String × Expr)) (p : Process)
    (rest : List Frame) (id ip : Nat) (slots : Slots) : Flow → Process → Prop
  | .next a, q => ∃ f, q = p.onFrames (f :: rest) ∧ f.function = id ∧ f.ip = ip ∧
      a.Matches s params decls slots f.locals
  | .returned v, q => q = (p.onFrames rest).deliver v

theorem Arrives.mono {ip : Nat} {flow : Flow}
    (h : Arrives s params decls p rest id ip slots flow q)
    (hblocks : slots'.blocks = slots.blocks) (hnext : slots.next ≤ slots'.next) :
    Arrives s params decls p rest id ip slots' flow q := by
  cases flow with
  | returned => exact h
  | next a =>
    obtain ⟨f, hq, hid, hip, hmatches⟩ := h
    exact ⟨f, hq, hid, hip, hmatches.mono hblocks hnext⟩

/-- What stands in a block of its own leads to where it leads without one. -/
theorem inScope_follows {body : Activation → Result Flow} {ip : Nat} {inner block : Table String Nat}
    {outer : List (Table String Nat)}
    (h : Follows host handle n q (body a.enterScope)
      (Arrives s params decls p rest id ip slots))
    (hslots : slots.blocks = inner :: block :: outer) :
    Follows host handle n q (Flow.inScope body a)
      (Arrives s params decls p rest id ip slots.leaveBlock) := by
  refine .bind h fun flow q' hflow => ?_
  cases flow with
  | returned v => exact follows_done hflow
  | next a' =>
    obtain ⟨f, hq, hid, hip, hmatches⟩ := hflow
    exact follows_done ⟨f, hq, hid, hip, hmatches.leaveScope hslots⟩

/-- The code of a condition, with the jump behind it. -/
theorem test_follows {c : Expr} {test : List Instruction} {start target : Nat} (hp : Runs s p)
    (hcall : ∀ caller id args, Invokes host handle (n - 1) (p.onFrames (caller :: rest)) id args
      (call id args))
    (hfree : c.hostFree = true) (hc : ExprCode s.functionId? p.program.strings slots c test)
    (hcode : p.program.HasCode id start (test ++ [.ofNat .jumpUnless target]))
    (hsize : test.length < 4294967296) (htarget : target < 4294967296) (hid : f.function = id)
    (hip : f.ip = start) (hreads : ∀ x ∈ c.reads s, a.Sees slots f.locals x) :
    Follows host handle n (p.onFrames (f :: rest)) (c.test s call a) fun b q =>
      q = p.onFrames (f.moved (if b then start + test.length + 1 else target) f.stack :: rest) := by
  subst hid hip
  refine .bind (eval_follows hp hcall c hfree hc hcode.left rfl hsize hreads) fun v q hq => ?_
  subst hq
  exact jumpUnless_follows hp.quiet hcode.right.head htarget rfl

/-- A loop. Each time around there is at least one jump, which makes up for the fuel. -/
theorem whileTrue_follows {test : Activation → Result Bool} {body : Activation → Result Flow}
    {start inside back stop : Nat} (hp : p.Quiet)
    (htest : ∀ {f : Frame} {a : Activation}, f.function = id → f.ip = start →
      a.Matches s params decls slots f.locals →
      Follows host handle n (p.onFrames (f :: rest)) (test a) fun b q =>
        q = p.onFrames (f.moved (if b then inside else stop) f.stack :: rest))
    (hbody : ∀ {f : Frame} {a : Activation}, f.function = id → f.ip = inside →
      a.Matches s params decls slots f.locals →
      Follows host handle n (p.onFrames (f :: rest)) (body a)
        (Arrives s params decls p rest id back slots'))
    (hback : p.program.instruction? id back = some (.ofNat .jump start))
    (hstart : start < 4294967296) (hblocks : slots.blocks = slots'.blocks)
    {fuel : Nat} (hfuel : fuel ≤ n) {f : Frame} {a : Activation} (hid : f.function = id)
    (hip : f.ip = start) (hmatches : a.Matches s params decls slots f.locals) :
    Follows host handle fuel (p.onFrames (f :: rest)) (Flow.whileTrue test body fuel a)
      (Arrives s params decls p rest id stop slots) := by
  induction fuel generalizing f a with
  | zero => exact ⟨0, _, Nat.le_refl 0, .refl _⟩
  | succ fuel ih =>
    rw [Flow.whileTrue]
    refine .bind ((htest hid hip hmatches).mono hfuel) fun b q hq => ?_
    subst hq
    cases b with
    | false => exact follows_done ⟨_, rfl, hid, rfl, hmatches⟩
    | true =>
      refine .bind ((hbody (f := f.moved inside f.stack) hid rfl hmatches).mono hfuel) fun flow q hflow => ?_
      cases flow with
      | returned v => exact follows_done hflow
      | next a' =>
        obtain ⟨f', rfl, rfl, rfl, hmatches'⟩ := hflow
        have hindex : (Instruction.ofNat .jump start).index = start :=
          Instruction.index_ofNat _ hstart
        refine .next_pred (next_jump hp hback rfl) ?_
        rw [hindex]
        exact ih (Nat.le_of_succ_le hfuel) rfl rfl (hmatches.restore hmatches' hblocks)

theorem RunsBody.sees {f : Frame} {ds : List (String × Expr)} (hp : RunsBody s p id params decls)
    (hmatches : a.Matches s params decls slots f.locals)
    (hintro : Activation.Introduces params decls slots.next ds) (x : String) :
    a.Sees slots f.locals x := by
  have := hintro.le
  have := hp.numbers
  exact hmatches.sees (by omega) x

mutual

/-- The code of a statement does what the statement does. -/
theorem exec_follows (hp : RunsBody s p id params decls)
    (hcall : ∀ caller id args, Invokes host handle (n - 1) (p.onFrames (caller :: rest)) id args
      (call id args)) :
    (stmt : Stmt) → {f : Frame} → {a : Activation} → {slots slots' : Slots} → {start : Nat} →
    {code : List Instruction} → stmt.hostFree = true →
    StmtCode s.functionId? p.program.strings slots start stmt code slots' →
    p.program.HasCode id start code → start + code.length < 4294967296 → f.function = id →
    f.ip = start → a.Matches s params decls slots f.locals →
    Activation.Introduces params decls slots.next (stmt.declarations a.bound) →
    Follows host handle n (p.onFrames (f :: rest)) (stmt.exec s call n slots.next a)
      (Arrives s params decls p rest id (start + code.length) slots')
  | .assign x e, f, a, slots, slots', start, _, hfree, .assign hslot he, hcode, hsize, hid, hip,
      hmatches, hintro => by
    rw [Stmt.hostFree] at hfree
    rw [List.length_append, List.length_singleton] at hsize ⊢
    subst hid hip
    rw [Stmt.exec]
    refine .bind_of_eq (eval_follows hp.toRuns hcall e hfree he hcode.left rfl (by omega)
      fun y hy => hmatches.sees_declare hslot hintro hp.numbers hy) fun v q heval hq => ?_
    subst hq
    have hset := hcode.right.head
    have hindex := Instruction.index_ofNat .setLocal (hmatches.slot_lt hslot hintro hp.numbers)
    refine .next (next_setLocal hp.quiet hset rfl rfl (hp.slots _ _ hset rfl)) ?_
    rw [hindex]
    -- Evaluation came to a value, so everything that it reads has one.
    exact follows_done ⟨_, rfl, rfl, rfl,
      hmatches.assign hslot hintro (fun hx => Expr.eval_reads e heval x hx) v⟩
  | .loop c body, f, a, slots, _, start, _, hfree, @StmtCode.loop _ _ _ slots' _ _ _ test code hc hbody,
      hcode, hsize, hid, hip, hmatches, hintro => by
    rw [Stmt.hostFree, Bool.and_eq_true] at hfree
    rw [Stmt.declarations] at hintro
    obtain ⟨block, outer, hblocks, -⟩ := hmatches.exists_block
    obtain ⟨inner, hinner, hnext⟩ := StmtsCode.slots_eq body hbody (congrArg ([] :: ·) hblocks)
    have hleave := Slots.leaveBlock_eq hinner
    -- The test with its jump, and behind it the body with the jump back.
    rw [List.append_cons] at hcode
    have hinside := hcode.right
    rw [List.length_append, List.length_singleton, ← Nat.add_assoc] at hinside
    rw [stop_of_guarded] at hsize
    have htest : ∀ {f : Frame} {a : Activation}, f.function = id → f.ip = start →
        a.Matches s params decls slots f.locals →
        Follows host handle n (p.onFrames (f :: rest)) (c.test s call a) fun b q =>
          q = p.onFrames (f.moved (if b then start + test.length + 1
            else start + test.length + 1 + code.length + 1) f.stack :: rest) := by
      intro f a hid hip hmatches
      exact test_follows hp.toRuns hcall hfree.1 hc hcode.left (by omega) (by omega) hid hip
        fun y _ => hp.sees hmatches hintro y
    have hround : ∀ {f : Frame} {a : Activation}, f.function = id → f.ip = start + test.length + 1 →
        a.Matches s params decls slots f.locals →
        Follows host handle n (p.onFrames (f :: rest))
          (Flow.inScope (Stmt.execAll s call n body slots.next) a)
          (Arrives s params decls p rest id (start + test.length + 1 + code.length)
            slots'.leaveBlock) := by
      intro f a hid hip hmatches
      have hstmts := execAll_follows hp hcall body hfree.2 hbody hinside.left (by omega) hid hip
        hmatches.enterScope hintro
      exact inScope_follows hstmts hinner
    rw [stop_of_guarded, Stmt.exec]
    refine (whileTrue_follows hp.quiet htest hround hinside.right.head (by omega) ?_ (Nat.le_refl n)
      hid hip hmatches).imp fun flow q hflow => hflow.mono ?_ ?_
    · rw [hleave, hblocks]
    · rw [hleave, hblocks]
    · rw [hleave]
      exact hnext ▸ Nat.le_add_right _ _
  | .choose branches, f, a, slots, slots', start, code, hfree, .choose h, hcode, hsize, hid, hip,
      hmatches, hintro => by
    rw [Stmt.hostFree] at hfree
    rw [Stmt.declarations] at hintro
    rw [Stmt.exec]
    exact execBranches_follows hp hcall branches hfree h hcode hsize hid hip hmatches hintro
  | .call .internal x args, f, a, slots, _, start, _, hfree, .call hargs htail, hcode, hsize, hid,
      hip, hmatches, hintro => by
    subst hid hip
    rw [Stmt.exec]
    refine .bind (eval_follows hp.toRuns hcall _ hfree (.call hargs htail) hcode rfl (by omega)
      fun y _ => hp.sees hmatches hintro y) fun v q hq => ?_
    exact follows_done ⟨_, hq, rfl, rfl, hmatches⟩
  | .give none, f, a, slots, _, start, _, _, .giveUnit, hcode, _, hid, hip, _, _ => by
    subst hid hip
    rw [Stmt.exec]
    refine .next (next_push hp.quiet hcode.head rfl) ?_
    exact .next (next_ret hp.quiet hcode.tail.head rfl rfl) (follows_done rfl)
  | .give (some e), f, a, slots, _, start, _, hfree, .give he, hcode, hsize, hid, hip, hmatches,
      hintro => by
    rw [Stmt.hostFree] at hfree
    rw [List.length_append] at hsize
    subst hid hip
    rw [Stmt.exec]
    refine .bind (eval_follows hp.toRuns hcall e hfree he hcode.left rfl (by omega)
      fun y _ => hp.sees hmatches hintro y) fun v q hq => ?_
    subst hq
    exact .next (next_ret hp.quiet hcode.right.head rfl rfl) (follows_done rfl)

theorem execAll_follows (hp : RunsBody s p id params decls)
    (hcall : ∀ caller id args, Invokes host handle (n - 1) (p.onFrames (caller :: rest)) id args
      (call id args)) :
    (stmts : List Stmt) → {f : Frame} → {a : Activation} → {slots slots' : Slots} → {start : Nat} →
    {code : List Instruction} → Stmt.allHostFree stmts = true →
    StmtsCode s.functionId? p.program.strings slots start stmts code slots' →
    p.program.HasCode id start code → start + code.length < 4294967296 → f.function = id →
    f.ip = start → a.Matches s params decls slots f.locals →
    Activation.Introduces params decls slots.next (Stmt.allDeclarations a.bound stmts) →
    Follows host handle n (p.onFrames (f :: rest)) (Stmt.execAll s call n stmts slots.next a)
      (Arrives s params decls p rest id (start + code.length) slots')
  | [], f, a, slots, _, start, _, _, .nil, _, _, hid, hip, hmatches, _ => by
    rw [Stmt.execAll]
    exact follows_done ⟨f, rfl, hid, hip, hmatches⟩
  | stmt :: stmts, f, a, slots, slots'', start, _, hfree, .cons h hs, hcode, hsize, hid, hip,
      hmatches, hintro => by
    rw [Stmt.allHostFree, Bool.and_eq_true] at hfree
    rw [Stmt.allDeclarations] at hintro
    rw [List.length_append, ← Nat.add_assoc] at hsize ⊢
    obtain ⟨block, outer, hblocks, hkeys⟩ := hmatches.exists_block
    obtain ⟨block', hblocks', hkeys', hnext⟩ := StmtCode.slots_eq stmt h hblocks
    rw [hkeys] at hkeys' hnext
    rw [Stmt.execAll]
    refine .bind (exec_follows hp hcall stmt hfree.1 h hcode.left (by omega) hid hip hmatches
      hintro.left) fun flow q hflow => ?_
    cases flow with
    | returned v => exact follows_done hflow
    | next a' =>
      obtain ⟨f', rfl, hid', hip', hmatches'⟩ := hflow
      -- The next statement finds the names that this one has bound.
      obtain ⟨block'', _, hblocks'', hbound⟩ := hmatches'.exists_block
      obtain ⟨rfl, -⟩ := List.cons.inj (hblocks'.symm.trans hblocks'')
      have hintro' := hintro.right
      rw [← hnext, ← hkeys', hbound] at hintro'
      dsimp only
      rw [← hnext]
      exact execAll_follows hp hcall stmts hfree.2 hs hcode.right hsize hid' hip' hmatches' hintro'

theorem execBranches_follows (hp : RunsBody s p id params decls)
    (hcall : ∀ caller id args, Invokes host handle (n - 1) (p.onFrames (caller :: rest)) id args
      (call id args)) :
    (branches : List Branch) → {f : Frame} → {a : Activation} → {slots slots' : Slots} →
    {start : Nat} → {code : List Instruction} → Stmt.branchesHostFree branches = true →
    BranchesCode s.functionId? p.program.strings slots start branches code slots' →
    p.program.HasCode id start code → start + code.length < 4294967296 → f.function = id →
    f.ip = start → a.Matches s params decls slots f.locals →
    Activation.Introduces params decls slots.next (Stmt.branchDeclarations branches) →
    Follows host handle n (p.onFrames (f :: rest)) (Stmt.execBranches s call n branches slots.next a)
      (Arrives s params decls p rest id (start + code.length) slots')
  | [.mk guard body], f, a, slots, _, start, _, hfree, .last hbody, hcode, hsize, hid, hip,
      hmatches, hintro => by
    have hfree' : Stmt.allHostFree body = true := by
      cases guard <;> simp_all [Stmt.branchesHostFree]
    rw [Stmt.branchDeclarations, Stmt.branchDeclarations, List.append_nil] at hintro
    obtain ⟨block, outer, hblocks, -⟩ := hmatches.exists_block
    obtain ⟨inner, hinner, -⟩ := StmtsCode.slots_eq body hbody (congrArg ([] :: ·) hblocks)
    rw [Stmt.execBranches]
    have hstmts := execAll_follows hp hcall body hfree' hbody hcode hsize hid hip
      hmatches.enterScope hintro
    exact inScope_follows hstmts hinner
  | .mk (.when c) body :: branch :: branches, f, a, slots, slots'', start, _, hfree,
      @BranchesCode.cons _ _ _ slots' _ _ _ _ _ _ test code codes hc hbody hrest, hcode, hsize, hid,
      hip, hmatches, hintro => by
    rw [Stmt.branchesHostFree, Bool.and_eq_true, Bool.and_eq_true] at hfree
    rw [Stmt.branchDeclarations] at hintro
    obtain ⟨block, outer, hblocks, -⟩ := hmatches.exists_block
    obtain ⟨inner, hinner, hnext⟩ := StmtsCode.slots_eq body hbody (congrArg ([] :: ·) hblocks)
    have hleave := Slots.leaveBlock_eq hinner
    obtain ⟨hblocks'', hnext''⟩ :=
      BranchesCode.slots_eq (branch :: branches) hrest (congrArg Slots.blocks hleave)
    -- The test with its jump, then the body with the jump behind everything, then the rest.
    rw [List.append_cons] at hcode
    have hinside := hcode.right
    rw [List.length_append, List.length_singleton, ← Nat.add_assoc] at hinside
    have hbehind := hinside.right.tail
    rw [stop_of_guarded] at hsize
    rw [stop_of_guarded, Stmt.execBranches]
    · refine .bind (test_follows hp.toRuns hcall hfree.1.1 hc hcode.left (by omega) (by omega) hid hip
        fun y _ => hp.sees hmatches hintro y) fun b q hq => ?_
      subst hq
      cases b with
      | true =>
        -- The body, and the jump behind all the branches.
        have hstmts : Follows host handle n
            (p.onFrames (f.moved (start + test.length + 1) f.stack :: rest))
            (Stmt.execAll s call n body slots.enterBlock.next a.enterScope)
            (Arrives s params decls p rest id (start + test.length + 1 + code.length) slots') :=
          execAll_follows hp hcall body hfree.1.2 hbody hinside.left (by omega) hid rfl
            hmatches.enterScope hintro.left
        refine (inScope_follows hstmts hinner).extend fun flow q hflow => ?_
        cases flow with
        | returned v => exact ⟨0, q, .refl q, hflow⟩
        | next a' =>
          obtain ⟨f', rfl, hid', hip', hmatches'⟩ := hflow
          have hindex := Instruction.index_ofNat .jump
            (show start + test.length + 1 + code.length + 1 + codes.length < 4294967296 by omega)
          have hjump : p.program.instruction? f'.function f'.ip = some (.ofNat .jump
              (start + test.length + 1 + code.length + 1 + codes.length)) := by
            rw [hid', hip']
            exact hinside.right.head
          refine ⟨1, _, .single (next_jump hp.quiet hjump rfl), _, rfl, hid', hindex,
            hmatches'.mono ?_ ?_⟩
          · rw [hblocks'', hleave]
          · rw [hnext'']
            exact Nat.le_add_right _ _
      | false =>
        -- The variables of the other branches are numbered after those of this one.
        have hintro' := hintro.right
        have hnext' : slots'.leaveBlock.next = slots.next + (Stmt.allDeclarations [] body).length := by
          rw [hleave]
          exact hnext
        rw [← hnext'] at hintro'
        rw [if_neg Bool.false_ne_true, ← hnext']
        refine execBranches_follows hp hcall (branch :: branches) hfree.2 hrest hbehind (by omega) hid
          rfl (hmatches.mono ?_ ?_) hintro'
        · rw [hleave, hblocks]
        · rw [hnext']
          exact Nat.le_add_right _ _
    · simp

end

end Stmt

end Process

/-! ## The end of a body -/

/-- Code can be left at its end: its last instruction does not return, or a jump leads
    behind it. -/
def FallsOff (code : List Instruction) (stop : Nat) : Prop :=
  (code.getLast?.any fun i => i.opcode == .ret) = false ∨
    ∃ i ∈ code, i.opcode.isJump ∧ i.index = stop

section FallsOff

variable {s : Script} {call : Nat → List Value → Result Value} {ids : String → Option Nat}
  {texts : Array String} {fuel stop : Nat} {code code' : List Instruction}

theorem fallsOff_concat {i : Instruction} (h : i.opcode ≠ .ret) : FallsOff (code ++ [i]) stop :=
  .inl (by simpa using h)

theorem FallsOff.append (h : FallsOff code' stop) (hne : code' ≠ []) :
    FallsOff (code ++ code') stop := by
  rcases h with hlast | ⟨i, hi, hjump⟩
  · obtain ⟨i, hi⟩ := Option.ne_none_iff_exists'.1 (mt List.getLast?_eq_none_iff.1 hne)
    refine .inl ?_
    rwa [List.getLast?_append, hi, Option.some_or, ← hi]
  · exact .inr ⟨i, List.mem_append_right code hi, hjump⟩

/-- Code that can be left at its end does not count as ending with a return. -/
theorem FallsOff.endsWithReturn_eq_false (h : FallsOff code code.length) :
    Draft.endsWithReturn code = false := by
  rw [Draft.endsWithReturn, Bool.and_eq_false_iff]
  rcases h with hlast | ⟨i, hi, hjump, hindex⟩
  · exact .inl hlast
  · refine .inr ?_
    rw [Bool.not_eq_false', List.any_eq_true]
    exact ⟨i, hi, by simp [hjump, hindex]⟩

theorem inScope_eq_next {body : Activation → Result Flow} {a a' : Activation}
    (h : Flow.inScope body a = .done (.next a')) :
    ∃ a'', body a.enterScope = .done (.next a'') := by
  obtain ⟨flow, hflow, h₁⟩ := Result.bind_eq_done h
  cases flow with
  | next a'' => exact ⟨a'', hflow⟩
  | returned v => simp at h₁

mutual

theorem exec_fallsOff : (stmt : Stmt) → {number start : Nat} → {a a' : Activation} →
    {slots slots' : Slots} → {code : List Instruction} →
    stmt.exec s call fuel number a = .done (.next a') →
    StmtCode ids texts slots start stmt code slots' → start + code.length < 4294967296 →
    FallsOff code (start + code.length)
  | .assign _ _, _, _, _, _, _, _, _, _, .assign _ _, _ => fallsOff_concat (by simp)
  | .loop _ _, _, _, _, _, _, _, _, _, .loop _ _, _ => by
    rw [List.append_cons, ← List.append_assoc]
    exact fallsOff_concat (by simp)
  | .choose branches, _, _, _, _, _, _, _, h, .choose hbranches, hsize => by
    rw [Stmt.exec] at h
    exact execBranches_fallsOff branches h hbranches hsize
  | .call _ _ _, _, _, _, _, _, _, _, _, .call _ htail, _ => by
    cases htail <;> rw [List.append_cons] <;> exact fallsOff_concat (by simp)
  | .give none, _, _, _, _, _, _, _, h, _, _ => by simp [Stmt.exec] at h
  | .give (some e), _, _, _, _, _, _, _, h, _, _ => by
    rw [Stmt.exec] at h
    obtain ⟨v, -, h₁⟩ := Result.bind_eq_done h
    simp at h₁

/-- Statements whose execution comes to their end have code that can be left there. -/
theorem execAll_fallsOff : (stmts : List Stmt) → {number start : Nat} → {a a' : Activation} →
    {slots slots' : Slots} → {code : List Instruction} →
    Stmt.execAll s call fuel stmts number a = .done (.next a') →
    StmtsCode ids texts slots start stmts code slots' → start + code.length < 4294967296 →
    FallsOff code (start + code.length)
  | [], _, _, _, _, _, _, _, _, .nil, _ => .inl rfl
  | stmt :: stmts, _, start, _, _, _, _, _, h, @StmtsCode.cons _ _ _ _ _ _ _ _ code codes hstmt hstmts,
      hsize => by
    rw [List.length_append] at hsize
    rw [Stmt.execAll] at h
    obtain ⟨flow, hflow, h₁⟩ := Result.bind_eq_done h
    cases flow with
    | returned v => simp at h₁
    | next a₁ =>
      have hlast := execAll_fallsOff stmts h₁ hstmts (by omega)
      rw [Nat.add_assoc, ← List.length_append] at hlast
      by_cases hne : codes = []
      · -- The statements behind have no code, so this one is the last.
        subst hne
        rw [List.append_nil] at *
        exact exec_fallsOff stmt hflow hstmt (by simpa using hsize)
      · exact hlast.append hne

theorem execBranches_fallsOff : (branches : List Branch) → {number start : Nat} →
    {a a' : Activation} → {slots slots' : Slots} → {code : List Instruction} →
    Stmt.execBranches s call fuel branches number a = .done (.next a') →
    BranchesCode ids texts slots start branches code slots' → start + code.length < 4294967296 →
    FallsOff code (start + code.length)
  | [.mk _ body], _, _, _, _, _, _, _, h, .last hbody, hsize => by
    rw [Stmt.execBranches] at h
    obtain ⟨a'', hbody'⟩ := inScope_eq_next h
    exact execAll_fallsOff body hbody' hbody hsize
  | .mk (.when c) body :: branch :: branches, _, start, _, _, _, _, _, h,
      @BranchesCode.cons _ _ _ _ _ _ _ _ _ _ test code codes hc hbody hrest, hsize => by
    rw [stop_of_guarded] at hsize ⊢
    rw [Stmt.execBranches] at h
    · obtain ⟨b, -, h₁⟩ := Result.bind_eq_done h
      cases b with
      | true => exact .inr ⟨_, by simp, rfl, Instruction.index_ofNat .jump hsize⟩
      | false =>
        have hlast := execBranches_fallsOff (branch :: branches) h₁ hrest hsize
        by_cases hne : codes = []
        · subst hne
          rw [← List.cons_append, ← List.append_assoc]
          exact fallsOff_concat (by simp)
        · have hcode : ∀ i j, test ++ i :: (code ++ j :: codes) =
              (test ++ i :: (code ++ [j])) ++ codes := by simp
          rw [hcode]
          exact hlast.append hne
    · simp

end

end FallsOff

end ScriptMachine
