import ScriptMachine.Host

/-!
# Runs

A host that holds no functions has no state either, and a process under such a host
goes its way alone: each step has one successor or raises something
(`Process.next`), and a run is a number of such steps (`Process.Steps`). A run comes
to an end when no frame is left; then there is no further step.

* `Steps.unique`, `Steps.trans`: runs are determined by their length, and can be put
  together.
* `Process.Returns`, `Process.Faults`: how a process can come to an end;
  `Returns.unique`, `Faults.unique` and the lemmas around them say that it does so in
  one way, or not at all.
* One lemma for each kind of instruction says what a step does to the current frame.
  They speak of processes in the form `p.onFrames (f :: rest)`, where `p` itself waits
  for nothing (`Process.Quiet`).
-/

namespace ScriptMachine

/-! ## The payload of instructions -/

namespace Instruction

@[simp] theorem opcode_ofNat (op : Opcode) (n : Nat) : (ofNat op n).opcode = op := rfl

@[simp] theorem opcode_ofInt (op : Opcode) (n : Int) : (ofInt op n).opcode = op := rfl

@[simp] theorem opcode_ofFloat (op : Opcode) (x : Binary32) : (ofFloat op x).opcode = op := rfl

@[simp] theorem opcode_bare (op : Opcode) : (bare op).opcode = op := rfl

theorem index_ofNat (op : Opcode) {n : Nat} (h : n < 4294967296) : (ofNat op n).index = n := by
  simp only [index, ofNat, BitVec.toNat_setWidth, BitVec.toNat_ofNat]
  omega

/-- The lowest bits of an integer are the same, however many bits are kept at first. -/
theorem setWidth_ofInt {v w : Nat} (h : v ≤ w) (n : Int) :
    (BitVec.ofInt w n).setWidth v = BitVec.ofInt v n := by
  rw [← BitVec.signExtend_eq_setWidth_of_le _ h]
  apply BitVec.eq_of_toInt_eq
  rw [BitVec.toInt_signExtend, Nat.min_eq_left h, BitVec.toInt_ofInt, BitVec.toInt_ofInt]
  exact Int.bmod_bmod_of_dvd (Nat.pow_dvd_pow 2 h)

theorem int_ofInt (op : Opcode) (n : Int32) : (ofInt op n.toInt).int = n := by
  have hlow : (ofInt op n.toInt).data.setWidth 32 = BitVec.ofInt 32 n.toInt :=
    setWidth_ofInt (by decide) n.toInt
  simp [int, hlow]

theorem float_ofFloat (op : Opcode) (x : Binary32) : (ofFloat op x).float = x := by
  simp [float, ofFloat]

theorem data_ofBool (op : Opcode) (b : Bool) : ((ofNat op b.toNat).data != 0) = b := by
  cases b <;> rfl

end Instruction

/-! ## Code in a program -/

/-- All local slots that code addresses are counted. -/
theorem index_lt_slotCount {code : List Instruction} {i : Instruction} (hi : i ∈ code)
    (hop : i.opcode.isLocalAccess = true) : i.index < slotCount code := by
  have hmono : ∀ (code : List Instruction) (n : Nat), n ≤ code.foldl (fun n i =>
      if i.opcode.isLocalAccess then max n (i.index + 1) else n) n := by
    intro code
    induction code with
    | nil => exact fun n => Nat.le_refl n
    | cons j code ih =>
      intro n
      refine Nat.le_trans ?_ (ih _)
      dsimp only
      split
      · exact Nat.le_max_left _ _
      · exact Nat.le_refl n
  -- The count covers the slot once the instruction is met, and does not fall after that.
  obtain ⟨before, behind, rfl⟩ := List.append_of_mem hi
  rw [slotCount, List.foldl_append, List.foldl_cons, if_pos hop]
  exact Nat.lt_of_lt_of_le (Nat.lt_of_lt_of_le (Nat.lt_succ_self _) (Nat.le_max_right _ _))
    (hmono _ _)

namespace Program

variable {p : Program} {id ip : Nat} {code code' : List Instruction} {i : Instruction}

/-- The numbers of a program fit into its instructions. -/
structure Fits (p : Program) : Prop where
  strings : p.strings.size < 4294967296
  functions : p.functions.size < 4294967296
  bodies : ∀ (id : Nat) (body : Body), p.functions[id]? = some (.compiled body) →
    body.code.size < 4294967296 ∧ body.slots ≤ maxLocals

/-- An instruction of a function. -/
def instruction? (p : Program) (id ip : Nat) : Option Instruction :=
  match p.function? id with
  | some (.compiled body) => body.code[ip]?
  | _ => none

/-- A piece of code stands in a function, from an index on. -/
def HasCode (p : Program) (id ip : Nat) (code : List Instruction) : Prop :=
  ∀ (k : Nat) (i : Instruction), code[k]? = some i → p.instruction? id (ip + k) = some i

theorem HasCode.head (h : p.HasCode id ip (i :: code)) : p.instruction? id ip = some i :=
  h 0 i rfl

theorem HasCode.tail (h : p.HasCode id ip (i :: code)) : p.HasCode id (ip + 1) code :=
  fun k j hj => by rw [Nat.add_assoc, Nat.add_comm 1]; exact h (k + 1) j hj

theorem HasCode.left (h : p.HasCode id ip (code ++ code')) : p.HasCode id ip code := by
  intro k j hj
  obtain ⟨hlt, -⟩ := List.getElem?_eq_some_iff.1 hj
  exact h k j (by rw [List.getElem?_append_left hlt, hj])

theorem HasCode.right (h : p.HasCode id ip (code ++ code')) :
    p.HasCode id (ip + code.length) code' := by
  intro k j hj
  rw [Nat.add_assoc]
  refine h (code.length + k) j ?_
  rw [List.getElem?_append_right (Nat.le_add_right ..), Nat.add_sub_cancel_left, hj]

/-- The whole code of a function stands in it. -/
theorem hasCode_ofCode (h : p.functions[id]? = some (.compiled (.ofCode code.toArray))) :
    p.HasCode id 0 code := by
  intro k j hj
  simpa [instruction?, function?, h, Body.ofCode] using hj

end Program

/-- In a program that fits, all slots that a function addresses can be set. -/
theorem Program.Fits.index_lt {p : Program} {id ip : Nat} {i : Instruction} (hp : p.Fits)
    (hi : p.instruction? id ip = some i) (hop : i.opcode = .setLocal) : i.index < maxLocals := by
  unfold Program.instruction? at hi
  split at hi
  · next body hbody =>
    have hmem : i ∈ body.code.toList := Array.mem_toList_iff.2 (Array.mem_of_getElem? hi)
    refine Nat.lt_of_lt_of_le (index_lt_slotCount hmem ?_)
      (body.slots_eq ▸ (hp.bodies id body hbody).2)
    rw [hop]
    rfl
  · simp at hi

/-- What an instruction makes of two values. -/
def Opcode.operation? : Opcode → Option (Value → Value → Except Fault Value)
  | .add => some Value.add
  | .sub => some Value.sub
  | .mul => some Value.mul
  | .div => some Value.div
  | .and => some Value.and
  | .or => some Value.or
  | .gt => some (Value.compare .gt)
  | .lt => some (Value.compare .lt)
  | .gte => some (Value.compare .gte)
  | .lte => some (Value.compare .lte)
  | .eq => some fun left right => .ok (left.equals right)
  | _ => none

namespace Process

/-! ## Steps -/

section Steps

variable {host : Host Unit} {handle : Handle} {p q r : Process} {m n : Nat} {v w : Value}
  {e e' : Fault}

/-- The process after one step. -/
def next (host : Host Unit) (handle : Handle) (p : Process) : Except Raised Process :=
  let turn := p.step host handle ()
  match turn.result with
  | .ok _ => .ok turn.process
  | .error raised => .error raised

/-- The process after so many steps. -/
inductive Steps (host : Host Unit) (handle : Handle) : Nat → Process → Process → Prop where
  | refl (p : Process) : Steps host handle 0 p p
  | step {n : Nat} {p q r : Process} (h : p.next host handle = .ok q)
      (hs : Steps host handle n q r) : Steps host handle (n + 1) p r

theorem Steps.single (h : p.next host handle = .ok q) : Steps host handle 1 p q :=
  .step h (.refl q)

theorem Steps.trans (hm : Steps host handle m p q) (hn : Steps host handle n q r) :
    Steps host handle (n + m) p r := by
  induction hm with
  | refl p => exact hn
  | step h _ ih => exact .step h (ih hn)

theorem Steps.unique (hq : Steps host handle n p q) (hr : Steps host handle n p r) : q = r := by
  induction hq with
  | refl p => cases hr; rfl
  | step h _ ih =>
    cases hr with
    | step h' hs' =>
      rw [h, Except.ok.injEq] at h'
      exact ih (h' ▸ hs')

/-- The shorter of two runs is the beginning of the other one. -/
theorem Steps.split (hr : Steps host handle n p r) (hm : m ≤ n) :
    ∃ q, Steps host handle m p q ∧ Steps host handle (n - m) q r := by
  induction m generalizing n p with
  | zero => exact ⟨p, .refl p, hr⟩
  | succ m ih =>
    cases hr with
    | refl => omega
    | @step n' _ p' _ h hs =>
      obtain ⟨q, hq, hqr⟩ := ih hs (by omega)
      exact ⟨q, .step h hq, by rwa [Nat.add_sub_add_right]⟩

/-- The process returns from its last frame with a value. -/
def Returns (host : Host Unit) (handle : Handle) (p : Process) (v : Value) : Prop :=
  ∃ n q, Steps host handle n p q ∧ q.frames = [] ∧ q.returnValue = some v

/-- The process comes to a fault. -/
def Faults (host : Host Unit) (handle : Handle) (p : Process) (e : Fault) : Prop :=
  ∃ n q, Steps host handle n p q ∧ q.frames ≠ [] ∧ q.next host handle = .error (.fault e)

/-- The process never comes to an end. -/
def Diverges (host : Host Unit) (handle : Handle) (p : Process) : Prop :=
  ∀ n, ∃ q, Steps host handle n p q

/-- Without frames there is no step. -/
theorem next_of_frames_eq_nil (h : p.frames = []) :
    p.next host handle = .error (.fault .noActiveFrame) := by
  simp [next, step, current, h]

/-- Behind a process that can go no further nothing comes. -/
theorem Steps.le_of_error {raised : Raised} (hq : Steps host handle m p q)
    (herror : q.next host handle = .error raised) (hr : Steps host handle n p r) : n ≤ m := by
  induction hq generalizing n with
  | refl p =>
    cases hr with
    | refl => exact Nat.le_refl 0
    | step h _ => simp [herror] at h
  | step h _ ih =>
    cases hr with
    | refl => exact Nat.zero_le _
    | step h' hs' =>
      rw [h, Except.ok.injEq] at h'
      exact Nat.succ_le_succ (ih herror (h' ▸ hs'))

/-- Two ways to a process that can go no further are one. -/
theorem Steps.unique_of_error {raised raised' : Raised} (hq : Steps host handle m p q)
    (hqe : q.next host handle = .error raised) (hr : Steps host handle n p r)
    (hre : r.next host handle = .error raised') : q = r := by
  obtain rfl : m = n := Nat.le_antisymm (hr.le_of_error hre hq) (hq.le_of_error hqe hr)
  exact hq.unique hr

theorem Returns.unique (hv : Returns host handle p v) (hw : Returns host handle p w) : v = w := by
  obtain ⟨m, q, hq, hqf, hqv⟩ := hv
  obtain ⟨n, r, hr, hrf, hrw⟩ := hw
  obtain rfl := hq.unique_of_error (next_of_frames_eq_nil hqf) hr (next_of_frames_eq_nil hrf)
  simpa [hqv] using hrw

theorem Faults.unique (he : Faults host handle p e) (he' : Faults host handle p e') : e = e' := by
  obtain ⟨m, q, hq, -, hqe⟩ := he
  obtain ⟨n, r, hr, -, hre⟩ := he'
  obtain rfl := hq.unique_of_error hqe hr hre
  simpa [hqe] using hre

theorem Returns.not_faults (hv : Returns host handle p v) : ¬Faults host handle p e := by
  rintro ⟨n, r, hr, hrf, hre⟩
  obtain ⟨m, q, hq, hqf, -⟩ := hv
  obtain rfl := hq.unique_of_error (next_of_frames_eq_nil hqf) hr hre
  exact hrf hqf

theorem Returns.not_diverges (hv : Returns host handle p v) : ¬Diverges host handle p := by
  intro hdiverges
  obtain ⟨m, q, hq, hqf, -⟩ := hv
  obtain ⟨r, hr⟩ := hdiverges (m + 1)
  have := hq.le_of_error (next_of_frames_eq_nil hqf) hr
  omega

theorem Faults.not_diverges (he : Faults host handle p e) : ¬Diverges host handle p := by
  intro hdiverges
  obtain ⟨m, q, hq, -, hqe⟩ := he
  obtain ⟨r, hr⟩ := hdiverges (m + 1)
  have := hq.le_of_error hqe hr
  omega

end Steps

/-! ## The current frame -/

/-- The process with other frames. -/
def onFrames (p : Process) (frames : List Frame) : Process := { p with frames := frames }

section Frames

variable {host : Host Unit} {handle : Handle} {p q : Process} {f g : Frame} {rest frames : List Frame}
  {i : Instruction} {v w : Value} {e : Fault} {stack : List Value}

@[simp] theorem onFrames_frames : (p.onFrames frames).frames = frames := rfl

@[simp] theorem onFrames_program : (p.onFrames frames).program = p.program := rfl

@[simp] theorem onFrames_maxDepth : (p.onFrames frames).maxDepth = p.maxDepth := rfl

@[simp] theorem onFrames_transfer : (p.onFrames frames).transfer = p.transfer := rfl

@[simp] theorem onFrames_returnValue : (p.onFrames frames).returnValue = p.returnValue := rfl

@[simp] theorem onFrames_onFrames (frames' : List Frame) :
    (p.onFrames frames).onFrames frames' = p.onFrames frames' := rfl

/-- Nothing that an instruction has left waits in the process. -/
structure Quiet (p : Process) : Prop where
  transfer : p.transfer = none
  returnValue : p.returnValue = none

theorem Quiet.onFrames (h : p.Quiet) (frames : List Frame) : (p.onFrames frames).Quiet :=
  ⟨h.transfer, h.returnValue⟩

theorem current_onFrames (hi : p.program.instruction? f.function f.ip = some i) :
    (p.onFrames (f :: rest)).current = .ok (some i) := by
  simp only [current, onFrames_frames, onFrames_program]
  simp only [Program.instruction?] at hi
  split at hi
  · next body hbody => simp [hbody, hi]
  · simp at hi

/-- Control moves on once an instruction is finished. -/
theorem next_of_proceed (hi : p.program.instruction? f.function f.ip = some i)
    (hexecute : (p.onFrames (f :: rest)).execute i = (q, .ok .done))
    {r : Process} (hproceed : q.proceed (rest.length + 1) = .ok r) :
    (p.onFrames (f :: rest)).next host handle = .ok r := by
  simp [next, step, current_onFrames hi, perform, hexecute, settle, hproceed]

/-- An instruction that only changes the current frame. -/
theorem next_of_execute (hp : p.Quiet) (hi : p.program.instruction? f.function f.ip = some i)
    (hexecute : (p.onFrames (f :: rest)).execute i = (p.onFrames (g :: rest), .ok .done)) :
    (p.onFrames (f :: rest)).next host handle =
      .ok (p.onFrames ({ g with ip := g.ip + 1 } :: rest)) := by
  refine next_of_proceed hi hexecute ?_
  simp [proceed, setIp, onFrames, hp.transfer]

/-- An instruction that asks for a jump. -/
theorem next_of_jump {ip : Nat} (hp : p.Quiet)
    (hi : p.program.instruction? f.function f.ip = some i)
    (hexecute : (p.onFrames (f :: rest)).execute i =
      ((p.onFrames (g :: rest)).jumpTo ip, .ok .done)) :
    (p.onFrames (f :: rest)).next host handle = .ok (p.onFrames ({ g with ip := ip } :: rest)) := by
  refine next_of_proceed hi hexecute ?_
  simp [proceed, setIp, onFrames, jumpTo, hp.transfer]

/-- An instruction that fails. -/
theorem next_of_fault (hi : p.program.instruction? f.function f.ip = some i)
    (hexecute : (p.onFrames (f :: rest)).execute i = (q, .error e)) :
    (p.onFrames (f :: rest)).next host handle = .error (.fault e) := by
  simp [next, step, current_onFrames hi, perform, hexecute, settle]

/-! ## Steps of the kinds of instructions -/

/-- The value that an instruction pushes without taking any. -/
def pushed? (p : Process) (f : Frame) (i : Instruction) : Option (Except Fault Value) :=
  match i.opcode with
  | .pushInt => some (.ok (.int i.int))
  | .pushFloat => some (.ok (.float i.float))
  | .pushString => some (.string <$> p.string i.index)
  | .pushBool => some (.ok (.boolean (i.data != 0)))
  | .pushFunction => some (.ok (.functionRef i.index))
  | .pushUnit => some (.ok .unit)
  | .getLocal => some ((p.onFrames [f]).getLocal i.index)
  | _ => none

theorem execute_pushed {x : Except Fault Value} (hx : p.pushed? f i = some x) :
    (p.onFrames (f :: rest)).execute i = (p.onFrames (f :: rest)).pushResult x := by
  obtain ⟨op, data⟩ := i
  cases op <;> simp [pushed?] at hx <;> subst hx <;> rfl

theorem execute_operation {op : Value → Value → Except Fault Value}
    (hop : i.opcode.operation? = some op) :
    p.execute i = p.binary op := by
  obtain ⟨opcode, data⟩ := i
  cases opcode <;> simp [Opcode.operation?] at hop <;> subst hop <;> rfl

theorem next_push (hp : p.Quiet) (hi : p.program.instruction? f.function f.ip = some i)
    (hv : p.pushed? f i = some (.ok v)) :
    (p.onFrames (f :: rest)).next host handle =
      .ok (p.onFrames ({ f with ip := f.ip + 1, stack := v :: f.stack } :: rest)) :=
  next_of_execute hp hi (execute_pushed hv)

theorem next_push_fault (hi : p.program.instruction? f.function f.ip = some i)
    (he : p.pushed? f i = some (.error e)) :
    (p.onFrames (f :: rest)).next host handle = .error (.fault e) :=
  next_of_fault hi (execute_pushed he)

theorem next_operation {op : Value → Value → Except Fault Value} (hp : p.Quiet)
    (hi : p.program.instruction? f.function f.ip = some i) (hop : i.opcode.operation? = some op)
    (hf : f.stack = w :: v :: stack) {u : Value} (hu : op v w = .ok u) :
    (p.onFrames (f :: rest)).next host handle =
      .ok (p.onFrames ({ f with ip := f.ip + 1, stack := u :: stack } :: rest)) := by
  refine next_of_execute (g := { f with stack := u :: stack }) hp hi ?_
  simp [execute_operation hop, binary, withOperand, pop, hf, pushResult, hu, finish, push, onFrames]

theorem next_operation_fault {op : Value → Value → Except Fault Value}
    (hi : p.program.instruction? f.function f.ip = some i) (hop : i.opcode.operation? = some op)
    (hf : f.stack = w :: v :: stack) (he : op v w = .error e) :
    (p.onFrames (f :: rest)).next host handle = .error (.fault e) := by
  refine next_of_fault (q := p.onFrames ({ f with stack := stack } :: rest)) hi ?_
  simp [execute_operation hop, binary, withOperand, pop, hf, pushResult, he, onFrames]

theorem next_not (hp : p.Quiet) (hi : p.program.instruction? f.function f.ip = some i)
    (hop : i.opcode = .not) (hf : f.stack = v :: stack) (hw : v.not = .ok w) :
    (p.onFrames (f :: rest)).next host handle =
      .ok (p.onFrames ({ f with ip := f.ip + 1, stack := w :: stack } :: rest)) := by
  refine next_of_execute (g := { f with stack := w :: stack }) hp hi ?_
  simp [execute, hop, withOperand, pop, hf, pushResult, hw, finish, push, onFrames]

theorem next_not_fault (hi : p.program.instruction? f.function f.ip = some i)
    (hop : i.opcode = .not) (hf : f.stack = v :: stack) (he : v.not = .error e) :
    (p.onFrames (f :: rest)).next host handle = .error (.fault e) := by
  refine next_of_fault (q := p.onFrames ({ f with stack := stack } :: rest)) hi ?_
  simp [execute, hop, withOperand, pop, hf, pushResult, he, onFrames]

theorem next_setLocal (hp : p.Quiet) (hi : p.program.instruction? f.function f.ip = some i)
    (hop : i.opcode = .setLocal) (hf : f.stack = v :: stack) (hslot : i.index < maxLocals) :
    (p.onFrames (f :: rest)).next host handle =
      .ok (p.onFrames ({ f with
        ip := f.ip + 1
        stack := stack
        locals := Program.setFilling none f.locals i.index (some v) } :: rest)) := by
  refine next_of_execute (g := { f with
    stack := stack
    locals := Program.setFilling none f.locals i.index (some v) }) hp hi ?_
  simp [execute, hop, withOperand, pop, hf, finish, setLocal, Nat.not_le.2 hslot, onFrames]

theorem next_jump (hp : p.Quiet) (hi : p.program.instruction? f.function f.ip = some i)
    (hop : i.opcode = .jump) :
    (p.onFrames (f :: rest)).next host handle =
      .ok (p.onFrames ({ f with ip := i.index } :: rest)) :=
  next_of_jump hp hi (by simp [execute, hop])

/-- A conditional jump goes on behind itself if the truth value is true. -/
theorem next_jumpUnless {b : Bool} (hp : p.Quiet)
    (hi : p.program.instruction? f.function f.ip = some i) (hop : i.opcode = .jumpUnless)
    (hf : f.stack = .boolean b :: stack) :
    (p.onFrames (f :: rest)).next host handle =
      .ok (p.onFrames ({ f with
        ip := if b then f.ip + 1 else i.index
        stack := stack } :: rest)) := by
  cases b with
  | true =>
    refine next_of_execute (g := { f with stack := stack }) hp hi ?_
    simp [execute, hop, branch, withOperand, pop, hf, onFrames]
  | false =>
    refine next_of_jump (g := { f with stack := stack }) hp hi ?_
    simp [execute, hop, branch, withOperand, pop, hf, onFrames]

theorem next_jumpUnless_fault (hi : p.program.instruction? f.function f.ip = some i)
    (hop : i.opcode = .jumpUnless) (hf : f.stack = v :: stack) (hv : v.type ≠ .boolean) :
    (p.onFrames (f :: rest)).next host handle =
      .error (.fault (.unexpectedType .jumpUnless .boolean v.type)) := by
  refine next_of_fault (q := p.onFrames ({ f with stack := stack } :: rest)) hi ?_
  cases v <;> simp [Value.type] at hv <;>
    simp [execute, hop, branch, withOperand, pop, hf, onFrames, Value.type]

/-- Calling what is no function. -/
theorem next_call_fault (hi : p.program.instruction? f.function f.ip = some i)
    (hop : i.opcode = .call) (hf : f.stack = v :: stack) (hv : v.type ≠ .functionRef) :
    (p.onFrames (f :: rest)).next host handle =
      .error (.fault (.unexpectedType .call .functionRef v.type)) := by
  refine next_of_fault (q := p.onFrames ({ f with stack := stack } :: rest)) hi ?_
  cases v <;> simp [Value.type] at hv <;>
    simp [execute, hop, withOperand, pop, hf, onFrames, Value.type]

/-- The frame of a function that is entered, if it can be. -/
def entered (p : Process) (id : Nat) (args : List Value) : Except Fault Frame :=
  if p.frames.length = p.maxDepth then .error (.stackOverflow p.maxDepth)
  else
    match p.program.function? id with
    | some (.compiled body) =>
      if maxLocals < body.slots then .error (.localOutOfRange (body.slots - 1) maxLocals)
      else .ok (.enter id body.slots args)
    | some (.imported file name) => .error (.importedUnsupported file name)
    | some .unset => .error (.invalidFunctionEntry id)
    | none => .error (.badFunctionId id)

theorem enter_eq (p : Process) (id : Nat) (args : List Value) :
    p.enter id args = (p.entered id args).map fun callee => p.onFrames (callee :: p.frames) := by
  unfold enter entered
  split
  · rfl
  · rcases p.program.function? id with _ | _ | body | _
    · rfl
    · rfl
    · by_cases h : maxLocals < body.slots
      · simp [h, Except.map]
      · simp [h, Except.map, onFrames]
    · rfl

/-- Of the frames only their number matters for entering a function. -/
theorem entered_onFrames {frames' : List Frame} (h : frames.length = frames'.length) (id : Nat)
    (args : List Value) :
    (p.onFrames frames).entered id args = (p.onFrames frames').entered id args := by
  unfold entered
  rw [onFrames_frames, onFrames_frames, h]
  rfl

theorem popN_reverse {n : Nat} {args : List Value} (hargs : args.length = n) :
    (p.onFrames ({ f with stack := args.reverse ++ stack } :: rest)).popN n =
      .ok (args, p.onFrames ({ f with stack := stack } :: rest)) := by
  subst hargs
  simp [popN, onFrames]

theorem execute_call {id : Nat} {args : List Value} (hop : i.opcode = .call)
    (hf : f.stack = .functionRef id :: (args.reverse ++ stack)) (hargs : args.length = i.index) :
    (p.onFrames (f :: rest)).execute i =
      (p.onFrames ({ f with stack := stack } :: rest)).finish
        ((p.onFrames ({ f with stack := stack } :: rest)).enter id args) := by
  have hexecute : (p.onFrames (f :: rest)).execute i =
      (p.onFrames ({ f with stack := args.reverse ++ stack } :: rest)).withOperands i.index
        fun args p => p.finish (p.enter id args) := by
    simp [execute, hop, withOperand, pop, hf, onFrames]
  rw [hexecute, withOperands, popN_reverse hargs]

/-- Calling a function takes the arguments; its frame lies above that of the caller,
    which goes on behind the call later. -/
theorem next_call {id : Nat} {args : List Value} {callee : Frame} (hp : p.Quiet)
    (hi : p.program.instruction? f.function f.ip = some i) (hop : i.opcode = .call)
    (hf : f.stack = .functionRef id :: (args.reverse ++ stack)) (hargs : args.length = i.index)
    (hcallee : (p.onFrames (f :: rest)).entered id args = .ok callee) :
    (p.onFrames (f :: rest)).next host handle =
      .ok (p.onFrames (callee :: { f with ip := f.ip + 1, stack := stack } :: rest)) := by
  have hcallee' : (p.onFrames ({ f with stack := stack } :: rest)).entered id args = .ok callee :=
    (entered_onFrames rfl id args).trans hcallee
  -- The frame that goes on is the one that was current before, below that of the callee.
  refine next_of_proceed (q := p.onFrames (callee :: { f with stack := stack } :: rest)) hi ?_ ?_
  · rw [execute_call hop hf hargs, enter_eq, hcallee']
    rfl
  · simp [proceed, setIp, onFrames, hp.transfer]

/-- A function that cannot be entered. -/
theorem next_call_enter_fault {id : Nat} {args : List Value}
    (hi : p.program.instruction? f.function f.ip = some i) (hop : i.opcode = .call)
    (hf : f.stack = .functionRef id :: (args.reverse ++ stack)) (hargs : args.length = i.index)
    (he : (p.onFrames (f :: rest)).entered id args = .error e) :
    (p.onFrames (f :: rest)).next host handle = .error (.fault e) := by
  have he' : (p.onFrames ({ f with stack := stack } :: rest)).entered id args = .error e :=
    (entered_onFrames rfl id args).trans he
  refine next_of_fault (q := p.onFrames ({ f with stack := stack } :: rest)) hi ?_
  rw [execute_call hop hf hargs, enter_eq, he']
  rfl

/-- A function that the host does not have gives the unit value, if that is the
    policy. -/
theorem next_external {name : String} {args : List Value} (hp : p.Quiet)
    (hi : p.program.instruction? f.function f.ip = some i) (hop : i.opcode = .external)
    (hf : f.stack = .string name :: (args.reverse ++ stack)) (hargs : args.length = i.index) :
    (p.onFrames (f :: rest)).next ⟨[], .pushUnit⟩ handle =
      .ok (p.onFrames ({ f with ip := f.ip + 1, stack := .unit :: stack } :: rest)) := by
  have hexecute : (p.onFrames (f :: rest)).execute i =
      (p.onFrames ({ f with stack := stack } :: rest), .ok (.request name args)) := by
    have hname : (p.onFrames (f :: rest)).execute i =
        (p.onFrames ({ f with stack := args.reverse ++ stack } :: rest)).withOperands i.index
          fun args p => (p, .ok (.request name args)) := by
      simp [execute, hop, withOperand, pop, hf, onFrames]
    rw [hname, withOperands, popN_reverse hargs]
  have hperform : perform ⟨[], .pushUnit⟩ handle i (p.onFrames (f :: rest)) () =
      ⟨p.onFrames ({ f with stack := .unit :: stack } :: rest), (), [], .ok ()⟩ := by
    simp only [perform, hexecute]
    rfl
  simp only [next, step, current_onFrames hi, hperform]
  simp [settle, proceed, setIp, onFrames, hp.transfer]

/-- Gives a value to the current frame, or leaves it to the host if there is none. -/
def deliver (p : Process) (v : Value) : Process :=
  match p.frames with
  | [] => { p with returnValue := some v, status := .inactive }
  | f :: rest => p.onFrames ({ f with stack := v :: f.stack } :: rest)

/-- A function that returns gives its value to the frame below. -/
theorem next_ret (hp : p.Quiet) (hi : p.program.instruction? f.function f.ip = some i)
    (hop : i.opcode = .ret) (hf : f.stack = v :: stack) :
    (p.onFrames (f :: rest)).next host handle = .ok ((p.onFrames rest).deliver v) := by
  have hexecute : (p.onFrames (f :: rest)).execute i =
      (((p.onFrames ({ f with stack := stack } :: rest)).setReturnValue v).exitFunction,
        .ok .done) := by
    simp [execute, hop, withOperand, pop, hf, onFrames]
  refine next_of_proceed hi hexecute ?_
  cases rest with
  | nil => simp [proceed, popFrame, exitFunction, setReturnValue, deliver, onFrames, hp.transfer]
  | cons caller rest =>
    simp [proceed, popFrame, exitFunction, setReturnValue, deliver, onFrames, hp.transfer,
      hp.returnValue]

end Frames

end Process

end ScriptMachine
