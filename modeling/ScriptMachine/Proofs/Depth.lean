import ScriptMachine.Proofs.Calls
import ScriptMachine.Proofs.Loops

/-!
# The limit on the frames

A process has a limit on the number of its frames, and only one thing depends on it: a
function that is called while there are so many frames is not entered, and the call fails.
So a process under a higher limit (`Process.under`) does exactly the same, step by step, until
the process under the lower limit is about to exceed it (`Process.Overflows`).

* `Process.mirrors_execute`: an instruction does the same under a higher limit, unless it is a
  call that exceeds the lower one.
* `Process.step_under`, `Process.Within.steps`: so does a step, and a run.
* `Process.Stepped.length_le`: the frames of a run stay within the limit.
* `Process.limit_cuts_short`: what two limits make of the same call.
-/

namespace ScriptMachine

/-- The result is no fault for too many frames. -/
def Shallow {α : Type} (x : Except Fault α) : Prop := ∀ m, x ≠ .error (.stackOverflow m)

theorem shallow_ok {α : Type} (a : α) : Shallow (.ok a) := by
  intro m hm
  cases hm

theorem shallow_error {α : Type} {e : Fault} (he : ∀ m, e ≠ .stackOverflow m) :
    Shallow (α := α) (.error e) := by
  intro m hm
  exact he m (Except.error.inj hm)

theorem Shallow.ne {α : Type} {e : Fault} (h : Shallow (α := α) (.error e)) (m : Nat) :
    e ≠ .stackOverflow m := by
  rintro rfl
  exact h m rfl

/-! ## Operations on values -/

theorem Value.arithmetic_shallow (op : Arithmetic) (left right : Value) :
    Shallow (arithmetic op left right) := by
  have honInts (a b : Int32) : Shallow (Value.int <$> op.onInts a b) := by
    cases op with
    | add | sub | mul => exact shallow_ok _
    | div =>
      rw [Arithmetic.onInts]
      split
      · exact shallow_error (by simp)
      · exact shallow_ok _
  unfold arithmetic
  split
  · exact honInts _ _
  · next a y =>
    rcases roundToInt_cases y with ⟨n, hn⟩ | hn
    · rw [hn]
      exact honInts a n
    · rw [hn]
      exact shallow_error (by simp)
  all_goals first | exact shallow_ok _ | exact shallow_error (by simp)

theorem Value.compare_shallow (c : Comparison) (left right : Value) :
    Shallow (compare c left right) := by
  unfold compare
  split
  case h_2 a y =>
    rcases roundToInt_cases y with ⟨n, hn⟩ | hn
    · rw [hn]
      exact shallow_ok _
    · rw [hn]
      exact shallow_error (by simp)
  all_goals first | exact shallow_ok _ | exact shallow_error (by simp)

theorem Opcode.operation?_shallow {opcode : Opcode} {op : Value → Value → Except Fault Value}
    (h : opcode.operation? = some op) (left right : Value) : Shallow (op left right) := by
  cases opcode <;> simp [operation?] at h <;> subst h
  case add =>
    unfold Value.add
    split
    · exact shallow_ok _
    · exact Value.arithmetic_shallow _ _ _
  case sub | mul | div => exact Value.arithmetic_shallow _ _ _
  case gt | lt | gte | lte => exact Value.compare_shallow _ _ _
  case eq => exact shallow_ok _
  case and | or =>
    first
    | unfold Value.and
    | unfold Value.or
    split
    · exact shallow_ok _
    · exact shallow_error (by simp)

/-! ## Processes under another limit -/

/-- The process under another limit on its frames. -/
def Process.under (p : Process) (d : Nat) : Process := { p with maxDepth := d }

/-- The turn with its process under another limit. -/
def Turn.under {σ : Type} (t : Turn σ) (d : Nat) : Turn σ := { t with process := t.process.under d }

namespace Process

variable {program : Program} {p q r : Process} {f : Frame} {rest : List Frame} {i : Instruction}
  {stack : List Value} {policy : UnboundPolicy} {handle : Handle} {d d' n : Nat}

@[simp] theorem under_frames : (p.under d).frames = p.frames := rfl

@[simp] theorem under_program : (p.under d).program = p.program := rfl

@[simp] theorem under_maxDepth : (p.under d).maxDepth = d := rfl

/-- An operation comes to the same under the limit `d`, and not to a fault for too many
    frames. -/
structure Agree (d : Nat) (x y : Except Fault Process) : Prop where
  eq : y = (under · d) <$> x
  shallow : Shallow x

/-! ### Operations -/

theorem agree_push (p : Process) (d : Nat) (v : Value) :
    Agree d (p.push v) ((p.under d).push v) := by
  obtain ⟨_, frames, _, _, _, _, _⟩ := p
  cases frames with
  | nil => exact ⟨rfl, shallow_error (by simp)⟩
  | cons f rest => exact ⟨rfl, shallow_ok _⟩

theorem agree_popFrame (p : Process) (d : Nat) : Agree d p.popFrame (p.under d).popFrame := by
  obtain ⟨_, frames, _, value, _, _, _⟩ := p
  rcases frames with _ | ⟨f, _ | ⟨caller, rest⟩⟩
  · exact ⟨rfl, shallow_error (by simp)⟩
  · exact ⟨rfl, shallow_ok _⟩
  · cases value with
    | none => exact ⟨rfl, shallow_ok _⟩
    | some v => exact ⟨rfl, shallow_ok _⟩

theorem agree_setLocal (p : Process) (d slot : Nat) (v : Value) :
    Agree d (p.setLocal slot v) ((p.under d).setLocal slot v) := by
  obtain ⟨_, frames, _, _, _, _, _⟩ := p
  unfold setLocal
  split
  · exact ⟨rfl, shallow_error (by simp)⟩
  · cases frames with
    | nil => exact ⟨rfl, shallow_error (by simp)⟩
    | cons f rest => exact ⟨rfl, shallow_ok _⟩

theorem setIp_under (p : Process) (d depth : Nat) (ip : Nat → Nat) :
    (p.under d).setIp depth ip = (p.setIp depth ip).under d := by
  unfold setIp
  rw [under_frames]
  split <;> rfl

theorem agree_proceed (p : Process) (d depth : Nat) :
    Agree d (p.proceed depth) ((p.under d).proceed depth) := by
  have htransfer : (p.under d).transfer = p.transfer := rfl
  unfold proceed
  rw [htransfer]
  rcases p.transfer with _ | ip | _
  · exact ⟨congrArg Except.ok (setIp_under { p with transfer := none } d depth _), shallow_ok _⟩
  · exact ⟨congrArg Except.ok (setIp_under { p with transfer := none } d depth _), shallow_ok _⟩
  · exact agree_popFrame { p with transfer := none } d

/-- Below both limits a function is entered in the same way. -/
theorem agree_enter (id : Nat) (args : List Value) (h : p.frames.length < p.maxDepth)
    (hd : p.maxDepth ≤ d) : Agree d (p.enter id args) ((p.under d).enter id args) := by
  unfold enter
  rw [under_frames, under_maxDepth, under_program, if_neg (by omega), if_neg (by omega)]
  rcases p.program.function? id with _ | _ | body | _
  · exact ⟨rfl, shallow_error (by simp)⟩
  · exact ⟨rfl, shallow_error (by simp)⟩
  · dsimp only
    split
    · exact ⟨rfl, shallow_error (by simp)⟩
    · exact ⟨rfl, shallow_ok _⟩
  · exact ⟨rfl, shallow_error (by simp)⟩

/-! ### Instructions -/

/-- An instruction does the same under the limit `d`, and does not fail for too many frames. -/
structure Mirrors (d : Nat) (x y : Executed) : Prop where
  eq : y = (x.1.under d, x.2)
  shallow : Shallow x.2

theorem mirrors_done (p : Process) (d : Nat) (effect : Effect) :
    Mirrors d (p, .ok effect) (p.under d, .ok effect) :=
  ⟨rfl, shallow_ok effect⟩

theorem mirrors_fault (p : Process) (d : Nat) {e : Fault} (he : ∀ m, e ≠ .stackOverflow m) :
    Mirrors d (p, .error e) (p.under d, .error e) :=
  ⟨rfl, shallow_error he⟩

theorem Agree.finish {x y : Except Fault Process} (h : Agree d x y) :
    Mirrors d (p.finish x) ((p.under d).finish y) := by
  rw [h.eq]
  cases x with
  | ok q => exact mirrors_done q d .done
  | error e => exact mirrors_fault p d h.shallow.ne

theorem mirrors_pushResult (p : Process) (d : Nat) {x : Except Fault Value} (hx : Shallow x) :
    Mirrors d (p.pushResult x) ((p.under d).pushResult x) := by
  cases x with
  | ok v => exact (agree_push p d v).finish
  | error e => exact mirrors_fault p d hx.ne

/-- An operand is taken if there is one. -/
theorem mirrors_withOperand {next : Value → Process → Executed}
    (h : ∀ v left, stack = v :: left →
      Mirrors d (next v (p.onFrames ({ f with stack := left } :: rest)))
        (next v ((p.under d).onFrames ({ f with stack := left } :: rest)))) :
    Mirrors d ((p.onFrames ({ f with stack := stack } :: rest)).withOperand next)
      (((p.under d).onFrames ({ f with stack := stack } :: rest)).withOperand next) := by
  cases stack with
  | nil => exact mirrors_fault _ d (by simp)
  | cons v left => exact h v left rfl

/-- Operands are taken if there are so many. -/
theorem mirrors_withOperands {k : Nat} {next : List Value → Process → Executed}
    (h : ∀ args left, stack = args.reverse ++ left → args.length = k →
      Mirrors d (next args (p.onFrames ({ f with stack := left } :: rest)))
        (next args ((p.under d).onFrames ({ f with stack := left } :: rest)))) :
    Mirrors d ((p.onFrames ({ f with stack := stack } :: rest)).withOperands k next)
      (((p.under d).onFrames ({ f with stack := stack } :: rest)).withOperands k next) := by
  by_cases hk : stack.length < k
  · have hpop (p : Process) :
        (p.onFrames ({ f with stack := stack } :: rest)).popN k = .error .stackUnderflow := if_pos hk
    rw [withOperands, withOperands, hpop, hpop]
    exact mirrors_fault _ d (by simp)
  · have hargs : (stack.take k).reverse.length = k := by
      rw [List.length_reverse, List.length_take]
      omega
    have hstack : stack = (stack.take k).reverse.reverse ++ stack.drop k := by
      rw [List.reverse_reverse, List.take_append_drop]
    rw [hstack, withOperands, withOperands, popN_reverse hargs, popN_reverse hargs]
    exact h _ _ hstack hargs

theorem mirrors_binary {op : Value → Value → Except Fault Value}
    (hop : i.opcode.operation? = some op) :
    Mirrors d ((p.onFrames (f :: rest)).binary op) (((p.under d).onFrames (f :: rest)).binary op) := by
  refine mirrors_withOperand fun right left _ => mirrors_withOperand fun left' left'' _ => ?_
  exact mirrors_pushResult _ d (Opcode.operation?_shallow hop left' right)

theorem mirrors_branch (expected : Bool) :
    Mirrors d ((p.onFrames (f :: rest)).branch i expected)
      (((p.under d).onFrames (f :: rest)).branch i expected) := by
  refine mirrors_withOperand fun v left _ => ?_
  cases v with
  | boolean b =>
    by_cases hb : b = expected
    · simp only [hb, if_true]
      exact mirrors_done (jumpTo _ i.index) d .done
    · simp only [hb, if_false]
      exact mirrors_done _ d .done
  | _ => exact mirrors_fault _ d (by simp)

/-- What is pushed without operands does not depend on the limit. -/
theorem pushed?_shallow {x : Except Fault Value} (hx : p.pushed? f i = some x) :
    (p.under d).pushed? f i = some x ∧ Shallow x := by
  refine ⟨hx, fun m hm => ?_⟩
  subst hm
  rw [pushed?] at hx
  split at hx <;> simp at hx
  · unfold string at hx
    split at hx <;> cases hx
  · rcases getLocal_cases p f i.index with ⟨v, -, hget⟩ | hget <;> rw [hget] at hx <;> cases hx

/-- All frames that the process may have are there, and it is about to call another
    function. -/
def Overflows (p : Process) : Prop := p.frames.length = p.maxDepth ∧ ∃ id args, p.Calls id args

/-- A call enters its function below the limit. -/
theorem mirrors_call (hp : p.frames = f :: rest) (hlimit : p.frames.length ≤ p.maxDepth)
    (hd : p.maxDepth ≤ d) (hno : ¬p.Overflows)
    (hi : p.program.instruction? f.function f.ip = some i) (hop : i.opcode = .call) :
    Mirrors d ((p.onFrames (f :: rest)).execute i) (((p.under d).onFrames (f :: rest)).execute i) := by
  simp only [execute, hop]
  refine mirrors_withOperand fun v left hf => ?_
  cases v with
  | functionRef id =>
    refine mirrors_withOperands fun args left' hleft hargs => Agree.finish ?_
    have hcalls : f.Calls p.program id args left' := ⟨⟨i, hi, hop, hargs⟩, hleft ▸ hf⟩
    have hne : p.frames.length ≠ p.maxDepth :=
      fun heq => hno ⟨heq, id, args, f, rest, left', hp, hcalls⟩
    refine agree_enter id args ?_ hd
    rw [hp] at hlimit hne
    exact Nat.lt_of_le_of_ne hlimit hne
  | _ => exact mirrors_fault _ d (by simp)

theorem mirrors_execute (hp : p.frames = f :: rest) (hlimit : p.frames.length ≤ p.maxDepth)
    (hd : p.maxDepth ≤ d) (hno : ¬p.Overflows)
    (hi : p.program.instruction? f.function f.ip = some i) :
    Mirrors d (p.execute i) ((p.under d).execute i) := by
  have hself : p = p.onFrames (f :: rest) := by rw [← hp]; rfl
  rw [hself]
  change Mirrors d ((p.onFrames (f :: rest)).execute i)
    (((p.under d).onFrames (f :: rest)).execute i)
  have hpushed : ∀ x, p.pushed? f i = some x →
      Mirrors d ((p.onFrames (f :: rest)).execute i)
        (((p.under d).onFrames (f :: rest)).execute i) := by
    intro x hx
    obtain ⟨hx', hshallow⟩ := pushed?_shallow (d := d) hx
    rw [execute_pushed hx, execute_pushed hx']
    exact mirrors_pushResult _ d hshallow
  have hoperation : ∀ op, i.opcode.operation? = some op →
      Mirrors d ((p.onFrames (f :: rest)).execute i)
        (((p.under d).onFrames (f :: rest)).execute i) := by
    intro op hop
    rw [execute_operation hop, execute_operation hop]
    exact mirrors_binary hop
  cases hop : i.opcode with
  | pushInt | pushFloat | pushString | pushBool | pushFunction | pushUnit | getLocal =>
    exact hpushed _ (by rw [pushed?, hop])
  | add | sub | mul | div | and | or | gt | lt | gte | lte | eq =>
    exact hoperation _ (by rw [hop]; rfl)
  | call => exact mirrors_call hp hlimit hd hno hi hop
  | nop =>
    simp only [execute, hop]
    exact mirrors_done _ d .done
  | not =>
    simp only [execute, hop]
    refine mirrors_withOperand fun v left _ => mirrors_pushResult _ d ?_
    cases v with
    | boolean b => exact shallow_ok _
    | _ => exact shallow_error (by simp)
  | jumpIf | jumpUnless =>
    simp only [execute, hop]
    exact mirrors_branch _
  | jump =>
    simp only [execute, hop]
    exact mirrors_done (jumpTo _ i.index) d .done
  | external =>
    simp only [execute, hop]
    refine mirrors_withOperand fun v left _ => ?_
    cases v with
    | string name => exact mirrors_withOperands fun args _ _ _ => mirrors_done _ d _
    | _ => exact mirrors_fault _ d (by simp)
  | ret =>
    simp only [execute, hop]
    exact mirrors_withOperand fun v left _ => mirrors_done (exitFunction (setReturnValue _ v)) d .done
  | setLocal =>
    simp only [execute, hop]
    exact mirrors_withOperand fun v left _ => (agree_setLocal _ d i.index v).finish
  | invalid =>
    simp only [execute, hop]
    exact mirrors_fault _ d (by simp)

/-! ### Steps -/

/-- A turn is the same under the limit `d`, and not a fault for too many frames. -/
structure Keeps (d : Nat) (t u : Turn Unit) : Prop where
  eq : u = t.under d
  shallow : ∀ m, t.result ≠ .error (.fault (.stackOverflow m))

theorem Keeps.of_ok {t u : Turn Unit} (heq : u = t.under d) (hresult : t.result = .ok ()) :
    Keeps d t u := by
  refine ⟨heq, fun m hm => ?_⟩
  rw [hresult] at hm
  cases hm

theorem Keeps.of_fault {t u : Turn Unit} {e : Fault} (heq : u = t.under d)
    (hresult : t.result = .error (.fault e)) (he : ∀ m, e ≠ .stackOverflow m) : Keeps d t u := by
  refine ⟨heq, fun m hm => ?_⟩
  rw [hresult] at hm
  exact he m (Raised.fault.inj (Except.error.inj hm))

theorem Agree.ofResult {x y : Except Fault Process} (h : Agree d x y) :
    Keeps d (Host.ofResult p () x) (Host.ofResult (p.under d) () y) := by
  rw [h.eq]
  cases x with
  | ok q => exact .of_ok rfl rfl
  | error e => exact .of_fault rfl rfl h.shallow.ne

/-- A host without functions takes no notice of the limit. -/
theorem keeps_call (p : Process) (d : Nat) (name : String) (args : List Value) :
    Keeps d (Host.call ⟨[], policy⟩ handle name args p ())
      (Host.call ⟨[], policy⟩ handle name args (p.under d) ()) := by
  cases policy with
  | ignore => exact .of_ok rfl rfl
  | pushUnit => exact (agree_push p d .unit).ofResult
  | fault => exact .of_fault rfl rfl (by simp)

theorem Keeps.settle {t u : Turn Unit} (h : Keeps d t u) (depth : Nat) :
    Keeps d (settle depth t) (settle depth u) := by
  obtain ⟨q, s, wakes, result⟩ := t
  obtain rfl := h.eq
  cases result with
  | error raised => exact h
  | ok _ =>
    have hproceed := agree_proceed q d depth
    simp only [Process.settle, Turn.under, hproceed.eq]
    have hshallow := hproceed.shallow
    cases hx : q.proceed depth with
    | ok r => exact .of_ok rfl rfl
    | error e =>
      rw [hx] at hshallow
      exact .of_fault rfl rfl hshallow.ne

theorem Mirrors.perform (h : Mirrors d (p.execute i) ((p.under d).execute i)) :
    Keeps d (perform ⟨[], policy⟩ handle i p ()) (perform ⟨[], policy⟩ handle i (p.under d) ()) := by
  rw [Process.perform, Process.perform, h.eq]
  have hshallow := h.shallow
  generalize p.execute i = x at hshallow ⊢
  rcases x with ⟨q, e | ⟨⟩ | ⟨name, args⟩⟩
  · exact .of_fault rfl rfl hshallow.ne
  · exact .of_ok rfl rfl
  · exact keeps_call q d name args

/-- The next instruction of a process is one of the function of its current frame. -/
theorem exists_of_current (h : p.current = .ok (some i)) :
    ∃ f rest, p.frames = f :: rest ∧ p.program.instruction? f.function f.ip = some i := by
  rw [current] at h
  split at h
  · cases h
  · next f rest hp =>
    refine ⟨f, rest, hp, ?_⟩
    split at h
    · next body hbody =>
      rw [Program.instruction?, hbody]
      exact Except.ok.inj h
    · cases h

theorem current_shallow (p : Process) : Shallow p.current := by
  rw [current]
  split
  · exact shallow_error (by simp)
  · split
    · exact shallow_ok _
    · exact shallow_error (by simp)

/-- Unless a process is about to exceed its limit, it takes the same step under a higher one. -/
theorem step_under (policy : UnboundPolicy) (handle : Handle)
    (hlimit : p.frames.length ≤ p.maxDepth) (hd : p.maxDepth ≤ d) (hno : ¬p.Overflows) :
    Keeps d (p.step ⟨[], policy⟩ handle ()) ((p.under d).step ⟨[], policy⟩ handle ()) := by
  have hcurrent : (p.under d).current = p.current := rfl
  rw [step, step, hcurrent, under_frames]
  have hshallow := p.current_shallow
  rcases hnext : p.current with e | _ | i
  · rw [hnext] at hshallow
    exact .of_fault rfl rfl hshallow.ne
  · exact (agree_popFrame p d).ofResult
  · obtain ⟨f, rest, hp, hi⟩ := exists_of_current hnext
    exact ((mirrors_execute hp hlimit hd hno hi).perform).settle _

/-- A process that is about to exceed its limit fails. -/
theorem next_of_overflows {host : Host Unit} (h : p.Overflows) :
    p.next host handle = .error (.fault (.stackOverflow p.maxDepth)) := by
  obtain ⟨hlength, id, args, f, rest, left, hp, ⟨i, hi, hop, hargs⟩, hf⟩ := h
  have hself : p = p.onFrames (f :: rest) := by rw [← hp]; rfl
  rw [hself]
  exact next_call_enter_fault hi hop hf hargs (by rw [entered, ← hself, if_pos hlength])

/-! ## Runs -/

/-- A step adds a frame only below the limit. -/
theorem Stepped.length_le {t : Turn Unit} (h : Stepped p f rest t) (hp : p.Quiet)
    (hlimit : rest.length + 1 ≤ p.maxDepth) :
    t.process.maxDepth = p.maxDepth ∧ t.process.frames.length ≤ p.maxDepth := by
  cases h with
  | moved | stored | failed | unstored | refused => exact ⟨rfl, hlimit⟩
  | called _ hcallee =>
    have hne : (p.onFrames (f :: rest)).frames.length ≠ p.maxDepth := by
      intro hfull
      rw [entered, onFrames_maxDepth, if_pos hfull] at hcallee
      cases hcallee
    exact ⟨rfl, Nat.lt_of_le_of_ne hlimit hne⟩
  | returned =>
    cases rest with
    | nil => exact ⟨rfl, Nat.zero_le _⟩
    | cons caller rest => exact ⟨rfl, Nat.le_of_succ_le hlimit⟩
  | ended _ hq =>
    cases rest with
    | nil =>
      cases hq
      exact ⟨rfl, Nat.zero_le _⟩
    | cons caller rest =>
      simp only [popFrame, onFrames_frames, onFrames_returnValue, hp.returnValue] at hq
      cases hq
      exact ⟨rfl, Nat.le_of_succ_le hlimit⟩

/-- The frames are in order and within the limit. -/
structure Within (program : Program) (d : Nat) (p : Process) : Prop where
  inOrder : InOrder program p
  maxDepth_eq : p.maxDepth = d
  length_le : p.frames.length ≤ d

/-- A step keeps within the limit, also if it fails. -/
theorem Within.step (h : Within program d p) :
    Within program d (p.step ⟨[], policy⟩ handle ()).process := by
  have hlength : p.frames.length ≤ p.maxDepth := h.maxDepth_eq ▸ h.length_le
  cases hf : p.frames with
  | nil => rwa [step_of_frames_eq_nil hf]
  | cons f rest =>
    obtain ⟨hquiet, hstepped⟩ := h.inOrder.stepped policy handle hf
    obtain ⟨hmax, hle⟩ := hstepped.length_le hquiet (by rwa [hf] at hlength)
    exact ⟨h.inOrder.step, hmax.trans h.maxDepth_eq, h.maxDepth_eq ▸ hle⟩

theorem Within.next (h : Within program d p) (hq : p.next ⟨[], policy⟩ handle = .ok q) :
    Within program d q := by
  rw [← process_of_next hq]
  exact h.step

/-- Unless the process is about to exceed its limit, it goes on in the same way under a higher
    one. -/
theorem Within.next_under (policy : UnboundPolicy) (handle : Handle) (h : Within program d p)
    (hd : d ≤ d') (hno : ¬p.Overflows) :
    (p.under d').next ⟨[], policy⟩ handle = (under · d') <$> p.next ⟨[], policy⟩ handle ∧
      ∀ m, p.next ⟨[], policy⟩ handle ≠ .error (.fault (.stackOverflow m)) := by
  obtain rfl := h.maxDepth_eq
  obtain ⟨heq, hshallow⟩ := step_under policy handle h.length_le hd hno
  unfold Process.next
  rw [heq]
  generalize p.step ⟨[], policy⟩ handle () = t at hshallow ⊢
  obtain ⟨q, s, wakes, raised | _⟩ := t
  · exact ⟨rfl, fun m hm => hshallow m (by cases hm; rfl)⟩
  · refine ⟨rfl, fun m hm => ?_⟩
    cases hm

/-- A process fails for too many frames exactly if it is about to exceed its limit. -/
theorem Within.next_eq_overflow_iff (h : Within program d p) (m : Nat) :
    p.next ⟨[], policy⟩ handle = .error (.fault (.stackOverflow m)) ↔ m = d ∧ p.Overflows := by
  constructor
  · intro hm
    have hoverflows : p.Overflows := by
      by_contra hno
      exact (h.next_under policy handle (Nat.le_refl d) hno).2 m hm
    rw [next_of_overflows hoverflows, h.maxDepth_eq] at hm
    cases hm
    exact ⟨rfl, hoverflows⟩
  · rintro ⟨rfl, hoverflows⟩
    rw [next_of_overflows hoverflows, h.maxDepth_eq]

/-- A run goes through the same processes under a higher limit, and stays within its own. -/
theorem Within.steps (h : Within program d p) (hd : d ≤ d')
    (hq : Steps ⟨[], policy⟩ handle n p q) :
    Within program d q ∧ Steps ⟨[], policy⟩ handle n (p.under d') (q.under d') := by
  induction hq with
  | refl p => exact ⟨h, .refl _⟩
  | @step n p q r hnext _ ih =>
    have hno : ¬p.Overflows := by
      intro hoverflows
      rw [next_of_overflows hoverflows] at hnext
      cases hnext
    obtain ⟨hwithin, hsteps⟩ := ih (h.next hnext)
    refine ⟨hwithin, .step ?_ hsteps⟩
    rw [(h.next_under policy handle hd hno).1, hnext]
    rfl

/-- A run that exceeds the higher limit exceeds its own, and no later. -/
theorem Within.overflows (h : Within program d p) (hd : d ≤ d') {m : Nat}
    (hr : Steps ⟨[], policy⟩ handle n (p.under d') r)
    (hm : r.next ⟨[], policy⟩ handle = .error (.fault (.stackOverflow m))) :
    ∃ k ≤ n, ∃ q, Steps ⟨[], policy⟩ handle k p q ∧ q.Overflows := by
  induction n generalizing p with
  | zero =>
    refine ⟨0, Nat.le_refl 0, p, .refl p, ?_⟩
    cases hr
    by_contra hno
    obtain ⟨heq, hshallow⟩ := h.next_under policy handle hd hno
    rw [heq] at hm
    cases hx : p.next ⟨[], policy⟩ handle with
    | ok q => simp [hx] at hm
    | error raised =>
      rw [hx] at hm
      cases hm
      exact hshallow m hx
  | succ n ih =>
    by_cases hoverflows : p.Overflows
    · exact ⟨0, Nat.zero_le _, p, .refl p, hoverflows⟩
    · cases hr with
      | step hnext hs =>
        rw [(h.next_under policy handle hd hoverflows).1] at hnext
        cases hx : p.next ⟨[], policy⟩ handle with
        | error raised => simp [hx] at hnext
        | ok q =>
          rw [hx] at hnext
          cases hnext
          obtain ⟨k, hk, q', hq', hoverflows'⟩ := ih (h.next hx) hs
          exact ⟨k + 1, Nat.succ_le_succ hk, q', .step hx hq', hoverflows'⟩

/-- How a run comes to an end after `n` steps: without frames, or because the next step fails.
    The process is what remains. -/
inductive Ends (host : Host Unit) (handle : Handle) (p : Process) (n : Nat) :
    Process → Except Raised Unit → Prop where
  | completed {q : Process} (hq : Steps host handle n p q) (hframes : q.frames = []) :
      Ends host handle p n q (.ok ())
  | failed {q : Process} {raised : Raised} (hq : Steps host handle n p q) (hframes : q.frames ≠ [])
      (hraised : q.next host handle = .error raised) :
      Ends host handle p n (q.step host handle ()).process (.error raised)

/-- A run that does not exceed its limit ends in the same way under a higher one. -/
theorem Within.ends (h : Within program d p) (hd : d ≤ d') {x : Except Raised Unit}
    (hends : Ends ⟨[], policy⟩ handle p n q x)
    (hx : ∀ m, x ≠ .error (.fault (.stackOverflow m))) :
    Ends ⟨[], policy⟩ handle (p.under d') n (q.under d') x := by
  cases hends with
  | completed hq hframes => exact .completed (h.steps hd hq).2 hframes
  | @failed q raised hq hframes hraised =>
    obtain ⟨hwithin, hsteps⟩ := h.steps hd hq
    have hno : ¬q.Overflows := by
      intro hoverflows
      rw [next_of_overflows hoverflows] at hraised
      cases hraised
      exact hx _ rfl
    have hnext : (q.under d').next ⟨[], policy⟩ handle = .error raised := by
      rw [(hwithin.next_under policy handle hd hno).1, hraised]
      rfl
    have hkeeps := step_under policy handle
      (hwithin.maxDepth_eq ▸ hwithin.length_le) (hwithin.maxDepth_eq ▸ hd) hno
    have hfailed := Ends.failed hsteps hframes hnext
    rwa [hkeeps.eq] at hfailed

/-- A process that has the limit `d` does the same under the limit `d'` until it exceeds `d`. -/
structure CutShort (host : Host Unit) (handle : Handle) (p : Process) (d d' : Nat) : Prop where
  /-- The frames never exceed the limit. -/
  length_le : ∀ n q, Steps host handle n p q → q.frames.length ≤ d
  /-- Step by step the processes differ in nothing but their limits. -/
  steps : ∀ n q, Steps host handle n p q → Steps host handle n (p.under d') (q.under d')
  /-- The fault for too many frames comes exactly from the call that would add one to `d`
      frames. -/
  overflow_iff : ∀ n q m, Steps host handle n p q →
    (q.next host handle = .error (.fault (.stackOverflow m)) ↔ m = d ∧ q.frames.length = d ∧
      ∃ id args, q.Calls id args)
  /-- A run that ends in another way ends alike under `d'`. -/
  ends : ∀ n q x, Ends host handle p n q x → (∀ m, x ≠ .error (.fault (.stackOverflow m))) →
    Ends host handle (p.under d') n (q.under d') x
  /-- A run that exceeds `d'` exceeds `d`, and no later. -/
  overflows : ∀ n r m, Ends host handle (p.under d') n r (.error (.fault (.stackOverflow m))) →
    ∃ k ≤ n, ∃ q, Ends host handle p k q (.error (.fault (.stackOverflow d)))

theorem Within.cutShort (h : Within program d p) (hd : d ≤ d') :
    CutShort ⟨[], policy⟩ handle p d d' where
  length_le _ _ hq := (h.steps hd hq).1.length_le
  steps _ _ hq := (h.steps hd hq).2
  overflow_iff n q m hq := by
    have hwithin := (h.steps hd hq).1
    rw [hwithin.next_eq_overflow_iff m, Overflows, hwithin.maxDepth_eq]
  ends _ _ _ hends hx := h.ends hd hends hx
  overflows n r m hends := by
    cases hends with
    | failed hr _ hm =>
      obtain ⟨k, hk, q, hq, hoverflows⟩ := h.overflows hd hr hm
      have hne : q.frames ≠ [] := by
        obtain ⟨-, _, _, f, rest, _, hf, -⟩ := hoverflows
        exact hf ▸ List.cons_ne_nil f rest
      refine ⟨k, hk, _, .failed hq hne ?_⟩
      rw [next_of_overflows hoverflows, (h.steps hd hq).1.maxDepth_eq]

/-- A function that is entered as the first one is in order, and within every limit but
    zero. -/
theorem within_of_enter {id : Nat} {args : List Value} (hd : 1 ≤ d)
    (h : (new program d).enter id args = .ok p) : Within program d p := by
  have hreached : Reached program d .ignore ⟨0⟩ p := .enter .new id args rfl h
  rw [enter_eq] at h
  cases hcallee : (new program d).entered id args with
  | error e =>
    rw [hcallee] at h
    cases h
  | ok callee =>
    rw [hcallee] at h
    cases h
    exact ⟨hreached.inOrder.1, rfl, hd⟩

/-- The limit on the frames only cuts runs short. A function that is entered under the limits
    `d ≤ d'` fails alike or goes on alike, until the run under `d` calls a function with `d` frames
    there. -/
theorem limit_cuts_short (program : Program) (id : Nat) (args : List Value)
    (policy : UnboundPolicy) (handle : Handle) (hd : 1 ≤ d) (hle : d ≤ d') :
    (∃ e, (∀ m, e ≠ .stackOverflow m) ∧ (new program d).enter id args = .error e ∧
      (new program d').enter id args = .error e) ∨
    ∃ p, (new program d).enter id args = .ok p ∧
      (new program d').enter id args = .ok (p.under d') ∧
      CutShort ⟨[], policy⟩ handle p d d' := by
  obtain ⟨heq, hshallow⟩ := agree_enter (p := new program d) id args hd hle
  change (new program d').enter id args = _ at heq
  cases hp : (new program d).enter id args with
  | error e =>
    rw [hp] at heq hshallow
    exact .inl ⟨e, fun m hm => hshallow m (hm ▸ rfl), rfl, heq⟩
  | ok p =>
    rw [hp] at heq
    exact .inr ⟨p, rfl, heq, (within_of_enter hd hp).cutShort hle⟩

/-- A function that does nothing but call itself. -/
def descent : Program where
  strings := #[]
  functions := #[.compiled (.ofCode #[.ofNat .pushFunction 0, .ofNat .call 0])]
  names := [("main", 0)]

/-- Under a higher limit it fails as well, but later. -/
theorem limit_cuts_short_descent :
    ∃ p, (new descent 2).enter 0 [] = .ok p ∧ (new descent 3).enter 0 [] = .ok (p.under 3) ∧
      CutShort .detached ⟨0⟩ p 2 3 ∧
      (∃ q, Ends .detached ⟨0⟩ p 3 q (.error (.fault (.stackOverflow 2)))) ∧
      ∃ r, Ends .detached ⟨0⟩ (p.under 3) 5 r (.error (.fault (.stackOverflow 3))) := by
  let first := (new descent 2).onFrames [.enter 0 0 []]
  have hfirst : (new descent 2).enter 0 [] = .ok first := rfl
  have hle : 2 ≤ 3 := by decide
  rcases limit_cuts_short descent 0 [] .ignore ⟨0⟩ (by decide) hle with
    ⟨e, -, he, -⟩ | ⟨p, hp, hp', hcut⟩
  · rw [hfirst] at he
    cases he
  · obtain rfl : first = p := Except.ok.inj (hfirst.symm.trans hp)
    have hsteps : ∀ j < 3, (first.after .detached ⟨0⟩ j).next .detached ⟨0⟩ =
        .ok (first.after .detached ⟨0⟩ (j + 1)) := by decide +kernel
    have hsteps' : ∀ j < 5, ((first.under 3).after .detached ⟨0⟩ j).next .detached ⟨0⟩ =
        .ok ((first.under 3).after .detached ⟨0⟩ (j + 1)) := by decide +kernel
    exact ⟨first, hp, hp', hcut,
      ⟨_, .failed (steps_of_next hsteps) (by decide +kernel) (by decide +kernel)⟩,
      ⟨_, .failed (steps_of_next hsteps') (by decide +kernel) (by decide +kernel)⟩⟩

end Process

end ScriptMachine
