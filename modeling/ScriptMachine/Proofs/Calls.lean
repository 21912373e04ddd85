import ScriptMachine.Proofs.Deeds
import ScriptMachine.Proofs.Frames

/-!
# Calls and their callers

The code of a called function is not known, and need not be such that a compiler would write
it: it may jump anywhere, call whatever is on its stack, and take operands that are not
there. It touches nothing of the frames that were there before the call all the same. They
are below it as long as it lasts, and then the caller gets what the function has returned.

Processes are taken as far as functions that are entered and steps lead, also steps that
fail (`Process.Reached`). A function is entered while no value waits that an earlier one has
left; once a value has been left to the host, it is for the host to take it first.

* `Process.Reached.inOrder`: such processes have their frames in order.
* `Process.InOrder.step_covers`: a step leaves alone what is below a frame, or it is the last
  one of that frame.
* `Process.InOrder.after_covers`: so does a run for as long as the frame is there.
* `Process.Reached.callers_untouched`: what a call leaves of the frames below it, and what the
  caller gets from it.
* `Process.leftover_delivered`: what the caller may get if the host does not take the value.
-/

namespace ScriptMachine

/-- The frame of a caller as long as the called function is executed: the function and its
    `n` arguments are taken from the operands, and the frame stands behind the call. -/
def Frame.waiting (f : Frame) (n : Nat) : Frame :=
  { f with ip := f.ip + 1, stack := f.stack.drop (n + 1) }

/-- The frame with a further operand. -/
def Frame.receive (f : Frame) (v : Value) : Frame := { f with stack := v :: f.stack }

namespace Process

variable {program : Program} {maxDepth : Nat} {p q : Process} {caller f g : Frame}
  {rest low : List Frame} {id n k : Nat} {policy : UnboundPolicy} {handle : Handle}

/-! ## Processes that are entered and take steps -/

/-- A process of the program to which functions that are entered and steps lead. -/
inductive Reached (program : Program) (maxDepth : Nat) (policy : UnboundPolicy)
    (handle : Handle) : Process → Prop where
  | new : Reached program maxDepth policy handle (.new program maxDepth)
  | enter {p q : Process} (h : Reached program maxDepth policy handle p) (id : Nat)
      (args : List Value) (hvalue : p.returnValue = none) (hq : p.enter id args = .ok q) :
      Reached program maxDepth policy handle q
  | step {p : Process} (h : Reached program maxDepth policy handle p) :
      Reached program maxDepth policy handle (p.step ⟨[], policy⟩ handle ()).process

/-- No step leaves a move of control to a later one, also not the last step of a process. -/
theorem Stepped.transfer {t : Turn Unit} (h : Stepped p f rest t) (hp : p.Quiet) :
    t.process.transfer = none := by
  cases h with
  | moved | stored | called | failed | unstored | refused => exact hp.transfer
  | returned => cases rest <;> exact hp.transfer
  | ended _ hq =>
    cases rest with
    | nil =>
      cases hq
      rfl
    | cons caller rest => exact ((popFrame_of_quiet hp hq).2.2 (List.cons_ne_nil _ _)).transfer

/-- A function that is entered has a frame that is in order. -/
theorem InOrder.enter {args : List Value} (h : InOrder program p) (hp : p.Quiet)
    (hq : p.enter id args = .ok q) : InOrder program q ∧ q.Quiet := by
  rw [enter_eq] at hq
  cases hcallee : p.entered id args with
  | error e => simp [hcallee, Except.map] at hq
  | ok callee =>
    obtain rfl : p.onFrames (callee :: p.frames) = q := by simpa [hcallee, Except.map] using hq
    obtain ⟨body, hbody, rfl⟩ := entered_eq_ok hcallee
    refine ⟨⟨h.program_eq, fun _ => hp.onFrames _, fun f hf => ?_⟩, hp.onFrames _⟩
    rcases List.mem_cons.1 hf with rfl | hf
    · exact ⟨body, h.program_eq ▸ hbody, Frame.slots_le_enter ..⟩
    · exact h.frames f hf

/-- The frames are in order, and no move of control waits; a value may wait in the end. -/
theorem Reached.inOrder (h : Reached program maxDepth policy handle p) :
    InOrder program p ∧ p.transfer = none := by
  induction h with
  | new => exact ⟨⟨rfl, fun hne => absurd rfl hne, fun f hf => by cases hf⟩, rfl⟩
  | enter _ id args hvalue hq ih =>
    obtain ⟨horder, hquiet⟩ := ih.1.enter ⟨ih.2, hvalue⟩ hq
    exact ⟨horder, hquiet.transfer⟩
  | @step p _ ih =>
    refine ⟨ih.1.step, ?_⟩
    cases hf : p.frames with
    | nil => rw [step_of_frames_eq_nil hf, ih.2]
    | cons f rest =>
      obtain ⟨hquiet, hstepped⟩ := ih.1.stepped policy handle hf
      exact hstepped.transfer hquiet

/-! ## What is below a frame -/

/-- There is a frame of the function with exactly the frames `low` below it. -/
def Covers (id : Nat) (low : List Frame) (p : Process) : Prop :=
  ∃ upper g, p.frames = upper ++ g :: low ∧ g.function = id

theorem Covers.length_lt (h : p.Covers id low) : low.length < p.frames.length := by
  obtain ⟨upper, g, hframes, -⟩ := h
  rw [hframes, List.length_append, List.length_cons]
  omega

/-- A frame of the function, the current one of `p`, is left above the frames of `caller` and
    `rest`, and `q` is the process after that: the caller gets the value that the function
    returns, or nothing from code that has come to its end. -/
inductive Left (id : Nat) (caller : Frame) (rest : List Frame) (p q : Process) : Prop where
  | returned {g : Frame} {i : Instruction} {v : Value} {stack : List Value}
      (hg : p.frames = g :: caller :: rest) (hid : g.function = id)
      (hi : p.program.instruction? g.function g.ip = some i) (hop : i.opcode = .ret)
      (hstack : g.stack = v :: stack) (hq : q.frames = caller.receive v :: rest)
  | ended {g : Frame} (hg : p.frames = g :: caller :: rest) (hid : g.function = id)
      (hi : p.program.instruction? g.function g.ip = none) (hq : q.frames = caller :: rest)

theorem Left.length_eq (h : Left id caller rest p q) : q.frames.length = rest.length + 1 := by
  cases h with
  | returned _ _ _ _ _ hq | ended _ _ _ hq => rw [hq, List.length_cons]

/-- Frames above others, the current one of which is replaced. -/
theorem covers_of_current {upper : List Frame} (hid : g.function = id) {f' : Frame}
    (hf : f :: rest = upper ++ g :: low) (hq : q.frames = f' :: rest)
    (hfunction : f'.function = f.function) : q.Covers id low := by
  cases upper with
  | nil =>
    obtain ⟨rfl, rfl⟩ := List.cons.inj hf
    exact ⟨[], f', hq, hfunction.trans hid⟩
  | cons f'' upper =>
    obtain ⟨-, rfl⟩ := List.cons.inj hf
    exact ⟨f' :: upper, g, hq, hid⟩

/-- A step leaves the frames below one alone, or it leaves that frame. -/
theorem InOrder.step_covers (h : InOrder program p) (hp : p.Covers id (caller :: rest)) :
    (p.step ⟨[], policy⟩ handle ()).process.Covers id (caller :: rest) ∨
      Left id caller rest p (p.step ⟨[], policy⟩ handle ()).process := by
  obtain ⟨upper, g, hframes, hid⟩ := hp
  obtain ⟨f, others, hf⟩ : ∃ f others, p.frames = f :: others := by
    cases upper with
    | nil => exact ⟨_, _, hframes⟩
    | cons f upper => exact ⟨_, _, hframes⟩
  obtain ⟨hquiet, hstepped⟩ := h.stepped policy handle hf
  generalize p.step ⟨[], policy⟩ handle () = t at hstepped
  have hsplit : f :: others = upper ++ g :: caller :: rest := hf.symm.trans hframes
  cases hstepped with
  | moved | stored | failed | unstored | refused =>
    exact .inl (covers_of_current hid hsplit rfl rfl)
  | @called _ _ stack callee =>
    -- The frame of the called function comes to lie on top of the others.
    have hcovers : (p.onFrames ({ f with ip := f.ip + 1, stack := stack } :: others)).Covers id
        (caller :: rest) := covers_of_current hid hsplit rfl rfl
    obtain ⟨upper', g', hframes', hid'⟩ := hcovers
    exact .inl ⟨callee :: upper', g', congrArg (callee :: ·) hframes', hid'⟩
  | returned hi hop hstack =>
    cases upper with
    | nil =>
      obtain ⟨rfl, rfl⟩ := List.cons.inj hsplit
      exact .inr (.returned hf hid hi hop hstack rfl)
    | cons f' upper =>
      obtain ⟨-, rfl⟩ := List.cons.inj hsplit
      cases upper with
      | nil => exact .inl ⟨[], _, rfl, hid⟩
      | cons f'' upper => exact .inl ⟨_ :: upper, g, rfl, hid⟩
  | ended hi hq =>
    have hframes' := (popFrame_of_quiet hquiet hq).1
    cases upper with
    | nil =>
      obtain ⟨rfl, rfl⟩ := List.cons.inj hsplit
      exact .inr (.ended hf hid hi hframes')
    | cons f' upper =>
      obtain ⟨-, rfl⟩ := List.cons.inj hsplit
      exact .inl ⟨upper, g, hframes', hid⟩

/-- The frames below one stay as they are for as long as there are more frames than they. -/
theorem InOrder.after_covers (h : InOrder program p) (hp : p.Covers id (caller :: rest))
    (hmore : ∀ j ≤ k, rest.length + 1 < (p.after ⟨[], policy⟩ handle j).frames.length) :
    (p.after ⟨[], policy⟩ handle k).Covers id (caller :: rest) := by
  induction k with
  | zero => exact hp
  | succ k ih =>
    have hcovers := ih fun j hj => hmore j (Nat.le_succ_of_le hj)
    rcases (inOrder_after h k).step_covers hcovers with hcovers | hleft
    · exact hcovers
    · exact absurd (hmore (k + 1) (Nat.le_refl _)) (Nat.not_lt.2 (Nat.le_of_eq hleft.length_eq))

/-! ## Calls -/

/-- A call that succeeds had its operands, and has entered the function. -/
theorem calls_of_next {i : Instruction} {host : Host Unit} (hp : p.Quiet)
    (hi : p.program.instruction? f.function f.ip = some i) (hop : i.opcode = .call)
    (hq : (p.onFrames (f :: rest)).next host handle = .ok q) :
    ∃ id args body, f.Calls p.program id args (f.waiting i.index).stack ∧
      args.length = i.index ∧ p.program.function? id = some (.compiled body) ∧
      q = p.onFrames (.enter id body.slots args :: f.waiting i.index :: rest) := by
  cases hf : f.stack with
  | nil =>
    have hnext : (p.onFrames (f :: rest)).next host handle = .error (.fault .stackUnderflow) :=
      next_of_underflow hi hf (by simp only [execute, hop]; rfl)
    rw [hnext] at hq
    cases hq
  | cons v stack =>
    rw [next_callDeed hp hi hop hf] at hq
    unfold callDeed at hq
    split at hq
    · next id =>
      split at hq
      · cases hq
      · next hlength =>
        obtain ⟨hcalls, hargs⟩ := calls_of_stack hi hop hf hlength
        have hwaiting : (f.waiting i.index).stack = stack.drop i.index := by
          simp [Frame.waiting, hf]
        split at hq
        · next callee hcallee =>
          cases hq
          obtain ⟨body, hbody, rfl⟩ := entered_eq_ok hcallee
          refine ⟨id, _, body, hwaiting ▸ hcalls, hargs, hbody, ?_⟩
          rw [Frame.onward, ← hwaiting]
          rfl
        · cases hq
    · cases hq

theorem process_of_next {host : Host Unit} (h : p.next host handle = .ok q) :
    (p.step host handle ()).process = q := by
  unfold next at h
  dsimp only at h
  split at h <;> cases h
  rfl

/-- A call that succeeds takes the function and its arguments from the caller, enters the
    function, and touches nothing else. Then, in a run of any length: as long as there are
    more frames than before the call, all these frames are as the call has left them, below
    a frame of the function; and if there are no more than before the next step, then this
    step leaves the function, and all that it changes in those frames is that the caller gets
    the value that the function returns, if it does return one. No value waits in between. -/
theorem Reached.callers_untouched {i : Instruction} (h : Reached program maxDepth policy handle p)
    (hf : p.frames = caller :: rest)
    (hi : program.instruction? caller.function caller.ip = some i) (hop : i.opcode = .call)
    (hq : p.next ⟨[], policy⟩ handle = .ok q) :
    ∃ id args body, caller.Calls program id args (caller.waiting i.index).stack ∧
      args.length = i.index ∧ program.function? id = some (.compiled body) ∧
      q.frames = .enter id body.slots args :: caller.waiting i.index :: rest ∧
      (∀ k, (∀ j ≤ k, p.frames.length < (q.after ⟨[], policy⟩ handle j).frames.length) →
        (q.after ⟨[], policy⟩ handle k).Covers id (caller.waiting i.index :: rest) ∧
          ((q.after ⟨[], policy⟩ handle (k + 1)).frames.length ≤ p.frames.length →
            Left id (caller.waiting i.index) rest (q.after ⟨[], policy⟩ handle k)
              (q.after ⟨[], policy⟩ handle (k + 1)))) ∧
      ∀ k, (q.after ⟨[], policy⟩ handle k).frames ≠ [] →
        (q.after ⟨[], policy⟩ handle k).returnValue = none := by
  have horder : InOrder program p := h.inOrder.1
  have hquiet : p.Quiet := horder.quiet (hf ▸ List.cons_ne_nil _ _)
  have horder' : InOrder program q := process_of_next hq ▸ horder.step
  obtain rfl := horder.program_eq
  have hq' : (p.onFrames (caller :: rest)).next ⟨[], policy⟩ handle = .ok q := by
    rwa [← hf]
  obtain ⟨id, args, body, hcalls, hargs, hbody, hentered⟩ := calls_of_next hquiet hi hop hq'
  have hframes : q.frames = .enter id body.slots args :: caller.waiting i.index :: rest :=
    congrArg frames hentered
  refine ⟨id, args, body, hcalls, hargs, hbody, hframes, fun k hmore => ?_, fun k hne => ?_⟩
  · rw [hf, List.length_cons] at hmore ⊢
    have hcovers := horder'.after_covers ⟨[], _, hframes, rfl⟩ hmore
    refine ⟨hcovers, fun hle => ?_⟩
    have hstep : (q.after ⟨[], policy⟩ handle (k + 1)).Covers id (caller.waiting i.index :: rest) ∨
        Left id (caller.waiting i.index) rest (q.after ⟨[], policy⟩ handle k)
          (q.after ⟨[], policy⟩ handle (k + 1)) := (inOrder_after horder' k).step_covers hcovers
    rcases hstep with hcovers' | hleft
    · exact absurd hcovers'.length_lt (Nat.not_lt.2 hle)
    · exact hleft
  · exact ((inOrder_after horder' k).quiet hne).returnValue

/-- A function that calls another one above an operand of its own. That one returns its
    argument, after a third one has come to its end without returning anything. -/
def relay : Program where
  strings := #[]
  functions := #[
    .compiled (.ofCode #[.bare .pushUnit, .ofNat .pushBool 1, .ofNat .pushFunction 1,
      .ofNat .call 1]),
    .compiled (.ofCode #[.ofNat .getLocal 1, .ofNat .pushFunction 2, .ofNat .call 0, .bare .ret]),
    .compiled (.ofCode #[.bare .nop])]
  names := []

theorem Reached.callers_untouched_relay :
    ∃ p q caller, Reached relay 3 .ignore ⟨0⟩ p ∧ p.frames = [caller] ∧
      p.next .detached ⟨0⟩ = .ok q ∧ caller.stack = [.functionRef 1, .boolean true, .unit] ∧
      (q.after .detached ⟨0⟩ 3).Covers 1 [caller.waiting 1] ∧
      Left 1 (caller.waiting 1) [] (q.after .detached ⟨0⟩ 5) (q.after .detached ⟨0⟩ 6) := by
  let p := (Process.new relay 3).onFrames [⟨0, 3, [.functionRef 1, .boolean true, .unit], #[none]⟩]
  let q := p.onFrames [.enter 1 2 [.boolean true], ⟨0, 4, [.unit], #[none]⟩]
  have hentered : Reached relay 3 .ignore ⟨0⟩ ((Process.new relay 3).onFrames [.enter 0 0 []]) :=
    Reached.new.enter 0 [] rfl rfl
  have hp : Reached relay 3 .ignore ⟨0⟩ p := hentered.step.step.step
  have hnext : p.next .detached ⟨0⟩ = .ok q := by decide +kernel
  have hmore : ∀ j ≤ 5, 1 < (q.after .detached ⟨0⟩ j).frames.length := by decide +kernel
  have hless : (q.after .detached ⟨0⟩ 6).frames.length ≤ 1 := by decide +kernel
  obtain ⟨id, args, body, hcalls, -, -, -, hrun, -⟩ := hp.callers_untouched rfl rfl rfl hnext
  obtain rfl : 1 = id := Value.functionRef.inj (List.cons.inj hcalls.operands).1
  exact ⟨p, q, _, hp, rfl, hnext, rfl, (hrun 3 fun j hj => hmore j (by omega)).1,
    (hrun 5 hmore).2 hless⟩

/-- A function that returns a value, and one that calls a third one, which comes to its end without
    returning anything. -/
def leftover : Program where
  strings := #[]
  functions := #[
    .compiled (.ofCode #[.ofInt .pushInt 1, .bare .ret]),
    .compiled (.ofCode #[.ofNat .pushFunction 2, .ofNat .call 0]),
    .compiled (.ofCode #[.bare .nop])]
  names := []

/-- If a function is entered while a value waits that an earlier one has left to the host, then
    this value still waits when another function is called, and the caller gets it from code that
    has come to its end. -/
theorem leftover_delivered :
    ∃ p q r caller callee, (new leftover 3).enter 0 [] = .ok p ∧
      (p.after .detached ⟨0⟩ 2).frames = [] ∧ (p.after .detached ⟨0⟩ 2).enter 1 [] = .ok q ∧
      (q.after .detached ⟨0⟩ 1).frames = [caller] ∧
      leftover.instruction? caller.function caller.ip = some (.ofNat .call 0) ∧
      (q.after .detached ⟨0⟩ 1).next .detached ⟨0⟩ = .ok r ∧ r.returnValue = some (.int 1) ∧
      (r.after .detached ⟨0⟩ 1).frames = [callee, caller.waiting 0] ∧
      leftover.instruction? callee.function callee.ip = none ∧
      (r.after .detached ⟨0⟩ 2).frames = [(caller.waiting 0).receive (.int 1)] := by
  let p := (Process.new leftover 3).onFrames [.enter 0 0 []]
  let q := (p.after .detached ⟨0⟩ 2).onFrames [.enter 1 0 []]
  have hreturned : (p.after .detached ⟨0⟩ 2).frames = [] := by decide +kernel
  have hentered : (p.after .detached ⟨0⟩ 2).enter 1 [] = .ok q := by decide +kernel
  refine ⟨p, q, q.after .detached ⟨0⟩ 2, ⟨1, 1, [.functionRef 2], #[none]⟩, ⟨2, 1, [], #[none]⟩, rfl,
    hreturned, hentered, ?_, rfl, ?_, ?_, ?_, rfl, ?_⟩
  all_goals decide +kernel

end Process

end ScriptMachine
