import ScriptMachine.Host.Toolbox
import ScriptMachine.Proofs.Alone

/-!
# Functions of the host that keep to the operations

A function of the host gets hold of the process that calls it. All it can do to the process
is to carry out operations on it, one after the other (`Operation`); which ones these are
may depend on everything it sees, and it may fail at any moment. A function is *built* from
operations (`HostFunction.Built`) if what it leaves of a process is always what some
operations leave of it. The functions of the toolbox are (`Tool.function_built`).

Operations move a process about, but they neither take away its frames nor end it
(`Process.Going.operate`). Under such functions:

* `Process.perform_going`: an instruction by itself keeps a process going, also if it fails;
* `Process.slice_going`: a slice that does not fail leaves a process that goes on, or else
  its last step has left the last frame (`Process.LeavesLast`).
-/

namespace ScriptMachine

variable {σ : Type}

/-- What a function of the host can do to a process. Looking at it changes nothing and is not
    listed. -/
inductive Operation where
  | push (v : Value)
  | pop
  | popN (n : Nat)
  | setLocal (slot : Nat) (v : Value)
  | enter (id : Nat) (args : List Value)
  | exit
  | jump (ip : Nat)
  | setReturnValue (v : Value)
  | takeReturnValue
  | pause
  | wake
  | attach (a : Attachment)

namespace Process

/-- The process after an operation that may have failed. -/
def attempt (p : Process) : Except Fault Process → Process
  | .ok q => q
  | .error _ => p

/-- The process after an operation, which does nothing if it fails. -/
def carryOut (p : Process) : Operation → Process
  | .push v => p.attempt (p.push v)
  | .pop => p.attempt (Prod.snd <$> p.pop)
  | .popN n => p.attempt (Prod.snd <$> p.popN n)
  | .setLocal slot v => p.attempt (p.setLocal slot v)
  | .enter id args => p.attempt (p.enter id args)
  | .exit => p.exitFunction
  | .jump ip => p.jumpTo ip
  | .setReturnValue v => p.setReturnValue v
  | .takeReturnValue => p.takeReturnValue.2
  | .pause => p.pause
  | .wake => p.wake
  | .attach a => p.attach a

/-- The process after some operations. -/
def operate (p : Process) (ops : List Operation) : Process := ops.foldl carryOut p

end Process

/-- The function leaves of every process what some operations leave of it. -/
def HostFunction.Built (f : HostFunction σ) : Prop :=
  ∀ handle args p s, ∃ ops, (f handle args p s).process = p.operate ops

/-- All functions of the host are built from operations. -/
def Host.Built (host : Host σ) : Prop :=
  ∀ name f, host.functions.get? name = some f → f.Built

/-! ## The toolbox -/

theorem ofResult_process (p : Process) (s : σ) (x : Except Fault Process) :
    (Host.ofResult p s x).process = p.attempt x := by
  cases x with
  | ok q => rfl
  | error f => rfl

/-- A turn that was refused before anything was done. -/
theorem exists_operate_of_bind {α : Type} {p : Process} {s : σ} (x : Except Fault α)
    {next : α → Except Fault Process}
    (h : ∀ a, ∃ ops, (Host.ofResult p s (next a)).process = p.operate ops) :
    ∃ ops, (Host.ofResult p s (x >>= next)).process = p.operate ops := by
  cases x with
  | error e => exact ⟨[], rfl⟩
  | ok a => exact h a

/-- Counting on is two operations, of which the second may fail: then there is no trace of
    the first. -/
theorem countOn_built (p : Process) : ∃ ops, p.attempt (Tool.countOn p) = p.operate ops := by
  rw [Tool.countOn]
  split
  · next n _ =>
    cases hpush : (p.attach (.number (n + 1))).push (.int (Int32.ofInt (n + 1))) with
    | error f => exact ⟨[], rfl⟩
    | ok q =>
      refine ⟨[.attach (.number (n + 1)), .push (.int (Int32.ofInt (n + 1)))], ?_⟩
      simp only [Process.operate, List.foldl_cons, List.foldl_nil, Process.carryOut, hpush]
      rfl
  · exact ⟨[.push (.int (-1))], rfl⟩

theorem popNoted_built (h : Handle) (p : Process) (d : Desk) :
    ∃ ops, (Tool.popNoted h p d).process = p.operate ops := by
  rw [Tool.popNoted]
  split
  · next v q hpop =>
    refine ⟨[.pop], ?_⟩
    simp [Process.operate, Process.carryOut, hpop, Host.ofResult, Process.attempt, Functor.map,
      Except.map]
  · exact ⟨[], rfl⟩

/-- The functions of the toolbox are built from operations. -/
theorem Tool.function_built (tool : Tool) : tool.function.Built := by
  intro handle args p d
  have push (v : Value) : ∃ ops, (Host.ofResult p d (p.push v)).process = p.operate ops :=
    ⟨[.push v], ofResult_process p d _⟩
  cases tool <;> simp only [Tool.function]
  case print | boom | boomText | boomSilent | fail => exact ⟨[], rfl⟩
  case echo | args | join | owner | depth | handle | status => exact push _
  case double => exact exists_operate_of_bind _ fun _ => push _
  case sleep =>
    refine ⟨[.pause, .push (.string "slept")], ?_⟩
    rw [ofResult_process]
    rfl
  case nap => exact ⟨[.pause], rfl⟩
  case count =>
    rw [ofResult_process]
    exact countOn_built p
  case call =>
    rw [ofResult_process, Tool.enterFirst.eq_def]
    split
    · exact ⟨[.enter _ _], rfl⟩
    · exact ⟨[], rfl⟩
  case jump =>
    cases Tool.index args with
    | error f => exact ⟨[], rfl⟩
    | ok ip => exact ⟨[.jump ip], rfl⟩
  case quit => exact ⟨[.setReturnValue _, .exit], rfl⟩
  case exit => exact ⟨[.exit], rfl⟩
  case setReturn => exact ⟨[.setReturnValue _], rfl⟩
  case getLocal | string =>
    exact exists_operate_of_bind _ fun _ => exists_operate_of_bind _ fun _ => push _
  case setLocal =>
    exact exists_operate_of_bind _ fun slot => ⟨[.setLocal slot _], ofResult_process p d _⟩
  case pop => exact popNoted_built handle p d

/-! ## Operations keep a process going -/

namespace Process

section Going

variable {p q : Process} {x : Except Fault Process}

theorem Stays.going (h : p.Stays q) (hp : p.Going) : q.Going := ⟨h.1 hp.1, h.2 ▸ hp.2⟩

/-- What fails has done nothing. -/
theorem Going.attempt (hp : p.Going) (h : ∀ q, x = .ok q → q.Going) : (p.attempt x).Going := by
  cases x with
  | error f => exact hp
  | ok q => exact h q rfl

theorem exists_of_map_snd {α : Type} {y : Except Fault (α × Process)} (h : Prod.snd <$> y = .ok q) :
    ∃ a, y = .ok (a, q) := by
  cases y with
  | error f => exact nomatch h
  | ok x => exact ⟨x.1, congrArg Except.ok (Prod.ext rfl (Except.ok.inj h))⟩

theorem Going.pause (hp : p.Going) : p.pause.Going := by
  rw [Process.pause]
  split
  · exact ⟨hp.1, .inr rfl⟩
  · exact hp

theorem Going.wake (hp : p.Going) : p.wake.Going := by
  rw [Process.wake]
  split
  · exact ⟨hp.1, .inl rfl⟩
  · exact hp

theorem Going.carryOut (hp : p.Going) (op : Operation) : (p.carryOut op).Going := by
  cases op with
  | push v => exact hp.attempt fun q hq => (stays_push hq).going hp
  | pop =>
    refine hp.attempt fun q hq => ?_
    obtain ⟨v, hpop⟩ := exists_of_map_snd hq
    exact (stays_pop hpop).going hp
  | popN n =>
    refine hp.attempt fun q hq => ?_
    obtain ⟨vs, hpop⟩ := exists_of_map_snd hq
    exact (stays_popN hpop).going hp
  | setLocal slot v => exact hp.attempt fun q hq => (stays_setLocal hq).going hp
  | enter id args =>
    exact hp.attempt fun q hq => ⟨(enter_eq_ok hq).1, (enter_eq_ok hq).2 ▸ hp.2⟩
  | pause => exact hp.pause
  | wake => exact hp.wake
  | exit | jump | setReturnValue | takeReturnValue | attach => exact hp

theorem Going.operate (hp : p.Going) (ops : List Operation) : (p.operate ops).Going := by
  induction ops generalizing p with
  | nil => exact hp
  | cons op ops ih => exact ih (hp.carryOut op)

end Going

/-! ## Steps and slices -/

section Slice

variable {host : Host σ} {handle : Handle} {p q : Process} {s : σ} {t : Turn σ} {budget : Nat}

/-- A call of a function of the host keeps the process going, whether or not it fails. -/
theorem Going.call (hhost : host.Built) (hp : p.Going) (name : String) (args : List Value) (s : σ) :
    (host.call handle name args p s).process.Going := by
  rw [Host.call]
  split
  · next f hf =>
    obtain ⟨ops, hops⟩ := hhost name f hf handle args p s
    rw [hops]
    exact hp.operate ops
  · -- Nothing is bound to the name.
    split
    · exact hp
    · rw [ofResult_process]
      exact hp.attempt fun q hq => (stays_push hq).going hp
    · exact hp

/-- An instruction by itself keeps the process going, whether or not it fails. -/
theorem perform_going (hhost : host.Built) (hp : p.Going) (i : Instruction) (s : σ) :
    (perform host handle i p s).process.Going := by
  have hgoing : (p.execute i).1.Going := (p.stays_execute i).going hp
  rw [perform]
  split
  · next hexecute =>
    rw [hexecute] at hgoing
    exact hgoing
  · next hexecute =>
    rw [hexecute] at hgoing
    exact hgoing
  · next q name args hexecute =>
    rw [hexecute] at hgoing
    exact hgoing.call hhost name args s

/-- After a step that does not fail, a process goes on or is over. -/
theorem step_going_or_over (hhost : host.Built) (hp : p.Going)
    (h : (p.step host handle s).result = .ok ()) :
    (p.step host handle s).process.Going ∨ (p.step host handle s).process.Over := by
  rw [step] at h ⊢
  split
  · next hcurrent => simp [hcurrent] at h
  · next hcurrent =>
    rw [hcurrent] at h
    cases hpop : p.popFrame with
    | error f => simp [hpop, Host.ofResult] at h
    | ok q => exact popFrame_going (.inl hp) hpop
  · next i hcurrent =>
    rw [hcurrent] at h
    exact settle_going (fun _ => .inl (perform_going hhost hp i s)) h

/-- A step of `p` leaves its last frame, and `q` is what remains. Either the function is at
    its end, or an instruction has asked for it to be left. -/
def LeavesLast (host : Host σ) (handle : Handle) (s : σ) (p q : Process) : Prop :=
  ∃ r f, r.frames = [f] ∧ r.popFrame = .ok q ∧
    ((p.current = .ok none ∧ r = p) ∨
      ∃ i, p.current = .ok (some i) ∧ (perform host handle i p s).result = .ok () ∧
        (perform host handle i p s).process.transfer = some .exit ∧
        r = { (perform host handle i p s).process with transfer := none })

/-- A frame that is there can be left. -/
theorem exists_popFrame (hp : p.frames ≠ []) : ∃ q, p.popFrame = .ok q := by
  rw [popFrame]
  split
  · next hframes => exact absurd hframes hp
  · exact ⟨_, rfl⟩
  · split
    · exact ⟨_, rfl⟩
    · exact ⟨_, rfl⟩

/-- Leaving a frame leads to a process without frames only if it was the last one. -/
theorem frames_of_popFrame (h : p.popFrame = .ok q) (hq : q.frames = []) : ∃ f, p.frames = [f] := by
  rw [popFrame] at h
  split at h
  · simp at h
  · next f hframes => exact ⟨f, hframes⟩
  · split at h
    · obtain rfl := Except.ok.inj h
      simp at hq
    · obtain rfl := Except.ok.inj h
      simp at hq

/-- Control moves behind the last frame only by leaving it. -/
theorem proceed_over {depth : Nat} (hp : p.Going) (h : p.proceed depth = .ok q) (hq : q.frames = []) :
    p.transfer = some .exit ∧ popFrame { p with transfer := none } = .ok q := by
  rw [proceed] at h
  split at h
  · next htransfer => exact ⟨htransfer, h⟩
  all_goals
    obtain rfl := Except.ok.inj h
    rw [setIp] at hq
    split at hq
    · exact absurd (by simpa using hq) hp.1
    · exact absurd hq hp.1

/-- A step that brings a process to an end leaves its last frame. -/
theorem step_over (hhost : host.Built) (hp : p.Going) (h : (p.step host handle s).result = .ok ())
    (hover : (p.step host handle s).process.frames = []) :
    p.LeavesLast host handle s (p.step host handle s).process := by
  rw [step] at h hover ⊢
  split
  · next hcurrent => simp [hcurrent] at h
  · next hcurrent =>
    rw [hcurrent] at h hover
    cases hpop : p.popFrame with
    | error f => simp [hpop, Host.ofResult] at h
    | ok q =>
      simp only [hpop, Host.ofResult] at hover ⊢
      obtain ⟨f, hframes⟩ := frames_of_popFrame hpop hover
      exact ⟨p, f, hframes, hpop, .inl ⟨hcurrent, rfl⟩⟩
  · next i hcurrent =>
    rw [hcurrent] at h hover
    have hgoing : (perform host handle i p s).process.Going := perform_going hhost hp i s
    simp only [settle] at h hover ⊢
    split
    · next hresult => simp [hresult] at h
    · next hresult =>
      rw [hresult] at h hover
      split
      · next q hproceed =>
        simp only [hproceed] at hover
        obtain ⟨htransfer, hpop⟩ := proceed_over hgoing hproceed hover
        obtain ⟨f, hframes⟩ := frames_of_popFrame hpop hover
        exact ⟨_, f, hframes, hpop, .inr ⟨i, hcurrent, hresult, htransfer, rfl⟩⟩
      · next hproceed => simp [hproceed] at h

/-- A slice that does not fail leaves a process that goes on. Otherwise the process is over,
    and the last step of the slice has left its last frame. -/
theorem slice_going (hhost : host.Built) (budget : Nat) (ht : t.result = .ok ())
    (hgoing : t.process.Going) (h : (slice host handle budget t).result = .ok ()) :
    (slice host handle budget t).process.Going ∨
      ((slice host handle budget t).process.Over ∧
        ∃ k < budget, (slice host handle k t).result = .ok () ∧
          (slice host handle k t).process.status = .running ∧
          (slice host handle k t).process.LeavesLast host handle (slice host handle k t).host
            (slice host handle budget t).process) := by
  induction budget generalizing t with
  | zero => exact .inl hgoing
  | succ budget ih =>
    by_cases hstatus : t.process.status = .running
    · obtain ⟨next, hslice, hprocess, hresult⟩ := slice_succ ht hstatus
      rw [hslice budget] at h ⊢
      have hok : next.result = .ok () := by
        cases hnext : next.result with
        | error r => simp [slice_of_error hnext, hnext] at h
        | ok u => rfl
      have hafter := step_going_or_over hhost hgoing (hresult ▸ hok)
      rw [← hprocess] at hafter
      rcases hafter with hgoes | hover
      · refine (ih hok hgoes h).imp_right ?_
        rintro ⟨hover, k, hk, hlast⟩
        refine ⟨hover, k + 1, Nat.succ_lt_succ hk, ?_⟩
        rwa [hslice k]
      · -- The step has ended the process, and the slice with it.
        rw [slice_of_status (by simp [hover.2])]
        refine .inr ⟨hover, 0, Nat.succ_pos budget, ht, hstatus, ?_⟩
        rw [hprocess]
        exact step_over hhost hgoing (hresult ▸ hok) (hprocess ▸ hover.1)
    · rw [slice_of_status hstatus]
      exact .inl hgoing

end Slice

end Process

end ScriptMachine
