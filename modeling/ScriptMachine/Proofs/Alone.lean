import ScriptMachine.Machine

/-!
# Processes on their own

What would become of a process if there were no machine, no other processes and nobody
who puts it to sleep? It would take one step after the other until it comes to an end
(`Process.alone`). In a machine it takes its steps in slices, and functions of the host
may put it to sleep in between.

A process on its own needs a host without a state. The hosts that are considered here do
to a process what such a host does (`Host.Agrees`): the outcome of a call depends on the
process, its handle and the arguments only. Functions of the host may do to a process
whatever processes allow: push results, jump, call functions of the script, go to sleep.
They do not, however, take away its frames without bringing it to an end
(`Host.Lawful`).

* `Process.step_agrees`: a step does the same under both hosts.
* `Process.step_going`: after a step a process goes on, or is over.
* `Process.slice_outcome`: a slice is some number of steps of the process on its own; if
  that number is smaller than the budget, then the process has ended or fallen asleep
  (`Process.Stretch`).
-/

namespace ScriptMachine

variable {σ : Type}

namespace Process

/-- The process is in a function, and can be scheduled. -/
def Going (p : Process) : Prop := p.frames ≠ [] ∧ (p.status = .running ∨ p.status = .sleeping)

/-- The process has come to an end. -/
def Over (p : Process) : Prop := p.frames = [] ∧ p.status = .inactive

end Process

/-! ## Hosts without a state -/

namespace Host

/-- To every process, the host does what another one does that has no state. -/
def Agrees (host : Host σ) (bare : Host Unit) : Prop :=
  ∀ handle name args p s,
    (host.call handle name args p s).process = (bare.call handle name args p ()).process ∧
      (host.call handle name args p s).result = (bare.call handle name args p ()).result

/-- The functions of the host leave a process in a function, or bring it to an end, unless
    they fail. -/
def Lawful (host : Host Unit) : Prop :=
  ∀ name f, host.functions.get? name = some f → ∀ handle args p, p.frames ≠ [] →
    p.status = .running → (f handle args p ()).result = .ok () →
    (f handle args p ()).process.Going ∨ (f handle args p ()).process.Over

end Host

namespace Process

/-! ## What an instruction leaves alone -/

/-- A process that is in a function stays in one, and its status does not change. -/
def Stays (p q : Process) : Prop := (p.frames ≠ [] → q.frames ≠ []) ∧ q.status = p.status

section Stays

variable {p q r : Process} {v : Value} {n : Nat} {vs : List Value}

theorem Stays.refl (p : Process) : p.Stays p := ⟨id, rfl⟩

theorem Stays.trans (hpq : p.Stays q) (hqr : q.Stays r) : p.Stays r :=
  ⟨fun hp => hqr.1 (hpq.1 hp), hqr.2.trans hpq.2⟩

theorem stays_push (h : p.push v = .ok q) : p.Stays q := by
  unfold push at h
  split at h
  · simp at h
  · obtain rfl := Except.ok.inj h
    exact ⟨fun _ => List.cons_ne_nil _ _, rfl⟩

theorem stays_pop (h : p.pop = .ok (v, q)) : p.Stays q := by
  unfold pop at h
  split at h
  · simp at h
  · split at h
    · simp at h
    · obtain ⟨-, rfl⟩ := Prod.mk.inj (Except.ok.inj h)
      exact ⟨fun _ => List.cons_ne_nil _ _, rfl⟩

theorem stays_popN (h : p.popN n = .ok (vs, q)) : p.Stays q := by
  unfold popN at h
  split at h
  · simp at h
  · split at h
    · simp at h
    · obtain ⟨-, rfl⟩ := Prod.mk.inj (Except.ok.inj h)
      exact ⟨fun _ => List.cons_ne_nil _ _, rfl⟩

theorem stays_setLocal (h : p.setLocal n v = .ok q) : p.Stays q := by
  unfold setLocal at h
  split at h
  · simp at h
  · split at h
    · simp at h
    · obtain rfl := Except.ok.inj h
      exact ⟨fun _ => List.cons_ne_nil _ _, rfl⟩

/-- A function that is entered has a frame. -/
theorem enter_eq_ok (h : p.enter n vs = .ok q) : q.frames ≠ [] ∧ q.status = p.status := by
  unfold enter at h
  split at h
  · simp at h
  · split at h
    · split at h
      · simp at h
      · obtain rfl := Except.ok.inj h
        exact ⟨List.cons_ne_nil _ _, rfl⟩
    · simp at h
    · simp at h
    · simp at h

theorem stays_finish {x : Except Fault Process} (h : ∀ q, x = .ok q → p.Stays q) :
    p.Stays (p.finish x).1 := by
  cases x with
  | error e => exact .refl p
  | ok q => exact h q rfl

theorem stays_withOperand {next : Value → Process → Executed}
    (h : ∀ (v : Value) (q : Process), q.Stays (next v q).1) : p.Stays (p.withOperand next).1 := by
  unfold withOperand
  split
  · next v q hpop => exact (stays_pop hpop).trans (h v q)
  · exact .refl p

theorem stays_withOperands {next : List Value → Process → Executed}
    (h : ∀ (vs : List Value) (q : Process), q.Stays (next vs q).1) : p.Stays (p.withOperands n next).1 := by
  unfold withOperands
  split
  · next vs q hpop => exact (stays_popN hpop).trans (h vs q)
  · exact .refl p

theorem stays_pushResult (x : Except Fault Value) : p.Stays (p.pushResult x).1 := by
  cases x with
  | error e => exact .refl p
  | ok v => exact stays_finish fun q hq => stays_push hq

theorem stays_binary (op : Value → Value → Except Fault Value) : p.Stays (p.binary op).1 :=
  stays_withOperand fun _ _ => stays_withOperand fun _ _ => stays_pushResult _

theorem stays_branch (i : Instruction) (expected : Bool) : p.Stays (p.branch i expected).1 := by
  refine stays_withOperand fun v q => ?_
  split
  · dsimp only
    split
    · exact ⟨id, rfl⟩
    · exact .refl q
  · exact .refl q

/-- An instruction by itself keeps the process in a function. -/
theorem stays_execute (i : Instruction) : p.Stays (p.execute i).1 := by
  cases hop : i.opcode <;> simp only [execute, hop]
  case nop | invalid => exact .refl p
  case pushInt | pushFloat | pushBool | pushFunction | pushUnit =>
    exact stays_finish fun q hq => stays_push hq
  case pushString | getLocal => exact stays_pushResult _
  case add | sub | mul | div | and | or | gt | lt | gte | lte | eq => exact stays_binary _
  case not => exact stays_withOperand fun _ _ => stays_pushResult _
  case jumpIf | jumpUnless => exact stays_branch _ _
  case jump => exact ⟨id, rfl⟩
  case external =>
    refine stays_withOperand fun v q => ?_
    split
    · exact stays_withOperands fun _ r => .refl r
    · exact .refl q
  case call =>
    refine stays_withOperand fun v q => ?_
    split
    · exact stays_withOperands fun _ r => stays_finish fun r' hr' =>
        ⟨fun _ => (enter_eq_ok hr').1, (enter_eq_ok hr').2⟩
    · exact .refl q
  case ret => exact stays_withOperand fun _ _ => ⟨id, rfl⟩
  case setLocal => exact stays_withOperand fun _ _ => stays_finish fun r hr => stays_setLocal hr

end Stays

/-! ## A step -/

section Step

variable {host : Host σ} {bare : Host Unit} {handle : Handle} {p q : Process} {i : Instruction}
  {s : σ}

/-- Leaving the last frame brings a process to an end. -/
theorem popFrame_going (hp : p.Going ∨ p.Over) (h : p.popFrame = .ok q) : q.Going ∨ q.Over := by
  unfold popFrame at h
  split at h
  · simp at h
  · obtain rfl := Except.ok.inj h
    exact .inr ⟨rfl, rfl⟩
  · next hframes =>
    have hgoing := hp.resolve_right fun hover => by simp [hover.1] at hframes
    -- The caller may be given a value.
    split at h
    · obtain rfl := Except.ok.inj h
      exact .inl ⟨List.cons_ne_nil _ _, hgoing.2⟩
    · obtain rfl := Except.ok.inj h
      exact .inl ⟨List.cons_ne_nil _ _, hgoing.2⟩

theorem setIp_going (hp : p.Going ∨ p.Over) (depth : Nat) (ip : Nat → Nat) :
    (p.setIp depth ip).Going ∨ (p.setIp depth ip).Over := by
  unfold setIp
  split
  · refine hp.imp (fun hgoing => ⟨?_, hgoing.2⟩) fun hover => ⟨?_, hover.2⟩
    · simpa using hgoing.1
    · simpa using hover.1
  · exact hp

/-- Moving control keeps a process going, or brings it to an end. -/
theorem proceed_going {depth : Nat} (hp : p.Going ∨ p.Over) (h : p.proceed depth = .ok q) :
    q.Going ∨ q.Over := by
  have hsettled : Going { p with transfer := none } ∨ Over { p with transfer := none } := hp
  unfold proceed at h
  split at h
  · exact popFrame_going hsettled h
  · obtain rfl := Except.ok.inj h
    exact setIp_going hsettled _ _
  · obtain rfl := Except.ok.inj h
    exact setIp_going hsettled _ _

theorem settle_going {depth : Nat} {t : Turn σ} (ht : t.result = .ok () → t.process.Going ∨ t.process.Over)
    (h : (settle depth t).result = .ok ()) :
    (settle depth t).process.Going ∨ (settle depth t).process.Over := by
  unfold settle at h ⊢
  split
  · next hresult => simp [hresult] at h
  · next hresult =>
    split
    · next hproceed => exact proceed_going (ht hresult) hproceed
    · next hproceed => simp [hresult, hproceed] at h

/-- A call leaves the process in a function, or brings it to an end. -/
theorem call_going {name : String} {args : List Value} (hbare : bare.Lawful)
    (hp : p.frames ≠ []) (hstatus : p.status = .running)
    (h : (bare.call handle name args p ()).result = .ok ()) :
    (bare.call handle name args p ()).process.Going ∨
      (bare.call handle name args p ()).process.Over := by
  unfold Host.call at h ⊢
  split
  · next f hf =>
    rw [hf] at h
    exact hbare name f hf handle args p hp hstatus h
  · -- Nothing is bound to the name.
    split
    · exact .inl ⟨hp, .inl hstatus⟩
    · cases hpush : p.push .unit with
      | error e => simp_all [Host.ofResult]
      | ok q =>
        obtain ⟨hframes, hq⟩ := stays_push hpush
        exact .inl ⟨hframes hp, .inl (hq.trans hstatus)⟩
    · simp_all [Host.ofResult]

/-- After a step that does not fail, a process goes on or is over. -/
theorem step_going (hbare : bare.Lawful) (hp : p.frames ≠ []) (hstatus : p.status = .running)
    (h : (p.step bare handle ()).result = .ok ()) :
    (p.step bare handle ()).process.Going ∨ (p.step bare handle ()).process.Over := by
  unfold step at h ⊢
  split
  · next hcurrent => simp [hcurrent] at h
  · -- Behind the last instruction, the frame is left.
    next hcurrent =>
    rw [hcurrent] at h
    cases hpop : p.popFrame with
    | error e => simp [hpop, Host.ofResult] at h
    | ok q => exact popFrame_going (.inl ⟨hp, .inl hstatus⟩) hpop
  · next i hcurrent =>
    rw [hcurrent] at h
    -- An instruction by itself does not end anything: that is left to the host, if it is
    -- called, and to what moves control afterwards.
    refine settle_going (fun hperform => ?_) h
    obtain ⟨hframes, hkept⟩ := p.stays_execute i
    unfold perform at hperform ⊢
    split
    · next hexecute => simp [hexecute] at hperform
    · next hexecute =>
      rw [hexecute] at hframes hkept
      exact .inl ⟨hframes hp, .inl (hkept.trans hstatus)⟩
    · next hexecute =>
      rw [hexecute] at hframes hkept hperform
      exact call_going hbare (hframes hp) (hkept.trans hstatus) hperform

theorem settle_congr {τ : Type} {depth : Nat} {t : Turn σ} {t' : Turn τ}
    (hprocess : t.process = t'.process) (hresult : t.result = t'.result) :
    (settle depth t).process = (settle depth t').process ∧
      (settle depth t).result = (settle depth t').result := by
  unfold settle
  rw [hprocess, hresult]
  split
  · exact ⟨hprocess, hresult⟩
  · split
    · exact ⟨rfl, rfl⟩
    · exact ⟨rfl, rfl⟩

/-- A step does the same to a process under hosts that agree. -/
theorem step_agrees (h : host.Agrees bare) (handle : Handle) (p : Process) (s : σ) :
    (p.step host handle s).process = (p.step bare handle ()).process ∧
      (p.step host handle s).result = (p.step bare handle ()).result := by
  unfold step
  split
  · exact ⟨rfl, rfl⟩
  · cases p.popFrame with
    | error e => exact ⟨rfl, rfl⟩
    | ok q => exact ⟨rfl, rfl⟩
  · next i _ =>
    have hperform : (perform host handle i p s).process = (perform bare handle i p ()).process ∧
        (perform host handle i p s).result = (perform bare handle i p ()).result := by
      unfold perform
      split
      · exact ⟨rfl, rfl⟩
      · exact ⟨rfl, rfl⟩
      · exact h _ _ _ _ _
    exact settle_congr hperform.1 hperform.2

end Step

end Process

/-! ## Runs of a process on its own -/

/-- A process on its own, and how its invocation ended if it has. -/
structure Solo where
  process : Process
  exit : Option Exit
deriving DecidableEq

/-- What a turn makes of a process that was going on. -/
def Turn.outcome (t : Turn σ) : Solo :=
  match t.result with
  | .error r => ⟨t.process.halt, some (.faulted r.toFault)⟩
  | .ok _ => ⟨t.process, if t.process.frames = [] then some .completed else none⟩

namespace Solo

variable (host : Host Unit) (handle : Handle)

/-- One more step, unless the process has come to an end. If the process has gone to
    sleep, it is woken. -/
def advance (s : Solo) : Solo :=
  match s.exit with
  | some _ => s
  | none => (s.process.wake.step host handle ()).outcome

/-- So many more steps. -/
def advances : Nat → Solo → Solo
  | 0, s => s
  | n + 1, s => advances n (s.advance host handle)

end Solo

/-- The process on its own, after so many steps. -/
def Process.alone (p : Process) (host : Host Unit) (handle : Handle) (n : Nat) : Solo :=
  .advances host handle n ⟨p, none⟩

namespace Solo

variable {host : Host Unit} {handle : Handle} {s s' : Solo} {m n : Nat} {p q : Process}

theorem advances_add (m n : Nat) (s : Solo) :
    advances host handle (m + n) s = advances host handle n (advances host handle m s) := by
  induction m generalizing s with
  | zero => rw [Nat.zero_add]; rfl
  | succ m ih => rw [Nat.add_right_comm, advances, ih, advances]

theorem advance_of_exit {x : Exit} (h : s.exit = some x) : s.advance host handle = s := by
  rw [advance, h]

theorem advances_of_exit {x : Exit} (h : s.exit = some x) (n : Nat) : advances host handle n s = s := by
  induction n with
  | zero => rfl
  | succ n ih => rw [advances, advance_of_exit h, ih]

/-- The process goes on exactly as long as there is no exit. -/
def Fine (s : Solo) : Prop :=
  match s.exit with
  | none => s.process.Going
  | some _ => s.process.Over

theorem fine_of_going (h : p.Going) : Fine ⟨p, none⟩ := h

end Solo

namespace Process

variable {host : Host σ} {bare : Host Unit} {handle : Handle} {p q : Process} {m n : Nat}

theorem wake_frames (p : Process) : p.wake.frames = p.frames := by
  unfold wake
  split <;> rfl

theorem wake_returnValue (p : Process) : p.wake.returnValue = p.returnValue := by
  unfold wake
  split <;> rfl

theorem frames_of_wake_eq (h : p.wake = q.wake) : p.frames = q.frames := by
  rw [← p.wake_frames, h, q.wake_frames]

theorem returnValue_of_wake_eq (h : p.wake = q.wake) : p.returnValue = q.returnValue := by
  rw [← p.wake_returnValue, h, q.wake_returnValue]

theorem wake_of_ne_sleeping (h : p.status ≠ .sleeping) : p.wake = p := if_neg h

theorem wake_of_running (h : p.status = .running) : p.wake = p :=
  wake_of_ne_sleeping (by simp [h])

/-- A process that goes on runs once it is woken. -/
theorem Going.wake_status (h : p.Going) : p.wake.status = .running := by
  rcases h.2 with hstatus | hstatus
  · rw [wake_of_running hstatus, hstatus]
  · rw [wake, if_pos hstatus]

theorem wake_wake (p : Process) : p.wake.wake = p.wake := by
  by_cases h : p.status = .sleeping
  · exact wake_of_running (by rw [wake, if_pos h])
  · rw [wake_of_ne_sleeping h, wake_of_ne_sleeping h]

/-- A process that was put to sleep is woken to what it was. -/
theorem wake_pause (p : Process) : p.pause.wake = p.wake := by
  by_cases h : p.status = .running
  · obtain ⟨program, frames, status, value, transfer, attachment, depth⟩ := p
    obtain rfl : status = .running := h
    rfl
  · rw [pause, if_neg h]

theorem halt_over (p : Process) : p.halt.Over := ⟨rfl, rfl⟩

/-- The outcome of a step is fine. -/
theorem outcome_fine (hbare : bare.Lawful) (hp : p.frames ≠ []) (hstatus : p.status = .running) :
    (p.step bare handle ()).outcome.Fine := by
  unfold Turn.outcome
  split
  · exact halt_over _
  · next hresult =>
    rcases step_going hbare hp hstatus hresult with hgoing | hover
    · rw [if_neg hgoing.1]
      exact hgoing
    · rw [if_pos hover.1]
      exact hover

end Process

namespace Solo

variable {bare : Host Unit} {handle : Handle} {s s' : Solo} {n : Nat}

theorem Fine.advance (hbare : bare.Lawful) (h : s.Fine) : (s.advance bare handle).Fine := by
  cases hexit : s.exit with
  | some x => rwa [advance_of_exit hexit]
  | none =>
    simp only [Fine, hexit] at h
    rw [Solo.advance, hexit]
    exact Process.outcome_fine hbare (by rw [Process.wake_frames]; exact h.1) h.wake_status

theorem Fine.advances (hbare : bare.Lawful) (h : s.Fine) (n : Nat) :
    (Solo.advances bare handle n s).Fine := by
  induction n generalizing s with
  | zero => exact h
  | succ n ih => exact ih (h.advance hbare)

/-- Two runs differ at most in that the process sleeps in one of them. -/
def Like (s s' : Solo) : Prop := s.process.wake = s'.process.wake ∧ s.exit = s'.exit

theorem Like.refl (s : Solo) : s.Like s := ⟨rfl, rfl⟩

theorem Like.trans {s'' : Solo} (h : s.Like s') (h' : s'.Like s'') : s.Like s'' :=
  ⟨h.1.trans h'.1, h.2.trans h'.2⟩

/-- Sleep makes no difference to what comes after it. -/
theorem Like.advance (h : s.Like s') : (s.advance bare handle).Like (s'.advance bare handle) := by
  obtain ⟨hprocess, hexit⟩ := h
  cases hs : s.exit with
  | some x =>
    rw [advance_of_exit hs, advance_of_exit (hexit ▸ hs)]
    exact ⟨hprocess, hexit⟩
  | none =>
    rw [Solo.advance, Solo.advance, hs, ← hexit, hs, hprocess]
    exact .refl _

theorem Like.advances (h : s.Like s') (n : Nat) :
    (Solo.advances bare handle n s).Like (Solo.advances bare handle n s') := by
  induction n generalizing s s' with
  | zero => exact h
  | succ n ih => exact ih h.advance

end Solo

namespace Process

variable {host : Host σ} {bare : Host Unit} {handle : Handle} {p q : Process} {t : Turn σ} {m n : Nat}

theorem outcome_congr {τ : Type} {t : Turn σ} {t' : Turn τ} (hprocess : t.process = t'.process)
    (hresult : t.result = t'.result) : t.outcome = t'.outcome := by
  unfold Turn.outcome
  rw [hprocess, hresult]

theorem slice_of_error {r : Raised} (h : t.result = .error r) (budget : Nat) :
    slice host handle budget t = t := by
  cases budget with
  | zero => rfl
  | succ budget => rw [slice, h]

theorem slice_of_status (h : t.process.status ≠ .running) (budget : Nat) :
    slice host handle budget t = t := by
  cases budget with
  | zero => rfl
  | succ budget =>
    rw [slice]
    split
    · rfl
    · rw [if_neg h]

theorem outcome_of_going (ht : t.result = .ok ()) (hgoing : t.process.Going) :
    t.outcome = ⟨t.process, none⟩ := by
  rw [Turn.outcome, ht]
  dsimp only
  rw [if_neg hgoing.1]

theorem alone_one (h : p.status = .running) :
    p.alone bare handle 1 = (p.step bare handle ()).outcome := by
  rw [alone, Solo.advances, Solo.advances, Solo.advance, wake_of_running h]

theorem alone_add (p : Process) (bare : Host Unit) (handle : Handle) (m n : Nat) :
    p.alone bare handle (m + n) = .advances bare handle n (p.alone bare handle m) :=
  Solo.advances_add m n _

/-- Once a run has ended, it stays as it is. -/
theorem alone_of_exit {x : Exit} (hexit : (p.alone bare handle m).exit = some x) (hmn : m ≤ n) :
    p.alone bare handle n = p.alone bare handle m := by
  obtain ⟨k, rfl⟩ := Nat.exists_eq_add_of_le hmn
  rw [alone_add, Solo.advances_of_exit hexit]

theorem alone_fine (hbare : bare.Lawful) (hp : p.Going) (n : Nat) : (p.alone bare handle n).Fine :=
  (Solo.fine_of_going hp).advances hbare n

/-- The first step of a process that goes on after it can be split off. -/
theorem alone_succ (h : p.alone bare handle 1 = ⟨q, none⟩) (n : Nat) :
    p.alone bare handle (n + 1) = q.alone bare handle n := by
  rw [Nat.add_comm, alone_add, h, alone]

/-- So many steps of the process on its own lead to `s`. They are fewer than the budget
    only if the process has ended or gone to sleep, and it goes on up to the last of
    them. -/
structure Stretch (p : Process) (bare : Host Unit) (handle : Handle) (budget n : Nat) (s : Solo) :
    Prop where
  le : n ≤ budget
  outcome : s = p.alone bare handle n
  stop : s.exit = none → n = budget ∨ s.process.status = .sleeping
  before : ∀ m < n, (p.alone bare handle m).exit = none

section Stretch

variable {s : Solo} {budget n : Nat}

/-- No step at all. -/
theorem stretch_zero (h : 0 = budget ∨ p.status = .sleeping) :
    p.Stretch bare handle budget 0 ⟨p, none⟩ :=
  ⟨Nat.zero_le budget, rfl, fun _ => h, fun m hm => absurd hm (Nat.not_lt_zero m)⟩

/-- A step that brings the process to an end. -/
theorem stretch_one (hone : p.alone bare handle 1 = s) (hexit : s.exit ≠ none) :
    p.Stretch bare handle (budget + 1) 1 s := by
  refine ⟨Nat.succ_le_succ (Nat.zero_le budget), hone.symm, fun hnone => absurd hnone hexit,
    fun m hm => ?_⟩
  obtain rfl : m = 0 := Nat.lt_one_iff.1 hm
  rfl

/-- A step after which the process goes on, and the steps after that. -/
theorem Stretch.succ (hone : p.alone bare handle 1 = ⟨q, none⟩)
    (hq : q.Stretch bare handle budget n s) : p.Stretch bare handle (budget + 1) (n + 1) s := by
  refine ⟨Nat.succ_le_succ hq.le, ?_, fun hexit => ?_, fun m hm => ?_⟩
  · rw [alone_succ hone]
    exact hq.outcome
  · exact (hq.stop hexit).imp_left (congrArg (· + 1))
  · cases m with
    | zero => rfl
    | succ m =>
      rw [alone_succ hone]
      exact hq.before m (Nat.lt_of_succ_lt_succ hm)

end Stretch

/-- A slice begins with a step if there is a budget for it. -/
theorem slice_succ (ht : t.result = .ok ()) (hstatus : t.process.status = .running) :
    ∃ next : Turn σ,
      (∀ budget, slice host handle (budget + 1) t = slice host handle budget next) ∧
      next.process = (t.process.step host handle t.host).process ∧
      next.result = (t.process.step host handle t.host).result := by
  refine ⟨{ t.process.step host handle t.host with
    wakes := t.wakes ++ (t.process.step host handle t.host).wakes }, fun budget => ?_, rfl, rfl⟩
  rw [slice, ht]
  exact if_pos hstatus

/-- A slice is a number of steps of the process on its own. -/
theorem slice_outcome (hagrees : host.Agrees bare) (hbare : bare.Lawful) (budget : Nat)
    (ht : t.result = .ok ()) (hgoing : t.process.Going) :
    ∃ n, t.process.Stretch bare handle budget n (slice host handle budget t).outcome := by
  induction budget generalizing t with
  | zero =>
    refine ⟨0, ?_⟩
    rw [slice, outcome_of_going ht hgoing]
    exact stretch_zero (.inl rfl)
  | succ budget ih =>
    rcases hgoing.2 with hstatus | hstatus
    · obtain ⟨next, hslice, hprocess, hresult⟩ := slice_succ ht hstatus
      obtain ⟨hprocess', hresult'⟩ := step_agrees hagrees handle t.process t.host
      rw [hprocess'] at hprocess
      rw [hresult'] at hresult
      have hone : t.process.alone bare handle 1 = next.outcome :=
        (alone_one hstatus).trans (outcome_congr hprocess hresult).symm
      rw [hslice]
      cases hok : next.result with
      | error r =>
        rw [slice_of_error hok]
        exact ⟨1, stretch_one hone (by simp [Turn.outcome, hok])⟩
      | ok u =>
        have hafter := step_going hbare hgoing.1 hstatus (hresult ▸ hok)
        rw [← hprocess] at hafter
        rcases hafter with hgoes | hover
        · -- The rest of the slice is one with a smaller budget.
          obtain ⟨n, hn⟩ := ih hok hgoes
          exact ⟨n + 1, hn.succ (hone.trans (outcome_of_going hok hgoes))⟩
        · -- The last frame was left, and the slice ends with it.
          rw [slice_of_status (by simp [hover.2])]
          exact ⟨1, stretch_one hone (by simp [Turn.outcome, hok, hover.1])⟩
    · -- The process sleeps and takes no step.
      rw [slice_of_status (by simp [hstatus]), outcome_of_going ht hgoing]
      exact ⟨0, stretch_zero (.inr hstatus)⟩

end Process

end ScriptMachine
