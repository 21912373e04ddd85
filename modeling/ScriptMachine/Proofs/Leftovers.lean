import ScriptMachine.Proofs.Happenings
import ScriptMachine.Proofs.Instructions

/-!
# What faults leave behind

A fault takes away the frames of a process and the move that was asked for, but not a value that
waits in it. What a script returns does not wait for long: its function is left in the same step,
and the value goes to the caller, or the invocation is complete. A function of the host, however, may
leave a value at any time (`Process.Hands`), and nobody takes it away if there is a fault later.

* `Process.slice_hands`: where a value comes from that waits after a slice.
* `Section.dwindles`: no value comes about except in a turn.
* `Chronicle.Accounts`: a value that waits was left by the last invocation of its process, which
  is complete or has called a function of the host that left the value.
* `Chronicle.leftovers`: so after a fault there is a value only from a function of the host, until
  a later invocation completes.
* `Chronicle.value_after_fault`: there may be one.
-/

namespace ScriptMachine

variable {σ : Type}

/-! ## Where a value comes from -/

namespace Process

variable {host : Host σ} {handle : Handle} {s : σ} {p q : Process} {i : Instruction} {v : Value}
  {t : Turn σ}

/-- The instruction calls a function of the host that leaves the value. -/
def HandsBy (host : Host σ) (handle : Handle) (s : σ) (v : Value) (p : Process) (i : Instruction) :
    Prop :=
  ∃ q name args f, p.execute i = (q, .ok (.request name args)) ∧
    host.functions.get? name = some f ∧ q.returnValue ≠ some v ∧
    (f handle args q s).process.returnValue = some v

/-- The next step of the process calls a function of the host that leaves the value. -/
def Hands (host : Host σ) (handle : Handle) (s : σ) (v : Value) (p : Process) : Prop :=
  ∃ i, p.current = .ok (some i) ∧ p.HandsBy host handle s v i

/-- One of so many steps calls a function of the host that leaves the value. -/
def HandsWithin (host : Host σ) (handle : Handle) (budget : Nat) (t : Turn σ) (v : Value) : Prop :=
  ∃ k < budget, (slice host handle k t).result = .ok () ∧
    (slice host handle k t).process.status = .running ∧
    (slice host handle k t).process.Hands host handle (slice host handle k t).host v

theorem returnValue_attempt {x : Except Fault Process}
    (h : ∀ q, x = .ok q → q.returnValue = p.returnValue) :
    (p.attempt x).returnValue = p.returnValue := by
  cases x with
  | error e => rfl
  | ok q => exact h q rfl

theorem returnValue_push (h : p.push v = .ok q) : q.returnValue = p.returnValue := by
  rw [push] at h
  split at h
  · cases h
  · cases h
    rfl

theorem returnValue_pop (h : p.pop = .ok (v, q)) : q.returnValue = p.returnValue := by
  rw [pop] at h
  split at h
  · cases h
  · split at h
    · cases h
    · cases h
      rfl

theorem returnValue_popN {n : Nat} {vs : List Value} (h : p.popN n = .ok (vs, q)) :
    q.returnValue = p.returnValue := by
  rw [popN] at h
  split at h
  · cases h
  · split at h
    · cases h
    · cases h
      rfl

theorem returnValue_setLocal {slot : Nat} (h : p.setLocal slot v = .ok q) :
    q.returnValue = p.returnValue := by
  rw [setLocal] at h
  split at h
  · cases h
  · split at h
    · cases h
    · cases h
      rfl

theorem returnValue_enter {id : Nat} {args : List Value} (h : p.enter id args = .ok q) :
    q.returnValue = p.returnValue := by
  rw [enter] at h
  split at h
  · cases h
  · split at h
    · split at h
      · cases h
      · cases h
        rfl
    all_goals cases h

/-- Operations that make up other instructions than returns leave the value alone. -/
theorem returnValue_carryOut {op : Operation} (hi : i.opcode ≠ .ret) (hop : op.Serves p i)
    (q : Process) : (q.carryOut op).returnValue = q.returnValue := by
  cases op with
  | push v => exact returnValue_attempt fun r hr => returnValue_push hr
  | pop =>
    refine returnValue_attempt fun r hr => ?_
    obtain ⟨v, hpop⟩ := exists_of_map_snd hr
    exact returnValue_pop hpop
  | popN k =>
    refine returnValue_attempt fun r hr => ?_
    obtain ⟨vs, hpop⟩ := exists_of_map_snd hr
    exact returnValue_popN hpop
  | setLocal slot v => exact returnValue_attempt fun r hr => returnValue_setLocal hr
  | enter id args => exact returnValue_attempt fun r hr => returnValue_enter hr
  | jump ip => rfl
  | exit => exact absurd hop hi
  | setReturnValue v => exact absurd hop hi
  | takeReturnValue | pause | wake | attach => exact hop.elim

/-- An instruction by itself leaves the value alone, unless it returns from a function. -/
theorem returnValue_execute (p : Process) (i : Instruction) :
    (p.execute i).1.returnValue = p.returnValue ∨
      ((p.execute i).2 = .ok .done ∧ (p.execute i).1.transfer = some .exit) := by
  by_cases hi : i.opcode = .ret
  · simp only [execute, hi, withOperand]
    split
    · exact .inr ⟨rfl, rfl⟩
    · exact .inl rfl
  · refine .inl ((made_execute p i).preserves (I := fun q => q.returnValue = p.returnValue) rfl ?_)
    intro q op hop hq
    exact (returnValue_carryOut hi hop q).trans hq

/-- With the functions of the host as well: the value was there, or it was handed over, or a
    function is about to be left. -/
theorem returnValue_perform (hv : (perform host handle i p s).process.returnValue = some v) :
    p.returnValue = some v ∨ p.HandsBy host handle s v i ∨
      ((perform host handle i p s).result = .ok () ∧
        (perform host handle i p s).process.transfer = some .exit) := by
  have hexecute := p.returnValue_execute i
  rw [perform] at hv ⊢
  split
  · next q f hx =>
    rw [hx] at hv hexecute
    rcases hexecute with hsame | ⟨hdone, -⟩
    · exact .inl (hsame ▸ hv)
    · cases hdone
  · next q hx =>
    rw [hx] at hv hexecute
    rcases hexecute with hsame | ⟨-, hexit⟩
    · exact .inl (hsame ▸ hv)
    · exact .inr (.inr ⟨rfl, hexit⟩)
  · next q name args hx =>
    rw [hx] at hv hexecute
    have hsame : q.returnValue = p.returnValue := by
      rcases hexecute with hsame | ⟨hdone, -⟩
      · exact hsame
      · cases hdone
    -- A value that the host finds is not handed over by it.
    by_cases hq : q.returnValue = some v
    · exact .inl (hsame ▸ hq)
    · simp only [Host.call] at hv
      split at hv
      · next f hf => exact .inr (.inl ⟨q, name, args, f, hx, hf, hq, hv⟩)
      · split at hv
        · exact absurd hv hq
        · rw [ofResult_process, returnValue_attempt fun r hr => returnValue_push hr] at hv
          exact absurd hv hq
        · exact absurd hv hq

/-- Nothing waits after a function was left, unless it was the last one. -/
theorem returnValue_popFrame (h : p.popFrame = .ok q) : q.frames = [] ∨ q.returnValue = none := by
  rw [popFrame] at h
  split at h
  · cases h
  · cases h
    exact .inl rfl
  · split at h
    · next hnone =>
      cases h
      exact .inr hnone
    · cases h
      exact .inr rfl

theorem returnValue_setIp (p : Process) (depth : Nat) (ip : Nat → Nat) :
    (p.setIp depth ip).returnValue = p.returnValue := by
  rw [setIp]
  split
  · rfl
  · rfl

/-- Control can move. A value still waits only if the last frame was left, or if no frame was
    to be left. -/
theorem returnValue_proceed (hp : p.frames ≠ []) (depth : Nat) :
    ∃ q, p.proceed depth = .ok q ∧
      (q.frames = [] ∨ q.returnValue = none ∨
        (q.returnValue = p.returnValue ∧ p.transfer ≠ some .exit)) := by
  rw [proceed]
  split
  · obtain ⟨q, hq⟩ := exists_popFrame (p := { p with transfer := none }) hp
    exact ⟨q, hq, (returnValue_popFrame hq).imp_right .inl⟩
  · next hjump => exact ⟨_, rfl, .inr (.inr ⟨returnValue_setIp _ _ _, by simp [hjump]⟩)⟩
  · next hnone => exact ⟨_, rfl, .inr (.inr ⟨returnValue_setIp _ _ _, by simp [hnone]⟩)⟩

theorem returnValue_settle {depth : Nat} (hframes : t.process.frames ≠ [])
    (hv : (settle depth t).process.returnValue = some v) :
    ((settle depth t).result = .ok () ∧ (settle depth t).process.frames = []) ∨
      (t.process.returnValue = some v ∧
        ¬(t.result = .ok () ∧ t.process.transfer = some .exit)) := by
  rw [settle] at hv ⊢
  cases hresult : t.result with
  | error r =>
    rw [hresult] at hv
    refine .inr ⟨hv, fun hexit => ?_⟩
    cases hexit.1
  | ok u =>
    obtain ⟨q, hq, hlast | hnone | ⟨hsame, hstays⟩⟩ := returnValue_proceed hframes depth
    · simp [hq, hlast]
    · simp only [hresult, hq, hnone] at hv
      cases hv
    · simp only [hresult, hq] at hv
      exact .inr ⟨hsame.symm.trans hv, fun hexit => hstays hexit.2⟩

/-- A value that waits after a step: the last frame was left, or the value waited before, or
    it was handed over. -/
theorem step_hands (hhost : host.Built) (hp : p.Going)
    (hv : (p.step host handle s).process.returnValue = some v) :
    ((p.step host handle s).result = .ok () ∧ (p.step host handle s).process.frames = []) ∨
      p.returnValue = some v ∨ p.Hands host handle s v := by
  rw [step] at hv ⊢
  split
  · next hcurrent =>
    rw [hcurrent] at hv
    exact .inr (.inl hv)
  · next hcurrent =>
    rw [hcurrent] at hv
    obtain ⟨q, hq⟩ := exists_popFrame hp.1
    rw [hq] at hv ⊢
    refine .inl ⟨rfl, (returnValue_popFrame hq).resolve_right fun hnone => ?_⟩
    cases hnone.symm.trans hv
  · next i hcurrent =>
    simp only [hcurrent] at hv
    rcases returnValue_settle (perform_going hhost hp i s).1 hv with hlast | ⟨hv, hstays⟩
    · exact .inl hlast
    · rcases returnValue_perform hv with hv | hhands | hexit
      · exact .inr (.inl hv)
      · exact .inr (.inr ⟨i, hcurrent, hhands⟩)
      · exact absurd hexit hstays

/-- A value that waits after a slice: the last frame was left, or the value waited before, or
    it was handed over in one of the steps. -/
theorem slice_hands (hhost : host.Built) (budget : Nat) (ht : t.result = .ok ())
    (hgoing : t.process.Going) (hv : (slice host handle budget t).process.returnValue = some v) :
    ((slice host handle budget t).result = .ok () ∧
        (slice host handle budget t).process.frames = []) ∨
      t.process.returnValue = some v ∨ HandsWithin host handle budget t v := by
  induction budget generalizing t with
  | zero => exact .inr (.inl hv)
  | succ budget ih =>
    by_cases hstatus : t.process.status = .running
    · obtain ⟨next, hslice, hprocess, hresult⟩ := slice_succ ht hstatus
      rw [hslice budget] at hv ⊢
      -- What the first step leaves was there before or is handed over by it.
      have hfirst (hv : next.process.returnValue = some v) :
          (next.result = .ok () ∧ next.process.frames = []) ∨ t.process.returnValue = some v ∨
            HandsWithin host handle (budget + 1) t v := by
        rw [hprocess] at hv ⊢
        rw [hresult]
        rcases step_hands hhost hgoing hv with hlast | hbefore | hhands
        · exact .inl hlast
        · exact .inr (.inl hbefore)
        · exact .inr (.inr ⟨0, Nat.succ_pos budget, ht, hstatus, hhands⟩)
      cases hok : next.result with
      | error r =>
        rw [slice_of_error hok] at hv ⊢
        exact hfirst hv
      | ok u =>
        have hafter := step_going_or_over hhost hgoing (hresult ▸ hok)
        rw [← hprocess] at hafter
        rcases hafter with hgoes | hover
        · rcases ih hok hgoes hv with hlast | hv | ⟨k, hk, hhands⟩
          · exact .inl hlast
          · exact (hfirst hv).imp_left fun hlast => absurd hlast.2 hgoes.1
          · refine .inr (.inr ⟨k + 1, Nat.succ_lt_succ hk, ?_⟩)
            rwa [hslice k]
        · -- The last frame was left, and the slice ends with it.
          rw [slice_of_status (by simp [hover.2])]
          exact .inl ⟨hok, hover.1⟩
    · rw [slice_of_status hstatus] at hv
      exact .inr (.inl hv)

end Process

/-! ## Turns -/

namespace Stint

variable {w : Stint σ} {v : Value}

/-- In a step of the turn, a function of the host leaves the value. -/
def Hands (w : Stint σ) (v : Value) : Prop :=
  Process.HandsWithin w.machine.hostFunctions w.handle w.machine.settings.timeSlice
    (.start w.entry.process w.machine.host) v

/-- Neither the end of a turn nor that of an invocation touches the value. -/
theorem returnValue_outcome (w : Stint σ) :
    w.outcome.process.returnValue = w.turn.process.returnValue := by
  rw [outcome, Entry.afterTurn]
  split
  · rw [Entry.update]
    split
    · rfl
    · rfl
  · rfl

/-- A value that waits after a turn: the invocation is complete, or the value waited before, or
    it was handed over. -/
theorem outcome_hands (hhost : w.machine.hostFunctions.Built) (hgoing : w.entry.process.Going)
    (hv : w.outcome.process.returnValue = some v) :
    w.exit = some .completed ∨ w.entry.process.returnValue = some v ∨ w.Hands v := by
  rw [returnValue_outcome] at hv
  have hslice := Process.slice_hands (t := .start w.entry.process w.machine.host) hhost
    w.machine.settings.timeSlice rfl hgoing hv
  refine hslice.imp_left fun hlast => ?_
  obtain ⟨hresult, hframes⟩ : w.turn.result = .ok () ∧ w.turn.process.frames = [] := hlast
  rw [exit, Entry.afterTurn, hresult]
  exact congrArg Prod.snd (if_pos ⟨hgoing.1, hframes⟩)

/-- What a fault leaves of the process. -/
theorem outcome_of_faulted {f : Fault} (hexit : w.exit = some (.faulted f)) :
    w.outcome = ⟨w.turn.process.halt, none⟩ := by
  rw [exit, Entry.afterTurn] at hexit
  rw [outcome, Entry.afterTurn]
  split
  · next u hresult =>
    simp only [hresult, Entry.update] at hexit
    split at hexit
    · cases hexit
    · cases hexit
  · rfl

end Stint

/-! ## Values that wait in a machine -/

namespace Machine

variable {m m' : Machine σ} {h h' : Handle} {e e' : Entry} {v : Value}

/-- No value has come about: each one that waits has waited before. -/
def Dwindles (m m' : Machine σ) : Prop :=
  ∀ h e' v, m'.processes.get? h = some e' → e'.process.returnValue = some v →
    ∃ e, m.processes.get? h = some e ∧ e.process.returnValue = some v

theorem Dwindles.of_eq (hprocesses : m'.processes = m.processes) : m.Dwindles m' :=
  fun _ e _ he hv => ⟨e, hprocesses ▸ he, hv⟩

theorem Dwindles.refl (m : Machine σ) : m.Dwindles m := .of_eq rfl

/-- The entry of a process is set to one that has no other value. -/
theorem dwindles_setEntry (hget : m.processes.get? h = some e)
    (he : ∀ v, e'.process.returnValue = some v → e.process.returnValue = some v) :
    m.Dwindles (m.setEntry h e') := by
  intro h' e'' v he'' hv
  by_cases hh : h' = h
  · subst hh
    obtain rfl := Option.some.inj ((Table.get?_insert_self _ _ _).symm.trans he'')
    exact ⟨e, hget, he v hv⟩
  · exact ⟨e'', (Table.get?_insert_ne hh).symm.trans he'', hv⟩

theorem dwindles_reach (m : Machine σ) (h : Handle) {op : Process → Process}
    (hop : ∀ p : Process, (op p).frames = p.frames)
    (hvalue : ∀ (p : Process) v, (op p).returnValue = some v → p.returnValue = some v) :
    m.Dwindles (m.reach h op) := by
  rw [reach_eq hop]
  split
  · next e hget => exact dwindles_setEntry hget (hvalue e.process)
  · split
    · exact .of_eq rfl
    · exact .refl m

theorem dwindles_remove (m : Machine σ) (h : Handle) : m.Dwindles (m.tried (m.remove h)) := by
  rw [remove, entry]
  split
  · intro h' e' v he' hv
    have he' : (m.processes.erase h).get? h' = some e' := he'
    have hh : h' ≠ h := by
      rintro rfl
      cases (Table.get?_erase_self m.processes h').symm.trans he'
    exact ⟨e', (Table.get?_erase_ne hh).symm.trans he', hv⟩
  · exact .refl m

theorem dwindles_pickAll (m : Machine σ) (woken : List Handle) : m.Dwindles (m.pickAll woken) := by
  intro h e' v he' hv
  have hkeys : (m.pickAll woken).processes.keys = m.processes.keys :=
    keys_foldl_wakeIn woken m.processes
  rcases hget : m.processes.get? h with _ | e
  · exact absurd (hkeys ▸ Table.mem_keys_of_get? he') (Table.get?_eq_none_iff.1 hget)
  · obtain ⟨q, hq, hwake⟩ := (m.leaves_pickAll (t := ⟨0⟩) woken).entry e hget
    obtain rfl := Option.some.inj (hq.symm.trans he')
    exact ⟨e, rfl, (Process.returnValue_of_wake_eq hwake).symm.trans hv⟩

theorem dwindles_prune (hnodup : m.processes.keys.Nodup) : m.Dwindles m.prune := by
  intro h e' v he' hv
  have hmem : (h, e') ∈ m.processes := (List.mem_filter.1 (Table.mem_of_get? he')).1
  exact ⟨e', Table.get?_of_mem hnodup hmem, hv⟩

/-- A section of the scheduler in which no process runs. -/
theorem dwindles_tick (hnodup : m.processes.keys.Nodup) (hstint : m.stint? = none) :
    m.Dwindles m.tick := by
  rw [tick]
  split
  case h_4 woken _ => exact m.dwindles_pickAll woken
  case h_6 h left awake hphase =>
    rw [turn_of_stint_none hphase hstint]
    exact .of_eq rfl
  case h_7 => exact dwindles_prune hnodup
  all_goals exact .of_eq rfl

/-- A new process has no value. -/
theorem dwindles_create (m : Machine σ) (program : Program) : m.Dwindles (m.create program).2 := by
  intro h e' v he' hv
  rw [create, Table.get?_append, Option.or_eq_some_iff] at he'
  rcases he' with he' | ⟨-, he'⟩
  · exact ⟨e', he', hv⟩
  · rw [Table.get?] at he'
    split at he'
    · obtain rfl := Option.some.inj he'
      cases hv
    · cases he'

/-- A process that is started has no value, and the others are as they were. -/
theorem get?_of_launch {name : String} (he : (m.launch h name).2.processes.get? h' = some e)
    (hv : e.process.returnValue = some v) :
    m.processes.get? h' = some e ∧ (h' = h → ∃ err, (m.launch h name).1 = .error err) := by
  -- No value waits in the new entry, so it is that of another process.
  have hset {p : Process} {t : Option Ticket} (hp : p.returnValue = none)
      (he : (m.processes.insert h ⟨p, t⟩).get? h' = some e) :
      m.processes.get? h' = some e ∧ h' ≠ h := by
    have hh : h' ≠ h := by
      rintro rfl
      obtain rfl := Option.some.inj ((Table.get?_insert_self _ _ _).symm.trans he)
      cases hp.symm.trans hv
    exact ⟨(Table.get?_insert_ne hh).symm.trans he, hh⟩
  rw [launch] at he ⊢
  split
  · next err hpoint =>
    rw [hpoint] at he
    exact ⟨he, fun _ => ⟨err, rfl⟩⟩
  · next e₀ id hpoint =>
    simp only [hpoint] at he ⊢
    split
    · next hp =>
      rw [hp] at he
      obtain ⟨hget, hh⟩ := hset rfl he
      exact ⟨hget, fun heq => absurd heq hh⟩
    · next p hp =>
      rw [hp] at he
      have hnone : p.returnValue = none := Process.returnValue_enter hp
      obtain ⟨hget, hh⟩ := hset (p := { p with status := .running }) hnone he
      exact ⟨hget, fun heq => absurd heq hh⟩

/-- The value that the host gets is the one that waits. -/
theorem takeResult_eq_some_iff : (∃ m', m.takeResult h = .ok (some v, m')) ↔
    ∃ e, m.processes.get? h = some e ∧ e.process.returnValue = some v := by
  rcases hget : m.processes.get? h with _ | e
  · rw [takeResult, visit_eq_error _ hget]
    constructor
    · rintro ⟨m', htake⟩
      cases htake
    · rintro ⟨e, he, -⟩
      cases he
  · rw [takeResult, visit_eq _ hget]
    constructor
    · rintro ⟨m', htake⟩
      exact ⟨e, rfl, congrArg Prod.fst (Except.ok.inj htake)⟩
    · rintro ⟨e', he', hv⟩
      obtain rfl := Option.some.inj he'
      exact ⟨_, congrArg (fun value => Except.ok (value, _)) hv⟩

end Machine

theorem Site.dwindles_onFound (s : Site σ) (h : Handle) {op : Process → Process}
    (hop : ∀ p : Process, (op p).frames = p.frames)
    (hvalue : ∀ (p : Process) v, (op p).returnValue = some v → p.returnValue = some v) :
    s.machine.Dwindles (s.onFound h op).machine := by
  rw [onFound]
  split
  · exact s.machine.dwindles_reach h hop hvalue
  · exact .refl s.machine

/-- No value comes about except in a turn. -/
theorem Section.dwindles {a : Section σ} {s : Site σ} (hplain : a.Plain s.machine)
    (hnodup : s.machine.processes.keys.Nodup) : s.machine.Dwindles (a.apply s).machine := by
  cases a with
  | create program => exact hplain.elim
  | launch h name => exact hplain.elim
  | tick => exact Machine.dwindles_tick hnodup hplain
  | run =>
    simp only [apply, Machine.run]
    split
    · exact .refl s.machine
    · exact .of_eq rfl
  | bind name f =>
    simp only [apply, Machine.bind]
    split
    · exact .refl s.machine
    · exact .of_eq rfl
  | poll t =>
    simp only [apply, Machine.poll]
    split
    · exact .of_eq rfl
    · split <;> exact .refl s.machine
  | find h =>
    rw [machine_find]
    exact .refl s.machine
  | pause h =>
    refine s.dwindles_onFound h (fun p => p.kept_pause.frames) fun p v hv => ?_
    exact (Process.returnValue_of_wake_eq p.wake_pause).symm.trans hv
  | rouse h asleep =>
    rw [machine_rouse]
    exact s.dwindles_onFound h Process.wake_frames fun p v hv => p.wake_returnValue.symm.trans hv
  | takeResult h =>
    refine s.dwindles_onFound h (fun _ => rfl) fun p v hv => ?_
    cases hv
  | attach h data => exact s.dwindles_onFound h (fun _ => rfl) fun _ _ hv => hv
  | finalize h =>
    rw [machine_finalize, Machine.finalize, Machine.entry]
    split
    · next e hget => exact Machine.dwindles_setEntry hget fun _ hv => hv
    · exact .refl s.machine
  | remove h => exact s.machine.dwindles_remove h
  | mark =>
    rw [apply_mark]
    split
    · exact .refl s.machine
    · exact .of_eq rfl
  | enqueue h => exact .of_eq rfl
  | notify =>
    rw [apply_notify]
    split
    · exact .refl s.machine
    · obtain ⟨scheduler, heq⟩ := s.machine.notify_eq
      rw [heq]
      exact .of_eq rfl

/-! ## Every value is accounted for -/

/-- The host does not visit processes, and what it binds is built from operations. -/
def Happening.Scheduled : Happening σ → Prop
  | .act (.bind _ f) => f.Built
  | .visit _ _ => False
  | _ => True

namespace Chronicle

variable {c d : Chronicle σ} {x : Happening σ} {xs : List (Happening σ)} {h : Handle} {w : Stint σ}

/-- What the scheduler is told, and that it is given up, does not matter. -/
theorem Sound.of_signals (hc : c.Sound) {s : Site σ} (hs : s.machine.Tidy)
    (heq : ∃ stopping scheduler,
      s.machine = { c.machine with stopping := stopping, scheduler := scheduler }) :
    Sound { c with site := s } := by
  obtain ⟨m, found, unmarked, unnotified⟩ := s
  obtain ⟨stopping, scheduler, heq⟩ := heq
  obtain rfl : m = _ := heq
  exact ⟨hc.built, hs, hc.distinct, hc.given, hc.known, hc.fits, hc.issued, hc.owner, hc.once,
    hc.resolved, hc.deposited, hc.pending, hc.warranted⟩

theorem Sound.extend (hc : c.Sound) (hx : x.Scheduled) : (c.extend x).Sound := by
  have htidy := x.tidy hc.tidy
  cases x with
  | act a =>
    refine hc.add ?_
    rintro name f rfl
    exact hx
  | visit h op => exact hx.elim
  | stop | join =>
    refine hc.of_signals htidy ?_
    simp only [Happening.apply]
    split
    · exact ⟨_, _, rfl⟩
    · exact ⟨_, _, rfl⟩

theorem mem_stintsOf_extend (hw : w ∈ c.stintsOf h) (x : Happening σ) :
    w ∈ (c.extend x).stintsOf h := by
  rcases c.stintsOf_extend x h with ⟨hsame, -⟩ | ⟨w', -, -, -, hcons⟩
  · rwa [hsame]
  · rw [hcons]
    exact List.mem_cons_of_mem w' hw

theorem mem_stintsOf_tick (hstint : c.machine.stint? = some w) :
    w ∈ (c.extend (.act .tick)).stintsOf w.handle :=
  List.mem_filter.2 ⟨List.mem_append_left _ (Option.mem_toList.2 hstint), decide_eq_true rfl⟩

/-- A value that waits was left by the latest invocation of the process: this is complete, or a
    function of the host has left the value. -/
def Accounts (c : Chronicle σ) : Prop :=
  ∀ h e v, c.machine.processes.get? h = some e → e.process.returnValue = some v →
    ∃ w ∈ c.stintsOf h, w.entry.ticket = c.started.get? h ∧ (w.exit = some .completed ∨ w.Hands v)

namespace Accounts

theorem of_dwindles (hc : c.Accounts) (hm : c.machine.Dwindles d.machine)
    (hstarted : d.started = c.started) (hstints : ∀ h, ∀ w ∈ c.stintsOf h, w ∈ d.stintsOf h) :
    d.Accounts := by
  intro h e v he hv
  obtain ⟨e₀, he₀, hv₀⟩ := hm h e v he hv
  obtain ⟨w, hw, hticket, hcause⟩ := hc h e₀ v he₀ hv₀
  exact ⟨w, hstints h w hw, hstarted ▸ hticket, hcause⟩

theorem launch (hc : c.Accounts) (h' : Handle) (name : String) :
    (c.add (.launch h' name)).Accounts := by
  intro h e v he hv
  have hmachine : (c.add (.launch h' name)).machine = (c.machine.launch h' name).2 :=
    Section.machine_launch c.site h' name
  rw [hmachine] at he
  obtain ⟨hget, herror⟩ := Machine.get?_of_launch he hv
  obtain ⟨w, hw, hticket, hcause⟩ := hc h e v hget hv
  refine ⟨w, mem_stintsOf_extend hw (.act (.launch h' name)), hticket.trans ?_, hcause⟩
  -- If this was a start of the same process, then it was refused.
  rw [add, Section.invocations]
  split
  · next t hok =>
    have hh : h' ≠ h := by
      rintro rfl
      obtain ⟨err, herr⟩ := herror rfl
      cases herr.symm.trans hok
    exact (if_neg hh).symm
  · rfl

theorem stint (hc : c.Accounts) (hsound : c.Sound) (hstint : c.machine.stint? = some w) :
    (c.add .tick).Accounts := by
  intro h e v he hv
  have he : c.machine.tick.processes.get? h = some e := he
  have hold {h : Handle} {e : Entry} (he : c.machine.processes.get? h = some e)
      (hv : e.process.returnValue = some v) :
      ∃ w ∈ (c.add .tick).stintsOf h, w.entry.ticket = c.started.get? h ∧
        (w.exit = some .completed ∨ w.Hands v) := by
    obtain ⟨w, hw, hcause⟩ := hc h e v he hv
    exact ⟨w, mem_stintsOf_extend hw (.act .tick), hcause⟩
  by_cases hh : h = w.handle
  · subst hh
    obtain ⟨hbuilt, hgoing, t, hticket, ht⟩ := hsound.stint_going hstint
    have hkeys : w.handle ∈ c.machine.processes.keys :=
      Machine.keys_tick_of_stint hstint ▸ Table.mem_keys_of_get? he
    obtain rfl := Option.some.inj ((Machine.get?_tick_self hstint hkeys).symm.trans he)
    have hw : w ∈ (c.add .tick).stintsOf w.handle := mem_stintsOf_tick hstint
    rcases Stint.outcome_hands hbuilt hgoing hv with hdone | hbefore | hhands
    · exact ⟨w, hw, hticket.trans ht.symm, .inl hdone⟩
    · rcases hget : c.machine.processes.get? w.handle with _ | e
      · exact absurd hkeys (Table.get?_eq_none_iff.1 hget)
      · have hentry := (Machine.of_stint hstint).2.1
        obtain rfl := Option.some.inj ((Machine.pickedEntry?_of_get? hget).symm.trans hentry)
        exact hold hget hbefore
    · exact ⟨w, hw, hticket.trans ht.symm, .inr hhands⟩
  · exact hold ((Machine.get?_tick_ne hstint hh).symm.trans he) hv

theorem extend (hc : c.Accounts) (hsound : c.Sound) (hx : x.Scheduled) : (c.extend x).Accounts := by
  have hstints (h : Handle) (w : Stint σ) (hw : w ∈ c.stintsOf h) : w ∈ (c.extend x).stintsOf h :=
    mem_stintsOf_extend hw x
  cases x with
  | visit h op => exact hx.elim
  | stop | join =>
    refine hc.of_dwindles (.of_eq ?_) rfl hstints
    rw [machine_extend, Happening.apply]
    split
    · rfl
    · rfl
  | act a =>
    rcases a.plain_or c.machine with hplain | ⟨program, rfl⟩ | ⟨h, name, rfl⟩ | ⟨rfl, w, hstint⟩
    · refine hc.of_dwindles (Section.dwindles hplain hsound.tidy.orderly.nodup) ?_ hstints
      cases a with
      | launch h name => exact hplain.elim
      | _ => rfl
    · exact hc.of_dwindles (c.machine.dwindles_create program) rfl hstints
    · exact hc.launch h name
    · exact hc.stint hsound hstint

end Accounts

/-- Whatever is scheduled: the chronicle stays sound, and every value is accounted for. -/
theorem accounts_along (hc : c.Sound ∧ c.Accounts) (hxs : ∀ x ∈ xs, x.Scheduled) :
    (c.along xs).Sound ∧ (c.along xs).Accounts :=
  along_preserves (P := fun c => c.Sound ∧ c.Accounts) hc fun _ x hx hc =>
    ⟨hc.1.extend (hxs x hx), hc.2.extend hc.1 (hxs x hx)⟩

theorem accounts_new (settings : Settings) (host : σ) : (new settings host).Accounts := by
  intro h e v he
  cases he

/-! ## After a fault -/

/-- The latest invocation of a process stays so, or a later one has a later ticket. -/
def Ages (c d : Chronicle σ) (h : Handle) : Prop :=
  c.machine.nextTicket ≤ d.machine.nextTicket ∧
    (d.started.get? h = c.started.get? h ∨
      ∃ t, d.started.get? h = some t ∧ c.machine.nextTicket ≤ t.number)

theorem Ages.extend (hd : Ages c d h) (x : Happening σ) : Ages c (d.extend x) h := by
  have hlater : d.machine.nextTicket ≤ (d.extend x).machine.nextTicket := by
    rw [machine_extend]
    exact (x.later d.site).tickets
  refine ⟨Nat.le_trans hd.1 hlater, ?_⟩
  cases x with
  | act a =>
    change Table.get? (a.invocations d.machine ++ d.started) h = _ ∨
      ∃ t, Table.get? (a.invocations d.machine ++ d.started) h = some t ∧ _
    rw [Table.get?_append]
    rcases hnew : (a.invocations d.machine).get? h with _ | t
    · exact hd.2
    · obtain ⟨rfl, -⟩ := Sound.invocation_spec (Table.mem_of_get? hnew)
      exact .inr ⟨_, rfl, hd.1⟩
  | _ => exact hd.2

theorem ages_along (c : Chronicle σ) (xs : List (Happening σ)) (h : Handle) :
    Ages c (c.along xs) h :=
  along_preserves (P := fun d => Ages c d h) ⟨Nat.le_refl _, .inl rfl⟩ fun _ x _ hd => hd.extend x

/-- An earlier invocation that is still the latest one was the latest one before. -/
theorem Ages.latest (hd : Ages c d h) (hc : c.Sound) {t : Ticket} (hget : d.started.get? h = some t)
    (hold : (h, t) ∈ c.started) : c.started.get? h = some t := by
  rcases hd.2 with hsame | ⟨t', ht', hlate⟩
  · exact hsame.symm.trans hget
  · obtain rfl := Option.some.inj (hget.symm.trans ht')
    exact absurd (hc.issued h t hold).2 (Nat.not_lt.2 hlate)

theorem mem_sent_of_stintsOf {t : Ticket} {exit : Exit} (hw : w ∈ c.stintsOf h)
    (hticket : w.entry.ticket = some t) (hexit : w.exit = some exit) : (t, exit) ∈ c.sent := by
  refine List.mem_filterMap.2 ⟨w, (List.mem_filter.1 hw).1, ?_⟩
  rw [Stint.sent, hticket, hexit]

/-- An invocation ends in one way only. -/
theorem Sound.sent_unique (hc : c.Sound) {t : Ticket} {exit exit' : Exit}
    (hsent : (t, exit) ∈ c.sent) (hsent' : (t, exit') ∈ c.sent) : exit = exit' :=
  Option.some.inj ((Table.get?_of_mem hc.once hsent).symm.trans (Table.get?_of_mem hc.once hsent'))

/-- The invocation of a process that is on the machine ends with a fault. Then the process is in
    no function, nothing moves any more, and it is inactive; but a value that waited in the end
    still waits. Whatever is scheduled after that, until a later invocation completes the host gets
    a value only if one of its functions has left it in the latest invocation. -/
theorem leftovers {settings : Settings} {host : σ} {before later : List (Happening σ)}
    (hbefore : ∀ x ∈ before, x.Scheduled) (hlater : ∀ x ∈ later, x.Scheduled)
    (hc : c = (new settings host).along before) (hd : d = (c.extend (.act .tick)).along later)
    {f : Fault} (hstint : c.machine.stint? = some w) (hexit : w.exit = some (.faulted f)) :
    (w.handle ∈ c.machine.processes.keys →
      ∃ e, (c.extend (.act .tick)).machine.processes.get? w.handle = some e ∧
        e.process.frames = [] ∧ e.process.transfer = none ∧ e.process.status = .inactive ∧
        e.ticket = none ∧ e.process.returnValue = w.turn.process.returnValue) ∧
      ∀ v m', d.machine.takeResult w.handle = .ok (some v, m') →
        (∃ t, (w.handle, t) ∈ d.started ∧ (w.handle, t) ∉ c.started ∧ (t, .completed) ∈ d.sent) ∨
          ∃ w' ∈ d.stintsOf w.handle, w'.entry.ticket = d.started.get? w.handle ∧ w'.Hands v := by
  have hcs : c.Sound ∧ c.Accounts :=
    hc ▸ accounts_along ⟨sound_new settings host, accounts_new settings host⟩ hbefore
  have hds : d.Sound ∧ d.Accounts := by
    subst hd
    exact accounts_along ⟨hcs.1.extend (x := .act .tick) trivial,
      hcs.2.extend (x := .act .tick) hcs.1 trivial⟩ hlater
  refine ⟨fun hh => ⟨_, Machine.get?_tick_self hstint hh, ?_⟩, fun v m' htake => ?_⟩
  · rw [Stint.outcome_of_faulted hexit]
    exact ⟨rfl, rfl, rfl, rfl, rfl⟩
  · obtain ⟨e, he, hv⟩ := Machine.takeResult_eq_some_iff.1 ⟨m', htake⟩
    obtain ⟨w', hw', hlatest, hdone | hhands⟩ := hds.2 w.handle e v he hv
    · refine .inl ?_
      obtain ⟨-, t, hticket, -⟩ := hds.1.warranted w' (List.mem_filter.1 hw').1 _ hdone
      have hget : d.started.get? w.handle = some t := hlatest.symm.trans hticket
      refine ⟨t, Table.mem_of_get? hget, fun hold => ?_, mem_sent_of_stintsOf hw' hticket hdone⟩
      -- If there was no later start, this is the invocation that ended with the fault.
      obtain ⟨-, -, t₀, hticket₀, ht₀⟩ := hcs.1.stint_going hstint
      have hages : Ages c d w.handle := hd ▸ ages_along c (.act .tick :: later) w.handle
      obtain rfl := Option.some.inj (ht₀.symm.trans (hages.latest hcs.1 hget hold))
      have hw : w ∈ d.stintsOf w.handle := by
        subst hd
        refine along_preserves (P := fun d => w ∈ d.stintsOf w.handle) (mem_stintsOf_tick hstint) ?_
        exact fun _ x _ hw => mem_stintsOf_extend hw x
      have hfaulted := mem_sent_of_stintsOf hw hticket₀ hexit
      have hcompleted := mem_sent_of_stintsOf hw' hticket hdone
      cases hds.1.sent_unique hfaulted hcompleted
    · exact .inr ⟨w', hw', hlatest, hhands⟩

/-- A program in which the host is given a number to leave, and then fails. -/
def failing : Program where
  strings := #["setret", "fail", "late"]
  functions := #[.compiled (.ofCode #[.ofInt .pushInt 7, .ofNat .pushString 0, .ofNat .external 1,
    .ofNat .pushString 2, .ofNat .pushString 1, .ofNat .external 1])]
  names := [("main", 0)]

/-- What happens before the process has its turn. -/
def opening : List (Happening Desk) :=
  [.act (.bind "setret" Tool.setReturn.function), .act (.bind "fail" Tool.fail.function),
    .act (.create failing), .act .run, .act (.launch ⟨0⟩ "main"), .act .tick, .act .tick, .act .tick]

/-- The host hears of the fault, and the sweep comes to its end. -/
def ending : List (Happening Desk) := [.act (.poll ⟨0⟩), .act .tick, .act .tick]

theorem scheduled_of_failing : ∀ x ∈ opening ++ ending, x.Scheduled := by
  intro x hx
  simp only [opening, ending, List.cons_append, List.nil_append, List.mem_cons, List.not_mem_nil,
    or_false] at hx
  rcases hx with rfl | rfl | hx
  · exact Tool.function_built .setReturn
  · exact Tool.function_built .fail
  · rcases hx with rfl | rfl | rfl | rfl | rfl | rfl | rfl | rfl | rfl <;> trivial

/-- The process is about to have its turn. -/
def poised : Chronicle Desk := (new .standard default).along opening

/-- The turn is over, and so is the sweep. -/
def swept : Chronicle Desk := (poised.extend (.act .tick)).along ending

/-- What is seen of the run before the turn, and at its end. -/
theorem failing_seen :
    (poised.machine.stint?.map (fun w => (w.exit, w.handle)) =
        some (some (.faulted (.external "late")), ⟨0⟩) ∧
      poised.machine.processes.keys = [⟨0⟩] ∧ poised.started = [(⟨0⟩, ⟨0⟩)]) ∧
    swept.started = [(⟨0⟩, ⟨0⟩)] ∧ swept.sent = [(⟨0⟩, .faulted (.external "late"))] ∧
      (swept.machine.processes.get? ⟨0⟩).map (·.process.returnValue) = some (some (.int 7)) := by
  decide +kernel

theorem takeResult_swept : ∃ m, swept.machine.takeResult ⟨0⟩ = .ok (some (.int 7), m) := by
  obtain ⟨-, -, -, hvalue⟩ := failing_seen
  exact Machine.takeResult_eq_some_iff.2 (Option.map_eq_some_iff.1 hvalue)

theorem leftovers_failing :
    ∃ w f, poised.machine.stint? = some w ∧ w.exit = some (.faulted f) ∧
      (∃ e, (poised.extend (.act .tick)).machine.processes.get? w.handle = some e ∧
        e.process.status = .inactive) ∧
      ∃ w' ∈ swept.stintsOf w.handle, w'.Hands (.int 7) := by
  have hscheduled := List.forall_mem_append.1 scheduled_of_failing
  obtain ⟨⟨hseen, hkeys, hpoised⟩, hswept, -⟩ := failing_seen
  obtain ⟨w, hstint, hw⟩ := Option.map_eq_some_iff.1 hseen
  obtain ⟨hexit, hhandle⟩ := Prod.mk.inj hw
  obtain ⟨hinactive, hvalue⟩ :=
    leftovers (c := poised) (d := swept) hscheduled.1 hscheduled.2 rfl rfl hstint hexit
  obtain ⟨e, he, -, -, hstatus, -⟩ := hinactive (by rw [hhandle, hkeys]; exact List.mem_cons_self)
  refine ⟨w, _, hstint, hexit, ⟨e, he, hstatus⟩, ?_⟩
  obtain ⟨m, htake⟩ := takeResult_swept
  rcases hvalue (.int 7) m (hhandle ▸ htake) with ⟨t, ht, hnew, -⟩ | ⟨w', hw', -, hhands⟩
  · -- There was no other start.
    exact absurd (hpoised ▸ hswept ▸ ht) hnew
  · exact ⟨w', hw', hhands⟩

/-- The only invocation has ended with a fault, and still there is a value. -/
theorem value_after_fault :
    (∀ x ∈ opening ++ .act .tick :: ending, x.Scheduled) ∧
      swept = (new .standard default).along (opening ++ .act .tick :: ending) ∧
      swept.started = [(⟨0⟩, ⟨0⟩)] ∧ swept.sent = [(⟨0⟩, .faulted (.external "late"))] ∧
      ∃ m, swept.machine.takeResult ⟨0⟩ = .ok (some (.int 7), m) := by
  have hscheduled := List.forall_mem_append.1 scheduled_of_failing
  have hswept : swept = (new .standard default).along (opening ++ .act .tick :: ending) := by
    rw [along_append, swept, poised]
    rfl
  obtain ⟨-, hstarted, hsent, -⟩ := failing_seen
  refine ⟨?_, hswept, hstarted, hsent, takeResult_swept⟩
  exact List.forall_mem_append.2 ⟨hscheduled.1, List.forall_mem_cons.2 ⟨trivial, hscheduled.2⟩⟩

end Chronicle

end ScriptMachine
