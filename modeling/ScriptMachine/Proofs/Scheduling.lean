import ScriptMachine.Proofs.Alone
import ScriptMachine.Proofs.Events

/-!
# Scheduling is transparent

A process of a machine takes the steps that it would take on its own. Whatever else
happens to the machine decides only how many of them it has taken at a given moment
(`Invocation.transparent`): other processes that are created, started, closed or that
fail, sweeps of the scheduler that end at any instruction, and the host which puts
processes to sleep and wakes them. So how an invocation ends, and with which value, is
the same for every length of the slices, whatever the other processes are, and whatever
the process did in earlier invocations.

The invariant is `Machine.Tracks`: the process is, but for its sleep, the process on its
own after so many steps. All events that do not give it a turn leave it alone
(`Event.leaves`), and a turn is a number of steps (`Tracks.turn`).

* `Machine.Tracks.apply`: one event. If the process is awake and goes on, its turn has
  the full number of steps.
* `Machine.Tracks.after`: any number of events.
-/

namespace ScriptMachine

variable {σ : Type}

/-- The event does nothing to the process but putting it to sleep, waking it or giving it
    a turn, and does not ask for the exit of its invocation. -/
def Event.Spares (h : Handle) (t : Ticket) : Event σ → Prop
  | .shutdown | .bind _ _ => False
  | .launch h' _ | .visit h' _ | .finalize h' | .remove h' => h' ≠ h
  | .poll t' => t' ≠ t
  | _ => True

namespace Machine

/-! ## Events that leave a process alone -/

/-- The process is as it was, but may have been put to sleep or woken, and its invocation
    has not ended. -/
structure Leaves (h : Handle) (t : Ticket) (m m' : Machine σ) : Prop where
  settings : m'.settings = m.settings
  functions : m'.functions = m.functions
  entry : ∀ e, m.processes.get? h = some e →
    ∃ q, m'.processes.get? h = some ⟨q, e.ticket⟩ ∧ q.wake = e.process.wake
  exit : m'.exits.get? t = m.exits.get? t

section Leaves

variable {m m' m'' : Machine σ} {h h' : Handle} {t : Ticket} {e : Entry} {p : Process}

theorem Leaves.of_eq (hsettings : m'.settings = m.settings) (hfunctions : m'.functions = m.functions)
    (hentry : m'.processes.get? h = m.processes.get? h) (hexits : m'.exits.get? t = m.exits.get? t) :
    m.Leaves h t m' :=
  ⟨hsettings, hfunctions, fun e he => ⟨e.process, by rw [hentry, he], rfl⟩, hexits⟩

theorem Leaves.refl (m : Machine σ) : m.Leaves h t m := .of_eq rfl rfl rfl rfl

theorem Leaves.trans (hm : m.Leaves h t m') (hm' : m'.Leaves h t m'') : m.Leaves h t m'' := by
  refine ⟨hm'.settings.trans hm.settings, hm'.functions.trans hm.functions, fun e he => ?_,
    hm'.exit.trans hm.exit⟩
  obtain ⟨q, hq, hwake⟩ := hm.entry e he
  obtain ⟨q', hq', hwake'⟩ := hm'.entry _ hq
  exact ⟨q', hq', hwake'.trans hwake⟩

theorem leaves_setEntry_ne (hne : h' ≠ h) (m : Machine σ) (e : Entry) (k : Nat) :
    m.Leaves h t ({ m with nextTicket := k }.setEntry h' e) :=
  .of_eq rfl rfl (Table.get?_insert_ne (Ne.symm hne)) rfl

theorem Leaves.deposit {ticket : Option Ticket} (hm : m.Leaves h t m') (hne : ticket ≠ some t)
    (exit : Option Exit) : m.Leaves h t (m'.deposit ticket exit) := by
  unfold Machine.deposit
  split
  · -- The exit is one of another invocation.
    next t' x =>
    refine hm.trans (.of_eq rfl rfl rfl (Table.get?_insert_ne ?_))
    rintro rfl
    exact hne rfl
  · exact hm

theorem Leaves.notify (hm : m.Leaves h t m') : m.Leaves h t m'.notify := by
  obtain ⟨scheduler, heq⟩ := m'.notify_eq
  rw [heq]
  exact hm.trans (.of_eq rfl rfl rfl rfl)

/-- An operation on a process that keeps its frames ends nothing. -/
theorem update_eq (hframes : p.frames = e.process.frames) : e.update p = (⟨p, e.ticket⟩, none) :=
  if_neg fun hend => hend.1 (hframes ▸ hend.2)

theorem deposit_none (m : Machine σ) (ticket : Option Ticket) : m.deposit ticket none = m := by
  rcases ticket with _ | t <;> rfl

theorem visited_eq (hframes : p.frames = e.process.frames) :
    m.visited h e p = m.setEntry h ⟨p, e.ticket⟩ := by
  rw [visited, update_eq hframes]
  exact deposit_none _ _

/-- Putting a process to sleep, or waking it. -/
theorem leaves_visited_self (hget : m.processes.get? h = some e)
    (hframes : p.frames = e.process.frames) (hwake : p.wake = e.process.wake) :
    m.Leaves h t (m.visited h e p) := by
  rw [visited_eq hframes]
  refine ⟨rfl, rfl, fun e' he' => ⟨p, ?_, ?_⟩, rfl⟩
  · obtain rfl : e = e' := Option.some.inj (hget.symm.trans he')
    exact Table.get?_insert_self _ _ _
  · obtain rfl : e = e' := Option.some.inj (hget.symm.trans he')
    exact hwake

/-- An operation on another process. -/
theorem leaves_visited_ne (hne : h' ≠ h) (howner : ∀ h', m.Held h' t → h' = h)
    (hget : m.processes.get? h' = some e) (p : Process) : m.Leaves h t (m.visited h' e p) :=
  (leaves_setEntry_ne hne m _ m.nextTicket).deposit
    (fun ht => hne (howner h' (held_of_get? hget ht))) _

theorem leaves_visit {α : Type} (howner : ∀ h', m.Held h' t → h' = h)
    (op : Process → α × Process)
    (hop : h' = h → ∀ p, (op p).2.frames = p.frames ∧ (op p).2.wake = p.wake) :
    m.Leaves h t (m.tried (Prod.snd <$> m.visit h' op)) := by
  cases hget : m.processes.get? h' with
  | none =>
    rw [visit_eq_error op hget]
    exact .refl m
  | some e =>
    rw [visit_eq op hget]
    by_cases hh : h' = h
    · obtain ⟨hframes, hwake⟩ := hop hh e.process
      subst hh
      exact leaves_visited_self hget hframes hwake
    · exact leaves_visited_ne hh howner hget _

theorem wakeIn_leaves {table : Table Handle Entry} (hget : table.get? h = some e) (h' : Handle) :
    ∃ q, (wakeIn table h').get? h = some ⟨q, e.ticket⟩ ∧ q.wake = e.process.wake := by
  by_cases hh : h' = h
  · subst hh
    rw [wakeIn, hget]
    exact ⟨e.process.wake, Table.get?_insert_self _ _ _, e.process.wake_wake⟩
  · refine ⟨e.process, ?_, rfl⟩
    unfold wakeIn
    split
    · rw [Table.get?_insert_ne (Ne.symm hh), hget]
    · exact hget

/-- At the start of a sweep, processes are only woken. -/
theorem leaves_pickAll (m : Machine σ) (woken : List Handle) : m.Leaves h t (m.pickAll woken) := by
  refine ⟨rfl, rfl, fun e he => ?_, rfl⟩
  have hwoken : ∀ (woken : List Handle) (table : Table Handle Entry) (e : Entry),
      table.get? h = some e →
      ∃ q, (woken.foldl wakeIn table).get? h = some ⟨q, e.ticket⟩ ∧ q.wake = e.process.wake := by
    intro woken
    induction woken with
    | nil => exact fun _ e he => ⟨e.process, he, rfl⟩
    | cons h' woken ih =>
      intro table e he
      obtain ⟨q, hq, hwake⟩ := wakeIn_leaves he h'
      obtain ⟨q', hq', hwake'⟩ := ih _ _ hq
      exact ⟨q', hq', hwake'.trans hwake⟩
  exact hwoken woken m.processes e he

theorem leaves_record_ne (hne : h' ≠ h) (howner : ∀ h', m.Held h' t → h' = h)
    (hheld : ∀ t, e.ticket = some t → m.Held h' t) (turn : Turn σ) :
    m.Leaves h t (m.record h' e turn) := by
  have hhost : m.Leaves h t { m with wakes := m.wakes ++ turn.wakes, host := turn.host } :=
    .of_eq rfl rfl rfl rfl
  unfold record
  refine Leaves.deposit ?_ (fun ht => hne (howner h' (hheld t ht))) _
  dsimp only
  split
  · exact hhost.trans (leaves_setEntry_ne hne _ _ _)
  · exact hhost

/-- The turn of another process, or one in which the process does not run. -/
theorem leaves_turn (howner : ∀ h', m.Held h' t → h' = h) (hget : m.processes.get? h = some e)
    (hturn : h' = h → e.process.status ≠ .running) (left : List Handle) (awake : Bool) :
    m.Leaves h t (m.turn h' left awake) := by
  have hmoved (m' : Machine σ) (phase : Phase) (hm' : m.Leaves h t m') :
      m.Leaves h t { m'.moveTo phase with picked := (m'.moveTo phase).picked.erase h' } :=
    hm'.trans (.of_eq rfl rfl rfl rfl)
  unfold turn
  dsimp only
  split
  · next e' hentry =>
    split
    · next hrunning =>
      by_cases hh : h' = h
      · -- The entry in the table is the one that would have its turn.
        subst hh
        rw [ pickedEntry?, hget, Option.some_or, Option.some.injEq] at hentry
        exact absurd (hentry ▸ hrunning) (hturn rfl)
      · exact hmoved _ _ (leaves_record_ne hh howner (fun t => held_of_pickedEntry? hentry) _)
    · exact hmoved m _ (.refl m)
  · exact hmoved m _ (.refl m)

theorem leaves_prune (hget : m.processes.get? h = some e) (hstatus : e.process.status ≠ .finalizing) :
    m.Leaves h t m.prune := by
  refine .of_eq rfl rfl ?_ rfl
  rw [hget]
  exact Table.get?_filter hget (by simpa using hstatus)

theorem leaves_tick (howner : ∀ h', m.Held h' t → h' = h) (hget : m.processes.get? h = some e)
    (hstatus : e.process.status ≠ .finalizing)
    (hturn : Event.tick.turns h m = 1 → e.process.status ≠ .running) :
    m.Leaves h t m.tick := by
  unfold tick
  split
  case h_4 woken _ => exact m.leaves_pickAll woken
  case h_6 h' left awake hphase =>
    refine leaves_turn howner hget (fun hh => hturn ?_) left awake
    simp [Event.turns, hphase, hh]
  case h_7 => exact (leaves_prune hget hstatus).trans (.of_eq rfl rfl rfl rfl)
  all_goals exact .of_eq rfl rfl rfl rfl

end Leaves

end Machine

/-- All events that spare a process leave it alone, except for its turns. -/
theorem Event.leaves {m : Machine σ} {h : Handle} {t : Ticket} {e : Entry} {event : Event σ}
    (hspares : event.Spares h t) (howner : ∀ h', m.Held h' t → h' = h)
    (hget : m.processes.get? h = some e) (hstatus : e.process.status ≠ .finalizing)
    (hturn : event.turns h m = 1 → e.process.status ≠ .running) :
    m.Leaves h t (event.apply m) := by
  cases event with
  | run =>
    simp only [apply, Machine.run]
    split
    · exact .refl m
    · exact .of_eq rfl rfl rfl rfl
  | tick => exact Machine.leaves_tick howner hget hstatus hturn
  | shutdown | bind => exact hspares.elim
  | kick | queueWake => exact Machine.Leaves.notify (.of_eq rfl rfl rfl rfl)
  | create program =>
    refine .of_eq rfl rfl ?_ rfl
    rw [apply, Machine.create, Table.get?_append, hget, Option.some_or]
  | launch h' name =>
    -- A start that is refused changes nothing, and one that is not concerns another process.
    rcases m.launch_cases h' name with hsame | ⟨e', p, -, heq⟩
    · rw [apply, hsame]
      exact .refl m
    · rw [apply, heq]
      exact Machine.leaves_setEntry_ne hspares m _ _
  | poll t' =>
    simp only [apply, Machine.poll]
    split
    · exact .of_eq rfl rfl rfl (Table.get?_erase_ne (Ne.symm hspares))
    · split
      · exact .refl m
      · exact .refl m
  | pause h' =>
    refine Machine.leaves_visit howner (fun p => ((), p.pause)) fun _ p => ⟨?_, p.wake_pause⟩
    dsimp only [Process.pause]
    split <;> rfl
  | rouse h' => exact Machine.leaves_visit howner _ fun _ p => ⟨p.wake_frames, p.wake_wake⟩
  | visit h' op => exact Machine.leaves_visit howner _ fun hh => absurd hh hspares
  | finalize h' =>
    simp only [apply, Machine.finalize, Machine.entry]
    cases m.processes.get? h' with
    | none => exact .refl m
    | some e' => exact Machine.leaves_setEntry_ne hspares m _ m.nextTicket
  | remove h' =>
    simp only [apply, Machine.remove, Machine.entry]
    cases m.processes.get? h' with
    | none => exact .refl m
    | some e' => exact .of_eq rfl rfl (Table.get?_erase_ne (Ne.symm hspares)) rfl

namespace Machine

/-! ## A process and its run -/

/-- The process is the one on its own after so many steps, but for its sleep. The exit of
    its invocation is deposited exactly if that run has ended, and no other process can
    deposit one in its place. -/
structure Tracks (bare : Host Unit) (p : Process) (h : Handle) (t : Ticket) (slice n : Nat)
    (m : Machine σ) : Prop where
  agrees : m.hostFunctions.Agrees bare
  slice : m.settings.timeSlice = slice
  ticket : t.number < m.nextTicket
  owner : ∀ h', m.Held h' t → h' = h
  entry : ∃ e, m.processes.get? h = some e ∧
    Solo.Like ⟨e.process, m.exits.get? t⟩ (p.alone bare h n) ∧
    (m.exits.get? t = none → e.ticket = some t)
  going : ∀ k < n, (p.alone bare h k).exit = none

section Tracks

variable {bare : Host Unit} {p : Process} {h : Handle} {t : Ticket} {slice n : Nat}
  {m m' : Machine σ} {e : Entry}

/-- A process that is like one that goes on goes on itself, and the same for its end. -/
theorem going_or_over {q : Process} {s : Solo} (hs : s.Fine) (hlike : q.wake = s.process.wake) :
    (s.exit = none ∧ q.Going) ∨ (s.exit ≠ none ∧ q.Over) := by
  have hframes := Process.frames_of_wake_eq hlike
  unfold Solo.Fine at hs
  split at hs
  · next hexit =>
    refine .inl ⟨hexit, hframes ▸ hs.1, ?_⟩
    -- Whatever runs once it is woken sleeps or runs.
    have hrunning := hs.wake_status
    rw [← hlike] at hrunning
    by_cases hsleeping : q.status = .sleeping
    · exact .inr hsleeping
    · exact .inl (by rwa [Process.wake_of_ne_sleeping hsleeping] at hrunning)
  · next x hexit =>
    have hinactive : q.wake.status = .inactive := by
      rw [hlike, Process.wake_of_ne_sleeping (by simp [hs.2]), hs.2]
    refine .inr ⟨by simp [hexit], hframes.trans hs.1, ?_⟩
    by_cases hsleeping : q.status = .sleeping
    · simp [Process.wake, hsleeping] at hinactive
    · rwa [Process.wake_of_ne_sleeping hsleeping] at hinactive

/-- The ticket is never given to another process. -/
theorem Tracks.owner_of_later (hm : Tracks bare p h t slice n m) (hlater : m.Later m') :
    ∀ h', m'.Held h' t → h' = h := by
  intro h' hheld
  refine hm.owner h' ((hlater.held h' t hheld).resolve_right fun hfresh => ?_)
  exact absurd hm.ticket (Nat.not_lt.2 hfresh.1)

/-- Events that leave the process alone are no steps of it. -/
theorem Tracks.of_leaves (hm : Tracks bare p h t slice n m) (hlater : m.Later m')
    (hleaves : m.Leaves h t m') : Tracks bare p h t slice n m' := by
  obtain ⟨e, he, hlike, hticket⟩ := hm.entry
  obtain ⟨q, hq, hwake⟩ := hleaves.entry e he
  refine ⟨?_, by rw [hleaves.settings, hm.slice], Nat.lt_of_lt_of_le hm.ticket hlater.tickets,
    fun h' hheld => ?_, ⟨_, hq, ?_, ?_⟩, hm.going⟩
  · have hagrees := hm.agrees
    rwa [hostFunctions, ← hleaves.settings, ← hleaves.functions] at hagrees
  · exact hm.owner_of_later hlater h' hheld
  · rw [hleaves.exit]
    exact ⟨hwake.trans hlike.1, hlike.2⟩
  · rw [hleaves.exit]
    exact hticket

theorem afterTurn_eq (hframes : e.process.frames ≠ []) (turn : Turn σ) :
    e.afterTurn turn =
      (⟨turn.outcome.process, if turn.outcome.exit = none then e.ticket else none⟩,
        turn.outcome.exit) := by
  cases hresult : turn.result with
  | error r => simp [Entry.afterTurn, Turn.outcome, hresult]
  | ok u =>
    by_cases hend : turn.process.frames = []
    · simp [Entry.afterTurn, Turn.outcome, Entry.update, hresult, hframes, hend]
    · simp [Entry.afterTurn, Turn.outcome, Entry.update, hresult, hend]

/-- What the turn of a running process writes to the machine. -/
theorem turn_spec (hget : m.processes.get? h = some e) (hrunning : e.process.status = .running)
    (hframes : e.process.frames ≠ []) (hticket : e.ticket = some t) (hexit : m.exits.get? t = none)
    (left : List Handle) (awake : Bool) :
    (m.turn h left awake).settings = m.settings ∧ (m.turn h left awake).functions = m.functions ∧
      (m.turn h left awake).processes.get? h = some ⟨(m.turnOf h e).outcome.process,
        if (m.turnOf h e).outcome.exit = none then some t else none⟩ ∧
      (m.turn h left awake).exits.get? t = (m.turnOf h e).outcome.exit := by
  have hpicked : m.pickedEntry? h = some e := by rw [ pickedEntry?, hget, Option.some_or]
  simp only [turn, hpicked, if_pos hrunning, record, afterTurn_eq hframes, hget, Option.isSome_some,
    if_true, hticket]
  cases houtcome : (m.turnOf h e).outcome.exit with
  | none => exact ⟨rfl, rfl, Table.get?_insert_self _ _ _, hexit⟩
  | some x => exact ⟨rfl, rfl, Table.get?_insert_self _ _ _, Table.get?_insert_self _ _ _⟩

/-- A turn of the process while it runs is a number of its steps. -/
theorem Tracks.turn (hbare : bare.Lawful) (hp : p.Going) (hm : Tracks bare p h t slice n m)
    (hget : m.processes.get? h = some e) (hrunning : e.process.status = .running)
    (left : List Handle) (awake : Bool) :
    ∃ k ≤ slice, Tracks bare p h t slice (n + k) (m.turn h left awake) ∧
      ((p.alone bare h (n + k)).exit = none → k = slice ∨
        ∃ e, (m.turn h left awake).processes.get? h = some e ∧ e.process.status = .sleeping) := by
  obtain ⟨e', he', hlike, hticket⟩ := hm.entry
  obtain rfl : e = e' := Option.some.inj (hget.symm.trans he')
  -- The process runs, so its invocation has not ended.
  have hgoes : (p.alone bare h n).exit = none ∧ e.process.Going := by
    refine (going_or_over (Process.alone_fine hbare hp n) hlike.1).resolve_right fun hover => ?_
    exact nomatch hrunning.symm.trans hover.2.2
  obtain ⟨hnone, hgoing⟩ := hgoes
  have hexit : m.exits.get? t = none := hlike.2.trans hnone
  rw [hexit] at hlike
  obtain ⟨hsettings, hfunctions, hentry, hexits⟩ :=
    turn_spec hget hrunning hgoing.1 (hticket hexit) hexit left awake
  -- Its slice is a stretch of the run of `e.process`, which is like that of `p` from the
  -- `n`-th step on.
  obtain ⟨k, hk⟩ : ∃ k, e.process.Stretch bare h m.settings.timeSlice k (m.turnOf h e).outcome :=
    Process.slice_outcome (t := .start e.process m.host) hm.agrees hbare _ rfl hgoing
  rw [hm.slice] at hk
  have hlike' (j : Nat) : (e.process.alone bare h j).Like (p.alone bare h (n + j)) := by
    rw [Process.alone_add]
    exact hlike.advances j
  have hlater := m.later_turn h left awake
  refine ⟨k, hk.le, ⟨?_, by rw [hsettings, hm.slice],
    Nat.lt_of_lt_of_le hm.ticket hlater.tickets, fun h' hheld => ?_, ⟨_, hentry, ?_, fun hgoes => ?_⟩,
    fun i hi => ?_⟩, fun hgoes => ?_⟩
  · have hagrees := hm.agrees
    rwa [hostFunctions, ← hsettings, ← hfunctions] at hagrees
  · exact hm.owner_of_later hlater h' hheld
  · rw [hexits, hk.outcome]
    exact hlike' k
  · rw [hexits] at hgoes
    exact if_pos hgoes
  · -- No step before the last one of the slice has ended the run.
    by_cases hi' : i < n
    · exact hm.going i hi'
    · obtain ⟨j, rfl⟩ := Nat.exists_eq_add_of_le (Nat.not_lt.1 hi')
      rw [← (hlike' j).2]
      exact hk.before j (Nat.lt_of_add_lt_add_left hi)
  · rw [← (hlike' k).2, ← hk.outcome] at hgoes
    exact (hk.stop hgoes).imp_right fun hsleeping => ⟨_, hentry, hsleeping⟩

/-- The process does not sleep. -/
def Awake (h : Handle) (m : Machine σ) : Prop :=
  ∀ e, m.processes.get? h = some e → e.process.status ≠ .sleeping

theorem awake_iff : m.Awake h ↔
    ((m.processes.get? h).all fun e => e.process.status ≠ .sleeping) = true := by
  unfold Awake
  cases m.processes.get? h <;> simp

instance (h : Handle) (m : Machine σ) : Decidable (m.Awake h) := decidable_of_iff _ awake_iff.symm

theorem turns_le_one (event : Event σ) (h : Handle) (m : Machine σ) : event.turns h m ≤ 1 := by
  unfold Event.turns
  split
  · split
    · split
      · exact Nat.le_refl 1
      · exact Nat.zero_le 1
    · exact Nat.zero_le 1
  · exact Nat.zero_le 1

/-- A turn of the process is a section of the scheduler. -/
theorem apply_of_turns {event : Event σ} (hturn : event.turns h m = 1) :
    ∃ left awake, event.apply m = m.turn h left awake := by
  unfold Event.turns at hturn
  split at hturn
  · split at hturn
    · next h' left awake hphase =>
      split at hturn
      · next hh =>
        subst hh
        exact ⟨left, awake, by simp [Event.apply, tick, hphase]⟩
      · simp at hturn
    · simp at hturn
  · simp at hturn

/-- An event is a number of steps of the process: none without a turn, and at most a slice
    with one. A process that is awake and goes on takes the full slice. -/
theorem Tracks.apply {event : Event σ} (hbare : bare.Lawful) (hp : p.Going)
    (hm : Tracks bare p h t slice n m) (hspares : event.Spares h t) :
    ∃ k ≤ event.turns h m * slice, Tracks bare p h t slice (n + k) (event.apply m) ∧
      (m.Awake h → (event.apply m).Awake h → (p.alone bare h (n + k)).exit = none →
        k = event.turns h m * slice) := by
  obtain ⟨e, hget, hlike, -⟩ := hm.entry
  have hgoes := going_or_over (q := e.process) (Process.alone_fine hbare hp n) hlike.1
  by_cases hturn : event.turns h m = 1 ∧ e.process.status = .running
  · -- The process has its turn and runs.
    obtain ⟨hturn, hrunning⟩ := hturn
    obtain ⟨left, awake, heq⟩ := apply_of_turns hturn
    obtain ⟨k, hk, htracks, hstop⟩ := hm.turn hbare hp hget hrunning left awake
    rw [heq, hturn, Nat.one_mul]
    refine ⟨k, hk, htracks, fun _ hawake hexit => (hstop hexit).resolve_right ?_⟩
    rintro ⟨e', he', hsleeping⟩
    exact hawake e' he' hsleeping
  · -- It is not its turn, or it does not run; then nothing happens to it but sleep.
    have hstatus : e.process.status ≠ .finalizing := by
      rcases hgoes with ⟨-, -, hrunning | hsleeping⟩ | ⟨-, -, hinactive⟩ <;> simp [*]
    have hleaves := event.leaves hspares hm.owner hget hstatus fun h1 hrunning =>
      hturn ⟨h1, hrunning⟩
    refine ⟨0, Nat.zero_le _, hm.of_leaves (event.later m) hleaves, fun hawake _ hexit => ?_⟩
    -- An awake process that goes on runs, so this was not its turn.
    obtain ⟨-, -, hrunning | hsleeping⟩ := hgoes.resolve_right fun hover => hover.1 hexit
    · have hone : event.turns h m ≠ 1 := fun h1 => hturn ⟨h1, hrunning⟩
      have := turns_le_one event h m
      rw [Nat.lt_one_iff.1 (Nat.lt_of_le_of_ne this hone), Nat.zero_mul]
    · exact absurd hsleeping (hawake e hget)

theorem Tracks.picks_eq (hm : Tracks bare p h t slice n m) (event : Event σ) :
    event.picks h m = event.sweeps m := by
  obtain ⟨e, hget, -⟩ := hm.entry
  exact if_pos (Table.mem_keys_of_get? hget)

/-- Any events are a number of steps of the process. -/
theorem Tracks.after (hbare : bare.Lawful) (hp : p.Going) {events : List (Event σ)}
    (hm : Tracks bare p h t slice n m) (hspares : ∀ event ∈ events, event.Spares h t) :
    ∃ k ≤ tally (Event.turns h) events m * slice,
      Tracks bare p h t slice (n + k) (m.after events) ∧
      ((∀ es es', events = es ++ es' → (m.after es).Awake h) →
        (p.alone bare h (n + k)).exit = none → k = tally (Event.turns h) events m * slice) ∧
      tally (Event.picks h) events m = tally Event.sweeps events m := by
  induction events generalizing n m with
  | nil => exact ⟨0, Nat.zero_le _, hm, fun _ _ => (Nat.zero_mul slice).symm, rfl⟩
  | cons event events ih =>
    obtain ⟨hspare, hspares⟩ := List.forall_mem_cons.1 hspares
    obtain ⟨k, hk, htracks, hfull⟩ := hm.apply hbare hp hspare
    obtain ⟨k', hk', htracks', hfull', hpicks⟩ := ih htracks hspares
    simp only [tally, Nat.add_mul]
    refine ⟨k + k', Nat.add_le_add hk hk', by rwa [← Nat.add_assoc], fun hawake hexit => ?_,
      by rw [hm.picks_eq event, hpicks]⟩
    rw [← Nat.add_assoc] at hexit
    -- A run that goes on in the end went on after the first event, too.
    have hmid : (p.alone bare h (n + k)).exit = none := by
      by_cases hlt : n + k < n + k + k'
      · exact htracks'.going _ hlt
      · rwa [Nat.le_antisymm (Nat.le_add_right _ _) (Nat.not_lt.1 hlt)]
    have hfirst := hfull (hawake [] _ rfl) (hawake [event] events rfl) hmid
    have hrest := hfull' (fun es es' heq => hawake (event :: es) es' (by rw [heq]; rfl)) hexit
    rw [hfirst, hrest]

end Tracks

end Machine

/-! ## Invocations -/

/-- A new process of the program with data of the host, after it was started at a function. -/
def Program.started? (program : Program) (maxDepth : Nat) (attachment : Option Attachment)
    (name : String) : Option Process :=
  match program.functionId? name with
  | none => none
  | some id =>
    match Process.enter { program.instance maxDepth with attachment := attachment } id [] with
    | .error _ => none
    | .ok p => some { p with status := .running }

theorem Program.started?_going {program : Program} {maxDepth : Nat} {attachment : Option Attachment}
    {name : String} {p : Process} (h : program.started? maxDepth attachment name = some p) :
    p.Going := by
  unfold started? at h
  split at h
  · simp at h
  · split at h
    · simp at h
    · next q hq =>
      obtain rfl := Option.some.inj h
      exact ⟨(Process.enter_eq_ok hq).1, .inl rfl⟩

/-- What a start makes of a process does not depend on what it was used for before. -/
theorem Machine.launch_eq_ok {m m' : Machine σ} {h : Handle} {name : String} {t : Ticket} {e : Entry}
    (hget : m.processes.get? h = some e) (hlaunch : m.launch h name = (.ok t, m')) :
    ∃ p, e.process.program.started? e.process.maxDepth e.process.attachment name = some p ∧
      t = ⟨m.nextTicket⟩ ∧
      m' = { m with nextTicket := m.nextTicket + 1 }.setEntry h ⟨p, some ⟨m.nextTicket⟩⟩ := by
  unfold launch at hlaunch
  split at hlaunch
  · simp at hlaunch
  · next e' id hpoint =>
    obtain ⟨hget', hstatus, hid⟩ := entryPoint_eq_ok hpoint
    obtain rfl : e = e' := Option.some.inj (hget.symm.trans hget')
    -- A start begins with a reset, which keeps only what a new process has, and the data
    -- of the host.
    have hreset : e.process.reset =
        { e.process.program.instance e.process.maxDepth with
          attachment := e.process.attachment } := by
      simp [Process.reset, Program.instance, Process.new, hstatus]
    dsimp only at hlaunch
    split at hlaunch
    · simp at hlaunch
    · next p hp =>
      obtain ⟨ht, rfl⟩ := Prod.mk.inj hlaunch
      refine ⟨_, ?_, (Except.ok.inj ht).symm, rfl⟩
      simp only [Program.started?, hid, ← hreset, hp]

/-- The run of a process on its own ends after so many steps. -/
def Process.EndsAfter (p : Process) (bare : Host Unit) (h : Handle) (n : Nat) : Prop :=
  (p.alone bare h n).exit ≠ none ∧ ∀ k < n, (p.alone bare h k).exit = none

/-- An invocation: a process was started in a machine with any past, and after that any
    events happened to the machine. -/
structure Invocation (bare : Host Unit) (σ : Type) where
  before : Machine σ
  reachable : before.Reachable
  agrees : before.hostFunctions.Agrees bare
  handle : Handle
  /-- The process before it is started, with what earlier invocations have left. -/
  entry : Entry
  present : before.processes.get? handle = some entry
  name : String
  ticket : Ticket
  started : Machine σ
  launched : before.launch handle name = (.ok ticket, started)
  events : List (Event σ)
  spares : ∀ event ∈ events, event.Spares handle ticket

namespace Invocation

variable {bare : Host Unit} (i : Invocation bare σ)

/-- The machine after the events. -/
def after : Machine σ := i.started.after i.events

/-- A newly created process, started at the same function. -/
def fresh? : Option Process :=
  i.entry.process.program.started? i.entry.process.maxDepth i.entry.process.attachment i.name

/-- The value that the process has returned and nobody has taken. -/
def returnValue : Option Value :=
  (i.after.processes.get? i.handle).bind fun e => e.process.returnValue

/-- How the invocation has ended, if it has. -/
def exit : Option Exit := i.after.exits.get? i.ticket

/-- The turns that the process has had. -/
def turns : Nat := i.started.tally (Event.turns i.handle) i.events

/-- The sweeps that have begun since the start. -/
def sweeps : Nat := i.started.tally Event.sweeps i.events

/-- The process has not slept. -/
def NeverPaused : Prop := ∀ es es', i.events = es ++ es' → (i.started.after es).Awake i.handle

variable {i} {p : Process} {n : Nat}

/-- When it is started, the process is a new one. -/
theorem tracks_started (hp : i.fresh? = some p) :
    i.started.Tracks bare p i.handle i.ticket i.before.settings.timeSlice 0 := by
  have horderly := i.reachable.orderly
  obtain ⟨p', hp', hticket, hstarted⟩ := Machine.launch_eq_ok i.present i.launched
  obtain rfl : p' = p := Option.some.inj (hp'.symm.trans hp)
  rw [hticket, hstarted]
  have hexit : i.before.exits.get? ⟨i.before.nextTicket⟩ = none :=
    Table.get?_eq_none_iff.2 fun hmem => Nat.lt_irrefl _ (horderly.exits _ hmem)
  refine ⟨i.agrees, rfl, Nat.lt_succ_self _, fun h' hheld => ?_,
    ⟨_, Table.get?_insert_self _ _ _, ⟨rfl, hexit⟩, fun _ => rfl⟩,
    fun k hk => absurd hk (Nat.not_lt_zero k)⟩
  -- The ticket is new: nothing that was in the machine before can hold it.
  obtain ⟨e, hmem | hmem, ht⟩ := hheld
  · rcases Table.mem_insert hmem with heq | hmem
    · exact (Prod.mk.inj heq).1
    · exact absurd (horderly.held h' _ ⟨e, .inl hmem, ht⟩) (Nat.lt_irrefl _)
  · exact absurd (horderly.held h' _ ⟨e, .inr hmem, ht⟩) (Nat.lt_irrefl _)

theorem exists_tracks (hbare : bare.Lawful) (hp : i.fresh? = some p) :
    ∃ n ≤ i.turns * i.before.settings.timeSlice,
      i.after.Tracks bare p i.handle i.ticket i.before.settings.timeSlice n ∧
      (i.NeverPaused → (p.alone bare i.handle n).exit = none →
        n = i.turns * i.before.settings.timeSlice) ∧
      i.started.tally (Event.picks i.handle) i.events = i.sweeps := by
  obtain ⟨n, hn, htracks, hfull, hpicks⟩ :=
    (tracks_started hp).after hbare (Program.started?_going hp) i.spares
  rw [Nat.zero_add] at htracks hfull
  exact ⟨n, hn, htracks, hfull, hpicks⟩

end Invocation

namespace Process

variable {bare : Host Unit} {p : Process} {h : Handle} {m n : Nat}

theorem EndsAfter.unique (hm : p.EndsAfter bare h m) (hn : p.EndsAfter bare h n) : m = n := by
  rcases Nat.lt_trichotomy m n with hlt | heq | hgt
  · exact absurd (hn.2 m hlt) hm.1
  · exact heq
  · exact absurd (hm.2 n hgt) hn.1

/-- Steps up to a bound that stop before it only at the end. -/
theorem steps_eq_min {bound : Nat} (hbound : n ≤ bound)
    (hgoing : ∀ k < n, (p.alone bare h k).exit = none)
    (hfull : (p.alone bare h n).exit = none → n = bound) :
    (∀ last, p.EndsAfter bare h last → n = min bound last) ∧
      ((∀ last, ¬p.EndsAfter bare h last) → n = bound) := by
  cases hexit : (p.alone bare h n).exit with
  | some x =>
    have hends : p.EndsAfter bare h n := ⟨by simp [hexit], hgoing⟩
    refine ⟨fun last hlast => ?_, fun hnever => absurd hends (hnever n)⟩
    rw [← hends.unique hlast, Nat.min_eq_right hbound]
  | none =>
    refine ⟨fun last hlast => ?_, fun _ => hfull hexit⟩
    -- The end is not behind us, as nothing changes after it.
    have hlt : n < last := by
      refine Nat.not_le.1 fun hle => ?_
      obtain ⟨x, hx⟩ := Option.ne_none_iff_exists'.1 hlast.1
      rw [alone_of_exit hx hle, hx] at hexit
      exact nomatch hexit
    rw [← hfull hexit, Nat.min_eq_left (Nat.le_of_lt hlt)]

end Process

namespace Invocation

variable {bare : Host Unit} {i : Invocation bare σ} {p : Process} {n : Nat}

/-- An invocation that has ended did so as the process on its own does. -/
theorem exists_end (hbare : bare.Lawful) (hp : i.fresh? = some p) {x : Exit} (hx : i.exit = some x) :
    ∃ n, p.EndsAfter bare i.handle n ∧ (p.alone bare i.handle n).exit = some x ∧
      i.returnValue = (p.alone bare i.handle n).process.returnValue := by
  obtain ⟨n, -, htracks, -⟩ := exists_tracks hbare hp
  obtain ⟨e, he, ⟨hlike, hexit⟩, -⟩ := htracks.entry
  have hend : (p.alone bare i.handle n).exit = some x := hexit.symm.trans hx
  refine ⟨n, ⟨by simp [hend], htracks.going⟩, hend, ?_⟩
  rw [returnValue, he, Option.bind_some]
  exact Process.returnValue_of_wake_eq hlike

/-- In a machine, a process that was started is at any time what a newly created process
    of its program would be on its own, after some number of steps. If it has not slept,
    these are as many as its turns allow, or all there are; and it has a turn in each
    sweep. The end of the invocation depends on nothing else: two invocations that
    start with equal processes end alike, in whatever machines they are. -/
theorem transparent (hbare : bare.Lawful) (i : Invocation bare σ) :
    ∃ p, i.fresh? = some p ∧
      (∃ e n, i.after.processes.get? i.handle = some e ∧
        e.process.frames = (p.alone bare i.handle n).process.frames ∧
        e.process.returnValue = (p.alone bare i.handle n).process.returnValue ∧
        i.exit = (p.alone bare i.handle n).exit ∧
        n ≤ i.turns * i.before.settings.timeSlice ∧
        (i.NeverPaused →
          (∀ last, p.EndsAfter bare i.handle last →
            n = min (i.turns * i.before.settings.timeSlice) last) ∧
          ((∀ last, ¬p.EndsAfter bare i.handle last) →
            n = i.turns * i.before.settings.timeSlice))) ∧
      i.turns + i.after.left.count i.handle = i.sweeps + i.started.left.count i.handle ∧
      (∀ h, i.started.tally (Event.turns h) i.events + i.after.left.count h =
        i.started.tally (Event.picks h) i.events + i.started.left.count h) ∧
      ∀ (τ : Type) (j : Invocation bare τ), j.fresh? = i.fresh? → j.handle = i.handle →
        ∀ x y, i.exit = some x → j.exit = some y → x = y ∧ i.returnValue = j.returnValue := by
  obtain ⟨p, hp, -⟩ := Machine.launch_eq_ok i.present i.launched
  have hp : i.fresh? = some p := hp
  obtain ⟨n, hn, htracks, hfull, hpicks⟩ := exists_tracks hbare hp
  obtain ⟨e, he, ⟨hlike, hexit⟩, -⟩ := htracks.entry
  have horderly : i.started.Orderly := by
    have hlater := (Event.launch i.handle i.name).later i.before
    rw [Event.apply, i.launched] at hlater
    exact i.reachable.orderly.later hlater
  have hturns (h : Handle) : i.started.tally (Event.turns h) i.events + i.after.left.count h =
      i.started.tally (Event.picks h) i.events + i.started.left.count h := by
    refine Machine.turns_eq horderly (fun event hevent => ?_) h
    rintro rfl
    exact i.spares _ hevent
  refine ⟨p, hp, ⟨e, n, he, Process.frames_of_wake_eq hlike, Process.returnValue_of_wake_eq hlike,
    hexit, hn, fun hawake => ?_⟩, ?_, hturns, fun τ j hfresh hhandle x y hx hy => ?_⟩
  · exact Process.steps_eq_min hn htracks.going (hfull hawake)
  · rw [← hpicks]
    exact hturns i.handle
  · -- Both invocations end where the run of the same process ends.
    obtain ⟨last, hends, hlast, hvalue⟩ := exists_end hbare hp hx
    obtain ⟨last', hends', hlast', hvalue'⟩ := exists_end hbare (hfresh.trans hp) hy
    rw [hhandle] at hends' hlast' hvalue'
    obtain rfl := hends.unique hends'
    exact ⟨Option.some.inj (hlast.symm.trans hlast'), hvalue.trans hvalue'.symm⟩

/-! ## Two machines -/

/-- Whether a process has slept can be found out by looking at it after every event. -/
theorem neverPaused_iff : i.NeverPaused ↔
    ∀ k ∈ List.range (i.events.length + 1), (i.started.after (i.events.take k)).Awake i.handle := by
  constructor
  · intro hnever k _
    exact hnever (i.events.take k) (i.events.drop k) (List.take_append_drop k i.events).symm
  · intro hcheck es es' heq
    have htake : i.events.take es.length = es := by rw [heq, List.take_left]
    have hlength : es.length < i.events.length + 1 := by
      rw [heq, List.length_append]
      omega
    have hawake := hcheck es.length (List.mem_range.2 hlength)
    rwa [htake] at hawake

instance (i : Invocation bare σ) : Decidable i.NeverPaused := decidable_of_iff _ neverPaused_iff.symm

/-- A function of the host that puts the process to sleep and gives the unit value. -/
def nap : HostFunction Unit := fun _ _ p _ => Host.ofResult p () (p.pause.push .unit)

/-- The host with that function. -/
def napping : Host Unit := ⟨[("nap", nap)], .ignore⟩

theorem napping_lawful : napping.Lawful := by
  intro name f hf handle args p hframes hstatus hresult
  obtain ⟨-, rfl⟩ : "nap" = name ∧ nap = f := by simpa [napping, Table.get?] using hf
  have hpause : p.pause.frames = p.frames ∧ p.pause.status = .sleeping := by
    simp [Process.pause, hstatus]
  cases hpush : p.pause.push .unit with
  | error e => simp [nap, hpush, Host.ofResult] at hresult
  | ok q =>
    obtain ⟨hq, hkept⟩ := Process.stays_push hpush
    simp only [nap, hpush, Host.ofResult]
    exact .inl ⟨hq (hpause.1 ▸ hframes), .inr (hkept.trans hpause.2)⟩

/-- A program that takes a nap. -/
def napProgram : Program where
  strings := #["nap"]
  functions := #[.compiled (.ofCode #[.ofNat .pushString 0, .ofNat .external 0, .bare .ret])]
  names := [("main", 0)]

/-- A program that returns a number. -/
def sevenProgram : Program where
  strings := #[]
  functions := #[.compiled (.ofCode #[.ofInt .pushInt 7, .bare .ret])]
  names := [("main", 0)]

/-- Slices of one step, and a sweep that has begun. -/
def besideMachine : Machine Unit :=
  Machine.after [.bind "nap" nap, .create napProgram, .create sevenProgram, .run,
    .launch ⟨0⟩ "main", .tick, .tick, .tick] (.new { timeSlice := 1 } ())

/-- A process beside one that takes a nap and is closed in its sleep. -/
def beside : Invocation napping Unit where
  before := besideMachine
  reachable := ⟨_, _, _, rfl⟩
  agrees := fun _ _ _ _ _ => ⟨rfl, rfl⟩
  handle := ⟨1⟩
  entry := ⟨sevenProgram.instance 256, none⟩
  present := rfl
  name := "main"
  ticket := ⟨1⟩
  started := (besideMachine.launch ⟨1⟩ "main").2
  launched := rfl
  events := .replicate 5 .tick ++ [.remove ⟨0⟩, .create napProgram] ++ .replicate 15 .tick
  spares := by simp [Event.Spares, List.replicate]

/-- Slices of sixty steps, and a process that has already run. -/
def againMachine : Machine Unit :=
  Machine.after ([.bind "nap" nap, .create napProgram, .create sevenProgram,
    .launch ⟨1⟩ "main", .run] ++ .replicate 8 .tick) (.new .standard ())

/-- The process is started again. -/
def again : Invocation napping Unit where
  before := againMachine
  reachable := ⟨_, _, _, rfl⟩
  agrees := fun _ _ _ _ _ => ⟨rfl, rfl⟩
  handle := ⟨1⟩
  entry := ⟨{ sevenProgram.instance 256 with returnValue := some (.int 7) }, none⟩
  present := rfl
  name := "main"
  ticket := ⟨1⟩
  started := (againMachine.launch ⟨1⟩ "main").2
  launched := rfl
  events := .kick :: .replicate 8 .tick
  spares := by simp [Event.Spares, List.replicate]

/-- The process that both of them start. -/
def sevenProcess : Process :=
  { sevenProgram.instance 256 with frames := [.enter 0 0 []], status := .running }

theorem transparent_beside :
    beside.NeverPaused ∧ sevenProcess.EndsAfter napping ⟨1⟩ 2 ∧
      (∃ e, beside.after.processes.get? ⟨1⟩ = some e ∧
        e.process.frames = (sevenProcess.alone napping ⟨1⟩ (min (3 * 1) 2)).process.frames ∧
        e.process.returnValue =
          (sevenProcess.alone napping ⟨1⟩ (min (3 * 1) 2)).process.returnValue) ∧
      beside.exit = some .completed ∧ again.exit = some .completed ∧
      beside.returnValue = again.returnValue := by
  have hnever : beside.NeverPaused := by decide +kernel
  have hends : sevenProcess.EndsAfter napping ⟨1⟩ 2 := ⟨by decide +kernel, by decide +kernel⟩
  have hbeside : beside.exit = some .completed := by decide +kernel
  have hagain : again.exit = some .completed := by decide +kernel
  obtain ⟨p, hp, ⟨e, n, he, hframes, hvalue, -, -, hsteps⟩, -, -, hsame⟩ :=
    transparent napping_lawful beside
  obtain rfl : p = sevenProcess := Option.some.inj (hp.symm.trans (by decide +kernel))
  obtain rfl : n = min (3 * 1) 2 := (hsteps hnever).1 2 hends
  exact ⟨hnever, hends, ⟨e, he, hframes, hvalue⟩, hbeside, hagain,
    (hsame Unit again rfl rfl _ _ hbeside hagain).2⟩

end Invocation

end ScriptMachine
