import ScriptMachine.Proofs.Happenings

/-!
# Machines that are started again

A machine is running as soon as its scheduler was started, but that does not mean that the
scheduler sweeps. Shutting a machine down leaves it a mark that tells schedulers to stop, and
nothing takes this mark away. A scheduler that is started later finds it, and stops before
its first sweep.

So there are two kinds of running machines, whatever has happened to them. One that was never
shut down gives each process that is started in it a turn, in the sweep that is going on or
in the next one. One that was shut down before will never give any process a turn again.

* `Machine.after_stopping`: the mark is there exactly in machines that were shut down while
  they were running.
* `Machine.posed_apply`, `Machine.posed_after`: where schedulers can stand in machines with and
  without the mark.
* `Machine.Awaits.tick_nearer`, `Machine.Awaits.turn_comes`: every section of the scheduler brings
  the turn of a process nearer.
* `Machine.running_cases`: the two kinds of running machines.
* `Machine.restarted_starves`: a machine of the second kind.
-/

namespace ScriptMachine

variable {σ : Type}

/-- The machines that an event shuts down: one if the machine is running. -/
def Event.stops (m : Machine σ) : Event σ → Nat
  | .shutdown => if m.isRunning then 1 else 0
  | _ => 0

namespace Machine

variable {m m' : Machine σ}

/-! ## The mark and the place of the scheduler -/

/-- The mark for schedulers is as it was, and the scheduler has not moved, unless it was
    blocked. -/
structure Keeps (m m' : Machine σ) : Prop where
  stopping : m'.stopping = m.stopping
  scheduler : m'.scheduler = m.scheduler ∨
    m.scheduler = some .blocked ∧ m'.scheduler = some .top

theorem Keeps.of_eq (hstopping : m'.stopping = m.stopping)
    (hscheduler : m'.scheduler = m.scheduler) : m.Keeps m' :=
  ⟨hstopping, .inl hscheduler⟩

theorem Keeps.deposit (hm : m.Keeps m') (ticket : Option Ticket) (exit : Option Exit) :
    m.Keeps (m'.deposit ticket exit) := by
  unfold Machine.deposit
  split
  · exact ⟨hm.stopping, hm.scheduler⟩
  · exact hm

theorem keeps_notify (m : Machine σ) : m.Keeps m.notify := by
  unfold notify
  split
  · next hblocked => exact ⟨rfl, .inr ⟨hblocked, rfl⟩⟩
  · exact .of_eq rfl rfl

theorem keeps_visit {α : Type} (m : Machine σ) (h : Handle) (op : Process → α × Process) :
    m.Keeps (m.tried (Prod.snd <$> m.visit h op)) := by
  cases hget : m.processes.get? h with
  | none =>
    rw [visit_eq_error op hget]
    exact .of_eq rfl rfl
  | some e =>
    rw [visit_eq op hget]
    have hset : m.Keeps (m.setEntry h (e.update (op e.process).2).1) := .of_eq rfl rfl
    exact hset.deposit _ _

theorem keeps_launch (m : Machine σ) (h : Handle) (name : String) :
    m.Keeps (m.launch h name).2 := by
  rcases m.launch_cases h name with hsame | ⟨e, p, -, heq⟩
  · rw [hsame]
    exact .of_eq rfl rfl
  · rw [heq]
    exact .of_eq rfl rfl

theorem stopping_tick (m : Machine σ) : m.tick.stopping = m.stopping := by
  by_cases hturn : ∃ h left awake, m.scheduler = some (.turns (h :: left) awake)
  · obtain ⟨h, left, awake, hphase⟩ := hturn
    exact (tick_turns hphase).2.1
  · unfold tick
    split
    case h_6 h left awake hphase => exact absurd ⟨h, left, awake, hphase⟩ hturn
    all_goals rfl

theorem stopping_runUntil (done : Machine σ → Bool) (n : Nat) (m : Machine σ) :
    (m.runUntil done n).stopping = m.stopping := by
  induction n generalizing m with
  | zero => rfl
  | succ n ih =>
    rw [runUntil]
    split
    · rfl
    · rw [ih, stopping_tick]

theorem shutdown_of_isRunning (hrunning : m.isRunning = true) :
    m.shutdown.stopping = true ∧ m.shutdown.scheduler = none := by
  rw [shutdown, if_pos hrunning]
  exact ⟨(stopping_runUntil _ _ _).trans (keeps_notify _).stopping, rfl⟩

theorem shutdown_of_not_isRunning (hrunning : m.isRunning = false) : m.shutdown = m := by
  rw [shutdown, if_neg (by simp [hrunning])]

end Machine

namespace Event

/-- Only events of the scheduler move it, and only a shutdown sets the mark. -/
theorem kinds (event : Event σ) (m : Machine σ) :
    event = .run ∨ event = .tick ∨ event = .shutdown ∨
      m.Keeps (event.apply m) ∧ event.stops m = 0 ∧ ∀ h, event.turns h m = 0 := by
  have hother (hm : m.Keeps (event.apply m)) (hstops : event.stops m = 0)
      (hturns : ∀ h, event.turns h m = 0) : event = .run ∨ event = .tick ∨ event = .shutdown ∨
      m.Keeps (event.apply m) ∧ event.stops m = 0 ∧ ∀ h, event.turns h m = 0 :=
    .inr (.inr (.inr ⟨hm, hstops, hturns⟩))
  cases event with
  | run => exact .inl rfl
  | tick => exact .inr (.inl rfl)
  | shutdown => exact .inr (.inr (.inl rfl))
  | bind name f =>
    refine hother ?_ rfl fun _ => rfl
    simp only [apply, Machine.bind]
    split
    · exact .of_eq rfl rfl
    · exact .of_eq rfl rfl
  | kick | queueWake =>
    exact hother ⟨(Machine.keeps_notify _).stopping, (Machine.keeps_notify _).scheduler⟩ rfl
      fun _ => rfl
  | create program => exact hother (.of_eq rfl rfl) rfl fun _ => rfl
  | launch h name => exact hother (m.keeps_launch h name) rfl fun _ => rfl
  | poll t =>
    refine hother ?_ rfl fun _ => rfl
    simp only [apply, Machine.poll]
    split
    · exact .of_eq rfl rfl
    · split
      · exact .of_eq rfl rfl
      · exact .of_eq rfl rfl
  | pause h | rouse h | visit h => exact hother (m.keeps_visit h _) rfl fun _ => rfl
  | finalize h =>
    refine hother ?_ rfl fun _ => rfl
    simp only [apply, Machine.finalize, Machine.entry]
    cases m.processes.get? h with
    | none => exact .of_eq rfl rfl
    | some e => exact .of_eq rfl rfl
  | remove h =>
    refine hother ?_ rfl fun _ => rfl
    simp only [apply, Machine.remove, Machine.entry]
    cases m.processes.get? h with
    | none => exact .of_eq rfl rfl
    | some e => exact .of_eq rfl rfl

theorem apply_run (m : Machine σ) :
    (run.apply m).stopping = m.stopping ∧
      (m.scheduler = none ∧ (run.apply m).scheduler = some .top ∨
        m.isRunning = true ∧ (run.apply m).scheduler = m.scheduler) := by
  simp only [apply, Machine.run]
  split
  · next hrunning => exact ⟨rfl, .inr ⟨hrunning, rfl⟩⟩
  · next hrunning => exact ⟨rfl, .inl ⟨by simpa [Machine.isRunning] using hrunning, rfl⟩⟩

/-- The mark stays once it is set, and a machine gets it only by being shut down. -/
theorem apply_stopping (event : Event σ) (m : Machine σ) :
    (event.apply m).stopping = true ↔ m.stopping = true ∨ 0 < event.stops m := by
  rcases event.kinds m with rfl | rfl | rfl | ⟨hkeeps, hstops, -⟩
  · simp [(apply_run m).1, stops]
  · simp [apply, Machine.stopping_tick, stops]
  · cases hrunning : m.isRunning with
    | true => simp [apply, stops, hrunning, (Machine.shutdown_of_isRunning hrunning).1]
    | false => simp [apply, stops, hrunning, Machine.shutdown_of_not_isRunning hrunning]
  · simp [hkeeps.stopping, hstops]

end Event

namespace Machine

variable {m m' : Machine σ} {h : Handle} {e : Entry}

theorem after_stopping (events : List (Event σ)) (m : Machine σ) :
    (m.after events).stopping = true ↔ m.stopping = true ∨ 0 < tally Event.stops events m := by
  induction events generalizing m with
  | nil => simp [after, tally]
  | cons e events ih =>
    rw [after, ih, e.apply_stopping, tally, or_assoc, Nat.add_pos_iff_pos_or_pos]

/-- The scheduler has not been started, or is about to stop, or has stopped. -/
def Idle (m : Machine σ) : Prop :=
  m.scheduler = none ∨ m.scheduler = some .top ∨ m.scheduler = some .stopped

/-- With the mark there is no scheduler in a sweep, and without it none that has stopped. -/
structure Posed (m : Machine σ) : Prop where
  idle : m.stopping = true → m.Idle
  stopping : m.scheduler = some .stopped → m.stopping = true

theorem Keeps.isRunning (hm : m.Keeps m') (hrunning : m.isRunning = true) :
    m'.isRunning = true := by
  rcases hm.scheduler with hsame | ⟨-, htop⟩
  · rwa [Machine.isRunning, hsame]
  · rw [Machine.isRunning, htop]
    rfl

theorem Keeps.idle (hm : m.Keeps m') (hidle : m.Idle) : m'.Idle := by
  rcases hm.scheduler with hsame | ⟨hblocked, -⟩
  · rwa [Idle, hsame]
  · rcases hidle with h | h | h <;> simp [hblocked] at h

theorem Keeps.posed (hm : m.Keeps m') (hposed : m.Posed) : m'.Posed := by
  refine ⟨fun hstopping => hm.idle (hposed.idle (hm.stopping ▸ hstopping)), fun hstopped => ?_⟩
  rcases hm.scheduler with hsame | ⟨-, htop⟩
  · exact hm.stopping ▸ hposed.stopping (hsame ▸ hstopped)
  · simp [htop] at hstopped

theorem posed_new (settings : Settings) (host : σ) : (new settings host).Posed :=
  ⟨nofun, nofun⟩

/-- A scheduler that finds the mark stops. -/
theorem tick_of_idle (hstopping : m.stopping = true) (hidle : m.Idle) :
    m.tick = m ∨ m.tick = m.moveTo .stopped := by
  rcases hidle with h | h | h
  · exact .inl (by rw [tick, h])
  · exact .inr (by rw [tick, h, hstopping]; rfl)
  · exact .inl (by rw [tick, h])

/-- Without the mark a scheduler does not stop. -/
theorem tick_ne_stopped (hstopping : m.stopping = false) (hm : m.scheduler ≠ some .stopped) :
    m.tick.scheduler ≠ some .stopped := by
  by_cases hturn : ∃ h left awake, m.scheduler = some (.turns (h :: left) awake)
  · obtain ⟨h, left, awake, hphase⟩ := hturn
    obtain ⟨-, -, awake', hnext⟩ := tick_turns hphase
    simp [hnext]
  · unfold tick
    split
    case h_1 hnone => simp [hnone]
    case h_2 => simp [moveTo, hstopping]
    case h_6 h left awake hphase => exact absurd ⟨h, left, awake, hphase⟩ hturn
    case h_8 => simp only [moveTo]; split <;> simp
    case h_9 hblocked => simp [hblocked]
    case h_10 hstopped => exact absurd hstopped hm
    all_goals simp [moveTo, takeSignals, pickAll, prune]

theorem Posed.tick (hm : m.Posed) : m.tick.Posed := by
  cases hstopping : m.stopping with
  | true =>
    rcases tick_of_idle hstopping (hm.idle hstopping) with heq | heq
    · rwa [heq]
    · rw [heq]
      exact ⟨fun _ => .inr (.inr rfl), fun _ => hstopping⟩
  | false =>
    have hunstopped : m.scheduler ≠ some .stopped := fun h => by
      simp [hm.stopping h] at hstopping
    refine ⟨fun h => ?_, fun h => absurd h (tick_ne_stopped hstopping hunstopped)⟩
    rw [stopping_tick, hstopping] at h
    cases h

theorem posed_apply (hm : m.Posed) (event : Event σ) : (event.apply m).Posed := by
  rcases event.kinds m with rfl | rfl | rfl | ⟨hkeeps, -, -⟩
  · obtain ⟨hstopping, ⟨-, htop⟩ | ⟨-, hsame⟩⟩ := Event.apply_run m
    · exact ⟨fun _ => .inr (.inl htop), fun h => by simp [htop] at h⟩
    · exact (Keeps.of_eq hstopping hsame).posed hm
  · exact hm.tick
  · cases hrunning : m.isRunning with
    | true =>
      obtain ⟨hstopping, hnone⟩ := shutdown_of_isRunning hrunning
      exact ⟨fun _ => .inl hnone, fun _ => hstopping⟩
    | false =>
      have hsame : Event.shutdown.apply m = m := shutdown_of_not_isRunning hrunning
      rwa [hsame]
  · exact hkeeps.posed hm

theorem posed_after (hm : m.Posed) (events : List (Event σ)) : (m.after events).Posed := by
  induction events generalizing m with
  | nil => exact hm
  | cons e events ih => exact ih (posed_apply hm e)

/-! ## Machines that were shut down -/

/-- No process has a turn any more, whatever happens to the machine, and shutting it down
    does nothing to its processes either. -/
structure Starves (m : Machine σ) : Prop where
  turns : ∀ events h, tally (Event.turns h) events m = 0
  shutdown : ∀ events, (m.after events).shutdown.processes = (m.after events).processes ∧
    (m.after events).shutdown.host = (m.after events).host

theorem turns_of_idle (hidle : m.Idle) (event : Event σ) (h : Handle) : event.turns h m = 0 := by
  rcases hidle with hnone | htop | hstopped
  · cases event <;> simp [Event.turns, hnone]
  · cases event <;> simp [Event.turns, htop]
  · cases event <;> simp [Event.turns, hstopped]

/-- The ticks of a scheduler that finds the mark do nothing to the processes. -/
theorem runUntil_of_idle (hstopping : m.stopping = true) (hidle : m.Idle)
    (done : Machine σ → Bool) (n : Nat) :
    (m.runUntil done n).processes = m.processes ∧ (m.runUntil done n).host = m.host := by
  induction n generalizing m with
  | zero => exact ⟨rfl, rfl⟩
  | succ n ih =>
    rw [runUntil]
    split
    · exact ⟨rfl, rfl⟩
    · rcases tick_of_idle hstopping hidle with heq | heq <;> rw [heq]
      · exact ih hstopping hidle
      · exact ih (m := m.moveTo .stopped) hstopping (.inr (.inr rfl))

theorem shutdown_of_idle (hstopping : m.stopping = true) (hidle : m.Idle) :
    m.shutdown.processes = m.processes ∧ m.shutdown.host = m.host := by
  unfold shutdown
  split
  · have hkeeps : m.Keeps (kick { m with stopping := true }) :=
      ⟨(keeps_notify _).stopping.trans hstopping.symm, (keeps_notify _).scheduler⟩
    obtain ⟨hprocesses, hhost⟩ := runUntil_of_idle (hkeeps.stopping.trans hstopping)
      (hkeeps.idle hidle) (fun _ => false) (sweepLength (kick { m with stopping := true }))
    obtain ⟨scheduler, heq⟩ := notify_eq { m with stopping := true, kicked := true }
    refine ⟨hprocesses.trans ?_, hhost.trans ?_⟩
    · rw [kick, heq]
    · rw [kick, heq]
  · exact ⟨rfl, rfl⟩

theorem starves_of_posed (hm : m.Posed) (hstopping : m.stopping = true) : m.Starves := by
  have hlater (events : List (Event σ)) :
      (m.after events).stopping = true ∧ (m.after events).Idle := by
    have hstopping' := (after_stopping events m).2 (.inl hstopping)
    exact ⟨hstopping', (posed_after hm events).idle hstopping'⟩
  refine ⟨fun events h => ?_, fun events => shutdown_of_idle (hlater events).1 (hlater events).2⟩
  induction events generalizing m with
  | nil => rfl
  | cons e events ih =>
    rw [tally, turns_of_idle (hm.idle hstopping), Nat.zero_add]
    exact ih (posed_apply hm e) ((e.apply_stopping m).2 (.inl hstopping))
      fun events => hlater (e :: events)

/-! ## Machines that were not shut down -/

/-- The scheduler goes on until the process has its turn: it does not stop, and it does not
    block behind the sweep that is going on unless that sweep still has to do with the
    process. -/
def GoesOn (h : Handle) (m : Machine σ) : Prop :=
  match m.scheduler with
  | some (.turns left awake) => h ∈ left ∨ (awake || m.kicked) = true
  | some (.pruning awake) | some (.resting awake) => (awake || m.kicked) = true
  | some .top | some .collect | some (.waking _) => True
  | none | some .blocked | some .stopped => False

/-- A process that runs, with this entry, and that is to have its turn. -/
structure Awaits (h : Handle) (e : Entry) (m : Machine σ) : Prop where
  entry : m.processes.get? h = some e
  running : e.process.status = .running
  unmarked : m.stopping = false
  goesOn : m.GoesOn h

/-- No more sections than this come before the turn of the process. -/
def distance (h : Handle) (m : Machine σ) : Nat :=
  match m.scheduler with
  | some (.turns left _) =>
    if h ∈ left then left.idxOf h else left.length + m.processes.length + 5
  | some (.pruning _) => m.processes.length + 4
  | some (.resting _) => m.processes.length + 3
  | some .top => m.processes.length + 2
  | some .collect => m.processes.length + 1
  | some (.waking _) => m.processes.length
  | none | some .blocked | some .stopped => 0

theorem distance_lt_sweepLength (h : Handle) (m : Machine σ) : m.distance h < m.sweepLength := by
  unfold distance sweepLength
  split
  · next left awake hphase =>
    rw [hphase]
    dsimp only [Option.elim, Phase.left]
    split
    · next hmem =>
      have := List.idxOf_lt_length_of_mem hmem
      omega
    · omega
  all_goals omega

/-- Waking processes does nothing to one that runs. -/
theorem get?_foldl_wakeIn {table : Table Handle Entry} (hget : table.get? h = some e)
    (hrunning : e.process.status = .running) (woken : List Handle) :
    (woken.foldl wakeIn table).get? h = some e := by
  induction woken generalizing table with
  | nil => exact hget
  | cons h' woken ih =>
    refine ih ?_
    by_cases hh : h' = h
    · subst hh
      rw [wakeIn, hget]
      dsimp only
      rw [Process.wake_of_running hrunning, Table.get?_insert_self]
    · unfold wakeIn
      split
      · rw [Table.get?_insert_ne (Ne.symm hh), hget]
      · exact hget

/-- A turn leaves the table its length and the other processes as they are; and if some
    process has run before, that is not forgotten. -/
theorem tick_turns_frame {h' : Handle} {left : List Handle} {awake : Bool}
    (hphase : m.scheduler = some (.turns (h' :: left) awake)) :
    m.tick.processes.length = m.processes.length ∧ m.tick.kicked = m.kicked ∧
      (h ≠ h' → m.tick.processes.get? h = m.processes.get? h) ∧
      ∃ awake', m.tick.scheduler = some (.turns left awake') ∧ (awake = true → awake' = true) := by
  rcases hstint : m.stint? with _ | w
  · have htick : m.tick = m.turn h' left awake := by rw [Machine.tick, hphase]
    rw [htick, turn_of_stint_none hphase hstint]
    exact ⟨rfl, rfl, fun _ => rfl, awake, rfl, id⟩
  · have hlength := congrArg List.length (keys_tick_of_stint hstint)
    obtain ⟨-, -, -, left', awake', hphase'⟩ := of_stint hstint
    obtain ⟨⟨rfl, rfl⟩, rfl⟩ : (h' = w.handle ∧ left = left') ∧ awake = awake' := by
      simpa only [Option.some.injEq, Phase.turns.injEq, List.cons.injEq] using
        hphase.symm.trans hphase'
    refine ⟨by simpa [Table.keys] using hlength, ?_⟩
    rw [tick_of_stint hstint hphase']
    refine ⟨rfl, fun hne => ?_, true, rfl, fun _ => rfl⟩
    dsimp only
    split
    · exact Table.get?_insert_ne hne
    · rfl

/-- The process stays as it is in sections in which it has no turn. -/
theorem Awaits.entry_tick (hm : m.Awaits h e) (hturn : Event.tick.turns h m = 0) :
    m.tick.processes.get? h = some e := by
  by_cases hphase : ∃ h' left awake, m.scheduler = some (.turns (h' :: left) awake)
  · obtain ⟨h', left, awake, hphase⟩ := hphase
    have hne : h ≠ h' := by
      rintro rfl
      simp [Event.turns, hphase] at hturn
    rw [(tick_turns_frame hphase).2.2.1 hne, hm.entry]
  · unfold Machine.tick
    split
    case h_4 woken _ => exact get?_foldl_wakeIn hm.entry hm.running woken
    case h_6 h' left awake hphase' => exact absurd ⟨h', left, awake, hphase'⟩ hphase
    case h_7 => exact Table.get?_filter hm.entry (by simp [hm.running])
    all_goals exact hm.entry

/-- A section in which the process has no turn brings its turn nearer. It begins a sweep only
    if the process is not left in one. -/
theorem Awaits.tick_nearer (hm : m.Awaits h e) (hturn : Event.tick.turns h m = 0) :
    m.tick.GoesOn h ∧ m.tick.distance h < m.distance h ∧
      Event.tick.sweeps m + (if h ∈ m.tick.left then 0 else 1) = if h ∈ m.left then 0 else 1 := by
  have hgoes := hm.goesOn
  have hlisted : h ∈ m.processes.keys := Table.mem_keys_of_get? hm.entry
  rcases hphase : m.scheduler with _ | phase
  · simp [GoesOn, hphase] at hgoes
  · cases phase with
    | blocked | stopped => simp [GoesOn, hphase] at hgoes
    | top =>
      simp [Machine.tick, hphase, hm.unmarked, moveTo, GoesOn, distance, Event.sweeps, left,
        Phase.left]
    | collect =>
      simp [Machine.tick, hphase, takeSignals, GoesOn, distance, Event.sweeps, left, Phase.left]
    | waking woken =>
      -- All processes are picked, this one among them.
      have htick : m.tick.scheduler = some (.turns m.processes.keys false) := by
        rw [Machine.tick, hphase]
        exact congrArg (fun keys => some (Phase.turns keys false))
          (keys_foldl_wakeIn woken m.processes)
      have hindex := List.idxOf_lt_length_of_mem hlisted
      have hlength : m.processes.keys.length = m.processes.length := List.length_map _
      refine ⟨?_, ?_, ?_⟩
      · simp [GoesOn, htick, hlisted]
      · simp only [distance, htick, hphase, hlisted, if_true]
        omega
      · simp [Event.sweeps, left, htick, hphase, Phase.left, hlisted]
    | turns left awake =>
      cases left with
      | nil =>
        refine ⟨?_, ?_, ?_⟩
        · simpa [Machine.tick, GoesOn, hphase, moveTo] using hgoes
        · simp [Machine.tick, hphase, moveTo, distance]
        · simp [Machine.tick, hphase, moveTo, Event.sweeps, Machine.left, Phase.left]
      | cons h' left =>
        have hne : h ≠ h' := by
          rintro rfl
          simp [Event.turns, hphase] at hturn
        have hindex : (h' :: left).idxOf h = left.idxOf h + 1 := by
          rw [List.idxOf_cons, beq_false_of_ne (Ne.symm hne), cond_false]
        obtain ⟨hlength, hkicked, -, awake', htick, hawake⟩ := tick_turns_frame (h := h) hphase
        refine ⟨?_, ?_, ?_⟩
        · simp only [GoesOn, hphase, List.mem_cons, hne, false_or, Bool.or_eq_true] at hgoes
          simp only [GoesOn, htick, hkicked, Bool.or_eq_true]
          exact hgoes.imp_right (Or.imp_left hawake)
        · simp only [distance, htick, hphase, hlength, List.mem_cons, hne, false_or,
            List.length_cons, hindex]
          split
          · omega
          · omega
        · simp [Event.sweeps, Machine.left, htick, hphase, Phase.left, hne]
    | pruning awake =>
      have hlength : m.prune.processes.length ≤ m.processes.length := List.length_filter_le ..
      refine ⟨?_, ?_, ?_⟩
      · simpa [Machine.tick, GoesOn, hphase, moveTo, prune] using hgoes
      · simp only [Machine.tick, hphase, moveTo, distance]
        omega
      · simp [Machine.tick, hphase, moveTo, Event.sweeps, left, Phase.left]
    | resting awake =>
      have hsignalled : (awake || m.isSignalled) = true := by
        simp only [GoesOn, hphase, Bool.or_eq_true] at hgoes
        simp only [isSignalled, Bool.or_eq_true]
        exact hgoes.imp_right fun h => .inl (.inl h)
      have htick : m.tick = m.moveTo .top := by
        rw [Machine.tick, hphase]
        exact congrArg m.moveTo (if_pos hsignalled)
      rw [htick]
      simp [GoesOn, distance, moveTo, hphase, Event.sweeps, left, Phase.left]

theorem Awaits.tick (hm : m.Awaits h e) (hturn : Event.tick.turns h m = 0) :
    m.tick.Awaits h e :=
  ⟨hm.entry_tick hturn, hm.running, (stopping_tick m).trans hm.unmarked, (hm.tick_nearer hturn).1⟩

theorem scheduler_of_turns (hturn : Event.tick.turns h m = 1) :
    ∃ left awake, m.scheduler = some (.turns (h :: left) awake) := by
  simp only [Event.turns] at hturn
  split at hturn
  · next h' left awake hphase =>
    split at hturn
    · next hh => exact ⟨left, awake, hh ▸ hphase⟩
    · cases hturn
  · cases hturn

/-- The turn of the process comes. The sweep in which it does is the one that is going on, if
    the process is left in it, and else the next one. -/
theorem Awaits.turn_comes (hm : m.Awaits h e) :
    ∃ k ≤ m.distance h, (m.after (.replicate k .tick)).stint? =
        some ⟨m.after (.replicate k .tick), h, e⟩ ∧
      tally Event.sweeps (.replicate k .tick) m = if h ∈ m.left then 0 else 1 := by
  induction hn : m.distance h using Nat.strongRecOn generalizing m with
  | ind n ih =>
    subst hn
    by_cases hturn : Event.tick.turns h m = 1
    · obtain ⟨left, awake, hphase⟩ := scheduler_of_turns hturn
      refine ⟨0, Nat.zero_le _, ?_, ?_⟩
      · simp [after, stint?, hphase, pickedEntry?_of_get? hm.entry, hm.running]
      · simp [tally, Machine.left, hphase, Phase.left]
    · have hturn : Event.tick.turns h m = 0 := by
        have := turns_le_one .tick h m
        omega
      obtain ⟨-, hdistance, hsweeps⟩ := hm.tick_nearer hturn
      obtain ⟨k, hk, hstint, htally⟩ := ih _ hdistance (hm.tick hturn) rfl
      refine ⟨k + 1, by omega, hstint, ?_⟩
      rw [List.replicate_succ, tally, Event.apply, htally, hsweeps]

/-- Every process that is started comes to its turn within the sections of a sweep. It is left
    in the sweep that is going on, or is picked for the next one. -/
def Serves (m : Machine σ) : Prop :=
  ∀ h name t m', m.start h name = (.ok t, m') → ∃ k < m'.sweepLength, ∃ w,
    (m'.after (.replicate k .tick)).stint? = some w ∧ w.handle = h ∧ w.entry.ticket = some t ∧
      tally Event.sweeps (.replicate k .tick) m' = if h ∈ m'.left then 0 else 1

/-- A process that is started runs, and holds the ticket. -/
theorem entry_of_launch {name : String} {t : Ticket} (hlaunch : m.launch h name = (.ok t, m')) :
    ∃ e, m'.processes.get? h = some e ∧ e.process.status = .running ∧ e.ticket = some t := by
  unfold launch at hlaunch
  split at hlaunch
  · cases hlaunch
  · dsimp only at hlaunch
    split at hlaunch
    · cases hlaunch
    · cases hlaunch
      exact ⟨_, Table.get?_insert_self _ _ _, rfl, rfl⟩

/-- A scheduler that is notified goes on. -/
theorem goesOn_kick (hm : m.Posed) (hrunning : m.isRunning = true) (hstopping : m.stopping = false)
    (h : Handle) : m.kick.GoesOn h := by
  rcases hphase : m.scheduler with _ | phase
  · simp [isRunning, hphase] at hrunning
  · cases phase with
    | stopped => simp [hm.stopping hphase] at hstopping
    | _ => simp [kick, notify, hphase, GoesOn]

theorem serves_of_posed (hm : m.Posed) (hrunning : m.isRunning = true)
    (hstopping : m.stopping = false) : m.Serves := by
  intro h name t m' hstart
  unfold start at hstart
  split at hstart
  · next t' m₁ hlaunch =>
    obtain ⟨ht, rfl⟩ := Prod.mk.inj hstart
    obtain rfl := Except.ok.inj ht
    have hkeeps : m.Keeps m₁ := by
      have := m.keeps_launch h name
      rwa [hlaunch] at this
    obtain ⟨e, hget, hrun, hticket⟩ := entry_of_launch hlaunch
    have hkeeps' : m₁.Keeps m₁.kick :=
      ⟨(keeps_notify _).stopping, (keeps_notify _).scheduler⟩
    have hunmarked : m₁.stopping = false := hkeeps.stopping.trans hstopping
    have hget' : m₁.kick.processes.get? h = some e := by
      obtain ⟨scheduler, heq⟩ := notify_eq { m₁ with kicked := true }
      rw [kick, heq]
      exact hget
    have hawaits : m₁.kick.Awaits h e :=
      ⟨hget', hrun, hkeeps'.stopping.trans hunmarked,
        goesOn_kick (hkeeps.posed hm) (hkeeps.isRunning hrunning) hunmarked h⟩
    obtain ⟨k, hk, hstint, hsweeps⟩ := hawaits.turn_comes
    exact ⟨k, Nat.lt_of_le_of_lt hk (distance_lt_sweepLength h _), _, hstint, rfl, hticket, hsweeps⟩
  · cases hstart

/-! ## Running machines -/

/-- Whatever has happened to a machine that is running: either it was never shut down, there
    is no mark that tells its scheduler to stop, and every process that is started comes to
    its turn; or it was shut down before, the mark is still there, and no process has a turn
    any more. -/
theorem running_cases (settings : Settings) (host : σ) (events : List (Event σ))
    (hrunning : ((new settings host).after events).isRunning = true) :
    tally Event.stops events (new settings host) = 0 ∧
        ((new settings host).after events).stopping = false ∧
        ((new settings host).after events).Serves ∨
      0 < tally Event.stops events (new settings host) ∧
        ((new settings host).after events).stopping = true ∧
        ((new settings host).after events).Starves := by
  have hposed := posed_after (posed_new settings host) events
  have hmark := after_stopping events (new settings host)
  have hnew : (new settings host).stopping = false := rfl
  cases hstopping : ((new settings host).after events).stopping with
  | false =>
    refine .inl ⟨?_, rfl, serves_of_posed hposed hrunning hstopping⟩
    rw [hstopping, hnew] at hmark
    simpa using hmark
  | true =>
    refine .inr ⟨?_, rfl, starves_of_posed hposed hstopping⟩
    rw [hstopping, hnew] at hmark
    simpa using hmark

/-- A machine with one process, which was never shut down. -/
theorem running_cases_once :
    Machine.isRunning (after [.create Invocation.sevenProgram, .run] (new .standard ())) = true ∧
      Machine.Serves (after [.create Invocation.sevenProgram, .run] (new .standard ())) := by
  have hrunning : Machine.isRunning
      (after [.create Invocation.sevenProgram, .run] (new .standard ())) = true := rfl
  refine ⟨hrunning, ?_⟩
  rcases running_cases .standard () [.create Invocation.sevenProgram, .run] hrunning with
    ⟨-, -, hserves⟩ | ⟨-, hmark, -⟩
  · exact hserves
  · cases hmark

/-- A machine with one process, which is started again after a shutdown. -/
def restarted : Machine Unit :=
  after [.create Invocation.sevenProgram, .run, .shutdown, .run] (new .standard ())

/-- The machine runs and lets the process be started, but the process never has a turn. -/
theorem restarted_starves :
    restarted.isRunning = true ∧ restarted.stopping = true ∧
      (restarted.start ⟨0⟩ "main").1 = .ok ⟨0⟩ ∧
      (restarted.start ⟨0⟩ "main").2.Starves := by
  have hmark : (restarted.start ⟨0⟩ "main").2.stopping = true := by decide +kernel
  have hposed : (restarted.start ⟨0⟩ "main").2.Posed := by
    rcases restarted.start_eq_after ⟨0⟩ "main" with heq | heq <;> rw [heq]
    · exact posed_after (posed_after (posed_new _ _) _) _
    · exact posed_after (posed_after (posed_new _ _) _) _
  exact ⟨by decide +kernel, by decide +kernel, rfl, starves_of_posed hposed hmark⟩

end Machine

end ScriptMachine
