import ScriptMachine.Machine.Schedule
import ScriptMachine.Proofs.Table

/-!
# Events of a machine

Whatever happens to a machine is a sequence of events (`Event`): the sections of the
scheduler, and those of the operations of the host, in any order. Machines that come
about in this way are *reachable*.

* `Machine.start_eq_after`, `Machine.wake_eq_after`, `Machine.close_eq_after` and
  `Machine.sweep_eq_after`: operations that take several sections are several events.
* `Machine.Later`: what events have in common. Handles and tickets are never given
  twice, entries keep their tickets or lose them, and exits are deposited only for
  tickets that some entry holds. It is a preorder that contains all events
  (`Event.later`).
* `Machine.Reachable.orderly`: a reachable machine has every handle once, and the
  numbers for the next process and the next invocation are new.
* `Machine.turns_eq`: in each sweep, every process that is picked has exactly one turn.
-/

namespace ScriptMachine

variable {σ : Type}

/-- What can happen to a machine. -/
inductive Event (σ : Type) where
  /-- The scheduler is started. -/
  | run
  /-- The next section of the scheduler. -/
  | tick
  | shutdown
  | bind (name : String) (f : HostFunction σ)
  /-- The end of an operation that has made something able to run. -/
  | kick
  | queueWake (h : Handle)
  | create (program : Program)
  /-- The section of a start that changes the process. -/
  | launch (h : Handle) (name : String)
  | poll (t : Ticket)
  | pause (h : Handle)
  /-- The section of a wake that changes the process. -/
  | rouse (h : Handle)
  /-- Any other operation of the host on a process. -/
  | visit (h : Handle) (op : Process → Process)
  /-- The section of a graceful close that changes the process. -/
  | finalize (h : Handle)
  /-- A close by force. -/
  | remove (h : Handle)

namespace Machine

/-- The machine after an operation that may have been refused. -/
def tried (m : Machine σ) : Except MachineError (Machine σ) → Machine σ
  | .ok m' => m'
  | .error _ => m

/-- The processes that still have their turn in the current sweep. -/
def left (m : Machine σ) : List Handle := m.scheduler.elim [] Phase.left

end Machine

namespace Event

/-- The machine after an event. -/
def apply : Event σ → Machine σ → Machine σ
  | run, m => m.tried m.run
  | tick, m => m.tick
  | shutdown, m => m.shutdown
  | bind name f, m => m.tried (m.bind name f)
  | kick, m => m.kick
  | queueWake h, m => m.queueWake h
  | create program, m => (m.create program).2
  | launch h name, m => (m.launch h name).2
  | poll t, m => (m.poll t).2
  | pause h, m => m.tried (m.pause h)
  | rouse h, m => m.tried (Prod.snd <$> m.rouse h)
  | visit h op, m => m.tried (Prod.snd <$> m.visit h fun p => ((), op p))
  | finalize h, m => m.tried (m.finalize h)
  | remove h, m => m.tried (m.remove h)

/-- The turns of a process in an event: one if it is the one whose turn it is. -/
def turns (h : Handle) (m : Machine σ) : Event σ → Nat
  | tick =>
    match m.scheduler with
    | some (.turns (h' :: _) _) => if h' = h then 1 else 0
    | _ => 0
  | _ => 0

/-- The sweeps that begin with an event: one if the processes are picked. -/
def sweeps (m : Machine σ) : Event σ → Nat
  | tick =>
    match m.scheduler with
    | some (.waking _) => 1
    | _ => 0
  | _ => 0

/-- The sweeps that begin with an event and for which a process is picked. -/
def picks (h : Handle) (m : Machine σ) (e : Event σ) : Nat :=
  if h ∈ m.processes.keys then e.sweeps m else 0

end Event

namespace Machine

/-- The machine after some events. -/
def after : List (Event σ) → Machine σ → Machine σ
  | [], m => m
  | e :: es, m => after es (e.apply m)

/-- What some events amount to. -/
def tally (count : Machine σ → Event σ → Nat) : List (Event σ) → Machine σ → Nat
  | [], _ => 0
  | e :: es, m => count m e + tally count es (e.apply m)

/-- A machine that has come about from a new one by any events. -/
def Reachable (m : Machine σ) : Prop :=
  ∃ settings host events, m = after events (.new settings host)

/-! ## Operations of the host as events -/

theorem start_eq_after (m : Machine σ) (h : Handle) (name : String) :
    (m.start h name).2 = m.after [.launch h name, .kick] ∨
      (m.start h name).2 = m.after [.launch h name] := by
  unfold start
  cases hlaunch : m.launch h name with
  | mk result m' =>
    have hafter : m.after [.launch h name] = m' := congrArg Prod.snd hlaunch
    cases result with
    | ok t => exact .inl (congrArg kick hafter).symm
    | error e => exact .inr hafter.symm

theorem wake_eq_after (m : Machine σ) (h : Handle) :
    m.tried (m.wake h) = m.after [.rouse h, .kick] ∨ m.tried (m.wake h) = m.after [.rouse h] := by
  have hafter : m.after [.rouse h] = m.tried (Prod.snd <$> m.rouse h) := rfl
  unfold wake
  cases hrouse : m.rouse h with
  | error e =>
    rw [hrouse] at hafter
    exact .inr hafter.symm
  | ok x =>
    rw [hrouse] at hafter
    obtain ⟨woken, m'⟩ := x
    cases woken with
    | true => exact .inl (congrArg kick hafter).symm
    | false => exact .inr hafter.symm

theorem close_eq_after (m : Machine σ) (h : Handle) (force : Bool) :
    m.tried (m.close h force) = m.after [.remove h] ∨
      m.tried (m.close h force) = m.after [.finalize h, .kick] ∨
      m.tried (m.close h force) = m := by
  cases force with
  | true => exact .inl rfl
  | false =>
    unfold close
    cases hfinalize : m.finalize h with
    | error e => exact .inr (.inr rfl)
    | ok m' =>
      have hafter : m.after [.finalize h] = m' := congrArg m.tried hfinalize
      exact .inr (.inl (congrArg kick hafter).symm)

/-- Making ticks is nothing but ticks. -/
theorem runUntil_eq_after (done : Machine σ → Bool) (n : Nat) (m : Machine σ) :
    ∃ k, runUntil done n m = m.after (.replicate k .tick) := by
  induction n generalizing m with
  | zero => exact ⟨0, rfl⟩
  | succ n ih =>
    rw [runUntil]
    split
    · exact ⟨0, rfl⟩
    · obtain ⟨k, hk⟩ := ih m.tick
      exact ⟨k + 1, hk⟩

theorem sweep_eq_after (m : Machine σ) : ∃ k, m.sweep = m.after (.replicate k .tick) := by
  obtain ⟨k, hk⟩ := runUntil_eq_after (fun m => m.scheduler = some .top) m.sweepLength m.tick
  exact ⟨k + 1, hk⟩

/-! ## What events have in common -/

/-- An entry of the process holds the ticket. -/
def Held (m : Machine σ) (h : Handle) (t : Ticket) : Prop :=
  ∃ e, ((h, e) ∈ m.processes ∨ (h, e) ∈ m.picked) ∧ e.ticket = some t

/-- What a machine can have become after some events. New processes and invocations
    have new numbers. -/
structure Later (m m' : Machine σ) : Prop where
  handles : m.nextHandle ≤ m'.nextHandle
  tickets : m.nextTicket ≤ m'.nextTicket
  keys : ∃ new : List Handle, m'.processes.keys.Sublist (m.processes.keys ++ new) ∧ new.Nodup ∧
    ∀ h ∈ new, m.nextHandle ≤ h.number ∧ h.number < m'.nextHandle
  held : ∀ h t, m'.Held h t →
    m.Held h t ∨ (m.nextTicket ≤ t.number ∧ t.number < m'.nextTicket)
  exits : ∀ t ∈ m'.exits.keys, t ∈ m.exits.keys ∨ (∃ h, m.Held h t) ∨
    (m.nextTicket ≤ t.number ∧ t.number < m'.nextTicket)

section Later

variable {m m' m'' : Machine σ} {h : Handle} {e e' : Entry} {t : Ticket}

theorem held_of_get? (hget : m.processes.get? h = some e) (ht : e.ticket = some t) : m.Held h t :=
  ⟨e, .inl (Table.mem_of_get? hget), ht⟩

/-- Without new processes. -/
theorem Later.of_sublist (hhandle : m'.nextHandle = m.nextHandle)
    (hticket : m.nextTicket ≤ m'.nextTicket)
    (hkeys : m'.processes.keys.Sublist m.processes.keys)
    (hheld : ∀ h t, m'.Held h t →
      m.Held h t ∨ (m.nextTicket ≤ t.number ∧ t.number < m'.nextTicket))
    (hexits : ∀ t ∈ m'.exits.keys, t ∈ m.exits.keys) : m.Later m' :=
  ⟨Nat.le_of_eq hhandle.symm, hticket,
    ⟨[], hkeys.trans (List.sublist_append_left _ _), List.nodup_nil, by simp⟩, hheld,
    fun t ht => .inl (hexits t ht)⟩

theorem Later.of_eq (hprocesses : m'.processes = m.processes) (hpicked : m'.picked = m.picked)
    (hhandle : m'.nextHandle = m.nextHandle) (hticket : m'.nextTicket = m.nextTicket)
    (hexits : m'.exits = m.exits) : m.Later m' := by
  refine .of_sublist hhandle (Nat.le_of_eq hticket.symm) (hprocesses ▸ List.Sublist.refl _)
    (fun h t hheld => .inl ?_) fun t ht => hexits ▸ ht
  rwa [Held, hprocesses, hpicked] at hheld

theorem Later.refl (m : Machine σ) : m.Later m := .of_eq rfl rfl rfl rfl rfl

theorem Later.trans (hm : m.Later m') (hm' : m'.Later m'') : m.Later m'' := by
  obtain ⟨new, hkeys, hnodup, hnew⟩ := hm.keys
  obtain ⟨new', hkeys', hnodup', hnew'⟩ := hm'.keys
  have hhandles := hm.handles
  have hhandles' := hm'.handles
  have htickets := hm.tickets
  have htickets' := hm'.tickets
  refine ⟨by omega, by omega, ⟨new ++ new', ?_, ?_, fun h hh => ?_⟩, fun h t hheld => ?_,
    fun t ht => ?_⟩
  · rw [← List.append_assoc]
    exact hkeys'.trans (hkeys.append_right new')
  · -- The handles of the first events lie below those of the others.
    refine List.nodup_append.2 ⟨hnodup, hnodup', fun a ha b hb => ?_⟩
    rintro rfl
    have := hnew a ha
    have := hnew' a hb
    omega
  · rcases List.mem_append.1 hh with hh | hh
    · have := hnew h hh
      omega
    · have := hnew' h hh
      omega
  · rcases hm'.held h t hheld with hheld | hfresh
    · exact (hm.held h t hheld).imp_right fun hfresh => ⟨hfresh.1, by omega⟩
    · exact .inr ⟨by omega, hfresh.2⟩
  · rcases hm'.exits t ht with ht | ⟨h, hheld⟩ | hfresh
    · exact (hm.exits t ht).imp_right (Or.imp_right fun hfresh => ⟨hfresh.1, by omega⟩)
    · -- The ticket of the exit may itself be one of the first events.
      rcases hm.held h t hheld with hheld | hfresh
      · exact .inr (.inl ⟨h, hheld⟩)
      · exact .inr (.inr ⟨hfresh.1, by omega⟩)
    · exact .inr (.inr ⟨by omega, hfresh.2⟩)

/-! ## The parts of events -/

/-- Setting the entry of a process that is there, possibly with a new ticket. -/
theorem later_setEntry {k : Nat} (hk : m.nextTicket ≤ k) (hh : h ∈ m.processes.keys)
    (hticket : ∀ t, e.ticket = some t →
      m.Held h t ∨ (m.nextTicket ≤ t.number ∧ t.number < k)) :
    m.Later ({ m with nextTicket := k }.setEntry h e) := by
  refine .of_sublist rfl hk (Table.keys_insert_of_mem hh ▸ List.Sublist.refl _)
    (fun h' t hheld => ?_) fun t ht => ht
  obtain ⟨e', hmem | hmem, ht⟩ := hheld
  · rcases Table.mem_insert hmem with heq | hmem
    · obtain ⟨rfl, rfl⟩ := Prod.mk.inj heq
      exact hticket t ht
    · exact .inl ⟨e', .inl hmem, ht⟩
  · exact .inl ⟨e', .inr hmem, ht⟩

/-- Exits are deposited for tickets that were held at first. -/
theorem Later.deposit {ticket : Option Ticket} (hm : m.Later m')
    (hticket : ∀ t, ticket = some t → ∃ h, m.Held h t) (exit : Option Exit) :
    m.Later (m'.deposit ticket exit) := by
  unfold Machine.deposit
  split
  · next t x =>
    refine ⟨hm.handles, hm.tickets, hm.keys, hm.held, fun t' ht' => ?_⟩
    rcases Table.mem_keys_insert.1 ht' with rfl | ht'
    · exact .inr (.inl (hticket t' rfl))
    · exact hm.exits t' ht'
  · exact hm

theorem Later.dropPicked (hm : m.Later m') (h : Handle) :
    m.Later { m' with picked := m'.picked.erase h } := by
  refine hm.trans (.of_sublist rfl (Nat.le_refl _) (List.Sublist.refl _)
    (fun h' t hheld => .inl ?_) fun t ht => ht)
  obtain ⟨e, hmem, ht⟩ := hheld
  exact ⟨e, hmem.imp_right fun hmem => (List.mem_filter.1 hmem).1, ht⟩

theorem update_ticket (e : Entry) (p : Process) :
    (e.update p).1.ticket = e.ticket ∨ (e.update p).1.ticket = none := by
  unfold Entry.update
  split
  · exact .inr rfl
  · exact .inl rfl

theorem afterTurn_ticket (e : Entry) (t : Turn σ) :
    (e.afterTurn t).1.ticket = e.ticket ∨ (e.afterTurn t).1.ticket = none := by
  unfold Entry.afterTurn
  split
  · exact update_ticket e t.process
  · exact .inr rfl

/-- An entry that holds the ticket of another one, or none. -/
theorem held_of_ticket_eq (hheld : ∀ t, e.ticket = some t → m.Held h t)
    (he : e'.ticket = e.ticket ∨ e'.ticket = none) (k : Nat) :
    ∀ t, e'.ticket = some t → m.Held h t ∨ (m.nextTicket ≤ t.number ∧ t.number < k) := by
  intro t ht
  rcases he with he | he
  · exact .inl (hheld t (he ▸ ht))
  · simp [he] at ht

/-- The machine after an operation on the process of an entry. -/
def visited (m : Machine σ) (h : Handle) (e : Entry) (p : Process) : Machine σ :=
  (m.setEntry h (e.update p).1).deposit e.ticket (e.update p).2

theorem visit_eq {α : Type} (op : Process → α × Process) (hget : m.processes.get? h = some e) :
    m.visit h op = .ok ((op e.process).1, m.visited h e (op e.process).2) := by
  simp only [visit, entry, hget]
  rfl

theorem visit_eq_error {α : Type} (op : Process → α × Process) (hget : m.processes.get? h = none) :
    m.visit h op = .error (.noSuchProcess h) := by
  simp only [visit, entry, hget]
  rfl

theorem later_visited (hget : m.processes.get? h = some e) (p : Process) :
    m.Later (m.visited h e p) := by
  refine Later.deposit ?_ (fun t ht => ⟨h, held_of_get? hget ht⟩) _
  exact later_setEntry (Nat.le_refl _) (Table.mem_keys_of_get? hget)
    (held_of_ticket_eq (fun t => held_of_get? hget) (update_ticket e p) _)

theorem later_visit {α : Type} (m : Machine σ) (h : Handle) (op : Process → α × Process) :
    m.Later (m.tried (Prod.snd <$> m.visit h op)) := by
  cases hget : m.processes.get? h with
  | none =>
    rw [visit_eq_error op hget]
    exact .refl m
  | some e =>
    rw [visit_eq op hget]
    exact later_visited hget _

/-- Where a process can be started. -/
theorem entryPoint_eq_ok {name : String} {id : Nat} (hpoint : m.entryPoint h name = .ok (e, id)) :
    m.processes.get? h = some e ∧ e.process.status = .inactive ∧
      e.process.program.functionId? name = some id := by
  unfold entryPoint entry at hpoint
  cases hget : m.processes.get? h with
  | none =>
    rw [hget] at hpoint
    exact nomatch hpoint
  | some e' =>
    rw [hget] at hpoint
    cases hstatus : e'.process.status with
    | running | sleeping | finalizing =>
      simp only [Bind.bind, Except.bind, hstatus] at hpoint
      exact nomatch hpoint
    | inactive =>
      cases hid : e'.process.program.functionId? name with
      | none =>
        simp only [Bind.bind, Except.bind, hstatus, hid] at hpoint
        exact nomatch hpoint
      | some id' =>
        simp only [Bind.bind, Except.bind, hstatus, hid] at hpoint
        obtain ⟨rfl, rfl⟩ := Prod.mk.inj (Except.ok.inj hpoint)
        exact ⟨rfl, hstatus, hid⟩

/-- A start is refused, or gives a new ticket. -/
theorem launch_cases (m : Machine σ) (h : Handle) (name : String) :
    (m.launch h name).2 = m ∨
      ∃ e p, m.processes.get? h = some e ∧ (m.launch h name).2 =
        { m with nextTicket := m.nextTicket + 1 }.setEntry h ⟨p, some ⟨m.nextTicket⟩⟩ := by
  unfold launch
  split
  · exact .inl rfl
  · next e id hpoint =>
    obtain ⟨hget, -, -⟩ := entryPoint_eq_ok hpoint
    dsimp only
    split
    · exact .inr ⟨e, _, hget, rfl⟩
    · exact .inr ⟨e, _, hget, rfl⟩

theorem later_launch (m : Machine σ) (h : Handle) (name : String) :
    m.Later (m.launch h name).2 := by
  rcases m.launch_cases h name with hsame | ⟨e, p, hget, heq⟩
  · rw [hsame]
    exact .refl m
  · rw [heq]
    refine later_setEntry (Nat.le_succ _) (Table.mem_keys_of_get? hget) fun t ht => .inr ?_
    obtain rfl := Option.some.inj ht
    exact ⟨Nat.le_refl _, Nat.lt_succ_self _⟩

theorem later_create (m : Machine σ) (program : Program) : m.Later (m.create program).2 := by
  refine ⟨Nat.le_succ _, Nat.le_refl _, ⟨[⟨m.nextHandle⟩], ?_, by simp, by simp [create]⟩,
    fun h t hheld => .inl ?_, fun t ht => .inl ht⟩
  · have hkeys : (m.create program).2.processes.keys = m.processes.keys ++ [⟨m.nextHandle⟩] :=
      List.map_append
    exact hkeys ▸ List.Sublist.refl _
  · obtain ⟨e, hmem | hmem, ht⟩ := hheld
    · rcases List.mem_append.1 hmem with hmem | hmem
      · exact ⟨e, .inl hmem, ht⟩
      · obtain ⟨-, rfl⟩ := Prod.mk.inj (List.mem_singleton.1 hmem)
        simp at ht
    · exact ⟨e, .inr hmem, ht⟩

theorem later_poll (m : Machine σ) (t : Ticket) : m.Later (m.poll t).2 := by
  unfold poll
  split
  · exact .of_sublist rfl (Nat.le_refl _) (List.Sublist.refl _) (fun h t hheld => .inl hheld)
      fun t ht => (Table.keys_erase_sublist m.exits _).subset ht
  · split
    · exact .refl m
    · exact .refl m

theorem later_finalize (m : Machine σ) (h : Handle) : m.Later (m.tried (m.finalize h)) := by
  unfold finalize entry
  cases hget : m.processes.get? h with
  | none => exact .refl m
  | some e =>
    exact later_setEntry (Nat.le_refl _) (Table.mem_keys_of_get? hget)
      fun t ht => .inl (held_of_get? hget ht)

theorem later_remove (m : Machine σ) (h : Handle) : m.Later (m.tried (m.remove h)) := by
  unfold remove entry
  cases hget : m.processes.get? h with
  | none => exact .refl m
  | some e =>
    refine .of_sublist rfl (Nat.le_refl _) (Table.keys_erase_sublist m.processes h)
      (fun h' t hheld => .inl ?_) fun t ht => ht
    obtain ⟨e', hmem | hmem, ht⟩ := hheld
    · exact ⟨e', .inl (List.mem_filter.1 hmem).1, ht⟩
    · -- The entry that is kept for its turn was in the table.
      have hmem' : (h', e') ∈ (if h ∈ m.scheduler.elim [] Phase.left then m.picked.insert h e
          else m.picked) := hmem
      split at hmem'
      · rcases Table.mem_insert hmem' with heq | hmem'
        · obtain ⟨rfl, rfl⟩ := Prod.mk.inj heq
          exact held_of_get? hget ht
        · exact ⟨e', .inr hmem', ht⟩
      · exact ⟨e', .inr hmem', ht⟩

theorem notify_eq (m : Machine σ) : ∃ scheduler, m.notify = { m with scheduler := scheduler } := by
  unfold notify
  split
  · exact ⟨_, rfl⟩
  · exact ⟨m.scheduler, rfl⟩

theorem Later.notify (hm : m.Later m') : m.Later m'.notify := by
  obtain ⟨scheduler, heq⟩ := m'.notify_eq
  rw [heq]
  exact hm.trans (.of_eq rfl rfl rfl rfl rfl)

theorem keys_wakeIn (table : Table Handle Entry) (h : Handle) :
    (wakeIn table h).keys = table.keys := by
  unfold wakeIn
  split
  · next e hget => exact Table.keys_insert_of_mem (Table.mem_keys_of_get? hget)
  · rfl

theorem mem_wakeIn {table : Table Handle Entry} {h h' : Handle} {e' : Entry}
    (hmem : (h', e') ∈ wakeIn table h) : ∃ e, (h', e) ∈ table ∧ e'.ticket = e.ticket := by
  unfold wakeIn at hmem
  split at hmem
  · next e hget =>
    rcases Table.mem_insert hmem with heq | hmem
    · obtain ⟨rfl, rfl⟩ := Prod.mk.inj heq
      exact ⟨e, Table.mem_of_get? hget, rfl⟩
    · exact ⟨e', hmem, rfl⟩
  · exact ⟨e', hmem, rfl⟩

theorem keys_foldl_wakeIn (woken : List Handle) (table : Table Handle Entry) :
    (woken.foldl wakeIn table).keys = table.keys := by
  induction woken generalizing table with
  | nil => rfl
  | cons h woken ih => rw [List.foldl_cons, ih, keys_wakeIn]

theorem mem_foldl_wakeIn {woken : List Handle} {table : Table Handle Entry} {h' : Handle} {e' : Entry}
    (hmem : (h', e') ∈ woken.foldl wakeIn table) : ∃ e, (h', e) ∈ table ∧ e'.ticket = e.ticket := by
  induction woken generalizing table with
  | nil => exact ⟨e', hmem, rfl⟩
  | cons h woken ih =>
    obtain ⟨e, he, heq⟩ := ih hmem
    obtain ⟨e'', he'', heq'⟩ := mem_wakeIn he
    exact ⟨e'', he'', heq.trans heq'⟩

theorem later_pickAll (m : Machine σ) (woken : List Handle) : m.Later (m.pickAll woken) := by
  refine .of_sublist rfl (Nat.le_refl _) (keys_foldl_wakeIn woken m.processes ▸ List.Sublist.refl _)
    (fun h t hheld => .inl ?_) fun t ht => ht
  obtain ⟨e, hmem | hmem, ht⟩ := hheld
  · obtain ⟨e', hmem', heq⟩ := mem_foldl_wakeIn hmem
    exact ⟨e', .inl hmem', heq ▸ ht⟩
  · exact ⟨e, .inr hmem, ht⟩

/-- The entry of a process that has its turn is in the table, or was kept. -/
theorem held_of_pickedEntry? (hget : m.pickedEntry? h = some e) (ht : e.ticket = some t) :
    m.Held h t := by
  unfold pickedEntry? at hget
  rcases Option.or_eq_some_iff.1 hget with hget | ⟨-, hget⟩
  · exact held_of_get? hget ht
  · exact ⟨e, .inr (Table.mem_of_get? hget), ht⟩

theorem later_record (hheld : ∀ t, e.ticket = some t → m.Held h t) (turn : Turn σ) :
    m.Later (m.record h e turn) := by
  have hhost : m.Later { m with wakes := m.wakes ++ turn.wakes, host := turn.host } :=
    .of_eq rfl rfl rfl rfl rfl
  unfold record
  refine Later.deposit ?_ (fun t ht => ⟨h, hheld t ht⟩) _
  dsimp only
  -- The process may have been closed during its turn; then only the host has changed.
  split
  · next hsome =>
    obtain ⟨e', hget⟩ := Option.isSome_iff_exists.1 hsome
    refine hhost.trans (later_setEntry (Nat.le_refl _) (Table.mem_keys_of_get? hget) ?_)
    exact held_of_ticket_eq hheld (afterTurn_ticket e turn) _
  · exact hhost

theorem later_turn (m : Machine σ) (h : Handle) (left : List Handle) (awake : Bool) :
    m.Later (m.turn h left awake) := by
  unfold turn
  refine Later.dropPicked ?_ h
  split
  · next e hget =>
    split
    · exact (later_record (fun t => held_of_pickedEntry? hget) _).trans (.of_eq rfl rfl rfl rfl rfl)
    · exact .of_eq rfl rfl rfl rfl rfl
  · exact .of_eq rfl rfl rfl rfl rfl

theorem later_prune (m : Machine σ) : m.Later m.prune := by
  refine .of_sublist rfl (Nat.le_refl _) (Table.keys_filter_sublist _ m.processes)
    (fun h t hheld => .inl ?_) fun t ht => ht
  obtain ⟨e, hmem, ht⟩ := hheld
  exact ⟨e, hmem.imp_left fun hmem => (List.mem_filter.1 hmem).1, ht⟩

theorem later_tick (m : Machine σ) : m.Later m.tick := by
  unfold tick
  split
  case h_4 woken _ => exact m.later_pickAll woken
  case h_6 h left awake _ => exact m.later_turn h left awake
  case h_7 => exact m.later_prune.trans (.of_eq rfl rfl rfl rfl rfl)
  all_goals exact .of_eq rfl rfl rfl rfl rfl

theorem later_after_tick (k : Nat) (m : Machine σ) : m.Later (m.after (.replicate k .tick)) := by
  induction k generalizing m with
  | zero => exact .refl m
  | succ k ih => exact m.later_tick.trans (ih m.tick)

theorem later_shutdown (m : Machine σ) : m.Later m.shutdown := by
  unfold shutdown
  split
  · -- The scheduler comes to its end in the sections that are left to it.
    have hkick : m.Later (kick { m with stopping := true }) :=
      Later.notify (.of_eq rfl rfl rfl rfl rfl)
    obtain ⟨k, hk⟩ := runUntil_eq_after (fun _ => false)
      (sweepLength (kick { m with stopping := true })) (kick { m with stopping := true })
    dsimp only
    rw [hk]
    exact (hkick.trans (later_after_tick k _)).trans (.of_eq rfl rfl rfl rfl rfl)
  · exact .refl m

end Later

end Machine

/-- An event leads to a later machine. -/
theorem Event.later (e : Event σ) (m : Machine σ) : m.Later (e.apply m) := by
  cases e with
  | run =>
    simp only [apply, Machine.run]
    split
    · exact .refl m
    · exact .of_eq rfl rfl rfl rfl rfl
  | tick => exact m.later_tick
  | shutdown => exact m.later_shutdown
  | bind name f =>
    simp only [apply, Machine.bind]
    split
    · exact .refl m
    · exact .of_eq rfl rfl rfl rfl rfl
  | kick | queueWake => exact Machine.Later.notify (.of_eq rfl rfl rfl rfl rfl)
  | create program => exact m.later_create program
  | launch h name => exact m.later_launch h name
  | poll t => exact m.later_poll t
  | pause h => exact m.later_visit h _
  | rouse h => exact m.later_visit h _
  | visit h op => exact m.later_visit h _
  | finalize h => exact m.later_finalize h
  | remove h => exact m.later_remove h

namespace Machine

variable {m m' : Machine σ}

theorem later_after (events : List (Event σ)) (m : Machine σ) : m.Later (m.after events) := by
  induction events generalizing m with
  | nil => exact .refl m
  | cons e events ih => exact (e.later m).trans (ih (e.apply m))

/-- Handles are there once, and numbers that come next have not been given. -/
structure Orderly (m : Machine σ) : Prop where
  nodup : m.processes.keys.Nodup
  handles : ∀ h ∈ m.processes.keys, h.number < m.nextHandle
  held : ∀ h t, m.Held h t → t.number < m.nextTicket
  exits : ∀ t ∈ m.exits.keys, t.number < m.nextTicket

theorem Orderly.later (hm : m.Orderly) (hlater : m.Later m') : m'.Orderly := by
  obtain ⟨new, hkeys, hnew, hfresh⟩ := hlater.keys
  have htickets := hlater.tickets
  have hnodup : (m.processes.keys ++ new).Nodup := by
    refine List.nodup_append.2 ⟨hm.nodup, hnew, fun a ha b hb => ?_⟩
    rintro rfl
    -- New handles are not below the next number, and those in the table are.
    have := hm.handles a ha
    have := hfresh a hb
    omega
  refine ⟨hkeys.nodup hnodup, fun h hh => ?_, fun h t hheld => ?_, fun t ht => ?_⟩
  · rcases List.mem_append.1 (hkeys.subset hh) with hh | hh
    · exact Nat.lt_of_lt_of_le (hm.handles h hh) hlater.handles
    · exact (hfresh h hh).2
  · rcases hlater.held h t hheld with hheld | hfresh
    · exact Nat.lt_of_lt_of_le (hm.held h t hheld) htickets
    · exact hfresh.2
  · rcases hlater.exits t ht with ht | ⟨h, hheld⟩ | hfresh
    · exact Nat.lt_of_lt_of_le (hm.exits t ht) htickets
    · exact Nat.lt_of_lt_of_le (hm.held h t hheld) htickets
    · exact hfresh.2

theorem orderly_new (settings : Settings) (host : σ) : (new settings host).Orderly :=
  ⟨List.nodup_nil, by simp [new, Table.keys], by simp [new, Held], by simp [new, Table.keys]⟩

theorem Reachable.orderly (hm : m.Reachable) : m.Orderly := by
  obtain ⟨settings, host, events, rfl⟩ := hm
  exact (orderly_new settings host).later (later_after events _)

/-! ## Turns -/

@[simp] theorem left_moveTo (m : Machine σ) (phase : Phase) : (m.moveTo phase).left = phase.left := rfl

theorem left_notify (m : Machine σ) : m.notify.left = m.left := by
  unfold notify
  split
  · next hblocked => simp [left, hblocked, Phase.left]
  · rfl

theorem left_deposit (m : Machine σ) (t : Option Ticket) (exit : Option Exit) :
    (m.deposit t exit).left = m.left := by
  unfold deposit
  split
  · rfl
  · rfl

theorem left_launch (m : Machine σ) (h : Handle) (name : String) :
    (m.launch h name).2.left = m.left := by
  rcases m.launch_cases h name with hsame | ⟨e, p, -, heq⟩
  · rw [hsame]
  · rw [heq]
    rfl

theorem left_visit {α : Type} (m : Machine σ) (h : Handle) (op : Process → α × Process) :
    (m.tried (Prod.snd <$> m.visit h op)).left = m.left := by
  cases hget : m.processes.get? h with
  | none =>
    rw [visit_eq_error op hget]
    rfl
  | some e =>
    rw [visit_eq op hget]
    exact left_deposit _ _ _

theorem left_turn (m : Machine σ) (h : Handle) (left : List Handle) (awake : Bool) :
    (m.turn h left awake).left = left := by
  unfold turn
  dsimp only
  split
  · split
    · rfl
    · rfl
  · rfl

end Machine

namespace Event

variable {m : Machine σ} {e : Event σ}

/-- Only sections of the scheduler have to do with turns. -/
theorem left_apply (htick : e ≠ .tick) (hshutdown : e ≠ .shutdown) : (e.apply m).left = m.left := by
  cases e with
  | tick => exact absurd rfl htick
  | shutdown => exact absurd rfl hshutdown
  | run =>
    simp only [apply, Machine.run]
    split
    · rfl
    · next hrunning =>
      have hnone : m.scheduler = none := by simpa [Machine.isRunning] using hrunning
      simp [Machine.tried, Machine.left, hnone, Phase.left]
  | bind name f =>
    simp only [apply, Machine.bind]
    split
    · rfl
    · rfl
  | kick | queueWake => exact Machine.left_notify _
  | create program => rfl
  | launch h name => exact m.left_launch h name
  | poll t =>
    simp only [apply, Machine.poll]
    split
    · rfl
    · split
      · rfl
      · rfl
  | pause h => exact m.left_visit h _
  | rouse h => exact m.left_visit h _
  | visit h op => exact m.left_visit h _
  | finalize h =>
    simp only [apply, Machine.finalize, Machine.entry]
    cases m.processes.get? h with
    | none => rfl
    | some e => rfl
  | remove h =>
    simp only [apply, Machine.remove, Machine.entry]
    cases m.processes.get? h with
    | none => rfl
    | some e => rfl

theorem turns_tick (hm : m.processes.keys.Nodup) (h : Handle) :
    tick.turns h m + m.tick.left.count h = tick.picks h m + m.left.count h := by
  cases hphase : m.scheduler with
  | none => simp [turns, picks, sweeps, Machine.tick, hphase]
  | some phase =>
    have hleft : m.left = phase.left := by
      rw [Machine.left, hphase]
      rfl
    rw [hleft]
    simp only [turns, picks, sweeps, Machine.tick, hphase]
    cases phase with
    | top | resting =>
      simp only [Machine.left_moveTo, ite_self]
      split <;> rfl
    | waking woken =>
      -- Every process of the table is picked once.
      have hpicked : (m.pickAll woken).left = m.processes.keys :=
        Machine.keys_foldl_wakeIn woken m.processes
      simp only [hpicked, hm.count, Phase.left, List.count_nil]
      omega
    | turns left awake =>
      cases left with
      | nil =>
        simp only [Machine.left_moveTo, ite_self]
        rfl
      | cons h' left =>
        -- The process has its turn, or stays among those that are left.
        simp only [Machine.left_turn, Phase.left, List.count_cons, beq_iff_eq, ite_self]
        omega
    | collect | pruning =>
      simp only [ite_self]
      rfl
    | blocked | stopped => simp only [ite_self, hleft]

/-- A turn takes a process from those that are left, and nothing else does; only picking
    puts processes there. -/
theorem turns_eq (hm : m.processes.keys.Nodup) (hshutdown : e ≠ .shutdown) (h : Handle) :
    e.turns h m + (e.apply m).left.count h = e.picks h m + m.left.count h := by
  by_cases htick : e = .tick
  · subst htick
    exact turns_tick hm h
  · have hturns : e.turns h m = 0 := by cases e <;> first | rfl | exact absurd rfl htick
    have hsweeps : e.sweeps m = 0 := by cases e <;> first | rfl | exact absurd rfl htick
    rw [left_apply htick hshutdown, hturns, picks, hsweeps, ite_self]

end Event

namespace Machine

/-- The turns of a process are the sweeps for which it was picked, but for a turn that it
    had still to come at first, and one that it still has at the end. -/
theorem turns_eq {m : Machine σ} (hm : m.Orderly) {events : List (Event σ)}
    (hevents : ∀ e ∈ events, e ≠ .shutdown) (h : Handle) :
    tally (Event.turns h) events m + (m.after events).left.count h =
      tally (Event.picks h) events m + m.left.count h := by
  induction events generalizing m with
  | nil => rfl
  | cons e events ih =>
    obtain ⟨he, hevents⟩ := List.forall_mem_cons.1 hevents
    have hfirst := Event.turns_eq hm.nodup he h
    have hrest := ih (hm.later (e.later m)) hevents
    simp only [tally, after]
    omega

end Machine

end ScriptMachine
