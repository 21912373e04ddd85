import ScriptMachine.Proofs.Operations
import ScriptMachine.Proofs.Scheduling

/-!
# Sections

Many threads of a host use one machine. What a thread does takes one or more sections, each
under a lock; between two of them other threads and the scheduler may do anything. A *site* is
a machine together with what the operations that are under way have still to do (`Site`), and a
section leads from one site to another (`Section.apply`).

Operations on a process first look it up, and then have to get hold of it (`Section.find`). In
between it may have been closed: then it is no longer in the table, but the scheduler may still
have it for a turn. Operations that make something able to run then leave a signal
(`Section.mark`) and notify the scheduler (`Section.notify`), in two more sections.

* `Machine.start_sections`, `Machine.wake_sections`, `Machine.close_sections` and others: the
  operations of a machine are sections, one directly after the other.
* `Section.later`: sections lead to later machines.
* `Section.quiet`: apart from new processes, starts and turns, sections keep the frames of all
  processes and the tickets of their invocations, and what is finalizing stays so.
-/

namespace ScriptMachine

variable {σ : Type}

/-- A machine, and what operations of the host that are under way have still to do. -/
structure Site (σ : Type) where
  machine : Machine σ
  /-- The processes that were looked up for an operation on them. -/
  found : List Handle
  /-- The number of operations that have made something able to run and have not left a
      signal. -/
  unmarked : Nat
  /-- The number of operations that have left a signal without a notification. -/
  unnotified : Nat

/-- What a thread does under a lock. -/
inductive Section (σ : Type) where
  /-- The scheduler is started. -/
  | run
  /-- The next section of the scheduler. -/
  | tick
  | bind (name : String) (f : HostFunction σ)
  | create (program : Program)
  /-- The section of a start that changes the process. -/
  | launch (h : Handle) (name : String)
  | poll (t : Ticket)
  /-- A process is looked up, for one of the operations that follow. -/
  | find (h : Handle)
  | pause (h : Handle)
  /-- A wake. If nobody has the process any more, `asleep` says whether it sleeps. -/
  | rouse (h : Handle) (asleep : Bool)
  | takeResult (h : Handle)
  | attach (h : Handle) (a : Attachment)
  /-- The section of a graceful close that changes the process. -/
  | finalize (h : Handle)
  /-- A close by force. -/
  | remove (h : Handle)
  /-- An operation that has made something able to run leaves a signal. -/
  | mark
  /-- A process is put on the list of those to be woken. -/
  | enqueue (h : Handle)
  /-- An operation that has left a signal notifies the scheduler. -/
  | notify

namespace Machine

/-- An operation on a process that was looked up before, wherever it is now. One that is
    neither in the table nor kept for its turn is not seen by anyone any more. -/
def reach (m : Machine σ) (h : Handle) (op : Process → Process) : Machine σ :=
  match m.processes.get? h with
  | some e => m.visited h e (op e.process)
  | none =>
    match m.picked.get? h with
    | some e =>
      let (e', exit) := e.update (op e.process)
      deposit { m with picked := m.picked.insert h e' } e.ticket exit
    | none => m

/-- Does the process sleep? If nobody has it any more, this is as it may be. -/
def asleep (m : Machine σ) (h : Handle) (otherwise : Bool) : Bool :=
  (m.pickedEntry? h).elim otherwise fun e => e.process.status = .sleeping

end Machine

namespace Site

/-- The site with another machine. -/
def withMachine (s : Site σ) (m : Machine σ) : Site σ := { s with machine := m }

/-- An operation on a process that was looked up, if it was. -/
def onFound (s : Site σ) (h : Handle) (op : Process → Process) : Site σ :=
  if h ∈ s.found then
    { s with machine := s.machine.reach h op, found := s.found.erase h }
  else s

/-- Something has become able to run, and there is no signal of it yet. -/
def awaken (s : Site σ) : Site σ := { s with unmarked := s.unmarked + 1 }

end Site

namespace Section

/-- The site after a section. A section that has to come after another one of the same
    operation does nothing if there is no such operation. -/
def apply : Section σ → Site σ → Site σ
  | run, s => s.withMachine (s.machine.tried s.machine.run)
  | tick, s => s.withMachine s.machine.tick
  | bind name f, s => s.withMachine (s.machine.tried (s.machine.bind name f))
  | create program, s => s.withMachine (s.machine.create program).2
  | launch h name, s =>
    match s.machine.launch h name with
    | (.ok _, m) => (s.withMachine m).awaken
    | (.error _, m) => s.withMachine m
  | poll t, s => s.withMachine (s.machine.poll t).2
  | find h, s => if h ∈ s.machine.processes.keys then { s with found := h :: s.found } else s
  | pause h, s => s.onFound h Process.pause
  | rouse h asleep, s =>
    if h ∈ s.found ∧ s.machine.asleep h asleep = true then (s.onFound h Process.wake).awaken
    else s.onFound h Process.wake
  | takeResult h, s => s.onFound h fun p => p.takeReturnValue.2
  | attach h a, s => s.onFound h fun p => p.attach a
  | finalize h, s =>
    match s.machine.finalize h with
    | .ok m => (s.withMachine m).awaken
    | .error _ => s
  | remove h, s => s.withMachine (s.machine.tried (s.machine.remove h))
  | mark, s =>
    match s.unmarked with
    | 0 => s
    | n + 1 =>
      { s with
        machine := { s.machine with kicked := true }
        unmarked := n
        unnotified := s.unnotified + 1 }
  | enqueue h, s =>
    { s with
      machine := { s.machine with wakes := s.machine.wakes ++ [h] }
      unnotified := s.unnotified + 1 }
  | notify, s =>
    match s.unnotified with
    | 0 => s
    | n + 1 => { s with machine := s.machine.notify, unnotified := n }

/-! The sections that come to a choice, one by one. -/

section Equations

variable (s : Site σ) (h : Handle)

theorem apply_launch (name : String) :
    (launch h name).apply s =
      match s.machine.launch h name with
      | (.ok _, m) => (s.withMachine m).awaken
      | (.error _, m) => s.withMachine m := rfl

theorem apply_find : (find h).apply s =
    if h ∈ s.machine.processes.keys then { s with found := h :: s.found } else s := rfl

theorem apply_rouse (asleep : Bool) :
    (rouse h asleep).apply s =
      if h ∈ s.found ∧ s.machine.asleep h asleep = true then (s.onFound h Process.wake).awaken
      else s.onFound h Process.wake := rfl

theorem apply_finalize :
    (finalize h).apply s =
      match s.machine.finalize h with
      | .ok m => (s.withMachine m).awaken
      | .error _ => s := rfl

theorem apply_mark :
    mark.apply s =
      match s.unmarked with
      | 0 => s
      | n + 1 =>
        { s with
          machine := { s.machine with kicked := true }
          unmarked := n
          unnotified := s.unnotified + 1 } := rfl

theorem apply_notify :
    notify.apply s =
      match s.unnotified with
      | 0 => s
      | n + 1 => { s with machine := s.machine.notify, unnotified := n } := rfl

end Equations

end Section

namespace Site

/-- A machine on which no operation is under way. -/
def idle (m : Machine σ) : Site σ := ⟨m, [], 0, 0⟩

/-- A new machine. -/
def new (settings : Settings) (host : σ) : Site σ := idle (.new settings host)

/-- The site after some sections. -/
def after : List (Section σ) → Site σ → Site σ
  | [], s => s
  | a :: sections, s => after sections (a.apply s)

theorem after_append (before behind : List (Section σ)) (s : Site σ) :
    after (before ++ behind) s = after behind (after before s) := by
  induction before generalizing s with
  | nil => rfl
  | cons a before ih => exact ih (a.apply s)

end Site

namespace Machine

/-! ## Operations of the host as sections -/

section Operations

variable (m : Machine σ) (h : Handle)

theorem start_sections (name : String) :
    (Site.idle m).after [.launch h name, .mark, .notify] = .idle (m.start h name).2 := by
  rcases hlaunch : m.launch h name with ⟨result, m'⟩
  rcases result with e | t
  · simp [Site.after, Section.apply_launch, Section.apply_mark, Section.apply_notify, Site.idle,
      start, hlaunch, Site.withMachine]
  · simp [Site.after, Section.apply_launch, Section.apply_mark, Section.apply_notify, Site.idle,
      start, hlaunch, Site.withMachine, Site.awaken, kick]

theorem queueWake_sections :
    (Site.idle m).after [.enqueue h, .notify] = .idle (m.queueWake h) := rfl

theorem close_sections (force : Bool) :
    (Site.idle m).after (if force then [.remove h] else [.finalize h, .mark, .notify]) =
      .idle (m.tried (m.close h force)) := by
  rcases force with _ | _
  · rcases hfinalize : m.finalize h with e | m'
    · have hclose : m.close h false = .error e := by
        rw [close, hfinalize]
        rfl
      rw [hclose]
      simp only [Bool.false_eq_true, if_false, Site.after, Section.apply_finalize, Site.idle,
        hfinalize]
      rfl
    · have hclose : m.close h false = .ok m'.kick := by
        rw [close, hfinalize]
        rfl
      rw [hclose]
      simp only [Bool.false_eq_true, if_false, Site.after, Section.apply_finalize, Site.idle,
        hfinalize]
      rfl
  · rfl

/-- A process that is not there is not found. -/
theorem apply_find_of_none (hget : m.processes.get? h = none) :
    (Section.find h).apply (.idle m) = .idle m :=
  if_neg (Table.get?_eq_none_iff.1 hget)

theorem apply_find {e : Entry} (hget : m.processes.get? h = some e) :
    (Section.find h).apply (.idle m) = ⟨m, [h], 0, 0⟩ :=
  if_pos (Table.mem_keys_of_get? hget)

/-- A process that was looked up is still there if the operation gets hold of it at once. -/
theorem onFound_eq {e : Entry} (hget : m.processes.get? h = some e) (op : Process → Process) :
    Site.onFound ⟨m, [h], 0, 0⟩ h op = .idle (m.visited h e (op e.process)) := by
  simp [Site.onFound, reach, hget, Site.idle]

theorem pause_sections :
    (Site.idle m).after [.find h, .pause h] = .idle (m.tried (m.pause h)) := by
  change Site.onFound ((Section.find h).apply (.idle m)) h Process.pause = _
  rcases hget : m.processes.get? h with _ | e
  · rw [apply_find_of_none m h hget, pause, visit_eq_error _ hget]
    rfl
  · rw [apply_find m h hget, onFound_eq m h hget, pause, visit_eq _ hget]
    rfl

theorem takeResult_sections :
    (Site.idle m).after [.find h, .takeResult h] =
      .idle (m.tried (Prod.snd <$> m.takeResult h)) := by
  change Site.onFound ((Section.find h).apply (.idle m)) h (fun p => p.takeReturnValue.2) = _
  rcases hget : m.processes.get? h with _ | e
  · rw [apply_find_of_none m h hget, takeResult, visit_eq_error _ hget]
    rfl
  · rw [apply_find m h hget, onFound_eq m h hget, takeResult, visit_eq _ hget]
    rfl

theorem wake_sections (asleep : Bool) :
    (Site.idle m).after [.find h, .rouse h asleep, .mark, .notify] =
      .idle (m.tried (m.wake h)) := by
  simp only [Site.after]
  rcases hget : m.processes.get? h with _ | e
  · rw [apply_find_of_none m h hget, wake, rouse, visit_eq_error _ hget]
    rfl
  · have hasleep : m.asleep h asleep = decide (e.process.status = .sleeping) := by
      simp [Machine.asleep, pickedEntry?, hget]
    rw [apply_find m h hget, Section.apply_rouse, onFound_eq m h hget, hasleep, wake, rouse,
      visit_eq _ hget]
    by_cases hsleeping : e.process.status = .sleeping
    · simp only [hsleeping, List.mem_singleton, decide_true, and_self, if_true]
      rfl
    · simp only [hsleeping, decide_false, Bool.false_eq_true, and_false, if_false]
      rfl

end Operations

end Machine

namespace Section

variable (s : Site σ) (h : Handle)

@[simp] theorem machine_launch (name : String) :
    ((launch h name).apply s).machine = (s.machine.launch h name).2 := by
  rw [apply_launch]
  split
  · next heq => rw [heq]; rfl
  · next heq => rw [heq]; rfl

@[simp] theorem machine_finalize :
    ((finalize h).apply s).machine = s.machine.tried (s.machine.finalize h) := by
  rw [apply_finalize]
  split
  · next heq => rw [heq]; rfl
  · next heq => rw [heq]; rfl

@[simp] theorem machine_find : ((find h).apply s).machine = s.machine := by
  rw [apply_find]
  split
  · rfl
  · rfl

@[simp] theorem machine_rouse (asleep : Bool) :
    ((rouse h asleep).apply s).machine = (s.onFound h Process.wake).machine := by
  rw [apply_rouse]
  split
  · rfl
  · rfl

end Section

/-! ## The functions of the host -/

namespace Machine

theorem functions_deposit (m : Machine σ) (ticket : Option Ticket) (exit : Option Exit) :
    (m.deposit ticket exit).functions = m.functions := by
  rcases ticket with _ | t
  · rfl
  · rcases exit with _ | x <;> rfl

theorem functions_reach (m : Machine σ) (h : Handle) (op : Process → Process) :
    (m.reach h op).functions = m.functions := by
  rw [reach]
  split
  · exact functions_deposit _ _ _
  · split
    · exact functions_deposit _ _ _
    · rfl

theorem functions_launch (m : Machine σ) (h : Handle) (name : String) :
    (m.launch h name).2.functions = m.functions := by
  rcases m.launch_cases h name with heq | ⟨e, p, -, heq⟩
  · rw [heq]
  · rw [heq]
    rfl

theorem functions_turn (m : Machine σ) (h : Handle) (left : List Handle) (awake : Bool) :
    (m.turn h left awake).functions = m.functions := by
  rw [turn]
  dsimp only
  split
  · split
    · refine (functions_deposit _ _ _).trans ?_
      split
      · rfl
      · rfl
    · rfl
  · rfl

theorem functions_tick (m : Machine σ) : m.tick.functions = m.functions := by
  rw [tick]
  split
  case h_6 h left awake _ => exact m.functions_turn h left awake
  all_goals rfl

end Machine

theorem Site.functions_onFound (s : Site σ) (h : Handle) (op : Process → Process) :
    (s.onFound h op).machine.functions = s.machine.functions := by
  rw [onFound]
  split
  · exact s.machine.functions_reach h op
  · rfl

/-- Functions of the host are only added by binding them. -/
theorem Section.functions (a : Section σ) (s : Site σ) :
    (a.apply s).machine.functions = s.machine.functions ∨
      ∃ name f, a = .bind name f ∧
        (a.apply s).machine.functions = s.machine.functions.insert name f := by
  cases a with
  | bind name f =>
    simp only [apply, Machine.bind]
    split
    · exact .inl rfl
    · exact .inr ⟨name, f, rfl, rfl⟩
  | run =>
    simp only [apply, Machine.run]
    split
    · exact .inl rfl
    · exact .inl rfl
  | tick => exact .inl s.machine.functions_tick
  | launch h name => exact .inl (by rw [machine_launch, Machine.functions_launch])
  | poll t =>
    simp only [apply, Machine.poll]
    split
    · exact .inl rfl
    · split <;> exact .inl rfl
  | find h => exact .inl (by rw [machine_find])
  | pause h => exact .inl (s.functions_onFound h _)
  | rouse h asleep => exact .inl (by rw [machine_rouse, Site.functions_onFound])
  | takeResult h => exact .inl (s.functions_onFound h _)
  | attach h data => exact .inl (s.functions_onFound h _)
  | finalize h =>
    rw [machine_finalize, Machine.finalize, Machine.entry]
    split <;> exact .inl rfl
  | remove h =>
    simp only [apply, Machine.remove, Machine.entry]
    split <;> exact .inl rfl
  | create program => exact .inl rfl
  | enqueue h => exact .inl rfl
  | mark =>
    rw [apply_mark]
    split <;> exact .inl rfl
  | notify =>
    rw [apply_notify]
    split
    · exact .inl rfl
    · obtain ⟨scheduler, heq⟩ := s.machine.notify_eq
      exact .inl (by rw [heq])

/-! ## Sections lead to later machines -/

namespace Machine

section Later

variable {m : Machine σ} {h : Handle}

theorem later_reach (m : Machine σ) (h : Handle) (op : Process → Process) : m.Later (m.reach h op) := by
  rw [reach]
  split
  · next e hget => exact later_visited hget _
  · split
    · next e hpicked =>
      have hheld : ∀ t, e.ticket = some t → m.Held h t :=
        fun t ht => ⟨e, .inr (Table.mem_of_get? hpicked), ht⟩
      refine Later.deposit ?_ (fun t ht => ⟨h, hheld t ht⟩) _
      refine .of_sublist rfl (Nat.le_refl _) (List.Sublist.refl _) (fun h' t hheld' => ?_)
        fun t ht => ht
      obtain ⟨e', hmem | hmem, ht⟩ := hheld'
      · exact .inl ⟨e', .inl hmem, ht⟩
      · rcases Table.mem_insert hmem with heq | hmem
        · obtain ⟨rfl, rfl⟩ := Prod.mk.inj heq
          exact held_of_ticket_eq hheld (update_ticket e _) _ t ht
        · exact .inl ⟨e', .inr hmem, ht⟩
    · exact .refl m

end Later

end Machine

theorem Site.later_onFound (s : Site σ) (h : Handle) (op : Process → Process) :
    s.machine.Later (s.onFound h op).machine := by
  rw [onFound]
  split
  · exact s.machine.later_reach h op
  · exact .refl s.machine

theorem Section.later (a : Section σ) (s : Site σ) : s.machine.Later (a.apply s).machine := by
  cases a with
  | run => exact Event.run.later s.machine
  | tick => exact s.machine.later_tick
  | bind name f => exact (Event.bind name f).later s.machine
  | create program => exact s.machine.later_create program
  | launch h name =>
    rw [machine_launch]
    exact s.machine.later_launch h name
  | poll t => exact s.machine.later_poll t
  | find h =>
    rw [machine_find]
    exact .refl s.machine
  | pause h => exact s.later_onFound h _
  | rouse h asleep =>
    rw [machine_rouse]
    exact s.later_onFound h _
  | takeResult h => exact s.later_onFound h _
  | attach h a => exact s.later_onFound h _
  | finalize h =>
    rw [machine_finalize]
    exact s.machine.later_finalize h
  | remove h => exact s.machine.later_remove h
  | mark =>
    rw [apply_mark]
    split
    · exact .refl s.machine
    · exact .of_eq rfl rfl rfl rfl rfl
  | enqueue h => exact .of_eq rfl rfl rfl rfl rfl
  | notify =>
    rw [apply_notify]
    split
    · exact .refl s.machine
    · exact Machine.Later.notify (.refl s.machine)

/-! ## Turns -/

/-- A turn of a process that was running. -/
structure Stint (σ : Type) where
  /-- The machine right before the turn. -/
  machine : Machine σ
  handle : Handle
  /-- The process right before the turn. -/
  entry : Entry

namespace Stint

/-- What the turn leaves behind. -/
def turn (w : Stint σ) : Turn σ := w.machine.turnOf w.handle w.entry

/-- The entry after the turn. -/
def outcome (w : Stint σ) : Entry := (w.entry.afterTurn w.turn).1

/-- The exit of the invocation, if the turn has ended it. -/
def exit (w : Stint σ) : Option Exit := (w.entry.afterTurn w.turn).2

/-- The exit that was sent, and for which invocation. -/
def sent (w : Stint σ) : Option (Ticket × Exit) :=
  match w.entry.ticket, w.exit with
  | some t, some x => some (t, x)
  | _, _ => none

end Stint

namespace Machine

/-- The turn that the next section of the scheduler is, if the process runs. -/
def stint? (m : Machine σ) : Option (Stint σ) :=
  match m.scheduler with
  | some (.turns (h :: _) _) =>
    match m.pickedEntry? h with
    | some e => if e.process.status = .running then some ⟨m, h, e⟩ else none
    | none => none
  | _ => none

end Machine

/-- Nothing new comes about by the section: no process, no invocation, and no turn. -/
def Section.Plain (m : Machine σ) : Section σ → Prop
  | create _ | launch _ _ => False
  | tick => m.stint? = none
  | _ => True

/-! ## What is kept -/

/-- The process stays where it is. It may have been put to sleep, woken or closed. -/
structure Process.Kept (p q : Process) : Prop where
  frames : q.frames = p.frames
  status : q.status = p.status ∨ q.status = .finalizing ∨
    (p.status = .running ∧ q.status = .sleeping) ∨ (p.status = .sleeping ∧ q.status = .running)

namespace Process.Kept

variable {p q : Process}

theorem refl (p : Process) : p.Kept p := ⟨rfl, .inl rfl⟩

theorem of_eq (hframes : q.frames = p.frames) (hstatus : q.status = p.status) : p.Kept q :=
  ⟨hframes, .inl hstatus⟩

theorem of_wake_eq (h : q.wake = p.wake) : p.Kept q := by
  refine ⟨frames_of_wake_eq h, ?_⟩
  have hwoken {r : Process} (hr : r.status = .sleeping) : r.wake.status = .running := by
    rw [wake, if_pos hr]
  by_cases hq : q.status = .sleeping
  · by_cases hp : p.status = .sleeping
    · exact .inl (hq.trans hp.symm)
    · rw [wake_of_ne_sleeping hp] at h
      exact .inr (.inr (.inl ⟨h ▸ hwoken hq, hq⟩))
  · by_cases hp : p.status = .sleeping
    · rw [wake_of_ne_sleeping hq] at h
      exact .inr (.inr (.inr ⟨hp, h ▸ hwoken hp⟩))
    · rw [wake_of_ne_sleeping hp, wake_of_ne_sleeping hq] at h
      exact .inl (congrArg Process.status h)

theorem awake (h : p.Kept q) (hq : q.status = .running ∨ q.status = .sleeping) :
    p.status = .running ∨ p.status = .sleeping := by
  rcases h.status with heq | hfinal | ⟨hp, -⟩ | ⟨hp, -⟩
  · rwa [heq] at hq
  · simp [hfinal] at hq
  · exact .inl hp
  · exact .inr hp

theorem inactive (h : p.Kept q) (hq : q.status = .inactive) : p.status = .inactive := by
  rcases h.status with heq | hfinal | ⟨-, hstatus⟩ | ⟨-, hstatus⟩
  · rwa [heq] at hq
  all_goals simp_all

theorem finalizing (h : p.Kept q) (hp : p.status = .finalizing) : q.status = .finalizing := by
  rcases h.status with heq | hfinal | ⟨hstatus, -⟩ | ⟨hstatus, -⟩
  · rwa [heq]
  · exact hfinal
  all_goals simp_all

end Process.Kept

/-- The process stays where it is, and its invocation goes on. -/
structure Entry.Kept (e e' : Entry) : Prop where
  process : e.process.Kept e'.process
  ticket : e'.ticket = e.ticket

theorem Entry.Kept.refl (e : Entry) : e.Kept e := ⟨.refl _, rfl⟩

namespace Machine

/-- Whatever is there was there before and is kept. -/
structure Quiet (m m' : Machine σ) : Prop where
  entries : ∀ h e', m'.pickedEntry? h = some e' → ∃ e, m.pickedEntry? h = some e ∧ e.Kept e'
  keys : ∀ h ∈ m'.processes.keys, h ∈ m.processes.keys
  apart : ∀ h ∈ m'.processes.keys, h ∈ m'.picked.keys → h ∈ m.picked.keys
  exits : ∀ t x, m'.exits.get? t = some x → m.exits.get? t = some x

section Quiet

variable {m m' : Machine σ} {h h' : Handle} {e e' : Entry} {p : Process}

theorem Quiet.of_eq (hprocesses : m'.processes = m.processes) (hpicked : m'.picked = m.picked)
    (hexits : m'.exits = m.exits) : m.Quiet m' := by
  refine ⟨fun h e' he' => ⟨e', ?_, .refl e'⟩, fun h hh => hprocesses ▸ hh,
    fun h _ hh => hpicked ▸ hh, fun t x hx => hexits ▸ hx⟩
  rwa [ pickedEntry?, hprocesses, hpicked] at he'

theorem Quiet.refl (m : Machine σ) : m.Quiet m := .of_eq rfl rfl rfl

theorem Quiet.moveTo (hm : m.Quiet m') (phase : Phase) : m.Quiet (m'.moveTo phase) :=
  ⟨hm.entries, hm.keys, hm.apart, hm.exits⟩

/-- The entry in the table is the one that counts. -/
theorem pickedEntry?_of_get? (hget : m.processes.get? h = some e) : m.pickedEntry? h = some e := by
  rw [ pickedEntry?, hget, Option.some_or]

theorem pickedEntry?_of_none (hget : m.processes.get? h = none) :
    m.pickedEntry? h = m.picked.get? h := by
  rw [ pickedEntry?, hget, Option.none_or]

theorem pickedEntry?_setEntry_self (m : Machine σ) (h : Handle) (e : Entry) :
    pickedEntry? (m.setEntry h e) h = some e :=
  pickedEntry?_of_get? (Table.get?_insert_self _ _ _)

theorem pickedEntry?_setEntry_ne (hne : h' ≠ h) (m : Machine σ) (e : Entry) :
    pickedEntry? (m.setEntry h e) h' = m.pickedEntry? h' := by
  rw [ pickedEntry?, pickedEntry?, setEntry]
  exact congrArg (Option.or · _) (Table.get?_insert_ne hne)

/-- Setting the entry of a process that is in the table. -/
theorem quiet_setEntry (hget : m.processes.get? h = some e) (hkept : e.Kept e') :
    m.Quiet (m.setEntry h e') := by
  have hkeys : (m.setEntry h e').processes.keys = m.processes.keys :=
    Table.keys_insert_of_mem (Table.mem_keys_of_get? hget)
  refine ⟨fun h' e'' he'' => ?_, fun h' hh' => hkeys ▸ hh', fun h' _ hh' => hh', fun t x hx => hx⟩
  by_cases hh : h' = h
  · subst hh
    rw [pickedEntry?_setEntry_self, Option.some.injEq] at he''
    exact ⟨e, pickedEntry?_of_get? hget, he'' ▸ hkept⟩
  · rw [pickedEntry?_setEntry_ne hh] at he''
    exact ⟨e'', he'', .refl e''⟩

/-- An operation that keeps the frames of a process ends nothing, wherever the process is. -/
theorem reach_eq {op : Process → Process} (hop : ∀ p : Process, (op p).frames = p.frames)
    (m : Machine σ) (h : Handle) :
    m.reach h op =
      match m.processes.get? h with
      | some e => m.setEntry h ⟨op e.process, e.ticket⟩
      | none =>
        match m.picked.get? h with
        | some e => { m with picked := m.picked.insert h ⟨op e.process, e.ticket⟩ }
        | none => m := by
  rw [reach]
  split
  · exact visited_eq (hop _)
  · split
    · next e _ =>
      rw [update_eq (hop e.process)]
      exact deposit_none _ _
    · rfl

/-- An operation that keeps the process, wherever the process is. -/
theorem quiet_reach (m : Machine σ) (h : Handle) {op : Process → Process}
    (hop : ∀ p : Process, p.Kept (op p)) : m.Quiet (m.reach h op) := by
  rw [reach_eq fun p => (hop p).frames]
  split
  · next e hget => exact quiet_setEntry hget ⟨hop e.process, rfl⟩
  · next hnone =>
    split
    · next e hpicked =>
      have hkeys := Table.keys_insert_of_mem (a := ⟨op e.process, e.ticket⟩)
        (Table.mem_keys_of_get? hpicked)
      refine ⟨fun h' e' he' => ?_, fun h' hh' => hh', fun h' _ hh' => hkeys ▸ hh',
        fun t x hx => hx⟩
      by_cases hh : h' = h
      · subst hh
        simp only [ pickedEntry?, hnone, Option.none_or, Table.get?_insert_self,
          Option.some.injEq] at he'
        exact ⟨e, by rw [pickedEntry?_of_none hnone, hpicked], he' ▸ ⟨hop e.process, rfl⟩⟩
      · rw [ pickedEntry?, Table.get?_insert_ne hh] at he'
        exact ⟨e', he', .refl e'⟩
    · exact .refl m

theorem quiet_finalize (m : Machine σ) (h : Handle) : m.Quiet (m.tried (m.finalize h)) := by
  rw [finalize, entry]
  split
  · next e hget => exact quiet_setEntry hget ⟨⟨rfl, .inr (.inl rfl)⟩, rfl⟩
  · exact .refl m

/-- A process that is removed is gone, or kept as it is for its turn. -/
theorem quiet_remove (hapart : ∀ h ∈ m.processes.keys, h ∉ m.picked.keys) (h : Handle) :
    m.Quiet (m.tried (m.remove h)) := by
  rw [remove, entry]
  split
  · next e hget =>
    simp only [Bind.bind, Except.bind, pure, Except.pure, tried]
    have hsublist := Table.keys_erase_sublist m.processes h
    have herased : h ∉ (m.processes.erase h).keys :=
      Table.get?_eq_none_iff.1 (Table.get?_erase_self m.processes h)
    by_cases hleft : h ∈ m.scheduler.elim [] Phase.left
    · simp only [if_pos hleft]
      refine ⟨fun h' e' he' => ?_, fun h' hh' => hsublist.subset hh', fun h' hh' hpicked => ?_,
        fun t x hx => hx⟩
      · by_cases hh : h' = h
        · subst hh
          simp only [ pickedEntry?, Table.get?_erase_self, Option.none_or, Table.get?_insert_self,
            Option.some.injEq] at he'
          exact ⟨e, pickedEntry?_of_get? hget, he' ▸ .refl e⟩
        · rw [ pickedEntry?, Table.get?_erase_ne hh, Table.get?_insert_ne hh] at he'
          exact ⟨e', he', .refl e'⟩
      · refine (Table.mem_keys_insert.1 hpicked).resolve_left ?_
        rintro rfl
        exact herased hh'
    · simp only [if_neg hleft]
      refine ⟨fun h' e' he' => ?_, fun h' hh' => hsublist.subset hh', fun h' _ hpicked => hpicked,
        fun t x hx => hx⟩
      by_cases hh : h' = h
      · -- Nothing was kept of the process before.
        subst hh
        have hnone := Table.get?_eq_none_iff.2 (hapart h' (Table.mem_keys_of_get? hget))
        simp only [ pickedEntry?, Table.get?_erase_self, Option.none_or, hnone, reduceCtorEq] at he'
      · rw [ pickedEntry?, Table.get?_erase_ne hh] at he'
        exact ⟨e', he', .refl e'⟩
  · exact .refl m

theorem quiet_pickAll (m : Machine σ) (woken : List Handle) : m.Quiet (m.pickAll woken) := by
  have hkeys : (m.pickAll woken).processes.keys = m.processes.keys :=
    keys_foldl_wakeIn woken m.processes
  refine ⟨fun h e' he' => ?_, fun h hh => hkeys ▸ hh, fun h _ hh => hh, fun t x hx => hx⟩
  rcases hget : m.processes.get? h with _ | e
  · have hnone : (m.pickAll woken).processes.get? h = none :=
      Table.get?_eq_none_iff.2 (hkeys ▸ Table.get?_eq_none_iff.1 hget)
    rw [pickedEntry?_of_none hnone] at he'
    exact ⟨e', (pickedEntry?_of_none hget).trans he', .refl e'⟩
  · -- A process of the table is woken at most.
    obtain ⟨q, hq, hwake⟩ := (m.leaves_pickAll (t := ⟨0⟩) woken).entry e hget
    rw [pickedEntry?_of_get? hq, Option.some.injEq] at he'
    subst he'
    exact ⟨e, pickedEntry?_of_get? hget, .of_wake_eq hwake, rfl⟩

/-- Where something is removed, nothing else comes to light. -/
theorem quiet_prune (hnodup : m.processes.keys.Nodup)
    (hapart : ∀ h ∈ m.processes.keys, h ∉ m.picked.keys) : m.Quiet m.prune := by
  have hsublist : m.prune.processes.keys.Sublist m.processes.keys :=
    Table.keys_filter_sublist _ m.processes
  refine ⟨fun h e' he' => ⟨e', ?_, .refl e'⟩, fun h hh => hsublist.subset hh, fun h _ hh => hh,
    fun t x hx => hx⟩
  rcases hget : m.prune.processes.get? h with _ | e
  · rw [pickedEntry?_of_none hget] at he'
    have hnone : m.processes.get? h = none :=
      Table.get?_eq_none_iff.2 fun hh => hapart h hh (Table.mem_keys_of_get? he')
    exact (pickedEntry?_of_none hnone).trans he'
  · rw [pickedEntry?_of_get? hget] at he'
    have hmem : (h, e') ∈ m.processes :=
      (List.mem_filter.1 (Table.mem_of_get? (hget.trans he'))).1
    exact pickedEntry?_of_get? (Table.get?_of_mem hnodup hmem)

/-- The end of a turn: nothing is kept of the process for this sweep any more. -/
theorem quiet_dropPicked (m : Machine σ) (h : Handle) :
    m.Quiet { m with picked := m.picked.erase h } := by
  have hsublist := Table.keys_erase_sublist m.picked h
  refine ⟨fun h' e' he' => ⟨e', ?_, .refl e'⟩, fun h' hh' => hh',
    fun h' _ hh' => hsublist.subset hh', fun t x hx => hx⟩
  rcases hget : m.processes.get? h' with _ | e
  · by_cases hh : h' = h
    · subst hh
      simp only [ pickedEntry?, hget, Option.none_or, Table.get?_erase_self, reduceCtorEq] at he'
    · simpa only [ pickedEntry?, hget, Option.none_or, Table.get?_erase_ne hh] using he'
  · simpa only [ pickedEntry?, hget, Option.some_or] using he'

/-- A turn of a process that does not run. -/
theorem turn_of_stint_none {left : List Handle} {awake : Bool}
    (hphase : m.scheduler = some (.turns (h :: left) awake)) (hstint : m.stint? = none) :
    m.turn h left awake = moveTo { m with picked := m.picked.erase h } (.turns left awake) := by
  rw [turn]
  split
  · next e hget =>
    simp only [stint?, hphase, hget, ite_eq_right_iff, reduceCtorEq, imp_false] at hstint
    rw [if_neg hstint]
    rfl
  · rfl

/-- A section of the scheduler in which no process runs. -/
theorem quiet_tick (hnodup : m.processes.keys.Nodup)
    (hapart : ∀ h ∈ m.processes.keys, h ∉ m.picked.keys) (hstint : m.stint? = none) :
    m.Quiet m.tick := by
  rw [tick]
  split
  case h_4 woken _ => exact m.quiet_pickAll woken
  case h_6 h left awake hphase =>
    rw [turn_of_stint_none hphase hstint]
    exact (m.quiet_dropPicked h).moveTo _
  case h_7 => exact (quiet_prune hnodup hapart).moveTo _
  all_goals exact .of_eq rfl rfl rfl

theorem quiet_notify (m : Machine σ) : m.Quiet m.notify := by
  obtain ⟨scheduler, heq⟩ := m.notify_eq
  rw [heq]
  exact .of_eq rfl rfl rfl

theorem quiet_poll (m : Machine σ) (t : Ticket) : m.Quiet (m.poll t).2 := by
  rw [poll]
  split
  · refine ⟨fun h e he => ⟨e, he, .refl e⟩, fun h hh => hh, fun h _ hh => hh, fun t' x hx => ?_⟩
    have hne : t' ≠ t := by
      rintro rfl
      rw [Table.get?_erase_self] at hx
      cases hx
    rwa [Table.get?_erase_ne hne] at hx
  · split
    · exact .refl m
    · exact .refl m

end Quiet

end Machine

theorem Process.kept_pause (p : Process) : p.Kept p.pause := .of_wake_eq p.wake_pause

theorem Process.kept_wake (p : Process) : p.Kept p.wake := .of_wake_eq p.wake_wake

theorem Site.quiet_onFound (s : Site σ) (h : Handle) {op : Process → Process}
    (hop : ∀ p : Process, p.Kept (op p)) : s.machine.Quiet (s.onFound h op).machine := by
  rw [onFound]
  split
  · exact s.machine.quiet_reach h hop
  · exact .refl s.machine

/-- A section by which nothing new comes about keeps everything as it is. -/
theorem Section.quiet {a : Section σ} {s : Site σ} (hplain : a.Plain s.machine)
    (hnodup : s.machine.processes.keys.Nodup)
    (hapart : ∀ h ∈ s.machine.processes.keys, h ∉ s.machine.picked.keys) :
    s.machine.Quiet (a.apply s).machine := by
  cases a with
  | create program => exact hplain.elim
  | launch h name => exact hplain.elim
  | tick => exact Machine.quiet_tick hnodup hapart hplain
  | run =>
    simp only [apply, Machine.run]
    split
    · exact .refl s.machine
    · exact .of_eq rfl rfl rfl
  | bind name f =>
    simp only [apply, Machine.bind]
    split
    · exact .refl s.machine
    · exact .of_eq rfl rfl rfl
  | poll t => exact s.machine.quiet_poll t
  | find h =>
    rw [machine_find]
    exact .refl s.machine
  | pause h => exact s.quiet_onFound h Process.kept_pause
  | rouse h asleep =>
    rw [machine_rouse]
    exact s.quiet_onFound h Process.kept_wake
  | takeResult h => exact s.quiet_onFound h fun p => .of_eq rfl rfl
  | attach h data => exact s.quiet_onFound h fun p => .of_eq rfl rfl
  | finalize h =>
    rw [machine_finalize]
    exact s.machine.quiet_finalize h
  | remove h => exact Machine.quiet_remove hapart h
  | mark =>
    rw [apply_mark]
    split
    · exact .refl s.machine
    · exact .of_eq rfl rfl rfl
  | enqueue h => exact .of_eq rfl rfl rfl
  | notify =>
    rw [apply_notify]
    split
    · exact .refl s.machine
    · exact s.machine.quiet_notify

/-! ## What comes about -/

namespace Machine

section Spec

variable {m : Machine σ} {h h' : Handle} {e : Entry} {w : Stint σ}

/-- The new process, which has not been started. -/
theorem pickedEntry?_create_self (hnew : m.pickedEntry? ⟨m.nextHandle⟩ = none) (program : Program) :
    pickedEntry? (m.create program).2 ⟨m.nextHandle⟩ =
      some ⟨program.instance m.settings.maxStackDepth, none⟩ := by
  obtain ⟨hget, -⟩ := Option.or_eq_none_iff.1 hnew
  refine pickedEntry?_of_get? ?_
  rw [create, Table.get?_append, hget, Option.none_or, Table.get?, if_pos rfl]

theorem pickedEntry?_create_ne (hne : h ≠ ⟨m.nextHandle⟩) (program : Program) :
    pickedEntry? (m.create program).2 h = m.pickedEntry? h := by
  have hget : (m.create program).2.processes.get? h = m.processes.get? h := by
    rw [create, Table.get?_append, Table.get?, if_neg (Ne.symm hne), Table.get?, Option.or_none]
  rw [ pickedEntry?, hget]
  rfl

/-- A start that is not refused at once sets the entry of a process that was inactive. The
    new entry has a new ticket, and goes on if the start gives one. -/
theorem launch_spec (m : Machine σ) (h : Handle) (name : String) :
    ((∃ err, (m.launch h name).1 = .error err) ∧ (m.launch h name).2 = m) ∨
      ∃ e p, m.processes.get? h = some e ∧ e.process.status = .inactive ∧
        (m.launch h name).2 =
          { m with nextTicket := m.nextTicket + 1 }.setEntry h ⟨p, some ⟨m.nextTicket⟩⟩ ∧
        (((∃ err, (m.launch h name).1 = .error err) ∧ p.Over) ∨
          ((m.launch h name).1 = .ok ⟨m.nextTicket⟩ ∧ p.Going)) := by
  rw [launch]
  split
  · exact .inl ⟨⟨_, rfl⟩, rfl⟩
  · next e id hpoint =>
    obtain ⟨hget, hstatus, -⟩ := entryPoint_eq_ok hpoint
    dsimp only
    split
    · exact .inr ⟨e, _, hget, hstatus, rfl, .inl ⟨⟨_, rfl⟩, rfl, hstatus⟩⟩
    · next p hp =>
      exact .inr ⟨e, _, hget, hstatus, rfl, .inr ⟨rfl, (Process.enter_eq_ok hp).1, .inl rfl⟩⟩

/-- Whose turn it is. -/
theorem of_stint (hstint : m.stint? = some w) :
    w.machine = m ∧ m.pickedEntry? w.handle = some w.entry ∧
      w.entry.process.status = .running ∧
      ∃ left awake, m.scheduler = some (.turns (w.handle :: left) awake) := by
  rw [stint?] at hstint
  split at hstint
  · next h left awake hphase =>
    split at hstint
    · next e hget =>
      split at hstint
      · next hrunning =>
        obtain rfl := Option.some.inj hstint
        exact ⟨rfl, hget, hrunning, left, awake, hphase⟩
      · exact nomatch hstint
    · exact nomatch hstint
  · exact nomatch hstint

theorem deposit_stint (m : Machine σ) (w : Stint σ) :
    m.deposit w.entry.ticket w.exit =
      { m with exits := w.sent.elim m.exits fun x => m.exits.insert x.1 x.2 } := by
  rw [Stint.sent]
  rcases w.entry.ticket with _ | t
  · rfl
  · rcases w.exit with _ | x <;> rfl

theorem record_stint (m : Machine σ) (w : Stint σ) :
    m.record w.handle w.entry w.turn =
      { m with
        processes := if (m.processes.get? w.handle).isSome then
          m.processes.insert w.handle w.outcome else m.processes
        wakes := m.wakes ++ w.turn.wakes
        exits := w.sent.elim m.exits fun x => m.exits.insert x.1 x.2
        host := w.turn.host } := by
  change Machine.deposit (if (m.processes.get? w.handle).isSome
    then setEntry { m with wakes := m.wakes ++ w.turn.wakes, host := w.turn.host } w.handle w.outcome
    else { m with wakes := m.wakes ++ w.turn.wakes, host := w.turn.host }) w.entry.ticket w.exit = _
  rw [deposit_stint]
  split
  · rfl
  · rfl

/-- The turn of a running process. -/
theorem tick_of_stint (hstint : m.stint? = some w) {left : List Handle} {awake : Bool}
    (hphase : m.scheduler = some (.turns (w.handle :: left) awake)) :
    m.tick =
      { m with
        processes := if (m.processes.get? w.handle).isSome then
          m.processes.insert w.handle w.outcome else m.processes
        picked := m.picked.erase w.handle
        wakes := m.wakes ++ w.turn.wakes
        scheduler := some (.turns left true)
        exits := w.sent.elim m.exits fun x => m.exits.insert x.1 x.2
        host := w.turn.host } := by
  obtain ⟨hmachine, hget, hrunning, -⟩ := of_stint hstint
  have hturn : m.turnOf w.handle w.entry = w.turn := by rw [Stint.turn, hmachine]
  rw [tick, hphase]
  dsimp only
  rw [turn, hget]
  dsimp only
  rw [if_pos hrunning, hturn, record_stint]
  rfl

theorem keys_tick_of_stint (hstint : m.stint? = some w) : m.tick.processes.keys = m.processes.keys := by
  obtain ⟨-, -, -, left, awake, hphase⟩ := of_stint hstint
  rw [tick_of_stint hstint hphase]
  dsimp only
  split
  · next hsome =>
    obtain ⟨e, hget⟩ := Option.isSome_iff_exists.1 hsome
    exact Table.keys_insert_of_mem (Table.mem_keys_of_get? hget)
  · rfl

theorem exits_tick_of_stint (hstint : m.stint? = some w) :
    m.tick.exits = w.sent.elim m.exits fun x => m.exits.insert x.1 x.2 := by
  obtain ⟨-, -, -, left, awake, hphase⟩ := of_stint hstint
  rw [tick_of_stint hstint hphase]

/-- A process that is no longer in the table is gone after its turn. -/
theorem pickedEntry?_tick_self (hstint : m.stint? = some w) :
    m.tick.pickedEntry? w.handle =
      if w.handle ∈ m.processes.keys then some w.outcome else none := by
  obtain ⟨-, -, -, left, awake, hphase⟩ := of_stint hstint
  rw [ pickedEntry?, tick_of_stint hstint hphase]
  dsimp only
  rw [Table.get?_erase_self, Option.or_none]
  rcases hget : m.processes.get? w.handle with _ | e
  · simp [Table.get?_eq_none_iff.1 hget, hget]
  · simp [Table.mem_keys_of_get? hget]

theorem pickedEntry?_tick_ne (hstint : m.stint? = some w) (hne : h ≠ w.handle) :
    m.tick.pickedEntry? h = m.pickedEntry? h := by
  obtain ⟨-, -, -, left, awake, hphase⟩ := of_stint hstint
  rw [ pickedEntry?, pickedEntry?, tick_of_stint hstint hphase]
  dsimp only
  rw [Table.get?_erase_ne hne]
  split
  · rw [Table.get?_insert_ne hne]
  · rfl

/-- A process of the table is there after its turn. -/
theorem get?_tick_self (hstint : m.stint? = some w) (hkeys : w.handle ∈ m.processes.keys) :
    m.tick.processes.get? w.handle = some w.outcome := by
  have hself := pickedEntry?_tick_self hstint
  rw [if_pos hkeys] at hself
  rw [← keys_tick_of_stint hstint] at hkeys
  rcases hget : m.tick.processes.get? w.handle with _ | e
  · exact absurd hkeys (Table.get?_eq_none_iff.1 hget)
  · rw [← hself, pickedEntry?_of_get? hget]

theorem get?_tick_ne (hstint : m.stint? = some w) (hne : h ≠ w.handle) :
    m.tick.processes.get? h = m.processes.get? h := by
  obtain ⟨-, -, -, left, awake, hphase⟩ := of_stint hstint
  rw [tick_of_stint hstint hphase]
  dsimp only
  split
  · exact Table.get?_insert_ne hne
  · rfl

end Spec

/-- Every process is there once, and all numbers are below those that come next. -/
structure Tidy (m : Machine σ) : Prop where
  orderly : m.Orderly
  apart : ∀ h ∈ m.processes.keys, h ∉ m.picked.keys
  below : ∀ h e, m.pickedEntry? h = some e → h.number < m.nextHandle

theorem tidy_new (settings : Settings) (host : σ) : (new settings host).Tidy :=
  ⟨orderly_new settings host, by simp [new, Table.keys],
    by simp [new, pickedEntry?]⟩

theorem Tidy.pickedEntry?_new {m : Machine σ} (hm : m.Tidy) : m.pickedEntry? ⟨m.nextHandle⟩ = none := by
  rcases hget : m.pickedEntry? ⟨m.nextHandle⟩ with _ | e
  · rfl
  · exact absurd (hm.below _ e hget) (Nat.lt_irrefl _)

end Machine

namespace Section

variable {s : Site σ} {a : Section σ}

/-- Something new comes about by the section, or it is plain. -/
theorem plain_or (a : Section σ) (m : Machine σ) :
    a.Plain m ∨ (∃ program, a = .create program) ∨ (∃ h name, a = .launch h name) ∨
      (a = .tick ∧ ∃ w, m.stint? = some w) := by
  cases a with
  | create program => exact .inr (.inl ⟨program, rfl⟩)
  | launch h name => exact .inr (.inr (.inl ⟨h, name, rfl⟩))
  | tick =>
    rcases hstint : m.stint? with _ | w
    · exact .inl hstint
    · exact .inr (.inr (.inr ⟨rfl, w, rfl⟩))
  | _ => exact .inl trivial

/-- Whatever is there after a section was there before, except for a new process. -/
theorem exists_of_apply (hs : s.machine.Tidy) {h : Handle} {e' : Entry}
    (he' : Machine.pickedEntry? (a.apply s).machine h = some e') :
    (∃ e, s.machine.pickedEntry? h = some e) ∨
      (h = ⟨s.machine.nextHandle⟩ ∧ ∃ program, a = .create program) := by
  rcases a.plain_or s.machine with hplain | ⟨program, rfl⟩ | ⟨h', name, rfl⟩ | ⟨rfl, w, hstint⟩
  · obtain ⟨e, he, -⟩ := (quiet hplain hs.orderly.nodup hs.apart).entries h e' he'
    exact .inl ⟨e, he⟩
  · by_cases hh : h = ⟨s.machine.nextHandle⟩
    · exact .inr ⟨hh, program, rfl⟩
    · exact .inl ⟨e', Machine.pickedEntry?_create_ne hh program ▸ he'⟩
  · rw [machine_launch] at he'
    rcases s.machine.launch_spec h' name with ⟨-, heq⟩ | ⟨e, p, hget, -, heq, -⟩
    · exact .inl ⟨e', heq ▸ he'⟩
    · by_cases hh : h = h'
      · exact .inl ⟨e, Machine.pickedEntry?_of_get? (hh ▸ hget)⟩
      · rw [heq, Machine.pickedEntry?_setEntry_ne hh] at he'
        exact .inl ⟨e', he'⟩
  · by_cases hh : h = w.handle
    · exact .inl ⟨w.entry, hh ▸ (Machine.of_stint hstint).2.1⟩
    · exact .inl ⟨e', Machine.pickedEntry?_tick_ne hstint hh ▸ he'⟩

/-- A process is not kept for its turn as long as it is in the table. -/
theorem apart_apply (hs : s.machine.Tidy) :
    ∀ h ∈ (a.apply s).machine.processes.keys, h ∉ (a.apply s).machine.picked.keys := by
  intro h hh hpicked
  rcases a.plain_or s.machine with hplain | ⟨program, rfl⟩ | ⟨h', name, rfl⟩ | ⟨rfl, w, hstint⟩
  · have hquiet := quiet hplain hs.orderly.nodup hs.apart
    exact hs.apart h (hquiet.keys h hh) (hquiet.apart h hh hpicked)
  · have hpicked : h ∈ s.machine.picked.keys := hpicked
    have hkeys : (s.machine.create program).2.processes.keys =
        s.machine.processes.keys ++ [⟨s.machine.nextHandle⟩] := List.map_append
    rcases List.mem_append.1 (hkeys ▸ hh) with hh | hh
    · exact hs.apart h hh hpicked
    · obtain rfl := List.mem_singleton.1 hh
      obtain ⟨-, hnone⟩ := Option.or_eq_none_iff.1 hs.pickedEntry?_new
      exact Table.get?_eq_none_iff.1 hnone hpicked
  · rw [machine_launch] at hh hpicked
    rcases s.machine.launch_spec h' name with ⟨-, heq⟩ | ⟨e, p, hget, -, heq, -⟩
    · rw [heq] at hh hpicked
      exact hs.apart h hh hpicked
    · rw [heq] at hh hpicked
      refine hs.apart h ?_ hpicked
      exact Table.keys_insert_of_mem (Table.mem_keys_of_get? hget) ▸ hh
  · obtain ⟨-, -, -, left, awake, hphase⟩ := Machine.of_stint hstint
    have hkeys : s.machine.tick.processes.keys = s.machine.processes.keys :=
      Machine.keys_tick_of_stint hstint
    have hsublist : s.machine.tick.picked.keys.Sublist s.machine.picked.keys := by
      rw [Machine.tick_of_stint hstint hphase]
      exact Table.keys_erase_sublist _ _
    exact hs.apart h (hkeys ▸ hh) (hsublist.subset hpicked)

theorem tidy (hs : s.machine.Tidy) (a : Section σ) : (a.apply s).machine.Tidy := by
  have hlater := a.later s
  refine ⟨hs.orderly.later hlater, apart_apply hs, fun h e he => ?_⟩
  rcases exists_of_apply hs he with ⟨e', he'⟩ | ⟨rfl, program, rfl⟩
  · exact Nat.lt_of_lt_of_le (hs.below h e' he') hlater.handles
  · exact Nat.lt_succ_self _

end Section

end ScriptMachine
