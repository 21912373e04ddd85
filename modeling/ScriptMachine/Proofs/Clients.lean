import ScriptMachine.Manager
import ScriptMachine.Proofs.Remains

/-!
# Clients of a manager

Many clients have functions executed by one manager. An execution takes three moves of its
client: the function is started (`Move.call`), the exit of that invocation is received
(`Move.receive`), and the result is taken (`Move.conclude`). Between these the scheduler and all
other clients may do anything, to the same process too.

What an answer says about the invocation that was started for it is true
(`Clients.answer_justified`). A fault is the fault of that invocation. A client is told that there
is no result only if its process is gone and the invocation has not ended. A client gets a value
only if its invocation was completed; but the value is what the process has left at the moment when
it is taken. This is the value of the invocation if nobody has started or closed the process, or
has taken its value, since the invocation ended. Otherwise a client may be given the value of
another one, or none, or be refused by the machine (`Clients.answer_swapped`).

The moves of clients are sections of the machine (`Move.after_sections`), so that what is known
about chronicles carries over (`Clients.Follows`).
-/

namespace ScriptMachine

variable {σ : Type}

/-! ## Executions -/

/-- An execution of a function, once the function has been started. -/
structure Execution where
  handle : Handle
  /-- The exit, once the client has received it. -/
  exit : Option Exit
  /-- What the client was told in the end. -/
  answer : Option (Except ManagerError Outcome)

/-- Is the value of the process taken next? -/
def Execution.takes (x : Execution) : Bool := x.exit = some .completed && x.answer.isNone

/-- A manager and the executions of its clients. -/
structure Clients (σ : Type) where
  manager : Manager σ
  /-- The executions, by the tickets of their invocations. -/
  executions : Table Ticket Execution

/-- What the clients of a manager do, and its scheduler. -/
inductive Move (σ : Type) where
  /-- The next section of the scheduler. -/
  | tick
  | bind (name : String) (f : HostFunction σ)
  | start
  /-- The program of a file is asked for. -/
  | load (fs : Files) (path : String)
  /-- A new process of a program. -/
  | install (program : Program)
  | sleep (id : String)
  | wake (id : String)
  | close (id : String) (force : Bool)
  /-- A client starts a function. -/
  | call (id function : String)
  /-- The client that waits for an invocation gets to know its exit, if there is one. -/
  | receive (t : Ticket)
  /-- The client that knows the exit of an invocation is told the result. -/
  | conclude (t : Ticket)

namespace Manager

/-- The manager after an operation that may have been refused. -/
def tried (m : Manager σ) : Except ManagerError (Manager σ) → Manager σ
  | .ok m' => m'
  | .error _ => m

/-- The manager with a new process of a program. -/
def install (m : Manager σ) (program : Program) : Manager σ :=
  { m with
    machine := (m.machine.create program).2
    ids := m.ids.insert (idOf m.freeNumber) (m.machine.create program).1
    nextId := m.freeNumber + 1 }

theorem newProcess_eq (m : Manager σ) (fs : Files) (path : String) :
    m.newProcess fs path = do
      let (p, m) ← m.program fs path
      return (idOf m.freeNumber, m.install p) := rfl

end Manager

namespace Clients

/-- Nobody has had anything executed. -/
def new (settings : Settings) (host : σ) : Clients σ := ⟨.new settings host, []⟩

/-- The machine of the manager. -/
def machine (s : Clients σ) : Machine σ := s.manager.machine

/-- The clients with another manager. -/
def withManager (s : Clients σ) (m : Manager σ) : Clients σ := { s with manager := m }

/-- Where an execution stands. -/
def note (s : Clients σ) (t : Ticket) (x : Execution) : Clients σ :=
  { s with executions := s.executions.insert t x }

/-- Sections that concern the process with an id, if there is one. -/
def sectionsOf (s : Clients σ) (id : String) (sections : Handle → List (Section σ)) :
    List (Section σ) :=
  (s.manager.ids.get? id).elim [] sections

end Clients

namespace Move

/-- The clients after a move. -/
def apply : Move σ → Clients σ → Clients σ
  | tick, s => s.withManager { s.manager with machine := s.machine.tick }
  | bind name f, s => s.withManager (s.manager.tried (s.manager.bind name f))
  | start, s => s.withManager (s.manager.tried s.manager.start)
  | load fs path, s => s.withManager (s.manager.tried (Prod.snd <$> s.manager.program fs path))
  | install program, s => s.withManager (s.manager.install program)
  | sleep id, s => s.withManager (s.manager.tried (Prod.snd <$> s.manager.sleep id))
  | wake id, s => s.withManager (s.manager.tried (Prod.snd <$> s.manager.wake id))
  | close id force, s => s.withManager (s.manager.close id force).2
  | call id function, s =>
    match s.manager.call id function with
    | (.ok (some c), m) => (s.withManager m).note c.ticket ⟨c.handle, none, none⟩
    | (_, m) => s.withManager m
  | receive t, s =>
    match s.executions.get? t with
    | some ⟨h, none, none⟩ =>
      (s.withManager { s.manager with machine := (s.machine.poll t).2 }).note t
        ⟨h, (s.machine.poll t).1, none⟩
    | _ => s
  | conclude t, s =>
    match s.executions.get? t with
    | some ⟨h, some exit, none⟩ =>
      (s.withManager (s.manager.conclude ⟨h, t⟩ exit).2).note t
        ⟨h, some exit, some (s.manager.conclude ⟨h, t⟩ exit).1⟩
    | _ => s

/-- The sections of the machine that a move is made of. -/
def sections (s : Clients σ) : Move σ → List (Section σ)
  | tick => [.tick]
  | bind name f => [.bind name f]
  | start => [.run]
  | load _ _ => []
  | install program => [.create program]
  | sleep id => s.sectionsOf id fun h => [.find h, .pause h]
  | wake id => s.sectionsOf id fun h => [.find h, .rouse h false, .mark, .notify]
  | close id force => s.sectionsOf id fun h =>
    if force then [.remove h] else [.finalize h, .mark, .notify]
  | call id function => s.sectionsOf id fun h => [.launch h function, .mark, .notify]
  | receive t =>
    match s.executions.get? t with
    | some ⟨_, none, none⟩ => [.poll t]
    | _ => []
  | conclude t =>
    match s.executions.get? t with
    | some ⟨h, some .completed, none⟩ => [.find h, .takeResult h]
    | _ => []

end Move

/-! ## Moves as sections -/

namespace Machine

theorem poll_eq_of_none {m : Machine σ} {t : Ticket} (hpoll : (m.poll t).1 = none) :
    (m.poll t).2 = m := by
  rw [poll] at hpoll ⊢
  split at hpoll
  · cases hpoll
  · split <;> rfl

theorem start_fst (m : Machine σ) (h : Handle) (name : String) :
    (m.start h name).1 = (m.launch h name).1 := by
  rw [start]
  split
  · next heq => rw [heq]
  · next heq => rw [heq]

end Machine

namespace Manager

theorem machine_tried_bind (m : Manager σ) (name : String) (f : HostFunction σ) :
    (m.tried (m.bind name f)).machine = m.machine.tried (m.machine.bind name f) := by
  rw [bind]
  rcases m.machine.bind name f with e | machine <;> rfl

theorem machine_tried_start (m : Manager σ) :
    (m.tried m.start).machine = m.machine.tried m.machine.run := by
  rw [start]
  rcases m.machine.run with e | machine <;> rfl

/-- Loading a program does not concern the machine. -/
theorem machine_tried_program (m : Manager σ) (fs : Files) (path : String) :
    (m.tried (Prod.snd <$> m.program fs path)).machine = m.machine := by
  rw [program]
  split
  · rfl
  · rcases fs.loadProgram path with e | p <;> rfl

theorem withId_of_none {m : Manager σ} {id : String} (hid : m.ids.get? id = none)
    (op : Machine σ → Handle → Except MachineError (Machine σ)) :
    m.withId id op = .ok (false, m) := by
  rw [withId, hid]

theorem machine_tried_withId {m : Manager σ} {id : String} {h : Handle}
    (hid : m.ids.get? id = some h) (op : Machine σ → Handle → Except MachineError (Machine σ)) :
    (m.tried (Prod.snd <$> m.withId id op)).machine = m.machine.tried (op m.machine h) := by
  rw [withId, hid]
  dsimp only
  rcases op m.machine h with e | machine <;> rfl

theorem machine_close (m : Manager σ) (id : String) (force : Bool) :
    (m.close id force).2.machine =
      (m.tried (Prod.snd <$> m.withId id fun machine h => machine.close h force)).machine := by
  rw [close]
  split
  · next heq => rw [heq]; rfl
  · next heq => rw [heq]; rfl

/-- A call of a process that there is, is a start of it. -/
theorem call_of_some {m : Manager σ} {id : String} {h : Handle} (hid : m.ids.get? id = some h)
    (function : String) :
    m.call id function =
      (match (m.machine.start h function).1 with
        | .ok t => .ok (some ⟨h, t⟩)
        | .error e => .error (.machine e),
      { m with machine := (m.machine.start h function).2 }) := by
  rw [call, hid]
  dsimp only
  rcases m.machine.start h function with ⟨e | t, machine⟩ <;> rfl

theorem conclude_completed (m : Manager σ) (c : Call) :
    (m.conclude c .completed).2.machine =
      m.machine.tried (Prod.snd <$> m.machine.takeResult c.handle) := by
  rw [conclude]
  rcases m.machine.takeResult c.handle with e | ⟨v, machine⟩ <;> rfl

end Manager

namespace Clients

@[simp] theorem machine_withManager (s : Clients σ) (m : Manager σ) :
    (s.withManager m).machine = m.machine := rfl

@[simp] theorem machine_note (s : Clients σ) (t : Ticket) (x : Execution) :
    (s.note t x).machine = s.machine := rfl

theorem get?_note_self (s : Clients σ) (t : Ticket) (x : Execution) :
    (s.note t x).executions.get? t = some x :=
  Table.get?_insert_self _ _ _

theorem get?_note_ne {t t' : Ticket} (hne : t' ≠ t) (s : Clients σ) (x : Execution) :
    (s.note t x).executions.get? t' = s.executions.get? t' :=
  Table.get?_insert_ne hne

theorem sectionsOf_of_none {s : Clients σ} {id : String} (hid : s.manager.ids.get? id = none)
    (sections : Handle → List (Section σ)) : s.sectionsOf id sections = [] := by
  rw [sectionsOf, hid, Option.elim_none]

theorem sectionsOf_of_some {s : Clients σ} {id : String} {h : Handle}
    (hid : s.manager.ids.get? id = some h) (sections : Handle → List (Section σ)) :
    s.sectionsOf id sections = sections h := by
  rw [sectionsOf, hid, Option.elim_some]

end Clients

namespace Move

/-- An operation on the process with an id. -/
theorem after_sectionsOf {s : Clients σ} {id : String} {sections : Handle → List (Section σ)}
    {op : Machine σ → Handle → Except MachineError (Machine σ)}
    (hop : ∀ h, (Site.idle s.machine).after (sections h) = .idle (s.machine.tried (op s.machine h))) :
    (Site.idle s.machine).after (s.sectionsOf id sections) =
      .idle (s.manager.tried (Prod.snd <$> s.manager.withId id op)).machine := by
  rcases hid : s.manager.ids.get? id with _ | h
  · rw [Clients.sectionsOf_of_none hid, Manager.withId_of_none hid]
    rfl
  · rw [Clients.sectionsOf_of_some hid, Manager.machine_tried_withId hid]
    exact hop h

theorem after_call (s : Clients σ) (id function : String) :
    (Site.idle s.machine).after (s.sectionsOf id fun h => [.launch h function, .mark, .notify]) =
      .idle (s.manager.call id function).2.machine := by
  rcases hid : s.manager.ids.get? id with _ | h
  · rw [Clients.sectionsOf_of_none hid, Manager.call, hid]
    rfl
  · rw [Clients.sectionsOf_of_some hid, Manager.call_of_some hid]
    exact s.machine.start_sections h function

/-- Every move is made of sections. -/
theorem after_sections (a : Move σ) (s : Clients σ) :
    (Site.idle s.machine).after (a.sections s) = .idle (a.apply s).machine := by
  cases a with
  | tick => rfl
  | bind name f =>
    rw [apply, Clients.machine_withManager, Manager.machine_tried_bind]
    rfl
  | start =>
    rw [apply, Clients.machine_withManager, Manager.machine_tried_start]
    rfl
  | load fs path =>
    rw [apply, Clients.machine_withManager, Manager.machine_tried_program]
    rfl
  | install program => rfl
  | sleep id => exact after_sectionsOf fun h => s.machine.pause_sections h
  | wake id => exact after_sectionsOf fun h => s.machine.wake_sections h false
  | close id force =>
    rw [apply, Clients.machine_withManager, Manager.machine_close]
    exact after_sectionsOf fun h => s.machine.close_sections h force
  | call id function =>
    refine (after_call s id function).trans ?_
    rw [apply]
    split
    · next heq => rw [heq]; rfl
    · next heq => rw [heq]; rfl
  | receive t =>
    simp only [sections, apply]
    split
    · rfl
    · rfl
  | conclude t =>
    simp only [sections, apply]
    split
    · next h hx =>
      rw [hx]
      dsimp only
      rw [Clients.machine_note, Clients.machine_withManager, Manager.conclude_completed]
      exact s.machine.takeResult_sections h
    · next hnot =>
      split
      · next h exit hx =>
        cases exit with
        | completed => exact absurd hx (hnot h)
        | faulted f => rfl
        | closed => rfl
      · rfl

/-! ## What a move does -/

/-- The move starts or closes the process, or takes its value. -/
def Touches (s : Clients σ) (h : Handle) : Move σ → Prop
  | call id _ | close id _ => s.manager.ids.get? id = some h
  | conclude t => (s.executions.get? t).any fun x => x.handle = h && x.takes
  | _ => False

instance (s : Clients σ) (h : Handle) : (a : Move σ) → Decidable (a.Touches s h)
  | call id _ | close id _ => inferInstanceAs (Decidable (s.manager.ids.get? id = some h))
  | conclude t =>
    inferInstanceAs (Decidable ((s.executions.get? t).any fun x => x.handle = h && x.takes))
  | tick | bind _ _ | start | load _ _ | install _ | sleep _ | wake _ | receive _ =>
    inferInstanceAs (Decidable False)

/-- Why a section is among those of a move. -/
def Explains (s : Clients σ) (a : Move σ) : Section σ → Prop
  | .tick => a = .tick
  | .bind name f => a = .bind name f
  | .poll t => a = .receive t
  | .launch h _ | .finalize h | .remove h | .takeResult h => a.Touches s h
  | _ => True

theorem explains {s : Clients σ} {a : Move σ} {b : Section σ} (hb : b ∈ a.sections s) :
    a.Explains s b := by
  have hof {id : String} {sections : Handle → List (Section σ)} (hb : b ∈ s.sectionsOf id sections) :
      ∃ h, s.manager.ids.get? id = some h ∧ b ∈ sections h := by
    rcases hid : s.manager.ids.get? id with _ | h
    · rw [Clients.sectionsOf_of_none hid] at hb
      exact absurd hb List.not_mem_nil
    · rw [Clients.sectionsOf_of_some hid] at hb
      exact ⟨h, rfl, hb⟩
  cases a with
  | tick | bind =>
    obtain rfl := List.mem_singleton.1 hb
    rfl
  | start | install =>
    obtain rfl := List.mem_singleton.1 hb
    trivial
  | load => exact absurd hb List.not_mem_nil
  | sleep id =>
    obtain ⟨h, -, hb⟩ := hof hb
    simp only [List.mem_cons, List.not_mem_nil, or_false] at hb
    rcases hb with rfl | rfl <;> trivial
  | wake id =>
    obtain ⟨h, -, hb⟩ := hof hb
    simp only [List.mem_cons, List.not_mem_nil, or_false] at hb
    rcases hb with rfl | rfl | rfl | rfl <;> trivial
  | close id force =>
    obtain ⟨h, hid, hb⟩ := hof hb
    cases force with
    | true =>
      obtain rfl := List.mem_singleton.1 hb
      exact hid
    | false =>
      simp only [Bool.false_eq_true, if_false, List.mem_cons, List.not_mem_nil, or_false] at hb
      rcases hb with rfl | rfl | rfl
      · exact hid
      all_goals trivial
  | call id function =>
    obtain ⟨h, hid, hb⟩ := hof hb
    simp only [List.mem_cons, List.not_mem_nil, or_false] at hb
    rcases hb with rfl | rfl | rfl
    · exact hid
    all_goals trivial
  | receive t =>
    rw [sections] at hb
    split at hb
    · obtain rfl := List.mem_singleton.1 hb
      rfl
    · exact absurd hb List.not_mem_nil
  | conclude t =>
    rw [sections] at hb
    split at hb
    · next h hx =>
      simp only [List.mem_cons, List.not_mem_nil, or_false] at hb
      rcases hb with rfl | rfl
      · trivial
      · simp [Explains, Touches, hx, Execution.takes]
    · exact absurd hb List.not_mem_nil

/-- Sections of a move that does not touch a process spare it. -/
theorem spares {s : Clients σ} {a : Move σ} {b : Section σ} {h : Handle} (ha : ¬a.Touches s h)
    (hb : b ∈ a.sections s) : b.Spares h := by
  have hexplains := explains hb
  cases b with
  | launch | takeResult | finalize | remove =>
    rintro rfl
    exact ha hexplains
  | _ => trivial

/-- Where an execution stands after a move: where it was, or at its start, or one move further. -/
theorem executions_apply {s : Clients σ} {a : Move σ} {t : Ticket} {x : Execution}
    (hx : (a.apply s).executions.get? t = some x) :
    s.executions.get? t = some x ∨
      (∃ id function h, a = .call id function ∧ s.manager.ids.get? id = some h ∧
        (s.machine.launch h function).1 = .ok t ∧ x = ⟨h, none, none⟩) ∨
      (a = .receive t ∧ ∃ h, s.executions.get? t = some ⟨h, none, none⟩ ∧
        x = ⟨h, (s.machine.poll t).1, none⟩) ∨
      (a = .conclude t ∧ ∃ h exit, s.executions.get? t = some ⟨h, some exit, none⟩ ∧
        x = ⟨h, some exit, some (s.manager.conclude ⟨h, t⟩ exit).1⟩) := by
  cases a with
  | call id function =>
    rcases hid : s.manager.ids.get? id with _ | h
    · rw [apply, Manager.call, hid] at hx
      exact .inl hx
    · rw [apply, Manager.call_of_some hid, Machine.start_fst] at hx
      rcases hlaunch : (s.manager.machine.launch h function).1 with e | t'
      · rw [hlaunch] at hx
        exact .inl hx
      · rw [hlaunch] at hx
        by_cases ht : t = t'
        · subst ht
          exact .inr (.inl ⟨id, function, h, rfl, hid, hlaunch,
            Option.some.inj (hx.symm.trans (Clients.get?_note_self _ _ _))⟩)
        · exact .inl ((Clients.get?_note_ne ht _ _).symm.trans hx)
  | receive t' =>
    rw [apply] at hx
    split at hx
    · next h hget =>
      by_cases ht : t = t'
      · subst ht
        rw [Clients.get?_note_self, Option.some.injEq] at hx
        exact .inr (.inr (.inl ⟨rfl, h, hget, hx.symm⟩))
      · rw [Clients.get?_note_ne ht] at hx
        exact .inl hx
    · exact .inl hx
  | conclude t' =>
    rw [apply] at hx
    split at hx
    · next h exit hget =>
      by_cases ht : t = t'
      · subst ht
        rw [Clients.get?_note_self, Option.some.injEq] at hx
        exact .inr (.inr (.inr ⟨rfl, h, exit, hget, hx.symm⟩))
      · rw [Clients.get?_note_ne ht] at hx
        exact .inl hx
    · exact .inl hx
  | _ => exact .inl hx

end Move

namespace Clients

/-! ## Clients and chronicles -/

variable {s : Clients σ} {c : Chronicle σ} {a : Move σ} {moves : List (Move σ)} {h : Handle}
  {t : Ticket} {x : Execution}

/-- The clients after some moves. -/
def after : List (Move σ) → Clients σ → Clients σ
  | [], s => s
  | a :: moves, s => after moves (a.apply s)

/-- The sections that some moves are made of. -/
def history : List (Move σ) → Clients σ → List (Section σ)
  | [], _ => []
  | a :: moves, s => a.sections s ++ history moves (a.apply s)

theorem after_append (before behind : List (Move σ)) (s : Clients σ) :
    after (before ++ behind) s = after behind (after before s) := by
  induction before generalizing s with
  | nil => rfl
  | cons a before ih => exact ih (a.apply s)

theorem history_append (before behind : List (Move σ)) (s : Clients σ) :
    history (before ++ behind) s = history before s ++ history behind (after before s) := by
  induction before generalizing s with
  | nil => rfl
  | cons a before ih =>
    rw [List.cons_append, history, history, ih, List.append_assoc]
    rfl

/-- The chronicle is that of the machine on which the clients work, and tells of their
    invocations. An exit that a client has not received waits for it. One that was received is the
    one that was sent; or nothing was sent, and the process is gone. -/
structure Follows (c : Chronicle σ) (s : Clients σ) : Prop where
  sound : c.Sound
  site : c.site = .idle s.machine
  unique : c.Unique
  started : ∀ t x, s.executions.get? t = some x → (x.handle, t) ∈ c.started
  unread : ∀ t x, s.executions.get? t = some x → x.exit = none → c.Unread t
  received : ∀ t x y, s.executions.get? t = some x → x.exit = some y →
    (t, y) ∈ c.sent ∨ (y = .closed ∧ t ∉ c.sent.keys ∧ c.Gone x.handle)

theorem follows_new (settings : Settings) (host : σ) :
    Follows (.new settings host) (new settings host) := by
  have hnone (t : Ticket) (x : Execution) : (new settings host).executions.get? t ≠ some x :=
    fun hx => nomatch (hx : none = some x)
  exact ⟨Chronicle.sound_new settings host, rfl, fun _ _ _ ht => absurd ht List.not_mem_nil,
    fun t x hx => absurd hx (hnone t x), fun t x hx => absurd hx (hnone t x),
    fun t x _ hx => absurd hx (hnone t x)⟩

namespace Follows

theorem machine_eq (hc : Follows c s) : c.machine = s.machine := congrArg Site.machine hc.site

theorem started_apply (hc : Follows c s) (hx : (a.apply s).executions.get? t = some x) :
    (x.handle, t) ∈ (c.after (a.sections s)).started := by
  rcases Move.executions_apply hx with hold | ⟨id, function, h, rfl, hid, hlaunch, rfl⟩ |
    ⟨-, h, hold, rfl⟩ | ⟨-, h, exit, hold, rfl⟩
  · exact Chronicle.mem_started_after (hc.started t x hold) _
  · -- The first section of a call is the start.
    rw [Move.sections, sectionsOf_of_some hid]
    refine Chronicle.mem_started_after (c := c.add (.launch h function)) ?_ [.mark, .notify]
    refine List.mem_append_left _ ?_
    rw [Section.invocations, hc.machine_eq, hlaunch]
    exact List.mem_cons_self
  · exact Chronicle.mem_started_after (hc.started t _ hold) _
  · exact Chronicle.mem_started_after (hc.started t _ hold) _

/-- A new invocation has not ended. -/
theorem unread_launch (hc : Follows c s) {function : String}
    (hlaunch : (s.machine.launch h function).1 = .ok t) : c.Unread t := by
  intro hsent
  obtain ⟨⟨h', ht⟩, -⟩ := hc.sound.resolved t hsent
  rcases s.machine.launch_spec h function with ⟨⟨e, herr⟩, -⟩ | ⟨-, -, -, -, -, ⟨⟨e, herr⟩, -⟩ | ⟨hok, -⟩⟩
  · exact nomatch herr.symm.trans hlaunch
  · exact nomatch herr.symm.trans hlaunch
  · obtain rfl : (⟨s.machine.nextTicket⟩ : Ticket) = t := Except.ok.inj (hok.symm.trans hlaunch)
    exact absurd (hc.machine_eq ▸ ht) (hc.sound.fresh h')

/-- A client that asks for an exit in vain leaves everything as it is. -/
theorem unread_receive (hc : Follows c s)
    (hx : ((Move.receive t).apply s).executions.get? t = some x) (hexit : x.exit = none) :
    (c.after ((Move.receive t).sections s)).Unread t := by
  rw [Move.apply] at hx
  rw [Move.sections]
  split at hx
  · next h hold =>
    rw [get?_note_self, Option.some.injEq] at hx
    subst hx
    have hpoll : (c.machine.poll t).1 = none := hc.machine_eq ▸ hexit
    have hmachine : (c.after [.poll t]).machine = c.machine := Machine.poll_eq_of_none hpoll
    intro ht
    rw [hmachine]
    exact hc.unread t _ hold rfl ht
  · exact hc.unread t x hx hexit

theorem unread_apply (hc : Follows c s) (ha : ∀ name f, a = .bind name f → f.Built)
    (hx : (a.apply s).executions.get? t = some x) (hexit : x.exit = none) :
    (c.after (a.sections s)).Unread t := by
  by_cases hreceive : a = .receive t
  · subst hreceive
    exact hc.unread_receive hx hexit
  · have hbefore : c.Unread t := by
      rcases Move.executions_apply hx with hold | ⟨id, function, h, rfl, hid, hlaunch, rfl⟩ |
        ⟨heq, -⟩ | ⟨-, h, exit, hold, rfl⟩
      · exact hc.unread t x hold hexit
      · exact hc.unread_launch hlaunch
      · exact absurd heq hreceive
      · exact nomatch hexit
    refine hc.sound.preserves (P := fun c => c.Unread t) (fun name f hf => ?_) hbefore
      fun c b hb hsound hunread => hunread.add hsound ?_
    · exact ha name f (Move.explains hf)
    · rintro rfl
      exact hreceive (Move.explains hb)

/-- A client receives the exit that was sent. -/
theorem received_poll (hc : Follows c s) (hx : s.executions.get? t = some ⟨h, none, none⟩) {y : Exit}
    (hpoll : (s.machine.poll t).1 = some y) :
    (t, y) ∈ c.sent ∨ (y = .closed ∧ t ∉ c.sent.keys ∧ c.Gone h) := by
  have ht : (h, t) ∈ c.started := hc.started t _ hx
  rw [← hc.machine_eq] at hpoll
  by_cases hkeys : t ∈ c.sent.keys
  · obtain ⟨y', hy'⟩ := hc.unread t _ hx rfl hkeys
    have hpoll' : (c.machine.poll t).1 = some y' := by rw [Machine.poll, hy']
    obtain rfl : y' = y := Option.some.inj (hpoll'.symm.trans hpoll)
    exact .inl (hc.sound.deposited t y' hy')
  · rcases hc.sound.answered ht hpoll with hsent | ⟨rfl, hkeys' | hgone⟩
    · exact .inl hsent
    · exact absurd hkeys' hkeys
    · exact .inr ⟨rfl, hkeys, (hc.sound.issued h t ht).1, hgone⟩

theorem received_apply (hc : Follows c s) (ha : ∀ name f, a = .bind name f → f.Built)
    (hx : (a.apply s).executions.get? t = some x) {y : Exit} (hexit : x.exit = some y) :
    (t, y) ∈ (c.after (a.sections s)).sent ∨
      (y = .closed ∧ t ∉ (c.after (a.sections s)).sent.keys ∧
        (c.after (a.sections s)).Gone x.handle) := by
  have hbefore : (x.handle, t) ∈ c.started ∧
      ((t, y) ∈ c.sent ∨ (y = .closed ∧ t ∉ c.sent.keys ∧ c.Gone x.handle)) := by
    rcases Move.executions_apply hx with hold | ⟨id, function, h, rfl, hid, hlaunch, rfl⟩ |
      ⟨-, h, hold, rfl⟩ | ⟨-, h, exit, hold, rfl⟩
    · exact ⟨hc.started t x hold, hc.received t x y hold hexit⟩
    · exact nomatch hexit
    · have ht : (h, t) ∈ c.started := hc.started t _ hold
      exact ⟨ht, hc.received_poll hold hexit⟩
    · have ht : (h, t) ∈ c.started := hc.started t _ hold
      exact ⟨ht, hc.received t ⟨h, some exit, none⟩ y hold hexit⟩
  obtain ⟨ht, hsent | ⟨rfl, hunsent, hgone⟩⟩ := hbefore
  · exact .inl (Chronicle.mem_sent_after hsent _)
  · refine .inr ⟨rfl, (hc.sound.preserves
      (P := fun c => (x.handle, t) ∈ c.started ∧ t ∉ c.sent.keys ∧ c.Gone x.handle)
      (fun name f hf => ha name f (Move.explains hf)) ⟨ht, hunsent, hgone⟩ ?_).2⟩
    rintro c b - hsound ⟨ht, hunsent, hgone⟩
    exact ⟨List.mem_append_right _ ht, hgone.unsent_add hsound ht hunsent b, hgone.add hsound.tidy b⟩

/-- One more move. -/
theorem apply (hc : Follows c s) (ha : ∀ name f, a = .bind name f → f.Built) :
    Follows (c.after (a.sections s)) (a.apply s) := by
  have hbuilt : ∀ name f, .bind name f ∈ a.sections s → f.Built :=
    fun name f hf => ha name f (Move.explains hf)
  refine ⟨hc.sound.after hbuilt, ?_, ?_, fun t x hx => hc.started_apply hx,
    fun t x hx hexit => hc.unread_apply ha hx hexit,
    fun t x y hx hexit => hc.received_apply ha hx hexit⟩
  · rw [Chronicle.site_after, hc.site]
    exact a.after_sections s
  · exact hc.sound.preserves hbuilt hc.unique fun c b _ hsound hunique => hunique.add hsound b

/-- Any number of moves. -/
theorem after (hc : Follows c s) (hmoves : ∀ name f, .bind name f ∈ moves → f.Built) :
    Follows (c.after (s.history moves)) (s.after moves) := by
  induction moves generalizing c s with
  | nil => exact hc
  | cons a moves ih =>
    rw [history, Chronicle.after_append]
    refine ih (hc.apply fun name f ha => ?_) fun name f hf => hmoves name f (List.mem_cons_of_mem _ hf)
    exact hmoves name f (ha ▸ List.mem_cons_self)

end Follows

/-! ## The moments of an execution -/

/-- An answer was given when the client was told the result. -/
theorem answered_after {r : Except ManagerError Outcome} (hx : (s.after moves).executions.get? t = some x)
    (hr : x.answer = some r) :
    s.executions.get? t = some x ∨
      ∃ before behind exit, moves = before ++ .conclude t :: behind ∧
        (s.after before).executions.get? t = some ⟨x.handle, some exit, none⟩ ∧
        r = ((s.after before).manager.conclude ⟨x.handle, t⟩ exit).1 := by
  induction moves generalizing s with
  | nil => exact .inl hx
  | cons a moves ih =>
    rcases ih hx with hx | ⟨before, behind, exit, rfl, hbefore, hconclude⟩
    · rcases Move.executions_apply hx with hold | ⟨-, -, h, -, -, -, rfl⟩ | ⟨-, h, -, rfl⟩ |
        ⟨rfl, h, exit, hold, rfl⟩
      · exact .inl hold
      · exact nomatch hr
      · exact nomatch hr
      · exact .inr ⟨[], moves, exit, rfl, hold, (Option.some.inj hr).symm⟩
    · exact .inr ⟨a :: before, behind, exit, rfl, hbefore, hconclude⟩

/-- An exit was sent in a turn of the process. -/
theorem sent_after {y : Exit} (hc : Follows c s) (hmoves : ∀ name f, .bind name f ∈ moves → f.Built)
    (hsent : (t, y) ∈ (c.after (s.history moves)).sent) :
    (t, y) ∈ c.sent ∨
      ∃ past w since, moves = past ++ .tick :: since ∧ (s.after past).machine.stint? = some w ∧
        w.entry.ticket = some t ∧ w.exit = some y := by
  induction moves generalizing c s with
  | nil => exact .inl hsent
  | cons a moves ih =>
    rw [history, Chronicle.after_append] at hsent
    have ha (name : String) (f : HostFunction σ) (heq : a = .bind name f) : f.Built :=
      hmoves name f (heq ▸ List.mem_cons_self)
    rcases ih (hc.apply ha) (fun name f hf => hmoves name f (List.mem_cons_of_mem _ hf)) hsent with
      hsent | ⟨past, w, since, rfl, hstint, hw⟩
    · by_cases htick : a = .tick
      · subst htick
        rcases hc.sound.sent_add .tick with ⟨hsame, -⟩ | ⟨w, t', y', -, hstint, hticket, hexit, -, hcons⟩
        · exact .inl (hsame ▸ hsent)
        · have hsent : (t, y) ∈ (c.add .tick).sent := hsent
          rw [hcons] at hsent
          rcases List.mem_cons.1 hsent with heq | hsent
          · obtain ⟨rfl, rfl⟩ := Prod.mk.inj heq
            exact .inr ⟨[], w, moves, rfl, hc.machine_eq ▸ hstint, hticket, hexit⟩
          · exact .inl hsent
      · rw [Chronicle.sent_after c fun hmem => htick (Move.explains hmem)] at hsent
        exact .inl hsent
    · exact .inr ⟨a :: past, w, since, rfl, hstint, hw⟩

/-! ## Whose answer it is -/

/-- None of the moves starts or closes the process, or takes its value. -/
def LeavesAlone (h : Handle) : List (Move σ) → Clients σ → Prop
  | [], _ => True
  | a :: moves, s => ¬a.Touches s h ∧ LeavesAlone h moves (a.apply s)

instance decidableLeavesAlone (h : Handle) :
    (moves : List (Move σ)) → (s : Clients σ) → Decidable (s.LeavesAlone h moves)
  | [], _ => inferInstanceAs (Decidable True)
  | a :: moves, s =>
    have := decidableLeavesAlone h moves (a.apply s)
    inferInstanceAs (Decidable (¬a.Touches s h ∧ (a.apply s).LeavesAlone h moves))

theorem LeavesAlone.rests (halone : s.LeavesAlone h moves) (hc : Follows c s)
    (hmoves : ∀ name f, .bind name f ∈ moves → f.Built) {v : Option Value}
    (hrests : s.machine.Rests h v) : (s.after moves).machine.Rests h v := by
  induction moves generalizing c s with
  | nil => exact hrests
  | cons a moves ih =>
    refine ih halone.2 (hc.apply fun name f ha => hmoves name f (ha ▸ List.mem_cons_self))
      (fun name f hf => hmoves name f (List.mem_cons_of_mem _ hf)) ?_
    have hsite := a.after_sections s
    have htidy : (Site.idle s.machine).machine.Tidy := hc.machine_eq ▸ hc.sound.tidy
    have hafter := Site.rests_after htidy (fun b hb => Move.spares halone.1 hb) hrests
    rwa [hsite] at hafter

/-- The functions that are bound in some moves. -/
theorem built_history (hmoves : ∀ name f, .bind name f ∈ moves → f.Built) :
    ∀ name f, .bind name f ∈ s.history moves → f.Built := by
  induction moves generalizing s with
  | nil => exact fun _ _ hf => absurd hf List.not_mem_nil
  | cons a moves ih =>
    intro name f hf
    rcases List.mem_append.1 hf with hf | hf
    · exact hmoves name f (Move.explains hf ▸ List.mem_cons_self)
    · exact ih (fun name f hf => hmoves name f (List.mem_cons_of_mem _ hf)) name f hf

/-- What a turn that ends an invocation leaves behind is there as long as the process is left
    alone. -/
theorem Follows.value_eq (hc : Follows c s) {w : Stint σ} (hstint : s.machine.stint? = some w)
    {y : Exit} (hexit : w.exit = some y) (hmoves : ∀ name f, .bind name f ∈ moves → f.Built)
    (halone : (Move.tick.apply s).LeavesAlone w.handle moves) {e : Entry}
    (he : ((Move.tick.apply s).after moves).machine.processes.get? w.handle = some e) :
    e.process.returnValue = w.outcome.process.returnValue := by
  have hstint' : c.machine.stint? = some w := hc.machine_eq ▸ hstint
  have htick : Follows (c.add .tick) (Move.tick.apply s) :=
    hc.apply (a := .tick) fun _ _ ha => nomatch ha
  by_cases hkeys : w.handle ∈ s.machine.processes.keys
  · obtain ⟨hbuilt, hgoing, -⟩ := hc.sound.stint_going hstint'
    have hover : w.outcome.process.Over := by
      rcases Stint.ends hbuilt hgoing with ⟨hnone, -⟩ | ⟨-, -, -, hover, -⟩
      · exact nomatch hnone.symm.trans hexit
      · exact hover
    have hrests : (Move.tick.apply s).machine.Rests w.handle w.outcome.process.returnValue :=
      ⟨w.outcome, Machine.get?_tick_self hstint hkeys, hover.2, rfl⟩
    obtain ⟨e', he', -, hvalue⟩ := halone.rests htick hmoves hrests
    exact Option.some.inj (he'.symm.trans he) ▸ hvalue
  · -- Nobody has the process after that turn.
    have habsent : Machine.pickedEntry? (c.add .tick).machine w.handle = none := by
      rw [← hc.machine_eq] at hkeys
      exact (Machine.pickedEntry?_tick_self hstint').trans (if_neg hkeys)
    have hgiven : w.handle.number < (c.add .tick).machine.nextHandle :=
      Nat.lt_of_lt_of_le (hc.sound.tidy.below _ _ (Machine.of_stint hstint').2.1)
        (Section.tick.later c.site).handles
    have hgone : ((c.add .tick).after ((Move.tick.apply s).history moves)).Gone w.handle :=
      htick.sound.preserves (P := fun c => c.Gone w.handle) (built_history hmoves)
        ⟨hgiven, habsent⟩ fun c b _ hsound hgone => hgone.add hsound.tidy b
    have hget := Machine.pickedEntry?_of_get? he
    rw [← (htick.after hmoves).machine_eq, hgone.absent] at hget
    exact nomatch hget

/-- After the moves `past`, the invocation ends in a turn of its process. -/
structure Ends (s : Clients σ) (past : List (Move σ)) (h : Handle) (t : Ticket) (w : Stint σ)
    (y : Exit) : Prop where
  turn : (s.after past).machine.stint? = some w
  handle : w.handle = h
  ticket : w.entry.ticket = some t
  exit : w.exit = some y
  warranted : w.Warrants y

/-- The exit that was sent for an execution is that of its own invocation. -/
theorem Follows.ends {y : Exit} (hc : Follows c s) (hmoves : ∀ name f, .bind name f ∈ moves → f.Built)
    (hnew : c.sent = []) (ht : (h, t) ∈ (c.after (s.history moves)).started)
    (hsent : (t, y) ∈ (c.after (s.history moves)).sent) :
    ∃ past w since, moves = past ++ .tick :: since ∧ s.Ends past h t w y := by
  rcases sent_after hc hmoves hsent with hold | ⟨past, w, since, rfl, hstint, hticket, hexit⟩
  · exact absurd (hnew ▸ hold) List.not_mem_nil
  · have hpast : Follows (c.after (s.history past)) (s.after past) :=
      hc.after fun name f hf => hmoves name f (List.mem_append_left _ hf)
    obtain ⟨hbuilt, hgoing, t', hticket', hstarted⟩ :=
      hpast.sound.stint_going (hpast.machine_eq ▸ hstint)
    obtain rfl : t' = t := Option.some.inj (hticket'.symm.trans hticket)
    refine ⟨past, w, since, rfl, hstint, ?_, hticket, hexit, ?_⟩
    · have hstarted' : (w.handle, t') ∈
          (c.after (s.history (past ++ .tick :: since))).started := by
        rw [history_append, Chronicle.after_append]
        exact Chronicle.mem_started_after (Table.mem_of_get? hstarted) _
      exact (hc.after hmoves).unique _ _ _ hstarted' ht
    · rcases Stint.ends hbuilt hgoing with ⟨hnone, -⟩ | ⟨y', hexit', -, -, hwarrants⟩
      · exact nomatch hnone.symm.trans hexit
      · exact Option.some.inj (hexit'.symm.trans hexit) ▸ hwarrants

/-- A turn that ends an invocation sends its exit. -/
theorem Ends.mem_sent {past since : List (Move σ)} {w : Stint σ} {y : Exit} (hc : Follows c s)
    (hmoves : ∀ name f, .bind name f ∈ past → f.Built) (hends : s.Ends past h t w y) :
    (t, y) ∈ (c.after (s.history (past ++ .tick :: since))).sent := by
  have hpast := hc.after hmoves
  have hstint : (c.after (s.history past)).machine.stint? = some w := hpast.machine_eq ▸ hends.turn
  have hsent : (t, y) ∈ ((c.after (s.history past)).add .tick).sent := by
    refine List.mem_filterMap.2 ⟨w, List.mem_append_left _ (Option.mem_toList.2 hstint), ?_⟩
    rw [Stint.sent, hends.ticket, hends.exit]
  rw [history_append, Chronicle.after_append]
  exact Chronicle.mem_sent_after hsent _

/-- What the answer to an execution says about its own invocation, at the moment after the moves
    `before` when it is given. -/
def Justified (s : Clients σ) (before : List (Move σ)) (h : Handle) (t : Ticket) :
    Except ManagerError Outcome → Prop
  | .ok (.success v) =>
    ∃ past w since, before = past ++ .tick :: since ∧ s.Ends past h t w .completed ∧
      ((s.after (past ++ [.tick])).LeavesAlone h since →
        v = w.outcome.process.returnValue.getD .unit)
  | .error (.script f) =>
    ∃ past w since, before = past ++ .tick :: since ∧ s.Ends past h t w (.faulted f)
  | .ok .noResult =>
    (∀ past w since y, before = past ++ .tick :: since → ¬s.Ends past h t w y) ∧
      (s.after before).machine.pickedEntry? h = none
  | .error (.machine e) =>
    e = .noSuchProcess h ∧ (s.after before).machine.processes.get? h = none ∧
      ∃ past w since, before = past ++ .tick :: since ∧ s.Ends past h t w .completed
  | .error _ => False

namespace Follows

theorem justified_completed (hc : Follows c s) (hnew : c.sent = [])
    (hmoves : ∀ name f, .bind name f ∈ moves → f.Built)
    (hx : (s.after moves).executions.get? t = some ⟨h, some .completed, none⟩) :
    s.Justified moves h t ((s.after moves).manager.conclude ⟨h, t⟩ .completed).1 := by
  have hafter := hc.after hmoves
  have hsent : (t, .completed) ∈ (c.after (s.history moves)).sent :=
    (hafter.received t _ _ hx rfl).resolve_right fun hclosed => nomatch hclosed.1
  have ht : (h, t) ∈ (c.after (s.history moves)).started := hafter.started t _ hx
  obtain ⟨past, w, since, rfl, hends⟩ := hc.ends hmoves hnew ht hsent
  rcases hget : (s.after (past ++ .tick :: since)).manager.machine.processes.get? h with _ | e
  · have hrefused : ((s.after (past ++ .tick :: since)).manager.conclude ⟨h, t⟩ .completed).1 =
        .error (.machine (.noSuchProcess h)) := by
      rw [Manager.conclude, Machine.takeResult, Machine.visit_eq_error _ hget]
    rw [hrefused]
    exact ⟨rfl, hget, past, w, since, rfl, hends⟩
  · have htaken : ((s.after (past ++ .tick :: since)).manager.conclude ⟨h, t⟩ .completed).1 =
        .ok (.success (e.process.returnValue.getD .unit)) := by
      rw [Manager.conclude, Machine.takeResult, Machine.visit_eq _ hget]
      rfl
    rw [htaken]
    refine ⟨past, w, since, rfl, hends, fun halone => ?_⟩
    have hpast := hc.after fun name f hf => hmoves name f (List.mem_append_left _ hf)
    rw [after_append] at halone hget
    rw [← hends.handle] at halone hget
    rw [hpast.value_eq hends.turn hends.exit (fun name f hf => ?_) halone hget]
    exact hmoves name f (List.mem_append_right _ (List.mem_cons_of_mem _ hf))

theorem justified_closed (hc : Follows c s) (hnew : c.sent = [])
    (hmoves : ∀ name f, .bind name f ∈ moves → f.Built)
    (hx : (s.after moves).executions.get? t = some ⟨h, some .closed, none⟩) :
    s.Justified moves h t (.ok .noResult) := by
  have hafter := hc.after hmoves
  rcases hafter.received t _ _ hx rfl with hsent | ⟨-, hunsent, hgone⟩
  · -- No turn sends such an exit.
    obtain ⟨past, w, since, -, hends⟩ := hc.ends hmoves hnew (hafter.started t _ hx) hsent
    rcases hends.warranted with ⟨heq, -⟩ | ⟨f, heq, -⟩
    · exact nomatch heq
    · exact nomatch heq
  · refine ⟨?_, hafter.machine_eq ▸ hgone.absent⟩
    rintro past w since y rfl hends
    refine hunsent (List.mem_map_of_mem (hends.mem_sent hc fun name f hf => ?_))
    exact hmoves name f (List.mem_append_left _ hf)

end Follows

/-- Whatever clients and the scheduler do, and in whatever order, an answer is one about the
    invocation that was started for it. A fault is its own fault, and without a result it was
    closed. If it was completed, then the client gets its value, provided that the process was left
    alone since; a client of a process that was closed since may be refused instead. -/
theorem answer_justified (settings : Settings) (host : σ) (moves : List (Move σ))
    (hmoves : ∀ name f, .bind name f ∈ moves → f.Built) (t : Ticket) (x : Execution)
    (r : Except ManagerError Outcome)
    (hx : ((new settings host).after moves).executions.get? t = some x) (hr : x.answer = some r) :
    ∃ before behind, moves = before ++ .conclude t :: behind ∧
      (new settings host).Justified before x.handle t r := by
  have hc := follows_new settings host
  rcases answered_after hx hr with hold | ⟨before, behind, exit, rfl, hbefore, rfl⟩
  · exact nomatch (hold : none = some x)
  · refine ⟨before, behind, rfl, ?_⟩
    have hbuilt : ∀ name f, .bind name f ∈ before → f.Built :=
      fun name f hf => hmoves name f (List.mem_append_left _ hf)
    cases exit with
    | completed => exact hc.justified_completed rfl hbuilt hbefore
    | closed => exact hc.justified_closed rfl hbuilt hbefore
    | faulted f =>
      have hafter := hc.after hbuilt
      have hsent := (hafter.received t _ _ hbefore rfl).resolve_right fun hclosed => nomatch hclosed.1
      exact hc.ends hbuilt rfl (hafter.started t ⟨x.handle, some (.faulted f), none⟩ hbefore) hsent

/-! ### Two runs -/

/-- A program with two functions, which return different numbers. -/
def oneOrTwo : Program where
  strings := #[]
  functions := #[.compiled (.ofCode #[.ofInt .pushInt 1, .bare .ret]),
    .compiled (.ofCode #[.ofInt .pushInt 2, .bare .ret])]
  names := [("one", 0), ("two", 1)]

/-- Two clients start functions of two processes, and the first of these is about to end. -/
def aboutToEnd : List (Move Desk) :=
  [.bind "nap" Tool.nap.function, .install oneOrTwo, .install oneOrTwo, .start,
    .call "AAAAAAAAAA" "one", .call "AAAAAAAAAB" "two", .tick, .tick, .tick]

/-- What happens until the first client is told its result. -/
def meanwhile : List (Move Desk) :=
  [.tick, .receive ⟨1⟩, .sleep "AAAAAAAAAA", .conclude ⟨1⟩, .call "AAAAAAAAAB" "one",
    .close "AAAAAAAAAB" true, .tick, .receive ⟨0⟩]

/-- The whole run. -/
def undisturbed : List (Move Desk) := aboutToEnd ++ .tick :: meanwhile ++ [.conclude ⟨0⟩]

theorem answer_justified_undisturbed :
    (∀ name f, .bind name f ∈ undisturbed → f.Built) ∧
      ((new .standard (default : Desk)).after (aboutToEnd ++ [.tick])).LeavesAlone ⟨0⟩ meanwhile ∧
      ((new .standard (default : Desk)).after undisturbed).executions.get? ⟨0⟩ =
        some ⟨⟨0⟩, some .completed, some (.ok (.success (.int 1)))⟩ ∧
      ∃ before behind, undisturbed = before ++ .conclude ⟨0⟩ :: behind ∧
        (new .standard (default : Desk)).Justified before ⟨0⟩ ⟨0⟩ (.ok (.success (.int 1))) := by
  have hbuilt : ∀ name f, .bind name f ∈ undisturbed → f.Built := by
    intro name f hf
    obtain ⟨-, rfl⟩ : name = "nap" ∧ f = Tool.nap.function := by
      simpa [undisturbed, aboutToEnd, meanwhile] using hf
    exact Tool.function_built .nap
  have hx : ((new .standard (default : Desk)).after undisturbed).executions.get? ⟨0⟩ =
      some ⟨⟨0⟩, some .completed, some (.ok (.success (.int 1)))⟩ := by rfl
  exact ⟨hbuilt, by decide +kernel, hx,
    answer_justified .standard default undisturbed hbuilt ⟨0⟩ _ _ hx rfl⟩

/-- The scheduler has some time. -/
def sweeps : List (Move Desk) := .replicate 10 .tick

/-- Two clients use one process, and the second one starts it before the first one has taken its
    value. A third one has received the exit of its invocation when the process is closed. -/
def swap : List (Move Desk) :=
  .install oneOrTwo :: .start :: .call "AAAAAAAAAA" "one" :: sweeps ++
    .receive ⟨0⟩ :: .call "AAAAAAAAAA" "two" :: sweeps ++
    .receive ⟨1⟩ :: .conclude ⟨0⟩ :: .conclude ⟨1⟩ :: .call "AAAAAAAAAA" "one" :: sweeps ++
    [.receive ⟨2⟩, .close "AAAAAAAAAA" true, .conclude ⟨2⟩]

/-- The first client is given the value of the second one, for whom none is left, and the third one
    is refused. -/
theorem answer_swapped :
    (((Chronicle.new .standard (default : Desk)).after
        ((new .standard default).history swap)).stints.map
          fun w => (w.sent, w.outcome.process.returnValue)) =
      [(some (⟨2⟩, .completed), some (.int 1)), (some (⟨1⟩, .completed), some (.int 2)),
        (some (⟨0⟩, .completed), some (.int 1))] ∧
    (((new .standard (default : Desk)).after swap).executions.map
        fun (t, x) => (t, x.handle, x.answer)) =
      [(⟨0⟩, ⟨0⟩, some (.ok (.success (.int 2)))), (⟨1⟩, ⟨0⟩, some (.ok (.success .unit))),
        (⟨2⟩, ⟨0⟩, some (.error (.machine (.noSuchProcess ⟨0⟩))))] :=
  ⟨by decide +kernel, rfl⟩

end Clients

end ScriptMachine
