import ScriptMachine.Proofs.Lifecycle

/-!
# What invocations leave behind

When an invocation ends, its exit is deposited and the process keeps its value. Both stay where
they are until somebody takes them, whatever else happens on the machine.

* `Chronicle.Unread.add`: the exit of an invocation that has ended can be received until it is
  asked for.
* `Chronicle.Gone.unsent_add`: an invocation whose process is gone does not end any more.
* `Site.rests_after`: an inactive process keeps its value until it is started, closed or asked for
  the value.
-/

namespace ScriptMachine

variable {σ : Type}

/-! ## Exits that nobody has received -/

namespace Machine

theorem exits_reach (m : Machine σ) (h : Handle) {op : Process → Process}
    (hop : ∀ p : Process, (op p).frames = p.frames) : (m.reach h op).exits = m.exits := by
  rw [reach_eq hop]
  split
  · rfl
  · split <;> rfl

/-- A section of the scheduler in which no invocation ends. -/
theorem exits_tick {m : Machine σ} (hnone : ∀ w, m.stint? = some w → w.exit = none) :
    m.tick.exits = m.exits := by
  rcases hstint : m.stint? with _ | w
  · rw [tick]
    split
    case h_6 h left awake hphase =>
      rw [turn_of_stint_none hphase hstint]
      rfl
    all_goals rfl
  · have hsent : w.sent = none := by
      rw [Stint.sent, hnone w hstint]
      rcases w.entry.ticket with _ | t <;> rfl
    rw [exits_tick_of_stint hstint, hsent]
    rfl

end Machine

theorem Site.exits_onFound (s : Site σ) (h : Handle) {op : Process → Process}
    (hop : ∀ p : Process, (op p).frames = p.frames) : (s.onFound h op).machine.exits = s.machine.exits := by
  rw [onFound]
  split
  · exact s.machine.exits_reach h hop
  · rfl

/-- Only the scheduler deposits exits, and only by asking for it is an exit taken away. -/
theorem Section.exits_apply {a : Section σ} {t : Ticket} (htick : a ≠ .tick) (hpoll : a ≠ .poll t)
    (s : Site σ) : (a.apply s).machine.exits.get? t = s.machine.exits.get? t := by
  cases a with
  | tick => exact absurd rfl htick
  | poll t' =>
    have hne : t ≠ t' := by
      rintro rfl
      exact hpoll rfl
    simp only [apply, Machine.poll]
    split
    · exact Table.get?_erase_ne hne
    · split <;> rfl
  | run =>
    simp only [apply, Machine.run]
    split <;> rfl
  | bind name f =>
    simp only [apply, Machine.bind]
    split <;> rfl
  | launch h name =>
    rw [machine_launch]
    rcases s.machine.launch_cases h name with heq | ⟨e, p, -, heq⟩
    · rw [heq]
    · rw [heq]
      rfl
  | find h => rw [machine_find]
  | pause h => exact congrArg (Table.get? · t) (s.exits_onFound h fun p => p.kept_pause.frames)
  | rouse h asleep =>
    rw [machine_rouse]
    exact congrArg (Table.get? · t) (s.exits_onFound h fun p => p.wake_frames)
  | takeResult h => exact congrArg (Table.get? · t) (s.exits_onFound h fun _ => rfl)
  | attach h data => exact congrArg (Table.get? · t) (s.exits_onFound h fun _ => rfl)
  | finalize h =>
    rw [machine_finalize, Machine.finalize, Machine.entry]
    split <;> rfl
  | remove h =>
    simp only [apply, Machine.remove, Machine.entry]
    split <;> rfl
  | create program => rfl
  | enqueue h => rfl
  | mark =>
    rw [apply_mark]
    split <;> rfl
  | notify =>
    rw [apply_notify]
    split
    · rfl
    · obtain ⟨scheduler, heq⟩ := s.machine.notify_eq
      rw [heq]

namespace Chronicle

variable {c : Chronicle σ} {a : Section σ} {h : Handle} {t : Ticket} {sections : List (Section σ)}

/-- If the invocation has ended, its exit can still be received. -/
def Unread (c : Chronicle σ) (t : Ticket) : Prop :=
  t ∈ c.sent.keys → ∃ x, c.machine.exits.get? t = some x

theorem Unread.add (hc : c.Sound) (hunread : c.Unread t) (hpoll : a ≠ .poll t) :
    (c.add a).Unread t := by
  intro ht
  rcases hc.sent_add a with ⟨hsame, hnone⟩ | ⟨w, t', x, rfl, hstint, hticket, hexit, -, hcons⟩
  · have hkept : (c.add a).machine.exits.get? t = c.machine.exits.get? t := by
      by_cases htick : a = .tick
      · subst htick
        exact congrArg (Table.get? · t) (Machine.exits_tick (hnone rfl))
      · exact Section.exits_apply htick hpoll c.site
    rw [hkept]
    exact hunread (hsame ▸ ht)
  · -- An exit is deposited when it is sent.
    have hsent : w.sent = some (t', x) := by rw [Stint.sent, hticket, hexit]
    have hexits : (c.add .tick).machine.exits = c.machine.exits.insert t' x := by
      rw [show (c.add .tick).machine = c.machine.tick from rfl, Machine.exits_tick_of_stint hstint,
        hsent]
      rfl
    rw [hexits]
    by_cases hne : t = t'
    · exact ⟨x, hne ▸ Table.get?_insert_self _ _ _⟩
    · rw [Table.get?_insert_ne hne]
      rw [hcons] at ht
      exact hunread ((List.mem_cons.1 ht).resolve_left hne)

/-! ## More about chronicles -/

theorem site_after (c : Chronicle σ) (sections : List (Section σ)) :
    (c.after sections).site = c.site.after sections := by
  induction sections generalizing c with
  | nil => rfl
  | cons a sections ih => exact ih (c.add a)

theorem after_append (c : Chronicle σ) (before behind : List (Section σ)) :
    c.after (before ++ behind) = (c.after before).after behind :=
  List.foldl_append

theorem mem_started_after {x : Handle × Ticket} (hx : x ∈ c.started) (sections : List (Section σ)) :
    x ∈ (c.after sections).started :=
  after_preserves (P := fun c => x ∈ c.started) hx fun _ _ _ hx => List.mem_append_right _ hx

theorem mem_sent_after {x : Ticket × Exit} (hx : x ∈ c.sent) (sections : List (Section σ)) :
    x ∈ (c.after sections).sent :=
  after_preserves (P := fun c => x ∈ c.sent) hx fun _ _ _ hx => Sound.mem_sent_add hx

/-- Without the scheduler no invocation ends. -/
theorem sent_after (c : Chronicle σ) (hsections : .tick ∉ sections) :
    (c.after sections).sent = c.sent := by
  refine after_preserves (P := fun c' => c'.sent = c.sent) rfl fun c' a ha hsent => ?_
  have hstints : a.stints c'.machine = [] := by
    cases a with
    | tick => exact absurd ha hsections
    | _ => rfl
  rw [← hsent, sent, add, hstints]
  rfl

/-- No two processes have had invocations with the same ticket. -/
def Unique (c : Chronicle σ) : Prop :=
  ∀ h h' t, (h, t) ∈ c.started → (h', t) ∈ c.started → h = h'

theorem Unique.add (hc : c.Sound) (hunique : c.Unique) (a : Section σ) : (c.add a).Unique := by
  intro h h' t ht ht'
  rcases List.mem_append.1 ht with ht | ht
  · obtain ⟨rfl, -⟩ := Sound.invocation_spec ht
    rcases List.mem_append.1 ht' with ht' | ht'
    · obtain ⟨name, rfl, -⟩ := Section.mem_invocations ht
      obtain ⟨name', heq, -⟩ := Section.mem_invocations ht'
      exact (Section.launch.inj heq).1
    · exact absurd ht' (hc.fresh h')
  · rcases List.mem_append.1 ht' with ht' | ht'
    · obtain ⟨rfl, -⟩ := Sound.invocation_spec ht'
      exact absurd ht (hc.fresh h)
    · exact hunique h h' t ht ht'

/-- An invocation whose process is gone does not end any more. -/
theorem Gone.unsent_add (hc : c.Sound) (hgone : c.Gone h) (ht : (h, t) ∈ c.started)
    (hunsent : t ∉ c.sent.keys) (a : Section σ) : t ∉ (c.add a).sent.keys := by
  rcases hc.sent_add a with ⟨hsame, -⟩ | ⟨w, t', x, -, hstint, hticket, -, -, hcons⟩
  · rwa [hsame]
  · rw [hcons]
    refine List.not_mem_cons_of_ne_of_not_mem ?_ hunsent
    rintro rfl
    have hget := (Machine.of_stint hstint).2.1
    have hh := hc.owner h t ht _ (Machine.held_of_pickedEntry? hget hticket)
    rw [hh, hgone.absent] at hget
    exact nomatch hget

end Chronicle

/-! ## Values that nobody has taken -/

/-- The process is inactive and has left this value. -/
def Machine.Rests (m : Machine σ) (h : Handle) (v : Option Value) : Prop :=
  ∃ e, m.processes.get? h = some e ∧ e.process.status = .inactive ∧ e.process.returnValue = v

namespace Machine.Rests

variable {m m' : Machine σ} {h : Handle} {v : Option Value}

theorem of_eq (hm : m.Rests h v) (hget : m'.processes.get? h = m.processes.get? h) : m'.Rests h v := by
  obtain ⟨e, he, hstatus, hvalue⟩ := hm
  exact ⟨e, hget.trans he, hstatus, hvalue⟩

/-- A process that does not sleep is not woken. -/
theorem of_leaves {t : Ticket} (hm : m.Rests h v) (hleaves : m.Leaves h t m') : m'.Rests h v := by
  obtain ⟨e, he, hstatus, hvalue⟩ := hm
  obtain ⟨q, hq, hwake⟩ := hleaves.entry e he
  refine ⟨_, hq, ?_, (Process.returnValue_of_wake_eq hwake).trans hvalue⟩
  rcases (Process.Kept.of_wake_eq hwake.symm).status with hsame | hfinal | ⟨-, hasleep⟩ | ⟨-, hawake⟩
  · exact hsame ▸ hstatus
  · exact nomatch hstatus.symm.trans hfinal
  · exact nomatch hstatus.symm.trans hasleep
  · exact nomatch hstatus.symm.trans hawake

/-- An event that does not concern the process. -/
theorem event (hm : m.Rests h v) (horderly : m.Orderly) (event : Event σ)
    (hspares : event.Spares h ⟨m.nextTicket⟩) : (event.apply m).Rests h v := by
  have ⟨e, he, hstatus, _⟩ := hm
  -- Nobody has the next ticket.
  have howner (h' : Handle) (hheld : m.Held h' ⟨m.nextTicket⟩) : h' = h :=
    absurd (horderly.held h' _ hheld) (Nat.lt_irrefl _)
  exact hm.of_leaves (Event.leaves hspares howner he (hstatus ▸ nofun) fun _ => hstatus ▸ nofun)

/-- An operation that leaves an inactive process as it is, or one on another process. -/
theorem reach {h' : Handle} {op : Process → Process} (hm : m.Rests h v)
    (hop : ∀ p : Process, (op p).frames = p.frames)
    (hsame : h' = h → ∀ p : Process, p.status = .inactive →
      (op p).status = .inactive ∧ (op p).returnValue = p.returnValue) :
    (m.reach h' op).Rests h v := by
  rw [reach_eq hop]
  split
  · next e' he' =>
    by_cases hh : h' = h
    · subst hh
      obtain ⟨e, he, hstatus, hvalue⟩ := hm
      obtain rfl := Option.some.inj (he.symm.trans he')
      obtain ⟨hstatus', hvalue'⟩ := hsame rfl e.process hstatus
      exact ⟨_, Table.get?_insert_self _ _ _, hstatus', hvalue'.trans hvalue⟩
    · exact hm.of_eq (Table.get?_insert_ne (Ne.symm hh))
  · split
    · exact hm.of_eq rfl
    · exact hm

theorem onFound {s : Site σ} {h' : Handle} {op : Process → Process} (hs : s.machine.Rests h v)
    (hop : ∀ p : Process, (op p).frames = p.frames)
    (hsame : h' = h → ∀ p : Process, p.status = .inactive →
      (op p).status = .inactive ∧ (op p).returnValue = p.returnValue) :
    (s.onFound h' op).machine.Rests h v := by
  rw [Site.onFound]
  split
  · exact hs.reach hop hsame
  · exact hs

end Machine.Rests

/-- The section does not start, close or remove the process, and does not take its value. -/
def Section.Spares (h : Handle) : Section σ → Prop
  | launch h' _ | takeResult h' | finalize h' | remove h' => h' ≠ h
  | _ => True

theorem Section.Spares.rests {a : Section σ} {s : Site σ} {h : Handle} {v : Option Value}
    (ha : a.Spares h) (horderly : s.machine.Orderly) (hs : s.machine.Rests h v) :
    (a.apply s).machine.Rests h v := by
  cases a with
  | run => exact hs.event horderly .run trivial
  | tick => exact hs.event horderly .tick trivial
  | create program => exact hs.event horderly (.create program) trivial
  | launch h' name =>
    rw [machine_launch]
    exact hs.event horderly (.launch h' name) ha
  | finalize h' =>
    rw [machine_finalize]
    exact hs.event horderly (.finalize h') ha
  | remove h' => exact hs.event horderly (.remove h') ha
  | bind name f =>
    simp only [apply, Machine.bind]
    split
    · exact hs
    · exact hs.of_eq rfl
  | poll t =>
    simp only [apply, Machine.poll]
    split
    · exact hs.of_eq rfl
    · split <;> exact hs
  | find h' =>
    rw [machine_find]
    exact hs
  | pause h' =>
    refine hs.onFound (fun p => p.kept_pause.frames) fun _ p hstatus => ?_
    have hne : p.status ≠ .running := by simp [hstatus]
    rw [Process.pause, if_neg hne]
    exact ⟨hstatus, rfl⟩
  | rouse h' asleep =>
    rw [machine_rouse]
    refine hs.onFound Process.wake_frames fun _ p hstatus => ?_
    have hne : p.status ≠ .sleeping := by simp [hstatus]
    rw [Process.wake_of_ne_sleeping hne]
    exact ⟨hstatus, rfl⟩
  | takeResult h' => exact hs.onFound (fun _ => rfl) fun hh => absurd hh ha
  | attach h' data => exact hs.onFound (fun _ => rfl) fun _ p hstatus => ⟨hstatus, rfl⟩
  | mark =>
    rw [apply_mark]
    split
    · exact hs
    · exact hs.of_eq rfl
  | enqueue h' => exact hs.of_eq rfl
  | notify =>
    rw [apply_notify]
    split
    · exact hs
    · obtain ⟨scheduler, heq⟩ := s.machine.notify_eq
      rw [heq]
      exact hs.of_eq rfl

/-- Sections that spare a process leave it and its value alone. -/
theorem Site.rests_after {s : Site σ} {sections : List (Section σ)} {h : Handle} {v : Option Value}
    (hs : s.machine.Tidy) (hsections : ∀ a ∈ sections, a.Spares h) (hrests : s.machine.Rests h v) :
    (s.after sections).machine.Rests h v := by
  induction sections generalizing s with
  | nil => exact hrests
  | cons a sections ih =>
    have ha := hsections a List.mem_cons_self
    exact ih (Section.tidy hs a) (fun b hb => hsections b (List.mem_cons_of_mem _ hb))
      (ha.rests hs.orderly hrests)

end ScriptMachine
