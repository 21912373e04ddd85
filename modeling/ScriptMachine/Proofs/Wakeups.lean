import ScriptMachine.Proofs.Sections

/-!
# No wake-up is lost

A scheduler that finds nothing to do blocks, and only a notification ends its wait. So whatever
makes a process able to run has to see to it that there is one. This takes several sections, and
the scheduler is at work in between: it may look at a process right before it is woken, take the
signals right before there is a new one, and block right before the notification.

What saves it is that a signal stays until the next sweep begins. The invariant is
`Site.Attentive`: from the moment a process has become able to run behind the back of the
scheduler until it is seen, there is a signal or an operation that has still to leave one
(`Site.Alert`); and if the scheduler is blocked in spite of a signal, then an operation has still
to notify it.

* `Section.heeds`: what the sections of the host keep.
* `Site.Attentive.tick`: what the sections of the scheduler keep, phase by phase.
* `Site.Owes`: a process that was asked to be woken is on the list for the next sweep, or in the
  hands of the scheduler, until it does not sleep any more (`Site.Owes.apply`).
* `Site.blocked_justly`: if the scheduler is blocked and no operation has still to leave a signal
  or to notify it, then there is nothing to do, and nothing was forgotten.
-/

namespace ScriptMachine

variable {σ : Type}

/-- The process is in the table and has the given status. -/
def Machine.Has (m : Machine σ) (h : Handle) (status : Status) : Prop :=
  ∃ e, m.processes.get? h = some e ∧ e.process.status = status

/-- There is a signal for the scheduler. -/
def Machine.Signalled (m : Machine σ) : Prop := m.kicked = true ∨ m.wakes ≠ []

/-- There is a signal, or an operation has still to leave one. -/
def Site.Alert (s : Site σ) : Prop := s.machine.Signalled ∨ 0 < s.unmarked

/-- The scheduler does not miss anything. -/
structure Site.Attentive (s : Site σ) : Prop where
  stopping : s.machine.stopping = false
  /-- As long as nothing has run in a sweep, all running processes have still their turn. -/
  turns : ∀ left, s.machine.scheduler = some (.turns left false) →
    ∀ h, s.machine.Has h .running → h ∈ left ∨ s.Alert
  pruning : s.machine.scheduler = some (.pruning false) →
    ∀ h, s.machine.Has h .running → s.Alert
  resting : s.machine.scheduler = some (.resting false) ∨ s.machine.scheduler = some .blocked →
    ∀ h, s.machine.Has h .running ∨ s.machine.Has h .finalizing → s.Alert
  blocked : s.machine.scheduler = some .blocked → s.machine.Signalled → 0 < s.unnotified

/-! ## Sections of the host -/

/-- What sections of the host do to what the scheduler relies on: nothing that it should know of
    happens without a signal to come. -/
structure Site.Heeds (s s' : Site σ) : Prop where
  stopping : s'.machine.stopping = s.machine.stopping
  /-- The scheduler is where it was, or is started or notified. -/
  scheduler : s'.machine.scheduler = s.machine.scheduler ∨
    ((s.machine.scheduler = none ∨ s.machine.scheduler = some .blocked) ∧
      s'.machine.scheduler = some .top)
  wakes : ∀ h ∈ s.machine.wakes, h ∈ s'.machine.wakes
  alert : s.Alert → s'.Alert
  running : ∀ h, s'.machine.Has h .running → s.machine.Has h .running ∨ s'.Alert
  finalizing : ∀ h, s'.machine.Has h .finalizing → s.machine.Has h .finalizing ∨ s'.Alert
  signalled : s'.machine.Signalled → s.machine.Signalled ∨ 0 < s'.unnotified
  unnotified : s'.machine.scheduler = some .blocked → 0 < s.unnotified → 0 < s'.unnotified

namespace Site

variable {s s' : Site σ} {m : Machine σ} {h : Handle}

/-- The invariant is kept by sections of the host. -/
theorem Attentive.heeds (hs : s.Attentive) (hheeds : s.Heeds s') : s'.Attentive := by
  rcases hheeds.scheduler with hsame | ⟨-, htop⟩
  · refine ⟨hheeds.stopping.trans hs.stopping, fun left hphase h hrunning => ?_,
      fun hphase h hrunning => ?_, fun hphase h hbusy => ?_, fun hphase hsignal => ?_⟩
    · rcases hheeds.running h hrunning with hrunning | halert
      · exact (hs.turns left (hsame ▸ hphase) h hrunning).imp_right hheeds.alert
      · exact .inr halert
    · rcases hheeds.running h hrunning with hrunning | halert
      · exact hheeds.alert (hs.pruning (hsame ▸ hphase) h hrunning)
      · exact halert
    · rcases hbusy with hrunning | hfinalizing
      · rcases hheeds.running h hrunning with hrunning | halert
        · exact hheeds.alert (hs.resting (hsame ▸ hphase) h (.inl hrunning))
        · exact halert
      · rcases hheeds.finalizing h hfinalizing with hfinalizing | halert
        · exact hheeds.alert (hs.resting (hsame ▸ hphase) h (.inr hfinalizing))
        · exact halert
    · rcases hheeds.signalled hsignal with hsignal | hpos
      · exact hheeds.unnotified hphase (hs.blocked (hsame ▸ hphase) hsignal)
      · exact hpos
  · -- The scheduler is at the top of its loop, where it has not looked at anything yet.
    refine ⟨hheeds.stopping.trans hs.stopping, fun left hphase => ?_, fun hphase => ?_,
      fun hphase => ?_, fun hphase => ?_⟩
    all_goals simp [htop] at hphase

end Site

namespace Machine

/-- The scheduler is where it was, and its signals are what they were. -/
structure Apart (m m' : Machine σ) : Prop where
  stopping : m'.stopping = m.stopping
  scheduler : m'.scheduler = m.scheduler
  wakes : m'.wakes = m.wakes
  kicked : m'.kicked = m.kicked

section Apart

variable {m m' : Machine σ} {h h' : Handle} {e : Entry} {status : Status}

theorem Apart.refl (m : Machine σ) : m.Apart m := ⟨rfl, rfl, rfl, rfl⟩

theorem Apart.deposit (hm : m.Apart m') (ticket : Option Ticket) (exit : Option Exit) :
    m.Apart (m'.deposit ticket exit) := by
  rcases ticket with _ | t
  · exact hm
  · rcases exit with _ | x
    · exact hm
    · exact ⟨hm.stopping, hm.scheduler, hm.wakes, hm.kicked⟩

theorem apart_setEntry (m : Machine σ) (h : Handle) (e : Entry) (k : Nat) :
    m.Apart ({ m with nextTicket := k }.setEntry h e) := ⟨rfl, rfl, rfl, rfl⟩

theorem apart_launch (m : Machine σ) (h : Handle) (name : String) :
    m.Apart (m.launch h name).2 := by
  rcases m.launch_cases h name with heq | ⟨e, p, -, heq⟩
  · rw [heq]
    exact .refl m
  · rw [heq]
    exact m.apart_setEntry h _ _

theorem apart_reach (m : Machine σ) (h : Handle) (op : Process → Process) :
    m.Apart (m.reach h op) := by
  rw [reach]
  split
  · exact (m.apart_setEntry h _ m.nextTicket).deposit _ _
  · split
    · next e _ =>
      have hapart : m.Apart { m with picked := m.picked.insert h (e.update (op e.process)).1 } :=
        ⟨rfl, rfl, rfl, rfl⟩
      exact hapart.deposit _ _
    · exact .refl m

theorem apart_finalize (m : Machine σ) (h : Handle) : m.Apart (m.tried (m.finalize h)) := by
  rw [finalize, entry]
  split
  · exact m.apart_setEntry h _ m.nextTicket
  · exact .refl m

theorem apart_remove (m : Machine σ) (h : Handle) : m.Apart (m.tried (m.remove h)) := by
  rw [remove, entry]
  split
  · exact ⟨rfl, rfl, rfl, rfl⟩
  · exact .refl m

theorem apart_poll (m : Machine σ) (t : Ticket) : m.Apart (m.poll t).2 := by
  rw [poll]
  split
  · exact ⟨rfl, rfl, rfl, rfl⟩
  · split
    · exact .refl m
    · exact .refl m

/-! ## What processes do -/

/-- Only the entry that is set can have another status. -/
theorem has_setEntry (hhas : (m.setEntry h e).Has h' status) :
    m.Has h' status ∨ (h' = h ∧ e.process.status = status) := by
  obtain ⟨e', hget, hstatus⟩ := hhas
  have hget : (m.processes.insert h e).get? h' = some e' := hget
  by_cases hh : h' = h
  · subst hh
    rw [Table.get?_insert_self, Option.some.injEq] at hget
    exact .inr ⟨rfl, hget ▸ hstatus⟩
  · rw [Table.get?_insert_ne hh] at hget
    exact .inl ⟨e', hget, hstatus⟩

theorem has_reach {op : Process → Process} (hop : ∀ p : Process, (op p).frames = p.frames)
    (hhas : (m.reach h op).Has h' status) :
    m.Has h' status ∨
      (h' = h ∧ ∃ e, m.processes.get? h = some e ∧ (op e.process).status = status) := by
  rw [reach_eq hop] at hhas
  split at hhas
  · next e hget =>
    rcases has_setEntry hhas with hhas | ⟨hh, hstatus⟩
    · exact .inl hhas
    · exact .inr ⟨hh, e, hget, hstatus⟩
  · split at hhas
    · exact .inl hhas
    · exact .inl hhas

end Apart

end Machine

namespace Site

variable {s s' : Site σ}

/-- Sections that leave the signals alone, and have a signal to come if something has become able
    to run. -/
theorem Heeds.of_apart (hapart : s.machine.Apart s'.machine) (hunmarked : s.unmarked ≤ s'.unmarked)
    (hunnotified : s'.unnotified = s.unnotified)
    (hhas : ∀ h status, status ≠ .sleeping → status ≠ .inactive →
      s'.machine.Has h status → s.machine.Has h status ∨ 0 < s'.unmarked) : s.Heeds s' := by
  have hsignalled : s'.machine.Signalled ↔ s.machine.Signalled := by
    rw [Machine.Signalled, Machine.Signalled, hapart.kicked, hapart.wakes]
  exact ⟨hapart.stopping, .inl hapart.scheduler, fun h hh => hapart.wakes ▸ hh,
    Or.imp hsignalled.2 fun hpos => Nat.lt_of_lt_of_le hpos hunmarked,
    fun h hrunning => (hhas h .running nofun nofun hrunning).imp_right .inr,
    fun h hfinalizing => (hhas h .finalizing nofun nofun hfinalizing).imp_right .inr,
    fun hsignal => .inl (hsignalled.1 hsignal), fun _ hpos => hunnotified ▸ hpos⟩

/-- Nothing has become able to run. -/
theorem Heeds.of_has (hapart : s.machine.Apart s'.machine) (hunmarked : s'.unmarked = s.unmarked)
    (hunnotified : s'.unnotified = s.unnotified)
    (hhas : ∀ h status, status ≠ .sleeping → status ≠ .inactive →
      s'.machine.Has h status → s.machine.Has h status) : s.Heeds s' :=
  .of_apart hapart (Nat.le_of_eq hunmarked.symm) hunnotified
    fun h status hsleeping hinactive hstatus => .inl (hhas h status hsleeping hinactive hstatus)

/-- Something has become able to run, and there will be a signal. -/
theorem Heeds.awaken (hapart : s.machine.Apart s'.machine) (hunmarked : s'.unmarked = s.unmarked)
    (hunnotified : s'.unnotified = s.unnotified) : s.Heeds s'.awaken :=
  .of_apart hapart (hunmarked ▸ Nat.le_succ _) hunnotified
    fun _ _ _ _ _ => .inr (Nat.succ_pos _)

theorem Heeds.refl (s : Site σ) : s.Heeds s := .of_has (.refl s.machine) rfl rfl fun _ _ _ _ => id

/-- An operation that does not make a process able to run. -/
theorem heeds_onFound (s : Site σ) (h : Handle) {op : Process → Process}
    (hframes : ∀ p : Process, (op p).frames = p.frames)
    (hstatus : ∀ e, s.machine.processes.get? h = some e → ∀ status ≠ Status.sleeping,
      (op e.process).status = status → e.process.status = status) :
    s.Heeds (s.onFound h op) := by
  rw [onFound]
  split
  · refine .of_has (s.machine.apart_reach h op) rfl rfl fun h' status hne _ hhas => ?_
    rcases Machine.has_reach hframes hhas with hhas | ⟨rfl, e, hget, heq⟩
    · exact hhas
    · exact ⟨e, hget, hstatus e hget status hne heq⟩
  · exact .refl s

theorem heeds_rouse (s : Site σ) (h : Handle) (asleep : Bool) :
    s.Heeds ((Section.rouse h asleep).apply s) := by
  rw [Section.apply_rouse]
  split
  · next hasleep =>
    rw [onFound, if_pos hasleep.1]
    exact .awaken (s.machine.apart_reach h _) rfl rfl
  · next hawake =>
    by_cases hfound : h ∈ s.found
    · refine s.heeds_onFound h Process.wake_frames fun e hget status _ heq => ?_
      -- The process does not sleep, so waking it changes nothing.
      have hne : e.process.status ≠ .sleeping := by
        refine fun hsleeping => hawake ⟨hfound, ?_⟩
        rw [Machine.asleep, Machine.pickedEntry?_of_get? hget]
        exact decide_eq_true hsleeping
      rwa [Process.wake_of_ne_sleeping hne] at heq
    · rw [onFound, if_neg hfound]
      exact .refl s

theorem heeds_pause (s : Site σ) (h : Handle) : s.Heeds (s.onFound h Process.pause) := by
  refine s.heeds_onFound h (fun p => p.kept_pause.frames) fun e _ status hne heq => ?_
  by_cases hrunning : e.process.status = .running
  · rw [Process.pause, if_pos hrunning] at heq
    exact absurd heq.symm hne
  · rwa [Process.pause, if_neg hrunning] at heq

/-- A new process is inactive. -/
theorem heeds_create (s : Site σ) (program : Program) :
    s.Heeds ((Section.create program).apply s) := by
  refine .of_has ⟨rfl, rfl, rfl, rfl⟩ rfl rfl fun h status _ hne hhas => ?_
  obtain ⟨e, hget, hstatus⟩ := hhas
  have hget : (s.machine.create program).2.processes.get? h = some e := hget
  rw [Machine.create, Table.get?_append] at hget
  rcases Option.or_eq_some_iff.1 hget with hget | ⟨-, hget⟩
  · exact ⟨e, hget, hstatus⟩
  · obtain ⟨-, rfl⟩ := Prod.mk.inj (List.mem_singleton.1 (Table.mem_of_get? hget))
    exact absurd hstatus.symm hne

/-- A start that fails leaves the process inactive. -/
theorem heeds_launch (s : Site σ) (h : Handle) (name : String) :
    s.Heeds ((Section.launch h name).apply s) := by
  have hapart := s.machine.apart_launch h name
  rw [Section.apply_launch]
  split
  · next t m heq =>
    rw [heq] at hapart
    exact .awaken hapart rfl rfl
  · next err m heq =>
    rw [heq] at hapart
    refine .of_has hapart rfl rfl fun h' status _ hne hhas => ?_
    have hspec := s.machine.launch_spec h name
    rw [heq] at hspec
    rcases hspec with ⟨-, rfl⟩ | ⟨e, p, -, -, rfl, ⟨-, hover⟩ | ⟨hok, -⟩⟩
    · exact hhas
    · rcases Machine.has_setEntry hhas with hhas | ⟨-, hstatus⟩
      · exact hhas
      · exact absurd (hstatus.symm.trans hover.2) hne
    · cases hok

theorem heeds_finalize (s : Site σ) (h : Handle) : s.Heeds ((Section.finalize h).apply s) := by
  have hapart := s.machine.apart_finalize h
  rw [Section.apply_finalize]
  split
  · next m heq =>
    rw [heq] at hapart
    exact .awaken hapart rfl rfl
  · exact .refl s

theorem heeds_remove (s : Site σ) (h : Handle) : s.Heeds ((Section.remove h).apply s) := by
  refine .of_has (s.machine.apart_remove h) rfl rfl fun h' status _ _ hhas => ?_
  change (s.machine.tried (s.machine.remove h)).Has h' status at hhas
  rw [Machine.remove, Machine.entry] at hhas
  dsimp only at hhas
  split at hhas
  · obtain ⟨e, hget, hstatus⟩ := hhas
    have hget : (s.machine.processes.erase h).get? h' = some e := hget
    have hh : h' ≠ h := by
      rintro rfl
      rw [Table.get?_erase_self] at hget
      cases hget
    exact ⟨e, Table.get?_erase_ne hh ▸ hget, hstatus⟩
  · exact hhas

theorem heeds_poll (s : Site σ) (t : Ticket) : s.Heeds ((Section.poll t).apply s) := by
  have hprocesses : (s.machine.poll t).2.processes = s.machine.processes := by
    rw [Machine.poll]
    split
    · rfl
    · split <;> rfl
  refine .of_has (s.machine.apart_poll t) rfl rfl fun h status _ _ hhas => ?_
  obtain ⟨e, hget, hstatus⟩ := hhas
  exact ⟨e, hprocesses ▸ hget, hstatus⟩

/-- After a signal there is a notification to come. -/
theorem heeds_mark (s : Site σ) : s.Heeds (Section.mark.apply s) := by
  rw [Section.apply_mark]
  split
  · exact .refl s
  · exact ⟨rfl, .inl rfl, fun _ hh => hh, fun _ => .inl (.inl rfl), fun _ => .inl, fun _ => .inl,
      fun _ => .inr (Nat.succ_pos _), fun _ _ => Nat.succ_pos _⟩

theorem heeds_enqueue (s : Site σ) (h : Handle) : s.Heeds ((Section.enqueue h).apply s) :=
  have hwakes : s.machine.wakes ++ [h] ≠ [] :=
    List.append_ne_nil_of_right_ne_nil _ (List.cons_ne_nil h [])
  ⟨rfl, .inl rfl, fun _ hh => List.mem_append_left _ hh, fun _ => .inl (.inr hwakes),
    fun _ => .inl, fun _ => .inl, fun _ => .inr (Nat.succ_pos _), fun _ _ => Nat.succ_pos _⟩

/-- After a notification the scheduler is not blocked. -/
theorem heeds_notify (s : Site σ) : s.Heeds (Section.notify.apply s) := by
  rw [Section.apply_notify]
  split
  · exact .refl s
  · rw [Machine.notify]
    split
    · next hblocked =>
      refine ⟨rfl, .inr ⟨.inr hblocked, rfl⟩, fun _ hh => hh, id, fun _ => .inl, fun _ => .inl, .inl,
        fun hphase => ?_⟩
      cases hphase
    · next hblocked =>
      exact ⟨rfl, .inl rfl, fun _ hh => hh, id, fun _ => .inl, fun _ => .inl, .inl,
        fun hphase => absurd hphase hblocked⟩

theorem heeds_run (s : Site σ) : s.Heeds (Section.run.apply s) := by
  change s.Heeds (s.withMachine (s.machine.tried s.machine.run))
  rw [Machine.run]
  split
  · exact .refl s
  · next hrunning =>
    have hnone : s.machine.scheduler = none := by simpa [Machine.isRunning] using hrunning
    refine ⟨rfl, .inr ⟨.inl hnone, rfl⟩, fun _ hh => hh, id, fun _ => .inl, fun _ => .inl, .inl,
      fun hphase => ?_⟩
    cases hphase

end Site

/-- Sections of the host heed the scheduler. -/
theorem Section.heeds {a : Section σ} (ha : a ≠ .tick) (s : Site σ) : s.Heeds (a.apply s) := by
  cases a with
  | tick => exact absurd rfl ha
  | run => exact s.heeds_run
  | bind name f =>
    rw [apply, Machine.bind]
    split
    · exact .refl s
    · exact .of_has ⟨rfl, rfl, rfl, rfl⟩ rfl rfl fun _ _ _ _ => id
  | create program => exact s.heeds_create program
  | launch h name => exact s.heeds_launch h name
  | poll t => exact s.heeds_poll t
  | find h =>
    rw [apply_find]
    split
    · exact .of_has (.refl _) rfl rfl fun _ _ _ _ => id
    · exact .refl s
  | pause h => exact s.heeds_pause h
  | rouse h asleep => exact s.heeds_rouse h asleep
  | takeResult h => exact s.heeds_onFound h (fun _ => rfl) fun _ _ _ _ heq => heq
  | attach h data => exact s.heeds_onFound h (fun _ => rfl) fun _ _ _ _ heq => heq
  | finalize h => exact s.heeds_finalize h
  | remove h => exact s.heeds_remove h
  | mark => exact s.heeds_mark
  | enqueue h => exact s.heeds_enqueue h
  | notify => exact s.heeds_notify

/-! ## Sections of the scheduler -/

/-- The scheduler will go on with a sweep, whatever it has seen. -/
def Phase.Eager : Phase → Prop
  | .turns _ awake | .pruning awake | .resting awake => awake = true
  | .blocked => False
  | _ => True

namespace Site

variable {s : Site σ} {m : Machine σ} {phase : Phase} {left : List Handle} {h : Handle}

/-- There is nothing to see to for a scheduler that will go on anyway. -/
theorem attentive_of_eager (hstopping : s.machine.stopping = false)
    (hphase : s.machine.scheduler = some phase) (heager : phase.Eager) : s.Attentive := by
  refine ⟨hstopping, fun left hphase' => ?_, fun hphase' => ?_, fun hphase' => ?_,
    fun hphase' => ?_⟩
  · obtain rfl := Option.some.inj (hphase.symm.trans hphase')
    exact nomatch heager
  · obtain rfl := Option.some.inj (hphase.symm.trans hphase')
    exact nomatch heager
  · rcases hphase' with hphase' | hphase'
    · obtain rfl := Option.some.inj (hphase.symm.trans hphase')
      exact nomatch heager
    · obtain rfl := Option.some.inj (hphase.symm.trans hphase')
      exact heager.elim
  · obtain rfl := Option.some.inj (hphase.symm.trans hphase')
    exact heager.elim

theorem attentive_of_turns (hstopping : s.machine.stopping = false)
    (hphase : s.machine.scheduler = some (.turns left false))
    (hturns : ∀ h, s.machine.Has h .running → h ∈ left ∨ s.Alert) : s.Attentive := by
  refine ⟨hstopping, fun left' hphase' => ?_, fun hphase' => ?_, fun hphase' => ?_, fun hphase' => ?_⟩
  · rw [hphase, Option.some.injEq, Phase.turns.injEq] at hphase'
    exact hphase'.1 ▸ hturns
  all_goals simp [hphase] at hphase'

/-- All processes are picked. -/
theorem attentive_pickAll (hs : s.Attentive) (woken : List Handle) :
    (s.withMachine (s.machine.pickAll woken)).Attentive := by
  refine attentive_of_turns hs.stopping rfl fun h hrunning => .inl ?_
  obtain ⟨e, hget, -⟩ := hrunning
  exact Table.mem_keys_of_get? hget

/-- A turn in which no process runs takes away one that does not. -/
theorem attentive_turn (hs : s.Attentive) {awake : Bool}
    (hphase : s.machine.scheduler = some (.turns (h :: left) awake)) :
    (s.withMachine (s.machine.turn h left awake)).Attentive := by
  rcases hstint : s.machine.stint? with _ | w
  · rw [Machine.turn_of_stint_none hphase hstint]
    rcases awake with _ | _
    · refine attentive_of_turns hs.stopping rfl fun h' hrunning => ?_
      change s.machine.Has h' .running at hrunning
      rcases hs.turns _ hphase h' hrunning with hmem | halert
      · rcases List.mem_cons.1 hmem with rfl | hmem
        · -- This is the process itself; but it does not run.
          obtain ⟨e, hget, hstatus⟩ := hrunning
          simp [Machine.stint?, hphase, Machine.pickedEntry?_of_get? hget, hstatus] at hstint
        · exact .inl hmem
      · exact .inr halert
    · exact attentive_of_eager hs.stopping rfl rfl
  · -- The process has run, and so there will be another sweep.
    obtain ⟨-, -, -, left', awake', hphase'⟩ := Machine.of_stint hstint
    have htick : s.machine.turn h left awake = s.machine.tick := by rw [Machine.tick, hphase]
    rw [htick, Machine.tick_of_stint hstint hphase']
    exact attentive_of_eager hs.stopping rfl rfl

/-- At the end of a sweep all that is running has a signal. -/
theorem attentive_swept (hs : s.Attentive) {awake : Bool}
    (hphase : s.machine.scheduler = some (.turns [] awake)) :
    (s.withMachine (s.machine.moveTo (.pruning awake))).Attentive := by
  rcases awake with _ | _
  · refine ⟨hs.stopping, nofun, fun _ h hrunning => ?_, nofun, nofun⟩
    exact (hs.turns [] hphase h hrunning).resolve_left List.not_mem_nil
  · exact attentive_of_eager hs.stopping rfl rfl

/-- What is finalizing is removed, and what is running has a signal. -/
theorem attentive_prune (hs : s.Attentive) (hnodup : s.machine.processes.keys.Nodup) {awake : Bool}
    (hphase : s.machine.scheduler = some (.pruning awake)) :
    (s.withMachine (s.machine.prune.moveTo (.resting awake))).Attentive := by
  rcases awake with _ | _
  · have hhas (h : Handle) (status : Status) (hhas : s.machine.prune.Has h status) :
        s.machine.Has h status ∧ status ≠ .finalizing := by
      obtain ⟨e, hget, rfl⟩ := hhas
      obtain ⟨hmem, hkept⟩ := List.mem_filter.1 (Table.mem_of_get? hget)
      exact ⟨⟨e, Table.get?_of_mem hnodup hmem, rfl⟩, of_decide_eq_true hkept⟩
    refine ⟨hs.stopping, nofun, nofun, fun _ h hbusy => ?_, nofun⟩
    rcases hbusy with hrunning | hfinalizing
    · exact hs.pruning hphase h (hhas h .running hrunning).1
    · exact absurd rfl (hhas h .finalizing hfinalizing).2
  · exact attentive_of_eager hs.stopping rfl rfl

/-- The scheduler blocks only if there is no signal. -/
theorem attentive_rest (hs : s.Attentive) {awake : Bool}
    (hphase : s.machine.scheduler = some (.resting awake)) :
    (s.withMachine (s.machine.moveTo
      (if awake || s.machine.isSignalled then .top else .blocked))).Attentive := by
  split
  · exact attentive_of_eager hs.stopping rfl trivial
  · next hquiet =>
    simp only [Bool.or_eq_true, not_or, Bool.not_eq_true] at hquiet
    obtain ⟨rfl, hquiet⟩ := hquiet
    refine ⟨hs.stopping, nofun, nofun, fun _ h hbusy => hs.resting (.inl hphase) h hbusy,
      fun _ hsignal => ?_⟩
    rcases hsignal with hkicked | hwakes
    · have hkicked : s.machine.kicked = true := hkicked
      simp [Machine.isSignalled, hkicked] at hquiet
    · have hwakes : s.machine.wakes ≠ [] := hwakes
      simp [Machine.isSignalled, hwakes] at hquiet

/-- The invariant is kept by the scheduler. -/
theorem Attentive.tick (hs : s.Attentive) (hnodup : s.machine.processes.keys.Nodup) :
    (s.withMachine s.machine.tick).Attentive := by
  rcases hphase : s.machine.scheduler with _ | phase
  · have htick : s.machine.tick = s.machine := by rw [Machine.tick, hphase]
    rwa [htick]
  · rw [Machine.tick, hphase]
    cases phase with
    | top =>
      dsimp only
      rw [if_neg (by simp [hs.stopping])]
      exact attentive_of_eager hs.stopping rfl trivial
    | collect => exact attentive_of_eager hs.stopping rfl trivial
    | waking woken => exact attentive_pickAll hs woken
    | turns left awake =>
      rcases left with _ | ⟨h, left⟩
      · exact attentive_swept hs hphase
      · exact attentive_turn hs hphase
    | pruning awake => exact attentive_prune hs hnodup hphase
    | resting awake => exact attentive_rest hs hphase
    | blocked => exact hs
    | stopped => exact hs

theorem Attentive.apply (hs : s.Attentive) (hnodup : s.machine.processes.keys.Nodup)
    (a : Section σ) : (a.apply s).Attentive := by
  by_cases ha : a = .tick
  · subst ha
    exact hs.tick hnodup
  · exact hs.heeds (Section.heeds ha s)

theorem attentive_new (settings : Settings) (host : σ) : (new settings host).Attentive :=
  ⟨rfl, nofun, nofun, nofun, nofun⟩

theorem Attentive.after {sections : List (Section σ)} (hs : s.Attentive) (htidy : s.machine.Tidy) :
    (s.after sections).Attentive := by
  induction sections generalizing s with
  | nil => exact hs
  | cons a sections ih => exact ih (hs.apply htidy.orderly.nodup a) (Section.tidy htidy a)

/-! ## Processes that are to be woken -/

/-- The process is on the list for the next sweep, or the scheduler is about to wake it. -/
def Owes (s : Site σ) (h : Handle) : Prop :=
  h ∈ s.machine.wakes ∨ ∃ woken, s.machine.scheduler = some (.waking woken) ∧ h ∈ woken

end Site

namespace Machine

variable {m : Machine σ} {h h' : Handle} {e : Entry} {table : Table Handle Entry}

theorem sleeping_of_wakeIn (hget : (wakeIn table h').get? h = some e)
    (hsleeping : e.process.status = .sleeping) : table.get? h = some e ∧ h ≠ h' := by
  rw [wakeIn] at hget
  split at hget
  · next e' _ =>
    by_cases hh : h = h'
    · -- A process that is woken does not sleep.
      subst hh
      rw [Table.get?_insert_self, Option.some.injEq] at hget
      subst hget
      by_cases hasleep : e'.process.status = .sleeping
      · simp [Process.wake, hasleep] at hsleeping
      · simp [Process.wake, hasleep] at hsleeping
    · rw [Table.get?_insert_ne hh] at hget
      exact ⟨hget, hh⟩
  · next hnone =>
    refine ⟨hget, ?_⟩
    rintro rfl
    rw [hnone] at hget
    cases hget

/-- What sleeps after all have been woken was not among them. -/
theorem sleeping_of_foldl_wakeIn {woken : List Handle} (hget : (woken.foldl wakeIn table).get? h = some e)
    (hsleeping : e.process.status = .sleeping) : table.get? h = some e ∧ h ∉ woken := by
  induction woken generalizing table with
  | nil => exact ⟨hget, List.not_mem_nil⟩
  | cons h' woken ih =>
    obtain ⟨hget', hmem⟩ := ih hget
    obtain ⟨hget'', hne⟩ := sleeping_of_wakeIn hget' hsleeping
    exact ⟨hget'', List.not_mem_cons_of_ne_of_not_mem hne hmem⟩

/-- Only at the start of a sweep are requests taken off the list. -/
theorem wakes_tick (hphase : m.scheduler ≠ some .collect) : ∀ h ∈ m.wakes, h ∈ m.tick.wakes := by
  intro h hh
  rcases hstint : m.stint? with _ | w
  · rw [tick]
    split
    case h_3 hcollect => exact absurd hcollect hphase
    case h_6 h' left awake hturns =>
      rw [turn_of_stint_none hturns hstint]
      exact hh
    all_goals exact hh
  · obtain ⟨-, -, -, left, awake, hturns⟩ := of_stint hstint
    rw [tick_of_stint hstint hturns]
    exact List.mem_append_left _ hh

end Machine

namespace Site

variable {s : Site σ} {h : Handle} {a : Section σ}

theorem Owes.tick (howes : s.Owes h) :
    (s.withMachine s.machine.tick).Owes h ∨ ¬s.machine.tick.Has h .sleeping := by
  by_cases hcollect : s.machine.scheduler = some .collect
  · -- The scheduler takes the list.
    have htick : s.machine.tick = s.machine.takeSignals := by rw [Machine.tick, hcollect]
    rcases howes with hmem | ⟨woken, hwaking, -⟩
    · exact .inl (.inr ⟨s.machine.wakes, by rw [htick]; rfl, hmem⟩)
    · rw [hcollect] at hwaking
      cases hwaking
  · rcases howes with hmem | ⟨woken, hwaking, hmem⟩
    · exact .inl (.inl (Machine.wakes_tick hcollect h hmem))
    · refine .inr fun hsleeping => ?_
      have htick : s.machine.tick = s.machine.pickAll woken := by rw [Machine.tick, hwaking]
      rw [htick] at hsleeping
      obtain ⟨e, hget, hstatus⟩ := hsleeping
      exact (Machine.sleeping_of_foldl_wakeIn hget hstatus).2 hmem

theorem Owes.heeds {s' : Site σ} (howes : s.Owes h) (hheeds : s.Heeds s') : s'.Owes h := by
  rcases howes with hmem | ⟨woken, hwaking, hmem⟩
  · exact .inl (hheeds.wakes h hmem)
  · rcases hheeds.scheduler with hsame | ⟨hnone | hblocked, -⟩
    · exact .inr ⟨woken, hsame.trans hwaking, hmem⟩
    · exact nomatch hnone.symm.trans hwaking
    · exact nomatch hblocked.symm.trans hwaking

/-- A process that was asked to be woken stays on the list until it does not sleep. -/
theorem Owes.apply (howes : s.Owes h) (a : Section σ) :
    (a.apply s).Owes h ∨ ¬(a.apply s).machine.Has h .sleeping := by
  by_cases ha : a = .tick
  · subst ha
    exact howes.tick
  · exact .inl (howes.heeds (Section.heeds ha s))

/-- If a process is no longer on the list, there was a moment when it did not sleep. -/
theorem Owes.after {sections : List (Section σ)} (howes : s.Owes h)
    (hdone : ¬(s.after sections).Owes h) :
    ∃ past rest, sections = past ++ rest ∧ ¬(s.after past).machine.Has h .sleeping := by
  induction sections generalizing s with
  | nil => exact absurd howes hdone
  | cons a sections ih =>
    rcases howes.apply a with howes | hawake
    · obtain ⟨past, rest, rfl, hawake⟩ := ih howes hdone
      exact ⟨a :: past, rest, rfl, hawake⟩
    · exact ⟨[a], sections, rfl, hawake⟩

end Site

/-- The section asks for the process to be woken: from outside, or by a function of the host that
    is called in a turn. -/
def Section.Asks (m : Machine σ) (h : Handle) : Section σ → Prop
  | enqueue h' => h' = h
  | tick => ∃ w, m.stint? = some w ∧ h ∈ w.turn.wakes
  | _ => False

theorem Section.Asks.owes {a : Section σ} {s : Site σ} {h : Handle} (ha : a.Asks s.machine h) :
    (a.apply s).Owes h := by
  cases a with
  | enqueue h' =>
    obtain rfl : h' = h := ha
    exact .inl (List.mem_append_right _ List.mem_cons_self)
  | tick =>
    obtain ⟨w, hstint, hmem⟩ := ha
    obtain ⟨-, -, -, left, awake, hphase⟩ := Machine.of_stint hstint
    refine .inl ?_
    rw [apply, Machine.tick_of_stint hstint hphase]
    exact List.mem_append_right _ hmem
  | _ => exact ha.elim

/-- If the scheduler is blocked, and no operation of the host stands between a change and the
    notification of it, then no process is running or finalizing, and no request to wake a
    process is left. Every request that was made has been seen to: since then there was a moment
    when the process did not sleep. -/
theorem Site.blocked_justly (settings : Settings) (host : σ) (sections : List (Section σ))
    (hblocked : ((new settings host).after sections).machine.scheduler = some .blocked)
    (hunmarked : ((new settings host).after sections).unmarked = 0)
    (hunnotified : ((new settings host).after sections).unnotified = 0) :
    (∀ h, ¬((new settings host).after sections).machine.Has h .running ∧
      ¬((new settings host).after sections).machine.Has h .finalizing) ∧
    ((new settings host).after sections).machine.wakes = [] ∧
    ∀ before a behind h, sections = before ++ a :: behind →
      a.Asks ((new settings host).after before).machine h →
      ∃ past rest, behind = past ++ rest ∧
        ¬((new settings host).after (before ++ a :: past)).machine.Has h .sleeping := by
  have hs : ((new settings host).after sections).Attentive :=
    (attentive_new settings host).after (Machine.tidy_new settings host)
  have hquiet : ¬((new settings host).after sections).machine.Signalled := by
    intro hsignal
    have hpos := hs.blocked hblocked hsignal
    omega
  have hcalm : ¬((new settings host).after sections).Alert := by
    rintro (hsignal | hpos)
    · exact hquiet hsignal
    · omega
  have hwakes : ((new settings host).after sections).machine.wakes = [] :=
    Classical.byContradiction fun hne => hquiet (.inr hne)
  refine ⟨fun h => ⟨fun hrunning => ?_, fun hfinalizing => ?_⟩, hwakes, ?_⟩
  · exact hcalm (hs.resting (.inr hblocked) h (.inl hrunning))
  · exact hcalm (hs.resting (.inr hblocked) h (.inr hfinalizing))
  · rintro before a behind h rfl hasks
    rw [after_append] at hblocked hwakes
    have hdone : ¬(((new settings host).after before).after (a :: behind)).Owes h := by
      rintro (hmem | ⟨woken, hwaking, -⟩)
      · rw [hwakes] at hmem
        exact absurd hmem List.not_mem_nil
      · exact nomatch hblocked.symm.trans hwaking
    obtain ⟨past, rest, hsplit, hawake⟩ := hasks.owes.after hdone
    refine ⟨past, rest, hsplit, ?_⟩
    rwa [after_append]

namespace Site

/-- Two processes are started. One takes a nap, from which it has asked to be woken; the other is
    put to sleep before its turn. -/
def twoSleepers : List (Section Desk) :=
  [.bind "nap" Tool.nap.function, .create Invocation.napProgram, .create Invocation.sevenProgram,
    .run, .launch ⟨0⟩ "main", .launch ⟨1⟩ "main", .find ⟨1⟩, .pause ⟨1⟩, .mark, .mark, .notify,
    .notify] ++ .replicate 25 .tick

/-- The notification that the second one is to be woken comes late, when the scheduler is
    blocked. -/
def lateNotice : List (Section Desk) := .tick :: .notify :: .replicate 20 .tick

/-- The site after both. -/
def bothWoken : Site Desk :=
  (new .standard (default : Desk)).after (twoSleepers ++ .enqueue ⟨1⟩ :: lateNotice)

theorem blocked_justly_bothWoken :
    bothWoken.machine.scheduler = some .blocked ∧ bothWoken.unmarked = 0 ∧
      bothWoken.unnotified = 0 ∧
      ((new .standard (default : Desk)).after twoSleepers).machine.Has ⟨1⟩ .sleeping ∧
      (∀ h, ¬bothWoken.machine.Has h .running ∧ ¬bothWoken.machine.Has h .finalizing) ∧
      bothWoken.machine.wakes = [] ∧
      ∃ past rest, lateNotice = past ++ rest ∧
        ¬((new .standard (default : Desk)).after
          (twoSleepers ++ .enqueue ⟨1⟩ :: past)).machine.Has ⟨1⟩ .sleeping := by
  have hblocked : bothWoken.machine.scheduler = some .blocked := by decide +kernel
  have hunmarked : bothWoken.unmarked = 0 := by decide +kernel
  have hunnotified : bothWoken.unnotified = 0 := by decide +kernel
  obtain ⟨hcalm, hwakes, hseen⟩ := blocked_justly .standard (default : Desk)
    (twoSleepers ++ .enqueue ⟨1⟩ :: lateNotice) hblocked hunmarked hunnotified
  exact ⟨hblocked, hunmarked, hunnotified, ⟨_, rfl, by decide +kernel⟩, hcalm, hwakes,
    hseen twoSleepers (.enqueue ⟨1⟩) lateNotice ⟨1⟩ rfl rfl⟩

end Site

end ScriptMachine
