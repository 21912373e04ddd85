import ScriptMachine.Proofs.Lifecycle

/-!
# Happenings

Sections are not all that can happen on a site. A host may also visit a process and do to it
whatever it likes, and it may shut the machine down. A happening is any of these (`Happening`), and
a chronicle can be continued by happenings (`Chronicle.extend`). There is no condition on the
functions of the host here.

* `Chronicle.visit_happenings`, `Chronicle.shutdown_happenings`: the operations of a machine that
  take more than sections.
* `Happening.entry_cases`, `Happening.exit_cases`, `Happening.mem_keys`: what can become of a
  process, of the exits and of the table.
* `Machine.Expects`: a process that has left the table and is kept for its turn has this turn in
  the current sweep.
* `Chronicle.Regular`: what is true of every chronicle.
-/

namespace ScriptMachine

variable {σ : Type}

/-! ## Happenings -/

/-- What can happen on a site. -/
inductive Happening (σ : Type) where
  | act (a : Section σ)
  /-- Any operation of the host on a process that was looked up. -/
  | visit (h : Handle) (op : Process → Process)
  /-- A machine that has a scheduler is told to stop. A signal is to follow. -/
  | stop
  /-- A scheduler that has stopped is given up. -/
  | join

namespace Happening

/-- The site after a happening. -/
def apply : Happening σ → Site σ → Site σ
  | act a, s => a.apply s
  | visit h op, s => s.onFound h op
  | stop, s =>
    if s.machine.isRunning then (s.withMachine { s.machine with stopping := true }).awaken else s
  | join, s =>
    if s.machine.scheduler = some .stopped then s.withMachine { s.machine with scheduler := none }
    else s

end Happening

namespace Chronicle

/-- The chronicle with one more happening. -/
def extend (c : Chronicle σ) : Happening σ → Chronicle σ
  | .act a => c.add a
  | x => { c with site := x.apply c.site }

/-- The chronicle with some more happenings. -/
def along (c : Chronicle σ) (xs : List (Happening σ)) : Chronicle σ := xs.foldl extend c

theorem site_extend (c : Chronicle σ) (x : Happening σ) : (c.extend x).site = x.apply c.site := by
  cases x with
  | _ => rfl

theorem machine_extend (c : Chronicle σ) (x : Happening σ) :
    (c.extend x).machine = (x.apply c.site).machine :=
  congrArg Site.machine (c.site_extend x)

/-- What every happening preserves is preserved. -/
theorem along_preserves {P : Chronicle σ → Prop} {c : Chronicle σ} {xs : List (Happening σ)}
    (hc : P c) (hextend : ∀ c, ∀ x ∈ xs, P c → P (c.extend x)) : P (c.along xs) := by
  induction xs generalizing c with
  | nil => exact hc
  | cons x xs ih =>
    exact ih (hextend c x List.mem_cons_self hc) fun c y hy => hextend c y (List.mem_cons_of_mem _ hy)

end Chronicle

/-! ## Shutting down -/

namespace Machine

variable {m : Machine σ}

/-- The number of sections until a scheduler that is told to stop has come to its end. -/
def remaining (m : Machine σ) : Nat :=
  match m.scheduler with
  | some .top => 1
  | some (.resting _) => 2
  | some (.pruning _) => 3
  | some (.turns left _) => left.length + 4
  | some (.waking _) => m.processes.length + 5
  | some .collect => m.processes.length + 6
  | _ => 0

/-- A scheduler that is told to stop does not block. -/
structure Winding (m : Machine σ) : Prop where
  stopping : m.stopping = true
  running : m.scheduler ≠ none
  unblocked : m.scheduler ≠ some .blocked

/-- A turn takes the process from those that are left, and nothing is kept of it. -/
theorem tick_turns {h : Handle} {left : List Handle} {awake : Bool}
    (hphase : m.scheduler = some (.turns (h :: left) awake)) :
    m.tick.picked = m.picked.erase h ∧ m.tick.stopping = m.stopping ∧
      ∃ awake', m.tick.scheduler = some (.turns left awake') := by
  rcases hstint : m.stint? with _ | w
  · have htick : m.tick = m.turn h left awake := by rw [tick, hphase]
    rw [htick, turn_of_stint_none hphase hstint]
    exact ⟨rfl, rfl, awake, rfl⟩
  · obtain ⟨-, -, -, left', awake', hphase'⟩ := of_stint hstint
    obtain ⟨⟨rfl, rfl⟩, rfl⟩ : (h = w.handle ∧ left = left') ∧ awake = awake' := by
      simpa only [Option.some.injEq, Phase.turns.injEq, List.cons.injEq] using
        hphase.symm.trans hphase'
    rw [tick_of_stint hstint hphase']
    exact ⟨rfl, rfl, true, rfl⟩

/-- Every section brings a scheduler that is told to stop nearer to its end. -/
theorem Winding.tick (hm : m.Winding) (hstopped : m.scheduler ≠ some .stopped) :
    m.tick.Winding ∧ m.tick.remaining + 1 = m.remaining := by
  rcases hphase : m.scheduler with _ | phase
  · exact absurd hphase hm.running
  · cases phase with
    | stopped => exact absurd hphase hstopped
    | blocked => exact absurd hphase hm.unblocked
    | turns left awake =>
      rcases left with _ | ⟨h, left⟩
      · refine ⟨⟨?_, ?_, ?_⟩, ?_⟩ <;>
          simp [Machine.tick, hphase, remaining, hm.stopping, moveTo]
      · obtain ⟨-, hstopping, awake', hnext⟩ := tick_turns hphase
        refine ⟨⟨hstopping.trans hm.stopping, ?_, ?_⟩, ?_⟩
        · simp [hnext]
        · simp [hnext]
        · simp [remaining, hnext, hphase]
    | waking woken =>
      have hlength : (woken.foldl wakeIn m.processes).length = m.processes.length := by
        simpa [Table.keys] using congrArg List.length (keys_foldl_wakeIn woken m.processes)
      refine ⟨⟨?_, ?_, ?_⟩, ?_⟩ <;>
        simp [Machine.tick, hphase, remaining, hm.stopping, pickAll, hlength]
    | top | collect | pruning | resting =>
      refine ⟨⟨?_, ?_, ?_⟩, ?_⟩ <;>
        simp [Machine.tick, hphase, remaining, isSignalled, hm.stopping, moveTo, takeSignals, prune]

/-- A scheduler that is told to stop does so. -/
theorem Winding.runUntil (hm : m.Winding) {n : Nat} (hn : m.remaining ≤ n) :
    (m.runUntil (fun _ => false) n).scheduler = some .stopped := by
  induction n generalizing m with
  | zero =>
    by_cases hstopped : m.scheduler = some .stopped
    · exact hstopped
    · have := (hm.tick hstopped).2
      omega
  | succ n ih =>
    by_cases hstopped : m.scheduler = some .stopped
    · have hquiet : m.isQuiet = true := by rw [isQuiet, hstopped]
      rw [Machine.runUntil, hquiet]
      exact hstopped
    · have hquiet : m.isQuiet = false := by
        rw [isQuiet]
        split
        · exact absurd ‹_› hm.running
        · exact absurd ‹_› hm.unblocked
        · exact absurd ‹_› hstopped
        · rfl
      obtain ⟨hwinding, hremaining⟩ := hm.tick hstopped
      rw [Machine.runUntil, hquiet]
      exact ih hwinding (by omega)

theorem winding_kick (hrunning : m.isRunning = true) :
    Winding (kick { m with stopping := true }) := by
  have hsome : m.scheduler ≠ none := by
    intro hnone
    simp [isRunning, hnone] at hrunning
  rw [kick, notify]
  split
  · exact ⟨rfl, by simp, by simp⟩
  · next hblocked => exact ⟨rfl, hsome, hblocked⟩

theorem remaining_le_sweepLength (m : Machine σ) : m.remaining ≤ m.sweepLength := by
  rw [remaining, sweepLength]
  split
  all_goals simp_all [Phase.left]
  all_goals omega

end Machine

namespace Chronicle

theorem along_append (c : Chronicle σ) (xs ys : List (Happening σ)) :
    c.along (xs ++ ys) = (c.along xs).along ys :=
  List.foldl_append

theorem site_ticks {c : Chronicle σ} {m : Machine σ} (hc : c.site = .idle m) (k : Nat) :
    (c.along (.replicate k (.act .tick))).site = .idle (m.after (.replicate k .tick)) := by
  induction k generalizing c m with
  | zero => exact hc
  | succ k ih =>
    refine ih (c := c.extend (.act .tick)) ?_
    rw [site_extend, hc]
    rfl

/-- To carry out an operation on a process is to look it up and to visit it. -/
theorem visit_happenings {c : Chronicle σ} {m : Machine σ} (hc : c.site = .idle m) (h : Handle)
    (op : Process → Process) :
    (c.along [.act (.find h), .visit h op]).site =
      .idle (m.tried (Prod.snd <$> m.visit h fun p => ((), op p))) := by
  change Site.onFound ((Section.find h).apply c.site) h op = _
  rw [hc]
  rcases hget : m.processes.get? h with _ | e
  · rw [Machine.apply_find_of_none m h hget, Machine.visit_eq_error _ hget]
    rfl
  · rw [Machine.apply_find m h hget, Machine.onFound_eq m h hget, Machine.visit_eq _ hget]
    rfl

/-- To shut a machine down is to tell it to stop, to wait for the scheduler, and to give it up. -/
theorem shutdown_happenings {c : Chronicle σ} {m : Machine σ} (hc : c.site = .idle m) :
    ∃ k, (c.along ([.stop, .act .mark, .act .notify] ++ .replicate k (.act .tick) ++ [.join])).site =
      .idle m.shutdown := by
  by_cases hrunning : m.isRunning = true
  · have htold : (c.along [.stop, .act .mark, .act .notify]).site =
        .idle (Machine.kick { m with stopping := true }) := by
      change (Section.notify.apply (Section.mark.apply (Happening.stop.apply c.site))) = _
      rw [hc]
      simp only [Happening.apply, Site.idle, hrunning, if_true]
      rfl
    have hwinding := Machine.winding_kick hrunning
    obtain ⟨k, hk⟩ := Machine.runUntil_eq_after (fun _ => false)
      (Machine.sweepLength (Machine.kick { m with stopping := true }))
      (Machine.kick { m with stopping := true })
    have hstopped := hwinding.runUntil (Machine.remaining_le_sweepLength _)
    refine ⟨k, ?_⟩
    rw [along_append, along_append]
    change Happening.join.apply (Chronicle.along _ (.replicate k (.act .tick))).site = _
    rw [site_ticks htold, ← hk, Machine.shutdown, if_pos hrunning]
    exact if_pos hstopped
  · have hnone : m.scheduler = none := by simpa [Machine.isRunning] using hrunning
    refine ⟨0, ?_⟩
    change Happening.join.apply (Section.notify.apply (Section.mark.apply
      (Happening.stop.apply c.site))) = _
    rw [hc, Machine.shutdown, if_neg hrunning]
    simp [Happening.apply, Section.apply_mark, Section.apply_notify, Site.idle, hrunning, hnone]

end Chronicle

/-! ## What a happening can do -/

namespace Machine

/-- Nothing has changed but the entry of a process, wherever it is, and the exits. -/
structure Sets (m m' : Machine σ) (h : Handle) (e : Entry) : Prop where
  self : m'.pickedEntry? h = some e
  others : ∀ h', h' ≠ h → m'.pickedEntry? h' = m.pickedEntry? h'
  keys : m'.processes.keys = m.processes.keys
  picked : m'.picked.keys = m.picked.keys
  left : m'.left = m.left

section Reach

variable {m m' : Machine σ} {h : Handle} {e : Entry}

theorem Sets.deposit (hm : m.Sets m' h e) (ticket : Option Ticket) (exit : Option Exit) :
    m.Sets (m'.deposit ticket exit) h e := by
  rcases ticket with _ | t
  · exact hm
  · rcases exit with _ | x
    · exact hm
    · exact ⟨hm.self, hm.others, hm.keys, hm.picked, hm.left⟩

theorem sets_setEntry (hh : h ∈ m.processes.keys) (e : Entry) : m.Sets (m.setEntry h e) h e where
  self := pickedEntry?_setEntry_self m h e
  others _ hne := pickedEntry?_setEntry_ne hne m e
  keys := Table.keys_insert_of_mem hh
  picked := rfl
  left := rfl

theorem sets_picked (hget : m.processes.get? h = none) (hh : h ∈ m.picked.keys) (e : Entry) :
    m.Sets { m with picked := m.picked.insert h e } h e where
  self := by rw [ pickedEntry?, hget, Option.none_or, Table.get?_insert_self]
  others h' hne := by rw [ pickedEntry?, pickedEntry?, Table.get?_insert_ne hne]
  keys := rfl
  picked := Table.keys_insert_of_mem hh
  left := rfl

/-- An operation on a process that nobody has any more does nothing. Else the operation is
    carried out. -/
theorem reach_cases (m : Machine σ) (h : Handle) (op : Process → Process) :
    m.reach h op = m ∨
      ∃ e, m.pickedEntry? h = some e ∧ m.Sets (m.reach h op) h (e.update (op e.process)).1 := by
  rw [reach]
  split
  · next e hget =>
    have hsets := sets_setEntry (Table.mem_keys_of_get? hget) (e.update (op e.process)).1
    exact .inr ⟨e, pickedEntry?_of_get? hget, hsets.deposit _ _⟩
  · next hnone =>
    split
    · next e hpicked =>
      have hsets := sets_picked hnone (Table.mem_keys_of_get? hpicked) (e.update (op e.process)).1
      exact .inr ⟨e, (pickedEntry?_of_none hnone).trans hpicked, hsets.deposit _ _⟩
    · exact .inl rfl

/-- What is deposited after an operation on a process. -/
theorem get?_deposit_update {p : Process} {t : Ticket} {x : Exit}
    (hx : (m.deposit e.ticket (e.update p).2).exits.get? t = some x) :
    m.exits.get? t = some x ∨ (e.ticket = some t ∧ e.process.frames ≠ [] ∧ p.frames = []) := by
  by_cases hleft : e.process.frames ≠ [] ∧ p.frames = []
  · rcases hticket : e.ticket with _ | t'
    · rw [hticket] at hx
      exact .inl hx
    · rw [hticket, Entry.update, if_pos hleft] at hx
      by_cases ht : t = t'
      · exact .inr ⟨ht ▸ rfl, hleft⟩
      · exact .inl ((Table.get?_insert_ne ht).symm.trans hx)
  · rw [Entry.update, if_neg hleft, deposit_none] at hx
    exact .inl hx

/-- An operation on a process ends its invocation if it leaves the last frame. -/
theorem exit_of_reach {op : Process → Process} {t : Ticket} {x : Exit}
    (hx : (m.reach h op).exits.get? t = some x) :
    m.exits.get? t = some x ∨
      ∃ e, m.pickedEntry? h = some e ∧ e.ticket = some t ∧ e.process.frames ≠ [] ∧
        (op e.process).frames = [] := by
  rw [reach] at hx
  split at hx
  · next e hget =>
    exact (get?_deposit_update hx).imp_right fun hend => ⟨e, pickedEntry?_of_get? hget, hend⟩
  · next hnone =>
    split at hx
    · next e hpicked =>
      exact (get?_deposit_update hx).imp_right
        fun hend => ⟨e, (pickedEntry?_of_none hnone).trans hpicked, hend⟩
    · exact .inl hx

end Reach

end Machine

namespace Happening

variable {s : Site σ} {h : Handle} {e' : Entry}

theorem later (x : Happening σ) (s : Site σ) : s.machine.Later (x.apply s).machine := by
  cases x with
  | act a => exact a.later s
  | visit h op => exact s.later_onFound h op
  | stop =>
    rw [apply]
    split
    · exact .of_eq rfl rfl rfl rfl rfl
    · exact .refl s.machine
  | join =>
    rw [apply]
    split
    · exact .of_eq rfl rfl rfl rfl rfl
    · exact .refl s.machine

/-- The kinds of happenings: all is kept, a process is visited, a process is created or started,
    or it is the turn of a running process. -/
theorem kinds (hs : s.machine.Tidy) (x : Happening σ) :
    s.machine.Quiet (x.apply s).machine ∨
      (∃ h op, x = .visit h op ∧ (x.apply s).machine = s.machine.reach h op) ∨
      (∃ program, x = .act (.create program)) ∨ (∃ h name, x = .act (.launch h name)) ∨
      (x = .act .tick ∧ ∃ w, s.machine.stint? = some w) := by
  cases x with
  | act a =>
    rcases a.plain_or s.machine with hplain | ⟨program, rfl⟩ | ⟨h, name, rfl⟩ | ⟨rfl, w, hstint⟩
    · exact .inl (Section.quiet hplain hs.orderly.nodup hs.apart)
    · exact .inr (.inr (.inl ⟨program, rfl⟩))
    · exact .inr (.inr (.inr (.inl ⟨h, name, rfl⟩)))
    · exact .inr (.inr (.inr (.inr ⟨rfl, w, hstint⟩)))
  | visit h op =>
    rw [apply, Site.onFound]
    split
    · exact .inr (.inl ⟨h, op, rfl, rfl⟩)
    · exact .inl (.refl s.machine)
  | stop =>
    rw [apply]
    split
    · exact .inl (.of_eq rfl rfl rfl)
    · exact .inl (.refl s.machine)
  | join =>
    rw [apply]
    split
    · exact .inl (.of_eq rfl rfl rfl)
    · exact .inl (.refl s.machine)

/-- What a happening makes of a process that is there: it is kept as it is, or it is visited,
    started, or has its turn. -/
inductive Becomes (s : Site σ) (h : Handle) (e : Entry) : Happening σ → Entry → Prop where
  | kept {x : Happening σ} {e' : Entry} (hkept : e.Kept e') : Becomes s h e x e'
  | visited (op : Process → Process) : Becomes s h e (.visit h op) (e.update (op e.process)).1
  | started {name : String} {e' : Entry} (hinactive : e.process.status = .inactive)
      (hticket : e'.ticket = some ⟨s.machine.nextTicket⟩) :
      Becomes s h e (.act (.launch h name)) e'
  | stint {w : Stint σ} (hstint : s.machine.stint? = some w) (hhandle : w.handle = h)
      (hentry : w.entry = e) : Becomes s h e (.act .tick) w.outcome

/-- Whatever is there after a happening is new, or has become of what was there before. -/
theorem entry_cases (hs : s.machine.Tidy) {x : Happening σ}
    (he' : Machine.pickedEntry? (x.apply s).machine h = some e') :
    (h = ⟨s.machine.nextHandle⟩ ∧ e'.ticket = none ∧ ∃ program, x = .act (.create program)) ∨
      ∃ e, s.machine.pickedEntry? h = some e ∧ Becomes s h e x e' := by
  rcases x.kinds hs with hquiet | ⟨h', op, rfl, hmachine⟩ | ⟨program, rfl⟩ | ⟨h', name, rfl⟩ |
    ⟨rfl, w, hstint⟩
  · obtain ⟨e, he, hkept⟩ := hquiet.entries h e' he'
    exact .inr ⟨e, he, .kept hkept⟩
  · rw [hmachine] at he'
    rcases s.machine.reach_cases h' op with hsame | ⟨e, he, hsets⟩
    · rw [hsame] at he'
      exact .inr ⟨e', he', .kept (.refl e')⟩
    · by_cases hh : h = h'
      · subst hh
        obtain rfl := Option.some.inj (hsets.self.symm.trans he')
        exact .inr ⟨e, he, .visited op⟩
      · exact .inr ⟨e', (hsets.others h hh).symm.trans he', .kept (.refl e')⟩
  · by_cases hh : h = ⟨s.machine.nextHandle⟩
    · subst hh
      have hself := Machine.pickedEntry?_create_self hs.pickedEntry?_new program
      obtain rfl := Option.some.inj (hself.symm.trans he')
      exact .inl ⟨rfl, rfl, program, rfl⟩
    · exact .inr ⟨e', (Machine.pickedEntry?_create_ne hh program).symm.trans he', .kept (.refl e')⟩
  · have hmachine : ((act (.launch h' name)).apply s).machine = (s.machine.launch h' name).2 :=
      Section.machine_launch s h' name
    rw [hmachine] at he'
    rcases s.machine.launch_spec h' name with ⟨-, heq⟩ | ⟨e, p, hget, hinactive, heq, -⟩
    · rw [heq] at he'
      exact .inr ⟨e', he', .kept (.refl e')⟩
    · rw [heq] at he'
      by_cases hh : h = h'
      · subst hh
        rw [Machine.pickedEntry?_setEntry_self, Option.some.injEq] at he'
        subst he'
        exact .inr ⟨e, Machine.pickedEntry?_of_get? hget, .started hinactive rfl⟩
      · rw [Machine.pickedEntry?_setEntry_ne hh] at he'
        exact .inr ⟨e', he', .kept (.refl e')⟩
  · have he' : s.machine.tick.pickedEntry? h = some e' := he'
    by_cases hh : h = w.handle
    · subst hh
      rw [Machine.pickedEntry?_tick_self hstint] at he'
      split at he'
      · obtain rfl := Option.some.inj he'
        exact .inr ⟨w.entry, (Machine.of_stint hstint).2.1, .stint hstint rfl rfl⟩
      · exact nomatch he'
    · exact .inr ⟨e', (Machine.pickedEntry?_tick_ne hstint hh).symm.trans he', .kept (.refl e')⟩

/-- Where a deposited exit comes from: it was there before, or it was sent in a turn, or a visit
    has left the last frame. -/
theorem exit_cases (hs : s.machine.Tidy) {x : Happening σ} {t : Ticket} {exit : Exit}
    (hexit : (x.apply s).machine.exits.get? t = some exit) :
    s.machine.exits.get? t = some exit ∨
      (∃ w, x = .act .tick ∧ s.machine.stint? = some w ∧ w.sent = some (t, exit)) ∨
      ∃ h op e, x = .visit h op ∧ s.machine.pickedEntry? h = some e ∧ e.ticket = some t ∧
        e.process.frames ≠ [] ∧ (op e.process).frames = [] := by
  rcases x.kinds hs with hquiet | ⟨h, op, rfl, hmachine⟩ | ⟨program, rfl⟩ | ⟨h, name, rfl⟩ |
    ⟨rfl, w, hstint⟩
  · exact .inl (hquiet.exits t exit hexit)
  · rw [hmachine] at hexit
    exact (Machine.exit_of_reach hexit).imp_right fun ⟨e, hend⟩ => .inr ⟨h, op, e, rfl, hend⟩
  · exact .inl hexit
  · have hmachine : ((act (.launch h name)).apply s).machine = (s.machine.launch h name).2 :=
      Section.machine_launch s h name
    rw [hmachine] at hexit
    rcases s.machine.launch_cases h name with heq | ⟨e, p, -, heq⟩
    · exact .inl (heq ▸ hexit)
    · rw [heq] at hexit
      exact .inl hexit
  · have hexit : s.machine.tick.exits.get? t = some exit := hexit
    rw [Machine.exits_tick_of_stint hstint] at hexit
    rcases hsent : w.sent with _ | ⟨t', exit'⟩
    · rw [hsent] at hexit
      exact .inl hexit
    · rw [hsent] at hexit
      by_cases ht : t = t'
      · subst ht
        obtain rfl := Option.some.inj ((Table.get?_insert_self _ _ _).symm.trans hexit)
        exact .inr (.inl ⟨w, rfl, hstint, hsent⟩)
      · exact .inl ((Table.get?_insert_ne ht).symm.trans hexit)

/-- The processes of the table were there before, or are new. -/
theorem mem_keys (hs : s.machine.Tidy) {x : Happening σ}
    (hh : h ∈ (x.apply s).machine.processes.keys) :
    h ∈ s.machine.processes.keys ∨ h = ⟨s.machine.nextHandle⟩ := by
  rcases x.kinds hs with hquiet | ⟨h', op, rfl, hmachine⟩ | ⟨program, rfl⟩ | ⟨h', name, rfl⟩ |
    ⟨rfl, w, hstint⟩
  · exact .inl (hquiet.keys h hh)
  · rw [hmachine] at hh
    rcases s.machine.reach_cases h' op with hsame | ⟨e, he, hsets⟩
    · exact .inl (hsame ▸ hh)
    · exact .inl (hsets.keys ▸ hh)
  all_goals exact (Section.mem_keys_apply hs hh).imp_right fun hh => (Section.mem_handles hh).1

theorem tidy (hs : s.machine.Tidy) (x : Happening σ) : (x.apply s).machine.Tidy := by
  have hlater := x.later s
  refine ⟨hs.orderly.later hlater, fun h hh hpicked => ?_, fun h e he => ?_⟩
  · rcases x.kinds hs with hquiet | ⟨h', op, rfl, hmachine⟩ | ⟨program, rfl⟩ | ⟨h', name, rfl⟩ |
      ⟨rfl, w, hstint⟩
    · exact hs.apart h (hquiet.keys h hh) (hquiet.apart h hh hpicked)
    · rw [hmachine] at hh hpicked
      rcases s.machine.reach_cases h' op with hsame | ⟨e, he, hsets⟩
      · rw [hsame] at hh hpicked
        exact hs.apart h hh hpicked
      · exact hs.apart h (hsets.keys ▸ hh) (hsets.picked ▸ hpicked)
    all_goals exact Section.apart_apply hs h hh hpicked
  · rcases entry_cases hs he with ⟨rfl, -, program, rfl⟩ | ⟨e₀, he₀, -⟩
    · exact Nat.lt_succ_self _
    · exact Nat.lt_of_lt_of_le (hs.below h e₀ he₀) hlater.handles

end Happening

/-! ## Who has still a turn -/

namespace Machine

/-- Whatever is kept for its turn has it in the current sweep. -/
def Expects (m : Machine σ) : Prop := ∀ h ∈ m.picked.keys, h ∈ m.left

section Expects

variable {m m' : Machine σ}

theorem Expects.of_eq (hm : m.Expects) (hpicked : m'.picked.keys = m.picked.keys)
    (hleft : m'.left = m.left) : m'.Expects :=
  fun h hh => hleft ▸ hm h (hpicked ▸ hh)

/-- Between two sweeps nothing is kept. -/
theorem Expects.of_nil (hm : m.Expects) (hleft : m.left = []) (hpicked : m'.picked = m.picked) :
    m'.Expects := by
  intro h hh
  have hmem := hm h (hpicked ▸ hh)
  rw [hleft] at hmem
  exact absurd hmem List.not_mem_nil

theorem Expects.tick (hm : m.Expects) : m.tick.Expects := by
  rcases hphase : m.scheduler with _ | phase
  · have htick : m.tick = m := by rw [Machine.tick, hphase]
    rwa [htick]
  · have hleft : m.left = phase.left := by
      rw [left, hphase]
      rfl
    cases phase with
    | turns left awake =>
      rcases left with _ | ⟨h, left⟩
      · refine hm.of_nil hleft ?_
        simp only [Machine.tick, hphase]
        rfl
      · obtain ⟨hpicked, -, awake', hnext⟩ := tick_turns hphase
        have hleft' : m.tick.left = left := by
          rw [Machine.left, hnext]
          rfl
        intro h' hh'
        rw [hpicked] at hh'
        rw [hleft']
        have hmem : h' ∈ m.left := hm h' ((Table.keys_erase_sublist _ h).subset hh')
        rw [hleft] at hmem
        refine (List.mem_cons.1 hmem).resolve_left ?_
        rintro rfl
        exact Table.get?_eq_none_iff.1 (Table.get?_erase_self m.picked h') hh'
    | blocked | stopped =>
      refine hm.of_nil hleft ?_
      simp only [Machine.tick, hphase]
    | _ =>
      refine hm.of_nil hleft ?_
      simp only [Machine.tick, hphase]
      rfl

theorem Expects.reach (hm : m.Expects) (h : Handle) (op : Process → Process) :
    (m.reach h op).Expects := by
  rcases m.reach_cases h op with hsame | ⟨e, -, hsets⟩
  · rwa [hsame]
  · exact hm.of_eq hsets.picked hsets.left

/-- A process is kept only if it has still its turn. -/
theorem Expects.remove (hm : m.Expects) (h : Handle) : (m.tried (m.remove h)).Expects := by
  rw [Machine.remove, entry]
  split
  · next e _ =>
    simp only [Bind.bind, Except.bind, pure, Except.pure, tried]
    intro h' hh'
    by_cases hleft : h ∈ m.scheduler.elim [] Phase.left
    · simp only [if_pos hleft] at hh'
      rcases Table.mem_keys_insert.1 hh' with rfl | hh'
      · exact hleft
      · exact hm h' hh'
    · simp only [if_neg hleft] at hh'
      exact hm h' hh'
  · exact hm

end Expects

end Machine

theorem Site.expects_onFound {s : Site σ} (hs : s.machine.Expects) (h : Handle)
    (op : Process → Process) : (s.onFound h op).machine.Expects := by
  rw [onFound]
  split
  · exact hs.reach h op
  · exact hs

theorem Section.expects {s : Site σ} (hs : s.machine.Expects) (a : Section σ) :
    (a.apply s).machine.Expects := by
  cases a with
  | tick => exact hs.tick
  | remove h => exact hs.remove h
  | pause h => exact Site.expects_onFound hs h _
  | rouse h asleep =>
    rw [machine_rouse]
    exact Site.expects_onFound hs h _
  | takeResult h => exact Site.expects_onFound hs h _
  | attach h data => exact Site.expects_onFound hs h _
  | create program => exact hs.of_eq rfl rfl
  | enqueue h => exact hs.of_eq rfl rfl
  | find h =>
    rw [machine_find]
    exact hs
  | run =>
    refine hs.of_eq ?_ (Event.left_apply (e := .run) nofun nofun)
    simp only [apply, Machine.run]
    split <;> rfl
  | bind name f =>
    simp only [apply, Machine.bind]
    split
    · exact hs
    · exact hs.of_eq rfl rfl
  | launch h name =>
    rw [machine_launch]
    rcases s.machine.launch_cases h name with hsame | ⟨e, p, -, heq⟩
    · rwa [hsame]
    · rw [heq]
      exact hs.of_eq rfl rfl
  | poll t =>
    simp only [apply, Machine.poll]
    split
    · exact hs.of_eq rfl rfl
    · split <;> exact hs
  | finalize h =>
    rw [machine_finalize, Machine.finalize, Machine.entry]
    split
    · exact hs.of_eq rfl rfl
    · exact hs
  | mark =>
    rw [apply_mark]
    split
    · exact hs
    · exact hs.of_eq rfl rfl
  | notify =>
    rw [apply_notify]
    split
    · exact hs
    · refine hs.of_eq ?_ s.machine.left_notify
      obtain ⟨scheduler, heq⟩ := s.machine.notify_eq
      rw [heq]

theorem Happening.expects {s : Site σ} (hs : s.machine.Expects) (x : Happening σ) :
    (x.apply s).machine.Expects := by
  cases x with
  | act a => exact a.expects hs
  | visit h op => exact Site.expects_onFound hs h op
  | stop =>
    rw [apply]
    split
    · exact hs.of_eq rfl rfl
    · exact hs
  | join =>
    rw [apply]
    split
    · next hstopped => exact hs.of_nil (by rw [Machine.left, hstopped]; rfl) rfl
    · exact hs

/-! ## Every chronicle -/

/-- Tickets are kept or dropped; only a start gives a new one. -/
theorem Happening.ticket_cases {s : Site σ} (hs : s.machine.Tidy) {x : Happening σ} {h : Handle}
    {e' : Entry} {t : Ticket} (he' : Machine.pickedEntry? (x.apply s).machine h = some e')
    (ht : e'.ticket = some t) :
    (∃ e, s.machine.pickedEntry? h = some e ∧ e.ticket = some t) ∨
      (t = ⟨s.machine.nextTicket⟩ ∧ ∃ name, x = .act (.launch h name)) := by
  have hkept {e : Entry} (he : s.machine.pickedEntry? h = some e)
      (hticket : e'.ticket = e.ticket ∨ e'.ticket = none) :
      ∃ e, s.machine.pickedEntry? h = some e ∧ e.ticket = some t := by
    rcases hticket with hticket | hticket
    · exact ⟨e, he, hticket.symm.trans ht⟩
    · exact nomatch hticket.symm.trans ht
  rcases entry_cases hs he' with ⟨-, hnone, -⟩ | ⟨e, he, hbecomes⟩
  · exact nomatch hnone.symm.trans ht
  · cases hbecomes with
    | kept hkept' => exact .inl (hkept he (.inl hkept'.ticket))
    | visited op => exact .inl (hkept he (Machine.update_ticket e _))
    | started _ hticket => exact .inr ⟨Option.some.inj (ht.symm.trans hticket), _, rfl⟩
    | stint _ _ hentry => exact .inl (hkept he (hentry ▸ Machine.afterTurn_ticket _ _))

namespace Chronicle

variable {c : Chronicle σ} {x : Happening σ} {h : Handle} {t : Ticket}

theorem mem_started_extend (ht : (h, t) ∈ c.started) : (h, t) ∈ (c.extend x).started := by
  cases x with
  | act a => exact List.mem_append_right _ ht
  | _ => exact ht

theorem started_of_extend (ht : (h, t) ∈ (c.extend x).started) :
    (h, t) ∈ c.started ∨ ∃ name, x = .act (.launch h name) ∧
      (h, t) ∈ (Section.launch h name).invocations c.machine := by
  cases x with
  | act a =>
    rcases List.mem_append.1 ht with ht | ht
    · obtain ⟨name, rfl, -⟩ := Section.mem_invocations ht
      exact .inr ⟨name, rfl, ht⟩
    · exact .inl ht
  | _ => exact .inl ht

/-- The turns of a process grow by its turns only. -/
theorem stintsOf_extend (c : Chronicle σ) (x : Happening σ) (h : Handle) :
    ((c.extend x).stintsOf h = c.stintsOf h ∧
        ∀ w, x = .act .tick → c.machine.stint? = some w → w.handle ≠ h) ∨
      ∃ w, x = .act .tick ∧ c.machine.stint? = some w ∧ w.handle = h ∧
        (c.extend x).stintsOf h = w :: c.stintsOf h := by
  cases x with
  | act a =>
    have hadd : (c.extend (.act a)).stintsOf h =
        (a.stints c.machine).filter (·.handle = h) ++ c.stintsOf h := List.filter_append _ _
    rw [hadd]
    rcases hstints : a.stints c.machine with _ | ⟨w, rest⟩
    · refine .inl ⟨rfl, ?_⟩
      intro w hx hstint
      obtain rfl : a = .tick := Happening.act.inj hx
      simp [Section.stints, hstint] at hstints
    · have hmem : w ∈ a.stints c.machine := hstints ▸ List.mem_cons_self
      obtain ⟨rfl, hstint⟩ := Section.mem_stints hmem
      obtain rfl : rest = [] := by simpa [Section.stints, hstint] using hstints.symm
      by_cases hh : w.handle = h
      · exact .inr ⟨w, rfl, hstint, hh, by simp [hh]⟩
      · refine .inl ⟨by simp [hh], ?_⟩
        rintro w' - hstint'
        obtain rfl := Option.some.inj (hstint.symm.trans hstint')
        exact hh
  | _ =>
    refine .inl ⟨rfl, ?_⟩
    rintro w ⟨⟩

/-- What is true of every chronicle, whatever the host does. -/
structure Regular (c : Chronicle σ) : Prop where
  tidy : c.machine.Tidy
  expects : c.machine.Expects
  issued : ∀ h t, (h, t) ∈ c.started → t.number < c.machine.nextTicket
  /-- No other process has the ticket of an invocation. -/
  owner : ∀ h t, (h, t) ∈ c.started → ∀ h' e, c.machine.pickedEntry? h' = some e →
    e.ticket = some t → h' = h

theorem regular_new (settings : Settings) (host : σ) : (new settings host).Regular :=
  ⟨Machine.tidy_new settings host, fun _ hh => absurd hh List.not_mem_nil,
    fun _ _ ht => absurd ht List.not_mem_nil, fun _ _ ht => absurd ht List.not_mem_nil⟩

theorem Regular.extend (hc : c.Regular) (x : Happening σ) : (c.extend x).Regular := by
  have hlater := x.later c.site
  refine ⟨?_, ?_, fun h t ht => ?_, fun h t ht h' e he hticket => ?_⟩
  · rw [machine_extend]
    exact x.tidy hc.tidy
  · rw [machine_extend]
    exact x.expects hc.expects
  · rcases started_of_extend ht with ht | ⟨name, rfl, hnew⟩
    · rw [machine_extend]
      exact Nat.lt_of_lt_of_le (hc.issued h t ht) hlater.tickets
    · obtain ⟨rfl, e, p, -, -, hmachine⟩ := Sound.invocation_spec hnew
      exact hmachine ▸ Nat.lt_succ_self _
  · rw [machine_extend] at he
    rcases Happening.ticket_cases hc.tidy he hticket with ⟨e₀, he₀, hticket₀⟩ | ⟨hfresh, name, rfl⟩
    · rcases started_of_extend ht with ht | ⟨name, -, hnew⟩
      · exact hc.owner h t ht h' e₀ he₀ hticket₀
      · -- Whatever was there before does not hold the new ticket.
        obtain ⟨rfl, -⟩ := Sound.invocation_spec hnew
        have hheld := Machine.held_of_pickedEntry? he₀ hticket₀
        exact absurd (hc.tidy.orderly.held h' _ hheld) (Nat.lt_irrefl _)
    · rcases started_of_extend ht with ht | ⟨name', heq, -⟩
      · exact absurd (hfresh ▸ hc.issued h t ht) (Nat.lt_irrefl _)
      · exact (Section.launch.inj (Happening.act.inj heq)).1

theorem regular_along (hc : c.Regular) (xs : List (Happening σ)) : (c.along xs).Regular :=
  along_preserves hc fun _ x _ hc => hc.extend x

end Chronicle

end ScriptMachine
