import ScriptMachine.Proofs.Sections

/-!
# The life of a process

A chronicle is a site together with what has happened on it: the handles that were given, the
invocations that were started, and the turns of running processes (`Chronicle`). It grows by one
section after the other, in any order, and the functions of the host are any that are built from
operations on processes.

Along every chronicle the life of a process goes as it should (`Chronicle.lifecycle`). A process
that runs or sleeps is in a function and holds the ticket of its latest invocation. One that is
inactive is in no function, and all its invocations have ended. One that is finalizing stays so
and has no turn any more. An invocation ends at most once: as completed when the last frame of
the process is left, and as faulted when a slice fails.

The invariant is `Chronicle.Sound`. By `Section.plain_or` there are only four kinds of sections
to consider: plain ones, new processes, starts, and turns of running processes (`Sound.plain`,
`Sound.create`, `Sound.launch`, `Sound.stint`).
-/

namespace ScriptMachine

variable {σ : Type}

/-! ## How a turn ends -/

namespace Stint

variable {w : Stint σ}

/-- So many steps of the turn. -/
def steps (w : Stint σ) (k : Nat) : Turn σ :=
  Process.slice w.machine.hostFunctions w.handle k (.start w.entry.process w.machine.host)

/-- A step of the turn has left the last frame of the process. -/
def LeavesLast (w : Stint σ) : Prop :=
  ∃ k < w.machine.settings.timeSlice, (w.steps k).result = .ok () ∧
    (w.steps k).process.status = .running ∧
    (w.steps k).process.LeavesLast w.machine.hostFunctions w.handle (w.steps k).host w.turn.process

/-- The exit is the right one: the last frame was left, or the slice has failed in this way. -/
def Warrants (w : Stint σ) (x : Exit) : Prop :=
  (x = .completed ∧ w.turn.result = .ok () ∧ w.LeavesLast) ∨
    ∃ r, x = .faulted r.toFault ∧ w.turn.result = .error r

/-- After a turn the process goes on with its invocation, or both have come to an end. -/
theorem ends (hhost : w.machine.hostFunctions.Built) (hgoing : w.entry.process.Going) :
    (w.exit = none ∧ w.outcome.ticket = w.entry.ticket ∧ w.outcome.process.Going) ∨
      ∃ x, w.exit = some x ∧ w.outcome.ticket = none ∧ w.outcome.process.Over ∧ w.Warrants x := by
  have hafter := Machine.afterTurn_eq hgoing.1 w.turn
  have hexit : w.exit = w.turn.outcome.exit := congrArg Prod.snd hafter
  have hprocess : w.outcome.process = w.turn.outcome.process :=
    congrArg (fun x => x.1.process) hafter
  have hticket : w.outcome.ticket = if w.turn.outcome.exit = none then w.entry.ticket else none :=
    congrArg (fun x => x.1.ticket) hafter
  rw [hexit, hprocess, hticket]
  rcases hresult : w.turn.result with r | u
  · have houtcome : w.turn.outcome = ⟨w.turn.process.halt, some (.faulted r.toFault)⟩ := by
      rw [Turn.outcome, hresult]
    rw [houtcome]
    exact .inr ⟨_, rfl, if_neg (Option.some_ne_none _), Process.halt_over _, .inr ⟨r, rfl, hresult⟩⟩
  · have hslice := Process.slice_going (t := .start w.entry.process w.machine.host) hhost
      w.machine.settings.timeSlice rfl hgoing hresult
    rcases hslice with hgoes | ⟨hover, k, hk, hlast⟩
    · have houtcome : w.turn.outcome = ⟨w.turn.process, none⟩ := Process.outcome_of_going hresult hgoes
      rw [houtcome]
      exact .inl ⟨rfl, if_pos rfl, hgoes⟩
    · have houtcome : w.turn.outcome = ⟨w.turn.process, some .completed⟩ := by
        rw [Turn.outcome, hresult]
        exact congrArg (Solo.mk w.turn.process) (if_pos hover.1)
      rw [houtcome]
      exact .inr ⟨_, rfl, if_neg (Option.some_ne_none _), hover, .inl ⟨rfl, hresult, k, hk, hlast⟩⟩

end Stint

/-! ## Chronicles -/

namespace Section

/-- The handles that are given in a section. -/
def handles (m : Machine σ) : Section σ → List Handle
  | create program => [(m.create program).1]
  | _ => []

/-- The invocations that begin with a section: a start that is not refused. -/
def invocations (m : Machine σ) : Section σ → Table Handle Ticket
  | launch h name =>
    match (m.launch h name).1 with
    | .ok t => [(h, t)]
    | .error _ => []
  | _ => []

/-- The turns of running processes in a section. -/
def stints (m : Machine σ) : Section σ → List (Stint σ)
  | tick => m.stint?.toList
  | _ => []

variable {m : Machine σ} {a : Section σ} {h : Handle} {t : Ticket} {w : Stint σ}

theorem mem_handles (hh : h ∈ a.handles m) : h = ⟨m.nextHandle⟩ ∧ ∃ program, a = .create program := by
  cases a with
  | create program => exact ⟨List.mem_singleton.1 hh, program, rfl⟩
  | _ => exact absurd hh List.not_mem_nil

theorem mem_invocations (ht : (h, t) ∈ a.invocations m) :
    ∃ name, a = .launch h name ∧ (m.launch h name).1 = .ok t := by
  cases a with
  | launch h' name =>
    rw [invocations] at ht
    split at ht
    · next hok =>
      obtain ⟨rfl, rfl⟩ := Prod.mk.inj (List.mem_singleton.1 ht)
      exact ⟨name, rfl, hok⟩
    · exact absurd ht List.not_mem_nil
  | _ => exact absurd ht List.not_mem_nil

theorem mem_stints (hw : w ∈ a.stints m) : a = .tick ∧ m.stint? = some w := by
  cases a with
  | tick => exact ⟨rfl, Option.mem_toList.1 hw⟩
  | _ => exact absurd hw List.not_mem_nil

/-- The processes of the table were there before, or are new. -/
theorem mem_keys_apply {s : Site σ} (hs : s.machine.Tidy)
    (hh : h ∈ (a.apply s).machine.processes.keys) :
    h ∈ s.machine.processes.keys ∨ h ∈ a.handles s.machine := by
  rcases a.plain_or s.machine with hplain | ⟨program, rfl⟩ | ⟨h', name, rfl⟩ | ⟨rfl, w, hstint⟩
  · exact .inl ((quiet hplain hs.orderly.nodup hs.apart).keys h hh)
  · have hkeys : (s.machine.create program).2.processes.keys =
        s.machine.processes.keys ++ [⟨s.machine.nextHandle⟩] := List.map_append
    exact List.mem_append.1 (hkeys ▸ hh)
  · rw [machine_launch] at hh
    rcases s.machine.launch_cases h' name with heq | ⟨e, p, hget, heq⟩
    · exact .inl (heq ▸ hh)
    · rw [heq] at hh
      exact .inl (Table.keys_insert_of_mem (Table.mem_keys_of_get? hget) ▸ hh)
  · exact .inl (Machine.keys_tick_of_stint hstint ▸ hh)

end Section

/-- A site, and what has happened on it; the latest comes first. -/
structure Chronicle (σ : Type) where
  site : Site σ
  /-- The handles that were given to new processes. -/
  created : List Handle
  /-- The invocations. -/
  started : Table Handle Ticket
  /-- The turns of running processes. -/
  stints : List (Stint σ)

namespace Chronicle

/-- The machine as it is now. -/
def machine (c : Chronicle σ) : Machine σ := c.site.machine

/-- Nothing has happened to a new machine. -/
def new (settings : Settings) (host : σ) : Chronicle σ := ⟨.new settings host, [], [], []⟩

/-- The chronicle with one more section. -/
def add (c : Chronicle σ) (a : Section σ) : Chronicle σ where
  site := a.apply c.site
  created := a.handles c.machine ++ c.created
  started := a.invocations c.machine ++ c.started
  stints := a.stints c.machine ++ c.stints

/-- The chronicle with some more sections. -/
def after (c : Chronicle σ) (sections : List (Section σ)) : Chronicle σ := sections.foldl add c

/-- The exits that were sent, and for which invocations. -/
def sent (c : Chronicle σ) : Table Ticket Exit := c.stints.filterMap Stint.sent

/-- The turns of a process. -/
def stintsOf (c : Chronicle σ) (h : Handle) : List (Stint σ) := c.stints.filter (·.handle = h)

end Chronicle

/-! ## The invariant -/

/-- A process that runs or sleeps is in its latest invocation. The ticket of an inactive process,
    if there is one, is that of a start that failed. -/
structure Entry.Fits (started : Table Handle Ticket) (h : Handle) (e : Entry) : Prop where
  going : e.process.status = .running ∨ e.process.status = .sleeping →
    e.process.frames ≠ [] ∧ ∃ t, e.ticket = some t ∧ started.get? h = some t
  idle : e.process.status = .inactive →
    e.process.frames = [] ∧ ∀ t, e.ticket = some t → ∀ h', (h', t) ∉ started

namespace Entry.Fits

variable {started : Table Handle Ticket} {h h' : Handle} {e e' : Entry} {t : Ticket}

theorem of_going (hgoing : e.process.Going) (hticket : e.ticket = some t)
    (ht : started.get? h = some t) : e.Fits started h := by
  refine ⟨fun _ => ⟨hgoing.1, t, hticket, ht⟩, fun hinactive => ?_⟩
  rcases hgoing.2 with hstatus | hstatus <;> exact nomatch hstatus.symm.trans hinactive

theorem of_over (hover : e.process.Over)
    (hticket : ∀ t, e.ticket = some t → ∀ h', (h', t) ∉ started) : e.Fits started h := by
  refine ⟨fun hstatus => ?_, fun _ => ⟨hover.1, hticket⟩⟩
  rcases hstatus with hstatus | hstatus <;> exact nomatch hstatus.symm.trans hover.2

theorem kept (he : e.Fits started h) (hkept : e.Kept e') : e'.Fits started h := by
  refine ⟨fun hstatus => ?_, fun hstatus => ?_⟩
  · rw [hkept.process.frames, hkept.ticket]
    exact he.going (hkept.process.awake hstatus)
  · rw [hkept.process.frames, hkept.ticket]
    exact he.idle (hkept.process.inactive hstatus)

/-- An invocation of another process. -/
theorem cons (he : e.Fits started h) (hh : h' ≠ h) (ht : e.ticket ≠ some t) :
    e.Fits ((h', t) :: started) h := by
  refine ⟨fun hstatus => ?_, fun hstatus => ?_⟩
  · obtain ⟨hframes, t', hticket, ht'⟩ := he.going hstatus
    refine ⟨hframes, t', hticket, ?_⟩
    rw [Table.get?, if_neg hh, ht']
  · obtain ⟨hframes, hticket⟩ := he.idle hstatus
    refine ⟨hframes, fun t' ht' h'' hmem => ?_⟩
    rcases List.mem_cons.1 hmem with heq | hmem
    · obtain ⟨-, rfl⟩ := Prod.mk.inj heq
      exact ht ht'
    · exact hticket t' ht' h'' hmem

end Entry.Fits

namespace Chronicle

variable {c : Chronicle σ} {a : Section σ} {h : Handle} {e : Entry} {t : Ticket} {w : Stint σ}

/-- What is true of every chronicle in which the functions of the host are built from
    operations. -/
structure Sound (c : Chronicle σ) : Prop where
  built : c.machine.hostFunctions.Built
  tidy : c.machine.Tidy
  distinct : c.created.Nodup
  given : ∀ h ∈ c.created, h.number < c.machine.nextHandle
  known : ∀ h ∈ c.machine.processes.keys, h ∈ c.created
  fits : ∀ h e, c.machine.pickedEntry? h = some e → e.Fits c.started h
  issued : ∀ h t, (h, t) ∈ c.started →
    h.number < c.machine.nextHandle ∧ t.number < c.machine.nextTicket
  /-- No other process has the ticket of an invocation. -/
  owner : ∀ h t, (h, t) ∈ c.started → ∀ h', c.machine.Held h' t → h' = h
  once : c.sent.keys.Nodup
  /-- Nobody has the ticket of an invocation that has ended. -/
  resolved : ∀ t ∈ c.sent.keys, (∃ h, (h, t) ∈ c.started) ∧ ∀ h, ¬c.machine.Held h t
  deposited : ∀ t x, c.machine.exits.get? t = some x → (t, x) ∈ c.sent
  /-- An invocation goes on until it has ended or its process is gone. -/
  pending : ∀ h t, (h, t) ∈ c.started → t ∈ c.sent.keys ∨
    (∃ e, c.machine.pickedEntry? h = some e ∧ e.ticket = some t) ∨
    c.machine.pickedEntry? h = none
  warranted : ∀ w ∈ c.stints, ∀ x, w.exit = some x →
    w.Warrants x ∧ ∃ t, w.entry.ticket = some t ∧ (w.handle, t) ∈ c.started

theorem sound_new (settings : Settings) (host : σ) : (new settings host).Sound := by
  have hnone (h : Handle) (e : Entry) :
      Machine.pickedEntry? (new settings host).machine h ≠ some e := nofun
  have hstarted (h : Handle) (t : Ticket) : (h, t) ∉ (new settings host).started :=
    List.not_mem_nil
  have hsent (t : Ticket) : t ∉ (new settings host).sent.keys := List.not_mem_nil
  exact ⟨fun name f hf => (nomatch (hf : none = some f)), Machine.tidy_new settings host,
    List.nodup_nil, fun h hh => absurd hh List.not_mem_nil, fun h hh => absurd hh List.not_mem_nil,
    fun h e he => absurd he (hnone h e), fun h t ht => absurd ht (hstarted h t),
    fun h t ht => absurd ht (hstarted h t), List.nodup_nil, fun t ht => absurd ht (hsent t),
    fun t x hx => (nomatch (hx : none = some x)), fun h t ht => absurd ht (hstarted h t),
    fun w hw => absurd hw List.not_mem_nil⟩

/-- What every section preserves is preserved. -/
theorem after_preserves {P : Chronicle σ → Prop} {sections : List (Section σ)} (hc : P c)
    (hadd : ∀ c, ∀ a ∈ sections, P c → P (c.add a)) : P (c.after sections) := by
  induction sections generalizing c with
  | nil => exact hc
  | cons a sections ih =>
    exact ih (hadd c a List.mem_cons_self hc) fun c b hb => hadd c b (List.mem_cons_of_mem _ hb)

/-- The process was there, and nobody has it any more. -/
structure Gone (c : Chronicle σ) (h : Handle) : Prop where
  given : h.number < c.machine.nextHandle
  absent : c.machine.pickedEntry? h = none

/-- What is gone does not come back. -/
theorem Gone.add (hc : c.machine.Tidy) (hgone : c.Gone h) (a : Section σ) : (c.add a).Gone h := by
  refine ⟨Nat.lt_of_lt_of_le hgone.given (a.later c.site).handles, ?_⟩
  rcases hget : Machine.pickedEntry? (c.add a).machine h with _ | e
  · rfl
  · rcases Section.exists_of_apply hc hget with ⟨e', he'⟩ | ⟨rfl, -⟩
    · exact nomatch hgone.absent.symm.trans he'
    · exact absurd hgone.given (Nat.lt_irrefl _)

namespace Sound

/-- The functions of the host are those that were bound. -/
theorem built_add (hc : c.Sound) (ha : ∀ name f, a = .bind name f → f.Built) :
    (c.add a).machine.hostFunctions.Built := by
  intro name f hf
  have hf : (a.apply c.site).machine.functions.get? name = some f := hf
  rcases a.functions c.site with heq | ⟨name', f', rfl, heq⟩
  · rw [heq] at hf
    exact hc.built name f hf
  · rw [heq] at hf
    by_cases hname : name = name'
    · subst hname
      rw [Table.get?_insert_self, Option.some.injEq] at hf
      exact hf ▸ ha name f' rfl
    · rw [Table.get?_insert_ne hname] at hf
      exact hc.built name f hf

/-! ## Handles -/

theorem distinct_add (hc : c.Sound) (a : Section σ) : (c.add a).created.Nodup := by
  refine List.nodup_append.2 ⟨?_, hc.distinct, fun h hh h' hh' => ?_⟩
  · cases a with
    | create program => exact List.pairwise_singleton _ _
    | _ => exact List.nodup_nil
  · rintro rfl
    obtain ⟨rfl, -⟩ := Section.mem_handles hh
    exact absurd (hc.given _ hh') (Nat.lt_irrefl _)

theorem given_add (hc : c.Sound) (a : Section σ) :
    ∀ h ∈ (c.add a).created, h.number < (c.add a).machine.nextHandle := by
  intro h hh
  rcases List.mem_append.1 hh with hh | hh
  · obtain ⟨rfl, program, rfl⟩ := Section.mem_handles hh
    exact Nat.lt_succ_self _
  · exact Nat.lt_of_lt_of_le (hc.given h hh) (a.later c.site).handles

theorem known_add (hc : c.Sound) (a : Section σ) :
    ∀ h ∈ (c.add a).machine.processes.keys, h ∈ (c.add a).created := by
  intro h hh
  refine List.mem_append.2 ?_
  rcases Section.mem_keys_apply hc.tidy hh with hh | hh
  · exact .inr (hc.known h hh)
  · exact .inl hh

/-! ## Processes -/

/-- The process whose turn it is goes on, with the ticket of its latest invocation. -/
theorem stint_going (hc : c.Sound) (hstint : c.machine.stint? = some w) :
    w.machine.hostFunctions.Built ∧ w.entry.process.Going ∧
      ∃ t, w.entry.ticket = some t ∧ c.started.get? w.handle = some t := by
  obtain ⟨hmachine, hget, hrunning, -⟩ := Machine.of_stint hstint
  obtain ⟨hframes, t, hticket, ht⟩ := (hc.fits _ _ hget).going (.inl hrunning)
  exact ⟨hmachine ▸ hc.built, ⟨hframes, .inl hrunning⟩, t, hticket, ht⟩

/-- A new ticket is not that of an earlier invocation. -/
theorem fresh (hc : c.Sound) (h : Handle) : (h, ⟨c.machine.nextTicket⟩) ∉ c.started :=
  fun hmem => absurd (hc.issued _ _ hmem).2 (Nat.lt_irrefl _)

/-- A start makes a process fit. -/
theorem fits_launch (hc : c.Sound) {name : String} {h' : Handle}
    (he : Machine.pickedEntry? (c.machine.launch h' name).2 h = some e) :
    e.Fits ((Section.launch h' name).invocations c.machine ++ c.started) h := by
  rcases c.machine.launch_spec h' name with ⟨⟨err, herr⟩, heq⟩ | ⟨e₀, p, hget, -, heq, hresult⟩
  · rw [heq] at he
    rw [Section.invocations, herr]
    exact hc.fits h e he
  · rw [heq] at he
    by_cases hh : h = h'
    · subst hh
      rw [Machine.pickedEntry?_setEntry_self, Option.some.injEq] at he
      subst he
      rcases hresult with ⟨⟨err, herr⟩, hover⟩ | ⟨hok, hgoing⟩
      · rw [Section.invocations, herr]
        refine .of_over hover fun t ht h' => ?_
        obtain rfl := Option.some.inj ht
        exact hc.fresh h'
      · rw [Section.invocations, hok]
        exact .of_going hgoing rfl (if_pos rfl)
    · rw [Machine.pickedEntry?_setEntry_ne hh] at he
      have hfits := hc.fits h e he
      rcases hresult with ⟨⟨err, herr⟩, -⟩ | ⟨hok, -⟩
      · rw [Section.invocations, herr]
        exact hfits
      · rw [Section.invocations, hok]
        refine hfits.cons (Ne.symm hh) fun ht => ?_
        -- A ticket that is held is not the next one.
        have hheld := Machine.held_of_pickedEntry? he ht
        exact absurd (hc.tidy.orderly.held h _ hheld) (Nat.lt_irrefl _)

theorem fits_stint (hc : c.Sound) (hstint : c.machine.stint? = some w)
    (he : c.machine.tick.pickedEntry? h = some e) : e.Fits c.started h := by
  by_cases hh : h = w.handle
  · subst hh
    rw [Machine.pickedEntry?_tick_self hstint] at he
    split at he
    · obtain rfl := Option.some.inj he
      obtain ⟨hbuilt, hgoing, t, hticket, ht⟩ := hc.stint_going hstint
      rcases Stint.ends hbuilt hgoing with ⟨-, hkept, hgoes⟩ | ⟨x, -, hnone, hover, -⟩
      · exact .of_going hgoes (hkept.trans hticket) ht
      · exact .of_over hover fun t ht => nomatch hnone.symm.trans ht
    · exact nomatch he
  · exact hc.fits h e (Machine.pickedEntry?_tick_ne hstint hh ▸ he)

theorem fits_add (hc : c.Sound) (a : Section σ) :
    ∀ h e, Machine.pickedEntry? (c.add a).machine h = some e → e.Fits (c.add a).started h := by
  intro h e he
  rcases a.plain_or c.machine with hplain | ⟨program, rfl⟩ | ⟨h', name, rfl⟩ | ⟨rfl, w, hstint⟩
  · have hinvocations : a.invocations c.machine = [] := by
      cases a with
      | launch h name => exact hplain.elim
      | _ => rfl
    rw [add, hinvocations]
    obtain ⟨e₀, he₀, hkept⟩ :=
      (Section.quiet hplain hc.tidy.orderly.nodup hc.tidy.apart).entries h e he
    exact (hc.fits h e₀ he₀).kept hkept
  · by_cases hh : h = ⟨c.machine.nextHandle⟩
    · subst hh
      have hself := Machine.pickedEntry?_create_self hc.tidy.pickedEntry?_new program
      obtain rfl := Option.some.inj (hself.symm.trans he)
      exact .of_over ⟨rfl, rfl⟩ nofun
    · exact hc.fits h e ((Machine.pickedEntry?_create_ne hh program).symm.trans he)
  · have hmachine : (c.add (.launch h' name)).machine = (c.machine.launch h' name).2 :=
      Section.machine_launch c.site h' name
    exact hc.fits_launch (hmachine ▸ he)
  · exact hc.fits_stint hstint he

/-! ## Invocations -/

/-- An invocation begins with a new ticket, at a process of the table that was inactive. -/
theorem invocation_spec (ht : (h, t) ∈ a.invocations c.machine) :
    t = ⟨c.machine.nextTicket⟩ ∧
      ∃ e p, c.machine.processes.get? h = some e ∧ e.process.status = .inactive ∧
        (c.add a).machine =
          Machine.setEntry { c.machine with nextTicket := c.machine.nextTicket + 1 } h
            ⟨p, some ⟨c.machine.nextTicket⟩⟩ := by
  obtain ⟨name, rfl, hok⟩ := Section.mem_invocations ht
  rcases c.machine.launch_spec h name with ⟨⟨err, herr⟩, -⟩ | ⟨e, p, hget, hstatus, heq, hresult⟩
  · exact nomatch herr.symm.trans hok
  · refine ⟨?_, e, p, hget, hstatus, (Section.machine_launch c.site h name).trans heq⟩
    rcases hresult with ⟨⟨err, herr⟩, -⟩ | ⟨hok', -⟩
    · exact nomatch herr.symm.trans hok
    · exact Except.ok.inj (hok.symm.trans hok')

theorem issued_add (hc : c.Sound) (a : Section σ) :
    ∀ h t, (h, t) ∈ (c.add a).started →
      h.number < (c.add a).machine.nextHandle ∧ t.number < (c.add a).machine.nextTicket := by
  intro h t ht
  have hlater := a.later c.site
  rcases List.mem_append.1 ht with ht | ht
  · obtain ⟨rfl, e, p, hget, -, hmachine⟩ := invocation_spec ht
    have hbelow := hc.tidy.below h e (Machine.pickedEntry?_of_get? hget)
    rw [hmachine]
    exact ⟨hbelow, Nat.lt_succ_self _⟩
  · obtain ⟨hhandle, hticket⟩ := hc.issued h t ht
    exact ⟨Nat.lt_of_lt_of_le hhandle hlater.handles, Nat.lt_of_lt_of_le hticket hlater.tickets⟩

/-- The ticket of an invocation is not given again. -/
theorem held_of_add (hc : c.Sound) (ht : (h, t) ∈ c.started) {h' : Handle}
    (hheld : (c.add a).machine.Held h' t) : c.machine.Held h' t := by
  refine ((a.later c.site).held h' t hheld).resolve_right fun hfresh => ?_
  exact absurd (hc.issued h t ht).2 (Nat.not_lt.2 hfresh.1)

theorem owner_add (hc : c.Sound) (a : Section σ) :
    ∀ h t, (h, t) ∈ (c.add a).started → ∀ h', (c.add a).machine.Held h' t → h' = h := by
  intro h t ht h' hheld
  rcases List.mem_append.1 ht with ht | ht
  · obtain ⟨rfl, e, p, -, -, hmachine⟩ := invocation_spec ht
    rw [hmachine] at hheld
    -- Whatever was there before does not hold the new ticket.
    have hold (hheld : c.machine.Held h' ⟨c.machine.nextTicket⟩) : h' = h :=
      absurd (hc.tidy.orderly.held h' _ hheld) (Nat.lt_irrefl _)
    obtain ⟨e', hmem | hmem, hticket⟩ := hheld
    · rcases Table.mem_insert hmem with heq | hmem
      · exact (Prod.mk.inj heq).1
      · exact hold ⟨e', .inl hmem, hticket⟩
    · exact hold ⟨e', .inr hmem, hticket⟩
  · exact hc.owner h t ht h' (hc.held_of_add ht hheld)

/-! ## Exits -/

/-- A section sends nothing, or the exit of the latest invocation of the process whose turn it
    is. -/
theorem sent_add (hc : c.Sound) (a : Section σ) :
    (c.add a).sent = c.sent ∧ (a = .tick → ∀ w, c.machine.stint? = some w → w.exit = none) ∨
      ∃ w t x, a = .tick ∧ c.machine.stint? = some w ∧ w.entry.ticket = some t ∧ w.exit = some x ∧
        (w.handle, t) ∈ c.started ∧ (c.add a).sent = (t, x) :: c.sent := by
  have hadd : (c.add a).sent = (a.stints c.machine).filterMap Stint.sent ++ c.sent :=
    List.filterMap_append
  rcases hstints : a.stints c.machine with _ | ⟨w, rest⟩
  · rw [hadd, hstints]
    refine .inl ⟨rfl, ?_⟩
    rintro rfl w hstint
    simp [Section.stints, hstint] at hstints
  · obtain ⟨rfl, hstint⟩ := Section.mem_stints (hstints ▸ List.mem_cons_self : w ∈ a.stints c.machine)
    obtain ⟨-, -, t, hticket, ht⟩ := hc.stint_going hstint
    have hadd' : (c.add .tick).sent = w.sent.toList ++ c.sent := by
      rw [hadd, Section.stints, hstint]
      rcases hsent : w.sent with _ | x <;> simp [hsent]
    rcases hexit : w.exit with _ | x
    · have hsent : w.sent = none := by rw [Stint.sent, hticket, hexit]
      rw [hadd', hsent]
      refine .inl ⟨rfl, ?_⟩
      rintro - w' hstint'
      obtain rfl := Option.some.inj (hstint.symm.trans hstint')
      exact hexit
    · have hsent : w.sent = some (t, x) := by rw [Stint.sent, hticket, hexit]
      rw [hadd', hsent]
      exact .inr ⟨w, t, x, rfl, hstint, hticket, hexit, Table.mem_of_get? ht, rfl⟩

theorem once_add (hc : c.Sound) (a : Section σ) : (c.add a).sent.keys.Nodup := by
  rcases hc.sent_add a with ⟨hsame, -⟩ | ⟨w, t, x, rfl, hstint, hticket, -, -, hcons⟩
  · rw [hsame]
    exact hc.once
  · rw [hcons]
    refine List.nodup_cons.2 ⟨fun hmem => ?_, hc.once⟩
    -- The ticket is still held, so its exit has not been sent before.
    have hheld := Machine.held_of_pickedEntry? (Machine.of_stint hstint).2.1 hticket
    exact (hc.resolved t hmem).2 _ hheld

/-- The process has no ticket after a turn that has ended its invocation. -/
theorem not_held_of_exit (hc : c.Sound) (hstint : c.machine.stint? = some w) {x : Exit}
    (hexit : w.exit = some x) (t : Ticket) : ¬(c.add .tick).machine.Held w.handle t := by
  obtain ⟨hbuilt, hgoing, -⟩ := hc.stint_going hstint
  have hnone : w.outcome.ticket = none := by
    rcases Stint.ends hbuilt hgoing with ⟨hexit', -⟩ | ⟨-, -, hnone, -⟩
    · exact nomatch hexit'.symm.trans hexit
    · exact hnone
  have htidy := Section.tidy hc.tidy .tick
  rintro ⟨e, hmem | hmem, hticket⟩
  · -- There is only one entry of the process in the table.
    have hget := Machine.pickedEntry?_of_get? (Table.get?_of_mem htidy.orderly.nodup hmem)
    have hself := Machine.pickedEntry?_tick_self hstint
    rw [if_pos (Machine.keys_tick_of_stint hstint ▸ Table.mem_keys_of_mem hmem)] at hself
    obtain rfl := Option.some.inj (hself.symm.trans hget)
    exact nomatch hnone.symm.trans hticket
  · obtain ⟨-, -, -, left, awake, hphase⟩ := Machine.of_stint hstint
    have hpicked : (c.add .tick).machine.picked = c.machine.picked.erase w.handle := by
      rw [show (c.add .tick).machine = c.machine.tick from rfl, Machine.tick_of_stint hstint hphase]
    rw [hpicked] at hmem
    exact Table.get?_eq_none_iff.1 (Table.get?_erase_self _ _) (Table.mem_keys_of_mem hmem)

theorem resolved_add (hc : c.Sound) (a : Section σ) :
    ∀ t ∈ (c.add a).sent.keys,
      (∃ h, (h, t) ∈ (c.add a).started) ∧ ∀ h, ¬(c.add a).machine.Held h t := by
  intro t ht
  have hold (ht : t ∈ c.sent.keys) :
      (∃ h, (h, t) ∈ (c.add a).started) ∧ ∀ h, ¬(c.add a).machine.Held h t := by
    obtain ⟨⟨h, hstarted⟩, hgone⟩ := hc.resolved t ht
    exact ⟨⟨h, List.mem_append_right _ hstarted⟩,
      fun h' hheld => hgone h' (hc.held_of_add hstarted hheld)⟩
  rcases hc.sent_add a with ⟨hsame, -⟩ | ⟨w, t', x, rfl, hstint, -, hexit, hstarted, hcons⟩
  · exact hold (hsame ▸ ht)
  · rw [hcons] at ht
    rcases List.mem_cons.1 ht with rfl | ht
    · refine ⟨⟨w.handle, List.mem_append_right _ hstarted⟩, fun h hheld => ?_⟩
      obtain rfl := hc.owner w.handle t hstarted h (hc.held_of_add hstarted hheld)
      exact hc.not_held_of_exit hstint hexit t hheld
    · exact hold ht

theorem mem_sent_add {x : Ticket × Exit} (hx : x ∈ c.sent) : x ∈ (c.add a).sent := by
  rw [sent, add, List.filterMap_append]
  exact List.mem_append_right _ hx

theorem mem_keys_sent_add (ht : t ∈ c.sent.keys) : t ∈ (c.add a).sent.keys := by
  obtain ⟨x, hx, rfl⟩ := List.mem_map.1 ht
  exact List.mem_map_of_mem (mem_sent_add hx)

/-- What is deposited was sent. -/
theorem deposited_add (hc : c.Sound) (a : Section σ) :
    ∀ t x, (c.add a).machine.exits.get? t = some x → (t, x) ∈ (c.add a).sent := by
  intro t x hx
  rcases a.plain_or c.machine with hplain | ⟨program, rfl⟩ | ⟨h, name, rfl⟩ | ⟨rfl, w, hstint⟩
  · have hquiet := Section.quiet hplain hc.tidy.orderly.nodup hc.tidy.apart
    exact mem_sent_add (hc.deposited t x (hquiet.exits t x hx))
  · exact mem_sent_add (hc.deposited t x hx)
  · have hmachine : (c.add (.launch h name)).machine = (c.machine.launch h name).2 :=
      Section.machine_launch c.site h name
    rw [hmachine] at hx
    rcases c.machine.launch_cases h name with heq | ⟨e, p, -, heq⟩
    · exact mem_sent_add (hc.deposited t x (heq ▸ hx))
    · rw [heq] at hx
      exact mem_sent_add (hc.deposited t x hx)
  · have hexits : (c.add .tick).machine.exits =
        w.sent.elim c.machine.exits fun x => c.machine.exits.insert x.1 x.2 :=
      Machine.exits_tick_of_stint hstint
    rw [hexits] at hx
    rcases hsent : w.sent with _ | ⟨t', x'⟩
    · rw [hsent] at hx
      exact mem_sent_add (hc.deposited t x hx)
    · rw [hsent] at hx
      have hx : (c.machine.exits.insert t' x').get? t = some x := hx
      by_cases ht : t = t'
      · subst ht
        rw [Table.get?_insert_self, Option.some.injEq] at hx
        subst hx
        have hw : w ∈ (c.add .tick).stints :=
          List.mem_append_left _ (Option.mem_toList.2 hstint)
        exact List.mem_filterMap.2 ⟨w, hw, hsent⟩
      · rw [Table.get?_insert_ne ht] at hx
        exact mem_sent_add (hc.deposited t x hx)

/-- The ticket of an invocation is kept until the invocation has ended or the process is
    gone. -/
theorem kept_add (hc : c.Sound) (ht : (h, t) ∈ c.started) (he : c.machine.pickedEntry? h = some e)
    (hticket : e.ticket = some t) :
    t ∈ (c.add a).sent.keys ∨
      (∃ e, Machine.pickedEntry? (c.add a).machine h = some e ∧ e.ticket = some t) ∨
      Machine.pickedEntry? (c.add a).machine h = none := by
  rcases a.plain_or c.machine with hplain | ⟨program, rfl⟩ | ⟨h', name, rfl⟩ | ⟨rfl, w, hstint⟩
  · rcases hget : Machine.pickedEntry? (c.add a).machine h with _ | e'
    · exact .inr (.inr rfl)
    · obtain ⟨e₀, he₀, hkept⟩ :=
        (Section.quiet hplain hc.tidy.orderly.nodup hc.tidy.apart).entries h e' hget
      obtain rfl : e = e₀ := Option.some.inj (he.symm.trans he₀)
      exact .inr (.inl ⟨e', rfl, hkept.ticket.trans hticket⟩)
  · have hh : h ≠ ⟨c.machine.nextHandle⟩ := by
      rintro rfl
      exact absurd (hc.issued _ t ht).1 (Nat.lt_irrefl _)
    exact .inr (.inl ⟨e, (Machine.pickedEntry?_create_ne hh program).trans he, hticket⟩)
  · have hmachine : (c.add (.launch h' name)).machine = (c.machine.launch h' name).2 :=
      Section.machine_launch c.site h' name
    rw [hmachine]
    rcases c.machine.launch_spec h' name with ⟨-, heq⟩ | ⟨e', p, hget, hinactive, heq, -⟩
    · rw [heq]
      exact .inr (.inl ⟨e, he, hticket⟩)
    · -- A process that can be started is in no invocation.
      have hh : h ≠ h' := by
        rintro rfl
        obtain rfl := Option.some.inj ((Machine.pickedEntry?_of_get? hget).symm.trans he)
        exact ((hc.fits h e' he).idle hinactive).2 t hticket h ht
      rw [heq]
      exact .inr (.inl ⟨e, (Machine.pickedEntry?_setEntry_ne hh _ _).trans he, hticket⟩)
  · by_cases hh : h = w.handle
    · subst hh
      obtain rfl := Option.some.inj ((Machine.of_stint hstint).2.1.symm.trans he)
      obtain ⟨hbuilt, hgoing, -⟩ := hc.stint_going hstint
      rcases hc.sent_add .tick with ⟨-, hnone⟩ | ⟨w', t', x, -, hstint', hticket', -, -, hcons⟩
      · have hself := Machine.pickedEntry?_tick_self hstint
        split at hself
        · rcases Stint.ends hbuilt hgoing with ⟨-, hkept, -⟩ | ⟨x, hexit, -⟩
          · exact .inr (.inl ⟨_, hself, hkept.trans hticket⟩)
          · exact nomatch (hnone rfl w hstint).symm.trans hexit
        · exact .inr (.inr hself)
      · obtain rfl := Option.some.inj (hstint.symm.trans hstint')
        obtain rfl := Option.some.inj (hticket.symm.trans hticket')
        exact .inl (hcons ▸ List.mem_cons_self)
    · exact .inr (.inl ⟨e, (Machine.pickedEntry?_tick_ne hstint hh).trans he, hticket⟩)

theorem pending_add (hc : c.Sound) (a : Section σ) :
    ∀ h t, (h, t) ∈ (c.add a).started → t ∈ (c.add a).sent.keys ∨
      (∃ e, Machine.pickedEntry? (c.add a).machine h = some e ∧ e.ticket = some t) ∨
      Machine.pickedEntry? (c.add a).machine h = none := by
  intro h t ht
  rcases List.mem_append.1 ht with ht | ht
  · obtain ⟨rfl, e, p, -, -, hmachine⟩ := invocation_spec ht
    rw [hmachine]
    exact .inr (.inl ⟨_, Machine.pickedEntry?_setEntry_self _ _ _, rfl⟩)
  · rcases hc.pending h t ht with hsent | ⟨e, he, hticket⟩ | hgone
    · exact .inl (mem_keys_sent_add hsent)
    · exact hc.kept_add ht he hticket
    · exact .inr (.inr (Gone.add hc.tidy ⟨(hc.issued h t ht).1, hgone⟩ a).absent)

theorem warranted_add (hc : c.Sound) (a : Section σ) :
    ∀ w ∈ (c.add a).stints, ∀ x, w.exit = some x →
      w.Warrants x ∧ ∃ t, w.entry.ticket = some t ∧ (w.handle, t) ∈ (c.add a).started := by
  intro w hw x hx
  rcases List.mem_append.1 hw with hw | hw
  · obtain ⟨rfl, hstint⟩ := Section.mem_stints hw
    obtain ⟨hbuilt, hgoing, t, hticket, ht⟩ := hc.stint_going hstint
    refine ⟨?_, t, hticket, List.mem_append_right _ (Table.mem_of_get? ht)⟩
    rcases Stint.ends hbuilt hgoing with ⟨hnone, -⟩ | ⟨x', hexit, -, -, hwarrants⟩
    · exact nomatch hnone.symm.trans hx
    · exact Option.some.inj (hexit.symm.trans hx) ▸ hwarrants
  · obtain ⟨hwarrants, t, hticket, ht⟩ := hc.warranted w hw x hx
    exact ⟨hwarrants, t, hticket, List.mem_append_right _ ht⟩

/-- One more section. -/
theorem add (hc : c.Sound) (ha : ∀ name f, a = .bind name f → f.Built) : (c.add a).Sound :=
  ⟨hc.built_add ha, Section.tidy hc.tidy a, hc.distinct_add a, hc.given_add a, hc.known_add a,
    hc.fits_add a, hc.issued_add a, hc.owner_add a, hc.once_add a, hc.resolved_add a,
    hc.deposited_add a, hc.pending_add a, hc.warranted_add a⟩

/-- Any number of sections. -/
theorem after {sections : List (Section σ)} (hc : c.Sound)
    (hsections : ∀ name f, .bind name f ∈ sections → f.Built) : (c.after sections).Sound :=
  after_preserves hc fun _ _ ha hc => hc.add fun name f heq => hsections name f (heq ▸ ha)

/-- What every section of a sound chronicle preserves is preserved. -/
theorem preserves {P : Chronicle σ → Prop} {sections : List (Section σ)} (hc : c.Sound)
    (hsections : ∀ name f, .bind name f ∈ sections → f.Built) (hP : P c)
    (hadd : ∀ c, ∀ a ∈ sections, c.Sound → P c → P (c.add a)) : P (c.after sections) := by
  refine (after_preserves (P := fun c => c.Sound ∧ P c) ⟨hc, hP⟩ ?_).2
  rintro c a ha ⟨hc, hP⟩
  exact ⟨hc.add fun name f heq => hsections name f (heq ▸ ha), hadd c a ha hc hP⟩

end Sound

/-! ## Closed processes -/

/-- The process was closed: it waits for its removal, or is gone. -/
structure Closed (c : Chronicle σ) (h : Handle) : Prop where
  given : h.number < c.machine.nextHandle
  finalizing : ∀ e, c.machine.pickedEntry? h = some e → e.process.status = .finalizing

namespace Closed

/-- A process that was closed stays so. -/
theorem add (hc : c.Sound) (hclosed : c.Closed h) (a : Section σ) : (c.add a).Closed h := by
  refine ⟨Nat.lt_of_lt_of_le hclosed.given (a.later c.site).handles, fun e he => ?_⟩
  rcases a.plain_or c.machine with hplain | ⟨program, rfl⟩ | ⟨h', name, rfl⟩ | ⟨rfl, w, hstint⟩
  · obtain ⟨e₀, he₀, hkept⟩ :=
      (Section.quiet hplain hc.tidy.orderly.nodup hc.tidy.apart).entries h e he
    exact hkept.process.finalizing (hclosed.finalizing e₀ he₀)
  · have hh : h ≠ ⟨c.machine.nextHandle⟩ := by
      rintro rfl
      exact absurd hclosed.given (Nat.lt_irrefl _)
    exact hclosed.finalizing e ((Machine.pickedEntry?_create_ne hh program).symm.trans he)
  · have hmachine : (c.add (.launch h' name)).machine = (c.machine.launch h' name).2 :=
      Section.machine_launch c.site h' name
    rw [hmachine] at he
    rcases c.machine.launch_spec h' name with ⟨-, heq⟩ | ⟨e', p, hget, hinactive, heq, -⟩
    · rw [heq] at he
      exact hclosed.finalizing e he
    · -- It cannot be started.
      have hh : h ≠ h' := by
        rintro rfl
        have hfinal := hclosed.finalizing e' (Machine.pickedEntry?_of_get? hget)
        exact nomatch hinactive.symm.trans hfinal
      rw [heq, Machine.pickedEntry?_setEntry_ne hh] at he
      exact hclosed.finalizing e he
  · -- It does not run, so this is not its turn.
    obtain ⟨-, hget, hrunning, -⟩ := Machine.of_stint hstint
    have hh : h ≠ w.handle := by
      rintro rfl
      exact nomatch hrunning.symm.trans (hclosed.finalizing _ hget)
    exact hclosed.finalizing e ((Machine.pickedEntry?_tick_ne hstint hh).symm.trans he)

theorem stintsOf_add (hclosed : c.Closed h) (a : Section σ) :
    (c.add a).stintsOf h = c.stintsOf h := by
  have hnone : (a.stints c.machine).filter (·.handle = h) = [] := by
    refine List.filter_eq_nil_iff.2 fun w hw hh => ?_
    obtain ⟨-, hstint⟩ := Section.mem_stints hw
    obtain ⟨-, hget, hrunning, -⟩ := Machine.of_stint hstint
    obtain rfl : w.handle = h := of_decide_eq_true hh
    exact nomatch hrunning.symm.trans (hclosed.finalizing _ hget)
  rw [stintsOf, Chronicle.add, List.filter_append, hnone]
  rfl

theorem after {sections : List (Section σ)} (hc : c.Sound) (hclosed : c.Closed h)
    (hsections : ∀ name f, .bind name f ∈ sections → f.Built) :
    (c.after sections).Closed h ∧ (c.after sections).stintsOf h = c.stintsOf h := by
  refine hc.preserves (P := fun c' => c'.Closed h ∧ c'.stintsOf h = c.stintsOf h) hsections
    ⟨hclosed, rfl⟩ ?_
  rintro c a - hc ⟨hclosed, hstints⟩
  exact ⟨hclosed.add hc a, (hclosed.stintsOf_add a).trans hstints⟩

end Closed

/-! ## The life of a process -/

/-- What the life of processes and invocations is like. -/
structure Lifecycle (c : Chronicle σ) : Prop where
  /-- No handle is given twice. -/
  distinct : c.created.Nodup
  /-- The processes of the table were created, and their handles are below the next one. -/
  known : ∀ h ∈ c.machine.processes.keys, h ∈ c.created ∧ h.number < c.machine.nextHandle
  /-- A process that runs or sleeps is in a function. It has the ticket of its latest invocation,
      which has not ended. -/
  going : ∀ h e, c.machine.pickedEntry? h = some e →
    e.process.status = .running ∨ e.process.status = .sleeping →
    e.process.frames ≠ [] ∧
      ∃ t, e.ticket = some t ∧ c.started.get? h = some t ∧ t ∉ c.sent.keys
  /-- A process that is inactive is in no function. If it has a ticket, then that of a start that
      was refused; all its invocations have ended. -/
  idle : ∀ h e, c.machine.pickedEntry? h = some e → e.process.status = .inactive →
    e.process.frames = [] ∧ (∀ t, e.ticket = some t → ∀ h', (h', t) ∉ c.started) ∧
      ∀ t, (h, t) ∈ c.started → t ∈ c.sent.keys
  /-- A process that is finalizing stays so for as long as it is there, and has no turn any
      more. -/
  closed : ∀ h e, c.machine.pickedEntry? h = some e → e.process.status = .finalizing →
    ∀ more : List (Section σ), (∀ name f, .bind name f ∈ more → f.Built) →
      (∀ e', Machine.pickedEntry? (c.after more).machine h = some e' →
        e'.process.status = .finalizing) ∧
      (c.after more).stintsOf h = c.stintsOf h
  /-- No invocation ends twice. -/
  once : c.sent.keys.Nodup
  /-- An exit is sent for an invocation of the process whose turn it was. It is `completed` only
      if a step of the turn has left the last frame, and `faulted` only if the slice has failed in
      that way. -/
  warranted : ∀ w ∈ c.stints, ∀ x, w.exit = some x →
    w.Warrants x ∧ ∃ t, w.entry.ticket = some t ∧ (w.handle, t) ∈ c.started
  /-- The host gets to know the exit that was sent. An invocation that has not ended counts as
      closed only if its process is gone. -/
  answered : ∀ h t, (h, t) ∈ c.started → ∀ x, (c.machine.poll t).1 = some x →
    (t, x) ∈ c.sent ∨
      (x = .closed ∧ (t ∈ c.sent.keys ∨ c.machine.pickedEntry? h = none))

namespace Sound

theorem closed (hc : c.Sound) (he : c.machine.pickedEntry? h = some e)
    (hstatus : e.process.status = .finalizing) : c.Closed h :=
  ⟨hc.tidy.below h e he, fun _ he' => Option.some.inj (he.symm.trans he') ▸ hstatus⟩

/-- A ticket that somebody has is not that of an invocation that has ended. -/
theorem unsent (hc : c.Sound) (he : c.machine.pickedEntry? h = some e)
    (hticket : e.ticket = some t) : t ∉ c.sent.keys :=
  fun hsent => (hc.resolved t hsent).2 h (Machine.held_of_pickedEntry? he hticket)

/-- All invocations of an inactive process have ended. -/
theorem all_sent (hc : c.Sound) (he : c.machine.pickedEntry? h = some e)
    (hstatus : e.process.status = .inactive) (ht : (h, t) ∈ c.started) : t ∈ c.sent.keys := by
  rcases hc.pending h t ht with hsent | ⟨e', he', hticket⟩ | hgone
  · exact hsent
  · obtain rfl := Option.some.inj (he.symm.trans he')
    exact absurd ht (((hc.fits h e he).idle hstatus).2 t hticket h)
  · exact nomatch hgone.symm.trans he

theorem answered (hc : c.Sound) (ht : (h, t) ∈ c.started) {x : Exit}
    (hx : (c.machine.poll t).1 = some x) :
    (t, x) ∈ c.sent ∨ (x = .closed ∧ (t ∈ c.sent.keys ∨ c.machine.pickedEntry? h = none)) := by
  rw [Machine.poll] at hx
  split at hx
  · next x' hget =>
    obtain rfl := Option.some.inj hx
    exact .inl (hc.deposited t x' hget)
  · split at hx
    · cases hx
    · next hnobody =>
      obtain rfl := Option.some.inj hx
      refine .inr ⟨rfl, ?_⟩
      rcases hc.pending h t ht with hsent | ⟨e, he, hticket⟩ | hgone
      · exact .inl hsent
      · -- Somebody would have the ticket.
        refine absurd (List.any_eq_true.2 ?_) hnobody
        obtain ⟨e', hmem, hticket'⟩ := Machine.held_of_pickedEntry? he hticket
        exact ⟨(h, e'), List.mem_append.2 hmem, decide_eq_true hticket'⟩
      · exact .inr hgone

end Sound

/-- Whatever is done on a machine, in whatever order, and whatever the functions of the host do
    to processes by their operations: the life of processes and invocations is as it should be. -/
theorem lifecycle (settings : Settings) (host : σ) (sections : List (Section σ))
    (hbuilt : ∀ name f, .bind name f ∈ sections → f.Built) :
    ((new settings host).after sections).Lifecycle := by
  have hc := (sound_new settings host).after hbuilt
  refine ⟨hc.distinct, fun h hh => ⟨hc.known h hh, hc.tidy.orderly.handles h hh⟩,
    fun h e he hstatus => ?_, fun h e he hstatus => ?_, fun h e he hstatus more hmore => ?_, hc.once,
    hc.warranted, fun h t ht x hx => hc.answered ht hx⟩
  · obtain ⟨hframes, t, hticket, ht⟩ := (hc.fits h e he).going hstatus
    exact ⟨hframes, t, hticket, ht, hc.unsent he hticket⟩
  · obtain ⟨hframes, hticket⟩ := (hc.fits h e he).idle hstatus
    exact ⟨hframes, hticket, fun t ht => hc.all_sent he hstatus ht⟩
  · obtain ⟨hclosed, hstints⟩ := (hc.closed he hstatus).after hc hmore
    exact ⟨hclosed.finalizing, hstints⟩

/-- Three processes are started: one that takes a nap and has nothing to return after it, one
    that returns a number, and one that is closed before its first turn. -/
def threeStarts : List (Section Desk) :=
  [.bind "nap" Tool.nap.function, .create Invocation.napProgram, .create Invocation.sevenProgram,
    .create Invocation.sevenProgram, .run, .launch ⟨0⟩ "main", .launch ⟨1⟩ "main", .mark, .mark,
    .notify, .launch ⟨2⟩ "main", .finalize ⟨2⟩] ++ .replicate 20 .tick

theorem lifecycle_threeStarts :
    (∀ name f, .bind name f ∈ threeStarts → f.Built) ∧
      ((new .standard (default : Desk)).after threeStarts).sent =
        [(⟨0⟩, .faulted .stackUnderflow), (⟨1⟩, .completed)] ∧
      ((new .standard (default : Desk)).after threeStarts).Lifecycle := by
  have hbuilt : ∀ name f, .bind name f ∈ threeStarts → f.Built := by
    intro name f hf
    obtain ⟨-, rfl⟩ : name = "nap" ∧ f = Tool.nap.function := by
      simpa [threeStarts, List.replicate] using hf
    exact Tool.function_built .nap
  exact ⟨hbuilt, by decide +kernel, lifecycle .standard default threeStarts hbuilt⟩

end Chronicle

end ScriptMachine
