import ScriptMachine.Proofs.Happenings

/-!
# Closed processes

The instructions of a process are executed in its turns, and nowhere else. A host closes a process
gracefully, and then it does not run any more, or by force, and then it leaves the table at once.
But the scheduler has picked the processes of a sweep beforehand, and only looks at their status
when their turn comes. So a process that is removed in the middle of a sweep may have one more
turn.

A process that waits for its removal stays as it is only if the host does to it what can be done
by operations. A host that executes its instructions by hand can bring it to its end, and then it
can be started again.

* `Chronicle.Settles`: what may have happened to a process since it was closed: no start, and no
  exit but those of its late turns. `Settles.extend` is the step.
* `Chronicle.aftermath`: after a graceful close there is no turn any more. After a close by force
  there is at most one, and only if the process still had its turn in the current sweep.
* `Chronicle.turn_after_removal`: there is such a turn.
-/

namespace ScriptMachine

variable {σ : Type}

/-! ## Operations on a process that was closed -/

namespace Process

variable {p q : Process}

/-- A process that is in a function stays in one, and one that is finalizing stays so. -/
structure Persists (p q : Process) : Prop where
  frames : p.frames ≠ [] → q.frames ≠ []
  finalizing : p.status = .finalizing → q.status = .finalizing

theorem Persists.refl (p : Process) : p.Persists p := ⟨id, id⟩

theorem Stays.persists (h : p.Stays q) : p.Persists q := ⟨h.1, fun hp => h.2.trans hp⟩

theorem Kept.persists (h : p.Kept q) : p.Persists q :=
  ⟨fun hp => h.frames ▸ hp, h.finalizing⟩

theorem persists_attempt {x : Except Fault Process} (h : ∀ q, x = .ok q → p.Persists q) :
    p.Persists (p.attempt x) := by
  rcases x with f | q
  · exact .refl p
  · exact h q rfl

theorem persists_carryOut (p : Process) (op : Operation) : p.Persists (p.carryOut op) := by
  cases op with
  | push v => exact persists_attempt fun q hq => (stays_push hq).persists
  | pop =>
    refine persists_attempt fun q hq => ?_
    obtain ⟨v, hpop⟩ := exists_of_map_snd hq
    exact (stays_pop hpop).persists
  | popN n =>
    refine persists_attempt fun q hq => ?_
    obtain ⟨vs, hpop⟩ := exists_of_map_snd hq
    exact (stays_popN hpop).persists
  | setLocal slot v => exact persists_attempt fun q hq => (stays_setLocal hq).persists
  | enter id args =>
    refine persists_attempt fun q hq => ?_
    obtain ⟨hframes, hstatus⟩ := enter_eq_ok hq
    exact ⟨fun _ => hframes, fun hp => hstatus.trans hp⟩
  | pause => exact p.kept_pause.persists
  | wake => exact p.kept_wake.persists
  | exit | jump | setReturnValue | takeReturnValue | attach => exact ⟨id, id⟩

theorem persists_operate (p : Process) (ops : List Operation) : p.Persists (p.operate ops) := by
  induction ops generalizing p with
  | nil => exact .refl p
  | cons op ops ih =>
    have hfirst := p.persists_carryOut op
    have hrest := ih (p.carryOut op)
    exact ⟨fun hp => hrest.frames (hfirst.frames hp),
      fun hp => hrest.finalizing (hfirst.finalizing hp)⟩

end Process

/-- What is done to the process by visits is done by operations on it. -/
def Happening.Proper (h : Handle) : Happening σ → Prop
  | visit h' op => h' = h → ∀ p, ∃ ops, op p = p.operate ops
  | _ => True

/-- A visit by operations does not end the invocation of a process. -/
theorem Happening.Proper.persists {h : Handle} {op : Process → Process}
    (hx : (visit h op : Happening σ).Proper h) (p : Process) : p.Persists (op p) := by
  obtain ⟨ops, hops⟩ := hx rfl p
  exact hops ▸ p.persists_operate ops

theorem Entry.update_process (e : Entry) (p : Process) : (e.update p).1.process = p := by
  rw [update]
  split <;> rfl

/-- What is sent in a turn is the exit of the invocation that the process is in. -/
theorem Stint.ticket_of_sent {w : Stint σ} {t : Ticket} {exit : Exit}
    (hsent : w.sent = some (t, exit)) : w.entry.ticket = some t := by
  rw [Stint.sent] at hsent
  split at hsent
  · next hticket _ =>
    obtain ⟨rfl, -⟩ := Prod.mk.inj (Option.some.inj hsent)
    exact hticket
  · cases hsent

/-- The section in which a process is closed. -/
def Section.closing (h : Handle) (force : Bool) : Section σ :=
  if force then .remove h else .finalize h

/-- Only a process of the table can be closed. -/
theorem Machine.exists_of_close {m m' : Machine σ} {h : Handle} {force : Bool}
    (hclose : m.close h force = .ok m') : ∃ e, m.processes.get? h = some e := by
  rcases hget : m.processes.get? h with _ | e
  · have herror : m.entry h = .error (.noSuchProcess h) := by rw [entry, hget]
    rcases force with _ | _
    · rw [close, finalize, herror] at hclose
      cases hclose
    · rw [close, remove, herror] at hclose
      cases hclose
  · exact ⟨e, rfl⟩

/-! ## After the close -/

namespace Chronicle

variable {c d : Chronicle σ} {x : Happening σ} {h : Handle} {t : Ticket} {late : List (Stint σ)}

theorem given_extend (hgiven : h.number < d.machine.nextHandle) (x : Happening σ) :
    h.number < (d.extend x).machine.nextHandle := by
  rw [machine_extend]
  exact Nat.lt_of_lt_of_le hgiven (x.later d.site).handles

/-- A process that was there once is not a new one. -/
theorem becomes_of_extend (hd : d.machine.Tidy) (hgiven : h.number < d.machine.nextHandle)
    {e' : Entry} (he' : Machine.pickedEntry? (d.extend x).machine h = some e') :
    ∃ e, d.machine.pickedEntry? h = some e ∧ Happening.Becomes d.site h e x e' := by
  rw [machine_extend] at he'
  rcases Happening.entry_cases hd he' with ⟨rfl, -⟩ | hbecomes
  · exact absurd hgiven (Nat.lt_irrefl _)
  · exact hbecomes

/-- What is gone does not come back, whatever the host does. -/
theorem Gone.extend (hd : d.machine.Tidy) (hgone : d.Gone h) (x : Happening σ) :
    (d.extend x).Gone h := by
  refine ⟨given_extend hgone.given x, ?_⟩
  rcases hget : Machine.pickedEntry? (d.extend x).machine h with _ | e'
  · rfl
  · obtain ⟨e, he, -⟩ := becomes_of_extend hd hgone.given hget
    exact nomatch hgone.absent.symm.trans he

/-- What is finalizing stays so, if the host keeps to operations. -/
theorem Closed.extend (hd : d.machine.Tidy) (hclosed : d.Closed h) (hx : x.Proper h) :
    (d.extend x).Closed h := by
  refine ⟨given_extend hclosed.given x, fun e' he' => ?_⟩
  obtain ⟨e, he, hbecomes⟩ := becomes_of_extend hd hclosed.given he'
  have hfinal := hclosed.finalizing e he
  cases hbecomes with
  | kept hkept => exact hkept.process.finalizing hfinal
  | visited op =>
    rw [Entry.update_process]
    exact (hx.persists e.process).finalizing hfinal
  | started hinactive _ => exact nomatch hinactive.symm.trans hfinal
  | stint hstint _ hentry =>
    subst hentry
    exact nomatch (Machine.of_stint hstint).2.2.1.symm.trans hfinal

/-- The process was in the table and is not any more. -/
structure Removed (c : Chronicle σ) (h : Handle) : Prop where
  given : h.number < c.machine.nextHandle
  absent : h ∉ c.machine.processes.keys

theorem Removed.extend (hd : d.machine.Tidy) (hremoved : d.Removed h) (x : Happening σ) :
    (d.extend x).Removed h := by
  refine ⟨given_extend hremoved.given x, fun hh => ?_⟩
  rw [machine_extend] at hh
  rcases Happening.mem_keys hd hh with hh | rfl
  · exact hremoved.absent hh
  · exact absurd hremoved.given (Nat.lt_irrefl _)

/-- A process that was removed is gone, or has still its turn in the current sweep. -/
theorem Removed.gone_or_left (hd : d.Regular) (hremoved : d.Removed h) :
    d.Gone h ∨ h ∈ d.machine.left := by
  have hnone := Table.get?_eq_none_iff.2 hremoved.absent
  rcases hget : d.machine.picked.get? h with _ | e
  · exact .inl ⟨hremoved.given, (Machine.pickedEntry?_of_none hnone).trans hget⟩
  · exact .inr (hd.expects h (Table.mem_keys_of_get? hget))

/-- A process that was removed is gone after its turn. -/
theorem Removed.gone_of_stint {w : Stint σ} (hremoved : d.Removed h)
    (hstint : d.machine.stint? = some w) (hhandle : w.handle = h) :
    (d.extend (.act .tick)).Gone h := by
  subst hhandle
  refine ⟨given_extend hremoved.given _, ?_⟩
  exact (Machine.pickedEntry?_tick_self hstint).trans (if_neg hremoved.absent)

/-- What may have happened to a process from `c`, where it is closed, until `d`: nothing but the
    turns `late`. -/
structure Settles (c d : Chronicle σ) (h : Handle) (late : List (Stint σ)) : Prop where
  turns : d.stintsOf h = late ++ c.stintsOf h
  starts : ∀ t, (h, t) ∈ d.started ↔ (h, t) ∈ c.started
  /-- Only in these turns an invocation of the process comes to its end. -/
  exits : ∀ t exit, (h, t) ∈ c.started → d.machine.exits.get? t = some exit →
    c.machine.exits.get? t = some exit ∨ ∃ w ∈ late, w.sent = some (t, exit)

theorem Settles.refl (c : Chronicle σ) (h : Handle) : Settles c c h [] :=
  ⟨rfl, fun _ => .rfl, fun _ _ _ hexit => .inl hexit⟩

/-- One more happening, which is a turn of the process or not. -/
theorem Settles.extend (hd : d.Regular) (hsettles : Settles c d h late) (hx : x.Proper h)
    (hbarred : ∀ name e, x = .act (.launch h name) → d.machine.processes.get? h = some e →
      e.process.status ≠ .inactive) :
    Settles c (d.extend x) h late ∨
      ∃ w, x = .act .tick ∧ d.machine.stint? = some w ∧ w.handle = h ∧
        Settles c (d.extend x) h (w :: late) := by
  have hstarts : ∀ t, (h, t) ∈ (d.extend x).started ↔ (h, t) ∈ c.started := by
    intro t
    rw [← hsettles.starts t]
    refine ⟨fun ht => ?_, mem_started_extend⟩
    rcases started_of_extend ht with ht | ⟨name, rfl, hnew⟩
    · exact ht
    · obtain ⟨-, e, p, hget, hinactive, -⟩ := Sound.invocation_spec hnew
      exact absurd hinactive (hbarred name e rfl hget)
  have hexits : ∀ t exit, (h, t) ∈ c.started → (d.extend x).machine.exits.get? t = some exit →
      (c.machine.exits.get? t = some exit ∨ ∃ w ∈ late, w.sent = some (t, exit)) ∨
        ∃ w, x = .act .tick ∧ d.machine.stint? = some w ∧ w.handle = h ∧
          w.sent = some (t, exit) := by
    intro t exit ht hexit
    have howner := hd.owner h t ((hsettles.starts t).2 ht)
    rw [machine_extend] at hexit
    rcases Happening.exit_cases hd.tidy hexit with hexit | ⟨w, rfl, hstint, hsent⟩ |
      ⟨h', op, e, rfl, he, hticket, hframes, hnil⟩
    · exact .inl (hsettles.exits t exit ht hexit)
    · have hticket := Stint.ticket_of_sent hsent
      have hhandle := howner w.handle w.entry (Machine.of_stint hstint).2.1 hticket
      exact .inr ⟨w, rfl, hstint, hhandle, hsent⟩
    · -- Operations do not leave the last frame.
      obtain rfl := howner h' e he hticket
      exact absurd hnil ((hx.persists e.process).frames hframes)
  rcases stintsOf_extend d x h with ⟨hsame, hother⟩ | ⟨w, rfl, hstint, hhandle, hcons⟩
  · refine .inl ⟨hsame.trans hsettles.turns, hstarts, fun t exit ht hexit => ?_⟩
    refine (hexits t exit ht hexit).resolve_right ?_
    rintro ⟨w, hx, hstint, hhandle, -⟩
    exact hother w hx hstint hhandle
  · refine .inr ⟨w, rfl, hstint, hhandle, ?_, hstarts, fun t exit ht hexit => ?_⟩
    · rw [hcons, hsettles.turns, List.cons_append]
    · rcases hexits t exit ht hexit with (hexit | ⟨w', hw', hsent⟩) | ⟨w', -, hstint', -, hsent⟩
      · exact .inl hexit
      · exact .inr ⟨w', List.mem_cons_of_mem _ hw', hsent⟩
      · obtain rfl := Option.some.inj (hstint.symm.trans hstint')
        exact .inr ⟨w, List.mem_cons_self, hsent⟩

theorem settles_add {a : Section σ} (hc : c.Regular) (hlaunch : ∀ name, a ≠ .launch h name)
    (htick : a ≠ .tick) : Settles c (c.add a) h [] := by
  rcases (Settles.refl c h).extend (x := .act a) hc trivial
    fun name e hx => absurd (Happening.act.inj hx) (hlaunch name) with hsettles | ⟨w, hx, -⟩
  · exact hsettles
  · exact absurd (Happening.act.inj hx) htick

/-- A graceful close. -/
theorem closed_finalize {e : Entry} (hc : c.machine.Tidy)
    (hget : c.machine.processes.get? h = some e) : (c.add (.finalize h)).Closed h := by
  have hbelow := hc.below h e (Machine.pickedEntry?_of_get? hget)
  refine ⟨given_extend hbelow (.act (.finalize h)), fun e' he' => ?_⟩
  have hmachine : (c.add (.finalize h)).machine = c.machine.setEntry h
      { e with process := { e.process with status := .finalizing } } := by
    refine (Section.machine_finalize c.site h).trans ?_
    change c.machine.tried (c.machine.finalize h) = _
    rw [Machine.finalize, Machine.entry, hget]
    rfl
  rw [hmachine, Machine.pickedEntry?_setEntry_self, Option.some.injEq] at he'
  exact he' ▸ rfl

/-- A close by force. Nothing is kept of a process that has no turn in the current sweep. -/
theorem removed_remove {e : Entry} (hc : c.machine.Tidy)
    (hget : c.machine.processes.get? h = some e) :
    (c.add (.remove h)).Removed h ∧
      ((c.add (.remove h)).Gone h ∨
        (h ∈ c.machine.left ∧ h ∈ (c.add (.remove h)).machine.left)) := by
  have hbelow := hc.below h e (Machine.pickedEntry?_of_get? hget)
  have hgiven := given_extend hbelow (.act (.remove h))
  have hmachine : (c.add (.remove h)).machine =
      { c.machine with
        processes := c.machine.processes.erase h
        picked := if h ∈ c.machine.left then c.machine.picked.insert h e else c.machine.picked } := by
    change c.machine.tried (c.machine.remove h) = _
    rw [Machine.remove, Machine.entry, hget]
    rfl
  have herased := Table.get?_erase_self c.machine.processes h
  refine ⟨⟨hgiven, ?_⟩, ?_⟩
  · rw [hmachine]
    exact Table.get?_eq_none_iff.1 herased
  · by_cases hleft : h ∈ c.machine.left
    · exact .inr ⟨hleft, hmachine ▸ hleft⟩
    · refine .inl ⟨hgiven, ?_⟩
      have hpicked := Table.get?_eq_none_iff.2 (hc.apart h (Table.mem_keys_of_get? hget))
      rw [hmachine, if_neg hleft, Machine.pickedEntry?, herased, hpicked]
      rfl

/-- Nothing happens any more to a process that is finalizing. -/
theorem Closed.settles (hd : d.Regular) (hclosed : d.Closed h) (hsettles : Settles c d h late)
    (hx : x.Proper h) : Settles c (d.extend x) h late := by
  refine (hsettles.extend hd hx fun name e _ hget hinactive => ?_).resolve_right ?_
  · have hfinal := hclosed.finalizing e (Machine.pickedEntry?_of_get? hget)
    exact nomatch hinactive.symm.trans hfinal
  · rintro ⟨w, -, hstint, rfl, -⟩
    obtain ⟨-, hget, hrunning, -⟩ := Machine.of_stint hstint
    exact nomatch hrunning.symm.trans (hclosed.finalizing _ hget)

theorem Gone.closed (hgone : d.Gone h) : d.Closed h :=
  ⟨hgone.given, fun _ he => nomatch hgone.absent.symm.trans he⟩

/-- A process that was removed has its turn, and is gone then, or nothing happens to it. -/
theorem Removed.settles (hd : d.Regular) (hremoved : d.Removed h) (hsettles : Settles c d h late)
    (hx : x.Proper h) :
    Settles c (d.extend x) h late ∨
      ∃ w, Settles c (d.extend x) h (w :: late) ∧ (d.extend x).Gone h := by
  have hbarred : ∀ name e, x = .act (.launch h name) → d.machine.processes.get? h = some e →
      e.process.status ≠ .inactive :=
    fun _ _ _ hget => absurd (Table.mem_keys_of_get? hget) hremoved.absent
  rcases hsettles.extend hd hx hbarred with hsettles | ⟨w, rfl, hstint, hhandle, hsettles⟩
  · exact .inl hsettles
  · exact .inr ⟨w, hsettles, hremoved.gone_of_stint hstint hhandle⟩

/-- What becomes of a process from `c`, where it is closed, until `d`. -/
structure Aftermath (c d : Chronicle σ) (h : Handle) (force : Bool) (late : List (Stint σ)) :
    Prop extends Settles c d h late where
  /-- It has no turn any more, or one that it still had in the current sweep when it was
      removed. -/
  last : late = [] ∨ (force = true ∧ h ∈ c.machine.left ∧ late.length = 1 ∧ d.Gone h)
  /-- By force it leaves the table at once. It is gone, unless it has still its turn in the sweep
      in which it was removed. -/
  forced : force = true → d.Removed h ∧ (d.Gone h ∨ (h ∈ c.machine.left ∧ h ∈ d.machine.left))
  graceful : force = false → d.Closed h

/-- The close itself. -/
theorem aftermath_closing (hc : c.Regular) {e : Entry} (hget : c.machine.processes.get? h = some e)
    (force : Bool) : Aftermath c (c.add (.closing h force)) h force [] := by
  rcases force with _ | _
  · have hsettles : Settles c (c.add (.finalize h)) h [] := settles_add hc (fun _ => nofun) nofun
    exact ⟨hsettles, .inl rfl, nofun, fun _ => closed_finalize hc.tidy hget⟩
  · have hsettles : Settles c (c.add (.remove h)) h [] := settles_add hc (fun _ => nofun) nofun
    exact ⟨hsettles, .inl rfl, fun _ => removed_remove hc.tidy hget, nofun⟩

namespace Aftermath

/-- Nothing more happens to a process that is gone. -/
theorem extend_of_gone (hd : d.Regular) (ha : Aftermath c d h true late) (hgone : d.Gone h)
    (hx : x.Proper h) : Aftermath c (d.extend x) h true late := by
  have hgone' := hgone.extend hd.tidy x
  refine ⟨hgone.closed.settles hd ha.toSettles hx, ?_, fun _ => ?_, nofun⟩
  · exact ha.last.imp_right fun ⟨hforce, hleft, hone, _⟩ => ⟨hforce, hleft, hone, hgone'⟩
  · exact ⟨(ha.forced rfl).1.extend hd.tidy x, .inl hgone'⟩

/-- One more happening. -/
theorem extend {force : Bool} (hd : d.Regular) (ha : Aftermath c d h force late)
    (hx : x.Proper h) : ∃ late, Aftermath c (d.extend x) h force late := by
  rcases force with _ | _
  · have hclosed := ha.graceful rfl
    refine ⟨late, hclosed.settles hd ha.toSettles hx, ?_, nofun, fun _ => ?_⟩
    · exact .inl (ha.last.resolve_right fun ⟨hforce, _⟩ => nomatch hforce)
    · exact hclosed.extend hd.tidy hx
  · obtain ⟨hremoved, hgone | ⟨hleft, -⟩⟩ := ha.forced rfl
    · exact ⟨late, ha.extend_of_gone hd hgone hx⟩
    · rcases ha.last with rfl | ⟨-, -, -, hgone⟩
      · have hremoved' := hremoved.extend hd.tidy x
        have hgone' := (hremoved'.gone_or_left (hd.extend x)).imp_right fun hleft' =>
          And.intro hleft hleft'
        rcases hremoved.settles hd ha.toSettles hx with hsettles | ⟨w, hsettles, hgone⟩
        · exact ⟨[], hsettles, .inl rfl, fun _ => ⟨hremoved', hgone'⟩, nofun⟩
        · -- This is the last turn.
          exact ⟨[w], hsettles, .inr ⟨rfl, hleft, rfl, hgone⟩, fun _ => ⟨hremoved', hgone'⟩, nofun⟩
      · exact ⟨late, ha.extend_of_gone hd hgone hx⟩

/-- Any number of happenings. -/
theorem along {force : Bool} {later : List (Happening σ)} (hd : d.Regular)
    (ha : Aftermath c d h force late) (hlater : ∀ x ∈ later, x.Proper h) :
    ∃ late, Aftermath c (d.along later) h force late := by
  refine (along_preserves (P := fun d => d.Regular ∧ ∃ late, Aftermath c d h force late)
    ⟨hd, late, ha⟩ ?_).2
  rintro d x hx ⟨hd, late, ha⟩
  exact ⟨hd.extend x, ha.extend hd (hlater x hx)⟩

end Aftermath

/-- Whatever has happened before, and whatever happens later, if the host does to the process what
    it can do by operations: a process that was closed gracefully stays stopped. One that was
    closed by force has at most one turn more, and only if it still had it in the current sweep. -/
theorem aftermath (settings : Settings) (host : σ) (before later : List (Happening σ)) (h : Handle)
    (force : Bool) {m : Machine σ}
    (hclose : ((new settings host).along before).machine.close h force = .ok m)
    (hlater : ∀ x ∈ later, x.Proper h) :
    ∃ late, Aftermath ((new settings host).along before)
      ((((new settings host).along before).add (.closing h force)).along later) h force late := by
  have hc := regular_along (regular_new settings host) before
  obtain ⟨e, hget⟩ := Machine.exists_of_close hclose
  exact (aftermath_closing hc hget force).along (hc.extend (.act (.closing h force))) hlater

/-- A program that makes a remark and returns a number. -/
def remarkProgram : Program where
  strings := #["hi", "print"]
  functions := #[.compiled (.ofCode #[.ofNat .pushString 0, .ofNat .pushString 1,
    .ofNat .external 1, .ofInt .pushInt 1, .bare .ret])]
  names := [("main", 0)]

/-- A process was started, has been looked up for a visit, and was picked for a sweep. -/
def midSweep : Chronicle Desk :=
  (new .standard default).along [.act (.bind "print" Tool.print.function),
    .act (.create remarkProgram), .act .run, .act (.launch ⟨0⟩ "main"), .act .mark, .act .notify,
    .act (.find ⟨0⟩), .act .tick, .act .tick, .act .tick]

/-- The host visits the process, and the scheduler goes on. -/
def lateVisit : List (Happening Desk) :=
  [.visit ⟨0⟩ fun p => p.setReturnValue .unit, .act .tick, .act .tick]

theorem aftermath_midSweep :
    (∃ m, midSweep.machine.close ⟨0⟩ true = .ok m) ∧ (∀ x ∈ lateVisit, x.Proper ⟨0⟩) ∧
      ∃ w, Aftermath midSweep ((midSweep.add (.closing ⟨0⟩ true)).along lateVisit) ⟨0⟩ true [w] := by
  obtain ⟨m, hclose⟩ : ∃ m, midSweep.machine.close ⟨0⟩ true = .ok m := ⟨_, rfl⟩
  have hlater : ∀ x ∈ lateVisit, x.Proper ⟨0⟩ := by
    intro x hx
    simp only [lateVisit, List.mem_cons, List.not_mem_nil, or_false] at hx
    rcases hx with rfl | rfl | rfl
    · exact fun _ p => ⟨[.setReturnValue .unit], rfl⟩
    · trivial
    · trivial
  obtain ⟨late, hlate⟩ := aftermath .standard default _ lateVisit ⟨0⟩ true hclose hlater
  refine ⟨⟨m, hclose⟩, hlater, ?_⟩
  rcases hlate.last with rfl | ⟨-, -, hone, -⟩
  · -- There is one turn, so this is not the case.
    have hturn : (((midSweep.add (.closing ⟨0⟩ true)).along lateVisit).stintsOf ⟨0⟩).length ≠
        (midSweep.stintsOf ⟨0⟩).length := by decide +kernel
    exact absurd (congrArg List.length hlate.turns) hturn
  · obtain ⟨w, rfl⟩ := List.length_eq_one_iff.1 hone
    exact ⟨w, hlate⟩

/-- The process is closed gracefully, but a host that executes its two instructions by hand brings
    it to its end, and starts it again. -/
example :
    let step (p : Process) : Process := (p.step (⟨[], .ignore⟩ : Host Unit) ⟨0⟩ ()).process
    let c := (new .standard ()).along [.act (.create Invocation.sevenProgram),
      .act (.launch ⟨0⟩ "main"), .act (.find ⟨0⟩), .act (.find ⟨0⟩), .act (.finalize ⟨0⟩),
      .visit ⟨0⟩ step, .visit ⟨0⟩ step, .act (.launch ⟨0⟩ "main")]
    c.started = [(⟨0⟩, ⟨1⟩), (⟨0⟩, ⟨0⟩)] ∧ c.machine.exits = [(⟨0⟩, .completed)] := by
  decide +kernel

/-- The process is closed by force before its turn. It still makes its remark, and its invocation
    is completed. A graceful close in the same place stops it. -/
theorem turn_after_removal :
    midSweep.machine.host.journal = #[] ∧ midSweep.machine.exits = [] ∧
      (midSweep.machine.close ⟨0⟩ true).isOk = true ∧
      ((midSweep.add (.remove ⟨0⟩)).extend (.act .tick)).machine.host.journal = #["#0:hi"] ∧
      ((midSweep.add (.remove ⟨0⟩)).extend (.act .tick)).machine.exits = [(⟨0⟩, .completed)] ∧
      ((midSweep.add (.finalize ⟨0⟩)).extend (.act .tick)).machine.host.journal = #[] ∧
      ((midSweep.add (.finalize ⟨0⟩)).extend (.act .tick)).machine.exits = [] := by
  decide +kernel

end Chronicle

end ScriptMachine
