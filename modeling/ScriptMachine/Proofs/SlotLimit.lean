import ScriptMachine.Proofs.Frames
import ScriptMachine.Proofs.Instructions

/-!
# The limit on the slots

A function has at most `maxLocals` slots. That is checked in two places: a function whose code
addresses more slots is not entered, and setting a slot from the limit on fails. It is not
checked for arguments. All of them get a slot when a function is entered, and nobody counts
them.

Processes are taken as far as operations, instructions and steps lead, whatever functions the
host has (`Process.Touched`). If no function is entered with more than `n` arguments in
between, then no frame has more slots than the limit or `n + 1`, whichever is greater.

* `Process.Capped.carryOut`, `Process.Capped.perform`: what an operation and an instruction
  preserve.
* `Process.Touched.capped`: so does all that leads from one process to another.
* `Process.Touched.slots_limited`: the slots from the limit on can be neither set nor read,
  unless a function was entered with so many arguments.
* `Process.surplus_beyond_limit`: a slot that is read although it lies beyond the limit.
-/

namespace ScriptMachine

variable {σ : Type}

/-- The operation does not enter a function with more than `n` arguments. -/
def Operation.Passes (n : Nat) : Operation → Prop
  | .enter _ args => args.length ≤ n
  | _ => True

namespace Process

variable {p q : Process} {f : Frame} {rest : List Frame} {i : Instruction} {n slot : Nat}
  {v : Value} {vs : List Value} {host : Host σ} {handle : Handle} {s : σ}

/-- If the instruction is a call for which all operands are there, then it has no more than `n`
    arguments. -/
def Passes (n : Nat) (p : Process) (i : Instruction) : Prop :=
  i.opcode = .call → ∀ f rest, p.frames = f :: rest → i.index < f.stack.length → i.index ≤ n

/-- What serves such an instruction does not enter a function with more arguments either. -/
theorem Passes.of_serves (hi : p.Passes n i) {op : Operation} (hop : op.Serves p i) :
    op.Passes n := by
  cases op with
  | enter id args =>
    obtain ⟨hcall, hlength, f, rest, hp, hlt⟩ := hop
    exact Nat.le_trans (Nat.le_of_eq hlength) (hi hcall f rest hp hlt)
  | _ => trivial

/-! ## The number of slots -/

/-- All frames keep to the limit on slots, or to the slots for `n` arguments. -/
def Capped (n : Nat) (p : Process) : Prop := ∀ f ∈ p.frames, f.locals.size ≤ max maxLocals (n + 1)

/-- The current frame is replaced by one that keeps to the limit. -/
theorem Capped.replace (h : p.Capped n) (hp : p.frames = f :: rest) {g : Frame}
    (hq : q.frames = g :: rest) (hg : f.locals.size ≤ max maxLocals (n + 1) →
      g.locals.size ≤ max maxLocals (n + 1)) : q.Capped n := by
  rw [Capped, hp, List.forall_mem_cons] at h
  rw [Capped, hq, List.forall_mem_cons]
  exact ⟨hg h.1, h.2⟩

theorem Capped.push (h : p.Capped n) (hq : p.push v = .ok q) : q.Capped n := by
  rw [Process.push] at hq
  split at hq
  · cases hq
  · next f rest hp =>
    cases hq
    exact h.replace hp rfl id

theorem Capped.pop (h : p.Capped n) (hq : p.pop = .ok (v, q)) : q.Capped n := by
  rw [Process.pop] at hq
  split at hq
  · cases hq
  · next f rest hp =>
    split at hq
    · cases hq
    · cases hq
      exact h.replace hp rfl id

theorem Capped.popN {k : Nat} (h : p.Capped n) (hq : p.popN k = .ok (vs, q)) : q.Capped n := by
  rw [Process.popN] at hq
  split at hq
  · cases hq
  · next f rest hp =>
    split at hq
    · cases hq
    · cases hq
      exact h.replace hp rfl id

/-- Slots are added up to the limit only. -/
theorem Capped.setLocal (h : p.Capped n) (hq : p.setLocal slot v = .ok q) : q.Capped n := by
  rw [Process.setLocal] at hq
  split at hq
  · cases hq
  · next hslot =>
    split at hq
    · cases hq
    · next f rest hp =>
      cases hq
      refine h.replace hp rfl fun hf => ?_
      dsimp only
      rw [Program.size_setFilling]
      omega

/-- A function that is entered has no more slots than its code may address, unless there are
    more arguments. -/
theorem Capped.enter {id : Nat} {args : List Value} (h : p.Capped n) (hargs : args.length ≤ n)
    (hq : p.enter id args = .ok q) : q.Capped n := by
  rw [Process.enter] at hq
  split at hq
  · cases hq
  · split at hq
    · next body _ =>
      split at hq
      · cases hq
      · next hslots =>
        cases hq
        refine List.forall_mem_cons.2 ⟨?_, h⟩
        rw [Frame.size_locals_enter]
        omega
    all_goals cases hq

theorem Capped.attempt {x : Except Fault Process} (h : p.Capped n)
    (hx : ∀ q, x = .ok q → q.Capped n) : (p.attempt x).Capped n := by
  cases x with
  | error e => exact h
  | ok q => exact hx q rfl

theorem Capped.carryOut (h : p.Capped n) (op : Operation) (hop : op.Passes n) :
    (p.carryOut op).Capped n := by
  cases op with
  | push v => exact h.attempt fun q hq => h.push hq
  | pop =>
    refine h.attempt fun q hq => ?_
    obtain ⟨v, hpop⟩ := exists_of_map_snd hq
    exact h.pop hpop
  | popN k =>
    refine h.attempt fun q hq => ?_
    obtain ⟨vs, hpop⟩ := exists_of_map_snd hq
    exact h.popN hpop
  | setLocal slot v => exact h.attempt fun q hq => h.setLocal hq
  | enter id args => exact h.attempt fun q hq => h.enter hop hq
  | pause | wake =>
    simp only [Process.carryOut, pause, wake]
    split
    · exact h
    · exact h
  | exit | jump | setReturnValue | takeReturnValue | attach => exact h

theorem Capped.execute (h : p.Capped n) (hi : p.Passes n i) : (p.execute i).1.Capped n :=
  (made_execute p i).preserves h fun _ op hop hq => hq.carryOut op (hi.of_serves hop)

theorem Capped.popFrame (h : p.Capped n) (hq : p.popFrame = .ok q) : q.Capped n := by
  rw [Process.popFrame] at hq
  split at hq
  · cases hq
  · cases hq
    exact fun _ hf => absurd hf List.not_mem_nil
  · next f caller rest hp =>
    rw [Capped, hp, List.forall_mem_cons] at h
    -- A value that is returned does not touch the slots of the caller.
    split at hq
    · cases hq
      exact h.2
    · cases hq
      exact List.forall_mem_cons.2 (List.forall_mem_cons.1 h.2)

theorem Capped.setIp (h : p.Capped n) (depth : Nat) (ip : Nat → Nat) :
    (p.setIp depth ip).Capped n := by
  rw [Process.setIp]
  split
  · intro g hg
    obtain ⟨k, hk⟩ := List.mem_iff_getElem?.1 hg
    rw [List.getElem?_modify] at hk
    cases hf : p.frames[k]? with
    | none => simp [hf] at hk
    | some f =>
      have hsize := h f (List.mem_of_getElem? hf)
      rw [hf] at hk
      cases hk
      dsimp only
      split
      · exact hsize
      · exact hsize
  · exact h

theorem Capped.proceed (h : p.Capped n) (depth : Nat) (hq : p.proceed depth = .ok q) :
    q.Capped n := by
  have hsettled : ({ p with transfer := none } : Process).Capped n := h
  rw [Process.proceed] at hq
  split at hq
  · exact hsettled.popFrame hq
  · cases hq
    exact hsettled.setIp depth _
  · cases hq
    exact hsettled.setIp depth _

theorem Capped.settle {t : Turn σ} (h : t.process.Capped n) (depth : Nat) :
    (settle depth t).process.Capped n := by
  rw [Process.settle]
  split
  · exact h
  · split
    · next q hq => exact h.proceed depth hq
    · exact h

/-- An instruction keeps to the limit, if the function of the host that it calls does. -/
theorem Capped.perform (h : p.Capped n) (hi : p.Passes n i)
    (hcall : ∀ q name args f, p.execute i = (q, .ok (.request name args)) →
      host.functions.get? name = some f → q.Capped n → (f handle args q s).process.Capped n) :
    (perform host handle i p s).process.Capped n := by
  have hexecute : (p.execute i).1.Capped n := h.execute hi
  rw [Process.perform]
  split
  · next hx => rwa [hx] at hexecute
  · next hx => rwa [hx] at hexecute
  · next q name args hx =>
    rw [hx] at hexecute
    rw [Host.call]
    split
    · next f hf => exact hcall q name args f hx hf hexecute
    · split
      · exact hexecute
      · rw [ofResult_process]
        exact hexecute.attempt fun r hr => hexecute.push hr
      · exact hexecute

/-! ## What can happen to a process -/

/-- What operations, instructions and steps make of a process, if no function is entered with
    more than `n` arguments. The functions of the host may do all this as well. -/
inductive Touched (n : Nat) : Process → Process → Prop where
  | refl (p : Process) : Touched n p p
  | operation {p q : Process} (h : Touched n p q) (op : Operation) (hop : op.Passes n) :
      Touched n p (q.carryOut op)
  | perform {σ : Type} {p q : Process} (h : Touched n p q) (host : Host σ) (handle : Handle)
      (i : Instruction) (s : σ) (hi : q.Passes n i)
      (hcall : ∀ r name args f, q.execute i = (r, .ok (.request name args)) →
        host.functions.get? name = some f → Touched n r (f handle args r s).process) :
      Touched n p (perform host handle i q s).process
  | step {σ : Type} {p q : Process} (h : Touched n p q) (host : Host σ) (handle : Handle) (s : σ)
      (hi : ∀ i, q.current = .ok (some i) → q.Passes n i)
      (hcall : ∀ i r name args f, q.current = .ok (some i) →
        q.execute i = (r, .ok (.request name args)) →
        host.functions.get? name = some f → Touched n r (f handle args r s).process) :
      Touched n p (q.step host handle s).process

/-- All that can happen to a process keeps to the limit. -/
theorem Touched.capped (h : Touched n p q) (hp : p.Capped n) : q.Capped n := by
  induction h with
  | refl p => exact hp
  | operation _ op hop ih => exact (ih hp).carryOut op hop
  | perform _ host handle i s hi _ ih hcall =>
    exact (ih hp).perform hi fun r name args f hx hf hr => hcall r name args f hx hf hr
  | @step σ p q _ host handle s hi _ ih hcall =>
    have hq : q.Capped n := ih hp
    rw [Process.step]
    split
    · exact hq
    · rw [ofResult_process]
      exact hq.attempt fun r hr => hq.popFrame hr
    · next i hcurrent =>
      refine Capped.settle (hq.perform (hi i hcurrent) ?_) _
      exact fun r name args f hx hf hr => hcall i r name args f hcurrent hx hf hr

/-- Whatever happens to a new process in which no function is entered with more than `n`
    arguments: its frames have no more slots than the limit or `n + 1`, and the slots from the limit
    on cannot be set, and cannot be read unless there was an argument for them. So with fewer
    arguments than the limit all slots from there on are out of reach. -/
theorem Touched.slots_limited {program : Program} {maxDepth : Nat}
    (h : Touched n (new program maxDepth) p) :
    (∀ f ∈ p.frames, f.locals.size ≤ max maxLocals (n + 1)) ∧
      ∀ slot, maxLocals ≤ slot →
        (∀ v, p.setLocal slot v = .error (.localOutOfRange slot maxLocals)) ∧
        (n < slot → p.getLocal slot =
          .error (if p.frames = [] then .noActiveFrame else .noSuchLocal slot)) := by
  have hcapped : p.Capped n := h.capped fun _ hf => absurd hf List.not_mem_nil
  refine ⟨hcapped, fun slot hslot => ⟨fun v => if_pos hslot, fun hn => ?_⟩⟩
  rw [getLocal]
  split
  · next hp => rw [if_pos hp]
  · next f rest hp =>
    have hsize : f.locals.size ≤ slot := by
      have hf := hcapped f (hp ▸ List.mem_cons_self)
      omega
    rw [if_neg (by simp [hp]), Array.getElem?_eq_none hsize]

/-- A program with a function that calls one of the host with an argument. -/
def telling : Program where
  strings := #[]
  functions := #[.compiled (.ofCode #[.ofNat .external 1])]
  names := [("main", 0)]

/-- The host of that program has a function that leaves a value. -/
def listener : Host Desk := ⟨[("setret", Tool.setReturn.function)], .fault⟩

theorem Touched.slots_limited_telling :
    ∃ p, Touched 1 (new telling 2) p ∧ p.frames ≠ [] ∧ p.returnValue = some (.int 7) ∧
      ∀ slot, maxLocals ≤ slot → p.getLocal slot = .error (.noSuchLocal slot) := by
  let first := (new telling 2).carryOut (.enter 0 [.unit])
  let ready := (first.carryOut (.push (.int 7))).carryOut (.push (.string "setret"))
  have hready : Touched 1 (new telling 2) ready :=
    .operation (.operation (.operation (.refl _) (.enter 0 [.unit]) (Nat.le_refl 1)) (.push _)
      trivial) (.push _) trivial
  have hcurrent : ready.current = .ok (some (.ofNat .external 1)) := rfl
  have hstep : Touched 1 (new telling 2) (ready.step listener ⟨0⟩ {}).process := by
    refine .step hready listener ⟨0⟩ {} (fun i hi hop => ?_) fun i r name args f _ _ hf => ?_
    · rw [hcurrent] at hi
      cases hi
      cases hop
    · obtain ⟨-, rfl⟩ : "setret" = name ∧ Tool.setReturn.function = f := by
        simpa [listener, Table.get?] using hf
      exact .operation (.refl r) (.setReturnValue (Tool.first args)) trivial
  have hframes : (ready.step listener ⟨0⟩ {}).process.frames ≠ [] := by decide +kernel
  refine ⟨_, hstep, hframes, by decide +kernel, fun slot hslot => ?_⟩
  have hget := (hstep.slots_limited.2 slot hslot).2 (Nat.lt_of_lt_of_le (by decide) hslot)
  rwa [if_neg hframes] at hget

/-! ## Arguments beyond the limit -/

/-- Every argument can be read in a function that was just entered. -/
theorem getLocal_enter {id k : Nat} {args : List Value} (h : p.enter id args = .ok q)
    (hk : args[k]? = some v) : q.getLocal (k + 1) = .ok v := by
  rw [enter_eq] at h
  cases hcallee : p.entered id args with
  | error e =>
    rw [hcallee] at h
    cases h
  | ok callee =>
    rw [hcallee] at h
    cases h
    obtain ⟨body, -, rfl⟩ := entered_eq_ok hcallee
    refine (getLocal_eq rfl (k + 1)).trans ?_
    rw [slotValue_enter, hk]

/-- A program with a function that does nothing. -/
def idle : Program where
  strings := #[]
  functions := #[.compiled (.ofCode #[.bare .nop])]
  names := [("main", 0)]

/-- With as many arguments as there may be slots, the last one lies beyond the limit, and is read
    there. -/
theorem surplus_beyond_limit :
    ∃ p f, (new idle 1).enter 0 (List.replicate maxLocals .unit) = .ok p ∧ p.frames = [f] ∧
      f.locals.size = maxLocals + 1 ∧ p.getLocal maxLocals = .ok .unit := by
  have henter (args : List Value) :
      (new idle 1).enter 0 args = .ok ((new idle 1).onFrames [.enter 0 0 args]) := rfl
  refine ⟨_, _, henter _, rfl, ?_, ?_⟩
  · rw [Frame.size_locals_enter, List.length_replicate]
    exact Nat.max_eq_right (Nat.zero_le _)
  · exact getLocal_enter (k := 65535) (henter _) (by rw [List.getElem?_replicate]; rfl)

end Process

end ScriptMachine
