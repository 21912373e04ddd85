import Mathlib.Control.Monad.Basic
import ScriptMachine.Proofs.Events

/-!
# Starts that fail

A start can fail at five points: there is no such process, it is about to be removed, it is in a
function already, the program has no function of that name, or that function cannot be entered.
At the first four of them nothing has been done yet. At the last one the process has already been
made ready for the new invocation: whatever an earlier invocation has left is gone, the value that
waits for the host included.

* `Machine.start_eq_error_iff`: the ways in which a start fails (`Machine.Refuses`), with the
  machine that it leaves.
* `Machine.start_spares`: all other processes stay as they are. So does the process itself, unless
  its function cannot be entered.
* `Machine.start_forgets`: a value that is lost in that way.
-/

namespace ScriptMachine

variable {σ : Type}

/-- Why a function cannot be entered as the first one of a process, and without arguments. -/
inductive Program.Unenterable (program : Program) (maxDepth id : Nat) : Fault → Prop where
  | noDepth (hdepth : maxDepth = 0) : Unenterable program maxDepth id (.stackOverflow 0)
  | missing (hdepth : maxDepth ≠ 0) (hentry : program.function? id = none) :
      Unenterable program maxDepth id (.badFunctionId id)
  | unset (hdepth : maxDepth ≠ 0) (hentry : program.function? id = some .unset) :
      Unenterable program maxDepth id (.invalidFunctionEntry id)
  | imported (hdepth : maxDepth ≠ 0) {file name : String}
      (hentry : program.function? id = some (.imported file name)) :
      Unenterable program maxDepth id (.importedUnsupported file name)
  | oversized (hdepth : maxDepth ≠ 0) {body : Body}
      (hentry : program.function? id = some (.compiled body)) (hslots : maxLocals < body.slots) :
      Unenterable program maxDepth id (.localOutOfRange (body.slots - 1) maxLocals)

theorem Program.Unenterable.enter {p : Process} {id : Nat} {f : Fault}
    (h : p.program.Unenterable p.maxDepth id f) : p.reset.enter id [] = .error f := by
  cases h with
  | noDepth hdepth => simp [Process.enter, Process.reset, hdepth]
  | missing hdepth hentry | unset hdepth hentry | imported hdepth hentry =>
    simp [Process.enter, Process.reset, hdepth.symm, hentry]
  | oversized hdepth hentry hslots =>
    simp [Process.enter, Process.reset, hdepth.symm, hentry, hslots]

/-- There is no other reason. -/
theorem Process.unenterable_of_enter {p : Process} {id : Nat} {f : Fault}
    (h : p.reset.enter id [] = .error f) : p.program.Unenterable p.maxDepth id f := by
  have hunique {g : Fault} (hg : p.program.Unenterable p.maxDepth id g) :
      p.program.Unenterable p.maxDepth id f := by
    obtain rfl : g = f := Except.error.inj (hg.enter.symm.trans h)
    exact hg
  by_cases hdepth : p.maxDepth = 0
  · exact hunique (.noDepth hdepth)
  · rcases hentry : p.program.function? id with _ | _ | body | ⟨file, name⟩
    · exact hunique (.missing hdepth hentry)
    · exact hunique (.unset hdepth hentry)
    · by_cases hslots : maxLocals < body.slots
      · exact hunique (.oversized hdepth hentry hslots)
      · simp [enter, reset, Ne.symm hdepth, hentry, hslots] at h
    · exact hunique (.imported hdepth hentry)

namespace Machine

variable {m m' : Machine σ} {h : Handle} {name : String} {error : MachineError} {e : Entry}

/-- The ways in which a start fails, and what it leaves of the machine. -/
inductive Refuses (m : Machine σ) (h : Handle) (name : String) : MachineError → Machine σ → Prop where
  | absent (hget : m.processes.get? h = none) : Refuses m h name (.noSuchProcess h) m
  | closing {e : Entry} (hget : m.processes.get? h = some e)
      (hstatus : e.process.status = .finalizing) : Refuses m h name (.noSuchProcess h) m
  | active {e : Entry} (hget : m.processes.get? h = some e)
      (hstatus : e.process.status = .running ∨ e.process.status = .sleeping) :
      Refuses m h name (.alreadyRunning h) m
  | unknown {e : Entry} (hget : m.processes.get? h = some e)
      (hstatus : e.process.status = .inactive)
      (hname : e.process.program.functionId? name = none) :
      Refuses m h name (.noSuchFunction name) m
  | unenterable {e : Entry} {id : Nat} {f : Fault} (hget : m.processes.get? h = some e)
      (hstatus : e.process.status = .inactive)
      (hname : e.process.program.functionId? name = some id)
      (hentry : e.process.program.Unenterable e.process.maxDepth id f) :
      Refuses m h name (.invalidEntry name f)
        ({ m with nextTicket := m.nextTicket + 1 }.setEntry h
          ⟨e.process.reset, some ⟨m.nextTicket⟩⟩)

/-- Where a process of the table can be started. -/
theorem entryPoint_of_get (hget : m.processes.get? h = some e) :
    m.entryPoint h name = match e.process.status with
      | .running | .sleeping => .error (.alreadyRunning h)
      | .finalizing => .error (.noSuchProcess h)
      | .inactive =>
        match e.process.program.functionId? name with
        | some id => .ok (e, id)
        | none => .error (.noSuchFunction name) := by
  rw [entryPoint, entry, hget]
  rfl

/-- What is refused without looking at the function has left no trace. -/
theorem start_of_entryPoint (hpoint : m.entryPoint h name = .error error) :
    m.start h name = (.error error, m) := by
  rw [start, launch, hpoint]

theorem Refuses.start (hrefuses : m.Refuses h name error m') :
    m.start h name = (.error error, m') := by
  cases hrefuses with
  | absent hget =>
    refine start_of_entryPoint ?_
    rw [entryPoint, entry, hget]
    rfl
  | closing hget hstatus =>
    exact start_of_entryPoint (by rw [entryPoint_of_get hget, hstatus])
  | active hget hstatus =>
    refine start_of_entryPoint ?_
    rw [entryPoint_of_get hget]
    rcases hstatus with hstatus | hstatus <;> rw [hstatus]
  | unknown hget hstatus hname =>
    refine start_of_entryPoint ?_
    rw [entryPoint_of_get hget, hstatus]
    simp only [hname]
  | @unenterable e id f hget hstatus hname hentry =>
    have hpoint : m.entryPoint h name = .ok (e, id) := by
      rw [entryPoint_of_get hget, hstatus]
      simp only [hname]
    rw [Machine.start, launch, hpoint]
    simp only [hentry.enter]

/-- The ways in which a start fails. -/
theorem start_eq_error_iff : m.start h name = (.error error, m') ↔ m.Refuses h name error m' := by
  refine ⟨fun hstart => ?_, Refuses.start⟩
  have hunique {error₁ : MachineError} {m₁ : Machine σ} (hrefuses : m.Refuses h name error₁ m₁) :
      m.Refuses h name error m' := by
    cases hrefuses.start.symm.trans hstart
    exact hrefuses
  cases hget : m.processes.get? h with
  | none => exact hunique (.absent hget)
  | some e =>
    cases hstatus : e.process.status with
    | running => exact hunique (.active hget (.inl hstatus))
    | sleeping => exact hunique (.active hget (.inr hstatus))
    | finalizing => exact hunique (.closing hget hstatus)
    | inactive =>
      cases hname : e.process.program.functionId? name with
      | none => exact hunique (.unknown hget hstatus hname)
      | some id =>
        cases henter : e.process.reset.enter id [] with
        | error f =>
          exact hunique (.unenterable hget hstatus hname (Process.unenterable_of_enter henter))
        | ok p =>
          have hpoint : m.entryPoint h name = .ok (e, id) := by
            rw [entryPoint_of_get hget, hstatus]
            simp only [hname]
          rw [start, launch, hpoint] at hstart
          simp only [henter] at hstart
          cases hstart

/-- What is taken from a process depends on its entry only. -/
theorem takeResult_congr (hget : m'.processes.get? h = m.processes.get? h) :
    Prod.fst <$> m'.takeResult h = Prod.fst <$> m.takeResult h := by
  simp only [takeResult, visit, entry, hget]
  cases m.processes.get? h with
  | none => rfl
  | some e => rfl

/-- Nothing is lost by making a process ready if nothing was left in it. -/
theorem reset_eq_self_iff {p : Process} :
    p.reset = p ↔ p.frames = [] ∧ p.returnValue = none ∧ p.transfer = none := by
  obtain ⟨_, frames, _, value, transfer, _, _⟩ := p
  simp only [Process.reset, Process.mk.injEq, true_and, and_true]
  constructor
  · rintro ⟨rfl, rfl, rfl⟩
    exact ⟨rfl, rfl, rfl⟩
  · rintro ⟨rfl, rfl, rfl⟩
    exact ⟨rfl, rfl, rfl⟩

/-- A start that fails leaves all other processes as they are, so that their values can still be
    taken. The same holds for the process itself, and for the whole machine, unless its function
    cannot be entered. Then the process has lost what an earlier invocation has left in it, and has
    got a new ticket; nothing else has changed. -/
theorem start_spares (hstart : m.start h name = (.error error, m')) :
    (∀ h', (h' = h → ∀ f, error ≠ .invalidEntry name f) →
      m'.processes.get? h' = m.processes.get? h' ∧
        Prod.fst <$> m'.takeResult h' = Prod.fst <$> m.takeResult h') ∧
    ((∀ f, error ≠ .invalidEntry name f) → m' = m) ∧
    ∀ f, error = .invalidEntry name f → ∃ e id, m.processes.get? h = some e ∧
      e.process.status = .inactive ∧ e.process.program.functionId? name = some id ∧
      e.process.program.Unenterable e.process.maxDepth id f ∧
      m' = { m with nextTicket := m.nextTicket + 1 }.setEntry h
        ⟨e.process.reset, some ⟨m.nextTicket⟩⟩ ∧
      (e.process.reset = e.process ↔ e.process.frames = [] ∧ e.process.returnValue = none ∧
        e.process.transfer = none) := by
  suffices hkept : ∀ h', (h' = h → ∀ f, error ≠ .invalidEntry name f) →
      m'.processes.get? h' = m.processes.get? h' by
    refine ⟨fun h' hspared => ⟨hkept h' hspared, takeResult_congr (hkept h' hspared)⟩, ?_⟩
    cases start_eq_error_iff.1 hstart with
    | absent | closing | active | unknown =>
      refine ⟨fun _ => rfl, fun f hf => ?_⟩
      cases hf
    | @unenterable e id f hget hstatus hname hentry =>
      refine ⟨fun hother => absurd rfl (hother f), fun f' hf' => ?_⟩
      cases hf'
      exact ⟨e, id, hget, hstatus, hname, hentry, rfl, reset_eq_self_iff⟩
  intro h' hspared
  cases start_eq_error_iff.1 hstart with
  | absent | closing | active | unknown => rfl
  | @unenterable e id f hget hstatus hname hentry =>
    exact Table.get?_insert_ne fun heq => hspared heq f rfl

/-- A program with a function that returns a value, and with one that is in another file. -/
def borrowing : Program where
  strings := #[]
  functions := #[.compiled (.ofCode #[.ofInt .pushInt 1, .bare .ret]), .imported "x" "far"]
  names := [("main", 0), ("far", 1)]

/-- A machine with a process of that program that has returned its value. -/
def returned : Machine Unit :=
  let m := ((new .standard ()).create borrowing).2
  sweep { (m.start ⟨0⟩ "main").2 with scheduler := some .top }

theorem start_spares_returned :
    ∃ m', returned.start ⟨0⟩ "near" = (.error (.noSuchFunction "near"), m') ∧ m' = returned ∧
      Prod.fst <$> m'.takeResult ⟨0⟩ = .ok (some (.int 1)) := by
  have hstart : returned.start ⟨0⟩ "near" =
      (.error (.noSuchFunction "near"), (returned.start ⟨0⟩ "near").2) :=
    Prod.ext (by decide +kernel) rfl
  obtain ⟨hkept, hsame, -⟩ := start_spares hstart
  have hvalue : Prod.fst <$> returned.takeResult ⟨0⟩ = .ok (some (.int 1)) := by decide +kernel
  have hother : ∀ f, MachineError.noSuchFunction "near" ≠ .invalidEntry "near" f := by
    intro f hf
    cases hf
  exact ⟨_, hstart, hsame hother, (hkept ⟨0⟩ fun _ => hother).2.trans hvalue⟩

/-- The value that the process has returned is there, until a start fails because the function is
    in another file. -/
theorem start_forgets :
    (returned.start ⟨0⟩ "far").1 = .error (.invalidEntry "far" (.importedUnsupported "x" "far")) ∧
      Prod.fst <$> returned.takeResult ⟨0⟩ = .ok (some (.int 1)) ∧
      Prod.fst <$> (returned.start ⟨0⟩ "far").2.takeResult ⟨0⟩ = .ok none := by
  decide +kernel

end Machine

end ScriptMachine
