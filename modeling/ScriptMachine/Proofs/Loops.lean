import ScriptMachine.Proofs.Blocks
import ScriptMachine.Proofs.Calls

/-!
# Loops that do not end

A loop comes to its end once its condition is no longer true. But without calls of the host
nothing can change the condition. The body stores only into slots of its own, so that all
slots that the condition reads are as they were; a function that is called sees nothing but
its arguments; and of the operands that an earlier round has left on the stack, the code of
the condition takes none. So once the condition is true, it is true at every further test.

The frame that executes the loop is followed above some frames `rest`, which it never
touches, with the frames of called functions above it.

* `Process.advances`: a step of a called function does not depend on the frame that waits
  for it.
* `Cycle.Midway.goes`: nor does a step of the evaluation depend on the operands below and on
  the slots from some bound on.
* `Program.Keeps.next`: a step inside of a block.
* `Cycle.Round.next`: a step inside of a loop.
* `Script.loops_never_exit`: what becomes of loops, and of blocks.
-/

namespace ScriptMachine

/-- There is an instruction for the frame. -/
def Frame.InCode (program : Program) (f : Frame) : Prop :=
  (program.instruction? f.function f.ip).isSome

/-- The slots below `bound` hold the same. -/
def SameBelow (bound : Nat) (locals locals' : Array (Option Value)) : Prop :=
  ∀ k < bound, slotValue locals' k = slotValue locals k

namespace Process

variable {p q r : Process} {f g callee : Frame} {rest upper : List Frame} {host : Host Unit}
  {handle : Handle} {id n : Nat} {args : List Value}

/-! ## Runs that go on in the same way -/

theorem Steps.snoc (hq : Steps host handle n p q) (hr : q.next host handle = .ok r) :
    Steps host handle (n + 1) p r := Nat.add_comm 1 n ▸ hq.trans (.single hr)

/-- What steps preserve, unless they are of some other kind, holds along a run up to the first
    step of that kind. -/
theorem Steps.preserves {I : Process → Prop} {R : Process → Process → Prop}
    (hstep : ∀ p q, I p → p.next host handle = .ok q → I q ∨ R p q) (hp : I p)
    (h : Steps host handle n p r) :
    I r ∨ ∃ j < n, ∃ q q', Steps host handle j p q ∧ I q ∧ q.next host handle = .ok q' ∧
      R q q' := by
  induction h with
  | refl p => exact .inl hp
  | @step n p q r hq _ ih =>
    rcases hstep p q hp hq with hq' | hR
    · rcases ih hq' with hr | ⟨j, hj, q₁, q₂, hsteps, hrest⟩
      · exact .inl hr
      · exact .inr ⟨j + 1, Nat.succ_lt_succ hj, q₁, q₂, .step hq hsteps, hrest⟩
    · exact .inr ⟨0, Nat.succ_pos n, p, q, .refl p, hp, hq, hR⟩

/-- A process that does not go on forever comes to a step that fails. -/
theorem diverges_or_stuck (host : Host Unit) (handle : Handle) (p : Process) :
    Diverges host handle p ∨
      ∃ n q raised, Steps host handle n p q ∧ q.next host handle = .error raised := by
  by_cases hstuck : ∃ n q raised, Steps host handle n p q ∧ q.next host handle = .error raised
  · exact .inr hstuck
  · refine .inl fun n => ?_
    induction n with
    | zero => exact ⟨p, .refl p⟩
    | succ n ih =>
      obtain ⟨q, hq⟩ := ih
      cases hnext : q.next host handle with
      | error raised => exact absurd ⟨n, q, raised, hq, hnext⟩ hstuck
      | ok r => exact ⟨r, hq.snoc hnext⟩

/-- Processes that lead to each other are a run. -/
theorem steps_of_next {run : Nat → Process}
    (h : ∀ j < n, (run j).next host handle = .ok (run (j + 1))) :
    Steps host handle n (run 0) (run n) := by
  induction n with
  | zero => exact .refl _
  | succ n ih =>
    have hrun : Steps host handle n (run 0) (run n) := ih fun j hj => h j (Nat.lt_succ_of_lt hj)
    exact hrun.snoc (h n (Nat.lt_succ_self n))

/-! ## Called functions -/

/-- What a step makes of the frames of called functions, whichever frame is below them. -/
inductive Advances (host : Host Unit) (handle : Handle) (p : Process) (rest upper : List Frame) :
    Prop where
  | fail (e : Fault)
      (h : ∀ g, (p.onFrames (upper ++ g :: rest)).next host handle = .error (.fault e))
  | go {upper' : List Frame} (hne : upper' ≠ []) (hinCode : ∀ u ∈ upper', u.InCode p.program)
      (h : ∀ g, (p.onFrames (upper ++ g :: rest)).next host handle =
        .ok (p.onFrames (upper' ++ g :: rest)))
  | give (v : Value)
      (h : ∀ g, (p.onFrames (upper ++ g :: rest)).next host handle =
        .ok (p.onFrames (g.receive v :: rest)))

theorem inCode_of_entered {frames : List Frame} (hclosed : p.program.Closed)
    (h : (p.onFrames frames).entered id args = .ok callee) : callee.InCode p.program := by
  obtain ⟨body, hbody, rfl⟩ := entered_eq_ok h
  exact hclosed.entry hbody

theorem inCode_of_reaches {i : Instruction} (hclosed : p.program.Closed)
    (hi : p.program.instruction? f.function f.ip = some i) (hfunction : g.function = f.function)
    (hreaches : Program.Reaches i f.ip g.ip) : g.InCode p.program := by
  rw [Frame.InCode, hfunction]
  exact hclosed.onward hi hreaches

theorem advances (hclosed : p.program.Closed) (hp : p.Quiet) (hne : upper ≠ [])
    (hinCode : ∀ u ∈ upper, u.InCode p.program) : Advances host handle p rest upper := by
  obtain ⟨u, us, rfl⟩ := List.exists_cons_of_ne_nil hne
  obtain ⟨hu, hus⟩ := List.forall_mem_cons.1 hinCode
  obtain ⟨i, hi⟩ := Option.isSome_iff_exists.1 hu
  -- Any frame will do in order to see what the current one does.
  have hnext (g : Frame) : (p.onFrames (u :: (us ++ g :: rest))).next host handle =
      (p.deed (us ++ u :: rest) u i).apply p (us ++ g :: rest) := by
    have hcongr : p.deed (us ++ u :: rest) u i = p.deed (us ++ g :: rest) u i :=
      deed_congr (by simp)
    rw [hcongr]
    exact next_eq_deed hp hi (hclosed.internal hi)
  have hdoes : Does p (us ++ u :: rest) u i (p.deed (us ++ u :: rest) u i) := does_deed
  generalize p.deed (us ++ u :: rest) u i = d at hdoes hnext
  cases hdoes with
  | fail e => exact .fail e hnext
  | @go u' hfunction hreaches =>
    have hu' : u'.InCode p.program := inCode_of_reaches hclosed hi hfunction hreaches
    exact .go (List.cons_ne_nil u' us) (List.forall_mem_cons.2 ⟨hu', hus⟩) hnext
  | @call _ _ callee u' hcallee hfunction hreaches =>
    have hcallee' : callee.InCode p.program := inCode_of_entered hclosed hcallee
    have hu' : u'.InCode p.program := inCode_of_reaches hclosed hi hfunction hreaches
    refine .go (List.cons_ne_nil callee (u' :: us)) ?_ hnext
    exact List.forall_mem_cons.2 ⟨hcallee', List.forall_mem_cons.2 ⟨hu', hus⟩⟩
  | give _ v =>
    cases us with
    | nil => exact .give v hnext
    | cons u' us =>
      have hu' : (u'.receive v).InCode p.program := hus u' List.mem_cons_self
      refine .go (List.cons_ne_nil (u'.receive v) us) (List.forall_mem_cons.2 ⟨hu', ?_⟩) hnext
      exact fun u hu => hus u (List.mem_cons_of_mem _ hu)

/-- A step of a frame that has an instruction fails with a fault, if it fails. -/
theorem fault_of_inCode {raised : Raised} (hclosed : p.program.Closed) (hp : p.Quiet)
    (hf : f.InCode p.program) (h : (p.onFrames (f :: rest)).next host handle = .error raised) :
    ∃ e, raised = .fault e := by
  obtain ⟨i, hi⟩ := Option.isSome_iff_exists.1 hf
  rw [next_eq_deed hp hi (hclosed.internal hi)] at h
  cases hdeed : p.deed rest f i with
  | fail e =>
    rw [hdeed] at h
    cases h
    exact ⟨e, rfl⟩
  | go | call | give =>
    rw [hdeed] at h
    cases h

/-! ## Blocks -/

/-- `r` is the process `p`, but that the frame `f` above `rest` has come to be `g`, which is at
    one of the places from `lo` to `hi` and has the same in its slots below `bound`; above it
    there are frames of called functions. -/
structure Dwells (p : Process) (f : Frame) (rest : List Frame) (lo hi bound : Nat)
    (upper : List Frame) (g : Frame) (r : Process) : Prop where
  eq : r = p.onFrames (upper ++ g :: rest)
  function : g.function = f.function
  le : lo ≤ g.ip
  ge : g.ip ≤ hi
  same : SameBelow bound f.locals g.locals
  inCode : ∀ u ∈ upper, u.InCode p.program

/-- The frame `f` above `rest` stays between the places, and keeps its slots below `bound`. -/
def Inside (p : Process) (f : Frame) (rest : List Frame) (lo hi bound : Nat) (r : Process) : Prop :=
  ∃ upper g, Dwells p f rest lo hi bound upper g r

/-- A step returns from the frame above `rest`, between the places. -/
def ReturnsFrom (rest : List Frame) (lo hi : Nat) (r r' : Process) : Prop :=
  ∃ g i v, r.frames = g :: rest ∧ lo ≤ g.ip ∧ g.ip < hi ∧
    r.program.instruction? g.function g.ip = some i ∧ i.opcode = .ret ∧
    r' = (r.onFrames rest).deliver v

/-- The frame above `rest` belongs to the function, and is at one of the places from `lo` to
    `hi`. -/
def Between (id : Nat) (rest : List Frame) (lo hi : Nat) (r : Process) : Prop :=
  ∃ upper g, r.frames = upper ++ g :: rest ∧ g.function = id ∧ lo ≤ g.ip ∧ g.ip ≤ hi

/-- The frame above `rest` belongs to the function, is the current one and at this place, and the
    value is its last operand. -/
def Tests (id : Nat) (rest : List Frame) (ip : Nat) (v : Value) (r : Process) : Prop :=
  ∃ g stack, r.frames = g :: rest ∧ g.function = id ∧ g.ip = ip ∧ g.stack = v :: stack

/-- A frame that returns is gone. -/
theorem ReturnsFrom.not_between {lo hi lo' hi' : Nat} (h : ReturnsFrom rest lo hi q r) :
    ¬r.Between id rest lo' hi' := by
  rintro ⟨upper, g, hframes, -⟩
  obtain ⟨-, -, v, -, -, -, -, -, rfl⟩ := h
  have hlength := congrArg List.length hframes
  cases rest with
  | nil => simp [deliver] at hlength
  | cons caller rest =>
    simp only [deliver, onFrames_frames, List.length_append, List.length_cons] at hlength
    omega

theorem eq_of_append_cons (h : upper ++ f :: rest = g :: rest) : upper = [] ∧ f = g := by
  cases upper with
  | nil => exact ⟨rfl, (List.cons.inj h).1⟩
  | cons u us =>
    have hlength := congrArg List.length h
    simp only [List.length_append, List.length_cons] at hlength
    omega

/-- The frame above `rest` is the current one, and at this place. -/
def IsAt (rest : List Frame) (ip : Nat) (r : Process) : Prop :=
  ∃ g, r.frames = g :: rest ∧ g.ip = ip

end Process

/-- The instructions from `lo` up to `hi` store only into slots from `bound` on, and do not jump
    elsewhere. -/
def Program.Keeps (program : Program) (id lo hi bound : Nat) : Prop :=
  ∀ ip, lo ≤ ip → ip < hi →
    ∃ i, program.instruction? id ip = some i ∧ Confined bound lo hi false i

namespace Program.Keeps

open Process

variable {p r r' : Process} {f g : Frame} {rest : List Frame} {lo hi bound : Nat} {host : Host Unit}
  {handle : Handle}

/-- A step of the frame itself, inside of a block. -/
theorem next_current (hkeeps : p.program.Keeps f.function lo hi bound) (hclosed : p.program.Closed)
    (hp : p.Quiet) (h : Dwells p f rest lo hi bound [] g r) (hlt : g.ip < hi)
    (hr' : r.next host handle = .ok r') :
    Inside p f rest lo hi bound r' ∨ ReturnsFrom rest lo hi r r' := by
  obtain ⟨rfl, hfunction, hle, -, hsame, -⟩ := h
  obtain ⟨i, hget, hconfined⟩ := hkeeps g.ip hle hlt
  rw [← hfunction] at hget
  have hinside {ip : Nat} (hreaches : Program.Reaches i g.ip ip) : lo ≤ ip ∧ ip ≤ hi := by
    rcases hreaches with ⟨-, -, rfl⟩ | ⟨hjump, rfl⟩
    · exact ⟨Nat.le_succ_of_le hle, hlt⟩
    · exact hconfined.jump hjump
  rw [List.nil_append, next_eq_deed hp hget (hclosed.internal hget)] at hr'
  have hdoes : Does p rest g i (p.deed rest g i) := does_deed
  generalize p.deed rest g i = d at hdoes hr'
  cases hdoes with
  | fail e => cases hr'
  | @go g' hfunction' hreaches hlocals =>
    cases hr'
    obtain ⟨hle', hge'⟩ := hinside hreaches
    refine .inl ⟨[], g', rfl, hfunction'.trans hfunction, hle', hge', fun k hk => ?_, nofun⟩
    rcases hlocals with hlocals | ⟨hop, v, hlocals⟩
    · rw [hlocals, hsame k hk]
    · have hindex := hconfined.store hop
      rw [hlocals, slotValue_setFilling, if_neg (by omega), hsame k hk]
  | @call _ _ callee g' hcallee hfunction' hreaches hlocals =>
    cases hr'
    obtain ⟨hle', hge'⟩ := hinside hreaches
    have hcallee' : callee.InCode p.program := inCode_of_entered hclosed hcallee
    refine .inl ⟨[callee], g', rfl, hfunction'.trans hfunction, hle', hge', by rwa [hlocals], ?_⟩
    exact List.forall_mem_cons.2 ⟨hcallee', nofun⟩
  | give hop v =>
    cases hr'
    exact .inr ⟨g, i, v, rfl, hle, hlt, hget, hop, rfl⟩

/-- A step inside of a block, unless it returns or is the first one behind the block. -/
theorem next (hkeeps : p.program.Keeps f.function lo hi bound) (hclosed : p.program.Closed)
    (hp : p.Quiet) (h : Inside p f rest lo hi bound r) (hr' : r.next host handle = .ok r') :
    Inside p f rest lo hi bound r' ∨ (ReturnsFrom rest lo hi r r' ∨ IsAt rest hi r) := by
  obtain ⟨upper, g, h⟩ := h
  by_cases hupper : upper = []
  · subst hupper
    rcases Nat.lt_or_eq_of_le h.ge with hlt | heq
    · rcases hkeeps.next_current hclosed hp h hlt hr' with hinside | hreturns
      · exact .inl hinside
      · exact .inr (.inl hreturns)
    · exact .inr (.inr ⟨g, congrArg frames h.eq, heq⟩)
  · obtain ⟨rfl, hfunction, hle, hge, hsame, hinCode⟩ := h
    have hadvances : Advances host handle p rest upper := advances hclosed hp hupper hinCode
    cases hadvances with
    | fail e h =>
      rw [h] at hr'
      cases hr'
    | @go upper' _ hinCode' h =>
      rw [h] at hr'
      cases hr'
      exact .inl ⟨upper', g, rfl, hfunction, hle, hge, hsame, hinCode'⟩
    | give v h =>
      rw [h] at hr'
      cases hr'
      exact .inl ⟨[], g.receive v, rfl, hfunction, hle, hge, hsame, nofun⟩

end Program.Keeps

/-! ## Loops -/

/-- A loop in the code of a function: at its start there is the code of the condition, which reads
    only slots below `bound`; then there is the jump out of the loop, and then the body, which
    stores only into other slots, with the jump back behind it. -/
structure Cycle (program : Program) where
  function : Nat
  start : Nat
  test : List Instruction
  back : Nat
  bound : Nat
  code : program.HasCode function start test
  height_test : height 0 test = some 1
  reads : ∀ i ∈ test, i.opcode = .getLocal → i.index < bound
  exit : program.instruction? function (start + test.length) =
    some (.ofNat .jumpUnless (back + 1))
  body : program.Keeps function (start + test.length + 1) back bound
  again : program.instruction? function back = some (.ofNat .jump start)
  test_lt : start + test.length < back
  back_lt : back + 1 < 4294967296

namespace Cycle

open Process

/-- The frame `core`, with frames of called functions above it, has executed `j` instructions of
    the condition, and has only operands that belong to it. -/
structure Midway {program : Program} (c : Cycle program) (locals : Array (Option Value)) (j : Nat)
    (upper : List Frame) (core : Frame) : Prop where
  function : core.function = c.function
  ip : core.ip = c.start + j
  le : j ≤ c.test.length
  operands : height 0 (c.test.take j) = some (core.stack.length + if upper = [] then 0 else 1)
  locals_eq : core.locals = locals
  inCode : ∀ u ∈ upper, u.InCode program

section Test

variable (host : Host Unit) (handle : Handle) (p : Process) (rest : List Frame)
  (c : Cycle p.program) (f : Frame)

/-- What a step makes of the evaluation of the condition, whatever operands lie below its own and
    whatever is in the slots that it does not read. -/
inductive Goes (upper : List Frame) (core : Frame) : Prop where
  | fail (e : Fault)
      (h : ∀ stack locals, SameBelow c.bound f.locals locals →
        (p.onFrames (upper ++ core.rebase stack locals :: rest)).next host handle =
          .error (.fault e))
  | go {j : Nat} {upper' : List Frame} {core' : Frame} (hmidway : c.Midway f.locals j upper' core')
      (h : ∀ stack locals, SameBelow c.bound f.locals locals →
        (p.onFrames (upper ++ core.rebase stack locals :: rest)).next host handle =
          .ok (p.onFrames (upper' ++ core'.rebase stack locals :: rest)))

/-- From here the evaluation of the condition comes to the value true, whatever operands lie below
    its own and whatever is in the slots that it does not read. -/
inductive Succeeds : List Frame → Frame → Prop where
  | done {core : Frame} (hmidway : c.Midway f.locals c.test.length [] core)
      (hstack : core.stack = [.boolean true]) : Succeeds [] core
  | step {j : Nat} {upper upper' : List Frame} {core core' : Frame}
      (hmidway : c.Midway f.locals j upper core) (hmore : upper = [] → j < c.test.length)
      (hnext : ∀ stack locals, SameBelow c.bound f.locals locals →
        (p.onFrames (upper ++ core.rebase stack locals :: rest)).next host handle =
          .ok (p.onFrames (upper' ++ core'.rebase stack locals :: rest)))
      (h : Succeeds upper' core') : Succeeds upper core

/-- The frame `f` that has entered the loop evaluates the condition for the first time; and if it
    will find that the condition is true, then so will each evaluation from the beginning. -/
def FirstTest (r : Process) : Prop :=
  ∃ j upper core, c.Midway f.locals j upper core ∧
    r = p.onFrames (upper ++ core.rebase f.stack f.locals :: rest) ∧
    (Succeeds host handle p rest c f upper core →
      Succeeds host handle p rest c f [] { f with stack := [] })

/-- The frame `f` that has entered the loop goes round in it: it evaluates the condition, and will
    find that it is true, or it executes the body. The next round will be of the same kind. -/
inductive Round (r : Process) : Prop where
  | test {upper : List Frame} {core : Frame} {stack : List Value} {locals : Array (Option Value)}
      (hagain : Succeeds host handle p rest c f [] { f with stack := [] })
      (h : Succeeds host handle p rest c f upper core) (hsame : SameBelow c.bound f.locals locals)
      (hr : r = p.onFrames (upper ++ core.rebase stack locals :: rest))
  | body (hagain : Succeeds host handle p rest c f [] { f with stack := [] })
      (h : Inside p f rest (c.start + c.test.length + 1) c.back c.bound r)

end Test

section Steps

variable {host : Host Unit} {handle : Handle} {p r r' : Process} {rest upper : List Frame}
  {c : Cycle p.program} {f g core : Frame} {j : Nat} {v : Value} {stack : List Value}

/-- A step of the frame itself in the evaluation. -/
theorem Midway.goes_current (h : c.Midway f.locals j [] core) (hclosed : p.program.Closed)
    (hp : p.Quiet) (hj : j < c.test.length) : Goes host handle p rest c f [] core := by
  obtain ⟨i, hi⟩ : ∃ i, c.test[j]? = some i := ⟨_, List.getElem?_eq_getElem hj⟩
  obtain ⟨n, htakes, hn, hheight⟩ := exists_takes c.height_test hi h.operands
  have hget : p.program.instruction? core.function core.ip = some i := by
    rw [h.function, h.ip]
    exact c.code j i hi
  have hinternal : i.opcode ≠ .external := hclosed.internal hget
  have hnext (stack : List Value) (locals : Array (Option Value)) :
      (p.onFrames (core.rebase stack locals :: rest)).next host handle =
        (p.deed rest (core.rebase stack locals) i).apply p rest := next_eq_deed hp hget hinternal
  have hsuits {locals : Array (Option Value)} (hsame : SameBelow c.bound f.locals locals) :
      core.Suits i locals := by
    intro hop
    rw [h.locals_eq]
    exact hsame _ (c.reads i (List.mem_of_getElem? hi) hop)
  have hip : core.ip + 1 = c.start + (j + 1) := by rw [h.ip, Nat.add_assoc]
  have huniform : Uniform p rest core i n := uniform_of_takes htakes hn hinternal
  cases huniform with
  | fail e hdeed =>
    refine .fail e fun stack locals hsame => ?_
    rw [List.nil_append, hnext, hdeed stack locals (hsuits hsame)]
    rfl
  | push v hdeed =>
    have hmidway : c.Midway f.locals (j + 1) [] (core.onward (v :: core.stack.drop n)) := by
      refine ⟨h.function, hip, hj, ?_, h.locals_eq, nofun⟩
      simpa [Frame.onward] using hheight
    refine .go hmidway fun stack locals hsame => ?_
    rw [List.nil_append, hnext, hdeed stack locals (hsuits hsame)]
    rfl
  | @call _ _ callee hcallee hdeed =>
    have hcallee' : callee.InCode p.program := inCode_of_entered hclosed hcallee
    have hmidway : c.Midway f.locals (j + 1) [callee] (core.onward (core.stack.drop n)) := by
      refine ⟨h.function, hip, hj, ?_, h.locals_eq, List.forall_mem_cons.2 ⟨hcallee', nofun⟩⟩
      simpa [Frame.onward] using hheight
    refine .go hmidway fun stack locals hsame => ?_
    rw [List.nil_append, hnext, hdeed stack locals (hsuits hsame)]
    rfl

/-- A step of the evaluation. -/
theorem Midway.goes (h : c.Midway f.locals j upper core) (hclosed : p.program.Closed) (hp : p.Quiet)
    (hmore : upper = [] → j < c.test.length) : Goes host handle p rest c f upper core := by
  by_cases hupper : upper = []
  · subst hupper
    exact h.goes_current hclosed hp (hmore rfl)
  · have hoperands := h.operands
    rw [if_neg hupper] at hoperands
    have hadvances : Advances host handle p rest upper := advances hclosed hp hupper h.inCode
    cases hadvances with
    | fail e hnext => exact .fail e fun stack locals _ => hnext _
    | @go upper' hne hinCode hnext =>
      have hmidway : c.Midway f.locals j upper' core :=
        ⟨h.function, h.ip, h.le, by rwa [if_neg hne], h.locals_eq, hinCode⟩
      exact .go hmidway fun stack locals _ => hnext _
    | give v hnext =>
      -- What the called function returns is the operand that was still missing.
      have hmidway : c.Midway f.locals j [] (core.receive v) :=
        ⟨h.function, h.ip, h.le, by rwa [if_pos rfl], h.locals_eq, nofun⟩
      exact .go hmidway fun stack locals _ => hnext _

/-- The frame is at the jump out of the loop, and the condition is true. -/
theorem next_exit_true (hp : p.Quiet) (hfunction : g.function = c.function)
    (hip : g.ip = c.start + c.test.length) (hstack : g.stack = .boolean true :: stack) :
    (p.onFrames (g :: rest)).next host handle = .ok (p.onFrames (g.onward stack :: rest)) := by
  have hget : p.program.instruction? g.function g.ip = some (.ofNat .jumpUnless (c.back + 1)) := by
    rw [hfunction, hip, c.exit]
  exact next_jumpUnless hp hget rfl hstack

/-- An evaluation that will find the condition true goes on, or has found it. -/
theorem Succeeds.next (h : Succeeds host handle p rest c f upper core) (hp : p.Quiet)
    (hfunction : f.function = c.function)
    (hagain : Succeeds host handle p rest c f [] { f with stack := [] })
    {locals : Array (Option Value)} (hsame : SameBelow c.bound f.locals locals) :
    ∃ r', (p.onFrames (upper ++ core.rebase stack locals :: rest)).next host handle = .ok r' ∧
      Round host handle p rest c f r' := by
  cases h with
  | done hmidway hstack =>
    let g := (core.rebase stack locals).onward stack
    have hg : g.ip = c.start + c.test.length + 1 := congrArg (· + 1) hmidway.ip
    have hdwells : Dwells p f rest (c.start + c.test.length + 1) c.back c.bound [] g
        (p.onFrames (g :: rest)) :=
      ⟨rfl, hmidway.function.trans hfunction.symm, Nat.le_of_eq hg.symm, hg ▸ c.test_lt, hsame,
        nofun⟩
    refine ⟨p.onFrames (g :: rest), ?_, .body hagain ⟨[], g, hdwells⟩⟩
    exact next_exit_true hp hmidway.function hmidway.ip (congrArg (· ++ stack) hstack)
  | step _ _ hnext h => exact ⟨_, hnext stack locals hsame, .test hagain h hsame rfl⟩

/-- A step of the round. -/
theorem Round.next (h : Round host handle p rest c f r) (hclosed : p.program.Closed) (hp : p.Quiet)
    (hfunction : f.function = c.function) (hip : f.ip = c.start)
    (hr' : r.next host handle = .ok r') :
    Round host handle p rest c f r' ∨
      ReturnsFrom rest (c.start + c.test.length + 1) c.back r r' := by
  cases h with
  | test hagain h hsame hr =>
    subst hr
    obtain ⟨r'', hr'', hround⟩ := h.next hp hfunction hagain hsame
    obtain rfl : r'' = r' := Except.ok.inj (hr''.symm.trans hr')
    exact .inl hround
  | body hagain h =>
    rcases (hfunction ▸ c.body).next hclosed hp h hr' with h' | hreturns | hback
    · exact .inl (.body hagain h')
    · exact .inr hreturns
    · -- Behind the body there is the jump back, and the condition is evaluated again.
      obtain ⟨upper, g, h⟩ := h
      obtain ⟨g', hframes, hg'⟩ := hback
      obtain rfl := h.eq
      obtain ⟨rfl, rfl⟩ := eq_of_append_cons hframes
      have hget : p.program.instruction? g.function g.ip = some (.ofNat .jump c.start) := by
        rw [h.function, hfunction, hg', c.again]
      have hback := c.back_lt
      have htest := c.test_lt
      rw [List.nil_append, next_jump hp hget rfl, Instruction.index_ofNat _ (by omega)] at hr'
      cases hr'
      have hstart : { g with ip := c.start } =
          Frame.rebase { f with stack := [] } g.stack g.locals := by
        rw [← hip, Frame.rebase, ← h.function]
        rfl
      exact .inl (.test hagain hagain h.same (congrArg (fun g => p.onFrames (g :: rest)) hstart))

/-- When the code of the condition comes to its end, it has pushed one operand. -/
theorem Midway.exists_operand (h : c.Midway f.locals c.test.length [] core) :
    ∃ v, core.stack = [v] := by
  have hoperands := h.operands
  rw [List.take_length, c.height_test, if_pos rfl, Option.some.injEq] at hoperands
  exact List.length_eq_one_iff.1 hoperands.symm

/-- A step of the first evaluation of the condition. -/
theorem FirstTest.next (h : FirstTest host handle p rest c f r) (hclosed : p.program.Closed)
    (hp : p.Quiet) (hr' : r.next host handle = .ok r') :
    FirstTest host handle p rest c f r' ∨
      ∃ v, r.Tests c.function rest (c.start + c.test.length) v := by
  obtain ⟨j, upper, core, hmidway, rfl, hsucceeds⟩ := h
  by_cases hmore : upper = [] → j < c.test.length
  · have hgoes : Goes host handle p rest c f upper core := hmidway.goes hclosed hp hmore
    cases hgoes with
    | fail e hnext =>
      rw [hnext f.stack f.locals fun _ _ => rfl] at hr'
      cases hr'
    | @go j' upper' core' hmidway' hnext =>
      rw [hnext f.stack f.locals fun _ _ => rfl] at hr'
      cases hr'
      refine .inl ⟨j', upper', core', hmidway', rfl, fun h => ?_⟩
      exact hsucceeds (.step hmidway hmore hnext h)
  · obtain ⟨rfl, hj⟩ := Classical.not_imp.1 hmore
    obtain rfl := Nat.le_antisymm hmidway.le (Nat.le_of_not_lt hj)
    obtain ⟨v, hv⟩ := hmidway.exists_operand
    exact .inr ⟨v, _, f.stack, rfl, hmidway.function, hmidway.ip, congrArg (· ++ f.stack) hv⟩

theorem FirstTest.eq_onFrames (h : FirstTest host handle p rest c f r) :
    r = p.onFrames r.frames := by
  obtain ⟨j, upper, core, -, rfl, -⟩ := h
  rfl

/-- If the first evaluation finds that the condition is true, then so will all others. -/
theorem FirstTest.round (h : FirstTest host handle p rest c f r)
    (hr : r.Tests c.function rest (c.start + c.test.length) (.boolean true)) :
    Round host handle p rest c f r := by
  obtain ⟨j, upper, core, hmidway, rfl, hsucceeds⟩ := h
  obtain ⟨g, stack, hframes, -, hip, hstack⟩ := hr
  obtain ⟨rfl, rfl⟩ := eq_of_append_cons hframes
  obtain rfl : j = c.test.length := Nat.add_left_cancel (hmidway.ip.symm.trans hip)
  obtain ⟨v, hv⟩ := hmidway.exists_operand
  have hv' : core.stack ++ f.stack = .boolean true :: stack := hstack
  rw [hv] at hv'
  have htrue : Succeeds host handle p rest c f [] core :=
    .done hmidway (by rw [hv, (List.cons.inj hv').1])
  exact .test (hsucceeds htrue) htrue (fun _ _ => rfl) rfl

/-- At the first test of the condition the loop goes on only if it is true. -/
theorem eq_true_of_tests (hp : p.Quiet) (hfunction : g.function = c.function)
    (hip : g.ip = c.start + c.test.length) (hstack : g.stack = v :: stack)
    (hr' : (p.onFrames (g :: rest)).next host handle = .ok r')
    (hbetween : r'.Between c.function rest c.start c.back) : v = .boolean true := by
  have hget : p.program.instruction? g.function g.ip = some (.ofNat .jumpUnless (c.back + 1)) := by
    rw [hfunction, hip, c.exit]
  by_cases hv : v.type = .boolean
  · obtain ⟨b, rfl⟩ : ∃ b, v = .boolean b := by
      cases v <;> first | exact ⟨_, rfl⟩ | cases hv
    rw [next_jumpUnless hp hget rfl hstack, Instruction.index_ofNat _ c.back_lt] at hr'
    cases hr'
    obtain ⟨upper, g', hframes, -, -, hle⟩ := hbetween
    obtain ⟨-, rfl⟩ := eq_of_append_cons hframes.symm
    cases b with
    | true => rfl
    | false => exact absurd hle (Nat.not_succ_le_self _)
  · rw [next_jumpUnless_fault hget rfl hstack hv] at hr'
    cases hr'

/-- A step of a loop that was entered. -/
theorem next_or_left (h : FirstTest host handle p rest c f r ∨ Round host handle p rest c f r)
    (hclosed : p.program.Closed) (hp : p.Quiet) (hfunction : f.function = c.function)
    (hip : f.ip = c.start) (hr' : r.next host handle = .ok r') :
    (FirstTest host handle p rest c f r' ∨ Round host handle p rest c f r') ∨
      ¬r'.Between c.function rest c.start c.back := by
  refine Classical.or_iff_not_imp_right.2 fun hbetween => ?_
  rw [Classical.not_not] at hbetween
  have hround (h : Round host handle p rest c f r) : Round host handle p rest c f r' := by
    rcases h.next hclosed hp hfunction hip hr' with hround | hreturns
    · exact hround
    · exact absurd hbetween hreturns.not_between
  rcases h with hfirst | h
  · rcases hfirst.next hclosed hp hr' with hfirst' | ⟨v, htests⟩
    · exact .inl hfirst'
    · obtain ⟨g, stack, hframes, hg, hgip, hstack⟩ := htests
      rw [hfirst.eq_onFrames, hframes] at hr'
      obtain rfl := eq_true_of_tests hp hg hgip hstack hr' hbetween
      exact .inr (hround (hfirst.round ⟨g, stack, hframes, hg, hgip, hstack⟩))
  · exact .inr (hround h)

/-- The condition belongs to the loop. -/
theorem Midway.inside (h : c.Midway f.locals j upper core) (hfunction : f.function = c.function)
    {locals : Array (Option Value)} (hsame : SameBelow c.bound f.locals locals) :
    Inside p f rest c.start c.back c.bound
      (p.onFrames (upper ++ core.rebase stack locals :: rest)) := by
  have hip := h.ip
  have hle := h.le
  have htest := c.test_lt
  refine ⟨upper, core.rebase stack locals, rfl, h.function.trans hfunction.symm, ?_, ?_, hsame,
    h.inCode⟩
  · show c.start ≤ core.ip
    omega
  · show core.ip ≤ c.back
    omega

/-- In a round, the frame is in the loop; and if it tests the condition, then that is true. -/
theorem Round.inside (h : Round host handle p rest c f r) (hfunction : f.function = c.function) :
    Inside p f rest c.start c.back c.bound r ∧
      ∀ v, r.Tests c.function rest (c.start + c.test.length) v → v = .boolean true := by
  cases h with
  | @test upper core stack locals hagain h hsame hr =>
    subst hr
    cases h with
    | done hmidway hstack =>
      refine ⟨hmidway.inside hfunction hsame, ?_⟩
      rintro v ⟨g, stack', hframes, -, -, hg⟩
      obtain ⟨-, rfl⟩ := eq_of_append_cons hframes
      have hg' : core.stack ++ stack = v :: stack' := hg
      rw [hstack] at hg'
      exact (List.cons.inj hg').1.symm
    | step hmidway hmore _ _ =>
      -- The evaluation is still under way, and there is no test yet.
      refine ⟨hmidway.inside hfunction hsame, ?_⟩
      rintro v ⟨g, stack', hframes, -, hg, -⟩
      obtain ⟨rfl, rfl⟩ := eq_of_append_cons hframes
      have hlt := hmore rfl
      have hip : core.ip = c.start + c.test.length := hg
      rw [hmidway.ip] at hip
      omega
  | body hagain h =>
    obtain ⟨upper, g, rfl, hg, hle, hge, hsame, hinCode⟩ := h
    refine ⟨⟨upper, g, rfl, hg, by omega, hge, hsame, hinCode⟩, ?_⟩
    rintro v ⟨g', stack, hframes, -, hg', -⟩
    obtain ⟨-, rfl⟩ := eq_of_append_cons hframes
    omega

/-- A round does not end but by a return or a fault. -/
theorem Round.fault (h : Round host handle p rest c f r) (hclosed : p.program.Closed) (hp : p.Quiet)
    (hfunction : f.function = c.function) {raised : Raised}
    (hr' : r.next host handle = .error raised) : r.frames ≠ [] ∧ ∃ e, raised = .fault e := by
  cases h with
  | test hagain h hsame hr =>
    subst hr
    obtain ⟨r', hr'', -⟩ := h.next hp hfunction hagain hsame
    rw [hr''] at hr'
    cases hr'
  | body hagain h =>
    obtain ⟨upper, g, rfl, hg, hle, hge, -, hinCode⟩ := h
    cases upper with
    | nil =>
      have hinCode : g.InCode p.program := by
        rw [Frame.InCode, hg, hfunction]
        rcases Nat.lt_or_eq_of_le hge with hlt | heq
        · obtain ⟨i, hget, -⟩ := c.body g.ip hle hlt
          rw [hget]
          rfl
        · rw [heq, c.again]
          rfl
      exact ⟨List.cons_ne_nil _ _, fault_of_inCode hclosed hp hinCode hr'⟩
    | cons u us =>
      exact ⟨List.cons_ne_nil _ _, fault_of_inCode hclosed hp (hinCode u List.mem_cons_self) hr'⟩

end Steps

end Cycle

/-! ## What becomes of loops and blocks -/

namespace Process

section Statements

variable (host : Host Unit) (handle : Handle) (p : Process) (f : Frame) (rest : List Frame)

/-- The loop that the frame `f` of `p` enters is executed up to `q`, and there the condition is
    found to be true: it is the last operand at the jump out of the loop. -/
structure FindsTrue (start exit back m : Nat) (q : Process) : Prop where
  steps : Steps host handle m p q
  between : ∀ j ≤ m, ∀ q', Steps host handle j p q' → q'.Between f.function rest start back
  tests : q.Tests f.function rest exit (.boolean true)

/-- The loop that the frame `f` of `p` enters never ends by its condition, once this is found to be
    true. Unless there was a return from the body, control is in the loop, at every further test
    the condition is true again, and the slots below `bound` are as they were; so without a
    return there is a fault, or the loop goes on forever. -/
structure NeverExits (start exit back bound : Nat) : Prop where
  jump : p.program.instruction? f.function exit = some (.ofNat .jumpUnless (back + 1))
  stays : ∀ m q, FindsTrue host handle p f rest start exit back m q →
    ∀ n r, Steps host handle n q r →
      (Inside p f rest start back bound r ∧
        ∀ v, r.Tests f.function rest exit v → v = .boolean true) ∨
      ∃ j < n, ∃ r₁ r₂, Steps host handle j q r₁ ∧ Inside p f rest start back bound r₁ ∧
        r₁.next host handle = .ok r₂ ∧ ReturnsFrom rest (exit + 1) back r₁ r₂
  ends : ∀ m q, FindsTrue host handle p f rest start exit back m q →
    (∃ n r₁ r₂, Steps host handle n q r₁ ∧ Inside p f rest start back bound r₁ ∧
      r₁.next host handle = .ok r₂ ∧ ReturnsFrom rest (exit + 1) back r₁ r₂) ∨
    (∀ n r, Steps host handle n q r → Inside p f rest start back bound r) ∧
      ((∃ e, Faults host handle q e) ∨ Diverges host handle q)

/-- The block that the frame `f` of `p` enters leaves the slots below `bound` alone, up to its end
    or to a return. -/
def LeavesAlone (start stop bound : Nat) : Prop :=
  ∀ n r, Steps host handle n p r → Inside p f rest start stop bound r ∨
    ∃ j < n, ∃ r₁ r₂, Steps host handle j p r₁ ∧ Inside p f rest start stop bound r₁ ∧
      r₁.next host handle = .ok r₂ ∧ (ReturnsFrom rest start stop r₁ r₂ ∨ IsAt rest stop r₁)

end Statements

variable {host : Host Unit} {handle : Handle} {p : Process} {f : Frame} {rest : List Frame}

theorem leavesAlone {start stop bound : Nat} (hkeeps : p.program.Keeps f.function start stop bound)
    (hclosed : p.program.Closed) (hp : p.Quiet) (hf : p.frames = f :: rest) (hip : f.ip = start)
    (hstop : start ≤ stop) : LeavesAlone host handle p f rest start stop bound := by
  intro n r hr
  have hinside : Inside p f rest start stop bound p := by
    refine ⟨[], f, ?_, rfl, Nat.le_of_eq hip.symm, hip ▸ hstop, fun _ _ => rfl, nofun⟩
    rw [List.nil_append, ← hf]
    rfl
  exact hr.preserves (fun q q' hq hq' => hkeeps.next hclosed hp hq hq') hinside

end Process

namespace Cycle

open Process

variable {host : Host Unit} {handle : Handle} {p q : Process} {f : Frame} {rest : List Frame}
  {m : Nat}

/-- Once the condition is found to be true, the loop goes round. -/
theorem round_of_findsTrue (c : Cycle p.program) (hclosed : p.program.Closed) (hp : p.Quiet)
    (hf : p.frames = f :: rest) (hfunction : f.function = c.function) (hip : f.ip = c.start)
    (h : FindsTrue host handle p f rest c.start (c.start + c.test.length) c.back m q) :
    Round host handle p rest c f q := by
  have hfirst : FirstTest host handle p rest c f p := by
    refine ⟨0, [], { f with stack := [] }, ⟨hfunction, hip, Nat.zero_le _, rfl, rfl, nofun⟩, ?_, id⟩
    rw [List.nil_append, Frame.rebase, List.nil_append, ← hf]
    rfl
  have hpreserved := h.steps.preserves
    (fun r r' hr hr' => next_or_left hr hclosed hp hfunction hip hr') (.inl hfirst)
  rcases hpreserved with (hfirst' | hround) | ⟨j, hj, r, r', hr, -, hr', hleft⟩
  · exact hfirst'.round (hfunction ▸ h.tests)
  · exact hround
  · -- The loop is not left before.
    exact absurd (hfunction ▸ h.between (j + 1) hj r' (hr.snoc hr')) hleft

theorem neverExits (c : Cycle p.program) (hclosed : p.program.Closed) (hp : p.Quiet)
    (hf : p.frames = f :: rest) (hfunction : f.function = c.function) (hip : f.ip = c.start) :
    NeverExits host handle p f rest c.start (c.start + c.test.length) c.back c.bound := by
  have hstays (m : Nat) (q : Process)
      (h : FindsTrue host handle p f rest c.start (c.start + c.test.length) c.back m q) (n : Nat)
      (r : Process) (hr : Steps host handle n q r) :=
    hr.preserves (fun r r' hr hr' => Round.next hr hclosed hp hfunction hip hr')
      (c.round_of_findsTrue hclosed hp hf hfunction hip h)
  refine ⟨hfunction ▸ c.exit, fun m q h n r hr => ?_, fun m q h => ?_⟩
  · rcases hstays m q h n r hr with hround | ⟨j, hj, r₁, r₂, hr₁, hround, hnext, hreturns⟩
    · exact .inl (hfunction ▸ hround.inside hfunction)
    · exact .inr ⟨j, hj, r₁, r₂, hr₁, (hround.inside hfunction).1, hnext, hreturns⟩
  · by_cases hreturns : ∃ n r₁ r₂, Steps host handle n q r₁ ∧
        Inside p f rest c.start c.back c.bound r₁ ∧ r₁.next host handle = .ok r₂ ∧
        ReturnsFrom rest (c.start + c.test.length + 1) c.back r₁ r₂
    · exact .inl hreturns
    · have hround (n : Nat) (r : Process) (hr : Steps host handle n q r) :
          Round host handle p rest c f r := by
        rcases hstays m q h n r hr with hround | ⟨j, -, r₁, r₂, hr₁, hround, hnext, hreturns'⟩
        · exact hround
        · exact absurd ⟨j, r₁, r₂, hr₁, (hround.inside hfunction).1, hnext, hreturns'⟩ hreturns
      refine .inr ⟨fun n r hr => ((hround n r hr).inside hfunction).1, ?_⟩
      rcases diverges_or_stuck host handle q with hdiverges | ⟨n, r, raised, hr, hraised⟩
      · exact .inr hdiverges
      · obtain ⟨hne, e, rfl⟩ := (hround n r hr).fault hclosed hp hfunction hraised
        exact .inl ⟨e, n, r, hr, hne, hraised⟩

end Cycle

/-! ## Loops and blocks of a script -/

namespace Program

variable {p : Program} {id start : Nat} {code : List Instruction}

/-- In a short program, all code ends at a place that jumps can address. -/
theorem Short.stop_lt (h : p.Short) (hcode : p.HasCode id start code) (hne : code ≠ []) :
    start + code.length < 4294967296 := by
  have hpos : 0 < code.length := List.length_pos_iff.2 hne
  have hlast : code.length - 1 < code.length := Nat.sub_one_lt_of_lt hpos
  have hget := hcode _ _ (List.getElem?_eq_getElem hlast)
  unfold instruction? at hget
  split at hget
  · next body hbody =>
    obtain ⟨hlt, -⟩ := Array.getElem?_eq_some_iff.1 hget
    have hsize := h id body hbody
    omega
  · cases hget

/-- The code of a block keeps to itself. -/
theorem keeps_of_stmtsCode {ids : String → Option Nat} {slots slots' : Slots} {body : List Stmt}
    (hcode : StmtsCode ids p.strings slots.enterBlock start body code slots')
    (hhas : p.HasCode id start code) (hshort : p.Short) (hnext : slots'.next ≤ 4294967296) :
    p.Keeps id start (start + code.length) slots.next := by
  intro ip hle hlt
  obtain ⟨k, rfl⟩ := Nat.exists_eq_add_of_le hle
  obtain ⟨i, hi⟩ : ∃ i, code[k]? = some i :=
    ⟨_, List.getElem?_eq_getElem (Nat.lt_of_add_lt_add_left hlt)⟩
  have hmem : i ∈ code := List.mem_of_getElem? hi
  have hstop := hshort.stop_lt hhas (List.ne_nil_of_mem hmem)
  have hconfined := stmtsCode_confined hcode (.enterBlock (Nat.le_refl _)) hstop hnext i hmem
  exact ⟨i, hhas k i hi, hconfined.mono (Nat.le_refl _) (Nat.le_refl _) nofun⟩

end Program

namespace Script

open Process

variable {s : Script} {program : Program} {id : Nat} {fn : Function} {l : Spot}

theorem Placed.keeps {body : List Stmt} (h : s.Placed program id fn) (hshort : program.Short)
    (hl : l ∈ fn.spots s) (hpart : l.part = .block body) :
    program.Keeps id l.start (l.start + Stmt.allSize body) l.slots.next := by
  have hstands := h.stands l hl
  simp only [Spot.Stands, hpart] at hstands
  obtain ⟨code, slots, hcode, hhas⟩ := hstands
  obtain ⟨hlength, rfl⟩ := hcode.size_after
  obtain ⟨names, hnames, hnamed⟩ := h.named
  have hnext : (Stmt.allAfter l.slots.enterBlock body).next ≤ 4294967296 := by
    have hbehind := (hnamed l hl).behind.next_le
    simp only [Spot.after, hpart] at hbehind
    omega
  rw [← hlength]
  exact Program.keeps_of_stmtsCode hcode hhas hshort hnext

/-- The code of a loop. -/
theorem Placed.exists_cycle {e : Expr} {body : List Stmt} (h : s.Placed program id fn)
    (hshort : program.Short) (hl : l ∈ fn.spots s) (hpart : l.part = .loop e body) :
    ∃ c : Cycle program, c.function = id ∧ c.start = l.start ∧ c.test.length = e.size ∧
      c.back = l.start + e.size + 1 + Stmt.allSize body ∧ c.bound = l.slots.next := by
  have hstands := h.stands l hl
  simp only [Spot.Stands, hpart] at hstands
  obtain ⟨code, slots, hcode, hhas⟩ := hstands
  cases hcode with
  | @loop _ slots _ _ _ test code he hbody =>
    have hsize : test.length = e.size := he.length_eq
    obtain ⟨hlength, rfl⟩ := hbody.size_after
    obtain ⟨names, hnames, hnamed⟩ := h.named
    have hnext : (Stmt.allAfter l.slots.enterBlock body).next ≤ 4294967296 := by
      have hbehind := (hnamed l hl).behind.next_le
      simp only [Spot.after, hpart, Stmt.after, next_leaveBlock] at hbehind
      omega
    have hstop := hshort.stop_lt hhas (by simp)
    rw [stop_of_guarded, List.length_nil] at hstop
    have hkeeps : program.Keeps id (l.start + test.length + 1)
        (l.start + test.length + 1 + code.length) l.slots.next :=
      Program.keeps_of_stmtsCode hbody hhas.right.tail.left hshort hnext
    refine ⟨{
      function := id
      start := l.start
      test := test
      back := l.start + test.length + 1 + code.length
      bound := l.slots.next
      code := hhas.left
      height_test := he.height_eq (by omega) 0
      reads := fun i hi hop => he.index_lt (hnamed l hl).before hnames hi hop
      exit := hhas.right.head
      body := hkeeps
      again := hhas.right.tail.right.head
      test_lt := by omega
      back_lt := by omega }, rfl, rfl, hsize, ?_, rfl⟩
    rw [← hsize, ← hlength]

/-- Nothing in a script changes a loop that has begun. Let a process be at a loop or at a block of a
    function of a script that does not call the host. A loop never ends by its condition, once
    that was found to be true; and a block leaves all slots alone that were given out outside of
    it, among which are those of all variables that are visible there. -/
theorem loops_never_exit {q : Process} {f : Frame} {rest : List Frame}
    (hs : s.compile = .ok program) (hfree : s.hostFree = true) (hslots : s.Addressable)
    (hshort : program.Short) (hprogram : q.program = program) (hq : q.Quiet)
    (hf : q.frames = f :: rest) (hfn : s.functions[f.function]? = some fn) (hl : l ∈ fn.spots s)
    (hip : f.ip = l.start) (host : Host Unit) (handle : Handle) :
    (∀ c body, l.part = .loop c body →
      q.NeverExits host handle f rest l.start (l.start + c.size)
        (l.start + c.size + 1 + Stmt.allSize body) l.slots.next) ∧
    (∀ body, l.part = .block body →
      q.LeavesAlone host handle f rest l.start (l.start + Stmt.allSize body) l.slots.next) ∧
    ∀ x k, l.slots.resolve x = some k → k < l.slots.next := by
  subst hprogram
  have hcompiled : s.Compiled q.program := compiled_of_compile hs
  have hclosed : q.program.Closed := hcompiled.closed hfree hslots hshort
  have hplaced : s.Placed q.program f.function fn := hcompiled.placed hslots hfn
  refine ⟨fun c body hpart => ?_, fun body hpart => ?_, fun x k hk => ?_⟩
  · obtain ⟨cycle, hfunction, hstart, htest, hback, hbound⟩ := hplaced.exists_cycle hshort hl hpart
    have hnever : q.NeverExits host handle f rest _ _ _ _ :=
      cycle.neverExits hclosed hq hf hfunction.symm (hip.trans hstart.symm)
    rw [hstart, htest, hback, hbound] at hnever
    exact hnever
  · have hkeeps := hplaced.keeps hshort hl hpart
    exact leavesAlone hkeeps hclosed hq hf hip (Nat.le_add_right ..)
  · obtain ⟨names, -, hnamed⟩ := hplaced.named
    exact ((hnamed l hl).before.resolve hk).2.1

/-- A script with a loop that seems to end after the first round: its condition calls a function
    with the variable that the body sets. But that is another one, since it is set in a block. -/
def spins : Script where
  functions := [
    { name := "main", params := [],
      body := [
        .assign "x" (.literal (.bool true)),
        .loop (.call .internal "same" [.ident "x"]) [.assign "x" (.literal (.bool false))]] },
    { name := "same", params := ["a"], body := [.give (some (.ident "a"))] }]

/-- What that script is compiled to. -/
def spinsProgram : Program where
  strings := #[]
  functions := #[
    .compiled (.ofCode #[.ofNat .pushBool 1, .ofNat .setLocal 1, .ofNat .getLocal 1,
      .ofNat .pushFunction 1, .ofNat .call 1, .ofNat .jumpUnless 9, .ofNat .pushBool 0,
      .ofNat .setLocal 2, .ofNat .jump 2, .bare .pushUnit, .bare .ret]),
    .compiled (.ofCode #[.ofNat .getLocal 1, .bare .ret])]
  names := [("main", 0), ("same", 1)]

theorem spins_compile : spins.compile = .ok spinsProgram := by
  have h : spins.compile.toOption = some spinsProgram := by decide +kernel
  cases hcompile : spins.compile with
  | error e => simp [hcompile, Except.toOption] at h
  | ok p => simpa [hcompile, Except.toOption] using h

/-- The frame of that script that has come to the loop. -/
def spinsFrame : Frame := ⟨0, 2, [], #[none, some (.boolean true), none]⟩

/-- What becomes of the frame up to the first test. -/
def spinsRun (j : Nat) : Process :=
  (Process.new spinsProgram 256).onFrames <|
    match j with
    | 0 => [spinsFrame]
    | 1 => [{ spinsFrame with ip := 3, stack := [.boolean true] }]
    | 2 => [{ spinsFrame with ip := 4, stack := [.functionRef 1, .boolean true] }]
    | 3 => [.enter 1 2 [.boolean true], { spinsFrame with ip := 5 }]
    | 4 => [⟨1, 1, [.boolean true], #[none, some (.boolean true)]⟩, { spinsFrame with ip := 5 }]
    | _ => [{ spinsFrame with ip := 5, stack := [.boolean true] }]

/-- The place of the loop. -/
def spinsLoop : Spot where
  start := 2
  slots := (Slots.ofParams []).declare "x" |>.2
  part := .loop (.call .internal "same" [.ident "x"]) [.assign "x" (.literal (.bool false))]

theorem spins_short : spinsProgram.Short := by
  intro id body hbody
  match id with
  | 0 | 1 =>
    cases hbody
    decide
  | n + 2 => cases hbody

theorem spins_findsTrue :
    FindsTrue .detached ⟨0⟩ (spinsRun 0) spinsFrame [] 2 5 8 5 (spinsRun 5) := by
  have hnext : ∀ j < 5, (spinsRun j).next .detached ⟨0⟩ = .ok (spinsRun (j + 1)) := by
    decide +kernel
  refine ⟨steps_of_next hnext, fun j hj q hq => ?_, ⟨_, [], rfl, rfl, rfl, rfl⟩⟩
  obtain rfl := hq.unique (steps_of_next fun k hk => hnext k (Nat.lt_of_lt_of_le hk hj))
  match j with
  | 0 | 1 | 2 | 5 => exact ⟨[], _, rfl, rfl, by decide, by decide⟩
  | 3 | 4 => exact ⟨[_], _, rfl, rfl, by decide, by decide⟩

theorem loops_never_exit_spins :
    FindsTrue .detached ⟨0⟩ (spinsRun 0) spinsFrame [] 2 5 8 5 (spinsRun 5) ∧
      ∀ n r, Steps .detached ⟨0⟩ n (spinsRun 5) r → Inside (spinsRun 0) spinsFrame [] 2 8 2 r ∨
        ∃ j < n, ∃ r₁ r₂, Steps .detached ⟨0⟩ j (spinsRun 5) r₁ ∧
          Inside (spinsRun 0) spinsFrame [] 2 8 2 r₁ ∧ r₁.next .detached ⟨0⟩ = .ok r₂ ∧
          ReturnsFrom [] 6 8 r₁ r₂ := by
  obtain ⟨hloops, -⟩ := loops_never_exit (q := spinsRun 0) (l := spinsLoop) spins_compile
    (by decide) (by decide) spins_short rfl ⟨rfl, rfl⟩ rfl rfl
    (List.mem_cons_of_mem _ List.mem_cons_self) rfl .detached ⟨0⟩
  refine ⟨spins_findsTrue, fun n r hr => ?_⟩
  rcases (hloops _ _ rfl).stays 5 _ spins_findsTrue n r hr with ⟨hinside, -⟩ | hreturns
  · exact .inl hinside
  · exact .inr hreturns

end Script

end ScriptMachine
