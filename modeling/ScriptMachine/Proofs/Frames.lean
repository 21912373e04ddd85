import ScriptMachine.Proofs.Assembly
import ScriptMachine.Proofs.Canonical
import ScriptMachine.Proofs.Stepping

/-!
# The frames of loaded programs

Reading a program checks little of its code: instructions may jump anywhere, call whatever
is on the stack, and take operands that are not there. What is checked suffices for the
frames to stay in order. Every function that was read has a body with a number of slots
that is not out of range, or is in another file; so whatever a process enters has a body
and all slots that the body addresses, and no instruction of the body adds to them.

A run goes on after a step that fails, with what that step has left (`Process.after`). A
frame is found by its height, the number of frames below it (`Process.frameAt`), and its
lifetime lasts from the step that entered it for as long as there is a frame at that height
(`Process.Lifetime`).

* `Process.InOrder.origin`: a frame was there before the step, with the same function and as
  many slots, or the step has called its function.
* `Process.InOrder.step`, `Process.inOrder_after`: frames stay in order in a step, and in a
  run.
* `Process.InOrder.lifetime`: every frame of a run has a lifetime.
* `Process.keepsFrames_of_ofBytes`: all that is said above, of every program that was read.
-/

namespace ScriptMachine

/-! ## Programs that were read -/

/-- The functions of the program that have a body can be entered, and the others are in
    another file. -/
def Program.Enterable (p : Program) : Prop :=
  ∀ e ∈ p.functions, e ≠ .unset ∧ e.slots ≤ maxLocals

namespace Program

variable {b : Bytes} {p : Program} {id ip : Nat} {body : Body} {i : Instruction}

/-- Only names that are listed are kept. -/
theorem mem_of_mem_namesOf {names : Table String Nat} {n : String × Nat} (h : n ∈ namesOf names) :
    n ∈ names := by
  have hfold : ∀ (names t : Table String Nat),
      n ∈ names.foldl (fun t m => t.insert m.1 m.2) t → n ∈ t ∨ n ∈ names := by
    intro names
    induction names with
    | nil => exact fun t hn => .inl hn
    | cons m names ih =>
      intro t hn
      rcases ih _ hn with hn | hn
      · rcases Table.mem_insert hn with rfl | hn
        · exact .inr List.mem_cons_self
        · exact .inl hn
      · exact .inr (List.mem_cons_of_mem _ hn)
  exact (hfold names [] h).resolve_left List.not_mem_nil

theorem enterable_of_ofBytes (h : ofBytes b = .ok p) :
    p.Enterable ∧ ∀ name id, p.functionId? name = some id → id < p.functions.size := by
  obtain ⟨c, hread⟩ : ∃ c, readBytes b = .ok (p, c) := by
    cases hread : readBytes b with
    | error e => simp [ofBytes, hread, Except.map] at h
    | ok read =>
      obtain rfl : read.1 = p := by simpa [ofBytes, hread, Except.map] using h
      exact ⟨read.2, rfl⟩
  obtain ⟨names, hnames⟩ := readBytes_eq_ok hread
  refine ⟨fun e he => ⟨(hnames.entries e he).1, (hnames.entries e he).2.2⟩, fun name id hid => ?_⟩
  have hmem : (name, id) ∈ p.names := Table.mem_of_get? hid
  rw [hnames.kept] at hmem
  exact (hnames.named _ (mem_of_mem_namesOf hmem)).1

/-- The slots that an instruction addresses are counted in the body. -/
theorem index_lt_slots (hbody : p.function? id = some (.compiled body))
    (hi : p.instruction? id ip = some i) (hop : i.opcode.isLocalAccess = true) :
    i.index < body.slots := by
  rw [instruction?, hbody] at hi
  rw [body.slots_eq]
  exact index_lt_slotCount (Array.mem_toList_iff.2 (Array.mem_of_getElem? hi)) hop

theorem Enterable.slots_le (h : p.Enterable) (hbody : p.function? id = some (.compiled body)) :
    body.slots ≤ maxLocals :=
  (h _ (Array.mem_of_getElem? hbody)).2

end Program

theorem Frame.size_locals_enter (id slots : Nat) (args : List Value) :
    (Frame.enter id slots args).locals.size = max slots (args.length + 1) := by
  simp only [Frame.enter, Array.size_append, List.size_toArray, List.length_cons, List.length_map,
    Array.size_replicate]
  omega

/-- A new frame has all slots of its function. -/
theorem Frame.slots_le_enter (id slots : Nat) (args : List Value) :
    slots ≤ (Frame.enter id slots args).locals.size := by
  rw [size_locals_enter]
  exact Nat.le_max_left ..

namespace Process

variable {program : Program} {p q : Process} {f g : Frame} {rest : List Frame} {id d n : Nat}
  {args : List Value} {callee : Frame} {e : Fault} {policy : UnboundPolicy} {handle : Handle}

/-- What is entered is the frame of a body. -/
theorem entered_eq_ok (h : p.entered id args = .ok callee) :
    ∃ body, p.program.function? id = some (.compiled body) ∧
      callee = .enter id body.slots args := by
  unfold entered at h
  split at h
  · cases h
  · split at h
    · next body hbody =>
      split at h
      · cases h
      · cases h
        exact ⟨body, hbody, rfl⟩
    all_goals cases h

/-- Why a function cannot be entered, if the program was read. -/
theorem entered_eq_error (hprogram : p.program.Enterable) (h : p.entered id args = .error e) :
    e = .stackOverflow p.maxDepth ∧ p.frames.length = p.maxDepth ∨
      (∃ file name, p.program.function? id = some (.imported file name) ∧
        e = .importedUnsupported file name) ∨
      p.program.function? id = none ∧ e = .badFunctionId id := by
  unfold entered at h
  split at h
  · next hdepth =>
    cases h
    exact .inl ⟨rfl, hdepth⟩
  · split at h
    · next body hbody =>
      rw [if_neg (Nat.not_lt.2 (hprogram.slots_le hbody))] at h
      cases h
    · next file name hentry =>
      cases h
      exact .inr (.inl ⟨file, name, hentry, rfl⟩)
    · next hentry => exact absurd rfl (hprogram _ (Array.mem_of_getElem? hentry)).1
    · next hentry =>
      cases h
      exact .inr (.inr ⟨hentry, rfl⟩)

/-! ## Frames by their height -/

/-- The frame with so many frames below it. -/
def frameAt (p : Process) (d : Nat) : Option Frame := p.frames.reverse[d]?

/-- The current frame is the highest one. -/
theorem getElem?_reverse_cons (f : Frame) (rest : List Frame) (d : Nat) :
    (f :: rest).reverse[d]? = if d = rest.length then some f else rest.reverse[d]? := by
  rw [List.reverse_cons]
  split
  · next hd => simp [hd]
  · next hd =>
    rcases Nat.lt_or_gt_of_ne hd with hlt | hgt
    · rw [List.getElem?_append_left (by rwa [List.length_reverse])]
    · rw [List.getElem?_eq_none (by simp; omega), List.getElem?_eq_none (by simp; omega)]

theorem mem_frames_iff : f ∈ p.frames ↔ ∃ d, p.frameAt d = some f := by
  rw [← List.mem_reverse, List.mem_iff_getElem?]
  rfl

/-- The process is about to call a function with these arguments. -/
def Calls (p : Process) (id : Nat) (args : List Value) : Prop :=
  ∃ f rest left, p.frames = f :: rest ∧ f.Calls p.program id args left

/-- At the height there is a frame with the function of `g` and as many slots. -/
def HasLike (p : Process) (d : Nat) (g : Frame) : Prop :=
  ∃ f, p.frameAt d = some f ∧ g.function = f.function ∧ g.locals.size = f.locals.size

theorem hasLike_of_frameAt (h : p.frameAt d = some f) : p.HasLike d f := ⟨f, h, rfl, rfl⟩

/-- Frames keep their heights when another one is above them. -/
theorem HasLike.below (h : (p.onFrames rest).HasLike d g) (hp : p.frames = f :: rest) :
    p.HasLike d g := by
  obtain ⟨f', hf', hlike⟩ := h
  refine ⟨f', ?_, hlike⟩
  have hlt : d < rest.length := by
    obtain ⟨hlt, -⟩ := List.getElem?_eq_some_iff.1 hf'
    rwa [List.length_reverse] at hlt
  rw [frameAt, hp, getElem?_reverse_cons, if_neg (Nat.ne_of_lt hlt)]
  exact hf'

/-- The current frame is replaced by one with the same function and as many slots. -/
theorem hasLike_of_current {f' : Frame} (hp : p.frames = f :: rest)
    (hg : (f' :: rest).reverse[d]? = some g) (hfunction : f'.function = f.function)
    (hsize : f'.locals.size = f.locals.size) : p.HasLike d g := by
  rw [getElem?_reverse_cons] at hg
  split at hg
  · next hd =>
    obtain rfl := Option.some.inj hg
    exact ⟨f, by rw [frameAt, hp, getElem?_reverse_cons, if_pos hd], hfunction, hsize⟩
  · exact (hasLike_of_frameAt (p := p.onFrames rest) hg).below hp

/-- Where a frame comes from that is found at a height after a step. -/
inductive Origin (p : Process) (d : Nat) (g : Frame) : Prop where
  | kept (h : p.HasLike d g)
  | entered {body : Body} {args : List Value} (hheight : p.frames.length = d)
      (hcalls : p.Calls g.function args)
      (hbody : p.program.function? g.function = some (.compiled body))
      (hg : g = .enter g.function body.slots args)

/-! ## Frames in order -/

/-- All frames belong to functions with a body and have the slots that the body addresses,
    and nothing waits in the process. -/
structure InOrder (program : Program) (p : Process) : Prop where
  program_eq : p.program = program
  quiet : p.frames ≠ [] → p.Quiet
  frames : ∀ f ∈ p.frames, ∃ body, program.function? f.function = some (.compiled body) ∧
    body.slots ≤ f.locals.size

namespace InOrder

theorem stepped (h : InOrder program p) (policy : UnboundPolicy) (handle : Handle)
    (hf : p.frames = f :: rest) :
    p.Quiet ∧ Stepped p f rest (p.step ⟨[], policy⟩ handle ()) := by
  obtain ⟨body, hbody, -⟩ := h.frames f (hf ▸ List.mem_cons_self)
  have hquiet : p.Quiet := h.quiet (hf ▸ List.cons_ne_nil f rest)
  have hp : p.onFrames (f :: rest) = p := by rw [← hf]; rfl
  have hstepped : Stepped p f rest ((p.onFrames (f :: rest)).step ⟨[], policy⟩ handle ()) :=
    Process.stepped hquiet (h.program_eq ▸ hbody)
  rw [hp] at hstepped
  exact ⟨hquiet, hstepped⟩

/-- A frame has all slots that the code of its function addresses. -/
theorem index_lt (h : InOrder program p) (hf : f ∈ p.frames) {ip : Nat} {i : Instruction}
    (hi : program.instruction? f.function ip = some i) (hop : i.opcode.isLocalAccess = true) :
    i.index < f.locals.size := by
  obtain ⟨body, hbody, hslots⟩ := h.frames f hf
  exact Nat.lt_of_lt_of_le (Program.index_lt_slots hbody hi hop) hslots

/-- After a step every frame was there before, or is that of a function just called. -/
theorem origin (h : InOrder program p)
    (hg : (p.step ⟨[], policy⟩ handle ()).process.frameAt d = some g) : p.Origin d g := by
  cases hf : p.frames with
  | nil =>
    rw [step_of_frames_eq_nil hf] at hg
    exact .kept (hasLike_of_frameAt hg)
  | cons f rest =>
    obtain ⟨hquiet, hstepped⟩ := h.stepped policy handle hf
    generalize p.step ⟨[], policy⟩ handle () = t at hstepped hg
    cases hstepped with
    | moved | failed | unstored | refused => exact .kept (hasLike_of_current hf hg rfl rfl)
    | stored hi hop =>
      -- The slot is there already, so that setting it adds none.
      refine .kept (hasLike_of_current hf hg rfl ?_)
      have hslot := h.index_lt (hf ▸ List.mem_cons_self) (h.program_eq ▸ hi) (by rw [hop]; rfl)
      rw [Program.size_setFilling]
      omega
    | called hcalls hcallee =>
      obtain ⟨body, hbody, rfl⟩ := entered_eq_ok hcallee
      rw [frameAt, onFrames_frames, getElem?_reverse_cons] at hg
      split at hg
      · next hd =>
        cases hg
        exact .entered (hf ▸ hd.symm) ⟨f, rest, _, hf, hcalls⟩ hbody rfl
      · exact .kept (hasLike_of_current hf hg rfl rfl)
    | returned =>
      cases rest with
      | nil => cases hg
      | cons caller rest =>
        have hlike : (p.onFrames (caller :: rest)).HasLike d g :=
          hasLike_of_current rfl hg rfl rfl
        exact .kept (hlike.below hf)
    | ended _ hq =>
      rw [frameAt, (popFrame_of_quiet hquiet hq).1] at hg
      exact .kept ((hasLike_of_frameAt (p := p.onFrames rest) hg).below hf)

/-- Frames stay in order in a step. -/
theorem step (h : InOrder program p) : InOrder program (p.step ⟨[], policy⟩ handle ()).process := by
  cases hf : p.frames with
  | nil => rwa [step_of_frames_eq_nil hf]
  | cons f rest =>
    obtain ⟨hquiet, hstepped⟩ := h.stepped policy handle hf
    obtain ⟨hprogram, hquiet'⟩ := hstepped.quiet hquiet
    refine ⟨hprogram.trans h.program_eq, hquiet', fun g hg => ?_⟩
    obtain ⟨d, hd⟩ := mem_frames_iff.1 hg
    cases h.origin hd with
    | kept hlike =>
      obtain ⟨f', hf', hfunction, hsize⟩ := hlike
      rw [hfunction, hsize]
      exact h.frames f' (mem_frames_iff.2 ⟨d, hf'⟩)
    | @entered body args _ _ hbody hg =>
      refine ⟨body, h.program_eq ▸ hbody, ?_⟩
      rw [hg]
      exact Frame.slots_le_enter ..

/-- The only fault of frames is that there is none. -/
theorem no_frame_of_fault (h : InOrder program p) (hprogram : program.Enterable)
    (he : (p.step ⟨[], policy⟩ handle ()).result = .error (.fault e))
    (hlayout : e.isOfLayout = true) : e = .noActiveFrame ∧ p.frames = [] := by
  cases hf : p.frames with
  | nil =>
    rw [step_of_frames_eq_nil hf] at he
    cases he
    exact ⟨rfl, rfl⟩
  | cons f rest =>
    exfalso
    obtain ⟨-, hstepped⟩ := h.stepped policy handle hf
    generalize p.step ⟨[], policy⟩ handle () = t at hstepped he
    cases hstepped with
    | moved | stored | called | returned | ended => cases he
    | failed _ he' =>
      cases he
      simp [he'] at hlayout
    | unstored _ hi hop hslot =>
      obtain ⟨body, hbody, -⟩ := h.frames f (hf ▸ List.mem_cons_self)
      have hlt := Program.index_lt_slots hbody (h.program_eq ▸ hi) (by rw [hop]; rfl)
      have hle := hprogram.slots_le hbody
      omega
    | refused _ he' =>
      cases he
      rcases entered_eq_error (p := p.onFrames (f :: rest)) (h.program_eq ▸ hprogram) he' with
        ⟨rfl, -⟩ | ⟨file, name, -, rfl⟩ | ⟨-, rfl⟩
      all_goals cases hlayout

end InOrder

/-! ## Runs -/

/-- The process after so many steps, also if some of them fail. -/
def after (host : Host Unit) (handle : Handle) (p : Process) : Nat → Process
  | 0 => p
  | n + 1 => ((p.after host handle n).step host handle ()).process

theorem inOrder_after (h : InOrder program p) (n : Nat) :
    InOrder program (p.after ⟨[], policy⟩ handle n) := by
  induction n with
  | zero => exact h
  | succ n ih => exact ih.step

section Lifetimes

variable {run : Nat → Process} {first : List Value} {body : Body} {start : Nat}

/-- The lifetime of a frame in a run that began with the arguments `first`: at the moment
    `start` the function was entered with `args`, by a call unless this is the beginning, and
    up to the moment `n` there is a frame of the function at its height, with as many slots as
    it got then. -/
structure Lifetime (run : Nat → Process) (first : List Value) (d n id : Nat) (body : Body)
    (args : List Value) (start : Nat) : Prop where
  start_le : start ≤ n
  entered : (run start).frameAt d = some (.enter id body.slots args)
  cause : start = 0 ∧ args = first ∨
    ∃ k, start = k + 1 ∧ (run k).frames.length = d ∧ (run k).Calls id args
  kept : ∀ k, start ≤ k → k ≤ n → ∃ f, (run k).frameAt d = some f ∧ f.function = id ∧
    f.locals.size = max body.slots (args.length + 1)

/-- The lifetime of a frame that is just entered. -/
theorem lifetime_self (hentered : (run n).frameAt d = some (.enter id body.slots args))
    (hcause : n = 0 ∧ args = first ∨
      ∃ k, n = k + 1 ∧ (run k).frames.length = d ∧ (run k).Calls id args) :
    Lifetime run first d n id body args n := by
  refine ⟨Nat.le_refl n, hentered, hcause, fun k hk hk' => ?_⟩
  obtain rfl := Nat.le_antisymm hk' hk
  exact ⟨_, hentered, rfl, Frame.size_locals_enter ..⟩

/-- A lifetime goes on as long as the frame has its function and its slots. -/
theorem Lifetime.succ (h : Lifetime run first d n id body args start)
    (hf : (run n).frameAt d = some f) (hg : (run (n + 1)).frameAt d = some g)
    (hfunction : g.function = f.function) (hsize : g.locals.size = f.locals.size) :
    Lifetime run first d (n + 1) id body args start := by
  refine ⟨Nat.le_succ_of_le h.start_le, h.entered, h.cause, fun k hk hk' => ?_⟩
  rcases Nat.le_succ_iff.1 hk' with hk' | rfl
  · exact h.kept k hk hk'
  · obtain ⟨f', hf', hid, hslots⟩ := h.kept n h.start_le (Nat.le_refl n)
    obtain rfl := Option.some.inj (hf.symm.trans hf')
    exact ⟨g, hg, hfunction.trans hid, hsize.trans hslots⟩

end Lifetimes

/-- Every frame of a run has a lifetime. -/
theorem InOrder.lifetime {first : List Value} (h : InOrder program p)
    (hfirst : ∀ d f, p.frameAt d = some f → ∃ body,
      program.function? f.function = some (.compiled body) ∧ f = .enter f.function body.slots first)
    (hf : (p.after ⟨[], policy⟩ handle n).frameAt d = some f) :
    ∃ body args start, program.function? f.function = some (.compiled body) ∧
      Lifetime (p.after ⟨[], policy⟩ handle) first d n f.function body args start := by
  induction n generalizing f with
  | zero =>
    obtain ⟨body, hbody, hentered⟩ := hfirst d f hf
    refine ⟨body, first, 0, hbody, ?_⟩
    exact lifetime_self (hf.trans (congrArg some hentered)) (.inl ⟨rfl, rfl⟩)
  | succ n ih =>
    have horder : InOrder program (p.after ⟨[], policy⟩ handle n) := inOrder_after h n
    cases horder.origin hf with
    | kept hlike =>
      obtain ⟨f', hf', hfunction, hsize⟩ := hlike
      obtain ⟨body, args, start, hbody, hlifetime⟩ := ih hf'
      rw [hfunction]
      exact ⟨body, args, start, hbody, hlifetime.succ hf' hf hfunction hsize⟩
    | @entered body args hheight hcalls hbody hentered =>
      refine ⟨body, args, n + 1, horder.program_eq ▸ hbody, ?_⟩
      exact lifetime_self (hf.trans (congrArg some hentered)) (.inr ⟨n, rfl, hheight, hcalls⟩)

/-- What holds of the frames after `n` steps of a run that began with the arguments `first`:
    each belongs to a function with a body and has the number of slots that it got when it
    was entered; its function addresses no other slots; and the next step does not find the
    frames out of order. -/
structure KeepsFrames (host : Host Unit) (handle : Handle) (p : Process) (first : List Value)
    (n : Nat) : Prop where
  lifetime : ∀ d f, (p.after host handle n).frameAt d = some f → ∃ body args start,
    p.program.function? f.function = some (.compiled body) ∧
      Lifetime (p.after host handle) first d n f.function body args start
  access : ∀ f ∈ (p.after host handle n).frames, ∀ ip i,
    p.program.instruction? f.function ip = some i → i.opcode.isLocalAccess = true →
      i.index < f.locals.size
  faults : ∀ e, ((p.after host handle n).step host handle ()).result = .error (.fault e) →
    e.isOfLayout = true → e = .noActiveFrame ∧ (p.after host handle n).frames = []

theorem InOrder.keepsFrames {first : List Value} (h : InOrder p.program p)
    (hprogram : p.program.Enterable)
    (hfirst : ∀ d f, p.frameAt d = some f → ∃ body,
      p.program.function? f.function = some (.compiled body) ∧
        f = .enter f.function body.slots first) :
    KeepsFrames ⟨[], policy⟩ handle p first n where
  lifetime _ _ hf := h.lifetime hfirst hf
  access _ hf _ _ hi hop := (inOrder_after h n).index_lt hf hi hop
  faults _ he hlayout := (inOrder_after h n).no_frame_of_fault hprogram he hlayout

/-- Whatever code was read, entering a function by its name fails only because no frames are
    allowed or because the function is in another file, and if it does not fail, all frames
    stay in order however long the process runs. -/
theorem keepsFrames_of_ofBytes {b : Bytes} {name : String} (hread : Program.ofBytes b = .ok program)
    (hname : program.functionId? name = some id) (args : List Value) (maxDepth : Nat)
    (policy : UnboundPolicy) (handle : Handle) :
    (∃ p, (new program maxDepth).enter id args = .ok p ∧
        ∀ n, KeepsFrames ⟨[], policy⟩ handle p args n) ∨
      maxDepth = 0 ∧ (new program maxDepth).enter id args = .error (.stackOverflow 0) ∨
      ∃ file far, program.function? id = some (.imported file far) ∧
        (new program maxDepth).enter id args = .error (.importedUnsupported file far) := by
  obtain ⟨hprogram, hids⟩ := Program.enterable_of_ofBytes hread
  rw [enter_eq]
  cases hentered : (new program maxDepth).entered id args with
  | error e =>
    refine .inr ?_
    rcases entered_eq_error hprogram hentered with
      ⟨rfl, hdepth⟩ | ⟨file, far, hentry, rfl⟩ | ⟨hentry, -⟩
    · obtain rfl : 0 = maxDepth := hdepth
      exact .inl ⟨rfl, rfl⟩
    · exact .inr ⟨file, far, hentry, rfl⟩
    · have hlt := hids name id hname
      simp [new, Program.function?, Nat.not_le.2 hlt] at hentry
  | ok callee =>
    obtain ⟨body, hbody, rfl⟩ := entered_eq_ok hentered
    refine .inl ⟨_, rfl, fun n => InOrder.keepsFrames ⟨rfl, fun _ => ⟨rfl, rfl⟩, ?_⟩ hprogram ?_⟩
    · intro f hf
      obtain rfl := List.mem_singleton.1 hf
      exact ⟨body, hbody, Frame.slots_le_enter ..⟩
    · intro d f hf
      obtain rfl := List.mem_singleton.1 (mem_frames_iff.2 ⟨d, hf⟩)
      exact ⟨body, hbody, rfl⟩

/-- A function with two slots that calls itself with two arguments, for which three are
    needed, and then goes on without an operand to set a slot to. -/
def wideCall : Program where
  strings := #[]
  functions := #[.compiled (.ofCode #[.bare .pushUnit, .bare .pushUnit, .ofNat .pushFunction 0,
    .ofNat .call 2, .ofNat .setLocal 1])]
  names := [("f", 0)]

theorem keepsFrames_of_ofBytes_wideCall :
    Program.ofBytes (wideCall.stored [("f", 0)] ++ [255]) = .ok wideCall ∧
      wideCall.functionId? "f" = some 0 ∧
      ∃ p, (new wideCall 2).enter 0 [] = .ok p ∧
        (p.after .detached ⟨0⟩ 4).frames.map (·.locals.size) = [3, 2] ∧
        ∀ n, KeepsFrames .detached ⟨0⟩ p [] n := by
  have hlists : wideCall.Lists [("f", 0)] := by
    refine ⟨rfl, by decide +kernel, by decide, by decide, by decide, fun e he => ?_⟩
    obtain rfl := List.mem_singleton.1 (List.mem_toArray.1 he)
    exact ⟨nofun, (by decide : 5 < Program.lengthLimit), by decide⟩
  have hread : Program.ofBytes (wideCall.stored [("f", 0)] ++ [255]) = .ok wideCall := by
    rw [Program.ofBytes, hlists.readBytes_stored]
    rfl
  have hname : wideCall.functionId? "f" = some 0 := rfl
  rcases keepsFrames_of_ofBytes hread hname [] 2 .ignore ⟨0⟩ with
    ⟨p, hp, hkeeps⟩ | ⟨h, -⟩ | ⟨file, far, h, -⟩
  · refine ⟨hread, hname, p, hp, ?_, hkeeps⟩
    cases hp
    decide +kernel
  · cases h
  · cases h

end Process

end ScriptMachine
