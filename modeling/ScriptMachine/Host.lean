import ScriptMachine.Process.Execute

/-!
# Hosts

Scripts run inside a host, which gives them functions of its own. A function of
the host sees the process that calls it, its handle and the arguments; it may use
every operation on the process, change the state of the host, ask for sleeping
processes to be woken, and fail, either with a fault or by breaking down
altogether. What it leaves behind is a `Turn`: the process and the state of the
host, whether or not it failed.

A step of a process executes one instruction under a host (`Process.step`), and a
slice executes at most so many, for as long as the process runs
(`Process.slice`). The detached host has no functions and takes no notice of
calls.
-/

namespace ScriptMachine

/-- The number by which a host knows a process. -/
structure Handle where
  number : Nat
deriving DecidableEq, Inhabited

namespace Handle

/-- The handle in a message. -/
def text (h : Handle) : String := "#" ++ toString h.number

/-- The handle as the one that a waker wakes. -/
def describeWaker (h : Handle) : String :=
  "Waker(ProcessHandle(" ++ toString h.number ++ "))"

end Handle

/-- How a step can fail. -/
inductive Raised where
  | fault (f : Fault)
  /-- A function of the host broke down, with a message if it left one. -/
  | breakdown (message : Option String)
deriving DecidableEq, Inhabited

namespace Raised

/-- The fault that ends the process. -/
def toFault : Raised → Fault
  | fault f => f
  | breakdown message => .external ("panicked: " ++ message.getD "unknown panic")

end Raised

/-- What some activity of a process leaves behind; `σ` is the state of the
    host. -/
structure Turn (σ : Type) where
  process : Process
  host : σ
  /-- The processes that were asked to be woken, in that order. -/
  wakes : List Handle
  result : Except Raised Unit

namespace Turn

variable {σ : Type}

/-- Nothing has happened yet. -/
def start (p : Process) (host : σ) : Turn σ := ⟨p, host, [], .ok ()⟩

end Turn

/-- A function of the host. -/
def HostFunction (σ : Type) := Handle → List Value → Process → σ → Turn σ

/-- What happens when a script calls a function that the host does not have. -/
inductive UnboundPolicy where
  /-- The arguments are dropped, and there is no result. -/
  | ignore
  /-- The arguments are dropped, and the result is the unit value. -/
  | pushUnit
  | fault
deriving DecidableEq, Inhabited

/-- The functions of a host. -/
structure Host (σ : Type) where
  functions : Table String (HostFunction σ)
  unbound : UnboundPolicy

namespace Host

variable {σ : Type}

/-- The host without functions. -/
def detached : Host Unit := ⟨[], .ignore⟩

/-- A turn that changes the process only, unless it is a fault. -/
def ofResult (p : Process) (host : σ) : Except Fault Process → Turn σ
  | .ok p' => ⟨p', host, [], .ok ()⟩
  | .error f => ⟨p, host, [], .error (.fault f)⟩

/-- Carries out a call from a script. -/
def call (h : Host σ) (handle : Handle) (name : String) (args : List Value) (p : Process)
    (host : σ) : Turn σ :=
  match h.functions.get? name with
  | some f => f handle args p host
  | none =>
    match h.unbound with
    | .ignore => ofResult p host (.ok p)
    | .pushUnit => ofResult p host (p.push .unit)
    | .fault => ofResult p host (.error (.unboundExternal name))

end Host

namespace Process

variable {σ : Type}

/-- Moves control behind an instruction after a turn that did not fail. -/
def settle (depth : Nat) (t : Turn σ) : Turn σ :=
  match t.result with
  | .error _ => t
  | .ok _ =>
    match t.process.proceed depth with
    | .ok p => { t with process := p }
    | .error f => { t with result := .error (.fault f) }

/-- Executes one instruction by itself: control does not move. -/
def perform (h : Host σ) (handle : Handle) (i : Instruction) (p : Process) (host : σ) : Turn σ :=
  match p.execute i with
  | (p', .error f) => ⟨p', host, [], .error (.fault f)⟩
  | (p', .ok .done) => ⟨p', host, [], .ok ()⟩
  | (p', .ok (.request name args)) => h.call handle name args p' host

/-- Executes the next instruction of the current frame. Behind the last
    instruction of a function, its frame is left. -/
def step (h : Host σ) (handle : Handle) (p : Process) (host : σ) : Turn σ :=
  match p.current with
  | .error f => ⟨p, host, [], .error (.fault f)⟩
  | .ok none => Host.ofResult p host p.popFrame
  | .ok (some i) => settle p.frames.length (perform h handle i p host)

/-- Continues a turn by at most `budget` steps, while the process runs and does
    not fail. -/
def slice (h : Host σ) (handle : Handle) : (budget : Nat) → Turn σ → Turn σ
  | 0, t => t
  | budget + 1, t =>
    match t.result with
    | .error _ => t
    | .ok _ =>
      if t.process.status = .running then
        let next := t.process.step h handle t.host
        slice h handle budget { next with wakes := t.wakes ++ next.wakes }
      else
        t

end Process

end ScriptMachine
