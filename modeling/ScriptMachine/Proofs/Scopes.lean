import ScriptMachine.Proofs.Layout

/-!
# Scopes and slots

Where evaluation has named scopes that come and go, generated code has numbered
slots that stay for as long as the activation lasts. This module relates the two.

* `StmtCode.slots_eq`: the slots that code gives out are the numbers that evaluation
  gives to its variables, one by one.
* `Activation.Matches`: the slots of a frame hold the values of the variables of an
  activation. It says nothing about slots whose variables are out of scope. When a
  block is executed again such a slot still holds its old value, while the variable
  is a new one that has no value yet. The difference can only be seen where a variable
  is read before it is assigned to, and there is only one place for this: the
  right-hand side of the assignment that introduces the variable. But such an
  assignment cannot have been executed before, for then, too, its variable had no
  value (`Expr.eval_reads`). So the slot of a variable that is read there is still
  empty, which is what `Matches.unset` remembers.
* `Matches.declare`, `Matches.assign`: an assignment keeps the two together.
-/

namespace ScriptMachine

/-! ## Results -/

namespace Result

variable {α β : Type} {r : Result α} {f : α → Result β} {b : β}

@[simp] theorem done_bind (a : α) (f : α → Result β) : (done a >>= f) = f a := rfl

@[simp] theorem fault_bind (e : Fault) (f : α → Result β) : (fault e >>= f) = fault e := rfl

@[simp] theorem unfinished_bind (f : α → Result β) : (unfinished >>= f) = unfinished := rfl

@[simp] theorem meaningless_bind (f : α → Result β) : (meaningless >>= f) = meaningless := rfl

@[simp] theorem pure_eq_done (a : α) : (pure a : Result α) = done a := rfl

theorem bind_eq_done (h : (r >>= f) = done b) : ∃ a, r = done a ∧ f a = done b := by
  cases r with
  | done a => exact ⟨a, rfl, h⟩
  | fault | unfinished | meaningless => simp at h

end Result

/-! ## The variables that an expression reads -/

namespace Expr

variable {s : Script} {call : Nat → List Value → Result Value} {a : Activation}

mutual

/-- The variables that an expression reads. -/
def reads (s : Script) : Expr → List String
  | .literal _ | .functionRef _ => []
  | .ident x => [x]
  | .call _ x args => allReads s args ++ if (s.functionId? x).isSome then [] else [x]
  | .binary _ left right => left.reads s ++ right.reads s
  | .not e | .negate e | .access e _ => e.reads s

/-- The variables that expressions read. -/
def allReads (s : Script) : List Expr → List String
  | [] => []
  | e :: es => e.reads s ++ allReads s es

end

mutual

/-- Evaluation is strict: an expression has a value only if all variables that it
    reads have one. -/
theorem eval_reads : (e : Expr) → {v : Value} → e.eval s call a = .done v →
    ∀ x ∈ e.reads s, ∃ w, a.read x = .done w
  | .literal _, _, _, x, hx => by simp [reads] at hx
  | .functionRef _, _, _, x, hx => by simp [reads] at hx
  | .ident y, v, h, x, hx => by
    rw [reads, List.mem_singleton] at hx
    exact ⟨v, by rw [hx, ← h, eval]⟩
  | .call .internal y args, v, h, x, hx => by
    rw [eval] at h
    obtain ⟨vs, hvs, h₁⟩ := Result.bind_eq_done h
    obtain ⟨f, hf, -⟩ := Result.bind_eq_done h₁
    rw [reads, List.mem_append] at hx
    rcases hx with hx | hx
    · exact evalAll_reads args hvs x hx
    · -- The name of the callee is read only if it is not that of a function.
      unfold callee at hf
      cases hid : s.functionId? y with
      | some id => simp [hid] at hx
      | none =>
        simp only [hid, Option.isSome_none, Bool.false_eq_true, if_false, List.mem_singleton] at hf hx
        exact ⟨f, hx ▸ hf⟩
  | .call .external _ _, _, h, _, _ => by simp [eval] at h
  | .binary op left right, v, h, x, hx => by
    rw [eval] at h
    obtain ⟨v₁, hv₁, h₁⟩ := Result.bind_eq_done h
    obtain ⟨v₂, hv₂, -⟩ := Result.bind_eq_done h₁
    rw [reads, List.mem_append] at hx
    rcases hx with hx | hx
    · exact eval_reads left hv₁ x hx
    · exact eval_reads right hv₂ x hx
  | .not e, v, h, x, hx => by
    rw [eval] at h
    obtain ⟨v₁, hv₁, -⟩ := Result.bind_eq_done h
    exact eval_reads e hv₁ x (by rwa [reads] at hx)
  | .negate e, v, h, x, hx => by
    rw [eval] at h
    obtain ⟨v₁, hv₁, -⟩ := Result.bind_eq_done h
    exact eval_reads e hv₁ x (by rwa [reads] at hx)
  | .access _ _, _, h, _, _ => by simp [eval] at h

theorem evalAll_reads : (es : List Expr) → {vs : List Value} → evalAll s call a es = .done vs →
    ∀ x ∈ allReads s es, ∃ w, a.read x = .done w
  | [], _, _, x, hx => by simp [allReads] at hx
  | e :: es, vs, h, x, hx => by
    rw [evalAll] at h
    obtain ⟨v₁, hv₁, h₁⟩ := Result.bind_eq_done h
    obtain ⟨vs₂, hvs₂, -⟩ := Result.bind_eq_done h₁
    rw [allReads, List.mem_append] at hx
    rcases hx with hx | hx
    · exact eval_reads e hv₁ x hx
    · exact evalAll_reads es hvs₂ x hx

end

end Expr

/-! ## Slots are numbers -/

section Slots

variable {ids : String → Option Nat} {texts : Array String} {slots slots' : Slots}
  {block : Table String Nat} {outer : List (Table String Nat)} {x : String} {slot : Nat}

/-- A name that the innermost block binds keeps its slot. -/
theorem Slots.declare_of_get? (hblocks : slots.blocks = block :: outer)
    (hx : block.get? x = some slot) : slots.declare x = (slot, slots) := by
  simp [Slots.declare, hblocks, hx]

/-- Another name gets the next slot. -/
theorem Slots.declare_of_notMem (hblocks : slots.blocks = block :: outer) (hx : x ∉ block.keys) :
    slots.declare x =
      (slots.next, ⟨(block ++ [(x, slots.next)]) :: outer, slots.next + 1⟩) := by
  simp [Slots.declare, hblocks, Table.get?_eq_none_iff.2 hx, Table.insert_of_notMem hx]

theorem Slots.leaveBlock_eq {inner : Table String Nat}
    (hblocks : slots.blocks = inner :: block :: outer) :
    slots.leaveBlock = ⟨block :: outer, slots.next⟩ := by
  simp [Slots.leaveBlock, hblocks]

mutual

/-- A statement gives out one slot for each variable that it introduces; the blocks
    around it do not change. -/
theorem StmtCode.slots_eq : (stmt : Stmt) → {slots slots' : Slots} → {start : Nat} →
    {code : List Instruction} → {block : Table String Nat} → {outer : List (Table String Nat)} →
    StmtCode ids texts slots start stmt code slots' → slots.blocks = block :: outer →
    ∃ block', slots'.blocks = block' :: outer ∧ block'.keys = stmt.binds block.keys ∧
      slots'.next = slots.next + (stmt.declarations block.keys).length
  | .assign x e, slots, _, _, _, block, outer, .assign hslot _, hblocks => by
    by_cases hx : x ∈ block.keys
    · obtain ⟨k, hk⟩ := Option.ne_none_iff_exists'.1 (mt Table.get?_eq_none_iff.1 (not_not_intro hx))
      obtain ⟨rfl, rfl⟩ := Prod.mk.inj ((Slots.declare_of_get? hblocks hk).symm.trans hslot)
      exact ⟨block, hblocks, by simp [Stmt.binds, hx], by simp [Stmt.declarations, hx]⟩
    · obtain ⟨rfl, rfl⟩ := Prod.mk.inj ((Slots.declare_of_notMem hblocks hx).symm.trans hslot)
      refine ⟨_, rfl, ?_, by simp [Stmt.declarations, hx]⟩
      rw [Stmt.binds, if_neg hx, Table.keys_append]
      rfl
  | .loop c body, slots, _, _, _, block, outer, .loop _ hbody, hblocks => by
    obtain ⟨inner, hinner, hnext⟩ :=
      StmtsCode.slots_eq body hbody (congrArg ([] :: ·) hblocks)
    rw [Slots.leaveBlock_eq hinner]
    exact ⟨block, rfl, rfl, hnext.trans (by simp [Stmt.declarations, Slots.enterBlock, Table.keys])⟩
  | .choose branches, _, _, _, _, block, outer, .choose h, hblocks => by
    obtain ⟨hblocks', hnext⟩ := BranchesCode.slots_eq branches h hblocks
    exact ⟨block, hblocks', rfl, by rw [hnext, Stmt.declarations]⟩
  | .call _ _ _, _, _, _, _, block, _, .call _ _, hblocks => ⟨block, hblocks, rfl, rfl⟩
  | .give none, _, _, _, _, block, _, .giveUnit, hblocks => ⟨block, hblocks, rfl, rfl⟩
  | .give (some _), _, _, _, _, block, _, .give _, hblocks => ⟨block, hblocks, rfl, rfl⟩

theorem StmtsCode.slots_eq : (stmts : List Stmt) → {slots slots' : Slots} → {start : Nat} →
    {code : List Instruction} → {block : Table String Nat} → {outer : List (Table String Nat)} →
    StmtsCode ids texts slots start stmts code slots' → slots.blocks = block :: outer →
    ∃ block', slots'.blocks = block' :: outer ∧
      slots'.next = slots.next + (Stmt.allDeclarations block.keys stmts).length
  | [], _, _, _, _, block, _, .nil, hblocks => ⟨block, hblocks, rfl⟩
  | stmt :: stmts, _, _, _, _, block, outer, .cons h hs, hblocks => by
    obtain ⟨block₁, hblocks₁, hkeys, hnext₁⟩ := StmtCode.slots_eq stmt h hblocks
    obtain ⟨block₂, hblocks₂, hnext₂⟩ := StmtsCode.slots_eq stmts hs hblocks₁
    refine ⟨block₂, hblocks₂, ?_⟩
    rw [hnext₂, hnext₁, hkeys, Stmt.allDeclarations, List.length_append, Nat.add_assoc]

theorem BranchesCode.slots_eq : (branches : List Branch) → {slots slots' : Slots} → {start : Nat} →
    {code : List Instruction} → {block : Table String Nat} → {outer : List (Table String Nat)} →
    BranchesCode ids texts slots start branches code slots' → slots.blocks = block :: outer →
    slots'.blocks = block :: outer ∧
      slots'.next = slots.next + (Stmt.branchDeclarations branches).length
  | [.mk _ body], slots, _, _, _, block, outer, .last hbody, hblocks => by
    obtain ⟨inner, hinner, hnext⟩ := StmtsCode.slots_eq body hbody (congrArg ([] :: ·) hblocks)
    rw [Slots.leaveBlock_eq hinner]
    exact ⟨rfl, hnext.trans (by simp [Stmt.branchDeclarations, Slots.enterBlock, Table.keys])⟩
  | .mk _ body :: branch :: branches, slots, _, _, _, block, outer, .cons _ hbody hrest, hblocks => by
    obtain ⟨inner, hinner, hnext⟩ := StmtsCode.slots_eq body hbody (congrArg ([] :: ·) hblocks)
    rw [Slots.leaveBlock_eq hinner] at hrest
    obtain ⟨hblocks', hnext'⟩ := BranchesCode.slots_eq (branch :: branches) hrest rfl
    refine ⟨hblocks', hnext'.trans ?_⟩
    rw [hnext, Stmt.branchDeclarations, List.length_append, ← Nat.add_assoc]
    rfl

end

end Slots

/-! ## What slots hold -/

/-- The value in a slot. -/
def slotValue (locals : Array (Option Value)) (slot : Nat) : Option Value := locals[slot]?.join

theorem slotValue_setFilling (locals : Array (Option Value)) (slot slot' : Nat) (v : Value) :
    slotValue (Program.setFilling none locals slot (some v)) slot' =
      if slot' = slot then some v else slotValue locals slot' := by
  simp only [slotValue, Program.setFilling, Array.getElem?_setIfInBounds, Array.size_append,
    Array.size_replicate]
  by_cases h : slot' = slot
  · rw [if_pos h.symm, if_pos h, if_pos (by omega)]
    rfl
  · rw [if_neg (Ne.symm h), if_neg h, Array.getElem?_append]
    split
    · rfl
    · next hsize =>
      rw [Array.getElem?_replicate, Array.getElem?_eq_none (Nat.not_lt.1 hsize)]
      split <;> rfl

theorem slotValue_enter (id slots : Nat) (args : List Value) (k : Nat) :
    slotValue (Frame.enter id slots args).locals (k + 1) = args[k]? := by
  simp only [slotValue, Frame.enter, Array.getElem?_append]
  split
  · simp
    cases args[k]? <;> rfl
  · next hsize =>
    have hnone : args[k]? = none := by
      rw [List.getElem?_eq_none_iff]
      simpa using hsize
    rw [hnone, Array.getElem?_replicate]
    split <;> rfl

namespace Activation

variable {s : Script} {params : Nat} {decls : List (String × Expr)} {a : Activation}
  {slots slots' : Slots} {locals : Array (Option Value)} {x : String} {var : Variable} {v : Value}

/-- The variables of all scopes. -/
def allVariables (a : Activation) : List Variable := a.scopes.flatMap fun scope => scope.map Prod.snd

/-- The scopes as blocks of slots. -/
def blocks (a : Activation) : List (Table String Nat) :=
  a.scopes.map fun scope => scope.map fun x => (x.1, x.2.number)

theorem mem_allVariables_of_lookup (h : a.lookup x = some var) : var ∈ a.allVariables := by
  obtain ⟨scope, hscope, hvar⟩ := List.exists_of_findSome?_eq_some h
  exact List.mem_flatMap.2 ⟨scope, hscope, List.mem_map_of_mem (Table.mem_of_get? hvar)⟩

theorem resolve_eq_lookup (h : slots.blocks = a.blocks) (x : String) :
    slots.resolve x = (a.lookup x).map Variable.number := by
  rw [Slots.resolve, h, blocks, lookup, List.findSome?_map]
  induction a.scopes with
  | nil => rfl
  | cons scope scopes ih =>
    rw [List.findSome?_cons, List.findSome?_cons, ih, Function.comp, Table.get?_map]
    cases scope.get? x <;> rfl

/-- A frame knows the value of a name: the slot of the name is that of its variable,
    and holds the value of the variable. -/
structure Sees (a : Activation) (slots : Slots) (locals : Array (Option Value)) (x : String) :
    Prop where
  resolve : slots.resolve x = (a.lookup x).map Variable.number
  bounded : ∀ var, a.lookup x = some var → var.number < 4294967296
  value : ∀ var, a.lookup x = some var → slotValue locals var.number = a.value? var

/-- The slots of a frame fit an activation of a function with `params` parameters
    that introduces `decls`. -/
structure Matches (s : Script) (params : Nat) (decls : List (String × Expr)) (a : Activation)
    (slots : Slots) (locals : Array (Option Value)) : Prop where
  blocks : slots.blocks = a.blocks
  nonempty : a.scopes ≠ []
  positive : ∀ var ∈ a.allVariables, 0 < var.number
  bounded : ∀ var ∈ a.allVariables, var.number < slots.next
  distinct : (a.allVariables.map Variable.number).Nodup
  /-- The slot of a variable holds its value. -/
  value : ∀ var ∈ a.allVariables, slotValue locals var.number = a.value? var
  /-- Only parameters can be without a value. -/
  assigned : ∀ var ∈ a.allVariables, params < var.number → (a.value? var).isSome
  argument : ∀ i < a.arguments.length, slotValue locals (i + 1) = a.arguments[i]?
  /-- What its own first assignment reads was never assigned to. -/
  unset : ∀ i x e, decls[i]? = some (x, e) → x ∈ e.reads s → a.arguments.length ≤ params + i →
    slotValue locals (params + 1 + i) = none

/-- The next variables that are introduced are these. -/
def Introduces (params : Nat) (decls : List (String × Expr)) (number : Nat)
    (next : List (String × Expr)) : Prop :=
  ∃ before behind, decls = before ++ (next ++ behind) ∧ number = params + 1 + before.length

theorem Introduces.left {number : Nat} {ds ds' : List (String × Expr)}
    (h : Introduces params decls number (ds ++ ds')) : Introduces params decls number ds := by
  obtain ⟨before, behind, hdecls, hnumber⟩ := h
  exact ⟨before, ds' ++ behind, by rw [hdecls, List.append_assoc], hnumber⟩

theorem Introduces.right {number : Nat} {ds ds' : List (String × Expr)}
    (h : Introduces params decls number (ds ++ ds')) :
    Introduces params decls (number + ds.length) ds' := by
  obtain ⟨before, behind, hdecls, hnumber⟩ := h
  refine ⟨before ++ ds, behind, by rw [hdecls]; simp, ?_⟩
  rw [hnumber, List.length_append, Nat.add_assoc]

theorem Matches.sees (h : a.Matches s params decls slots locals) (hnext : slots.next ≤ 4294967296)
    (x : String) : a.Sees slots locals x where
  resolve := resolve_eq_lookup h.blocks x
  bounded := fun var hvar =>
    Nat.lt_of_lt_of_le (h.bounded var (mem_allVariables_of_lookup hvar)) hnext
  value := fun var hvar => h.value var (mem_allVariables_of_lookup hvar)

theorem value?_of_ne {a' : Activation} {k : Nat} (hargs : a'.arguments = a.arguments.set (k - 1) v)
    (hk : 0 < k) (hvar : 0 < var.number) (hne : var.number ≠ k) : a'.value? var = a.value? var := by
  have hne' : k - 1 ≠ var.number - 1 := by omega
  rw [value?, value?, hargs, List.getElem?_set_ne hne']

theorem value?_self {a' : Activation} {k : Nat} (hargs : a'.arguments = a.arguments.set (k - 1) v) :
    a'.value? ⟨k, some v⟩ = some v := by
  rw [value?, hargs]
  by_cases h : k - 1 < a.arguments.length
  · simp [h]
  · simp [Nat.not_lt.1 h]

/-- Storing a value in the slot of one variable. -/
theorem Matches.store {a' : Activation} {before behind : List Variable} {k : Nat}
    (h : a.Matches s params decls slots locals) (hblocks : slots'.blocks = a'.blocks)
    (hnonempty : a'.scopes ≠ []) (hvars : a'.allVariables = before ++ ⟨k, some v⟩ :: behind)
    (hold : ∀ w ∈ before ++ behind, w ∈ a.allVariables) (hnumber : ∀ w ∈ before ++ behind, w.number ≠ k)
    (hdistinct : (a'.allVariables.map Variable.number).Nodup) (hk : 0 < k) (hnext : k < slots'.next)
    (hslots : slots.next ≤ slots'.next) (hargs : a'.arguments = a.arguments.set (k - 1) v)
    (hfree : ∀ i x e, decls[i]? = some (x, e) → x ∈ e.reads s →
      a.arguments.length ≤ params + i → params + 1 + i ≠ k) :
    a'.Matches s params decls slots' (Program.setFilling none locals k (some v)) := by
  -- A variable is the one that is stored, or was there before in another slot.
  have hcases : ∀ w ∈ a'.allVariables, w = ⟨k, some v⟩ ∨ w ∈ a.allVariables ∧ w.number ≠ k := by
    intro w hw
    rw [hvars] at hw
    rcases List.mem_append.1 hw with hw | hw
    · exact .inr ⟨hold w (List.mem_append_left _ hw), hnumber w (List.mem_append_left _ hw)⟩
    · rcases List.mem_cons.1 hw with rfl | hw
      · exact .inl rfl
      · exact .inr ⟨hold w (List.mem_append_right _ hw), hnumber w (List.mem_append_right _ hw)⟩
  refine ⟨hblocks, hnonempty, fun w hw => ?_, fun w hw => ?_, hdistinct, fun w hw => ?_,
    fun w hw hparams => ?_, fun i hi => ?_, fun i x e hi hx hlen => ?_⟩
  · rcases hcases w hw with rfl | ⟨hw, -⟩
    · exact hk
    · exact h.positive w hw
  · rcases hcases w hw with rfl | ⟨hw, -⟩
    · exact hnext
    · exact Nat.lt_of_lt_of_le (h.bounded w hw) hslots
  · rcases hcases w hw with rfl | ⟨hw, hne⟩
    · rw [slotValue_setFilling, if_pos rfl, value?_self hargs]
    · rw [slotValue_setFilling, if_neg hne, value?_of_ne hargs hk (h.positive w hw) hne, h.value w hw]
  · rcases hcases w hw with rfl | ⟨hw, hne⟩
    · rw [value?_self hargs]
      rfl
    · rw [value?_of_ne hargs hk (h.positive w hw) hne]
      exact h.assigned w hw hparams
  · rw [hargs, List.length_set] at hi
    rw [slotValue_setFilling, hargs, List.getElem?_set]
    by_cases hik : i + 1 = k
    · rw [if_pos hik, if_pos (by omega), if_pos (by omega)]
    · rw [if_neg hik, if_neg (by omega), h.argument i hi]
  · rw [hargs, List.length_set] at hlen
    rw [slotValue_setFilling, if_neg (hfree i x e hi hx hlen), h.unset i x e hi hx hlen]

/-! ## Assignments -/

theorem Introduces.le {number : Nat} {ds : List (String × Expr)}
    (h : Introduces params decls number ds) : number + ds.length ≤ params + 1 + decls.length := by
  obtain ⟨before, behind, rfl, rfl⟩ := h
  simp only [List.length_append]
  omega

theorem Introduces.getElem? {number : Nat} {d : String × Expr}
    (h : Introduces params decls number [d]) :
    ∃ i, decls[i]? = some d ∧ number = params + 1 + i := by
  obtain ⟨before, behind, rfl, rfl⟩ := h
  exact ⟨before.length, by simp, rfl⟩

section Assign

variable {number : Nat} {scope : Table String Variable} {outer : List (Table String Variable)}

theorem declare_of_mem (ha : a.scopes = scope :: outer) (hx : x ∈ scope.keys) :
    a.declare number x = a := by
  simp [declare, ha, hx]

theorem declare_of_notMem (ha : a.scopes = scope :: outer) (hx : x ∉ scope.keys) :
    a.declare number x = { a with scopes := (scope ++ [(x, ⟨number, none⟩)]) :: outer } := by
  simp [declare, ha, hx]

/-- What a name means once another name is bound, or it itself. -/
theorem lookup_declare (ha : a.scopes = scope :: outer) (hx : x ∉ scope.keys) {y : String}
    (hy : (a.declare number x).lookup y = some var) :
    a.lookup y = some var ∨ y = x ∧ var = ⟨number, none⟩ := by
  rw [declare_of_notMem ha hx] at hy
  simp only [lookup, ha, List.findSome?_cons, Table.get?_append] at hy ⊢
  cases hscope : scope.get? y with
  | some w => exact .inl (by simpa [hscope] using hy)
  | none =>
    by_cases hxy : x = y
    · simp only [hscope, Option.none_or, Table.get?, if_pos hxy] at hy
      exact .inr ⟨hxy.symm, (Option.some.inj hy).symm⟩
    · exact .inl (by simpa [hscope, Table.get?, hxy] using hy)

theorem blocks_eq (h : slots.blocks = a.blocks) (ha : a.scopes = scope :: outer) :
    slots.blocks = (scope.map fun x => (x.1, x.2.number)) ::
      outer.map fun scope => scope.map fun x => (x.1, x.2.number) := by
  rw [h, blocks, ha, List.map_cons]

/-- The slot that a name is given: that of its variable, or a new one. -/
theorem declare_cases {slot : Nat} (h : slots.blocks = a.blocks) (ha : a.scopes = scope :: outer)
    (hslot : slots.declare x = (slot, slots')) :
    (∃ var, scope.get? x = some var ∧ slot = var.number ∧ slots' = slots) ∨
      (x ∉ scope.keys ∧ slot = slots.next ∧
        slots' = ⟨((scope.map fun x => (x.1, x.2.number)) ++ [(x, slots.next)]) ::
          outer.map fun scope => scope.map fun x => (x.1, x.2.number), slots.next + 1⟩) := by
  have hblocks := blocks_eq h ha
  cases hx : scope.get? x with
  | some var =>
    have hget : Table.get? (scope.map fun x => (x.1, x.2.number)) x = some var.number := by
      rw [Table.get?_map, hx]
      rfl
    obtain ⟨rfl, rfl⟩ := Prod.mk.inj ((Slots.declare_of_get? hblocks hget).symm.trans hslot)
    exact .inl ⟨var, rfl, rfl, rfl⟩
  | none =>
    have hkeys := Table.get?_eq_none_iff.1 hx
    have hkeys' : x ∉ Table.keys (scope.map fun x => (x.1, x.2.number)) := by
      simpa [Table.keys] using hkeys
    obtain ⟨rfl, rfl⟩ := Prod.mk.inj ((Slots.declare_of_notMem hblocks hkeys').symm.trans hslot)
    exact .inr ⟨hkeys, rfl, rfl⟩

theorem declarations_assign {e : Expr} (ha : a.scopes = scope :: outer) (hx : x ∉ scope.keys) :
    Stmt.declarations a.bound (.assign x e) = [(x, e)] := by
  simp [Stmt.declarations, bound, ha, hx]

/-- The right-hand side of an assignment finds the values of what it reads. -/
theorem Matches.sees_declare {e : Expr} {slot : Nat} (h : a.Matches s params decls slots locals)
    (hslot : slots.declare x = (slot, slots'))
    (hintro : Introduces params decls slots.next (Stmt.declarations a.bound (.assign x e)))
    (hsize : params + decls.length < 4294967296) {y : String} (hy : y ∈ e.reads s) :
    (a.declare slots.next x).Sees slots' locals y := by
  obtain ⟨scope, outer, ha⟩ := List.exists_cons_of_ne_nil h.nonempty
  have hnext := hintro.le
  rcases declare_cases h.blocks ha hslot with ⟨w, hw, rfl, rfl⟩ | ⟨hx, rfl, rfl⟩
  · -- The name is bound already.
    rw [declare_of_mem ha (Table.mem_keys_of_get? hw)]
    exact h.sees (by omega) y
  · -- The name is new, and its own slot may be read.
    rw [declarations_assign ha hx] at hintro hnext
    simp only [List.length_singleton] at hnext
    refine ⟨resolve_eq_lookup ?_ y, fun var hvar => ?_, fun var hvar => ?_⟩
    · simp [declare_of_notMem ha hx, Activation.blocks]
    · rcases lookup_declare ha hx hvar with hvar | ⟨rfl, rfl⟩
      · have := h.bounded var (mem_allVariables_of_lookup hvar)
        omega
      · show slots.next < 4294967296
        omega
    · have hargs : (a.declare slots.next x).arguments = a.arguments := by
        rw [declare_of_notMem ha hx]
      rw [value?, hargs]
      rcases lookup_declare ha hx hvar with hvar | ⟨rfl, rfl⟩
      · exact h.value var (mem_allVariables_of_lookup hvar)
      · obtain ⟨i, hi, hnumber⟩ := hintro.getElem?
        simp only [hnumber]
        have hsub : params + 1 + i - 1 = params + i := by omega
        rw [hsub, Option.or_none]
        -- The slot is empty, or there is a surplus argument in it.
        by_cases hlen : a.arguments.length ≤ params + i
        · rw [h.unset i y e hi hy hlen, List.getElem?_eq_none hlen]
        · rw [← h.argument (params + i) (by omega)]
          congr 1
          omega

/-- The slot of what is assigned to can be addressed. -/
theorem Matches.slot_lt {e : Expr} {slot : Nat} (h : a.Matches s params decls slots locals)
    (hslot : slots.declare x = (slot, slots'))
    (hintro : Introduces params decls slots.next (Stmt.declarations a.bound (.assign x e)))
    (hsize : params + decls.length < 4294967296) : slot < 4294967296 := by
  obtain ⟨scope, outer, ha⟩ := List.exists_cons_of_ne_nil h.nonempty
  have hnext := hintro.le
  rcases declare_cases h.blocks ha hslot with ⟨w, hw, rfl, -⟩ | ⟨hx, rfl, -⟩
  · have hmem : w ∈ a.allVariables := by
      rw [allVariables, ha]
      exact List.mem_append_left _ (List.mem_map_of_mem (Table.mem_of_get? hw))
    have := h.bounded w hmem
    omega
  · rw [declarations_assign ha hx, List.length_singleton] at hnext
    omega

theorem assign_eq (ha : a.scopes = scope :: outer) (hx : scope.get? x = some var) :
    a.assign x v = ⟨scope.insert x { var with value := some v } :: outer,
      a.arguments.set (var.number - 1) v⟩ := by
  simp [Activation.assign, ha, hx]

theorem allVariables_eq (ha : a.scopes = scope :: outer) :
    a.allVariables = scope.map Prod.snd ++ outer.flatMap fun scope => scope.map Prod.snd := by
  rw [allVariables, ha, List.flatMap_cons]

/-- Assigning to a variable that the scope binds already. -/
theorem Matches.assign_bound (h : a.Matches s params decls slots locals)
    (ha : a.scopes = scope :: outer) (hvar : scope.get? x = some var) (v : Value) :
    (a.assign x v).Matches s params decls slots
      (Program.setFilling none locals var.number (some v)) := by
  obtain ⟨before, behind, hscope, hinsert⟩ :=
    Table.exists_insert_of_get? (b := { var with value := some v }) hvar
  have hvars := allVariables_eq ha
  rw [hscope, List.map_append, List.map_cons, List.append_assoc, List.cons_append] at hvars
  have hmem : var ∈ a.allVariables := by rw [hvars]; simp
  have hdistinct := h.distinct
  rw [hvars, List.map_append, List.map_cons, List.nodup_append] at hdistinct
  have hvars' : (a.assign x v).allVariables = before.map Prod.snd ++ ⟨var.number, some v⟩ ::
      (behind.map Prod.snd ++ outer.flatMap fun scope => scope.map Prod.snd) := by
    rw [assign_eq ha hvar, hinsert]
    simp [allVariables]
  refine h.store ?_ ?_ hvars' (fun w hw => ?_) (fun w hw => ?_) ?_ (h.positive var hmem)
    (h.bounded var hmem) (Nat.le_refl _) (by rw [assign_eq ha hvar])
    (fun i y e hi hy hlen hnumber => ?_)
  · rw [h.blocks, Activation.blocks, ha, hscope, assign_eq ha hvar, hinsert]
    simp [Activation.blocks]
  · simp [assign_eq ha hvar]
  · rw [hvars]
    rcases List.mem_append.1 hw with hw | hw
    · exact List.mem_append_left _ hw
    · exact List.mem_append_right _ (List.mem_cons_of_mem var hw)
  · -- Two variables with one number would be one variable.
    rcases List.mem_append.1 hw with hw | hw
    · exact hdistinct.2.2 w.number (List.mem_map_of_mem hw) var.number List.mem_cons_self
    · exact fun heq => (List.nodup_cons.1 hdistinct.2.1).1 (heq ▸ List.mem_map_of_mem hw)
  · have hnumbers := h.distinct
    rw [hvars] at hnumbers
    rw [hvars']
    simpa using hnumbers
  · -- The variable was assigned to, so its first assignment does not read it.
    have hsome := h.assigned var hmem (by omega)
    rw [← h.value var hmem, ← hnumber, h.unset i y e hi hy hlen] at hsome
    exact absurd hsome (by simp)

/-- Assigning to a variable for the first time. -/
theorem Matches.assign_new {e : Expr} (h : a.Matches s params decls slots locals)
    (ha : a.scopes = scope :: outer) (hx : x ∉ scope.keys)
    (hintro : Introduces params decls slots.next [(x, e)])
    (hread : x ∈ e.reads s → ∃ w, (a.declare slots.next x).read x = .done w) (v : Value)
    (hblocks : slots'.blocks = ((scope.map fun x => (x.1, x.2.number)) ++ [(x, slots.next)]) ::
      outer.map fun scope => scope.map fun x => (x.1, x.2.number))
    (hnext : slots'.next = slots.next + 1) :
    ((a.declare slots.next x).assign x v).Matches s params decls slots'
      (Program.setFilling none locals slots.next (some v)) := by
  have hnew : Table.get? (scope ++ [(x, (⟨slots.next, none⟩ : Variable))]) x =
      some ⟨slots.next, none⟩ := by
    rw [Table.get?_append, Table.get?_eq_none_iff.2 hx]
    simp [Table.get?]
  have hassign : (a.declare slots.next x).assign x v =
      ⟨(scope ++ [(x, ⟨slots.next, some v⟩)]) :: outer, a.arguments.set (slots.next - 1) v⟩ := by
    rw [declare_of_notMem ha hx, assign_eq rfl hnew, Table.insert_append hx]
    simp [Table.insert]
  have hvars := allVariables_eq ha
  have hfresh : ∀ w ∈ a.allVariables, w.number ≠ slots.next := fun w hw =>
    Nat.ne_of_lt (h.bounded w hw)
  have hvars' : ((a.declare slots.next x).assign x v).allVariables =
      scope.map Prod.snd ++ ⟨slots.next, some v⟩ ::
        outer.flatMap fun scope => scope.map Prod.snd := by
    rw [hassign]
    simp [allVariables]
  obtain ⟨i, hi, hnumber⟩ := hintro.getElem?
  refine h.store ?_ (by simp [hassign]) hvars' (fun w hw => hvars ▸ hw)
    (fun w hw => hfresh w (hvars ▸ hw)) ?_ (by omega) (by omega) (by omega) (by rw [hassign])
    (fun j y e' hj hy hlen hj' => ?_)
  · rw [hblocks, hassign]
    simp [Activation.blocks]
  · rw [hvars', List.map_append, List.map_cons, List.perm_middle.nodup_iff, List.nodup_cons,
      ← List.map_append, ← hvars]
    refine ⟨fun hmem => ?_, h.distinct⟩
    obtain ⟨w, hw, hwnumber⟩ := List.mem_map.1 hmem
    exact hfresh w hw hwnumber
  · -- If the right-hand side reads the variable, then it found the value of an argument.
    obtain rfl : j = i := by omega
    rw [hi, Option.some.injEq, Prod.mk.injEq] at hj
    obtain ⟨rfl, rfl⟩ := hj
    obtain ⟨w, hw⟩ := hread hy
    have hlookup : (a.declare slots.next x).lookup x = some ⟨slots.next, none⟩ := by
      simp [lookup, declare_of_notMem ha hx, hnew]
    have hnone : (a.declare slots.next x).value? ⟨slots.next, none⟩ = none := by
      rw [declare_of_notMem ha hx, value?]
      simp only [Option.or_none]
      exact List.getElem?_eq_none (by omega)
    simp [read, hlookup, hnone, Result.ofOption] at hw

/-- An assignment stores its value in the slot of its variable. -/
theorem Matches.assign {e : Expr} {slot : Nat} (h : a.Matches s params decls slots locals)
    (hslot : slots.declare x = (slot, slots'))
    (hintro : Introduces params decls slots.next (Stmt.declarations a.bound (.assign x e)))
    (hread : x ∈ e.reads s → ∃ w, (a.declare slots.next x).read x = .done w) (v : Value) :
    ((a.declare slots.next x).assign x v).Matches s params decls slots'
      (Program.setFilling none locals slot (some v)) := by
  obtain ⟨scope, outer, ha⟩ := List.exists_cons_of_ne_nil h.nonempty
  rcases declare_cases h.blocks ha hslot with ⟨w, hw, rfl, rfl⟩ | ⟨hx, rfl, rfl⟩
  · rw [declare_of_mem ha (Table.mem_keys_of_get? hw)]
    exact h.assign_bound ha hw v
  · rw [declarations_assign ha hx] at hintro
    exact h.assign_new ha hx hintro hread v rfl rfl

end Assign

/-! ## Blocks and functions -/

theorem Matches.enterScope (h : a.Matches s params decls slots locals) :
    a.enterScope.Matches s params decls slots.enterBlock locals where
  blocks := congrArg ([] :: ·) h.blocks
  nonempty := List.cons_ne_nil [] a.scopes
  positive := h.positive
  bounded := h.bounded
  distinct := h.distinct
  value := h.value
  assigned := h.assigned
  argument := h.argument
  unset := h.unset

/-- Leaving a scope forgets variables; the others are as before. -/
theorem Matches.leaveScope {inner block : Table String Nat} {outer : List (Table String Nat)}
    (h : a.Matches s params decls slots locals) (hslots : slots.blocks = inner :: block :: outer) :
    a.leaveScope.Matches s params decls slots.leaveBlock locals := by
  obtain ⟨scope, scopes, ha⟩ := List.exists_cons_of_ne_nil h.nonempty
  have hblocks := blocks_eq h.blocks ha
  rw [hslots] at hblocks
  obtain ⟨-, hblocks⟩ := List.cons.inj hblocks
  have hleave : a.leaveScope = ⟨scopes, a.arguments⟩ := by simp [Activation.leaveScope, ha]
  have hvars : a.leaveScope.allVariables = scopes.flatMap fun scope => scope.map Prod.snd := by
    rw [hleave, allVariables]
  have hsub : a.leaveScope.allVariables.Sublist a.allVariables := by
    rw [hvars, allVariables_eq ha]
    exact List.sublist_append_right _ _
  rw [Slots.leaveBlock_eq hslots]
  refine ⟨by rw [hleave]; exact hblocks, ?_, fun w hw => h.positive w (hsub.subset hw),
    fun w hw => h.bounded w (hsub.subset hw), h.distinct.sublist (hsub.map _),
    fun w hw => h.value w (hsub.subset hw), fun w hw => h.assigned w (hsub.subset hw), h.argument,
    h.unset⟩
  rintro hnil
  rw [hleave] at hnil
  simp [show scopes = [] from hnil] at hblocks

/-- The innermost block binds the names of the innermost scope. -/
theorem Matches.exists_block (h : a.Matches s params decls slots locals) :
    ∃ block outer, slots.blocks = block :: outer ∧ block.keys = a.bound := by
  obtain ⟨scope, outer, ha⟩ := List.exists_cons_of_ne_nil h.nonempty
  refine ⟨_, _, blocks_eq h.blocks ha, ?_⟩
  simp [bound, ha, Table.keys]

/-- What matches does not depend on how many slots were given out otherwise. -/
theorem Matches.withSlots (h : a.Matches s params decls slots locals)
    (hblocks : slots'.blocks = slots.blocks)
    (hbounded : ∀ var ∈ a.allVariables, var.number < slots'.next) :
    a.Matches s params decls slots' locals :=
  { h with blocks := hblocks.trans h.blocks, bounded := hbounded }

theorem Matches.mono (h : a.Matches s params decls slots locals)
    (hblocks : slots'.blocks = slots.blocks) (hnext : slots.next ≤ slots'.next) :
    a.Matches s params decls slots' locals :=
  h.withSlots hblocks fun var hvar => Nat.lt_of_lt_of_le (h.bounded var hvar) hnext

/-- The numbers of the variables are those in the blocks. -/
theorem mem_number_iff {k : Nat} :
    k ∈ a.allVariables.map Variable.number ↔ ∃ block ∈ a.blocks, k ∈ block.map Prod.snd := by
  rw [allVariables, List.map_flatMap, List.mem_flatMap, Activation.blocks]
  constructor
  · rintro ⟨scope, hscope, hk⟩
    exact ⟨_, List.mem_map_of_mem hscope, by simpa using hk⟩
  · rintro ⟨block, hblock, hk⟩
    obtain ⟨scope, hscope, rfl⟩ := List.mem_map.1 hblock
    exact ⟨scope, hscope, by simpa using hk⟩

/-- After a block the slots before it do. -/
theorem Matches.restore {a' : Activation} {locals' : Array (Option Value)}
    (h : a.Matches s params decls slots locals) (h' : a'.Matches s params decls slots' locals')
    (hblocks : slots.blocks = slots'.blocks) : a'.Matches s params decls slots locals' := by
  refine h'.withSlots hblocks fun var hvar => ?_
  -- The blocks are those from before, and so are the numbers in them.
  have hmem := mem_number_iff.1 (List.mem_map_of_mem (f := Variable.number) hvar)
  rw [← h'.blocks, ← hblocks, h.blocks] at hmem
  obtain ⟨w, hw, hnumber⟩ := List.mem_map.1 (mem_number_iff.2 hmem)
  exact hnumber ▸ h.bounded w hw

/-- Different names get consecutive slots. -/
theorem foldl_declare {block : Table String Nat} (n : Nat) (names : List String)
    (h : (block.keys ++ names).Nodup) :
    names.foldl (fun (s : Slots) x => (s.declare x).2) ⟨[block], n⟩ =
      ⟨[block ++ names.mapIdx fun i x => (x, n + i)], n + names.length⟩ := by
  induction names generalizing block n with
  | nil => simp
  | cons x names ih =>
    have hx : x ∉ block.keys := fun hmem =>
      (List.nodup_append.1 h).2.2 x hmem x List.mem_cons_self rfl
    have hdeclare : (⟨[block], n⟩ : Slots).declare x = (n, ⟨[block ++ [(x, n)]], n + 1⟩) :=
      Slots.declare_of_notMem rfl hx
    rw [List.foldl_cons, hdeclare, ih]
    · simp [List.mapIdx_cons, Nat.add_comm, Nat.add_left_comm]
    · simpa [Table.keys] using h

theorem ofParams_eq {names : List String} (h : names.Nodup) :
    Slots.ofParams names = ⟨[names.mapIdx fun i x => (x, i + 1)], names.length + 1⟩ := by
  rw [Slots.ofParams, Slots.new, foldl_declare _ _ (by simpa [Table.keys] using h)]
  simp [Draft.reservedSlots, Nat.add_comm]

/-- The parameters have the numbers of their places. -/
theorem allVariables_enter (names : List String) (args : List Value) :
    (enter names args).allVariables = (List.range names.length).map fun i => ⟨i + 1, none⟩ := by
  refine List.ext_getElem? fun i => ?_
  by_cases hi : i < names.length
  · simp [allVariables, enter, hi]
  · simp [allVariables, enter, Nat.not_lt.1 hi]

theorem bound_enter (names : List String) (args : List Value) :
    (enter names args).bound = names := by
  refine List.ext_getElem? fun i => ?_
  simp only [bound, enter, Table.keys, List.getElem?_map, List.getElem?_mapIdx]
  cases names[i]? <;> rfl

/-- A function starts with the arguments in the first slots, and nothing else. -/
theorem matches_enter {names : List String} (h : names.Nodup) (id count : Nat) (args : List Value) :
    (enter names args).Matches s names.length decls (.ofParams names)
      (Frame.enter id count args).locals := by
  have hmem : ∀ var ∈ (enter names args).allVariables, ∃ i < names.length, var = ⟨i + 1, none⟩ := by
    intro var hvar
    rw [allVariables_enter] at hvar
    obtain ⟨i, hi, rfl⟩ := List.mem_map.1 hvar
    exact ⟨i, List.mem_range.1 hi, rfl⟩
  refine ⟨?_, List.cons_ne_nil _ _, fun var hvar => ?_, fun var hvar => ?_, ?_, fun var hvar => ?_,
    fun var hvar hparams => ?_, fun i hi => slotValue_enter id count args i,
    fun i x e _ _ hlen => ?_⟩
  · have hblock : (names.mapIdx fun i x => (x, i + 1)) =
        (names.mapIdx fun i x => (x, (⟨i + 1, none⟩ : Variable))).map fun x => (x.1, x.2.number) := by
      refine List.ext_getElem? fun i => ?_
      simp only [List.getElem?_map, List.getElem?_mapIdx, Option.map_map]
      rfl
    rw [ofParams_eq h, Activation.blocks, enter, List.map_singleton, ← hblock]
  · obtain ⟨i, -, rfl⟩ := hmem var hvar
    exact Nat.succ_pos i
  · obtain ⟨i, hi, rfl⟩ := hmem var hvar
    rw [ofParams_eq h]
    exact Nat.succ_lt_succ hi
  · rw [allVariables_enter, List.map_map]
    exact List.Pairwise.map _ (fun i j hij heq => hij (Nat.succ.inj heq)) List.nodup_range
  · obtain ⟨i, hi, rfl⟩ := hmem var hvar
    rw [slotValue_enter, value?]
    simp [enter]
  · obtain ⟨i, hi, rfl⟩ := hmem var hvar
    exact absurd hparams (Nat.not_lt.2 hi)
  · have hslot : names.length + 1 + i = names.length + i + 1 := by omega
    rw [hslot, slotValue_enter]
    exact List.getElem?_eq_none hlen

end Activation

end ScriptMachine
