import ScriptMachine.Proofs.Blocks

/-!
# Where the jumps of generated code lead

Jumps get their targets when the piece of code is known over which they lead, and the ends of
several such pieces may be the same place, up to the end of a function, where a return is
supplied if control can come there. Whatever the tree, control stays inside the code of its
function, and goes back only where a loop does:

* `Steered`: what holds of the jumps in the code of a statement. They lead forward, to the end of
  the code at the latest, unless one ends a loop that the tree has there.
* `stmtsCode_steered`: this is so along all code that is generated.
* `Script.compile_steered`: what follows for the functions of a script that is compiled, with the
  return at their ends.
-/

namespace ScriptMachine

/-! ## Jumps in the code of statements -/

/-- How an instruction at `ip` may jump, in code that ends at `stop`. On a condition it jumps only
    if the condition does not hold, and then forward. Without one it jumps forward, too, unless
    it ends one of the listed loops, and then it leads to where that loop starts. -/
structure Steered (ls : List Spot) (stop ip : Nat) (i : Instruction) : Prop where
  opcode_ne : i.opcode ≠ .jumpIf
  skip : i.opcode = .jumpUnless → ip < i.index
  le_stop : i.opcode.isJump = true → i.index ≤ stop
  back : i.opcode = .jump → i.index ≤ ip → ∃ l ∈ ls, ∃ c body, l.part = .loop c body ∧
    l.start = i.index ∧ ip = l.start + c.size + 1 + Stmt.allSize body

section Steered

variable {ids : String → Option Nat} {texts : Array String} {ls ls' : List Spot}
  {stop stop' ip : Nat} {i : Instruction}

theorem Steered.mono (hsub : ls ⊆ ls') (hle : stop ≤ stop') (ip : Nat) (i : Instruction)
    (h : Steered ls stop ip i) : Steered ls' stop' ip i := by
  refine ⟨h.opcode_ne, h.skip, fun hjump => Nat.le_trans (h.le_stop hjump) hle, fun hop hle => ?_⟩
  obtain ⟨l, hl, hloop⟩ := h.back hop hle
  exact ⟨l, hsub hl, hloop⟩

/-- Most instructions do not jump. -/
theorem steered_of_isJump (h : i.opcode.isJump = false) : Steered ls stop ip i := by
  refine ⟨fun hop => ?_, fun hop => ?_, fun hjump => ?_, fun hop => ?_⟩
  all_goals simp_all [Opcode.isJump]

theorem ExprCode.steered {slots : Slots} {e : Expr} {code : List Instruction}
    (h : ExprCode ids texts slots e code) (start : Nat) : Along (Steered ls stop) start code :=
  along_of_mem fun _ hi _ => steered_of_isJump (h.plain hi).isJump

/-- A jump over what a condition guards. -/
theorem steered_jumpUnless {target : Nat} (htarget : target < 4294967296) (hlt : ip < target)
    (hle : target ≤ stop) : Steered ls stop ip (.ofNat .jumpUnless target) := by
  have hindex := Instruction.index_ofNat .jumpUnless htarget
  exact ⟨nofun, fun _ => hindex.symm ▸ hlt, fun _ => hindex.symm ▸ hle, nofun⟩

/-- A jump from the end of a branch over the others. -/
theorem steered_jump {target : Nat} (htarget : target < 4294967296) (hlt : ip < target)
    (hle : target ≤ stop) : Steered ls stop ip (.ofNat .jump target) := by
  have hindex := Instruction.index_ofNat .jump htarget
  refine ⟨nofun, nofun, fun _ => hindex.symm ▸ hle, fun _ hback => ?_⟩
  rw [hindex] at hback
  omega

mutual

/-- The jumps of a statement stay inside it, and go back at the ends of its loops only. -/
theorem stmtCode_steered : {slots slots' : Slots} → {start : Nat} → {stmt : Stmt} →
    {code : List Instruction} → StmtCode ids texts slots start stmt code slots' →
    start + code.length < 4294967296 →
    Along (Steered (stmt.spots ids slots start) (start + code.length)) start code
  | _, _, _, .assign x e, _, .assign _ he, _ =>
    along_append.2 ⟨he.steered _, along_cons.2 ⟨steered_of_isJump rfl, along_nil⟩⟩
  | slots, _, start, .loop c body, _, @StmtCode.loop _ _ _ _ _ _ _ test code hc hbody, hsize => by
    rw [stop_of_guarded, List.length_nil, Nat.add_zero] at hsize ⊢
    have hinner := stmtsCode_steered hbody (by omega)
    rw [hc.length_eq] at hinner
    refine along_append.2 ⟨hc.steered _, along_cons.2 ⟨?_, along_append.2 ⟨?_, ?_⟩⟩⟩
    · exact steered_jumpUnless hsize (by omega) (Nat.le_refl _)
    · rw [hc.length_eq]
      refine hinner.mono (Steered.mono (fun l hl => ?_) (by omega))
      rw [Stmt.spots]
      exact List.mem_cons_of_mem _ (List.mem_append_right _ (List.mem_cons_of_mem _ hl))
    · -- The jump back, to the condition of this very loop.
      have hindex := @Instruction.index_ofNat .jump start (by omega)
      refine along_cons.2 ⟨⟨nofun, nofun, fun _ => by omega, fun _ _ => ?_⟩, along_nil⟩
      refine ⟨⟨start, slots, .loop c body⟩, ?_, c, body, rfl, hindex.symm, ?_⟩
      · rw [Stmt.spots]
        exact List.mem_cons_self
      · rw [hc.length_eq, hbody.size_after.1]
  | _, _, _, .choose branches, _, .choose h, hsize => by
    rw [Stmt.spots]
    exact branchesCode_steered h hsize
  | _, _, _, .call _ _ _, _, .call hargs htail, _ => (ExprCode.call hargs htail).steered _
  | _, _, _, .give none, _, .giveUnit, _ =>
    along_cons.2 ⟨steered_of_isJump rfl, along_cons.2 ⟨steered_of_isJump rfl, along_nil⟩⟩
  | _, _, _, .give (some _), _, .give he, _ =>
    along_append.2 ⟨he.steered _, along_cons.2 ⟨steered_of_isJump rfl, along_nil⟩⟩

theorem stmtsCode_steered : {slots slots' : Slots} → {start : Nat} → {stmts : List Stmt} →
    {code : List Instruction} → StmtsCode ids texts slots start stmts code slots' →
    start + code.length < 4294967296 →
    Along (Steered (Stmt.allSpots ids slots start stmts) (start + code.length)) start code
  | _, _, _, [], _, .nil, _ => along_nil
  | _, _, start, stmt :: stmts, _, .cons h hs, hsize => by
    rw [List.length_append, ← Nat.add_assoc] at hsize ⊢
    have hstmt := stmtCode_steered h (by omega)
    have hstmts := stmtsCode_steered hs hsize
    obtain ⟨hlength, rfl⟩ := h.size_after
    rw [Stmt.allSpots]
    refine along_append.2 ⟨hstmt.mono (Steered.mono (List.subset_append_left _ _) (by omega)), ?_⟩
    rw [hlength] at hstmts ⊢
    exact hstmts.mono (Steered.mono (List.subset_append_right _ _) (Nat.le_refl _))

theorem branchesCode_steered : {slots slots' : Slots} → {start : Nat} →
    {branches : List Branch} → {code : List Instruction} →
    BranchesCode ids texts slots start branches code slots' →
    start + code.length < 4294967296 →
    Along (Steered (Stmt.branchesSpots ids slots start branches) (start + code.length)) start code
  | _, _, _, [.mk _ body], _, .last h, hsize => by
    rw [Stmt.branchesSpots]
    have hbody := stmtsCode_steered h hsize
    exact hbody.mono (Steered.mono (List.subset_cons_self _ _) (Nat.le_refl _))
  | _, _, start, .mk (.when c) body :: branch :: rest, _,
      @BranchesCode.cons _ _ _ _ _ _ _ _ _ _ test code codes hc hbody hrest, hsize => by
    rw [stop_of_guarded] at hsize ⊢
    have hbody' := stmtsCode_steered hbody (by omega)
    have hrest' := branchesCode_steered hrest hsize
    obtain ⟨hlength, rfl⟩ := hbody.size_after
    refine along_append.2 ⟨hc.steered _, along_cons.2 ⟨?_, along_append.2 ⟨?_,
      along_cons.2 ⟨?_, ?_⟩⟩⟩⟩
    · exact steered_jumpUnless (by omega) (by omega) (by omega)
    · refine hbody'.mono (Steered.mono (fun l hl => ?_) (by omega))
      rw [hc.length_eq] at hl
      rw [Stmt.branchesSpots]
      · exact List.mem_append_right _ (List.mem_cons_of_mem _ (List.mem_append_left _ hl))
      · simp
    · exact steered_jump hsize (by omega) (Nat.le_refl _)
    · refine hrest'.mono (Steered.mono (fun l hl => ?_) (Nat.le_refl _))
      rw [hc.length_eq, hlength] at hl
      rw [Stmt.branchesSpots]
      · exact List.mem_append_right _ (List.mem_cons_of_mem _ (List.mem_append_right _ hl))
      · simp

end

end Steered

/-! ## Functions -/

/-- The return that is supplied does not jump. -/
theorem steered_completed {ls : List Spot} {stop : Nat} {code : List Instruction}
    (h : Along (Steered ls stop) 0 code) : Along (Steered ls stop) 0 (Draft.completed code) := by
  unfold Draft.completed
  split
  · exact h
  · refine along_append.2 ⟨h, along_cons.2 ⟨steered_of_isJump rfl, ?_⟩⟩
    exact along_cons.2 ⟨steered_of_isJump rfl, along_nil⟩

namespace Draft

variable {code : List Instruction}

/-- Completed code ends with a return. -/
theorem getLast?_completed : ∃ i, (completed code).getLast? = some i ∧ i.opcode = .ret := by
  unfold completed
  split
  · next hends =>
    obtain ⟨hlast, -⟩ := Bool.and_eq_true_iff.1 hends
    obtain ⟨i, hi, hret⟩ := (Option.any_eq_true _ _).1 hlast
    exact ⟨i, hi, beq_iff_eq.1 hret⟩
  · exact ⟨.bare .ret, by simp, rfl⟩

end Draft

namespace Script

variable {s : Script} {p : Program} {id : Nat} {f : Function}

/-- The instruction at `ip` is the last one of a loop of the function, and `target` is where the
    loop starts: its condition stands there, behind which control leaves the loop for the place
    right behind `ip` unless the condition holds, and the body of the loop stands in between. -/
def EndsLoop (s : Script) (p : Program) (id : Nat) (f : Function) (ip target : Nat) : Prop :=
  ∃ l ∈ f.spots s, ∃ c body, l.part = .loop c body ∧ l.start = target ∧
    ∃ test code slots', ExprCode s.functionId? p.strings l.slots c test ∧
      StmtsCode s.functionId? p.strings l.slots.enterBlock (target + test.length + 1) body code
        slots' ∧
      p.HasCode id target test ∧ p.HasCode id (target + test.length + 1) code ∧
      ip = target + test.length + 1 + code.length ∧
      ∃ i, p.instruction? id (target + test.length) = some i ∧ i.opcode = .jumpUnless ∧
        i.index = ip + 1

theorem endsLoop_of_stands {l : Spot} {c : Expr} {body : List Stmt} {ip : Nat} (hl : l ∈ f.spots s)
    (hstands : l.Stands p id s.functionId?) (hpart : l.part = .loop c body)
    (hip : ip = l.start + c.size + 1 + Stmt.allSize body) (hlt : ip + 1 < 4294967296) :
    s.EndsLoop p id f ip l.start := by
  rw [Spot.Stands, hpart] at hstands
  obtain ⟨_, _, hcode, hhas⟩ := hstands
  cases hcode with
  | @loop _ _ _ _ _ test code hc hbody =>
    have hback : ip = l.start + test.length + 1 + code.length := by
      rw [hip, hc.length_eq, hbody.size_after.1]
    refine ⟨l, hl, c, body, hpart, rfl, test, code, _, hc, hbody, hhas.left,
      hhas.right.tail.left, hback, _, hhas.right.head, rfl, ?_⟩
    rw [← hback, Instruction.index_ofNat _ hlt]

/-- **The control flow of generated code is closed.** Let a script be compiled, and a body of the
    program have less instructions than jumps can address. It is the body of a function of the
    script, it is not empty and returns at its end, no instruction of it jumps if a condition
    holds, those that jump if it does not jump forward, and all that jump stay inside. Those
    that jump in any case, and not forward, are the ends of loops of the function. -/
theorem compile_steered {body : Body} (h : s.compile = .ok p)
    (hbody : p.functions[id]? = some (.compiled body)) (hsize : body.code.size < 4294967296) :
    ∃ f, s.functions[id]? = some f ∧ (∃ i, body.code.back? = some i ∧ i.opcode = .ret) ∧
      ∀ ip i, body.code[ip]? = some i →
        i.opcode ≠ .jumpIf ∧
        (i.opcode = .jumpUnless → ip < i.index ∧ i.index < body.code.size) ∧
        (i.opcode = .jump → i.index < body.code.size ∧
          (i.index ≤ ip → s.EndsLoop p id f ip i.index)) := by
  have hs := compiled_of_compile h
  obtain ⟨hlt, -⟩ := Array.getElem?_eq_some_iff.1 hbody
  have hf := List.getElem?_eq_getElem (hs.size ▸ hlt)
  obtain ⟨code, slots, hcode, hcompleted, hhas, -⟩ := hs.exists_code hf
  obtain rfl : Body.ofCode (Draft.completed code).toArray = body := by
    simpa [hbody] using hcompleted.symm
  have hle : code.length ≤ (Draft.completed code).length := Draft.length_le_completed
  have hsize' : (Draft.completed code).length < 4294967296 := hsize
  have hsteered := stmtsCode_steered hcode (by omega)
  rw [Nat.zero_add] at hsteered
  have hinside : ∀ {ip : Nat} {i : Instruction}, (Draft.completed code)[ip]? = some i →
      i.opcode.isJump = true → i.index < (Draft.completed code).length := by
    intro ip i hi hjump
    refine reaches_lt_completed (fun j hj hjump => ?_) hi (.inr ⟨hjump, rfl⟩)
    obtain ⟨k, hk⟩ := List.getElem?_of_mem hj
    exact (hsteered k j hk).le_stop hjump
  refine ⟨_, hf, ?_, fun ip i hi => ?_⟩
  · rw [Body.ofCode, List.back?_toArray]
    exact Draft.getLast?_completed
  · rw [Body.ofCode, List.getElem?_toArray] at hi
    have hi' := steered_completed hsteered ip i hi
    rw [Nat.zero_add] at hi'
    refine ⟨hi'.opcode_ne, fun hop => ⟨hi'.skip hop, hinside hi (hop ▸ rfl)⟩,
      fun hop => ⟨hinside hi (hop ▸ rfl), fun hback => ?_⟩⟩
    obtain ⟨l, hl, c, body, hpart, hstart, hip⟩ := hi'.back hop hback
    have hlt := (List.getElem?_eq_some_iff.1 hi).1
    rw [← hstart]
    exact endsLoop_of_stands hl (stmtsCode_stands hcode hhas l hl) hpart hip (by omega)

/-- A function that searches, with a loop around a branch that returns early. -/
def searches : Script where
  functions := [
    { name := "find", params := ["a"],
      body := [
        .loop (.ident "a") [
          .choose [.mk (.when (.ident "a")) [.give (some (.ident "a"))], .mk .otherwise []],
          .assign "b" (.ident "a")]] }]

/-- What that script is compiled to. -/
def searchesProgram : Program where
  strings := #[]
  functions := #[
    .compiled (.ofCode #[.ofNat .getLocal 1, .ofNat .jumpUnless 10, .ofNat .getLocal 1,
      .ofNat .jumpUnless 7, .ofNat .getLocal 1, .bare .ret, .ofNat .jump 7, .ofNat .getLocal 1,
      .ofNat .setLocal 2, .ofNat .jump 0, .bare .pushUnit, .bare .ret])]
  names := [("find", 0)]

theorem searches_compile : searches.compile = .ok searchesProgram := by
  have h : searches.compile.toOption = some searchesProgram := by decide +kernel
  cases hcompile : searches.compile with
  | error e => simp [hcompile, Except.toOption] at h
  | ok p => simpa [hcompile, Except.toOption] using h

theorem compile_steered_searches :
    searches.compile = .ok searchesProgram ∧ ∃ f body,
      searchesProgram.functions[0]? = some (.compiled body) ∧ body.code.size = 12 ∧
      searches.functions[0]? = some f ∧ searches.EndsLoop searchesProgram 0 f 9 0 := by
  obtain ⟨f, hf, -, hall⟩ := @compile_steered _ _ 0 _ searches_compile rfl (by decide)
  exact ⟨searches_compile, f, _, rfl, rfl, hf,
    ((hall 9 (.ofNat .jump 0) rfl).2.2 rfl).2 (by decide)⟩

end Script

end ScriptMachine
