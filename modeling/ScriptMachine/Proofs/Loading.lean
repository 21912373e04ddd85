import ScriptMachine.Proofs.Assembly
import ScriptMachine.Proofs.Rereading
import ScriptMachine.Proofs.Scopes

/-!
# Loading what was compiled

The stored program of a source text is read back as the program of this text: its names stand
for its functions, in ascending order, and all its functions have bodies, so of the checks that
are made in reading only one can fail. Code is generated for any number of local variables, but
no function with more than `maxLocals` slots is read.

* `ofBytes_bytesOfSource`: what was compiled and stored is read as what was compiled exactly if
  no function addresses too many slots, and is refused for such a function otherwise.
* `ofBytes_crowded`: there is a source text for which it is refused.
-/

namespace ScriptMachine

namespace Program

/-- A source text has a stored program exactly if it has a program that can be stored. -/
theorem bytesOfSource_eq_ok {source : String} {b : Bytes} :
    bytesOfSource source = .ok b ↔ ∃ p, ofSource source = .ok p ∧ p.toBytes = .ok b := by
  rw [bytesOfSource]
  cases hp : ofSource source with
  | error e => simp [Bind.bind, Except.bind]
  | ok p =>
    cases hb : p.toBytes with
    | error e => simp [Bind.bind, Except.bind, throw, throwThe, MonadExceptOf.throw, hb]
    | ok b' => simp [Bind.bind, Except.bind, Pure.pure, Except.pure, hb]

theorem ofSource_eq_ok {source : String} {p : Program} :
    ofSource source = .ok p ↔ ∃ s, Script.ofSource source = .ok s ∧ s.compile = .ok p := by
  rw [ofSource]
  cases hs : Script.ofSource source with
  | error e => simp [Bind.bind, Except.bind]
  | ok s => simp [Bind.bind, Except.bind]

/-- **What is compiled can be loaded**, unless it has too many local variables. The stored
    program of a source text is read as the program of the text exactly if no function addresses
    more than `maxLocals` slots; otherwise it is refused because of a function that does. -/
theorem ofBytes_bytesOfSource {source : String} {b : Bytes} (hb : bytesOfSource source = .ok b) :
    ∃ p, ofSource source = .ok p ∧ (p.Storable →
      (ofBytes b = .ok p ↔ ∀ e ∈ p.functions, e.slots ≤ maxLocals) ∧
      ∀ error, ofBytes b = .error error →
        ∃ id e, p.functions[id]? = some e ∧ maxLocals < e.slots ∧
          error = .tooManyLocals id (e.slots - 1) maxLocals) := by
  obtain ⟨p, hp, hb⟩ := bytesOfSource_eq_ok.1 hb
  obtain ⟨s, -, hcompile⟩ := ofSource_eq_ok.1 hp
  obtain ⟨-, hkeys, hids⟩ := Script.names_of_compileWith hcompile
  have hlt := Script.lt_size_of_compileWith hcompile
  refine ⟨p, hp, fun hstorable => ?_⟩
  rw [ofBytes_eq_checked hstorable hb]
  have hsorted : { p with names := p.namesById } = p := by
    rw [namesById_of_ascending (.refl p.names) hids]
  rcases checked_eq hkeys with ⟨hload, hok⟩ | ⟨n, hn, hid, -⟩ | ⟨id, e, he, hslots, herr⟩
  · rw [hok, hsorted]
    exact ⟨⟨fun _ => hload.slots, fun _ => rfl⟩, nofun⟩
  · exact absurd (hlt n hn) (Nat.not_lt.2 hid)
  · rw [herr]
    refine ⟨⟨nofun, fun hall => ?_⟩, fun error herror => ?_⟩
    · exact absurd (hall e (Array.mem_of_getElem? he)) (Nat.not_le.2 hslots)
    · exact ⟨id, e, he, hslots, (Except.error.inj herror).symm⟩

end Program

/-- A registered function for whose body there is code. -/
theorem Draft.function_of_yields {d : Draft} {f : Function} {id : Nat} {code : List Instruction}
    {s' : GenState} (hcurrent : d.current = none) (hid : d.functionId? f.name = some id)
    (hcode : (genStmts f.body).Yields ⟨f.name, d.functions⟩ 0 ⟨d.strings, .ofParams f.params⟩ code
      s' ()) :
    d.function f = ({ d with
      strings := s'.strings, bodies := d.bodies.insert id (completed code), current := none },
      .ok ()) := by
  rw [Gen.Yields, Slots.ofParams] at hcode
  simp [function, openFunction, hcurrent, hid, generate, hcode, closeFunction]

/-! ## A function with many parameters -/

namespace Program

/-- The name of a parameter. -/
def paramName (i : Nat) : String := String.ofList ('p' :: Nat.toDigits 10 i)

theorem paramName_injective {i j : Nat} (h : paramName i = paramName j) : i = j := by
  have hdigits : Nat.toDigits 10 i = Nat.toDigits 10 j := by
    simpa [paramName] using congrArg String.toList h
  rw [← digitsValue_toDigits i, hdigits, digitsValue_toDigits]

theorem nodup_paramNames (n : Nat) : ((List.range n).map paramName).Nodup :=
  List.Pairwise.map _ (fun _ _ hij heq => hij (paramName_injective heq)) List.nodup_range

theorem isName_paramName (i : Nat) : isName (paramName i) = true := by
  have hparts : (Nat.toDigits 10 i).all isNamePart = true := by
    refine List.all_eq_true.2 fun c hc => ?_
    rw [isNamePart, isDigit_of_mem_toDigits hc, Bool.or_true]
  have hlist : (paramName i).toList = 'p' :: Nat.toDigits 10 i := String.toList_ofList
  -- No keyword starts with this letter.
  have hkeywords : Keyword.all.all (fun k => k.spelling != paramName i) = true := by
    refine List.all_eq_true.2 fun k _ => bne_iff_ne.2 fun heq => ?_
    have hhead : k.spelling.toList.head? = some 'p' := by rw [heq, hlist]; rfl
    cases k <;> exact absurd hhead (by decide)
  rw [isName, hlist]
  change (isNameStart 'p' && _ && _) = true
  rw [hparts, hkeywords]
  rfl

/-- A function that returns a variable. -/
def returning (params : List String) (x : String) (span : Span) : Function :=
  { name := "f", params, body := [.give (some (.ident x))], span }

/-- A function that returns the last of its `n` parameters. -/
def crowded (n : Nat) : Script :=
  ⟨[returning ((List.range n).map paramName) (paramName (n - 1)) ⟨0, 0⟩]⟩

/-- The program of a function that returns the variable in the given slot. -/
def returnsSlot (slot : Nat) : Program where
  strings := #[]
  functions := #[.compiled (.ofCode #[.ofNat .getLocal slot, .bare .ret])]
  names := [("f", 0)]

theorem compile_returning {params : List String} {x : String} {slot : Nat} (span : Span)
    (h : (Slots.ofParams params).resolve x = some slot) :
    Script.compile ⟨[returning params x span]⟩ = .ok (returnsSlot slot) := by
  have hcode (ctx : GenContext) (strings : Interner) :
      (genStmts [.give (some (.ident x))]).Yields ctx 0 ⟨strings, .ofParams params⟩
        [.ofNat .getLocal slot, .bare .ret] ⟨strings, .ofParams params⟩ () := by
    simp [genStmts, genStmt, genExpr, Gen.yields_bind, h]
  have hid : (#["f"] : Array String).idxOf? "f" = some 0 := by simp
  have hregister : Draft.empty.registerAll [] [returning params x span] =
      ({ Draft.empty with functions := ⟨#["f"]⟩ }, .ok ()) := by
    simp [Draft.registerAll, Table.get?, Draft.register, Interner.intern, Interner.id?, Draft.empty,
      Interner.empty, returning]
  have hfunction := @Draft.function_of_yields { Draft.empty with functions := ⟨#["f"]⟩ }
    (returning params x span) 0 _ _ rfl hid (hcode _ _)
  rw [Script.compile, Script.compileWith, Draft.script, hregister]
  dsimp only [Draft.functionBodies]
  rw [hfunction]
  rfl

/-- The parameters have the slots from one on. -/
theorem resolve_paramName {n i : Nat} (hi : i < n) :
    (Slots.ofParams ((List.range n).map paramName)).resolve (paramName i) = some (i + 1) := by
  have hget : Table.get? (((List.range n).map paramName).mapIdx fun i x => (x, i + 1)) (paramName i) =
      some (i + 1) := by
    refine Table.get?_of_mem ?_ (List.mem_mapIdx.2 ⟨i, by simpa using hi, by simp⟩)
    rw [Table.keys_mapIdx _ (· + 1)]
    exact nodup_paramNames n
  rw [Activation.ofParams_eq (nodup_paramNames n), Slots.resolve, List.findSome?_cons, hget]

theorem ofSource_crowded {n : Nat} (hn : 0 < n) (extra : Expr → Bool) :
    ofSource ((crowded n).render extra) = .ok (returnsSlot n) := by
  have hwritable : (crowded n).isWritable = true := by
    have hparams : ((List.range n).map paramName).all isName = true := by
      refine List.all_eq_true.2 fun x hx => ?_
      obtain ⟨i, -, rfl⟩ := List.mem_map.1 hx
      exact isName_paramName i
    have hf : isName "f" = true := by decide
    simp [crowded, Script.isWritable, Function.isWritable, returning, Stmt.allWritable,
      Stmt.isWritable, Expr.isWritable, hf, hparams, nodup_paramNames, isName_paramName]
  obtain ⟨read, hread, heq⟩ := @Script.exists_ofSource_render extra _ hwritable
  -- What is read differs at most in the place of the function.
  obtain ⟨span, rfl⟩ : ∃ span,
      read = ⟨[returning ((List.range n).map paramName) (paramName (n - 1)) span]⟩ := by
    obtain ⟨functions⟩ := read
    obtain ⟨f, rfl, hf⟩ := List.map_eq_singleton_iff.1 (Script.mk.inj heq)
    obtain ⟨name, params, body, span⟩ := f
    obtain ⟨rfl, rfl, rfl, -⟩ := Function.mk.inj hf
    exact ⟨span, rfl⟩
  have hresolve := resolve_paramName (Nat.sub_lt hn Nat.one_pos)
  rw [Nat.sub_add_cancel hn] at hresolve
  exact ofSource_eq_ok.2 ⟨_, hread, compile_returning span hresolve⟩

theorem returnsSlot_storable (slot : Nat) : (returnsSlot slot).Storable where
  strings := (by decide : 0 < lengthLimit)
  texts := nofun
  functions := (by decide : 1 < lengthLimit)
  names := by
    have hnames : ∀ n ∈ [("f", 0)], (textBytes n.1).length < lengthLimit ∧ n.2 < lengthLimit := by
      decide +kernel
    exact hnames
  entries := by
    intro e he
    obtain rfl : e = .compiled (.ofCode #[.ofNat .getLocal slot, .bare .ret]) := by
      simpa [returnsSlot] using he
    exact (by decide : 2 < lengthLimit)

theorem exists_bytesOfSource_crowded {n : Nat} (hn : 0 < n) (extra : Expr → Bool) :
    ∃ b, bytesOfSource ((crowded n).render extra) = .ok b ∧ (returnsSlot n).toBytes = .ok b := by
  obtain ⟨b, hb⟩ := @exists_toBytes (returnsSlot n) rfl (by simp [returnsSlot])
  exact ⟨b, bytesOfSource_eq_ok.2 ⟨_, ofSource_crowded hn extra, hb⟩, hb⟩

theorem ofBytes_bytesOfSource_single :
    ∃ b, bytesOfSource ((crowded 1).render fun _ => false) = .ok b ∧
      ofBytes b = .ok (returnsSlot 1) := by
  obtain ⟨b, hb, -⟩ := exists_bytesOfSource_crowded Nat.one_pos fun _ => false
  obtain ⟨p, hp, hload⟩ := ofBytes_bytesOfSource hb
  obtain rfl : returnsSlot 1 = p := by
    simpa [ofSource_crowded Nat.one_pos fun _ => false] using hp
  exact ⟨b, hb, (hload (returnsSlot_storable 1)).1.2 (by decide)⟩

/-- The source text of a function with as many parameters as a function may have slots. Slot
    zero holds none of them, so this is one too many. -/
def crowdedSource : String := (crowded maxLocals).render fun _ => false

theorem ofBytes_crowded :
    ∃ b, bytesOfSource crowdedSource = .ok b ∧
      ofSource crowdedSource = .ok (returnsSlot maxLocals) ∧ (returnsSlot maxLocals).Storable ∧
      ofBytes b = .error (.tooManyLocals 0 maxLocals maxLocals) := by
  have hpos : 0 < maxLocals := by decide
  obtain ⟨b, hsource, hb⟩ := exists_bytesOfSource_crowded hpos fun _ => false
  refine ⟨b, hsource, ofSource_crowded hpos _, returnsSlot_storable maxLocals, ?_⟩
  rw [ofBytes_eq_checked (returnsSlot_storable maxLocals) hb]
  rcases @checked_eq (returnsSlot maxLocals) (by decide) with
    ⟨hload, -⟩ | ⟨n, hn, hid, -⟩ | ⟨id, e, he, -, herr⟩
  · exact absurd (hload.slots _ (Array.mem_of_getElem? (i := 0) rfl)) (by decide)
  · obtain rfl := List.mem_singleton.1 hn
    exact absurd hid (by decide)
  · cases id with
    | zero =>
      obtain rfl := Option.some.inj he
      exact herr
    | succ id => simp [returnsSlot] at he

end Program

end ScriptMachine
