import ScriptMachine.Program.Listing
import ScriptMachine.Proofs.Canonical
import ScriptMachine.Proofs.Layout

/-!
# How programs are put together

The strings, the functions and the bodies of a draft are kept in tables without an order of
their own. A program is put together by going through these tables: every string and every
function is set at its number, wherever the table of the program ends at that time, and the
names are put into a table that has no order either (`Draft.Order.assemble`). What a script is
compiled to does not depend on any of these orders:

* `Order.assemble_eq`: whatever the order, each place of the tables of the program holds
  what belongs there; only the names are listed as they came.
* `Draft.script_ok`: all functions of a script that can be compiled have different names, and
  a body each.
* `Script.compile_reproducible`: all programs that a script can be compiled to are the same,
  are stored, and have the same stored form and the same listing.
-/

namespace ScriptMachine

/-! ## Filling arrays out of order -/

namespace Program

variable {α β : Type} {filler : α}

theorem size_setFilling (xs : Array α) (i : Nat) (a : α) :
    (setFilling filler xs i a).size = max xs.size (i + 1) := by
  simp only [setFilling, Array.size_setIfInBounds, Array.size_append, Array.size_replicate]
  omega

theorem getElem?_setFilling_self (xs : Array α) (i : Nat) (a : α) :
    (setFilling filler xs i a)[i]? = some a := by
  rw [setFilling, Array.getElem?_setIfInBounds_self_of_lt]
  simp only [Array.size_append, Array.size_replicate]
  omega

/-- What is there stays. -/
theorem getElem?_setFilling_of_ne {xs : Array α} {i j : Nat} {a b : α} (hj : j ≠ i)
    (h : xs[j]? = some b) : (setFilling filler xs i a)[j]? = some b := by
  obtain ⟨hlt, -⟩ := Array.getElem?_eq_some_iff.1 h
  rw [setFilling, Array.getElem?_setIfInBounds_ne (Ne.symm hj), Array.getElem?_append_left hlt, h]

/-- What an array holds after entries with different places were set one after the other. -/
theorem foldl_setFilling (f : β × Nat → α) {entries : List (β × Nat)}
    (hplaces : (entries.map Prod.snd).Nodup) (xs : Array α) {n : Nat} (hsize : xs.size ≤ n)
    (hlt : ∀ e ∈ entries, e.2 < n) :
    (entries.foldl (fun xs e => setFilling filler xs e.2 (f e)) xs).size ≤ n ∧
      (∀ e ∈ entries,
        (entries.foldl (fun xs e => setFilling filler xs e.2 (f e)) xs)[e.2]? = some (f e)) ∧
      ∀ i a, i ∉ entries.map Prod.snd → xs[i]? = some a →
        (entries.foldl (fun xs e => setFilling filler xs e.2 (f e)) xs)[i]? = some a := by
  induction entries generalizing xs with
  | nil => exact ⟨hsize, fun e he => absurd he List.not_mem_nil, fun _ _ _ h => h⟩
  | cons e entries ih =>
    obtain ⟨hnew, hplaces⟩ := List.nodup_cons.1 hplaces
    obtain ⟨he, hlt⟩ := List.forall_mem_cons.1 hlt
    have hsize' : (setFilling filler xs e.2 (f e)).size ≤ n := by
      rw [size_setFilling]
      omega
    obtain ⟨hle, hset, hkept⟩ := ih hplaces (setFilling filler xs e.2 (f e)) hsize' hlt
    refine ⟨hle, List.forall_mem_cons.2 ⟨?_, hset⟩, fun i a hi hx => ?_⟩
    · exact hkept e.2 (f e) hnew (getElem?_setFilling_self xs e.2 (f e))
    · obtain ⟨hne, hi⟩ := not_or.1 (mt List.mem_cons.2 hi)
      exact hkept i a hi (getElem?_setFilling_of_ne hne hx)

theorem map_snd_mapIdx (items : List β) :
    (items.mapIdx fun i b => (b, i)).map Prod.snd = List.range items.length := by
  refine List.ext_getElem (by simp) fun i _ _ => ?_
  simp

/-- Entries that have consecutive places fill an array without gaps, in any order. -/
theorem foldl_setFilling_eq (f : β × Nat → α) {items : Array β} {entries : List (β × Nat)}
    (hperm : entries.Perm (items.toList.mapIdx fun i b => (b, i))) :
    entries.foldl (fun xs e => setFilling filler xs e.2 (f e)) #[] =
      items.mapIdx fun i b => f (b, i) := by
  have hplaces : (entries.map Prod.snd).Nodup := by
    rw [(hperm.map Prod.snd).nodup_iff, map_snd_mapIdx]
    exact List.nodup_range
  have hmem : ∀ e ∈ entries, items[e.2]? = some e.1 := by
    intro e he
    obtain ⟨i, hi, rfl⟩ := List.mem_mapIdx.1 (hperm.mem_iff.1 he)
    exact Array.getElem?_eq_getElem hi
  obtain ⟨hle, hset, -⟩ := @foldl_setFilling _ _ filler f _ hplaces #[] _
    (Nat.zero_le items.size) fun e he => (Array.getElem?_eq_some_iff.1 (hmem e he)).1
  refine Array.ext_getElem? fun i => ?_
  rcases Nat.lt_or_ge i items.size with hi | hi
  · have hi' : (items[i], i) ∈ entries := hperm.mem_iff.2 (List.mem_mapIdx.2 ⟨i, hi, rfl⟩)
    refine (hset (items[i], i) hi').trans ?_
    simp [hi]
  · rw [Array.getElem?_eq_none (Nat.le_trans hle hi)]
    simp [hi]

end Program

/-! ## Orders -/

/-- The texts with their numbers. -/
def Interner.table (i : Interner) : Table String Nat := i.texts.toList.mapIdx fun id text => (text, id)

theorem Interner.keys_table (i : Interner) : i.table.keys = i.texts.toList :=
  Table.keys_mapIdx i.texts.toList id

theorem Interner.ids_table (i : Interner) : i.table.map Prod.snd = List.range i.texts.size :=
  Program.map_snd_mapIdx i.texts.toList

namespace Draft

/-- The orders in which the tables of a draft are gone through. -/
structure Order (d : Draft) where
  strings : Table String Nat
  functions : Table String Nat
  bodies : Table Nat (List Instruction)
  strings_perm : strings.Perm d.strings.table
  functions_perm : functions.Perm d.functions.table
  bodies_perm : bodies.Perm d.bodies

/-- The entry of the function with the given number. -/
def entryOf (bodies : Table Nat (List Instruction)) (id : Nat) : FunctionEntry :=
  match bodies.get? id with
  | some code => .compiled (.ofCode code.toArray)
  | none => .unset

/-- The program that is put together in the given order: first `pass` changes the bodies, then
    every string and every function is set at its number. -/
def Order.assemble {d : Draft} (o : d.Order) (pass : Pass) : Program :=
  let bodies := o.bodies.map fun (id, code) => (id, pass code)
  let p := o.strings.foldl (fun p (text, id) => p.setString id text) .empty
  o.functions.foldl (fun p (name, id) => p.setFunction id name (entryOf bodies id)) p

theorem foldl_setString (texts : Table String Nat) (p : Program) :
    texts.foldl (fun p (text, id) => p.setString id text) p =
      { p with strings := texts.foldl (fun xs e => Program.setFilling "" xs e.2 e.1) p.strings } := by
  induction texts generalizing p with
  | nil => rfl
  | cons e texts ih => exact ih _

theorem foldl_setFunction (entry : Nat → FunctionEntry) (names : Table String Nat) (p : Program) :
    names.foldl (fun p (name, id) => p.setFunction id name (entry id)) p =
      { p with
        functions := names.foldl (fun xs e => Program.setFilling .unset xs e.2 (entry e.2)) p.functions
        names := names.foldl (fun t (n, id) => t.insert n id) p.names } := by
  induction names generalizing p with
  | nil => rfl
  | cons e names ih => exact ih _

/-- Whatever the order, the program holds what belongs to it, and lists the names as they
    came. -/
theorem Order.assemble_eq {d : Draft} (o : d.Order) (pass : Pass)
    (hnames : d.functions.texts.toList.Nodup) (hbodies : d.bodies.keys.Nodup) :
    o.assemble pass = { (d.mapBodies pass).toProgram with names := o.functions } := by
  have hstrings := @Program.foldl_setFilling_eq _ _ "" Prod.fst _ _ o.strings_perm
  have hentry (id : Nat) : entryOf (o.bodies.map fun (id, code) => (id, pass code)) id =
      entryOf (d.mapBodies pass).bodies id := by
    have hget : Table.get? (o.bodies.map fun (id, code) => (id, pass code)) id =
        (d.mapBodies pass).bodies.get? id := by
      have hnodup : o.bodies.keys.Nodup := (o.bodies_perm.map Prod.fst).nodup_iff.2 hbodies
      calc _ = (o.bodies.get? id).map pass := Table.get?_map pass o.bodies id
        _ = (d.bodies.get? id).map pass := by rw [Table.get?_of_perm o.bodies_perm hnodup]
        _ = _ := (Table.get?_map pass d.bodies id).symm
    rw [entryOf, entryOf, hget]
  have hfunctions := @Program.foldl_setFilling_eq _ _ FunctionEntry.unset
    (fun e => entryOf (d.mapBodies pass).bodies e.2) _ _ o.functions_perm
  have hkeys : o.functions.keys.Nodup := by
    rw [← d.functions.keys_table] at hnames
    exact (o.functions_perm.map Prod.fst).nodup_iff.2 hnames
  have hlisted := Program.foldl_insert_eq o.functions [] hkeys
  have htexts : d.strings.texts.mapIdx (fun _ text => text) = d.strings.texts := by
    refine Array.ext_getElem? fun i => ?_
    cases h : d.strings.texts[i]? <;> simp [h]
  rw [assemble, foldl_setString, foldl_setFunction, toProgram]
  simp only [hentry, Program.empty, hstrings, hfunctions, hlisted, htexts]
  rfl

/-! ## The draft of a script -/

theorem nodup_functionBodies {d d' : Draft} {fs : List Function} {u : Unit}
    (h : d.functionBodies fs = (d', .ok u)) (hd : d.bodies.keys.Nodup) : d'.bodies.keys.Nodup := by
  induction fs generalizing d with
  | nil =>
    obtain ⟨rfl, -⟩ := Prod.mk.inj h
    exact hd
  | cons f fs ih =>
    rw [functionBodies] at h
    split at h
    · cases h
    · next d₁ u₁ hf =>
      obtain ⟨id, code, s', -, -, rfl⟩ := function_ok hf
      exact ih h (Table.nodup_keys_insert hd id _)

/-- All functions of a script for which a draft can be made have different names, and a body
    each. -/
theorem script_ok {s : Script} {d : Draft} {u : Unit} (h : empty.script s = (d, .ok u)) :
    d.functions = ⟨(s.functions.map Function.name).toArray⟩ ∧
      (s.functions.map Function.name).Nodup ∧ d.bodies.keys.Nodup ∧
      ∀ id < s.functions.length, ∃ code, d.bodies.get? id = some code := by
  rw [script] at h
  split at h
  · cases h
  · next d₁ u₁ hregister =>
    obtain ⟨rfl, hnodup⟩ := registerAll_ok hregister rfl List.nodup_nil (by simp)
    rw [List.nil_append] at hnodup
    obtain ⟨hfunctions, -, hbodies, -⟩ := functionBodies_ok h hnodup d.strings.within_refl
    refine ⟨hfunctions, hnodup, nodup_functionBodies h List.nodup_nil, fun id hid => ?_⟩
    obtain ⟨id', code, -, hid', -, hbody⟩ := hbodies s.functions[id] (List.getElem_mem hid)
    have hplace := Script.functionId?_of_getElem? hnodup (List.getElem?_eq_getElem hid)
    rw [Script.functionId?] at hplace
    obtain rfl : id = id' := by
      simpa [functionId?, Interner.id?, hplace] using hid'
    exact ⟨_, hbody⟩

end Draft

/-! ## Programs of scripts -/

namespace Program

variable {p : Program} {names names' : Table String Nat}

/-- Names with ascending numbers are sorted to themselves, however they were kept. -/
theorem namesById_of_perm (hperm : names.Perm p.names)
    (hids : (p.names.map Prod.snd).Pairwise (· < ·)) :
    namesById { p with names } = p.namesById :=
  (namesById_of_ascending hperm hids).trans (namesById_of_ascending (.refl p.names) hids).symm

theorem toBytes_of_perm (hperm : names.Perm p.names)
    (hids : (p.names.map Prod.snd).Pairwise (· < ·)) : toBytes { p with names } = p.toBytes := by
  rw [toBytes, toBytes, namesById_of_perm hperm hids, hperm.length_eq]

theorem listing_congr {q : Program} (hstrings : q.strings = p.strings)
    (hfunctions : q.functions = p.functions) (hnames : q.namesById = p.namesById) :
    q.listing = p.listing := by
  delta listing
  rw [hstrings, hfunctions, hnames]

theorem same_of_perm (hperm : names.Perm names')
    (hkeys : names'.keys.Nodup) : same { p with names } { p with names := names' } = true := by
  have hall : ∀ n ∈ names, names'.get? n.1 = some n.2 :=
    fun n hn => Table.get?_of_mem hkeys (hperm.mem_iff.1 hn)
  simpa [same, hperm.length_eq] using hall

end Program

namespace Script

variable {s : Script} {pass : Pass} {p q q' : Program}

/-- What has been made of a script before its program is put together. -/
def draft (s : Script) : Draft := (Draft.empty.script s).1

/-- The program is one that the script is compiled to: the tables of its draft are gone through
    in some order, and the names are kept in some order. -/
def CompiledTo (s : Script) (pass : Pass) (q : Program) : Prop :=
  ∃ (o : s.draft.Order) (names : Table String Nat),
    names.Perm (o.assemble pass).names ∧ q = { o.assemble pass with names }

/-- A script that can be compiled has a finished draft. -/
theorem compileWith_eq_ok (h : s.compileWith pass = .ok p) :
    Draft.empty.script s = (s.draft, .ok ()) ∧ p = (s.draft.mapBodies pass).toProgram := by
  rw [compileWith] at h
  split at h
  · exact nomatch h
  · next d _ hscript =>
    have hd : s.draft = d := congrArg Prod.fst hscript
    rw [hd]
    exact ⟨hscript, (Except.ok.inj h).symm⟩

/-- The names of the program are those of the functions, with ascending numbers. -/
theorem names_of_compileWith (h : s.compileWith pass = .ok p) :
    p.names = s.draft.functions.table ∧ p.names.keys.Nodup ∧
      (p.names.map Prod.snd).Pairwise (· < ·) := by
  obtain ⟨hscript, rfl⟩ := compileWith_eq_ok h
  obtain ⟨hfunctions, hnames, -⟩ := Draft.script_ok hscript
  have htable : (s.draft.mapBodies pass).toProgram.names = s.draft.functions.table := rfl
  refine ⟨htable, ?_, ?_⟩
  · rw [htable, Interner.keys_table, hfunctions]
    exact hnames
  · rw [htable, Interner.ids_table]
    exact List.pairwise_lt_range

/-- The program has as many names as functions, and every function has a body. -/
theorem functions_of_compileWith (h : s.compileWith pass = .ok p) :
    p.functions.size = p.names.length ∧ ∀ e ∈ p.functions, ∃ body, e = .compiled body := by
  obtain ⟨hscript, rfl⟩ := compileWith_eq_ok h
  obtain ⟨hfunctions, -, -, hbodies⟩ := Draft.script_ok hscript
  refine ⟨by simp [Draft.toProgram], fun e he => ?_⟩
  obtain ⟨id, hid, rfl⟩ := Array.mem_mapIdx.1 he
  have hlt : id < s.functions.length := by simpa [Draft.mapBodies, hfunctions] using hid
  obtain ⟨code, hcode⟩ := hbodies id hlt
  have hget : (s.draft.mapBodies pass).bodies.get? id = some (pass code) :=
    (Table.get?_map pass s.draft.bodies id).trans (by rw [hcode]; rfl)
  rw [hget]
  exact ⟨_, rfl⟩

theorem lt_size_of_compileWith (h : s.compileWith pass = .ok p) :
    ∀ n ∈ p.names, n.2 < p.functions.size := by
  intro n hn
  obtain ⟨htable, -⟩ := names_of_compileWith h
  obtain ⟨hsize, -⟩ := functions_of_compileWith h
  have hid := List.mem_map_of_mem (f := Prod.snd) hn
  rw [htable, Interner.ids_table, List.mem_range] at hid
  rwa [hsize, htable, Interner.table, List.length_mapIdx, Array.length_toList]

/-- A program that a script is compiled to is the compiled one, with its names in some order. -/
theorem CompiledTo.exists_perm (h : s.compileWith pass = .ok p) (hq : s.CompiledTo pass q) :
    ∃ names, names.Perm p.names ∧ q = { p with names } := by
  obtain ⟨hscript, rfl⟩ := compileWith_eq_ok h
  obtain ⟨hfunctions, hnames, hbodies, -⟩ := Draft.script_ok hscript
  obtain ⟨o, names, hperm, rfl⟩ := hq
  rw [o.assemble_eq pass (by rwa [hfunctions]) hbodies] at hperm ⊢
  exact ⟨names, hperm.trans o.functions_perm, rfl⟩

/-- The compiled program is one of these, with all tables in the order of their numbers. -/
theorem compiledTo_of_compileWith (h : s.compileWith pass = .ok p) : s.CompiledTo pass p := by
  obtain ⟨hscript, rfl⟩ := compileWith_eq_ok h
  obtain ⟨hfunctions, hnames, hbodies, -⟩ := Draft.script_ok hscript
  let o : s.draft.Order := ⟨_, _, _, .refl _, .refl _, .refl _⟩
  have ho := o.assemble_eq pass (by rwa [hfunctions]) hbodies
  exact ⟨o, _, .refl _, ho.symm⟩

/-- **Compilation is reproducible.** Whatever the orders in which tables are gone through, a
    script that can be compiled is compiled to the same program; it is stored, and its stored
    form and its listing are always the same. -/
theorem compile_reproducible (h : s.compileWith pass = .ok p) :
    s.CompiledTo pass p ∧ ∃ b, ∀ q q', s.CompiledTo pass q → s.CompiledTo pass q' →
      q.same q' = true ∧ q.toBytes = .ok b ∧ q'.toBytes = .ok b ∧ q.listing = q'.listing := by
  obtain ⟨-, hkeys, hids⟩ := names_of_compileWith h
  obtain ⟨hsize, hset⟩ := functions_of_compileWith h
  obtain ⟨b, hb⟩ := Program.exists_toBytes hsize fun e he hunset => by
    obtain ⟨body, hbody⟩ := hset e he
    exact nomatch hunset.symm.trans hbody
  refine ⟨compiledTo_of_compileWith h, b, fun q q' hq hq' => ?_⟩
  obtain ⟨names, hperm, rfl⟩ := hq.exists_perm h
  obtain ⟨names', hperm', rfl⟩ := hq'.exists_perm h
  refine ⟨?_, ?_, ?_, ?_⟩
  · exact Program.same_of_perm (hperm.trans hperm'.symm) ((hperm'.map Prod.fst).nodup_iff.2 hkeys)
  · rw [Program.toBytes_of_perm hperm hids, hb]
  · rw [Program.toBytes_of_perm hperm' hids, hb]
  · have hsorted := Program.namesById_of_perm hperm hids
    have hsorted' := Program.namesById_of_perm hperm' hids
    exact Program.listing_congr rfl rfl (hsorted.trans hsorted'.symm)

/-- Two functions that return a string each. -/
def twoTexts : Script :=
  ⟨[{ name := "f", params := [], body := [.give (some (.literal (.text "a")))] },
    { name := "g", params := [], body := [.give (some (.literal (.text "b")))] }]⟩

/-- What that script is compiled to. -/
def twoTextsProgram : Program where
  strings := #["a", "b"]
  functions := #[.compiled (.ofCode #[.ofNat .pushString 0, .bare .ret]),
    .compiled (.ofCode #[.ofNat .pushString 1, .bare .ret])]
  names := [("f", 0), ("g", 1)]

theorem twoTexts_compile : twoTexts.compileWith id = .ok twoTextsProgram := by
  have h : (twoTexts.compileWith id).toOption = some twoTextsProgram := by decide +kernel
  cases hcompile : twoTexts.compileWith id with
  | error e => simp [hcompile, Except.toOption] at h
  | ok p => simpa [hcompile, Except.toOption] using h

/-- All tables of the draft from the back to the front. -/
def twoTextsBackwards : twoTexts.draft.Order where
  strings := twoTexts.draft.strings.table.reverse
  functions := twoTexts.draft.functions.table.reverse
  bodies := twoTexts.draft.bodies.reverse
  strings_perm := List.reverse_perm _
  functions_perm := List.reverse_perm _
  bodies_perm := List.reverse_perm _

theorem compile_reproducible_backwards :
    (twoTextsBackwards.assemble id).names = [("g", 1), ("f", 0)] ∧
      twoTextsProgram.same (twoTextsBackwards.assemble id) = true ∧
      ∃ b, twoTextsProgram.toBytes = .ok b ∧ (twoTextsBackwards.assemble id).toBytes = .ok b := by
  obtain ⟨hp, b, hall⟩ := compile_reproducible twoTexts_compile
  have hbackwards : twoTexts.CompiledTo id (twoTextsBackwards.assemble id) :=
    ⟨twoTextsBackwards, _, .refl _, rfl⟩
  obtain ⟨hsame, hb, hb', -⟩ := hall _ _ hp hbackwards
  exact ⟨by decide +kernel, hsame, b, hb, hb'⟩

end Script

end ScriptMachine
