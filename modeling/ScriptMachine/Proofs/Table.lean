import ScriptMachine.Program

/-!
# Tables

Laws of the tables that hold the names of a program, the variables of a block and
the processes of a machine. A table is a list of pairs; a key is looked up at its
first pair, so what a table says about a key changes only where the key itself is
set (`get?_insert_ne`). Setting a key keeps the order of the others, and a new key
goes to the end (`insert_of_notMem`).
-/

namespace ScriptMachine.Table

variable {κ α β : Type} [DecidableEq κ] {t : Table κ α} {k k' : κ} {a : α}

/-- The keys of a table, in their order. -/
def keys (t : Table κ α) : List κ := t.map Prod.fst

omit [DecidableEq κ] in
@[simp] theorem keys_nil : keys ([] : Table κ α) = [] := rfl

omit [DecidableEq κ] in
@[simp] theorem keys_cons (x : κ × α) (t : Table κ α) : keys (x :: t) = x.1 :: keys t := rfl

omit [DecidableEq κ] in
theorem keys_append (t t' : Table κ α) : keys (t ++ t') = t.keys ++ t'.keys := List.map_append

@[simp] theorem get?_nil (k : κ) : get? ([] : Table κ α) k = none := rfl

theorem get?_cons (x : κ × α) (t : Table κ α) (k : κ) :
    get? (x :: t) k = if x.1 = k then some x.2 else get? t k := rfl

theorem insert_nil (k : κ) (a : α) : insert ([] : Table κ α) k a = [(k, a)] := rfl

theorem insert_cons (x : κ × α) (t : Table κ α) (k : κ) (a : α) :
    insert (x :: t) k a = if x.1 = k then (k, a) :: t else x :: insert t k a := rfl

omit [DecidableEq κ] in
theorem mem_keys_of_mem (h : (k, a) ∈ t) : k ∈ t.keys := List.mem_map_of_mem h

omit [DecidableEq κ] in
/-- The keys of a list in which each key has a value that depends on its place. -/
theorem keys_mapIdx (ks : List κ) (f : Nat → α) : keys (ks.mapIdx fun i k => (k, f i)) = ks := by
  refine List.ext_getElem (by simp [keys]) fun _ _ _ => ?_
  simp [keys]

theorem get?_eq_none_iff : t.get? k = none ↔ k ∉ t.keys := by
  induction t with
  | nil => simp
  | cons x t ih =>
    rw [get?_cons]
    by_cases hk : x.1 = k
    · simp [hk]
    · rw [if_neg hk, ih]
      simp [Ne.symm hk]

theorem mem_of_get? (h : t.get? k = some a) : (k, a) ∈ t := by
  induction t with
  | nil => cases h
  | cons x t ih =>
    rw [get?_cons] at h
    split at h
    · next hk =>
      obtain ⟨x₁, x₂⟩ := x
      obtain rfl : x₂ = a := Option.some.inj h
      exact hk ▸ List.mem_cons_self
    · exact List.mem_cons_of_mem x (ih h)

theorem mem_keys_of_get? (h : t.get? k = some a) : k ∈ t.keys := mem_keys_of_mem (mem_of_get? h)

theorem get?_append (t t' : Table κ α) (k : κ) : (t ++ t').get? k = (t.get? k).or (t'.get? k) := by
  induction t with
  | nil => rfl
  | cons x t ih =>
    rw [List.cons_append, get?_cons, get?_cons, ih]
    split <;> rfl

/-- Changing the values of a table changes what is found. -/
theorem get?_map (f : α → β) (t : Table κ α) (k : κ) :
    get? (t.map fun x => (x.1, f x.2)) k = (t.get? k).map f := by
  induction t with
  | nil => rfl
  | cons x t ih =>
    rw [List.map_cons, get?_cons, get?_cons, ih]
    split <;> rfl

/-- If no key is there twice, every pair is found. -/
theorem get?_of_mem (hnodup : t.keys.Nodup) (h : (k, a) ∈ t) : t.get? k = some a := by
  induction t with
  | nil => exact absurd h List.not_mem_nil
  | cons x t ih =>
    obtain ⟨hx, hnodup⟩ := List.nodup_cons.1 hnodup
    rcases List.mem_cons.1 h with rfl | h
    · rw [get?_cons, if_pos rfl]
    · have hne : x.1 ≠ k := fun heq => hx (heq ▸ mem_keys_of_mem h)
      rw [get?_cons, if_neg hne, ih hnodup h]

/-- The order of different keys does not matter to what is found. -/
theorem get?_of_perm {t' : Table κ α} (h : t.Perm t') (hnodup : t.keys.Nodup) (k : κ) :
    t.get? k = t'.get? k := by
  cases hk : t'.get? k with
  | none =>
    rw [get?_eq_none_iff] at hk ⊢
    exact fun hmem => hk ((h.map Prod.fst).mem_iff.1 hmem)
  | some a => exact get?_of_mem hnodup (h.mem_iff.2 (mem_of_get? hk))

/-! ## Setting a key -/

@[simp]
theorem get?_insert_self (t : Table κ α) (k : κ) (a : α) : (t.insert k a).get? k = some a := by
  induction t with
  | nil => simp [insert_nil, get?_cons]
  | cons x t ih =>
    rw [insert_cons]
    split
    · simp [get?_cons]
    · next hk => rw [get?_cons, if_neg hk, ih]

theorem get?_insert_ne (h : k' ≠ k) : (t.insert k a).get? k' = t.get? k' := by
  induction t with
  | nil => simp [insert_nil, get?_cons, Ne.symm h]
  | cons x t ih =>
    rw [insert_cons]
    split
    · next hk => rw [get?_cons, get?_cons, if_neg (Ne.symm h), if_neg (hk ▸ Ne.symm h)]
    · rw [get?_cons, get?_cons, ih]

theorem insert_append (h : k ∉ t.keys) (t' : Table κ α) : (t ++ t').insert k a = t ++ t'.insert k a := by
  induction t with
  | nil => rfl
  | cons x t ih =>
    have hne : x.1 ≠ k := fun heq => h (List.mem_cons.2 (.inl heq.symm))
    have hk : k ∉ keys t := fun hmem => h (List.mem_cons_of_mem x.1 hmem)
    rw [List.cons_append, insert_cons, if_neg hne, ih hk, List.cons_append]

/-- A new key goes to the end. -/
theorem insert_of_notMem (h : k ∉ t.keys) : t.insert k a = t ++ [(k, a)] := by
  rw [← List.append_nil t, insert_append h, List.append_nil]
  rfl

/-- A key that is there keeps its place. -/
theorem keys_insert_of_mem (h : k ∈ t.keys) : (t.insert k a).keys = t.keys := by
  induction t with
  | nil => exact absurd h List.not_mem_nil
  | cons x t ih =>
    rw [insert_cons]
    split
    · next hk => simp [hk]
    · next hk =>
      have hmem : k ∈ keys t := (List.mem_cons.1 h).resolve_left (Ne.symm hk)
      exact congrArg (x.1 :: ·) (ih hmem)

/-- Where a key that is there stands, and what setting it changes. -/
theorem exists_insert_of_get? {b : α} (h : t.get? k = some a) :
    ∃ before behind, t = before ++ (k, a) :: behind ∧ t.insert k b = before ++ (k, b) :: behind := by
  induction t with
  | nil => cases h
  | cons x t ih =>
    rw [get?_cons] at h
    rw [insert_cons]
    split at h
    · next hk =>
      obtain rfl := Option.some.inj h
      exact ⟨[], t, by rw [← hk]; rfl, by rw [if_pos hk]; rfl⟩
    · next hk =>
      obtain ⟨before, behind, ht, hinsert⟩ := ih h
      exact ⟨x :: before, behind, by rw [ht]; rfl, by rw [if_neg hk, hinsert]; rfl⟩

theorem mem_keys_insert : k' ∈ (t.insert k a).keys ↔ k' = k ∨ k' ∈ t.keys := by
  by_cases h : k ∈ t.keys
  · rw [keys_insert_of_mem h]
    exact ⟨.inr, fun h' => h'.elim (fun heq => heq ▸ h) id⟩
  · rw [insert_of_notMem h]
    simp [keys_append, or_comm]

theorem nodup_keys_insert (h : t.keys.Nodup) (k : κ) (a : α) : (t.insert k a).keys.Nodup := by
  by_cases hk : k ∈ t.keys
  · rwa [keys_insert_of_mem hk]
  · rw [insert_of_notMem hk, keys_append]
    refine List.nodup_append.2 ⟨h, by simp, fun x hx y hy hxy => hk ?_⟩
    obtain rfl := List.mem_singleton.1 hy
    exact hxy ▸ hx

/-- A pair of the new table is the new one, or an old one. -/
theorem mem_insert {x : κ × α} (h : x ∈ t.insert k a) : x = (k, a) ∨ x ∈ t := by
  induction t with
  | nil => exact .inl (List.mem_singleton.1 h)
  | cons y t ih =>
    rw [insert_cons] at h
    split at h
    · exact (List.mem_cons.1 h).imp_right (List.mem_cons_of_mem y)
    · rcases List.mem_cons.1 h with rfl | hx
      · exact .inr List.mem_cons_self
      · exact (ih hx).imp_right (List.mem_cons_of_mem y)

/-! ## Removing keys -/

omit [DecidableEq κ] in
theorem keys_filter_sublist (p : κ × α → Bool) (t : Table κ α) :
    (keys (t.filter p)).Sublist t.keys := List.filter_sublist.map Prod.fst

theorem keys_erase_sublist (t : Table κ α) (k : κ) : (t.erase k).keys.Sublist t.keys :=
  keys_filter_sublist _ t

/-- What is found and not removed is found again. -/
theorem get?_filter {p : κ × α → Bool} (h : t.get? k = some a) (hp : p (k, a) = true) :
    get? (t.filter p) k = some a := by
  induction t with
  | nil => cases h
  | cons x t ih =>
    rw [get?_cons] at h
    split at h
    · next hk =>
      obtain ⟨x₁, x₂⟩ := x
      obtain rfl : x₂ = a := Option.some.inj h
      obtain rfl : x₁ = k := hk
      rw [List.filter_cons_of_pos hp, get?_cons, if_pos rfl]
    · next hk =>
      rw [List.filter_cons]
      split
      · rw [get?_cons, if_neg hk, ih h]
      · exact ih h

theorem get?_erase_self (t : Table κ α) (k : κ) : (t.erase k).get? k = none := by
  refine get?_eq_none_iff.2 fun hmem => ?_
  obtain ⟨x, hx, hk⟩ := List.mem_map.1 hmem
  exact absurd hk (by simpa using (List.mem_filter.1 hx).2)

theorem get?_erase_ne (h : k' ≠ k) : (t.erase k).get? k' = t.get? k' := by
  induction t with
  | nil => rfl
  | cons x t ih =>
    rw [erase, List.filter_cons]
    by_cases hx : x.1 = k
    · simp only [hx, ne_eq, not_true_eq_false, decide_false, Bool.false_eq_true, if_false]
      rw [get?_cons, if_neg (hx ▸ Ne.symm h)]
      exact ih
    · simp only [hx, ne_eq, not_false_eq_true, decide_true, if_true]
      rw [get?_cons, get?_cons]
      split
      · rfl
      · exact ih

end ScriptMachine.Table
