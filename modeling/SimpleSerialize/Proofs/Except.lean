/-! When a computation made of steps succeeds. -/

namespace SimpleSerialize

variable {ε α β : Type}

theorem ok_bind (a : α) (f : α → Except ε β) : (Except.ok a >>= f) = f a := rfl

theorem bind_eq_ok_iff {x : Except ε α} {f : α → Except ε β} {b : β} :
    (x >>= f) = .ok b ↔ ∃ a, x = .ok a ∧ f a = .ok b := by
  cases x with
  | error e => simp [bind, Except.bind]
  | ok a => simp [bind, Except.bind]

theorem bind_eq_error_iff {x : Except ε α} {f : α → Except ε β} {e : ε} :
    (x >>= f) = .error e ↔ x = .error e ∨ ∃ a, x = .ok a ∧ f a = .error e := by
  cases x with
  | error e => simp [bind, Except.bind]
  | ok a => simp [bind, Except.bind]

/-- What is made of a result is there if the result is. -/
theorem exists_bind_ok_eq_ok_iff {x : Except ε α} {f : α → β} :
    (∃ b, (x.bind fun a => .ok (f a)) = .ok b) ↔ ∃ a, x = .ok a := by
  cases x <;> simp [Except.bind]

theorem pure_eq_ok_iff {a b : α} : (pure a : Except ε α) = .ok b ↔ a = b := by
  simp [pure, Except.pure]

theorem map_eq_ok_iff {x : Except ε α} {f : α → β} {b : β} :
    x.map f = .ok b ↔ ∃ a, x = .ok a ∧ f a = b := by
  cases x <;> simp [Except.map]

theorem map_eq_error_iff {x : Except ε α} {f : α → β} {e : ε} :
    x.map f = .error e ↔ x = .error e := by
  cases x <;> simp [Except.map]

@[simp] theorem mapError_ok {ε' : Type} (f : ε → ε') (a : α) :
    (Except.ok a).mapError f = .ok a := rfl

@[simp] theorem mapError_error {ε' : Type} (f : ε → ε') (e : ε) :
    (Except.error e : Except ε α).mapError f = .error (f e) := rfl

theorem mapError_bind {ε' : Type} (f : ε → ε') (x : Except ε α) (g : α → Except ε β) :
    (x >>= g).mapError f = x.mapError f >>= fun a => (g a).mapError f := by
  cases x <;> rfl

theorem mapError_eq_ok_iff {ε' : Type} {x : Except ε α} {f : ε → ε'} {a : α} :
    x.mapError f = .ok a ↔ x = .ok a := by
  cases x <;> simp

/-- A computation behind a check. -/
theorem ite_error_eq_ok_iff {p : Prop} [Decidable p] {e : ε} {x : Except ε α} {a : α} :
    (if p then .error e else x) = .ok a ↔ ¬p ∧ x = .ok a := by
  by_cases hp : p <;> simp [hp]

theorem toOption_eq_some_iff {x : Except ε α} {a : α} : x.toOption = some a ↔ x = .ok a := by
  cases x <;> simp [Except.toOption]

/-- A computation on every entry of a list succeeds if it does on each of them. -/
theorem mapM_eq_ok_iff {f : α → Except ε β} {xs : List α} {ys : List β} :
    xs.mapM f = .ok ys ↔ xs.map f = ys.map .ok := by
  induction xs generalizing ys with
  | nil => cases ys <;> simp [pure, Except.pure]
  | cons x xs ih =>
    simp only [List.mapM_cons, bind_eq_ok_iff, pure_eq_ok_iff, ih]
    constructor
    · rintro ⟨y, hy, rest, hrest, rfl⟩
      rw [List.map_cons, List.map_cons, hy, hrest]
    · intro hmap
      cases ys with
      | nil => cases hmap
      | cons y rest =>
        rw [List.map_cons, List.map_cons, List.cons.injEq] at hmap
        exact ⟨y, hmap.1, rest, hmap.2, rfl⟩

/-- Where it is known when each computation succeeds and with what, it is for all of them. -/
theorem mapM_eq_ok_iff_forall {f : α → Except ε β} {p : α → Prop} {g : α → β} {xs : List α}
    {ys : List β} (hsteps : ∀ x ∈ xs, ∀ y, f x = .ok y ↔ p x ∧ g x = y) :
    xs.mapM f = .ok ys ↔ (∀ x ∈ xs, p x) ∧ xs.map g = ys := by
  induction xs generalizing ys with
  | nil => simp [pure_eq_ok_iff]
  | cons x xs ih =>
    rw [List.forall_mem_cons] at hsteps
    simp only [List.mapM_cons, bind_eq_ok_iff, pure_eq_ok_iff, hsteps.1, ih hsteps.2,
      List.forall_mem_cons, List.map_cons]
    constructor
    · rintro ⟨_, ⟨hx, rfl⟩, _, ⟨hrest, rfl⟩, rfl⟩
      exact ⟨⟨hx, hrest⟩, rfl⟩
    · rintro ⟨⟨hx, hrest⟩, rfl⟩
      exact ⟨_, ⟨hx, rfl⟩, _, ⟨hrest, rfl⟩, rfl⟩

theorem exists_error_of_mapM {f : α → Except ε β} {xs : List α} {e : ε}
    (herror : xs.mapM f = .error e) : ∃ x ∈ xs, f x = .error e := by
  induction xs with
  | nil => cases herror
  | cons x xs ih =>
    rw [List.mapM_cons] at herror
    obtain hx | ⟨y, -, herror⟩ := bind_eq_error_iff.mp herror
    · exact ⟨x, List.mem_cons_self, hx⟩
    · obtain hrest | ⟨ys, -, ⟨⟩⟩ := bind_eq_error_iff.mp herror
      obtain ⟨x', hx', hstop⟩ := ih hrest
      exact ⟨x', List.mem_cons_of_mem x hx', hstop⟩

theorem exists_map_eq_ok_iff {f : α → Except ε β} {xs : List α} :
    (∃ ys : List β, xs.map f = ys.map .ok) ↔ ∀ x ∈ xs, ∃ y, f x = .ok y := by
  induction xs with
  | nil => exact ⟨fun _ _ hx => absurd hx List.not_mem_nil, fun _ => ⟨[], rfl⟩⟩
  | cons x xs ih =>
    rw [List.forall_mem_cons, ← ih]
    constructor
    · rintro ⟨ys, hmap⟩
      cases ys with
      | nil => cases hmap
      | cons y rest =>
        rw [List.map_cons, List.map_cons, List.cons.injEq] at hmap
        exact ⟨⟨y, hmap.1⟩, rest, hmap.2⟩
    · rintro ⟨⟨y, hy⟩, rest, hrest⟩
      refine ⟨y :: rest, ?_⟩
      rw [List.map_cons, List.map_cons, hy, hrest]

/-- A computation that tells apart the entries of two lists place by place tells the lists apart. -/
theorem eq_of_map_eq_ok {f : α → Except ε β} {xs xs' : List α} {ys : List β}
    (hxs : xs.map f = ys.map .ok) (hxs' : xs'.map f = ys.map .ok)
    (hinj : ∀ (i : Nat) x x' y, xs[i]? = some x → xs'[i]? = some x' → f x = .ok y → f x' = .ok y →
      x = x') : xs = xs' := by
  apply List.ext_getElem?
  intro i
  have hget := congrArg (·[i]?) hxs
  have hget' := congrArg (·[i]?) hxs'
  simp only [List.getElem?_map] at hget hget'
  cases hy : ys[i]? with
  | none =>
    rw [hy, Option.map_none, Option.map_eq_none_iff] at hget hget'
    rw [hget, hget']
  | some y =>
    rw [hy, Option.map_some, Option.map_eq_some_iff] at hget hget'
    obtain ⟨x, hx, hfx⟩ := hget
    obtain ⟨x', hx', hfx'⟩ := hget'
    rw [hx, hx', hinj i x x' y hx hx' hfx hfx']

end SimpleSerialize
