import Mathlib.Data.List.Forall2

/-!
Computations that may fail: what it takes for a sequence of them to succeed.
-/

namespace JavaUnits

variable {ε α β : Type}

theorem bind_eq_ok {x : Except ε α} {f : α → Except ε β} {b : β} :
    (x >>= f) = .ok b ↔ ∃ a, x = .ok a ∧ f a = .ok b := by
  cases x with
  | error e => simp [bind, Except.bind]
  | ok a => simp [bind, Except.bind]

theorem bind_eq_error {x : Except ε α} {f : α → Except ε β} {e : ε} :
    (x >>= f) = .error e ↔ x = .error e ∨ ∃ a, x = .ok a ∧ f a = .error e := by
  cases x with
  | error e' => simp [bind, Except.bind]
  | ok a => simp [bind, Except.bind]

theorem map_eq_ok {x : Except ε α} {f : α → β} {b : β} :
    (f <$> x) = .ok b ↔ ∃ a, x = .ok a ∧ f a = b := by
  cases x with
  | error e => simp [Functor.map, Except.map]
  | ok a => simp [Functor.map, Except.map]

theorem map_eq_error {x : Except ε α} {f : α → β} {e : ε} :
    (f <$> x) = .error e ↔ x = .error e := by
  cases x with
  | error e' => simp [Functor.map, Except.map]
  | ok a => simp [Functor.map, Except.map]

@[simp] theorem ok_bind (a : α) (f : α → Except ε β) : (Except.ok a >>= f) = f a := rfl

@[simp] theorem error_bind (e : ε) (f : α → Except ε β) :
    (Except.error e >>= f) = .error e := rfl

theorem toOption_eq_some {x : Except ε α} {a : α} : x.toOption = some a ↔ x = .ok a := by
  cases x <;> simp [Except.toOption]

theorem exists_eq_ok {x : Except ε α} (succeeds : x.toOption.isSome = true) : ∃ a, x = .ok a := by
  obtain ⟨a, there⟩ := Option.isSome_iff_exists.1 succeeds
  exact ⟨a, toOption_eq_some.1 there⟩

theorem pure_eq_ok (a : α) : (pure a : Except ε α) = .ok a := rfl

theorem mapError_eq_ok {ε' : Type} {x : Except ε α} {f : ε → ε'} {a : α} :
    x.mapError f = .ok a ↔ x = .ok a := by
  cases x <;> simp [Except.mapError]

theorem mapError_eq_error {ε' : Type} {x : Except ε α} {f : ε → ε'} {e' : ε'} :
    x.mapError f = .error e' ↔ ∃ e, x = .error e ∧ f e = e' := by
  cases x <;> simp [Except.mapError]

theorem mapM_eq_ok {f : α → Except ε β} {as : List α} {bs : List β} :
    as.mapM f = .ok bs ↔ List.Forall₂ (fun a b => f a = .ok b) as bs := by
  induction as generalizing bs with
  | nil => cases bs <;> simp [pure_eq_ok]
  | cons a as ih =>
    rw [List.mapM_cons, bind_eq_ok]
    constructor
    · rintro ⟨b, first, rest⟩
      obtain ⟨bs', later, made⟩ := bind_eq_ok.1 rest
      rw [← Except.ok.inj made]
      exact .cons first (ih.1 later)
    · intro all
      cases all with
      | cons first later =>
        exact ⟨_, first, bind_eq_ok.2 ⟨_, ih.2 later, rfl⟩⟩

theorem mapM_eq_error {f : α → Except ε β} {as : List α} {e : ε} :
    as.mapM f = .error e ↔ ∃ front a back, as = front ++ a :: back ∧
      (∀ b ∈ front, ∃ c, f b = .ok c) ∧ f a = .error e := by
  induction as with
  | nil => simp [pure_eq_ok]
  | cons a as ih =>
    rw [List.mapM_cons, bind_eq_error]
    constructor
    · rintro (failed | ⟨b, first, failed⟩)
      · exact ⟨[], a, as, rfl, nofun, failed⟩
      · rcases bind_eq_error.1 failed with failed | ⟨bs, -, never⟩
        · obtain ⟨front, a', back, rfl, before, failed⟩ := ih.1 failed
          exact ⟨a :: front, a', back, rfl, List.forall_mem_cons.2 ⟨⟨b, first⟩, before⟩, failed⟩
        · cases never
    · rintro ⟨front, a', back, split, before, failed⟩
      cases front with
      | nil =>
        obtain ⟨rfl, rfl⟩ := List.cons.inj split
        exact .inl failed
      | cons a'' front =>
        obtain ⟨rfl, rfl⟩ := List.cons.inj split
        obtain ⟨⟨b, first⟩, before⟩ := List.forall_mem_cons.1 before
        exact .inr ⟨b, first, bind_eq_error.2 (.inl (ih.2 ⟨front, a', back, rfl, before, failed⟩))⟩

theorem filterM_eq_ok [DecidableEq ε] {f : α → Except ε Bool} {as bs : List α} :
    as.filterM f = .ok bs ↔
      (∀ a ∈ as, ∃ fits, f a = .ok fits) ∧ bs = as.filter (f · = .ok true) := by
  have loop (done kept : List α) : as.filterAuxM f done = .ok kept ↔
      (∀ a ∈ as, ∃ fits, f a = .ok fits) ∧
        kept = (as.filter (f · = .ok true)).reverse ++ done := by
    induction as generalizing done with
    | nil => simp [List.filterAuxM, pure_eq_ok, eq_comm]
    | cons a as ih =>
      rw [List.filterAuxM, List.forall_mem_cons]
      cases asked : f a with
      | error e => simp
      | ok fits => cases fits <;> simp [ih, asked]
  rw [List.filterM, bind_eq_ok]
  constructor
  · rintro ⟨kept, looped, same⟩
    obtain ⟨asked, rfl⟩ := (loop [] kept).1 looped
    exact ⟨asked, by simpa using (Except.ok.inj same).symm⟩
  · rintro ⟨asked, rfl⟩
    exact ⟨_, (loop [] _).2 ⟨asked, rfl⟩, by simp [pure_eq_ok]⟩

end JavaUnits
