import Mathlib

/-!
# Steps that can fail

How a computation that may stop with an error is taken apart: a sequence of steps succeeds just when
each of them does.
-/

set_option autoImplicit false

namespace SourceMap

section

variable {ε α β : Type}

@[simp] theorem ok_bind (a : α) (f : α → Except ε β) : (Except.ok a >>= f) = f a := rfl

@[simp] theorem error_bind (e : ε) (f : α → Except ε β) :
    ((Except.error e : Except ε α) >>= f) = .error e := rfl

@[simp] theorem ok_map (a : α) (f : α → β) : (Except.ok a : Except ε α).map f = .ok (f a) := rfl

@[simp] theorem error_map (e : ε) (f : α → β) : (Except.error e).map f = .error e := rfl

/-- Two steps succeed just when the first does and the second does on its result. -/
theorem bind_eq_ok_iff {x : Except ε α} {f : α → Except ε β} {b : β} :
    (x >>= f) = .ok b ↔ ∃ a, x = .ok a ∧ f a = .ok b := by
  cases x with
  | error e => simp
  | ok a => simp

/-- Two steps fail just when the first does or the second does on its result. -/
theorem bind_eq_error_iff {x : Except ε α} {f : α → Except ε β} {e : ε} :
    (x >>= f) = .error e ↔ x = .error e ∨ ∃ a, x = .ok a ∧ f a = .error e := by
  cases x with
  | error e' => simp
  | ok a => simp

theorem map_eq_ok_iff {x : Except ε α} {f : α → β} {b : β} :
    x.map f = .ok b ↔ ∃ a, x = .ok a ∧ f a = b := by
  cases x with
  | error e => simp
  | ok a => simp

theorem map_eq_error_iff {x : Except ε α} {f : α → β} {e : ε} :
    x.map f = .error e ↔ x = .error e := by
  cases x with
  | error e' => simp
  | ok a => simp

/-- Steps that are the same in what is made of their results fail alike or have such results. -/
theorem map_eq_map_iff {x y : Except ε α} {f : α → β} :
    y.map f = x.map f ↔
      (∃ e, x = .error e ∧ y = .error e) ∨ ∃ a b, x = .ok a ∧ y = .ok b ∧ f b = f a := by
  cases x with
  | error e => simp [map_eq_error_iff]
  | ok a => simp [map_eq_ok_iff]

end

/-! ## Related lists -/

/-- A step for every element of a list succeeds just when each of the steps does. -/
theorem mapM_eq_ok_iff {ε α β : Type} {f : α → Except ε β} {as : List α} :
    ∀ {bs : List β}, as.mapM f = .ok bs ↔ List.Forall₂ (fun a b => f a = .ok b) as bs := by
  induction as with
  | nil =>
      intro bs
      rw [List.mapM_nil, List.forall₂_nil_left_iff]
      exact ⟨fun h => by cases h; rfl, fun h => by rw [h]; rfl⟩
  | cons a as ih =>
      intro bs
      rw [List.mapM_cons, List.forall₂_cons_left_iff, bind_eq_ok_iff]
      constructor
      · rintro ⟨b, hb, hrest⟩
        obtain ⟨bs', hbs', h⟩ := bind_eq_ok_iff.mp hrest
        cases h
        exact ⟨b, bs', hb, ih.mp hbs', rfl⟩
      · rintro ⟨b, bs', hb, hbs', rfl⟩
        exact ⟨b, hb, bind_eq_ok_iff.mpr ⟨bs', ih.mpr hbs', rfl⟩⟩

/-- A step for every element of a list fails with the error of the first step that does. -/
theorem mapM_eq_error_iff {ε α β : Type} {f : α → Except ε β} {as : List α} {e : ε} :
    as.mapM f = .error e ↔ ∃ before a after, as = before ++ a :: after ∧ f a = .error e ∧
      ∀ a' ∈ before, ∃ b, f a' = .ok b := by
  induction as with
  | nil =>
      rw [List.mapM_nil]
      constructor
      · rintro ⟨⟩
      · rintro ⟨before, a, after, h, -⟩
        simp at h
  | cons a as ih =>
      rw [List.mapM_cons, bind_eq_error_iff]
      constructor
      · rintro (ha | ⟨b, hb, hrest⟩)
        · exact ⟨[], a, as, rfl, ha, by simp⟩
        · rcases bind_eq_error_iff.mp hrest with has | ⟨_, -, ⟨⟩⟩
          obtain ⟨before, a', after, rfl, ha', hbefore⟩ := ih.mp has
          exact ⟨a :: before, a', after, rfl, ha', List.forall_mem_cons.mpr ⟨⟨b, hb⟩, hbefore⟩⟩
      · rintro ⟨before, a', after, has, ha', hbefore⟩
        cases before with
        | nil =>
            cases has
            exact Or.inl ha'
        | cons c before =>
            cases has
            rw [List.forall_mem_cons] at hbefore
            obtain ⟨⟨b, hb⟩, hbefore⟩ := hbefore
            exact Or.inr ⟨b, hb, bind_eq_error_iff.mpr
              (Or.inl (ih.mpr ⟨before, a', after, rfl, ha', hbefore⟩))⟩

/-- What every step keeps is kept by steps one after the other. -/
theorem foldlM_invariant {ε σ α : Type} {p : σ → Prop} {f : σ → α → Except ε σ}
    (hstep : ∀ {s a s'}, p s → f s a = .ok s' → p s') {as : List α} :
    ∀ {s s' : σ}, p s → as.foldlM f s = .ok s' → p s' := by
  induction as with
  | nil =>
      intro s s' hs h
      cases h
      exact hs
  | cons a as ih =>
      intro s s' hs h
      rw [List.foldlM_cons] at h
      obtain ⟨s₁, hs₁, hrest⟩ := bind_eq_ok_iff.mp h
      exact ih (hstep hs hs₁) hrest

/-- An element of a list has a partner in every list that is related to it. -/
theorem exists_of_forall₂ {α β : Type} {r : α → β → Prop} {as : List α} {bs : List β}
    (h : List.Forall₂ r as bs) : ∀ a ∈ as, ∃ b ∈ bs, r a b := by
  induction h with
  | nil =>
      intro a ha
      cases ha
  | cons hab _ ih =>
      intro a ha
      rcases List.mem_cons.mp ha with rfl | ha
      · exact ⟨_, List.mem_cons_self, hab⟩
      · obtain ⟨b, hb, hr⟩ := ih a ha
        exact ⟨b, List.mem_cons_of_mem _ hb, hr⟩

/-- The other way round. -/
theorem exists_of_forall₂_right {α β : Type} {r : α → β → Prop} {as : List α} {bs : List β}
    (h : List.Forall₂ r as bs) : ∀ b ∈ bs, ∃ a ∈ as, r a b := by
  have hflip : List.Forall₂ (fun b a => r a b) bs as := h.flip
  exact exists_of_forall₂ hflip

/-- What is made of the elements of a list and their partners is related to the list. -/
theorem forall₂_zipWith {α β γ : Type} {r : α → β → Prop} {as : List α} {bs : List β}
    (f : α → β → γ) (h : List.Forall₂ r as bs) :
    List.Forall₂ (fun a c => ∃ b, r a b ∧ c = f a b) as (List.zipWith f as bs) := by
  induction h with
  | nil => exact .nil
  | cons hab _ ih => exact .cons ⟨_, hab, rfl⟩ ih

/-- Options are related if both are missing, or both are there and related. -/
theorem rel_iff {α β : Type} {r : α → β → Prop} {x : Option α} {y : Option β} :
    Option.Rel r x y ↔ x = none ∧ y = none ∨ ∃ a b, x = some a ∧ y = some b ∧ r a b := by
  constructor
  · intro h
    cases h with
    | none => exact Or.inl ⟨rfl, rfl⟩
    | some hab => exact Or.inr ⟨_, _, rfl, rfl, hab⟩
  · rintro (⟨rfl, rfl⟩ | ⟨a, b, rfl, rfl, hab⟩)
    · exact .none
    · exact .some hab

/-- The elements of related lists at an index are related. -/
theorem rel_getElem? {α β : Type} {r : α → β → Prop} {as : List α} {bs : List β}
    (h : List.Forall₂ r as bs) (i : Nat) : Option.Rel r as[i]? bs[i]? := by
  induction h generalizing i with
  | nil => exact .none
  | cons hab _ ih =>
      cases i with
      | zero => exact .some hab
      | succ i => exact ih i

/-- Related lists have the same values of what related elements agree on. -/
theorem map_eq_of_forall₂ {α β γ : Type} {r : α → β → Prop} {as : List α} {bs : List β}
    {f : α → γ} {g : β → γ} (hfg : ∀ {a b}, r a b → g b = f a) (h : List.Forall₂ r as bs) :
    bs.map g = as.map f := by
  induction h with
  | nil => rfl
  | cons hab _ ih => rw [List.map_cons, List.map_cons, hfg hab, ih]

end SourceMap
