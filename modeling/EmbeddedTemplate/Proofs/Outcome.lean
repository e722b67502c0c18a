
namespace EmbeddedTemplate

variable {ε α β : Type} {x : Except ε α} {f : α → Except ε β} {b : β} {e : ε}

@[simp] theorem ok_bind (a : α) (f : α → Except ε β) : (Except.ok a >>= f) = f a := rfl

@[simp] theorem error_bind (e : ε) (f : α → Except ε β) : (Except.error e >>= f) = .error e := rfl

theorem bind_eq_ok : (x >>= f) = .ok b ↔ ∃ a, x = .ok a ∧ f a = .ok b := by
  cases x with
  | error e => simp
  | ok a => simp

theorem bind_eq_error : (x >>= f) = .error e ↔
    x = .error e ∨ ∃ a, x = .ok a ∧ f a = .error e := by
  cases x with
  | error e => simp
  | ok a => simp

section

variable {ε' : Type} (g : ε → ε')

@[simp] theorem mapError_ok (a : α) : (Except.ok a).mapError g = .ok a := rfl

@[simp] theorem mapError_error (e : ε) :
    (Except.error e : Except ε α).mapError g = .error (g e) := rfl

end

theorem mapError_eq_ok {ε' : Type} {a : α} {f : ε → ε'} : x.mapError f = .ok a ↔ x = .ok a := by
  cases x <;> simp

def fault? : Except ε α → Option ε
  | .error e => some e
  | .ok _ => none

theorem fault?_eq_some : fault? x = some e ↔ x = .error e := by
  cases x <;> simp [fault?]

theorem toOption_eq_some {a : α} : x.toOption = some a ↔ x = .ok a := by
  cases x <;> simp [Except.toOption]

theorem isSome_toOption : x.toOption.isSome ↔ ∃ a, x = .ok a := by
  cases x <;> simp [Except.toOption]

theorem map_bind_congr {α' β' : Type} {y : Except ε α} {f' : α → Except ε β} {g : α → α'}
    {k : β → β'} (h : x.map g = y.map g)
    (hf : ∀ a b, g a = g b → (f a).map k = (f' b).map k) :
    (x >>= f).map k = (y >>= f').map k := by
  cases x with
  | error e =>
    cases y with
    | error e' => cases h; rfl
    | ok b => cases h
  | ok a =>
    cases y with
    | error e' => cases h
    | ok b => exact hf a b (Except.ok.inj h)

theorem map_bind_comm {α' β' : Type} {g : α → α'} {f' : α' → Except ε β'} {k : β → β'}
    (h : ∀ a, f' (g a) = (f a).map k) : (x.map g >>= f') = (x >>= f).map k := by
  cases x with
  | error e => rfl
  | ok a => exact h a

/-- Changes the value, or the fault. -/
def mapBoth {ε' α' : Type} (g : ε → ε') (f : α → α') : Except ε α → Except ε' α'
  | .ok a => .ok (f a)
  | .error e => .error (g e)

theorem mapBoth_bind {ε' α' β' : Type} {g : ε → ε'} {k : α → α'} {f' : α' → Except ε' β'}
    {k' : β → β'} (h : ∀ a, f' (k a) = mapBoth g k' (f a)) :
    mapBoth g k x >>= f' = mapBoth g k' (x >>= f) := by
  cases x with
  | error e => rfl
  | ok a => exact h a

theorem pure_eq_ok (a : α) : (pure a : Except ε α) = .ok a := rfl

def Gives (P : α → Prop) (x : Except ε α) : Prop := ∀ a, x = .ok a → P a

section

variable {P : α → Prop} {Q : β → Prop}

theorem Gives.pure {a : α} (h : P a) : Gives P (pure a : Except ε α) := by
  rintro _ ⟨⟩
  exact h

theorem Gives.error : Gives P (.error e) := nofun

theorem Gives.bind (hx : Gives P x) (hf : ∀ a, P a → Gives Q (f a)) : Gives Q (x >>= f) := by
  cases x with
  | error e => exact Gives.error
  | ok a => exact hf a (hx a rfl)

theorem Gives.ite {p : Prop} [Decidable p] {y : Except ε α} (hx : Gives P x) (hy : Gives P y) :
    Gives P (if p then x else y) := by
  split
  · exact hx
  · exact hy

theorem Gives.cons {a : α} {xs : Except ε (List α)} (ha : P a) (h : Gives (∀ b ∈ ·, P b) xs) :
    Gives (∀ b ∈ ·, P b) (do return a :: (← xs)) :=
  h.bind fun _ hl => .pure (List.forall_mem_cons.2 ⟨ha, hl⟩)

theorem Gives.mapM {g : β → Except ε α} {bs : List β} (h : ∀ b ∈ bs, Gives P (g b)) :
    Gives (∀ a ∈ ·, P a) (bs.mapM g) := by
  induction bs with
  | nil => exact .pure nofun
  | cons b bs ih =>
    obtain ⟨hb, hbs⟩ := List.forall_mem_cons.1 h
    rw [List.mapM_cons]
    exact .bind hb fun _ ha => .cons ha (ih hbs)

end

end EmbeddedTemplate
