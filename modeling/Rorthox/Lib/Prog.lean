import Mathlib

/-!
# Programs over a state that may fail

A C function reads and changes a state and ends with a value or a status. `Ends`
says what holds of the result and of the state it leaves; the rules below take a
program apart along the way it is written.
-/

namespace Rorthox.Lib

/-! ## Results -/

theorem except_bind_ok {ε α β : Type} {x : Except ε α} {f : α → Except ε β} {b : β} :
    x >>= f = .ok b ↔ ∃ a, x = .ok a ∧ f a = .ok b := by
  cases x with
  | error e => exact ⟨fun h => (by cases h), fun ⟨a, h, _⟩ => (by cases h)⟩
  | ok a => exact ⟨fun h => ⟨a, rfl, h⟩, fun ⟨a', h, hf⟩ => by cases h; exact hf⟩

theorem except_guard_ok {ε α : Type} {c : Prop} [Decidable c] {e : ε} {x : Except ε α} {a : α} :
    (if c then .error e else x) = .ok a ↔ ¬ c ∧ x = .ok a := by
  by_cases h : c
  · rw [if_pos h]
    exact ⟨fun h' => (by cases h'), fun h' => absurd h h'.1⟩
  · rw [if_neg h]
    exact ⟨fun h' => ⟨h, h'⟩, fun h' => h'.2⟩

theorem except_mapError_ok {ε ε' α : Type} {x : Except ε α} {f : ε → ε'} {a : α} :
    x.mapError f = .ok a ↔ x = .ok a := by
  cases x with
  | error e => exact ⟨fun h => (by cases h), fun h => (by cases h)⟩
  | ok b => exact ⟨fun h => (by cases h; rfl), fun h => (by cases h; rfl)⟩

theorem except_map_ok {ε α β : Type} {x : Except ε α} {f : α → β} {b : β} :
    x.map f = .ok b ↔ ∃ a, x = .ok a ∧ f a = b := by
  cases x with
  | error e => exact ⟨fun h => (by cases h), fun ⟨a, h, _⟩ => (by cases h)⟩
  | ok a =>
    exact ⟨fun h => ⟨a, rfl, Except.ok.inj h⟩, fun ⟨a', h, hf⟩ => by cases h; rw [← hf]; rfl⟩

/-- A function over the state `σ`: its value or its error, and the state it leaves. -/
def Prog (σ ε α : Type) := σ → Except ε α × σ

namespace Prog

variable {σ ε α β : Type}

instance : Monad (Prog σ ε) where
  pure a := fun s => (.ok a, s)
  bind m f := fun s =>
    match m s with
    | (.ok a, s') => f a s'
    | (.error e, s') => (.error e, s')

def raise (e : ε) : Prog σ ε α := fun s => (.error e, s)

/-- Stop with `e` when `c` holds. -/
def refuse (c : Prop) [Decidable c] (e : ε) : Prog σ ε Unit := if c then raise e else pure ()

def look (f : σ → α) : Prog σ ε α := fun s => (.ok (f s), s)

def change (f : σ → σ) : Prog σ ε Unit := fun s => (.ok (), f s)

/-- Go on with the outcome as a value, whatever it is. -/
def attempt (m : Prog σ ε α) : Prog σ ε (Except ε α) := fun s => (.ok (m s).1, (m s).2)

/-- Clean up when `m` fails. -/
def undo (m : Prog σ ε α) (f : σ → σ) : Prog σ ε α := fun s =>
  match m s with
  | (.ok a, s') => (.ok a, s')
  | (.error e, s') => (.error e, f s')

/-- Clean up after `m`, however it ends. -/
def finish (m : Prog σ ε α) (f : σ → σ) : Prog σ ε α := fun s => ((m s).1, f (m s).2)

/-- Hand the error of `m` on as another one. -/
def recode {ε' : Type} (m : Prog σ ε α) (f : ε → ε') : Prog σ ε' α := fun s =>
  match m s with
  | (.ok a, s') => (.ok a, s')
  | (.error e, s') => (.error (f e), s')

@[simp] theorem pure_apply (a : α) (s : σ) : (pure a : Prog σ ε α) s = (.ok a, s) := rfl

@[simp] theorem raise_apply (e : ε) (s : σ) : (raise e : Prog σ ε α) s = (.error e, s) := rfl

@[simp] theorem look_apply (f : σ → α) (s : σ) : (look f : Prog σ ε α) s = (.ok (f s), s) := rfl

@[simp] theorem change_apply (f : σ → σ) (s : σ) : (change f : Prog σ ε Unit) s = (.ok (), f s) :=
  rfl

@[simp] theorem attempt_apply (m : Prog σ ε α) (s : σ) :
    attempt m s = (.ok (m s).1, (m s).2) := rfl

@[simp] theorem finish_apply (m : Prog σ ε α) (f : σ → σ) (s : σ) :
    finish m f s = ((m s).1, f (m s).2) := rfl

theorem bind_ok {m : Prog σ ε α} {f : α → Prog σ ε β} {s s' : σ} {a : α}
    (h : m s = (.ok a, s')) : (m >>= f) s = f a s' := by
  show (match m s with | (.ok a, s') => f a s' | (.error e, s') => (.error e, s')) = _
  rw [h]

theorem bind_error {m : Prog σ ε α} {f : α → Prog σ ε β} {s s' : σ} {e : ε}
    (h : m s = (.error e, s')) : (m >>= f) s = (.error e, s') := by
  show (match m s with | (.ok a, s') => f a s' | (.error e, s') => (.error e, s')) = _
  rw [h]

theorem bind_error_cases {m : Prog σ ε α} {f : α → Prog σ ε β} {s : σ} {e : ε}
    (h : ((m >>= f) s).1 = .error e) :
    (m s).1 = .error e ∨ ∃ a s', m s = (.ok a, s') ∧ (f a s').1 = .error e := by
  cases hm : m s with
  | mk r s' =>
    cases r with
    | error e' =>
      rw [bind_error hm] at h
      cases h
      exact Or.inl rfl
    | ok a =>
      rw [bind_ok hm] at h
      exact Or.inr ⟨a, s', rfl, h⟩

theorem bind_apply (m : Prog σ ε α) (f : α → Prog σ ε β) (s : σ) :
    (m >>= f) s = match m s with
      | (.ok a, s') => f a s'
      | (.error e, s') => (.error e, s') := rfl

instance : LawfulMonad (Prog σ ε) := by
  refine LawfulMonad.mk' _ ?_ (fun _ _ => rfl) ?_
  · intro α m
    funext s
    show (match m s with | (.ok a, s') => (.ok a, s') | (.error e, s') => (.error e, s')) = m s
    rcases m s with ⟨_ | _, _⟩ <;> rfl
  · intro α β γ m f g
    funext s
    rw [bind_apply, bind_apply, bind_apply]
    rcases m s with ⟨_ | _, _⟩ <;> rfl

/-! ## What holds at the end -/

/-- `Q` holds of what `m` returns from `s` and of the state it leaves. -/
def Ends (m : Prog σ ε α) (s : σ) (Q : Except ε α → σ → Prop) : Prop := Q (m s).1 (m s).2

theorem ends_iff {m : Prog σ ε α} {s : σ} {Q : Except ε α → σ → Prop} :
    Ends m s Q ↔ Q (m s).1 (m s).2 := Iff.rfl

theorem Ends.mono {m : Prog σ ε α} {s : σ} {Q R : Except ε α → σ → Prop} (h : Ends m s Q)
    (himp : ∀ r s', Q r s' → R r s') : Ends m s R := himp _ _ h

theorem ends_pure {a : α} {s : σ} {Q : Except ε α → σ → Prop} (h : Q (.ok a) s) :
    Ends (pure a) s Q := h

theorem ends_raise {e : ε} {s : σ} {Q : Except ε α → σ → Prop} (h : Q (.error e) s) :
    Ends (raise e) s Q := h

theorem Ends.bind {m : Prog σ ε α} {f : α → Prog σ ε β} {s : σ} {R : Except ε α → σ → Prop}
    {Q : Except ε β → σ → Prop} (h : Ends m s R)
    (hok : ∀ a s', R (.ok a) s' → Ends (f a) s' Q)
    (herr : ∀ e s', R (.error e) s' → Q (.error e) s') : Ends (m >>= f) s Q := by
  unfold Ends at *
  cases hm : m s with
  | mk r s' =>
    rw [hm] at h
    cases r with
    | ok a => rw [bind_ok hm]; exact hok a s' h
    | error e => rw [bind_error hm]; exact herr e s' h

theorem ends_refuse {c : Prop} [Decidable c] {e : ε} {s : σ} {Q : Except ε Unit → σ → Prop}
    (hyes : c → Q (.error e) s) (hno : ¬ c → Q (.ok ()) s) : Ends (refuse c e) s Q := by
  unfold refuse
  by_cases h : c
  · rw [if_pos h]; exact hyes h
  · rw [if_neg h]; exact hno h

/-- A test at the head of a program. -/
theorem ends_guard {c : Prop} [Decidable c] {e : ε} {f : Unit → Prog σ ε α} {s : σ}
    {Q : Except ε α → σ → Prop} (hyes : c → Q (.error e) s) (hno : ¬ c → Ends (f ()) s Q) :
    Ends (refuse c e >>= f) s Q := by
  unfold refuse
  by_cases h : c
  · rw [if_pos h]
    exact hyes h
  · rw [if_neg h]
    exact hno h

theorem ends_look {g : σ → β} {f : β → Prog σ ε α} {s : σ} {Q : Except ε α → σ → Prop}
    (h : Ends (f (g s)) s Q) : Ends (look g >>= f) s Q := h

theorem Ends.attempt {m : Prog σ ε α} {s : σ} {Q : Except ε α → σ → Prop} (h : Ends m s Q) :
    Ends (attempt m) s (fun r s' => ∃ o, r = .ok o ∧ Q o s') := ⟨_, rfl, h⟩

/-- Go on from a step whose outcome is known. -/
theorem Ends.step {m : Prog σ ε α} {f : α → Prog σ ε β} {s s' : σ} {a : α}
    {Q : Except ε β → σ → Prop}
    (h : m s = (.ok a, s')) (hf : Ends (f a) s' Q) : Ends (m >>= f) s Q := by
  unfold Ends
  rw [bind_ok h]
  exact hf

theorem Ends.undo {m : Prog σ ε α} {f : σ → σ} {s : σ} {R Q : Except ε α → σ → Prop}
    (h : Ends m s R) (hok : ∀ a s', R (.ok a) s' → Q (.ok a) s')
    (herr : ∀ e s', R (.error e) s' → Q (.error e) (f s')) : Ends (undo m f) s Q := by
  unfold Ends Prog.undo at *
  cases hm : m s with
  | mk r s' =>
    rw [hm] at h
    cases r with
    | ok a => exact hok a s' h
    | error e => exact herr e s' h

theorem Ends.finish {m : Prog σ ε α} {f : σ → σ} {s : σ} {R Q : Except ε α → σ → Prop}
    (h : Ends m s R) (hend : ∀ r s', R r s' → Q r (f s')) : Ends (finish m f) s Q := hend _ _ h

theorem Ends.recode {ε' : Type} {m : Prog σ ε α} {f : ε → ε'} {s : σ} {R : Except ε α → σ → Prop}
    {Q : Except ε' α → σ → Prop} (h : Ends m s R) (hok : ∀ a s', R (.ok a) s' → Q (.ok a) s')
    (herr : ∀ e s', R (.error e) s' → Q (.error (f e)) s') : Ends (recode m f) s Q := by
  unfold Ends Prog.recode at *
  cases hm : m s with
  | mk r s' =>
    rw [hm] at h
    cases r with
    | ok a => exact hok a s' h
    | error e => exact herr e s' h

/-! ## Which errors -/

/-- Every error of `m` is one of `P`. -/
def Raises (P : ε → Prop) (m : Prog σ ε α) : Prop :=
  ∀ s, Ends m s fun r _ => ∀ e, r = .error e → P e

section

variable {P : ε → Prop}

theorem Raises.of_error {m : Prog σ ε α} (h : Raises P m) {s : σ} {e : ε}
    (he : (m s).1 = .error e) : P e :=
  h s e he

theorem raises_pure (a : α) : Raises P (pure a : Prog σ ε α) := fun _ _ h => (by cases h)

theorem raises_raise {e : ε} (h : P e) : Raises P (raise e : Prog σ ε α) :=
  fun _ _ he => (by cases he; exact h)

theorem raises_look (f : σ → α) : Raises P (look f : Prog σ ε α) := fun _ _ h => (by cases h)

theorem raises_change (f : σ → σ) : Raises P (change f : Prog σ ε Unit) := fun _ _ h => (by cases h)

theorem raises_refuse (c : Prop) [Decidable c] {e : ε} (h : P e) :
    Raises P (refuse c e : Prog σ ε Unit) := by
  intro s
  refine ends_refuse (fun _ e' he => ?_) fun _ e' he => (by cases he)
  cases he
  exact h

theorem Raises.bind {m : Prog σ ε α} {f : α → Prog σ ε β} (h : Raises P m)
    (hf : ∀ a, Raises P (f a)) : Raises P (m >>= f) := by
  intro s
  refine (h s).bind (fun a s' _ => hf a s') fun e s' he e' he' => ?_
  cases he'
  exact he e rfl

theorem Raises.undo {m : Prog σ ε α} (h : Raises P m) (f : σ → σ) : Raises P (undo m f) := by
  intro s
  refine (h s).undo (fun a s' _ e he => (by cases he)) fun e s' he e' he' => ?_
  cases he'
  exact he e rfl

theorem Raises.finish {m : Prog σ ε α} (h : Raises P m) (f : σ → σ) :
    Raises P (finish m f) := fun s =>
  (h s).finish fun _ _ hr => hr

theorem raises_recode {ε' : Type} {Q : ε' → Prop} (m : Prog σ ε α) {f : ε → ε'} (h : ∀ e, Q (f e)) :
    Raises Q (recode m f) := by
  intro s
  have hm : Ends m s fun _ _ => True := trivial
  refine hm.recode (fun a s' _ e he => (by cases he)) fun e s' _ e' he => ?_
  cases he
  exact h e

theorem Raises.ite {c : Prop} [Decidable c] {m m' : Prog σ ε α} (h : Raises P m)
    (h' : Raises P m') : Raises P (if c then m else m') := by
  by_cases hc : c
  · rw [if_pos hc]
    exact h
  · rw [if_neg hc]
    exact h'

end

/-! ## More fuel -/

/-- Wherever `f` has a value, `g` does the same. -/
def Below (f g : Prog σ ε α) : Prop := ∀ ⦃s a s'⦄, f s = (.ok a, s') → g s = (.ok a, s')

theorem Below.refl (f : Prog σ ε α) : Below f f := fun _ _ _ h => h

theorem below_raise (e : ε) (g : Prog σ ε α) : Below (raise e) g := fun _ _ _ h => (by cases h)

theorem Below.bind {f f' : Prog σ ε α} {g g' : α → Prog σ ε β} (hf : Below f f')
    (hg : ∀ a, Below (g a) (g' a)) : Below (f >>= g) (f' >>= g') := by
  intro s b s' h
  cases hm : f s with
  | mk r s1 =>
    cases r with
    | error e =>
      rw [bind_error hm] at h
      cases h
    | ok a =>
      rw [bind_ok hm] at h
      rw [bind_ok (hf hm)]
      exact hg a h

theorem Below.ite {c : Prop} [Decidable c] {f f' g g' : Prog σ ε α} (hf : Below f f')
    (hg : Below g g') : Below (if c then f else g) (if c then f' else g') := by
  by_cases h : c
  · rw [if_pos h, if_pos h]
    exact hf
  · rw [if_neg h, if_neg h]
    exact hg

end Prog

end Rorthox.Lib
