import Rorthox.Lib.Prog

/-!
# Loops that end

A `while` loop as a body that gives the next state of the loop or its result. Fuel alone
does not say that a loop ends: its end looks like an error. A loop is over after `n` turns
when it does not matter what would come then.
-/

namespace Rorthox.Lib.Prog

variable {σ ε α β τ : Type}

/-- `n` turns of the loop, and `stuck` should it still go on. -/
def loop (stuck : α → Prog σ ε β) (body : α → Prog σ ε (α ⊕ β)) : Nat → α → Prog σ ε β
  | 0, a => stuck a
  | n + 1, a => body a >>= Sum.elim (loop stuck body n) pure

/-- The loop is over after `n` turns and does what `m` does. -/
def LoopIs (body : α → Prog σ ε (α ⊕ β)) (n : Nat) (a : α) (m : Prog σ ε β) : Prop :=
  ∀ stuck, loop stuck body n a = m

variable {body : α → Prog σ ε (α ⊕ β)} {n : Nat} {a : α} {m : Prog σ ε β}

theorem loop_add (stuck : α → Prog σ ε β) (k : Nat) :
    loop stuck body (n + k) a = loop (loop stuck body k) body n a := by
  induction n generalizing a with
  | zero => rw [Nat.zero_add, loop]
  | succ n ih =>
    rw [Nat.succ_add, loop, loop]
    congr 1
    funext r
    cases r with
    | inl a' => exact ih
    | inr b => rfl

/-- More turns change nothing. -/
theorem LoopIs.mono (h : LoopIs body n a m) {k : Nat} (hk : n ≤ k) : LoopIs body k a m := by
  intro stuck
  obtain ⟨j, rfl⟩ := Nat.exists_eq_add_of_le hk
  rw [loop_add]
  exact h _

/-! ### Equations -/

section Equations

variable {γ ε' : Type}

theorem raise_bind (e : ε) (f : α → Prog σ ε γ) : (raise e >>= f) = raise e := rfl

theorem refuse_of {c : Prop} [Decidable c] (h : c) (e : ε) :
    (refuse c e : Prog σ ε Unit) = raise e :=
  if_pos h

theorem refuse_of_not {c : Prop} [Decidable c] (h : ¬ c) (e : ε) :
    (refuse c e : Prog σ ε Unit) = pure () :=
  if_neg h

theorem recode_pure (f : ε → ε') (a : α) : (pure a : Prog σ ε α).recode f = pure a := rfl

theorem recode_raise (f : ε → ε') (e : ε) : (raise e : Prog σ ε α).recode f = raise (f e) := rfl

theorem recode_look (f : ε → ε') (g : σ → α) :
    (look g : Prog σ ε α).recode f = (look g : Prog σ ε' α) := rfl

/-- What was looked up is a part of the state at hand. -/
theorem look_congr {g : σ → α} {k k' : α → Prog σ ε γ} {s : σ} (h : k (g s) = k' (g s)) :
    (look g >>= k) s = (look g >>= k') s := congrFun h s

theorem recode_bind (f : ε → ε') (m : Prog σ ε α) (k : α → Prog σ ε γ) :
    (m >>= k).recode f = m.recode f >>= fun a => (k a).recode f := by
  funext s
  rw [bind_apply, recode, recode, bind_apply]
  rcases m s with ⟨_ | a, s'⟩ <;> rfl

theorem recode_refuse (f : ε → ε') (c : Prop) [Decidable c] (e : ε) :
    (refuse c e : Prog σ ε Unit).recode f = refuse c (f e) := by
  by_cases h : c
  · rw [refuse_of h, refuse_of h, recode_raise]
  · rw [refuse_of_not h, refuse_of_not h, recode_pure]

theorem recode_undo (f : ε → ε') (m : Prog σ ε α) (g : σ → σ) :
    (undo m g).recode f = undo (m.recode f) g := by
  funext s
  rw [recode, undo, undo, recode]
  rcases m s with ⟨_ | a, s'⟩ <;> rfl

theorem undo_bind_pure (m : Prog σ ε α) (g : σ → σ) (f : α → γ) :
    (undo m g >>= fun a => pure (f a)) = undo (m >>= fun a => pure (f a)) g := by
  funext s
  rw [bind_apply, undo, undo, bind_apply]
  rcases m s with ⟨_ | a, s'⟩ <;> rfl

end Equations

/-! ### What a program leaves alone -/

/-- `m` does not change the part `f` of the state. -/
def Keeps (f : σ → τ) (m : Prog σ ε α) : Prop := ∀ s, Ends m s fun _ s' => f s' = f s

namespace Keeps

variable {f : σ → τ} {m : Prog σ ε α}

theorem pure (a : α) : Keeps f (Pure.pure a : Prog σ ε α) := fun _ => ends_pure rfl

theorem raise (e : ε) : Keeps f (Prog.raise e : Prog σ ε α) := fun _ => ends_raise rfl

theorem look (g : σ → α) : Keeps f (Prog.look g : Prog σ ε α) := fun _ => ends_iff.mpr rfl

theorem bind {k : α → Prog σ ε β} (hm : Keeps f m) (hk : ∀ a, Keeps f (k a)) : Keeps f (m >>= k) :=
  fun s => (hm s).bind (fun a s' h => (hk a s').mono fun _ _ h' => h'.trans h) fun _ _ h => h

theorem undo {g : σ → σ} (hm : Keeps f m) (hg : ∀ s, f (g s) = f s) : Keeps f (Prog.undo m g) :=
  fun s => (hm s).undo (fun _ _ h => h) fun _ s' h => (hg s').trans h

theorem recode {ε' : Type} {g : ε → ε'} (hm : Keeps f m) : Keeps f (m.recode g) :=
  fun s => (hm s).recode (fun _ _ h => h) fun _ _ h => h

theorem finish {g : σ → σ} (hm : Keeps f m) (hg : ∀ s, f (g s) = f s) : Keeps f (Prog.finish m g) :=
  fun s => (hm s).finish fun _ s' h => (hg s').trans h

theorem change {g : σ → σ} (hg : ∀ s, f (g s) = f s) : Keeps f (Prog.change g : Prog σ ε Unit) :=
  fun s => ends_iff.mpr (hg s)

/-- What follows a program and leaves a part alone does not show there. -/
theorem after {k : α → Prog σ ε β} (hk : ∀ a, Keeps f (k a)) (s : σ) :
    f ((m >>= k) s).2 = f (m s).2 := by
  rw [bind_apply]
  rcases m s with ⟨_ | a, s'⟩
  · rfl
  · exact ends_iff.mp (hk a s')

/-- What leaves a part alone leaves alone what is read off it. -/
theorem read {υ : Type} (g : τ → υ) (hm : Keeps f m) : Keeps (fun s => g (f s)) m :=
  fun s => (hm s).mono fun _ _ h => congrArg g h

theorem refuse (c : Prop) [Decidable c] (e : ε) : Keeps f (Prog.refuse c e : Prog σ ε Unit) := by
  rw [Prog.refuse]
  split
  · exact raise e
  · exact pure ()

theorem ite {c : Prop} [Decidable c] {m' : Prog σ ε α} (h : Keeps f m) (h' : Keeps f m') :
    Keeps f (if c then m else m') := by
  split
  · exact h
  · exact h'

end Keeps

end Rorthox.Lib.Prog
