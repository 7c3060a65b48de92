import Rorthox.Fat.Driver
import Rorthox.Lib.Loop

/-!
# Functions that only look

A rule for every way a reading function of the driver is put together. On a volume
`v` with disk content `img` such a function gives the value `den` computed from the
two alone, unless an allocation or a device read failed; in every case it changes
nothing but the heap, and the heap only by what the result owns.
-/

namespace Rorthox.Fat

open Lib Disk Memory

variable {α β γ δ : Type}

/-- What a caller gets with a value: the addresses it has to free, a fact about it,
and the part of it that does not depend on addresses. -/
structure Shape (α β : Type) where
  own : α → Multiset Nat
  good : α → Prop
  view : α → β

/-- A value that owns nothing new while `h` is held. -/
def Shape.val (h : Multiset Nat) : Shape α α := ⟨fun _ => h, fun _ => True, id⟩

/-- The addresses a program leaves to its caller. -/
def Shape.owned (sh : Shape α β) (err : Multiset Nat) : Except Errno α → Multiset Nat
  | .ok a => sh.own a
  | .error _ => err

/-- No device event and no refused allocation. -/
def Calm (s s' : FsState) : Prop :=
  s'.dev.log = s.dev.log ∧ s'.heap.refusals = s.heap.refusals

/-- An allocation was refused, or a device read failed; either is the last event. -/
inductive Trouble (s s' : FsState) : Prop where
  | heap (hlog : s'.dev.log = s.dev.log) (h : s.heap.refusals < s'.heap.refusals)
  | read (lba n : Nat) (hlog : s'.dev.log = .readFailed lba :: s.dev.log)
    (h : s.dev.fates n ≠ .done)

/-- Only the heap and the device's log and clock may differ. -/
structure Quiet (s s' : FsState) : Prop where
  same : s.dev.Same s'.dev
  vol : s'.vol = s.vol
  mounted : s'.mounted = s.mounted
  files : s'.files = s.files
  image : s'.dev.image = s.dev.image

structure ReadsTo (held err : Multiset Nat) (sh : Shape α β) (den : Except Errno β) (s : FsState)
    (r : Except Errno α) (s' : FsState) : Prop where
  quiet : Quiet s s'
  heap : ∀ base m, Owns base (held + m) s.heap → Owns base (sh.owned err r + m) s'.heap
  good : ∀ a, r = .ok a → sh.good a
  outcome : (Calm s s' ∧ r.map sh.view = den) ∨
    (Trouble s s' ∧ ∃ e, r = .error e ∧ e ≠ .enoent)

/-- `m` reads the value `den` off a volume `v` with content `img`. -/
def Reading (v : FatPrivate) (img : Bytes) (held err : Multiset Nat) (sh : Shape α β)
    (den : Except Errno β) (m : FsProg α) : Prop :=
  ∀ s, s.vol = v → s.dev.image = img → Prog.Ends m s (ReadsTo held err sh den s)

variable {α : Type} {s s' s'' : FsState} {e : Errno} {c : Prop} {q : Multiset Nat}
  {f : FsState → FsState}

/-- A program that reads gives its value when nothing failed. -/
theorem ReadsTo.calm_ok {held err : Multiset Nat} {sh : Shape α β} {den : Except Errno β}
    {r : Except Errno α} (h : ReadsTo held err sh den s r s') (hcalm : Calm s s') :
    r.map sh.view = den := by
  rcases h.outcome with ⟨-, hview⟩ | ⟨htrouble, -⟩
  · exact hview
  · exfalso
    cases htrouble with
    | heap _ hlt => exact absurd hcalm.2 (Nat.ne_of_gt hlt)
    | read lba n hlog _ =>
      rw [hcalm.1] at hlog
      exact List.cons_ne_self _ _ hlog.symm

theorem ReadsTo.ok_view {held err : Multiset Nat} {sh : Shape α β} {den : Except Errno β}
    {r : Except Errno α} (h : ReadsTo held err sh den s r s') {a : α} (hr : r = .ok a) :
    den = .ok (sh.view a) := by
  rcases h.outcome with ⟨-, hview⟩ | ⟨-, e, he, -⟩
  · rw [← hview, hr]
    rfl
  · rw [hr] at he
    cases he

/-- What a program that reads has done, when nothing is held. -/
theorem Reading.ran {sh : Shape α β} {den : Except Errno β} {m : FsProg α}
    (h : Reading s.vol s.dev.image 0 0 sh den m) : ReadsTo 0 0 sh den s (m s).1 (m s).2 :=
  Prog.ends_iff.mp (h s rfl rfl)

theorem Quiet.refl (s : FsState) : Quiet s s := ⟨.refl _, rfl, rfl, rfl, rfl⟩

theorem Quiet.trans (h : Quiet s s') (h' : Quiet s' s'') : Quiet s s'' :=
  ⟨h.1.trans h'.1, h'.2.trans h.2, h'.3.trans h.3, h'.4.trans h.4, h'.5.trans h.5⟩

theorem Calm.trans (h : Calm s s') (h' : Calm s' s'') : Calm s s'' :=
  ⟨h'.1.trans h.1, h'.2.trans h.2⟩

theorem Trouble.after (hq : Quiet s s') (h : Calm s s') (h' : Trouble s' s'') : Trouble s s'' := by
  cases h' with
  | heap hlog hr => exact .heap (hlog.trans h.1) (by rw [← h.2]; exact hr)
  | read lba n hlog hn => exact .read lba n (by rw [hlog, h.1]) (by rw [← hq.same.fates]; exact hn)

variable {v : FatPrivate} {img : Bytes} {held err : Multiset Nat}

/-! ## Rules -/

theorem reading_pure {sh : Shape α β} {a : α} {b : β} (hview : sh.view a = b)
    (hown : sh.own a = held) (hgood : sh.good a) : Reading v img held err sh (.ok b) (pure a) := by
  intro s _ _
  refine ⟨.refl s, fun base m h => ?_, ?_, Or.inl ⟨⟨rfl, rfl⟩, ?_⟩⟩
  · show Owns base (sh.own a + m) s.heap
    rw [hown]
    exact h
  · intro a' ha
    cases ha
    exact hgood
  · show Except.ok (sh.view a) = _
    rw [hview]

theorem reading_raise {sh : Shape α β} (herr : err = held) :
    Reading v img held err sh (.error e) (Prog.raise e) := by
  intro s _ _
  refine ⟨.refl s, fun base m h => ?_, fun a ha => (by cases ha), Or.inl ⟨⟨rfl, rfl⟩, rfl⟩⟩
  show Owns base (err + m) s.heap
  rw [herr]
  exact h

theorem Reading.bind {sh : Shape α β} {sh' : Shape γ δ} {den : Except Errno β}
    {g : β → Except Errno δ} {m : FsProg α} {f : α → FsProg γ}
    (h : Reading v img held err sh den m)
    (hf : ∀ a, sh.good a → den = .ok (sh.view a) →
      Reading v img (sh.own a) err sh' (g (sh.view a)) (f a)) :
    Reading v img held err sh' (den >>= g) (m >>= f) := by
  intro s hv himg
  refine (h s hv himg).bind ?_ ?_
  · intro a s1 h1
    rcases h1.outcome with ⟨hcalm, hden⟩ | ⟨-, e, hr, -⟩
    · refine (hf a (h1.good a rfl) hden.symm s1 (h1.quiet.vol.trans hv)
        (h1.quiet.image.trans himg)).mono ?_
      intro r s2 h2
      refine ⟨h1.quiet.trans h2.quiet, fun base m ho => h2.heap base m (h1.heap base m ho),
        h2.good, ?_⟩
      rcases h2.outcome with ⟨hcalm', hden'⟩ | ⟨ht, he⟩
      · refine Or.inl ⟨hcalm.trans hcalm', ?_⟩
        rw [hden', ← hden]
        rfl
      · exact Or.inr ⟨ht.after h1.quiet hcalm, he⟩
    · cases hr
  · intro e s1 h1
    refine ⟨h1.quiet, h1.heap, fun a ha => (by cases ha), ?_⟩
    rcases h1.outcome with ⟨hcalm, hden⟩ | ⟨ht, e', hr, hne⟩
    · refine Or.inl ⟨hcalm, ?_⟩
      rw [← hden]
      rfl
    · cases hr
      exact Or.inr ⟨ht, e, rfl, hne⟩

theorem Reading.congr {sh : Shape α β} {den den' : Except Errno β} {m : FsProg α}
    (h : Reading v img held err sh den m) (he : den = den') : Reading v img held err sh den' m :=
  he ▸ h

/-- What is owned may be counted in another order. -/
theorem Reading.reown {sh : Shape α β} {own : α → Multiset Nat} {den : Except Errno β}
    {m : FsProg α} (h : Reading v img held err sh den m) (he : ∀ a, own a = sh.own a) :
    Reading v img held err ⟨own, sh.good, sh.view⟩ den m := by
  obtain rfl : own = sh.own := funext he
  exact h

/-- A step that cannot fail but for the device or the heap. -/
theorem Reading.andThen {sh : Shape α β} {sh' : Shape γ δ} {b : β} {den : Except Errno δ}
    {m : FsProg α} {f : α → FsProg γ} (h : Reading v img held err sh (.ok b) m)
    (hf : ∀ a, sh.good a → sh.view a = b → Reading v img (sh.own a) err sh' den (f a)) :
    Reading v img held err sh' den (m >>= f) :=
  h.bind (g := fun _ => den) fun a hg hb => hf a hg (Except.ok.inj hb).symm

theorem Reading.guard [Decidable c] {sh : Shape α β} {den : Except Errno β} {f : Unit → FsProg α}
    (h : ¬ c → Reading v img held held sh den (f ())) :
    Reading v img held held sh (if c then .error e else den) (Prog.refuse c e >>= f) := by
  by_cases hc : c
  · rw [if_pos hc]
    have hr : Reading v img held held (.val held) (.error e : Except Errno Unit)
        (Prog.refuse c e) := by
      unfold Prog.refuse
      rw [if_pos hc]
      exact reading_raise rfl
    exact hr.bind (g := fun _ => den) fun a _ ha => (by cases ha)
  · rw [if_neg hc]
    have hr : Reading v img held held (.val held) (.ok () : Except Errno Unit)
        (Prog.refuse c e) := by
      unfold Prog.refuse
      rw [if_neg hc]
      exact reading_pure rfl rfl trivial
    exact hr.andThen fun _ _ _ => h hc

theorem reading_refuse [Decidable c] {sh : Shape Unit Unit} (hown : sh.own () = held)
    (hgood : sh.good ()) :
    Reading v img held held sh (if c then .error e else .ok ()) (Prog.refuse c e) := by
  unfold Prog.refuse
  split
  · exact reading_raise rfl
  · exact reading_pure rfl hown hgood

/-- A test the caller knows to pass. -/
theorem Reading.pass [Decidable c] {sh : Shape α β} {den : Except Errno β} {f : Unit → FsProg α}
    (hc : ¬ c) (h : Reading v img held held sh den (f ())) :
    Reading v img held held sh den (Prog.refuse c e >>= f) :=
  (Reading.guard fun _ => h).congr (if_neg hc)

theorem reading_look {f : FsState → α} {a : α} (h : ∀ s, s.vol = v → f s = a) :
    Reading v img held held (.val held) (.ok a) (Prog.look f) := by
  intro s hv _
  refine ⟨.refl s, fun _ _ ho => ho, fun _ _ => trivial, Or.inl ⟨⟨rfl, rfl⟩, ?_⟩⟩
  show Except.ok (f s) = _
  rw [h s hv]

/-- A clean-up that frees `q`. -/
def Frees (q : Multiset Nat) (f : FsState → FsState) : Prop :=
  ∀ s, (f s).dev = s.dev ∧ (f s).vol = s.vol ∧ (f s).mounted = s.mounted ∧ (f s).files = s.files ∧
    (f s).heap.refusals = s.heap.refusals ∧
    ∀ base m, Owns base (q + m) s.heap → Owns base m (f s).heap

theorem frees_kfreeAt (p : Nat) : Frees {p} (kfreeAt p) := by
  intro s
  refine ⟨rfl, rfl, rfl, rfl, rfl, fun base m h => ?_⟩
  rw [Multiset.singleton_add] at h
  exact h.free

theorem Frees.comp {q' : Multiset Nat} {g : FsState → FsState} (hf : Frees q f) (hg : Frees q' g) :
    Frees (q + q') fun s => f (g s) := by
  intro s
  obtain ⟨h1, h2, h3, h4, h5, h6⟩ := hf (g s)
  obtain ⟨h1', h2', h3', h4', h5', h6'⟩ := hg s
  refine ⟨h1.trans h1', h2.trans h2', h3.trans h3', h4.trans h4', h5.trans h5', fun base m h => ?_⟩
  refine h6 base m (h6' base (q + m) ?_)
  rwa [← add_assoc, add_comm q' q]

theorem frees_nothing : Frees 0 id := fun _ =>
  ⟨rfl, rfl, rfl, rfl, rfl, fun _ m h => (zero_add m) ▸ h⟩

theorem Frees.quiet (h : Frees q f) (s : FsState) : Quiet s (f s) := by
  obtain ⟨h1, h2, h3, h4, -, -⟩ := h s
  exact ⟨h1 ▸ .refl _, h2, h3, h4, by rw [h1]⟩

theorem Frees.calm (h : Frees q f) (s : FsState) : Calm s (f s) := by
  obtain ⟨h1, -, -, -, h5, -⟩ := h s
  exact ⟨by rw [h1], h5⟩

theorem Trouble.before (h : Trouble s s') (h' : Calm s' s'') : Trouble s s'' := by
  cases h with
  | heap hlog hr => exact .heap (h'.1.trans hlog) (by rw [h'.2]; exact hr)
  | read lba n hlog hn => exact .read lba n (h'.1.trans hlog) hn

theorem Reading.finish {sh : Shape α β} {den : Except Errno β} {m : FsProg α} (hf : Frees q f)
    (h : Reading v img held (q + err) ⟨fun a => q + sh.own a, sh.good, sh.view⟩ den m) :
    Reading v img held err sh den (Prog.finish m f) := by
  intro s hv himg
  refine (h s hv himg).finish fun r s' h1 => ⟨h1.quiet.trans (hf.quiet s'), fun base m ho => ?_,
    h1.good, ?_⟩
  · have h2 := h1.heap base m ho
    refine (hf s').2.2.2.2.2 base _ ?_
    rw [← add_assoc]
    cases r with
    | ok _ | error _ => exact h2
  · rcases h1.outcome with ⟨hc, hd⟩ | ⟨ht, he⟩
    · exact Or.inl ⟨hc.trans (hf.calm s'), hd⟩
    · exact Or.inr ⟨ht.before (hf.calm s'), he⟩

theorem Reading.lookVol {sh : Shape α β} {den : Except Errno β} {f : FatPrivate → FsProg α}
    (h : Reading v img held held sh den (f v)) :
    Reading v img held held sh den (Prog.look (·.vol) >>= f) :=
  (reading_look fun _ hs => hs).andThen fun w _ hw => by
    obtain rfl : v = w := hw.symm
    exact h

theorem Reading.undo {sh : Shape α β} {den : Except Errno β} {m : FsProg α} (hf : Frees q f)
    (h : Reading v img held (q + err) sh den m) :
    Reading v img held err sh den (Prog.undo m f) := by
  intro s hv himg
  refine (h s hv himg).undo (fun a s' h1 => ?_) (fun e s' h1 => ?_)
  · exact ⟨h1.quiet, h1.heap, h1.good, h1.outcome⟩
  · refine ⟨h1.quiet.trans (hf.quiet s'), fun base m ho => ?_, fun a ha => (by cases ha), ?_⟩
    · refine (hf s').2.2.2.2.2 base _ ?_
      rw [← add_assoc]
      exact h1.heap base m ho
    · rcases h1.outcome with ⟨hc, hd⟩ | ⟨ht, he⟩
      · exact Or.inl ⟨hc.trans (hf.calm s'), hd⟩
      · exact Or.inr ⟨ht.before (hf.calm s'), he⟩

theorem Reading.recode {sh : Shape α β} {den : Except Errno β} {m : FsProg α} {f : Errno → Errno}
    (h : Reading v img held err sh den m) (hf : ∀ e, e ≠ .enoent → f e ≠ .enoent) :
    Reading v img held err sh (den.mapError f) (Prog.recode m f) := by
  intro s hv himg
  refine (h s hv himg).recode (fun a s' h1 => ?_) (fun e s' h1 => ?_)
  · refine ⟨h1.quiet, h1.heap, h1.good, ?_⟩
    rcases h1.outcome with ⟨hc, hd⟩ | ⟨-, e, hr, -⟩
    · refine Or.inl ⟨hc, ?_⟩
      rw [← hd]
      rfl
    · cases hr
  · refine ⟨h1.quiet, h1.heap, fun a ha => (by cases ha), ?_⟩
    rcases h1.outcome with ⟨hc, hd⟩ | ⟨ht, e', hr, hne⟩
    · refine Or.inl ⟨hc, ?_⟩
      rw [← hd]
      rfl
    · cases hr
      exact Or.inr ⟨ht, f e, rfl, hf e hne⟩

/-- The value of an allocation is an address of the heap. -/
def Shape.addr (h : Multiset Nat) : Shape Nat Unit :=
  ⟨fun p => {p} + h, fun p => p ≠ 0, fun _ => ()⟩

theorem reading_kzalloc (he : e ≠ .enoent) (size : Nat) :
    Reading v img held held (.addr held) (.ok ()) (kzalloc e size) := by
  intro s _ _
  unfold Prog.Ends kzalloc
  rcases kmalloc_cases s.heap size with ⟨hnone, hheap, href⟩ | ⟨b, hv, -, hsome, hheap, hruns, href⟩
  · rw [show kmalloc s.heap size = (none, (kmalloc s.heap size).2) from Prod.ext hnone rfl]
    refine ⟨⟨.refl _, rfl, rfl, rfl, rfl⟩, fun base m h => ?_, fun a ha => (by cases ha),
      Or.inr ⟨.heap rfl ?_, e, rfl, he⟩⟩
    · exact h.of_heap hheap
    · show s.heap.refusals < (kmalloc s.heap size).2.refusals
      omega
  · rw [show kmalloc s.heap size = (some (blockAddr b), (kmalloc s.heap size).2) from
      Prod.ext hsome rfl]
    refine ⟨⟨.refl _, rfl, rfl, rfl, rfl⟩, fun base m h => ?_, fun a ha => ?_,
      Or.inl ⟨⟨rfl, href⟩, rfl⟩⟩
    · show Owns base ({blockAddr b} + held + m) (kmalloc s.heap size).2
      rw [add_assoc, Multiset.singleton_add]
      exact h.malloc hv hheap hruns
    · cases ha
      exact blockAddr_ne_zero b

/-- Device reads as the driver sees them. -/
theorem reading_onDev {m : Prog Device Errno α} {den : Except Errno α}
    (h : ∀ d, d.image = img → Prog.Ends m d (ReadBy den d)) :
    Reading v img held held (.val held) den (onDev m) := by
  intro s _ himg
  have h1 := h s.dev himg
  refine ⟨⟨h1.same, rfl, rfl, rfl, h1.image⟩, fun base q ho => ?_, fun _ _ => trivial, ?_⟩
  · cases (onDev m s).1 <;> exact ho
  · rcases h1.outcome with ⟨hlog, hr⟩ | ⟨⟨lba, hlog⟩, hr, n, hn⟩
    · refine Or.inl ⟨⟨hlog, rfl⟩, ?_⟩
      show (m s.dev).1.map id = den
      rw [hr]
      cases den <;> rfl
    · exact Or.inr ⟨.read lba n hlog hn, .eio, hr, by decide⟩

/-! ## Without the heap -/

theorem keeps_onDev (m : Prog Device Errno α) : Prog.Keeps FsState.heap (onDev m) :=
  fun _ => Prog.ends_iff.mpr rfl

theorem keeps_fatEntry (cluster : Nat) : Prog.Keeps FsState.heap (fat16GetFatEntry cluster) :=
  .bind (.look _) fun _ => .bind (keeps_onDev _) fun _ => .bind (keeps_onDev _) fun _ => .pure _

end Rorthox.Fat
