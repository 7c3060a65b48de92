import Rorthox.Fat.ScriptSpec

/-!
# Functions that look and then write

The counterpart of `Reading` for the functions that mutate. Everything such a function
needs is looked up first; on a volume `v` with content `img` this gives a plan, the
phases to run and the value to return, or the reason why nothing is run. Only then are the phases
run. Whatever stops it before the first phase leaves the volume and the disk alone.
-/

namespace Rorthox.Fat

open Lib Disk Memory

variable {α β γ δ : Type}

/-- It gave up before the first phase. -/
def Stopped (plan : Except Errno (List Phase × β)) (s : FsState) (r : Except Errno α)
    (s' : FsState) : Prop :=
  s'.vol = s.vol ∧ s'.dev.image = s.dev.image ∧
    ((Calm s s' ∧ ∃ e, r = .error e ∧ plan = .error e) ∨
      (Trouble s s' ∧ ∃ e, r = .error e ∧ e ≠ .enoent))

/-- The phases were run; `post` is applied to the volume once all are done. -/
def Ran (sh : Shape α β) (post : FatPrivate → FatPrivate) (plan : Except Errno (List Phase × β))
    (s : FsState) (r : Except Errno α) (s' : FsState) : Prop :=
  s'.heap.refusals = s.heap.refusals ∧
    ∃ phases b r0 v1, plan = .ok (phases, b) ∧ RanPhases phases s r0 { s' with vol := v1 } ∧
      ((r0 = .ok () ∧ r.map sh.view = .ok b ∧ s'.vol = post v1) ∨
        (∃ e, r0 = .error e ∧ r = .error e ∧ s'.vol = v1))

structure ActsTo (held err : Multiset Nat) (sh : Shape α β) (post : FatPrivate → FatPrivate)
    (plan : Except Errno (List Phase × β)) (s : FsState) (r : Except Errno α) (s' : FsState) :
    Prop where
  still : Still s s'
  heap : ∀ base m, Owns base (held + m) s.heap → Owns base (sh.owned err r + m) s'.heap
  good : ∀ a, r = .ok a → sh.good a
  outcome : Stopped plan s r s' ∨ Ran sh post plan s r s'

/-- `m` carries out `plan` on a volume `v` with content `img` and `n` writable sectors. -/
def Acting (v : FatPrivate) (img : Bytes) (n : Nat) (held err : Multiset Nat) (sh : Shape α β)
    (post : FatPrivate → FatPrivate) (plan : Except Errno (List Phase × β)) (m : FsProg α) : Prop :=
  ∀ s, s.vol = v → s.dev.image = img → s.dev.identify = .ok n →
    Prog.Ends m s (ActsTo held err sh post plan s)

variable {s s' : FsState} {phases : List Phase} {q : Multiset Nat} {f : FsState → FsState}

theorem Quiet.still (h : Quiet s s') : Still s s' := ⟨h.mounted, h.files, h.same⟩

/-- What was looked up before does not show in the run. -/
theorem RanPhases.before {s1 : FsState} {r : Except Errno Unit} (hq : Quiet s s1) (hc : Calm s s1)
    (h : RanPhases phases s1 r s') : RanPhases phases s r s' := by
  obtain ⟨hstill, hsteps, hin, hout, hwithin⟩ := h
  rw [hq.same.origin, hc.1] at hsteps hin hout
  rw [hq.image] at hin hout
  rw [hq.vol, hq.same.identify] at hout
  rw [hq.same.identify] at hwithin
  refine ⟨hq.still.trans hstill, hsteps, hin, ?_, hwithin⟩
  rcases hout with hok | ⟨hr, k, hk, hf⟩ | hrefused
  · exact Or.inl hok
  · refine Or.inr (Or.inl ⟨hr, k, hk, hf.vol, ?_, ?_⟩)
    · have hev := hf.event
      rwa [hq.same.origin, hc.1] at hev
    · rw [← hq.same.fates]
      exact hf.fate
  · exact Or.inr (Or.inr hrefused)

variable {v : FatPrivate} {img : Bytes} {n : Nat} {held err : Multiset Nat}
  {post : FatPrivate → FatPrivate}

/-- What was looked up before shows in the heap only. -/
theorem ActsTo.after {mid : Multiset Nat} {sh : Shape α β} {plan : Except Errno (List Phase × β)}
    {s1 s2 : FsState} {r : Except Errno α} (h : ActsTo mid err sh post plan s1 r s2)
    (hq : Quiet s s1) (hcalm : Calm s s1)
    (hheap : ∀ base m, Owns base (held + m) s.heap → Owns base (mid + m) s1.heap) :
    ActsTo held err sh post plan s r s2 := by
  refine ⟨hq.still.trans h.still, fun base m ho => h.heap base m (hheap base m ho), h.good, ?_⟩
  rcases h.outcome with ⟨hvol, himg, hstop⟩ | ⟨href, phases, b, r0, v1, hp, hran, hend⟩
  · refine Or.inl ⟨hvol.trans hq.vol, himg.trans hq.image, ?_⟩
    rcases hstop with ⟨hcalm', he⟩ | ⟨ht, he⟩
    · exact Or.inl ⟨hcalm.trans hcalm', he⟩
    · exact Or.inr ⟨ht.after hq hcalm, he⟩
  · exact Or.inr ⟨href.trans hcalm.2, phases, b, r0, v1, hp, hran.before hq hcalm, hend⟩

/-! ## Rules -/

/-- Look something up, then act on it. -/
theorem Reading.act {sh : Shape α β} {sh' : Shape γ δ} {den : Except Errno β}
    {g : β → Except Errno (List Phase × δ)} {m : FsProg α} {f : α → FsProg γ}
    (h : Reading v img held err sh den m)
    (hf : ∀ a, sh.good a → den = .ok (sh.view a) →
      Acting v img n (sh.own a) err sh' post (g (sh.view a)) (f a)) :
    Acting v img n held err sh' post (den >>= g) (m >>= f) := by
  intro s hv himg hid
  refine (h s hv himg).bind ?_ ?_
  · intro a s1 h1
    rcases h1.outcome with ⟨hcalm, hden⟩ | ⟨-, e, hr, -⟩
    · refine (hf a (h1.good a rfl) hden.symm s1 (h1.quiet.vol.trans hv)
        (h1.quiet.image.trans himg) (h1.quiet.same.identify.trans hid)).mono ?_
      intro r s2 h2
      have hplan : den >>= g = g (sh.view a) := by
        rw [← hden]
        rfl
      rw [hplan]
      exact h2.after h1.quiet hcalm h1.heap
    · cases hr
  · intro e s1 h1
    refine ⟨h1.quiet.still, h1.heap, fun a ha => (by cases ha), Or.inl ⟨h1.quiet.vol,
      h1.quiet.image, ?_⟩⟩
    rcases h1.outcome with ⟨hcalm, hden⟩ | ⟨ht, e', hr, hne⟩
    · refine Or.inl ⟨hcalm, e, rfl, ?_⟩
      rw [← hden]
      rfl
    · cases hr
      exact Or.inr ⟨ht, e, rfl, hne⟩

theorem Acting.guard {c : Prop} [Decidable c] {e : Errno} {sh : Shape α β}
    {plan : Except Errno (List Phase × β)}
    {f : Unit → FsProg α} (h : ¬ c → Acting v img n held held sh post plan (f ())) :
    Acting v img n held held sh post (if c then .error e else plan) (Prog.refuse c e >>= f) := by
  have hr : Reading v img held held (.val held) (if c then .error e else .ok ())
      (Prog.refuse c e) := reading_refuse rfl trivial
  by_cases hc : c
  · rw [if_pos hc] at hr ⊢
    exact hr.act (g := fun _ => plan) fun u _ hu => (by cases hu)
  · rw [if_neg hc] at hr ⊢
    exact hr.act (g := fun _ => plan) fun u _ _ => h hc

/-- A function that only looks runs no phase. -/
theorem Reading.acting {sh : Shape α β} {den : Except Errno β} {m : FsProg α}
    (h : Reading v img held err sh den m) :
    Acting v img n held err sh id (den.map fun b => ([], b)) m := by
  intro s hv himg _
  refine (h s hv himg).mono fun r s' h1 => ⟨h1.quiet.still, h1.heap, h1.good, ?_⟩
  rcases h1.outcome with ⟨hcalm, hden⟩ | htrouble
  · cases r with
    | ok a =>
      refine Or.inr ⟨hcalm.2, [], sh.view a, .ok (), s'.vol, ?_, ?_, Or.inl ⟨rfl, rfl, rfl⟩⟩
      · rw [← hden]
        rfl
      · exact (ranPhases_nil s').before h1.quiet hcalm
    | error e =>
      refine Or.inl ⟨h1.quiet.vol, h1.quiet.image, Or.inl ⟨hcalm, e, rfl, ?_⟩⟩
      rw [← hden]
      rfl
  · exact Or.inl ⟨h1.quiet.vol, h1.quiet.image, Or.inr htrouble⟩

@[simp] theorem fat16WriteAt_heap (pos : Nat) (data : Bytes) (len : Nat) (s : FsState) :
    (fat16WriteAt pos data len s).2.heap = s.heap := by
  unfold fat16WriteAt
  split
  · rfl
  · split
    · rfl
    · dsimp only
      split <;> rfl

@[simp] theorem fat16Flush_heap (s : FsState) : (fat16Flush s).2.heap = s.heap := by
  unfold fat16Flush
  split <;> rfl

theorem runStores_heap (stores : List Store) : ∀ s, (runStores stores s).2.heap = s.heap := by
  induction stores with
  | nil => intro s; rfl
  | cons st stores ih =>
    intro s
    have h : Prog.Ends (runStores (st :: stores)) s fun _ s' => s'.heap = s.heap := by
      have hst : Prog.Ends (fat16WriteAt st.pos st.data st.len) s fun _ s' => s'.heap = s.heap :=
        fat16WriteAt_heap st.pos st.data st.len s
      exact hst.bind (fun _ s1 h1 => (ih s1).trans h1) fun _ _ h1 => h1
    exact h

theorem runPhase_heap (ph : Phase) (s : FsState) : (runPhase ph s).2.heap = s.heap := by
  have h : Prog.Ends (runPhase ph) s fun _ s' => s'.heap = s.heap := by
    have hst : Prog.Ends (runStores ph.stores) s fun _ s' => s'.heap = s.heap :=
      runStores_heap ph.stores s
    refine hst.bind (fun _ s1 h1 => ?_) fun _ _ h1 => h1
    have hfl : Prog.Ends fat16Flush s1 fun _ s' => s'.heap = s1.heap := fat16Flush_heap s1
    exact hfl.bind (fun _ s2 h2 => h2.trans h1) fun _ _ h2 => h2.trans h1
  exact h

theorem runPhases_heap (phases : List Phase) : ∀ s, (runPhases phases s).2.heap = s.heap := by
  induction phases with
  | nil => intro s; rfl
  | cons ph phases ih =>
    intro s
    have h : Prog.Ends (runPhases (ph :: phases)) s fun _ s' => s'.heap = s.heap := by
      have hph : Prog.Ends (runPhase ph) s fun _ s' => s'.heap = s.heap := runPhase_heap ph s
      exact hph.bind (fun _ s1 h1 => (ih s1).trans h1) fun _ _ h1 => h1
    exact h

/-- Run the phases and hand out a value. -/
theorem acting_run {sh : Shape α β} {a : α} (hal : ∀ ph ∈ phases, ph.Allowed n)
    (hown : sh.own a = held) (hgood : sh.good a) :
    Acting v img n held held sh post (.ok (phases, sh.view a))
      (runPhases phases >>= fun _ => Prog.change (onVol post) >>= fun _ => pure a) := by
  intro s _ _ hid
  have hheap : Prog.Ends (runPhases phases) s fun r s' =>
      RanPhases phases s r s' ∧ s'.heap = s.heap := ⟨runPhases_ran phases hid hal,
        runPhases_heap phases s⟩
  refine hheap.bind ?_ ?_
  · rintro ⟨⟩ s1 ⟨h1, hh⟩
    refine ⟨⟨h1.still.mounted, h1.still.files, h1.still.same⟩, fun base m ho => ?_, ?_, Or.inr
      ⟨?_, phases, sh.view a, .ok (), s1.vol, rfl, h1, Or.inl ⟨rfl, rfl, rfl⟩⟩⟩
    · show Owns base (sh.own a + m) s1.heap
      rw [hown, hh]
      exact ho
    · rintro a' ha
      cases ha
      exact hgood
    · show s1.heap.refusals = s.heap.refusals
      rw [hh]
  · rintro e s1 ⟨h1, hh⟩
    refine ⟨h1.still, fun base m ho => ?_, fun a ha => (by cases ha), Or.inr
      ⟨by rw [hh], phases, sh.view a, .error e, s1.vol, rfl, h1, Or.inr ⟨e, rfl, rfl, rfl⟩⟩⟩
    show Owns base (held + m) s1.heap
    rw [hh]
    exact ho

theorem Stopped.frees {plan : Except Errno (List Phase × β)} {r : Except Errno α} (hf : Frees q f)
    (h : Stopped plan s r s') : Stopped plan s r (f s') := by
  obtain ⟨hvol, himg, hstop⟩ := h
  have hq := hf.quiet s'
  refine ⟨hq.vol.trans hvol, hq.image.trans himg, ?_⟩
  rcases hstop with ⟨hcalm, he⟩ | ⟨ht, he⟩
  · exact Or.inl ⟨hcalm.trans (hf.calm s'), he⟩
  · exact Or.inr ⟨ht.before (hf.calm s'), he⟩

theorem Ran.frees {sh : Shape α β} {plan : Except Errno (List Phase × β)} {r : Except Errno α}
    (hf : Frees q f) (h : Ran sh post plan s r s') : Ran sh post plan s r (f s') := by
  obtain ⟨href, phases, b, r0, v1, hp, hran, hend⟩ := h
  obtain ⟨hdev, hvol, hmounted, hfiles, hrefuse, -⟩ := hf s'
  refine ⟨hrefuse.trans href, phases, b, r0, v1, hp, ?_, ?_⟩
  · have hstate : RanPhases phases s r0 { f s' with vol := v1 } := by
      obtain ⟨⟨hm, hfl, hsame⟩, hsteps, hin, hout, hwithin⟩ := hran
      refine ⟨⟨hmounted.trans hm, hfiles.trans hfl, ?_⟩, ?_, ?_, ?_, hwithin⟩
      · rw [← hdev] at hsame
        exact hsame
      · rw [← hdev] at hsteps
        exact hsteps
      · rw [← hdev] at hin
        exact hin
      · rcases hout with hok | ⟨hr, k, hk, hfail⟩ | hrefused
        · rw [← hdev] at hok
          exact Or.inl hok
        · refine Or.inr (Or.inl ⟨hr, k, hk, hfail.vol, ?_, hfail.fate⟩)
          have hev := hfail.event
          rwa [← hdev] at hev
        · rw [← hdev] at hrefused
          exact Or.inr (Or.inr hrefused)
    exact hstate
  · rw [hvol]
    exact hend

theorem Acting.finish {sh : Shape α β} {plan : Except Errno (List Phase × β)} {m : FsProg α}
    (hf : Frees q f)
    (h : Acting v img n held (q + err) ⟨fun a => q + sh.own a, sh.good, sh.view⟩ post plan m) :
    Acting v img n held err sh post plan (Prog.finish m f) := by
  intro s hv himg hid
  refine (h s hv himg hid).finish fun r s' h1 => ⟨h1.still.trans (hf.quiet s').still,
    fun base m ho => ?_, h1.good, h1.outcome.imp (Stopped.frees hf) (Ran.frees hf)⟩
  have h2 := h1.heap base m ho
  refine (hf s').2.2.2.2.2 base _ ?_
  rw [← add_assoc]
  cases r with
  | ok _ | error _ => exact h2

theorem Acting.undo {sh : Shape α β} {plan : Except Errno (List Phase × β)} {m : FsProg α}
    (hf : Frees q f) (h : Acting v img n held (q + err) sh post plan m) :
    Acting v img n held err sh post plan (Prog.undo m f) := by
  intro s hv himg hid
  refine (h s hv himg hid).undo (fun a s' h1 => ⟨h1.still, h1.heap, h1.good, h1.outcome⟩)
    fun e s' h1 => ⟨h1.still.trans (hf.quiet s').still, fun base m ho => ?_,
      fun a ha => (by cases ha), h1.outcome.imp (Stopped.frees hf) (Ran.frees hf)⟩
  refine (hf s').2.2.2.2.2 base _ ?_
  rw [← add_assoc]
  exact h1.heap base m ho

theorem Acting.lookVol {sh : Shape α β} {plan : Except Errno (List Phase × β)}
    {f : FatPrivate → FsProg α} (h : Acting v img n held held sh post plan (f v)) :
    Acting v img n held held sh post plan (Prog.look (·.vol) >>= f) :=
  (reading_look fun _ hs => hs).act (g := fun _ => plan) fun w _ hw => by
    obtain rfl : v = w := Except.ok.inj hw
    exact h

theorem Acting.congr {sh : Shape α β} {plan plan' : Except Errno (List Phase × β)} {m : FsProg α}
    (h : Acting v img n held err sh post plan m) (he : plan = plan') :
    Acting v img n held err sh post plan' m := he ▸ h

theorem acting_raise {sh : Shape α β} {e : Errno} (herr : err = held) :
    Acting v img n held err sh post (.error e) (Prog.raise e) := by
  intro s _ _ _
  refine ⟨.refl s, fun base m h => ?_, fun a ha => (by cases ha),
    Or.inl ⟨rfl, rfl, Or.inl ⟨⟨rfl, rfl⟩, e, rfl, rfl⟩⟩⟩
  show Owns base (err + m) s.heap
  rw [herr]
  exact h

/-- Run the phases and hand out a value, with nothing to publish at the end. -/
theorem acting_phases {sh : Shape α β} {a : α} (hal : ∀ ph ∈ phases, ph.Allowed n)
    (hown : sh.own a = held) (hgood : sh.good a) :
    Acting v img n held held sh id (.ok (phases, sh.view a))
      (runPhases phases >>= fun _ => pure a) := acting_run hal hown hgood

/-- Act, and hand out what comes of the value. -/
theorem Acting.map {sh : Shape α β} {sh' : Shape γ δ} {plan : Except Errno (List Phase × β)}
    {m : FsProg α} {f : α → γ} {g : β → δ} (h : Acting v img n held err sh post plan m)
    (hview : ∀ a, sh'.view (f a) = g (sh.view a)) (hown : ∀ a, sh'.own (f a) = sh.own a)
    (hgood : ∀ a, sh.good a → sh'.good (f a)) :
    Acting v img n held err sh' post (plan.map fun p => (p.1, g p.2))
      (m >>= fun a => pure (f a)) := by
  intro s hv himg hid
  refine (h s hv himg hid).bind ?_ ?_
  · intro a s1 h1
    refine ⟨h1.still, fun base m ho => ?_, fun c hc => ?_, Or.inr ?_⟩
    · show Owns base (sh'.own (f a) + m) s1.heap
      rw [hown]
      exact h1.heap base m ho
    · cases hc
      exact hgood a (h1.good a rfl)
    · rcases h1.outcome with ⟨-, -, ⟨-, e, hr, -⟩ | ⟨-, e, hr, -⟩⟩ |
        ⟨href, phases, b, r0, v1, hp, hran, ⟨h0, hb, hvol⟩ | ⟨e, -, hr, -⟩⟩
      · cases hr
      · cases hr
      · refine ⟨href, phases, g b, r0, v1, by rw [hp]; rfl, hran, Or.inl ⟨h0, ?_, hvol⟩⟩
        show Except.ok (sh'.view (f a)) = _
        rw [hview, Except.ok.inj hb]
      · cases hr
  · intro e s1 h1
    refine ⟨h1.still, h1.heap, fun c hc => (by cases hc), h1.outcome.imp ?_ ?_⟩
    · rintro ⟨hvol, himg', ⟨hc, e', hr, hp⟩ | ⟨ht, e', hr, hne⟩⟩
      · exact ⟨hvol, himg', Or.inl ⟨hc, e, rfl, by cases hr; rw [hp]; rfl⟩⟩
      · exact ⟨hvol, himg', Or.inr ⟨ht, e, rfl, by cases hr; exact hne⟩⟩
    · rintro ⟨href, phases, b, r0, v1, hp, hran, ⟨-, hb, -⟩ | ⟨e', h0, hr, hvol⟩⟩
      · cases hb
      · exact ⟨href, phases, g b, r0, v1, by rw [hp]; rfl, hran,
          Or.inr ⟨e', h0, by cases hr; rfl, hvol⟩⟩

/-- Go on with the outcome of a lookup, as long as neither heap nor device failed. -/
theorem Reading.attemptAct {sh : Shape α β} {sh' : Shape γ δ} {den : Except Errno β}
    {g : Except Errno β → Except Errno (List Phase × δ)} {m : FsProg α}
    {f : Except Errno α → FsProg γ} (h : Reading v img held held sh den m)
    (hok : ∀ a, sh.good a → den = .ok (sh.view a) →
      Acting v img n (sh.own a) held sh' post (g den) (f (.ok a)))
    (herr : ∀ e, den = .error e → Acting v img n held held sh' post (g den) (f (.error e)))
    (hfail : ∀ e, e ≠ .enoent → f (.error e) = Prog.raise e) :
    Acting v img n held held sh' post (g den) (Prog.attempt m >>= f) := by
  intro s hv himg hid
  refine (h s hv himg).attempt.bind ?_ ?_
  · rintro o s1 ⟨o', ho', h1⟩
    obtain rfl : o = o' := Except.ok.inj ho'
    have hgo : Calm s s1 → Acting v img n (sh.owned held o) held sh' post (g den) (f o) →
        Prog.Ends (f o) s1 (ActsTo held held sh' post (g den) s) := by
      intro hcalm hact
      exact (hact s1 (h1.quiet.vol.trans hv) (h1.quiet.image.trans himg)
        (h1.quiet.same.identify.trans hid)).mono fun r s2 h2 => h2.after h1.quiet hcalm h1.heap
    rcases h1.outcome with ⟨hcalm, hden⟩ | ⟨ht, e, hr, hne⟩
    · cases o with
      | ok a => exact hgo hcalm (hok a (h1.good a rfl) hden.symm)
      | error e => exact hgo hcalm (herr e hden.symm)
    · obtain rfl : o = .error e := hr
      rw [hfail e hne]
      exact ⟨h1.quiet.still, h1.heap, fun a ha => (by cases ha),
        Or.inl ⟨h1.quiet.vol, h1.quiet.image, Or.inr ⟨ht, e, rfl, hne⟩⟩⟩
  · rintro e s1 ⟨o', ho', -⟩
    cases ho'

end Rorthox.Fat
