import Rorthox.Fat.Script
import Rorthox.Disk.Crash

/-!
# What a run of phases does to the disk

One lemma for a store, one for a list of stores and one for a list of phases: how
each can end, which sectors it sends, and what the disk holds at every point between.
-/

namespace Rorthox.Fat

open Lib Disk

/-- Everything but the heap, the device and the volume is as before. -/
structure Still (s s' : FsState) : Prop where
  mounted : s'.mounted = s.mounted
  files : s'.files = s.files
  same : s.dev.Same s'.dev

variable {s s' : FsState} {st : Store} {n : Nat} {log : List Event} {r : Except Errno Unit}
  {e : Errno} {phases : List Phase} {ph : Phase} {img : Bytes}

theorem Still.trans {s'' : FsState} (h : Still s s') (h' : Still s' s'') : Still s s'' :=
  ⟨h'.1.trans h.1, h'.2.trans h.2, h.3.trans h'.3⟩

theorem Still.refl (s : FsState) : Still s s := ⟨rfl, rfl, .refl _⟩

/-- The volume after a mutation broke off. -/
def disabled (v : FatPrivate) : FatPrivate := { v with mutationDisabled := true }

/-- The store ends in the sector it starts in. -/
def Store.Single (st : Store) : Prop := st.pos % sectorSize + st.len ≤ sectorSize

/-- The event belongs to one of the stores. -/
def StoreEvent (stores : List Store) (img : Bytes) (e : Event) : Prop :=
  ∃ st ∈ stores, PartOf st.pos st.data 0 st.len img e

/-- A device failure ended the run; it is the last event and mutation is off. -/
structure Failure (s s' : FsState) (v : FatPrivate) : Prop where
  vol : s'.vol = disabled v
  event : ∃ e log, s'.dev.log = e :: log ∧ e.Failed ∧
    Steps (fun _ e => e.Good) s.dev.origin s.dev.log log
  fate : ∃ n, s.dev.fates n ≠ .done

/-- How stores end: all done, the device failed, or one lies past the capacity. -/
structure RanStores (stores : List Store) (s : FsState) (r : Except Errno Unit) (s' : FsState) :
    Prop where
  still : Still s s'
  steps : Steps (StoreEvent stores) s.dev.origin s.dev.log s'.dev.log
  midway : ∀ base F, Midway s.dev.origin s.dev.log base F →
    (∀ j, F (applyStores (stores.take j) s.dev.image)) →
    ∀ log, s.dev.log <:+ log → log <:+ s'.dev.log → Midway s.dev.origin log base F
  outcome :
    (r = .ok () ∧ s'.vol = s.vol ∧ s'.dev.image = applyStores stores s.dev.image ∧
      Steps (fun _ e => e.Good) s.dev.origin s.dev.log s'.dev.log) ∨
    (r = .error .eio ∧ Failure s s' s.vol) ∨
    (r = .error .eio ∧ ∃ st ∈ stores, (∀ n, s.dev.identify = .ok n →
      n * sectorSize < st.pos + st.len) ∧ (∃ lba log, s'.dev.log = .refused lba :: log ∧
        Steps (fun _ e => e.Good) s.dev.origin s.dev.log log) ∧
      (stores = [st] → st.Single → s'.vol = s.vol ∧ ∃ lba, s'.dev.log = .refused lba :: s.dev.log))
  within : r = .ok () → ∀ st ∈ stores, 0 < st.len →
    ∀ n, s.dev.identify = .ok n → st.pos + st.len ≤ n * sectorSize

theorem image_of_log {d d' : Device} (hs : d.Same d') (hl : d'.log = d.log) :
    d'.image = d.image := by
  unfold Device.image
  rw [hs.origin, hl]

theorem writeAt_ran (h : st.pos + st.len ≤ intMax) (hid : s.dev.identify = .ok n) :
    Prog.Ends (fat16WriteAt st.pos st.data st.len) s (RanStores [st] s) := by
  have hdev := diskstreamerWrite_spec st.data h hid
  unfold Prog.Ends at hdev
  unfold Prog.Ends fat16WriteAt
  rw [if_neg (by omega)]
  cases hw : diskstreamerWrite st.pos st.data st.len s.dev with
  | mk r dev =>
    rw [hw] at hdev
    have hsteps : Steps (StoreEvent [st]) s.dev.origin s.dev.log dev.log :=
      hdev.steps.mono fun img e he => ⟨st, List.mem_singleton_self st, he⟩
    have hmid : ∀ base F, Midway s.dev.origin s.dev.log base F →
        (∀ j, F (applyStores ([st].take j) s.dev.image)) →
        ∀ log, s.dev.log <:+ log → log <:+ dev.log → Midway s.dev.origin log base F :=
      fun base F hm hF => midway_store hdev.steps hm (hF 1)
    rcases hdev.outcome with ⟨rfl, himg, hgood⟩ |
      ⟨p, lba, log, rfl, hlog, hgood, -, hp, hone, -, hhi, hcap⟩ |
      ⟨p, e, log, rfl, hlog, hfail, hgood, hfate⟩
    · refine ⟨⟨rfl, rfl, hdev.same⟩, hsteps, hmid, Or.inl ⟨rfl, rfl, himg, hgood⟩,
        fun _ t ht hlen => ?_⟩
      rw [List.mem_singleton.mp ht] at hlen ⊢
      exact hdev.within rfl hlen
    · refine ⟨?_, ?_, ?_, Or.inr (Or.inr ⟨rfl, st, List.mem_singleton_self st, fun m hm =>
        ?_, ?_, ?_⟩), fun hr => (by cases hr)⟩
      · dsimp only
        split <;> exact ⟨rfl, rfl, hdev.same⟩
      · dsimp only
        split <;> exact hsteps
      · dsimp only
        split <;> exact hmid
      · have h1 := Nat.mul_le_mul_right sectorSize (hcap m hm)
        omega
      · refine ⟨lba, log, ?_, hgood⟩
        dsimp only
        split <;> exact hlog
      · intro _ hsingle
        -- a single sector is refused before anything was sent
        have hpos : p = st.pos := by
          rcases hone with hone | hone
          · exact hone
          · have h1 := Nat.div_add_mod st.pos sectorSize
            have h2 := Nat.mul_le_mul_left sectorSize (Nat.succ_le_of_lt hone)
            rw [Nat.mul_succ, Nat.mul_comm sectorSize lba] at h2
            unfold Store.Single at hsingle
            omega
        dsimp only
        rw [if_neg (by simp [hpos])]
        exact ⟨rfl, lba, by rw [← hp hpos]; exact hlog⟩
    · refine ⟨?_, ?_, ?_, Or.inr (Or.inl ⟨rfl, ?_, ?_, hfate⟩), fun hr => (by cases hr)⟩
      · dsimp only
        split <;> exact ⟨rfl, rfl, hdev.same⟩
      · dsimp only
        split <;> exact hsteps
      · dsimp only
        split <;> exact hmid
      · dsimp only
        rw [if_pos (Or.inl (by decide))]
        rfl
      · refine ⟨e, log, ?_, hfail, hgood⟩
        dsimp only
        split <;> exact hlog

theorem between {mid new : List Event} (h2 : mid <:+ new) (hl : log <:+ new) :
    mid <:+ log ∨ log <:+ mid := List.suffix_or_suffix_of_suffix h2 hl

theorem ranStores_nil (s : FsState) : RanStores [] s (.ok ()) s := by
  refine ⟨.refl s, .refl, fun base F hm _ log h1 h2 => ?_, Or.inl ⟨rfl, rfl, rfl, .refl⟩,
    fun _ st hst => (by cases hst)⟩
  have he : log = s.dev.log := h2.eq_of_length_le h1.length_le
  rwa [he]

/-- The first store went well and the others followed. -/
theorem RanStores.cons {stores : List Store} {s1 : FsState} (h1 : RanStores [st] s (.ok ()) s1)
    (h2 : RanStores stores s1 r s') : RanStores (st :: stores) s r s' := by
  have horigin := h1.still.same.origin
  have hok : s1.vol = s.vol ∧ s1.dev.image = st.apply s.dev.image ∧
      Steps (fun _ e => e.Good) s.dev.origin s.dev.log s1.dev.log := by
    rcases h1.outcome with ⟨-, hv, himg, hg⟩ | ⟨hr, -⟩ | ⟨hr, -⟩
    · exact ⟨hv, himg, hg⟩
    · cases hr
    · cases hr
  obtain ⟨hvol, himg, hgood⟩ := hok
  have hsteps1 := h1.steps.mono (Q := StoreEvent (st :: stores)) fun img e ⟨t, ht, he⟩ =>
    ⟨t, by rw [List.mem_singleton.mp ht]; exact List.mem_cons_self, he⟩
  have hsteps2 := h2.steps.mono (Q := StoreEvent (st :: stores)) fun img e ⟨t, ht, he⟩ =>
    ⟨t, List.mem_cons_of_mem _ ht, he⟩
  rw [horigin] at hsteps2
  refine ⟨h1.still.trans h2.still, hsteps1.trans hsteps2, ?_, ?_, fun hr t ht hlen n hn => ?_⟩
  · intro base F hm hF log hl1 hl2
    have hmid1 := h1.midway base F hm fun j => ?_
    · rcases between hsteps2.suffix hl2 with hl | hl
      · have hm1 := hmid1 _ h1.steps.suffix (List.suffix_refl _)
        rw [← horigin] at hm1 ⊢
        refine h2.midway base F hm1 (fun j => ?_) log hl hl2
        rw [himg]
        exact hF (j + 1)
      · exact hmid1 log hl1 hl
    · cases j with
      | zero => exact hF 0
      | succ j => rw [List.take_of_length_le (by simp)]; exact hF 1
  · rcases h2.outcome with ⟨hr, hv, himg', hg⟩ | ⟨hr, hf⟩ |
      ⟨hr, t, ht, hcap, ⟨lba, log, hlog, hg⟩, -⟩
    · rw [horigin] at hg
      exact Or.inl ⟨hr, hv.trans hvol, by rw [himg', himg]; rfl, hgood.trans hg⟩
    · refine Or.inr (Or.inl ⟨hr, by rw [hf.vol, hvol], ?_, ?_⟩)
      · obtain ⟨e, log, hlog, hfail, hg⟩ := hf.event
        rw [horigin] at hg
        exact ⟨e, log, hlog, hfail, hgood.trans hg⟩
      · rw [← h1.still.same.fates]
        exact hf.fate
    · rw [horigin] at hg
      refine Or.inr (Or.inr ⟨hr, t, List.mem_cons_of_mem _ ht, fun n hn => hcap n ?_,
        ⟨lba, log, hlog, hgood.trans hg⟩, fun he => ?_⟩)
      · exact h1.still.same.identify.trans hn
      · rw [List.cons.injEq] at he
        rw [he.2] at ht
        cases ht
  · rcases List.mem_cons.mp ht with rfl | ht
    · exact h1.within rfl t (List.mem_singleton_self t) hlen n hn
    · exact h2.within hr t ht hlen n (h1.still.same.identify.trans hn)

/-- A list that breaks off at its first store. -/
theorem RanStores.stop {stores : List Store} (h : RanStores [st] s (.error e) s') :
    RanStores (st :: stores) s (.error e) s' := by
  have hsteps := h.steps.mono (Q := StoreEvent (st :: stores)) fun img e ⟨t, ht, he⟩ =>
    ⟨t, by rw [List.mem_singleton.mp ht]; exact List.mem_cons_self, he⟩
  refine ⟨h.still, hsteps, fun base F hm hF => h.midway base F hm fun j => ?_, ?_,
    fun hr => (by cases hr)⟩
  · cases j with
    | zero => exact hF 0
    | succ j => rw [List.take_of_length_le (by simp)]; exact hF 1
  · rcases h.outcome with ⟨hr, -⟩ | ⟨hr, hf⟩ | ⟨hr, t, ht, hcap, hlog, hone⟩
    · cases hr
    · exact Or.inr (Or.inl ⟨hr, hf⟩)
    · obtain rfl := List.mem_singleton.mp ht
      exact Or.inr (Or.inr ⟨hr, t, List.mem_cons_self, hcap, hlog, fun _ => hone rfl⟩)

theorem runStores_ran (stores : List Store) :
    ∀ {s : FsState}, (∀ st ∈ stores, st.pos + st.len ≤ intMax) → s.dev.identify = .ok n →
      Prog.Ends (runStores stores) s (RanStores stores s) := by
  induction stores with
  | nil => intro s _ _; exact ranStores_nil s
  | cons st stores ih =>
    intro s hfit hid
    refine (writeAt_ran (hfit st List.mem_cons_self) hid).bind ?_ ?_
    · intro _ s1 h1
      refine (ih (fun t ht => hfit t (List.mem_cons_of_mem _ ht))
        (h1.still.same.identify.trans hid)).mono ?_
      intro r s' h2
      exact h1.cons h2
    · intro e s1 h1
      exact h1.stop

/-! ## Phases -/

/-- The stores of phase `k`, none behind the last phase. -/
def phaseStores (phases : List Phase) (k : Nat) : List Store :=
  (phases[k]?.map Phase.stores).getD []

/-- The images phase `k` goes through. -/
def PhaseImages (phases : List Phase) (img : Bytes) (k : Nat) (im : Bytes) : Prop :=
  ∃ j, im = applyStores ((phaseStores phases k).take j) (applyPhases (phases.take k) img)

/-- At `log` the run has made `k` phases durable and is somewhere in the next one. -/
def InPhase (origin : Bytes) (phases : List Phase) (img : Bytes) (log : List Event) : Prop :=
  ∃ k, k ≤ phases.length ∧
    Midway origin log (applyPhases (phases.take k) img) (PhaseImages phases img k)

/-- The event belongs to a store of some phase, or is a flush. -/
def PhaseEvent (phases : List Phase) (img : Bytes) (e : Event) : Prop :=
  (∃ ph ∈ phases, StoreEvent ph.stores img e) ∨ ∃ good, e = .flushed good

/-- How phases end: all done; or some are done and then the device failed, or the one
sector of the next phase lies past the capacity. -/
structure RanPhases (phases : List Phase) (s : FsState) (r : Except Errno Unit) (s' : FsState) :
    Prop where
  still : Still s s'
  steps : Steps (PhaseEvent phases) s.dev.origin s.dev.log s'.dev.log
  inPhase : Settled s.dev.origin s.dev.log →
    ∀ log, s.dev.log <:+ log → log <:+ s'.dev.log →
      InPhase s.dev.origin phases s.dev.image log
  outcome :
    (r = .ok () ∧ s'.vol = afterPhases phases s.vol ∧
      s'.dev.image = applyPhases phases s.dev.image ∧
      (Settled s.dev.origin s.dev.log → Settled s.dev.origin s'.dev.log) ∧
      Steps (fun _ e => e.Good) s.dev.origin s.dev.log s'.dev.log) ∨
    (r = .error .eio ∧ ∃ k, k < phases.length ∧ Failure s s' (afterPhases (phases.take k) s.vol)) ∨
    (r = .error .eio ∧ ∃ k st, phaseStores phases k = [st] ∧ k < phases.length ∧
      (∀ n, s.dev.identify = .ok n → n * sectorSize < st.pos + st.len) ∧
      s'.vol = afterPhases (phases.take k) s.vol ∧
      s'.dev.image = applyPhases (phases.take k) s.dev.image ∧
      (Settled s.dev.origin s.dev.log → Settled s.dev.origin s'.dev.log) ∧
      ∃ lba log, s'.dev.log = .refused lba :: log ∧
        Steps (fun _ e => e.Good) s.dev.origin s.dev.log log)
  /-- What got through lies below the capacity. -/
  within : r = .ok () → ∀ ph ∈ phases, ∀ st ∈ ph.stores, 0 < st.len →
    ∀ n, s.dev.identify = .ok n → st.pos + st.len ≤ n * sectorSize

/-- Phases that all got through. -/
theorem RanPhases.ended (h : RanPhases phases s r s') (hr : r = .ok ()) :
    s'.vol = afterPhases phases s.vol ∧ s'.dev.image = applyPhases phases s.dev.image := by
  rcases h.outcome with ⟨-, hv, himg, -⟩ | ⟨he, -⟩ | ⟨he, -⟩
  · exact ⟨hv, himg⟩
  · rw [hr] at he
    cases he
  · rw [hr] at he
    cases he

/-- A phase whose stores the drive takes, or of a single sector. -/
def Phase.Allowed (n : Nat) (ph : Phase) : Prop :=
  (∀ st ∈ ph.stores, st.pos + st.len ≤ intMax) ∧
    ((∀ st ∈ ph.stores, st.pos + st.len ≤ n * sectorSize) ∨
      ∃ st, ph.stores = [st] ∧ st.Single)

theorem fat16Flush_spec (hid : s.dev.identify = .ok n) :
    Prog.Ends fat16Flush s (fun r s' => Still s s' ∧
      ((r = .ok () ∧ s'.vol = s.vol ∧ s'.dev.log = .flushed true :: s.dev.log) ∨
        (r = .error .eio ∧ s'.vol = disabled s.vol ∧ s'.dev.log = .flushed false :: s.dev.log ∧
          ∃ n, s.dev.fates n ≠ .done))) := by
  have hdev := diskFlush_spec hid
  unfold Prog.Ends at hdev
  unfold Prog.Ends fat16Flush
  cases hf : diskFlush s.dev with
  | mk r dev =>
    rw [hf] at hdev
    obtain ⟨hsame, ⟨rfl, hlog⟩ | ⟨rfl, hlog, hfate⟩⟩ := hdev
    · exact ⟨⟨rfl, rfl, hsame⟩, Or.inl ⟨rfl, rfl, hlog⟩⟩
    · exact ⟨⟨rfl, rfl, hsame⟩, Or.inr ⟨rfl, rfl, hlog, hfate⟩⟩

/-- The stores of a phase are under way. -/
theorem RanStores.inPhase (h : RanStores ph.stores s r s') (hset : Settled s.dev.origin s.dev.log) :
    ∀ log, s.dev.log <:+ log → log <:+ s'.dev.log →
      InPhase s.dev.origin [ph] s.dev.image log := fun log h1 h2 =>
  ⟨0, Nat.zero_le _, h.midway s.dev.image (PhaseImages [ph] s.dev.image 0) (hset.midway _)
    (fun j => ⟨j, rfl⟩) log h1 h2⟩

theorem RanStores.phaseSteps (h : RanStores ph.stores s r s') :
    Steps (PhaseEvent [ph]) s.dev.origin s.dev.log s'.dev.log :=
  h.steps.mono fun _ _ he => Or.inl ⟨ph, List.mem_singleton_self ph, he⟩

/-- A phase whose stores did not all get through. -/
theorem RanStores.broken (h : RanStores ph.stores s (.error e) s') (hid : s.dev.identify = .ok n)
    (hal : ph.Allowed n) : RanPhases [ph] s (.error e) s' := by
  refine ⟨h.still, h.phaseSteps, h.inPhase, ?_, fun hr => (by cases hr)⟩
  rcases h.outcome with ⟨hr, -⟩ | ⟨hr, hf⟩ | ⟨hr, st, hst, hcap, hlog, hone⟩
  · cases hr
  · exact Or.inr (Or.inl ⟨hr, 0, Nat.one_pos, hf⟩)
  · rcases hal.2 with hin | ⟨t, hstores, hsingle⟩
    · have h1 := hcap n hid
      have h2 := hin st hst
      omega
    · obtain rfl : st = t := by rw [hstores] at hst; exact List.mem_singleton.mp hst
      obtain ⟨hvol, lba, hl⟩ := hone hstores hsingle
      refine Or.inr (Or.inr ⟨hr, 0, st, hstores, Nat.one_pos, hcap, hvol, ?_, ?_, hlog⟩)
      · unfold Device.image
        rw [h.still.same.origin, hl]
        rfl
      · intro hset
        rw [hl]
        exact hset

theorem runPhase_ran (hid : s.dev.identify = .ok n) (hal : ph.Allowed n) :
    Prog.Ends (runPhase ph) s (RanPhases [ph] s) := by
  refine (runStores_ran ph.stores hal.1 hid).bind ?_ fun e s1 h1 => h1.broken hid hal
  intro _ s1 h1
  have hgood : s1.vol = s.vol ∧ s1.dev.image = applyStores ph.stores s.dev.image ∧
      Steps (fun _ e => e.Good) s.dev.origin s.dev.log s1.dev.log := by
    rcases h1.outcome with ⟨-, hv, himg, hg⟩ | ⟨hr, -⟩ | ⟨hr, -⟩
    · exact ⟨hv, himg, hg⟩
    · cases hr
    · cases hr
  obtain ⟨hvol, himg, hgood⟩ := hgood
  have horigin := h1.still.same.origin
  refine (fat16Flush_spec (h1.still.same.identify.trans hid)).bind ?_ ?_
  · rintro _ s2 ⟨hstill, ⟨-, hv2, hlog⟩ | ⟨hr, -⟩⟩
    · have himg2 : s2.dev.image = applyStores ph.stores s.dev.image := by
        rw [← himg]
        unfold Device.image
        rw [hstill.same.origin, hlog]
        rfl
      refine ⟨h1.still.trans ⟨hstill.1, hstill.2, hstill.3⟩, ?_, ?_, Or.inl
        ⟨rfl, ?_, himg2, fun _ => ?_, ?_⟩, fun _ p hp => ?_⟩
      · show Steps _ _ _ s2.dev.log
        rw [hlog]
        exact h1.phaseSteps.snoc (Or.inr ⟨true, rfl⟩)
      · intro hset log hl1 hl2
        have hl2' : log <:+ s2.dev.log := hl2
        rw [hlog, List.suffix_cons_iff] at hl2'
        rcases hl2' with rfl | hl2'
        · refine ⟨1, le_rfl, ?_, fun x data hmem => (by cases hmem)⟩
          show replay s.dev.origin s1.dev.log = applyStores ph.stores s.dev.image
          rw [← himg, ← horigin]
          rfl
        · exact h1.inPhase hset log hl1 hl2'
      · show ph.after s2.vol = ph.after s.vol
        rw [hv2, hvol]
      · show Settled _ s2.dev.log
        rw [hlog]
        exact settled_flush _ _
      · show Steps _ _ _ s2.dev.log
        rw [hlog]
        exact hgood.snoc rfl
      · rw [List.mem_singleton.mp hp]
        exact h1.within rfl
    · cases hr
  · rintro e s2 ⟨hstill, ⟨hr, -⟩ | ⟨hr, hv2, hlog, hfate⟩⟩
    · cases hr
    · refine ⟨h1.still.trans hstill, ?_, ?_, Or.inr (Or.inl ⟨hr, 0, Nat.one_pos, ?_, ?_, ?_⟩),
        fun hr => (by cases hr)⟩
      · rw [hlog]
        exact h1.phaseSteps.snoc (Or.inr ⟨false, rfl⟩)
      · intro hset log hl1 hl2
        rw [hlog, List.suffix_cons_iff] at hl2
        rcases hl2 with rfl | hl2
        · obtain ⟨k, hk, hm⟩ := h1.inPhase hset _ h1.steps.suffix (List.suffix_refl _)
          exact ⟨k, hk, hm.flushFailed⟩
        · exact h1.inPhase hset log hl1 hl2
      · rw [hv2, hvol]
        rfl
      · exact ⟨_, _, hlog, rfl, hgood⟩
      · rw [← h1.still.same.fates]
        exact hfate

theorem PhaseEvent.mono {phases' : List Phase} (h : phases ⊆ phases') {e : Event}
    (he : PhaseEvent phases img e) : PhaseEvent phases' img e :=
  he.imp_left fun ⟨ph, hph, hev⟩ => ⟨ph, h hph, hev⟩

theorem InPhase.first {origin : Bytes} (h : InPhase origin [ph] img log) :
    InPhase origin (ph :: phases) img log := by
  obtain ⟨k, hk, hm⟩ := h
  have hcases : k = 0 ∨ k = 1 := by
    rw [List.length_singleton] at hk
    omega
  rcases hcases with rfl | rfl
  · exact ⟨0, Nat.zero_le _, hm⟩
  · refine ⟨1, by simp, hm.mono ?_⟩
    rintro im ⟨j, rfl⟩
    exact ⟨0, by show applyStores (List.take j []) _ = _; rw [List.take_nil]; rfl⟩

theorem InPhase.later {origin : Bytes} (h : InPhase origin phases (applyStores ph.stores img) log) :
    InPhase origin (ph :: phases) img log := by
  obtain ⟨k, hk, hm⟩ := h
  exact ⟨k + 1, by rw [List.length_cons]; omega, hm⟩

theorem ranPhases_nil (s : FsState) : RanPhases [] s (.ok ()) s := by
  refine ⟨.refl s, .refl, fun hset log h1 h2 => ⟨0, le_rfl, ?_⟩, Or.inl ⟨rfl, rfl, rfl, id, .refl⟩,
    fun _ ph hph => (by cases hph)⟩
  rw [h2.eq_of_length_le h1.length_le]
  exact hset.midway _

theorem RanPhases.cons {s1 : FsState} (h1 : RanPhases [ph] s (.ok ()) s1)
    (h2 : RanPhases phases s1 r s') : RanPhases (ph :: phases) s r s' := by
  have hok : s1.vol = ph.after s.vol ∧ s1.dev.image = applyStores ph.stores s.dev.image ∧
      (Settled s.dev.origin s.dev.log → Settled s.dev.origin s1.dev.log) ∧
      Steps (fun _ e => e.Good) s.dev.origin s.dev.log s1.dev.log := by
    rcases h1.outcome with ⟨-, hv, himg, hset, hg⟩ | ⟨hr, -⟩ | ⟨hr, -⟩
    · exact ⟨hv, himg, hset, hg⟩
    · cases hr
    · cases hr
  obtain ⟨hvol, himg, hset, hgood⟩ := hok
  have horigin := h1.still.same.origin
  have hsteps := h2.steps.mono (Q := PhaseEvent (ph :: phases)) fun img e he =>
    he.mono (List.subset_cons_self ph phases)
  rw [horigin] at hsteps
  refine ⟨h1.still.trans h2.still, (h1.steps.mono fun img e he => he.mono ?_).trans hsteps, ?_, ?_,
    fun hr p hp => ?_⟩
  · simp
  · intro hs log hl1 hl2
    rcases between hsteps.suffix hl2 with hl | hl
    · have h3 := h2.inPhase (by rw [horigin]; exact hset hs) log hl hl2
      rw [himg, horigin] at h3
      exact h3.later
    · exact (h1.inPhase hs log hl1 hl).first
  · rcases h2.outcome with ⟨hr, hv, himg', hset', hg⟩ | ⟨hr, k, hk, hf⟩ |
      ⟨hr, k, st, hst, hk, hcap, hv, himg', hset', lba, log, hlog, hg⟩
    · rw [horigin] at hg hset'
      refine Or.inl ⟨hr, ?_, ?_, fun hs => hset' (hset hs), hgood.trans hg⟩
      · rw [hv, hvol]
        rfl
      · rw [himg', himg]
        rfl
    · refine Or.inr (Or.inl ⟨hr, k + 1, Nat.succ_lt_succ hk, ?_, ?_, ?_⟩)
      · rw [hf.vol, hvol]
        rfl
      · obtain ⟨e, log, hlog, hfail, hg⟩ := hf.event
        rw [horigin] at hg
        exact ⟨e, log, hlog, hfail, hgood.trans hg⟩
      · rw [← h1.still.same.fates]
        exact hf.fate
    · rw [horigin] at hg hset'
      refine Or.inr (Or.inr ⟨hr, k + 1, st, hst, Nat.succ_lt_succ hk,
        fun n hn => hcap n (h1.still.same.identify.trans hn), ?_, ?_, fun hs => hset' (hset hs),
        lba, log, hlog, hgood.trans hg⟩)
      · rw [hv, hvol]
        rfl
      · rw [himg', himg]
        rfl
  · rcases List.mem_cons.mp hp with rfl | hp
    · exact h1.within rfl p (List.mem_singleton_self p)
    · intro st hst hlen n hn
      exact h2.within hr p hp st hst hlen n (h1.still.same.identify.trans hn)

theorem RanPhases.stop (h : RanPhases [ph] s (.error e) s') :
    RanPhases (ph :: phases) s (.error e) s' := by
  refine ⟨h.still, h.steps.mono fun img e he => he.mono ?_, fun hs log h1 h2 =>
    (h.inPhase hs log h1 h2).first, ?_, fun hr => (by cases hr)⟩
  · simp
  · rcases h.outcome with ⟨hr, -⟩ | ⟨hr, k, hk, hf⟩ | ⟨hr, k, st, hst, hk, hrest⟩
    · cases hr
    · obtain rfl : k = 0 := by rw [List.length_singleton] at hk; omega
      exact Or.inr (Or.inl ⟨hr, 0, Nat.succ_pos _, hf⟩)
    · obtain rfl : k = 0 := by rw [List.length_singleton] at hk; omega
      exact Or.inr (Or.inr ⟨hr, 0, st, hst, Nat.succ_pos _, hrest⟩)

/-- What a script does, wherever it ends. -/
theorem runPhases_ran (phases : List Phase) :
    ∀ {s : FsState}, s.dev.identify = .ok n → (∀ ph ∈ phases, ph.Allowed n) →
      Prog.Ends (runPhases phases) s (RanPhases phases s) := by
  induction phases with
  | nil => intro s _ _; exact ranPhases_nil s
  | cons ph phases ih =>
    intro s hid hal
    refine (runPhase_ran hid (hal ph List.mem_cons_self)).bind ?_ fun e s1 h1 => h1.stop
    intro _ s1 h1
    refine (ih (h1.still.same.identify.trans hid)
      fun p hp => hal p (List.mem_cons_of_mem _ hp)).mono ?_
    intro r s' h2
    exact h1.cons h2

end Rorthox.Fat
