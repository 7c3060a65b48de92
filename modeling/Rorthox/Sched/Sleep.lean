import Rorthox.Sched.Course

/-!
# How long a sleep lasts

The deadline is compared modulo 2^32. A sleep of at most 2^31 - 1 ms stays below 2^31
ticks, so from the call on the comparison fails until exactly that many ticks are counted.
-/

namespace Rorthox.Sched

open Lib

/-- The ticks a sleep takes: its milliseconds in ticks of 10 ms, rounded up, and two more. -/
def sleepTicks (milliseconds : UInt32) : Nat := (milliseconds.toNat + 9) / 10 + 2

theorem pitMsToTicks_toNat {milliseconds : UInt32} (h : Sleeps milliseconds) :
    (pitMsToTicks milliseconds).toNat = sleepTicks milliseconds := by
  have hle : milliseconds.toNat ≤ 2147483647 := UInt32.le_iff_toNat_le.mp h.1
  unfold pitMsToTicks sleepTicks
  rw [if_neg h.2]
  simp only [UInt32.toNat_add, UInt32.toNat_mul, UInt32.toNat_div, UInt32.toNat_mod,
    UInt32.reduceToNat]
  have hr : milliseconds.toNat % 1000 < 1000 := Nat.mod_lt _ (by decide)
  have hq : milliseconds.toNat / 1000 ≤ 2147483 := by omega
  have hsplit := Nat.div_add_mod milliseconds.toNat 1000
  generalize milliseconds.toNat / 1000 = q at *
  generalize milliseconds.toNat % 1000 = r at *
  have h1 : q * 100 % 2 ^ 32 = q * 100 := Nat.mod_eq_of_lt (by omega)
  have h2 : (r * 100 % 2 ^ 32 + 999) % 2 ^ 32 = r * 100 + 999 := by omega
  rw [h1, h2]
  omega

theorem sleepTicks_lt {milliseconds : UInt32} (h : Sleeps milliseconds) :
    sleepTicks milliseconds < 2 ^ 31 := by
  have hle : milliseconds.toNat ≤ 2147483647 := UInt32.le_iff_toNat_le.mp h.1
  unfold sleepTicks
  omega

def Event.ticks : Event → Nat
  | .tick _ => 1
  | .idleTick => 1
  | _ => 0

/-- The ticks counted in a run. -/
def ticksOf (tr : List (Event × Option Nat)) : Nat := (tr.map fun x => x.1.ticks).sum

/-- The deadline `j + n` compared with the clock `k` ticks after `j`. -/
theorem due_iff {j : UInt32} {n : UInt32} {k : Nat} (hk : k ≤ n.toNat) (hn : n.toNat < 2 ^ 31) :
    j + UInt32.ofNat k - (j + n) < 0x80000000 ↔ k = n.toNat := by
  rw [UInt32.lt_iff_toNat_lt]
  simp only [UInt32.toNat_sub, UInt32.toNat_add, UInt32.toNat_ofNat', UInt32.reduceToNat]
  have hj := j.toNat_lt
  omega

/-! ## A task that waits -/

/-- The task `p` fell asleep `k` ticks ago, when the clock was `j`, for `n` ticks, and has
not run since. -/
structure Waiting (p : Nat) (registers : Registers) (j n : UInt32) (k : Nat) (m : Machine) :
    Prop where
  clock : m.jiffies = j + UInt32.ofNat k
  task : ∃ t, bodyAt m.list p = some t ∧ t.registers = registers ∧ t.wakeTick = j + n ∧
    (t.state = .sleeping ↔ k < n.toNat)
  away : m.cpu = .user → m.list.current ≠ some p

variable {m m' : Machine} {l : List Nat} {c p k : Nat} {e : Event} {d : Option Nat}
  {registers : Registers} {j n : UInt32}

/-- Only the ticks touch a task that does not run. -/
theorem fate_away (he : e.Possible m) (haway : m.cpu = .user → m.list.current ≠ some p)
    (hp : m.list.tasks p ≠ none) (b : Option Task) :
    e.fate m p b = if e.ticks = 1 then b.map (Task.woken (m.jiffies + 1)) else b := by
  cases e with
  | tick frame => exact congrArg (Option.map _) (if_neg (haway he))
  | idleTick | look => rfl
  | sleep _ _ | exit _ | fault | nmi _ | resume _ => exact if_neg (haway he)
  | spawn frame q pageDirectory entry =>
    have hq : p ≠ q := fun heq => hp (heq ▸ he.2)
    unfold Event.fate
    simp only [if_neg hq, if_neg (haway he.1)]
    rfl

theorem clock_ticks (e : Event) (k : Nat) :
    e.clock (j + UInt32.ofNat k) = j + UInt32.ofNat (k + e.ticks) := by
  cases e with
  | tick frame =>
    show j + UInt32.ofNat k + 1 = j + UInt32.ofNat (k + 1)
    rw [UInt32.ofNat_add, ← UInt32.add_assoc]
    rfl
  | idleTick =>
    show j + UInt32.ofNat k + 1 = j + UInt32.ofNat (k + 1)
    rw [UInt32.ofNat_add, ← UInt32.add_assoc]
    rfl
  | _ => rfl

/-- The scan at the tick `k + 1` wakes the task exactly when its ticks are over. -/
theorem woken_waiting {t : Task} (hn : n.toNat < 2 ^ 31) (hwake : t.wakeTick = j + n)
    (hstate : t.state = .sleeping ↔ k < n.toNat) :
    ((t.woken (j + UInt32.ofNat (k + 1))).state = .sleeping ↔ k + 1 < n.toNat) ∧
      (t.woken (j + UInt32.ofNat (k + 1))).registers = t.registers ∧
      (t.woken (j + UInt32.ofNat (k + 1))).wakeTick = t.wakeTick := by
  have hdue : t.Due (j + UInt32.ofNat (k + 1)) ↔ k + 1 = n.toNat := by
    unfold Task.Due
    rw [hstate, hwake]
    constructor
    · exact fun h => (due_iff (by omega) hn).mp h.2
    · exact fun h => ⟨by omega, (due_iff (by omega) hn).mpr h⟩
  unfold Task.woken
  by_cases h : t.Due (j + UInt32.ofNat (k + 1))
  · rw [if_pos h]
    refine ⟨⟨fun he => (by cases he), fun hlt => ?_⟩, rfl, rfl⟩
    have := hdue.mp h
    omega
  · rw [if_neg h]
    refine ⟨?_, rfl, rfl⟩
    rw [hstate]
    have := mt hdue.mpr h
    omega

theorem Event.ticks_cases (e : Event) : e.ticks = 1 ∨ e.ticks = 0 := by
  cases e with
  | tick _ | idleTick => exact .inl rfl
  | _ => exact .inr rfl

/-- The task after one more event, started or not. -/
theorem Waiting.task_step (hw : Waiting p registers j n k m) (h : Sound m l c)
    (hn : n.toNat < 2 ^ 31) (hs : Stepped m e d m') :
    ∃ t, bodyAt m'.list p = some t ∧ t.registers = registers ∧ t.wakeTick = j + n ∧
      (t.state = .sleeping ↔ k + e.ticks < n.toNat) := by
  obtain ⟨s, c', -, hprep, hout, hland, -⟩ := hs.cases h
  obtain ⟨t, hbody, hregs, hwake, hstate⟩ := hw.task
  have hlive : m.list.tasks p ≠ none := by
    intro hnone
    rw [bodyAt_none.mpr hnone] at hbody
    cases hbody
  have hb : bodyAt m'.list p = e.fate m p (some t) := by
    unfold bodyAt
    rw [hland.tasks, ← hbody]
    exact hprep.bodies p
  rw [fate_away hs.1 hw.away hlive] at hb
  rcases e.ticks_cases with ht | ht
  · obtain ⟨h1, h2, h3⟩ := woken_waiting hn hwake hstate
    rw [if_pos ht, hw.clock, UInt32.add_assoc] at hb
    rw [UInt32.ofNat_add] at h1 h2 h3
    rw [ht]
    exact ⟨_, hb, h2.trans hregs, h3.trans hwake, h1⟩
  · rw [if_neg (by omega)] at hb
    rw [ht]
    exact ⟨t, hb, hregs, hwake, hstate⟩

theorem Stepped.clock (h : Sound m l c) (hs : Stepped m e d m') :
    m'.jiffies = e.clock m.jiffies := by
  obtain ⟨s, c', -, -, hout, -, -⟩ := hs.cases h
  have hj := congrArg (fun o : Option Nat × Machine => o.2.jiffies) hout
  rw [show m'.jiffies = _ from hj.symm]
  cases e with
  | sleep frame milliseconds =>
    by_cases hms : Sleeps milliseconds
    · rw [outcome_sleeps hms]
    · rw [outcome_wakeful hms]
  | _ => rfl

theorem Waiting.step (hw : Waiting p registers j n k m) (h : Sound m l c) (hn : n.toNat < 2 ^ 31)
    (hs : Stepped m e d m') (hd : d ≠ some p) : Waiting p registers j n (k + e.ticks) m' := by
  refine ⟨?_, hw.task_step h hn hs, ?_⟩
  · rw [hs.clock h, hw.clock, clock_ticks]
  · intro hcpu hcur
    obtain ⟨s, c', -, -, -, hland, -⟩ := hs.cases h
    rw [hland.current] at hcur
    obtain rfl := Option.some.inj hcur
    cases hd' : d with
    | some q =>
      obtain ⟨rfl, -⟩ := hland.started q hd'
      exact hd hd'
    | none =>
      obtain ⟨-, hk⟩ := hland.kept hd'
      exact hw.away (hk hcpu).1 (hk hcpu).2

theorem isRunnable_iff {s : TaskList} {t : Task} (ht : bodyAt s p = some t) :
    isRunnable s p = true ↔ t.state = .runnable := by
  rw [isRunnable_body, ht]
  exact decide_eq_true_iff

/-- Until its ticks are over the task is not started. -/
theorem Waiting.not_started (hw : Waiting p registers j n k m) (h : Sound m l c)
    (hn : n.toNat < 2 ^ 31) (hs : Stepped m e d m') (hlt : k + e.ticks < n.toNat) : d ≠ some p := by
  intro hd
  obtain ⟨t, hbody, -, -, hstate⟩ := hw.task_step h hn hs
  have hrun := (isRunnable_iff hbody).mp (hs.started h hd).2.1
  rw [hstate.mpr hlt] at hrun
  cases hrun

/-! ## The whole sleep -/

/-- The task `p` is started in the run. -/
def Starts (tr : List (Event × Option Nat)) (p : Nat) : Prop := ∃ x ∈ tr, x.2 = some p

theorem ticksOf_snoc (tr : List (Event × Option Nat)) (x : Event × Option Nat) :
    ticksOf (tr ++ [x]) = ticksOf tr + x.1.ticks := by
  unfold ticksOf
  simp

theorem Waiting.path (hw : Waiting p registers j n 0 m) (h : Sound m l c) (hn : n.toNat < 2 ^ 31)
    {tr : List (Event × Option Nat)} (hp : Path m tr m') :
    (ticksOf tr < n.toNat → ¬ Starts tr p) ∧
      (¬ Starts tr p → Waiting p registers j n (ticksOf tr) m') := by
  induction hp with
  | nil => exact ⟨fun _ ⟨x, hx, _⟩ => absurd hx List.not_mem_nil, fun _ => hw⟩
  | @snoc m1 m2 tr e d hpath hs ih =>
    obtain ⟨l1, c1, h1⟩ := hpath.sound h
    have hsplit : Starts (tr ++ [(e, d)]) p ↔ Starts tr p ∨ d = some p := by
      unfold Starts
      simp only [List.mem_append, List.mem_singleton, or_and_right, exists_or, exists_eq_left]
    rw [ticksOf_snoc, hsplit, not_or]
    constructor
    · intro hlt
      have hbefore := ih.1 (by omega)
      exact ⟨hbefore, (ih.2 hbefore).not_started h1 hn hs hlt⟩
    · rintro ⟨hbefore, hd⟩
      exact (ih.2 hbefore).step h1 hn hs hd

/-- The machine right after the system call. -/
theorem sleep_waiting {frame : Registers} {milliseconds : UInt32} (h : Sound m l c)
    (hms : Sleeps milliseconds) (hs : Stepped m (.sleep frame milliseconds) d m') :
    d ≠ some c ∧ Waiting c { frame with eax := 0 } m.jiffies (pitMsToTicks milliseconds) 0 m' := by
  obtain ⟨s, c', -, hprep, hout, hland, hsound⟩ := hs.cases h
  obtain ⟨t, ht⟩ := h.listed.task (h.listed.current c h.current)
  have hbody : bodyAt m'.list c = some ((t.body).sleeper frame
      (m.jiffies + pitMsToTicks milliseconds)) := by
    have hb := hprep.bodies c
    rw [fate_sleeps hms, if_pos h.current] at hb
    unfold bodyAt at hb ⊢
    rw [hland.tasks, hb, ht]
    rfl
  have hasleep : isRunnable m'.list c ≠ true := by
    rw [Ne, isRunnable_iff hbody]
    exact fun he => (by cases he)
  refine ⟨fun hd => hasleep (hs.started h hd).2.1, ?_, ?_, ?_⟩
  · rw [hs.clock h]
    exact (UInt32.add_zero _).symm
  · refine ⟨_, hbody, rfl, rfl, fun _ => ?_, fun _ => rfl⟩
    rw [pitMsToTicks_toNat hms]
    unfold sleepTicks
    omega
  · intro hcpu hcur
    rw [hsound.current] at hcur
    obtain rfl := Option.some.inj hcur
    exact hasleep (hsound.running hcpu)

/-- A task that calls sleep is not started before its ticks are counted; as long as it is not
started it stays on the list with the result 0 in the registers of its call, and it is
runnable exactly from that tick on. Whatever is started is runnable and on the list, and so
is the task in ring 3. -/
theorem sleep_exact {m m1 m2 : Machine} {c : Nat} {frame : Registers} {milliseconds : UInt32}
    {d : Option Nat} {tr : List (Event × Option Nat)} (hm : Reachable m)
    (hc : m.list.current = some c) (hms : 1 ≤ milliseconds ∧ milliseconds ≤ 0x7FFFFFFF)
    (hs : Stepped m (.sleep frame milliseconds) d m1) (hp : Path m1 tr m2) :
    d ≠ some c ∧ (ticksOf tr < sleepTicks milliseconds → ¬ Starts tr c) ∧
      (¬ Starts tr c → ∃ l t, Listed m2.list l ∧ c ∈ l ∧ m2.list.tasks c = some t ∧
        t.registers = { frame with eax := 0 } ∧
        (t.state = .runnable ↔ sleepTicks milliseconds ≤ ticksOf tr)) ∧
      (∀ {m e p m'}, Reachable m → Stepped m e (some p) m' →
        ∃ l, Listed m'.list l ∧ p ∈ l ∧ isRunnable m'.list p = true) ∧
      (∀ {m}, Reachable m → m.cpu = .user →
        ∃ l c, Listed m.list l ∧ m.list.current = some c ∧ c ∈ l ∧ isRunnable m.list c = true) := by
  obtain ⟨l, c', h⟩ := hm.sound
  obtain rfl : c' = c := Option.some.inj (h.current.symm.trans hc)
  have hsleeps : Sleeps milliseconds := by
    refine ⟨hms.2, fun hz => ?_⟩
    rw [hz] at hms
    exact absurd hms.1 (by decide)
  have hn : (pitMsToTicks milliseconds).toNat < 2 ^ 31 := by
    rw [pitMsToTicks_toNat hsleeps]
    exact sleepTicks_lt hsleeps
  obtain ⟨hd, hw⟩ := sleep_waiting h hsleeps hs
  obtain ⟨s, c1, -, -, -, -, h1⟩ := hs.cases h
  obtain ⟨l2, c2, h2⟩ := hp.sound h1
  obtain ⟨hbefore, hafter⟩ := hw.path h1 hn hp
  rw [pitMsToTicks_toNat hsleeps] at hbefore
  refine ⟨hd, hbefore, ?_, ?_, ?_⟩
  · intro hnot
    obtain ⟨t, hbody, hregs, -, hstate⟩ := (hafter hnot).task
    obtain ⟨u, hu, rfl⟩ := Option.map_eq_some_iff.mp hbody
    have hmem : c' ∈ l2 := by
      by_contra hnm
      rw [h2.gone c' hnm] at hu
      cases hu
    refine ⟨l2, u, h2.listed, hmem, hu, hregs, ?_⟩
    rw [pitMsToTicks_toNat hsleeps] at hstate
    rw [← not_lt, ← hstate]
    show u.state = .runnable ↔ ¬ u.state = .sleeping
    cases u.state <;> decide
  · intro m e p m' hm hs
    obtain ⟨l, c, h⟩ := hm.sound
    obtain ⟨s, c1, -, -, -, hland, -⟩ := hs.cases h
    obtain ⟨hp, hrun, -, -⟩ := hs.started h rfl
    exact ⟨_, hland.listed, hp, hrun⟩
  · intro m hm hcpu
    obtain ⟨l, c, h⟩ := hm.sound
    exact ⟨l, c, h.listed, h.current, h.listed.current c h.current, h.running hcpu⟩

/-! Two tasks; the first sleeps for a millisecond just before the clock wraps. -/

def pairList : TaskList := (boot [(16, 1, 0x400000), (32, 2, 0x400000)] noTasks).2

def pairStart : Machine := ⟨pairList, 0xFFFFFFFF, .user⟩

def userFrame : Registers := { initialRegisters 0x400000 with eax := 12 }

def pairAsleep : Machine := ((Event.sleep userFrame 1).run 2 pairStart).2

def pairWoken (n : Nat) : Machine := (fun m => ((Event.tick userFrame).run 2 m).2)^[n] pairAsleep

theorem pairStart_booted : Booted pairStart 16 :=
  ⟨[(16, 1, 0x400000), (32, 2, 0x400000)], by decide, Prod.ext (by rfl) rfl, rfl⟩

theorem pairAsleep_stepped : Stepped pairStart (.sleep userFrame 1) (some 32) pairAsleep :=
  stepped_of_run 3 rfl (by rfl)

theorem pairWoken_path :
    Path pairAsleep [(.tick userFrame, some 32), (.tick userFrame, some 32)] (pairWoken 2) := by
  refine .snoc (show Path pairAsleep [(.tick userFrame, some 32)] (pairWoken 1) from
    .snoc (.nil _) ?_) ?_
  · exact stepped_of_run 2 rfl (by rfl)
  · exact stepped_of_run 2 rfl (by rfl)

/-- The next tick starts it. -/
example : Stepped (pairWoken 2) (.tick userFrame) (some 16) (pairWoken 3) :=
  stepped_of_run 2 rfl (by rfl)

theorem sleep_exact_wrap :
    ¬ Starts [(.tick userFrame, some 32), (.tick userFrame, some 32)] 16 ∧
      ∃ l t, Listed (pairWoken 2).list l ∧ 16 ∈ l ∧ (pairWoken 2).list.tasks 16 = some t ∧
        t.registers = { userFrame with eax := 0 } ∧ (t.state = .runnable ↔ 3 ≤ 2) := by
  obtain ⟨-, hbefore, hafter, -⟩ := sleep_exact ⟨pairStart, 16, [], pairStart_booted, .nil _⟩ rfl
    (by decide) pairAsleep_stepped pairWoken_path
  have hnot := hbefore (by decide)
  exact ⟨hnot, hafter hnot⟩

end Rorthox.Sched
