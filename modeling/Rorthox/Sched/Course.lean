import Rorthox.Sched.MachineSpec

/-!
# Runs of the machine

Any sequence of events from the start of the first task. Between two events the machine
is sound, and no event meets a task that is not there; only the end of the last task
stops the kernel.
-/

namespace Rorthox.Sched

open Lib Lib.Prog

/-! ## More fuel -/

variable {k n : Nat} {s : TaskList}

theorem getNextLoop_below (start : Option Nat) (hn : n ≤ k) :
    ∀ p, Below (getNextLoop start n p) (getNextLoop start k p) := by
  induction n generalizing k with
  | zero =>
    intro p
    cases p with
    | none => cases k <;> exact Below.refl _
    | some p => exact below_raise Fault.endless _
  | succ n ih =>
    intro p
    obtain ⟨k, rfl⟩ : ∃ i, k = i + 1 := ⟨k - 1, by omega⟩
    cases p with
    | none => exact Below.refl _
    | some p =>
      refine (Below.refl _).bind fun t => (Below.refl _).ite ?_
      exact (Below.refl _).bind fun head => (Below.refl _).ite (ih (by omega) _)

theorem wakeLoop_below (now : UInt32) (hn : n ≤ k) :
    ∀ p, Below (wakeLoop now n p) (wakeLoop now k p) := by
  induction n generalizing k with
  | zero =>
    intro p
    cases p with
    | none => cases k <;> exact Below.refl _
    | some p => exact below_raise Fault.endless _
  | succ n ih =>
    intro p
    obtain ⟨k, rfl⟩ : ∃ i, k = i + 1 := ⟨k - 1, by omega⟩
    cases p with
    | none => exact Below.refl _
    | some p =>
      refine (Below.refl _).bind fun t => (Below.refl _).bind fun _ => ?_
      exact (Below.refl _).bind fun t => ih (by omega) _

theorem lookAround_below (hn : n ≤ k) : Below (lookAround n) (lookAround k) := by
  refine Below.bind ?_ fun _ => Below.refl _
  exact (Below.refl _).bind fun start => getNextLoop_below start hn start

theorem taskNext_below (hn : n ≤ k) : Below (taskNext n) (taskNext k) :=
  (Below.refl _).bind fun _ => (Below.refl _).bind fun _ => lookAround_below hn

theorem onList_below {α : Type} {f g : TaskProg α} (h : Below f g) :
    Below (onList f) (onList g) := by
  intro m a m' hm
  cases hf : f m.list with
  | mk r s =>
    unfold onList at hm
    rw [hf] at hm
    cases r with
    | error e => cases hm
    | ok b =>
      obtain ⟨hab, rfl⟩ := Prod.mk.inj hm
      obtain rfl := Except.ok.inj hab
      exact onList_ok (h hf)

theorem countTick_below (hn : n ≤ k) : Below (countTick n) (countTick k) := by
  refine (Below.refl _).bind fun _ => (Below.refl _).bind fun now => onList_below ?_
  exact (Below.refl _).bind fun head => wakeLoop_below now hn head

theorem schedule_below (hn : n ≤ k) : Below (schedule n) (schedule k) :=
  (onList_below (taskNext_below hn)).bind fun _ => Below.refl _

theorem isr80hCommandSleep_below (milliseconds : UInt32) (hn : n ≤ k) :
    Below (isr80hCommandSleep n milliseconds) (isr80hCommandSleep k milliseconds) := by
  refine (Below.refl _).ite ((Below.refl _).ite ?_)
  refine (Below.refl _).bind fun now => (Below.refl _).bind fun task => (Below.refl _).bind fun _ =>
    ?_
  refine (onList_below ?_).bind fun _ => Below.refl _
  exact (Below.refl _).bind fun _ => taskNext_below hn

/-- More fuel does not change what an event does. -/
theorem Event.run_below (e : Event) (hn : n ≤ k) : Below (e.run n) (e.run k) := by
  cases e with
  | tick frame =>
    exact (Below.refl _).bind fun _ => (countTick_below hn).bind fun _ => schedule_below hn
  | idleTick => exact (Below.refl _).bind fun _ => (countTick_below hn).bind fun _ => Below.refl _
  | look => exact (onList_below (lookAround_below hn)).bind fun _ => Below.refl _
  | sleep frame milliseconds => exact (Below.refl _).bind fun _ => isr80hCommandSleep_below _ hn
  | exit frame =>
    exact (Below.refl _).bind fun _ => (Below.refl _).bind fun _ => schedule_below hn
  | fault => exact (Below.refl _).bind fun _ => (Below.refl _).bind fun _ => schedule_below hn
  | nmi frame => exact (Below.refl _).bind fun _ => schedule_below hn
  | resume _ | spawn _ _ _ _ => exact Below.refl _

/-! ## Steps -/

/-- The event comes, ends, and starts the task `d` by `task_return`, if any. -/
def Stepped (m : Machine) (e : Event) (d : Option Nat) (m' : Machine) : Prop :=
  e.Possible m ∧ ∃ fuel, e.run fuel m = (.ok d, m')

variable {m m' : Machine} {l : List Nat} {c : Nat} {e : Event} {d : Option Nat}

theorem Stepped.spec (h : Sound m l c) (hs : Stepped m e d m') :
    e.listed l c ≠ [] ∧ ∃ s, Prepared e m l c s ∧
      e.outcome s (e.listed l c) c (e.clock m.jiffies) = (d, m') := by
  obtain ⟨hp, fuel, hrun⟩ := hs
  have hmore := e.run_below (Nat.le_max_left fuel l.length) hrun
  obtain ⟨s, hprep, hok, hpanic⟩ := e.meets h hp (Nat.le_max_right fuel l.length)
  have hne : e.listed l c ≠ [] := by
    intro hnil
    have hp := hpanic hnil
    rw [hmore] at hp
    cases hp
  refine ⟨hne, s, hprep, ?_⟩
  have heq := (hok hne).symm.trans hmore
  obtain ⟨h1, h2⟩ := Prod.mk.inj heq
  exact Prod.ext (Except.ok.inj h1) h2

/-- What holds once the list `s` has led to the machine `m'`, in which `c'` is current. -/
structure Landed (m : Machine) (s : TaskList) (l : List Nat) (d : Option Nat) (m' : Machine)
    (c' : Nat) : Prop where
  tasks : m'.list.tasks = s.tasks
  listed : Listed m'.list l
  current : m'.list.current = some c'
  running : m'.cpu = .user → isRunnable s c' = true
  started : ∀ p, d = some p → c' = p ∧ m'.cpu = .user
  kept : d = none → s.current = some c' ∧
    (m'.cpu = .user → m.cpu = .user ∧ m.list.current = some c')

theorem isRunnable_congr {s' : TaskList} (h : s'.tasks = s.tasks) (p : Nat) :
    isRunnable s' p = isRunnable s p := by
  unfold isRunnable
  rw [h]

theorem next_landed (h : Listed s l) (hc : s.current ≠ none) (j : UInt32) :
    ∃ c', Landed m s l (nextOf s l) ⟨looked l s, j, if nextOf s l = none then .idle else .user⟩
      c' := by
  cases hn : nextOf s l with
  | none =>
    obtain ⟨c', hc'⟩ := Option.ne_none_iff_exists'.mp hc
    refine ⟨c', looked_tasks s l, h.looked, ?_, fun he => (by cases he), fun p hp => (by cases hp),
      fun _ => ⟨hc', fun he => (by cases he)⟩⟩
    unfold looked
    rw [hn]
    exact hc'
  | some p =>
    refine ⟨p, looked_tasks s l, h.looked, ?_, fun _ => (nextOf_mem h hn).2, ?_, fun he =>
      (by cases he)⟩
    · unfold looked
      rw [hn]
      rfl
    · intro q hq
      exact ⟨Option.some.inj hq, rfl⟩

/-- Going back to the current task, which may still run. -/
theorem switched_landed (h : Listed s l) (hc : s.current = some c) (hcpu : m.cpu = .user)
    (hm : m.list.current = some c) (hrun : isRunnable s c = true) (j : UInt32) :
    Landed m s l none ⟨switched c s, j, .user⟩ c :=
  ⟨rfl, h.switched (h.current c hc), rfl, fun _ => hrun, fun p hp => (by cases hp),
    fun _ => ⟨hc, fun _ => ⟨hcpu, hm⟩⟩⟩

/-- Saving the registers of the current task leaves it runnable. -/
theorem saved_runnable {frame : Registers} (h : Sound m l c) (hcpu : m.cpu = .user)
    (hbody : bodyAt s c = (bodyAt m.list c).map (Task.save frame)) : isRunnable s c = true := by
  have hrun := h.running hcpu
  rw [isRunnable_body] at hrun ⊢
  rw [hbody]
  cases hb : bodyAt m.list c with
  | none =>
    rw [hb] at hrun
    cases hrun
  | some t =>
    rw [hb] at hrun
    exact hrun

theorem Prepared.landed (hs : Prepared e m l c s) (h : Sound m l c) (hp : e.Possible m)
    (hne : e.listed l c ≠ []) (j : UInt32) :
    ∃ c', Landed m s (e.listed l c) (e.outcome s (e.listed l c) c j).1
      (e.outcome s (e.listed l c) c j).2 c' := by
  have hl := hs.listed
  have hcur : s.current ≠ none := fun hn => hne (hl.lost hn)
  have hbody := hs.bodies c
  cases e with
  | tick _ | look | exit _ | fault | nmi _ => exact next_landed hl hcur j
  | idleTick =>
    exact ⟨c, rfl, hl, hs.current, fun he => (by cases he), fun p hp => (by cases hp),
      fun _ => ⟨hs.current, fun he => (by cases he)⟩⟩
  | sleep frame milliseconds =>
    by_cases hms : Sleeps milliseconds
    · rw [outcome_sleeps hms]
      exact next_landed hl hcur j
    · have hsave : bodyAt s c = (bodyAt m.list c).map (Task.save frame) := by
        rw [hbody, fate_wakeful hms, if_pos h.current]
      rw [outcome_wakeful hms]
      exact ⟨c, switched_landed hl hs.current hp h.current (saved_runnable h hp hsave) j⟩
  | resume frame =>
    have hsave : bodyAt s c = (bodyAt m.list c).map (Task.save frame) := by
      rw [hbody]
      exact if_pos h.current
    exact ⟨c, switched_landed hl hs.current hp h.current (saved_runnable h hp hsave) j⟩
  | spawn frame p pageDirectory entry =>
    refine ⟨p, rfl, hl.switched (List.mem_append_right l List.mem_cons_self), rfl, fun _ => ?_, ?_,
      fun he => (by cases he)⟩
    · rw [isRunnable_body, hs.bodies p]
      show Option.any _ (if p = p then some (newTask pageDirectory entry) else _) = true
      rw [if_pos rfl]
      rfl
    · exact fun q hq => ⟨Option.some.inj hq, rfl⟩

/-- No task is left that has no place on the list. -/
theorem Prepared.gone (hs : Prepared e m l c s) (h : Sound m l c) :
    ∀ q, q ∉ e.listed l c → s.tasks q = none := by
  intro q hq
  have hnone : q ∉ l → bodyAt m.list q = none := fun hl => bodyAt_none.mpr (h.gone q hl)
  rw [← bodyAt_none, hs.bodies q]
  cases e with
  | tick _ | idleTick => simp [Event.fate, hnone hq]
  | look => exact hnone hq
  | sleep _ _ | nmi _ | resume _ => simp [Event.fate, hnone hq]
  | spawn frame p pageDirectory entry =>
    have hq' : q ∉ l ∧ q ≠ p := by simpa [Event.listed] using hq
    simp [Event.fate, hq'.2, hnone hq'.1]
  | exit frame =>
    by_cases hqc : q = c
    · simp [Event.fate, hqc, h.current]
    · have hql : q ∉ l := fun hm => hq ((List.mem_erase_of_ne hqc).mpr hm)
      simp [Event.fate, hnone hql]
  | fault =>
    by_cases hqc : q = c
    · simp [Event.fate, hqc, h.current]
    · have hql : q ∉ l := fun hm => hq ((List.mem_erase_of_ne hqc).mpr hm)
      simp [Event.fate, hnone hql]

/-- What one step does to a sound machine. -/
theorem Stepped.cases (h : Sound m l c) (hs : Stepped m e d m') :
    ∃ s c', e.listed l c ≠ [] ∧ Prepared e m l c s ∧
      e.outcome s (e.listed l c) c (e.clock m.jiffies) = (d, m') ∧
      Landed m s (e.listed l c) d m' c' ∧ Sound m' (e.listed l c) c' := by
  obtain ⟨hne, s, hprep, hout⟩ := hs.spec h
  obtain ⟨c', hland⟩ := hprep.landed h hs.1 hne (e.clock m.jiffies)
  rw [hout] at hland
  refine ⟨s, c', hne, hprep, hout, hland, hland.listed, hland.current, ?_, ?_⟩
  · intro p hp
    rw [hland.tasks]
    exact hprep.gone h p hp
  · intro hcpu
    rw [isRunnable_congr hland.tasks]
    exact hland.running hcpu

/-- A task that is started is on the list and runnable. -/
theorem Stepped.started (h : Sound m l c) (hs : Stepped m e d m') {p : Nat} (hp : d = some p) :
    p ∈ e.listed l c ∧ isRunnable m'.list p = true ∧ m'.cpu = .user ∧ m'.list.current = some p := by
  obtain ⟨s, c', -, -, -, hland, hsound⟩ := hs.cases h
  obtain ⟨rfl, hcpu⟩ := hland.started p hp
  exact ⟨hland.listed.current c' hland.current, hsound.running hcpu, hcpu, hland.current⟩

/-- A run of the handler with some fuel is a step. -/
theorem stepped_of_run (fuel : Nat) (he : e.Possible m) (h : (e.run fuel m).1 = .ok d) :
    Stepped m e d (e.run fuel m).2 :=
  ⟨he, fuel, Prod.ext h rfl⟩

/-- An event always ends; only the end of the last task stops the kernel. -/
theorem Event.steps (h : Sound m l c) (he : e.Possible m) :
    (∃ d m', Stepped m e d m') ∨
      (e.Ends ∧ l = [c] ∧ ∀ fuel, l.length ≤ fuel → (e.run fuel m).1 = .error .panic) := by
  by_cases hnil : e.listed l c = []
  · right
    have hend : e.Ends ∧ l.erase c = [] := by
      cases e with
      | exit _ | fault => exact ⟨trivial, hnil⟩
      | spawn frame p pageDirectory entry => simp [Event.listed] at hnil
      | tick _ | idleTick | look | sleep _ _ | nmi _ | resume _ => exact absurd hnil h.nonempty
    refine ⟨hend.1, ?_, fun fuel hf => ?_⟩
    · have hperm := List.perm_cons_erase (h.listed.current c h.current)
      rw [hend.2] at hperm
      exact List.perm_singleton.mp hperm
    · obtain ⟨s, -, -, hpanic⟩ := e.meets h he hf
      exact hpanic hnil
  · left
    obtain ⟨s, -, hok, -⟩ := e.meets h he le_rfl
    exact ⟨_, _, he, _, hok hnil⟩

/-! ## From the start -/

/-- The machine in which the first task `p` has just been started. -/
def Booted (m : Machine) (p : Nat) : Prop :=
  ∃ news : List (Nat × Nat × UInt32), (news.map Prod.fst).Nodup ∧
    boot news noTasks = (.ok (some p), m.list) ∧ m.cpu = .user

theorem published_shows (news : List (Nat × Nat × UInt32)) : ∀ {s : TaskList} {r : Roster},
    Shows s r → (∀ p ∈ r.listed, isRunnable s p = true) → (r.listed ++ news.map Prod.fst).Nodup →
    ∃ s', runOps 0 (news.map fun n => .publish n.1 n.2.1 n.2.2) s = (.ok (), s') ∧
      ∃ r', Shows s' r' ∧ ∀ p ∈ r'.listed, isRunnable s' p = true := by
  induction news with
  | nil => exact fun h hr _ => ⟨_, rfl, _, h, hr⟩
  | cons n news ih =>
    intro s r h hr hnd
    have hp : n.1 ∉ r.listed := fun hm =>
      (List.nodup_append.mp hnd).2.2 n.1 hm n.1 (by simp) rfl
    obtain ⟨s1, hrun, hs1, -, hbody⟩ := publish_shows h 0 n.2.1 n.2.2 hp
    have hr1 : ∀ p ∈ (r.step (.publish n.1 n.2.1 n.2.2)).listed, isRunnable s1 p = true := by
      intro p hm
      rw [isRunnable_body, hbody]
      by_cases hpn : p = n.1
      · rw [if_pos hpn]
        rfl
      · rw [if_neg hpn, ← isRunnable_body]
        refine hr p ?_
        rcases List.mem_append.mp hm with hm | hm
        · exact hm
        · exact absurd (List.mem_singleton.mp hm) hpn
    obtain ⟨s2, hrun2, r2, hs2, hr2⟩ := ih hs1 hr1 (by
      show (r.listed ++ [n.1] ++ news.map Prod.fst).Nodup
      rw [List.append_assoc]
      exact hnd)
    refine ⟨s2, ?_, r2, hs2, hr2⟩
    show ((ListOp.publish n.1 n.2.1 n.2.2).run 0 >>= fun _ =>
      runOps 0 (news.map fun n => .publish n.1 n.2.1 n.2.2)) s = _
    rw [Prog.bind_ok hrun, hrun2]

theorem Booted.sound {p : Nat} (h : Booted m p) : ∃ l, Sound m l p := by
  obtain ⟨news, hnd, hboot, hcpu⟩ := h
  obtain ⟨s, hrun, r, hs, hr⟩ := published_shows news shows_empty
    (fun p hp => absurd hp List.not_mem_nil) hnd
  unfold boot at hboot
  rw [Prog.bind_ok hrun] at hboot
  cases hc : s.current with
  | none =>
    unfold taskRunFirstEverTask Prog.refuse at hboot
    rw [Prog.bind_ok (Prog.look_apply _ s), hc, if_pos rfl] at hboot
    cases hboot
  | some c =>
    obtain ⟨q, l, hl⟩ := List.exists_cons_of_ne_nil
      (List.ne_nil_of_mem (hs.current c hc))
    have hq : q ∈ r.listed := hl ▸ List.mem_cons_self
    obtain ⟨t, ht⟩ := hs.task hq
    have hhead : s.head = some q := by
      rw [hs.head, hl]
      rfl
    have hstart : taskRunFirstEverTask s = (.ok (some q), switched q s) := by
      unfold taskRunFirstEverTask Prog.refuse
      rw [Prog.bind_ok (Prog.look_apply _ s), hc, if_neg (fun he => (by cases he)),
        Prog.bind_ok (Prog.pure_apply _ _), Prog.bind_ok (Prog.look_apply _ s), hhead]
      exact dispatch_run ht
    rw [hstart] at hboot
    obtain ⟨hpq, hlist⟩ := Prod.mk.inj hboot
    obtain rfl : q = p := Option.some.inj (Except.ok.inj hpq)
    refine ⟨r.listed, ?_, ?_, ?_, ?_⟩
    · rw [← hlist]
      exact hs.toListed.switched hq
    · rw [← hlist]
      rfl
    · rw [← hlist]
      exact hs.gone
    · intro _
      rw [← hlist]
      exact hr q hq

/-- A run: the events with the tasks they start. -/
inductive Path : Machine → List (Event × Option Nat) → Machine → Prop where
  | nil (m : Machine) : Path m [] m
  | snoc {m m1 m2 : Machine} {tr : List (Event × Option Nat)} {e : Event} {d : Option Nat}
      (h : Path m tr m1) (hs : Stepped m1 e d m2) : Path m (tr ++ [(e, d)]) m2

def Reachable (m : Machine) : Prop := ∃ m0 p tr, Booted m0 p ∧ Path m0 tr m

theorem Path.sound {tr : List (Event × Option Nat)} (hp : Path m tr m') (h : Sound m l c) :
    ∃ l' c', Sound m' l' c' := by
  induction hp with
  | nil => exact ⟨l, c, h⟩
  | snoc hpath hs ih =>
    obtain ⟨l1, c1, h1⟩ := ih
    obtain ⟨s, c', -, -, -, -, h2⟩ := hs.cases h1
    exact ⟨_, c', h2⟩

theorem Reachable.sound (h : Reachable m) : ∃ l c, Sound m l c := by
  obtain ⟨m0, p, tr, hboot, hpath⟩ := h
  obtain ⟨l, hl⟩ := hboot.sound
  exact hpath.sound hl

end Rorthox.Sched
