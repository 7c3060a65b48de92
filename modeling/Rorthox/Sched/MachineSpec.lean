import Rorthox.Sched.Machine

/-!
# What one event does

Each event first changes the tasks and the list (`Prepared`), then picks the task that
runs next (`outcome`). Everything about whole runs follows from this.
-/

namespace Rorthox.Sched

open Lib

variable {m : Machine} {frame : Registers} {j milliseconds : UInt32} {cpu : Cpu} {fuel : Nat}

theorem onList_ok {α : Type} {f : TaskProg α} {a : α} {s : TaskList} (h : f m.list = (.ok a, s)) :
    onList f m = (.ok a, { m with list := s }) := by
  unfold onList
  rw [h]

/-! ## Bodies -/

variable {s : TaskList} {l : List Nat}

theorem bodyAt_patch {f : Task → Task} (hf : ∀ t, (f t).body = f t.body) (p : Option Nat)
    (q : Nat) : bodyAt (patch p f s) q = if p = some q then (bodyAt s q).map f else bodyAt s q := by
  unfold bodyAt
  rw [patch_tasks]
  split
  · rw [Option.map_map, Option.map_map]
    congr 1
    funext t
    exact hf t
  · rfl

theorem Task.woken_body (now : UInt32) (t : Task) : (t.woken now).body = t.body.woken now := by
  unfold Task.woken
  by_cases hdue : t.Due now
  · rw [if_pos hdue, if_pos (show t.body.Due now from hdue)]
    rfl
  · rw [if_neg hdue, if_neg (show ¬ t.body.Due now from hdue)]

theorem bodyAt_wokenOn (now : UInt32) (hgone : ∀ p, p ∉ l → s.tasks p = none) (q : Nat) :
    bodyAt (wokenOn now l s) q = (bodyAt s q).map (Task.woken now) := by
  unfold bodyAt
  rw [wokenOn_tasks]
  by_cases hq : q ∈ l
  · rw [if_pos hq, Option.map_map, Option.map_map]
    congr 1
    funext t
    exact Task.woken_body now t
  · rw [if_neg hq, hgone q hq]
    rfl

/-! ## The event's parts -/

def Task.save (frame : Registers) (t : Task) : Task := { t with registers := frame }

/-- A sleep that does put the task to sleep. -/
def Sleeps (milliseconds : UInt32) : Prop := milliseconds ≤ 0x7FFFFFFF ∧ milliseconds ≠ 0

instance (milliseconds : UInt32) : Decidable (Sleeps milliseconds) :=
  inferInstanceAs (Decidable (_ ∧ _))

/-- The result 0 in the saved registers. -/
def Task.answered (t : Task) : Task := { t with registers := { t.registers with eax := 0 } }

/-- The task that goes to sleep in the system call with `frame`. -/
def Task.sleeper (frame : Registers) (deadline : UInt32) (t : Task) : Task :=
  (t.save { frame with eax := 0 }).asleep deadline

/-- The task at `q` after the event, from what it was without its links. -/
def Event.fate (m : Machine) (q : Nat) (b : Option Task) : Event → Option Task
  | .tick frame =>
      (if m.list.current = some q then b.map (Task.save frame) else b).map
        (Task.woken (m.jiffies + 1))
  | .idleTick => b.map (Task.woken (m.jiffies + 1))
  | .look => b
  | .sleep frame milliseconds =>
      if m.list.current = some q then
        b.map (if Sleeps milliseconds then Task.sleeper frame
          (m.jiffies + pitMsToTicks milliseconds) else Task.save frame)
      else b
  | .exit _ => if m.list.current = some q then none else b
  | .fault => if m.list.current = some q then none else b
  | .nmi frame => if m.list.current = some q then b.map (Task.save frame) else b
  | .resume frame => if m.list.current = some q then b.map (Task.save frame) else b
  | .spawn frame p pageDirectory entry =>
      if q = p then some (newTask pageDirectory entry)
      else if m.list.current = some q then b.map (Task.save frame) else b

/-- The event ends the current task. -/
def Event.Ends : Event → Prop
  | .exit _ => True
  | .fault => True
  | _ => False

instance : ∀ e : Event, Decidable e.Ends
  | .exit _ => inferInstanceAs (Decidable True)
  | .fault => inferInstanceAs (Decidable True)
  | .tick _ => inferInstanceAs (Decidable False)
  | .idleTick => inferInstanceAs (Decidable False)
  | .look => inferInstanceAs (Decidable False)
  | .sleep _ _ => inferInstanceAs (Decidable False)
  | .nmi _ => inferInstanceAs (Decidable False)
  | .resume _ => inferInstanceAs (Decidable False)
  | .spawn _ _ _ _ => inferInstanceAs (Decidable False)

/-- The list before the next task is picked. -/
def Event.listed (l : List Nat) (c : Nat) : Event → List Nat
  | .exit _ => l.erase c
  | .fault => l.erase c
  | .spawn _ p _ _ => l ++ [p]
  | _ => l

def Event.clock (j : UInt32) : Event → UInt32
  | .tick _ => j + 1
  | .idleTick => j + 1
  | _ => j

/-- What follows once the list is `s`: the task that `task_return` starts, and the machine. -/
def Event.outcome (s : TaskList) (l : List Nat) (c : Nat) (j : UInt32) :
    Event → Option Nat × Machine
  | .idleTick => (none, ⟨s, j, .idle⟩)
  | .resume _ => (none, ⟨switched c s, j, .user⟩)
  | .sleep _ milliseconds =>
      if Sleeps milliseconds then
        (nextOf s l, ⟨looked l s, j, if nextOf s l = none then .idle else .user⟩)
      else (none, ⟨switched c s, j, .user⟩)
  | .spawn _ p _ _ => (some p, ⟨switched p s, j, .user⟩)
  | _ => (nextOf s l, ⟨looked l s, j, if nextOf s l = none then .idle else .user⟩)

theorem outcome_sleeps (h : Sleeps milliseconds) (s : TaskList) (l : List Nat) (c : Nat)
    (j : UInt32) : (Event.sleep frame milliseconds).outcome s l c j =
      (nextOf s l, ⟨looked l s, j, if nextOf s l = none then .idle else .user⟩) := if_pos h

theorem outcome_wakeful (h : ¬ Sleeps milliseconds) (s : TaskList) (l : List Nat) (c : Nat)
    (j : UInt32) :
    (Event.sleep frame milliseconds).outcome s l c j = (none, ⟨switched c s, j, .user⟩) := if_neg h

theorem fate_sleeps {q : Nat} {b : Option Task} (h : Sleeps milliseconds) :
    (Event.sleep frame milliseconds).fate m q b =
      if m.list.current = some q then
        b.map (Task.sleeper frame (m.jiffies + pitMsToTicks milliseconds)) else b := by
  unfold Event.fate
  simp only [if_pos h]

theorem fate_wakeful {q : Nat} {b : Option Task} (h : ¬ Sleeps milliseconds) :
    (Event.sleep frame milliseconds).fate m q b =
      if m.list.current = some q then b.map (Task.save frame) else b := by
  unfold Event.fate
  simp only [if_neg h]

/-- The list `s` is what the event makes of the tasks, before the next one is picked. -/
structure Prepared (e : Event) (m : Machine) (l : List Nat) (c : Nat) (s : TaskList) : Prop where
  listed : Listed s (e.listed l c)
  current : s.current = if e.Ends then heir l c else some c
  bodies : ∀ q, bodyAt s q = e.fate m q (bodyAt m.list q)

/-- What holds between two events. -/
structure Sound (m : Machine) (l : List Nat) (c : Nat) : Prop where
  listed : Listed m.list l
  current : m.list.current = some c
  gone : ∀ p, p ∉ l → m.list.tasks p = none
  running : m.cpu = .user → isRunnable m.list c = true

variable {m : Machine} {c : Nat}

/-! ## Entering and leaving -/

/-- The list once the frame of the current task is saved. -/
def entered (frame : Registers) (c : Nat) (s : TaskList) : TaskList :=
  patch (some c) (Task.save frame) (halted s)

theorem enter_run (h : Sound m l c) (frame : Registers) :
    enter frame m = (.ok (), { m with list := entered frame c m.list }) := by
  obtain ⟨t, ht⟩ := h.listed.task (h.listed.current c h.current)
  have hsave : taskCurrentSaveState frame (halted m.list) = (.ok (), entered frame c m.list) := by
    unfold taskCurrentSaveState Prog.refuse
    rw [Prog.bind_ok (Prog.look_apply _ _), show (halted m.list).current = some c from h.current,
      if_neg (fun he => (by cases he)), Prog.bind_ok (Prog.pure_apply _ _)]
    exact updateTask_ok (s := halted m.list) ht _
  unfold enter
  rw [Prog.bind_ok (onList_ok (s := halted m.list) rfl)]
  exact onList_ok hsave

theorem entered_listed (h : Listed s l) (frame : Registers) : Listed (entered frame c s) l :=
  h.halted.patch (f := Task.save frame) (fun _ => ⟨rfl, rfl⟩) (some c)

theorem bodyAt_entered (frame : Registers) (q : Nat) : bodyAt (entered frame c s) q =
    if some c = some q then (bodyAt s q).map (Task.save frame) else bodyAt s q :=
  bodyAt_patch (s := halted s) (f := Task.save frame) (fun _ => rfl) (some c) q

theorem entered_gone (hgone : ∀ p, p ∉ l → s.tasks p = none) (frame : Registers) :
    ∀ p, p ∉ l → (entered frame c s).tasks p = none := by
  intro p hp
  rw [← bodyAt_none, bodyAt_entered, bodyAt_none.mpr (hgone p hp)]
  exact ite_self _

theorem schedule_run (h : Listed s l) (hne : l ≠ []) (hf : l.length ≤ fuel) :
    schedule fuel ⟨s, j, cpu⟩ =
      (.ok (nextOf s l), ⟨looked l s, j, if nextOf s l = none then .idle else .user⟩) := by
  unfold schedule land
  rw [Prog.bind_ok (onList_ok (m := ⟨s, j, cpu⟩) (taskNext_spec h hne hf))]
  rfl

theorem countTick_run (h : Listed s l) (hf : l.length ≤ fuel) :
    countTick fuel ⟨s, j, cpu⟩ = (.ok (), ⟨wokenOn (j + 1) l s, j + 1, cpu⟩) := by
  unfold countTick
  rw [Prog.bind_ok (Prog.change_apply _ _), Prog.bind_ok (Prog.look_apply _ _)]
  exact onList_ok (taskWakeSleepers_spec h.toLinked hf (j + 1))

theorem taskPage_run (h : Listed s l) (hc : s.current = some c) :
    onList taskPage ⟨s, j, cpu⟩ = (.ok (), ⟨switched c s, j, cpu⟩) := by
  obtain ⟨t, ht⟩ := h.task (h.current c hc)
  refine onList_ok ?_
  unfold taskPage
  rw [Prog.bind_ok (Prog.look_apply _ _)]
  simp only [hc]
  exact taskSwitch_run ht

theorem terminateCurrent_run (j : UInt32) (cpu : Cpu) (h : Listed s l) (hc : s.current = some c) :
    ∃ s', onList terminateCurrent ⟨s, j, cpu⟩ = (.ok (), ⟨s', j, cpu⟩) ∧ Listed s' (l.erase c) ∧
      s'.current = heir l c ∧ ∀ q, bodyAt s' q = if some c = some q then none else bodyAt s q := by
  obtain ⟨s', hrun, hl, hcur, -, hself, hbody⟩ := taskFree_spec h (h.current c hc)
  refine ⟨s', onList_ok ?_, hl, ?_, ?_⟩
  · unfold terminateCurrent
    rw [Prog.bind_ok (Prog.look_apply _ _)]
    show taskFree s.current s = _
    rw [hc, hrun]
  · rw [hcur, if_pos hc]
  · intro q
    by_cases hq : c = q
    · rw [if_pos (congrArg some hq), ← hq, bodyAt_none, hself]
    · rw [if_neg fun he => hq (Option.some.inj he), hbody q (Ne.symm hq)]

/-! ## The events -/

/-- The event prepares the list and ends in its outcome; without a task left it panics. -/
def Event.Meets (e : Event) (fuel : Nat) (m : Machine) (l : List Nat) (c : Nat) : Prop :=
  ∃ s, Prepared e m l c s ∧
    (e.listed l c ≠ [] → e.run fuel m =
      (.ok (e.outcome s (e.listed l c) c (e.clock m.jiffies)).1,
        (e.outcome s (e.listed l c) c (e.clock m.jiffies)).2)) ∧
    (e.listed l c = [] → (e.run fuel m).1 = .error .panic)

theorem Sound.nonempty (h : Sound m l c) : l ≠ [] := by
  intro hl
  have hc := h.listed.current c h.current
  rw [hl] at hc
  cases hc

/-- An event that ends no task leaves some. -/
theorem Event.Meets.of_run {e : Event} (hs : Prepared e m l c s) (hne : e.listed l c ≠ [])
    (hrun : e.run fuel m = (.ok (e.outcome s (e.listed l c) c (e.clock m.jiffies)).1,
      (e.outcome s (e.listed l c) c (e.clock m.jiffies)).2)) : e.Meets fuel m l c :=
  ⟨s, hs, fun _ => hrun, fun hl => absurd hl hne⟩

section

variable (h : Sound m l c)
include h

theorem tick_meets (frame : Registers) (hf : l.length ≤ fuel) :
    (Event.tick frame).Meets fuel m l c := by
  have hl : Listed (entered frame c m.list) l := entered_listed h.listed frame
  refine .of_run (s := wokenOn (m.jiffies + 1) l (entered frame c m.list))
    ⟨hl.wokenOn _, ?_, ?_⟩ h.nonempty ?_
  · rw [(wokenOn_anchors _ l _).1]
    exact h.current
  · intro q
    rw [bodyAt_wokenOn _ (entered_gone h.gone frame), bodyAt_entered]
    unfold Event.fate
    rw [h.current]
  · show (do enter frame; countTick fuel; schedule fuel : MachineProg (Option Nat)) m = _
    rw [Prog.bind_ok (enter_run h frame), Prog.bind_ok (countTick_run hl hf)]
    exact schedule_run (hl.wokenOn _) h.nonempty hf

theorem idleTick_meets (hcpu : m.cpu = .idle) (hf : l.length ≤ fuel) :
    Event.idleTick.Meets fuel m l c := by
  refine .of_run (s := wokenOn (m.jiffies + 1) l (halted m.list))
    ⟨h.listed.halted.wokenOn _, ?_, ?_⟩ h.nonempty ?_
  · rw [(wokenOn_anchors _ l _).1]
    exact h.current
  · intro q
    rw [bodyAt_wokenOn (s := halted m.list) _ h.gone]
    rfl
  · show (do onList kernelPage; countTick fuel; pure none : MachineProg (Option Nat)) m = _
    rw [Prog.bind_ok (onList_ok (s := halted m.list) rfl),
      Prog.bind_ok (countTick_run h.listed.halted hf), hcpu]
    rfl

theorem look_meets (hf : l.length ≤ fuel) : Event.look.Meets fuel m l c := by
  refine .of_run (s := m.list) ⟨h.listed, h.current, fun q => rfl⟩ h.nonempty ?_
  show (do let next ← onList (lookAround fuel); land next : MachineProg (Option Nat)) m = _
  rw [Prog.bind_ok (onList_ok (lookAround_spec h.listed hf))]
  rfl

theorem nmi_meets (frame : Registers) (hf : l.length ≤ fuel) :
    (Event.nmi frame).Meets fuel m l c := by
  have hl : Listed (entered frame c m.list) l := entered_listed h.listed frame
  refine .of_run (s := entered frame c m.list) ⟨hl, h.current, ?_⟩ h.nonempty ?_
  · intro q
    rw [bodyAt_entered]
    unfold Event.fate
    rw [h.current]
  · show (do enter frame; schedule fuel : MachineProg (Option Nat)) m = _
    rw [Prog.bind_ok (enter_run h frame)]
    exact schedule_run hl h.nonempty hf

theorem resume_meets (hcpu : m.cpu = .user) (frame : Registers) :
    (Event.resume frame).Meets fuel m l c := by
  have hl : Listed (entered frame c m.list) l := entered_listed h.listed frame
  refine .of_run (s := entered frame c m.list) ⟨hl, h.current, ?_⟩ h.nonempty ?_
  · intro q
    rw [bodyAt_entered]
    unfold Event.fate
    rw [h.current]
  · show (do enter frame; onList taskPage; pure none : MachineProg (Option Nat)) m = _
    rw [Prog.bind_ok (enter_run h frame), Prog.bind_ok (taskPage_run hl h.current), hcpu]
    rfl

/-- A sleep call without a sleep goes back to its task. -/
theorem wakeful_meets (hcpu : m.cpu = .user) (frame : Registers) (hms : ¬ Sleeps milliseconds) :
    (Event.sleep frame milliseconds).Meets fuel m l c := by
  have hl : Listed (entered frame c m.list) l := entered_listed h.listed frame
  refine .of_run (s := entered frame c m.list) ⟨hl, h.current, ?_⟩ h.nonempty ?_
  · intro q
    rw [fate_wakeful hms, bodyAt_entered, h.current]
  · have hback : (do onList taskPage; pure none : MachineProg (Option Nat))
        { m with list := entered frame c m.list } =
          (.ok none, ⟨switched c (entered frame c m.list), m.jiffies, .user⟩) := by
      rw [Prog.bind_ok (taskPage_run hl h.current), hcpu]
      rfl
    rw [outcome_wakeful hms]
    show (do enter frame; isr80hCommandSleep fuel milliseconds : MachineProg (Option Nat)) m = _
    rw [Prog.bind_ok (enter_run h frame)]
    unfold isr80hCommandSleep
    by_cases hbig : milliseconds > 0x7FFFFFFF
    · rw [if_pos hbig]
      exact hback
    · have hzero : milliseconds = 0 := by
        by_contra hne
        exact hms ⟨UInt32.not_lt.mp hbig, hne⟩
      rw [if_neg hbig, if_pos hzero]
      exact hback

end

theorem patch_patch (p : Option Nat) (f g : Task → Task) :
    patch p g (patch p f s) = patch p (fun t => g (f t)) s := by
  unfold patch
  congr 1
  funext q
  dsimp only
  split
  · rw [Option.map_map]
    rfl
  · rfl

theorem sleeps_meets (h : Sound m l c) (frame : Registers) (hms : Sleeps milliseconds)
    (hf : l.length ≤ fuel) : (Event.sleep frame milliseconds).Meets fuel m l c := by
  have hl : Listed (entered frame c m.list) l := entered_listed h.listed frame
  let deadline := m.jiffies + pitMsToTicks milliseconds
  let asleep := patch (some c) (Task.sleeper frame deadline) (halted m.list)
  have hasleep : Listed asleep l := h.listed.halted.patch (f := Task.sleeper frame deadline)
    (fun _ => ⟨rfl, rfl⟩) (some c)
  refine .of_run (s := asleep) ⟨hasleep, h.current, ?_⟩ h.nonempty ?_
  · intro q
    rw [fate_sleeps hms, h.current]
    exact bodyAt_patch (s := halted m.list) (f := Task.sleeper frame deadline) (fun _ => rfl)
      (some c) q
  · obtain ⟨t, ht⟩ := hl.task (h.listed.current c h.current)
    have hzero := updateTask_ok ht Task.answered
    have hl0 : Listed (patch (some c) Task.answered (entered frame c m.list)) l :=
      hl.patch (f := Task.answered) (fun _ => ⟨rfl, rfl⟩) (some c)
    have hall : patch (some c) (Task.asleep deadline)
        (patch (some c) Task.answered (entered frame c m.list)) = asleep := by
      unfold entered
      rw [patch_patch, patch_patch]
      rfl
    have hnext : taskSleepUntil fuel deadline (patch (some c) Task.answered
        (entered frame c m.list)) = (.ok (nextOf asleep l), looked l asleep) := by
      unfold taskSleepUntil
      rw [Prog.bind_ok (markSleeping_spec hl0 h.current deadline), hall]
      exact taskNext_spec hasleep h.nonempty hf
    rw [outcome_sleeps hms]
    show (do enter frame; isr80hCommandSleep fuel milliseconds : MachineProg (Option Nat)) m = _
    rw [Prog.bind_ok (enter_run h frame)]
    unfold isr80hCommandSleep
    rw [if_neg (UInt32.not_lt.mpr hms.1), if_neg hms.2, Prog.bind_ok (Prog.look_apply _ _),
      Prog.bind_ok (onList_ok (a := some c) (s := entered frame c m.list) (by
        show (Except.ok m.list.current, _) = _
        rw [h.current])),
      Prog.bind_ok (onList_ok hzero), Prog.bind_ok (onList_ok hnext)]
    rfl

theorem sleep_meets (h : Sound m l c) (hcpu : m.cpu = .user) (frame : Registers)
    (milliseconds : UInt32) (hf : l.length ≤ fuel) :
    (Event.sleep frame milliseconds).Meets fuel m l c := by
  by_cases hms : Sleeps milliseconds
  · exact sleeps_meets h frame hms hf
  · exact wakeful_meets h hcpu frame hms

theorem schedule_panic (h : Listed s []) (fuel : Nat) :
    (schedule fuel ⟨s, j, cpu⟩).1 = .error .panic := by
  have hhead : s.head = none := h.head
  have hnext : taskNext fuel s = (.error .panic, s) := by
    unfold taskNext Prog.refuse
    rw [Prog.bind_ok (Prog.look_apply _ s), if_pos hhead]
    rfl
  have hon : onList (taskNext fuel) ⟨s, j, cpu⟩ = (.error .panic, ⟨s, j, cpu⟩) := by
    unfold onList
    rw [hnext]
  unfold schedule
  rw [Prog.bind_error hon]

/-- An event that ends the current task, whatever it saves of it before. -/
theorem ends_meets (h : Sound m l c) {e : Event} (hf : l.length ≤ fuel)
    (hlist : e.listed l c = l.erase c) (hend : e.Ends)
    (hout : ∀ s l c j, e.outcome s l c j = (nextOf s l,
      ⟨looked l s, j, if nextOf s l = none then .idle else .user⟩))
    (hclock : ∀ j, e.clock j = j)
    (hfate : ∀ q b, e.fate m q b = if m.list.current = some q then none else b) (hl : Listed s l)
    (hc : s.current = some c)
    (hrun : e.run fuel m = (do onList terminateCurrent; schedule fuel : MachineProg (Option Nat))
      ⟨s, m.jiffies, m.cpu⟩)
    (hbody : ∀ q, some c ≠ some q → bodyAt s q = bodyAt m.list q) : e.Meets fuel m l c := by
  obtain ⟨s', hterm, hl', hc', hbody'⟩ := terminateCurrent_run m.jiffies m.cpu hl hc
  have hlen : (l.erase c).length ≤ fuel := (List.length_erase_le ..).trans hf
  rw [Prog.bind_ok hterm] at hrun
  refine ⟨s', ⟨hlist ▸ hl', ?_, ?_⟩, ?_, ?_⟩
  · rw [hc', if_pos hend]
  · intro q
    rw [hfate, hbody', h.current]
    by_cases hq : some c = some q
    · rw [if_pos hq, if_pos hq]
    · rw [if_neg hq, if_neg hq, hbody q hq]
  · intro hne
    rw [hlist] at hne ⊢
    rw [hrun, hout, hclock]
    exact schedule_run hl' hne hlen
  · intro hnil
    rw [hlist] at hnil
    rw [hrun]
    exact schedule_panic (hnil ▸ hl') fuel

theorem exit_meets (h : Sound m l c) (frame : Registers) (hf : l.length ≤ fuel) :
    (Event.exit frame).Meets fuel m l c := by
  refine ends_meets h hf rfl trivial (fun _ _ _ _ => rfl) (fun _ => rfl) (fun _ _ => rfl)
    (entered_listed (c := c) h.listed frame) h.current ?_ ?_
  · show (do enter frame; onList terminateCurrent; schedule fuel : MachineProg (Option Nat)) m = _
    rw [Prog.bind_ok (enter_run h frame)]
  · intro q hq
    rw [bodyAt_entered, if_neg hq]

theorem fault_meets (h : Sound m l c) (hf : l.length ≤ fuel) : Event.fault.Meets fuel m l c := by
  refine ends_meets h hf rfl trivial (fun _ _ _ _ => rfl) (fun _ => rfl) (fun _ _ => rfl)
    h.listed.halted h.current ?_ ?_
  · show (do onList kernelPage; onList terminateCurrent; schedule fuel : MachineProg _) m = _
    rw [Prog.bind_ok (onList_ok (s := halted m.list) rfl)]
  · exact fun q _ => rfl

theorem spawn_meets (h : Sound m l c) (frame : Registers) {p pageDirectory : Nat} {entry : UInt32}
    (hp : m.list.tasks p = none) : (Event.spawn frame p pageDirectory entry).Meets fuel m l c := by
  have hpl : p ∉ l := by
    intro hm
    obtain ⟨t, ht⟩ := h.listed.task hm
    rw [hp] at ht
    cases ht
  have hshows : Shows (entered frame c m.list) ⟨l, some c⟩ :=
    ⟨entered_listed h.listed frame, h.current, entered_gone h.gone frame⟩
  obtain ⟨s', hrun, hs, -, hbody⟩ := publish_shows hshows fuel pageDirectory entry hpl
  obtain ⟨t, ht⟩ := hs.task (List.mem_append_right l List.mem_cons_self)
  have hmake : onList (Prog.change (setTask p (some (newTask pageDirectory entry))))
      { m with list := entered frame c m.list } = (.ok (), { m with
        list := setTask p (some (newTask pageDirectory entry)) (entered frame c m.list) }) := rfl
  have hpublish : taskPublish p (setTask p (some (newTask pageDirectory entry))
      (entered frame c m.list)) = (.ok (), s') := hrun
  refine .of_run (s := s') ⟨hs.toListed, hs.same, ?_⟩ ?_ ?_
  · intro q
    show _ = if q = p then some (newTask pageDirectory entry) else
      if m.list.current = some q then (bodyAt m.list q).map (Task.save frame) else bodyAt m.list q
    rw [hbody, bodyAt_entered, h.current]
  · exact List.append_ne_nil_of_right_ne_nil _ (List.cons_ne_nil _ _)
  · show (do
      enter frame
      onList (Prog.change (setTask p (some (newTask pageDirectory entry))))
      onList (taskPublish p)
      let next ← onList (dispatch p)
      land next : MachineProg (Option Nat)) m = _
    rw [Prog.bind_ok (enter_run h frame), Prog.bind_ok hmake, Prog.bind_ok (onList_ok hpublish),
      Prog.bind_ok (onList_ok (dispatch_run ht))]
    rfl

theorem Event.meets (h : Sound m l c) (e : Event) (he : e.Possible m) (hf : l.length ≤ fuel) :
    e.Meets fuel m l c := by
  cases e with
  | tick frame => exact tick_meets h frame hf
  | idleTick => exact idleTick_meets h he hf
  | look => exact look_meets h hf
  | sleep frame milliseconds => exact sleep_meets h he frame milliseconds hf
  | exit frame => exact exit_meets h frame hf
  | fault => exact fault_meets h hf
  | nmi frame => exact nmi_meets h frame hf
  | resume frame => exact resume_meets h he frame
  | spawn frame p pageDirectory entry => exact spawn_meets h frame he.2

end Rorthox.Sched
