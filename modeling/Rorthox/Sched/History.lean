import Rorthox.Sched.ListSpec

/-!
# Histories of the task list

Any sequence of publications, removals, switches, sleeps and wake-ups against the plain
list it stands for.
-/

namespace Rorthox.Sched

open Lib

/-- What the kernel does to the task list. -/
inductive ListOp where
  /-- `task_new` at an address of the heap, then `task_publish`. -/
  | publish (task pageDirectory : Nat) (entry : UInt32)
  | free (task : Nat)
  | switch (task : Nat)
  /-- `task_sleep_until` up to its `task_next`. -/
  | sleep (deadline : UInt32)
  | wake (now : UInt32)

def ListOp.run (fuel : Nat) : ListOp → TaskProg Unit
  | .publish p pageDirectory entry => do
      Prog.change (setTask p (some (newTask pageDirectory entry)))
      taskPublish p
  | .free p => taskFree (some p)
  | .switch p => taskSwitch p
  | .sleep deadline => markSleeping deadline
  | .wake now => taskWakeSleepers fuel now

def runOps (fuel : Nat) : List ListOp → TaskProg Unit
  | [] => pure ()
  | o :: ops => do
      o.run fuel
      runOps fuel ops

/-- No task yet. -/
def noTasks : TaskList :=
  { tasks := fun _ => none, head := none, tail := none, current := none, directory := none }

/-- What the list stands for: the tasks in publication order, and the current one. -/
structure Roster where
  listed : List Nat
  current : Option Nat

def Roster.empty : Roster := { listed := [], current := none }

def Roster.step (r : Roster) : ListOp → Roster
  | .publish p _ _ => { listed := r.listed ++ [p], current := r.current.or (some p) }
  | .free p =>
      { listed := r.listed.erase p
        current := if r.current = some p then heir r.listed p else r.current }
  | .switch p => { r with current := some p }
  | .sleep _ => r
  | .wake _ => r

/-- A new task has an address of its own; the others are on the list. -/
def ListOp.Allowed (r : Roster) : ListOp → Prop
  | .publish p _ _ => p ∉ r.listed
  | .free p => p ∈ r.listed
  | .switch p => p ∈ r.listed
  | .sleep _ => r.listed ≠ []
  | .wake _ => True

instance (r : Roster) : ∀ o : ListOp, Decidable (o.Allowed r)
  | .publish p _ _ => inferInstanceAs (Decidable (p ∉ r.listed))
  | .free p => inferInstanceAs (Decidable (p ∈ r.listed))
  | .switch p => inferInstanceAs (Decidable (p ∈ r.listed))
  | .sleep _ => inferInstanceAs (Decidable (r.listed ≠ []))
  | .wake _ => inferInstanceAs (Decidable True)

def AllowedOps : Roster → List ListOp → Prop
  | _, [] => True
  | r, o :: ops => o.Allowed r ∧ AllowedOps (r.step o) ops

instance decidableAllowedOps : ∀ (r : Roster) (ops : List ListOp), Decidable (AllowedOps r ops)
  | _, [] => inferInstanceAs (Decidable True)
  | r, o :: ops =>
      have := decidableAllowedOps (r.step o) ops
      inferInstanceAs (Decidable (o.Allowed r ∧ AllowedOps (r.step o) ops))

/-- The state shows the roster, and no other task is there. -/
structure Shows (s : TaskList) (r : Roster) : Prop extends Listed s r.listed where
  same : s.current = r.current
  gone : ∀ p, p ∉ r.listed → s.tasks p = none

theorem shows_empty : Shows noTasks .empty := by
  refine ⟨⟨⟨List.nodup_nil, rfl, rfl, ?_⟩, fun c hc => (by cases hc), fun _ => rfl⟩, rfl,
    fun p _ => rfl⟩
  intro a p b hl
  have hlen := congrArg List.length hl
  simp [Roster.empty] at hlen

variable {s : TaskList} {r : Roster}

theorem bodyAt_none {p : Nat} : bodyAt s p = none ↔ s.tasks p = none := Option.map_eq_none_iff

theorem publish_shows (h : Shows s r) (fuel pageDirectory : Nat) (entry : UInt32) {p : Nat}
    (hp : p ∉ r.listed) : ∃ s', (ListOp.publish p pageDirectory entry).run fuel s = (.ok (), s') ∧
      Shows s' (r.step (.publish p pageDirectory entry)) ∧ s'.directory = s.directory ∧
      ∀ q, bodyAt s' q = if q = p then some (newTask pageDirectory entry) else bodyAt s q := by
  have hother : ∀ q, q ≠ p → (setTask p (some (newTask pageDirectory entry)) s).tasks q =
    s.tasks q :=
    fun q hq => Function.update_of_ne hq _ _
  have hself : (setTask p (some (newTask pageDirectory entry)) s).tasks p =
      some (newTask pageDirectory entry) := Function.update_self p _ _
  have hlisted : Listed (setTask p (some (newTask pageDirectory entry)) s) r.listed := by
    refine ⟨h.toLinked.congr rfl rfl fun q hq t ht => ⟨t, ?_, rfl, rfl⟩, h.current, h.lost⟩
    rw [hother q fun he => hp (he ▸ hq), ht]
  obtain ⟨s', hrun, hl, hcur, hdir, hbody⟩ := taskPublish_spec hlisted hp hself rfl rfl
  have hbodies : ∀ q, bodyAt s' q =
      if q = p then some (newTask pageDirectory entry) else bodyAt s q := by
    intro q
    rw [hbody]
    by_cases hq : q = p
    · rw [if_pos hq, hq]
      exact congrArg (Option.map Task.body) hself
    · rw [if_neg hq]
      exact congrArg (Option.map Task.body) (hother q hq)
  refine ⟨s', hrun, ⟨hl, ?_, ?_⟩, hdir, hbodies⟩
  · rw [hcur]
    exact congrArg (Option.or · (some p)) h.same
  · intro q hq
    have hqp : q ≠ p := fun he => hq (he ▸ List.mem_append_right _ List.mem_cons_self)
    rw [← bodyAt_none, hbodies, if_neg hqp, bodyAt_none]
    exact h.gone q fun hm => hq (List.mem_append_left _ hm)

theorem free_shows (h : Shows s r) {fuel p : Nat} (hp : p ∈ r.listed) :
    ∃ s', (ListOp.free p).run fuel s = (.ok (), s') ∧ Shows s' (r.step (.free p)) := by
  obtain ⟨s', hrun, hl, hcur, -, hself, hbody⟩ := taskFree_spec h.toListed hp
  refine ⟨s', hrun, hl, ?_, ?_⟩
  · rw [hcur, h.same]
    rfl
  · intro q hq
    by_cases hqp : q = p
    · rw [hqp, hself]
    · rw [← bodyAt_none, hbody q hqp, bodyAt_none]
      exact h.gone q fun hm => hq ((List.mem_erase_of_ne hqp).mpr hm)

theorem ListOp.run_shows (h : Shows s r) (fuel : Nat) (hf : r.listed.length ≤ fuel) (o : ListOp)
    (ho : o.Allowed r) : ∃ s', o.run fuel s = (.ok (), s') ∧ Shows s' (r.step o) := by
  cases o with
  | publish p pageDirectory entry =>
    obtain ⟨s', hrun, hs, -⟩ := publish_shows h fuel pageDirectory entry ho
    exact ⟨s', hrun, hs⟩
  | free p => exact free_shows h ho
  | switch p =>
    obtain ⟨t, ht⟩ := h.task ho
    exact ⟨_, taskSwitch_run ht, h.toListed.switched ho, rfl, h.gone⟩
  | sleep deadline =>
    obtain ⟨c, hc⟩ := Option.ne_none_iff_exists'.mp fun hn => ho (h.lost hn)
    refine ⟨_, markSleeping_spec h.toListed hc deadline,
      h.toListed.patch (fun t => (⟨rfl, rfl⟩ : (t.asleep deadline).next = t.next ∧ _)) _,
      h.same, fun p hp => ?_⟩
    rw [patch_tasks, h.gone p hp]
    exact ite_self _
  | wake now =>
    show ∃ s', _ ∧ Shows s' r
    refine ⟨_, taskWakeSleepers_spec h.toLinked hf now, h.toListed.wokenOn now,
      (wokenOn_anchors now r.listed s).1.trans h.same, fun p hp => ?_⟩
    rw [wokenOn_tasks, if_neg hp, h.gone p hp]

theorem Roster.step_length (r : Roster) (o : ListOp) :
    (r.step o).listed.length ≤ r.listed.length + 1 := by
  cases o with
  | publish p _ _ => exact (List.length_append ..).le
  | free p => exact (List.length_erase_le ..).trans (Nat.le_succ _)
  | switch _ | sleep _ | wake _ => exact Nat.le_succ _

theorem runOps_shows (ops : List ListOp) : ∀ {s : TaskList} {r : Roster} (fuel : Nat), Shows s r →
    AllowedOps r ops → r.listed.length + ops.length ≤ fuel →
      ∃ s', runOps fuel ops s = (.ok (), s') ∧ Shows s' (ops.foldl Roster.step r) := by
  induction ops with
  | nil => exact fun _ h _ _ => ⟨_, rfl, h⟩
  | cons o ops ih =>
    intro s r fuel h ho hf
    rw [List.length_cons] at hf
    obtain ⟨s1, h1, hs1⟩ := o.run_shows h fuel (by omega) ho.1
    have hlen := r.step_length o
    obtain ⟨s2, h2, hs2⟩ := ih fuel hs1 ho.2 (by omega)
    refine ⟨s2, ?_, hs2⟩
    show (o.run fuel >>= fun _ => runOps fuel ops) s = _
    rw [Prog.bind_ok h1, h2]

theorem Roster.run_length (ops : List ListOp) : ∀ r : Roster,
    (ops.foldl Roster.step r).listed.length ≤ r.listed.length + ops.length := by
  induction ops with
  | nil => exact fun r => le_rfl
  | cons o ops ih =>
    intro r
    have h1 := ih (r.step o)
    have h2 := r.step_length o
    rw [List.foldl_cons, List.length_cons]
    omega

/-- Every history of the list runs to its end without a fault, ends in the list and the
current task it stands for with no other task left, and the search from there ends, changes
nothing and gives the first runnable task behind the current one. -/
theorem list_history (ops : List ListOp) (hops : AllowedOps .empty ops) (fuel : Nat)
    (hf : ops.length ≤ fuel) :
    ∃ s, runOps fuel ops noTasks = (.ok (), s) ∧ Shows s (ops.foldl Roster.step .empty) ∧
      (s.current = none ↔ (ops.foldl Roster.step .empty).listed = []) ∧
      taskGetNext fuel s = (.ok (nextOf s (ops.foldl Roster.step .empty).listed), s) ∧
      (nextOf s (ops.foldl Roster.step .empty).listed = none ↔
        ∀ p ∈ (ops.foldl Roster.step .empty).listed, ¬ isRunnable s p = true) := by
  have hlen : (ops.foldl Roster.step .empty).listed.length ≤ ops.length := by
    have h1 := Roster.run_length ops .empty
    simpa [Roster.empty] using h1
  obtain ⟨s, hrun, hs⟩ := runOps_shows ops fuel shows_empty hops
    (by simpa [Roster.empty] using hf)
  exact ⟨s, hrun, hs, hs.toListed.current_none, taskGetNext_spec hs.toListed (hlen.trans hf),
    nextOf_none hs.toListed⟩

/-- Three tasks, of which one sleeps and the current one in the middle leaves. -/
theorem list_history_middle :
    ∃ s, runOps 7 [.publish 16 1 0x400000, .publish 32 2 0x400000, .publish 48 3 0x400000, .sleep 9,
        .switch 32, .free 32, .wake 5] noTasks = (.ok (), s) ∧
      Shows s { listed := [16, 48], current := some 48 } ∧ (s.current = none ↔ [16, 48] = []) ∧
      taskGetNext 7 s = (.ok (nextOf s [16, 48]), s) ∧
      (nextOf s [16, 48] = none ↔ ∀ p ∈ [16, 48], ¬ isRunnable s p = true) :=
  list_history _ (by decide) 7 (by decide)

end Rorthox.Sched
