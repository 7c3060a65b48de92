import Rorthox.Lib.Ring
import Rorthox.Sched.TaskList

/-!
# What the task list holds

`Listed s l`: the pointers of `s` form the list `l`, forwards and backwards, and the
current task is on it. Every function of the scheduler keeps such a list and never
meets a task that is not there.
-/

namespace Rorthox.Sched

open Lib

/-- The pointers show the list `l`; nothing is said about the current task. -/
structure Linked (s : TaskList) (l : List Nat) : Prop where
  nodup : l.Nodup
  head : s.head = l.head?
  tail : s.tail = l.getLast?
  node : ∀ a p b, l = a ++ p :: b → ∃ t, s.tasks p = some t ∧ t.next = b.head? ∧ t.prev = a.getLast?

/-- Also, the current task is on the list, unless there is none. -/
structure Listed (s : TaskList) (l : List Nat) : Prop extends Linked s l where
  current : ∀ c, s.current = some c → c ∈ l
  lost : s.current = none → l = []

/-- The task at `p` may be dispatched. -/
def isRunnable (s : TaskList) (p : Nat) : Bool := (s.tasks p).any fun t => t.state = .runnable

variable {s : TaskList} {l : List Nat} {c fuel p : Nat} {t : Task} {f : Task → Task}

theorem Linked.task (h : Linked s l) (hp : p ∈ l) : ∃ t, s.tasks p = some t := by
  obtain ⟨a, b, rfl⟩ := List.append_of_mem hp
  obtain ⟨t, ht, -⟩ := h.node a p b rfl
  exact ⟨t, ht⟩

theorem taskAt_ok (h : s.tasks p = some t) : taskAt (some p) s = (.ok t, s) := by
  unfold taskAt
  rw [Option.bind_some, h]

/-- The list depends on the links alone. -/
theorem Linked.congr (h : Linked s l) {s' : TaskList} (hh : s'.head = s.head)
    (ht : s'.tail = s.tail)
    (htask : ∀ p ∈ l, ∀ t, s.tasks p = some t → ∃ t', s'.tasks p = some t' ∧ t'.next = t.next ∧
      t'.prev = t.prev) : Linked s' l := by
  refine ⟨h.nodup, hh.trans h.head, ht.trans h.tail, fun a p b hl => ?_⟩
  obtain ⟨t, h1, h2, h3⟩ := h.node a p b hl
  obtain ⟨t', h4, h5, h6⟩ := htask p (hl ▸ List.mem_append_right _ List.mem_cons_self) t h1
  exact ⟨t', h4, h5.trans h2, h6.trans h3⟩

/-! ## Going round -/

/-- The task behind `p`, wrapping to the head. -/
theorem Linked.succ (h : Linked s l) (hp : p ∈ l) (ht : s.tasks p = some t) :
    t.next.or s.head = (ring l p).head? := by
  obtain ⟨a, b, rfl, ha, -⟩ := exists_split h.nodup hp
  obtain ⟨t', h1, h2, -⟩ := h.node a p b rfl
  obtain rfl : t = t' := Option.some.inj (ht.symm.trans h1)
  rw [ring_split ha, h2, h.head]
  cases b with
  | cons q b => rfl
  | nil =>
    cases a with
    | cons _ _ | nil => rfl

theorem getNextLoop_spec (h : Linked s l) (hc : c ∈ l) (y : List Nat) :
    ∀ {x : List Nat} {p fuel : Nat}, ring l c = x ++ p :: y → (p :: y).length ≤ fuel →
      getNextLoop (ring l c).head? fuel (some p) s = (.ok ((p :: y).find? (isRunnable s)), s) := by
  have hnd := ring_nodup h.nodup hc
  induction y with
  | nil =>
    intro x p fuel hr hf
    obtain ⟨fuel, rfl⟩ : ∃ k, fuel = k + 1 :=
      ⟨fuel - 1, by simp only [List.length_cons] at hf; omega⟩
    have hp : p ∈ l := (mem_ring h.nodup hc).mp (hr ▸ List.mem_append_right _ List.mem_cons_self)
    obtain ⟨t, ht⟩ := h.task hp
    have hback : (ring l p).head? = (ring l c).head? := by
      rw [ring_turn h.nodup hc hr, List.nil_append, hr]
    rw [getNextLoop, Prog.bind_ok (taskAt_ok ht)]
    by_cases hrun : t.state = .runnable
    · rw [if_pos hrun, List.find?_cons_of_pos (by simp [isRunnable, ht, hrun])]
      rfl
    · rw [if_neg hrun, Prog.bind_ok (Prog.look_apply _ s), h.succ hp ht, if_pos hback,
        List.find?_cons_of_neg (by simp [isRunnable, ht, hrun])]
      rfl
  | cons q y ih =>
    intro x p fuel hr hf
    obtain ⟨fuel, rfl⟩ : ∃ k, fuel = k + 1 :=
      ⟨fuel - 1, by simp only [List.length_cons] at hf; omega⟩
    have hp : p ∈ l := (mem_ring h.nodup hc).mp (hr ▸ List.mem_append_right _ List.mem_cons_self)
    obtain ⟨t, ht⟩ := h.task hp
    have hnext : (ring l p).head? = some q := by
      rw [ring_turn h.nodup hc hr]
      rfl
    -- the start lies at or before `p`, so it is not the next one
    have hnot : some q ≠ (ring l c).head? := by
      intro he
      rw [hr] at he hnd
      cases x with
      | nil =>
        obtain rfl : q = p := Option.some.inj he
        exact (List.nodup_cons.mp hnd).1 List.mem_cons_self
      | cons z x =>
        obtain rfl : q = z := Option.some.inj he
        refine (List.nodup_cons.mp hnd).1 ?_
        exact List.mem_append_right _ (List.mem_cons_of_mem _ List.mem_cons_self)
    rw [getNextLoop, Prog.bind_ok (taskAt_ok ht)]
    by_cases hrun : t.state = .runnable
    · rw [if_pos hrun, List.find?_cons_of_pos (by simp [isRunnable, ht, hrun])]
      rfl
    · rw [if_neg hrun, Prog.bind_ok (Prog.look_apply _ s), h.succ hp ht, hnext, if_neg hnot,
        List.find?_cons_of_neg (by simp [isRunnable, ht, hrun])]
      refine ih (x := x ++ [p]) ?_ (by simp only [List.length_cons] at hf ⊢; omega)
      rw [hr, List.append_assoc]
      rfl

theorem ring_ne_nil (l : List Nat) (c : Nat) : ring l c ≠ [] := by
  unfold ring
  exact List.append_ne_nil_of_right_ne_nil _ (List.cons_ne_nil _ _)

theorem searchStart_spec (h : Listed s l) :
    searchStart s = (.ok (s.current.bind fun c => (ring l c).head?), s) := by
  unfold searchStart
  rw [Prog.bind_ok (Prog.look_apply _ s), Prog.bind_ok (Prog.look_apply _ s)]
  cases hcur : s.current with
  | none =>
    have hhead : s.head = none := by
      rw [h.head, h.lost hcur]
      rfl
    rw [hhead]
    rfl
  | some c =>
    obtain ⟨t, ht⟩ := h.task (h.current c hcur)
    dsimp only
    rw [Prog.bind_ok (taskAt_ok ht), h.succ (h.current c hcur) ht]
    rfl

/-- The task that `task_get_next` gives: the first runnable one behind the current one,
which comes last. -/
def nextOf (s : TaskList) (l : List Nat) : Option Nat :=
  s.current.bind fun c => (ring l c).find? (isRunnable s)

theorem taskGetNext_spec (h : Listed s l) (hf : l.length ≤ fuel) :
    taskGetNext fuel s = (.ok (nextOf s l), s) := by
  unfold taskGetNext nextOf
  rw [Prog.bind_ok (searchStart_spec h)]
  cases hcur : s.current with
  | none => cases fuel <;> rfl
  | some c =>
    have hc := h.current c hcur
    obtain ⟨p, y, hr⟩ := List.exists_cons_of_ne_nil (ring_ne_nil l c)
    have hlen : (p :: y).length ≤ fuel := by
      rw [← hr, (ring_perm h.nodup hc).length_eq]
      exact hf
    have hloop := getNextLoop_spec h.toLinked hc y (x := []) hr hlen
    rw [hr] at hloop
    rw [Option.bind_some, Option.bind_some, hr]
    exact hloop

theorem nextOf_mem (h : Listed s l) (hp : nextOf s l = some p) : p ∈ l ∧ isRunnable s p = true := by
  unfold nextOf at hp
  obtain ⟨c, hc, hfind⟩ := Option.bind_eq_some_iff.mp hp
  exact ⟨(mem_ring h.nodup (h.current c hc)).mp (List.mem_of_find?_eq_some hfind),
    List.find?_some hfind⟩

theorem nextOf_none (h : Listed s l) : nextOf s l = none ↔ ∀ p ∈ l, ¬ isRunnable s p = true := by
  unfold nextOf
  cases hcur : s.current with
  | none =>
    rw [h.lost hcur]
    exact ⟨fun _ p hp => absurd hp List.not_mem_nil, fun _ => rfl⟩
  | some c =>
    rw [Option.bind_some, List.find?_eq_none]
    constructor
    · intro hall p hp
      exact hall p ((mem_ring h.nodup (h.current c hcur)).mpr hp)
    · intro hall p hp
      exact hall p ((mem_ring h.nodup (h.current c hcur)).mp hp)

/-! ## A task without its links -/

def Task.body (t : Task) : Task := { t with next := none, prev := none }

def bodyAt (s : TaskList) (p : Nat) : Option Task := (s.tasks p).map Task.body

theorem isRunnable_body (s : TaskList) (p : Nat) :
    isRunnable s p = (bodyAt s p).any fun t => t.state = .runnable := by
  unfold isRunnable bodyAt
  cases s.tasks p <;> rfl

/-- The tasks at the address `p`, if there is one, changed by `f`. -/
def patch (p : Option Nat) (f : Task → Task) (s : TaskList) : TaskList :=
  { s with tasks := fun q => if p = some q then (s.tasks q).map f else s.tasks q }

theorem setTask_patch (h : s.tasks p = some t) (f : Task → Task) :
    setTask p (some (f t)) s = patch (some p) f s := by
  unfold setTask patch
  congr 1
  funext q
  by_cases hq : q = p
  · rw [hq, Function.update_self, if_pos rfl, h]
    rfl
  · rw [Function.update_of_ne hq, if_neg fun he => hq (Option.some.inj he).symm]

theorem updateTask_ok (h : s.tasks p = some t) (f : Task → Task) :
    updateTask (some p) f s = (.ok (), patch (some p) f s) := by
  rw [← setTask_patch h]
  unfold updateTask
  dsimp only
  rw [h]

theorem updateUnlessNull_ok {p : Option Nat} (h : ∀ q, p = some q → ∃ t, s.tasks q = some t)
    (f : Task → Task) : updateUnlessNull p f s = (.ok (), patch p f s) := by
  unfold updateUnlessNull
  cases p with
  | none => rfl
  | some p =>
    obtain ⟨t, ht⟩ := h p rfl
    rw [if_neg (fun he => (by cases he)), updateTask_ok ht]

theorem patch_tasks (p : Option Nat) (f : Task → Task) (s : TaskList) (q : Nat) :
    (patch p f s).tasks q = if p = some q then (s.tasks q).map f else s.tasks q := rfl

theorem patch_body (hf : ∀ t, (f t).body = t.body) (p : Option Nat) (q : Nat) :
    bodyAt (patch p f s) q = bodyAt s q := by
  unfold bodyAt
  rw [patch_tasks]
  by_cases hq : p = some q
  · rw [if_pos hq, Option.map_map]
    congr 1
    funext t
    exact hf t
  · rw [if_neg hq]

/-! ## Publishing -/

/-- The list after the tail `z` has got `p` behind it. -/
def joined (z p : Nat) (s : TaskList) : TaskList :=
  { patch (some p) (fun t => { t with prev := some z })
      (patch (some z) (fun t => { t with next := some p }) s) with tail := some p }

theorem taskPublish_joined {z : Nat} {tz : Task} (hhead : s.head ≠ none) (htail : s.tail = some z)
    (hz : s.tasks z = some tz) (ht : s.tasks p = some t) (hpz : p ≠ z) :
    taskPublish p s = (.ok (), joined z p s) := by
  have ht' : (patch (some z) (fun t => { t with next := some p }) s).tasks p = some t := by
    rw [patch_tasks, if_neg fun he => hpz (Option.some.inj he).symm, ht]
  unfold taskPublish
  rw [Prog.bind_ok (Prog.look_apply _ s), if_neg hhead, Prog.bind_ok (Prog.look_apply _ s), htail,
    Prog.bind_ok (updateTask_ok hz _), Prog.bind_ok (updateTask_ok ht' _)]
  rfl

theorem Linked.joined {z : Nat} (h : Linked s (l ++ [z])) (hp : p ∉ l ++ [z])
    (ht : s.tasks p = some t) (hnext : t.next = none) :
    Linked (joined z p s) (l ++ [z] ++ [p]) := by
  have hne : ∀ q ∈ l ++ [z], some p ≠ some q := by
    intro q hq he
    obtain rfl := Option.some.inj he
    exact hp hq
  have hlz : z ∉ l := fun hm => (List.nodup_append.mp h.nodup).2.2 z hm z List.mem_cons_self rfl
  refine ⟨?_, ?_, ?_, ?_⟩
  · exact List.nodup_append.mpr ⟨h.nodup, List.nodup_singleton p, fun a ha b hb he => hp (by
      rw [← List.mem_singleton.mp hb, ← he]
      exact ha)⟩
  · show s.head = _
    rw [h.head]
    simp
  · show some p = _
    simp
  · intro a q b hl
    rcases List.eq_nil_or_concat b with rfl | ⟨b', r, rfl⟩
    · -- the new task
      obtain ⟨rfl, hq⟩ := List.append_inj' hl rfl
      obtain rfl : p = q := (List.cons.inj hq).1
      refine ⟨{ t with prev := some z }, ?_, hnext, ?_⟩
      · show (patch _ _ _).tasks p = _
        rw [patch_tasks, if_pos rfl, patch_tasks,
          if_neg (fun he => hne z (by simp) he.symm), ht]
        rfl
      · simp
    · rw [List.concat_eq_append, ← List.cons_append, ← List.append_assoc] at hl
      obtain ⟨hl', hr⟩ := List.append_inj' hl rfl
      obtain rfl : p = r := (List.cons.inj hr).1
      obtain ⟨tq, h1, h2, h3⟩ := h.node a q b' hl'
      have hq : q ∈ l ++ [z] := hl' ▸ List.mem_append_right _ List.mem_cons_self
      have htask : ∀ f g, (patch (some p) f (patch (some z) g s)).tasks q =
          if some z = some q then some (g tq) else some tq := by
        intro f g
        rw [patch_tasks, if_neg (hne q hq), patch_tasks, h1]
        rfl
      rcases List.eq_nil_or_concat b' with rfl | ⟨b'', r', rfl⟩
      · -- the old tail
        obtain ⟨rfl, hz⟩ := List.append_inj' hl' rfl
        obtain rfl : z = q := (List.cons.inj hz).1
        refine ⟨_, (htask _ _).trans (if_pos rfl), rfl, h3⟩
      · have hzq : some z ≠ some q := by
          intro he
          obtain rfl := Option.some.inj he
          rw [List.concat_eq_append, ← List.cons_append, ← List.append_assoc] at hl'
          have h4 := (List.append_inj' hl' rfl).1
          exact hlz (h4 ▸ List.mem_append_right _ List.mem_cons_self)
        refine ⟨tq, (htask _ _).trans (if_neg hzq), ?_, h3⟩
        rw [h2]
        simp

theorem Listed.current_none (h : Listed s l) : s.current = none ↔ l = [] := by
  constructor
  · exact h.lost
  · intro hl
    cases hc : s.current with
    | none => rfl
    | some c =>
      have hm := h.current c hc
      rw [hl] at hm
      cases hm

theorem taskPublish_spec (h : Listed s l) (hp : p ∉ l) (ht : s.tasks p = some t)
    (hnext : t.next = none) (hprev : t.prev = none) :
    ∃ s', taskPublish p s = (.ok (), s') ∧ Listed s' (l ++ [p]) ∧
      s'.current = s.current.or (some p) ∧ s'.directory = s.directory ∧
      ∀ q, bodyAt s' q = bodyAt s q := by
  rcases List.eq_nil_or_concat l with rfl | ⟨l', z, rfl⟩
  · have hhead : s.head = none := h.head
    refine ⟨{ s with head := some p, tail := some p, current := some p }, ?_,
      ⟨⟨List.nodup_singleton p, rfl, rfl, ?_⟩, ?_, fun hc => (by cases hc)⟩, ?_, rfl, fun q => rfl⟩
    · unfold taskPublish
      rw [Prog.bind_ok (Prog.look_apply _ s), if_pos hhead]
      rfl
    · intro a q b hl
      cases a with
      | nil =>
        obtain ⟨rfl, rfl⟩ := List.cons.inj hl
        exact ⟨t, ht, hnext, hprev⟩
      | cons x a =>
        have hlen := congrArg List.length hl
        simp at hlen
    · intro c hc
      obtain rfl := Option.some.inj hc
      exact List.mem_singleton_self p
    · rw [h.current_none.mpr rfl]
      rfl
  · rw [List.concat_eq_append] at h hp ⊢
    have hz : z ∈ l' ++ [z] := List.mem_append_right _ List.mem_cons_self
    obtain ⟨tz, htz⟩ := h.task hz
    obtain ⟨c, hc⟩ : ∃ c, s.current = some c := by
      refine Option.ne_none_iff_exists'.mp fun hn => ?_
      have hl := h.lost hn
      simp at hl
    refine ⟨joined z p s, ?_, ⟨h.toLinked.joined hp ht hnext, ?_, ?_⟩, ?_, rfl, ?_⟩
    · refine taskPublish_joined ?_ ?_ htz ht fun he => hp (he ▸ hz)
      · rw [h.head]
        simp
      · rw [h.tail]
        simp
    · exact fun d hd => List.mem_append_left _ (h.current d hd)
    · intro hn
      have h1 : s.current = none := hn
      rw [hc] at h1
      cases h1
    · show s.current = _
      rw [hc]
      rfl
    · intro q
      show bodyAt (patch (some p) (fun t => { t with prev := some z })
        (patch (some z) (fun t => { t with next := some p }) s)) q = _
      rw [patch_body, patch_body]
      · exact fun _ => rfl
      · exact fun _ => rfl

/-! ## Removing -/

/-- The neighbours of `t` linked to each other. -/
def bridged (t : Task) (s : TaskList) : TaskList :=
  patch t.next (fun q => { q with prev := t.prev }) (patch t.prev
    (fun q => { q with next := t.next }) s)

/-- Head, tail and current task once the task `t` at `p` has left the list. -/
def anchored (p : Nat) (t : Task) (s : TaskList) : TaskList :=
  let head := if s.head = some p then t.next else s.head
  { s with
    head := head
    tail := if s.tail = some p then t.prev else s.tail
    current := if s.current = some p then t.next.or head else s.current }

/-- The list after the task `t` at `p` has left it and is gone. -/
def unlinked (p : Nat) (t : Task) (s : TaskList) : TaskList :=
  setTask p none (anchored p t (bridged t s))

theorem unlinked_tasks {q : Nat} (hq : q ≠ p) :
    (unlinked p t s).tasks q = (bridged t s).tasks q := by
  unfold unlinked setTask
  exact Function.update_of_ne hq _ _

theorem taskListRemove_run (ht : s.tasks p = some t)
    (hprev : ∀ q, t.prev = some q → q ≠ p ∧ ∃ t, s.tasks q = some t)
    (hnext : ∀ q, t.next = some q → q ≠ p ∧ ∃ t, s.tasks q = some t) :
    taskListRemove p s = (.ok (), patch (some p) (fun q => { q with prev := none, next := none })
      (anchored p t (bridged t s))) ∧ (bridged t s).tasks p = some t := by
  have h1 : (patch t.prev (fun q => { q with next := t.next }) s).tasks p = some t := by
    rw [patch_tasks, if_neg fun he => (hprev p he).1 rfl, ht]
  have h2 : ∀ q, t.next = some q →
      ∃ t', (patch t.prev (fun q => { q with next := t.next }) s).tasks q = some t' := by
    intro q hq
    obtain ⟨tq, htq⟩ := (hnext q hq).2
    rw [patch_tasks, htq]
    split
    · exact ⟨_, rfl⟩
    · exact ⟨_, rfl⟩
  have h3 : (bridged t s).tasks p = some t := by
    unfold bridged
    rw [patch_tasks, if_neg fun he => (hnext p he).1 rfl, h1]
  have hbridge : updateUnlessNull t.next (fun q => { q with prev := t.prev })
      (patch t.prev (fun q => { q with next := t.next }) s) = (.ok (), bridged t s) :=
    updateUnlessNull_ok h2 _
  have hanchor : ∀ u : TaskList,
      (fun s : TaskList => if s.current = some p then { s with current := t.next.or s.head } else s)
        ((fun s : TaskList => if s.tail = some p then { s with tail := t.prev } else s)
          ((fun s : TaskList => if s.head = some p then { s with head := t.next } else s) u)) =
        anchored p t u := by
    intro u
    unfold anchored
    by_cases ha : u.head = some p <;> by_cases hb : u.tail = some p <;>
      by_cases hc : u.current = some p <;> simp [ha, hb, hc]
  refine ⟨?_, h3⟩
  unfold taskListRemove
  rw [Prog.bind_ok (taskAt_ok ht), Prog.bind_ok (updateUnlessNull_ok (fun q hq => (hprev q hq).2)
    _), Prog.bind_ok (taskAt_ok h1), Prog.bind_ok hbridge,
    Prog.bind_ok (taskAt_ok h3), Prog.bind_ok (Prog.change_apply _ _),
    Prog.bind_ok (Prog.change_apply _ _), Prog.bind_ok (Prog.change_apply _ _)]
  have hend := updateTask_ok (s := anchored p t (bridged t s)) h3
    (fun q => { q with prev := none, next := none })
  exact (congrArg (updateTask (some p) _) (hanchor (bridged t s))).trans hend

theorem taskFree_run (ht : s.tasks p = some t)
    (hprev : ∀ q, t.prev = some q → q ≠ p ∧ ∃ t, s.tasks q = some t)
    (hnext : ∀ q, t.next = some q → q ≠ p ∧ ∃ t, s.tasks q = some t) :
    taskFree (some p) s = (.ok (), unlinked p t s) := by
  obtain ⟨hrun, htask⟩ := taskListRemove_run ht hprev hnext
  have hlast : (patch (some p) (fun q => { q with prev := none, next := none })
      (anchored p t (bridged t s))).tasks p = some { t with prev := none, next := none } := by
    rw [patch_tasks, if_pos rfl, show (anchored p t (bridged t s)).tasks p = some t from htask]
    rfl
  show (taskListRemove p >>= fun _ => taskDiscard p) s = _
  rw [Prog.bind_ok hrun]
  unfold taskDiscard
  rw [Prog.bind_ok (taskAt_ok hlast), Prog.change_apply]
  congr 1
  unfold unlinked setTask
  congr 1
  funext q
  by_cases hq : q = p
  · rw [hq, Function.update_self, Function.update_self]
  · rw [Function.update_of_ne hq, Function.update_of_ne hq, patch_tasks,
      if_neg fun he => hq (Option.some.inj he).symm]

theorem Linked.unlinked {a b : List Nat} (h : Linked s (a ++ p :: b)) (hnext : t.next = b.head?)
    (hprev : t.prev = a.getLast?) : Linked (unlinked p t s) (a ++ b) := by
  have hnd := List.nodup_cons.mp (List.nodup_middle.mp h.nodup)
  have hpa : p ∉ a := fun hm => hnd.1 (List.mem_append_left _ hm)
  have hpb : p ∉ b := fun hm => hnd.1 (List.mem_append_right _ hm)
  have htask : ∀ q, q ≠ p → ∀ u, s.tasks q = some u → (Sched.unlinked p t s).tasks q =
      some { u with
        next := if t.prev = some q then t.next else u.next
        prev := if t.next = some q then t.prev else u.prev } := by
    intro q hq u hu
    rw [unlinked_tasks hq]
    unfold bridged
    rw [patch_tasks, patch_tasks, hu]
    by_cases hc1 : t.prev = some q <;> by_cases hc2 : t.next = some q <;> simp [hc1, hc2]
  refine ⟨hnd.2, ?_, ?_, ?_⟩
  · show (if s.head = some p then t.next else s.head) = _
    rw [h.head, hnext]
    cases a with
    | nil => simp
    | cons x a =>
      have hx : x ≠ p := fun he => hpa (he ▸ List.mem_cons_self)
      simp [hx]
  · show (if s.tail = some p then t.prev else s.tail) = _
    rw [h.tail, hprev]
    rcases List.eq_nil_or_concat b with rfl | ⟨b', z, rfl⟩
    · simp
    · have hz : z ≠ p := fun he => hpb (by simp [he])
      rw [List.concat_eq_append]
      simp [hz, List.getLast?_cons]
  · intro a' q b' hl
    rcases List.append_eq_append_iff.mp hl with ⟨m, rfl, rfl⟩ | ⟨m, rfl, hm⟩
    · -- behind the gap
      obtain ⟨u, h1, h2, h3⟩ := h.node (a ++ p :: m) q b' (by simp)
      have hq : q ≠ p := fun he => hpb (by simp [he])
      have hqa : q ∉ a := by
        intro hm
        exact (List.nodup_append.mp hnd.2).2.2 q hm q (by simp) rfl
      refine ⟨_, htask q hq u h1, ?_, ?_⟩
      · have hne : t.prev ≠ some q := by
          rw [hprev]
          exact fun he => hqa (List.mem_of_getLast? he)
        rw [if_neg hne, h2]
      · rw [hnext, hprev, h3]
        cases m with
        | nil => simp
        | cons x m =>
          have hx : x ≠ q := by
            rintro rfl
            have h4 := (List.nodup_append.mp hnd.2).2.1
            simp at h4
          simp [hx]
    · cases m with
      | nil =>
        -- right behind the gap
        obtain rfl : q :: b' = b := hm
        rw [List.append_nil] at h hpa hprev hnd
        obtain ⟨u, h1, h2, h3⟩ := h.node (a' ++ [p]) q b' (by simp)
        have hq : q ≠ p := fun he => hpb (by simp [he])
        have hqa : q ∉ a' := fun hm => (List.nodup_append.mp hnd.2).2.2 q hm q (by simp) rfl
        refine ⟨_, htask q hq u h1, ?_, ?_⟩
        · have hne : t.prev ≠ some q := by
            rw [hprev]
            exact fun he => hqa (List.mem_of_getLast? he)
          rw [if_neg hne, h2]
        · rw [if_pos (show t.next = some q from hnext), hprev]
      | cons x m =>
        -- before the gap
        obtain ⟨rfl, rfl⟩ := List.cons.inj hm
        obtain ⟨u, h1, h2, h3⟩ := h.node a' q (m ++ p :: b) (by simp)
        have hq : q ≠ p := fun he => hpa (by simp [he])
        have hqb : q ∉ b := fun hm => (List.nodup_append.mp hnd.2).2.2 q (by simp) q hm rfl
        refine ⟨_, htask q hq u h1, ?_, ?_⟩
        · rw [hprev, hnext, h2]
          rcases List.eq_nil_or_concat m with rfl | ⟨m', z, rfl⟩
          · simp
          · have hz : z ≠ q := by
              rintro rfl
              have h4 := (List.nodup_append.mp (List.nodup_append.mp hnd.2).1).2.1
              simp at h4
            rw [if_neg]
            · cases m' <;> simp
            · simp [hz, List.getLast?_cons]
        · have hne : t.next ≠ some q := by
            rw [hnext]
            exact fun he => hqb (List.mem_of_mem_head? he)
          rw [if_neg hne, h3]

/-- The task that takes over when the current one leaves: the one behind it, else the head. -/
def heir (l : List Nat) (p : Nat) : Option Nat := (ring l p).dropLast.head?

theorem heir_split {a b : List Nat} (ha : p ∉ a) : heir (a ++ p :: b) p = b.head?.or a.head? := by
  unfold heir
  rw [ring_split ha, List.dropLast_concat, List.head?_append]

theorem heir_mem (hn : l.Nodup) (hp : p ∈ l) (hc : heir l p = some c) : c ∈ l.erase p := by
  obtain ⟨a, b, rfl, ha, -⟩ := exists_split hn hp
  rw [heir_split ha, ← List.head?_append] at hc
  rw [List.erase_append_right _ ha, List.erase_cons_head]
  exact (List.perm_append_comm.mem_iff).mp (List.mem_of_mem_head? hc)

theorem heir_none (hn : l.Nodup) (hp : p ∈ l) : heir l p = none ↔ l.erase p = [] := by
  obtain ⟨a, b, rfl, ha, -⟩ := exists_split hn hp
  rw [heir_split ha, ← List.head?_append, List.head?_eq_none_iff, List.append_eq_nil_iff,
    List.erase_append_right _ ha, List.erase_cons_head, List.append_eq_nil_iff, and_comm]

theorem taskFree_spec (h : Listed s l) (hp : p ∈ l) :
    ∃ s', taskFree (some p) s = (.ok (), s') ∧ Listed s' (l.erase p) ∧
      s'.current = (if s.current = some p then heir l p else s.current) ∧
      s'.directory = s.directory ∧ s'.tasks p = none ∧ ∀ q, q ≠ p → bodyAt s' q = bodyAt s q := by
  have hheir := fun c => heir_mem h.nodup hp (c := c)
  have hnone := heir_none h.nodup hp
  obtain ⟨a, b, rfl, ha, hb⟩ := exists_split h.nodup hp
  obtain ⟨t, ht, hnext, hprev⟩ := h.node a p b rfl
  have hcur : (unlinked p t s).current =
      if s.current = some p then heir (a ++ p :: b) p else s.current := by
    show (if s.current = some p then t.next.or (if s.head = some p then t.next else s.head)
      else s.current) = _
    rw [heir_split ha, hnext, h.head]
    congr 1
    cases a with
    | nil => cases b <;> simp
    | cons x a =>
      have hx : x ≠ p := fun he => ha (he ▸ List.mem_cons_self)
      simp [hx]
  refine ⟨unlinked p t s, taskFree_run ht ?_ ?_, ⟨?_, ?_, ?_⟩, hcur, rfl, ?_, ?_⟩
  · intro q hq
    have hm := List.mem_of_getLast? (hprev ▸ hq)
    exact ⟨fun he => ha (he ▸ hm), h.task (List.mem_append_left _ hm)⟩
  · intro q hq
    have hm := List.mem_of_mem_head? (hnext ▸ hq)
    exact ⟨fun he => hb (he ▸ hm), h.task (List.mem_append_right _ (List.mem_cons_of_mem _ hm))⟩
  · rw [List.erase_append_right _ ha, List.erase_cons_head]
    exact h.toLinked.unlinked hnext hprev
  · intro c hc
    rw [hcur] at hc
    split at hc
    · exact hheir c hc
    · have hne : c ≠ p := fun he => ‹¬ _› (he ▸ hc)
      exact (List.mem_erase_of_ne hne).mpr (h.current c hc)
  · intro hc
    rw [hcur] at hc
    split at hc
    · exact hnone.mp hc
    · have hl := h.lost hc
      simp at hl
  · exact Function.update_self p none (bridged t s).tasks
  · intro q hq
    rw [show bodyAt (unlinked p t s) q = bodyAt (bridged t s) q from
      congrArg (Option.map Task.body) (unlinked_tasks hq)]
    unfold bridged
    rw [patch_body, patch_body]
    · exact fun _ => rfl
    · exact fun _ => rfl

/-! ## Sleeping, waking, switching -/

theorem Linked.patch (h : Linked s l) (hf : ∀ t, (f t).next = t.next ∧ (f t).prev = t.prev)
    (p : Option Nat) : Linked (patch p f s) l := by
  refine h.congr rfl rfl fun q _ t ht => ?_
  rw [patch_tasks, ht]
  split
  · exact ⟨f t, rfl, hf t⟩
  · exact ⟨t, rfl, rfl, rfl⟩

/-- What the scan does to a task. -/
def Task.woken (now : UInt32) (t : Task) : Task :=
  if t.Due now then { t with state := .runnable } else t

theorem Task.woken_links (now : UInt32) (t : Task) :
    (t.woken now).next = t.next ∧ (t.woken now).prev = t.prev := by
  unfold Task.woken
  split
  · exact ⟨rfl, rfl⟩
  · exact ⟨rfl, rfl⟩

theorem patch_self (ht : s.tasks p = some t) (hf : f t = t) : patch (some p) f s = s := by
  have htasks : (patch (some p) f s).tasks = s.tasks := by
    funext q
    rw [patch_tasks]
    by_cases hq : some p = some q
    · rw [if_pos hq, ← Option.some.inj hq, ht, Option.map_some, hf]
    · rw [if_neg hq]
  show { s with tasks := (Sched.patch (some p) f s).tasks } = s
  rw [htasks]

theorem patch_congr (ht : s.tasks p = some t) {g : Task → Task} (hfg : f t = g t) :
    patch (some p) f s = patch (some p) g s := by
  unfold Sched.patch
  congr 1
  funext q
  by_cases hq : some p = some q
  · rw [if_pos hq, if_pos hq, ← Option.some.inj hq, ht, Option.map_some, Option.map_some, hfg]
  · rw [if_neg hq, if_neg hq]

theorem wake_run (ht : s.tasks p = some t) (now : UInt32) :
    (if t.Due now then updateTask (some p) (fun t => { t with state := .runnable })
      else pure () : TaskProg Unit) s = (.ok (), patch (some p) (Task.woken now) s) := by
  by_cases hdue : t.Due now
  · rw [if_pos hdue, updateTask_ok ht]
    congr 1
    refine patch_congr ht ?_
    unfold Task.woken
    rw [if_pos hdue]
  · rw [if_neg hdue, patch_self ht]
    · rfl
    · unfold Task.woken
      rw [if_neg hdue]

/-- The tasks of `l` after the scan. -/
def wokenOn (now : UInt32) (l : List Nat) (s : TaskList) : TaskList :=
  l.foldl (fun s p => patch (some p) (Task.woken now) s) s

theorem wakeLoop_spec (now : UInt32) (b : List Nat) :
    ∀ {s : TaskList} {a : List Nat} {fuel : Nat}, Linked s (a ++ b) → b.length ≤ fuel →
      wakeLoop now fuel b.head? s = (.ok (), wokenOn now b s) := by
  induction b with
  | nil =>
    intro s a fuel _ _
    cases fuel <;> rfl
  | cons p b ih =>
    intro s a fuel h hf
    obtain ⟨fuel, rfl⟩ : ∃ k, fuel = k + 1 :=
      ⟨fuel - 1, by simp only [List.length_cons] at hf; omega⟩
    obtain ⟨t, ht, hnext, -⟩ := h.node a p b rfl
    have ht' : (patch (some p) (Task.woken now) s).tasks p = some (t.woken now) := by
      rw [patch_tasks, if_pos rfl, ht]
      rfl
    show wakeLoop now (fuel + 1) (some p) s = _
    unfold wakeLoop
    rw [Prog.bind_ok (taskAt_ok ht), Prog.bind_ok (wake_run ht now), Prog.bind_ok (taskAt_ok ht'),
      (Task.woken_links now t).1, hnext]
    refine ih (a := a ++ [p]) ?_ (by simp only [List.length_cons] at hf; omega)
    rw [List.append_assoc]
    exact h.patch (Task.woken_links now) (some p)

theorem wokenOn_linked (h : Linked s l) (now : UInt32) (b : List Nat) :
    Linked (wokenOn now b s) l := by
  induction b generalizing s with
  | nil => exact h
  | cons p b ih => exact ih (h.patch (Task.woken_links now) (some p))

theorem wokenOn_anchors (now : UInt32) (b : List Nat) : ∀ s : TaskList,
    (wokenOn now b s).current = s.current ∧ (wokenOn now b s).directory = s.directory := by
  induction b with
  | nil => exact fun s => ⟨rfl, rfl⟩
  | cons p b ih => exact fun s => ih (patch (some p) (Task.woken now) s)

theorem Task.woken_woken (now : UInt32) (t : Task) : (t.woken now).woken now = t.woken now := by
  unfold Task.woken
  by_cases hdue : t.Due now
  · rw [if_pos hdue, if_neg fun h => (by cases h.1)]
  · rw [if_neg hdue, if_neg hdue]

theorem wokenOn_tasks (now : UInt32) (b : List Nat) : ∀ (s : TaskList) (q : Nat),
    (wokenOn now b s).tasks q = if q ∈ b then (s.tasks q).map (Task.woken now) else s.tasks q := by
  induction b with
  | nil => exact fun s q => rfl
  | cons p b ih =>
    intro s q
    show (wokenOn now b (Sched.patch (some p) (Task.woken now) s)).tasks q = _
    rw [ih, patch_tasks]
    by_cases hb : q ∈ b <;> by_cases hp : p = q
    · rw [if_pos hb, if_pos (congrArg some hp), if_pos (List.mem_cons_of_mem _ hb), Option.map_map]
      congr 1
      funext t
      exact Task.woken_woken now t
    · rw [if_pos hb, if_neg fun he => hp (Option.some.inj he), if_pos (List.mem_cons_of_mem _ hb)]
    · rw [if_neg hb, if_pos (congrArg some hp), if_pos (hp ▸ List.mem_cons_self)]
    · rw [if_neg hb, if_neg fun he => hp (Option.some.inj he),
        if_neg fun hm => (List.mem_cons.mp hm).elim (fun he => hp he.symm) hb]

theorem taskWakeSleepers_spec (h : Linked s l) (hf : l.length ≤ fuel) (now : UInt32) :
    taskWakeSleepers fuel now s = (.ok (), wokenOn now l s) := by
  unfold taskWakeSleepers
  rw [Prog.bind_ok (Prog.look_apply _ s), h.head]
  exact wakeLoop_spec now l (a := []) h hf

theorem Listed.wokenOn (h : Listed s l) (now : UInt32) : Listed (wokenOn now l s) l := by
  obtain ⟨hcur, -⟩ := wokenOn_anchors now l s
  refine ⟨wokenOn_linked h.toLinked now l, ?_, ?_⟩
  · rw [hcur]
    exact h.current
  · rw [hcur]
    exact h.lost

theorem Listed.patch (h : Listed s l) (hf : ∀ t, (f t).next = t.next ∧ (f t).prev = t.prev)
    (p : Option Nat) : Listed (patch p f s) l :=
  ⟨h.toLinked.patch hf p, h.current, h.lost⟩

/-- The mark of a sleeping task. -/
def Task.asleep (deadline : UInt32) (t : Task) : Task :=
  { t with wakeTick := deadline, state := .sleeping }

theorem markSleeping_spec (h : Listed s l) (hc : s.current = some c) (deadline : UInt32) :
    markSleeping deadline s = (.ok (), patch (some c) (Task.asleep deadline) s) := by
  obtain ⟨t, ht⟩ := h.task (h.current c hc)
  unfold markSleeping
  rw [Prog.bind_ok (Prog.look_apply _ s), hc]
  exact updateTask_ok ht _

/-- `p` as the task in the CPU. -/
def switched (p : Nat) (s : TaskList) : TaskList :=
  { s with current := some p, directory := (s.tasks p).map Task.pageDirectory }

theorem taskSwitch_run (ht : s.tasks p = some t) : taskSwitch p s = (.ok (), switched p s) := by
  have hsame : ({ s with current := some p } : TaskList).tasks p = some t := ht
  unfold taskSwitch switched
  rw [Prog.bind_ok (Prog.change_apply _ s), Prog.bind_ok (taskAt_ok hsame), ht]
  rfl

theorem Listed.switched (h : Listed s l) (hp : p ∈ l) : Listed (switched p s) l := by
  refine ⟨h.toLinked.congr rfl rfl fun q _ u hu => ⟨u, hu, rfl, rfl⟩, ?_, fun hn => (by cases hn)⟩
  intro c hc
  obtain rfl := Option.some.inj hc
  exact hp

theorem dispatch_run (ht : s.tasks p = some t) : dispatch p s = (.ok (some p), switched p s) := by
  unfold dispatch
  rw [Prog.bind_ok (taskSwitch_run ht), Prog.bind_ok (taskAt_ok (s := Sched.switched p s) ht)]
  rfl

/-! ## `task_next` -/

/-- The list under the kernel's own addressing. -/
def halted (s : TaskList) : TaskList := { s with directory := none }

theorem Listed.halted (h : Listed s l) : Listed (halted s) l :=
  ⟨h.toLinked.congr rfl rfl fun _ _ u hu => ⟨u, hu, rfl, rfl⟩, h.current, h.lost⟩

/-- The list after a look: the next task in the CPU, or the halt. -/
def looked (l : List Nat) (s : TaskList) : TaskList :=
  match nextOf s l with
  | some p => switched p s
  | none => halted s

theorem lookAround_spec (h : Listed s l) (hf : l.length ≤ fuel) :
    lookAround fuel s = (.ok (nextOf s l), looked l s) := by
  unfold lookAround looked
  rw [Prog.bind_ok (taskGetNext_spec h hf)]
  cases hn : nextOf s l with
  | none => rfl
  | some p =>
    obtain ⟨t, ht⟩ := h.task (nextOf_mem h hn).1
    exact dispatch_run ht

theorem taskNext_spec (h : Listed s l) (hne : l ≠ []) (hf : l.length ≤ fuel) :
    taskNext fuel s = (.ok (nextOf s l), looked l s) := by
  have hhead : s.head ≠ none := by
    rw [h.head]
    exact fun he => hne (List.head?_eq_none_iff.mp he)
  unfold taskNext Prog.refuse
  rw [Prog.bind_ok (Prog.look_apply _ s), if_neg hhead]
  exact lookAround_spec h hf

theorem Listed.looked (h : Listed s l) : Listed (looked l s) l := by
  unfold Sched.looked
  cases hn : nextOf s l with
  | none => exact h.halted
  | some p => exact h.switched (nextOf_mem h hn).1

theorem looked_tasks (s : TaskList) (l : List Nat) : (looked l s).tasks = s.tasks := by
  unfold looked
  cases nextOf s l <;> rfl

end Rorthox.Sched
