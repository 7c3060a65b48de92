import Rorthox.Sched.Sleep

/-!
# Whose turn it is

Each switch takes the first runnable task behind the current one. When the current task
ends, the one behind it becomes current without having run, and the search then starts
behind it: it gets its turn last. Apart from that no runnable task is passed over.
-/

namespace Rorthox.Sched

open Lib

variable {m m' : Machine} {l : List Nat} {a b c : Nat} {e : Event} {d : Option Nat}

/-- Going round from behind `c`, `b` comes before `a`. -/
def Ahead (a b : Nat) (l : List Nat) (c : Nat) : Prop := ∃ x y, ring l c = x ++ b :: y ∧ a ∉ x

theorem ahead_start (hn : l.Nodup) (ha : a ∈ l) (hb : b ∈ l) (hab : a ≠ b) : Ahead a b l a := by
  have hring := ring_nodup hn ha
  have hmem : b ∈ ring l a := (mem_ring hn ha).mpr hb
  obtain ⟨u, v, rfl, hau, -⟩ := exists_split hn ha
  rw [ring_split hau] at hmem hring
  have hb' : b ∈ v ++ u := by
    rcases List.mem_append.mp hmem with hm | hm
    · exact hm
    · exact absurd (List.mem_singleton.mp hm).symm hab
  obtain ⟨x, y, hxy⟩ := List.append_of_mem hb'
  refine ⟨x, y ++ [a], ?_, ?_⟩
  · rw [ring_split hau, hxy, List.append_assoc]
    rfl
  · intro hx
    have hnot := (List.nodup_append.mp hring).2.2 a (by rw [hxy]; exact List.mem_append_left _ hx) a
      List.mem_cons_self
    exact hnot rfl

/-- The next task behind `c` is `b`, or one before it that is not `a`. -/
theorem ahead_next {s : TaskList} (h : Listed s l) (hc : s.current = some c) (hah : Ahead a b l c)
    (hb : isRunnable s b = true) :
    nextOf s l = some b ∨ ∃ p, nextOf s l = some p ∧ p ≠ a ∧ Ahead a b l p := by
  obtain ⟨x, y, hr, hax⟩ := hah
  unfold nextOf
  rw [hc, Option.bind_some, hr, List.find?_append]
  cases hx : x.find? (isRunnable s) with
  | none =>
    left
    rw [Option.none_or, List.find?_cons_of_pos hb]
  | some p =>
    right
    have hp : p ∈ x := List.mem_of_find?_eq_some hx
    obtain ⟨x1, x2, rfl⟩ := List.append_of_mem hp
    refine ⟨p, rfl, fun he => hax (he ▸ hp), x2, y ++ x1 ++ [p], ?_, ?_⟩
    · rw [List.append_assoc, List.cons_append] at hr
      rw [ring_turn h.nodup (h.current c hc) hr]
      simp only [List.append_assoc, List.cons_append]
    · exact fun hm => hax (List.mem_append_right _ (List.mem_cons_of_mem _ hm))

/-- The end of the current task: the one that takes over is `b`, or `b` keeps its place. -/
theorem ahead_heir (hn : l.Nodup) (hc : c ∈ l) (hah : Ahead a b l c) (hbc : b ≠ c) :
    ∃ h, heir l c = some h ∧ (h = b ∨ Ahead a b (l.erase c) h) := by
  obtain ⟨x, y, hr, hax⟩ := hah
  have hlast : ring l c = (ring l c).dropLast ++ [c] := by
    obtain ⟨u, v, rfl, hu, -⟩ := exists_split hn hc
    rw [ring_split hu, List.dropLast_concat]
  -- `c` itself comes last, so it stands behind `b`
  obtain ⟨y, rfl⟩ : ∃ y', y = y' ++ [c] := by
    rcases List.eq_nil_or_concat y with rfl | ⟨y', z, rfl⟩
    · rw [hr] at hlast
      exact absurd (List.cons.inj (List.append_inj' hlast rfl).2).1 hbc
    · rw [hr, List.concat_eq_append, ← List.cons_append, ← List.append_assoc] at hlast
      rw [(List.cons.inj (List.append_inj' hlast rfl).2).1, List.concat_eq_append]
      exact ⟨y', rfl⟩
  have hdrop : (ring l c).dropLast = x ++ b :: y := by
    rw [hr, ← List.cons_append, ← List.append_assoc, List.dropLast_concat]
  unfold heir
  rw [hdrop]
  cases x with
  | nil => exact ⟨b, rfl, .inl rfl⟩
  | cons h x =>
    refine ⟨h, rfl, .inr ⟨x, y ++ [h], ?_, fun hm => hax (List.mem_cons_of_mem _ hm)⟩⟩
    rw [ring_erase (s := h) (r := x ++ b :: y) hn hc (by
      rw [hlast, hdrop]
      rfl)]
    simp only [List.append_assoc, List.cons_append]

/-! ## Steps that keep the turns -/

/-- If the task that takes over from the current one is runnable, no other task is. -/
def TurnKept (m : Machine) : Prop :=
  ∀ l c h, Listed m.list l → m.list.current = some c → heir l c = some h →
    isRunnable m.list h = true → ∀ q ∈ l, q ≠ c → isRunnable m.list q = true → q = h

def Event.Spawns : Event → Prop
  | .spawn _ _ _ _ => True
  | _ => False

/-- The step publishes no task, leaves `b` runnable, and keeps the turns if it ends a task. -/
structure Kept (b : Nat) (m : Machine) (e : Event) (m' : Machine) : Prop where
  closed : ¬ e.Spawns
  runnable : isRunnable m'.list b = true
  turn : e.Ends → TurnKept m

/-- Ending a task changes no other one. -/
theorem ends_body (he : e.Ends) {q : Nat} (hq : m.list.current ≠ some q) (o : Option Task) :
    e.fate m q o = o := by
  cases e with
  | exit _ | fault => exact if_neg hq
  | _ => exact he.elim

theorem ends_listed (he : e.Ends) : e.listed l c = l.erase c := by
  cases e with
  | exit _ | fault => rfl
  | _ => exact he.elim

theorem ends_outcome (he : e.Ends) (s : TaskList) (j : UInt32) : e.outcome s l c j =
    (nextOf s l, ⟨looked l s, j, if nextOf s l = none then .idle else .user⟩) := by
  cases e with
  | exit _ | fault => rfl
  | _ => exact he.elim

/-- The list `s` that an ending leaves, and which task it starts. -/
theorem ends_cases (h : Sound m l c) (hs : Stepped m e d m') (he : e.Ends) :
    ∃ s, Listed s (l.erase c) ∧ s.current = heir l c ∧ nextOf s (l.erase c) = d ∧
      m'.list.tasks = s.tasks ∧ s.tasks c = none ∧
      ∀ q, q ≠ c → isRunnable s q = isRunnable m.list q := by
  obtain ⟨s, c', -, hprep, hout, hland, -⟩ := hs.cases h
  have hl := hprep.listed
  have hgone := hprep.gone h c
  rw [ends_listed he] at hl hout hgone
  rw [ends_outcome he] at hout
  refine ⟨s, hl, ?_, congrArg Prod.fst hout, hland.tasks, hgone h.listed.nodup.not_mem_erase, ?_⟩
  · rw [hprep.current, if_pos he]
  · intro q hq
    have hcur : m.list.current ≠ some q := by
      rw [h.current]
      exact fun heq => hq (Option.some.inj heq).symm
    rw [isRunnable_body, isRunnable_body, hprep.bodies, ends_body he hcur]

/-- Such an end starts `b`, or another task than `a` with `b` still ahead. -/
theorem ends_ahead (h : Sound m l c) (hs : Stepped m e d m') (hk : Kept b m e m') (he : e.Ends)
    (hah : Ahead a b l c) (hbl : b ∈ l) :
    d = some b ∨ ∃ p, d = some p ∧ p ≠ a ∧ Ahead a b (e.listed l c) p := by
  obtain ⟨s, hl, hcur, hnext, htasks, hgone, hsame⟩ := ends_cases h hs he
  have hb : isRunnable s b = true := by
    rw [← isRunnable_congr htasks]
    exact hk.runnable
  have hbc : b ≠ c := by
    rintro rfl
    unfold isRunnable at hb
    rw [hgone] at hb
    cases hb
  obtain ⟨q, hq, hcase⟩ := ahead_heir h.listed.nodup (h.listed.current c h.current) hah hbc
  rw [ends_listed he, ← hnext]
  rcases hcase with rfl | hcase
  · -- `b` takes over: it is the only runnable task left
    left
    have hbl' : q ∈ l.erase c := (List.mem_erase_of_ne hbc).mpr hbl
    cases hn : nextOf s (l.erase c) with
    | none => exact absurd hb ((nextOf_none hl).mp hn q hbl')
    | some p =>
      obtain ⟨hp, hrun⟩ := nextOf_mem hl hn
      have hpc : p ≠ c := fun heq => h.listed.nodup.not_mem_erase (heq ▸ hp)
      rw [hsame p hpc] at hrun
      rw [hsame q hbc] at hb
      rw [hk.turn he l c q h.listed h.current hq hb p (List.mem_of_mem_erase hp) hpc hrun]
  · exact ahead_next hl (hcur.trans hq) hcase hb

/-- Any other step starts `b`, or another task than `a` with `b` still ahead, or none. -/
theorem other_ahead (h : Sound m l c) (hs : Stepped m e d m') (hk : Kept b m e m') (he : ¬ e.Ends)
    (hah : Ahead a b l c) :
    d = some b ∨ (∃ p, d = some p ∧ p ≠ a ∧ Ahead a b (e.listed l c) p) ∨
      (d = none ∧ e.listed l c = l ∧ m'.list.current = some c) := by
  obtain ⟨s, c', -, hprep, hout, hland, -⟩ := hs.cases h
  have hb : isRunnable s b = true := by
    rw [← isRunnable_congr hland.tasks]
    exact hk.runnable
  have hcur : s.current = some c := by rw [hprep.current, if_neg he]
  have hnext : ∀ {o : Option Nat × Machine}, o = (d, m') → e.listed l c = l → o.1 = nextOf s l →
      d = some b ∨ (∃ p, d = some p ∧ p ≠ a ∧ Ahead a b (e.listed l c) p) ∨
        (d = none ∧ e.listed l c = l ∧ m'.list.current = some c) := by
    intro o ho hlist hfst
    have hl := hprep.listed
    rw [hlist] at hl ⊢
    rw [ho] at hfst
    rw [show d = nextOf s l from hfst]
    rcases ahead_next hl hcur hah hb with h1 | h1
    · exact .inl h1
    · exact .inr (.inl h1)
  cases e with
  | tick _ | look | nmi _ => exact hnext hout rfl rfl
  | exit _ | fault => exact absurd trivial he
  | spawn frame p pageDirectory entry => exact absurd trivial hk.closed
  | idleTick =>
    obtain ⟨rfl, rfl⟩ := Prod.mk.inj hout
    exact .inr (.inr ⟨rfl, rfl, hcur⟩)
  | resume frame =>
    obtain ⟨rfl, rfl⟩ := Prod.mk.inj hout
    exact .inr (.inr ⟨rfl, rfl, rfl⟩)
  | sleep frame milliseconds =>
    by_cases hms : Sleeps milliseconds
    · rw [outcome_sleeps hms] at hout
      exact hnext hout rfl rfl
    · rw [outcome_wakeful hms] at hout
      obtain ⟨rfl, rfl⟩ := Prod.mk.inj hout
      exact .inr (.inr ⟨rfl, rfl, rfl⟩)

/-- One step: `b` is started, or `a` is not and `b` stays ahead of it. -/
theorem step_ahead (h : Sound m l c) (hs : Stepped m e d m') (hk : Kept b m e m')
    (hah : Ahead a b l c) (hbl : b ∈ l) :
    d = some b ∨ (d ≠ some a ∧ ∃ l' c', Sound m' l' c' ∧ Ahead a b l' c') := by
  obtain ⟨s, c', -, -, -, hland, hsound⟩ := hs.cases h
  have hstart : ∀ p, d = some p → p ≠ a → Ahead a b (e.listed l c) p →
      d ≠ some a ∧ ∃ l' c', Sound m' l' c' ∧ Ahead a b l' c' := by
    intro p hp hpa hah'
    obtain ⟨rfl, -⟩ := hland.started p hp
    exact ⟨fun hd => hpa (Option.some.inj (hp.symm.trans hd)), _, c', hsound, hah'⟩
  by_cases he : e.Ends
  · rcases ends_ahead h hs hk he hah hbl with hd | ⟨p, hp, hpa, hah'⟩
    · exact .inl hd
    · exact .inr (hstart p hp hpa hah')
  · rcases other_ahead h hs hk he hah with hd | ⟨p, hp, hpa, hah'⟩ | ⟨hd, hlist, hcur⟩
    · exact .inl hd
    · exact .inr (hstart p hp hpa hah')
    · rw [hlist] at hsound
      obtain rfl : c' = c := Option.some.inj (hland.current.symm.trans hcur)
      refine .inr ⟨fun hda => ?_, l, c', hsound, hah⟩
      rw [hd] at hda
      cases hda

/-! ## Whole runs -/

/-- A run of steps that all keep `b` runnable and the turns. -/
inductive KeptPath (b : Nat) : Machine → List (Event × Option Nat) → Machine → Prop where
  | nil (m : Machine) : KeptPath b m [] m
  | snoc {m m1 m2 : Machine} {tr : List (Event × Option Nat)} {e : Event} {d : Option Nat}
      (h : KeptPath b m tr m1) (hs : Stepped m1 e d m2) (hk : Kept b m1 e m2) :
      KeptPath b m (tr ++ [(e, d)]) m2

theorem Sound.mem_of_runnable (h : Sound m l c) (hb : isRunnable m.list b = true) : b ∈ l := by
  by_contra hn
  unfold isRunnable at hb
  rw [h.gone b hn] at hb
  cases hb

theorem KeptPath.runnable {tr : List (Event × Option Nat)} (hp : KeptPath b m tr m')
    (hb : isRunnable m.list b = true) : isRunnable m'.list b = true := by
  cases hp with
  | nil => exact hb
  | snoc _ _ hk => exact hk.runnable

theorem KeptPath.ahead {tr : List (Event × Option Nat)} (hp : KeptPath b m tr m')
    (h : Sound m l c) (hb : isRunnable m.list b = true) (hah : Ahead a b l c) :
    Starts tr b ∨ ∃ l' c', Sound m' l' c' ∧ Ahead a b l' c' := by
  induction hp with
  | nil => exact .inr ⟨l, c, h, hah⟩
  | @snoc m1 m2 tr e d hpath hs hk ih =>
    rcases ih with ⟨x, hx, hd⟩ | ⟨l1, c1, h1, hah1⟩
    · exact .inl ⟨x, List.mem_append_left _ hx, hd⟩
    · rcases step_ahead h1 hs hk hah1 (h1.mem_of_runnable (hpath.runnable hb)) with hd | ⟨-, hnext⟩
      · exact .inl ⟨(e, d), List.mem_append_right _ List.mem_cons_self, hd⟩
      · exact .inr hnext

/-- The task `a` has just been started. -/
def Started (m : Machine) (a : Nat) : Prop :=
  Booted m a ∨ ∃ m0 e, Reachable m0 ∧ Stepped m0 e (some a) m

theorem Started.sound (h : Started m a) : ∃ l, Sound m l a := by
  rcases h with h | ⟨m0, e, hm, hs⟩
  · exact h.sound
  · obtain ⟨l, c, h⟩ := hm.sound
    obtain ⟨s, c', -, -, -, hland, hsound⟩ := hs.cases h
    obtain ⟨rfl, -⟩ := hland.started a rfl
    exact ⟨_, hsound⟩

/-- The pointers show one list only. -/
theorem Linked.unique {s : TaskList} {l' : List Nat} (h : Linked s l) (h' : Linked s l') :
    l = l' := by
  have hrest : ∀ (v v' u u' : List Nat), l = u ++ v → l' = u' ++ v' → v.head? = v'.head? →
      v = v' := by
    intro v
    induction v with
    | nil => exact fun v' u u' _ _ hh => (List.head?_eq_none_iff.mp hh.symm).symm
    | cons p v ih =>
      intro v' u u' hl hl' hh
      cases v' with
      | nil => cases hh
      | cons q v' =>
        obtain rfl : p = q := Option.some.inj hh
        obtain ⟨t, ht, hn, -⟩ := h.node u p v hl
        obtain ⟨t', ht', hn', -⟩ := h'.node u' p v' hl'
        obtain rfl : t = t' := Option.some.inj (ht.symm.trans ht')
        rw [ih v' (u ++ [p]) (u' ++ [p]) (by rw [hl, List.append_assoc]; rfl)
          (by rw [hl', List.append_assoc]; rfl) (hn.symm.trans hn')]
  exact hrest l l' [] [] rfl rfl (h.head.symm.trans h'.head)

/-- When the turns are not kept, the task that takes over could run and is passed over. -/
theorem ends_passed (h : Sound m l c) (hs : Stepped m e d m') (he : e.Ends) (hk : ¬ TurnKept m) :
    ∃ q, heir l c = some q ∧ isRunnable m'.list q = true ∧ d ≠ some q := by
  unfold TurnKept at hk
  push Not at hk
  obtain ⟨l', c', q, hl', hc', hq, hrun, p, hp, hpc, hprun, hne⟩ := hk
  obtain rfl := hl'.toLinked.unique h.listed.toLinked
  obtain rfl : c' = c := Option.some.inj (hc'.symm.trans h.current)
  obtain ⟨s, hl, hcur, hnext, htasks, hgone, hsame⟩ := ends_cases h hs he
  have hc := h.listed.current c' h.current
  have hql := heir_mem h.listed.nodup hc hq
  have hqc : q ≠ c' := fun heq => h.listed.nodup.not_mem_erase (heq ▸ hql)
  refine ⟨q, hq, ?_, ?_⟩
  · rw [isRunnable_congr htasks, hsame q hqc, hrun]
  · -- the search from behind `q` meets `p` first
    obtain ⟨u, v, hsplit, hu, -⟩ := exists_split hl.nodup hql
    have hpl : p ∈ v ++ u := by
      have hp' : p ∈ l'.erase c' := (List.mem_erase_of_ne hpc).mpr hp
      rw [hsplit] at hp'
      rcases List.mem_append.mp hp' with hm | hm
      · exact List.mem_append_right _ hm
      · exact List.mem_append_left _ ((List.mem_cons.mp hm).resolve_left hne)
    have hqnot : q ∉ v ++ u := by
      have hnd := ring_nodup hl.nodup hql
      rw [hsplit, ring_split hu] at hnd
      exact fun hm => (List.nodup_append.mp hnd).2.2 q hm q List.mem_cons_self rfl
    rw [← hsame p hpc] at hprun
    rw [← hnext]
    unfold nextOf
    rw [hcur, hq, Option.bind_some, hsplit, ring_split hu, List.find?_append]
    cases hfind : (v ++ u).find? (isRunnable s) with
    | none => exact absurd hprun (List.find?_eq_none.mp hfind p hpl)
    | some r =>
      rw [Option.some_or]
      exact fun heq => hqnot (Option.some.inj heq ▸ List.mem_of_find?_eq_some hfind)

/-- An ending that does not keep the turns passes over the runnable task that takes over. -/
theorem ending_passes_heir (hm : Reachable m) (hs : Stepped m e d m') (he : e.Ends)
    (hk : ¬ TurnKept m) :
    ∃ l c q, Listed m.list l ∧ m.list.current = some c ∧ heir l c = some q ∧
      isRunnable m'.list q = true ∧ d ≠ some q := by
  obtain ⟨l, c, h⟩ := hm.sound
  obtain ⟨q, hq, hrun, hd⟩ := ends_passed h hs he hk
  exact ⟨l, c, q, h.listed, h.current, hq, hrun, hd⟩

/-- In a run that publishes no task and whose endings keep the turns, a task that stays
runnable from one start of another to the next is started in between; and every ending that
does not keep the turns passes over a runnable task. -/
theorem round_robin (m : Machine) :
    (∀ {m2 m3 : Machine} {a b : Nat} {e : Event} {tr : List (Event × Option Nat)},
      Started m a → a ≠ b → isRunnable m.list b = true → KeptPath b m tr m2 →
        Stepped m2 e (some a) m3 → Kept b m2 e m3 → Starts tr b) ∧
    ∀ {e d m'}, Reachable m → Stepped m e d m' → e.Ends → ¬ TurnKept m →
      ∃ l c q, Listed m.list l ∧ m.list.current = some c ∧ heir l c = some q ∧
        isRunnable m'.list q = true ∧ d ≠ some q := by
  refine ⟨?_, ending_passes_heir⟩
  intro m2 m3 a b e tr ha hab hb hp hs hk
  obtain ⟨l, h⟩ := ha.sound
  have hah := ahead_start h.listed.nodup (h.listed.current a h.current) (h.mem_of_runnable hb) hab
  rcases hp.ahead h hb hah with hstart | ⟨l2, c2, h2, hah2⟩
  · exact hstart
  · have hb2 := h2.mem_of_runnable (hp.runnable hb)
    rcases step_ahead h2 hs hk hah2 hb2 with hd | ⟨hd, -⟩
    · exact absurd (Option.some.inj hd) hab
    · exact absurd rfl hd

/-- An ending keeps the turns if the task behind is not runnable. -/
theorem turnKept_of_next {t : Task} {q : Nat} (hc : m.list.current = some c)
    (ht : m.list.tasks c = some t) (hn : t.next = some q) (hq : isRunnable m.list q = false) :
    TurnKept m := by
  intro l c' h hl hc' hh hrun
  obtain rfl := Option.some.inj (hc'.symm.trans hc)
  obtain ⟨a, b, rfl, ha, -⟩ := exists_split hl.nodup (hl.current c' hc')
  obtain ⟨t', ht', hnext, -⟩ := hl.node a c' b rfl
  obtain rfl := Option.some.inj (ht'.symm.trans ht)
  rw [heir_split ha, ← hnext, hn, Option.some_or] at hh
  rw [← Option.some.inj hh, hq] at hrun
  cases hrun

/-! Four tasks: the third goes to sleep, and in the next round the second exits. -/

def fourTasks : Machine :=
  ⟨(boot [(16, 1, 0x400000), (32, 2, 0x400000), (48, 3, 0x400000), (64, 4, 0x400000)] noTasks).2, 0,
    .user⟩

def fourEvents : List Event :=
  [.tick userFrame, .tick userFrame, .sleep userFrame 1000, .tick userFrame, .tick userFrame,
    .exit userFrame, .tick userFrame]

def fourAfter (n : Nat) : Machine := (fourEvents.take n).foldl (fun m e => (e.run 4 m).2) fourTasks

/-- The fourth task stays runnable from one start of the first to the next, over the exit. -/
theorem round_robin_exit :
    Started (fourAfter 4) 16 ∧
      Starts [(.tick userFrame, some 32), (.exit userFrame, some 64)] 64 := by
  have hboot : Booted fourTasks 16 :=
    ⟨[(16, 1, 0x400000), (32, 2, 0x400000), (48, 3, 0x400000), (64, 4, 0x400000)], by decide,
      Prod.ext (by rfl) rfl, rfl⟩
  have hstart : Started (fourAfter 4) 16 := by
    have h1 : Stepped fourTasks (.tick userFrame) (some 32) (fourAfter 1) :=
      stepped_of_run 4 rfl (by rfl)
    have h2 : Stepped (fourAfter 1) (.tick userFrame) (some 48) (fourAfter 2) :=
      stepped_of_run 4 rfl (by rfl)
    have h3 : Stepped (fourAfter 2) (.sleep userFrame 1000) (some 64) (fourAfter 3) :=
      stepped_of_run 4 rfl (by rfl)
    have h4 : Stepped (fourAfter 3) (.tick userFrame) (some 16) (fourAfter 4) :=
      stepped_of_run 4 rfl (by rfl)
    exact .inr ⟨fourAfter 3, _, ⟨fourTasks, 16, _, hboot, .snoc (.snoc (.snoc (.nil _) h1) h2) h3⟩,
      h4⟩
  have h5 : Stepped (fourAfter 4) (.tick userFrame) (some 32) (fourAfter 5) :=
    stepped_of_run 4 rfl (by rfl)
  have h6 : Stepped (fourAfter 5) (.exit userFrame) (some 64) (fourAfter 6) :=
    stepped_of_run 4 rfl (by rfl)
  have h7 : Stepped (fourAfter 6) (.tick userFrame) (some 16) (fourAfter 7) :=
    stepped_of_run 4 rfl (by rfl)
  have hturn : TurnKept (fourAfter 5) := turnKept_of_next (q := 48) (by rfl) (by rfl)
    (by rfl) (by rfl)
  exact ⟨hstart, (round_robin _).1 hstart (by decide) (by rfl)
    (.snoc (.snoc (.nil _) h5 ⟨not_false, by rfl, False.elim⟩) h6
      ⟨not_false, by rfl, fun _ => hturn⟩)
    h7 ⟨not_false, by rfl, False.elim⟩⟩

/-! Three tasks. -/

def tripleList : TaskList :=
  (boot [(16, 1, 0x400000), (32, 2, 0x400000), (48, 3, 0x400000)] noTasks).2

def tripleStart : Machine := ⟨tripleList, 0, .user⟩

def tripleTicked : Machine := ((Event.tick userFrame).run 3 tripleStart).2

theorem tripleStart_booted : Booted tripleStart 16 :=
  ⟨[(16, 1, 0x400000), (32, 2, 0x400000), (48, 3, 0x400000)], by decide, Prod.ext (by rfl) rfl, rfl⟩

/-- The second of three tasks exits in its turn: the first is started again and the third,
runnable all the time, is not. -/
theorem exit_passes_third : ∃ m1 m2 m3, Booted m1 16 ∧ isRunnable m1.list 48 = true ∧
    Stepped m1 (.tick userFrame) (some 32) m2 ∧ isRunnable m2.list 48 = true ∧
    Stepped m2 (.exit userFrame) (some 16) m3 ∧ isRunnable m3.list 48 = true :=
  ⟨tripleStart, tripleTicked, ((Event.exit userFrame).run 3 tripleTicked).2, tripleStart_booted,
    by rfl, stepped_of_run 3 rfl (by rfl), by rfl, stepped_of_run 3 rfl (by rfl), by rfl⟩

end Rorthox.Sched
