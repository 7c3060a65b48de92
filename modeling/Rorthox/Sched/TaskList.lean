import Rorthox.Lib.Prog

/-!
# The task list

The scheduler's half of `kernel/task/task.c`: tasks on a doubly linked list with a head,
a tail and a current task. A task lives at an address from `task_new` until
`task_discard`; a function that touches an address without a live task stops with
`Fault.wild`. Loops over the list take fuel and stop with `Fault.endless` without it.
-/

namespace Rorthox.Sched

open Lib

/-- `struct registers`. -/
structure Registers where
  edi : UInt32
  esi : UInt32
  ebp : UInt32
  ebx : UInt32
  edx : UInt32
  ecx : UInt32
  eax : UInt32
  ip : UInt32
  cs : UInt32
  flags : UInt32
  esp : UInt32
  ss : UInt32
  deriving DecidableEq

/-- `enum task_state`. -/
inductive TaskState where
  | runnable
  | sleeping
  deriving DecidableEq

/-- `struct task` as far as the scheduler reads it; null pointers are `none`. -/
structure Task where
  pageDirectory : Nat
  registers : Registers
  next : Option Nat
  prev : Option Nat
  state : TaskState
  wakeTick : UInt32

inductive Fault where
  /-- An access through a null pointer or to a task that is not there. -/
  | wild
  /-- A loop that has not ended yet. -/
  | endless
  | panic
  deriving DecidableEq

structure TaskList where
  /-- The tasks that are allocated. -/
  tasks : Nat → Option Task
  head : Option Nat
  tail : Option Nat
  current : Option Nat
  /-- The page directory in use, `none` for the kernel's. -/
  directory : Option Nat

abbrev TaskProg := Prog TaskList Fault

def taskAt (p : Option Nat) : TaskProg Task := fun s =>
  match p.bind s.tasks with
  | some t => (.ok t, s)
  | none => (.error .wild, s)

def setTask (p : Nat) (t : Option Task) (s : TaskList) : TaskList :=
  { s with tasks := Function.update s.tasks p t }

/-- Change some fields of the task at `p`. -/
def updateTask (p : Option Nat) (f : Task → Task) : TaskProg Unit := fun s =>
  match p with
  | none => (.error .wild, s)
  | some p =>
      match s.tasks p with
      | some t => (.ok (), setTask p (some (f t)) s)
      | none => (.error .wild, s)

/-- The registers `task_init` sets, with the program's entry point. -/
def initialRegisters (entry : UInt32) : Registers :=
  { edi := 0, esi := 0, ebp := 0, ebx := 0, edx := 0, ecx := 0, eax := 0, ip := entry, cs := 0x1B
    flags := 0, esp := 0x3FF000, ss := 0x23 }

/-- The task that `task_init` leaves. -/
def newTask (pageDirectory : Nat) (entry : UInt32) : Task :=
  { pageDirectory, registers := initialRegisters entry, next := none, prev := none
    state := .runnable, wakeTick := 0 }

def taskPublish (task : Nat) : TaskProg Unit := do
  let head ← Prog.look (·.head)
  if head = none then
    Prog.change fun s => { s with head := some task, tail := some task, current := some task }
  else do
    let tail ← Prog.look (·.tail)
    updateTask tail fun t => { t with next := some task }
    updateTask (some task) fun t => { t with prev := tail }
    Prog.change fun s => { s with tail := some task }

/-! ## Choosing the next task -/

def getNextLoop (start : Option Nat) : Nat → Option Nat → TaskProg (Option Nat)
  | _, none => pure none
  | 0, some _ => Prog.raise .endless
  | fuel + 1, some p => do
      let t ← taskAt (some p)
      if t.state = .runnable then pure (some p)
      else do
        let head ← Prog.look (·.head)
        if t.next.or head = start then pure none else getNextLoop start fuel (t.next.or head)

/-- Where the search starts: behind the current task, or at the head. -/
def searchStart : TaskProg (Option Nat) := do
  let current ← Prog.look (·.current)
  let head ← Prog.look (·.head)
  match current with
  | none => pure head
  | some c => do
      let t ← taskAt (some c)
      pure (t.next.or head)

def taskGetNext (fuel : Nat) : TaskProg (Option Nat) := do
  let start ← searchStart
  getNextLoop start fuel start

/-! ## Removal -/

/-- `if (p) p->... = ...`. -/
def updateUnlessNull (p : Option Nat) (f : Task → Task) : TaskProg Unit :=
  if p = none then pure () else updateTask p f

def taskListRemove (task : Nat) : TaskProg Unit := do
  let t ← taskAt (some task)
  updateUnlessNull t.prev fun q => { q with next := t.next }
  let t ← taskAt (some task)
  updateUnlessNull t.next fun q => { q with prev := t.prev }
  let t ← taskAt (some task)
  Prog.change fun s => if s.head = some task then { s with head := t.next } else s
  Prog.change fun s => if s.tail = some task then { s with tail := t.prev } else s
  Prog.change fun s => if s.current = some task then { s with current := t.next.or s.head } else s
  updateTask (some task) fun q => { q with prev := none, next := none }

/-- The page directory goes with the task; its tables are no part of the list. -/
def taskDiscard (task : Nat) : TaskProg Unit := do
  let _ ← taskAt (some task)
  Prog.change (setTask task none)

def taskFree (task : Option Nat) : TaskProg Unit :=
  match task with
  | none => pure ()
  | some task => do
      taskListRemove task
      taskDiscard task

/-! ## Switching, sleeping, waking -/

def taskSwitch (task : Nat) : TaskProg Unit := do
  Prog.change fun s => { s with current := some task }
  let t ← taskAt (some task)
  Prog.change fun s => { s with directory := some t.pageDirectory }

/-- `task_switch` and `task_return`: the task whose saved registers are loaded. -/
def dispatch (task : Nat) : TaskProg (Option Nat) := do
  taskSwitch task
  let _ ← taskAt (some task)
  pure (some task)

/-- One look at the list: dispatch a task, or `none` to halt until the next interrupt. -/
def lookAround (fuel : Nat) : TaskProg (Option Nat) := do
  let next ← taskGetNext fuel
  match next with
  | some p => dispatch p
  | none => do
      Prog.change fun s => { s with directory := none }
      pure none

/-- `task_next` up to the dispatch or the first halt. -/
def taskNext (fuel : Nat) : TaskProg (Option Nat) := do
  let head ← Prog.look (·.head)
  Prog.refuse (head = none) .panic
  lookAround fuel

/-- `task_sleep_until` before its `task_next`. -/
def markSleeping (deadline : UInt32) : TaskProg Unit := do
  let current ← Prog.look (·.current)
  Prog.refuse (current = none) .panic
  updateTask current fun t => { t with wakeTick := deadline, state := .sleeping }

def taskSleepUntil (fuel : Nat) (deadline : UInt32) : TaskProg (Option Nat) := do
  markSleeping deadline
  taskNext fuel

/-- The deadline has come, also across the wrap of the counter. -/
def Task.Due (now : UInt32) (t : Task) : Prop := t.state = .sleeping ∧ now - t.wakeTick < 0x80000000

instance (now : UInt32) (t : Task) : Decidable (t.Due now) := inferInstanceAs (Decidable (_ ∧ _))

def wakeLoop (now : UInt32) : Nat → Option Nat → TaskProg Unit
  | _, none => pure ()
  | 0, some _ => Prog.raise .endless
  | fuel + 1, some p => do
      let t ← taskAt (some p)
      (if t.Due now then updateTask (some p) fun t => { t with state := .runnable } else pure ())
      let t ← taskAt (some p)
      wakeLoop now fuel t.next

def taskWakeSleepers (fuel : Nat) (now : UInt32) : TaskProg Unit := do
  let head ← Prog.look (·.head)
  wakeLoop now fuel head

end Rorthox.Sched
