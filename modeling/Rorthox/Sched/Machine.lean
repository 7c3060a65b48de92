import Rorthox.Sched.History

/-!
# The kernel's entries into the scheduler

What an interrupt, an exception or a system call does to the task list
(`kernel/idt/idt.c`, `kernel/arch/i686/pit.c`, `kernel/isr80h/process.c`). Interrupts are
off in the kernel, so each runs to its end: back to ring 3, or to the halt in the idle
loop of `task_next`.
-/

namespace Rorthox.Sched

open Lib

/-- Where the processor waits for the next event. -/
inductive Cpu where
  /-- In ring 3, in the current task. -/
  | user
  /-- Halted in `task_next`. -/
  | idle
  deriving DecidableEq

structure Machine where
  list : TaskList
  jiffies : UInt32
  cpu : Cpu

abbrev MachineProg := Prog Machine Fault

/-- A function that touches the task list alone. -/
def onList {α : Type} (m : TaskProg α) : MachineProg α := fun s =>
  ((m s.list).1, { s with list := (m s.list).2 })

def kernelPage : TaskProg Unit := Prog.change fun s => { s with directory := none }

def taskCurrentSaveState (frame : Registers) : TaskProg Unit := do
  let current ← Prog.look (·.current)
  Prog.refuse (current = none) .panic
  updateTask current fun t => { t with registers := frame }

/-- `task_page`, the way back to the interrupted task. -/
def taskPage : TaskProg Unit := do
  let current ← Prog.look (·.current)
  match current with
  | some c => taskSwitch c
  | none => Prog.raise .wild

/-- What `task_return` or the halt leaves. -/
def land (next : Option Nat) : MachineProg (Option Nat) := do
  Prog.change fun m => { m with cpu := if next = none then .idle else .user }
  pure next

def pitMsToTicks (milliseconds : UInt32) : UInt32 :=
  if milliseconds = 0 then 0
  else milliseconds / 1000 * 100 + (milliseconds % 1000 * 100 + 999) / 1000 + 2

/-- The part of `pit_tick` for both rings. -/
def countTick (fuel : Nat) : MachineProg Unit := do
  Prog.change fun m => { m with jiffies := m.jiffies + 1 }
  let now ← Prog.look (·.jiffies)
  onList (taskWakeSleepers fuel now)

/-- `isr80h_command_sleep` with its argument from the stack. -/
def isr80hCommandSleep (fuel : Nat) (milliseconds : UInt32) : MachineProg (Option Nat) :=
  if milliseconds > 0x7FFFFFFF then do
    onList taskPage
    pure none
  else if milliseconds = 0 then do
    onList taskPage
    pure none
  else do
    let now ← Prog.look (·.jiffies)
    let task ← onList (Prog.look (·.current))
    onList (updateTask task fun t => { t with registers := { t.registers with eax := 0 } })
    let next ← onList (taskSleepUntil fuel (now + pitMsToTicks milliseconds))
    land next

/-- The part of `process_terminate` that touches the list. -/
def terminateCurrent : TaskProg Unit := do
  let current ← Prog.look (·.current)
  taskFree current

def schedule (fuel : Nat) : MachineProg (Option Nat) := do
  let next ← onList (taskNext fuel)
  land next

inductive Event where
  /-- The timer interrupts ring 3. -/
  | tick (frame : Registers)
  /-- The timer interrupts the halt. -/
  | idleTick
  /-- The idle loop looks for a task again, after whatever ended the halt. -/
  | look
  | sleep (frame : Registers) (milliseconds : UInt32)
  | exit (frame : Registers)
  /-- A fault of the current task in ring 3. -/
  | fault
  | nmi (frame : Registers)
  /-- Another system call or interrupt that goes back to the current task. -/
  | resume (frame : Registers)
  /-- A system call that loads a program, at a free address of the heap, and starts it. -/
  | spawn (frame : Registers) (task pageDirectory : Nat) (entry : UInt32)

/-- An entry from ring 3 by an interrupt or a system call. -/
def enter (frame : Registers) : MachineProg Unit := do
  onList kernelPage
  onList (taskCurrentSaveState frame)

/-- The event's handler; its value is the task that `task_return` starts. -/
def Event.run (fuel : Nat) : Event → MachineProg (Option Nat)
  | .tick frame => do
      enter frame
      countTick fuel
      schedule fuel
  | .idleTick => do
      onList kernelPage
      countTick fuel
      pure none
  | .look => do
      let next ← onList (lookAround fuel)
      land next
  | .sleep frame milliseconds => do
      enter frame
      isr80hCommandSleep fuel milliseconds
  | .exit frame => do
      enter frame
      onList terminateCurrent
      schedule fuel
  | .fault => do
      onList kernelPage
      onList terminateCurrent
      schedule fuel
  | .nmi frame => do
      enter frame
      schedule fuel
  | .resume frame => do
      enter frame
      onList taskPage
      pure none
  | .spawn frame p pageDirectory entry => do
      enter frame
      onList (Prog.change (setTask p (some (newTask pageDirectory entry))))
      onList (taskPublish p)
      let next ← onList (dispatch p)
      land next

/-- The processor waits where the event can come; a new task has an address of its own. -/
def Event.Possible (m : Machine) : Event → Prop
  | .idleTick => m.cpu = .idle
  | .look => m.cpu = .idle
  | .spawn _ p _ _ => m.cpu = .user ∧ m.list.tasks p = none
  | _ => m.cpu = .user

/-! ## The start -/

def taskRunFirstEverTask : TaskProg (Option Nat) := do
  let current ← Prog.look (·.current)
  Prog.refuse (current = none) .panic
  let head ← Prog.look (·.head)
  match head with
  | some head => dispatch head
  | none => Prog.raise .wild

/-- The programs that are loaded first, each with its task, its page directory and its
entry point, and the start of the first one. -/
def boot (news : List (Nat × Nat × UInt32)) : TaskProg (Option Nat) := do
  runOps 0 (news.map fun n => .publish n.1 n.2.1 n.2.2)
  taskRunFirstEverTask

end Rorthox.Sched
