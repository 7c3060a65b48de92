import Rorthox.Fat.Content
import Rorthox.Tasks.HandleSpec
import Rorthox.Tasks.UserCopy

/-!
# Reading and writing files from a program

`isr80h_file_transfer` of `kernel/isr80h/file.c` with `task_get_stack_item` of
`kernel/task/task.c`. The file moves on before the bytes reach the program, so the call
is right only because a span that passed the validator never fails in the copier.
-/

namespace Rorthox.Tasks

open Lib Fat Fs Memory

/-- `FILE_TRANSFER_SIZE`. -/
def fileTransferSize : Nat := 4096

/-- The current task: the slot of its process, what the checked copies read of it, and its
saved stack pointer. -/
structure Caller where
  slot : Nat
  task : UserTask
  esp : UInt32

/-- What a system call on files may change: the kernel's tables with the disk, and the memory
of programs. -/
structure CallState where
  kernel : Kernel
  memory : Bytes

def CallState.withFs (s : CallState) (fs : FsState) : CallState :=
  { s with kernel := { s.kernel with fs } }

section

variable (caller : Caller) (words : Words)

def taskGetStackItem (memory : Bytes) (index : Nat) : Except Errno Nat :=
  let offset := index * 4
  if offset > 2 ^ 32 - 1 - caller.esp.toNat then .error .einvarg
  else
    match taskCopyUser (some caller.task) words (caller.esp.toNat + offset) 4 false
      { memory, buffer := fun _ => 0 } with
    | (.error e, _) => .error e
    | (.ok (), st) => .ok (le32 st.buffer 0)

/-- The three words the call finds on the stack: handle, address and count. -/
def fileArguments (memory : Bytes) : Except Errno (Nat × Nat × Nat) := do
  let handle ← taskGetStackItem caller words memory 0
  let address ← taskGetStackItem caller words memory 1
  let count ← taskGetStackItem caller words memory 2
  pure (handle, address, count)

/-- `(int)word`. -/
def toInt (word : Nat) : Int := if word < 2 ^ 31 then word else word - 2 ^ 32

/-- A transfer of no bytes tests the mode of the file. -/
def fileProbe (write : Bool) (fd : Int) : FsProg Nat :=
  if write then fileWrite fd (fun _ => 0) 0
  else do
    let p ← fileRead fd 0
    pure p.1

/-- `stale` is what the buffer from `kmalloc` holds. -/
def transferOut (stale : Bytes) (fd : Int) (address chunk : Nat) (s : CallState) :
    Except Errno Nat × CallState :=
  match taskCopyUser (some caller.task) words address chunk false
    { memory := s.memory, buffer := stale } with
  | (.error e, st) => (.error e, { s with memory := st.memory })
  | (.ok (), st) =>
      match fileWrite fd st.buffer chunk s.kernel.fs with
      | (r, fs) => (r, { s.withFs fs with memory := st.memory })

def transferIn (stale : Bytes) (fd : Int) (address chunk : Nat) (s : CallState) :
    Except Errno Nat × CallState :=
  match fileRead fd chunk s.kernel.fs with
  | (.error e, fs) => (.error e, s.withFs fs)
  | (.ok (res, data), fs) =>
      if res > 0 then
        match taskCopyUser (some caller.task) words address res true
          { memory := s.memory, buffer := memcpy stale 0 data 0 res } with
        | (.error e, st) => (.error e, { s.withFs fs with memory := st.memory })
        | (.ok (), st) => (.ok res, { s.withFs fs with memory := st.memory })
      else (.ok res, s.withFs fs)

/-- From `kmalloc` to `kfree`. -/
def transferChunk (write : Bool) (stale : Bytes) (fd : Int) (address count : Nat) (s : CallState) :
    Except Errno Nat × CallState :=
  match kmalloc s.kernel.fs.heap fileTransferSize with
  | (none, heap) => (.error .enomem, s.withFs { s.kernel.fs with heap })
  | (some buffer, heap) =>
      let s := s.withFs { s.kernel.fs with heap }
      let chunk := if count > fileTransferSize then fileTransferSize else count
      let (r, s) :=
        if write then transferOut caller words stale fd address chunk s
        else transferIn caller words stale fd address chunk s
      (r, s.withFs (kfreeAt buffer s.kernel.fs))

def isr80hFileTransfer (write : Bool) (stale : Bytes) (s : CallState) :
    Except Errno Nat × CallState :=
  match fileArguments caller words s.memory with
  | .error _ => (.error .einvarg, s)
  | .ok (handle, address, count) =>
      if 0x7FFFFFFF < count then (.error .einvarg, s)
      else
        match processFileDescriptor (s.kernel.processes caller.slot) (toInt handle) with
        | .error e => (.error e, s)
        | .ok fd =>
            match fileProbe write fd s.kernel.fs with
            | (.error e, fs) => (.error e, s.withFs fs)
            | (.ok res, fs) =>
                let s := s.withFs fs
                if count = 0 then (.ok res, s)
                else
                  match taskValidateUserSpan (some caller.task) words address count (!write) with
                  | .error e => (.error e, s)
                  | .ok () => transferChunk caller words write stale fd address count s

end

/-! ## The bytes of a program -/

/-- The program owns the byte at `b`, with the permission to write it or only to read it. -/
def UserTask.Owns (task : UserTask) (words : Words) (write : Bool) (b : Nat) : Prop :=
  b < 2 ^ 32 ∧ ∃ directory, task.pageDirectory = some directory ∧
    UserByte task.process words directory write b

/-- Where the byte at `b` of a program lies. -/
def UserTask.place (task : UserTask) (words : Words) (b : Nat) : Nat :=
  match task.pageDirectory with
  | none => 0
  | some directory => physicalOf words directory false b

/-- No two bytes of a program share a place. -/
def MappedApart (task : UserTask) (words : Words) : Prop :=
  ∀ b c, task.Owns words false b → task.Owns words false c →
    task.place words b = task.place words c → b = c

theorem requiredBits_read {entry : Nat} (h : entry &&& requiredBits true = requiredBits true) :
    entry &&& requiredBits false = requiredBits false := by
  have hsub : requiredBits true &&& requiredBits false = requiredBits false := by decide
  rw [← hsub, ← Nat.and_assoc, h]

variable {address b count desc directory handle n p : Nat} {buffer data memory : Bytes} {fd : Int}
  {fs fs' : FsState} {s : CallState} {d : FatFileDescriptor} {e : Errno}

/-- What may be written may be read, at the same place. -/
theorem pagingUserTranslate_read {words : Words}
    (h : pagingUserTranslate words directory address true = .ok p) :
    pagingUserTranslate words directory address false = .ok p := by
  unfold pagingUserTranslate at h ⊢
  dsimp only at h ⊢
  split at h
  · cases h
  rename_i h0
  rw [if_neg h0]
  split at h
  · cases h
  rename_i h1
  simp only [Bool.or_eq_true, decide_eq_true_eq, not_or, not_not] at h1
  rw [if_neg (by simp only [Bool.or_eq_true, decide_eq_true_eq, not_or, not_not];
                 exact ⟨requiredBits_read h1.1, h1.2⟩)]
  split at h
  · cases h
  rename_i h2
  rw [if_neg (not_not.mpr (requiredBits_read (not_not.mp h2)))]
  exact h

theorem segmentRegions_read {file : Loader.ElfFile} {r : Nat × Nat}
    (h : r ∈ segmentRegions file true) : r ∈ segmentRegions file false := by
  obtain ⟨i, hi, hr⟩ := List.mem_filterMap.mp h
  apply List.mem_filterMap.mpr
  refine ⟨i, hi, ?_⟩
  dsimp only at hr ⊢
  split at hr
  · rename_i hc
    rw [if_pos ⟨hc.1, hc.2.1, Or.inl rfl⟩]
    exact hr
  · cases hr

theorem ownedRegions_read {process : Process} {r : Nat × Nat} (h : r ∈ ownedRegions process true) :
    r ∈ ownedRegions process false := by
  rcases List.mem_append.mp h with h | h
  · exact List.mem_append_left _ h
  · apply List.mem_append_right
    unfold programRegions at h ⊢
    split_ifs at h ⊢
    · exact h
    · exact segmentRegions_read h
    · exact h

theorem processUserSpan_read {process : Option Process}
    (h : processUserSpan process address true = .ok n) :
    ∃ m, processUserSpan process address false = .ok m := by
  cases process with
  | none => cases h
  | some process =>
    rw [processUserSpan_eq] at h ⊢
    split at h
    · cases h
    · rename_i h0
      rw [if_neg h0]
      cases hs : firstSpan address (ownedRegions process true) with
      | none => rw [hs] at h; cases h
      | some k =>
        obtain ⟨r, hmem, hin, -⟩ := firstSpan_some hs
        obtain ⟨m, hm⟩ := firstSpan_of_mem (ownedRegions_read hmem) hin
        exact ⟨m, by rw [hm]⟩

theorem UserByte.readable {process : Option Process} {words : Words} {write : Bool}
    (h : UserByte process words directory write b) : UserByte process words directory false b ∧
      physicalOf words directory write b = physicalOf words directory false b := by
  cases write with
  | false => exact ⟨h, rfl⟩
  | true =>
    obtain ⟨⟨n, hn⟩, p, hp⟩ := h
    have hread := pagingUserTranslate_read hp
    refine ⟨⟨processUserSpan_read hn, p, hread⟩, ?_⟩
    unfold physicalOf
    rw [hp, hread]

section

variable {caller : Caller} {task : UserTask} {words : Words} {write : Bool} {address size : Nat}

theorem SpanOwned.owns (h : SpanOwned (some task) words address size write) (h1 : address ≤ b)
    (h2 : b < address + size) : task.Owns words write b := by
  obtain ⟨process, directory⟩ := task
  cases directory with
  | none => exact h.elim
  | some directory =>
    obtain ⟨-, -, h3, h4⟩ := h
    exact ⟨by omega, directory, rfl, h4 b h1 h2⟩

theorem SpanOwned.shorter (h : SpanOwned (some task) words address size write) (h0 : 0 < n)
    (hn : n ≤ size) : SpanOwned (some task) words address n write := by
  obtain ⟨process, directory⟩ := task
  cases directory with
  | none => exact h.elim
  | some directory =>
    obtain ⟨-, h2, h3, h4⟩ := h
    exact ⟨h0, h2, by omega, fun b h5 h6 => h4 b h5 (by omega)⟩

theorem UserTask.Owns.readable (h : task.Owns words write b) : task.Owns words false b := by
  obtain ⟨hb, directory, hd, hbyte⟩ := h
  exact ⟨hb, directory, hd, hbyte.readable.1⟩

theorem UserTask.Owns.place (h : task.Owns words write b)
    (hd : task.pageDirectory = some directory) :
    physicalOf words directory write b = task.place words b := by
  obtain ⟨-, directory', hd', hbyte⟩ := h
  rw [hd] at hd'
  cases hd'
  unfold UserTask.place
  rw [hd]
  exact hbyte.readable.2

/-! ## Bytes stored one after another -/

theorem storeBytes_congr {place place' : Nat → Nat} {buffer' : Bytes} (n : Nat)
    (hp : ∀ i, i < n → place i = place' i) (hb : ∀ i, i < n → buffer i = buffer' i) :
    storeBytes place buffer n memory = storeBytes place' buffer' n memory := by
  induction n with
  | zero => rfl
  | succ n ih =>
    rw [storeBytes, storeBytes, hp n (Nat.lt_succ_self n), hb n (Nat.lt_succ_self n),
      ih (fun i hi => hp i (Nat.lt_succ_of_lt hi)) fun i hi => hb i (Nat.lt_succ_of_lt hi)]

theorem storeBytes_other {place : Nat → Nat} (h : ∀ i, i < n → p ≠ place i) :
    storeBytes place buffer n memory p = memory p := by
  induction n with
  | zero => rfl
  | succ n ih =>
    rw [storeBytes, Function.update_of_ne (h n (Nat.lt_succ_self n))]
    exact ih fun i hi => h i (Nat.lt_succ_of_lt hi)

theorem storeBytes_at (place : Nat → Nat) {i : Nat}
    (h : ∀ i j, i < n → j < n → place i = place j → i = j) (hi : i < n) :
    storeBytes place buffer n memory (place i) = buffer i := by
  induction n with
  | zero => exact absurd hi (Nat.not_lt_zero i)
  | succ n ih =>
    rw [storeBytes]
    by_cases he : place i = place n
    · rw [h i n hi (Nat.lt_succ_self n) he, Function.update_self]
    · rw [Function.update_of_ne he]
      apply ih (fun i j hi hj => h i j (Nat.lt_succ_of_lt hi) (Nat.lt_succ_of_lt hj))
      rcases Nat.lt_succ_iff_lt_or_eq.mp hi with hlt | rfl
      · exact hlt
      · exact absurd rfl he

/-! ## Copies of an owned span -/

theorem copyOut_owned (ha : address < 2 ^ 32) (h : SpanOwned (some task) words address size false)
    (memory stale : Bytes) :
    ∃ buffer : Bytes, taskCopyUser (some task) words address size false
      { memory, buffer := stale } =
        (.ok (), { memory, buffer }) ∧ ∀ i, i < size → buffer i =
          memory (task.place words (address + i)) := by
  rcases taskCopyUser_spec (some task) words size ha false { memory, buffer := stale } with
    ⟨-, process, directory, htask, he⟩ | ⟨hno, -⟩
  · refine ⟨_, he, fun i hi => ?_⟩
    change (if i < size then memory (physicalOf words directory false (address + i)) else _) = _
    rw [if_pos hi]
    apply congrArg memory
    apply (h.owns (Nat.le_add_right _ _) (Nat.add_lt_add_left hi _)).place
    rw [Option.some.inj htask]
  · exact absurd h hno

theorem copyIn_owned (ha : address < 2 ^ 32) (h : SpanOwned (some task) words address size true)
    (memory buffer : Bytes) :
    taskCopyUser (some task) words address size true { memory, buffer } =
      (.ok (), { memory := storeBytes (fun i => task.place words (address + i)) buffer size memory,
                 buffer }) := by
  rcases taskCopyUser_spec (some task) words size ha true { memory, buffer } with
    ⟨-, process, directory, htask, he⟩ | ⟨hno, -⟩
  · have hplace : storeBytes (fun i => physicalOf words directory true (address + i)) buffer
        size memory = storeBytes (fun i => task.place words (address + i)) buffer size memory := by
      apply storeBytes_congr size _ fun _ _ => rfl
      intro i hi
      apply (h.owns (Nat.le_add_right _ _) (Nat.add_lt_add_left hi _)).place
      rw [Option.some.inj htask]
    rw [he, ← hplace]
    rfl
  · exact absurd h hno

/-! ## How a call can go -/

theorem fileRead_course (fs : FsState) {desc : FileDescriptor}
    (hd : fileGetDescriptor fs fd = some desc) (hc : count ≤ 0x7FFFFFFF) :
    ReadCourse desc.priv count fs (fileRead fd count fs).1 (fileRead fd count fs).2 := by
  have h := fat16ReadBytes_spec desc.priv count fs
  rw [Prog.ends_iff] at h
  unfold fileRead
  rw [hd]
  dsimp only
  rw [if_neg (by omega)]
  exact h

theorem fileWrite_course (fs : FsState) (ht : Tidy fs.dev.identify fs.vol) {desc : FileDescriptor}
    (hd : fileGetDescriptor fs fd = some desc) (data : Bytes) (hc : count ≤ 0x7FFFFFFF) :
    WriteCourse desc.priv data count fs (fileWrite fd data count fs).1
      (fileWrite fd data count fs).2 := by
  have h := fat16WriteBytes_spec ht desc.priv data count
  rw [Prog.ends_iff] at h
  unfold fileWrite
  rw [hd]
  dsimp only
  rw [if_neg (by omega)]
  exact h

/-- The descriptor is open for the transfer. -/
def Targeted (write : Bool) (v : FatPrivate) (desc : Nat) : Prop :=
  if write then ∃ d item, WriteTarget v desc d item else ∃ d item, ReadTarget v desc d item

/-- The probe leaves everything as it is. -/
theorem fileProbe_spec (ht : Tidy fs.dev.identify fs.vol) (write : Bool) (fd : Int) :
    (∃ e, fileProbe write fd fs = (.error e, fs)) ∨
      (fileProbe write fd fs = (.ok 0, fs) ∧
        ∃ desc, fileGetDescriptor fs fd = some desc ∧ Targeted write fs.vol desc.priv) := by
  cases hd : fileGetDescriptor fs fd with
  | none =>
    left
    refine ⟨.ebadf, ?_⟩
    cases write with
    | true =>
      change fileWrite fd (fun _ => 0) 0 fs = _
      unfold fileWrite
      rw [hd]
    | false =>
      have hread : fileRead fd 0 fs = (.error .ebadf, fs) := by
        unfold fileRead
        rw [hd]
      exact Prog.bind_error hread
  | some desc =>
    cases write with
    | true =>
      have hc := fileWrite_course fs ht hd (fun _ => 0) (Nat.zero_le _)
      change (∃ e, fileWrite fd (fun _ => 0) 0 fs = _) ∨ (fileWrite fd (fun _ => 0) 0 fs = _ ∧ _)
      cases hc with
      | untargeted _ hr hs => exact Or.inl ⟨.ebadf, Prod.ext hr hs⟩
      | @nothing d item htarget _ hr hs =>
        exact Or.inr ⟨Prod.ext hr hs, desc, rfl, d, item, htarget⟩
      | unprepared _ h0 => omega
      | acted _ h0 => omega
    | false =>
      have hc := fileRead_course fs hd (Nat.zero_le _)
      cases hc with
      | @untargeted _ e hr _ hs => exact Or.inl ⟨e, Prog.bind_error (Prod.ext hr hs)⟩
      | @nothing d item htarget _ hr hs =>
        refine Or.inr ⟨?_, desc, rfl, d, item, htarget⟩
        exact Prog.bind_ok (Prod.ext hr hs)
      | got _ h0 => omega
      | failed _ h0 => omega

def chunkOf (count : Nat) : Nat := if count > fileTransferSize then fileTransferSize else count

theorem chunkOf_eq (count : Nat) : chunkOf count = min count fileTransferSize := by
  unfold chunkOf
  split <;> omega

/-- A call that got past the checks: the words on its stack and the descriptor of the handle. -/
structure Accepted (caller : Caller) (words : Words) (write : Bool) (s : CallState)
    (handle address count : Nat) (fd : Int) (desc : FileDescriptor) : Prop where
  arguments : fileArguments caller words s.memory = .ok (handle, address, count)
  file : processFileDescriptor (s.kernel.processes caller.slot) (toInt handle) = .ok fd
  slot : fileGetDescriptor s.kernel.fs fd = some desc
  target : Targeted write s.kernel.fs.vol desc.priv
  owned : 0 < count → SpanOwned (some caller.task) words address count (!write)

inductive TransferCourse (caller : Caller) (words : Words) (write : Bool) (s : CallState)
    (r : Except Errno Nat) (s' : CallState) : Prop where
  | refused {e : Errno} (hr : r = .error e) (hs : s' = s)
  | nothing {handle address : Nat} {fd : Int} {desc : FileDescriptor}
      (ha : Accepted caller words write s handle address 0 fd desc) (hr : r = .ok 0) (hs : s' = s)
  | starved {handle address count : Nat} {fd : Int} {desc : FileDescriptor} (heap : KHeap)
      (ha : Accepted caller words write s handle address count fd desc) (h0 : 0 < count)
      (hr : r = .error .enomem) (hs : s' = s.withFs { s.kernel.fs with heap })
  | wrote {handle address count : Nat} {fd : Int} {desc : FileDescriptor} (heap : KHeap)
    (buffer : Nat)
      {data : Bytes} {fs : FsState} (ha : Accepted caller words write s handle address
        count fd desc)
      (h0 : 0 < count) (hw : write = true)
      (hdata : ∀ i, i < chunkOf count → data i = s.memory (caller.task.place words (address + i)))
      (hc : WriteCourse desc.priv data (chunkOf count) { s.kernel.fs with heap } r fs)
      (hs : s' = s.withFs (kfreeAt buffer fs))
  | unread {handle address count : Nat} {fd : Int} {desc : FileDescriptor} (heap : KHeap)
    (buffer : Nat)
      {fs : FsState} {e : Errno} (ha : Accepted caller words write s handle address count fd desc)
      (h0 : 0 < count) (hw : write = false)
      (hc : ReadCourse desc.priv (chunkOf count) { s.kernel.fs with heap } (.error e) fs)
      (hr : r = .error e) (hs : s' = s.withFs (kfreeAt buffer fs))
  | read {handle address count n : Nat} {fd : Int} {desc : FileDescriptor} (heap : KHeap)
    (buffer : Nat)
      {data : Bytes} {fs : FsState} (ha : Accepted caller words write s handle address
        count fd desc)
      (h0 : 0 < count) (hw : write = false)
      (hc : ReadCourse desc.priv (chunkOf count) { s.kernel.fs with heap } (.ok (n, data)) fs)
      (hr : r = .ok n)
      (hs : s' = { s.withFs (kfreeAt buffer fs) with
        memory := storeBytes (fun i => caller.task.place words (address + i)) data n s.memory })

theorem readLen_le (item : DirItem) (pos count : Nat) : readLen item pos count ≤ count := by
  unfold readLen
  split <;> omega

theorem read_le (h : ReadCourse desc count fs (.ok (n, data)) fs') : n ≤ count := by
  cases h with
  | untargeted _ hr => cases hr
  | nothing _ _ hr =>
    cases hr
    exact Nat.zero_le _
  | got _ _ _ _ hr =>
    cases hr
    exact readLen_le _ _ _
  | failed _ _ _ _ hr => cases hr

theorem stackItem_lt {index : Nat} (h : taskGetStackItem caller words memory index = .ok n) :
    n < 2 ^ 32 := by
  unfold taskGetStackItem at h
  dsimp only at h
  split at h
  · cases h
  · split at h
    · cases h
    · cases h
      exact le32_lt _ _

theorem fileArguments_lt (h : fileArguments caller words memory = .ok (handle, address, count)) :
    address < 2 ^ 32 := by
  obtain ⟨a, -, h⟩ := except_bind_ok.mp h
  obtain ⟨b, hb, h⟩ := except_bind_ok.mp h
  obtain ⟨c, -, h⟩ := except_bind_ok.mp h
  cases h
  exact stackItem_lt hb

/-- An owned span is copied out whole. -/
theorem transferOut_eq (ha : address < 2 ^ 32) (h : SpanOwned (some caller.task) words address
    size false) (stale : Bytes) (fd : Int) (s : CallState) :
    ∃ data : Bytes, (∀ i, i < size → data i = s.memory (caller.task.place words (address + i))) ∧
      transferOut caller words stale fd address size s =
        ((fileWrite fd data size s.kernel.fs).1, s.withFs
          (fileWrite fd data size s.kernel.fs).2) := by
  obtain ⟨data, hcopy, hdata⟩ := copyOut_owned ha h s.memory stale
  refine ⟨data, hdata, ?_⟩
  unfold transferOut
  rw [hcopy]
  rfl

/-- What was read is copied in whole: the copier never refuses it. -/
theorem transferIn_eq (ha : address < 2 ^ 32)
    (h : SpanOwned (some caller.task) words address count true) (stale : Bytes) (fd : Int)
    (hread : fileRead fd size s.kernel.fs = (.ok (n, data), fs)) (hn : n ≤ count) :
    transferIn caller words stale fd address size s = (.ok n, { s.withFs fs with
      memory := storeBytes (fun i => caller.task.place words (address + i)) data n s.memory }) := by
  unfold transferIn
  rw [hread]
  dsimp only
  by_cases h0 : n > 0
  · rw [if_pos h0, copyIn_owned ha (h.shorter h0 hn)]
    have hbuffer : storeBytes (fun i => caller.task.place words (address + i))
      (memcpy stale 0 data 0 n) n
        s.memory = storeBytes (fun i => caller.task.place words (address + i)) data n s.memory := by
      apply storeBytes_congr n fun _ _ => rfl
      intro i hi
      rw [memcpy_of_lt (Nat.zero_le i) (by omega), Nat.zero_add, Nat.sub_zero]
    rw [← hbuffer]
  · obtain rfl : n = 0 := by omega
    rfl

theorem transferChunk_eq {t : CallState} {heap : KHeap} {buffer : Nat} {stale : Bytes}
    {r : Except Errno Nat} (hm : kmalloc s.kernel.fs.heap fileTransferSize = (some buffer, heap))
    (h : (if write then transferOut caller words stale fd address (chunkOf count)
        (s.withFs { s.kernel.fs with heap })
      else transferIn caller words stale fd address (chunkOf count)
        (s.withFs { s.kernel.fs with heap })) = (r, t)) :
    transferChunk caller words write stale fd address count s =
      (r, t.withFs (kfreeAt buffer t.kernel.fs)) := by
  unfold chunkOf at h
  unfold transferChunk
  rw [hm]
  dsimp only
  rw [h]

theorem transferChunk_course (ht : Tidy s.kernel.fs.dev.identify s.kernel.fs.vol)
    {desc : FileDescriptor} (ha : Accepted caller words write s handle address count fd desc)
    (h0 : 0 < count) (hmax : count ≤ 0x7FFFFFFF) (stale : Bytes) :
    TransferCourse caller words write s (transferChunk caller words write stale fd address
      count s).1 (transferChunk caller words write stale fd address count s).2 := by
  have hlt := fileArguments_lt ha.arguments
  have howned := ha.owned h0
  have hchunk : 0 < chunkOf count ∧ chunkOf count ≤ count := by
    rw [chunkOf_eq]
    unfold fileTransferSize
    omega
  rcases hm : kmalloc s.kernel.fs.heap fileTransferSize with ⟨p, heap⟩
  cases p with
  | none =>
    unfold transferChunk
    rw [hm]
    exact .starved heap ha h0 rfl rfl
  | some buffer =>
    cases write with
    | true =>
      obtain ⟨data, hdata, he⟩ := transferOut_eq hlt (howned.shorter hchunk.1 hchunk.2) stale fd
        (s.withFs { s.kernel.fs with heap })
      rw [transferChunk_eq hm ((if_pos rfl).trans he)]
      have hc := fileWrite_course { s.kernel.fs with heap } ht ha.slot data (hchunk.2.trans hmax)
      exact .wrote heap buffer ha h0 rfl hdata hc rfl
    | false =>
      have hc := fileRead_course { s.kernel.fs with heap } ha.slot (hchunk.2.trans hmax)
      rcases hread : fileRead fd (chunkOf count) { s.kernel.fs with heap } with ⟨r, fs⟩
      rw [hread] at hc
      cases r with
      | error e =>
        have he : transferIn caller words stale fd address (chunkOf count)
            (s.withFs { s.kernel.fs with heap }) = (.error e, s.withFs fs) := by
          unfold transferIn
          rw [show (s.withFs { s.kernel.fs with heap }).kernel.fs = { s.kernel.fs with heap } from
            rfl, hread]
          rfl
        rw [transferChunk_eq hm ((if_neg (by decide)).trans he)]
        exact .unread heap buffer ha h0 rfl hc rfl rfl
      | ok p =>
        obtain ⟨n, data⟩ := p
        have he := transferIn_eq (s := s.withFs { s.kernel.fs with heap }) hlt howned stale fd hread
          ((read_le hc).trans hchunk.2)
        rw [transferChunk_eq hm ((if_neg (by decide)).trans he)]
        exact .read heap buffer ha h0 rfl hc rfl rfl

theorem isr80hFileTransfer_course (ht : Tidy s.kernel.fs.dev.identify s.kernel.fs.vol)
    (write : Bool) (stale : Bytes) :
    TransferCourse caller words write s (isr80hFileTransfer caller words write stale s).1
      (isr80hFileTransfer caller words write stale s).2 := by
  unfold isr80hFileTransfer
  cases hargs : fileArguments caller words s.memory with
  | error e => exact .refused rfl rfl
  | ok args =>
    obtain ⟨handle, address, count⟩ := args
    dsimp only
    by_cases hmax : 0x7FFFFFFF < count
    · rw [if_pos hmax]
      exact .refused rfl rfl
    rw [if_neg hmax]
    cases hfd : processFileDescriptor (s.kernel.processes caller.slot) (toInt handle) with
    | error e => exact .refused rfl rfl
    | ok fd =>
      dsimp only
      rcases fileProbe_spec ht write fd with ⟨e, he⟩ | ⟨he, desc, hdesc, htarget⟩
      · rw [he]
        exact .refused rfl rfl
      rw [he]
      dsimp only
      by_cases h0 : count = 0
      · rw [if_pos h0]
        subst h0
        exact .nothing ⟨hargs, hfd, hdesc, htarget, fun h => absurd h (Nat.lt_irrefl 0)⟩ rfl rfl
      rw [if_neg h0]
      cases hval : taskValidateUserSpan (some caller.task) words address count (!write) with
      | error e => exact .refused rfl rfl
      | ok u =>
        have howned := (taskValidateUserSpan_iff _ words count (fileArguments_lt hargs) (!write)).mp
          hval
        exact transferChunk_course (s := s) ht ⟨hargs, hfd, hdesc, htarget, fun _ => howned⟩
          (Nat.pos_of_ne_zero h0) (by omega) stale

end

/-! ## Positions -/

/-- The driver's descriptor behind a handle of a process. -/
def openDescriptor (k : Kernel) (p : Nat) (handle : Int) : Option FatFileDescriptor :=
  match processFileDescriptor (k.processes p) handle with
  | .error _ => none
  | .ok fd => (fileGetDescriptor k.fs fd).bind fun desc => findDescriptor k.fs.vol desc.priv

def position (k : Kernel) (p : Nat) (handle : Int) : Option Nat :=
  (openDescriptor k p handle).map (·.pos)

/-- From `k` to `k'` the position of one handle became `q`, and no other moved. -/
structure PositionMoved (k k' : Kernel) (p : Nat) (handle : Int) (q : Nat) : Prop where
  moved : position k' p handle = some q
  others : ∀ p' handle', p' ≠ p ∨ handle' ≠ handle → position k' p' handle' = position k p' handle'

section

variable {k k' : Kernel} {p : Nat} {handle fd : Int} {desc : FileDescriptor}

theorem openDescriptor_eq (hfd : processFileDescriptor (k.processes p) handle = .ok fd)
    (hd : fileGetDescriptor k.fs fd = some desc) :
    openDescriptor k p handle = findDescriptor k.fs.vol desc.priv := by
  unfold openDescriptor
  rw [hfd]
  dsimp only
  rw [hd]
  rfl

theorem findDescriptor_handles (v : FatPrivate) (addr : Nat) :
    (findDescriptor v addr).map (·.pos) = ((handlesOf v).find? fun q => q.1 = addr).map
      (·.2.1) := by
  unfold findDescriptor handlesOf
  rw [List.find?_map, Option.map_map]
  rfl

theorem position_eq_handles (k : Kernel) (p : Nat) (handle : Int) :
    position k p handle = match processFileDescriptor (k.processes p) handle with
      | .error _ => none
      | .ok fd => (fileGetDescriptor k.fs fd).bind fun desc =>
          ((handlesOf k.fs.vol).find? fun q => q.1 = desc.priv).map (·.2.1) := by
  unfold position openDescriptor
  split
  · rfl
  · rename_i fd _
    cases fileGetDescriptor k.fs fd with
    | none => rfl
    | some desc => exact findDescriptor_handles _ _

theorem fileGetDescriptor_congr {s s' : FsState} (h : s'.files = s.files) (fd : Int) :
    fileGetDescriptor s' fd = fileGetDescriptor s fd := by
  unfold fileGetDescriptor
  rw [h]

theorem position_same (hp : k'.processes = k.processes) (hf : k'.fs.files = k.fs.files)
    (hh : handlesOf k'.fs.vol = handlesOf k.fs.vol) (q : Nat) (handle : Int) :
    position k' q handle = position k q handle := by
  rw [position_eq_handles, position_eq_handles, hp, hh]
  simp only [fileGetDescriptor_congr hf]

theorem findDescriptor_publish (pos : Nat) (item : DirItem) (v : FatPrivate) (addr : Nat) :
    findDescriptor (fat16Publish pos item v) addr =
      (findDescriptor v addr).map (publishDescriptor pos item) := by
  unfold findDescriptor
  rw [publish_descriptors]
  apply find?_map_addr
  intro d
  unfold publishDescriptor
  split
  · split <;> rfl
  · rfl

theorem handlesOf_setPos {v w : FatPrivate} (h : handlesOf w = handlesOf v) (desc q : Nat) :
    handlesOf (setPos desc q w) = handlesOf (setPos desc q v) := by
  have hmap : ∀ u, handlesOf (setPos desc q u) =
      (handlesOf u).map fun p => if p.1 = desc then (p.1, q, p.2.2) else p := by
    intro u
    unfold handlesOf setPos
    dsimp only
    rw [List.map_map, List.map_map]
    apply List.map_congr_left
    intro d _
    by_cases hd : d.addr = desc
    · simp [hd]
    · simp [hd]
  rw [hmap, hmap, h]

theorem processFileDescriptor_ok {process : Option Holder}
    (h : processFileDescriptor process handle = .ok fd) :
    ∃ holder, process = some holder ∧ 1 ≤ handle ∧ handle ≤ fileMaxOpen ∧
      fd = holder.files (handle - 1).toNat ∧ 0 < fd := by
  unfold processFileDescriptor at h
  cases process with
  | none => cases h
  | some holder =>
    dsimp only at h
    split at h
    · cases h
    · cases h
      exact ⟨holder, rfl, by omega, by omega, rfl, by omega⟩

/-- Two handles never name one descriptor of the driver. -/
theorem Good.handle_unique (hg : Good k) {p' : Nat} {handle' fd' : Int} {desc' : FileDescriptor}
    (hfd : processFileDescriptor (k.processes p) handle = .ok fd)
    (hd : fileGetDescriptor k.fs fd = some desc)
    (hfd' : processFileDescriptor (k.processes p') handle' = .ok fd')
    (hd' : fileGetDescriptor k.fs fd' = some desc')
    (hfound : findDescriptor k.fs.vol desc.priv = some d) (hpriv : desc'.priv = desc.priv) :
    p' = p ∧ handle' = handle := by
  have hstep := hg.inStep
  obtain ⟨hmem, haddr⟩ := findDescriptor_mem hfound
  obtain ⟨holder, hp, h1, h2, hfile, hpos⟩ := processFileDescriptor_ok hfd
  obtain ⟨holder', hp', h1', h2', hfile', hpos'⟩ := processFileDescriptor_ok hfd'
  have hslot : k.fs.files (fd.toNat - 1) = some desc := by
    unfold fileGetDescriptor at hd
    split at hd
    · cases hd
    · exact hd
  have hslot' : k.fs.files (fd'.toNat - 1) = some desc' := by
    unfold fileGetDescriptor at hd'
    split at hd'
    · cases hd'
    · exact hd'
  have hsame : fd'.toNat - 1 = fd.toNat - 1 :=
    (hstep.owner d hmem).unique ⟨desc', hslot', hpriv.trans haddr.symm⟩ ⟨desc, hslot, haddr.symm⟩
  obtain ⟨hpp, hhh⟩ := hstep.single p' holder' (handle' - 1).toNat p holder (handle - 1).toNat hp'
    hp (by omega) (by omega) (by omega) (by omega)
  exact ⟨hpp, by omega⟩

theorem Good.positionMoved (hg : Good k) (hp : k'.processes = k.processes)
    (hf : k'.fs.files = k.fs.files) {q : Nat}
    (hh : handlesOf k'.fs.vol = handlesOf (setPos desc.priv q k.fs.vol))
    (hfd : processFileDescriptor (k.processes p) handle = .ok fd)
    (hd : fileGetDescriptor k.fs fd = some desc)
    (hfound : findDescriptor k.fs.vol desc.priv = some d) : PositionMoved k k' p handle q := by
  let mid : Kernel := { k with fs := onVol (setPos desc.priv q) k.fs }
  have hmid : ∀ p' handle', position k' p' handle' = position mid p' handle' := fun p' handle' =>
    position_same (k := mid) hp hf hh p' handle'
  constructor
  · rw [hmid]
    unfold position
    rw [openDescriptor_eq (k := mid) hfd hd]
    change Option.map _ (findDescriptor (setPos desc.priv q k.fs.vol) desc.priv) = _
    rw [findDescriptor_setPos, hfound]
    change some (if d.addr = desc.priv then _ else _ : FatFileDescriptor).pos = _
    rw [if_pos (findDescriptor_mem hfound).2]
  · intro p' handle' hne
    rw [hmid]
    unfold position openDescriptor
    cases hfd' : processFileDescriptor (k.processes p') handle' with
    | error e => rfl
    | ok fd' =>
      cases hd' : fileGetDescriptor k.fs fd' with
      | none =>
        dsimp only
        rw [show fileGetDescriptor mid.fs fd' = none from hd', hd']
        rfl
      | some desc' =>
        dsimp only
        rw [show fileGetDescriptor mid.fs fd' = some desc' from hd', hd']
        change Option.map _ (findDescriptor (setPos desc.priv q k.fs.vol) desc'.priv) =
          Option.map _ (findDescriptor k.fs.vol desc'.priv)
        rw [findDescriptor_setPos, Option.map_map]
        cases hfound' : findDescriptor k.fs.vol desc'.priv with
        | none => rfl
        | some d' =>
          have hother : d'.addr ≠ desc.priv := by
            intro he
            have hpriv : desc'.priv = desc.priv := (findDescriptor_mem hfound').2.symm.trans he
            obtain ⟨h1, h2⟩ := hg.handle_unique hfd hd hfd' hd' hfound hpriv
            exact hne.elim (fun h => h h1) fun h => h h2
          change some (if d'.addr = desc.priv then _ else _ : FatFileDescriptor).pos = some d'.pos
          rw [if_neg hother]

end

/-! ## What a call does -/

/-- A read of `n` bytes from the file of `item` into the program. -/
structure ReadIn (caller : Caller) (words : Words) (handle : Int) (address count : Nat)
    (d : FatFileDescriptor) (item : DirItem) (n : Nat) (s s' : CallState) : Prop where
  opened : openDescriptor s.kernel caller.slot handle = some d
  file : ∃ addr, d.item.node = .file addr item
  length : n = min (min count 4096) (item.filesize - d.pos)
  bytes : ∀ i, i < n → fileByte s.kernel.fs.vol s.kernel.fs.dev.image (fat16GetFirstCluster item)
    (d.pos + i) = .ok (s'.memory (caller.task.place words (address + i)))
  others : ∀ b, caller.task.Owns words false b → b < address ∨ address + n ≤ b →
    s'.memory (caller.task.place words b) = s.memory (caller.task.place words b)
  elsewhere : ∀ q, (∀ i, i < n → q ≠ caller.task.place words (address + i)) →
    s'.memory q = s.memory q
  moved : PositionMoved s.kernel s'.kernel caller.slot handle (d.pos + n)

/-- A write of `n` bytes of the program to the file of `item`, whose entry is `item'` after it. -/
structure WroteOut (caller : Caller) (words : Words) (handle : Int) (address count : Nat)
    (d : FatFileDescriptor) (item : DirItem) (n : Nat) (s s' : CallState) : Prop where
  opened : openDescriptor s.kernel caller.slot handle = some d
  file : ∃ addr, d.item.node = .file addr item
  length : n = min count 4096
  memory : s'.memory = s.memory
  nothing : n = 0 → s' = s
  moved : 0 < n → PositionMoved s.kernel s'.kernel caller.slot handle (writeStart d item + n)
  written : 0 < n → ∃ d' addr item', openDescriptor s'.kernel caller.slot handle = some d' ∧
    d'.item.node = .file addr item' ∧ item'.filesize = sizeAfter item (writeStart d item + n) ∧
    Written s'.kernel.fs.vol s.kernel.fs.dev.image s'.kernel.fs.dev.image d.item.entryPos
      (fat16GetFirstCluster item') (writeStart d item) n
      fun i => s.memory (caller.task.place words (address + i))

theorem handlesOf_write_failed (h : WriteCourse desc data count fs (.error e) fs') :
    fs'.files = fs.files ∧ handlesOf fs'.vol = handlesOf fs.vol := by
  refine ⟨(neutral_write h).files, ?_⟩
  cases h with
  | untargeted _ _ hs => rw [hs]
  | nothing _ _ hr => cases hr
  | unprepared _ _ hp => exact handles_prepared hp
  | acted _ _ hp _ _ hact =>
    rw [← handles_prepared hp]
    rcases hact.ends fun phases b h => writePlan_publish h with
      ⟨phases, b, -, hr, -⟩ | ⟨-, phases, -, hpub, hv | hv⟩
    · cases hr
    · rw [hv]
      exact (handlesOf_after phases hpub).1
    · rw [hv]
      exact (handlesOf_after phases hpub).1

theorem handlesOf_read_failed (h : ReadCourse desc count fs (.error e) fs') :
    fs'.files = fs.files ∧ handlesOf fs'.vol = handlesOf fs.vol := by
  refine ⟨(neutral_read h).files, ?_⟩
  cases h with
  | untargeted _ _ _ hs => rw [hs]
  | nothing _ _ hr => cases hr
  | got _ _ _ _ hr => cases hr
  | failed _ _ _ hread => rw [hread.quiet.vol]

/-- The file a read went on in, and the bytes it gave. -/
theorem read_done (h : ReadCourse desc count fs (.ok (n, data)) fs') :
    ∃ d item, ReadTarget fs.vol desc d item ∧ n = min count (item.filesize - d.pos) ∧
      (∀ i, i < n → fileByte fs.vol fs.dev.image (fat16GetFirstCluster item) (d.pos + i) =
        .ok (data i)) ∧
      ((n = 0 ∧ fs' = fs) ∨ handlesOf fs'.vol = handlesOf (setPos desc (d.pos + n) fs.vol)) := by
  cases h with
  | untargeted _ hr => cases hr
  | @nothing d item ht h0 hr hs =>
    cases hr
    exact ⟨d, item, ht, by omega, fun i hi => absurd hi (Nat.not_lt_zero i), Or.inl ⟨rfl, hs⟩⟩
  | @got d item ht h0 h1 buf s1 hread hr hs =>
    cases hr
    have hden : readAt fs.vol fs.dev.image (fat16GetFirstCluster item) d.pos
        (readLen item d.pos count) = .ok data := by
      rcases hread.outcome with ⟨-, hview⟩ | ⟨-, e, he, -⟩
      · exact hview.symm
      · cases he
    refine ⟨d, item, ht, ?_, fun i hi => readAt_bytes hden hi, ?_⟩
    · unfold readLen
      split <;> omega
    · right
      rw [hs]
      change handlesOf (setPos _ _ s1.vol) = _
      rw [hread.quiet.vol]
  | failed _ _ _ _ hr => cases hr

section

variable {caller : Caller} {words : Words} {write : Bool} {s s' : CallState} {r : Except Errno Nat}

theorem TransferCourse.failed (h : TransferCourse caller words write s r s') (hr : r = .error e) :
    (∀ p handle, position s'.kernel p handle = position s.kernel p handle) ∧ s'.memory =
      s.memory := by
  subst hr
  cases h with
  | refused _ hs =>
    rw [hs]
    exact ⟨fun _ _ => rfl, rfl⟩
  | nothing _ hr => cases hr
  | starved heap _ _ _ hs =>
    rw [hs]
    exact ⟨position_same rfl rfl rfl, rfl⟩
  | wrote heap buffer _ _ _ _ hc hs =>
    obtain ⟨hfiles, hhandles⟩ := handlesOf_write_failed hc
    rw [hs]
    exact ⟨position_same rfl hfiles hhandles, rfl⟩
  | unread heap buffer _ _ _ hc hr hs =>
    obtain ⟨hfiles, hhandles⟩ := handlesOf_read_failed hc
    rw [hs]
    exact ⟨position_same rfl hfiles hhandles, rfl⟩
  | read _ _ _ _ _ _ hr => cases hr

/-- A span with a byte that is not owned stops the call before anything happens. -/
theorem TransferCourse.unowned (h : TransferCourse caller words write s r s')
    (hargs : fileArguments caller words s.memory = .ok (handle, address, count)) (h1 : address ≤ b)
    (h2 : b < address + count) (hb : ¬ caller.task.Owns words (!write) b) :
    (∃ e, r = .error e) ∧ s' = s := by
  have hno : ∀ {handle' address' count' : Nat} {fd : Int} {desc : FileDescriptor},
      Accepted caller words write s handle' address' count' fd desc → False := by
    intro handle' address' count' fd desc ha
    have he := ha.arguments
    rw [hargs] at he
    cases he
    exact hb ((ha.owned (by omega)).owns h1 h2)
  cases h with
  | @refused e hr hs => exact ⟨⟨e, hr⟩, hs⟩
  | nothing ha => exact (hno ha).elim
  | starved _ ha => exact (hno ha).elim
  | wrote _ _ ha => exact (hno ha).elim
  | unread _ _ ha => exact (hno ha).elim
  | read _ _ ha => exact (hno ha).elim

theorem TransferCourse.readIn (h : TransferCourse caller words false s r s') (hg : Good s.kernel)
    (hmap : MappedApart caller.task words) (hr : r = .ok n) :
    ∃ handle address count d item, fileArguments caller words s.memory =
      .ok (handle, address, count) ∧
      ReadIn caller words (toInt handle) address count d item n s s' := by
  subst hr
  cases h with
  | refused hr => cases hr
  | starved _ _ _ hr => cases hr
  | wrote _ _ _ _ hw => cases hw
  | unread _ _ _ _ _ _ hr => cases hr
  | @nothing handle address fd desc ha hr hs =>
    cases hr
    obtain ⟨d, item, htarget⟩ := ha.target
    have hopen := (openDescriptor_eq ha.file ha.slot).trans htarget.found
    refine ⟨handle, address, 0, d, item, ha.arguments, hopen, htarget.file, by omega,
      fun i hi => absurd hi (Nat.not_lt_zero i), fun b _ _ => by rw [hs], fun q _ => by rw [hs], ?_,
        ?_⟩
    · rw [hs]
      unfold position
      rw [hopen]
      rfl
    · intro p' handle' _
      rw [hs]
  | @read handle address count n' fd desc heap buffer data fs ha h0 hw hc hr hs =>
    cases hr
    obtain ⟨d, item, htarget, hn, hbytes, hend⟩ := read_done hc
    have howned := ha.owned h0
    have hopen := (openDescriptor_eq ha.file ha.slot).trans htarget.found
    have hle : n ≤ count := by
      rw [chunkOf_eq] at hn
      omega
    have howns : ∀ i, i < n → caller.task.Owns words false (address + i) := fun i hi =>
      (howned.owns (Nat.le_add_right _ _) (by omega)).readable
    have hmem : s'.memory = storeBytes (fun i => caller.task.place words (address + i)) data n
        s.memory := by
      rw [hs]
    refine ⟨handle, address, count, d, item, ha.arguments, hopen, htarget.file, ?_, ?_, ?_, ?_, ?_⟩
    · rw [hn, chunkOf_eq]
      rfl
    · intro i hi
      rw [hmem, storeBytes_at (fun i => caller.task.place words (address + i)) _ hi]
      · exact hbytes i hi
      · intro i j hi hj he
        have := hmap _ _ (howns i hi) (howns j hj) he
        omega
    · intro b hb hout
      rw [hmem, storeBytes_other]
      intro i hi he
      have := hmap _ _ hb (howns i hi) he
      omega
    · intro q hq
      rw [hmem, storeBytes_other hq]
    · have hfiles : s'.kernel.fs.files = s.kernel.fs.files := by
        rw [hs]
        exact (neutral_read hc).files
      have hprocs : s'.kernel.processes = s.kernel.processes := by rw [hs]; rfl
      rcases hend with ⟨rfl, hfs⟩ | hhandles
      · have hsame := position_same (k := s.kernel) hprocs hfiles (by rw [hs, hfs]; rfl)
        refine ⟨?_, fun p' handle' _ => hsame p' handle'⟩
        rw [hsame]
        unfold position
        rw [hopen]
        rfl
      · exact hg.positionMoved hprocs hfiles (by rw [hs]; exact hhandles) ha.file ha.slot
          htarget.found

/-- The descriptor after its write shows the new entry of its file. -/
theorem WriteDone.opened {first : Nat} {item : DirItem}
    (h : WriteDone desc d item data count fs fs' first) (ht : WriteTarget fs.vol desc d item) :
    handlesOf fs'.vol = handlesOf (setPos desc (writeStart d item + count) fs.vol) ∧
      ∃ d' addr item', findDescriptor fs'.vol desc = some d' ∧ d'.item.node = .file addr item' ∧
        item'.filesize = sizeAfter item (writeStart d item + count) ∧ fat16GetFirstCluster item' =
          first := by
  obtain ⟨v1, hdesc, hvol⟩ := h.vol
  rw [hvol]
  constructor
  · apply handlesOf_setPos
    rw [handlesOf_publish]
    unfold handlesOf
    rw [hdesc]
  · obtain ⟨addr, hnode⟩ := ht.file
    have hfind : findDescriptor v1 desc = some d := by
      unfold findDescriptor
      rw [hdesc]
      exact ht.found
    have hpub : ∀ item', publishDescriptor d.item.entryPos item' d =
        { d with item := { d.item with node := .file addr item' } } := by
      intro item'
      unfold publishDescriptor
      rw [hnode]
      exact if_pos rfl
    have hsize := h.size_le
    rw [findDescriptor_setPos, findDescriptor_publish, hfind]
    refine ⟨_, addr, _, rfl, ?_, rewritten_filesize item first ?_,
      rewritten_first item _ h.first_lt⟩
    · rw [hpub]
      dsimp only
      split <;> rfl
    · unfold Disk.intMax at hsize
      omega

theorem TransferCourse.wroteOut (h : TransferCourse caller words true s r s') (hg : Good s.kernel)
    (hr : r = .ok n) :
    ∃ handle address count d item, fileArguments caller words s.memory =
      .ok (handle, address, count) ∧
      WroteOut caller words (toInt handle) address count d item n s s' := by
  subst hr
  cases h with
  | refused hr => cases hr
  | starved _ _ _ hr => cases hr
  | unread _ _ _ _ hw => cases hw
  | read _ _ _ _ hw => cases hw
  | @nothing handle address fd desc ha hr hs =>
    cases hr
    obtain ⟨d, item, htarget⟩ := ha.target
    have hopen := (openDescriptor_eq ha.file ha.slot).trans htarget.found
    exact ⟨handle, address, 0, d, item, ha.arguments, hopen, htarget.file, by omega, by rw [hs],
      fun _ => hs, fun h => absurd h (Nat.lt_irrefl 0), fun h => absurd h (Nat.lt_irrefl 0)⟩
  | @wrote handle address count fd desc heap buffer data fs ha h0 hw hdata hc hs =>
    obtain ⟨rfl, d, item, htarget, hdone⟩ :=
      write_done (s := { s.kernel.fs with heap }) (hg.sane.tidy hg.mounted) hc
    have hchunk : chunkOf count = min count 4096 := chunkOf_eq count
    rcases hdone with ⟨hzero, -⟩ | ⟨hpos, first, hdone⟩
    · omega
    have hopen := (openDescriptor_eq ha.file ha.slot).trans htarget.found
    obtain ⟨hhandles, d', addr, item', hfind, hnode, hsize, hfirst⟩ :=
      WriteDone.opened hdone htarget
    have hfiles : s'.kernel.fs.files = s.kernel.fs.files := by
      rw [hs]
      exact (neutral_write hc).files
    have hprocs : s'.kernel.processes = s.kernel.processes := by rw [hs]; rfl
    refine ⟨handle, address, count, d, item, ha.arguments, hopen, htarget.file,
      hchunk, by rw [hs]; rfl,
      fun h => absurd h (by omega), fun _ => ?_, fun _ => ⟨d', addr, item', ?_, hnode, hsize, ?_⟩⟩
    · exact hg.positionMoved hprocs hfiles (by rw [hs]; exact hhandles) ha.file ha.slot
        htarget.found
    · rw [openDescriptor_eq (hprocs ▸ ha.file) ((fileGetDescriptor_congr hfiles fd).trans ha.slot),
        hs]
      exact hfind
    · rw [hfirst, hs]
      exact hdone.written.of_data fun i hi => hdata i hi

end

/-- A read or a write call of a program. If the program does not own the whole span with the
permission needed, nothing happens. A call that fails moves no position and no byte of memory.
A read stores the bytes of the file from the position on, as many as it says, and moves the
position by them; a write stores the first bytes of the span in the file. -/
theorem file_transfer (caller : Caller) (words : Words) {s : CallState} (hg : Good s.kernel)
    (hmap : MappedApart caller.task words) (write : Bool) (stale : Bytes) :
    let out := isr80hFileTransfer caller words write stale s
    (∀ handle address count b, fileArguments caller words s.memory = .ok (handle, address, count) →
      address ≤ b → b < address + count → ¬ caller.task.Owns words (!write) b →
        (∃ e, out.1 = .error e) ∧ out.2 = s) ∧
    (∀ e, out.1 = .error e →
      (∀ p handle, position out.2.kernel p handle = position s.kernel p handle) ∧
        out.2.memory = s.memory) ∧
    (∀ n, out.1 = .ok n → ∃ handle address count d item,
      fileArguments caller words s.memory = .ok (handle, address, count) ∧
        (write = true → WroteOut caller words (toInt handle) address count d item n s out.2) ∧
        (write = false → ReadIn caller words (toInt handle) address count d item n s out.2)) := by
  intro out
  have hcourse : TransferCourse caller words write s out.1 out.2 :=
    isr80hFileTransfer_course (hg.sane.tidy hg.mounted) write stale
  refine ⟨fun handle address count b hargs h1 h2 hb => hcourse.unowned hargs h1 h2 hb,
    fun e he => hcourse.failed he, fun n hn => ?_⟩
  cases write with
  | true =>
    obtain ⟨handle, address, count, d, item, hargs, hdone⟩ := hcourse.wroteOut hg hn
    exact ⟨handle, address, count, d, item, hargs, fun _ => hdone, fun h => (by cases h)⟩
  | false =>
    obtain ⟨handle, address, count, d, item, hargs, hdone⟩ := hcourse.readIn hg hmap hn
    exact ⟨handle, address, count, d, item, hargs, fun h => (by cases h), fun _ => hdone⟩

/-- One directory at 4096 with one table at 8192, which maps the first 4 MiB to themselves. -/
def flatWords : Words := fun base index =>
  if base = 4096 then if index = 0 then 8192 + 7 else 0
  else if base = 8192 ∧ index < 1024 then index * 4096 + 7 else 0

theorem flatWords_place (h : pagingUserTranslate flatWords 4096 b false = .ok p) : p = b := by
  have hzero : b >>> 22 = 0 := by
    by_contra hne
    unfold pagingUserTranslate flatWords at h
    rw [if_neg (by decide), if_pos rfl, if_neg hne] at h
    cases h
  have hb : b < 2 ^ 22 := by
    rw [Nat.shiftRight_eq_div_pow] at hzero
    omega
  have hindex : (b >>> 12) &&& 0x3FF = b / 4096 := by
    rw [show (0x3FF : Nat) = 2 ^ 10 - 1 from rfl, Nat.and_two_pow_sub_one_eq_mod,
      Nat.shiftRight_eq_div_pow]
    omega
  have htable : ∀ i, i < 1024 → (i * 4096 + 7) &&& 0xFFFFF000 = i * 4096 := by decide +kernel
  have hoff : b &&& (pagingPageSize - 1) = b % 4096 := Nat.and_two_pow_sub_one_eq_mod b 12
  unfold pagingUserTranslate at h
  dsimp only at h
  rw [if_neg (by decide), hzero] at h
  split at h
  · cases h
  split at h
  · cases h
  have hentry : flatWords (flatWords 4096 0 &&& 0xFFFFF000) ((b >>> 12) &&& 0x3FF) =
      b / 4096 * 4096 + 7 := by
    rw [hindex]
    have hlt : b / 4096 < 1024 := by omega
    simp [flatWords, hlt]
  rw [hentry, htable _ (by omega), hoff] at h
  have hp := Except.ok.inj h
  rw [← hp, Lib.lor_offset (Nat.mul_mod_left _ _) (Nat.mod_lt _ (by decide))]
  omega

/-- A task that owns its stack only. -/
def stackTask : UserTask :=
  { process := some
      { allocations := fun _ => ⟨0, 0⟩, filetype := 1, ptr := 0, elfFile := .zero, stack := 4096,
        size := 0 }
    pageDirectory := some 4096 }

theorem stackTask_apart : MappedApart stackTask flatWords := by
  have hplace : ∀ b, stackTask.Owns flatWords false b → stackTask.place flatWords b = b := by
    rintro b ⟨-, directory, hd, -, p, hp⟩
    cases hd
    change physicalOf flatWords 4096 false b = b
    unfold physicalOf
    rw [hp]
    exact flatWords_place hp
  intro b c hb hc he
  rwa [hplace b hb, hplace c hc] at he

/-- It asks for five bytes of the file of handle 1. -/
def stackCaller : Caller := { slot := 0, task := stackTask, esp := 0x3FE000 }

def smallCall (k : Kernel) : CallState :=
  { kernel := k
    memory := fun p => (enc32 1 ++ enc32 0x3FC000 ++ enc32 5).getD (p - 0x3FE000) 0 }

/-- The file has two bytes, so that many arrive. -/
theorem file_transfer_small : ∃ k, (isr80hFileTransfer stackCaller flatWords false (fun _ => 0xAA)
      (smallCall k)).1 = .ok 2 ∧
    ∃ handle address count d item, fileArguments stackCaller flatWords (smallCall k).memory =
        .ok (handle, address, count) ∧
      ReadIn stackCaller flatWords (toInt handle) address count d item 2 (smallCall k)
        (isr80hFileTransfer stackCaller flatWords false (fun _ => 0xAA) (smallCall k)).2 := by
  refine ⟨(HandleOp.openFile 0 smallPath .read).run oneProcess, ?_⟩
  have hrun : (isr80hFileTransfer stackCaller flatWords false (fun _ => 0xAA)
      (smallCall ((HandleOp.openFile 0 smallPath .read).run oneProcess))).1 = .ok 2 := by
    decide +kernel
  have hgood := (Reached.step oneProcess_reached (.openFile 0 smallPath .read) trivial).good
  generalize (HandleOp.openFile 0 smallPath .read).run oneProcess = k at hrun hgood ⊢
  obtain ⟨handle, address, count, d, item, hargs, -, hread⟩ :=
    (file_transfer stackCaller flatWords (s := smallCall k) hgood stackTask_apart false
      (fun _ => 0xAA)).2.2 2 hrun
  exact ⟨hrun, handle, address, count, d, item, hargs, hread rfl⟩

end Rorthox.Tasks
