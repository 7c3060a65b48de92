import Rorthox.Lib.CString
import Rorthox.Tasks.Transfer
import Rorthox.Tasks.UserString

/-!
# Looking a program up

`isr80h_load_program` of `kernel/isr80h/process.c` and the two system calls that use it. The
loader itself is any function of the paths it has been given so far; what is recorded is the
buffer of every call to it.
-/

namespace Rorthox.Tasks

open Lib Memory Fat

/-! ## The search -/

/-- What `process_load_with_arguments` returns, from the calls before and the path. -/
abbrev Loader := List Bytes → Bytes → Int

def slash : UInt8 := 47

def colon : UInt8 := 58

/-- The string "0:/". -/
def drive : CString := ⟨[48, colon, slash], by decide⟩

/-- The scan for '/' and ':'. -/
def bareLoop (name : Bytes) : Nat → Nat → Bool
  | 0, _ => true
  | left + 1, i => if name i = slash ∨ name i = colon then false else bareLoop name left (i + 1)

/-- The loop over the search list, with the path buffer and the calls made. -/
def loadLoop (load : Loader) (name : Bytes) (nameLength : Nat) :
    List CString → Bytes → List Bytes → Int × List Bytes
  | [], _, calls => (Errno.eio.code, calls)
  | dir :: dirs, path, calls =>
      let dirLength := strnlen dir.buffer maxPath
      if dirLength ≥ maxPath ∨ nameLength ≥ maxPath - dirLength then loadLoop load name nameLength
        dirs path calls
      else
        let path := strncpy (strcpy path 0 dir.bytes) dirLength name (maxPath - dirLength)
        let res := load calls path
        if res ≠ Errno.enoent.code then (res, calls ++ [path])
        else loadLoop load name nameLength dirs path (calls ++ [path])

/-- The result and the calls; `path` is what the buffer on the stack holds. -/
def isr80hLoadProgram (dirs : List CString) (load : Loader) (name path : Bytes) :
    Int × List Bytes :=
  let nameLength := strnlen name maxPath
  let bare := nameLength > 0 && bareLoop name nameLength 0
  loadLoop load name nameLength (if bare then dirs else [drive]) path []

/-! ## The system calls -/

/-- A call returns to the program, or the new process runs. -/
inductive Outcome where
  | returned (value : Int)
  | started
  deriving DecidableEq

/-- The name is too long for "0:/" and a NUL. -/
def nameRefused (length : Nat) : Prop := 3 + length + 1 > maxPath

instance (length : Nat) : Decidable (nameRefused length) := inferInstanceAs (Decidable (_ > _))

/-- Bytes of the text in a `command_argument`; a pointer to the next one follows. -/
def argumentSize : Nat := 512

def maxCommandArguments : Nat := 32

section

variable (caller : Caller) (words : Words) (memory : Bytes)

/-- The walk along the caller's list; the nodes are copied into zeroed memory. -/
def argumentLoop : Nat → Nat → Except Errno (List Bytes)
  | _, 0 => .ok []
  | 0, _ + 1 => .error .einvarg
  | left + 1, address + 1 =>
      match taskCopyUser (some caller.task) words (address + 1) (argumentSize + 4) false
        { memory, buffer := fun _ => 0 } with
      | (.error e, _) => .error e
      | (.ok (), st) =>
          if strnlen st.buffer argumentSize = argumentSize then .error .einvarg
          else (argumentLoop left (le32 st.buffer argumentSize)).map (st.buffer :: ·)

/-- `allocated` is whether `kzalloc` gave the block. -/
def isr80hCopyCommandArguments (allocated : Bool) (address : Nat) : Except Errno (List Bytes) :=
  if address = 0 then .error .einvarg
  else if allocated then argumentLoop caller words memory maxCommandArguments address
  else .error .enomem

variable (dirs : List CString) (load : Loader)

/-- `filename` and `path` are what the buffers on the stack hold. -/
def isr80hCommand6ProcessLoadStart (filename path : Bytes) : Outcome × List Bytes :=
  match taskGetStackItem caller words memory 0 with
  | .error _ => (.returned 0, [])
  | .ok address =>
      match copyStringFromTask (some caller.task) words (fun p => some (memory p)) address maxPath
        filename with
      | (.error _, _) => (.returned 0, [])
      | (.ok (), filename) =>
          if nameRefused (strnlen filename maxPath) then (.returned Errno.einvarg.code, [])
          else
            let (res, calls) := isr80hLoadProgram dirs load filename path
            if res < 0 then (.returned 0, calls) else (.started, calls)

def isr80hCommand7InvokeSystemCommand (allocated : Bool) (path : Bytes) : Outcome × List Bytes :=
  match taskCopyUser (some caller.task) words caller.esp.toNat 4 false
    { memory, buffer := fun _ => 0 } with
  | (.error e, _) => (.returned e.code, [])
  | (.ok (), st) =>
      match isr80hCopyCommandArguments caller words memory allocated (le32 st.buffer 0) with
      | .error e => (.returned e.code, [])
      -- a block from `kzalloc` with no node copied has no name
      | .ok [] => (.returned Errno.einvarg.code, [])
      | .ok (programName :: _) =>
          if programName 0 = 0 ∨ nameRefused (strnlen programName argumentSize) then
            (.returned Errno.einvarg.code, [])
          else
            let (res, calls) := isr80hLoadProgram dirs load programName path
            if res < 0 then (.returned res, calls) else (.started, calls)

end

/-! ## What the search is for -/

/-- The paths a name is looked up at. -/
def searchPaths (dirs : List CString) (name : List UInt8) : List (List UInt8) :=
  let dirs := if name = [] ∨ slash ∈ name ∨ colon ∈ name then [drive] else dirs
  ((dirs.map CString.bytes).filter fun dir => dir.length + name.length < maxPath).map (· ++ name)

/-- The paths are handed to the loader in order, up to the first that is not missing. -/
inductive Searches (load : Loader) : List Bytes → List (List UInt8) → List Bytes → Int → Prop where
  | exhausted (done : List Bytes) : Searches load done [] [] Errno.eio.code
  | found {done : List Bytes} {path : Bytes} {p : List UInt8} (ps : List (List UInt8))
    (h : HoldsString path p)
      (hres : load done path ≠ Errno.enoent.code) : Searches load done (p :: ps) [path]
        (load done path)
  | missing {done calls : List Bytes} {path : Bytes} {p : List UInt8} {ps : List (List UInt8)}
      {res : Int} (h : HoldsString path p) (hres : load done path = Errno.enoent.code)
      (rest : Searches load (done ++ [path]) ps calls res) :
        Searches load done (p :: ps) (path :: calls) res

/-- How many of the calls created a process. -/
def creations (load : Loader) : List Bytes → List Bytes → Nat
  | _, [] => 0
  | done, path :: calls =>
    (if 0 ≤ load done path then 1 else 0) + creations load (done ++ [path]) calls

theorem Searches.creations_eq {load : Loader} {done calls : List Bytes} {ps : List (List UInt8)}
    {res : Int}
    (h : Searches load done ps calls res) : creations load done calls = if 0 ≤
      res then 1 else 0 := by
  induction h with
  | exhausted _ | found _ _ _ => rfl
  | missing h hres rest ih =>
    rw [creations, hres, ih]
    exact Nat.zero_add _

theorem searchPaths_short {dirs : List CString} {name p : List UInt8}
    (h : p ∈ searchPaths dirs name) : p.length < maxPath := by
  simp only [searchPaths, List.mem_map, List.mem_filter, decide_eq_true_eq] at h
  obtain ⟨dir, ⟨-, hfit⟩, rfl⟩ := h
  rwa [List.length_append]

/-! ## The search does it -/

variable {name : Bytes} {l : List UInt8}

theorem bareLoop_holds (h : HoldsString name l) (left : Nat) : ∀ {i : Nat}, i + left = l.length →
    (bareLoop name left i = true ↔ slash ∉ l.drop i ∧ colon ∉ l.drop i) := by
  induction left with
  | zero =>
    intro i hi
    rw [List.drop_of_length_le (by omega)]
    simp [bareLoop]
  | succ left ih =>
    intro i hi
    have hlt : i < l.length := by omega
    rw [bareLoop, h.byte i hlt, List.drop_eq_getElem_cons hlt, List.mem_cons, List.mem_cons]
    split
    next hstop =>
      rcases hstop with hs | hs <;> simp [hs]
    next hgo =>
      rw [ih (by omega)]
      grind

/-- The string behind the directory, and nothing past the buffer. -/
theorem path_holds (h : HoldsString name l) (dir : CString) (path : Bytes)
    (hfit : dir.bytes.length + l.length < maxPath) :
    let path' := strncpy (strcpy path 0 dir.bytes) dir.bytes.length name
      (maxPath - dir.bytes.length)
    HoldsString path' (dir.bytes ++ l) ∧ ∀ i, maxPath ≤ i → path' i = path i := by
  have htake : l.take (maxPath - dir.bytes.length - 1) = l := List.take_of_length_le (by omega)
  simp only [strcpy_eq, strncpy_holds h, htake]
  refine ⟨holds_append dir.clean h.clean, fun i hi => ?_⟩
  rw [splice_outside (Or.inr (by simp; omega)), splice_outside (Or.inr (by simp; omega))]

theorem loadLoop_searches (load : Loader) (h : HoldsString name l) (dirs : List CString) :
    ∀ (path : Bytes) (done : List Bytes), ∃ calls,
      (loadLoop load name l.length dirs path done).2 = done ++ calls ∧
      Searches load done (((dirs.map CString.bytes).filter fun dir => dir.length + l.length <
        maxPath).map (· ++ l)) calls (loadLoop load name l.length dirs path done).1 ∧
      ∀ call ∈ calls, ∀ i, maxPath ≤ i → call i = path i := by
  induction dirs with
  | nil =>
    intro path done
    exact ⟨[], (List.append_nil _).symm, .exhausted done, by simp⟩
  | cons dir dirs ih =>
    intro path done
    have hlen : strnlen dir.buffer maxPath = min dir.bytes.length maxPath :=
      strnlen_holds dir.holds maxPath
    by_cases hfit : dir.bytes.length + l.length < maxPath
    · have hgo : ¬ (dir.bytes.length ≥ maxPath ∨ l.length ≥ maxPath - dir.bytes.length) := by omega
      have hshort : strnlen dir.buffer maxPath = dir.bytes.length := by omega
      obtain ⟨hholds, hpast⟩ := path_holds h dir path hfit
      simp only [loadLoop, hshort, hgo, if_false, List.map_cons, List.filter_cons, hfit,
        decide_true, if_true]
      generalize strncpy (strcpy path 0 dir.bytes) dir.bytes.length name
        (maxPath - dir.bytes.length) = call at hholds hpast
      by_cases hres : load done call = Errno.enoent.code
      · obtain ⟨calls, hcalls, hrest, hsame⟩ := ih call (done ++ [call])
        rw [if_neg (not_not_intro hres)]
        refine ⟨call :: calls, by rw [hcalls, List.append_assoc]; rfl, .missing hholds hres hrest,
          ?_⟩
        intro c hc i hi
        rcases List.mem_cons.mp hc with rfl | hc
        · exact hpast i hi
        · exact (hsame c hc i hi).trans (hpast i hi)
      · rw [if_pos hres]
        refine ⟨[call], rfl, .found _ hholds hres, ?_⟩
        intro c hc i hi
        rw [List.mem_singleton.mp hc]
        exact hpast i hi
    · have hskip : strnlen dir.buffer maxPath ≥ maxPath ∨
        l.length ≥ maxPath - strnlen dir.buffer maxPath := by omega
      simp only [loadLoop, hskip, if_true, List.map_cons, List.filter_cons, hfit, decide_false,
        Bool.false_eq_true, if_false]
      exact ih path done

/-- A name that fits the buffer is searched for as a whole. -/
theorem isr80hLoadProgram_searches (dirs : List CString) (load : Loader) (h : HoldsString name l)
    (hl : l.length < maxPath) (path : Bytes) :
    Searches load [] (searchPaths dirs l) (isr80hLoadProgram dirs load name path).2
      (isr80hLoadProgram dirs load name path).1 ∧
    ∀ call ∈ (isr80hLoadProgram dirs load name path).2, ∀ i, maxPath ≤ i → call i = path i := by
  have hlen : strnlen name maxPath = l.length := (strnlen_holds h maxPath).trans
    (Nat.min_eq_left hl.le)
  have hbare : (l.length > 0 && bareLoop name l.length 0) = true ↔
      ¬ (l = [] ∨ slash ∈ l ∨ colon ∈ l) := by
    rw [Bool.and_eq_true, decide_eq_true_eq, bareLoop_holds h l.length (Nat.zero_add _),
      List.drop_zero, gt_iff_lt, List.length_pos_iff]
    tauto
  obtain ⟨calls, hcalls, hsearch, hpast⟩ := loadLoop_searches load h
    (if (l.length > 0 && bareLoop name l.length 0) = true then dirs else [drive]) path []
  rw [List.nil_append] at hcalls
  simp only [isr80hLoadProgram, hlen, searchPaths]
  rw [hcalls]
  refine ⟨?_, hpast⟩
  by_cases hb : l = [] ∨ slash ∈ l ∨ colon ∈ l
  · rw [if_neg (mt hbare.mp (not_not_intro hb))] at hsearch ⊢
    rwa [if_pos hb]
  · rw [if_pos (hbare.mpr hb)] at hsearch ⊢
    rwa [if_neg hb]

/-! ## The names of the two calls -/

section User

variable {process : Process} {words : Words} {directory : Nat} {memory : Nat → Option UInt8}
  {content : Bytes}
  {address k max : Nat} (hmem : Backed (some process) words directory memory content)

include hmem

/-- A string is copied as far as it fits. -/
theorem copyStringFromTask_string (h : EndsAt (some process) words directory content address k)
    (hspace : address + k < 2 ^ 32) (hmax : 1 ≤ max) (out : Bytes) : ∃ out',
      copyStringFromTask (some ⟨process, directory⟩) words memory address max out = (.ok (), out') ∧
      HoldsString out' (textAt content address (min k (max - 1))) := by
  obtain ⟨hclear, hlast, hzero⟩ := endsAt_iff.mp h
  have haddress : address ≠ 0 := by
    intro h0
    obtain ⟨⟨n, hn⟩, -⟩ := h.1 0 (Nat.zero_le k)
    rw [h0, processUserSpan_eq] at hn
    cases hn
  have hno : ¬ ((max : Int) ≤ 0 ∨ address = 0) := by omega
  simp only [copyStringFromTask, Prog.refuse_of_not hno, pure_bind, Int.toNat_natCast]
  by_cases hk : k < max - 1
  · refine ⟨_, stringLoop_ended hmem _ _ address 0 k out le_rfl hk hclear hlast hzero fun _ =>
      hspace, ?_⟩
    rw [Nat.min_eq_left hk.le]
    refine textAt_holds (fun i hi => (hclear i hi).2) (fun i hi => ?_) ?_
    · rw [memcpy_of_lt (Nat.zero_le i) (by omega), Nat.sub_zero]
    · rw [memcpy_of_lt (Nat.zero_le k) (by omega), Nat.sub_zero, hzero]
  · have hcut : Clear (some process) words directory content address (max - 1) :=
      fun i hi => hclear i (by omega)
    refine ⟨Function.update (memcpy out 0 content address (max - 1)) (max - 1) 0,
      (stringLoop_full hmem _ _ address 0 out le_rfl hcut fun _ => by omega).trans ?_, ?_⟩
    · rw [putByte, Prog.change_apply, Nat.zero_add]
    · rw [Nat.min_eq_right (by omega)]
      refine textAt_holds (fun i hi => (hcut i hi).2) (fun i hi => ?_) (Function.update_self _ _ _)
      rw [Function.update_of_ne (by omega), memcpy_of_lt (Nat.zero_le i) (by omega), Nat.sub_zero]

end User

/-- The first node that was copied holds a string. -/
theorem isr80hCopyCommandArguments_first {caller : Caller} {words : Words} {memory : Bytes}
    {allocated : Bool} {address : Nat}
    {arguments : List Bytes} (h : isr80hCopyCommandArguments caller words memory allocated address =
      .ok arguments) :
    ∃ first rest, arguments = first :: rest ∧ strnlen first argumentSize ≠ argumentSize := by
  unfold isr80hCopyCommandArguments at h
  split_ifs at h with haddress hallocated
  obtain ⟨address, rfl⟩ := Nat.exists_eq_succ_of_ne_zero haddress
  simp only [maxCommandArguments, argumentLoop] at h
  split at h
  next => cases h
  next st _ =>
    split_ifs at h with hlen
    cases hrest : argumentLoop caller words memory 31 (le32 st.buffer argumentSize) with
    | error e =>
      rw [hrest] at h
      cases h
    | ok rest =>
      rw [hrest] at h
      cases h
      exact ⟨st.buffer, rest, rfl, hlen⟩

/-- `r` is what the search for the name gives: its calls, and the answer to its result. -/
def LooksUp (dirs : List CString) (load : Loader) (path : Bytes) (name : List UInt8)
    (answer : Int → Outcome) (r : Outcome × List Bytes) : Prop :=
  ∃ buffer, HoldsString buffer name ∧
    let found := isr80hLoadProgram dirs load buffer path
    Searches load [] (searchPaths dirs name) found.2 found.1 ∧ creations load [] found.2 ≤ 1 ∧
      (∀ call ∈ found.2, ∀ i, maxPath ≤ i → call i = path i) ∧ r = (answer found.1, found.2)

theorem looksUp_of (dirs : List CString) (load : Loader) {buffer : Bytes} {name : List UInt8}
    (h : HoldsString buffer name)
    (hname : ¬ nameRefused name.length) (path : Bytes) {answer : Int → Outcome}
    {r : Outcome × List Bytes}
    (hr : r = (answer (isr80hLoadProgram dirs load buffer path).1,
      (isr80hLoadProgram dirs load buffer path).2)) :
    LooksUp dirs load path name answer r := by
  have hfit : name.length < maxPath := by
    unfold nameRefused at hname
    omega
  obtain ⟨hsearch, hpast⟩ := isr80hLoadProgram_searches dirs load h hfit path
  refine ⟨buffer, h, hsearch, ?_, hpast, hr⟩
  rw [hsearch.creations_eq]
  split <;> omega

/-- Program lookup runs the first match and never a truncated name.

Both calls refuse a name of more than 104 bytes without an attempt to load. Any other name is
looked up as a whole: the buffers handed to the loader hold the paths of `searchPaths`, in
order and up to the first result other than `-ENOENT`, which is the result of the search; it is
`-EIO` if there is none. At most one process is created. Every path has its NUL within the 108
bytes of the buffer, and nothing is written past them. -/
theorem program_lookup (dirs : List CString) (load : Loader) (caller : Caller) (words : Words)
    (memory path : Bytes) : (∀ name p, p ∈ searchPaths dirs name → p.length < 108) ∧
    (∀ process directory address k (filename : Bytes), caller.task =
      ⟨some process, some directory⟩ → taskGetStackItem caller words memory 0 = .ok address →
      let content : Bytes := fun a => memory (physicalOf words directory false a)
      EndsAt (some process) words directory content address k → address + k < 2 ^ 32 →
      let r := isr80hCommand6ProcessLoadStart caller words memory dirs load filename path
      (104 < k → r = (.returned Errno.einvarg.code, [])) ∧
      (k ≤ 104 → LooksUp dirs load path (textAt content address k)
        (fun res => if res < 0 then .returned 0 else .started) r)) ∧
    (∀ allocated st arguments,
      taskCopyUser (some caller.task) words caller.esp.toNat 4 false
        { memory, buffer := fun _ => 0 } = (.ok (), st) →
      isr80hCopyCommandArguments caller words memory allocated (le32 st.buffer 0) = .ok arguments →
      ∃ first rest name, arguments = first :: rest ∧ HoldsString first name ∧ (name ≠ [] →
        let r := isr80hCommand7InvokeSystemCommand caller words memory dirs load allocated path
        (104 < name.length → r = (.returned Errno.einvarg.code, [])) ∧
        (name.length ≤ 104 → LooksUp dirs load path name
          (fun res => if res < 0 then .returned res else .started) r))) := by
  have hpath : maxPath = 108 := rfl
  refine ⟨fun name p => searchPaths_short, ?_, ?_⟩
  · intro process directory address k filename htask hitem content hends hspace
    have hmem : Backed (some process) words directory (fun p => some (memory p)) content :=
      fun a _ => rfl
    obtain ⟨buffer, hrun, hholds⟩ := copyStringFromTask_string hmem hends hspace
      (by decide : 1 ≤ maxPath) filename
    have hlen : strnlen buffer maxPath = min k 107 := by
      rw [strnlen_holds hholds, textAt_length]
      omega
    simp only [isr80hCommand6ProcessLoadStart, hitem, htask, hrun, hlen]
    refine ⟨fun hlong => if_pos (by unfold nameRefused; omega), fun hshort => ?_⟩
    rw [Nat.min_eq_left (by omega)] at hholds
    have hok : ¬ nameRefused (textAt content address k).length := by
      rw [textAt_length]
      unfold nameRefused
      omega
    refine looksUp_of dirs load hholds hok path ?_
    rw [if_neg (by unfold nameRefused; omega)]
    by_cases hres : (isr80hLoadProgram dirs load buffer path).1 < 0
    · rw [if_pos hres, if_pos hres]
    · rw [if_neg hres, if_neg hres]
  · intro allocated st arguments hroot hcopy
    obtain ⟨first, rest, rfl, hfull⟩ := isr80hCopyCommandArguments_first hcopy
    obtain ⟨name, hholds, hlen, -⟩ := holds_of_strnlen hfull
    refine ⟨first, rest, name, rfl, hholds, fun hname => ?_⟩
    have hfirst : first 0 ≠ 0 := hholds.nonzero (List.length_pos_iff.mpr hname)
    simp only [isr80hCommand7InvokeSystemCommand, hroot, hcopy, hfirst, false_or, ← hlen]
    refine ⟨fun hlong => if_pos (by unfold nameRefused; omega), fun hshort => ?_⟩
    have hok : ¬ nameRefused name.length := by
      unfold nameRefused
      omega
    refine looksUp_of dirs load hholds hok path ?_
    rw [if_neg hok]
    by_cases hres : (isr80hLoadProgram dirs load first path).1 < 0
    · rw [if_pos hres, if_pos hres]
    · rw [if_neg hres, if_neg hres]

/-! A program with "ls" on its stack; the drive has no such file. -/

def lsProcess : Process := { hiProcess with size := 16 }

def lsCaller : Caller := ⟨0, ⟨some lsProcess, some 4096⟩, 0x400000⟩

def lsMemory : Bytes :=
  fun p => ([(12288, 4), (12290, 64), (12292, 108), (12293, 115)].lookup p).getD 0

def lsLoad : Loader := fun calls _ => if calls = [] then Errno.enoent.code else 0

theorem program_lookup_ls : ∃ path : Bytes, LooksUp [drive] lsLoad path [108, 115]
    (fun res => if res < 0 then .returned 0 else .started)
    (isr80hCommand6ProcessLoadStart lsCaller hiWords lsMemory [drive] lsLoad (fun _ => 1)
      path) := by
  have h := (program_lookup [drive] lsLoad lsCaller hiWords lsMemory fun _ => 1).2.1 lsProcess 4096
    0x400004 2
    (fun _ => 1) rfl (by decide +kernel) ⟨?_, by decide +kernel, by decide +kernel⟩ (by decide)
  · exact ⟨_, h.2 (by decide)⟩
  · intro i hi
    have hspan : processUserSpan (some lsProcess) (0x400004 + i) false = .ok (12 - i) := by
      interval_cases i <;> decide +kernel
    exact ⟨⟨_, hspan⟩, by interval_cases i <;> exact ⟨_, rfl⟩⟩

end Rorthox.Tasks
