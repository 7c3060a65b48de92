import Rorthox.Disk.AtaSpec
import Rorthox.Lib.Loop

/-!
# What IDENTIFY tells

The answer of `ata_identify` in terms of what was read at the ports. The 256 words of the drive say
whether it can be written and how far; everything else is the error of the step that failed.
-/

namespace Rorthox.Ata

open Lib Lib.Prog
open Disk (sectorSize)

/-! ## The words -/

/-- Bit `k` of word `i`. -/
def wordBit (words : List UInt16) (i k : Nat) : Bool := (words.getD i 0).toNat.testBit k

/-- The number in words `i` and `i + 1`, the low one first. -/
def wordPair (words : List UInt16) (i : Nat) : Nat :=
  (words.getD i 0).toNat + 2 ^ 16 * (words.getD (i + 1) 0).toNat

/-- An ATA disk with LBA, FLUSH CACHE and sectors of 512 bytes. -/
structure WritableDrive (words : List UInt16) : Prop where
  /-- Word 0: not ATAPI, and the rest is complete. -/
  ata : wordBit words 0 15 = false ∧ wordBit words 0 2 = false
  lba : wordBit words 49 9 = true
  sectors : 0 < wordPair words 60
  /-- Word 83 is valid and shows FLUSH CACHE. -/
  flush : (wordBit words 83 15 = false ∧ wordBit words 83 14 = true) ∧ wordBit words 83 12 = true
  /-- Words 117 and 118 count, if word 106 is valid and says so. -/
  size : wordBit words 106 15 = false ∧ wordBit words 106 14 = true → wordBit words 106 12 = true →
    wordPair words 117 = 256

theorem and_eq_iff (x m c : UInt16) : x &&& m = c ↔ x.toNat &&& m.toNat = c.toNat := by
  rw [← UInt16.toNat_inj, UInt16.toNat_and]

/-- A mask of one bit. -/
theorem and_bit (x m : UInt16) {k : Nat} (hm : m.toNat = 2 ^ k) :
    x &&& m = 0 ↔ x.toNat.testBit k = false := by
  rw [and_eq_iff, hm, Nat.and_two_pow]
  cases x.toNat.testBit k
  · exact iff_of_true (Nat.zero_mul _) rfl
  · refine iff_of_false ?_ (by decide)
    have hpos := Nat.two_pow_pos k
    change 1 * 2 ^ k ≠ 0
    omega

/-- Bits 15 and 14 are 01. -/
theorem valid_word (x : UInt16) :
    x &&& 0xC000 = 0x4000 ↔ x.toNat.testBit 15 = false ∧ x.toNat.testBit 14 = true := by
  have hmask : (0xC000 : UInt16).toNat = 2 ^ 15 ||| 2 ^ 14 := rfl
  rw [and_eq_iff, hmask, Nat.and_or_distrib_left, Nat.and_two_pow, Nat.and_two_pow]
  cases x.toNat.testBit 15 <;> cases x.toNat.testBit 14 <;> decide

theorem general_word (x : UInt16) :
    x &&& 0x8004 = 0 ↔ x.toNat.testBit 15 = false ∧ x.toNat.testBit 2 = false := by
  have hmask : (0x8004 : UInt16).toNat = 2 ^ 15 ||| 2 ^ 2 := rfl
  rw [and_eq_iff, hmask, Nat.and_or_distrib_left, Nat.and_two_pow, Nat.and_two_pow]
  cases x.toNat.testBit 15 <;> cases x.toNat.testBit 2 <;> decide

theorem pair_toNat (low high : UInt16) :
    (low.toUInt32 ||| (high.toUInt32 <<< 16)).toNat = low.toNat + 2 ^ 16 * high.toNat := by
  have hlow := low.toNat_lt
  have hhigh := high.toNat_lt
  have hshift : high.toNat <<< 16 < 2 ^ 32 := by
    rw [Nat.shiftLeft_eq]
    omega
  rw [UInt32.toNat_or, UInt32.toNat_shiftLeft, UInt16.toNat_toUInt32, UInt16.toNat_toUInt32]
  change low.toNat ||| high.toNat <<< 16 % 2 ^ 32 = _
  rw [Nat.mod_eq_of_lt hshift, Nat.or_comm, ← Nat.shiftLeft_add_eq_or_of_lt hlow, Nat.shiftLeft_eq]
  omega

theorem pair_eq (low high : UInt16) (c : UInt32) :
    low.toUInt32 ||| (high.toUInt32 <<< 16) = c ↔ low.toNat + 2 ^ 16 * high.toNat = c.toNat := by
  rw [← UInt32.toNat_inj, pair_toNat]

theorem capped_toNat (x : UInt32) :
    (if x > ataLba28Sectors then ataLba28Sectors else x).toNat =
      min x.toNat ataLba28Sectors.toNat := by
  split
  · rename_i h
    exact (min_eq_right (UInt32.lt_iff_toNat_lt.mp h).le).symm
  · rename_i h
    exact (min_eq_left (UInt32.le_iff_toNat_le.mp (UInt32.not_lt.mp h))).symm

variable {words : List UInt16} {e : Errno} {mid new : List Access}

/-- The verdict on the words: the drive is writable up to the number in words 60 and 61, capped. -/
theorem identifySectors_ok {n : UInt32} : identifySectors words = .ok n ↔
      WritableDrive words ∧ n.toNat = min (wordPair words 60) ataLba28Sectors.toNat := by
  unfold identifySectors
  simp only [except_guard_ok, not_or, not_and, not_not, ne_eq, Except.ok.injEq]
  rw [general_word, and_bit _ 0x0200 (k := 9) rfl, valid_word, and_bit _ 0x1000 (k := 12) rfl,
    valid_word,
    and_bit _ 0x1000 (k := 12) rfl, pair_eq, pair_eq, ← UInt32.toNat_inj, capped_toNat, pair_toNat]
  simp only [Bool.not_eq_false]
  constructor
  · rintro ⟨⟨hata, hlba⟩, hsome, ⟨hvalid, hflush⟩, hsize, hn⟩
    exact ⟨⟨hata, hlba, Nat.pos_of_ne_zero hsome, ⟨hvalid, hflush⟩, hsize⟩, hn.symm⟩
  · rintro ⟨h, hn⟩
    exact ⟨⟨h.ata, h.lba⟩, Nat.ne_of_gt h.sectors, h.flush, h.size, hn.symm⟩

/-- Any other drive is taken for one that can only be read. -/
theorem identifySectors_error :
    identifySectors words = .error e ↔ ¬ WritableDrive words ∧ e = .erdonly := by
  have hcode : ∀ {e}, identifySectors words = .error e → e = .erdonly := by
    intro e h
    unfold identifySectors at h
    dsimp only at h
    split_ifs at h <;> exact (Except.error.inj h).symm
  cases hres : identifySectors words with
  | ok n =>
    refine iff_of_false (fun h => (by cases h)) fun h => h.1 ?_
    exact (identifySectors_ok.mp hres).1
  | error e' =>
    obtain rfl := hcode hres
    constructor
    · intro h
      obtain rfl := Except.error.inj h
      refine ⟨fun hw => ?_, rfl⟩
      have hlt : min (wordPair words 60) ataLba28Sectors.toNat < UInt32.size :=
        (min_le_right _ _).trans_lt (UInt32.toNat_lt _)
      have hok := identifySectors_ok.mpr ⟨hw, UInt32.toNat_ofNat_of_lt hlt⟩
      rw [hres] at hok
      cases hok
    · rintro ⟨-, rfl⟩
      rfl

/-! ## The accesses -/

/-- The drive aborted the command. -/
def Aborted (reads : List Access) : Prop :=
  ∃ error status, reads = [.read .error error, .read .altStatus status] ∧
    status.toUInt8 &&& (srBsy ||| srDf ||| srErr) = srErr ∧ error.toUInt8 &&& erAbrt ≠ 0

/-- Why an IDENTIFY brought no answer, from its accesses, newest first. -/
inductive Broken (log : List Access) : Errno → Prop where
  /-- There is no drive: the status read before the command is 00 or FF. -/
  | absent {status : UInt16} {rest : List Access} (hlog : log = .read .command status :: rest)
      (hwords : dataWords log = []) (h : status.toUInt8 = 0x00 ∨ status.toUInt8 = 0xFF) :
        Broken log .erdonly
  /-- A wait gave up, and the drive turned out not to know the command. -/
  | aborted {reads rest : List Access} (hlog : log = reads ++ .gaveUp :: rest) (h : Aborted reads) :
      Broken log .erdonly
  | stuck {reads rest : List Access} (hlog : log = reads ++ .gaveUp :: rest)
      (hreads : ∀ x ∈ reads, ∃ port value, x = .read port value) (h : ¬ Aborted reads) :
        Broken log .eio

/-- The command was sent and all words were read. -/
structure Answered (log : List Access) : Prop where
  writes : writesOf log = identifyScript
  waits : .gaveUp ∉ log
  words : (dataWords log).length = 256

/-- The answer of one `ata_identify` with these accesses. -/
inductive Identified (log : List Access) : Except Errno UInt32 → Prop where
  | writable {n : UInt32} (hall : Answered log) (h : WritableDrive (dataWords log))
      (hn : n.toNat = min (wordPair (dataWords log) 60) ataLba28Sectors.toNat) :
        Identified log (.ok n)
  | readOnly (hall : Answered log) (h : ¬ WritableDrive (dataWords log)) :
    Identified log (.error .erdonly)
  | broken {e : Errno} (h : Broken log e) : Identified log (.error e)

theorem Identified.answer {log : List Access} (hall : Answered log) :
    Identified log (identifySectors (dataWords log)) := by
  cases hres : identifySectors (dataWords log) with
  | ok n =>
    obtain ⟨h, hn⟩ := identifySectors_ok.mp hres
    exact .writable hall h hn
  | error e =>
    obtain ⟨h, rfl⟩ := identifySectors_error.mp hres
    exact .readOnly hall h

theorem Broken.append (h : Broken new e) (hmid : dataWords mid = []) : Broken (new ++ mid) e := by
  cases h with
  | absent hlog hwords h =>
    refine .absent (by rw [hlog]; rfl) ?_ h
    rw [dataWords_append, hwords, hmid]
    rfl
  | aborted hlog h => exact .aborted (by rw [hlog, List.append_assoc]; rfl) h
  | stuck hlog hreads h => exact .stuck (by rw [hlog, List.append_assoc]; rfl) hreads h

/-- A wait that gave up, with nothing read behind it. -/
theorem broken_waiting (rest : List Access) : Broken (.gaveUp :: rest) .eio := by
  have hlog : Access.gaveUp :: rest = [] ++ .gaveUp :: rest := rfl
  refine .stuck hlog (fun x hx => (by cases hx)) ?_
  rintro ⟨_, _, h, -⟩
  cases h

/-- The program reads no data, and its accesses show why it failed. -/
def Dry {α : Type} (m : AtaProg α) : Prop :=
  ∀ a, Ends m a fun r a' => ∃ new, a'.log = new ++ a.log ∧ dataWords new = [] ∧ ∀ e, r = .error e →
    Broken new e

section

variable {α β : Type} {m : AtaProg α}

theorem Dry.bind {f : α → AtaProg β} (hm : Dry m) (hf : ∀ v, Dry (f v)) : Dry (m >>= f) := by
  intro a
  refine (hm a).bind ?_ ?_
  · rintro v a1 ⟨mid, hlog1, hmid, -⟩
    refine (hf v a1).mono ?_
    rintro r a2 ⟨new, hlog2, hnew, hwhy⟩
    refine ⟨new ++ mid, by rw [hlog2, hlog1, List.append_assoc], ?_, fun e he =>
      (hwhy e he).append hmid⟩
    rw [dataWords_append, hmid, hnew]
    rfl
  · rintro e a1 ⟨new, hlog, hnew, hwhy⟩
    exact ⟨new, hlog, hnew, fun e' he => (by cases he; exact hwhy e rfl)⟩

end

theorem dry_outb (port : Port) (value : UInt8) : Dry (outb port value) := fun _ =>
  ⟨[.write port value.toUInt16], rfl, rfl, fun _ he => (by cases he)⟩

/-- Four reads, and no way to fail. -/
theorem pause_runs (a : Bus) : ∃ new, ataPause a = (.ok (), { a with log := new ++ a.log }) ∧
    dataWords new = [] :=
  ⟨[_, _, _, _], rfl, rfl⟩

theorem dry_pause : Dry ataPause := by
  intro a
  obtain ⟨new, hrun, hnew⟩ := pause_runs a
  unfold Ends
  rw [hrun]
  exact ⟨new, rfl, hnew, fun _ he => (by cases he)⟩

theorem insb_bind {α : Type} (port : Port) (f : UInt8 → AtaProg α) (a : Bus) :
    (insb port >>= f) a = f (a.reply a.log.length).toUInt8
      (a.note (.read port (a.reply a.log.length).toUInt8.toUInt16)) := rfl

/-- How a wait ends: well, or giving up as the last thing it does. -/
def Waited (a : Bus) (r : Except Errno Unit) (a' : Bus) : Prop :=
  ∃ new, a'.log = new ++ a.log ∧ dataWords new = [] ∧
    (r = .ok () ∨ r = .error .eio ∧ ∃ rest, new = .gaveUp :: rest)

theorem poll_waited (signal : UInt8 → Signal) (limit : Nat) :
    ∀ a, Ends (poll signal limit) a (Waited a) := by
  have hgive : ∀ a, Ends (do Prog.change (Bus.note · .gaveUp); Prog.raise .eio : AtaProg Unit)
    a (Waited a) :=
    fun a => ⟨[.gaveUp], rfl, rfl, Or.inr ⟨rfl, [], rfl⟩⟩
  induction limit with
  | zero => exact hgive
  | succ limit ih =>
    intro a
    unfold Ends
    rw [poll, insb_bind]
    generalize hb : a.note (.read .command (a.reply a.log.length).toUInt8.toUInt16) = b
    have hlater : ∀ {r a'}, Waited b r a' → Waited a r a' := by
      rintro r a' ⟨new, hlog, hnew, hend⟩
      refine ⟨new ++ [.read .command (a.reply a.log.length).toUInt8.toUInt16], ?_, ?_,
        hend.imp_right ?_⟩
      · rw [hlog, ← hb, List.append_assoc]
        rfl
      · rw [dataWords_append, hnew]
        rfl
      · rintro ⟨he, rest, rfl⟩
        exact ⟨he, _, rfl⟩
    cases signal (a.reply a.log.length).toUInt8 with
    | good => exact hlater ⟨[], rfl, rfl, Or.inl rfl⟩
    | bad => exact hlater (hgive b)
    | again => exact hlater (ih b)

theorem dry_poll (signal : UInt8 → Signal) (limit : Nat) : Dry (poll signal limit) := by
  intro a
  refine (poll_waited signal limit a).mono ?_
  rintro r a' ⟨new, hlog, hnew, hend⟩
  refine ⟨new, hlog, hnew, fun e he => ?_⟩
  rcases hend with hok | ⟨herr, rest, rfl⟩
  · rw [hok] at he
    cases he
  · rw [herr] at he
    obtain rfl := Except.error.inj he
    exact broken_waiting _

/-- The look at the status before the command. -/
theorem dry_present {f : AtaProg Unit} (hf : Dry f) : Dry (do
    let status ← insb .command
    Prog.refuse (status = 0x00 ∨ status = 0xFF) .erdonly
    f) := by
  intro a
  unfold Ends
  rw [insb_bind]
  generalize hv : (a.reply a.log.length).toUInt8 = v
  by_cases hbad : v = 0x00 ∨ v = 0xFF
  · rw [Prog.refuse_of hbad]
    refine ⟨[.read .command v.toUInt16], rfl, rfl, fun e he => ?_⟩
    obtain rfl := Except.error.inj he
    exact .absent rfl rfl (by rwa [UInt8.toUInt8_toUInt16])
  · rw [Prog.refuse_of_not hbad, pure_bind]
    obtain ⟨new, hlog, hnew, hwhy⟩ := Prog.ends_iff.mp (hf (a.note (.read .command v.toUInt16)))
    refine ⟨new ++ [.read .command v.toUInt16], by rw [hlog, List.append_assoc]; rfl, ?_,
      fun e he => (hwhy e he).append rfl⟩
    rw [dataWords_append, hnew]
    rfl

theorem dry_identifyCommand : Dry identifyCommand :=
  (dry_poll _ _).bind fun _ => (dry_outb _ _).bind fun _ => dry_pause.bind fun _ =>
    dry_present ((dry_poll _ _).bind fun _ => (dry_outb _ _).bind fun _ => dry_pause)

/-- The words that are read are the words that are returned. -/
theorem readWords_data (n : Nat) : ∀ a, Ends (readWords n) a fun r a' =>
    ∃ new, a'.log = new ++ a.log ∧ r = .ok (dataWords new) := by
  induction n with
  | zero => exact fun a => ⟨[], rfl, rfl⟩
  | succ n ih =>
    intro a
    have hword : Ends (insw .data) a fun r a' => ∃ v, r = .ok v ∧ a'.log = .read .data v :: a.log :=
      ⟨_, rfl, rfl⟩
    refine hword.bind ?_ fun e a1 h => (by obtain ⟨v, h, -⟩ := h; cases h)
    rintro word a1 ⟨v, hv, hlog1⟩
    obtain rfl := Except.ok.inj hv
    refine (ih a1).bind ?_ fun e a2 h => (by obtain ⟨new, -, h⟩ := h; cases h)
    rintro words a2 ⟨new, hlog2, hwords⟩
    obtain rfl := Except.ok.inj hwords
    refine ⟨new ++ [.read .data word], ?_, ?_⟩
    · change a2.log = _
      rw [hlog2, hlog1, List.append_assoc]
      rfl
    · rw [dataWords_append]
      rfl

theorem identifyWords_told (b : Bus) : Ends identifyWords b fun r b' => ∃ new,
    b'.log = new ++ b.log ∧
    (∀ e, r = .error e → Broken new e) ∧ ∀ words, r = .ok words → words = dataWords new := by
  refine (readWords_data _ b).bind ?_ fun e b1 h => (by obtain ⟨new, -, h⟩ := h; cases h)
  rintro words b1 ⟨data, hlog1, hwords⟩
  obtain rfl := Except.ok.inj hwords
  obtain ⟨pause, hrun, hpause⟩ := pause_runs b1
  refine .step hrun ((poll_waited endSignal ataPollLimit _).bind ?_ ?_)
  · rintro ⟨⟩ b2 ⟨wait, hlog2, hwait, -⟩
    refine ⟨wait ++ (pause ++ data), ?_, fun e he => (by cases he), fun words hw => ?_⟩
    · change b2.log = _
      rw [hlog2, hlog1, List.append_assoc, List.append_assoc]
    · obtain rfl := Except.ok.inj hw
      rw [dataWords_append, dataWords_append, hwait, hpause, List.append_nil, List.append_nil]
  · rintro e b2 ⟨wait, hlog2, -, hok | ⟨he, rest, rfl⟩⟩
    · cases hok
    · refine ⟨.gaveUp :: rest ++ (pause ++ data), ?_, fun e' he' => ?_, fun words hw =>
        (by cases hw)⟩
      · rw [hlog2, hlog1, List.append_assoc, List.append_assoc]
      · obtain rfl := Except.error.inj he
        obtain rfl := Except.error.inj he'
        exact broken_waiting _

/-- What is looked up when the data did not come. -/
theorem identifyRefused_told (e : Errno) (a : Bus) : ∃ reads, (identifyRefused e a).2.log =
    reads ++ a.log ∧ (∀ x ∈ reads, ∃ port value, x = .read port value) ∧
    ((Aborted reads ∧ (identifyRefused e a).1 = .error .erdonly) ∨
      (¬ Aborted reads ∧ (identifyRefused e a).1 = .error e)) := by
  unfold identifyRefused
  rw [insb_bind]
  generalize (a.reply a.log.length).toUInt8 = status
  by_cases herr : status &&& (srBsy ||| srDf ||| srErr) = srErr
  · rw [if_pos herr, insb_bind]
    generalize hb : a.note (.read .altStatus status.toUInt16) = b
    generalize (b.reply b.log.length).toUInt8 = error
    have hlog : b.log = .read .altStatus status.toUInt16 :: a.log := by rw [← hb]; rfl
    refine ⟨[.read .error error.toUInt16, .read .altStatus status.toUInt16], ?_, ?_, ?_⟩
    · split
      · exact congrArg _ hlog
      · exact congrArg _ hlog
    · intro x hx
      rcases List.mem_cons.mp hx with rfl | hx
      · exact ⟨_, _, rfl⟩
      · exact ⟨_, _, List.mem_singleton.mp hx⟩
    · by_cases habrt : error &&& erAbrt ≠ 0
      · rw [if_pos habrt]
        exact Or.inl ⟨⟨_, _, rfl, by rwa [UInt8.toUInt8_toUInt16], by rwa [UInt8.toUInt8_toUInt16]⟩,
          rfl⟩
      · rw [if_neg habrt]
        refine Or.inr ⟨?_, rfl⟩
        rintro ⟨error', status', hreads, -, hne⟩
        cases hreads
        rw [UInt8.toUInt8_toUInt16] at hne
        exact habrt hne
  · rw [if_neg herr]
    refine ⟨[.read .altStatus status.toUInt16], rfl, fun x hx => ⟨_, _, List.mem_singleton.mp hx⟩,
      Or.inr ⟨?_, rfl⟩⟩
    rintro ⟨_, _, hreads, -⟩
    cases hreads

/-- The accesses of a program that follows a script are no others. -/
theorem Follows.writes {α : Type} {C : Errno → Prop} {P Q : List Access → Prop} {m : AtaProg α}
    {script : List (Port × UInt16)} {words : Nat} (h : Follows C P m script words Q) {a : Bus}
    (ha : P a.log) (hnew : (m a).2.log = new ++ a.log) : writesOf new <+: script ∧
      ∀ v, (m a).1 = .ok v → writesOf new = script ∧ wordsIn new = words ∧ .gaveUp ∉ new := by
  obtain ⟨-, -, all, hall, -, hcase⟩ := Prog.ends_iff.mp (h a ha)
  rw [hnew] at hall
  obtain rfl := List.append_cancel_right hall
  cases hres : (m a).1 with
  | ok v =>
    rw [hres] at hcase
    exact ⟨hcase.1 ▸ List.prefix_refl _, fun _ _ => ⟨hcase.1, hcase.2.1, hcase.2.2.1⟩⟩
  | error e =>
    rw [hres] at hcase
    exact ⟨hcase.1, fun v hv => (by cases hv)⟩

/-- What follows the command, behind the accesses `mid` of the command itself. -/
theorem identifyAnswer_told (hwrites : writesOf mid = identifyScript) (hwords : dataWords mid = [])
    (hno : .gaveUp ∉ mid) (b : Bus) :
    Ends (Prog.attempt ataWaitData >>= identifyAnswer) b fun r b' =>
      ∃ new, b'.log = new ++ b.log ∧ Identified (new ++ mid) r := by
  obtain ⟨wait, hlog1, hwait, hend⟩ := Prog.ends_iff.mp (poll_waited dataSignal ataPollLimit b)
  have hcalm := (follows_poll (P := fun _ => True) onlyIO dataSignal ataPollLimit).writes
    trivial hlog1
  unfold Ends
  rw [Prog.bind_ok (Prog.attempt_apply ataWaitData b)]
  change ∃ new, (identifyAnswer (poll dataSignal ataPollLimit b).1
    (poll dataSignal ataPollLimit b).2).2.log = new ++ b.log ∧ Identified (new ++ mid)
      (identifyAnswer (poll dataSignal ataPollLimit b).1 (poll dataSignal ataPollLimit b).2).1
  generalize poll dataSignal ataPollLimit b = p at *
  obtain ⟨r1, b1⟩ := p
  dsimp only at *
  rcases hend with rfl | ⟨rfl, rest, rfl⟩
  · obtain ⟨hw1, -, hno1⟩ := hcalm.2 () rfl
    obtain ⟨new, hlog2, hwhy, hdata⟩ := Prog.ends_iff.mp (identifyWords_told b1)
    have hcollect := (follows_identifyWords).writes trivial hlog2
    rw [identifyAnswer, Prog.bind_apply]
    generalize identifyWords b1 = q at *
    obtain ⟨r2, b2⟩ := q
    dsimp only at *
    have hlog : b2.log = new ++ wait ++ b.log := by rw [hlog2, hlog1, List.append_assoc]
    cases r2 with
    | error e => exact ⟨new ++ wait, hlog, .broken (((hwhy e rfl).append hwait).append hwords)⟩
    | ok words =>
      obtain rfl := hdata words rfl
      obtain ⟨hw2, hn2, hno2⟩ := hcollect.2 _ rfl
      refine ⟨new ++ wait, hlog, ?_⟩
      have hall : dataWords (new ++ wait ++ mid) = dataWords new := by
        rw [dataWords_append, dataWords_append, hwords, hwait]
        rfl
      rw [← hall]
      refine .answer ⟨?_, ?_, ?_⟩
      · rw [writesOf_append, writesOf_append, hwrites, hw1, hw2]
        rfl
      · simp only [List.mem_append, not_or]
        exact ⟨⟨hno2, hno1⟩, hno⟩
      · rw [hall]
        exact hn2
  · obtain ⟨reads, hlog2, hreads, hwhy⟩ := identifyRefused_told .eio b1
    refine ⟨reads ++ .gaveUp :: rest, ?_, ?_⟩
    · change (identifyRefused .eio b1).2.log = _
      rw [hlog2, hlog1, List.append_assoc]
    · have hlog : reads ++ .gaveUp :: rest ++ mid = reads ++ .gaveUp :: (rest ++ mid) := by
        rw [List.append_assoc]
        rfl
      rw [hlog]
      change Identified _ (identifyRefused .eio b1).1
      rcases hwhy with ⟨hab, hr⟩ | ⟨hab, hr⟩
      · rw [hr]
        exact .broken (.aborted rfl hab)
      · rw [hr]
        exact .broken (.stuck rfl hreads hab)

/-- What `ata_identify` answers, from what it read. -/
theorem identify_told (a : Bus) : ∃ new, (ataIdentify a).2.log = new ++ a.log ∧
    writesOf new <+: identifyScript ∧ Identified new (ataIdentify a).1 := by
  have htold : ∃ new, (ataIdentify a).2.log = new ++ a.log ∧ Identified new (ataIdentify a).1 := by
    obtain ⟨mid, hlog1, hwords, hwhy⟩ := Prog.ends_iff.mp (dry_identifyCommand a)
    have hcommand := follows_identifyCommand.writes (a := a) trivial hlog1
    rw [ataIdentify_eq, Prog.bind_apply]
    generalize identifyCommand a = p at *
    obtain ⟨r, a1⟩ := p
    cases r with
    | error e => exact ⟨mid, hlog1, .broken (hwhy e rfl)⟩
    | ok u =>
      obtain ⟨hwrites, -, hno⟩ := hcommand.2 u rfl
      obtain ⟨new, hlog2, hid⟩ := Prog.ends_iff.mp (identifyAnswer_told hwrites hwords hno a1)
      refine ⟨new ++ mid, ?_, hid⟩
      rw [List.append_assoc, ← hlog1]
      exact hlog2
  obtain ⟨new, hnew, hid⟩ := htold
  exact ⟨new, hnew, (follows_identify.writes trivial hnew).1, hid⟩

end Rorthox.Ata
