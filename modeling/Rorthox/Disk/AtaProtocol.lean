import Rorthox.Disk.AtaIdentify

/-!
# Requests

What every request does at the ports, from boot on and against any drive.
-/

namespace Rorthox.Ata

open Lib Lib.Prog
open Disk (sectorSize)

/-! ## What a request asks for -/

def Request.own : Request → Bool
  | .read own _ _ _ => own
  | .write own _ _ _ => own
  | .flush own => own
  | .capacity own _ => own

/-- A null pointer, a count outside 1..256 or a last sector past 28 bits. -/
def Request.Malformed : Request → Prop
  | .read _ lba total buf => buf = false ∨ BadRange lba total
  | .write _ lba total buf => buf = none ∨ BadRange lba total
  | .flush _ => False
  | .capacity _ sectors => sectors = false

instance : ∀ r : Request, Decidable r.Malformed
  | .read _ lba total buf => inferInstanceAs (Decidable (buf = false ∨ BadRange lba total))
  | .write _ lba total none => isTrue (.inl rfl)
  | .write _ lba total (some buf) => decidable_of_iff (BadRange lba total)
      ⟨.inr, fun h => h.resolve_left (by simp)⟩
  | .flush _ => inferInstanceAs (Decidable False)
  | .capacity _ sectors => inferInstanceAs (Decidable (sectors = false))

/-- The request needs what IDENTIFY tells. -/
def Request.Checks : Request → Prop
  | .read _ _ _ _ => False
  | r => r.own = true ∧ ¬ r.Malformed

instance : ∀ r : Request, Decidable r.Checks
  | .read _ _ _ _ => inferInstanceAs (Decidable False)
  | .write own lba total buf =>
      inferInstanceAs (Decidable (own = true ∧ ¬ (Request.write own lba total buf).Malformed))
  | .flush own => inferInstanceAs (Decidable (own = true ∧ ¬ False))
  | .capacity own sectors => inferInstanceAs (Decidable (own = true ∧ ¬ sectors = false))

/-- A write that reaches past `sectors`. -/
def Request.Past (sectors : UInt32) : Request → Prop
  | .write _ lba total _ => sectors.toNat < lba.toNat + total.toNat
  | _ => False

/-- The writes of the request's own command. -/
def Request.script : Request → List (Port × UInt16)
  | .read _ lba total _ => readScript lba total.toNat
  | .write _ lba total (some buf) => writeScript lba total.toNat buf
  | .write _ _ _ none => []
  | .flush _ => flushScript
  | .capacity _ _ => []

/-- The data words of a read. -/
def Request.words : Request → Nat
  | .read _ _ total _ => sectorSize / 2 * total.toNat
  | _ => 0

/-- IDENTIFY comes first unless its answer is known. -/
def opening (a : Bus) : List (Port × UInt16) := if a.verdict = none then identifyScript else []

/-- All writes of the request when it succeeds. -/
def Request.sequence (r : Request) (a : Bus) : List (Port × UInt16) :=
  (if r.Checks then opening a else []) ++ r.script

/-- What one request may do, from the bus `a` to the result `res` and the bus `a'`. -/
structure Conforms (r : Request) (a : Bus) (res : Except Errno Unit) (a' : Bus) : Prop where
  reply : a'.reply = a.reply
  foreign : r.own = false → res = .error .eio ∧ a' = a
  refused : r.own = true → r.Malformed → res = .error .einvarg ∧ a' = a
  past : ∀ sectors, a'.verdict = some (.ok sectors) → r.Checks → r.Past sectors →
    res = .error .einvarg ∧ ∃ new, a'.log = new ++ a.log ∧ writesOf new = opening a
  follows : ∃ new, a'.log = new ++ a.log ∧ Proper a.log new ∧ writesOf new <+: r.sequence a ∧
    (res = .ok () → writesOf new = r.sequence a ∧ .gaveUp ∉ new ∧
      (r.script ≠ [] → Shown endSignal a'.log) ∧ (¬ r.Checks → wordsIn new = r.words))
  kept : ∀ verdict, a.verdict = some verdict → a'.verdict = some verdict
  asked : r.Checks → a'.verdict ≠ none
  unasked : ¬ r.Checks → a'.verdict = a.verdict
  denied : ∀ e, a.verdict = some (.error e) → r.Checks → res = .error e ∧ a' = a
  unwritable : ∀ e, a'.verdict = some (.error e) → r.Checks → res = .error e
  /-- What no check refuses fails with -EIO only. -/
  failed : r.own = true → ¬ r.Malformed →
    (r.Checks → ∃ n, a'.verdict = some (.ok n) ∧ ¬ r.Past n) → ∀ e, res = .error e → e = .eio
  /-- An answer that was not there before is that of the IDENTIFY sent first, and only the command
  of the request comes after that. -/
  fresh : a.verdict = none → ∀ verdict, a'.verdict = some verdict → ∃ mid later,
    a'.log = later ++ (mid ++ a.log) ∧ writesOf later <+: r.script ∧ Identified mid verdict

/-! ## IDENTIFY first -/

variable {α : Type} {a : Bus} {e : Errno} {r : Request}

/-- How `disk_check_writable` ends: with the answer it keeps, which is the one kept before or that
of an IDENTIFY. -/
structure CheckedTo (a : Bus) (v : Except Errno UInt32) (a' : Bus) : Prop where
  reply : a'.reply = a.reply
  verdict : a'.verdict = some v
  kept : ∀ w, a.verdict = some w → v = w ∧ a' = a
  log : ∃ new, a'.log = new ++ a.log ∧ Proper a.log new ∧ (a.verdict = none → Identified new v) ∧
    writesOf new <+: opening a ∧ ∀ n, v = .ok n → writesOf new = opening a ∧ .gaveUp ∉ new

theorem check_spec (a : Bus) : Ends diskCheckWritable a (CheckedTo a) := by
  unfold Ends diskCheckWritable
  cases hv : a.verdict with
  | some v =>
    have hopen : opening a = [] := by
      unfold opening
      rw [hv]
      rfl
    refine ⟨rfl, hv, fun w hw => ⟨Option.some.inj (hv.symm.trans hw), rfl⟩, [], rfl, trivial,
      fun h => (by rw [hv] at h; cases h), List.nil_prefix, fun _ _ =>
        ⟨hopen.symm, List.not_mem_nil⟩⟩
  | none =>
    have hopen : opening a = identifyScript := by
      unfold opening
      rw [hv]
      rfl
    obtain ⟨hr, -, new, hlog, hp, -⟩ := follows_identify a trivial
    obtain ⟨hpre, hall⟩ := follows_identify.writes (a := a) trivial hlog
    obtain ⟨new', hlog', -, htold⟩ := identify_told a
    rw [hlog] at hlog'
    obtain rfl := List.append_cancel_right hlog'
    refine ⟨hr, rfl, fun w hw => (by rw [hv] at hw; cases hw), new, hlog, hp, fun _ =>
      htold, ?_, ?_⟩
    · rw [hopen]
      exact hpre
    · intro n hn
      obtain ⟨hw, -, hno⟩ := hall n hn
      exact ⟨hw.trans hopen.symm, hno⟩

variable {Q : List Access → Prop} {lba n : UInt32} {c : Prop} {total : Int} {a' : Bus}
  {res : Except Errno Unit}

/-- A command behind the check: its script behind the opening, and the answer kept. -/
theorem check_then {f : UInt32 → AtaProg α} {script : List (Port × UInt16)}
    (hf : ∀ n, Follows AnyCode (fun _ => True) (f n) script 0 Q) (a : Bus) :
    Ends (diskCheckWritable >>= f) a fun r a' => a'.reply = a.reply ∧
      (∃ v, a'.verdict = some v ∧ (∀ w, a.verdict = some w → v = w) ∧
        (∀ e, v = .error e → r = .error e) ∧ (a.verdict = none →
        ∃ mid later, a'.log = later ++ (mid ++ a.log) ∧ writesOf later <+: script ∧
          Identified mid v)) ∧
      ∃ new, a'.log = new ++ a.log ∧ Proper a.log new ∧
        match r with
        | .ok _ => writesOf new = opening a ++ script ∧ .gaveUp ∉ new ∧ Q a'.log
        | .error _ => writesOf new <+: opening a ++ script := by
  refine (check_spec a).bind ?_ ?_
  · rintro n b ⟨hr1, hv1, hkept, mid, hlog1, hp1, htold, -, hok⟩
    obtain ⟨hw1, hno1⟩ := hok n rfl
    obtain ⟨hr2, hv2, new, hlog2, hp2, hcase⟩ := hf n b trivial
    have hpre := ((hf n).writes (a := b) trivial hlog2).1
    rw [hlog1] at hlog2 hp2
    refine ⟨hr2.trans hr1, ⟨_, hv2.trans hv1, fun w hw => (hkept w hw).1, fun e he => (by cases he),
      fun hnone => ⟨mid, new, hlog2, hpre, htold hnone⟩⟩, new ++ mid, ?_, hp1.append hno1 hp2, ?_⟩
    · rw [hlog2, List.append_assoc]
    · rw [writesOf_append, hw1]
      cases hres : (f n b).1 with
      | ok u =>
        rw [hres] at hcase
        obtain ⟨hw2, -, hno2, hq⟩ := hcase
        refine ⟨by rw [hw2], ?_, hq⟩
        rw [List.mem_append]
        exact fun hm => hm.elim hno2 hno1
      | error e =>
        rw [hres] at hcase
        exact (List.prefix_append_right_inj _).mpr hcase.1
  · rintro e b ⟨hr, hv, hkept, mid, hlog, hp, htold, hpre, -⟩
    exact ⟨hr, ⟨_, hv, fun w hw => (hkept w hw).1, fun e' he => (by cases he; rfl),
      fun hnone => ⟨mid, [], hlog, List.nil_prefix, htold hnone⟩⟩, mid, hlog, hp,
      hpre.trans (List.prefix_append _ _)⟩

theorem check_denied {f : UInt32 → AtaProg α} (h : a.verdict = some (.error e)) :
    (diskCheckWritable >>= f) a = (.error e, a) := by
  obtain ⟨hv, hsame⟩ := (ends_iff.mp (check_spec a)).kept _ h
  exact Prog.bind_error (Prod.ext hv hsame)

/-- A command with the sectors the check gives, behind the opening. -/
theorem check_went {f : UInt32 → AtaProg α} (hkeep : ∀ n b, (f n b).2.verdict = b.verdict)
    (hn : ((diskCheckWritable >>= f) a).2.verdict = some (.ok n)) :
    ∃ b new, (diskCheckWritable >>= f) a = f n b ∧ b.log = new ++ a.log ∧ writesOf new =
      opening a := by
  obtain ⟨-, hv, -, new, hlog, -, -, -, hok⟩ := ends_iff.mp (check_spec a)
  rcases hcheck : diskCheckWritable a with ⟨e | k, b⟩
  · rw [hcheck] at hv
    rw [Prog.bind_error hcheck, hv] at hn
    cases hn
  · rw [hcheck] at hv hlog hok
    rw [Prog.bind_ok hcheck, hkeep, hv] at hn
    obtain rfl : k = n := Except.ok.inj (Option.some.inj hn)
    exact ⟨b, new, Prog.bind_ok hcheck, hlog, (hok k rfl).1⟩

/-! ## Every request -/

theorem Request.Checks.good (h : r.Checks) : r.own = true ∧ ¬ r.Malformed := by
  cases r with
  | read own lba total buf => exact h.elim
  | write _ _ _ _ | flush _ | capacity _ _ => exact h

/-- A request that is refused before anything is asked. -/
theorem conforms_stop (hstop : r.own = true → r.Malformed) :
    Conforms r a (.error (if r.own then .einvarg else .eio)) a := by
  have hchecks : ¬ r.Checks := fun h => h.good.2 (hstop h.good.1)
  exact {
    reply := rfl
    foreign := fun h => ⟨by rw [h]; rfl, rfl⟩
    refused := fun h _ => ⟨by rw [h]; rfl, rfl⟩
    past := fun _ _ h => absurd h hchecks
    follows := ⟨[], rfl, trivial, List.nil_prefix, fun h => (by cases h)⟩
    kept := fun _ h => h
    asked := fun h => absurd h hchecks
    unasked := fun _ => rfl
    denied := fun _ _ h => absurd h hchecks
    unwritable := fun _ _ h => absurd h hchecks
    failed := fun hown hgood _ _ _ => absurd (hstop hown) hgood
    fresh := fun hnone _ hv => (by rw [hnone] at hv; cases hv) }

theorem refuse_true [Decidable c] (h : c) {f : Unit → AtaProg α} (a : Bus) :
    (Prog.refuse c e >>= f) a = (.error e, a) := by
  rw [Prog.refuse_of h]
  rfl

theorem refuse_false [Decidable c] (h : ¬ c) {f : Unit → AtaProg α} (a : Bus) :
    (Prog.refuse c e >>= f) a = f () a := by
  rw [Prog.refuse_of_not h, pure_bind]

/-- A request that needs the check. -/
theorem conforms_check {f : UInt32 → AtaProg Unit} (hown : r.own = true) (hgood : ¬ r.Malformed)
    (hchecks : r.Checks) (hf : ∀ n, ¬ r.Past n → Follows OnlyIO (fun _ => True) (f n) r.script 0 Q)
    (hQ : ∀ log, Q log → r.script ≠ [] → Shown endSignal log)
    (hpast : ∀ n, r.Past n → ∀ b, f n b = (.error .einvarg, b)) :
    Conforms r a ((diskCheckWritable >>= f) a).1 ((diskCheckWritable >>= f) a).2 := by
  have hany : ∀ n, Follows AnyCode (fun _ => True) (f n) r.script 0 Q := by
    intro n
    by_cases hp : r.Past n
    · intro b _
      unfold Ends
      rw [hpast n hp b]
      exact ⟨rfl, rfl, [], rfl, trivial, List.nil_prefix, trivial⟩
    · exact (hf n hp).any
  obtain ⟨hreply, ⟨v, hv, hsame, hdeny, hfresh⟩, new, hlog, hproper, hcase⟩ := check_then hany a
  have hkeep : ∀ n b, (f n b).2.verdict = b.verdict := fun n b => (hany n b trivial).2.1
  have hseq : r.sequence a = opening a ++ r.script := by
    unfold Request.sequence
    rw [if_pos hchecks]
  refine ⟨hreply, fun h => ?_, fun _ h => absurd h hgood, ?_, ⟨new, hlog, hproper, ?_, ?_⟩, ?_, ?_,
    fun h => absurd hchecks h, ?_, fun e he _ => hdeny e (Option.some.inj (hv.symm.trans he)),
    fun _ _ hn e he => ?_, fun hnone v' hv' => ?_⟩
  · rw [hown] at h
    cases h
  · intro n hn _ hp
    obtain ⟨b, new, hrun, hlog, hw⟩ := check_went hkeep hn
    rw [hrun, hpast n hp]
    exact ⟨rfl, new, hlog, hw⟩
  · rw [hseq]
    cases hres : ((diskCheckWritable >>= f) a).1 with
    | ok u =>
      rw [hres] at hcase
      exact hcase.1 ▸ List.prefix_refl _
    | error e =>
      rw [hres] at hcase
      exact hcase
  · intro hres
    rw [hres] at hcase
    refine ⟨hseq ▸ hcase.1, hcase.2.1, fun hne => hQ _ hcase.2.2 hne, fun h => absurd hchecks h⟩
  · intro w hw
    rw [hv, hsame w hw]
  · intro _
    rw [hv]
    exact fun h => (by cases h)
  · intro e he _
    rw [check_denied he]
    exact ⟨rfl, rfl⟩
  · obtain ⟨n, hn, hroom⟩ := hn hchecks
    obtain ⟨b, -, hrun, -⟩ := check_went hkeep hn
    rw [hrun] at he
    exact (hf n hroom).code trivial he
  · obtain rfl := Option.some.inj (hv.symm.trans hv')
    exact hfresh hnone

theorem flush_conforms (own : Bool) (a : Bus) :
    Conforms (.flush own) a ((Request.flush own).run a).1 ((Request.flush own).run a).2 := by
  cases own with
  | false =>
    rw [show (Request.flush false).run a = (.error .eio, a) from refuse_true rfl a]
    exact conforms_stop fun h => (by cases h)
  | true =>
    rw [show (Request.flush true).run a = (diskCheckWritable >>= fun _ => flushCommand) a from
      refuse_false (by decide) a]
    exact conforms_check rfl not_false ⟨rfl, not_false⟩ (fun _ _ => follows_flush) (fun _ h _ => h)
      fun _ h => h.elim

theorem capacity_conforms (own sectors : Bool) (a : Bus) :
    Conforms (.capacity own sectors) a ((Request.capacity own sectors).run a).1
      ((Request.capacity own sectors).run a).2 := by
  have hrun : (Request.capacity own sectors).run = (do
      Prog.refuse (own = false) .eio
      Prog.refuse (sectors = false) .einvarg
      let _ ← diskCheckWritable
      pure ()) := by
    show (diskWriteCapacity own sectors >>= fun _ => pure ()) = _
    unfold diskWriteCapacity
    rw [bind_assoc]
    congr 1
    funext u
    rw [bind_assoc]
  rw [hrun]
  cases own with
  | false =>
    rw [refuse_true rfl a]
    exact conforms_stop fun h => (by cases h)
  | true =>
    rw [refuse_false (by decide)]
    cases sectors with
    | false =>
      rw [refuse_true rfl a]
      exact conforms_stop fun _ => rfl
    | true =>
      rw [refuse_false (by decide)]
      exact conforms_check rfl (fun h => (by cases h)) ⟨rfl, fun h => (by cases h)⟩
        (fun _ _ => Follows.pure (P := fun _ => True) ()) (fun _ _ h => absurd rfl h) fun _ h =>
          h.elim

/-- The check of `disk_write_block`, without its subtraction. -/
theorem past_iff (h : ¬ BadRange lba total) :
    (lba ≥ n ∨ total.toNat > (n - lba).toNat) ↔ n.toNat < lba.toNat + total.toNat := by
  unfold BadRange at h
  by_cases hle : n ≤ lba
  · have hnat := UInt32.le_iff_toNat_le.mp hle
    exact iff_of_true (.inl hle) (by omega)
  · have hlt : lba.toNat < n.toNat := UInt32.lt_iff_toNat_lt.mp (UInt32.not_le.mp hle)
    have hsub := UInt32.toNat_sub_of_le n lba (UInt32.le_iff_toNat_le.mpr hlt.le)
    rw [or_iff_right hle]
    omega

theorem write_conforms (own : Bool) (lba : UInt32) (total : Int) (buf : Option (Nat → UInt8))
    (a : Bus) : Conforms (.write own lba total buf) a ((Request.write own lba total buf).run a).1
      ((Request.write own lba total buf).run a).2 := by
  cases own with
  | false =>
    rw [show (Request.write false lba total buf).run a = (.error .eio, a) from refuse_true rfl a]
    exact conforms_stop fun h => (by cases h)
  | true =>
    cases buf with
    | none =>
      rw [show (Request.write true lba total none).run a = (.error .einvarg, a) from
        refuse_false (by decide) a]
      exact conforms_stop fun _ => .inl rfl
    | some buf =>
      have hrun : (Request.write true lba total (some buf)).run a = (do
          Prog.refuse (BadRange lba total) .einvarg
          let sectors ← diskCheckWritable
          Prog.refuse (lba ≥ sectors ∨ total.toNat > (sectors - lba).toNat) .einvarg
          ataWriteSectors lba total.toNat buf : AtaProg Unit) a := refuse_false (by decide) a
      rw [hrun]
      by_cases hbad : BadRange lba total
      · rw [refuse_true hbad a]
        exact conforms_stop fun _ => .inr hbad
      · have hgood : ¬ (Request.write true lba total (some buf)).Malformed :=
          fun h => h.elim (fun he => (by cases he)) hbad
        rw [refuse_false hbad]
        refine conforms_check rfl hgood ⟨rfl, hgood⟩ (fun n hp => ?_)
          (fun _ h _ => h) fun n hp b => refuse_true ((past_iff hbad).mpr hp) b
        rw [Prog.refuse_of_not fun h => hp ((past_iff hbad).mp h), pure_bind]
        exact follows_write lba total.toNat buf

theorem read_conforms (own : Bool) (lba : UInt32) (total : Int) (buf : Bool) (a : Bus) :
    Conforms (.read own lba total buf) a ((Request.read own lba total buf).run a).1
      ((Request.read own lba total buf).run a).2 := by
  have hrun : (Request.read own lba total buf).run = (do
      Prog.refuse (own = false) .eio
      Prog.refuse (buf = false ∨ BadRange lba total) .einvarg
      let _ ← readCommand lba total.toNat
      pure ()) := by
    show (diskReadBlock own lba total buf >>= fun _ => pure ()) = _
    unfold diskReadBlock
    rw [bind_assoc]
    congr 1
    funext u
    show (Prog.refuse _ _ >>= fun _ => readCommand lba total.toNat) >>= _ = _
    rw [bind_assoc]
  rw [hrun]
  cases own with
  | false =>
    rw [refuse_true rfl a]
    exact conforms_stop fun h => (by cases h)
  | true =>
    rw [refuse_false (by decide)]
    by_cases hbad : buf = false ∨ BadRange lba total
    · rw [refuse_true hbad a]
      exact conforms_stop fun _ => hbad
    · rw [refuse_false hbad]
      have hfollows := (follows_read lba total.toNat).bind fun _ => Follows.pure ()
      obtain ⟨hreply, hv, new, hlog, hproper, hcase⟩ := hfollows a trivial
      rw [List.append_nil, Nat.add_zero] at hcase
      refine ⟨hreply, fun h => (by cases h), fun _ h => absurd h hbad, fun _ _ h => h.elim,
        ⟨new, hlog, hproper, ?_, ?_⟩, fun v h => hv.trans h, fun h => h.elim, fun _ => hv,
        fun _ _ h => h.elim, fun _ _ h => h.elim, fun _ _ _ e he => ?_,
        fun hnone v hv' => (by rw [hv.trans hnone] at hv'; cases hv')⟩
      · show writesOf new <+: readScript lba total.toNat
        cases hres : ((readCommand lba total.toNat >>= fun _ => pure ()) a).1 with
        | ok u =>
          rw [hres] at hcase
          exact hcase.1 ▸ List.prefix_refl _
        | error e =>
          rw [hres] at hcase
          exact hcase.1
      · intro hres
        rw [hres] at hcase
        exact ⟨hcase.1, hcase.2.2.1, fun _ => hcase.2.2.2, fun _ => hcase.2.1⟩
      · exact hfollows.code trivial he

theorem request_conforms (r : Request) (a : Bus) : Conforms r a (r.run a).1 (r.run a).2 := by
  cases r with
  | read own lba total buf => exact read_conforms own lba total buf a
  | write own lba total buf => exact write_conforms own lba total buf a
  | flush own => exact flush_conforms own a
  | capacity own sectors => exact capacity_conforms own sectors a

/-! ## The registers -/

/-- A sector count of 0 means 256. -/
def decodeCount (value : UInt16) : Nat := if value = 0 then 256 else value.toNat

def decodeLba (head low mid high : UInt16) : Nat :=
  head.toNat % 16 * 2 ^ 24 + high.toNat * 2 ^ 16 + mid.toNat * 2 ^ 8 + low.toNat

/-- The count and the first sector that a script sets before its command. -/
def decode : List (Port × UInt16) → Option (Nat × Nat)
  | (.driveHead, head) :: (.sectorCount, count) :: (.lbaLow, low) :: (.lbaMid, mid) ::
      (.lbaHigh, high) :: (.command, _) :: _ => some (decodeCount count,
        decodeLba head low mid high)
  | _ => none

theorem low_byte (x : UInt32) : (x &&& 0xFF).toUInt8.toUInt16.toNat = x.toNat % 256 := by
  have hand : x.toNat &&& 255 = x.toNat % 256 := Nat.and_two_pow_sub_one_eq_mod x.toNat 8
  rw [UInt8.toNat_toUInt16, UInt32.toNat_toUInt8, UInt32.toNat_and]
  show (x.toNat &&& 255) % 2 ^ 8 = _
  rw [hand, Nat.mod_mod]

theorem headByte_low (lba : UInt32) (h : lba.toNat < 2 ^ 28) :
    (headByte lba).toUInt16.toNat % 16 = lba.toNat / 2 ^ 24 := by
  have hand : (lba >>> 24).toNat &&& 15 = (lba >>> 24).toNat % 16 :=
    Nat.and_two_pow_sub_one_eq_mod (lba >>> 24).toNat 4
  have hshift : (lba >>> 24).toNat = lba.toNat / 2 ^ 24 := by
    rw [UInt32.toNat_shiftRight]
    exact Nat.shiftRight_eq_div_pow _ _
  unfold headByte
  rw [UInt8.toNat_toUInt16, UInt8.toNat_or, show (16 : Nat) = 2 ^ 4 from rfl, Nat.or_mod_two_pow,
    UInt32.toNat_toUInt8, UInt32.toNat_and]
  show 224 % 2 ^ 4 ||| ((lba >>> 24).toNat &&& 15) % 2 ^ 8 % 2 ^ 4 = _
  have hsmall : lba.toNat / 2 ^ 24 % 16 % 2 ^ 8 % 2 ^ 4 = lba.toNat / 2 ^ 24 := by omega
  rw [hand, hshift, hsmall]
  exact Nat.zero_or _

theorem count_byte {total : Nat} (h1 : 1 ≤ total) (h2 : total ≤ 256) :
    decodeCount (UInt8.ofNat total).toUInt16 = total := by
  have hnat : (UInt8.ofNat total).toUInt16.toNat = total % 256 := by
    rw [UInt8.toNat_toUInt16, UInt8.toNat_ofNat']
  have hzero : (UInt8.ofNat total).toUInt16 = 0 ↔ total % 256 = 0 := by
    rw [← UInt16.toNat_inj, hnat]
    rfl
  unfold decodeCount
  by_cases h : total % 256 = 0
  · rw [if_pos (hzero.mpr h)]
    omega
  · rw [if_neg (mt hzero.mp h), hnat]
    omega

theorem shifted_byte (lba : UInt32) {k : UInt32} (hk : k.toNat < 32) :
    ((lba >>> k) &&& 0xFF).toUInt8.toUInt16.toNat = lba.toNat / 2 ^ k.toNat % 256 := by
  rw [low_byte, UInt32.toNat_shiftRight, Nat.mod_eq_of_lt hk, Nat.shiftRight_eq_div_pow]

theorem decode_taskFile (h : ¬ BadRange lba total) (command : UInt8) (rest : List (Port × UInt16)) :
    decode ((.driveHead, (headByte lba).toUInt16) :: taskFileWrites lba total.toNat command ++
      rest) = some (total.toNat, lba.toNat) := by
  unfold BadRange ataMaxSectors ataLba28Limit at h
  have hlba : lba.toNat < 2 ^ 28 := by omega
  refine congrArg some (Prod.ext ?_ ?_)
  · exact count_byte (by omega) (by omega)
  · show decodeLba _ _ _ _ = _
    unfold decodeLba
    rw [headByte_low lba hlba, shifted_byte lba (k := 16) (by decide),
      shifted_byte lba (k := 8) (by decide), low_byte]
    show lba.toNat / 2 ^ 24 * 2 ^ 24 + lba.toNat / 2 ^ 16 % 256 * 2 ^ 16 +
      lba.toNat / 2 ^ 8 % 256 * 2 ^ 8 + lba.toNat % 256 = lba.toNat
    omega

/-- The registers of a read or a write name its count and its first sector. -/
def Request.Decodes : Request → Prop
  | .read own lba total buf =>
      decode (Request.read own lba total buf).script = some (total.toNat, lba.toNat)
  | .write own lba total (some buf) =>
      decode (Request.write own lba total (some buf)).script = some (total.toNat, lba.toNat)
  | _ => True

theorem request_decodes (r : Request) (h : ¬ r.Malformed) : r.Decodes := by
  cases r with
  | read own lba total buf =>
    have hd := decode_taskFile (fun hb => h (.inr hb)) cmdReadSectors []
    rw [List.append_nil] at hd
    exact hd
  | write own lba total buf =>
    cases buf with
    | none => trivial
    | some buf => exact decode_taskFile (fun hb => h (.inr hb)) cmdWriteSectors _
  | flush _ | capacity _ _ => trivial

/-! ## From boot on -/

/-- How often IDENTIFY was sent. -/
def identifies (log : List Access) : Nat := (writesOf log).count (.command, cmdIdentify.toUInt16)

theorem identifies_append (new old : List Access) :
    identifies (new ++ old) = identifies old + identifies new := by
  unfold identifies
  rw [writesOf_append, List.count_append]

theorem script_identifies (r : Request) : r.script.count (.command, cmdIdentify.toUInt16) = 0 := by
  rw [List.count_eq_zero]
  cases r with
  | read own lba total buf =>
    simp [Request.script, readScript, taskFileWrites, cmdIdentify, cmdReadSectors]
  | write own lba total buf =>
    cases buf with
    | none => exact List.not_mem_nil
    | some buf =>
      simp [Request.script, writeScript, taskFileWrites, dataWrites, cmdIdentify, cmdWriteSectors]
  | flush own =>
    show _ ∉ flushScript
    decide
  | capacity own sectors => exact List.not_mem_nil

/-- Sent at most once, and not before its answer is kept. -/
def Once (a : Bus) : Prop := identifies a.log ≤ if a.verdict = none then 0 else 1

theorem once_step (h : Conforms r a res a') (ha : Once a) : Once a' := by
  obtain ⟨new, hlog, -, hpre, -⟩ := h.follows
  have hcount : identifies new ≤ (r.sequence a).count (.command, cmdIdentify.toUInt16) :=
    hpre.sublist.count_le _
  unfold Once at ha ⊢
  rw [hlog, identifies_append]
  unfold Request.sequence opening at hcount
  rw [List.count_append, script_identifies] at hcount
  by_cases hc : r.Checks
  · rw [if_pos hc] at hcount
    rw [if_neg (h.asked hc)]
    by_cases hv : a.verdict = none
    · rw [if_pos hv] at ha hcount
      have hone : identifyScript.count (.command, cmdIdentify.toUInt16) = 1 := by decide
      omega
    · rw [if_neg hv] at ha hcount
      have hnil : ([] : List (Port × UInt16)).count (.command, cmdIdentify.toUInt16) = 0 := rfl
      omega
  · rw [if_neg hc] at hcount
    have hnil : ([] : List (Port × UInt16)).count (.command, cmdIdentify.toUInt16) = 0 := rfl
    rw [h.unasked hc]
    omega

def booted (reply : Nat → UInt16) : Bus := { reply, log := [], verdict := none }

/-- The bus after some requests. -/
def after (requests : List Request) (a : Bus) : Bus := requests.foldl (fun a r => (r.run a).2) a

theorem once_after (requests : List Request) : ∀ {a : Bus}, Once a → Once (after requests a) := by
  induction requests with
  | nil => exact fun h => h
  | cons r requests ih => exact fun h => ih (once_step (request_conforms r _) h)

theorem after_kept (requests : List Request) : ∀ {a : Bus} {v : Except Errno UInt32},
    a.verdict = some v → (after requests a).verdict = some v := by
  induction requests with
  | nil => exact fun h => h
  | cons r requests ih => exact fun h => ih ((request_conforms r _).kept _ h)

/-- The answer that is kept is the one an IDENTIFY gave. -/
def Grounded (a : Bus) : Prop :=
  ∀ verdict, a.verdict = some verdict →
    ∃ later mid before, a.log = later ++ (mid ++ before) ∧ Identified mid verdict

theorem grounded_step (h : Conforms r a res a') (ha : Grounded a) : Grounded a' := by
  intro verdict hv
  cases hold : a.verdict with
  | none =>
    obtain ⟨mid, later, hlog, -, hid⟩ := h.fresh hold verdict hv
    exact ⟨later, mid, a.log, hlog, hid⟩
  | some old =>
    obtain rfl : old = verdict := Option.some.inj ((h.kept old hold).symm.trans hv)
    obtain ⟨new, hlog, -⟩ := h.follows
    obtain ⟨later, mid, before, hbefore, hid⟩ := ha old hold
    exact ⟨new ++ later, mid, before, by rw [hlog, hbefore, List.append_assoc], hid⟩

theorem grounded_after (requests : List Request) : ∀ {a : Bus}, Grounded a →
    Grounded (after requests a) := by
  induction requests with
  | nil => exact fun h => h
  | cons r requests ih => exact fun h => ih (grounded_step (request_conforms r _) h)

/-- Against any drive and after any earlier requests, a request keeps to its command's sequence
and to the rules of the protocol, its registers name what was asked for, IDENTIFY has been sent
at most once, its answer is the one the words of the drive give, and no later request changes it. -/
theorem ata_protocol (reply : Nat → UInt16) (earlier : List Request) (r : Request)
    (later : List Request) :
    Conforms r (after earlier (booted reply)) (r.run (after earlier (booted reply))).1
        (after (earlier ++ [r]) (booted reply)) ∧
      (¬ r.Malformed → r.Decodes) ∧
      identifies (after (earlier ++ [r]) (booted reply)).log ≤ 1 ∧
      Grounded (after (earlier ++ [r]) (booted reply)) ∧
      ∀ verdict, (after (earlier ++ [r]) (booted reply)).verdict = some verdict →
        (after (earlier ++ [r] ++ later) (booted reply)).verdict = some verdict := by
  have hstep : after (earlier ++ [r]) (booted reply) = (r.run
      (after earlier (booted reply))).2 := by
    unfold after
    rw [List.foldl_append]
    rfl
  refine ⟨hstep ▸ request_conforms r _, request_decodes r, ?_,
    grounded_after (earlier ++ [r]) fun _ h => (by cases h), ?_⟩
  · have honce : Once (after (earlier ++ [r]) (booted reply)) :=
      once_after (earlier ++ [r]) (Nat.le_refl 0)
    unfold Once at honce
    split at honce <;> omega
  · intro verdict hv
    unfold after
    rw [List.foldl_append]
    exact after_kept later hv

/-! ### A drive of 100 sectors -/

/-- Words 49, 60 and 83: LBA, 100 sectors, FLUSH CACHE. -/
def hundredWord (i : Nat) : UInt16 :=
  if i = 49 then 0x0200 else if i = 60 then 100 else if i = 83 then 0x5000 else 0

/-- Ready at every status read, with DRQ at the one behind IDENTIFY; the 256 words come next. -/
def hundredDrive (n : Nat) : UInt16 :=
  if n = 13 then 0x58 else if 14 ≤ n ∧ n < 270 then hundredWord (n - 14) else 0x50

/-- The drive answers with its words, and a write to sector 100 sends nothing. -/
theorem ata_protocol_hundred :
    (after [.capacity true true] (booted hundredDrive)).verdict = some (.ok 100) ∧
      (∃ words, WritableDrive words ∧ wordPair words 60 = 100) ∧
      ((Request.write true 100 1 (some fun _ => 0)).run
        (after [.capacity true true] (booted hundredDrive))).1 = .error .einvarg := by
  have hverdict : (after [.capacity true true] (booted hundredDrive)).verdict = some (.ok 100) := by
    decide +kernel
  obtain ⟨hconf, -, -, hground, -⟩ := ata_protocol hundredDrive [.capacity true true]
    (.write true 100 1 (some fun _ => 0)) []
  have hkept := hconf.kept _ hverdict
  refine ⟨hverdict, ?_, (hconf.past 100 hkept ?_ ?_).1⟩
  · obtain ⟨later, mid, before, -, hid⟩ := hground _ hkept
    cases hid with
    | writable _ h hn =>
      refine ⟨dataWords mid, h, ?_⟩
      change 100 = min _ 0x0FFFFFFF at hn
      omega
  · refine ⟨rfl, ?_⟩
    rintro (h | h)
    · cases h
    · exact absurd h (by decide)
  · change 100 < 100 + 1
    decide

end Rorthox.Ata
