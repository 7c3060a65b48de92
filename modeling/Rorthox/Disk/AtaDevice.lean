import Rorthox.Disk.AtaProtocol

/-!
# The driver below the disk

The file system runs on `Disk.Device`, where IDENTIFY has given `identify` and a command ends
as `fates` says. Every run of the driver at its ports, sector by sector, is such a run: with the
drive's answer to IDENTIFY and some fates of the commands the device ends every call as the
driver does. What a read brings is up to the drive; that it is what was last written is the one
thing `Device` adds.
-/

namespace Rorthox.Ata

open Lib Lib.Prog
open Disk (Device Fate lbaLimit)

/-- What the block layer is asked for: one sector, the flush or the capacity. -/
inductive DiskCall where
  | read (lba : UInt32)
  | write (lba : UInt32) (data : Bytes)
  | flush
  | capacity

def DiskCall.driver : DiskCall → Request
  | .read lba => .read true lba 1 true
  | .write lba data => .write true lba 1 (some data)
  | .flush => .flush true
  | .capacity => .capacity true true

def DiskCall.device : DiskCall → Prog Device Errno Unit
  | .read lba => Disk.diskReadBlock lba.toNat >>= fun _ => pure ()
  | .write lba data => Disk.diskWriteBlock lba.toNat data
  | .flush => Disk.diskFlush
  | .capacity => Disk.diskWriteCapacity >>= fun _ => pure ()

/-- How calls end, one after another. -/
def outcomes {σ : Type} (run : DiskCall → Prog σ Errno Unit) :
    List DiskCall → σ → List (Except Errno Unit)
  | [], _ => []
  | c :: calls, s => (run c s).1 :: outcomes run calls (run c s).2

/-! ## One call -/

/-- With this answer of IDENTIFY the device ends the call with `r`: without a command, or with one
that has a certain fate. -/
def Answers (c : DiskCall) (identify : Except Errno Nat) (r : Except Errno Unit) : Prop :=
  ∃ sent : Option Fate, ∀ d : Device, d.identify = identify →
    (∀ fate, sent = some fate → d.fates d.calls = fate) →
      (c.device d).1 = r ∧ (c.device d).2.calls = d.calls + sent.toList.length ∧
        d.Same (c.device d).2

variable {c : DiskCall} {identify : Except Errno Nat} {r : Except Errno Unit} {lba : UInt32}
  {data : Bytes}

theorem Answers.quiet (h : ∀ d : Device, d.identify = identify →
    ∃ d', c.device d = (r, d') ∧ d'.calls = d.calls ∧ d.Same d') : Answers c identify r := by
  refine ⟨none, fun d hd _ => ?_⟩
  obtain ⟨d', hrun, hrest⟩ := h d hd
  rw [hrun]
  exact ⟨rfl, hrest⟩

/-- A command can end well, and it can fail. -/
theorem Answers.sent (hr : ∀ e, r = .error e → e = .eio) (h : ∀ d : Device, d.identify = identify →
    ∃ d', c.device d = (if d.fates d.calls = .done then .ok () else .error .eio, d') ∧
      d'.calls = d.calls + 1 ∧ d.Same d') : Answers c identify r := by
  refine ⟨some (if r = .ok () then .done else .lost), fun d hd hfate => ?_⟩
  obtain ⟨d', hrun, hrest⟩ := h d hd
  rw [hrun, hfate _ rfl]
  refine ⟨?_, hrest⟩
  cases r with
  | ok u => rfl
  | error e =>
    rw [hr e rfl]
    rfl

theorem malformed_iff : (BadRange lba 1) ↔ lbaLimit ≤ lba.toNat := by
  unfold BadRange ataMaxSectors ataLba28Limit lbaLimit
  omega

theorem read_answers {a a' : Bus} (h : Conforms (DiskCall.read lba).driver a r a') :
    Answers (.read lba) identify r := by
  by_cases hbad : lbaLimit ≤ lba.toNat
  · rw [(h.refused rfl (.inr (malformed_iff.mpr hbad))).1]
    refine .quiet fun d _ => ⟨d, ?_, rfl, .refl d⟩
    have hd : Disk.diskReadBlock lba.toNat d = (.error .einvarg, d) := if_pos hbad
    exact bind_error hd
  · have hgood : ¬ (DiskCall.read lba).driver.Malformed :=
      fun hm => hm.elim (fun hb => (by cases hb)) fun hb => hbad (malformed_iff.mp hb)
    refine .sent (h.failed rfl hgood fun hc => hc.elim) fun d _ => ?_
    have hd : Disk.diskReadBlock lba.toNat d = _ := if_neg hbad
    cases hfate : d.fates d.calls with
    | done =>
      rw [hfate] at hd
      exact ⟨d.tick, bind_ok hd, rfl, rfl, rfl, rfl⟩
    | lost | stored =>
      rw [hfate] at hd
      exact ⟨_, bind_error hd, rfl, rfl, rfl, rfl⟩

theorem write_answers {a a' : Bus} (h : Conforms (DiskCall.write lba data).driver a r a')
    (hid : ∀ v, a'.verdict = some v → identify = v.map UInt32.toNat) :
    Answers (.write lba data) identify r := by
  by_cases hbad : lbaLimit ≤ lba.toNat
  · rw [(h.refused rfl (.inr (malformed_iff.mpr hbad))).1]
    exact .quiet fun d _ => ⟨_, if_pos hbad, rfl, rfl, rfl, rfl⟩
  have hgood : ¬ (DiskCall.write lba data).driver.Malformed :=
    fun hm => hm.elim (fun hb => (by cases hb)) fun hb => hbad (malformed_iff.mp hb)
  have hchecks : (DiskCall.write lba data).driver.Checks := ⟨rfl, hgood⟩
  have hrun : ∀ d : Device, (DiskCall.write lba data).device d = _ := fun d => if_neg hbad
  obtain ⟨v, hv⟩ := Option.ne_none_iff_exists'.mp (h.asked hchecks)
  cases v with
  | error e =>
    rw [h.unwritable e hv hchecks]
    refine .quiet fun d hd => ⟨d.note (.refused lba.toNat), ?_, rfl, rfl, rfl, rfl⟩
    rw [hrun, hd, hid _ hv]
    rfl
  | ok n =>
    by_cases hpast : n.toNat ≤ lba.toNat
    · rw [(h.past n hv hchecks (show n.toNat < lba.toNat + 1 by omega)).1]
      refine .quiet fun d hd => ⟨d.note (.refused lba.toNat), ?_, rfl, rfl, rfl, rfl⟩
      rw [hrun, hd, hid _ hv]
      exact if_pos hpast
    · refine .sent (h.failed rfl hgood fun _ => ⟨n, hv, fun hp => ?_⟩) fun d hd =>
        ⟨d.tick.note (.wrote lba.toNat data (d.fates d.calls)), ?_, rfl, rfl, rfl, rfl⟩
      · change n.toNat < lba.toNat + 1 at hp
        omega
      · rw [hrun, hd, hid _ hv]
        exact if_neg hpast

theorem flush_answers {a a' : Bus} (h : Conforms DiskCall.flush.driver a r a')
    (hid : ∀ v, a'.verdict = some v → identify = v.map UInt32.toNat) :
    Answers .flush identify r := by
  have hchecks : DiskCall.flush.driver.Checks := ⟨rfl, not_false⟩
  obtain ⟨v, hv⟩ := Option.ne_none_iff_exists'.mp (h.asked hchecks)
  cases v with
  | error e =>
    rw [h.unwritable e hv hchecks]
    refine .quiet fun d hd => ⟨d, ?_, rfl, .refl d⟩
    rw [DiskCall.device, Disk.diskFlush, hd, hid _ hv]
    rfl
  | ok n =>
    refine .sent (h.failed rfl not_false fun _ => ⟨n, hv, not_false⟩) fun d hd => ?_
    rw [DiskCall.device, Disk.diskFlush, hd, hid _ hv]
    by_cases hfate : d.fates d.calls = .done
    · rw [if_pos hfate, if_pos hfate]
      exact ⟨d.tick.note (.flushed true), rfl, rfl, rfl, rfl, rfl⟩
    · rw [if_neg hfate, if_neg hfate]
      exact ⟨d.tick.note (.flushed false), rfl, rfl, rfl, rfl, rfl⟩

theorem capacity_answers (a : Bus)
    (hid : ∀ v, (DiskCall.capacity.driver.run a).2.verdict = some v →
      identify = v.map UInt32.toNat) :
    Answers .capacity identify (DiskCall.capacity.driver.run a).1 := by
  have hrun : DiskCall.capacity.driver.run a = (diskCheckWritable >>= fun _ => pure ()) a := by
    show ((Prog.refuse _ _ >>= fun _ => Prog.refuse _ _ >>= fun _ => diskCheckWritable) >>= _) a = _
    rw [Prog.refuse_of_not (by decide), pure_bind, Prog.refuse_of_not (by decide), pure_bind]
  rw [hrun] at hid ⊢
  have hv := (ends_iff.mp (check_spec a)).verdict
  refine .quiet fun d hd => ⟨d, ?_, rfl, .refl d⟩
  rcases hcheck : diskCheckWritable a with ⟨e | n, b⟩
  · rw [hcheck] at hv
    rw [bind_error hcheck] at hid ⊢
    exact bind_error (Prod.ext (hd.trans (hid _ hv)) rfl)
  · rw [hcheck] at hv
    rw [bind_ok hcheck] at hid ⊢
    exact bind_ok (Prod.ext (hd.trans (hid _ hv)) rfl)

/-- The device can end a call as the driver does, if it has the driver's answer of IDENTIFY. -/
theorem DiskCall.answers (c : DiskCall) (a : Bus)
    (hid : ∀ v, (c.driver.run a).2.verdict = some v → identify = v.map UInt32.toNat) :
    Answers c identify (c.driver.run a).1 := by
  cases c with
  | read lba => exact read_answers (request_conforms _ a)
  | write lba data => exact write_answers (request_conforms _ a) hid
  | flush => exact flush_answers (request_conforms _ a) hid
  | capacity => exact capacity_answers a hid

/-! ## Runs -/

/-- From command `k` on there are fates that make the device end every call as the driver does. -/
theorem outcomes_simulated (calls : List DiskCall) : ∀ (a : Bus) (k : Nat),
    (∀ v, (after (calls.map DiskCall.driver) a).verdict = some v → identify = v.map UInt32.toNat) →
      ∃ fates : Nat → Fate, ∀ d : Device, d.identify = identify → d.calls = k →
        (∀ i, k ≤ i → d.fates i = fates i) →
          outcomes (fun c => c.driver.run) calls a = outcomes DiskCall.device calls d := by
  induction calls with
  | nil => exact fun _ _ _ => ⟨fun _ => .done, fun _ _ _ _ => rfl⟩
  | cons c calls ih =>
    intro a k hid
    obtain ⟨sent, hanswer⟩ := c.answers a fun v hv => hid v
      (after_kept (calls.map DiskCall.driver) hv)
    obtain ⟨fates, hrest⟩ := ih (c.driver.run a).2 (k + sent.toList.length) hid
    refine ⟨fun i => if i = k then sent.getD (fates k) else fates i, fun d hd hk hfates => ?_⟩
    obtain ⟨hres, hcalls, hsame⟩ := hanswer d hd fun fate hfate => by
      rw [hk, hfates k le_rfl, hfate]
      exact if_pos rfl
    rw [outcomes, outcomes, hres]
    congr 1
    refine hrest _ (hsame.identify.trans hd) (by rw [hcalls, hk]) fun i hi => ?_
    rw [hsame.fates, hfates i (by omega)]
    cases sent with
    | none => exact ite_eq_right_iff.mpr fun h => (by rw [h]; rfl)
    | some fate => exact if_neg (show i ≠ k by change k + 1 ≤ i at hi; omega)

/-- Every run of the driver from boot on, against any drive, ends its calls as the device does with
the answer the drive gave to IDENTIFY and some fates of its commands. -/
theorem driver_on_device (reply : Nat → UInt16) (origin : Bytes) (calls : List DiskCall) :
    ∃ identify fates,
      (∀ v, (after (calls.map DiskCall.driver) (booted reply)).verdict = some v →
        identify = v.map UInt32.toNat) ∧
      outcomes (fun c => c.driver.run) calls (booted reply) =
        outcomes DiskCall.device calls { origin, log := [], fates, calls := 0, identify } := by
  obtain ⟨identify, hid⟩ : ∃ identify : Except Errno Nat, ∀ v,
      (after (calls.map DiskCall.driver) (booted reply)).verdict = some v →
        identify = v.map UInt32.toNat := by
    cases (after (calls.map DiskCall.driver) (booted reply)).verdict with
    | none => exact ⟨.error .eio, fun v h => (by cases h)⟩
    | some v => exact ⟨v.map UInt32.toNat, fun w h => (by cases h; rfl)⟩
  obtain ⟨fates, hrun⟩ := outcomes_simulated calls (booted reply) 0 hid
  exact ⟨identify, fates, hid, hrun _ rfl rfl fun _ _ => rfl⟩

end Rorthox.Ata
