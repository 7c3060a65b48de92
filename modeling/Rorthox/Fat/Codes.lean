import Rorthox.Fat.Mutate

/-!
# The errors of the driver

Looking things up fails with a handful of codes. A full directory is not among them: that one
comes from the search for a slot alone.
-/

namespace Rorthox.Fat

open Lib Disk Memory

variable {α : Type}

def lookCodes : List Errno := [.eio, .einvarg, .enomem, .enoent]

/-- The program fails with these codes only. -/
def Looks (m : FsProg α) : Prop := Prog.Raises (· ∈ lookCodes) m

/-! ## The disk -/

theorem looks_onDev {m : Prog Device Errno α} (h : Prog.Raises (· ∈ lookCodes) m) :
    Looks (onDev m) :=
  fun s => h s.dev

theorem looks_kzalloc {e : Errno} (he : e ∈ lookCodes) (size : Nat) : Looks (kzalloc e size) := by
  intro s e' h
  unfold kzalloc at h
  split at h
  · cases h
  · cases h
    exact he

theorem raises_readBlock (lba : Nat) : Prog.Raises (· ∈ lookCodes) (diskReadBlock lba) := by
  intro d e h
  unfold diskReadBlock at h
  split at h
  · cases h
    decide
  · split at h
    · cases h
    · cases h
      decide

theorem raises_readLoop (fuel : Nat) : ∀ (pos total done : Nat) (out : Bytes),
    Prog.Raises (· ∈ lookCodes) (readLoop fuel pos total done out) := by
  induction fuel with
  | zero =>
    intro pos total done out
    cases total with
    | zero => exact Prog.raises_pure out
    | succ total => exact Prog.raises_raise (by decide)
  | succ fuel ih =>
    intro pos total done out
    cases total with
    | zero => exact Prog.raises_pure out
    | succ total => exact (raises_readBlock _).bind fun buf => ih _ _ _ _

theorem looks_seek (pos : Nat) : Looks (onDev (diskstreamerSeek pos)) :=
  looks_onDev (Prog.raises_refuse _ (by decide))

theorem looks_read (pos total : Nat) : Looks (onDev (diskstreamerRead pos total)) :=
  looks_onDev ((Prog.raises_refuse _ (by decide)).bind fun _ => raises_readLoop _ _ _ _ _)

/-! ## The FAT and directories -/

theorem looks_vol {f : FatPrivate → FsProg α} (h : ∀ v, Looks (f v)) :
    Looks (Prog.look (·.vol) >>= f) := (Prog.raises_look _).bind h

theorem looks_refuse {c : Prop} [Decidable c] {e : Errno} (he : e ∈ lookCodes) {f : Unit → FsProg α}
    (h : Looks (f ())) : Looks (Prog.refuse c e >>= f) := (Prog.raises_refuse c he).bind fun _ => h

theorem looks_fatEntry (cluster : Nat) : Looks (fat16GetFatEntry cluster) :=
  looks_vol fun _ => (looks_seek _).bind fun _ => (looks_read _ _).bind fun _ => Prog.raises_pure _

theorem looks_clusterLoop (v : FatPrivate) (ahead : Nat) : ∀ cluster,
    Looks (clusterForOffsetLoop v ahead cluster) := by
  induction ahead with
  | zero => exact fun cluster => Prog.raises_pure cluster
  | succ ahead ih =>
    exact fun cluster => (looks_fatEntry cluster).bind fun next =>
      looks_refuse (by decide) (ih next)

theorem looks_clusterForOffset (start offset : Nat) : Looks
    (fat16GetClusterForOffset start offset) :=
  looks_vol fun v => looks_refuse (by decide) (looks_refuse (by decide) (looks_clusterLoop v _ _))

theorem looks_directoryStart (cluster : Nat) : Looks (fat16DirectoryStart cluster) :=
  looks_vol fun _ => .ite (looks_refuse (by decide) (Prog.raises_pure _)) (Prog.raises_pure _)

theorem looks_advance (v : FatPrivate) (cursor : DirectoryCursor) :
    Looks (cursorAdvance v cursor) := by
  refine .ite (Prog.raises_pure _) (.ite (Prog.raises_pure _)
    ((looks_fatEntry _).bind fun next => ?_))
  exact .ite (Prog.raises_pure _) (looks_refuse (by decide) (Prog.raises_pure _))

theorem looks_fetchSlot (v : FatPrivate) (cursor : DirectoryCursor) :
    Looks (fetchSlot v cursor) := by
  refine looks_refuse (by decide) (.ite (Prog.raises_pure _) (.ite ?_ (Prog.raises_pure _)))
  exact (looks_seek _).bind fun _ => (looks_read _ _).bind fun _ => Prog.raises_pure _

theorem looks_directoryNext (cursor : DirectoryCursor) : Looks (fat16DirectoryNext cursor) := by
  refine looks_vol fun v => (looks_advance v cursor).bind fun moved => ?_
  cases moved with
  | none => exact Prog.raises_pure _
  | some cursor => exact looks_fetchSlot v cursor

theorem looks_newItem {e : Errno} (he : e ∈ lookCodes) (item : DirItem) (pos : Nat) :
    Looks (fat16NewFatItemForDirectoryItem e item pos) := by
  refine (looks_kzalloc he _).bind fun addr => .ite (.undo ?_ _) (.undo ?_ _)
  · exact (Prog.raises_recode _ fun _ => he).bind fun _ => Prog.raises_pure _
  · exact (looks_kzalloc he _).bind fun _ => Prog.raises_pure _

/-! ## Lookup -/

theorem looks_slotPos (dir : FatDirectory) (i : Nat) : Looks (slotPos dir i) :=
  looks_vol fun _ => .ite
    ((looks_clusterForOffset _ _).bind fun _ => looks_refuse (by decide) (Prog.raises_pure _))
    (Prog.raises_pure _)

theorem looks_findLoop (dir : FatDirectory) (name : List UInt8) (left : Nat) : ∀ i,
    Looks (findItemLoop dir name left i) := by
  induction left with
  | zero => exact fun _ => Prog.raises_raise (by decide)
  | succ left ih =>
    intro i
    refine .ite (Prog.raises_raise (by decide)) (.ite (ih _) (.ite ?_ (ih _)))
    exact (looks_slotPos dir i).bind fun pos => looks_newItem (by decide) _ pos

theorem looks_createParent (path : List (List UInt8)) :
    ∀ (dir : FatDirectory) (parent : Option FatItem), Looks (createParent dir parent path) := by
  induction path with
  | nil => exact fun _ _ => (Prog.raises_change _).bind fun _ => Prog.raises_raise (by decide)
  | cons part path ih =>
    intro dir parent
    cases path with
    | nil => exact Prog.raises_pure _
    | cons next path =>
      refine ((looks_findLoop dir part dir.total 0).finish _).bind fun item => ?_
      cases item.node with
      | file addr entry => exact (Prog.raises_change _).bind fun _ => Prog.raises_raise (by decide)
      | directory dir' => exact ih dir' (some item)

/-! ## Committing -/

theorem looks_writeAt (pos : Nat) (data : Bytes) (len : Nat) :
    Looks (fat16WriteAt pos data len) := by
  intro s e h
  unfold fat16WriteAt at h
  split at h
  · cases h
    decide
  · split at h
    · cases h
    · cases h
      decide

theorem looks_flush : Looks fat16Flush := by
  intro s e h
  unfold fat16Flush at h
  split at h
  · cases h
  · cases h
    decide

theorem looks_commitItem (pos : Nat) (item : DirItem) : Looks (fat16CommitItem pos item) :=
  (looks_writeAt _ _ _).bind fun _ => looks_flush.bind fun _ => Prog.raises_change _

end Rorthox.Fat
