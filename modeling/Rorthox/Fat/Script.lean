import Rorthox.Fat.ChainSpec

/-!
# Mutations as phases

Once everything has been looked up, a mutation is a list of phases: stores, then a
flush, then a change of the cached volume. The writing functions of the driver are
runs of such lists, so what a mutation can do to the disk is settled once for all of
them.
-/

namespace Rorthox.Fat

open Lib Disk

/-- Bytes for the disk. -/
structure Store where
  pos : Nat
  data : Bytes
  len : Nat

def Store.apply (st : Store) (img : Bytes) : Bytes := memcpy img st.pos st.data 0 st.len

def applyStores (stores : List Store) (img : Bytes) : Bytes :=
  stores.foldl (fun img st => st.apply img) img

/-- Stores, a flush, and what the flush lets the driver publish. -/
structure Phase where
  stores : List Store
  after : FatPrivate → FatPrivate

def applyPhases (phases : List Phase) (img : Bytes) : Bytes :=
  phases.foldl (fun img ph => applyStores ph.stores img) img

def afterPhases (phases : List Phase) (v : FatPrivate) : FatPrivate :=
  phases.foldl (fun v ph => ph.after v) v

def runStores : List Store → FsProg Unit
  | [] => pure ()
  | st :: stores => do
      fat16WriteAt st.pos st.data st.len
      runStores stores

def runPhase (ph : Phase) : FsProg Unit := do
  runStores ph.stores
  fat16Flush
  Prog.change (onVol ph.after)

def runPhases : List Phase → FsProg Unit
  | [] => pure ()
  | ph :: phases => do
      runPhase ph
      runPhases phases

theorem runStores_append (a b : List Store) :
    runStores (a ++ b) = runStores a >>= fun _ => runStores b := by
  induction a with
  | nil => rfl
  | cons st a ih =>
    rw [List.cons_append, runStores, ih, runStores, bind_assoc]

theorem runPhases_append (a b : List Phase) :
    runPhases (a ++ b) = runPhases a >>= fun _ => runPhases b := by
  induction a with
  | nil => rfl
  | cons ph a ih =>
    rw [List.cons_append, runPhases, ih, runPhases, bind_assoc]

theorem runPhases_singleton (ph : Phase) : runPhases [ph] = runPhase ph := bind_pure _

/-- A phase that publishes nothing. -/
def Phase.plain (stores : List Store) : Phase := ⟨stores, id⟩

theorem runPhase_plain (stores : List Store) :
    runPhase (.plain stores) = runStores stores >>= fun _ => fat16Flush := by
  have h : (fat16Flush >>= fun _ => Prog.change (onVol id)) = fat16Flush := bind_pure _
  show (runStores stores >>= fun _ => fat16Flush >>= fun _ => Prog.change (onVol id)) = _
  rw [h]

/-! ## The scripts -/

section

variable (v : FatPrivate)

def entryStore (pos : Nat) (item : DirItem) : Store := ⟨pos, item.byte, 32⟩

def commitPhase (pos : Nat) (item : DirItem) : Phase :=
  ⟨[entryStore pos item], fat16Publish pos item⟩

def fatStore (copy cluster value : Nat) : Store :=
  ⟨fatEntryPos v copy cluster, ofList (enc16 value), 2⟩

def setStores (copy value : Nat) (chain : List Nat) : List Store :=
  chain.map fun cluster => fatStore v copy cluster value

def freePhases (chain : List Nat) : List Phase :=
  if chain ≠ [] then [.plain (setStores v 0 0 chain), .plain (setStores v 1 0 chain)] else []

/-- What a truncation does. -/
def truncatePhases (item : DirItem) (pos : Nat) (chain : List Nat) : List Phase :=
  commitPhase pos (emptied item) :: freePhases v chain

def zeroRun (pos : Nat) : Nat → List Store
  | 0 => []
  | left + 1 => ⟨pos, fun _ => 0, sectorSize⟩ :: zeroRun (pos + sectorSize) left

def zeroStores : List Nat → List Store
  | [] => []
  | cluster :: clusters =>
      zeroRun (fat16ClusterToSector v cluster * sectorSize) (sectorsPerCluster v.header) ++
        zeroStores clusters

def dataStores (chain : List Nat) (data : Bytes) : Nat → Nat → Nat → Nat → List Store
  | _, _, 0, _ => []
  | 0, _, _ + 1, _ => []
  | fuel + 1, position, left + 1, done =>
      let part := clusterPart v (position % clusterBytes v) (left + 1)
      ⟨fat16ClusterToSector v (chain.getD (position / clusterBytes v) 0) * sectorSize +
          position % clusterBytes v, fun i => data (done + i), part⟩ ::
        dataStores chain data fuel (position + part) (left + 1 - part) (done + part)

def linkStores (copy : Nat) : List Nat → List Store
  | [] => []
  | cluster :: clusters =>
    fatStore v copy cluster (clusters.headD 0xFFFF) :: linkStores copy clusters

def tailPhases (old fresh : List Nat) : List Phase :=
  if old ≠ [] then
    [.plain [fatStore v 0 (old.getLastD 0) (fresh.headD 0)],
      .plain [fatStore v 1 (old.getLastD 0) (fresh.headD 0)]]
  else []

def extendPhases (old fresh : List Nat) : List Phase :=
  if fresh ≠ [] then
    .plain (linkStores v 0 fresh) :: .plain (linkStores v 1 fresh) :: tailPhases v old fresh
  else []

/-- What a write does. -/
def writePhases (item : DirItem) (entryPos : Nat) (old fresh : List Nat) (start : Nat)
    (data : Bytes) (count size : Nat) : List Phase :=
  .plain (zeroStores v fresh ++ dataStores v (old ++ fresh) data count start count 0) ::
    (extendPhases v old fresh ++
      [commitPhase entryPos (rewritten item ((old ++ fresh).headD 0) size)])

/-! ## The driver runs them -/

theorem commitItem_eq (pos : Nat) (item : DirItem) :
    fat16CommitItem pos item = runPhase (commitPhase pos item) := by
  show _ = (runStores [entryStore pos item] >>= _)
  rw [runStores]
  show _ = ((fat16WriteAt pos item.byte 32 >>= fun _ => runStores []) >>= _)
  rw [runStores, bind_pure_unit]
  rfl

theorem setEntries_eq (copy value : Nat) (chain : List Nat) :
    setEntries v copy value chain = runStores (setStores v copy value chain) := by
  induction chain with
  | nil => rfl
  | cons cluster chain ih =>
    rw [setEntries, ih]
    rfl

theorem freeChain_eq (chain : List Nat) : freeChain v chain = runPhases (freePhases v chain) := by
  unfold freeChain freePhases
  by_cases h : chain ≠ []
  · rw [if_pos h, if_pos h, runPhases, runPhases_singleton, runPhase_plain, runPhase_plain,
      bind_assoc, setEntries_eq, setEntries_eq]
  · rw [if_neg h, if_neg h]
    rfl

theorem zeroSectors_eq (left : Nat) : ∀ pos, zeroSectors pos left =
    runStores (zeroRun pos left) := by
  induction left with
  | zero => intro pos; rfl
  | succ left ih =>
    intro pos
    rw [zeroSectors, ih]
    rfl

theorem zeroClusters_eq (clusters : List Nat) :
    zeroClusters v clusters = runStores (zeroStores v clusters) := by
  induction clusters with
  | nil => rfl
  | cons cluster clusters ih =>
    rw [zeroClusters, zeroStores, runStores_append, ih, zeroSectors_eq]

theorem linkClusters_eq (copy : Nat) (clusters : List Nat) :
    linkClusters v copy clusters = runStores (linkStores v copy clusters) := by
  induction clusters with
  | nil => rfl
  | cons cluster clusters ih =>
    rw [linkClusters, ih]
    rfl

theorem attachTail_eq (old fresh : List Nat) :
    attachTail v old fresh = runPhases (tailPhases v old fresh) := by
  unfold attachTail tailPhases
  have hone : ∀ st : Store, runStores [st] = fat16WriteAt st.pos st.data st.len := fun st =>
    bind_pure_unit
  by_cases h : old ≠ []
  · rw [if_pos h, if_pos h, runPhases, runPhases_singleton, runPhase_plain, runPhase_plain,
      bind_assoc, hone, hone]
    rfl
  · rw [if_neg h, if_neg h]
    rfl

theorem extendChain_eq (old fresh : List Nat) :
    extendChain v old fresh = runPhases (extendPhases v old fresh) := by
  unfold extendChain extendPhases
  by_cases h : fresh ≠ []
  · rw [if_pos h, if_pos h, runPhases, runPhases, runPhase_plain, runPhase_plain,
      bind_assoc, bind_assoc, linkClusters_eq, linkClusters_eq, attachTail_eq]
  · rw [if_neg h, if_neg h]
    rfl

variable {v}

theorem writeData_eq (hb : 0 < clusterBytes v) (chain : List Nat) (data : Bytes) (fuel : Nat) :
    ∀ position left done, left ≤ fuel →
      writeDataLoop v chain data fuel position left done =
        runStores (dataStores v chain data fuel position left done) := by
  induction fuel with
  | zero =>
    intro position left done hle
    obtain rfl : left = 0 := by omega
    rfl
  | succ fuel ih =>
    intro position left done hle
    cases left with
    | zero => rfl
    | succ left =>
      have hpart : 0 < clusterPart v (position % clusterBytes v) (left + 1) :=
        clusterPart_pos (Nat.mod_lt position hb) (Nat.succ_pos left)
      rw [writeDataLoop, ih _ _ _ (by omega)]
      rfl

theorem storeBytes_eq (hb : 0 < clusterBytes v) (item : DirItem) (entryPos : Nat)
    (old fresh : List Nat) (start : Nat) (data : Bytes) (count size : Nat) :
    storeBytes v item entryPos old fresh start data count size =
      runPhases (writePhases v item entryPos old fresh start data count size) := by
  rw [writePhases, runPhases, runPhases_append, runPhases_singleton, runPhase_plain,
    runStores_append, ← zeroClusters_eq, ← writeData_eq hb _ _ _ _ _ _ le_rfl, ← extendChain_eq,
    ← commitItem_eq, storeBytes, bind_assoc, bind_assoc]

end

end Rorthox.Fat
