import Rorthox.Fat.Reading

/-!
# What the bytes of a volume say

The values the reading functions of the driver compute, as functions of the volume
and the content of the disk. Addresses are 0 here.
-/

namespace Rorthox.Fat

open Lib Disk

section

variable (v : FatPrivate) (img : Bytes)

/-- The entry of a cluster in a copy of the FAT. -/
def fatAt (copy cluster : Nat) : Nat := le16 img (fatEntryPos v copy cluster)

/-- Follow `n` links of the first copy. -/
def clusterWalk : Nat → Nat → Except Errno Nat
  | 0, cluster => .ok cluster
  | n + 1, cluster =>
      if ¬ fat16ValidCluster v (fatAt v img 0 cluster) then .error .eio
      else clusterWalk n (fatAt v img 0 cluster)

def clusterAt (start offset : Nat) : Except Errno Nat :=
  if clusterBytes v = 0 ∨ ¬ fat16ValidCluster v start then .error .eio
  else if fat16ClusterLimit v - 1 ≤ offset / clusterBytes v then .error .eio
  else clusterWalk v img (offset / clusterBytes v) start

def readWalk : Nat → Nat → Nat → Nat → Nat → Nat → Bytes → Except Errno Bytes
  | _, _, _, 0, _, _, out => .ok out
  | 0, _, _, _ + 1, _, _, _ => .error .eio
  | fuel + 1, current, within, total + 1, traversed, done, out =>
      let part := clusterPart v within (total + 1)
      let pos := fat16ClusterToSector v current * sectorSize + within
      if intMax < pos ∨ intMax - pos < part then .error .eio
      else if total + 1 - part = 0 then .ok (memcpy out done img pos part)
      else if ¬ fat16ValidCluster v (fatAt v img 0 current) ∨
          fat16ClusterLimit v - 1 < traversed + 1 then .error .eio
      else readWalk fuel (fatAt v img 0 current) 0 (total + 1 - part) (traversed + 1) (done + part)
        (memcpy out done img pos part)

def readAt (start offset total : Nat) : Except Errno Bytes :=
  if intMax < offset ∨ intMax - offset < total ∨ clusterBytes v = 0 then .error .eio
  else do
    let current ← clusterAt v img start offset
    readWalk v img total current (offset % clusterBytes v) total (offset / clusterBytes v + 1) 0
      fun _ => 0

/-! ## Directories -/

/-- Cluster number `k` of a directory, `none` behind its last one. -/
def dirCluster (start : Nat) : Nat → Except Errno (Option Nat)
  | 0 => .ok (some start)
  | k + 1 =>
      match dirCluster start k with
      | .ok (some cluster) =>
          if eocStart ≤ fatAt v img 0 cluster then .ok none
          else if ¬ fat16ValidCluster v (fatAt v img 0 cluster) ∨ fat16ClusterLimit v - 1 <
            k + 2 then
            .error .eio
          else .ok (some (fatAt v img 0 cluster))
      | r => r

def slotsPerCluster : Nat := clusterBytes v / 32

/-- Slot `i` of the directory at `start` (0 for the root) and where it lies. -/
def slotOf (start i : Nat) : Except Errno (Option (DirItem × Nat)) :=
  if start = 0 then
    if rootDirEntries v.header ≤ i then .ok none
    else if intMax - 32 < v.rootDirectory.sectorPos * sectorSize + i * 32 then .error .eio
    else .ok (some (v.rootDirectory.item i, v.rootDirectory.sectorPos * sectorSize + i * 32))
  else
    match dirCluster v img start (i / slotsPerCluster v) with
    | .error e => .error e
    | .ok none => .ok none
    | .ok (some cluster) =>
        let pos := fat16ClusterToSector v cluster * sectorSize + i % slotsPerCluster v * 32
        if intMax - 32 < pos then .error .eio
        -- the last sector below 2^31 is out of the streamer's reach
        else if intMax - pos / sectorSize * sectorSize < sectorSize then .error .einvarg
        else .ok (some (DirItem.load img pos, pos))

/-- Slots from `i` on before the first free one. -/
def countSlots (start : Nat) : Nat → Nat → Except Errno Nat
  | 0, _ => .error .eio
  | fuel + 1, i => do
      let slot ← slotOf v img start i
      match slot with
      | none => .ok i
      | some (item, _) =>
          if item.byte 0 = 0 then .ok i
          else if i = intMax / 32 then .error .eio
          else countSlots start fuel (i + 1)

def loadSlots (start : Nat) : Nat → Nat → (Nat → DirItem) → Except Errno (Nat → DirItem)
  | 0, _, items => .ok items
  | left + 1, i, items => do
      let slot ← (slotOf v img start i).mapError fun _ => .eio
      match slot with
      | none => .error .eio
      | some (item, _) => loadSlots start left (i + 1) (Function.update items i item)

def dirOf (item : DirItem) : Except Errno FatDirectory :=
  let start := fat16GetFirstCluster item
  if item.attrib &&& fileSubdirectory = 0 then .error .einvarg
  else if ¬ fat16ValidCluster v start then .error .eio
  else do
    let total ← countSlots v img start directoryFuel 0
    if 0x7FFFFFFF / 32 < total then .error .eio
    else do
      let items ← loadSlots v img start total 0 fun _ => .zero
      .ok { addr := 0, itemAddr := 0, item := items, firstCluster := start, total,
            sectorPos := 0, endingSectorPos := 0 }

def itemOf (e : Errno) (item : DirItem) (entryPos : Nat) : Except Errno FatItem :=
  if item.attrib &&& fileSubdirectory ≠ 0 then do
    let dir ← (dirOf v img item).mapError fun _ => e
    .ok { addr := 0, node := .directory dir, entryPos }
  else .ok { addr := 0, node := .file 0 item, entryPos }

def slotPosOf (dir : FatDirectory) (i : Nat) : Except Errno Nat :=
  if dir.firstCluster ≠ 0 then do
    let cluster ← clusterAt v img dir.firstCluster (i * 32)
    let location := fat16ClusterToSector v cluster * sectorSize + i * 32 % clusterBytes v
    if intMax - 32 < location then .error .eio else .ok location
  else .ok ((dir.sectorPos * sectorSize + i * 32) % 2 ^ 32)

/-! ## Lookup -/

def findIn (dir : FatDirectory) (name : List UInt8) : Nat → Nat → Except Errno FatItem
  | 0, _ => .error .enoent
  | left + 1, i =>
      if (dir.item i).byte 0 = 0 then .error .enoent
      else if Skipped (dir.item i) then findIn dir name left (i + 1)
      else if nameMatches (dir.item i) name then do
        let pos ← slotPosOf v img dir i
        itemOf v img .eio (dir.item i) pos
      else findIn dir name left (i + 1)

def descendTo : FatItem → List (List UInt8) → Except Errno FatItem
  | current, [] => .ok current
  | current, part :: path =>
      match current.node with
      | .file _ _ => .error .eio
      | .directory dir => do
          let item ← findIn v img dir part dir.total 0
          descendTo item path

def lookup (path : List (List UInt8)) : Except Errno FatItem :=
  match path with
  | [] => .error .einvarg
  | part :: path => do
      let item ← findIn v img v.rootDirectory part v.rootDirectory.total 0
      descendTo v img item path

/-! ## Chains and free space -/

def collectWalk (capacity : Nat) : Nat → Nat → List Nat → Except Errno (List Nat)
  | 0, _, _ => .error .eio
  | fuel + 1, current, chain =>
      if ¬ fat16ValidCluster v current ∨ v.maxWritable < current ∨ capacity ≤ chain.length ∨
          current ∈ chain then .error .eio
      else if eocStart ≤ fatAt v img 0 current then .ok (chain ++ [current])
      else if ¬ fat16ValidCluster v (fatAt v img 0 current) then .error .eio
      else collectWalk capacity fuel (fatAt v img 0 current) (chain ++ [current])

/-- The clusters of the file of an entry. -/
def chainOf (item : DirItem) : Except Errno (List Nat) :=
  if item.highFirstCluster ≠ 0 then .error .eio
  else if intMax < item.filesize then .error .efbig
  else do
    let chain ← (if item.lowFirstCluster = 0 then .ok []
      else collectWalk v img (v.maxWritable - 1) (v.maxWritable - 1 + 1) item.lowFirstCluster [])
    if chain.length < clustersFor v item.filesize then .error .eio else .ok chain

def checkChain (item : DirItem) : Except Errno Unit := do
  let chain ← chainOf v img item
  if chain.length ≠ clustersFor v item.filesize then .error .eio else .ok ()

/-- Free in both copies. -/
def FreeCluster (cluster : Nat) : Prop :=
  fatAt v img 0 cluster = 0 ∧ fatAt v img 1 cluster = 0

instance (cluster : Nat) : Decidable (FreeCluster v img cluster) :=
  inferInstanceAs (Decidable (_ ∧ _))

/-- The first free clusters from `cluster` on, until `chain` has `wanted` of them. -/
def freeFrom (wanted : Nat) : Nat → Nat → List Nat → List Nat
  | 0, _, chain => chain
  | left + 1, cluster, chain =>
      if wanted ≤ chain.length then chain
      else freeFrom wanted left (cluster + 1)
        (if FreeCluster v img cluster then chain ++ [cluster] else chain)

def allocOf (oldCount needed : Nat) : Except Errno (List Nat) :=
  if v.maxWritable - 1 < needed then .error .enospc
  else
    let fresh := freeFrom v img (needed - oldCount) (v.maxWritable - 1) 2 []
    if oldCount + fresh.length ≠ needed then .error .enospc else .ok fresh

/-! ## Room for a new entry -/

/-- First cluster of the directory of the last part of a path, and that part. -/
def parentOf : FatDirectory → List (List UInt8) → Except Errno (Nat × List UInt8)
  | _, [] => .error .einvarg
  | dir, [last] => .ok (dir.firstCluster, last)
  | dir, part :: next :: path => do
      let item ← findIn v img dir part dir.total 0
      match item.node with
      | .file _ _ => .error .einvarg
      | .directory dir => parentOf dir (next :: path)

/-- The slot a new entry takes, looking at slots `i`, `i + 1`, …. -/
def roomFrom (start : Nat) : Nat → Nat → Option Nat → Bool → Except Errno Nat
  | 0, _, _, _ => .error .eio
  | fuel + 1, i, slot, previousLfn => do
      let next ← slotOf v img start i
      match next with
      | none =>
          match slot with
          | none => .error .enospc
          | some slot => .ok slot
      | some (entry, pos) =>
          if entry.byte 0 = 0 then
            match slot with
            | some slot => .ok slot
            | none =>
                if previousLfn = true then .error .eio
                else do
                  let after ← (slotOf v img start (i + 1)).mapError fun _ => .eio
                  match after with
                  | none => .ok pos
                  | some (entry, _) => if entry.byte 0 ≠ 0 then .error .eio else .ok pos
          else
            roomFrom start fuel (i + 1)
              (if slot = none ∧ entry.byte 0 = 0xE5 ∧ entry.attrib ≠ 0x0F ∧ ¬ previousLfn then
                some pos else slot)
              (fat16IsLfn entry)

end

/-! ## Forgetting addresses -/

def FatDirectory.plain (dir : FatDirectory) : FatDirectory := { dir with addr := 0, itemAddr := 0 }

def FatItem.plain (item : FatItem) : FatItem :=
  { item with
    addr := 0
    node := match item.node with
      | .file _ entry => .file 0 entry
      | .directory dir => .directory dir.plain }

def FatDirectory.owned (dir : FatDirectory) : Multiset Nat :=
  {dir.addr} + if dir.itemAddr ≠ 0 then {dir.itemAddr} else 0

def FatItem.owned (item : FatItem) : Multiset Nat :=
  {item.addr} + match item.node with
    | .file addr _ => {addr}
    | .directory dir => dir.owned

/-- What the parent of a new entry owns; the root is nobody's. -/
def ownedParent (parent : Option FatItem) : Multiset Nat := parent.elim 0 FatItem.owned

def Shape.dir (h : Multiset Nat) : Shape FatDirectory FatDirectory :=
  ⟨fun d => d.owned + h, fun _ => True, FatDirectory.plain⟩

def Shape.item (h : Multiset Nat) : Shape FatItem FatItem :=
  ⟨fun i => i.owned + h, fun _ => True, FatItem.plain⟩

theorem frees_directory (dir : FatDirectory) : Frees dir.owned (fat16FreeDirectory dir) := by
  unfold FatDirectory.owned fat16FreeDirectory
  by_cases h : dir.itemAddr ≠ 0
  · simp only [if_pos h]
    exact (frees_kfreeAt dir.addr).comp (frees_kfreeAt dir.itemAddr)
  · simp only [if_neg h]
    exact (frees_kfreeAt dir.addr).comp frees_nothing

theorem frees_item (item : FatItem) : Frees item.owned (fat16FatItemFree item) := by
  unfold FatItem.owned fat16FatItemFree
  cases item.node with
  | file addr entry => exact (frees_kfreeAt item.addr).comp (frees_kfreeAt addr)
  | directory dir => exact (frees_kfreeAt item.addr).comp (frees_directory dir)

end Rorthox.Fat
