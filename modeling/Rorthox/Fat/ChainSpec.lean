import Rorthox.Fat.LookupSpec

/-!
# Chains, free clusters and free slots

The reading functions of `Mutate` against their values in `Image`.
-/

namespace Rorthox.Fat

open Lib Disk Memory

variable {v : FatPrivate} {img : Bytes} {held : Multiset Nat}

theorem reading_collectLoop (capacity fuel : Nat) : ∀ (current : Nat) (chain : List Nat),
    Reading v img held held (.val held) (collectWalk v img capacity fuel current chain)
      (collectLoop v capacity fuel current chain) := by
  induction fuel with
  | zero => intro current chain; exact reading_raise rfl
  | succ fuel ih =>
    intro current chain
    refine Reading.guard fun hok => ?_
    rw [not_or, not_not] at hok
    refine (reading_fatEntry (valid_lt hok.1)).andThen fun next _ hnext => ?_
    obtain rfl : next = _ := hnext
    by_cases heoc : eocStart ≤ fatAt v img 0 current
    · rw [if_pos heoc, if_pos heoc]
      exact reading_pure rfl rfl trivial
    · rw [if_neg heoc, if_neg heoc]
      exact Reading.guard fun _ => ih _ _

/-- The memory of a chain's list; address 0 stands for none. -/
def listMem (addr : Nat) : Multiset Nat := if addr ≠ 0 then {addr} else 0

def Shape.chain (h : Multiset Nat) : Shape (List Nat × Nat) (List Nat) :=
  ⟨fun c => listMem c.2 + h, fun _ => True, Prod.fst⟩

theorem frees_chain (addr : Nat) : Frees (listMem addr) (kfreeAt addr) := by
  unfold listMem
  by_cases h : addr ≠ 0
  · rw [if_pos h]
    exact frees_kfreeAt addr
  · rw [if_neg h]
    obtain rfl : addr = 0 := by omega
    intro s
    refine ⟨rfl, rfl, rfl, rfl, rfl, fun base m ho => ?_⟩
    rw [zero_add] at ho
    exact ho.of_heap (kfree_null s.heap)

theorem reading_collectChain (item : DirItem) :
    Reading v img held held (.chain held) (chainOf v img item) (fat16CollectChain item) := by
  refine Reading.lookVol (Reading.guard fun _ => Reading.guard fun _ => ?_)
  have halloc : Reading v img held held
      (⟨fun p => listMem p + held, fun _ => True, fun _ => ()⟩ : Shape Nat Unit)
      (.ok ())
      (if 0 < v.maxWritable - 1 then
          kzalloc .enomem ((v.maxWritable - 1) * 2 + (v.maxWritable + 8) / 8)
        else pure 0) := by
    by_cases h : 0 < v.maxWritable - 1
    · rw [if_pos h]
      intro s hv himg
      have halloc : Reading v img held held (.addr held) (.ok ())
          (kzalloc .enomem ((v.maxWritable - 1) * 2 + (v.maxWritable + 8) / 8)) :=
        reading_kzalloc (by decide) _
      refine (halloc s hv himg).mono fun r s' h1 => ?_
      refine ⟨h1.quiet, fun base m ho => ?_, fun _ _ => trivial, h1.outcome⟩
      have h2 := h1.heap base m ho
      cases r with
      | ok p =>
        show Owns base (listMem p + held + m) s'.heap
        have hp : p ≠ 0 := h1.good p rfl
        rw [listMem, if_pos hp]
        exact h2
      | error e => exact h2
    · rw [if_neg h]
      refine reading_pure rfl ?_ trivial
      show listMem 0 + held = held
      rw [listMem, if_neg (by simp), zero_add]
  refine halloc.andThen fun addr _ _ => ?_
  refine Reading.undo (frees_chain addr) ?_
  have hwalk : Reading v img (listMem addr + held) (listMem addr + held)
      (.val (listMem addr + held))
      (if item.lowFirstCluster = 0 then .ok []
        else collectWalk v img (v.maxWritable - 1) (v.maxWritable - 1 + 1) item.lowFirstCluster [])
      (if item.lowFirstCluster = 0 then pure []
        else collectLoop v (v.maxWritable - 1) (v.maxWritable - 1 + 1) item.lowFirstCluster
          []) := by
    split
    · exact reading_pure rfl rfl trivial
    · exact reading_collectLoop _ _ _ _
  refine hwalk.bind fun chain _ _ => Reading.guard fun _ => ?_
  exact reading_pure rfl rfl trivial

theorem reading_checkChain (item : DirItem) :
    Reading v img held held (.val held) (checkChain v img item) (fat16CheckFileChain item) := by
  refine Reading.lookVol ((reading_collectChain item).bind fun c _ _ => ?_)
  obtain ⟨chain, addr⟩ := c
  exact Reading.finish (frees_chain addr) (reading_refuse rfl trivial)

/-! ## Free clusters -/

theorem reading_fatSectors {sector : Nat} (h : sector < 2 ^ 16) :
    Reading v img held held (.val held)
      (.ok ((fun i => img ((reservedSectors v.header + sector) * sectorSize + i)),
        fun i => img ((reservedSectors v.header + sectorsPerFat v.header + sector) *
          sectorSize + i)))
      (fatSectors v sector) := by
  have h1 := le16_lt v.header 14
  have h2 := le16_lt v.header 22
  refine (reading_block ?_).andThen fun first _ hfirst => ?_
  · unfold reservedSectors lbaLimit
    omega
  · refine (reading_block ?_).andThen fun second _ hsecond => ?_
    · unfold reservedSectors sectorsPerFat lbaLimit
      omega
    · obtain rfl : first = _ := hfirst
      obtain rfl : second = _ := hsecond
      exact reading_pure rfl rfl trivial

/-- The FAT sector at hand is the one on the disk. -/
def LoadedFats (v : FatPrivate) (img : Bytes) (loaded : Option (Nat × Bytes × Bytes)) : Prop :=
  ∀ sector first second, loaded = some (sector, first, second) →
    (first = fun i => img ((reservedSectors v.header + sector) * sectorSize + i)) ∧
    second = fun i => img ((reservedSectors v.header + sectorsPerFat v.header + sector) *
      sectorSize + i)

theorem reading_cachedFatSectors {loaded : Option (Nat × Bytes × Bytes)} {sector : Nat}
    (h : sector < 2 ^ 16) (hl : LoadedFats v img loaded) :
    Reading v img held held (.val held)
      (.ok ((fun i => img ((reservedSectors v.header + sector) * sectorSize + i)),
        fun i => img ((reservedSectors v.header + sectorsPerFat v.header + sector) *
          sectorSize + i)))
      (cachedFatSectors v loaded sector) := by
  unfold cachedFatSectors
  cases loaded with
  | none => exact reading_fatSectors h
  | some l =>
    obtain ⟨s, first, second⟩ := l
    dsimp only
    by_cases hs : s = sector
    · rw [if_pos hs]
      obtain ⟨rfl, rfl⟩ := hl s first second rfl
      subst hs
      exact reading_pure rfl rfl trivial
    · rw [if_neg hs]
      exact reading_fatSectors h

theorem sector_entry (v : FatPrivate) (img : Bytes) (cluster : Nat) :
    le16 (fun i => img ((reservedSectors v.header + cluster / 256) * sectorSize + i))
        (cluster % 256 * 2) = fatAt v img 0 cluster ∧
      le16 (fun i => img ((reservedSectors v.header + sectorsPerFat v.header + cluster / 256) *
        sectorSize + i)) (cluster % 256 * 2) = fatAt v img 1 cluster := by
  have h0 : (reservedSectors v.header + cluster / 256) * sectorSize + cluster % 256 * 2 =
      fatEntryPos v 0 cluster := by
    unfold fatEntryPos sectorSize
    omega
  have h1 : (reservedSectors v.header + sectorsPerFat v.header + cluster / 256) * sectorSize +
      cluster % 256 * 2 = fatEntryPos v 1 cluster := by
    unfold fatEntryPos sectorSize
    omega
  rw [le16_shift, le16_shift, h0, h1]
  exact ⟨rfl, rfl⟩

theorem reading_allocateLoop (wanted left : Nat) :
    ∀ {cluster : Nat} {loaded : Option (Nat × Bytes × Bytes)} (chain : List Nat),
      cluster + left ≤ 2 ^ 16 → LoadedFats v img loaded →
      Reading v img held held (.val held) (.ok (freeFrom v img wanted left cluster chain))
        (allocateLoop v wanted left cluster loaded chain) := by
  induction left with
  | zero => intro cluster loaded chain _ _; exact reading_pure rfl rfl trivial
  | succ left ih =>
    intro cluster loaded chain hle hl
    unfold freeFrom allocateLoop
    by_cases hw : wanted ≤ chain.length
    · rw [if_pos hw, if_pos hw]
      exact reading_pure rfl rfl trivial
    · rw [if_neg hw, if_neg hw]
      refine (reading_cachedFatSectors (by omega) hl).andThen fun fs _ hfs => ?_
      obtain rfl : fs = _ := hfs
      obtain ⟨h0, h1⟩ := sector_entry v img cluster
      dsimp only
      rw [h0, h1]
      refine ih _ (by omega) fun sector first second he => ?_
      cases he
      exact ⟨rfl, rfl⟩

theorem reading_allocate (hmax : v.maxWritable < 2 ^ 16) (oldCount needed : Nat) :
    Reading v img held held (.val held) (allocOf v img oldCount needed)
      (fat16Allocate oldCount needed) := by
  refine Reading.lookVol (Reading.guard fun _ => ?_)
  refine (reading_allocateLoop _ _ [] (by omega) fun _ _ _ he => (by cases he)).andThen
    fun fresh _ hf => ?_
  obtain rfl : fresh = _ := hf
  exact Reading.guard fun _ => reading_pure rfl rfl trivial

/-! ## Free slots -/

theorem reading_findSlot {start : Nat} (fuel : Nat) :
    ∀ {i : Nat} {cursor : DirectoryCursor} (slot : Option Nat) (previousLfn : Bool),
      CursorAt v img start i cursor →
      Reading v img held held (.val held) (roomFrom v img start fuel i slot previousLfn)
        (findSlotLoop fuel cursor slot previousLfn) := by
  induction fuel with
  | zero => intro i cursor slot previousLfn _; exact reading_raise rfl
  | succ fuel ih =>
    intro i cursor slot previousLfn h
    refine (reading_directoryNext h).bind fun o hgood _ => ?_
    cases o with
    | none =>
      cases slot with
      | none => exact reading_raise rfl
      | some slot => exact reading_pure rfl rfl trivial
    | some o =>
      obtain ⟨entry, pos, cursor'⟩ := o
      have hnext : CursorAt v img start (i + 1) cursor' := hgood _ _ _ rfl
      show Reading v img held held _ (if entry.byte 0 = 0 then _ else _)
        (if entry.byte 0 = 0 then _ else _)
      by_cases h0 : entry.byte 0 = 0
      · rw [if_pos h0, if_pos h0]
        cases slot with
        | some slot => exact reading_pure rfl rfl trivial
        | none =>
          refine Reading.guard fun _ => ?_
          refine ((reading_directoryNext hnext).recode fun e _ => (by decide)).bind fun o _ _ => ?_
          cases o with
          | none => exact reading_pure rfl rfl trivial
          | some o => exact Reading.guard fun _ => reading_pure rfl rfl trivial
      · rw [if_neg h0, if_neg h0]
        exact ih _ _ hnext

/-! ## The directory of a new entry -/

theorem frees_parent (parent : Option FatItem) :
    Frees (ownedParent parent) fun s => parent.elim s (fat16FatItemFree · s) := by
  cases parent with
  | none => exact frees_nothing
  | some item => exact frees_item item

def Shape.parent (h : Multiset Nat) :
    Shape (FatDirectory × Option FatItem × List UInt8) (Nat × List UInt8) :=
  ⟨fun r => ownedParent r.2.1 + h, fun _ => True, fun r => (r.1.firstCluster, r.2.2)⟩

theorem parentOf_plain (v : FatPrivate) (img : Bytes) (dir : FatDirectory)
    (path : List (List UInt8)) : parentOf v img dir.plain path = parentOf v img dir path := by
  rcases path with _ | ⟨part, _ | ⟨next, path⟩⟩
  · rfl
  · rfl
  · rw [parentOf, parentOf, findIn_plain]
    rfl

/-- Give up what is held and stop. -/
theorem reading_drop {α β : Type} {sh : Shape α β} {q : Multiset Nat} {f : FsState → FsState}
    {e : Errno} (hf : Frees q f) :
    Reading v img (q + held) held sh (.error e) (Prog.change f >>= fun _ => Prog.raise e) := by
  intro s _ _
  refine ⟨hf.quiet s, fun base m h => ?_, fun a ha => (by cases ha), Or.inl ⟨hf.calm s, rfl⟩⟩
  rw [add_assoc] at h
  exact (hf s).2.2.2.2.2 base _ h

/-- The search for the parent goes on below an item. -/
def parentBelow (v : FatPrivate) (img : Bytes) (path : List (List UInt8)) (item : FatItem) :
    Except Errno (Nat × List UInt8) :=
  match item.node with
  | .file _ _ => .error .einvarg
  | .directory dir => parentOf v img dir path

theorem reading_createParent (path : List (List UInt8)) :
    ∀ (dir : FatDirectory) (parent : Option FatItem),
      Reading v img (ownedParent parent + held) held (.parent held) (parentOf v img dir path)
        (createParent dir parent path) := by
  induction path with
  | nil => intro dir parent; exact reading_drop (frees_parent parent)
  | cons part path ih =>
    intro dir parent
    cases path with
    | nil => exact reading_pure rfl rfl trivial
    | cons next path =>
      have hfind : Reading v img (ownedParent parent + held) held (.item held)
          (findIn v img dir part dir.total 0)
          (Prog.finish (fat16FindItemInDirectory dir part)
            fun s => parent.elim s (fat16FatItemFree · s)) := by
        refine Reading.finish (frees_parent parent) ?_
        refine (reading_findLoop dir part dir.total 0).reown fun item => ?_
        show ownedParent parent + (item.owned + held) = item.owned + (ownedParent parent + held)
        rw [add_left_comm]
      refine hfind.bind fun item _ _ => ?_
      show Reading v img (item.owned + held) held _ (parentBelow v img (next :: path) item.plain) _
      unfold parentBelow FatItem.plain
      cases hn : item.node with
      | file addr entry => exact reading_drop (frees_item item)
      | directory dir' =>
        dsimp only
        rw [parentOf_plain]
        exact ih dir' (some item)

end Rorthox.Fat
