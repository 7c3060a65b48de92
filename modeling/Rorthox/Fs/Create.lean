import Rorthox.Fat.Admission
import Rorthox.Fat.Create
import Rorthox.Fs.ShortName

/-!
# Creating a file

A creation adds its name to the directory and changes no other.
-/

namespace Rorthox.Fs

open Lib Fat Disk Memory

/-- The parser finds the names of an accepted path. -/
theorem parsed_names {text : List UInt8} (hok : fileValidatePath text = true) {st : FsState}
    {root : PathRoot}
    (h : (pathparserParse text st).1 = .ok root) : ∀ p ∈ root.parts.map PathPart.part, Name p := by
  obtain ⟨hlen, names, hpath⟩ := (validatePath_iff text).mp hok
  rcases parse_cases text st with hview | ⟨-, e, he⟩
  · rw [parseOf_path hlen hpath, h] at hview
    rw [(Prod.mk.inj (Except.ok.inj hview)).2]
    exact hpath.names_ok
  · rw [h] at he
    cases he

/-! ## The directory with the new name -/

theorem plain_fileItem {f : FatItem} {entry : DirItem} {pos : Nat}
    (h : f.plain = fileItem entry pos) : f.entryPos = pos ∧ ∃ addr, f.node = .file addr entry := by
  refine ⟨congrArg FatItem.entryPos h, ?_⟩
  have hnode := congrArg FatItem.node h
  unfold FatItem.plain fileItem at hnode
  cases hf : f.node with
  | directory dir =>
    rw [hf] at hnode
    cases hnode
  | file addr e =>
    rw [hf] at hnode
    cases hnode
    exact ⟨addr, rfl⟩

theorem entryPos_plain (r : Except Errno FatItem) :
    r.map FatItem.entryPos = (r.map FatItem.plain).map FatItem.entryPos := by
  cases r <;> rfl

/-- What a lookup finds after a creation, in terms of what it found before. -/
theorem find_after {s s' : FsState} {n : Nat} (hs : RootServed s.vol s.dev.image)
    (hf : Fitted s.vol n) {d : DirRef}
    {l : List (DirItem × Nat)} (hl : Listing s.vol s.dev.image d l) {i pos : Nat}
    (hroom : RoomAt s.vol s.dev.image d l i pos) {base ext last : List UInt8} (hb : base.length ≤ 8)
    (he : ext.length ≤ 3) (hused : (newEntry base ext).byte 0 ≠ 0)
    (hnamed : Named (newEntry base ext) last)
    (hnew : firstNamed l last = none) (hvol : s'.vol = fat16Publish pos (newEntry base ext) s.vol)
    (himg : s'.dev.image = (entryStore pos (newEntry base ext)).apply s.dev.image)
    {name : List UInt8} (hname : (0 : UInt8) ∉ name) {dir dir' : FatDirectory}
    (hdir : InMemory s d dir)
    (hdir' : InMemory s' d dir') (hcalm : Calm s (fat16FindItemInDirectory dir name s).2)
    (hcalm' : Calm s' (fat16FindItemInDirectory dir' name s').2) :
    (SameName name last → ∃ f addr, (fat16FindItemInDirectory dir' name s').1 = .ok f ∧
      f.entryPos = pos ∧ f.node = .file addr (newEntry base ext)) ∧
    (¬ SameName name last →
      (fat16FindItemInDirectory dir' name s').1.map FatItem.entryPos =
        (fat16FindItemInDirectory dir name s).1.map FatItem.entryPos ∧
      ∀ f, (fat16FindItemInDirectory dir name s).1 = .ok f → f.entryPos ≠ pos ∧
        DirItem.load s'.dev.image f.entryPos = DirItem.load s.dev.image f.entryPos) := by
  have hs' : RootServed s'.vol s'.dev.image := by
    rw [hvol, himg]
    exact hroom.served hl hs hf hused
  have hl' : Listing s'.vol s'.dev.image d (placed l i (newEntry base ext, pos)) := by
    rw [hvol, himg]
    exact hroom.listing hl hf hused
  have hfind := hdir.find hs hl hname hcalm
  have hfind' := hdir'.find hs' hl' hname hcalm'
  refine ⟨fun hsame => ?_, fun hdiff => ?_⟩
  · have hnone : firstNamed l name = none := by
      rw [firstNamed_eq_none] at hnew ⊢
      exact fun x hx hnx => hnew x hx ((named_congr hsame).mp hnx)
    rw [firstNamed_placed_self hnone ((named_congr hsame).mpr hnamed)] at hfind'
    dsimp only at hfind'
    rw [itemOf, if_neg (by rw [newEntry_attrib hb he]; decide)] at hfind'
    obtain ⟨f, hok, hplain⟩ := except_map_ok.mp hfind'
    obtain ⟨hpos, addr, hnode⟩ := plain_fileItem hplain
    exact ⟨f, addr, hok, hpos, hnode⟩
  · have hother : ¬ Named (newEntry base ext) name := fun h => hdiff (h.2.symm.trans hnamed.2)
    have hold : ∀ x, l[i]? = some x → ¬ Named x.1 name := by
      intro x hx hnx
      rcases hroom.kind with ⟨old, hget, hdel⟩ | ⟨rfl, -⟩
      · rw [hx] at hget
        obtain rfl := Option.some.inj hget
        exact hnx.1 (Or.inl hdel)
      · rw [List.getElem?_eq_none le_rfl] at hx
        cases hx
    rw [firstNamed_placed_other hother hold] at hfind'
    rw [entryPos_plain (fat16FindItemInDirectory dir' name s').1, hfind',
      entryPos_plain (fat16FindItemInDirectory dir name s).1, hfind]
    cases hfirst : firstNamed l name with
    | none =>
      refine ⟨rfl, fun f hok => ?_⟩
      rw [hok, hfirst] at hfind
      cases hfind
    | some e =>
      have hmem := List.mem_of_find?_eq_some hfirst
      have hshown : Named e.1 name := by simpa using List.find?_some hfirst
      obtain ⟨j, hj⟩ := List.mem_iff_getElem?.mp hmem
      have hne : e.2 ≠ pos := hroom.other_place hl hj fun hji => hold e (hji ▸ hj) hshown
      rw [hvol, himg]
      refine ⟨hroom.itemOf_after hl hs hf hused e.1 e.2, fun f hok => ?_⟩
      rw [hok, hfirst] at hfind
      have hpos : f.entryPos = e.2 := itemOf_pos (f := f.plain) hfind.symm
      rw [hpos]
      exact ⟨hne, entryStore_load_other hroom.slot.aligned (hl.slot j e hj).1.aligned hne⟩

/-- Creating a file adds its name and hides no other.

The path is one that the check accepts, `d` the directory of its last name and `l` what that
directory shows, without this name. A creation that succeeds stores an empty file in a
deleted slot, or in the first free one with nothing behind it that could come to light; the
directory then shows the new entry and the old ones. In the directory as it is loaded before
and after, a lookup of the new name in any case gives the new entry, and that of another name
the same slot with the same bytes or the same error as before. If the directory is reported
full, it has no slot left up to its allocated end. -/
theorem create_visible {s : FsState} {n : Nat} (hs : RootServed s.vol s.dev.image)
    (hf : Fitted s.vol n)
    (hid : s.dev.identify = .ok n) {text : List UInt8} (htext : fileValidatePath text = true)
    {st : FsState}
    {root : PathRoot} (hparse : (pathparserParse text st).1 = .ok root) {d : DirRef}
    {last : List UInt8}
    {l : List (DirItem × Nat)}
    (hparent : ParentDir s.vol s.dev.image .root (root.parts.map PathPart.part) d last)
    (hl : Listing s.vol s.dev.image d l) (hnew : firstNamed l last = none) :
    (∀ item s', fat16Create (root.parts.map PathPart.part) s = (.ok item, s') →
      ∃ i addr entry, item.node = .file addr entry ∧ entry.filesize = 0 ∧
        entry.lowFirstCluster = 0 ∧ entry.highFirstCluster = 0 ∧ entry.attrib = fileArchived ∧
        (i = l.length ∨ ∃ old, l[i]? = some (old, item.entryPos) ∧ old.byte 0 = 0xE5) ∧
        Listing s'.vol s'.dev.image d (placed l i (entry, item.entryPos)) ∧
        lfnBefore (placed l i (entry, item.entryPos)) i = false ∧
        (∀ j e, (placed l i (entry, item.entryPos))[j]? = some e → (Named e.1 last ↔ j = i)) ∧
        ∀ name dir dir', (0 : UInt8) ∉ name → InMemory s d dir → InMemory s' d dir' →
          Calm s (fat16FindItemInDirectory dir name s).2 →
            Calm s' (fat16FindItemInDirectory dir' name s').2 →
          (SameName name last → ∃ f addr, (fat16FindItemInDirectory dir' name s').1 = .ok f ∧
            f.entryPos = item.entryPos ∧ f.node = .file addr entry) ∧
          (¬ SameName name last →
            (fat16FindItemInDirectory dir' name s').1.map FatItem.entryPos =
              (fat16FindItemInDirectory dir name s).1.map FatItem.entryPos ∧
            ∀ f, (fat16FindItemInDirectory dir name s).1 = .ok f → f.entryPos ≠ item.entryPos ∧
              DirItem.load s'.dev.image f.entryPos = DirItem.load s.dev.image f.entryPos)) ∧
    ((fat16Create (root.parts.map PathPart.part) s).1 = .error .enospc →
      EndsAt s.vol s.dev.image d l.length ∧ ∀ j e, l[j]? = some e → ¬ Usable l j e.1) := by
  have hnames := parsed_names htext hparse
  have hplace := create_parent hs hparent fun p hp => (hnames p hp).no_zero
  have hsearch := roomFrom_cases hs hl directoryFuel 0 none (Nat.zero_le l.length)
    (fun p hp => (by cases hp)) fun _ j e hj => absurd hj (Nat.not_lt_zero j)
  obtain ⟨base, ext, hname, hb, he, hused, hnamed⟩ := (hnames last hparent.mem).entry
  refine ⟨fun item s' hcreate => ?_, fun hfull => ?_⟩
  · obtain ⟨start, last', slot, base', ext', hparent', hslot, hname', hitem, hvol, himg⟩ :=
      create_ok hs.rooted hid (congrArg Prod.fst hcreate)
    rw [hplace] at hparent'
    cases hparent'
    rw [hname] at hname'
    cases hname'
    rw [hcreate] at hvol himg
    obtain ⟨i, hroom⟩ := hsearch.1 slot hslot
    obtain ⟨rfl, addr, hnode⟩ := plain_fileItem hitem
    refine ⟨i, addr, newEntry base ext, hnode, newEntry_filesize hb he, newEntry_first hb he,
      newEntry_high hb he,
      newEntry_attrib hb he, ?_, ?_, ?_, fun j e hj => ?_,
        fun name dir dir' hzero hdir hdir' hcalm hcalm' =>
        find_after hs hf hl hroom hb he hused hnamed hnew hvol himg hzero hdir hdir' hcalm hcalm'⟩
    · exact hroom.kind.symm.imp_left And.left
    · rw [hvol, himg]
      exact hroom.listing hl hf hused
    · rw [lfnBefore_placed hroom.le_length]
      exact hroom.lfn
    · rw [placed_getElem? hroom.le_length] at hj
      by_cases hji : j = i
      · rw [if_pos hji] at hj
        obtain rfl := Option.some.inj hj
        exact iff_of_true hnamed hji
      · rw [if_neg hji] at hj
        exact iff_of_false (firstNamed_eq_none.mp hnew e (List.mem_of_getElem? hj)) hji
  · obtain ⟨start, last', hparent', hroom⟩ := create_full hfull
    rw [hplace] at hparent'
    cases hparent'
    exact hsearch.2 hroom

/-! A root with the file `B`, a part of a long name with a deleted entry behind it, another deleted
entry, and the file `C`. -/

def usedDisk : Bytes := fun p =>
  if p / 512 = 35 then
    if p % 32 = 0 then [0x42, 0x41, 0xE5, 0xE5, 0x43].getD (p % 512 / 32) 0
    else if p % 32 = 11 then [0x20, 0x0F, 0x20, 0x20, 0x20].getD (p % 512 / 32) 0
    else 0
  else treeDisk p

def usedBoot : FsState := { treeBoot with dev := { treeBoot.dev with origin := usedDisk } }

/-- Mounted, and as `fat16_prepare_write` leaves it. -/
def usedState : FsState :=
  { (fat16Resolve usedBoot).2 with vol := readied (fat16Resolve usedBoot).2.vol 4200 }

theorem served_readied {v : FatPrivate} {img : Bytes} (h : RootServed v img) (n : Nat) :
    RootServed (readied v n) img :=
  ⟨⟨h.rooted.first, h.rooted.pos, h.rooted.total⟩,
    ⟨h.cached.item, h.cached.total_le, h.cached.used, h.cached.free⟩, h.bound⟩

/-- `0:/a` there goes to the second deleted entry: the first one belongs to the long name. -/
theorem create_visible_reuse : ∃ item s' l i entry, Listing usedState.vol usedState.dev.image .root
    l ∧
    l.length = 5 ∧ fat16Create [[0x61]] usedState = (.ok item, s') ∧ item.entryPos =
      35 * 512 + 3 * 32 ∧
    Listing s'.vol s'.dev.image .root (placed l i (entry, item.entryPos)) := by
  have hs : RootServed usedState.vol usedState.dev.image := by
    unfold usedState
    dsimp only
    exact served_readied (resolve_served (by decide +kernel) (by decide +kernel)) 4200
  have hf : Fitted usedState.vol 4200 := ⟨by decide +kernel, by decide +kernel⟩
  have hid : usedState.dev.identify = .ok 4200 := by decide +kernel
  have hpath : fileValidatePath [0x30, 0x3A, 0x2F, 0x61] = true := by decide
  have hname : Name [0x61] := ⟨[0x61], ⟨by decide, by decide, fun c hc => by
    obtain rfl := List.mem_singleton.mp hc
    exact ⟨by decide, by decide, by decide, by decide, by decide⟩⟩, Or.inl rfl⟩
  have hnames : PathOf [[0x61]] [0x30, 0x3A, 0x2F, 0x61] :=
    ⟨by decide, fun p hp => List.mem_singleton.mp hp ▸ hname, by decide⟩
  have hheap : (pathparserParse [0x30, 0x3A, 0x2F, 0x61] usedState).2.heap.refusals =
      usedState.heap.refusals := by decide +kernel
  obtain ⟨root, hroot, -, hparts⟩ := parse_path (by decide) hnames hheap
  have hpos : (fat16Create [[0x61]] usedState).1.map FatItem.entryPos =
      .ok (35 * 512 + 3 * 32) := by
    decide +kernel
  obtain ⟨item, hok, hpos⟩ := except_map_ok.mp hpos
  have hrun : fat16Create (root.parts.map PathPart.part) usedState =
      (.ok item, (fat16Create [[0x61]] usedState).2) := by
    rw [hparts, ← hok]
  have hparent : ParentDir usedState.vol usedState.dev.image .root (root.parts.map PathPart.part)
      .root [0x61] := by
    rw [hparts]
    exact .here
  obtain ⟨i, addr, entry, -, -, -, -, -, -, hl, -⟩ :=
    (create_visible hs hf hid hpath hroot hparent (listing_root hs) (by decide +kernel)).1
      item _ hrun
  exact ⟨item, _, _, i, entry, listing_root hs, by decide +kernel, by rw [← hok], hpos, hl⟩

end Rorthox.Fs
