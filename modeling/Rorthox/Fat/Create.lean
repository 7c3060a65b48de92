import Rorthox.Fat.Codes
import Rorthox.Fat.Room

/-!
# Making an entry

What a creation leaves behind, and what a lookup finds afterwards: the new entry under its
name, and under every other name what it found before.
-/

namespace Rorthox.Fat

open Lib Disk Memory

variable {v : FatPrivate} {img : Bytes} {n : Nat}

/-! ## Lookups afterwards -/

section

variable {d : DirRef} {l : List (DirItem × Nat)} {i pos : Nat} {item : DirItem}

/-- Taking the item of an entry gives the same position, or the same error, as before. -/
theorem RoomAt.itemOf_after (h : RoomAt v img d l i pos) (hl : Listing v img d l)
    (hs : RootServed v img)
    (hf : Fitted v n) (hused : item.byte 0 ≠ 0) (entry : DirItem) (q : Nat) :
    (itemOf (fat16Publish pos item v) ((entryStore pos item).apply img) .eio entry q).map
      FatItem.entryPos = (itemOf v img .eio entry q).map FatItem.entryPos := by
  rw [itemOf, itemOf]
  by_cases hdir : entry.attrib &&& fileSubdirectory ≠ 0
  · rw [if_pos hdir, if_pos hdir]
    rcases dirOf_cases hs hdir with ⟨dir, lo, hok, -, hlo, -⟩ | ⟨⟨e, herr⟩, hbad⟩
    · obtain ⟨lo', hlo'⟩ := h.listing_sub hl hf hused hlo
      rcases dirOf_cases (h.served hl hs hf hused) hdir with ⟨dir', -, hok', -, -, -⟩ | ⟨-, hbad'⟩
      · rw [hok, hok']
        rfl
      · exact absurd hbad' hlo'.not_broken
    · have hbad' := broken_commit hf h.slot hused hbad
      rcases dirOf_cases (h.served hl hs hf hused) hdir with ⟨-, lo', -, -, hlo', -⟩ |
        ⟨⟨e', herr'⟩, -⟩
      · exact absurd hbad' hlo'.not_broken
      · rw [herr, herr']
        rfl
  · rw [if_neg hdir, if_neg hdir]

end

section

variable {l : List (DirItem × Nat)} {i : Nat} {e : DirItem × Nat} {name : List UInt8}

theorem firstNamed_eq_none : firstNamed l name = none ↔ ∀ x ∈ l, ¬ Named x.1 name := by
  rw [firstNamed, List.find?_eq_none]
  simp

/-- The name leads to the new entry when no other has it. -/
theorem firstNamed_placed_self (hnone : firstNamed l name = none) (hname : Named e.1 name) :
    firstNamed (placed l i e) name = some e := by
  have hbefore : firstNamed (l.take i) name = none :=
    firstNamed_eq_none.mpr fun x hx => firstNamed_eq_none.mp hnone x (List.mem_of_mem_take hx)
  rw [firstNamed] at hbefore
  rw [firstNamed, placed, List.find?_append, hbefore, List.find?_cons_of_pos (by simpa using hname)]
  rfl

/-- Other names lead where they led, as the entry it replaces had no name. -/
theorem firstNamed_placed_other (hname : ¬ Named e.1 name)
    (hold : ∀ x, l[i]? = some x → ¬ Named x.1 name) :
    firstNamed (placed l i e) name = firstNamed l name := by
  have hrest : (l.drop i).find? (fun x => Named x.1 name) = (l.drop (i + 1)).find? fun x =>
      Named x.1 name := by
    rcases Nat.lt_or_ge i l.length with hlt | hge
    · rw [List.drop_eq_getElem_cons hlt,
        List.find?_cons_of_neg (by simpa using hold _ (List.getElem?_eq_getElem hlt))]
    · rw [List.drop_eq_nil_of_le hge, List.drop_eq_nil_of_le (by omega)]
  calc firstNamed (placed l i e) name
      = ((l.take i).find? fun x => Named x.1 name).or ((l.drop (i + 1)).find? fun x =>
        Named x.1 name) := by
        rw [firstNamed, placed, List.find?_append, List.find?_cons_of_neg (by simpa using hname)]
    _ = firstNamed l name := by
        rw [← hrest, ← List.find?_append, List.take_append_drop, firstNamed]

end

variable {s : FsState} {d : DirRef} {path : List (List UInt8)} {last : List UInt8}

theorem InMemory.listed {dir : FatDirectory} {l : List (DirItem × Nat)} (h : InMemory s d dir)
    (hs : RootServed s.vol s.dev.image) (hl : Listing s.vol s.dev.image d l) :
    Listed s.vol s.dev.image dir l := by
  cases h with
  | root =>
    rw [hl.unique (listing_root hs)]
    exact listed_root hs
  | @sub s₀ entry _ hvol himg h =>
    have hdir := loadDirectory_ok h
    rw [hvol, himg] at hdir
    have hattr := (except_guard_ok.mp hdir).1
    rcases dirOf_cases hs hattr with ⟨dir', l', hok, hfirst, hl', htotal, hitem⟩ | ⟨⟨e, herr⟩, -⟩
    · rw [hdir] at hok
      obtain rfl := Except.ok.inj hok
      have hstart : dir.firstCluster = entry.lowFirstCluster := hfirst
      rw [← hstart] at hl'
      rw [hl.unique hl']
      exact ⟨htotal, hitem⟩
    · rw [hdir] at herr
      cases herr

/-- A lookup in a directory that was loaded. -/
theorem InMemory.find {dir : FatDirectory} {l : List (DirItem × Nat)} (h : InMemory s d dir)
    (hs : RootServed s.vol s.dev.image) (hl : Listing s.vol s.dev.image d l) {name : List UInt8}
    (hname : (0 : UInt8) ∉ name) (hcalm : Calm s (fat16FindItemInDirectory dir name s).2) :
    (fat16FindItemInDirectory dir name s).1.map FatItem.plain =
      match firstNamed l name with
      | none => .error .enoent
      | some e => itemOf s.vol s.dev.image .eio e.1 e.2 := by
  have hlisted := h.listed hs hl
  have hread := (reading_findLoop dir name dir.total 0).ran (s := s)
  have hval := hread.calm_ok hcalm
  rw [hlisted.total, findIn_listed hlisted hname l.length 0 (by omega), List.drop_zero] at hval
  rw [← hlisted.total] at hval
  exact hval

/-! ## Creating -/

variable (v img) in
/-- The parts of a path before the last lead from a directory to another one. -/
inductive ParentDir : DirRef → List (List UInt8) → DirRef → List UInt8 → Prop where
  | here {d : DirRef} {last : List UInt8} : ParentDir d [last] d last
  | down {d d' : DirRef} {part next last : List UInt8} {rest : List (List UInt8)}
      {l l' : List (DirItem × Nat)} {item : DirItem} {pos : Nat} (hl : Listing v img d l)
      (h : firstNamed l part = some (item, pos)) (hdir : item.attrib &&& fileSubdirectory ≠ 0)
      (hl' : Listing v img (.sub item.lowFirstCluster) l')
      (hrest : ParentDir (.sub item.lowFirstCluster) (next :: rest) d' last) :
      ParentDir d (part :: next :: rest) d' last

theorem ParentDir.parentOf (hs : RootServed v img) {d' : DirRef}
    (h : ParentDir v img d path d' last) (hzero : ∀ p ∈ path, (0 : UInt8) ∉ p) :
    ∀ {dir : FatDirectory} {l : List (DirItem × Nat)}, Listing v img d l → Listed v img dir l →
      dir.firstCluster = d.start → Fat.parentOf v img dir path = .ok (d'.start, last) := by
  induction h with
  | here =>
    intro dir l _ _ hfirst
    rw [Fat.parentOf, hfirst]
  | @down d d' part next last rest l₀ l' item pos hl₀ h hdir hl' hrest ih =>
    intro dir l hl hlisted _
    rw [hl₀.unique hl] at h
    rw [Fat.parentOf, hlisted.total, findIn_listed hlisted (hzero part List.mem_cons_self) l.length
      0 (by omega), List.drop_zero, h]
    dsimp only
    rw [itemOf, if_pos hdir]
    rcases dirOf_cases hs hdir with ⟨sub, lsub, hok, hfirst, hlsub, hlisted'⟩ | ⟨-, hbad⟩
    · rw [hok]
      exact ih (fun p hp => hzero p (List.mem_cons_of_mem _ hp)) hlsub hlisted' hfirst
    · exact absurd hbad hl'.not_broken

theorem ParentDir.mem {d' : DirRef} (h : ParentDir v img d path d' last) : last ∈ path := by
  induction h with
  | here => exact List.mem_singleton_self _
  | down _ _ _ _ _ ih => exact List.mem_cons_of_mem _ ih

theorem create_parent (hs : RootServed s.vol s.dev.image)
    (h : ParentDir s.vol s.dev.image .root path d last) (hzero : ∀ p ∈ path, (0 : UInt8) ∉ p) :
    parentOf s.vol s.dev.image s.vol.rootDirectory path = .ok (d.start, last) :=
  h.parentOf hs hzero (listing_root hs) (listed_root hs) hs.rooted.first

/-- What a creation that succeeds has done. -/
theorem create_ok (hr : Rooted s.vol) (hid : s.dev.identify = .ok n) {item : FatItem}
    (hok : (fat16Create path s).1 = .ok item) :
    ∃ start last slot base ext, parentOf s.vol s.dev.image s.vol.rootDirectory path =
      .ok (start, last) ∧ roomFrom s.vol s.dev.image start directoryFuel 0 none false = .ok slot ∧
      shortName last false [] [] = .ok (base, ext) ∧
      item.plain = fileItem (newEntry base ext) slot ∧
      (fat16Create path s).2.vol = fat16Publish slot (newEntry base ext) s.vol ∧
      (fat16Create path s).2.dev.image = (entryStore slot (newEntry base ext)).apply
        s.dev.image := by
  have hact := Prog.ends_iff.mp
    ((acting_create hr path : Acting s.vol s.dev.image n 0 0 _ _ _ _) s rfl rfl hid)
  rcases hact.outcome with ⟨-, -, ⟨-, e, he, -⟩ | ⟨-, e, he, -⟩⟩ |
    ⟨-, phases, b, r0, v1, hplan, hran, hend⟩
  · rw [hok] at he
    cases he
  · rw [hok] at he
    cases he
  · rcases hend with ⟨hr0, hview, hvol⟩ | ⟨e, -, he, -⟩
    · obtain ⟨start, last, slot, base, ext, hparent, -, hroom, hname, rfl, rfl⟩ :=
        createPlan_ok hplan
      obtain ⟨hv1, himg⟩ := hran.ended hr0
      rw [hok] at hview
      exact ⟨start, last, slot, base, ext, hparent, hroom, hname, Except.ok.inj hview,
        hvol.trans hv1, himg⟩
    · rw [hok] at he
      cases he

/-- The search for a slot says that the directory is full only after it saw all of it. -/
theorem findSlot_full {start : Nat} (fuel : Nat) :
    ∀ {i : Nat} {cursor : DirectoryCursor} {slot : Option Nat} {previousLfn : Bool} {s : FsState},
      CursorAt v img start i cursor → s.vol = v → s.dev.image = img →
      (findSlotLoop fuel cursor slot previousLfn s).1 = .error .enospc →
      roomFrom v img start fuel i slot previousLfn = .error .enospc := by
  induction fuel with
  | zero => intro i cursor slot previousLfn s _ _ _ h; cases h
  | succ fuel ih =>
    intro i cursor slot previousLfn s hcursor hv himg h
    unfold findSlotLoop at h
    rcases Prog.bind_error_cases h with herr | ⟨next, s', hnext, h⟩
    · exact absurd ((looks_directoryNext cursor).of_error herr) (by decide)
    · have hread := Prog.ends_iff.mp
        ((reading_directoryNext hcursor : Reading v img 0 0 _ _ _) s hv himg)
      have hval := hread.ok_view (congrArg Prod.fst hnext)
      have hgood := hread.good _ (congrArg Prod.fst hnext)
      have hvol : s'.vol = v := by
        rw [← hv, ← hread.quiet.vol, hnext]
      have himg' : s'.dev.image = img := by
        rw [← himg, ← hread.quiet.image, hnext]
      cases next with
      | none =>
        rw [roomFrom_end hval]
        cases slot with
        | none => rfl
        | some p => cases h
      | some o =>
        obtain ⟨entry, pos, cursor'⟩ := o
        change slotOf v img start i = .ok (some (entry, pos)) at hval
        have hcursor' : CursorAt v img start (i + 1) cursor' := hgood _ _ _ rfl
        dsimp only at h
        by_cases h0 : entry.byte 0 = 0
        · rw [if_pos h0] at h
          exfalso
          cases slot with
          | some p => cases h
          | none =>
            refine absurd ((show Looks _ from ?_).of_error h) (by decide)
            refine looks_refuse (by decide) ((Prog.raises_recode _ fun _ => (by decide)).bind
              fun after => ?_)
            cases after with
            | none => exact Prog.raises_pure _
            | some o => exact looks_refuse (by decide) (Prog.raises_pure _)
        · rw [if_neg h0] at h
          rw [roomFrom_used hval h0]
          exact ih hcursor' hvol himg' h

theorem shortName_error {e : Errno} (name : List UInt8) : ∀ {dot : Bool} {base ext : List UInt8},
    shortName name dot base ext = .error e → e = .einvarg := by
  induction name with
  | nil => intro dot base ext h; cases h
  | cons c name ih =>
    intro dot base ext h
    rw [shortName] at h
    split at h
    · exact ih h
    · split at h
      · cases h
        rfl
      · split at h
        · exact ih h
        · exact ih h

/-- A full directory is reported for a full directory only. -/
theorem create_full (h : (fat16Create path s).1 = .error .enospc) :
    ∃ start last, parentOf s.vol s.dev.image s.vol.rootDirectory path = .ok (start, last) ∧
      roomFrom s.vol s.dev.image start directoryFuel 0 none false = .error .enospc := by
  rw [fat16Create] at h
  change ((createParent s.vol.rootDirectory none path >>= _) s).1 = _ at h
  rcases Prog.bind_error_cases h with herr | ⟨⟨dir, parent, last⟩, s1, hparent, h⟩
  · exact absurd ((looks_createParent path _ _).of_error herr) (by decide)
  have hread : ReadsTo (ownedParent none + 0) 0 (.parent 0) _ s _ _ :=
    Prog.ends_iff.mp (reading_createParent path s.vol.rootDirectory none s rfl rfl)
  have hval := hread.ok_view (congrArg Prod.fst hparent)
  have hvol1 : s1.vol = s.vol := by rw [← hread.quiet.vol, hparent]
  have himg1 : s1.dev.image = s.dev.image := by rw [← hread.quiet.image, hparent]
  refine ⟨dir.firstCluster, last, hval, ?_⟩
  dsimp only at h
  rw [Prog.finish_apply] at h
  rcases Prog.bind_error_cases h with herr | ⟨cursor, s2, hstart, h⟩
  · exact absurd ((looks_directoryStart _).of_error herr) (by decide)
  have hread2 := Prog.ends_iff.mp
    ((reading_directoryStart dir.firstCluster : Reading s.vol s.dev.image 0 0 _ _ _) s1 hvol1 himg1)
  have hcursor := hread2.good cursor (congrArg Prod.fst hstart)
  have hvol2 : s2.vol = s.vol := by rw [← hvol1, ← hread2.quiet.vol, hstart]
  have himg2 : s2.dev.image = s.dev.image := by rw [← himg1, ← hread2.quiet.image, hstart]
  rcases Prog.bind_error_cases h with herr | ⟨slot, s3, -, h⟩
  · exact findSlot_full directoryFuel hcursor hvol2 himg2 herr
  · exfalso
    cases hname : shortName last false [] [] with
    | error e =>
      rw [hname] at h
      obtain rfl := shortName_error last hname
      cases h
    | ok name =>
      rw [hname] at h
      have hlooks : Looks (do
          let result ← fat16NewFatItemForDirectoryItem .enomem (newEntry name.1 name.2) slot
          Prog.undo (m := do
            fat16CommitItem slot (newEntry name.1 name.2)
            pure result)
            (fat16FatItemFree result)) :=
        (looks_newItem (by decide) _ _).bind fun result =>
          ((looks_commitItem _ _).bind fun _ => Prog.raises_pure _).undo _
      exact absurd (hlooks.of_error h) (by decide)

end Rorthox.Fat
