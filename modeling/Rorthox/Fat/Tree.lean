import Rorthox.Fat.Slots

/-!
# The directory tree

What a path leads to, by the slots and links on the disk alone, and that the lookup of the
driver finds it.
-/

namespace Rorthox.Fat

open Lib Disk Memory

/-! ## Names -/

theorem tolower_ne_zero {c : UInt8} (h : c ≠ 0) : tolower c ≠ 0 := by
  rw [tolower]
  split
  · rename_i hupper
    intro h0
    have hle := UInt8.le_iff_toNat_le.mp hupper.2
    have hsum := congrArg UInt8.toNat h0
    rw [UInt8.toNat_add] at hsum
    change (c.toNat + 32) % 256 = 0 at hsum
    change c.toNat ≤ 90 at hle
    omega
  · exact h

theorem istrncmp_iff {n : Nat} : ∀ {s t : List UInt8}, (0 : UInt8) ∉ s → (0 : UInt8) ∉ t →
    s.length < n → (istrncmp s t n = true ↔ s.map tolower = t.map tolower) := by
  induction n with
  | zero => intro s t _ _ h; cases h
  | succ n ih =>
    intro s t hs ht hlen
    rw [istrncmp]
    cases s with
    | nil =>
      cases t with
      | nil => exact ⟨fun _ => rfl, fun _ => rfl⟩
      | cons b t =>
        have hb : b ≠ 0 := fun h => ht (h ▸ List.mem_cons_self)
        have hne : (0 : UInt8) ≠ b ∧ tolower 0 ≠ tolower b :=
          ⟨hb.symm, fun h => tolower_ne_zero hb h.symm⟩
        refine iff_of_false ?_ (by simp)
        change ¬ (if (0 : UInt8) ≠ b ∧ tolower 0 ≠ tolower b then _ else _) = true
        rw [if_pos hne]
        exact Bool.false_ne_true
    | cons a s =>
      have ha : a ≠ 0 := fun h => hs (h ▸ List.mem_cons_self)
      cases t with
      | nil =>
        refine iff_of_false ?_ (by simp)
        change ¬ (if a ≠ 0 ∧ tolower a ≠ tolower 0 then _ else _) = true
        rw [if_pos ⟨ha, tolower_ne_zero ha⟩]
        exact Bool.false_ne_true
      | cons b t =>
        change (if a ≠ b ∧ tolower a ≠ tolower b then false
          else if a = 0 then true else istrncmp s t n) = true ↔ _
        rw [List.map_cons, List.map_cons, List.cons.injEq]
        by_cases hab : tolower a = tolower b
        · rw [if_neg fun h => h.2 hab, if_neg ha,
            ih (fun h => hs (List.mem_cons_of_mem _ h)) (fun h => ht (List.mem_cons_of_mem _ h))
              (Nat.lt_of_succ_lt_succ hlen)]
          exact ⟨fun h => ⟨hab, h⟩, fun h => h.2⟩
        · rw [if_pos ⟨fun h => hab (by rw [h]), hab⟩]
          exact iff_of_false Bool.false_ne_true fun h => hab h.1

theorem properString_zero (field : List UInt8) : (0 : UInt8) ∉ fat16ToProperString field := by
  intro h
  have := List.mem_takeWhile_imp h
  simp at this

theorem properString_length (field : List UInt8) : (fat16ToProperString field).length ≤
    field.length :=
  (List.takeWhile_sublist _).length_le

theorem filename_zero (item : DirItem) : (0 : UInt8) ∉ fat16GetFullRelativeFilename item := by
  rw [fat16GetFullRelativeFilename, List.mem_append]
  rintro (h | h)
  · exact properString_zero _ h
  · split at h
    · rcases List.mem_cons.mp h with h | h
      · exact absurd h (by decide)
      · exact properString_zero _ h
    · cases h

theorem filename_length (item : DirItem) : (fat16GetFullRelativeFilename item).length <
    maxPath := by
  have hname : item.filename.length = 8 := by
    simp [DirItem.filename]
  have hext : item.ext.length = 3 := by
    simp [DirItem.ext]
  have h1 := properString_length item.filename
  have h2 := properString_length item.ext
  rw [fat16GetFullRelativeFilename, List.length_append, maxPath]
  split
  · rw [List.length_cons]
    omega
  · rw [List.length_nil]
    omega

/-- The entry is shown, neither deleted nor a label or long name, and its text is the name up to
the case of ASCII letters. -/
def Named (item : DirItem) (name : List UInt8) : Prop :=
  ¬ Skipped item ∧ (fat16GetFullRelativeFilename item).map tolower = name.map tolower

instance (item : DirItem) (name : List UInt8) : Decidable (Named item name) :=
  inferInstanceAs (Decidable (_ ∧ _))

variable {entry item : DirItem} {name : List UInt8} {k : Nat} {r : Except Errno FatItem}

theorem named_iff (h : (0 : UInt8) ∉ name) :
    Named item name ↔ ¬ Skipped item ∧ nameMatches item name = true := by
  rw [Named, nameMatches, istrncmp_iff (filename_zero item) h (filename_length item)]

/-! ## The entries of a directory -/

section

variable (v : FatPrivate) (img : Bytes)

/-- The entries of a directory with their places, up to its first free slot or its end. -/
structure Listing (d : DirRef) (l : List (DirItem × Nat)) : Prop where
  slot : ∀ i e, l[i]? = some e → SlotAt v img d i e.2 ∧ e.1 = DirItem.load img e.2 ∧ img e.2 ≠ 0
  stop : EndsAt v img d l.length ∨ ∃ pos, SlotAt v img d l.length pos ∧ img pos = 0

/-- The way through a subdirectory is bad before its first free slot and before its end. -/
def Broken (start : Nat) : Prop :=
  ∃ n, (∀ i, i < n → ∃ pos, SlotAt v img (.sub start) i pos ∧ img pos ≠ 0) ∧ BadAt v img start n

end

variable {v : FatPrivate} {img : Bytes} {d : DirRef} {l l' : List (DirItem × Nat)} {i j start : Nat}

theorem Listing.length_le (h : Listing v img d l) (h' : Listing v img d l') :
    l'.length ≤ l.length := by
  by_contra hlt
  -- the slot at which the first list stops is an entry of the second
  obtain ⟨hat, -, hused⟩ := h'.slot l.length _ (List.getElem?_eq_getElem (Nat.lt_of_not_le hlt))
  rcases h.stop with hend | ⟨pos, hpos, hfree⟩
  · exact hat.not_end hend
  · rw [hpos.unique hat] at hfree
    exact hused hfree

theorem Listing.unique (h : Listing v img d l) (h' : Listing v img d l') : l = l' := by
  have hlen : l.length = l'.length := Nat.le_antisymm (h'.length_le h) (h.length_le h')
  refine List.ext_getElem hlen fun i hi hi' => ?_
  obtain ⟨hat, hitem, -⟩ := h.slot i _ (List.getElem?_eq_getElem hi)
  obtain ⟨hat', hitem', -⟩ := h'.slot i _ (List.getElem?_eq_getElem hi')
  have hpos := hat.unique hat'
  exact Prod.ext (by rw [hitem, hitem', hpos]) hpos

theorem Listing.not_broken (h : Listing v img (.sub start) l) : ¬ Broken v img start := by
  rintro ⟨n, hslots, hbad⟩
  rcases Nat.lt_trichotomy n l.length with hlt | rfl | hlt
  · exact (h.slot n _ (List.getElem?_eq_getElem hlt)).1.not_bad hbad
  · rcases h.stop with hend | ⟨pos, hpos, -⟩
    · exact hend.not_bad hbad
    · exact hpos.not_bad hbad
  · obtain ⟨pos, hat, hused⟩ := hslots l.length hlt
    rcases h.stop with hend | ⟨pos', hpos, hfree⟩
    · exact hat.not_end hend
    · rw [hpos.unique hat] at hfree
      exact hused hfree

theorem listing_root (hs : RootServed v img) : Listing v img .root
    ((List.range v.rootDirectory.total).map fun i =>
      (v.rootDirectory.item i, (rootFolder v).place i)) := by
  constructor
  · intro i e he
    obtain ⟨hi, rfl⟩ := List.getElem?_eq_some_iff.mp he
    rw [List.length_map, List.length_range] at hi
    rw [List.getElem_map, List.getElem_range]
    have hlt := hi.trans_le hs.cached.total_le
    exact ⟨.root hlt, hs.cached.item i hlt, hs.cached.used i hi⟩
  · rw [List.length_map, List.length_range]
    rcases Nat.lt_or_ge v.rootDirectory.total (rootDirEntries v.header) with hlt | hge
    · exact Or.inr ⟨_, .root hlt, hs.cached.free hlt⟩
    · exact Or.inl (.root hge)

/-! ### Chains that come back

The scan counts to 2^26 slots at most. That many slots do not fit below 2^31, so some cluster
came twice; from there on the links go round, through used slots only, until there are more
clusters than the volume has. -/

theorem link_add {m : Nat} : link v img start (m + k) = (fatAt v img 0)^[m] (link v img start k) :=
  Function.iterate_add_apply ..

theorem link_cycle {k' : Nat} (hlt : k < k') (h : link v img start k = link v img start k')
    (m : Nat) : ∃ q, q < k' ∧ link v img start m = link v img start q := by
  induction m using Nat.strong_induction_on with
  | _ m ih =>
    rcases Nat.lt_or_ge m k' with hm | hm
    · exact ⟨m, hm, rfl⟩
    · obtain ⟨t, rfl⟩ := Nat.exists_eq_add_of_le' hm
      obtain ⟨q, hq, he⟩ := ih (t + k) (by omega)
      exact ⟨q, hq, by rw [link_add, ← h, ← link_add, he]⟩

/-- One place belongs to one cluster, at one distance from its start. -/
theorem same_slot {start' : Nat}
    (hi : fat16ValidCluster v (link v img start (i / slotsPerCluster v)))
    (hj : fat16ValidCluster v (link v img start' (j / slotsPerCluster v)))
    (he : linkedPlace v img start i = linkedPlace v img start' j) :
    link v img start (i / slotsPerCluster v) = link v img start' (j / slotsPerCluster v) ∧
      i % slotsPerCluster v = j % slotsPerCluster v := by
  have hpos := slotsPerCluster_pos hi
  have hin : ∀ start k, InCluster v (link v img start (k / slotsPerCluster v))
      (linkedPlace v img start k) := by
    intro start k
    have hb := slots_bytes v
    have hmod := Nat.mod_lt k hpos
    rw [linkedPlace]
    constructor <;> omega
  have hsame : link v img start (i / slotsPerCluster v) =
    link v img start' (j / slotsPerCluster v) :=
    InCluster.unique (hin start i) (by rw [he]; exact hin start' j) hi.1 hj.1
  rw [linkedPlace, linkedPlace, hsame] at he
  exact ⟨hsame, by omega⟩

/-- Two slots of a directory at one place: the links come to their cluster twice. -/
theorem same_place {pos pos' : Nat} (hi : SlotAt v img (.sub start) i pos)
    (hj : SlotAt v img (.sub start) j pos') (hlt : i < j) (he : pos = pos') :
    i / slotsPerCluster v < j / slotsPerCluster v ∧
      link v img start (i / slotsPerCluster v) = link v img start (j / slotsPerCluster v) := by
  rw [hi.pos_eq, hj.pos_eq] at he
  obtain ⟨hsame, hmod⟩ := same_slot hi.cluster hj.cluster he
  refine ⟨?_, hsame⟩
  by_contra hge
  have hmul := Nat.mul_le_mul_left (slotsPerCluster v) (Nat.le_of_not_lt hge)
  have hdi := Nat.div_add_mod i (slotsPerCluster v)
  have hdj := Nat.div_add_mod j (slotsPerCluster v)
  omega

/-- Links that go round through used slots never end. -/
theorem broken_of_cycle (hlt : i < j)
    (hslots : ∀ k, k ≤ j → SlotAt v img (.sub start) k (linkedPlace v img start k) ∧
      img (linkedPlace v img start k) ≠ 0)
    (he : linkedPlace v img start i = linkedPlace v img start j) : Broken v img start := by
  obtain ⟨hk, hlink⟩ := same_place (hslots i hlt.le).1 (hslots j le_rfl).1 hlt he
  have hall : ∀ m, fat16ValidCluster v (link v img start m) := by
    intro m
    obtain ⟨q, hq, hm⟩ := link_cycle hk hlink m
    rw [hm]
    cases (hslots j le_rfl).1 with
    | sub hall _ _ => exact hall q hq.le
  have hpos := slotsPerCluster_pos (hall 0)
  refine ⟨(fat16ClusterLimit v - 1) * slotsPerCluster v, fun t ht => ?_, ?_⟩
  · -- slot `t` lies where one of the first `j` slots lies
    obtain ⟨q, hq, hm⟩ := link_cycle hk hlink (t / slotsPerCluster v)
    have hmod := Nat.mod_lt t hpos
    have hbefore : q * slotsPerCluster v + t % slotsPerCluster v ≤ j := by
      have h1 := Nat.mul_le_mul_right (slotsPerCluster v) (Nat.succ_le_of_lt hq)
      have h2 := Nat.div_mul_le_self j (slotsPerCluster v)
      rw [Nat.succ_mul] at h1
      omega
    have hplace : linkedPlace v img start (q * slotsPerCluster v + t % slotsPerCluster v) =
        linkedPlace v img start t := by
      rw [linkedPlace, linkedPlace, hm, Nat.mul_comm q, Nat.mul_add_div hpos, Nat.div_eq_of_lt hmod,
        Nat.add_zero, Nat.mul_add_mod, Nat.mod_mod]
    obtain ⟨hat, hused⟩ := hslots _ hbefore
    rw [hplace] at hused
    refine ⟨_, .sub (fun k _ => hall k) ((Nat.div_lt_iff_lt_mul hpos).mpr ht) ?_, hused⟩
    rw [← hplace]
    cases hat with
    | sub _ _ hbelow => exact hbelow
  · refine .count ?_ fun k _ => hall k
    rw [Nat.mul_div_cancel _ hpos]

/-- More used slots than fit below 2^31. -/
theorem broken_of_many
    (h : ∀ i, i ≤ intMax / 32 → ∃ pos, SlotAt v img (.sub start) i pos ∧ img pos ≠ 0) :
    Broken v img start := by
  have hslots : ∀ i, i ≤ intMax / 32 → SlotAt v img (.sub start) i (linkedPlace v img start i) ∧
      img (linkedPlace v img start i) ≠ 0 := by
    intro i hi
    obtain ⟨pos, hat, hused⟩ := h i hi
    cases hat with
    | sub hall hcount hbelow => exact ⟨.sub hall hcount hbelow, hused⟩
  have hmaps : ∀ i ∈ Finset.range (intMax / 32 + 1), linkedPlace v img start i / 32 ∈
      Finset.range (intMax / 32) := by
    intro i hi
    rw [Finset.mem_range] at hi ⊢
    cases (hslots i (by omega)).1 with
    | sub _ _ hbelow =>
      rw [sectorSize] at hbelow
      rw [intMax]
      omega
  obtain ⟨i, hi, j, hj, hne, he⟩ :=
    Finset.exists_ne_map_eq_of_card_lt_of_maps_to (by simp) hmaps
  rw [Finset.mem_range] at hi hj
  have hsame : linkedPlace v img start i = linkedPlace v img start j := by
    have h1 : linkedPlace v img start i % 32 = 0 := linkedPlace_aligned start i
    have h2 : linkedPlace v img start j % 32 = 0 := linkedPlace_aligned start j
    omega
  rcases Nat.lt_or_gt_of_ne hne with hlt | hlt
  · exact broken_of_cycle hlt (fun k hk => hslots k (by omega)) hsame
  · exact broken_of_cycle hlt (fun k hk => hslots k (by omega)) hsame.symm

/-! ### The two passes over a subdirectory -/

/-- The first pass counts the entries, or meets what is bad. -/
theorem countSlots_cases (hs : RootServed v img) (hv : fat16ValidCluster v start) (fuel : Nat) :
    ∀ {i : Nat}, (∀ j, j < i → ∃ pos, SlotAt v img (.sub start) j pos ∧ img pos ≠ 0) →
      i ≤ intMax / 32 → intMax / 32 < i + fuel →
      (∃ n, countSlots v img start fuel i = .ok n ∧ n ≤ intMax / 32 ∧
        (∀ j, j < n → ∃ pos, SlotAt v img (.sub start) j pos ∧ img pos ≠ 0) ∧
        (EndsAt v img (.sub start) n ∨ ∃ pos, SlotAt v img (.sub start) n pos ∧ img pos = 0)) ∨
      (∃ e, countSlots v img start fuel i = .error e) ∧ Broken v img start := by
  induction fuel with
  | zero => intro i _ hle hlt; omega
  | succ fuel ih =>
    intro i hused hle hlt
    have hd : (DirRef.sub start).Valid v := hv
    rw [countSlots]
    cases hslot : slotOf v img start i with
    | error e => exact Or.inr ⟨⟨e, rfl⟩, i, hused, slotOf_error hv hslot⟩
    | ok o =>
      cases o with
      | none => exact Or.inl ⟨i, rfl, hle, hused, Or.inl ((slotOf_none_iff hd).mp hslot)⟩
      | some x =>
        obtain ⟨item, pos⟩ := x
        obtain ⟨hat, rfl⟩ := (slotOf_some_iff hs hd).mp hslot
        change (∃ n, (if (DirItem.load img pos).byte 0 = 0 then _ else _) = _ ∧ _) ∨
          (∃ e, (if (DirItem.load img pos).byte 0 = 0 then _ else _) = _) ∧ _
        rw [load_first]
        by_cases h0 : img pos = 0
        · rw [if_pos h0]
          exact Or.inl ⟨i, rfl, hle, hused, Or.inr ⟨pos, hat, h0⟩⟩
        · rw [if_neg h0]
          have hused' : ∀ j, j < i + 1 → ∃ pos, SlotAt v img (.sub start) j pos ∧ img pos ≠ 0 := by
            intro j hj
            rcases Nat.lt_succ_iff_lt_or_eq.mp hj with hj | rfl
            · exact hused j hj
            · exact ⟨pos, hat, h0⟩
          by_cases hcap : i = intMax / 32
          · rw [if_pos hcap]
            exact Or.inr ⟨⟨_, rfl⟩, broken_of_many fun j hj => hused' j (by omega)⟩
          · rw [if_neg hcap]
            exact ih hused' (by omega) (by omega)

/-- The second pass finds what the first one counted. -/
theorem loadSlots_of (left : Nat) : ∀ (i : Nat) (items : Nat → DirItem),
    (∀ j, i ≤ j → j < i + left → ∃ x, slotOf v img start j = .ok (some x)) →
      ∃ out, loadSlots v img start left i items = .ok out := by
  induction left with
  | zero => exact fun _ _ _ => ⟨_, rfl⟩
  | succ left ih =>
    intro i items h
    obtain ⟨x, hx⟩ := h i le_rfl (by omega)
    rw [loadSlots, hx]
    exact ih _ _ fun j hj hlt => h j (by omega) (by omega)

variable (v img) in
/-- The directory in memory has the entries of the list, and a lookup in it their places. -/
structure Listed (dir : FatDirectory) (l : List (DirItem × Nat)) : Prop where
  total : dir.total = l.length
  item : ∀ i e, l[i]? = some e → dir.item i = e.1 ∧ e.1.byte 0 ≠ 0 ∧ slotPosOf v img dir i = .ok e.2

theorem listed_root (hs : RootServed v img) : Listed v img v.rootDirectory
    ((List.range v.rootDirectory.total).map fun i =>
      (v.rootDirectory.item i, (rootFolder v).place i)) := by
  refine ⟨by rw [List.length_map, List.length_range], fun i e he => ?_⟩
  obtain ⟨hat, hitem, hused⟩ := (listing_root hs).slot i e he
  obtain ⟨hi, rfl⟩ := List.getElem?_eq_some_iff.mp he
  rw [List.getElem_map, List.getElem_range] at hat hitem hused ⊢
  refine ⟨rfl, ?_, hat.slotPosOf hs hs.rooted.first fun _ => hs.rooted.pos⟩
  rw [hitem, load_first]
  exact hused

/-- Both passes over a subdirectory see the same slots, or its chain is bad. -/
theorem scan_cases (hs : RootServed v img) (hv : fat16ValidCluster v start) :
    (∃ n items l, countSlots v img start directoryFuel 0 = .ok n ∧ n ≤ intMax / 32 ∧
      loadSlots v img start n 0 (fun _ => .zero) = .ok items ∧ l.length = n ∧
      Listing v img (.sub start) l ∧ ∀ i e, l[i]? = some e → items i = e.1) ∨
    (∃ e, countSlots v img start directoryFuel 0 = .error e) ∧ Broken v img start := by
  have hd : (DirRef.sub start).Valid v := hv
  refine (countSlots_cases hs hv directoryFuel (fun j hj => absurd hj (Nat.not_lt_zero j))
    (Nat.zero_le _) (by decide)).imp_left ?_
  rintro ⟨n, hcount, hle, hused, hstop⟩
  let l := (List.range n).map fun j =>
    (DirItem.load img (linkedPlace v img start j), linkedPlace v img start j)
  have hlen : l.length = n := by rw [List.length_map, List.length_range]
  have hentry : ∀ i e, l[i]? = some e →
      SlotAt v img (.sub start) i e.2 ∧ e.1 = DirItem.load img e.2 ∧ img e.2 ≠ 0 := by
    intro i e he
    obtain ⟨hi, rfl⟩ := List.getElem?_eq_some_iff.mp he
    rw [hlen] at hi
    obtain ⟨pos, hat, hne⟩ := hused i hi
    have hval : l[i] = (DirItem.load img (linkedPlace v img start i),
        linkedPlace v img start i) := by
      rw [List.getElem_map, List.getElem_range]
    rw [hval]
    cases hat with
    | sub hall hlt hbelow => exact ⟨.sub hall hlt hbelow, rfl, hne⟩
  have hslot : ∀ j, j < n → ∃ x, slotOf v img start j = .ok (some x) := by
    intro j hj
    obtain ⟨pos, hat, -⟩ := hused j hj
    exact ⟨_, (slotOf_some_iff hs hd).mpr ⟨hat, rfl⟩⟩
  obtain ⟨items, hitems⟩ := loadSlots_of n 0 (fun _ => .zero)
    fun j _ hj => hslot j (by omega)
  refine ⟨n, items, l, hcount, hle, hitems, hlen, ⟨hentry, ?_⟩, fun i e he => ?_⟩
  · rw [hlen]
    exact hstop
  · obtain ⟨hat, hitem, -⟩ := hentry i e he
    have hi := (List.getElem?_eq_some_iff.mp he).1
    obtain ⟨pos, hpos⟩ := (loadSlots_ok hitems).2 i (Nat.zero_le i) (by omega)
    obtain ⟨hat', hload⟩ := (slotOf_some_iff hs hd).mp hpos
    rw [hload, hitem, hat.unique hat']

theorem dirOf_eq (hdir : entry.attrib &&& fileSubdirectory ≠ 0) : dirOf v img entry =
      (if ¬ fat16ValidCluster v entry.lowFirstCluster then .error .eio
      else do
        let total ← countSlots v img entry.lowFirstCluster directoryFuel 0
        if 0x7FFFFFFF / 32 < total then .error .eio
        else do
          let items ← loadSlots v img entry.lowFirstCluster total 0 fun _ => .zero
          .ok ⟨0, 0, items, entry.lowFirstCluster, total, 0, 0⟩) := by
  rw [dirOf]
  exact if_neg hdir

/-- Loading a subdirectory gives its entries, or its chain is bad. -/
theorem dirOf_cases (hs : RootServed v img) (hdir : entry.attrib &&& fileSubdirectory ≠ 0) :
    (∃ dir l, dirOf v img entry = .ok dir ∧ dir.firstCluster = entry.lowFirstCluster ∧
      Listing v img (.sub entry.lowFirstCluster) l ∧ Listed v img dir l) ∨
    (∃ e, dirOf v img entry = .error e) ∧ Broken v img entry.lowFirstCluster := by
  rw [dirOf_eq hdir]
  generalize entry.lowFirstCluster = start
  by_cases hv : fat16ValidCluster v start
  · rw [if_neg (not_not.mpr hv)]
    rcases scan_cases hs hv with ⟨n, items, l, hcount, hle, hitems, hlen, hl, hitem⟩ |
      ⟨⟨e, hcount⟩, hbroken⟩
    · refine Or.inl ⟨⟨0, 0, items, start, n, 0, 0⟩, l, ?_, rfl, hl, hlen.symm, fun i e he => ?_⟩
      · have hsmall : ¬ 0x7FFFFFFF / 32 < n := Nat.not_lt.mpr hle
        rw [hcount]
        change (if 0x7FFFFFFF / 32 < n then _ else _) = _
        rw [if_neg hsmall, hitems]
        rfl
      · obtain ⟨hat, hload, hused⟩ := hl.slot i e he
        refine ⟨hitem i e he, ?_, hat.slotPosOf hs rfl fun h0 => absurd h0 (valid_ne_zero hv)⟩
        rw [hload, load_first]
        exact hused
    · rw [hcount]
      exact Or.inr ⟨⟨e, rfl⟩, hbroken⟩
  · rw [if_pos hv]
    exact Or.inr ⟨⟨_, rfl⟩, 0, fun i hi => absurd hi (Nat.not_lt_zero i),
      .cluster 0 (Nat.zero_le _) (fun j hj => absurd hj (Nat.not_lt_zero j)) hv (Or.inl rfl)⟩

/-! ## Paths -/

/-- The first entry that shows a name. -/
def firstNamed (l : List (DirItem × Nat)) (name : List UInt8) : Option (DirItem × Nat) :=
  l.find? fun e => Named e.1 name

/-- A lookup in a directory takes the first entry that shows the name. -/
theorem findIn_listed {dir : FatDirectory} (h : Listed v img dir l) (hname : (0 : UInt8) ∉ name)
    (left : Nat) : ∀ i, i + left = l.length →
      findIn v img dir name left i =
        match firstNamed (l.drop i) name with
        | none => .error .enoent
        | some e => itemOf v img .eio e.1 e.2 := by
  induction left with
  | zero =>
    intro i hi
    rw [List.drop_eq_nil_of_le (by omega)]
    rfl
  | succ left ih =>
    intro i hi
    have hlt : i < l.length := by omega
    obtain ⟨hitem, hused, hpos⟩ := h.item i _ (List.getElem?_eq_getElem hlt)
    rw [findIn, hitem, if_neg hused, List.drop_eq_getElem_cons hlt, firstNamed]
    by_cases hn : Named l[i].1 name
    · obtain ⟨hshown, hmatch⟩ := (named_iff hname).mp hn
      rw [if_neg hshown, if_pos hmatch, hpos, List.find?_cons_of_pos (by simpa using hn)]
      rfl
    · have hnext := ih (i + 1) (by omega)
      rw [List.find?_cons_of_neg (by simpa using hn)]
      rw [named_iff hname, not_and_or, not_not] at hn
      by_cases hskip : Skipped l[i].1
      · rw [if_pos hskip, hnext]
        rfl
      · rw [if_neg hskip, if_neg (hn.resolve_left hskip), hnext]
        rfl

inductive Resolution where
  | entry (item : DirItem) (pos : Nat)
  | missing
  | blocked

variable (v img) in
/-- What the parts of a path lead to from a directory. A name that no entry shows is missing; a
file that is not the last part and a subdirectory whose chain is bad block the way. -/
inductive Resolves : DirRef → List (List UInt8) → Resolution → Prop where
  | missing {d : DirRef} {part : List UInt8} {rest : List (List UInt8)} {l : List (DirItem × Nat)}
      (hl : Listing v img d l) (h : firstNamed l part = none) : Resolves d (part :: rest) .missing
  | file {d : DirRef} {part : List UInt8} {l : List (DirItem × Nat)} {item : DirItem} {pos : Nat}
      (hl : Listing v img d l) (h : firstNamed l part = some (item, pos))
      (hfile : item.attrib &&& fileSubdirectory = 0) : Resolves d [part] (.entry item pos)
  | through {d : DirRef} {part next : List UInt8} {rest : List (List UInt8)}
    {l : List (DirItem × Nat)}
      {item : DirItem} {pos : Nat} (hl : Listing v img d l)
        (h : firstNamed l part = some (item, pos))
      (hfile : item.attrib &&& fileSubdirectory = 0) : Resolves d (part :: next :: rest) .blocked
  | broken {d : DirRef} {part : List UInt8} {rest : List (List UInt8)} {l : List (DirItem × Nat)}
      {item : DirItem} {pos : Nat} (hl : Listing v img d l)
        (h : firstNamed l part = some (item, pos))
      (hdir : item.attrib &&& fileSubdirectory ≠ 0) (hbad : Broken v img item.lowFirstCluster) :
      Resolves d (part :: rest) .blocked
  | folder {d : DirRef} {part : List UInt8} {l l' : List (DirItem × Nat)} {item : DirItem}
      {pos : Nat} (hl : Listing v img d l) (h : firstNamed l part = some (item, pos))
      (hdir : item.attrib &&& fileSubdirectory ≠ 0) (hl' : Listing v img (.sub item.lowFirstCluster)
        l') :
      Resolves d [part] (.entry item pos)
  | down {d : DirRef} {part next : List UInt8} {rest : List (List UInt8)}
    {l l' : List (DirItem × Nat)}
      {item : DirItem} {pos : Nat} {o : Resolution} (hl : Listing v img d l)
      (h : firstNamed l part = some (item, pos)) (hdir : item.attrib &&& fileSubdirectory ≠ 0)
      (hl' : Listing v img (.sub item.lowFirstCluster) l')
      (hrest : Resolves (.sub item.lowFirstCluster) (next :: rest) o) :
      Resolves d (part :: next :: rest) o

theorem found_unique {part : List UInt8} {x x' : Option (DirItem × Nat)} (hl : Listing v img d l)
    (hl' : Listing v img d l') (h : firstNamed l part = x) (h' : firstNamed l' part = x') :
    x = x' := by
  rw [← h, ← h', hl.unique hl']

/-- A path leads to one thing. -/
theorem Resolves.unique {path : List (List UInt8)} {o o' : Resolution} (h : Resolves v img d path o)
    (h' : Resolves v img d path o') : o = o' := by
  induction h generalizing o' with
  | missing hl h =>
    cases h' with
    | missing _ _ => rfl
    | file hl' h' _ | through hl' h' _ | broken hl' h' _ _ | folder hl' h' _ _
    | down hl' h' _ _ _ =>
      cases found_unique hl hl' h h'
  | file hl h hfile =>
    cases h' with
    | missing hl' h' => cases found_unique hl hl' h h'
    | file hl' h' _ | folder hl' h' _ _ =>
      cases found_unique hl hl' h h'
      rfl
    | broken hl' h' hdir _ =>
      cases found_unique hl hl' h h'
      exact absurd hfile hdir
  | through hl h hfile =>
    cases h' with
    | missing hl' h' => cases found_unique hl hl' h h'
    | through _ _ _ | broken _ _ _ _ => rfl
    | down hl' h' hdir _ _ =>
      cases found_unique hl hl' h h'
      exact absurd hfile hdir
  | broken hl h hdir hbad =>
    cases h' with
    | missing hl' h' => cases found_unique hl hl' h h'
    | file hl' h' hfile =>
      cases found_unique hl hl' h h'
      exact absurd hfile hdir
    | through _ _ _ | broken _ _ _ _ => rfl
    | folder hl' h' _ hsub | down hl' h' _ hsub _ =>
      cases found_unique hl hl' h h'
      exact absurd hbad hsub.not_broken
  | folder hl h hdir hsub =>
    cases h' with
    | missing hl' h' => cases found_unique hl hl' h h'
    | file hl' h' _ | folder hl' h' _ _ =>
      cases found_unique hl hl' h h'
      rfl
    | broken hl' h' _ hbad =>
      cases found_unique hl hl' h h'
      exact absurd hbad hsub.not_broken
  | down hl h hdir hsub _ ih =>
    cases h' with
    | missing hl' h' => cases found_unique hl hl' h h'
    | through hl' h' hfile =>
      cases found_unique hl hl' h h'
      exact absurd hfile hdir
    | broken hl' h' _ hbad =>
      cases found_unique hl hl' h h'
      exact absurd hbad hsub.not_broken
    | down hl' h' _ _ hrest =>
      cases found_unique hl hl' h h'
      exact ih hrest

section

variable (v : FatPrivate) (img : Bytes)

/-- The item in memory is that of the entry; a subdirectory comes with all its entries. -/
def Shows (f : FatItem) (item : DirItem) : Prop :=
  match f.node with
  | .file _ entry => item.attrib &&& fileSubdirectory = 0 ∧ entry = item
  | .directory dir =>
      item.attrib &&& fileSubdirectory ≠ 0 ∧ dir.firstCluster = item.lowFirstCluster ∧
        ∃ l, Listing v img (.sub item.lowFirstCluster) l ∧ dir.total = l.length ∧
          ∀ i e, l[i]? = some e → dir.item i = e.1

/-- What a call returns for a path that leads there. -/
def Returns (r : Except Errno FatItem) : Resolution → Prop
  | .entry item pos => ∃ f, r = .ok f ∧ f.entryPos = pos ∧ Shows v img f item
  | .missing => r = .error .enoent
  | .blocked => ∃ e, r = .error e ∧ e ≠ .enoent

end

theorem descend_cases (hs : RootServed v img) (rest : List (List UInt8)) :
    ∀ {d : DirRef} {dir : FatDirectory} {l : List (DirItem × Nat)} {part : List UInt8},
      Listing v img d l → Listed v img dir l → (∀ p ∈ part :: rest, (0 : UInt8) ∉ p) →
      ∃ o, Resolves v img d (part :: rest) o ∧
        Returns v img (findIn v img dir part dir.total 0 >>= fun item => descendTo v img item rest)
          o := by
  induction rest with
  | nil =>
    intro d dir l part hl hlisted hzero
    rw [hlisted.total, findIn_listed hlisted (hzero part List.mem_cons_self) l.length 0 (by omega),
      List.drop_zero]
    cases hfound : firstNamed l part with
    | none => exact ⟨.missing, .missing hl hfound, rfl⟩
    | some e =>
      obtain ⟨item, pos⟩ := e
      dsimp only
      rw [itemOf]
      by_cases hdir : item.attrib &&& fileSubdirectory ≠ 0
      · rw [if_pos hdir]
        rcases dirOf_cases hs hdir with ⟨sub, l', hok, hfirst, hl', hlisted'⟩ | ⟨⟨e, herr⟩, hbad⟩
        · rw [hok]
          exact ⟨.entry item pos, .folder hl hfound hdir hl', _, rfl, rfl, hdir, hfirst, l', hl',
            hlisted'.total, fun i e he => (hlisted'.item i e he).1⟩
        · rw [herr]
          exact ⟨.blocked, .broken hl hfound hdir hbad, .eio, rfl, by decide⟩
      · rw [if_neg hdir]
        exact ⟨.entry item pos, .file hl hfound (not_not.mp hdir), _, rfl, rfl,
          not_not.mp hdir, rfl⟩
  | cons next rest ih =>
    intro d dir l part hl hlisted hzero
    rw [hlisted.total, findIn_listed hlisted (hzero part List.mem_cons_self) l.length 0 (by omega),
      List.drop_zero]
    cases hfound : firstNamed l part with
    | none => exact ⟨.missing, .missing hl hfound, rfl⟩
    | some e =>
      obtain ⟨item, pos⟩ := e
      dsimp only
      rw [itemOf]
      by_cases hdir : item.attrib &&& fileSubdirectory ≠ 0
      · rw [if_pos hdir]
        rcases dirOf_cases hs hdir with ⟨sub, l', hok, -, hl', hlisted'⟩ | ⟨⟨e, herr⟩, hbad⟩
        · rw [hok]
          obtain ⟨o, hres, hret⟩ := ih hl' hlisted' fun p hp => hzero p (List.mem_cons_of_mem _ hp)
          exact ⟨o, .down hl hfound hdir hl' hres, hret⟩
        · rw [herr]
          exact ⟨.blocked, .broken hl hfound hdir hbad, .eio, rfl, by decide⟩
      · rw [if_neg hdir]
        exact ⟨.blocked, .through hl hfound (not_not.mp hdir), .eio, rfl, by decide⟩

/-! ## The lookup ends -/

/-- One turn of the loop that counts the entries of a subdirectory, as the source has it. -/
def totalTurn (t : DirectoryCursor × Nat) : FsProg ((DirectoryCursor × Nat) ⊕ Nat) := do
  let next ← fat16DirectoryNext t.1
  match next with
  | none => pure (.inr t.2)
  | some (item, _, cursor) =>
      if item.byte 0 = 0 then pure (.inr t.2)
      else do
        Prog.refuse (t.2 = intMax / 32) .eio
        pure (.inl (cursor, t.2 + 1))

theorem totalItemsLoop_is (fuel : Nat) : ∀ (cursor : DirectoryCursor) (total : Nat),
    total ≤ intMax / 32 → intMax / 32 < total + fuel →
      Prog.LoopIs totalTurn fuel (cursor, total) (totalItemsLoop fuel cursor total) := by
  induction fuel with
  | zero => intro cursor total hle hlt; omega
  | succ fuel ih =>
    intro cursor total hle hlt stuck
    rw [Prog.loop, totalTurn, totalItemsLoop, bind_assoc]
    congr 1
    funext next
    rcases next with - | ⟨item, pos, cursor'⟩
    · rfl
    · dsimp only
      by_cases h0 : item.byte 0 = 0
      · rw [if_pos h0, if_pos h0]
        rfl
      · rw [if_neg h0, if_neg h0, bind_assoc]
        by_cases hcap : total = intMax / 32
        · rw [Prog.refuse_of hcap, Prog.raise_bind, Prog.raise_bind]
        · rw [Prog.refuse_of_not hcap, pure_bind, pure_bind]
          exact ih cursor' (total + 1) (by omega) (by omega) stuck

/-! ## The lookup -/

theorem Shows.of_plain {f : FatItem} (h : Shows v img f.plain item) : Shows v img f item := by
  unfold Shows FatItem.plain at h
  unfold Shows
  cases hnode : f.node with
  | file addr entry =>
    rw [hnode] at h
    exact h
  | directory dir =>
    rw [hnode] at h
    exact h

theorem Returns.of_plain {o : Resolution} (h : Returns v img (r.map FatItem.plain) o) :
    Returns v img r o := by
  cases o with
  | entry item pos =>
    obtain ⟨f, hf, hpos, hshows⟩ := h
    obtain ⟨g, hg, rfl⟩ := except_map_ok.mp hf
    exact ⟨g, hg, hpos, hshows.of_plain⟩
  | missing =>
    cases r with
    | error e => exact h
    | ok f => cases h
  | blocked =>
    obtain ⟨e, he, hne⟩ := h
    cases r with
    | error e' => exact ⟨e, he, hne⟩
    | ok f => cases he

theorem Returns.codes {o : Resolution} (h : Returns v img r o) :
    (r = .error .enoent ↔ o = .missing) ∧ ((∃ e, r = .error e ∧ e ≠ .enoent) ↔ o = .blocked) := by
  cases o with
  | entry item pos =>
    obtain ⟨f, rfl, -⟩ := h
    exact ⟨⟨fun he => (by cases he), fun he => (by cases he)⟩,
      ⟨fun ⟨e, he, _⟩ => (by cases he), fun he => (by cases he)⟩⟩
  | missing =>
    obtain rfl : r = .error .enoent := h
    refine ⟨⟨fun _ => rfl, fun _ => rfl⟩, ⟨?_, fun he => (by cases he)⟩⟩
    rintro ⟨e, he, hne⟩
    exact absurd (Except.error.inj he).symm hne
  | blocked =>
    refine ⟨⟨fun he => ?_, fun he => (by cases he)⟩, ⟨fun _ => rfl, fun _ => h⟩⟩
    obtain ⟨e, he', hne⟩ := h
    rw [he] at he'
    exact absurd (Except.error.inj he').symm hne

/-- Looking up a path finds what the path leads to.

The counting loop, the only one without a bound of its own, is over after 2^26 turns. When
no read and no allocation fails, the call returns the entry of the last part, -ENOENT just when
a part is missing, and another code just when the way is blocked. Mounting leaves the root as
the lookup needs it, for every content with the root below 2^31. -/
theorem path_lookup {s : FsState} (hs : RootServed s.vol s.dev.image) {path : List (List UInt8)}
    (hne : path ≠ []) (hzero : ∀ part ∈ path, (0 : UInt8) ∉ part) :
    (∀ cursor, Prog.LoopIs totalTurn (2 ^ 26) (cursor, 0) (totalItemsLoop directoryFuel cursor 0)) ∧
    (Calm s (fat16GetDirectoryEntry path s).2 →
      ∃ o, Resolves s.vol s.dev.image .root path o ∧
        (∀ o', Resolves s.vol s.dev.image .root path o' → o' = o) ∧
        Returns s.vol s.dev.image (fat16GetDirectoryEntry path s).1 o ∧
        ((fat16GetDirectoryEntry path s).1 = .error .enoent ↔ o = .missing) ∧
        ((∃ e, (fat16GetDirectoryEntry path s).1 = .error e ∧ e ≠ .enoent) ↔ o = .blocked)) ∧
    ∀ s₀, (fat16Resolve s₀).1 = .ok () →
      rootSector (fat16Resolve s₀).2.vol.header * 512 +
        rootDirEntries (fat16Resolve s₀).2.vol.header * 32 < 2 ^ 31 →
      RootServed (fat16Resolve s₀).2.vol (fat16Resolve s₀).2.dev.image := by
  refine ⟨fun cursor => ?_, fun hcalm => ?_, fun s₀ hok hbound => ?_⟩
  · intro stuck
    have hend : 0 ≤ intMax / 32 := Nat.zero_le _
    have hsmall := totalItemsLoop_is (2 ^ 26) cursor 0 hend (by decide)
    have hlarge := totalItemsLoop_is directoryFuel cursor 0 hend (by decide)
    rw [hsmall stuck, ← hlarge stuck, ← (hsmall.mono (k := directoryFuel) (by decide)) stuck]
  · cases path with
    | nil => exact absurd rfl hne
    | cons part rest =>
      have hread := (reading_directoryEntry (part :: rest)).ran (s := s)
      have hval := hread.calm_ok hcalm
      obtain ⟨o, hres, hret⟩ := descend_cases hs rest (listing_root hs) (listed_root hs) hzero
      change Returns _ _ (lookup s.vol s.dev.image (part :: rest)) o at hret
      rw [← hval] at hret
      exact ⟨o, hres, fun o' h' => h'.unique hres, hret.of_plain, hret.of_plain.codes⟩
  · exact resolve_served hok (show _ ≤ 2 ^ 31 - 1 from Nat.le_sub_one_of_lt hbound)

/-! A volume whose root has the subdirectory `D` in slot 0. `D` has the clusters 2 and 3; every
slot of the first is deleted and slot 0 of the second is the file `F`. -/

def treeEntry (name attrib cluster : UInt8) : List UInt8 :=
  name :: List.replicate 10 0x20 ++ attrib :: List.replicate 14 0 ++ [cluster]

def treeDisk : Bytes := fun p =>
  if p < 62 then
    ([(12, 2), (13, 1), (14, 1), (16, 2), (17, 16), (19, 0x68), (20, 0x10), (22, 17),
      (38, 0x29)].lookup p).getD 0
  else if p / 512 = 1 ∨ p / 512 = 18 then
    [0xF8, 0xFF, 0xFF, 0xFF, 0x03, 0x00, 0xFF, 0xFF].getD (p % 512) 0
  else if p / 512 = 35 then (treeEntry 0x44 0x10 2).getD (p % 512) 0
  else if p / 512 = 36 then (if p % 32 = 0 then 0xE5 else 0)
  else if p / 512 = 37 then (treeEntry 0x46 0x20 0).getD (p % 512) 0
  else 0

def treeBoot : FsState := { plainState with dev := { plainState.dev with origin := treeDisk } }

/-- `d/f`. -/
theorem path_lookup_tree : ∃ item, Resolves (fat16Resolve treeBoot).2.vol
    (fat16Resolve treeBoot).2.dev.image .root [[0x64], [0x66]] (.entry item 18944) := by
  have hs := resolve_served (s := treeBoot) (by decide +kernel) (by decide +kernel)
  have hboot : (fat16Resolve treeBoot).2.dev.log = [] := List.isEmpty_iff.mp (by decide +kernel)
  have hlog : (fat16GetDirectoryEntry [[0x64], [0x66]] (fat16Resolve treeBoot).2).2.dev.log = [] :=
    List.isEmpty_iff.mp (by decide +kernel)
  have hcalm : Calm (fat16Resolve treeBoot).2
      (fat16GetDirectoryEntry [[0x64], [0x66]] (fat16Resolve treeBoot).2).2 :=
    ⟨hlog.trans hboot.symm, by decide +kernel⟩
  have hval : (fat16GetDirectoryEntry [[0x64], [0x66]] (fat16Resolve treeBoot).2).1.map
      FatItem.entryPos = .ok 18944 := by
    decide +kernel
  obtain ⟨f, hf, hpos⟩ := except_map_ok.mp hval
  obtain ⟨o, hres, -, hret, -⟩ := (path_lookup hs (List.cons_ne_nil _ _) (by decide)).2.1 hcalm
  rw [hf] at hret
  cases o with
  | entry item pos =>
    obtain ⟨g, hg, rfl, -⟩ := hret
    cases hg
    rw [hpos] at hres
    exact ⟨item, hres⟩
  | missing => cases hret
  | blocked =>
    obtain ⟨e, he, -⟩ := hret
    cases he

end Rorthox.Fat
