import Rorthox.Fat.Tree

/-!
# Room for an entry

A new entry goes to a deleted slot or to the first free one. What a directory lists afterwards
is what it listed before, with the new entry at its slot.
-/

namespace Rorthox.Fat

open Lib Disk Memory

variable {v w : FatPrivate} {img img' : Bytes} {n : Nat}

/-! ## Volumes with the same links -/

/-- Two volumes of one layout whose clusters have the same links. -/
structure Alike (v : FatPrivate) (img : Bytes) (w : FatPrivate) (img' : Bytes) : Prop where
  layout : SameLayout v w
  fat : ∀ c, fat16ValidCluster v c → fatAt w img' 0 c = fatAt v img 0 c

namespace Alike

section

variable (h : Alike v img w img')
include h

theorem slots : slotsPerCluster w = slotsPerCluster v := by
  rw [slotsPerCluster, slotsPerCluster, h.layout.clusterBytes]

theorem link {start k : Nat} (hall : ∀ j, j < k → fat16ValidCluster v (link v img start j)) :
    link w img' start k = link v img start k := by
  induction k with
  | zero => rfl
  | succ k ih =>
    rw [link_succ, link_succ, ih fun j hj => hall j (Nat.lt_succ_of_lt hj),
      h.fat _ (hall k (Nat.lt_succ_self k))]

theorem place {start i : Nat}
    (hall : ∀ k, k ≤ i / slotsPerCluster v → fat16ValidCluster v (Fat.link v img start k)) :
    linkedPlace w img' start i = linkedPlace v img start i := by
  rw [linkedPlace, linkedPlace, h.slots, h.link fun j hj => hall j hj.le, h.layout.toSector]

theorem slot {d : DirRef} {i pos : Nat} (hslot : SlotAt v img d i pos) : SlotAt w img' d i pos := by
  cases hslot with
  | root hi =>
    rw [← h.layout.header] at hi ⊢
    exact .root hi
  | @sub start _ hall hcount hbelow =>
    rw [← h.place hall] at hbelow ⊢
    refine .sub (fun k hk => ?_) ?_ hbelow
    · rw [h.slots] at hk
      rw [h.link fun j hj => hall j (hj.le.trans hk), h.layout.valid]
      exact hall k hk
    · rwa [h.slots, h.layout.limit]

theorem ends {d : DirRef} {i : Nat} (hend : EndsAt v img d i) : EndsAt w img' d i := by
  cases hend with
  | root hi =>
    rw [← h.layout.header] at hi
    exact .root hi
  | @sub start _ k hk hle hall hcount heoc =>
    refine .sub k hk ?_ (fun j hj => ?_) ?_ ?_
    · rwa [h.slots]
    · rw [h.link fun q hq => hall q (hq.trans hj), h.layout.valid]
      exact hall j hj
    · rwa [h.layout.limit]
    · rwa [h.link hall]

theorem bad {start i : Nat} (hbad : BadAt v img start i) : BadAt w img' start i := by
  cases hbad with
  | cluster k hk hall hbad hend =>
    refine .cluster k ?_ (fun j hj => ?_) ?_ ?_
    · rwa [h.slots]
    · rw [h.link fun q hq => hall q (hq.trans hj), h.layout.valid]
      exact hall j hj
    · rwa [h.link hall, h.layout.valid]
    · rwa [h.link hall]
  | count hle hall =>
    refine .count ?_ fun k hk => ?_
    · rwa [h.slots, h.layout.limit]
    · rw [h.layout.limit] at hk
      rw [h.link fun q hq => hall q (hq.le.trans hk), h.layout.valid]
      exact hall k hk
  | place hall hcount habove =>
    refine .place (fun k hk => ?_) ?_ ?_
    · rw [h.slots] at hk
      rw [h.link fun q hq => hall q (hq.le.trans hk), h.layout.valid]
      exact hall k hk
    · rwa [h.slots, h.layout.limit]
    · rwa [h.place hall]

end

end Alike

/-! ## Slots of a listed directory -/

variable {d : DirRef} {i j o pos start : Nat} {l : List (DirItem × Nat)}

theorem SlotAt.aligned (h : SlotAt v img d i pos) : pos % 32 = 0 := by
  cases h with
  | root hi => exact rootFolder_aligned v i
  | sub _ _ _ => exact linkedPlace_aligned _ _

theorem Listing.valid (h : Listing v img d l) : d.Valid v := by
  rcases h.stop with hend | ⟨pos, hat, -⟩
  · exact hend.valid
  · exact hat.valid

/-- The clusters of a listed directory are different: links that went round would never stop. -/
theorem Listing.links_ne (h : Listing v img (.sub start) l) {a b : Nat} (hlt : a < b)
    (hb : b ≤ l.length / slotsPerCluster v)
    (hall : ∀ k, k ≤ b → fat16ValidCluster v (link v img start k)) :
    link v img start a ≠ link v img start b := by
  intro he
  have hvalid : ∀ m, fat16ValidCluster v (link v img start m) := by
    intro m
    obtain ⟨q, hq, hm⟩ := link_cycle hlt he m
    rw [hm]
    exact hall q hq.le
  rcases h.stop with hend | ⟨pos, hat, hfree⟩
  · cases hend with
    | sub k _ _ _ _ heoc => exact eoc_not_valid heoc (hvalid k)
  · -- the free slot also lies one round before
    cases hat with
    | sub _ _ _ =>
      have hpos := slotsPerCluster_pos (hvalid 0)
      have hmod := Nat.mod_lt l.length hpos
      obtain ⟨t, ht⟩ := Nat.exists_eq_add_of_le' hb
      have hround : link v img start (t + a) = link v img start (l.length / slotsPerCluster v) := by
        rw [ht, link_add, he, ← link_add]
      have hplace : linkedPlace v img start ((t + a) * slotsPerCluster v + l.length %
          slotsPerCluster v) = linkedPlace v img start l.length := by
        rw [linkedPlace, linkedPlace, Nat.mul_comm (t + a), Nat.mul_add_div hpos,
          Nat.div_eq_of_lt hmod, Nat.add_zero, hround, Nat.mul_add_mod, Nat.mod_mod]
      have hbefore : (t + a) * slotsPerCluster v + l.length % slotsPerCluster v < l.length := by
        have h1 := Nat.mul_lt_mul_of_pos_right (show t + a < l.length / slotsPerCluster v by omega)
          hpos
        have h2 := Nat.div_add_mod l.length (slotsPerCluster v)
        rw [Nat.mul_comm] at h2
        omega
      obtain ⟨hat', -, hused⟩ := h.slot _ _ (List.getElem?_eq_getElem hbefore)
      refine hused ?_
      rw [hat'.pos_eq, hplace]
      exact hfree

/-- Different slots of a listed directory have different places. -/
theorem Listing.place_ne (h : Listing v img d l) {pos' : Nat} (hi : SlotAt v img d i pos)
    (hj : SlotAt v img d j pos') (hlt : i < j) (hle : j ≤ l.length) : pos ≠ pos' := by
  cases d with
  | root =>
    cases hi
    cases hj
    omega
  | sub start =>
    intro he
    obtain ⟨hk, hlink⟩ := same_place hi hj hlt he
    refine h.links_ne hk (Nat.div_le_div_right hle) (fun k hk => ?_) hlink
    cases hj with
    | sub hall _ _ => exact hall k hk

/-! ## Room -/

/-- The slot before slot `i` is part of a long name. -/
def lfnBefore (l : List (DirItem × Nat)) : Nat → Bool
  | 0 => false
  | i + 1 => (l[i]?).elim false fun e => fat16IsLfn e.1

/-- A deleted slot a new entry may take. -/
def Usable (l : List (DirItem × Nat)) (i : Nat) (item : DirItem) : Prop :=
  item.byte 0 = 0xE5 ∧ item.attrib ≠ 0x0F ∧ lfnBefore l i = false

variable (v img) in
/-- The slot for a new entry in a directory with these entries: deleted, or the first free one
with nothing behind it. -/
structure RoomAt (d : DirRef) (l : List (DirItem × Nat)) (i pos : Nat) : Prop where
  slot : SlotAt v img d i pos
  lfn : lfnBefore l i = false
  kind : (∃ item, l[i]? = some (item, pos) ∧ item.byte 0 = 0xE5) ∨
    (i = l.length ∧ img pos = 0 ∧ (EndsAt v img d (i + 1) ∨ ∃ q, SlotAt v img d (i + 1) q ∧
      img q = 0))

/-- What the search for a slot gives, from slot `i` on, with the slot it has so far. -/
theorem roomFrom_cases (hs : RootServed v img) (h : Listing v img d l) (fuel : Nat) :
    ∀ (i : Nat) (slot : Option Nat), i ≤ l.length →
      (∀ p, slot = some p → ∃ j, RoomAt v img d l j p) →
      (slot = none → ∀ j e, j < i → l[j]? = some e → ¬ Usable l j e.1) →
      (∀ pos, roomFrom v img d.start fuel i slot (lfnBefore l i) = .ok pos → ∃ j,
        RoomAt v img d l j pos) ∧
      (roomFrom v img d.start fuel i slot (lfnBefore l i) = .error .enospc →
        EndsAt v img d l.length ∧ ∀ j e, l[j]? = some e → ¬ Usable l j e.1) := by
  induction fuel with
  | zero => intro i slot _ _ _; exact ⟨fun pos h => (by cases h), fun h => (by cases h)⟩
  | succ fuel ih =>
    intro i slot hle hslot hnone
    have hd := h.valid
    rcases Nat.lt_or_ge i l.length with hlt | hge
    · -- an entry: go on, with its slot if that is the first usable one
      have he := List.getElem?_eq_getElem hlt
      obtain ⟨hat, hitem, hused⟩ := h.slot i _ he
      have hbyte : l[i].1.byte 0 ≠ 0 := by
        rw [hitem, load_first]
        exact hused
      have hlfn : fat16IsLfn l[i].1 = lfnBefore l (i + 1) := by
        rw [lfnBefore, he]
        rfl
      rw [roomFrom_used ((slotOf_some_iff hs hd).mpr ⟨hat, hitem⟩) hbyte, hlfn]
      refine ih _ _ hlt (fun p hp => ?_) fun hp j e hj hje huse => ?_
      · split at hp
        · rename_i huse
          obtain ⟨-, hdel, -, hbefore⟩ := huse
          obtain rfl := Option.some.inj hp
          exact ⟨i, hat, Bool.eq_false_iff.mpr hbefore, Or.inl ⟨l[i].1, he, hdel⟩⟩
        · exact hslot p hp
      · split at hp
        · cases hp
        · rename_i hnot
          rcases Nat.lt_succ_iff_lt_or_eq.mp hj with hj | rfl
          · exact hnone hp j e hj hje huse
          · rw [he] at hje
            obtain rfl := Option.some.inj hje
            exact hnot ⟨hp, huse.1, huse.2.1, Bool.eq_false_iff.mp huse.2.2⟩
    · obtain rfl : i = l.length := by omega
      rcases h.stop with hend | ⟨pos, hat, hfree⟩
      · rw [roomFrom_end ((slotOf_none_iff hd).mpr hend)]
        cases slot with
        | none =>
          refine ⟨fun pos h => (by cases h), fun _ => ⟨hend, fun j e hje => ?_⟩⟩
          exact hnone rfl j e (List.getElem?_eq_some_iff.mp hje).1 hje
        | some p =>
          refine ⟨fun pos hp => ?_, fun h => (by cases h)⟩
          cases hp
          exact hslot p rfl
      · have hat' := (slotOf_some_iff hs hd).mpr ⟨hat, rfl⟩
        have hbyte : (DirItem.load img pos).byte 0 = 0 := by rw [load_first, hfree]
        cases slot with
        | some p =>
          rw [roomFrom_kept hat' hbyte]
          refine ⟨fun pos hp => ?_, fun h => (by cases h)⟩
          cases hp
          exact hslot p rfl
        | none =>
          rw [roomFrom_free hat' hbyte]
          constructor
          · intro q hq
            obtain ⟨hlfn, hq⟩ := except_guard_ok.mp hq
            obtain ⟨after, hafter, hq⟩ := except_bind_ok.mp hq
            have hafter' := except_mapError_ok.mp hafter
            have hroom : EndsAt v img d (l.length + 1) ∨
                (∃ q, SlotAt v img d (l.length + 1) q ∧ img q = 0) →
                  RoomAt v img d l l.length pos :=
              fun hnext => ⟨hat, Bool.eq_false_iff.mpr hlfn, Or.inr ⟨rfl, hfree, hnext⟩⟩
            cases after with
            | none =>
              cases hq
              exact ⟨_, hroom (Or.inl ((slotOf_none_iff hd).mp hafter'))⟩
            | some e =>
              obtain ⟨item', q'⟩ := e
              obtain ⟨hzero, hq⟩ := except_guard_ok.mp hq
              cases hq
              obtain ⟨hnext, rfl⟩ := (slotOf_some_iff hs hd).mp hafter'
              rw [not_not, load_first] at hzero
              exact ⟨_, hroom (Or.inr ⟨q', hnext, hzero⟩)⟩
          · intro hq
            exfalso
            split at hq
            · cases hq
            · cases hafter : slotOf v img d.start (l.length + 1) with
              | error e =>
                rw [hafter] at hq
                cases hq
              | ok after =>
                rw [hafter] at hq
                cases after with
                | none => cases hq
                | some e =>
                  change (if e.1.byte 0 ≠ 0 then _ else _) = _ at hq
                  split at hq <;> cases hq

/-! ## The directory afterwards -/

/-- An entry as the disk has it now. -/
def reload (img : Bytes) (e : DirItem × Nat) : DirItem × Nat := (DirItem.load img e.2, e.2)

theorem Listing.kept (h : Listing v img d l) (ha : Alike v img w img')
    (hused : ∀ e ∈ l, img' e.2 ≠ 0)
    (hstop : ∀ pos, SlotAt v img d l.length pos → img pos = 0 → img' pos = 0) :
    Listing w img' d (l.map (reload img')) := by
  refine ⟨fun i e he => ?_, ?_⟩
  · rw [List.getElem?_map] at he
    obtain ⟨e₀, he₀, rfl⟩ := Option.map_eq_some_iff.mp he
    exact ⟨ha.slot (h.slot i e₀ he₀).1, rfl, hused e₀ (List.mem_of_getElem? he₀)⟩
  · rw [List.length_map]
    rcases h.stop with hend | ⟨pos, hat, hfree⟩
    · exact Or.inl (ha.ends hend)
    · exact Or.inr ⟨pos, ha.slot hat, hstop pos hat hfree⟩

/-- The first free slot was taken. -/
theorem Listing.grown (h : Listing v img d l) (ha : Alike v img w img')
    (hused : ∀ e ∈ l, img' e.2 ≠ 0) (hat : SlotAt v img d l.length pos) (hpos : img' pos ≠ 0)
    (hnext : EndsAt v img d (l.length + 1) ∨ ∃ q, SlotAt v img d (l.length + 1) q ∧ img' q = 0) :
    Listing w img' d (l.map (reload img') ++ [(DirItem.load img' pos, pos)]) := by
  have hlen : (l.map (reload img')).length = l.length := List.length_map _
  refine ⟨fun i e he => ?_, ?_⟩
  · rcases Nat.lt_or_ge i l.length with hlt | hge
    · rw [List.getElem?_append_left (hlen.symm ▸ hlt), List.getElem?_map] at he
      obtain ⟨e₀, he₀, rfl⟩ := Option.map_eq_some_iff.mp he
      exact ⟨ha.slot (h.slot i e₀ he₀).1, rfl, hused e₀ (List.mem_of_getElem? he₀)⟩
    · rw [List.getElem?_append_right (hlen.symm ▸ hge), hlen] at he
      obtain ⟨hi, rfl⟩ := List.getElem?_eq_some_iff.mp he
      rw [List.length_singleton] at hi
      obtain rfl : i = l.length := by omega
      rw [List.getElem_singleton]
      exact ⟨ha.slot hat, rfl, hpos⟩
  · rw [List.length_append, List.length_singleton, hlen]
    rcases hnext with hend | ⟨q, hq, hfree⟩
    · exact Or.inl (ha.ends hend)
    · exact Or.inr ⟨q, ha.slot hq, hfree⟩

/-- The slot behind slot `i`: in the same cluster, or the first of the next one. -/
theorem next_slot {k : Nat} (hk : 0 < k) :
    (i % k + 1 < k ∧ (i + 1) / k = i / k ∧ (i + 1) % k = i % k + 1) ∨
      (i % k + 1 = k ∧ (i + 1) / k = i / k + 1 ∧ (i + 1) % k = 0) := by
  have hdiv := Nat.div_add_mod i k
  rcases Nat.lt_or_eq_of_le (Nat.succ_le_of_lt (Nat.mod_lt i hk)) with hlt | heq
  · exact Or.inl ⟨hlt, (Nat.div_mod_unique hk).mpr ⟨by omega, hlt⟩⟩
  · refine Or.inr ⟨heq, (Nat.div_mod_unique hk).mpr ⟨?_, hk⟩⟩
    rw [Nat.mul_add]
    omega

theorem slotsPerCluster_two {c : Nat} (h : fat16ValidCluster v c) : 2 ≤ slotsPerCluster v := by
  have hpos := slotsPerCluster_pos h
  rw [slotsPerCluster, clusterBytes, sectorSize] at hpos ⊢
  omega

theorem SlotAt.next_ne {q : Nat} (h : SlotAt v img d i pos) (hq : SlotAt v img d (i + 1) q) :
    q ≠ pos := by
  cases d with
  | root =>
    cases h
    cases hq
    omega
  | sub start =>
    have htwo := slotsPerCluster_two h.cluster
    intro he
    rw [h.pos_eq, hq.pos_eq] at he
    have hmod := (same_slot hq.cluster h.cluster he).2
    rcases next_slot (i := i) (show 0 < slotsPerCluster v by omega) with ⟨-, -, hnext⟩ |
      ⟨hlast, -, hnext⟩
    · omega
    · omega

/-- Directories that share a slot share the next one. A listed directory is not at the limit of
clusters there: the free slot behind lies in none of its own. -/
theorem shared_next (h : Listing v img (.sub o) l) (hat : SlotAt v img (.sub start) i pos)
    (hat' : SlotAt v img (.sub o) l.length pos)
    (hnext : EndsAt v img (.sub start) (i + 1) ∨ ∃ q, SlotAt v img (.sub start) (i + 1) q ∧
      img q = 0) :
    EndsAt v img (.sub o) (l.length + 1) ∨ ∃ q, SlotAt v img (.sub o) (l.length + 1) q ∧
      img q = 0 := by
  have htwo := slotsPerCluster_two hat.cluster
  have hpos : 0 < slotsPerCluster v := by omega
  obtain ⟨hlink, hmod⟩ := same_slot hat.cluster hat'.cluster (hat.pos_eq.symm.trans hat'.pos_eq)
  have hvalid : ∀ k, k ≤ l.length / slotsPerCluster v → fat16ValidCluster v (link v img o k) := by
    cases hat' with
    | sub hall _ _ => exact hall
  have hlimit : l.length / slotsPerCluster v < fat16ClusterLimit v - 1 := by
    cases hat' with
    | sub _ hcount _ => exact hcount
  rcases next_slot (i := i) hpos with ⟨hin, hdiv, hrest⟩ | ⟨hlast, hdiv, hrest⟩
  · -- inside the cluster
    rcases next_slot (i := l.length) hpos with ⟨-, hdiv', hrest'⟩ | ⟨hlast', -, -⟩
    · have hplace : linkedPlace v img o (l.length + 1) = linkedPlace v img start (i + 1) := by
        rw [linkedPlace, linkedPlace, hdiv, hdiv', hrest, hrest', hlink, hmod]
      rcases hnext with hend | ⟨q, hq, hfree⟩
      · refine absurd ?_ hat.not_end
        cases hend with
        | sub k hk hle hall hcount heoc => exact .sub k hk (hdiv ▸ hle) hall hcount heoc
      · rw [hq.pos_eq, ← hplace] at hfree
        refine Or.inr ⟨_, .sub (hdiv'.symm ▸ hvalid) (hdiv'.symm ▸ hlimit) ?_, hfree⟩
        cases hq with
        | sub _ _ hbelow =>
          rw [hplace]
          exact hbelow
    · omega
  · -- on to the next cluster
    rcases next_slot (i := l.length) hpos with ⟨hin', -, -⟩ | ⟨-, hdiv', hrest'⟩
    · omega
    · have hlink' : link v img o (l.length / slotsPerCluster v + 1) =
          link v img start (i / slotsPerCluster v + 1) := by
        rw [link_succ, link_succ, hlink]
      have hplace : linkedPlace v img o (l.length + 1) = linkedPlace v img start (i + 1) := by
        rw [linkedPlace, linkedPlace, hdiv, hdiv', hrest, hrest', hlink']
      rcases hnext with hend | ⟨q, hq, hfree⟩
      · cases hend with
        | sub k hk hle hall hcount heoc =>
          have hk' : k = i / slotsPerCluster v + 1 := by
            rw [hdiv] at hle
            by_contra hne
            cases hat with
            | sub hall' _ _ => exact eoc_not_valid heoc (hall' k (by omega))
          rw [hk', ← hlink'] at heoc
          exact Or.inl (.sub _ (Nat.succ_pos _) hdiv'.ge
            (fun j hj => hvalid j (Nat.lt_succ_iff.mp hj)) hlimit heoc)
      · have hnew : fat16ValidCluster v (link v img o (l.length / slotsPerCluster v + 1)) := by
          have hq' := hq.cluster
          rwa [hdiv, ← hlink'] at hq'
        have hall : ∀ k, k ≤ l.length / slotsPerCluster v + 1 →
            fat16ValidCluster v (link v img o k) := by
          intro k hk
          rcases Nat.le_succ_iff.mp hk with hk | rfl
          · exact hvalid k hk
          · exact hnew
        rw [hq.pos_eq, ← hplace] at hfree
        have hcount : l.length / slotsPerCluster v + 2 ≤ fat16ClusterLimit v - 1 := by
          apply distinct_le fun k hk => hall k (by omega)
          intro a b hab hb he
          rcases Nat.lt_or_ge b (l.length / slotsPerCluster v + 1) with hlt | hge
          · exact h.links_ne hab (Nat.lt_succ_iff.mp hlt) (fun k hk => hvalid k (by omega)) he
          · -- the new cluster begins with a free slot, the earlier ones with entries
            obtain rfl : b = l.length / slotsPerCluster v + 1 := by omega
            have hmul := Nat.mul_le_mul_right (slotsPerCluster v) (Nat.lt_succ_iff.mp hab)
            have hdm := Nat.div_add_mod l.length (slotsPerCluster v)
            rw [Nat.mul_comm] at hdm
            have hfirst : a * slotsPerCluster v < l.length := by omega
            obtain ⟨hat₀, -, hused⟩ := h.slot _ _ (List.getElem?_eq_getElem hfirst)
            refine hused ?_
            rw [hat₀.pos_eq, ← hfree, linkedPlace, linkedPlace, hdiv', hrest',
              Nat.mul_div_cancel _ hpos, Nat.mul_mod_left, he]
        refine Or.inr ⟨_, .sub (hdiv'.symm ▸ hall) (hdiv'.symm ▸ hcount) ?_, hfree⟩
        cases hq with
        | sub _ _ hbelow =>
          rw [hplace]
          exact hbelow

/-! ## Storing the entry -/

/-- The list with an entry at index `i`, instead of the one there or behind the last. -/
def placed (l : List (DirItem × Nat)) (i : Nat) (e : DirItem × Nat) : List (DirItem × Nat) :=
  l.take i ++ e :: l.drop (i + 1)

theorem placed_getElem? (hi : i ≤ l.length) (e : DirItem × Nat) (j : Nat) :
    (placed l i e)[j]? = if j = i then some e else l[j]? := by
  have hlen : (l.take i).length = i := List.length_take_of_le hi
  rcases Nat.lt_trichotomy j i with hlt | rfl | hgt
  · rw [placed, List.getElem?_append_left (hlen.symm ▸ hlt), List.getElem?_take_of_lt hlt,
      if_neg hlt.ne]
  · rw [placed, List.getElem?_append_right hlen.le, hlen, Nat.sub_self, if_pos rfl]
    rfl
  · obtain ⟨k, rfl⟩ := Nat.exists_eq_add_of_lt hgt
    rw [placed, List.getElem?_append_right (by omega), hlen, if_neg (by omega),
      show i + k + 1 - i = k + 1 by omega, List.getElem?_cons_succ, List.getElem?_drop]
    congr 1
    omega

theorem lfnBefore_placed (hi : i ≤ l.length) (e : DirItem × Nat) :
    lfnBefore (placed l i e) i = lfnBefore l i := by
  cases i with
  | zero => rfl
  | succ i => rw [lfnBefore, lfnBefore, placed_getElem? hi, if_neg (by omega)]

theorem SlotAt.behind (hf : Fitted v n) (h : SlotAt v img d i pos) :
    rootSector v.header * sectorSize ≤ pos := by
  cases h with
  | root hi => exact Nat.le_add_right _ _
  | sub _ _ _ =>
    have hroot := Fitted.root_end v
    rw [hf.data_eq] at hroot
    have hdata := cluster_start v (link v img ‹_› (i / slotsPerCluster v))
    rw [rootSector, Nat.add_comm (fatCopies v.header * sectorsPerFat v.header), linkedPlace]
    omega

/-- A slot of a subdirectory is none of the root. -/
theorem SlotAt.not_root (hf : Fitted v n) (h : SlotAt v img (.sub start) i pos)
    (hj : j < (rootFolder v).count) : (rootFolder v).place j ≠ pos := by
  have hend := rootFolder_end hf.accepted hj
  have hdata := cluster_start v (link v img start (i / slotsPerCluster v))
  rw [h.pos_eq, linkedPlace]
  omega

section

variable {d : DirRef} {l : List (DirItem × Nat)} {i pos : Nat} {item : DirItem}

/-- Storing an entry in a slot leaves the links alone. -/
theorem alike_commit (hf : Fitted v n) (h : SlotAt v img d i pos) (item : DirItem) :
    Alike v img (fat16Publish pos item v) ((entryStore pos item).apply img) := by
  refine ⟨publish_layout pos item v, fun c hc => ?_⟩
  rw [(publish_layout pos item v).fatAt]
  refine fatAt_outside (Or.inl ?_)
  exact (hf.fat_end (Nat.zero_le 1) hc.2.1).2.1.trans (h.behind hf)

theorem Listing.used_after (h : Listing v img d l) (hp : pos % 32 = 0) (hused : item.byte 0 ≠ 0) :
    ∀ e ∈ l, (entryStore pos item).apply img e.2 ≠ 0 := by
  intro e he
  obtain ⟨j, hj⟩ := List.mem_iff_getElem?.mp he
  obtain ⟨hat, -, hne⟩ := h.slot j e hj
  by_cases heq : e.2 = pos
  · rw [heq, entryStore_first]
    exact hused
  · rwa [entryStore_first_other hp hat.aligned heq]

section

variable (h : RoomAt v img d l i pos)
include h

theorem RoomAt.le_length : i ≤ l.length := by
  rcases h.kind with ⟨e, he, -⟩ | ⟨rfl, -⟩
  · exact (List.getElem?_eq_some_iff.mp he).1.le
  · exact le_rfl

/-- No other entry of the directory lies there. -/
theorem RoomAt.other_place (hl : Listing v img d l) {e : DirItem × Nat} (he : l[j]? = some e)
    (hne : j ≠ i) : e.2 ≠ pos := by
  obtain ⟨hat, -, -⟩ := hl.slot j e he
  have hj := (List.getElem?_eq_some_iff.mp he).1
  rcases Nat.lt_or_gt_of_ne hne with hlt | hgt
  · exact hl.place_ne hat h.slot hlt h.le_length
  · exact (hl.place_ne h.slot hat hgt hj.le).symm

/-- The directory lists the new entry in its slot, and the others as before. -/
theorem RoomAt.listing (hl : Listing v img d l) (hf : Fitted v n) (hused : item.byte 0 ≠ 0) :
    Listing (fat16Publish pos item v) ((entryStore pos item).apply img) d
      (placed l i (item, pos)) := by
  have ha := alike_commit hf h.slot item
  have hp := h.slot.aligned
  have hall := hl.used_after hp hused
  have hreload : ∀ j e, l[j]? = some e → j ≠ i → reload ((entryStore pos item).apply img) e =
      e := by
    intro j e he hne
    obtain ⟨hat, hload, -⟩ := hl.slot j e he
    exact Prod.ext ((entryStore_load_other hp hat.aligned (h.other_place hl he hne)).trans
      hload.symm) rfl
  rcases h.kind with ⟨old, hold, hdel⟩ | ⟨rfl, hfree, hnext⟩
  · have hne : img pos ≠ 0 := (hl.slot i _ hold).2.2
    have hkept := hl.kept ha hall fun q hq hzero => by
      rwa [entryStore_first_other hp hq.aligned fun he => hne (he ▸ hzero)]
    convert hkept using 1
    refine List.ext_getElem? fun j => ?_
    rw [placed_getElem? h.le_length, List.getElem?_map]
    by_cases hj : j = i
    · rw [if_pos hj, hj, hold]
      exact congrArg some (Prod.ext (entryStore_load item pos).symm rfl)
    · rw [if_neg hj]
      cases he : l[j]? with
      | none => rfl
      | some e => exact congrArg some (hreload j e he hj).symm
  · have hgrown := hl.grown ha hall h.slot (by rwa [entryStore_first])
      (hnext.imp_right fun ⟨q, hq, hzero⟩ =>
      ⟨q, hq, by rwa [entryStore_first_other hp hq.aligned (h.slot.next_ne hq)]⟩)
    convert hgrown using 1
    have hmap : l.map (reload ((entryStore pos item).apply img)) = l := by
      refine (List.map_congr_left fun e he => ?_).trans (List.map_id l)
      obtain ⟨j, hj⟩ := List.mem_iff_getElem?.mp he
      exact hreload j e hj (List.getElem?_eq_some_iff.mp hj).1.ne
    rw [hmap, entryStore_load, placed, List.take_length, List.drop_eq_nil_of_le (Nat.le_succ _)]

/-- Every other subdirectory can be listed as before, one that shares the slot too. -/
theorem RoomAt.listing_sub (hl : Listing v img d l) (hf : Fitted v n) (hused : item.byte 0 ≠ 0)
    {lo : List (DirItem × Nat)} (ho : Listing v img (.sub o) lo) :
    ∃ lo', Listing (fat16Publish pos item v) ((entryStore pos item).apply img) (.sub o) lo' := by
  have ha := alike_commit hf h.slot item
  have hp := h.slot.aligned
  have hall := ho.used_after hp hused
  by_cases hshared : SlotAt v img (.sub o) lo.length pos ∧ img pos = 0
  · obtain ⟨hat, hfree⟩ := hshared
    rcases h.kind with ⟨old, hold, hdel⟩ | ⟨rfl, -, hnext⟩
    · exact absurd hfree (hl.slot i _ hold).2.2
    · cases d with
      | root =>
        cases h.slot with
        | root hi => exact absurd rfl (hat.not_root hf hi)
      | sub start =>
        have hbehind := shared_next ho h.slot hat hnext
        exact ⟨_, ho.grown ha hall hat (by rwa [entryStore_first])
          (hbehind.imp_right fun ⟨q, hq, hzero⟩ =>
          ⟨q, hq, by rwa [entryStore_first_other hp hq.aligned (hat.next_ne hq)]⟩)⟩
  · refine ⟨_, ho.kept ha hall fun q hq hzero => ?_⟩
    rwa [entryStore_first_other hp hq.aligned]
    rintro rfl
    exact hshared ⟨hq, hzero⟩

end

/-- A bad chain stays bad. -/
theorem broken_commit (hf : Fitted v n) (h : SlotAt v img d i pos) (hused : item.byte 0 ≠ 0)
    (ho : Broken v img o) :
    Broken (fat16Publish pos item v) ((entryStore pos item).apply img) o := by
  have ha := alike_commit hf h item
  obtain ⟨m, hslots, hbad⟩ := ho
  refine ⟨m, fun j hj => ?_, ha.bad hbad⟩
  obtain ⟨q, hat, hne⟩ := hslots j hj
  refine ⟨q, ha.slot hat, ?_⟩
  by_cases heq : q = pos
  · rw [heq, entryStore_first]
    exact hused
  · rwa [entryStore_first_other h.aligned hat.aligned heq]

/-- The cached root goes along. -/
theorem RoomAt.served (h : RoomAt v img d l i pos) (hl : Listing v img d l) (hs : RootServed v img)
    (hf : Fitted v n) (hused : item.byte 0 ≠ 0) :
    RootServed (fat16Publish pos item v) ((entryStore pos item).apply img) := by
  have hcached : RootCached (fat16Publish pos item v) ((entryStore pos item).apply img) := by
    refine hs.cached.publish hs.rooted h.slot.aligned hused fun j hj hplace => ?_
    cases d with
    | sub start => exact absurd hplace (h.slot.not_root hf hj)
    | root =>
      obtain rfl : j = i := by
        cases hslot : h.slot with
        | root hi => exact rootFolder_inj hplace
      refine ⟨fun k hk => ?_, ?_⟩
      · have hlt : k < l.length := hk.trans_le h.le_length
        obtain ⟨hat, -, hne⟩ := hl.slot k _ (List.getElem?_eq_getElem hlt)
        rwa [hat.unique (.root (hk.trans hj))] at hne
      · rcases h.kind with ⟨old, hold, -⟩ | ⟨-, -, hend | ⟨q, hq, hzero⟩⟩
        · exact Or.inl (hl.slot j _ hold).2.2
        · cases hend with
          | root hle => exact Or.inr (Or.inl (Nat.le_antisymm hj hle))
        · cases hq with
          | root _ => exact Or.inr (Or.inr hzero)
  obtain ⟨hhead, -, hsector, hfirst, -⟩ := publishRoot_same pos item v
  have hhead' : (fat16Publish pos item v).header = v.header := hhead
  refine ⟨⟨hfirst.trans hs.rooted.first, ?_, hcached.total_le⟩, hcached, ?_⟩
  · rw [hhead']
    exact hsector.trans hs.rooted.pos
  · rw [hhead']
    exact hs.bound

end

end Rorthox.Fat
