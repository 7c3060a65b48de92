import Rorthox.Memory.KHeap
import Rorthox.Memory.Paging

/-!
# Address spaces

`paging_new_4gb`, `paging_free_4gb` and sequences of `paging_map_to` of
`kernel/memory/paging/paging.c`. A directory with its 1024 tables is an address space: a value
for each of the 2^20 pages. `Tables` says how the words of memory spell an address space; every
mapping changes the space by the pages it covers and leaves the rest of the spelling alone.
-/

namespace Rorthox.Memory

open Lib

/-! ## Making and freeing -/

/-- What the functions change: the kernel heap, and the words of the blocks they got from it. -/
structure PageState where
  heap : KHeap
  words : Words

/-- `memset(ptr, 0, 4 * count)` on a block. -/
def zeroWords (words : Words) (base count : Nat) : Words :=
  fun b i => if b = base ∧ i < count then 0 else words b i

/-- `kzalloc` of `count` words. -/
def kzallocWords (count : Nat) (s : PageState) : Option Nat × PageState :=
  match kmalloc s.heap (4 * count) with
  | (none, heap) => (none, { s with heap })
  | (some ptr, heap) => (some ptr, ⟨heap, zeroWords s.words ptr count⟩)

/-- The entries of a table from `b` on. -/
def fillLoop (table offset flags : Nat) : Nat → Nat → Words → Words
  | 0, _, words => words
  | left + 1, b, words =>
      fillLoop table offset flags left (b + 1)
        (setWord words table b ((offset + b * pagingPageSize) % 2 ^ 32 ||| flags))

/-- The loop over the tables; whether it got all of them, and how many it has. -/
def tablesLoop (directory flags : Nat) : Nat → Nat → Nat → PageState → Bool × Nat × PageState
  | 0, i, _, s => (true, i, s)
  | left + 1, i, offset, s =>
      match kzallocWords pagingTotalEntriesPerTable s with
      | (none, s) => (false, i, s)
      | (some entry, s) =>
          let words := fillLoop entry offset flags pagingTotalEntriesPerTable 0 s.words
          let words := setWord words directory i (entry ||| flags ||| pagingIsWriteable)
          tablesLoop directory flags left (i + 1)
            ((offset + pagingTotalEntriesPerTable * pagingPageSize) % 2 ^ 32) { s with words }

/-- The table an entry of the directory leads to. -/
def tableOf (words : Words) (directory i : Nat) : Nat := words directory i &&& 0xFFFFF000

def freeTables (words : Words) (directory : Nat) : Nat → Nat → KHeap → KHeap
  | 0, _, heap => heap
  | left + 1, i, heap =>
    freeTables words directory left (i + 1) (kfree heap (tableOf words directory i))

/-- The way out after a failed allocation. -/
def pagingUndo (directory total : Nat) (s : PageState) : PageState :=
  { s with heap := kfree (freeTables s.words directory total 0 s.heap) directory }

def pagingNew4gb (flags : Nat) (s : PageState) : Option Nat × PageState :=
  match kzallocWords pagingTotalEntriesPerTable s with
  | (none, s) => (none, s)
  | (some directory, s) =>
      match tablesLoop directory flags pagingTotalEntriesPerTable 0 0 s with
      | (false, total, s) => (none, pagingUndo directory total s)
      | (true, total, s) =>
          match kzallocWords 1 s with
          | (none, s) => (none, pagingUndo directory total s)
          | (some chunk, s) => (some chunk, { s with words := setWord s.words chunk 0 directory })

def pagingFree4gb (chunk : Nat) (s : PageState) : PageState :=
  let directory := s.words chunk 0
  let heap := freeTables s.words directory pagingTotalEntriesPerTable 0 s.heap
  { s with heap := kfree (kfree heap directory) chunk }

/-! ## Sequences of mappings -/

/-- A call of `paging_map_to`. -/
structure MapCall where
  virt : UInt32
  phys : UInt32
  physEnd : UInt32
  flags : Nat
  small : flags < 4096

/-- The call on the directory of `chunk`. -/
def MapCall.run (currentDirectory chunk : Nat) (c : MapCall) (words : Words) :
    Except Errno Unit × Words :=
  pagingMapTo currentDirectory words (words chunk 0) c.virt.toNat c.phys.toNat
    c.physEnd.toNat c.flags

/-- The results of the calls, and the words after them. -/
def pagingMaps (currentDirectory chunk : Nat) : List MapCall → Words →
    List (Except Errno Unit) × Words
  | [], words => ([], words)
  | c :: calls, words =>
      let (r, words) := c.run currentDirectory chunk words
      let (rs, words) := pagingMaps currentDirectory chunk calls words
      (r :: rs, words)

/-! ## The meaning of a mapping -/

/-- The address of a page. -/
def IsPage (v : Nat) : Prop := v % 4096 = 0 ∧ v < 2 ^ 32

/-- How far `v` lies behind `virt`, around the end of the address space. -/
def pageDistance (virt v : Nat) : Nat := (v + 2 ^ 32 - virt) % 2 ^ 32

/-- The space with `size` bytes from `virt` on mapped to `phys` and what follows. -/
def mapped (virt phys size flags : Nat) (space : Nat → Nat) : Nat → Nat :=
  fun v => if pageDistance virt v < size then (phys + pageDistance virt v) ||| flags else space v

/-- The call passes the tests of alignment and order. -/
def MapCall.Accepted (c : MapCall) : Prop :=
  c.virt.toNat % 4096 = 0 ∧ c.phys.toNat % 4096 = 0 ∧ c.physEnd.toNat % 4096 = 0 ∧ c.phys.toNat ≤
    c.physEnd.toNat

instance (c : MapCall) : Decidable c.Accepted := inferInstanceAs (Decidable (_ ∧ _))

/-- The pages between `phys` and `physEnd` are mapped over `v`. -/
def MapCall.Covers (c : MapCall) (v : Nat) : Prop :=
  pageDistance c.virt.toNat v < c.physEnd.toNat - c.phys.toNat

instance (c : MapCall) (v : Nat) : Decidable (c.Covers v) := inferInstanceAs (Decidable (_ < _))

/-- The value the call gives to a page it covers. -/
def MapCall.value (c : MapCall) (v : Nat) : Nat :=
  (c.phys.toNat + pageDistance c.virt.toNat v) ||| c.flags

/-- The value of the last successful call that covered the page. -/
def lastValue (calls : List MapCall) (space : Nat → Nat) (v : Nat) : Nat :=
  match calls.reverse.find? fun c => c.Accepted ∧ c.Covers v with
  | some c => c.value v
  | none => space v

theorem lastValue_cons (c : MapCall) (calls : List MapCall) (space : Nat → Nat) (v : Nat) :
    lastValue (c :: calls) space v =
      lastValue calls (fun v => if c.Accepted ∧ c.Covers v then c.value v else space v) v := by
  rw [lastValue, lastValue, List.reverse_cons, List.find?_append]
  cases calls.reverse.find? fun c => decide (c.Accepted ∧ c.Covers v) with
  | some d => rfl
  | none =>
    by_cases h : c.Accepted ∧ c.Covers v
    · simp [h]
    · rw [if_neg h, Option.none_or, List.find?_cons_of_neg (by simpa using h)]
      rfl

/-! ## How words spell an address space -/

/-- The flags of the kernel: present and writeable. -/
def kernelFlags : Nat := pagingIsPresent ||| pagingIsWriteable

/-- The words at `chunk`, `directory` and the blocks `table` spell the space. An entry of the
directory has the user bit as soon as one of its pages is a user's. -/
structure Tables (words : Words) (chunk directory : Nat) (table : Nat → Nat) (space : Nat → Nat) :
    Prop where
  root : words chunk 0 = directory
  page : ∀ i, i < 1024 → table i % 4096 = 0 ∧ table i < 2 ^ 32
  inj : ∀ i j, i < 1024 → j < 1024 → table i = table j → i = j
  apart : ∀ i, i < 1024 → table i ≠ directory ∧ table i ≠ chunk
  loose : directory ≠ chunk ∧ directory ≠ 0
  entry : ∀ i, i < 1024 → words directory i = table i ||| 3 ∨ words directory i = table i ||| 7
  leaf : ∀ v, IsPage v → words (table (v / 2 ^ 22)) (v % 2 ^ 22 / 4096) = space v
  user : ∀ v, IsPage v → space v &&& 5 = 5 → words directory (v / 2 ^ 22) = table (v / 2 ^ 22) ||| 7

variable {b flags j p : Nat} {s' : PageState} {m : Multiset Nat}

theorem lor_page (hp : p % 4096 = 0) (hlt : p < 2 ^ 32) (hb : b < 4096) :
    (p ||| b) &&& 0xFFFFF000 = p := by
  rw [lor_offset hp hb, land_page_of_lt (by omega)]
  omega

variable {cur directory i n t v virt : Nat} {table : Nat → Nat} {base k : KHeap} {s : PageState}
  {words : Words}

theorem IsPage.index (h : IsPage v) : v / 2 ^ 22 < 1024 ∧ v % 2 ^ 22 / 4096 < 1024 := by
  obtain ⟨-, hlt⟩ := h
  omega

/-- A page is where its indexes say. -/
theorem IsPage.inj {w : Nat} (hv : IsPage v) (hw : IsPage w) (h1 : v / 2 ^ 22 = w / 2 ^ 22)
    (h2 : v % 2 ^ 22 / 4096 = w % 2 ^ 22 / 4096) : v = w := by
  obtain ⟨hv, -⟩ := hv
  obtain ⟨hw, -⟩ := hw
  omega

theorem IsPage.indexes (h : IsPage v) :
    pagingGetIndexes v = .ok (v / 2 ^ 22, v % 2 ^ 22 / 4096) := by
  have haligned : pagingIsAligned v = true := by
    rw [pagingIsAligned, beq_iff_eq]
    exact h.1
  simp only [pagingGetIndexes, haligned]
  rfl

section Space

variable {words : Words} {chunk directory : Nat} {table space : Nat → Nat}

section

variable (h : Tables words chunk directory table space)
include h

theorem Tables.congr {space' : Nat → Nat} (hsame : ∀ v, IsPage v → space' v = space v) :
    Tables words chunk directory table space' :=
  { h with
    leaf := fun v hv => (h.leaf v hv).trans (hsame v hv).symm
    user := fun v hv huser => h.user v hv (hsame v hv ▸ huser) }

theorem Tables.table_eq (hi : i < 1024) : tableOf words directory i = table i := by
  obtain ⟨hpage, hlt⟩ := h.page i hi
  rw [tableOf]
  rcases h.entry i hi with he | he
  · rw [he, lor_page hpage hlt (by decide)]
  · rw [he, lor_page hpage hlt (by decide)]

/-- The bits of an entry of the directory. -/
theorem Tables.bits (hi : i < 1024) :
    words directory i &&& pagingIsPresent = 1 ∧ words directory i &&& pagingPageSizeFlag = 0 ∧
      words directory i ||| pagingAccessFromAll = table i ||| 7 := by
  obtain ⟨hpage, -⟩ := h.page i hi
  rcases h.entry i hi with he | he
  · rw [he, land_lor_offset hpage (by decide), land_lor_offset hpage (by decide), Nat.lor_assoc]
    exact ⟨rfl, rfl, rfl⟩
  · rw [he, land_lor_offset hpage (by decide), land_lor_offset hpage (by decide), Nat.lor_assoc]
    exact ⟨rfl, rfl, rfl⟩

theorem Tables.get (hv : IsPage v) : pagingGet words directory v = space v := by
  simp only [pagingGet, hv.indexes]
  rw [← tableOf, h.table_eq hv.index.1, h.leaf v hv]

end

/-! ## One page -/

theorem setWord_self (words : Words) (base index value : Nat) :
    setWord words base index value base index = value :=
  if_pos ⟨rfl, rfl⟩

theorem setWord_base {base : Nat} (h : b ≠ base) (words : Words) (index value i : Nat) :
    setWord words base index value b i = words b i := if_neg fun hc => h hc.1

theorem setWord_index {index : Nat} (h : i ≠ index) (words : Words) (base value b : Nat) :
    setWord words base index value b i = words b i := if_neg fun hc => h hc.2

section

variable (h : Tables words chunk directory table space)
include h

/-- The user bit of an entry of the directory. -/
theorem Tables.setUser (i : Nat) :
    Tables (setWord words directory i (table i ||| 7)) chunk directory table space where
  root := by rw [setWord_base h.loose.1.symm, h.root]
  page := h.page
  inj := h.inj
  apart := h.apart
  loose := h.loose
  entry j hj := by
    by_cases hji : j = i
    · rw [hji, setWord_self]
      exact Or.inr rfl
    · rw [setWord_index hji]
      exact h.entry j hj
  leaf v hv := by
    rw [setWord_base (h.apart _ hv.index.1).1]
    exact h.leaf v hv
  user v hv huser := by
    by_cases hvi : v / 2 ^ 22 = i
    · rw [hvi, setWord_self]
    · rw [setWord_index hvi]
      exact h.user v hv huser

/-- The value of a page, when the entry of the directory is ready for it. -/
theorem Tables.setLeaf {val : Nat} (hv : IsPage v)
    (huser : val &&& 5 = 5 → words directory (v / 2 ^ 22) = table (v / 2 ^ 22) ||| 7) :
    Tables (setWord words (table (v / 2 ^ 22)) (v % 2 ^ 22 / 4096) val) chunk directory table
      (Function.update space v val) where
  root := by rw [setWord_base (h.apart _ hv.index.1).2.symm, h.root]
  page := h.page
  inj := h.inj
  apart := h.apart
  loose := h.loose
  entry j hj := by
    rw [setWord_base (h.apart _ hv.index.1).1.symm]
    exact h.entry j hj
  leaf w hw := by
    by_cases hwv : w = v
    · rw [hwv, setWord_self, Function.update_self]
    · rw [Function.update_of_ne hwv, setWord, if_neg, h.leaf w hw]
      rintro ⟨h1, h2⟩
      exact hwv (hw.inj hv (h.inj _ _ hw.index.1 hv.index.1 h1) h2)
  user w hw hbits := by
    rw [setWord_base (h.apart _ hv.index.1).1.symm]
    by_cases hwv : w = v
    · subst hwv
      rw [Function.update_self] at hbits
      exact huser hbits
    · rw [Function.update_of_ne hwv] at hbits
      exact h.user w hw hbits

theorem Tables.set (hcur : directory ≠ cur) (hv : IsPage v) (val : Nat) :
    ∃ words', pagingSet cur words directory v val = .ok words' ∧
      Tables words' chunk directory table (Function.update space v val) := by
  have hi := hv.index.1
  have hrefused : (decide (directory = cur) || !pagingIsAligned v) = false := by
    rw [Bool.or_eq_false_iff, Bool.not_eq_false', pagingIsAligned, beq_iff_eq]
    exact ⟨decide_eq_false hcur, hv.1⟩
  have hmask : words directory (v / 2 ^ 22) &&& 0xFFFFF000 = table (v / 2 ^ 22) := h.table_eq hi
  obtain ⟨hpresent, hlarge, hor⟩ := h.bits hi
  simp only [pagingSet, hrefused, Bool.false_eq_true, if_false, hv.indexes, bind, Except.bind,
    hmask, hpresent, hlarge, hor]
  by_cases hval : val &&& 5 = 5
  · exact ⟨_, if_pos hval, (h.setUser _).setLeaf hv fun _ => setWord_self _ _ _ _⟩
  · exact ⟨_, if_neg hval, h.setLeaf hv fun hbits => absurd hbits hval⟩

end

/-! ## Ranges -/

theorem pageDistance_next (hvirt : IsPage virt) (hv : IsPage v) (hne : v ≠ virt) :
    pageDistance virt v = pageDistance ((virt + 4096) % 2 ^ 32) v + 4096 := by
  obtain ⟨h1, h2⟩ := hvirt
  obtain ⟨h3, h4⟩ := hv
  unfold pageDistance
  omega

theorem pageDistance_self (h : IsPage virt) :
    pageDistance virt virt = 0 ∧ pageDistance ((virt + 4096) % 2 ^ 32) virt = 2 ^ 32 - 4096 := by
  obtain ⟨h1, h2⟩ := h
  unfold pageDistance
  omega

/-- A page and what follows it. -/
theorem mapped_step (hvirt : IsPage virt) (hn : n < 2 ^ 20) (phys flags : Nat) (space : Nat → Nat)
    (hv : IsPage v) : mapped virt phys ((n + 1) * 4096) flags space v =
      mapped ((virt + 4096) % 2 ^ 32) (phys + 4096) (n * 4096) flags
        (Function.update space virt (phys ||| flags)) v := by
  by_cases hne : v = virt
  · subst hne
    obtain ⟨h1, h2⟩ := pageDistance_self hvirt
    rw [mapped, mapped, h1, h2, if_pos (by omega), if_neg (by omega), Function.update_self,
      Nat.add_zero]
  · have hdist := pageDistance_next hvirt hv hne
    rw [mapped, mapped, Function.update_of_ne hne, hdist, ← Nat.add_assoc, Nat.add_right_comm]
    by_cases hlt : pageDistance ((virt + 4096) % 2 ^ 32) v < n * 4096
    · rw [if_pos hlt, if_pos (by omega)]
    · rw [if_neg hlt, if_neg (by omega)]

theorem Tables.mapRange (hcur : directory ≠ cur) (n : Nat) : ∀ {words : Words} {space : Nat → Nat}
    {virt phys : Nat}, Tables words chunk directory table space → IsPage virt → phys % 4096 = 0 →
      n ≤ 2 ^ 20 →
    phys + n * 4096 < 2 ^ 32 → ∃ words', pagingMapRange cur directory flags n virt phys words =
      (.ok (), words') ∧
      Tables words' chunk directory table (mapped virt phys (n * 4096) flags space) := by
  induction n with
  | zero =>
    intro words space virt phys h _ _ _ _
    refine ⟨words, rfl, h.congr fun v _ => ?_⟩
    rw [mapped, if_neg (by omega)]
  | succ n ih =>
    intro words space virt phys h hvirt hphys hn hend
    obtain ⟨words1, hset, h1⟩ := h.set hcur hvirt (phys ||| flags)
    have hmap : pagingMap cur words directory virt phys flags = .ok words1 := by
      have haligned : (decide (virt % pagingPageSize ≠ 0) || decide (phys % pagingPageSize ≠ 0)) =
          false := by
        rw [Bool.or_eq_false_iff]
        exact ⟨decide_eq_false (not_not_intro hvirt.1), decide_eq_false (not_not_intro hphys)⟩
      rw [pagingMap, haligned]
      exact hset
    have hnext : IsPage ((virt + 4096) % 2 ^ 32) := by
      obtain ⟨h3, h4⟩ := hvirt
      exact ⟨by omega, by omega⟩
    have hphys' : (phys + pagingPageSize) % 2 ^ 32 = phys + 4096 :=
      Nat.mod_eq_of_lt (by unfold pagingPageSize; omega)
    obtain ⟨words2, hrest, h2⟩ := ih h1 hnext (show (phys + 4096) % 4096 = 0 by omega) (by omega)
      (by omega)
    refine ⟨words2, ?_, h2.congr fun v hv => mapped_step hvirt (by omega) phys flags space hv⟩
    simp only [pagingMapRange, hmap, hphys']
    exact hrest

/-- A call of `paging_map_to` is refused without a change, or maps all its pages. -/
theorem Tables.mapCall (h : Tables words chunk directory table space) (hcur : directory ≠ cur)
    (c : MapCall) : (¬ c.Accepted → c.run cur chunk words = (.error .einvarg, words)) ∧
    (c.Accepted → ∃ words', c.run cur chunk words = (.ok (), words') ∧
      Tables words' chunk directory table fun v => if c.Covers v then c.value v else space v) := by
  have hvirt := c.virt.toNat_lt
  have hend := c.physEnd.toNat_lt
  have hrun : c.run cur chunk words =
      if c.virt.toNat % 4096 ≠ 0 then (.error .einvarg, words)
      else if c.phys.toNat % 4096 ≠ 0 then (.error .einvarg, words)
      else if c.physEnd.toNat % 4096 ≠ 0 then (.error .einvarg, words)
      else if c.physEnd.toNat < c.phys.toNat then (.error .einvarg, words)
      else pagingMapRange cur directory c.flags ((c.physEnd.toNat - c.phys.toNat) / 4096)
        c.virt.toNat c.phys.toNat words := by
    rw [MapCall.run, h.root]
    rfl
  rw [hrun]
  constructor
  · intro hno
    unfold MapCall.Accepted at hno
    split_ifs
    · rfl
    · rfl
    · rfl
    · rfl
    · omega
  · rintro ⟨h1, h2, h3, h4⟩
    have hcount : (c.physEnd.toNat - c.phys.toNat) / 4096 * 4096 = c.physEnd.toNat -
      c.phys.toNat := by omega
    obtain ⟨words', hrange, htables⟩ := Tables.mapRange hcur
      ((c.physEnd.toNat - c.phys.toNat) / 4096) h ⟨h1, hvirt⟩ h2 (by omega) (by omega)
    rw [hcount] at htables
    rw [if_neg (not_not_intro h1), if_neg (not_not_intro h2), if_neg (not_not_intro h3),
      if_neg (by omega)]
    exact ⟨words', hrange, htables⟩

/-- What a sequence of calls makes of the space. -/
theorem Tables.maps (hcur : directory ≠ cur) (calls : List MapCall) :
    ∀ {words : Words} {space : Nat → Nat},
    Tables words chunk directory table space →
    (pagingMaps cur chunk calls words).1 = calls.map (fun c =>
      if c.Accepted then .ok () else .error .einvarg) ∧
      Tables (pagingMaps cur chunk calls words).2 chunk directory table
        (lastValue calls space) := by
  induction calls with
  | nil => exact fun h => ⟨rfl, h⟩
  | cons c calls ih =>
    intro words space h
    obtain ⟨hno, hyes⟩ := h.mapCall hcur c
    by_cases hc : c.Accepted
    · obtain ⟨words1, hrun, h1⟩ := hyes hc
      obtain ⟨hresults, h2⟩ := ih h1
      simp only [pagingMaps, hrun, List.map_cons, if_pos hc, hresults]
      refine ⟨trivial, h2.congr fun v _ => ?_⟩
      simp only [lastValue_cons, hc, true_and]
    · obtain ⟨hresults, h2⟩ := ih h
      simp only [pagingMaps, hno hc, List.map_cons, if_neg hc, hresults]
      refine ⟨trivial, h2.congr fun v _ => ?_⟩
      simp only [lastValue_cons, hc, false_and, if_false]

/-! ## User access -/

theorem Tables.translate (h : Tables words chunk directory table space) {a : Nat} (ha : a < 2 ^ 32)
    (write : Bool) : pagingUserTranslate words directory a write =
      if space (a - a % 4096) &&& requiredBits write = requiredBits write then
        .ok ((space (a - a % 4096) &&& 0xFFFFF000) ||| (a &&& (pagingPageSize - 1)))
      else .error .einvarg := by
  have hpage : IsPage (a - a % 4096) := ⟨by omega, by omega⟩
  have hi := hpage.index.1
  have h22 : a >>> 22 = (a - a % 4096) / 2 ^ 22 := by
    rw [Nat.shiftRight_eq_div_pow]
    omega
  have h12 : (a >>> 12) &&& 0x3FF = (a - a % 4096) % 2 ^ 22 / 4096 := by
    rw [Nat.shiftRight_eq_div_pow, show (0x3FF : Nat) = 2 ^ 10 - 1 from rfl, land_low]
    omega
  have hmask : words directory ((a - a % 4096) / 2 ^ 22) &&& 0xFFFFF000 =
    table ((a - a % 4096) / 2 ^ 22) := h.table_eq hi
  have hleaf := h.leaf _ hpage
  have huser := h.user _ hpage
  obtain ⟨htable, -⟩ := h.page _ hi
  simp only [pagingUserTranslate, if_neg h.loose.2, h22, h12, hmask, hleaf, (h.bits hi).2.1]
  generalize space (a - a % 4096) = val at huser ⊢
  have hfive : requiredBits write &&& 5 = 5 := by cases write <;> rfl
  have hneeds : val &&& requiredBits write = requiredBits write → val &&& 5 = 5 := by
    intro hbits
    calc val &&& 5 = (val &&& requiredBits write) &&& 5 := by rw [Nat.land_assoc, hfive]
      _ = 5 := by rw [hbits, hfive]
  have hentry : val &&& requiredBits write = requiredBits write →
      words directory ((a - a % 4096) / 2 ^ 22) &&& requiredBits write = requiredBits write := by
    intro hbits
    rw [huser (hneeds hbits), land_lor_offset htable (by cases write <;> decide)]
    cases write <;> rfl
  generalize words directory ((a - a % 4096) / 2 ^ 22) = entry at hentry
  by_cases hbits : val &&& requiredBits write = requiredBits write
  · simp [hentry hbits, hbits, pure, Except.pure]
  · by_cases hdir : entry &&& requiredBits write = requiredBits write
    · simp [hdir, hbits, throw, throwThe, MonadExceptOf.throw]
    · simp [hdir, hbits, throw, throwThe, MonadExceptOf.throw]

end Space

/-! ## Construction -/

theorem blockAddr_page (ht : t < heapBlocks) : blockAddr t % 4096 = 0 ∧ blockAddr t < 2 ^ 32 := by
  unfold blockAddr heapAddress blockSize
  unfold heapBlocks at ht
  omega

/-- An allocation changes no run and counts as refused, or adds a block. -/
inductive Allocated (count : Nat) (s : PageState) : Option Nat × PageState → Prop where
  | none {s' : PageState} (hwords : s'.words = s.words) (hheap : s'.heap.heap = s.heap.heap)
      (hrefusals : s'.heap.refusals = s.heap.refusals + 1) : Allocated count s (none, s')
  | some {s' : PageState} {t : Nat} (ht : t < heapBlocks)
    (hwords : s'.words = zeroWords s.words (blockAddr t) count)
      (hrefusals : s'.heap.refusals = s.heap.refusals)
      (howns : ∀ base m, Owns base m s.heap → Owns base (blockAddr t ::ₘ m) s'.heap) :
      Allocated count s (some (blockAddr t), s')

theorem kzallocWords_allocated (count : Nat) (s : PageState) :
    Allocated count s (kzallocWords count s) := by
  have hcases := kmalloc_cases s.heap (4 * count)
  rw [kzallocWords]
  generalize kmalloc s.heap (4 * count) = r at hcases
  obtain ⟨ptr, heap⟩ := r
  rcases hcases with ⟨hnone, hheap, href⟩ | ⟨t, hv, -, hsome, hheap, hruns, href⟩
  · obtain rfl : ptr = none := hnone
    exact .none rfl hheap href
  · obtain rfl : ptr = some (blockAddr t) := hsome
    have ht : t < heapBlocks := by
      have h1 := hv.1
      have h2 := hv.2.1
      omega
    exact .some ht rfl href fun base m ho => ho.malloc hv hheap hruns

theorem fillLoop_apply (table offset flags left : Nat) : ∀ (b : Nat) (words : Words) (base i : Nat),
    fillLoop table offset flags left b words base i =
      if base = table ∧ b ≤ i ∧ i < b + left then (offset + i * pagingPageSize) % 2 ^ 32 |||
        flags else words base i := by
  induction left with
  | zero =>
    intro b words base i
    rw [fillLoop, if_neg (by omega)]
  | succ left ih =>
    intro b words base i
    rw [fillLoop, ih]
    by_cases hin : base = table ∧ b + 1 ≤ i ∧ i < b + 1 + left
    · rw [if_pos hin, if_pos (by omega)]
    · rw [if_neg hin, setWord]
      by_cases hfirst : base = table ∧ i = b
      · rw [if_pos hfirst, if_pos (by omega), hfirst.2]
      · rw [if_neg hfirst, if_neg (by omega)]

/-- The addresses of the first `n` tables. -/
def firstTables (table : Nat → Nat) (n : Nat) : Multiset Nat :=
  ((List.range n).map table : List Nat)

theorem firstTables_succ (table : Nat → Nat) (n : Nat) :
    firstTables table (n + 1) = table n ::ₘ firstTables table n := by
  rw [firstTables, firstTables, List.range_succ, List.map_append, Multiset.cons_coe,
    Multiset.coe_eq_coe]
  exact List.perm_append_singleton _ _

theorem firstTables_congr {table' : Nat → Nat} (h : ∀ j, j < n → table' j = table j) :
    firstTables table' n = firstTables table n := by
  rw [firstTables, firstTables, List.map_congr_left fun j hj => h j (List.mem_range.mp hj)]

theorem mem_firstTables : p ∈ firstTables table n ↔ ∃ j, j < n ∧ table j = p := by
  simp [firstTables]

/-- `n` tables are made and entered. -/
structure Built (base : KHeap) (directory n : Nat) (table : Nat → Nat) (s : PageState) : Prop where
  owns : Owns base (directory ::ₘ firstTables table n) s.heap
  page : ∀ j, j < n → table j % 4096 = 0 ∧ table j < 2 ^ 32
  entry : ∀ j, j < n → s.words directory j = table j ||| 3
  leaf : ∀ j, j < n → ∀ b, b < 1024 → s.words (table j) b = (j * 2 ^ 22 + b * 4096) ||| 3

theorem Built.apart (h : Built base directory n table s) (hj : j < n) :
    table j ≠ directory := fun he =>
  (Multiset.nodup_cons.mp h.owns.nodup).1 (mem_firstTables.mpr ⟨j, hj, he⟩)

/-- One more table. -/
theorem Built.step (h : Built base directory n table s) (hn : n < 1024) (ht : t < heapBlocks)
    (hwords : s'.words = zeroWords s.words (blockAddr t) pagingTotalEntriesPerTable)
    (howns : ∀ base m, Owns base m s.heap → Owns base (blockAddr t ::ₘ m) s'.heap) :
    Built base directory (n + 1) (Function.update table n (blockAddr t))
      ⟨s'.heap, setWord (fillLoop (blockAddr t) (n * 2 ^ 22) kernelFlags pagingTotalEntriesPerTable
        0 s'.words) directory n (blockAddr t ||| kernelFlags ||| pagingIsWriteable)⟩ := by
  have hnew := howns _ _ h.owns
  obtain ⟨hfresh, -⟩ := Multiset.nodup_cons.mp hnew.nodup
  have hdir : blockAddr t ≠ directory := fun he => hfresh (he ▸ Multiset.mem_cons_self _ _)
  have hother : ∀ j, j < n → table j ≠ blockAddr t := fun j hj he =>
    hfresh (Multiset.mem_cons_of_mem (mem_firstTables.mpr ⟨j, hj, he⟩))
  have hold : ∀ j, j < n → Function.update table n (blockAddr t) j = table j := fun j hj =>
    Function.update_of_ne (Nat.ne_of_lt hj) _ _
  -- blocks other than the new one are as before
  have hkeep : ∀ b i, b ≠ blockAddr t →
      fillLoop (blockAddr t) (n * 2 ^ 22) kernelFlags pagingTotalEntriesPerTable 0 s'.words b i =
        s.words b i := by
    intro b i hb
    rw [fillLoop_apply, if_neg fun hc => hb hc.1, hwords, zeroWords, if_neg fun hc => hb hc.1]
  refine ⟨?_, fun j hj => ?_, fun j hj => ?_, fun j hj b hb => ?_⟩
  · rw [firstTables_succ, Function.update_self, firstTables_congr hold, Multiset.cons_swap]
    exact hnew
  · rcases Nat.lt_succ_iff_lt_or_eq.mp hj with hj | rfl
    · rw [hold j hj]
      exact h.page j hj
    · rw [Function.update_self]
      exact blockAddr_page ht
  · rcases Nat.lt_succ_iff_lt_or_eq.mp hj with hj | rfl
    · show setWord _ _ _ _ _ _ = _
      rw [setWord_index (Nat.ne_of_lt hj), hkeep _ _ hdir.symm, hold j hj]
      exact h.entry j hj
    · show setWord _ _ _ _ _ _ = _
      rw [setWord_self, Function.update_self, Nat.lor_assoc]
      rfl
  · rcases Nat.lt_succ_iff_lt_or_eq.mp hj with hj | rfl
    · show setWord _ _ _ _ _ _ = _
      rw [hold j hj, setWord_base (h.apart hj), hkeep _ _ (hother j hj)]
      exact h.leaf j hj b hb
    · show setWord _ _ _ _ _ _ = _
      rw [Function.update_self, setWord_base hdir, fillLoop_apply,
        if_pos ⟨rfl, Nat.zero_le b, (Nat.zero_add 1024).symm ▸ hb⟩]
      unfold pagingPageSize
      rw [Nat.mod_eq_of_lt (by omega)]
      rfl

theorem tablesLoop_built (left : Nat) : ∀ {n : Nat} {table : Nat → Nat} {s : PageState},
    Built base directory n table s → n + left = 1024 →
    match tablesLoop directory kernelFlags left n (n * 2 ^ 22 % 2 ^ 32) s with
    | (true, total, s') => total = 1024 ∧ s'.heap.refusals = s.heap.refusals ∧ ∃ table',
      Built base directory total table' s'
    | (false, total, s') => s'.heap.refusals = s.heap.refusals + 1 ∧ ∃ table',
      Built base directory total table' s' := by
  induction left with
  | zero =>
    intro n table s h hn
    exact ⟨hn, rfl, table, h⟩
  | succ left ih =>
    intro n table s h hn
    have halloc := kzallocWords_allocated pagingTotalEntriesPerTable s
    rw [tablesLoop]
    generalize kzallocWords pagingTotalEntriesPerTable s = r at halloc
    cases halloc with
    | none hwords hheap href =>
      exact ⟨href, table, h.owns.of_heap hheap, h.page, fun j hj => hwords ▸ h.entry j hj,
        fun j hj => hwords ▸ h.leaf j hj⟩
    | some ht hwords href howns =>
      have hoffset : n * 2 ^ 22 % 2 ^ 32 = n * 2 ^ 22 := Nat.mod_eq_of_lt (by omega)
      have hnext : (n * 2 ^ 22 + pagingTotalEntriesPerTable * pagingPageSize) % 2 ^ 32 =
          (n + 1) * 2 ^ 22 % 2 ^ 32 := by
        rw [Nat.succ_mul, show pagingTotalEntriesPerTable * pagingPageSize = 2 ^ 22 by decide]
      have hrest := ih (h.step (by omega) ht hwords howns) (by omega)
      simp only [hoffset, hnext]
      simp only [kernelFlags] at hrest ⊢
      rw [← href]
      exact hrest

/-! ## Freeing -/

theorem freeTables_owns (left : Nat) : ∀ {base k : KHeap} {m : Multiset Nat} {i : Nat},
    Owns base (((List.range' i left).map (tableOf words directory) : List Nat) + m) k →
    Owns base m (freeTables words directory left i k) := by
  induction left with
  | zero =>
    intro base k m i h
    rw [List.range'_zero, List.map_nil, Multiset.coe_nil, zero_add] at h
    exact h
  | succ left ih =>
    intro base k m i h
    rw [List.range'_succ, List.map_cons, ← Multiset.cons_coe, Multiset.cons_add] at h
    exact ih h.free

theorem freeTables_refusals (left : Nat) : ∀ {i : Nat} {k : KHeap},
    (freeTables words directory left i k).refusals = k.refusals := by
  induction left with
  | zero => exact fun {_ _} => rfl
  | succ left ih => exact fun {_ _} => ih

/-- The tables that the entries lead to are given back. -/
theorem freeTables_first (htable : ∀ j, j < n → tableOf words directory j = table j)
    (h : Owns base (firstTables table n + m) k) :
    Owns base m (freeTables words directory n 0 k) := by
  refine freeTables_owns n ?_
  rw [← List.range_eq_range', List.map_congr_left fun j hj => htable j (List.mem_range.mp hj)]
  exact h

theorem Built.table_eq (h : Built base directory n table s) (hj : j < n) :
    tableOf s.words directory j = table j := by
  obtain ⟨hpage, hlt⟩ := h.page j hj
  rw [tableOf, h.entry j hj, lor_page hpage hlt (by decide)]

/-- The way out gives back all there is. -/
theorem Built.undo (h : Built base directory n table s) :
    (pagingUndo directory n s).heap.heap = base.heap := by
  have howns := h.owns
  rw [← Multiset.add_zero (firstTables table n), ← Multiset.add_cons] at howns
  exact (freeTables_first (fun j hj => h.table_eq hj) howns).free.done

theorem pagingUndo_refusals (directory n : Nat) (s : PageState) :
    (pagingUndo directory n s).heap.refusals = s.heap.refusals := freeTables_refusals n

/-! ## Whole lives -/

/-- The last block of a new address space. -/
theorem Built.finish (h : Built base directory 1024 table s) (hdir : directory ≠ 0)
    (hwords : s'.words = zeroWords s.words (blockAddr t) 1)
    (howns : ∀ base m, Owns base m s.heap → Owns base (blockAddr t ::ₘ m) s'.heap) :
    Tables (setWord s'.words (blockAddr t) 0 directory) (blockAddr t) directory table
      (· ||| kernelFlags) := by
  obtain ⟨hfresh, hnodup⟩ := Multiset.nodup_cons.mp (howns _ _ h.owns).nodup
  have hloose : directory ≠ blockAddr t := fun he => hfresh (he ▸ Multiset.mem_cons_self _ _)
  have hchunk : ∀ i, i < 1024 → table i ≠ blockAddr t := fun i hi he =>
    hfresh (Multiset.mem_cons_of_mem (mem_firstTables.mpr ⟨i, hi, he⟩))
  have hkeep : ∀ b i, b ≠ blockAddr t → setWord s'.words (blockAddr t) 0 directory b i =
      s.words b i := by
    intro b i hb
    rw [setWord_base hb, hwords, zeroWords, if_neg fun hc => hb hc.1]
  have hinj := List.inj_on_of_nodup_map (Multiset.coe_nodup.mp (Multiset.nodup_cons.mp hnodup).2)
  refine ⟨setWord_self _ _ _ _, h.page, fun i j hi hj he => ?_, fun i hi =>
    ⟨h.apart hi, hchunk i hi⟩, ⟨hloose, hdir⟩,
    fun i hi => Or.inl ?_, fun v hv => ?_, fun v hv hbits => ?_⟩
  · exact hinj (List.mem_range.mpr hi) (List.mem_range.mpr hj) he
  · rw [hkeep _ _ hloose, h.entry i hi]
  · rw [hkeep _ _ (hchunk _ hv.index.1), h.leaf _ hv.index.1 _ hv.index.2]
    obtain ⟨haligned, -⟩ := hv
    rw [show v / 2 ^ 22 * 2 ^ 22 + v % 2 ^ 22 / 4096 * 4096 = v by omega]
    rfl
  · rw [land_lor_offset hv.1 (by decide)] at hbits
    exact absurd hbits (by decide)

/-- What the functions take from the heap for the address space at `chunk`. -/
def spaceBlocks (words : Words) (chunk : Nat) : Multiset Nat :=
  chunk ::ₘ words chunk 0 ::ₘ firstTables (tableOf words (words chunk 0)) 1024

theorem Tables.blocks {chunk : Nat} {space : Nat → Nat}
    (h : Tables words chunk directory table space) :
    spaceBlocks words chunk = chunk ::ₘ directory ::ₘ firstTables table 1024 := by
  rw [spaceBlocks, h.root, firstTables_congr fun i hi => h.table_eq hi]

theorem pagingNew4gb_cases (s : PageState) :
    let r := pagingNew4gb kernelFlags s
    (r.1 = none ∧ s.heap.refusals < r.2.heap.refusals ∧ r.2.heap.heap = s.heap.heap) ∨
    ∃ chunk directory table, r.1 = some chunk ∧ r.2.heap.refusals = s.heap.refusals ∧
      Tables r.2.words chunk directory table (· ||| kernelFlags) ∧
      Owns s.heap (chunk ::ₘ directory ::ₘ firstTables table 1024) r.2.heap := by
  have halloc := kzallocWords_allocated pagingTotalEntriesPerTable s
  rw [pagingNew4gb]
  generalize kzallocWords pagingTotalEntriesPerTable s = r at halloc
  cases halloc with
  | none hwords hheap href => exact Or.inl ⟨rfl, by rw [href]; exact Nat.lt_succ_self _, hheap⟩
  | @some s1 t ht hwords href howns =>
    have hstart : Built s.heap (blockAddr t) 0 (fun _ => 0) s1 :=
      ⟨howns _ _ (Owns.refl s.heap), fun j hj => absurd hj (Nat.not_lt_zero j), fun j hj =>
        absurd hj (Nat.not_lt_zero j), fun j hj => absurd hj (Nat.not_lt_zero j)⟩
    have hloop := tablesLoop_built pagingTotalEntriesPerTable hstart rfl
    rw [show 0 * 2 ^ 22 % 2 ^ 32 = 0 from rfl] at hloop
    dsimp only
    generalize tablesLoop (blockAddr t) kernelFlags pagingTotalEntriesPerTable 0 0 s1 = r at hloop
    obtain ⟨whole, total, s2⟩ := r
    cases whole with
    | false =>
      obtain ⟨href2, table, hbuilt⟩ := hloop
      exact Or.inl ⟨rfl, by rw [pagingUndo_refusals, href2, href]; exact Nat.lt_succ_self _,
        hbuilt.undo⟩
    | true =>
      obtain ⟨rfl, href2, table, hbuilt⟩ := hloop
      have hlast := kzallocWords_allocated 1 s2
      dsimp only
      generalize kzallocWords 1 s2 = r at hlast
      cases hlast with
      | none hwords3 hheap3 href3 =>
        have hbuilt3 : Built s.heap (blockAddr t) 1024 table _ :=
          ⟨hbuilt.owns.of_heap hheap3, hbuilt.page,
          fun j hj => hwords3 ▸ hbuilt.entry j hj, fun j hj => hwords3 ▸ hbuilt.leaf j hj⟩
        refine Or.inl ⟨rfl, ?_, hbuilt3.undo⟩
        rw [pagingUndo_refusals, href3, href2, href]
        exact Nat.lt_succ_self _
      | some ht3 hwords3 href3 howns3 =>
        exact Or.inr ⟨_, _, table, rfl, by rw [← href, ← href2, ← href3],
          hbuilt.finish (blockAddr_ne_zero t) hwords3 howns3, howns3 _ _ hbuilt.owns⟩

/-- The address space gives back its blocks and no others. -/
theorem Tables.free {chunk : Nat} {space : Nat → Nat} (h : Tables words chunk directory table space)
    (howns : Owns base (chunk ::ₘ directory ::ₘ firstTables table 1024 + m) k) :
    Owns base m (pagingFree4gb chunk ⟨k, words⟩).heap := by
  have hswap : chunk ::ₘ directory ::ₘ firstTables table 1024 + m =
      firstTables table 1024 + (directory ::ₘ chunk ::ₘ m) := by
    rw [Multiset.cons_swap, Multiset.cons_add, Multiset.cons_add, Multiset.add_cons,
      Multiset.add_cons]
  rw [hswap] at howns
  simp only [pagingFree4gb, h.root]
  exact (freeTables_first (fun j hj => h.table_eq hj) howns).free.free

/-- Page tables hold exactly what was mapped.

After `paging_new_4gb` with the kernel's flags each page has its own address with the flags,
and the chunk, the directory and the tables are different new blocks. After any sequence of
mappings of a directory that is not loaded, a page has the value of the last successful call
that covered it, or its first one; user access is granted exactly when that value has the bits;
a call that is refused changes nothing. The blocks that `paging_free_4gb` gives back then are
those of `paging_new_4gb`, whatever else was taken from the heap. Where an allocation fails,
`paging_new_4gb` returns NULL and leaves the table of the heap as it was. -/
theorem page_tables (s : PageState) :
    let r := pagingNew4gb kernelFlags s
    (∀ chunk, r.1 = some chunk →
      let directory := r.2.words chunk 0
      (∀ v, IsPage v → pagingGet r.2.words directory v = v ||| kernelFlags) ∧
      Owns s.heap (spaceBlocks r.2.words chunk) r.2.heap ∧
      ∀ (cur : Nat) (calls : List MapCall), directory ≠ cur →
        let m := pagingMaps cur chunk calls r.2.words
        m.1 = calls.map (fun c => if c.Accepted then .ok () else .error .einvarg) ∧
        (∀ v, IsPage v → pagingGet m.2 directory v = lastValue calls (· ||| kernelFlags) v) ∧
        (∀ a write, a < 2 ^ 32 → ((∃ p, pagingUserTranslate m.2 directory a write = .ok p) ↔
          lastValue calls (· ||| kernelFlags) (a - a % 4096) &&& requiredBits write =
            requiredBits write)) ∧
        (∀ c : MapCall, ¬ c.Accepted → c.run cur chunk m.2 = (.error .einvarg, m.2)) ∧
        (∀ base extra k, Owns base (spaceBlocks r.2.words chunk + extra) k →
          Owns base extra (pagingFree4gb chunk ⟨k, m.2⟩).heap) ∧
        (pagingFree4gb chunk ⟨r.2.heap, m.2⟩).heap.heap = s.heap.heap) ∧
    (s.heap.refusals < r.2.heap.refusals ↔ r.1 = none) ∧
    (r.1 = none → r.2.heap.heap = s.heap.heap) := by
  intro r
  rcases pagingNew4gb_cases s with ⟨hnone, href, hheap⟩ | ⟨chunk, directory, table, hsome, href,
    htables, howns⟩
  · refine ⟨fun chunk hsome => ?_, ⟨fun _ => hnone, fun _ => href⟩, fun _ => hheap⟩
    rw [hnone] at hsome
    cases hsome
  · refine ⟨fun chunk' hchunk => ?_, ⟨fun hlt => ?_, fun hnone => ?_⟩, fun hnone => ?_⟩
    · rw [hsome] at hchunk
      obtain rfl := Option.some.inj hchunk
      have hblocks := htables.blocks
      obtain rfl := htables.root
      refine ⟨fun v hv => htables.get hv, hblocks ▸ howns, fun cur calls hcur => ?_⟩
      obtain ⟨hresults, hafter⟩ := Tables.maps hcur calls htables
      refine ⟨hresults, fun v hv => hafter.get hv, fun a write ha => ?_, fun c hc =>
        (hafter.mapCall hcur c).1 hc, fun base extra k hk => hafter.free (hblocks ▸ hk), ?_⟩
      · rw [hafter.translate ha write]
        split
        next hbits => exact ⟨fun _ => hbits, fun _ => ⟨_, rfl⟩⟩
        next hbits => exact ⟨fun ⟨p, hp⟩ => (by cases hp), fun h => absurd h hbits⟩
      · refine Owns.done (hafter.free ?_)
        rw [add_zero]
        exact howns
    · exact absurd href (Nat.ne_of_gt hlt)
    · rw [hsome] at hnone
      cases hnone
    · rw [hsome] at hnone
      cases hnone

/-! ## A heap with room -/

/-- No allocation is made to fail, and at least `n` blocks are free. -/
structure KHeap.Roomy (k : KHeap) (n : Nat) : Prop where
  willing : ∀ i, k.refuse i = false
  room : n ≤ ((Finset.range heapBlocks).filter fun i => ¬ k.runs.Covered i).card

/-- A free block is found and only that one is taken. -/
theorem kmalloc_roomy {size : Nat} (h : k.Roomy (n + 1)) (hsize : 0 < size)
    (hone : blocksFor size = 1) :
    ∃ p, (kmalloc k size).1 = some p ∧ (kmalloc k size).2.Roomy n := by
  have hwilling : ∀ i, (kmalloc k size).2.refuse i = false := by
    rw [kmalloc_refuse]
    exact h.willing
  rcases kmalloc_cases k size with ⟨hnone, -⟩ | ⟨s, hv, -, hsome, -, hruns, -⟩
  · exfalso
    obtain ⟨i, hi⟩ := Finset.card_pos.mp (Nat.lt_of_lt_of_le (Nat.succ_pos n) h.room)
    obtain ⟨hlt, hfree⟩ := Finset.mem_filter.mp hi
    rw [Finset.mem_range] at hlt
    have hvacant : k.runs.Vacant i (blocksFor size) := by
      rw [hone]
      refine ⟨Nat.one_pos, hlt, fun j h1 h2 => ?_⟩
      obtain rfl : j = i := by omega
      exact hfree
    rw [kmalloc, if_neg (by rw [h.willing]; decide)] at hnone
    change (heapMalloc k.heap size).1 = none at hnone
    rcases heapMalloc_cases k.represents k.sound.placed size with ⟨-, h0 | hbig | hno⟩ |
      ⟨s, -, -, -, -, he⟩
    · omega
    · unfold blocksFor at hone
      unfold blockSize at hone hbig
      omega
    · exact hno i hvacant
    · rw [he] at hnone
      cases hnone
  · refine ⟨_, hsome, hwilling, ?_⟩
    have herase : ((Finset.range heapBlocks).filter fun i => ¬ k.runs.Covered i).erase s ⊆
        (Finset.range heapBlocks).filter fun i => ¬ (kmalloc k size).2.runs.Covered i := by
      intro i hi
      obtain ⟨hne, hi⟩ := Finset.mem_erase.mp hi
      obtain ⟨hlt, hfree⟩ := Finset.mem_filter.mp hi
      refine Finset.mem_filter.mpr ⟨hlt, ?_⟩
      rw [hruns, Runs.insert_covered, hone]
      rintro (⟨h1, h2⟩ | hc)
      · omega
      · exact hfree hc
    have hle := Finset.card_le_card herase
    have hpred := Finset.pred_card_le_card_erase (a := s)
      (s := (Finset.range heapBlocks).filter fun i => ¬ k.runs.Covered i)
    have hroom := h.room
    omega

theorem kzallocWords_roomy {count : Nat} (h : s.heap.Roomy (n + 1)) (hcount : 0 < count)
    (hle : count ≤ 1024) : ∃ p s', kzallocWords count s = (some p, s') ∧ s'.heap.Roomy n := by
  have hone : blocksFor (4 * count) = 1 := by
    unfold blocksFor blockSize
    omega
  obtain ⟨p, hp, hroomy⟩ := kmalloc_roomy h (by omega) hone
  rw [kzallocWords]
  generalize kmalloc s.heap (4 * count) = r at hp hroomy
  obtain ⟨ptr, heap⟩ := r
  obtain rfl : ptr = some p := hp
  exact ⟨p, _, rfl, hroomy⟩

theorem tablesLoop_roomy (left : Nat) : ∀ {i offset : Nat} {s : PageState},
    s.heap.Roomy (n + left) → ∃ total s', tablesLoop directory flags left i offset s =
      (true, total, s') ∧ s'.heap.Roomy n := by
  induction left with
  | zero => exact fun {i _ s} h => ⟨i, s, rfl, h⟩
  | succ left ih =>
    intro i offset s h
    obtain ⟨p, s1, hp, h1⟩ := kzallocWords_roomy h (show 0 < pagingTotalEntriesPerTable by decide)
      le_rfl
    simp only [tablesLoop, hp]
    exact ih h1

/-- With 1026 free blocks there is a new address space. -/
theorem pagingNew4gb_roomy (h : s.heap.Roomy 1026) (flags : Nat) :
    ∃ chunk s', pagingNew4gb flags s = (some chunk, s') := by
  obtain ⟨directory, s1, hdirectory, h1⟩ := kzallocWords_roomy h
    (show 0 < pagingTotalEntriesPerTable by decide) le_rfl
  obtain ⟨total, s2, hloop, h2⟩ : ∃ total s2, tablesLoop directory flags pagingTotalEntriesPerTable
      0 0 s1 = (true, total, s2) ∧ s2.heap.Roomy 1 := tablesLoop_roomy pagingTotalEntriesPerTable h1
  obtain ⟨chunk, s3, hchunk, -⟩ := kzallocWords_roomy h2 Nat.one_pos (by decide)
  simp only [pagingNew4gb, hdirectory, hloop, hchunk]
  exact ⟨_, _, rfl⟩

theorem bootHeap_roomy : bootHeap.Roomy 1026 := by
  refine ⟨fun _ => rfl, ?_⟩
  have hfree : ∀ i, ¬ bootHeap.runs.Covered i := by
    rintro i ⟨s, hs⟩
    have htaken := runEntry_type (i == s) (decide (i + 1 < s + bootHeap.runs.len s))
    rw [← bootHeap.represents.taken s i hs] at htaken
    have hentry : bootHeap.heap.table.entries i = entryFree := if_pos hs.lt_total
    rw [hentry] at htaken
    exact absurd htaken (by decide)
  rw [Finset.filter_true_of_mem fun i _ => hfree i, Finset.card_range]
  decide

/-! One page of a program, mapped in the first address space. -/

def sampleMap : MapCall := ⟨0x400000, 0x1000000, 0x1001000, 7, by decide⟩

theorem page_tables_boot : ∃ chunk s', pagingNew4gb kernelFlags ⟨bootHeap, fun _ _ => 0⟩ =
    (some chunk, s') ∧
    pagingGet (pagingMaps 0 chunk [sampleMap] s'.words).2 (s'.words chunk 0) 0x400000 =
      0x1000007 := by
  obtain ⟨chunk, s', hnew⟩ := pagingNew4gb_roomy (s := ⟨bootHeap, fun _ _ => 0⟩) bootHeap_roomy
    kernelFlags
  have h := (page_tables ⟨bootHeap, fun _ _ => 0⟩).1 chunk (by rw [hnew])
  rw [hnew] at h
  obtain ⟨-, howns, hmaps⟩ := h
  have hdir : s'.words chunk 0 ≠ 0 := by
    obtain ⟨t, ht, -⟩ := howns.fresh _ (Multiset.mem_cons_of_mem (Multiset.mem_cons_self _ _))
    rw [ht]
    exact blockAddr_ne_zero t
  exact ⟨chunk, s', hnew, ((hmaps 0 [sampleMap] hdir).2.1 0x400000 ⟨by decide, by decide⟩).trans
    (by decide)⟩

end Rorthox.Memory
