import Rorthox.Fat.Chains

/-!
# The plans of the mutations

What `fat16_write_bytes`, `fat16_truncate`, `fat16_create` and the opening functions
are going to do, computed from the volume and the content of the disk; and that the
driver carries out exactly these plans.
-/

namespace Rorthox.Fat

open Lib Disk Memory

/-! ## The phases are within bounds -/

/-- A place for a directory entry. -/
structure SlotPos (v : FatPrivate) (pos : Nat) : Prop where
  place : EntryAt v pos
  fits : pos + 32 ≤ intMax

variable {c count pos start : Nat} {data : Bytes} {old : List Nat}

theorem allowed_commit {v : FatPrivate} {n : Nat} (h : SlotPos v pos) (item : DirItem) :
    (commitPhase pos item).Allowed n := by
  refine ⟨fun st hst => ?_, Or.inr ⟨entryStore pos item, rfl, ?_⟩⟩
  · rw [List.mem_singleton.mp hst]
    exact h.fits
  · have h1 := h.place.aligned
    show pos % 512 + 32 ≤ 512
    omega

theorem allowed_plain {n : Nat} {stores : List Store}
    (h : ∀ st ∈ stores, st.pos + st.len ≤ n * sectorSize ∧ st.pos + st.len ≤ intMax) :
    (Phase.plain stores).Allowed n :=
  ⟨fun st hst => (h st hst).2, Or.inl fun st hst => (h st hst).1⟩

variable {copy size : Nat} {chain fresh : List Nat}

section

variable {v : FatPrivate} {n : Nat}

theorem Fitted.writable (h : Fitted v n) (h2 : 2 ≤ c) (hc : c ≤ v.maxWritable) : Writable v c := by
  have h1 := h.max_le
  have h3 := limit_le v
  refine ⟨⟨h2, hc.trans h1, ?_, ?_⟩, hc⟩
  · unfold badSector
    omega
  · unfold eocStart
    omega

theorem fatStore_bound (h : Fitted v n) (value : Nat) (hc : c ≤ v.maxWritable) (hcopy : copy ≤ 1) :
    (fatStore v copy c value).pos + (fatStore v copy c value).len ≤ n * sectorSize ∧
      (fatStore v copy c value).pos + (fatStore v copy c value).len ≤ intMax := by
  have h1 : fatEntryPos v copy c + 2 ≤ dataStart v.header * sectorSize :=
    (h.entry_end hc).trans ((h.fats_end hcopy).trans
      ((Nat.le_add_right _ _).trans (Fitted.root_end v)))
  exact ⟨h1.trans h.data_bound, h1.trans h.data_int⟩

theorem setStores_bound (h : Fitted v n) (value : Nat) (hw : ∀ c ∈ chain, Writable v c)
    (hcopy : copy ≤ 1) : ∀ st ∈ setStores v copy value chain,
      st.pos + st.len ≤ n * sectorSize ∧ st.pos + st.len ≤ intMax := by
  intro st hst
  obtain ⟨c, hc, rfl⟩ := List.mem_map.mp hst
  exact fatStore_bound h value (hw c hc).2 hcopy

theorem linkStores_bound (h : Fitted v n) (hcopy : copy ≤ 1) (chain : List Nat) :
    (∀ c ∈ chain, Writable v c) → ∀ st ∈ linkStores v copy chain,
      st.pos + st.len ≤ n * sectorSize ∧ st.pos + st.len ≤ intMax := by
  induction chain with
  | nil => intro _ st hst; cases hst
  | cons c chain ih =>
    intro hw st hst
    rcases List.mem_cons.mp hst with rfl | hst
    · exact fatStore_bound h _ (hw c List.mem_cons_self).2 hcopy
    · exact ih (fun d hd => hw d (List.mem_cons_of_mem _ hd)) st hst

theorem mem_zeroRun {left : Nat} : ∀ {pos : Nat} {st : Store}, st ∈ zeroRun pos left →
    (∀ i, st.data i = 0) ∧ st.len = sectorSize ∧ pos ≤ st.pos ∧
      st.pos + sectorSize ≤ pos + left * sectorSize := by
  induction left with
  | zero => intro pos st h; cases h
  | succ left ih =>
    intro pos st h
    rw [Nat.add_mul, Nat.one_mul]
    rcases List.mem_cons.mp h with rfl | h
    · refine ⟨fun _ => rfl, rfl, le_rfl, ?_⟩
      show pos + sectorSize ≤ _
      omega
    · obtain ⟨h1, h2, h3, h4⟩ := ih h
      exact ⟨h1, h2, by omega, by omega⟩

/-- Zeroing stays inside the clusters. -/
theorem mem_zeroStores {st : Store} (h : st ∈ zeroStores v chain) :
    ∃ c ∈ chain, (∀ i, st.data i = 0) ∧ st.len = sectorSize ∧
      fat16ClusterToSector v c * sectorSize ≤ st.pos ∧
      st.pos + st.len ≤ (fat16ClusterToSector v c + sectorsPerCluster v.header) * sectorSize := by
  induction chain with
  | nil => cases h
  | cons c chain ih =>
    rcases List.mem_append.mp h with h | h
    · obtain ⟨h1, h2, h3, h4⟩ := mem_zeroRun h
      refine ⟨c, List.mem_cons_self, h1, h2, h3, ?_⟩
      rw [h2, Nat.add_mul]
      exact h4
    · obtain ⟨d, hd, hrest⟩ := ih h
      exact ⟨d, List.mem_cons_of_mem _ hd, hrest⟩

/-- A store of the data lies in one cluster of the chain and carries the bytes of that
stretch of the file. -/
theorem mem_dataStores (hb : 0 < clusterBytes v) {fuel : Nat} :
    ∀ {position left done : Nat} {st : Store},
      st ∈ dataStores v chain data fuel position left done →
      ∃ q, position ≤ q ∧ q + st.len ≤ position + left ∧ 0 < st.len ∧
        st.pos = fat16ClusterToSector v (chain.getD (q / clusterBytes v) 0) * sectorSize +
          q % clusterBytes v ∧
        q % clusterBytes v + st.len ≤ clusterBytes v ∧
        st.data = fun i => data (done + (q - position) + i) := by
  induction fuel with
  | zero =>
    intro position left done st h
    cases left <;> cases h
  | succ fuel ih =>
    intro position left done st h
    cases left with
    | zero => cases h
    | succ left =>
      have hmod := Nat.mod_lt position hb
      have hpos := clusterPart_pos hmod (Nat.succ_pos left)
      have hle := clusterPart_le v (position % clusterBytes v) (left + 1)
      rcases List.mem_cons.mp h with rfl | h
      · refine ⟨position, le_rfl, ?_, hpos, rfl, clusterPart_end _ _ hmod, ?_⟩
        · show position + clusterPart v (position % clusterBytes v) (left + 1) ≤ _
          omega
        · rw [Nat.sub_self]
          rfl
      · obtain ⟨q, h1, h2, h3, h4, h5, h6⟩ := ih h
        refine ⟨q, by omega, by omega, h3, h4, h5, ?_⟩
        rw [h6]
        funext i
        congr 1
        omega

theorem lt_clustersFor (v : FatPrivate) {q : Nat} (h : q < size) :
    q / clusterBytes v < clustersFor v size := by
  unfold clustersFor
  have h1 := Nat.div_le_div_right (c := clusterBytes v) h.le
  have h2 := Nat.div_add_mod size (clusterBytes v)
  have h3 := Nat.div_add_mod q (clusterBytes v)
  split
  · omega
  · rename_i h0
    rcases Nat.lt_or_ge (q / clusterBytes v) (size / clusterBytes v) with hlt | hge
    · omega
    · have he : q / clusterBytes v = size / clusterBytes v := by omega
      rw [he] at h3
      omega

theorem getD_mem {l : List Nat} {i : Nat} (h : i < l.length) : l.getD i 0 ∈ l := by
  rw [List.getD_eq_getElem l 0 h]
  exact List.getElem_mem h

theorem dataStores_bound (h : Fitted v n) (hw : ∀ c ∈ chain, Writable v c)
    (hlen : chain.length = clustersFor v size) (hsize : start + count ≤ size) :
    ∀ st ∈ dataStores v chain data count start count 0,
      st.pos + st.len ≤ n * sectorSize ∧ st.pos + st.len ≤ intMax := by
  intro st hst
  obtain ⟨q, h1, h2, h3, h4, h5, -⟩ := mem_dataStores h.clusterBytes_pos hst
  have hidx : q / clusterBytes v < chain.length := by
    rw [hlen]
    exact lt_clustersFor v (by omega)
  have hc := hw _ (getD_mem hidx)
  obtain ⟨h6, h7⟩ := h.cluster_end hc.1.1 hc.2
  rw [Nat.add_mul] at h6 h7
  have h8 : clusterBytes v = sectorsPerCluster v.header * sectorSize := rfl
  omega

theorem zeroStores_bound (h : Fitted v n) (hw : ∀ c ∈ fresh, Writable v c) :
    ∀ st ∈ zeroStores v fresh, st.pos + st.len ≤ n * sectorSize ∧ st.pos + st.len ≤ intMax := by
  intro st hst
  obtain ⟨c, hc, -, -, -, hend⟩ := mem_zeroStores hst
  obtain ⟨h1, h2⟩ := h.cluster_end (hw c hc).1.1 (hw c hc).2
  exact ⟨hend.trans h1, hend.trans h2⟩

theorem getLastD_mem (h : old ≠ []) : old.getLastD 0 ∈ old := by
  rw [List.getLastD_eq_getLast?, List.getLast?_eq_some_getLast h]
  exact List.getLast_mem h

/-- Freeing a chain clears its entries in each copy of the FAT. -/
theorem mem_freePhases {ph : Phase} (h : ph ∈ freePhases v chain) :
    ∃ copy ≤ 1, ph = .plain (setStores v copy 0 chain) := by
  unfold freePhases at h
  split at h
  · rcases List.mem_cons.mp h with rfl | h
    · exact ⟨0, Nat.zero_le 1, rfl⟩
    · exact ⟨1, le_rfl, List.mem_singleton.mp h⟩
  · cases h

/-- Extending a chain links the new clusters, and the old last one to the first of them, in
each copy of the FAT. -/
theorem mem_extendPhases {ph : Phase} (h : ph ∈ extendPhases v old fresh) : ∃ copy ≤ 1,
    ph = .plain (linkStores v copy fresh) ∨ old.getLastD 0 ∈ old ∧ fresh.headD 0 ∈ fresh ∧
      ph = .plain [fatStore v copy (old.getLastD 0) (fresh.headD 0)] := by
  unfold extendPhases tailPhases at h
  by_cases hfresh : fresh ≠ []
  · rw [if_pos hfresh] at h
    have hhead : fresh.headD 0 ∈ fresh := by
      rw [List.headD_eq_head?_getD, List.head?_eq_some_head hfresh]
      exact List.head_mem hfresh
    rcases List.mem_cons.mp h with rfl | h
    · exact ⟨0, Nat.zero_le 1, Or.inl rfl⟩
    rcases List.mem_cons.mp h with rfl | h
    · exact ⟨1, le_rfl, Or.inl rfl⟩
    by_cases ho : old ≠ []
    · rw [if_pos ho] at h
      rcases List.mem_cons.mp h with rfl | h
      · exact ⟨0, Nat.zero_le 1, Or.inr ⟨getLastD_mem ho, hhead, rfl⟩⟩
      · exact ⟨1, le_rfl, Or.inr ⟨getLastD_mem ho, hhead, List.mem_singleton.mp h⟩⟩
    · rw [if_neg ho] at h
      cases h
  · rw [if_neg hfresh] at h
    cases h

theorem extendPhases_allowed (h : Fitted v n) (ho : ∀ c ∈ old, Writable v c)
    (hf : ∀ c ∈ fresh, Writable v c) : ∀ ph ∈ extendPhases v old fresh, ph.Allowed n := by
  intro ph hph
  obtain ⟨copy, hcopy, rfl | ⟨hlast, -, rfl⟩⟩ := mem_extendPhases hph
  · exact allowed_plain (linkStores_bound h hcopy fresh hf)
  · refine allowed_plain fun st hst => ?_
    rw [List.mem_singleton.mp hst]
    exact fatStore_bound h _ (ho _ hlast).2 hcopy

theorem writePhases_allowed (h : Fitted v n) {entryPos : Nat} (hs : SlotPos v entryPos)
    (item : DirItem) (ho : ∀ c ∈ old, Writable v c) (hf : ∀ c ∈ fresh, Writable v c) (data : Bytes)
    (hlen : (old ++ fresh).length = clustersFor v size) (hsize : start + count ≤ size) :
    ∀ ph ∈ writePhases v item entryPos old fresh start data count size, ph.Allowed n := by
  have hw : ∀ c ∈ old ++ fresh, Writable v c := fun c hc =>
    (List.mem_append.mp hc).elim (ho c) (hf c)
  intro ph hph
  rcases List.mem_cons.mp hph with rfl | hph
  · refine allowed_plain fun st hst => ?_
    rcases List.mem_append.mp hst with hst | hst
    · exact zeroStores_bound h hf st hst
    · exact dataStores_bound h hw hlen hsize st hst
  · rcases List.mem_append.mp hph with hph | hph
    · exact extendPhases_allowed h ho hf ph hph
    · rw [List.mem_singleton.mp hph]
      exact allowed_commit hs _

theorem truncatePhases_allowed (h : Fitted v n) (hs : SlotPos v pos) (item : DirItem)
    (hw : ∀ c ∈ chain, Writable v c) : ∀ ph ∈ truncatePhases v item pos chain, ph.Allowed n := by
  intro ph hph
  rcases List.mem_cons.mp hph with rfl | hph
  · exact allowed_commit hs _
  · obtain ⟨copy, hcopy, rfl⟩ := mem_freePhases hph
    exact allowed_plain (setStores_bound h 0 hw hcopy)

end

/-! ## Plans -/

section

variable (v : FatPrivate) (img : Bytes)

/-- Where a write starts. -/
def writeStart (d : FatFileDescriptor) (item : DirItem) : Nat :=
  if d.mode = .append then item.filesize else d.pos

/-- The size of a file after a write that ends at `stop`. -/
def sizeAfter (item : DirItem) (stop : Nat) : Nat :=
  if item.filesize < stop then stop else item.filesize

def writePlan (d : FatFileDescriptor) (item : DirItem) (data : Bytes) (count : Nat) :
    Except Errno (List Phase × Nat) :=
  if item.filesize < writeStart d item then .error .einvarg
  else if intMax < writeStart d item ∨ intMax - writeStart d item < count then .error .efbig
  else do
    let old ← chainOf v img item
    if old.length ≠ clustersFor v item.filesize then .error .eio
    else do
      let fresh ← allocOf v img old.length (clustersFor v
        (sizeAfter item (writeStart d item + count)))
      .ok (writePhases v item d.item.entryPos old fresh (writeStart d item) data count
        (sizeAfter item (writeStart d item + count)), count)

def truncatePlan (item : DirItem) (pos : Nat) : Except Errno (List Phase × DirItem) := do
  let chain ← chainOf v img item
  .ok (truncatePhases v item pos chain, emptied item)

/-- The item of a file, without addresses. -/
def fileItem (item : DirItem) (pos : Nat) : FatItem :=
  { addr := 0, node := .file 0 item, entryPos := pos }

def createPlan (path : List (List UInt8)) : Except Errno (List Phase × FatItem) := do
  let (start, last) ← parentOf v img v.rootDirectory path
  if start ≠ 0 ∧ ¬ fat16ValidCluster v start then .error .eio
  else do
    let slot ← roomFrom v img start directoryFuel 0 none false
    let (base, ext) ← shortName last false [] []
    .ok ([commitPhase slot (newEntry base ext)], fileItem (newEntry base ext) slot)

def existingPlan (mode : FileMode) (item : FatItem) : Except Errno (List Phase × FatItem) :=
  match item.node with
  | .directory _ => .error .einvarg
  | .file _ entry =>
      if entry.attrib &&& fileReadOnly ≠ 0 then .error .erdonly
      else if mode = .write then
        (truncatePlan v img entry item.entryPos).map fun p => (p.1, fileItem p.2 item.entryPos)
      else (checkChain v img entry).map fun _ => ([], item)

def openPlan (path : List (List UInt8)) (mode : FileMode) : Except Errno (List Phase × FatItem) :=
  match lookup v img path with
  | .error e => if e = .enoent ∧ mode ≠ .read then createPlan v img path else .error e
  | .ok item => if mode ≠ .read then existingPlan v img mode item else .ok ([], item)

end

end Rorthox.Fat
