import Rorthox.Fat.DriverSpec

/-!
# How each call of the driver can go

For every function of `struct filesystem` the ways it can end on a tidy volume: what
stops it at once, what it looks up, and which plan it carries out.
-/

namespace Rorthox.Fat

open Lib Disk Memory

variable {s s' : FsState} {v : FatPrivate} {desc : Nat}

theorem PreparedTo.calm (h : PreparedTo s (.ok ()) s') : Calm s s' := by
  rcases h.outcome with ⟨hc, -⟩ | ⟨-, e, hr⟩
  · exact hc
  · cases hr

theorem PreparedTo.fitted (h : PreparedTo s (.ok ()) s') (ht : Tidy s.dev.identify s.vol) :
    ∃ n, s'.dev.identify = .ok n ∧ Fitted s'.vol n := by
  rw [h.still.same.identify]
  exact h.vol.fitted ht (h.ready rfl).2

theorem PreparedTo.tidy {r : Except Errno Unit} (h : PreparedTo s r s')
    (ht : Tidy s.dev.identify s.vol) : Tidy s'.dev.identify s'.vol := by
  rw [h.still.same.identify]
  exact h.vol.tidy ht

theorem Checked.same {d : Device} {w : FatPrivate} (h : Checked d v w) :
    w.descriptors = v.descriptors ∧ w.rootDirectory = v.rootDirectory ∧ w.header = v.header ∧
      w.mutationDisabled = v.mutationDisabled := by
  rcases h with rfl | ⟨n, b, -, -, -, rfl⟩
  · exact ⟨rfl, rfl, rfl, rfl⟩
  · exact ⟨rfl, rfl, rfl, rfl⟩

/-- A plan was carried out to its end, or given up after some of its phases. -/
theorem ActsTo.ends {α β : Type} {held err : Multiset Nat} {sh : Shape α β}
    {post : FatPrivate → FatPrivate} {plan : Except Errno (List Phase × β)} {r : Except Errno α}
    (h : ActsTo held err sh post plan s r s')
    (hplan : ∀ phases b, plan = .ok (phases, b) → ∀ ph ∈ phases, ph.Publishes) :
    (∃ phases b, plan = .ok (phases, b) ∧ r.map sh.view = .ok b ∧
      s'.vol = post (afterPhases phases s.vol) ∧ s'.dev.image = applyPhases phases s.dev.image) ∨
    (∃ e phases, r = .error e ∧ (∀ ph ∈ phases, ph.Publishes) ∧
      (s'.vol = afterPhases phases s.vol ∨ s'.vol = disabled (afterPhases phases s.vol))) := by
  rcases h.outcome with ⟨hv, -, hstop⟩ | ⟨-, phases, b, r0, v1, hp, hran, hend⟩
  · obtain ⟨e, he⟩ : ∃ e, r = .error e := by
      rcases hstop with ⟨-, e, he, -⟩ | ⟨-, e, he, -⟩ <;> exact ⟨e, he⟩
    exact Or.inr ⟨e, [], he, fun ph hph => absurd hph (List.not_mem_nil), Or.inl hv⟩
  · have htake : ∀ k, ∀ ph ∈ phases.take k, ph.Publishes := fun k ph hph =>
      hplan phases b hp ph (List.mem_of_mem_take hph)
    rcases hend with ⟨h0, hview, hv⟩ | ⟨e, h0, hr, hv⟩
    · obtain ⟨hv1, himg⟩ := hran.ended h0
      exact Or.inl ⟨phases, b, hp, hview, hv.trans (congrArg post hv1), himg⟩
    · rcases hran.outcome with ⟨hok, -⟩ | ⟨-, k, -, hf⟩ | ⟨-, k, st, -, -, -, hv1, -⟩
      · rw [h0] at hok
        cases hok
      · exact Or.inr ⟨e, phases.take k, hr, htake k, Or.inr (hv.trans hf.vol)⟩
      · exact Or.inr ⟨e, phases.take k, hr, htake k, Or.inl (hv.trans hv1)⟩

/-! ## Writing -/

/-- The descriptor at `desc` is for writing the file of `item`. -/
structure WriteTarget (v : FatPrivate) (desc : Nat) (d : FatFileDescriptor) (item : DirItem) :
    Prop where
  found : findDescriptor v desc = some d
  file : ∃ addr, d.item.node = .file addr item
  mode : d.mode ≠ .read

inductive WriteCourse (desc : Nat) (data : Bytes) (count : Nat) (s : FsState)
    (r : Except Errno Nat) (s' : FsState) : Prop where
  | untargeted (hno : ∀ d item, ¬ WriteTarget s.vol desc d item) (hr : r = .error .ebadf)
      (hs : s' = s)
  | nothing {d : FatFileDescriptor} {item : DirItem} (ht : WriteTarget s.vol desc d item)
      (h0 : count = 0) (hr : r = .ok 0) (hs : s' = s)
  | unprepared {d : FatFileDescriptor} {item : DirItem} (ht : WriteTarget s.vol desc d item)
      (h0 : 0 < count) {e : Errno} (hp : PreparedTo s (.error e) s') (hr : r = .error e)
  | acted {d : FatFileDescriptor} {item : DirItem} (ht : WriteTarget s.vol desc d item)
      (h0 : 0 < count) {s1 : FsState} {n : Nat} (hp : PreparedTo s (.ok ()) s1)
      (hid : s1.dev.identify = .ok n) (hfit : Fitted s1.vol n)
      (hact : ActsTo 0 0 (.val 0) (setPos desc (writeStart d item + count))
        (writePlan s1.vol s1.dev.image d item data count) s1 r s')
      (hrun : writeRest s1.vol desc d item data count s1 = (r, s'))

theorem findDescriptor_mem {d : FatFileDescriptor} (h : findDescriptor v desc = some d) :
    d ∈ v.descriptors ∧ d.addr = desc := by
  refine ⟨List.mem_of_find?_eq_some h, ?_⟩
  have h1 := List.find?_some h
  exact of_decide_eq_true h1

theorem find?_map_addr {f : FatFileDescriptor → FatFileDescriptor} (hf : ∀ d, (f d).addr = d.addr)
    (l : List FatFileDescriptor) (addr : Nat) :
    (l.map f).find? (fun d => d.addr = addr) = (l.find? fun d => d.addr = addr).map f := by
  rw [List.find?_map]
  congr 2
  funext d
  exact congrArg (fun a => decide (a = addr)) (hf d)

theorem findDescriptor_setPos (desc q : Nat) (v : FatPrivate) (addr : Nat) :
    findDescriptor (setPos desc q v) addr =
      (findDescriptor v addr).map fun d => if d.addr = desc then { d with pos := q } else d := by
  apply find?_map_addr
  intro d
  split <;> rfl

theorem fat16WriteBytes_spec (ht : Tidy s.dev.identify s.vol) (desc : Nat) (data : Bytes)
    (count : Nat) :
    Prog.Ends (fat16WriteBytes desc data count) s (WriteCourse desc data count s) := by
  unfold Prog.Ends fat16WriteBytes
  rw [Prog.bind_ok (Prog.look_apply _ s)]
  cases hfind : findDescriptor s.vol desc with
  | none =>
    exact .untargeted (fun d item h => (by rw [h.found] at hfind; cases hfind)) rfl rfl
  | some d =>
    have hd : ∀ d' item, WriteTarget s.vol desc d' item → d' = d := by
      intro d' item h
      rw [h.found] at hfind
      exact Option.some.inj hfind
    dsimp only
    cases hnode : d.item.node with
    | directory dir =>
      refine .untargeted (fun d' item h => ?_) rfl rfl
      obtain ⟨addr, hf⟩ := h.file
      rw [hd d' item h, hnode] at hf
      cases hf
    | file addr item =>
      dsimp only
      by_cases hm : d.mode = .read
      · rw [if_pos hm]
        exact .untargeted (fun d' item' h => h.mode (hd d' item' h ▸ hm)) rfl rfl
      rw [if_neg hm]
      have htarget : WriteTarget s.vol desc d item := ⟨hfind, ⟨addr, hnode⟩, hm⟩
      by_cases h0 : count = 0
      · rw [if_pos h0]
        exact .nothing htarget h0 rfl rfl
      rw [if_neg h0]
      refine (prepareWrite_spec s).bind ?_ ?_
      · rintro ⟨⟩ s1 hp
        obtain ⟨n, hid, hfit⟩ := hp.fitted ht
        have hmem : d ∈ s1.vol.descriptors := by
          rw [hp.vol.same.1]
          exact (findDescriptor_mem hfind).1
        have hslot := ((hp.tidy ht).descriptors d hmem hm).1
        have hact : Prog.Ends (writeRest s1.vol desc d item data count) s1
            (ActsTo 0 0 (.val 0) (setPos desc (writeStart d item + count))
              (writePlan s1.vol s1.dev.image d item data count) s1) :=
          acting_write hfit desc d item hslot data count s1 rfl rfl hid
        have hlook : (Prog.look (·.vol) >>= fun v => writeRest v desc d item data count) s1 =
            writeRest s1.vol desc d item data count s1 := Prog.bind_ok (Prog.look_apply _ s1)
        unfold Prog.Ends
        rw [hlook]
        exact .acted htarget (Nat.pos_of_ne_zero h0) hp hid hfit hact rfl
      · intro e s1 hp
        exact .unprepared htarget (Nat.pos_of_ne_zero h0) hp rfl

/-! ## Opening -/

/-- A descriptor's memory and its item. -/
def Shape.opened : Shape (Nat × FatItem) FatItem :=
  ⟨fun p => {p.1} + p.2.owned, fun p => p.1 ≠ 0, fun p => p.2.plain⟩

/-- `fat16_open` between the check and the new descriptor. -/
def openPair (path : List (List UInt8)) (mode : FileMode) : FsProg (Nat × FatItem) := do
  let addr ← kzalloc .enomem 20
  Prog.undo (m := do
    let item ← openItem path mode
    pure (addr, item))
    (kfreeAt addr)

/-- Put a new descriptor at the head of the list. -/
def addDescriptor (mode : FileMode) (p : Nat × FatItem) (v : FatPrivate) : FatPrivate :=
  { v with
    descriptors :=
      { addr := p.1, item := p.2, pos := if mode = .append then p.2.filesize else 0, mode } ::
        v.descriptors }

/-- The end of `fat16_open`. -/
def publishOpened (mode : FileMode) (r : Except Errno (Nat × FatItem)) (s : FsState) :
    Except Errno Nat × FsState :=
  match r with
  | .ok p => (.ok p.1, onVol (addDescriptor mode p) s)
  | .error e => (.error e, s)

theorem fat16Open_eq (path : List (List UInt8)) (mode : FileMode) (s : FsState) :
    fat16Open path mode s =
      (if mode = .invalid then (.error .einvarg, s)
      else if mode ≠ .read then
        match fat16PrepareWrite s with
        | (.ok (), s1) => publishOpened mode (openPair path mode s1).1 (openPair path mode s1).2
        | (.error e, s1) => (.error e, s1)
      else publishOpened mode (openPair path mode s).1 (openPair path mode s).2) := by
  have hrest : ∀ s, (kzalloc .enomem 20 >>= fun addr => Prog.undo (m := do
      let item ← openItem path mode
      Prog.change (onVol fun v => { v with
        descriptors :=
          { addr, item, pos := if mode = .append then item.filesize else 0, mode } ::
            v.descriptors })
      pure addr)
      (kfreeAt addr)) s = publishOpened mode (openPair path mode s).1 (openPair path mode s).2 := by
    intro s
    unfold openPair
    cases hk : kzalloc .enomem 20 s with
    | mk r s1 =>
      cases r with
      | error e => rw [Prog.bind_error hk, Prog.bind_error hk]; rfl
      | ok addr =>
        rw [Prog.bind_ok hk, Prog.bind_ok hk]
        unfold Prog.undo
        cases hi : openItem path mode s1 with
        | mk r2 s2 =>
          cases r2 with
          | error e => rw [Prog.bind_error hi, Prog.bind_error hi]; rfl
          | ok item => rw [Prog.bind_ok hi, Prog.bind_ok hi]; rfl
  unfold fat16Open
  by_cases hinv : mode = .invalid
  · rw [if_pos hinv]
    refine Prog.bind_error ?_
    unfold Prog.refuse
    rw [if_pos hinv]
    rfl
  · have hno : (Prog.refuse (mode = .invalid) Errno.einvarg : FsProg Unit) s = (.ok (), s) := by
      unfold Prog.refuse
      rw [if_neg hinv]
      rfl
    rw [if_neg hinv, Prog.bind_ok hno]
    by_cases hr : mode ≠ .read
    · rw [if_pos hr, if_pos hr]
      cases hp : fat16PrepareWrite s with
      | mk r s1 =>
        cases r with
        | ok u => cases u; rw [Prog.bind_ok hp]; exact hrest s1
        | error e => rw [Prog.bind_error hp]
    · rw [if_neg hr, if_neg hr]
      rw [Prog.bind_ok (Prog.pure_apply () s)]
      exact hrest s

theorem openItem_read (path : List (List UInt8)) : openItem path .read =
    fat16GetDirectoryEntry path := by
  funext s
  unfold openItem
  rw [Prog.bind_ok (Prog.attempt_apply _ s)]
  cases fat16GetDirectoryEntry path s with
  | mk r s1 =>
    cases r with
    | ok item => rfl
    | error e =>
      dsimp only
      rw [if_neg (fun hc => hc.2 rfl)]
      rfl

section

variable {v : FatPrivate} {img : Bytes}

theorem reading_openPair (path : List (List UInt8)) :
    Reading v img 0 0 .opened (lookup v img path) (openPair path .read) := by
  refine (reading_kzalloc (by decide) 20).andThen fun addr haddr _ => ?_
  refine Reading.undo (frees_kfreeAt addr) ?_
  rw [openItem_read]
  refine ((reading_directoryEntry path).bind (g := fun i => .ok i) fun item _ _ => ?_).congr ?_
  · refine reading_pure rfl ?_ haddr
    show {addr} + item.owned = item.owned + ({addr} + 0)
    rw [add_zero, add_comm]
  · cases lookup v img path <;> rfl

theorem acting_openPair {n : Nat} (hr : Rooted v) (hf : Fitted v n) (path : List (List UInt8))
    {mode : FileMode} (hmode : mode ≠ .read) :
    Acting v img n 0 0 .opened id (openPlan v img path mode) (openPair path mode) := by
  refine ((reading_kzalloc (by decide) 20).act (g := fun _ => openPlan v img path mode)
    fun addr haddr _ => ?_).congr rfl
  refine Acting.undo (frees_kfreeAt addr) ?_
  have hown : ∀ item : FatItem, {addr} + item.owned = item.owned + ({addr} + 0) := fun item => by
    rw [add_zero, add_comm]
  have hmap : Acting v img n ({addr} + 0) ({addr} + 0) .opened id
      ((openPlan v img path mode).map fun p => (p.1, id p.2))
      (openItem path mode >>= fun item => pure (addr, item)) :=
    (acting_openItem hr hf path hmode).map (fun _ => rfl) hown fun _ _ => haddr
  refine hmap.congr ?_
  cases openPlan v img path mode <;> rfl

end

inductive OpenCourse (path : List (List UInt8)) (mode : FileMode) (s : FsState)
    (r : Except Errno Nat) (s' : FsState) : Prop where
  | invalid (hm : mode = .invalid) (hr : r = .error .einvarg) (hs : s' = s)
  | looked (hm : mode = .read) {r0 : Except Errno (Nat × FatItem)} {s2 : FsState}
      (hread : ReadsTo 0 0 .opened (lookup s.vol s.dev.image path) s r0 s2)
      (hend : (r, s') = publishOpened mode r0 s2)
  | unprepared (hm : mode ≠ .read) {e : Errno} (hp : PreparedTo s (.error e) s')
      (hr : r = .error e)
  | acted (hm : mode ≠ .read) (hv : mode ≠ .invalid) {s1 : FsState} {n : Nat}
      (hp : PreparedTo s (.ok ()) s1) (hid : s1.dev.identify = .ok n) (hfit : Fitted s1.vol n)
      {r0 : Except Errno (Nat × FatItem)} {s2 : FsState}
      (hact : ActsTo 0 0 .opened id (openPlan s1.vol s1.dev.image path mode) s1 r0 s2)
      (hend : (r, s') = publishOpened mode r0 s2)

theorem fat16Open_spec (ht : Tidy s.dev.identify s.vol) (path : List (List UInt8))
    (mode : FileMode) : Prog.Ends (fat16Open path mode) s (OpenCourse path mode s) := by
  unfold Prog.Ends
  rw [fat16Open_eq]
  by_cases hinv : mode = .invalid
  · rw [if_pos hinv]
    exact .invalid hinv rfl rfl
  rw [if_neg hinv]
  by_cases hr : mode ≠ .read
  · rw [if_pos hr]
    have hprep := prepareWrite_spec s
    unfold Prog.Ends at hprep
    cases hp : fat16PrepareWrite s with
    | mk r s1 =>
      rw [hp] at hprep
      cases r with
      | error e => exact .unprepared hr hprep rfl
      | ok u =>
        cases u
        obtain ⟨n, hid, hfit⟩ := hprep.fitted ht
        exact .acted hr hinv hprep hid hfit
          (acting_openPair (hprep.tidy ht).rooted hfit path hr s1 rfl rfl hid) rfl
  · rw [if_neg hr]
    obtain rfl : mode = .read := not_not.mp hr
    exact .looked rfl (reading_openPair path s rfl rfl) rfl

/-! ## Reading -/

/-- The descriptor at `desc` is for reading the file of `item`. -/
structure ReadTarget (v : FatPrivate) (desc : Nat) (d : FatFileDescriptor) (item : DirItem) :
    Prop where
  found : findDescriptor v desc = some d
  file : ∃ addr, d.item.node = .file addr item
  mode : d.mode = .read

/-- How many bytes a read of `count` bytes at `pos` gives. -/
def readLen (item : DirItem) (pos count : Nat) : Nat :=
  if item.filesize - pos < count then item.filesize - pos else count

/-- What a read of `count` bytes gives: the bytes the cached entry and the FAT lead to. -/
def readOf (v : FatPrivate) (img : Bytes) (desc count : Nat) : Except Errno (Nat × Bytes) :=
  match findDescriptor v desc with
  | none => .error .ebadf
  | some d =>
      if d.mode ≠ .read then .error .ebadf
      else
        match d.item.node with
        | .directory _ => .error .einvarg
        | .file _ item =>
            if count = 0 ∨ item.filesize ≤ d.pos then .ok (0, fun _ => 0)
            else do
              let buf ← readAt v img (fat16GetFirstCluster item) d.pos (readLen item d.pos count)
              .ok (readLen item d.pos count, buf)

inductive ReadCourse (desc count : Nat) (s : FsState) (r : Except Errno (Nat × Bytes))
    (s' : FsState) : Prop where
  | untargeted (hno : ∀ d item, ¬ ReadTarget s.vol desc d item) {e : Errno} (hr : r = .error e)
      (he : readOf s.vol s.dev.image desc count = .error e) (hs : s' = s)
  | nothing {d : FatFileDescriptor} {item : DirItem} (ht : ReadTarget s.vol desc d item)
      (h0 : count = 0 ∨ item.filesize ≤ d.pos) (hr : r = .ok (0, fun _ => 0)) (hs : s' = s)
  | got {d : FatFileDescriptor} {item : DirItem} (ht : ReadTarget s.vol desc d item)
      (h0 : 0 < count) (h1 : d.pos < item.filesize) {buf : Bytes} {s1 : FsState}
      (hread : ReadsTo 0 0 (.val 0)
        (readAt s.vol s.dev.image (fat16GetFirstCluster item) d.pos (readLen item d.pos count)) s
        (.ok buf) s1)
      (hr : r = .ok (readLen item d.pos count, buf))
      (hs : s' = onVol (setPos desc (d.pos + readLen item d.pos count)) s1)
  | failed {d : FatFileDescriptor} {item : DirItem} (ht : ReadTarget s.vol desc d item)
      (h0 : 0 < count) (h1 : d.pos < item.filesize) {e : Errno}
      (hread : ReadsTo 0 0 (.val 0)
        (readAt s.vol s.dev.image (fat16GetFirstCluster item) d.pos (readLen item d.pos count)) s
        (.error e) s')
      (hr : r = .error e)

/-- The reader tests the range again. -/
theorem reading_readChecked {img : Bytes} {held : Multiset Nat} (start offset total : Nat) :
    Reading v img held held (.val held) (readAt v img start offset total)
      (Prog.refuse (intMax < offset ∨ intMax - offset < total) .eio >>= fun _ =>
        fat16ReadInternal start offset total) := by
  refine (Reading.guard fun _ => reading_readInternal start offset total).congr ?_
  by_cases h : intMax < offset ∨ intMax - offset < total
  · rw [if_pos h]
    unfold readAt
    rw [if_pos (h.elim Or.inl fun h => Or.inr (Or.inl h))]
  · rw [if_neg h]

theorem fat16ReadBytes_spec (desc count : Nat) (s : FsState) :
    Prog.Ends (fat16ReadBytes desc count) s (ReadCourse desc count s) := by
  unfold Prog.Ends fat16ReadBytes
  rw [Prog.bind_ok (Prog.look_apply _ s)]
  cases hfind : findDescriptor s.vol desc with
  | none =>
    refine .untargeted (fun d item h => (by rw [h.found] at hfind; cases hfind)) rfl ?_ rfl
    unfold readOf
    rw [hfind]
  | some d =>
    have hd : ∀ d' item, ReadTarget s.vol desc d' item → d' = d := by
      intro d' item h
      rw [h.found] at hfind
      exact Option.some.inj hfind
    dsimp only
    by_cases hm : d.mode ≠ .read
    · rw [Prog.bind_error (show (Prog.refuse (d.mode ≠ .read) Errno.ebadf : FsProg Unit) s =
        (.error .ebadf, s) by unfold Prog.refuse; rw [if_pos hm]; rfl)]
      refine .untargeted (fun d' item' h => hm (hd d' item' h ▸ h.mode)) rfl ?_ rfl
      unfold readOf
      rw [hfind]
      exact if_pos hm
    rw [Prog.bind_ok (show (Prog.refuse (d.mode ≠ .read) Errno.ebadf : FsProg Unit) s =
      (.ok (), s) by
      unfold Prog.refuse; rw [if_neg hm]; rfl)]
    cases hnode : d.item.node with
    | directory dir =>
      refine .untargeted (fun d' item h => ?_) rfl ?_ rfl
      · obtain ⟨addr, hf⟩ := h.file
        rw [hd d' item h, hnode] at hf
        cases hf
      · unfold readOf
        rw [hfind]
        dsimp only
        rw [if_neg hm, hnode]
    | file addr item =>
      have htarget : ReadTarget s.vol desc d item := ⟨hfind, ⟨addr, hnode⟩, not_not.mp hm⟩
      dsimp only
      by_cases h0 : count = 0 ∨ item.filesize ≤ d.pos
      · rw [if_pos h0]
        exact .nothing htarget h0 rfl rfl
      rw [if_neg h0, ← bind_assoc]
      have hread : Prog.Ends _ s (ReadsTo 0 0 (.val 0) _ s) :=
        reading_readChecked (fat16GetFirstCluster item) d.pos (readLen item d.pos count) s rfl rfl
      refine hread.bind (fun buf s1 h1 => ?_) fun e s1 h1 => ?_
      · exact .got htarget (by omega) (by omega) h1 rfl rfl
      · exact .failed htarget (by omega) (by omega) h1 rfl

/-! ## Reading items -/

/-- What `fat16_read` gives from `left` items at `pos` on. -/
def itemsOf (v : FatPrivate) (img : Bytes) (size : Nat) (item : DirItem) :
    Nat → Nat → Nat → Nat → Bytes → Except Errno (Nat × Bytes)
  | 0, count, _, _, out => .ok (count, out)
  | left + 1, count, pos, done, out =>
      if item.filesize - pos = 0 then .ok (count, out)
      else do
        let buf ← readAt v img (fat16GetFirstCluster item) pos (readLen item pos size)
        if readLen item pos size ≠ size then .ok (count,
          memcpy out done buf 0 (readLen item pos size))
        else
          itemsOf v img size item left (count + 1) (pos + readLen item pos size)
            (done + readLen item pos size) (memcpy out done buf 0 (readLen item pos size))

/-- The volume after `desc` moved from `pos` to `p`. -/
def moved (desc pos p : Nat) (v : FatPrivate) : FatPrivate :=
  if p = pos then v else setPos desc p v

theorem setPos_setPos (desc p q : Nat) (v : FatPrivate) :
    setPos desc q (setPos desc p v) = setPos desc q v := by
  unfold setPos
  rw [List.map_map]
  congr 1
  refine List.map_congr_left fun d _ => ?_
  by_cases h : d.addr = desc
  · simp [h]
  · simp [h]

theorem moved_moved {pos p q : Nat} (v : FatPrivate) (h1 : pos < p) (h2 : p ≤ q) :
    moved desc p q (setPos desc p v) = moved desc pos q v := by
  unfold moved
  rw [if_neg (show ¬ q = pos by omega)]
  by_cases h : q = p
  · rw [if_pos h, h]
  · rw [if_neg h, setPos_setPos]

/-- How a read of items from `pos` on ends: at `p`, a whole number of items further on
if it failed. -/
structure ItemsTo (desc size pos left : Nat) (den : Except Errno (Nat × Bytes)) (s : FsState)
    (r : Except Errno (Nat × Bytes)) (s' : FsState) : Prop where
  still : Still s s'
  image : s'.dev.image = s.dev.image
  heap : ∀ base m, Owns base m s.heap → Owns base m s'.heap
  vol : ∃ p, pos ≤ p ∧ s'.vol = moved desc pos p s.vol ∧
    ∀ e, r = .error e → ∃ k, k < left ∧ p = pos + k * size
  outcome : (Calm s s' ∧ r = den) ∨ (Trouble s s' ∧ ∃ e, r = .error e)

theorem SameLayout.items {w : FatPrivate} (h : SameLayout v w) (img : Bytes) (size : Nat)
    (item : DirItem) (left : Nat) : ∀ count pos done out,
      itemsOf w img size item left count pos done out = itemsOf v img size item left count pos
        done out := by
  induction left with
  | zero => intro count pos done out; rfl
  | succ left ih =>
    intro count pos done out
    unfold itemsOf
    simp only [h.readAt, ih]

theorem readItems_spec (desc : Nat) {size : Nat} (hsize : 0 < size) (item : DirItem) (left : Nat) :
    ∀ (count pos done : Nat) (out : Bytes) (s : FsState),
      Prog.Ends (readItemsLoop desc size item left count pos done out) s
        (ItemsTo desc size pos left (itemsOf s.vol s.dev.image size item left count pos done out)
          s) := by
  induction left with
  | zero =>
    intro count pos done out s
    exact ⟨.refl s, rfl, fun _ _ h => h, ⟨pos, le_rfl, (if_pos rfl).symm, fun e he =>
      (by cases he)⟩, Or.inl ⟨⟨rfl, rfl⟩, rfl⟩⟩
  | succ left ih =>
    intro count pos done out s
    unfold readItemsLoop itemsOf
    by_cases h0 : item.filesize - pos = 0
    · rw [if_pos h0, if_pos h0]
      exact ⟨.refl s, rfl, fun _ _ h => h, ⟨pos, le_rfl, (if_pos rfl).symm, fun e he =>
        (by cases he)⟩, Or.inl ⟨⟨rfl, rfl⟩, rfl⟩⟩
    rw [if_neg h0, if_neg h0]
    have hlen : 0 < readLen item pos size := by
      unfold readLen
      split <;> omega
    have hread : Prog.Ends _ s (ReadsTo 0 0 (.val 0) _ s) :=
      reading_readChecked (fat16GetFirstCluster item) pos (readLen item pos size) s rfl rfl
    have hzero : ∀ {k : KHeap} {r : Except Errno Bytes} {base : KHeap} {m : Multiset Nat},
        Owns base ((Shape.val 0 : Shape Bytes Bytes).owned 0 r + m) k → Owns base m k := by
      intro k r base m ho
      cases r with
      | ok _ | error _ => exact (zero_add m) ▸ ho
    have hbytes : (if size < item.filesize - pos then size else item.filesize - pos) =
        readLen item pos size := by
      unfold readLen
      split <;> split <;> omega
    generalize (if size < item.filesize - pos then size else item.filesize - pos) =
      bytes at hbytes ⊢
    subst hbytes
    rw [← bind_assoc]
    refine hread.bind (fun buf s1 h1 => ?_) fun e s1 h1 => ?_
    · have hq := h1.quiet
      obtain ⟨hcalm, hden⟩ : Calm s s1 ∧
          readAt s.vol s.dev.image (fat16GetFirstCluster item) pos (readLen item pos size) =
            .ok buf := by
        rcases h1.outcome with ⟨hc, hd⟩ | ⟨-, e, hr, -⟩
        · exact ⟨hc, hd.symm⟩
        · cases hr
      have hheap : ∀ base m, Owns base m s.heap → Owns base m s1.heap := fun base m ho =>
        hzero (h1.heap base m ((zero_add m).symm ▸ ho))
      rw [hden]
      show Prog.Ends (if readLen item pos size ≠ size then _ else _)
        (onVol (setPos desc (pos + readLen item pos size)) s1) (ItemsTo desc size pos (left + 1)
          (if readLen item pos size ≠ size then _ else _) s)
      have hvol : s1.vol = s.vol := hq.vol
      by_cases hpart : readLen item pos size ≠ size
      · rw [if_pos hpart, if_pos hpart]
        refine ⟨⟨hq.mounted, hq.files, hq.same⟩, hq.image, hheap, ⟨pos + readLen item pos size,
          by omega, ?_, fun e he => (by cases he)⟩, Or.inl ⟨hcalm, rfl⟩⟩
        unfold moved
        rw [if_neg (by omega)]
        show setPos _ _ s1.vol = _
        rw [hvol]
      · rw [if_neg hpart, if_neg hpart]
        have hsz : readLen item pos size = size := not_not.mp hpart
        refine (ih (count + 1) (pos + readLen item pos size) (done + readLen item pos size)
          (memcpy out done buf 0 (readLen item pos size))
          (onVol (setPos desc (pos + readLen item pos size)) s1)).mono fun r s2 h2 => ?_
        obtain ⟨p, hp, hv2, herr⟩ := h2.vol
        have hlay : SameLayout s.vol (onVol (setPos desc (pos + readLen item pos size))
            s1).vol := by
          show SameLayout s.vol (setPos _ _ s1.vol)
          rw [hvol]
          exact ⟨rfl, rfl, rfl⟩
        refine ⟨(Still.mk hq.mounted hq.files hq.same).trans ⟨h2.still.1, h2.still.2, h2.still.3⟩,
          h2.image.trans hq.image, fun base m ho => h2.heap base m (hheap base m ho),
          ⟨p, by omega, ?_, fun e he => ?_⟩, ?_⟩
        · rw [hv2, ← moved_moved s.vol (show pos < pos + readLen item pos size by omega) hp]
          show moved _ _ _ (setPos _ _ s1.vol) = _
          rw [hvol]
        · obtain ⟨k, hk, hpk⟩ := herr e he
          refine ⟨k + 1, by omega, ?_⟩
          rw [hpk, hsz, Nat.add_mul, Nat.one_mul]
          omega
        · rcases h2.outcome with ⟨hc2, hr2⟩ | ⟨ht2, hr2⟩
          · refine Or.inl ⟨hcalm.trans hc2, ?_⟩
            rw [hr2, hlay.items]
            show itemsOf s.vol s1.dev.image _ _ _ _ _ _ _ = _
            rw [hq.image]
          · refine Or.inr ⟨?_, hr2⟩
            cases ht2 with
            | heap hlog hr => exact Trouble.after hq hcalm (.heap hlog hr)
            | read lba n hlog hn => exact Trouble.after hq hcalm (.read lba n hlog hn)
    · have hq := h1.quiet
      refine ⟨⟨hq.mounted, hq.files, hq.same⟩, hq.image, fun base m ho =>
        hzero (h1.heap base m ((zero_add m).symm ▸ ho)),
          ⟨pos, le_rfl, ?_, fun e he => ⟨0, by omega, by omega⟩⟩, ?_⟩
      · rw [hq.vol]
        exact (if_pos rfl).symm
      · rcases h1.outcome with ⟨hc, hd⟩ | ⟨ht, e', hr, -⟩
        · refine Or.inl ⟨hc, ?_⟩
          rw [← hd]
          rfl
        · exact Or.inr ⟨ht, e, rfl⟩

inductive ItemsCourse (desc size nmemb : Nat) (s : FsState) (r : Except Errno (Nat × Bytes))
    (s' : FsState) : Prop where
  | stopped {e : Errno} (hr : r = .error e) (hs : s' = s)
  | ran {d : FatFileDescriptor} {addr : Nat} {item : DirItem}
    (hd : findDescriptor s.vol desc = some d)
      (hf : d.item.node = .file addr item) (hle : d.pos ≤ item.filesize)
      (h : ItemsTo desc size d.pos nmemb
        (itemsOf s.vol s.dev.image size item nmemb 0 d.pos 0 fun _ => 0) s r s')

theorem fat16Read_spec (desc : Nat) {size : Nat} (hsize : 0 < size) (nmemb : Nat) (s : FsState) :
    Prog.Ends (fat16Read desc size nmemb) s (ItemsCourse desc size nmemb s) := by
  unfold Prog.Ends fat16Read
  rw [Prog.bind_ok (Prog.look_apply _ s)]
  cases hfind : findDescriptor s.vol desc with
  | none => exact .stopped rfl rfl
  | some d =>
    dsimp only
    cases hnode : d.item.node with
    | directory dir => exact .stopped rfl rfl
    | file addr item =>
      dsimp only
      by_cases h : item.filesize < d.pos
      · rw [Prog.bind_error (show (Prog.refuse (item.filesize < d.pos) Errno.eio : FsProg Unit) s =
          (.error .eio, s) by unfold Prog.refuse; rw [if_pos h]; rfl)]
        exact .stopped rfl rfl
      · rw [Prog.bind_ok (show (Prog.refuse (item.filesize < d.pos) Errno.eio : FsProg Unit) s =
          (.ok (), s) by unfold Prog.refuse; rw [if_neg h]; rfl)]
        exact .ran hfind hnode (by omega) (readItems_spec desc hsize item nmemb 0 d.pos 0 _ s)

theorem fat16Read_target {addr : Nat} {d : FatFileDescriptor} {item : DirItem}
    (hd : findDescriptor s.vol desc = some d) (hf : d.item.node = .file addr item)
    (hle : d.pos ≤ item.filesize) (size nmemb : Nat) :
    fat16Read desc size nmemb s = readItemsLoop desc size item nmemb 0 d.pos 0 (fun _ => 0) s := by
  unfold fat16Read
  rw [Prog.bind_ok (Prog.look_apply _ s), hd]
  dsimp only
  rw [hf]
  dsimp only
  unfold Prog.refuse
  rw [if_neg (by omega)]
  rfl

/-! ## Seeking -/

/-- Where a seek leads, or its error. -/
def seekOf (v : FatPrivate) (desc : Nat) (offset : Int) (whence : SeekMode) : Except Errno Nat :=
  match findDescriptor v desc with
  | none => .error .einvarg
  | some d =>
      match d.item.node with
      | .directory _ => .error .einvarg
      | .file _ item => do
          let base ← (match whence with
            | .set => .ok 0
            | .cur => .ok d.pos
            | .fromEnd => .ok item.filesize
            | .other => .error .einvarg)
          if (base : Int) + offset < 0 ∨ (intMax : Int) < (base : Int) + offset ∨
              (item.filesize : Int) < (base : Int) + offset then .error .einvarg
          else .ok ((base : Int) + offset).toNat

/-- A seek moves the position of its handle or does nothing. -/
theorem fat16SeekSigned_eq (desc : Nat) (offset : Int) (whence : SeekMode) (s : FsState) :
    fat16SeekSigned desc offset whence s =
      match seekOf s.vol desc offset whence with
      | .ok pos => (.ok pos, onVol (setPos desc pos) s)
      | .error e => (.error e, s) := by
  unfold fat16SeekSigned seekOf
  rw [Prog.bind_ok (Prog.look_apply _ s)]
  cases findDescriptor s.vol desc with
  | none => rfl
  | some d =>
    dsimp only
    cases d.item.node with
    | directory dir => rfl
    | file addr item =>
      dsimp only
      have hgo : ∀ base : Nat, (Prog.refuse ((base : Int) + offset < 0 ∨ (intMax : Int) <
        (base : Int) + offset ∨
          (item.filesize : Int) < (base : Int) + offset) Errno.einvarg >>= fun _ =>
            (Prog.change (onVol (setPos desc ((base : Int) + offset).toNat)) >>= fun _ =>
              (pure ((base : Int) + offset).toNat : FsProg Nat))) s =
          match (if (base : Int) + offset < 0 ∨ (intMax : Int) < (base : Int) + offset ∨
              (item.filesize : Int) < (base : Int) + offset then Except.error Errno.einvarg
            else .ok ((base : Int) + offset).toNat) with
          | .ok pos => (.ok pos, onVol (setPos desc pos) s)
          | .error e => (.error e, s) := by
        intro base
        unfold Prog.refuse
        split
        · rfl
        · rfl
      cases whence with
      | set => exact hgo 0
      | cur => exact hgo d.pos
      | fromEnd => exact hgo item.filesize
      | other => rfl

theorem fat16Seek_cases (desc offset : Nat) (whence : SeekMode) (s : FsState) :
    ((fat16Seek desc offset whence s).2 = s ∧ ∃ e, (fat16Seek desc offset whence s).1 = .error e) ∨
    (∃ pos, fat16Seek desc offset whence s = (.ok (), onVol (setPos desc pos) s)) := by
  unfold fat16Seek
  rw [Prog.bind_ok (Prog.look_apply _ s)]
  cases findDescriptor s.vol desc with
  | none => exact Or.inl ⟨rfl, _, rfl⟩
  | some d =>
    dsimp only
    cases d.item.node with
    | directory dir => exact Or.inl ⟨rfl, _, rfl⟩
    | file addr item =>
      cases whence with
      | set =>
        dsimp only
        unfold Prog.refuse
        split
        · exact Or.inl ⟨rfl, _, rfl⟩
        · exact Or.inr ⟨_, rfl⟩
      | cur =>
        dsimp only
        unfold Prog.refuse
        split
        · exact Or.inl ⟨rfl, _, rfl⟩
        · exact Or.inr ⟨_, rfl⟩
      | fromEnd | other => exact Or.inl ⟨rfl, _, rfl⟩

/-! ## Closing -/

/-- Closing takes a descriptor off the list and frees memory; nothing else moves. -/
theorem close_spec (desc : Nat) (s : FsState) : (fat16Close desc s).dev = s.dev ∧
    (fat16Close desc s).mounted = s.mounted ∧ (fat16Close desc s).files = s.files ∧
    ∃ rest, (∀ d ∈ rest, d ∈ s.vol.descriptors) ∧
      (fat16Close desc s).vol = { s.vol with descriptors := rest } := by
  unfold fat16Close
  cases findDescriptor s.vol desc with
  | none => exact ⟨rfl, rfl, rfl, s.vol.descriptors, fun _ hd => hd, rfl⟩
  | some d =>
    obtain ⟨hdev, hvol, hm, hfiles, -⟩ := ((frees_kfreeAt desc).comp (frees_item d.item))
      (onVol (fun v => { v with descriptors := v.descriptors.filter fun d => d.addr ≠ desc }) s)
    exact ⟨hdev, hm, hfiles, _, fun _ => List.mem_of_mem_filter, hvol⟩

end Rorthox.Fat
