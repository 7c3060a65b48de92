import Rorthox.Fat.Coherence
import Rorthox.Fat.Tree
import Rorthox.Fs.PathLanguage

/-!
# Short names

The entry of a new file shows the name it was made for, in capitals, and a lookup compares
without case. Whatever bytes an entry has, reading its name stays inside its two fields.
-/

namespace Rorthox.Fs

open Lib Fat Disk Memory

/-! ## The name of the new entry -/

theorem tolower_toUpper : ∀ c : UInt8, tolower (toUpper c) = tolower c := by decide +kernel

theorem toUpper_shown : ∀ c : UInt8, 0x20 < c → c < 0x7F → toUpper c ≠ 0 ∧ toUpper c ≠ 0x20 := by
  decide +kernel

theorem lower_upper (w : List UInt8) : (w.map toUpper).map tolower = w.map tolower := by
  rw [List.map_map]
  exact List.map_congr_left fun c _ => tolower_toUpper c

/-- Characters without a dot go to the field at hand. -/
theorem shortName_word (dot : Bool) (tail w : List UInt8) :
    ∀ (base ext : List UInt8), (∀ c ∈ w, c ≠ 0x2E) →
    (dot = false → base.length + w.length ≤ 8) → (dot = true → ext.length + w.length ≤ 3) →
    shortName (w ++ tail) dot base ext =
      if dot then shortName tail dot base (ext ++ w.map toUpper)
      else shortName tail dot (base ++ w.map toUpper) ext := by
  induction w with
  | nil =>
    intro base ext _ _ _
    cases dot <;> simp
  | cons c w ih =>
    intro base ext hw hbase hext
    obtain ⟨hc, hw⟩ := List.forall_mem_cons.mp hw
    rw [List.length_cons] at hbase hext
    rw [List.cons_append, shortName, if_neg hc]
    cases dot with
    | false =>
      have hroom : ¬ 8 ≤ base.length := by
        have := hbase rfl
        omega
      have hnext := ih (base ++ [toUpper c]) ext hw
        (fun _ => by rw [List.length_append, List.length_singleton]; have := hbase rfl; omega)
        (fun h => (by cases h))
      rw [if_neg (by simp [hroom]), if_neg Bool.false_ne_true, hnext]
      simp
    | true =>
      have hroom : ¬ 3 ≤ ext.length := by
        have := hext rfl
        omega
      have hnext := ih base (ext ++ [toUpper c]) hw (fun h => (by cases h))
        (fun _ => by rw [List.length_append, List.length_singleton]; have := hext rfl; omega)
      rw [if_neg (by simp [hroom]), if_pos rfl, hnext]
      simp

variable {last w : List UInt8}

section

variable {base ext : List UInt8}

theorem newEntry_base {i : Nat} (hi : i < 8) :
    (newEntry base ext).byte i = base.getD i 0x20 := by
  rw [newEntry, modified_byte _ (by omega) (by omega), DirItem.put_out _ (by omega),
    DirItem.put_out _ (by omega)]
  rcases Nat.lt_or_ge i base.length with hlt | hge
  · rw [DirItem.put_in _ (by omega) (Nat.zero_le i) (by omega), Nat.sub_zero,
      List.getD_eq_getElem _ _ hlt, List.getD_eq_getElem _ _ hlt]
  · rw [DirItem.put_out _ (by omega), DirItem.put_in _ (by omega) (Nat.zero_le i) (by simp; omega),
      List.getD_eq_default _ _ hge, Nat.sub_zero, List.getD_replicate _ (by omega)]

theorem newEntry_ext (hb : base.length ≤ 8) {k : Nat} (hk : k < 3) :
    (newEntry base ext).byte (8 + k) = ext.getD k 0x20 := by
  rw [newEntry, modified_byte _ (by omega) (by omega), DirItem.put_out _ (by omega)]
  rcases Nat.lt_or_ge k ext.length with hlt | hge
  · rw [DirItem.put_in _ (by omega) (by omega) (by omega), Nat.add_sub_cancel_left,
      List.getD_eq_getElem _ _ hlt, List.getD_eq_getElem _ _ hlt]
  · rw [DirItem.put_out _ (by omega), DirItem.put_out _ (by omega),
      DirItem.put_in _ (by omega) (by omega) (by simp; omega), List.getD_eq_default _ _ hge,
      List.getD_replicate _ (by omega)]

/-- A field is the word and blanks. -/
theorem padded_field {m : Nat} (h : w.length ≤ m) :
    (List.range m).map (fun i => w.getD i 0x20) = w ++ List.replicate (m - w.length) 0x20 := by
  refine List.ext_getElem (by simp; omega) fun i h1 h2 => ?_
  rw [List.getElem_map, List.getElem_range]
  rcases Nat.lt_or_ge i w.length with hlt | hge
  · rw [List.getD_eq_getElem _ _ hlt, List.getElem_append_left hlt]
  · rw [List.getD_eq_default _ _ hge, List.getElem_append_right hge, List.getElem_replicate]

theorem proper_padded (hw : ∀ c ∈ w, c ≠ 0 ∧ c ≠ 0x20) (k : Nat) :
    fat16ToProperString (w ++ List.replicate k 0x20) = w := by
  rw [fat16ToProperString, List.takeWhile_append_of_pos (by simpa using hw)]
  simp

/-- The text of a new entry. -/
theorem newEntry_text (hb : base.length ≤ 8) (he : ext.length ≤ 3)
    (hbase : ∀ c ∈ base, c ≠ 0 ∧ c ≠ 0x20) (hext : ∀ c ∈ ext, c ≠ 0 ∧ c ≠ 0x20) :
    fat16GetFullRelativeFilename (newEntry base ext) = base ++
      (if ext = [] then [] else dot :: ext) := by
  have hname : (newEntry base ext).filename = base ++ List.replicate (8 - base.length) 0x20 := by
    rw [← padded_field hb, DirItem.filename]
    exact List.map_congr_left fun i hi => newEntry_base (List.mem_range.mp hi)
  have hfield : (newEntry base ext).ext = ext ++ List.replicate (3 - ext.length) 0x20 := by
    rw [← padded_field he, DirItem.ext]
    exact List.map_congr_left fun i hi => newEntry_ext hb (List.mem_range.mp hi)
  have hfirst : (newEntry base ext).byte 8 = ext.getD 0 0x20 := newEntry_ext hb (k := 0) (by decide)
  rw [fat16GetFullRelativeFilename, hname, hfield, proper_padded hbase, proper_padded hext, hfirst]
  cases ext with
  | nil => rfl
  | cons c ext =>
    have hc : c ≠ 0 ∧ c ≠ 0x20 := hext c List.mem_cons_self
    rw [if_neg (List.cons_ne_nil c ext)]
    exact congrArg _ (if_pos hc)

end

theorem Word.upper {n : Nat} (h : Word n w) :
    (w.map toUpper).length ≤ n ∧ ∀ c ∈ w.map toUpper, c ≠ 0 ∧ c ≠ 0x20 := by
  refine ⟨by rw [List.length_map]; exact h.2.1, fun c hc => ?_⟩
  obtain ⟨a, ha, rfl⟩ := List.mem_map.mp hc
  exact toUpper_shown a (h.2.2 a ha).1 (h.2.2 a ha).2.1

/-- The fields of a new entry for a name, and the text it shows. -/
theorem Name.fields (h : Name last) :
    ∃ base ext, shortName last false [] [] = .ok (base, ext) ∧ base.length ≤ 8 ∧ ext.length ≤ 3 ∧
      fat16GetFullRelativeFilename (newEntry base ext) = last.map toUpper := by
  obtain ⟨w, hw, hlast⟩ := h
  have hdots : ∀ {n : Nat} {u : List UInt8}, Word n u → ∀ c ∈ u, c ≠ 0x2E := fun hu c hc =>
    (hu.2.2 c hc).2.2.1
  -- the two forms of a name differ in the extension only
  obtain ⟨ext, hext, hall, hname, htext⟩ : ∃ ext : List UInt8, ext.length ≤ 3 ∧
      (∀ c ∈ ext, c ≠ 0 ∧ c ≠ 0x20) ∧ shortName last false [] [] = .ok (w.map toUpper, ext) ∧
      w.map toUpper ++ (if ext = [] then [] else dot :: ext) = last.map toUpper := by
    rcases hlast with rfl | ⟨u, hu, rfl⟩
    · refine ⟨[], Nat.zero_le _, fun c hc => (by cases hc), ?_, by simp⟩
      have hword := shortName_word false [] last [] [] (hdots hw) (by simpa using hw.2.1) (by simp)
      simpa [shortName] using hword
    · have hne : u.map toUpper ≠ [] := by
        simpa using List.ne_nil_of_length_pos hu.1
      refine ⟨u.map toUpper, hu.upper.1, hu.upper.2, ?_, ?_⟩
      · have hword := shortName_word false (dot :: u) w [] [] (hdots hw) (by simpa using hw.2.1)
          (by simp)
        have hrest := shortName_word true [] u (w.map toUpper) [] (hdots hu) (by simp)
          (by simpa using hu.2.1)
        rw [List.append_nil] at hrest
        rw [hword, if_neg Bool.false_ne_true, List.nil_append, shortName,
          if_pos (show dot = 0x2E from rfl), hrest]
        rfl
      · rw [if_neg hne, List.map_append, List.map_cons]
        rfl
  obtain ⟨hbase, hshown⟩ := hw.upper
  exact ⟨_, _, hname, hbase, hext, by rw [newEntry_text hbase hext hshown hall, htext]⟩

theorem Name.proper (h : Name last) : ProperName last := by
  obtain ⟨w, hw, hlast⟩ := h
  cases w with
  | nil => exact absurd hw.1 (by decide)
  | cons c rest =>
    obtain ⟨hlo, hhi, hdot, -, -⟩ := hw.2.2 c List.mem_cons_self
    rcases hlast with rfl | ⟨u, -, rfl⟩
    · exact ⟨c, rest, rfl, hdot, hlo, hhi⟩
    · exact ⟨c, _, rfl, hdot, hlo, hhi⟩

/-- A new entry is used and shows its name. -/
theorem Name.entry (h : Name last) :
    ∃ base ext, shortName last false [] [] = .ok (base, ext) ∧ base.length ≤ 8 ∧ ext.length ≤ 3 ∧
      (newEntry base ext).byte 0 ≠ 0 ∧ Named (newEntry base ext) last := by
  obtain ⟨base, ext, hname, hbase, hext, htext⟩ := h.fields
  obtain ⟨h0, hE5⟩ := h.proper.first hname
  refine ⟨base, ext, hname, hbase, hext, h0, ?_, by rw [htext, lower_upper]⟩
  rintro (hs | hs)
  · exact hE5 hs
  · rw [newEntry_attrib hbase hext] at hs
    exact hs (by decide)

theorem Name.no_zero {name : List UInt8} (h : Name name) : (0 : UInt8) ∉ name := by
  have hword : ∀ {n : Nat} {w : List UInt8}, Word n w → (0 : UInt8) ∉ w := fun hw h0 =>
    absurd (hw.2.2 0 h0).1 (by decide)
  obtain ⟨base, hbase, rfl | ⟨ext, hext, rfl⟩⟩ := h
  · exact hword hbase
  · rw [List.mem_append, List.mem_cons]
    rintro (h0 | h0 | h0)
    · exact hword hbase h0
    · exact absurd h0 (by decide)
    · exact hword hext h0

/-- Two names that a lookup does not tell apart. -/
def SameName (a b : List UInt8) : Prop := a.map tolower = b.map tolower

theorem named_congr {item : DirItem} {a b : List UInt8} (h : SameName a b) :
    Named item a ↔ Named item b := by
  rw [Named, Named, h]

/-! ## Accepted components -/

/-- A part between the slashes of a path that the check accepts. -/
def Component (name : List UInt8) : Prop :=
  ∃ names : List (List UInt8), (∀ p ∈ names, slash ∉ p) ∧ name ∈ names ∧
    fileValidatePath (drivePrefix ++ [slash].intercalate names) = true

theorem Name.no_slash {name : List UInt8} (h : Name name) : slash ∉ name := by
  have hword : ∀ {n : Nat} {w : List UInt8}, Word n w → slash ∉ w :=
    fun hw hs => (hw.2.2 _ hs).2.2.2.1 rfl
  obtain ⟨base, hbase, rfl | ⟨ext, hext, rfl⟩⟩ := h
  · exact hword hbase
  · rw [List.mem_append, List.mem_cons]
    rintro (hs | hs | hs)
    · exact hword hbase hs
    · exact absurd hs (by decide)
    · exact hword hext hs

/-- The components are the 8.3 names. -/
theorem Component.name {name : List UInt8} (h : Component name) : Name name := by
  obtain ⟨names, hslash, hmem, hok⟩ := h
  obtain ⟨-, names', hne, hall, hspelled⟩ := (validatePath_iff _).mp hok
  have hsplit := congrArg (List.splitOn slash) (List.append_cancel_left hspelled)
  rw [List.splitOn_intercalate slash hslash (List.ne_nil_of_mem hmem),
    List.splitOn_intercalate slash (fun p hp => (hall p hp).no_slash) hne] at hsplit
  rw [hsplit] at hmem
  exact hall name hmem

/-! ## Stored names -/

theorem toUpper_toUpper : ∀ c : UInt8, toUpper (toUpper c) = toUpper c := by decide +kernel

theorem toUpper_tolower : ∀ c : UInt8, toUpper (tolower c) = toUpper c := by decide +kernel

theorem toUpper_dot : ∀ c : UInt8, toUpper c = 0x2E ↔ c = 0x2E := by decide +kernel

theorem sameName_iff {a b : List UInt8} : SameName a b ↔ a.map toUpper = b.map toUpper := by
  have hupper : ∀ l : List UInt8, (l.map tolower).map toUpper = l.map toUpper := fun l => by
    rw [List.map_map]
    exact List.map_congr_left fun c _ => toUpper_tolower c
  constructor
  · intro h
    rw [← hupper a, ← hupper b, h]
  · intro h
    rw [SameName, ← lower_upper a, ← lower_upper b, h]

/-- The fields depend on the capitals alone. -/
theorem shortName_upper (name : List UInt8) : ∀ (dot : Bool) (base ext : List UInt8),
    shortName (name.map toUpper) dot base ext = shortName name dot base ext := by
  induction name with
  | nil => intro dot base ext; rfl
  | cons c name ih =>
    intro dot base ext
    simp only [List.map_cons, shortName, toUpper_dot, toUpper_toUpper, ih]

/-- The 11 bytes of the name that a creation stores. -/
def storedName (name : List UInt8) : Except Errno (List UInt8) :=
  (shortName name false [] []).map fun f => (List.range 11).map (newEntry f.1 f.2).byte

/-- The name of an entry is read off these 11 bytes. -/
theorem filename_congr {a b : DirItem} (h : (List.range 11).map a.byte =
    (List.range 11).map b.byte) :
    fat16GetFullRelativeFilename a = fat16GetFullRelativeFilename b := by
  have hbyte : ∀ i, i < 11 → a.byte i = b.byte i := fun i hi =>
    List.map_inj_left.mp h i (List.mem_range.mpr hi)
  have hname : a.filename = b.filename :=
    List.map_congr_left fun i hi => hbyte i (by have := List.mem_range.mp hi; omega)
  have hext : a.ext = b.ext :=
    List.map_congr_left fun i hi => hbyte (8 + i) (by have := List.mem_range.mp hi; omega)
  rw [fat16GetFullRelativeFilename, fat16GetFullRelativeFilename, hname, hext, hbyte 8 (by decide)]

/-! ## Reading a name byte by byte -/

/-- The loop of `fat16_to_proper_string` with `i` bytes of the field behind it, writing at
`k`. There is no value for a read outside of the field. -/
def toProperStringLoop (field : List UInt8) (size : Nat) : Nat → Nat → (Nat → UInt8) → Nat →
    Option ((Nat → UInt8) × Nat)
  | 0, _, _, _ => none
  | fuel + 1, i, out, k =>
      match field[i]? with
      | none => none
      | some c =>
          if c ≠ 0 ∧ c ≠ 0x20 then
            if size - 1 ≤ i then some (Function.update (Function.update out k c) (k + 1) 0, k + 1)
            else toProperStringLoop field size fuel (i + 1) (Function.update out k c) (k + 1)
          else some (Function.update out k 0, k)

/-- `fat16_get_full_relative_filename` into a zeroed buffer. -/
def fullRelativeFilename (item : DirItem) : Option (Nat → UInt8) := do
  let (out, k) ← toProperStringLoop item.filename 8 8 0 (fun _ => 0) 0
  if item.byte 8 ≠ 0 ∧ item.byte 8 ≠ 0x20 then do
    let (out, _) ← toProperStringLoop item.ext 3 3 0 (Function.update out k 0x2E) (k + 1)
    some out
  else some out

theorem Spelled.terminate {buf : Nat → UInt8} {text : List UInt8} (h : Spelled buf text) :
    Function.update buf text.length 0 = buf := by
  rw [Function.update_eq_self_iff]
  exact (h.ended _ le_rfl).symm

/-- By induction on the bytes left, with the text written so far. -/
theorem toProperString_spelled {field : List UInt8} (fuel : Nat) : ∀ (i : Nat) (out : Nat → UInt8)
    (text : List UInt8), i + fuel = field.length → 0 < fuel → Spelled out text →
      text.length + fuel < maxPath →
      ∃ out', toProperStringLoop field field.length fuel i out text.length =
          some (out', (text ++ fat16ToProperString (field.drop i)).length) ∧
        Spelled out' (text ++ fat16ToProperString (field.drop i)) := by
  induction fuel with
  | zero => intro i out text _ h; exact absurd h (lt_irrefl 0)
  | succ fuel ih =>
    intro i out text hlen _ hspelled hfits
    have hi : i < field.length := by omega
    rw [toProperStringLoop, List.getElem?_eq_getElem hi, List.drop_eq_getElem_cons hi]
    dsimp only
    by_cases hc : field[i] ≠ 0 ∧ field[i] ≠ 0x20
    · have hpush := hspelled.push field[i] (by omega)
      have hcons : fat16ToProperString (field[i] :: field.drop (i + 1)) =
          field[i] :: fat16ToProperString (field.drop (i + 1)) := by
        rw [fat16ToProperString, List.takeWhile_cons_of_pos (by simpa using hc)]
        rfl
      rw [if_pos hc, hcons]
      by_cases hlast : field.length - 1 ≤ i
      · have hend : field.drop (i + 1) = [] := List.drop_eq_nil_of_le (by omega)
        have hterm := hpush.terminate
        rw [List.length_append, List.length_singleton] at hterm
        rw [if_pos hlast, hend, hterm]
        exact ⟨_, by simp [fat16ToProperString], hpush⟩
      · obtain ⟨out', hout, hspelled'⟩ := ih (i + 1) _ _ (by omega) (by omega) hpush
          (by simp; omega)
        rw [List.length_append, List.length_singleton, List.append_assoc,
          List.singleton_append] at hout
        rw [List.append_assoc, List.singleton_append] at hspelled'
        rw [if_neg hlast]
        exact ⟨out', hout, hspelled'⟩
    · have hnil : fat16ToProperString (field[i] :: field.drop (i + 1)) = [] := by
        rw [fat16ToProperString, List.takeWhile_cons_of_neg]
        simpa using hc
      rw [if_neg hc, hnil, List.append_nil, hspelled.terminate]
      exact ⟨out, rfl, hspelled⟩

/-- The text of an entry stands in the buffer, whatever its bytes are. -/
theorem fullRelativeFilename_spelled (item : DirItem) :
    ∃ buf, fullRelativeFilename item = some buf ∧ Spelled buf
      (fat16GetFullRelativeFilename item) := by
  have hname : item.filename.length = 8 := by simp [DirItem.filename]
  have hext : item.ext.length = 3 := by simp [DirItem.ext]
  have hshort := properString_length item.filename
  obtain ⟨out, hout, hspelled⟩ := toProperString_spelled 8 0 _ [] hname.symm (by decide)
    spelled_zero (by decide)
  rw [hname, List.drop_zero, List.nil_append, List.length_nil] at hout
  rw [List.drop_zero, List.nil_append] at hspelled
  rw [fullRelativeFilename, fat16GetFullRelativeFilename]
  by_cases hdot : item.byte 8 ≠ 0 ∧ item.byte 8 ≠ 0x20
  · have hpush := hspelled.push 0x2E (by rw [maxPath]; omega)
    obtain ⟨out', hout', hspelled'⟩ := toProperString_spelled 3 0 _ _ hext.symm (by decide) hpush
      (by rw [List.length_append, List.length_singleton, maxPath]; omega)
    rw [hext, List.drop_zero, List.length_append, List.length_singleton] at hout'
    rw [List.drop_zero, List.append_assoc, List.singleton_append] at hspelled'
    refine ⟨out', ?_, by rwa [if_pos hdot]⟩
    simp only [hout, hout', if_pos hdot, Option.bind_eq_bind, Option.bind_some]
  · refine ⟨out, ?_, by rwa [if_neg hdot, List.append_nil]⟩
    simp only [hout, if_neg hdot, Option.bind_eq_bind, Option.bind_some]

theorem filename_le (item : DirItem) : (fat16GetFullRelativeFilename item).length ≤ 12 := by
  have h1 := properString_length item.filename
  have h2 := properString_length item.ext
  have hname : item.filename.length = 8 := by simp [DirItem.filename]
  have hext : item.ext.length = 3 := by simp [DirItem.ext]
  rw [fat16GetFullRelativeFilename, List.length_append]
  split
  · rw [List.length_cons]
    omega
  · rw [List.length_nil]
    omega

/-- Short names make the round trip.

The 11 bytes stored for a component show it in capitals. Two components have the same bytes
just when they agree up to case, and just then the comparison of the text of one with the
other finds no difference. The text of any entry whatever is read from its two fields alone
and ends within 13 bytes of the buffer. -/
theorem short_names :
    (∀ name, Component name → ∃ base ext, shortName name false [] [] = .ok (base, ext) ∧
      fat16GetFullRelativeFilename (newEntry base ext) = name.map toUpper) ∧
    (∀ a b, Component a → Component b →
      (storedName a = storedName b ↔ a.map tolower = b.map tolower) ∧
      ∀ base ext, shortName a false [] [] = .ok (base, ext) →
        (nameMatches (newEntry base ext) b = true ↔ a.map tolower = b.map tolower)) ∧
    ∀ item : DirItem, ∃ buf text, fullRelativeFilename item = some buf ∧ Spelled buf text ∧
      (0 : UInt8) ∉ text ∧ text.length ≤ 12 ∧ text = fat16GetFullRelativeFilename item := by
  refine ⟨fun name h => ?_, fun a b ha hb => ⟨⟨fun h => ?_, fun h => ?_⟩, fun base ext hname => ?_⟩,
    fun item => ?_⟩
  · obtain ⟨base, ext, hname, -, -, htext⟩ := h.name.fields
    exact ⟨base, ext, hname, htext⟩
  · obtain ⟨base, ext, hname, -, -, htext⟩ := ha.name.fields
    obtain ⟨base', ext', hname', -, -, htext'⟩ := hb.name.fields
    rw [storedName, storedName, hname, hname'] at h
    rw [filename_congr (Except.ok.inj h), htext'] at htext
    exact sameName_iff.mpr htext.symm
  · rw [storedName, storedName, ← shortName_upper a, ← shortName_upper b, sameName_iff.mp h]
  · obtain ⟨base', ext', hname', -, -, htext⟩ := ha.name.fields
    rw [hname] at hname'
    cases hname'
    rw [nameMatches, istrncmp_iff (filename_zero _) hb.name.no_zero (filename_length _), htext,
      lower_upper]
  · obtain ⟨buf, hbuf, hspelled⟩ := fullRelativeFilename_spelled item
    exact ⟨buf, _, hbuf, hspelled, filename_zero item, filename_le item, rfl⟩

/-- `a.b` is stored as `A.B`. -/
theorem short_names_ab : ∃ base ext, shortName [0x61, 0x2E, 0x62] false [] [] = .ok (base, ext) ∧
    fat16GetFullRelativeFilename (newEntry base ext) = [0x41, 0x2E, 0x42] :=
  short_names.1 _ ⟨[[0x61, 0x2E, 0x62]], by decide, by decide, by decide⟩

end Rorthox.Fs
