import Rorthox.Fs.PathSpec

/-!
# The path language

What `file_validate_path` accepts, as a grammar, and what `pathparser_parse` gives for a
string: the same names for an accepted one, and in general the leading non-empty
components behind the drive.
-/

namespace Rorthox.Fs

open Lib Fat Disk Memory

/-! ## The grammar -/

def dot : UInt8 := 0x2E

/-- A character of a name: printable, above the blank, and none of those with a meaning. -/
def Allowed (c : UInt8) : Prop :=
  0x20 < c ∧ c < 0x7F ∧ c ≠ dot ∧ c ≠ slash ∧ c ∉ forbidden

def Word (n : Nat) (l : List UInt8) : Prop := 1 ≤ l.length ∧ l.length ≤ n ∧ ∀ c ∈ l, Allowed c

/-- An 8.3 name. -/
def Name (l : List UInt8) : Prop :=
  ∃ base, Word 8 base ∧ (l = base ∨ ∃ ext, Word 3 ext ∧ l = base ++ dot :: ext)

def drivePrefix : List UInt8 := [0x30, 0x3A, slash]

/-- `s` is the path of these names. -/
structure PathOf (names : List (List UInt8)) (s : List UInt8) : Prop where
  some_name : names ≠ []
  names_ok : ∀ n ∈ names, Name n
  spelled : s = drivePrefix ++ [slash].intercalate names

/-! ## The check -/

/-- What may stand behind a name: the end, or a slash and further names. -/
def Ends (tail : List UInt8) : Prop :=
  tail = [] ∨ ∃ rest, tail = slash :: rest ∧ validateParts rest 0 0 false = true

variable {c : UInt8} {base ext : Nat} {seen : Bool} {path tail : List UInt8}
  {names : List (List UInt8)}

theorem allowed_iff (hslash : c ≠ slash) (hdot : c ≠ 0x2E) :
    Allowed c ↔ ¬ (c ≤ 0x20 ∨ 0x7F ≤ c ∨ c ∈ forbidden) := by
  constructor
  · rintro ⟨h1, h2, -, -, h3⟩ (h | h | h)
    · exact absurd h1 (UInt8.not_lt.mpr h)
    · exact absurd h2 (UInt8.not_lt.mpr h)
    · exact h3 h
  · intro h
    exact ⟨UInt8.not_le.mp fun hc => h (.inl hc), UInt8.not_le.mp fun hc => h (.inr (.inl hc)),
      hdot, hslash, fun hc => h (.inr (.inr hc))⟩

/-- Enough of a name has been seen. -/
def Complete (base ext : Nat) (seen : Bool) : Prop := base ≠ 0 ∧ (seen = true → ext ≠ 0)

theorem complete_iff :
    (decide (base ≠ 0) && !(seen && ext == 0)) = true ↔ Complete base ext seen := by
  cases seen with
  | false | true => simp [Complete]

theorem validate_nil :
    validateParts [] base ext seen = true ↔ Complete base ext seen := complete_iff

theorem validate_slash : validateParts (slash :: path) base ext seen = true ↔
      Complete base ext seen ∧ validateParts path 0 0 false = true := by
  rw [validateParts, if_pos rfl, Bool.and_eq_true, Bool.and_eq_true, complete_iff]
  constructor
  · exact fun h => ⟨h.1.1, h.2⟩
  · rintro ⟨hdone, hrest⟩
    refine ⟨⟨hdone, decide_eq_true ?_⟩, hrest⟩
    rintro rfl
    cases hrest

/-- A complete name may end here. -/
theorem validate_end (hdone : Complete base ext seen) (h : Ends tail) :
    validateParts tail base ext seen = true := by
  rcases h with rfl | ⟨rest, rfl, hrest⟩
  · exact validate_nil.mpr hdone
  · exact validate_slash.mpr ⟨hdone, hrest⟩

/-- Where no further character of the name stands, the check accepts only an end. -/
theorem end_of_validate (hstop : ∀ c t, tail = c :: t → ¬ Allowed c ∧ c ≠ dot)
    (h : validateParts tail base ext seen = true) : Complete base ext seen ∧ Ends tail := by
  cases tail with
  | nil => exact ⟨validate_nil.mp h, Or.inl rfl⟩
  | cons c t =>
    obtain ⟨hbad, hdot⟩ := hstop c t rfl
    by_cases hs : c = slash
    · subst hs
      obtain ⟨hdone, hrest⟩ := validate_slash.mp h
      exact ⟨hdone, Or.inr ⟨t, rfl, hrest⟩⟩
    · rw [validateParts, if_neg hs, if_neg (show c ≠ 0x2E from hdot),
        if_pos (not_not.mp (mt (allowed_iff hs hdot).mpr hbad))] at h
      cases h

theorem validate_dot : validateParts (dot :: path) base ext seen = true ↔
      seen = false ∧ base ≠ 0 ∧ validateParts path base ext true = true := by
  rw [validateParts, if_neg (show dot ≠ slash by decide), if_pos (show dot = 0x2E from rfl),
    Bool.and_eq_true, Bool.and_eq_true, decide_eq_true_eq, Bool.not_eq_true', and_assoc]

theorem validate_char (hc : Allowed c) (path : List UInt8) (base ext : Nat) (seen : Bool) :
    validateParts (c :: path) base ext seen =
      if seen then decide (ext < 3) && validateParts path base (ext + 1) seen
      else decide (base < 8) && validateParts path (base + 1) ext seen := by
  have hdot := hc.2.2.1
  have hslash := hc.2.2.2.1
  rw [validateParts, if_neg hslash, if_neg (show c ≠ 0x2E from hdot),
    if_neg ((allowed_iff hslash hdot).mp hc)]

/-- A check that counts the characters of a word up to `cap`. -/
theorem counted_word (cap : Nat) (check : List UInt8 → Nat → Bool)
    (hstep : ∀ c path n, Allowed c → check (c :: path) n = (decide (n < cap) && check path (n + 1)))
    (tail : List UInt8) : ∀ (w : List UInt8) (n : Nat), (∀ c ∈ w, Allowed c) → n ≤ cap →
    (check (w ++ tail) n = true ↔ n + w.length ≤ cap ∧ check tail (n + w.length) = true) := by
  intro w
  induction w with
  | nil =>
    intro n _ hn
    exact ⟨fun h => ⟨hn, h⟩, fun h => h.2⟩
  | cons c w ih =>
    intro n hw hn
    obtain ⟨hc, hw⟩ := List.forall_mem_cons.mp hw
    have hadd : n + (c :: w).length = n + 1 + w.length := by
      rw [List.length_cons]
      omega
    rw [List.cons_append, hstep c _ n hc, Bool.and_eq_true, decide_eq_true_eq, hadd]
    constructor
    · rintro ⟨hlt, h⟩
      exact (ih _ hw hlt).mp h
    · rintro ⟨hle, h⟩
      exact ⟨by omega, (ih _ hw (by omega)).mpr ⟨hle, h⟩⟩

theorem validate_base (tail w : List UInt8) (hw : ∀ c ∈ w, Allowed c) :
    validateParts (w ++ tail) 0 0 false = true ↔
      w.length ≤ 8 ∧ validateParts tail w.length 0 false = true := by
  have h := counted_word 8 (fun path n => validateParts path n 0 false)
    (fun c path n hc => validate_char hc path n 0 false) tail w 0 hw (Nat.zero_le _)
  rwa [Nat.zero_add] at h

theorem validate_ext (tail w : List UInt8) (hw : ∀ c ∈ w, Allowed c) (base : Nat) :
    validateParts (w ++ tail) base 0 true = true ↔
      w.length ≤ 3 ∧ validateParts tail base w.length true = true := by
  have h := counted_word 3 (fun path n => validateParts path base n true)
    (fun c path n hc => validate_char hc path base n true) tail w 0 hw (Nat.zero_le _)
  rwa [Nat.zero_add] at h

instance (c : UInt8) : Decidable (Allowed c) := inferInstanceAs (Decidable (_ ∧ _))

/-- The longest run of characters that a name may have. -/
theorem exists_word (path : List UInt8) : ∃ w tail, path = w ++ tail ∧ (∀ c ∈ w, Allowed c) ∧
    ∀ c t, tail = c :: t → ¬ Allowed c := by
  refine ⟨path.takeWhile (fun c => decide (Allowed c)),
    path.dropWhile (fun c => decide (Allowed c)),
    List.takeWhile_append_dropWhile.symm, fun c hc => ?_, fun c t ht => ?_⟩
  · exact of_decide_eq_true (List.mem_takeWhile_imp (p := fun c => decide (Allowed c)) hc)
  · have hhead := List.head?_dropWhile_not (fun c => decide (Allowed c)) path
    rw [ht] at hhead
    exact of_decide_eq_false hhead

/-- One accepted name. -/
theorem validate_iff :
    validateParts path 0 0 false = true ↔ ∃ name tail, path = name ++ tail ∧ Name name ∧
      Ends tail := by
  constructor
  · intro h
    obtain ⟨b, t, rfl, hb, hstop⟩ := exists_word path
    obtain ⟨hlen, h⟩ := (validate_base t b hb).mp h
    by_cases hdot : ∃ t', t = dot :: t'
    · obtain ⟨t', rfl⟩ := hdot
      obtain ⟨-, hbase, h⟩ := validate_dot.mp h
      obtain ⟨e, u, rfl, he, hstop'⟩ := exists_word t'
      obtain ⟨hlen', h⟩ := (validate_ext u e he b.length).mp h
      have hnodot : ∀ c v, u = c :: v → ¬ Allowed c ∧ c ≠ dot := by
        rintro c v rfl
        refine ⟨hstop' c v rfl, ?_⟩
        rintro rfl
        exact Bool.noConfusion (validate_dot.mp h).1
      obtain ⟨hdone, hends⟩ := end_of_validate hnodot h
      refine ⟨b ++ dot :: e, u, by rw [List.append_assoc, List.cons_append],
        ⟨b, ⟨?_, hlen, hb⟩, Or.inr ⟨e, ⟨?_, hlen', he⟩, rfl⟩⟩, hends⟩
      · exact Nat.one_le_iff_ne_zero.mpr hdone.1
      · exact Nat.one_le_iff_ne_zero.mpr (hdone.2 rfl)
    · obtain ⟨hdone, hends⟩ := end_of_validate
        (fun c v hv => ⟨hstop c v hv, fun hc => hdot ⟨v, hc ▸ hv⟩⟩) h
      exact ⟨b, t, rfl, ⟨b, ⟨Nat.one_le_iff_ne_zero.mpr hdone.1, hlen, hb⟩, Or.inl rfl⟩, hends⟩
  · rintro ⟨name, tail, rfl, ⟨b, ⟨hb1, hb2, hb⟩, hname⟩, hends⟩
    have hbase : b.length ≠ 0 := Nat.one_le_iff_ne_zero.mp hb1
    rcases hname with rfl | ⟨e, ⟨he1, he2, he⟩, rfl⟩
    · exact (validate_base tail name hb).mpr
        ⟨hb2, validate_end ⟨hbase, fun h => (by cases h)⟩ hends⟩
    · rw [List.append_assoc, List.cons_append]
      refine (validate_base _ b hb).mpr ⟨hb2, validate_dot.mpr ⟨rfl, hbase, ?_⟩⟩
      exact (validate_ext tail e he b.length).mpr ⟨he2,
        validate_end ⟨hbase, fun _ => Nat.one_le_iff_ne_zero.mp he1⟩ hends⟩

theorem intercalate_cons {name : List UInt8} (h : names ≠ []) :
    [slash].intercalate (name :: names) = name ++ slash :: [slash].intercalate names := by
  cases names with
  | nil => exact absurd rfl h
  | cons n ns => rw [List.intercalate_cons_cons, List.append_assoc, List.singleton_append]

theorem validate_of_names (hne : names ≠ []) (hall : ∀ n ∈ names, Name n) :
    validateParts ([slash].intercalate names) 0 0 false = true := by
  induction names with
  | nil => exact absurd rfl hne
  | cons name names ih =>
    obtain ⟨hname, hall⟩ := List.forall_mem_cons.mp hall
    cases names with
    | nil =>
      rw [List.intercalate_singleton]
      exact validate_iff.mpr ⟨name, [], (List.append_nil _).symm, hname, Or.inl rfl⟩
    | cons n ns =>
      rw [intercalate_cons (List.cons_ne_nil n ns)]
      exact validate_iff.mpr ⟨name, _, rfl, hname,
        Or.inr ⟨_, rfl, ih (List.cons_ne_nil n ns) hall⟩⟩

/-- By induction on the length: what stands behind the first name and its slash is shorter. -/
theorem names_of_validate (h : validateParts path 0 0 false = true) :
    ∃ names : List (List UInt8), names ≠ [] ∧ (∀ n ∈ names, Name n) ∧
      path = [slash].intercalate names := by
  induction hk : path.length using Nat.strong_induction_on generalizing path with
  | _ k ih =>
    obtain ⟨name, tail, rfl, hname, hends⟩ := validate_iff.mp h
    rcases hends with rfl | ⟨rest, rfl, hrest⟩
    · refine ⟨[name], List.cons_ne_nil _ _, List.forall_mem_singleton.mpr hname, ?_⟩
      rw [List.append_nil, List.intercalate_singleton]
    · have hlt : rest.length < k := by
        rw [← hk, List.length_append, List.length_cons]
        omega
      obtain ⟨names, hne, hall, rfl⟩ := ih _ hlt hrest rfl
      exact ⟨name :: names, List.cons_ne_nil _ _, List.forall_mem_cons.mpr ⟨hname, hall⟩,
        (intercalate_cons hne).symm⟩

theorem validatePath_iff (s : List UInt8) :
    fileValidatePath s = true ↔ s.length ≤ 107 ∧ ∃ names, PathOf names s := by
  have hsplit : ∀ rest, (drivePrefix ++ rest).take 3 = drivePrefix ∧ (drivePrefix ++ rest).drop 3 =
    rest :=
    fun rest => ⟨rfl, rfl⟩
  rw [fileValidatePath, Bool.and_eq_true, Bool.and_eq_true, decide_eq_true_eq, beq_iff_eq,
    and_assoc]
  refine and_congr Nat.lt_succ_iff ⟨?_, ?_⟩
  · rintro ⟨hpre, h⟩
    obtain ⟨names, hne, hall, hpath⟩ := names_of_validate h
    refine ⟨names, hne, hall, ?_⟩
    rw [← hpath]
    exact (hpre ▸ List.take_append_drop 3 s).symm
  · rintro ⟨names, hne, hall, rfl⟩
    exact ⟨rfl, validate_of_names hne hall⟩

/-! ## The parser -/

/-- The names of a string: its components up to the first empty one. -/
def leading (path : List UInt8) : List (List UInt8) := (path.splitOn slash).takeWhile (· ≠ [])

theorem leading_nil : leading [] = [] := rfl

theorem leading_slash (path : List UInt8) : leading (slash :: path) = [] := by
  have h : (slash :: path).splitOn slash = [] :: path.splitOn slash :=
    List.splitOn_append_cons_self_of_not_mem List.not_mem_nil path
  rw [leading, h]
  rfl

theorem not_mem_part (path : List UInt8) : slash ∉ path.takeWhile (· ≠ slash) := fun h =>
  absurd rfl (of_decide_eq_true (List.mem_takeWhile_imp (p := fun c => decide (c ≠ slash)) h))

theorem rest_shorter (hc : c ≠ slash) (path : List UInt8) :
    (((c :: path).dropWhile (· ≠ slash)).drop 1).length ≤ path.length := by
  rw [List.dropWhile_cons_of_pos (by simpa using hc), List.length_drop]
  exact Nat.le_trans (Nat.sub_le _ _) (List.length_dropWhile_le _ _)

theorem part_ne_nil (hc : c ≠ slash) (path : List UInt8) :
    (c :: path).takeWhile (· ≠ slash) ≠ [] := by
  rw [List.takeWhile_cons_of_pos (by simpa using hc)]
  exact List.cons_ne_nil _ _

theorem leading_part (hne : path.takeWhile (· ≠ slash) ≠ []) :
    leading path = path.takeWhile (· ≠ slash) :: leading ((path.dropWhile (· ≠ slash)).drop 1) := by
  have hno := not_mem_part path
  have hpath := List.takeWhile_append_dropWhile (p := fun c => decide (c ≠ slash)) (l := path)
  have hhead := List.head?_dropWhile_not (fun c => decide (c ≠ slash)) path
  generalize path.takeWhile (· ≠ slash) = part at *
  generalize path.dropWhile (· ≠ slash) = tail at *
  subst hpath
  cases tail with
  | nil =>
    rw [List.append_nil, leading, List.splitOn_eq_singleton hno,
      List.takeWhile_cons_of_pos (by simpa using hne)]
    rfl
  | cons c rest =>
    obtain rfl : c = slash := not_not.mp (of_decide_eq_false hhead)
    rw [leading, List.splitOn_append_cons_self_of_not_mem hno,
      List.takeWhile_cons_of_pos (by simpa using hne)]
    rfl

theorem leading_intercalate (hne : names ≠ []) (hall : ∀ n ∈ names, Name n) :
    leading ([slash].intercalate names) = names := by
  have hname : ∀ n ∈ names, slash ∉ n ∧ n ≠ [] := by
    intro n hn
    obtain ⟨b, ⟨hb1, -, hb⟩, hname⟩ := hall n hn
    have hbne : b ≠ [] := List.length_pos_iff.mp hb1
    have hbs : slash ∉ b := fun h => (hb _ h).2.2.2.1 rfl
    rcases hname with rfl | ⟨e, ⟨-, -, he⟩, rfl⟩
    · exact ⟨hbs, hbne⟩
    · refine ⟨fun h => ?_, fun h => hbne (List.append_eq_nil_iff.mp h).1⟩
      rcases List.mem_append.mp h with h | h
      · exact hbs h
      · rcases List.mem_cons.mp h with h | h
        · exact absurd h (by decide)
        · exact (he _ h).2.2.2.1 rfl
  rw [leading, List.splitOn_intercalate slash (fun n hn => (hname n hn).1) hne,
    List.takeWhile_eq_self_iff.mpr fun n hn => decide_eq_true (hname n hn).2]

/-- By induction on the length, as the part and its slash are left out. -/
theorem mem_leading {n : List UInt8} (hn : n ∈ leading path) :
    slash ∉ n ∧ n.length ≤ path.length := by
  induction hk : path.length using Nat.strong_induction_on generalizing path with
  | _ k ih =>
    cases path with
    | nil => cases hn
    | cons c path =>
      by_cases hc : c = slash
      · subst hc
        rw [leading_slash] at hn
        cases hn
      · rw [leading_part (part_ne_nil hc path)] at hn
        rcases List.mem_cons.mp hn with rfl | hn
        · exact ⟨not_mem_part _, hk ▸ (List.takeWhile_prefix _).length_le⟩
        · have hlt := rest_shorter hc path
          rw [List.length_cons] at hk
          obtain ⟨hno, hle⟩ := ih _ (by omega) hn rfl
          exact ⟨hno, by omega⟩

/-- The parts of a string short enough for every part to fit. -/
theorem partsOf_eq : ∀ (fuel : Nat) (path : List UInt8) (parts : List (List UInt8)),
    path.length < fuel → path.length ≤ maxPath - 1 → partsOf fuel path parts =
      .ok (parts ++ leading path) := by
  intro fuel
  induction fuel with
  | zero => intro path parts h _; exact absurd h (Nat.not_lt_zero _)
  | succ fuel ih =>
    intro path parts hfuel hlen
    cases path with
    | nil =>
      rw [leading_nil, List.append_nil]
      rfl
    | cons c path =>
      by_cases hc : c = slash
      · subst hc
        rw [leading_slash, List.append_nil, partsOf, partOf, if_pos rfl]
        rfl
      · have hfits : ¬ maxPath - 1 < ((c :: path).takeWhile (· ≠ slash)).length :=
          Nat.not_lt.mpr (Nat.le_trans (List.takeWhile_prefix _).length_le hlen)
        have hshort := rest_shorter hc path
        rw [List.length_cons] at hfuel hlen
        rw [partsOf, partOf, if_neg hc, if_neg hfits, leading_part (part_ne_nil hc path)]
        change partsOf fuel _ _ = _
        rw [ih _ _ (by omega) (by omega), List.append_assoc, List.singleton_append]

/-- A string that the parser takes is a digit, `:/` and the rest. -/
theorem validFormat_iff (path : List UInt8) : pathparserPathValidFormat path = true ↔
    ∃ d rest, path = d :: 0x3A :: slash :: rest ∧ 48 ≤ d ∧ d ≤ 57 := by
  constructor
  · intro h
    match path, h with
    | d :: colon :: s :: rest, h =>
      simp only [pathparserPathValidFormat, Bool.and_eq_true, decide_eq_true_eq, beq_iff_eq] at h
      obtain ⟨⟨⟨h1, h2⟩, rfl⟩, rfl⟩ := h
      exact ⟨d, rest, rfl, h1, h2⟩
  · rintro ⟨d, rest, rfl, h1, h2⟩
    simp only [pathparserPathValidFormat, h1, h2, decide_true, beq_self_eq_true, Bool.and_self]

theorem parseOf_eq {d : UInt8} {rest : List UInt8} (hd : 48 ≤ d ∧ d ≤ 57)
    (hlen : (d :: 0x3A :: slash :: rest).length ≤ maxPath) :
    parseOf (d :: 0x3A :: slash :: rest) = .ok (d.toNat - 48, leading rest) := by
  have hformat := (validFormat_iff (d :: 0x3A :: slash :: rest)).mpr ⟨d, rest, rfl, hd⟩
  have hparts : partsOf (d :: 0x3A :: slash :: rest).length rest [] = .ok (leading rest) := by
    refine partsOf_eq _ rest [] ?_ ?_
    · simp only [List.length_cons]
      omega
    · simp only [List.length_cons] at hlen
      omega
  rw [parseOf, if_neg (Nat.not_lt.mpr hlen), if_neg (not_not.mpr hformat)]
  change ((partsOf _ rest []).mapError fun _ => Errno.einvarg) >>= _ = _
  rw [hparts]
  rfl

/-! ### On the heap alone -/

/-- The disk is not touched. -/
abbrev HeapOnly {α : Type} (m : FsProg α) : Prop := Prog.Keeps FsState.dev m

theorem heapOnly_kzalloc (e : Errno) (size : Nat) : HeapOnly (kzalloc e size) := by
  intro s
  rw [Prog.ends_iff, kzalloc]
  split
  · rfl
  · rfl

theorem freeParts_dev (parts : List PathPart) (s : FsState) : (freeParts parts s).dev = s.dev := by
  induction parts generalizing s with
  | nil => rfl
  | cons p parts ih => exact ih _

theorem heapOnly_parsePathPart (path : List UInt8) : HeapOnly (pathparserParsePathPart path) := by
  refine .bind ?_ fun found => ?_
  · cases path with
    | nil => exact .pure _
    | cons c path =>
      rw [pathparserGetPathPart]
      split
      · exact .pure _
      · exact .bind (heapOnly_kzalloc _ _) fun addr => .undo (.bind (.refuse _ _) fun _ => .pure _)
          fun _ => rfl
  · cases found with
    | none => exact .pure _
    | some p => exact .undo (.bind (heapOnly_kzalloc _ _) fun _ => .pure _) fun _ => rfl

theorem heapOnly_partsLoop (fuel : Nat) : ∀ (path : List UInt8) (parts : List PathPart),
    HeapOnly (parsePartsLoop fuel path parts) := by
  induction fuel with
  | zero => intro path parts; exact .pure _
  | succ fuel ih =>
    intro path parts
    refine .bind (.undo (heapOnly_parsePathPart path) (freeParts_dev parts)) fun next => ?_
    cases next with
    | none => exact .pure _
    | some p => exact ih _ _

theorem heapOnly_parse (path : List UInt8) : HeapOnly (pathparserParse path) := by
  refine .bind (.refuse _ _) fun _ => .bind (.refuse _ _) fun _ =>
    .bind (heapOnly_kzalloc _ _) fun addr => ?_
  exact .bind (.undo (heapOnly_partsLoop _ _ _).recode fun _ => rfl) fun _ => .pure _

/-- The parser gives the parsed path unless the heap refuses it memory. -/
theorem parse_cases (path : List UInt8) (st : FsState) :
    (pathparserParse path st).1.map (fun root => (root.driveNo, root.parts.map PathPart.part))
        = parseOf path ∨
      st.heap.refusals < (pathparserParse path st).2.heap.refusals ∧
        ∃ e, (pathparserParse path st).1 = .error e := by
  have h := (reading_parse path).ran (s := st)
  rcases h.outcome with ⟨-, hview⟩ | ⟨htrouble, e, he, -⟩
  · exact Or.inl hview
  · refine Or.inr ⟨?_, e, he⟩
    cases htrouble with
    | heap _ h => exact h
    | read lba n hlog _ =>
      rw [Prog.ends_iff.mp (heapOnly_parse path st)] at hlog
      exact absurd hlog.symm (List.cons_ne_self _ _)

/-! ### The buffers of the names -/

/-- The loop of `pathparser_get_path_part`: one character after the other into the
zeroed buffer, at index `i`. -/
def copyLoop : List UInt8 → Nat → (Nat → UInt8) → Except Errno ((Nat → UInt8) × List UInt8)
  | [], _, buf => .ok (buf, [])
  | c :: path, i, buf =>
      if c = slash then .ok (buf, path)
      else if i ≥ maxPath - 1 then .error .ebadpath
      else copyLoop path (i + 1) (Function.update buf i c)

/-- `pathparser_get_path_part` with the buffer as memory. -/
def pathparserCopyPart (path : List UInt8) : FsProg (Option (Nat × (Nat → UInt8) × List UInt8)) :=
  match path with
  | [] => pure none
  | c :: _ =>
      if c = slash then pure none
      else do
        let addr ← kzalloc .enomem maxPath
        Prog.undo (m :=
          match copyLoop path 0 fun _ => 0 with
          | .error e => Prog.raise e
          | .ok (buf, rest) => pure (some (addr, buf, rest)))
          (kfreeAt addr)

/-- The buffer has the name from its start and zeros from there on, the first of them
inside its 108 bytes. -/
structure Spelled (buf : Nat → UInt8) (name : List UInt8) : Prop where
  fits : name.length < maxPath
  chars : ∀ i c, name[i]? = some c → buf i = c
  ended : ∀ i, name.length ≤ i → buf i = 0

theorem Spelled.push {buf : Nat → UInt8} {name : List UInt8} (h : Spelled buf name) (c : UInt8)
    (hfits : name.length + 1 < maxPath) : Spelled (Function.update buf name.length c)
      (name ++ [c]) := by
  constructor
  · rw [List.length_append, List.length_singleton]
    exact hfits
  · intro i x hx
    rcases Nat.lt_or_ge i name.length with hi | hi
    · rw [List.getElem?_append_left hi] at hx
      rw [Function.update_of_ne (Nat.ne_of_lt hi)]
      exact h.chars i x hx
    · have hlt := (List.getElem?_eq_some_iff.mp hx).1
      rw [List.length_append, List.length_singleton] at hlt
      obtain rfl : i = name.length := by omega
      rw [List.getElem?_concat_length] at hx
      rw [Function.update_self]
      exact Option.some.inj hx
  · intro i hi
    rw [List.length_append, List.length_singleton] at hi
    rw [Function.update_of_ne (by omega)]
    exact h.ended i (by omega)

/-- By induction on the string, with the characters copied so far. -/
theorem copyLoop_eq (path : List UInt8) : ∀ (pre : List UInt8) (buf : Nat → UInt8),
    Spelled buf pre → if maxPath ≤ pre.length + (path.takeWhile (· ≠ slash)).length then
      copyLoop path pre.length buf = .error .ebadpath
    else ∃ buf', copyLoop path pre.length buf = .ok (buf', (path.dropWhile (· ≠ slash)).drop 1) ∧
      Spelled buf' (pre ++ path.takeWhile (· ≠ slash)) := by
  induction path with
  | nil =>
    intro pre buf h
    rw [List.takeWhile_nil, List.length_nil, Nat.add_zero, if_neg (Nat.not_le.mpr h.fits)]
    exact ⟨buf, rfl, by rwa [List.append_nil]⟩
  | cons c path ih =>
    intro pre buf h
    by_cases hc : c = slash
    · subst hc
      rw [List.takeWhile_cons_of_neg (by simp), List.dropWhile_cons_of_neg (by simp),
        List.length_nil, Nat.add_zero, if_neg (Nat.not_le.mpr h.fits)]
      exact ⟨buf, by rw [copyLoop, if_pos rfl]; rfl, by rwa [List.append_nil]⟩
    · rw [List.takeWhile_cons_of_pos (by simpa using hc),
        List.dropWhile_cons_of_pos (by simpa using hc), copyLoop, if_neg hc, List.length_cons]
      have hfits := h.fits
      by_cases hroom : pre.length ≥ maxPath - 1
      · rw [if_pos hroom, if_pos (by omega)]
      · have hnext := ih (pre ++ [c]) _ (h.push c (by omega))
        rw [List.length_append, List.length_singleton, List.append_assoc, List.singleton_append,
          Nat.add_right_comm, Nat.add_assoc] at hnext
        rw [if_neg hroom]
        exact hnext

theorem spelled_zero : Spelled (fun _ => 0) [] :=
  ⟨by decide, fun _ _ h => (by cases h), fun _ _ => rfl⟩

/-- A part that fits, up to its end. -/
theorem copy_part {part : List UInt8} (hno : slash ∉ part) (hfits : part.length < maxPath)
    (htail : tail = [] ∨ ∃ more, tail = slash :: more) :
    ∃ buf, copyLoop (part ++ tail) 0 (fun _ => 0) = .ok (buf, tail.drop 1) ∧ Spelled buf part := by
  have hcopy := copyLoop_eq (part ++ tail) [] _ spelled_zero
  have hpos : ∀ c ∈ part, decide (c ≠ slash) = true := fun c hc => decide_eq_true fun h =>
    hno (h ▸ hc)
  have hend : tail.takeWhile (· ≠ slash) = [] ∧ tail.dropWhile (· ≠ slash) = tail := by
    rcases htail with rfl | ⟨more, rfl⟩
    · exact ⟨rfl, rfl⟩
    · exact ⟨List.takeWhile_cons_of_neg (by simp), List.dropWhile_cons_of_neg (by simp)⟩
  rw [List.takeWhile_append_of_pos hpos, List.dropWhile_append_of_pos hpos, hend.1, hend.2,
    List.append_nil,
    List.length_nil, Nat.zero_add, if_neg (Nat.not_le.mpr hfits), List.nil_append] at hcopy
  exact hcopy

/-- A part as the list model has it, and as it stands in memory. -/
inductive SamePart : Except Errno (Option (Nat × List UInt8 × List UInt8)) →
    Except Errno (Option (Nat × (Nat → UInt8) × List UInt8)) → Prop where
  | error (e : Errno) : SamePart (.error e) (.error e)
  | none : SamePart (.ok none) (.ok none)
  | some (addr : Nat) {part : List UInt8} {buf : Nat → UInt8} (rest : List UInt8)
    (h : Spelled buf part) :
      SamePart (.ok (some (addr, part, rest))) (.ok (some (addr, buf, rest)))

/-- Reading a part off as a list is what the copying loop does. -/
theorem getPathPart_copy (path : List UInt8) (st : FsState) :
    SamePart (pathparserGetPathPart path st).1 (pathparserCopyPart path st).1 ∧
      (pathparserGetPathPart path st).2 = (pathparserCopyPart path st).2 := by
  cases path with
  | nil => exact ⟨.none, rfl⟩
  | cons c path =>
    rw [pathparserGetPathPart, pathparserCopyPart]
    by_cases hc : c = slash
    · rw [if_pos hc, if_pos hc]
      exact ⟨.none, rfl⟩
    · rw [if_neg hc, if_neg hc]
      have hcopy := copyLoop_eq (c :: path) [] _ spelled_zero
      have hmax : 0 < maxPath := by decide
      rw [List.length_nil, Nat.zero_add, List.nil_append] at hcopy
      rcases ha : kzalloc .enomem maxPath st with ⟨addr | addr, st'⟩
      · rw [Prog.bind_error ha, Prog.bind_error ha]
        exact ⟨.error _, rfl⟩
      · rw [Prog.bind_ok ha, Prog.bind_ok ha]
        by_cases hlong : maxPath ≤ ((c :: path).takeWhile (· ≠ slash)).length
        · rw [if_pos hlong] at hcopy
          rw [hcopy, Prog.refuse, if_pos (show maxPath - 1 < _ by omega)]
          exact ⟨.error _, rfl⟩
        · rw [if_neg hlong] at hcopy
          obtain ⟨buf, hbuf, hspelled⟩ := hcopy
          rw [hbuf, Prog.refuse, if_neg (show ¬ maxPath - 1 < _ by omega)]
          exact ⟨.some addr _ hspelled, rfl⟩

/-! ## The language -/

theorem parseOf_path {s : List UInt8} (hlen : s.length ≤ 107) (h : PathOf names s) :
    parseOf s = .ok (0, names) := by
  obtain ⟨hne, hall, rfl⟩ := h
  rw [show parseOf (drivePrefix ++ [slash].intercalate names) =
    .ok ((0x30 : UInt8).toNat - 48, leading ([slash].intercalate names)) from
    parseOf_eq (by decide) (Nat.le_succ_of_le hlen), leading_intercalate hne hall]
  rfl

/-- The parser gives drive 0 and the names of a path, if the heap holds them. -/
theorem parse_path {s : List UInt8} {st : FsState} (hlen : s.length ≤ 107) (h : PathOf names s)
    (hheap : (pathparserParse s st).2.heap.refusals = st.heap.refusals) :
    ∃ root, (pathparserParse s st).1 = .ok root ∧ root.driveNo = 0 ∧ root.parts.map PathPart.part =
      names := by
  rcases parse_cases s st with hview | ⟨hlt, -⟩
  · rw [parseOf_path hlen h] at hview
    cases hroot : (pathparserParse s st).1 with
    | error e => rw [hroot] at hview; cases hview
    | ok root =>
      rw [hroot] at hview
      have hpair := Prod.mk.inj (Except.ok.inj hview)
      exact ⟨root, rfl, hpair.1, hpair.2⟩
  · omega

/-- The check accepts the paths of up to 107 bytes and no other string; the parser gives
drive 0 and the names of such a path; and of any string of up to 108 bytes that it
accepts it gives the digit and the leading non-empty components, each in its buffer.

`pathparserParse` takes a component off as a list; by `getPathPart_copy` the loop of the source,
which copies it byte by byte into a buffer of zeros, ends alike on every path and every heap. -/
theorem path_language (s : List UInt8) :
    (fileValidatePath s = true ↔ s.length ≤ 107 ∧ ∃ names, PathOf names s) ∧
    (∀ names st, s.length ≤ 107 → PathOf names s →
      (pathparserParse s st).2.heap.refusals = st.heap.refusals →
      ∃ root, (pathparserParse s st).1 = .ok root ∧ root.driveNo = 0 ∧
        root.parts.map PathPart.part = names) ∧
    ∀ st root, s.length ≤ 108 → (pathparserParse s st).1 = .ok root →
      ∃ d rest, s = d :: 0x3A :: slash :: rest ∧ 48 ≤ d ∧ d ≤ 57 ∧ root.driveNo = d.toNat - 48 ∧
        root.parts.map PathPart.part = leading rest ∧
        ∀ part ∈ root.parts, ∀ tail, (tail = [] ∨ ∃ more, tail = slash :: more) →
          ∃ buf, copyLoop (part.part ++ tail) 0 (fun _ => 0) = .ok (buf, tail.drop 1) ∧
            Spelled buf part.part := by
  refine ⟨validatePath_iff s, ?_, ?_⟩
  · intro names st hlen hpath hheap
    exact parse_path hlen hpath hheap
  · intro st root hlen hroot
    rcases parse_cases s st with hview | ⟨-, e, he⟩
    · rw [hroot] at hview
      have hformat : pathparserPathValidFormat s = true := by
        by_contra hbad
        rw [parseOf, if_neg (show ¬ maxPath < s.length from Nat.not_lt.mpr hlen),
          if_pos hbad] at hview
        cases hview
      obtain ⟨d, rest, rfl, hd⟩ := (validFormat_iff s).mp hformat
      rw [parseOf_eq hd hlen] at hview
      obtain ⟨hdrive, hparts⟩ := Prod.mk.inj (Except.ok.inj hview)
      refine ⟨d, rest, rfl, hd.1, hd.2, hdrive, hparts, fun part hpart tail htail => ?_⟩
      obtain ⟨hno, hle⟩ := mem_leading (hparts ▸ List.mem_map_of_mem hpart)
      simp only [List.length_cons] at hlen
      exact copy_part hno (show part.part.length < 108 by omega) htail
    · rw [hroot] at he
      cases he

/-- `0:/a/b.c`. -/
theorem path_language_dir :
    ∃ names, PathOf names [0x30, 0x3A, 0x2F, 0x61, 0x2F, 0x62, 0x2E, 0x63] :=
  ((path_language [0x30, 0x3A, 0x2F, 0x61, 0x2F, 0x62, 0x2E, 0x63]).1.mp (by decide)).2

end Rorthox.Fs
