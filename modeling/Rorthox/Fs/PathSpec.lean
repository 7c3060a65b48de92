import Rorthox.Fs.Path
import Rorthox.Fat.Reading

/-!
# What the path parser gives

The parsed path as a function of the string, and that the parser gives it and gives
every buffer back when it fails.
-/

namespace Rorthox.Fs

open Lib Fat Disk Memory

/-- The first name of a path and what follows it. -/
def partOf (path : List UInt8) : Except Errno (Option (List UInt8 × List UInt8)) :=
  match path with
  | [] => .ok none
  | c :: _ =>
      if c = slash then .ok none
      else if maxPath - 1 < (path.takeWhile (· ≠ slash)).length then .error .ebadpath
      else .ok (some (path.takeWhile (· ≠ slash), (path.dropWhile (· ≠ slash)).drop 1))

def partsOf : Nat → List UInt8 → List (List UInt8) → Except Errno (List (List UInt8))
  | 0, _, parts => .ok parts
  | fuel + 1, path, parts => do
      let next ← partOf path
      match next with
      | none => .ok parts
      | some (part, rest) => partsOf fuel rest (parts ++ [part])

def parseOf (path : List UInt8) : Except Errno (Nat × List (List UInt8)) :=
  if maxPath < path.length then .error .einvarg
  else if ¬ pathparserPathValidFormat path then .error .einvarg
  else do
    let parts ← (partsOf path.length (path.drop 3) []).mapError fun _ => .einvarg
    .ok ((path.headD 0).toNat - 48, parts)

def PathPart.owned (p : PathPart) : Multiset Nat := {p.addr} + {p.partAddr}

def partsOwned (parts : List PathPart) : Multiset Nat := (parts.map PathPart.owned).sum

def PathRoot.owned (root : PathRoot) : Multiset Nat := {root.addr} + partsOwned root.parts

theorem frees_parts (parts : List PathPart) : Frees (partsOwned parts) (freeParts parts) := by
  induction parts with
  | nil => exact frees_nothing
  | cons p parts ih =>
    have h := ih.comp ((frees_kfreeAt p.addr).comp (frees_kfreeAt p.partAddr))
    rw [add_comm] at h
    exact h

theorem frees_root (root : PathRoot) : Frees root.owned (pathparserFree root) :=
  (frees_kfreeAt root.addr).comp (frees_parts root.parts)

variable {v : FatPrivate} {img : Bytes} {held : Multiset Nat}

def Shape.part (h : Multiset Nat) :
    Shape (Option (Nat × List UInt8 × List UInt8)) (Option (List UInt8 × List UInt8)) :=
  ⟨fun o => o.elim h fun p => {p.1} + h, fun _ => True, fun o => o.map Prod.snd⟩

def Shape.pathPart (h : Multiset Nat) :
    Shape (Option (PathPart × List UInt8)) (Option (List UInt8 × List UInt8)) :=
  ⟨fun o => o.elim h fun p => p.1.owned + h, fun _ => True, fun o => o.map fun p => (p.1.part, p.2)⟩

theorem reading_getPathPart (path : List UInt8) :
    Reading v img held held (Shape.part held) (partOf path) (pathparserGetPathPart path) := by
  unfold pathparserGetPathPart partOf
  cases path with
  | nil => exact reading_pure rfl rfl trivial
  | cons c path =>
    dsimp only
    by_cases hc : c = slash
    · rw [if_pos hc, if_pos hc]
      exact reading_pure rfl rfl trivial
    · rw [if_neg hc, if_neg hc]
      refine (reading_kzalloc (by decide) maxPath).andThen fun addr _ _ => ?_
      refine Reading.undo (frees_kfreeAt addr) (Reading.guard fun _ => ?_)
      exact reading_pure rfl rfl trivial

theorem reading_parsePathPart (path : List UInt8) :
    Reading v img held held (Shape.pathPart held) (partOf path) (pathparserParsePathPart path) := by
  refine ((reading_getPathPart path).bind (g := fun o => .ok o) fun o _ _ => ?_).congr ?_
  · cases o with
    | none => exact reading_pure rfl rfl trivial
    | some p =>
      obtain ⟨partAddr, part, rest⟩ := p
      refine Reading.undo (frees_kfreeAt partAddr) ?_
      refine (reading_kzalloc (by decide) 8).andThen fun addr _ _ => ?_
      refine reading_pure rfl ?_ trivial
      show {addr} + {partAddr} + held = {addr} + ({partAddr} + held)
      rw [add_assoc]
  · cases partOf path <;> rfl

def Shape.parts (h : Multiset Nat) : Shape (List PathPart) (List (List UInt8)) :=
  ⟨fun l => partsOwned l + h, fun _ => True, fun l => l.map PathPart.part⟩

theorem reading_partsLoop (fuel : Nat) : ∀ (path : List UInt8) (parts : List PathPart),
    Reading v img (partsOwned parts + held) held (Shape.parts held)
      (partsOf fuel path (parts.map PathPart.part)) (parsePartsLoop fuel path parts) := by
  induction fuel with
  | zero => intro path parts; exact reading_pure rfl rfl trivial
  | succ fuel ih =>
    intro path parts
    refine (Reading.undo (frees_parts parts) (reading_parsePathPart path)).bind fun o _ _ => ?_
    cases o with
    | none => exact reading_pure rfl rfl trivial
    | some p =>
      obtain ⟨part, rest⟩ := p
      have h := ih rest (parts ++ [part])
      have hown : partsOwned (parts ++ [part]) + held = part.owned + (partsOwned parts + held) := by
        unfold partsOwned
        rw [List.map_append, List.sum_append, List.map_singleton, List.sum_singleton,
          add_comm _ part.owned, add_assoc]
      rw [hown, List.map_append] at h
      exact h

def Shape.root (h : Multiset Nat) : Shape PathRoot (Nat × List (List UInt8)) :=
  ⟨fun r => r.owned + h, fun _ => True, fun r => (r.driveNo, r.parts.map PathPart.part)⟩

theorem reading_parse (path : List UInt8) :
    Reading v img held held (Shape.root held) (parseOf path) (pathparserParse path) := by
  refine Reading.guard fun _ => Reading.guard fun _ => ?_
  refine (reading_kzalloc (by decide) 8).andThen fun addr _ _ => ?_
  have hloop : Reading v img ({addr} + held) ({addr} + held) (Shape.parts ({addr} + held))
      ((partsOf path.length (path.drop 3) []).mapError fun _ => .einvarg)
      ((parsePartsLoop path.length (path.drop 3) []).recode fun _ => Errno.einvarg) := by
    refine Reading.recode ?_ fun _ _ => (by decide)
    have h : Reading v img (partsOwned [] + ({addr} + held)) ({addr} + held)
      (Shape.parts ({addr} + held)) (partsOf path.length (path.drop 3) ([].map PathPart.part))
      (parsePartsLoop path.length (path.drop 3) []) := reading_partsLoop path.length
        (path.drop 3) []
    rwa [show partsOwned [] + ({addr} + held) = {addr} + held from zero_add _] at h
  refine (Reading.undo (frees_kfreeAt addr) hloop).bind fun parts _ _ => ?_
  refine reading_pure rfl ?_ trivial
  show {addr} + partsOwned parts + held = partsOwned parts + ({addr} + held)
  rw [add_assoc, add_left_comm]

end Rorthox.Fs
