import Rorthox.Fat.Driver

/-!
# Paths

`kernel/fs/pparser.c` and `file_validate_path` of `kernel/fs/file.c`. A C string is
the list of its bytes before the zero. A parsed path lives on the heap; only the
names in it matter to the driver.
-/

namespace Rorthox.Fs

open Lib Fat

def slash : UInt8 := 0x2F

/-- `struct path_part` with the buffer of its name. -/
structure PathPart where
  addr : Nat
  partAddr : Nat
  part : List UInt8

structure PathRoot where
  addr : Nat
  driveNo : Nat
  parts : List PathPart

def pathparserPathValidFormat (filename : List UInt8) : Bool :=
  match filename with
  | d :: colon :: s :: _ => 48 ≤ d && d ≤ 57 && colon == 0x3A && s == slash
  | _ => false

/-- One name and what follows it; `none` at the end or at a second slash. -/
def pathparserGetPathPart (path : List UInt8) : FsProg (Option (Nat × List UInt8 × List UInt8)) :=
  match path with
  | [] => pure none
  | c :: _ =>
      if c = slash then pure none
      else do
        let addr ← kzalloc .enomem maxPath
        let part := path.takeWhile (· ≠ slash)
        Prog.undo (m := do
          Prog.refuse (maxPath - 1 < part.length) .ebadpath
          pure (some (addr, part, (path.dropWhile (· ≠ slash)).drop 1)))
          (kfreeAt addr)

def pathparserParsePathPart (path : List UInt8) : FsProg (Option (PathPart × List UInt8)) := do
  let found ← pathparserGetPathPart path
  match found with
  | none => pure none
  | some (partAddr, part, rest) =>
      Prog.undo (m := do
        let addr ← kzalloc .enomem 8
        pure (some ({ addr, partAddr, part }, rest)))
        (kfreeAt partAddr)

def freeParts (parts : List PathPart) (s : FsState) : FsState :=
  parts.foldl (fun s p => kfreeAt p.addr (kfreeAt p.partAddr s)) s

def pathparserFree (root : PathRoot) (s : FsState) : FsState :=
  kfreeAt root.addr (freeParts root.parts s)

/-- Parse the parts that are left; on an error the ones at hand go too. -/
def parsePartsLoop : Nat → List UInt8 → List PathPart → FsProg (List PathPart)
  | 0, _, parts => pure parts
  | fuel + 1, path, parts => do
      let next ← Prog.undo (pathparserParsePathPart path) (freeParts parts)
      match next with
      | none => pure parts
      | some (part, rest) => parsePartsLoop fuel rest (parts ++ [part])

/-- The source returns null on every error; its caller makes that -EINVARG. -/
def pathparserParse (path : List UInt8) : FsProg PathRoot := do
  Prog.refuse (maxPath < path.length) .einvarg
  Prog.refuse (¬ pathparserPathValidFormat path) .einvarg
  let addr ← kzalloc .einvarg 8
  let parts ← Prog.undo ((parsePartsLoop path.length (path.drop 3) []).recode fun _ => .einvarg)
    (kfreeAt addr)
  pure { addr, driveNo := (path.headD 0).toNat - 48, parts }

/-! ## The strict check -/

def forbidden : List UInt8 :=
  [0x22, 0x2A, 0x2B, 0x2C, 0x3A, 0x3B, 0x3C, 0x3D, 0x3E, 0x3F, 0x5B, 0x5C, 0x5D, 0x7C]

/-- The loops of `file_validate_path`: characters seen of the base and the extension
of the current component, and whether its dot was seen. -/
def validateParts : List UInt8 → Nat → Nat → Bool → Bool
  | [], base, ext, dot => base ≠ 0 && !(dot && ext == 0)
  | c :: path, base, ext, dot =>
      if c = slash then
        base ≠ 0 && !(dot && ext == 0) && path ≠ [] && validateParts path 0 0 false
      else if c = 0x2E then !dot && base ≠ 0 && validateParts path base ext true
      else if c ≤ 0x20 ∨ 0x7F ≤ c ∨ c ∈ forbidden then false
      else if dot then ext < 3 && validateParts path base (ext + 1) dot
      else base < 8 && validateParts path (base + 1) ext dot

def fileValidatePath (filename : List UInt8) : Bool :=
  filename.length < maxPath && filename.take 3 == [0x30, 0x3A, slash] &&
    validateParts (filename.drop 3) 0 0 false

end Rorthox.Fs
