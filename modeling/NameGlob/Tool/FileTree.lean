import NameGlob.Tool.Files

/-!
# File trees

A file tree is a working directory whose whole contents are known. Paths are resolved in it one component
after the other; outside the working directory only the directories above it are known.
-/

namespace NameGlob.Tool

/-- The files and directories below a working directory. Each is given by the components of its path; a
directory has no contents. The directories above an entry exist as well. -/
structure FileTree where
  entries : List (List Bytes × Option Bytes)
  deriving Repr, DecidableEq

namespace FileTree

/-- The components of a path, which stand between its slashes. -/
def components (path : Bytes) : List Bytes :=
  path.foldr (fun b parts =>
    if b = 0x2F then [] :: parts
    else
      match parts with
      | part :: rest => (b :: part) :: rest
      | [] => [[b]]) [[]]

def maxComponent : Nat := 255

def maxPath : Nat := 4095

/-- The tree with an entry at a path below the working directory. -/
def insert (tree : FileTree) (path : Bytes) (contents : Option Bytes) : FileTree :=
  let place := (components path).filter fun part => part != [] && part != [0x2E]
  ⟨tree.entries ++ [(place, contents)]⟩

/-- What stands at the given components below the working directory. -/
def atComponents (tree : FileTree) (place : List Bytes) : Opened :=
  match tree.entries.find? (·.1 == place) with
  | some (_, some contents) => .file contents
  | some (_, none) => .directory
  | none =>
    if place.isEmpty || tree.entries.any (place.isPrefixOf ·.1) then .directory
    else .refused .missing

/-- Where a path leads: to a place below the working directory, whose components are given from the last
to the first, or to a directory above it. -/
inductive Place where
  /-- A place below the working directory. -/
  | below (reversed : List Bytes)
  /-- A directory above the working directory. -/
  | above
  deriving Repr, DecidableEq

def atPlace (tree : FileTree) : Place → Opened
  | .below reversed => tree.atComponents reversed.reverse
  | .above => .directory

/-- Goes from a directory to one of its entries. -/
def Place.enter (component : Bytes) : Place → Option Place
  | .below reversed =>
    if component.isEmpty || component == [0x2E] then some (.below reversed)
    else if component == [0x2E, 0x2E] then
      match reversed with
      | [] => some .above
      | _ :: rest => some (.below rest)
    else some (.below (component :: reversed))
  | .above =>
    if component.isEmpty || component == [0x2E] || component == [0x2E, 0x2E] then some .above
    else none

/-- Follows components from a place. Each place but the last must be a directory. -/
def follow (tree : FileTree) (place : Place) : List Bytes → Opened
  | [] => tree.atPlace place
  | component :: rest =>
    match tree.atPlace place with
    | .file _ => .refused .notDirectory
    | .refused e => .refused e
    | .directory =>
      if maxComponent < component.length then .refused .tooLong
      else
        match place.enter component with
        | some next => tree.follow next rest
        | none => .refused .missing

def opened (tree : FileTree) (path : Bytes) : Opened :=
  if path.isEmpty then .refused .missing
  else if maxPath < path.length then .refused .tooLong
  else tree.follow (if path.head? = some 0x2F then .above else .below []) (components path)

end FileTree

end NameGlob.Tool
