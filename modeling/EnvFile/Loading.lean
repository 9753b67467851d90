import EnvFile.Evaluator
import EnvFile.OrderedMap
import EnvFile.Utf8

/-!
# Loading files

A tree holds files and directories around a working directory.  Every step of a path starts from a
directory, and two dots lead from a directory to the one that holds it.  The working directory,
those above it and the root directory are always there; of what else lies outside the working
directory only what was put there is known.

A request names a file and how to evaluate it; each load uses an evaluator of its own.
-/

namespace EnvFile

/-- What a path can lead to. -/
inductive FileNode
  /-- A file with its bytes. -/
  | file (content : List UInt8)
  /-- A directory. -/
  | directory
  deriving DecidableEq, Repr

/-- A directory from which names lead down. -/
inductive Base
  /-- The directory so many levels above the working directory. -/
  | working (above : Nat)
  /-- The root directory. -/
  | root
  deriving DecidableEq, Repr

/-- Where a walk along a path stands. -/
structure Place where
  /-- The last directory that no name has led to. -/
  base : Base := .working 0
  /-- The names on the way down from there. -/
  names : List Text := []
  deriving DecidableEq, Repr

namespace Place

/-- Where a path starts. -/
def origin : Text → Place
  | '/' :: _ => { base := .root }
  | _ => {}

/-- The directory that holds a place; the root directory holds itself. -/
def parent (place : Place) : Place :=
  match place.base, place.names with
  | .working above, [] => { base := .working (above + 1) }
  | base, names => { base, names := names.dropLast }

/-- Where a piece of a path leads. -/
def step (place : Place) (name : Text) : Place :=
  if name = [] ∨ name = ['.'] then place
  else if name = ['.', '.'] then place.parent
  else { place with names := place.names ++ [name] }

end Place

/-- The files and directories that were put somewhere. -/
structure FileTree where
  /-- What stands where; the bases are directories without being listed. -/
  nodes : OrderedMap Place FileNode := .empty

namespace FileTree

/-- The pieces of a path between its slashes. -/
def pathNames : Text → List Text
  | [] => [[]]
  | head :: tail =>
      if head = '/' then [] :: pathNames tail
      else
        match pathNames tail with
        | [] => [[head]]
        | name :: names => (head :: name) :: names

/-- What stands at a place. -/
def node? (tree : FileTree) (place : Place) : Option FileNode :=
  match place.names with
  | [] => some .directory
  | _ => tree.nodes.find? place

/-- Put a node at a place.  A file takes the place of what was there, a directory leaves it. -/
def put (tree : FileTree) (place : Place) : FileNode → FileTree
  | .file content => { nodes := tree.nodes.insert place (.file content) }
  | .directory =>
      match tree.node? place with
      | none => { nodes := tree.nodes.insert place .directory }
      | some _ => tree

/-- Put a node where pieces of a path lead, with the directories that are missing on the way. -/
def putAlong (tree : FileTree) (node : FileNode) : Place → List Text → FileTree
  | place, [] => tree.put place node
  | place, [name] => tree.put (place.step name) node
  | place, name :: names =>
      (tree.put (place.step name) .directory).putAlong node (place.step name) names

/-- Put a node at the end of a path. -/
def add (tree : FileTree) (path : Text) (node : FileNode) : FileTree :=
  tree.putAlong node (.origin path) (pathNames path)

/-- Walk along the pieces of a path. -/
def walk (tree : FileTree) : Place → List Text → Except ReadFault Place
  | place, [] => .ok place
  | place, name :: names =>
      match tree.node? place with
      | none => .error .notFound
      | some (.file _) => .error .notDirectory
      | some .directory => tree.walk (place.step name) names

/-- The text of the file that a path leads to. -/
def readText (tree : FileTree) (path : Text) : Except ReadFault Text :=
  if path = [] then .error .notFound
  else
    match tree.walk (.origin path) (pathNames path) with
    | .error fault => .error fault
    | .ok place =>
        match tree.node? place with
        | none => .error .notFound
        | some .directory => .error .isDirectory
        | some (.file content) =>
            match Utf8.decode? content with
            | some text => .ok text
            | none => .error .notText

theorem node?_of_names_nil (tree : FileTree) {place : Place} (base : place.names = []) :
    tree.node? place = some .directory := by
  rw [node?, base]

theorem node?_of_names_ne_nil (tree : FileTree) {place : Place} (below : place.names ≠ []) :
    tree.node? place = tree.nodes.find? place := by
  rw [node?]
  split
  · contradiction
  · rfl

theorem node?_put_file (tree : FileTree) (place other : Place) (content : List UInt8)
    (below : other.names ≠ []) :
    (tree.put place (.file content)).node? other =
      if other = place then some (.file content) else tree.node? other := by
  rw [node?_of_names_ne_nil _ below, node?_of_names_ne_nil _ below]
  exact OrderedMap.find?_insert tree.nodes place other _

theorem node?_put_directory (tree : FileTree) (place other : Place) :
    (tree.put place .directory).node? other =
      if other = place then some ((tree.node? place).getD .directory) else tree.node? other := by
  cases found : tree.node? place with
  | some node =>
      simp only [put, found, Option.getD_some]
      split
      · simp_all
      · rfl
  | none =>
      simp only [put, found, Option.getD_none]
      by_cases base : other.names = []
      · rw [node?_of_names_nil _ base, node?_of_names_nil _ base, ite_self]
      · rw [node?_of_names_ne_nil _ base, node?_of_names_ne_nil _ base]
        exact OrderedMap.find?_insert tree.nodes place other _

end FileTree

/-- A wish to evaluate a file. -/
structure LoadRequest where
  /-- The path of the file. -/
  path : Text := ['.', 'e', 'n', 'v']
  /-- How to evaluate it. -/
  options : Options := {}
  deriving DecidableEq, Repr

namespace LoadRequest

/-- Read the file from a tree and evaluate it into an environment. -/
def load {ε : Type} [Environment ε] (request : LoadRequest) (tree : FileTree) (environment : ε) :
    Evaluation ε :=
  match tree.readText request.path with
  | .ok source => Evaluator.evaluate {} source request.options environment
  | .error fault =>
      { evaluator := {}
        environment
        outcome := .error (.unreadable request.path fault)
        events := [] }

end LoadRequest
end EnvFile
