import Codebase.Project
/-!
# Ownership

Documents do not know their projects.  The index of this module links both: it lists the owners of a
path and the members of a project, and every operation writes both sides.  An operation that can
take the last owner from a path says which paths that happened to.
-/

namespace Codebase

structure Ownership where
  /-- The owners of each owned path, in increasing order. -/
  owners : Table Path (List ProjectId)
  members : Table ProjectId (Roster Path)

namespace Ownership

def empty : Ownership := ⟨Table.empty, Table.empty⟩

def ownersOf (index : Ownership) (path : Path) : List ProjectId :=
  (index.owners.get? path).getD []

def isOwned (index : Ownership) (path : Path) : Bool := index.owners.contains path

def membersOf (index : Ownership) (id : ProjectId) : List Path :=
  ((index.members.get? id).getD Roster.empty).toList

/-- Puts an owner in its place among the others. -/
def insertOwner (id : ProjectId) : List ProjectId → List ProjectId
  | [] => [id]
  | other :: rest =>
    if id = other then other :: rest
    else if id.number < other.number then id :: other :: rest
    else other :: insertOwner id rest

def link (owners : Table Path (List ProjectId)) (id : ProjectId) (path : Path) :
    Table Path (List ProjectId) :=
  owners.insert path (insertOwner id ((owners.get? path).getD []))

/-- Takes an owner from a path; a path without owners leaves the table. -/
def unlink (owners : Table Path (List ProjectId)) (id : ProjectId) (path : Path) :
    Table Path (List ProjectId) :=
  match owners.get? path with
  | none => owners
  | some ids =>
    match ids.filter (· ≠ id) with
    | [] => owners.erase path
    | left => owners.insert path left

def add (index : Ownership) (id : ProjectId) (path : Path) : Ownership where
  owners := link index.owners id path
  members := index.members.insert id (((index.members.get? id).getD Roster.empty).insert path)

/-- Removes one link.  The answer says whether the path has no owner now. -/
def remove (index : Ownership) (id : ProjectId) (path : Path) : Bool × Ownership :=
  let owners := unlink index.owners id path
  (!owners.contains path, ⟨owners, index.members.modify id fun paths => paths.erase path⟩)

/-- Gives a project other members, and lists the paths that lost their last owner by it. -/
def replaceMembers (index : Ownership) (id : ProjectId) (paths : List Path) :
    List Path × Ownership :=
  let next := Roster.ofList paths
  let lost := (index.membersOf id).filter (· ∉ next)
  let left := lost.foldl (fun owners path => unlink owners id path) index.owners
  let orphans := lost.filter fun p => index.isOwned p && !left.contains p
  (Path.sort orphans,
    ⟨next.toList.foldl (fun owners path => link owners id path) left, index.members.insert id next⟩)

/-- Forgets a project, and lists the paths that lost their last owner by it. -/
def removeProject (index : Ownership) (id : ProjectId) : List Path × Ownership :=
  let (orphans, rest) := index.replaceMembers id []
  (orphans, { rest with members := rest.members.erase id })

end Ownership

end Codebase
