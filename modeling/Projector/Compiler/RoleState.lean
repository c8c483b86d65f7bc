import Projector.Lib.Dict
import Projector.Compiler.Hashing

namespace Projector.Compiler
open Lib Projector.Core

/-- Compiler-private state reproducing the Scala field lifecycle. -/
structure RoleState where
  subroles : Dict String (List String)
  inverseRoles : Dict String String
  deriving DecidableEq

def RoleState.empty : RoleState := ⟨∅, ∅⟩

structure CompileStatistics where
  skippedAxioms : Nat
  ignoredShapes : Nat
  deriving DecidableEq, Repr

def namedProperty? (value : Node) : Option String :=
  if value.isEntity .objectProperty then some value.entityIri
  else if value.isOf .objectInverseOf then some (value.child 0).entityIri
  else none

def CompileStatistics.ignore (s : CompileStatistics) : CompileStatistics :=
  { s with ignoredShapes := s.ignoredShapes + 1 }

def roleStep (s : RoleState × CompileStatistics) (axiomNode : Node) :
    RoleState × CompileStatistics :=
  let (roles, statistics) := s
  match namedProperty? (axiomNode.child 0), namedProperty? (axiomNode.child 1) with
  | some first, some second =>
    if axiomNode.isOf .subObjectPropertyOf then
      -- Historical bug: prior children are read under `sub`, not `sup`.
      ({ roles with
          subroles := roles.subroles.insert second (first :: roles.subroles.getOr first []) },
        statistics)
    else
      ({ roles with
          inverseRoles := (roles.inverseRoles.insert first second).insert second first },
        statistics)
  | _, _ => (roles, statistics.ignore)

/-- `_update_role_state`; it raises before the first change or not at all. -/
def updateRoleState (rbox : List Node) (roles : RoleState) (statistics : CompileStatistics) :
    Option (RoleState × CompileStatistics) := do
  let ordered ← hashsetOrder rbox
  some (ordered.foldl roleStep (roles, statistics))

/-- `_role_edges`: an edge, its subrole copies and its inverse. -/
def roleEdges (roles : RoleState) (source relation destination : String) : List (Edge String) :=
  ⟨source, relation, destination⟩ ::
    ((roles.subroles.getOr relation []).map (fun subrole => ⟨source, subrole, destination⟩) ++
      match roles.inverseRoles.lookup relation with
      | some inverse => [⟨destination, inverse, source⟩]
      | none => [])

end Projector.Compiler
