import ModelAssembly.Assembly.Outcome
import ModelAssembly.Model.Basic
/-!
Own members: the members parsed under a declaration go to its description. Two of one role and
name in one place are reported, and the later one stays. A global member may silently replace one
of another model: that is how the primary model overrides its imports.
-/

namespace ModelAssembly

namespace Description

-- `current` replaces `previous` among the members of `d`.
def duplicateMember (d : Description) (previous current : Member) : Diagnostic where
  severity := .error
  code := some .duplicateMember
  message := s!"{current.role.text} `{current.name}` is declared twice in {d.kind.text} `{d.name}`"
  labels := [.primary current.provenance "duplicate declaration",
    .secondary previous.provenance "first declared here"]
  onExperiment := d.isExperiment

-- What there is to say when `member` is added to `d`.
def memberCollision (d : Description) (member : Member) : Option Diagnostic :=
  let previous? := (d.members.get? member.key).filter fun previous => previous.origin == member.origin
  previous?.map fun previous => d.duplicateMember previous member

end Description

namespace Model

def addMember (m : Model) (i : Nat) (member : Member) : Outcome Model := do
  let d ← .ofModel (m.get i)
  let changed ← .ofModel (d.addMember member)
  .report (d.memberCollision member).toList
  return m.set i changed

def addMembers (m : Model) (i : Nat) (ms : List Member) : Outcome Model :=
  ms.foldlM (fun m member => m.addMember i member) m

-- Adds the members `globals` to the root, and those under each of the declarations `nodes` to the
-- description that stands for it.
def addOwnMembers (m : Model) (globals : List Member) (nodes : List (Nat × Element)) :
    Outcome Model := do
  let m ← m.addMembers rootIndex globals
  nodes.foldlM (fun m (i, e) => m.addMembers i (Member.declaredIn e)) m

end Model
end ModelAssembly
