import OrPattern.Evidence
import OrPattern.Options
import OrPattern.Rejection

namespace OrPattern

/-- The tests and slots of a part of an alternative, in the order of the
    pattern. -/
structure ArmParts where
  checks : List Check := []
  slots : List Slot := []

def ArmParts.append (a b : ArmParts) : ArmParts := ⟨a.checks ++ b.checks, a.slots ++ b.slots⟩

instance : Append ArmParts := ⟨ArmParts.append⟩

/-- What is known when the arm of an alternative is emitted. -/
structure EmitContext where
  evidence : Evidence
  environment : Environment
  alternative : Nat

namespace EmitContext

/-- The slot of a name that is bound at a path. -/
def slot (context : EmitContext) (name : Name) (path : Path) (span : Span) :
    Except Rejection Slot :=
  match context.evidence.site? name context.alternative with
  | none => .error (.ofFault (.noSite name context.alternative) span)
  | some site =>
    match context.environment.type? name with
    | none => .error (.ofFault (.notInEnvironment name) span)
    | some exposed =>
      .ok ⟨name, path, site.effective, exposed, .between site.effective exposed⟩

/-- The test for a nested or-pattern: its own procedure, seen at the types of the
    enclosing one. -/
def nestedCheck (context : EmitContext) (path : Path) (span : Span) : Except Rejection Check :=
  match context.evidence.nested? context.alternative path with
  | none => .error (.ofFault (.nestedNotCompiled path) span)
  | some compiled => .ok (.firstOf path (compiled.procedure.retarget context.environment))

end EmitContext

namespace Pattern

mutual

/-- The tests and slots of a pattern at a path. Tuples and records need no test:
    their type already fixes the components that a value has. -/
def armParts (context : EmitContext) : Pattern → Path → Except Rejection ArmParts
  | wildcard _, _ => .ok {}
  | bind name _ span, path => do
    let slot ← context.slot name path span
    return { slots := [slot] }
  | literal value _, path => .ok { checks := [.literal path value] }
  | variant tag inner _, path => do
    let parts ← inner.armParts context (path ++ [.payload])
    return { checks := [.tag path tag] } ++ parts
  | tuple elements _, path => armPartsElements context elements 0 path
  | record fields _ _, path => armPartsFields context fields path
  | or _ span, path => do
    let check ← context.nestedCheck path span
    return { checks := [check] }

/-- The parts of tuple elements, of which the first has the given index. -/
def armPartsElements (context : EmitContext) :
    List Pattern → Nat → Path → Except Rejection ArmParts
  | [], _, _ => .ok {}
  | element :: rest, index, path => do
    let first ← element.armParts context (path ++ [.element (clipIndex index)])
    let others ← armPartsElements context rest (index + 1) path
    return first ++ others

def armPartsFields (context : EmitContext) :
    List (FieldOf Pattern) → Path → Except Rejection ArmParts
  | [], _ => .ok {}
  | ⟨name, pattern, _⟩ :: rest, path => do
    let first ← pattern.armParts context (path ++ [.field name])
    let others ← armPartsFields context rest path
    return first ++ others

end

end Pattern

namespace Arm

/-- The tag that an arm tests at a path first. -/
def tagAt? (path : Path) (arm : Arm) : Option Name :=
  arm.checks.findSome? fun check =>
    match check with
    | .tag place tag => if place = path then some tag else none
    | _ => none

/-- The arms that test a tag at a path, with that tag; the first arm of the list
    has the given index. -/
def taggedAt (path : Path) : Nat → List Arm → List (Name × Nat)
  | _, [] => []
  | index, arm :: rest =>
    match arm.tagAt? path with
    | some tag => (tag, index) :: taggedAt path (index + 1) rest
    | none => taggedAt path (index + 1) rest

/-- The arms that test no tag at a path. -/
def untaggedAt (path : Path) : Nat → List Arm → List Nat
  | _, [] => []
  | index, arm :: rest =>
    match arm.tagAt? path with
    | some _ => untaggedAt path (index + 1) rest
    | none => index :: untaggedAt path (index + 1) rest

end Arm

/-- The dispatch of arms by the tag at a path; none if no arm tests a tag
    there. -/
def Dispatch.ofArms? (arms : List Arm) (path : Path) : Option Dispatch :=
  match Arm.taggedAt path 0 arms with
  | [] => none
  | tagged => some ⟨path, tagged, Arm.untaggedAt path 0 arms⟩

namespace Evidence

/-- The arms of the alternatives, of which the first has the given number. -/
def emitArms (evidence : Evidence) (environment : Environment) (base : Path) :
    List Pattern → Nat → Except Rejection (List Arm)
  | [], _ => .ok []
  | pattern :: rest, index => do
    let parts ← pattern.armParts ⟨evidence, environment, index⟩ base
    let others ← evidence.emitArms environment base rest (index + 1)
    return ⟨index, parts.checks, parts.slots⟩ :: others

/-- The procedure of an or-pattern at a path, once its names have their types. -/
def emit (options : Options) (evidence : Evidence) (environment : Environment) (base : Path)
    (alternatives : List Pattern) : Except Rejection Procedure := do
  let arms ← evidence.emitArms environment base alternatives 0
  let dispatch := if options.wantsDispatch arms.length then Dispatch.ofArms? arms base else none
  return ⟨arms, dispatch, environment.names⟩

end Evidence

end OrPattern
