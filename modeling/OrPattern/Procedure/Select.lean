import OrPattern.Procedure
import OrPattern.Value

namespace OrPattern

/-- A name with the value it is bound to, the type that is seen and the type it
    was found at. -/
structure BoundValue where
  name : Name
  value : Value
  exposed : Ty
  native : Ty
  conversion : Conversion
deriving Repr

/-- The alternative that was chosen, and what it binds. -/
structure Selection where
  alternative : Nat
  bindings : List BoundValue
deriving Repr

namespace Selection

def binding? (selection : Selection) (name : Name) : Option BoundValue :=
  selection.bindings.find? fun bound => bound.name = name

end Selection

namespace BoundValue

/-- The bindings in the order of the names; those of other names come last, and
    bindings of one name keep their order. -/
def arrange : List Name → List BoundValue → List BoundValue
  | [], bindings => bindings
  | name :: names, bindings =>
    bindings.filter (fun bound => bound.name = name)
      ++ arrange names (bindings.filter fun bound => bound.name ≠ name)

end BoundValue

/-- Reads a slot out of a value. -/
def Slot.read (root : Value) (slot : Slot) : Option BoundValue :=
  (root.at? slot.path).map fun value =>
    ⟨slot.name, value, slot.exposed, slot.native, slot.conversion⟩

/-- Merges two ascending sequences. -/
def mergeAscending : List Nat → List Nat → List Nat
  | [], ys => ys
  | x :: xs, ys => mergeInto x (mergeAscending xs) ys
where
  /-- Puts `x` before the first element of `ys` that is not below it. -/
  mergeInto (x : Nat) (mergeRest : List Nat → List Nat) : List Nat → List Nat
    | [] => x :: mergeRest []
    | y :: ys => if x ≤ y then x :: mergeRest (y :: ys) else y :: mergeInto x mergeRest ys

@[simp] theorem mergeAscending_nil_right (xs : List Nat) : mergeAscending xs [] = xs := by
  induction xs with
  | nil => rfl
  | cons x xs ih => simp [mergeAscending, mergeAscending.mergeInto, ih]

theorem mergeAscending_cons_cons (x y : Nat) (xs ys : List Nat) :
    mergeAscending (x :: xs) (y :: ys) =
      if x ≤ y then x :: mergeAscending xs (y :: ys) else y :: mergeAscending (x :: xs) ys := rfl

/-- Nothing is lost in a merge and nothing comes in. -/
theorem mem_mergeAscending {index : Nat} {xs ys : List Nat} :
    index ∈ mergeAscending xs ys ↔ index ∈ xs ∨ index ∈ ys := by
  induction xs generalizing ys with
  | nil => simp [mergeAscending]
  | cons x xs ihx =>
    induction ys with
    | nil => simp
    | cons y ys ihy =>
      rw [mergeAscending_cons_cons]
      split
      · simp only [List.mem_cons, ihx, or_assoc]
      · simp only [List.mem_cons, ihy, or_left_comm]

namespace Dispatch

/-- The arms to try for a value, in ascending order; all arms are to be tried if
    the value has no variant at the path. -/
def candidates? (dispatch : Dispatch) (root : Value) : Option (List Nat) :=
  match (root.at? dispatch.path).bind Value.tag? with
  | some tag =>
    let tagged := (dispatch.tagged.filter fun arm => arm.1 = tag).map Prod.snd
    some (mergeAscending tagged dispatch.untagged)
  | none => none

end Dispatch

/-- The first outcome that is there, of all the arms or of some. -/
def firstSelection (outcomes : List (Option Selection)) :
    Option (List Nat) → Option Selection
  | none => outcomes.findSome? id
  | some candidates => candidates.findSome? fun index => (outcomes[index]?).join

mutual

/-- The choice of the leftmost arm that accepts the value. A dispatch only saves
    trying arms that cannot accept it. -/
def Procedure.select (root : Value) : Procedure → Option Selection
  | ⟨arms, dispatch, names⟩ =>
    firstSelection (Arm.outcomes root names arms) (dispatch.bind (·.candidates? root))

/-- What each arm makes of the value. -/
def Arm.outcomes (root : Value) (names : List Name) : List Arm → List (Option Selection)
  | [] => []
  | ⟨alternative, checks, slots⟩ :: rest =>
    (match Check.bindings? root checks, slots.mapM (Slot.read root) with
      | some nested, some own => some ⟨alternative, BoundValue.arrange names (nested ++ own)⟩
      | _, _ => none)
      :: Arm.outcomes root names rest

/-- What the nested procedures bind, if the value passes every check. -/
def Check.bindings? (root : Value) : List Check → Option (List BoundValue)
  | [] => some []
  | .tag path tag :: rest =>
    if (root.at? path).bind Value.tag? = some tag then Check.bindings? root rest else none
  | .literal path literal :: rest =>
    if (root.at? path).any fun value => value.matchesLiteral literal then Check.bindings? root rest
    else none
  | .firstOf _ procedure :: rest =>
    match procedure.select root, Check.bindings? root rest with
    | some selection, some others => some (selection.bindings ++ others)
    | _, _ => none

end

/-- The same choice made by trying every arm. -/
def Procedure.selectLinear (root : Value) (procedure : Procedure) : Option Selection :=
  firstSelection (Arm.outcomes root procedure.names procedure.arms) none

theorem Procedure.select_of_dispatch_eq_none {procedure : Procedure} (root : Value)
    (hnone : procedure.dispatch = none) : procedure.select root = procedure.selectLinear root := by
  cases procedure
  subst hnone
  rfl

end OrPattern
