import OrPattern.Ty.Form

namespace OrPattern

/-- What is remembered about a type so that most questions about order need no
    look at its form. -/
structure Flags where
  primitive : Bool := false
  numeric : Bool := false
  nominal : Bool := false
  structural : Bool := false
  sum : Bool := false
  never : Bool := false
  /-- A declared type occurs in it. -/
  hasNominal : Bool := false
deriving DecidableEq, Repr

namespace Flags

def union (a b : Flags) : Flags where
  primitive := a.primitive || b.primitive
  numeric := a.numeric || b.numeric
  nominal := a.nominal || b.nominal
  structural := a.structural || b.structural
  sum := a.sum || b.sum
  never := a.never || b.never
  hasNominal := a.hasNominal || b.hasNominal

/-- What a composed type takes over from a component. -/
def inherited (flags : Flags) : Flags := { hasNominal := flags.hasNominal }

def inheritedFromAll (components : List Flags) : Flags :=
  components.foldl (fun all flags => all.union flags.inherited) {}

/-- A primitive outside the numeric chains: only `never` is properly below it,
    and nothing is properly above it. -/
def isRigid (flags : Flags) : Bool :=
  flags.primitive && !(flags.numeric || flags.never)

/-- The flags of a form, given those of its components. -/
def ofForm (flagsOf : Ty → Flags) : Form → Flags
  | .int _ | .float _ => { primitive := true, numeric := true }
  | .bool | .char | .str => { primitive := true }
  | .never => { primitive := true, never := true }
  | .tuple [] => { primitive := true }
  | .tuple elements => { inheritedFromAll (elements.map flagsOf) with structural := true }
  | .record fields =>
    { inheritedFromAll (fields.map fun field => flagsOf field.2) with structural := true }
  | .classDecl .. => { nominal := true, hasNominal := true }
  | .enumDecl .. => { nominal := true, hasNominal := true, sum := true }

/-- The word with bit 0 for `primitive` up to bit 5 for `never`, and bit 8 for
    `hasNominal`. -/
def toBits (flags : Flags) : Nat :=
  (if flags.primitive then 1 else 0) + (if flags.numeric then 2 else 0)
    + (if flags.nominal then 4 else 0) + (if flags.structural then 8 else 0)
    + (if flags.sum then 16 else 0) + (if flags.never then 32 else 0)
    + (if flags.hasNominal then 256 else 0)

/-- The flags whose bits are set in a word; other bits are ignored. -/
def ofBits (bits : Nat) : Flags where
  primitive := bits.testBit 0
  numeric := bits.testBit 1
  nominal := bits.testBit 2
  structural := bits.testBit 3
  sum := bits.testBit 4
  never := bits.testBit 5
  hasNominal := bits.testBit 8

end Flags

end OrPattern
