import OrPattern.Name

namespace OrPattern

/-- The texts met so far, in the order of their names: the name numbered `n`
    stands for the text at index `n`. The other way round, the number of each text,
    those met last first. -/
structure NameTable where
  numbers : List (String × Nat)
  texts : Array String
deriving Repr

/-- The table is full: no number is left for another text. -/
structure TableOverflow where
  count : Nat
deriving DecidableEq, Repr

namespace NameTable

/-- The largest number a name can have. -/
def maxNumber : Nat := 4294967295

/-- A new table, which holds the empty text only. -/
def empty : NameTable := ⟨[("", 0)], #[""]⟩

def size (table : NameTable) : Nat := table.texts.size

/-- Nothing was interned: the empty text does not count. -/
def isEmpty (table : NameTable) : Bool := table.size ≤ 1

/-- The name of a text that the table already holds. -/
def find? (table : NameTable) (text : String) : Option Name :=
  (table.numbers.lookup text).map Name.mk

/-- Enters a text under the next number, whether or not the table holds it. -/
def push (table : NameTable) (text : String) : Name × NameTable :=
  (⟨table.size⟩, ⟨(text, table.size) :: table.numbers, table.texts.push text⟩)

/-- The name of a text, which is added at the end unless the table holds it. -/
def intern (table : NameTable) (text : String) : Except TableOverflow (Name × NameTable) :=
  match table.find? text with
  | some name => .ok (name, table)
  | none =>
    if table.size ≤ maxNumber then .ok (table.push text)
    else .error ⟨table.size⟩

/-- The text of a name. A name from elsewhere reads as `<?>`, so that every
    report stays printable. -/
def lookup (table : NameTable) (name : Name) : String :=
  table.texts[name.number]?.getD "<?>"

@[simp] theorem size_empty : empty.size = 1 := rfl

end NameTable

def TableOverflow.message (overflow : TableOverflow) : String :=
  s!"interner exceeded capacity: {overflow.count} strings, max is {NameTable.maxNumber}"

end OrPattern
