import OrPattern.Ty.Flags

namespace OrPattern

/-- A type of a pool, with the flags worked out when it was entered. -/
structure PoolEntry where
  form : Form
  flags : Flags
deriving DecidableEq, Repr

/-- The types known so far; the type numbered `n` is the entry at index `n`.
    Entries are only ever added at the end, so a number never changes meaning. -/
structure Pool where
  entries : Array PoolEntry
deriving Repr

namespace Pool

def size (pool : Pool) : Nat := pool.entries.size

def contains (pool : Pool) (type : Ty) : Bool := type.index < pool.size

/-- How a type is made; nothing for a number the pool has not given out. -/
def form? (pool : Pool) (type : Ty) : Option Form :=
  pool.entries[type.index]?.map PoolEntry.form

def flags (pool : Pool) (type : Ty) : Flags :=
  (pool.entries[type.index]?.map PoolEntry.flags).getD {}

def parent? (pool : Pool) (type : Ty) : Option Ty :=
  (pool.form? type).bind Form.parent?

/-- Whether the pool holds the type and the type was declared. -/
def isNominal (pool : Pool) (type : Ty) : Bool :=
  (pool.form? type).any Form.isNominal

/-- Enters a form as a new type, whether or not an equal one is there. -/
def push (pool : Pool) (form : Form) : Ty × Pool :=
  (⟨pool.size⟩, ⟨pool.entries.push ⟨form, Flags.ofForm pool.flags form⟩⟩)

@[simp] theorem size_push (pool : Pool) (form : Form) : (pool.push form).2.size = pool.size + 1 := by
  simp [push, size]

/-- A new entry is found under the number it was given. -/
@[simp] theorem form?_push_self (pool : Pool) (form : Form) :
    (pool.push form).2.form? (pool.push form).1 = some form := by
  simp [push, form?, size]

/-- A new entry leaves the forms of the others as they are. -/
theorem form?_push_of_contains {pool : Pool} {type : Ty} (hold : pool.contains type)
    (form : Form) : (pool.push form).2.form? type = pool.form? type := by
  have hlt : type.index < pool.entries.size := of_decide_eq_true hold
  simp [push, form?, Array.getElem?_push_lt, hlt]

theorem flags_push_of_contains {pool : Pool} {type : Ty} (hold : pool.contains type)
    (form : Form) : (pool.push form).2.flags type = pool.flags type := by
  have hlt : type.index < pool.entries.size := of_decide_eq_true hold
  simp [push, flags, Array.getElem?_push_lt, hlt]

/-- The forms of the primitive types, in the order of their numbers. -/
def primitiveForms : List Form :=
  [.int .w8, .int .w16, .int .w32, .int .w64, .float .w32, .float .w64, .bool, .char, .str,
    .tuple [], .never]

/-- A new pool, which holds the primitive types only. -/
def initial : Pool :=
  primitiveForms.foldl (fun pool form => (pool.push form).2) ⟨#[]⟩

theorem size_initial : initial.size = Ty.firstDynamic := rfl

/-- The type with this form, entered at the end unless the pool holds it. -/
def intern (pool : Pool) (form : Form) : Ty × Pool :=
  match pool.entries.toList.findIdx? (fun entry => entry.form = form) with
  | some index => (⟨index⟩, pool)
  | none => pool.push form

/-- Whether it was there before or not, the form is found under its number. -/
theorem form?_intern (pool : Pool) (form : Form) :
    (pool.intern form).2.form? (pool.intern form).1 = some form := by
  unfold intern
  split
  · next index hindex =>
    obtain ⟨hlt, hfound, _⟩ := List.findIdx?_eq_some_iff_getElem.mp hindex
    have hlt : index < pool.entries.size := by simpa using hlt
    have hfound : pool.entries[index].form = form := by simpa using hfound
    simp [form?, hlt, hfound]
  · exact form?_push_self pool form

def tuple (pool : Pool) : List Ty → Ty × Pool
  | [] => (.unit, pool)
  | elements => pool.intern (.tuple elements)

/-- The record type with these fields. Their order does not matter; of several
    fields with one name the first counts. -/
def record (pool : Pool) (fields : List (Name × Ty)) : Ty × Pool :=
  pool.intern (.record (sortByName Prod.fst fields))

/-- A declaration can only extend a declared type; any other parent is as good
    as none. -/
def nominalParent (pool : Pool) (parent : Option Ty) : Option Ty :=
  parent.filter pool.isNominal

def declareClass (pool : Pool) (name : Name) (parent : Option Ty) : Ty × Pool :=
  pool.push (.classDecl name (pool.nominalParent parent))

def declareEnum (pool : Pool) (name : Name) (parent : Option Ty)
    (variants : List (Name × Ty)) : Ty × Pool :=
  pool.push (.enumDecl name (pool.nominalParent parent) variants)

end Pool

end OrPattern
