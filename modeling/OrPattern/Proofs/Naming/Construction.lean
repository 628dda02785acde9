import OrPattern.Proofs.Join.All
import OrPattern.Proofs.Naming.Pool

namespace OrPattern

open HasNames (withNames)

/-- A way to enter a type into a pool: a declaration, or a composition of types. -/
inductive Construction where
  | classDecl (name : Name) (parent : Option Ty)
  | enumDecl (name : Name) (parent : Option Ty) (variants : List (Name × Ty))
  | tuple (elements : List Ty)
  | record (fields : List (Name × Ty))
deriving DecidableEq, Repr

namespace Construction

/-- The types that a type is made of. -/
def parts : Construction → List Ty
  | classDecl _ parent => parent.toList
  | enumDecl _ parent variants => parent.toList ++ variants.map Prod.snd
  | tuple elements => elements
  | record fields => fields.map Prod.snd

def enter (pool : Pool) : Construction → Ty × Pool
  | classDecl name parent => pool.declareClass name parent
  | enumDecl name parent variants => pool.declareEnum name parent variants
  | tuple elements => pool.tuple elements
  | record fields => pool.record fields

/-- The fields stay in the order in which they are listed. -/
instance : HasNames Construction where
  withNames names
    | classDecl name parent => classDecl (names name) parent
    | enumDecl name parent variants => enumDecl (names name) parent (withNames names variants)
    | tuple elements => tuple elements
    | record fields => record (withNames names fields)

end Construction

namespace Pool

/-- Each type is made of types that the pool holds when its turn comes. -/
def Buildable : Pool → List Construction → Prop
  | _, [] => True
  | pool, first :: rest =>
    (∀ part ∈ first.parts, pool.contains part) ∧ (first.enter pool).2.Buildable rest

instance decidableBuildable :
    ∀ (pool : Pool) (script : List Construction), Decidable (pool.Buildable script)
  | _, [] => .isTrue trivial
  | pool, first :: rest =>
    have := decidableBuildable (first.enter pool).2 rest
    inferInstanceAs (Decidable (_ ∧ _))

end Pool

variable {start pool : Pool} {script : List Construction}

section Names

variable {names : Name → Name} (hnames : Function.Injective names)
include hnames

end Names

end OrPattern
