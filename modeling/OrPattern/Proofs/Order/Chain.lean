import OrPattern.Proofs.Pool.WellFormed
import OrPattern.Ty.Below

namespace OrPattern

namespace Pool

namespace Descends

variable {pool later : Pool} {type ancestor top : Ty}

theorem trans (hlow : pool.Descends type ancestor) (hhigh : pool.Descends ancestor top) :
    pool.Descends type top := by
  induction hlow with
  | parent declared => exact .further declared hhigh
  | further declared _ ih => exact .further declared (ih hhigh)

theorem parent_cases (hdescends : pool.Descends type top) :
    ∃ parent, pool.parent? type = some parent ∧ (top = parent ∨ pool.Descends parent top) := by
  cases hdescends with
  | parent declared => exact ⟨_, declared, .inl rfl⟩
  | further declared rest => exact ⟨_, declared, .inr rest⟩

end Descends

theorem exists_form?_of_parent? {pool : Pool} {type parent : Ty}
    (hparent : pool.parent? type = some parent) :
    ∃ form, pool.form? type = some form ∧ form.parent? = some parent :=
  Option.bind_eq_some_iff.mp hparent

theorem ancestors_of_root {pool : Pool} {type : Ty} (hroot : pool.parent? type = none) :
    pool.ancestors type = [type] := by
  rw [ancestors]
  cases type.index <;> simp [ancestorsWithin, hroot]

namespace WellFormed

variable {pool : Pool} {type parent ancestor : Ty}

theorem parent_older (hpool : pool.WellFormed) (hparent : pool.parent? type = some parent) :
    parent.index < type.index := by
  obtain ⟨form, hform, hdeclared⟩ := exists_form?_of_parent? hparent
  exact hpool.older hform parent (Form.mem_mentions_of_parent? hdeclared)

theorem ancestor_older (hpool : pool.WellFormed) (hdescends : pool.Descends type ancestor) :
    ancestor.index < type.index := by
  induction hdescends with
  | parent declared => exact hpool.parent_older declared
  | further declared _ ih => exact Nat.lt_trans ih (hpool.parent_older declared)

/-- Both ends of a chain of parents are declared types. -/
theorem isNominal_of_descends (hpool : pool.WellFormed) (hdescends : pool.Descends type ancestor) :
    pool.isNominal type ∧ pool.isNominal ancestor := by
  have hstep : ∀ {child parent : Ty}, pool.parent? child = some parent →
      pool.isNominal child ∧ pool.isNominal parent := by
    intro child parent hparent
    obtain ⟨form, hform, hdeclared⟩ := exists_form?_of_parent? hparent
    refine ⟨isNominal_iff.mpr ⟨form, hform, ?_⟩, hpool.nominalParent hform hdeclared⟩
    cases form <;> first | rfl | cases hdeclared
  induction hdescends with
  | parent declared => exact hstep declared
  | further declared _ ih => exact ⟨(hstep declared).1, ih.2⟩

/-- The bound on a chain is of no account once it reaches the number of the
    type. -/
theorem ancestorsWithin_eq (hpool : pool.WellFormed) {bound : Nat} (hbound : type.index ≤ bound) :
    pool.ancestorsWithin bound type = pool.ancestors type := by
  suffices h : ∀ limit (type : Ty), type.index ≤ limit → ∀ a b, type.index ≤ a → type.index ≤ b →
      pool.ancestorsWithin a type = pool.ancestorsWithin b type from
    h _ type Nat.le.refl _ _ hbound Nat.le.refl
  intro limit
  induction limit with
  | zero =>
    intro type hlimit a b _ _
    have hroot : ∀ n, pool.ancestorsWithin n type = [type] := by
      intro n
      cases n with
      | zero => rfl
      | succ n =>
        simp only [ancestorsWithin]
        split
        · next parent hparent =>
          have := hpool.parent_older hparent
          omega
        · rfl
    rw [hroot, hroot]
  | succ limit ih =>
    intro type hlimit a b ha hb
    cases hparent : pool.parent? type with
    | none => cases a <;> cases b <;> simp [ancestorsWithin, hparent]
    | some parent =>
      have holder := hpool.parent_older hparent
      obtain ⟨a, rfl⟩ : ∃ n, a = n + 1 := ⟨a - 1, by omega⟩
      obtain ⟨b, rfl⟩ : ∃ n, b = n + 1 := ⟨b - 1, by omega⟩
      simp only [ancestorsWithin, hparent, holder, if_true]
      rw [ih parent (by omega) a b (by omega) (by omega)]

theorem ancestors_of_parent? (hpool : pool.WellFormed) (hparent : pool.parent? type = some parent) :
    pool.ancestors type = type :: pool.ancestors parent := by
  have holder := hpool.parent_older hparent
  obtain ⟨n, hn⟩ : ∃ n, type.index = n + 1 := ⟨type.index - 1, by omega⟩
  rw [ancestors, hn]
  simp only [ancestorsWithin, hparent, holder, if_true]
  rw [hpool.ancestorsWithin_eq (by omega)]

/-- A type that stands in a chain is followed there by its own chain. -/
theorem ancestors_of_split (hpool : pool.WellFormed) {before after : List Ty}
    (hsplit : pool.ancestors type = before ++ ancestor :: after) :
    pool.ancestors ancestor = ancestor :: after := by
  induction before generalizing type with
  | nil =>
    have hhead : ancestor = type := by
      cases hparent : pool.parent? type with
      | none => simp_all [ancestors_of_root hparent]
      | some parent => simp_all [hpool.ancestors_of_parent? hparent]
    rw [hhead, hsplit, List.nil_append, hhead]
  | cons first before ih =>
    cases hparent : pool.parent? type with
    | none => simp [ancestors_of_root hparent] at hsplit
    | some parent =>
      rw [hpool.ancestors_of_parent? hparent, List.cons_append, List.cons.injEq] at hsplit
      exact ih hsplit.2

theorem mem_ancestors_iff (hpool : pool.WellFormed) :
    ancestor ∈ pool.ancestors type ↔ ancestor = type ∨ pool.Descends type ancestor := by
  induction hindex : type.index using Nat.strongRecOn generalizing type with
  | _ n ih =>
    cases hparent : pool.parent? type with
    | none =>
      rw [ancestors_of_root hparent, List.mem_singleton]
      refine ⟨.inl, fun h => h.resolve_right fun hdescends => ?_⟩
      obtain ⟨parent, hsome, -⟩ := hdescends.parent_cases
      simp [hparent] at hsome
    | some parent =>
      rw [hpool.ancestors_of_parent? hparent, List.mem_cons,
        ih parent.index (hindex ▸ hpool.parent_older hparent) rfl]
      refine or_congr_right ⟨?_, fun hdescends => ?_⟩
      · rintro (rfl | hdescends)
        · exact .parent hparent
        · exact .further hparent hdescends
      · obtain ⟨found, hfound, hrest⟩ := hdescends.parent_cases
        rw [hparent, Option.some.injEq] at hfound
        exact hfound ▸ hrest

end WellFormed

end Pool

end OrPattern
