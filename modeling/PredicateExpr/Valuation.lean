/-!
# Valuations

A valuation gives truth values to finitely many names. Inserting a name that has a value replaces
that value (`get?_insert`), so that of several values for one name the last one counts, and a name
is never listed twice.
-/

namespace PredicateExpr

/-- Truth values of finitely many names. -/
structure Valuation where
  /-- The names with their values, the one inserted last first. -/
  entries : List (String × Bool)
  /-- Every name has one value. -/
  distinct : (entries.map Prod.fst).Nodup

namespace Valuation

/-- The valuation of no name. -/
def empty : Valuation :=
  ⟨[], by simp⟩

/-- The value of a name. -/
def get? (values : Valuation) (name : String) : Option Bool :=
  values.entries.lookup name

/-- Gives a name a value, instead of the one it had. -/
def insert (values : Valuation) (name : String) (value : Bool) : Valuation where
  entries := (name, value) :: values.entries.filter (·.1 != name)
  distinct := by
    rw [List.map_cons, List.nodup_cons]
    refine ⟨by simp, ?_⟩
    exact values.distinct.sublist (List.filter_sublist.map Prod.fst)

/-- The valuation that a list of pairs amounts to, where the last value of a name counts. -/
def ofList (pairs : List (String × Bool)) : Valuation :=
  pairs.foldl (fun values pair => values.insert pair.1 pair.2) empty

/-- The number of names that have a value. -/
def size (values : Valuation) : Nat :=
  values.entries.length

/-- Whether no name has a value. -/
def isEmpty (values : Valuation) : Bool :=
  values.entries.isEmpty

/-- Dropping one name from a list of pairs leaves the values of the others. -/
theorem lookup_filter {entries : List (String × Bool)} {name other : String}
    (h : other ≠ name) :
    (entries.filter (·.1 != name)).lookup other = entries.lookup other := by
  induction entries with
  | nil => rfl
  | cons entry entries ih =>
    obtain ⟨key, value⟩ := entry
    by_cases hkey : key = name
    · have hother : (other == key) = false := by simp [hkey, h]
      simp [hkey, ih, List.lookup_cons, hkey ▸ hother]
    · simp [hkey, List.lookup_cons, ih]

/-- Looking a name up after an insertion. -/
theorem get?_insert (values : Valuation) (name other : String) (value : Bool) :
    (values.insert name value).get? other =
      if other = name then some value else values.get? other := by
  by_cases h : other = name
  · simp [get?, insert, h]
  · have hother : (other == name) = false := by simp [h]
    simp only [get?, insert, List.lookup_cons, hother, h, if_false]
    exact lookup_filter h

end Valuation

end PredicateExpr
