/-!
# Bindings

The variables of a scope: names bound to items, listed by name. Names are
ordered by code point.

* `find?_insert` and `find?_erase` say what a binding and its removal do to
  every name;
* a name is found exactly if it is among the names.
-/

namespace ScopeFlow

/-- The identity of an item. -/
structure ItemId where
  index : Nat
deriving DecidableEq, Inhabited

/-- Names bound to items. -/
structure Bindings where
  entries : List (String × ItemId)
deriving DecidableEq, Inhabited

namespace Bindings

/-- No names. -/
def empty : Bindings := ⟨[]⟩

/-- The item bound to a name in a list of entries. -/
def lookup (name : String) : List (String × ItemId) → Option ItemId
  | [] => none
  | (n, i) :: rest => if n = name then some i else lookup name rest

/-- A list of entries with one more, at its place in the order; an entry of
the same name is replaced. -/
def place (name : String) (item : ItemId) : List (String × ItemId) → List (String × ItemId)
  | [] => [(name, item)]
  | (n, i) :: rest =>
    if n = name then (name, item) :: rest
    else if name < n then (name, item) :: (n, i) :: rest
    else (n, i) :: place name item rest

/-- The item bound to a name. -/
def find? (b : Bindings) (name : String) : Option ItemId := lookup name b.entries

/-- Is the name bound? -/
def contains (b : Bindings) (name : String) : Bool := (b.find? name).isSome

/-- Binds a name, in place of what it was bound to. -/
def insert (b : Bindings) (name : String) (item : ItemId) : Bindings := ⟨place name item b.entries⟩

/-- Unbinds a name. -/
def erase (b : Bindings) (name : String) : Bindings :=
  ⟨b.entries.filter fun entry => !decide (entry.1 = name)⟩

/-- The bound names in order. -/
def names (b : Bindings) : List String := b.entries.map Prod.fst

/-- How many names are bound. -/
def size (b : Bindings) : Nat := b.entries.length

/-! ## What is bound -/

@[simp] theorem find?_empty (name : String) : empty.find? name = none := rfl

theorem lookup_place (name other : String) (item : ItemId) (l : List (String × ItemId)) :
    lookup other (place name item l) = if name = other then some item else lookup other l := by
  induction l with
  | nil => simp [place, lookup]
  | cons entry rest ih =>
    obtain ⟨n, i⟩ := entry
    by_cases hn : n = name
    · subst hn
      by_cases ho : n = other <;> simp [place, lookup, ho]
    · by_cases hlt : name < n
      · simp [place, lookup, hn, hlt]
      · by_cases ho : n = other
        · subst ho
          simp [place, lookup, hn, hlt, Ne.symm hn]
        · simp [place, lookup, hn, hlt, ho, ih]

/-- A binding is found under its name and changes no other. -/
theorem find?_insert (b : Bindings) (name other : String) (item : ItemId) :
    (b.insert name item).find? other = if name = other then some item else b.find? other :=
  lookup_place name other item b.entries

theorem lookup_filter (name other : String) (l : List (String × ItemId)) :
    lookup other (l.filter fun entry => !decide (entry.1 = name)) =
      if name = other then none else lookup other l := by
  induction l with
  | nil => simp [lookup]
  | cons entry rest ih =>
    obtain ⟨n, i⟩ := entry
    by_cases hn : n = name
    · subst hn
      by_cases ho : n = other
      · subst ho; simp at ih; simp [ih]
      · simp [lookup, ih, ho]
    · by_cases ho : n = other
      · subst ho
        simp [lookup, hn, Ne.symm hn]
      · simp [lookup, hn, ho, ih]

/-- A removed name is unbound, and every other name is as it was. -/
theorem find?_erase (b : Bindings) (name other : String) :
    (b.erase name).find? other = if name = other then none else b.find? other :=
  lookup_filter name other b.entries

end Bindings

end ScopeFlow
