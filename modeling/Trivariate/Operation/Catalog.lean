import Trivariate.Operation.Basic

/-! The two vocabularies of operations. Both hold plain arithmetic, and apart from it they are
disjoint. -/

namespace Trivariate

inductive Catalog where
  | standard
  | transcendental
  deriving DecidableEq, Repr, Inhabited

structure UnknownCatalog where
  name : String
  deriving DecidableEq, Repr

def UnknownCatalog.message (e : UnknownCatalog) : String :=
  "unknown operation catalog '" ++ e.name ++ "'"

namespace Catalog

def arithmetic : List Op :=
  [.binary .add, .binary .sub, .binary .mul, .binary .div, .unary .negate]

def own : Catalog → List Op
  | standard => [.variadic .avg, .variadic .length, .variadic .sum, .variadic .sumsq]
  | transcendental => [.unary .atan, .binary .atan2, .unary .cosh, .unary .sinh]

def ops (c : Catalog) : List Op := arithmetic ++ c.own

def lookup? (c : Catalog) (s : String) : Option Op := c.ops.find? (·.symbol == s)

def ofName : String → Except UnknownCatalog Catalog
  | "standard" => .ok .standard
  | "transcendental" => .ok .transcendental
  | s => .error ⟨s⟩

theorem lookup?_eq_some_iff {c : Catalog} {s : String} {o : Op} :
    c.lookup? s = some o ↔ o ∈ c.ops ∧ o.symbol = s := by
  constructor
  · intro h
    exact ⟨List.mem_of_find?_eq_some h, by simpa using List.find?_some h⟩
  · rintro ⟨hm, rfl⟩
    revert hm
    cases c <;> rcases o with o | o | o <;> cases o <;> decide

theorem lookup?_symbol {c : Catalog} {o : Op} (h : o ∈ c.ops) : c.lookup? o.symbol = some o :=
  lookup?_eq_some_iff.mpr ⟨h, rfl⟩

end Catalog
end Trivariate
