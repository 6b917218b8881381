import ComponentView.Value.Path

/-! # Watch expressions

An expression says which value a part of a component depends on. Two expressions of the same shape
are the same lookup wherever they stand, so equality of expressions is equality of their trees and
can be decided. -/

namespace ComponentView

/-- A constant inside an expression. -/
inductive Literal where
  | null
  | bool (b : Bool)
  | int (n : Int64)
  | str (s : String)
  deriving DecidableEq, Repr, Inhabited

/-- The value of a constant. -/
def Literal.toValue : Literal → Value
  | null => .null
  | bool b => .bool b
  | int n => .int n
  | str s => .str s

/-- An expression over the props, the state and the methods of a component. -/
inductive Expr where
  | literal (value : Literal)
  | prop (path : Path)
  | state (path : Path)
  | not (a : Expr)
  | equals (a b : Expr)
  | lessThan (a b : Expr)
  | and (a b : Expr)
  | or (a b : Expr)
  | len (a : Expr)
  | concat (parts : List Expr)
  | cond (test yes no : Expr)
  | call (method : String) (arguments : List Expr)
  deriving Inhabited, Repr

namespace Expr

/-- The whole of the props. -/
def props : Expr := prop []

/-! ## Equality of expressions -/

mutual
/-- Whether two expressions are the same tree. -/
def same : Expr → Expr → Bool
  | literal a, literal b => a = b
  | prop p, prop q => p = q
  | state p, state q => p = q
  | not a, not b => same a b
  | equals a b, equals c d => same a c && same b d
  | lessThan a b, lessThan c d => same a c && same b d
  | and a b, and c d => same a c && same b d
  | or a b, or c d => same a c && same b d
  | len a, len b => same a b
  | concat as, concat bs => sameAll as bs
  | cond a b c, cond d e f => same a d && same b e && same c f
  | call m as, call n bs => m = n && sameAll as bs
  | _, _ => false

/-- Whether two lists of expressions are the same trees in the same order. -/
def sameAll : List Expr → List Expr → Bool
  | [], [] => true
  | a :: as, b :: bs => same a b && sameAll as bs
  | _, _ => false
end

mutual
/-- Every expression is the same tree as itself. -/
theorem same_self : ∀ a : Expr, same a a = true
  | literal _ | prop _ | state _ => by simp [same]
  | not a | len a => by simpa [same] using same_self a
  | equals a b | lessThan a b | and a b | or a b => by
    simp [same, same_self a, same_self b]
  | concat as => by simpa [same] using sameAll_self as
  | cond a b c => by simp [same, same_self a, same_self b, same_self c]
  | call _ as => by simpa [same] using sameAll_self as

/-- Every list of expressions is the same as itself. -/
theorem sameAll_self : ∀ as : List Expr, sameAll as as = true
  | [] => rfl
  | a :: as => by simp [sameAll, same_self a, sameAll_self as]
end

mutual
/-- Expressions that are the same tree are equal. -/
theorem eq_of_same : ∀ {a b : Expr}, same a b = true → a = b
  | literal _, b, h | prop _, b, h | state _, b, h => by
    cases b <;> simp_all [same]
  | not a, b, h | len a, b, h => by
    cases b <;> simp only [same, Bool.false_eq_true] at h
    rw [eq_of_same h]
  | equals a b, c, h | lessThan a b, c, h | and a b, c, h | or a b, c, h => by
    cases c <;> simp only [same, Bool.false_eq_true, Bool.and_eq_true] at h
    rw [eq_of_same h.1, eq_of_same h.2]
  | concat as, b, h => by
    cases b <;> simp only [same, Bool.false_eq_true] at h
    rw [eq_of_sameAll h]
  | cond a b c, d, h => by
    cases d <;> simp only [same, Bool.false_eq_true, Bool.and_eq_true] at h
    rw [eq_of_same h.1.1, eq_of_same h.1.2, eq_of_same h.2]
  | call m as, b, h => by
    cases b <;> simp only [same, Bool.false_eq_true, Bool.and_eq_true, decide_eq_true_eq] at h
    rw [h.1, eq_of_sameAll h.2]

/-- Lists of expressions that are the same are equal. -/
theorem eq_of_sameAll : ∀ {as bs : List Expr}, sameAll as bs = true → as = bs
  | [], [], _ => rfl
  | a :: as, b :: bs, h => by
    simp only [sameAll, Bool.and_eq_true] at h
    rw [eq_of_same h.1, eq_of_sameAll h.2]
  | [], _ :: _, h | _ :: _, [], h => by simp [sameAll] at h
end

/-- Two expressions are equal exactly when they are the same tree. -/
theorem same_iff {a b : Expr} : same a b = true ↔ a = b :=
  ⟨eq_of_same, fun h => h ▸ same_self a⟩

instance : DecidableEq Expr := fun _ _ => decidable_of_iff _ same_iff

end Expr

end ComponentView
