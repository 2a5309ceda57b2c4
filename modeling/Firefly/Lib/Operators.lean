import Mathlib.Data.List.Basic

/-!
# Firefly.Lib.Operators

Expressions of operators with precedences, over any table of operators. `Expr` is the ambiguous
grammar of their strings of tokens; `Shows` says which strings a tree is shown by where an expression
of at least some precedence may stand, every binary operator taking its left operand first. Both derive
the same strings (`exists_shows`, `Shows.expr`), and `print` is the way to show a tree with the fewest
parentheses.
-/

namespace Operators

variable {V O U B : Type}

inductive Token (V O : Type) where
  | value (v : V)
  | operator (o : O)
  | openParenthesis
  | closeParenthesis

/-- Operators by their symbols. A symbol may be unary and binary; a unary operator binds tighter than
every binary one. -/
structure Table (O U B : Type) where
  unary : O → Option U
  binary : O → Option B
  unarySymbol : U → O
  binarySymbol : B → O
  unaryPrecedence : U → Nat
  precedence : B → Nat
  unary_symbol : ∀ u, unary (unarySymbol u) = some u
  binary_symbol : ∀ b, binary (binarySymbol b) = some b
  precedence_lt : ∀ b u, precedence b < unaryPrecedence u

inductive Tree (V U B : Type) where
  | leaf (v : V)
  | unary (u : U) (t : Tree V U B)
  | binary (b : B) (l r : Tree V U B)

def Tree.size : Tree V U B → Nat
  | leaf _ => 1
  | unary _ t => t.size + 1
  | binary _ l r => l.size + r.size + 1

theorem Tree.size_pos (t : Tree V U B) : 0 < t.size := by
  cases t <;> exact Nat.succ_pos _

variable (T : Table O U B)

inductive Expr : List (Token V O) → Prop where
  | value (v : V) : Expr [.value v]
  | unary {o : O} {ts : List (Token V O)} (ho : (T.unary o).isSome) (h : Expr ts) :
      Expr (.operator o :: ts)
  | binary {o : O} {ls rs : List (Token V O)} (ho : (T.binary o).isSome) (hl : Expr ls) (hr : Expr rs) :
      Expr (ls ++ .operator o :: rs)
  | parenthesis {ts : List (Token V O)} (h : Expr ts) :
      Expr (.openParenthesis :: (ts ++ [.closeParenthesis]))

/-- A tree is shown by a string where an expression of at least the given precedence may stand.
Parentheses may stand around any part of it. -/
inductive Shows : Nat → Tree V U B → List (Token V O) → Prop where
  | leaf (p : Nat) (v : V) : Shows p (.leaf v) [.value v]
  | unary (p : Nat) {o : O} {u : U} {t : Tree V U B} {ts : List (Token V O)} (ho : T.unary o = some u)
      (h : Shows (T.unaryPrecedence u) t ts) : Shows p (.unary u t) (.operator o :: ts)
  | binary {p : Nat} {o : O} {b : B} {l r : Tree V U B} {ls rs : List (Token V O)}
      (ho : T.binary o = some b) (hp : p ≤ T.precedence b) (hl : Shows (T.precedence b) l ls)
      (hr : Shows (T.precedence b + 1) r rs) : Shows p (.binary b l r) (ls ++ .operator o :: rs)
  | parenthesis (p : Nat) {t : Tree V U B} {ts : List (Token V O)} (h : Shows 0 t ts) :
      Shows p t (.openParenthesis :: (ts ++ [.closeParenthesis]))

/-- Parentheses only where the precedence asks for them. -/
def print : Nat → Tree V U B → List (Token V O)
  | _, .leaf v => [.value v]
  | _, .unary u t => .operator (T.unarySymbol u) :: print (T.unaryPrecedence u) t
  | p, .binary b l r =>
    let ts := print (T.precedence b) l ++ .operator (T.binarySymbol b) :: print (T.precedence b + 1) r
    if p ≤ T.precedence b then ts else .openParenthesis :: (ts ++ [.closeParenthesis])

/-- The token may stand where an operand is expected (`true`) or behind one (`false`), and so may each
token behind it. -/
def Follows : Bool → List (Token V O) → Prop
  | true, .value _ :: ts => Follows false ts
  | true, .openParenthesis :: ts => Follows true ts
  | true, .operator o :: ts => (T.unary o).isSome ∧ Follows true ts
  | true, _ => False
  | false, [] => True
  | false, .closeParenthesis :: ts => Follows false ts
  | false, .operator o :: ts => (T.binary o).isSome ∧ Follows true ts
  | false, _ => False

variable {T}

theorem shows_print (p : Nat) (t : Tree V U B) : Shows T p t (print T p t) := by
  induction t generalizing p with
  | leaf v => exact .leaf p v
  | unary u t ih => exact .unary p (T.unary_symbol u) (ih _)
  | binary b l r ihl ihr =>
    rw [print]
    by_cases hp : p ≤ T.precedence b
    · rw [if_pos hp]
      exact .binary (T.binary_symbol b) hp (ihl _) (ihr _)
    · rw [if_neg hp]
      exact .parenthesis p (.binary (T.binary_symbol b) (Nat.zero_le _) (ihl _) (ihr _))

theorem Shows.expr {p : Nat} {t : Tree V U B} {ts : List (Token V O)} (h : Shows T p t ts) :
    Expr T ts := by
  induction h with
  | leaf p v => exact .value v
  | unary p ho _ ih => exact .unary (by rw [ho]; rfl) ih
  | binary ho _ _ _ ihl ihr => exact .binary (by rw [ho]; rfl) ihl ihr
  | parenthesis p _ ih => exact .parenthesis ih

theorem Expr.follows {ts rest : List (Token V O)} (h : Expr T ts) (hrest : Follows T false rest) :
    Follows T true (ts ++ rest) := by
  induction h generalizing rest with
  | value v => exact hrest
  | unary ho _ ih => exact ⟨ho, ih hrest⟩
  | @binary o ls rs ho _ _ ihl ihr =>
    rw [List.append_assoc, List.cons_append]
    have hright : Follows T false (.operator o :: (rs ++ rest)) := ⟨ho, ihr hrest⟩
    exact ihl hright
  | @parenthesis ts _ ih =>
    rw [List.cons_append, List.append_assoc]
    have hclose : Follows T false (.closeParenthesis :: rest) := hrest
    exact ih hclose

/-- A unary operator in front takes the leftmost operand. -/
theorem Shows.prepend {p : Nat} {t : Tree V U B} {ts : List (Token V O)} {o : O} {u : U}
    (ho : T.unary o = some u) (h : Shows T p t ts) : ∃ t', Shows T p t' (.operator o :: ts) := by
  induction h with
  | leaf p v => exact ⟨_, .unary p ho (.leaf _ v)⟩
  | unary p ho' h _ => exact ⟨_, .unary p ho (.unary _ ho' h)⟩
  | binary ho' hp _ hr ihl _ =>
    obtain ⟨l, hl⟩ := ihl
    exact ⟨_, .binary ho' hp hl hr⟩
  | parenthesis p h _ => exact ⟨_, .unary p ho (.parenthesis _ h)⟩

/-- An operand that binds tighter than the operator in front of it goes to the right end. -/
theorem Shows.append {p : Nat} {l r : Tree V U B} {ls rs : List (Token V O)} {o : O} {b : B}
    (ho : T.binary o = some b) (hp : p ≤ T.precedence b) (hl : Shows T p l ls)
    (hr : Shows T (T.precedence b + 1) r rs) : ∃ t, Shows T p t (ls ++ .operator o :: rs) := by
  induction hl with
  | leaf p v => exact ⟨_, .binary ho hp (.leaf _ v) hr⟩
  | unary p ho' h _ => exact ⟨_, .binary ho hp (.unary _ ho' h) hr⟩
  | @binary p o' c l₁ l₂ ls₁ ls₂ ho' hp' hl₁ hl₂ _ ih₂ =>
    by_cases hq : T.precedence b ≤ T.precedence c
    · exact ⟨_, .binary ho hp (.binary ho' hq hl₁ hl₂) hr⟩
    · obtain ⟨t, ht⟩ := ih₂ (by omega)
      rw [List.append_assoc, List.cons_append]
      exact ⟨_, .binary ho' hp' hl₁ ht⟩
  | parenthesis p h _ => exact ⟨_, .binary ho hp (.parenthesis _ h) hr⟩

theorem Shows.join {p q : Nat} {l r : Tree V U B} {ls rs : List (Token V O)} {o : O} {b : B}
    (ho : T.binary o = some b) (hp : p ≤ T.precedence b) (hl : Shows T p l ls) (hpq : p ≤ q)
    (hr : Shows T q r rs) : ∃ t, Shows T p t (ls ++ .operator o :: rs) := by
  induction hr generalizing l ls o b with
  | leaf q v => exact hl.append ho hp (.leaf _ v)
  | unary q ho' h _ => exact hl.append ho hp (.unary _ ho' h)
  | @binary q o' c r₁ r₂ rs₁ rs₂ ho' hq _ hr₂ ih₁ _ =>
    obtain ⟨t, ht⟩ := ih₁ ho hp hl (Nat.le_trans hpq hq)
    have happ := ht.append ho' (Nat.le_trans hpq hq) hr₂
    rwa [List.append_assoc, List.cons_append] at happ
  | parenthesis q h _ => exact hl.append ho hp (.parenthesis _ h)

theorem exists_shows {ts : List (Token V O)} (h : Expr T ts) : ∃ t, Shows T 0 t ts := by
  induction h with
  | value v => exact ⟨_, .leaf 0 v⟩
  | unary ho _ ih =>
    obtain ⟨u, hu⟩ := Option.isSome_iff_exists.1 ho
    obtain ⟨t, ht⟩ := ih
    exact ht.prepend hu
  | binary ho _ _ ihl ihr =>
    obtain ⟨b, hb⟩ := Option.isSome_iff_exists.1 ho
    obtain ⟨l, hl⟩ := ihl
    obtain ⟨r, hr⟩ := ihr
    exact hl.join hb (Nat.zero_le _) (Nat.le_refl 0) hr
  | parenthesis _ ih =>
    obtain ⟨t, ht⟩ := ih
    exact ⟨t, .parenthesis 0 ht⟩

end Operators
