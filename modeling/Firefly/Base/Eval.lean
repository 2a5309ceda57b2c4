import Firefly.Lib.Operators
import Mathlib.Data.List.Basic

/-!
# Firefly.Base.Eval

The parser of `fd_eval.c`. A position in the input is the list of the characters from there on; a
pointer to a node is its place in the heap, or the error node that is used when the heap is full or
there is none.
-/

namespace Firefly
namespace Eval

structure UnaryOperator where
  string : List Char
  precedence : Nat
  deriving DecidableEq

def unaryOperators : List UnaryOperator := [
  ⟨['+'], 7⟩,
  ⟨['-'], 7⟩,
  ⟨['!'], 7⟩]

inductive Associativity where
  | left
  | right
  deriving DecidableEq

structure BinaryOperator where
  string : List Char
  precedence : Nat
  associativity : Associativity
  deriving DecidableEq

def binaryOperators : List BinaryOperator := [
  ⟨['*'], 6, .left⟩,
  ⟨['/'], 6, .left⟩,
  ⟨['+'], 5, .left⟩,
  ⟨['-'], 5, .left⟩,
  ⟨['<', '='], 4, .left⟩,
  ⟨['<'], 4, .left⟩,
  ⟨['>', '='], 4, .left⟩,
  ⟨['>'], 4, .left⟩,
  ⟨['=', '='], 3, .left⟩,
  ⟨['!', '='], 3, .left⟩,
  ⟨['&', '&'], 2, .left⟩,
  ⟨['|', '|'], 1, .left⟩]

/-- `fd_eval_string_t`: what the pointer points at, nothing for a null pointer, and the length. -/
structure EvalString where
  string : Option (List Char)
  length : Nat
  deriving DecidableEq

def EvalString.chars (s : EvalString) : List Char := (s.string.getD []).take s.length

/-- What is behind the string. -/
def EvalString.behind (s : EvalString) : List Char := (s.string.getD []).drop s.length

inductive NodeRef where
  | errorNode
  | node (index : Nat)
  deriving DecidableEq

inductive Node where
  | leaf (token : EvalString)
  | unary (operator : UnaryOperator) (node : NodeRef)
  | binary (operator : BinaryOperator) (left right : NodeRef)
  deriving DecidableEq

/-- `fd_eval_node_heap_t`, with the nodes up to `index`. -/
structure Heap where
  nodes : List Node
  count : Nat
  deriving DecidableEq

/-- The fields of `fd_eval_t` that parsing works on. -/
structure State where
  rest : List Char
  heap : Heap
  errorNode : Option Node
  error : Bool
  deriving DecidableEq

/-- `fd_eval_allocate_node` for a node of the given contents. -/
def allocateNode (node : Node) (e : State) : NodeRef × State :=
  if e.heap.nodes.length ≥ e.heap.count then
    (.errorNode, { e with
      error := if e.heap.count > 0 then true else e.error
      errorNode := some node })
  else
    (.node e.heap.nodes.length, { e with heap := ⟨e.heap.nodes ++ [node], e.heap.count⟩ })

def isWhiteSpace (c : Char) : Bool := c == ' '

def isAlphabetic (c : Char) : Bool := 'a' ≤ c && c ≤ 'z'

def isDigit (c : Char) : Bool := '0' ≤ c && c ≤ '9'

def isIdentifier (c : Char) : Bool := isAlphabetic c || isDigit c || c == '_'

def isValue (token : EvalString) : Bool :=
  match token.chars with
  | [] => false
  | c :: _ => isAlphabetic c || isDigit c

/-- The length of a number behind its first digit. -/
def numberTail (s : List Char) : Nat :=
  let digits := (s.takeWhile isDigit).length
  match s.drop digits with
  | '.' :: fraction => digits + 1 + (fraction.takeWhile isDigit).length
  | _ => digits

/-- `fd_eval_next` from a position on. -/
def next (rest : List Char) : EvalString :=
  let start := rest.dropWhile isWhiteSpace
  match start with
  | [] => ⟨none, 0⟩
  | c :: s =>
    match binaryOperators.find? fun operator => operator.string.isPrefixOf start with
    | some operator => ⟨some start, operator.string.length⟩
    | none =>
      match unaryOperators.find? fun operator => operator.string.isPrefixOf start with
      | some operator => ⟨some start, operator.string.length⟩
      | none =>
        if isDigit c then
          ⟨some start, 1 + numberTail s⟩
        else if isAlphabetic c then
          ⟨some start, 1 + (s.takeWhile isIdentifier).length⟩
        else if c == '(' || c == ')' then
          ⟨some start, 1⟩
        else
          ⟨some start, 0⟩

def consume (e : State) : State := { e with rest := (next e.rest).behind }

def equalsString (a b : EvalString) : Bool := a.length == b.length && a.chars == b.chars

def expect (e : State) (string : EvalString) : State :=
  if equalsString (next e.rest) string then consume e else { e with error := true }

def isUnary (string : EvalString) : Option UnaryOperator :=
  unaryOperators.find? fun operator =>
    operator.string.length == string.length && operator.string == string.chars

def isBinary (string : EvalString) : Option BinaryOperator :=
  binaryOperators.find? fun operator =>
    operator.string.length == string.length && operator.string == string.chars

def openParenthesis : EvalString := ⟨some ['('], 1⟩

def closeParenthesis : EvalString := ⟨some [')'], 1⟩

theorem next_cases (rest : List Char) : (next rest = ⟨none, 0⟩ ∧ rest.dropWhile isWhiteSpace = []) ∨
    ∃ n, next rest = ⟨some (rest.dropWhile isWhiteSpace), n⟩ ∧ rest.dropWhile isWhiteSpace ≠ [] := by
  rw [next]
  rcases hstart : rest.dropWhile isWhiteSpace with _ | ⟨c, s⟩
  · exact Or.inl ⟨rfl, rfl⟩
  · refine Or.inr ?_
    dsimp only
    split
    · exact ⟨_, rfl, List.cons_ne_nil _ _⟩
    split
    · exact ⟨_, rfl, List.cons_ne_nil _ _⟩
    split
    · exact ⟨_, rfl, List.cons_ne_nil _ _⟩
    split
    · exact ⟨_, rfl, List.cons_ne_nil _ _⟩
    split
    · exact ⟨_, rfl, List.cons_ne_nil _ _⟩
    · exact ⟨_, rfl, List.cons_ne_nil _ _⟩

theorem behind_next_length (rest : List Char) :
    (next rest).behind.length ≤ rest.length ∧
      (0 < (next rest).length → (next rest).behind.length < rest.length) := by
  have hle : (rest.dropWhile isWhiteSpace).length ≤ rest.length := (List.dropWhile_sublist _).length_le
  rcases next_cases rest with ⟨h, _⟩ | ⟨n, h, hne⟩
  · rw [h]
    exact ⟨Nat.zero_le _, fun hn => absurd hn (Nat.lt_irrefl 0)⟩
  · have hpos := List.length_pos_of_ne_nil hne
    simp only [h, EvalString.behind, Option.getD_some, List.length_drop]
    omega

theorem consume_le (e : State) : (consume e).rest.length ≤ e.rest.length :=
  (behind_next_length e.rest).1

theorem consume_lt {e : State} (h : 0 < (next e.rest).length) :
    (consume e).rest.length < e.rest.length :=
  (behind_next_length e.rest).2 h

theorem isUnary_length {token : EvalString} {operator : UnaryOperator}
    (h : isUnary token = some operator) : 0 < token.length := by
  have hmem := List.mem_of_find?_eq_some h
  have hlen := List.find?_some h
  simp only [Bool.and_eq_true, beq_iff_eq] at hlen
  rw [← hlen.1]
  revert hmem
  generalize operator = o
  revert o
  decide

theorem isBinary_length {token : EvalString} {operator : BinaryOperator}
    (h : isBinary token = some operator) : 0 < token.length := by
  have hmem := List.mem_of_find?_eq_some h
  have hlen := List.find?_some h
  simp only [Bool.and_eq_true, beq_iff_eq] at hlen
  rw [← hlen.1]
  have hall : ∀ o ∈ binaryOperators, 0 < o.string.length := by decide
  exact hall _ hmem

theorem equalsString_length {a b : EvalString} (h : equalsString a b = true) : a.length = b.length := by
  simp only [equalsString, Bool.and_eq_true, beq_iff_eq] at h
  exact h.1

theorem expect_le (e : State) (string : EvalString) : (expect e string).rest.length ≤ e.rest.length := by
  rw [expect]
  split
  · exact consume_le e
  · exact Nat.le_refl _

@[simp] theorem allocateNode_rest (node : Node) (e : State) : (allocateNode node e).2.rest = e.rest := by
  rw [allocateNode]
  split <;> rfl

/-- The node of a function of the parser and the state behind it, which is not in front of the one it
was called in. -/
abbrev Parsed (e : State) : Type := { r : NodeRef × State // r.2.rest.length ≤ e.rest.length }

mutual

def highestPriority (e : State) : Parsed e :=
  let token := next e.rest
  match hu : isUnary token with
  | some unary =>
    have hlt := consume_lt (isUnary_length hu)
    let r := expression (consume e) unary.precedence
    ⟨allocateNode (.unary unary r.1.1) r.1.2, by
      rw [allocateNode_rest]
      exact Nat.le_trans r.2 (Nat.le_of_lt hlt)⟩
  | none =>
    if hp : equalsString token openParenthesis then
      have hlt := consume_lt (e := e) (by rw [equalsString_length hp]; exact Nat.one_pos)
      let r := expression (consume e) 0
      ⟨(r.1.1, expect r.1.2 closeParenthesis), Nat.le_trans (expect_le _ _) (Nat.le_trans r.2 (Nat.le_of_lt hlt))⟩
    else if isValue token then
      ⟨allocateNode (.leaf token) (consume e), by
        rw [allocateNode_rest]
        exact consume_le e⟩
    else
      ⟨(.errorNode, { e with error := true }), Nat.le_refl _⟩
termination_by (e.rest.length, 0)
decreasing_by all_goals exact Prod.Lex.left _ _ hlt

def expression (e : State) (precedence : Nat) : Parsed e :=
  let r := highestPriority e
  let s := expressionLoop r.1.1 r.1.2 precedence
  ⟨s.1, Nat.le_trans s.2 r.2⟩
termination_by (e.rest.length, 2)
decreasing_by
  · exact Prod.Lex.right _ (by decide)
  · rcases Nat.lt_or_eq_of_le r.2 with hlt | heq
    · exact Prod.Lex.left _ _ hlt
    · rw [heq]
      exact Prod.Lex.right _ (by decide)

/-- The loop of `fd_eval_expression` with the node so far. -/
def expressionLoop (node : NodeRef) (e : State) (precedence : Nat) : Parsed e :=
  match hb : isBinary (next e.rest) with
  | none => ⟨(node, e), Nat.le_refl _⟩
  | some binary =>
    if binary.precedence < precedence then
      ⟨(node, e), Nat.le_refl _⟩
    else
      have hlt := consume_lt (isBinary_length hb)
      let nextPrecedence :=
        if binary.associativity = .right then binary.precedence else 1 + binary.precedence
      let right := expression (consume e) nextPrecedence
      let a := allocateNode (.binary binary node right.1.1) right.1.2
      have ha : a.2.rest.length < e.rest.length := by
        rw [allocateNode_rest]
        exact Nat.lt_of_le_of_lt right.2 hlt
      let s := expressionLoop a.1 a.2 precedence
      ⟨s.1, Nat.le_trans s.2 (Nat.le_of_lt ha)⟩
termination_by (e.rest.length, 1)
decreasing_by
  · exact Prod.Lex.left _ _ hlt
  · exact Prod.Lex.left _ _ ha

end

/-- `fd_eval_parse`, with the number of nodes in the heap: the tree and the state. -/
def parse (string : List Char) (count : Nat) : NodeRef × State :=
  let e : State := ⟨string, ⟨[], count⟩, none, false⟩
  let r := expression e 0
  (r.1.1, expect r.1.2 ⟨none, 0⟩)

def check (string : List Char) : Bool := !(parse string 0).2.error

end Eval
end Firefly
