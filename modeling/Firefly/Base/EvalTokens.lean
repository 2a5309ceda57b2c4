import Firefly.Base.Eval
import Mathlib.Data.List.TakeWhile

/-!
# Firefly.Base.EvalTokens

The tokens of an expression, and how `fd_eval_next` finds them. `Splits` is any way to divide a string
into tokens with spaces between them, `Scans` the one the code takes, up to the first place where it
finds no token. Where the tokens follow one another as in an expression, the code finds the tokens of
every division (`Splits.scans`).
-/

namespace Firefly
namespace Eval

open Operators

/-- `[0-9]+(.[0-9]*)?` -/
def IsNumber (s : List Char) : Prop :=
  ∃ digits fraction, digits ≠ [] ∧ (∀ c ∈ digits, isDigit c = true) ∧ (∀ c ∈ fraction, isDigit c = true) ∧
    (s = digits ∨ s = digits ++ '.' :: fraction)

/-- `[a-z][a-z0-9_]*` -/
def IsIdentifier (s : List Char) : Prop :=
  ∃ c cs, s = c :: cs ∧ isAlphabetic c = true ∧ ∀ c ∈ cs, isIdentifier c = true

abbrev Value : Type := { s : List Char // IsNumber s ∨ IsIdentifier s }

def symbols : List (List Char) := unaryOperators.map (·.string) ++ binaryOperators.map (·.string)

abbrev Symbol : Type := { s : List Char // s ∈ symbols }

abbrev Unary : Type := { operator : UnaryOperator // operator ∈ unaryOperators }

abbrev Binary : Type := { operator : BinaryOperator // operator ∈ binaryOperators }

/-- The operator tables of the code. -/
def table : Table Symbol Unary Binary where
  unary o := unaryOperators.attach.find? fun operator => operator.1.string == o.1
  binary o := binaryOperators.attach.find? fun operator => operator.1.string == o.1
  unarySymbol u := ⟨u.1.string, List.mem_append_left _ (List.mem_map_of_mem u.2)⟩
  binarySymbol b := ⟨b.1.string, List.mem_append_right _ (List.mem_map_of_mem b.2)⟩
  unaryPrecedence u := u.1.precedence
  precedence b := b.1.precedence
  unary_symbol u := by
    have h : ∀ u ∈ unaryOperators.attach, (unaryOperators.attach.find? fun operator =>
        operator.1.string == u.1.string) = some u := by decide
    exact h u (List.mem_attach _ u)
  binary_symbol b := by
    have h : ∀ b ∈ binaryOperators.attach, (binaryOperators.attach.find? fun operator =>
        operator.1.string == b.1.string) = some b := by decide
    exact h b (List.mem_attach _ b)
  precedence_lt b u := by
    have h : ∀ b ∈ binaryOperators, ∀ u ∈ unaryOperators, b.precedence < u.precedence := by decide
    exact h b.1 b.2 u.1 u.2

abbrev Tok : Type := Token Value Symbol

def text : Tok → List Char
  | .value v => v.1
  | .operator o => o.1
  | .openParenthesis => ['(']
  | .closeParenthesis => [')']

/-- A string divided into tokens, with spaces in front of each and at the end. -/
inductive Splits : List Char → List Tok → Prop where
  | nil {spaces : List Char} (h : ∀ c ∈ spaces, c = ' ') : Splits spaces []
  | cons {spaces : List Char} (h : ∀ c ∈ spaces, c = ' ') (t : Tok) {rest : List Char} {ts : List Tok}
      (hrest : Splits rest ts) : Splits (spaces ++ (text t ++ rest)) (t :: ts)

/-- The expressions of the language. -/
def Accepts (s : List Char) : Prop := ∃ ts, Splits s ts ∧ Expr table ts

/-- The token that the code returns in front of `rest`. -/
def token (t : Tok) (rest : List Char) : EvalString := ⟨some (text t ++ rest), (text t).length⟩

/-- The tokens that `fd_eval_next` finds one after the other, and the text from the first place on where
it finds none. -/
inductive Scans : List Char → List Tok → List Char → Prop where
  | stop {s : List Char} (h : (next s).length = 0) : Scans s [] (s.dropWhile isWhiteSpace)
  | token {s : List Char} {t : Tok} {rest : List Char} {ts : List Tok} {left : List Char}
      (h : next s = token t rest) (hrest : Scans rest ts left) : Scans s (t :: ts) left

@[simp] theorem chars_token (t : Tok) (rest : List Char) : (token t rest).chars = text t :=
  List.take_left

@[simp] theorem behind_token (t : Tok) (rest : List Char) : (token t rest).behind = rest :=
  List.drop_left

/-! ## Characters -/

/-- The first characters of the operators. -/
def symbolHeads : List Char := ['*', '/', '+', '-', '<', '>', '=', '!', '&', '|']

theorem symbol_head {s : List Char} (h : s ∈ symbols) : ∃ c cs, s = c :: cs ∧ c ∈ symbolHeads := by
  have hall : ∀ s ∈ symbols, s ≠ [] ∧ s.headD ' ' ∈ symbolHeads := by decide
  obtain ⟨hne, hhead⟩ := hall s h
  cases s with
  | nil => exact absurd rfl hne
  | cons c cs => exact ⟨c, cs, rfl, hhead⟩

theorem isIdentifier_of_isDigit {c : Char} (h : isDigit c = true) : isIdentifier c = true := by
  simp [isIdentifier, h]

theorem isIdentifier_of_isAlphabetic {c : Char} (h : isAlphabetic c = true) : isIdentifier c = true := by
  simp [isIdentifier, h]

theorem not_mem_symbolHeads {c : Char} (h : isIdentifier c = true) : c ∉ symbolHeads := by
  have hall : ∀ c ∈ symbolHeads, isIdentifier c = false := by
    simp [symbolHeads, isIdentifier, isAlphabetic, isDigit]
  intro hc
  rw [hall c hc] at h
  cases h

theorem not_isWhiteSpace {c : Char} (h : isIdentifier c = true) : isWhiteSpace c = false := by
  cases hc : isWhiteSpace c with
  | false => rfl
  | true =>
    rw [eq_of_beq hc] at h
    cases h

/-- No operator begins where none of their first characters stands. -/
theorem find_unary_none {c : Char} (h : c ∉ symbolHeads) (s : List Char) :
    (unaryOperators.find? fun operator => operator.string.isPrefixOf (c :: s)) = none := by
  rw [List.find?_eq_none]
  intro operator hmem
  obtain ⟨d, ds, hd, hhead⟩ := symbol_head (List.mem_append_left _ (List.mem_map_of_mem hmem))
  have hne : d ≠ c := fun heq => h (heq ▸ hhead)
  simp [hd, hne]

theorem find_binary_none {c : Char} (h : c ∉ symbolHeads) (s : List Char) :
    (binaryOperators.find? fun operator => operator.string.isPrefixOf (c :: s)) = none := by
  rw [List.find?_eq_none]
  intro operator hmem
  obtain ⟨d, ds, hd, hhead⟩ := symbol_head (List.mem_append_right _ (List.mem_map_of_mem hmem))
  have hne : d ≠ c := fun heq => h (heq ▸ hhead)
  simp [hd, hne]

/-! ## One token -/

theorem next_spaces {spaces : List Char} (h : ∀ c ∈ spaces, c = ' ') (s : List Char) :
    next (spaces ++ s) = next s := by
  have hdrop : (spaces ++ s).dropWhile isWhiteSpace = s.dropWhile isWhiteSpace := by
    induction spaces with
    | nil => rfl
    | cons c spaces ih =>
      obtain rfl : c = ' ' := h c List.mem_cons_self
      exact ih fun c hc => h c (List.mem_cons_of_mem _ hc)
  rw [next, next, hdrop]

theorem takeWhile_append_of_head {p : Char → Bool} {s rest : List Char} (hs : ∀ c ∈ s, p c = true)
    (hrest : ∀ c ∈ rest.head?, p c = false) : (s ++ rest).takeWhile p = s := by
  rw [List.takeWhile_append_of_pos hs]
  cases rest with
  | nil => simp
  | cons c rest => simp [hrest c rfl]

/-- The text behind a number does not go on with it. -/
theorem numberTail_append {digits rest : List Char} (hdigits : ∀ c ∈ digits, isDigit c = true)
    (hrest : ∀ c ∈ rest.head?, isDigit c = false ∧ c ≠ '.') :
    numberTail (digits ++ rest) = digits.length := by
  have htake := takeWhile_append_of_head hdigits fun c hc => (hrest c hc).1
  simp only [numberTail, htake, List.drop_left]
  split
  · rename_i fraction
    exact absurd rfl (hrest '.' rfl).2
  · rfl

theorem numberTail_fraction {digits fraction rest : List Char}
    (hdigits : ∀ c ∈ digits, isDigit c = true) (hfraction : ∀ c ∈ fraction, isDigit c = true)
    (hrest : ∀ c ∈ rest.head?, isDigit c = false) :
    numberTail (digits ++ '.' :: (fraction ++ rest)) = digits.length + 1 + fraction.length := by
  have htake : (digits ++ '.' :: (fraction ++ rest)).takeWhile isDigit = digits :=
    takeWhile_append_of_head hdigits fun c hc => by
      obtain rfl : '.' = c := Option.some.inj hc
      decide
  simp only [numberTail, htake, List.drop_left, takeWhile_append_of_head hfraction hrest]

/-- What stands behind a token does not go on with it. -/
def Separated : Tok → List Char → Prop
  | .value _, rest => ∀ c ∈ rest.head?, isIdentifier c = false ∧ c ≠ '.'
  | .operator _, rest => ∀ c ∈ rest.head?, c ≠ '='
  | _, _ => True

theorem next_number {s rest : List Char} (h : IsNumber s)
    (hrest : ∀ c ∈ rest.head?, isIdentifier c = false ∧ c ≠ '.') :
    next (s ++ rest) = ⟨some (s ++ rest), s.length⟩ := by
  obtain ⟨digits, fraction, hne, hdigits, hfraction, hs⟩ := h
  obtain ⟨c, digits, rfl⟩ := List.exists_cons_of_ne_nil hne
  have hc : isDigit c = true := hdigits c List.mem_cons_self
  have hid := isIdentifier_of_isDigit hc
  have htail : ∀ d ∈ digits, isDigit d = true := fun d hd => hdigits d (List.mem_cons_of_mem _ hd)
  have hrest' : ∀ c ∈ rest.head?, isDigit c = false ∧ c ≠ '.' := by
    intro c hc
    refine ⟨?_, (hrest c hc).2⟩
    cases hd : isDigit c with
    | false => rfl
    | true => exact absurd (isIdentifier_of_isDigit hd) (by rw [(hrest c hc).1]; exact Bool.false_ne_true)
  have hnext : ∀ tail, next (c :: tail) = ⟨some (c :: tail), 1 + numberTail tail⟩ := by
    intro tail
    simp only [next, List.dropWhile_cons_of_neg (Bool.eq_false_iff.1 (not_isWhiteSpace hid)),
      find_binary_none (not_mem_symbolHeads hid), find_unary_none (not_mem_symbolHeads hid), hc, if_true]
  rcases hs with rfl | rfl
  · rw [List.cons_append, hnext, numberTail_append htail hrest', List.length_cons, Nat.add_comm]
  · rw [List.append_assoc, List.cons_append, List.cons_append, hnext,
      numberTail_fraction htail hfraction fun c hc => (hrest' c hc).1]
    congr 1
    simp only [List.length_append, List.length_cons]
    omega

theorem next_identifier {s rest : List Char} (h : IsIdentifier s)
    (hrest : ∀ c ∈ rest.head?, isIdentifier c = false) :
    next (s ++ rest) = ⟨some (s ++ rest), s.length⟩ := by
  obtain ⟨c, cs, rfl, hc, hcs⟩ := h
  have hid := isIdentifier_of_isAlphabetic hc
  have hdigit : isDigit c = false := by
    simp only [isAlphabetic, isDigit, Bool.and_eq_true, decide_eq_true_eq, Char.le_def] at hc ⊢
    simp only [Bool.and_eq_false_iff, decide_eq_false_iff_not]
    right
    intro h
    have hle : 'a' ≤ '9' := Nat.le_trans hc.1 h
    exact absurd hle (by decide)
  simp only [List.cons_append, next,
    List.dropWhile_cons_of_neg (Bool.eq_false_iff.1 (not_isWhiteSpace hid)),
    find_binary_none (not_mem_symbolHeads hid), find_unary_none (not_mem_symbolHeads hid), hc, hdigit,
    if_true, takeWhile_append_of_head hcs hrest]
  simp [Nat.add_comm]

/-- The only operators that another one goes on with are those with a `=` behind them. -/
theorem next_symbol {s rest : List Char} (h : s ∈ symbols) (hrest : ∀ c ∈ rest.head?, c ≠ '=') :
    next (s ++ rest) = ⟨some (s ++ rest), s.length⟩ := by
  have hall : ∀ s ∈ symbols, (s = ['<'] ∨ s = ['>'] ∨ s = ['!']) ∨
      s = ['+'] ∨ s = ['-'] ∨ s = ['*'] ∨ s = ['/'] ∨ s = ['<', '='] ∨ s = ['>', '='] ∨ s = ['=', '='] ∨
      s = ['!', '='] ∨ s = ['&', '&'] ∨ s = ['|', '|'] := by decide
  have heq : ['='].isPrefixOf rest = false := by
    cases rest with
    | nil => rfl
    | cons c rest =>
      have hc : '=' ≠ c := (hrest c rfl).symm
      rw [List.isPrefixOf, beq_eq_false_iff_ne.2 hc, Bool.false_and]
  rcases hall s h with (rfl | rfl | rfl) |
    (rfl | rfl | rfl | rfl | rfl | rfl | rfl | rfl | rfl | rfl)
  · simp [next, binaryOperators, List.find?, List.isPrefixOf, isWhiteSpace, heq]
  · simp [next, binaryOperators, List.find?, List.isPrefixOf, isWhiteSpace, heq]
  · simp [next, binaryOperators, unaryOperators, List.find?, List.isPrefixOf, isWhiteSpace, heq]
  all_goals rfl

theorem next_token {t : Tok} {rest : List Char} (h : Separated t rest) :
    next (text t ++ rest) = token t rest := by
  cases t with
  | value v =>
    rcases v.2 with hv | hv
    · exact next_number hv h
    · exact next_identifier hv fun c hc => (h c hc).1
  | operator o => exact next_symbol o.2 h
  | openParenthesis => rfl
  | closeParenthesis => rfl

/-! ## All tokens -/

theorem head_spaces {spaces : List Char} (h : ∀ c ∈ spaces, c = ' ') {s : List Char} {P : Char → Prop}
    (hspace : P ' ') (hs : ∀ c ∈ s.head?, P c) : ∀ c ∈ (spaces ++ s).head?, P c := by
  cases spaces with
  | nil => exact hs
  | cons d spaces =>
    obtain rfl : d = ' ' := h d List.mem_cons_self
    intro c hc
    obtain rfl : ' ' = c := Option.some.inj hc
    exact hspace

theorem symbol_head_not_identifier {o : Symbol} {rest : List Char} :
    ∀ c ∈ (o.1 ++ rest).head?, isIdentifier c = false ∧ c ≠ '.' := by
  have hall : ∀ c ∈ symbolHeads, isIdentifier c = false ∧ c ≠ '.' := by
    simp [symbolHeads, isIdentifier, isAlphabetic, isDigit]
  obtain ⟨d, ds, hd, hhead⟩ := symbol_head o.2
  rw [hd]
  intro c hc
  obtain rfl : d = c := Option.some.inj hc
  exact hall _ hhead

theorem unary_head_ne {o : Symbol} {u : Unary} (h : table.unary o = some u) {rest : List Char} :
    ∀ c ∈ (o.1 ++ rest).head?, c ≠ '=' := by
  have hall : ∀ u ∈ unaryOperators, u.string ≠ [] ∧ u.string.headD ' ' ≠ '=' := by decide
  have ho := eq_of_beq (List.find?_some (p := fun operator : Unary => operator.1.string == o.1) h)
  obtain ⟨hne, hhead⟩ := hall u.1 u.2
  rw [ho] at hne hhead
  intro c hc
  cases hs : o.1 with
  | nil => exact absurd hs hne
  | cons d ds =>
    rw [hs] at hc hhead
    obtain rfl : d = c := Option.some.inj hc
    exact hhead

theorem value_head {v : Value} {rest : List Char} :
    ∀ c ∈ (v.1 ++ rest).head?, isIdentifier c = true := by
  intro c hc
  rcases v.2 with ⟨digits, fraction, hne, hdigits, -, hs⟩ | ⟨d, ds, hs, hd, -⟩
  · obtain ⟨d, digits, rfl⟩ := List.exists_cons_of_ne_nil hne
    have hd := hdigits d List.mem_cons_self
    rcases hs with hs | hs <;>
    · rw [hs] at hc
      obtain rfl : d = c := Option.some.inj hc
      exact isIdentifier_of_isDigit hd
  · rw [hs] at hc
    obtain rfl : d = c := Option.some.inj hc
    exact isIdentifier_of_isAlphabetic hd

/-- Behind an operand no letter, digit or point comes next. -/
theorem Splits.head_behind {s : List Char} {ts : List Tok} (h : Splits s ts)
    (hts : Follows table false ts) : ∀ c ∈ s.head?, isIdentifier c = false ∧ c ≠ '.' := by
  cases h with
  | nil h =>
    rw [← List.append_nil s]
    exact head_spaces h (by decide) (by simp)
  | cons h t hrest =>
    refine head_spaces h (by decide) ?_
    cases t with
    | value v => exact absurd hts not_false
    | operator o => exact symbol_head_not_identifier
    | openParenthesis => exact absurd hts not_false
    | closeParenthesis =>
      intro c hc
      obtain rfl : ')' = c := Option.some.inj hc
      decide

/-- Where an operand is expected no `=` comes next. -/
theorem Splits.head_expected {s : List Char} {ts : List Tok} (h : Splits s ts)
    (hts : Follows table true ts) : ∀ c ∈ s.head?, c ≠ '=' := by
  cases h with
  | nil h => exact absurd hts not_false
  | cons h t hrest =>
    refine head_spaces h (by decide) ?_
    cases t with
    | value v =>
      intro c hc heq
      have hid := value_head c hc
      rw [heq] at hid
      cases hid
    | operator o =>
      obtain ⟨u, hu⟩ := Option.isSome_iff_exists.1 hts.1
      exact unary_head_ne hu
    | openParenthesis =>
      intro c hc
      obtain rfl : '(' = c := Option.some.inj hc
      decide
    | closeParenthesis => exact absurd hts not_false

/-- The code divides the string in the same way: what follows a token where an expression is, does not
go on with it. -/
theorem Splits.scans {s : List Char} {ts : List Tok} (h : Splits s ts) {expected : Bool}
    (hts : Follows table expected ts) : Scans s ts [] := by
  induction h generalizing expected with
  | @nil spaces h =>
    have hdrop : spaces.dropWhile isWhiteSpace = [] := by
      rw [List.dropWhile_eq_nil_iff]
      intro c hc
      rw [h c hc]
      rfl
    have hscan : Scans spaces [] (spaces.dropWhile isWhiteSpace) := .stop (by rw [next, hdrop])
    rwa [hdrop] at hscan
  | @cons spaces h t rest ts hrest ih =>
    have hrec : Separated t rest ∧ ∃ expected, Follows table expected ts := by
      cases expected with
      | true =>
        cases t with
        | value v => exact ⟨hrest.head_behind hts, false, hts⟩
        | operator o => exact ⟨hrest.head_expected hts.2, true, hts.2⟩
        | openParenthesis => exact ⟨trivial, true, hts⟩
        | closeParenthesis => exact absurd hts not_false
      | false =>
        cases t with
        | value v => exact absurd hts not_false
        | operator o => exact ⟨hrest.head_expected hts.2, true, hts.2⟩
        | openParenthesis => exact absurd hts not_false
        | closeParenthesis => exact ⟨trivial, false, hts⟩
    obtain ⟨hsep, expected', hts'⟩ := hrec
    exact .token (by rw [next_spaces h, next_token hsep]) (ih hts')

theorem Scans.splits {s : List Char} {ts : List Tok} {left : List Char} (h : Scans s ts left)
    (hleft : left = []) : Splits s ts := by
  have hspaces : ∀ s : List Char, ∀ c ∈ s.takeWhile isWhiteSpace, c = ' ' := by
    intro s c hc
    have hw : isWhiteSpace c = true := List.mem_takeWhile_imp hc
    exact eq_of_beq hw
  induction h with
  | @stop s h =>
    refine .nil ?_
    have hs := List.takeWhile_append_dropWhile (p := isWhiteSpace) (l := s)
    rw [hleft, List.append_nil] at hs
    rw [← hs]
    exact hspaces s
  | @token s t rest ts left h hrest ih =>
    have hs : s.dropWhile isWhiteSpace = text t ++ rest := by
      rcases next_cases s with ⟨hn, -⟩ | ⟨n, hn, -⟩
      · rw [hn] at h
        cases congrArg EvalString.string h
      · rw [hn] at h
        exact Option.some.inj (congrArg EvalString.string h)
    rw [← List.takeWhile_append_dropWhile (p := isWhiteSpace) (l := s), hs]
    exact .cons (hspaces s) t (ih hleft)

/-! ## Every text has its tokens -/

/-- A text that begins with a token is that token and what is behind it. -/
theorem exists_token {start a b : List Char} {n : Nat} (hstart : start = a ++ b) (hn : n = a.length)
    (h : ∃ t, text t = a) : ∃ t rest, (⟨some start, n⟩ : EvalString) = token t rest := by
  obtain ⟨t, rfl⟩ := h
  exact ⟨t, b, by rw [token, hstart, hn]⟩

theorem exists_number {c : Char} (hc : isDigit c = true) (s : List Char) :
    ∃ t rest, (⟨some (c :: s), 1 + numberTail s⟩ : EvalString) = token t rest := by
  have hwhile : ∀ s : List Char, ∀ d ∈ s.takeWhile isDigit, isDigit d = true :=
    fun _ _ hd => List.mem_takeWhile_imp hd
  have hdigits : ∀ d ∈ c :: s.takeWhile isDigit, isDigit d = true := by
    intro d hd
    rcases List.mem_cons.1 hd with rfl | hd
    · exact hc
    · exact hwhile s d hd
  have happ := List.takeWhile_append_dropWhile (p := isDigit) (l := s)
  have hdrop : s.drop (s.takeWhile isDigit).length = s.dropWhile isDigit := by
    have hs := congrArg (List.drop (s.takeWhile isDigit).length) happ
    rw [List.drop_left] at hs
    exact hs.symm
  simp only [numberTail, hdrop]
  split
  · rename_i fraction hrest
    have hnumber : IsNumber ((c :: s.takeWhile isDigit) ++ '.' :: fraction.takeWhile isDigit) :=
      ⟨_, fraction.takeWhile isDigit, List.cons_ne_nil _ _, hdigits, hwhile _, Or.inr rfl⟩
    refine exists_token (a := (c :: s.takeWhile isDigit) ++ '.' :: fraction.takeWhile isDigit)
      (b := fraction.dropWhile isDigit) ?_ ?_ ⟨.value ⟨_, Or.inl hnumber⟩, rfl⟩
    · rw [List.append_assoc, List.cons_append, List.cons_append, List.takeWhile_append_dropWhile, ← hrest,
        happ]
    · simp only [List.length_append, List.length_cons]
      omega
  · have hnumber : IsNumber (c :: s.takeWhile isDigit) :=
      ⟨_, [], List.cons_ne_nil _ _, hdigits, by simp, Or.inl rfl⟩
    refine exists_token (a := c :: s.takeWhile isDigit) (b := s.dropWhile isDigit) ?_ ?_
      ⟨.value ⟨_, Or.inl hnumber⟩, rfl⟩
    · rw [List.cons_append, happ]
    · rw [List.length_cons, Nat.add_comm]

theorem exists_identifier {c : Char} (hc : isAlphabetic c = true) (s : List Char) :
    ∃ t rest, (⟨some (c :: s), 1 + (s.takeWhile isIdentifier).length⟩ : EvalString) = token t rest := by
  have hid : IsIdentifier (c :: s.takeWhile isIdentifier) :=
    ⟨c, _, rfl, hc, fun _ hd => List.mem_takeWhile_imp hd⟩
  refine exists_token (a := c :: s.takeWhile isIdentifier) (b := s.dropWhile isIdentifier) ?_ ?_
    ⟨.value ⟨_, Or.inr hid⟩, rfl⟩
  · rw [List.cons_append, List.takeWhile_append_dropWhile]
  · rw [List.length_cons, Nat.add_comm]

theorem exists_symbol {start s : List Char} (h : s ∈ symbols) (hstarts : s.isPrefixOf start = true) :
    ∃ t rest, (⟨some start, s.length⟩ : EvalString) = token t rest := by
  obtain ⟨b, hb⟩ := List.isPrefixOf_iff_prefix.1 hstarts
  exact exists_token hb.symm rfl ⟨.operator ⟨s, h⟩, rfl⟩

/-- Where the code finds something, it is a token. -/
theorem exists_next (s : List Char) (h : 0 < (next s).length) : ∃ t rest, next s = token t rest := by
  rw [next] at h ⊢
  generalize s.dropWhile isWhiteSpace = start at h ⊢
  cases start with
  | nil => exact absurd h (Nat.lt_irrefl 0)
  | cons c s =>
  dsimp only at h ⊢
  split at h
  · rename_i operator hfind
    have hmem := List.mem_map_of_mem (f := BinaryOperator.string) (List.mem_of_find?_eq_some hfind)
    exact exists_symbol (List.mem_append_right _ hmem) (List.find?_some
      (p := fun operator : BinaryOperator => operator.string.isPrefixOf (c :: s)) hfind)
  split at h
  · rename_i operator hfind
    have hmem := List.mem_map_of_mem (f := UnaryOperator.string) (List.mem_of_find?_eq_some hfind)
    exact exists_symbol (List.mem_append_left _ hmem) (List.find?_some
      (p := fun operator : UnaryOperator => operator.string.isPrefixOf (c :: s)) hfind)
  by_cases hdigit : isDigit c = true
  · rw [if_pos hdigit]
    exact exists_number hdigit s
  rw [if_neg hdigit] at h ⊢
  by_cases halphabetic : isAlphabetic c = true
  · rw [if_pos halphabetic]
    exact exists_identifier halphabetic s
  rw [if_neg halphabetic] at h ⊢
  by_cases hparen : (c == '(' || c == ')') = true
  · rw [if_pos hparen]
    rw [Bool.or_eq_true, beq_iff_eq, beq_iff_eq] at hparen
    rcases hparen with rfl | rfl
    · exact ⟨.openParenthesis, s, rfl⟩
    · exact ⟨.closeParenthesis, s, rfl⟩
  · rw [if_neg hparen] at h
    exact absurd h (Nat.lt_irrefl 0)

theorem exists_scans (s : List Char) : ∃ ts left, Scans s ts left := by
  induction hn : s.length using Nat.strong_induction_on generalizing s with
  | _ n ih =>
    subst hn
    by_cases hlen : 0 < (next s).length
    · obtain ⟨t, rest, ht⟩ := exists_next s hlen
      have hlt := (behind_next_length s).2 hlen
      have hbehind : (next s).behind = rest := by rw [ht, behind_token]
      rw [hbehind] at hlt
      obtain ⟨ts, left, hrest⟩ := ih _ hlt rest rfl
      exact ⟨t :: ts, left, .token ht hrest⟩
    · exact ⟨[], _, .stop (by omega)⟩

/-! ## What the parser asks of a token -/

/-- The characters that the tokens of a kind begin with. -/
def HeadOf : Tok → Char → Prop
  | .value _, c => isIdentifier c = true
  | .operator _, c => c ∈ symbolHeads
  | .openParenthesis, c => c = '('
  | .closeParenthesis, c => c = ')'

theorem text_head (t : Tok) : ∃ c cs, text t = c :: cs ∧ HeadOf t c := by
  cases t with
  | value v =>
    have h : ∀ c ∈ (v.1 ++ []).head?, isIdentifier c = true := value_head
    rcases v.2 with ⟨digits, fraction, hne, -, -, hs⟩ | ⟨d, ds, hs, -⟩
    · obtain ⟨d, digits, rfl⟩ := List.exists_cons_of_ne_nil hne
      rcases hs with hs | hs <;> exact ⟨d, _, hs, h d (by rw [hs]; rfl)⟩
    · exact ⟨d, ds, hs, h d (by rw [hs]; rfl)⟩
  | operator o => exact symbol_head o.2
  | openParenthesis => exact ⟨'(', [], rfl, rfl⟩
  | closeParenthesis => exact ⟨')', [], rfl, rfl⟩

theorem HeadOf.openParenthesis {t : Tok} (h : HeadOf t '(') : t = .openParenthesis := by
  cases t with
  | value v =>
    have hid : isIdentifier '(' = true := h
    cases hid
  | operator o =>
    have hmem : '(' ∈ symbolHeads := h
    exact absurd hmem (by decide)
  | openParenthesis => rfl
  | closeParenthesis =>
    have heq : '(' = ')' := h
    exact absurd heq (by decide)

theorem HeadOf.closeParenthesis {t : Tok} (h : HeadOf t ')') : t = .closeParenthesis := by
  cases t with
  | value v =>
    have hid : isIdentifier ')' = true := h
    cases hid
  | operator o =>
    have hmem : ')' ∈ symbolHeads := h
    exact absurd hmem (by decide)
  | openParenthesis =>
    have heq : ')' = '(' := h
    exact absurd heq (by decide)
  | closeParenthesis => rfl

theorem text_injective {t t' : Tok} (h : text t = text t') : t = t' := by
  obtain ⟨c, cs, ht, hc⟩ := text_head t
  obtain ⟨c', cs', ht', hc'⟩ := text_head t'
  obtain rfl : c = c' := List.head_eq_of_cons_eq (ht.symm.trans (h.trans ht'))
  cases t with
  | openParenthesis =>
    obtain rfl : c = '(' := hc
    exact hc'.openParenthesis.symm
  | closeParenthesis =>
    obtain rfl : c = ')' := hc
    exact hc'.closeParenthesis.symm
  | value v =>
    cases t' with
    | value v' => exact congrArg Token.value (Subtype.ext h)
    | operator o' => exact absurd hc' (not_mem_symbolHeads hc)
    | openParenthesis =>
      obtain rfl : c = '(' := hc'
      cases hc.openParenthesis
    | closeParenthesis =>
      obtain rfl : c = ')' := hc'
      cases hc.closeParenthesis
  | operator o =>
    cases t' with
    | value v' => exact absurd hc (not_mem_symbolHeads hc')
    | operator o' => exact congrArg Token.operator (Subtype.ext h)
    | openParenthesis =>
      obtain rfl : c = '(' := hc'
      cases hc.openParenthesis
    | closeParenthesis =>
      obtain rfl : c = ')' := hc'
      cases hc.closeParenthesis

theorem length_token_pos (t : Tok) (rest : List Char) : 0 < (token t rest).length := by
  obtain ⟨c, cs, ht, -⟩ := text_head t
  rw [token, ht]
  exact Nat.succ_pos _

theorem equalsString_token (t : Tok) (rest : List Char) {string : EvalString}
    (h : string.length = string.chars.length) :
    equalsString (token t rest) string = true ↔ text t = string.chars := by
  rw [equalsString, chars_token, Bool.and_eq_true, beq_iff_eq, beq_iff_eq, token, h]
  exact ⟨fun h => h.2, fun h => ⟨congrArg List.length h, h⟩⟩

theorem equals_openParenthesis (t : Tok) (rest : List Char) :
    equalsString (token t rest) openParenthesis = true ↔ t = .openParenthesis := by
  rw [equalsString_token t rest (by rfl)]
  constructor
  · intro h
    obtain ⟨c, cs, ht, hc⟩ := text_head t
    obtain rfl : c = '(' := List.head_eq_of_cons_eq (ht.symm.trans h)
    exact hc.openParenthesis
  · rintro rfl
    rfl

theorem equals_closeParenthesis (t : Tok) (rest : List Char) :
    equalsString (token t rest) closeParenthesis = true ↔ t = .closeParenthesis := by
  rw [equalsString_token t rest (by rfl)]
  constructor
  · intro h
    obtain ⟨c, cs, ht, hc⟩ := text_head t
    obtain rfl : c = ')' := List.head_eq_of_cons_eq (ht.symm.trans h)
    exact hc.closeParenthesis
  · rintro rfl
    rfl

theorem isValue_token (t : Tok) (rest : List Char) :
    isValue (token t rest) = true ↔ ∃ v, t = .value v := by
  obtain ⟨c, cs, ht, hc⟩ := text_head t
  have hval : isValue (token t rest) = (isAlphabetic c || isDigit c) := by
    rw [isValue, chars_token, ht]
  rw [hval]
  cases t with
  | value v =>
    refine ⟨fun _ => ⟨v, rfl⟩, fun _ => ?_⟩
    rcases v.2 with ⟨digits, fraction, hne, hdigits, -, hs⟩ | ⟨d, ds, hs, hd, -⟩
    · obtain ⟨d, digits, rfl⟩ := List.exists_cons_of_ne_nil hne
      have hcd : c = d := by
        rcases hs with hs | hs <;> exact List.head_eq_of_cons_eq (ht.symm.trans hs)
      rw [hcd, hdigits d List.mem_cons_self, Bool.or_true]
    · obtain rfl : c = d := List.head_eq_of_cons_eq (ht.symm.trans hs)
      rw [hd, Bool.true_or]
  | operator o =>
    have hall : ∀ c ∈ symbolHeads, (isAlphabetic c || isDigit c) = false := by
      simp [symbolHeads, isAlphabetic, isDigit]
    rw [hall c hc]
    exact ⟨fun h => (by cases h), fun ⟨v, h⟩ => (by cases h)⟩
  | openParenthesis =>
    subst hc
    exact ⟨fun h => absurd h (by decide), fun ⟨v, h⟩ => (by cases h)⟩
  | closeParenthesis =>
    subst hc
    exact ⟨fun h => absurd h (by decide), fun ⟨v, h⟩ => (by cases h)⟩

/-- A token that is not an operator has the text of none. -/
theorem text_not_mem_symbols {t : Tok} (h : ∀ o, t ≠ .operator o) : text t ∉ symbols := by
  intro hmem
  obtain ⟨d, ds, hd, hhead⟩ := symbol_head hmem
  obtain ⟨c, cs, ht, hc⟩ := text_head t
  obtain rfl : c = d := List.head_eq_of_cons_eq (ht.symm.trans hd)
  cases t with
  | value v => exact not_mem_symbolHeads hc hhead
  | operator o => exact h o rfl
  | openParenthesis =>
    obtain rfl : c = '(' := hc
    exact absurd hhead (by decide)
  | closeParenthesis =>
    obtain rfl : c = ')' := hc
    exact absurd hhead (by decide)

theorem find_text {α : Type} {l : List α} {string : α → List Char} (t : Tok) (rest : List Char) :
    (l.find? fun a => (string a).length == (token t rest).length && string a == (token t rest).chars) =
      l.find? fun a => string a == text t := by
  congr 1
  funext a
  rw [chars_token, token]
  by_cases h : string a = text t
  · simp [h]
  · simp [beq_eq_false_iff_ne.2 h]

theorem isUnary_operator (o : Symbol) (rest : List Char) :
    isUnary (token (.operator o) rest) = (table.unary o).map (·.1) := by
  rw [isUnary, find_text]
  conv_lhs => rw [← List.attach_map_subtype_val unaryOperators, List.find?_map]
  rfl

theorem isBinary_operator (o : Symbol) (rest : List Char) :
    isBinary (token (.operator o) rest) = (table.binary o).map (·.1) := by
  rw [isBinary, find_text]
  conv_lhs => rw [← List.attach_map_subtype_val binaryOperators, List.find?_map]
  rfl

theorem isUnary_none {t : Tok} (h : ∀ o, t ≠ .operator o) (rest : List Char) :
    isUnary (token t rest) = none := by
  rw [isUnary, find_text, List.find?_eq_none]
  intro operator hmem heq
  refine text_not_mem_symbols h ?_
  rw [← eq_of_beq heq]
  exact List.mem_append_left _ (List.mem_map_of_mem hmem)

theorem isBinary_none {t : Tok} (h : ∀ o, t ≠ .operator o) (rest : List Char) :
    isBinary (token t rest) = none := by
  rw [isBinary, find_text, List.find?_eq_none]
  intro operator hmem heq
  refine text_not_mem_symbols h ?_
  rw [← eq_of_beq heq]
  exact List.mem_append_right _ (List.mem_map_of_mem hmem)

end Eval
end Firefly
