import Firefly.Base.EvalTokens

/-!
# Firefly.Base.EvalParse

What `fd_eval_parse` makes of the tokens that it finds. A tree that is shown by the tokens is the one
that it builds (`expression_shows`), and tokens that it reads without an error are an expression
(`expression_sound`). So a printed tree is read back whatever parentheses are added (`parse_print`), and
a string is accepted if and only if the tokens in front of the first place without a token are an
expression (`check_iff`): the end of the input and a character that begins no token are both a token of
length 0, and the code takes the one for the other.
-/

namespace Firefly
namespace Eval

open Operators

abbrev ExprTree : Type := Tree Value Unary Binary

/-- The tree at a pointer. -/
inductive Represents (nodes : List Node) : NodeRef → ExprTree → Prop where
  | leaf {i : Nat} {token : EvalString} {v : Value} (h : nodes[i]? = some (.leaf token))
      (ht : token.chars = v.1) : Represents nodes (.node i) (.leaf v)
  | unary {i : Nat} {u : Unary} {r : NodeRef} {t : ExprTree} (h : nodes[i]? = some (.unary u.1 r))
      (ht : Represents nodes r t) : Represents nodes (.node i) (.unary u t)
  | binary {i : Nat} {b : Binary} {rl rr : NodeRef} {l r : ExprTree}
      (h : nodes[i]? = some (.binary b.1 rl rr)) (hl : Represents nodes rl l)
      (hr : Represents nodes rr r) : Represents nodes (.node i) (.binary b l r)

theorem getElem?_of_isPrefix {nodes nodes' : List Node} (h : nodes <+: nodes') {i : Nat} {node : Node}
    (hi : nodes[i]? = some node) : nodes'[i]? = some node := by
  obtain ⟨more, rfl⟩ := h
  obtain ⟨hlt, -⟩ := List.getElem?_eq_some_iff.1 hi
  rw [List.getElem?_append_left hlt, hi]

theorem Represents.mono {nodes nodes' : List Node} {r : NodeRef} {t : ExprTree}
    (h : Represents nodes r t) (hle : nodes <+: nodes') : Represents nodes' r t := by
  induction h with
  | leaf h ht => exact .leaf (getElem?_of_isPrefix hle h) ht
  | unary h _ ih => exact .unary (getElem?_of_isPrefix hle h) ih
  | binary h _ _ ihl ihr => exact .binary (getElem?_of_isPrefix hle h) ihl ihr

/-! ## The heap -/

/-- The heap has room for some nodes, or there is none. -/
def Room (n : Nat) (e : State) : Prop :=
  0 < e.heap.count → e.heap.nodes.length + n ≤ e.heap.count

/-- The state after some nodes were put into the heap, if there is one. -/
structure Extends (n : Nat) (e e' : State) : Prop where
  count_eq : e'.heap.count = e.heap.count
  error_eq : e'.error = e.error
  nodes_le : e.heap.nodes <+: e'.heap.nodes
  length_eq : 0 < e.heap.count → e'.heap.nodes.length = e.heap.nodes.length + n

theorem Extends.trans {m n : Nat} {e e' e'' : State} (h : Extends m e e') (h' : Extends n e' e'') :
    Extends (m + n) e e'' := by
  refine ⟨h'.count_eq.trans h.count_eq, h'.error_eq.trans h.error_eq, h.nodes_le.trans h'.nodes_le, ?_⟩
  intro hpos
  rw [h'.length_eq (by rw [h.count_eq]; exact hpos), h.length_eq hpos, Nat.add_assoc]

theorem Room.mono {m n : Nat} {e : State} (h : Room n e) (hle : m ≤ n) : Room m e := by
  intro hpos
  have hroom := h hpos
  omega

theorem Room.after {m n : Nat} {e e' : State} (h : Room (m + n) e) (he : Extends m e e') :
    Room n e' := by
  intro hpos
  rw [he.count_eq] at hpos ⊢
  have hroom := h hpos
  rw [he.length_eq hpos]
  omega

theorem allocateNode_extends (node : Node) {e : State} (h : Room 1 e) :
    Extends 1 e (allocateNode node e).2 := by
  rw [allocateNode]
  split
  · rename_i hfull
    have hzero : ¬ e.heap.count > 0 := by
      intro hpos
      have hroom := h hpos
      omega
    exact ⟨rfl, if_neg hzero, List.prefix_rfl, fun hpos => absurd hpos hzero⟩
  · exact ⟨rfl, rfl, List.prefix_append _ _, fun _ => by simp⟩

theorem allocateNode_get (node : Node) {e : State} (h : Room 1 e) (hpos : 0 < e.heap.count) :
    (allocateNode node e).1 = .node e.heap.nodes.length ∧
      (allocateNode node e).2.heap.nodes[e.heap.nodes.length]? = some node := by
  have hroom := h hpos
  have hlt : ¬ e.heap.nodes.length ≥ e.heap.count := by omega
  rw [allocateNode, if_neg hlt]
  exact ⟨rfl, by simp⟩

theorem allocateNode_error {node : Node} {e : State} (h : (allocateNode node e).2.error = false) :
    e.error = false := by
  rw [allocateNode] at h
  split at h
  · dsimp only at h
    split at h
    · cases h
    · exact h
  · exact h

/-! ## One step of the parser -/

theorem consume_extends (e : State) : Extends 0 e (consume e) :=
  ⟨rfl, rfl, List.prefix_rfl, fun _ => rfl⟩

theorem Scans.cases {s : List Char} {ts : List Tok} {left : List Char} (h : Scans s ts left) :
    (ts = [] ∧ (next s).length = 0) ∨
      ∃ t ts', ts = t :: ts' ∧ next s = Eval.token t (next s).behind ∧ Scans (next s).behind ts' left := by
  cases h with
  | stop h => exact Or.inl ⟨rfl, h⟩
  | @token s t rest ts' left h hrest =>
    refine Or.inr ⟨t, ts', rfl, ?_⟩
    rw [h, behind_token]
    exact ⟨rfl, hrest⟩

theorem Scans.next_eq {s : List Char} {t : Tok} {ts : List Tok} {left : List Char}
    (h : Scans s (t :: ts) left) : next s = Eval.token t (next s).behind ∧ Scans (next s).behind ts left := by
  rcases h.cases with ⟨heq, -⟩ | ⟨t', ts', heq, hn, hrest⟩
  · cases heq
  · cases heq
    exact ⟨hn, hrest⟩

theorem isUnary_stop {s : EvalString} (h : s.length = 0) : isUnary s = none := by
  cases hs : isUnary s with
  | none => rfl
  | some u => exact absurd (isUnary_length hs) (by omega)

theorem isBinary_stop {s : EvalString} (h : s.length = 0) : isBinary s = none := by
  cases hs : isBinary s with
  | none => rfl
  | some b => exact absurd (isBinary_length hs) (by omega)

theorem expression_eq (e : State) (p : Nat) :
    (expression e p).1 = (expressionLoop (highestPriority e).1.1 (highestPriority e).1.2 p).1 := by
  rw [expression]

theorem highestPriority_unary {e : State} {u : UnaryOperator} (h : isUnary (next e.rest) = some u) :
    (highestPriority e).1 = allocateNode (.unary u (expression (consume e) u.precedence).1.1)
      (expression (consume e) u.precedence).1.2 := by
  rw [highestPriority]
  split
  · rename_i u' hu
    rw [h] at hu
    cases hu
    rfl
  · rename_i hu
    rw [h] at hu
    cases hu

theorem highestPriority_open {e : State} (hu : isUnary (next e.rest) = none)
    (h : equalsString (next e.rest) openParenthesis = true) :
    (highestPriority e).1 = ((expression (consume e) 0).1.1,
      expect (expression (consume e) 0).1.2 closeParenthesis) := by
  rw [highestPriority]
  split
  · rename_i u' hu'
    rw [hu] at hu'
    cases hu'
  · rw [dif_pos h]

theorem highestPriority_value {e : State} (hu : isUnary (next e.rest) = none)
    (h : equalsString (next e.rest) openParenthesis = false) (hv : isValue (next e.rest) = true) :
    (highestPriority e).1 = allocateNode (.leaf (next e.rest)) (consume e) := by
  rw [highestPriority]
  split
  · rename_i u' hu'
    rw [hu] at hu'
    cases hu'
  · rw [dif_neg (Bool.eq_false_iff.1 h), if_pos hv]

theorem highestPriority_error {e : State} (hu : isUnary (next e.rest) = none)
    (h : equalsString (next e.rest) openParenthesis = false) (hv : isValue (next e.rest) = false) :
    (highestPriority e).1 = (.errorNode, { e with error := true }) := by
  rw [highestPriority]
  split
  · rename_i u' hu'
    rw [hu] at hu'
    cases hu'
  · rw [dif_neg (Bool.eq_false_iff.1 h), if_neg (Bool.eq_false_iff.1 hv)]

theorem expressionLoop_stop {node : NodeRef} {e : State} {p : Nat}
    (h : ∀ b, isBinary (next e.rest) = some b → b.precedence < p) :
    (expressionLoop node e p).1 = (node, e) := by
  rw [expressionLoop]
  split
  · rfl
  · rename_i b hb
    rw [if_pos (h b hb)]

/-- The node of an operator and its right operand, and the state behind it. -/
def applyBinary (b : BinaryOperator) (nextPrecedence : Nat) (node : NodeRef) (e : State) :
    NodeRef × State :=
  let right := expression (consume e) nextPrecedence
  allocateNode (.binary b node right.1.1) right.1.2

theorem associativity_left {token : EvalString} {b : BinaryOperator} (h : isBinary token = some b) :
    b.associativity = .left := by
  have hall : ∀ b ∈ binaryOperators, b.associativity = .left := by decide
  exact hall b (List.mem_of_find?_eq_some h)

theorem expressionLoop_step {node : NodeRef} {e : State} {p : Nat} {b : BinaryOperator}
    (h : isBinary (next e.rest) = some b) (hp : p ≤ b.precedence) :
    (expressionLoop node e p).1 =
      (expressionLoop (applyBinary b (1 + b.precedence) node e).1
        (applyBinary b (1 + b.precedence) node e).2 p).1 := by
  rw [expressionLoop]
  split
  · rename_i hb
    rw [h] at hb
    cases hb
  · rename_i b' hb
    rw [h] at hb
    cases hb
    rw [if_neg (Nat.not_lt.2 hp)]
    have hassoc : (if b.associativity = .right then b.precedence else 1 + b.precedence) =
        1 + b.precedence := by
      rw [associativity_left h]
      rfl
    have hcongr : ∀ q, (if b.associativity = .right then b.precedence else 1 + b.precedence) = q →
        (expressionLoop (applyBinary b (if b.associativity = .right then b.precedence else
          1 + b.precedence) node e).1 (applyBinary b (if b.associativity = .right then b.precedence else
          1 + b.precedence) node e).2 p).1 =
        (expressionLoop (applyBinary b q node e).1 (applyBinary b q node e).2 p).1 := by
      rintro q rfl
      rfl
    exact hcongr _ hassoc

/-! ## Trees that are shown by the tokens -/

/-- No operator comes next that binds tighter. -/
def Stops (p : Nat) (ts : List Tok) : Prop :=
  ∀ o ts' b, ts = .operator o :: ts' → table.binary o = some b → table.precedence b ≤ p

theorem Stops.mono {p q : Nat} {ts : List Tok} (h : Stops p ts) (hpq : p ≤ q) : Stops q ts :=
  fun o ts' b hts hb => Nat.le_trans (h o ts' b hts hb) hpq

theorem expressionLoop_end {q : Nat} {ts : List Tok} {left : List Char} {node : NodeRef} {e : State}
    (h : ∀ o ts' b, ts = .operator o :: ts' → table.binary o = some b → table.precedence b < q)
    (hscan : Scans e.rest ts left) : (expressionLoop node e q).1 = (node, e) := by
  refine expressionLoop_stop fun b hb => ?_
  rcases hscan.cases with ⟨-, hlen⟩ | ⟨t, ts', rfl, hnext, -⟩
  · rw [isBinary_stop hlen] at hb
    cases hb
  · rw [hnext] at hb
    cases t with
    | operator o =>
      rw [isBinary_operator] at hb
      obtain ⟨b', hb', rfl⟩ := Option.map_eq_some_iff.1 hb
      exact h o ts' b' rfl hb'
    | _ =>
      rw [isBinary_none (fun o h => by cases h)] at hb
      cases hb

/-- The tree was read: the state behind it, and the node that stands for it. -/
structure Read (t : ExprTree) (ts : List Tok) (left : List Char) (e : State) (r : NodeRef × State) :
    Prop where
  extends_state : Extends t.size e r.2
  scans : Scans r.2.rest ts left
  represents : 0 < e.heap.count → Represents r.2.heap.nodes r.1 t

theorem read_leaf {e : State} {v : Value} {ts : List Tok} {left : List Char}
    (hscan : Scans e.rest (.value v :: ts) left) (hroom : Room 1 e) :
    Read (.leaf v) ts left e (highestPriority e).1 := by
  obtain ⟨hnext, hrest⟩ := hscan.next_eq
  have hu : isUnary (next e.rest) = none := by
    rw [hnext]
    exact isUnary_none (fun o h => by cases h) _
  have hopen : equalsString (next e.rest) openParenthesis = false := by
    rw [hnext, Bool.eq_false_iff]
    intro h
    cases (equals_openParenthesis _ _).1 h
  have hv : isValue (next e.rest) = true := by
    rw [hnext]
    exact (isValue_token _ _).2 ⟨v, rfl⟩
  rw [highestPriority_value hu hopen hv]
  refine ⟨(consume_extends e).trans (allocateNode_extends _ hroom), ?_, fun hpos => ?_⟩
  · rw [allocateNode_rest]
    exact hrest
  · obtain ⟨href, hget⟩ := allocateNode_get (.leaf (next e.rest)) (e := consume e) hroom hpos
    rw [href]
    refine .leaf hget ?_
    rw [hnext, chars_token]
    rfl

/-- A node over one that was read. -/
theorem Read.unary {e e₁ : State} {u : Unary} {t : ExprTree} {ts : List Tok} {left : List Char}
    {r : NodeRef × State} (h : Read t ts left e₁ r) (he : Extends 0 e e₁)
    (hroom : Room (t.size + 1) e₁) :
    Read (.unary u t) ts left e (allocateNode (.unary u.1 r.1) r.2) := by
  have hroom' : Room 1 r.2 := hroom.after h.extends_state
  have halloc := allocateNode_extends (.unary u.1 r.1) hroom'
  refine ⟨?_, ?_, fun hpos => ?_⟩
  · have hext := he.trans (h.extends_state.trans halloc)
    rwa [Nat.zero_add] at hext
  · rw [allocateNode_rest]
    exact h.scans
  · have hpos₁ : 0 < e₁.heap.count := by rw [he.count_eq]; exact hpos
    have hpos' : 0 < r.2.heap.count := by rw [h.extends_state.count_eq]; exact hpos₁
    obtain ⟨href, hget⟩ := allocateNode_get (.unary u.1 r.1) hroom' hpos'
    rw [href]
    exact .unary hget ((h.represents hpos₁).mono halloc.nodes_le)

theorem Read.binary {e e₁ : State} {b : Binary} {l t : ExprTree} {ts ts' : List Tok}
    {left : List Char} {node : NodeRef} {r : NodeRef × State} (hl : Read l ts' left e (node, e₁))
    (h : Read t ts left (consume e₁) r) (hroom : Room (l.size + t.size + 1) e) :
    Read (.binary b l t) ts left e (allocateNode (.binary b.1 node r.1) r.2) := by
  have hextends : Extends (l.size + t.size) e r.2 := by
    have hext := hl.extends_state.trans ((consume_extends e₁).trans h.extends_state)
    rwa [Nat.zero_add] at hext
  have hroom' : Room 1 r.2 := hroom.after hextends
  have halloc := allocateNode_extends (.binary b.1 node r.1) hroom'
  refine ⟨hextends.trans halloc, ?_, fun hpos => ?_⟩
  · rw [allocateNode_rest]
    exact h.scans
  · have hpos₁ : 0 < (consume e₁).heap.count := by
      show 0 < e₁.heap.count
      rw [hl.extends_state.count_eq]
      exact hpos
    have hpos' : 0 < r.2.heap.count := by rw [hextends.count_eq]; exact hpos
    obtain ⟨href, hget⟩ := allocateNode_get (.binary b.1 node r.1) hroom' hpos'
    rw [href]
    have hnodes := (consume_extends e₁).nodes_le.trans (h.extends_state.nodes_le.trans halloc.nodes_le)
    exact .binary hget ((hl.represents hpos).mono hnodes) ((h.represents hpos₁).mono halloc.nodes_le)

/-- Up to the tokens of a tree the parser is in its loop with the tree's node. -/
theorem expression_shows {p : Nat} {t : ExprTree} {us : List Tok} (h : Shows table p t us) :
    ∀ {e : State} {q : Nat} {ts : List Tok} {left : List Char}, q ≤ p → Scans e.rest (us ++ ts) left →
      Stops p ts → Room t.size e →
      ∃ r, (expression e q).1 = (expressionLoop r.1 r.2 q).1 ∧ Read t ts left e r := by
  induction h with
  | leaf p v =>
    intro e q ts left _ hscan _ hroom
    exact ⟨_, expression_eq e q, read_leaf hscan hroom⟩
  | @unary p o u t us ho _ ih =>
    intro e q ts left _ hscan hstops hroom
    obtain ⟨hnext, hrest⟩ := hscan.next_eq
    have hu : isUnary (next e.rest) = some u.1 := by rw [hnext, isUnary_operator, ho]; rfl
    have hroom' : Room (t.size + 1) (consume e) := hroom
    obtain ⟨r, hr, hread⟩ := ih (e := consume e) (q := table.unaryPrecedence u) (Nat.le_refl _) hrest
      (fun _ _ b _ _ => Nat.le_of_lt (table.precedence_lt b u)) (hroom'.mono (by omega))
    rw [expressionLoop_end (fun _ _ b _ _ => table.precedence_lt b u) hread.scans] at hr
    refine ⟨_, expression_eq e q, ?_⟩
    rw [highestPriority_unary hu]
    have hr' : (expression (consume e) u.1.precedence).1 = r := hr
    rw [hr']
    exact hread.unary (consume_extends e) hroom'
  | @binary p o b l r ls rs ho hp _ _ ihl ihr =>
    intro e q ts left hq hscan hstops hroom
    rw [List.append_assoc, List.cons_append] at hscan
    have hstopsl : Stops (table.precedence b) (.operator o :: (rs ++ ts)) := by
      intro o' ts' b' hts hb'
      cases hts
      rw [ho] at hb'
      cases hb'
      exact Nat.le_refl _
    have hroom' : Room (l.size + r.size + 1) e := hroom
    obtain ⟨⟨node, e₁⟩, heql, hreadl⟩ := ihl (Nat.le_trans hq hp) hscan hstopsl (hroom'.mono (by omega))
    obtain ⟨hnext, hrest⟩ := hreadl.scans.next_eq
    have hb : isBinary (next e₁.rest) = some b.1 := by rw [hnext, isBinary_operator, ho]; rfl
    have hroomr : Room r.size (consume e₁) :=
      (Room.after (hroom'.mono (by omega)) hreadl.extends_state : Room r.size e₁)
    obtain ⟨⟨noder, e₂⟩, heqr, hreadr⟩ := ihr (e := consume e₁) (q := table.precedence b + 1)
      (Nat.le_refl _) hrest (hstops.mono (by omega)) hroomr
    have hend : ∀ o ts' b', ts = .operator o :: ts' → table.binary o = some b' →
        table.precedence b' < table.precedence b + 1 := by
      intro o' ts' b' hts hb'
      exact Nat.lt_succ_of_le (Nat.le_trans (hstops o' ts' b' hts hb') hp)
    rw [expressionLoop_end hend hreadr.scans] at heqr
    refine ⟨applyBinary b.1 (1 + b.1.precedence) node e₁, ?_, ?_⟩
    · rw [heql]
      exact expressionLoop_step hb (Nat.le_trans hq hp)
    · have heqr' : (expression (consume e₁) (1 + b.1.precedence)).1 = (noder, e₂) := by
        rw [Nat.add_comm]
        exact heqr
      rw [applyBinary]
      simp only [heqr']
      exact hreadl.binary hreadr hroom'
  | @parenthesis p t us _ ih =>
    intro e q ts left _ hscan _ hroom
    rw [List.cons_append, List.append_assoc] at hscan
    obtain ⟨hnext, hrest⟩ := hscan.next_eq
    have hu : isUnary (next e.rest) = none := by
      rw [hnext]
      exact isUnary_none (fun o h => by cases h) _
    have hopen : equalsString (next e.rest) openParenthesis = true := by
      rw [hnext]
      exact (equals_openParenthesis _ _).2 rfl
    obtain ⟨⟨node, e₁⟩, heq, hread⟩ := ih (e := consume e) (q := 0) (Nat.le_refl _) hrest
      (fun _ _ _ hts => by cases hts) hroom
    rw [expressionLoop_end (fun _ _ _ hts => by cases hts) hread.scans] at heq
    obtain ⟨hclose, hrest'⟩ := hread.scans.next_eq
    have hexpect : expect e₁ closeParenthesis = consume e₁ := by
      rw [expect, if_pos]
      rw [hclose]
      exact (equals_closeParenthesis _ _).2 rfl
    refine ⟨_, expression_eq e q, ?_⟩
    rw [highestPriority_open hu hopen, heq, hexpect]
    refine ⟨?_, hrest', hread.represents⟩
    have hext := (consume_extends e).trans (hread.extends_state.trans (consume_extends e₁))
    rwa [Nat.zero_add, Nat.add_zero] at hext

theorem equals_end {s : EvalString} : equalsString s ⟨none, 0⟩ = true ↔ s.length = 0 := by
  rw [equalsString, Bool.and_eq_true, beq_iff_eq]
  refine ⟨fun h => h.1, fun h => ⟨h, ?_⟩⟩
  rw [EvalString.chars, h, List.take_zero]
  rfl

theorem parse_shows {s : List Char} {ts : List Tok} {left : List Char} {t : ExprTree} {count : Nat}
    (hscan : Scans s ts left) (h : Shows table 0 t ts) (hcount : 0 < count → t.size ≤ count) :
    (parse s count).2.error = false ∧
      (0 < count → Represents (parse s count).2.heap.nodes (parse s count).1 t) := by
  let e : State := ⟨s, ⟨[], count⟩, none, false⟩
  have hroom : Room t.size e := fun hpos => by
    show 0 + t.size ≤ count
    rw [Nat.zero_add]
    exact hcount hpos
  rw [← List.append_nil ts] at hscan
  obtain ⟨r, hr, hread⟩ := expression_shows h (e := e) (q := 0) (Nat.le_refl _) hscan
    (fun _ _ _ hts => by cases hts) hroom
  rw [expressionLoop_end (fun _ _ _ hts => by cases hts) hread.scans] at hr
  have hexpect : expect r.2 ⟨none, 0⟩ = consume r.2 := by
    rcases hread.scans.cases with ⟨-, hlen⟩ | ⟨t', ts', hts, -⟩
    · rw [expect, if_pos (equals_end.2 hlen)]
    · cases hts
  have hparse : parse s count = (r.1, consume r.2) := by
    show ((expression e 0).1.1, expect (expression e 0).1.2 ⟨none, 0⟩) = _
    rw [hr, hexpect]
  rw [hparse]
  exact ⟨hread.extends_state.error_eq, hread.represents⟩

/-! ## Tokens that are read without an error -/

/-- Without an error behind it a part of the parser had none in front, and read tokens with `P`. -/
def Consumes (e e' : State) (P : List Tok → Prop) : Prop :=
  e'.error = false → e.error = false ∧ ∀ ts left, Scans e.rest ts left →
    ∃ us vs, ts = us ++ vs ∧ Scans e'.rest vs left ∧ P us

/-- An operator's right operand, or one more pair of operator and operand, behind a string. -/
def Continues (us : List Tok) : Prop := ∀ ls, Expr table ls → Expr table (ls ++ us)

theorem Scans.unary {s : List Char} {ts : List Tok} {left : List Char} (h : Scans s ts left)
    {u : UnaryOperator} (hu : isUnary (next s) = some u) :
    ∃ o ts', ts = .operator o :: ts' ∧ (table.unary o).isSome ∧ Scans (next s).behind ts' left := by
  rcases h.cases with ⟨-, hlen⟩ | ⟨t, ts', rfl, hnext, hrest⟩
  · rw [isUnary_stop hlen] at hu
    cases hu
  · rw [hnext] at hu
    cases t with
    | operator o =>
      rw [isUnary_operator] at hu
      obtain ⟨u', hu', -⟩ := Option.map_eq_some_iff.1 hu
      exact ⟨o, ts', rfl, by rw [hu']; rfl, hrest⟩
    | _ =>
      rw [isUnary_none (fun o h => by cases h)] at hu
      cases hu

theorem Scans.binary {s : List Char} {ts : List Tok} {left : List Char} (h : Scans s ts left)
    {b : BinaryOperator} (hb : isBinary (next s) = some b) :
    ∃ o ts', ts = .operator o :: ts' ∧ (table.binary o).isSome ∧ Scans (next s).behind ts' left := by
  rcases h.cases with ⟨-, hlen⟩ | ⟨t, ts', rfl, hnext, hrest⟩
  · rw [isBinary_stop hlen] at hb
    cases hb
  · rw [hnext] at hb
    cases t with
    | operator o =>
      rw [isBinary_operator] at hb
      obtain ⟨b', hb', -⟩ := Option.map_eq_some_iff.1 hb
      exact ⟨o, ts', rfl, by rw [hb']; rfl, hrest⟩
    | _ =>
      rw [isBinary_none (fun o h => by cases h)] at hb
      cases hb

theorem Scans.equals {s : List Char} {ts : List Tok} {left : List Char} (h : Scans s ts left)
    {string : EvalString} {t₀ : Tok} (hlen : 0 < string.length)
    (hiff : ∀ t rest, equalsString (Eval.token t rest) string = true ↔ t = t₀)
    (heq : equalsString (next s) string = true) :
    ∃ ts', ts = t₀ :: ts' ∧ Scans (next s).behind ts' left := by
  rcases h.cases with ⟨-, hzero⟩ | ⟨t, ts', rfl, hnext, hrest⟩
  · rw [equalsString_length heq] at hzero
    omega
  · rw [hnext] at heq
    obtain rfl := (hiff t _).1 heq
    exact ⟨ts', rfl, hrest⟩

theorem expect_error {e : State} {string : EvalString} (h : (expect e string).error = false) :
    e.error = false ∧ equalsString (next e.rest) string = true ∧ expect e string = consume e := by
  rw [expect] at h ⊢
  split at h
  · rename_i heq
    exact ⟨h, heq, if_pos heq⟩
  · cases h

section Sound

variable {e : State}

theorem highestPriority_consumes
    (ih : ∀ p, (consume e).rest.length < e.rest.length →
      Consumes (consume e) (expression (consume e) p).1.2 (Expr table)) :
    Consumes e (highestPriority e).1.2 (Expr table) := by
  intro herr
  cases hu : isUnary (next e.rest) with
  | some u =>
    rw [highestPriority_unary hu] at herr ⊢
    obtain ⟨he, hread⟩ := ih u.precedence (consume_lt (isUnary_length hu)) (allocateNode_error herr)
    refine ⟨he, fun ts left hscan => ?_⟩
    obtain ⟨o, ts', rfl, ho, hrest⟩ := hscan.unary hu
    obtain ⟨us, vs, rfl, hvs, hus⟩ := hread ts' left hrest
    refine ⟨.operator o :: us, vs, rfl, ?_, .unary ho hus⟩
    rw [allocateNode_rest]
    exact hvs
  | none =>
    cases hopen : equalsString (next e.rest) openParenthesis with
    | true =>
      rw [highestPriority_open hu hopen] at herr ⊢
      obtain ⟨herr', hclose, hexpect⟩ := expect_error herr
      have hlt := consume_lt (e := e) (by rw [equalsString_length hopen]; exact Nat.one_pos)
      obtain ⟨he, hread⟩ := ih 0 hlt herr'
      refine ⟨he, fun ts left hscan => ?_⟩
      obtain ⟨ts', rfl, hrest⟩ := hscan.equals Nat.one_pos equals_openParenthesis hopen
      obtain ⟨us, vs, rfl, hvs, hus⟩ := hread ts' left hrest
      obtain ⟨vs', rfl, hrest'⟩ := hvs.equals Nat.one_pos equals_closeParenthesis hclose
      refine ⟨.openParenthesis :: (us ++ [.closeParenthesis]), vs', by simp, ?_, .parenthesis hus⟩
      show Scans (expect _ closeParenthesis).rest vs' left
      rw [hexpect]
      exact hrest'
    | false =>
      cases hv : isValue (next e.rest) with
      | true =>
        rw [highestPriority_value hu hopen hv] at herr ⊢
        have he : (consume e).error = false := allocateNode_error herr
        refine ⟨he, fun ts left hscan => ?_⟩
        rcases hscan.cases with ⟨-, hlen⟩ | ⟨t, ts', rfl, hnext, hrest⟩
        · have hchars : (next e.rest).chars = [] := by rw [EvalString.chars, hlen, List.take_zero]
          rw [isValue, hchars] at hv
          cases hv
        · rw [hnext] at hv
          obtain ⟨v, rfl⟩ := (isValue_token t _).1 hv
          refine ⟨[.value v], ts', rfl, ?_, .value v⟩
          rw [allocateNode_rest]
          exact hrest
      | false =>
        rw [highestPriority_error hu hopen hv] at herr
        cases herr

theorem expressionLoop_consumes {p : Nat}
    (ihe : ∀ p, (consume e).rest.length < e.rest.length →
      Consumes (consume e) (expression (consume e) p).1.2 (Expr table))
    (ihl : ∀ node e', e'.rest.length < e.rest.length →
      Consumes e' (expressionLoop node e' p).1.2 Continues) (node : NodeRef) :
    Consumes e (expressionLoop node e p).1.2 Continues := by
  intro herr
  by_cases hstep : ∃ b, isBinary (next e.rest) = some b ∧ p ≤ b.precedence
  · obtain ⟨b, hb, hp⟩ := hstep
    rw [expressionLoop_step hb hp] at herr ⊢
    have hlt := consume_lt (isBinary_length hb)
    have hlt' : (applyBinary b (1 + b.precedence) node e).2.rest.length < e.rest.length := by
      rw [applyBinary, allocateNode_rest]
      exact Nat.lt_of_le_of_lt (expression (consume e) (1 + b.precedence)).2 hlt
    obtain ⟨herr', hread'⟩ := ihl _ _ hlt' herr
    obtain ⟨he, hread⟩ := ihe (1 + b.precedence) hlt (allocateNode_error herr')
    refine ⟨he, fun ts left hscan => ?_⟩
    obtain ⟨o, ts', rfl, ho, hrest⟩ := hscan.binary hb
    obtain ⟨us, vs, rfl, hvs, hus⟩ := hread ts' left hrest
    have hvs₁ : Scans (applyBinary b (1 + b.precedence) node e).2.rest vs left := by
      rw [applyBinary, allocateNode_rest]
      exact hvs
    obtain ⟨us', vs', rfl, hvs', hus'⟩ := hread' vs left hvs₁
    refine ⟨.operator o :: (us ++ us'), vs', by simp, hvs', fun ls hls => ?_⟩
    have hexpr := hus' _ (Expr.binary ho hls hus)
    rwa [List.append_assoc, List.cons_append] at hexpr
  · have hstop : (expressionLoop node e p).1 = (node, e) := expressionLoop_stop fun b hb => by
      by_contra hp
      exact hstep ⟨b, hb, Nat.not_lt.1 hp⟩
    rw [hstop] at herr ⊢
    refine ⟨herr, fun ts left hscan => ⟨[], ts, rfl, hscan, fun ls hls => ?_⟩⟩
    rwa [List.append_nil]

end Sound

theorem expression_consumes (n : Nat) : ∀ e : State, e.rest.length = n →
    (∀ p node, Consumes e (expressionLoop node e p).1.2 Continues) ∧
      ∀ p, Consumes e (expression e p).1.2 (Expr table) := by
  induction n using Nat.strong_induction_on with
  | _ n ih =>
    have hloop : ∀ e : State, e.rest.length ≤ n → ∀ p node,
        Consumes e (expressionLoop node e p).1.2 Continues := by
      intro e he p node
      rcases Nat.lt_or_eq_of_le he with hlt | heq
      · exact (ih _ hlt e rfl).1 p node
      · subst heq
        exact expressionLoop_consumes (fun p hlt => (ih _ hlt (consume e) rfl).2 p)
          (fun node e' hlt => (ih _ hlt e' rfl).1 p node) node
    intro e he
    subst he
    refine ⟨hloop e (Nat.le_refl _), fun p herr => ?_⟩
    rw [expression_eq] at herr ⊢
    obtain ⟨herr', hread'⟩ := hloop _ (highestPriority e).2 p _ herr
    obtain ⟨hE, hread⟩ := highestPriority_consumes (fun p hlt => (ih _ hlt (consume e) rfl).2 p) herr'
    refine ⟨hE, fun ts left hscan => ?_⟩
    obtain ⟨us, vs, rfl, hvs, hus⟩ := hread ts left hscan
    obtain ⟨us', vs', rfl, hvs', hus'⟩ := hread' vs left hvs
    exact ⟨us ++ us', vs', by simp, hvs', hus' us hus⟩

theorem parse_sound {s : List Char} {ts : List Tok} {left : List Char} {count : Nat}
    (hscan : Scans s ts left) (h : (parse s count).2.error = false) : Expr table ts := by
  obtain ⟨herr, hend, -⟩ := expect_error h
  obtain ⟨-, hread⟩ := (expression_consumes _ _ rfl).2 0 herr
  obtain ⟨us, vs, rfl, hvs, hus⟩ := hread ts left hscan
  rcases hvs.cases with ⟨rfl, -⟩ | ⟨t, ts', rfl, hnext, -⟩
  · rwa [List.append_nil]
  · rw [hnext, equals_end] at hend
    have hpos := length_token_pos t (next (expression ⟨s, ⟨[], count⟩, none, false⟩ 0).1.2.rest).behind
    omega

theorem check_scans {s : List Char} {ts : List Tok} {left : List Char} (hscan : Scans s ts left) :
    check s = true ↔ Expr table ts := by
  rw [check, Bool.not_eq_true']
  constructor
  · exact parse_sound hscan
  · intro h
    obtain ⟨t, ht⟩ := exists_shows h
    exact (parse_shows hscan ht fun hpos => absurd hpos (Nat.lt_irrefl 0)).1

theorem Scans.unique {s : List Char} {ts ts' : List Tok} {left left' : List Char}
    (h : Scans s ts left) (h' : Scans s ts' left') : ts = ts' ∧ left = left' := by
  induction h generalizing ts' left' with
  | stop h =>
    cases h' with
    | stop => exact ⟨rfl, rfl⟩
    | token hn _ =>
      rw [hn] at h
      exact absurd h (Nat.ne_of_gt (length_token_pos _ _))
  | @token s t rest ts left hn _ ih =>
    cases h' with
    | stop h =>
      rw [hn] at h
      exact absurd h (Nat.ne_of_gt (length_token_pos _ _))
    | @token _ t' rest' ts' _ hn' hrest' =>
      have heq : Eval.token t rest = Eval.token t' rest' := hn.symm.trans hn'
      have htext : text t = text t' := by
        rw [← chars_token t rest, heq, chars_token]
      have hrest : rest = rest' := by
        rw [← behind_token t rest, heq, behind_token]
      obtain rfl := text_injective htext
      subst hrest
      obtain ⟨rfl, rfl⟩ := ih hrest'
      exact ⟨rfl, rfl⟩

/-- The language is that of the strings whose tokens the code finds up to the end. -/
theorem accepts_scans {s : List Char} {ts : List Tok} {left : List Char} (h : Scans s ts left) :
    Accepts s ↔ left = [] ∧ Expr table ts := by
  constructor
  · rintro ⟨ts', hsplits, hexpr⟩
    have hfollows : Follows table true (ts' ++ []) := hexpr.follows trivial
    rw [List.append_nil] at hfollows
    obtain ⟨rfl, rfl⟩ := h.unique (hsplits.scans hfollows)
    exact ⟨rfl, hexpr⟩
  · rintro ⟨hleft, hexpr⟩
    exact ⟨ts, h.splits hleft, hexpr⟩

theorem check_iff (s : List Char) : (check s = true ↔ Accepts s) ↔
    ¬ ∃ ts left, Scans s ts left ∧ left ≠ [] ∧ Expr table ts := by
  obtain ⟨ts, left, h⟩ := exists_scans s
  rw [check_scans h, accepts_scans h]
  constructor
  · rintro hiff ⟨ts', left', h', hleft, hexpr⟩
    obtain ⟨rfl, rfl⟩ := h.unique h'
    exact hleft (hiff.1 hexpr).1
  · intro hnone
    refine ⟨fun hexpr => ⟨?_, hexpr⟩, fun hand => hand.2⟩
    by_contra hleft
    exact hnone ⟨ts, left, h, hleft, hexpr⟩

/-- The text `1 $`: what is left begins with no token. -/
theorem check_dollar : check ['1', ' ', '$'] = true ∧ ¬ Accepts ['1', ' ', '$'] := by
  have hone : IsNumber ['1'] := ⟨['1'], [], by simp, by simp [isDigit], by simp, Or.inl rfl⟩
  have hscan : Scans ['1', ' ', '$'] [.value ⟨['1'], Or.inl hone⟩] ['$'] :=
    @Scans.token _ _ [' ', '$'] _ _ rfl (.stop rfl)
  refine ⟨(check_scans hscan).2 (.value _), fun h => ?_⟩
  have hleft := ((accepts_scans hscan).1 h).1
  cases hleft

/-! ## Printing -/

/-- Tokens with spaces between them. -/
def spaced : List Tok → List Char
  | [] => []
  | [t] => text t
  | t :: ts => text t ++ ' ' :: spaced ts

theorem Splits.space {s : List Char} {ts : List Tok} (h : Splits s ts) : Splits (' ' :: s) ts := by
  have hcons : ∀ spaces : List Char, (∀ c ∈ spaces, c = ' ') → ∀ c ∈ ' ' :: spaces, c = ' ' :=
    fun _ hs => List.forall_mem_cons.2 ⟨rfl, hs⟩
  cases h with
  | nil hs => exact .nil (hcons _ hs)
  | cons hs t hrest =>
    rw [← List.cons_append]
    exact .cons (hcons _ hs) t hrest

theorem splits_spaced (ts : List Tok) : Splits (spaced ts) ts := by
  have hnone : ∀ c ∈ ([] : List Char), c = ' ' := fun _ hc => absurd hc List.not_mem_nil
  induction ts with
  | nil => exact .nil hnone
  | cons t ts ih =>
    cases ts with
    | nil =>
      have h : Splits ([] ++ (text t ++ [])) [t] := .cons hnone t (.nil hnone)
      rwa [List.nil_append, List.append_nil] at h
    | cons t' ts =>
      have h : Splits ([] ++ (text t ++ ' ' :: spaced (t' :: ts))) (t :: t' :: ts) :=
        .cons hnone t ih.space
      exact h

/-- Parsing makes the tree, without an error. -/
def Parses (s : List Char) (count : Nat) (t : ExprTree) : Prop :=
  (parse s count).2.error = false ∧ Represents (parse s count).2.heap.nodes (parse s count).1 t

theorem parse_print (t : ExprTree) (count : Nat) (hcount : t.size ≤ count) :
    Parses (spaced (print table 0 t)) count t ∧
      ∀ ts, Shows table 0 t ts → Parses (spaced ts) count t := by
  have hparse : ∀ ts, Shows table 0 t ts → Parses (spaced ts) count t := by
    intro ts hts
    have hfollows : Follows table true (ts ++ []) := hts.expr.follows trivial
    rw [List.append_nil] at hfollows
    have hpos : 0 < count := Nat.lt_of_lt_of_le t.size_pos hcount
    obtain ⟨herr, hrep⟩ := parse_shows ((splits_spaced ts).scans hfollows) hts fun _ => hcount
    exact ⟨herr, hrep hpos⟩
  exact ⟨hparse _ (shows_print 0 t), hparse⟩

/-- `(a + a) * a` -/
def sampleTree : ExprTree :=
  let a : Tree Value Unary Binary := .leaf ⟨['a'], Or.inr ⟨'a', [], rfl, by simp [isAlphabetic], by simp⟩⟩
  .binary ⟨⟨['*'], 6, .left⟩, by decide⟩ (.binary ⟨⟨['+'], 5, .left⟩, by decide⟩ a a) a

theorem parse_print_sample : Parses (spaced (print table 0 sampleTree)) 5 sampleTree ∧
    ∀ ts, Shows table 0 sampleTree ts → Parses (spaced ts) 5 sampleTree :=
  parse_print sampleTree 5 (by decide)

end Eval
end Firefly
