import Firefly.Base.EvalParse
import Mathlib.Algebra.Group.Nat.Defs
import Mathlib.Algebra.Group.Prod

/-!
# Firefly.Base.EvalHeap

What `fd_eval_parse` leaves in the heap, for any string and any heap. The tokens say how many nodes are
allocated and how many operands are missing (`tally`). A missing operand is a pointer to the error node, and
so is every node behind the end of the heap: the error node then has the contents of the last one, and may
be among its own children (`built_parse`).
-/

namespace Firefly
namespace Eval

open Operators

/-! ## Nodes and missing operands -/

/-- The number of nodes that are allocated for the tokens of an operand (`expecting`) or behind one, within
`depth` parentheses, and the number of operands that are missing. -/
def tally : List Tok → Bool → Nat → Nat × Nat
  | [], expecting, _ => (0, if expecting then 1 else 0)
  | t :: ts, expecting, depth =>
    let behind :=
      match t with
      | .operator o => if (table.binary o).isSome then (1, 0) + tally ts true depth else (0, 0)
      | .closeParenthesis =>
        match depth with
        | 0 => (0, 0)
        | depth + 1 => tally ts false depth
      | _ => (0, 0)
    if expecting then
      match t with
      | .value _ => (1, 0) + tally ts false depth
      | .operator o => if (table.unary o).isSome then (1, 0) + tally ts true depth else (0, 1) + behind
      | .openParenthesis => tally ts true (depth + 1)
      | .closeParenthesis => (0, 1) + behind
    else behind

/-- A tree in which operands may be missing. -/
abbrev Part : Type := Tree (Option Value) Unary Binary

def missing : Part → Nat
  | .leaf none => 1
  | .leaf (some _) => 0
  | .unary _ t => missing t
  | .binary _ l r => missing l + missing r

/-- The operands that are there, from left to right. -/
def values : Part → List Value
  | .leaf none => []
  | .leaf (some v) => [v]
  | .unary _ t => values t
  | .binary _ l r => values l ++ values r

/-- A tree as a part in which nothing is missing. -/
def ofTree : ExprTree → Part
  | .leaf v => .leaf (some v)
  | .unary u t => .unary u (ofTree t)
  | .binary b l r => .binary b (ofTree l) (ofTree r)

@[simp] theorem missing_ofTree (t : ExprTree) : missing (ofTree t) = 0 := by
  induction t with
  | leaf v => rfl
  | unary u t ih => exact ih
  | binary b l r ihl ihr => rw [ofTree, missing, ihl, ihr]

/-- The token is what the code finds in front of some input. -/
def Found (found : EvalString) (v : Value) : Prop :=
  ∃ input rest, next input = found ∧ found = Eval.token (.value v) rest

/-- The part at a pointer, where the error node stands for a missing operand. -/
inductive Draws (nodes : List Node) : NodeRef → Part → Prop where
  | missing : Draws nodes .errorNode (.leaf none)
  | leaf {i : Nat} {token : EvalString} {v : Value} (h : nodes[i]? = some (.leaf token))
      (ht : Found token v) : Draws nodes (.node i) (.leaf (some v))
  | unary {i : Nat} {u : Unary} {r : NodeRef} {t : Part} (h : nodes[i]? = some (.unary u.1 r))
      (ht : Draws nodes r t) : Draws nodes (.node i) (.unary u t)
  | binary {i : Nat} {b : Binary} {rl rr : NodeRef} {l r : Part}
      (h : nodes[i]? = some (.binary b.1 rl rr)) (hl : Draws nodes rl l)
      (hr : Draws nodes rr r) : Draws nodes (.node i) (.binary b l r)

theorem Draws.mono {nodes nodes' : List Node} {r : NodeRef} {t : Part} (h : Draws nodes r t)
    (hle : nodes <+: nodes') : Draws nodes' r t := by
  induction h with
  | missing => exact .missing
  | leaf h ht => exact .leaf (getElem?_of_isPrefix hle h) ht
  | unary h _ ih => exact .unary (getElem?_of_isPrefix hle h) ih
  | binary h _ _ ihl ihr => exact .binary (getElem?_of_isPrefix hle h) ihl ihr

theorem Found.chars {found : EvalString} {v : Value} (h : Found found v) : found.chars = v.1 := by
  obtain ⟨input, rest, -, rfl⟩ := h
  exact chars_token _ _

/-- The part at a pointer is the tree that is there. -/
theorem Draws.eq_ofTree {nodes : List Node} {r : NodeRef} {part : Part} {t : ExprTree} (hd : Draws nodes r part)
    (h : Represents nodes r t) : part = ofTree t := by
  induction h generalizing part with
  | leaf h ht =>
    cases hd with
    | leaf h' ht' =>
      rw [h] at h'
      cases h'
      rw [ofTree, Subtype.ext (ht'.chars.symm.trans ht)]
    | unary h' _ =>
      rw [h] at h'
      cases h'
    | binary h' _ _ =>
      rw [h] at h'
      cases h'
  | unary h _ ih =>
    cases hd with
    | leaf h' _ =>
      rw [h] at h'
      cases h'
    | unary h' hd' =>
      rw [h] at h'
      injection h' with h'
      injection h' with hu hr
      subst hr
      rw [ofTree, ih hd', Subtype.ext hu]
    | binary h' _ _ =>
      rw [h] at h'
      cases h'
  | binary h _ _ ihl ihr =>
    cases hd with
    | leaf h' _ =>
      rw [h] at h'
      cases h'
    | unary h' _ =>
      rw [h] at h'
      cases h'
    | binary h' hdl hdr =>
      rw [h] at h'
      injection h' with h'
      injection h' with hb hl hr
      subst hl
      subst hr
      rw [ofTree, ihl hdl, ihr hdr, Subtype.ext hb]

/-- The pointers in a node. -/
def Node.children : Node → List NodeRef
  | .leaf _ => []
  | .unary _ node => [node]
  | .binary _ left right => [left, right]

/-- Everything that the pointer leads to is in the heap. -/
def Clean (nodes : List Node) (r : NodeRef) : Prop := ∃ t, Draws nodes r t ∧ missing t = 0

/-- The pointer leads to the error node. -/
def Dirty (nodes : List Node) (r : NodeRef) : Prop := ∃ t, Draws nodes r t ∧ 0 < missing t

theorem dirty_errorNode (nodes : List Node) : Dirty nodes .errorNode := ⟨_, .missing, Nat.one_pos⟩

/-- What a part of the parser did with the tokens `ts`: it allocated `k` nodes, and `m` operands were missing.
With room for the nodes they are in the heap. Otherwise the last one is the error node, and it leads to
itself unless only the last one had no room and no operand is missing. -/
structure Built (ts : List Tok) (e : State) (r : NodeRef × State) (k m : Nat) : Prop where
  count_eq : r.2.heap.count = e.heap.count
  nodes_le : e.heap.nodes <+: r.2.heap.nodes
  length_eq : r.2.heap.nodes.length = min e.heap.count (e.heap.nodes.length + k)
  error : e.error = true → r.2.error = true
  fits : e.heap.nodes.length + k ≤ e.heap.count →
    r.2.errorNode = e.errorNode ∧ ∃ t, Draws r.2.heap.nodes r.1 t ∧ missing t = m
  full : e.heap.count < e.heap.nodes.length + k →
    r.1 = .errorNode ∧ (0 < e.heap.count → r.2.error = true) ∧
      ∃ node, r.2.errorNode = some node ∧
        (e.heap.nodes.length + k = e.heap.count + 1 ∧ m = 0 →
          ∀ child ∈ node.children, Clean r.2.heap.nodes child) ∧
        (¬ (e.heap.nodes.length + k = e.heap.count + 1 ∧ m = 0) →
          ∃ child ∈ node.children, Dirty r.2.heap.nodes child) ∧
        ∀ token, node = .leaf token → ∃ v, Found token v ∧ .value v ∈ ts

section Build

variable {e e₀ e₁ : State} {ts us : List Tok} {node : NodeRef} {r : NodeRef × State} {k m k' m' : Nat}

theorem allocateNode_full {contents : Node} (h : e.heap.count ≤ e.heap.nodes.length) :
    allocateNode contents e = (.errorNode, { e with
      error := if e.heap.count > 0 then true else e.error
      errorNode := some contents }) := by
  rw [allocateNode, if_pos h]

theorem allocateNode_room {contents : Node} (h : e.heap.nodes.length < e.heap.count) :
    allocateNode contents e =
      (.node e.heap.nodes.length, { e with heap := ⟨e.heap.nodes ++ [contents], e.heap.count⟩ }) := by
  rw [allocateNode, if_neg (Nat.not_le.mpr h)]

theorem getElem?_last (nodes : List Node) (contents : Node) :
    (nodes ++ [contents])[nodes.length]? = some contents := by simp

theorem built_missing (ts : List Tok) (hlen : e.heap.nodes.length ≤ e.heap.count) :
    Built ts e (.errorNode, { e with error := true }) 0 1 := by
  refine ⟨rfl, List.prefix_rfl, ?_, fun _ => rfl, ?_, ?_⟩
  · rw [Nat.add_zero, Nat.min_eq_right hlen]
  · exact fun _ => ⟨rfl, _, .missing, rfl⟩
  · intro hfull
    omega

theorem built_leaf {token : EvalString} {v : Value} (hlen : e.heap.nodes.length ≤ e.heap.count)
    (ht : Found token v) (hv : .value v ∈ ts) : Built ts e (allocateNode (.leaf token) e) 1 0 := by
  by_cases hroom : e.heap.nodes.length < e.heap.count
  · rw [allocateNode_room hroom]
    refine ⟨rfl, List.prefix_append _ _, ?_, id, ?_, ?_⟩
    · rw [List.length_append, List.length_singleton, Nat.min_eq_right hroom]
    · exact fun _ => ⟨rfl, _, .leaf (getElem?_last _ _) ht, rfl⟩
    · intro hfull
      omega
  · rw [allocateNode_full (Nat.le_of_not_lt hroom)]
    refine ⟨rfl, List.prefix_rfl, ?_, ?_, ?_, ?_⟩
    · rw [Nat.min_eq_left (by omega)]
      exact Nat.le_antisymm hlen (Nat.le_of_not_lt hroom)
    · intro herr
      simp only [herr, ite_self]
    · intro hfits
      omega
    · refine fun _ => ⟨rfl, fun hpos => if_pos hpos, _, rfl, ?_, ?_, ?_⟩
      · exact fun _ child hchild => absurd hchild List.not_mem_nil
      · intro hnot
        exact absurd ⟨by omega, rfl⟩ hnot
      · rintro token' htoken
        cases htoken
        exact ⟨v, ht, hv⟩

/-- A node over a part. -/
theorem Built.unary {u : Unary} (h : Built us e r k m) :
    Built ts e (allocateNode (.unary u.1 r.1) r.2) (k + 1) m := by
  have hlength := h.length_eq
  have hcount := h.count_eq
  by_cases hroom : e.heap.nodes.length + k < e.heap.count
  · obtain ⟨herror, t, hdraws, hmissing⟩ := h.fits (Nat.le_of_lt hroom)
    rw [allocateNode_room (by omega)]
    refine ⟨h.count_eq, h.nodes_le.trans (List.prefix_append _ _), ?_, h.error, ?_, ?_⟩
    · rw [List.length_append, List.length_singleton, hlength]
      omega
    · exact fun _ => ⟨herror, _, .unary (getElem?_last _ _) (hdraws.mono (List.prefix_append _ _)), hmissing⟩
    · intro hfull
      omega
  · rw [allocateNode_full (by omega)]
    refine ⟨h.count_eq, h.nodes_le, ?_, ?_, ?_, ?_⟩
    · simp only
      omega
    · intro herr
      simp only [h.error herr, ite_self]
    · intro hfits
      omega
    · refine fun _ => ⟨rfl, fun hpos => if_pos (by rw [hcount]; exact hpos), _, rfl, ?_, ?_, ?_⟩
      · rintro ⟨hlast, hnone⟩ child hchild
        obtain rfl := List.mem_singleton.mp hchild
        obtain ⟨-, t, hdraws, hmissing⟩ := h.fits (by omega)
        exact ⟨t, hdraws, hmissing.trans hnone⟩
      · intro hnot
        refine ⟨r.1, List.mem_singleton_self _, ?_⟩
        by_cases hfits : e.heap.nodes.length + k ≤ e.heap.count
        · obtain ⟨-, t, hdraws, hmissing⟩ := h.fits hfits
          exact ⟨t, hdraws, by omega⟩
        · rw [(h.full (Nat.lt_of_not_le hfits)).1]
          exact dirty_errorNode _
      · intro token htoken
        cases htoken

/-- A node over two parts, one behind the other. -/
theorem Built.binary {b : Binary} (hl : Built ts e (node, e₁) k m) (hr : Built us (consume e₁) r k' m') :
    Built ts e (allocateNode (.binary b.1 node r.1) r.2) (k + (k' + 1)) (m + m') := by
  have hlengthl : e₁.heap.nodes.length = min e.heap.count (e.heap.nodes.length + k) := hl.length_eq
  have hcountl : e₁.heap.count = e.heap.count := hl.count_eq
  have hlength : r.2.heap.nodes.length = min e₁.heap.count (e₁.heap.nodes.length + k') := hr.length_eq
  have hcount : r.2.heap.count = e₁.heap.count := hr.count_eq
  have hnodes : e₁.heap.nodes <+: r.2.heap.nodes := hr.nodes_le
  have herror : e₁.error = true → r.2.error = true := hr.error
  by_cases hroom : e.heap.nodes.length + k + k' < e.heap.count
  · obtain ⟨herrorl, t, hdraws, hmissing⟩ := hl.fits (by omega)
    obtain ⟨herrorr, t', hdraws', hmissing'⟩ := hr.fits (show e₁.heap.nodes.length + k' ≤ e₁.heap.count by omega)
    have hprefix := List.prefix_append r.2.heap.nodes [.binary b.1 node r.1]
    rw [allocateNode_room (by omega)]
    refine ⟨hcount.trans hcountl, hl.nodes_le.trans (hnodes.trans hprefix), ?_, ?_, ?_, ?_⟩
    · rw [List.length_append, List.length_singleton, hlength]
      omega
    · exact fun herr => herror (hl.error herr)
    · refine fun _ => ⟨herrorr.trans herrorl, .binary b t t', ?_, ?_⟩
      · exact .binary (getElem?_last _ _) (hdraws.mono (hnodes.trans hprefix)) (hdraws'.mono hprefix)
      · rw [missing, hmissing, hmissing']
    · intro hfull
      omega
  · rw [allocateNode_full (by omega)]
    refine ⟨hcount.trans hcountl, hl.nodes_le.trans hnodes, ?_, ?_, ?_, ?_⟩
    · simp only
      omega
    · intro herr
      simp only [herror (hl.error herr), ite_self]
    · intro hfits
      omega
    · refine fun _ => ⟨rfl, fun hpos => if_pos (by omega), _, rfl, ?_, ?_, ?_⟩
      · rintro ⟨hlast, hnone⟩ child hchild
        obtain ⟨-, t, hdraws, hmissing⟩ := hl.fits (by omega)
        obtain ⟨-, t', hdraws', hmissing'⟩ := hr.fits (show e₁.heap.nodes.length + k' ≤ e₁.heap.count by omega)
        rcases List.mem_cons.mp hchild with rfl | hright
        · exact ⟨t, hdraws.mono hnodes, by omega⟩
        · obtain rfl := List.mem_singleton.mp hright
          exact ⟨t', hdraws', by omega⟩
      · intro hnot
        by_cases hfits : e.heap.nodes.length + k ≤ e.heap.count
        · obtain ⟨-, t, hdraws, hmissing⟩ := hl.fits hfits
          by_cases hfits' : e₁.heap.nodes.length + k' ≤ e₁.heap.count
          · obtain ⟨-, t', hdraws', hmissing'⟩ := hr.fits hfits'
            by_cases hm : 0 < m
            · exact ⟨node, List.mem_cons_self, t, hdraws.mono hnodes, by omega⟩
            · exact ⟨r.1, List.mem_cons_of_mem _ (List.mem_singleton_self _), t', hdraws', by omega⟩
          · have hright : r.1 = .errorNode := (hr.full (Nat.lt_of_not_le hfits')).1
            refine ⟨r.1, List.mem_cons_of_mem _ (List.mem_singleton_self _), ?_⟩
            rw [hright]
            exact dirty_errorNode _
        · have hleft : node = .errorNode := (hl.full (Nat.lt_of_not_le hfits)).1
          refine ⟨node, List.mem_cons_self, ?_⟩
          rw [hleft]
          exact dirty_errorNode _
      · intro token htoken
        cases htoken

theorem Built.mono_tokens (h : Built us e r k m) (hle : us ⊆ ts) : Built ts e r k m := by
  refine ⟨h.count_eq, h.nodes_le, h.length_eq, h.error, h.fits, ?_⟩
  intro hfull
  obtain ⟨href, herror, contents, hcontents, hclean, hdirty, hleaf⟩ := h.full hfull
  refine ⟨href, herror, contents, hcontents, hclean, hdirty, ?_⟩
  intro token htoken
  obtain ⟨v, ht, hv⟩ := hleaf token htoken
  exact ⟨v, ht, hle hv⟩

/-- What stays behind when only the input and the error flag change. -/
theorem Built.expect (h : Built ts e r k m) (string : EvalString) : Built ts e (r.1, expect r.2 string) k m := by
  rw [Eval.expect]
  split
  · exact ⟨h.count_eq, h.nodes_le, h.length_eq, h.error, h.fits, h.full⟩
  · refine ⟨h.count_eq, h.nodes_le, h.length_eq, fun _ => rfl, h.fits, ?_⟩
    intro hfull
    obtain ⟨href, -, hrest⟩ := h.full hfull
    exact ⟨href, fun _ => rfl, hrest⟩

end Build

/-! ## The tokens that are consumed -/

section Tally

variable {ts : List Tok} {d : Nat}

theorem add_tally (j l k m : Nat) (x : Nat × Nat) : (j, l) + ((k, m) + x) = (j + k, l + m) + x := by
  rw [← add_assoc, Prod.mk_add_mk j k l m]

theorem tally_value (v : Value) (ts : List Tok) (d : Nat) :
    tally (.value v :: ts) true d = (1, 0) + tally ts false d := rfl

theorem tally_unary {o : Symbol} (h : (table.unary o).isSome) (ts : List Tok) (d : Nat) :
    tally (.operator o :: ts) true d = (1, 0) + tally ts true d := by
  rw [tally]
  simp only [if_true, if_pos h]

theorem tally_binary {o : Symbol} (h : (table.binary o).isSome) (ts : List Tok) (d : Nat) :
    tally (.operator o :: ts) false d = (1, 0) + tally ts true d := by
  rw [tally]
  simp only [Bool.false_eq_true, if_false, if_pos h]

theorem tally_open (ts : List Tok) (d : Nat) :
    tally (.openParenthesis :: ts) true d = tally ts true (d + 1) := rfl

theorem tally_close (ts : List Tok) (d : Nat) :
    tally (.closeParenthesis :: ts) false (d + 1) = tally ts false d := rfl

/-- Where no operand begins, one is missing. -/
theorem tally_missing (hv : ∀ v us, ts ≠ .value v :: us) (hopen : ∀ us, ts ≠ .openParenthesis :: us)
    (hu : ∀ o us, ts = .operator o :: us → table.unary o = none) :
    tally ts true d = (0, 1) + tally ts false d := by
  cases ts with
  | nil => rfl
  | cons t us =>
    cases t with
    | value v => exact absurd rfl (hv v us)
    | openParenthesis => exact absurd rfl (hopen us)
    | closeParenthesis => rfl
    | operator o =>
      have hnone : ¬ (table.unary o).isSome = true := by
        rw [hu o us rfl]
        exact Bool.false_ne_true
      rw [tally, tally]
      simp only [if_true, if_neg hnone, Bool.false_eq_true, if_false]

/-- Neither an operator nor the parenthesis that is waited for: nothing more is consumed. -/
theorem tally_stop (hb : ∀ o us, ts = .operator o :: us → table.binary o = none)
    (hclose : d = 0 ∨ ∀ us, ts ≠ .closeParenthesis :: us) : tally ts false d = (0, 0) := by
  cases ts with
  | nil => rfl
  | cons t us =>
    cases t with
    | value v => rfl
    | openParenthesis => rfl
    | operator o =>
      have hnone : ¬ (table.binary o).isSome = true := by
        rw [hb o us rfl]
        exact Bool.false_ne_true
      rw [tally]
      simp only [Bool.false_eq_true, if_false, if_neg hnone]
    | closeParenthesis =>
      cases hclose with
      | inl hzero =>
        rw [hzero]
        rfl
      | inr hno => exact absurd rfl (hno us)

end Tally

/-- Behind an expression of a precedence no operator comes next that belongs to it. -/
theorem expressionLoop_stops (n : Nat) : ∀ (e : State) (node : NodeRef) (p : Nat), e.rest.length = n →
    ∀ b, isBinary (next (expressionLoop node e p).1.2.rest) = some b → b.precedence < p := by
  induction n using Nat.strong_induction_on with
  | _ n ih =>
    intro e node p he b hb
    by_cases hstep : ∃ b, isBinary (next e.rest) = some b ∧ p ≤ b.precedence
    · obtain ⟨b', hb', hp⟩ := hstep
      rw [expressionLoop_step hb' hp] at hb
      have hlt : (applyBinary b' (1 + b'.precedence) node e).2.rest.length < n := by
        rw [applyBinary, allocateNode_rest, ← he]
        exact Nat.lt_of_le_of_lt (expression (consume e) (1 + b'.precedence)).2
          (consume_lt (isBinary_length hb'))
      exact ih _ hlt _ _ p rfl b hb
    · have hless : ∀ b, isBinary (next e.rest) = some b → b.precedence < p := by
        intro b hb
        by_contra hp
        exact hstep ⟨b, hb, Nat.not_lt.1 hp⟩
      rw [expressionLoop_stop hless] at hb
      exact hless b hb

theorem expression_stops (e : State) (p : Nat) :
    ∀ b, isBinary (next (expression e p).1.2.rest) = some b → b.precedence < p := by
  intro b hb
  rw [expression_eq] at hb
  exact expressionLoop_stops _ _ _ p rfl b hb

/-- An expression within parentheses, or the whole one, ends in front of a token that is no binary operator. -/
theorem Scans.binary_none {s : List Char} {ts : List Tok} {left : List Char} (h : Scans s ts left)
    (hstop : ∀ b, isBinary (next s) = some b → b.precedence < 0) :
    ∀ o us, ts = .operator o :: us → table.binary o = none := by
  rintro o us rfl
  obtain ⟨hnext, -⟩ := h.next_eq
  rw [hnext, isBinary_operator] at hstop
  cases hb : table.binary o with
  | none => rfl
  | some b =>
    rw [hb] at hstop
    exact absurd (hstop b.1 rfl) (Nat.not_lt_zero _)

/-! ## The parser -/

/-- The tokens of an operand or an expression, and what is built from them. -/
def Builds (e : State) (r : NodeRef × State) : Prop :=
  ∀ ts left, Scans e.rest ts left → e.heap.nodes.length ≤ e.heap.count →
    ∃ k m ts', Scans r.2.rest ts' left ∧ (∀ d, tally ts true d = (k, m) + tally ts' false d) ∧
      Built ts e r k m

section Parser

variable {e : State}

theorem highestPriority_builds
    (ih : ∀ p, (consume e).rest.length < e.rest.length → Builds (consume e) (expression (consume e) p).1) :
    Builds e (highestPriority e).1 := by
  intro ts left hscan hlen
  cases hu : isUnary (next e.rest) with
  | some u =>
    obtain ⟨o, us, rfl, ho, hrest⟩ := hscan.unary hu
    obtain ⟨k, m, ts', hscan', htally, hbuilt⟩ :=
      ih u.precedence (consume_lt (isUnary_length hu)) us left hrest hlen
    have hmem : u ∈ unaryOperators := List.mem_of_find?_eq_some hu
    have hnode : Built us e (expression (consume e) u.precedence).1 k m :=
      ⟨hbuilt.count_eq, hbuilt.nodes_le, hbuilt.length_eq, hbuilt.error, hbuilt.fits, hbuilt.full⟩
    rw [highestPriority_unary hu]
    refine ⟨k + 1, m, ts', ?_, ?_, hnode.unary (u := ⟨u, hmem⟩)⟩
    · rw [allocateNode_rest]
      exact hscan'
    · intro d
      rw [tally_unary ho, htally, add_tally, Nat.zero_add, Nat.add_comm 1 k]
  | none =>
    cases hopen : equalsString (next e.rest) openParenthesis with
    | true =>
      obtain ⟨us, rfl, hrest⟩ := hscan.equals Nat.one_pos equals_openParenthesis hopen
      have hlt := consume_lt (e := e) (by rw [equalsString_length hopen]; exact Nat.one_pos)
      obtain ⟨k, m, ts', hscan', htally, hbuilt⟩ := ih 0 hlt us left hrest hlen
      have hnone := hscan'.binary_none (expression_stops (consume e) 0)
      have hinner : Built us e (expression (consume e) 0).1 k m :=
        ⟨hbuilt.count_eq, hbuilt.nodes_le, hbuilt.length_eq, hbuilt.error, hbuilt.fits, hbuilt.full⟩
      have hnode := (hinner.mono_tokens (List.subset_cons_self .openParenthesis us)).expect closeParenthesis
      rw [highestPriority_open hu hopen]
      by_cases hclose : equalsString (next (expression (consume e) 0).1.2.rest) closeParenthesis = true
      · obtain ⟨ts'', rfl, hrest'⟩ := hscan'.equals Nat.one_pos equals_closeParenthesis hclose
        refine ⟨k, m, ts'', ?_, ?_, hnode⟩
        · rw [expect, if_pos hclose]
          exact hrest'
        · intro d
          rw [tally_open, htally, tally_close]
      · have hno : ∀ vs, ts' ≠ .closeParenthesis :: vs := by
          rintro vs rfl
          obtain ⟨hnext, -⟩ := hscan'.next_eq
          rw [hnext] at hclose
          exact hclose ((equals_closeParenthesis _ _).mpr rfl)
        refine ⟨k, m, ts', ?_, ?_, hnode⟩
        · rw [expect, if_neg hclose]
          exact hscan'
        · intro d
          rw [tally_open, htally, tally_stop hnone (Or.inr hno), tally_stop hnone (Or.inr hno)]
    | false =>
      cases hv : isValue (next e.rest) with
      | true =>
        rcases hscan.cases with ⟨-, hzero⟩ | ⟨t, us, rfl, hnext, hrest⟩
        · have hchars : (next e.rest).chars = [] := by rw [EvalString.chars, hzero, List.take_zero]
          rw [isValue, hchars] at hv
          cases hv
        · have hvalue := hv
          rw [hnext] at hvalue
          obtain ⟨v, rfl⟩ := (isValue_token t _).1 hvalue
          have hfound : Found (next e.rest) v := ⟨e.rest, (next e.rest).behind, rfl, hnext⟩
          have hleaf : Built (.value v :: us) (consume e) (allocateNode (.leaf (next e.rest)) (consume e)) 1 0 :=
            built_leaf hlen hfound List.mem_cons_self
          rw [highestPriority_value hu hopen hv]
          refine ⟨1, 0, us, ?_, tally_value v us, ?_⟩
          · rw [allocateNode_rest]
            exact hrest
          · exact ⟨hleaf.count_eq, hleaf.nodes_le, hleaf.length_eq, hleaf.error, hleaf.fits, hleaf.full⟩
      | false =>
        rw [highestPriority_error hu hopen hv]
        refine ⟨0, 1, ts, hscan, ?_, built_missing ts hlen⟩
        intro d
        apply tally_missing
        · rintro v us rfl
          obtain ⟨hnext, -⟩ := hscan.next_eq
          rw [hnext, (isValue_token _ _).mpr ⟨v, rfl⟩] at hv
          cases hv
        · rintro us rfl
          obtain ⟨hnext, -⟩ := hscan.next_eq
          rw [hnext, (equals_openParenthesis _ _).mpr rfl] at hopen
          cases hopen
        · rintro o us rfl
          obtain ⟨hnext, -⟩ := hscan.next_eq
          rw [hnext, isUnary_operator, Option.map_eq_none_iff] at hu
          exact hu

/-- The loop goes on with what was built in front of it. -/
theorem expressionLoop_builds {p : Nat}
    (ihe : ∀ p, (consume e).rest.length < e.rest.length → Builds (consume e) (expression (consume e) p).1)
    (ihl : ∀ node e', e'.rest.length < e.rest.length → ∀ e₀ all ts left k m, Built all e₀ (node, e') k m →
      Scans e'.rest ts left → e₀.heap.nodes.length ≤ e₀.heap.count →
      ∃ k' m' ts', Scans (expressionLoop node e' p).1.2.rest ts' left ∧
        (∀ d, tally ts false d = (k', m') + tally ts' false d) ∧
        Built all e₀ (expressionLoop node e' p).1 (k + k') (m + m'))
    (node : NodeRef) {e₀ : State} {all ts : List Tok} {left : List Char} {k m : Nat}
    (h : Built all e₀ (node, e) k m) (hscan : Scans e.rest ts left)
    (hlen : e₀.heap.nodes.length ≤ e₀.heap.count) :
    ∃ k' m' ts', Scans (expressionLoop node e p).1.2.rest ts' left ∧
      (∀ d, tally ts false d = (k', m') + tally ts' false d) ∧
      Built all e₀ (expressionLoop node e p).1 (k + k') (m + m') := by
  by_cases hstep : ∃ b, isBinary (next e.rest) = some b ∧ p ≤ b.precedence
  · obtain ⟨b, hb, hp⟩ := hstep
    have hlt := consume_lt (isBinary_length hb)
    have hlt' : (applyBinary b (1 + b.precedence) node e).2.rest.length < e.rest.length := by
      rw [applyBinary, allocateNode_rest]
      exact Nat.lt_of_le_of_lt (expression (consume e) (1 + b.precedence)).2 hlt
    have hlen' : e.heap.nodes.length ≤ e.heap.count := by
      have hlength : e.heap.nodes.length = min e₀.heap.count (e₀.heap.nodes.length + k) := h.length_eq
      have hcount : e.heap.count = e₀.heap.count := h.count_eq
      omega
    obtain ⟨o, us, rfl, ho, hrest⟩ := hscan.binary hb
    obtain ⟨k₁, m₁, ts₁, hscan₁, htally₁, hright⟩ := ihe (1 + b.precedence) hlt us left hrest hlen'
    have hmem : b ∈ binaryOperators := List.mem_of_find?_eq_some hb
    have hnode : Built all e₀ (applyBinary b (1 + b.precedence) node e) (k + (k₁ + 1)) (m + m₁) :=
      h.binary (b := ⟨b, hmem⟩) hright
    have hscan' : Scans (applyBinary b (1 + b.precedence) node e).2.rest ts₁ left := by
      rw [applyBinary, allocateNode_rest]
      exact hscan₁
    obtain ⟨k₂, m₂, ts₂, hscan₂, htally₂, hloop⟩ := ihl _ _ hlt' e₀ all ts₁ left _ _ hnode hscan' hlen
    rw [expressionLoop_step hb hp]
    refine ⟨k₁ + 1 + k₂, m₁ + m₂, ts₂, hscan₂, ?_, ?_⟩
    · intro d
      rw [tally_binary ho, htally₁, htally₂, add_tally, add_tally, Nat.zero_add,
        Nat.add_comm 1 k₁]
    · rw [← Nat.add_assoc, ← Nat.add_assoc m]
      exact hloop
  · have hless : ∀ b, isBinary (next e.rest) = some b → b.precedence < p := by
      intro b hb
      by_contra hp
      exact hstep ⟨b, hb, Nat.not_lt.1 hp⟩
    rw [expressionLoop_stop hless]
    refine ⟨0, 0, ts, hscan, ?_, h⟩
    intro d
    rw [Prod.mk_zero_zero, zero_add]

end Parser

theorem expression_builds (n : Nat) : ∀ e : State, e.rest.length = n →
    (∀ p node e₀ all ts left k m, Built all e₀ (node, e) k m → Scans e.rest ts left →
      e₀.heap.nodes.length ≤ e₀.heap.count →
      ∃ k' m' ts', Scans (expressionLoop node e p).1.2.rest ts' left ∧
        (∀ d, tally ts false d = (k', m') + tally ts' false d) ∧
        Built all e₀ (expressionLoop node e p).1 (k + k') (m + m')) ∧
      ∀ p, Builds e (expression e p).1 := by
  induction n using Nat.strong_induction_on with
  | _ n ih =>
    have hloop : ∀ e : State, e.rest.length ≤ n → ∀ p node e₀ all ts left k m, Built all e₀ (node, e) k m →
        Scans e.rest ts left → e₀.heap.nodes.length ≤ e₀.heap.count →
        ∃ k' m' ts', Scans (expressionLoop node e p).1.2.rest ts' left ∧
          (∀ d, tally ts false d = (k', m') + tally ts' false d) ∧
          Built all e₀ (expressionLoop node e p).1 (k + k') (m + m') := by
      intro e he p node e₀ all ts left k m h hscan hlen
      rcases Nat.lt_or_eq_of_le he with hlt | heq
      · exact (ih _ hlt e rfl).1 p node e₀ all ts left k m h hscan hlen
      · subst heq
        exact expressionLoop_builds (fun p hlt => (ih _ hlt (consume e) rfl).2 p)
          (fun node e' hlt => (ih _ hlt e' rfl).1 p node) node h hscan hlen
    intro e he
    subst he
    refine ⟨hloop e (Nat.le_refl _), ?_⟩
    intro p ts left hscan hlen
    obtain ⟨k, m, ts', hscan', htally, hbuilt⟩ :=
      highestPriority_builds (fun p hlt => (ih _ hlt (consume e) rfl).2 p) ts left hscan hlen
    obtain ⟨k', m', ts'', hscan'', htally', hbuilt'⟩ :=
      hloop _ (highestPriority e).2 p _ e ts ts' left k m hbuilt hscan' hlen
    rw [expression_eq]
    refine ⟨k + k', m + m', ts'', hscan'', ?_, hbuilt'⟩
    intro d
    rw [htally, htally', add_tally]

/-- What is built from a string. -/
theorem built_parse {s : List Char} {ts : List Tok} {left : List Char} (hscan : Scans s ts left) (count : Nat) :
    Built ts ⟨s, ⟨[], count⟩, none, false⟩ (parse s count) (tally ts true 0).1 (tally ts true 0).2 := by
  obtain ⟨k, m, ts', hscan', htally, hbuilt⟩ :=
    (expression_builds _ ⟨s, ⟨[], count⟩, none, false⟩ rfl).2 0 ts left hscan (Nat.zero_le _)
  have hnone := hscan'.binary_none (expression_stops _ 0)
  have htotal : tally ts true 0 = (k, m) := by
    rw [htally, tally_stop hnone (Or.inl rfl)]
    rfl
  rw [htotal]
  exact hbuilt.expect ⟨none, 0⟩

/-- A tree needs as many nodes as it has, and no operand is missing. -/
theorem tally_shows {p : Nat} {t : ExprTree} {us : List Tok} (h : Shows table p t us) (ts : List Tok) (d : Nat) :
    tally (us ++ ts) true d = (t.size, 0) + tally ts false d := by
  induction h generalizing ts d with
  | leaf p v => exact tally_value v ts d
  | @unary p o u t us ho _ ih =>
    rw [List.cons_append, tally_unary (by rw [ho]; rfl), ih, add_tally, Tree.size, Nat.zero_add, Nat.add_comm 1]
  | @binary p o b l r ls rs ho _ _ _ ihl ihr =>
    rw [List.append_assoc, List.cons_append, ihl, tally_binary (by rw [ho]; rfl), ihr, add_tally, add_tally,
      Tree.size, Nat.add_right_comm]
  | parenthesis p _ ih =>
    rw [List.cons_append, List.append_assoc, tally_open, ih, List.singleton_append, tally_close]

theorem tally_tree {p : Nat} {t : ExprTree} {ts : List Tok} (h : Shows table p t ts) :
    tally ts true 0 = (t.size, 0) := by
  have htally := tally_shows h [] 0
  rw [List.append_nil] at htally
  exact htally

theorem mem_values_iff {p : Nat} {t : ExprTree} {us : List Tok} (h : Shows table p t us) (v : Value) :
    .value v ∈ us ↔ v ∈ values (ofTree t) := by
  induction h with
  | leaf p w => simp [ofTree, values]
  | unary p _ _ ih =>
    simp [ofTree, values, ih]
  | binary _ _ _ _ ihl ihr =>
    simp [ofTree, values, ihl, ihr]
  | parenthesis p _ ih => simp [ih]

end Eval
end Firefly
