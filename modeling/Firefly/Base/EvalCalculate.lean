import Firefly.Base.EvalHeap
import Firefly.Base.EvalValue

/-!
# Firefly.Base.EvalCalculate

`fd_eval_calculate` for any string, any heap and any symbols. It comes to an end, and it reports success only
for the tree of the expression, if and only if every node finds room in the heap, or only the last one does
not and no operand is missing. Two kinds of strings are apart: with no heap at all a single operand is
evaluated, and text behind an expression where no token begins is not noticed (`guarded_iff`). With a node for
each character and all symbols known the calculation succeeds for the strings that `fd_eval_check` accepts
(`success_check`).
-/

namespace Firefly
namespace Eval

open Operators

/-! ## The evaluation of what is in the heap -/

section Evaluate

variable {env : Environment} {e : State} {r : NodeRef} {st : Status} {fuel : Nat}

/-- The values that are evaluated without an error: literals, and symbols that the callback knows. -/
def known (env : Environment) (v : Value) : Bool :=
  v.1 == trueToken.chars || v.1 == falseToken.chars || isDigit (v.1.headD ' ') ||
    (env.getSymbolValue.bind fun callback => callback v.1).isSome

@[simp] theorem Status.assert_error (st : Status) (c : Bool) : (st.assert c).error = st.error := by
  unfold Status.assert; split <;> rfl

theorem evaluateLeaf_error (token : EvalString) (h : st.error = true) :
    (evaluateLeaf env token st).2.error = true := by
  unfold evaluateLeaf
  split
  · exact h
  split
  · exact h
  split
  · exact h
  split
  · split
    · rw [parseReal, Status.assert_error, h]
    · rw [parseInteger, Status.assert_error, h]
  · rw [getSymbolValue]
    split
    · exact h
    · rfl

/-- What is read as what, by the characters of the token. -/
theorem evaluateLeaf_token (env : Environment) (v : Value) (rest : List Char) (st : Status) :
    evaluateLeaf env (Eval.token (.value v) rest) st =
      if v.1 = trueToken.chars then (initializeBoolean true, st)
      else if v.1 = falseToken.chars then (initializeBoolean true, st)
      else if isDigit (v.1.headD ' ') then
        if '.' ∈ v.1 then parseReal env.reals (Eval.token (.value v) rest) st
        else parseInteger (Eval.token (.value v) rest) st
      else getSymbolValue env (Eval.token (.value v) rest) st := by
  have htrue := @equalsString_token (.value v) rest trueToken rfl
  have hfalse := @equalsString_token (.value v) rest falseToken rfl
  have hchars : (Eval.token (.value v) rest).chars = v.1 := chars_token _ _
  unfold evaluateLeaf
  rw [if_neg (Nat.ne_of_gt (length_token_pos (.value v) rest)), hchars]
  simp only [htrue, hfalse, text]

theorem evaluateLeaf_found {token : EvalString} {v : Value} (h : Found token v) (st : Status) :
    (evaluateLeaf env token st).2.error = (st.error || !known env v) := by
  obtain ⟨input, rest, -, rfl⟩ := h
  have hchars : (Eval.token (.value v) rest).chars = v.1 := chars_token _ _
  rw [evaluateLeaf_token, known]
  by_cases h₁ : v.1 = trueToken.chars
  · rw [if_pos h₁, beq_iff_eq.mpr h₁]
    simp
  rw [if_neg h₁, beq_false_of_ne h₁]
  by_cases h₂ : v.1 = falseToken.chars
  · rw [if_pos h₂, beq_iff_eq.mpr h₂]
    simp
  rw [if_neg h₂, beq_false_of_ne h₂]
  by_cases h₃ : isDigit (v.1.headD ' ') = true
  · rw [if_pos h₃, h₃]
    split
    · rw [parseReal, Status.assert_error]
      simp
    · rw [parseInteger, Status.assert_error]
      simp
  rw [if_neg h₃, Bool.eq_false_iff.mpr h₃, getSymbolValue, hchars]
  cases env.getSymbolValue.bind fun callback => callback v.1 with
  | none => simp
  | some value => simp

theorem evaluate_error {x : EvalValue × Status} (h : evaluate env e fuel r st = some x) (hst : st.error = true) :
    x.2.error = true := by
  induction fuel generalizing r st x with
  | zero => cases h
  | succ fuel ih =>
    rw [evaluate] at h
    split at h
    · cases h
    · obtain rfl := Option.some.inj h
      exact evaluateLeaf_error _ hst
    · obtain ⟨y, hnode, rfl⟩ := Option.map_eq_some_iff.mp h
      have herror : y.2.error = true := ih hnode hst
      exact herror
    · obtain ⟨a, hleft, hrest⟩ := Option.bind_eq_some_iff.mp h
      obtain ⟨b, hright, rfl⟩ := Option.map_eq_some_iff.mp hrest
      have herror : b.2.error = true := ih hright (ih hleft hst)
      exact herror

/-- A part is evaluated where it does not lead back to itself. -/
theorem evaluate_of_draws {t : Part} (h : Draws e.heap.nodes r t) (hend : missing t = 0 ∨ e.errorNode = none)
    (hfuel : t.size ≤ fuel) (env : Environment) (st : Status) : ∃ x, evaluate env e fuel r st = some x := by
  induction h generalizing fuel st with
  | missing =>
    obtain ⟨fuel, rfl⟩ := Nat.exists_eq_succ_of_ne_zero (Nat.ne_of_gt hfuel)
    cases hend with
    | inl hnone => cases hnone
    | inr hnone =>
      rw [evaluate, State.at, hnone]
      exact ⟨_, rfl⟩
  | leaf h ht =>
    obtain ⟨fuel, rfl⟩ := Nat.exists_eq_succ_of_ne_zero (Nat.ne_of_gt hfuel)
    rw [evaluate, State.at, h]
    exact ⟨_, rfl⟩
  | unary h _ ih =>
    rw [Tree.size] at hfuel
    obtain ⟨fuel, rfl⟩ := Nat.exists_eq_succ_of_ne_zero (n := fuel) (by omega)
    obtain ⟨x, hx⟩ := @ih fuel hend (by omega) st
    rw [evaluate, State.at, h]
    simp only [hx, Option.map_some]
    exact ⟨_, rfl⟩
  | binary h _ _ ihl ihr =>
    rw [Tree.size] at hfuel
    obtain ⟨fuel, rfl⟩ := Nat.exists_eq_succ_of_ne_zero (n := fuel) (by omega)
    rw [missing] at hend
    obtain ⟨a, ha⟩ := @ihl fuel (hend.imp_left fun h => by omega) (by omega) st
    obtain ⟨b, hb⟩ := @ihr fuel (hend.imp_left fun h => by omega) (by omega) a.2
    rw [evaluate, State.at, h]
    simp only [ha, hb, Option.bind_some, Option.map_some]
    exact ⟨_, rfl⟩

/-- An error is set by the values that are not known, and by no others. -/
theorem evaluate_status {t : Part} {x : EvalValue × Status} (h : Draws e.heap.nodes r t) (hnone : missing t = 0)
    (heval : evaluate env e fuel r st = some x) :
    x.2.error = (st.error || (values t).any fun v => !known env v) := by
  induction h generalizing fuel st x with
  | missing => cases hnone
  | @leaf i token v h ht =>
    cases fuel with
    | zero => cases heval
    | succ fuel =>
      rw [evaluate, State.at, h] at heval
      obtain rfl := Option.some.inj heval
      rw [evaluateLeaf_found ht, values, List.any_cons, List.any_nil, Bool.or_false]
  | @unary i u r t h _ ih =>
    cases fuel with
    | zero => cases heval
    | succ fuel =>
      rw [evaluate, State.at, h] at heval
      obtain ⟨y, hnode, rfl⟩ := Option.map_eq_some_iff.mp heval
      have herror : y.2.error = (st.error || (values t).any fun v => !known env v) := ih hnone hnode
      exact herror
  | @binary i b rl rr l r h _ _ ihl ihr =>
    cases fuel with
    | zero => cases heval
    | succ fuel =>
      rw [missing] at hnone
      rw [evaluate, State.at, h] at heval
      obtain ⟨a, hleft, hrest⟩ := Option.bind_eq_some_iff.mp heval
      obtain ⟨b, hright, rfl⟩ := Option.map_eq_some_iff.mp hrest
      have herror : b.2.error = (a.2.error || (values r).any fun v => !known env v) := ihr (by omega) hright
      rw [ihl (by omega) hleft, Bool.or_assoc, ← List.any_append] at herror
      exact herror

/-- An error node that leads back to itself is never evaluated, and nothing that leads to it is. -/
theorem evaluate_of_dirty {node : Node} (hnode : e.errorNode = some node)
    (hloop : ∃ child ∈ node.children, Dirty e.heap.nodes child) (h : Dirty e.heap.nodes r) :
    evaluate env e fuel r st = none := by
  induction fuel generalizing r st with
  | zero => rfl
  | succ fuel ih =>
    have hchildren : ∀ node : Node, (∃ child ∈ node.children, Dirty e.heap.nodes child) →
        e.at r = some node → evaluate env e (fuel + 1) r st = none := by
      rintro node ⟨child, hchild, hdirty⟩ hat
      rw [evaluate, hat]
      cases node with
      | leaf token => cases hchild
      | unary operator child' =>
        obtain rfl := List.mem_singleton.mp hchild
        simp only [ih hdirty, Option.map_none]
      | binary operator left right =>
        simp only
        cases hleft : evaluate env e fuel left st with
        | none => rfl
        | some x =>
          rcases List.mem_cons.mp hchild with rfl | hright
          · rw [ih hdirty] at hleft
            cases hleft
          · obtain rfl := List.mem_singleton.mp hright
            rw [Option.bind_some, ih hdirty, Option.map_none]
    obtain ⟨t, hdraws, hmissing⟩ := h
    cases hdraws with
    | missing =>
      apply hchildren node hloop
      rw [State.at, hnode]
      rfl
    | leaf _ _ => exact absurd hmissing (Nat.lt_irrefl 0)
    | unary hat hchild => exact hchildren _ ⟨_, List.mem_singleton_self _, _, hchild, hmissing⟩ hat
    | @binary i b rl rr l r hat hl hr =>
      rw [missing] at hmissing
      by_cases hleft : 0 < missing l
      · exact hchildren _ ⟨rl, List.mem_cons_self, l, hl, hleft⟩ hat
      · exact hchildren _ ⟨rr, List.mem_cons_of_mem _ (List.mem_singleton_self _), r, hr, by omega⟩ hat

end Evaluate

/-! ## Calculating -/

/-- The parse tree of an expression. -/
def IsTree (s : List Char) (t : ExprTree) : Prop := ∃ ts, Splits s ts ∧ Shows table 0 t ts

/-- `fd_eval_calculate` comes to an end, it reports success only for the tree of the string, which it has in
the heap, and it reports none where the heap is too small for the tree. -/
structure Guarded (env : Environment) (s : List Char) (count : Nat) : Prop where
  terminates : ∃ fuel r, calculate env fuel s count = some r
  complete : ∀ fuel r, calculate env fuel s count = some r → r.success = true →
    ∃ t, IsTree s t ∧ Represents (parse s count).2.heap.nodes (parse s count).1 t
  small : ∀ t, IsTree s t → count < t.size → ∀ fuel r, calculate env fuel s count = some r → r.success = false

/-- Every node that the tokens need has room, and the text behind an expression ends there or a symbol in it is
not known. Or all but the last node have room, and then no operand is missing; with no heap at all the last one
is a single operand, and it is not accepted. -/
def Suffices (env : Environment) (ts : List Tok) (left : List Char) (count : Nat) : Prop :=
  (tally ts true 0).1 ≤ count ∧ (left ≠ [] → Expr table ts → ∃ v, .value v ∈ ts ∧ known env v = false) ∨
    (tally ts true 0).1 = count + 1 ∧ (tally ts true 0).2 = 0 ∧
      (count = 0 → Expr table ts → ∀ v, .value v ∈ ts → known env v = false)

section Calculate

variable {env : Environment} {s left : List Char} {ts : List Tok} {count fuel : Nat} {t : ExprTree}

theorem calculate_eq_some_iff {r : EvalResult} : calculate env fuel s count = some r ↔
    ∃ x, evaluate env (parse s count).2 fuel (parse s count).1 ⟨(parse s count).2.error, 0, []⟩ = some x ∧
      r = ⟨!x.2.error, x.1, x.2.performed⟩ := by
  rw [calculate, Option.map_eq_some_iff]
  constructor
  · rintro ⟨x, heval, rfl⟩
    exact ⟨x, heval, rfl⟩
  · rintro ⟨x, heval, rfl⟩
    exact ⟨x, heval, rfl⟩

theorem calculate_success {r : EvalResult} (h : calculate env fuel s count = some r) (hs : r.success = true) :
    (parse s count).2.error = false := by
  obtain ⟨x, heval, rfl⟩ := calculate_eq_some_iff.mp h
  cases herror : (parse s count).2.error with
  | false => rfl
  | true =>
    have hset : x.2.error = true := evaluate_error heval herror
    rw [hset] at hs
    cases hs

/-- With room for every node the calculation comes to an end. -/
theorem calculate_fits (hscan : Scans s ts left) (hfits : (tally ts true 0).1 ≤ count) :
    ∃ fuel r, calculate env fuel s count = some r := by
  obtain ⟨hnode, t, hdraws, -⟩ := (built_parse hscan count).fits (by simpa using hfits)
  obtain ⟨x, hx⟩ := evaluate_of_draws hdraws (Or.inr hnode) (Nat.le_refl _) env ⟨(parse s count).2.error, 0, []⟩
  exact ⟨t.size, _, calculate_eq_some_iff.mpr ⟨x, hx, rfl⟩⟩

/-- An expression with room in the heap is there, without an error. -/
theorem draws_parse (hscan : Scans s ts left) (hshows : Shows table 0 t ts) (hroom : t.size ≤ count) :
    (parse s count).2.error = false ∧ Draws (parse s count).2.heap.nodes (parse s count).1 (ofTree t) := by
  have hnodes : (Eval.tally ts true 0).1 = t.size := congrArg Prod.fst (tally_tree hshows)
  obtain ⟨herror, hrepresents⟩ := parse_shows hscan hshows fun _ => hroom
  obtain ⟨-, part, hdraws, -⟩ := (built_parse hscan count).fits (by rw [hnodes]; simpa using hroom)
  obtain rfl := hdraws.eq_ofTree (hrepresents (Nat.lt_of_lt_of_le t.size_pos hroom))
  exact ⟨herror, hdraws⟩

/-- What evaluation adds to the errors of an expression that is in the heap. -/
theorem calculate_status (hscan : Scans s ts left) (hshows : Shows table 0 t ts) (hroom : t.size ≤ count)
    {r : EvalResult} (h : calculate env fuel s count = some r) :
    r.success = (values (ofTree t)).all (known env) := by
  obtain ⟨herror, hdraws⟩ := draws_parse hscan hshows hroom
  obtain ⟨x, heval, rfl⟩ := calculate_eq_some_iff.mp h
  simp only [evaluate_status hdraws (missing_ofTree t) heval, herror, Bool.false_or, List.not_any_eq_all_not,
    Bool.not_not]

theorem IsTree.tally (h : IsTree s t) (hscan : Scans s ts left) :
    Eval.tally ts true 0 = (t.size, 0) ∧ left = [] ∧ Shows table 0 t ts := by
  obtain ⟨ts', hsplits, hshows⟩ := h
  have hfollows : Follows table true (ts' ++ []) := hshows.expr.follows trivial
  rw [List.append_nil] at hfollows
  obtain ⟨rfl, rfl⟩ := hscan.unique (hsplits.scans hfollows)
  exact ⟨tally_tree hshows, rfl, hshows⟩

/-- A tree of one node has one value. -/
theorem value_unique (hsize : t.size = 1) {v w : Value} (hv : v ∈ values (ofTree t)) (hw : w ∈ values (ofTree t)) :
    v = w := by
  cases t with
  | leaf u => exact (List.mem_singleton.mp hv).trans (List.mem_singleton.mp hw).symm
  | unary u t =>
    rw [Tree.size] at hsize
    have ht := t.size_pos
    omega
  | binary b l r =>
    rw [Tree.size] at hsize
    have hl := l.size_pos
    omega

/-- A node over parts that are in the heap is evaluated. -/
theorem evaluate_of_clean {e : State} {r : NodeRef} {node : Node} (hat : e.at r = some node)
    (hclean : ∀ child ∈ node.children, Clean e.heap.nodes child) (env : Environment) (st : Status) :
    ∃ fuel x, evaluate env e fuel r st = some x := by
  cases node with
  | leaf token =>
    refine ⟨1, evaluateLeaf env token st, ?_⟩
    rw [evaluate, hat]
  | unary operator child =>
    obtain ⟨t, hdraws, hnone⟩ := hclean child (List.mem_singleton_self _)
    obtain ⟨x, hx⟩ := evaluate_of_draws hdraws (Or.inl hnone) (Nat.le_refl _) env st
    refine ⟨t.size + 1, finish (operator.evaluate env.reals x.1) x.2, ?_⟩
    rw [evaluate, hat]
    simp only [hx, Option.map_some]
  | binary operator left right =>
    obtain ⟨l, hdrawsl, hnonel⟩ := hclean left List.mem_cons_self
    obtain ⟨r, hdrawsr, hnoner⟩ := hclean right (List.mem_cons_of_mem _ (List.mem_singleton_self _))
    obtain ⟨a, ha⟩ := evaluate_of_draws hdrawsl (Or.inl hnonel) (Nat.le_add_right _ r.size) env st
    obtain ⟨b, hb⟩ := evaluate_of_draws hdrawsr (Or.inl hnoner) (Nat.le_add_left _ l.size) env a.2
    refine ⟨l.size + r.size + 1, finish (operator.evaluate env.reals a.1 b.1) b.2, ?_⟩
    rw [evaluate, hat]
    simp only [ha, hb, Option.bind_some, Option.map_some]

/-- With no heap and one node to allocate the error node is a leaf. -/
theorem errorNode_single (hscan : Scans s ts left) (hnodes : (tally ts true 0).1 = 1)
    (hmissing : (tally ts true 0).2 = 0) :
    ∃ token v, Found token v ∧ .value v ∈ ts ∧ (parse s 0).1 = .errorNode ∧
      (parse s 0).2.at .errorNode = some (.leaf token) := by
  have hbuilt := built_parse hscan 0
  obtain ⟨href, -, node, hnode, hclean, -, hleaf⟩ := hbuilt.full (by rw [hnodes]; exact Nat.one_pos)
  have hnil : (parse s 0).2.heap.nodes = [] := by
    apply List.eq_nil_of_length_eq_zero
    rw [hbuilt.length_eq]
    exact Nat.zero_min _
  have hchild : ∀ child ∈ node.children, False := by
    intro child hchild
    obtain ⟨t, hdraws, hnone⟩ := hclean ⟨by rw [hnodes]; rfl, hmissing⟩ child hchild
    rw [hnil] at hdraws
    cases hdraws with
    | missing => cases hnone
    | leaf h _ => cases h
    | unary h _ => cases h
    | binary h _ _ => cases h
  have hat : (parse s 0).2.at .errorNode = some node := by
    rw [State.at, hnode]
    rfl
  cases node with
  | leaf token =>
    obtain ⟨v, hfound, hv⟩ := hleaf token rfl
    exact ⟨token, v, hfound, hv, href, hat⟩
  | unary operator child => exact (hchild child (List.mem_singleton_self _)).elim
  | binary operator l r => exact (hchild l List.mem_cons_self).elim

theorem calculate_single {token : EvalString} {v : Value} {r : EvalResult} (hfound : Found token v)
    (href : (parse s 0).1 = .errorNode) (hat : (parse s 0).2.at .errorNode = some (.leaf token))
    (h : calculate env fuel s 0 = some r) : r.success = (!(parse s 0).2.error && known env v) := by
  obtain ⟨x, heval, rfl⟩ := calculate_eq_some_iff.mp h
  rw [href] at heval
  cases fuel with
  | zero => cases heval
  | succ fuel =>
    rw [evaluate, hat] at heval
    obtain rfl := Option.some.inj heval
    simp only [evaluateLeaf_found hfound]
    cases (parse s 0).2.error <;> cases known env v <;> rfl

/-- Where the error node leads back to itself, the calculation does not come to an end. -/
theorem calculate_loops (hscan : Scans s ts left) (hfull : count < (tally ts true 0).1)
    (hnot : ¬ ((tally ts true 0).1 = count + 1 ∧ (tally ts true 0).2 = 0)) (env : Environment) (fuel : Nat) :
    calculate env fuel s count = none := by
  have hbuilt := built_parse hscan count
  have hinitial : (⟨s, ⟨[], count⟩, none, false⟩ : State).heap.nodes.length + (tally ts true 0).1 =
      (tally ts true 0).1 := Nat.zero_add _
  obtain ⟨href, -, node, hnode, -, hdirty, -⟩ := hbuilt.full (by rw [hinitial]; exact hfull)
  rw [hinitial] at hdirty
  cases hr : calculate env fuel s count with
  | none => rfl
  | some r =>
    obtain ⟨x, heval, -⟩ := calculate_eq_some_iff.mp hr
    rw [href, evaluate_of_dirty hnode (hdirty hnot) (dirty_errorNode _)] at heval
    cases heval

theorem exists_tree (hexpr : Expr table ts) : ∃ t, Shows table 0 t ts ∧ Eval.tally ts true 0 = (t.size, 0) := by
  obtain ⟨t, hshows⟩ := exists_shows hexpr
  exact ⟨t, hshows, tally_tree hshows⟩

/-- Text behind an expression is only noticed through a symbol that is not known. -/
theorem Guarded.behind (h : Guarded env s count) (hscan : Scans s ts left) (hfits : (tally ts true 0).1 ≤ count)
    (hleft : left ≠ []) (hexpr : Expr table ts) : ∃ v, .value v ∈ ts ∧ known env v = false := by
  obtain ⟨fuel, r, hr⟩ := h.terminates
  obtain ⟨t, hshows, htally⟩ := exists_tree hexpr
  rw [htally] at hfits
  by_contra hall
  have hsuccess : r.success = true := by
    rw [calculate_status hscan hshows hfits hr, List.all_eq_true]
    intro v hv
    by_contra hunknown
    exact hall ⟨v, (mem_values_iff hshows v).mpr hv, Bool.eq_false_iff.mpr hunknown⟩
  obtain ⟨t', htree, -⟩ := h.complete fuel r hr hsuccess
  exact hleft (htree.tally hscan).2.1

/-- With no heap a single operand must not be evaluated. -/
theorem Guarded.single (h : Guarded env s 0) (hscan : Scans s ts left) (hnodes : (tally ts true 0).1 = 1)
    (hmissing : (tally ts true 0).2 = 0) (hexpr : Expr table ts) {v : Value} (hv : .value v ∈ ts) :
    known env v = false := by
  obtain ⟨fuel, r, hr⟩ := h.terminates
  by_contra hknown
  obtain ⟨token, w, hfound, hw, href, hat⟩ := errorNode_single hscan hnodes hmissing
  obtain ⟨t, hshows, htally⟩ := exists_tree hexpr
  have hsize : t.size = 1 := (congrArg Prod.fst htally).symm.trans hnodes
  have hvw : v = w := by
    rw [mem_values_iff hshows] at hv hw
    exact value_unique hsize hv hw
  have hsuccess := calculate_single hfound href hat hr
  have hparse : (parse s 0).2.error = false := by
    rw [← Bool.not_eq_true', ← check]
    exact (check_scans hscan).mpr hexpr
  rw [hparse, ← hvw, (Bool.not_eq_false _).mp hknown] at hsuccess
  obtain ⟨t', htree, hrepresents⟩ := h.complete fuel r hr hsuccess
  rw [href] at hrepresents
  cases hrepresents

theorem guarded_of_fits (hscan : Scans s ts left) (hfits : (tally ts true 0).1 ≤ count)
    (hbehind : left ≠ [] → Expr table ts → ∃ v, .value v ∈ ts ∧ known env v = false) : Guarded env s count := by
  refine ⟨calculate_fits hscan hfits, ?_, ?_⟩
  · intro fuel r hr hsuccess
    have hexpr := parse_sound hscan (calculate_success hr hsuccess)
    obtain ⟨t, hshows, htally⟩ := exists_tree hexpr
    rw [htally] at hfits
    have hleft : left = [] := by
      by_contra hleft
      obtain ⟨v, hv, hunknown⟩ := hbehind hleft hexpr
      rw [calculate_status hscan hshows hfits hr, List.all_eq_true] at hsuccess
      rw [hsuccess v ((mem_values_iff hshows v).mp hv)] at hunknown
      cases hunknown
    exact ⟨t, ⟨ts, hscan.splits hleft, hshows⟩,
      (parse_shows hscan hshows fun _ => hfits).2 (Nat.lt_of_lt_of_le t.size_pos hfits)⟩
  · intro t htree hsmall
    rw [(htree.tally hscan).1] at hfits
    exact absurd hfits (Nat.not_le.mpr hsmall)

/-- The last node is the error node, and what is under it is in the heap. -/
theorem guarded_of_last (hscan : Scans s ts left) (hlast : (tally ts true 0).1 = count + 1)
    (hnone : (tally ts true 0).2 = 0)
    (hsingle : count = 0 → Expr table ts → ∀ v, .value v ∈ ts → known env v = false) : Guarded env s count := by
  have hinitial : (⟨s, ⟨[], count⟩, none, false⟩ : State).heap.nodes.length + (Eval.tally ts true 0).1 =
      (Eval.tally ts true 0).1 := Nat.zero_add _
  obtain ⟨href, herror, node, hnode, hclean, -, -⟩ :=
    (built_parse hscan count).full (by rw [hinitial, hlast]; exact Nat.lt_succ_self count)
  have hat : (parse s count).2.at (parse s count).1 = some node := by
    rw [href, State.at, hnode]
    rfl
  have hfail : ∀ fuel r, calculate env fuel s count = some r → r.success = false := by
    intro fuel r hr
    by_contra hsuccess
    have hparse := calculate_success hr ((Bool.not_eq_false _).mp hsuccess)
    by_cases hpos : 0 < count
    · rw [herror hpos] at hparse
      cases hparse
    · obtain rfl : count = 0 := Nat.eq_zero_of_not_pos hpos
      obtain ⟨token, v, hfound, hv, href', hat'⟩ := errorNode_single hscan hlast hnone
      have hvalue := calculate_single hfound href' hat' hr
      rw [hsingle rfl (parse_sound hscan hparse) v hv, Bool.and_false] at hvalue
      exact hsuccess hvalue
  refine ⟨?_, ?_, fun _ _ _ => hfail⟩
  · obtain ⟨fuel, x, hx⟩ := evaluate_of_clean hat
      (hclean ⟨by rw [hinitial]; exact hlast, hnone⟩) env ⟨(parse s count).2.error, 0, []⟩
    exact ⟨fuel, _, calculate_eq_some_iff.mpr ⟨x, hx, rfl⟩⟩
  · intro fuel r hr hsuccess
    rw [hfail fuel r hr] at hsuccess
    cases hsuccess

end Calculate

/-- Evaluation ends and success is reported for the tree of the string, exactly when the heap suffices. -/
theorem guarded_iff (env : Environment) (s : List Char) (count : Nat) :
    Guarded env s count ↔ ∃ ts left, Scans s ts left ∧ Suffices env ts left count := by
  constructor
  · intro hguarded
    obtain ⟨ts, left, hscan⟩ := exists_scans s
    refine ⟨ts, left, hscan, ?_⟩
    by_cases hfits : (tally ts true 0).1 ≤ count
    · exact Or.inl ⟨hfits, hguarded.behind hscan hfits⟩
    · have hlast : (tally ts true 0).1 = count + 1 ∧ (tally ts true 0).2 = 0 := by
        by_contra hnot
        obtain ⟨fuel, r, hr⟩ := hguarded.terminates
        rw [calculate_loops hscan (Nat.lt_of_not_le hfits) hnot] at hr
        cases hr
      refine Or.inr ⟨hlast.1, hlast.2, ?_⟩
      rintro rfl hexpr v hv
      exact hguarded.single hscan hlast.1 hlast.2 hexpr hv
  · rintro ⟨ts, left, hscan, ⟨hfits, hbehind⟩ | ⟨hlast, hnone, hsingle⟩⟩
    · exact guarded_of_fits hscan hfits hbehind
    · exact guarded_of_last hscan hlast hnone hsingle

/-- An environment for expressions of integers: no symbol is known, and no operation on doubles is used. -/
def integersOnly : Environment :=
  ⟨⟨fun _ => (0, 0), fun _ => 0, id, id, fun _ _ => 0, fun _ _ => 0, fun _ _ => 0, fun _ _ => 0,
    fun _ _ => false, fun _ _ => false, fun _ _ => false⟩, none⟩

theorem isNumber_one : IsNumber ['1'] := ⟨['1'], [], by simp, by simp [isDigit], by simp, Or.inl rfl⟩

theorem scans_minusOne : Scans ['-', '1'] [.operator ⟨['-'], by decide⟩, .value ⟨['1'], Or.inl isNumber_one⟩] [] :=
  @Scans.token _ _ ['1'] _ _ rfl (@Scans.token _ _ [] _ _ rfl (.stop rfl))

theorem scans_minusMinusOne : Scans ['-', '-', '1']
    [.operator ⟨['-'], by decide⟩, .operator ⟨['-'], by decide⟩, .value ⟨['1'], Or.inl isNumber_one⟩] [] :=
  @Scans.token _ _ ['-', '1'] _ _ rfl scans_minusOne

/-- The text `-1` with no heap, and `--1` with room for one node: the node of the operator is its own operand. -/
theorem not_guarded_samples :
    ¬ Guarded integersOnly ['-', '1'] 0 ∧ ¬ Guarded integersOnly ['-', '-', '1'] 1 := by
  constructor
  · intro h
    obtain ⟨fuel, r, hr⟩ := h.terminates
    rw [calculate_loops scans_minusOne (by decide) (by decide)] at hr
    cases hr
  · intro h
    obtain ⟨fuel, r, hr⟩ := h.terminates
    rw [calculate_loops scans_minusMinusOne (by decide) (by decide)] at hr
    cases hr

/-! ## Checking -/

theorem tally_le (ts : List Tok) (expecting : Bool) (depth : Nat) : (tally ts expecting depth).1 ≤ ts.length := by
  have hone : ∀ x : Nat × Nat, ((1, 0) + x).1 = 1 + x.1 := fun _ => rfl
  have hzero : ∀ x : Nat × Nat, ((0, 1) + x).1 = x.1 := fun _ => Nat.zero_add _
  induction ts generalizing expecting depth with
  | nil => exact Nat.le_refl 0
  | cons t ts ih =>
    have htrue := ih true depth
    have hfalse := ih false depth
    have hopen := ih true (depth + 1)
    rw [List.length_cons]
    cases t with
    | value v =>
      cases expecting with
      | true =>
        rw [tally_value, hone]
        omega
      | false => exact Nat.zero_le _
    | openParenthesis =>
      cases expecting with
      | true =>
        rw [tally_open]
        omega
      | false => exact Nat.zero_le _
    | operator o =>
      have hbehind : (tally (.operator o :: ts) false depth).1 ≤ ts.length + 1 := by
        by_cases hb : (table.binary o).isSome = true
        · rw [tally_binary hb, hone]
          omega
        · rw [tally_stop (fun o' us h => by cases h; simpa using hb) (Or.inr fun us h => by cases h)]
          exact Nat.zero_le _
      cases expecting with
      | true =>
        by_cases hu : (table.unary o).isSome = true
        · rw [tally_unary hu, hone]
          omega
        · rw [tally_missing (fun v us h => by cases h) (fun us h => by cases h)
            (fun o' us h => by cases h; simpa using hu), hzero]
          exact hbehind
      | false => exact hbehind
    | closeParenthesis =>
      have hbehind : (tally (.closeParenthesis :: ts) false depth).1 ≤ ts.length + 1 := by
        cases depth with
        | zero => exact Nat.zero_le _
        | succ depth =>
          rw [tally_close]
          have hrest := ih false depth
          omega
      cases expecting with
      | true =>
        rw [tally_missing (fun v us h => by cases h) (fun us h => by cases h) (fun o' us h => by cases h), hzero]
        exact hbehind
      | false => exact hbehind

theorem Scans.length_le {s left : List Char} {ts : List Tok} (h : Scans s ts left) : ts.length ≤ s.length := by
  induction h with
  | stop h => exact Nat.zero_le _
  | @token s t rest ts left h _ ih =>
    have hlt := (behind_next_length s).2 (by rw [h]; exact length_token_pos t rest)
    rw [h, behind_token] at hlt
    rw [List.length_cons]
    omega

theorem known_of_identifiers {env : Environment}
    (h : ∀ chars, IsIdentifier chars → (env.getSymbolValue.bind fun callback => callback chars).isSome = true)
    (v : Value) : known env v = true := by
  rcases v.2 with ⟨digits, fraction, hne, hdigits, -, hs⟩ | hidentifier
  · obtain ⟨d, digits, rfl⟩ := List.exists_cons_of_ne_nil hne
    have hd := hdigits d List.mem_cons_self
    have hhead : v.1.headD ' ' = d := by rcases hs with hs | hs <;> rw [hs] <;> rfl
    rw [known, hhead, hd]
    simp
  · rw [known, h v.1 hidentifier]
    simp

/-- A calculation succeeds with the strings that are accepted, when each character has room for a node and the
callback knows every identifier. -/
theorem success_check (env : Environment) (s : List Char) (count : Nat) (hroom : s.length ≤ count)
    (hknown : ∀ chars, IsIdentifier chars → (env.getSymbolValue.bind fun callback => callback chars).isSome = true) :
    (∃ fuel r, calculate env fuel s count = some r) ∧
      ∀ fuel r, calculate env fuel s count = some r → r.success = check s := by
  obtain ⟨ts, left, hscan⟩ := exists_scans s
  have hlength := hscan.length_le
  have htally := tally_le ts true 0
  have hfits : (tally ts true 0).1 ≤ count := by omega
  refine ⟨calculate_fits hscan hfits, ?_⟩
  intro fuel r hr
  by_cases hexpr : Expr table ts
  · obtain ⟨t, hshows⟩ := exists_shows hexpr
    rw [tally_tree hshows] at hfits
    rw [calculate_status hscan hshows hfits hr, (check_scans hscan).mpr hexpr, List.all_eq_true]
    exact fun v _ => known_of_identifiers hknown v
  · have hcheck : ¬ check s = true := fun h => hexpr ((check_scans hscan).mp h)
    have hsuccess : ¬ r.success = true := fun h => hexpr (parse_sound hscan (calculate_success hr h))
    rw [Bool.eq_false_iff.mpr hcheck, Bool.eq_false_iff.mpr hsuccess]

/-- Every symbol is zero. -/
def zeroSymbols : Environment := ⟨integersOnly.reals, some fun _ => some (initializeInteger 0)⟩

theorem success_check_sample : (∃ fuel r, calculate zeroSymbols fuel ['a', '*', '(', 'b'] 4 = some r) ∧
    ∀ fuel r, calculate zeroSymbols fuel ['a', '*', '(', 'b'] 4 = some r →
      r.success = check ['a', '*', '(', 'b'] :=
  success_check zeroSymbols ['a', '*', '(', 'b'] 4 (Nat.le_refl 4) fun _ _ => rfl

end Eval
end Firefly
