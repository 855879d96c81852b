import HatP.Rows.ScalarOrder

/-!
# From filter expressions to column predicates

The conjuncts of a filter that compare a column with a literal become predicates for the
storage layer.  The translation forgets which side the column is on, so that `5 < col`
becomes `col < 5`.
-/

namespace HatP

/-! ## Expressions and their meaning -/

/-- An operator that the translation does not know can mean anything. -/
inductive Operator
  | and
  | eq
  | lt
  | ltEq
  | gt
  | gtEq
  | other (meaning : ScalarValue → ScalarValue → ScalarValue)

inductive Expr
  | column (name : String)
  | literal (value : ScalarValue)
  | binaryExpr (left : Expr) (op : Operator) (right : Expr)
  | not (inner : Expr)
  | other (meaning : List ScalarValue → ScalarValue)

def sqlAnd : ScalarValue → ScalarValue → ScalarValue
  | .boolean (some false), _ => .boolean (some false)
  | _, .boolean (some false) => .boolean (some false)
  | .boolean (some true), .boolean (some true) => .boolean (some true)
  | _, _ => .boolean none

def sqlNot : ScalarValue → ScalarValue
  | .boolean v => .boolean (v.map not)
  | _ => .boolean none

/-- A comparison with null, or of values that cannot be compared, is unknown. -/
def sqlCompare (test : Ordering → Bool) (a b : ScalarValue) : ScalarValue :=
  if a.isNull || b.isNull then .boolean none else .boolean ((a.partialCmp b).map test)

def Operator.test : Operator → Option (Ordering → Bool)
  | .eq => some (· = .eq)
  | .lt => some (· = .lt)
  | .ltEq => some Ordering.isLE
  | .gt => some (· = .gt)
  | .gtEq => some Ordering.isGE
  | .and | .other _ => none

def Operator.apply (op : Operator) (a b : ScalarValue) : ScalarValue :=
  match op with
  | .and => sqlAnd a b
  | .other meaning => meaning a b
  | .eq => sqlCompare (· = .eq) a b
  | .lt => sqlCompare (· = .lt) a b
  | .ltEq => sqlCompare Ordering.isLE a b
  | .gt => sqlCompare (· = .gt) a b
  | .gtEq => sqlCompare Ordering.isGE a b

def Expr.eval (schema : List ColumnField) (row : List ScalarValue) : Expr → ScalarValue
  | .column name => ((indexOf schema name).bind fun col ↦ row[col]?).getD .null
  | .literal value => value
  | .binaryExpr left op right => op.apply (left.eval schema row) (right.eval schema row)
  | .not inner => sqlNot (inner.eval schema row)
  | .other meaning => meaning row

/-- The filter is true of the row, neither false nor unknown. -/
def Expr.Satisfied (schema : List ColumnField) (row : List ScalarValue) (expr : Expr) : Prop :=
  expr.eval schema row = .boolean (some true)

/-! ## The translation -/

def Operator.predicate (op : Operator) (col : ℕ) (value : ScalarValue) :
    Option (ColumnPredicate ScalarValue) :=
  match op with
  | .eq => some (.eq col value)
  | .lt => some (.lessThan col value)
  | .ltEq => some (.lessThanOrEqual col value)
  | .gt => some (.greaterThan col value)
  | .gtEq => some (.greaterThanOrEqual col value)
  | .and | .other _ => none

def comparedColumn (left right : Expr) (schema : List ColumnField) : Option (ℕ × ScalarValue) :=
  match left, right with
  | .column name, .literal value => (indexOf schema name).map (·, value)
  | .literal value, .column name => (indexOf schema name).map (·, value)
  | _, _ => none

def trySingleColumnCompare (left : Expr) (op : Operator) (right : Expr)
    (schema : List ColumnField) : Option (ColumnPredicate ScalarValue) :=
  (comparedColumn left right schema).bind fun (col, value) ↦ op.predicate col value

/-- Only conjunctions are taken apart; everything else is left to the caller. -/
def collect (schema : List ColumnField) :
    Expr → List (ColumnPredicate ScalarValue) → List (ColumnPredicate ScalarValue)
  | .binaryExpr left .and right, out => collect schema right (collect schema left out)
  | .binaryExpr left op right, out => out ++ (trySingleColumnCompare left op right schema).toList
  | .not _, out => out
  | _, out => out

def exprToColumnPredicates (expr : Expr) (schema : List ColumnField) :
    List (ColumnPredicate ScalarValue) :=
  collect schema expr []

/-! ## Comparisons with the literal on the left -/

/-- An order comparison of the form `value op column`. -/
structure LiteralFirst where
  op : Operator
  col : ℕ
  value : ScalarValue

def Operator.isOrder : Operator → Bool
  | .lt | .ltEq | .gt | .gtEq => true
  | .and | .eq | .other _ => false

def Operator.nonstrict : Operator → Bool
  | .ltEq | .gtEq => true
  | .and | .eq | .lt | .gt | .other _ => false

def literalFirst (schema : List ColumnField) : Expr → List LiteralFirst
  | .binaryExpr left .and right => literalFirst schema left ++ literalFirst schema right
  | .binaryExpr (.literal value) op (.column name) =>
    if op.isOrder then ((indexOf schema name).map (⟨op, ·, value⟩)).toList else []
  | _ => []

def LiteralFirst.MetByEquality (row : List ScalarValue) (c : LiteralFirst) : Prop :=
  c.op.nonstrict = true ∧ ∃ x, row[c.col]? = some x ∧ x.partialCmp c.value = some .eq

/-! ## One comparison -/

variable {op : Operator} {test : Ordering → Bool}

theorem Operator.apply_of_test (h : op.test = some test)
    (a b : ScalarValue) : op.apply a b = sqlCompare test a b := by
  cases op with
  | and | other => cases h
  | _ => cases h; rfl

theorem sqlCompare_eq_true {a b : ScalarValue} (h : sqlCompare test a b = .boolean (some true)) :
    a.isNull = false ∧ b.isNull = false ∧ ∃ ord, a.partialCmp b = some ord ∧ test ord = true := by
  rw [sqlCompare] at h
  split at h
  · cases h
  next hnull =>
    rw [Bool.not_eq_true, Bool.or_eq_false_iff] at hnull
    exact ⟨hnull.1, hnull.2, Option.map_eq_some_iff.mp (ScalarValue.boolean.inj h)⟩

theorem Operator.evaluateScalar_predicate
    (h : op.test = some test) (col : ℕ) (value : ScalarValue) :
    ∃ pred, op.predicate col value = some pred ∧ pred.column = col ∧ ∀ x : ScalarValue,
      x.isNull = false → pred.evaluateScalar x = (x.partialCmp value).any test := by
  have hdecide : ∀ (ord : Ordering) (found : Option Ordering),
      decide (found = some ord) = found.any (· = ord) := by
    intro ord found
    cases found <;> simp
  cases op with
  | and | other => cases h
  | ltEq | gtEq =>
    cases h
    refine ⟨_, rfl, rfl, fun x hx ↦ ?_⟩
    unfold ColumnPredicate.evaluateScalar
    rw [hx]
    rfl
  | eq | lt | gt =>
    cases h
    refine ⟨_, rfl, rfl, fun x hx ↦ ?_⟩
    unfold ColumnPredicate.evaluateScalar
    rw [hx]
    exact hdecide _ _

/-- With the literal on the left, the comparison the other way holds as well if it is an
equality, or if it is not strict and the sides are equal. -/
theorem Operator.test_swap (h : op.test = some test)
    {ord : Ordering} (hord : test ord.swap = true) :
    test ord = true ↔ (op.isOrder = true → op.nonstrict = true ∧ ord = .eq) := by
  cases op with
  | and | other => cases h
  | _ => cases h; cases ord <;> simp_all [isOrder, nonstrict]

section Rows

variable {schema : List ColumnField} {row : List ScalarValue}
  {name : String} {op : Operator} {value : ScalarValue}

theorem getElem?_of_eval_column {col : ℕ} (hcol : indexOf schema name = some col)
    (hnull : ((Expr.column name).eval schema row).isNull = false) :
    row[col]? = some ((Expr.column name).eval schema row) := by
  rw [Expr.eval, hcol, Option.bind_some] at hnull ⊢
  cases hrow : row[col]? with
  | none =>
    rw [hrow] at hnull
    cases hnull
  | some x => rfl

theorem trySingleColumnCompare_eq (name : String) (op : Operator) (value : ScalarValue)
    (schema : List ColumnField) :
    trySingleColumnCompare (.column name) op (.literal value) schema =
        (indexOf schema name).bind (op.predicate · value) ∧
      trySingleColumnCompare (.literal value) op (.column name) schema =
        (indexOf schema name).bind (op.predicate · value) := by
  unfold trySingleColumnCompare comparedColumn
  dsimp only
  cases indexOf schema name <;> exact ⟨rfl, rfl⟩

theorem rowMatches_predicate {test : Ordering → Bool} {col : ℕ} (htest : op.test = some test)
    (hcol : indexOf schema name = some col)
    (hnull : ((Expr.column name).eval schema row).isNull = false) :
    rowMatches row ((indexOf schema name).bind (op.predicate · value)).toList =
      (((Expr.column name).eval schema row).partialCmp value).any test := by
  obtain ⟨pred, hpred, rfl, heval⟩ := Operator.evaluateScalar_predicate htest col value
  rw [hcol, Option.bind_some, hpred, Option.toList_some,
    rowMatches, List.all_cons, List.all_nil, Bool.and_true,
    getElem?_of_eval_column hcol hnull, Option.any_some, heval _ hnull]

theorem predicate_of_test_eq_none (h : op.test = none) (col : ℕ)
    (value : ScalarValue) : op.predicate col value = none := by
  cases op with
  | and | other => rfl
  | _ => cases h

theorem rowMatches_columnFirst
    (h : (Expr.binaryExpr (.column name) op (.literal value)).Satisfied schema row) :
    rowMatches row ((indexOf schema name).bind (op.predicate · value)).toList = true := by
  cases hcol : indexOf schema name with
  | none => rfl
  | some col =>
    cases htest : op.test with
    | none => rw [Option.bind_some, predicate_of_test_eq_none htest]; rfl
    | some test =>
      rw [Expr.Satisfied, Expr.eval, Operator.apply_of_test htest] at h
      obtain ⟨hnull, -, ord, hord, htrue⟩ := sqlCompare_eq_true h
      rw [← hcol, rowMatches_predicate htest hcol hnull]
      exact (congrArg (Option.any test) hord).trans htrue

/-- A comparison with the literal on the left becomes one that the row satisfies only if the
comparison holds in both directions. -/
theorem rowMatches_literalFirst
    (h : (Expr.binaryExpr (.literal value) op (.column name)).Satisfied schema row) :
    rowMatches row ((indexOf schema name).bind (op.predicate · value)).toList = true ↔
      ∀ c ∈ if op.isOrder then ((indexOf schema name).map (⟨op, ·, value⟩)).toList else [],
        LiteralFirst.MetByEquality row c := by
  cases hcol : indexOf schema name with
  | none => simp [rowMatches]
  | some col =>
    cases htest : op.test with
    | none =>
      have horder : op.isOrder = false := by
        cases op with
        | and | other => rfl
        | _ => cases htest
      rw [Option.bind_some, predicate_of_test_eq_none htest, horder]
      simp [rowMatches]
    | some test =>
      rw [Expr.Satisfied, Expr.eval, Operator.apply_of_test htest] at h
      obtain ⟨-, hnull, ord, hord, htrue⟩ := sqlCompare_eq_true h
      have hturned := ScalarValue.partialCmp_swap ((Expr.literal value).eval schema row)
        ((Expr.column name).eval schema row)
      rw [hord, Option.map_some] at hturned
      have hvalue : ((Expr.column name).eval schema row).partialCmp value = some ord.swap :=
        hturned.symm
      have hrow := getElem?_of_eval_column hcol hnull
      rw [← hcol, rowMatches_predicate htest hcol hnull, hvalue, Option.any_some,
        Operator.test_swap htest (by rwa [Ordering.swap_swap]), hcol, Option.map_some,
        Option.toList_some]
      cases op.isOrder with
      | false => simp
      | true => simp [LiteralFirst.MetByEquality, hrow, hvalue]

theorem rowMatches_compare {left right : Expr} (hand : op ≠ .and)
    (h : (Expr.binaryExpr left op right).Satisfied schema row) :
    rowMatches row (trySingleColumnCompare left op right schema).toList = true ↔
      ∀ c ∈ literalFirst schema (.binaryExpr left op right), c.MetByEquality row := by
  have hother : comparedColumn left right schema = none →
      literalFirst schema (.binaryExpr left op right) = [] →
      (rowMatches row (trySingleColumnCompare left op right schema).toList = true ↔
        ∀ c ∈ literalFirst schema (.binaryExpr left op right), c.MetByEquality row) := by
    intro hcompared hfirst
    rw [trySingleColumnCompare, hcompared, hfirst]
    simp [rowMatches]
  cases left with
  | column name =>
    cases right with
    | literal value =>
      have hfirst : literalFirst schema (.binaryExpr (.column name) op (.literal value)) = [] := by
        cases op <;> rfl
      rw [(trySingleColumnCompare_eq name op value schema).1, rowMatches_columnFirst h, hfirst]
      simp
    | _ => exact hother rfl (by cases op <;> first | rfl | exact absurd rfl hand)
  | literal value =>
    cases right with
    | column name =>
      have hfirst : literalFirst schema (.binaryExpr (.literal value) op (.column name)) =
          if op.isOrder then ((indexOf schema name).map (⟨op, ·, value⟩)).toList else [] := by
        cases op <;> rfl
      rw [(trySingleColumnCompare_eq name op value schema).2, hfirst]
      exact rowMatches_literalFirst h
    | _ => exact hother rfl (by cases op <;> first | rfl | exact absurd rfl hand)
  | _ => exact hother rfl (by cases op <;> first | rfl | exact absurd rfl hand)

theorem collect_compare (hand : op ≠ .and) (left right : Expr)
    (out : List (ColumnPredicate ScalarValue)) :
    collect schema (.binaryExpr left op right) out =
      out ++ (trySingleColumnCompare left op right schema).toList := by
  cases op <;> first | rfl | exact absurd rfl hand

theorem collect_eq (schema : List ColumnField) (expr : Expr)
    (out : List (ColumnPredicate ScalarValue)) :
    collect schema expr out = out ++ exprToColumnPredicates expr schema := by
  unfold exprToColumnPredicates
  induction expr generalizing out with
  | column | literal | not | other => exact (List.append_nil out).symm
  | binaryExpr left op right ihLeft ihRight =>
    by_cases hand : op = .and
    · subst hand
      rw [collect, collect, ihRight, ihLeft, ihRight (collect schema left []), List.append_assoc]
    · rw [collect_compare hand, collect_compare hand, List.nil_append]

theorem sqlAnd_eq_true {a b : ScalarValue} (h : sqlAnd a b = .boolean (some true)) :
    a = .boolean (some true) ∧ b = .boolean (some true) := by
  unfold sqlAnd at h
  split at h
  · cases h
  · cases h
  · exact ⟨rfl, rfl⟩
  · cases h

/-- A row that satisfies the filter satisfies the predicates made of it if and only if every
order comparison with the literal on the left is met by equality. -/
theorem rowMatches_iff_metByEquality {expr : Expr} (h : expr.Satisfied schema row) :
    rowMatches row (exprToColumnPredicates expr schema) = true ↔
      ∀ c ∈ literalFirst schema expr, c.MetByEquality row := by
  induction expr with
  | column | literal | not | other =>
    unfold exprToColumnPredicates collect literalFirst
    simp [rowMatches]
  | binaryExpr left op right ihLeft ihRight =>
    by_cases hand : op = .and
    · subst hand
      obtain ⟨hleft, hright⟩ := sqlAnd_eq_true h
      rw [exprToColumnPredicates, collect, collect_eq, literalFirst, List.forall_mem_append,
        ← ihLeft hleft, ← ihRight hright, rowMatches, List.all_append, Bool.and_eq_true]
      rfl
    · rw [exprToColumnPredicates, collect_compare hand, List.nil_append]
      exact rowMatches_compare hand h

end Rows

def personSchema : List ColumnField := [⟨"id", .int64⟩, ⟨"age", .int32⟩]

def ageFilter : Expr :=
  .binaryExpr (.binaryExpr (.column "id") .eq (.literal (.int64 (some 1)))) .and
    (.binaryExpr (.literal (.int32 (some 30))) .ltEq (.column "age"))

theorem rowMatches_iff_metByEquality_ageFilter :
    ageFilter.Satisfied personSchema [.int64 (some 1), .int32 (some 30)] ∧
      rowMatches [.int64 (some 1), .int32 (some 30)]
        (exprToColumnPredicates ageFilter personSchema) = true := by
  have hsatisfied : ageFilter.Satisfied personSchema [.int64 (some 1), .int32 (some 30)] := rfl
  refine ⟨hsatisfied, (rowMatches_iff_metByEquality hsatisfied).mpr fun c hc ↦ ?_⟩
  cases List.mem_singleton.mp hc
  exact ⟨rfl, .int32 (some 30), rfl, rfl⟩

/-- `20 < age` is true of a person of age 30 and becomes `age < 20`. -/
theorem turned_comparison :
    (Expr.binaryExpr (.literal (.int32 (some 20))) .lt (.column "age")).Satisfied personSchema
        [.int64 (some 1), .int32 (some 30)] ∧
      exprToColumnPredicates (.binaryExpr (.literal (.int32 (some 20))) .lt (.column "age"))
        personSchema = [.lessThan 1 (.int32 (some 20))] ∧
      rowMatches [.int64 (some 1), .int32 (some 30)] [.lessThan 1 (.int32 (some 20))] = false :=
  ⟨rfl, rfl, rfl⟩

end HatP
