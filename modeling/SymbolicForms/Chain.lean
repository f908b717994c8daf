import SymbolicForms.Expression

/-!
# Chains of products and sums

A product chain is read as the list of its factors, a chain of sums and
differences as the list of its signed addends. Lists are joined again from the
left.
-/

namespace SymbolicForms

/-- What is read from elements of a list can be put behind those from which nothing is read. -/
theorem perm_filter_append_filterMap {α β γ : Type _} (read? : α → Option β) (keep : α → γ)
    (put : β → γ) {elements : List α}
    (h : ∀ element ∈ elements, ∀ part ∈ read? element, put part = keep element) :
    (elements.map keep).Perm ((elements.filter fun element => (read? element).isNone).map keep ++
      (elements.filterMap read?).map put) := by
  induction elements with
  | nil => exact .nil
  | cons first rest ih =>
    obtain ⟨hfirst, hrest⟩ := List.forall_mem_cons.mp h
    cases hread : read? first with
    | none =>
      rw [List.filter_cons_of_pos (by rw [hread]; rfl), List.filterMap_cons_none hread]
      exact (ih hrest).cons _
    | some part =>
      rw [List.filter_cons_of_neg (by rw [hread]; exact Bool.false_ne_true),
        List.filterMap_cons_some hread, List.map_cons, List.map_cons, hfirst part hread]
      exact ((ih hrest).cons _).trans List.perm_middle.symm

namespace Expr

variable {K : Type}

/-- The factors of a product chain, in front of a list. -/
def factorsOnto : Expr K → List (Expr K) → List (Expr K)
  | .binary .mul left right, rest => factorsOnto left (factorsOnto right rest)
  | e, rest => e :: rest

/-- The factors of a product chain from left to right; other operators are not entered. -/
def factors (e : Expr K) : List (Expr K) := e.factorsOnto []

/-- The list in front of which factors are put is not looked at. -/
theorem factorsOnto_eq (e : Expr K) (rest : List (Expr K)) :
    e.factorsOnto rest = e.factors ++ rest := by
  induction e generalizing rest with
  | const value => rfl
  | var name => rfl
  | func name argument => rfl
  | binary op left right ihl ihr =>
    cases op with
    | mul =>
      rw [factors, factorsOnto, factorsOnto, ihl, ihr, ihl (right.factorsOnto []),
        List.append_assoc]
      rfl
    | _ => rfl

/-- The factors of a product are those of its operands. -/
@[simp] theorem factors_mul (left right : Expr K) :
    (Expr.mul left right).factors = left.factors ++ right.factors := by
  rw [factors, factorsOnto, factorsOnto_eq left]
  rfl

/-- An expression that is no product is its only factor. -/
theorem factors_eq_singleton {e : Expr K} (h : ∀ left right, e ≠ .mul left right) :
    e.factors = [e] := by
  cases e with
  | binary op left right =>
    cases op with
    | mul => exact absurd rfl (h left right)
    | _ => rfl
  | _ => rfl

/-- No factor is a product. -/
theorem ne_mul_of_mem_factors {e factor : Expr K} (h : factor ∈ e.factors)
    (left right : Expr K) : factor ≠ .mul left right := by
  induction e with
  | binary op l r ihl ihr =>
    cases op with
    | mul =>
      rw [factors_mul, List.mem_append] at h
      exact h.elim ihl ihr
    | _ =>
      rw [List.mem_singleton.mp h]
      simp
  | _ =>
    rw [List.mem_singleton.mp h]
    simp

/-- What passes from every product to its operands passes from an expression to its factors. -/
theorem forall_mem_factors {P : Expr K → Prop}
    (hmul : ∀ left right, P (.mul left right) → P left ∧ P right) {e : Expr K} (h : P e) :
    ∀ factor ∈ e.factors, P factor := by
  intro factor hf
  induction e with
  | binary op left right ihl ihr =>
    cases op with
    | mul =>
      rw [factors_mul, List.mem_append] at hf
      exact hf.elim (ihl (hmul left right h).1) (ihr (hmul left right h).2)
    | _ => exact List.mem_singleton.mp hf ▸ h
  | _ => exact List.mem_singleton.mp hf ▸ h

variable [Scalar K]

/-- The product of a list, grouped to the left; the empty product is one. -/
def product : List (Expr K) → Expr K
  | [] => .int 1
  | first :: rest => rest.foldl .mul first

/-- The sum of a list, grouped to the left; the empty sum is zero. -/
def sum : List (Expr K) → Expr K
  | [] => .int 0
  | first :: rest => rest.foldl .add first

/-- One addend with the opposite sign. A number or a leading numeric factor changes its sign; any
other addend is multiplied by minus one. -/
def negateAddend : Expr K → Expr K
  | .const value => .number (-value)
  | .binary .mul (.const factor) right => .mul (.number (-factor)) right
  | e => .mul (.int (-1)) e

/-- What holds of numbers, passes from products to their right operands, and from expressions to
products with a number in front, is kept by a change of sign. -/
theorem negateAddend_induction {P : Expr K → Prop} (hconst : ∀ value, P (.const value))
    (hright : ∀ left right, P (.mul left right) → P right)
    (hscale : ∀ value e, P e → P (.mul (.const value) e)) {e : Expr K} (h : P e) :
    P e.negateAddend := by
  unfold negateAddend
  split
  · exact hconst _
  · exact hscale _ _ (hright _ _ h)
  · exact hscale _ _ h

/-- The signed addends of a chain of sums and differences, in front of a list. -/
def addendsOnto : Expr K → List (Expr K) → List (Expr K)
  | .binary .add left right, rest => addendsOnto left (addendsOnto right rest)
  | .binary .sub left right, rest =>
    addendsOnto left ((addendsOnto right []).map negateAddend ++ rest)
  | e, rest => e :: rest

/-- The signed addends of a chain of sums and differences from left to right. An addend is negated
once for each difference on whose right side it stands. -/
def addends (e : Expr K) : List (Expr K) := e.addendsOnto []

/-- The list in front of which addends are put is not looked at. -/
theorem addendsOnto_eq (e : Expr K) (rest : List (Expr K)) :
    e.addendsOnto rest = e.addends ++ rest := by
  induction e generalizing rest with
  | const value => rfl
  | var name => rfl
  | func name argument => rfl
  | binary op left right ihl ihr =>
    cases op with
    | add =>
      rw [addends, addendsOnto, addendsOnto, ihl, ihr, ihl (right.addendsOnto []),
        List.append_assoc]
      rfl
    | sub =>
      rw [addends, addendsOnto, addendsOnto, ihl, ihl (_ ++ []), List.append_nil,
        List.append_assoc]
    | _ => rfl

/-- The addends of a sum are those of its operands. -/
@[simp] theorem addends_add (left right : Expr K) :
    (Expr.add left right).addends = left.addends ++ right.addends := by
  rw [addends, addendsOnto, addendsOnto_eq left]
  rfl

/-- The addends of a difference are those of its left operand and the negated ones of its right
operand. -/
@[simp] theorem addends_sub (left right : Expr K) :
    (Expr.sub left right).addends = left.addends ++ right.addends.map negateAddend := by
  rw [addends, addendsOnto, addendsOnto_eq left, List.append_nil]
  rfl

/-- An expression that is no sum is its only addend. -/
theorem addends_eq_singleton {e : Expr K} (h : e.isSum = false) : e.addends = [e] := by
  cases e with
  | binary op left right => cases op <;> first | rfl | cases h
  | _ => rfl

/-- What passes from sums and differences to their operands, gives something of expressions that are
no sums, and this is kept by a change of sign, gives it of the addends. -/
theorem forall_mem_addends {P Q : Expr K → Prop}
    (hadd : ∀ left right, P (.add left right) → P left ∧ P right)
    (hsub : ∀ left right, P (.sub left right) → P left ∧ P right)
    (hself : ∀ e, e.isSum = false → P e → Q e) (hnegate : ∀ e, Q e → Q e.negateAddend)
    {e : Expr K} (h : P e) : ∀ addend ∈ e.addends, Q addend := by
  intro addend ha
  induction e generalizing addend with
  | binary op left right ihl ihr =>
    cases op with
    | add =>
      rw [addends_add, List.mem_append] at ha
      exact ha.elim (ihl (hadd left right h).1 addend) (ihr (hadd left right h).2 addend)
    | sub =>
      rw [addends_sub, List.mem_append, List.mem_map] at ha
      rcases ha with ha | ⟨second, hsecond, rfl⟩
      · exact ihl (hsub left right h).1 addend ha
      · exact hnegate second (ihr (hsub left right h).2 second hsecond)
    | _ => exact List.mem_singleton.mp ha ▸ hself _ rfl h
  | _ => exact List.mem_singleton.mp ha ▸ hself _ rfl h

/-- What holds of products whose operands have it holds of the product of a list that is not
empty. -/
theorem product_induction_of_ne_nil {P : Expr K → Prop}
    (hmul : ∀ left right, P left → P right → P (.mul left right)) {es : List (Expr K)}
    (hne : es ≠ []) (h : ∀ e ∈ es, P e) : P (product es) := by
  obtain ⟨first, rest, rfl⟩ := List.exists_cons_of_ne_nil hne
  exact List.foldlRecOn rest .mul (h first List.mem_cons_self) fun acc hacc e he =>
    hmul acc e hacc (h e (List.mem_cons_of_mem _ he))

/-- A product of factors that are no products has these factors. -/
theorem factors_product {factors : List (Expr K)} (hne : factors ≠ [])
    (h : ∀ factor ∈ factors, factor.factors = [factor]) :
    (product factors).factors = factors := by
  obtain ⟨first, rest, rfl⟩ := List.exists_cons_of_ne_nil hne
  obtain ⟨hfirst, hrest⟩ := List.forall_mem_cons.mp h
  have joined (acc : Expr K) :
      (rest.foldl Expr.mul acc).factors = acc.factors ++ rest := by
    clear h hne
    induction rest generalizing acc with
    | nil => exact (List.append_nil _).symm
    | cons second rest ih =>
      obtain ⟨hsecond, hrest⟩ := List.forall_mem_cons.mp hrest
      rw [List.foldl_cons, ih hrest, factors_mul, hsecond, List.append_assoc,
        List.singleton_append]
  exact (joined first).trans (by rw [hfirst, List.singleton_append])

/-- What holds of one and of products whose operands have it holds of the product of a list. -/
theorem product_induction {P : Expr K → Prop} (hone : P (.int 1))
    (hmul : ∀ left right, P left → P right → P (.mul left right)) {es : List (Expr K)}
    (h : ∀ e ∈ es, P e) : P (product es) := by
  cases es with
  | nil => exact hone
  | cons first rest => exact product_induction_of_ne_nil hmul (List.cons_ne_nil _ _) h

/-- What holds of zero and of sums whose operands have it holds of the sum of a list. -/
theorem sum_induction {P : Expr K → Prop} (hzero : P (.int 0))
    (hadd : ∀ left right, P left → P right → P (.add left right)) {es : List (Expr K)}
    (h : ∀ e ∈ es, P e) : P (sum es) := by
  cases es with
  | nil => exact hzero
  | cons first rest =>
    exact List.foldlRecOn rest .add (h first List.mem_cons_self) fun acc hacc e he =>
      hadd acc e hacc (h e (List.mem_cons_of_mem _ he))

end Expr

end SymbolicForms
