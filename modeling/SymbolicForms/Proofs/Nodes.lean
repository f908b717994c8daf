import SymbolicForms.Cleanup
import SymbolicForms.Proofs.Names
import SymbolicForms.Statistics

/-!
# Nodes of expressions

The nodes of an expression are the expression itself and all expressions it is
made from, at any depth. What holds at every node holds at every node of a node.
Rebuilding an expression by a rule brings everywhere what the rule makes of
operands that have it everywhere, and changes nothing where the rule leaves every
operator alone. A term does not look into the arguments of its functions and the factors that it
keeps whole. Products keep the parts of both terms, and a term read from an
expression keeps nodes of the expression and keeps factors of it whole, whatever
the operations on numbers give.
-/

namespace SymbolicForms

variable {K : Type}

namespace Expr

/-- The expression itself and all expressions it is made from. -/
def nodes : Expr K → List (Expr K)
  | .const value => [.const value]
  | .var name => [.var name]
  | .func name argument => .func name argument :: argument.nodes
  | .binary op left right => .binary op left right :: (left.nodes ++ right.nodes)

/-- There are as many nodes as are counted. -/
theorem length_nodes (e : Expr K) : e.nodes.length = e.nodeCount := by
  induction e with
  | func name argument ih => rw [nodes, List.length_cons, ih, nodeCount, Nat.add_comm]
  | binary op left right ihl ihr =>
    rw [nodes, List.length_cons, List.length_append, ihl, ihr, nodeCount]
    omega
  | _ => rfl

/-- An expression is one of its nodes. -/
theorem mem_nodes_self (e : Expr K) : e ∈ e.nodes := by
  cases e <;> exact List.mem_cons_self

/-- The nodes of a node are nodes. -/
theorem nodes_subset_of_mem {e node : Expr K} (h : node ∈ e.nodes) : node.nodes ⊆ e.nodes := by
  induction e with
  | const value => exact List.mem_singleton.mp h ▸ List.Subset.refl _
  | var name => exact List.mem_singleton.mp h ▸ List.Subset.refl _
  | func name argument ih =>
    obtain rfl | hargument := List.mem_cons.mp h
    · exact List.Subset.refl _
    · exact List.subset_cons_of_subset _ (ih hargument)
  | binary op left right ihl ihr =>
    obtain rfl | hoperand := List.mem_cons.mp h
    · exact List.Subset.refl _
    · obtain hleft | hright := List.mem_append.mp hoperand
      · exact List.subset_cons_of_subset _ (List.subset_append_of_subset_left _ (ihl hleft))
      · exact List.subset_cons_of_subset _ (List.subset_append_of_subset_right _ (ihr hright))

/-- The argument of a function is one of its nodes. -/
theorem argument_mem_nodes (name : String) (argument : Expr K) :
    argument ∈ (Expr.func name argument).nodes :=
  List.mem_cons_of_mem _ argument.mem_nodes_self

/-- The nodes of a left operand are nodes. -/
theorem left_nodes_subset (op : Op) (left right : Expr K) :
    left.nodes ⊆ (Expr.binary op left right).nodes :=
  List.subset_cons_of_subset _ (List.subset_append_left _ _)

/-- The nodes of a right operand are nodes. -/
theorem right_nodes_subset (op : Op) (left right : Expr K) :
    right.nodes ⊆ (Expr.binary op left right).nodes :=
  List.subset_cons_of_subset _ (List.subset_append_right _ _)

/-- A property holds at every node. -/
def Everywhere (P : Expr K → Prop) (e : Expr K) : Prop := ∀ node ∈ e.nodes, P node

section Everywhere

variable {P : Expr K → Prop}

@[simp] theorem everywhere_const {value : K} :
    (Expr.const value).Everywhere P ↔ P (.const value) := List.forall_mem_singleton

@[simp] theorem everywhere_var {name : String} :
    (Expr.var name : Expr K).Everywhere P ↔ P (.var name) := List.forall_mem_singleton

@[simp] theorem everywhere_func {name : String} {argument : Expr K} :
    (Expr.func name argument).Everywhere P ↔ P (.func name argument) ∧ argument.Everywhere P :=
  List.forall_mem_cons

@[simp] theorem everywhere_binary {op : Op} {left right : Expr K} :
    (Expr.binary op left right).Everywhere P ↔
      P (.binary op left right) ∧ left.Everywhere P ∧ right.Everywhere P := by
  rw [Everywhere, nodes, List.forall_mem_cons, List.forall_mem_append]
  rfl

/-- What holds everywhere holds at the root. -/
theorem Everywhere.self {e : Expr K} (h : e.Everywhere P) : P e := h e e.mem_nodes_self

/-- What holds everywhere in an expression holds everywhere in its nodes. -/
theorem Everywhere.of_mem {e node : Expr K} (h : e.Everywhere P) (hn : node ∈ e.nodes) :
    node.Everywhere P := fun below hb => h below (nodes_subset_of_mem hn hb)

/-- What follows from something that holds everywhere holds everywhere. -/
theorem Everywhere.mono {Q : Expr K → Prop} {e : Expr K} (h : e.Everywhere P)
    (hPQ : ∀ node, P node → Q node) : e.Everywhere Q := fun node hn => hPQ node (h node hn)

end Everywhere

section Rebuild

variable {P : Expr K → Prop} {join : Op → Expr K → Expr K → Expr K}

/-- What holds of numbers, variables and functions, and everywhere in what a rule makes of operands
that have it everywhere, holds everywhere in what is rebuilt by the rule. -/
theorem everywhere_rebuild (hconst : ∀ value, P (.const value)) (hvar : ∀ name, P (.var name))
    (hfunc : ∀ name argument, P (.func name argument))
    (hjoin : ∀ op left right, left.Everywhere P → right.Everywhere P →
      (join op left right).Everywhere P) (e : Expr K) : (rebuild join e).Everywhere P := by
  induction e with
  | const value => exact everywhere_const.mpr (hconst value)
  | var name => exact everywhere_var.mpr (hvar name)
  | func name argument ih => exact everywhere_func.mpr ⟨hfunc name _, ih⟩
  | binary op left right ihl ihr => exact hjoin op _ _ ihl ihr

/-- A rule that leaves operators alone where something holds everywhere gives back an expression
in which it holds everywhere. -/
theorem rebuild_eq_self
    (hjoin : ∀ op left right, (Expr.binary op left right).Everywhere P →
      join op left right = .binary op left right) {e : Expr K} (h : e.Everywhere P) :
    rebuild join e = e := by
  induction e with
  | const value => rfl
  | var name => rfl
  | func name argument ih => rw [rebuild, ih (everywhere_func.mp h).2]
  | binary op left right ihl ihr =>
    obtain ⟨-, hl, hr⟩ := everywhere_binary.mp h
    rw [rebuild, ihl hl, ihr hr, hjoin op left right h]

end Rebuild

/-- The factors of an expression are nodes. -/
theorem factors_subset_nodes (e : Expr K) : e.factors ⊆ e.nodes := by
  have hoperands (left right : Expr K) (h : Expr.mul left right ∈ e.nodes) :
      left ∈ e.nodes ∧ right ∈ e.nodes :=
    ⟨nodes_subset_of_mem h (left_nodes_subset _ _ _ left.mem_nodes_self),
      nodes_subset_of_mem h (right_nodes_subset _ _ _ right.mem_nodes_self)⟩
  exact fun factor hf =>
    forall_mem_factors (P := fun part => part ∈ e.nodes) hoperands e.mem_nodes_self factor hf

end Expr

namespace Term

/-- The parts of a term that are not looked into: the arguments of its functions, and the factors
that are kept whole. -/
def keptParts (t : Term K) : List (Expr K) :=
  (t.functionPowers.entries.map fun entry => entry.1.argument) ++ t.nested

/-- The argument of a function of a term is a kept part. -/
theorem argument_mem_keptParts {t : Term K} {function : FunctionKey K}
    (h : function ∈ t.functionPowers.entries.map Prod.fst) : function.argument ∈ t.keptParts := by
  obtain ⟨entry, hentry, rfl⟩ := List.mem_map.mp h
  exact List.mem_append_left _ (List.mem_map_of_mem hentry)

/-- A factor that is kept whole is a kept part. -/
theorem nested_subset_keptParts (t : Term K) : t.nested ⊆ t.keptParts :=
  List.subset_append_right _ _

variable [Scalar K]

/-- A product of terms keeps the parts of the two terms. -/
theorem keptParts_multiply_subset (t other : Term K) :
    (t.multiply other).keptParts ⊆ t.keptParts ++ other.keptParts := by
  intro part hpart
  obtain hfunction | hnested := List.mem_append.mp hpart
  · obtain ⟨entry, hentry, rfl⟩ := List.mem_map.mp hfunction
    obtain hold | hnew := FunctionPowers.fst_of_mem_foldl_accumulate Prod.snd hentry
    · exact List.mem_append_left _ (argument_mem_keptParts hold)
    · exact List.mem_append_right _ (argument_mem_keptParts hnew)
  · obtain hold | hnew := List.mem_append.mp hnested
    · exact List.mem_append_left _ (t.nested_subset_keptParts hold)
    · exact List.mem_append_right _ (other.nested_subset_keptParts hnew)

/-- One function read as a term keeps its argument. -/
theorem keptParts_single_subset (function : FunctionKey K) (exponent : K) :
    (ofFunctions (.single function exponent)).keptParts ⊆ [function.argument] := by
  intro part hpart
  obtain hargument | hnone := List.mem_append.mp hpart
  · obtain ⟨entry, hentry, rfl⟩ := List.mem_map.mp hargument
    obtain heq | hnone := FunctionPowers.fst_of_mem_accumulateEntry hentry
    · exact List.mem_singleton.mpr (congrArg FunctionKey.argument heq)
    · exact absurd hnone List.not_mem_nil
  · exact absurd hnone List.not_mem_nil

/-- A factor read as a term keeps nodes of the factor. -/
theorem keptParts_ofFactor_subset_nodes (e : Expr K) : (ofFactor e).keptParts ⊆ e.nodes := by
  have hwhole (e : Expr K) : (whole e).keptParts ⊆ e.nodes :=
    List.cons_subset.mpr ⟨e.mem_nodes_self, List.nil_subset _⟩
  have hargument (name : String) (argument : Expr K) :
      [argument] ⊆ (Expr.func name argument).nodes :=
    List.cons_subset.mpr ⟨Expr.argument_mem_nodes name argument, List.nil_subset _⟩
  unfold ofFactor
  split
  · exact List.nil_subset _
  · exact List.nil_subset _
  · exact List.Subset.trans (keptParts_single_subset _ _) (hargument _ _)
  · next base exponent =>
    unfold ofPower
    split
    · exact List.nil_subset _
    · split
      · exact List.nil_subset _
      · exact hwhole _
    · exact List.Subset.trans (keptParts_single_subset _ _)
        (List.Subset.trans (hargument _ _) (Expr.left_nodes_subset _ _ _))
    · exact hwhole _
  · exact hwhole _

/-- An expression read as a term keeps nodes of the expression. -/
theorem keptParts_ofExpr_subset_nodes (e : Expr K) : (ofExpr e).keptParts ⊆ e.nodes := by
  refine ofExpr_induction (P := fun t => t.keptParts ⊆ e.nodes) (List.nil_subset _)
    (fun t other ht ho => List.Subset.trans (keptParts_multiply_subset t other)
      (List.append_subset.mpr ⟨ht, ho⟩)) fun factor hf => ?_
  exact List.Subset.trans (keptParts_ofFactor_subset_nodes factor)
    (Expr.nodes_subset_of_mem (e.factors_subset_nodes hf))

end Term

end SymbolicForms
