import Lsql.Core.Fault
import Lsql.Front.Ast

/-!
# Lsql.Front.Walks

Walks through a tree: one behind another, one that may fail, and one that replaces identifiers only.
-/

namespace Lsql.Front.Ast

variable {ι κ μ : Type}

/-! ### Walks that do not fail -/

section Rewrite

variable (w : Walker Id ι κ) (depth : Nat)

def Expr.rewrite (e : Expr ι) : Expr κ := Id.run (e.walk w depth)

def Projector.rewrite (p : Projector ι) : Projector κ := Id.run (p.walk w depth)

def Relation.rewrite (r : Relation ι) : Relation κ := Id.run (r.walk w depth)

def rewriteExprs (es : List (Expr ι)) : List (Expr κ) := Id.run (walkExprs w depth es)

def rewriteProjectors (ps : List (Projector ι)) : List (Projector κ) :=
  Id.run (walkProjectors w depth ps)

def rewriteExprOption (e : Option (Expr ι)) : Option (Expr κ) := Id.run (walkExprOption w depth e)

def rewriteExprsOption (es : Option (List (Expr ι))) : Option (List (Expr κ)) :=
  Id.run (walkExprsOption w depth es)

def rewriteProjectorsOption (ps : Option (List (Projector ι))) : Option (List (Projector κ)) :=
  Id.run (walkProjectorsOption w depth ps)

end Rewrite

/-! ### One walk behind another -/

/-- A walk with `w₁` and then with `w₂` does what a walk with `w` does. -/
structure Fuses (w₁ : Walker Id ι κ) (w₂ : Walker Id κ μ) (w : Walker Id ι μ) : Prop where
  identifier : ∀ depth x, Expr.rewrite w₂ depth (w₁.identifier depth x).run = (w.identifier depth x).run
  projector : ∀ depth x,
    Projector.rewrite w₂ depth (w₁.projector depth x).run = (w.projector depth x).run
  call : ∀ depth func args,
    Expr.rewrite w₂ depth (w₁.call func args).run = (w.call func (rewriteExprs w₂ depth args)).run

section Fusion

variable {w₁ : Walker Id ι κ} {w₂ : Walker Id κ μ} {w : Walker Id ι μ}

mutual

theorem Expr.rewrite_rewrite (h : Fuses w₁ w₂ w) (depth : Nat) : ∀ e : Expr ι,
    Expr.rewrite w₂ depth (Expr.rewrite w₁ depth e) = Expr.rewrite w depth e
  | .identifier x => h.identifier depth x
  | .literal _ => rfl
  | .inMatch e r => by
      show Expr.inMatch (Expr.rewrite w₂ depth (Expr.rewrite w₁ depth e))
        (Relation.rewrite w₂ (depth + 1) (Relation.rewrite w₁ (depth + 1) r)) = _
      rw [Expr.rewrite_rewrite h depth e, Relation.rewrite_rewrite h (depth + 1) r]
      rfl
  | .like e regex => congrArg (Expr.like · regex) (Expr.rewrite_rewrite h depth e)
  | .fnCall func args => by
      show Expr.rewrite w₂ depth (w₁.call func (rewriteExprs w₁ depth args)).run = _
      rw [h.call, rewriteExprs_rewrite h depth args]
      rfl
  | .binary type l r => by
      show Expr.binary type (Expr.rewrite w₂ depth (Expr.rewrite w₁ depth l))
        (Expr.rewrite w₂ depth (Expr.rewrite w₁ depth r)) = _
      rw [Expr.rewrite_rewrite h depth l, Expr.rewrite_rewrite h depth r]
      rfl
  | .unary type e => congrArg (Expr.unary type) (Expr.rewrite_rewrite h depth e)

theorem Projector.rewrite_rewrite (h : Fuses w₁ w₂ w) (depth : Nat) : ∀ p : Projector ι,
    Projector.rewrite w₂ depth (Projector.rewrite w₁ depth p) = Projector.rewrite w depth p
  | .star => rfl
  | .identifier x => h.projector depth x
  | .expr aliasName e => congrArg (Projector.expr aliasName) (Expr.rewrite_rewrite h depth e)

theorem Relation.rewrite_rewrite (h : Fuses w₁ w₂ w) (depth : Nat) : ∀ r : Relation ι,
    Relation.rewrite w₂ depth (Relation.rewrite w₁ depth r) = Relation.rewrite w depth r
  | .adhoc _ => rfl
  | .select projectors source limit whereCond having orderList orderDesc groupList => by
      show Relation.select (rewriteProjectors w₂ depth (rewriteProjectors w₁ depth projectors))
        (Relation.rewrite w₂ (depth + 1) (Relation.rewrite w₁ (depth + 1) source)) limit
        (rewriteExprOption w₂ depth (rewriteExprOption w₁ depth whereCond))
        (rewriteExprOption w₂ depth (rewriteExprOption w₁ depth having))
        (rewriteExprsOption w₂ depth (rewriteExprsOption w₁ depth orderList)) orderDesc
        (rewriteProjectorsOption w₂ depth (rewriteProjectorsOption w₁ depth groupList)) = _
      rw [rewriteProjectors_rewrite h depth projectors, Relation.rewrite_rewrite h (depth + 1) source,
        rewriteExprOption_rewrite h depth whereCond, rewriteExprOption_rewrite h depth having,
        rewriteExprsOption_rewrite h depth orderList, rewriteProjectorsOption_rewrite h depth groupList]
      rfl
  | .aliased aliasName source =>
      congrArg (Relation.aliased aliasName) (Relation.rewrite_rewrite h (depth + 1) source)
  | .unionAll l r => by
      show Relation.unionAll (Relation.rewrite w₂ (depth + 1) (Relation.rewrite w₁ (depth + 1) l))
        (Relation.rewrite w₂ (depth + 1) (Relation.rewrite w₁ (depth + 1) r)) = _
      rw [Relation.rewrite_rewrite h (depth + 1) l, Relation.rewrite_rewrite h (depth + 1) r]
      rfl
  | .leftJoin l r condition => by
      show Relation.leftJoin (Relation.rewrite w₂ (depth + 1) (Relation.rewrite w₁ (depth + 1) l))
        (Relation.rewrite w₂ (depth + 1) (Relation.rewrite w₁ (depth + 1) r))
        (Expr.rewrite w₂ depth (Expr.rewrite w₁ depth condition)) = _
      rw [Relation.rewrite_rewrite h (depth + 1) l, Relation.rewrite_rewrite h (depth + 1) r,
        Expr.rewrite_rewrite h depth condition]
      rfl
  | .unionAllSortedBy l r orderList desc => by
      show Relation.unionAllSortedBy
        (Relation.rewrite w₂ (depth + 1) (Relation.rewrite w₁ (depth + 1) l))
        (Relation.rewrite w₂ (depth + 1) (Relation.rewrite w₁ (depth + 1) r))
        (rewriteExprs w₂ depth (rewriteExprs w₁ depth orderList)) desc = _
      rw [Relation.rewrite_rewrite h (depth + 1) l, Relation.rewrite_rewrite h (depth + 1) r,
        rewriteExprs_rewrite h depth orderList]
      rfl
  | .file _ _ _ => rfl
  | .stream _ => rfl
  | .namedRelationReference _ => rfl
  | .materialize r => congrArg Relation.materialize (Relation.rewrite_rewrite h (depth + 1) r)

theorem rewriteExprs_rewrite (h : Fuses w₁ w₂ w) (depth : Nat) : ∀ es : List (Expr ι),
    rewriteExprs w₂ depth (rewriteExprs w₁ depth es) = rewriteExprs w depth es
  | [] => rfl
  | e :: es => by
      show Expr.rewrite w₂ depth (Expr.rewrite w₁ depth e) ::
        rewriteExprs w₂ depth (rewriteExprs w₁ depth es) = _
      rw [Expr.rewrite_rewrite h depth e, rewriteExprs_rewrite h depth es]
      rfl

theorem rewriteProjectors_rewrite (h : Fuses w₁ w₂ w) (depth : Nat) : ∀ ps : List (Projector ι),
    rewriteProjectors w₂ depth (rewriteProjectors w₁ depth ps) = rewriteProjectors w depth ps
  | [] => rfl
  | p :: ps => by
      show Projector.rewrite w₂ depth (Projector.rewrite w₁ depth p) ::
        rewriteProjectors w₂ depth (rewriteProjectors w₁ depth ps) = _
      rw [Projector.rewrite_rewrite h depth p, rewriteProjectors_rewrite h depth ps]
      rfl

theorem rewriteExprOption_rewrite (h : Fuses w₁ w₂ w) (depth : Nat) : ∀ e : Option (Expr ι),
    rewriteExprOption w₂ depth (rewriteExprOption w₁ depth e) = rewriteExprOption w depth e
  | none => rfl
  | some e => congrArg some (Expr.rewrite_rewrite h depth e)

theorem rewriteExprsOption_rewrite (h : Fuses w₁ w₂ w) (depth : Nat) : ∀ es : Option (List (Expr ι)),
    rewriteExprsOption w₂ depth (rewriteExprsOption w₁ depth es) = rewriteExprsOption w depth es
  | none => rfl
  | some es => congrArg some (rewriteExprs_rewrite h depth es)

theorem rewriteProjectorsOption_rewrite (h : Fuses w₁ w₂ w) (depth : Nat) :
    ∀ ps : Option (List (Projector ι)),
    rewriteProjectorsOption w₂ depth (rewriteProjectorsOption w₁ depth ps) =
      rewriteProjectorsOption w depth ps
  | none => rfl
  | some ps => congrArg some (rewriteProjectors_rewrite h depth ps)

end

end Fusion

/-! ### A walk that does not count the relations -/

/-- What a walk makes of an identifier does not depend on the relations around it. -/
structure DepthFree (w : Walker Id ι κ) : Prop where
  identifier : ∀ depth depth' x, w.identifier depth x = w.identifier depth' x
  projector : ∀ depth depth' x, w.projector depth x = w.projector depth' x

section DepthFree

variable {w : Walker Id ι κ}

mutual

theorem Expr.rewrite_depth (h : DepthFree w) (depth depth' : Nat) : ∀ e : Expr ι,
    e.rewrite w depth = e.rewrite w depth'
  | .identifier x => h.identifier depth depth' x
  | .literal _ => rfl
  | .inMatch e r => by
      show Expr.inMatch (e.rewrite w depth) (r.rewrite w (depth + 1)) = _
      rw [Expr.rewrite_depth h depth depth' e, Relation.rewrite_depth h _ (depth' + 1) r]
      rfl
  | .like e regex => congrArg (Expr.like · regex) (Expr.rewrite_depth h depth depth' e)
  | .fnCall func args =>
      congrArg (fun args => (w.call func args).run) (rewriteExprs_depth h depth depth' args)
  | .binary type l r => by
      show Expr.binary type (l.rewrite w depth) (r.rewrite w depth) = _
      rw [Expr.rewrite_depth h depth depth' l, Expr.rewrite_depth h depth depth' r]
      rfl
  | .unary type e => congrArg (Expr.unary type) (Expr.rewrite_depth h depth depth' e)

theorem Projector.rewrite_depth (h : DepthFree w) (depth depth' : Nat) : ∀ p : Projector ι,
    p.rewrite w depth = p.rewrite w depth'
  | .star => rfl
  | .identifier x => h.projector depth depth' x
  | .expr aliasName e => congrArg (Projector.expr aliasName) (Expr.rewrite_depth h depth depth' e)

theorem Relation.rewrite_depth (h : DepthFree w) (depth depth' : Nat) : ∀ r : Relation ι,
    r.rewrite w depth = r.rewrite w depth'
  | .adhoc _ => rfl
  | .select projectors source limit whereCond having orderList orderDesc groupList => by
      show Relation.select (rewriteProjectors w depth projectors) (source.rewrite w (depth + 1)) limit
        (rewriteExprOption w depth whereCond) (rewriteExprOption w depth having)
        (rewriteExprsOption w depth orderList) orderDesc
        (rewriteProjectorsOption w depth groupList) = _
      rw [rewriteProjectors_depth h depth depth' projectors,
        Relation.rewrite_depth h _ (depth' + 1) source,
        rewriteExprOption_depth h depth depth' whereCond,
        rewriteExprOption_depth h depth depth' having,
        rewriteExprsOption_depth h depth depth' orderList,
        rewriteProjectorsOption_depth h depth depth' groupList]
      rfl
  | .aliased aliasName source =>
      congrArg (Relation.aliased aliasName) (Relation.rewrite_depth h _ _ source)
  | .unionAll left right => by
      show Relation.unionAll (left.rewrite w (depth + 1)) (right.rewrite w (depth + 1)) = _
      rw [Relation.rewrite_depth h _ (depth' + 1) left, Relation.rewrite_depth h _ (depth' + 1) right]
      rfl
  | .leftJoin left right condition => by
      show Relation.leftJoin (left.rewrite w (depth + 1)) (right.rewrite w (depth + 1))
        (condition.rewrite w depth) = _
      rw [Relation.rewrite_depth h _ (depth' + 1) left, Relation.rewrite_depth h _ (depth' + 1) right,
        Expr.rewrite_depth h depth depth' condition]
      rfl
  | .unionAllSortedBy left right orderList desc => by
      show Relation.unionAllSortedBy (left.rewrite w (depth + 1)) (right.rewrite w (depth + 1))
        (rewriteExprs w depth orderList) desc = _
      rw [Relation.rewrite_depth h _ (depth' + 1) left, Relation.rewrite_depth h _ (depth' + 1) right,
        rewriteExprs_depth h depth depth' orderList]
      rfl
  | .file _ _ _ => rfl
  | .stream _ => rfl
  | .namedRelationReference _ => rfl
  | .materialize relation => congrArg Relation.materialize (Relation.rewrite_depth h _ _ relation)

theorem rewriteExprs_depth (h : DepthFree w) (depth depth' : Nat) : ∀ es : List (Expr ι),
    rewriteExprs w depth es = rewriteExprs w depth' es
  | [] => rfl
  | e :: es => by
      show e.rewrite w depth :: rewriteExprs w depth es = _
      rw [Expr.rewrite_depth h depth depth' e, rewriteExprs_depth h depth depth' es]
      rfl

theorem rewriteProjectors_depth (h : DepthFree w) (depth depth' : Nat) : ∀ ps : List (Projector ι),
    rewriteProjectors w depth ps = rewriteProjectors w depth' ps
  | [] => rfl
  | p :: ps => by
      show p.rewrite w depth :: rewriteProjectors w depth ps = _
      rw [Projector.rewrite_depth h depth depth' p, rewriteProjectors_depth h depth depth' ps]
      rfl

theorem rewriteExprOption_depth (h : DepthFree w) (depth depth' : Nat) : ∀ e : Option (Expr ι),
    rewriteExprOption w depth e = rewriteExprOption w depth' e
  | none => rfl
  | some e => congrArg some (Expr.rewrite_depth h depth depth' e)

theorem rewriteExprsOption_depth (h : DepthFree w) (depth depth' : Nat) :
    ∀ es : Option (List (Expr ι)), rewriteExprsOption w depth es = rewriteExprsOption w depth' es
  | none => rfl
  | some es => congrArg some (rewriteExprs_depth h depth depth' es)

theorem rewriteProjectorsOption_depth (h : DepthFree w) (depth depth' : Nat) :
    ∀ ps : Option (List (Projector ι)),
      rewriteProjectorsOption w depth ps = rewriteProjectorsOption w depth' ps
  | none => rfl
  | some ps => congrArg some (rewriteProjectors_depth h depth depth' ps)

end

end DepthFree

/-! ### Identifiers -/

mutual

/-- The identifiers of an expression, with the number of relations around them. -/
def Expr.identifiers (depth : Nat) : Expr ι → List (Nat × ι)
  | .identifier x => [(depth, x)]
  | .literal _ => []
  | .inMatch e r => e.identifiers depth ++ r.identifiers (depth + 1)
  | .like e _ => e.identifiers depth
  | .fnCall _ args => identifiersOfExprs depth args
  | .binary _ l r => l.identifiers depth ++ r.identifiers depth
  | .unary _ e => e.identifiers depth

def Projector.identifiers (depth : Nat) : Projector ι → List (Nat × ι)
  | .star => []
  | .identifier x => [(depth, x)]
  | .expr _ e => e.identifiers depth

def Relation.identifiers (depth : Nat) : Relation ι → List (Nat × ι)
  | .adhoc _ => []
  | .select projectors source _ whereCond having orderList _ groupList =>
    identifiersOfProjectors depth projectors ++ source.identifiers (depth + 1) ++
      identifiersOfExprOption depth whereCond ++ identifiersOfExprOption depth having ++
      identifiersOfExprsOption depth orderList ++ identifiersOfProjectorsOption depth groupList
  | .aliased _ source => source.identifiers (depth + 1)
  | .unionAll left right => left.identifiers (depth + 1) ++ right.identifiers (depth + 1)
  | .leftJoin left right condition =>
    left.identifiers (depth + 1) ++ right.identifiers (depth + 1) ++ condition.identifiers depth
  | .unionAllSortedBy left right orderList _ =>
    left.identifiers (depth + 1) ++ right.identifiers (depth + 1) ++
      identifiersOfExprs depth orderList
  | .file _ _ _ => []
  | .stream _ => []
  | .namedRelationReference _ => []
  | .materialize relation => relation.identifiers (depth + 1)

def identifiersOfExprs (depth : Nat) : List (Expr ι) → List (Nat × ι)
  | [] => []
  | e :: es => e.identifiers depth ++ identifiersOfExprs depth es

def identifiersOfProjectors (depth : Nat) : List (Projector ι) → List (Nat × ι)
  | [] => []
  | p :: ps => p.identifiers depth ++ identifiersOfProjectors depth ps

def identifiersOfExprOption (depth : Nat) : Option (Expr ι) → List (Nat × ι)
  | none => []
  | some e => e.identifiers depth

def identifiersOfExprsOption (depth : Nat) : Option (List (Expr ι)) → List (Nat × ι)
  | none => []
  | some es => identifiersOfExprs depth es

def identifiersOfProjectorsOption (depth : Nat) : Option (List (Projector ι)) → List (Nat × ι)
  | none => []
  | some ps => identifiersOfProjectors depth ps

end

/-- The visitor that replaces identifiers by others. -/
def Walker.rename (f : Nat → ι → κ) : Walker Id ι κ where
  identifier depth x := pure (.identifier (f depth x))
  projector depth x := pure (.identifier (f depth x))
  call func args := pure (.fnCall func args)

theorem fuses_rename (f : Nat → ι → κ) (g : Nat → κ → μ) :
    Fuses (.rename f) (.rename g) (.rename fun depth x => g depth (f depth x)) where
  identifier _ _ := rfl
  projector _ _ := rfl
  call _ _ _ := rfl

section Rename

variable {f : Nat → ι → ι}

/-- Identifiers that a renaming keeps. -/
def Kept (f : Nat → ι → ι) (xs : List (Nat × ι)) : Prop := ∀ p ∈ xs, f p.1 p.2 = p.2

theorem kept_append {xs ys : List (Nat × ι)} : Kept f (xs ++ ys) ↔ Kept f xs ∧ Kept f ys :=
  List.forall_mem_append

theorem kept_nil : Kept f [] := fun _ h => absurd h List.not_mem_nil

theorem kept_one {depth : Nat} {x : ι} : Kept f [(depth, x)] ↔ f depth x = x :=
  List.forall_mem_singleton

mutual

/-- **A renaming leaves an expression as it is exactly if it keeps every identifier.** -/
theorem Expr.rename_eq_self (depth : Nat) : ∀ e : Expr ι,
    e.rewrite (.rename f) depth = e ↔ Kept f (e.identifiers depth)
  | .identifier x => by
      show Expr.identifier (f depth x) = .identifier x ↔ _
      rw [Expr.identifier.injEq, Expr.identifiers, kept_one]
  | .literal _ => iff_of_true rfl kept_nil
  | .inMatch e r => by
      show Expr.inMatch (e.rewrite _ depth) (r.rewrite _ (depth + 1)) = .inMatch e r ↔ _
      rw [Expr.inMatch.injEq, Expr.rename_eq_self depth e, Relation.rename_eq_self (depth + 1) r,
        Expr.identifiers, kept_append]
  | .like e regex => by
      show Expr.like (e.rewrite _ depth) regex = .like e regex ↔ _
      rw [Expr.like.injEq, Expr.rename_eq_self depth e, Expr.identifiers, and_iff_left rfl]
  | .fnCall func args => by
      show Expr.fnCall func (rewriteExprs _ depth args) = .fnCall func args ↔ _
      rw [Expr.fnCall.injEq, rewriteExprs_eq_self depth args, Expr.identifiers, and_iff_right rfl]
  | .binary type l r => by
      show Expr.binary type (l.rewrite _ depth) (r.rewrite _ depth) = .binary type l r ↔ _
      rw [Expr.binary.injEq, Expr.rename_eq_self depth l, Expr.rename_eq_self depth r,
        Expr.identifiers, kept_append, and_iff_right rfl]
  | .unary type e => by
      show Expr.unary type (e.rewrite _ depth) = .unary type e ↔ _
      rw [Expr.unary.injEq, Expr.rename_eq_self depth e, Expr.identifiers, and_iff_right rfl]

theorem Projector.rename_eq_self (depth : Nat) : ∀ p : Projector ι,
    p.rewrite (.rename f) depth = p ↔ Kept f (p.identifiers depth)
  | .star => iff_of_true rfl kept_nil
  | .identifier x => by
      show Projector.identifier (f depth x) = .identifier x ↔ _
      rw [Projector.identifier.injEq, Projector.identifiers, kept_one]
  | .expr aliasName e => by
      show Projector.expr aliasName (e.rewrite _ depth) = .expr aliasName e ↔ _
      rw [Projector.expr.injEq, Expr.rename_eq_self depth e, Projector.identifiers,
        and_iff_right rfl]

theorem Relation.rename_eq_self (depth : Nat) : ∀ r : Relation ι,
    r.rewrite (.rename f) depth = r ↔ Kept f (r.identifiers depth)
  | .adhoc _ => iff_of_true rfl kept_nil
  | .select projectors source limit whereCond having orderList orderDesc groupList => by
      show Relation.select (rewriteProjectors _ depth projectors) (source.rewrite _ (depth + 1)) limit
        (rewriteExprOption _ depth whereCond) (rewriteExprOption _ depth having)
        (rewriteExprsOption _ depth orderList) orderDesc
        (rewriteProjectorsOption _ depth groupList) = .select projectors source limit whereCond having
          orderList orderDesc groupList ↔ _
      rw [Relation.select.injEq, rewriteProjectors_eq_self depth projectors,
        Relation.rename_eq_self (depth + 1) source, rewriteExprOption_eq_self depth whereCond,
        rewriteExprOption_eq_self depth having, rewriteExprsOption_eq_self depth orderList,
        rewriteProjectorsOption_eq_self depth groupList, Relation.identifiers]
      simp only [kept_append, true_and, and_assoc]
  | .aliased aliasName source => by
      show Relation.aliased aliasName (source.rewrite _ (depth + 1)) = .aliased aliasName source ↔ _
      rw [Relation.aliased.injEq, Relation.rename_eq_self (depth + 1) source, Relation.identifiers,
        and_iff_right rfl]
  | .unionAll left right => by
      show Relation.unionAll (left.rewrite _ (depth + 1)) (right.rewrite _ (depth + 1)) =
        .unionAll left right ↔ _
      rw [Relation.unionAll.injEq, Relation.rename_eq_self (depth + 1) left,
        Relation.rename_eq_self (depth + 1) right, Relation.identifiers, kept_append]
  | .leftJoin left right condition => by
      show Relation.leftJoin (left.rewrite _ (depth + 1)) (right.rewrite _ (depth + 1))
        (condition.rewrite _ depth) = .leftJoin left right condition ↔ _
      rw [Relation.leftJoin.injEq, Relation.rename_eq_self (depth + 1) left,
        Relation.rename_eq_self (depth + 1) right, Expr.rename_eq_self depth condition,
        Relation.identifiers, kept_append, kept_append, and_assoc]
  | .unionAllSortedBy left right orderList desc => by
      show Relation.unionAllSortedBy (left.rewrite _ (depth + 1)) (right.rewrite _ (depth + 1))
        (rewriteExprs _ depth orderList) desc = .unionAllSortedBy left right orderList desc ↔ _
      rw [Relation.unionAllSortedBy.injEq, Relation.rename_eq_self (depth + 1) left,
        Relation.rename_eq_self (depth + 1) right, rewriteExprs_eq_self depth orderList,
        Relation.identifiers, kept_append, kept_append, and_iff_left rfl, and_assoc]
  | .file _ _ _ => iff_of_true rfl kept_nil
  | .stream _ => iff_of_true rfl kept_nil
  | .namedRelationReference _ => iff_of_true rfl kept_nil
  | .materialize relation => by
      show Relation.materialize (relation.rewrite _ (depth + 1)) = .materialize relation ↔ _
      rw [Relation.materialize.injEq, Relation.rename_eq_self (depth + 1) relation,
        Relation.identifiers]

theorem rewriteExprs_eq_self (depth : Nat) : ∀ es : List (Expr ι),
    rewriteExprs (.rename f) depth es = es ↔ Kept f (identifiersOfExprs depth es)
  | [] => iff_of_true rfl kept_nil
  | e :: es => by
      show e.rewrite _ depth :: rewriteExprs _ depth es = e :: es ↔ _
      rw [List.cons.injEq, Expr.rename_eq_self depth e, rewriteExprs_eq_self depth es,
        identifiersOfExprs, kept_append]

theorem rewriteProjectors_eq_self (depth : Nat) : ∀ ps : List (Projector ι),
    rewriteProjectors (.rename f) depth ps = ps ↔ Kept f (identifiersOfProjectors depth ps)
  | [] => iff_of_true rfl kept_nil
  | p :: ps => by
      show p.rewrite _ depth :: rewriteProjectors _ depth ps = p :: ps ↔ _
      rw [List.cons.injEq, Projector.rename_eq_self depth p, rewriteProjectors_eq_self depth ps,
        identifiersOfProjectors, kept_append]

theorem rewriteExprOption_eq_self (depth : Nat) : ∀ e : Option (Expr ι),
    rewriteExprOption (.rename f) depth e = e ↔ Kept f (identifiersOfExprOption depth e)
  | none => iff_of_true rfl kept_nil
  | some e => by
      show some (e.rewrite _ depth) = some e ↔ _
      rw [Option.some.injEq, Expr.rename_eq_self depth e, identifiersOfExprOption]

theorem rewriteExprsOption_eq_self (depth : Nat) : ∀ es : Option (List (Expr ι)),
    rewriteExprsOption (.rename f) depth es = es ↔ Kept f (identifiersOfExprsOption depth es)
  | none => iff_of_true rfl kept_nil
  | some es => by
      show some (rewriteExprs _ depth es) = some es ↔ _
      rw [Option.some.injEq, rewriteExprs_eq_self depth es, identifiersOfExprsOption]

theorem rewriteProjectorsOption_eq_self (depth : Nat) : ∀ ps : Option (List (Projector ι)),
    rewriteProjectorsOption (.rename f) depth ps = ps ↔
      Kept f (identifiersOfProjectorsOption depth ps)
  | none => iff_of_true rfl kept_nil
  | some ps => by
      show some (rewriteProjectors _ depth ps) = some ps ↔ _
      rw [Option.some.injEq, rewriteProjectors_eq_self depth ps, identifiersOfProjectorsOption]

end

end Rename

/-! ### A walk that may fail -/

/-- What `w` makes of a part, if it makes something of it, is what `w'` makes of it. -/
structure Follows (w : Walker (Except Fault) ι κ) (w' : Walker Id ι κ) : Prop where
  identifier : ∀ {depth x e}, w.identifier depth x = .ok e → e = (w'.identifier depth x).run
  projector : ∀ {depth x p}, w.projector depth x = .ok p → p = (w'.projector depth x).run
  call : ∀ {func args e}, w.call func args = .ok e → e = (w'.call func args).run

section Follows

variable {w : Walker (Except Fault) ι κ} {w' : Walker Id ι κ}

mutual

theorem Expr.walk_follows (h : Follows w w') (depth : Nat) : ∀ (e : Expr ι) {e' : Expr κ},
    e.walk w depth = .ok e' → e' = e.rewrite w' depth
  | .identifier _, _, he => h.identifier he
  | .literal _, _, he => (Except.ok.inj he).symm
  | .inMatch e r, _, he => by
      obtain ⟨e', he', hr⟩ := bind_eq_ok.mp he
      obtain ⟨r', hr', heq⟩ := bind_eq_ok.mp hr
      rw [← Except.ok.inj heq, Expr.walk_follows h depth e he',
        Relation.walk_follows h (depth + 1) r hr']
      rfl
  | .like e regex, _, he => by
      obtain ⟨e', he', heq⟩ := bind_eq_ok.mp he
      rw [← Except.ok.inj heq, Expr.walk_follows h depth e he']
      rfl
  | .fnCall func args, _, he => by
      obtain ⟨args', hargs, hcall⟩ := bind_eq_ok.mp he
      rw [h.call hcall, walkExprs_follows h depth args hargs]
      rfl
  | .binary type l r, _, he => by
      obtain ⟨l', hl, hr⟩ := bind_eq_ok.mp he
      obtain ⟨r', hr', heq⟩ := bind_eq_ok.mp hr
      rw [← Except.ok.inj heq, Expr.walk_follows h depth l hl, Expr.walk_follows h depth r hr']
      rfl
  | .unary type e, _, he => by
      obtain ⟨e', he', heq⟩ := bind_eq_ok.mp he
      rw [← Except.ok.inj heq, Expr.walk_follows h depth e he']
      rfl

theorem Projector.walk_follows (h : Follows w w') (depth : Nat) :
    ∀ (p : Projector ι) {p' : Projector κ}, p.walk w depth = .ok p' → p' = p.rewrite w' depth
  | .star, _, hp => (Except.ok.inj hp).symm
  | .identifier _, _, hp => h.projector hp
  | .expr aliasName e, _, hp => by
      obtain ⟨e', he', heq⟩ := bind_eq_ok.mp hp
      rw [← Except.ok.inj heq, Expr.walk_follows h depth e he']
      rfl

theorem Relation.walk_follows (h : Follows w w') (depth : Nat) :
    ∀ (r : Relation ι) {r' : Relation κ}, r.walk w depth = .ok r' → r' = r.rewrite w' depth
  | .adhoc _, _, hr => (Except.ok.inj hr).symm
  | .select projectors source limit whereCond having orderList orderDesc groupList, _, hr => by
      obtain ⟨projectors', hprojectors, hr⟩ := bind_eq_ok.mp hr
      obtain ⟨source', hsource, hr⟩ := bind_eq_ok.mp hr
      obtain ⟨whereCond', hwhere, hr⟩ := bind_eq_ok.mp hr
      obtain ⟨having', hhaving, hr⟩ := bind_eq_ok.mp hr
      obtain ⟨orderList', horder, hr⟩ := bind_eq_ok.mp hr
      obtain ⟨groupList', hgroup, heq⟩ := bind_eq_ok.mp hr
      rw [← Except.ok.inj heq, walkProjectors_follows h depth projectors hprojectors,
        Relation.walk_follows h (depth + 1) source hsource,
        walkExprOption_follows h depth whereCond hwhere,
        walkExprOption_follows h depth having hhaving,
        walkExprsOption_follows h depth orderList horder,
        walkProjectorsOption_follows h depth groupList hgroup]
      rfl
  | .aliased aliasName source, _, hr => by
      obtain ⟨source', hsource, heq⟩ := bind_eq_ok.mp hr
      rw [← Except.ok.inj heq, Relation.walk_follows h (depth + 1) source hsource]
      rfl
  | .unionAll left right, _, hr => by
      obtain ⟨left', hleft, hr⟩ := bind_eq_ok.mp hr
      obtain ⟨right', hright, heq⟩ := bind_eq_ok.mp hr
      rw [← Except.ok.inj heq, Relation.walk_follows h (depth + 1) left hleft,
        Relation.walk_follows h (depth + 1) right hright]
      rfl
  | .leftJoin left right condition, _, hr => by
      obtain ⟨left', hleft, hr⟩ := bind_eq_ok.mp hr
      obtain ⟨right', hright, hr⟩ := bind_eq_ok.mp hr
      obtain ⟨condition', hcondition, heq⟩ := bind_eq_ok.mp hr
      rw [← Except.ok.inj heq, Relation.walk_follows h (depth + 1) left hleft,
        Relation.walk_follows h (depth + 1) right hright, Expr.walk_follows h depth condition hcondition]
      rfl
  | .unionAllSortedBy left right orderList desc, _, hr => by
      obtain ⟨left', hleft, hr⟩ := bind_eq_ok.mp hr
      obtain ⟨right', hright, hr⟩ := bind_eq_ok.mp hr
      obtain ⟨orderList', horder, heq⟩ := bind_eq_ok.mp hr
      rw [← Except.ok.inj heq, Relation.walk_follows h (depth + 1) left hleft,
        Relation.walk_follows h (depth + 1) right hright, walkExprs_follows h depth orderList horder]
      rfl
  | .file _ _ _, _, hr => (Except.ok.inj hr).symm
  | .stream _, _, hr => (Except.ok.inj hr).symm
  | .namedRelationReference _, _, hr => (Except.ok.inj hr).symm
  | .materialize relation, _, hr => by
      obtain ⟨relation', hrelation, heq⟩ := bind_eq_ok.mp hr
      rw [← Except.ok.inj heq, Relation.walk_follows h (depth + 1) relation hrelation]
      rfl

theorem walkExprs_follows (h : Follows w w') (depth : Nat) :
    ∀ (es : List (Expr ι)) {es' : List (Expr κ)}, walkExprs w depth es = .ok es' →
      es' = rewriteExprs w' depth es
  | [], _, hes => (Except.ok.inj hes).symm
  | e :: es, _, hes => by
      obtain ⟨e', he, hes⟩ := bind_eq_ok.mp hes
      obtain ⟨es', hes', heq⟩ := bind_eq_ok.mp hes
      rw [← Except.ok.inj heq, Expr.walk_follows h depth e he, walkExprs_follows h depth es hes']
      rfl

theorem walkProjectors_follows (h : Follows w w') (depth : Nat) :
    ∀ (ps : List (Projector ι)) {ps' : List (Projector κ)}, walkProjectors w depth ps = .ok ps' →
      ps' = rewriteProjectors w' depth ps
  | [], _, hps => (Except.ok.inj hps).symm
  | p :: ps, _, hps => by
      obtain ⟨p', hp, hps⟩ := bind_eq_ok.mp hps
      obtain ⟨ps', hps', heq⟩ := bind_eq_ok.mp hps
      rw [← Except.ok.inj heq, Projector.walk_follows h depth p hp,
        walkProjectors_follows h depth ps hps']
      rfl

theorem walkExprOption_follows (h : Follows w w') (depth : Nat) :
    ∀ (e : Option (Expr ι)) {e' : Option (Expr κ)}, walkExprOption w depth e = .ok e' →
      e' = rewriteExprOption w' depth e
  | none, _, he => (Except.ok.inj he).symm
  | some e, _, he => by
      obtain ⟨e', he', heq⟩ := bind_eq_ok.mp he
      rw [← Except.ok.inj heq, Expr.walk_follows h depth e he']
      rfl

theorem walkExprsOption_follows (h : Follows w w') (depth : Nat) :
    ∀ (es : Option (List (Expr ι))) {es' : Option (List (Expr κ))},
      walkExprsOption w depth es = .ok es' → es' = rewriteExprsOption w' depth es
  | none, _, hes => (Except.ok.inj hes).symm
  | some es, _, hes => by
      obtain ⟨es', hes', heq⟩ := bind_eq_ok.mp hes
      rw [← Except.ok.inj heq, walkExprs_follows h depth es hes']
      rfl

theorem walkProjectorsOption_follows (h : Follows w w') (depth : Nat) :
    ∀ (ps : Option (List (Projector ι))) {ps' : Option (List (Projector κ))},
      walkProjectorsOption w depth ps = .ok ps' → ps' = rewriteProjectorsOption w' depth ps
  | none, _, hps => (Except.ok.inj hps).symm
  | some ps, _, hps => by
      obtain ⟨ps', hps', heq⟩ := bind_eq_ok.mp hps
      rw [← Except.ok.inj heq, walkProjectors_follows h depth ps hps']
      rfl

end

end Follows

end Lsql.Front.Ast
