import Lsql.Front.Walks

/-!
# Lsql.Front.Calls

The calls in a tree, and what a walk does to them: a walk that may fail has accepted every one, and a
walk that replaces parts leaves those that the new parts bring along.
-/

namespace Lsql.Front.Ast

variable {ι κ : Type}

/-! ### Call collection -/

mutual

/-- The calls of an expression at any depth, each with the number of its arguments. -/
def Expr.calls : Expr ι → List (String × Nat)
  | .identifier _ => []
  | .literal _ => []
  | .inMatch e r => e.calls ++ r.calls
  | .like e _ => e.calls
  | .fnCall func args => (func, args.length) :: callsOfExprs args
  | .binary _ l r => l.calls ++ r.calls
  | .unary _ e => e.calls

def Projector.calls : Projector ι → List (String × Nat)
  | .star => []
  | .identifier _ => []
  | .expr _ e => e.calls

def Relation.calls : Relation ι → List (String × Nat)
  | .adhoc _ => []
  | .select projectors source _ whereCond having orderList _ groupList =>
    callsOfProjectors projectors ++ source.calls ++ callsOfExprOption whereCond ++
      callsOfExprOption having ++ callsOfExprsOption orderList ++ callsOfProjectorsOption groupList
  | .aliased _ source => source.calls
  | .unionAll left right => left.calls ++ right.calls
  | .leftJoin left right condition => left.calls ++ right.calls ++ condition.calls
  | .unionAllSortedBy left right orderList _ => left.calls ++ right.calls ++ callsOfExprs orderList
  | .file _ _ _ => []
  | .stream _ => []
  | .namedRelationReference _ => []
  | .materialize relation => relation.calls

def callsOfExprs : List (Expr ι) → List (String × Nat)
  | [] => []
  | e :: es => e.calls ++ callsOfExprs es

def callsOfProjectors : List (Projector ι) → List (String × Nat)
  | [] => []
  | p :: ps => p.calls ++ callsOfProjectors ps

def callsOfExprOption : Option (Expr ι) → List (String × Nat)
  | none => []
  | some e => e.calls

def callsOfExprsOption : Option (List (Expr ι)) → List (String × Nat)
  | none => []
  | some es => callsOfExprs es

def callsOfProjectorsOption : Option (List (Projector ι)) → List (String × Nat)
  | none => []
  | some ps => callsOfProjectors ps

end

/-- The calls of a statement. -/
def Statement.calls : Statement ι → List (String × Nat)
  | .namedRelation _ relation => relation.calls
  | .macroDefinition _ _ body => body.calls
  | .query relation => relation.calls

/-- What holds of every call of a list. -/
def Each (P : String × Nat → Prop) (calls : List (String × Nat)) : Prop := ∀ c ∈ calls, P c

variable {P Q : String × Nat → Prop}

@[simp] theorem each_nil : Each P [] := fun _ h => absurd h List.not_mem_nil

@[simp] theorem each_append {cs ds : List (String × Nat)} :
    Each P (cs ++ ds) ↔ Each P cs ∧ Each P ds :=
  List.forall_mem_append

@[simp] theorem each_cons {c : String × Nat} {cs : List (String × Nat)} :
    Each P (c :: cs) ↔ P c ∧ Each P cs :=
  List.forall_mem_cons

theorem each_callsOfExprs {es : List (Expr ι)} :
    Each P (callsOfExprs es) ↔ ∀ e ∈ es, Each P e.calls := by
  induction es with
  | nil => simp [callsOfExprs]
  | cons e es ih => simp [callsOfExprs, ih]

/-! ### A walk that replaces parts -/

/-- What the walk makes of an identifier calls only what `P` allows, and so does what it makes of a
call that `Q` allows, with arguments that call what `P` allows. -/
structure Brings (w : Walker Id ι κ) (Q P : String × Nat → Prop) : Prop where
  identifier : ∀ depth x, Each P (w.identifier depth x).run.calls
  projector : ∀ depth x, Each P (w.projector depth x).run.calls
  call : ∀ func args, Q (func, args.length) → (∀ e ∈ args, Each P e.calls) →
    Each P (w.call func args).run.calls

theorem length_rewriteExprs (w : Walker Id ι κ) (depth : Nat) (es : List (Expr ι)) :
    (rewriteExprs w depth es).length = es.length := by
  induction es with
  | nil => rfl
  | cons e es ih => exact congrArg (· + 1) ih

section Brings

variable {w : Walker Id ι κ}

mutual

theorem Expr.calls_rewrite (h : Brings w Q P) (depth : Nat) : ∀ e : Expr ι,
    Each Q e.calls → Each P (e.rewrite w depth).calls
  | .identifier x, _ => h.identifier depth x
  | .literal _, _ => each_nil
  | .inMatch e r, hQ => by
      rw [Expr.calls, each_append] at hQ
      exact each_append.mpr
        ⟨Expr.calls_rewrite h depth e hQ.1, Relation.calls_rewrite h (depth + 1) r hQ.2⟩
  | .like e _, hQ => Expr.calls_rewrite h depth e hQ
  | .fnCall func args, hQ => by
      rw [Expr.calls, each_cons] at hQ
      refine h.call func (rewriteExprs w depth args) ?_ ?_
      · rw [length_rewriteExprs]
        exact hQ.1
      · exact each_callsOfExprs.mp (callsOfExprs_rewrite h depth args hQ.2)
  | .binary _ l r, hQ => by
      rw [Expr.calls, each_append] at hQ
      exact each_append.mpr ⟨Expr.calls_rewrite h depth l hQ.1, Expr.calls_rewrite h depth r hQ.2⟩
  | .unary _ e, hQ => Expr.calls_rewrite h depth e hQ

theorem Projector.calls_rewrite (h : Brings w Q P) (depth : Nat) : ∀ p : Projector ι,
    Each Q p.calls → Each P (p.rewrite w depth).calls
  | .star, _ => each_nil
  | .identifier x, _ => h.projector depth x
  | .expr _ e, hQ => Expr.calls_rewrite h depth e hQ

theorem Relation.calls_rewrite (h : Brings w Q P) (depth : Nat) : ∀ r : Relation ι,
    Each Q r.calls → Each P (r.rewrite w depth).calls
  | .adhoc _, _ => each_nil
  | .select projectors source _ whereCond having orderList _ groupList, hQ => by
      simp only [Relation.calls, each_append] at hQ
      obtain ⟨⟨⟨⟨⟨hprojectors, hsource⟩, hwhere⟩, hhaving⟩, horder⟩, hgroup⟩ := hQ
      have hleft := each_append.mpr ⟨callsOfProjectors_rewrite h depth projectors hprojectors,
        Relation.calls_rewrite h (depth + 1) source hsource⟩
      have hconditions := each_append.mpr
        ⟨each_append.mpr ⟨hleft, callsOfExprOption_rewrite h depth whereCond hwhere⟩,
          callsOfExprOption_rewrite h depth having hhaving⟩
      exact each_append.mpr
        ⟨each_append.mpr ⟨hconditions, callsOfExprsOption_rewrite h depth orderList horder⟩,
          callsOfProjectorsOption_rewrite h depth groupList hgroup⟩
  | .aliased _ source, hQ => Relation.calls_rewrite h (depth + 1) source hQ
  | .unionAll l r, hQ => by
      rw [Relation.calls, each_append] at hQ
      exact each_append.mpr
        ⟨Relation.calls_rewrite h (depth + 1) l hQ.1, Relation.calls_rewrite h (depth + 1) r hQ.2⟩
  | .leftJoin l r condition, hQ => by
      rw [Relation.calls, each_append, each_append] at hQ
      have hsides := each_append.mpr ⟨Relation.calls_rewrite h (depth + 1) l hQ.1.1,
        Relation.calls_rewrite h (depth + 1) r hQ.1.2⟩
      exact each_append.mpr ⟨hsides, Expr.calls_rewrite h depth condition hQ.2⟩
  | .unionAllSortedBy l r orderList _, hQ => by
      rw [Relation.calls, each_append, each_append] at hQ
      have hsides := each_append.mpr ⟨Relation.calls_rewrite h (depth + 1) l hQ.1.1,
        Relation.calls_rewrite h (depth + 1) r hQ.1.2⟩
      exact each_append.mpr ⟨hsides, callsOfExprs_rewrite h depth orderList hQ.2⟩
  | .file _ _ _, _ => each_nil
  | .stream _, _ => each_nil
  | .namedRelationReference _, _ => each_nil
  | .materialize relation, hQ => Relation.calls_rewrite h (depth + 1) relation hQ

theorem callsOfExprs_rewrite (h : Brings w Q P) (depth : Nat) : ∀ es : List (Expr ι),
    Each Q (callsOfExprs es) → Each P (callsOfExprs (rewriteExprs w depth es))
  | [], _ => each_nil
  | e :: es, hQ => by
      rw [callsOfExprs, each_append] at hQ
      exact each_append.mpr ⟨Expr.calls_rewrite h depth e hQ.1, callsOfExprs_rewrite h depth es hQ.2⟩

theorem callsOfProjectors_rewrite (h : Brings w Q P) (depth : Nat) : ∀ ps : List (Projector ι),
    Each Q (callsOfProjectors ps) → Each P (callsOfProjectors (rewriteProjectors w depth ps))
  | [], _ => each_nil
  | p :: ps, hQ => by
      rw [callsOfProjectors, each_append] at hQ
      exact each_append.mpr
        ⟨Projector.calls_rewrite h depth p hQ.1, callsOfProjectors_rewrite h depth ps hQ.2⟩

theorem callsOfExprOption_rewrite (h : Brings w Q P) (depth : Nat) : ∀ e : Option (Expr ι),
    Each Q (callsOfExprOption e) → Each P (callsOfExprOption (rewriteExprOption w depth e))
  | none, _ => each_nil
  | some e, hQ => Expr.calls_rewrite h depth e hQ

theorem callsOfExprsOption_rewrite (h : Brings w Q P) (depth : Nat) : ∀ es : Option (List (Expr ι)),
    Each Q (callsOfExprsOption es) → Each P (callsOfExprsOption (rewriteExprsOption w depth es))
  | none, _ => each_nil
  | some es, hQ => callsOfExprs_rewrite h depth es hQ

theorem callsOfProjectorsOption_rewrite (h : Brings w Q P) (depth : Nat) :
    ∀ ps : Option (List (Projector ι)), Each Q (callsOfProjectorsOption ps) →
      Each P (callsOfProjectorsOption (rewriteProjectorsOption w depth ps))
  | none, _ => each_nil
  | some ps, hQ => callsOfProjectors_rewrite h depth ps hQ

end

end Brings

/-! ### A walk that may fail -/

theorem length_walkExprs {w : Walker (Except Fault) ι κ} {depth : Nat} {es : List (Expr ι)}
    {es' : List (Expr κ)} (h : walkExprs w depth es = .ok es') : es'.length = es.length := by
  induction es generalizing es' with
  | nil =>
      cases h
      rfl
  | cons e es ih =>
      obtain ⟨e', -, h⟩ := bind_eq_ok.mp h
      obtain ⟨es', hes, heq⟩ := bind_eq_ok.mp h
      rw [← Except.ok.inj heq, List.length_cons, List.length_cons, ih hes]

/-- Only calls that `Q` allows pass the visitor. -/
def Passes (w : Walker (Except Fault) ι κ) (Q : String × Nat → Prop) : Prop :=
  ∀ func args e, w.call func args = .ok e → Q (func, args.length)

section Passes

variable {w : Walker (Except Fault) ι κ}

mutual

theorem Expr.calls_walk (h : Passes w Q) (depth : Nat) : ∀ (e : Expr ι) {e' : Expr κ},
    e.walk w depth = .ok e' → Each Q e.calls
  | .identifier _, _, _ => each_nil
  | .literal _, _, _ => each_nil
  | .inMatch e r, _, he => by
      obtain ⟨e', he, hr⟩ := bind_eq_ok.mp he
      obtain ⟨r', hr, -⟩ := bind_eq_ok.mp hr
      exact each_append.mpr ⟨Expr.calls_walk h depth e he, Relation.calls_walk h (depth + 1) r hr⟩
  | .like e _, _, he => by
      obtain ⟨e', he, -⟩ := bind_eq_ok.mp he
      exact Expr.calls_walk h depth e he
  | .fnCall func args, _, he => by
      obtain ⟨args', hargs, hcall⟩ := bind_eq_ok.mp he
      have hthis := h func args' _ hcall
      rw [length_walkExprs hargs] at hthis
      exact each_cons.mpr ⟨hthis, callsOfExprs_walk h depth args hargs⟩
  | .binary _ l r, _, he => by
      obtain ⟨l', hl, hr⟩ := bind_eq_ok.mp he
      obtain ⟨r', hr, -⟩ := bind_eq_ok.mp hr
      exact each_append.mpr ⟨Expr.calls_walk h depth l hl, Expr.calls_walk h depth r hr⟩
  | .unary _ e, _, he => by
      obtain ⟨e', he, -⟩ := bind_eq_ok.mp he
      exact Expr.calls_walk h depth e he

theorem Projector.calls_walk (h : Passes w Q) (depth : Nat) :
    ∀ (p : Projector ι) {p' : Projector κ}, p.walk w depth = .ok p' → Each Q p.calls
  | .star, _, _ => each_nil
  | .identifier _, _, _ => each_nil
  | .expr _ e, _, hp => by
      obtain ⟨e', he, -⟩ := bind_eq_ok.mp hp
      exact Expr.calls_walk h depth e he

theorem Relation.calls_walk (h : Passes w Q) (depth : Nat) :
    ∀ (r : Relation ι) {r' : Relation κ}, r.walk w depth = .ok r' → Each Q r.calls
  | .adhoc _, _, _ => each_nil
  | .select projectors source _ whereCond having orderList _ groupList, _, hr => by
      obtain ⟨projectors', hprojectors, hr⟩ := bind_eq_ok.mp hr
      obtain ⟨source', hsource, hr⟩ := bind_eq_ok.mp hr
      obtain ⟨whereCond', hwhere, hr⟩ := bind_eq_ok.mp hr
      obtain ⟨having', hhaving, hr⟩ := bind_eq_ok.mp hr
      obtain ⟨orderList', horder, hr⟩ := bind_eq_ok.mp hr
      obtain ⟨groupList', hgroup, -⟩ := bind_eq_ok.mp hr
      simp only [Relation.calls, each_append]
      exact ⟨⟨⟨⟨⟨callsOfProjectors_walk h depth projectors hprojectors,
        Relation.calls_walk h (depth + 1) source hsource⟩,
        callsOfExprOption_walk h depth whereCond hwhere⟩,
        callsOfExprOption_walk h depth having hhaving⟩,
        callsOfExprsOption_walk h depth orderList horder⟩,
        callsOfProjectorsOption_walk h depth groupList hgroup⟩
  | .aliased _ source, _, hr => by
      obtain ⟨source', hsource, -⟩ := bind_eq_ok.mp hr
      exact Relation.calls_walk h (depth + 1) source hsource
  | .unionAll left right, _, hr => by
      obtain ⟨left', hleft, hr⟩ := bind_eq_ok.mp hr
      obtain ⟨right', hright, -⟩ := bind_eq_ok.mp hr
      exact each_append.mpr ⟨Relation.calls_walk h (depth + 1) left hleft,
        Relation.calls_walk h (depth + 1) right hright⟩
  | .leftJoin left right condition, _, hr => by
      obtain ⟨left', hleft, hr⟩ := bind_eq_ok.mp hr
      obtain ⟨right', hright, hr⟩ := bind_eq_ok.mp hr
      obtain ⟨condition', hcondition, -⟩ := bind_eq_ok.mp hr
      simp only [Relation.calls, each_append]
      exact ⟨⟨Relation.calls_walk h (depth + 1) left hleft,
        Relation.calls_walk h (depth + 1) right hright⟩, Expr.calls_walk h depth condition hcondition⟩
  | .unionAllSortedBy left right orderList _, _, hr => by
      obtain ⟨left', hleft, hr⟩ := bind_eq_ok.mp hr
      obtain ⟨right', hright, hr⟩ := bind_eq_ok.mp hr
      obtain ⟨orderList', horder, -⟩ := bind_eq_ok.mp hr
      simp only [Relation.calls, each_append]
      exact ⟨⟨Relation.calls_walk h (depth + 1) left hleft,
        Relation.calls_walk h (depth + 1) right hright⟩, callsOfExprs_walk h depth orderList horder⟩
  | .file _ _ _, _, _ => each_nil
  | .stream _, _, _ => each_nil
  | .namedRelationReference _, _, _ => each_nil
  | .materialize relation, _, hr => by
      obtain ⟨relation', hrelation, -⟩ := bind_eq_ok.mp hr
      exact Relation.calls_walk h (depth + 1) relation hrelation

theorem callsOfExprs_walk (h : Passes w Q) (depth : Nat) :
    ∀ (es : List (Expr ι)) {es' : List (Expr κ)}, walkExprs w depth es = .ok es' →
      Each Q (callsOfExprs es)
  | [], _, _ => each_nil
  | e :: es, _, hes => by
      obtain ⟨e', he, hes⟩ := bind_eq_ok.mp hes
      obtain ⟨es', hes, -⟩ := bind_eq_ok.mp hes
      exact each_append.mpr ⟨Expr.calls_walk h depth e he, callsOfExprs_walk h depth es hes⟩

theorem callsOfProjectors_walk (h : Passes w Q) (depth : Nat) :
    ∀ (ps : List (Projector ι)) {ps' : List (Projector κ)}, walkProjectors w depth ps = .ok ps' →
      Each Q (callsOfProjectors ps)
  | [], _, _ => each_nil
  | p :: ps, _, hps => by
      obtain ⟨p', hp, hps⟩ := bind_eq_ok.mp hps
      obtain ⟨ps', hps, -⟩ := bind_eq_ok.mp hps
      exact each_append.mpr ⟨Projector.calls_walk h depth p hp, callsOfProjectors_walk h depth ps hps⟩

theorem callsOfExprOption_walk (h : Passes w Q) (depth : Nat) :
    ∀ (e : Option (Expr ι)) {e' : Option (Expr κ)}, walkExprOption w depth e = .ok e' →
      Each Q (callsOfExprOption e)
  | none, _, _ => each_nil
  | some e, _, he => by
      obtain ⟨e', he, -⟩ := bind_eq_ok.mp he
      exact Expr.calls_walk h depth e he

theorem callsOfExprsOption_walk (h : Passes w Q) (depth : Nat) :
    ∀ (es : Option (List (Expr ι))) {es' : Option (List (Expr κ))},
      walkExprsOption w depth es = .ok es' → Each Q (callsOfExprsOption es)
  | none, _, _ => each_nil
  | some es, _, hes => by
      obtain ⟨es', hes, -⟩ := bind_eq_ok.mp hes
      exact callsOfExprs_walk h depth es hes

theorem callsOfProjectorsOption_walk (h : Passes w Q) (depth : Nat) :
    ∀ (ps : Option (List (Projector ι))) {ps' : Option (List (Projector κ))},
      walkProjectorsOption w depth ps = .ok ps' → Each Q (callsOfProjectorsOption ps)
  | none, _, _ => each_nil
  | some ps, _, hps => by
      obtain ⟨ps', hps, -⟩ := bind_eq_ok.mp hps
      exact callsOfProjectors_walk h depth ps hps

end

end Passes

end Lsql.Front.Ast
