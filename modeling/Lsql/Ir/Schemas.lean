import Lsql.Ir.Refinement

/-!
# Lsql.Ir.Schemas

How the schema of a node hangs together with those of its sources.

Each schema is computed once, when the node is made, and stays with it whatever becomes of the sources.
`Fits` says that it is still the one that would be computed now. A filter may have fewer columns than
its source, but only over a mark join, whose column it hides.
-/

namespace Lsql.Ir

namespace Relation

/-- A mark join, or what is left of one without rows. -/
def IsMark : Relation → Prop
  | markJoin _ _ _ _ _ _ | empty _ => True
  | _ => False

/-- The schema of a node is the one that its sources give it. -/
def FitsNode (named : String → Option Schema) : Relation → Prop
  | values _ id s => s.fields = [id]
  | projection _ ps s => s.fields = ps.map Projector.aliasFieldId
  | aggregate _ as s => s.fields = as.map Aggregate.outputFieldId
  | group _ as ks s =>
    s.fields = as.map Aggregate.outputFieldId ++ ks.map Projector.aliasFieldId
  | limit r _ s | sort r _ _ s | topK r _ _ _ s | materialize r s => s = r.schema
  | filter r _ s => s.fields <+: r.schema.fields ∧ (s = r.schema ∨ r.IsMark)
  | semiJoin r _ _ _ s => s.fields <+: r.schema.fields
  | markJoin r _ _ o _ s => s.fields = r.schema.fields ++ [o]
  | leftJoin l r _ _ s => s.fields = l.schema.fields ++ r.schema.fields
  | unionAll rs s => ∀ r ∈ rs, r.schema = s
  | unionAllSortedBy l r _ _ s => l.schema = s ∧ r.schema = s
  | namedRelationReference name s => named name = some s
  | empty _ | file _ _ _ _ | stream _ _ => True

/-- Every schema is the one that the sources give. -/
abbrev Fits (named : String → Option Schema) (r : Relation) : Prop := r.Everywhere (FitsNode named)

/-- A relation in the place of another one: its columns are the same, and where a column of the old one
may be hidden, one of the new one may. -/
structure Replaces (r r' : Relation) : Prop where
  schema : r'.schema = r.schema
  isMark : r.IsMark → r'.IsMark

namespace Replaces

variable {r r' r'' : Relation}

theorem refl (r : Relation) : Replaces r r := ⟨rfl, fun h => h⟩

theorem trans (h : Replaces r r') (h' : Replaces r' r'') : Replaces r r'' :=
  ⟨h'.schema.trans h.schema, fun hr => h'.isMark (h.isMark hr)⟩

/-- The same operator on other sources. -/
theorem withSources (r : Relation) (qs : List Relation) : Replaces r (r.withSources qs) where
  schema := schema_withSources
  isMark h := by
    unfold Relation.withSources
    split <;> exact h

end Replaces

variable {named : String → Option Schema} {r q q' : Relation} {qs : List Relation}

/-- Sources with the same columns. -/
theorem FitsNode.withSources (h : r.FitsNode named) (hqs : List.Forall₂ Replaces r.sources qs) :
    (r.withSources qs).FitsNode named := by
  cases r with
  | empty s | values vs id s | file path range format s | stream command s
  | namedRelationReference name s =>
      cases hqs
      exact h
  | limit r n s | sort r ks desc s | topK r ks desc n s | materialize r s =>
      obtain ⟨q, rfl, hq⟩ := forall₂_one hqs
      exact Eq.trans h hq.schema.symm
  | filter r c s =>
      obtain ⟨q, rfl, hq⟩ := forall₂_one hqs
      show s.fields <+: q.schema.fields ∧ (s = q.schema ∨ q.IsMark)
      rw [hq.schema]
      exact ⟨h.1, h.2.imp_right hq.isMark⟩
  | semiJoin r m e f s =>
      obtain ⟨q, p, rfl, hq, -⟩ := forall₂_two hqs
      show s.fields <+: q.schema.fields
      rw [hq.schema]
      exact h
  | markJoin r m e o f s =>
      obtain ⟨q, p, rfl, hq, -⟩ := forall₂_two hqs
      show s.fields = q.schema.fields ++ [o]
      rw [hq.schema]
      exact h
  | leftJoin l r lk rk s =>
      obtain ⟨q, p, rfl, hq, hp⟩ := forall₂_two hqs
      show s.fields = q.schema.fields ++ p.schema.fields
      rw [hq.schema, hp.schema]
      exact h
  | unionAllSortedBy l r ks desc s =>
      obtain ⟨q, p, rfl, hq, hp⟩ := forall₂_two hqs
      exact ⟨hq.schema.trans h.1, hp.schema.trans h.2⟩
  | unionAll rs s =>
      intro q' hq'
      obtain ⟨q, hq, hqq'⟩ := forall₂_mem_right hqs hq'
      exact hqq'.schema.trans (h q hq)
  | projection r ps s | aggregate r as s | group r as ks s =>
      obtain ⟨q, rfl, -⟩ := forall₂_one hqs
      exact h

theorem Fits.withSources (h : r.Fits named)
    (hqs : List.Forall₂ (fun q q' => q'.Fits named ∧ Replaces q q') r.sources qs) :
    (r.withSources qs).Fits named := by
  refine .node (h.here.withSources (hqs.imp fun _ _ hq => hq.2)) fun q' hq' => ?_
  rw [sources_withSources hqs.length_eq.symm] at hq'
  obtain ⟨q, -, hq⟩ := forall₂_mem_right hqs hq'
  exact hq.1

/-- A node that fits, over sources that do. -/
theorem fits_one (h : r.FitsNode named) (hsources : r.sources = [q]) (hq : q.Fits named) :
    r.Fits named := by
  refine .node h fun p hp => ?_
  rw [hsources, List.mem_singleton] at hp
  exact hp ▸ hq

theorem fits_two (h : r.FitsNode named) (hsources : r.sources = [q, q']) (hq : q.Fits named)
    (hq' : q'.Fits named) : r.Fits named := by
  refine .node h fun p hp => ?_
  rw [hsources, List.mem_cons, List.mem_singleton] at hp
  rcases hp with rfl | rfl
  · exact hq
  · exact hq'

theorem fits_leaf (h : r.FitsNode named) (hsources : r.sources = []) : r.Fits named := by
  refine .node h fun q hq => ?_
  rw [hsources] at hq
  exact absurd hq List.not_mem_nil

end Relation

/-! ### Programs -/

/-- Statements whose relations fit, with the schemas of the relations that have been named before. -/
def FittingStatements (named : String → Option Schema) : List Statement → Prop
  | [] => True
  | .namedRelation name r :: ss =>
    r.Fits named ∧ FittingStatements (Function.update named name (some r.schema)) ss
  | .query r :: ss => r.Fits named ∧ FittingStatements named ss

/-- A program in which every schema is the one that the sources give. -/
def Program.Fits (program : Program) : Prop := FittingStatements (fun _ => none) program.statements

/-- The columns of a statement. -/
def Statement.schema : Statement → Schema
  | .namedRelation _ r => r.schema
  | .query r => r.schema

/-- The columns of the statements of a program. -/
def Program.schemas (program : Program) : List Schema := program.statements.map Statement.schema

end Lsql.Ir
