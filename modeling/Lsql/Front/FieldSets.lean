import Lsql.Core.Schema

/-!
# Lsql.Front.FieldSets

The fields of a relation while a program is bound (`front/common/bound/RelationFieldSets.h`), and the
resolution of a name (`front/common/bind/FieldSetChain.h`).

A file or a stream has any string field; its field set is open, and grows by the fields that are
required of it. Other field sets refer to it, so that it is a cell of the state. The fields of an
alias are those of its source under another name, which the binding may have to be given first.
-/

namespace Lsql.Front

/-- `RelationFieldSet`, by its implementations. -/
inductive RelationFieldSet
  | fixed (fields : FieldSet)
  /-- `OpenRelationFieldSet`, by the number of its cell. -/
  | opened (cell : Nat)
  /-- `AliasRelationFieldSet`, with `prefix_`. -/
  | aliased (aliasPrefix : String) (source : RelationFieldSet)
  | combined (ownFields : FieldSet) (sources : List RelationFieldSet)

/-- `bind::Context`, with the `fields_` of the open field sets in the order of their creation. -/
structure BindState where
  binding : FieldBinding
  openFields : List FieldSet
  named : List (String × RelationFieldSet)

/-- A computation of the binder. -/
abbrev Binder (α : Type) := StateT BindState (Except Fault) α

namespace Binder

/-- `throwAt`. -/
def throwAt {α : Type} (message : String) : Binder α := fun _ => .error (.exception message)

/-- `requireAt`. -/
def requireAt (cond : Bool) (message : String) : Binder Unit := fun s =>
  if cond then .ok ((), s) else .error (.exception message)

/-- `verify`. -/
def verify (cond : Bool) (message : String) : Binder Unit := fun s =>
  if cond then .ok ((), s) else .error (.panic message)

/-- A computation that does not touch the state. -/
def fromExcept {α : Type} (x : Except Fault α) : Binder α := fun s => x.map fun a => (a, s)

/-- `binding->name(id)`. -/
def nameOf (id : FieldId) : Binder String := fun s => fromExcept (s.binding.name id) s

/-- `binding->type(id)`. -/
def typeOf (id : FieldId) : Binder ValueType := fun s => fromExcept (s.binding.type id) s

/-- `binding->getOrAdd(name, type)`. -/
def getOrAdd (name : String) (type : ValueType) : Binder FieldId := fun s =>
  .ok ((s.binding.getOrAdd name type).1, { s with binding := (s.binding.getOrAdd name type).2 })

/-- `arc<OpenRelationFieldSet>(binding)`. -/
def newOpen : Binder RelationFieldSet := fun s =>
  .ok (.opened s.openFields.length, { s with openFields := s.openFields ++ [.emptySet] })

/-- `fields_` of an open field set. -/
def openFieldsOf (cell : Nat) : Binder FieldSet := fun s =>
  match s.openFields[cell]? with
  | some fields => .ok (fields, s)
  | none => .error (.undefined "no such field set")

/-- `fields_.add(id)`. -/
def addOpen (cell : Nat) (id : FieldId) : Binder Unit := fun s =>
  .ok ((), { s with openFields := s.openFields.modify cell fun fields => fields.add id })

end Binder

open Binder

namespace RelationFieldSet

section Fields

variable [HashOrder]

/-- The loop of `AliasRelationFieldSet::fields`. -/
def aliasFields (aliasPrefix : String) : List FieldId → FieldSet → Binder FieldSet
  | [], fields => pure fields
  | id :: ids, fields => do
    let name ← nameOf id
    let type ← typeOf id
    let aliasId ← getOrAdd (aliasPrefix ++ name) type
    aliasFields aliasPrefix ids (fields.add aliasId)

mutual

/-- `fields`. -/
def fields : RelationFieldSet → Binder FieldSet
  | fixed fields => pure fields
  | opened cell => openFieldsOf cell
  | aliased aliasPrefix source => do
    let sourceFields ← source.fields
    aliasFields aliasPrefix sourceFields.fieldIds .emptySet
  | combined ownFields sources => mergeFields ownFields sources

/-- The loop of `CombinedRelationFieldSet::fields`. -/
def mergeFields (merged : FieldSet) : List RelationFieldSet → Binder FieldSet
  | [] => pure merged
  | source :: sources => do
    let sourceFields ← source.fields
    mergeFields (merged.merge sourceFields) sources

end

end Fields

/-- The name behind a prefix, unless nothing is behind it. -/
def behindPrefix (aliasPrefix name : String) : Option String :=
  if aliasPrefix.toList.isPrefixOf name.toList && aliasPrefix.length != name.length then
    some (String.ofList (name.toList.drop aliasPrefix.length))
  else none

/-- `AliasRelationFieldSet::sourceField`. -/
def sourceField (aliasPrefix : String) (id : FieldId) : Binder (Option FieldId) := do
  let name ← nameOf id
  match behindPrefix aliasPrefix name with
  | none => pure none
  | some sourceName => do
    let type ← typeOf id
    let sourceId ← getOrAdd sourceName type
    pure (some sourceId)

mutual

/-- `canProvide`. -/
def canProvide (id : FieldId) : RelationFieldSet → Binder Bool
  | fixed fields => pure (fields.contains id)
  | opened _ => do
    let type ← typeOf id
    pure (type == .string)
  | aliased aliasPrefix source => do
    let sourceId ← sourceField aliasPrefix id
    match sourceId with
    | none => pure false
    | some sourceId => source.canProvide sourceId
  | combined ownFields sources =>
    if ownFields.contains id then pure true else anyProvides id sources

/-- The loop of `CombinedRelationFieldSet::canProvide`. -/
def anyProvides (id : FieldId) : List RelationFieldSet → Binder Bool
  | [] => pure false
  | source :: sources => do
    let provides ← source.canProvide id
    if provides then pure true else anyProvides id sources

end

mutual

/-- `require`. -/
def require (id : FieldId) : RelationFieldSet → Binder Unit
  | fixed fields => Binder.verify (fields.contains id) "verify(canProvide(id)) failed "
  | opened cell => do
    let provides ← (opened cell).canProvide id
    Binder.verify provides "verify(canProvide(id)) failed "
    addOpen cell id
  | aliased aliasPrefix source => do
    let sourceId ← sourceField aliasPrefix id
    match sourceId with
    | none => fun _ => .error (.panic "verify(source_id.has_value()) failed ")
    | some sourceId => source.require sourceId
  | combined ownFields sources => do
    let provides ← (combined ownFields sources).canProvide id
    Binder.verify provides "verify(canProvide(id)) failed "
    if ownFields.contains id then pure () else requireAll id sources

/-- The loop of `CombinedRelationFieldSet::require`. -/
def requireAll (id : FieldId) : List RelationFieldSet → Binder Unit
  | [] => pure ()
  | source :: sources => do
    let provides ← source.canProvide id
    if provides then do
      source.require id
      requireAll id sources
    else requireAll id sources

end

end RelationFieldSet

/-! ### The resolution of a name -/

/-- The first of some fields with a name. -/
def findField (name : String) : List FieldId → Binder (Option FieldId)
  | [] => pure none
  | id :: ids => do
    let fieldName ← nameOf id
    if fieldName == name then pure (some id) else findField name ids

/-- `FieldSetChain`: the field sets that a name is looked up in, the current one first. -/
abbrev FieldSetChain := List RelationFieldSet

/-- `FieldSetChain::typeOfSourceField`. -/
def typeOfSourceField [HashOrder] (name : String) : FieldSetChain → Binder (Option ValueType)
  | [] => pure none
  | current :: parent => do
    let fields ← current.fields
    let found ← findField name fields.fieldIds
    match found with
    | some id => do
      current.require id
      let type ← typeOf id
      pure (some type)
    | none => do
      let id ← getOrAdd name .string
      let provides ← current.canProvide id
      if provides then do
        current.require id
        pure (some .string)
      else typeOfSourceField name parent

end Lsql.Front
