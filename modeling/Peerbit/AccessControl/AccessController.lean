import Peerbit.Documents.Iterate
import Peerbit.Lib.Machines
import Peerbit.TrustedNetwork.IdentityGraph

/-!
# The identity access controller

It reads three stores: the trust graph, the graph of identities and the access rights.
Each store takes in an operation when one of the keys that signed it may perform it, as
the stores then are.  Its index holds documents that it has taken in, in some order, and
may lag behind.

A relation that is put comes with an id of its own, which need not be the hash of its
keys, and takes the place of the document with this id.

A search asks other peers too.  What they answer is taken as it is: whether they have it
in their logs, who has signed it, and whether it matches, no one checks.
-/

namespace Peerbit
namespace AccessControl

open TrustedNetwork

/-- A key as a document has it, with the id of the document, or as a search starts from
it. -/
abbrev WrittenKey (K ι : Type) := K × Option ι

/-- The relation of a document. -/
def relationDocument {K ι : Type} (id : ι) (from_ to_ : K) :
    IdentityRelation (WrittenKey K ι) where
  from_ := (from_, some id)
  to_ := (to_, some id)

inductive AccessType where
  | Any
  | Read
  | Write
deriving Repr, DecidableEq

inductive AccessCondition (K : Type) where
  | any
  | publicKey (key : K)
deriving Repr, DecidableEq

structure Access (K : Type) where
  id : Option String
  accessTypes : List AccessType
  accessCondition : AccessCondition K
deriving Repr, DecidableEq

/-- What an entry does to a store: it puts a document, or deletes the one under a key. -/
inductive Operation (D ι : Type) where
  | put (value : D)
  | delete (key : ι)

/-- `CanPerformOperations`: an operation with the keys that signed its entry. -/
structure Properties (K D ι : Type) where
  operation : Operation D ι
  publicKeys : List K

/-- What other peers answer to the searches of a check. -/
structure Remote (K ι : Type) where
  trustGraph : WrittenKey K ι → List (IdentityRelation (WrittenKey K ι))
  relationGraph : WrittenKey K ι → List (IdentityRelation (WrittenKey K ι))
  access : AccessType → List (Access K)

/-- The peers are not there, or have nothing. -/
def Remote.none {K ι : Type} : Remote K ι := ⟨fun _ => [], fun _ => [], fun _ => []⟩

section Controller

variable {K ι : Type} [DecidableEq K] [DecidableEq ι]

def AccessCondition.allowed : AccessCondition K → K → Bool
  | .any, _ => true
  | .publicKey key, identity => key = identity

/-- `index.search`: the own documents, in one page, and those of other peers after them. -/
def search {D κ : Type} [DecidableEq κ] (indexByResolver : D → κ) (own answers : List D) :
    List D :=
  Documents.dedup indexByResolver (own ++ answers)

/-- `getFromByTo`, for documents. -/
def getFromByTo (answers : WrittenKey K ι → List (IdentityRelation (WrittenKey K ι))) :
    RelationResolver (WrittenKey K ι) where
  resolve to_ db :=
    search (fun r => r.to_.2) (db.relations.filter (fun r => r.to_.1 = to_.1)) (answers to_)
  next relation := relation.from_

/-- The loop over the keys of an entry, until one passes.  A check that does not end ends
nothing. -/
def checkKeys (check : K → Option Bool) : List K → Option Bool
  | [] => some false
  | key :: keys =>
      match check key with
      | none => none
      | some true => some true
      | some false => checkKeys check keys

def canPerformByRelation (isTrusted : Option (K → Option Bool))
    (properties : Properties K (IdentityRelation (WrittenKey K ι)) ι) : Option Bool :=
  let trusted := fun key =>
    match isTrusted with
    | some isTrusted => isTrusted key
    | none => some true
  checkKeys
    (fun key =>
      match properties.operation with
      | .put relation => if relation.from_.1 ≠ key then some false else trusted key
      | .delete _ => trusted key)
    properties.publicKeys

/-- The documents in the indexes of the three stores, and all that have been taken in. -/
structure IdentityAccessController (K ι : Type) where
  trustGraph : RelationStore (WrittenKey K ι)
  relationGraph : RelationStore (WrittenKey K ι)
  access : List (Access K)
  trustLog : List (IdentityRelation (WrittenKey K ι))
  relationLog : List (IdentityRelation (WrittenKey K ι))
  accessLog : List (Access K)

namespace IdentityAccessController

variable (c : IdentityAccessController K ι) (remote : Remote K ι) (rootTrust : K)

def init : IdentityAccessController K ι where
  trustGraph := ⟨[], fun _ => false, List.nodup_nil⟩
  relationGraph := ⟨[], fun _ => false, List.nodup_nil⟩
  access := []
  trustLog := []
  relationLog := []
  accessLog := []

/-- `TrustedNetwork.isTrusted`. -/
def isTrusted (fuel : Nat) (trustee : K) : Option Bool :=
  if trustee = rootTrust then some true
  else
    hasPathToTarget c.trustGraph (getFromByTo remote.trustGraph) fuel (trustee, none)
      (fun key => decide (rootTrust = key.1))

/-- `canReadCheck` and `canPerformCheck`: the search for documents of the type, or of any,
and the check of each. -/
def accessCheck (type : AccessType) (key : K) : Bool :=
  let found := search Access.id
    (c.access.filter
      (fun access => decide (.Any ∈ access.accessTypes ∨ type ∈ access.accessTypes)))
    (remote.access type)
  found.any (fun access =>
    (access.accessTypes.find? (fun x => x = .Any ∨ x = type)).isSome &&
      access.accessCondition.allowed key)

/-- The check of a key and of those that the identity graph leads to. -/
def allowedByKey (type : AccessType) (fuel : Nat) (key : K) : Option Bool :=
  match c.isTrusted remote rootTrust fuel key with
  | none => none
  | some true => some true
  | some false =>
      if c.accessCheck remote type key then some true
      else
        let generated := getPathGenerator c.relationGraph (getFromByTo remote.relationGraph) fuel
          [(key, none)] []
        if generated.1.any
            (fun trustedByKey => c.accessCheck remote type trustedByKey.from_.1) then
          some true
        else if generated.2 then some false
        else none

def canRead (fuel : Nat) : Option K → Option Bool
  | none => some false
  | some s => c.allowedByKey remote rootTrust .Read fuel s

def canPerform (fuel : Nat) (properties : Properties K (Access K) ι) : Option Bool :=
  checkKeys (c.allowedByKey remote rootTrust .Write fuel) properties.publicKeys

/-- `TrustedNetwork.canPerform`. -/
def canPerformTrust (fuel : Nat)
    (properties : Properties K (IdentityRelation (WrittenKey K ι)) ι) : Option Bool :=
  canPerformByRelation (some (c.isTrusted remote rootTrust fuel)) properties

end IdentityAccessController

/-- `IdentityGraph.canPerform`. -/
def canPerformRelation (properties : Properties K (IdentityRelation (WrittenKey K ι)) ι) :
    Option Bool :=
  canPerformByRelation none properties

/-- An entry comes in to a store, with a bound on the levels of a search for a trust path and
the answers of other peers; or the index of a store changes. -/
inductive AccessAction (K ι : Type) where
  | appendTrust (properties : Properties K (IdentityRelation (WrittenKey K ι)) ι) (fuel : Nat)
      (remote : Remote K ι)
  | appendRelation (properties : Properties K (IdentityRelation (WrittenKey K ι)) ι)
  | appendAccess (properties : Properties K (Access K) ι) (fuel : Nat) (remote : Remote K ι)
  | indexTrust (db : RelationStore (WrittenKey K ι))
  | indexRelations (db : RelationStore (WrittenKey K ι))
  | indexAccess (access : List (Access K))

/-- The documents of a log, with that of an operation that is taken in. -/
def Operation.append {D : Type} (operation : Operation D ι) (log : List D) : List D :=
  match operation with
  | .put value => log ++ [value]
  | .delete _ => log

open IdentityAccessController in
def step (rootTrust : K) (c : IdentityAccessController K ι) :
    AccessAction K ι → Option (IdentityAccessController K ι)
  | .appendTrust properties fuel remote =>
      if c.canPerformTrust remote rootTrust fuel properties = some true then
        some { c with trustLog := properties.operation.append c.trustLog }
      else none
  | .appendRelation properties =>
      if canPerformRelation properties = some true then
        some { c with relationLog := properties.operation.append c.relationLog }
      else none
  | .appendAccess properties fuel remote =>
      if c.canPerform remote rootTrust fuel properties = some true then
        some { c with accessLog := properties.operation.append c.accessLog }
      else none
  | .indexTrust db =>
      if db.relations ⊆ c.trustLog then some { c with trustGraph := db } else none
  | .indexRelations db =>
      if db.relations ⊆ c.relationLog then some { c with relationGraph := db } else none
  | .indexAccess access =>
      if access ⊆ c.accessLog then some { c with access := access } else none

def machine (rootTrust : K) : Lib.Machine (IdentityAccessController K ι) (AccessAction K ι) where
  init := .init
  step := step rootTrust

end Controller

end AccessControl
end Peerbit
