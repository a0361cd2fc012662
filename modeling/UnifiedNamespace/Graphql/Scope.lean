/-
# `Graphql.Scope` — the caller's view of the Asset tree

`access.py`, `auth/token.py` and `auth/scope.py`.  An admin is unrestricted; everyone
else has the root paths of their Access Groups, and sees a path at or below one.  A topic
is seen when the Asset it is bound to is, and the two ways to bind it, the Asset tree and
the catalog of tags, are `TopicBindings`.
-/
import UnifiedNamespace.Model.TopicPath

namespace Uns.Graphql

open Py Model

structure Identity where
  subject : Str
  roles : List Str

def Identity.hasAny (identity : Identity) (roles : List Str) : Bool := roles.any (· ∈ identity.roles)

structure AccessScope where
  unrestricted : Bool
  rootPaths : List Str

def AccessScope.coversPath (scope : AccessScope) (path : Str) : Bool :=
  scope.unrestricted || scope.rootPaths.any fun root => covers path root

/-- The path is in scope, or above a granted root. -/
def AccessScope.keepsTreeNode (scope : AccessScope) (path : Str) : Bool :=
  scope.coversPath path || scope.rootPaths.any fun root => covers root path

/-- `scope_for`; nobody signed in sees nothing. -/
def scopeFor (identity : Option Identity) (rootsFor : Str → List Str) : AccessScope :=
  match identity with
  | none => ⟨false, []⟩
  | some identity =>
      if identity.hasAny [lit "admin"] then ⟨true, []⟩ else ⟨false, rootsFor identity.subject⟩

def visibleTopic (scope : AccessScope) (boundAssetPath : Option Str) : Bool :=
  scope.unrestricted || boundAssetPath.any scope.coversPath

/-- The Asset path of a topic: of the deepest Asset above it, and of a subscribed tag on it. -/
structure TopicBindings where
  resolve : Str → Option Str
  connectivity : Str → Option Str

/-- `allowed_topic`: the tag is asked only about a topic that no Asset is above. -/
def allowedTopic (scope : AccessScope) (bindings : TopicBindings) (topic : Str) : Bool :=
  scope.unrestricted ||
    match bindings.resolve topic with
    | some bound => visibleTopic scope (some bound)
    | none => visibleTopic scope (bindings.connectivity topic)

end Uns.Graphql
