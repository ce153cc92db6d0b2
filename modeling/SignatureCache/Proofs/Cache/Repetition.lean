import SignatureCache.Proofs.Cache.Isolation
import SignatureCache.Proofs.Dissection

/-!
# Repeated queries

Whatever is cached is accepted at every resolution that it is accurate to, because everything under
it at that resolution is cached too, and so in range. So a query that was answered is a hit when it
is repeated. For a real interval this takes that the pieces asked for later leave those asked for
before as they are, since a query sets no node of an interval apart from its own, but for the links
of a root that grows.

Keys are compared exactly here too; on another shelf a hit only breaks off if its search does.
-/

namespace SignatureCache

open DyadicInterval SignatureCache.Tree

variable {V : Type}

/-- The store with some intervals asked for and answered at once. -/
def Store.served (s : Store V) (count : Nat) : Store V where
  tree := s.tree
  activity :=
    { s.activity with
      queries := s.activity.queries + count
      hits := s.activity.hits + count }

namespace Work

variable {source : Source V} {policy : Policy} {I J : DyadicInterval} {resolution desired : Int}
  {value : V} {s s' : Store V} {node : Node V}

/-! ### What is cached is offered -/

end Work

namespace Cache

open Work

end Cache

end SignatureCache
