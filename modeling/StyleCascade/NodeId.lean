/-!
# Node handles
-/
namespace StyleCascade

/-- A handle to a node of a document. Handles are given out in ascending order and
never given out twice. -/
structure NodeId where
  index : Nat
deriving DecidableEq, Repr, Inhabited

namespace NodeId

/-- The root of every document. -/
def root : NodeId := ⟨0⟩

def text (id : NodeId) : String :=
  "#" ++ toString id.index

end NodeId
end StyleCascade
