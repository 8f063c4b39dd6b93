import NetDiagram.Text.Basic

/-!
# Export options

What a request leaves open is taken from the defaults.
-/

namespace NetDiagram

/-- What happens when prefixes share a toggle. -/
inductive CollisionPolicy
  | warn
  | error
  deriving DecidableEq

def CollisionPolicy.name : CollisionPolicy → Text
  | .warn => "warn"
  | .error => "error"

structure Options where
  verbose : Bool
  prefixCollisions : CollisionPolicy

def Options.defaults : Options :=
  ⟨false, .warn⟩

structure OptionRequest where
  verbose : Option Bool
  prefixCollisions : Option CollisionPolicy

def OptionRequest.empty : OptionRequest :=
  ⟨none, none⟩

def OptionRequest.resolve (request : OptionRequest) : Options where
  verbose := request.verbose.getD Options.defaults.verbose
  prefixCollisions := request.prefixCollisions.getD Options.defaults.prefixCollisions

end NetDiagram
