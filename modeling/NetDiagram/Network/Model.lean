import NetDiagram.Network.Basic

/-!
# Network models

A model answers queries about a network, and any query may fail. Prefixes are
known by keys of the model's own choice.
-/

namespace NetDiagram

structure QueryFailure where
  message : Text
  deriving DecidableEq

abbrev Query := Except QueryFailure

structure Model (P : Type) where
  internalRouters : Query (List RouterId)
  externalRouters : Query (List RouterId)
  routerName : RouterId → Query (Option Text)
  routerPosition : RouterId → Query (Option Position)
  edges : Query (List Edge)
  knownPrefixes : Query (List P)
  prefixString : P → Query Text
  nextHops : P → RouterId → Query (List RouterId)
  sessions : Query (List Session)
  propagations : P → Query (List Propagation)

end NetDiagram
