import NetDiagram.Network.Basic
import NetDiagram.Numeric.Shortest
import NetDiagram.Picture.Weight

/-!
# Drawing commands

A command is one line of the picture. Commands that belong to a prefix stand in
a block that is read only while the toggle of the prefix is defined; a block
without commands keeps an empty line.
-/

namespace NetDiagram

inductive NodeStyle
  | router
  | external
  deriving DecidableEq

def NodeStyle.name : NodeStyle → Text
  | .router => "router"
  | .external => "external"

def SessionKind.style : SessionKind → Text
  | .ebgp => "ebgp session"
  | .ibgpPeer => "ibgp peer session"
  | .ibgpClient => "ibgp client session"

inductive Command
  | node (style : NodeStyle) (router : RouterId) (position : Position) (name : Text)
  | link (a b : RouterId)
  | nextHop (router hop : RouterId)
  | weight (a b : RouterId) (label : WeightLabel)
  | session (kind : SessionKind) (source destination : RouterId)
  | propagation (source destination : RouterId)
  deriving DecidableEq

def nodeName (router : RouterId) : Text :=
  "r" ++ router.text

namespace Command

/-- A curve between two nodes. -/
def bend (source destination : RouterId) : Text :=
  "(" ++ nodeName source ++ ") to[bend left=20] (" ++ nodeName destination ++ ");"

def text : Command → Text
  | .node style router position name =>
    "  \\node[" ++ style.name ++ "] at (" ++ position.x.text ++ ", " ++ position.y.text ++ ") (" ++ nodeName router ++
      ") \x7b\x7d; % " ++ name
  | .link a b => "  \\draw[link] (" ++ nodeName a ++ ") -- (" ++ nodeName b ++ ");"
  | .nextHop router hop => "      \\draw[next hop] (" ++ nodeName router ++ ") -- (" ++ nodeName hop ++ ");"
  | .weight a b label =>
    "    \\draw ($(" ++ nodeName a ++ ")!\\linkweightdist!(" ++ nodeName b ++ ")$) node[link weight] \x7b " ++
      label.text ++ " \x7d;"
  | .session kind source destination => "    \\draw[" ++ kind.style ++ "] " ++ bend source destination
  | .propagation source destination => "      \\draw[bgp propagation] " ++ bend source destination

end Command

def commandLines (commands : List Command) : Text :=
  Text.intercalate "\n" (commands.map Command.text)

structure Block where
  toggle : Text
  commands : List Command
  deriving DecidableEq

def Block.text (block : Block) : Text :=
  "    \\ifdefined\\" ++ block.toggle ++ "\n" ++ commandLines block.commands ++ "\n  \\fi"

def blockLines (blocks : List Block) : Text :=
  Text.intercalate "\n" (blocks.map Block.text)

end NetDiagram
