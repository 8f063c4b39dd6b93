import NetDiagram.Text.Basic

/-!
# The document skeleton

A standalone document with one token for each placeholder. What is drawn is
chosen by hand in the finished document: every overlay stands behind a switch.
-/

namespace NetDiagram

def skeletonLines : List Text := List.map .ofString [
  "",
  "% This file was automatically generated by tikz-netexport",
  "\\documentclass\x7bstandalone\x7d",
  "",
  "% latex packages",
  "\\usepackage\x7btikz\x7d",
  "\\usetikzlibrary\x7bpositioning, arrows, shapes, calc\x7d",
  "",
  "% color definitions",
  "\\usepackage\x7bxcolor\x7d",
  "\\definecolor\x7bgray-50\x7d\x7bHTML\x7d\x7bF9FAFB\x7d",
  "\\definecolor\x7bgray-300\x7d\x7bHTML\x7d\x7bD1D5DB\x7d",
  "\\definecolor\x7bgray-700\x7d\x7bHTML\x7d\x7b374151\x7d",
  "\\definecolor\x7bred-500\x7d\x7bHTML\x7d\x7bEF4444\x7d",
  "\\definecolor\x7byellow-500\x7d\x7bHTML\x7d\x7bEAB308\x7d",
  "\\definecolor\x7bgreen-500\x7d\x7bHTML\x7d\x7b22C55E\x7d",
  "\\definecolor\x7bblue-500\x7d\x7bHTML\x7d\x7b3B82F6\x7d",
  "\\definecolor\x7bpurple-500\x7d\x7bHTML\x7d\x7bA855F7\x7d",
  "",
  "% Parameters to edit",
  "\\def\\width\x7b8\x7d%cm",
  "\\def\\height\x7b-6\x7d%cm (negative)",
  "\\def\\linkweightdist\x7b0.3\x7d",
  "",
  "% tikzset styles",
  "\\tikzset\x7b",
  "  router/.style = \x7bcircle, fill=gray-50, draw=gray-700, minimum size=0.4cm\x7d,",
  "  external/.style = \x7bcircle, fill=gray-300, draw=gray-700, minimum size=0.4cm\x7d,",
  "  link/.style = \x7bgray-700\x7d,",
  "  next hop/.style = \x7bvery thick, -latex, blue-500\x7d,",
  "  ebgp session/.style = \x7bvery thick, -latex, red-500\x7d,",
  "  ibgp peer session/.style = \x7bvery thick, latex-latex, blue-500\x7d,",
  "  ibgp client session/.style = \x7bvery thick, -latex, purple-500\x7d,",
  "  bgp propagation/.style = \x7bvery thick, -latex, yellow-500\x7d,",
  "  link weight/.style = \x7bfill=white\x7d,",
  "\x7d",
  "",
  "% things to draw",
  "\\def\\showNextHop\x7b1\x7d",
  "% \\def\\showLinkWeights\x7b1\x7d",
  "% \\def\\showBgpSessions\x7b1\x7d",
  "% \\def\\showBgpPropagation\x7b1\x7d",
  "% \\def\\showRouterName\x7b1\x7d",
  "\\def\\prefix1\x7b1\x7d % choices: \x7b\x7bPREFIXES\x7d\x7d",
  "",
  "\\begin\x7bdocument\x7d",
  "\\begin\x7btikzpicture\x7d[xscale=\\width, yscale=\\height]",
  "\x7b\x7bINTERNAL_NODES\x7d\x7d",
  "\x7b\x7bEXTERNAL_NODES\x7d\x7d",
  "",
  "\x7b\x7bEDGES\x7d\x7d",
  "",
  "  \\ifdefined\\showNextHop",
  "\x7b\x7bNEXT_HOPS\x7d\x7d",
  "  \\fi",
  "",
  "  \\ifdefined\\showLinkWeights",
  "\x7b\x7bLINK_WEIGHTS\x7d\x7d",
  "  \\fi",
  "",
  "  \\ifdefined\\showBgpSessions",
  "\x7b\x7bBGP_SESSIONS\x7d\x7d",
  "  \\fi",
  "",
  "  \\ifdefined\\showBgpPropagation",
  "\x7b\x7bBGP_PROPAGATIONS\x7d\x7d",
  "  \\fi",
  "\\end\x7btikzpicture\x7d",
  "\\end\x7bdocument\x7d",
  ""
]

def skeleton : Text :=
  Text.intercalate "\n" skeletonLines

end NetDiagram
