import BytecodeOpt.CallGraph
import BytecodeOpt.Text.Dot

/-!
# Drawing of call graphs

Methods already handed out are grey, methods without callees blue, and broken edges dashed.
-/

namespace BytecodeOpt.CallGraph

def Node.styleText (n : Node) : String :=
  if n.isRemoved then ", style=filled, fillcolor=lightgrey"
  else if n.isLeaf then ", style=filled, fillcolor=lightblue"
  else ""

def nodeText (n : Node) (index : Nat) : String :=
  s!"    n{index} [label=\"{Text.Dot.escape n.method.text}\"{n.styleText}];\n"

def Edge.styleText (e : Edge) : String := if e.isBroken then " [style=dashed]" else ""

def edgeText (index : Nat) (e : Edge) : String :=
  s!"    n{index} -> n{e.callee}{e.styleText};\n"

def headText (title : String) : String :=
  "digraph CallGraph \x7b\n"
    ++ s!"    label=\"{Text.Dot.escape title}\";\n"
    ++ "    labelloc=t;\n"
    ++ "    node [shape=box, fontname=\"Courier\", fontsize=10];\n"
    ++ "    rankdir=TB;\n\n"

def drawing (g : CallGraph) (title : Option String) : String :=
  let nodes := g.nodes.toList.zipIdx
  headText (title.getD "Call Graph")
    ++ "".intercalate (nodes.map fun (n, i) => nodeText n i)
    ++ "\n"
    ++ "".intercalate (nodes.map fun (n, i) => "".intercalate (n.edges.map (edgeText i)))
    ++ "\x7d\n"

end BytecodeOpt.CallGraph
