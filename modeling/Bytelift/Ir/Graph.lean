import Bytelift.Ir.Module

/-!
# Block graphs

The blocks of a module as a graph in the DOT language, with unwind edges drawn dashed and the blocks of
exception handling coloured by kind.
-/

namespace Bytelift.Ir

/-- The text of a DOT string: quotes and line feeds are escaped, and backslashes stay, so that a label
can break lines with `\n`. -/
def dotEscape (t : Text) : Text :=
  t.flatMap fun b => if b = 34 then "\\\"" else if b = 10 then "\\n" else [b]

def BlockKind.colour? : BlockKind → Option Text
  | .landingpad => some "#f4cccc"
  | .dispatch => some "#fce5cd"
  | .resume => some "#ead1dc"
  | .leave => some "#d9ead3"
  | _ => none

namespace Block

/-- What is written into a node: label, kind, number of instructions, and whether it is the pad of a
cleanup. -/
def caption (b : Block) : Text :=
  List.flatten [b.label, "\\n", b.kind.name, " insts=", Text.ofNat b.insts.size,
    if b.pad.any (·.cleanup) then "\\ncleanup" else []]

def dotNode (b : Block) : Text :=
  let style : Text := match b.kind.colour? with
    | some c => ", style=filled, fillcolor=\"" ++ c ++ "\""
    | none => []
  List.flatten ["  n", Text.ofInt b.id, " [label=\"", dotEscape b.caption, "\"", style, "];\n"]

def dotEdges (b : Block) : Text :=
  b.succs.flatMap fun s =>
    let style : Text := if s = b.term.unwind then " [style=dashed, label=\"unwind\"]" else []
    List.flatten ["  n", Text.ofInt b.id, " -> n", Text.ofInt s, style, ";\n"]

end Block

def Module.graph (m : Module) : Text :=
  List.flatten ["digraph IR \x7b\n  node [shape=box, fontname=\"monospace\"];\n",
    "  labelloc=\"t\";\n  label=\"", dotEscape m.method, "\";\n",
    m.blocks.toList.flatMap Block.dotNode, m.blocks.toList.flatMap Block.dotEdges, "\x7d\n"]

end Bytelift.Ir
