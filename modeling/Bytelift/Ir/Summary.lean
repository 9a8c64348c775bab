import Bytelift.Ir.Dump

/-!
# Summaries of modules

What a listing leaves out, one line for each block and for each allocation or call site.
-/

namespace Bytelift.Ir

def idsText (ids : List Int) : Text := Text.bracketed (ids.map Text.ofInt)

/-- A block with its range, its edges and its unwind destination. -/
def Block.summary (b : Block) : Text :=
  Text.join " " [Text.ofInt b.id, b.label, b.kind.name,
    "[" ++ Text.ofInt b.start ++ "," ++ Text.ofInt b.stop ++ ")",
    "preds", idsText b.preds, "succs", idsText b.succs, "unwind", Text.ofInt b.term.unwind]

def AllocSite.summary (a : AllocSite) : Text :=
  Text.join " " [a.kind.name, a.cls, "elem", Kind.nameOf a.elem, a.elemClass.quote, "length",
    Text.ofInt a.length]

def CallSite.summary (c : CallSite) : Text :=
  Text.join " " [c.dispatch.name, c.method.key, "slot", Text.ofInt c.slot, "receiver",
    Text.ofInt c.receiver, "args", idsText c.args]

def Inst.siteSummaries (i : Inst) : List Text :=
  (i.alloc.toList.map AllocSite.summary ++ i.call.toList.map CallSite.summary).map fun s =>
    valueText i.id ++ " " ++ s

end Bytelift.Ir
