import Bytelift.Text.Utf8

/-!
# Printed tables

A table is printed with rules around its cells. Columns are as wide as their widest cell; numbers stand
on the right, other cells on the left, the header and the footer in the middle and in upper case.
-/

namespace Bytelift.Cli

/-- A table. An empty footer is not printed. -/
structure Table where
  header : List Text
  rows : List (List Text) := []
  footer : List Text := []
  deriving DecidableEq, Repr

def upper (t : Text) : Text := t.map fun b => if 97 ≤ b && b ≤ 122 then b - 32 else b

namespace Table

/-- The lines of cells: the header, the rows, and the cells of the footer that are not empty. -/
def cells (t : Table) : List (List Text) :=
  let footer := (t.footer.filter (!·.isEmpty)).map upper
  t.header.map upper :: t.rows ++ (if footer.isEmpty then [] else [footer])

/-- How many characters a cell has. -/
def width (t : Text) : Nat := (Text.runes t).length

def widths (t : Table) : List Nat :=
  (t.rows ++ [t.footer]).foldl (fun ws row =>
    ws.zipIdx.map fun (w, i) => max w (width ((row[i]?).getD []))) (t.header.map width)

def spaces (n : Nat) : Text := List.replicate n 32

def padLeft (w : Nat) (t : Text) : Text := spaces (w - width t) ++ t
def padRight (w : Nat) (t : Text) : Text := t ++ spaces (w - width t)

/-- A text in the middle; of an odd number of blanks the last goes to the right. -/
def center (w : Nat) (t : Text) : Text :=
  let gap := w - width t
  spaces (gap / 2) ++ t ++ spaces (gap - gap / 2)

/-- Whether a cell holds digits with an optional sign and fraction. -/
def isNumber (t : Text) : Bool :=
  let digits (t : Text) : Bool := !t.isEmpty && t.all fun b => 48 ≤ b && b ≤ 57
  let t := match t with
    | 45 :: r => r
    | t => t
  match Text.cutAt 46 t with
  | some (whole, fraction) => digits whole && digits fraction
  | none => digits t

def rule (ws : List Nat) : Text :=
  List.flatten ["+", ws.flatMap fun w => List.replicate (w + 2) 45 ++ [43], "\n"]

/-- A line of cells, each with the mark that stands after it. -/
def line (cells : List (Text × Text)) : Text :=
  List.flatten ["|", cells.flatMap fun (t, mark) => List.flatten [" ", t, " ", mark], "\n"]

def render (t : Table) : Text :=
  let ws := t.widths
  let row (r : List Text) : Text :=
    line ((ws.zip r).map fun (w, c) => (if isNumber c then padLeft w c else padRight w c, "|"))
  let footer : Text :=
    if t.footer.isEmpty then []
    else
      line ((ws.zip t.footer).map fun (w, c) =>
        (center w (upper c), if c.isEmpty then " " else "|")) ++ rule ws
  List.flatten [rule ws, line ((ws.zip t.header).map fun (w, c) => (center w (upper c), "|")), rule ws,
    t.rows.flatMap row, rule ws, footer]

end Table
end Bytelift.Cli
