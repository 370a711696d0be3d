import ApiTypes.Text.Basic

/-!
Tables of text. A tab ends a cell; cells that stand below each other in neighbouring lines form a
column, which is two blanks wider than its widest cell. The last cell of a line is in no column.
-/

namespace ApiTypes.Table

/-- The cells of a line. -/
abbrev Line := List String

/-- Whether a line has a cell in a column. -/
def hasColumn (column : Nat) (line : Line) : Bool := column + 1 < line.length

def padded (width : Nat) (cell : String) : String :=
  cell ++ Text.replicate (width - cell.length) " "

/-- A line whose first cells are in columns of the given widths. -/
def renderLine : (widths : List Nat) → Line → String
  | width :: widths, cell :: rest => padded width cell ++ renderLine widths rest
  | _, cells => String.join cells

/-- The width of a column. -/
def columnWidth (column : Nat) (lines : List Line) : Nat :=
  lines.foldl (fun width line => max width ((line.getD column "").length + 2)) 0

/-- Writes lines that share columns of the given widths. The next column is found for each run of
lines that have it; `depth` bounds the number of columns. -/
def renderLines : (depth : Nat) → (widths : List Nat) → List Line → List String
  | 0, widths, lines => lines.map (renderLine widths)
  | depth + 1, widths, lines =>
    (runs widths.length lines).flatMap fun (inColumn, run) =>
      if inColumn then
        renderLines depth (widths ++ [columnWidth widths.length run]) run
      else run.map (renderLine widths)
where
  /-- Runs of neighbouring lines that have a column or do not. -/
  runs (column : Nat) : List Line → List (Bool × List Line)
    | [] => []
    | line :: rest =>
      match runs column rest with
      | (inColumn, run) :: others =>
        if hasColumn column line = inColumn then (inColumn, line :: run) :: others
        else (hasColumn column line, [line]) :: (inColumn, run) :: others
      | [] => [(hasColumn column line, [line])]

/-- Writes a text whose cells are ended by tabs. A form feed ends a line and all columns. -/
def render (text : String) : String :=
  let sections := (Text.splitChars '\x0c' text.toList).map fun part =>
    (Text.splitChars '\n' part).map fun line =>
      (Text.splitChars '\t' (line.map fun c => if c = '\x0b' then '\t' else c)).map String.ofList
  Text.join "\n" (sections.flatMap fun lines =>
    renderLines ((lines.map List.length).foldl max 0) [] lines)

end ApiTypes.Table
