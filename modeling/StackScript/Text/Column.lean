/-!
# Columns

Text set to a width by blanks or zeros. A text that is already wide enough is left
alone, so columns may be pushed out of line but nothing is cut.
-/

namespace StackScript.Text

/-- Sets `text` at the right end of a column, filled up with `fill` on the left. -/
def alignRight (width : Nat) (fill : Char) (text : String) : String :=
  String.ofList (List.replicate (width - text.length) fill) ++ text

/-- Sets `text` at the left end of a column, filled up with blanks on the right. -/
def alignLeft (width : Nat) (text : String) : String :=
  text ++ String.ofList (List.replicate (width - text.length) ' ')

end StackScript.Text
