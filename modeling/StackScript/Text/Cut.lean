/-!
# Text that was cut

A bounded output may end inside a character. The bytes of such a character are shown as
one replacement character, and the text before them is read as it stands.
-/

namespace StackScript.Text

/-- What stands for the bytes of a character that was cut. -/
def replacement : String := "�"

/--
Reads UTF-8 bytes whose last character may be cut. A character has at most four bytes, so
at most three of them have to be left out.
-/
def ofCutBytes (bytes : ByteArray) : String :=
  let shorter (dropped : Nat) : Option String :=
    String.fromUTF8? (bytes.extract 0 (bytes.size - dropped))
  match String.fromUTF8? bytes with
  | some text => text
  | none =>
    match [1, 2, 3].findSome? shorter with
    | some text => text ++ replacement
    | none => replacement

end StackScript.Text
