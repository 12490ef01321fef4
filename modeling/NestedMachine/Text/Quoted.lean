import NestedMachine.Text.Hex

/-!
# Quoted text

How a text is shown inside a message: between double quotes, with escapes for the quote, the backslash and the control characters of ASCII. All other characters stand for themselves.
-/

namespace NestedMachine.Text

/-- One character inside quotes. -/
def quotedChar (c : Char) : String :=
  match c with
  | '"' => "\\\""
  | '\\' => "\\\\"
  | '\n' => "\\n"
  | '\r' => "\\r"
  | '\t' => "\\t"
  | '\x00' => "\\0"
  | _ =>
    if c.toNat < 0x20 ∨ c.toNat = 0x7f then "\\u\x7b" ++ hex c.toNat ++ "\x7d" else c.toString

/-- A text in quotes. -/
def quoted (text : String) : String :=
  "\"" ++ String.join (text.toList.map quotedChar) ++ "\""

end NestedMachine.Text
