import NestedMachine.Text.Hex
import NestedMachine.Json.Basic

/-!
# Writing JSON

Two forms: `compact` has no blanks at all, and `pretty` puts each item on a line of its own, two spaces further in than what holds it.
-/

namespace NestedMachine.Json

/-- One character inside quotes. Only the quote, the backslash and control characters below the space are escaped. -/
def writtenChar (c : Char) : String :=
  match c with
  | '"' => "\\\""
  | '\\' => "\\\\"
  | '\x08' => "\\b"
  | '\x0c' => "\\f"
  | '\n' => "\\n"
  | '\r' => "\\r"
  | '\t' => "\\t"
  | _ =>
    if c.toNat < 0x10 then "\\u000" ++ Text.hex c.toNat
    else if c.toNat < 0x20 then "\\u00" ++ Text.hex c.toNat
    else c.toString

/-- A text in quotes. -/
def written (text : String) : String := "\"" ++ String.join (text.toList.map writtenChar) ++ "\""

mutual

/-- The text of a value without blanks. A value that nothing is read from has no text of its own, and is written as `null`. -/
def compact : Json → String
  | null | real | unreadable => "null"
  | bool value => if value then "true" else "false"
  | int value => toString value
  | text value => written value
  | array items => "[" ++ ",".intercalate (compactItems items) ++ "]"
  | object fields => "\x7b" ++ ",".intercalate (compactFields fields) ++ "\x7d"

/-- The texts of several values. -/
def compactItems : List Json → List String
  | [] => []
  | first :: rest => compact first :: compactItems rest

/-- The texts of several fields. -/
def compactFields : List (String × Json) → List String
  | [] => []
  | (name, value) :: rest => (written name ++ ":" ++ compact value) :: compactFields rest

end

/-- Lines between an opening and a closing bracket, `depth` levels in. Without lines the brackets stand together. -/
def block (opening closing : String) (depth : Nat) (lines : List String) : String :=
  if lines.isEmpty then opening ++ closing
  else
    let indent (depth : Nat) : String := "\n" ++ String.join (List.replicate depth "  ")
    opening ++ ",".intercalate (lines.map (indent (depth + 1) ++ ·)) ++ indent depth ++ closing

mutual

/-- The text of a value that stands `depth` levels in. -/
def indented (depth : Nat) : Json → String
  | null | real | unreadable => "null"
  | bool value => if value then "true" else "false"
  | int value => toString value
  | text value => written value
  | array items => block "[" "]" depth (indentedItems depth items)
  | object fields => block "\x7b" "\x7d" depth (indentedFields depth fields)

/-- The texts of the items of a value that stands `depth` levels in. -/
def indentedItems (depth : Nat) : List Json → List String
  | [] => []
  | first :: rest => indented (depth + 1) first :: indentedItems depth rest

/-- The texts of the fields of a value that stands `depth` levels in. -/
def indentedFields (depth : Nat) : List (String × Json) → List String
  | [] => []
  | (name, value) :: rest =>
    (written name ++ ": " ++ indented (depth + 1) value) :: indentedFields depth rest

end

/-- The text of a value, each item on a line of its own. -/
def pretty (json : Json) : String := indented 0 json

end NestedMachine.Json
