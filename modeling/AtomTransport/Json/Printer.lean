import AtomTransport.Json
import AtomTransport.Binary64.Decimal

/-!
# Writing JSON

The compact text has no blanks. The indented text puts every item and every member on a line of its
own and indents each level by two blanks. A part that was left unread is written as it was spelled.
-/

namespace AtomTransport.Json

def charText (c : Char) : String :=
  if c = '"' then "\\\""
  else if c = '\\' then "\\\\"
  else if c = '\n' then "\\n"
  else if c = '\r' then "\\r"
  else if c = '\t' then "\\t"
  else if c = '\x08' then "\\b"
  else if c = '\x0c' then "\\f"
  else if c.toNat < 0x20 then
    let digits := Nat.toDigits 16 c.toNat
    "\\u" ++ String.ofList (List.replicate (4 - digits.length) '0' ++ digits)
  else c.toString

def quoted (s : String) : String := "\"" ++ String.join (s.toList.map charText) ++ "\""

mutual

def compact : Json → String
  | null => "null"
  | bool b => if b then "true" else "false"
  | int n => toString n
  | float x => x.documentText
  | str s => quoted s
  | arr items => "[" ++ ",".intercalate (compactAll items) ++ "]"
  | obj members => "\x7b" ++ ",".intercalate (compactMembers members) ++ "\x7d"
  | unread text => text

def compactAll : List Json → List String
  | [] => []
  | v :: vs => v.compact :: compactAll vs

def compactMembers : List (String × Json) → List String
  | [] => []
  | (k, v) :: ms => (quoted k ++ ":" ++ v.compact) :: compactMembers ms

end

def newline (level : Nat) : String := "\n" ++ String.ofList (List.replicate (2 * level) ' ')

mutual

def indented (level : Nat) : Json → String
  | arr [] => "[]"
  | obj [] => "\x7b\x7d"
  | arr items =>
    "[" ++ newline (level + 1) ++ ("," ++ newline (level + 1)).intercalate (indentedAll (level + 1) items)
      ++ newline level ++ "]"
  | obj members =>
    "\x7b" ++ newline (level + 1)
      ++ ("," ++ newline (level + 1)).intercalate (indentedMembers (level + 1) members)
      ++ newline level ++ "\x7d"
  | v => v.compact

def indentedAll (level : Nat) : List Json → List String
  | [] => []
  | v :: vs => v.indented level :: indentedAll level vs

def indentedMembers (level : Nat) : List (String × Json) → List String
  | [] => []
  | (k, v) :: ms => (quoted k ++ ": " ++ v.indented level) :: indentedMembers level ms

end

def pretty (v : Json) : String := v.indented 0

end AtomTransport.Json
