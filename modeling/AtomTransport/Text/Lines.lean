/-!
# Lines

A line break ends a line, and a carriage return in front of it belongs to the break. The last line
may be without a break, but it is not empty.
-/

namespace AtomTransport.Text

/-- The lines of a text whose current line, last character first, has been read so far. -/
def linesFrom (line : List Char) : List Char → List String
  | [] => if line.isEmpty then [] else [String.ofList line.reverse]
  | '\n' :: rest =>
    let ended := match line with
      | '\r' :: line => line
      | line => line
    String.ofList ended.reverse :: linesFrom [] rest
  | c :: rest => linesFrom (c :: line) rest

def lines (s : String) : List String := linesFrom [] s.toList

def unlines (ls : List String) : String := String.join (ls.map (· ++ "\n"))

end AtomTransport.Text
