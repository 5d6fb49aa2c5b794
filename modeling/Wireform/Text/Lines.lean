/-!
# Lines of a text

A line ends at a line feed, and one carriage return right before it belongs to the ending. What
follows the last line feed is a line only if it is not empty.
-/

namespace Wireform.Text

def dropReturn : List Char → List Char
  | '\r' :: cs => cs
  | cs => cs

/-- `sofar` is the line read up to here, last character first. -/
def linesFrom (sofar : List Char) : List Char → List String
  | [] => if sofar.isEmpty then [] else [String.ofList sofar.reverse]
  | '\n' :: cs => String.ofList (dropReturn sofar).reverse :: linesFrom [] cs
  | c :: cs => linesFrom (c :: sofar) cs

def lines (s : String) : List String := linesFrom [] s.toList

end Wireform.Text
