/-! Splitting a text into lines, and into the parts around a separator. -/

namespace PLZero.Text

/-- A line read backwards, without the carriage return that ended it. -/
def closeLine : List Char → List Char
  | '\r' :: acc => acc.reverse
  | acc => acc.reverse

def linesFrom : List Char → List Char → List (List Char)
  | [], [] => []
  | acc, [] => [acc.reverse]
  | acc, '\n' :: rest => closeLine acc :: linesFrom [] rest
  | acc, c :: rest => linesFrom (c :: acc) rest

/-- The lines of a text: each ends at a line feed, a carriage return before the feed is dropped,
and nothing after the last feed is no line. -/
def lines (cs : List Char) : List (List Char) := linesFrom [] cs

def behindLast (mark : List Char) : List Char → Option (List Char)
  | [] => none
  | c :: rest =>
    match behindLast mark rest with
    | some tail => some tail
    | none => if mark.isPrefixOf (c :: rest) then some ((c :: rest).drop mark.length) else none

def splitAt (mark : Char) : List Char → List (List Char)
  | [] => [[]]
  | c :: rest =>
    if c = mark then [] :: splitAt mark rest
    else match splitAt mark rest with
      | part :: parts => (c :: part) :: parts
      | [] => [[c]]

end PLZero.Text
