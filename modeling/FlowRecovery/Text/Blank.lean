namespace FlowRecovery.Text

/-- Whether a character is white space: the controls from tab to carriage return, next line, and
the space, line and paragraph separators. -/
def isBlank (c : Char) : Bool :=
  let n := c.toNat
  (0x09 ≤ n && n ≤ 0x0d) || n == 0x20 || n == 0x85 || n == 0xa0 || n == 0x1680 ||
    (0x2000 ≤ n && n ≤ 0x200a) || n == 0x2028 || n == 0x2029 || n == 0x202f || n == 0x205f ||
    n == 0x3000

def trim (text : List Char) : List Char :=
  ((text.dropWhile isBlank).reverse.dropWhile isBlank).reverse

/-- The pieces of a text between the characters of a class; there is always a last piece. -/
def splitAt (separates : Char → Bool) : List Char → List (List Char)
  | [] => [[]]
  | c :: rest =>
    if separates c then [] :: splitAt separates rest
    else match splitAt separates rest with
      | [] => [[c]]
      | piece :: pieces => (c :: piece) :: pieces

/-- The lines of a text. A text that ends in a line feed has an empty last line. -/
def lines (text : List Char) : List (List Char) :=
  splitAt (· == '\n') text

def words (text : List Char) : List (List Char) :=
  (splitAt isBlank text).filter (!·.isEmpty)

/-- The rest of a text that starts with a mark. -/
def after? : (mark text : List Char) → Option (List Char)
  | [], text => some text
  | m :: mark, c :: text => if m = c then after? mark text else none
  | _ :: _, [] => none

/-- The parts of a text before and after its first occurrence of a character. -/
def splitOnce? (separator : Char) : List Char → Option (List Char × List Char)
  | [] => none
  | c :: rest =>
    if c = separator then some ([], rest)
    else (splitOnce? separator rest).map fun (before, behind) => (c :: before, behind)

/-- Whether a trimmed line says nothing: it is empty or a comment. -/
def isComment : List Char → Bool
  | [] => true
  | c :: _ => c == '#'

/-- The lines of a text that say something, trimmed, each with its number from one. -/
def numberedLines (text : List Char) : List (Nat × List Char) :=
  ((lines text).zipIdx 1).filterMap fun (line, number) =>
    let line := trim line
    if isComment line then none else some (number, line)

end FlowRecovery.Text
