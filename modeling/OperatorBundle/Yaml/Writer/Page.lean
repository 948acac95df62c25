import OperatorBundle.Yaml.Writer.Style

/-!
A page under the pen: what has been written so far, and what the next mark has to know of it.
-/

namespace OperatorBundle.Yaml

open OperatorBundle.Text

/-- A page: its characters, latest first, the column of the pen, whether the last thing written was
a gap, and whether the line holds nothing but indentation and marks that indent. -/
structure Page where
  text : List Char
  column : Nat
  gap : Bool
  fresh : Bool

namespace Page

/-- The empty page. -/
def empty : Page := ⟨[], 0, true, true⟩

/-- A character is written. -/
def put (page : Page) (c : Char) : Page :=
  { page with text := c :: page.text, column := page.column + 1 }

/-- Characters are written. -/
def puts (page : Page) (cs : List Char) : Page := cs.foldl put page

/-- A break is written. -/
def putBreak (page : Page) (c : Char) : Page := { page with text := c :: page.text, column := 0 }

/-- A gap is written unless there is one. -/
def withGap (page : Page) : Page := if page.gap then page else page.put ' '

/-- The pen stands after a word. -/
def afterWord (page : Page) : Page := { page with gap := false, fresh := false }

/-- A mark is written after a gap. A mark that indents, such as a dash, leaves the line fresh. -/
def mark (page : Page) (cs : List Char) (indents : Bool) : Page :=
  let page := page.withGap.puts cs
  { page with gap := false, fresh := page.fresh && indents }

/-- A mark is written right after what stands before it. -/
def close (page : Page) (cs : List Char) : Page := (page.puts cs).afterWord

/-- The pen moves to a column, on a new line unless the line is fresh and not yet that wide. -/
def indentTo (page : Page) (indent : Int) : Page :=
  let width := indent.toNat
  let page :=
    if !page.fresh || width < page.column || (page.column = width && !page.gap) then
      page.putBreak '\n'
    else page
  { page.puts (List.replicate (width - page.column) ' ') with gap := true, fresh := true }

/-! ### Scalars -/

/-- A plain scalar. -/
def plain (page : Page) (cs : List Char) : Page :=
  if cs.isEmpty then page.afterWord else (page.withGap.puts cs).afterWord

/-- The characters of a text in single quotes. A break that is no line feed is written as it is, and
the next line is indented; the flag says that a break was written last. -/
def singleChars (indent : Int) : List Char → Bool → Page → Page
  | [], broken, page => if broken then page.indentTo indent else page
  | c :: rest, broken, page =>
    if c = ' ' then singleChars indent rest broken (page.put c)
    else if endsLine c then
      let page := if !broken && c = '\n' then page.putBreak '\n' else page
      singleChars indent rest true { page.putBreak c with fresh := true }
    else
      let page := if broken then page.indentTo indent else page
      let page := if c = '\'' then page.put c else page
      singleChars indent rest false { page.put c with fresh := false }

/-- A text in single quotes. -/
def single (page : Page) (indent : Int) (cs : List Char) : Page :=
  (singleChars indent cs false (page.mark ['\''] false)).close ['\'']

/-- The escape letter of a character, if it has one. -/
def escapeLetter? (c : Char) : Option Char :=
  ([('\x00', '0'), ('\x07', 'a'), ('\x08', 'b'), ('\t', 't'), ('\n', 'n'), ('\x0b', 'v'),
    ('\x0c', 'f'), ('\r', 'r'), ('\x1b', 'e'), ('"', '"'), ('\\', '\\'), ('\x85', 'N'),
    ('\u2028', 'L'), ('\u2029', 'P')] : List (Char × Char)).lookup c

/-- An upper-case hexadecimal numeral of a fixed width. -/
def hexDigits (width n : Nat) : List Char := (hexPadded width n).map Char.toUpper

/-- One character of a text in double quotes. -/
def doubleChar (c : Char) : List Char :=
  if isWritable c && !endsLine c && c ≠ '"' && c ≠ '\\' then [c]
  else match escapeLetter? c with
    | some letter => ['\\', letter]
    | none =>
      if c.toNat ≤ 0xFF then '\\' :: 'x' :: hexDigits 2 c.toNat
      else if c.toNat ≤ 0xFFFF then '\\' :: 'u' :: hexDigits 4 c.toNat
      else '\\' :: 'U' :: hexDigits 8 c.toNat

/-- A text in double quotes. -/
def double (page : Page) (cs : List Char) : Page :=
  ((page.mark ['"'] false).puts (cs.flatMap doubleChar)).close ['"']

/-- The marks after the bar of a literal: the indentation if the text starts with a blank or break,
and what happens to the breaks at its end. -/
def literalMarks (cs : List Char) : List Char :=
  let indentation := if cs.head?.any fun c => c = ' ' || endsLine c then ['2'] else []
  let chomping := match cs.reverse with
    | last :: before =>
      if !endsLine last then ['-']
      else if before.head?.all endsLine then ['+'] else []
    | [] => ['-']
  indentation ++ chomping

/-- The lines of a literal; the flag says that a break was written last. -/
def literalChars (indent : Int) : List Char → Bool → Page → Page
  | [], _, page => page
  | c :: rest, broken, page =>
    if endsLine c then literalChars indent rest true { page.putBreak c with fresh := true }
    else
      let page := if broken then page.indentTo indent else page
      literalChars indent rest false { page.put c with fresh := false }

/-- A text as a literal block. -/
def literal (page : Page) (indent : Int) (cs : List Char) : Page :=
  let page := (page.mark ['|'] false).close (literalMarks cs)
  literalChars indent cs true { page.putBreak '\n' with gap := true, fresh := true }

/-- A scalar in a given style, its further lines at a given indentation. -/
def scalar (page : Page) (style : Style) (indent : Int) (cs : List Char) : Page :=
  match style with
  | .plain => page.plain cs
  | .single => page.single indent cs
  | .double => page.double cs
  | .literal => page.literal indent cs

/-! ### Tags -/

/-- A character of a tag that is written as it is. -/
def isPlainInTag (c : Char) : Bool :=
  isWord c || [';', '/', '?', ':', '@', '&', '=', '+', '$', ',', '.', '~', '*', '\'', '(', ')', '[',
    ']'].contains c

/-- A character of a tag: as it is, or each of its bytes as a percent sign and two digits. -/
def tagChar (c : Char) : List Char :=
  if isPlainInTag c then [c]
  else (String.ofList [c]).toUTF8.toList.flatMap fun byte => '%' :: hexDigits 2 byte.toNat

/-- The text of a tag with its exclamation mark, up to a zero character. -/
def markedTag (tag : String) : List Char :=
  let cs := tag.toList
  (if cs.head? = some '!' then cs else '!' :: cs).takeWhile (· ≠ '\x00')

/-- A tag is written: a mark and the text after it, or a lone mark between angle brackets. -/
def tag (page : Page) (tag : String) : Page :=
  match markedTag tag with
  | '!' :: c :: rest => (page.withGap.put '!').close ((c :: rest).flatMap tagChar)
  | cs => (page.mark ['!', '<'] false).close (cs.flatMap tagChar ++ ['>'])

end Page

end OperatorBundle.Yaml
