import DefaultLowering.Text.Quoted

/-!
# JSON text

Reports are written as JSON, indented by two spaces.  Besides what must be escaped in a string, the
characters `<`, `>` and `&` and the two Unicode line separators are written by their numbers, so that
the text can stand inside a web page.
-/

namespace DefaultLowering.Text

/-- JSON values as far as reports need them. -/
inductive Json where
  | number (n : Nat)
  | text (s : String)
  | list (items : List Json)
  | record (fields : List (String × Json))
  deriving Inhabited

/-- One character of a JSON string. -/
def jsonChar (c : Char) : List Char :=
  match c with
  | '"' => ['\\', '"']
  | '\\' => ['\\', '\\']
  | '\n' => ['\\', 'n']
  | '\r' => ['\\', 'r']
  | '\t' => ['\\', 't']
  | '\x08' => ['\\', 'b']
  | '\x0c' => ['\\', 'f']
  | _ =>
    if c.toNat < 0x20 || c == '<' || c == '>' || c == '&' || c == '\u2028' || c == '\u2029' then
      '\\' :: 'u' :: hexDigits 4 c.toNat
    else [c]

/-- A JSON string. -/
def jsonString (s : String) : String :=
  String.ofList ('"' :: (s.toList.flatMap jsonChar ++ ['"']))

namespace Json

/-- The items of a list or a record, one on each line, between brackets. -/
def enclose (opening closing indent : String) (items : List String) : String :=
  if items.isEmpty then opening ++ closing
  else
    opening ++ "\n" ++ String.intercalate ",\n" (items.map fun x => indent ++ "  " ++ x)
      ++ "\n" ++ indent ++ closing

mutual

/-- The text of a value whose first line is already indented. -/
def render (indent : String) : Json → String
  | .number n => toString n
  | .text s => jsonString s
  | .list items => enclose "[" "]" indent (renderItems (indent ++ "  ") items)
  | .record fields => enclose "\x7b" "\x7d" indent (renderFields (indent ++ "  ") fields)

def renderItems (indent : String) : List Json → List String
  | [] => []
  | x :: xs => x.render indent :: renderItems indent xs

def renderFields (indent : String) : List (String × Json) → List String
  | [] => []
  | (name, x) :: xs => (jsonString name ++ ": " ++ x.render indent) :: renderFields indent xs

end

end Json

end DefaultLowering.Text
